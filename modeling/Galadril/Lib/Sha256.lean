import Mathlib

namespace Galadril.Lib.Sha256

def word (n : Nat) : Nat := n % 4294967296

def rotr (n x : Nat) : Nat := word (x >>> n ||| x <<< (32 - n))

def sigma0 (x : Nat) : Nat := rotr 7 x ^^^ rotr 18 x ^^^ (x >>> 3)

def sigma1 (x : Nat) : Nat := rotr 17 x ^^^ rotr 19 x ^^^ (x >>> 10)

def choose (x y z : Nat) : Nat := (x &&& y) ^^^ ((4294967295 - x) &&& z)

def majority (x y z : Nat) : Nat := (x &&& y) ^^^ (x &&& z) ^^^ (y &&& z)

def constants : List Nat := [
  0x428a2f98, 0x71374491, 0xb5c0fbcf, 0xe9b5dba5, 0x3956c25b, 0x59f111f1, 0x923f82a4, 0xab1c5ed5,
  0xd807aa98, 0x12835b01, 0x243185be, 0x550c7dc3, 0x72be5d74, 0x80deb1fe, 0x9bdc06a7, 0xc19bf174,
  0xe49b69c1, 0xefbe4786, 0x0fc19dc6, 0x240ca1cc, 0x2de92c6f, 0x4a7484aa, 0x5cb0a9dc, 0x76f988da,
  0x983e5152, 0xa831c66d, 0xb00327c8, 0xbf597fc7, 0xc6e00bf3, 0xd5a79147, 0x06ca6351, 0x14292967,
  0x27b70a85, 0x2e1b2138, 0x4d2c6dfc, 0x53380d13, 0x650a7354, 0x766a0abb, 0x81c2c92e, 0x92722c85,
  0xa2bfe8a1, 0xa81a664b, 0xc24b8b70, 0xc76c51a3, 0xd192e819, 0xd6990624, 0xf40e3585, 0x106aa070,
  0x19a4c116, 0x1e376c08, 0x2748774c, 0x34b0bcb5, 0x391c0cb3, 0x4ed8aa4a, 0x5b9cca4f, 0x682e6ff3,
  0x748f82ee, 0x78a5636f, 0x84c87814, 0x8cc70208, 0x90befffa, 0xa4506ceb, 0xbef9a3f7, 0xc67178f2]

def extend : Nat → List Nat → List Nat
  | 0, ws => ws
  | n + 1, ws =>
      extend n (word (sigma1 (ws.getD 1 0) + ws.getD 6 0 + sigma0 (ws.getD 14 0) + ws.getD 15 0) :: ws)

structure Digest where
  (a b c d e f g h : Nat)

def initial : Digest :=
  ⟨0x6a09e667, 0xbb67ae85, 0x3c6ef372, 0xa54ff53a, 0x510e527f, 0x9b05688c, 0x1f83d9ab, 0x5be0cd19⟩

def round (s : Digest) (kw : Nat × Nat) : Digest :=
  let t1 := s.h + (rotr 6 s.e ^^^ rotr 11 s.e ^^^ rotr 25 s.e) + choose s.e s.f s.g + kw.1 + kw.2
  let t2 := (rotr 2 s.a ^^^ rotr 13 s.a ^^^ rotr 22 s.a) + majority s.a s.b s.c
  ⟨word (t1 + t2), s.a, s.b, s.c, word (s.d + t1), s.e, s.f, s.g⟩

def compress (s : Digest) (block : List Nat) : Digest :=
  let r := (constants.zip (extend 48 block.reverse).reverse).foldl round s
  ⟨word (s.a + r.a), word (s.b + r.b), word (s.c + r.c), word (s.d + r.d),
    word (s.e + r.e), word (s.f + r.f), word (s.g + r.g), word (s.h + r.h)⟩

def padding (length : Nat) : List UInt8 :=
  (128 : UInt8) :: List.replicate ((119 - length % 64) % 64) 0 ++
    (List.range 8).map (fun i => UInt8.ofNat ((8 * length) >>> (8 * (7 - i))))

def words : List UInt8 → List Nat
  | a :: b :: c :: d :: rest =>
      (((a.toNat * 256 + b.toNat) * 256 + c.toNat) * 256 + d.toNat) :: words rest
  | _ => []

def hex (n : Nat) : List Char :=
  (List.range 8).map fun i =>
    let d := (n >>> (4 * (7 - i))) % 16
    if d < 10 then Char.ofNat (48 + d) else Char.ofNat (87 + d)

def sha256 (message : List UInt8) : String :=
  let ws := words (message ++ padding message.length)
  let s := (List.range (ws.length / 16)).foldl (fun s i => compress s ((ws.drop (16 * i)).take 16)) initial
  String.ofList ([s.a, s.b, s.c, s.d, s.e, s.f, s.g, s.h].flatMap hex)

example : sha256 [97, 98, 99] = "ba7816bf8f01cfea414140de5dae2223b00361a396177a9cb410ff61f20015ad" := by
  decide +kernel

def hexDigits : List Char := ['0', '1', '2', '3', '4', '5', '6', '7', '8', '9', 'a', 'b', 'c', 'd', 'e', 'f']

theorem sha256_chars (m : List UInt8) : (sha256 m).toList.length = 64 ∧ ∀ c ∈ (sha256 m).toList, c ∈ hexDigits := by
  have hdigit : ∀ d < 16, (if d < 10 then Char.ofNat (48 + d) else Char.ofNat (87 + d)) ∈ hexDigits := by decide
  simp only [sha256, String.toList_ofList]
  refine ⟨by simp [hex], fun c hc => ?_⟩
  obtain ⟨n, -, hn⟩ := List.mem_flatMap.mp hc
  obtain ⟨i, -, rfl⟩ := List.mem_map.mp hn
  exact hdigit _ (Nat.mod_lt _ (by decide))

end Galadril.Lib.Sha256
