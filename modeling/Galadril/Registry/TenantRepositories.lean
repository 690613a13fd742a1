import Galadril.Lib.Checked
import Galadril.Lib.Sha256
import Galadril.Lib.Text
import Galadril.Registry.Identity

namespace Galadril.Registry

open Lib.Checked Lib.Text Identity

def isLower (c : Char) : Bool := 97 ≤ c.toNat && c.toNat ≤ 122

/-- Nonempty, at most 63 bytes, and made of lower-case ASCII letters, digits
and hyphens. -/
def validSegment (value : String) : Bool :=
  value != "" && value.utf8ByteSize ≤ 63 && value.toList.all (fun c => isLower c || c.isDigit || c == '-')

def validBucket (value : String) : Bool :=
  3 ≤ value.utf8ByteSize && value.utf8ByteSize ≤ 63 &&
    value.toList.all (fun c => isLower c || c.isDigit || c == '.' || c == '-') &&
    !(value.toList.head?.any (fun c => c == '.' || c == '-')) &&
    !(value.toList.getLast?.any (fun c => c == '.' || c == '-')) &&
    !(occursIn ['.', '.'] value.toList)

/-- The parts of a parsed URL that the checks read. -/
structure Url where
  scheme : String
  host : Option String
  username : String
  password : Option String
  path : String
  query : Option String
  fragment : Option String
  deriving DecidableEq

def Url.bare (url : Url) : Bool :=
  (url.scheme == "http" || url.scheme == "https") && url.host.isSome && url.username == "" &&
    url.password.isNone && (url.path == "" || url.path == "/") && url.query.isNone && url.fragment.isNone

structure LakeFsConfig where
  endpoint : String
  accessKey : String
  secretKey : String
  repositoryPrefix : String
  storageNamespace : String
  branch : String
  deriving DecidableEq

structure S3Config where
  endpoint : String
  region : String
  accessKey : String
  secretKey : String
  deriving DecidableEq

structure S3TenantDirectory where
  bucket : String
  keyPrefix : String
  deriving DecidableEq

structure LakeFsStore where
  config : LakeFsConfig
  directory : S3TenantDirectory
  deriving DecidableEq

def validKeyPrefix (value : List Char) : Bool :=
  value.isEmpty || (value.getLast? == some '/' && value.head? != some '/' && !(occursIn ['.', '.'] value) &&
    !(occursIn ['/', '/'] value) &&
    value.all (fun c => c.isAlphanum || c == '/' || c == '_' || c == '-' || c == '.'))

variable (parseUrl : String → Option Url)

def S3TenantDirectory.new (config : S3Config) (storageNamespace : String) : Except String S3TenantDirectory := do
  let endpoint ← context (parseUrl config.endpoint) "invalid URL"
  ensure endpoint.bare "invalid S3 endpoint"
  ensure (config.region != "" && config.region.utf8ByteSize ≤ 64 &&
    config.region.toList.all (fun c => c.isAlphanum || c == '-' || c == '_')) "invalid S3 region"
  ensure (config.accessKey != "" && config.accessKey.utf8ByteSize ≤ 256) "invalid S3 access key"
  ensure (config.secretKey != "") "invalid S3 secret key"
  let rest ← context (stripStart "s3://".toList storageNamespace.toList) "invalid S3 storage namespace"
  let (bucket, keyPrefix) ← context (splitOnce '/' rest) "S3 storage namespace requires a prefix"
  ensure (validBucket (String.ofList bucket)) "invalid S3 bucket"
  ensure (validKeyPrefix keyPrefix) "invalid S3 namespace prefix"
  return ⟨String.ofList bucket, String.ofList keyPrefix⟩

def LakeFsStore.new (config : LakeFsConfig) (s3 : S3Config) : Except String LakeFsStore := do
  let endpoint ← context (parseUrl config.endpoint) "invalid URL"
  ensure endpoint.bare "invalid lakeFS endpoint"
  ensure (validSegment config.repositoryPrefix) "invalid repository prefix"
  ensure (validSegment config.branch) "invalid lakeFS branch"
  ensure (config.accessKey != "" && config.accessKey.utf8ByteSize ≤ 256) "invalid lakeFS access key"
  ensure (config.secretKey != "") "invalid lakeFS secret key"
  ensure ((stripStart "s3://".toList config.storageNamespace.toList).isSome &&
    config.storageNamespace.toList.getLast? == some '/')
    "lakeFS storage namespace must be an S3 prefix ending in slash"
  let directory ← S3TenantDirectory.new parseUrl s3 config.storageNamespace
  return ⟨config, directory⟩

def tenantDigest (tenantId : String) : List Char :=
  (Lib.Sha256.sha256 (tenantId.toList.flatMap String.utf8EncodeChar)).toList

def LakeFsStore.repositoryForTenant (store : LakeFsStore) (tenantId : String) : Except String String := do
  ensure (validTenant tenantId) "invalid tenant ID"
  return String.ofList ((store.config.repositoryPrefix.toList ++ '-' :: tenantDigest tenantId).take 63)

def LakeFsStore.digits (store : LakeFsStore) : Nat := 62 - store.config.repositoryPrefix.length

theorem take_named (stem digest : List Char) :
    (stem ++ '-' :: digest).take 63 = (stem ++ ['-']).take 63 ++ digest.take (62 - stem.length) := by
  rw [show stem ++ '-' :: digest = (stem ++ ['-']) ++ digest by simp, List.take_append, List.length_append]
  congr 2
  simp

theorem repositoryForTenant_eq {store : LakeFsStore} {tenantId : String} (h : validTenant tenantId = true) :
    store.repositoryForTenant tenantId = .ok (String.ofList
      ((store.config.repositoryPrefix.toList ++ ['-']).take 63 ++ (tenantDigest tenantId).take store.digits)) := by
  rw [LakeFsStore.repositoryForTenant, h, ensure_true, ok_bind, take_named]
  rfl

/-- Two lists that agree on their first digits agree on fewer. -/
theorem take_ne_of_le {digest digest' : List Char} {n k : Nat} (hnk : n ≤ k) (h : digest.take n ≠ digest'.take n) :
    digest.take k ≠ digest'.take k := by
  intro he
  apply h
  have := congrArg (List.take n) he
  rwa [List.take_take, List.take_take, Nat.min_eq_left hnk] at this

/-- Repositories of two tenants differ exactly when their digests differ in the
digits that the configured prefix leaves; up to 30 characters of it leave
enough of them. -/
theorem repositories_separate {config : LakeFsConfig} {s3 : S3Config} {store : LakeFsStore}
    (hnew : LakeFsStore.new parseUrl config s3 = .ok store) :
    (∀ t t', validTenant t = true → validTenant t' = true → t ≠ t' →
      (store.repositoryForTenant t ≠ store.repositoryForTenant t' ↔
        (tenantDigest t).take (62 - config.repositoryPrefix.length) ≠
          (tenantDigest t').take (62 - config.repositoryPrefix.length))) ∧
    (config.repositoryPrefix.length ≤ 30 → ∀ t t', validTenant t = true → validTenant t' = true → t ≠ t' →
      (tenantDigest t).take 32 ≠ (tenantDigest t').take 32 →
      store.repositoryForTenant t ≠ store.repositoryForTenant t') := by
  obtain rfl : store.config = config := by
    simp only [LakeFsStore.new, bind_eq_ok, pure_eq_ok] at hnew
    obtain ⟨_, -, _, -, _, -, _, -, _, -, _, -, _, -, directory, -, rfl⟩ := hnew
    rfl
  have hiff : ∀ t t', validTenant t = true → validTenant t' = true →
      (store.repositoryForTenant t ≠ store.repositoryForTenant t' ↔
        (tenantDigest t).take store.digits ≠ (tenantDigest t').take store.digits) := by
    intro t t' ht ht'
    rw [repositoryForTenant_eq ht, repositoryForTenant_eq ht']
    simp [String.ofList_inj]
  refine ⟨fun t t' ht ht' _ => hiff t t' ht ht', fun hlen t t' ht ht' _ hne => (hiff t t' ht ht').mpr ?_⟩
  refine take_ne_of_le ?_ hne
  rw [LakeFsStore.digits]
  omega

def exampleUrl (text : String) : Option Url :=
  if text = "http://lakefs:8000" then some ⟨"http", some "lakefs", "", none, "/", none, none⟩ else none

def exampleConfig (repositoryPrefix : String) : LakeFsConfig :=
  ⟨"http://lakefs:8000", "access", "secret", repositoryPrefix, "s3://galadril/", "main"⟩

def exampleS3 : S3Config := ⟨"http://lakefs:8000", "eu-west-1", "access", "secret"⟩

def exampleStore (repositoryPrefix : String) : LakeFsStore := ⟨exampleConfig repositoryPrefix, "galadril", ""⟩

theorem repositories_separate_default :
    (exampleStore "galadril").repositoryForTenant "a" ≠ (exampleStore "galadril").repositoryForTenant "b" :=
  (@repositories_separate exampleUrl (exampleConfig "galadril") exampleS3 (exampleStore "galadril") (by decide +kernel)).2
    (by decide) "a" "b" (by decide) (by decide) (by decide) (by decide +kernel)

/-- A prefix of 62 admitted characters leaves no digit at all. -/
theorem repositories_shared : ∃ store, LakeFsStore.new exampleUrl
    (exampleConfig "registry-of-the-european-production-environment-of-galadril-eu") exampleS3 = .ok store ∧
    validTenant "a" = true ∧ validTenant "b" = true ∧ (tenantDigest "a").take 32 ≠ (tenantDigest "b").take 32 ∧
    store.repositoryForTenant "a" = store.repositoryForTenant "b" :=
  ⟨exampleStore "registry-of-the-european-production-environment-of-galadril-eu", by decide +kernel, by decide, by decide,
    by decide +kernel, by decide +kernel⟩

end Galadril.Registry
