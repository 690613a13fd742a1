import Galadril.Lib.Transitions
import Galadril.Lib.Table

namespace Galadril.Iam.PolicyCache

open Lib Lib.Transitions

def usizeMax : Nat := 2 ^ 64 - 1

def saturatingAdd (a b : Nat) : Nat := min (a + b) usizeMax

/-- A sum or difference that leaves the machine word panics. -/
def checkedAdd (a b : Nat) : Option Nat := if a + b ≤ usizeMax then some (a + b) else none

def checkedSub (a b : Nat) : Option Nat := if b ≤ a then some (a - b) else none

theorem checkedAdd_of_le {a b : Nat} (h : a + b ≤ usizeMax) : checkedAdd a b = some (a + b) := if_pos h

theorem checkedSub_add (a b : Nat) : checkedSub (a + b) b = some a := by
  rw [checkedSub, if_pos (Nat.le_add_left b a), Nat.add_sub_cancel]

variable {π : Type}

structure CachedPolicy (π : Type) where
  source : String
  policies : π

structure TenantPolicyCache (π : Type) where
  entries : Table (Prod.fst : String × CachedPolicy π → String)
  insertionOrder : List String
  sourceBytes : Nat
  maxEntries : Nat
  maxSourceBytes : Nat

namespace TenantPolicyCache

def new (maxEntries maxSourceBytes : Nat) : TenantPolicyCache π := ⟨.empty, [], 0, maxEntries, maxSourceBytes⟩

def take (cache : TenantPolicyCache π) (tenantId : String) (previous : CachedPolicy π) : Option (TenantPolicyCache π) :=
  (checkedSub cache.sourceBytes previous.source.utf8ByteSize).map fun bytes =>
    { cache with entries := cache.entries.delete fun entry => entry.1 = tenantId, sourceBytes := bytes }

def remove (cache : TenantPolicyCache π) (tenantId : String) : Option (TenantPolicyCache π) :=
  match cache.entries.find tenantId with
  | none => some cache
  | some (_, previous) =>
      (cache.take tenantId previous).map fun cache =>
        { cache with insertionOrder := cache.insertionOrder.filter (· ≠ tenantId) }

def full (cache : TenantPolicyCache π) (size : Nat) : Bool :=
  cache.entries.rows.length ≥ cache.maxEntries || saturatingAdd cache.sourceBytes size > cache.maxSourceBytes

inductive Eviction (π : Type)
  | room (cache : TenantPolicyCache π)
  | exhausted (cache : TenantPolicyCache π)

def evict (size : Nat) (cache : TenantPolicyCache π) : List String → Option (Eviction π)
  | [] => some (if cache.full size then .exhausted { cache with insertionOrder := [] }
      else .room { cache with insertionOrder := [] })
  | oldest :: queue =>
      if cache.full size then
        match cache.entries.find oldest with
        | none => evict size cache queue
        | some (_, previous) =>
            match cache.take oldest previous with
            | none => none
            | some cache => evict size cache queue
      else some (.room { cache with insertionOrder := oldest :: queue })

def push (cache : TenantPolicyCache π) (tenantId source : String) (policies : π) : Option (TenantPolicyCache π) :=
  (checkedAdd cache.sourceBytes source.utf8ByteSize).map fun bytes =>
    { cache with
      sourceBytes := bytes
      insertionOrder := cache.insertionOrder ++ [tenantId]
      entries := (cache.entries.delete fun entry => entry.1 = tenantId).insert (tenantId, ⟨source, policies⟩) }

def insert (cache : TenantPolicyCache π) (tenantId source : String) (policies : π) : Option (TenantPolicyCache π) :=
  match cache.remove tenantId with
  | none => none
  | some cache =>
      if cache.maxEntries = 0 ∨ source.utf8ByteSize > cache.maxSourceBytes then some cache
      else
        match cache.evict source.utf8ByteSize cache.insertionOrder with
        | none => none
        | some (.exhausted cache) => some cache
        | some (.room cache) => cache.push tenantId source policies

end TenantPolicyCache

/-- The cache behind its lock. A panic under the lock poisons it, and nothing
reads a poisoned cache. -/
structure Locked (π : Type) where
  cache : TenantPolicyCache π
  poisoned : Bool

inductive Outcome (π : Type)
  | returned (result : Except String (Option π))
  | panicked

def evaluationBudget : Nat := 128 * 8193

/-- What happens under the lock for writing, with the answer given once it is
released. -/
def Locked.write (lock : Locked π) (change : TenantPolicyCache π → Option (TenantPolicyCache π)) (answer : Option π) :
    Locked π × Outcome π :=
  if lock.poisoned then (lock, .returned (.error "Cedar policy cache lock poisoned"))
  else
    match change lock.cache with
    | none => ({ lock with poisoned := true }, .panicked)
    | some cache => ({ lock with cache }, .returned (.ok answer))

def Locked.cached (lock : Locked π) (tenantId source : String) : Option π :=
  match lock.cache.entries.find tenantId with
  | none => none
  | some (_, cached) => if cached.source = source then some cached.policies else none

variable (parse : String → Except String π)

def compiledTenantPolicy (lock : Locked π) (tenantId : String) : Option String → Locked π × Outcome π
  | none => lock.write (·.remove tenantId) none
  | some source =>
      if evaluationBudget < source.utf8ByteSize then
        (lock, .returned (.error "Active tenant policies exceed the evaluation budget"))
      else if lock.poisoned then (lock, .returned (.error "Cedar policy cache lock poisoned"))
      else
        match lock.cached tenantId source with
        | some policies => (lock, .returned (.ok (some policies)))
        | none =>
            match parse source with
            | .error error => (lock, .returned (.error s!"Cedar policy parse failed: {error}"))
            | .ok policies => lock.write (·.insert tenantId source policies) (some policies)

def uncachedTenantPolicy : Option String → Except String (Option π)
  | none => .ok none
  | some source =>
      if evaluationBudget < source.utf8ByteSize then .error "Active tenant policies exceed the evaluation budget"
      else
        match parse source with
        | .error error => .error s!"Cedar policy parse failed: {error}"
        | .ok policies => .ok (some policies)

structure Call where
  tenantId : String
  source : Option String

def step (lock : Locked π) (call : Call) : Locked π := (compiledTenantPolicy parse lock call.tenantId call.source).1

def fresh (maxEntries maxSourceBytes : Nat) : Locked π := ⟨.new maxEntries maxSourceBytes, false⟩

section Coherence

open TenantPolicyCache

def weight (entry : String × CachedPolicy π) : Nat := entry.2.source.utf8ByteSize

/-- The queue, the map and the count of bytes tell the same story. -/
structure Coherent (cache : TenantPolicyCache π) : Prop where
  nodup : cache.insertionOrder.Nodup
  keys : ∀ tenantId, tenantId ∈ cache.insertionOrder ↔ tenantId ∈ cache.entries.rows.map Prod.fst
  bytes : cache.sourceBytes = cache.entries.total weight

structure Bounded (cache : TenantPolicyCache π) : Prop where
  entries : cache.entries.rows.length ≤ cache.maxEntries
  bytes : cache.sourceBytes ≤ cache.maxSourceBytes

/-- A cache under the same limits that holds nothing new. -/
structure Within (smaller cache : TenantPolicyCache π) : Prop where
  maxEntries : smaller.maxEntries = cache.maxEntries
  maxSourceBytes : smaller.maxSourceBytes = cache.maxSourceBytes
  rows : smaller.entries.rows.Sublist cache.entries.rows

theorem Within.refl (cache : TenantPolicyCache π) : Within cache cache := ⟨rfl, rfl, List.Sublist.refl _⟩

theorem Within.trans {a b c : TenantPolicyCache π} (hab : Within a b) (hbc : Within b c) : Within a c :=
  ⟨hab.maxEntries.trans hbc.maxEntries, hab.maxSourceBytes.trans hbc.maxSourceBytes, hab.rows.trans hbc.rows⟩

theorem Within.total_le {smaller cache : TenantPolicyCache π} (h : Within smaller cache) :
    smaller.entries.total weight ≤ cache.entries.total weight := (h.rows.map weight).sum_le_sum fun _ _ => Nat.zero_le _

theorem Within.find {smaller cache : TenantPolicyCache π} (h : Within smaller cache) {tenantId : String}
    {entry : String × CachedPolicy π} (hfind : smaller.entries.find tenantId = some entry) :
    cache.entries.find tenantId = some entry := by
  obtain ⟨hmem, hkey⟩ := Table.find_eq_some.mp hfind
  exact Table.find_eq_some.mpr ⟨h.rows.subset hmem, hkey⟩

theorem Within.bounded {smaller cache : TenantPolicyCache π} (h : Within smaller cache) (hsmaller : Coherent smaller)
    (hcache : Coherent cache) (hb : Bounded cache) : Bounded smaller := by
  constructor
  · rw [h.maxEntries]
    exact h.rows.length_le.trans hb.entries
  · rw [h.maxSourceBytes, hsmaller.bytes]
    exact h.total_le.trans (hcache.bytes ▸ hb.bytes)

theorem mem_keys {cache : TenantPolicyCache π} {tenantId : String} :
    tenantId ∈ cache.entries.rows.map Prod.fst ↔ ∃ entry, cache.entries.find tenantId = some entry := by
  constructor
  · intro h
    obtain ⟨entry, hmem, hkey⟩ := List.mem_map.mp h
    exact ⟨entry, Table.find_eq_some.mpr ⟨hmem, hkey⟩⟩
  · rintro ⟨entry, h⟩
    obtain ⟨hmem, hkey⟩ := Table.find_eq_some.mp h
    exact hkey ▸ List.mem_map_of_mem hmem

theorem mem_keys_delete {cache : TenantPolicyCache π} {tenantId other : String} :
    other ∈ (cache.entries.delete fun entry => entry.1 = tenantId).rows.map Prod.fst ↔
      other ∈ cache.entries.rows.map Prod.fst ∧ other ≠ tenantId := by
  simp only [Table.delete, List.mem_map, List.mem_filter]
  constructor
  · rintro ⟨entry, ⟨hmem, hne⟩, rfl⟩
    exact ⟨⟨entry, hmem, rfl⟩, by simpa using hne⟩
  · rintro ⟨⟨entry, hmem, rfl⟩, hne⟩
    exact ⟨entry, ⟨hmem, by simpa using hne⟩, rfl⟩

/-- Taking out an entry that is there never runs below zero. -/
theorem take_spec {cache : TenantPolicyCache π} (hbytes : cache.sourceBytes = cache.entries.total weight)
    {tenantId : String} {entry : String × CachedPolicy π} (h : cache.entries.find tenantId = some entry) :
    ∃ bytes, cache.take tenantId entry.2 =
        some { cache with entries := cache.entries.delete fun entry => entry.1 = tenantId, sourceBytes := bytes } ∧
      bytes = (cache.entries.delete fun entry => entry.1 = tenantId).total weight := by
  obtain ⟨htotal, -⟩ := Table.total_delete weight h
  refine ⟨_, ?_, rfl⟩
  rw [take, hbytes, ← htotal]
  change Option.map _ (checkedSub (_ + weight entry) (weight entry)) = _
  rw [checkedSub_add]
  rfl

theorem remove_spec {cache : TenantPolicyCache π} (h : Coherent cache) (tenantId : String) :
    ∃ left, cache.remove tenantId = some left ∧ Coherent left ∧ Within left cache ∧ left.entries.find tenantId = none := by
  cases hfind : cache.entries.find tenantId with
  | none => exact ⟨cache, by simp [remove, hfind], h, Within.refl cache, hfind⟩
  | some entry =>
      obtain ⟨bytes, htake, hbytes⟩ := take_spec h.bytes hfind
      refine ⟨{ cache with
        entries := cache.entries.delete fun entry => entry.1 = tenantId
        sourceBytes := bytes
        insertionOrder := cache.insertionOrder.filter (· ≠ tenantId) }, ?_, ⟨h.nodup.filter _, ?_, hbytes⟩,
        ⟨rfl, rfl, List.filter_sublist⟩, ?_⟩
      · simp only [remove, hfind, htake, Option.map_some]
      · intro other
        rw [mem_keys_delete, List.mem_filter, h.keys other]
        simp
      · change (cache.entries.delete _).find tenantId = none
        rw [Table.find_delete, hfind]
        simp [Table.key_of_find hfind]

end Coherence

section Eviction

open TenantPolicyCache

/-- With nothing left in the queue there is room for what fits at all. -/
theorem full_of_empty {cache : TenantPolicyCache π} (h : Coherent { cache with insertionOrder := [] }) {size : Nat}
    (hentries : cache.maxEntries ≠ 0) (hsize : size ≤ cache.maxSourceBytes) : cache.full size = false := by
  have hrows : cache.entries.rows = [] := by
    apply List.map_eq_nil_iff.mp
    apply List.eq_nil_iff_forall_not_mem.mpr
    intro tenantId hmem
    exact List.not_mem_nil ((h.keys tenantId).mpr hmem)
  have hbytes : cache.sourceBytes = 0 := by
    rw [h.bytes]
    simp [Table.total, hrows]
  have hsum : saturatingAdd 0 size ≤ cache.maxSourceBytes := by
    unfold saturatingAdd
    omega
  simp [full, hrows, hbytes, hsum]
  omega

/-- The loop ends with room, whatever the queue holds. -/
theorem evict_spec {size : Nat} (queue : List String) {cache : TenantPolicyCache π}
    (h : Coherent { cache with insertionOrder := queue }) (hentries : cache.maxEntries ≠ 0)
    (hsize : size ≤ cache.maxSourceBytes) :
    ∃ left, cache.evict size queue = some (.room left) ∧ Coherent left ∧ Within left cache ∧ left.full size = false := by
  induction queue generalizing cache with
  | nil =>
      have hfull := full_of_empty h hentries hsize
      refine ⟨_, by rw [evict, hfull]; rfl, h, ⟨rfl, rfl, List.Sublist.refl _⟩, hfull⟩
  | cons oldest queue ih =>
      by_cases hfull : cache.full size
      · obtain ⟨entry, hfind⟩ := mem_keys.mp ((h.keys oldest).mp List.mem_cons_self)
        obtain ⟨bytes, htake, hbytes⟩ := @take_spec _ cache h.bytes _ _ hfind
        obtain ⟨hfirst, hnodup⟩ := List.nodup_cons.mp h.nodup
        let after : TenantPolicyCache π :=
          { cache with entries := cache.entries.delete fun entry => entry.1 = oldest, sourceBytes := bytes }
        have hafter : Coherent { after with insertionOrder := queue } := by
          refine ⟨hnodup, fun other => ?_, hbytes⟩
          have hkeys := h.keys other
          rw [mem_keys_delete, ← hkeys, List.mem_cons]
          constructor
          · intro hmem
            exact ⟨.inr hmem, fun he => hfirst (he ▸ hmem)⟩
          · rintro ⟨rfl | hmem, hne⟩
            · exact absurd rfl hne
            · exact hmem
        obtain ⟨left, hevict, hleft, hwithin, hroom⟩ := ih hafter hentries hsize
        refine ⟨left, ?_, hleft, hwithin.trans ⟨rfl, rfl, List.filter_sublist⟩, hroom⟩
        rw [evict, if_pos hfull]
        have hfind' : cache.entries.find oldest = some entry := hfind
        simp only [hfind', htake]
        exact hevict
      · exact ⟨_, by rw [evict, if_neg hfull], h, ⟨rfl, rfl, List.Sublist.refl _⟩, Bool.eq_false_iff.mpr hfull⟩

/-- Room beside what is held is room in the word as well, unless the limit is
the largest word. -/
theorem room_of_full {cache : TenantPolicyCache π} {size : Nat} (h : cache.full size = false)
    (hword : cache.maxSourceBytes < usizeMax ∨ cache.sourceBytes + size ≤ usizeMax) :
    cache.entries.rows.length < cache.maxEntries ∧ cache.sourceBytes + size ≤ cache.maxSourceBytes ∧
      cache.sourceBytes + size ≤ usizeMax := by
  simp only [full, Bool.or_eq_false_iff, decide_eq_false_iff_not, not_le, not_lt] at h
  obtain ⟨hlength, hbytes⟩ := h
  unfold saturatingAdd at hbytes
  refine ⟨hlength, ?_⟩
  rcases hword with hword | hword <;> omega

theorem push_spec {cache : TenantPolicyCache π} (h : Coherent cache) {tenantId source : String} (policies : π)
    (hnone : cache.entries.find tenantId = none) (hword : cache.sourceBytes + source.utf8ByteSize ≤ usizeMax) :
    ∃ grown, cache.push tenantId source policies = some grown ∧ Coherent grown ∧
      grown.entries.rows = cache.entries.rows ++ [(tenantId, ⟨source, policies⟩)] ∧
      grown.sourceBytes = cache.sourceBytes + source.utf8ByteSize ∧
      grown.maxEntries = cache.maxEntries ∧ grown.maxSourceBytes = cache.maxSourceBytes := by
  have hrows := Table.delete_of_find_none hnone
  have hdeleted : (cache.entries.delete fun entry => entry.1 = tenantId).find tenantId = none := by
    rw [Table.find_delete, hnone]
    rfl
  have hgrown : ((cache.entries.delete fun entry => entry.1 = tenantId).insert (tenantId, ⟨source, policies⟩)).rows =
      cache.entries.rows ++ [(tenantId, ⟨source, policies⟩)] := by
    rw [Table.insert_rows hdeleted, hrows]
  have hfresh : tenantId ∉ cache.insertionOrder := by
    rw [h.keys, mem_keys]
    rintro ⟨entry, hfind⟩
    rw [hnone] at hfind
    cases hfind
  refine ⟨{ cache with
    sourceBytes := cache.sourceBytes + source.utf8ByteSize
    insertionOrder := cache.insertionOrder ++ [tenantId]
    entries := (cache.entries.delete fun entry => entry.1 = tenantId).insert (tenantId, ⟨source, policies⟩) },
    by rw [push, checkedAdd_of_le hword]; rfl, ⟨?_, ?_, ?_⟩, hgrown, rfl, rfl, rfl⟩
  · exact List.nodup_append.mpr ⟨h.nodup, List.nodup_singleton _, by
      intro other hother last hlast he
      exact hfresh (List.mem_singleton.mp hlast ▸ he ▸ hother)⟩
  · intro other
    rw [hgrown, List.mem_append, h.keys other]
    simp
  · rw [Table.total_insert weight hdeleted, Table.total, hrows, h.bytes]
    rfl

end Eviction

section Runs

open TenantPolicyCache

variable (parse : String → Except String π)

def Parsed (cache : TenantPolicyCache π) : Prop :=
  ∀ entry ∈ cache.entries.rows, parse entry.2.source = .ok entry.2.policies

structure Sound (maxEntries maxSourceBytes : Nat) (cache : TenantPolicyCache π) : Prop where
  coherent : Coherent cache
  bounded : Bounded cache
  parsed : Parsed parse cache
  maxEntries : cache.maxEntries = maxEntries
  maxSourceBytes : cache.maxSourceBytes = maxSourceBytes

variable {parse} {maxEntries maxSourceBytes : Nat}

theorem Sound.within {smaller cache : TenantPolicyCache π} (h : Sound parse maxEntries maxSourceBytes cache)
    (hsmaller : Coherent smaller) (hwithin : Within smaller cache) : Sound parse maxEntries maxSourceBytes smaller :=
  ⟨hsmaller, hwithin.bounded hsmaller h.coherent h.bounded, fun entry hmem => h.parsed entry (hwithin.rows.subset hmem),
    hwithin.maxEntries.trans h.maxEntries, hwithin.maxSourceBytes.trans h.maxSourceBytes⟩

theorem sound_new (maxEntries maxSourceBytes : Nat) :
    Sound parse maxEntries maxSourceBytes (TenantPolicyCache.new maxEntries maxSourceBytes : TenantPolicyCache π) := by
  refine ⟨⟨List.nodup_nil, ?_, rfl⟩, ⟨Nat.zero_le _, Nat.zero_le _⟩, ?_, rfl, rfl⟩
  · intro tenantId
    rfl
  · intro entry hmem
    cases hmem

def InMemory (cache : TenantPolicyCache π) (source : String) : Prop :=
  cache.entries.total weight + source.utf8ByteSize ≤ usizeMax

theorem insert_spec {cache : TenantPolicyCache π} (h : Sound parse maxEntries maxSourceBytes cache)
    (tenantId : String) {source : String} {policies : π} (hparse : parse source = .ok policies)
    (hmemory : maxSourceBytes < usizeMax ∨ InMemory cache source) :
    ∃ after, cache.insert tenantId source policies = some after ∧ Sound parse maxEntries maxSourceBytes after := by
  obtain ⟨left, hremove, hleft, hwithin, hnone⟩ := remove_spec h.coherent tenantId
  have hsound := h.within hleft hwithin
  by_cases hfits : left.maxEntries = 0 ∨ source.utf8ByteSize > left.maxSourceBytes
  · exact ⟨left, by rw [TenantPolicyCache.insert, hremove]; simp only [if_pos hfits], hsound⟩
  rw [not_or, not_lt] at hfits
  obtain ⟨room, hevict, hroom, hinside, hfull⟩ := evict_spec left.insertionOrder hleft hfits.1 hfits.2
  have hrest := hsound.within hroom hinside
  have hword : room.maxSourceBytes < usizeMax ∨ room.sourceBytes + source.utf8ByteSize ≤ usizeMax := by
    rw [hrest.maxSourceBytes]
    refine hmemory.imp_right fun hheld => ?_
    have hle := (hinside.trans hwithin).total_le
    rw [hroom.bytes]
    unfold InMemory at hheld
    omega
  obtain ⟨hlength, hbytes, hsum⟩ := room_of_full hfull hword
  have hgone : room.entries.find tenantId = none := by
    cases hfind : room.entries.find tenantId with
    | none => rfl
    | some entry => rw [hinside.find hfind] at hnone; cases hnone
  obtain ⟨grown, hpush, hgrown, hrows, hheld, hentries, hsource⟩ := push_spec hroom policies hgone hsum
  refine ⟨grown, ?_, hgrown, ⟨?_, ?_⟩, ?_, hentries.trans hrest.maxEntries, hsource.trans hrest.maxSourceBytes⟩
  · rw [TenantPolicyCache.insert, hremove]
    simp only [if_neg (not_or.mpr ⟨hfits.1, not_lt.mpr hfits.2⟩), hevict]
    exact hpush
  · rw [hrows, List.length_append, hentries]
    exact hlength
  · rw [hheld, hsource]
    exact hbytes
  · intro entry hmem
    rw [hrows] at hmem
    rcases List.mem_append.mp hmem with hmem | hmem
    · exact hrest.parsed entry hmem
    · obtain rfl := List.mem_singleton.mp hmem
      exact hparse

theorem cached_sound {lock : Locked π} (h : Parsed parse lock.cache) {tenantId source : String} {policies : π}
    (hcached : lock.cached tenantId source = some policies) : parse source = .ok policies := by
  unfold Locked.cached at hcached
  split at hcached
  · cases hcached
  · next name cached hfind =>
    split_ifs at hcached with hsource
    obtain rfl := Option.some.inj hcached
    exact hsource ▸ h _ (Table.find_eq_some.mp hfind).1

def Held (lock : Locked π) (call : Call) : Prop := ∀ source, call.source = some source → InMemory lock.cache source

def Healthy (parse : String → Except String π) (maxEntries maxSourceBytes : Nat) (lock : Locked π) : Prop :=
  lock.poisoned = false ∧ Sound parse maxEntries maxSourceBytes lock.cache

theorem write_spec {lock : Locked π} (h : lock.poisoned = false)
    {change : TenantPolicyCache π → Option (TenantPolicyCache π)} {cache : TenantPolicyCache π}
    (hchange : change lock.cache = some cache) (answer : Option π) :
    lock.write change answer = ({ lock with cache }, .returned (.ok answer)) := by
  simp [Locked.write, h, hchange]

/-- One call answers as without a cache and leaves the lock whole. -/
theorem call_spec {lock : Locked π} (h : Healthy parse maxEntries maxSourceBytes lock) (call : Call)
    (hmemory : maxSourceBytes < usizeMax ∨ Held lock call) :
    (compiledTenantPolicy parse lock call.tenantId call.source).2 = .returned (uncachedTenantPolicy parse call.source) ∧
      Healthy parse maxEntries maxSourceBytes (step parse lock call) := by
  obtain ⟨hpoisoned, hsound⟩ := h
  obtain ⟨tenantId, source⟩ := call
  unfold step
  cases source with
  | none =>
      obtain ⟨left, hremove, hleft, hwithin, -⟩ := remove_spec hsound.coherent tenantId
      simp only [compiledTenantPolicy, @write_spec _ lock hpoisoned (·.remove tenantId) _ hremove]
      exact ⟨rfl, hpoisoned, hsound.within hleft hwithin⟩
  | some source =>
      by_cases hbudget : evaluationBudget < source.utf8ByteSize
      · simp only [compiledTenantPolicy, uncachedTenantPolicy, if_pos hbudget]
        exact ⟨trivial, hpoisoned, hsound⟩
      simp only [compiledTenantPolicy, uncachedTenantPolicy, if_neg hbudget, hpoisoned]
      cases hcached : lock.cached tenantId source with
      | some policies =>
          simp only [cached_sound hsound.parsed hcached]
          exact ⟨rfl, hpoisoned, hsound⟩
      | none =>
          cases hparse : parse source with
          | error error => exact ⟨rfl, hpoisoned, hsound⟩
          | ok policies =>
              obtain ⟨after, hinsert, hafter⟩ := insert_spec hsound tenantId hparse (hmemory.imp_right fun h => h source rfl)
              simp only [@write_spec _ lock hpoisoned (·.insert tenantId source policies) _ hinsert]
              exact ⟨rfl, hpoisoned, hafter⟩

theorem run_healthy (calls : List Call)
    (hmemory : maxSourceBytes < usizeMax ∨ Along (step parse) Held (fresh maxEntries maxSourceBytes) calls) :
    Healthy parse maxEntries maxSourceBytes (run (step parse) (fresh maxEntries maxSourceBytes) calls) := by
  have hfresh : Healthy parse maxEntries maxSourceBytes (fresh maxEntries maxSourceBytes) := ⟨rfl, sound_new _ _⟩
  rcases hmemory with hlimit | hheld
  · have hstep (lock : Locked π) (call : Call) (h : Healthy parse maxEntries maxSourceBytes lock) :
        Healthy parse maxEntries maxSourceBytes (step parse lock call) := (call_spec h call (.inl hlimit)).2
    exact run_invariant_always hstep hfresh calls
  · have hstep (lock : Locked π) (call : Call) (h : Healthy parse maxEntries maxSourceBytes lock) (hheld : Held lock call) :
        Healthy parse maxEntries maxSourceBytes (step parse lock call) := (call_spec h call (.inr hheld)).2
    exact run_invariant hstep hfresh hheld

/-- After any calls the queue lists the tenants of the map once each, the bytes
are those of the sources, both limits are kept, no subtraction has failed, the
eviction loop of a further entry ends with room for it, and a further call
returns what it would without a cache. -/
theorem cache_transparent (parse : String → Except String π) (maxEntries maxSourceBytes : Nat) (calls : List Call)
    (call : Call)
    (hmemory : maxSourceBytes < usizeMax ∨ Along (step parse) Held (fresh maxEntries maxSourceBytes) (calls ++ [call])) :
    let lock := run (step parse) (fresh maxEntries maxSourceBytes) calls
    lock.poisoned = false ∧ Coherent lock.cache ∧
      lock.cache.entries.rows.length ≤ maxEntries ∧ lock.cache.sourceBytes ≤ maxSourceBytes ∧
      (∀ tenantId, ∃ left, lock.cache.remove tenantId = some left ∧
        ∀ size, maxEntries ≠ 0 → size ≤ maxSourceBytes →
          ∃ room, left.evict size left.insertionOrder = some (.room room) ∧ room.full size = false) ∧
      (compiledTenantPolicy parse lock call.tenantId call.source).2 =
        .returned (uncachedTenantPolicy parse call.source) := by
  intro lock
  have h : Healthy parse maxEntries maxSourceBytes lock := run_healthy calls (hmemory.imp_right Along.left)
  obtain ⟨hpoisoned, hsound⟩ := h
  refine ⟨hpoisoned, hsound.coherent, hsound.maxEntries ▸ hsound.bounded.entries,
    hsound.maxSourceBytes ▸ hsound.bounded.bytes, ?_, ?_⟩
  · intro tenantId
    obtain ⟨left, hremove, hleft, hwithin, -⟩ := remove_spec hsound.coherent tenantId
    refine ⟨left, hremove, fun size hentries hsize => ?_⟩
    rw [← hsound.maxEntries, ← hwithin.maxEntries] at hentries
    rw [← hsound.maxSourceBytes, ← hwithin.maxSourceBytes] at hsize
    obtain ⟨room, hevict, -, -, hroom⟩ := evict_spec left.insertionOrder hleft hentries hsize
    exact ⟨room, hevict, hroom⟩
  · exact (call_spec ⟨hpoisoned, hsound⟩ call (hmemory.imp_right fun h => h.right.1)).1

/-- Two entries fit, so that the third call puts the oldest out. -/
theorem cache_transparent_small :
    let parse : String → Except String Nat := fun source => .ok source.length
    let lock := run (step parse) (fresh 2 100) [⟨"acme", some "permit"⟩, ⟨"beta", some "permit"⟩, ⟨"gamma", some "forbid"⟩]
    lock.cache.insertionOrder = ["beta", "gamma"] ∧
      (compiledTenantPolicy parse lock "acme" (some "permit")).2 = .returned (.ok (some 6)) :=
  ⟨by decide, (cache_transparent (fun source => Except.ok source.length) 2 100
    [⟨"acme", some "permit"⟩, ⟨"beta", some "permit"⟩, ⟨"gamma", some "forbid"⟩] ⟨"acme", some "permit"⟩
    (.inl (by decide))).2.2.2.2.2⟩

end Runs

end Galadril.Iam.PolicyCache
