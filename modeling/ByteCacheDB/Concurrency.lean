import ByteCacheDB.EngineCalls
import ByteCacheDB.Lib.Runs
import ByteCacheDB.Lib.Threads

/-!
# The engine under concurrent calls

Any number of threads call one engine.  What a call does to its shards while it
holds their locks is one step, since no other thread looks at them meanwhile;
every update of `total_keys_`, every shard that a sweep or a scan visits, every
erasure of a victim and every check of `enforce_max_keys` is a step of its own.
A lock can be taken when no thread stands where the lock is held.
-/

namespace ByteCacheDB

open Runs Threads StorageEngine

/-- One `fetch_add(1)` or `fetch_sub(1)` on `total_keys_`. -/
inductive Count where
  | up
  | down
  deriving DecidableEq, Repr

def Count.delta : Count → UInt64
  | .up => 1
  | .down => -1

/-- What some updates add to the counter together. -/
def tally (counts : List Count) : UInt64 := (counts.map Count.delta).sum

@[simp] theorem tally_nil : tally [] = 0 := rfl

@[simp] theorem tally_cons (c : Count) (cs : List Count) :
    tally (c :: cs) = c.delta + tally cs := rfl

theorem tally_append (xs ys : List Count) : tally (xs ++ ys) = tally xs + tally ys := by
  rw [tally, List.map_append, List.sum_append]
  rfl

namespace StorageEngine

variable {S : Sharding}

/-! ## Counter updates under the locks -/

/-- The update that goes with the removal of an expired entry. -/
def dropCounts (s : StorageEngine S) (now : TimePoint) (key : Bytes) : List Count :=
  match s.shards.find? key with
  | some entry => if isExpired entry now then [.down] else []
  | none => []

/-- The update that goes with a new key. -/
def putCounts (s : StorageEngine S) (key : Bytes) : List Count :=
  match s.shards.find? key with
  | some _ => []
  | none => [.up]

def storeCounts (s : StorageEngine S) (now : TimePoint) (key : Bytes) : List Count :=
  s.dropCounts now key ++ (s.dropExpired now key).putCounts key

def storeAllCounts (now : TimePoint) : StorageEngine S → List (Bytes × Bytes) → List Count
  | _, [] => []
  | s, p :: ps => s.storeCounts now p.1 ++ storeAllCounts now (s.store now p.1 p.2) ps

/-- The updates of `total_keys_` that a call makes under its locks, in order.  The
one of `flush` is an exchange and is not listed. -/
def counts (s : StorageEngine S) (now : TimePoint) : EngineCall → List Count
  | .set key _ => s.storeCounts now key
  | .mset args => storeAllCounts now s (argPairs args)
  | .get key | .exists key | .strlen key | .ttl key | .persist key => s.dropCounts now key
  | .del key =>
      match s.shards.find? key with
      | some _ => [.down]
      | none => []
  | .expireAt key expiresAt =>
      match s.shards.find? key with
      | some entry => if isExpired entry now ∨ expiresAt ≤ now then [.down] else []
      | none => []
  | .increment key delta =>
      s.dropCounts now key ++
        match (s.incrementLocked now key delta).1 with
        | .ok (_, true) => [.up]
        | _ => []
  | .append key _ => s.dropCounts now key ++ (s.dropExpired now key).putCounts key
  | _ => []

end StorageEngine

/-- The shards that a call locks. -/
def EngineCall.locks (S : Sharding) : EngineCall → List (Fin S.count)
  | .set key _ | .get key | .exists key | .strlen key | .del key | .expireAt key _ | .ttl key
  | .persist key | .increment key _ | .append key _ => [S.shardIndex key]
  | .mset args => (argPairs args).map fun p ↦ S.shardIndex p.1
  | .flush | .keys | .snapshotEntries => List.finRange S.count
  | _ => []

/-- Calls that do all their work under one set of locks, up to `enforce_max_keys`.
An `mget` is a sequence of `get` calls; the limit and the switch are fixed. -/
def EngineCall.sectioned : EngineCall → Bool
  | .mget _ | .cleanupExpired | .size | .setMaxKeys _ | .setEvictionEnabled _ => false
  | _ => true

/-- Where a thread stands in a call. -/
inductive EnginePc (S : Sharding) where
  | idle
  /-- the clock has been read, the locks are to be taken -/
  | entering (call : EngineCall) (now : TimePoint)
  /-- under the locks, with updates of the counter still to be made -/
  | counting (held : List (Fin S.count)) (counts : List Count) (enforce : Bool)
  /-- in `cleanup_expired`, between two shards; `sized` if `size` has called it -/
  | sweeping (now : TimePoint) (rest : List (Fin S.count)) (removed : ℕ) (sized : Bool)
  /-- in `size`, before the counter is read -/
  | sizing
  /-- in `enforce_max_keys`, before the first check -/
  | limiting
  /-- before `eviction_mutex_` is taken -/
  | waiting
  /-- holding `eviction_mutex_`, before the check of the loop -/
  | evicting
  | scanning (rest : List (Fin S.count)) (victim : Option (Bytes × UInt64))
  /-- before the victim's shard is locked -/
  | striking (key : Bytes)
  /-- the victim is erased, its shard still locked, the counter to be updated -/
  | struck (key : Bytes)
  deriving DecidableEq

namespace EnginePc

variable {S : Sharding}

/-- Shards that the thread has locked. -/
def held : EnginePc S → List (Fin S.count)
  | counting held _ _ => held
  | struck key => [S.shardIndex key]
  | _ => []

def holdsEviction : EnginePc S → Bool
  | evicting | scanning _ _ | striking _ | struck _ => true
  | _ => false

/-- Entries a sweep has removed and not yet subtracted. -/
def removed : EnginePc S → ℕ
  | sweeping _ _ removed _ => removed
  | _ => 0

/-- The thread is about to take all locks and exchange the counter. -/
def flushing : EnginePc S → Bool
  | entering .flush _ => true
  | _ => false

/-- What the thread is going to add to the counter for entries it has already
stored or removed. -/
def owed : EnginePc S → UInt64
  | counting _ counts _ => tally counts
  | sweeping _ _ removed _ => -UInt64.ofNat removed
  | struck _ => -1
  | _ => 0

end EnginePc

structure ConcurrentEngine (S : Sharding) (κ : Type*) where
  engine : StorageEngine S
  pcs : κ → EnginePc S := fun _ ↦ .idle
  /-- the result of the latest call of each thread -/
  answers : κ → EngineResult := fun _ ↦ .nothing

inductive ThreadEvent (κ : Type*) where
  | call (k : κ) (call : EngineCall) (now : TimePoint)
  | step (k : κ)

namespace ConcurrentEngine

variable {S : Sharding} {κ : Type*}

/-- Every shard in the list is unlocked. -/
def Unlocked (m : ConcurrentEngine S κ) (shards : List (Fin S.count)) : Prop :=
  ∀ k, ∀ i ∈ (m.pcs k).held, i ∉ shards

variable [Fintype κ]

instance (m : ConcurrentEngine S κ) (shards : List (Fin S.count)) : Decidable (m.Unlocked shards) :=
  inferInstanceAs (Decidable (∀ k, ∀ i ∈ (m.pcs k).held, i ∉ shards))

/-- The section of a call, without the updates of the counter that are steps of
their own; the exchange of `flush` is part of its section. -/
def enter (s : StorageEngine S) (call : EngineCall) (now : TimePoint) : StorageEngine S :=
  let s' := (s.beforeEviction ⟨call, fun _ ↦ now⟩).2.2
  match call with
  | .flush => s'
  | _ => { s' with totalKeys := s.totalKeys }

/-- One step of a thread that stands at `pc`: the engine, the new place, and the
result if it is known then. -/
def advance (m : ConcurrentEngine S κ) :
    EnginePc S → Option (StorageEngine S × EnginePc S × Option EngineResult)
  | .idle => none
  | .entering call now =>
      if m.Unlocked (call.locks S) then
        let entered := m.engine.beforeEviction ⟨call, fun _ ↦ now⟩
        some (enter m.engine call now,
          .counting (call.locks S) (m.engine.counts now call) entered.2.1, some entered.1)
      else none
  | .counting held (c :: cs) enforce =>
      some ({ m.engine with totalKeys := m.engine.totalKeys + c.delta },
        .counting held cs enforce, none)
  | .counting _ [] enforce => some (m.engine, if enforce then .limiting else .idle, none)
  | .sweeping now (i :: rest) removed sized =>
      if m.Unlocked [i] then
        let swept := m.engine.cleanupExpiredLocked now i
        some (swept.2, .sweeping now rest (removed + swept.1) sized, none)
      else none
  | .sweeping _ [] removed sized =>
      some ({ m.engine with
          totalKeys := m.engine.totalKeys - UInt64.ofNat removed
          expiredKeysRemoved := m.engine.expiredKeysRemoved + UInt64.ofNat removed },
        if sized then .sizing else .idle, some (.count removed))
  | .sizing => some (m.engine, .idle, some (.count m.engine.totalKeys.toNat))
  | .limiting =>
      if !m.engine.evictionEnabled ∨ m.engine.maxKeys = 0 ∨
          m.engine.totalKeys ≤ m.engine.maxKeys then
        some (m.engine, .idle, none)
      else some (m.engine, .waiting, none)
  | .waiting =>
      if ∀ k, (m.pcs k).holdsEviction = false then some (m.engine, .evicting, none) else none
  | .evicting =>
      if m.engine.maxKeys < m.engine.totalKeys then
        some (m.engine, .scanning (List.finRange S.count) none, none)
      else some (m.engine, .idle, none)
  | .scanning (i :: rest) victim =>
      if m.Unlocked [i] then some (m.engine, .scanning rest (m.engine.scanShard victim i), none)
      else none
  | .scanning [] none => some (m.engine, .idle, none)
  | .scanning [] (some (key, _)) => some (m.engine, .striking key, none)
  | .striking key =>
      if m.Unlocked [S.shardIndex key] then
        match m.engine.shards.find? key with
        | some _ =>
            some ({ m.engine.evict key with totalKeys := m.engine.totalKeys }, .struck key, none)
        | none => some (m.engine, .evicting, none)
      else none
  | .struck _ =>
      some ({ m.engine with totalKeys := m.engine.totalKeys - 1 }, .evicting, none)

variable [DecidableEq κ]

/-- The place of a thread that has begun a call. -/
def begin (call : EngineCall) (now : TimePoint) : Option (EnginePc S) :=
  match call with
  | .cleanupExpired => some (.sweeping now (List.finRange S.count) 0 false)
  | .size => some (.sweeping now (List.finRange S.count) 0 true)
  | call => if call.sectioned then some (.entering call now) else none

def step (m : ConcurrentEngine S κ) : ThreadEvent κ → Option (ConcurrentEngine S κ)
  | .call k call now =>
      match m.pcs k with
      | .idle => (begin call now).map fun pc ↦ { m with pcs := Function.update m.pcs k pc }
      | _ => none
  | .step k =>
      (m.advance (m.pcs k)).map fun r ↦
        { engine := r.1
          pcs := Function.update m.pcs k r.2.1
          answers := match r.2.2 with
            | some answer => Function.update m.answers k answer
            | none => m.answers }

/-- No call is in progress. -/
def Quiet (m : ConcurrentEngine S κ) : Prop := ∀ k, m.pcs k = .idle

instance (m : ConcurrentEngine S κ) : Decidable m.Quiet :=
  inferInstanceAs (Decidable (∀ k, m.pcs k = .idle))

/-- No sweep has removed entries that are still counted when a `flush` exchanges
the counter. -/
def FlushesAlone (m : ConcurrentEngine S κ) : ThreadEvent κ → Prop
  | .call _ _ _ => True
  | .step k => (m.pcs k).flushing = true → ∀ j, (m.pcs j).removed = 0

instance (m : ConcurrentEngine S κ) : (e : ThreadEvent κ) → Decidable (m.FlushesAlone e)
  | .call _ _ _ => isTrue trivial
  | .step _ => inferInstanceAs (Decidable (_ → ∀ j, (m.pcs j).removed = 0))

end ConcurrentEngine

namespace StorageEngine

variable {S : Sharding} (s : StorageEngine S) (now : TimePoint) (key : Bytes)

/-! ## The listed updates are those of the calls -/

theorem totalKeys_dropExpired :
    (s.dropExpired now key).totalKeys = s.totalKeys + tally (s.dropCounts now key) := by
  cases hfind : s.shards.find? key with
  | none => simp [dropExpired, dropCounts, hfind]
  | some entry =>
      by_cases hexp : isExpired entry now
      · simp [dropExpired, dropCounts, hfind, hexp, removeExpired, Count.delta,
          UInt64.sub_eq_add_neg]
      · simp [dropExpired, dropCounts, hfind, hexp]

theorem totalKeys_putCounted (entry : ValueEntry) :
    (s.putCounted key entry).totalKeys = s.totalKeys + tally (s.putCounts key) := by
  cases hfind : s.shards.find? key with
  | none => simp [putCounted, putCounts, hfind, Count.delta]
  | some old => simp [putCounted, putCounts, hfind, put]

theorem totalKeys_store (value : Bytes) :
    (s.store now key value).totalKeys = s.totalKeys + tally (s.storeCounts now key) := by
  rw [store, totalKeys_putCounted, totalKeys_dropExpired, storeCounts, tally_append,
    UInt64.add_assoc]

theorem totalKeys_storeAll (pairs : List (Bytes × Bytes)) :
    (s.storeAll now pairs).totalKeys = s.totalKeys + tally (storeAllCounts now s pairs) := by
  induction pairs generalizing s with
  | nil => simp [storeAll, storeAllCounts]
  | cons p ps ih =>
      have hrest := ih (s.store now p.1 p.2)
      rw [totalKeys_store, UInt64.add_assoc, ← tally_append] at hrest
      exact hrest

/-- The calls that drop an expired entry or write the one they find. -/
theorem totalKeys_meet (write : ValueEntry → ValueEntry) :
    (s.meet now key write).totalKeys = s.totalKeys + tally (s.dropCounts now key) := by
  refine meet_cases s now key write ?_ ?_ ?_
  · intro hfind
    simp [dropCounts, hfind]
  · intro entry hfind hexp
    simp [dropCounts, hfind, hexp, removeExpired, Count.delta, UInt64.sub_eq_add_neg]
  · intro entry hfind hexp
    simp [dropCounts, hfind, hexp, put]

theorem totalKeys_get :
    (s.get now key).2.totalKeys = s.totalKeys + tally (s.dropCounts now key) := by
  rw [snd_get, totalKeys_meet]

theorem totalKeys_ttl :
    (s.ttl now key).2.totalKeys = s.totalKeys + tally (s.dropCounts now key) := by
  rw [snd_ttl, totalKeys_meet]

theorem totalKeys_persist :
    (s.persist now key).2.totalKeys = s.totalKeys + tally (s.dropCounts now key) := by
  rw [snd_persist, totalKeys_meet]

theorem totalKeys_incrementLocked (delta : Int64) :
    (s.incrementLocked now key delta).2.totalKeys =
      s.totalKeys + tally (s.counts now (.increment key delta)) := by
  simp only [counts, tally_append]
  rw [← UInt64.add_assoc, ← totalKeys_dropExpired]
  simp only [incrementLocked]
  cases hfind : (s.dropExpired now key).shards.find? key with
  | none =>
      cases checkedAdd 0 delta with
      | error e => simp
      | ok next => simp [totalKeys_putCounted, putCounts, hfind]
  | some entry =>
      dsimp only
      cases storedInteger entry.value >>= (checkedAdd · delta) with
      | error e => simp
      | ok next => simp [put]

theorem totalKeys_appendLocked (suffix : Bytes) :
    (s.appendLocked now key suffix).2.totalKeys =
      s.totalKeys + tally (s.counts now (.append key suffix)) := by
  simp only [counts, tally_append]
  rw [← UInt64.add_assoc, ← totalKeys_dropExpired]
  simp only [appendLocked]
  cases hfind : (s.dropExpired now key).shards.find? key with
  | none => simp [totalKeys_putCounted, putCounts, hfind]
  | some entry => simp [putCounts, hfind, put]

/-- Every section but that of `flush` counts what it lists. -/
theorem totalKeys_beforeEviction {call : EngineCall} (hcall : call.sectioned = true)
    (hflush : call ≠ .flush) :
    (s.beforeEviction ⟨call, fun _ ↦ now⟩).2.2.totalKeys =
      s.totalKeys + tally (s.counts now call) := by
  cases call with
  | set key value => exact totalKeys_store s now key value
  | mset args => exact totalKeys_storeAll s now (argPairs args)
  | get key | «exists» key | strlen key => exact totalKeys_get s now key
  | del key =>
      simp only [beforeEviction, StorageEngine.call, counts]
      cases hfind : s.shards.find? key with
      | none => simp [del, hfind]
      | some entry => simp [del, hfind, Count.delta, UInt64.sub_eq_add_neg]
  | expireAt key deadline =>
      simp only [beforeEviction, StorageEngine.call, counts]
      cases hfind : s.shards.find? key with
      | none => simp [expireAt, hfind]
      | some entry =>
          by_cases hover : isExpired entry now ∨ deadline ≤ now
          · simp [expireAt, hfind, hover, removeExpired, Count.delta, UInt64.sub_eq_add_neg]
          · simp [expireAt, hfind, hover, put]
  | ttl key => exact totalKeys_ttl s now key
  | persist key => exact totalKeys_persist s now key
  | increment key delta =>
      rw [snd_beforeEviction_increment]
      exact totalKeys_incrementLocked s now key delta
  | append key suffix => exact totalKeys_appendLocked s now key suffix
  | flush => exact absurd rfl hflush
  | keys | snapshotEntries | evictedKeys | expiredKeysRemoved | takeEvictedKeys =>
      exact (UInt64.add_zero _).symm
  | _ => simp [EngineCall.sectioned] at hcall

/-- What a section lists is what it changes in the number of entries. -/
theorem size_enter {call : EngineCall} (hcall : call.sectioned = true) (hflush : call ≠ .flush) :
    UInt64.ofNat (ConcurrentEngine.enter s call now).shards.size =
      UInt64.ofNat s.shards.size + tally (s.counts now call) := by
  have htotal := totalKeys_beforeEviction s now hcall hflush
  have hshards : (ConcurrentEngine.enter s call now).shards =
      (s.beforeEviction ⟨call, fun _ ↦ now⟩).2.2.shards := by
    cases call <;> rfl
  have hdrift : (s.beforeEviction ⟨call, fun _ ↦ now⟩).2.2.drift = s.drift := by
    rcases keeps_beforeEviction (s := s) ⟨call, fun _ ↦ now⟩ with
      hkeeps | rfl | rfl | ⟨n, rfl⟩ | ⟨b, rfl⟩
    · exact hkeeps.drift
    · exact absurd rfl hflush
    · rfl
    · simp [EngineCall.sectioned] at hcall
    · simp [EngineCall.sectioned] at hcall
  rw [hshards]
  rw [drift, drift, htotal] at hdrift
  grind

end StorageEngine

namespace ConcurrentEngine

variable {S : Sharding} {κ : Type*} [Fintype κ]

/-! ## The steps of a thread -/

/-- What a step of a thread at some place does to the engine, and where it leads. -/
inductive Advances (m : ConcurrentEngine S κ) :
    EnginePc S → StorageEngine S → EnginePc S → Prop
  | enter {call : EngineCall} {now : TimePoint} (hfree : m.Unlocked (call.locks S)) :
      Advances m (.entering call now) (enter m.engine call now)
        (.counting (call.locks S) (m.engine.counts now call)
          (m.engine.beforeEviction ⟨call, fun _ ↦ now⟩).2.1)
  | count {held : List (Fin S.count)} {c : Count} {cs : List Count} {enforce : Bool} :
      Advances m (.counting held (c :: cs) enforce)
        { m.engine with totalKeys := m.engine.totalKeys + c.delta } (.counting held cs enforce)
  | release {held : List (Fin S.count)} : Advances m (.counting held [] false) m.engine .idle
  | enforce {held : List (Fin S.count)} : Advances m (.counting held [] true) m.engine .limiting
  | sweep {now : TimePoint} {i : Fin S.count} {rest : List (Fin S.count)} {removed : ℕ}
      {sized : Bool} (hfree : m.Unlocked [i]) :
      Advances m (.sweeping now (i :: rest) removed sized)
        (m.engine.cleanupExpiredLocked now i).2
        (.sweeping now rest (removed + (m.engine.cleanupExpiredLocked now i).1) sized)
  | settle {now : TimePoint} {removed : ℕ} {sized : Bool} :
      Advances m (.sweeping now [] removed sized)
        { m.engine with
          totalKeys := m.engine.totalKeys - UInt64.ofNat removed
          expiredKeysRemoved := m.engine.expiredKeysRemoved + UInt64.ofNat removed }
        (if sized then .sizing else .idle)
  | size : Advances m .sizing m.engine .idle
  | within (h : m.engine.evictionEnabled = false ∨ m.engine.maxKeys = 0 ∨
        m.engine.totalKeys ≤ m.engine.maxKeys) : Advances m .limiting m.engine .idle
  | exceeds (h : m.engine.maxKeys < m.engine.totalKeys) : Advances m .limiting m.engine .waiting
  | lock (h : ∀ k, (m.pcs k).holdsEviction = false) : Advances m .waiting m.engine .evicting
  | enough (h : m.engine.totalKeys ≤ m.engine.maxKeys) : Advances m .evicting m.engine .idle
  | scan (h : m.engine.maxKeys < m.engine.totalKeys) :
      Advances m .evicting m.engine (.scanning (List.finRange S.count) none)
  | scanShard {i : Fin S.count} {rest : List (Fin S.count)} {victim : Option (Bytes × UInt64)}
      (hfree : m.Unlocked [i]) :
      Advances m (.scanning (i :: rest) victim) m.engine
        (.scanning rest (m.engine.scanShard victim i))
  | noVictim : Advances m (.scanning [] none) m.engine .idle
  | victim {key : Bytes} {oldest : UInt64} :
      Advances m (.scanning [] (some (key, oldest))) m.engine (.striking key)
  | strike {key : Bytes} {entry : ValueEntry} (hfree : m.Unlocked [S.shardIndex key])
      (hfind : m.engine.shards.find? key = some entry) :
      Advances m (.striking key) { m.engine.evict key with totalKeys := m.engine.totalKeys }
        (.struck key)
  | miss {key : Bytes} (hfree : m.Unlocked [S.shardIndex key])
      (hfind : m.engine.shards.find? key = none) :
      Advances m (.striking key) m.engine .evicting
  | struck {key : Bytes} :
      Advances m (.struck key) { m.engine with totalKeys := m.engine.totalKeys - 1 } .evicting

theorem advances_of_advance {m : ConcurrentEngine S κ} {pc : EnginePc S}
    {r : StorageEngine S × EnginePc S × Option EngineResult} (h : m.advance pc = some r) :
    Advances m pc r.1 r.2.1 := by
  cases pc with
  | idle => simp [advance] at h
  | entering call now =>
      simp only [advance, Option.ite_none_right_eq_some, Option.some.injEq] at h
      obtain ⟨hfree, rfl⟩ := h
      exact .enter hfree
  | counting held counts enforce =>
      cases counts with
      | nil =>
          obtain rfl := Option.some.inj h
          cases enforce with
          | false => exact .release
          | true => exact .enforce
      | cons c cs =>
          obtain rfl := Option.some.inj h
          exact .count
  | sweeping now rest removed sized =>
      cases rest with
      | nil =>
          obtain rfl := Option.some.inj h
          exact .settle
      | cons i rest =>
          simp only [advance, Option.ite_none_right_eq_some, Option.some.injEq] at h
          obtain ⟨hfree, rfl⟩ := h
          exact .sweep hfree
  | sizing =>
      obtain rfl := Option.some.inj h
      exact .size
  | limiting =>
      simp only [advance] at h
      split at h
      · rename_i hwithin
        obtain rfl := Option.some.inj h
        exact .within (by simpa using hwithin)
      · rename_i hover
        obtain rfl := Option.some.inj h
        simp only [not_or] at hover
        exact .exceeds (UInt64.not_le.mp hover.2.2)
  | waiting =>
      simp only [advance, Option.ite_none_right_eq_some, Option.some.injEq] at h
      obtain ⟨hfree, rfl⟩ := h
      exact .lock hfree
  | evicting =>
      simp only [advance] at h
      split at h
      · obtain rfl := Option.some.inj h
        exact .scan ‹_›
      · obtain rfl := Option.some.inj h
        exact .enough (UInt64.not_lt.mp ‹_›)
  | scanning rest victim =>
      cases rest with
      | nil =>
          cases victim with
          | none =>
              obtain rfl := Option.some.inj h
              exact .noVictim
          | some v =>
              obtain rfl := Option.some.inj h
              exact .victim
      | cons i rest =>
          simp only [advance, Option.ite_none_right_eq_some, Option.some.injEq] at h
          obtain ⟨hfree, rfl⟩ := h
          exact .scanShard hfree
  | striking key =>
      simp only [advance, Option.ite_none_right_eq_some] at h
      obtain ⟨hfree, h⟩ := h
      split at h
      · obtain rfl := Option.some.inj h
        exact .strike hfree ‹_›
      · obtain rfl := Option.some.inj h
        exact .miss hfree ‹_›
  | struck key =>
      obtain rfl := Option.some.inj h
      exact .struck

/-! ## The counter -/

end ConcurrentEngine

/-- Threads enter with calls that are one section, and hold a lock while they
have updates to make. -/
def EnginePc.WellFormed {S : Sharding} : EnginePc S → Prop
  | .entering call _ => call.sectioned = true
  | .counting held counts _ => counts ≠ [] → held ≠ []
  | _ => True

namespace ConcurrentEngine

variable {S : Sharding} {κ : Type*}

theorem locks_ne_nil {s : StorageEngine S} {now : TimePoint} {call : EngineCall}
    (h : s.counts now call ≠ []) : call.locks S ≠ [] := by
  cases call with
  | mset args =>
      intro hlocks
      rw [EngineCall.locks, List.map_eq_nil_iff] at hlocks
      simp [counts, hlocks, storeAllCounts] at h
  | set | get | «exists» | strlen | del | expireAt | ttl | persist | increment | append =>
      simp [EngineCall.locks]
  | _ => simp [counts] at h

theorem wellFormed_begin {call : EngineCall} {now : TimePoint} {pc : EnginePc S}
    (h : begin call now = some pc) : pc.WellFormed ∧ pc.owed = 0 ∧ pc.held = [] := by
  unfold begin at h
  split at h
  · obtain rfl := Option.some.inj h
    exact ⟨trivial, by simp [EnginePc.owed], rfl⟩
  · obtain rfl := Option.some.inj h
    exact ⟨trivial, by simp [EnginePc.owed], rfl⟩
  · rw [Option.ite_none_right_eq_some] at h
    obtain ⟨hcall, h⟩ := h
    obtain rfl := Option.some.inj h
    exact ⟨hcall, rfl, rfl⟩

/-- A thread without locks and without a sweep behind it owes nothing. -/
theorem owed_eq_zero {pc : EnginePc S} (h : pc.WellFormed) (hheld : pc.held = [])
    (hremoved : pc.removed = 0) : pc.owed = 0 := by
  cases pc with
  | counting held counts enforce =>
      have hcounts : counts = [] := by
        by_contra hne
        exact h hne hheld
      simp [EnginePc.owed, hcounts]
  | sweeping now rest removed sized =>
      have hzero : removed = 0 := hremoved
      simp [EnginePc.owed, hzero]
  | struck key => simp [EnginePc.held] at hheld
  | _ => rfl

theorem wellFormed_advances {m : ConcurrentEngine S κ} {pc pc' : EnginePc S}
    {s' : StorageEngine S} (hpc : pc.WellFormed) (h : Advances m pc s' pc') : pc'.WellFormed := by
  cases h with
  | enter hfree => exact locks_ne_nil
  | count => exact fun _ ↦ hpc (List.cons_ne_nil _ _)
  | settle => split <;> trivial
  | _ => trivial

/-- Apart from the exchange, every step keeps the difference of what is counted
and what is stored. -/
theorem owed_advances {m : ConcurrentEngine S κ} {pc pc' : EnginePc S} {s' : StorageEngine S}
    (hpc : pc.WellFormed) (hflush : pc.flushing = false) (h : Advances m pc s' pc') :
    s'.totalKeys + pc'.owed + UInt64.ofNat m.engine.shards.size =
      m.engine.totalKeys + pc.owed + UInt64.ofNat s'.shards.size := by
  cases h with
  | @enter call now hfree =>
      have hne : call ≠ .flush := by
        rintro rfl
        simp [EnginePc.flushing] at hflush
      have htotal : (enter m.engine call now).totalKeys = m.engine.totalKeys := by
        cases call <;> first | rfl | exact absurd rfl hne
      rw [size_enter _ _ hpc hne, htotal]
      simp only [EnginePc.owed]
      grind
  | count =>
      simp only [EnginePc.owed, tally_cons]
      grind
  | @sweep now i rest removed sized hfree =>
      have hsize := size_cleanupExpiredLocked m.engine now i
      have htotal : (m.engine.cleanupExpiredLocked now i).2.totalKeys = m.engine.totalKeys := rfl
      simp only [EnginePc.owed, htotal, ← hsize, UInt64.ofNat_add]
      grind
  | @settle now removed sized =>
      have howed : (if sized then .sizing else .idle : EnginePc S).owed = 0 := by
        split <;> rfl
      rw [howed]
      simp only [EnginePc.owed]
      grind
  | @strike key entry hfree hfind =>
      have hsize := PartMap.size_erase_of_some m.engine.shards hfind
      have hshards : (m.engine.evict key).shards = m.engine.shards.erase key := by
        simp [evict, hfind]
      simp only [EnginePc.owed, hshards, ← hsize, UInt64.ofNat_add]
      grind
  | struck =>
      simp only [EnginePc.owed]
      grind
  | _ => simp [EnginePc.owed]

theorem flush_advances {m : ConcurrentEngine S κ} {pc pc' : EnginePc S} {s' : StorageEngine S}
    (hflush : pc.flushing = true) (h : Advances m pc s' pc') :
    m.Unlocked (EngineCall.locks S .flush) ∧ s'.totalKeys = 0 ∧ s'.shards.size = 0 ∧
      pc.owed = 0 ∧ pc'.owed = 0 := by
  cases h with
  | @enter call now hfree =>
      cases call with
      | flush => exact ⟨hfree, rfl, PartMap.size_empty, rfl, rfl⟩
      | _ => simp [EnginePc.flushing] at hflush
  | _ => simp [EnginePc.flushing] at hflush

variable [Fintype κ] [DecidableEq κ]

/-- The counter and what the threads owe it give the number of entries. -/
structure Balanced (m : ConcurrentEngine S κ) : Prop where
  wellFormed : ∀ k, (m.pcs k).WellFormed
  count : m.engine.totalKeys + total EnginePc.owed m.pcs = UInt64.ofNat m.engine.shards.size

/-- What an event does: a thread begins a call, or makes a step. -/
inductive Stepped (m m' : ConcurrentEngine S κ) : ThreadEvent κ → Prop
  | call {k : κ} {call : EngineCall} {now : TimePoint} {pc : EnginePc S}
      (hidle : m.pcs k = .idle) (hbegin : begin call now = some pc)
      (hengine : m'.engine = m.engine) (hpcs : m'.pcs = Function.update m.pcs k pc) :
      Stepped m m' (.call k call now)
  | step {k : κ} {pc : EnginePc S} (hadvances : Advances m (m.pcs k) m'.engine pc)
      (hpcs : m'.pcs = Function.update m.pcs k pc) : Stepped m m' (.step k)

theorem stepped_of_step {m m' : ConcurrentEngine S κ} {e : ThreadEvent κ}
    (h : m.step e = some m') : Stepped m m' e := by
  cases e with
  | call k call now =>
      simp only [step] at h
      split at h
      · rename_i hidle
        obtain ⟨pc, hbegin, rfl⟩ := Option.map_eq_some_iff.mp h
        exact .call hidle hbegin rfl rfl
      · simp at h
  | step k =>
      obtain ⟨r, hadvance, rfl⟩ := Option.map_eq_some_iff.mp h
      exact .step (advances_of_advance hadvance) rfl

omit [DecidableEq κ] in
/-- A `flush` that meets no unfinished sweep finds nothing owed. -/
theorem total_owed_of_flush {m : ConcurrentEngine S κ} (hwell : ∀ k, (m.pcs k).WellFormed)
    (hfree : m.Unlocked (EngineCall.locks S .flush)) (halone : ∀ j, (m.pcs j).removed = 0) :
    total EnginePc.owed m.pcs = 0 := by
  apply total_eq_zero
  intro k
  have hheld : (m.pcs k).held = [] := by
    apply List.eq_nil_iff_forall_not_mem.mpr
    intro i hi
    exact hfree k i hi (List.mem_finRange i)
  exact owed_eq_zero (hwell k) hheld (halone k)

theorem balanced_step {m m' : ConcurrentEngine S κ} {e : ThreadEvent κ} (h : m.Balanced)
    (halone : m.FlushesAlone e) (hstep : m.step e = some m') : m'.Balanced := by
  cases stepped_of_step hstep with
  | @call k call now pc hidle hbegin hengine hpcs =>
      obtain ⟨hwell, howed, -⟩ := wellFormed_begin hbegin
      refine ⟨fun j ↦ ?_, ?_⟩
      · rw [hpcs]
        exact forall_update h.wellFormed hwell j
      · have hsame : pc.owed = (m.pcs k).owed := by rw [howed, hidle]; rfl
        rw [hengine, hpcs, total_update_of_eq hsame]
        exact h.count
  | @step k pc hadvances hpcs =>
      have hwell := wellFormed_advances (h.wellFormed k) hadvances
      refine ⟨fun j ↦ ?_, ?_⟩
      · rw [hpcs]
        exact forall_update h.wellFormed hwell j
      have hcount := h.count
      have hupdate := total_update EnginePc.owed m.pcs k pc
      rw [← hpcs] at hupdate
      cases hflush : (m.pcs k).flushing with
      | false =>
          have howed := owed_advances (h.wellFormed k) hflush hadvances
          grind
      | true =>
          -- the exchange: behind it nothing is stored, counted or owed
          obtain ⟨hfree, htotal, hsize, hbefore, hafter⟩ := flush_advances hflush hadvances
          rw [total_owed_of_flush h.wellFormed hfree (halone hflush), hbefore, hafter] at hupdate
          rw [htotal, hsize]
          simpa using hupdate

omit [DecidableEq κ] in
theorem balanced_start {s : StorageEngine S} (hs : s.drift = 0) :
    Balanced (κ := κ) { engine := s } := by
  have howed : total EnginePc.owed (fun _ : κ ↦ (.idle : EnginePc S)) = 0 :=
    total_eq_zero fun _ ↦ rfl
  refine ⟨fun _ ↦ trivial, ?_⟩
  dsimp only
  rw [howed, UInt64.add_zero]
  exact totalKeys_of_drift hs

/-- However the steps of the threads are interleaved, as long as every `flush`
exchanges the counter while no sweep has removed entries that are still counted,
the counter is exact whenever no call is in progress. -/
theorem counter_exact_of_quiet (s : StorageEngine S) (hs : s.drift = 0)
    (events : List (ThreadEvent κ)) (m : ConcurrentEngine S κ)
    (hrun : run step { engine := s } events = some m)
    (halone : Along step FlushesAlone { engine := s } events) (hquiet : m.Quiet) :
    m.engine.totalKeys = UInt64.ofNat m.engine.shards.size := by
  have hbalanced : m.Balanced := by
    refine run_invariant (P := fun _ m ↦ Balanced m) (balanced_start hs) ?_ halone hrun
    intro _ m e m' h hallowed hstep
    exact balanced_step h hallowed hstep
  have hcount := hbalanced.count
  have howed : total EnginePc.owed m.pcs = 0 := by
    apply total_eq_zero
    intro k
    rw [hquiet k]
    rfl
  rwa [howed, UInt64.add_zero] at hcount

/-- A thread stores a key that expires, a second one sweeps the only shard, and the
first one flushes, before or after the sweep has subtracted its key. -/
def sweepAndFlush (settle : List (ThreadEvent Bool)) (late : List (ThreadEvent Bool)) :
    List (ThreadEvent Bool) :=
  [.call false (.set (ascii "k") (ascii "v")) 0, .step false, .step false, .step false, .step false,
    .call false (.expireAt (ascii "k") 10) 0, .step false, .step false,
    .call true .cleanupExpired 20, .step true] ++ settle ++
  [.call false .flush 20, .step false, .step false] ++ late

/-- The sweep is over when the keys are flushed. -/
theorem counter_exact_of_quiet_swept :
    ∃ m, run step { engine := ({} : StorageEngine oneShard) } (sweepAndFlush [.step true] []) =
        some m ∧ m.engine.totalKeys = UInt64.ofNat m.engine.shards.size := by
  have hrun : (run step { engine := ({} : StorageEngine oneShard) }
      (sweepAndFlush [.step true] [])).map (fun m ↦ decide m.Quiet) = some true := by
    decide +kernel
  obtain ⟨m, hm, hquiet⟩ := Option.map_eq_some_iff.mp hrun
  exact ⟨m, hm, counter_exact_of_quiet {} (by decide) _ m hm (by decide +kernel)
    (of_decide_eq_true hquiet)⟩

/-- The sweep subtracts its key from the exchanged counter, which wraps. -/
theorem counter_wraps_after_flush :
    ∃ m, run step { engine := ({} : StorageEngine oneShard) } (sweepAndFlush [] [.step true]) =
        some m ∧ m.Quiet ∧ m.engine.shards.size = 0 ∧
      m.engine.totalKeys = 18446744073709551615 := by
  have hrun : (run step { engine := ({} : StorageEngine oneShard) }
      (sweepAndFlush [] [.step true])).map
        (fun m ↦ (decide m.Quiet, m.engine.shards.size, m.engine.totalKeys)) =
          some (true, 0, 18446744073709551615) := by
    decide +kernel
  obtain ⟨m, hm, hvalues⟩ := Option.map_eq_some_iff.mp hrun
  simp only [Prod.mk.injEq, decide_eq_true_eq] at hvalues
  exact ⟨m, hm, hvalues⟩

end ConcurrentEngine

end ByteCacheDB
