import ByteCacheDB.Counters

/-!
# Sequences of engine calls

The public methods of the engine as one family of calls with their results, run
one at a time.  `mget` reads the clock once for every key.  Every call is a part
that works under the locks of its shards, and `enforce_max_keys` behind some.
-/

namespace ByteCacheDB

inductive EngineCall where
  | set (key value : Bytes)
  | mset (args : List Bytes)
  | get (key : Bytes)
  | mget (keys : List Bytes)
  | del (key : Bytes)
  | exists (key : Bytes)
  | expireAt (key : Bytes) (expiresAt : TimePoint)
  | ttl (key : Bytes)
  | persist (key : Bytes)
  | keys
  | flush
  | increment (key : Bytes) (delta : Int64)
  | append (key suffix : Bytes)
  | strlen (key : Bytes)
  | cleanupExpired
  | size
  | snapshotEntries
  | evictedKeys
  | expiredKeysRemoved
  | takeEvictedKeys
  | setMaxKeys (maxKeys : UInt64)
  | setEvictionEnabled (enabled : Bool)
  deriving DecidableEq, Repr

inductive EngineResult where
  | nothing
  | value (value : Option Bytes)
  | values (values : List (Option Bytes))
  | keys (keys : List Bytes)
  | entries (entries : List SnapshotEntry)
  | flag (flag : Bool)
  | count (count : ℕ)
  | length (length : Option ℕ)
  | seconds (seconds : Int64)
  | integer (integer : Except Bytes Int64)
  deriving DecidableEq

/-- A call and its clock readings in their order; a call that makes none is taken
to run at the time of the first. -/
structure EngineEvent where
  call : EngineCall
  clock : ℕ → TimePoint

def EngineEvent.times (e : EngineEvent) : List TimePoint :=
  match e.call with
  | .mget keys => e.clock 0 :: keys.tail.mapIdx fun i _ ↦ e.clock (i + 1)
  | _ => [e.clock 0]

/-- The clock never runs backwards. -/
def Chronological (events : List EngineEvent) : Prop :=
  (events.flatMap EngineEvent.times).Pairwise (· ≤ ·)

namespace StorageEngine

variable {S : Sharding}

def call (s : StorageEngine S) (e : EngineEvent) : EngineResult × StorageEngine S :=
  let now := e.clock 0
  match e.call with
  | .set key value => (.nothing, s.set now key value)
  | .mset args => (.keys (s.mset now args).1, (s.mset now args).2)
  | .get key => (.value (s.get now key).1, (s.get now key).2)
  | .mget keys =>
      let result := s.mget (keys.mapIdx fun i key ↦ (key, e.clock i))
      (.values result.1, result.2)
  | .del key => (.count (s.del key).1, (s.del key).2)
  | .exists key => (.flag (s.exists now key).1, (s.exists now key).2)
  | .expireAt key expiresAt =>
      (.flag (s.expireAt now key expiresAt).1, (s.expireAt now key expiresAt).2)
  | .ttl key => (.seconds (s.ttl now key).1, (s.ttl now key).2)
  | .persist key => (.flag (s.persist now key).1, (s.persist now key).2)
  | .keys => (.keys (s.keys now), s)
  | .flush => (.count s.flush.1.toNat, s.flush.2)
  | .increment key delta =>
      (.integer (s.increment now key delta).1, (s.increment now key delta).2)
  | .append key suffix => (.count (s.append now key suffix).1, (s.append now key suffix).2)
  | .strlen key => (.length (s.strlen now key).1, (s.strlen now key).2)
  | .cleanupExpired => (.count (s.cleanupExpired now).1, (s.cleanupExpired now).2)
  | .size => (.count (s.size now).1.toNat, (s.size now).2)
  | .snapshotEntries => (.entries (s.snapshotEntries now), s)
  | .evictedKeys => (.count s.evictedKeys.toNat, s)
  | .expiredKeysRemoved => (.count s.expiredKeysRemoved.toNat, s)
  | .takeEvictedKeys => (.keys s.takeEvictedKeys.1, s.takeEvictedKeys.2)
  | .setMaxKeys maxKeys => (.nothing, s.setMaxKeys maxKeys)
  | .setEvictionEnabled enabled => (.nothing, s.setEvictionEnabled enabled)

/-- The call up to `enforce_max_keys`: its result, whether eviction is to follow,
and the engine. -/
def beforeEviction (s : StorageEngine S) (e : EngineEvent) :
    EngineResult × Bool × StorageEngine S :=
  let now := e.clock 0
  match e.call with
  | .set key value => (.nothing, true, s.store now key value)
  | .mset args =>
      (.keys ((argPairs args).map Prod.fst), true, s.storeAll now (argPairs args))
  | .increment key delta =>
      match s.incrementLocked now key delta with
      | (.error e, s) => (.integer (.error e), false, s)
      | (.ok (n, inserted), s) => (.integer (.ok n), inserted, s)
  | .append key suffix =>
      let result := s.appendLocked now key suffix
      (.count result.1.1, result.1.2, result.2)
  | .setMaxKeys maxKeys => (.nothing, true, { s with maxKeys := maxKeys })
  | .setEvictionEnabled enabled => (.nothing, enabled, { s with evictionEnabled := enabled })
  | _ => ((s.call e).1, false, (s.call e).2)

theorem call_eq (s : StorageEngine S) (e : EngineEvent) :
    s.call e = ((s.beforeEviction e).1,
      if (s.beforeEviction e).2.1 then (s.beforeEviction e).2.2.enforceMaxKeys
      else (s.beforeEviction e).2.2) := by
  obtain ⟨call, clock⟩ := e
  cases call with
  | increment key delta =>
      rcases h : s.incrementLocked (clock 0) key delta with ⟨_ | ⟨n, inserted⟩, s'⟩ <;>
        simp [call, beforeEviction, increment, h]
  | setEvictionEnabled enabled => cases enabled <;> rfl
  | _ => rfl

/-- The engine after some calls. -/
def calls (s : StorageEngine S) (events : List EngineEvent) : StorageEngine S :=
  events.foldl (fun s e ↦ (s.call e).2) s

theorem calls_concat (s : StorageEngine S) (events : List EngineEvent) (e : EngineEvent) :
    s.calls (events ++ [e]) = ((s.calls events).call e).2 := by
  simp [calls]

variable {s : StorageEngine S}

theorem keeps_mget (pairs : List (Bytes × TimePoint)) (s : StorageEngine S) :
    Keeps s (s.mget pairs).2 := by
  induction pairs generalizing s with
  | nil => exact Keeps.refl s
  | cons p rest ih => exact (keeps_get s p.2 p.1).trans (ih (s.get p.2 p.1).2)

theorem snd_beforeEviction_increment (key : Bytes) (delta : Int64) (clock : ℕ → TimePoint) :
    (s.beforeEviction ⟨.increment key delta, clock⟩).2.2 =
      (s.incrementLocked (clock 0) key delta).2 := by
  simp only [beforeEviction]
  rcases s.incrementLocked (clock 0) key delta with ⟨_ | ⟨n, inserted⟩, s'⟩ <;> rfl

/-- Up to eviction, only four of the calls touch more than entries and their count. -/
theorem keeps_beforeEviction (e : EngineEvent) : Keeps s (s.beforeEviction e).2.2 ∨
    e.call = .flush ∨ e.call = .takeEvictedKeys ∨ (∃ n, e.call = .setMaxKeys n) ∨
      ∃ enabled, e.call = .setEvictionEnabled enabled := by
  obtain ⟨call, clock⟩ := e
  cases call with
  | set key value => exact Or.inl (keeps_store s _ key value)
  | mset args => exact Or.inl (keeps_storeAll s _ (argPairs args))
  | get key | «exists» key | strlen key => exact Or.inl (keeps_get s _ key)
  | mget keys => exact Or.inl (keeps_mget _ s)
  | del key => exact Or.inl (keeps_del s key)
  | expireAt key deadline => exact Or.inl (keeps_expireAt s _ key deadline)
  | ttl key => exact Or.inl (keeps_ttl s _ key)
  | persist key => exact Or.inl (keeps_persist s _ key)
  | increment key delta =>
      rw [snd_beforeEviction_increment]
      exact Or.inl (keeps_incrementLocked s _ key delta)
  | append key suffix => exact Or.inl (keeps_appendLocked s _ key suffix)
  | cleanupExpired | size => exact Or.inl (keeps_cleanupExpired s _)
  | keys | snapshotEntries | evictedKeys | expiredKeysRemoved => exact Or.inl (Keeps.refl s)
  | flush | takeEvictedKeys | setMaxKeys | setEvictionEnabled => simp

theorem drift_beforeEviction (h : s.drift = 0) (e : EngineEvent) :
    (s.beforeEviction e).2.2.drift = 0 := by
  obtain ⟨call, clock⟩ := e
  rcases keeps_beforeEviction (s := s) ⟨call, clock⟩ with hkeeps | rfl | rfl | ⟨_, rfl⟩ | ⟨_, rfl⟩
  · exact hkeeps.drift.trans h
  · exact drift_flush s
  · exact h
  · exact h
  · exact h

/-- An exact counter stays exact. -/
theorem drift_call (h : s.drift = 0) (e : EngineEvent) : (s.call e).2.drift = 0 := by
  have hbefore := drift_beforeEviction h e
  rw [call_eq]
  dsimp only
  split
  · obtain ⟨ks, hks⟩ := evicts_enforceMaxKeys (s.beforeEviction e).2.2
    exact hks.drift.trans hbefore
  · exact hbefore

/-- Without a limit there is none behind a call, and the call evicts nothing. -/
theorem unlimited_call (h : s.maxKeys = 0) {e : EngineEvent}
    (hcall : ∀ n, e.call = .setMaxKeys n → n = 0) :
    (s.call e).2.maxKeys = 0 ∧ (s.call e).2.evictedKeys = s.evictedKeys := by
  have hbefore : (s.beforeEviction e).2.2.maxKeys = 0 ∧
      (s.beforeEviction e).2.2.evictedKeys = s.evictedKeys := by
    obtain ⟨call, clock⟩ := e
    rcases keeps_beforeEviction (s := s) ⟨call, clock⟩ with hkeeps | rfl | rfl | ⟨n, rfl⟩ | ⟨_, rfl⟩
    · exact ⟨hkeeps.maxKeys.trans h, hkeeps.evictedKeys⟩
    · exact ⟨h, rfl⟩
    · exact ⟨h, rfl⟩
    · exact ⟨hcall n rfl, rfl⟩
    · exact ⟨h, rfl⟩
  rw [call_eq]
  dsimp only
  split
  · rw [enforceMaxKeys_of_le (Or.inl hbefore.1)]
    exact hbefore
  · exact hbefore

theorem maxKeys_call (h : s.maxKeys = 0) {e : EngineEvent}
    (hcall : ∀ n, e.call = .setMaxKeys n → n = 0) : (s.call e).2.maxKeys = 0 :=
  (unlimited_call h hcall).1

end StorageEngine

end ByteCacheDB
