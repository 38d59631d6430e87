import ByteCacheDB.Clock
import ByteCacheDB.Text
import ByteCacheDB.Lib.PartMap

/-!
# The storage engine, one call at a time

Each method is a function on the engine state that takes the clock reading it
makes.  The locked part of a method and the eviction that may follow it are
separate definitions, so that the interleaved model can run them as separate
steps.  Counters are `size_t` and wrap.
-/

namespace ByteCacheDB

/-- The shards of an engine: how many there are and how keys are hashed. -/
structure Sharding where
  count : ℕ
  pos : 0 < count
  hash : Bytes → UInt64

def Sharding.shardIndex (S : Sharding) (key : Bytes) : Fin S.count :=
  ⟨(S.hash key).toNat % S.count, Nat.mod_lt _ S.pos⟩

/-- A single shard, for small concrete engines. -/
def oneShard : Sharding := ⟨1, Nat.one_pos, fun _ ↦ 0⟩

structure ValueEntry where
  value : Bytes
  expiresAt : Option TimePoint
  createdAt : TimePoint
  lastAccessSequence : UInt64
  deriving DecidableEq, Repr

structure SnapshotEntry where
  key : Bytes
  value : Bytes
  expiresAt : Option TimePoint
  deriving DecidableEq, Repr

structure StorageEngine (S : Sharding) where
  shards : PartMap Bytes ValueEntry S.shardIndex := .empty
  totalKeys : UInt64 := 0
  maxKeys : UInt64 := 0
  evictedKeys : UInt64 := 0
  expiredKeysRemoved : UInt64 := 0
  accessSequence : UInt64 := 0
  evictionEnabled : Bool := true
  pendingEvictedKeys : List Bytes := []

namespace StorageEngine

variable {S : Sharding}

def isExpired (entry : ValueEntry) (now : TimePoint) : Bool :=
  match entry.expiresAt with
  | some expiresAt => decide (expiresAt ≤ now)
  | none => false

/-- Write an entry with a fresh access sequence number. -/
def put (s : StorageEngine S) (key : Bytes) (entry : ValueEntry) : StorageEngine S :=
  { s with
    shards := s.shards.insert key { entry with lastAccessSequence := s.accessSequence + 1 }
    accessSequence := s.accessSequence + 1 }

/-- Remove an expired entry that a call has met. -/
def removeExpired (s : StorageEngine S) (key : Bytes) : StorageEngine S :=
  { s with
    shards := s.shards.erase key
    totalKeys := s.totalKeys - 1
    expiredKeysRemoved := s.expiredKeysRemoved + 1 }

/-- The block that opens `set`, `mset`, `increment` and `append`. -/
def dropExpired (s : StorageEngine S) (now : TimePoint) (key : Bytes) : StorageEngine S :=
  match s.shards.find? key with
  | some entry => if isExpired entry now then s.removeExpired key else s
  | none => s

/-- Write an entry and count it if its key is new. -/
def putCounted (s : StorageEngine S) (key : Bytes) (entry : ValueEntry) : StorageEngine S :=
  match s.shards.find? key with
  | some _ => s.put key entry
  | none => { s.put key entry with totalKeys := s.totalKeys + 1 }

/-! ## Eviction -/

/-- One round of the scan in `enforce_max_keys`. -/
def olderEntry (victim : Option (Bytes × UInt64)) (key : Bytes) (entry : ValueEntry) :
    Option (Bytes × UInt64) :=
  match victim with
  | none => some (key, entry.lastAccessSequence)
  | some (_, oldest) =>
      if entry.lastAccessSequence < oldest then some (key, entry.lastAccessSequence) else victim

/-- Scan of one shard.  The index the source keeps beside the victim's key is
the key's own shard, so the key alone is kept. -/
def scanShard (s : StorageEngine S) (victim : Option (Bytes × UInt64)) (index : Fin S.count) :
    Option (Bytes × UInt64) :=
  (s.shards.part index).entries.foldl (fun v e ↦ olderEntry v e.1 e.2) victim

def findVictim (s : StorageEngine S) : Option (Bytes × UInt64) :=
  (List.finRange S.count).foldl s.scanShard none

/-- Erase a victim that is still there and remember it for the log. -/
def evict (s : StorageEngine S) (key : Bytes) : StorageEngine S :=
  match s.shards.find? key with
  | some _ =>
      { s with
        shards := s.shards.erase key
        totalKeys := s.totalKeys - 1
        evictedKeys := s.evictedKeys + 1
        pendingEvictedKeys := s.pendingEvictedKeys ++ [key] }
  | none => s

/-- The eviction loop; every round removes an entry, so the number of entries
bounds the number of rounds. -/
def evictionLoop (limit : UInt64) : ℕ → StorageEngine S → StorageEngine S
  | 0, s => s
  | rounds + 1, s =>
      if limit < s.totalKeys then
        match s.findVictim with
        | none => s
        | some (key, _) => evictionLoop limit rounds (s.evict key)
      else s

def enforceMaxKeys (s : StorageEngine S) : StorageEngine S :=
  if !s.evictionEnabled ∨ s.maxKeys = 0 ∨ s.totalKeys ≤ s.maxKeys then s
  else evictionLoop s.maxKeys (s.shards.size + 1) s

def takeEvictedKeys (s : StorageEngine S) : List Bytes × StorageEngine S :=
  (s.pendingEvictedKeys, { s with pendingEvictedKeys := [] })

def setMaxKeys (s : StorageEngine S) (maxKeys : UInt64) : StorageEngine S :=
  { s with maxKeys := maxKeys }.enforceMaxKeys

def setEvictionEnabled (s : StorageEngine S) (enabled : Bool) : StorageEngine S :=
  if enabled then { s with evictionEnabled := true }.enforceMaxKeys
  else { s with evictionEnabled := false }

/-! ## Writes -/

/-- What `set` does under the shard lock, and `mset` for each pair. -/
def store (s : StorageEngine S) (now : TimePoint) (key value : Bytes) : StorageEngine S :=
  (s.dropExpired now key).putCounted key ⟨value, none, now, 0⟩

def set (s : StorageEngine S) (now : TimePoint) (key value : Bytes) : StorageEngine S :=
  (s.store now key value).enforceMaxKeys

/-- The pairs of an argument list; the parser only lets even lists through. -/
def argPairs : List Bytes → List (Bytes × Bytes)
  | key :: value :: rest => (key, value) :: argPairs rest
  | _ => []

def storeAll (s : StorageEngine S) (now : TimePoint) (pairs : List (Bytes × Bytes)) :
    StorageEngine S :=
  pairs.foldl (fun s p ↦ s.store now p.1 p.2) s

def mset (s : StorageEngine S) (now : TimePoint) (args : List Bytes) :
    List Bytes × StorageEngine S :=
  ((argPairs args).map Prod.fst, (s.storeAll now (argPairs args)).enforceMaxKeys)

def del (s : StorageEngine S) (key : Bytes) : ℕ × StorageEngine S :=
  match s.shards.find? key with
  | some _ => (1, { s with shards := s.shards.erase key, totalKeys := s.totalKeys - 1 })
  | none => (0, s)

def expireAt (s : StorageEngine S) (now : TimePoint) (key : Bytes) (expiresAt : TimePoint) :
    Bool × StorageEngine S :=
  match s.shards.find? key with
  | none => (false, s)
  | some entry =>
      if isExpired entry now ∨ expiresAt ≤ now then
        (decide (expiresAt ≤ now), s.removeExpired key)
      else (true, s.put key { entry with expiresAt := some expiresAt })

def persist (s : StorageEngine S) (now : TimePoint) (key : Bytes) : Bool × StorageEngine S :=
  match s.shards.find? key with
  | none => (false, s)
  | some entry =>
      if isExpired entry now then (false, s.removeExpired key)
      else (entry.expiresAt.isSome, s.put key { entry with expiresAt := none })

def flush (s : StorageEngine S) : UInt64 × StorageEngine S :=
  (s.totalKeys, { s with shards := .empty, totalKeys := 0 })

/-- The integer a stored text denotes, as `increment` reads it. -/
def storedInteger (value : Bytes) : Except Bytes Int64 :=
  match fromCharsI64 value with
  | .ok (current, []) => .ok current
  | _ => .error (ascii "value is not an integer")

def checkedAdd (current delta : Int64) : Except Bytes Int64 :=
  if (0 < delta ∧ Int64.maxValue - delta < current) ∨
      (delta < 0 ∧ current < Int64.minValue - delta) then
    .error (ascii "integer overflow")
  else .ok (current + delta)

/-- What `increment` does under the shard lock, with its flag `inserted`. -/
def incrementLocked (s : StorageEngine S) (now : TimePoint) (key : Bytes) (delta : Int64) :
    Except Bytes (Int64 × Bool) × StorageEngine S :=
  let s := s.dropExpired now key
  match s.shards.find? key with
  | none =>
      match checkedAdd 0 delta with
      | .error e => (.error e, s)
      | .ok next => (.ok (next, true), s.putCounted key ⟨toStringI64 next, none, now, 0⟩)
  | some entry =>
      match storedInteger entry.value >>= (checkedAdd · delta) with
      | .error e => (.error e, s)
      | .ok next => (.ok (next, false), s.put key { entry with value := toStringI64 next })

def increment (s : StorageEngine S) (now : TimePoint) (key : Bytes) (delta : Int64) :
    Except Bytes Int64 × StorageEngine S :=
  match s.incrementLocked now key delta with
  | (.error e, s) => (.error e, s)
  | (.ok (next, inserted), s) => (.ok next, if inserted then s.enforceMaxKeys else s)

/-- What `append` does under the shard lock: the new length and `inserted`. -/
def appendLocked (s : StorageEngine S) (now : TimePoint) (key suffix : Bytes) :
    (ℕ × Bool) × StorageEngine S :=
  let s := s.dropExpired now key
  match s.shards.find? key with
  | none => ((suffix.length, true), s.putCounted key ⟨suffix, none, now, 0⟩)
  | some entry =>
      (((entry.value ++ suffix).length, false),
        s.put key { entry with value := entry.value ++ suffix })

def append (s : StorageEngine S) (now : TimePoint) (key suffix : Bytes) :
    ℕ × StorageEngine S :=
  match s.appendLocked now key suffix with
  | ((length, inserted), s) => (length, if inserted then s.enforceMaxKeys else s)

/-! ## Reads and sweeps -/

def get (s : StorageEngine S) (now : TimePoint) (key : Bytes) :
    Option Bytes × StorageEngine S :=
  match s.shards.find? key with
  | none => (none, s)
  | some entry =>
      if isExpired entry now then (none, s.removeExpired key)
      else (some entry.value, s.put key entry)

/-- `get` for every key; each one makes its own clock reading. -/
def mget (s : StorageEngine S) : List (Bytes × TimePoint) → List (Option Bytes) × StorageEngine S
  | [] => ([], s)
  | (key, now) :: rest =>
      let (value, s) := s.get now key
      let (values, s) := s.mget rest
      (value :: values, s)

def «exists» (s : StorageEngine S) (now : TimePoint) (key : Bytes) : Bool × StorageEngine S :=
  let (value, s) := s.get now key
  (value.isSome, s)

/-- The length of a missing value is zero, and never absent. -/
def strlen (s : StorageEngine S) (now : TimePoint) (key : Bytes) :
    Option ℕ × StorageEngine S :=
  let (value, s) := s.get now key
  (match value with
    | some value => some value.length
    | none => some 0, s)

def ttl (s : StorageEngine S) (now : TimePoint) (key : Bytes) : Int64 × StorageEngine S :=
  match s.shards.find? key with
  | none => (-2, s)
  | some entry =>
      if isExpired entry now then (-2, s.removeExpired key)
      else
        match entry.expiresAt with
        | none => (-1, s.put key entry)
        | some expiresAt =>
            let remainingMs := toEpochMillis (expiresAt - now)
            (if remainingMs ≤ 0 then -2 else (remainingMs + 999) / 1000, s.put key entry)

/-- Sweep of one shard: the number of removed entries and the new shards. -/
def cleanupExpiredLocked (s : StorageEngine S) (now : TimePoint) (index : Fin S.count) :
    ℕ × StorageEngine S :=
  (((s.shards.part index).entries.filter fun e ↦ isExpired e.2 now).length,
    { s with shards := s.shards.filterPart index fun _ entry ↦ !isExpired entry now })

/-- The sweep over a list of shards, with the number removed so far. -/
def sweepShards (now : TimePoint) : List (Fin S.count) → ℕ × StorageEngine S →
    ℕ × StorageEngine S
  | [], acc => acc
  | index :: rest, (removed, s) =>
      let (count, s) := s.cleanupExpiredLocked now index
      sweepShards now rest (removed + count, s)

/-- `removed` is subtracted only after the last shard has been left. -/
def cleanupExpired (s : StorageEngine S) (now : TimePoint) : ℕ × StorageEngine S :=
  let (removed, s) := sweepShards now (List.finRange S.count) (0, s)
  (removed,
    { s with
      totalKeys := s.totalKeys - UInt64.ofNat removed
      expiredKeysRemoved := s.expiredKeysRemoved + UInt64.ofNat removed })

def size (s : StorageEngine S) (now : TimePoint) : UInt64 × StorageEngine S :=
  let s := (s.cleanupExpired now).2
  (s.totalKeys, s)

def snapshotEntries (s : StorageEngine S) (now : TimePoint) : List SnapshotEntry :=
  ((s.shards.entries.filter fun e ↦ !isExpired e.2 now).map
    fun e ↦ ⟨e.1, e.2.value, e.2.expiresAt⟩).insertionSort fun a b ↦ a.key ≤ b.key

def keys (s : StorageEngine S) (now : TimePoint) : List Bytes :=
  ((s.snapshotEntries now).map SnapshotEntry.key).insertionSort fun a b ↦ a ≤ b

end StorageEngine

end ByteCacheDB
