import ByteCacheDB.ClientHandler
import ByteCacheDB.Isolation
import ByteCacheDB.Lib.LockOrder

/-!
# The locks of the server

What every command, the sweeper and the sync thread lock and unlock, in the order of
the source.  Which way a call goes depends on the data: whether it is over the
limit, how often an eviction scans, where it finds its victims, whether there is
something to log.  A `Course` fixes these choices, and the results hold for all of
them.
-/

namespace ByteCacheDB

open LockOrder Runs TwoPhase

variable {S : Sharding}

inductive ServerLock (S : Sharding)
  | writePath
  | eviction
  | shard (index : Fin S.count)
  | evictedKeys
  | aof
  deriving DecidableEq

namespace ServerLock

def rank : ServerLock S → ℕ
  | writePath => 0
  | eviction => 1
  | shard index => 2 + index
  | evictedKeys => 2 + S.count
  | aof => 3 + S.count

end ServerLock

/-- A scan of an eviction that found a victim; the entry may be gone when its
shard is locked again. -/
structure EvictionRound (S : Sharding) where
  victim : Fin S.count
  erased : Bool

/-- The work of `enforce_max_keys` beyond its first check; it ends below the limit
or after a scan that finds no entry. -/
structure Enforcement (S : Sharding) where
  rounds : List (EvictionRound S)
  exhausted : Bool

structure Course (S : Sharding) where
  /-- the arguments of EXPIRE and EXPIREAT are numbers; SAVE has a path -/
  accepted : Bool := true
  /-- nothing was inserted or the number of keys is within the limit -/
  enforcement : Option (Enforcement S) := none
  shouldLog : Bool := true
  evicted : ℕ := 0
  /-- INFO counts the keys before it estimates the memory; C++ leaves the order open -/
  sizeFirst : Bool := true

section Scripts

/-- A call that works on one shard. -/
def keyLocks (key : Bytes) : List (Op (ServerLock S)) :=
  locking [.shard (S.shardIndex key)] .exclusive []

/-- The shards one after another, as in `cleanup_expired` and
`memory_estimate_bytes`. -/
def eachShardLocks (mode : Mode) : List (Op (ServerLock S)) :=
  (List.finRange S.count).flatMap fun index ↦ locking [.shard index] mode []

/-- All shards at the same time, as in `flush` and `snapshot_entries`. -/
def allShardsLocks (mode : Mode) : List (Op (ServerLock S)) :=
  locking ((List.finRange S.count).map .shard) mode []

def roundLocks (round : EvictionRound S) : List (Op (ServerLock S)) :=
  eachShardLocks .shared ++ locking [.shard round.victim] .exclusive
    (if round.erased then locking [.evictedKeys] .exclusive [] else [])

def enforceMaxKeysLocks : Option (Enforcement S) → List (Op (ServerLock S))
  | none => []
  | some e => locking [.eviction] .exclusive
      (e.rounds.flatMap roundLocks ++ if e.exhausted then eachShardLocks .shared else [])

def msetLocks (args : List Bytes) : List (Op (ServerLock S)) :=
  locking ((msetIndexes S args).map .shard) .exclusive []

def executeLocks (command : Command) (course : Course S) : List (Op (ServerLock S)) :=
  let key := command.arg 0
  match command.type with
  | .ping | .unknown => []
  | .set | .incr | .decr | .append => keyLocks key ++ enforceMaxKeysLocks course.enforcement
  | .mset => msetLocks command.args ++ enforceMaxKeysLocks course.enforcement
  | .get | .exists | .strlen | .del | .ttl | .persist => keyLocks key
  | .mget => command.args.flatMap keyLocks
  | .expire | .expireat => if course.accepted then keyLocks key else []
  | .keys => allShardsLocks .shared
  | .flush => allShardsLocks .exclusive
  -- the number of keys, which sweeps first, and the memory estimate
  | .info =>
      if course.sizeFirst then eachShardLocks .exclusive ++ eachShardLocks .shared
      else eachShardLocks .shared ++ eachShardLocks .exclusive
  | .save => if course.accepted then allShardsLocks .shared else []

def persistIfNeededLocks (enabled : Bool) (course : Course S) : List (Op (ServerLock S)) :=
  if !course.shouldLog then []
  else if !enabled then locking [.evictedKeys] .exclusive []
  else
    locking [.aof] .exclusive [] ++ locking [.evictedKeys] .exclusive [] ++
      (List.replicate course.evicted ()).flatMap fun _ ↦ locking [.aof] .exclusive []

def executeOrderedLocks (enabled : Bool) (command : Command) (course : Course S) :
    List (Op (ServerLock S)) :=
  let body := executeLocks command course ++ persistIfNeededLocks enabled course
  if command.type = .save ∨ (CommandParser.isMutating command.type ∧ enabled) then
    locking [.writePath] .exclusive body
  else body

/-- A round of work of a thread: a worker executes a command, the sweeper calls
`cleanup_expired`, and the sync thread wakes up with the mutex of the file and goes
back to waiting without it. -/
inductive Job (S : Sharding)
  | command (command : Command) (course : Course S)
  | sweep
  | sync

def Job.locks (enabled : Bool) : Job S → List (Op (ServerLock S))
  | command c course => executeOrderedLocks enabled c course
  | sweep => eachShardLocks .exclusive
  | sync => locking [.aof] .exclusive []

end Scripts

section Order

open ServerLock

theorem nested_shard {bound : ℕ} (hbound : bound ≤ 2) (index : Fin S.count) (mode : Mode) :
    Nested rank bound (locking [ServerLock.shard index] mode []) :=
  nested_lock (by simp only [rank]; omega) nested_nil

theorem nested_keyLocks (key : Bytes) : Nested rank 1 (keyLocks (S := S) key) :=
  nested_shard (by omega) _ _

theorem nested_eachShardLocks (mode : Mode) :
    Nested rank 2 (eachShardLocks (S := S) mode) :=
  nested_flatMap fun index _ ↦ nested_shard le_rfl index mode

/-- Several shards are locked in the order of their indexes. -/
theorem nested_shards {indexes : List (Fin S.count)} (hsorted : indexes.Pairwise (· < ·))
    (mode : Mode) : Nested rank 1 (locking (indexes.map ServerLock.shard) mode []) := by
  have hbody : Nested rank (2 + S.count) ([] : List (Op (ServerLock S))) := nested_nil
  refine Nested.locking ?_ ?_ ?_ (by omega) hbody
  · rw [List.pairwise_map]
    exact hsorted.imp fun {i j} hlt ↦ by simpa [rank] using hlt
  · simp only [List.forall_mem_map, rank]
    omega
  · simp only [List.forall_mem_map, rank]
    omega

theorem nested_allShardsLocks (mode : Mode) : Nested rank 1 (allShardsLocks (S := S) mode) :=
  nested_shards (List.sortedLT_finRange S.count).pairwise mode

theorem pairwise_msetIndexes (S : Sharding) (args : List Bytes) :
    (msetIndexes S args).Pairwise (· < ·) := by
  have hle : (msetIndexes S args).Pairwise (· ≤ ·) :=
    (List.pairwise_insertionSort _ _).sublist (List.dedup_sublist _)
  have hne : (msetIndexes S args).Pairwise (· ≠ ·) := List.nodup_dedup _
  exact hle.imp₂ (fun _ _ ↦ lt_of_le_of_ne) hne

theorem nested_msetLocks (args : List Bytes) : Nested rank 1 (msetLocks (S := S) args) :=
  nested_shards (pairwise_msetIndexes S args) .exclusive

theorem nested_roundLocks (round : EvictionRound S) : Nested rank 2 (roundLocks round) := by
  refine (nested_eachShardLocks .shared).append (nested_lock (by simp only [rank]; omega) ?_)
  split
  · exact nested_lock (by simp only [rank]; omega) nested_nil
  · exact nested_nil

theorem nested_enforceMaxKeysLocks (enforcement : Option (Enforcement S)) :
    Nested rank 1 (enforceMaxKeysLocks enforcement) := by
  cases enforcement with
  | none => exact nested_nil
  | some e =>
      refine nested_lock le_rfl (Nested.append ?_ ?_)
      · exact nested_flatMap fun round _ ↦ nested_roundLocks round
      · split
        · exact nested_eachShardLocks .shared
        · exact nested_nil

theorem nested_executeLocks (command : Command) (course : Course S) :
    Nested rank 1 (executeLocks command course) := by
  have hkey := nested_keyLocks (S := S) (command.arg 0)
  have henforce := nested_enforceMaxKeysLocks course.enforcement
  have heach : ∀ mode, Nested rank 1 (eachShardLocks (S := S) mode) :=
    fun mode ↦ (nested_eachShardLocks mode).mono (by omega)
  rw [executeLocks]
  cases command.type with
  | ping | unknown => exact nested_nil
  | set | incr | decr | append => exact hkey.append henforce
  | mset => exact (nested_msetLocks command.args).append henforce
  | get | «exists» | strlen | del | ttl | persist => exact hkey
  | mget => exact nested_flatMap fun key _ ↦ nested_keyLocks key
  | expire | expireat =>
      dsimp only
      split
      · exact hkey
      · exact nested_nil
  | keys => exact nested_allShardsLocks .shared
  | flush => exact nested_allShardsLocks .exclusive
  | info =>
      dsimp only
      split
      · exact (heach .exclusive).append (heach .shared)
      · exact (heach .shared).append (heach .exclusive)
  | save =>
      dsimp only
      split
      · exact nested_allShardsLocks .shared
      · exact nested_nil

theorem nested_persistIfNeededLocks (enabled : Bool) (course : Course S) :
    Nested rank 1 (persistIfNeededLocks enabled course) := by
  have haof : Nested rank 1 (locking [ServerLock.aof (S := S)] .exclusive []) :=
    nested_lock (by simp only [rank]; omega) nested_nil
  have hevicted : Nested rank 1 (locking [ServerLock.evictedKeys (S := S)] .exclusive []) :=
    nested_lock (by simp only [rank]; omega) nested_nil
  rw [persistIfNeededLocks]
  split
  · exact nested_nil
  · split
    · exact hevicted
    · exact (haof.append hevicted).append (nested_flatMap fun _ _ ↦ haof)

theorem ordered_locks (enabled : Bool) (job : Job S) :
    Ordered rank (fun _ ↦ none) (job.locks enabled) := by
  cases job with
  | command command course =>
      have hbody := (nested_executeLocks command course).append
        (nested_persistIfNeededLocks enabled course)
      rw [Job.locks, executeOrderedLocks]
      split
      · exact (nested_lock le_rfl hbody).ordered
      · exact hbody.ordered
  | sweep => exact (nested_eachShardLocks .exclusive).ordered
  | sync =>
      have hsync : Nested rank 0 (locking [ServerLock.aof (S := S)] .exclusive []) :=
        nested_lock (Nat.zero_le _) nested_nil
      exact hsync.ordered

end Order

/-- Any number of threads work through commands, sweeps and syncs, and the locks are
given to those who wait for them in any order: in no set of threads does everybody
wait for a lock that one of them owns, and while a thread is unfinished, an unfinished
thread can take its next step and waits for a lock of nobody. -/
theorem no_deadlock {κ : Type} [Fintype κ] [DecidableEq κ] (enabled : Bool)
    (events : List (Event κ (Job S))) (threads : κ → Thread (ServerLock S))
    (hrun : run (next (Job.locks enabled)) (fun _ ↦ {}) events = some threads) :
    (∀ waiting : Finset κ, waiting.Nonempty → ∃ k ∈ waiting, ¬ WaitsOn threads waiting k) ∧
      ((∃ k, (threads k).todo ≠ []) → ∃ k, (threads k).todo ≠ [] ∧
        ¬ WaitsOn threads Finset.univ k ∧
          (next (Job.locks enabled) threads (.step k)).isSome) := by
  have h : Disciplined ServerLock.rank threads := disciplined_run (ordered_locks enabled) hrun
  refine ⟨fun waiting hwaiting ↦ h.exists_not_waitsOn hwaiting, fun hunfinished ↦ ?_⟩
  obtain ⟨k, htodo, hfree⟩ := h.exists_runnable hunfinished
  exact ⟨k, htodo, hfree, next_step_isSome htodo hfree⟩

/-- A reader has the shard, and a writer with the write path waits for it. -/
def contendedShard : List (Event (Fin 2) (Job oneShard)) :=
  [.start ⟨0, Nat.two_pos⟩ (.command ⟨.get, [[0x6b]]⟩ {}),
    .start ⟨1, Nat.one_lt_two⟩ (.command ⟨.set, [[0x6b], [0x76]]⟩ {}),
    .step ⟨0, Nat.two_pos⟩, .step ⟨1, Nat.one_lt_two⟩]

theorem no_deadlock_contended :
    ∃ threads, run (next (Job.locks true)) (fun _ ↦ {}) contendedShard = some threads ∧
      WaitsOn threads Finset.univ 1 ∧ ∃ k, (threads k).todo ≠ [] ∧
        ¬ WaitsOn threads Finset.univ k ∧ (next (Job.locks true) threads (.step k)).isSome :=
  ⟨_, rfl, ⟨.shard (oneShard.shardIndex [0x6b]), rfl, 0, Finset.mem_univ 0, by decide⟩,
    (no_deadlock true contendedShard _ rfl).2 ⟨0, by decide⟩⟩

end ByteCacheDB
