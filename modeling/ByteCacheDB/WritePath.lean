import ByteCacheDB.KeyLimit
import ByteCacheDB.Session

/-!
# The write path under concurrency

Any number of threads execute commands.  Those that change the store, and `SAVE`, run
one at a time: their thread owns `write_path_mutex_` from the first step of the handler
to the last record in the log.  All the other commands, and the sweeps, take the locks
of the engine alone, so their steps fall between any two steps of the writer, also
between two shards that an eviction scans.
-/

namespace ByteCacheDB

open CommandParser StorageEngine AppendOnlyFile Runs Threads

/-- Calls that commands outside the write path make. -/
def EngineCall.reads : EngineCall → Bool
  | .get _ | .exists _ | .strlen _ | .ttl _ | .keys | .size | .cleanupExpired => true
  | _ => false

/-- Whether the handler logs a mutation that has returned this result. -/
def EngineCall.logs (call : EngineCall) (result : EngineResult) : Bool :=
  match call, result with
  | .del _, .count removed => decide (0 < removed)
  | .expireAt _ _, .flag updated => updated
  | .persist _, .flag updated => updated
  | .increment _ _, .integer (.error _) => false
  | _, _ => true

namespace Command

/-- Commands that own `write_path_mutex_` when the log is enabled. -/
def Gated (command : Command) : Prop := command.type = .save ∨ isMutating command.type = true

instance (command : Command) : Decidable command.Gated := inferInstanceAs (Decidable (_ ∨ _))

/-- The calls of a command outside the write path.  The memory estimate of `INFO`
reads the entries and changes nothing. -/
def readCalls (command : Command) : List EngineCall :=
  match command.type with
  | .get => [.get (command.arg 0)]
  | .mget => command.args.map .get
  | .exists => [.exists (command.arg 0)]
  | .strlen => [.strlen (command.arg 0)]
  | .ttl => [.ttl (command.arg 0)]
  | .keys => [.keys]
  | .info => [.size]
  | _ => []

/-- The call of a mutating command and the command that goes into the log; `EXPIRE`
reads the clock for its deadline.  An argument that is no number ends the command. -/
def mutation (command : Command) (now : TimePoint) : Option (EngineCall × Command) :=
  let key := command.arg 0
  match command.type with
  | .set => some (.set key (command.arg 1), command)
  | .mset => some (.mset command.args, command)
  | .del => some (.del key, command)
  | .persist => some (.persist key, command)
  | .flush => some (.flush, command)
  | .incr => some (.increment key 1, command)
  | .decr => some (.increment key (-1), command)
  | .append => some (.append key (command.arg 1), command)
  | .expire =>
      match parseInt64 (command.arg 1) with
      | none => none
      | some seconds =>
          if seconds < 0 then none
          else
            let expiresAt := addSeconds now seconds
            some (.expireAt key expiresAt, expireAtLogCommand key expiresAt)
  | .expireat =>
      match parseInt64 (command.arg 1) with
      | none => none
      | some millis => some (.expireAt key (fromEpochMillis millis), command)
  | _ => none

end Command

/-! ## The calls are those of the handler -/

section
variable {S : Sharding}

/-- The clock reading of the engine in a mutating command. -/
def Command.engineReading (command : Command) : ℕ := if command.type = .expire then 1 else 0

/-- The handler makes the call of the mutation and logs what `logs` says. -/
theorem execute_of_mutation (v : Server S) (env : Environment) {command log : Command}
    {call : EngineCall} (h : command.mutation (env.clock 0).1 = some (call, log)) :
    let result := v.storage.call ⟨call, fun _ ↦ (env.clock command.engineReading).1⟩
    (v.execute env command).2 = v.withStorage result.2 ∧
      (v.execute env command).1.shouldLog = call.logs result.1 ∧
      (call.logs result.1 = true → (v.execute env command).1.logCommand = log) := by
  obtain ⟨type, args⟩ := command
  cases type with
  | incr | decr =>
      simp only [Command.mutation, Option.some.injEq, Prod.mk.injEq] at h
      obtain ⟨rfl, rfl⟩ := h
      simp only [Server.execute, Server.executeIncrement, StorageEngine.call,
        Command.engineReading]
      split
      · rename_i hresult
        simp [EngineCall.logs, hresult]
      · rename_i hresult
        simp [EngineCall.logs, hresult]
  | expire =>
      simp only [Command.mutation] at h
      split at h
      · simp at h
      · rename_i seconds hparse
        simp only [Option.ite_none_left_eq_some, Option.some.injEq, Prod.mk.injEq] at h
        obtain ⟨hneg, rfl, rfl⟩ := h
        simp only [Server.execute, hparse, if_neg hneg]
        exact ⟨rfl, rfl, fun _ ↦ trivial⟩
  | expireat =>
      simp only [Command.mutation] at h
      split at h
      · simp at h
      · rename_i millis hparse
        simp only [Option.some.injEq, Prod.mk.injEq] at h
        obtain ⟨rfl, rfl⟩ := h
        simp only [Server.execute, hparse]
        exact ⟨rfl, rfl, fun _ ↦ trivial⟩
  | set | mset | del | persist | flush | append =>
      simp only [Command.mutation, Option.some.injEq, Prod.mk.injEq] at h
      obtain ⟨rfl, rfl⟩ := h
      exact ⟨rfl, rfl, fun _ ↦ rfl⟩
  | _ => simp [Command.mutation] at h

/-- A command without a mutation is refused. -/
theorem execute_of_mutation_eq_none (v : Server S) (env : Environment) {command : Command}
    (hgated : command.Gated) (hsave : command.type ≠ .save)
    (h : command.mutation (env.clock 0).1 = none) :
    (v.execute env command).2 = v ∧ (v.execute env command).1.shouldLog = false := by
  obtain ⟨type, args⟩ := command
  cases type with
  | expire =>
      simp only [Command.mutation] at h
      split at h
      · rename_i hparse
        simp [Server.execute, hparse]
      · rename_i seconds hparse
        have hneg : seconds < 0 := by simpa using h
        simp [Server.execute, hparse, hneg]
  | expireat =>
      simp only [Command.mutation] at h
      split at h
      · rename_i hparse
        simp [Server.execute, hparse]
      · simp at h
  | set | mset | del | persist | flush | append | incr | decr => simp [Command.mutation] at h
  | save => exact absurd rfl hsave
  | _ => simp [Command.Gated, isMutating] at hgated

theorem snd_mget (s : StorageEngine S) (keys : List (Bytes × TimePoint)) :
    (s.mget keys).2 = keys.foldl (fun s p ↦ (s.get p.2 p.1).2) s := by
  induction keys generalizing s with
  | nil => rfl
  | cons p rest ih => exact ih (s.get p.2 p.1).2

/-- A command outside the write path makes its calls, each with its own clock reading,
and logs nothing. -/
theorem execute_of_readCalls (v : Server S) (env : Environment) {command : Command}
    (hread : ¬command.Gated) :
    (v.execute env command).1.shouldLog = false ∧
      (v.execute env command).2 = v.withStorage ((command.readCalls.mapIdx fun i call ↦
        (⟨call, fun _ ↦ (env.clock i).1⟩ : EngineEvent)).foldl
          (fun s e ↦ (s.call e).2) v.storage) := by
  obtain ⟨type, args⟩ := command
  cases type with
  | get | «exists» | strlen | ttl | keys | info | ping | unknown => exact ⟨rfl, rfl⟩
  | mget =>
      refine ⟨rfl, ?_⟩
      simp only [Server.execute, snd_mget, Command.readCalls]
      congr 1
      simp [List.mapIdx_eq_zipIdx_map, List.zipIdx_map, List.foldl_map, StorageEngine.call]
  | _ => simp [Command.Gated, isMutating] at hread

end

/-! ## Threads -/

/-- Where the owner of `write_path_mutex_` stands. -/
inductive WriteStage (S : Sharding)
  | holding (command : Command)
  /-- before the engine is called -/
  | prepared (call : EngineCall) (log : Command)
  | calling (call : EngineCall) (log : Command)
  /-- before the record of the command is appended -/
  | logging (log : Command)
  /-- before `take_evicted_keys` -/
  | draining
  | appending (keys : List Bytes)
  /-- in `snapshot_entries`, before the shards are locked -/
  | snapshotting (now : Instant)
  /-- the entries are copied, the file is to be written -/
  | saving (storage : StorageEngine S) (now : Instant)

structure SharedServer (S : Sharding) (κ : Type*) where
  engine : ConcurrentEngine S κ
  /-- the calls that a thread outside the write path has still to make -/
  reading : κ → List EngineCall := fun _ ↦ []
  writer : Option (κ × WriteStage S) := none
  persistence : AppendOnlyFile
  disk : Disk
  /-- the latest clock reading -/
  now : Instant

inductive ServerEvent (κ : Type*)
  | read (k : κ) (command : Command)
  | sweep (k : κ)
  | write (k : κ) (command : Command)
  /-- a thread outside the write path makes its next call -/
  | call (k : κ) (now : Instant)
  /-- a thread makes a step in the engine -/
  | step (k : κ)
  /-- the handler of the writer decides what to do -/
  | prepare (now : Instant)
  /-- the writer calls the engine -/
  | mutate (now : Instant)
  /-- the writer goes on behind a call of the engine, or releases the mutex -/
  | finish
  | append (o : WriteOutcome)
  | save (o : SaveOutcome)

namespace SharedServer

variable {S : Sharding} {κ : Type*} [Fintype κ] [DecidableEq κ]

def initial (S : Sharding) (κ : Type*) (policy : FsyncPolicy) (path : Bool) (maxKeys : UInt64) :
    SharedServer S κ where
  engine := { engine := { maxKeys := maxKeys } }
  persistence := ⟨true, policy, path, true, false, 0⟩
  disk := { aof := some [] }
  now := ⟨0, epoch_nonneg⟩

/-- The thread is not in a command. -/
def Free (m : SharedServer S κ) (k : κ) : Prop :=
  m.reading k = [] ∧ m.engine.pcs k = .idle ∧ m.writer.map Prod.fst ≠ some k

omit [Fintype κ] in
instance (m : SharedServer S κ) (k : κ) : Decidable (m.Free k) :=
  inferInstanceAs (Decidable (_ ∧ _ ∧ _))

/-- An append that succeeds. -/
def record (m : SharedServer S κ) (o : WriteOutcome) (command : Command)
    (next : κ × WriteStage S) : Option (SharedServer S κ) :=
  match m.persistence.append m.disk o command with
  | (.ok (), persistence, disk) =>
      some { m with persistence := persistence, disk := disk, writer := some next }
  | (.error _, _, _) => none

def step (m : SharedServer S κ) : ServerEvent κ → Option (SharedServer S κ)
  | .read k command =>
      if m.Free k ∧ Admissible command ∧ ¬command.Gated then
        some { m with reading := Function.update m.reading k command.readCalls }
      else none
  | .sweep k =>
      if m.Free k then
        some { m with reading := Function.update m.reading k [.cleanupExpired] }
      else none
  | .write k command =>
      match m.writer with
      | none =>
          if m.Free k ∧ Admissible command ∧ command.Gated then
            some { m with writer := some (k, .holding command) }
          else none
      | some _ => none
  | .call k now =>
      match m.reading k with
      | [] => none
      | call :: rest =>
          if m.now.1 ≤ now.1 then
            (m.engine.step (.call k call now.1)).map fun engine ↦
              { m with engine := engine, reading := Function.update m.reading k rest, now := now }
          else none
  | .step k => (m.engine.step (.step k)).map fun engine ↦ { m with engine := engine }
  | .prepare now =>
      match m.writer with
      | some (k, .holding command) =>
          if m.now.1 ≤ now.1 then
            some { m with
              now := now
              writer :=
                if command.type = .save then some (k, .snapshotting now)
                else (command.mutation now.1).map fun p ↦ (k, .prepared p.1 p.2) }
          else none
      | _ => none
  | .mutate now =>
      match m.writer with
      | some (k, .prepared call log) =>
          if m.now.1 ≤ now.1 then
            (m.engine.step (.call k call now.1)).map fun engine ↦
              { m with engine := engine, writer := some (k, .calling call log), now := now }
          else none
      | _ => none
  | .finish =>
      match m.writer with
      | some (k, .calling call log) =>
          if m.engine.pcs k = .idle then
            some { m with
              writer := if call.logs (m.engine.answers k) then some (k, .logging log) else none }
          else none
      | some (k, .draining) =>
          let evicted := m.engine.engine.takeEvictedKeys
          some { m with
            engine := { m.engine with engine := evicted.2 }
            writer := some (k, .appending evicted.1) }
      | some (_, .appending []) => some { m with writer := none }
      | some (k, .snapshotting now) =>
          if m.engine.Unlocked (List.finRange S.count) then
            some { m with writer := some (k, .saving m.engine.engine now) }
          else none
      | _ => none
  | .append o =>
      match m.writer with
      | some (k, .logging log) => m.record o log (k, .draining)
      | some (k, .appending (key :: rest)) => m.record o (evictionCommand key) (k, .appending rest)
      | _ => none
  | .save o =>
      match m.writer with
      | some (_, .saving storage now) =>
          some { m with
            disk := (m.persistence.saveSnapshot m.disk storage now.1 o).2
            writer := none }
      | _ => none

/-- The engine of a new process that recovers from the files at time `t`. -/
def recovered (m : SharedServer S κ) (t : TimePoint) : Option (StorageEngine S) :=
  (m.persistence.fresh.recover m.disk { maxKeys := m.engine.engine.maxKeys } t).toOption.map
    Prod.snd

end SharedServer

/-! ## The section of a mutating call -/

/-- What the section of a call does to the store, and the record that describes it:
nothing but expired entries disappears when there is nothing to log. -/
structure RecordedBy (S : Sharding) (call : EngineCall) (log : Command) : Prop where
  sectioned : call.sectioned = true
  admissible : Admissible log
  loggable : log.Loggable
  pending : ∀ (s : StorageEngine S) now,
    (s.beforeEviction ⟨call, fun _ ↦ now⟩).2.2.pendingEvictedKeys = s.pendingEvictedKeys
  refused : ∀ (s : StorageEngine S) now,
    call.logs (s.beforeEviction ⟨call, fun _ ↦ now⟩).1 = false →
      (s.beforeEviction ⟨call, fun _ ↦ now⟩).2.1 = false ∧
        Lapses now s (s.beforeEviction ⟨call, fun _ ↦ now⟩).2.2
  acts : ∀ (s : StorageEngine S) now,
    call.logs (s.beforeEviction ⟨call, fun _ ↦ now⟩).1 = true →
      ∃ ops, (∀ key, CellOp.LoggedAs (ops key) (log.op key)) ∧
        (∀ key d, ops key = .expireAt d → call = .expireAt key d) ∧
        Store.Acts now ops s.cells (s.beforeEviction ⟨call, fun _ ↦ now⟩).2.2.cells

section
variable {S : Sharding} {call : EngineCall} {log : Command}

theorem pending_beforeEviction (hcall : call.sectioned = true) (hne : call ≠ .takeEvictedKeys)
    (s : StorageEngine S) (now : TimePoint) :
    (s.beforeEviction ⟨call, fun _ ↦ now⟩).2.2.pendingEvictedKeys = s.pendingEvictedKeys := by
  rcases keeps_beforeEviction (s := s) ⟨call, fun _ ↦ now⟩ with
    hkeeps | rfl | rfl | ⟨n, rfl⟩ | ⟨b, rfl⟩
  · exact hkeeps.pending
  · rfl
  · exact absurd rfl hne
  · simp [EngineCall.sectioned] at hcall
  · simp [EngineCall.sectioned] at hcall

/-- A call that is always logged. -/
theorem recordedBy_always (hcall : call.sectioned = true) (hne : call ≠ .takeEvictedKeys)
    (hadm : Admissible log) (hlog : log.Loggable) (hlogs : ∀ r, call.logs r = true)
    (hdeadline : ∀ key d, log.op key ≠ .expireAt d)
    (hacts : ∀ (s : StorageEngine S) now,
      Store.Acts now log.op s.cells (s.beforeEviction ⟨call, fun _ ↦ now⟩).2.2.cells) :
    RecordedBy S call log where
  sectioned := hcall
  admissible := hadm
  loggable := hlog
  pending := pending_beforeEviction hcall hne
  refused s now hrefused := by simp [hlogs] at hrefused
  acts s now _ := ⟨log.op, fun _ ↦ .refl _, fun key d hd ↦ absurd hd (hdeadline key d), hacts s now⟩

theorem recordedBy_increment {delta : Int64} (hadm : Admissible log) (hlog : log.Loggable)
    (hop : log.op = onlyOn (log.arg 0) (.increment delta)) :
    RecordedBy S (.increment (log.arg 0) delta) log where
  sectioned := rfl
  admissible := hadm
  loggable := hlog
  pending := pending_beforeEviction rfl (by simp)
  refused s now hrefused := by
    rw [snd_beforeEviction_increment]
    cases hnext : (s.cells (log.arg 0)).nextInteger now delta with
    | error e =>
        rw [incrementLocked_error hnext]
        refine ⟨by simp [beforeEviction, incrementLocked_error hnext], ?_⟩
        exact lapses_of_update _ (keeps_dropExpired s now _) (cells_dropExpired s now _)
    | ok next =>
        have hresult := (incrementLocked_ok hnext).1
        rcases hinc : s.incrementLocked now (log.arg 0) delta with ⟨_ | ⟨n, inserted⟩, s'⟩
        · simp [hinc] at hresult
        · simp [beforeEviction, hinc, EngineCall.logs] at hrefused
  acts s now hlogged := by
    rw [snd_beforeEviction_increment]
    cases hnext : (s.cells (log.arg 0)).nextInteger now delta with
    | error e => simp [beforeEviction, incrementLocked_error hnext, EngineCall.logs] at hlogged
    | ok next =>
        refine ⟨log.op, fun _ ↦ .refl _, fun key d hd ↦ ?_, ?_⟩
        · rw [hop] at hd
          simp only [onlyOn] at hd
          split at hd <;> simp at hd
        · rw [(incrementLocked_ok hnext).2, hop]
          apply acts_onlyOn
          simp [CellOp.apply, hnext, Except.toOption]

theorem recordedBy_expireAt {key : Bytes} {deadline : TimePoint} (hadm : Admissible log)
    (hlog : log.Loggable)
    (hops : ∀ k, (onlyOn key (.expireAt deadline) k).LoggedAs (log.op k)) :
    RecordedBy S (.expireAt key deadline) log where
  sectioned := rfl
  admissible := hadm
  loggable := hlog
  pending := pending_beforeEviction rfl (by simp)
  refused s now hrefused := ⟨rfl, lapses_expireAt hrefused⟩
  acts s now _ := by
    refine ⟨_, hops, fun k d hd ↦ ?_, ?_⟩
    · simp only [onlyOn] at hd
      split at hd
      · rename_i hk
        rw [hk, CellOp.expireAt.inj hd]
      · simp at hd
    · change Store.Acts now _ s.cells (s.expireAt now key deadline).2.cells
      rw [cells_expireAt]
      exact acts_onlyOn rfl

theorem recordedBy_of_mutation {command : Command} {now : TimePoint} (hadm : Admissible command)
    (h : command.mutation now = some (call, log)) : RecordedBy S call log := by
  obtain ⟨type, args⟩ := command
  cases type with
  | set =>
      simp only [Command.mutation, Option.some.injEq, Prod.mk.injEq] at h
      obtain ⟨rfl, rfl⟩ := h
      refine recordedBy_always rfl (by simp) hadm trivial (fun _ ↦ rfl) ?_ fun s now ↦ ?_
      · intro key d
        simp only [Command.op, Command.keyOp]
        split <;> simp
      · simp only [beforeEviction]
        rw [cells_store]
        exact acts_onlyOn rfl
  | mset =>
      simp only [Command.mutation, Option.some.injEq, Prod.mk.injEq] at h
      obtain ⟨rfl, rfl⟩ := h
      refine recordedBy_always rfl (by simp) hadm trivial (fun _ ↦ rfl) ?_ fun s now ↦ ?_
      · intro key d
        simp only [Command.op]
        split <;> simp
      · simp only [beforeEviction]
        rw [cells_storeAll, storePairs_cells]
        intro key
        simp only [Command.op, Command.storePairs_eq]
        cases Command.lastValue (argPairs args) key <;> rfl
  | flush =>
      simp only [Command.mutation, Option.some.injEq, Prod.mk.injEq] at h
      obtain ⟨rfl, rfl⟩ := h
      exact recordedBy_always rfl (by simp) hadm trivial (fun _ ↦ rfl)
        (fun key d ↦ by simp [Command.op]) fun s now _ ↦ rfl
  | append =>
      simp only [Command.mutation, Option.some.injEq, Prod.mk.injEq] at h
      obtain ⟨rfl, rfl⟩ := h
      refine recordedBy_always rfl (by simp) hadm trivial (fun _ ↦ rfl) ?_ fun s now ↦ ?_
      · intro key d
        simp only [Command.op, Command.keyOp]
        split <;> simp
      · simp only [beforeEviction]
        rw [(cells_appendLocked s now _ _).1]
        exact acts_onlyOn rfl
  | del =>
      simp only [Command.mutation, Option.some.injEq, Prod.mk.injEq] at h
      obtain ⟨rfl, rfl⟩ := h
      refine ⟨rfl, hadm, trivial, pending_beforeEviction rfl (by simp), fun s now hrefused ↦ ?_,
        fun s now _ ↦ ⟨_, fun _ ↦ .refl _, fun key d hd ↦ ?_, ?_⟩⟩
      · refine ⟨rfl, lapses_del ?_⟩
        simpa [beforeEviction, StorageEngine.call, EngineCall.logs] using hrefused
      · simp only [Command.op, Command.keyOp] at hd
        split at hd <;> simp at hd
      · change Store.Acts now _ s.cells (s.del _).2.cells
        rw [cells_del]
        exact acts_onlyOn rfl
  | persist =>
      simp only [Command.mutation, Option.some.injEq, Prod.mk.injEq] at h
      obtain ⟨rfl, rfl⟩ := h
      refine ⟨rfl, hadm, trivial, pending_beforeEviction rfl (by simp), fun s now hrefused ↦ ?_,
        fun s now _ ↦ ⟨_, fun _ ↦ .refl _, fun key d hd ↦ ?_, ?_⟩⟩
      · exact ⟨rfl, lapses_persist hrefused⟩
      · simp only [Command.op, Command.keyOp] at hd
        split at hd <;> simp at hd
      · change Store.Acts now _ s.cells (s.persist now _).2.cells
        rw [cells_persist]
        exact acts_onlyOn rfl
  | incr =>
      simp only [Command.mutation, Option.some.injEq, Prod.mk.injEq] at h
      obtain ⟨rfl, rfl⟩ := h
      exact recordedBy_increment hadm trivial rfl
  | decr =>
      simp only [Command.mutation, Option.some.injEq, Prod.mk.injEq] at h
      obtain ⟨rfl, rfl⟩ := h
      exact recordedBy_increment hadm trivial rfl
  | expire =>
      simp only [Command.mutation] at h
      split at h
      · simp at h
      · simp only [Option.ite_none_left_eq_some, Option.some.injEq, Prod.mk.injEq] at h
        obtain ⟨-, rfl, rfl⟩ := h
        exact recordedBy_expireAt (admissible_expireAtLogCommand _ _)
          (loggable_expireAtLogCommand _ _) (loggedAs_expireAtLogCommand _ _)
  | expireat =>
      simp only [Command.mutation] at h
      split at h
      · simp at h
      · rename_i millis hparse
        simp only [Option.some.injEq, Prod.mk.injEq] at h
        obtain ⟨rfl, rfl⟩ := h
        have hstoll := parseInt64_eq_some hparse
        refine recordedBy_expireAt hadm (by simp [Command.Loggable, hstoll, Except.toBool])
          fun k ↦ Or.inl ?_
        simp only [Command.op, Command.keyOp, hstoll, onlyOn]
  | _ => simp [Command.mutation] at h

end

/-! ## Readers -/

/-- Nothing of the store expires up to time `t`. -/
def Store.LiveUntil (t : TimePoint) (m : Store) : Prop := ∀ now ≤ t, ∀ key, (m key).live now = m key

/-- Where a thread outside the write path can stand when nothing has expired. -/
def EnginePc.Reads {S : Sharding} (t : TimePoint) : EnginePc S → Prop
  | .idle | .sizing => True
  | .entering call now => call.reads = true ∧ call.sectioned = true ∧ now ≤ t
  | .counting _ counts enforce => counts = [] ∧ enforce = false
  | .sweeping now _ removed _ => now ≤ t ∧ removed = 0
  | _ => False

section
variable {S : Sharding} {κ : Type*} {t now : TimePoint} {s s' : StorageEngine S}

theorem EnginePc.Reads.owed_eq {pc : EnginePc S} (h : pc.Reads t) : pc.owed = 0 := by
  cases pc with
  | counting held counts enforce => simp [owed, h.1]
  | sweeping now rest removed sized => simp [owed, h.2]
  | struck key => exact absurd h id
  | _ => rfl

theorem EnginePc.Reads.removed_eq {pc : EnginePc S} (h : pc.Reads t) : pc.removed = 0 := by
  cases pc with
  | sweeping now rest removed sized => exact h.2
  | _ => rfl

theorem EnginePc.Reads.watching_eq {pc : EnginePc S} (h : pc.Reads t) : pc.watching = false := by
  cases pc with
  | counting held counts enforce => exact h.2
  | idle | entering | sweeping | sizing => rfl
  | _ => exact absurd h id

theorem reads_begin {call : EngineCall} {pc : EnginePc S} (hreads : call.reads = true)
    (hnow : now ≤ t) (h : ConcurrentEngine.begin call now = some pc) : pc.Reads t := by
  unfold ConcurrentEngine.begin at h
  split at h
  · obtain rfl := Option.some.inj h
    exact ⟨hnow, rfl⟩
  · obtain rfl := Option.some.inj h
    exact ⟨hnow, rfl⟩
  · rw [Option.ite_none_right_eq_some] at h
    obtain rfl := Option.some.inj h.2
    exact ⟨hreads, h.1, hnow⟩

/-- A store in which nothing expires loses nothing. -/
theorem Store.LiveUntil.cells_eq (h : s.cells.LiveUntil t) (hnow : now ≤ t)
    (hlapses : Lapses now s s') : s'.cells = s.cells := by
  funext key
  rcases hlapses.cells key with hsame | ⟨hnone, hgone⟩
  · exact hsame
  · rw [hnone, ← hgone, h now hnow key]

theorem Store.LiveUntil.isExpired_eq (h : s.cells.LiveUntil t) (hnow : now ≤ t) {key : Bytes}
    {entry : ValueEntry} (hfind : s.shards.find? key = some entry) :
    isExpired entry now = false := by
  have hlive : (s.cells key).live now = if isExpired entry now then none else s.cells key :=
    live_cells_of_isExpired hfind
  rw [h now hnow key] at hlive
  by_contra hexp
  simp [Bool.not_eq_false _ ▸ hexp, cells_of_find? hfind] at hlive

theorem Store.LiveUntil.dropCounts_eq (h : s.cells.LiveUntil t) (hnow : now ≤ t) (key : Bytes) :
    s.dropCounts now key = [] := by
  cases hfind : s.shards.find? key with
  | none => simp [dropCounts, hfind]
  | some entry => simp [dropCounts, hfind, h.isExpired_eq hnow hfind]

/-- The section of a reading call. -/
theorem section_of_reads {call : EngineCall} (hreads : call.reads = true)
    (hcall : call.sectioned = true) (h : s.cells.LiveUntil t) (hnow : now ≤ t) :
    s.counts now call = [] ∧ (s.beforeEviction ⟨call, fun _ ↦ now⟩).2.1 = false ∧
      (s.beforeEviction ⟨call, fun _ ↦ now⟩).2.2.cells = s.cells := by
  cases call with
  | get key | «exists» key | strlen key =>
      exact ⟨h.dropCounts_eq hnow key, rfl, h.cells_eq hnow (lapses_get s now key)⟩
  | ttl key =>
      exact ⟨h.dropCounts_eq hnow key, rfl, h.cells_eq hnow
        (lapses_of_update key (keeps_ttl s now key) (cells_ttl s now key))⟩
  | keys => exact ⟨rfl, rfl, rfl⟩
  | size | cleanupExpired => simp [EngineCall.sectioned] at hcall
  | _ => simp [EngineCall.reads] at hreads

theorem cells_enter (s : StorageEngine S) (call : EngineCall) (now : TimePoint) :
    (ConcurrentEngine.enter s call now).cells =
      (s.beforeEviction ⟨call, fun _ ↦ now⟩).2.2.cells := by
  cases call <;> rfl

theorem pending_enter (s : StorageEngine S) (call : EngineCall) (now : TimePoint) :
    (ConcurrentEngine.enter s call now).pendingEvictedKeys =
      (s.beforeEviction ⟨call, fun _ ↦ now⟩).2.2.pendingEvictedKeys := by
  cases call <;> rfl

/-- The sweep of one shard in which nothing has expired. -/
theorem cleanupExpiredLocked_of_live (h : s.cells.LiveUntil t) (hnow : now ≤ t)
    (index : Fin S.count) : (s.cleanupExpiredLocked now index).1 = 0 ∧
      (s.cleanupExpiredLocked now index).2.cells = s.cells := by
  have hcells : (s.cleanupExpiredLocked now index).2.cells = s.cells := by
    funext key
    have hfind : (s.cleanupExpiredLocked now index).2.shards.find? key = s.shards.find? key := by
      rw [find?_cleanupExpiredLocked]
      cases hentry : s.shards.find? key with
      | none => simp
      | some entry => simp [h.isExpired_eq hnow hentry]
    rw [cells, cells, hfind]
  have hsize := size_cleanupExpiredLocked s now index
  have hsame := size_eq_of_cells hcells
  exact ⟨by omega, hcells⟩

/-- A step outside the write path changes no cell. -/
theorem reads_advances {m : ConcurrentEngine S κ} {pc pc' : EnginePc S} (hpc : pc.Reads t)
    (hlive : m.engine.cells.LiveUntil t) (h : ConcurrentEngine.Advances m pc s' pc') :
    pc'.Reads t ∧ s'.cells = m.engine.cells ∧
      s'.pendingEvictedKeys = m.engine.pendingEvictedKeys := by
  cases h with
  | @enter call now hfree =>
      obtain ⟨hreads, hcall, hnow⟩ := hpc
      obtain ⟨hcounts, henforce, hcells⟩ := section_of_reads hreads hcall hlive hnow
      refine ⟨⟨hcounts, henforce⟩, (cells_enter _ _ _).trans hcells, ?_⟩
      rw [pending_enter]
      refine pending_beforeEviction hcall ?_ _ _
      rintro rfl
      simp [EngineCall.reads] at hreads
  | count => simp [EnginePc.Reads] at hpc
  | release => exact ⟨trivial, rfl, rfl⟩
  | enforce => simp [EnginePc.Reads] at hpc
  | @sweep now i rest removed sized hfree =>
      obtain ⟨hzero, hcells⟩ := cleanupExpiredLocked_of_live hlive hpc.1 i
      exact ⟨⟨hpc.1, by rw [hzero, hpc.2]⟩, hcells, rfl⟩
  | settle => exact ⟨by split <;> trivial, rfl, rfl⟩
  | size => exact ⟨trivial, rfl, rfl⟩
  | _ => exact absurd hpc id

/-! ## The writer -/

/-- Where the writer stands behind the section of a call that it logs. -/
def EnginePc.Works {S : Sharding} : EnginePc S → Prop
  | .entering _ _ | .sweeping _ _ _ _ | .sizing => False
  | _ => True

/-- A step of the writer behind its section changes no cell, or evicts a key. -/
theorem works_advances {m : ConcurrentEngine S κ} {pc pc' : EnginePc S} (hpc : pc.Works)
    (h : ConcurrentEngine.Advances m pc s' pc') :
    pc'.Works ∧ (s'.cells = m.engine.cells ∧
        s'.pendingEvictedKeys = m.engine.pendingEvictedKeys ∨
      ∃ key, s'.cells = Function.update m.engine.cells key none ∧
        s'.pendingEvictedKeys = m.engine.pendingEvictedKeys ++ [key]) := by
  cases h with
  | enter | sweep | settle | size => exact absurd hpc id
  | @strike key entry hfree hfind =>
      rw [evict_eq hfind]
      exact ⟨trivial, Or.inr ⟨key, cells_erase m.engine key, rfl⟩⟩
  | _ => exact ⟨trivial, Or.inl ⟨rfl, rfl⟩⟩

/-- Where the writer stands behind the section of a call that it does not log. -/
def EnginePc.Retires {S : Sharding} : EnginePc S → Prop
  | .idle => True
  | .counting _ _ enforce => enforce = false
  | _ => False

theorem EnginePc.Retires.watching_eq {pc : EnginePc S} (h : pc.Retires) : pc.watching = false := by
  cases pc with
  | idle => rfl
  | counting => exact h
  | _ => exact absurd h id

theorem EnginePc.Works.removed_eq {pc : EnginePc S} (h : pc.Works) : pc.removed = 0 := by
  cases pc with
  | sweeping => exact absurd h id
  | _ => rfl

theorem EnginePc.Retires.works {pc : EnginePc S} (h : pc.Retires) : pc.Works := by
  cases pc with
  | entering | sweeping | sizing => exact absurd h id
  | _ => trivial

theorem retires_advances {m : ConcurrentEngine S κ} {pc pc' : EnginePc S} (hpc : pc.Retires)
    (h : ConcurrentEngine.Advances m pc s' pc') :
    pc'.Retires ∧ s'.cells = m.engine.cells ∧
      s'.pendingEvictedKeys = m.engine.pendingEvictedKeys := by
  cases h with
  | count => exact ⟨hpc, rfl, rfl⟩
  | release => exact ⟨trivial, rfl, rfl⟩
  | enforce => simp [EnginePc.Retires] at hpc
  | _ => exact absurd hpc id

/-- The shards behind a scan without a victim are empty. -/
def EnginePc.Scanned (s : StorageEngine S) (pc : EnginePc S) : Prop :=
  ∀ rest, pc = .scanning rest none →
    ∀ key, S.shardIndex key ∉ rest → s.shards.find? key = none

theorem EnginePc.Scanned.of_cells {pc : EnginePc S} (h : pc.Scanned s)
    (hcells : s'.cells = s.cells) : pc.Scanned s' := by
  intro rest hpc key hkey
  rw [← cells_eq_none_iff, hcells, cells_eq_none_iff]
  exact h rest hpc key hkey

theorem EnginePc.Scanned.advances {m : ConcurrentEngine S κ} {pc pc' : EnginePc S}
    (hpc : pc.Scanned m.engine) (h : ConcurrentEngine.Advances m pc s' pc') : pc'.Scanned s' := by
  intro rest hpc' key hkey
  obtain ⟨rfl, rfl | ⟨i, rfl, hempty⟩⟩ := ConcurrentEngine.scanned_advances h hpc'
  · exact absurd (List.mem_finRange _) hkey
  · by_cases hi : S.shardIndex key = i
    · exact hempty key hi
    · exact hpc (i :: rest) rfl key (by simp [hi, hkey])

end

/-! ## Steps in the engine -/

namespace ConcurrentEngine

variable {S : Sharding} {κ : Type*} [Fintype κ] {m m' : ConcurrentEngine S κ} {k j : κ}

theorem answer_of_works {pc : EnginePc S} (hpc : pc.Works)
    {r : StorageEngine S × EnginePc S × Option EngineResult} (h : m.advance pc = some r) :
    r.2.2 = none := by
  cases pc with
  | entering | sweeping | sizing => exact absurd hpc id
  | idle => simp [advance] at h
  | counting held counts enforce =>
      cases counts with
      | nil => exact (Option.some.inj h) ▸ rfl
      | cons c cs => exact (Option.some.inj h) ▸ rfl
  | scanning rest victim =>
      cases rest with
      | nil => cases victim <;> exact (Option.some.inj h) ▸ rfl
      | cons i rest =>
          simp only [advance, Option.ite_none_right_eq_some, Option.some.injEq] at h
          rw [← h.2]
  | limiting | waiting | evicting | striking | struck =>
      simp only [advance] at h
      repeat' split at h
      all_goals simp at h
      all_goals rw [← h]

variable [DecidableEq κ]

/-- A step of thread `k` leaves the other threads and their results alone. -/
theorem step_other (h : m.step (.step k) = some m') (hj : j ≠ k) :
    m'.pcs j = m.pcs j ∧ m'.answers j = m.answers j := by
  obtain ⟨r, -, rfl⟩ := Option.map_eq_some_iff.mp h
  refine ⟨Function.update_of_ne hj _ _, ?_⟩
  dsimp only
  split
  · exact Function.update_of_ne hj _ _
  · rfl

theorem step_self (h : m.step (.step k) = some m') :
    Advances m (m.pcs k) m'.engine (m'.pcs k) := by
  obtain ⟨r, hadvance, rfl⟩ := Option.map_eq_some_iff.mp h
  dsimp only
  rw [Function.update_self]
  exact advances_of_advance hadvance

theorem answers_of_works (h : m.step (.step k) = some m') (hpc : (m.pcs k).Works) :
    m'.answers k = m.answers k := by
  obtain ⟨r, hadvance, rfl⟩ := Option.map_eq_some_iff.mp h
  dsimp only
  rw [answer_of_works hpc hadvance]

theorem answers_of_entering {call : EngineCall} {now : TimePoint}
    (h : m.step (.step k) = some m') (hpc : m.pcs k = .entering call now) :
    m'.answers k = (m.engine.beforeEviction ⟨call, fun _ ↦ now⟩).1 := by
  obtain ⟨r, hadvance, rfl⟩ := Option.map_eq_some_iff.mp h
  rw [hpc] at hadvance
  simp only [advance, Option.ite_none_right_eq_some, Option.some.injEq] at hadvance
  obtain ⟨-, rfl⟩ := hadvance
  exact Function.update_self _ _ _

theorem step_idle (h : m.step (.step k) = some m') : m.pcs k ≠ .idle := by
  intro hidle
  obtain ⟨r, hadvance, -⟩ := Option.map_eq_some_iff.mp h
  simp [hidle, advance] at hadvance

omit [Fintype κ] [DecidableEq κ] in
theorem begin_of_sectioned {call : EngineCall} {now : TimePoint} {pc : EnginePc S}
    (hcall : call.sectioned = true) (h : begin call now = some pc) : pc = .entering call now := by
  unfold begin at h
  split at h
  · simp [EngineCall.sectioned] at hcall
  · simp [EngineCall.sectioned] at hcall
  · rw [if_pos hcall] at h
    exact (Option.some.inj h).symm

/-- A thread begins a call. -/
theorem call_spec {call : EngineCall} {now : TimePoint} (h : m.step (.call k call now) = some m') :
    m.pcs k = .idle ∧ begin call now = some (m'.pcs k) ∧ m'.engine = m.engine ∧
      m'.answers = m.answers ∧ ∀ j, j ≠ k → m'.pcs j = m.pcs j := by
  simp only [step] at h
  split at h
  · rename_i hidle
    obtain ⟨pc, hbegin, rfl⟩ := Option.map_eq_some_iff.mp h
    refine ⟨hidle, ?_, rfl, rfl, fun j hj ↦ Function.update_of_ne hj _ _⟩
    dsimp only
    rw [Function.update_self]
    exact hbegin
  · simp at h

end ConcurrentEngine

/-! ## What the writer still owes the log -/

/-- The arithmetic that gives the deadline of `EXPIRE` and `EXPIREAT` does not
overflow. -/
def Command.DeadlineFits (command : Command) (now : TimePoint) : Prop :=
  match parseInt64 (command.arg 1) with
  | none => True
  | some n =>
      (command.type = .expire →
        (addSeconds now n).toInt = now.toInt + n.toInt * 1000000000) ∧
      (command.type = .expireat → (fromEpochMillis n).toInt = n.toInt * 1000000)

instance (command : Command) (now : TimePoint) : Decidable (command.DeadlineFits now) :=
  match h : parseInt64 (command.arg 1) with
  | none => isTrue (by simp [Command.DeadlineFits, h])
  | some n =>
      decidable_of_iff ((command.type = .expire →
          (addSeconds now n).toInt = now.toInt + n.toInt * 1000000000) ∧
        (command.type = .expireat → (fromEpochMillis n).toInt = n.toInt * 1000000))
        (by simp [Command.DeadlineFits, h])

theorem truncMillis_fromEpochMillis {millis : Int64}
    (h : (fromEpochMillis millis).toInt = millis.toInt * 1000000) :
    truncMillis (fromEpochMillis millis) = fromEpochMillis millis := by
  apply Int64.toInt_inj.mp
  rw [toInt_truncMillis, h, Int.mul_tdiv_cancel _ (by norm_num)]

theorem whole_expireAtLogCommand (key : Bytes) (deadline : TimePoint) :
    (expireAtLogCommand key deadline).Whole := by
  have hop : (expireAtLogCommand key deadline).keyOp = .expireAt (truncMillis deadline) := by
    simp only [Command.keyOp, expireAtLogCommand, Command.arg, List.getD_cons_succ,
      List.getD_cons_zero, stoll_toStringI64, truncMillis]
  rw [Command.Whole, hop]
  exact truncMillis_truncMillis deadline

theorem whole_expireat {args : List Bytes} {now : TimePoint} {millis : Int64}
    (hfits : Command.DeadlineFits ⟨.expireat, args⟩ now)
    (hparse : parseInt64 (Command.arg ⟨.expireat, args⟩ 1) = some millis) :
    Command.Whole ⟨.expireat, args⟩ := by
  have hop : Command.keyOp ⟨.expireat, args⟩ = .expireAt (fromEpochMillis millis) := by
    simp only [Command.keyOp, parseInt64_eq_some hparse]
  rw [Command.Whole, hop]
  rw [Command.DeadlineFits, hparse] at hfits
  exact truncMillis_fromEpochMillis (hfits.2 rfl)

theorem whole_of_mutation {command log : Command} {call : EngineCall} {now : TimePoint}
    (hfits : command.DeadlineFits now) (h : command.mutation now = some (call, log)) :
    log.Whole := by
  obtain ⟨type, args⟩ := command
  cases type with
  | expire =>
      simp only [Command.mutation] at h
      split at h
      · simp at h
      · simp only [Option.ite_none_left_eq_some, Option.some.injEq, Prod.mk.injEq] at h
        obtain ⟨-, -, rfl⟩ := h
        exact whole_expireAtLogCommand _ _
  | expireat =>
      simp only [Command.mutation] at h
      split at h
      · simp at h
      · rename_i millis hparse
        simp only [Option.some.injEq, Prod.mk.injEq] at h
        obtain ⟨-, rfl⟩ := h
        exact whole_expireat hfits hparse
  | set | mset | del | persist | flush | incr | decr | append =>
      simp only [Command.mutation, Option.some.injEq, Prod.mk.injEq] at h
      obtain ⟨-, rfl⟩ := h
      trivial
  | _ => simp [Command.mutation] at h

/-- The deadline that a call is about to set, and the clock reading it decides with. -/
def EnginePc.expiring? {S : Sharding} : EnginePc S → Option (Bytes × TimePoint × TimePoint)
  | .entering (.expireAt key deadline) now => some (key, deadline, now)
  | _ => none

namespace SharedServer

variable {S : Sharding} {κ : Type*}

abbrev cells (m : SharedServer S κ) : Store := m.engine.engine.cells

/-- Keys that are evicted and not yet taken. -/
abbrev pending (m : SharedServer S κ) : List Bytes := m.engine.engine.pendingEvictedKeys

/-- The records that the writer has to append for what it has done to the store. -/
inductive Owes (t : Instant) (m : SharedServer S κ) : List Command → Prop
  | free (hwriter : m.writer = none) (hpending : m.pending = []) : Owes t m []
  | holding {k : κ} {command : Command} (hwriter : m.writer = some (k, .holding command))
      (hadm : Admissible command) (hidle : m.engine.pcs k = .idle) (hpending : m.pending = []) :
      Owes t m []
  | prepared {k : κ} {call : EngineCall} {log : Command}
      (hwriter : m.writer = some (k, .prepared call log)) (hrecorded : RecordedBy S call log)
      (hwhole : log.Whole) (hidle : m.engine.pcs k = .idle) (hpending : m.pending = []) :
      Owes t m []
  | entering {k : κ} {call : EngineCall} {log : Command} {now : TimePoint}
      (hwriter : m.writer = some (k, .calling call log)) (hrecorded : RecordedBy S call log)
      (hwhole : log.Whole) (hpc : m.engine.pcs k = .entering call now) (hnow : now ≤ t.1)
      (hpending : m.pending = []) : Owes t m []
  | refused {k : κ} {call : EngineCall} {log : Command}
      (hwriter : m.writer = some (k, .calling call log)) (hpc : (m.engine.pcs k).Retires)
      (hlogs : call.logs (m.engine.answers k) = false) (hpending : m.pending = []) : Owes t m []
  | evicting {k : κ} {call : EngineCall} {log : Command}
      (hwriter : m.writer = some (k, .calling call log)) (hrecorded : RecordedBy S call log)
      (hwhole : log.Whole) (hpc : (m.engine.pcs k).Works)
      (hscanned : (m.engine.pcs k).Scanned m.engine.engine)
      (hlogs : call.logs (m.engine.answers k) = true) :
      Owes t m (log :: m.pending.map evictionCommand)
  | logging {k : κ} {log : Command} (hwriter : m.writer = some (k, .logging log))
      (hadm : Admissible log) (hlog : log.Loggable) (hwhole : log.Whole)
      (hidle : m.engine.pcs k = .idle) : Owes t m (log :: m.pending.map evictionCommand)
  | draining {k : κ} (hwriter : m.writer = some (k, .draining)) (hidle : m.engine.pcs k = .idle) :
      Owes t m (m.pending.map evictionCommand)
  | appending {k : κ} {keys : List Bytes} (hwriter : m.writer = some (k, .appending keys))
      (hidle : m.engine.pcs k = .idle) (hpending : m.pending = []) :
      Owes t m (keys.map evictionCommand)
  | snapshotting {k : κ} {now : Instant} (hwriter : m.writer = some (k, .snapshotting now))
      (hidle : m.engine.pcs k = .idle) (hnow : now.1 ≤ t.1) (hpending : m.pending = []) :
      Owes t m []
  | saving {k : κ} {storage : StorageEngine S} {now : Instant}
      (hwriter : m.writer = some (k, .saving storage now)) (hidle : m.engine.pcs k = .idle)
      (hnow : now.1 ≤ t.1) (hstorage : storage.cells = m.cells) (hpending : m.pending = []) :
      Owes t m []

/-- What a step does to the store, to the files and to the records that the writer
owes. -/
inductive Effect (t : Instant) (m m' : SharedServer S κ) : List Command → List Command → Prop
  | same {owed : List Command} (hcells : m'.cells = m.cells)
      (hpersistence : m'.persistence = m.persistence) (hdisk : m'.disk = m.disk) :
      Effect t m m' owed owed
  | acts {ops : Bytes → CellOp} {log : Command} {now : TimePoint} (hnow : now ≤ t.1)
      (hlog : log.Loggable) (hadm : Admissible log)
      (hops : ∀ key, (ops key).LoggedAs (log.op key))
      (hahead : ∀ key d, ops key = .expireAt d → now < d → t.1 < truncMillis d)
      (hacts : Store.Acts now ops m.cells m'.cells)
      (hpersistence : m'.persistence = m.persistence) (hdisk : m'.disk = m.disk) :
      Effect t m m' [] [log]
  | evict {owed : List Command} {key : Bytes}
      (hcells : m'.cells = Function.update m.cells key none)
      (hpersistence : m'.persistence = m.persistence) (hdisk : m'.disk = m.disk) :
      Effect t m m' owed (owed ++ [evictionCommand key])
  | record {command : Command} {owed : List Command} {o : WriteOutcome}
      (hcells : m'.cells = m.cells)
      (hadm : Admissible command) (hlog : command.Loggable) (hwhole : command.Whole)
      (happend : m.persistence.append m.disk o command = (.ok (), m'.persistence, m'.disk)) :
      Effect t m m' (command :: owed) owed
  | save {storage : StorageEngine S} {now : Instant} {o : SaveOutcome} (hnow : now.1 ≤ t.1)
      (hstorage : storage.cells = m.cells) (hcells : m'.cells = m.cells)
      (hpersistence : m'.persistence = m.persistence)
      (hdisk : m'.disk = (m.persistence.saveSnapshot m.disk storage now.1 o).2) :
      Effect t m m' [] []

/-- The threads and the writer, in a run whose clock stays up to `t`. -/
structure Controlled (t : Instant) (m : SharedServer S κ) (owed : List Command) : Prop where
  reading : ∀ k, ∀ call ∈ m.reading k, EngineCall.reads call = true
  apart : ∀ w ∈ m.writer, m.reading w.1 = []
  others : ∀ k, m.writer.map Prod.fst ≠ some k → (m.engine.pcs k).Reads t.1
  owes : Owes t m owed

variable {t : Instant} {m m' : SharedServer S κ} {owed : List Command}

/-- Steps of the other threads do not concern the writer. -/
theorem Owes.of_other (h : Owes t m owed) (hwriter : m'.writer = m.writer)
    (hcells : m'.cells = m.cells) (hpending : m'.pending = m.pending)
    (hsame : ∀ w ∈ m.writer, m'.engine.pcs w.1 = m.engine.pcs w.1 ∧
      m'.engine.answers w.1 = m.engine.answers w.1) : Owes t m' owed := by
  cases h with
  | free hw hp => exact .free (hwriter.trans hw) (hpending.trans hp)
  | holding hw hadm hidle hp =>
      exact .holding (hwriter.trans hw) hadm ((hsame _ hw).1.trans hidle) (hpending.trans hp)
  | prepared hw hrecorded hwhole hidle hp =>
      exact .prepared (hwriter.trans hw) hrecorded hwhole ((hsame _ hw).1.trans hidle)
        (hpending.trans hp)
  | entering hw hrecorded hwhole hpc hnow hp =>
      exact .entering (hwriter.trans hw) hrecorded hwhole ((hsame _ hw).1.trans hpc) hnow
        (hpending.trans hp)
  | refused hw hpc hlogs hp =>
      refine .refused (hwriter.trans hw) ?_ ?_ (hpending.trans hp)
      · rw [(hsame _ hw).1]
        exact hpc
      · rw [(hsame _ hw).2]
        exact hlogs
  | evicting hw hrecorded hwhole hpc hscanned hlogs =>
      rw [← hpending]
      obtain ⟨hpcs, hanswers⟩ := hsame _ hw
      refine .evicting (hwriter.trans hw) hrecorded hwhole ?_ ?_ ?_
      · rw [hpcs]
        exact hpc
      · rw [hpcs]
        exact hscanned.of_cells hcells
      · rw [hanswers]
        exact hlogs
  | logging hw hadm hlog hwhole hidle =>
      rw [← hpending]
      exact .logging (hwriter.trans hw) hadm hlog hwhole ((hsame _ hw).1.trans hidle)
  | draining hw hidle =>
      rw [← hpending]
      exact .draining (hwriter.trans hw) ((hsame _ hw).1.trans hidle)
  | appending hw hidle hp =>
      exact .appending (hwriter.trans hw) ((hsame _ hw).1.trans hidle) (hpending.trans hp)
  | snapshotting hw hidle hnow hp =>
      exact .snapshotting (hwriter.trans hw) ((hsame _ hw).1.trans hidle) hnow (hpending.trans hp)
  | saving hw hidle hnow hstorage hp =>
      exact .saving (hwriter.trans hw) ((hsame _ hw).1.trans hidle) hnow
        (hstorage.trans hcells.symm)
        (hpending.trans hp)

variable [Fintype κ] [DecidableEq κ]

/-- `P` holds of the clock reading and the deadline of every `expire_at` that is logged. -/
def LoggedDeadlines (P : TimePoint → TimePoint → Prop) (m : SharedServer S κ) :
    ServerEvent κ → Prop
  | .step k => ∀ x ∈ (m.engine.pcs k).expiring?,
      (m.engine.engine.expireAt x.2.2 x.1 x.2.1).1 = true → P x.2.2 x.2.1
  | _ => True

/-- A deadline that is logged, and was still ahead when the engine read the clock, is
behind `t` in whole milliseconds too. -/
def Ahead (t : TimePoint) : SharedServer S κ → ServerEvent κ → Prop :=
  LoggedDeadlines fun now d ↦ now < d → t < truncMillis d

omit [Fintype κ] [DecidableEq κ] in
theorem Ahead.of_entering {t : TimePoint} {k : κ} {key : Bytes} {d now : TimePoint}
    (h : Ahead t m (.step k)) (hpc : m.engine.pcs k = .entering (.expireAt key d) now)
    (hlogged : (m.engine.engine.expireAt now key d).1 = true) (hlt : now < d) :
    t < truncMillis d := by
  have hexpiring : (m.engine.pcs k).expiring? = some (key, d, now) := by
    rw [hpc, EnginePc.expiring?]
  exact h (key, d, now) hexpiring hlogged hlt

/-- Deadlines do not overflow the clock. -/
def InRange (m : SharedServer S κ) : ServerEvent κ → Prop
  | .prepare now =>
      match m.writer with
      | some (_, .holding command) => command.DeadlineFits now.1
      | _ => True
  | _ => True

instance {P : TimePoint → TimePoint → Prop}
    [∀ now d, Decidable (P now d)] (m : SharedServer S κ) :
    (e : ServerEvent κ) → Decidable (LoggedDeadlines P m e)
  | .step k => inferInstanceAs (Decidable (∀ x ∈ (m.engine.pcs k).expiring?,
      (m.engine.engine.expireAt x.2.2 x.1 x.2.1).1 = true → P x.2.2 x.2.1))
  | .read _ _ | .sweep _ | .write _ _ | .call _ _ | .prepare _ | .mutate _ | .finish | .append _
  | .save _ => isTrue trivial

instance (t : TimePoint) (m : SharedServer S κ) (e : ServerEvent κ) :
    Decidable (Ahead t m e) :=
  inferInstanceAs (Decidable (LoggedDeadlines (fun now d ↦ now < d → t < truncMillis d) m e))

instance (m : SharedServer S κ) :
    (e : ServerEvent κ) → Decidable (m.InRange e)
  | .prepare now =>
      match h : m.writer with
      | some (_, .holding command) =>
          decidable_of_iff (command.DeadlineFits now.1) (by simp [InRange, h])
      | none => isTrue (by simp [InRange, h])
      | some (_, .prepared _ _) | some (_, .calling _ _) | some (_, .logging _)
      | some (_, .draining) | some (_, .appending _) | some (_, .snapshotting _)
      | some (_, .saving _ _) => isTrue (by simp [InRange, h])
  | .read _ _ | .sweep _ | .write _ _ | .call _ _ | .step _ | .mutate _ | .finish | .append _
  | .save _ => isTrue trivial

omit [Fintype κ] [DecidableEq κ] in
theorem reads_readCalls (command : Command) : ∀ call ∈ command.readCalls, call.reads = true := by
  intro call hcall
  simp only [Command.readCalls] at hcall
  split at hcall
  case h_2 =>
    obtain ⟨key, -, rfl⟩ := List.mem_map.mp hcall
    rfl
  all_goals simp at hcall
  all_goals rw [hcall]; rfl

omit [Fintype κ] in
theorem Controlled.begin_reading (h : Controlled t m owed) {k : κ} (hfree : m.Free k)
    {calls : List EngineCall} (hcalls : ∀ call ∈ calls, call.reads = true) :
    Controlled t { m with reading := Function.update m.reading k calls } owed where
  reading := @forall_update _ _ _ (∀ call ∈ ·, EngineCall.reads call = true) _ _ _ h.reading hcalls
  apart w hw := by
    have hne : w.1 ≠ k := fun heq ↦ hfree.2.2 (by rw [Option.mem_def.mp hw, Option.map_some, heq])
    exact (Function.update_of_ne hne _ _).trans (h.apart w hw)
  others := h.others
  owes := h.owes.of_other rfl rfl rfl fun _ _ ↦ ⟨rfl, rfl⟩

omit [Fintype κ] [DecidableEq κ] in
/-- The thread of the writer has made a step that does not concern the readers: it
is the writer still or again, or is not in a command. -/
theorem Controlled.of_writer (h : Controlled t m owed) {owed' : List Command}
    (hreading : m'.reading = m.reading) {k : κ} (hfree : m.reading k = [])
    (hothers : ∀ j, j ≠ k → m.writer.map Prod.fst ≠ some j ∧ m'.engine.pcs j = m.engine.pcs j)
    (hwriter : m'.writer.map Prod.fst = some k ∨ m'.writer = none ∧ m'.engine.pcs k = .idle)
    (howes : Owes t m' owed') : Controlled t m' owed' where
  reading := hreading ▸ h.reading
  apart w hw := by
    rw [Option.mem_def] at hw
    rcases hwriter with hk | ⟨hnone, -⟩
    · rw [hw, Option.map_some, Option.some.injEq] at hk
      rw [hreading, hk]
      exact hfree
    · simp [hw] at hnone
  others j hj := by
    by_cases hjk : j = k
    · subst hjk
      rcases hwriter with hk | ⟨-, hidle⟩
      · exact absurd hk hj
      · rw [hidle]
        trivial
    · rw [(hothers j hjk).2]
      exact h.others j (hothers j hjk).1
  owes := howes

/-- The calls of the other threads. -/
theorem Controlled.call (h : Controlled t m owed) {k : κ} {call : EngineCall}
    {rest : List EngineCall} {now : Instant} {engine : ConcurrentEngine S κ}
    (hreading : m.reading k = call :: rest) (hnow : now.1 ≤ t.1)
    (hcall : m.engine.step (.call k call now.1) = some engine) :
    Controlled t { m with
      engine := engine, reading := Function.update m.reading k rest, now := now } owed := by
  obtain ⟨hidle, hbegin, hengine, hanswers, hpcs⟩ := ConcurrentEngine.call_spec hcall
  have hcalls := h.reading k
  rw [hreading, List.forall_mem_cons] at hcalls
  have hne : ∀ w ∈ m.writer, w.1 ≠ k := by
    rintro w hw rfl
    simp [h.apart w hw] at hreading
  refine ⟨?_, fun w hw ↦ ?_, fun j hj ↦ ?_, ?_⟩
  · exact @forall_update _ _ _ (∀ call ∈ ·, EngineCall.reads call = true) _ _ _ h.reading hcalls.2
  · exact (Function.update_of_ne (hne w hw) _ _).trans (h.apart w hw)
  · by_cases hjk : j = k
    · subst hjk
      exact reads_begin hcalls.1 hnow hbegin
    · dsimp only
      rw [hpcs j hjk]
      exact h.others j hj
  · refine h.owes.of_other rfl (congrArg StorageEngine.cells hengine)
      (congrArg StorageEngine.pendingEvictedKeys hengine) fun w hw ↦ ⟨hpcs _ (hne w hw), ?_⟩
    dsimp only
    rw [hanswers]

/-- A step of a thread outside the write path. -/
theorem Controlled.step_reader (h : Controlled t m owed) (hlive : m.cells.LiveUntil t.1) {k : κ}
    (hk : m.writer.map Prod.fst ≠ some k) {engine : ConcurrentEngine S κ}
    (hstep : m.engine.step (.step k) = some engine) :
    Controlled t { m with engine := engine } owed ∧ engine.engine.cells = m.cells := by
  obtain ⟨hreads, hcells, hpending⟩ :=
    reads_advances (h.others k hk) hlive (ConcurrentEngine.step_self hstep)
  have hne : ∀ w ∈ m.writer, w.1 ≠ k := by
    rintro w hw rfl
    exact hk (by rw [Option.mem_def.mp hw, Option.map_some])
  refine ⟨⟨h.reading, h.apart, fun j hj ↦ ?_, ?_⟩, hcells⟩
  · by_cases hjk : j = k
    · subst hjk
      exact hreads
    · dsimp only
      rw [(ConcurrentEngine.step_other hstep hjk).1]
      exact h.others j hj
  · exact h.owes.of_other rfl hcells hpending
      fun w hw ↦ ConcurrentEngine.step_other hstep (hne w hw)

/-- The section of the writer's call. -/
theorem Controlled.step_enter {k : κ} {call : EngineCall} {log : Command} {now : TimePoint}
    (hlive : m.cells.LiveUntil t.1)
    (hwriter : m.writer = some (k, .calling call log)) (hrecorded : RecordedBy S call log)
    (hwhole : log.Whole) (hpc : m.engine.pcs k = .entering call now) (hnow : now ≤ t.1)
    (hpending : m.pending = []) {engine : ConcurrentEngine S κ}
    (hahead : Ahead t.1 m (.step k)) (hstep : m.engine.step (.step k) = some engine) :
    ∃ owed', Owes t { m with engine := engine } owed' ∧
      Effect t m { m with engine := engine } [] owed' := by
  have hadvances := ConcurrentEngine.step_self hstep
  have hanswer := ConcurrentEngine.answers_of_entering hstep hpc
  rw [hpc] at hadvances
  generalize hpc' : engine.pcs k = pc' at hadvances
  generalize hs' : engine.engine = s' at hadvances
  cases hadvances with
  | enter hfree =>
      have hcells : engine.engine.cells =
          (m.engine.engine.beforeEviction ⟨call, fun _ ↦ now⟩).2.2.cells := by
        rw [hs', cells_enter]
      have hpending' : engine.engine.pendingEvictedKeys = [] := by
        rw [hs', pending_enter, hrecorded.pending]
        exact hpending
      cases hlogs : call.logs (engine.answers k) with
      | false =>
          rw [hanswer] at hlogs
          obtain ⟨henforce, hlapses⟩ := hrecorded.refused _ _ hlogs
          refine ⟨[], .refused hwriter ?_ (hanswer ▸ hlogs) hpending', .same ?_ rfl rfl⟩
          · dsimp only
            rw [hpc']
            exact henforce
          · exact hcells.trans (hlive.cells_eq hnow hlapses)
      | true =>
          obtain ⟨ops, hops, hdeadline, hacts⟩ := hrecorded.acts m.engine.engine now
            (hanswer ▸ hlogs)
          refine ⟨[log], ?_, .acts hnow hrecorded.loggable hrecorded.admissible hops ?_ ?_ rfl
            rfl⟩
          · have howes : Owes t { m with engine := engine }
                (log :: engine.engine.pendingEvictedKeys.map evictionCommand) := by
              refine .evicting hwriter hrecorded hwhole ?_ ?_ hlogs
              · dsimp only
                rw [hpc']
                trivial
              · intro rest hscanning
                dsimp only at hscanning
                simp [hpc'] at hscanning
            rwa [hpending'] at howes
          · intro key d hd hlt
            obtain rfl := hdeadline key d hd
            refine hahead.of_entering hpc ?_ hlt
            simpa [hanswer, beforeEviction, StorageEngine.call, EngineCall.logs] using hlogs
          · rw [← hcells] at hacts
            exact hacts

/-- A step of the writer in the engine. -/
theorem Controlled.step_writer (h : Controlled t m owed) (hlive : m.cells.LiveUntil t.1) {k : κ}
    (hk : m.writer.map Prod.fst = some k) (hahead : Ahead t.1 m (.step k))
    {engine : ConcurrentEngine S κ} (hstep : m.engine.step (.step k) = some engine) :
    ∃ owed', Controlled t { m with engine := engine } owed' ∧
      Effect t m { m with engine := engine } owed owed' := by
  have hbusy := ConcurrentEngine.step_idle hstep
  have hfree : m.reading k = [] := by
    obtain ⟨w, hw, rfl⟩ := Option.map_eq_some_iff.mp hk
    exact h.apart w hw
  suffices howes : ∃ owed', Owes t { m with engine := engine } owed' ∧
      Effect t m { m with engine := engine } owed owed' by
    obtain ⟨owed', howes, heffect⟩ := howes
    refine ⟨owed', h.of_writer rfl hfree (fun j hj ↦ ⟨?_, ?_⟩) (Or.inl hk) howes, heffect⟩
    · rw [hk, ne_eq, Option.some.injEq]
      exact hj.symm
    · exact (ConcurrentEngine.step_other hstep hj).1
  have hadvances := ConcurrentEngine.step_self hstep
  cases h.owes with
  | free hw => simp [hw] at hk
  | entering hw hrecorded hwhole hpc hnow hpending =>
      obtain rfl : _ = k := by simpa [hw] using hk
      exact step_enter hlive hw hrecorded hwhole hpc hnow hpending hahead hstep
  | refused hw hpc hlogs hpending =>
      obtain rfl : _ = k := by simpa [hw] using hk
      obtain ⟨hpc', hcells, hpending'⟩ := retires_advances hpc hadvances
      have hanswers := ConcurrentEngine.answers_of_works hstep hpc.works
      exact ⟨[], .refused hw hpc' (by rw [hanswers, hlogs]) (hpending'.trans hpending),
        .same hcells rfl rfl⟩
  | evicting hw hrecorded hwhole hpc hscanned hlogs =>
      obtain rfl : _ = k := by simpa [hw] using hk
      obtain ⟨hpc', hmoves⟩ := works_advances hpc hadvances
      have hanswers := ConcurrentEngine.answers_of_works hstep hpc
      have howes := Owes.evicting (t := t) (m := { m with engine := engine }) hw hrecorded hwhole
        hpc' (hscanned.advances hadvances) (by rw [hanswers, hlogs])
      refine ⟨_, howes, ?_⟩
      dsimp only [pending]
      rcases hmoves with ⟨hcells, hpending⟩ | ⟨key, hcells, hpending⟩
      · rw [hpending]
        exact .same hcells rfl rfl
      · rw [hpending, List.map_append, List.map_singleton, ← List.cons_append]
        exact .evict hcells rfl rfl
  | holding hw _ hidle | prepared hw _ _ hidle | logging hw _ _ _ hidle | draining hw hidle
  | appending hw hidle | snapshotting hw hidle | saving hw hidle =>
      obtain rfl : _ = k := by simpa [hw] using hk
      exact absurd hidle hbusy

omit [Fintype κ] [DecidableEq κ] in
theorem record_spec {o : WriteOutcome} {command : Command} {next : κ × WriteStage S}
    (h : m.record o command next = some m') :
    m' = { m with persistence := m'.persistence, disk := m'.disk, writer := some next } ∧
      m.persistence.append m.disk o command = (.ok (), m'.persistence, m'.disk) := by
  unfold record at h
  split at h
  · rename_i happend
    obtain rfl := Option.some.inj h
    exact ⟨rfl, happend⟩
  · simp at h

omit [Fintype κ] [DecidableEq κ] in
/-- The steps of the handler leave the engine's threads and the readers alone. -/
theorem Controlled.writing (h : Controlled t m owed) {k : κ} {stage : WriteStage S}
    {owed' : List Command} (hw : m.writer = some (k, stage)) (hreading : m'.reading = m.reading)
    (hpcs : m'.engine.pcs = m.engine.pcs)
    (hwriter : m'.writer.map Prod.fst = some k ∨ m'.writer = none ∧ m'.engine.pcs k = .idle)
    (howes : Owes t m' owed') : Controlled t m' owed' := by
  refine h.of_writer hreading (h.apart _ hw) (fun j hj ↦ ⟨?_, by rw [hpcs]⟩) hwriter howes
  rw [hw, Option.map_some, ne_eq, Option.some.injEq]
  exact hj.symm

/-- The handler reads its arguments, and a command that it refuses ends here. -/
theorem Controlled.prepare (h : Controlled t m owed) {now : Instant}
    (hrange : m.InRange (.prepare now)) (hend : m'.now.1 ≤ t.1)
    (hstep : m.step (.prepare now) = some m') :
    ∃ owed', Controlled t m' owed' ∧ Effect t m m' owed owed' := by
  simp only [step] at hstep
  split at hstep
  case h_2 => simp at hstep
  rename_i k command hw
  simp only [Option.ite_none_right_eq_some, Option.some.injEq] at hstep
  obtain ⟨-, rfl⟩ := hstep
  simp only [InRange, hw] at hrange
  cases h.owes with
  | holding hw' hadm hidle hpending =>
      obtain ⟨rfl, rfl⟩ : k = _ ∧ command = _ := by simpa [hw] using hw'
      refine ⟨[], ?_, .same rfl rfl rfl⟩
      by_cases hsave : command.type = .save
      · rw [if_pos hsave]
        exact h.writing hw rfl rfl (Or.inl rfl) (.snapshotting rfl hidle hend hpending)
      · rw [if_neg hsave]
        cases hmutation : command.mutation now.1 with
        | none =>
            exact h.writing hw rfl rfl (Or.inr ⟨rfl, hidle⟩) (.free rfl hpending)
        | some p =>
            exact h.writing hw rfl rfl (Or.inl rfl) (.prepared rfl
              (recordedBy_of_mutation hadm hmutation) (whole_of_mutation hrange hmutation)
              hidle hpending)
  | _ hw' => simp [hw] at hw'

/-- The call of the engine begins. -/
theorem Controlled.mutate (h : Controlled t m owed) {now : Instant} (hend : m'.now.1 ≤ t.1)
    (hstep : m.step (.mutate now) = some m') :
    ∃ owed', Controlled t m' owed' ∧ Effect t m m' owed owed' := by
  simp only [step] at hstep
  split at hstep
  case h_2 => simp at hstep
  rename_i k call log hw
  simp only [Option.ite_none_right_eq_some] at hstep
  obtain ⟨-, hstep⟩ := hstep
  obtain ⟨engine, hcall, rfl⟩ := Option.map_eq_some_iff.mp hstep
  obtain ⟨-, hbegin, hengine, hanswers, hpcs⟩ := ConcurrentEngine.call_spec hcall
  cases h.owes with
  | prepared hw' hrecorded hwhole hidle hpending =>
      obtain ⟨rfl, rfl, rfl⟩ : k = _ ∧ call = _ ∧ log = _ := by simpa [hw] using hw'
      have hcells := congrArg StorageEngine.cells hengine
      have hpending' := congrArg StorageEngine.pendingEvictedKeys hengine
      refine ⟨[], h.of_writer rfl (h.apart _ hw) (fun j hj ↦ ⟨?_, hpcs j hj⟩) (Or.inl rfl)
        (.entering rfl hrecorded hwhole ?_ hend (hpending'.trans hpending)),
        .same hcells rfl rfl⟩
      · rw [hw, Option.map_some, ne_eq, Option.some.injEq]
        exact hj.symm
      · exact ConcurrentEngine.begin_of_sectioned hrecorded.sectioned hbegin
  | _ hw' => simp [hw] at hw'

/-- The call has returned, the evicted keys are taken, the command is done, or the entries
are copied for a save. -/
theorem Controlled.finish (h : Controlled t m owed) (hstep : m.step .finish = some m') :
    ∃ owed', Controlled t m' owed' ∧ Effect t m m' owed owed' := by
  simp only [step] at hstep
  split at hstep
  · rename_i k call log hw
    simp only [Option.ite_none_right_eq_some, Option.some.injEq] at hstep
    obtain ⟨hidle, rfl⟩ := hstep
    cases h.owes with
    | entering hw' _ _ hpc =>
        obtain ⟨rfl, -⟩ : k = _ ∧ _ := by simpa [hw] using hw'
        simp [hidle] at hpc
    | refused hw' hpc hlogs hpending =>
        obtain ⟨rfl, rfl, rfl⟩ : k = _ ∧ call = _ ∧ log = _ := by simpa [hw] using hw'
        rw [if_neg (by simp [hlogs])]
        exact ⟨[], h.writing hw rfl rfl (Or.inr ⟨rfl, hidle⟩) (.free rfl hpending),
          .same rfl rfl rfl⟩
    | evicting hw' hrecorded hwhole hpc hscanned hlogs =>
        obtain ⟨rfl, rfl, rfl⟩ : k = _ ∧ call = _ ∧ log = _ := by simpa [hw] using hw'
        rw [if_pos hlogs]
        exact ⟨_, h.writing hw rfl rfl (Or.inl rfl) (.logging rfl hrecorded.admissible
          hrecorded.loggable hwhole hidle), .same rfl rfl rfl⟩
    | _ hw' => simp [hw] at hw'
  · rename_i k hw
    obtain rfl := Option.some.inj hstep
    cases h.owes with
    | draining hw' hidle =>
        obtain rfl : k = _ := by simpa [hw] using hw'
        exact ⟨_, h.writing hw rfl rfl (Or.inl rfl) (.appending rfl hidle rfl), .same rfl rfl rfl⟩
    | _ hw' => simp [hw] at hw'
  · rename_i k hw
    obtain rfl := Option.some.inj hstep
    cases h.owes with
    | appending hw' hidle hpending =>
        obtain ⟨rfl, rfl⟩ : k = _ ∧ _ = [] := by simpa [hw, eq_comm] using hw'
        exact ⟨[], h.writing hw rfl rfl (Or.inr ⟨rfl, hidle⟩) (.free rfl hpending),
          .same rfl rfl rfl⟩
    | _ hw' => simp [hw] at hw'
  · rename_i k now hw
    simp only [Option.ite_none_right_eq_some, Option.some.injEq] at hstep
    obtain ⟨-, rfl⟩ := hstep
    cases h.owes with
    | snapshotting hw' hidle hnow hpending =>
        obtain ⟨rfl, rfl⟩ : k = _ ∧ now = _ := by simpa [hw] using hw'
        exact ⟨[], h.writing hw rfl rfl (Or.inl rfl) (.saving rfl hidle hnow rfl hpending),
          .same rfl rfl rfl⟩
    | _ hw' => simp [hw] at hw'
  · simp at hstep

/-- A record reaches the log: that of the command, or that of an evicted key. -/
theorem Controlled.append (h : Controlled t m owed) {o : WriteOutcome}
    (hstep : m.step (.append o) = some m') :
    ∃ owed', Controlled t m' owed' ∧ Effect t m m' owed owed' := by
  simp only [step] at hstep
  split at hstep
  · rename_i k log hw
    obtain ⟨hm', happend⟩ := record_spec hstep
    cases h.owes with
    | logging hw' hadm hlog hwhole hidle =>
        obtain ⟨rfl, rfl⟩ : k = _ ∧ log = _ := by simpa [hw] using hw'
        rw [hm']
        exact ⟨_, h.writing hw rfl rfl (Or.inl rfl) (.draining rfl hidle),
          .record rfl hadm hlog hwhole happend⟩
    | _ hw' => simp [hw] at hw'
  · rename_i k key rest hw
    obtain ⟨hm', happend⟩ := record_spec hstep
    cases h.owes with
    | appending hw' hidle hpending =>
        obtain ⟨rfl, rfl⟩ : k = _ ∧ key :: rest = _ := by simpa [hw] using hw'
        rw [hm']
        obtain ⟨hadm, hlog⟩ := admissible_evictionCommand key
        exact ⟨_, h.writing hw rfl rfl (Or.inl rfl) (.appending rfl hidle hpending),
          .record rfl hadm hlog trivial happend⟩
    | _ hw' => simp [hw] at hw'
  · simp at hstep

/-- The snapshot is written, or the save has failed. -/
theorem Controlled.save (h : Controlled t m owed) {o : SaveOutcome}
    (hstep : m.step (.save o) = some m') :
    ∃ owed', Controlled t m' owed' ∧ Effect t m m' owed owed' := by
  simp only [step] at hstep
  split at hstep
  · rename_i k storage now hw
    obtain rfl := Option.some.inj hstep
    cases h.owes with
    | saving hw' hidle hnow hstorage hpending =>
        obtain ⟨rfl, rfl, rfl⟩ : k = _ ∧ storage = _ ∧ now = _ := by simpa [hw] using hw'
        exact ⟨[], h.writing hw rfl rfl (Or.inr ⟨rfl, hidle⟩) (.free rfl hpending),
          .save hnow hstorage rfl rfl rfl⟩
    | _ hw' => simp [hw] at hw'
  · simp at hstep

theorem controlled_step (h : Controlled t m owed) (hlive : m.cells.LiveUntil t.1)
    {e : ServerEvent κ} (hahead : Ahead t.1 m e) (hrange : m.InRange e) (hend : m'.now.1 ≤ t.1)
    (hstep : m.step e = some m') :
    ∃ owed', Controlled t m' owed' ∧ Effect t m m' owed owed' := by
  cases e with
  | read k command =>
      simp only [step, Option.ite_none_right_eq_some, Option.some.injEq] at hstep
      obtain ⟨⟨hfree, -⟩, rfl⟩ := hstep
      exact ⟨owed, h.begin_reading hfree (reads_readCalls command), .same rfl rfl rfl⟩
  | sweep k =>
      simp only [step, Option.ite_none_right_eq_some, Option.some.injEq] at hstep
      obtain ⟨hfree, rfl⟩ := hstep
      exact ⟨owed, h.begin_reading hfree (by simp [EngineCall.reads]), .same rfl rfl rfl⟩
  | write k command =>
      simp only [step] at hstep
      split at hstep
      · rename_i hnone
        simp only [Option.ite_none_right_eq_some, Option.some.injEq] at hstep
        obtain ⟨⟨hfree, hadm, -⟩, rfl⟩ := hstep
        cases h.owes with
        | free _ hpending =>
            refine ⟨[], h.of_writer rfl hfree.1 (fun j _ ↦ ⟨by simp [hnone], rfl⟩) (Or.inl rfl)
              (.holding rfl hadm hfree.2.1 hpending), .same rfl rfl rfl⟩
        | _ hw => simp [hnone] at hw
      · simp at hstep
  | call k now =>
      simp only [step] at hstep
      split at hstep
      · simp at hstep
      · rename_i call rest hreading
        simp only [Option.ite_none_right_eq_some] at hstep
        obtain ⟨-, hstep⟩ := hstep
        obtain ⟨engine, hcall, rfl⟩ := Option.map_eq_some_iff.mp hstep
        have hengine := (ConcurrentEngine.call_spec hcall).2.2.1
        exact ⟨owed, h.call hreading hend hcall,
          .same (congrArg StorageEngine.cells hengine) rfl rfl⟩
  | step k =>
      obtain ⟨engine, hengine, rfl⟩ := Option.map_eq_some_iff.mp hstep
      by_cases hk : m.writer.map Prod.fst = some k
      · exact h.step_writer hlive hk hahead hengine
      · obtain ⟨hcontrolled, hcells⟩ := h.step_reader hlive hk hengine
        exact ⟨owed, hcontrolled, .same hcells rfl rfl⟩
  | prepare now => exact h.prepare hrange hend hstep
  | mutate now => exact h.mutate hend hstep
  | finish => exact h.finish hstep
  | append o => exact h.append hstep
  | save o => exact h.save hstep

end SharedServer

end ByteCacheDB
