import ByteCacheDB.Execution
import ByteCacheDB.Lib.Runs
import ByteCacheDB.Recovery

/-!
# Sessions

A session is a run of the server from empty files: commands through the handler
one after another, and sweeps of the TTL manager in between.  Beside the server
the state keeps the journal, the list of commands that the files stand for: the
records of the log, or the entries of the last snapshot and the records behind
it.  Recovery replays the journal.
-/

namespace ByteCacheDB

open CommandParser StorageEngine AppendOnlyFile Runs

structure Session (S : Sharding) where
  server : Server S
  /-- the latest clock reading -/
  now : Instant
  journal : List Command

inductive Action where
  | command (command : Command) (env : Environment)
  | sweep (now : Instant)

/-- The first clock reading of an action. -/
def Action.reading : Action → Instant
  | .command _ env => env.clock 0
  | .sweep now => now

namespace Session

variable {S : Sharding}

def initial (S : Sharding) (policy : FsyncPolicy) (path : Bool) (maxKeys : UInt64) : Session S where
  server := ⟨{ maxKeys := maxKeys }, ⟨true, policy, path, true, false, 0⟩, { aof := some [] }⟩
  now := ⟨0, epoch_nonneg⟩
  journal := []

/-- The call is a `SAVE` that succeeds. -/
def saves (v : Server S) (env : Environment) (command : Command) : Bool :=
  decide (command.type = .save) &&
    (v.persistence.saveSnapshot v.disk v.storage (env.clock 0).1 env.save).1.toBool

/-- Every record of the call reaches the log as a whole, as it does when the
appends succeed. -/
def RecordsWritten (v : Server S) (env : Environment) (command : Command) : Prop :=
  (v.executeOrdered env command).2.disk.aof.getD [] =
    v.disk.aof.getD [] ++ written (numbered v.persistence.sequence (v.records env command))

instance (v : Server S) (env : Environment) (command : Command) :
    Decidable (RecordsWritten v env command) :=
  inferInstanceAs (Decidable (_ = _))

/-- A snapshot replaces everything before it. -/
def journalAfter (st : Session S) (env : Environment) (command : Command) : List Command :=
  if saves st.server env command then
    (st.server.storage.snapshotEntries (env.clock 0).1).flatMap entryCommands
  else st.journal ++ st.server.records env command

def step (st : Session S) : Action → Option (Session S)
  | .command command env =>
      if Admissible command ∧ st.now.1 ≤ (env.clock 0).1 ∧
          RecordsWritten st.server env command then
        some
          { server := (st.server.executeOrdered env command).2
            now := env.last command
            journal := st.journalAfter env command }
      else none
  | .sweep now =>
      if st.now.1 ≤ now.1 then
        some { st with
          server := st.server.withStorage (st.server.storage.cleanupExpired now.1).2
          now := now }
      else none

/-- The records that an action adds to the log. -/
def records (st : Session S) : Action → List Command
  | .command command env => st.server.records env command
  | .sweep _ => []

def Saves (st : Session S) : Action → Prop
  | .command command env => saves st.server env command = true
  | .sweep _ => False

instance (st : Session S) : (a : Action) → Decidable (st.Saves a)
  | .command command env => inferInstanceAs (Decidable (saves st.server env command = true))
  | .sweep _ => inferInstanceAs (Decidable False)

/-- The engine of a new process that recovers from the files at time `t`. -/
def recovered (st : Session S) (t : TimePoint) : Option (StorageEngine S) :=
  (st.server.persistence.fresh.recover st.server.disk
    { maxKeys := st.server.storage.maxKeys } t).toOption.map Prod.snd

/-- The live store. -/
abbrev cells (st : Session S) : Store := st.server.storage.cells

end Session

section
variable {S : Sharding}

/-! ## The records of a call -/

/-- Consecutive appends burn one number each, touch nothing but the log, and
never let it outgrow the largest file. -/
theorem appendEach_spec (writes : ℕ → WriteOutcome) (i : ℕ) (commands : List Command)
    (error : Option Bytes) (f : AppendOnlyFile) (disk : Disk) (henabled : f.enabled = true)
    (hopened : f.opened = true) (hsize : (disk.aof.getD []).length ≤ maxFileSize) :
    (∃ d, (appendEach writes i commands error f disk).2.1 =
        { f with sequence := f.sequence + UInt64.ofNat commands.length, dirty := d }) ∧
      (∃ aof, (appendEach writes i commands error f disk).2.2 = { disk with aof := aof }) ∧
      ((appendEach writes i commands error f disk).2.2.aof.getD []).length ≤ maxFileSize := by
  induction commands generalizing i error f disk with
  | nil => exact ⟨⟨f.dirty, by simp [appendEach]⟩, ⟨disk.aof, rfl⟩, hsize⟩
  | cons command rest ih =>
      obtain ⟨d, happend⟩ := append_spec henabled hopened disk (writes i) command
      have hlength : (disk.aof.getD [] ++ (record (f.sequence + 1) command).take
          (room disk (writes i))).length ≤ maxFileSize := by
        rw [List.length_append, List.length_take, room]
        omega
      simp only [appendEach, happend]
      obtain ⟨⟨d', hf⟩, ⟨aof, hdisk⟩, hsize'⟩ := ih (i + 1)
        (lastError error (f.append disk (writes i) command).1)
        { f with sequence := f.sequence + 1, dirty := d }
        { disk with aof := some (disk.aof.getD [] ++
          (record (f.sequence + 1) command).take (room disk (writes i))) }
        henabled hopened hlength
      refine ⟨⟨d', ?_⟩, ⟨aof, hdisk⟩, hsize'⟩
      have hnumber : f.sequence + 1 + UInt64.ofNat rest.length =
          f.sequence + UInt64.ofNat (command :: rest).length := by
        rw [List.length_cons, UInt64.ofNat_add]
        grind
      rw [hf, hnumber]

theorem execute_save (v : Server S) (env : Environment) {command : Command}
    (htype : command.type = .save) :
    (v.execute env command).1.shouldLog = false ∧
      (v.execute env command).2 = { v with
        disk := (v.persistence.saveSnapshot v.disk v.storage (env.clock 0).1 env.save).2 } := by
  simp only [Server.execute, htype]
  split
  · rename_i hsave
    exact ⟨rfl, by rw [hsave]⟩
  · rename_i hsave
    exact ⟨rfl, by rw [hsave]⟩

/-- A call with records hands them to the log one by one, and a failure of any
of them is its answer. -/
theorem executeOrdered_records (v : Server S) (env : Environment) {command : Command}
    (hadm : Admissible command) (h : v.records env command ≠ []) :
    (v.executeOrdered env command).2 =
        ⟨(v.execute env command).2.storage.takeEvictedKeys.2,
          (appendEach env.writes 0 (v.records env command) none v.persistence v.disk).2.1,
          (appendEach env.writes 0 (v.records env command) none v.persistence v.disk).2.2⟩ ∧
      ((v.executeOrdered env command).1.response.isError = false →
        (appendEach env.writes 0 (v.records env command) none v.persistence v.disk).1 = none) := by
  obtain ⟨hlog, hfiles, -⟩ := execute_spec v env hadm
  by_cases hcond : (v.execute env command).1.shouldLog = true ∧ v.persistence.enabled = true
  case neg => simp [Server.records, hcond] at h
  have hsave : command.type ≠ .save := by
    intro hsave
    rw [(execute_save v env hsave).1] at hcond
    simp at hcond
  have hrecords : v.records env command = (v.execute env command).1.logCommand ::
      (v.execute env command).2.storage.takeEvictedKeys.1.map evictionCommand := by
    rw [Server.records, if_pos hcond]
    rfl
  rw [Server.executeOrdered, Server.persistIfNeeded, if_neg (by simp [hcond.1]),
    if_neg (by simp [hlog, hcond.2]), hlog, hfiles hsave]
  dsimp only
  rw [← hrecords]
  refine ⟨rfl, ?_⟩
  split
  · exact fun _ ↦ by assumption
  · simp [Response.isError]

/-- What a call of the handler does to the engine and to the files. -/
inductive Handles (v v' : Server S) (env : Environment) (command : Command) : Prop
  | quiet (hrecords : v.records env command = []) (hsave : command.type ≠ .save)
      (hlapses : Lapses (env.last command).1 v.storage v'.storage)
      (hpersistence : v'.persistence = v.persistence) (hdisk : v'.disk = v.disk)
  | save (hrecords : v.records env command = []) (hsave : command.type = .save)
      (hv : v' = { v with
        disk := (v.persistence.saveSnapshot v.disk v.storage (env.clock 0).1 env.save).2 })
  | logged (i : ℕ) (ops : Bytes → CellOp) (log : Command) (ks : List Bytes) (s : StorageEngine S)
      (hrecords : v.records env command = log :: ks.map evictionCommand)
      (hsave : command.type ≠ .save) (hreading : (env.clock i).1 ≤ (env.last command).1)
      (hfirst : i = 0 ∨ log.type = .expireat) (hadmissible : Admissible log)
      (hloggable : log.Loggable)
      (hops : ∀ key, (ops key).LoggedAs (log.op key))
      (hmutates : Mutates (env.clock i).1 ops v.storage s ks)
      (hstorage : v'.storage = s.takeEvictedKeys.2)
      (hpersistence : ∃ d, v'.persistence = { v.persistence with
        sequence := v.persistence.sequence + UInt64.ofNat (v.records env command).length
        dirty := d })
      (hdisk : ∃ aof, v'.disk = { v.disk with aof := aof })
      (hsize : (v'.disk.aof.getD []).length ≤ maxFileSize)
      (hfound : log.Found (env.clock i).1 v.storage.cells)

theorem handles_executeOrdered (v : Server S) (env : Environment) {command : Command}
    (hadm : Admissible command) (henabled : v.persistence.enabled = true)
    (hopened : v.persistence.opened = true) (hsize : (v.disk.aof.getD []).length ≤ maxFileSize)
    (hpending : v.storage.pendingEvictedKeys = []) :
    Handles v (v.executeOrdered env command).2 env command := by
  obtain ⟨hlog, hfiles, hexec⟩ := execute_spec v env hadm
  cases hexec with
  | quiet hquiet hlapses =>
      have hordered : (v.executeOrdered env command).2 = (v.execute env command).2 := by
        simp [Server.executeOrdered, Server.persistIfNeeded, hquiet]
      have hrecords : v.records env command = [] := by simp [Server.records, hquiet]
      rw [hordered]
      by_cases hsave : command.type = .save
      · exact .save hrecords hsave (execute_save v env hsave).2
      · exact .quiet hrecords hsave hlapses hlog (hfiles hsave)
  | logged i ops ks hlogged hreading hfirst hadmissible hloggable hops hmutates hfound =>
      have hsave : command.type ≠ .save := by
        intro hsave
        rw [(execute_save v env hsave).1] at hlogged
        simp at hlogged
      have hrecords : v.records env command =
          (v.execute env command).1.logCommand :: ks.map evictionCommand := by
        rw [Server.records, if_pos ⟨hlogged, henabled⟩, hmutates.pending, hpending,
          List.nil_append]
      obtain ⟨hordered, -⟩ := executeOrdered_records v env hadm (by rw [hrecords]; simp)
      obtain ⟨hf, hdisk, hlength⟩ := appendEach_spec env.writes 0 (v.records env command) none
        v.persistence v.disk henabled hopened hsize
      rw [hordered]
      exact .logged i ops _ ks _ hrecords hsave hreading hfirst hadmissible hloggable hops hmutates
        rfl hf hdisk hlength hfound

/-! ## The files of a session -/

theorem length_le_written (n : UInt64) (commands : List Command) :
    commands.length ≤ (written (numbered n commands)).length := by
  induction commands generalizing n with
  | nil => exact Nat.zero_le _
  | cons command rest ih =>
      have hrest := ih (n + 1)
      simp only [numbered, written, List.flatMap_cons, List.length_append, List.length_cons,
        record] at hrest ⊢
      omega

theorem numbered_append (n : UInt64) (xs ys : List Command) :
    numbered n (xs ++ ys) = numbered n xs ++ numbered (n + UInt64.ofNat xs.length) ys := by
  induction xs generalizing n with
  | nil => simp [numbered]
  | cons x xs ih =>
      have hnumber : n + 1 + UInt64.ofNat xs.length = n + UInt64.ofNat (x :: xs).length := by
        rw [List.length_cons, UInt64.ofNat_add]
        grind
      rw [List.cons_append, numbered, numbered, ih, hnumber, List.cons_append]

/-- One for every argument of the commands, and for every command. -/
def weight (commands : List Command) : ℕ :=
  (commands.map fun command ↦ command.args.length + 1).sum

@[simp] theorem weight_append (xs ys : List Command) :
    weight (xs ++ ys) = weight xs + weight ys := by
  simp [weight]

@[simp] theorem weight_cons (command : Command) (rest : List Command) :
    weight (command :: rest) = command.args.length + 1 + weight rest := by
  simp [weight]

theorem length_args_le_serialize (command : Command) :
    command.args.length ≤ (serialize command).length := by
  have hargs : ∀ args : List Bytes,
      args.length ≤ (args.flatMap fun arg ↦ space :: quote arg).length := by
    intro args
    induction args with
    | nil => exact Nat.zero_le _
    | cons arg args ih =>
        simp only [List.flatMap_cons, List.length_append, List.length_cons]
        omega
  rw [serialize, List.length_append]
  exact Nat.le_add_left_of_le (hargs command.args)

theorem weight_le_written (n : UInt64) (commands : List Command) :
    weight commands ≤ (written (numbered n commands)).length := by
  induction commands generalizing n with
  | nil => exact Nat.zero_le _
  | cons command rest ih =>
      have hrest := ih (n + 1)
      have hline := length_args_le_serialize command
      simp only [numbered, written, List.flatMap_cons, List.length_append, List.length_cons,
        weight_cons, record, recordLine] at hrest ⊢
      omega

/-- The log holds the records of `all`; the snapshot, if there is one, holds the
entries behind `base` and was taken after the first `saved` of them. -/
structure Filed (st : Session S) (base all : List Command) (saved : ℕ) : Prop where
  enabled : st.server.persistence.enabled = true
  opened : st.server.persistence.opened = true
  snapshot : (st.server.persistence.hasSnapshotPath = false ∨ st.server.disk.snapshot = none) ∧
      saved = 0 ∧ base = [] ∨
    st.server.persistence.hasSnapshotPath = true ∧ ∃ entries,
      st.server.disk.snapshot = some (snapshotFile (UInt64.ofNat saved) entries) ∧
        base = entries.flatMap entryCommands
  aof : st.server.disk.aof.getD [] = written (numbered 0 all)
  size : (st.server.disk.aof.getD []).length ≤ maxFileSize
  admissible : ∀ command ∈ all, Admissible command
  loggable : ∀ command ∈ all, command.Loggable
  sequence : st.server.persistence.sequence = UInt64.ofNat all.length
  saved_le : saved ≤ all.length
  journal : st.journal = base ++ all.drop saved

/-- The engine between two calls. -/
structure Ready (L : UInt64) (s : StorageEngine S) : Prop where
  maxKeys : s.maxKeys = L
  evictionEnabled : s.evictionEnabled = true
  pending : s.pendingEvictedKeys = []
  drift : s.drift = 0

theorem Ready.of_keeps {L : UInt64} {s s' : StorageEngine S} (h : Ready L s) (hk : Keeps s s') :
    Ready L s' :=
  ⟨hk.maxKeys.trans h.maxKeys, hk.evictionEnabled.trans h.evictionEnabled,
    hk.pending.trans h.pending, hk.drift.trans h.drift⟩

theorem Ready.of_mutates {L : UInt64} {s s' : StorageEngine S} (h : Ready L s) {now : TimePoint}
    {ops : Bytes → CellOp} {ks : List Bytes} (hm : Mutates now ops s s' ks) :
    Ready L s'.takeEvictedKeys.2 :=
  ⟨hm.maxKeys.trans h.maxKeys, hm.evictionEnabled.trans h.evictionEnabled, rfl, hm.drift h.drift⟩

theorem Filed.length_lt {st : Session S} {base all : List Command} {saved : ℕ}
    (h : Filed st base all saved) : all.length < 2 ^ 63 := by
  have hlength := length_le_written 0 all
  have hsize := h.size
  rw [h.aof, maxFileSize] at hsize
  omega

theorem Filed.weight_lt {st : Session S} {base all : List Command} {saved : ℕ}
    (h : Filed st base all saved) : weight all < 2 ^ 64 := by
  have hweight := weight_le_written 0 all
  have hsize := h.size
  rw [h.aof, maxFileSize] at hsize
  omega

theorem filed_initial (policy : FsyncPolicy) (path : Bool) (L : UInt64) :
    Filed (Session.initial S policy path L) [] [] 0 where
  enabled := rfl
  opened := rfl
  snapshot := Or.inl ⟨Or.inr rfl, rfl, rfl⟩
  aof := rfl
  size := Nat.zero_le _
  admissible := by simp
  loggable := by simp
  sequence := rfl
  saved_le := Nat.le_refl _
  journal := rfl

theorem ready_initial (policy : FsyncPolicy) (path : Bool) (L : UInt64) :
    Ready L (Session.initial S policy path L).server.storage :=
  ⟨rfl, rfl, rfl, by simp [Session.initial, drift]⟩

/-- What one action does to the live store and to the journal. -/
inductive Moves (st st' : Session S) (a : Action) : Prop
  | lapse (hsaves : ¬st.Saves a) (hrecords : st.records a = [])
      (hjournal : st'.journal = st.journal)
      (hcells : ∀ key, st'.cells key = st.cells key ∨
        st'.cells key = none ∧ (st.cells key).live st'.now.1 = none)
  | log (now : Instant) (ops : Bytes → CellOp) (log : Command) (ks : List Bytes) (mid : Store)
      (hsaves : ¬st.Saves a) (hfrom : st.now.1 ≤ now.1) (hto : now.1 ≤ st'.now.1)
      (hreading : now = a.reading ∨ log.type = .expireat)
      (hrecords : st.records a = log :: ks.map evictionCommand)
      (hjournal : st'.journal = st.journal ++ st.records a) (hloggable : log.Loggable)
      (hops : ∀ key, (ops key).LoggedAs (log.op key))
      (hacts : Store.Acts now.1 ops st.cells mid) (hcells : st'.cells = mid.eraseAll ks)
      (hunlimited : st.server.storage.maxKeys = 0 → ks = [])
      (hfound : log.Found now.1 st.cells) (hlate : a.reading.1 ≤ now.1)
      (hroom : st'.server.storage.shards.size ≤ st.server.storage.shards.size ∨
        st'.server.storage.maxKeys = 0 ∨
          st'.server.storage.totalKeys ≤ st'.server.storage.maxKeys)
  | save (now : Instant) (hsaves : st.Saves a) (hrecords : st.records a = [])
      (hfrom : st.now.1 ≤ now.1)
      (hto : now.1 ≤ st'.now.1) (hcells : st'.cells = st.cells)
      (hjournal : st'.journal =
        (st.server.storage.snapshotEntries now.1).flatMap entryCommands)

/-- What one action does to the log object, to the files and to the journal. -/
inductive FileMoves (st st' : Session S) (a : Action) : Prop
  | same (hsaves : ¬st.Saves a) (hrecords : st.records a = [])
      (hpersistence : st'.server.persistence = st.server.persistence)
      (haof : st'.server.disk.aof = st.server.disk.aof)
      (hsnapshot : st'.server.disk.snapshot = st.server.disk.snapshot)
      (hjournal : st'.journal = st.journal)
  | save (now : Instant) (hsaves : st.Saves a) (hrecords : st.records a = [])
      (hpath : st.server.persistence.hasSnapshotPath = true)
      (hpersistence : st'.server.persistence = st.server.persistence)
      (haof : st'.server.disk.aof = st.server.disk.aof)
      (hsnapshot : st'.server.disk.snapshot = some (snapshotFile st.server.persistence.sequence
        (st.server.storage.snapshotEntries now.1)))
      (hjournal : st'.journal =
        (st.server.storage.snapshotEntries now.1).flatMap entryCommands)
  | log (d : Bool) (aof : Option Bytes) (hsaves : ¬st.Saves a)
      (hrecords : ∀ c ∈ st.records a, Admissible c ∧ c.Loggable)
      (hpersistence : st'.server.persistence = { st.server.persistence with
        sequence := st.server.persistence.sequence + UInt64.ofNat (st.records a).length
        dirty := d })
      (hdisk : st'.server.disk = { st.server.disk with aof := aof })
      (hsize : (st'.server.disk.aof.getD []).length ≤ maxFileSize)
      (hwritten : st'.server.disk.aof.getD [] = st.server.disk.aof.getD [] ++
        written (numbered st.server.persistence.sequence (st.records a)))
      (hjournal : st'.journal = st.journal ++ st.records a)

/-- One action of a session with an open log. -/
theorem moves_step {st st' : Session S} {L : UInt64} {a : Action}
    (henabled : st.server.persistence.enabled = true)
    (hopened : st.server.persistence.opened = true)
    (hsize : (st.server.disk.aof.getD []).length ≤ maxFileSize)
    (hready : Ready L st.server.storage) (hstep : st.step a = some st') :
    FileMoves st st' a ∧ Ready L st'.server.storage ∧ st.now.1 ≤ st'.now.1 ∧ Moves st st' a := by
  cases a with
  | sweep now =>
      simp only [Session.step] at hstep
      split at hstep
      · rename_i htime
        obtain rfl := Option.some.inj hstep
        have hlapses := lapses_cleanupExpired st.server.storage now.1
        exact ⟨.same id rfl rfl rfl rfl rfl, hready.of_keeps hlapses.keeps, htime,
          .lapse id rfl rfl hlapses.cells⟩
      · simp at hstep
  | command command env =>
      simp only [Session.step] at hstep
      split at hstep
      case isFalse => simp at hstep
      rename_i hguard
      obtain ⟨hadm, htime, hwritten⟩ := hguard
      obtain rfl := Option.some.inj hstep
      have hlast : st.now.1 ≤ (env.last command).1 :=
        Int64.le_trans htime (env.monotone _ _ (Nat.zero_le _))
      cases handles_executeOrdered st.server env hadm henabled hopened hsize hready.pending with
      | quiet hrecords hsave hlapses hpersistence hdisk =>
          have hsaves : Session.saves st.server env command = false := by
            simp [Session.saves, hsave]
          have hnot : ¬st.Saves (.command command env) := by simp [Session.Saves, hsaves]
          have hjournal : st.journalAfter env command = st.journal := by
            simp [Session.journalAfter, hsaves, hrecords]
          exact ⟨.same hnot hrecords hpersistence (by rw [hdisk]) (by rw [hdisk]) hjournal,
            hready.of_keeps hlapses.keeps, hlast, .lapse hnot hrecords hjournal hlapses.cells⟩
      | save hrecords hsave hv =>
          rw [hv]
          cases hresult : (st.server.persistence.saveSnapshot st.server.disk st.server.storage
              (env.clock 0).1 env.save).1 with
          | error e =>
              obtain ⟨hsnapshot, haof⟩ := saveSnapshot_error hresult
              have hsaves : Session.saves st.server env command = false := by
                simp [Session.saves, hresult, Except.toBool]
              have hnot : ¬st.Saves (.command command env) := by simp [Session.Saves, hsaves]
              have hjournal : st.journalAfter env command = st.journal := by
                simp [Session.journalAfter, hsaves, hrecords]
              exact ⟨.same hnot hrecords rfl haof hsnapshot hjournal, hready, hlast,
                .lapse hnot hrecords hjournal fun _ ↦ Or.inl rfl⟩
          | ok u =>
              have hdisk := saveSnapshot_ok hresult
              have hsaves : Session.saves st.server env command = true := by
                simp [Session.saves, hsave, hresult, Except.toBool]
              have hjournal : st.journalAfter env command =
                  (st.server.storage.snapshotEntries (env.clock 0).1).flatMap entryCommands :=
                if_pos hsaves
              exact ⟨.save (env.clock 0) hsaves hrecords (hasSnapshotPath_of_saveSnapshot hresult)
                rfl (by rw [hdisk]) (by rw [hdisk]) hjournal, hready, hlast,
                .save (env.clock 0) hsaves hrecords htime (env.monotone _ _ (Nat.zero_le _)) rfl
                  hjournal⟩
      | logged i ops log ks s hrecords hsave hreading hfirst hadmissible hloggable hops hmutates
          hstorage hpersistence hdisk hsize hfound =>
          obtain ⟨d, hpersistence⟩ := hpersistence
          obtain ⟨aof, hdisk⟩ := hdisk
          obtain ⟨mid, hacts, hcells⟩ := hmutates.cells
          have hsaves : Session.saves st.server env command = false := by
            simp [Session.saves, hsave]
          have hjournal : st.journalAfter env command =
              st.journal ++ st.server.records env command := by
            simp [Session.journalAfter, hsaves]
          have hall : ∀ c ∈ st.server.records env command, Admissible c ∧ c.Loggable := by
            intro c hc
            rw [hrecords] at hc
            rcases List.mem_cons.mp hc with rfl | hc
            · exact ⟨hadmissible, hloggable⟩
            · obtain ⟨key, -, rfl⟩ := List.mem_map.mp hc
              exact admissible_evictionCommand key
          have hnot : ¬st.Saves (.command command env) := by simp [Session.Saves, hsaves]
          refine ⟨.log d aof hnot hall hpersistence hdisk hsize hwritten hjournal, ?_, hlast,
            .log (env.clock i) ops log ks mid hnot
              (Int64.le_trans htime (env.monotone _ _ (Nat.zero_le _))) hreading
              (hfirst.imp_left (congrArg env.clock)) hrecords hjournal hloggable hops hacts ?_
              hmutates.unlimited hfound (env.monotone _ _ (Nat.zero_le _)) ?_⟩
          · rw [hstorage]
            exact hready.of_mutates hmutates
          · rw [Session.cells, hstorage]
            exact hcells
          · rw [hstorage]
            exact hmutates.room.imp_right fun h ↦ h hready.evictionEnabled hready.drift

/-- Actions that leave the log object, the files and the journal alone. -/
theorem Filed.of_same {st st' : Session S} {base all : List Command} {saved : ℕ}
    (h : Filed st base all saved) (hpersistence : st'.server.persistence = st.server.persistence)
    (haof : st'.server.disk.aof = st.server.disk.aof)
    (hsnapshot : st'.server.disk.snapshot = st.server.disk.snapshot)
    (hjournal : st'.journal = st.journal) : Filed st' base all saved where
  enabled := by rw [hpersistence]; exact h.enabled
  opened := by rw [hpersistence]; exact h.opened
  snapshot := by rw [hpersistence, hsnapshot]; exact h.snapshot
  aof := by rw [haof]; exact h.aof
  size := by rw [haof]; exact h.size
  admissible := h.admissible
  loggable := h.loggable
  sequence := by rw [hpersistence]; exact h.sequence
  saved_le := h.saved_le
  journal := hjournal.trans h.journal

/-- A new snapshot stands for all records so far. -/
theorem filed_save {st st' : Session S} {base all : List Command} {saved : ℕ}
    (h : Filed st base all saved) {entries : List SnapshotEntry}
    (hpersistence : st'.server.persistence = st.server.persistence)
    (hpath : st.server.persistence.hasSnapshotPath = true)
    (haof : st'.server.disk.aof = st.server.disk.aof)
    (hsnapshot : st'.server.disk.snapshot =
      some (snapshotFile st.server.persistence.sequence entries))
    (hjournal : st'.journal = entries.flatMap entryCommands) :
    Filed st' (entries.flatMap entryCommands) all all.length where
  enabled := by rw [hpersistence]; exact h.enabled
  opened := by rw [hpersistence]; exact h.opened
  snapshot := by
    rw [hpersistence, hsnapshot, h.sequence]
    exact Or.inr ⟨hpath, entries, rfl, rfl⟩
  aof := by rw [haof]; exact h.aof
  size := by rw [haof]; exact h.size
  admissible := h.admissible
  loggable := h.loggable
  sequence := by rw [hpersistence]; exact h.sequence
  saved_le := Nat.le_refl _
  journal := by rw [hjournal, List.drop_length, List.append_nil]

theorem filed_log {st st' : Session S} {base all : List Command} {saved : ℕ}
    (h : Filed st base all saved) {records : List Command} {d : Bool} {aof : Option Bytes}
    (hrecords : ∀ c ∈ records, Admissible c ∧ c.Loggable)
    (hpersistence : st'.server.persistence = { st.server.persistence with
      sequence := st.server.persistence.sequence + UInt64.ofNat records.length
      dirty := d })
    (hdisk : st'.server.disk = { st.server.disk with aof := aof })
    (hsize : (st'.server.disk.aof.getD []).length ≤ maxFileSize)
    (hwritten : st'.server.disk.aof.getD [] = st.server.disk.aof.getD [] ++
      written (numbered st.server.persistence.sequence records))
    (hjournal : st'.journal = st.journal ++ records) :
    Filed st' base (all ++ records) saved where
  enabled := by rw [hpersistence]; exact h.enabled
  opened := by rw [hpersistence]; exact h.opened
  snapshot := by rw [hpersistence, hdisk]; exact h.snapshot
  aof := by
    rw [hwritten, h.aof, h.sequence, numbered_append, written_append, UInt64.zero_add]
  size := hsize
  admissible := by
    intro c hc
    rcases List.mem_append.mp hc with hc | hc
    · exact h.admissible c hc
    · exact (hrecords c hc).1
  loggable := by
    intro c hc
    rcases List.mem_append.mp hc with hc | hc
    · exact h.loggable c hc
    · exact (hrecords c hc).2
  sequence := by
    rw [hpersistence, List.length_append, UInt64.ofNat_add, ← h.sequence]
  saved_le := by
    rw [List.length_append]
    exact Nat.le_add_right_of_le h.saved_le
  journal := by
    rw [hjournal, h.journal, List.drop_append_of_le_length h.saved_le, List.append_assoc]

/-- Only a `SAVE` changes what the snapshot stands for. -/
def Checkpoints (st st' : Session S) (a : Action) (base base' all : List Command)
    (saved saved' : ℕ) : Prop :=
  (st.Saves a ∧ base' = st'.journal ∧ saved' = all.length) ∨
    (¬st.Saves a ∧ base' = base ∧ saved' = saved)

/-- One action of a session. -/
theorem filed_step {st st' : Session S} {base all : List Command} {saved : ℕ} {L : UInt64}
    {a : Action} (h : Filed st base all saved) (hready : Ready L st.server.storage)
    (hstep : st.step a = some st') :
    (∃ base' saved', Filed st' base' (all ++ st.records a) saved' ∧
        Checkpoints st st' a base base' all saved saved') ∧
      Ready L st'.server.storage ∧ st.now.1 ≤ st'.now.1 ∧ Moves st st' a := by
  obtain ⟨hfiles, hafter⟩ := moves_step h.enabled h.opened h.size hready hstep
  refine ⟨?_, hafter⟩
  cases hfiles with
  | same hsaves hrecords hpersistence haof hsnapshot hjournal =>
      rw [hrecords, List.append_nil]
      exact ⟨base, saved, h.of_same hpersistence haof hsnapshot hjournal,
        Or.inr ⟨hsaves, rfl, rfl⟩⟩
  | save now hsaves hrecords hpath hpersistence haof hsnapshot hjournal =>
      rw [hrecords, List.append_nil]
      exact ⟨_, all.length, filed_save h hpersistence hpath haof hsnapshot hjournal,
        Or.inl ⟨hsaves, hjournal.symm, rfl⟩⟩
  | log d aof hsaves hrecords hpersistence hdisk hsize hwritten hjournal =>
      exact ⟨base, saved, filed_log h hrecords hpersistence hdisk hsize hwritten hjournal,
        Or.inr ⟨hsaves, rfl, rfl⟩⟩

/-! ## Recovery of a session -/

theorem loading_start (L : UInt64) :
    Loading L false (({ maxKeys := L } : StorageEngine S).setEvictionEnabled false) :=
  ⟨rfl, rfl, Or.inl rfl, rfl, by simp [setEvictionEnabled, drift]⟩

theorem Filed.hasHeader {st : Session S} {base all : List Command} {saved : ℕ}
    (h : Filed st base all saved) :
    HasHeader st.server.persistence.fresh st.server.disk (UInt64.ofNat saved) := by
  rcases h.snapshot with ⟨hnone, rfl, -⟩ | ⟨hpath, entries, hfile, -⟩
  · exact Or.inl ⟨hnone, rfl⟩
  · exact Or.inr ⟨hpath, entries, hfile⟩

theorem Filed.loadSnapshot {st : Session S} {base all : List Command} {saved : ℕ}
    (h : Filed st base all saved) (s : StorageEngine S) (t : TimePoint) :
    (st.server.persistence.fresh.loadSnapshot st.server.disk s t).toOption =
      (applyAll t base s).toOption.map fun s' ↦ (UInt64.ofNat saved, s') := by
  rcases h.snapshot with ⟨hnone, rfl, rfl⟩ | ⟨hpath, entries, hfile, rfl⟩
  · rcases hnone with hpath | hfile
    · simp [AppendOnlyFile.loadSnapshot, fresh, hpath, applyAll, Except.toOption, pure,
        Except.pure]
    · simp [AppendOnlyFile.loadSnapshot, hfile, applyAll, Except.toOption, pure, Except.pure]
  · exact loadSnapshot_snapshotFile _ s t hpath hfile

theorem settled_reloaded (t : TimePoint) (c : Cell) : (c.reloaded t).Settled t := by
  match c with
  | none => rfl
  | some (value, none) => rfl
  | some (value, some deadline) =>
      rw [Cell.reloaded]
      split
      · rename_i hlt
        exact Cell.live_of_lt value hlt
      · rfl

/-- Recovery replays the journal and then evicts down to the limit. -/
theorem Filed.recovered_eq {st : Session S} {base all : List Command} {saved : ℕ}
    (h : Filed st base all saved) (t : TimePoint) :
    st.recovered t =
      (applyAll t st.journal (({ maxKeys := st.server.storage.maxKeys } :
        StorageEngine S).setEvictionEnabled false)).toOption.map fun s ↦
          (s.setEvictionEnabled true).takeEvictedKeys.2 := by
  have hsmall := h.length_lt
  have hrecords : HasRecords st.server.disk (numbered 0 all) := by
    refine ⟨h.aof, fun r hr ↦ h.admissible r.2 ?_⟩
    rw [← map_snd_numbered 0 all]
    exact List.mem_map_of_mem hr
  have heffective : effective (UInt64.ofNat saved) (numbered 0 all) = all.drop saved :=
    effective_numbered (n := 0) (by omega) (by have := h.saved_le; omega)
  have hsplit : ∀ s : StorageEngine S, (applyAll t st.journal s).toOption =
      (applyAll t base s).toOption.bind fun s' ↦ (applyAll t (all.drop saved) s').toOption := by
    intro s
    rw [h.journal, applyAll_append]
    cases applyAll t base s <;> rfl
  have hfresh : st.server.persistence.fresh.enabled = true := h.enabled
  rw [Session.recovered, recover_files hfresh h.hasHeader hrecords, heffective,
    h.loadSnapshot, hsplit, Option.map_map, Option.bind_map]
  rfl

/-- Recovery fails exactly when the journal cannot be replayed; otherwise it
fills an engine with the replayed store. -/
theorem Filed.recovered_cases {st : Session S} {base all : List Command} {saved : ℕ}
    (h : Filed st base all saved) (t : TimePoint) :
    (st.recovered t = none ∧ replayed t st.journal = none) ∨
      ∃ s : StorageEngine S, Loading st.server.storage.maxKeys false s ∧
        replayed t st.journal = some s.cells ∧
        st.recovered t = some (s.setEvictionEnabled true).takeEvictedKeys.2 := by
  have hstart : Loading st.server.storage.maxKeys false
      (({ maxKeys := st.server.storage.maxKeys } : StorageEngine S).setEvictionEnabled false) :=
    loading_start _
  rcases applyAll_refines hstart t st.journal with
    ⟨e, happly, hstore⟩ | ⟨s, happly, hload, hstore⟩
  · left
    refine ⟨?_, ?_⟩
    · rw [h.recovered_eq, happly]
      rfl
    · exact congrArg Except.toOption hstore
  · right
    refine ⟨s, hload, ?_, ?_⟩
    · exact congrArg Except.toOption hstore
    · rw [h.recovered_eq, happly]
      rfl

/-- Without a limit recovery builds the replayed store itself. -/
theorem Filed.recovered_unlimited {st : Session S} {base all : List Command} {saved : ℕ}
    (h : Filed st base all saved) (hmax : st.server.storage.maxKeys = 0) (t : TimePoint) :
    (st.recovered t).map StorageEngine.cells = replayed t st.journal := by
  rcases h.recovered_cases t with ⟨hnone, hreplay⟩ | ⟨s, hload, hreplay, hsome⟩
  · rw [hnone, hreplay]
    rfl
  · have hquiet : s.setEvictionEnabled true = { s with evictionEnabled := true } :=
      enforceMaxKeys_of_le (Or.inl (hload.maxKeys.trans hmax))
    rw [hsome, hreplay, hquiet]
    rfl

end

end ByteCacheDB
