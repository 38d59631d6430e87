import ByteCacheDB.AtomicSave
import ByteCacheDB.Lib.Mutex
import ByteCacheDB.Lib.Progress
import ByteCacheDB.Lib.Threads

/-!
# The log and its threads

Any number of threads append, the sync thread wakes up now and then, and one thread
opens and closes the log.  They share `mutex_`, `fd_`, `stopping_` and `dirty_`; every
system call, every lock and every wait is a step of its own.  `durable` is the size up
to which a successful `fsync` has covered the file.
-/

namespace ByteCacheDB

open AppendOnlyFile Mutex Runs Threads

/-- The log as the threads share it. -/
structure Log where
  file : AppendOnlyFile
  disk : Disk
  durable : ℕ := 0

/-- What a section under `mutex_` does, with the answers of the system. -/
inductive LogCall where
  | append (line : Bytes) (o : WriteOutcome)
  /-- the sync thread after a wait, with `dirty_` set -/
  | sync (synced : Bool)
  | open (o : OpenOutcome)
  /-- the second section of `close` -/
  | close (synced : Bool)

/-- A line as `append_line` writes it. -/
def numberedLine (sequence : UInt64) (line : Bytes) : Bytes :=
  toStringU64 sequence ++ tab :: line ++ [newline]

/-- A record of the log, with the place where it ends in the file. -/
structure LogRecord where
  sequence : UInt64
  line : Bytes
  stop : ℕ
  deriving DecidableEq

namespace Log

def size (l : Log) : ℕ := (l.disk.aof.getD []).length

/-- `fsync` has succeeded. -/
def flushed (l : Log) : Log :=
  { l with file := { l.file with dirty := false }, durable := l.size }

/-- A section as one call, with what it returns. -/
def perform (l : Log) : LogCall → Except Bytes Unit × Log
  | .append line o =>
      let (result, file, disk) := l.file.appendLine l.disk o line
      let l' : Log := { l with file, disk }
      (result,
        if l.file.enabled ∧ l.file.opened ∧ l.file.fsyncPolicy = .always ∧ result = .ok () then
          l'.flushed
        else l')
  | .sync synced => (.ok (), if synced then l.flushed else l)
  | .open o =>
      let (result, file, disk) := l.file.open l.disk o
      (result, { l with file, disk })
  | .close synced =>
      let l := if l.file.dirty ∧ l.file.fsyncPolicy ≠ .never ∧ synced then l.flushed else l
      (.ok (), { l with file := { l.file with opened := false, dirty := false } })

/-- The calls one after another, each with its result, lead from one log to another. -/
def Explains : Log → List (LogCall × Except Bytes Unit) → Log → Prop
  | l, [], l' => l = l'
  | l, (call, result) :: rest, l' =>
    (l.perform call).1 = result ∧ Explains (l.perform call).2 rest l'

end Log

/-- Where a thread stands in `append_line`. -/
inductive AppenderPc where
  | idle
  | locking (line : Bytes)
  /-- under the lock, before the test of `fd_` -/
  | entered (line : Bytes)
  /-- in `write_all`, with so many bytes of the record written -/
  | writing (line : Bytes) (written : ℕ)
  /-- in `sync_locked`, the record written -/
  | syncing (line : Bytes)
  deriving DecidableEq

/-- Where the sync thread stands in `sync_loop`. -/
inductive SyncerPc where
  /-- `sync_thread_` is not joinable -/
  | absent
  | locking
  /-- under the lock, before the test of `stopping_` -/
  | checking
  /-- in `wait_for`, the lock released -/
  | waiting
  | waking
  /-- under the lock, `wait_for` has returned -/
  | flushing
  | exited
  deriving DecidableEq

deriving instance DecidableEq for OpenOutcome

/-- Where the thread stands that opens and closes the log. -/
inductive OwnerPc where
  | idle
  | openLocking (o : OpenOutcome)
  | opening (o : OpenOutcome)
  | closeLocking
  | stopping
  | joining
  | relocking
  | closing
deriving DecidableEq

/-- The owner has set `stopping_` and goes on closing the log. -/
def OwnerPc.Closing (pc : OwnerPc) : Prop := pc = .joining ∨ pc = .relocking ∨ pc = .closing

/-! Whether a thread is inside a section under `mutex_`. -/

def AppenderPc.inside : AppenderPc → Bool
  | .entered _ | .writing _ _ | .syncing _ => true
  | .idle | .locking _ => false

def SyncerPc.inside : SyncerPc → Bool
  | .checking | .flushing => true
  | _ => false

def OwnerPc.inside : OwnerPc → Bool
  | .opening _ | .stopping | .closing => true
  | _ => false

inductive LogThread (κ : Type*) where
  | appender (k : κ)
  | syncer
  | owner
  deriving DecidableEq

inductive LogThreadsEvent (κ : Type*) where
  | append (k : κ) (line : Bytes)
  | open (o : OpenOutcome)
  | close
  | appender (k : κ) (r : SystemResult)
  | syncer (r : SystemResult)
  | owner (r : SystemResult)

/-- Beside the log: the sections finished so far with their results, and the records for
which `append_line` has returned true. -/
structure LogThreads (κ : Type*) where
  log : Log
  stopping : Bool := false
  mutex : Option (LogThread κ) := none
  appenders : κ → AppenderPc := fun _ ↦ .idle
  syncer : SyncerPc := .absent
  owner : OwnerPc := .idle
  history : List (LogCall × Except Bytes Unit) := []
  acknowledged : List LogRecord := []

namespace LogThreads

variable {κ : Type*} [DecidableEq κ]

def start (f : AppendOnlyFile) (disk : Disk) : LogThreads κ := { log := { file := f, disk } }

def setFile (s : LogThreads κ) (file : AppendOnlyFile) : LogThreads κ :=
  { s with log := { s.log with file } }

/-- `append_line` returns and releases the lock. -/
def leave (s : LogThreads κ) (k : κ) (line : Bytes) (o : WriteOutcome)
    (result : Except Bytes Unit) : LogThreads κ :=
  { s with
    mutex := none
    appenders := Function.update s.appenders k .idle
    history := s.history ++ [(.append line o, result)]
    acknowledged :=
      match result with
      | .ok () => s.acknowledged ++ [⟨s.log.file.sequence, line, s.log.size⟩]
      | .error _ => s.acknowledged }

def appenderStep (s : LogThreads κ) (k : κ) (r : SystemResult) : Option (LogThreads κ) :=
  let move pc := Function.update s.appenders k pc
  match s.appenders k with
  | .idle => none
  | .locking line =>
      if s.mutex.isNone then
        some { s with mutex := some (.appender k), appenders := move (.entered line) }
      else none
  | .entered line =>
      if !s.log.file.opened then
        some (s.leave k line { accepted := 0 } (.error (ascii "AOF file is not open")))
      else
        some { s.setFile { s.log.file with sequence := s.log.file.sequence + 1 } with
          appenders := move (.writing line 0) }
  | .writing line written =>
      let data := (numberedLine s.log.file.sequence line).drop written
      if data = [] then
        let s := s.setFile { s.log.file with dirty := true }
        if s.log.file.fsyncPolicy = .always then some { s with appenders := move (.syncing line) }
        else some (s.leave k line { accepted := written } (.ok ()))
      else
        match r with
        | .wrote count =>
            -- the file does not grow beyond what an offset can say
            if count ≤ data.length ∧ s.log.size + count ≤ maxFileSize then
              some { s with
                log := { s.log with disk := { s.log.disk with
                  aof := some (s.log.disk.aof.getD [] ++ data.take count) } }
                appenders := move (.writing line (written + count)) }
            else none
        | .interrupted => some s
        | .failed reason =>
            some (s.leave k line { accepted := written, strerror := reason }
              (.error (ascii "write failed: " ++ reason)))
        | .done => none
  | .syncing line =>
      let accepted := (numberedLine s.log.file.sequence line).length
      match r with
      | .done => some ({ s with log := s.log.flushed }.leave k line { accepted } (.ok ()))
      | .failed reason =>
          some (s.leave k line { accepted, synced := false, strerror := reason }
            (.error (ascii "fsync failed: " ++ reason)))
      | _ => none

def syncerStep (s : LogThreads κ) (r : SystemResult) : Option (LogThreads κ) :=
  match s.syncer with
  | .absent | .exited => none
  | .locking =>
      if s.mutex.isNone then some { s with mutex := some .syncer, syncer := .checking } else none
  | .checking =>
      if s.stopping then some { s with mutex := none, syncer := .exited }
      else some { s with mutex := none, syncer := .waiting }
  -- the second is over, a notification came, or neither
  | .waiting => some { s with syncer := .waking }
  | .waking =>
      if s.mutex.isNone then some { s with mutex := some .syncer, syncer := .flushing } else none
  | .flushing =>
      if s.log.file.dirty then
        match r with
        | .done =>
            some { s with
              log := s.log.flushed
              syncer := .checking
              history := s.history ++ [(.sync true, .ok ())] }
        | .failed _ =>
            some { s with syncer := .checking, history := s.history ++ [(.sync false, .ok ())] }
        | _ => none
      else some { s with syncer := .checking }

/-- `::close` and the rest of `close`, after the `fsync` if there is one. -/
def shut (s : LogThreads κ) (synced : Bool) : LogThreads κ :=
  { s.setFile { s.log.file with opened := false, dirty := false } with
    mutex := none
    owner := .idle
    history := s.history ++ [(.close synced, .ok ())] }

def ownerStep (s : LogThreads κ) (r : SystemResult) : Option (LogThreads κ) :=
  match s.owner with
  | .idle => none
  | .openLocking o =>
      if s.mutex.isNone then some { s with mutex := some .owner, owner := .opening o } else none
  | .opening o =>
      let (result, file, disk) := s.log.file.open s.log.disk o
      let opens := !s.log.file.opened && file.opened
      some { s with
        log := { s.log with file, disk }
        stopping := if opens then false else s.stopping
        mutex := none
        owner := .idle
        syncer := if opens && file.fsyncPolicy = .everySec then .locking else s.syncer
        history := s.history ++ [(.open o, result)] }
  | .closeLocking =>
      if s.mutex.isNone then some { s with mutex := some .owner, owner := .stopping } else none
  | .stopping =>
      if !s.log.file.opened then some { s with mutex := none, owner := .idle }
      else some { s with stopping := true, mutex := none, owner := .joining }
  | .joining =>
      if s.syncer = .absent ∨ s.syncer = .exited then
        some { s with syncer := .absent, owner := .relocking }
      else none
  | .relocking =>
      if s.mutex.isNone then some { s with mutex := some .owner, owner := .closing } else none
  | .closing =>
      if !s.log.file.opened then some { s with mutex := none, owner := .idle }
      else if s.log.file.dirty ∧ s.log.file.fsyncPolicy ≠ .never then
        match r with
        | .done => some ({ s with log := s.log.flushed }.shut true)
        | .failed _ => some (s.shut false)
        | _ => none
      -- nothing is left to sync, or nothing ever is
      else some (s.shut true)

/-- Without persistence nothing happens. -/
def step (s : LogThreads κ) : LogThreadsEvent κ → Option (LogThreads κ)
  | .append k line =>
      if s.appenders k = .idle ∧ s.log.file.enabled then
        some { s with appenders := Function.update s.appenders k (.locking line) }
      else none
  | .open o =>
      match s.owner with
      | .idle => if s.log.file.enabled then some { s with owner := .openLocking o } else none
      | _ => none
  | .close =>
      match s.owner with
      | .idle => some { s with owner := .closeLocking }
      | _ => none
  | .appender k r => s.appenderStep k r
  | .syncer r => s.syncerStep r
  | .owner r => s.ownerStep r

/-! ## What a step can do -/

/-- The steps, each with the state it leads to. -/
inductive Step (s : LogThreads κ) : LogThreads κ → Prop
  | callAppend (k : κ) (line : Bytes) (hpc : s.appenders k = .idle) :
      Step s { s with appenders := Function.update s.appenders k (.locking line) }
  | lockAppend (k : κ) (line : Bytes) (hpc : s.appenders k = .locking line)
      (hfree : s.mutex = none) :
      Step s { s with
        mutex := some (.appender k), appenders := Function.update s.appenders k (.entered line) }
  | refuse (k : κ) (line : Bytes) (hpc : s.appenders k = .entered line)
      (hclosed : s.log.file.opened = false) :
      Step s (s.leave k line { accepted := 0 } (.error (ascii "AOF file is not open")))
  | number (k : κ) (line : Bytes) (hpc : s.appenders k = .entered line)
      (hopened : s.log.file.opened = true) :
      Step s { s.setFile { s.log.file with sequence := s.log.file.sequence + 1 } with
        appenders := Function.update s.appenders k (.writing line 0) }
  | write (k : κ) (line : Bytes) (written count : ℕ) (hpc : s.appenders k = .writing line written)
      (hcount : count ≤ ((numberedLine s.log.file.sequence line).drop written).length)
      (hsize : s.log.size + count ≤ maxFileSize) :
      Step s { s with
        log := { s.log with disk := { s.log.disk with
          aof := some (s.log.disk.aof.getD [] ++
            ((numberedLine s.log.file.sequence line).drop written).take count) } }
        appenders := Function.update s.appenders k (.writing line (written + count)) }
  | retry : Step s s
  | fail (k : κ) (line : Bytes) (written : ℕ) (reason : Bytes)
      (hpc : s.appenders k = .writing line written)
      (hleft : (numberedLine s.log.file.sequence line).drop written ≠ []) :
      Step s (s.leave k line { accepted := written, strerror := reason }
        (.error (ascii "write failed: " ++ reason)))
  | finish (k : κ) (line : Bytes) (written : ℕ) (hpc : s.appenders k = .writing line written)
      (hdone : (numberedLine s.log.file.sequence line).drop written = [])
      (hpolicy : s.log.file.fsyncPolicy ≠ .always) :
      Step s ((s.setFile { s.log.file with dirty := true }).leave k line
        { accepted := written } (.ok ()))
  | soil (k : κ) (line : Bytes) (written : ℕ) (hpc : s.appenders k = .writing line written)
      (hdone : (numberedLine s.log.file.sequence line).drop written = [])
      (hpolicy : s.log.file.fsyncPolicy = .always) :
      Step s { s.setFile { s.log.file with dirty := true } with
        appenders := Function.update s.appenders k (.syncing line) }
  | synced (k : κ) (line : Bytes) (hpc : s.appenders k = .syncing line) :
      Step s ({ s with log := s.log.flushed }.leave k line
        { accepted := (numberedLine s.log.file.sequence line).length } (.ok ()))
  | unsynced (k : κ) (line reason : Bytes) (hpc : s.appenders k = .syncing line) :
      Step s (s.leave k line
        { accepted := (numberedLine s.log.file.sequence line).length
          synced := false
          strerror := reason } (.error (ascii "fsync failed: " ++ reason)))
  | lockSyncer (pc : SyncerPc) (hfree : s.mutex = none)
      (hpc : s.syncer = .locking ∧ pc = .checking ∨ s.syncer = .waking ∧ pc = .flushing) :
      Step s { s with mutex := some .syncer, syncer := pc }
  | unlockSyncer (pc : SyncerPc) (hpc : s.syncer = .checking)
      (hnext : s.stopping = true ∧ pc = .exited ∨ s.stopping = false ∧ pc = .waiting) :
      Step s { s with mutex := none, syncer := pc }
  | wake (hpc : s.syncer = .waiting) : Step s { s with syncer := .waking }
  | clean (hpc : s.syncer = .flushing) : Step s { s with syncer := .checking }
  | flush (hpc : s.syncer = .flushing) :
      Step s { s with
        log := s.log.flushed
        syncer := .checking
        history := s.history ++ [(.sync true, .ok ())] }
  | flushFail (hpc : s.syncer = .flushing) :
      Step s { s with syncer := .checking, history := s.history ++ [(.sync false, .ok ())] }
  | callOwner (pc : OwnerPc) (hpc : s.owner = .idle)
      (hnext : (∃ o, pc = .openLocking o) ∨ pc = .closeLocking) : Step s { s with owner := pc }
  | lockOwner (pc : OwnerPc) (hfree : s.mutex = none)
      (hpc : (∃ o, s.owner = .openLocking o ∧ pc = .opening o) ∨
        s.owner = .closeLocking ∧ pc = .stopping ∨ s.owner = .relocking ∧ pc = .closing) :
      Step s { s with mutex := some .owner, owner := pc }
  | openFail (o : OpenOutcome) (hpc : s.owner = .opening o) (result : Except Bytes Unit)
      (hopen : s.log.file.open s.log.disk o = (result, s.log.file, s.log.disk)) :
      Step s { s with
        mutex := none, owner := .idle, history := s.history ++ [(.open o, result)] }
  | open (o : OpenOutcome) (hpc : s.owner = .opening o) (hclosed : s.log.file.opened = false)
      (file : AppendOnlyFile) (hfile : file = { s.log.file with opened := true, dirty := false })
      (disk : Disk) (hdisk : disk = { s.log.disk with aof := some (s.log.disk.aof.getD []) })
      (hopen : s.log.file.open s.log.disk o = (.ok (), file, disk)) :
      Step s { s with
        log := { s.log with file, disk }
        stopping := false
        mutex := none
        owner := .idle
        syncer := if s.log.file.fsyncPolicy = .everySec then .locking else s.syncer
        history := s.history ++ [(.open o, .ok ())] }
  | nothing (hpc : s.owner = .stopping ∨ s.owner = .closing)
      (hclosed : s.log.file.opened = false) : Step s { s with mutex := none, owner := .idle }
  | stop (hpc : s.owner = .stopping) (hopened : s.log.file.opened = true) :
      Step s { s with stopping := true, mutex := none, owner := .joining }
  | join (hpc : s.owner = .joining) (hexited : s.syncer = .absent ∨ s.syncer = .exited) :
      Step s { s with syncer := .absent, owner := .relocking }
  | shutSynced (hpc : s.owner = .closing) (hopened : s.log.file.opened = true)
      (hdirty : s.log.file.dirty = true) (hpolicy : s.log.file.fsyncPolicy ≠ .never) :
      Step s ({ s with log := s.log.flushed }.shut true)
  | shutFail (hpc : s.owner = .closing) (hopened : s.log.file.opened = true) :
      Step s (s.shut false)
  | shut (hpc : s.owner = .closing) (hopened : s.log.file.opened = true)
      (hclean : ¬(s.log.file.dirty = true ∧ s.log.file.fsyncPolicy ≠ .never)) : Step s (s.shut true)

variable {s s' : LogThreads κ}

theorem step_of_appenderStep {k : κ} {r : SystemResult} (h : s.appenderStep k r = some s') :
    Step s s' := by
  unfold appenderStep at h
  dsimp only at h
  split at h
  · simp at h
  · rename_i line hpc
    simp only [Option.isNone_iff_eq_none, Option.ite_none_right_eq_some, Option.some.injEq] at h
    exact h.2 ▸ .lockAppend k line hpc h.1
  · rename_i line hpc
    split at h
    · rename_i hclosed
      exact Option.some.inj h ▸ .refuse k line hpc (by simpa using hclosed)
    · rename_i hopened
      exact Option.some.inj h ▸ .number k line hpc (by simpa using hopened)
  · rename_i line written hpc
    split at h
    · rename_i hdone
      split at h
      · rename_i hpolicy
        exact Option.some.inj h ▸ .soil k line written hpc hdone hpolicy
      · rename_i hpolicy
        exact Option.some.inj h ▸ .finish k line written hpc hdone hpolicy
    · rename_i hleft
      split at h
      · rename_i count
        simp only [Option.ite_none_right_eq_some, Option.some.injEq] at h
        exact h.2 ▸ .write k line written count hpc h.1.1 h.1.2
      · exact Option.some.inj h ▸ .retry
      · rename_i reason
        exact Option.some.inj h ▸ .fail k line written reason hpc hleft
      · simp at h
  · rename_i line hpc
    split at h
    · exact Option.some.inj h ▸ .synced k line hpc
    · rename_i reason
      exact Option.some.inj h ▸ .unsynced k line reason hpc
    · simp at h

omit [DecidableEq κ] in
theorem step_of_syncerStep [DecidableEq κ] {r : SystemResult} (h : s.syncerStep r = some s') :
    Step s s' := by
  unfold syncerStep at h
  split at h
  · simp at h
  · simp at h
  · rename_i hpc
    simp only [Option.isNone_iff_eq_none, Option.ite_none_right_eq_some, Option.some.injEq] at h
    exact h.2 ▸ .lockSyncer _ h.1 (Or.inl ⟨hpc, rfl⟩)
  · rename_i hpc
    split at h
    · rename_i hstop
      exact Option.some.inj h ▸ .unlockSyncer _ hpc (Or.inl ⟨hstop, rfl⟩)
    · rename_i hstop
      exact Option.some.inj h ▸ .unlockSyncer _ hpc (Or.inr ⟨by simpa using hstop, rfl⟩)
  · rename_i hpc
    exact Option.some.inj h ▸ .wake hpc
  · rename_i hpc
    simp only [Option.isNone_iff_eq_none, Option.ite_none_right_eq_some, Option.some.injEq] at h
    exact h.2 ▸ .lockSyncer _ h.1 (Or.inr ⟨hpc, rfl⟩)
  · rename_i hpc
    split at h
    · split at h
      · exact Option.some.inj h ▸ .flush hpc
      · exact Option.some.inj h ▸ .flushFail hpc
      · simp at h
    · exact Option.some.inj h ▸ .clean hpc

theorem open_cases (f : AppendOnlyFile) (disk : Disk) (o : OpenOutcome) :
    (∃ result, f.open disk o = (result, f, disk)) ∨
      f.opened = false ∧ f.open disk o = (.ok (), { f with opened := true, dirty := false },
        { disk with aof := some (disk.aof.getD []) }) := by
  unfold AppendOnlyFile.open
  split
  · exact Or.inl ⟨_, rfl⟩
  rename_i hnew
  split
  · exact Or.inl ⟨_, rfl⟩
  split
  · exact Or.inl ⟨_, rfl⟩
  · exact Or.inr ⟨by simpa using (not_or.mp hnew).2, rfl⟩

theorem step_of_ownerStep {r : SystemResult} (h : s.ownerStep r = some s') : Step s s' := by
  unfold ownerStep at h
  split at h
  · simp at h
  · rename_i o hpc
    simp only [Option.isNone_iff_eq_none, Option.ite_none_right_eq_some, Option.some.injEq] at h
    exact h.2 ▸ .lockOwner _ h.1 (Or.inl ⟨o, hpc, rfl⟩)
  · rename_i o hpc
    dsimp only at h
    rcases open_cases s.log.file s.log.disk o with ⟨result, hopen⟩ | ⟨hclosed, hopen⟩
    · rw [hopen] at h
      have hstep := Step.openFail (s := s) o hpc result hopen
      simpa [← Option.some.inj h] using hstep
    · rw [hopen] at h
      have hstep := Step.open (s := s) o hpc hclosed _ rfl _ rfl hopen
      simpa [← Option.some.inj h, hclosed] using hstep
  · rename_i hpc
    simp only [Option.isNone_iff_eq_none, Option.ite_none_right_eq_some, Option.some.injEq] at h
    exact h.2 ▸ .lockOwner _ h.1 (Or.inr (Or.inl ⟨hpc, rfl⟩))
  · rename_i hpc
    split at h
    · rename_i hclosed
      exact Option.some.inj h ▸ .nothing (Or.inl hpc) (by simpa using hclosed)
    · rename_i hopened
      exact Option.some.inj h ▸ .stop hpc (by simpa using hopened)
  · rename_i hpc
    simp only [Option.ite_none_right_eq_some, Option.some.injEq] at h
    exact h.2 ▸ .join hpc h.1
  · rename_i hpc
    simp only [Option.isNone_iff_eq_none, Option.ite_none_right_eq_some, Option.some.injEq] at h
    exact h.2 ▸ .lockOwner _ h.1 (Or.inr (Or.inr ⟨hpc, rfl⟩))
  · rename_i hpc
    split at h
    · rename_i hclosed
      exact Option.some.inj h ▸ .nothing (Or.inr hpc) (by simpa using hclosed)
    rename_i hopened
    have hopened : s.log.file.opened = true := by simpa using hopened
    split at h
    · rename_i hdirty
      split at h
      · exact Option.some.inj h ▸ .shutSynced hpc hopened hdirty.1 hdirty.2
      · exact Option.some.inj h ▸ .shutFail hpc hopened
      · simp at h
    · rename_i hclean
      exact Option.some.inj h ▸ .shut hpc hopened hclean

theorem step_of_event {e : LogThreadsEvent κ} (h : s.step e = some s') : Step s s' := by
  cases e with
  | append k line =>
      simp only [step, Option.ite_none_right_eq_some, Option.some.injEq] at h
      exact h.2 ▸ .callAppend k line h.1.1
  | «open» o =>
      simp only [step] at h
      split at h
      · rename_i hpc
        simp only [Option.ite_none_right_eq_some, Option.some.injEq] at h
        exact h.2 ▸ .callOwner _ hpc (Or.inl ⟨o, rfl⟩)
      · simp at h
  | close =>
      simp only [step] at h
      split at h
      · rename_i hpc
        exact Option.some.inj h ▸ .callOwner _ hpc (Or.inr rfl)
      · simp at h
  | appender k r => exact step_of_appenderStep h
  | syncer r => exact step_of_syncerStep h
  | owner r => exact step_of_ownerStep h

end LogThreads

/-! ## The sections are atomic -/

namespace Log

theorem Explains.concat {l₀ l : Log} {history : List (LogCall × Except Bytes Unit)} (call : LogCall)
    (h : Explains l₀ history l) :
    Explains l₀ (history ++ [(call, (l.perform call).1)]) (l.perform call).2 := by
  induction history generalizing l₀ with
  | nil =>
      obtain rfl : l₀ = l := h
      exact ⟨rfl, rfl⟩
  | cons entry rest ih => exact ⟨h.1, ih h.2⟩

/-- An append on its way: the number is taken and so many bytes are written. -/
def wrote (l : Log) (line : Bytes) (written : ℕ) : Log :=
  { l with
    file := { l.file with sequence := l.file.sequence + 1 }
    disk := { l.disk with
      aof := some (l.disk.aof.getD [] ++ (numberedLine (l.file.sequence + 1) line).take written) } }

def soiled (l : Log) : Log := { l with file := { l.file with dirty := true } }

variable {l : Log} {line : Bytes} {written : ℕ}

/-- The bytes that an append writes fit into the file. -/
def Fits (l : Log) (line : Bytes) (written : ℕ) : Prop :=
  written ≤ (numberedLine (l.file.sequence + 1) line).length ∧
    (written = 0 ∨ l.size + written ≤ maxFileSize)

theorem writeAll_of_fits (h : l.Fits line written) (strerror : Bytes) :
    writeAll written strerror (l.disk.aof.getD []) (numberedLine (l.file.sequence + 1) line) =
      (if (numberedLine (l.file.sequence + 1) line).length ≤ written then .ok ()
        else .error (ascii "write failed: " ++ strerror),
        l.disk.aof.getD [] ++ (numberedLine (l.file.sequence + 1) line).take written) := by
  have hroom : min written (maxFileSize - (l.disk.aof.getD []).length) = written := by
    rcases h.2 with rfl | hsize
    · simp
    · rw [size] at hsize
      omega
  rw [writeAll, hroom]

theorem appendLine_of_opened {f : AppendOnlyFile} (henabled : f.enabled = true)
    (hopened : f.opened = true) (disk : Disk) (o : WriteOutcome) (line : Bytes) :
    f.appendLine disk o line =
      { f with sequence := f.sequence + 1 }.writeRecordLocked disk o
        (numberedLine (f.sequence + 1) line) := by
  simp only [appendLine, henabled, hopened, Bool.not_true, Bool.false_eq_true, if_false,
    numberedLine]

/-- How an append ends, by what the system has said. -/
theorem perform_append (henabled : l.file.enabled = true) (hopened : l.file.opened = true)
    (h : l.Fits line written) (synced : Bool) (strerror : Bytes) :
    l.perform (.append line { accepted := written, synced, strerror }) =
      if (numberedLine (l.file.sequence + 1) line).length ≤ written then
        if l.file.fsyncPolicy = .always then
          if synced then (.ok (), ((l.wrote line written).soiled).flushed)
          else (.error (ascii "fsync failed: " ++ strerror), (l.wrote line written).soiled)
        else (.ok (), (l.wrote line written).soiled)
      else (.error (ascii "write failed: " ++ strerror), l.wrote line written) := by
  have hwrite := writeAll_of_fits h strerror
  simp only [perform, appendLine_of_opened henabled hopened, writeRecordLocked, hwrite]
  by_cases hfull : (numberedLine (l.file.sequence + 1) line).length ≤ written
  · rw [if_pos hfull, if_pos hfull]
    by_cases hpolicy : l.file.fsyncPolicy = .always
    · cases synced <;> simp [hpolicy, henabled, hopened, syncLocked, wrote, soiled, flushed, size]
    · simp [hpolicy, wrote, soiled]
  · rw [if_neg hfull, if_neg hfull]
    simp [wrote]

end Log

/-! ## The sync thread and the descriptor -/

namespace LogThreads

variable {κ : Type*} {s s' : LogThreads κ}

/-- The sync thread lives while the log is open, and it is gone before the log is
closed. -/
structure Tended (s : LogThreads κ) : Prop where
  opened : s.syncer ≠ .absent → s.log.file.opened = true
  closing : s.owner.Closing → s.log.file.opened = true ∧ s.stopping = true
  joined : s.owner = .relocking ∨ s.owner = .closing → s.syncer = .absent
  stopped : s.syncer = .exited → s.stopping = true
  owned : s.stopping = true → s.log.file.opened = true → s.owner.Closing
  alive : s.log.file.opened = true → s.log.file.fsyncPolicy = .everySec → s.stopping = false →
    s.syncer ≠ .absent

theorem Tended.congr (h : Tended s) (hsyncer : s'.syncer = s.syncer) (howner : s'.owner = s.owner)
    (hstopping : s'.stopping = s.stopping) (hopened : s'.log.file.opened = s.log.file.opened)
    (hpolicy : s'.log.file.fsyncPolicy = s.log.file.fsyncPolicy) : Tended s' := by
  obtain ⟨h₁, h₂, h₃, h₄, h₅, h₆⟩ := h
  constructor <;> simpa only [hsyncer, howner, hstopping, hopened, hpolicy]

variable [DecidableEq κ]

theorem tended_step (h : Tended s) (hstep : Step s s') : Tended s' := by
  obtain ⟨hopened, hclosing, hjoined, hstopped, howned, halive⟩ := id h
  cases hstep with
  | callAppend | lockAppend | refuse | number | write | retry | fail | finish | soil | synced
  | unsynced => exact h.congr rfl rfl rfl rfl rfl
  | lockSyncer pc hfree hpc =>
      rcases hpc with ⟨hpc, rfl⟩ | ⟨hpc, rfl⟩ <;> constructor <;> simp_all
  | unlockSyncer pc hpc hnext =>
      rcases hnext with ⟨hstop, rfl⟩ | ⟨hstop, rfl⟩ <;> constructor <;> simp_all
  | wake hpc | clean hpc | flush hpc | flushFail hpc =>
      constructor <;> simp_all [Log.flushed]
  | callOwner pc hpc hnext =>
      rcases hnext with ⟨o, rfl⟩ | rfl <;> constructor <;> simp_all [OwnerPc.Closing]
  | lockOwner pc hfree hpc =>
      rcases hpc with ⟨o, hpc, rfl⟩ | ⟨hpc, rfl⟩ | ⟨hpc, rfl⟩ <;> constructor <;>
        simp_all [OwnerPc.Closing]
  | openFail o hpc result hopen => constructor <;> simp_all [OwnerPc.Closing]
  | «open» o hpc hclosed file hfile disk hdisk hopen =>
      by_cases hevery : s.log.file.fsyncPolicy = .everySec <;> constructor <;>
        simp_all [OwnerPc.Closing]
  | nothing hpc hclosed => constructor <;> simp_all [OwnerPc.Closing]
  | stop hpc hopen => constructor <;> simp_all [OwnerPc.Closing]
  | join hpc hexited => constructor <;> simp_all [OwnerPc.Closing]
  | shutSynced hpc hopen hdirty hpolicy =>
      constructor <;> simp_all [LogThreads.shut, setFile, OwnerPc.Closing]
  | shutFail hpc hopen | shut hpc hopen hclean =>
      constructor <;> simp_all [LogThreads.shut, setFile, OwnerPc.Closing]

end LogThreads

/-! ## The sections follow one another -/

/-- What `append_line` has made of the log since it took the lock. -/
def AppenderPc.Since (before now : Log) : AppenderPc → Prop
  | .writing line written =>
      before.file.opened = true ∧ before.Fits line written ∧ now = before.wrote line written
  | .syncing line =>
      let length := (numberedLine (before.file.sequence + 1) line).length
      before.file.opened = true ∧ before.file.fsyncPolicy = .always ∧ before.Fits line length ∧
        now = (before.wrote line length).soiled
  | _ => now = before

namespace LogThreads

variable {κ : Type*} {s s' : LogThreads κ} {l₀ : Log}

def inside (s : LogThreads κ) : LogThread κ → Bool
  | .appender k => (s.appenders k).inside
  | .syncer => s.syncer.inside
  | .owner => s.owner.inside

/-- What a thread has made of the log since it took the lock. -/
def Since (s : LogThreads κ) (before : Log) : LogThread κ → Prop
  | .appender k => (s.appenders k).Since before s.log
  | _ => s.log = before

/-- The mutex belongs to the thread inside.  What it finds is what the finished
sections have left, one after another. -/
structure Serial (l₀ : Log) (s : LogThreads κ) : Prop where
  enabled : s.log.file.enabled = true
  present : s.log.file.opened = true → s.log.disk.aof = some (s.log.disk.aof.getD [])
  holder : Guards s.mutex fun t ↦ s.inside t = true
  free : s.mutex = none → l₀.Explains s.history s.log
  since : ∀ t, s.mutex = some t → ∃ before, l₀.Explains s.history before ∧ s.Since before t

/-- A thread moves outside. -/
theorem Serial.outside (h : Serial l₀ s) {t : LogThread κ} (hlog : s'.log = s.log)
    (hmutex : s'.mutex = s.mutex) (hhistory : s'.history = s.history) (hout : s'.inside t = false)
    (hothers : ∀ u, u ≠ t → s'.inside u = true → s.inside u = true)
    (hsince : ∀ u before, s.Since before u → s'.Since before u) : Serial l₀ s' := by
  refine ⟨hlog ▸ h.enabled, hlog ▸ h.present, ?_, ?_, ?_⟩
  · rw [hmutex]
    exact h.holder.outside (by simp [hout]) hothers
  · rw [hmutex, hhistory, hlog]
    exact h.free
  · intro u hu
    rw [hmutex] at hu
    obtain ⟨before, hbefore, hu⟩ := h.since u hu
    exact ⟨before, hhistory ▸ hbefore, hsince u before hu⟩

/-- The thread `t` takes the free lock. -/
theorem Serial.acquire (h : Serial l₀ s) {t : LogThread κ} (hfree : s.mutex = none)
    (hlog : s'.log = s.log) (hmutex : s'.mutex = some t) (hhistory : s'.history = s.history)
    (hothers : ∀ u, u ≠ t → s'.inside u = true → s.inside u = true)
    (hsince : s'.Since s.log t) : Serial l₀ s' := by
  refine ⟨hlog ▸ h.enabled, hlog ▸ h.present, ?_, fun hnone ↦ ?_, fun u hu ↦ ?_⟩
  · rw [hmutex]
    exact h.holder.acquire hfree hothers
  · rw [hmutex] at hnone
    simp at hnone
  · rw [hmutex] at hu
    obtain rfl := Option.some.inj hu
    exact ⟨s.log, hhistory ▸ h.free hfree, hsince⟩

/-- The thread inside goes on. -/
theorem Serial.keep (h : Serial l₀ s) {t : LogThread κ} (hin : s.inside t = true)
    (henabled : s'.log.file.enabled = true)
    (hpresent : s'.log.file.opened = true → s'.log.disk.aof = some (s'.log.disk.aof.getD []))
    (hmutex : s'.mutex = s.mutex)
    (hothers : ∀ u, u ≠ t → s'.inside u = true → s.inside u = true)
    (hsince : ∀ before, l₀.Explains s.history before → s.Since before t →
      ∃ before', l₀.Explains s'.history before' ∧ s'.Since before' t) : Serial l₀ s' := by
  have ht := h.holder t hin
  refine ⟨henabled, hpresent, ?_, fun hnone ↦ ?_, fun u hu ↦ ?_⟩
  · rw [hmutex]
    exact h.holder.stay hin hothers
  · rw [hmutex, ht] at hnone
    simp at hnone
  · rw [hmutex, ht] at hu
    obtain rfl := Option.some.inj hu
    obtain ⟨before, hbefore, hdone⟩ := h.since t ht
    exact hsince before hbefore hdone

/-- The thread inside leaves, and its section is over. -/
theorem Serial.release (h : Serial l₀ s) {t : LogThread κ} (hin : s.inside t = true)
    (henabled : s'.log.file.enabled = true)
    (hpresent : s'.log.file.opened = true → s'.log.disk.aof = some (s'.log.disk.aof.getD []))
    (hmutex : s'.mutex = none) (hout : s'.inside t = false)
    (hothers : ∀ u, u ≠ t → s'.inside u = true → s.inside u = true)
    (hexplains : ∀ before, l₀.Explains s.history before → s.Since before t →
      l₀.Explains s'.history s'.log) : Serial l₀ s' := by
  obtain ⟨before, hbefore, hdone⟩ := h.since t (h.holder t hin)
  refine ⟨henabled, hpresent, ?_, fun _ ↦ hexplains before hbefore hdone, fun u hu ↦ ?_⟩
  · rw [hmutex]
    exact h.holder.release hin (by simp [hout]) hothers
  · rw [hmutex] at hu
    simp at hu

variable [DecidableEq κ]

/-! Moving one thread leaves the others where they are. -/

omit [DecidableEq κ] in
theorem since_congr (hlog : s'.log = s.log) (happenders : s'.appenders = s.appenders)
    (u : LogThread κ) (before : Log) (h : s.Since before u) : s'.Since before u := by
  cases u with
  | appender k =>
      rw [Since, hlog, happenders]
      exact h
  | syncer | owner => exact hlog.trans h

theorem inside_of_appender {k : κ} {pc : AppenderPc}
    (happenders : s'.appenders = Function.update s.appenders k pc) (hsyncer : s'.syncer = s.syncer)
    (howner : s'.owner = s.owner) (u : LogThread κ) (hu : u ≠ .appender k)
    (h : s'.inside u = true) : s.inside u = true := by
  cases u with
  | appender j =>
      rw [inside, happenders, Function.update_of_ne fun hj ↦ hu (congrArg _ hj)] at h
      exact h
  | syncer =>
      rw [inside, hsyncer] at h
      exact h
  | owner =>
      rw [inside, howner] at h
      exact h

omit [DecidableEq κ] in
theorem inside_of_syncer (happenders : s'.appenders = s.appenders) (howner : s'.owner = s.owner)
    (u : LogThread κ) (hu : u ≠ .syncer) (h : s'.inside u = true) : s.inside u = true := by
  cases u with
  | appender j =>
      rw [inside, happenders] at h
      exact h
  | syncer => exact absurd rfl hu
  | owner =>
      rw [inside, howner] at h
      exact h

omit [DecidableEq κ] in
theorem inside_of_owner (happenders : s'.appenders = s.appenders)
    (hsyncer : s'.syncer.inside = true → s.syncer.inside = true) (u : LogThread κ)
    (hu : u ≠ .owner) (h : s'.inside u = true) : s.inside u = true := by
  cases u with
  | appender j =>
      rw [inside, happenders] at h
      exact h
  | syncer => exact hsyncer h
  | owner => exact absurd rfl hu

theorem serial_leave (h : Serial l₀ s) {k : κ} (log : Log) (hin : (s.appenders k).inside = true)
    (henabled : log.file.enabled = true)
    (hpresent : log.file.opened = true → log.disk.aof = some (log.disk.aof.getD []))
    {line : Bytes} {o : WriteOutcome} {result : Except Bytes Unit}
    (hperform : ∀ before, (s.appenders k).Since before s.log →
      before.perform (.append line o) = (result, log)) :
    Serial l₀ ({ s with log := log }.leave k line o result) := by
  refine h.release (t := .appender k) hin henabled hpresent rfl
    (by simp [inside, leave, AppenderPc.inside]) (inside_of_appender rfl rfl rfl) ?_
  intro before hbefore hsince
  have hnext := hbefore.concat (.append line o)
  rw [hperform before hsince] at hnext
  exact hnext

omit [DecidableEq κ] in
/-- An append that has been written in part or as a whole. -/
theorem Serial.writing (h : Serial l₀ s) {k : κ} {line : Bytes} {written : ℕ}
    (hpc : s.appenders k = .writing line written) {before : Log}
    (hsince : (s.appenders k).Since before s.log) :
    before.file.enabled = true ∧ before.file.opened = true ∧ before.Fits line written ∧
      s.log = before.wrote line written := by
  rw [hpc] at hsince
  obtain ⟨hopened, hfits, hlog⟩ := hsince
  refine ⟨?_, hopened, hfits, hlog⟩
  have henabled := h.enabled
  rwa [hlog] at henabled

theorem serial_appender (h : Serial l₀ s) {k : κ} {line : Bytes} {written count : ℕ}
    (hpc : s.appenders k = .writing line written)
    (hcount : count ≤ ((numberedLine s.log.file.sequence line).drop written).length)
    (hsize : s.log.size + count ≤ maxFileSize) :
    Serial l₀ { s with
      log := { s.log with disk := { s.log.disk with
        aof := some (s.log.disk.aof.getD [] ++
          ((numberedLine s.log.file.sequence line).drop written).take count) } }
      appenders := Function.update s.appenders k (.writing line (written + count)) } := by
  refine h.keep (t := .appender k) (by simp [inside, hpc, AppenderPc.inside]) h.enabled
    (fun _ ↦ by simp) rfl (inside_of_appender rfl rfl rfl) ?_
  intro before hbefore hsince
  obtain ⟨-, hopened, hfits, hlog⟩ := h.writing hpc hsince
  refine ⟨before, hbefore, ?_⟩
  simp only [Since, Function.update_self]
  have hsequence : s.log.file.sequence = before.file.sequence + 1 := by rw [hlog]; rfl
  have hlength : s.log.size = before.size + written := by
    rw [hlog]
    simp only [Log.size, Log.wrote, Option.getD_some, List.length_append, List.length_take,
      min_eq_left hfits.1]
  have hwritten := hfits.1
  rw [hsequence, List.length_drop] at hcount
  refine ⟨hopened, ⟨by omega, Or.inr (by omega)⟩, ?_⟩
  rw [hsequence, hlog]
  simp [Log.wrote, List.take_add]

/-! ### Steps of an append -/

theorem serial_callAppend (h : Serial l₀ s) {k : κ} (line : Bytes) (hpc : s.appenders k = .idle) :
    Serial l₀ { s with appenders := Function.update s.appenders k (.locking line) } := by
  refine h.outside (t := .appender k) rfl rfl rfl (by simp [inside, AppenderPc.inside])
    (inside_of_appender rfl rfl rfl) fun u before hu ↦ ?_
  cases u with
  | appender j =>
      by_cases hjk : j = k
      · subst hjk
        simpa [Since, AppenderPc.Since, hpc] using hu
      · simpa [Since, Function.update_of_ne hjk] using hu
  | syncer | owner => exact hu

theorem serial_refuse (h : Serial l₀ s) {k : κ} {line : Bytes} (hpc : s.appenders k = .entered line)
    (hclosed : s.log.file.opened = false) :
    Serial l₀ (s.leave k line { accepted := 0 } (.error (ascii "AOF file is not open"))) := by
  refine serial_leave h s.log (by simp [hpc, AppenderPc.inside]) h.enabled h.present ?_
  intro before hsince
  rw [hpc] at hsince
  obtain rfl : s.log = before := hsince
  simp [Log.perform, appendLine, h.enabled, hclosed]

theorem serial_number (h : Serial l₀ s) {k : κ} {line : Bytes} (hpc : s.appenders k = .entered line)
    (hopened : s.log.file.opened = true) :
    Serial l₀ { s.setFile { s.log.file with sequence := s.log.file.sequence + 1 } with
      appenders := Function.update s.appenders k (.writing line 0) } := by
  refine h.keep (t := .appender k) (by simp [inside, hpc, AppenderPc.inside]) h.enabled
    h.present rfl (inside_of_appender rfl rfl rfl)
    fun before hbefore hsince ↦ ⟨before, hbefore, ?_⟩
  simp only [Since, hpc] at hsince
  obtain rfl : s.log = before := hsince
  simp only [Since, Function.update_self]
  refine ⟨hopened, ⟨Nat.zero_le _, Or.inl rfl⟩, ?_⟩
  simp only [setFile, Log.wrote, List.take_zero, List.append_nil, ← h.present hopened]

theorem serial_fail (h : Serial l₀ s) {k : κ} {line : Bytes} {written : ℕ} (reason : Bytes)
    (hpc : s.appenders k = .writing line written)
    (hleft : (numberedLine s.log.file.sequence line).drop written ≠ []) :
    Serial l₀ (s.leave k line { accepted := written, strerror := reason }
      (.error (ascii "write failed: " ++ reason))) := by
  refine serial_leave h s.log (by simp [hpc, AppenderPc.inside]) h.enabled h.present ?_
  intro before hsince
  obtain ⟨henabled, hopened, hfits, hlog⟩ := h.writing hpc hsince
  rw [Log.perform_append henabled hopened hfits true reason, if_neg, hlog]
  intro hfull
  apply hleft
  rw [hlog]
  exact List.drop_of_length_le hfull

theorem serial_finish (h : Serial l₀ s) {k : κ} {line : Bytes} {written : ℕ}
    (hpc : s.appenders k = .writing line written)
    (hdone : (numberedLine s.log.file.sequence line).drop written = [])
    (hpolicy : s.log.file.fsyncPolicy ≠ .always) :
    Serial l₀ ((s.setFile { s.log.file with dirty := true }).leave k line
      { accepted := written } (.ok ())) := by
  refine serial_leave h s.log.soiled (by simp [hpc, AppenderPc.inside]) h.enabled h.present ?_
  intro before hsince
  obtain ⟨henabled, hopened, hfits, hlog⟩ := h.writing hpc hsince
  rw [hlog] at hdone hpolicy ⊢
  have hfull : (numberedLine (before.file.sequence + 1) line).length ≤ written :=
    List.drop_eq_nil_iff.mp hdone
  rw [Log.perform_append henabled hopened hfits true [], if_pos hfull]
  exact if_neg hpolicy

theorem serial_soil (h : Serial l₀ s) {k : κ} {line : Bytes} {written : ℕ}
    (hpc : s.appenders k = .writing line written)
    (hdone : (numberedLine s.log.file.sequence line).drop written = [])
    (hpolicy : s.log.file.fsyncPolicy = .always) :
    Serial l₀ { s.setFile { s.log.file with dirty := true } with
      appenders := Function.update s.appenders k (.syncing line) } := by
  refine h.keep (t := .appender k) (by simp [inside, hpc, AppenderPc.inside]) h.enabled
    h.present rfl (inside_of_appender rfl rfl rfl)
    fun before hbefore hsince ↦ ⟨before, hbefore, ?_⟩
  obtain ⟨-, hopened, hfits, hlog⟩ := h.writing hpc hsince
  rw [hlog] at hdone hpolicy
  have hwritten : written = (numberedLine (before.file.sequence + 1) line).length :=
    le_antisymm hfits.1 (List.drop_eq_nil_iff.mp hdone)
  simp only [Since, Function.update_self]
  exact ⟨hopened, hpolicy, hwritten ▸ hfits, by rw [← hwritten, ← hlog]; rfl⟩

omit [DecidableEq κ] in
/-- An append that has been written as a whole and is to be synced. -/
theorem Serial.syncing (h : Serial l₀ s) {k : κ} {line : Bytes}
    (hpc : s.appenders k = .syncing line) {before : Log}
    (hsince : (s.appenders k).Since before s.log) :
    before.file.enabled = true ∧ before.file.opened = true ∧ before.file.fsyncPolicy = .always ∧
      before.Fits line (numberedLine (before.file.sequence + 1) line).length ∧
      s.log = (before.wrote line (numberedLine (before.file.sequence + 1) line).length).soiled := by
  rw [hpc] at hsince
  obtain ⟨hopened, hpolicy, hfits, hlog⟩ := hsince
  refine ⟨?_, hopened, hpolicy, hfits, hlog⟩
  have henabled := h.enabled
  rwa [hlog] at henabled

theorem serial_synced (h : Serial l₀ s) {k : κ} {line : Bytes}
    (hpc : s.appenders k = .syncing line) :
    Serial l₀ ({ s with log := s.log.flushed }.leave k line
      { accepted := (numberedLine s.log.file.sequence line).length } (.ok ())) := by
  refine serial_leave h s.log.flushed (by simp [hpc, AppenderPc.inside]) h.enabled
    h.present fun before hsince ↦ ?_
  obtain ⟨henabled, hopened, hpolicy, hfits, hlog⟩ := h.syncing hpc hsince
  rw [hlog]
  exact (Log.perform_append henabled hopened hfits true []).trans
    (by rw [if_pos le_rfl, if_pos hpolicy, if_pos rfl])

theorem serial_unsynced (h : Serial l₀ s) {k : κ} {line : Bytes} (reason : Bytes)
    (hpc : s.appenders k = .syncing line) :
    Serial l₀ (s.leave k line
      { accepted := (numberedLine s.log.file.sequence line).length
        synced := false
        strerror := reason } (.error (ascii "fsync failed: " ++ reason))) := by
  refine serial_leave h s.log (by simp [hpc, AppenderPc.inside]) h.enabled
    h.present fun before hsince ↦ ?_
  obtain ⟨henabled, hopened, hpolicy, hfits, hlog⟩ := h.syncing hpc hsince
  rw [hlog]
  exact (Log.perform_append henabled hopened hfits false reason).trans
    (by rw [if_pos le_rfl, if_pos hpolicy, if_neg Bool.false_ne_true])

/-! ### Steps of the sync thread and of the owner -/

omit [DecidableEq κ] in
/-- The sync thread goes on inside its section, with a sync or without. -/
theorem Serial.of_syncer (h : Serial l₀ s) (hpc : s.syncer = .flushing) (log : Log)
    (calls : List (LogCall × Except Bytes Unit))
    (henabled : log.file.enabled = true)
    (hpresent : log.file.opened = true → log.disk.aof = some (log.disk.aof.getD []))
    (hcalls : l₀.Explains s.history s.log → l₀.Explains (s.history ++ calls) log) :
    Serial l₀ { s with log := log, syncer := .checking, history := s.history ++ calls } := by
  refine h.keep (t := .syncer) (by simp [inside, hpc, SyncerPc.inside]) henabled hpresent rfl
    (inside_of_syncer rfl rfl) ?_
  rintro before hbefore rfl
  exact ⟨log, hcalls hbefore, rfl⟩

omit [DecidableEq κ] in
theorem serial_unlockSyncer (h : Serial l₀ s) {pc : SyncerPc} (hpc : s.syncer = .checking)
    (hout : pc.inside = false) : Serial l₀ { s with mutex := none, syncer := pc } := by
  refine h.release (t := .syncer) (by simp [inside, hpc, SyncerPc.inside]) h.enabled h.present
    rfl hout (inside_of_syncer rfl rfl) ?_
  rintro before hbefore rfl
  exact hbefore

omit [DecidableEq κ] in
/-- The owner leaves its section, which has been one call or none. -/
theorem Serial.of_owner (h : Serial l₀ s) (hin : s.owner.inside = true) {s' : LogThreads κ}
    (hmutex : s'.mutex = none) (hout : s'.owner.inside = false)
    (happenders : s'.appenders = s.appenders)
    (hsyncer : s'.syncer.inside = true → s.syncer.inside = true)
    (henabled : s'.log.file.enabled = true)
    (hpresent : s'.log.file.opened = true → s'.log.disk.aof = some (s'.log.disk.aof.getD []))
    (hcalls : l₀.Explains s.history s.log → l₀.Explains s'.history s'.log) : Serial l₀ s' := by
  refine h.release (t := .owner) hin henabled hpresent hmutex hout
    (inside_of_owner happenders hsyncer) ?_
  rintro before hbefore rfl
  exact hcalls hbefore

omit [DecidableEq κ] in
theorem serial_open (ht : Tended s) (h : Serial l₀ s) {o : OpenOutcome}
    (hpc : s.owner = .opening o) (hclosed : s.log.file.opened = false) {file : AppendOnlyFile}
    (hfile : file = { s.log.file with opened := true, dirty := false }) {disk : Disk}
    (hdisk : disk = { s.log.disk with aof := some (s.log.disk.aof.getD []) })
    (hopen : s.log.file.open s.log.disk o = (.ok (), file, disk)) :
    Serial l₀ { s with
      log := { s.log with file, disk }
      stopping := false
      mutex := none
      owner := .idle
      syncer := if s.log.file.fsyncPolicy = .everySec then .locking else s.syncer
      history := s.history ++ [(.open o, .ok ())] } := by
  have habsent : s.syncer = .absent := by
    by_contra hthere
    simp [ht.opened hthere] at hclosed
  refine h.of_owner (by simp [hpc, OwnerPc.inside]) rfl rfl rfl ?_ (hfile ▸ h.enabled)
    (fun _ ↦ by simp [hdisk]) fun hbefore ↦ ?_
  · dsimp only
    split <;> simp [habsent, SyncerPc.inside]
  · have hnext := hbefore.concat (.open o)
    simpa [Log.perform, hopen] using hnext

omit [DecidableEq κ] in
/-- `close` ends with one call of the log. -/
theorem serial_shut (h : Serial l₀ s) (hpc : s.owner = .closing) (log : Log) (synced : Bool)
    (henabled : log.file.enabled = true)
    (hperform : s.log.perform (.close synced) =
      (.ok (), { log with file := { log.file with opened := false, dirty := false } })) :
    Serial l₀ ({ s with log := log }.shut synced) := by
  refine h.of_owner (by simp [hpc, OwnerPc.inside]) rfl rfl rfl id henabled
    (by simp [LogThreads.shut, setFile]) fun hbefore ↦ ?_
  have hnext := hbefore.concat (.close synced)
  rwa [hperform] at hnext

theorem serial_step (ht : Tended s) (h : Serial l₀ s) (hstep : Step s s') : Serial l₀ s' := by
  cases hstep with
  | callAppend k line hpc => exact serial_callAppend h line hpc
  | lockAppend k line hpc hfree =>
      exact h.acquire hfree rfl rfl rfl (inside_of_appender rfl rfl rfl)
        (by simp [Since, AppenderPc.Since])
  | refuse k line hpc hclosed => exact serial_refuse h hpc hclosed
  | number k line hpc hopened => exact serial_number h hpc hopened
  | write k line written count hpc hcount hsize => exact serial_appender h hpc hcount hsize
  | retry => exact h
  | fail k line written reason hpc hleft => exact serial_fail h reason hpc hleft
  | finish k line written hpc hdone hpolicy => exact serial_finish h hpc hdone hpolicy
  | soil k line written hpc hdone hpolicy => exact serial_soil h hpc hdone hpolicy
  | synced k line hpc => exact serial_synced h hpc
  | unsynced k line reason hpc => exact serial_unsynced h reason hpc
  | lockSyncer pc hfree hpc => exact h.acquire hfree rfl rfl rfl (inside_of_syncer rfl rfl) rfl
  | unlockSyncer pc hpc hnext =>
      refine serial_unlockSyncer h hpc ?_
      rcases hnext with ⟨-, rfl⟩ | ⟨-, rfl⟩ <;> rfl
  | wake hpc =>
      exact h.outside (t := .syncer) rfl rfl rfl rfl (inside_of_syncer rfl rfl)
        (since_congr rfl rfl)
  | clean hpc =>
      have hclean := h.of_syncer hpc s.log [] h.enabled h.present (by simp)
      simpa using hclean
  | flush hpc =>
      exact h.of_syncer hpc s.log.flushed _ h.enabled h.present fun hbefore ↦
        hbefore.concat (.sync true)
  | flushFail hpc =>
      exact h.of_syncer hpc s.log _ h.enabled h.present fun hbefore ↦
        hbefore.concat (.sync false)
  | callOwner pc hpc hnext =>
      refine h.outside (t := .owner) rfl rfl rfl ?_ (inside_of_owner rfl id) (since_congr rfl rfl)
      rcases hnext with ⟨o, rfl⟩ | rfl <;> rfl
  | lockOwner pc hfree hpc =>
      exact h.acquire hfree rfl rfl rfl (inside_of_owner rfl id) rfl
  | openFail o hpc result hopen =>
      refine h.of_owner (by simp [hpc, OwnerPc.inside]) rfl rfl rfl id h.enabled h.present
        fun hbefore ↦ ?_
      have hnext := hbefore.concat (.open o)
      simpa [Log.perform, hopen] using hnext
  | «open» o hpc hclosed file hfile disk hdisk hopen =>
      exact serial_open ht h hpc hclosed hfile hdisk hopen
  | nothing hpc hclosed =>
      refine h.of_owner ?_ rfl rfl rfl id h.enabled h.present id
      rcases hpc with hpc | hpc <;> simp [hpc, OwnerPc.inside]
  | stop hpc hopen =>
      exact h.of_owner (by simp [hpc, OwnerPc.inside]) rfl rfl rfl id h.enabled h.present id
  | join hpc hexited =>
      refine h.outside (t := .owner) rfl rfl rfl rfl (inside_of_owner rfl ?_) (since_congr rfl rfl)
      simp [SyncerPc.inside]
  | shutSynced hpc hopen hdirty hpolicy =>
      exact serial_shut h hpc s.log.flushed true h.enabled
        (by simp [Log.perform, hdirty, hpolicy])
  | shutFail hpc hopen =>
      exact serial_shut h hpc s.log false h.enabled (by simp [Log.perform])
  | shut hpc hopen hclean =>
      refine serial_shut h hpc s.log true h.enabled ?_
      simp only [Log.perform, and_true]
      rw [if_neg hclean]

omit [DecidableEq κ] in
theorem tended_start {f : AppendOnlyFile} (hclosed : f.opened = false) (disk : Disk) :
    Tended (start f disk : LogThreads κ) := by
  constructor <;> simp [start, OwnerPc.Closing, hclosed]

omit [DecidableEq κ] in
theorem serial_start {f : AppendOnlyFile} (henabled : f.enabled = true) (hclosed : f.opened = false)
    (disk : Disk) : Serial { file := f, disk } (start f disk : LogThreads κ) := by
  refine ⟨henabled, fun hopened ↦ ?_, fun t ht ↦ ?_, fun _ ↦ rfl, fun t ht ↦ ?_⟩
  · simp [start, hclosed] at hopened
  · cases t <;> simp [start, inside, AppenderPc.inside, SyncerPc.inside, OwnerPc.inside] at ht
  · simp [start] at ht

theorem serial_run {f : AppendOnlyFile} (henabled : f.enabled = true) (hclosed : f.opened = false)
    (disk : Disk) {events : List (LogThreadsEvent κ)}
    (hrun : run step (start f disk) events = some s) :
    Tended s ∧ Serial { file := f, disk } s :=
  run_invariant (Q := fun _ _ ↦ True) (P := fun _ s ↦ Tended s ∧ Serial { file := f, disk } s)
    ⟨tended_start hclosed disk, serial_start henabled hclosed disk⟩
    (fun _ _ _ _ hs _ hstep ↦
      ⟨tended_step hs.1 (step_of_event hstep), serial_step hs.1 hs.2 (step_of_event hstep)⟩)
    (along_of_forall (fun _ _ ↦ trivial) _ events) hrun

end LogThreads

/-- However the threads interleave, a log whose lock is free is what the finished
sections make of the first log one after another, each with the result that it
returned; and nobody writes to a closed descriptor or syncs it. -/
theorem log_sections_serial {κ : Type*} [DecidableEq κ] (f : AppendOnlyFile) (disk : Disk)
    (events : List (LogThreadsEvent κ)) (s : LogThreads κ) (henabled : f.enabled = true)
    (hclosed : f.opened = false)
    (hrun : run LogThreads.step (LogThreads.start f disk) events = some s) :
    (s.mutex = none → Log.Explains { file := f, disk } s.history s.log) ∧
      (∀ k line, (∃ written, s.appenders k = .writing line written) ∨
        s.appenders k = .syncing line → s.log.file.opened = true) ∧
      (s.syncer = .flushing → s.log.file.opened = true) ∧
      (s.owner = .closing → s.log.file.opened = true ∧ s.syncer = .absent) := by
  obtain ⟨htended, hserial⟩ := LogThreads.serial_run henabled hclosed disk hrun
  refine ⟨hserial.free, fun k line hpc ↦ ?_, fun hpc ↦ htended.opened (by simp [hpc]), fun hpc ↦ ?_⟩
  · have hin : s.inside (.appender k) = true := by
      rcases hpc with ⟨written, hpc⟩ | hpc <;> simp [LogThreads.inside, hpc, AppenderPc.inside]
    obtain ⟨before, -, hsince⟩ := hserial.since _ (hserial.holder _ hin)
    rcases hpc with ⟨written, hpc⟩ | hpc
    · simp only [LogThreads.Since, hpc] at hsince
      rw [hsince.2.2]
      exact hsince.1
    · simp only [LogThreads.Since, hpc] at hsince
      rw [hsince.2.2.2]
      exact hsince.1
  · exact ⟨(htended.closing (Or.inr (Or.inr hpc))).1, htended.joined (Or.inr hpc)⟩

/-- Two threads append, the sync thread comes in between them, and the second write is
cut short by a full disk. -/
def crowdedLog : List (LogThreadsEvent Bool) :=
  [.open {}, .owner .done, .owner .done, .append false (ascii "A"), .append true (ascii "B"),
    .appender false .done, .appender false .done, .appender false (.wrote 3),
    .appender false .interrupted, .appender false (.wrote 1), .appender false .done,
    .syncer .done, .syncer .done, .syncer .done, .syncer .done, .syncer .done, .syncer .done,
    .appender true .done, .syncer .done, .appender true .done, .appender true (.wrote 2),
    .appender true (.failed (ascii "full"))]

theorem log_sections_serial_crowdedLog :
    ∃ s : LogThreads Bool,
      run LogThreads.step (LogThreads.start { enabled := true } {}) crowdedLog = some s ∧
      Log.Explains { file := { enabled := true }, disk := {} } s.history s.log ∧
      s.log.disk.aof = some (ascii "1\tA\n2\t") ∧ s.acknowledged = [⟨1, ascii "A", 4⟩] ∧
      s.log.durable = 4 := by
  have hsummary : (run LogThreads.step
      (LogThreads.start { enabled := true } {} : LogThreads Bool) crowdedLog).map
        (fun s ↦ (s.mutex.isNone, s.log.disk.aof, s.acknowledged, s.log.durable)) =
      some (true, some (ascii "1\tA\n2\t"), [⟨1, ascii "A", 4⟩], 4) := by decide +kernel
  obtain ⟨s, hrun, hs⟩ := Option.map_eq_some_iff.mp hsummary
  simp only [Prod.mk.injEq, Option.isNone_iff_eq_none] at hs
  exact ⟨s, hrun, (log_sections_serial _ _ _ s rfl rfl hrun).1 hs.1, hs.2⟩

end ByteCacheDB
