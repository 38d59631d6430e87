import ByteCacheDB.Lib.Runs
import ByteCacheDB.Recovery

/-!
# Checkpoints and the log across lifetimes

A history is made of server lifetimes on the same files.  Beside the files and
the log object the state keeps two lists of commands: those whose records stand
in the log file and were appended before the last successful `SAVE`, and those
appended after it.  The sequence numbers separate the two lists.
-/

namespace ByteCacheDB

open CommandParser Lines StorageEngine AppendOnlyFile Runs

structure LogState where
  disk : Disk
  log : AppendOnlyFile
  earlier : List Command
  recent : List Command
  deriving DecidableEq

/-- Between lifetimes the server is stopped or has crashed. -/
inductive LogEvent (S : Sharding) where
  | restart (maxKeys : UInt64) (now : TimePoint)
  | append (command : Command) (o : WriteOutcome)
  | save (storage : StorageEngine S) (now : TimePoint) (o : SaveOutcome)
  | stop
  | removeAof

namespace LogState

variable {S : Sharding}

def initial (policy : FsyncPolicy) (path : Bool) : LogState :=
  ⟨{}, ⟨true, policy, path, false, false, 0⟩, [], []⟩

/-- A new lifetime; a failed recovery ends the history. -/
def restart (S : Sharding) (st : LogState) (maxKeys : UInt64) (now : TimePoint) :
    Option LogState :=
  if st.log.opened then none
  else
    (st.log.start S st.disk maxKeys now).map fun r ↦ { st with log := r.1, disk := r.2.2 }

/-- An append that writes its whole record or nothing. -/
def append (st : LogState) (command : Command) (o : WriteOutcome) : Option LogState :=
  let size := (record (st.log.sequence + 1) command).length
  if st.log.opened ∧ Admissible command ∧ (room st.disk o = 0 ∨ size ≤ room st.disk o) then
    let result := st.log.append st.disk o command
    some { st with
      log := result.2.1
      disk := result.2.2
      recent := if size ≤ room st.disk o then st.recent ++ [command] else st.recent }
  else none

def save (st : LogState) (storage : StorageEngine S) (now : TimePoint) (o : SaveOutcome) :
    Option LogState :=
  if st.log.opened then
    match st.log.saveSnapshot st.disk storage now o with
    | (.error _, disk) => some { st with disk := disk }
    | (.ok (), disk) =>
        some { st with disk := disk, earlier := st.earlier ++ st.recent, recent := [] }
  else none

def step (st : LogState) : LogEvent S → Option LogState
  | .restart maxKeys now => st.restart S maxKeys now
  | .append command o => st.append command o
  | .save storage now o => st.save storage now o
  | .stop => if st.log.opened then some { st with log := { st.log with opened := false } } else none
  | .removeAof =>
      if st.log.opened then none
      else some { st with disk := { st.disk with aof := none }, earlier := [], recent := [] }

end LogState

def LogEvent.isAppend {S : Sharding} : LogEvent S → Bool
  | .append _ _ => true
  | _ => false

/-! ## The records and the snapshot's number -/

/-- The files hold the records `old` and `new`, in front of the last save and behind it, and
the number of that save. -/
structure LogState.Filed (st : LogState) (header : UInt64) (old new : List (UInt64 × Command)) :
    Prop where
  hasHeader : HasHeader st.log st.disk header
  hasRecords : HasRecords st.disk (old ++ new)
  earlier : old.map Prod.snd = st.earlier
  recent : new.map Prod.snd = st.recent

/-- The snapshot's number separates the two parts of the log. -/
structure Bordered (header : UInt64) (old new : List (UInt64 × Command)) : Prop where
  below : ∀ r ∈ old, r.1 ≤ header
  above : ∀ r ∈ new, header < r.1

section
variable {S : Sharding} {st : LogState} {header n : UInt64} {old new : List (UInt64 × Command)}

theorem Bordered.concat (h : Bordered header old new) (hn : header < n) (command : Command) :
    Bordered header old (new ++ [(n, command)]) :=
  ⟨h.below, List.forall_mem_append.mpr ⟨h.above, List.forall_mem_singleton.mpr hn⟩⟩

/-- The numbers above the snapshot's number are those of the recent records. -/
theorem Bordered.effective_eq (h : Bordered header old new) :
    effective header (old ++ new) = new.map Prod.snd := by
  have hold : old.filter (fun r ↦ header < r.1) = [] := by
    rw [List.filter_eq_nil_iff]
    intro r hr
    simpa using h.below r hr
  have hnew : new.filter (fun r ↦ header < r.1) = new := by
    rw [List.filter_eq_self]
    intro r hr
    simpa using h.above r hr
  rw [effective, List.filter_append, hold, hnew, List.nil_append]

theorem forall_le_concat {m : UInt64} (h : ∀ r ∈ old ++ new, r.1 ≤ m) (hmn : m ≤ n)
    (command : Command) : ∀ r ∈ old ++ (new ++ [(n, command)]), r.1 ≤ n := by
  rw [← List.append_assoc]
  exact List.forall_mem_append.mpr ⟨fun r hr ↦ UInt64.le_trans (h r hr) hmn,
    List.forall_mem_singleton.mpr (UInt64.le_refl n)⟩

/-- Of the log object only its configuration counts. -/
theorem HasHeader.of_path {f f' : AppendOnlyFile} {disk disk' : Disk} (h : HasHeader f disk header)
    (hpath : f'.hasSnapshotPath = f.hasSnapshotPath)
    (hsnapshot : disk'.snapshot = disk.snapshot) : HasHeader f' disk' header := by
  unfold HasHeader
  rw [hpath, hsnapshot]
  exact h

namespace LogState

/-- The log is opened, and nothing is written. -/
theorem Filed.opened (h : st.Filed header old new) {log : AppendOnlyFile}
    (hpath : log.hasSnapshotPath = st.log.hasSnapshotPath) :
    Filed { st with log, disk := { st.disk with aof := some (st.disk.aof.getD []) } }
      header old new :=
  ⟨h.hasHeader.of_path hpath rfl, ⟨h.hasRecords.aof, h.hasRecords.admissible⟩, h.earlier, h.recent⟩

/-- A record is written as a whole and becomes the last one. -/
theorem Filed.written (h : st.Filed header old new) {log : AppendOnlyFile}
    (hpath : log.hasSnapshotPath = st.log.hasSnapshotPath) {command : Command}
    (hadm : Admissible command) :
    Filed
      { st with
        log
        disk := { st.disk with aof := some (st.disk.aof.getD [] ++ record n command) }
        recent := st.recent ++ [command] }
      header old (new ++ [(n, command)]) := by
  refine ⟨h.hasHeader.of_path hpath rfl, ⟨?_, ?_⟩, h.earlier, by simp [h.recent]⟩
  · rw [← List.append_assoc, written_append, ← h.hasRecords.aof]
    simp [ByteCacheDB.written]
  · rw [← List.append_assoc]
    exact List.forall_mem_append.mpr
      ⟨h.hasRecords.admissible, List.forall_mem_singleton.mpr hadm⟩

theorem Filed.unsaved (h : st.Filed header old new) {storage : StorageEngine S} {now : TimePoint}
    {o : SaveOutcome} {e : Bytes} {disk : Disk}
    (hsave : st.log.saveSnapshot st.disk storage now o = (.error e, disk)) :
    Filed { st with disk } header old new := by
  have hkept := saveSnapshot_error (congrArg Prod.fst hsave)
  rw [hsave] at hkept
  dsimp only at hkept
  exact ⟨h.hasHeader.of_path rfl hkept.1,
    ⟨by rw [hkept.2]; exact h.hasRecords.aof, h.hasRecords.admissible⟩, h.earlier, h.recent⟩

/-- A successful save moves the border between the two parts to the end. -/
theorem Filed.saved (h : st.Filed header old new) {storage : StorageEngine S} {now : TimePoint}
    {o : SaveOutcome} {disk : Disk}
    (hsave : st.log.saveSnapshot st.disk storage now o = (.ok (), disk)) :
    Filed { st with disk, earlier := st.earlier ++ st.recent, recent := [] } st.log.sequence
      (old ++ new) [] := by
  have hok := congrArg Prod.fst hsave
  have hpath := hasSnapshotPath_of_saveSnapshot hok
  have hdisk := saveSnapshot_ok hok
  rw [hsave] at hdisk
  dsimp only at hdisk
  subst hdisk
  refine ⟨Or.inr ⟨hpath, _, rfl⟩, ?_, by rw [List.map_append, h.earlier, h.recent], rfl⟩
  rw [List.append_nil]
  exact ⟨h.hasRecords.aof, h.hasRecords.admissible⟩

end LogState

end

/-! ## The invariant -/

/-- The records stand in increasing order, with the snapshot's number between the two
parts; after `n` appends no number exceeds `n`. -/
structure Separated (n : ℕ) (st : LogState) (header : UInt64)
    (old new : List (UInt64 × Command)) : Prop where
  enabled : st.log.enabled = true
  filed : st.Filed header old new
  bordered : Bordered header old new
  sorted : ((old ++ new).map Prod.fst).Pairwise (· < ·)
  last : ∀ r ∈ old ++ new, r.1 ≤ st.log.sequence
  header_le : header ≤ st.log.sequence
  counted : st.log.sequence.toNat ≤ n

theorem separated_initial (policy : FsyncPolicy) (path : Bool) :
    Separated 0 (LogState.initial policy path) 0 [] [] where
  enabled := rfl
  filed := ⟨Or.inl ⟨Or.inr rfl, rfl⟩, ⟨rfl, by simp⟩, rfl, rfl⟩
  bordered := ⟨by simp, by simp⟩
  sorted := List.Pairwise.nil
  last := by simp
  header_le := UInt64.le_refl _
  counted := Nat.le_refl _

theorem max_spec (a b : UInt64) :
    a ≤ max a b ∧ b ≤ max a b ∧ ∀ bound, a ≤ bound → b ≤ bound → max a b ≤ bound := by
  have hmax : max a b = if a ≤ b then b else a := rfl
  rw [hmax]
  split
  · rename_i hab
    exact ⟨hab, UInt64.le_refl _, fun _ _ hb ↦ hb⟩
  · rename_i hab
    exact ⟨UInt64.le_refl _, (UInt64.le_total a b).resolve_left hab, fun _ ha _ ↦ ha⟩

theorem maxSequence_spec (header : UInt64) (records : List (UInt64 × Command)) :
    header ≤ maxSequence header records ∧ (∀ r ∈ records, r.1 ≤ maxSequence header records) ∧
      ∀ bound, header ≤ bound → (∀ r ∈ records, r.1 ≤ bound) →
        maxSequence header records ≤ bound := by
  induction records generalizing header with
  | nil => exact ⟨UInt64.le_refl _, by simp, fun bound h _ ↦ h⟩
  | cons r rest ih =>
      obtain ⟨hhead, hrest, hleast⟩ := ih (max header r.1)
      obtain ⟨hleft, hright, hbound⟩ := max_spec header r.1
      have hmax : maxSequence header (r :: rest) = maxSequence (max header r.1) rest := rfl
      rw [hmax]
      refine ⟨UInt64.le_trans hleft hhead, ?_, ?_⟩
      · intro q hq
        rcases List.mem_cons.mp hq with rfl | hq
        · exact UInt64.le_trans hright hhead
        · exact hrest q hq
      · intro bound hheader hall
        apply hleast
        · exact hbound bound hheader (hall r (by simp))
        · exact fun q hq ↦ hall q (by simp [hq])

section
variable {S : Sharding} {n : ℕ} {st st' : LogState} {header : UInt64}
  {old new : List (UInt64 × Command)}

/-- Nothing but the counter changes, and it stays above every number in the files. -/
theorem Separated.recounted {n' : ℕ} {log : AppendOnlyFile} (h : Separated n st header old new)
    (henabled : log.enabled = true) (hpath : log.hasSnapshotPath = st.log.hasSnapshotPath)
    (hlast : ∀ r ∈ old ++ new, r.1 ≤ log.sequence) (hle : header ≤ log.sequence)
    (hcounted : log.sequence.toNat ≤ n') :
    Separated n' { st with log := log, disk := { st.disk with aof := some (st.disk.aof.getD []) } }
      header old new :=
  ⟨henabled, h.filed.opened hpath, h.bordered, h.sorted, hlast, hle, hcounted⟩

/-- The restart rebuilds a counter that is above every number in the files. -/
theorem separated_restart (h : Separated n st header old new) {maxKeys : UInt64}
    {now : TimePoint} (hstep : st.restart S maxKeys now = some st') :
    Separated n st' header old new := by
  unfold LogState.restart at hstep
  split at hstep
  · simp at hstep
  obtain ⟨r, hstart, rfl⟩ := Option.map_eq_some_iff.mp hstep
  have hheader : HasHeader st.log.fresh st.disk header := h.filed.hasHeader
  obtain ⟨hlog, hdisk⟩ := start_files h.enabled hheader h.filed.hasRecords hstart
  rw [hlog, hdisk]
  obtain ⟨hheader_le, hlast, hleast⟩ := maxSequence_spec header (old ++ new)
  refine h.recounted h.enabled rfl hlast hheader_le ?_
  exact le_trans (UInt64.le_iff_toNat_le.mp (hleast _ h.header_le h.last)) h.counted

/-- The next number is new as long as the counter does not wrap. -/
theorem lt_succ_of_counted {m : UInt64} (hm : m.toNat ≤ n) (hn : n + 1 < 2 ^ 64) :
    m < m + 1 ∧ (m + 1).toNat ≤ n + 1 := by
  have hone : (1 : UInt64).toNat = 1 := rfl
  have hsucc : (m + 1).toNat = m.toNat + 1 := by
    rw [UInt64.toNat_add, hone, Nat.mod_eq_of_lt (by omega)]
  rw [UInt64.lt_iff_toNat_lt]
  omega

theorem separated_append (h : Separated n st header old new) (hn : n + 1 < 2 ^ 64)
    {command : Command} {o : WriteOutcome} (hstep : st.append command o = some st') :
    ∃ new', Separated (n + 1) st' header old new' := by
  unfold LogState.append at hstep
  dsimp only at hstep
  split at hstep
  case isFalse => simp at hstep
  rename_i hguard
  obtain ⟨hopened, hadm, hwhole⟩ := hguard
  obtain ⟨d, happend⟩ := append_spec h.enabled hopened st.disk o command
  rw [happend] at hstep
  obtain rfl := Option.some.inj hstep
  obtain ⟨hlt, hcount⟩ := lt_succ_of_counted h.counted hn
  by_cases hroom : (record (st.log.sequence + 1) command).length ≤ room st.disk o
  · refine ⟨new ++ [(st.log.sequence + 1, command)], ?_⟩
    rw [List.take_of_length_le hroom, if_pos hroom]
    refine ⟨h.enabled, h.filed.written (by rfl) hadm,
      h.bordered.concat (UInt64.lt_of_le_of_lt h.header_le hlt) command, ?_,
      forall_le_concat h.last (UInt64.le_of_lt hlt) command,
      UInt64.le_trans h.header_le (UInt64.le_of_lt hlt), hcount⟩
    rw [← List.append_assoc, List.map_append, List.pairwise_append]
    refine ⟨h.sorted, by simp, List.forall_mem_map.mpr fun r hr b hb ↦ ?_⟩
    rw [List.mem_singleton.mp hb]
    exact UInt64.lt_of_le_of_lt (h.last r hr) hlt
  · -- nothing is written, but the number is gone
    have hzero : room st.disk o = 0 := hwhole.resolve_right hroom
    refine ⟨new, ?_⟩
    rw [if_neg hroom, hzero, List.take_zero, List.append_nil]
    exact h.recounted h.enabled rfl
      (fun r hr ↦ UInt64.le_trans (h.last r hr) (UInt64.le_of_lt hlt))
      (UInt64.le_trans h.header_le (UInt64.le_of_lt hlt)) hcount

theorem separated_save (h : Separated n st header old new) {storage : StorageEngine S}
    {now : TimePoint} {o : SaveOutcome} (hstep : st.save storage now o = some st') :
    ∃ header' old' new', Separated n st' header' old' new' := by
  unfold LogState.save at hstep
  split at hstep
  case isFalse => simp at hstep
  cases hsave : st.log.saveSnapshot st.disk storage now o with
  | mk result disk =>
      rw [hsave] at hstep
      cases result with
      | error e =>
          obtain rfl := Option.some.inj hstep
          exact ⟨header, old, new, h.enabled, h.filed.unsaved hsave, h.bordered, h.sorted, h.last,
            h.header_le, h.counted⟩
      | ok u =>
          obtain rfl := Option.some.inj hstep
          refine ⟨st.log.sequence, old ++ new, [], h.enabled, h.filed.saved hsave,
            ⟨h.last, by simp⟩, ?_, ?_, UInt64.le_refl _, h.counted⟩
          · rw [List.append_nil]
            exact h.sorted
          · rw [List.append_nil]
            exact h.last

theorem separated_step (h : Separated n st header old new) {e : LogEvent S}
    (hn : e.isAppend = true → n + 1 < 2 ^ 64) (hstep : st.step e = some st') :
    ∃ header' old' new',
      Separated (n + if e.isAppend then 1 else 0) st' header' old' new' := by
  cases e with
  | restart maxKeys now => exact ⟨header, old, new, separated_restart h hstep⟩
  | append command o =>
      obtain ⟨new', h'⟩ := separated_append h (hn rfl) hstep
      exact ⟨header, old, new', h'⟩
  | save storage now o => exact separated_save h hstep
  | stop =>
      simp only [LogState.step] at hstep
      split at hstep
      · obtain rfl := Option.some.inj hstep
        exact ⟨header, old, new, { h with filed := { h.filed with } }⟩
      · simp at hstep
  | removeAof =>
      simp only [LogState.step] at hstep
      split at hstep
      · simp at hstep
      · obtain rfl := Option.some.inj hstep
        exact ⟨header, [], [], h.enabled, ⟨h.filed.hasHeader, ⟨rfl, by simp⟩, rfl, rfl⟩,
          ⟨by simp, by simp⟩, List.Pairwise.nil, by simp, h.header_le, h.counted⟩

end

/-- The numbers in the log increase strictly, and the next recovery loads the
snapshot and then applies the commands appended after the last successful save,
each once and in append order. -/
theorem recover_applies_recent {S : Sharding} (policy : FsyncPolicy) (path : Bool)
    (events : List (LogEvent S)) (st : LogState)
    (hrun : run LogState.step (LogState.initial policy path) events = some st)
    (hfew : events.countP LogEvent.isAppend < 2 ^ 64) :
    ((decodeLog (st.disk.aof.getD [])).map Prod.fst).Pairwise (· < ·) ∧
      (decodeLog (st.disk.aof.getD [])).map Prod.snd = (st.earlier ++ st.recent).map .ok ∧
      ∀ (S' : Sharding) (s : StorageEngine S') (now : TimePoint),
        (st.log.fresh.recover st.disk s now).toOption.map Prod.snd =
          ((st.log.fresh.loadSnapshot st.disk (s.setEvictionEnabled false) now).toOption.bind
            fun r ↦ (applyAll now st.recent r.2).toOption).map
              fun s' ↦ (s'.setEvictionEnabled true).takeEvictedKeys.2 := by
  have hinv : ∃ header old new,
      Separated (events.countP LogEvent.isAppend) st header old new := by
    refine run_invariant (Q := fun _ _ ↦ True)
      (P := fun past st ↦ past.countP LogEvent.isAppend < 2 ^ 64 → ∃ header old new,
        Separated (past.countP LogEvent.isAppend) st header old new)
      (fun _ ↦ ⟨0, [], [], separated_initial policy path⟩) ?_
      (along_of_forall (fun _ _ ↦ trivial) _ _) hrun hfew
    intro past s e s' hP _ hstep hcount
    rw [List.countP_append, List.countP_singleton] at hcount ⊢
    obtain ⟨header, old, new, h⟩ := hP (by omega)
    apply separated_step h _ hstep
    intro happend
    rw [happend] at hcount
    simpa using hcount
  obtain ⟨header, old, new, h⟩ := hinv
  have hdecode := decodeLog_written h.filed.hasRecords.admissible
  rw [← h.filed.hasRecords.aof] at hdecode
  refine ⟨?_, ?_, ?_⟩
  · rw [hdecode, List.map_map]
    exact h.sorted
  · rw [hdecode, ← h.filed.earlier, ← h.filed.recent, ← List.map_append, List.map_map, List.map_map]
    rfl
  · intro S' s now
    have hheader : HasHeader st.log.fresh st.disk header := h.filed.hasHeader
    rw [recover_files (f := st.log.fresh) h.enabled hheader h.filed.hasRecords,
      h.bordered.effective_eq, h.filed.recent, Option.map_map]
    rfl

/-- Two records around a save, and a second lifetime. -/
theorem recover_applies_recent_after_save :
    ∃ st, run LogState.step (LogState.initial .always true)
        [.restart 0 0, .append ⟨.incr, [[107]]⟩ { accepted := 100 },
          .save ({} : StorageEngine oneShard) 0 {}, .append ⟨.flush, []⟩ { accepted := 100 },
          .stop, .restart 0 0] = some st ∧
      st.recent = [⟨.flush, []⟩] ∧
      ((decodeLog (st.disk.aof.getD [])).map Prod.fst).Pairwise (· < ·) := by
  have hrun : ((run LogState.step (LogState.initial .always true)
      [.restart 0 0, .append ⟨.incr, [[107]]⟩ { accepted := 100 },
        .save ({} : StorageEngine oneShard) 0 {}, .append ⟨.flush, []⟩ { accepted := 100 },
        .stop, .restart 0 0]).map LogState.recent) = some [⟨.flush, []⟩] := by decide
  obtain ⟨st, hst, hrecent⟩ := Option.map_eq_some_iff.mp hrun
  exact ⟨st, hst, hrecent, (recover_applies_recent .always true _ st hst (by decide)).1⟩

/-! ## Wrapped numbers -/

def LogState.burn (st : LogState) (k : UInt64) : LogState :=
  { st with log := { st.log with sequence := st.log.sequence + k } }

/-- An append that the system refuses only burns a number. -/
theorem step_append_refused {S : Sharding} {st : LogState} (henabled : st.log.enabled = true)
    (hopened : st.log.opened = true) {file : Bytes} (hfile : st.disk.aof = some file)
    {command : Command} (hadm : Admissible command) :
    st.step (.append command { accepted := 0 } : LogEvent S) = some (st.burn 1) := by
  have hroom : room st.disk { accepted := 0 } = 0 := by simp [room]
  have hlong : ¬(record (st.log.sequence + 1) command).length ≤ 0 := by simp [record]
  have happend : (st.log.append st.disk { accepted := 0 } command).2 =
      ((st.burn 1).log, st.disk) := by
    have hdisk : { st.disk with aof := some (file ++ []) } = st.disk := by
      rw [List.append_nil, ← hfile]
    rw [AppendOnlyFile.append, appendLine, if_neg (by simp [henabled]), if_neg (by simp [hopened])]
    simp only [writeRecordLocked, writeAll, Nat.zero_min, List.take_zero, hfile,
      Option.getD_some]
    rw [if_neg (by simp)]
    simp only [hdisk]
    rfl
  simp only [LogState.step, LogState.append, hroom, hopened, hadm, true_or, and_self, if_true,
    happend, if_neg hlong]
  rfl

theorem run_append_refused {S : Sharding} (k : ℕ) (st : LogState)
    (henabled : st.log.enabled = true) (hopened : st.log.opened = true) {file : Bytes}
    (hfile : st.disk.aof = some file) {command : Command} (hadm : Admissible command) :
    run LogState.step st
        (List.replicate k (.append command { accepted := 0 } : LogEvent S)) =
      some (st.burn (UInt64.ofNat k)) := by
  induction k generalizing st with
  | zero => simp [LogState.burn]
  | succ k ih =>
      have hsum : st.log.sequence + 1 + UInt64.ofNat k =
          st.log.sequence + UInt64.ofNat (k + 1) := by
        rw [UInt64.ofNat_add]
        grind
      rw [List.replicate_succ, run_cons, step_append_refused henabled hopened hfile hadm,
        Option.bind_some, ih (st.burn 1) henabled hopened hfile]
      simp only [LogState.burn, hsum]

/-- After `2 ^ 64 - 1` refused appends the counter stands where it stood before
the first record, and the next record repeats its number. -/
theorem sequence_numbers_repeat :
    ∃ (events : List (LogEvent oneShard)) (st : LogState),
      run LogState.step (LogState.initial .never true) events = some st ∧
        ¬((decodeLog (st.disk.aof.getD [])).map Prod.fst).Pairwise (· < ·) := by
  let first : LogState := ⟨⟨some (ascii "1\tFLUSH\n"), none, none⟩,
    ⟨true, .never, true, true, true, 1⟩, [], [⟨.flush, []⟩]⟩
  have hfirst : run LogState.step (LogState.initial .never true)
      ([.restart 0 0, .append ⟨.flush, []⟩ { accepted := 100 }] : List (LogEvent oneShard)) =
        some first := by decide
  have hadm : Admissible ⟨.flush, []⟩ := by decide
  have hrefused := run_append_refused (S := oneShard) (2 ^ 64 - 1) first rfl rfl rfl hadm
  refine ⟨[.restart 0 0, .append ⟨.flush, []⟩ { accepted := 100 }] ++
    (List.replicate (2 ^ 64 - 1) (.append ⟨.flush, []⟩ { accepted := 0 }) ++
      [.append ⟨.flush, []⟩ { accepted := 100 }]),
    ⟨⟨some (ascii "1\tFLUSH\n1\tFLUSH\n"), none, none⟩,
      ⟨true, .never, true, true, true, 1⟩, [], [⟨.flush, []⟩, ⟨.flush, []⟩]⟩, ?_, by decide⟩
  rw [run_append, hfirst, Option.bind_some, run_append, hrefused]
  decide

end ByteCacheDB
