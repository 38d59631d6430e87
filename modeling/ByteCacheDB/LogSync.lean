import ByteCacheDB.LogThreads

/-!
# What is on disk, and how the log is closed

A record whose append has returned true is covered by an `fsync`, or `dirty_` says
that one is due and somebody is there to make it.  `close` returns once the threads
inside go on, and it takes the sync thread with it.
-/

namespace ByteCacheDB

open AppendOnlyFile Runs Threads

/-! ## Acknowledged records -/

namespace LogRecord

/-- The line of the file that `append_line` writes. -/
def bytes (r : LogRecord) : Bytes := numberedLine r.sequence r.line

/-- The record is in the file and ends at its place. -/
def In (r : LogRecord) (file : Bytes) : Prop := r.stop ≤ file.length ∧ r.bytes <:+ file.take r.stop

instance (r : LogRecord) (file : Bytes) : Decidable (r.In file) :=
  inferInstanceAs (Decidable (_ ∧ _))

variable {r : LogRecord} {file : Bytes}

theorem In.append (h : r.In file) (more : Bytes) : r.In (file ++ more) := by
  refine ⟨?_, ?_⟩
  · rw [List.length_append]
    exact Nat.le_add_right_of_le h.1
  · rw [List.take_append_of_le_length h.1]
    exact h.2

theorem In.take (h : r.In file) {n : ℕ} (hn : r.stop ≤ n) : r.In (file.take n) := by
  refine ⟨?_, ?_⟩
  · rw [List.length_take]
    exact le_min hn h.1
  · rw [List.take_take, min_eq_left hn]
    exact h.2

/-- What has been written last. -/
theorem in_append_bytes (sequence : UInt64) (line file : Bytes) :
    In ⟨sequence, line, (file ++ numberedLine sequence line).length⟩
      (file ++ numberedLine sequence line) := by
  refine ⟨le_rfl, ?_⟩
  rw [List.take_length]
  exact List.suffix_append _ _

end LogRecord

/-- The part of the file that a successful `fsync` has covered. -/
def Log.onDisk (l : Log) : Bytes := (l.disk.aof.getD []).take l.durable

theorem Log.in_wrote (l : Log) (line : Bytes) {written : ℕ}
    (hfull : (numberedLine (l.file.sequence + 1) line).length ≤ written) :
    LogRecord.In ⟨l.file.sequence + 1, line, (l.wrote line written).size⟩
      ((l.wrote line written).disk.aof.getD []) := by
  have hwrote : (l.wrote line written).disk.aof.getD [] =
      l.disk.aof.getD [] ++ numberedLine (l.file.sequence + 1) line := by
    simp only [Log.wrote, Option.getD_some, List.take_of_length_le hfull]
  rw [Log.size, hwrote]
  exact LogRecord.in_append_bytes _ _ _

/-- The lines for which `append_line` has returned true. -/
def acknowledgedLines (history : List (LogCall × Except Bytes Unit)) : List Bytes :=
  history.filterMap fun entry ↦
    match entry with
    | (.append line _, .ok ()) => some line
    | _ => none

namespace LogThreads

variable {κ : Type*} {s s' : LogThreads κ} {policy : FsyncPolicy}

structure Covered (policy : FsyncPolicy) (s : LogThreads κ) : Prop where
  kept : s.log.file.fsyncPolicy = policy
  lines : s.acknowledged.map LogRecord.line = acknowledgedLines s.history
  filed : ∀ r ∈ s.acknowledged, r.In (s.log.disk.aof.getD [])
  always : policy = .always → ∀ r ∈ s.acknowledged, r.stop ≤ s.log.durable
  due : policy ≠ .never → (∀ result, (.close false, result) ∉ s.history) →
    ∀ r ∈ s.acknowledged, r.stop ≤ s.log.durable ∨
      s.log.file.dirty = true ∧ s.log.file.opened = true

/-- Nothing is acknowledged, and what is due stays due. -/
theorem Covered.mono (h : Covered policy s) (more : Bytes)
    (calls : List (LogCall × Except Bytes Unit)) (hpolicy : s'.log.file.fsyncPolicy = policy)
    (hack : s'.acknowledged = s.acknowledged)
    (haof : s'.log.disk.aof.getD [] = s.log.disk.aof.getD [] ++ more)
    (hdurable : s.log.durable ≤ s'.log.durable) (hhistory : s'.history = s.history ++ calls)
    (hcalls : acknowledgedLines calls = [])
    (hdue : s.log.file.dirty = true → s.log.file.opened = true →
      s'.log.file.dirty = true ∧ s'.log.file.opened = true) : Covered policy s' := by
  refine ⟨hpolicy, ?_, fun r hr ↦ ?_, fun halways r hr ↦ ?_, fun hnever hclosed r hr ↦ ?_⟩
  · rw [hack, h.lines, hhistory, acknowledgedLines, acknowledgedLines, List.filterMap_append,
      ← acknowledgedLines, ← acknowledgedLines, hcalls, List.append_nil]
  · rw [hack] at hr
    rw [haof]
    exact (h.filed r hr).append more
  · rw [hack] at hr
    exact (h.always halways r hr).trans hdurable
  · rw [hack] at hr
    have hclosed' : ∀ result, (LogCall.close false, result) ∉ s.history := by
      intro result hmem
      rw [hhistory] at hclosed
      exact hclosed result (List.mem_append_left _ hmem)
    rcases h.due hnever hclosed' r hr with hle | hdirty
    · exact Or.inl (hle.trans hdurable)
    · exact Or.inr (hdue hdirty.1 hdirty.2)

/-- Everything that has been written is on disk. -/
theorem Covered.of_flushed (h : Covered policy s) (hpolicy : s'.log.file.fsyncPolicy = policy)
    (hack : s'.acknowledged = s.acknowledged) (haof : s'.log.disk.aof = s.log.disk.aof)
    (hdurable : s'.log.durable = s.log.size)
    (hlines : acknowledgedLines s'.history = acknowledgedLines s.history) : Covered policy s' := by
  have hon : ∀ r ∈ s'.acknowledged, r.stop ≤ s'.log.durable := by
    intro r hr
    rw [hack] at hr
    rw [hdurable]
    exact (h.filed r hr).1
  refine ⟨hpolicy, ?_, fun r hr ↦ ?_, fun _ ↦ hon, fun _ _ r hr ↦ Or.inl (hon r hr)⟩
  · rw [hack, h.lines, hlines]
  · rw [hack] at hr
    rw [haof]
    exact h.filed r hr

variable {l₀ : Log}

theorem opened_of_writing (h : Serial l₀ s) {k : κ} {line : Bytes} {written : ℕ}
    (hpc : s.appenders k = .writing line written) : s.log.file.opened = true := by
  have hin : s.inside (.appender k) = true := by simp [inside, hpc, AppenderPc.inside]
  obtain ⟨before, -, hsince⟩ := h.since _ (h.holder _ hin)
  obtain ⟨-, hopened, -, hlog⟩ := h.writing hpc hsince
  rw [hlog]
  exact hopened

/-- An append whose bytes are all written has its record at the end of the file. -/
theorem in_of_writing (h : Serial l₀ s) {k : κ} {line : Bytes} {written : ℕ}
    (hpc : s.appenders k = .writing line written)
    (hdone : (numberedLine s.log.file.sequence line).drop written = []) :
    LogRecord.In ⟨s.log.file.sequence, line, s.log.size⟩ (s.log.disk.aof.getD []) := by
  have hin : s.inside (.appender k) = true := by simp [inside, hpc, AppenderPc.inside]
  obtain ⟨before, -, hsince⟩ := h.since _ (h.holder _ hin)
  obtain ⟨-, -, -, hlog⟩ := h.writing hpc hsince
  rw [hlog] at hdone ⊢
  exact Log.in_wrote before line (List.drop_eq_nil_iff.mp hdone)

theorem in_of_syncing (h : Serial l₀ s) {k : κ} {line : Bytes}
    (hpc : s.appenders k = .syncing line) :
    LogRecord.In ⟨s.log.file.sequence, line, s.log.size⟩ (s.log.disk.aof.getD []) := by
  have hin : s.inside (.appender k) = true := by simp [inside, hpc, AppenderPc.inside]
  obtain ⟨before, -, hsince⟩ := h.since _ (h.holder _ hin)
  obtain ⟨-, -, -, -, hlog⟩ := h.syncing hpc hsince
  rw [hlog]
  exact Log.in_wrote before line le_rfl

variable [DecidableEq κ]

theorem acknowledgedLines_leave (history : List (LogCall × Except Bytes Unit)) (line : Bytes)
    (o : WriteOutcome) : acknowledgedLines (history ++ [(.append line o, .ok ())]) =
      acknowledgedLines history ++ [line] := by
  rw [acknowledgedLines, List.filterMap_append]
  rfl

/-- An append returns true, with its record on disk or due. -/
theorem covered_leave (h : Covered policy s) {k : κ} {line : Bytes} (o : WriteOutcome) (log : Log)
    (hpolicy : log.file.fsyncPolicy = policy) (haof : log.disk.aof = s.log.disk.aof)
    (hin : LogRecord.In ⟨log.file.sequence, line, log.size⟩ (s.log.disk.aof.getD []))
    (hsynced : log.durable = s.log.size ∨
      policy ≠ .always ∧ log.file.dirty = true ∧ log.file.opened = true) :
    Covered policy ({ s with log := log }.leave k line o (.ok ())) := by
  have hsize : log.size = s.log.size := by rw [Log.size, Log.size, haof]
  have hfiled : ∀ r ∈ s.acknowledged ++ [⟨log.file.sequence, line, log.size⟩],
      r.In (s.log.disk.aof.getD []) := by
    rw [List.forall_mem_append, List.forall_mem_singleton]
    exact ⟨h.filed, hin⟩
  refine ⟨hpolicy, ?_, ?_, fun halways r hr ↦ ?_, fun _ _ r hr ↦ ?_⟩
  · simp only [leave, List.map_append, List.map_cons, List.map_nil, h.lines,
      acknowledgedLines_leave]
  · simp only [leave, haof]
    exact hfiled
  · rcases hsynced with hall | ⟨hnot, -⟩
    · exact (hfiled r hr).1.trans hall.ge
    · exact absurd halways hnot
  · rcases hsynced with hall | ⟨-, hdue⟩
    · exact Or.inl ((hfiled r hr).1.trans hall.ge)
    · exact Or.inr hdue

theorem covered_step (hserial : Serial l₀ s) (h : Covered policy s) (hstep : Step s s') :
    Covered policy s' := by
  have hpolicy := h.kept
  cases hstep with
  | callAppend | lockAppend | lockSyncer | unlockSyncer | wake | clean | callOwner | lockOwner
  | nothing | stop | join | number =>
      exact h.mono [] [] hpolicy rfl (by simp [setFile]) le_rfl (by simp [setFile]) rfl
        fun hd ho ↦ ⟨hd, ho⟩
  | retry => exact h
  | refuse | fail | unsynced | flushFail | openFail =>
      exact h.mono [] _ hpolicy rfl (by simp [leave]) le_rfl rfl rfl fun hd ho ↦ ⟨hd, ho⟩
  | write k line written count hpc hcount hsize =>
      exact h.mono (((numberedLine s.log.file.sequence line).drop written).take count) [] hpolicy
        rfl (by simp) le_rfl (by simp) rfl fun hd ho ↦ ⟨hd, ho⟩
  | soil k line written hpc hdone hsoil =>
      exact h.mono [] [] hpolicy rfl (by simp [setFile]) le_rfl (by simp [setFile]) rfl
        fun _ ho ↦ ⟨rfl, ho⟩
  | finish k line written hpc hdone hfinish =>
      refine covered_leave h _ s.log.soiled hpolicy rfl (in_of_writing hserial hpc hdone)
        (Or.inr ⟨fun halways ↦ hfinish (hpolicy.trans halways), rfl, ?_⟩)
      exact opened_of_writing hserial hpc
  | synced k line hpc =>
      exact covered_leave h _ s.log.flushed hpolicy rfl (in_of_syncing hserial hpc)
        (Or.inl rfl)
  | flush hpc => exact h.of_flushed hpolicy rfl rfl rfl (by simp [acknowledgedLines])
  | «open» o hpc hclosed file hfile disk hdisk hopen =>
      subst hfile hdisk
      refine h.mono [] _ hpolicy rfl (by simp) le_rfl rfl rfl fun _ ho ↦ ?_
      rw [hclosed] at ho
      simp at ho
  | shutSynced hpc hopened hdirty hnever =>
      exact h.of_flushed hpolicy rfl rfl rfl (by simp [LogThreads.shut, setFile, acknowledgedLines])
  | shutFail hpc hopened =>
      refine ⟨hpolicy, ?_, h.filed, h.always, fun _ hclosed ↦ absurd ?_ (hclosed (.ok ()))⟩
      · simpa [LogThreads.shut, setFile, acknowledgedLines] using h.lines
      · exact List.mem_append_right _ (List.mem_singleton.mpr rfl)
  | shut hpc hopened hclean =>
      refine ⟨hpolicy, ?_, h.filed, h.always, fun hnever hclosed r hr ↦ Or.inl ?_⟩
      · simpa [LogThreads.shut, setFile, acknowledgedLines] using h.lines
      · have hclosed' : ∀ result, (LogCall.close false, result) ∉ s.history :=
          fun result hmem ↦ hclosed result (List.mem_append_left _ hmem)
        exact (h.due hnever hclosed' r hr).resolve_right fun hdue ↦
          hclean ⟨hdue.1, hpolicy ▸ hnever⟩

omit [DecidableEq κ] in
theorem covered_start (f : AppendOnlyFile) (disk : Disk) :
    Covered f.fsyncPolicy (start f disk : LogThreads κ) :=
  ⟨rfl, rfl, by simp [start], by simp [start], by simp [start]⟩

/-- What holds in every state of a log that is used. -/
structure Used (f : AppendOnlyFile) (disk : Disk) (s : LogThreads κ) : Prop where
  tended : Tended s
  serial : Serial { file := f, disk } s
  covered : Covered f.fsyncPolicy s

theorem used_step {f : AppendOnlyFile} {disk : Disk} {e : LogThreadsEvent κ} (h : Used f disk s)
    (hstep : s.step e = some s') : Used f disk s' := by
  have hs := step_of_event hstep
  exact ⟨tended_step h.tended hs, serial_step h.tended h.serial hs,
    covered_step h.serial h.covered hs⟩

theorem used_run {f : AppendOnlyFile} {disk : Disk} {events : List (LogThreadsEvent κ)}
    (h : Used f disk s) (hrun : run step s events = some s') : Used f disk s' :=
  run_invariant (Q := fun _ _ ↦ True) (P := fun _ s ↦ Used f disk s) h
    (fun _ _ _ _ hs _ hstep ↦ used_step hs hstep) (along_of_forall (fun _ _ ↦ trivial) _ events)
    hrun

omit [DecidableEq κ] in
theorem used_start {f : AppendOnlyFile} (henabled : f.enabled = true) (hclosed : f.opened = false)
    (disk : Disk) : Used f disk (start f disk : LogThreads κ) :=
  ⟨tended_start hclosed disk, serial_start henabled hclosed disk, covered_start f disk⟩

end LogThreads

/-- The records that `append_line` has acknowledged, one for each call that has returned
true, are in the file at their places.  With `Always` they are in the part of it that
is on disk.  With `EverySec` they are, or `dirty_` is set, the descriptor is open and
the sync thread or `close` is there to sync; once the log is closed they are on disk, as
long as no `fsync` of a `close` has failed. -/
theorem acknowledged_on_disk {κ : Type*} [DecidableEq κ] (f : AppendOnlyFile) (disk : Disk)
    (events : List (LogThreadsEvent κ)) (s : LogThreads κ) (henabled : f.enabled = true)
    (hclosed : f.opened = false)
    (hrun : run LogThreads.step (LogThreads.start f disk) events = some s) :
    s.acknowledged.map LogRecord.line = acknowledgedLines s.history ∧
      (∀ r ∈ s.acknowledged, r.In (s.log.disk.aof.getD [])) ∧
      (f.fsyncPolicy = .always → ∀ r ∈ s.acknowledged, r.In s.log.onDisk) ∧
      (f.fsyncPolicy = .everySec → (∀ result, (.close false, result) ∉ s.history) →
        ∀ r ∈ s.acknowledged, r.In s.log.onDisk ∨
          s.log.file.dirty = true ∧ s.log.file.opened = true ∧
            (s.syncer ≠ .absent ∨ s.owner.Closing)) := by
  obtain ⟨htended, -, hcovered⟩ :=
    LogThreads.used_run (LogThreads.used_start henabled hclosed disk) hrun
  refine ⟨hcovered.lines, hcovered.filed, fun halways r hr ↦ ?_, fun hpolicy hsynced r hr ↦ ?_⟩
  · exact (hcovered.filed r hr).take (hcovered.always halways r hr)
  · rcases hcovered.due (by simp [hpolicy]) hsynced r hr with hle | ⟨hdirty, hopened⟩
    · exact Or.inl ((hcovered.filed r hr).take hle)
    · refine Or.inr ⟨hdirty, hopened, ?_⟩
      by_cases hstop : s.stopping = true
      · exact Or.inr (htended.owned hstop hopened)
      · exact Or.inl (htended.alive hopened (hcovered.kept.trans hpolicy) (by simpa using hstop))

/-- The call is not a `close` whose `fsync` fails. -/
def LogCall.syncs : LogCall → Bool
  | .close synced => synced
  | _ => true

/-- A thread appends and another one closes the log. -/
def closingLog : List (LogThreadsEvent Unit) :=
  [.open {}, .owner .done, .owner .done, .append () (ascii "A"), .close]

/-- How it goes on: the record is written first. -/
def closingLogEnd : List (LogThreadsEvent Unit) :=
  [.appender () .done, .appender () .done, .appender () (.wrote 4), .appender () .done,
    .owner .done, .owner .done, .syncer .done, .syncer .done, .owner .done, .owner .done,
    .owner .done]

theorem acknowledged_on_disk_closingLog :
    ∃ s : LogThreads Unit,
      run LogThreads.step (LogThreads.start { enabled := true } {})
        (closingLog ++ closingLogEnd) = some s ∧
      s.acknowledged = [⟨1, ascii "A", 4⟩] ∧ s.log.file.opened = false ∧
      ∀ r ∈ s.acknowledged, r.In s.log.onDisk := by
  have hsummary : (run LogThreads.step
      (LogThreads.start { enabled := true } {} : LogThreads Unit)
      (closingLog ++ closingLogEnd)).map (fun s ↦ (s.acknowledged, s.log.file.opened,
        s.history.all fun entry ↦ entry.1.syncs)) =
      some ([⟨1, ascii "A", 4⟩], false, true) := by decide +kernel
  obtain ⟨s, hrun, hs⟩ := Option.map_eq_some_iff.mp hsummary
  simp only [Prod.mk.injEq] at hs
  obtain ⟨hack, hclosed, hall⟩ := hs
  have hsynced : ∀ result, (.close false, result) ∉ s.history := by
    intro result hmem
    simpa [LogCall.syncs] using List.all_eq_true.mp hall _ hmem
  refine ⟨s, hrun, hack, hclosed, fun r hr ↦ ?_⟩
  have hdue := (acknowledged_on_disk _ _ _ s rfl rfl hrun).2.2.2 rfl hsynced r hr
  simpa [hclosed] using hdue

/-! ## Closing comes to an end -/

theorem length_numberedLine_le (sequence : UInt64) (line : Bytes) :
    (numberedLine sequence line).length ≤ line.length + 22 := by
  have hdigits : (toStringU64 sequence).length ≤ 20 := by
    unfold toStringU64 Numerals.printNat
    split
    · simp
    · rw [List.length_map, List.length_reverse, Nat.digits_length_le_iff (by norm_num)]
      exact sequence.toNat_lt.trans (by norm_num)
  simp only [numberedLine, List.length_append, List.length_cons, List.length_nil]
  omega

/-- How many steps are left for an append; a record is at most 22 bytes longer than its
line. -/
def AppenderPc.work : AppenderPc → ℕ
  | .idle => 0
  | .syncing _ => 1
  | .writing line written => line.length + 22 - written + 2
  | .entered line => line.length + 25
  | .locking line => line.length + 26

/-- How many steps are left for the sync thread until it sleeps, or leaves. -/
def SyncerPc.work (stopping : Bool) : SyncerPc → ℕ
  | .absent | .exited => 0
  | .locking => 3
  | .checking => if stopping then 2 else 1
  | .flushing => if stopping then 3 else 2
  | .waking => if stopping then 4 else 3
  | .waiting => if stopping then 5 else 0

/-- How many steps are left for the owner, with those it causes. -/
def OwnerPc.work : OwnerPc → ℕ
  | .idle => 0
  | .closing => 1
  | .relocking => 2
  | .joining => 3
  | .opening _ | .stopping => 10
  | .openLocking _ | .closeLocking => 11

namespace LogThreads

variable {κ : Type*} {s s' : LogThreads κ}

/-- The events that need no new call and no timeout, and that take an append forward. -/
def Genuine (s : LogThreads κ) : LogThreadsEvent κ → Prop
  | .append _ _ | .open _ | .close => False
  | .appender _ .interrupted => False
  | .appender _ (.wrote count) => 0 < count
  | .appender _ _ => True
  | .syncer _ => s.syncer = .waiting → s.stopping = true
  | .owner _ => True

instance (s : LogThreads κ) : (e : LogThreadsEvent κ) → Decidable (s.Genuine e)
  | .append _ _ | .open _ | .close | .appender _ .interrupted => inferInstanceAs (Decidable False)
  | .appender _ (.wrote count) => inferInstanceAs (Decidable (0 < count))
  | .appender _ .done | .appender _ (.failed _) | .owner _ => inferInstanceAs (Decidable True)
  | .syncer _ => inferInstanceAs (Decidable (s.syncer = .waiting → s.stopping = true))

variable [Fintype κ]

/-- A bound on the genuine steps to come. -/
def work (s : LogThreads κ) : ℕ :=
  total AppenderPc.work s.appenders + s.syncer.work s.stopping + s.owner.work

variable [DecidableEq κ]

theorem work_appender {k : κ} (pc : AppenderPc) (hpc : pc.work < (s.appenders k).work)
    (happenders : s'.appenders = Function.update s.appenders k pc) (hsyncer : s'.syncer = s.syncer)
    (hstopping : s'.stopping = s.stopping) (howner : s'.owner = s.owner) : s'.work < s.work := by
  have hsum := total_update AppenderPc.work s.appenders k pc
  simp only [work, happenders, hsyncer, hstopping, howner]
  omega

theorem work_appenderStep {k : κ} {r : SystemResult} (hgenuine : s.Genuine (.appender k r))
    (h : s.appenderStep k r = some s') : s'.work < s.work := by
  unfold appenderStep at h
  dsimp only at h
  split at h
  · simp at h
  · rename_i line hpc
    simp only [Option.ite_none_right_eq_some, Option.some.injEq] at h
    obtain ⟨-, rfl⟩ := h
    exact work_appender _ (by simp [hpc, AppenderPc.work]) rfl rfl rfl rfl
  · rename_i line hpc
    split at h <;> obtain rfl := Option.some.inj h
    · exact work_appender .idle (by simp [hpc, AppenderPc.work]) rfl rfl rfl rfl
    · exact work_appender _ (by simp [hpc, AppenderPc.work]) rfl rfl rfl rfl
  · rename_i line written hpc
    split at h
    · split at h <;> obtain rfl := Option.some.inj h
      · exact work_appender _ (by simp [hpc, AppenderPc.work]) rfl rfl rfl rfl
      · exact work_appender .idle (by simp [hpc, AppenderPc.work]) rfl rfl rfl rfl
    · rename_i hleft
      split at h
      · rename_i count
        simp only [Option.ite_none_right_eq_some, Option.some.injEq] at h
        obtain ⟨-, rfl⟩ := h
        refine work_appender (.writing line (written + count)) ?_ rfl rfl rfl rfl
        have hpos : 0 < count := hgenuine
        have hwritten : written < (numberedLine s.log.file.sequence line).length := by
          by_contra hdone
          exact hleft (List.drop_eq_nil_iff.mpr (not_lt.mp hdone))
        have hlength := length_numberedLine_le s.log.file.sequence line
        simp only [hpc, AppenderPc.work]
        omega
      · exact hgenuine.elim
      · obtain rfl := Option.some.inj h
        exact work_appender .idle (by simp [hpc, AppenderPc.work]) rfl rfl rfl rfl
      · simp at h
  · rename_i line hpc
    split at h
    · obtain rfl := Option.some.inj h
      exact work_appender .idle (by simp [hpc, AppenderPc.work]) rfl rfl rfl rfl
    · obtain rfl := Option.some.inj h
      exact work_appender .idle (by simp [hpc, AppenderPc.work]) rfl rfl rfl rfl
    · simp at h

omit [DecidableEq κ] in
theorem work_syncerStep {r : SystemResult} (hgenuine : s.Genuine (.syncer r))
    (h : s.syncerStep r = some s') : s'.work < s.work := by
  unfold syncerStep at h
  split at h
  case h_1 | h_2 => simp at h
  case h_3 hpc | h_6 hpc =>
      simp only [Option.ite_none_right_eq_some, Option.some.injEq] at h
      obtain ⟨-, rfl⟩ := h
      cases hstop : s.stopping <;> simp [work, hpc, SyncerPc.work, hstop]
  case h_4 hpc =>
      split at h <;> rename_i hstop <;> obtain rfl := Option.some.inj h <;>
        simp [work, hpc, SyncerPc.work, hstop]
  case h_5 hpc =>
      obtain rfl := Option.some.inj h
      simp [work, hpc, SyncerPc.work, hgenuine hpc]
  case h_7 hpc =>
      split at h
      · split at h
        · obtain rfl := Option.some.inj h
          cases hstop : s.stopping <;> simp [work, hpc, SyncerPc.work, hstop]
        · obtain rfl := Option.some.inj h
          cases hstop : s.stopping <;> simp [work, hpc, SyncerPc.work, hstop]
        · simp at h
      · obtain rfl := Option.some.inj h
        cases hstop : s.stopping <;> simp [work, hpc, SyncerPc.work, hstop]

omit [DecidableEq κ] in
/-- The owner moves and leaves at most five steps more to the sync thread. -/
theorem work_owner (happenders : s'.appenders = s.appenders)
    (h : s'.syncer.work s'.stopping + s'.owner.work < s.syncer.work s.stopping + s.owner.work) :
    s'.work < s.work := by
  simp only [work, happenders]
  omega

omit [DecidableEq κ] in
theorem work_stopping (pc : SyncerPc) : pc.work true ≤ pc.work false + 5 := by
  cases pc <;> simp [SyncerPc.work]

omit [DecidableEq κ] in
theorem work_ownerStep (htended : Tended s) {r : SystemResult} (h : s.ownerStep r = some s') :
    s'.work < s.work := by
  unfold ownerStep at h
  split at h
  case h_1 => simp at h
  case h_2 o hpc =>
      simp only [Option.ite_none_right_eq_some, Option.some.injEq] at h
      obtain ⟨-, rfl⟩ := h
      exact work_owner rfl (by simp [hpc, OwnerPc.work])
  case h_3 o hpc =>
      dsimp only at h
      rcases open_cases s.log.file s.log.disk o with ⟨result, hopen⟩ | ⟨hclosed, hopen⟩
      · rw [hopen] at h
        obtain rfl := Option.some.inj h
        exact work_owner rfl (by simp [hpc, OwnerPc.work])
      · have habsent : s.syncer = .absent := by
          by_contra hthere
          simp [htended.opened hthere] at hclosed
        rw [hopen] at h
        obtain rfl := Option.some.inj h
        refine work_owner rfl ?_
        by_cases hevery : s.log.file.fsyncPolicy = .everySec <;>
          simp [hpc, OwnerPc.work, hclosed, habsent, hevery, SyncerPc.work]
  case h_4 hpc =>
      simp only [Option.ite_none_right_eq_some, Option.some.injEq] at h
      obtain ⟨-, rfl⟩ := h
      exact work_owner rfl (by simp [hpc, OwnerPc.work])
  case h_5 hpc =>
      split at h
      · obtain rfl := Option.some.inj h
        exact work_owner rfl (by simp [hpc, OwnerPc.work])
      · obtain rfl := Option.some.inj h
        refine work_owner rfl ?_
        have hmore := work_stopping s.syncer
        cases hstop : s.stopping <;> simp only [hpc, OwnerPc.work] <;> omega
  case h_6 hpc =>
      simp only [Option.ite_none_right_eq_some, Option.some.injEq] at h
      obtain ⟨hgone, rfl⟩ := h
      refine work_owner rfl ?_
      rcases hgone with hgone | hgone <;> simp [hpc, OwnerPc.work, hgone, SyncerPc.work]
  case h_7 hpc =>
      simp only [Option.ite_none_right_eq_some, Option.some.injEq] at h
      obtain ⟨-, rfl⟩ := h
      exact work_owner rfl (by simp [hpc, OwnerPc.work])
  case h_8 hpc =>
      split at h
      · obtain rfl := Option.some.inj h
        exact work_owner rfl (by simp [hpc, OwnerPc.work])
      · split at h
        · split at h
          · obtain rfl := Option.some.inj h
            exact work_owner rfl (by simp [hpc, OwnerPc.work, LogThreads.shut, setFile])
          · obtain rfl := Option.some.inj h
            exact work_owner rfl (by simp [hpc, OwnerPc.work, LogThreads.shut, setFile])
          · simp at h
        · obtain rfl := Option.some.inj h
          exact work_owner rfl (by simp [hpc, OwnerPc.work, LogThreads.shut, setFile])

theorem work_step (htended : Tended s) {e : LogThreadsEvent κ} (hgenuine : s.Genuine e)
    (h : s.step e = some s') : s'.work < s.work := by
  cases e with
  | append | «open» | close => exact hgenuine.elim
  | appender k r => exact work_appenderStep hgenuine h
  | syncer r => exact work_syncerStep hgenuine h
  | owner r => exact work_ownerStep htended h

omit [Fintype κ]

/-- Whoever has the mutex is inside. -/
def Held (s : LogThreads κ) : Prop := ∀ t, s.mutex = some t → s.inside t = true

theorem Held.of_appender {k : κ} {pc : AppenderPc} (h : Held s) (hmutex : s'.mutex = s.mutex)
    (happenders : s'.appenders = Function.update s.appenders k pc) (hsyncer : s'.syncer = s.syncer)
    (howner : s'.owner = s.owner) (hpc : (s.appenders k).inside = true → pc.inside = true) :
    Held s' := by
  intro t ht
  rw [hmutex] at ht
  have hold := h t ht
  cases t with
  | appender j =>
      simp only [inside, happenders, Function.update_apply] at hold ⊢
      split
      · rename_i hj
        exact hpc (hj ▸ hold)
      · exact hold
  | syncer => simpa only [inside, hsyncer] using hold
  | owner => simpa only [inside, howner] using hold

omit [DecidableEq κ] in
theorem Held.of_control (h : Held s) (hmutex : s'.mutex = s.mutex)
    (happenders : s'.appenders = s.appenders)
    (hsyncer : s.syncer.inside = true → s'.syncer.inside = true)
    (howner : s.owner.inside = true → s'.owner.inside = true) : Held s' := by
  intro t ht
  rw [hmutex] at ht
  have hold := h t ht
  cases t with
  | appender j => simpa only [inside, happenders] using hold
  | syncer => exact hsyncer hold
  | owner => exact howner hold

theorem held_step (h : Held s) (hstep : Step s s') : Held s' := by
  cases hstep with
  | callAppend k line hpc =>
      exact h.of_appender rfl rfl rfl rfl (by simp [hpc, AppenderPc.inside])
  | number | soil | write => exact h.of_appender rfl rfl rfl rfl fun _ ↦ rfl
  | retry => exact h
  | lockAppend k line hpc hfree =>
      intro t ht
      obtain rfl := Option.some.inj ht
      simp [inside, AppenderPc.inside]
  | lockSyncer pc hfree hpc =>
      intro t ht
      obtain rfl := Option.some.inj ht
      rcases hpc with ⟨-, rfl⟩ | ⟨-, rfl⟩ <;> rfl
  | lockOwner pc hfree hpc =>
      intro t ht
      obtain rfl := Option.some.inj ht
      rcases hpc with ⟨o, -, rfl⟩ | ⟨-, rfl⟩ | ⟨-, rfl⟩ <;> rfl
  | wake hpc => exact h.of_control rfl rfl (by simp [hpc, SyncerPc.inside]) id
  | clean hpc | flush hpc | flushFail hpc => exact h.of_control rfl rfl (fun _ ↦ rfl) id
  | callOwner pc hpc hnext => exact h.of_control rfl rfl id (by simp [hpc, OwnerPc.inside])
  | join hpc hexited =>
      refine h.of_control rfl rfl ?_ (by simp [hpc, OwnerPc.inside])
      rcases hexited with hgone | hgone <;> simp [hgone, SyncerPc.inside]
  | refuse | fail | finish | synced | unsynced | unlockSyncer | openFail | «open» | nothing | stop
  | shutSynced | shutFail | shut =>
      intro t ht
      simp [leave, LogThreads.shut] at ht

theorem held_run (f : AppendOnlyFile) (disk : Disk) (events : List (LogThreadsEvent κ))
    (hrun : run step (start f disk) events = some s) : Held s :=
  run_invariant (Q := fun _ _ ↦ True) (P := fun _ s ↦ Held s) (fun _ ht ↦ by simp [start] at ht)
    (fun _ _ _ _ hs _ hstep ↦ held_step hs (step_of_event hstep))
    (along_of_forall (fun _ _ ↦ trivial) _ events) hrun

/-! What a log at rest looks like. -/

theorem appender_of_blocked (hblocked : Blocked step Genuine s) {k : κ}
    (hin : (s.appenders k).inside = true) : False := by
  have hnone : ∀ r, s.Genuine (.appender k r) → s.appenderStep k r = none :=
    fun r hr ↦ hblocked (.appender k r) hr
  have hdone := hnone .done trivial
  have hfailed := hnone (.failed []) trivial
  cases hpc : s.appenders k with
  | idle => simp [hpc, AppenderPc.inside] at hin
  | locking line => simp [hpc, AppenderPc.inside] at hin
  | entered line =>
      simp only [appenderStep, hpc] at hdone
      split at hdone <;> simp at hdone
  | writing line written =>
      simp only [appenderStep, hpc] at hfailed
      split at hfailed
      · split at hfailed <;> simp at hfailed
      · simp at hfailed
  | syncing line => simp [appenderStep, hpc] at hdone

theorem syncer_of_blocked (hblocked : Blocked step Genuine s) (hin : s.syncer.inside = true) :
    False := by
  have hdone : (s.syncer = .waiting → s.stopping = true) → s.syncerStep .done = none :=
    hblocked (.syncer .done)
  cases hpc : s.syncer with
  | checking =>
      simp only [syncerStep, hpc] at hdone
      split at hdone <;> simp at hdone
  | flushing =>
      simp only [syncerStep, hpc] at hdone
      split at hdone <;> simp at hdone
  | absent | locking | waiting | waking | exited => simp [hpc, SyncerPc.inside] at hin

theorem owner_of_blocked (hblocked : Blocked step Genuine s) (hin : s.owner.inside = true) :
    False := by
  have hdone : s.ownerStep .done = none := hblocked (.owner .done) trivial
  cases hpc : s.owner with
  | opening o => simp [ownerStep, hpc] at hdone
  | stopping =>
      simp only [ownerStep, hpc] at hdone
      split at hdone <;> simp at hdone
  | closing =>
      simp only [ownerStep, hpc] at hdone
      split at hdone
      · simp at hdone
      · split at hdone <;> simp at hdone
  | idle | openLocking | closeLocking | joining | relocking =>
      simp [hpc, OwnerPc.inside] at hin

theorem mutex_of_blocked (hheld : Held s) (hblocked : Blocked step Genuine s) : s.mutex = none := by
  by_contra hsome
  obtain ⟨t, ht⟩ := Option.ne_none_iff_exists'.mp hsome
  have hin := hheld t ht
  cases t with
  | appender k => exact appender_of_blocked hblocked hin
  | syncer => exact syncer_of_blocked hblocked hin
  | owner => exact owner_of_blocked hblocked hin

theorem idle_of_blocked (hheld : Held s) (hblocked : Blocked step Genuine s) (k : κ) :
    s.appenders k = .idle := by
  have hfree := mutex_of_blocked hheld hblocked
  have hdone : s.appenderStep k .done = none := hblocked (.appender k .done) trivial
  cases hpc : s.appenders k with
  | idle => rfl
  | locking line => simp [appenderStep, hpc, hfree] at hdone
  | entered | writing | syncing =>
      exact (appender_of_blocked hblocked (k := k) (by simp [hpc, AppenderPc.inside])).elim

/-- The sync thread sleeps, or it is gone. -/
theorem syncer_asleep (hheld : Held s) (hblocked : Blocked step Genuine s) :
    s.syncer = .absent ∨ s.syncer = .exited ∨ s.syncer = .waiting ∧ s.stopping = false := by
  have hfree := mutex_of_blocked hheld hblocked
  have hdone : (s.syncer = .waiting → s.stopping = true) → s.syncerStep .done = none :=
    hblocked (.syncer .done)
  cases hpc : s.syncer with
  | absent => simp
  | exited => simp
  | waiting =>
      by_cases hstop : s.stopping = true
      · simp [syncerStep, hpc, hstop] at hdone
      · simpa using hstop
  | locking => simp [syncerStep, hpc, hfree] at hdone
  | waking => simp [syncerStep, hpc, hfree] at hdone
  | checking | flushing =>
      exact (syncer_of_blocked hblocked (by simp [hpc, SyncerPc.inside])).elim

theorem owner_idle (htended : Tended s) (hheld : Held s) (hblocked : Blocked step Genuine s) :
    s.owner = .idle := by
  have hfree := mutex_of_blocked hheld hblocked
  have hdone : s.ownerStep .done = none := hblocked (.owner .done) trivial
  cases hpc : s.owner with
  | idle => rfl
  | openLocking o => simp [ownerStep, hpc, hfree] at hdone
  | closeLocking => simp [ownerStep, hpc, hfree] at hdone
  | relocking => simp [ownerStep, hpc, hfree] at hdone
  | joining =>
      -- a sleeping sync thread has been woken up
      have hstop := (htended.closing (Or.inl hpc)).2
      rcases syncer_asleep hheld hblocked with hgone | hgone | ⟨-, hrunning⟩
      · simp [ownerStep, hpc, hgone] at hdone
      · simp [ownerStep, hpc, hgone] at hdone
      · simp [hstop] at hrunning
  | opening | stopping | closing =>
      exact (owner_of_blocked hblocked (by simp [hpc, OwnerPc.inside])).elim

end LogThreads

/-- From every state that a log reaches, only so many steps follow without new calls,
timeouts and writes that take nothing; where none is left, every call has returned,
and after a `close` the descriptor is closed and the sync thread is gone. -/
theorem log_comes_to_rest {κ : Type*} [DecidableEq κ] [Fintype κ] (f : AppendOnlyFile)
    (disk : Disk) (events more : List (LogThreadsEvent κ)) (s s' : LogThreads κ)
    (henabled : f.enabled = true) (hclosed : f.opened = false)
    (hrun : run LogThreads.step (LogThreads.start f disk) events = some s)
    (hgenuine : Along LogThreads.step LogThreads.Genuine s more)
    (hmore : run LogThreads.step s more = some s') :
    more.length ≤ s.work ∧
      (Blocked LogThreads.step LogThreads.Genuine s' →
        (∀ k, s'.appenders k = .idle) ∧ s'.owner = .idle ∧
          (s'.stopping = true → s'.log.file.opened = false ∧ s'.syncer = .absent)) := by
  have hused := LogThreads.used_run (LogThreads.used_start henabled hclosed disk) hrun
  refine ⟨?_, fun hblocked ↦ ?_⟩
  · have hpaid := length_add_le (P := LogThreads.Tended) (μ := LogThreads.work)
      (fun _ _ _ ht _ hstep ↦ LogThreads.tended_step ht (LogThreads.step_of_event hstep))
      (fun _ _ _ ht hQ hstep ↦ LogThreads.work_step ht hQ hstep) hused.tended hgenuine hmore
    omega
  · have hheld : LogThreads.Held s' := by
      apply LogThreads.held_run f disk (events ++ more)
      rw [run_append, hrun]
      exact hmore
    have htended := (LogThreads.used_run hused hmore).tended
    have howner := LogThreads.owner_idle htended hheld hblocked
    refine ⟨LogThreads.idle_of_blocked hheld hblocked, howner, fun hstop ↦ ?_⟩
    have hopened : s'.log.file.opened = false := by
      by_contra hopened
      have hclosing := htended.owned hstop (by simpa using hopened)
      simp [howner, OwnerPc.Closing] at hclosing
    refine ⟨hopened, ?_⟩
    by_contra hthere
    simp [htended.opened hthere] at hopened

theorem log_comes_to_rest_closingLog :
    ∃ s s' : LogThreads Unit,
      run LogThreads.step (LogThreads.start { enabled := true } {}) closingLog = some s ∧
      run LogThreads.step s closingLogEnd = some s' ∧
      Blocked LogThreads.step LogThreads.Genuine s' ∧ closingLogEnd.length ≤ s.work ∧
      s'.log.file.opened = false ∧ s'.syncer = .absent := by
  have hsummary : (run LogThreads.step
      (LogThreads.start { enabled := true } {} : LogThreads Unit) closingLog).bind
      (fun s ↦ (run LogThreads.step s closingLogEnd).map fun s' ↦
        (decide (Along LogThreads.step LogThreads.Genuine s closingLogEnd),
          decide (∀ k, s'.appenders k = .idle),
          decide (s'.owner = .idle), decide (s'.syncer = .absent), s'.stopping)) =
      some (true, true, true, true, true) := by decide +kernel
  obtain ⟨s, hrun, hs⟩ := Option.bind_eq_some_iff.mp hsummary
  obtain ⟨s', hmore, hs'⟩ := Option.map_eq_some_iff.mp hs
  simp only [Prod.mk.injEq, decide_eq_true_eq] at hs'
  obtain ⟨hgenuine, hidle, howner, habsent, hstop⟩ := hs'
  have hblocked : Blocked LogThreads.step LogThreads.Genuine s' := by
    intro e he
    cases e with
    | append | «open» | close => exact he.elim
    | appender k r => simp [LogThreads.step, LogThreads.appenderStep, hidle]
    | syncer r => simp [LogThreads.step, LogThreads.syncerStep, habsent]
    | owner r => simp [LogThreads.step, LogThreads.ownerStep, howner]
  have hrest := log_comes_to_rest _ _ closingLog closingLogEnd s s' rfl rfl hrun hgenuine hmore
  exact ⟨s, s', hrun, hmore, hblocked, hrest.1, (hrest.2 hblocked).2.2 hstop⟩

end ByteCacheDB
