import ByteCacheDB.Checkpoint

/-!
# Lifetimes with and without the log

Lifetimes on the same files may run with the log enabled or disabled.  A
disabled lifetime starts from the snapshot alone and never looks at the log, so
the number it writes into its own snapshots is the one it has loaded.  The files
are described by a ledger of numbers, which every step of a history follows; a
snapshot protects the records in front of it unless a disabled lifetime saves
while the log holds larger numbers.
-/

namespace ByteCacheDB

open CommandParser Lines StorageEngine AppendOnlyFile Runs

/-- The files and the log object, and whether a server is running on them. -/
structure Lifetimes where
  files : LogState
  running : Bool
  deriving DecidableEq

inductive LifetimeEvent (S : Sharding) where
  | start (enabled : Bool) (maxKeys : UInt64) (now : TimePoint)
  | append (command : Command) (o : WriteOutcome)
  | save (storage : StorageEngine S) (now : TimePoint) (o : SaveOutcome)
  | stop

namespace Lifetimes

variable {S : Sharding}

def initial (policy : FsyncPolicy) (path : Bool) : Lifetimes :=
  ⟨LogState.initial policy path, false⟩

/-- A start that fails leaves no server behind and is not a step. -/
def start (S : Sharding) (st : Lifetimes) (enabled : Bool) (maxKeys : UInt64)
    (now : TimePoint) : Option Lifetimes :=
  if st.running then none
  else
    (({ st.files.log with enabled } : AppendOnlyFile).start S st.files.disk maxKeys now).map
      fun r ↦ ⟨{ st.files with log := r.1, disk := r.2.2 }, true⟩

/-- A record is among the recent ones when the log takes all of it. -/
def append (st : Lifetimes) (command : Command) (o : WriteOutcome) : Option Lifetimes :=
  if st.running ∧ Admissible command then
    let size := (record (st.files.log.sequence + 1) command).length
    let result := st.files.log.append st.files.disk o command
    let kept := st.files.log.enabled ∧ st.files.log.opened ∧ size ≤ room st.files.disk o
    some { st with files :=
      { st.files with
        log := result.2.1
        disk := result.2.2
        recent := if kept then st.files.recent ++ [command] else st.files.recent } }
  else none

def save (st : Lifetimes) (storage : StorageEngine S) (now : TimePoint) (o : SaveOutcome) :
    Option Lifetimes :=
  if st.running then
    match st.files.log.saveSnapshot st.files.disk storage now o with
    | (.error _, disk) => some { st with files := { st.files with disk := disk } }
    | (.ok (), disk) =>
        some { st with files :=
          { st.files with
            disk := disk, earlier := st.files.earlier ++ st.files.recent, recent := [] } }
  else none

def step (st : Lifetimes) : LifetimeEvent S → Option Lifetimes
  | .start enabled maxKeys now => st.start S enabled maxKeys now
  | .append command o => st.append command o
  | .save storage now o => st.save storage now o
  | .stop =>
      if st.running then
        some ⟨{ st.files with log := { st.files.log with opened := false } }, false⟩
      else none

/-- Replay skips every record that was in the log at the last successful save. -/
def Protected (st : Lifetimes) : Prop :=
  ∀ header, HasHeader st.files.log st.files.disk header →
    ∀ r ∈ (decodeLog (st.files.disk.aof.getD [])).take st.files.earlier.length, r.1 ≤ header

/-- Appends leave no part of a record behind, and the counter does not wrap. -/
def AppendsWell (st : Lifetimes) : LifetimeEvent S → Prop
  | .append command o =>
      st.files.log.enabled = true →
        (room st.files.disk o = 0 ∨
          (record (st.files.log.sequence + 1) command).length ≤ room st.files.disk o) ∧
        st.files.log.sequence.toNat + 1 < 2 ^ 64
  | _ => True

instance (st : Lifetimes) : (e : LifetimeEvent S) → Decidable (st.AppendsWell e)
  | .start _ _ _ => isTrue trivial
  | .append _ _ => inferInstanceAs (Decidable (_ → _))
  | .save _ _ _ => isTrue trivial
  | .stop => isTrue trivial

/-- A lifetime with the log disabled saves only when the log holds no number
above its counter. -/
def SavesWell (st : Lifetimes) : LifetimeEvent S → Prop
  | .save storage now o =>
      st.files.log.enabled = false →
        (st.files.log.saveSnapshot st.files.disk storage now o).1 = .ok () →
          ∀ r ∈ decodeLog (st.files.disk.aof.getD []), r.1 ≤ st.files.log.sequence
  | _ => True

instance (st : Lifetimes) : (e : LifetimeEvent S) → Decidable (st.SavesWell e)
  | .start _ _ _ => isTrue trivial
  | .append _ _ => isTrue trivial
  | .save _ _ _ => inferInstanceAs (Decidable (_ → _))
  | .stop => isTrue trivial

end Lifetimes

/-! ## The ledger -/

/-- The numbers in the files: the counter, the snapshot's number, and the
records in front of the last save and behind it. -/
structure Ledger where
  running : Bool
  enabled : Bool
  sequence : UInt64
  header : UInt64
  old : List (UInt64 × Command)
  new : List (UInt64 × Command)

inductive LedgerEvent where
  | start (enabled : Bool)
  | write (command : Command)
  | burn
  | save
  | stop
  | idle

namespace Ledger

def next (l : Ledger) : LedgerEvent → Ledger
  | .start enabled =>
      { l with
        running := true
        enabled := enabled
        sequence := if enabled then maxSequence l.header (l.old ++ l.new) else l.header }
  | .write command =>
      { l with sequence := l.sequence + 1, new := l.new ++ [(l.sequence + 1, command)] }
  | .burn => { l with sequence := l.sequence + 1 }
  | .save => { l with header := l.sequence, old := l.old ++ l.new, new := [] }
  | .stop => { l with running := false }
  | .idle => l

/-- Numbers are drawn by running servers with the log enabled and do not wrap; a
save stands above everything in the log when the log is disabled. -/
def Allows (l : Ledger) : LedgerEvent → Prop
  | .write _ | .burn =>
      l.running = true ∧ l.enabled = true ∧ l.sequence.toNat + 1 < 2 ^ 64
  | .save => l.running = true ∧ (l.enabled = false → ∀ r ∈ l.old ++ l.new, r.1 ≤ l.sequence)
  | _ => True

/-- The snapshot's number separates the two parts of the log.  A running server
is past that number, and past every record if it has read the log. -/
structure Ordered (l : Ledger) : Prop where
  bordered : Bordered l.header l.old l.new
  header_le : l.running = true → l.header ≤ l.sequence
  last : l.running = true → l.enabled = true → ∀ r ∈ l.old ++ l.new, r.1 ≤ l.sequence

variable {l : Ledger}

theorem lt_succ {m : UInt64} (hm : m.toNat + 1 < 2 ^ 64) : m < m + 1 :=
  (lt_succ_of_counted (le_refl m.toNat) hm).1

theorem Ordered.start (h : l.Ordered) (enabled : Bool) : (l.next (.start enabled)).Ordered := by
  obtain ⟨hheader, hlast, -⟩ := maxSequence_spec l.header (l.old ++ l.new)
  refine ⟨h.bordered, fun _ ↦ ?_, fun _ henabled ↦ ?_⟩
  · cases enabled with
    | true => exact hheader
    | false => exact UInt64.le_refl _
  · subst henabled
    exact hlast

theorem Ordered.burn (h : l.Ordered) (hallows : l.Allows .burn) : (l.next .burn).Ordered := by
  obtain ⟨-, -, hwrap⟩ := hallows
  have hle := UInt64.le_of_lt (lt_succ hwrap)
  exact ⟨h.bordered, fun hrunning ↦ UInt64.le_trans (h.header_le hrunning) hle,
    fun hrunning henabled r hr ↦ UInt64.le_trans (h.last hrunning henabled r hr) hle⟩

theorem Ordered.write (h : l.Ordered) {command : Command} (hallows : l.Allows (.write command)) :
    (l.next (.write command)).Ordered := by
  obtain ⟨hrunning, henabled, hwrap⟩ := hallows
  have hlt := lt_succ hwrap
  have hle := UInt64.le_of_lt hlt
  exact ⟨h.bordered.concat (UInt64.lt_of_le_of_lt (h.header_le hrunning) hlt) command,
    fun _ ↦ UInt64.le_trans (h.header_le hrunning) hle,
    fun _ _ ↦ forall_le_concat (h.last hrunning henabled) hle command⟩

theorem Ordered.save (h : l.Ordered) (hallows : l.Allows .save) : (l.next .save).Ordered := by
  obtain ⟨hrunning, hcovers⟩ := hallows
  have hlast : ∀ r ∈ l.old ++ l.new, r.1 ≤ l.sequence := by
    cases henabled : l.enabled with
    | true => exact h.last hrunning henabled
    | false => exact hcovers henabled
  refine ⟨⟨hlast, by simp [next]⟩, fun _ ↦ UInt64.le_refl _, fun _ _ r hr ↦ hlast r ?_⟩
  simpa [next] using hr

theorem Ordered.next (h : l.Ordered) (a : LedgerEvent) (hallows : l.Allows a) :
    (l.next a).Ordered := by
  cases a with
  | start enabled => exact h.start enabled
  | write command => exact h.write hallows
  | burn => exact h.burn hallows
  | save => exact h.save hallows
  | stop => exact ⟨h.bordered, by simp [Ledger.next], by simp [Ledger.next]⟩
  | idle => exact h

/-! ## The files follow the ledger -/

/-- What the ledger says of the files and the server. -/
structure Describes (l : Ledger) (st : Lifetimes) : Prop where
  running : st.running = l.running
  enabled : st.files.log.enabled = l.enabled
  opened : l.running = true → l.enabled = true → st.files.log.opened = true
  sequence : st.files.log.sequence = l.sequence
  filed : st.files.Filed l.header l.old l.new

theorem describes_initial (policy : FsyncPolicy) (path : Bool) :
    Describes ⟨false, true, 0, 0, [], []⟩ (Lifetimes.initial policy path) where
  running := rfl
  enabled := rfl
  opened := by simp
  sequence := rfl
  filed := ⟨Or.inl ⟨Or.inr rfl, rfl⟩, ⟨rfl, by simp⟩, rfl, rfl⟩

section
variable {S : Sharding} {st st' : Lifetimes}

theorem Describes.decodeLog_eq (h : l.Describes st) :
    decodeLog (st.files.disk.aof.getD []) =
      (l.old ++ l.new).map fun r ↦ (r.1, .ok r.2) := by
  rw [h.filed.hasRecords.aof]
  exact decodeLog_written h.filed.hasRecords.admissible

theorem Describes.forall_decodeLog (h : l.Describes st) {bound : UInt64} :
    (∀ r ∈ decodeLog (st.files.disk.aof.getD []), r.1 ≤ bound) ↔
      ∀ r ∈ l.old ++ l.new, r.1 ≤ bound := by
  rw [h.decodeLog_eq, List.forall_mem_map]

end

end Ledger

section
variable {S : Sharding}

theorem hasHeader_unique {f : AppendOnlyFile} {disk : Disk} {m n : UInt64}
    (hm : HasHeader f disk m) (hn : HasHeader f disk n) : m = n := by
  rcases hm with ⟨hnone, rfl⟩ | ⟨hpath, entries, hfile⟩
  · rcases hn with ⟨-, rfl⟩ | ⟨hpath, entries, hfile⟩
    · rfl
    · simp [hpath, hfile] at hnone
  · rcases hn with ⟨hnone, -⟩ | ⟨-, entries', hfile'⟩
    · simp [hpath, hfile] at hnone
    · have hlines := congrArg (getlines newline) (Option.some.inj (hfile.symm.trans hfile'))
      rw [getlines_snapshotFile, getlines_snapshotFile] at hlines
      have hparsed := congrArg parseHeader (List.cons.inj hlines).1
      rw [parseHeader_snapshotHeader, parseHeader_snapshotHeader] at hparsed
      exact Option.some.inj hparsed

/-- Without the log the recovery is the loaded snapshot. -/
theorem recover_disabled {f : AppendOnlyFile} (hdisabled : f.enabled = false) (disk : Disk)
    (s : StorageEngine S) (now : TimePoint) :
    f.recover disk s now =
      (f.loadSnapshot disk (s.setEvictionEnabled false) now).map fun r ↦
        ({ f with sequence := r.1 }, (r.2.setEvictionEnabled true).takeEvictedKeys.2) := by
  simp only [recover]
  cases f.loadSnapshot disk (s.setEvictionEnabled false) now with
  | error e => rfl
  | ok r => simp [bind, Except.bind, Except.map, replayAfter, hdisabled]

/-- Without the log a new process takes its number from the snapshot. -/
theorem start_disabled {f : AppendOnlyFile} (hdisabled : f.enabled = false) {disk : Disk}
    {header : UInt64} (hheader : HasHeader f.fresh disk header) {maxKeys : UInt64}
    {now : TimePoint} {r : AppendOnlyFile × StorageEngine S × Disk}
    (h : f.start S disk maxKeys now = some r) :
    r.1 = { f.fresh with sequence := header } ∧ r.2.2 = disk := by
  have hfresh : f.fresh.enabled = false := hdisabled
  unfold AppendOnlyFile.start at h
  rw [recover_disabled hfresh] at h
  cases hload : f.fresh.loadSnapshot disk
      (({ maxKeys := maxKeys } : StorageEngine S).setEvictionEnabled false) now with
  | error e => simp [hload, Except.map] at h
  | ok p =>
      have hnumber := header_of_loadSnapshot hheader hload
      simp only [hload, Except.map, AppendOnlyFile.open, hfresh, Bool.not_false, true_or, if_true,
        Option.some.injEq] at h
      subst h
      rw [← hnumber]
      simp [hfresh]

theorem append_disabled {f : AppendOnlyFile} (hdisabled : f.enabled = false) (disk : Disk)
    (o : WriteOutcome) (command : Command) : (f.append disk o command).2 = (f, disk) := by
  simp [AppendOnlyFile.append, appendLine, hdisabled]

end

namespace Ledger

variable {S : Sharding} {l : Ledger} {st st' : Lifetimes}

/-- A start reads the snapshot's number, and the log's numbers if it may. -/
theorem Describes.start (h : l.Describes st) {enabled : Bool} {maxKeys : UInt64}
    {now : TimePoint} (hstep : st.start S enabled maxKeys now = some st') :
    (l.next (.start enabled)).Describes st' := by
  unfold Lifetimes.start at hstep
  split at hstep
  · simp at hstep
  obtain ⟨r, hstart, rfl⟩ := Option.map_eq_some_iff.mp hstep
  have hheader : HasHeader ({ st.files.log with enabled } : AppendOnlyFile).fresh st.files.disk
    l.header := h.filed.hasHeader
  cases enabled with
  | true =>
      obtain ⟨hlog, hdisk⟩ := start_files rfl hheader h.filed.hasRecords hstart
      rw [hlog, hdisk]
      exact ⟨rfl, rfl, fun _ _ ↦ rfl, rfl, h.filed.opened (by rfl)⟩
  | false =>
      obtain ⟨hlog, hdisk⟩ := start_disabled rfl hheader hstart
      rw [hlog, hdisk]
      exact ⟨rfl, rfl, by simp [Ledger.next], rfl, { h.filed with }⟩

theorem Describes.append (h : l.Describes st) {command : Command} {o : WriteOutcome}
    (hwell : st.AppendsWell (.append command o : LifetimeEvent S))
    (hstep : st.append command o = some st') :
    ∃ a, l.Allows a ∧ (l.next a).Describes st' := by
  unfold Lifetimes.append at hstep
  dsimp only at hstep
  split at hstep
  case isFalse => simp at hstep
  rename_i hguard
  obtain ⟨hrunning, hadm⟩ := hguard
  rw [h.running] at hrunning
  cases henabled : l.enabled with
  | false =>
      have hdisabled : st.files.log.enabled = false := by rw [h.enabled, henabled]
      rw [append_disabled hdisabled] at hstep
      refine ⟨.idle, trivial, ?_⟩
      obtain rfl : st = st' := by simpa [hdisabled] using hstep
      exact h
  | true =>
      have hlog : st.files.log.enabled = true := by rw [h.enabled, henabled]
      have hopened := h.opened hrunning henabled
      obtain ⟨hwhole, hwrap⟩ := hwell hlog
      have hallows : l.running = true ∧ l.enabled = true ∧ l.sequence.toNat + 1 < 2 ^ 64 :=
        ⟨hrunning, henabled, by rw [← h.sequence]; exact hwrap⟩
      obtain ⟨d, happend⟩ := append_spec hlog hopened st.files.disk o command
      rw [happend] at hstep
      obtain rfl := Option.some.inj hstep
      by_cases hroom : (record (st.files.log.sequence + 1) command).length ≤ room st.files.disk o
      · refine ⟨.write command, hallows, ?_⟩
        rw [List.take_of_length_le hroom, if_pos ⟨hlog, hopened, hroom⟩, h.sequence]
        exact ⟨h.running, h.enabled, h.opened, rfl, h.filed.written (by rfl) hadm⟩
      · -- nothing is written, but the number is gone
        refine ⟨.burn, hallows, ?_⟩
        have hzero : room st.files.disk o = 0 := hwhole.resolve_right hroom
        rw [if_neg (by tauto), hzero, List.take_zero, List.append_nil]
        exact ⟨h.running, h.enabled, h.opened, by simp [Ledger.next, h.sequence],
          h.filed.opened (by rfl)⟩

theorem Describes.save (h : l.Describes st) {storage : StorageEngine S} {now : TimePoint}
    {o : SaveOutcome} (hstep : st.save storage now o = some st') :
    ∃ a, (st.SavesWell (.save storage now o) → l.Allows a) ∧ (l.next a).Describes st' := by
  unfold Lifetimes.save at hstep
  split at hstep
  case isFalse => simp at hstep
  rename_i hrunning
  rw [h.running] at hrunning
  cases hsave : st.files.log.saveSnapshot st.files.disk storage now o with
  | mk result disk =>
      rw [hsave] at hstep
      cases result with
      | error e =>
          obtain rfl := Option.some.inj hstep
          exact ⟨.idle, fun _ ↦ trivial, { h with filed := h.filed.unsaved hsave }⟩
      | ok u =>
          obtain rfl := Option.some.inj hstep
          have hok := congrArg Prod.fst hsave
          refine ⟨.save, fun hwell ↦ ⟨hrunning, fun henabled ↦ ?_⟩, h.running, h.enabled, h.opened,
            h.sequence, ?_⟩
          · have hcovers := hwell (by rw [h.enabled, henabled]) hok
            rw [← h.sequence]
            exact h.forall_decodeLog.mp hcovers
          · rw [Ledger.next, ← h.sequence]
            exact h.filed.saved hsave

/-- Every step of a history is a step of the ledger, and one that the ledger
allows if the save of a disabled lifetime covers the log. -/
theorem Describes.step (h : l.Describes st) {e : LifetimeEvent S} (hwell : st.AppendsWell e)
    (hstep : st.step e = some st') :
    ∃ a, (st.SavesWell e → l.Allows a) ∧ (l.next a).Describes st' := by
  cases e with
  | start enabled maxKeys now => exact ⟨.start enabled, fun _ ↦ trivial, h.start hstep⟩
  | append command o =>
      obtain ⟨a, hallows, h'⟩ := h.append hwell hstep
      exact ⟨a, fun _ ↦ hallows, h'⟩
  | save storage now o => exact h.save hstep
  | stop =>
      simp only [Lifetimes.step] at hstep
      split at hstep
      · obtain rfl := Option.some.inj hstep
        exact ⟨.stop, fun _ ↦ trivial, { h with
          running := rfl, opened := by simp [Ledger.next], filed := { h.filed with } }⟩
      · simp at hstep

theorem Describes.protected_of_ordered (h : l.Describes st) (hordered : l.Ordered) :
    st.Protected := by
  intro header hheader r hr
  have hlength : st.files.earlier.length = l.old.length := by
    rw [← h.filed.earlier, List.length_map]
  rw [h.decodeLog_eq, hlength, ← List.map_take, List.take_left] at hr
  obtain ⟨q, hq, rfl⟩ := List.mem_map.mp hr
  rw [hasHeader_unique hheader h.filed.hasHeader]
  exact hordered.bordered.below q hq

/-- A save that protects the records in front of it has covered the log. -/
theorem Describes.savesWell (h : l.Describes st') {e : LifetimeEvent S}
    (hstep : st.step e = some st') (hprotected : st'.Protected) : st.SavesWell e := by
  cases e with
  | save storage now o =>
      intro _ hok
      have hpath := hasSnapshotPath_of_saveSnapshot hok
      have hdisk := saveSnapshot_ok hok
      simp only [Lifetimes.step, Lifetimes.save] at hstep
      split at hstep
      case isFalse => simp at hstep
      cases hsave : st.files.log.saveSnapshot st.files.disk storage now o with
      | mk result disk =>
          rw [hsave] at hstep hok hdisk
          dsimp only at hok hdisk
          subst hok hdisk
          obtain rfl := Option.some.inj hstep
          have hnil : l.new = [] := List.map_eq_nil_iff.mp h.filed.recent
          have hlength : (decodeLog (st.files.disk.aof.getD [])).length ≤
              (st.files.earlier ++ st.files.recent).length := by
            have hdecode := congrArg List.length h.decodeLog_eq
            have hearlier := congrArg List.length h.filed.earlier
            simp only [hnil, List.append_nil, List.length_map] at hdecode hearlier
            exact (hdecode.trans hearlier).le
          have hheader := hprotected st.files.log.sequence (Or.inr ⟨hpath, _, rfl⟩)
          rwa [List.take_of_length_le hlength] at hheader
  | start enabled maxKeys now => trivial
  | append command o => trivial
  | stop => trivial

end Ledger

/-- While appends are whole, a successful save protects the records in front of
it in every state of a history exactly if no disabled lifetime saves with larger
numbers in the log.  Then recovery with the log enabled applies the commands
appended after the last save, and no others. -/
theorem saves_protect_iff {S : Sharding} (policy : FsyncPolicy) (path : Bool)
    (events : List (LifetimeEvent S)) (st : Lifetimes)
    (hrun : run Lifetimes.step (Lifetimes.initial policy path) events = some st)
    (happends : Along Lifetimes.step Lifetimes.AppendsWell (Lifetimes.initial policy path) events) :
    ((∀ past mid, past <+: events →
        run Lifetimes.step (Lifetimes.initial policy path) past = some mid → mid.Protected) ↔
      Along Lifetimes.step Lifetimes.SavesWell (Lifetimes.initial policy path) events) ∧
    (Along Lifetimes.step Lifetimes.SavesWell (Lifetimes.initial policy path) events →
      ∀ (S' : Sharding) (s : StorageEngine S') (now : TimePoint),
        (({ st.files.log.fresh with enabled := true } : AppendOnlyFile).recover st.files.disk s
            now).toOption.map Prod.snd =
          ((({ st.files.log.fresh with enabled := true } : AppendOnlyFile).loadSnapshot
              st.files.disk (s.setEvictionEnabled false) now).toOption.bind
            fun r ↦ (applyAll now st.files.recent r.2).toOption).map
              fun s' ↦ (s'.setEvictionEnabled true).takeEvictedKeys.2) := by
  have hdescribed : ∀ past mid, past <+: events →
      run Lifetimes.step (Lifetimes.initial policy path) past = some mid →
        ∃ l : Ledger, l.Describes mid := by
    intro past mid hpast hmid
    refine run_invariant (P := fun _ s ↦ ∃ l : Ledger, l.Describes s)
      ⟨_, Ledger.describes_initial policy path⟩ ?_ (happends.of_initial hpast) hmid
    rintro _ s e s' ⟨l, h⟩ hwell hstep
    obtain ⟨a, -, h'⟩ := h.step hwell hstep
    exact ⟨_, h'⟩
  have hordered : Along Lifetimes.step Lifetimes.SavesWell (Lifetimes.initial policy path) events →
      ∀ past mid, past <+: events →
        run Lifetimes.step (Lifetimes.initial policy path) past = some mid →
          ∃ l : Ledger, l.Describes mid ∧ l.Ordered := by
    intro hsaves past mid hpast hmid
    refine run_invariant (P := fun _ s ↦ ∃ l : Ledger, l.Describes s ∧ l.Ordered)
      ⟨_, Ledger.describes_initial policy path, ⟨⟨by simp, by simp⟩, by simp, by simp⟩⟩ ?_
      ((happends.and hsaves).of_initial hpast) hmid
    rintro _ s e s' ⟨l, h, hl⟩ ⟨hwell, hsave⟩ hstep
    obtain ⟨a, hallows, h'⟩ := h.step hwell hstep
    exact ⟨_, h', hl.next a (hallows hsave)⟩
  refine ⟨⟨fun hprotected ↦ ?_, fun hsaves past mid hpast hmid ↦ ?_⟩, fun hsaves S' s now ↦ ?_⟩
  · apply along_of_reached (P := fun mid ↦ mid.Protected ∧ ∃ l : Ledger, l.Describes mid) _ hrun
    · exact fun past mid hpast hmid ↦
        ⟨hprotected past mid hpast hmid, hdescribed past mid hpast hmid⟩
    · rintro s e s' hstep ⟨hmid, l, h⟩
      exact h.savesWell hstep hmid
  · obtain ⟨l, h, hl⟩ := hordered hsaves past mid hpast hmid
    exact h.protected_of_ordered hl
  · obtain ⟨l, h, hl⟩ := hordered hsaves events st (List.prefix_refl events) hrun
    have hheader : HasHeader ({ st.files.log.fresh with enabled := true } : AppendOnlyFile)
      st.files.disk l.header := h.filed.hasHeader
    rw [recover_files rfl hheader h.filed.hasRecords, hl.bordered.effective_eq, h.filed.recent,
      Option.map_map]
    rfl

/-- A disabled lifetime that finds the whole log covered by the snapshot. -/
theorem saves_protect_iff_covered :
    ∃ st, run Lifetimes.step (Lifetimes.initial .always true)
        [.start true 0 0, .append ⟨.set, [[107], [49]]⟩ { accepted := 100 },
          .save ({} : StorageEngine oneShard) 0 {}, .stop, .start false 0 0,
          .save ({} : StorageEngine oneShard) 0 {}, .stop] = some st ∧ st.Protected := by
  have hrun : ((run Lifetimes.step (Lifetimes.initial .always true)
      [.start true 0 0, .append ⟨.set, [[107], [49]]⟩ { accepted := 100 },
        .save ({} : StorageEngine oneShard) 0 {}, .stop, .start false 0 0,
        .save ({} : StorageEngine oneShard) 0 {}, .stop]).map fun st ↦ st.files.earlier.length) =
          some 1 := by decide +kernel
  obtain ⟨st, hst, -⟩ := Option.map_eq_some_iff.mp hrun
  obtain ⟨hiff, -⟩ := saves_protect_iff .always true _ st hst (by decide +kernel)
  exact ⟨st, hst, hiff.mpr (by decide +kernel) _ st (List.prefix_refl _) hst⟩

/-- A record of the first lifetime comes back over the value that the second one,
with the log disabled, has saved. -/
theorem saved_value_overwritten :
    ∃ st, run Lifetimes.step (Lifetimes.initial .always true)
        [.start true 0 0, .append ⟨.set, [[107], [49]]⟩ { accepted := 100 }, .stop,
          .start false 0 0, .save (({} : StorageEngine oneShard).set 0 [107] [50]) 0 {},
          .stop] = some st ∧
      ¬st.Protected ∧ st.files.recent = [] ∧
      (({ st.files.log.fresh with enabled := false } : AppendOnlyFile).recover st.files.disk
          ({} : StorageEngine oneShard) 0).toOption.map (fun r ↦ (r.2.get 0 [107]).1) =
        some (some [50]) ∧
      (({ st.files.log.fresh with enabled := true } : AppendOnlyFile).recover st.files.disk
          ({} : StorageEngine oneShard) 0).toOption.map (fun r ↦ (r.2.get 0 [107]).1) =
        some (some [49]) := by
  let last : Lifetimes :=
    ⟨⟨⟨some (record 1 ⟨.set, [[107], [49]]⟩), some (snapshotFile 0 [⟨[107], [50], none⟩]), none⟩,
      ⟨false, .always, true, false, false, 0⟩, [⟨.set, [[107], [49]]⟩], []⟩, false⟩
  have hheader : HasHeader last.files.log last.files.disk 0 :=
    Or.inr ⟨rfl, _, rfl⟩
  refine ⟨last, by decide +kernel, ?_, rfl, by decide +kernel, by decide +kernel⟩
  intro hprotected
  have hskipped := hprotected 0 hheader
  revert hskipped
  decide

end ByteCacheDB
