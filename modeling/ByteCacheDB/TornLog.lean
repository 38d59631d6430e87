import ByteCacheDB.Checkpoint

/-!
# Torn records and what follows them

The write of a record may stop at any byte, because the append fails or because
the process dies; a restarted server goes on writing at the end of the file.
Nothing repairs a line that was left without its newline, so a record written
behind it becomes part of that line.
-/

namespace ByteCacheDB

open CommandParser Lines StorageEngine AppendOnlyFile Runs

/-- Beside the files: the records written as a whole, and those among them whose
append returned true. -/
structure TornState where
  disk : Disk
  log : AppendOnlyFile
  completed : List (UInt64 × Command)
  acknowledged : List (UInt64 × Command)
  deriving DecidableEq

inductive TornEvent where
  | restart (maxKeys : UInt64) (now : TimePoint)
  | append (command : Command) (o : WriteOutcome)

namespace TornState

def initial (policy : FsyncPolicy) (path : Bool) : TornState :=
  ⟨{}, ⟨true, policy, path, false, false, 0⟩, [], []⟩

/-- The whole record fits. -/
def Completes (st : TornState) (command : Command) (o : WriteOutcome) : Prop :=
  (record (st.log.sequence + 1) command).length ≤ room st.disk o

instance (st : TornState) (command : Command) (o : WriteOutcome) :
    Decidable (st.Completes command o) := inferInstanceAs (Decidable (_ ≤ _))

def append (st : TornState) (command : Command) (o : WriteOutcome) : Option TornState :=
  if st.log.opened ∧ Admissible command then
    let result := st.log.append st.disk o command
    let r := (st.log.sequence + 1, command)
    some {
      disk := result.2.2
      log := result.2.1
      completed := if st.Completes command o then st.completed ++ [r] else st.completed
      acknowledged := if result.1.toBool then st.acknowledged ++ [r] else st.acknowledged }
  else none

/-- A restart follows a stop or a crash at any point, also inside a write. -/
def step (S : Sharding) (st : TornState) : TornEvent → Option TornState
  | .restart maxKeys now =>
      (st.log.start S st.disk maxKeys now).map fun r ↦ { st with log := r.1, disk := r.2.2 }
  | .append command o => st.append command o

/-- A record that is written as a whole starts on a line of its own. -/
def OnFreshLine (st : TornState) : TornEvent → Prop
  | .restart _ _ => True
  | .append command o => st.Completes command o →
      st.disk.aof.getD [] = [] ∨ (st.disk.aof.getD []).getLast? = some newline

instance (st : TornState) (e : TornEvent) : Decidable (st.OnFreshLine e) :=
  match e with
  | .restart _ _ => isTrue trivial
  | .append command o => inferInstanceAs (Decidable (st.Completes command o → _))

end TornState

/-- Whole records in front, at most one unfinished line behind them. -/
structure TailOnly (st : TornState) (tail : Bytes) : Prop where
  enabled : st.log.enabled = true
  aof : st.disk.aof.getD [] = written st.completed ++ tail
  clean : newline ∉ tail
  admissible : ∀ r ∈ st.completed, Admissible r.2
  sublist : st.acknowledged.Sublist st.completed

theorem newline_notMem_take_record {sequence : UInt64} {command : Command} {n : ℕ}
    (hn : ¬(record sequence command).length ≤ n) :
    newline ∉ (record sequence command).take n := by
  rw [record, List.length_append, List.length_singleton] at hn
  rw [record, List.take_append_of_le_length (by omega)]
  exact fun hmem ↦ newline_notMem_recordLine sequence command (List.mem_of_mem_take hmem)

theorem tailOnly_append {st st' : TornState} {tail : Bytes} (h : TailOnly st tail)
    {command : Command} {o : WriteOutcome} (hfresh : st.OnFreshLine (.append command o))
    (hstep : st.append command o = some st') : ∃ tail', TailOnly st' tail' := by
  unfold TornState.append at hstep
  split at hstep
  case isFalse => simp at hstep
  rename_i hguard
  obtain ⟨hopened, hadm⟩ := hguard
  obtain ⟨d, happend⟩ := append_spec h.enabled hopened st.disk o command
  obtain rfl := Option.some.inj hstep
  by_cases hwhole : st.Completes command o
  · -- the file ends where a line starts, so the record is the next line
    have htail : tail = [] := by
      rcases hfresh hwhole with hempty | hlast
      · rw [h.aof, List.append_eq_nil_iff] at hempty
        exact hempty.2
      · by_contra hne
        rw [h.aof, List.getLast?_append_of_ne_nil _ hne] at hlast
        exact h.clean (List.mem_of_getLast? hlast)
    subst htail
    refine ⟨[], ?_⟩
    rw [if_pos hwhole]
    exact {
      enabled := by rw [happend]; exact h.enabled
      aof := by
        rw [happend, List.take_of_length_le hwhole, written_append]
        simp [h.aof, written]
      clean := List.not_mem_nil
      admissible := by
        intro r hr
        rcases List.mem_append.mp hr with hr | hr
        · exact h.admissible r hr
        · rw [List.mem_singleton.mp hr]
          exact hadm
      sublist := by
        dsimp only
        split
        · exact h.sublist.append (List.Sublist.refl _)
        · exact h.sublist.trans (List.sublist_append_left _ _) }
  · have hrefused : (st.log.append st.disk o command).1.toBool = false := by
      by_contra htrue
      apply hwhole
      apply length_le_room_of_append_ok h.enabled hopened
      cases hresult : (st.log.append st.disk o command).1 with
      | error e => simp [hresult, Except.toBool] at htrue
      | ok u => rfl
    refine ⟨tail ++ (record (st.log.sequence + 1) command).take (room st.disk o), ?_⟩
    rw [if_neg hwhole, hrefused]
    exact {
      enabled := by rw [happend]; exact h.enabled
      aof := by
        rw [happend]
        simp [h.aof]
      clean := by
        intro hmem
        rcases List.mem_append.mp hmem with hmem | hmem
        · exact h.clean hmem
        · exact newline_notMem_take_record hwhole hmem
      admissible := h.admissible
      sublist := h.sublist }

theorem tailOnly_step {S : Sharding} {st st' : TornState} {tail : Bytes} (h : TailOnly st tail)
    {e : TornEvent} (hfresh : st.OnFreshLine e) (hstep : st.step S e = some st') :
    ∃ tail', TailOnly st' tail' := by
  cases e with
  | restart maxKeys now =>
      obtain ⟨r, hstart, rfl⟩ := Option.map_eq_some_iff.mp hstep
      obtain ⟨henabled, haof⟩ := start_keeps_files hstart
      refine ⟨tail, ?_⟩
      exact {
        enabled := henabled.trans h.enabled
        aof := haof.trans h.aof
        clean := h.clean
        admissible := h.admissible
        sublist := h.sublist }
  | append command o => exact tailOnly_append h hfresh hstep

/-- As long as no record is completed behind an unfinished line, the records of
the appends that returned true are decoded with their own numbers, and every
line in front of the last one is a whole record. -/
theorem acknowledged_records_decoded (S : Sharding) (policy : FsyncPolicy) (path : Bool)
    (events : List TornEvent) (st : TornState)
    (hrun : run (TornState.step S) (TornState.initial policy path) events = some st)
    (hfresh : Along (TornState.step S) TornState.OnFreshLine (TornState.initial policy path)
      events) :
    st.acknowledged.Sublist st.completed ∧
      ∃ last, last.length ≤ 1 ∧
        decodeLog (st.disk.aof.getD []) =
          (st.completed.map fun r ↦ (r.1, .ok r.2)) ++ last := by
  have hinv : ∃ tail, TailOnly st tail := by
    refine run_invariant (P := fun _ st ↦ ∃ tail, TailOnly st tail) ?_ ?_ hfresh hrun
    · exact ⟨[], rfl, rfl, List.not_mem_nil, by simp [TornState.initial], List.Sublist.refl _⟩
    · rintro past s e s' ⟨tail, h⟩ hQ hstep
      exact tailOnly_step h hQ hstep
  obtain ⟨tail, h⟩ := hinv
  refine ⟨h.sublist, (tailLine tail).map (decodeLine (st.completed.length + 1)), ?_, ?_⟩
  · cases tail <;> simp [tailLine]
  · rw [h.aof, decodeLog_written_append h.admissible h.clean]

/-- A torn record at the end of the file, after two whole ones. -/
theorem acknowledged_records_decoded_torn_tail :
    ∃ st, run (TornState.step oneShard) (TornState.initial .always true)
        [.restart 0 0, .append ⟨.incr, [[107]]⟩ { accepted := 100 },
          .append ⟨.flush, []⟩ { accepted := 100, synced := false },
          .append ⟨.flush, []⟩ { accepted := 4 }] = some st ∧
      st.acknowledged = [(1, ⟨.incr, [[107]]⟩)] ∧ st.acknowledged.Sublist st.completed := by
  let events : List TornEvent := [.restart 0 0, .append ⟨.incr, [[107]]⟩ { accepted := 100 },
    .append ⟨.flush, []⟩ { accepted := 100, synced := false },
    .append ⟨.flush, []⟩ { accepted := 4 }]
  have hevents : (run (TornState.step oneShard) (TornState.initial .always true) events).map
      TornState.acknowledged = some [(1, ⟨.incr, [[107]]⟩)] := by decide
  obtain ⟨st, hst, hack⟩ := Option.map_eq_some_iff.mp hevents
  exact ⟨st, hst, hack,
    (acknowledged_records_decoded oneShard .always true events st hst (by decide)).1⟩

/-- `SET k v` is torn behind three bytes, the following `FLUSH` is acknowledged,
and the two share one line that is no command. -/
theorem acknowledged_record_lost :
    ∃ st, run (TornState.step oneShard) (TornState.initial .always true)
        [.restart 0 0, .append ⟨.set, [ascii "k", ascii "v"]⟩ { accepted := 3 },
          .append ⟨.flush, []⟩ { accepted := 100 }] = some st ∧
      st.acknowledged = [(2, ⟨.flush, []⟩)] ∧
      decodeLog (st.disk.aof.getD []) = [(1, .error (ascii "unknown command"))] := by
  refine ⟨⟨⟨some (ascii "1\tS2\tFLUSH\n"), none, none⟩, ⟨true, .always, true, true, false, 2⟩,
    [(2, ⟨.flush, []⟩)], [(2, ⟨.flush, []⟩)]⟩, ?_, ?_, ?_⟩
  · decide
  · rfl
  · decide

end ByteCacheDB
