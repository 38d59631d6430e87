import ByteCacheDB.Checkpoint
import ByteCacheDB.ReplayOrder

/-!
# Keys that a recovery has evicted

A server starts on files of any content, works on, and another process recovers
from its files with the same limit.  Recovery throws away the names of the keys
it evicts, so the next replay builds them again.  Which of them are there after
it depends on the order in which the replay touches the keys and on the room
that the keys of the live server leave.
-/

namespace ByteCacheDB

open CommandParser Lines StorageEngine AppendOnlyFile Recency Runs

/-- The command can bring the key into the store. -/
def Command.Writes (command : Command) (key : Bytes) : Prop :=
  match command.type with
  | .set | .incr | .decr | .append => command.arg 0 = key
  | .mset => key ∈ (argPairs command.args).map Prod.fst
  | _ => False

instance (key : Bytes) : (command : Command) → Decidable (command.Writes key)
  | ⟨.set, args⟩ | ⟨.incr, args⟩ | ⟨.decr, args⟩ | ⟨.append, args⟩ =>
      inferInstanceAs (Decidable (Command.arg ⟨_, args⟩ 0 = key))
  | ⟨.mset, args⟩ => inferInstanceAs (Decidable (key ∈ (argPairs args).map Prod.fst))
  | ⟨.get, _⟩ | ⟨.del, _⟩ | ⟨.exists, _⟩ | ⟨.expire, _⟩ | ⟨.expireat, _⟩ | ⟨.ttl, _⟩
  | ⟨.persist, _⟩ | ⟨.keys, _⟩ | ⟨.flush, _⟩ | ⟨.ping, _⟩ | ⟨.info, _⟩ | ⟨.mget, _⟩
  | ⟨.strlen, _⟩ | ⟨.save, _⟩ | ⟨.unknown, _⟩ => isFalse id

def Action.Writes (key : Bytes) : Action → Prop
  | .command c _ => c.Writes key
  | .sweep _ => False

instance (key : Bytes) : (a : Action) → Decidable (a.Writes key)
  | .command c _ => inferInstanceAs (Decidable (c.Writes key))
  | .sweep _ => isFalse id

/-! ## Files of any content -/

/-- The commands that a replay above `minimum` finds in the lines behind line `n`. -/
def commandsAbove (minimum : UInt64) : ℕ → List Bytes → List Command
  | _, [] => []
  | n, line :: rest =>
      let decoded := decodeLine (n + 1) line
      (if decoded.1 ≤ minimum then [] else decoded.2.toOption.toList) ++
        commandsAbove minimum (n + 1) rest

/-- The number and the commands of the snapshot, if there is one. -/
def snapshotContent (f : AppendOnlyFile) (disk : Disk) : UInt64 × List Command :=
  match (if f.hasSnapshotPath then disk.snapshot else none).map (getlines newline) with
  | some (header :: lines) =>
      ((parseHeader header).getD 0, lines.filterMap fun line ↦ (parse line).toOption)
  | _ => (0, [])

/-- What a recovery applies to an empty engine, if it finds nothing to refuse. -/
def recoveredCommands (f : AppendOnlyFile) (disk : Disk) : List Command :=
  (snapshotContent f disk).2 ++
    commandsAbove (snapshotContent f disk).1 0 (getlines newline (disk.aof.getD []))

theorem commandsAbove_append (minimum : UInt64) (n : ℕ) (xs ys : List Bytes) :
    commandsAbove minimum n (xs ++ ys) =
      commandsAbove minimum n xs ++ commandsAbove minimum (n + xs.length) ys := by
  induction xs generalizing n with
  | nil => rfl
  | cons line rest ih =>
      have hlength : n + 1 + rest.length = n + (line :: rest).length := by
        rw [List.length_cons]
        omega
      simp only [List.cons_append, commandsAbove, ih, hlength, List.append_assoc]

/-- In a log of records, those above the minimum. -/
theorem commandsAbove_records (minimum : UInt64) (n : ℕ) {records : List (UInt64 × Command)}
    (hrecords : ∀ r ∈ records, Admissible r.2) :
    commandsAbove minimum n (records.map fun r ↦ recordLine r.1 r.2) =
      effective minimum records := by
  induction records generalizing n with
  | nil => rfl
  | cons r rest ih =>
      simp only [List.map_cons, commandsAbove,
        decodeLine_recordLine (n + 1) r.1 (hrecords r List.mem_cons_self),
        ih (n + 1) fun q hq ↦ hrecords q (List.mem_cons_of_mem _ hq), effective,
        List.filter_cons, Except.toOption, Option.toList_some, ← UInt64.not_le]
      split <;> simp_all

theorem commandsAbove_eq_nil {minimum : UInt64} {n : ℕ} {lines : List Bytes}
    (h : ∀ i line, lines[i]? = some line → (decodeLine (n + i + 1) line).1 ≤ minimum) :
    commandsAbove minimum n lines = [] := by
  induction lines generalizing n with
  | nil => rfl
  | cons line rest ih =>
      have hfirst := h 0 line (by simp)
      have hrest : commandsAbove minimum (n + 1) rest = [] := by
        apply ih
        intro i l hl
        have hnext := h (i + 1) l (by simpa using hl)
        rwa [show n + (i + 1) + 1 = n + 1 + i + 1 by omega] at hnext
      simp only [commandsAbove, hrest, List.append_nil]
      exact if_pos hfirst

section
variable {S : Sharding}

/-- A replay that succeeds applies the commands it finds, and ends above every number. -/
theorem replayLines_eq_ok {now : TimePoint} {minimum : UInt64} {n : ℕ} {maximum : UInt64}
    {s : StorageEngine S} {lines : List Bytes} {r : UInt64 × StorageEngine S}
    (h : replayLines now minimum n maximum s lines = .ok r) :
    applyAll now (commandsAbove minimum n lines) s = .ok r.2 ∧ maximum ≤ r.1 ∧
      ∀ i line, lines[i]? = some line → (decodeLine (n + i + 1) line).1 ≤ r.1 := by
  induction lines generalizing n maximum s with
  | nil =>
      obtain rfl := Except.ok.inj h
      exact ⟨rfl, UInt64.le_refl _, by simp⟩
  | cons line rest ih =>
      obtain ⟨hleft, hright, -⟩ := max_spec maximum (decodeLine (n + 1) line).1
      have hassemble : ∀ {s'}, replayLines now minimum (n + 1)
          (max maximum (decodeLine (n + 1) line).1) s' rest = .ok r →
            applyAll now (commandsAbove minimum (n + 1) rest) s' = .ok r.2 ∧ maximum ≤ r.1 ∧
              ∀ i l, (line :: rest)[i]? = some l → (decodeLine (n + i + 1) l).1 ≤ r.1 := by
        intro s' hs'
        obtain ⟨happly, hmax, hall⟩ := ih hs'
        refine ⟨happly, UInt64.le_trans hleft hmax, fun i l hl ↦ ?_⟩
        cases i with
        | zero =>
            obtain rfl : line = l := by simpa using hl
            exact UInt64.le_trans hright hmax
        | succ i =>
            have hnext := hall i l (by simpa using hl)
            rwa [show n + 1 + i + 1 = n + (i + 1) + 1 by omega] at hnext
      simp only [replayLines] at h
      simp only [commandsAbove]
      split at h
      · rename_i hle
        rw [if_pos hle, List.nil_append]
        exact hassemble h
      · rename_i hgt
        rw [if_neg hgt]
        cases hparsed : (decodeLine (n + 1) line).2 with
        | error e => simp [hparsed] at h
        | ok command =>
            simp only [hparsed] at h
            cases happly : applyReplayCommand s now command with
            | error e => simp [happly] at h
            | ok s' =>
                simp only [happly] at h
                obtain ⟨hrest, hbounds⟩ := hassemble h
                refine ⟨?_, hbounds⟩
                simp only [Except.toOption, Option.toList_some, List.singleton_append, applyAll,
                  List.foldlM_cons, happly]
                exact hrest

theorem loadLines_eq_ok {now : TimePoint} {n : ℕ} {s s' : StorageEngine S} {lines : List Bytes}
    (h : loadLines now n s lines = .ok s') :
    applyAll now (lines.filterMap fun line ↦ (parse line).toOption) s = .ok s' := by
  induction lines generalizing n s with
  | nil => exact h
  | cons line rest ih =>
      simp only [loadLines] at h
      cases hparsed : parse line with
      | error e => simp [hparsed] at h
      | ok command =>
          simp only [hparsed] at h
          split at h
          · simp at h
          · cases happly : applyReplayCommand s now command with
            | error e => simp [happly] at h
            | ok mid =>
                simp only [happly] at h
                simp only [List.filterMap_cons, hparsed, Except.toOption, applyAll,
                  List.foldlM_cons, happly]
                exact ih h

theorem loadSnapshot_eq_ok {f : AppendOnlyFile} {disk : Disk} {s : StorageEngine S}
    {now : TimePoint} {r : UInt64 × StorageEngine S} (h : f.loadSnapshot disk s now = .ok r) :
    r.1 = (snapshotContent f disk).1 ∧ applyAll now (snapshotContent f disk).2 s = .ok r.2 := by
  unfold loadSnapshot at h
  unfold snapshotContent
  cases hpath : f.hasSnapshotPath with
  | false =>
      simp only [hpath, Bool.not_false, if_true, Except.ok.injEq] at h
      simp [← h, applyAll, pure, Except.pure]
  | true =>
      simp only [hpath, Bool.not_true, Bool.false_eq_true, if_false] at h
      simp only [if_true]
      cases hfile : disk.snapshot with
      | none =>
          simp only [hfile, Except.ok.injEq] at h
          simp [← h, applyAll, pure, Except.pure]
      | some file =>
          simp only [hfile] at h
          simp only [Option.map_some]
          cases hlines : getlines newline file with
          | nil => simp [hlines] at h
          | cons header lines =>
              simp only [hlines] at h
              cases hheader : parseHeader header with
              | none => simp [hheader] at h
              | some sequence =>
                  simp only [hheader] at h
                  cases hload : loadLines now 1 s lines with
                  | error e => simp [hload, Except.map] at h
                  | ok s' =>
                      simp only [hload, Except.map, Except.ok.injEq] at h
                      subst h
                      exact ⟨by simp [hheader], loadLines_eq_ok hload⟩

/-- A recovery that succeeds applies the commands of its files, evicts down to
the limit and goes on behind every number of the log. -/
theorem recover_eq_ok {f g : AppendOnlyFile} (henabled : f.enabled = true) {disk : Disk}
    {s r : StorageEngine S} {now : TimePoint} (h : f.recover disk s now = .ok (g, r)) :
    (∃ s', applyAll now (recoveredCommands f disk) (s.setEvictionEnabled false) = .ok s' ∧
        r = (s'.setEvictionEnabled true).takeEvictedKeys.2) ∧
      (snapshotContent f disk).1 ≤ g.sequence ∧
      ∀ i line, (getlines newline (disk.aof.getD []))[i]? = some line →
        (decodeLine (i + 1) line).1 ≤ g.sequence := by
  simp only [recover] at h
  cases hload : f.loadSnapshot disk (s.setEvictionEnabled false) now with
  | error e => simp [hload, bind, Except.bind] at h
  | ok p =>
      obtain ⟨hnumber, happly⟩ := loadSnapshot_eq_ok hload
      simp only [hload, bind, Except.bind] at h
      cases hreplay : replayAfter { f with sequence := p.1 } disk p.2 now p.1 with
      | error e => simp [hreplay] at h
      | ok q =>
          rw [hreplay] at h
          obtain ⟨rfl, rfl⟩ := Prod.mk.inj (Except.ok.inj h)
          rw [replayAfter, if_neg (by simp [henabled])] at hreplay
          rw [recoveredCommands, ← hnumber, applyAll_append, happly]
          cases hfile : disk.aof with
          | none =>
              simp only [hfile, Except.ok.injEq] at hreplay
              subst hreplay
              exact ⟨⟨p.2, rfl, rfl⟩, UInt64.le_refl _, by simp⟩
          | some file =>
              simp only [hfile] at hreplay
              cases hlines : replayLines now p.1 0 p.1 p.2 (getlines newline file) with
              | error e => simp [hlines] at hreplay
              | ok u =>
                  simp only [hlines, Except.ok.injEq] at hreplay
                  subst hreplay
                  obtain ⟨hall, hmax, hbound⟩ := replayLines_eq_ok hlines
                  refine ⟨⟨u.2, hall, rfl⟩, hmax, ?_⟩
                  simpa only [Nat.zero_add, Option.getD_some] using hbound

end

/-! ## The files of the second lifetime -/

section
variable {S : Sharding}

/-- A server that has just started on files with any content.  Its journal is what
the recovery has applied. -/
def Session.started (S : Sharding) (f : AppendOnlyFile) (disk : Disk) (maxKeys : UInt64)
    (t : Instant) : Option (Session S) :=
  (f.start S disk maxKeys t.1).map fun r ↦
    ⟨⟨r.2.1, r.1, r.2.2⟩, t, recoveredCommands f.fresh disk⟩

/-- The counter of the log does not wrap. -/
def Session.Counts (st : Session S) (a : Action) : Prop :=
  st.server.persistence.sequence.toNat + (st.records a).length < 2 ^ 64

instance (st : Session S) (a : Action) : Decidable (st.Counts a) :=
  inferInstanceAs (Decidable (_ < _))

theorem started_eq_some {f : AppendOnlyFile} (henabled : f.enabled = true) {L : UInt64}
    {t : Instant} (h : Session.started S f disk L t = some st) :
    ∃ g s, f.fresh.recover disk ({ maxKeys := L } : StorageEngine S) t.1 = .ok (g, s) ∧
      st = ⟨⟨s, { f.fresh with sequence := g.sequence, opened := true },
        { disk with aof := some (disk.aof.getD []) }⟩, t, recoveredCommands f.fresh disk⟩ := by
  obtain ⟨r, hstart, rfl⟩ := Option.map_eq_some_iff.mp h
  unfold AppendOnlyFile.start at hstart
  cases hrecover : f.fresh.recover disk ({ maxKeys := L } : StorageEngine S) t.1 with
  | error e => simp [hrecover] at hstart
  | ok p =>
      obtain ⟨m, hm⟩ := log_of_recover (g := p.1) (t := p.2) hrecover
      have hopen := open_fresh henabled m disk
      rw [hrecover] at hstart
      dsimp only at hstart
      rw [hm, hopen] at hstart
      obtain rfl := Option.some.inj hstart
      refine ⟨p.1, p.2, rfl, ?_⟩
      rw [hm]

theorem snapshotContent_snapshotFile {f : AppendOnlyFile} (hpath : f.hasSnapshotPath = true)
    {disk : Disk} {header : UInt64} {entries : List SnapshotEntry}
    (hfile : disk.snapshot = some (snapshotFile header entries)) :
    snapshotContent f disk = (header, entries.flatMap entryCommands) := by
  have hparse : ((entries.flatMap entryCommands).map serialize).filterMap
      (fun line ↦ (parse line).toOption) = entries.flatMap entryCommands := by
    rw [List.filterMap_map]
    refine (List.filterMap_congr fun command hcommand ↦ ?_).trans List.filterMap_some
    obtain ⟨e, -, he⟩ := List.mem_flatMap.mp hcommand
    simp [parse_serialize (admissible_entryCommands he).1, Except.toOption]
  unfold snapshotContent
  simp [hpath, hfile, getlines_snapshotFile, parseHeader_snapshotHeader, hparse]

theorem getlines_append_written {file : Bytes} (h : (splitLines newline file).2 = [])
    (records : List (UInt64 × Command)) : getlines newline (file ++ written records) =
      getlines newline file ++ records.map fun r ↦ recordLine r.1 r.2 := by
  rw [getlines_append h, getlines_written]

/-- The session has continued from the files `disk` at the number `n` with the
records `new`.  The snapshot is still the old one, or its own and taken after
the first `saved` of them. -/
structure Resumes (disk : Disk) (path : Bool) (n : ℕ) (old new : List Command) (st : Session S) :
    Prop where
  enabled : st.server.persistence.enabled = true
  opened : st.server.persistence.opened = true
  hasSnapshotPath : st.server.persistence.hasSnapshotPath = path
  size : (st.server.disk.aof.getD []).length ≤ maxFileSize
  aof : st.server.disk.aof.getD [] =
    disk.aof.getD [] ++ written (numbered (UInt64.ofNat n) new)
  admissible : ∀ command ∈ new, Admissible command
  small : n + new.length < 2 ^ 64
  sequence : st.server.persistence.sequence = UInt64.ofNat (n + new.length)
  snapshot : st.server.disk.snapshot = disk.snapshot ∧ st.journal = old ++ new ∨
    path = true ∧ ∃ saved entries, saved ≤ new.length ∧
      st.server.disk.snapshot = some (snapshotFile (UInt64.ofNat (n + saved)) entries) ∧
      st.journal = entries.flatMap entryCommands ++ new.drop saved

section
variable {disk : Disk} {path : Bool} {n : ℕ} {old new : List Command} {st st' : Session S}

/-- The log stays as it is. -/
theorem Resumes.of_log (h : Resumes disk path n old new st)
    (hpersistence : st'.server.persistence = st.server.persistence)
    (haof : st'.server.disk.aof = st.server.disk.aof)
    (hsnapshot : st'.server.disk.snapshot = disk.snapshot ∧ st'.journal = old ++ new ∨
      path = true ∧ ∃ saved entries, saved ≤ new.length ∧
        st'.server.disk.snapshot = some (snapshotFile (UInt64.ofNat (n + saved)) entries) ∧
        st'.journal = entries.flatMap entryCommands ++ new.drop saved) :
    Resumes disk path n old new st' where
  enabled := by rw [hpersistence]; exact h.enabled
  opened := by rw [hpersistence]; exact h.opened
  hasSnapshotPath := by rw [hpersistence]; exact h.hasSnapshotPath
  size := by rw [haof]; exact h.size
  aof := by rw [haof]; exact h.aof
  admissible := h.admissible
  small := h.small
  sequence := by rw [hpersistence]; exact h.sequence
  snapshot := hsnapshot

theorem Resumes.step (h : Resumes disk path n old new st) {L : UInt64} {a : Action}
    (hready : Ready L st.server.storage) (hcounts : st.Counts a) (hstep : st.step a = some st') :
    Resumes disk path n old (new ++ st.records a) st' := by
  obtain ⟨hfiles, -⟩ := moves_step h.enabled h.opened h.size hready hstep
  cases hfiles with
  | same hsaves hrecords hpersistence haof hsnapshot hjournal =>
      rw [hrecords, List.append_nil]
      refine h.of_log hpersistence haof ?_
      rw [hsnapshot, hjournal]
      exact h.snapshot
  | save now hsaves hrecords hpath hpersistence haof hsnapshot hjournal =>
      rw [hrecords, List.append_nil]
      refine h.of_log hpersistence haof (Or.inr ⟨h.hasSnapshotPath.symm.trans hpath, new.length,
        st.server.storage.snapshotEntries now.1, Nat.le_refl _, ?_, ?_⟩)
      · rw [hsnapshot, h.sequence]
      · rw [hjournal, List.drop_length, List.append_nil]
  | log d aof hsaves hrecords hpersistence hdisk hsize hwritten hjournal =>
      have hsmall := h.small
      rw [Session.Counts, h.sequence, UInt64.toNat_ofNat_of_lt' (by rw [UInt64.size]; omega)]
        at hcounts
      exact {
        enabled := by rw [hpersistence]; exact h.enabled
        opened := by rw [hpersistence]; exact h.opened
        hasSnapshotPath := by rw [hpersistence]; exact h.hasSnapshotPath
        size := hsize
        aof := by
          rw [hwritten, h.aof, h.sequence, numbered_append, written_append, List.append_assoc,
            UInt64.ofNat_add]
        admissible := by
          rw [List.forall_mem_append]
          exact ⟨h.admissible, fun c hc ↦ (hrecords c hc).1⟩
        small := by
          rw [List.length_append]
          omega
        sequence := by
          rw [hpersistence, List.length_append, ← Nat.add_assoc, UInt64.ofNat_add (n + new.length),
            ← h.sequence]
        snapshot := by
          rw [hdisk, hjournal]
          rcases h.snapshot with ⟨hsame, hold⟩ | ⟨hpath, saved, entries, hle, hfile, hown⟩
          · exact Or.inl ⟨hsame, by rw [hold, List.append_assoc]⟩
          · refine Or.inr ⟨hpath, saved, entries, ?_, hfile, ?_⟩
            · rw [List.length_append]
              exact Nat.le_add_right_of_le hle
            · rw [hown, List.drop_append_of_le_length hle, List.append_assoc] }

/-- The next recovery applies the journal. -/
theorem Resumes.recoveredCommands_eq (h : Resumes disk path n old new st) {f : AppendOnlyFile}
    (hpath : f.hasSnapshotPath = path) (hold : old = recoveredCommands f disk)
    (hterminated : (splitLines newline (disk.aof.getD [])).2 = [])
    (hheader : (snapshotContent f disk).1 ≤ UInt64.ofNat n)
    (hbound : ∀ i line, (getlines newline (disk.aof.getD []))[i]? = some line →
      (decodeLine (i + 1) line).1 ≤ UInt64.ofNat n) :
    recoveredCommands st.server.persistence.fresh st.server.disk = st.journal := by
  have hsmall := h.small
  have hfresh : st.server.persistence.fresh.hasSnapshotPath = path := h.hasSnapshotPath
  have hrecords : ∀ r ∈ numbered (UInt64.ofNat n) new, Admissible r.2 := by
    intro r hr
    apply h.admissible
    rw [← map_snd_numbered (UInt64.ofNat n) new]
    exact List.mem_map_of_mem hr
  rw [recoveredCommands, h.aof, getlines_append_written hterminated, commandsAbove_append,
    commandsAbove_records _ _ hrecords]
  rcases h.snapshot with ⟨hsame, hjournal⟩ | ⟨rfl, saved, entries, hle, hfile, hjournal⟩
  · have hcontent : snapshotContent st.server.persistence.fresh st.server.disk =
        snapshotContent f disk := by
      unfold snapshotContent
      rw [hsame, hpath, hfresh]
    have hnew : effective (snapshotContent f disk).1 (numbered (UInt64.ofNat n) new) = new := by
      rw [UInt64.le_iff_toNat_le, UInt64.toNat_ofNat_of_lt' (by rw [UInt64.size]; omega)] at hheader
      have hdrop := effective_numbered (k := (snapshotContent f disk).1.toNat) hsmall (by omega)
      rwa [UInt64.ofNat_toNat, Nat.sub_eq_zero_of_le hheader, List.drop_zero] at hdrop
    rw [hcontent, hnew, hjournal, hold, recoveredCommands, List.append_assoc]
  · have hskipped : commandsAbove (UInt64.ofNat (n + saved)) 0
        (getlines newline (disk.aof.getD [])) = [] := by
      apply commandsAbove_eq_nil
      intro i line hline
      rw [Nat.zero_add]
      refine UInt64.le_trans (hbound i line hline) ?_
      rw [UInt64.le_iff_toNat_le, UInt64.toNat_ofNat_of_lt' (by rw [UInt64.size]; omega),
        UInt64.toNat_ofNat_of_lt' (by rw [UInt64.size]; omega)]
      exact Nat.le_add_right n saved
    have hnew : effective (UInt64.ofNat (n + saved)) (numbered (UInt64.ofNat n) new) =
        new.drop saved := by
      rw [effective_numbered hsmall (by omega), Nat.add_sub_cancel_left]
    rw [snapshotContent_snapshotFile hfresh hfile]
    dsimp only
    rw [hskipped, hnew, hjournal, List.nil_append]

end

/-! ## Keys that nothing writes -/

/-- What is logged is the command itself, or the deadline it has set. -/
theorem logCommand_execute {v : Server S} {env : Environment} {command : Command}
    (h : (v.execute env command).1.shouldLog = true) :
    (v.execute env command).1.logCommand = command ∨
      (v.execute env command).1.logCommand.type = .expireat := by
  obtain ⟨type, args⟩ := command
  cases type with
  | set | mset | flush | append | del | persist => exact Or.inl rfl
  | expire =>
      simp only [Server.execute] at h ⊢
      cases hparsed : parseInt64 (Command.arg ⟨.expire, args⟩ 1) with
      | none => simp [hparsed] at h
      | some seconds =>
          by_cases hneg : seconds < 0
          · simp [hparsed, hneg] at h
          · simp only [hneg, if_false]
            exact Or.inr rfl
  | expireat =>
      simp only [Server.execute] at h ⊢
      cases hparsed : parseInt64 (Command.arg ⟨.expireat, args⟩ 1) with
      | none => simp [hparsed] at h
      | some millis => exact Or.inl rfl
  | incr | decr =>
      simp only [Server.execute, Server.executeIncrement] at h ⊢
      split at h
      · simp at h
      · simp
  | save =>
      rw [(execute_save v env rfl).1] at h
      simp at h
  | _ => simp [Server.execute] at h

/-- Records of a command that does not write a key do not write it either. -/
theorem not_writes_of_mem_records {v : Server S} {env : Environment} {command c : Command}
    {key : Bytes} (h : ¬command.Writes key) (hc : c ∈ v.records env command) : ¬c.Writes key := by
  unfold Server.records at hc
  dsimp only at hc
  split at hc
  case isFalse => simp at hc
  rename_i hlogged
  rcases List.mem_cons.mp hc with rfl | hc
  · rcases logCommand_execute hlogged.1 with heq | htype
    · rwa [heq]
    · simp [Command.Writes, htype]
  · obtain ⟨k, -, rfl⟩ := List.mem_map.mp hc
    exact id

/-- A command that does not write a key does not bring it into the store. -/
theorem apply_absent {command : Command} {key : Bytes} (h : ¬command.Writes key) {op : CellOp}
    (hop : op.LoggedAs (command.op key)) {now : TimePoint} {c : Cell}
    (hc : op.apply now none = some c) : c = none := by
  rcases hop with rfl | ⟨deadline, rfl, -⟩
  · obtain ⟨type, args⟩ := command
    cases type with
    | mset =>
        have hkeep : Command.lastValue (argPairs args) key = none :=
          Command.lastValue_eq_none_iff.mpr h
        simpa [Command.op, hkeep] using hc.symm
    | set | incr | decr | append =>
        have hne : key ≠ Command.arg ⟨_, args⟩ 0 := fun hkey ↦ h hkey.symm
        simpa [Command.op, hne] using hc.symm
    | expireat =>
        simp only [Command.op, Command.keyOp] at hc
        split at hc
        · cases hstoll : stoll (Command.arg ⟨.expireat, args⟩ 1) <;>
            simpa [hstoll, Cell.expireAt] using hc.symm
        · simpa using hc.symm
    | flush => simpa [Command.op] using hc.symm
    | _ =>
        simp only [Command.op, Command.keyOp] at hc
        split at hc <;> simpa [Cell.persist] using hc.symm
  · simpa [Cell.expireAt] using hc.symm

theorem absent_step {st st' : Session S} {a : Action} {key : Bytes} (h : st.cells key = none)
    (hwrites : ¬a.Writes key) (hmoves : Moves st st' a) : st'.cells key = none := by
  cases hmoves with
  | lapse hsaves hrecords hjournal hcells =>
      rcases hcells key with hsame | ⟨hnone, -⟩
      · exact hsame.trans h
      · exact hnone
  | log now ops log ks mid hsaves hfrom hto hreading hrecords hjournal hloggable hops hacts
      hcells =>
      have hlog : ¬log.Writes key := by
        have hmem : log ∈ st.records a := by
          rw [hrecords]
          exact List.mem_cons_self
        cases a with
        | command command env => exact not_writes_of_mem_records hwrites hmem
        | sweep now => simp [Session.records] at hmem
      have hmid : mid key = none := by
        have hacted := hacts key
        rw [h] at hacted
        exact apply_absent hlog (hops key) hacted
      simp [hcells, Store.eraseAll, hmid]
  | save now hsaves hrecords hfrom hto hcells hjournal => rw [hcells, h]

/-! ## The keys that recovery has dropped -/

namespace Session

/-- A record that names a key settles it, and a snapshot settles all of them. -/
def droppedAfter (st : Session S) (a : Action) (dropped : List Bytes) : List Bytes :=
  if st.Saves a then [] else dropped.filter fun key ↦ ∀ c ∈ st.records a, c.op key = .keep

/-- A replay at time `t` touches the dropped keys before those of the live store. -/
def Precedes (t : TimePoint) (dropped : List Bytes) (st : Session S) : Prop :=
  ∃ rest, replayOrder t st.journal = dropped ++ rest ∧ ∀ key, key ∈ rest ↔ st.cells key ≠ none

/-- All deadlines of the live store are ahead of `t`, in the milliseconds that the files
have. -/
def Ahead (t : TimePoint) (st : Session S) : Prop :=
  ∀ e ∈ st.server.storage.shards.entries, ∀ d ∈ e.2.expiresAt, t < truncMillis d

instance (t : TimePoint) (st : Session S) : Decidable (st.Ahead t) :=
  decidable_of_iff (∀ e ∈ st.server.storage.shards.entries,
      e.2.expiresAt.all (fun d ↦ t < truncMillis d) = true)
    (by simp only [Ahead, Option.all_eq_true, decide_eq_true_eq, Option.mem_def])

end Session

/-- A session, with the keys that its recovery has evicted and that the files still
bring back, in the order in which a replay touches them. -/
structure Continued (S : Sharding) where
  session : Session S
  dropped : List Bytes

namespace Continued

def started (S : Sharding) (f : AppendOnlyFile) (disk : Disk) (maxKeys : UInt64) (t : Instant) :
    Option (Continued S) :=
  (Session.started S f disk maxKeys t).map fun st ↦
    ⟨st, (replayOrder t.1 st.journal).rdrop maxKeys.toNat⟩

def step (r : Continued S) (a : Action) : Option (Continued S) :=
  (r.session.step a).map fun st ↦ ⟨st, r.session.droppedAfter a r.dropped⟩

end Continued

section
variable {t : Instant} {st st' : Session S}

theorem Session.Ahead.lt (h : st.Ahead t.1) {key value : Bytes} {d : TimePoint}
    (hcell : st.cells key = some (value, some d)) : t.1 < truncMillis d := by
  obtain ⟨entry, hfind, hentry⟩ := Option.map_eq_some_iff.mp hcell
  have hmem := (PartMap.mem_entries_iff _ _ _).mpr hfind
  exact h _ hmem d (Prod.mk.inj hentry).2

theorem Session.Ahead.live (h : st.Ahead t.1) {now : TimePoint} (hnow : now ≤ t.1) (key : Bytes) :
    (st.cells key).live now = st.cells key := by
  match hcell : st.cells key with
  | none => rfl
  | some (value, none) => rfl
  | some (value, some d) =>
      have hlt := lt_of_lt_truncMillis t.2 (h.lt hcell)
      exact Cell.live_of_lt value (Int64.lt_of_le_of_lt hnow hlt)

/-- Nothing expires before its deadline. -/
theorem cells_of_lapse (h : st.Ahead t.1) {now : TimePoint} (hnow : now ≤ t.1) {key : Bytes}
    (hcells : st'.cells key = st.cells key ∨
      st'.cells key = none ∧ (st.cells key).live now = none) : st'.cells key = st.cells key := by
  rcases hcells with hsame | ⟨hnone, hdead⟩
  · exact hsame
  · rw [hnone, ← hdead, h.live hnow]

theorem Command.Found.stored {log : Command} {now : TimePoint} {m : Store}
    (h : log.Found now m) {key : Bytes}
    (hop : log.op key = .persist ∨ ∃ d, log.op key = .expireAt d) : m key ≠ none := by
  obtain ⟨type, args⟩ := log
  cases type with
  | persist =>
      have hkey : key = Command.arg ⟨.persist, args⟩ 0 := by
        by_contra hne
        simp [op, hne] at hop
      rw [hkey]
      exact fun hnone ↦ h (by rw [hnone, Cell.live_none])
  | expireat =>
      have hkey : key = Command.arg ⟨.expireat, args⟩ 0 := by
        by_contra hne
        simp [op, hne] at hop
      rw [hkey]
      exact h.1
  | mset =>
      simp only [op] at hop
      split at hop <;> simp at hop
  | _ => simp [op, keyOp, ite_eq_iff] at hop

/-- The live store has a deadline `d`, the files have `d'`. -/
theorem expireAt_ne_none_iff (hst : st.Ahead t.1) (hst' : st'.Ahead t.1) {now d d' : TimePoint}
    (hnow : now ≤ t.1) (hkept : t.1 < truncMillis d → t.1 < d') (hlt : t.1 < d' → t.1 < d)
    {key : Bytes} (hstored : st.cells key ≠ none)
    (hcell : (st.cells key).expireAt now d = st'.cells key) :
    st'.cells key ≠ none ↔ t.1 < d' := by
  obtain ⟨e, he⟩ := Option.ne_none_iff_exists'.mp hstored
  rw [Cell.expireAt, hst.live hnow, he, Option.bind_some] at hcell
  by_cases hd : d ≤ now
  · rw [if_pos hd] at hcell
    simp only [← hcell, ne_eq, not_true_eq_false, false_iff]
    exact fun h ↦ Int64.not_lt.mpr (Int64.le_trans hd hnow) (hlt h)
  · rw [if_neg hd] at hcell
    simp only [← hcell, ne_eq, reduceCtorEq, not_false_eq_true, true_iff]
    exact hkept (hst'.lt hcell.symm)

/-- A record keeps a key in the order, or brings it there, exactly when its command does so
in the live store. -/
theorem stored_iff_touches (hst : st.Ahead t.1) (hst' : st'.Ahead t.1) {now : TimePoint}
    (hnow : now ≤ t.1) {log : Command} (hfound : log.Found now st.cells) {key : Bytes} {op : CellOp}
    (hop : op.LoggedAs (log.op key)) (hacts : op.apply now (st.cells key) = some (st'.cells key))
    {present : Prop} (hpresent : st.cells key ≠ none → present) :
    st'.cells key ≠ none ↔ log.op key = .keep ∧ st.cells key ≠ none ∨
      (log.op key).Touches t.1 present := by
  rcases hop with hsame | ⟨d, rfl, hlogged⟩
  · rw [hsame]
    cases op with
    | keep =>
        rw [CellOp.apply_keep, Option.some.injEq] at hacts
        simp [CellOp.Touches, hacts]
    | write value =>
        rw [CellOp.apply_write, Option.some.injEq] at hacts
        simp [CellOp.Touches, ← hacts]
    | remove =>
        rw [CellOp.apply_remove, Option.some.injEq] at hacts
        simp [CellOp.Touches, ← hacts]
    | increment delta =>
        obtain ⟨next, -, hcell⟩ := Option.map_eq_some_iff.mp hacts
        simp [CellOp.Touches, ← hcell, Cell.writeInteger]
    | append suffix =>
        rw [CellOp.apply_append, Option.some.injEq, Cell.append] at hacts
        have hcell : st'.cells key ≠ none := by
          rw [← hacts]
          split <;> simp
        simp [CellOp.Touches, hcell]
    | persist =>
        have hstored := hfound.stored (Or.inl hsame)
        rw [CellOp.apply_persist, Option.some.injEq, Cell.persist, hst.live hnow] at hacts
        simp [CellOp.Touches, ← hacts, hstored, hpresent hstored]
    | expireAt d =>
        have hstored := hfound.stored (Or.inr ⟨d, hsame⟩)
        rw [CellOp.apply_expireAt, Option.some.injEq] at hacts
        rw [expireAt_ne_none_iff hst hst' hnow (lt_of_lt_truncMillis t.2) id hstored hacts]
        simp [CellOp.Touches, hpresent hstored]
  · have hstored := hfound.stored (Or.inr ⟨_, hlogged⟩)
    rw [CellOp.apply_expireAt, Option.some.injEq] at hacts
    rw [hlogged, expireAt_ne_none_iff hst hst' hnow id (lt_of_lt_truncMillis t.2) hstored hacts]
    simp [CellOp.Touches, hpresent hstored]

/-- The records of a call leave a key alone. -/
theorem keep_records_iff {log : Command} {ks : List Bytes} {key : Bytes} :
    (∀ c ∈ log :: ks.map evictionCommand, c.op key = .keep) ↔ log.op key = .keep ∧ key ∉ ks := by
  rw [List.forall_mem_cons, List.forall_mem_map]
  refine and_congr_right fun _ ↦ ⟨fun hall hmem ↦ ?_, fun hnot k hk ↦ ?_⟩
  · have hkey := hall key hmem
    simp [op_evictionCommand] at hkey
  · have hne : key ≠ k := by
      rintro rfl
      exact hnot hk
    simp [op_evictionCommand, hne]

/-- The evictions of a call. -/
theorem foldl_reorder_evictions (t : TimePoint) {l : List Bytes} (hl : l.Nodup) (ks : List Bytes) :
    (ks.map evictionCommand).foldl (Command.reorder t) l = l.filter fun key ↦ key ∉ ks := by
  rw [List.foldl_map]
  refine (foldl_forget hl ks).trans ?_
  exact List.filter_congr fun key _ ↦ decide_eq_decide.mpr Iff.rfl

/-- The entries of a snapshot whose deadlines are ahead. -/
theorem mem_foldl_reorder_entries {t : TimePoint} {entries : List SnapshotEntry}
    (hahead : ∀ e ∈ entries, ∀ d ∈ e.expiresAt, t < truncMillis d) (l : List Bytes) (key : Bytes) :
    key ∈ (entries.flatMap entryCommands).foldl (Command.reorder t) l ↔
      key ∈ l ∨ ∃ e ∈ entries, e.key = key := by
  have hone : ∀ e ∈ entries, ∀ l, key ∈ (entryCommands e).foldl (Command.reorder t) l ↔
      key ∈ l ∨ e.key = key := by
    intro e he l
    have hset : key ∈ touch l e.key ↔ key ∈ l ∨ e.key = key := by
      rw [mem_touch, or_comm, eq_comm]
    cases hd : e.expiresAt with
    | none =>
        simp only [entryCommands, hd, List.foldl_cons, List.foldl_nil]
        exact hset
    | some d =>
        have hlt := hahead e he d hd
        have hdue : Command.overdue t ⟨.expireat, [e.key, toStringI64 (toEpochMillis d)]⟩ =
            false := by
          simp only [Command.overdue, Command.arg, List.getD_cons_succ, List.getD_cons_zero,
            stoll_toStringI64, decide_eq_false_iff_not]
          exact Int64.not_le.mpr hlt
        have hagain : Command.reorder t (touch l e.key)
            ⟨.expireat, [e.key, toStringI64 (toEpochMillis d)]⟩ =
              touch (touch l e.key) e.key := by
          simp only [Command.reorder, hdue, Bool.false_eq_true, if_false]
          exact renew_of_mem (mem_touch.mpr (Or.inl rfl))
        simp only [entryCommands, hd, List.foldl_cons, List.foldl_nil]
        rw [show Command.reorder t l ⟨.set, [e.key, e.value]⟩ = touch l e.key from rfl, hagain,
          mem_touch, hset]
        tauto
  clear hahead
  induction entries generalizing l with
  | nil => simp
  | cons e rest ih =>
      have hrest := ih ((entryCommands e).foldl (Command.reorder t) l)
        fun e' he' ↦ hone e' (List.mem_cons_of_mem _ he')
      rw [List.flatMap_cons, List.foldl_append]
      refine hrest.trans ?_
      rw [hone e List.mem_cons_self]
      simp [or_assoc]

theorem Session.Precedes.step {dropped : List Bytes} {a : Action} (h : st.Precedes t.1 dropped)
    (hahead : st.Ahead t.1) (hahead' : st'.Ahead t.1) (htime : st'.now.1 ≤ t.1)
    (hmoves : Moves st st' a) : st'.Precedes t.1 (st.droppedAfter a dropped) := by
  obtain ⟨rest, horder, hmem⟩ := h
  have hnodup := nodup_replayOrder t.1 st.journal
  rw [horder] at hnodup
  cases hmoves with
  | lapse hsaves hrecords hjournal hcells =>
      refine ⟨rest, ?_, fun key ↦ ?_⟩
      · simp [hjournal, horder, Session.droppedAfter, hsaves, hrecords]
      · rw [hmem, cells_of_lapse hahead htime (hcells key)]
  | log now ops log ks mid hsaves hfrom hto hreading hrecords hjournal hloggable hops hacts
      hcells hunlimited hfound =>
      have hnow : now.1 ≤ t.1 := Int64.le_trans hto htime
      obtain ⟨new, hreorder, hnew⟩ := log.exists_reorder hloggable t.1 hnodup
      have hlater : (log.reorder t.1 (dropped ++ rest)).Nodup :=
        nodup_foldl_reorder t.1 hnodup [log]
      refine ⟨((rest.filter fun key ↦ log.op key = .keep) ++ new).filter fun key ↦ key ∉ ks,
        ?_, fun key ↦ ?_⟩
      · have hdropped : st.droppedAfter a dropped =
            (dropped.filter fun key ↦ log.op key = .keep).filter fun key ↦ key ∉ ks := by
          rw [Session.droppedAfter, if_neg hsaves, hrecords, List.filter_filter]
          refine List.filter_congr fun key _ ↦ ?_
          rw [← Bool.decide_and, decide_eq_decide, keep_records_iff, and_comm]
        rw [hjournal, replayOrder_append, horder, hrecords, List.foldl_cons,
          foldl_reorder_evictions t.1 hlater, hreorder, hdropped]
        simp only [List.filter_append, List.append_assoc]
      · by_cases hkey : key ∈ ks
        · simp [hkey, hcells, Store.eraseAll]
        · have hcell : st'.cells key = mid key := by simp [hcells, Store.eraseAll, hkey]
          have hacted := hacts key
          rw [← hcell] at hacted
          have hpresent : st.cells key ≠ none → key ∈ dropped ++ rest := fun hstored ↦
            List.mem_append_right _ ((hmem key).mpr hstored)
          rw [stored_iff_touches hahead hahead' hnow hfound (hops key) hacted hpresent]
          simp [hkey, hnew, hmem, and_comm]
  | save now hsaves hrecords hfrom hto hcells hjournal =>
      have hnow : now.1 ≤ t.1 := Int64.le_trans hto htime
      refine ⟨replayOrder t.1 st'.journal, ?_, fun key ↦ ?_⟩
      · rw [Session.droppedAfter, if_pos hsaves, List.nil_append]
      · have hentries : ∀ e ∈ st.server.storage.snapshotEntries now.1, ∀ d ∈ e.expiresAt,
            t.1 < truncMillis d := by
          intro e he d hd
          have hcell := mem_snapshotEntries.mp he
          rw [hahead.live hnow, hd] at hcell
          exact hahead.lt hcell
        rw [hjournal, replayOrder, mem_foldl_reorder_entries hentries, hcells]
        simp only [List.not_mem_nil, false_or]
        constructor
        · rintro ⟨e, he, rfl⟩
          have hcell := mem_snapshotEntries.mp he
          rw [hahead.live hnow] at hcell
          simp [hcell]
        · intro hstored
          obtain ⟨c, hc⟩ := Option.ne_none_iff_exists'.mp hstored
          refine ⟨⟨key, c.1, c.2⟩, mem_snapshotEntries.mpr ?_, rfl⟩
          rw [hahead.live hnow, hc]

end

/-! ## Two recoveries -/

theorem ready_recovered {L : UInt64} {s : StorageEngine S} (h : Loading L false s) :
    Ready L (s.setEvictionEnabled true).takeEvictedKeys.2 := by
  obtain ⟨ks, hevicts⟩ := evicts_enforceMaxKeys { s with evictionEnabled := true }
  exact ⟨hevicts.maxKeys.trans h.maxKeys, hevicts.evictionEnabled, rfl,
    hevicts.drift.trans h.drift⟩

/-- The session between the two recoveries, for the second one at time `t` and a key that
nothing writes. -/
structure Resumed (disk : Disk) (path : Bool) (L : UInt64) (n : ℕ) (old : List Command)
    (t : Instant) (key : Bytes) (r : Continued S) : Prop where
  resumes : ∃ new, Resumes disk path n old new r.session
  ready : Ready L r.session.server.storage
  absent : r.session.cells key = none
  precedes : r.session.Ahead t.1 → r.session.now.1 ≤ t.1 → r.session.Precedes t.1 r.dropped

theorem Resumed.step {disk : Disk} {path : Bool} {L : UInt64} {n : ℕ} {old : List Command}
    {t : Instant} {key : Bytes} {r r' : Continued S} (h : Resumed disk path L n old t key r)
    {a : Action} (hwrites : ¬a.Writes key) (hcounts : r.session.Counts a)
    (hahead : r.session.Ahead t.1) (hstep : r.step a = some r') :
    Resumed disk path L n old t key r' := by
  obtain ⟨st, hst, rfl⟩ := Option.map_eq_some_iff.mp hstep
  obtain ⟨new, hnew⟩ := h.resumes
  obtain ⟨-, hready, hlater, hmoves⟩ :=
    moves_step hnew.enabled hnew.opened hnew.size h.ready hst
  refine ⟨⟨_, hnew.step h.ready hcounts hst⟩, hready, absent_step h.absent hwrites hmoves, ?_⟩
  intro hahead' htime
  exact (h.precedes hahead (Int64.le_trans hlater htime)).step hahead hahead' htime hmoves

/-- A server that has just recovered. -/
theorem resumed_started {f : AppendOnlyFile} (henabled : f.enabled = true) {disk : Disk}
    (hsize : (disk.aof.getD []).length ≤ maxFileSize) {L : UInt64} (hL : L ≠ 0) {t₁ t₂ : Instant}
    {key : Bytes} {n : UInt64} {s : StorageEngine S} {old : List Command}
    (happly : applyAll t₁.1 old (({ maxKeys := L } : StorageEngine S).setEvictionEnabled false) =
      .ok s)
    (hsmall : weight old < 2 ^ 64)
    (hdue : ∀ c ∈ old, c.overdue t₂.1 = c.overdue t₁.1)
    (habsent : (s.setEvictionEnabled true).takeEvictedKeys.2.cells key = none) :
    Resumed disk f.hasSnapshotPath L n.toNat old t₂ key
      ⟨⟨⟨(s.setEvictionEnabled true).takeEvictedKeys.2,
        { f.fresh with sequence := n, opened := true },
        { disk with aof := some (disk.aof.getD []) }⟩, t₁, old⟩,
        (replayOrder t₁.1 old).rdrop L.toNat⟩ where
  resumes := ⟨[], {
    enabled := henabled
    opened := rfl
    hasSnapshotPath := rfl
    size := hsize
    aof := by simp [numbered, written]
    admissible := by simp
    small := n.toNat_lt
    sequence := by simp
    snapshot := Or.inl ⟨rfl, (List.append_nil old).symm⟩ }⟩
  ready := ready_recovered (loading_applyAll happly)
  absent := habsent
  precedes := by
    intro _ _
    refine ⟨(replayOrder t₁.1 old).rtake L.toNat, ?_, fun k ↦ ?_⟩
    · rw [rdrop_append_rtake]
      exact replayOrder_congr hdue
    · exact ((cells_recovered hL hsmall happly).2 k).symm

/-- The second recovery keeps the keys of the live server and, before them, as many of the
dropped ones as there is room for. -/
theorem Resumed.recovered {disk : Disk} {L : UInt64} (hL : L ≠ 0) {n : ℕ} {old : List Command}
    {t : Instant} {key : Bytes} {r : Continued S} {f : AppendOnlyFile} {s : StorageEngine S}
    (h : Resumed disk f.hasSnapshotPath L n old t key r) (hold : old = recoveredCommands f disk)
    (hterminated : (splitLines newline (disk.aof.getD [])).2 = [])
    (hheader : (snapshotContent f disk).1 ≤ UInt64.ofNat n)
    (hbound : ∀ i line, (getlines newline (disk.aof.getD []))[i]? = some line →
      (decodeLine (i + 1) line).1 ≤ UInt64.ofNat n)
    (hahead : r.session.Ahead t.1) (htime : r.session.now.1 ≤ t.1)
    (hsmall : weight r.session.journal < 2 ^ 64)
    (hrecovered : r.session.recovered t.1 = some s) :
    s.cells key = none ↔
      key ∉ r.dropped.rtake (L.toNat - r.session.server.storage.shards.size) := by
  obtain ⟨new, hnew⟩ := h.resumes
  obtain ⟨rest, horder, hmem⟩ := h.precedes hahead htime
  have hnodup := nodup_replayOrder t.1 r.session.journal
  rw [horder] at hnodup
  have hsize : r.session.server.storage.shards.size = rest.length := by
    have hstored : ∀ k, r.session.server.storage.cells k ≠ none ↔ k ∈ rest.toFinset := by
      intro k
      rw [List.mem_toFinset, hmem]
    rw [size_eq_card hstored, List.toFinset_card_of_nodup (List.nodup_append.mp hnodup).2.1]
  have hrest : key ∉ rest.rtake L.toNat := by
    intro hkey
    exact (hmem key).mp ((rtake_sublist _ _).mem hkey) h.absent
  obtain ⟨p, hp, rfl⟩ := Option.map_eq_some_iff.mp hrecovered
  have hrecover := toOption_eq_some_iff.mp hp
  have henabled : r.session.server.persistence.fresh.enabled = true := hnew.enabled
  obtain ⟨⟨s', happly, hs⟩, -⟩ := recover_eq_ok henabled (g := p.1) (r := p.2) hrecover
  rw [hnew.recoveredCommands_eq rfl hold hterminated hheader hbound, h.ready.maxKeys] at happly
  have hcell := (cells_recovered hL hsmall happly).2 key
  rw [← hs, horder, rtake_append, List.mem_append, or_iff_left hrest, ← hsize] at hcell
  rw [← hcell, ne_eq, not_not]

end

/-- A server starts on files of any content, with a log that ends in a whole line, and
its counters do not wrap.  Deadlines may pass before the first recovery and are ahead
of the second.  A key that is not there when the server has started, and that no
command writes, is absent after the second recovery unless it is one of the dropped keys
that find room beside the live ones. -/
theorem evicted_key_absent_iff {S : Sharding} (f : AppendOnlyFile) (disk : Disk) (L : UInt64)
    (t₁ t₂ : Instant) (key : Bytes) (first last : Continued S) (events : List Action)
    (s : StorageEngine S) (hL : L ≠ 0) (henabled : f.enabled = true)
    (hsize : (disk.aof.getD []).length ≤ maxFileSize)
    (hterminated : (splitLines newline (disk.aof.getD [])).2 = [])
    (hstart : Continued.started S f disk L t₁ = some first)
    (hrun : run Continued.step first events = some last)
    (halong : Along Continued.step (fun r a ↦ r.session.Counts a ∧ r.session.Ahead t₂.1)
      first events)
    (hahead : last.session.Ahead t₂.1) (htime : last.session.now.1 ≤ t₂.1)
    (hdue : ∀ c ∈ first.session.journal, c.overdue t₂.1 = c.overdue t₁.1)
    (hfirst : weight first.session.journal < 2 ^ 64)
    (hlast : weight last.session.journal < 2 ^ 64)
    (habsent : first.session.cells key = none) (hwrites : ∀ a ∈ events, ¬a.Writes key)
    (hrecovered : last.session.recovered t₂.1 = some s) :
    s.cells key = none ↔
      key ∉ last.dropped.rtake (L.toNat - last.session.server.storage.shards.size) := by
  obtain ⟨st, hst, rfl⟩ := Option.map_eq_some_iff.mp hstart
  obtain ⟨g, s₁, hrecover, rfl⟩ := started_eq_some henabled hst
  obtain ⟨⟨s', happly, rfl⟩, hheader, hbound⟩ := recover_eq_ok (f := f.fresh) henabled hrecover
  have hnumber : UInt64.ofNat g.sequence.toNat = g.sequence := UInt64.ofNat_toNat
  have hresumed : Resumed disk f.fresh.hasSnapshotPath L g.sequence.toNat
      (recoveredCommands f.fresh disk) t₂ key last := by
    refine run_invariant (P := fun _ r ↦ Resumed disk f.hasSnapshotPath L _ _ t₂ key r)
      (resumed_started henabled hsize hL happly hfirst hdue habsent) ?_
      ((along_of_forall_mem hwrites).and halong) hrun
    intro _ r a r' h hallowed hstep
    exact h.step hallowed.1 hallowed.2.1 hallowed.2.2 hstep
  exact hresumed.recovered hL rfl hterminated (by rwa [hnumber]) (by rwa [hnumber]) hahead htime
    hlast hrecovered

/-- Files that hold `a` and `b`. -/
def twoKeys : Disk where
  aof := some (written [(1, ⟨.set, [ascii "a", ascii "1"]⟩), (2, ⟨.set, [ascii "b", ascii "2"]⟩)])

def alwaysSynced : AppendOnlyFile := ⟨true, .always, true, false, false, 0⟩

/-- A server with room for one key starts on these files, and another one after it. -/
def twoRecoveries (events : List Action) :
    Option (Continued oneShard × Continued oneShard × StorageEngine oneShard) :=
  (Continued.started oneShard alwaysSynced twoKeys 1 ⟨0, epoch_nonneg⟩).bind fun first ↦
    (run Continued.step first events).bind fun last ↦
      (last.session.recovered 0).map fun s ↦ (first, last, s)

def deletion : List Action := [.command ⟨.del, [ascii "b"]⟩ (.at ⟨0, epoch_nonneg⟩)]

def insertion : List Action := [.command ⟨.set, [ascii "c", ascii "3"]⟩ (.at ⟨0, epoch_nonneg⟩)]

theorem twoRecoveries_eq_some {events : List Action}
    {r : Continued oneShard × Continued oneShard × StorageEngine oneShard}
    (h : twoRecoveries events = some r) :
    Continued.started oneShard alwaysSynced twoKeys 1 ⟨0, epoch_nonneg⟩ = some r.1 ∧
      run Continued.step r.1 events = some r.2.1 ∧ r.2.1.session.recovered 0 = some r.2.2 := by
  obtain ⟨first, hfirst, hrest⟩ := Option.bind_eq_some_iff.mp h
  obtain ⟨last, hlast, hrest⟩ := Option.bind_eq_some_iff.mp hrest
  obtain ⟨s, hs, rfl⟩ := Option.map_eq_some_iff.mp hrest
  exact ⟨hfirst, hlast, hs⟩

/-- What is asked of the two runs. -/
def WithinBounds (events : List Action)
    (r : Continued oneShard × Continued oneShard × StorageEngine oneShard) : Prop :=
  Along Continued.step (fun r a ↦ r.session.Counts a ∧ r.session.Ahead 0) r.1 events ∧
    (r.2.1.session.Ahead 0 ∧ r.2.1.session.now.1 ≤ 0) ∧
    weight r.1.session.journal < 2 ^ 64 ∧ weight r.2.1.session.journal < 2 ^ 64 ∧
    r.1.session.cells (ascii "a") = none

instance (events : List Action)
    (r : Continued oneShard × Continued oneShard × StorageEngine oneShard) :
    Decidable (WithinBounds events r) :=
  inferInstanceAs (Decidable (_ ∧ _))

/-- The first recovery evicts `a`.  When `c` replaces `b` there is no room for `a`, and the
second recovery evicts it again; when `b` is deleted there is. -/
theorem evicted_key_absent_iff_two_keys :
    (∃ r, twoRecoveries insertion = some r ∧ r.1.session.cells (ascii "a") = none ∧
        r.2.2.cells (ascii "a") = none) ∧
      ∃ r, twoRecoveries deletion = some r ∧ r.1.session.cells (ascii "a") = none ∧
        r.2.2.cells (ascii "a") ≠ none := by
  have hinsertion : (twoRecoveries insertion).map (fun r ↦ (decide (WithinBounds insertion r),
      r.2.1.dropped.rtake (1 - r.2.1.session.server.storage.shards.size))) =
        some (true, []) := by decide +kernel
  have hdeletion : (twoRecoveries deletion).map (fun r ↦ (decide (WithinBounds deletion r),
      r.2.1.dropped.rtake (1 - r.2.1.session.server.storage.shards.size))) =
        some (true, [ascii "a"]) := by decide +kernel
  obtain ⟨r, hr, hvalues⟩ := Option.map_eq_some_iff.mp hinsertion
  obtain ⟨q, hq, hvalues'⟩ := Option.map_eq_some_iff.mp hdeletion
  obtain ⟨hbounds, hdropped⟩ := Prod.mk.inj hvalues
  obtain ⟨hbounds', hdropped'⟩ := Prod.mk.inj hvalues'
  obtain ⟨halong, ⟨hahead, htime⟩, hfirst, hlast, habsent⟩ := of_decide_eq_true hbounds
  obtain ⟨halong', ⟨hahead', htime'⟩, hfirst', hlast', habsent'⟩ :=
    of_decide_eq_true hbounds'
  obtain ⟨hstart, hrun, hrecovered⟩ := twoRecoveries_eq_some hr
  obtain ⟨hstart', hrun', hrecovered'⟩ := twoRecoveries_eq_some hq
  refine ⟨⟨r, hr, habsent, ?_⟩, q, hq, habsent', ?_⟩
  · refine (evicted_key_absent_iff alwaysSynced twoKeys 1 ⟨0, epoch_nonneg⟩ ⟨0, epoch_nonneg⟩
      (ascii "a") r.1 r.2.1 insertion r.2.2 (by decide) rfl (by decide) (by decide) hstart hrun
      halong hahead htime (fun _ _ ↦ rfl) hfirst hlast habsent (by decide) hrecovered).mpr ?_
    rw [show (1 : UInt64).toNat = 1 from rfl, hdropped]
    simp
  · rw [ne_eq, evicted_key_absent_iff alwaysSynced twoKeys 1 ⟨0, epoch_nonneg⟩ ⟨0, epoch_nonneg⟩
      (ascii "a") q.1 q.2.1 deletion q.2.2 (by decide) rfl (by decide) (by decide) hstart' hrun'
      halong' hahead' htime' (fun _ _ ↦ rfl) hfirst' hlast' habsent' (by decide) hrecovered',
      not_not, show (1 : UInt64).toNat = 1 from rfl, hdropped']
    simp

/-- With room for one key the first recovery evicts `a`, and the second one, from
the files in which only `b` has been deleted, has it again. -/
theorem evicted_key_returns :
    ∃ first last : Session oneShard,
      Session.started oneShard ⟨true, .always, true, false, false, 0⟩ twoKeys 1
          ⟨0, by decide⟩ = some first ∧
        first.cells (ascii "a") = none ∧ (∀ a ∈ deletion, ¬a.Writes (ascii "a")) ∧
        run Session.step first deletion = some last ∧
        (last.recovered 0).map (fun s ↦ s.cells (ascii "a")) = some (some (ascii "1", none)) := by
  have hrun : ((Session.started oneShard ⟨true, .always, true, false, false, 0⟩ twoKeys 1
      ⟨0, by decide⟩).bind fun first ↦ (run Session.step first deletion).map fun last ↦
        (first.cells (ascii "a"), (last.recovered 0).map fun s ↦ s.cells (ascii "a"))) =
          some (none, some (some (ascii "1", none))) := by decide +kernel
  obtain ⟨first, hstart, hfirst⟩ := Option.bind_eq_some_iff.mp hrun
  obtain ⟨last, hlast, hvalues⟩ := Option.map_eq_some_iff.mp hfirst
  obtain ⟨habsent, hback⟩ := Prod.mk.inj hvalues
  exact ⟨first, last, hstart, habsent, by decide, hlast, hback⟩

end ByteCacheDB
