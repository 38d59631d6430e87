import ByteCacheDB.CutRecord

/-!
# Replay of a log that was cut

A log written by successful appends is cut at an arbitrary byte.  Replay of the
rest either fails, or applies a whole number of the commands, or applies an
`MSET` whose record was cut behind an even number of its arguments.
-/

namespace ByteCacheDB

open CommandParser Lines Numerals StorageEngine AppendOnlyFile

/-- Successful appends of one command after another. -/
def appendAll (f : AppendOnlyFile) (disk : Disk) :
    List (Command × WriteOutcome) → Option (AppendOnlyFile × Disk)
  | [] => some (f, disk)
  | (command, o) :: rest =>
      match (f.append disk o command).1 with
      | .error _ => none
      | .ok () => appendAll (f.append disk o command).2.1 (f.append disk o command).2.2 rest

/-- What successful appends leave in the log. -/
theorem appendAll_spec {f f' : AppendOnlyFile} {disk disk' : Disk}
    {appends : List (Command × WriteOutcome)} (henabled : f.enabled = true)
    (hopened : f.opened = true) (h : appendAll f disk appends = some (f', disk')) :
    f'.enabled = true ∧
      disk'.aof.getD [] =
        disk.aof.getD [] ++ written (numbered f.sequence (appends.map Prod.fst)) ∧
      ((disk.aof.getD []).length ≤ maxFileSize → (disk'.aof.getD []).length ≤ maxFileSize) := by
  induction appends generalizing f disk with
  | nil =>
      obtain ⟨rfl, rfl⟩ := Prod.mk.inj (Option.some.inj h)
      exact ⟨henabled, by simp [numbered, written], id⟩
  | cons a rest ih =>
      obtain ⟨command, o⟩ := a
      simp only [appendAll] at h
      cases hok : (f.append disk o command).1 with
      | error e => simp [hok] at h
      | ok u =>
          have hroom := length_le_room_of_append_ok henabled hopened hok
          obtain ⟨d, happend⟩ := append_spec henabled hopened disk o command
          rw [List.take_of_length_le hroom] at happend
          rw [hok, happend] at h
          dsimp only at h
          obtain ⟨henabled', haof, hsize⟩ := ih (by exact henabled) (by exact hopened) h
          refine ⟨henabled', ?_, fun _ ↦ hsize ?_⟩
          · rw [haof]
            simp [numbered, written]
          · have hpos : 0 < (record (f.sequence + 1) command).length := by simp [record]
            rw [room] at hroom
            simp only [Option.getD_some, List.length_append]
            omega

/-! ## Counting accesses -/

section
variable {S : Sharding}

/-- A call has drawn `d` access numbers. -/
def Draws (s s' : StorageEngine S) (d : ℕ) : Prop :=
  s'.accessSequence = s.accessSequence + UInt64.ofNat d

theorem Draws.trans {s t u : StorageEngine S} {d d' : ℕ} (h : Draws s t d) (h' : Draws t u d') :
    Draws s u (d + d') := by
  rw [Draws, h', h, UInt64.ofNat_add]
  grind

theorem draws_zero {s s' : StorageEngine S} (h : s'.accessSequence = s.accessSequence) :
    Draws s s' 0 := by
  rw [Draws, h]
  simp

theorem accessSequence_dropExpired (s : StorageEngine S) (now : TimePoint) (key : Bytes) :
    (s.dropExpired now key).accessSequence = s.accessSequence := by
  unfold dropExpired
  split
  · split <;> rfl
  · rfl

theorem accessSequence_putCounted (s : StorageEngine S) (key : Bytes) (entry : ValueEntry) :
    (s.putCounted key entry).accessSequence = s.accessSequence + 1 := by
  unfold putCounted
  split <;> rfl

theorem draws_store (s : StorageEngine S) (now : TimePoint) (key value : Bytes) :
    Draws s (s.store now key value) 1 := by
  rw [Draws, store, accessSequence_putCounted, accessSequence_dropExpired]
  rfl

theorem draws_storeAll (s : StorageEngine S) (now : TimePoint) (pairs : List (Bytes × Bytes)) :
    Draws s (s.storeAll now pairs) pairs.length := by
  induction pairs generalizing s with
  | nil => exact draws_zero rfl
  | cons p ps ih =>
      rw [List.length_cons, Nat.add_comm]
      exact (draws_store s now p.1 p.2).trans (ih _)

theorem accessSequence_evictionLoop (limit : UInt64) (rounds : ℕ) (s : StorageEngine S) :
    (evictionLoop limit rounds s).accessSequence = s.accessSequence := by
  induction rounds generalizing s with
  | zero => rfl
  | succ rounds ih =>
      unfold evictionLoop
      split
      · split
        · rfl
        · rw [ih]
          unfold evict
          split <;> rfl
      · rfl

theorem accessSequence_enforceMaxKeys (s : StorageEngine S) :
    s.enforceMaxKeys.accessSequence = s.accessSequence := by
  unfold enforceMaxKeys
  split
  · rfl
  · exact accessSequence_evictionLoop _ _ s

theorem draws_expireAt (s : StorageEngine S) (now : TimePoint) (key : Bytes)
    (expiresAt : TimePoint) : ∃ d ≤ 1, Draws s (s.expireAt now key expiresAt).2 d := by
  unfold expireAt
  split
  · exact ⟨0, Nat.zero_le _, draws_zero rfl⟩
  · split
    · exact ⟨0, Nat.zero_le _, draws_zero rfl⟩
    · exact ⟨1, Nat.le_refl _, rfl⟩

theorem draws_increment (s : StorageEngine S) (now : TimePoint) (key : Bytes) (delta : Int64)
    {next : Int64} {s' : StorageEngine S} (h : s.increment now key delta = (.ok next, s')) :
    Draws s s' 1 := by
  have hlocked : ∀ {r s'}, s.incrementLocked now key delta = (.ok r, s') → Draws s s' 1 := by
    intro r s' hr
    have hdrop := accessSequence_dropExpired s now key
    simp only [incrementLocked] at hr
    cases hfind : (s.dropExpired now key).shards.find? key with
    | none =>
        rw [hfind] at hr
        dsimp only at hr
        split at hr
        · simp at hr
        · obtain ⟨-, rfl⟩ := Prod.mk.inj hr
          rw [Draws, accessSequence_putCounted, hdrop]
          rfl
    | some entry =>
        rw [hfind] at hr
        dsimp only at hr
        split at hr
        · simp at hr
        · obtain ⟨-, rfl⟩ := Prod.mk.inj hr
          change (s.dropExpired now key).accessSequence + 1 = _
          rw [hdrop]
          rfl
  unfold increment at h
  cases hr : s.incrementLocked now key delta with
  | mk result t =>
      rw [hr] at h
      cases result with
      | error e => simp at h
      | ok r =>
          obtain ⟨-, rfl⟩ := Prod.mk.inj h
          have ht := hlocked hr
          split
          · rw [Draws, accessSequence_enforceMaxKeys]
            exact ht
          · exact ht

theorem draws_append (s : StorageEngine S) (now : TimePoint) (key suffix : Bytes) :
    Draws s (s.append now key suffix).2 1 := by
  have hlocked : Draws s (s.appendLocked now key suffix).2 1 := by
    have hdrop := accessSequence_dropExpired s now key
    simp only [appendLocked]
    cases hfind : (s.dropExpired now key).shards.find? key with
    | none =>
        change ((s.dropExpired now key).putCounted key _).accessSequence = _
        rw [accessSequence_putCounted, hdrop]
        rfl
    | some entry =>
        change (s.dropExpired now key).accessSequence + 1 = _
        rw [hdrop]
        rfl
  simp only [StorageEngine.append]
  split
  · rw [Draws, accessSequence_enforceMaxKeys]
    exact hlocked
  · exact hlocked

theorem length_le_length_serialize (command : Command) :
    1 ≤ (serialize command).length ∧ command.args.length ≤ (serialize command).length := by
  have hname := List.length_pos_iff.mpr (plain_commandName command.type).2
  have hargs : ∀ args : List Bytes, args.length ≤
      (args.flatMap fun arg ↦ space :: quote arg).length := by
    intro args
    induction args with
    | nil => simp
    | cons arg rest ih =>
        simp only [List.flatMap_cons, List.length_append, List.length_cons]
        omega
  have htail := hargs command.args
  rw [serialize, List.length_append]
  omega

/-- A replayed command draws no more access numbers than its text is long; an
`MSET` draws one for every pair. -/
theorem draws_applyReplayCommand {s s' : StorageEngine S} {now : TimePoint} {command : Command}
    (h : applyReplayCommand s now command = .ok s') :
    ∃ d ≤ (serialize command).length, Draws s s' d ∧
      (command.type = .mset → d = command.args.length / 2) := by
  obtain ⟨hone, hargs⟩ := length_le_length_serialize command
  obtain ⟨type, args⟩ := command
  have hsmall : ∀ {d : ℕ} {t : StorageEngine S}, d ≤ 1 → Draws s t d → type ≠ .mset →
      ∃ d ≤ (serialize ⟨type, args⟩).length, Draws s t d ∧
        (type = .mset → d = args.length / 2) := by
    intro d t hd hdraws htype
    exact ⟨d, Nat.le_trans hd hone, hdraws, fun hmset ↦ absurd hmset htype⟩
  cases type with
  | set =>
      obtain rfl := Except.ok.inj h
      apply hsmall (Nat.le_refl 1) _ (by simp)
      rw [StorageEngine.set, Draws, accessSequence_enforceMaxKeys]
      exact draws_store s now _ _
  | mset =>
      obtain rfl := Except.ok.inj h
      refine ⟨args.length / 2, Nat.le_trans (Nat.div_le_self _ _) hargs, ?_, fun _ ↦ rfl⟩
      rw [mset, Draws, accessSequence_enforceMaxKeys, ← length_argPairs]
      exact draws_storeAll s now _
  | del =>
      obtain rfl := Except.ok.inj h
      apply hsmall (Nat.zero_le 1) (draws_zero _) (by simp)
      unfold del
      split <;> rfl
  | flush =>
      obtain rfl := Except.ok.inj h
      exact hsmall (Nat.zero_le 1) (draws_zero rfl) (by simp)
  | persist =>
      obtain rfl := Except.ok.inj h
      unfold persist
      split
      · exact hsmall (Nat.zero_le 1) (draws_zero rfl) (by simp)
      · split
        · exact hsmall (Nat.zero_le 1) (draws_zero rfl) (by simp)
        · exact hsmall (Nat.le_refl 1) rfl (by simp)
  | expire =>
      simp only [applyReplayCommand] at h
      split at h
      · simp at h
      · split at h
        · simp at h
        · obtain rfl := Except.ok.inj h
          obtain ⟨d, hd, hdraws⟩ := draws_expireAt s now _ _
          exact hsmall hd hdraws (by simp)
  | expireat =>
      simp only [applyReplayCommand] at h
      split at h
      · simp at h
      · obtain rfl := Except.ok.inj h
        obtain ⟨d, hd, hdraws⟩ := draws_expireAt s now _ _
        exact hsmall hd hdraws (by simp)
  | incr | decr =>
      simp only [applyReplayCommand] at h
      split at h
      · simp at h
      · rename_i hinc
        obtain rfl := Except.ok.inj h
        exact hsmall (Nat.le_refl 1) (draws_increment s now _ _ hinc) (by simp)
  | append =>
      obtain rfl := Except.ok.inj h
      exact hsmall (Nat.le_refl 1) (draws_append s now _ _) (by simp)
  | _ => simp [applyReplayCommand] at h

def totalLength (commands : List Command) : ℕ :=
  (commands.map fun command ↦ (serialize command).length).sum

theorem draws_applyAll {s s' : StorageEngine S} {now : TimePoint} {commands : List Command}
    (h : applyAll now commands s = .ok s') :
    ∃ d ≤ totalLength commands, Draws s s' d := by
  induction commands generalizing s with
  | nil =>
      obtain rfl := Except.ok.inj h
      exact ⟨0, Nat.zero_le _, draws_zero rfl⟩
  | cons command rest ih =>
      obtain ⟨t, happly, hrest⟩ := applyAll_cons_eq_ok.mp h
      obtain ⟨d, hd, hdraws, -⟩ := draws_applyReplayCommand happly
      obtain ⟨d', hd', hdraws'⟩ := ih hrest
      refine ⟨d + d', ?_, hdraws.trans hdraws'⟩
      simp only [totalLength, List.map_cons, List.sum_cons]
      exact Nat.add_le_add hd hd'

/-! ## The commands that replay keeps -/

/-- The commands among the first `k` that a replay above `minimum` applies. -/
def kept (minimum : UInt64) (commands : List Command) (k : ℕ) : List Command :=
  effective minimum ((numbered 0 commands).take k)

theorem kept_succ {minimum : UInt64} {commands : List Command} {k : ℕ} {command : Command}
    (hk : commands[k]? = some command) (habove : minimum < UInt64.ofNat (k + 1)) :
    kept minimum commands (k + 1) = kept minimum commands k ++ [command] := by
  have hrec := getElem?_numbered 0 commands k
  rw [hk] at hrec
  simp only [Option.map_some, UInt64.zero_add] at hrec
  rw [kept, List.take_add_one, hrec, Option.toList_some, effective, List.filter_append,
    List.map_append, List.filter_cons_of_pos (by simpa only [decide_eq_true_eq] using habove)]
  rfl

theorem kept_prefix (minimum : UInt64) (commands : List Command) {k l : ℕ} (h : k ≤ l) :
    kept minimum commands k <+: kept minimum commands l :=
  ((List.take_prefix_take_left h).filter _).map _

theorem kept_sublist (minimum : UInt64) (commands : List Command) (k : ℕ) :
    (kept minimum commands k).Sublist commands := by
  have hsub : (((numbered 0 commands).take k).filter fun r ↦ minimum < r.1).Sublist
      (numbered 0 commands) := List.filter_sublist.trans (List.take_sublist _ _)
  have hmap := hsub.map Prod.snd
  rwa [map_snd_numbered] at hmap

theorem totalLength_le_of_sublist {xs ys : List Command} (h : xs.Sublist ys) :
    totalLength xs ≤ totalLength ys :=
  (h.map _).sum_le_sum fun _ _ ↦ Nat.zero_le _

theorem totalLength_le_written (n : UInt64) (commands : List Command) :
    totalLength commands ≤ (written (numbered n commands)).length := by
  induction commands generalizing n with
  | nil => exact Nat.zero_le _
  | cons command rest ih =>
      have hrest := ih (n + 1)
      simp only [totalLength, written, numbered, List.map_cons, List.sum_cons,
        List.flatMap_cons, List.length_append, record, recordLine, List.length_cons] at hrest ⊢
      omega

/-! ## Replay of a cut log -/

/-- The cut leaves some of the pairs of an `MSET` that replay would apply. -/
structure CutMset (minimum : UInt64) (commands : List Command) (pre : Bytes) (k : ℕ)
    (args : List Bytes) (j : ℕ) : Prop where
  mset : commands[k]? = some ⟨.mset, args⟩
  above : minimum < UInt64.ofNat (k + 1)
  shorter : Shorter ⟨.mset, args⟩ j
  pre_eq : ∃ blank ∈ [[], [space]], pre = written ((numbered 0 commands).take k) ++
    (recordLine (UInt64.ofNat (k + 1)) ⟨.mset, args.take j⟩ ++ blank)

/-- One more line behind a log: skipped, refused or applied. -/
theorem replayLines_concat (now : TimePoint) (minimum : UInt64) (s : StorageEngine S)
    (records : List (UInt64 × Command)) (hrecords : ∀ r ∈ records, Admissible r.2)
    (line : Bytes) :
    (replayLines now minimum 0 minimum s
        ((records.map fun r ↦ recordLine r.1 r.2) ++ [line])).toOption.map Prod.snd =
      (applyAll now (effective minimum records) s).toOption.bind fun t ↦
        if (decodeLine (records.length + 1) line).1 ≤ minimum then some t
        else (decodeLine (records.length + 1) line).2.toOption.bind fun command ↦
          (applyReplayCommand t now command).toOption := by
  have hwhole := replayLines_records now minimum 0 minimum s records hrecords
  rw [replayLines_append, List.length_map, Nat.zero_add]
  cases hfirst : replayLines now minimum 0 minimum s
      (records.map fun r ↦ recordLine r.1 r.2) with
  | error e =>
      rw [hfirst] at hwhole
      rw [Option.map_eq_none_iff.mp hwhole.symm]
      rfl
  | ok r =>
      rw [hfirst] at hwhole
      obtain ⟨t, ht, hr⟩ := Option.map_eq_some_iff.mp hwhole.symm
      obtain rfl : t = r.2 := by rw [← hr]
      rw [ht]
      simp only [bind, Except.bind, replayLines, Option.bind_some]
      split
      · rfl
      · cases (decodeLine (records.length + 1) line).2 with
        | error e => rfl
        | ok command =>
            change _ = (applyReplayCommand r.2 now command).toOption
            dsimp only
            cases applyReplayCommand r.2 now command <;> rfl

section
variable {now : TimePoint} {minimum : UInt64} {commands : List Command} {s : StorageEngine S}

theorem applyAll_concat (now : TimePoint) (xs : List Command) (command : Command)
    (s : StorageEngine S) :
    (applyAll now (xs ++ [command]) s).toOption =
      (applyAll now xs s).toOption.bind fun t ↦ (applyReplayCommand t now command).toOption := by
  rw [applyAll_append]
  cases applyAll now xs s with
  | error e => rfl
  | ok t =>
      simp only [bind, Except.bind, Except.toOption, Option.bind_some, applyAll,
        List.foldlM_cons, List.foldlM_nil]
      cases applyReplayCommand t now command <;> rfl

/-- A prefix of a log: `k` whole records and a piece of the next one. -/
structure CutAt (commands : List Command) (pre : Bytes) (k : ℕ) (tail : Bytes) : Prop where
  le_length : k ≤ commands.length
  pre_eq : pre = written ((numbered 0 commands).take k) ++ tail
  tail_of_next : tail = [] ∨ ∃ command, commands[k]? = some command ∧
    tail <+: recordLine (UInt64.ofNat (k + 1)) command

theorem exists_cutAt {pre : Bytes} (hpre : pre <+: written (numbered 0 commands)) :
    ∃ k tail, CutAt commands pre k tail := by
  rw [written_eq_unlines] at hpre
  obtain ⟨k, tail, hcut⟩ := exists_cut newline _ pre hpre
  have hpreEq := hcut.pre_eq
  rw [← List.map_take, ← written_eq_unlines] at hpreEq
  rcases hcut.tail_of_next with rfl | ⟨line, hline, htail⟩
  · refine ⟨min k commands.length, [], Nat.min_le_right _ _, ?_, Or.inl rfl⟩
    rw [hpreEq, ← length_numbered 0 commands, List.take_eq_take_min]
  · rw [List.getElem?_map, getElem?_numbered, Option.map_map] at hline
    obtain ⟨command, hcommand, rfl⟩ := Option.map_eq_some_iff.mp hline
    simp only [Function.comp_apply, UInt64.zero_add] at htail
    exact ⟨k, tail, Nat.le_of_lt (List.getElem?_eq_some_iff.mp hcommand).1, hpreEq,
      Or.inr ⟨command, hcommand, htail⟩⟩

theorem CutAt.newline_notMem {pre : Bytes} {k : ℕ} {tail : Bytes}
    (h : CutAt commands pre k tail) : newline ∉ tail := by
  rcases h.tail_of_next with rfl | ⟨command, -, htail⟩
  · exact List.not_mem_nil
  · exact fun hmem ↦ newline_notMem_recordLine _ _ (htail.subset hmem)

theorem admissible_take_numbered (hadm : ∀ command ∈ commands, Admissible command) (k : ℕ) :
    ∀ r ∈ (numbered 0 commands).take k, Admissible r.2 := by
  intro r hr
  apply hadm
  rw [← map_snd_numbered 0 commands]
  exact List.mem_map_of_mem (List.mem_of_mem_take hr)

theorem CutAt.length_take {pre : Bytes} {k : ℕ} {tail : Bytes} (h : CutAt commands pre k tail) :
    ((numbered 0 commands).take k).length = k := by
  rw [List.length_take, length_numbered, Nat.min_eq_left h.le_length]

/-- The commands that replay applies behind a cut, if it refuses nothing. -/
inductive CutReplay (minimum : UInt64) (commands : List Command) (pre : Bytes) (k : ℕ)
    (tail : Bytes) : Option (List Command) → Prop
  | between (htail : tail = []) :
      CutReplay minimum commands pre k tail (some (kept minimum commands k))
  | skipped (htail : tail ≠ []) (hskip : (decodeLine (k + 1) tail).1 ≤ minimum) :
      CutReplay minimum commands pre k tail (some (kept minimum commands k))
  | refused (htail : tail ≠ []) (hskip : ¬(decodeLine (k + 1) tail).1 ≤ minimum)
      (herror : ∃ e, (decodeLine (k + 1) tail).2 = .error e) :
      CutReplay minimum commands pre k tail none
  | unended (command : Command) (hcommand : commands[k]? = some command)
      (habove : minimum < UInt64.ofNat (k + 1))
      (hdecode : (decodeLine (k + 1) tail).2 = .ok command) :
      CutReplay minimum commands pre k tail (some (kept minimum commands (k + 1)))
  | shortened (args : List Bytes) (j : ℕ) (hcut : CutMset minimum commands pre k args j)
      (hdecode : (decodeLine (k + 1) tail).2 = .ok ⟨.mset, args.take j⟩) :
      CutReplay minimum commands pre k tail
        (some (kept minimum commands k ++ [⟨.mset, args.take j⟩]))
  | unreplayable (args : List Bytes) (hcommand : commands[k]? = some ⟨.mget, args⟩) :
      CutReplay minimum commands pre k tail none

/-- Replay of a cut log. -/
theorem replayLines_cut (hadm : ∀ command ∈ commands, Admissible command) {pre : Bytes} {k : ℕ}
    {tail : Bytes} (hcut : CutAt commands pre k tail) (minimum : UInt64) :
    ∃ applied, CutReplay minimum commands pre k tail applied ∧
      ∀ (s : StorageEngine S) now,
        (replayLines now minimum 0 minimum s (getlines newline pre)).toOption.map Prod.snd =
          applied.bind fun cs ↦ (applyAll now cs s).toOption := by
  have htakeAdm := admissible_take_numbered hadm k
  have hlines := getlines_unlines_append newline
    (newline_notMem_of_mem_lines ((numbered 0 commands).take k)) hcut.newline_notMem
  rw [← written_eq_unlines, ← hcut.pre_eq] at hlines
  by_cases hne : tail = []
  · refine ⟨_, .between hne, fun s now ↦ ?_⟩
    have hwhole := replayLines_records now minimum 0 minimum s _ htakeAdm
    rw [hlines, hne, tailLine_nil, List.append_nil, hwhole, Option.map_map]
    exact Option.map_id'
  obtain ⟨command, hcommand, htail⟩ := hcut.tail_of_next.resolve_left hne
  have hcadm : Admissible command := hadm command (List.mem_of_getElem? hcommand)
  have hconcat : ∀ (s : StorageEngine S) now,
      (replayLines now minimum 0 minimum s (getlines newline pre)).toOption.map Prod.snd =
        (applyAll now (kept minimum commands k) s).toOption.bind fun t ↦
          if (decodeLine (k + 1) tail).1 ≤ minimum then some t
          else (decodeLine (k + 1) tail).2.toOption.bind fun command ↦
            (applyReplayCommand t now command).toOption := by
    intro s now
    rw [hlines, tailLine_of_ne_nil hne, replayLines_concat now minimum s _ htakeAdm tail,
      hcut.length_take, ← kept]
  by_cases hskip : (decodeLine (k + 1) tail).1 ≤ minimum
  · refine ⟨_, .skipped hne hskip, fun s now ↦ ?_⟩
    simp only [hconcat, hskip, if_true]
    exact Option.bind_fun_some _
  simp only [hskip, if_false] at hconcat
  rcases decodeLine_prefix (k + 1) htail hne with
    ⟨⟨e, herror⟩, hdecode⟩ | ⟨text, htext, htailEq, hdecode⟩
  · refine ⟨none, .refused hne hskip ⟨e, by rw [hdecode, herror]⟩, fun s now ↦ ?_⟩
    rw [hconcat]
    simp [hdecode, herror, Except.toOption]
  have habove : minimum < UInt64.ofNat (k + 1) := by
    rw [hdecode] at hskip
    exact UInt64.not_le.mp hskip
  cases hparse : parse text with
  | error e =>
      refine ⟨none, .refused hne hskip ⟨e, by rw [hdecode, hparse]⟩, fun s now ↦ ?_⟩
      rw [hconcat]
      simp [hdecode, hparse, Except.toOption]
  | ok command' =>
      have hparsed : (decodeLine (k + 1) tail).2 = .ok command' := by rw [hdecode, hparse]
      have hone : ∀ (s : StorageEngine S) now,
          (replayLines now minimum 0 minimum s (getlines newline pre)).toOption.map Prod.snd =
            (applyAll now (kept minimum commands k ++ [command']) s).toOption := by
        intro s now
        rw [hconcat, hparsed, applyAll_concat]
        rfl
      rcases parse_prefix hcadm htext hparse with ⟨-, rfl⟩ | ⟨j, hshort, rfl, hshape⟩
      · refine ⟨_, .unended command' hcommand habove hparsed, fun s now ↦ ?_⟩
        rw [kept_succ hcommand habove, hone]
        rfl
      · obtain ⟨type, args⟩ := command
        rcases hshort.2.2 with ⟨htype, -⟩ | htype
        · dsimp only at htype
          subst htype
          refine ⟨_, .shortened args j ⟨hcommand, habove, hshort, ?_⟩ hparsed, hone⟩
          rcases hshape with rfl | rfl
          · exact ⟨[], by simp, by rw [hcut.pre_eq, htailEq, List.append_nil]; rfl⟩
          · refine ⟨[space], by simp, ?_⟩
            rw [hcut.pre_eq, htailEq]
            simp [recordLine]
        · dsimp only at htype
          subst htype
          refine ⟨none, .unreplayable args hcommand, fun s now ↦ ?_⟩
          rw [hone, applyAll_concat]
          simp [applyReplayCommand, Except.toOption]

/-- A cut `MSET` behind records that replay is applied with the pairs left. -/
theorem replayLines_cutMset (hadm : ∀ command ∈ commands, Admissible command) {pre : Bytes}
    {k : ℕ} {args : List Bytes} {j : ℕ} (hcut : CutMset minimum commands pre k args j)
    (s : StorageEngine S) (now : TimePoint) :
    (replayLines now minimum 0 minimum s (getlines newline pre)).toOption.map Prod.snd =
      (applyAll now (kept minimum commands k ++ [⟨.mset, args.take j⟩]) s).toOption := by
  obtain ⟨blank, hblank, hpre⟩ := hcut.pre_eq
  have hk : k < commands.length := (List.getElem?_eq_some_iff.mp hcut.mset).1
  have htakeAdm := admissible_take_numbered hadm k
  have hlen : ((numbered 0 commands).take k).length = k := by
    rw [List.length_take, length_numbered, Nat.min_eq_left (Nat.le_of_lt hk)]
  have hshape : serialize ⟨.mset, args.take j⟩ ++ blank = serialize ⟨.mset, args.take j⟩ ∨
      serialize ⟨.mset, args.take j⟩ ++ blank = serialize ⟨.mset, args.take j⟩ ++ [space] := by
    rcases List.mem_cons.mp hblank with rfl | hblank
    · exact Or.inl (List.append_nil _)
    · rw [List.mem_singleton.mp hblank]
      exact Or.inr rfl
  have hparse := parse_shorter hcut.shorter hshape
  have htail : recordLine (UInt64.ofNat (k + 1)) ⟨.mset, args.take j⟩ ++ blank =
      toStringU64 (UInt64.ofNat (k + 1)) ++ tab :: (serialize ⟨.mset, args.take j⟩ ++ blank) := by
    simp [recordLine]
  have hclean : newline ∉ recordLine (UInt64.ofNat (k + 1)) ⟨.mset, args.take j⟩ ++ blank := by
    intro hmem
    rcases List.mem_append.mp hmem with hmem | hmem
    · exact newline_notMem_recordLine _ _ hmem
    · rcases List.mem_cons.mp hblank with rfl | hblank
      · simp at hmem
      · rw [List.mem_singleton.mp hblank] at hmem
        exact absurd hmem (by decide)
  have hne : recordLine (UInt64.ofNat (k + 1)) ⟨.mset, args.take j⟩ ++ blank ≠ [] := by
    rw [htail]
    simp
  have hlines := getlines_unlines_append newline
    (newline_notMem_of_mem_lines ((numbered 0 commands).take k)) hclean
  rw [← written_eq_unlines, ← hpre, tailLine_of_ne_nil hne] at hlines
  have hconcat := replayLines_concat now minimum s _ htakeAdm
    (recordLine (UInt64.ofNat (k + 1)) ⟨.mset, args.take j⟩ ++ blank)
  have hdecode : decodeLine (k + 1) (recordLine (UInt64.ofNat (k + 1)) ⟨.mset, args.take j⟩ ++
      blank) = (UInt64.ofNat (k + 1), .ok ⟨.mset, args.take j⟩) := by
    rw [htail, decodeLine, parseSequencePrefix_print]
    dsimp only
    rw [hparse]
  rw [hlen, hdecode] at hconcat
  rw [hlines, hconcat, applyAll_concat]
  simp only [if_neg (UInt64.not_le.mpr hcut.above), Except.toOption, Option.bind_some]
  rfl

theorem ofNat_ne_of_lt {a : UInt64} {m n : ℕ} (hmn : m < n) (hn : n < 2 ^ 64) :
    a + UInt64.ofNat m ≠ a + UInt64.ofNat n := by
  intro h
  have hofNat : UInt64.ofNat m = UInt64.ofNat n := by grind
  have hnat := congrArg UInt64.toNat hofNat
  have hm : m < UInt64.size := Nat.lt_trans hmn hn
  rw [UInt64.toNat_ofNat_of_lt' hm, UInt64.toNat_ofNat_of_lt' hn] at hnat
  omega

/-- A cut `MSET` draws one access for each of its pairs. -/
theorem draws_cutMset {args : List Bytes} {j : ℕ} (hlt : j < args.length) {u t : StorageEngine S}
    (h : applyAll now [⟨.mset, args.take j⟩] u = .ok t) : Draws u t (j / 2) := by
  obtain ⟨t', happly, hnil⟩ := applyAll_cons_eq_ok.mp h
  obtain rfl := Except.ok.inj hnil
  obtain ⟨d, -, hdraws, hd⟩ := draws_applyReplayCommand happly
  have hpairs := hd rfl
  dsimp only at hpairs
  rw [List.length_take, Nat.min_eq_left (Nat.le_of_lt hlt)] at hpairs
  rwa [hpairs] at hdraws

/-- The whole `MSET`, with whatever follows it, draws more than a part of it. -/
theorem applyAll_mset_ne {args : List Bytes} {rest : List Command} {j : ℕ}
    (hless : j / 2 < args.length / 2)
    (hsize : totalLength (⟨.mset, args⟩ :: rest) < 2 ^ 64) {u t : StorageEngine S}
    (hdrawn : Draws u t (j / 2)) : applyAll now (⟨.mset, args⟩ :: rest) u ≠ .ok t := by
  intro h
  obtain ⟨v, hwhole, hrest⟩ := applyAll_cons_eq_ok.mp h
  obtain ⟨d, -, hdraws, hd⟩ := draws_applyReplayCommand hwhole
  obtain ⟨d', hd', hdraws'⟩ := draws_applyAll hrest
  obtain rfl : d = args.length / 2 := hd rfl
  have hargs := (length_le_length_serialize ⟨.mset, args⟩).2
  simp only [totalLength, List.map_cons, List.sum_cons] at hsize hd' hargs
  have hne := ofNat_ne_of_lt (a := u.accessSequence) (m := j / 2)
    (n := args.length / 2 + d') (by omega) (by omega)
  exact hne (hdrawn.symm.trans (hdraws.trans hdraws'))

/-- No commands lead back to an engine that has drawn fewer accesses. -/
theorem applyAll_ne_of_draws {rest : List Command} {d : ℕ} (hpos : 0 < d)
    (hsize : totalLength rest + d < 2 ^ 64) {u t : StorageEngine S} (hdrawn : Draws u t d) :
    applyAll now rest t ≠ .ok u := by
  intro h
  obtain ⟨d', hd', hdraws⟩ := draws_applyAll h
  have hround := hdraws.trans hdrawn
  have hne := ofNat_ne_of_lt (a := t.accessSequence) (m := 0) (n := d' + d) (by omega) (by omega)
  apply hne
  rw [← hround]
  simp

/-- The engine behind a partly applied `MSET` has drawn a number of accesses
that no whole number of commands draws. -/
theorem cutMset_not_whole {k : ℕ} {args : List Bytes} {j : ℕ}
    (hmset : commands[k]? = some ⟨.mset, args⟩) (habove : minimum < UInt64.ofNat (k + 1))
    (hshort : Shorter ⟨.mset, args⟩ j) (heven : args.length % 2 = 0)
    (hsize : totalLength commands < 2 ^ 64) {t : StorageEngine S}
    (ht : applyAll now (kept minimum commands k ++ [⟨.mset, args.take j⟩]) s = .ok t) (l : ℕ) :
    applyAll now (kept minimum commands l) s ≠ .ok t := by
  intro hl
  obtain ⟨hpos, hlt, hkind⟩ := hshort
  dsimp only at hlt
  have hjeven : j % 2 = 0 := by
    rcases hkind with ⟨-, heven⟩ | hmget
    · exact heven
    · simp at hmget
  obtain ⟨u, hu, hut⟩ := applyAll_append_eq_ok.mp ht
  have hdrawn := draws_cutMset hlt hut
  have hsucc := kept_succ hmset habove
  rcases Nat.lt_or_ge k l with hkl | hlk
  · -- `l` commands include the whole `MSET`
    obtain ⟨rest, hrest⟩ := kept_prefix minimum commands hkl
    rw [hsucc, List.append_assoc, List.singleton_append] at hrest
    rw [← hrest] at hl
    obtain ⟨u', hu', hwhole⟩ := applyAll_append_eq_ok.mp hl
    obtain rfl : u = u' := Except.ok.inj (hu.symm.trans hu')
    have hlength : totalLength (⟨.mset, args⟩ :: rest) ≤ totalLength commands := by
      apply totalLength_le_of_sublist
      refine List.Sublist.trans ?_ (kept_sublist minimum commands l)
      rw [← hrest]
      exact List.sublist_append_right _ _
    exact applyAll_mset_ne (by omega) (by omega) hdrawn hwhole
  · -- `l` commands end before it
    obtain ⟨rest, hrest⟩ := kept_prefix minimum commands hlk
    rw [← hrest] at hu
    obtain ⟨t', ht', hback⟩ := applyAll_append_eq_ok.mp hu
    obtain rfl : t = t' := Except.ok.inj (hl.symm.trans ht')
    have htotal := totalLength_le_of_sublist (kept_sublist minimum commands (k + 1))
    rw [hsucc, ← hrest] at htotal
    have hargs := (length_le_length_serialize ⟨.mset, args⟩).2
    simp only [totalLength, List.map_append, List.sum_append, List.map_cons, List.map_nil,
      List.sum_cons, List.sum_nil, Nat.add_zero] at htotal hsize hargs
    refine applyAll_ne_of_draws (by omega) ?_ hdrawn hback
    simp only [totalLength]
    omega

end

end

/-- The result of `replay_after` is that of its loop. -/
theorem replayAfter_eq_ok_iff {S : Sharding} {f : AppendOnlyFile} (henabled : f.enabled = true)
    {disk : Disk} {file : Bytes} (hfile : disk.aof = some file) (s t : StorageEngine S)
    (now : TimePoint) (minimum : UInt64) :
    (∃ f', f.replayAfter disk s now minimum = .ok (f', t)) ↔
      (replayLines now minimum 0 minimum s (getlines newline file)).toOption.map Prod.snd =
        some t := by
  rw [← toOption_replayAfter henabled disk hfile]
  cases f.replayAfter disk s now minimum with
  | error e => simp [Except.toOption]
  | ok r => simp [Except.toOption, Prod.ext_iff]

theorem even_of_admissible_mset {args : List Bytes} (h : Admissible ⟨.mset, args⟩) :
    args.length % 2 = 0 := by
  have hcount := h.2
  simp only [validateArgumentCount] at hcount
  split at hcount
  · simp at hcount
  · omega

/-- Replay of a cut log applies a whole number of commands, with one exception:
the last record is an `MSET` cut behind an even number of its arguments, and the
records before it replay. -/
theorem replay_whole_commands_iff {S : Sharding} (policy : FsyncPolicy) (path : Bool)
    (appends : List (Command × WriteOutcome)) (f : AppendOnlyFile) (disk : Disk)
    (happend : appendAll ⟨true, policy, path, true, false, 0⟩ {} appends = some (f, disk))
    (hadm : ∀ a ∈ appends, Admissible a.1) (pre : Bytes) (hpre : pre <+: disk.aof.getD [])
    (s : StorageEngine S) (now : TimePoint) (minimum : UInt64) :
    (∀ f' t, f.replayAfter { disk with aof := some pre } s now minimum = .ok (f', t) →
        ∃ k ≤ appends.length,
          applyAll now (kept minimum (appends.map Prod.fst) k) s = .ok t) ↔
      ¬∃ k args j, CutMset minimum (appends.map Prod.fst) pre k args j ∧
        ∃ t, applyAll now (kept minimum (appends.map Prod.fst) k) s = .ok t := by
  obtain ⟨henabled, haof, hsize⟩ := appendAll_spec rfl rfl happend
  have hbytes := hsize (Nat.zero_le _)
  have hcommands : ∀ command ∈ appends.map Prod.fst, Admissible command := by
    intro command hcommand
    obtain ⟨a, ha, rfl⟩ := List.mem_map.mp hcommand
    exact hadm a ha
  rw [haof] at hpre hbytes
  simp only [Option.getD_none, List.nil_append] at hpre hbytes
  have hresult : ∀ t, (∃ f', f.replayAfter { disk with aof := some pre } s now minimum =
      .ok (f', t)) ↔ _ := fun t ↦ replayAfter_eq_ok_iff henabled rfl s t now minimum
  constructor
  · rintro hwhole ⟨k, args, j, hcut, t, ht⟩
    have hcut' := replayLines_cutMset hcommands hcut s now
    rw [applyAll_concat, ht] at hcut'
    obtain ⟨f', hf'⟩ := (hresult _).mpr hcut'
    obtain ⟨l, -, hl⟩ := hwhole f' _ hf'
    have hmset : Admissible ⟨.mset, args⟩ := hcommands _ (List.mem_of_getElem? hcut.mset)
    have htotal : totalLength (appends.map Prod.fst) < 2 ^ 64 := by
      have hwritten := totalLength_le_written 0 (appends.map Prod.fst)
      have hmax : maxFileSize < 2 ^ 64 := by decide
      omega
    refine cutMset_not_whole hcut.mset hcut.above hcut.shorter (even_of_admissible_mset hmset)
      htotal ?_ l hl
    rw [applyAll_append, ht]
    rfl
  · intro hcut f' t hreplay
    have ht := (hresult t).mp ⟨f', hreplay⟩
    obtain ⟨k, tail, hcutAt⟩ := exists_cutAt hpre
    obtain ⟨applied, houtcome, hlines⟩ := replayLines_cut (S := S) hcommands hcutAt minimum
    rw [hlines] at ht
    have hwhole : ∀ l ≤ appends.length,
        (applyAll now (kept minimum (appends.map Prod.fst) l) s).toOption = some t →
          ∃ k ≤ appends.length, applyAll now (kept minimum (appends.map Prod.fst) k) s = .ok t := by
      intro l hl hok
      refine ⟨l, hl, ?_⟩
      cases happly : applyAll now (kept minimum (appends.map Prod.fst) l) s with
      | error e => simp [happly, Except.toOption] at hok
      | ok u => simpa [happly, Except.toOption] using hok
    have hle : k ≤ appends.length := by simpa using hcutAt.le_length
    cases houtcome with
    | between htail => exact hwhole k hle ht
    | skipped htail hskip => exact hwhole k hle ht
    | refused htail hskip herror => simp at ht
    | unended command hcommand habove hdecode =>
        refine hwhole (k + 1) ?_ ht
        simpa using (List.getElem?_eq_some_iff.mp hcommand).1
    | shortened args j hmset hdecode =>
        rw [Option.bind_some, applyAll_concat] at ht
        refine absurd ⟨k, args, j, hmset, ?_⟩ hcut
        cases happly : applyAll now (kept minimum (appends.map Prod.fst) k) s with
        | error e => simp [happly, Except.toOption] at ht
        | ok u => exact ⟨u, rfl⟩
    | unreplayable args hcommand => simp at ht

/-- `MSET a 1 b 2`, the one command of the two theorems below. -/
def twoPairs : Command := ⟨.mset, [ascii "a", ascii "1", ascii "b", ascii "2"]⟩

/-- The record without its newline is replayed as a whole; cut behind the first
pair it is not. -/
theorem replay_whole_commands_iff_two_pairs :
    (∀ f' t, AppendOnlyFile.replayAfter ⟨true, .never, true, true, true, 1⟩
        ⟨some (ascii "1\tMSET \"a\" \"1\" \"b\" \"2\""), none, none⟩
          ({} : StorageEngine oneShard) 0 0 = .ok (f', t) →
      ∃ k ≤ 1, applyAll 0 (kept 0 [twoPairs] k) {} = .ok t) ∧
    ¬∀ f' t, AppendOnlyFile.replayAfter ⟨true, .never, true, true, true, 1⟩
        ⟨some (ascii "1\tMSET \"a\" \"1\""), none, none⟩ ({} : StorageEngine oneShard) 0 0 =
          .ok (f', t) →
      ∃ k ≤ 1, applyAll 0 (kept 0 [twoPairs] k) {} = .ok t := by
  constructor
  · refine (replay_whole_commands_iff .never true [(twoPairs, { accepted := 100 })]
      ⟨true, .never, true, true, true, 1⟩
      ⟨some (ascii "1\tMSET \"a\" \"1\" \"b\" \"2\"\n"), none, none⟩ (by decide) (by decide)
      (ascii "1\tMSET \"a\" \"1\" \"b\" \"2\"") (by decide)
      ({} : StorageEngine oneShard) 0 0).mpr ?_
    rintro ⟨k, args, j, hcut, -⟩
    obtain ⟨blank, hblank, hpre⟩ := hcut.pre_eq
    cases k with
    | succ k => simpa using hcut.mset
    | zero =>
        obtain rfl : [ascii "a", ascii "1", ascii "b", ascii "2"] = args := by
          simpa [twoPairs] using hcut.mset
        -- fewer arguments make a shorter line, with a blank behind it or not
        have hlength := congrArg List.length hpre
        have hshort : j < 4 := hcut.shorter.2.1
        rcases List.mem_cons.mp hblank with rfl | hblank
        · interval_cases j <;> revert hlength <;> decide
        · obtain rfl := List.mem_singleton.mp hblank
          interval_cases j <;> revert hlength <;> decide
  · intro hwhole
    refine (replay_whole_commands_iff .never true [(twoPairs, { accepted := 100 })]
      ⟨true, .never, true, true, true, 1⟩
      ⟨some (ascii "1\tMSET \"a\" \"1\" \"b\" \"2\"\n"), none, none⟩ (by decide) (by decide)
      (ascii "1\tMSET \"a\" \"1\"") (by decide) ({} : StorageEngine oneShard) 0 0).mp hwhole ?_
    exact ⟨0, _, 2, ⟨rfl, by decide, ⟨by decide, by decide, Or.inl ⟨rfl, rfl⟩⟩,
      ⟨[], by decide, by decide⟩⟩, {}, rfl⟩

/-- The log of `MSET a 1 b 2` cut behind its first pair: replay succeeds, and
the store has `a` but not `b`. -/
theorem half_mset_replayed :
    appendAll ⟨true, .never, true, true, false, 0⟩ {} [(twoPairs, { accepted := 100 })] =
        some (⟨true, .never, true, true, true, 1⟩,
          ⟨some (ascii "1\tMSET \"a\" \"1\" \"b\" \"2\"\n"), none, none⟩) ∧
      ascii "1\tMSET \"a\" \"1\"" <+: ascii "1\tMSET \"a\" \"1\" \"b\" \"2\"\n" ∧
      ∃ f' t, AppendOnlyFile.replayAfter ⟨true, .never, true, true, true, 1⟩
          ⟨some (ascii "1\tMSET \"a\" \"1\""), none, none⟩ ({} : StorageEngine oneShard) 0 0 =
            .ok (f', t) ∧
        ∀ k u, applyAll 0 ([twoPairs].take k) ({} : StorageEngine oneShard) = .ok u →
          u.cells ≠ t.cells := by
  refine ⟨by decide, by decide, ?_⟩
  have hcells : (AppendOnlyFile.replayAfter ⟨true, .never, true, true, true, 1⟩
      ⟨some (ascii "1\tMSET \"a\" \"1\""), none, none⟩ ({} : StorageEngine oneShard) 0
        0).toOption.map (fun r ↦ (r.2.cells (ascii "a"), r.2.cells (ascii "b"))) =
          some (some (ascii "1", none), none) := by decide
  obtain ⟨⟨f', t⟩, hreplay, ht⟩ := Option.map_eq_some_iff.mp hcells
  obtain ⟨hta, htb⟩ := Prod.mk.inj ht
  refine ⟨f', t, ?_, ?_⟩
  · cases hresult : AppendOnlyFile.replayAfter ⟨true, .never, true, true, true, 1⟩
        ⟨some (ascii "1\tMSET \"a\" \"1\""), none, none⟩ ({} : StorageEngine oneShard) 0 0 with
    | error e => simp [hresult, Except.toOption] at hreplay
    | ok r => simpa [hresult, Except.toOption] using hreplay
  · intro k u hu hsame
    cases k with
    | zero =>
        obtain rfl := Except.ok.inj hu
        rw [← hsame] at hta
        exact absurd hta (by decide)
    | succ k =>
        rw [List.take_succ_cons, List.take_nil] at hu
        obtain rfl := Except.ok.inj hu
        rw [← hsame] at htb
        exact absurd htb (by decide)

end ByteCacheDB
