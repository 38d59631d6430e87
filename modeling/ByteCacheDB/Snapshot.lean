import ByteCacheDB.Replay

/-!
# Snapshots read back

A successful `save_snapshot` leaves a header line and one or two commands for
every unexpired entry.  Loading them replays these commands; since no key is
listed twice, every cell of the loaded engine comes from its own entry.
-/

namespace ByteCacheDB

open CommandParser Lines Numerals StorageEngine AppendOnlyFile

/-! ## The header -/

theorem extractWord_space (word rest : Bytes) (hne : word ≠ [])
    (hword : word.all (fun c ↦ !isspace c) = true) :
    extractWord (word ++ space :: rest) = some (word, space :: rest) := by
  have hspace : isspace space = true := by decide
  have hall : ∀ c ∈ word, isspace c = false := by simpa using hword
  have hdrop : (word ++ space :: rest).dropWhile isspace = word ++ space :: rest := by
    cases word with
    | nil => exact absurd rfl hne
    | cons c cs => simp [hall c (by simp)]
  have htake : (word ++ space :: rest).takeWhile (fun c ↦ !isspace c) = word := by
    rw [List.takeWhile_append_of_pos (by simpa using hall)]
    simp [hspace]
  have hrest : (word ++ space :: rest).dropWhile (fun c ↦ !isspace c) = space :: rest := by
    rw [List.dropWhile_append_of_pos (by simpa using hall)]
    simp [hspace]
  simp only [extractWord, hdrop, htake, hrest, hne, if_false]

theorem extractNumeral_printNat (n : ℕ) (rest : Bytes)
    (hrest : ∀ b, rest.head? = some b → isDigit b = false) :
    extractNumeral (space :: (printNat n ++ rest)) = some (false, n, rest) := by
  obtain ⟨htake, hdrop⟩ := takeWhile_isDigit_append (printNat n) rest
    (fun b ↦ isDigit_of_mem_printNat) hrest
  have hspace : isspace space = true := by decide
  obtain ⟨b, bs, hp, hb⟩ := exists_cons_printNat n
  have hbspace := isspace_of_isDigit hb
  have hplus : b ≠ 43 := by
    rintro rfl
    exact absurd hb (by decide)
  have hminus : b ≠ minusSign := by
    rintro rfl
    exact absurd hb (by decide)
  have hbody : (space :: (printNat n ++ rest)).dropWhile isspace = printNat n ++ rest := by
    simp [hspace, hp, hbspace]
  have hsign : signOf (printNat n ++ rest) = (false, printNat n ++ rest) := by
    simp [hp, signOf, hminus]
  have hhead : (printNat n ++ rest).head? ≠ some 43 := by simp [hp, hplus]
  simp only [extractNumeral, hbody, if_neg hhead, hsign, htake, hdrop, printNat_ne_nil, if_false,
    readNat_printNat]

theorem parseHeader_snapshotHeader (sequence : UInt64) :
    parseHeader (snapshotHeader sequence) = some sequence := by
  have hsplit : snapshotHeader sequence =
      snapshotMagic ++ space :: (printNat 1 ++ space :: (printNat sequence.toNat ++ [])) := by
    have hone : ascii " 1 " = space :: (printNat 1 ++ [space]) := by decide
    simp [snapshotHeader, hone, toStringU64]
  have hversion : extractNumeral (space :: (printNat 1 ++ space ::
      (printNat sequence.toNat ++ []))) =
        some (false, 1, space :: (printNat sequence.toNat ++ [])) := by
    apply extractNumeral_printNat
    rintro b ⟨⟩
    decide
  have hnumber := extractNumeral_printNat sequence.toNat [] (by simp)
  have hlt := sequence.toNat_lt
  rw [parseHeader, hsplit, extractWord_space _ _ (by decide) (by decide)]
  simp only [Option.bind_eq_bind, Option.bind_some, extractInt, hversion]
  simp only [signed, Bool.false_eq_true, if_false, extractU64, Option.bind_eq_bind]
  rw [if_pos (by norm_num), Option.bind_some, hnumber]
  simp only [Option.bind_some, if_pos hlt]
  simp

theorem newline_notMem_snapshotHeader (sequence : UInt64) :
    newline ∉ snapshotHeader sequence := by
  intro h
  rcases List.mem_append.mp h with hfixed | hdigit
  · exact absurd hfixed (by decide)
  · exact (ne_of_isDigit (isDigit_of_mem_printNat hdigit)).2 rfl

/-! ## What a save leaves on disk -/

theorem writeAll_ok {accepted : ℕ} {strerror file data : Bytes}
    (h : (writeAll accepted strerror file data).1 = .ok ()) :
    writeAll accepted strerror file data = (.ok (), file ++ data) := by
  unfold writeAll at h ⊢
  dsimp only at h ⊢
  split at h
  · rename_i hroom
    rw [if_pos hroom, List.take_of_length_le hroom]
  · simp at h

theorem writePieces_ok {accepted : ℕ → ℕ} {strerror : Bytes} {i : ℕ} {file : Bytes}
    {pieces : List Bytes} (h : (writePieces accepted strerror i file pieces).1 = .ok ()) :
    (writePieces accepted strerror i file pieces).2 = file ++ pieces.flatten := by
  induction pieces generalizing i file with
  | nil => simp [writePieces]
  | cons piece rest ih =>
      cases hw : writeAll (accepted i) strerror file piece with
      | mk result written =>
          cases result with
          | error e => simp [writePieces, hw] at h
          | ok u =>
              have hwritten := writeAll_ok (show (writeAll _ _ _ _).1 = .ok () by rw [hw])
              rw [hw] at hwritten
              obtain ⟨-, rfl⟩ := Prod.mk.inj hwritten
              simp only [writePieces, hw] at h ⊢
              rw [ih h, List.flatten_cons, List.append_assoc]

/-- The content of a complete snapshot file. -/
def snapshotFile (sequence : UInt64) (entries : List SnapshotEntry) : Bytes :=
  unlines newline (snapshotHeader sequence :: (entries.flatMap entryCommands).map serialize)

theorem flatten_snapshotPieces (sequence : UInt64) (entries : List SnapshotEntry) :
    (snapshotPieces sequence entries).flatten = snapshotFile sequence entries := by
  simp [snapshotPieces, snapshotFile, unlines, List.flatMap_def, Function.comp_def]

section
variable {S : Sharding}

/-- A save that reports success has replaced the snapshot and nothing else. -/
theorem saveSnapshot_ok {f : AppendOnlyFile} {disk : Disk} {s : StorageEngine S}
    {now : TimePoint} {o : SaveOutcome} (h : (f.saveSnapshot disk s now o).1 = .ok ()) :
    (f.saveSnapshot disk s now o).2 =
      { disk with
        snapshot := some (snapshotFile f.sequence (s.snapshotEntries now))
        temporary := none } := by
  unfold saveSnapshot at h ⊢
  split at h
  · simp at h
  split at h
  · simp at h
  split at h
  · simp at h
  rename_i hpath hprepared hopened
  rw [if_neg hpath, if_neg hprepared, if_neg hopened]
  dsimp only at h ⊢
  cases hw : (writePieces o.accepted o.reason 0 []
      (snapshotPieces f.sequence (s.snapshotEntries now))).1 with
  | error e => simp [hw, finishSnapshot, bind, Except.bind] at h
  | ok u =>
      rw [writePieces_ok hw, flatten_snapshotPieces, List.nil_append]
      rw [hw] at h
      split at h
      · simp at h
      · by_cases hrenamed : o.renamed = true
        · simp [hrenamed]
        · simp [hrenamed] at h

theorem hasSnapshotPath_of_saveSnapshot {f : AppendOnlyFile} {disk : Disk} {s : StorageEngine S}
    {now : TimePoint} {o : SaveOutcome} (h : (f.saveSnapshot disk s now o).1 = .ok ()) :
    f.hasSnapshotPath = true := by
  by_contra hpath
  rw [saveSnapshot, if_pos (by simpa using hpath)] at h
  simp at h

/-- A save that reports failure has not touched the snapshot or the log. -/
theorem saveSnapshot_error {f : AppendOnlyFile} {disk : Disk} {s : StorageEngine S}
    {now : TimePoint} {o : SaveOutcome} {e : Bytes}
    (h : (f.saveSnapshot disk s now o).1 = .error e) :
    (f.saveSnapshot disk s now o).2.snapshot = disk.snapshot ∧
      (f.saveSnapshot disk s now o).2.aof = disk.aof := by
  unfold saveSnapshot at h ⊢
  split
  · exact ⟨rfl, rfl⟩
  split
  · exact ⟨rfl, rfl⟩
  split
  · exact ⟨rfl, rfl⟩
  rename_i hpath hprepared hopened
  rw [if_neg hpath, if_neg hprepared, if_neg hopened] at h
  dsimp only at h ⊢
  split
  · exact ⟨rfl, rfl⟩
  · rename_i hfinish
    rw [hfinish] at h
    by_cases hrenamed : o.renamed = true
    · simp [hrenamed] at h
    · simp [hrenamed]

/-! ## Loading -/

theorem admissible_entryCommands {entry : SnapshotEntry} {command : Command}
    (h : command ∈ entryCommands entry) :
    Admissible command ∧ (command.type = .set ∨ command.type = .expireat) := by
  unfold entryCommands at h
  rcases List.mem_cons.mp h with rfl | h
  · exact ⟨⟨by simp, rfl⟩, Or.inl rfl⟩
  · split at h
    · simp at h
    · rw [List.mem_singleton] at h
      subst h
      exact ⟨⟨by simp, rfl⟩, Or.inr rfl⟩

theorem loadLines_serialize (now : TimePoint) (n : ℕ) (s : StorageEngine S)
    (commands : List Command) (hcommands : ∀ command ∈ commands,
      Admissible command ∧ (command.type = .set ∨ command.type = .expireat)) :
    (loadLines now n s (commands.map serialize)).toOption =
      (applyAll now commands s).toOption := by
  induction commands generalizing n s with
  | nil => rfl
  | cons command rest ih =>
      obtain ⟨hadm, htype⟩ := hcommands command (by simp)
      have hskip : ¬(command.type ≠ .set ∧ command.type ≠ .expireat) := by
        rintro ⟨hset, hexpire⟩
        exact htype.elim hset hexpire
      simp only [List.map_cons, loadLines, parse_serialize hadm, if_neg hskip, applyAll,
        List.foldlM_cons]
      cases applyReplayCommand s now command with
      | error e => rfl
      | ok s' => exact ih _ _ fun c hc ↦ hcommands c (by simp [hc])

theorem getlines_snapshotFile (sequence : UInt64) (entries : List SnapshotEntry) :
    getlines newline (snapshotFile sequence entries) =
      snapshotHeader sequence :: (entries.flatMap entryCommands).map serialize := by
  apply getlines_unlines
  intro line hline
  rcases List.mem_cons.mp hline with rfl | hline
  · exact newline_notMem_snapshotHeader sequence
  · obtain ⟨command, -, rfl⟩ := List.mem_map.mp hline
    exact newline_notMem_serialize command

/-- Loading a complete snapshot reports its number and replays its commands. -/
theorem loadSnapshot_snapshotFile {f : AppendOnlyFile} (disk : Disk) (s : StorageEngine S)
    (now : TimePoint) {sequence : UInt64} {entries : List SnapshotEntry}
    (hpath : f.hasSnapshotPath = true)
    (hfile : disk.snapshot = some (snapshotFile sequence entries)) :
    (f.loadSnapshot disk s now).toOption =
      (applyAll now (entries.flatMap entryCommands) s).toOption.map fun s' ↦ (sequence, s') := by
  have hload := loadLines_serialize now 1 s (entries.flatMap entryCommands) (by
    intro command hcommand
    obtain ⟨entry, -, hmem⟩ := List.mem_flatMap.mp hcommand
    exact admissible_entryCommands hmem)
  rw [loadSnapshot, hfile]
  simp only [hpath, Bool.not_true, Bool.false_eq_true, if_false, getlines_snapshotFile,
    parseHeader_snapshotHeader]
  rw [← hload]
  cases loadLines now 1 s ((entries.flatMap entryCommands).map serialize) <;> rfl

/-! ## Entries and cells -/

/-- The cell that the commands of an entry build at time `now`. -/
def entryCell (now : TimePoint) (entry : SnapshotEntry) : Cell :=
  match entry.expiresAt with
  | none => some (entry.value, none)
  | some expiresAt => Cell.expireAt now (truncMillis expiresAt) (some (entry.value, none))

theorem replayAll_entryCommands (now : TimePoint) (entry : SnapshotEntry) (m : Store) :
    m.replayAll now (entryCommands entry) =
      .ok fun key ↦ if key = entry.key then entryCell now entry else m key := by
  obtain ⟨key, value, deadline⟩ := entry
  cases deadline with
  | none => rfl
  | some expiresAt =>
      simp only [Store.replayAll, entryCommands, List.foldlM_cons, List.foldlM_nil, Store.replay,
        Command.replayError, Command.onCell, Command.onKey, Command.arg, List.getD_cons_zero,
        List.getD_cons_succ, stoll_toStringI64, bind, Except.bind, pure, Except.pure,
        Except.ok.injEq]
      funext k
      by_cases hk : k = key
      · simp [hk, entryCell, truncMillis]
      · simp [hk]

/-- Without repeated keys every entry decides its own cell. -/
theorem replayAll_entries (now : TimePoint) (entries : List SnapshotEntry) (m : Store)
    (hnodup : (entries.map SnapshotEntry.key).Nodup) :
    ∃ m', m.replayAll now (entries.flatMap entryCommands) = .ok m' ∧
      (∀ e ∈ entries, m' e.key = entryCell now e) ∧
      ∀ key, (∀ e ∈ entries, e.key ≠ key) → m' key = m key := by
  induction entries generalizing m with
  | nil => exact ⟨m, rfl, by simp, fun key _ ↦ rfl⟩
  | cons e es ih =>
      rw [List.map_cons, List.nodup_cons] at hnodup
      obtain ⟨m', hreplay, hmem, hother⟩ :=
        ih (fun key ↦ if key = e.key then entryCell now e else m key) hnodup.2
      refine ⟨m', ?_, ?_, ?_⟩
      · have hhead := replayAll_entryCommands now e m
        rw [Store.replayAll] at hreplay hhead ⊢
        rw [List.flatMap_cons, List.foldlM_append, hhead]
        exact hreplay
      · intro x hx
        rcases List.mem_cons.mp hx with rfl | hx
        · rw [hother x.key fun y hy heq ↦ hnodup.1 (heq ▸ List.mem_map_of_mem hy), if_pos rfl]
        · exact hmem x hx
      · intro key hkey
        rw [hother key fun y hy ↦ hkey y (by simp [hy]),
          if_neg fun h ↦ hkey e (by simp) h.symm]

/-- What is left of a saved cell when its snapshot is loaded at time `now`. -/
def Cell.reloaded (now : TimePoint) : Cell → Cell
  | some (value, some deadline) =>
      if now < truncMillis deadline then some (value, some (truncMillis deadline)) else none
  | some (value, none) => some (value, none)
  | none => none

theorem entryCell_eq_reloaded (now : TimePoint) (e : SnapshotEntry) :
    entryCell now e = Cell.reloaded now (some (e.value, e.expiresAt)) := by
  cases hd : e.expiresAt with
  | none => simp [entryCell, hd, Cell.reloaded]
  | some deadline =>
      simp only [entryCell, hd, Cell.reloaded, Cell.expireAt, Cell.live_some_none,
        Option.bind_some]
      by_cases hle : truncMillis deadline ≤ now
      · rw [if_pos hle, if_neg (Int64.not_lt.mpr hle)]
      · rw [if_neg hle, if_pos (Int64.not_le.mp hle)]

/-- A cell that had expired when the snapshot was taken would not survive the
loading either. -/
theorem reloaded_of_live_eq_none {t now : Instant} (h : t.1 ≤ now.1) {c : Cell}
    (hc : c.live t.1 = none) : c.reloaded now.1 = none := by
  match c with
  | none => rfl
  | some (value, none) => simp at hc
  | some (value, some deadline) =>
      have hle : deadline ≤ t.1 := by
        by_contra hlt
        simp [Cell.live_of_lt value (Int64.not_le.mp hlt)] at hc
      have htrunc := truncMillis_le_of_le now.2 (Int64.le_trans hle h)
      rw [Cell.reloaded, if_neg (Int64.not_lt.mpr htrunc)]

/-- The commands of a snapshot rebuild, cell by cell, what is left of the store. -/
theorem replayAll_snapshotEntries {t t' : Instant} (htime : t.1 ≤ t'.1) (s : StorageEngine S) :
    Store.replayAll t'.1 ((s.snapshotEntries t.1).flatMap entryCommands) (fun _ ↦ none) =
      .ok fun key ↦ (s.cells key).reloaded t'.1 := by
  obtain ⟨m', hreplay, hmem, hother⟩ := replayAll_entries t'.1 (s.snapshotEntries t.1)
    (fun _ ↦ none) (nodup_snapshotEntries s t.1)
  rw [hreplay, Except.ok.injEq]
  funext key
  cases hlive : (s.cells key).live t.1 with
  | none =>
      rw [reloaded_of_live_eq_none htime hlive]
      apply hother
      rintro e he rfl
      simp [mem_snapshotEntries.mp he] at hlive
  | some c =>
      have hentry : (⟨key, c.1, c.2⟩ : SnapshotEntry) ∈ s.snapshotEntries t.1 :=
        mem_snapshotEntries.mpr hlive
      have hself : s.cells key = some c := by
        rcases Cell.live_eq_self_or_none t.1 (s.cells key) with hsame | hnone
        · rw [← hsame, hlive]
        · rw [hnone] at hlive
          simp at hlive
      rw [hmem _ hentry, entryCell_eq_reloaded, hself]

end

theorem loading_empty {S : Sharding} : Loading 0 true ({} : StorageEngine S) :=
  ⟨rfl, rfl, Or.inr rfl, rfl, by simp [drift]⟩

/-- A snapshot saved at `t` and loaded at a later `t'` gives back its sequence
number, every key without a deadline, and the keys whose deadline in whole
milliseconds is still ahead, with that deadline. -/
theorem loadSnapshot_saveSnapshot {S : Sharding} (S' : Sharding) (f g : AppendOnlyFile)
    (disk : Disk)
    (s : StorageEngine S) (t t' : Instant) (o : SaveOutcome) (htime : t.1 ≤ t'.1)
    (hpath : g.hasSnapshotPath = true) (hsave : (f.saveSnapshot disk s t.1 o).1 = .ok ()) :
    ∃ loaded : StorageEngine S',
      g.loadSnapshot (f.saveSnapshot disk s t.1 o).2 {} t'.1 = .ok (f.sequence, loaded) ∧
        ∀ key, loaded.cells key =
          match s.cells key with
          | some (value, some deadline) =>
              if t'.1 < truncMillis deadline then some (value, some (truncMillis deadline))
              else none
          | some (value, none) => some (value, none)
          | none => none := by
  have hload := loadSnapshot_snapshotFile (f.saveSnapshot disk s t.1 o).2
    ({} : StorageEngine S') t'.1 hpath (by rw [saveSnapshot_ok hsave])
  have hreplay : ({} : StorageEngine S').cells.replayAll t'.1
      ((s.snapshotEntries t.1).flatMap entryCommands) =
        .ok fun key ↦ (s.cells key).reloaded t'.1 := replayAll_snapshotEntries htime s
  rcases applyAll_refines loading_empty t'.1 ((s.snapshotEntries t.1).flatMap entryCommands) with
    ⟨e, -, hstore⟩ | ⟨loaded, happly, -, hstore⟩
  · rw [hstore] at hreplay
    simp at hreplay
  rw [hstore, Except.ok.injEq] at hreplay
  refine ⟨loaded, ?_, congrFun hreplay⟩
  rw [happly] at hload
  cases hresult : g.loadSnapshot (f.saveSnapshot disk s t.1 o).2 ({} : StorageEngine S') t'.1 with
  | error e => simp [hresult, Except.toOption] at hload
  | ok r =>
      simp only [hresult, Except.toOption, Option.map_some, Option.some.injEq] at hload
      rw [hload]

/-- One key stays; the deadline of the other lies between the two readings. -/
theorem loadSnapshot_saveSnapshot_two_keys :
    ∃ loaded : StorageEngine oneShard,
      AppendOnlyFile.loadSnapshot ⟨true, .always, true, true, false, 5⟩
        (AppendOnlyFile.saveSnapshot ⟨true, .always, true, true, false, 5⟩ {}
          (((({} : StorageEngine oneShard).set 0 (ascii "a") (ascii "1")).set 0 (ascii "b")
            (ascii "2")).expireAt 0 (ascii "b") 1000000).2 0 {}).2 {} 2000000 =
          .ok (5, loaded) ∧
        loaded.cells (ascii "a") = some (ascii "1", none) ∧
        loaded.cells (ascii "b") = none := by
  obtain ⟨loaded, hload, hcells⟩ := loadSnapshot_saveSnapshot oneShard
    ⟨true, .always, true, true, false, 5⟩ ⟨true, .always, true, true, false, 5⟩ {}
    (((({} : StorageEngine oneShard).set 0 (ascii "a") (ascii "1")).set 0 (ascii "b")
      (ascii "2")).expireAt 0 (ascii "b") 1000000).2 ⟨0, by decide⟩ ⟨2000000, by decide⟩ {}
    (by decide) rfl (by decide)
  refine ⟨loaded, hload, ?_, ?_⟩
  · rw [hcells]
    decide
  · rw [hcells]
    decide

end ByteCacheDB
