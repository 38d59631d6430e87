import ByteCacheDB.Snapshot

/-!
# Recovery from files in good order

When the snapshot is absent or complete and the log consists of whole records,
`recover` loads the snapshot, applies the commands of the records above the
snapshot's number, in order, and ends with eviction switched on again.
-/

namespace ByteCacheDB

open CommandParser Lines StorageEngine AppendOnlyFile

/-- The snapshot file stands for the number `header`: zero when there is none. -/
def HasHeader (f : AppendOnlyFile) (disk : Disk) (header : UInt64) : Prop :=
  ((f.hasSnapshotPath = false ∨ disk.snapshot = none) ∧ header = 0) ∨
    (f.hasSnapshotPath = true ∧
      ∃ entries, disk.snapshot = some (snapshotFile header entries))

/-- The log consists of whole records of admissible commands. -/
structure HasRecords (disk : Disk) (records : List (UInt64 × Command)) : Prop where
  aof : disk.aof.getD [] = written records
  admissible : ∀ r ∈ records, Admissible r.2

/-! ## Numbered records -/

/-- The records that a log at number `n` writes for a list of commands. -/
def numbered (n : UInt64) : List Command → List (UInt64 × Command)
  | [] => []
  | command :: rest => (n + 1, command) :: numbered (n + 1) rest

theorem map_snd_numbered (n : UInt64) (commands : List Command) :
    (numbered n commands).map Prod.snd = commands := by
  induction commands generalizing n with
  | nil => rfl
  | cons command rest ih => rw [numbered, List.map_cons, ih]

theorem length_numbered (n : UInt64) (commands : List Command) :
    (numbered n commands).length = commands.length := by
  rw [← List.length_map Prod.snd, map_snd_numbered]

theorem take_numbered (n : UInt64) (commands : List Command) (k : ℕ) :
    (numbered n commands).take k = numbered n (commands.take k) := by
  induction commands generalizing n k with
  | nil => simp [numbered]
  | cons command rest ih =>
      cases k with
      | zero => rfl
      | succ k => simp [numbered, ih]

theorem getElem?_numbered (n : UInt64) (commands : List Command) (k : ℕ) :
    (numbered n commands)[k]? =
      commands[k]?.map fun command ↦ (n + UInt64.ofNat (k + 1), command) := by
  induction commands generalizing n k with
  | nil => simp [numbered]
  | cons command rest ih =>
      cases k with
      | zero => simp [numbered]
      | succ k =>
          have hsum : n + 1 + UInt64.ofNat (k + 1) = n + UInt64.ofNat (k + 1 + 1) := by
            rw [UInt64.ofNat_add (k + 1) 1]
            grind
          simp only [numbered, List.getElem?_cons_succ, ih, hsum]

/-- Among records numbered from `n` on, those above the number `k` are the ones
behind the first `k - n`. -/
theorem effective_numbered {n k : ℕ} {commands : List Command}
    (hsmall : n + commands.length < 2 ^ 64) (hk : k < 2 ^ 64) :
    effective (UInt64.ofNat k) (numbered (UInt64.ofNat n) commands) = commands.drop (k - n) := by
  induction commands generalizing n with
  | nil => simp [effective, numbered]
  | cons command rest ih =>
      rw [List.length_cons] at hsmall
      have hnumber : UInt64.ofNat n + 1 = UInt64.ofNat (n + 1) := (UInt64.ofNat_add n 1).symm
      have hrest : effective (UInt64.ofNat k) (numbered (UInt64.ofNat (n + 1)) rest) =
          rest.drop (k - (n + 1)) := ih (by omega)
      have habove : UInt64.ofNat k < UInt64.ofNat (n + 1) ↔ k < n + 1 := by
        rw [UInt64.lt_iff_toNat_lt, UInt64.toNat_ofNat_of_lt' hk,
          UInt64.toNat_ofNat_of_lt' (by rw [UInt64.size]; omega)]
      rw [numbered, hnumber]
      by_cases hlt : k < n + 1
      · have hzero : k - n = 0 ∧ k - (n + 1) = 0 := by omega
        rw [hzero.2, List.drop_zero] at hrest
        rw [hzero.1, List.drop_zero, effective,
          List.filter_cons_of_pos (by simpa only [decide_eq_true_eq] using habove.mpr hlt),
          List.map_cons, ← effective, hrest]
      · have hsucc : k - n = k - (n + 1) + 1 := by omega
        rw [hsucc, List.drop_succ_cons, ← hrest, effective,
          List.filter_cons_of_neg (by simpa only [decide_eq_true_eq] using mt habove.mp hlt),
          ← effective]

section
variable {S : Sharding}

theorem header_of_loadSnapshot {f : AppendOnlyFile} {disk : Disk} {header : UInt64}
    (h : HasHeader f disk header) {s : StorageEngine S} {now : TimePoint}
    {r : UInt64 × StorageEngine S} (hload : f.loadSnapshot disk s now = .ok r) :
    r.1 = header := by
  rcases h with ⟨hnone, rfl⟩ | ⟨hpath, entries, hfile⟩
  · rcases hnone with hpath | hfile
    · simp only [loadSnapshot, hpath, Bool.not_false, if_true, Except.ok.injEq] at hload
      rw [← hload]
    · simp only [loadSnapshot, hfile, ite_self, Except.ok.injEq] at hload
      rw [← hload]
  · have hsnapshot := loadSnapshot_snapshotFile disk s now hpath hfile
    rw [hload] at hsnapshot
    obtain ⟨s', -, hr⟩ := Option.map_eq_some_iff.mp hsnapshot.symm
    rw [← hr]

theorem toOption_replayAfter {f : AppendOnlyFile} (henabled : f.enabled = true) (disk : Disk)
    {file : Bytes} (hfile : disk.aof = some file) (s : StorageEngine S) (now : TimePoint)
    (minimum : UInt64) :
    (f.replayAfter disk s now minimum).toOption.map Prod.snd =
      (replayLines now minimum 0 minimum s (getlines newline file)).toOption.map Prod.snd := by
  rw [replayAfter, if_neg (by simp [henabled]), hfile]
  dsimp only
  cases replayLines now minimum 0 minimum s (getlines newline file) <;> rfl

/-- The two stages of a recovery. -/
theorem toOption_recover (f : AppendOnlyFile) (disk : Disk) (s : StorageEngine S)
    (now : TimePoint) :
    (f.recover disk s now).toOption.map Prod.snd =
      (f.loadSnapshot disk (s.setEvictionEnabled false) now).toOption.bind fun r ↦
        ((({ f with sequence := r.1 } : AppendOnlyFile).replayAfter disk r.2 now
          r.1).toOption.map Prod.snd).map fun s' ↦
            (s'.setEvictionEnabled true).takeEvictedKeys.2 := by
  simp only [recover]
  cases f.loadSnapshot disk (s.setEvictionEnabled false) now with
  | error e => rfl
  | ok r =>
      simp only [bind, Except.bind, Except.toOption, Option.bind_some]
      cases ({ f with sequence := r.1 } : AppendOnlyFile).replayAfter disk r.2 now r.1 <;> rfl

theorem replayAfter_records {f : AppendOnlyFile} (henabled : f.enabled = true) {disk : Disk}
    {records : List (UInt64 × Command)} (h : HasRecords disk records) (s : StorageEngine S)
    (now : TimePoint) :
    (f.replayAfter disk s now f.sequence).toOption =
      (applyAll now (effective f.sequence records) s).toOption.map
        fun s' ↦ ({ f with sequence := maxSequence f.sequence records }, s') := by
  have hlines := replayLines_records now f.sequence 0 f.sequence s records h.admissible
  rw [replayAfter, if_neg (by simp [henabled])]
  cases hdisk : disk.aof with
  | none =>
      have hnil : records = [] := by
        have hwritten := h.aof
        rw [hdisk] at hwritten
        cases records with
        | nil => rfl
        | cons r rest => simp [written, record] at hwritten
      subst hnil
      rfl
  | some file =>
      have hfile : file = written records := by simpa [hdisk] using h.aof
      rw [← getlines_written, ← hfile] at hlines
      dsimp only
      cases hreplay : replayLines now f.sequence 0 f.sequence s (getlines newline file) with
      | error e =>
          rw [hreplay] at hlines
          obtain hnone := Option.map_eq_none_iff.mp hlines.symm
          rw [hnone]
          rfl
      | ok r =>
          rw [hreplay] at hlines
          obtain ⟨s', hs', hr⟩ := Option.map_eq_some_iff.mp hlines.symm
          rw [hs', ← hr]
          rfl

/-- What `recover` does with files in good order. -/
theorem recover_files {f : AppendOnlyFile} (henabled : f.enabled = true) {disk : Disk}
    {header : UInt64} (hheader : HasHeader f disk header) {records : List (UInt64 × Command)}
    (hrecords : HasRecords disk records) (s : StorageEngine S) (now : TimePoint) :
    (f.recover disk s now).toOption =
      ((f.loadSnapshot disk (s.setEvictionEnabled false) now).toOption.bind fun r ↦
          (applyAll now (effective header records) r.2).toOption).map fun s' ↦
        ({ f with sequence := maxSequence header records },
          (s'.setEvictionEnabled true).takeEvictedKeys.2) := by
  simp only [recover]
  cases hload : f.loadSnapshot disk (s.setEvictionEnabled false) now with
  | error e => rfl
  | ok r =>
      have hnumber := header_of_loadSnapshot hheader hload
      obtain ⟨number, loaded⟩ := r
      dsimp only at hnumber
      subst hnumber
      have hreplay := replayAfter_records (f := { f with sequence := number }) henabled hrecords
        loaded now
      dsimp only at hreplay
      simp only [bind, Except.bind]
      cases hafter : replayAfter { f with sequence := number } disk loaded now number with
      | error e =>
          rw [hafter] at hreplay
          have hnone := Option.map_eq_none_iff.mp hreplay.symm
          simp only [Except.toOption, Option.bind_some] at hnone ⊢
          rw [hnone]
          rfl
      | ok p =>
          rw [hafter] at hreplay
          obtain ⟨s', hs', hp⟩ := Option.map_eq_some_iff.mp hreplay.symm
          simp only [Except.toOption, Option.bind_some] at hs' ⊢
          rw [hs', ← hp]
          rfl

/-- Recovery changes nothing of the log object but its number. -/
theorem log_of_recover {f g : AppendOnlyFile} {disk : Disk} {s t : StorageEngine S}
    {now : TimePoint} (h : f.recover disk s now = .ok (g, t)) :
    ∃ n, g = { f with sequence := n } := by
  simp only [recover] at h
  cases hload : f.loadSnapshot disk (s.setEvictionEnabled false) now with
  | error e => simp [hload, bind, Except.bind] at h
  | ok r =>
      simp only [hload, bind, Except.bind] at h
      cases hreplay : replayAfter { f with sequence := r.1 } disk r.2 now r.1 with
      | error e => simp [hreplay] at h
      | ok p =>
          rw [hreplay] at h
          obtain ⟨rfl, -⟩ := Prod.mk.inj (Except.ok.inj h)
          unfold replayAfter at hreplay
          split at hreplay
          · rw [← Except.ok.inj hreplay]
            exact ⟨r.1, rfl⟩
          · split at hreplay
            · rw [← Except.ok.inj hreplay]
              exact ⟨r.1, rfl⟩
            · split at hreplay
              · simp at hreplay
              · rw [← Except.ok.inj hreplay]
                exact ⟨_, rfl⟩

theorem open_keeps_files (f : AppendOnlyFile) (disk : Disk) (o : OpenOutcome) :
    (f.open disk o).2.1.enabled = f.enabled ∧
      (f.open disk o).2.2.aof.getD [] = disk.aof.getD [] := by
  unfold AppendOnlyFile.open
  repeat' split
  all_goals exact ⟨rfl, rfl⟩

/-- Whatever the files are, starting on them does not change the log. -/
theorem start_keeps_files {f : AppendOnlyFile} {disk : Disk} {maxKeys : UInt64}
    {now : TimePoint} {r : AppendOnlyFile × StorageEngine S × Disk}
    (h : f.start S disk maxKeys now = some r) :
    r.1.enabled = f.enabled ∧ r.2.2.aof.getD [] = disk.aof.getD [] := by
  unfold start at h
  cases hrecover : f.fresh.recover disk ({ maxKeys := maxKeys } : StorageEngine S) now with
  | error e => simp [hrecover] at h
  | ok p =>
      obtain ⟨n, hn⟩ := log_of_recover hrecover
      have hkeeps := open_keeps_files p.1 disk {}
      rw [hrecover] at h
      dsimp only at h
      cases hopen : p.1.open disk {} with
      | mk result rest =>
          rw [hopen] at h hkeeps
          cases result with
          | error e => simp at h
          | ok u =>
              obtain rfl := Option.some.inj h
              rw [hkeeps.1, hn]
              exact ⟨rfl, hkeeps.2⟩

theorem open_fresh {f : AppendOnlyFile} (henabled : f.enabled = true) (sequence : UInt64)
    (disk : Disk) :
    AppendOnlyFile.open { f.fresh with sequence := sequence } disk {} =
      (.ok (), { f.fresh with sequence := sequence, opened := true },
        { disk with aof := some (disk.aof.getD []) }) := by
  simp [AppendOnlyFile.open, fresh, henabled]

/-- A new process continues behind the largest number in its files. -/
theorem start_files {f : AppendOnlyFile} (henabled : f.enabled = true) {disk : Disk}
    {header : UInt64} (hheader : HasHeader f.fresh disk header)
    {records : List (UInt64 × Command)} (hrecords : HasRecords disk records)
    {maxKeys : UInt64} {now : TimePoint} {r : AppendOnlyFile × StorageEngine S × Disk}
    (h : f.start S disk maxKeys now = some r) :
    r.1 = { f.fresh with sequence := maxSequence header records, opened := true } ∧
      r.2.2 = { disk with aof := some (disk.aof.getD []) } := by
  unfold start at h
  have hfiles := recover_files (f := f.fresh) henabled hheader hrecords
    ({ maxKeys := maxKeys } : StorageEngine S) now
  cases hrecover : f.fresh.recover disk ({ maxKeys := maxKeys } : StorageEngine S) now with
  | error e => simp [hrecover] at h
  | ok p =>
      rw [hrecover] at hfiles
      obtain ⟨s', -, hp⟩ := Option.map_eq_some_iff.mp hfiles.symm
      rw [hrecover, ← hp] at h
      dsimp only at h
      rw [open_fresh henabled] at h
      obtain rfl := Option.some.inj h
      exact ⟨rfl, rfl⟩

end

end ByteCacheDB
