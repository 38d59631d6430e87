import ByteCacheDB.Lib.Files
import ByteCacheDB.Lib.Runs
import ByteCacheDB.Snapshot

/-!
# Saving step by step

`save_snapshot` as the sequence of its system calls, each with any result it can have.
A crash leaves the files as they are between two calls; a crash inside a write leaves
them as a write of fewer bytes would.
-/

namespace ByteCacheDB

open CommandParser AppendOnlyFile Files FileSystem Runs

/-- What a system call returns. -/
inductive SystemResult where
  | done
  | failed (reason : Bytes)
  /-- `write` has taken so many bytes -/
  | wrote (count : ℕ)
  /-- `EINTR` -/
  | interrupted

/-- The system call that `save_snapshot` makes next. -/
inductive SaveStage where
  /-- `create_directories` -/
  | preparing
  | opening
  /-- in `write_all`, with the data left of its text and the texts that follow -/
  | writing (data : Bytes) (rest : List Bytes)
  | syncing
  | closing (failure : Option Bytes)
  | removing (error : Bytes)
  /-- `rename` -/
  | publishing
  | returned (result : Except Bytes Unit)

/-- `write_all` of one text after another calls `write` as long as data is left. -/
def SaveStage.ofPieces : List Bytes → SaveStage
  | [] => .syncing
  | [] :: rest => ofPieces rest
  | (b :: data) :: rest => .writing (b :: data) rest

structure SnapshotSave (S : Sharding) where
  storage : StorageEngine S
  files : FileSystem Bytes UInt8
  stage : SaveStage

/-- The path of the temporary file. -/
def temporary (path : Bytes) : Bytes := path ++ ascii ".tmp"

theorem ne_temporary (path : Bytes) : path ≠ temporary path := by
  intro h
  have hlength := congrArg List.length h
  simp [temporary, ascii] at hlength

namespace SnapshotSave

variable {S : Sharding}

def start (path : Bytes) (storage : StorageEngine S) (files : FileSystem Bytes UInt8) :
    SnapshotSave S where
  storage := storage
  files := files
  stage :=
    if path = [] then .returned (.error (ascii "snapshot path is not configured"))
    else .preparing

def step (path : Bytes) (sequence : UInt64) (now : TimePoint) (m : SnapshotSave S)
    (r : SystemResult) : Option (SnapshotSave S) :=
  match m.stage, r with
  | .preparing, .done => some { m with stage := .opening }
  | .preparing, .failed reason =>
      some { m with
        stage := .returned (.error (ascii "failed to prepare snapshot path: " ++ reason)) }
  | .opening, .done =>
      some { m with
        files := m.files.truncate (temporary path)
        stage := .ofPieces (snapshotPieces sequence (m.storage.snapshotEntries now)) }
  | .opening, .failed reason =>
      some { m with stage := .returned (.error (ascii "failed to open snapshot: " ++ reason)) }
  | .writing data rest, .wrote count =>
      if count ≤ data.length then
        some { m with
          files := m.files.append (temporary path) (data.take count)
          stage := .ofPieces (data.drop count :: rest) }
      else none
  | .writing _ _, .interrupted => some m
  | .writing _ _, .failed reason =>
      some { m with stage := .closing (some (ascii "write failed: " ++ reason)) }
  | .syncing, .done => some { m with stage := .closing none }
  | .syncing, .failed reason =>
      some { m with stage := .closing (some (ascii "failed to sync snapshot: " ++ reason)) }
  | .closing none, .done => some { m with stage := .publishing }
  | .closing none, .failed reason =>
      some { m with stage := .removing (ascii "failed to close snapshot: " ++ reason) }
  -- the first failure is the one that is reported
  | .closing (some e), .done | .closing (some e), .failed _ => some { m with stage := .removing e }
  | .removing e, .done =>
      some { m with files := m.files.remove (temporary path), stage := .returned (.error e) }
  | .removing e, .failed _ => some { m with stage := .returned (.error e) }
  | .publishing, .done =>
      some { m with files := m.files.rename (temporary path) path, stage := .returned (.ok ()) }
  | .publishing, .failed reason =>
      some { m with stage := .returned (.error (ascii "failed to publish snapshot: " ++ reason)) }
  | _, _ => none

end SnapshotSave

/-! ## The files on the way -/

/-- Why a save fails behind the open, and what it has written until then. -/
inductive SaveFailure (pieces : List Bytes) : Bytes → Bytes → Prop
  | write {finished rest : List Bytes} {first data : Bytes} (reason : Bytes)
      (hpieces : pieces = finished ++ (first ++ data) :: rest) (hdata : data ≠ []) :
      SaveFailure pieces (finished.flatten ++ first) (ascii "write failed: " ++ reason)
  | sync (reason : Bytes) :
      SaveFailure pieces pieces.flatten (ascii "failed to sync snapshot: " ++ reason)
  | close (reason : Bytes) :
      SaveFailure pieces pieces.flatten (ascii "failed to close snapshot: " ++ reason)

/-- How a save that returns `false` leaves the temporary file. -/
inductive Refused (path : Bytes) (pieces : List Bytes) (before after : Option Bytes) : Bytes → Prop
  | unconfigured (hpath : path = []) (hsame : after = before) :
      Refused path pieces before after (ascii "snapshot path is not configured")
  | unprepared (reason : Bytes) (hpath : path ≠ []) (hsame : after = before) :
      Refused path pieces before after (ascii "failed to prepare snapshot path: " ++ reason)
  | unopened (reason : Bytes) (hpath : path ≠ []) (hsame : after = before) :
      Refused path pieces before after (ascii "failed to open snapshot: " ++ reason)
  | failed {file e : Bytes} (hpath : path ≠ []) (hfailure : SaveFailure pieces file e)
      (hafter : after = none ∨ after = some file) : Refused path pieces before after e
  | unpublished (reason : Bytes) (hpath : path ≠ []) (hafter : after = some pieces.flatten) :
      Refused path pieces before after (ascii "failed to publish snapshot: " ++ reason)

/-- What the temporary file holds at each stage before the rename. -/
inductive Underway (path : Bytes) (pieces : List Bytes) (before after : Option Bytes) :
    SaveStage → Prop
  | preparing (hpath : path ≠ []) (hsame : after = before) :
      Underway path pieces before after .preparing
  | opening (hpath : path ≠ []) (hsame : after = before) :
      Underway path pieces before after .opening
  | writing {finished rest : List Bytes} {first data : Bytes} (hpath : path ≠ [])
      (hpieces : pieces = finished ++ (first ++ data) :: rest) (hdata : data ≠ [])
      (hafter : after = some (finished.flatten ++ first)) :
      Underway path pieces before after (.writing data rest)
  | syncing (hpath : path ≠ []) (hafter : after = some pieces.flatten) :
      Underway path pieces before after .syncing
  | closing (hpath : path ≠ []) (hafter : after = some pieces.flatten) :
      Underway path pieces before after (.closing none)
  | failing {file e : Bytes} (hpath : path ≠ []) (hfailure : SaveFailure pieces file e)
      (hafter : after = some file) : Underway path pieces before after (.closing (some e))
  | removing {file e : Bytes} (hpath : path ≠ []) (hfailure : SaveFailure pieces file e)
      (hafter : after = some file) : Underway path pieces before after (.removing e)
  | publishing (hpath : path ≠ []) (hafter : after = some pieces.flatten) :
      Underway path pieces before after .publishing
  | refused {e : Bytes} (h : Refused path pieces before after e) :
      Underway path pieces before after (.returned (.error e))

theorem underway_ofPieces {path : Bytes} {pieces finished rest : List Bytes} {first data : Bytes}
    {before after : Option Bytes} (hpath : path ≠ [])
    (hpieces : pieces = finished ++ (first ++ data) :: rest)
    (hafter : after = some (finished.flatten ++ first)) :
    Underway path pieces before after (.ofPieces (data :: rest)) := by
  induction rest generalizing finished first data with
  | nil =>
      cases data with
      | nil =>
          refine .syncing hpath ?_
          simp [hafter, hpieces]
      | cons b data => exact .writing hpath hpieces (by simp) hafter
  | cons piece rest ih =>
      cases data with
      | nil =>
          rw [SaveStage.ofPieces]
          apply @ih (finished ++ [first]) [] piece
          · simp [hpieces]
          · simp [hafter]
      | cons b data => exact .writing hpath hpieces (by simp) hafter

namespace SnapshotSave

variable {S : Sharding} {path : Bytes} {sequence : UInt64} {now : TimePoint} {s : StorageEngine S}
  {files : FileSystem Bytes UInt8} {m m' : SnapshotSave S}

/-- A save of `pieces` that began with these files: nothing but the temporary file has
changed, or the whole of it has been renamed. -/
inductive Saves (path : Bytes) (pieces : List Bytes) (s : StorageEngine S)
    (files : FileSystem Bytes UInt8) (m : SnapshotSave S) : Prop
  | underway (hstorage : m.storage = s) (hother : SameBut (temporary path) files m.files)
      (hstage : Underway path pieces (files (temporary path)) (m.files (temporary path)) m.stage)
  | published (hstorage : m.storage = s) (hstage : m.stage = .returned (.ok ()))
      (hpath : path ≠ []) (hfile : m.files path = some pieces.flatten)
      (htemporary : m.files (temporary path) = none)
      (hother : ∀ p, p ≠ path → p ≠ temporary path → m.files p = files p)

theorem saves_start (path : Bytes) (pieces : List Bytes) (s : StorageEngine S)
    (files : FileSystem Bytes UInt8) : Saves path pieces s files (start path s files) := by
  refine .underway rfl (SameBut.refl _ _) ?_
  rw [start]
  dsimp only
  split
  · rename_i hpath
    exact .refused (.unconfigured hpath rfl)
  · rename_i hpath
    exact .preparing hpath rfl

theorem saves_step {r : SystemResult}
    (h : Saves path (snapshotPieces sequence (s.snapshotEntries now)) s files m)
    (hstep : m.step path sequence now r = some m') :
    Saves path (snapshotPieces sequence (s.snapshotEntries now)) s files m' := by
  obtain ⟨storage, now_files, stage⟩ := m
  cases h with
  | published _ hstage =>
      obtain rfl : stage = _ := hstage
      simp [step] at hstep
  | underway hstorage hother hunder =>
      obtain rfl : storage = s := hstorage
      dsimp only at hother hunder
      cases hunder with
      | preparing hpath hsame =>
          cases r with
          | done =>
              obtain rfl := Option.some.inj hstep
              exact .underway rfl hother (.opening hpath hsame)
          | failed reason =>
              obtain rfl := Option.some.inj hstep
              exact .underway rfl hother (.refused (.unprepared reason hpath hsame))
          | wrote | interrupted => simp [step] at hstep
      | opening hpath hsame =>
          cases r with
          | done =>
              obtain rfl := Option.some.inj hstep
              refine .underway rfl hother.truncate ?_
              dsimp only
              rw [truncate_self]
              exact @underway_ofPieces _ _ [] _ [] _ _ _ hpath rfl rfl
          | failed reason =>
              obtain rfl := Option.some.inj hstep
              exact .underway rfl hother (.refused (.unopened reason hpath hsame))
          | wrote | interrupted => simp [step] at hstep
      | @writing finished rest first data hpath hpieces hdata hafter =>
          cases r with
          | wrote count =>
              simp only [step, Option.ite_none_right_eq_some, Option.some.injEq] at hstep
              obtain ⟨-, rfl⟩ := hstep
              refine .underway rfl (hother.append _) ?_
              dsimp only
              rw [append_self, hafter]
              apply @underway_ofPieces _ _ finished _ (first ++ data.take count) _ _ _ hpath
              · rw [hpieces, List.append_assoc first, List.take_append_drop]
              · simp
          | interrupted =>
              obtain rfl := Option.some.inj hstep
              exact .underway rfl hother (.writing hpath hpieces hdata hafter)
          | failed reason =>
              obtain rfl := Option.some.inj hstep
              exact .underway rfl hother (.failing hpath (.write reason hpieces hdata) hafter)
          | done => simp [step] at hstep
      | syncing hpath hafter =>
          cases r with
          | done =>
              obtain rfl := Option.some.inj hstep
              exact .underway rfl hother (.closing hpath hafter)
          | failed reason =>
              obtain rfl := Option.some.inj hstep
              exact .underway rfl hother (.failing hpath (.sync reason) hafter)
          | wrote | interrupted => simp [step] at hstep
      | closing hpath hafter =>
          cases r with
          | done =>
              obtain rfl := Option.some.inj hstep
              exact .underway rfl hother (.publishing hpath hafter)
          | failed reason =>
              obtain rfl := Option.some.inj hstep
              exact .underway rfl hother (.removing hpath (.close reason) hafter)
          | wrote | interrupted => simp [step] at hstep
      | failing hpath hfailure hafter =>
          cases r with
          | done | failed =>
              obtain rfl := Option.some.inj hstep
              exact .underway rfl hother (.removing hpath hfailure hafter)
          | wrote | interrupted => simp [step] at hstep
      | removing hpath hfailure hafter =>
          cases r with
          | done =>
              obtain rfl := Option.some.inj hstep
              refine .underway rfl hother.remove (.refused (.failed hpath hfailure (Or.inl ?_)))
              exact remove_self _ _
          | failed reason =>
              obtain rfl := Option.some.inj hstep
              exact .underway rfl hother (.refused (.failed hpath hfailure (Or.inr hafter)))
          | wrote | interrupted => simp [step] at hstep
      | publishing hpath hafter =>
          cases r with
          | done =>
              obtain rfl := Option.some.inj hstep
              refine .published rfl rfl hpath ?_ (rename_source _ _ _) fun p hp htmp ↦ ?_
              · exact (rename_target _ (ne_temporary path)).trans hafter
              · exact (rename_of_ne _ htmp hp).trans (hother p htmp)
          | failed reason =>
              obtain rfl := Option.some.inj hstep
              exact .underway rfl hother (.refused (.unpublished reason hpath hafter))
          | wrote | interrupted => simp [step] at hstep
      | refused h => simp [step] at hstep

theorem saves_run {events : List SystemResult}
    (hrun : run (step path sequence now) (start path s files) events = some m) :
    Saves path (snapshotPieces sequence (s.snapshotEntries now)) s files m := by
  refine run_invariant (Q := fun _ _ ↦ True) (P := fun _ m ↦ Saves path _ s files m)
    (saves_start path _ s files) ?_ (along_of_forall (fun _ _ ↦ trivial) _ _) hrun
  intro _ m r m' h _ hstep
  exact saves_step h hstep

end SnapshotSave

/-- Wherever `save_snapshot` ends or the process dies, the snapshot is the old one or the
complete new one: the old one when it has returned `false`, the new one when it has
returned `true`.  Nothing changes but the snapshot and its temporary file. -/
theorem save_all_or_nothing {S : Sharding} (path : Bytes) (sequence : UInt64) (now : TimePoint)
    (s : StorageEngine S) (files : FileSystem Bytes UInt8) (events : List SystemResult)
    (m : SnapshotSave S)
    (hrun : run (SnapshotSave.step path sequence now) (.start path s files) events = some m) :
    (m.files path = files path ∨
        m.files path = some (snapshotFile sequence (s.snapshotEntries now))) ∧
      (∀ e, m.stage = .returned (.error e) → m.files path = files path) ∧
      (m.stage = .returned (.ok ()) →
        m.files path = some (snapshotFile sequence (s.snapshotEntries now))) ∧
      m.storage = s ∧
      ∀ other, other ≠ path → other ≠ temporary path → m.files other = files other := by
  rw [← flatten_snapshotPieces]
  cases SnapshotSave.saves_run hrun with
  | underway hstorage hother hstage =>
      have hold := hother path (ne_temporary path)
      refine ⟨Or.inl hold, fun _ _ ↦ hold, fun hok ↦ ?_, hstorage, fun p _ htmp ↦ hother p htmp⟩
      rw [hok] at hstage
      cases hstage
  | published hstorage hstage hpath hfile htemporary hother =>
      refine ⟨Or.inr hfile, fun e he ↦ ?_, fun _ ↦ hfile, hstorage, hother⟩
      simp [hstage] at he

/-- The first write takes ten bytes, is interrupted once and then fails; an old snapshot
and an old temporary file are there. -/
def failingSave : List SystemResult :=
  [.done, .done, .wrote 10, .interrupted, .failed (ascii "No space left on device"), .done, .done]

theorem save_all_or_nothing_no_space :
    ∃ m : SnapshotSave oneShard,
      run (SnapshotSave.step (ascii "s") 7 0)
          (.start (ascii "s") {} fun p ↦
            if p = ascii "s" then some (ascii "old")
            else if p = ascii "s.tmp" then some (ascii "stale") else none)
          failingSave = some m ∧
        m.stage = .returned (.error (ascii "write failed: No space left on device")) ∧
        m.files (ascii "s.tmp") = none ∧ m.files (ascii "s") = some (ascii "old") :=
  ⟨_, rfl, rfl, rfl, (save_all_or_nothing (ascii "s") 7 0 _ _ failingSave _ rfl).2.1 _ rfl⟩

/-! ## The save as one step -/

theorem writeAll_of_le {accepted : ℕ} {strerror file data : Bytes}
    (haccepted : data.length ≤ accepted)
    (hsize : (file ++ data).length ≤ maxFileSize) :
    writeAll accepted strerror file data = (.ok (), file ++ data) := by
  rw [List.length_append] at hsize
  have hroom : data.length ≤ min accepted (maxFileSize - file.length) := by omega
  simp only [writeAll, if_pos hroom, List.take_of_length_le hroom]

theorem writeAll_of_lt {strerror file first data : Bytes} (hdata : data ≠ [])
    (hsize : (file ++ first).length ≤ maxFileSize) :
    writeAll first.length strerror file (first ++ data) =
      (.error (ascii "write failed: " ++ strerror), file ++ first) := by
  have hpos := List.length_pos_of_ne_nil hdata
  rw [List.length_append] at hsize
  have hroom : min first.length (maxFileSize - file.length) = first.length := by omega
  have hlong : ¬(first ++ data).length ≤ first.length := by
    rw [List.length_append]
    omega
  simp only [writeAll, hroom, if_neg hlong, List.take_left]

/-- Texts that the system takes as a whole, followed by one that it does not. -/
theorem writePieces_append {accepted : ℕ → ℕ} {strerror file : Bytes} {i : ℕ}
    {finished : List Bytes} (rest : List Bytes)
    (haccepted : ∀ n < i + finished.length, accepted n = maxFileSize)
    (hsize : (file ++ finished.flatten).length ≤ maxFileSize) :
    writePieces accepted strerror i file (finished ++ rest) =
      writePieces accepted strerror (i + finished.length) (file ++ finished.flatten) rest := by
  induction finished generalizing i file with
  | nil => simp
  | cons piece finished ih =>
      rw [List.flatten_cons, ← List.append_assoc] at hsize
      have hfirst : (file ++ piece).length ≤ maxFileSize := by
        rw [List.length_append] at hsize
        omega
      have hpiece : piece.length ≤ accepted i := by
        rw [haccepted i (by simp)]
        rw [List.length_append] at hfirst
        omega
      rw [List.cons_append, writePieces, writeAll_of_le hpiece hfirst]
      dsimp only
      rw [ih (fun n hn ↦ haccepted n (by rw [List.length_cons]; omega)) hsize, List.flatten_cons,
        List.append_assoc, List.length_cons, Nat.add_right_comm, ← Nat.add_assoc]

theorem writePieces_all {pieces : List Bytes} (hsize : pieces.flatten.length ≤ maxFileSize)
    (strerror : Bytes) :
    writePieces (fun _ ↦ maxFileSize) strerror 0 [] pieces = (.ok (), pieces.flatten) := by
  have hpieces := @writePieces_append (fun _ ↦ maxFileSize) strerror [] 0 pieces [] (fun _ _ ↦ rfl)
    hsize
  rw [List.append_nil] at hpieces
  exact hpieces

/-- The outcome of a save that fails behind the open. -/
theorem SaveFailure.outcome {pieces : List Bytes} {file e : Bytes} (h : SaveFailure pieces file e)
    (hsize : pieces.flatten.length ≤ maxFileSize) (removed : Bool) :
    ∃ o : SaveOutcome, o.prepared = true ∧ o.opened = true ∧ o.removed = removed ∧
      (writePieces o.accepted o.reason 0 [] pieces).2 = file ∧
      finishSnapshot o (writePieces o.accepted o.reason 0 [] pieces).1 = .error e := by
  cases h with
  | @write finished rest first data reason hpieces hdata =>
      refine ⟨{ accepted := fun n ↦ if n < finished.length then maxFileSize else first.length
                removed := removed
                reason := reason }, rfl, rfl, rfl, ?_⟩
      have hlength := congrArg (fun pieces ↦ (List.flatten pieces).length) hpieces
      simp only [List.flatten_append, List.flatten_cons, List.length_append] at hlength
      have hfinished : ([] ++ finished.flatten).length ≤ maxFileSize := by
        rw [List.nil_append]
        omega
      have hfirst : (finished.flatten ++ first).length ≤ maxFileSize := by
        rw [List.length_append]
        omega
      dsimp only
      rw [hpieces, writePieces_append _ (fun n hn ↦ if_pos (by simpa using hn)) hfinished,
        List.nil_append, Nat.zero_add, writePieces, if_neg (lt_irrefl _),
        writeAll_of_lt hdata hfirst]
      exact ⟨rfl, rfl⟩
  | sync reason =>
      refine ⟨{ synced := false, removed := removed, reason := reason }, rfl, rfl, rfl, ?_⟩
      dsimp only
      rw [writePieces_all hsize]
      exact ⟨rfl, rfl⟩
  | close reason =>
      refine ⟨{ closed := false, removed := removed, reason := reason }, rfl, rfl, rfl, ?_⟩
      dsimp only
      rw [writePieces_all hsize]
      exact ⟨rfl, rfl⟩

/-- The three files of the server. -/
def diskOf (aof path : Bytes) (files : FileSystem Bytes UInt8) : Disk :=
  ⟨files aof, files path, files (temporary path)⟩

/-- A save that has returned is one step of `saveSnapshot`. -/
theorem saveSnapshot_of_returned {S : Sharding} {f : AppendOnlyFile} {aof path : Bytes}
    {now : TimePoint} {s : StorageEngine S} {files : FileSystem Bytes UInt8}
    {events : List SystemResult} {m : SnapshotSave S} {result : Except Bytes Unit}
    (hpath : f.hasSnapshotPath = decide (path ≠ [])) (haof : aof ≠ path)
    (htemporary : aof ≠ temporary path)
    (hsize : (snapshotFile f.sequence (s.snapshotEntries now)).length ≤ maxFileSize)
    (hrun : run (SnapshotSave.step path f.sequence now) (.start path s files) events = some m)
    (hresult : m.stage = .returned result) :
    ∃ o, f.saveSnapshot (diskOf aof path files) s now o = (result, diskOf aof path m.files) := by
  rw [← flatten_snapshotPieces] at hsize
  cases SnapshotSave.saves_run hrun with
  | underway hstorage hother hstage =>
      have hkeep : m.files aof = files aof := hother aof htemporary
      have hold : m.files path = files path := hother path (ne_temporary path)
      rw [hresult] at hstage
      cases hstage with
      | refused hrefused =>
          simp only [diskOf, hkeep, hold]
          cases hrefused with
          | unconfigured hempty hsame =>
              refine ⟨{}, ?_⟩
              rw [hsame]
              simp [saveSnapshot, hpath, hempty]
          | unprepared reason hne hsame =>
              refine ⟨{ prepared := false, reason := reason }, ?_⟩
              simp [saveSnapshot, hpath, hne, hsame]
          | unopened reason hne hsame =>
              refine ⟨{ opened := false, reason := reason }, ?_⟩
              simp [saveSnapshot, hpath, hne, hsame]
          | failed hne hfailure hafter =>
              rcases hafter with hnone | hsome
              · obtain ⟨o, hprepared, hopened, hremoved, hfile, hfinish⟩ :=
                  hfailure.outcome hsize true
                refine ⟨o, ?_⟩
                simp [saveSnapshot, hpath, hne, hprepared, hopened, hfinish, hremoved, hnone]
              · obtain ⟨o, hprepared, hopened, hremoved, hfile, hfinish⟩ :=
                  hfailure.outcome hsize false
                refine ⟨o, ?_⟩
                simp [saveSnapshot, hpath, hne, hprepared, hopened, hfinish, hremoved, hsome, hfile]
          | unpublished reason hne hafter =>
              refine ⟨{ renamed := false, reason := reason }, ?_⟩
              simp [saveSnapshot, hpath, hne, hafter, writePieces_all hsize, finishSnapshot, bind,
                Except.bind]
  | published hstorage hstage hne hfile htmp hother =>
      obtain rfl : result = .ok () := by simpa [hstage] using hresult.symm
      refine ⟨{}, ?_⟩
      simp [saveSnapshot, hpath, hne, diskOf, hfile, htmp, hother aof haof htemporary,
        writePieces_all hsize, finishSnapshot, bind, Except.bind]

end ByteCacheDB
