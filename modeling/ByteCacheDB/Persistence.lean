import ByteCacheDB.Codec
import ByteCacheDB.StorageEngine

/-!
# The append-only file and the snapshot

The three files are byte strings or absent.  What the operating system decides
(how many bytes a write takes, whether `fsync`, `close` or `rename` succeed, the
text of `strerror`) comes in as an argument.  A recovery makes all its clock
readings at one time `now`.
-/

namespace ByteCacheDB

open CommandParser Lines Numerals

inductive FsyncPolicy where
  | always
  | everySec
  | never
  deriving DecidableEq, Repr

/-- The log, the snapshot and the snapshot's temporary file. -/
structure Disk where
  aof : Option Bytes := none
  snapshot : Option Bytes := none
  temporary : Option Bytes := none
  deriving DecidableEq, Repr

structure AppendOnlyFile where
  enabled : Bool
  fsyncPolicy : FsyncPolicy := .everySec
  /-- `snapshot_path_` is not empty -/
  hasSnapshotPath : Bool := true
  /-- `fd_ >= 0` -/
  opened : Bool := false
  dirty : Bool := false
  sequence : UInt64 := 0
  deriving DecidableEq, Repr

/-- File offsets are signed 64-bit numbers, and no write goes beyond them. -/
def maxFileSize : ℕ := 2 ^ 63 - 1

/-- `write_all`: the file takes bytes until the system refuses one. -/
def writeAll (accepted : ℕ) (strerror file data : Bytes) : Except Bytes Unit × Bytes :=
  let room := min accepted (maxFileSize - file.length)
  (if data.length ≤ room then .ok () else .error (ascii "write failed: " ++ strerror),
    file ++ data.take room)

namespace AppendOnlyFile

variable {S : Sharding}

def fsyncPolicyName (f : AppendOnlyFile) : Bytes :=
  match f.fsyncPolicy with
  | .always => ascii "always"
  | .everySec => ascii "everysec"
  | .never => ascii "never"

/-! ## Appending -/

structure OpenOutcome where
  prepared : Bool := true
  opened : Bool := true
  reason : Bytes := []

def «open» (f : AppendOnlyFile) (disk : Disk) (o : OpenOutcome) :
    Except Bytes Unit × AppendOnlyFile × Disk :=
  if !f.enabled ∨ f.opened then (.ok (), f, disk)
  else if !o.prepared then (.error (ascii "failed to prepare AOF path: " ++ o.reason), f, disk)
  else if !o.opened then (.error (ascii "failed to open AOF file: " ++ o.reason), f, disk)
  else
    (.ok (), { f with opened := true, dirty := false },
      { disk with aof := some (disk.aof.getD []) })

/-- What the system does with the record of one `append`. -/
structure WriteOutcome where
  accepted : ℕ
  synced : Bool := true
  strerror : Bytes := []

def syncLocked (f : AppendOnlyFile) (o : WriteOutcome) : Except Bytes Unit × AppendOnlyFile :=
  if !f.dirty then (.ok (), f)
  else if !o.synced then (.error (ascii "fsync failed: " ++ o.strerror), f)
  else (.ok (), { f with dirty := false })

def writeRecordLocked (f : AppendOnlyFile) (disk : Disk) (o : WriteOutcome) (line : Bytes) :
    Except Bytes Unit × AppendOnlyFile × Disk :=
  let (result, file) := writeAll o.accepted o.strerror (disk.aof.getD []) line
  let disk := { disk with aof := some file }
  match result with
  | .error e => (.error e, f, disk)
  | .ok () =>
      let f := { f with dirty := true }
      if f.fsyncPolicy = .always then
        let (result, f) := f.syncLocked o
        (result, f, disk)
      else (.ok (), f, disk)

def appendLine (f : AppendOnlyFile) (disk : Disk) (o : WriteOutcome) (line : Bytes) :
    Except Bytes Unit × AppendOnlyFile × Disk :=
  if !f.enabled then (.ok (), f, disk)
  else if !f.opened then (.error (ascii "AOF file is not open"), f, disk)
  else
    let sequence := f.sequence + 1
    { f with sequence }.writeRecordLocked disk o
      (toStringU64 sequence ++ tab :: line ++ [newline])

def append (f : AppendOnlyFile) (disk : Disk) (o : WriteOutcome) (command : Command) :
    Except Bytes Unit × AppendOnlyFile × Disk :=
  f.appendLine disk o (serialize command)

/-- How many bytes of a record the log takes. -/
def room (disk : Disk) (o : WriteOutcome) : ℕ :=
  min o.accepted (maxFileSize - (disk.aof.getD []).length)

/-- Every append burns a number and adds as much of its record as the log takes. -/
theorem append_spec {f : AppendOnlyFile} (henabled : f.enabled = true) (hopened : f.opened = true)
    (disk : Disk) (o : WriteOutcome) (command : Command) :
    ∃ d, (f.append disk o command).2 =
      ({ f with sequence := f.sequence + 1, dirty := d },
        { disk with aof := some (disk.aof.getD [] ++
            (record (f.sequence + 1) command).take (room disk o)) }) := by
  simp only [append, appendLine, henabled, hopened, Bool.not_true, Bool.false_eq_true, if_false,
    writeRecordLocked, writeAll]
  by_cases hroom : (record (f.sequence + 1) command).length ≤ room disk o
  · simp only [record, recordLine, room] at hroom
    rw [if_pos hroom]
    dsimp only
    split
    · simp only [syncLocked, Bool.not_true, Bool.false_eq_true, if_false]
      split
      · exact ⟨true, rfl⟩
      · exact ⟨false, rfl⟩
    · exact ⟨true, rfl⟩
  · simp only [record, recordLine, room] at hroom
    rw [if_neg hroom]
    exact ⟨f.dirty, rfl⟩

/-- A record that was reported as appended is in the file as a whole. -/
theorem length_le_room_of_append_ok {f : AppendOnlyFile} (henabled : f.enabled = true)
    (hopened : f.opened = true) {disk : Disk} {o : WriteOutcome} {command : Command}
    (h : (f.append disk o command).1 = .ok ()) :
    (record (f.sequence + 1) command).length ≤ room disk o := by
  by_contra hroom
  simp only [record, recordLine, room] at hroom
  simp only [append, appendLine, henabled, hopened, Bool.not_true, Bool.false_eq_true, if_false,
    writeRecordLocked, writeAll] at h
  rw [if_neg hroom] at h
  simp at h

/-! ## Replay -/

/-- `apply_replay_command`.  The exceptions of `stoll` carry the text `stoll`;
a failed increment leaves the error text empty. -/
def applyReplayCommand (s : StorageEngine S) (now : TimePoint) (command : Command) :
    Except Bytes (StorageEngine S) :=
  match command.type with
  | .set => .ok (s.set now (command.arg 0) (command.arg 1))
  | .mset => .ok (s.mset now command.args).2
  | .del => .ok (s.del (command.arg 0)).2
  | .flush => .ok s.flush.2
  | .persist => .ok (s.persist now (command.arg 0)).2
  | .expire =>
      match stoll (command.arg 1) with
      | .error _ => .error (ascii "stoll")
      | .ok seconds =>
          if seconds < 0 then .error (ascii "negative expiration")
          else .ok (s.expireAt now (command.arg 0) (addSeconds now seconds)).2
  | .expireat =>
      match stoll (command.arg 1) with
      | .error _ => .error (ascii "stoll")
      | .ok millis => .ok (s.expireAt now (command.arg 0) (fromEpochMillis millis)).2
  | .incr =>
      match s.increment now (command.arg 0) 1 with
      | (.error _, _) => .error []
      | (.ok _, s) => .ok s
  | .decr =>
      match s.increment now (command.arg 0) (-1) with
      | (.error _, _) => .error []
      | (.ok _, s) => .ok s
  | .append => .ok (s.append now (command.arg 0) (command.arg 1)).2
  | _ => .error (ascii "command is not replayable")

/-- The loop of `replay_after`: number of lines read, maximum sequence, engine. -/
def replayLines (now : TimePoint) (minimum : UInt64) :
    ℕ → UInt64 → StorageEngine S → List Bytes → Except Bytes (UInt64 × StorageEngine S)
  | _, maximum, s, [] => .ok (maximum, s)
  | lines, maximum, s, line :: rest =>
      let lineNumber := lines + 1
      let (sequence, parsed) := decodeLine lineNumber line
      let maximum := max maximum sequence
      if sequence ≤ minimum then replayLines now minimum lineNumber maximum s rest
      else
        match parsed with
        | .error e =>
            .error (ascii "invalid AOF line " ++ printNat lineNumber ++ ascii ": " ++ e)
        | .ok command =>
            match applyReplayCommand s now command with
            | .error e =>
                .error (ascii "failed to replay AOF line " ++ printNat lineNumber ++
                  ascii ": " ++ e)
            | .ok s => replayLines now minimum lineNumber maximum s rest

def replayAfter (f : AppendOnlyFile) (disk : Disk) (s : StorageEngine S) (now : TimePoint)
    (minimum : UInt64) : Except Bytes (AppendOnlyFile × StorageEngine S) :=
  if !f.enabled then .ok (f, s)
  else
    match disk.aof with
    | none => .ok (f, s)
    | some file =>
        match replayLines now minimum 0 minimum s (getlines newline file) with
        | .error e => .error e
        | .ok (maximum, s) => .ok ({ f with sequence := maximum }, s)

/-! ## Snapshots -/

def snapshotMagic : Bytes := ascii "BYTECACHEDB_SNAPSHOT"

/-- The header line, without its newline. -/
def snapshotHeader (sequence : UInt64) : Bytes :=
  snapshotMagic ++ ascii " 1 " ++ toStringU64 sequence

/-- The commands that stand for one entry of a snapshot. -/
def entryCommands (entry : SnapshotEntry) : List Command :=
  ⟨.set, [entry.key, entry.value]⟩ ::
    match entry.expiresAt with
    | none => []
    | some expiresAt => [⟨.expireat, [entry.key, toStringI64 (toEpochMillis expiresAt)]⟩]

/-- The texts that `save_snapshot` hands to `write_all`, one by one. -/
def snapshotPieces (sequence : UInt64) (entries : List SnapshotEntry) : List Bytes :=
  (snapshotHeader sequence ++ [newline]) ::
    (entries.flatMap entryCommands).map fun command ↦ serialize command ++ [newline]

/-- Consecutive calls of `write_all`; the first failure ends them. -/
def writePieces (accepted : ℕ → ℕ) (strerror : Bytes) :
    ℕ → Bytes → List Bytes → Except Bytes Unit × Bytes
  | _, file, [] => (.ok (), file)
  | i, file, piece :: rest =>
      match writeAll (accepted i) strerror file piece with
      | (.error e, file) => (.error e, file)
      | (.ok (), file) => writePieces accepted strerror (i + 1) file rest

/-- What the system does with the calls of one `save_snapshot`. -/
structure SaveOutcome where
  prepared : Bool := true
  opened : Bool := true
  accepted : ℕ → ℕ := fun _ ↦ maxFileSize
  synced : Bool := true
  closed : Bool := true
  removed : Bool := true
  renamed : Bool := true
  reason : Bytes := []

/-- `fsync` and `close` behind the writes. -/
def finishSnapshot (o : SaveOutcome) (result : Except Bytes Unit) : Except Bytes Unit := do
  result
  if !o.synced then .error (ascii "failed to sync snapshot: " ++ o.reason)
  else if !o.closed then .error (ascii "failed to close snapshot: " ++ o.reason)
  else .ok ()

def saveSnapshot (f : AppendOnlyFile) (disk : Disk) (s : StorageEngine S) (now : TimePoint)
    (o : SaveOutcome) : Except Bytes Unit × Disk :=
  if !f.hasSnapshotPath then (.error (ascii "snapshot path is not configured"), disk)
  else if !o.prepared then
    (.error (ascii "failed to prepare snapshot path: " ++ o.reason), disk)
  else if !o.opened then (.error (ascii "failed to open snapshot: " ++ o.reason), disk)
  else
    let pieces := snapshotPieces f.sequence (s.snapshotEntries now)
    let (result, file) := writePieces o.accepted o.reason 0 [] pieces
    match finishSnapshot o result with
    | .error e =>
        (.error e, { disk with temporary := if o.removed then none else some file })
    | .ok () =>
        if o.renamed then (.ok (), { disk with snapshot := some file, temporary := none })
        else
          (.error (ascii "failed to publish snapshot: " ++ o.reason),
            { disk with temporary := some file })

/-- The three extractions from the header line and the checks on them. -/
def parseHeader (header : Bytes) : Option UInt64 := do
  let (magic, rest) ← extractWord header
  let (version, rest) ← extractInt rest
  let (sequence, _) ← extractU64 rest
  if magic = snapshotMagic ∧ version = 1 then some sequence else none

/-- The loop of `load_snapshot` behind the header. -/
def loadLines (now : TimePoint) :
    ℕ → StorageEngine S → List Bytes → Except Bytes (StorageEngine S)
  | _, s, [] => .ok s
  | lines, s, line :: rest =>
      let lineNumber := lines + 1
      match parse line with
      | .error _ => .error (ascii "invalid snapshot line " ++ printNat lineNumber)
      | .ok command =>
          if command.type ≠ .set ∧ command.type ≠ .expireat then
            .error (ascii "invalid snapshot line " ++ printNat lineNumber)
          else
            match applyReplayCommand s now command with
            | .error e =>
                .error (ascii "failed to load snapshot line " ++ printNat lineNumber ++
                  ascii ": " ++ e)
            | .ok s => loadLines now lineNumber s rest

def loadSnapshot (f : AppendOnlyFile) (disk : Disk) (s : StorageEngine S) (now : TimePoint) :
    Except Bytes (UInt64 × StorageEngine S) :=
  if !f.hasSnapshotPath then .ok (0, s)
  else
    match disk.snapshot with
    | none => .ok (0, s)
    | some file =>
        match getlines newline file with
        | [] => .error (ascii "snapshot is empty")
        | header :: lines =>
            match parseHeader header with
            | none => .error (ascii "invalid snapshot header")
            | some sequence => (loadLines now 1 s lines).map fun s ↦ (sequence, s)

def recover (f : AppendOnlyFile) (disk : Disk) (s : StorageEngine S) (now : TimePoint) :
    Except Bytes (AppendOnlyFile × StorageEngine S) := do
  let s := s.setEvictionEnabled false
  let (snapshotSequence, s) ← f.loadSnapshot disk s now
  let (f, s) ← { f with sequence := snapshotSequence }.replayAfter disk s now snapshotSequence
  let s := s.setEvictionEnabled true
  .ok (f, s.takeEvictedKeys.2)

/-- The object a new process constructs with the same configuration. -/
def fresh (f : AppendOnlyFile) : AppendOnlyFile :=
  { f with opened := false, dirty := false, sequence := 0 }

/-- `Server::start` of a new process, up to the opened log. -/
def start (S : Sharding) (f : AppendOnlyFile) (disk : Disk) (maxKeys : UInt64)
    (now : TimePoint) : Option (AppendOnlyFile × StorageEngine S × Disk) :=
  match f.fresh.recover disk ({ maxKeys := maxKeys } : StorageEngine S) now with
  | .error _ => none
  | .ok (f, s) =>
      match f.open disk {} with
      | (.error _, _, _) => none
      | (.ok (), f, disk) => some (f, s, disk)

end AppendOnlyFile

end ByteCacheDB
