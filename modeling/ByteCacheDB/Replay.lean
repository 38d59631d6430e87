import ByteCacheDB.Counters
import ByteCacheDB.Persistence

/-!
# Replay on stores

What `apply_replay_command` does to an engine is a function of the store the
engine represents: a command is refused or not by looking at the cell of its
first argument, and it changes every cell by a function of that cell alone.
The loops over log lines and snapshot lines are folds of this function.
-/

namespace ByteCacheDB

open CommandParser Lines Numerals StorageEngine AppendOnlyFile

namespace Command

/-- The error of a replayed command, given the cell of its first argument. -/
def replayError (now : TimePoint) (command : Command) (c : Cell) : Option Bytes :=
  match command.type with
  | .set | .mset | .del | .flush | .persist | .append => none
  | .expire =>
      match stoll (command.arg 1) with
      | .error _ => some (ascii "stoll")
      | .ok seconds => if seconds < 0 then some (ascii "negative expiration") else none
  | .expireat =>
      match stoll (command.arg 1) with
      | .error _ => some (ascii "stoll")
      | .ok _ => none
  | .incr => if (c.nextInteger now 1).toBool then none else some []
  | .decr => if (c.nextInteger now (-1)).toBool then none else some []
  | _ => some (ascii "command is not replayable")

/-- What a command on one key makes of the cell of that key. -/
def onKey (now : TimePoint) (command : Command) (c : Cell) : Cell :=
  match command.type with
  | .set => some (command.arg 1, none)
  | .del => none
  | .persist => c.persist now
  | .expire =>
      match stoll (command.arg 1) with
      | .error _ => c
      | .ok seconds => c.expireAt now (addSeconds now seconds)
  | .expireat =>
      match stoll (command.arg 1) with
      | .error _ => c
      | .ok millis => c.expireAt now (fromEpochMillis millis)
  | .incr => c.increment now 1
  | .decr => c.increment now (-1)
  | .append => c.append now (command.arg 1)
  | _ => c

/-- The value an `MSET` leaves in a cell: the last pair with that key wins. -/
def storePairs (pairs : List (Bytes × Bytes)) (key : Bytes) (c : Cell) : Cell :=
  pairs.foldl (fun c p ↦ if p.1 = key then some (p.2, none) else c) c

/-- What a command makes of the cell of any key. -/
def onCell (now : TimePoint) (command : Command) (key : Bytes) (c : Cell) : Cell :=
  match command.type with
  | .flush => none
  | .mset => storePairs (argPairs command.args) key c
  | _ => if key = command.arg 0 then command.onKey now c else c

end Command

theorem toOption_eq_some_iff {ε α : Type*} {x : Except ε α} {a : α} :
    x.toOption = some a ↔ x = .ok a := by
  cases x <;> simp [Except.toOption]

/-- Replay of one command on a store. -/
def Store.replay (now : TimePoint) (m : Store) (command : Command) : Except Bytes Store :=
  match command.replayError now (m (command.arg 0)) with
  | some e => .error e
  | none => .ok fun key ↦ command.onCell now key (m key)

def Store.replayAll (now : TimePoint) (commands : List Command) (m : Store) :
    Except Bytes Store :=
  commands.foldlM (Store.replay now) m

/-- An engine that is being filled from the files: it evicts nothing. -/
structure Loading (L : UInt64) (enabled : Bool) {S : Sharding} (s : StorageEngine S) : Prop where
  maxKeys : s.maxKeys = L
  evictionEnabled : s.evictionEnabled = enabled
  quiet : enabled = false ∨ L = 0
  pending : s.pendingEvictedKeys = []
  drift : s.drift = 0

section
variable {S : Sharding} {L : UInt64} {enabled : Bool}

theorem Loading.of_keeps {s s' : StorageEngine S} (h : Loading L enabled s) (hk : Keeps s s') :
    Loading L enabled s' :=
  ⟨hk.maxKeys.trans h.maxKeys, hk.evictionEnabled.trans h.evictionEnabled, h.quiet,
    hk.pending.trans h.pending, hk.drift.trans h.drift⟩

theorem Loading.enforceMaxKeys {s : StorageEngine S} (h : Loading L enabled s) :
    s.enforceMaxKeys = s := by
  rcases h.quiet with hoff | hzero
  · exact enforceMaxKeys_of_disabled (h.evictionEnabled.trans hoff)
  · exact enforceMaxKeys_of_le (Or.inl (h.maxKeys.trans hzero))

theorem loading_flush {s : StorageEngine S} (h : Loading L enabled s) :
    Loading L enabled s.flush.2 :=
  ⟨h.maxKeys, h.evictionEnabled, h.quiet, h.pending, drift_flush s⟩

theorem length_argPairs (args : List Bytes) : (argPairs args).length = args.length / 2 := by
  induction args using argPairs.induct with
  | case1 key value rest ih =>
      rw [argPairs, List.length_cons, ih, List.length_cons, List.length_cons]
      omega
  | case2 args hshort =>
      match args with
      | [] => rfl
      | [_] => simp [argPairs]
      | key :: value :: rest => exact absurd rfl (hshort key value rest)

theorem storePairs_cells (pairs : List (Bytes × Bytes)) (m : Store) :
    pairs.foldl (fun (m : Store) p ↦ Function.update m p.1 (some (p.2, none))) m =
      fun key ↦ Command.storePairs pairs key (m key) := by
  induction pairs generalizing m with
  | nil => rfl
  | cons p ps ih =>
      rw [List.foldl_cons, ih]
      funext key
      simp only [Command.storePairs, List.foldl_cons, Function.update_apply]
      congr 1
      simp [eq_comm]

/-- Cells other than the updated one keep their content. -/
theorem update_eq_ite (m : Store) (k : Bytes) (g : Cell → Cell) :
    Function.update m k (g (m k)) = fun key ↦ if key = k then g (m key) else m key := by
  funext key
  by_cases hk : key = k
  · simp [hk]
  · simp [hk]

/-- The two increments differ in their amount only. -/
theorem increment_replay {s : StorageEngine S} (h : Loading L enabled s) (now : TimePoint)
    (key : Bytes) (delta : Int64) :
    (∃ e s', s.increment now key delta = (.error e, s') ∧
        ((s.cells key).nextInteger now delta).toBool = false) ∨
      ∃ next s', s.increment now key delta = (.ok next, s') ∧ Loading L enabled s' ∧
        ((s.cells key).nextInteger now delta).toBool = true ∧
        s'.cells = fun k ↦ if k = key then (s.cells k).increment now delta else s.cells k := by
  have hkeep := h.of_keeps (keeps_incrementLocked s now key delta)
  cases hnext : (s.cells key).nextInteger now delta with
  | error e =>
      refine Or.inl ⟨e, s.dropExpired now key, ?_, rfl⟩
      simp [increment, incrementLocked_error hnext]
  | ok next =>
      obtain ⟨hresult, hcells⟩ := incrementLocked_ok hnext
      refine Or.inr ⟨next, (s.incrementLocked now key delta).2, ?_, hkeep, rfl, ?_⟩
      · rw [increment, ← Prod.eta (s.incrementLocked now key delta), hresult]
        simp only [hkeep.enforceMaxKeys, ite_self]
      · rw [hcells, ← update_eq_ite]
        simp [Cell.increment, hnext]

/-- Replaying a command on an engine that evicts nothing is replaying it on the
store of that engine. -/
theorem applyReplayCommand_refines {s : StorageEngine S} (h : Loading L enabled s)
    (now : TimePoint) (command : Command) :
    (∃ e, applyReplayCommand s now command = .error e ∧
        s.cells.replay now command = .error e) ∨
      ∃ s', applyReplayCommand s now command = .ok s' ∧ Loading L enabled s' ∧
        s.cells.replay now command = .ok s'.cells := by
  obtain ⟨type, args⟩ := command
  cases type with
  | set =>
      have hload := h.of_keeps (keeps_store s now (Command.arg ⟨.set, args⟩ 0)
        (Command.arg ⟨.set, args⟩ 1))
      refine Or.inr ⟨_, rfl, ?_, ?_⟩
      · rw [StorageEngine.set, hload.enforceMaxKeys]
        exact hload
      · rw [StorageEngine.set, hload.enforceMaxKeys, cells_store,
          update_eq_ite _ _ fun _ ↦ some (_, none)]
        rfl
  | mset =>
      have hload := h.of_keeps (keeps_storeAll s now (argPairs args))
      refine Or.inr ⟨_, rfl, ?_, ?_⟩
      · rw [StorageEngine.mset, hload.enforceMaxKeys]
        exact hload
      · rw [StorageEngine.mset, hload.enforceMaxKeys, cells_storeAll, storePairs_cells]
        rfl
  | del =>
      refine Or.inr ⟨_, rfl, h.of_keeps (keeps_del s _), ?_⟩
      rw [cells_del, update_eq_ite _ _ fun _ ↦ none]
      rfl
  | flush => exact Or.inr ⟨_, rfl, loading_flush h, rfl⟩
  | persist =>
      refine Or.inr ⟨_, rfl, h.of_keeps (keeps_persist s now _), ?_⟩
      rw [cells_persist, update_eq_ite _ _ (Cell.persist now)]
      rfl
  | expire =>
      simp only [applyReplayCommand, Store.replay, Command.replayError, Command.onCell,
        Command.onKey]
      cases stoll (Command.arg ⟨.expire, args⟩ 1) with
      | error e => exact Or.inl ⟨_, rfl, rfl⟩
      | ok seconds =>
          dsimp only
          split
          · exact Or.inl ⟨_, rfl, rfl⟩
          · refine Or.inr ⟨_, rfl, h.of_keeps (keeps_expireAt s now _ _), ?_⟩
            rw [cells_expireAt, update_eq_ite _ _ (Cell.expireAt now _)]
  | expireat =>
      simp only [applyReplayCommand, Store.replay, Command.replayError, Command.onCell,
        Command.onKey]
      cases stoll (Command.arg ⟨.expireat, args⟩ 1) with
      | error e => exact Or.inl ⟨_, rfl, rfl⟩
      | ok millis =>
          refine Or.inr ⟨_, rfl, h.of_keeps (keeps_expireAt s now _ _), ?_⟩
          rw [cells_expireAt, update_eq_ite _ _ (Cell.expireAt now _)]
  | incr =>
      simp only [applyReplayCommand, Store.replay, Command.replayError, Command.onCell,
        Command.onKey]
      rcases increment_replay h now (Command.arg ⟨.incr, args⟩ 0) 1 with
        ⟨e, s', hinc, hno⟩ | ⟨next, s', hinc, hload, hyes, hcells⟩
      · exact Or.inl ⟨[], by simp [hinc], by simp [hno]⟩
      · exact Or.inr ⟨s', by simp [hinc], hload, by simp [hyes, hcells]⟩
  | decr =>
      simp only [applyReplayCommand, Store.replay, Command.replayError, Command.onCell,
        Command.onKey]
      rcases increment_replay h now (Command.arg ⟨.decr, args⟩ 0) (-1) with
        ⟨e, s', hinc, hno⟩ | ⟨next, s', hinc, hload, hyes, hcells⟩
      · exact Or.inl ⟨[], by simp [hinc], by simp [hno]⟩
      · exact Or.inr ⟨s', by simp [hinc], hload, by simp [hyes, hcells]⟩
  | append =>
      have hload := h.of_keeps (keeps_appendLocked s now (Command.arg ⟨.append, args⟩ 0)
        (Command.arg ⟨.append, args⟩ 1))
      have happend : (s.append now (Command.arg ⟨.append, args⟩ 0)
          (Command.arg ⟨.append, args⟩ 1)).2 = (s.appendLocked now
            (Command.arg ⟨.append, args⟩ 0) (Command.arg ⟨.append, args⟩ 1)).2 := by
        simp only [StorageEngine.append, hload.enforceMaxKeys, ite_self]
      refine Or.inr ⟨_, rfl, ?_, ?_⟩
      · rw [happend]
        exact hload
      · rw [happend, (cells_appendLocked s now _ _).1, update_eq_ite _ _ (Cell.append now _)]
        rfl
  | _ => exact Or.inl ⟨_, rfl, rfl⟩

/-! ## Whole lists of commands -/

def applyAll (now : TimePoint) (commands : List Command) (s : StorageEngine S) :
    Except Bytes (StorageEngine S) :=
  commands.foldlM (fun s command ↦ applyReplayCommand s now command) s

theorem applyAll_append (now : TimePoint) (xs ys : List Command) (s : StorageEngine S) :
    applyAll now (xs ++ ys) s = applyAll now xs s >>= applyAll now ys :=
  List.foldlM_append

theorem applyAll_append_eq_ok {now : TimePoint} {xs ys : List Command} {s t : StorageEngine S} :
    applyAll now (xs ++ ys) s = .ok t ↔
      ∃ u, applyAll now xs s = .ok u ∧ applyAll now ys u = .ok t := by
  rw [applyAll_append]
  cases applyAll now xs s with
  | error e => simp [bind, Except.bind]
  | ok u => simp [bind, Except.bind]

theorem applyAll_cons_eq_ok {now : TimePoint} {command : Command} {rest : List Command}
    {s t : StorageEngine S} :
    applyAll now (command :: rest) s = .ok t ↔
      ∃ u, applyReplayCommand s now command = .ok u ∧ applyAll now rest u = .ok t := by
  rw [applyAll, List.foldlM_cons]
  cases applyReplayCommand s now command with
  | error e => simp [bind, Except.bind]
  | ok u => simp [bind, Except.bind, applyAll]

theorem applyAll_refines {s : StorageEngine S} (h : Loading L enabled s) (now : TimePoint)
    (commands : List Command) :
    (∃ e, applyAll now commands s = .error e ∧ s.cells.replayAll now commands = .error e) ∨
      ∃ s', applyAll now commands s = .ok s' ∧ Loading L enabled s' ∧
        s.cells.replayAll now commands = .ok s'.cells := by
  induction commands generalizing s with
  | nil => exact Or.inr ⟨s, rfl, h, rfl⟩
  | cons command commands ih =>
      simp only [applyAll, Store.replayAll, List.foldlM_cons]
      rcases applyReplayCommand_refines h now command with
        ⟨e, hengine, hstore⟩ | ⟨s', hengine, hload, hstore⟩
      · exact Or.inl ⟨e, by simp [hengine, bind, Except.bind], by simp [hstore, bind, Except.bind]⟩
      · rw [hengine, hstore]
        exact ih hload

/-! ## The loop over log lines -/

theorem replayLines_append (now : TimePoint) (minimum : UInt64) (n : ℕ) (maximum : UInt64)
    (s : StorageEngine S) (xs ys : List Bytes) :
    replayLines now minimum n maximum s (xs ++ ys) =
      replayLines now minimum n maximum s xs >>= fun r ↦
        replayLines now minimum (n + xs.length) r.1 r.2 ys := by
  induction xs generalizing n maximum s with
  | nil => rfl
  | cons line rest ih =>
      have hlen : n + 1 + rest.length = n + (line :: rest).length := by
        rw [List.length_cons]
        omega
      simp only [List.cons_append, replayLines]
      split
      · rw [ih, hlen]
      · split
        · rfl
        · split
          · rfl
          · rw [ih, hlen]

/-- The commands of the records that a replay above `minimum` applies. -/
def effective (minimum : UInt64) (records : List (UInt64 × Command)) : List Command :=
  (records.filter fun r ↦ minimum < r.1).map Prod.snd

def maxSequence (maximum : UInt64) (records : List (UInt64 × Command)) : UInt64 :=
  records.foldl (fun m r ↦ max m r.1) maximum

/-- Replaying written records applies the commands above the minimum and
remembers the largest sequence number; only the error texts are not described. -/
theorem replayLines_records (now : TimePoint) (minimum : UInt64) (n : ℕ) (maximum : UInt64)
    (s : StorageEngine S) (records : List (UInt64 × Command))
    (hrecords : ∀ r ∈ records, Admissible r.2) :
    (replayLines now minimum n maximum s (records.map fun r ↦ recordLine r.1 r.2)).toOption =
      (applyAll now (effective minimum records) s).toOption.map
        fun s' ↦ (maxSequence maximum records, s') := by
  induction records generalizing n maximum s with
  | nil => rfl
  | cons r rest ih =>
      have hdecode := decodeLine_recordLine (n + 1) r.1 (hrecords r (by simp))
      have hrest : ∀ q ∈ rest, Admissible q.2 := fun q hq ↦ hrecords q (by simp [hq])
      simp only [List.map_cons, replayLines, hdecode]
      by_cases hle : r.1 ≤ minimum
      · rw [if_pos hle, ih _ _ _ hrest]
        simp [effective, maxSequence, UInt64.not_lt.mpr hle]
      · have heff : effective minimum (r :: rest) = r.2 :: effective minimum rest := by
          simp [effective, UInt64.not_le.mp hle]
        rw [if_neg hle, heff, applyAll, List.foldlM_cons]
        cases happly : applyReplayCommand s now r.2 with
        | error e => rfl
        | ok s' => exact ih _ _ _ hrest

end

end ByteCacheDB
