import ByteCacheDB.Replay

/-!
# Logged commands, key by key

A command in the log does one of seven things to each key.  Replaying a log on
a store therefore splits into independent replays on its cells, and a property
of whole recoveries is proved for one cell at a time.
-/

namespace ByteCacheDB

open StorageEngine

inductive CellOp where
  | keep
  | write (value : Bytes)
  | remove
  | persist
  | expireAt (deadline : TimePoint)
  | increment (delta : Int64)
  | append (suffix : Bytes)
  deriving DecidableEq, Repr

/-- The cell after an operation at time `now`; a refused one has none. -/
def CellOp.apply (now : TimePoint) (c : Cell) : CellOp → Option Cell
  | .keep => some c
  | .write value => some (some (value, none))
  | .remove => some none
  | .persist => some (c.persist now)
  | .expireAt deadline => some (c.expireAt now deadline)
  | .increment delta => (c.nextInteger now delta).toOption.map (c.writeInteger now)
  | .append suffix => some (c.append now suffix)

namespace CellOp

variable (now : TimePoint) (c : Cell)

@[simp] theorem apply_keep : apply now c .keep = some c := rfl

@[simp] theorem apply_write (value : Bytes) :
    apply now c (.write value) = some (some (value, none)) := rfl

@[simp] theorem apply_remove : apply now c .remove = some none := rfl

@[simp] theorem apply_persist : apply now c .persist = some (c.persist now) := rfl

@[simp] theorem apply_expireAt (deadline : TimePoint) :
    apply now c (.expireAt deadline) = some (c.expireAt now deadline) := rfl

@[simp] theorem apply_increment (delta : Int64) :
    apply now c (.increment delta) =
      (c.nextInteger now delta).toOption.map (c.writeInteger now) := rfl

@[simp] theorem apply_append (suffix : Bytes) :
    apply now c (.append suffix) = some (c.append now suffix) := rfl

end CellOp

/-- Every key is treated by its own operation. -/
def Store.Acts (now : TimePoint) (ops : Bytes → CellOp) (m m' : Store) : Prop :=
  ∀ key, (ops key).apply now (m key) = some (m' key)

namespace Command

/-- The value the last pair with this key assigns. -/
def lastValue (pairs : List (Bytes × Bytes)) (key : Bytes) : Option Bytes :=
  pairs.foldl (fun v p ↦ if p.1 = key then some p.2 else v) none

/-- Commands that the server puts into its files. -/
def Loggable (command : Command) : Prop :=
  match command.type with
  | .set | .mset | .del | .flush | .persist | .incr | .decr | .append => True
  | .expireat => (stoll (command.arg 1)).toBool = true
  | _ => False

/-- The operation of a command on the key of its first argument. -/
def keyOp (command : Command) : CellOp :=
  match command.type with
  | .set => .write (command.arg 1)
  | .del => .remove
  | .persist => .persist
  | .expireat =>
      match stoll (command.arg 1) with
      | .ok millis => .expireAt (fromEpochMillis millis)
      | .error _ => .keep
  | .incr => .increment 1
  | .decr => .increment (-1)
  | .append => .append (command.arg 1)
  | _ => .keep

def op (command : Command) (key : Bytes) : CellOp :=
  match command.type with
  | .flush => .remove
  | .mset =>
      match lastValue (argPairs command.args) key with
      | some value => .write value
      | none => .keep
  | _ => if key = command.arg 0 then command.keyOp else .keep

theorem lastValue_eq_none_iff {pairs : List (Bytes × Bytes)} {key : Bytes} :
    lastValue pairs key = none ↔ key ∉ pairs.map Prod.fst := by
  induction pairs using List.reverseRecOn with
  | nil => simp [lastValue]
  | append_singleton pairs p ih =>
      rw [lastValue, List.foldl_append, List.foldl_cons, List.foldl_nil, ← lastValue]
      by_cases hp : p.1 = key
      · simp [hp]
      · rw [if_neg hp, ih]
        simp [Ne.symm hp]

theorem storePairs_eq (pairs : List (Bytes × Bytes)) (key : Bytes) (c : Cell) :
    storePairs pairs key c =
      match lastValue pairs key with
      | some value => some (value, none)
      | none => c := by
  suffices hgen : ∀ v : Option Bytes,
      pairs.foldl (fun (c : Cell) p ↦ if p.1 = key then some (p.2, none) else c)
          (match v with
            | some value => some (value, none)
            | none => c) =
        match pairs.foldl (fun v p ↦ if p.1 = key then some p.2 else v) v with
        | some value => some (value, none)
        | none => c from hgen none
  induction pairs with
  | nil => exact fun v ↦ rfl
  | cons p ps ih =>
      intro v
      rw [List.foldl_cons, List.foldl_cons, ← ih]
      by_cases hp : p.1 = key
      · simp [hp]
      · simp [hp]

variable {command : Command}

/-- A command that is not refused does to each cell what its operation does. -/
theorem apply_op_of_replayError (hlog : command.Loggable) {now : TimePoint} {m : Store}
    (h : command.replayError now (m (command.arg 0)) = none) (key : Bytes) :
    (command.op key).apply now (m key) = some (command.onCell now key (m key)) := by
  obtain ⟨type, args⟩ := command
  cases type with
  | set =>
      by_cases hk : key = arg ⟨.set, args⟩ 0 <;>
        simp [op, keyOp, onCell, onKey, hk, CellOp.apply]
  | del =>
      by_cases hk : key = arg ⟨.del, args⟩ 0 <;>
        simp [op, keyOp, onCell, onKey, hk, CellOp.apply]
  | flush => rfl
  | mset =>
      simp only [op, onCell, storePairs_eq]
      cases lastValue (argPairs args) key <;> rfl
  | persist =>
      by_cases hk : key = arg ⟨.persist, args⟩ 0 <;>
        simp [op, keyOp, onCell, onKey, hk, CellOp.apply]
  | expireat =>
      cases hs : stoll (arg ⟨.expireat, args⟩ 1) with
      | error e => simp [Loggable, hs, Except.toBool] at hlog
      | ok millis =>
          by_cases hk : key = arg ⟨.expireat, args⟩ 0 <;>
            simp [op, keyOp, onCell, onKey, hs, hk, CellOp.apply]
  | incr =>
      by_cases hk : key = arg ⟨.incr, args⟩ 0
      · subst hk
        cases hn : (m (arg ⟨.incr, args⟩ 0)).nextInteger now 1 with
        | error e => simp [replayError, hn, Except.toBool] at h
        | ok next =>
            simp [op, keyOp, onCell, onKey, CellOp.apply, Cell.increment, hn, Except.toOption]
      · simp [op, onCell, hk, CellOp.apply]
  | decr =>
      by_cases hk : key = arg ⟨.decr, args⟩ 0
      · subst hk
        cases hn : (m (arg ⟨.decr, args⟩ 0)).nextInteger now (-1) with
        | error e => simp [replayError, hn, Except.toBool] at h
        | ok next =>
            simp [op, keyOp, onCell, onKey, CellOp.apply, Cell.increment, hn, Except.toOption]
      · simp [op, onCell, hk, CellOp.apply]
  | append =>
      by_cases hk : key = arg ⟨.append, args⟩ 0 <;>
        simp [op, keyOp, onCell, onKey, hk, CellOp.apply]
  | _ => exact absurd hlog id

/-- A refused command is refused by the operation on its first argument. -/
theorem apply_op_eq_none (hlog : command.Loggable) {now : TimePoint} {m : Store} {e : Bytes}
    (h : command.replayError now (m (command.arg 0)) = some e) :
    (command.op (command.arg 0)).apply now (m (command.arg 0)) = none := by
  obtain ⟨type, args⟩ := command
  cases type with
  | expireat =>
      cases hs : stoll (arg ⟨.expireat, args⟩ 1) with
      | error e => simp [Loggable, hs, Except.toBool] at hlog
      | ok millis => simp [replayError, hs] at h
  | incr =>
      cases hn : (m (arg ⟨.incr, args⟩ 0)).nextInteger now 1 with
      | error e => simp [op, keyOp, CellOp.apply, hn, Except.toOption]
      | ok next => simp [replayError, hn, Except.toBool] at h
  | decr =>
      cases hn : (m (arg ⟨.decr, args⟩ 0)).nextInteger now (-1) with
      | error e => simp [op, keyOp, CellOp.apply, hn, Except.toOption]
      | ok next => simp [replayError, hn, Except.toBool] at h
  | set | del | flush | mset | persist | append => simp [replayError] at h
  | _ => exact absurd hlog id

end Command

/-- Replay of a logged command splits over the keys. -/
theorem replay_eq_ok_iff {command : Command} (hlog : command.Loggable) {now : TimePoint}
    {m m' : Store} : m.replay now command = .ok m' ↔ Store.Acts now command.op m m' := by
  cases herr : command.replayError now (m (command.arg 0)) with
  | some e =>
      have hnone := Command.apply_op_eq_none hlog herr
      simp only [Store.replay, herr, reduceCtorEq, false_iff]
      intro hacts
      have hsome := hacts (command.arg 0)
      rw [hnone] at hsome
      simp at hsome
  | none =>
      have happly := Command.apply_op_of_replayError hlog herr
      simp only [Store.replay, herr, Except.ok.injEq]
      constructor
      · rintro rfl key
        exact happly key
      · intro hacts
        funext key
        have hsome := hacts key
        rw [happly key] at hsome
        exact Option.some.inj hsome

/-- The store that replaying a journal builds from nothing. -/
def replayed (t : TimePoint) (journal : List Command) : Option Store :=
  (Store.replayAll t journal fun _ ↦ none).toOption

theorem replayed_nil (t : TimePoint) : replayed t [] = some fun _ ↦ none := rfl

theorem replayed_append (t : TimePoint) (xs ys : List Command) :
    replayed t (xs ++ ys) = (replayed t xs).bind fun m ↦ (Store.replayAll t ys m).toOption := by
  simp only [replayed, Store.replayAll, List.foldlM_append]
  cases List.foldlM (Store.replay t) (fun _ ↦ none) xs <;> rfl

theorem replayed_concat_eq_some_iff {journal : List Command} {command : Command}
    (hlog : command.Loggable) {t : TimePoint} {m : Store} :
    replayed t (journal ++ [command]) = some m ↔
      ∃ mid, replayed t journal = some mid ∧ Store.Acts t command.op mid m := by
  simp only [replayed, Store.replayAll, List.foldlM_append]
  cases hfirst : List.foldlM (Store.replay t) (fun _ ↦ none) journal with
  | error e => simp [bind, Except.bind, Except.toOption]
  | ok mid =>
      have hone : List.foldlM (Store.replay t) mid [command] = mid.replay t command := by
        rw [List.foldlM_cons]
        cases mid.replay t command <;> rfl
      simp only [bind, Except.bind, hone, Except.toOption, Option.some.injEq, exists_eq_left']
      rw [← replay_eq_ok_iff hlog]
      cases mid.replay t command <;> simp

/-! ## Cells under replay -/

/-- A cell as a replay at time `t` leaves it: nothing in it has expired. -/
def Cell.Settled (t : TimePoint) (c : Cell) : Prop := c.live t = c

/-- Whether a cell has expired does not depend on its value. -/
theorem Cell.settled_of_settled {t : TimePoint} {value : Bytes} {expiresAt : Option TimePoint}
    (h : Cell.Settled t (some (value, expiresAt))) (value' : Bytes) :
    Cell.Settled t (some (value', expiresAt)) := by
  cases expiresAt with
  | none => rfl
  | some deadline =>
      by_cases hd : deadline ≤ t
      · simp [Cell.Settled, Cell.live_of_le value hd] at h
      · exact Cell.live_of_lt _ (Int64.not_le.mp hd)

namespace CellOp

theorem settled_apply {t : TimePoint} {c c' : Cell} {op : CellOp} (hc : c.Settled t)
    (h : op.apply t c = some c') : c'.Settled t := by
  unfold Cell.Settled at hc ⊢
  cases op with
  | keep =>
      obtain rfl := Option.some.inj h
      exact hc
  | write value =>
      obtain rfl := Option.some.inj h
      rfl
  | remove =>
      obtain rfl := Option.some.inj h
      rfl
  | persist =>
      obtain rfl := Option.some.inj h
      rw [Cell.persist]
      cases c.live t <;> rfl
  | expireAt deadline =>
      obtain rfl := Option.some.inj h
      rw [Cell.expireAt]
      cases c.live t with
      | none => rfl
      | some e =>
          by_cases hd : deadline ≤ t
          · simp [hd]
          · simp [hd, Cell.live_of_lt e.1 (Int64.not_le.mp hd)]
  | increment delta =>
      obtain ⟨next, -, rfl⟩ := Option.map_eq_some_iff.mp h
      rw [Cell.writeInteger, hc]
      cases c with
      | none => rfl
      | some e => exact Cell.settled_of_settled hc _
  | append suffix =>
      obtain rfl := Option.some.inj h
      rw [Cell.append, hc]
      cases c with
      | none => rfl
      | some e => exact Cell.settled_of_settled hc _

end CellOp

end ByteCacheDB
