import ByteCacheDB.Mirror
import ByteCacheDB.Session

/-!
# Recovering earlier or later

Replay deletes a key whose logged deadline has passed by the time of the
recovery, and every record for that key behind the deadline then meets another
cell than it met in the live server.  Whether that shows is decided when the
record is written: recoveries at two times agree with each other, and with the
live store, exactly as long as no record gives a new life to a key that the
live server holds with a deadline up to the later of them.
-/

namespace ByteCacheDB

open CommandParser StorageEngine AppendOnlyFile Runs

/-- Operations that leave a visible key at time `t` behind, given that they find
a key with a deadline up to `t`, or find it already deleted. -/
def CellOp.Prolongs (t : TimePoint) : CellOp → Prop
  | .persist | .increment _ | .append _ => True
  | .expireAt deadline => t < deadline
  | .keep | .write _ | .remove => False

instance (t : TimePoint) : (op : CellOp) → Decidable (op.Prolongs t)
  | .persist | .increment _ | .append _ => isTrue trivial
  | .expireAt deadline => inferInstanceAs (Decidable (t < deadline))
  | .keep | .write _ | .remove => isFalse id

/-- The key is there at time `now`, with a deadline that in whole milliseconds is
not after `t`. -/
def Cell.DueBy (now t : TimePoint) (c : Cell) : Prop :=
  ∃ e ∈ c.live now, ∃ deadline ∈ e.2, truncMillis deadline ≤ t

instance (now t : TimePoint) (c : Cell) : Decidable (c.DueBy now t) :=
  inferInstanceAs (Decidable (∃ e ∈ c.live now, ∃ deadline ∈ e.2, truncMillis deadline ≤ t))

/-- The value that a cell shows at time `t`. -/
def Cell.shown (t : TimePoint) (c : Cell) : Option Bytes := (c.live t).map Prod.fst

/-- Recoveries at `t₁` and at `t₂` succeed and show the same keys and values at
`t₂`, and these are the ones that the live store shows then, its deadlines in
whole milliseconds: nothing is lost that the live server keeps, and nothing is
brought back that has run out. -/
def SameRecovery {S : Sharding} (st : Session S) (t₁ t₂ : TimePoint) : Prop :=
  ∃ s₁ s₂, st.recovered t₁ = some s₁ ∧ st.recovered t₂ = some s₂ ∧ ∀ key,
    (s₁.cells key).shown t₂ = (s₂.cells key).shown t₂ ∧
      (s₂.cells key).shown t₂ = (st.cells key).truncated.shown t₂

/-- The action logs no `PERSIST`, `INCR`, `DECR`, `APPEND` or deadline after `t`
for a key that the live server holds with a deadline up to `t`. -/
def Undisturbed {S : Sharding} (t : TimePoint) (st : Session S) (a : Action) : Prop :=
  ∀ command ∈ st.records a, command.keyOp.Prolongs t →
    ¬(st.cells (command.arg 0)).DueBy a.reading.1 t

instance {S : Sharding} (t : TimePoint) (st : Session S) (a : Action) :
    Decidable (Undisturbed t st a) :=
  inferInstanceAs (Decidable (∀ command ∈ st.records a, command.keyOp.Prolongs t →
    ¬(st.cells (command.arg 0)).DueBy a.reading.1 t))

/-- The deadlines that the action logs are whole milliseconds, as they are when
the argument of `EXPIREAT` does not overflow the clock. -/
def Session.LogsWhole {S : Sharding} (st : Session S) (a : Action) : Prop :=
  ∀ command ∈ st.records a, command.Whole

instance {S : Sharding} (st : Session S) (a : Action) : Decidable (st.LogsWhole a) :=
  inferInstanceAs (Decidable (∀ command ∈ st.records a, command.Whole))

/-! ## One cell in the live server and in a replay -/

section
variable {t u now : TimePoint} {live live' r : Cell}

theorem dueBy_iff : live.DueBy now t ↔
    ∃ value deadline, live.live now = some (value, some deadline) ∧ truncMillis deadline ≤ t := by
  constructor
  · rintro ⟨⟨value, expiresAt⟩, hlive, deadline, hd, hle⟩
    obtain rfl : expiresAt = some deadline := hd
    exact ⟨value, deadline, hlive, hle⟩
  · rintro ⟨value, deadline, hlive, hle⟩
    exact ⟨(value, some deadline), hlive, deadline, rfl, hle⟩

theorem dueBy_some {value : Bytes} {deadline : TimePoint} (hopen : now < deadline)
    (hle : truncMillis deadline ≤ t) : Cell.DueBy now t (some (value, some deadline)) :=
  dueBy_iff.mpr ⟨value, deadline, Cell.live_of_lt value hopen, hle⟩

/-- What is due at a later reading was due before. -/
theorem Cell.DueBy.earlier {earlier : TimePoint} (h : live.DueBy now t) (hle : earlier ≤ now) :
    live.DueBy earlier t := by
  obtain ⟨value, deadline, hlive, hd⟩ := dueBy_iff.mp h
  rcases Cell.live_eq_self_or_none now live with hself | hnone
  · have hopen := Cell.lt_of_live hlive
    rw [hself] at hlive
    rw [hlive]
    exact dueBy_some (Int64.lt_of_le_of_lt hle hopen) hd
  · rw [hnone] at hlive
    simp at hlive

/-- A key that is due and has not run out at a later reading is due there. -/
theorem Cell.DueBy.later {later : TimePoint} (h : live.DueBy now t)
    (hlive : live.live later ≠ none) : live.DueBy later t := by
  obtain ⟨value, deadline, hnow, hd⟩ := dueBy_iff.mp h
  have hself := (Cell.live_eq_self_or_none now live).resolve_right (by simp [hnow])
  have hlater := (Cell.live_eq_self_or_none later live).resolve_right hlive
  exact dueBy_iff.mpr ⟨value, deadline, by rw [hlater, ← hself, hnow], hd⟩

theorem shown_truncated_eq_none {value : Bytes} {deadline : TimePoint}
    (h : truncMillis deadline ≤ t) :
    Cell.shown t (Cell.truncated (some (value, some deadline))) = none := by
  simp [Cell.shown, Cell.truncated, Cell.live_of_le value h]

/-- The cell of a replay at time `t`, beside the live cell at time `now`: it is
the live cell in whole milliseconds, or the replay has deleted a key whose
deadline is not after `u`. -/
structure Shadows (t u now : TimePoint) (live r : Cell) : Prop where
  settled : r.Settled t
  same : r = (live.live now).truncated ∨ r = none ∧ live.DueBy now u

theorem shadows_none (t u now : TimePoint) : Shadows t u now none none :=
  ⟨rfl, Or.inl rfl⟩

/-- A replayed cell outlives its time only if the live cell does. -/
theorem truncated_live_of_settled (ht : 0 ≤ t) (hnow : now ≤ t)
    (h : live.truncated.Settled t) : live.live now = live := by
  match live with
  | none => rfl
  | some (value, none) => rfl
  | some (value, some deadline) =>
      apply Cell.live_of_lt
      apply Int64.lt_of_le_of_lt hnow
      apply lt_of_lt_truncMillis ht
      by_contra hle
      have hgone : Cell.live t (some (value, some (truncMillis deadline))) = none :=
        Cell.live_of_le value (Int64.not_lt.mp hle)
      rw [Cell.Settled, Cell.truncated, Option.map_some, Option.map_some, hgone] at h
      simp at h

theorem Shadows.later {later : TimePoint} (h : Shadows t u now live r) (ht : 0 ≤ t)
    (hle : now ≤ later) (hend : later ≤ t) : Shadows t u later live r := by
  refine ⟨h.settled, ?_⟩
  rcases h.same with rfl | ⟨rfl, hdue⟩
  · left
    have hkept := truncated_live_of_settled ht hend h.settled
    rw [Cell.live_live_of_le hle] at hkept
    rw [hkept]
  · by_cases hlive : live.live later = none
    · left
      rw [hlive]
      rfl
    · exact Or.inr ⟨rfl, hdue.later hlive⟩

/-- The live server may forget what has expired. -/
theorem Shadows.lapse (h : Shadows t u now live r)
    (hlapse : live' = live ∨ live' = none ∧ live.live now = none) :
    Shadows t u now live' r := by
  rcases hlapse with rfl | ⟨rfl, hgone⟩
  · exact h
  · refine ⟨h.settled, Or.inl ?_⟩
    rcases h.same with rfl | ⟨rfl, -⟩
    · rw [hgone, Cell.live_none]
    · rfl

/-- Loading a snapshot at time `t`. -/
theorem shadows_reloaded (ht : 0 ≤ t) (hnow : now ≤ t) (htu : t ≤ u) (live : Cell) :
    Shadows t u now live (live.reloaded t) := by
  refine ⟨settled_reloaded t live, ?_⟩
  match live with
  | none => exact Or.inl rfl
  | some (value, none) => exact Or.inl rfl
  | some (value, some deadline) =>
      rw [Cell.reloaded]
      by_cases hahead : t < truncMillis deadline
      · left
        have hopen := Int64.lt_of_le_of_lt hnow (lt_of_lt_truncMillis ht hahead)
        rw [if_pos hahead, Cell.live_of_lt value hopen]
        rfl
      · rw [if_neg hahead]
        by_cases hopen : now < deadline
        · exact Or.inr ⟨rfl, dueBy_some hopen (Int64.le_trans (Int64.not_lt.mp hahead) htu)⟩
        · left
          rw [Cell.live_of_le value (Int64.not_lt.mp hopen)]
          rfl

/-- At time `u` the replay shows what the live cell would show. -/
theorem Shadows.shown_eq (h : Shadows t u now live r) (hu : 0 ≤ u) (hnow : now ≤ u) :
    r.shown u = live.truncated.shown u := by
  rcases h.same with rfl | ⟨rfl, hdue⟩
  · rcases Cell.live_eq_self_or_none now live with hself | hgone
    · rw [hself]
    · rw [hgone]
      match live with
      | none => rfl
      | some (value, none) => simp at hgone
      | some (value, some deadline) =>
          have hle : deadline ≤ now := by
            by_contra hlt
            simp [Cell.live_of_lt value (Int64.not_le.mp hlt)] at hgone
          rw [shown_truncated_eq_none (truncMillis_le_of_le hu (Int64.le_trans hle hnow))]
          rfl
  · obtain ⟨value, deadline, hlive, hd⟩ := dueBy_iff.mp hdue
    have hself := (Cell.live_eq_self_or_none now live).resolve_right (by simp [hlive])
    rw [← hself, hlive, shown_truncated_eq_none hd]
    rfl

/-! ## One record -/

theorem Shadows.expireAt {d : TimePoint} (h : Shadows t u now live r) (ht : 0 ≤ t)
    (hnow : now ≤ t) (htu : t ≤ u) (hquiet : u < truncMillis d → ¬live.DueBy now u) :
    Shadows t u now (live.expireAt now d) (r.expireAt t (truncMillis d)) := by
  have hsettled : (r.expireAt t (truncMillis d)).Settled t :=
    CellOp.settled_apply h.settled (CellOp.apply_expireAt t r (truncMillis d))
  refine ⟨hsettled, ?_⟩
  have hr : r.live t = r := h.settled
  rw [Cell.expireAt, Cell.expireAt, hr]
  cases hlive : live.live now with
  | none =>
      left
      rcases h.same with rfl | ⟨rfl, -⟩
      · rw [hlive]
        rfl
      · rfl
  | some e =>
      rw [Option.bind_some]
      by_cases hpast : d ≤ now
      · left
        have hgone : truncMillis d ≤ t := truncMillis_le_of_le ht (Int64.le_trans hpast hnow)
        rw [if_pos hpast]
        simp only [if_pos hgone]
        cases r <;> rfl
      · have hopen := Int64.not_le.mp hpast
        rw [if_neg hpast]
        by_cases hgone : truncMillis d ≤ t
        · right
          simp only [if_pos hgone]
          refine ⟨?_, dueBy_some hopen (Int64.le_trans hgone htu)⟩
          cases r <;> rfl
        · simp only [if_neg hgone]
          rcases h.same with rfl | ⟨rfl, hdue⟩
          · left
            rw [hlive, Cell.live_of_lt _ hopen]
            rfl
          · right
            exact ⟨rfl, dueBy_some hopen (Int64.not_lt.mp fun hlt ↦ hquiet hlt hdue)⟩

/-- The record of an operation does to the replay what the operation did to the
live cell, unless it finds a key there that the replay has deleted. -/
theorem Shadows.apply {op logged : CellOp} (h : Shadows t u now live r) (ht : 0 ≤ t)
    (hnow : now ≤ t) (htu : t ≤ u) (hlogged : op.LoggedAs logged)
    (hwhole : ∀ d, logged = .expireAt d → truncMillis d = d)
    (hquiet : logged.Prolongs u → ¬live.DueBy now u) (hop : op.apply now live = some live') :
    ∃ r', logged.apply t r = some r' ∧ Shadows t u now live' r' := by
  have hr : r.live t = r := h.settled
  have hsame : ¬live.DueBy now u → r = (live.live now).truncated :=
    fun hnot ↦ h.same.resolve_right fun hdue ↦ hnot hdue.2
  rcases hlogged with rfl | ⟨d, rfl, rfl⟩
  · cases logged with
    | keep => exact ⟨r, rfl, Option.some.inj hop ▸ h⟩
    | write value => exact ⟨_, rfl, Option.some.inj hop ▸ ⟨rfl, Or.inl rfl⟩⟩
    | remove => exact ⟨_, rfl, Option.some.inj hop ▸ shadows_none t u now⟩
    | persist =>
        have heq := hsame (hquiet trivial)
        refine ⟨_, rfl, CellOp.settled_apply h.settled (CellOp.apply_persist t r), Or.inl ?_⟩
        obtain rfl := Option.some.inj hop
        rw [Cell.persist, Cell.persist, hr, heq]
        cases live.live now <;> rfl
    | expireAt d =>
        obtain rfl := Option.some.inj hop
        have hd := hwhole d rfl
        refine ⟨_, rfl, ?_⟩
        have hkept := h.expireAt ht hnow htu (d := d) (by rw [hd]; exact hquiet)
        rwa [hd] at hkept
    | increment delta =>
        have heq := hsame (hquiet trivial)
        obtain ⟨next, hnext, rfl⟩ := Option.map_eq_some_iff.mp hop
        have hreplay : r.nextInteger t delta = live.nextInteger now delta := by
          rw [Cell.nextInteger, Cell.nextInteger, hr, heq]
          cases live.live now <;> rfl
        have happly : CellOp.apply t r (.increment delta) = some (r.writeInteger t next) := by
          rw [CellOp.apply_increment, hreplay, hnext]
          rfl
        refine ⟨_, happly, CellOp.settled_apply h.settled happly, Or.inl ?_⟩
        have hlater : CellOp.apply now (live.live now) (.increment delta) =
            some ((live.live now).writeInteger now next) := by
          rw [CellOp.apply_increment, Cell.nextInteger, Cell.live_live]
          exact congrArg _ hnext
        have hkept := CellOp.settled_apply (Cell.live_live now live) hlater
        rw [Cell.Settled, Cell.writeInteger, Cell.live_live] at hkept
        rw [Cell.writeInteger, Cell.writeInteger, hkept, hr, heq]
        cases live.live now <;> rfl
    | append suffix =>
        have heq := hsame (hquiet trivial)
        obtain rfl := Option.some.inj hop
        refine ⟨_, rfl, CellOp.settled_apply h.settled (CellOp.apply_append t r suffix),
          Or.inl ?_⟩
        have hkept := CellOp.settled_apply (Cell.live_live now live)
          (CellOp.apply_append now (live.live now) suffix)
        rw [Cell.Settled, Cell.append, Cell.live_live] at hkept
        rw [Cell.append, Cell.append, hkept, hr, heq]
        cases live.live now <;> rfl
  · obtain rfl := Option.some.inj hop
    exact ⟨_, rfl, h.expireAt ht hnow htu hquiet⟩

/-- A record that prolongs a key which the replay at time `u` has deleted shows
at `u`: the key is lost, or brought back. -/
theorem Shadows.prolonged {op logged : CellOp} {r' : Cell} (h : Shadows u u now live r)
    (hu : 0 ≤ u) (hnow : now ≤ u) (hlogged : op.LoggedAs logged)
    (hwhole : ∀ d, logged = .expireAt d → truncMillis d = d) (hprolongs : logged.Prolongs u)
    (hdue : live.DueBy now u) (hop : op.apply now live = some live')
    (hreplay : logged.apply u r = some r') : r'.shown u ≠ live'.truncated.shown u := by
  obtain ⟨value, deadline, hlive, hd⟩ := dueBy_iff.mp hdue
  -- the replay has deleted the key: its deadline would be behind the replay's time
  obtain rfl : r = none := by
    rcases h.same with rfl | ⟨hnone, -⟩
    · have hsettled := h.settled
      rw [hlive, Cell.truncated, Cell.Settled, Option.map_some, Option.map_some,
        Cell.live_of_le value hd] at hsettled
      simp at hsettled
    · exact hnone
  have hlater : ∀ d, u < truncMillis d →
      (Cell.expireAt now d live).truncated.shown u = some value := by
    intro d hlt
    have hopen : ¬d ≤ now :=
      Int64.not_le.mpr (Int64.lt_of_le_of_lt hnow (lt_of_lt_truncMillis hu hlt))
    simp [Cell.expireAt, hlive, hopen, Cell.truncated, Cell.shown, Cell.live_of_lt _ hlt]
  rcases hlogged with rfl | ⟨d, rfl, rfl⟩
  · cases logged with
    | keep => exact absurd hprolongs id
    | write value => exact absurd hprolongs id
    | remove => exact absurd hprolongs id
    | persist =>
        obtain rfl := Option.some.inj hop
        obtain rfl := Option.some.inj hreplay
        simp [Cell.persist, hlive, Cell.truncated, Cell.shown]
    | expireAt d =>
        obtain rfl := Option.some.inj hop
        obtain rfl := Option.some.inj hreplay
        rw [hlater d (by rw [hwhole d rfl]; exact hprolongs)]
        simp [Cell.expireAt, Cell.shown]
    | increment delta =>
        obtain ⟨next, -, rfl⟩ := Option.map_eq_some_iff.mp hop
        obtain ⟨next', -, rfl⟩ := Option.map_eq_some_iff.mp hreplay
        rw [Cell.writeInteger, Cell.writeInteger, hlive, Option.bind_some,
          shown_truncated_eq_none hd]
        simp [Cell.shown]
    | append suffix =>
        obtain rfl := Option.some.inj hop
        obtain rfl := Option.some.inj hreplay
        simp only [Cell.append, hlive]
        rw [shown_truncated_eq_none hd]
        simp [Cell.shown]
  · obtain rfl := Option.some.inj hop
    obtain rfl := Option.some.inj hreplay
    rw [hlater d hprolongs]
    simp [Cell.expireAt, Cell.shown]

end

/-! ## A journal and the live store -/

/-- The journal can be replayed at time `t`, and every replayed cell shadows the
live one. -/
def Shadowed (t u now : TimePoint) (journal : List Command) (live : Store) : Prop :=
  ∃ m, replayed t journal = some m ∧ ∀ key, Shadows t u now (live key) (m key)

theorem keyOp_of_prolongs {command : Command} {key : Bytes} {t : TimePoint}
    (h : (command.op key).Prolongs t) : key = command.arg 0 ∧ command.op key = command.keyOp := by
  obtain ⟨type, args⟩ := command
  cases type with
  | mset =>
      simp only [Command.op] at h
      split at h <;> exact absurd h id
  | flush => exact absurd h id
  | _ =>
      simp only [Command.op] at h ⊢
      split at h
      · rename_i hkey
        exact ⟨hkey, if_pos hkey⟩
      · exact absurd h id

theorem op_arg_of_prolongs {command : Command} {t : TimePoint} (h : command.keyOp.Prolongs t) :
    command.op (command.arg 0) = command.keyOp := by
  obtain ⟨type, args⟩ := command
  cases type with
  | mset => exact absurd h id
  | flush => exact absurd h id
  | _ => exact if_pos rfl

theorem Command.Whole.of_op {command : Command} (h : command.Whole) {key : Bytes} {d : TimePoint}
    (hop : command.op key = .expireAt d) : truncMillis d = d := by
  have hd := Command.deadline?_of_op hop
  rw [Command.deadline?] at hd
  rw [Command.Whole] at h
  split at hd
  · rename_i deadline hkey
    rw [hkey] at h
    obtain rfl : deadline = d := Option.some.inj hd
    exact h
  · simp at hd

section
variable {t u now : TimePoint} {journal : List Command} {live live' : Store} {log : Command}
  {ops : Bytes → CellOp}

theorem Shadowed.record (h : Shadowed t u now journal live) (ht : 0 ≤ t) (hnow : now ≤ t)
    (htu : t ≤ u) (hlog : log.Loggable) (hops : ∀ key, (ops key).LoggedAs (log.op key))
    (hwhole : log.Whole) (hacts : Store.Acts now ops live live')
    (hquiet : log.keyOp.Prolongs u → ¬(live (log.arg 0)).DueBy now u) :
    Shadowed t u now (journal ++ [log]) live' := by
  obtain ⟨m, hm, hshadows⟩ := h
  have hcell : ∀ key, ∃ r', (log.op key).apply t (m key) = some r' ∧
      Shadows t u now (live' key) r' := by
    intro key
    refine (hshadows key).apply ht hnow htu (hops key) (fun d ↦ hwhole.of_op) ?_ (hacts key)
    intro hprolongs
    obtain ⟨rfl, hop⟩ := keyOp_of_prolongs hprolongs
    rw [hop] at hprolongs
    exact hquiet hprolongs
  choose m' happly hshadows' using hcell
  exact ⟨m', (replayed_concat_eq_some_iff hlog).mpr ⟨m, hm, happly⟩, hshadows'⟩

theorem Shadowed.later {later : TimePoint} (h : Shadowed t u now journal live) (ht : 0 ≤ t)
    (hle : now ≤ later) (hend : later ≤ t) : Shadowed t u later journal live := by
  obtain ⟨m, hm, hshadows⟩ := h
  exact ⟨m, hm, fun key ↦ (hshadows key).later ht hle hend⟩

/-- A replay at time `u` of a record that prolongs a due key fails or tells. -/
theorem Shadowed.disturbed (h : Shadowed u u now journal live) (hu : 0 ≤ u) (hnow : now ≤ u)
    (hlog : log.Loggable) (hops : ∀ key, (ops key).LoggedAs (log.op key)) (hwhole : log.Whole)
    (hacts : Store.Acts now ops live live') (hprolongs : log.keyOp.Prolongs u)
    (hdue : (live (log.arg 0)).DueBy now u) {m' : Store}
    (hreplay : replayed u (journal ++ [log]) = some m') :
    (m' (log.arg 0)).shown u ≠ (live' (log.arg 0)).truncated.shown u := by
  obtain ⟨m, hm, hshadows⟩ := h
  obtain ⟨mid, hmid, happly⟩ := (replayed_concat_eq_some_iff hlog).mp hreplay
  obtain rfl : m = mid := Option.some.inj (hm.symm.trans hmid)
  refine (hshadows _).prolonged hu hnow (hops _) (fun d ↦ hwhole.of_op) ?_ hdue (hacts _)
    (happly _)
  rw [op_arg_of_prolongs hprolongs]
  exact hprolongs

end

/-! ## Sessions -/

section
variable {S : Sharding} {st st' : Session S} {base all : List Command} {saved : ℕ}
  {t u t₁ t₂ : Instant} {a : Action}

/-- A prolonging record finds the key as it was at the first reading. -/
theorem dueBy_of_found {now : Instant} {log : Command} {live : Store} (hnow : now.1 ≤ u.1)
    (hreading : now = a.reading ∨ log.type = .expireat) (hfound : log.Found now.1 live)
    (hprolongs : log.keyOp.Prolongs u.1) (hdue : (live (log.arg 0)).DueBy a.reading.1 u.1) :
    (live (log.arg 0)).DueBy now.1 u.1 := by
  rcases hreading with rfl | htype
  · exact hdue
  · apply hdue.later
    rw [Command.Found, htype] at hfound
    refine hfound.2.resolve_right fun hover ↦ ?_
    rw [Command.keyOp, htype] at hover hprolongs
    dsimp only at hover hprolongs
    cases hparse : stoll (log.arg 1) with
    | error e => simp [hparse, CellOp.Prolongs] at hprolongs
    | ok millis =>
        rw [hparse] at hover hprolongs
        have hlt : u.1 < fromEpochMillis millis := hprolongs
        exact Int64.lt_irrefl
          (Int64.lt_of_lt_of_le hlt (Int64.le_trans (hover _ rfl) hnow))

theorem shadowed_step (h : Shadowed t.1 u.1 st.now.1 st.journal st.cells)
    (hmoves : Moves st st' a) (hmax : st.server.storage.maxKeys = 0)
    (hnow : st.now.1 ≤ st'.now.1) (hend : st'.now.1 ≤ t.1) (htu : t.1 ≤ u.1)
    (hwhole : st.LogsWhole a) (hquiet : Undisturbed u.1 st a) :
    Shadowed t.1 u.1 st'.now.1 st'.journal st'.cells := by
  cases hmoves with
  | lapse _ _ hjournal hcells =>
      obtain ⟨m, hm, hshadows⟩ := h.later t.2 hnow hend
      exact ⟨m, hjournal ▸ hm, fun key ↦ (hshadows key).lapse (hcells key)⟩
  | save now _ _ _ hto hcells hjournal =>
      have hload := congrArg Except.toOption (replayAll_snapshotEntries
        (Int64.le_trans hto hend) st.server.storage)
      rw [← hjournal] at hload
      rw [hcells]
      exact ⟨_, hload, fun key ↦ shadows_reloaded t.2 hend htu _⟩
  | log now ops log ks mid _ hfrom hto _ hrecords hjournal hloggable hops hacts hcells hunlimited
      _ hlate =>
      obtain rfl := hunlimited hmax
      rw [List.map_nil] at hrecords
      have hlog : log ∈ st.records a := by simp [hrecords]
      have hpast := Int64.le_trans hto hend
      have hrecord := (h.later t.2 hfrom hpast).record t.2 hpast htu hloggable hops
        (hwhole log hlog) hacts fun hprolongs hdue ↦ hquiet log hlog hprolongs (hdue.earlier hlate)
      rw [hjournal, hrecords, hcells, Store.eraseAll_nil]
      exact hrecord.later t.2 hto hend

theorem sameRecovery_of_shadowed (hfiled : Filed st base all saved)
    (hmax : st.server.storage.maxKeys = 0)
    (h₁ : Shadowed t₁.1 t₂.1 st.now.1 st.journal st.cells)
    (h₂ : Shadowed t₂.1 t₂.1 st.now.1 st.journal st.cells) (hnow : st.now.1 ≤ t₂.1) :
    SameRecovery st t₁.1 t₂.1 := by
  obtain ⟨m₁, hm₁, hshadows₁⟩ := h₁
  obtain ⟨m₂, hm₂, hshadows₂⟩ := h₂
  have hcells₁ := hfiled.recovered_unlimited hmax t₁.1
  have hcells₂ := hfiled.recovered_unlimited hmax t₂.1
  rw [hm₁] at hcells₁
  rw [hm₂] at hcells₂
  obtain ⟨s₁, hs₁, rfl⟩ := Option.map_eq_some_iff.mp hcells₁
  obtain ⟨s₂, hs₂, rfl⟩ := Option.map_eq_some_iff.mp hcells₂
  refine ⟨s₁, s₂, hs₁, hs₂, fun key ↦ ?_⟩
  have hshown₁ := (hshadows₁ key).shown_eq t₂.2 hnow
  have hshown₂ := (hshadows₂ key).shown_eq t₂.2 hnow
  exact ⟨hshown₁.trans hshown₂.symm, hshown₂⟩

/-- An action that disturbs a due key shows in the recovery at the later time. -/
theorem undisturbed_of_sameRecovery (hfiled' : Filed st' base all saved)
    (h : Shadowed t₂.1 t₂.1 st.now.1 st.journal st.cells) (hmoves : Moves st st' a)
    (hmax : st.server.storage.maxKeys = 0) (hmax' : st'.server.storage.maxKeys = 0)
    (hend : st'.now.1 ≤ t₂.1) (hwhole : st.LogsWhole a) (hsame : SameRecovery st' t₁.1 t₂.1) :
    Undisturbed t₂.1 st a := by
  intro command hcommand hprolongs hdue
  cases hmoves with
  | lapse _ hrecords _ _ =>
      rw [hrecords] at hcommand
      simp at hcommand
  | save _ _ hrecords _ _ _ _ =>
      rw [hrecords] at hcommand
      simp at hcommand
  | log now ops log ks mid _ hfrom hto hreading hrecords hjournal hloggable hops hacts hcells
      hunlimited hfound _ =>
      obtain rfl := hunlimited hmax
      rw [List.map_nil] at hrecords
      obtain rfl : command = log := by simpa [hrecords] using hcommand
      have hpast := Int64.le_trans hto hend
      obtain ⟨_, s₂, _, hs₂, hshown⟩ := hsame
      have hafter := hfiled'.recovered_unlimited hmax' t₂.1
      rw [hs₂, hjournal, hrecords] at hafter
      have hlive := (hshown (command.arg 0)).2
      rw [hcells, Store.eraseAll_nil] at hlive
      exact (h.later t₂.2 hfrom hpast).disturbed t₂.2 hpast hloggable hops (hwhole _ hcommand)
        hacts hprolongs (dueBy_of_found hpast hreading hfound hprolongs hdue) hafter.symm hlive

theorem now_le_of_run {events : List Action} {last : Session S} {L : UInt64}
    (hfiled : Filed st base all saved) (hready : Ready L st.server.storage)
    (hrun : run Session.step st events = some last) : st.now.1 ≤ last.now.1 := by
  induction events generalizing st base all saved with
  | nil =>
      obtain rfl := Option.some.inj hrun
      exact Int64.le_refl _
  | cons a rest ih =>
      rw [run_cons] at hrun
      obtain ⟨st', hstep, hrest⟩ := Option.bind_eq_some_iff.mp hrun
      obtain ⟨⟨base', saved', hfiled', -⟩, hready', hnow, -⟩ := filed_step hfiled hready hstep
      exact Int64.le_trans hnow (ih hfiled' hready' hrest)

/-- The equivalence from any state that both replays still shadow. -/
theorem sameRecovery_iff_along {events : List Action} {last : Session S}
    (hfiled : Filed st base all saved) (hready : Ready 0 st.server.storage)
    (h₁ : Shadowed t₁.1 t₂.1 st.now.1 st.journal st.cells)
    (h₂ : Shadowed t₂.1 t₂.1 st.now.1 st.journal st.cells)
    (hwhole : Along Session.step Session.LogsWhole st events)
    (hrun : run Session.step st events = some last) (hend : last.now.1 ≤ t₁.1)
    (htime : t₁.1 ≤ t₂.1) :
    (∀ past mid, past <+: events → run Session.step st past = some mid →
        SameRecovery mid t₁.1 t₂.1) ↔
      Along Session.step (Undisturbed t₂.1) st events := by
  have hnow := Int64.le_trans (now_le_of_run hfiled hready hrun) (Int64.le_trans hend htime)
  have hhere := sameRecovery_of_shadowed hfiled hready.maxKeys h₁ h₂ hnow
  induction events generalizing st base all saved with
  | nil =>
      refine ⟨fun _ ↦ trivial, ?_⟩
      intro _ past mid hpast hmid
      obtain rfl := List.prefix_nil.mp hpast
      obtain rfl := Option.some.inj hmid
      exact hhere
  | cons a rest ih =>
      rw [run_cons] at hrun
      obtain ⟨st', hstep, hrest⟩ := Option.bind_eq_some_iff.mp hrun
      obtain ⟨⟨base', saved', hfiled', -⟩, hready', hnow', hmoves⟩ :=
        filed_step hfiled hready hstep
      have hend' := Int64.le_trans (now_le_of_run hfiled' hready' hrest) hend
      have hlast := Int64.le_trans hend' htime
      -- as long as nothing is disturbed, both replays shadow the next state too
      have hnext : Undisturbed t₂.1 st a →
          ((∀ past mid, past <+: rest → run Session.step st' past = some mid →
              SameRecovery mid t₁.1 t₂.1) ↔
            Along Session.step (Undisturbed t₂.1) st' rest) := by
        intro hfirst
        have h₁' := shadowed_step h₁ hmoves hready.maxKeys hnow' hend' htime hwhole.1 hfirst
        have h₂' := shadowed_step h₂ hmoves hready.maxKeys hnow' hlast (Int64.le_refl _)
          hwhole.1 hfirst
        exact ih hfiled' hready' h₁' h₂' (hwhole.2 st' hstep) hrest hlast
          (sameRecovery_of_shadowed hfiled' hready'.maxKeys h₁' h₂' hlast)
      constructor
      · intro hsame
        have hfirst : Undisturbed t₂.1 st a :=
          undisturbed_of_sameRecovery hfiled' h₂ hmoves hready.maxKeys hready'.maxKeys hlast
            hwhole.1 (hsame [a] st' (by simp) (by simp [run_cons, hstep]))
        refine ⟨hfirst, fun next hstep' ↦ ?_⟩
        obtain rfl : st' = next := Option.some.inj (hstep.symm.trans hstep')
        apply (hnext hfirst).mp
        intro past mid hpast hmid
        exact hsame (a :: past) mid (List.cons_prefix_cons.mpr ⟨rfl, hpast⟩)
          (by rw [run_cons, hstep]; exact hmid)
      · rintro ⟨hfirst, halong⟩ past mid hpast hmid
        cases past with
        | nil =>
            obtain rfl := Option.some.inj hmid
            exact hhere
        | cons b past =>
            obtain ⟨rfl, htail⟩ := List.cons_prefix_cons.mp hpast
            rw [run_cons, hstep] at hmid
            exact (hnext hfirst).mpr (halong st' hstep) past mid htail hmid

theorem shadowed_initial (t u now : TimePoint) : Shadowed t u now [] fun _ ↦ none :=
  ⟨_, replayed_nil t, fun _ ↦ shadows_none t u now⟩

end

/-! ## The two recoveries of a session -/

/-- At every point of a session without a key limit, recoveries at two times
behind its end show the same keys and values at the later time, and those of the
live store, exactly when no action of the session logs a prolongation of a key
that the live server holds with a deadline up to the later time. -/
theorem recovery_time_irrelevant_iff (S : Sharding) (policy : FsyncPolicy) (path : Bool)
    (events : List Action) (last : Session S) (t₁ t₂ : Instant)
    (hrun : run Session.step (Session.initial S policy path 0) events = some last)
    (hwhole : Along Session.step Session.LogsWhole (Session.initial S policy path 0) events)
    (hend : last.now.1 ≤ t₁.1) (htime : t₁.1 ≤ t₂.1) :
    (∀ past st, past <+: events →
        run Session.step (Session.initial S policy path 0) past = some st →
          SameRecovery st t₁.1 t₂.1) ↔
      Along Session.step (Undisturbed t₂.1) (Session.initial S policy path 0) events :=
  sameRecovery_iff_along (filed_initial policy path 0) (ready_initial policy path 0)
    (shadowed_initial _ _ _) (shadowed_initial _ _ _) hwhole hrun hend htime

/-- `SET k v` and `EXPIRE k 10` at the epoch, another command for the key five
seconds later. -/
def expiringKey (command : Command) : List Action :=
  [.command ⟨.set, [ascii "k", ascii "v"]⟩ (.at ⟨0, epoch_nonneg⟩),
    .command ⟨.expire, [ascii "k", ascii "10"]⟩ (.at ⟨0, epoch_nonneg⟩),
    .command command (.at ⟨5000000000, by decide⟩)]

/-- Rewritten in time, the key is there after every recovery. -/
theorem recovery_time_irrelevant_iff_rewritten :
    ∃ last, run Session.step (Session.initial oneShard .always true 0)
        (expiringKey ⟨.set, [ascii "k", ascii "w"]⟩) = some last ∧
      last.now.1 = 5000000000 ∧
      ∀ past st, past <+: expiringKey ⟨.set, [ascii "k", ascii "w"]⟩ →
        run Session.step (Session.initial oneShard .always true 0) past = some st →
          SameRecovery st 6000000000 20000000000 := by
  have hnow : ((run Session.step (Session.initial oneShard .always true 0)
      (expiringKey ⟨.set, [ascii "k", ascii "w"]⟩)).map fun st ↦ st.now.1) =
        some 5000000000 := by decide +kernel
  obtain ⟨last, hrun, hlast⟩ := Option.map_eq_some_iff.mp hnow
  refine ⟨last, hrun, hlast, ?_⟩
  exact (recovery_time_irrelevant_iff oneShard .always true _ last ⟨6000000000, by decide⟩
    ⟨20000000000, by decide⟩ hrun (by decide +kernel) (by rw [hlast]; decide) (by decide)).mpr
      (by decide +kernel)

/-- Persisted in time, the key is there when the recovery runs after six seconds,
as it is in the live server, and gone when it runs after twenty. -/
theorem persisted_key_lost :
    ∃ last, run Session.step (Session.initial oneShard .always true 0)
        (expiringKey ⟨.persist, [ascii "k"]⟩) = some last ∧
      last.now.1 ≤ 6000000000 ∧
      last.cells (ascii "k") = some (ascii "v", none) ∧
      (last.recovered 6000000000).map (fun s ↦ (s.cells (ascii "k")).shown 20000000000) =
        some (some (ascii "v")) ∧
      (last.recovered 20000000000).map (fun s ↦ (s.cells (ascii "k")).shown 20000000000) =
        some none ∧
      ¬SameRecovery last 6000000000 20000000000 := by
  have hlive : ((run Session.step (Session.initial oneShard .always true 0)
      (expiringKey ⟨.persist, [ascii "k"]⟩)).map fun st ↦ (st.now.1, st.cells (ascii "k"))) =
        some (5000000000, some (ascii "v", none)) := by decide +kernel
  have hshown : ((run Session.step (Session.initial oneShard .always true 0)
      (expiringKey ⟨.persist, [ascii "k"]⟩)).map fun st ↦
        ((st.recovered 6000000000).map fun s ↦ (s.cells (ascii "k")).shown 20000000000,
          (st.recovered 20000000000).map fun s ↦ (s.cells (ascii "k")).shown 20000000000)) =
      some (some (some (ascii "v")), some none) := by decide +kernel
  obtain ⟨last, hrun, hlast⟩ := Option.map_eq_some_iff.mp hlive
  obtain ⟨hnow, hcell⟩ := Prod.mk.inj hlast
  rw [hrun, Option.map_some, Option.some.injEq, Prod.mk.injEq] at hshown
  obtain ⟨hearly, hlate⟩ := hshown
  refine ⟨last, hrun, by rw [hnow]; decide, hcell, hearly, hlate, ?_⟩
  rintro ⟨s₁, s₂, hs₁, hs₂, hsame⟩
  rw [hs₁, Option.map_some, (hsame (ascii "k")).1] at hearly
  rw [hs₂, Option.map_some] at hlate
  rw [Option.some.inj hlate] at hearly
  simp at hearly

end ByteCacheDB
