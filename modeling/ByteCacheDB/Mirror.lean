import ByteCacheDB.Execution
import ByteCacheDB.Snapshot

/-!
# Stores up to whole milliseconds

A deadline loses its fraction of a millisecond on its way through a file.  Two
cells mirror each other when they agree up to that loss and their deadline is
still ahead at the time `t` of the recovery.  Replaying the record of a live
operation at time `t` keeps the mirror.
-/

namespace ByteCacheDB

open StorageEngine

inductive Mirrors (t : TimePoint) : Cell → Cell → Prop
  | absent : Mirrors t none none
  | plain (value : Bytes) : Mirrors t (some (value, none)) (some (value, none))
  | timed (value : Bytes) {d d' : TimePoint} (hsame : truncMillis d = truncMillis d')
      (hahead : t < truncMillis d) : Mirrors t (some (value, some d)) (some (value, some d'))

/-- A cell with its deadline in whole milliseconds. -/
def Cell.truncated (c : Cell) : Cell := c.map fun e ↦ (e.1, e.2.map truncMillis)

namespace Mirrors

variable {t now : TimePoint} {c r u : Cell}

theorem symm (h : Mirrors t c r) : Mirrors t r c := by
  cases h with
  | absent => exact .absent
  | plain value => exact .plain value
  | timed value hsame hahead => exact .timed value hsame.symm (hsame ▸ hahead)

theorem trans (h : Mirrors t c r) (h' : Mirrors t r u) : Mirrors t c u := by
  cases h with
  | absent => exact h'
  | plain value => exact h'
  | timed value hsame hahead =>
      cases h' with
      | timed _ hsame' _ => exact .timed value (hsame.trans hsame') hahead

theorem truncated_eq (h : Mirrors t c r) : c.truncated = r.truncated := by
  cases h with
  | absent => rfl
  | plain value => rfl
  | timed value hsame hahead => simp [Cell.truncated, hsame]

/-- A mirrored cell has not expired. -/
theorem live_eq (ht : 0 ≤ t) (hle : now ≤ t) (h : Mirrors t c r) : c.live now = c := by
  cases h with
  | absent => rfl
  | plain value => rfl
  | timed value hsame hahead =>
      apply Cell.live_of_lt
      exact Int64.lt_of_le_of_lt hle (lt_of_lt_truncMillis ht hahead)

theorem eq_none_iff (h : Mirrors t c r) : r = none ↔ c = none := by
  cases h <;> simp

theorem reloaded (h : Mirrors t c r) : Mirrors t (c.reloaded t) r := by
  cases h with
  | absent => exact .absent
  | plain value => exact .plain value
  | timed value hsame hahead =>
      rw [Cell.reloaded, if_pos hahead]
      refine .timed value ((truncMillis_truncMillis _).trans hsame) ?_
      rwa [truncMillis_truncMillis]

/-- The next number depends on the value alone. -/
theorem nextInteger_eq (ht : 0 ≤ t) (hle : now ≤ t) (h : Mirrors t c r) (delta : Int64) :
    r.nextInteger t delta = c.nextInteger now delta := by
  rw [Cell.nextInteger, Cell.nextInteger, h.live_eq ht hle, h.symm.live_eq ht (Int64.le_refl t)]
  cases h <;> rfl

theorem expireAt {d d' : TimePoint} (ht : 0 ≤ t) (hle : now ≤ t) (h : Mirrors t c r)
    (hlogged : d' = d ∨ d' = truncMillis d) (hclear : now < d → t < truncMillis d) :
    Mirrors t (c.expireAt now d) (r.expireAt t d') := by
  rw [Cell.expireAt, Cell.expireAt, h.live_eq ht hle, h.symm.live_eq ht (Int64.le_refl t)]
  by_cases hd : d ≤ now
  · have hgone : d' ≤ t := by
      rcases hlogged with rfl | rfl
      · exact Int64.le_trans hd hle
      · exact truncMillis_le_of_le ht (Int64.le_trans hd hle)
    simp only [hd, hgone, if_true]
    cases h <;> exact .absent
  · have hahead := hclear (Int64.not_le.mp hd)
    have hsame : truncMillis d = truncMillis d' := by
      rcases hlogged with rfl | rfl
      · rfl
      · exact (truncMillis_truncMillis d).symm
    have hkept : ¬d' ≤ t := by
      rw [Int64.not_le]
      exact lt_of_lt_truncMillis ht (hsame ▸ hahead)
    simp only [hd, hkept, if_false]
    cases h with
    | absent => exact .absent
    | plain value => exact .timed value hsame hahead
    | timed value _ _ => exact .timed value hsame hahead

/-- The record of an operation does to the mirror what the operation did, unless
it carries a deadline that has been reached in the meantime. -/
theorem apply {op logged : CellOp} {c' : Cell} (ht : 0 ≤ t) (hle : now ≤ t) (h : Mirrors t c r)
    (hlogged : op.LoggedAs logged)
    (hclear : ∀ d, op = .expireAt d → now < d → t < truncMillis d)
    (hop : op.apply now c = some c') :
    ∃ r', logged.apply t r = some r' ∧ Mirrors t c' r' := by
  rcases hlogged with rfl | ⟨d, rfl, rfl⟩
  · cases logged with
    | keep => exact ⟨r, rfl, Option.some.inj hop ▸ h⟩
    | write value => exact ⟨_, rfl, Option.some.inj hop ▸ .plain value⟩
    | remove => exact ⟨_, rfl, Option.some.inj hop ▸ .absent⟩
    | persist =>
        refine ⟨_, rfl, Option.some.inj hop ▸ ?_⟩
        rw [Cell.persist, Cell.persist, h.live_eq ht hle, h.symm.live_eq ht (Int64.le_refl t)]
        cases h with
        | absent => exact .absent
        | plain value => exact .plain value
        | timed value _ _ => exact .plain value
    | expireAt d =>
        exact ⟨_, rfl, Option.some.inj hop ▸ h.expireAt ht hle (Or.inl rfl) (hclear d rfl)⟩
    | increment delta =>
        obtain ⟨next, hnext, rfl⟩ := Option.map_eq_some_iff.mp hop
        refine ⟨r.writeInteger t next, ?_, ?_⟩
        · rw [CellOp.apply_increment, h.nextInteger_eq ht hle, hnext]
          rfl
        · rw [Cell.writeInteger, Cell.writeInteger, h.live_eq ht hle,
            h.symm.live_eq ht (Int64.le_refl t)]
          cases h with
          | absent => exact .plain _
          | plain value => exact .plain _
          | timed value hsame hahead => exact .timed _ hsame hahead
    | append suffix =>
        refine ⟨_, rfl, Option.some.inj hop ▸ ?_⟩
        rw [Cell.append, Cell.append, h.live_eq ht hle, h.symm.live_eq ht (Int64.le_refl t)]
        cases h with
        | absent => exact .plain _
        | plain value => exact .plain _
        | timed value hsame hahead => exact .timed _ hsame hahead
  · exact ⟨_, rfl, Option.some.inj hop ▸ h.expireAt ht hle (Or.inr rfl) (hclear d rfl)⟩

end Mirrors

/-! ## Whole stores -/

def Store.Mirrors (t : TimePoint) (m n : Store) : Prop :=
  ∀ key, ByteCacheDB.Mirrors t (m key) (n key)

/-- The deadline that a logged command carries. -/
def Command.deadline? (command : Command) : Option TimePoint :=
  match command.keyOp with
  | .expireAt deadline => some deadline
  | _ => none

/-- A replay at time `t` meets no deadline of the command that lies between the
whole millisecond and the fraction behind it. -/
def Command.Clear (t : TimePoint) (command : Command) : Prop :=
  ∀ d ∈ command.deadline?, t < d → t < truncMillis d

theorem Command.deadline?_of_op {command : Command} {key : Bytes} {d : TimePoint}
    (h : command.op key = .expireAt d) : d ∈ command.deadline? := by
  simp only [Command.op] at h
  split at h
  · simp at h
  · split at h <;> simp at h
  · split at h
    · simp [Command.deadline?, h]
    · simp at h

namespace Store.Mirrors

variable {t now : TimePoint} {m m' n : Store}

theorem symm (h : Mirrors t m n) : Mirrors t n m := fun key ↦ (h key).symm

theorem trans {u : Store} (h : Mirrors t m n) (h' : Mirrors t n u) : Mirrors t m u :=
  fun key ↦ (h key).trans (h' key)

theorem empty (t : TimePoint) : Mirrors t (fun _ ↦ none) (fun _ ↦ none) := fun _ ↦ .absent

/-- Nothing of a mirrored store lapses. -/
theorem of_lapse (ht : 0 ≤ t) (hle : now ≤ t) (h : Mirrors t m n)
    (hlapse : ∀ key, m' key = m key ∨ m' key = none ∧ (m key).live now = none) :
    Mirrors t m' n := by
  intro key
  rcases hlapse key with hsame | ⟨hnone, hgone⟩
  · rw [hsame]
    exact h key
  · rw [(h key).live_eq ht hle] at hgone
    rw [hnone, ← hgone]
    exact h key

theorem acts {ops logged : Bytes → CellOp} (ht : 0 ≤ t) (hle : now ≤ t) (h : Mirrors t m n)
    (hlogged : ∀ key, (ops key).LoggedAs (logged key))
    (hclear : ∀ key d, ops key = .expireAt d → now < d → t < truncMillis d)
    (hacts : Store.Acts now ops m m') :
    ∃ n', Store.Acts t logged n n' ∧ Mirrors t m' n' := by
  have hcell := fun key ↦ (h key).apply ht hle (hlogged key) (hclear key) (hacts key)
  choose n' happly hmirror using hcell
  exact ⟨n', happly, hmirror⟩

/-- The same commands, replayed on two stores that mirror each other. -/
theorem replayAll (ht : 0 ≤ t) {commands : List Command} (h : Mirrors t m n)
    (hlog : ∀ command ∈ commands, command.Loggable)
    (hclear : ∀ command ∈ commands, command.Clear t)
    (hm : Store.replayAll t commands m = .ok m') :
    ∃ n', Store.replayAll t commands n = .ok n' ∧ Mirrors t m' n' := by
  induction commands generalizing m n with
  | nil =>
      obtain rfl := Except.ok.inj hm
      exact ⟨n, rfl, h⟩
  | cons command rest ih =>
      simp only [Store.replayAll, List.foldlM_cons] at hm
      cases hone : m.replay t command with
      | error e => simp [hone, bind, Except.bind] at hm
      | ok mid =>
          have hloggable := hlog command List.mem_cons_self
          obtain ⟨mid', hacts, hmid⟩ := h.acts ht (Int64.le_refl t)
            (fun key ↦ CellOp.LoggedAs.refl (command.op key))
            (fun key d hd ↦ hclear command List.mem_cons_self d (Command.deadline?_of_op hd))
            ((replay_eq_ok_iff hloggable).mp hone)
          rw [hone] at hm
          obtain ⟨n', hn', hmirror⟩ := ih hmid
            (fun c hc ↦ hlog c (List.mem_cons_of_mem _ hc))
            (fun c hc ↦ hclear c (List.mem_cons_of_mem _ hc)) hm
          refine ⟨n', ?_, hmirror⟩
          simp only [Store.replayAll, List.foldlM_cons, (replay_eq_ok_iff hloggable).mpr hacts]
          exact hn'

end Store.Mirrors

/-- The journal of a live server, replayed, mirrors the live store. -/
def Reflected (t : TimePoint) (journal : List Command) (live : Store) : Prop :=
  ∃ m, replayed t journal = some m ∧ Store.Mirrors t live m

namespace Reflected

variable {t now : TimePoint} {journal : List Command} {live live' : Store}

theorem nil (t : TimePoint) : Reflected t [] fun _ ↦ none :=
  ⟨_, replayed_nil t, Store.Mirrors.empty t⟩

theorem lapse (ht : 0 ≤ t) (hle : now ≤ t) (h : Reflected t journal live)
    (hlapse : ∀ key, live' key = live key ∨ live' key = none ∧ (live key).live now = none) :
    Reflected t journal live' := by
  obtain ⟨m, hm, hmirror⟩ := h
  exact ⟨m, hm, hmirror.of_lapse ht hle hlapse⟩

/-- One more record. -/
theorem record {ops : Bytes → CellOp} {command : Command} (ht : 0 ≤ t) (hle : now ≤ t)
    (h : Reflected t journal live) (hlog : command.Loggable)
    (hlogged : ∀ key, (ops key).LoggedAs (command.op key))
    (hclear : ∀ key d, ops key = .expireAt d → now < d → t < truncMillis d)
    (hacts : Store.Acts now ops live live') : Reflected t (journal ++ [command]) live' := by
  obtain ⟨m, hm, hmirror⟩ := h
  obtain ⟨m', hacts', hmirror'⟩ := hmirror.acts ht hle hlogged hclear hacts
  exact ⟨m', (replayed_concat_eq_some_iff hlog).mpr ⟨m, hm, hacts'⟩, hmirror'⟩

theorem evictions (ht : 0 ≤ t) (h : Reflected t journal live) (ks : List Bytes) :
    Reflected t (journal ++ ks.map evictionCommand) (live.eraseAll ks) := by
  induction ks generalizing journal live with
  | nil =>
      rw [Store.eraseAll_nil]
      simpa using h
  | cons k ks ih =>
      have hone : Reflected t (journal ++ [evictionCommand k]) (Function.update live k none) := by
        refine h.record ht (Int64.le_refl t) (admissible_evictionCommand k).2
          (fun key ↦ CellOp.LoggedAs.refl _) ?_ (acts_evictionCommand t live k)
        intro key d hd
        rw [op_evictionCommand] at hd
        split at hd <;> simp at hd
      have hrest := ih hone
      rw [List.append_assoc, List.singleton_append] at hrest
      rw [Store.eraseAll_cons]
      exact hrest

end Reflected

end ByteCacheDB
