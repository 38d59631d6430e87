import ByteCacheDB.Session

/-!
# Restarting on one's own log

A replay at time `t` does not see the keys whose deadline has passed by `t`
while the live server still had them.  For every key a status says how far the
replayed cell has left the live one behind.  Only an `APPEND` to a key that the
replay has lost, or has counted anew, can leave a text there that is no number;
as long as no counter command follows it, every record can be replayed.
-/

namespace ByteCacheDB

open CommandParser StorageEngine AppendOnlyFile Runs

inductive Status where
  /-- live and replayed cell hold the same value -/
  | tracked
  /-- the replay has deleted the key -/
  | vanished
  /-- the replay counts the key from zero -/
  | revived
  /-- the replay has appended to something else than the live server -/
  | mixed
  deriving DecidableEq, Repr

namespace Status

/-- The status behind a record, for a replay at time `t`; `present` says whether
the live server had the key. -/
def next (t : TimePoint) (present : Bool) (status : Status) : CellOp → Status
  | .keep | .persist => status
  | .write _ | .remove => .tracked
  | .expireAt deadline => if deadline ≤ t then .vanished else status
  | .increment _ =>
      match status with
      | .vanished => if present then .revived else .tracked
      | other => other
  | .append _ =>
      match status with
      | .vanished => if present then .mixed else .tracked
      | .revived => .mixed
      | other => other

/-- The status when a snapshot has just been taken. -/
def saved (t : TimePoint) : Cell → Status
  | some (_, some deadline) => if truncMillis deadline ≤ t then .vanished else .tracked
  | some (_, none) => .tracked
  | none => .tracked

end Status

/-- A session together with the status of every key. -/
structure Watched (S : Sharding) where
  session : Session S
  status : Bytes → Status

namespace Watched

variable {S : Sharding}

def initial (S : Sharding) (policy : FsyncPolicy) (path : Bool) (maxKeys : UInt64) : Watched S :=
  ⟨Session.initial S policy path maxKeys, fun _ ↦ .tracked⟩

/-- The status of a key behind an action. -/
def statusAfter (t : TimePoint) (w : Watched S) (a : Action) (key : Bytes) : Status :=
  if w.session.Saves a then .saved t (w.session.cells key)
  else
    (w.session.records a).foldl (fun status command ↦ status.next t
      ((w.session.cells key).live a.reading.1).isSome (command.op key)) (w.status key)

def step (t : TimePoint) (w : Watched S) (a : Action) : Option (Watched S) :=
  (w.session.step a).map fun st ↦ ⟨st, w.statusAfter t a⟩

/-- No counter command is logged for a key with a mixed value. -/
def CountsSafely (w : Watched S) (a : Action) : Prop :=
  ∀ command ∈ w.session.records a, command.type = .incr ∨ command.type = .decr →
    w.status (command.arg 0) ≠ .mixed

instance (w : Watched S) (a : Action) : Decidable (w.CountsSafely a) :=
  inferInstanceAs (Decidable (∀ _ ∈ _, _))

end Watched

/-! ## One cell -/

/-- The live cell at time `now` and the cell of a replay at time `t`, after at
most `n` records. -/
def Follows (t now : TimePoint) (n : ℕ) (live replayed : Cell) : Status → Prop
  | .tracked => (replayed = none ∧ live.live now = none) ∨
      ∃ value deadline replayedDeadline, live = some (value, deadline) ∧
        replayed = some (value, replayedDeadline) ∧ ∀ d, deadline = some d → t < d
  | .vanished => replayed = none
  | .revived => ∃ (number : Int64) (deadline : Option TimePoint),
      replayed = some (toStringI64 number, deadline) ∧ number.toInt.natAbs ≤ n
  | .mixed => True

section
variable {t now : TimePoint} {n : ℕ} {live replayed : Cell} {status : Status}

theorem live_eq_self_of_lt {value : Bytes} {deadline : Option TimePoint} (hnow : now ≤ t)
    (h : ∀ d, deadline = some d → t < d) :
    Cell.live now (some (value, deadline)) = some (value, deadline) := by
  cases deadline with
  | none => rfl
  | some d => exact Cell.live_of_lt value (Int64.lt_of_le_of_lt hnow (h d rfl))

theorem Follows.mono {m : ℕ} (hmn : n ≤ m) (h : Follows t now n live replayed status) :
    Follows t now m live replayed status := by
  cases status with
  | tracked => exact h
  | vanished => exact h
  | mixed => trivial
  | revived =>
      obtain ⟨number, deadline, hcell, hle⟩ := h
      exact ⟨number, deadline, hcell, Nat.le_trans hle hmn⟩

theorem Follows.later {later : TimePoint} (hle : now ≤ later)
    (h : Follows t now n live replayed status) : Follows t later n live replayed status := by
  cases status with
  | vanished => exact h
  | mixed => trivial
  | revived => exact h
  | tracked =>
      refine h.imp_left fun hnone ↦ ⟨hnone.1, ?_⟩
      rw [← Cell.live_live_of_le hle, hnone.2, Cell.live_none]

/-- The live server may forget what has expired. -/
theorem Follows.lapse {live' : Cell} (hnow : now ≤ t)
    (h : Follows t now n live replayed status)
    (hlapse : live' = live ∨ live' = none ∧ live.live now = none) :
    Follows t now n live' replayed status := by
  rcases hlapse with rfl | ⟨rfl, hdead⟩
  · exact h
  cases status with
  | vanished => exact h
  | mixed => trivial
  | revived => exact h
  | tracked =>
      rcases h with ⟨hnone, -⟩ | ⟨value, deadline, _, rfl, -, hlater⟩
      · exact Or.inl ⟨hnone, rfl⟩
      · rw [live_eq_self_of_lt hnow hlater] at hdead
        simp at hdead

/-- A snapshot hands the live cell over to the replay. -/
theorem follows_saved (ht : 0 ≤ t) (now : TimePoint) (n : ℕ) (live : Cell) :
    Follows t now n live (live.reloaded t) (.saved t live) := by
  match live with
  | none => exact Or.inl ⟨rfl, rfl⟩
  | some (value, none) => exact Or.inr ⟨value, none, none, rfl, rfl, by simp⟩
  | some (value, some deadline) =>
      simp only [Status.saved, Cell.reloaded]
      by_cases hd : truncMillis deadline ≤ t
      · rw [if_pos hd, if_neg (Int64.not_lt.mpr hd)]
        rfl
      · have hlt := Int64.not_le.mp hd
        rw [if_neg hd, if_pos hlt]
        refine Or.inr ⟨value, _, _, rfl, rfl, ?_⟩
        rintro d ⟨⟩
        exact lt_of_lt_truncMillis ht hlt

theorem follows_persist (hnow : now ≤ t) (hsettled : replayed.Settled t)
    (h : Follows t now n live replayed status) :
    Follows t now n (live.persist now) (replayed.persist t) status := by
  unfold Cell.Settled at hsettled
  cases status with
  | mixed => trivial
  | vanished =>
      obtain rfl : replayed = none := h
      rfl
  | revived =>
      obtain ⟨number, deadline, rfl, hle⟩ := h
      refine ⟨number, none, ?_, hle⟩
      rw [Cell.persist, hsettled, Option.map_some]
  | tracked =>
      rcases h with ⟨rfl, hdead⟩ | ⟨value, deadline, _, rfl, rfl, hlater⟩
      · left
        rw [Cell.persist, Cell.persist, hdead]
        exact ⟨rfl, rfl⟩
      · right
        refine ⟨value, none, none, ?_, ?_, by simp⟩
        · rw [Cell.persist, live_eq_self_of_lt hnow hlater, Option.map_some]
        · rw [Cell.persist, hsettled, Option.map_some]

theorem follows_expireAt (hnow : now ≤ t) (hsettled : replayed.Settled t)
    (h : Follows t now n live replayed status) {deadline logged : TimePoint}
    (hlogged : t < logged → t < deadline) (present : Bool) :
    Follows t now n (live.expireAt now deadline) (replayed.expireAt t logged)
      (status.next t present (.expireAt logged)) := by
  unfold Cell.Settled at hsettled
  simp only [Status.next, Cell.expireAt, hsettled]
  by_cases hd : logged ≤ t
  · simp only [if_pos hd]
    cases replayed <;> rfl
  simp only [if_neg hd]
  have hlater := hlogged (Int64.not_le.mp hd)
  cases status with
  | mixed => trivial
  | vanished =>
      obtain rfl : replayed = none := h
      rfl
  | revived =>
      obtain ⟨number, _, rfl, hle⟩ := h
      exact ⟨number, some logged, rfl, hle⟩
  | tracked =>
      rcases h with ⟨rfl, hdead⟩ | ⟨value, old, _, rfl, rfl, hold⟩
      · left
        rw [hdead]
        exact ⟨rfl, rfl⟩
      · right
        have hopen : ¬deadline ≤ now := Int64.not_le.mpr (Int64.lt_of_le_of_lt hnow hlater)
        rw [live_eq_self_of_lt hnow hold, Option.bind_some, Option.bind_some, if_neg hopen]
        refine ⟨value, _, _, rfl, rfl, ?_⟩
        rintro d ⟨⟩
        exact hlater

theorem follows_append (hnow : now ≤ t) (hsettled : replayed.Settled t)
    (h : Follows t now n live replayed status) (suffix : Bytes) :
    Follows t now n (live.append now suffix) (replayed.append t suffix)
      (status.next t (live.live now).isSome (.append suffix)) := by
  unfold Cell.Settled at hsettled
  cases status with
  | mixed => trivial
  | revived => trivial
  | vanished =>
      obtain rfl : replayed = none := h
      cases hlive : live.live now with
      | some e => trivial
      | none =>
          refine Or.inr ⟨suffix, none, none, ?_, rfl, by simp⟩
          rw [Cell.append, hlive]
  | tracked =>
      right
      rcases h with ⟨rfl, hdead⟩ | ⟨value, deadline, old, rfl, rfl, hlater⟩
      · refine ⟨suffix, none, none, ?_, rfl, by simp⟩
        rw [Cell.append, hdead]
      · refine ⟨value ++ suffix, deadline, old, ?_, ?_, hlater⟩
        · rw [Cell.append, live_eq_self_of_lt hnow hlater]
        · rw [Cell.append, hsettled]

/-- A counter command that the live server carried out can be replayed: the
replay finds the same number, no key, or a number it has counted up itself. -/
theorem follows_increment (hnow : now ≤ t) (hsettled : replayed.Settled t)
    (h : Follows t now n live replayed status) (hmixed : status ≠ .mixed) (hsmall : n + 1 < 2 ^ 63)
    {delta next : Int64} (hdelta : delta.toInt.natAbs ≤ 1)
    (hlive : live.nextInteger now delta = .ok next) :
    ∃ next', replayed.nextInteger t delta = .ok next' ∧
      Follows t now (n + 1) (live.writeInteger now next) (replayed.writeInteger t next')
        (status.next t (live.live now).isSome (.increment delta)) := by
  unfold Cell.Settled at hsettled
  have hfresh : Cell.nextInteger t delta none = .ok delta := checkedAdd_zero delta
  have hnext : live.live now = none → next = delta := by
    intro hdead
    rw [Cell.nextInteger, hdead] at hlive
    exact Except.ok.inj (hlive.symm.trans (checkedAdd_zero delta))
  cases status with
  | mixed => exact absurd rfl hmixed
  | vanished =>
      obtain rfl : replayed = none := h
      refine ⟨delta, hfresh, ?_⟩
      cases hdead : live.live now with
      | some e => exact ⟨delta, none, rfl, by omega⟩
      | none =>
          refine Or.inr ⟨toStringI64 delta, none, none, ?_, rfl, by simp⟩
          rw [Cell.writeInteger, hdead, hnext hdead]
          rfl
  | revived =>
      obtain ⟨number, deadline, rfl, hle⟩ := h
      obtain ⟨hadd, hsum⟩ := checkedAdd_of_fits number delta (by omega) (by omega)
      refine ⟨number + delta, ?_, number + delta, deadline, ?_, ?_⟩
      · rw [Cell.nextInteger, hsettled]
        simp only [storedInteger_toStringI64, bind, Except.bind, hadd]
      · rw [Cell.writeInteger, hsettled, Option.bind_some]
      · omega
  | tracked =>
      rcases h with ⟨rfl, hdead⟩ | ⟨value, deadline, old, rfl, rfl, hlater⟩
      · refine ⟨delta, hfresh, Or.inr ⟨toStringI64 delta, none, none, ?_, rfl, by simp⟩⟩
        rw [Cell.writeInteger, hdead, hnext hdead]
        rfl
      · have hself : Cell.live now (some (value, deadline)) = some (value, deadline) :=
          live_eq_self_of_lt hnow hlater
        refine ⟨next, ?_, Or.inr ⟨toStringI64 next, deadline, old, ?_, ?_, hlater⟩⟩
        · rw [Cell.nextInteger, hself] at hlive
          rw [Cell.nextInteger, hsettled]
          exact hlive
        · rw [Cell.writeInteger, hself, Option.bind_some]
        · rw [Cell.writeInteger, hsettled, Option.bind_some]

/-- One record for one key. -/
theorem follows_apply (ht : 0 ≤ t) (hnow : now ≤ t) (hsettled : replayed.Settled t)
    (h : Follows t now n live replayed status) (hsmall : n + 1 < 2 ^ 63) {op logged : CellOp}
    {live' : Cell} (hlive : op.apply now live = some live') (hlogged : op.LoggedAs logged)
    (hcount : ∀ delta, logged = .increment delta → delta.toInt.natAbs ≤ 1 ∧ status ≠ .mixed)
    {present : Bool} (hpresent : (∃ delta, logged = .increment delta) ∨
      (∃ suffix, logged = .append suffix) → present = (live.live now).isSome) :
    ∃ replayed', logged.apply t replayed = some replayed' ∧
      Follows t now (n + 1) live' replayed' (status.next t present logged) := by
  rcases hlogged with rfl | ⟨deadline, rfl, rfl⟩
  · cases logged with
    | keep =>
        obtain rfl := Option.some.inj hlive
        exact ⟨replayed, rfl, h.mono (Nat.le_succ n)⟩
    | write value =>
        obtain rfl := Option.some.inj hlive
        exact ⟨_, rfl, Or.inr ⟨value, none, none, rfl, rfl, by simp⟩⟩
    | remove =>
        obtain rfl := Option.some.inj hlive
        exact ⟨_, rfl, Or.inl ⟨rfl, rfl⟩⟩
    | persist =>
        obtain rfl := Option.some.inj hlive
        exact ⟨_, rfl, (follows_persist hnow hsettled h).mono (Nat.le_succ n)⟩
    | expireAt deadline =>
        obtain rfl := Option.some.inj hlive
        exact ⟨_, rfl, (follows_expireAt hnow hsettled h id present).mono (Nat.le_succ n)⟩
    | append suffix =>
        obtain rfl := Option.some.inj hlive
        rw [hpresent (Or.inr ⟨suffix, rfl⟩)]
        exact ⟨_, rfl, (follows_append hnow hsettled h suffix).mono (Nat.le_succ n)⟩
    | increment delta =>
        obtain ⟨hdelta, hmixed⟩ := hcount delta rfl
        obtain ⟨next, hnext, rfl⟩ := Option.map_eq_some_iff.mp hlive
        rw [hpresent (Or.inl ⟨delta, rfl⟩)]
        cases hresult : live.nextInteger now delta with
        | error e => simp [hresult, Except.toOption] at hnext
        | ok z =>
            rw [hresult] at hnext
            obtain rfl : z = next := Option.some.inj hnext
            obtain ⟨next', hok, hfollows⟩ :=
              follows_increment hnow hsettled h hmixed hsmall hdelta hresult
            refine ⟨_, ?_, hfollows⟩
            rw [CellOp.apply_increment, hok]
            rfl
  · obtain rfl := Option.some.inj hlive
    exact ⟨_, rfl, (follows_expireAt hnow hsettled h (lt_of_lt_truncMillis ht) present).mono
      (Nat.le_succ n)⟩

end

/-! ## The whole store -/

theorem op_eq_increment {command : Command} {key : Bytes} {delta : Int64}
    (h : command.op key = .increment delta) :
    delta.toInt.natAbs ≤ 1 ∧ (command.type = .incr ∨ command.type = .decr) ∧
      key = command.arg 0 := by
  obtain ⟨type, args⟩ := command
  have hone : (1 : Int64).toInt.natAbs ≤ 1 ∧ (-1 : Int64).toInt.natAbs ≤ 1 := by decide
  cases type with
  | mset =>
      simp only [Command.op] at h
      split at h <;> simp at h
  | flush => simp [Command.op] at h
  | incr =>
      simp only [Command.op, Command.keyOp] at h
      split at h
      · rename_i hkey
        obtain rfl := CellOp.increment.inj h
        exact ⟨hone.1, Or.inl rfl, hkey⟩
      · simp at h
  | decr =>
      simp only [Command.op, Command.keyOp] at h
      split at h
      · rename_i hkey
        obtain rfl := CellOp.increment.inj h
        exact ⟨hone.2, Or.inr rfl, hkey⟩
      · simp at h
  | _ =>
      simp only [Command.op, Command.keyOp] at h
      split at h <;> first | simp at h | (split at h <;> simp at h)

theorem op_eq_append {command : Command} {key suffix : Bytes}
    (h : command.op key = .append suffix) : command.type ≠ .expireat := by
  rintro htype
  simp only [Command.op, Command.keyOp, htype] at h
  split at h
  · split at h <;> simp at h
  · simp at h

/-- How the stores of the live server and of a replay stand to each other. -/
def StoreFollows (t now : TimePoint) (n : ℕ) (live m : Store) (status : Bytes → Status) : Prop :=
  ∀ key, (m key).Settled t ∧ Follows t now n (live key) (m key) (status key)

section
variable {t now : TimePoint} {n : ℕ} {journal : List Command} {live live' m : Store}
  {status : Bytes → Status}

theorem follows_record (ht : 0 ≤ t) (hnow : now ≤ t) (hm : replayed t journal = some m)
    (h : StoreFollows t now n live m status) (hsmall : n + 1 < 2 ^ 63) {log : Command}
    (hlog : log.Loggable) {ops : Bytes → CellOp} (hacts : Store.Acts now ops live live')
    (hops : ∀ key, (ops key).LoggedAs (log.op key))
    (hcount : ∀ key delta, log.op key = .increment delta → status key ≠ .mixed)
    (present : Bytes → Bool)
    (hpresent : ∀ key, (∃ delta, log.op key = .increment delta) ∨
      (∃ suffix, log.op key = .append suffix) → present key = ((live key).live now).isSome) :
    ∃ m', replayed t (journal ++ [log]) = some m' ∧ StoreFollows t now (n + 1) live' m'
      fun key ↦ (status key).next t (present key) (log.op key) := by
  have hstep : ∀ key, ∃ c, (log.op key).apply t (m key) = some c ∧
      Follows t now (n + 1) (live' key) c ((status key).next t (present key) (log.op key)) := by
    intro key
    apply follows_apply ht hnow (h key).1 (h key).2 hsmall (hacts key) (hops key) _ (hpresent key)
    intro delta hdelta
    exact ⟨(op_eq_increment hdelta).1, hcount key delta hdelta⟩
  choose m' happly hfollows using hstep
  refine ⟨m', (replayed_concat_eq_some_iff hlog).mpr ⟨m, hm, happly⟩, fun key ↦ ⟨?_, hfollows key⟩⟩
  exact CellOp.settled_apply (h key).1 (happly key)

theorem follows_evictions (ht : 0 ≤ t) (hnow : now ≤ t) (present : Bytes → Bool)
    (ks : List Bytes) (hm : replayed t journal = some m)
    (h : StoreFollows t now n live m status) (hsmall : n + ks.length < 2 ^ 63) :
    ∃ m', replayed t (journal ++ ks.map evictionCommand) = some m' ∧
      StoreFollows t now (n + ks.length) (live.eraseAll ks) m' fun key ↦
        (ks.map evictionCommand).foldl
          (fun status command ↦ status.next t (present key) (command.op key)) (status key) := by
  induction ks generalizing journal live m status n with
  | nil =>
      refine ⟨m, by simpa using hm, ?_⟩
      rw [Store.eraseAll_nil]
      exact h
  | cons k ks ih =>
      rw [List.length_cons] at hsmall
      have hplain : ∀ key, (evictionCommand k).op key = .remove ∨
          (evictionCommand k).op key = .keep := by
        intro key
        rw [op_evictionCommand]
        split
        · exact Or.inl rfl
        · exact Or.inr rfl
      obtain ⟨m₁, hm₁, h₁⟩ := follows_record ht hnow hm h (by omega)
        (admissible_evictionCommand k).2 (acts_evictionCommand now live k)
        (fun key ↦ CellOp.LoggedAs.refl _)
        (fun key delta hdelta ↦ by rcases hplain key with hop | hop <;> simp [hop] at hdelta)
        present (fun key hother ↦ by rcases hplain key with hop | hop <;> simp [hop] at hother)
      obtain ⟨m', hm', h'⟩ := ih hm₁ h₁ (by omega)
      refine ⟨m', ?_, ?_⟩
      · rw [List.map_cons, ← List.singleton_append, ← List.append_assoc]
        exact hm'
      · rw [Store.eraseAll_cons, List.length_cons, Nat.add_comm ks.length, ← Nat.add_assoc]
        exact h'

end

/-! ## Sessions -/

section
variable {S : Sharding}

/-- The journal can be replayed at time `t`, and every replayed cell follows the
live one as its status says. -/
def Replays (t : TimePoint) (n : ℕ) (w : Watched S) : Prop :=
  ∃ m, replayed t w.session.journal = some m ∧
    StoreFollows t w.session.now.1 n w.session.cells m w.status

theorem replays_step {t : Instant} {w w' : Watched S} {n : ℕ} {a : Action}
    (h : Replays t.1 n w) (hmoves : Moves w.session w'.session a)
    (hstatus : w'.status = w.statusAfter t.1 a) (hsafe : w.CountsSafely a)
    (hnow : w.session.now.1 ≤ w'.session.now.1) (hend : w'.session.now.1 ≤ t.1)
    (hsmall : n + (w.session.records a).length < 2 ^ 63) :
    Replays t.1 (n + (w.session.records a).length) w' := by
  obtain ⟨m, hm, hfollows⟩ := h
  cases hmoves with
  | lapse hsaves hrecords hjournal hcells =>
      refine ⟨m, by rw [hjournal, hm], fun key ↦ ⟨(hfollows key).1, ?_⟩⟩
      rw [hstatus, Watched.statusAfter, if_neg hsaves, hrecords, List.foldl_nil, List.length_nil,
        Nat.add_zero]
      exact ((hfollows key).2.later hnow).lapse hend (hcells key)
  | save now hsaves hrecords hfrom hto hcells hjournal =>
      have hload := congrArg Except.toOption (replayAll_snapshotEntries
        (Int64.le_trans hto hend) w.session.server.storage)
      rw [← hjournal] at hload
      refine ⟨_, hload, fun key ↦ ⟨?_, ?_⟩⟩
      · exact settled_reloaded t.1 _
      · rw [hstatus, Watched.statusAfter, if_pos hsaves, hcells]
        exact follows_saved t.2 _ _ _
  | log now ops log ks mid hsaves hfrom hto hreading hrecords hjournal hloggable hops hacts hcells
      hunlimited =>
      have hlater : StoreFollows t.1 now.1 n w.session.cells m w.status :=
        fun key ↦ ⟨(hfollows key).1, (hfollows key).2.later hfrom⟩
      have hpast := Int64.le_trans hto hend
      rw [hrecords, List.length_cons, List.length_map] at hsmall ⊢
      obtain ⟨m₁, hm₁, h₁⟩ := follows_record t.2 hpast hm hlater (by omega) hloggable hacts hops
        (by
          intro key delta hop
          obtain ⟨-, htype, rfl⟩ := op_eq_increment hop
          exact hsafe log (by simp [hrecords]) htype)
        (fun key ↦ ((w.session.cells key).live a.reading.1).isSome) (by
          intro key hop
          rcases hreading with rfl | htype
          · rfl
          · exfalso
            rcases hop with ⟨delta, hop⟩ | ⟨suffix, hop⟩
            · have hcounter := (op_eq_increment hop).2.1
              simp [htype] at hcounter
            · exact op_eq_append hop htype)
      obtain ⟨m', hm', h'⟩ := follows_evictions t.2 hpast
        (fun key ↦ ((w.session.cells key).live a.reading.1).isSome) ks hm₁ h₁ (by omega)
      refine ⟨m', ?_, fun key ↦ ⟨(h' key).1, ?_⟩⟩
      · rw [hjournal, hrecords, ← hm', List.append_assoc, List.singleton_append]
      · rw [hstatus, Watched.statusAfter, if_neg hsaves, hrecords, hcells, List.foldl_cons]
        have hkey := (h' key).2.later hto
        rwa [Nat.add_right_comm, Nat.add_assoc n] at hkey

theorem replays_initial (t : TimePoint) (policy : FsyncPolicy) (path : Bool) (L : UInt64) :
    Replays t 0 (Watched.initial S policy path L) :=
  ⟨_, replayed_nil t, fun _ ↦ ⟨rfl, Or.inl ⟨rfl, rfl⟩⟩⟩

/-- What holds in every state that a safely counting run reaches. -/
structure Restartable (t : TimePoint) (L : UInt64) (w : Watched S) (base all : List Command)
    (saved : ℕ) : Prop where
  filed : Filed w.session base all saved
  ready : Ready L w.session.server.storage
  replays : w.session.now.1 ≤ t → Replays t all.length w

theorem restartable_step {t : Instant} {L : UInt64} {w w' : Watched S} {base all : List Command}
    {saved : ℕ} {a : Action} (h : Restartable t.1 L w base all saved) (hsafe : w.CountsSafely a)
    (hstep : w.step t.1 a = some w') :
    ∃ base' all' saved', Restartable t.1 L w' base' all' saved' := by
  obtain ⟨st, hst, rfl⟩ := Option.map_eq_some_iff.mp hstep
  obtain ⟨⟨base', saved', hfiled, -⟩, hready, hnow, hmoves⟩ := filed_step h.filed h.ready hst
  refine ⟨base', _, saved', hfiled, hready, fun hend ↦ ?_⟩
  have hsmall := hfiled.length_lt
  rw [List.length_append] at hsmall ⊢
  exact replays_step (h.replays (Int64.le_trans hnow hend)) hmoves rfl hsafe hnow hend hsmall

end

/-- In every run of commands and sweeps from empty files in which no `INCR` or
`DECR` is logged for a key of mixed status, with respect to the time of the
recovery, the recovery succeeds at every point of the run. -/
theorem restart_succeeds (S : Sharding) (policy : FsyncPolicy) (path : Bool) (L : UInt64)
    (events : List Action) (t : Instant) (w : Watched S)
    (hrun : run (Watched.step t.1) (Watched.initial S policy path L) events = some w)
    (hend : w.session.now.1 ≤ t.1)
    (hsafe : Along (Watched.step t.1) Watched.CountsSafely (Watched.initial S policy path L)
      events) :
    ∃ f s, w.session.server.persistence.fresh.recover w.session.server.disk
      ({ maxKeys := L } : StorageEngine S) t.1 = .ok (f, s) := by
  have hinvariant : ∃ base all saved, Restartable t.1 L w base all saved := by
    refine run_invariant (P := fun _ w ↦ ∃ base all saved, Restartable t.1 L w base all saved)
      ⟨[], [], 0, filed_initial policy path L, ready_initial policy path L,
        fun _ ↦ replays_initial t.1 policy path L⟩ ?_ hsafe hrun
    rintro past w a w' ⟨base, all, saved, h⟩ hcounts hstep
    exact restartable_step h hcounts hstep
  obtain ⟨base, all, saved, hfiled, hready, hreplays⟩ := hinvariant
  obtain ⟨m, hm, -⟩ := hreplays hend
  rcases hfiled.recovered_cases t.1 with ⟨-, hnone⟩ | ⟨s, -, -, hsome⟩
  · rw [hnone] at hm
    simp at hm
  · rw [Session.recovered, hready.maxKeys] at hsome
    obtain ⟨⟨f, s'⟩, hrecover, -⟩ := Option.map_eq_some_iff.mp hsome
    refine ⟨f, s', ?_⟩
    cases hresult : w.session.server.persistence.fresh.recover w.session.server.disk
        ({ maxKeys := L } : StorageEngine S) t.1 with
    | error e => simp [hresult, Except.toOption] at hrecover
    | ok r =>
        rw [hresult] at hrecover
        rw [← Option.some.inj hrecover]

/-- A counter with a time to live of ten seconds. -/
def expiringCounter : List Action :=
  [.command ⟨.set, [ascii "k", ascii "1"]⟩ (.at ⟨0, epoch_nonneg⟩),
    .command ⟨.expire, [ascii "k", ascii "10"]⟩ (.at ⟨0, epoch_nonneg⟩)]

theorem restart_succeeds_counted_anew :
    ∃ w, run (Watched.step 20000000000) (Watched.initial oneShard .always true 0)
        (expiringCounter ++ [.command ⟨.incr, [ascii "k"]⟩ (.at ⟨0, by decide⟩)]) = some w ∧
      w.status (ascii "k") = .revived ∧
      ∃ f s, w.session.server.persistence.fresh.recover w.session.server.disk
        ({ maxKeys := 0 } : StorageEngine oneShard) 20000000000 = .ok (f, s) := by
  have hsummary : ((run (Watched.step 20000000000) (Watched.initial oneShard .always true 0)
      (expiringCounter ++ [.command ⟨.incr, [ascii "k"]⟩ (.at ⟨0, by decide⟩)])).map
        fun w ↦ (w.status (ascii "k"), w.session.now.1)) = some (.revived, 0) := by decide +kernel
  obtain ⟨w, hrun, hw⟩ := Option.map_eq_some_iff.mp hsummary
  obtain ⟨hstatus, hnow⟩ := Prod.mk.inj hw
  refine ⟨w, hrun, hstatus, ?_⟩
  exact restart_succeeds oneShard .always true 0 _ ⟨20000000000, by decide⟩ w hrun
    (by rw [hnow]; decide) (by decide +kernel)

/-- Appending nothing to the counter and incrementing it leaves files that the
server refuses to start on once the ten seconds are over: the replay appends to
a key it has deleted, and `INCR` meets an empty text. -/
theorem own_log_refused :
    ∃ last, run Session.step (Session.initial oneShard .always true 0)
        (expiringCounter ++
          [.command ⟨.append, [ascii "k", []]⟩ (.at ⟨0, by decide⟩),
            .command ⟨.incr, [ascii "k"]⟩ (.at ⟨0, by decide⟩)]) = some last ∧
      last.now.1 ≤ 20000000000 ∧
      ∀ f s, last.server.persistence.fresh.recover last.server.disk
        ({} : StorageEngine oneShard) 20000000000 ≠ .ok (f, s) := by
  have hsummary : ((run Session.step (Session.initial oneShard .always true 0)
      (expiringCounter ++
        [.command ⟨.append, [ascii "k", []]⟩ (.at ⟨0, by decide⟩),
          .command ⟨.incr, [ascii "k"]⟩ (.at ⟨0, by decide⟩)])).map fun last ↦
      (last.now.1, (last.server.persistence.fresh.recover last.server.disk
        ({} : StorageEngine oneShard) 20000000000).toBool)) = some (0, false) := by decide +kernel
  obtain ⟨last, hrun, hlast⟩ := Option.map_eq_some_iff.mp hsummary
  obtain ⟨hnow, hfails⟩ := Prod.mk.inj hlast
  refine ⟨last, hrun, by rw [hnow]; decide, ?_⟩
  intro f s hok
  rw [hok] at hfails
  simp [Except.toBool] at hfails

end ByteCacheDB
