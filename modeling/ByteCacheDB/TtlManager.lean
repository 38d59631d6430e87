import ByteCacheDB.Lib.Mutex
import ByteCacheDB.Lib.Progress
import ByteCacheDB.Lib.Threads

/-!
# The life of the TTL manager

`start` and `stop` take turns by a compare-and-exchange on `running_`, and touch `worker_`
behind it without a lock.  A `stop` that looks at `worker_` before `start` has filled it does
not join the thread.  Where this does not happen, every thread is joined by the `stop` that
ends it.
-/

namespace ByteCacheDB

open Runs

/-- Where a thread is in `run`. -/
inductive SweeperPc where
  | locking
  /-- at the head of the loop, with the mutex -/
  | checking
  /-- in `wait_for`, which still has the mutex: a notification is lost here -/
  | entering
  | waiting (notified : Bool)
  /-- in `wait_for`, before it has the mutex again -/
  | waking
  | rechecking
  /-- in `cleanup_expired` or `add_expired_keys`, without the mutex -/
  | sweeping
  | exited
  deriving DecidableEq

/-- Where a caller is. -/
inductive ManagerPc where
  | idle
  /-- in `start`, before the thread is created -/
  | spawning
  /-- in `start`, before the thread is moved to `worker_` -/
  | assigning (i : ℕ)
  /-- in `stop`, before `notify_all` -/
  | notifying
  /-- in `stop`, before `joinable` -/
  | looking
  | joining (i : ℕ)
  deriving DecidableEq

def ManagerPc.starts : ManagerPc → Bool
  | .spawning | .assigning _ => true
  | .idle | .notifying | .looking | .joining _ => false

structure TtlManager (κ : Type*) where
  running : Bool := false
  /-- the thread of `worker_`, if it is joinable -/
  worker : Option ℕ := none
  /-- the owner of `mutex_` -/
  owner : Option ℕ := none
  sweepers : List SweeperPc := []
  pcs : κ → ManagerPc := fun _ ↦ .idle
  /-- `std::terminate` has been called -/
  terminated : Bool := false

inductive ManagerEvent (κ : Type*) where
  | start (k : κ)
  | stop (k : κ)
  /-- the next step of a call -/
  | caller (k : κ)
  | sweeper (i : ℕ)
  /-- `wait_for` ends without a notification -/
  | timeout (i : ℕ)

/-- `notify_all` wakes the threads that wait at that moment. -/
def SweeperPc.notify : SweeperPc → SweeperPc
  | .waiting _ => .waiting true
  | pc => pc

/-- The thread owns the mutex. -/
def SweeperPc.holds : SweeperPc → Bool
  | .checking | .entering | .rechecking => true
  | .locking | .waiting _ | .waking | .sweeping | .exited => false

/-- The steps left to a thread once `running_` is false. -/
def SweeperPc.work : SweeperPc → ℕ
  | .exited => 0
  | .checking | .rechecking => 1
  | .locking | .waking => 2
  | .waiting _ | .sweeping => 3
  | .entering => 4

/-- The steps left to a call, with those of the thread that it creates. -/
def ManagerPc.work : ManagerPc → ℕ
  | .idle => 0
  | .assigning _ | .joining _ => 1
  | .looking => 2
  | .notifying => 3
  | .spawning => 4

namespace TtlManager

variable {κ : Type*} [DecidableEq κ]

def goto (m : TtlManager κ) (k : κ) (pc : ManagerPc) : TtlManager κ :=
  { m with pcs := Function.update m.pcs k pc }

def callerStep (m : TtlManager κ) (k : κ) : Option (TtlManager κ) :=
  match m.pcs k with
  | .idle => none
  | .spawning =>
      some ({ m with sweepers := m.sweepers ++ [SweeperPc.locking] }.goto k
        (.assigning m.sweepers.length))
  | .assigning i =>
      -- a thread that is joinable must not be assigned to
      if m.worker.isSome then some { m with terminated := true }
      else some ({ m with worker := some i }.goto k .idle)
  | .notifying => some ({ m with sweepers := m.sweepers.map SweeperPc.notify }.goto k .looking)
  | .looking => some (m.goto k (m.worker.elim .idle .joining))
  | .joining i =>
      if m.sweepers[i]? = some .exited then some ({ m with worker := none }.goto k .idle)
      else none

def sweeperStep (m : TtlManager κ) (i : ℕ) : Option (TtlManager κ) :=
  let moved (pc : SweeperPc) (owner : Option ℕ) : TtlManager κ :=
    { m with sweepers := m.sweepers.set i pc, owner := owner }
  match m.sweepers[i]? with
  | some .locking => if m.owner = none then some (moved .checking (some i)) else none
  | some .checking =>
      some (if m.running then moved .entering m.owner else moved .exited none)
  | some .entering => some (moved (.waiting false) none)
  | some (.waiting notified) => if notified then some (moved .waking m.owner) else none
  | some .waking => if m.owner = none then some (moved .rechecking (some i)) else none
  | some .rechecking => some (moved (if m.running then .sweeping else .exited) none)
  | some .sweeping => some (moved .locking m.owner)
  | some .exited | none => none

def step (m : TtlManager κ) (e : ManagerEvent κ) : Option (TtlManager κ) :=
  if m.terminated then none
  else match e with
  | .start k =>
      if m.pcs k = .idle then
        some (if m.running then m else { m with running := true }.goto k .spawning)
      else none
  | .stop k =>
      if m.pcs k = .idle then
        some (if m.running then { m with running := false }.goto k .notifying else m)
      else none
  | .caller k => m.callerStep k
  | .sweeper i => m.sweeperStep i
  | .timeout i =>
      match m.sweepers[i]? with
      | some (.waiting _) => some { m with sweepers := m.sweepers.set i .waking }
      | _ => none

/-- `stop` looks at `worker_` when no `start` is about to fill it, and no `start` begins
while a `stop` is under way. -/
def Orderly (m : TtlManager κ) : ManagerEvent κ → Prop
  | .start _ => m.running = false → ∀ j, m.pcs j = .idle
  | .caller k => m.pcs k = .looking → ∀ j, (m.pcs j).starts = false
  | .stop _ | .sweeper _ | .timeout _ => True

instance [Fintype κ] (m : TtlManager κ) : (e : ManagerEvent κ) → Decidable (m.Orderly e)
  | .start _ => inferInstanceAs (Decidable (_ → ∀ _, _))
  | .caller _ => inferInstanceAs (Decidable (_ → ∀ _, _))
  | .stop _ | .sweeper _ | .timeout _ => isTrue trivial

/-! ## One step of a sweeper -/

/-- Every thread has left `run`. -/
def AllExited (sweepers : List SweeperPc) : Prop := ∀ pc ∈ sweepers, pc = .exited

/-- Thread `i` is the latest one, and all the others have left `run`. -/
def Last (sweepers : List SweeperPc) (i : ℕ) : Prop :=
  i + 1 = sweepers.length ∧ ∀ j < i, sweepers[j]? = some .exited

variable {m m' : TtlManager κ} {i : ℕ} {pc : SweeperPc} {sweepers : List SweeperPc}

theorem AllExited.last (h : AllExited sweepers) : Last (sweepers ++ [pc]) sweepers.length := by
  refine ⟨by simp, fun j hj ↦ ?_⟩
  rw [List.getElem?_append_left hj, List.getElem?_eq_getElem hj, h _ (List.getElem_mem hj)]

theorem Last.allExited (h : Last sweepers i) (hi : sweepers[i]? = some .exited) :
    AllExited sweepers := by
  intro pc hpc
  obtain ⟨j, hj⟩ := List.mem_iff_getElem?.mp hpc
  obtain ⟨hlt, -⟩ := List.getElem?_eq_some_iff.mp hj
  rcases Nat.lt_or_eq_of_le (show j ≤ i by have := h.1; omega) with hless | rfl
  · exact Option.some.inj (hj.symm.trans (h.2 j hless))
  · exact Option.some.inj (hj.symm.trans hi)

theorem Last.eq_of_ne {j : ℕ} (h : Last sweepers i) (hj : sweepers[j]? = some pc)
    (hpc : pc ≠ .exited) : j = i := by
  obtain ⟨hlt, -⟩ := List.getElem?_eq_some_iff.mp hj
  have hlength := h.1
  by_contra hne
  have hexited := h.2 j (by omega)
  rw [hj] at hexited
  exact hpc (Option.some.inj hexited)

/-- What a step of a thread can do: it has not left `run`, and moves on; it takes the mutex,
gives it back, or leaves it as it is; once `running_` is false it comes closer to its end. -/
theorem sweeper_spec {e : ManagerEvent κ} (hthread : e = .sweeper i ∨ e = .timeout i)
    (hstep : m.step e = some m') :
    ∃ pc pc' owner, m.sweepers[i]? = some pc ∧ pc ≠ .exited ∧
      m' = { m with sweepers := m.sweepers.set i pc', owner := owner } ∧
      (owner = none ∨ owner = some i ∧ pc'.holds = true ∨
        owner = m.owner ∧ (pc.holds = true → pc'.holds = true)) ∧
      (m.running = false → pc'.work < pc.work) := by
  unfold step at hstep
  split at hstep
  · simp at hstep
  rcases hthread with rfl | rfl
  · dsimp only at hstep
    unfold sweeperStep at hstep
    split at hstep
    · rename_i hpc
      rw [Option.ite_none_right_eq_some] at hstep
      refine ⟨_, _, _, hpc, by simp, (Option.some.inj hstep.2).symm, Or.inr (Or.inl ?_), ?_⟩ <;>
        simp [SweeperPc.holds, SweeperPc.work]
    · rename_i hpc
      dsimp only at hstep
      split at hstep
      · rename_i hrunning
        refine ⟨_, _, _, hpc, by simp, (Option.some.inj hstep).symm, Or.inr (Or.inr ?_), ?_⟩ <;>
          simp [SweeperPc.holds, hrunning]
      · refine ⟨_, _, _, hpc, by simp, (Option.some.inj hstep).symm, Or.inl rfl, ?_⟩
        simp [SweeperPc.work]
    · rename_i hpc
      refine ⟨_, _, _, hpc, by simp, (Option.some.inj hstep).symm, Or.inl rfl, ?_⟩
      simp [SweeperPc.work]
    · rename_i hpc
      rw [Option.ite_none_right_eq_some] at hstep
      refine ⟨_, _, _, hpc, by simp, (Option.some.inj hstep.2).symm, Or.inr (Or.inr ?_), ?_⟩ <;>
        simp [SweeperPc.holds, SweeperPc.work]
    · rename_i hpc
      rw [Option.ite_none_right_eq_some] at hstep
      refine ⟨_, _, _, hpc, by simp, (Option.some.inj hstep.2).symm, Or.inr (Or.inl ?_), ?_⟩ <;>
        simp [SweeperPc.holds, SweeperPc.work]
    · rename_i hpc
      refine ⟨_, _, _, hpc, by simp, (Option.some.inj hstep).symm, Or.inl rfl, fun hoff ↦ ?_⟩
      simp [hoff, SweeperPc.work]
    · rename_i hpc
      refine ⟨_, _, _, hpc, by simp, (Option.some.inj hstep).symm, Or.inr (Or.inr ?_), ?_⟩ <;>
        simp [SweeperPc.holds, SweeperPc.work]
    · simp at hstep
    · simp at hstep
  · dsimp only at hstep
    split at hstep
    · rename_i hpc
      refine ⟨_, _, _, hpc, by simp, (Option.some.inj hstep).symm, Or.inr (Or.inr ?_), ?_⟩ <;>
        simp [SweeperPc.holds, SweeperPc.work]
    · simp at hstep

theorem AllExited.eq_exited (h : AllExited sweepers) (hi : sweepers[i]? = some pc) :
    pc = .exited :=
  h pc (List.mem_of_getElem? hi)

theorem Last.set {j : ℕ} (h : Last sweepers i) (hj : sweepers[j]? = some pc) (hpc : pc ≠ .exited)
    (pc' : SweeperPc) : Last (sweepers.set j pc') i := by
  obtain rfl := h.eq_of_ne hj hpc
  refine ⟨by rw [List.length_set]; exact h.1, fun l hl ↦ ?_⟩
  rw [List.getElem?_set_ne (by omega)]
  exact h.2 l hl

theorem AllExited.notify (h : AllExited sweepers) : AllExited (sweepers.map SweeperPc.notify) := by
  intro pc hpc
  obtain ⟨pc', hpc', rfl⟩ := List.mem_map.mp hpc
  rw [h pc' hpc']
  rfl

theorem Last.notify (h : Last sweepers i) : Last (sweepers.map SweeperPc.notify) i := by
  refine ⟨by rw [List.length_map]; exact h.1, fun j hj ↦ ?_⟩
  rw [List.getElem?_map, h.2 j hj]
  rfl

/-! ## The calls -/

/-- The calls that are under way: a `start` and a `stop` at most, and the `stop` only behind
the exchange of `running_` by which it has won. -/
structure Phase (m : TtlManager κ) (starter stopper : Option κ) : Prop where
  alive : m.terminated = false
  idle : ∀ j, starter ≠ some j → stopper ≠ some j → m.pcs j = .idle
  starting : ∀ k, starter = some k → m.worker = none ∧
    (m.pcs k = .spawning ∧ AllExited m.sweepers ∨ ∃ i, m.pcs k = .assigning i ∧ Last m.sweepers i)
  stopping : ∀ k, stopper = some k → m.running = false ∧
    (m.pcs k = .notifying ∨ m.pcs k = .looking ∨
      starter = none ∧ ∃ i, m.pcs k = .joining i ∧ m.worker = some i)
  on : starter = none → m.running = true ∨ stopper ≠ none →
    ∃ i, m.worker = some i ∧ Last m.sweepers i
  off : stopper = none → m.running = false →
    starter = none ∧ m.worker = none ∧ AllExited m.sweepers

variable {starter stopper : Option κ}

omit [DecidableEq κ] in
theorem Phase.starts_iff (h : Phase m starter stopper) (k : κ) :
    (m.pcs k).starts = true ↔ starter = some k := by
  constructor
  · intro hstarts
    by_contra hk
    by_cases hstop : stopper = some k
    · obtain ⟨-, hpc | hpc | ⟨-, i, hpc, -⟩⟩ := h.stopping k hstop <;>
        simp [hpc, ManagerPc.starts] at hstarts
    · simp [h.idle k hk hstop, ManagerPc.starts] at hstarts
  · intro hk
    obtain ⟨-, ⟨hpc, -⟩ | ⟨i, hpc, -⟩⟩ := h.starting k hk <;> simp [hpc, ManagerPc.starts]

omit [DecidableEq κ] in
/-- A call that is under way and does not start is the `stop`. -/
theorem Phase.stopper_eq (h : Phase m starter stopper) {k : κ} (hidle : m.pcs k ≠ .idle)
    (hstarts : (m.pcs k).starts = false) : stopper = some k := by
  by_contra hk
  refine hidle (h.idle k (fun hstart ↦ ?_) hk)
  simp [(h.starts_iff k).mpr hstart] at hstarts

omit [DecidableEq κ] in
/-- A thread moves. -/
theorem Phase.sweeper (h : Phase m starter stopper) {pc' : SweeperPc} {owner : Option ℕ}
    (hi : m.sweepers[i]? = some pc) (hpc : pc ≠ .exited) :
    Phase { m with sweepers := m.sweepers.set i pc', owner := owner } starter stopper where
  alive := h.alive
  idle := h.idle
  starting k hk := by
    obtain ⟨hworker, ⟨-, hall⟩ | ⟨l, hassign, hlast⟩⟩ := h.starting k hk
    · exact absurd (hall.eq_exited hi) hpc
    · exact ⟨hworker, Or.inr ⟨l, hassign, hlast.set hi hpc pc'⟩⟩
  stopping := h.stopping
  on hstarter hon := by
    obtain ⟨l, hworker, hlast⟩ := h.on hstarter hon
    exact ⟨l, hworker, hlast.set hi hpc pc'⟩
  off hstopper hoff := absurd ((h.off hstopper hoff).2.2.eq_exited hi) hpc

theorem pcs_goto_self (m : TtlManager κ) (k : κ) (pc : ManagerPc) : (m.goto k pc).pcs k = pc :=
  Function.update_self _ _ _

theorem pcs_goto_of_ne (m : TtlManager κ) {j k : κ} (hj : j ≠ k) (pc : ManagerPc) :
    (m.goto k pc).pcs j = m.pcs j :=
  Function.update_of_ne hj _ _

omit [DecidableEq κ] in
theorem Phase.ne (h : Phase m starter stopper) {j k : κ} (hj : starter = some j)
    (hk : stopper = some k) : k ≠ j := by
  rintro rfl
  have hstarts := (h.starts_iff k).mpr hj
  obtain ⟨-, hpc | hpc | ⟨-, i, hpc, -⟩⟩ := h.stopping k hk <;>
    simp [hpc, ManagerPc.starts] at hstarts

/-- `start` moves on behind its exchange. -/
theorem Phase.start_caller {k : κ} (h : Phase m (some k) stopper)
    (hstep : m.callerStep k = some m') : ∃ starter', Phase m' starter' stopper := by
  have hnotoff (hstopper : stopper = none) : m.running = true := by
    by_contra hrunning
    simpa using (h.off hstopper (by simpa using hrunning)).1
  obtain ⟨hworker, ⟨hpc, hall⟩ | ⟨l, hpc, hlast⟩⟩ := h.starting k rfl
  · -- the thread is created
    simp only [callerStep, hpc, Option.some.injEq] at hstep
    subst hstep
    refine ⟨some k, h.alive, ?_, ?_, ?_, by simp, ?_⟩
    · intro j hj hj'
      rw [pcs_goto_of_ne _ (by rintro rfl; exact hj rfl)]
      exact h.idle j hj hj'
    · intro j hj
      obtain rfl := Option.some.inj hj
      exact ⟨hworker, Or.inr ⟨_, pcs_goto_self _ _ _, hall.last⟩⟩
    · intro j hj
      rw [pcs_goto_of_ne _ (h.ne rfl hj)]
      exact h.stopping j hj
    · intro hstopper hoff
      rw [show m.running = false from hoff] at hnotoff
      simpa using hnotoff hstopper
  · -- and handed over
    simp only [callerStep, hpc, hworker, Option.isSome_none, Bool.false_eq_true, if_false,
      Option.some.injEq] at hstep
    subst hstep
    refine ⟨none, h.alive, ?_, by simp, ?_, ?_, ?_⟩
    · intro j hj hj'
      by_cases hjk : j = k
      · rw [hjk, pcs_goto_self]
      · rw [pcs_goto_of_ne _ hjk]
        exact h.idle j (by simpa using Ne.symm hjk) hj'
    · intro j hj
      rw [pcs_goto_of_ne _ (h.ne rfl hj)]
      obtain ⟨hrunning, hpc' | hpc' | ⟨hnone, -⟩⟩ := h.stopping j hj
      · exact ⟨hrunning, Or.inl hpc'⟩
      · exact ⟨hrunning, Or.inr (Or.inl hpc')⟩
      · simp at hnone
    · intro _ _
      exact ⟨l, rfl, hlast⟩
    · intro hstopper hoff
      rw [show m.running = false from hoff] at hnotoff
      simpa using hnotoff hstopper

/-- `stop` moves on behind its exchange. -/
theorem Phase.stop_caller {k : κ} (h : Phase m starter (some k))
    (horderly : m.Orderly (.caller k)) (hstep : m.callerStep k = some m') :
    ∃ stopper', Phase m' starter stopper' := by
  have hidle {n : TtlManager κ} (hn : n.pcs = m.pcs) (pc : ManagerPc) (j : κ)
      (hj : starter ≠ some j) (hjk : some k ≠ some j) : (n.goto k pc).pcs j = .idle := by
    rw [pcs_goto_of_ne _ (by rintro rfl; exact hjk rfl), hn]
    exact h.idle j hj hjk
  have hstart (j : κ) (hj : starter = some j) : j ≠ k := Ne.symm (h.ne hj rfl)
  obtain ⟨hrunning, hpc | hpc | ⟨rfl, l, hpc, hworker⟩⟩ := h.stopping k rfl
  · simp only [callerStep, hpc, Option.some.injEq] at hstep
    subst hstep
    refine ⟨some k, h.alive, hidle rfl _, ?_, ?_, ?_, by simp⟩
    · intro j hj
      rw [pcs_goto_of_ne _ (hstart j hj)]
      obtain ⟨hworker, ⟨hpc', hall⟩ | ⟨l, hpc', hlast⟩⟩ := h.starting j hj
      · exact ⟨hworker, Or.inl ⟨hpc', hall.notify⟩⟩
      · exact ⟨hworker, Or.inr ⟨l, hpc', hlast.notify⟩⟩
    · intro j hj
      obtain rfl := Option.some.inj hj
      exact ⟨hrunning, Or.inr (Or.inl (pcs_goto_self _ _ _))⟩
    · intro hstarter _
      obtain ⟨l, hworker, hlast⟩ := h.on hstarter (Or.inr (by simp))
      exact ⟨l, hworker, hlast.notify⟩
  · -- the thread is there, since no `start` is under way
    have hstarter : starter = none := by
      cases hstarter : starter with
      | none => rfl
      | some j =>
          have hnone := horderly hpc j
          rw [(h.starts_iff j).mpr hstarter] at hnone
          simp at hnone
    obtain ⟨l, hworker, hlast⟩ := h.on hstarter (Or.inr (by simp))
    simp only [callerStep, hpc, hworker, Option.elim_some, Option.some.injEq] at hstep
    subst hstep
    refine ⟨some k, h.alive, hidle rfl _, ?_, ?_, ?_, by simp⟩
    · intro j hj
      simp [hstarter] at hj
    · intro j hj
      obtain rfl := Option.some.inj hj
      exact ⟨hrunning, Or.inr (Or.inr ⟨hstarter, l, pcs_goto_self _ _ _, hworker⟩)⟩
    · intro _ _
      exact ⟨l, hworker, hlast⟩
  · -- it is joined
    obtain ⟨l', hworker', hlast⟩ := h.on rfl (Or.inr (by simp))
    obtain rfl : l = l' := Option.some.inj (hworker.symm.trans hworker')
    simp only [callerStep, hpc, Option.ite_none_right_eq_some, Option.some.injEq] at hstep
    obtain ⟨hexited, rfl⟩ := hstep
    refine ⟨none, h.alive, ?_, by simp, by simp, ?_, ?_⟩
    · intro j _ _
      by_cases hjk : j = k
      · rw [hjk, pcs_goto_self]
      · rw [pcs_goto_of_ne _ hjk]
        exact h.idle j (by simp) (by simpa using Ne.symm hjk)
    · intro _ hon
      simp [goto, hrunning] at hon
    · intro _ _
      exact ⟨rfl, rfl, hlast.allExited hexited⟩

/-- `start` wins the exchange. -/
theorem Phase.start (h : Phase m starter stopper) {k : κ} (hrunning : m.running = false)
    (hall : ∀ j, m.pcs j = .idle) :
    Phase ({ m with running := true }.goto k .spawning) (some k) none := by
  have hstopper : stopper = none := by
    cases hstopper : stopper with
    | none => rfl
    | some j =>
        obtain ⟨-, hpc | hpc | ⟨-, i, hpc, -⟩⟩ := h.stopping j hstopper <;> simp [hall j] at hpc
  obtain ⟨-, hworker, hexited⟩ := h.off hstopper hrunning
  refine ⟨h.alive, ?_, ?_, by simp, by simp, by simp [goto]⟩
  · intro j hj _
    rw [pcs_goto_of_ne _ (by rintro rfl; exact hj rfl)]
    exact hall j
  · intro j hj
    obtain rfl := Option.some.inj hj
    exact ⟨hworker, Or.inl ⟨pcs_goto_self _ _ _, hexited⟩⟩

/-- `stop` wins the exchange. -/
theorem Phase.stop (h : Phase m starter stopper) {k : κ} (hrunning : m.running = true)
    (hk : m.pcs k = .idle) :
    Phase ({ m with running := false }.goto k .notifying) starter (some k) := by
  have hstart (j : κ) (hj : starter = some j) : j ≠ k := by
    rintro rfl
    have hstarts := (h.starts_iff j).mpr hj
    simp [hk, ManagerPc.starts] at hstarts
  have hstopper (j : κ) : stopper ≠ some j := by
    intro hj
    simp [(h.stopping j hj).1] at hrunning
  refine ⟨h.alive, ?_, ?_, ?_, ?_, by simp⟩
  · intro j hj hjk
    rw [pcs_goto_of_ne _ (by rintro rfl; exact hjk rfl)]
    exact h.idle j hj (hstopper j)
  · intro j hj
    rw [pcs_goto_of_ne _ (hstart j hj)]
    exact h.starting j hj
  · intro j hj
    obtain rfl := Option.some.inj hj
    exact ⟨rfl, Or.inl (pcs_goto_self _ _ _)⟩
  · intro hstarter _
    exact h.on hstarter (Or.inl hrunning)

theorem Phase.step (h : Phase m starter stopper) {e : ManagerEvent κ} (horderly : m.Orderly e)
    (hstep : m.step e = some m') : ∃ starter' stopper', Phase m' starter' stopper' := by
  cases e with
  | sweeper i =>
      obtain ⟨pc, pc', owner, hpc, hne, rfl, -, -⟩ := sweeper_spec (Or.inl rfl) hstep
      exact ⟨starter, stopper, h.sweeper hpc hne⟩
  | timeout i =>
      obtain ⟨pc, pc', owner, hpc, hne, rfl, -, -⟩ := sweeper_spec (Or.inr rfl) hstep
      exact ⟨starter, stopper, h.sweeper hpc hne⟩
  | start k =>
      rw [TtlManager.step, if_neg (by simp [h.alive]), Option.ite_none_right_eq_some] at hstep
      obtain ⟨-, hstart⟩ := hstep
      obtain rfl := Option.some.inj hstart
      cases hrunning : m.running with
      | true => exact ⟨starter, stopper, h⟩
      | false => exact ⟨some k, none, h.start hrunning (horderly hrunning)⟩
  | stop k =>
      rw [TtlManager.step, if_neg (by simp [h.alive]), Option.ite_none_right_eq_some] at hstep
      obtain ⟨hk, hstop⟩ := hstep
      obtain rfl := Option.some.inj hstop
      cases hrunning : m.running with
      | true => exact ⟨starter, some k, h.stop hrunning hk⟩
      | false => exact ⟨starter, stopper, h⟩
  | caller k =>
      have hcaller : m.callerStep k = some m' := by
        simpa only [TtlManager.step, h.alive, Bool.false_eq_true, if_false] using hstep
      have hidle : m.pcs k ≠ .idle := by
        intro hidle
        simp [callerStep, hidle] at hcaller
      cases hstarts : (m.pcs k).starts with
      | true =>
          obtain rfl := (h.starts_iff k).mp hstarts
          obtain ⟨starter', hphase⟩ := h.start_caller hcaller
          exact ⟨starter', stopper, hphase⟩
      | false =>
          obtain rfl := h.stopper_eq hidle hstarts
          obtain ⟨stopper', hphase⟩ := h.stop_caller horderly hcaller
          exact ⟨starter, stopper', hphase⟩

theorem phase_run {events : List (ManagerEvent κ)}
    (horderly : Along step Orderly ({} : TtlManager κ) events)
    (hrun : run step {} events = some m) : ∃ starter stopper, Phase m starter stopper := by
  refine run_invariant (P := fun _ (m : TtlManager κ) ↦ ∃ starter stopper, Phase m starter stopper)
    ⟨none, none, ?_⟩ ?_ horderly hrun
  · exact ⟨rfl, fun _ _ _ ↦ rfl, by simp, by simp, by simp, by simp [AllExited]⟩
  · intro _ m e m' ⟨starter, stopper, h⟩ hq hstep
    exact h.step hq hstep

omit [DecidableEq κ] in
theorem Phase.none_of_idle (h : Phase m starter stopper) (hall : ∀ k, m.pcs k = .idle) :
    starter = none ∧ stopper = none := by
  constructor
  · cases hstarter : starter with
    | none => rfl
    | some k =>
        have hstarts := (h.starts_iff k).mpr hstarter
        simp [hall k, ManagerPc.starts] at hstarts
  · cases hstopper : stopper with
    | none => rfl
    | some k =>
        obtain ⟨-, hpc | hpc | ⟨-, i, hpc, -⟩⟩ := h.stopping k hstopper <;> simp [hall k] at hpc

omit [DecidableEq κ] in
theorem Phase.exited_or_last (h : Phase m starter stopper) :
    AllExited m.sweepers ∨ ∃ i, Last m.sweepers i := by
  cases hstarter : starter with
  | some k =>
      obtain ⟨-, ⟨-, hall⟩ | ⟨i, -, hlast⟩⟩ := h.starting k hstarter
      · exact Or.inl hall
      · exact Or.inr ⟨i, hlast⟩
  | none =>
      by_cases hon : m.running = true ∨ stopper ≠ none
      · obtain ⟨i, -, hlast⟩ := h.on hstarter hon
        exact Or.inr ⟨i, hlast⟩
      · have hoff : m.running = false ∧ stopper = none := by simpa using hon
        exact Or.inl (h.off hoff.2 hoff.1).2.2

end TtlManager

/-- In every interleaving of `start`, `stop` and the threads of the manager in which no
`stop` overtakes a `start` and no `start` begins in the middle of a `stop`: `worker_` is never
assigned while it holds a thread, at most one thread is in `run`, and when no call is under
way a manager that is stopped has joined all its threads. -/
theorem ttl_manager_joins_threads {κ : Type*} [DecidableEq κ] (events : List (ManagerEvent κ))
    (m : TtlManager κ) (horderly : Along TtlManager.step TtlManager.Orderly {} events)
    (hrun : run TtlManager.step {} events = some m) :
    m.terminated = false ∧
      (∀ (i j : ℕ) (pc pc' : SweeperPc), m.sweepers[i]? = some pc → m.sweepers[j]? = some pc' →
        pc ≠ .exited → pc' ≠ .exited → i = j) ∧
      ((∀ k, m.pcs k = .idle) → m.running = m.worker.isSome ∧
        (m.running = false → ∀ pc ∈ m.sweepers, pc = .exited)) := by
  obtain ⟨starter, stopper, h⟩ := TtlManager.phase_run horderly hrun
  refine ⟨h.alive, ?_, fun hall ↦ ?_⟩
  · intro i j pc pc' hi hj hpc hpc'
    rcases h.exited_or_last with hexited | ⟨l, hlast⟩
    · exact absurd (hexited.eq_exited hi) hpc
    · exact (hlast.eq_of_ne hi hpc).trans (hlast.eq_of_ne hj hpc').symm
  · obtain ⟨hstarter, hstopper⟩ := h.none_of_idle hall
    cases hrunning : m.running with
    | true =>
        obtain ⟨i, hworker, -⟩ := h.on hstarter (Or.inl hrunning)
        exact ⟨by simp [hworker], by simp⟩
    | false =>
        obtain ⟨-, hworker, hexited⟩ := h.off hstopper hrunning
        exact ⟨by simp [hworker], fun _ ↦ hexited⟩

/-- A `stop` comes while `start` has created the thread and not yet stored it; it looks at
`worker_` in time.  Its notification comes before the thread waits. -/
def closeStop : List (ManagerEvent Bool) :=
  [.start false, .caller false, .sweeper 0, .sweeper 0, .stop true]

def closeJoin : List (ManagerEvent Bool) :=
  [.caller true, .caller false, .sweeper 0, .caller true, .timeout 0, .sweeper 0, .sweeper 0,
    .caller true]

theorem ttl_manager_joins_threads_closeStop :
    ∃ m : TtlManager Bool, run TtlManager.step {} (closeStop ++ closeJoin) = some m ∧
      (∀ k, m.pcs k = .idle) ∧ m.running = false ∧ m.worker.isSome = false ∧
      m.sweepers.length = 1 ∧ ∀ pc ∈ m.sweepers, pc = .exited := by
  have hrun : (run TtlManager.step ({} : TtlManager Bool) (closeStop ++ closeJoin)).map (fun m ↦
      decide ((∀ k, m.pcs k = .idle) ∧ m.running = false ∧ m.sweepers.length = 1)) =
      some true := by decide
  obtain ⟨m, hm, hvalues⟩ := Option.map_eq_some_iff.mp hrun
  obtain ⟨hidle, hrunning, hlength⟩ := of_decide_eq_true hvalues
  obtain ⟨-, -, hquiet⟩ := ttl_manager_joins_threads (closeStop ++ closeJoin) m (by decide) hm
  obtain ⟨hworker, hexited⟩ := hquiet hidle
  exact ⟨m, hm, hidle, hrunning, hworker ▸ hrunning, hlength, hexited hrunning⟩

/-- A `stop` that overtakes `start` leaves a thread that nobody joins. -/
example : (run TtlManager.step ({} : TtlManager Bool)
    [.start false, .caller false, .stop true, .caller true, .caller true, .caller false,
      .sweeper 0, .sweeper 0]).map (fun m ↦
        decide ((∀ k, m.pcs k = .idle) ∧ m.running = false ∧ m.worker = some 0)) = some true := by
  decide

/-! ## `stop` returns -/

/-- The event is the begin of a call. -/
def ManagerEvent.begins {κ : Type*} : ManagerEvent κ → Bool
  | .start _ | .stop _ => true
  | .caller _ | .sweeper _ | .timeout _ => false

namespace TtlManager

variable {κ : Type*} {m m' : TtlManager κ} {starter stopper : Option κ}

/-- A thread is between `lock` and `unlock`. -/
def Inside (sweepers : List SweeperPc) (i : ℕ) : Prop :=
  ∃ pc, sweepers[i]? = some pc ∧ pc.holds = true

/-- The mutex is owned by a thread between `lock` and `unlock`. -/
def Held (m : TtlManager κ) : Prop := Mutex.Occupied m.owner (Inside m.sweepers)

/-- A step in order that begins no call. -/
def Prompt (m : TtlManager κ) (e : ManagerEvent κ) : Prop :=
  e.begins = false ∧ m.Orderly e

instance [Fintype κ] (m : TtlManager κ) (e : ManagerEvent κ) : Decidable (m.Prompt e) :=
  inferInstanceAs (Decidable (_ ∧ _))

def work [Fintype κ] (m : TtlManager κ) : ℕ :=
  Threads.total ManagerPc.work m.pcs + (m.sweepers.map SweeperPc.work).sum

/-- A thread moves. -/
theorem Held.set {i : ℕ} {pc pc' : SweeperPc} {owner : Option ℕ} (h : m.Held)
    (hi : m.sweepers[i]? = some pc)
    (howner : owner = none ∨ owner = some i ∧ pc'.holds = true ∨
      owner = m.owner ∧ (pc.holds = true → pc'.holds = true)) :
    Held { m with sweepers := m.sweepers.set i pc', owner := owner } := by
  obtain ⟨hlt, -⟩ := List.getElem?_eq_some_iff.mp hi
  have hself : pc'.holds = true → Inside (m.sweepers.set i pc') i :=
    fun hholds ↦ ⟨pc', List.getElem?_set_self hlt, hholds⟩
  rcases howner with rfl | ⟨rfl, hholds⟩ | ⟨rfl, hholds⟩
  · exact Mutex.Occupied.none _
  · exact Mutex.Occupied.acquire (hself hholds)
  · refine Mutex.Occupied.move h (t := i) (fun hin ↦ ?_) fun j hj hin ↦ ?_
    · obtain ⟨pc₁, hpc₁, hholds₁⟩ := hin
      obtain rfl : pc = pc₁ := Option.some.inj (hi.symm.trans hpc₁)
      exact hself (hholds hholds₁)
    · obtain ⟨pc₁, hpc₁, hholds₁⟩ := hin
      exact ⟨pc₁, (List.getElem?_set_ne (Ne.symm hj)).trans hpc₁, hholds₁⟩

variable [DecidableEq κ]

/-- A step of a caller leaves the mutex alone. -/
theorem Held.caller {k : κ} (h : m.Held) (hstep : m.callerStep k = some m') : m'.Held := by
  unfold callerStep at hstep
  split at hstep
  · simp at hstep
  · obtain rfl := Option.some.inj hstep
    refine Mutex.Occupied.keep h fun i ⟨pc, hpc, hholds⟩ ↦ ?_
    obtain ⟨hlt, -⟩ := List.getElem?_eq_some_iff.mp hpc
    exact ⟨pc, (List.getElem?_append_left hlt).trans hpc, hholds⟩
  · split at hstep
    · obtain rfl := Option.some.inj hstep
      exact h
    · obtain rfl := Option.some.inj hstep
      exact h
  · obtain rfl := Option.some.inj hstep
    refine Mutex.Occupied.keep h fun i ⟨pc, hpc, hholds⟩ ↦ ?_
    refine ⟨pc.notify, by simp [goto, hpc], ?_⟩
    cases pc <;> simp [SweeperPc.holds, SweeperPc.notify] at hholds ⊢
  · obtain rfl := Option.some.inj hstep
    exact h
  · obtain ⟨-, hjoin⟩ := Option.ite_none_right_eq_some.mp hstep
    obtain rfl := Option.some.inj hjoin
    exact h

theorem Held.step {e : ManagerEvent κ} (h : m.Held) (hstep : m.step e = some m') : m'.Held := by
  cases e with
  | sweeper i =>
      obtain ⟨pc, pc', owner, hpc, -, rfl, howner, -⟩ := sweeper_spec (Or.inl rfl) hstep
      exact h.set hpc howner
  | timeout i =>
      obtain ⟨pc, pc', owner, hpc, -, rfl, howner, -⟩ := sweeper_spec (Or.inr rfl) hstep
      exact h.set hpc howner
  | start k =>
      rw [TtlManager.step, Option.ite_none_left_eq_some, Option.ite_none_right_eq_some] at hstep
      obtain ⟨-, -, hstart⟩ := hstep
      obtain rfl := Option.some.inj hstart
      split <;> exact h
  | stop k =>
      rw [TtlManager.step, Option.ite_none_left_eq_some, Option.ite_none_right_eq_some] at hstep
      obtain ⟨-, -, hstop⟩ := hstep
      obtain rfl := Option.some.inj hstop
      split <;> exact h
  | caller k =>
      rw [TtlManager.step, Option.ite_none_left_eq_some] at hstep
      exact h.caller hstep.2

theorem held_run {events : List (ManagerEvent κ)} (hrun : run step {} events = some m) :
    m.Held := by
  refine run_invariant (P := fun _ (m : TtlManager κ) ↦ m.Held) ?_ ?_
    (along_of_forall (fun _ _ ↦ trivial) _ _) hrun
  · exact Mutex.Occupied.none _
  · intro _ m e m' h _ hstep
    exact h.step hstep

/-! ### Steps left -/

omit [DecidableEq κ] in
theorem work_set_lt [Fintype κ] {i : ℕ} {pc pc' : SweeperPc} {owner : Option ℕ}
    (hi : m.sweepers[i]? = some pc) (hlower : pc'.work < pc.work) :
    work { m with sweepers := m.sweepers.set i pc', owner := owner } < m.work :=
  Nat.add_lt_add_left (sum_set_lt hi hlower) _

theorem work_goto_lt [Fintype κ] {n : TtlManager κ} {k : κ} {pc : ManagerPc}
    (hpcs : n.pcs = m.pcs)
    (hlower : (n.sweepers.map SweeperPc.work).sum + pc.work <
      (m.sweepers.map SweeperPc.work).sum + (m.pcs k).work) :
    (n.goto k pc).work < m.work := by
  have htotal := Threads.total_update ManagerPc.work m.pcs k pc
  simp only [work, goto, hpcs]
  omega

theorem sum_work_notify (sweepers : List SweeperPc) :
    ((sweepers.map SweeperPc.notify).map SweeperPc.work).sum =
      (sweepers.map SweeperPc.work).sum := by
  rw [List.map_map]
  congr 2
  funext pc
  cases pc <;> simp [SweeperPc.notify, SweeperPc.work]

/-- A call comes closer to its end. -/
theorem Phase.work_caller [Fintype κ] (h : Phase m starter stopper) {k : κ}
    (hstep : m.callerStep k = some m') : m'.work < m.work := by
  unfold callerStep at hstep
  split at hstep
  · simp at hstep
  · -- the new thread has its steps from the call
    rename_i hpc
    obtain rfl := Option.some.inj hstep
    exact work_goto_lt rfl (by simp [hpc, ManagerPc.work, SweeperPc.work, add_assoc])
  · rename_i hpc
    have hworker := (h.starting k ((h.starts_iff k).mp (by simp [hpc, ManagerPc.starts]))).1
    rw [hworker, if_neg (by simp)] at hstep
    obtain rfl := Option.some.inj hstep
    exact work_goto_lt rfl (by simp [hpc, ManagerPc.work])
  · rename_i hpc
    obtain rfl := Option.some.inj hstep
    refine work_goto_lt rfl ?_
    rw [sum_work_notify, hpc]
    simp [ManagerPc.work]
  · rename_i hpc
    obtain rfl := Option.some.inj hstep
    refine work_goto_lt rfl ?_
    cases m.worker <;> simp [hpc, ManagerPc.work]
  · rename_i hpc
    obtain ⟨-, hjoin⟩ := Option.ite_none_right_eq_some.mp hstep
    obtain rfl := Option.some.inj hjoin
    exact work_goto_lt rfl (by simp [hpc, ManagerPc.work])

/-- Only `start` sets `running_`. -/
theorem running_caller {k : κ} (hstep : m.callerStep k = some m') : m'.running = m.running := by
  unfold callerStep at hstep
  split at hstep
  · simp at hstep
  · obtain rfl := Option.some.inj hstep
    simp [goto]
  · split at hstep <;> obtain rfl := Option.some.inj hstep <;> simp [goto]
  · obtain rfl := Option.some.inj hstep
    simp [goto]
  · obtain rfl := Option.some.inj hstep
    simp [goto]
  · obtain ⟨-, hjoin⟩ := Option.ite_none_right_eq_some.mp hstep
    obtain rfl := Option.some.inj hjoin
    simp [goto]

/-- A manager that is being stopped. -/
structure Stopping (m : TtlManager κ) : Prop where
  phase : ∃ starter stopper, Phase m starter stopper
  running : m.running = false
  held : m.Held

/-- Every step that begins no call leaves the manager stopping, with less to do. -/
theorem Stopping.step [Fintype κ] {e : ManagerEvent κ} (h : m.Stopping) (hprompt : m.Prompt e)
    (hstep : m.step e = some m') : m'.Stopping ∧ m'.work < m.work := by
  obtain ⟨starter, stopper, hphase⟩ := h.phase
  have hphase' := hphase.step hprompt.2 hstep
  have hheld := h.held.step hstep
  cases e with
  | sweeper i =>
      obtain ⟨pc, pc', owner, hpc, -, rfl, -, hlower⟩ := sweeper_spec (Or.inl rfl) hstep
      exact ⟨⟨hphase', h.running, hheld⟩, work_set_lt hpc (hlower h.running)⟩
  | timeout i =>
      obtain ⟨pc, pc', owner, hpc, -, rfl, -, hlower⟩ := sweeper_spec (Or.inr rfl) hstep
      exact ⟨⟨hphase', h.running, hheld⟩, work_set_lt hpc (hlower h.running)⟩
  | start k => simp [Prompt, ManagerEvent.begins] at hprompt
  | stop k => simp [Prompt, ManagerEvent.begins] at hprompt
  | caller k =>
      rw [TtlManager.step, Option.ite_none_left_eq_some] at hstep
      exact ⟨⟨hphase', (running_caller hstep.2).trans h.running, hheld⟩, hphase.work_caller hstep.2⟩

/-! ### What is left when nothing can move -/

/-- A thread in `run` that has the mutex, or finds it free, can move; `wait_for` ends also
without a notification. -/
theorem thread_moves {i : ℕ} {pc : SweeperPc} (halive : m.terminated = false)
    (hi : m.sweepers[i]? = some pc) (hpc : pc ≠ .exited)
    (hmutex : pc.holds = true ∨ m.owner = none) : ¬ Blocked step Prompt m := by
  intro hblocked
  have hsweeper := hblocked (.sweeper i) ⟨rfl, trivial⟩
  have htimeout := hblocked (.timeout i) ⟨rfl, trivial⟩
  cases pc <;> simp_all [TtlManager.step, sweeperStep, SweeperPc.holds]

theorem Stopping.exited_of_blocked (h : m.Stopping) (hblocked : Blocked TtlManager.step Prompt m) :
    AllExited m.sweepers := by
  obtain ⟨starter, stopper, hphase⟩ := h.phase
  have hfree : m.owner = none := by
    by_contra howner
    obtain ⟨i, hi⟩ := Option.ne_none_iff_exists'.mp howner
    obtain ⟨pc, hpc, hholds⟩ := h.held i hi
    have hne : pc ≠ .exited := by
      rintro rfl
      simp [SweeperPc.holds] at hholds
    exact thread_moves hphase.alive hpc hne (Or.inl hholds) hblocked
  intro pc hmem
  obtain ⟨i, hi⟩ := List.mem_iff_getElem?.mp hmem
  by_contra hne
  exact thread_moves hphase.alive hi hne (Or.inr hfree) hblocked

theorem Stopping.idle_of_blocked (h : m.Stopping) (hblocked : Blocked TtlManager.step Prompt m)
    (k : κ) : m.pcs k = .idle := by
  obtain ⟨starter, stopper, hphase⟩ := h.phase
  have hexited := h.exited_of_blocked hblocked
  have hcaller (j : κ) (horderly : m.Orderly (.caller j)) : m.callerStep j = none := by
    simpa [TtlManager.step, hphase.alive] using hblocked (.caller j) ⟨rfl, horderly⟩
  -- a `start` is never held up, so that `stop` may look at `worker_`
  have hstarts (j : κ) : (m.pcs j).starts = false := by
    cases hpc : m.pcs j with
    | idle | notifying | looking | joining => simp [ManagerPc.starts]
    | spawning =>
        have hnone := hcaller j (by simp [Orderly, hpc])
        simp [callerStep, hpc] at hnone
    | assigning i =>
        have hnone := hcaller j (by simp [Orderly, hpc])
        simp only [callerStep, hpc] at hnone
        split at hnone <;> simp at hnone
  have hnone := hcaller k fun _ ↦ hstarts
  cases hpc : m.pcs k with
  | idle => rfl
  | spawning => simp [callerStep, hpc] at hnone
  | assigning i => simpa [ManagerPc.starts, hpc] using hstarts k
  | notifying => simp [callerStep, hpc] at hnone
  | looking => simp [callerStep, hpc] at hnone
  | joining i =>
      -- the thread that it joins has left `run`
      have hstopper := hphase.stopper_eq (by simp [hpc]) (hstarts k)
      obtain ⟨-, hpc' | hpc' | ⟨hstarter, l, hpc', hworker⟩⟩ := hphase.stopping k hstopper
      · simp [hpc] at hpc'
      · simp [hpc] at hpc'
      · obtain ⟨l', hworker', hlast⟩ := hphase.on hstarter (Or.inr (by simp [hstopper]))
        obtain rfl : i = l := by simpa [hpc] using hpc'
        obtain rfl : i = l' := Option.some.inj (hworker.symm.trans hworker')
        have hlt : i < m.sweepers.length := by have := hlast.1; omega
        have hleft : m.sweepers[i]? = some .exited := by
          rw [List.getElem?_eq_getElem hlt, hexited _ (List.getElem_mem hlt)]
        simp [callerStep, hpc, hleft] at hnone

end TtlManager

/-- Once `running_` is false, every further step of the calls that are under way and of the
threads brings the manager closer to rest, also where the notification of `stop` comes before
the thread waits.  When nothing can move, the calls have returned and the threads are joined. -/
theorem ttl_manager_comes_to_rest {κ : Type*} [Fintype κ] [DecidableEq κ]
    (events more : List (ManagerEvent κ)) (m m' : TtlManager κ)
    (horderly : Along TtlManager.step TtlManager.Orderly {} events)
    (hrun : run TtlManager.step {} events = some m) (hrunning : m.running = false)
    (hprompt : Along TtlManager.step TtlManager.Prompt m more)
    (hmore : run TtlManager.step m more = some m') :
    more.length + m'.work ≤ m.work ∧
      (Blocked TtlManager.step TtlManager.Prompt m' →
        (∀ k, m'.pcs k = .idle) ∧ m'.worker = none ∧ ∀ pc ∈ m'.sweepers, pc = .exited) := by
  have hstopping : m.Stopping :=
    ⟨TtlManager.phase_run horderly hrun, hrunning, TtlManager.held_run hrun⟩
  have hstopping' : m'.Stopping :=
    run_invariant (P := fun _ (m : TtlManager κ) ↦ m.Stopping) hstopping
      (fun _ _ _ _ h hq hstep ↦ (h.step hq hstep).1) hprompt hmore
  refine ⟨?_, fun hblocked ↦ ?_⟩
  · exact length_add_le (fun _ _ _ h hq hstep ↦ (TtlManager.Stopping.step h hq hstep).1)
      (fun _ _ _ h hq hstep ↦ (TtlManager.Stopping.step h hq hstep).2) hstopping hprompt hmore
  · obtain ⟨starter, stopper, hphase⟩ := hstopping'.phase
    have hidle := hstopping'.idle_of_blocked hblocked
    obtain ⟨-, hworker, hexited⟩ :=
      hphase.off (hphase.none_of_idle hidle).2 hstopping'.running
    exact ⟨hidle, hworker, hexited⟩

theorem ttl_manager_comes_to_rest_closeStop :
    ∃ m m' : TtlManager Bool, run TtlManager.step {} closeStop = some m ∧
      run TtlManager.step m closeJoin = some m' ∧
      Blocked TtlManager.step TtlManager.Prompt m' ∧ closeJoin.length + m'.work ≤ m.work ∧
      m'.sweepers.length = 1 ∧ m'.worker = none := by
  have hsummary : (run TtlManager.step ({} : TtlManager Bool) closeStop).bind (fun m ↦
      (run TtlManager.step m closeJoin).map fun m' ↦
        (m.running, decide (Along TtlManager.step TtlManager.Prompt m closeJoin),
          m'.sweepers.length,
          decide ((∀ k, m'.pcs k = .idle) ∧ ∀ pc ∈ m'.sweepers, pc = .exited))) =
      some (false, true, 1, true) := by decide +kernel
  obtain ⟨m, hrun, hm⟩ := Option.bind_eq_some_iff.mp hsummary
  obtain ⟨m', hmore, hm'⟩ := Option.map_eq_some_iff.mp hm
  simp only [Prod.mk.injEq, decide_eq_true_eq] at hm'
  obtain ⟨hrunning, hprompt, hlength, hidle, hexited⟩ := hm'
  have hblocked : Blocked TtlManager.step TtlManager.Prompt m' := by
    intro e he
    cases e with
    | start k => simp [TtlManager.Prompt, ManagerEvent.begins] at he
    | stop k => simp [TtlManager.Prompt, ManagerEvent.begins] at he
    | caller k => simp [TtlManager.step, TtlManager.callerStep, hidle k]
    | sweeper i | timeout i =>
        cases hpc : m'.sweepers[i]? with
        | none => simp [TtlManager.step, TtlManager.sweeperStep, hpc]
        | some pc =>
            obtain rfl := hexited pc (List.mem_of_getElem? hpc)
            simp [TtlManager.step, TtlManager.sweeperStep, hpc]
  have hrest :=
    ttl_manager_comes_to_rest closeStop closeJoin m m' (by decide) hrun hrunning hprompt hmore
  exact ⟨m, m', hrun, hmore, hblocked, hrest.1, hlength, (hrest.2 hblocked).2.1⟩

end ByteCacheDB
