import ByteCacheDB.Lib.Progress
import ByteCacheDB.ThreadPool

/-!
# The thread pool comes to rest

No notification is lost: a queued task has a worker awake or a `notify_one` to
come, and a worker that sleeps although the pool is stopping has a `notify_all`
to come.  Without new calls, and without wake-ups that nobody asked for, the pool
therefore runs until all calls have returned and all tasks are finished.
-/

namespace ByteCacheDB

open Runs Threads

/-- The worker is neither blocked in `wait` nor gone. -/
def WorkerPc.Awake (pc : WorkerPc) : Prop := pc ≠ .waiting ∧ pc ≠ .exited

/-- How many steps are left for a worker until it sleeps, if no task comes. -/
def WorkerPc.work : WorkerPc → ℕ
  | .exited => 0
  | .waiting => 1
  | .popping => 2
  | .checking => 3
  | .waking | .entering => 4
  | .running _ => 5

/-- How many steps are left for a call, with those it causes: a `notify_one` wakes
one worker and a `notify_all` up to `n`. -/
def CallerPc.work (n : ℕ) : CallerPc → ℕ
  | .idle => 0
  | .joining index => (n - index) + 1
  | .enqueueNotifying _ => 4
  | .enqueueChecking _ => 9
  | .enqueueLocking _ => 10
  | .shutdownNotifying => 4 * n + 2
  | .shutdownChecking => 4 * n + 3
  | .shutdownLocking => 4 * n + 4

/-- The thread has set `stopping_` and wakes or joins the workers. -/
def CallerPc.Stops (pc : CallerPc) : Prop := pc = .shutdownNotifying ∨ ∃ index, pc = .joining index

namespace ThreadPool

variable {n : ℕ} {ι : Type*}

/-- The events that need no new call and no wake-up without a notification. -/
def Genuine (s : ThreadPool n ι) : PoolEvent n ι → Prop
  | .worker w => s.workers w ≠ .waiting
  | .call _ _ => False
  | .caller _ _ => True

instance (s : ThreadPool n ι) : (e : PoolEvent n ι) → Decidable (s.Genuine e)
  | .worker w => inferInstanceAs (Decidable (s.workers w ≠ .waiting))
  | .call _ _ => inferInstanceAs (Decidable False)
  | .caller _ _ => inferInstanceAs (Decidable True)

/-- A bound on the genuine steps to come. -/
def work [Fintype ι] (s : ThreadPool n ι) : ℕ :=
  4 * s.tasks.length + total WorkerPc.work s.workers + total (CallerPc.work n) s.callers

variable [DecidableEq ι] {s s' : ThreadPool n ι}

/-! ## Every genuine step lowers the work left -/

section Work

variable [Fintype ι]

omit [DecidableEq ι] in
theorem work_worker {w : Fin n} {pc : WorkerPc} {mutex : Option (Fin n ⊕ ι)}
    {taken finished : List ℕ} {tasks : List ℕ}
    (h : 4 * tasks.length + pc.work < 4 * s.tasks.length + (s.workers w).work) :
    work { s with
      mutex := mutex
      tasks := tasks
      workers := Function.update s.workers w pc
      taken := taken
      finished := finished } < s.work := by
  have hsum := total_update WorkerPc.work s.workers w pc
  simp only [work]
  omega

omit [DecidableEq ι] in
theorem work_workerStep {w : Fin n} (hawake : s.workers w ≠ .waiting)
    (h : s.workerStep w = some s') : s'.work < s.work := by
  unfold workerStep at h
  split at h
  case h_4 hpc => exact absurd hpc hawake
  case h_7 => simp at h
  all_goals rename_i hpc
  case h_3 =>
      split at h
      all_goals
        obtain rfl := Option.some.inj h
        exact work_worker (by simp [hpc, WorkerPc.work])
  case h_5 =>
      split at h
      · obtain rfl := Option.some.inj h
        exact work_worker (by simp [hpc, WorkerPc.work])
      · split at h
        · simp at h
        · rename_i task rest htasks
          obtain rfl := Option.some.inj h
          apply work_worker
          rw [hpc, htasks, List.length_cons]
          simp only [WorkerPc.work]
          omega
  case h_6 =>
      obtain rfl := Option.some.inj h
      exact work_worker (by simp [hpc, WorkerPc.work])
  all_goals
    simp only [Option.isNone_iff_eq_none, Option.ite_none_right_eq_some, Option.some.injEq] at h
    obtain ⟨-, rfl⟩ := h
    exact work_worker (by simp [hpc, WorkerPc.work])

theorem work_caller {i : ι} {pc : CallerPc} {workers : Fin n → WorkerPc}
    {mutex : Option (Fin n ⊕ ι)} {stopping : Bool} {tasks accepted returned refused : List ℕ}
    (h : 4 * tasks.length + total WorkerPc.work workers + pc.work n <
      4 * s.tasks.length + total WorkerPc.work s.workers + (s.callers i).work n) :
    work { s with
      mutex := mutex
      tasks := tasks
      stopping := stopping
      workers := workers
      callers := Function.update s.callers i pc
      accepted := accepted
      returned := returned
      refused := refused } < s.work := by
  have hsum := total_update (CallerPc.work n) s.callers i pc
  simp only [work]
  omega

theorem work_notifyOne {workers workers' : Fin n → WorkerPc} {woken : Option (Fin n)}
    (h : notifyOne workers woken = some workers') :
    total WorkerPc.work workers' ≤ total WorkerPc.work workers + 3 := by
  cases woken with
  | none =>
      simp only [notifyOne, Option.ite_none_right_eq_some, Option.some.injEq] at h
      rw [h.2]
      omega
  | some w =>
      simp only [notifyOne, Option.ite_none_right_eq_some, Option.some.injEq] at h
      obtain ⟨hw, rfl⟩ := h
      have hsum := total_update WorkerPc.work workers w .waking
      rw [hw] at hsum
      simp only [WorkerPc.work] at hsum ⊢
      omega

theorem work_notifyAll (workers : Fin n → WorkerPc) :
    total WorkerPc.work (notifyAll workers) ≤ total WorkerPc.work workers + 3 * n := by
  have hone : ∀ w, (notifyAll workers w).work ≤ (workers w).work + 3 := by
    intro w
    unfold notifyAll
    split
    · rename_i hw
      rw [hw]
      decide
    · omega
  calc total WorkerPc.work (notifyAll workers)
      ≤ ∑ w, ((workers w).work + 3) := Finset.sum_le_sum fun w _ ↦ hone w
    _ = total WorkerPc.work workers + 3 * n := by
        rw [Finset.sum_add_distrib, Finset.sum_const, Finset.card_univ, Fintype.card_fin,
          smul_eq_mul, mul_comm n]
        rfl

theorem work_callerStep {i : ι} {woken : Option (Fin n)} (h : s.callerStep i woken = some s') :
    s'.work < s.work := by
  unfold callerStep at h
  split at h
  case h_1 => simp at h
  case h_4 task hpc =>
      obtain ⟨workers, hworkers, rfl⟩ := Option.map_eq_some_iff.mp h
      have hwoken := work_notifyOne hworkers
      apply work_caller
      simp only [hpc, CallerPc.work]
      omega
  case h_7 hpc =>
      obtain rfl := Option.some.inj h
      have hwoken := work_notifyAll s.workers
      apply work_caller
      simp only [hpc, CallerPc.work]
      omega
  case h_3 task hpc =>
      split at h
      all_goals
        obtain rfl := Option.some.inj h
        apply work_caller
        simp only [hpc, CallerPc.work, List.length_append, List.length_singleton]
        omega
  case h_6 hpc =>
      split at h
      all_goals
        obtain rfl := Option.some.inj h
        apply work_caller
        simp only [hpc, CallerPc.work]
        omega
  case h_8 index hpc =>
      split at h
      · simp only [Option.ite_none_right_eq_some, Option.some.injEq] at h
        obtain ⟨-, rfl⟩ := h
        apply work_caller
        simp only [hpc, CallerPc.work]
        omega
      · obtain rfl := Option.some.inj h
        apply work_caller
        simp [hpc, CallerPc.work]
  all_goals
    rename_i hpc
    simp only [Option.isNone_iff_eq_none, Option.ite_none_right_eq_some, Option.some.injEq] at h
    obtain ⟨-, rfl⟩ := h
    apply work_caller
    simp [hpc, CallerPc.work]

theorem work_step {e : PoolEvent n ι} (hgenuine : s.Genuine e) (h : s.step e = some s') :
    s'.work < s.work := by
  cases e with
  | worker w => exact work_workerStep hgenuine h
  | call i call => exact hgenuine.elim
  | caller i woken => exact work_callerStep h

end Work

/-! ## No notification is lost -/

/-- Whoever has the mutex is inside; a queued task and a sleeper that should leave
are going to be noticed. -/
structure Alert (s : ThreadPool n ι) : Prop where
  held : ∀ t, s.mutex = some t → s.Holds t
  noticed : s.tasks ≠ [] →
    (∃ w, (s.workers w).Awake) ∨ ∃ i task, s.callers i = .enqueueNotifying task
  released : s.stopping = true → ∀ w, s.workers w = .waiting → ∃ i, s.callers i = .shutdownNotifying
  stopped : ∀ i, (s.callers i).Stops → s.stopping = true

omit [DecidableEq ι] in
theorem held_of_worker {w : Fin n} {pc : WorkerPc} (h : Alert s) (hmutex : s'.mutex = s.mutex)
    (hworkers : s'.workers = Function.update s.workers w pc) (hcallers : s'.callers = s.callers)
    (hself : s.Holds (.inl w) → s'.Holds (.inl w)) (t : Fin n ⊕ ι) (ht : s'.mutex = some t) :
    s'.Holds t := by
  have hold := h.held t (hmutex ▸ ht)
  by_cases htw : t = .inl w
  · rw [htw] at hold ⊢
    exact hself hold
  · have hback : s.workers = Function.update s'.workers w (s.workers w) := by simp [hworkers]
    exact holds_of_update_worker hback hcallers.symm t htw hold

theorem held_of_caller {i : ι} {pc : CallerPc} (h : Alert s) (hmutex : s'.mutex = s.mutex)
    (hworkers : s'.workers = s.workers) (hcallers : s'.callers = Function.update s.callers i pc)
    (hself : ¬s.Holds (.inr i)) (t : Fin n ⊕ ι) (ht : s'.mutex = some t) : s'.Holds t := by
  have hold := h.held t (hmutex ▸ ht)
  by_cases hti : t = .inr i
  · rw [hti] at hold
    exact absurd hold hself
  · have hback : s.callers = Function.update s'.callers i (s.callers i) := by simp [hcallers]
    exact holds_of_update_caller hworkers.symm hback t hti hold

omit [DecidableEq ι] in
/-- A worker moves: it stays awake, or it leaves an empty queue behind. -/
theorem Alert.of_worker {w : Fin n} {pc : WorkerPc} (h : Alert s)
    (hheld : ∀ t, s'.mutex = some t → s'.Holds t) (hstopping : s'.stopping = s.stopping)
    (hworkers : s'.workers = Function.update s.workers w pc) (hcallers : s'.callers = s.callers)
    (hnoticed : pc.Awake ∨ s'.tasks = []) (hasleep : pc = .waiting → s.stopping = false) :
    Alert s' := by
  refine ⟨hheld, fun htasks ↦ Or.inl ⟨w, ?_⟩, fun hstop v hv ↦ ?_,
    fun i hi ↦ hstopping ▸ h.stopped i (hcallers ▸ hi)⟩
  · rw [hworkers, Function.update_self]
    exact hnoticed.resolve_right htasks
  · rw [hstopping] at hstop
    rw [hworkers, Function.update_apply] at hv
    rw [hcallers]
    split at hv
    · rw [hasleep hv] at hstop
      simp at hstop
    · exact h.released hstop v hv

omit [DecidableEq ι] in
theorem alert_workerStep {w : Fin n} (h : Alert s) (hstep : s.workerStep w = some s') :
    Alert s' := by
  have hlock : ∀ {mutex} {workers : Fin n → WorkerPc} {t : Fin n ⊕ ι},
      mutex = some (.inl w) → workers w = .checking → mutex = some t →
        Holds { s with mutex := mutex, workers := workers } t := by
    rintro mutex workers t hmutex hpc ht
    obtain rfl := Option.some.inj (hmutex.symm.trans ht)
    exact Or.inl hpc
  unfold workerStep at hstep
  split at hstep
  case h_3 hpc =>
      split at hstep
      · obtain rfl := Option.some.inj hstep
        refine h.of_worker ?_ rfl rfl rfl (Or.inl (by simp [WorkerPc.Awake])) (by simp)
        exact held_of_worker h rfl rfl rfl fun _ ↦ Or.inr (by simp)
      · rename_i hidle
        simp only [Bool.or_eq_true, Bool.not_eq_eq_eq_not, Bool.not_true, not_or,
          Bool.not_eq_true, Bool.not_eq_false, List.isEmpty_iff] at hidle
        obtain rfl := Option.some.inj hstep
        exact h.of_worker (by simp) rfl rfl rfl (Or.inr hidle.2) fun _ ↦ hidle.1
  case h_4 hpc =>
      obtain rfl := Option.some.inj hstep
      refine h.of_worker ?_ rfl rfl rfl (Or.inl (by simp [WorkerPc.Awake])) (by simp)
      exact held_of_worker h rfl rfl rfl (by simp [Holds, hpc])
  case h_5 hpc =>
      split at hstep
      · rename_i hexit
        simp only [Bool.and_eq_true, List.isEmpty_iff] at hexit
        obtain rfl := Option.some.inj hstep
        exact h.of_worker (by simp) rfl rfl rfl (Or.inr hexit.2) (by simp)
      · split at hstep
        · simp at hstep
        · obtain rfl := Option.some.inj hstep
          exact h.of_worker (by simp) rfl rfl rfl (Or.inl (by simp [WorkerPc.Awake])) (by simp)
  case h_6 task hpc =>
      obtain rfl := Option.some.inj hstep
      refine h.of_worker ?_ rfl rfl rfl (Or.inl (by simp [WorkerPc.Awake])) (by simp)
      exact held_of_worker h rfl rfl rfl (by simp [Holds, hpc])
  case h_7 => simp at hstep
  all_goals
    simp only [Option.ite_none_right_eq_some, Option.some.injEq] at hstep
    obtain ⟨-, rfl⟩ := hstep
    refine h.of_worker ?_ rfl rfl rfl (Or.inl (by simp [WorkerPc.Awake])) (by simp)
    exact fun t ht ↦ hlock rfl (Function.update_self ..) ht

/-- A call moves: a task that it queues is noticed by its own `notify_one`, and
so are the sleepers by the `notify_all` of the call that stops the pool. -/
theorem Alert.of_caller {i : ι} {pc : CallerPc} (h : Alert s)
    (hheld : ∀ t, s'.mutex = some t → s'.Holds t) (hworkers : s'.workers = s.workers)
    (hcallers : s'.callers = Function.update s.callers i pc)
    (htasks : s'.tasks = s.tasks ∨ ∃ task, pc = .enqueueNotifying task)
    (hstopping : s'.stopping = s.stopping ∨ s'.stopping = true ∧ pc = .shutdownNotifying)
    (hstops : pc.Stops → s'.stopping = true)
    (hone : ∀ task, s.callers i ≠ .enqueueNotifying task)
    (hall : s.callers i ≠ .shutdownNotifying) : Alert s' := by
  have hkept : ∀ j, s.callers j ≠ s.callers i → s'.callers j = s.callers j := by
    intro j hj
    rw [hcallers, Function.update_of_ne]
    rintro rfl
    exact hj rfl
  have hself : s'.callers i = pc := by rw [hcallers, Function.update_self]
  refine ⟨hheld, fun hne ↦ ?_, fun hstop w hw ↦ ?_, fun j hj ↦ ?_⟩
  · rcases htasks with hsame | ⟨task, hpc⟩
    · rw [hsame] at hne
      rw [hworkers]
      refine (h.noticed hne).imp_right ?_
      rintro ⟨j, task, hj⟩
      exact ⟨j, task, (hkept j (hj ▸ (hone task).symm)).trans hj⟩
    · exact Or.inr ⟨i, task, hself.trans hpc⟩
  · rcases hstopping with hsame | hpc
    · rw [hsame] at hstop
      rw [hworkers] at hw
      obtain ⟨j, hj⟩ := h.released hstop w hw
      exact ⟨j, (hkept j (hj ▸ hall.symm)).trans hj⟩
    · exact ⟨i, hself.trans hpc.2⟩
  · rw [hcallers, Function.update_apply] at hj
    split at hj
    · exact hstops hj
    · exact hstopping.elim (fun hsame ↦ hsame ▸ h.stopped j hj) And.left

theorem awake_of_notifyOne {workers workers' : Fin n → WorkerPc} {woken : Option (Fin n)}
    (h : notifyOne workers woken = some workers') {w : Fin n} (hw : workers w ≠ .exited) :
    ∃ v, (workers' v).Awake := by
  cases woken with
  | none =>
      simp only [notifyOne, Option.ite_none_right_eq_some, Option.some.injEq] at h
      exact ⟨w, h.2 ▸ ⟨h.1 w, hw⟩⟩
  | some v =>
      simp only [notifyOne, Option.ite_none_right_eq_some, Option.some.injEq] at h
      refine ⟨v, ?_⟩
      rw [← h.2, Function.update_self]
      simp [WorkerPc.Awake]

theorem held_of_wake {i : ι} {pc : CallerPc} (h : Alert s) (hmutex : s'.mutex = s.mutex)
    (hworkers : ∀ w, s'.workers w = s.workers w ∨ s.workers w = .waiting ∧ s'.workers w = .waking)
    (hcallers : s'.callers = Function.update s.callers i pc) (hself : ¬s.Holds (.inr i))
    (t : Fin n ⊕ ι) (ht : s'.mutex = some t) : s'.Holds t := by
  have hold := h.held t (hmutex ▸ ht)
  cases t with
  | inl w =>
      rcases hworkers w with hsame | ⟨hwaiting, -⟩
      · rwa [Holds, hsame]
      · simp [Holds, hwaiting] at hold
  | inr j =>
      rw [Holds, hcallers, Function.update_of_ne]
      · exact hold
      · rintro rfl
        exact hself hold

theorem alert_notifyOne {i : ι} {task : ℕ} {woken : Option (Fin n)} {workers : Fin n → WorkerPc}
    (hpos : 0 < n) (hdrained : Drained s) (h : Alert s)
    (hpc : s.callers i = .enqueueNotifying task)
    (hwoken : notifyOne s.workers woken = some workers) :
    Alert { s with
      workers := workers
      callers := Function.update s.callers i .idle
      returned := s.returned ++ [task] } := by
  have hspec := notifyOne_spec hwoken
  refine ⟨held_of_wake h rfl hspec rfl (by simp [Holds, hpc]), fun htasks ↦ ?_,
    fun hstop w hw ↦ ?_, fun j hj ↦ ?_⟩
  · -- nobody has left while a task is queued, so somebody is there to be woken
    exact Or.inl (awake_of_notifyOne hwoken (w := ⟨0, hpos⟩) fun hexited ↦
      htasks (hdrained _ hexited).2)
  · have hwaiting : s.workers w = .waiting := by
      rcases hspec w with hsame | ⟨hwaiting, -⟩
      · exact hsame.symm.trans hw
      · exact hwaiting
    obtain ⟨j, hj⟩ := h.released hstop w hwaiting
    refine ⟨j, ?_⟩
    dsimp only
    rw [Function.update_of_ne]
    · exact hj
    · rintro rfl
      simp [hpc] at hj
  · exact h.stopped j (of_update hj (by simp [CallerPc.Stops]))

theorem alert_notifyAll {i : ι} (h : Alert s) (hpc : s.callers i = .shutdownNotifying) :
    Alert { s with
      workers := notifyAll s.workers
      callers := Function.update s.callers i (.joining 0) } := by
  have hspec : ∀ w, notifyAll s.workers w = s.workers w ∨
      s.workers w = .waiting ∧ notifyAll s.workers w = .waking := by
    intro w
    by_cases hw : s.workers w = .waiting
    · exact Or.inr ⟨hw, if_pos hw⟩
    · exact Or.inl (if_neg hw)
  refine ⟨held_of_wake h rfl hspec rfl (by simp [Holds, hpc]), fun htasks ↦ ?_,
    fun hstop w hw ↦ ?_, fun j hj ↦ ?_⟩
  · rcases h.noticed htasks with ⟨w, hw⟩ | ⟨j, task, hj⟩
    · refine Or.inl ⟨w, ?_⟩
      rcases hspec w with hsame | ⟨hwaiting, -⟩
      · dsimp only
        rwa [hsame]
      · exact absurd hwaiting hw.1
    · refine Or.inr ⟨j, task, ?_⟩
      dsimp only
      rw [Function.update_of_ne]
      · exact hj
      · rintro rfl
        simp [hpc] at hj
  · rcases hspec w with hsame | ⟨-, hwaking⟩
    · dsimp only at hw
      rw [hw] at hsame
      simp [notifyAll, ← hsame] at hw
    · simp [hwaking] at hw
  · exact h.stopped i (Or.inl hpc)

theorem alert_callerStep {i : ι} {woken : Option (Fin n)} (hpos : 0 < n) (hdrained : Drained s)
    (h : Alert s) (hstep : s.callerStep i woken = some s') : Alert s' := by
  have hlock : ∀ {mutex} {callers : ι → CallerPc} {t : Fin n ⊕ ι}, mutex = some (.inr i) →
      (∃ task, callers i = .enqueueChecking task) ∨ callers i = .shutdownChecking →
        mutex = some t → Holds { s with mutex := mutex, callers := callers } t := by
    rintro mutex callers t hmutex hpc ht
    obtain rfl := Option.some.inj (hmutex.symm.trans ht)
    exact hpc
  unfold callerStep at hstep
  split at hstep
  case h_1 => simp at hstep
  case h_2 task hpc =>
      simp only [Option.ite_none_right_eq_some, Option.some.injEq] at hstep
      obtain ⟨-, rfl⟩ := hstep
      refine h.of_caller ?_ rfl rfl (Or.inl rfl) (Or.inl rfl) (by simp [CallerPc.Stops])
        (by simp [hpc]) (by simp [hpc])
      exact fun t ht ↦ hlock rfl (by simp) ht
  case h_3 task hpc =>
      split at hstep
      · obtain rfl := Option.some.inj hstep
        exact h.of_caller (by simp) rfl rfl (Or.inl rfl) (Or.inl rfl) (by simp [CallerPc.Stops])
          (by simp [hpc]) (by simp [hpc])
      · obtain rfl := Option.some.inj hstep
        exact h.of_caller (by simp) rfl rfl (Or.inr ⟨task, rfl⟩) (Or.inl rfl)
          (by simp [CallerPc.Stops]) (by simp [hpc]) (by simp [hpc])
  case h_4 task hpc =>
      obtain ⟨workers, hworkers, rfl⟩ := Option.map_eq_some_iff.mp hstep
      exact alert_notifyOne hpos hdrained h hpc hworkers
  case h_5 hpc =>
      simp only [Option.ite_none_right_eq_some, Option.some.injEq] at hstep
      obtain ⟨-, rfl⟩ := hstep
      refine h.of_caller ?_ rfl rfl (Or.inl rfl) (Or.inl rfl) (by simp [CallerPc.Stops])
        (by simp [hpc]) (by simp [hpc])
      exact fun t ht ↦ hlock rfl (by simp) ht
  case h_6 hpc =>
      split at hstep
      · obtain rfl := Option.some.inj hstep
        exact h.of_caller (by simp) rfl rfl (Or.inl rfl) (Or.inl rfl) (by simp [CallerPc.Stops])
          (by simp [hpc]) (by simp [hpc])
      · obtain rfl := Option.some.inj hstep
        exact h.of_caller (by simp) rfl rfl (Or.inl rfl) (Or.inr ⟨rfl, rfl⟩) (fun _ ↦ rfl)
          (by simp [hpc]) (by simp [hpc])
  case h_7 hpc =>
      obtain rfl := Option.some.inj hstep
      exact alert_notifyAll h hpc
  case h_8 index hpc =>
      have hout : ¬s.Holds (.inr i) := by simp [Holds, hpc]
      split at hstep
      · simp only [Option.ite_none_right_eq_some, Option.some.injEq] at hstep
        obtain ⟨-, rfl⟩ := hstep
        exact h.of_caller (held_of_caller h rfl rfl rfl hout) rfl rfl (Or.inl rfl) (Or.inl rfl)
          (fun _ ↦ h.stopped i (Or.inr ⟨index, hpc⟩)) (by simp [hpc]) (by simp [hpc])
      · obtain rfl := Option.some.inj hstep
        exact h.of_caller (held_of_caller h rfl rfl rfl hout) rfl rfl (Or.inl rfl) (Or.inl rfl)
          (fun _ ↦ h.stopped i (Or.inr ⟨index, hpc⟩)) (by simp [hpc]) (by simp [hpc])

theorem alert_callStep {i : ι} {call : PoolCall} (h : Alert s)
    (hstep : s.callStep i call = some s') : Alert s' := by
  unfold callStep at hstep
  split at hstep
  case isFalse => simp at hstep
  rename_i hpc
  have hout : ¬s.Holds (.inr i) := by simp [Holds, hpc]
  cases call with
  | enqueue =>
      obtain rfl := Option.some.inj hstep
      exact h.of_caller (held_of_caller h rfl rfl rfl hout) rfl rfl (Or.inl rfl) (Or.inl rfl)
        (by simp [CallerPc.Stops]) (by simp [hpc]) (by simp [hpc])
  | shutdown =>
      obtain rfl := Option.some.inj hstep
      exact h.of_caller (held_of_caller h rfl rfl rfl hout) rfl rfl (Or.inl rfl) (Or.inl rfl)
        (by simp [CallerPc.Stops]) (by simp [hpc]) (by simp [hpc])

theorem alert_step {e : PoolEvent n ι} (hpos : 0 < n) (hdrained : Drained s) (h : Alert s)
    (hstep : s.step e = some s') : Alert s' := by
  cases e with
  | worker w => exact alert_workerStep h hstep
  | call i call => exact alert_callStep h hstep
  | caller i woken => exact alert_callerStep hpos hdrained h hstep

/-- The invariants of a pool that has workers. -/
structure Live (s : ThreadPool n ι) : Prop where
  sound : Sound s
  alert : Alert s

omit [DecidableEq ι] in
theorem live_create (h : create n ι = some s) : Live s := by
  refine ⟨sound_create h, ?_⟩
  simp only [create, Option.ite_none_left_eq_some, Option.some.injEq] at h
  obtain ⟨-, rfl⟩ := h
  exact ⟨by simp, by simp, by simp, by simp [CallerPc.Stops]⟩

theorem live_run {events : List (PoolEvent n ι)} (hpos : 0 < n) (h : Live s)
    (hrun : run step s events = some s') : Live s' :=
  run_invariant (Q := fun _ _ ↦ True) (P := fun _ s ↦ Live s) h
    (fun _ _ _ _ hs _ hstep ↦
      ⟨sound_step hs.sound hstep, alert_step hpos hs.sound.drained hs.alert hstep⟩)
    (along_of_forall (fun _ _ ↦ trivial) s events) hrun

/-! ## What a pool at rest looks like -/

/-- Whoever is inside can go on, so nobody is. -/
theorem mutex_of_blocked (h : Live s) (hblocked : Blocked step Genuine s) : s.mutex = none := by
  by_contra hheld
  obtain ⟨t, ht⟩ := Option.ne_none_iff_exists'.mp hheld
  cases t with
  | inl w =>
      have hw : s.workers w ≠ .waiting → s.workerStep w = none := hblocked (.worker w)
      rcases h.alert.held _ ht with hpc | hpc
      · simp only [workerStep, hpc] at hw
        split at hw <;> simp at hw
      · have hready := h.sound.exclusive.nonempty w hpc
        simp only [workerStep, hpc] at hw
        split at hw
        · simp at hw
        · rename_i hstay
          split at hw
          · rename_i hnil
            simp only [hnil, List.isEmpty_nil, Bool.and_true, ne_eq, not_true_eq_false,
              or_false] at hready hstay
            exact hstay hready
          · simp at hw
  | inr i =>
      have hi : s.callerStep i none = none := hblocked (.caller i none) trivial
      rcases h.alert.held _ ht with ⟨task, hpc⟩ | hpc
      · simp only [callerStep, hpc] at hi
        split at hi <;> simp at hi
      · simp only [callerStep, hpc] at hi
        split at hi <;> simp at hi

theorem worker_of_blocked (h : Live s) (hblocked : Blocked step Genuine s) (w : Fin n) :
    s.workers w = .waiting ∨ s.workers w = .exited := by
  have hfree := mutex_of_blocked h hblocked
  by_contra hother
  obtain ⟨hwaiting, hexited⟩ := not_or.mp hother
  have hw : s.workerStep w = none := hblocked (.worker w) hwaiting
  have hout : ¬s.Holds (.inl w) := by
    intro hin
    simpa [hfree] using h.sound.exclusive.holder _ hin
  cases hpc : s.workers w with
  | waiting => exact hwaiting hpc
  | exited => exact hexited hpc
  | checking => exact hout (Or.inl hpc)
  | popping => exact hout (Or.inr hpc)
  | entering => simp [workerStep, hpc, hfree] at hw
  | waking => simp [workerStep, hpc, hfree] at hw
  | running task => simp [workerStep, hpc] at hw

theorem exists_notifyOne (workers : Fin n → WorkerPc) :
    ∃ woken workers', notifyOne workers woken = some workers' := by
  by_cases h : ∀ w, workers w ≠ .waiting
  · exact ⟨none, workers, if_pos h⟩
  · push Not at h
    obtain ⟨w, hw⟩ := h
    exact ⟨some w, _, if_pos hw⟩

theorem caller_of_blocked (h : Live s) (hblocked : Blocked step Genuine s) (i : ι) :
    s.callers i = .idle ∨ ∃ index, s.callers i = .joining index := by
  have hfree := mutex_of_blocked h hblocked
  have hi : ∀ woken, s.callerStep i woken = none := fun woken ↦
    hblocked (.caller i woken) trivial
  have hout : ¬s.Holds (.inr i) := by
    intro hin
    simpa [hfree] using h.sound.exclusive.holder _ hin
  cases hpc : s.callers i with
  | idle => exact Or.inl rfl
  | joining index => exact Or.inr ⟨index, rfl⟩
  | enqueueLocking task => simpa [callerStep, hpc, hfree] using hi none
  | shutdownLocking => simpa [callerStep, hpc, hfree] using hi none
  | enqueueChecking task => exact absurd (Or.inl ⟨task, hpc⟩) hout
  | shutdownChecking => exact absurd (Or.inr hpc) hout
  | shutdownNotifying => simpa [callerStep, hpc] using hi none
  | enqueueNotifying task =>
      obtain ⟨woken, workers, hwoken⟩ := exists_notifyOne s.workers
      simpa [callerStep, hpc, hwoken] using hi woken

theorem exited_of_blocked (h : Live s) (hblocked : Blocked step Genuine s)
    (hstop : s.stopping = true) (w : Fin n) : s.workers w = .exited := by
  refine (worker_of_blocked h hblocked w).resolve_left fun hwaiting ↦ ?_
  obtain ⟨i, hi⟩ := h.alert.released hstop w hwaiting
  rcases caller_of_blocked h hblocked i with hpc | ⟨index, hpc⟩ <;> simp [hi] at hpc

theorem idle_of_blocked (h : Live s) (hblocked : Blocked step Genuine s) (i : ι) :
    s.callers i = .idle := by
  refine (caller_of_blocked h hblocked i).resolve_right ?_
  rintro ⟨index, hpc⟩
  have hexited := exited_of_blocked h hblocked (h.alert.stopped i (Or.inr ⟨index, hpc⟩))
  have hi : s.callerStep i none = none := hblocked (.caller i none) trivial
  simp only [callerStep, hpc, hexited, if_true] at hi
  split at hi <;> simp at hi

theorem tasks_of_blocked (h : Live s) (hblocked : Blocked step Genuine s) : s.tasks = [] := by
  by_contra htasks
  rcases h.alert.noticed htasks with ⟨w, hw⟩ | ⟨i, task, hi⟩
  · exact (worker_of_blocked h hblocked w).elim hw.1 hw.2
  · simp [idle_of_blocked h hblocked i] at hi

theorem finished_of_blocked (h : Live s) (hblocked : Blocked step Genuine s) :
    s.finished.Perm s.accepted := by
  have hidle : s.running = 0 := by
    apply total_eq_zero
    intro w
    rcases worker_of_blocked h hblocked w with hpc | hpc <;> rw [hpc] <;> rfl
  have htaken := h.sound.accounted.taken
  rw [hidle, zero_add, Multiset.coe_eq_coe] at htaken
  rw [h.sound.accounted.order, tasks_of_blocked h hblocked, List.append_nil]
  exact htaken.symm

end ThreadPool

/-- From every state that a pool reaches, only so many steps follow without new
calls and without wake-ups that nobody asked for; where none is left, every call
has returned, every task accepted so far has run, and after a `shutdown` all
workers are gone. -/
theorem pool_comes_to_rest {ι : Type*} [DecidableEq ι] [Fintype ι] (n : ℕ)
    (s₀ s s' : ThreadPool n ι) (events more : List (PoolEvent n ι))
    (hcreate : ThreadPool.create n ι = some s₀) (hrun : run ThreadPool.step s₀ events = some s)
    (hgenuine : Along ThreadPool.step ThreadPool.Genuine s more)
    (hmore : run ThreadPool.step s more = some s') :
    more.length ≤ s.work ∧
      (Blocked ThreadPool.step ThreadPool.Genuine s' →
        (∀ i, s'.callers i = .idle) ∧ s'.tasks = [] ∧ s'.finished.Perm s'.accepted ∧
          (∀ task ∈ s'.accepted, task ∈ s'.returned) ∧
          (s'.stopping = true → ∀ w, s'.workers w = .exited)) := by
  have hpos : 0 < n := by
    simp only [ThreadPool.create, Option.ite_none_left_eq_some] at hcreate
    exact Nat.pos_of_ne_zero hcreate.1
  have hlive := ThreadPool.live_run hpos (ThreadPool.live_create hcreate) hrun
  have hlive' := ThreadPool.live_run hpos hlive hmore
  refine ⟨?_, fun hblocked ↦ ?_⟩
  · have hpaid := length_add_le (P := fun _ ↦ True) (μ := ThreadPool.work)
      (fun _ _ _ _ _ _ ↦ trivial) (fun _ _ _ _ hQ hstep ↦ ThreadPool.work_step hQ hstep) trivial
      hgenuine hmore
    omega
  · have hidle := ThreadPool.idle_of_blocked hlive' hblocked
    refine ⟨hidle, ThreadPool.tasks_of_blocked hlive' hblocked,
      ThreadPool.finished_of_blocked hlive' hblocked, fun task htask ↦ ?_,
      ThreadPool.exited_of_blocked hlive' hblocked⟩
    refine ((hlive'.sound.identified.answered task).mp htask).resolve_right ?_
    rintro ⟨i, hi⟩
    simp [hidle i] at hi

def loneWorker : Fin 1 := ⟨0, Nat.zero_lt_one⟩

/-- A task reaches the queue while the only worker goes to sleep, and another
thread has called `shutdown`. -/
def sleepingRace : List (PoolEvent 1 Bool) :=
  [.call false .enqueue, .call true .shutdown, .worker loneWorker, .worker loneWorker,
    .caller false none, .caller false none]

/-- How it goes on: the shutdown comes before the `notify_one`. -/
def sleepingRaceEnd : List (PoolEvent 1 Bool) :=
  [.caller true none, .caller true none, .caller true none, .caller false none] ++
    List.replicate 7 (.worker loneWorker) ++ [.caller true none, .caller true none]

theorem pool_comes_to_rest_sleepingRace :
    ∃ s s' : ThreadPool 1 Bool, run ThreadPool.step {} sleepingRace = some s ∧
      run ThreadPool.step s sleepingRaceEnd = some s' ∧
      Blocked ThreadPool.step ThreadPool.Genuine s' ∧
      s'.finished.Perm s'.accepted ∧ (∀ task ∈ s'.accepted, task ∈ s'.returned) ∧
      s'.accepted = [0] ∧ ∀ w, s'.workers w = .exited := by
  have hsummary : (run ThreadPool.step ({} : ThreadPool 1 Bool) sleepingRace).bind (fun s ↦
      (run ThreadPool.step s sleepingRaceEnd).map fun s' ↦
        (decide (Along ThreadPool.step ThreadPool.Genuine s sleepingRaceEnd),
          decide (∀ i, s'.callers i = .idle), decide (∀ w, s'.workers w = .exited), s'.stopping,
          s'.accepted)) = some (true, true, true, true, [0]) := by decide +kernel
  obtain ⟨s, hrun, hs⟩ := Option.bind_eq_some_iff.mp hsummary
  obtain ⟨s', hmore, hs'⟩ := Option.map_eq_some_iff.mp hs
  simp only [Prod.mk.injEq, decide_eq_true_eq] at hs'
  obtain ⟨hgenuine, hidle, hexited, hstop, haccepted⟩ := hs'
  have hblocked : Blocked ThreadPool.step ThreadPool.Genuine s' := by
    intro e he
    cases e with
    | worker w => simp [ThreadPool.step, ThreadPool.workerStep, hexited]
    | call i call => exact he.elim
    | caller i woken => simp [ThreadPool.step, ThreadPool.callerStep, hidle]
  have hrest := (pool_comes_to_rest 1 {} s s' sleepingRace sleepingRaceEnd rfl hrun hgenuine
    hmore).2 hblocked
  exact ⟨s, s', hrun, hmore, hblocked, hrest.2.2.1, hrest.2.2.2.1, haccepted, hexited⟩

end ByteCacheDB
