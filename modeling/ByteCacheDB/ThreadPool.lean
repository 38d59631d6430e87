import ByteCacheDB.Lib.Mutex
import ByteCacheDB.Lib.Runs
import ByteCacheDB.Lib.Threads

/-!
# The thread pool

Workers and callers share a mutex, a stopping flag and a queue.  A task stands
for the `enqueue` call that brought it, and the calls are numbered as they begin.
Every step between two accesses to shared data is a step of its own; a waiting
worker may wake up at any time.
-/

namespace ByteCacheDB

open Mutex Runs Threads

/-- Where a worker stands in `worker_loop`. -/
inductive WorkerPc where
  /-- before `std::unique_lock lock(mutex_)` -/
  | entering
  /-- under the lock, before the predicate of `wait` -/
  | checking
  /-- blocked in `wait`, the lock released -/
  | waiting
  /-- woken up, before taking the lock again -/
  | waking
  /-- under the lock, `wait` has returned -/
  | popping
  | running (task : ℕ)
  | exited
  deriving DecidableEq, Repr

/-- Where a thread stands that calls `enqueue` and `shutdown`. -/
inductive CallerPc where
  | idle
  | enqueueLocking (task : ℕ)
  | enqueueChecking (task : ℕ)
  /-- the task is in the queue, the lock released, `notify_one` to come -/
  | enqueueNotifying (task : ℕ)
  | shutdownLocking
  | shutdownChecking
  | shutdownNotifying
  | joining (index : ℕ)
  deriving DecidableEq, Repr

inductive PoolCall where
  | enqueue
  | shutdown
  deriving DecidableEq, Repr

inductive PoolEvent (n : ℕ) (ι : Type*) where
  | worker (w : Fin n)
  | call (i : ι) (call : PoolCall)
  /-- a step inside a call; `notify_one` wakes the given worker -/
  | caller (i : ι) (woken : Option (Fin n))

/-- Beside the pool: the number of `enqueue` calls begun, the tasks put into the
queue, those whose `enqueue` returned true or false, those taken out of the
queue and those that have run, each list in the order of the events. -/
structure ThreadPool (n : ℕ) (ι : Type*) where
  mutex : Option (Fin n ⊕ ι) := none
  tasks : List ℕ := []
  stopping : Bool := false
  workers : Fin n → WorkerPc := fun _ ↦ .entering
  callers : ι → CallerPc := fun _ ↦ .idle
  calls : ℕ := 0
  accepted : List ℕ := []
  returned : List ℕ := []
  refused : List ℕ := []
  taken : List ℕ := []
  finished : List ℕ := []

/-- The task a worker has taken and not finished. -/
def WorkerPc.task : WorkerPc → Multiset ℕ
  | .running task => {task}
  | _ => 0

/-- The task of an `enqueue` call that has not reached the queue. -/
def CallerPc.unqueued : CallerPc → Option ℕ
  | .enqueueLocking task | .enqueueChecking task => some task
  | _ => none

namespace ThreadPool

variable {n : ℕ} {ι : Type*} [DecidableEq ι]

/-- The constructor; no thread at all is an exception. -/
def create (n : ℕ) (ι : Type*) : Option (ThreadPool n ι) := if n = 0 then none else some {}

/-- `notify_one`: a waiting worker wakes up, if there is one. -/
def notifyOne (workers : Fin n → WorkerPc) : Option (Fin n) → Option (Fin n → WorkerPc)
  | none => if ∀ w, workers w ≠ .waiting then some workers else none
  | some w =>
      if workers w = .waiting then some (Function.update workers w .waking) else none

def notifyAll (workers : Fin n → WorkerPc) : Fin n → WorkerPc :=
  fun w ↦ if workers w = .waiting then .waking else workers w

def workerStep (s : ThreadPool n ι) (w : Fin n) : Option (ThreadPool n ι) :=
  match s.workers w with
  | .entering | .waking =>
      if s.mutex.isNone then
        some { s with mutex := some (.inl w), workers := Function.update s.workers w .checking }
      else none
  | .checking =>
      if s.stopping || !s.tasks.isEmpty then
        some { s with workers := Function.update s.workers w .popping }
      else some { s with mutex := none, workers := Function.update s.workers w .waiting }
  | .waiting => some { s with workers := Function.update s.workers w .waking }
  | .popping =>
      if s.stopping && s.tasks.isEmpty then
        some { s with mutex := none, workers := Function.update s.workers w .exited }
      else
        match s.tasks with
        | [] => none
        | task :: rest =>
            some { s with
              mutex := none
              tasks := rest
              workers := Function.update s.workers w (.running task)
              taken := s.taken ++ [task] }
  | .running task =>
      some { s with
        workers := Function.update s.workers w .entering
        finished := s.finished ++ [task] }
  | .exited => none

def callStep (s : ThreadPool n ι) (i : ι) (call : PoolCall) : Option (ThreadPool n ι) :=
  if s.callers i = .idle then
    match call with
    | .enqueue =>
        some { s with
          callers := Function.update s.callers i (.enqueueLocking s.calls)
          calls := s.calls + 1 }
    | .shutdown => some { s with callers := Function.update s.callers i .shutdownLocking }
  else none

def callerStep (s : ThreadPool n ι) (i : ι) (woken : Option (Fin n)) : Option (ThreadPool n ι) :=
  match s.callers i with
  | .idle => none
  | .enqueueLocking task =>
      if s.mutex.isNone then
        some { s with
          mutex := some (.inr i)
          callers := Function.update s.callers i (.enqueueChecking task) }
      else none
  | .enqueueChecking task =>
      if s.stopping then
        some { s with
          mutex := none
          callers := Function.update s.callers i .idle
          refused := s.refused ++ [task] }
      else
        some { s with
          mutex := none
          tasks := s.tasks ++ [task]
          callers := Function.update s.callers i (.enqueueNotifying task)
          accepted := s.accepted ++ [task] }
  | .enqueueNotifying task =>
      (notifyOne s.workers woken).map fun workers ↦
        { s with
          workers := workers
          callers := Function.update s.callers i .idle
          returned := s.returned ++ [task] }
  | .shutdownLocking =>
      if s.mutex.isNone then
        some { s with
          mutex := some (.inr i)
          callers := Function.update s.callers i .shutdownChecking }
      else none
  | .shutdownChecking =>
      if s.stopping then
        some { s with mutex := none, callers := Function.update s.callers i .idle }
      else
        some { s with
          mutex := none
          stopping := true
          callers := Function.update s.callers i .shutdownNotifying }
  | .shutdownNotifying =>
      some { s with
        workers := notifyAll s.workers
        callers := Function.update s.callers i (.joining 0) }
  | .joining index =>
      if h : index < n then
        if s.workers ⟨index, h⟩ = .exited then
          some { s with callers := Function.update s.callers i (.joining (index + 1)) }
        else none
      else some { s with callers := Function.update s.callers i .idle }

def step (s : ThreadPool n ι) : PoolEvent n ι → Option (ThreadPool n ι)
  | .worker w => s.workerStep w
  | .call i call => s.callStep i call
  | .caller i woken => s.callerStep i woken

/-- The tasks taken by some worker and not finished. -/
def running (s : ThreadPool n ι) : Multiset ℕ := total WorkerPc.task s.workers

/-! ## What a step can do -/

/-- The steps, each with the state it leads to. -/
inductive Step (s : ThreadPool n ι) : ThreadPool n ι → Prop
  | lock (w : Fin n) (hpc : s.workers w = .entering ∨ s.workers w = .waking)
      (hfree : s.mutex = none) :
      Step s { s with
        mutex := some (.inl w), workers := Function.update s.workers w .checking }
  | ready (w : Fin n) (hpc : s.workers w = .checking)
      (hready : s.stopping = true ∨ s.tasks ≠ []) :
      Step s { s with workers := Function.update s.workers w .popping }
  | sleep (w : Fin n) (hpc : s.workers w = .checking) :
      Step s { s with mutex := none, workers := Function.update s.workers w .waiting }
  | exit (w : Fin n) (hpc : s.workers w = .popping) (hstopping : s.stopping = true)
      (hempty : s.tasks = []) :
      Step s { s with mutex := none, workers := Function.update s.workers w .exited }
  | pop (w : Fin n) (hpc : s.workers w = .popping) (task : ℕ) (rest : List ℕ)
      (htasks : s.tasks = task :: rest) :
      Step s { s with
        mutex := none
        tasks := rest
        workers := Function.update s.workers w (.running task)
        taken := s.taken ++ [task] }
  | finish (w : Fin n) (task : ℕ) (hpc : s.workers w = .running task) :
      Step s { s with
        workers := Function.update s.workers w .entering
        finished := s.finished ++ [task] }
  | wake (workers : Fin n → WorkerPc) (callers : ι → CallerPc) (returned : List ℕ)
      (hworkers : ∀ w, workers w = s.workers w ∨ s.workers w = .waiting ∧ workers w = .waking)
      (hcallers : callers = s.callers ∧ returned = s.returned ∨
        ∃ i, (∃ task, s.callers i = .enqueueNotifying task ∧ returned = s.returned ++ [task] ∧
            callers = Function.update s.callers i .idle) ∨
          s.callers i = .shutdownNotifying ∧ returned = s.returned ∧
            callers = Function.update s.callers i (.joining 0)) :
      Step s { s with workers := workers, callers := callers, returned := returned }
  | enqueue (i : ι) (hpc : s.callers i = .idle) :
      Step s { s with
        callers := Function.update s.callers i (.enqueueLocking s.calls)
        calls := s.calls + 1 }
  | lockEnqueue (i : ι) (task : ℕ) (hpc : s.callers i = .enqueueLocking task)
      (hfree : s.mutex = none) :
      Step s { s with
        mutex := some (.inr i)
        callers := Function.update s.callers i (.enqueueChecking task) }
  | refuse (i : ι) (task : ℕ) (hpc : s.callers i = .enqueueChecking task) :
      Step s { s with
        mutex := none
        callers := Function.update s.callers i .idle
        refused := s.refused ++ [task] }
  | push (i : ι) (task : ℕ) (hpc : s.callers i = .enqueueChecking task)
      (hrunning : s.stopping = false) :
      Step s { s with
        mutex := none
        tasks := s.tasks ++ [task]
        callers := Function.update s.callers i (.enqueueNotifying task)
        accepted := s.accepted ++ [task] }
  | lockShutdown (i : ι) (hpc : s.callers i = .shutdownLocking) (hfree : s.mutex = none) :
      Step s { s with
        mutex := some (.inr i)
        callers := Function.update s.callers i .shutdownChecking }
  | stop (i : ι) (hpc : s.callers i = .shutdownChecking) (pc : CallerPc)
      (hnext : pc = .idle ∨ pc = .shutdownNotifying) :
      Step s { s with
        mutex := none
        stopping := true
        callers := Function.update s.callers i pc }
  | advance (i : ι) (pc : CallerPc) (hpc : s.callers i = .idle ∧ pc = .shutdownLocking ∨
        ∃ index, s.callers i = .joining index ∧ (pc = .idle ∨ pc = .joining (index + 1))) :
      Step s { s with callers := Function.update s.callers i pc }

variable {s s' : ThreadPool n ι}

theorem step_of_workerStep {w : Fin n} (h : s.workerStep w = some s') : Step s s' := by
  unfold workerStep at h
  split at h
  · rename_i hpc
    simp only [Option.isNone_iff_eq_none, Option.ite_none_right_eq_some, Option.some.injEq] at h
    exact h.2 ▸ .lock w (Or.inl hpc) h.1
  · rename_i hpc
    simp only [Option.isNone_iff_eq_none, Option.ite_none_right_eq_some, Option.some.injEq] at h
    exact h.2 ▸ .lock w (Or.inr hpc) h.1
  · rename_i hpc
    split at h
    · rename_i hready
      refine Option.some.inj h ▸ .ready w hpc ?_
      simpa using hready
    · exact Option.some.inj h ▸ .sleep w hpc
  · rename_i hpc
    refine Option.some.inj h ▸ .wake _ s.callers s.returned (fun v ↦ ?_) (Or.inl ⟨rfl, rfl⟩)
    by_cases hv : v = w
    · subst hv
      exact Or.inr ⟨hpc, Function.update_self ..⟩
    · exact Or.inl (Function.update_of_ne hv ..)
  · rename_i hpc
    split at h
    · rename_i hexit
      simp only [Bool.and_eq_true, List.isEmpty_iff] at hexit
      exact Option.some.inj h ▸ .exit w hpc hexit.1 hexit.2
    · split at h
      · simp at h
      · rename_i task rest htasks
        exact Option.some.inj h ▸ .pop w hpc task rest htasks
  · rename_i task hpc
    exact Option.some.inj h ▸ .finish w task hpc
  · simp at h

theorem step_of_callStep {i : ι} {call : PoolCall} (h : s.callStep i call = some s') :
    Step s s' := by
  unfold callStep at h
  split at h
  case isFalse => simp at h
  rename_i hpc
  cases call with
  | enqueue => exact Option.some.inj h ▸ .enqueue i hpc
  | shutdown => exact Option.some.inj h ▸ .advance i .shutdownLocking (Or.inl ⟨hpc, rfl⟩)

theorem notifyOne_spec {workers workers' : Fin n → WorkerPc} {woken : Option (Fin n)}
    (h : notifyOne workers woken = some workers') (w : Fin n) :
    workers' w = workers w ∨ workers w = .waiting ∧ workers' w = .waking := by
  cases woken with
  | none =>
      simp only [notifyOne, Option.ite_none_right_eq_some, Option.some.injEq] at h
      exact Or.inl (congrFun h.2.symm w)
  | some v =>
      simp only [notifyOne, Option.ite_none_right_eq_some, Option.some.injEq] at h
      obtain ⟨hv, rfl⟩ := h
      by_cases hw : w = v
      · subst hw
        exact Or.inr ⟨hv, Function.update_self ..⟩
      · exact Or.inl (Function.update_of_ne hw ..)

theorem step_of_callerStep {i : ι} {woken : Option (Fin n)} (h : s.callerStep i woken = some s') :
    Step s s' := by
  unfold callerStep at h
  split at h
  · simp at h
  · rename_i task hpc
    simp only [Option.isNone_iff_eq_none, Option.ite_none_right_eq_some, Option.some.injEq] at h
    exact h.2 ▸ .lockEnqueue i task hpc h.1
  · rename_i task hpc
    split at h
    · exact Option.some.inj h ▸ .refuse i task hpc
    · rename_i hrunning
      exact Option.some.inj h ▸ .push i task hpc (by simpa using hrunning)
  · rename_i task hpc
    obtain ⟨workers, hworkers, rfl⟩ := Option.map_eq_some_iff.mp h
    exact .wake workers _ _ (notifyOne_spec hworkers)
      (Or.inr ⟨i, Or.inl ⟨task, hpc, rfl, rfl⟩⟩)
  · rename_i hpc
    simp only [Option.isNone_iff_eq_none, Option.ite_none_right_eq_some, Option.some.injEq] at h
    exact h.2 ▸ .lockShutdown i hpc h.1
  · rename_i hpc
    split at h
    · rename_i hstopping
      have hstop := Step.stop (s := s) i hpc .idle (Or.inl rfl)
      rw [← hstopping] at hstop
      exact Option.some.inj h ▸ hstop
    · exact Option.some.inj h ▸ .stop i hpc .shutdownNotifying (Or.inr rfl)
  · rename_i hpc
    refine Option.some.inj h ▸ .wake _ _ s.returned (fun w ↦ ?_)
      (Or.inr ⟨i, Or.inr ⟨hpc, rfl, rfl⟩⟩)
    by_cases hw : s.workers w = .waiting
    · exact Or.inr ⟨hw, if_pos hw⟩
    · exact Or.inl (if_neg hw)
  · rename_i index hpc
    split at h
    · simp only [Option.ite_none_right_eq_some, Option.some.injEq] at h
      exact h.2 ▸ .advance i _ (Or.inr ⟨index, hpc, Or.inr rfl⟩)
    · exact Option.some.inj h ▸ .advance i _ (Or.inr ⟨index, hpc, Or.inl rfl⟩)

theorem step_of_event {e : PoolEvent n ι} (h : s.step e = some s') : Step s s' := by
  cases e with
  | worker w => exact step_of_workerStep h
  | call i call => exact step_of_callStep h
  | caller i woken => exact step_of_callerStep h

/-! ## Where the tasks are -/

/-- Tasks leave the queue at the front and stay with one worker until they are
finished. -/
structure Accounted (s : ThreadPool n ι) : Prop where
  order : s.accepted = s.taken ++ s.tasks
  taken : (s.taken : Multiset ℕ) = s.running + s.finished

theorem accounted_step (h : Accounted s) (hstep : Step s s') : Accounted s' := by
  have hmove : ∀ {w : Fin n} {pc : WorkerPc}, (s.workers w).task = 0 → pc.task = 0 →
      (s.taken : Multiset ℕ) =
        total WorkerPc.task (Function.update s.workers w pc) + s.finished := by
    intro w pc hold hnew
    rw [total_update_of_eq (hnew.trans hold.symm)]
    exact h.taken
  cases hstep with
  | lock w hpc hfree =>
      exact ⟨h.order, hmove (by rcases hpc with hpc | hpc <;> rw [hpc] <;> rfl) rfl⟩
  | ready w hpc hready => exact ⟨h.order, hmove (by rw [hpc]; rfl) rfl⟩
  | sleep w hpc => exact ⟨h.order, hmove (by rw [hpc]; rfl) rfl⟩
  | exit w hpc hstopping hempty => exact ⟨h.order, hmove (by rw [hpc]; rfl) rfl⟩
  | pop w hpc task rest htasks =>
      refine ⟨?_, ?_⟩
      · rw [h.order, htasks]
        simp
      · have hsum := total_update WorkerPc.task s.workers w (.running task)
        simp only [hpc, WorkerPc.task, add_zero] at hsum
        rw [running, hsum, ← Multiset.coe_add, h.taken, running, Multiset.coe_singleton]
        abel
  | finish w task hpc =>
      refine ⟨h.order, ?_⟩
      have hsum := total_update WorkerPc.task s.workers w .entering
      simp only [hpc, WorkerPc.task, add_zero] at hsum
      rw [h.taken, running, running, ← hsum, ← Multiset.coe_add, Multiset.coe_singleton]
      abel
  | wake workers callers returned hworkers hcallers =>
      refine ⟨h.order, ?_⟩
      rw [running, total_congr fun w ↦ ?_]
      · exact h.taken
      dsimp only
      rcases hworkers w with hsame | ⟨hwaiting, hwaking⟩
      · rw [hsame]
      · rw [hwaiting, hwaking]
        rfl
  | push i task hpc hrunning =>
      refine ⟨?_, h.taken⟩
      rw [h.order, List.append_assoc]
  | enqueue | lockEnqueue | refuse | lockShutdown | stop | advance => exact ⟨h.order, h.taken⟩

/-- A worker leaves only when nothing is left to do, and then nothing comes. -/
def Drained (s : ThreadPool n ι) : Prop :=
  ∀ w, s.workers w = .exited → s.stopping = true ∧ s.tasks = []

theorem drained_step (h : Drained s) (hstep : Step s s') : Drained s' := by
  have hother : ∀ (w : Fin n) (pc : WorkerPc), pc ≠ .exited → ∀ v,
      Function.update s.workers w pc v = .exited → s.stopping = true ∧ s.tasks = [] := by
    intro w pc hpc v hv
    by_cases hvw : v = w
    · subst hvw
      rw [Function.update_self] at hv
      exact absurd hv hpc
    · rw [Function.update_of_ne hvw] at hv
      exact h v hv
  cases hstep with
  | lock | ready | sleep | finish => exact hother _ _ (by simp)
  | exit w hpc hstopping hempty => exact fun _ _ ↦ ⟨hstopping, hempty⟩
  | pop w hpc task rest htasks =>
      intro v hv
      have hnil := (hother w (.running task) (by simp) v hv).2
      rw [htasks] at hnil
      simp at hnil
  | wake workers callers returned hworkers hcallers =>
      intro w hw
      dsimp only at hw
      rcases hworkers w with hsame | ⟨-, hwaking⟩
      · exact h w (hsame ▸ hw)
      · rw [hwaking] at hw
        simp at hw
  | push i task hpc hrunning =>
      intro w hw
      have hstopping := (h w hw).1
      rw [hrunning] at hstopping
      simp at hstopping
  | stop i hpc pc hnext => exact fun w hw ↦ ⟨rfl, (h w hw).2⟩
  | enqueue | lockEnqueue | refuse | lockShutdown | advance => exact h

/-! ## Which calls the tasks come from -/

/-- Every call has its own number, and it is settled once. -/
structure Identified (s : ThreadPool n ι) : Prop where
  nodup : s.accepted.Nodup
  lt_calls : ∀ task, task ∈ s.accepted ∨ task ∈ s.refused → task < s.calls
  disjoint : ∀ task ∈ s.refused, task ∉ s.accepted
  unqueued : ∀ i task, (s.callers i).unqueued = some task →
    task < s.calls ∧ task ∉ s.accepted ∧ task ∉ s.refused
  unique : ∀ i j task, (s.callers i).unqueued = some task →
    (s.callers j).unqueued = some task → i = j
  answered : ∀ task, task ∈ s.accepted ↔
    task ∈ s.returned ∨ ∃ i, s.callers i = .enqueueNotifying task

/-- A caller that moves on without settling its call. -/
theorem Identified.of_move (h : Identified s) (i : ι) (pc : CallerPc)
    (hunqueued : pc.unqueued = (s.callers i).unqueued)
    (hnotifying : ∀ task, pc = .enqueueNotifying task ↔ s.callers i = .enqueueNotifying task)
    (hcallers : s'.callers = Function.update s.callers i pc) (hcalls : s'.calls = s.calls)
    (haccepted : s'.accepted = s.accepted) (hrefused : s'.refused = s.refused)
    (hreturned : s'.returned = s.returned) : Identified s' := by
  have hsame : ∀ j, (s'.callers j).unqueued = (s.callers j).unqueued ∧
      ∀ task, s'.callers j = .enqueueNotifying task ↔ s.callers j = .enqueueNotifying task := by
    intro j
    rw [hcallers]
    by_cases hj : j = i
    · subst hj
      rw [Function.update_self]
      exact ⟨hunqueued, hnotifying⟩
    · rw [Function.update_of_ne hj]
      exact ⟨rfl, fun _ ↦ Iff.rfl⟩
  constructor
  · simpa [haccepted] using h.nodup
  · simpa [haccepted, hrefused, hcalls] using h.lt_calls
  · simpa [haccepted, hrefused] using h.disjoint
  · simpa [(hsame _).1, haccepted, hrefused, hcalls] using h.unqueued
  · simpa [(hsame _).1] using h.unique
  · simpa [(hsame _).2, haccepted, hreturned] using h.answered

/-- A caller other than the one that moved. -/
theorem of_update {callers : ι → CallerPc} {i j : ι} {pc : CallerPc} {P : CallerPc → Prop}
    (h : P (Function.update callers i pc j)) (hpc : ¬P pc) : P (callers j) := by
  by_cases hj : j = i
  · subst hj
    rw [Function.update_self] at h
    exact absurd h hpc
  · rwa [Function.update_of_ne hj] at h

theorem exists_notifying_iff {callers : ι → CallerPc} {i : ι} {pc : CallerPc} {task : ℕ}
    (hold : callers i ≠ .enqueueNotifying task) :
    (∃ j, Function.update callers i pc j = .enqueueNotifying task) ↔
      pc = .enqueueNotifying task ∨ ∃ j, callers j = .enqueueNotifying task := by
  constructor
  · rintro ⟨j, hj⟩
    by_cases hji : j = i
    · subst hji
      rw [Function.update_self] at hj
      exact Or.inl hj
    · rw [Function.update_of_ne hji] at hj
      exact Or.inr ⟨j, hj⟩
  · rintro (rfl | ⟨j, hj⟩)
    · exact ⟨i, Function.update_self ..⟩
    · refine ⟨j, ?_⟩
      rwa [Function.update_of_ne]
      rintro rfl
      exact hold hj

theorem identified_return (h : Identified s) {i : ι} {task : ℕ}
    (hpc : s.callers i = .enqueueNotifying task) {workers : Fin n → WorkerPc} :
    Identified { s with
      workers := workers
      callers := Function.update s.callers i .idle
      returned := s.returned ++ [task] } := by
  have hunqueued : ∀ j t, (Function.update s.callers i .idle j).unqueued = some t →
      (s.callers j).unqueued = some t :=
    fun j t hj ↦ of_update (P := fun pc ↦ pc.unqueued = some t) hj (by simp [CallerPc.unqueued])
  refine ⟨h.nodup, h.lt_calls, h.disjoint, fun j t hj ↦ h.unqueued j t (hunqueued j t hj),
    fun j k t hj hk ↦ h.unique j k t (hunqueued j t hj) (hunqueued k t hk), fun t ↦ ?_⟩
  dsimp only
  rw [h.answered, List.mem_append, List.mem_singleton]
  by_cases ht : t = task
  · subst ht
    exact iff_of_true (Or.inr ⟨i, hpc⟩) (Or.inl (Or.inr rfl))
  · rw [exists_notifying_iff (by rw [hpc]; simpa using Ne.symm ht)]
    simp [ht]

theorem identified_enqueue (h : Identified s) {i : ι} (hpc : s.callers i = .idle) :
    Identified { s with
      callers := Function.update s.callers i (.enqueueLocking s.calls)
      calls := s.calls + 1 } := by
  have hcases : ∀ j t, (Function.update s.callers i (.enqueueLocking s.calls) j).unqueued = some t →
      (j = i ∧ t = s.calls) ∨ (j ≠ i ∧ (s.callers j).unqueued = some t) := by
    intro j t hj
    by_cases hji : j = i
    · subst hji
      rw [Function.update_self] at hj
      exact Or.inl ⟨rfl, (Option.some.inj hj).symm⟩
    · rw [Function.update_of_ne hji] at hj
      exact Or.inr ⟨hji, hj⟩
  refine ⟨h.nodup, fun t ht ↦ Nat.lt_succ_of_lt (h.lt_calls t ht), h.disjoint, ?_, ?_, fun t ↦ ?_⟩
  · intro j t hj
    rcases hcases j t hj with ⟨-, rfl⟩ | ⟨-, hold⟩
    · refine ⟨Nat.lt_succ_self _, fun ht ↦ ?_, fun ht ↦ ?_⟩
      · exact absurd (h.lt_calls _ (Or.inl ht)) (Nat.lt_irrefl _)
      · exact absurd (h.lt_calls _ (Or.inr ht)) (Nat.lt_irrefl _)
    · obtain ⟨hlt, hrest⟩ := h.unqueued j t hold
      exact ⟨Nat.lt_succ_of_lt hlt, hrest⟩
  · intro j k t hj hk
    rcases hcases j t hj with ⟨hji, ht⟩ | ⟨-, hj'⟩ <;>
      rcases hcases k t hk with ⟨hki, ht'⟩ | ⟨-, hk'⟩
    · exact hji.trans hki.symm
    · exact absurd (ht ▸ (h.unqueued k t hk').1) (Nat.lt_irrefl _)
    · exact absurd (ht' ▸ (h.unqueued j t hj').1) (Nat.lt_irrefl _)
    · exact h.unique j k t hj' hk'
  · dsimp only
    rw [h.answered, exists_notifying_iff (by simp [hpc])]
    simp

/-- The other calls that wait for the lock bring other tasks. -/
theorem Identified.unqueued_of_settled (h : Identified s) {i : ι} {task : ℕ}
    (hself : (s.callers i).unqueued = some task) (pc : CallerPc) (hpc : pc.unqueued = none)
    (j : ι) (t : ℕ) (hj : (Function.update s.callers i pc j).unqueued = some t) :
    (s.callers j).unqueued = some t ∧ t ≠ task := by
  have hold := of_update (P := fun pc ↦ pc.unqueued = some t) hj (by simp [hpc])
  refine ⟨hold, ?_⟩
  rintro rfl
  obtain rfl := h.unique j i t hold hself
  rw [Function.update_self, hpc] at hj
  simp at hj

theorem identified_refuse (h : Identified s) {i : ι} {task : ℕ}
    (hpc : s.callers i = .enqueueChecking task) :
    Identified { s with
      mutex := none
      callers := Function.update s.callers i .idle
      refused := s.refused ++ [task] } := by
  have hself : (s.callers i).unqueued = some task := by rw [hpc]; rfl
  obtain ⟨hlt, hnot, -⟩ := h.unqueued i task hself
  have hother := fun j t ↦ h.unqueued_of_settled hself .idle rfl j t
  refine ⟨h.nodup, ?_, ?_, ?_, ?_, fun t ↦ ?_⟩
  · intro t ht
    rw [List.mem_append, List.mem_singleton, ← or_assoc] at ht
    rcases ht with ht | rfl
    · exact h.lt_calls t ht
    · exact hlt
  · intro t ht
    rcases List.mem_append.mp ht with ht | ht
    · exact h.disjoint t ht
    · rw [List.mem_singleton.mp ht]
      exact hnot
  · intro j t hj
    obtain ⟨hold, hne⟩ := hother j t hj
    obtain ⟨hlt', hnot', hrefused⟩ := h.unqueued j t hold
    refine ⟨hlt', hnot', fun ht ↦ ?_⟩
    rcases List.mem_append.mp ht with ht | ht
    · exact hrefused ht
    · exact hne (List.mem_singleton.mp ht)
  · exact fun j k t hj hk ↦ h.unique j k t (hother j t hj).1 (hother k t hk).1
  · dsimp only
    rw [h.answered, exists_notifying_iff (by simp [hpc])]
    simp

theorem identified_push (h : Identified s) {i : ι} {task : ℕ}
    (hpc : s.callers i = .enqueueChecking task) :
    Identified { s with
      mutex := none
      tasks := s.tasks ++ [task]
      callers := Function.update s.callers i (.enqueueNotifying task)
      accepted := s.accepted ++ [task] } := by
  have hself : (s.callers i).unqueued = some task := by rw [hpc]; rfl
  obtain ⟨hlt, hnot, hrefused⟩ := h.unqueued i task hself
  have hother := fun j t ↦ h.unqueued_of_settled hself (.enqueueNotifying task) rfl j t
  refine ⟨?_, ?_, ?_, ?_, ?_, fun t ↦ ?_⟩
  · dsimp only
    rw [← List.concat_eq_append]
    exact h.nodup.concat hnot
  · intro t ht
    rw [List.mem_append, List.mem_singleton, or_right_comm] at ht
    rcases ht with ht | rfl
    · exact h.lt_calls t ht
    · exact hlt
  · intro t ht hmem
    rcases List.mem_append.mp hmem with hmem | hmem
    · exact h.disjoint t ht hmem
    · rw [List.mem_singleton.mp hmem] at ht
      exact hrefused ht
  · intro j t hj
    obtain ⟨hold, hne⟩ := hother j t hj
    obtain ⟨hlt', hnot', hrefused'⟩ := h.unqueued j t hold
    refine ⟨hlt', fun ht ↦ ?_, hrefused'⟩
    rcases List.mem_append.mp ht with ht | ht
    · exact hnot' ht
    · exact hne (List.mem_singleton.mp ht)
  · exact fun j k t hj hk ↦ h.unique j k t (hother j t hj).1 (hother k t hk).1
  · dsimp only
    rw [List.mem_append, List.mem_singleton, h.answered, exists_notifying_iff (by simp [hpc]),
      CallerPc.enqueueNotifying.injEq, @eq_comm _ task]
    tauto

theorem identified_step (h : Identified s) (hstep : Step s s') : Identified s' := by
  cases hstep with
  | lock | ready | sleep | exit | pop | finish =>
      exact ⟨h.nodup, h.lt_calls, h.disjoint, h.unqueued, h.unique, h.answered⟩
  | wake workers callers returned hworkers hcallers =>
      rcases hcallers with ⟨rfl, rfl⟩ | ⟨i, ⟨task, hpc, rfl, rfl⟩ | ⟨hpc, rfl, rfl⟩⟩
      · exact ⟨h.nodup, h.lt_calls, h.disjoint, h.unqueued, h.unique, h.answered⟩
      · exact identified_return h hpc
      · apply h.of_move i (.joining 0) <;> simp [hpc, CallerPc.unqueued]
  | enqueue i hpc => exact identified_enqueue h hpc
  | lockEnqueue i task hpc hfree =>
      apply h.of_move i (.enqueueChecking task) <;> simp [hpc, CallerPc.unqueued]
  | refuse i task hpc => exact identified_refuse h hpc
  | push i task hpc hrunning => exact identified_push h hpc
  | lockShutdown i hpc hfree =>
      apply h.of_move i .shutdownChecking <;> simp [hpc, CallerPc.unqueued]
  | stop i hpc pc hnext =>
      rcases hnext with rfl | rfl
      · apply h.of_move i .idle <;> simp [hpc, CallerPc.unqueued]
      · apply h.of_move i .shutdownNotifying <;> simp [hpc, CallerPc.unqueued]
  | advance i pc hpc =>
      rcases hpc with ⟨hpc, rfl⟩ | ⟨index, hpc, rfl | rfl⟩
      · apply h.of_move i .shutdownLocking <;> simp [hpc, CallerPc.unqueued]
      · apply h.of_move i .idle <;> simp [hpc, CallerPc.unqueued]
      · apply h.of_move i (.joining (index + 1)) <;> simp [hpc, CallerPc.unqueued]

/-! ## The lock -/

/-- The thread is inside a section that the mutex protects. -/
def Holds (s : ThreadPool n ι) : Fin n ⊕ ι → Prop
  | .inl w => s.workers w = .checking ∨ s.workers w = .popping
  | .inr i => (∃ task, s.callers i = .enqueueChecking task) ∨ s.callers i = .shutdownChecking

/-- The mutex belongs to the thread inside, and `wait` returned for a reason
that still holds: `front` is not called on an empty queue. -/
structure Exclusive (s : ThreadPool n ι) : Prop where
  holder : Guards s.mutex s.Holds
  nonempty : ∀ w, s.workers w = .popping → s.stopping = true ∨ s.tasks ≠ []

omit [DecidableEq ι] in
theorem holds_of_update_worker {w : Fin n} {pc : WorkerPc}
    (hworkers : s'.workers = Function.update s.workers w pc) (hcallers : s'.callers = s.callers)
    (t : Fin n ⊕ ι) (ht : t ≠ .inl w) (h : s'.Holds t) : s.Holds t := by
  cases t with
  | inl v =>
      rw [Holds, hworkers, Function.update_of_ne fun hv ↦ ht (congrArg Sum.inl hv)] at h
      exact h
  | inr i =>
      rw [Holds, hcallers] at h
      exact h

theorem holds_of_update_caller {i : ι} {pc : CallerPc}
    (hworkers : s'.workers = s.workers) (hcallers : s'.callers = Function.update s.callers i pc)
    (t : Fin n ⊕ ι) (ht : t ≠ .inr i) (h : s'.Holds t) : s.Holds t := by
  cases t with
  | inl v =>
      rw [Holds, hworkers] at h
      exact h
  | inr j =>
      rw [Holds, hcallers, Function.update_of_ne fun hj ↦ ht (congrArg Sum.inr hj)] at h
      exact h

omit [DecidableEq ι] in
/-- A worker other than the one that moved. -/
theorem Exclusive.nonempty_of_update (h : Exclusive s) {w : Fin n} {pc : WorkerPc}
    (hpc : pc ≠ .popping) {v : Fin n} (hv : Function.update s.workers w pc v = .popping) :
    s.stopping = true ∨ s.tasks ≠ [] := by
  by_cases hvw : v = w
  · subst hvw
    rw [Function.update_self] at hv
    exact absurd hv hpc
  · rw [Function.update_of_ne hvw] at hv
    exact h.nonempty v hv

/-- `notify_one` and `notify_all` wake workers and let no thread in. -/
theorem exclusive_wake (h : Exclusive s) {workers : Fin n → WorkerPc} {callers : ι → CallerPc}
    (returned : List ℕ)
    (hworkers : ∀ w, workers w = s.workers w ∨ s.workers w = .waiting ∧ workers w = .waking)
    (hcallers : callers = s.callers ∨ ∃ i pc, callers = Function.update s.callers i pc ∧
      (pc = .idle ∨ pc = .joining 0)) :
    Exclusive { s with workers := workers, callers := callers, returned := returned } := by
  have hworker : ∀ w pc, workers w = pc → pc ≠ .waking → s.workers w = pc := by
    intro w pc hw hpc
    rcases hworkers w with hsame | ⟨-, hwaking⟩
    · exact hsame ▸ hw
    · exact absurd (hw.symm.trans hwaking) hpc
  refine ⟨h.holder.keep fun t ht ↦ ?_, fun w hw ↦ h.nonempty w (hworker w _ hw (by simp))⟩
  cases t with
  | inl w =>
      exact ht.imp (fun hw ↦ hworker w _ hw (by simp)) fun hw ↦ hworker w _ hw (by simp)
  | inr j =>
      rcases hcallers with rfl | ⟨i, pc, rfl, hpc⟩
      · exact ht
      · refine of_update (P := fun pc ↦ (∃ task, pc = .enqueueChecking task) ∨
          pc = .shutdownChecking) ht ?_
        rcases hpc with rfl | rfl <;> simp

theorem exclusive_step (h : Exclusive s) (hstep : Step s s') : Exclusive s' := by
  cases hstep with
  | lock w hpc hfree =>
      exact ⟨h.holder.acquire hfree (holds_of_update_worker rfl rfl),
        fun v hv ↦ h.nonempty_of_update (by simp) hv⟩
  | ready w hpc hready =>
      exact ⟨h.holder.stay (t := .inl w) (Or.inl hpc) (holds_of_update_worker rfl rfl),
        fun v hv ↦ hready⟩
  | sleep w hpc =>
      exact ⟨h.holder.release (t := .inl w) (Or.inl hpc) (by simp [Holds])
        (holds_of_update_worker rfl rfl), fun v hv ↦ h.nonempty_of_update (by simp) hv⟩
  | exit w hpc hstopping hempty =>
      exact ⟨h.holder.release (t := .inl w) (Or.inr hpc) (by simp [Holds])
        (holds_of_update_worker rfl rfl), fun v hv ↦ h.nonempty_of_update (by simp) hv⟩
  | pop w hpc task rest htasks =>
      have hw : s.Holds (.inl w) := Or.inr hpc
      refine ⟨h.holder.release hw (by simp [Holds]) (holds_of_update_worker rfl rfl),
        fun v hv ↦ ?_⟩
      -- nobody else is inside
      by_cases hvw : v = w
      · subst hvw
        simp at hv
      · dsimp only at hv
        rw [Function.update_of_ne hvw] at hv
        have hv' : s.Holds (.inl v) := Or.inr hv
        exact absurd (Sum.inl.inj (h.holder.eq hv' hw)) hvw
  | finish w task hpc =>
      exact ⟨h.holder.outside (t := .inl w) (by simp [Holds]) (holds_of_update_worker rfl rfl),
        fun v hv ↦ h.nonempty_of_update (by simp) hv⟩
  | wake workers callers returned hworkers hcallers =>
      refine exclusive_wake h returned hworkers ?_
      rcases hcallers with ⟨hsame, -⟩ | ⟨i, ⟨task, -, -, hidle⟩ | ⟨-, -, hjoining⟩⟩
      · exact Or.inl hsame
      · exact Or.inr ⟨i, _, hidle, Or.inl rfl⟩
      · exact Or.inr ⟨i, _, hjoining, Or.inr rfl⟩
  | enqueue i hpc =>
      exact ⟨h.holder.outside (t := .inr i) (by simp [Holds]) (holds_of_update_caller rfl rfl),
        h.nonempty⟩
  | lockEnqueue i task hpc hfree =>
      exact ⟨h.holder.acquire hfree (holds_of_update_caller rfl rfl), h.nonempty⟩
  | refuse i task hpc =>
      exact ⟨h.holder.release (t := .inr i) (Or.inl ⟨task, hpc⟩) (by simp [Holds])
        (holds_of_update_caller rfl rfl), h.nonempty⟩
  | push i task hpc hrunning =>
      exact ⟨h.holder.release (t := .inr i) (Or.inl ⟨task, hpc⟩) (by simp [Holds])
        (holds_of_update_caller rfl rfl), fun v hv ↦ Or.inr (by simp)⟩
  | lockShutdown i hpc hfree =>
      exact ⟨h.holder.acquire hfree (holds_of_update_caller rfl rfl), h.nonempty⟩
  | stop i hpc pc hnext =>
      refine ⟨h.holder.release (t := .inr i) (Or.inr hpc) ?_ (holds_of_update_caller rfl rfl),
        fun v hv ↦ Or.inl rfl⟩
      rcases hnext with rfl | rfl <;> simp [Holds]
  | advance i pc hpc =>
      refine ⟨h.holder.outside (t := .inr i) ?_ (holds_of_update_caller rfl rfl), h.nonempty⟩
      rcases hpc with ⟨-, rfl⟩ | ⟨index, -, rfl | rfl⟩ <;> simp [Holds]

/-! ## Whole runs -/

/-- What holds in every state of a pool. -/
structure Sound (s : ThreadPool n ι) : Prop where
  accounted : Accounted s
  drained : Drained s
  identified : Identified s
  exclusive : Exclusive s

omit [DecidableEq ι] in
theorem sound_create (h : create n ι = some s) : Sound s := by
  simp only [create, Option.ite_none_left_eq_some, Option.some.injEq] at h
  obtain ⟨-, rfl⟩ := h
  refine ⟨⟨rfl, ?_⟩, fun w hw ↦ ?_, ⟨List.nodup_nil, by simp, by simp, ?_, ?_, by simp⟩, ?_, ?_⟩
  · have hzero : total WorkerPc.task (fun _ : Fin n ↦ .entering) = 0 := total_eq_zero fun _ ↦ rfl
    change _ = total WorkerPc.task (fun _ : Fin n ↦ .entering) + _
    rw [hzero]
    rfl
  · simp at hw
  · simp [CallerPc.unqueued]
  · simp [CallerPc.unqueued]
  · rintro (w | i) ht <;> simp [Holds] at ht
  · simp

theorem sound_step {e : PoolEvent n ι} (h : Sound s) (hstep : s.step e = some s') : Sound s' := by
  have hs := step_of_event hstep
  exact ⟨accounted_step h.accounted hs, drained_step h.drained hs, identified_step h.identified hs,
    exclusive_step h.exclusive hs⟩

theorem sound_run {events : List (PoolEvent n ι)} (h : Sound s)
    (hrun : run step s events = some s') : Sound s' :=
  run_invariant (Q := fun _ _ ↦ True) (P := fun _ s ↦ Sound s) h
    (fun _ _ _ _ hs _ hstep ↦ sound_step hs hstep) (along_of_forall (fun _ _ ↦ trivial) s events)
    hrun

end ThreadPool

/-- In every state that a pool reaches, the tasks put into the queue are the ones
whose `enqueue` returned true or is about to; in this order they have been taken
or are still queued; the taken ones are with one worker or finished, each once.
A refused task is not among them.  When all workers are gone, all are finished. -/
theorem pool_loses_nothing {ι : Type*} [DecidableEq ι] (n : ℕ) (s₀ s : ThreadPool n ι)
    (events : List (PoolEvent n ι)) (hcreate : ThreadPool.create n ι = some s₀)
    (hrun : run ThreadPool.step s₀ events = some s) :
    (∀ task, task ∈ s.accepted ↔
        task ∈ s.returned ∨ ∃ i, s.callers i = .enqueueNotifying task) ∧
      s.accepted.Nodup ∧ s.accepted = s.taken ++ s.tasks ∧
      (s.taken : Multiset ℕ) = s.running + s.finished ∧
      (∀ task ∈ s.refused, task ∉ s.taken) ∧
      ((∀ w, s.workers w = .exited) → s.tasks = [] ∧ s.finished.Perm s.accepted) := by
  have hsound := ThreadPool.sound_run (ThreadPool.sound_create hcreate) hrun
  obtain ⟨horder, htaken⟩ := hsound.accounted
  refine ⟨hsound.identified.answered, hsound.identified.nodup, horder, htaken, ?_, fun hexit ↦ ?_⟩
  · intro task hrefused hmem
    apply hsound.identified.disjoint task hrefused
    rw [horder]
    exact List.mem_append_left _ hmem
  · have hpos : 0 < n := by
      simp only [ThreadPool.create, Option.ite_none_left_eq_some] at hcreate
      exact Nat.pos_of_ne_zero hcreate.1
    have hempty := (hsound.drained ⟨0, hpos⟩ (hexit _)).2
    refine ⟨hempty, ?_⟩
    have hidle : s.running = 0 := by
      apply total_eq_zero
      intro w
      rw [hexit]
      rfl
    rw [hidle, zero_add, Multiset.coe_eq_coe] at htaken
    rw [horder, hempty, List.append_nil]
    exact htaken.symm

/-- A task is taken before another thread shuts the pool down, and a second
`enqueue` comes too late. -/
def shutdownRace : List (PoolEvent 1 (Fin 2)) :=
  [.call 0 .enqueue, .worker 0, .worker 0, .caller 0 none, .caller 0 none, .caller 0 (some 0),
    .call 1 .shutdown, .worker 0, .worker 0, .worker 0, .caller 1 none, .caller 1 none,
    .call 0 .enqueue, .caller 0 none, .caller 0 none, .worker 0, .worker 0, .worker 0, .worker 0]

theorem pool_loses_nothing_shutdownRace :
    ∃ s : ThreadPool 1 (Fin 2), run ThreadPool.step {} shutdownRace = some s ∧
      s.returned = [0] ∧ s.refused = [1] ∧ s.workers 0 = .exited ∧ s.finished.Perm s.accepted := by
  have hsummary : (run ThreadPool.step ({} : ThreadPool 1 (Fin 2)) shutdownRace).map
      (fun s ↦ (s.returned, s.refused, s.workers 0)) = some ([0], [1], .exited) := by decide
  obtain ⟨s, hrun, hs⟩ := Option.map_eq_some_iff.mp hsummary
  obtain ⟨hreturned, hrest⟩ := Prod.mk.inj hs
  obtain ⟨hrefused, hexited⟩ := Prod.mk.inj hrest
  have hall := (pool_loses_nothing 1 {} s shutdownRace rfl hrun).2.2.2.2.2
  exact ⟨s, hrun, hreturned, hrefused, hexited, (hall fun w ↦ Fin.fin_one_eq_zero w ▸ hexited).2⟩

end ByteCacheDB
