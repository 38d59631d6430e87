import ByteCacheDB.ThreadPool

/-!
# The server's threads together

The main thread opens the log and accepts connections, every connection has a thread
that hands its commands to the pool and waits for the results, and `stop` may be called
at any time; `stop_mutex_` keeps its calls from overlapping.  The pool is the one of
`ThreadPool`: a connection is its caller `some i` and `stop` its caller `none`.  What
the execution of a command returns is left open.
-/

namespace ByteCacheDB

open Runs Threads

/-- Where the main thread stands in `start`. -/
inductive MainPc where
  /-- before `persistence_.open` -/
  | starting
  /-- before `running_.store(true)` -/
  | opened
  /-- in the accept loop -/
  | launched
  deriving DecidableEq, Repr

/-- Where the thread of a connection stands in `handle`. -/
inductive ClientPc where
  /-- not accepted yet -/
  | absent
  | reading
  /-- in `command_pool_.enqueue` -/
  | enqueuing (task : ℕ)
  /-- in `future.get` -/
  | waiting (task : ℕ)
  | gone
  deriving DecidableEq, Repr

/-- Where the call of `stop` stands, if there is one. -/
inductive StopPc (ι : Type*) where
  | idle
  /-- `running_` is false, `join_connection_threads` to come -/
  | flagged
  | joining (threads : List ι)
  /-- in `thread_pool_.shutdown` -/
  | pooling
  /-- before `persistence_.close` -/
  | closing
deriving DecidableEq

inductive ServiceEvent (n : ℕ) (ι R : Type*) where
  | openLog
  | launch
  /-- a connection is accepted and `running_` found true under `clients_mutex_` -/
  | accept (i : ι)
  /-- its thread is started and the lock released -/
  | register
  /-- the reader has a command for the pool -/
  | submit (i : ι)
  /-- the reader answers a line itself: it is too long or does not parse -/
  | reply (i : ι) (r : R)
  /-- `future.get` returns, and `send_all` succeeds or fails -/
  | answer (i : ι) (sent : Bool)
  /-- the peer has closed, or an answer could not be sent -/
  | leave (i : ι)
  | worker (w : Fin n) (r : R)
  | caller (i : ι) (woken : Option (Fin n))
  | stop
  | stopper (woken : Option (Fin n))

/-- Beside the server: the requests of each connection, as tasks of the pool or as
answers of the reader, the results of the tasks in the order of their execution, the
answers sent to each connection, and the connections whose last answer was
`server is shutting down`. -/
structure Service (n : ℕ) (ι R : Type*) where
  main : MainPc := .starting
  running : Bool := false
  logOpen : Bool := false
  /-- the connection that is being registered, under `clients_mutex_` -/
  acceptor : Option ι := none
  clients : ι → ClientPc := fun _ ↦ .absent
  /-- `connection_threads_` -/
  threads : List ι := []
  stopper : StopPc ι := .idle
  pool : ThreadPool n (Option ι) := {}
  requests : ι → List (ℕ ⊕ R) := fun _ ↦ []
  results : List (ℕ × R) := []
  answers : ι → List R := fun _ ↦ []
  turnedAway : List ι := []

namespace Service

variable {n : ℕ} {ι R : Type*} [DecidableEq ι]

/-- The constructor: at least one worker. -/
def create (workerThreads : ℕ) (ι R : Type*) : Service (max 1 workerThreads) ι R := {}

/-- `enqueue` returns: the command is queued, or the thread ends. -/
def settle (pool : ThreadPool n (Option ι)) (i : ι) (pc : ClientPc) : ClientPc :=
  match pc with
  | .enqueuing task =>
      if pool.callers (some i) ≠ .idle then pc
      else if task ∈ pool.refused then .gone
      else .waiting task
  | _ => pc

/-- `enqueue` has returned false, and `server is shutting down` is the answer. -/
def turnsAway (pool : ThreadPool n (Option ι)) (i : ι) : ClientPc → Bool
  | .enqueuing task => decide (pool.callers (some i) = .idle ∧ task ∈ pool.refused)
  | _ => false

def submit (s : Service n ι R) (i : ι) : Option (Service n ι R) :=
  if s.clients i = .reading then
    (s.pool.callStep (some i) .enqueue).map fun pool ↦
      { s with
        pool
        clients := Function.update s.clients i (.enqueuing s.pool.calls)
        requests := Function.update s.requests i (s.requests i ++ [.inl s.pool.calls]) }
  else none

def reply (s : Service n ι R) (i : ι) (r : R) : Option (Service n ι R) :=
  if s.clients i = .reading then
    some { s with
      requests := Function.update s.requests i (s.requests i ++ [.inr r])
      answers := Function.update s.answers i (s.answers i ++ [r]) }
  else none

/-- The future of a task has a value once the task is finished. -/
def answer (s : Service n ι R) (i : ι) (sent : Bool) : Option (Service n ι R) :=
  match s.clients i with
  | .waiting task =>
      (s.results.lookup task).map fun r ↦
        if sent then
          { s with
            clients := Function.update s.clients i .reading
            answers := Function.update s.answers i (s.answers i ++ [r]) }
        else { s with clients := Function.update s.clients i .gone }
  | _ => none

def leave (s : Service n ι R) (i : ι) : Option (Service n ι R) :=
  if s.clients i = .reading then some { s with clients := Function.update s.clients i .gone }
  else none

def stopperStep (s : Service n ι R) (woken : Option (Fin n)) : Option (Service n ι R) :=
  match s.stopper with
  | .idle => none
  | .flagged =>
      if s.acceptor.isNone then some { s with threads := [], stopper := .joining s.threads }
      else none
  | .joining [] =>
      (s.pool.callStep none .shutdown).map fun pool ↦ { s with pool, stopper := .pooling }
  | .joining (i :: rest) =>
      if s.clients i = .gone then some { s with stopper := .joining rest } else none
  | .pooling =>
      (s.pool.callerStep none woken).map fun pool ↦
        { s with pool, stopper := if pool.callers none = .idle then .closing else .pooling }
  | .closing => some { s with logOpen := false, stopper := .idle }

def step (s : Service n ι R) : ServiceEvent n ι R → Option (Service n ι R)
  | .openLog =>
      if s.main = .starting then some { s with main := .opened, logOpen := true } else none
  | .launch =>
      if s.main = .opened then some { s with main := .launched, running := true } else none
  | .accept i =>
      if s.main = .launched ∧ s.running ∧ s.acceptor.isNone ∧ s.clients i = .absent then
        some { s with acceptor := some i }
      else none
  | .register =>
      match s.acceptor with
      | none => none
      | some i =>
          some { s with
            acceptor := none
            clients := Function.update s.clients i .reading
            threads := s.threads ++ [i] }
  | .submit i => s.submit i
  | .reply i r => s.reply i r
  | .answer i sent => s.answer i sent
  | .leave i => s.leave i
  | .worker w r =>
      (s.pool.workerStep w).map fun pool ↦
        { s with
          pool
          results :=
            match s.pool.workers w with
            | .running task => s.results ++ [(task, r)]
            | _ => s.results }
  | .caller i woken =>
      (s.pool.callerStep (some i) woken).map fun pool ↦
        { s with
          pool
          clients := Function.update s.clients i (settle pool i (s.clients i))
          turnedAway :=
            if turnsAway pool i (s.clients i) then s.turnedAway ++ [i] else s.turnedAway }
  | .stop =>
      match s.stopper with
      | .idle => some { s with running := false, stopper := .flagged }
      | _ => none
  | .stopper woken => s.stopperStep woken

end Service

/-! ## The pool as its callers see it -/

/-- The task of an `enqueue` call that has not returned. -/
def CallerPc.enqueues : CallerPc → Option ℕ
  | .enqueueLocking task | .enqueueChecking task | .enqueueNotifying task => some task
  | _ => none

namespace ThreadPool

variable {n : ℕ} {ι : Type*} [DecidableEq ι] {s s' : ThreadPool n ι}

/-- What the steps of a worker leave alone, and what they finish. -/
structure WorkerFrame (s : ThreadPool n ι) (w : Fin n) (s' : ThreadPool n ι) : Prop where
  callers : s'.callers = s.callers
  stopping : s'.stopping = s.stopping
  calls : s'.calls = s.calls
  refused : s'.refused = s.refused
  finished : s'.finished = s.finished ++
    match s.workers w with
    | .running task => [task]
    | _ => []
  exited : ∀ v, s.workers v = .exited → s'.workers v = .exited

omit [DecidableEq ι] in
theorem workerFrame {w : Fin n} (h : s.workerStep w = some s') : WorkerFrame s w s' := by
  have hexited : ∀ pc, s.workers w ≠ .exited →
      ∀ v, s.workers v = .exited → Function.update s.workers w pc v = .exited := by
    intro pc hw v hv
    rw [Function.update_of_ne]
    · exact hv
    · rintro rfl
      exact hw hv
  unfold workerStep at h
  split at h
  case h_7 => simp at h
  all_goals rename_i hpc
  case h_3 =>
      split at h <;> obtain rfl := Option.some.inj h <;>
        exact ⟨rfl, rfl, rfl, rfl, by simp [hpc], hexited _ (by simp [hpc])⟩
  case h_5 =>
      split at h
      · obtain rfl := Option.some.inj h
        exact ⟨rfl, rfl, rfl, rfl, by simp [hpc], hexited _ (by simp [hpc])⟩
      · split at h
        · simp at h
        · obtain rfl := Option.some.inj h
          exact ⟨rfl, rfl, rfl, rfl, by simp [hpc], hexited _ (by simp [hpc])⟩
  case h_4 | h_6 =>
      obtain rfl := Option.some.inj h
      exact ⟨rfl, rfl, rfl, rfl, by simp [hpc], hexited _ (by simp [hpc])⟩
  all_goals
    simp only [Option.ite_none_right_eq_some, Option.some.injEq] at h
    obtain ⟨-, rfl⟩ := h
    exact ⟨rfl, rfl, rfl, rfl, by simp [hpc], hexited _ (by simp [hpc])⟩

/-- What the steps of a call leave alone. -/
structure CallerFrame (s : ThreadPool n ι) (c : ι) (s' : ThreadPool n ι) : Prop where
  callers : ∀ d, d ≠ c → s'.callers d = s.callers d
  calls : s'.calls = s.calls
  finished : s'.finished = s.finished
  exited : ∀ w, s.workers w = .exited → s'.workers w = .exited

theorem callerFrame {c : ι} {woken : Option (Fin n)} (h : s.callerStep c woken = some s') :
    CallerFrame s c s' := by
  have hcallers : ∀ pc d, d ≠ c → Function.update s.callers c pc d = s.callers d :=
    fun pc d hd ↦ Function.update_of_ne hd ..
  unfold callerStep at h
  split at h
  case h_1 => simp at h
  case h_3 | h_6 =>
      split at h <;> obtain rfl := Option.some.inj h <;>
        exact ⟨hcallers _, rfl, rfl, fun _ hw ↦ hw⟩
  case h_4 =>
      obtain ⟨workers, hworkers, rfl⟩ := Option.map_eq_some_iff.mp h
      refine ⟨hcallers _, rfl, rfl, fun w hw ↦ ?_⟩
      rcases notifyOne_spec hworkers w with hsame | ⟨hwaiting, -⟩
      · exact hsame.trans hw
      · simp [hwaiting] at hw
  case h_7 =>
      obtain rfl := Option.some.inj h
      exact ⟨hcallers _, rfl, rfl, fun w hw ↦ by simp [notifyAll, hw]⟩
  case h_8 =>
      split at h
      · simp only [Option.ite_none_right_eq_some, Option.some.injEq] at h
        obtain ⟨-, rfl⟩ := h
        exact ⟨hcallers _, rfl, rfl, fun _ hw ↦ hw⟩
      · obtain rfl := Option.some.inj h
        exact ⟨hcallers _, rfl, rfl, fun _ hw ↦ hw⟩
  all_goals
    simp only [Option.ite_none_right_eq_some, Option.some.injEq] at h
    obtain ⟨-, rfl⟩ := h
    exact ⟨hcallers _, rfl, rfl, fun _ hw ↦ hw⟩

/-- A step of an `enqueue` call: it goes on, it is refused, or it returns true. -/
theorem enqueue_cases {c : ι} {woken : Option (Fin n)} {task : ℕ}
    (hpc : (s.callers c).enqueues = some task) (h : s.callerStep c woken = some s') :
    s'.stopping = s.stopping ∧
      ((s'.callers c).enqueues = some task ∧ s'.refused = s.refused ∨
        s'.callers c = .idle ∧ s'.refused = s.refused ++ [task] ∧ s.stopping = true ∨
        s'.callers c = .idle ∧ s'.refused = s.refused ∧ s.callers c = .enqueueNotifying task) := by
  cases hc : s.callers c with
  | enqueueLocking t =>
      simp only [callerStep, hc, Option.ite_none_right_eq_some, Option.some.injEq] at h
      obtain ⟨-, rfl⟩ := h
      rw [hc] at hpc
      exact ⟨rfl, Or.inl ⟨by simpa [CallerPc.enqueues] using hpc, rfl⟩⟩
  | enqueueChecking t =>
      obtain rfl : t = task := by simpa [hc, CallerPc.enqueues] using hpc
      simp only [callerStep, hc] at h
      split at h
      · rename_i hstop
        obtain rfl := Option.some.inj h
        exact ⟨rfl, Or.inr (Or.inl ⟨by simp, rfl, hstop⟩)⟩
      · obtain rfl := Option.some.inj h
        exact ⟨rfl, Or.inl ⟨by simp [CallerPc.enqueues], rfl⟩⟩
  | enqueueNotifying t =>
      obtain rfl : t = task := by simpa [hc, CallerPc.enqueues] using hpc
      simp only [callerStep, hc] at h
      obtain ⟨workers, -, rfl⟩ := Option.map_eq_some_iff.mp h
      exact ⟨rfl, Or.inr (Or.inr ⟨by simp, rfl, rfl⟩)⟩
  | idle | shutdownLocking | shutdownChecking | shutdownNotifying | joining =>
      simp [hc, CallerPc.enqueues] at hpc

/-- A `shutdown` call refuses nothing and never turns into an `enqueue` call. -/
theorem refused_of_not_enqueues {c : ι} {woken : Option (Fin n)}
    (hpc : (s.callers c).enqueues = none) (h : s.callerStep c woken = some s') :
    s'.refused = s.refused ∧ (s'.callers c).enqueues = none := by
  cases hc : s.callers c with
  | idle => simp [callerStep, hc] at h
  | enqueueLocking | enqueueChecking | enqueueNotifying => simp [hc, CallerPc.enqueues] at hpc
  | shutdownLocking =>
      simp only [callerStep, hc, Option.ite_none_right_eq_some, Option.some.injEq] at h
      obtain ⟨-, rfl⟩ := h
      exact ⟨rfl, by simp [CallerPc.enqueues]⟩
  | shutdownChecking =>
      simp only [callerStep, hc] at h
      split at h <;> obtain rfl := Option.some.inj h <;>
        exact ⟨rfl, by simp [CallerPc.enqueues]⟩
  | shutdownNotifying =>
      simp only [callerStep, hc] at h
      obtain rfl := Option.some.inj h
      exact ⟨rfl, by simp [CallerPc.enqueues]⟩
  | joining index =>
      simp only [callerStep, hc] at h
      split at h
      · simp only [Option.ite_none_right_eq_some, Option.some.injEq] at h
        obtain ⟨-, rfl⟩ := h
        exact ⟨rfl, by simp [CallerPc.enqueues]⟩
      · obtain rfl := Option.some.inj h
        exact ⟨rfl, by simp [CallerPc.enqueues]⟩

omit [DecidableEq ι] in
theorem mem_running {w : Fin n} {task : ℕ} (hw : s.workers w = .running task) :
    task ∈ s.running := by
  refine Multiset.mem_sum.mpr ⟨w, Finset.mem_univ w, ?_⟩
  simp [hw, WorkerPc.task]

omit [DecidableEq ι] in
theorem Sound.accepted_of_running (h : Sound s) {w : Fin n} {task : ℕ}
    (hw : s.workers w = .running task) : task ∈ s.accepted := by
  have htaken : task ∈ (s.taken : Multiset ℕ) :=
    h.accounted.taken ▸ Multiset.mem_add.mpr (Or.inl (mem_running hw))
  rw [h.accounted.order]
  exact List.mem_append_left _ htaken

omit [DecidableEq ι] in
theorem Sound.nodup_running (h : Sound s) : (s.running + (s.finished : Multiset ℕ)).Nodup := by
  have haccepted := h.identified.nodup
  rw [h.accounted.order] at haccepted
  rw [← h.accounted.taken, Multiset.coe_nodup]
  exact haccepted.of_append_left

omit [DecidableEq ι] in
/-- A task that runs is neither finished nor refused. -/
theorem Sound.running_fresh (h : Sound s) {w : Fin n} {task : ℕ}
    (hw : s.workers w = .running task) : task ∉ s.finished ∧ task ∉ s.refused := by
  refine ⟨fun hfinished ↦ ?_, fun hrefused ↦
    h.identified.disjoint task hrefused (h.accepted_of_running hw)⟩
  exact Multiset.disjoint_left.mp (Multiset.nodup_add.mp h.nodup_running).2.2 (mem_running hw)
    hfinished

omit [DecidableEq ι] in
/-- Behind the last worker nothing is left. -/
theorem Sound.finished_of_exited (h : Sound s) (hpos : 0 < n)
    (hexited : ∀ w, s.workers w = .exited) : s.finished.Perm s.accepted := by
  have hidle : s.running = 0 := by
    apply total_eq_zero
    intro w
    rw [hexited]
    rfl
  have htaken := h.accounted.taken
  rw [hidle, zero_add, Multiset.coe_eq_coe] at htaken
  rw [h.accounted.order, (h.drained ⟨0, hpos⟩ (hexited _)).2, List.append_nil]
  exact htaken.symm

omit [DecidableEq ι] in
/-- Whatever has run was called before. -/
theorem Sound.lt_calls_of_finished (h : Sound s) {task : ℕ} (htask : task ∈ s.finished) :
    task < s.calls := by
  apply h.identified.lt_calls task
  left
  have : task ∈ (s.taken : Multiset ℕ) :=
    h.accounted.taken ▸ Multiset.mem_add.mpr (Or.inr htask)
  rw [h.accounted.order]
  exact List.mem_append_left _ this

end ThreadPool

/-! ## One connection -/

section Connection

variable {R : Type*}

/-- The tasks among the requests of a connection. -/
def tasks (requests : List (ℕ ⊕ R)) : List ℕ := requests.filterMap Sum.getLeft?

/-- The right answer to a request. -/
def Answers (results : List (ℕ × R)) : ℕ ⊕ R → R → Prop
  | .inl task, r => (task, r) ∈ results
  | .inr r', r => r = r'

/-- The tasks of a connection have been executed, in the order of its requests. -/
def Executed (finished : List ℕ) (requests : List (ℕ ⊕ R)) : Prop :=
  finished.filter (· ∈ tasks requests) = tasks requests

/-- The requests that have not been answered, by where the reader stands. -/
def ClientPc.Unanswered (tail : List (ℕ ⊕ R)) : ClientPc → Prop
  | .absent | .reading => tail = []
  | .enqueuing task | .waiting task => tail = [.inl task]
  | .gone => tail.length ≤ 1

/-- All requests are answered, in their order and each with its own result, but for the
one under way. -/
def Settled (finished : List ℕ) (results : List (ℕ × R)) (pc : ClientPc)
    (requests : List (ℕ ⊕ R)) (answers : List R) : Prop :=
  ∃ past tail, requests = past ++ tail ∧ pc.Unanswered tail ∧
    List.Forall₂ (Answers results) past answers ∧ Executed finished past ∧
    ∀ task ∈ tasks tail, task ∈ finished → Executed finished requests

variable {finished : List ℕ} {results : List (ℕ × R)} {pc pc' : ClientPc}
  {requests : List (ℕ ⊕ R)} {answers : List R} {task : ℕ}

theorem mem_tasks : task ∈ tasks requests ↔ .inl task ∈ requests := by
  simp [tasks, List.mem_filterMap]

@[simp] theorem tasks_append (xs ys : List (ℕ ⊕ R)) : tasks (xs ++ ys) = tasks xs ++ tasks ys :=
  List.filterMap_append

@[simp] theorem tasks_inl (task : ℕ) : tasks [(.inl task : ℕ ⊕ R)] = [task] := rfl

@[simp] theorem tasks_inr (r : R) : tasks [(.inr r : ℕ ⊕ R)] = [] := rfl

theorem Answers.mono {results' : List (ℕ × R)} (h : results ⊆ results') {request : ℕ ⊕ R} {r : R}
    (hr : Answers results request r) : Answers results' request r := by
  cases request with
  | inl task => exact h hr
  | inr r' => exact hr

/-- Another connection's task is finished. -/
theorem Executed.of_other (h : Executed finished requests) (htask : task ∉ tasks requests) :
    Executed (finished ++ [task]) requests := by
  unfold Executed at h ⊢
  rw [List.filter_append, h]
  simp [htask]

/-- The next task is finished. -/
theorem Executed.next (h : Executed finished requests) (hnew : task ∉ finished) :
    Executed (finished ++ [task]) (requests ++ [.inl task]) := by
  have hsame : finished.filter (· ∈ tasks (requests ++ [.inl task])) =
      finished.filter (· ∈ tasks requests) := by
    apply List.filter_congr
    intro t ht
    have hne : t ≠ task := fun heq ↦ hnew (heq ▸ ht)
    simp [hne]
  rw [Executed, List.filter_append, hsame, h]
  simp

theorem Settled.congr (h : Settled finished results pc requests answers)
    (hpc : ∀ tail : List (ℕ ⊕ R), pc.Unanswered tail → pc'.Unanswered tail) :
    Settled finished results pc' requests answers := by
  obtain ⟨past, tail, hrequests, htail, hrest⟩ := h
  exact ⟨past, tail, hrequests, hpc tail htail, hrest⟩

theorem Settled.of_other (h : Settled finished results pc requests answers)
    (htask : task ∉ tasks requests) (r : R) :
    Settled (finished ++ [task]) (results ++ [(task, r)]) pc requests answers := by
  obtain ⟨past, tail, rfl, htail, hanswers, hexecuted, hlate⟩ := h
  have hout := htask
  rw [tasks_append, List.mem_append, not_or] at hout
  refine ⟨past, tail, rfl, htail, hanswers.imp fun _ _ ↦ Answers.mono (List.subset_append_left _ _),
    hexecuted.of_other hout.1, fun t ht hfinished ↦ ?_⟩
  rcases List.mem_append.mp hfinished with hold | hnew
  · exact (hlate t ht hold).of_other htask
  · obtain rfl := List.mem_singleton.mp hnew
    exact absurd ht hout.2

theorem Settled.of_own (h : Settled finished results pc requests answers)
    (hpc : pc = .enqueuing task ∨ pc = .waiting task) (hnew : task ∉ finished) (r : R) :
    Settled (finished ++ [task]) (results ++ [(task, r)]) pc requests answers := by
  obtain ⟨past, tail, rfl, htail, hanswers, hexecuted, -⟩ := h
  obtain rfl : tail = [.inl task] := by rcases hpc with rfl | rfl <;> exact htail
  refine ⟨past, _, rfl, htail, hanswers.imp fun _ _ ↦ Answers.mono (List.subset_append_left _ _),
    hexecuted.of_other fun hold ↦ hnew ?_, fun _ _ _ ↦ hexecuted.next hnew⟩
  rw [← hexecuted] at hold
  exact (List.mem_filter.mp hold).1

theorem Settled.submit (h : Settled finished results .reading requests answers)
    (hnew : task ∉ finished) :
    Settled finished results (.enqueuing task) (requests ++ [.inl task]) answers := by
  obtain ⟨past, tail, rfl, rfl, hanswers, hexecuted, -⟩ := h
  refine ⟨past, [.inl task], by simp, rfl, hanswers, hexecuted, fun t ht hfinished ↦ ?_⟩
  obtain rfl : t = task := by simpa using ht
  exact absurd hfinished hnew

theorem Settled.reply (h : Settled finished results .reading requests answers) (r : R) :
    Settled finished results .reading (requests ++ [.inr r]) (answers ++ [r]) := by
  obtain ⟨past, tail, rfl, rfl, hanswers, hexecuted, -⟩ := h
  refine ⟨past ++ [.inr r], [], by simp, rfl, ?_, ?_, by simp [tasks]⟩
  · exact List.rel_append hanswers (.cons rfl .nil)
  · simpa [Executed] using hexecuted

theorem Settled.answer (h : Settled finished results (.waiting task) requests answers) {r : R}
    (hr : (task, r) ∈ results) (hfinished : task ∈ finished) :
    Settled finished results .reading requests (answers ++ [r]) := by
  obtain ⟨past, tail, rfl, rfl, hanswers, -, hlate⟩ := h
  have hexecuted := hlate task (by simp) hfinished
  refine ⟨past ++ [.inl task], [], by simp, rfl, ?_, hexecuted, by simp [tasks]⟩
  exact List.rel_append hanswers (.cons hr .nil)

end Connection

/-! ## All connections -/

/-- A connection is inside `enqueue` exactly as long as the pool says so. -/
def ClientPc.Calling (caller : CallerPc) : ClientPc → Prop
  | .enqueuing task => caller.enqueues = some task
  | _ => caller = .idle

namespace Service

variable {n : ℕ} {ι R : Type*} {s s' : Service n ι R}

structure Served (s : Service n ι R) : Prop where
  sound : s.pool.Sound
  results : s.results.map Prod.fst = s.pool.finished
  numbered : ∀ i task, .inl task ∈ s.requests i → task < s.pool.calls
  own : ∀ i j task, .inl task ∈ s.requests i → .inl task ∈ s.requests j → i = j
  calling : ∀ i, (s.clients i).Calling (s.pool.callers (some i))
  shutting : (s.pool.callers none).enqueues = none
  pending : ∀ i task, .inl task ∈ s.requests i → task ∈ s.pool.finished ∨
    task ∈ s.pool.refused ∨ s.clients i = .enqueuing task ∨ s.clients i = .waiting task
  admitted : ∀ i, s.acceptor = some i → s.clients i = .absent
  settled : ∀ i, Settled s.pool.finished s.results (s.clients i) (s.requests i) (s.answers i)

variable [DecidableEq ι]

/-- A connection moves while the pool does not. -/
theorem Served.of_client (h : Served s) (i : ι) (pc : ClientPc) {requests : List (ℕ ⊕ R)}
    {answers : List R} (hpool : s'.pool = s.pool) (hresults : s'.results = s.results)
    (hclients : s'.clients = Function.update s.clients i pc)
    (hrequests : s'.requests = Function.update s.requests i requests)
    (hanswers : s'.answers = Function.update s.answers i answers)
    (hacceptor : ∀ j, s'.acceptor = some j → s.acceptor = some j ∧ j ≠ i)
    (htasks : ∀ task, .inl task ∈ requests → .inl task ∈ s.requests i)
    (hcalling : pc.Calling (s.pool.callers (some i)))
    (hpending : ∀ task, .inl task ∈ requests → task ∈ s.pool.finished ∨
      task ∈ s.pool.refused ∨ pc = .enqueuing task ∨ pc = .waiting task)
    (hsettled : Settled s.pool.finished s.results pc requests answers) : Served s' := by
  have hmem : ∀ j task, .inl task ∈ s'.requests j → .inl task ∈ s.requests j := by
    intro j task hj
    rw [hrequests, Function.update_apply] at hj
    split at hj
    · rename_i hji
      exact hji ▸ htasks task hj
    · exact hj
  refine ⟨hpool ▸ h.sound, hpool ▸ hresults ▸ h.results, fun j task hj ↦ ?_,
    fun j k task hj hk ↦ h.own j k task (hmem j task hj) (hmem k task hk), fun j ↦ ?_,
    hpool ▸ h.shutting, fun j task hj ↦ ?_, fun j hj ↦ ?_, fun j ↦ ?_⟩
  · rw [hpool]
    exact h.numbered j task (hmem j task hj)
  · rw [hclients, hpool, Function.update_apply]
    split
    · rename_i hji
      exact hji ▸ hcalling
    · exact h.calling j
  · rw [hclients, hpool, Function.update_apply]
    rw [hrequests, Function.update_apply] at hj
    split at hj
    · rename_i hji
      rw [if_pos hji]
      exact hpending task hj
    · rename_i hji
      rw [if_neg hji]
      exact h.pending j task hj
  · obtain ⟨hold, hji⟩ := hacceptor j hj
    rw [hclients, Function.update_of_ne hji]
    exact h.admitted j hold
  · rw [hclients, hrequests, hanswers, hpool, hresults]
    simp only [Function.update_apply]
    split
    · exact hsettled
    · exact h.settled j

theorem served_submit (h : Served s) {i : ι} (hstep : s.submit i = some s') : Served s' := by
  simp only [submit, Option.ite_none_right_eq_some] at hstep
  obtain ⟨hpc, hcall⟩ := hstep
  obtain ⟨pool, hpool, rfl⟩ := Option.map_eq_some_iff.mp hcall
  have hsound : pool.Sound := ThreadPool.sound_step (e := .call (some i) .enqueue) h.sound hpool
  have hnew : s.pool.calls ∉ s.pool.finished :=
    fun hmem ↦ lt_irrefl _ (h.sound.lt_calls_of_finished hmem)
  simp only [ThreadPool.callStep, Option.ite_none_right_eq_some, Option.some.injEq] at hpool
  obtain ⟨hidle, rfl⟩ := hpool
  have hmem : ∀ j task, .inl task ∈ Function.update s.requests i
      (s.requests i ++ [.inl s.pool.calls]) j →
      .inl task ∈ s.requests j ∨ j = i ∧ task = s.pool.calls := by
    intro j task hj
    rw [Function.update_apply] at hj
    split at hj
    · rename_i hji
      subst hji
      simpa using hj
    · exact Or.inl hj
  refine ⟨hsound, h.results, fun j task hj ↦ ?_, fun j k task hj hk ↦ ?_, fun j ↦ ?_, ?_,
    fun j task hj ↦ ?_, fun j hj ↦ ?_, fun j ↦ ?_⟩
  · dsimp only
    rcases hmem j task hj with hold | ⟨-, rfl⟩
    · exact (h.numbered j task hold).trans (Nat.lt_succ_self _)
    · exact Nat.lt_succ_self _
  · rcases hmem j task hj with hold | ⟨hji, ht⟩ <;> rcases hmem k task hk with hold' | ⟨hki, ht'⟩
    · exact h.own j k task hold hold'
    · exact absurd (ht' ▸ h.numbered j task hold) (lt_irrefl _)
    · exact absurd (ht ▸ h.numbered k task hold') (lt_irrefl _)
    · exact hji.trans hki.symm
  · dsimp only
    by_cases hji : j = i
    · subst hji
      simp [ClientPc.Calling, CallerPc.enqueues]
    · rw [Function.update_of_ne hji, Function.update_of_ne (by simpa using hji)]
      exact h.calling j
  · exact h.shutting
  · dsimp only
    rcases hmem j task hj with hold | ⟨rfl, rfl⟩
    · rcases h.pending j task hold with hdone | hdone | hdone
      · exact Or.inl hdone
      · exact Or.inr (Or.inl hdone)
      · by_cases hji : j = i
        · subst hji
          simp [hpc] at hdone
        · rw [Function.update_of_ne hji]
          exact Or.inr (Or.inr hdone)
    · exact Or.inr (Or.inr (Or.inl (Function.update_self ..)))
  · have hold := h.admitted j hj
    dsimp only
    rw [Function.update_of_ne]
    · exact hold
    · rintro rfl
      simp [hpc] at hold
  · dsimp only
    by_cases hji : j = i
    · subst hji
      simp only [Function.update_self]
      have hsettled := h.settled j
      rw [hpc] at hsettled
      exact hsettled.submit hnew
    · simp only [Function.update_of_ne hji]
      exact h.settled j

theorem served_reply (h : Served s) {i : ι} {r : R} (hstep : s.reply i r = some s') :
    Served s' := by
  simp only [reply, Option.ite_none_right_eq_some, Option.some.injEq] at hstep
  obtain ⟨hpc, rfl⟩ := hstep
  have hsettled := h.settled i
  have hcalling := h.calling i
  rw [hpc] at hsettled hcalling
  refine h.of_client i .reading rfl rfl (by simp [← hpc]) rfl rfl
    (fun j hj ↦ ⟨hj, ?_⟩) (by simp) hcalling ?_ (hsettled.reply r)
  · rintro rfl
    simp [h.admitted j hj] at hpc
  · intro task htask
    simpa [hpc] using h.pending i task (by simpa using htask)

theorem mem_of_lookup {results : List (ℕ × R)} {task : ℕ} {r : R}
    (h : results.lookup task = some r) : (task, r) ∈ results := by
  obtain ⟨l₁, l₂, rfl, -⟩ := List.lookup_eq_some_iff.mp h
  simp

theorem served_answer (h : Served s) {i : ι} {sent : Bool} (hstep : s.answer i sent = some s') :
    Served s' := by
  unfold answer at hstep
  split at hstep
  case h_2 => simp at hstep
  rename_i task hpc
  obtain ⟨r, hr, rfl⟩ := Option.map_eq_some_iff.mp hstep
  have hmem := mem_of_lookup hr
  have hfinished : task ∈ s.pool.finished := by
    rw [← h.results]
    exact List.mem_map_of_mem hmem
  have hsettled := h.settled i
  have hcalling := h.calling i
  rw [hpc] at hsettled hcalling
  have hacceptor : ∀ j, s.acceptor = some j → s.acceptor = some j ∧ j ≠ i := by
    refine fun j hj ↦ ⟨hj, ?_⟩
    rintro rfl
    simp [h.admitted j hj] at hpc
  have hpending : ∀ t, .inl t ∈ s.requests i → t ∈ s.pool.finished ∨ t ∈ s.pool.refused := by
    intro t ht
    rcases h.pending i t ht with hdone | hdone | hdone | hdone
    · exact Or.inl hdone
    · exact Or.inr hdone
    · simp [hpc] at hdone
    · obtain rfl : task = t := by simpa [hpc] using hdone
      exact Or.inl hfinished
  have hdone : ∀ (pc : ClientPc) t, .inl t ∈ s.requests i → t ∈ s.pool.finished ∨
      t ∈ s.pool.refused ∨ pc = .enqueuing t ∨ pc = .waiting t :=
    fun pc t ht ↦ (hpending t ht).imp_right Or.inl
  cases sent with
  | true =>
      exact h.of_client i _ rfl rfl rfl (Function.update_eq_self i _).symm rfl hacceptor
        (fun _ ht ↦ ht) hcalling (hdone _) (hsettled.answer hmem hfinished)
  | false =>
      refine h.of_client i _ rfl rfl rfl (Function.update_eq_self i _).symm
        (Function.update_eq_self i _).symm hacceptor (fun _ ht ↦ ht) hcalling (hdone _)
        (hsettled.congr ?_)
      rintro tail rfl
      simp [ClientPc.Unanswered]

theorem served_leave (h : Served s) {i : ι} (hstep : s.leave i = some s') : Served s' := by
  simp only [leave, Option.ite_none_right_eq_some, Option.some.injEq] at hstep
  obtain ⟨hpc, rfl⟩ := hstep
  have hsettled := h.settled i
  have hcalling := h.calling i
  rw [hpc] at hsettled hcalling
  refine h.of_client i _ rfl rfl rfl (Function.update_eq_self i _).symm
    (Function.update_eq_self i _).symm (fun j hj ↦ ⟨hj, ?_⟩) (fun _ ht ↦ ht) hcalling ?_
    (hsettled.congr ?_)
  · rintro rfl
    simp [h.admitted j hj] at hpc
  · intro task htask
    simpa [hpc] using h.pending i task htask
  · rintro tail rfl
    simp [ClientPc.Unanswered]

theorem served_register (h : Served s) {i : ι} (hacceptor : s.acceptor = some i) :
    Served { s with
      acceptor := none
      clients := Function.update s.clients i .reading
      threads := s.threads ++ [i] } := by
  have hpc := h.admitted i hacceptor
  have hsettled := h.settled i
  have hcalling := h.calling i
  rw [hpc] at hsettled hcalling
  refine h.of_client i _ rfl rfl rfl (Function.update_eq_self i _).symm
    (Function.update_eq_self i _).symm (by simp) (fun _ ht ↦ ht) hcalling ?_
    (hsettled.congr fun _ htail ↦ htail)
  intro task htask
  simpa [hpc] using h.pending i task htask

omit [DecidableEq ι] in
/-- Nothing moves that the requests depend on. -/
theorem Served.congr (h : Served s) (hpool : s'.pool = s.pool) (hresults : s'.results = s.results)
    (hclients : s'.clients = s.clients) (hrequests : s'.requests = s.requests)
    (hanswers : s'.answers = s.answers)
    (hadmitted : ∀ i, s'.acceptor = some i → s.clients i = .absent) : Served s' := by
  obtain ⟨h₁, h₂, h₃, h₄, h₅, h₆, h₇, -, h₉⟩ := h
  constructor <;> simpa only [hpool, hresults, hclients, hrequests, hanswers]

theorem served_worker (h : Served s) {w : Fin n} {r : R} {pool : ThreadPool n (Option ι)}
    (hpool : s.pool.workerStep w = some pool) :
    Served { s with
      pool
      results :=
        match s.pool.workers w with
        | .running task => s.results ++ [(task, r)]
        | _ => s.results } := by
  have hsound : pool.Sound := ThreadPool.sound_step (e := .worker w) h.sound hpool
  have hframe := ThreadPool.workerFrame hpool
  by_cases hrunning : ∃ task, s.pool.workers w = .running task
  · obtain ⟨task, hw⟩ := hrunning
    have hfresh := h.sound.running_fresh hw
    have hfinished : pool.finished = s.pool.finished ++ [task] := by simp [hframe.finished, hw]
    simp only [hw]
    refine ⟨hsound, ?_, ?_, h.own, ?_, ?_, fun i t ht ↦ ?_, h.admitted, fun i ↦ ?_⟩
    · simp [h.results, hfinished]
    · simpa [hframe.calls] using h.numbered
    · simpa [hframe.callers] using h.calling
    · simpa [hframe.callers] using h.shutting
    · simp only [hfinished, hframe.refused, List.mem_append]
      exact (h.pending i t ht).imp_left Or.inl
    · dsimp only
      rw [hfinished]
      by_cases hown : task ∈ tasks (s.requests i)
      · have hpc := h.pending i task (mem_tasks.mp hown)
        simp only [hfresh, false_or] at hpc
        exact (h.settled i).of_own hpc hfresh.1 r
      · exact (h.settled i).of_other hown r
  · have hfinished : pool.finished = s.pool.finished := by
      rw [hframe.finished]
      cases hw : s.pool.workers w <;> simp_all
    have hresults : (match s.pool.workers w with
        | .running task => s.results ++ [(task, r)]
        | _ => s.results) = s.results := by
      cases hw : s.pool.workers w <;> simp_all
    rw [hresults]
    refine ⟨hsound, hfinished ▸ h.results, ?_, h.own, ?_, ?_, ?_, h.admitted, ?_⟩
    · simpa [hframe.calls] using h.numbered
    · simpa [hframe.callers] using h.calling
    · simpa [hframe.callers] using h.shutting
    · simpa [hfinished, hframe.refused] using h.pending
    · simpa [hfinished] using h.settled

/-- The caller is busy, so the connection is inside `enqueue`. -/
theorem Served.enqueuing_of_callerStep (h : Served s) {i : ι} {woken : Option (Fin n)}
    {pool : ThreadPool n (Option ι)} (hpool : s.pool.callerStep (some i) woken = some pool) :
    ∃ task, s.clients i = .enqueuing task ∧ (s.pool.callers (some i)).enqueues = some task := by
  have hcalling := h.calling i
  cases hpc : s.clients i with
  | enqueuing task =>
      rw [hpc] at hcalling
      exact ⟨task, rfl, hcalling⟩
  | absent | reading | waiting | gone =>
      rw [hpc] at hcalling
      have hidle : s.pool.callers (some i) = .idle := hcalling
      simp [ThreadPool.callerStep, hidle] at hpool

/-- Behind a step of `enqueue` the call goes on, has been refused, or has queued the task. -/
theorem Served.settle_cases (h : Served s) {i : ι} {task : ℕ} {woken : Option (Fin n)}
    {pool : ThreadPool n (Option ι)} (hpool : s.pool.callerStep (some i) woken = some pool)
    (henqueues : (s.pool.callers (some i)).enqueues = some task) :
    settle pool i (.enqueuing task) = .enqueuing task ∧
        (pool.callers (some i)).enqueues = some task ∨
      settle pool i (.enqueuing task) = .gone ∧ pool.callers (some i) = .idle ∧
        task ∈ pool.refused ∨
      settle pool i (.enqueuing task) = .waiting task ∧ pool.callers (some i) = .idle := by
  rcases (ThreadPool.enqueue_cases henqueues hpool).2 with
    ⟨hgoing, -⟩ | ⟨hidle, hmore, -⟩ | ⟨hidle, hsame, hnotifying⟩
  · left
    refine ⟨?_, hgoing⟩
    have hbusy : pool.callers (some i) ≠ .idle := by
      rintro hidle
      simp [hidle, CallerPc.enqueues] at hgoing
    simp [settle, hbusy]
  · right; left
    have hin : task ∈ pool.refused := by simp [hmore]
    exact ⟨by simp [settle, hidle, hin], hidle, hin⟩
  · right; right
    have hout : task ∉ pool.refused := by
      rw [hsame]
      intro hrefused
      apply h.sound.identified.disjoint task hrefused
      rw [h.sound.identified.answered]
      exact Or.inr ⟨some i, hnotifying⟩
    exact ⟨by simp [settle, hidle, hout], hidle⟩

theorem served_caller (h : Served s) {i : ι} {woken : Option (Fin n)}
    {pool : ThreadPool n (Option ι)} (hpool : s.pool.callerStep (some i) woken = some pool)
    (turnedAway : List ι) :
    Served { s with
      pool, clients := Function.update s.clients i (settle pool i (s.clients i)), turnedAway } := by
  have hsound : pool.Sound := ThreadPool.sound_step (e := .caller (some i) woken) h.sound hpool
  have hframe := ThreadPool.callerFrame hpool
  obtain ⟨task, hpc, henqueues⟩ := h.enqueuing_of_callerStep hpool
  have hsubset : s.pool.refused ⊆ pool.refused := by
    rcases (ThreadPool.enqueue_cases henqueues hpool).2 with
      ⟨-, hsame⟩ | ⟨-, hmore, -⟩ | ⟨-, hsame, -⟩
    · exact hsame ▸ List.Subset.refl _
    · exact hmore ▸ List.subset_append_left _ _
    · exact hsame ▸ List.Subset.refl _
  have hsettle := h.settle_cases hpool henqueues
  refine ⟨hsound, ?_, ?_, h.own, fun j ↦ ?_, ?_, fun j t ht ↦ ?_, fun j hj ↦ ?_, fun j ↦ ?_⟩
  · simpa [hframe.finished] using h.results
  · simpa [hframe.calls] using h.numbered
  · by_cases hji : j = i
    · subst hji
      simp only [Function.update_self, hpc]
      rcases hsettle with ⟨hpc', hgoing⟩ | ⟨hpc', hidle, -⟩ | ⟨hpc', hidle⟩ <;> rw [hpc']
      · exact hgoing
      · exact hidle
      · exact hidle
    · simp only [Function.update_of_ne hji, hframe.callers (some j) (by simpa using hji)]
      exact h.calling j
  · rw [hframe.callers none (by simp)]
    exact h.shutting
  · simp only [hframe.finished]
    by_cases hji : j = i
    · subst hji
      simp only [Function.update_self, hpc]
      rcases h.pending j t ht with hdone | hdone | hdone | hdone
      · exact Or.inl hdone
      · exact Or.inr (Or.inl (hsubset hdone))
      · obtain rfl : task = t := by simpa [hpc] using hdone
        rcases hsettle with ⟨hpc', -⟩ | ⟨-, -, hrefused⟩ | ⟨hpc', -⟩
        · exact Or.inr (Or.inr (Or.inl hpc'))
        · exact Or.inr (Or.inl hrefused)
        · exact Or.inr (Or.inr (Or.inr hpc'))
      · simp [hpc] at hdone
    · rw [Function.update_of_ne hji]
      exact (h.pending j t ht).imp_right (Or.imp_left fun hdone ↦ hsubset hdone)
  · have hold := h.admitted j hj
    dsimp only
    rw [Function.update_of_ne]
    · exact hold
    · rintro rfl
      simp [hpc] at hold
  · simp only [hframe.finished]
    by_cases hji : j = i
    · subst hji
      have hsettled := h.settled j
      simp only [Function.update_self, hpc] at hsettled ⊢
      refine hsettled.congr ?_
      rintro tail rfl
      rcases hsettle with ⟨hpc', -⟩ | ⟨hpc', -⟩ | ⟨hpc', -⟩ <;> rw [hpc'] <;>
        simp [ClientPc.Unanswered]
    · rw [Function.update_of_ne hji]
      exact h.settled j

omit [DecidableEq ι] in
/-- A step of `shutdown` concerns no connection. -/
theorem Served.of_stopper (h : Served s) {pool : ThreadPool n (Option ι)} {stopper : StopPc ι}
    (hsound : pool.Sound) (hcallers : ∀ i, pool.callers (some i) = s.pool.callers (some i))
    (hshutting : (pool.callers none).enqueues = none) (hcalls : pool.calls = s.pool.calls)
    (hfinished : pool.finished = s.pool.finished) (hrefused : pool.refused = s.pool.refused) :
    Served { s with pool, stopper } := by
  obtain ⟨-, h₂, h₃, h₄, h₅, -, h₇, h₈, h₉⟩ := h
  refine ⟨hsound, ?_, ?_, h₄, ?_, hshutting, ?_, h₈, ?_⟩ <;>
    simpa only [hcallers, hcalls, hfinished, hrefused]

theorem served_stopper (h : Served s) {woken : Option (Fin n)}
    (hstep : s.stopperStep woken = some s') : Served s' := by
  unfold stopperStep at hstep
  split at hstep
  · simp at hstep
  · simp only [Option.ite_none_right_eq_some, Option.some.injEq] at hstep
    obtain ⟨-, rfl⟩ := hstep
    exact h.congr rfl rfl rfl rfl rfl h.admitted
  · obtain ⟨pool, hpool, rfl⟩ := Option.map_eq_some_iff.mp hstep
    have hsound : pool.Sound := ThreadPool.sound_step (e := .call none .shutdown) h.sound hpool
    simp only [ThreadPool.callStep, Option.ite_none_right_eq_some, Option.some.injEq] at hpool
    obtain ⟨-, rfl⟩ := hpool
    exact h.of_stopper hsound (by simp) (by simp [CallerPc.enqueues]) rfl rfl rfl
  · simp only [Option.ite_none_right_eq_some, Option.some.injEq] at hstep
    obtain ⟨-, rfl⟩ := hstep
    exact h.congr rfl rfl rfl rfl rfl h.admitted
  · obtain ⟨pool, hpool, rfl⟩ := Option.map_eq_some_iff.mp hstep
    have hsound : pool.Sound := ThreadPool.sound_step (e := .caller none woken) h.sound hpool
    have hframe := ThreadPool.callerFrame hpool
    obtain ⟨hrefused, hshutting⟩ := ThreadPool.refused_of_not_enqueues h.shutting hpool
    exact h.of_stopper hsound (fun i ↦ hframe.callers (some i) (by simp)) hshutting hframe.calls
      hframe.finished hrefused
  · obtain rfl := Option.some.inj hstep
    exact h.congr rfl rfl rfl rfl rfl h.admitted

theorem served_step (h : Served s) {e : ServiceEvent n ι R} (hstep : s.step e = some s') :
    Served s' := by
  cases e with
  | openLog | launch =>
      simp only [step, Option.ite_none_right_eq_some, Option.some.injEq] at hstep
      obtain ⟨-, rfl⟩ := hstep
      exact h.congr rfl rfl rfl rfl rfl h.admitted
  | accept i =>
      simp only [step, Option.ite_none_right_eq_some, Option.some.injEq] at hstep
      obtain ⟨⟨-, -, -, habsent⟩, rfl⟩ := hstep
      refine h.congr rfl rfl rfl rfl rfl fun j hj ↦ ?_
      obtain rfl := Option.some.inj hj
      exact habsent
  | register =>
      simp only [step] at hstep
      split at hstep
      · simp at hstep
      · rename_i i hacceptor
        obtain rfl := Option.some.inj hstep
        exact served_register h hacceptor
  | submit i => exact served_submit h hstep
  | reply i r => exact served_reply h hstep
  | answer i sent => exact served_answer h hstep
  | leave i => exact served_leave h hstep
  | worker w r =>
      obtain ⟨pool, hpool, rfl⟩ := Option.map_eq_some_iff.mp hstep
      exact served_worker h hpool
  | caller i woken =>
      obtain ⟨pool, hpool, rfl⟩ := Option.map_eq_some_iff.mp hstep
      exact served_caller h hpool _
  | stop =>
      simp only [step] at hstep
      split at hstep
      · obtain rfl := Option.some.inj hstep
        exact h.congr rfl rfl rfl rfl rfl h.admitted
      · simp at hstep
  | stopper woken => exact served_stopper h hstep

omit [DecidableEq ι] in
theorem served_create (workerThreads : ℕ) : Served (create workerThreads ι R) := by
  have hpool : ThreadPool.create (max 1 workerThreads) (Option ι) =
      some (create workerThreads ι R).pool := if_neg (by omega)
  refine ⟨ThreadPool.sound_create hpool, rfl, by simp [create], by simp [create], fun _ ↦ rfl, rfl,
    by simp [create], by simp [create], fun i ↦ ?_⟩
  exact ⟨[], [], rfl, rfl, .nil, rfl, by simp [tasks]⟩

theorem served_run {events : List (ServiceEvent n ι R)} (h : Served s)
    (hrun : run step s events = some s') : Served s' :=
  run_invariant (Q := fun _ _ ↦ True) (P := fun _ s ↦ Served s) h
    (fun _ _ _ _ hs _ hstep ↦ served_step hs hstep) (along_of_forall (fun _ _ ↦ trivial) s events)
    hrun

end Service

/-- However connections and workers interleave, and whatever the commands return: the
requests of a connection are answered in their order and each with its own result, up to
at most one request that is under way or whose answer was not sent; its commands are
executed in the order of its requests, and no command is executed twice. -/
theorem requests_answered_in_order {ι R : Type*} [DecidableEq ι] (workerThreads : ℕ)
    (events : List (ServiceEvent (max 1 workerThreads) ι R))
    (s : Service (max 1 workerThreads) ι R)
    (hrun : run Service.step (Service.create workerThreads ι R) events = some s) :
    (s.results.map Prod.fst).Nodup ∧
      ∀ i, (s.requests i).length ≤ (s.answers i).length + 1 ∧
        List.Forall₂ (Answers s.results) ((s.requests i).take (s.answers i).length) (s.answers i) ∧
        (s.results.map Prod.fst).filter (· ∈ tasks (s.requests i)) <+: tasks (s.requests i) := by
  have hserved := Service.served_run (Service.served_create workerThreads) hrun
  refine ⟨?_, fun i ↦ ?_⟩
  · rw [hserved.results, ← Multiset.coe_nodup]
    exact (Multiset.nodup_add.mp hserved.sound.nodup_running).2.1
  · obtain ⟨past, tail, hrequests, htail, hanswers, hexecuted, hlate⟩ := hserved.settled i
    have hlength := hanswers.length_eq
    have hone : tail.length ≤ 1 := by
      cases hpc : s.clients i <;> simp only [hpc, ClientPc.Unanswered] at htail <;> simp [htail]
    rw [hrequests, hserved.results]
    refine ⟨by simp; omega, by simpa [← hlength] using hanswers, ?_⟩
    by_cases hlast : ∃ task ∈ tasks tail, task ∈ s.pool.finished
    · obtain ⟨task, htask, hfinished⟩ := hlast
      have hall := hlate task htask hfinished
      rw [hrequests] at hall
      exact ⟨[], (List.append_nil _).trans hall⟩
    · have hsame : s.pool.finished.filter (· ∈ tasks (past ++ tail)) =
          s.pool.finished.filter (· ∈ tasks past) := by
        apply List.filter_congr
        intro task htask
        have hout : task ∉ tasks tail := fun hmem ↦ hlast ⟨task, hmem, htask⟩
        simp [hout]
      rw [hsame, hexecuted, tasks_append]
      exact List.prefix_append _ _

def onlyWorker : Fin (max 1 1) := ⟨0, Nat.zero_lt_one⟩

/-- Two connections and one worker: the first connection sends a command, a line that
does not parse and another command; the second comes in between. -/
def twoClients : List (ServiceEvent (max 1 1) Bool ℕ) :=
  [.openLog, .launch, .accept false, .register, .accept true, .register, .submit false,
    .submit true, .caller true none, .caller true none, .caller true none, .caller false none,
    .caller false none, .caller false none, .worker onlyWorker 0, .worker onlyWorker 0,
    .worker onlyWorker 0, .worker onlyWorker 71, .worker onlyWorker 0, .worker onlyWorker 0,
    .worker onlyWorker 0, .worker onlyWorker 70, .answer false true, .reply false 9,
    .submit false, .answer true false]

theorem requests_answered_in_order_twoClients :
    ∃ s, run Service.step (Service.create 1 Bool ℕ) twoClients = some s ∧
      s.requests false = [.inl 0, .inr 9, .inl 2] ∧ s.answers false = [70, 9] ∧
      List.Forall₂ (Answers s.results) ((s.requests false).take 2) (s.answers false) ∧
      s.results = [(1, 71), (0, 70)] ∧ s.requests true = [.inl 1] ∧ s.answers true = [] := by
  have hsummary : (run Service.step (Service.create 1 Bool ℕ) twoClients).map
      (fun s ↦ (decide (s.requests false = [.inl 0, .inr 9, .inl 2]), s.answers false, s.results,
        decide (s.requests true = [.inl 1]), s.answers true)) =
      some (true, [70, 9], [(1, 71), (0, 70)], true, []) := by decide +kernel
  obtain ⟨s, hrun, hs⟩ := Option.map_eq_some_iff.mp hsummary
  simp only [Prod.mk.injEq, decide_eq_true_eq] at hs
  obtain ⟨hrequests, hanswers, hresults, hrequests', hanswers'⟩ := hs
  have hall := ((requests_answered_in_order 1 twoClients s hrun).2 false).2.1
  rw [hanswers] at hall
  exact ⟨s, hrun, hrequests, hanswers, hanswers ▸ hall, hresults, hrequests', hanswers'⟩

end ByteCacheDB
