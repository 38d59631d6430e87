import ByteCacheDB.Connections
import ByteCacheDB.Lib.Progress

/-!
# `stop` returns

A call of `stop` waits for `clients_mutex_` and for the threads of the
connections, and those may be in `recv` for as long as their clients stay.  What
is shown here does not count on a client that leaves: a handler that has not been
shut down need not return.
-/

namespace ByteCacheDB

open Mutex Runs

/-- The steps left to the accept loop once `running_` is false, with those of the
connection that it may still start. -/
def AcceptorPc.work : AcceptorPc → ℕ
  | .left => 0
  | .polling | .checking _ => 1
  | .locking _ | .unlocking => 2
  | .accepting => 3
  | .starting _ => 8
  | .inserting _ => 10

def ConnectionPc.work : ConnectionPc → ℕ
  | .handling => 4
  | .returned => 3
  | .closed => 2
  | .erasing => 1
  | .done => 0

/-- The threads that `join_connection_threads` has yet to join. -/
def StopperPc.threads : StopperPc → List ℕ
  | .joining threads => threads
  | .idle | .flagged | .shutting _ | .swapping => []

namespace Listener

/-- The steps left to the call of `stop`. -/
def stopWork (s : Listener) : ℕ :=
  match s.stopper with
  | .idle => 0
  | .flagged => s.clientFds.length + s.connectionThreads.length + 4
  | .shutting remaining => remaining.length + s.connectionThreads.length + 3
  | .swapping => s.connectionThreads.length + 2
  | .joining threads => threads.length + 1

def handlerWork (connections : List Connection) : ℕ := (connections.map (·.pc.work)).sum

def work (s : Listener) : ℕ := s.acceptor.work + handlerWork s.connections + s.stopWork

/-- Not a new call of `stop`. -/
def SameStop (s : Listener) (e : ListenerEvent) : Prop := e = .stopper → s.stopper ≠ .idle

instance (s : Listener) (e : ListenerEvent) : Decidable (s.SameStop e) :=
  inferInstanceAs (Decidable (e = .stopper → s.stopper ≠ .idle))

/-- A step that comes without a new call of `stop` and without a client that leaves on its
own: `handle` returns because its descriptor was shut down. -/
def Prompted (s : Listener) (e : ListenerEvent) : Prop :=
  s.SameStop e ∧ ∀ i c, e = .connection i → s.connections[i]? = some c → c.pc = .handling →
    c.shut = true

variable {s s' : Listener}

/-! ## Every step is paid for -/

theorem handlerWork_set {connections : List Connection} {i : ℕ} {c d : Connection}
    (hc : connections[i]? = some c) (hlower : d.pc.work < c.pc.work) :
    handlerWork (connections.set i d) < handlerWork connections :=
  sum_set_lt hc hlower

@[simp] theorem handlerWork_append (connections : List Connection) (c : Connection) :
    handlerWork (connections ++ [c]) = handlerWork connections + c.pc.work := by
  simp [handlerWork]

@[simp] theorem handlerWork_shutdown (connections : List Connection) (fd : ℕ) :
    handlerWork (connections.map (Connection.shutdown fd)) = handlerWork connections := by
  simp [handlerWork, Function.comp_def]

theorem length_insert_le (fds : List ℕ) (fd : ℕ) : (fds.insert fd).length ≤ fds.length + 1 := by
  by_cases hmem : fd ∈ fds <;> simp [hmem]

theorem work_acceptStep {outcome : AcceptOutcome} (h : s.acceptStep outcome = some s') :
    s'.work < s.work := by
  unfold acceptStep at h
  split at h
  · rename_i fd hpc
    simp only [Option.ite_none_right_eq_some, Option.some.injEq] at h
    obtain ⟨-, rfl⟩ := h
    simp [work, stopWork, hpc, AcceptorPc.work]
  · rename_i hpc
    obtain rfl := Option.some.inj h
    simp [work, stopWork, hpc, AcceptorPc.work]
  · rename_i hpc
    obtain rfl := Option.some.inj h
    simp [work, stopWork, hpc, AcceptorPc.work]
  · simp at h

theorem work_acceptorStep (hhalted : s.running = false) (h : s.acceptorStep = some s') :
    s'.work < s.work := by
  unfold acceptorStep at h
  split at h
  · rename_i hpc
    obtain rfl := Option.some.inj h
    simp [work, stopWork, hpc, hhalted, AcceptorPc.work]
  · simp at h
  · simp at h
  · rename_i fd hpc
    simp only [Option.ite_none_right_eq_some, Option.some.injEq] at h
    obtain ⟨-, rfl⟩ := h
    simp [work, stopWork, hpc, AcceptorPc.work]
  · rename_i fd hpc
    simp only [hhalted, Bool.false_eq_true, if_false, Option.some.injEq] at h
    subst h
    simp [work, stopWork, hpc, AcceptorPc.work]
  · -- the number counts in the way of a `stop` that has not taken the lock
    rename_i fd hpc
    obtain rfl := Option.some.inj h
    have hlength := length_insert_le s.clientFds fd
    cases hstop : s.stopper with
    | flagged =>
        simp only [work, stopWork, hpc, hstop, AcceptorPc.work]
        omega
    | idle | shutting | swapping | joining => simp [work, stopWork, hpc, hstop, AcceptorPc.work]
  · -- so do the thread and the connection that it serves
    rename_i fd hpc
    obtain rfl := Option.some.inj h
    cases hstop : s.stopper <;>
      (simp [work, stopWork, hpc, hstop, AcceptorPc.work, ConnectionPc.work]; omega)
  · rename_i hpc
    obtain rfl := Option.some.inj h
    simp [work, stopWork, hpc, AcceptorPc.work]

theorem work_connectionStep {i : ℕ} (h : s.connectionStep i = some s') : s'.work < s.work := by
  unfold connectionStep at h
  obtain ⟨c, hc, h⟩ := Option.bind_eq_some_iff.mp h
  split at h
  · rename_i hpc
    obtain rfl := Option.some.inj h
    have hless := handlerWork_set (d := { c with pc := .returned }) hc
      (by simp [hpc, ConnectionPc.work])
    simpa [work, stopWork] using hless
  · rename_i hpc
    obtain rfl := Option.some.inj h
    have hless := handlerWork_set (d := { c with pc := .closed }) hc
      (by simp [hpc, ConnectionPc.work])
    simpa [work, stopWork] using hless
  · rename_i hpc
    simp only [Option.isNone_iff_eq_none, Option.ite_none_right_eq_some, Option.some.injEq] at h
    obtain ⟨-, rfl⟩ := h
    have hless := handlerWork_set (d := { c with pc := .erasing }) hc
      (by simp [hpc, ConnectionPc.work])
    simpa [work, stopWork] using hless
  · rename_i hpc
    obtain rfl := Option.some.inj h
    have hless := handlerWork_set (d := { c with pc := .done }) hc
      (by simp [hpc, ConnectionPc.work])
    have hfewer := List.length_filter_le (fun fd ↦ decide (fd ≠ c.fd)) s.clientFds
    cases hstop : s.stopper <;> simp only [work, stopWork, hstop] <;> omega
  · simp at h

theorem work_stopperStep (hbusy : s.stopper ≠ .idle) (h : s.stopperStep = some s') :
    s'.work < s.work := by
  unfold stopperStep at h
  split at h
  · rename_i hpc
    exact absurd hpc hbusy
  · rename_i hpc
    simp only [Option.isNone_iff_eq_none, Option.ite_none_right_eq_some, Option.some.injEq] at h
    obtain ⟨-, rfl⟩ := h
    simp [work, stopWork, hpc]
  · rename_i hpc
    obtain rfl := Option.some.inj h
    simp [work, stopWork, hpc]
  · rename_i fd rest hpc
    obtain rfl := Option.some.inj h
    simp [work, stopWork, hpc]
  · rename_i hpc
    simp only [Option.isNone_iff_eq_none, Option.ite_none_right_eq_some, Option.some.injEq] at h
    obtain ⟨-, rfl⟩ := h
    simp [work, stopWork, hpc]
  · rename_i hpc
    obtain rfl := Option.some.inj h
    simp [work, stopWork, hpc]
  · rename_i i rest hpc
    simp only [Option.ite_none_right_eq_some, Option.some.injEq] at h
    obtain ⟨-, rfl⟩ := h
    simp [work, stopWork, hpc]

theorem work_step {e : ListenerEvent} (hhalted : s.running = false) (hsame : s.SameStop e)
    (h : s.step e = some s') : s'.work < s.work := by
  cases e with
  | accept outcome => exact work_acceptStep h
  | acceptor => exact work_acceptorStep hhalted h
  | connection i => exact work_connectionStep h
  | stopper => exact work_stopperStep (hsame rfl) h

theorem halted_step {e : ListenerEvent} (h : Step s e s') (hhalted : s.running = false) :
    s'.running = false := by
  cases h <;> first | exact hhalted | rfl

theorem halted_run {events : List ListenerEvent} (hhalted : s.running = false)
    (hrun : run step s events = some s') : s'.running = false :=
  run_invariant (Q := fun _ _ ↦ True) (P := fun _ s ↦ s.running = false) hhalted
    (fun _ _ _ _ hs _ hstep ↦ halted_step (step_of_step hstep) hs)
    (along_of_forall (fun _ _ ↦ trivial) s events) hrun

/-! ## Threads and the mutex -/

/-- What a call of `stop` rests on besides the descriptors. -/
structure Tracked (s : Listener) : Prop where
  held : Occupied s.clientsMutex s.InSection
  tracked : ∀ i c, s.connections[i]? = some c →
    c.pc = .done ∨ i ∈ s.connectionThreads ∨ i ∈ s.stopper.threads
  barred : s.running = false → s.stopper ≠ .flagged → s.acceptor.admitting = false
  emptied : s.running = false → s.stopper = .idle ∨ (∃ threads, s.stopper = .joining threads) →
    s.connectionThreads = []

theorem tracked_init : Tracked {} where
  held := Occupied.none _
  tracked := by simp
  barred := by simp
  emptied := by simp

/-- A move of the accept loop that starts no thread. -/
theorem Tracked.of_acceptor (h : Tracked s) {mutex : Option ClientsHolder} (fds : List ℕ)
    {pc : AcceptorPc}
    (hheld : Occupied mutex { s with acceptor := pc }.InSection)
    (hbarred : s.running = false → s.stopper ≠ .flagged → pc.admitting = false) :
    Tracked { s with clientsMutex := mutex, clientFds := fds, acceptor := pc } :=
  { h with held := hheld, barred := hbarred }

/-- The accept loop moves outside its section, or stays inside. -/
theorem held_acceptor (h : Tracked s) {pc : AcceptorPc}
    (hpc : s.acceptor.locked = false ∨ pc.locked = true) :
    Occupied s.clientsMutex { s with acceptor := pc }.InSection := by
  refine h.held.move (t := .acceptor) (fun hin ↦ ?_) fun x hx hin ↦ ?_
  · exact hpc.resolve_left fun hlocked ↦ by simp [InSection, hlocked] at hin
  · cases x with
    | acceptor => exact absurd rfl hx
    | connection | stopper => exact hin

theorem tracked_acceptStep {outcome : AcceptOutcome} (h : Tracked s)
    (hstep : s.acceptStep outcome = some s') : Tracked s' := by
  unfold acceptStep at hstep
  have hmove (pc : AcceptorPc) (hpc : s.acceptor = .accepting) (hnext : pc.admitting = false) :
      Tracked { s with acceptor := pc } :=
    h.of_acceptor s.clientFds (held_acceptor h (Or.inl (by simp [hpc, AcceptorPc.locked])))
      fun _ _ ↦ hnext
  split at hstep
  · rename_i fd hpc
    simp only [Option.ite_none_right_eq_some, Option.some.injEq] at hstep
    obtain ⟨-, rfl⟩ := hstep
    exact hmove _ hpc rfl
  · rename_i hpc
    obtain rfl := Option.some.inj hstep
    exact hmove _ hpc rfl
  · rename_i hpc
    obtain rfl := Option.some.inj hstep
    exact hmove _ hpc rfl
  · simp at hstep

theorem tracked_acceptorStep (h : Tracked s) (hstep : s.acceptorStep = some s') : Tracked s' := by
  unfold acceptorStep at hstep
  split at hstep
  · rename_i hpc
    obtain rfl := Option.some.inj hstep
    refine h.of_acceptor s.clientFds (held_acceptor h (Or.inl (by simp [hpc, AcceptorPc.locked])))
      fun _ _ ↦ ?_
    split <;> rfl
  · simp at hstep
  · simp at hstep
  · rename_i fd hpc
    simp only [Option.ite_none_right_eq_some, Option.some.injEq] at hstep
    obtain ⟨-, rfl⟩ := hstep
    refine h.of_acceptor s.clientFds (Occupied.acquire ?_) fun _ _ ↦ rfl
    simp [InSection, AcceptorPc.locked]
  · rename_i fd hpc
    split at hstep
    · rename_i hrunning
      obtain rfl := Option.some.inj hstep
      refine h.of_acceptor s.clientFds (held_acceptor h (Or.inr rfl)) fun hhalted ↦ ?_
      simp [hrunning] at hhalted
    · obtain rfl := Option.some.inj hstep
      exact h.of_acceptor s.clientFds (Occupied.none _) fun _ _ ↦ rfl
  · rename_i fd hpc
    obtain rfl := Option.some.inj hstep
    refine h.of_acceptor (s.clientFds.insert fd) (held_acceptor h (Or.inr rfl))
      fun hhalted hflag ↦ ?_
    simpa [hpc, AcceptorPc.admitting] using h.barred hhalted hflag
  · rename_i fd hpc
    obtain rfl := Option.some.inj hstep
    refine { held := ?_, tracked := ?_, barred := fun _ _ ↦ rfl, emptied := ?_ }
    · have hheld : Occupied s.clientsMutex { s with acceptor := .unlocking }.InSection :=
        held_acceptor h (Or.inr rfl)
      refine hheld.keep fun x hin ↦ ?_
      cases x with
      | acceptor | stopper => exact hin
      | connection i =>
          obtain ⟨c, hc, herasing⟩ := hin
          exact ⟨c, List.getElem?_append_left (List.getElem?_eq_some_iff.mp hc).1 ▸ hc, herasing⟩
    · intro i c hc
      rw [List.getElem?_append] at hc
      split at hc
      · refine (h.tracked i c hc).imp_right (Or.imp_left fun hi ↦ ?_)
        exact List.mem_append_left _ hi
      · obtain ⟨hi, -⟩ := List.getElem?_eq_some_iff.mp hc
        have hlast : i = s.connections.length := by
          rw [List.length_singleton] at hi
          omega
        exact Or.inr (Or.inl (by simp [hlast]))
    · intro hhalted hstop
      have hflag : s.stopper ≠ .flagged := by
        rintro hflag
        simp [hflag] at hstop
      have hadmitting := h.barred hhalted hflag
      simp [hpc, AcceptorPc.admitting] at hadmitting
  · rename_i hpc
    obtain rfl := Option.some.inj hstep
    exact h.of_acceptor s.clientFds (Occupied.none _) fun _ _ ↦ rfl

/-- A move of a connection's thread. -/
theorem Tracked.of_connection (h : Tracked s) (mutex : Option ClientsHolder) (fds : List ℕ)
    {i : ℕ} {c : Connection} {pc : ConnectionPc} (hc : s.connections[i]? = some c)
    (hgoing : c.pc ≠ .done)
    (hheld : Occupied mutex
      { s with connections := s.connections.set i { c with pc := pc } }.InSection) :
    Tracked { s with
      clientsMutex := mutex
      clientFds := fds
      connections := s.connections.set i { c with pc := pc } } := by
  refine { h with held := hheld, tracked := fun j d hd ↦ ?_ }
  obtain ⟨rfl, -⟩ | ⟨-, hd⟩ := getElem?_set_eq_some hd
  · exact Or.inr ((h.tracked j c hc).resolve_left hgoing)
  · exact h.tracked j d hd

/-- The holder stays in its section while another connection moves. -/
theorem held_connection (h : Tracked s) {i : ℕ} {c : Connection} (pc : ConnectionPc)
    (hc : s.connections[i]? = some c) (hpc : c.pc ≠ .erasing) :
    Occupied s.clientsMutex
      { s with connections := s.connections.set i { c with pc := pc } }.InSection := by
  refine h.held.keep fun x hin ↦ ?_
  cases x with
  | acceptor | stopper => exact hin
  | connection j =>
      obtain ⟨d, hd, herasing⟩ := hin
      refine ⟨d, ?_, herasing⟩
      rw [List.getElem?_set_ne, hd]
      rintro rfl
      obtain rfl := Option.some.inj (hc.symm.trans hd)
      exact hpc herasing

theorem tracked_connectionStep {i : ℕ} (h : Tracked s) (hstep : s.connectionStep i = some s') :
    Tracked s' := by
  unfold connectionStep at hstep
  obtain ⟨c, hc, hstep⟩ := Option.bind_eq_some_iff.mp hstep
  split at hstep
  · rename_i hpc
    obtain rfl := Option.some.inj hstep
    exact h.of_connection _ _ hc (by simp [hpc]) (held_connection h _ hc (by simp [hpc]))
  · rename_i hpc
    obtain rfl := Option.some.inj hstep
    exact h.of_connection _ _ hc (by simp [hpc]) (held_connection h _ hc (by simp [hpc]))
  · rename_i hpc
    simp only [Option.isNone_iff_eq_none, Option.ite_none_right_eq_some, Option.some.injEq] at hstep
    obtain ⟨-, rfl⟩ := hstep
    obtain ⟨hi, -⟩ := List.getElem?_eq_some_iff.mp hc
    refine h.of_connection _ _ hc (by simp [hpc]) (Occupied.acquire ?_)
    exact ⟨{ c with pc := .erasing }, by simp [hi], rfl⟩
  · rename_i hpc
    obtain rfl := Option.some.inj hstep
    exact h.of_connection _ _ hc (by simp [hpc]) (Occupied.none _)
  · simp at hstep

theorem tracked_stopperStep (hlocked : Locked s) (h : Tracked s)
    (hstep : s.stopperStep = some s') : Tracked s' := by
  unfold stopperStep at hstep
  -- outside `shutdown_clients` somebody else is the holder
  have hother (hpc : s.stopper.locked = false) (pc : StopperPc) :
      Occupied s.clientsMutex { s with stopper := pc }.InSection := by
    refine h.held.keep fun x hin ↦ ?_
    cases x with
    | acceptor | connection => exact hin
    | stopper => simp [InSection, hpc] at hin
  split at hstep
  · rename_i hpc
    obtain rfl := Option.some.inj hstep
    refine ⟨hother (by simp [hpc, StopperPc.locked]) _, ?_, by simp, by simp⟩
    simpa [hpc, StopperPc.threads] using h.tracked
  · rename_i hpc
    simp only [Option.isNone_iff_eq_none, Option.ite_none_right_eq_some, Option.some.injEq] at hstep
    obtain ⟨hfree, rfl⟩ := hstep
    refine ⟨Occupied.acquire ?_, ?_, fun _ _ ↦ ?_, by simp⟩
    · simp [InSection, StopperPc.locked]
    · simpa [hpc, StopperPc.threads] using h.tracked
    · apply AcceptorPc.admitting_of_locked
      by_contra hacceptor
      have hheld := hlocked .acceptor (Bool.eq_true_of_not_eq_false hacceptor)
      simp [hfree] at hheld
  · rename_i hpc
    obtain rfl := Option.some.inj hstep
    refine ⟨Occupied.none _, ?_, fun hhalted _ ↦ h.barred hhalted (by simp [hpc]), by simp⟩
    simpa [hpc, StopperPc.threads] using h.tracked
  · rename_i fd rest hpc
    obtain rfl := Option.some.inj hstep
    refine ⟨h.held.keep fun x hin ↦ ?_, fun i d hd ↦ ?_,
      fun hhalted _ ↦ h.barred hhalted (by simp [hpc]), by simp⟩
    · cases x with
      | acceptor => exact hin
      | connection j =>
          obtain ⟨c, hc, herasing⟩ := hin
          exact ⟨c.shutdown fd, by simp [hc], by simpa using herasing⟩
      | stopper => simp [InSection, StopperPc.locked]
    · rw [List.getElem?_map] at hd
      obtain ⟨c, hc, rfl⟩ := Option.map_eq_some_iff.mp hd
      simpa [hpc, StopperPc.threads] using h.tracked i c hc
  · rename_i hpc
    simp only [Option.isNone_iff_eq_none, Option.ite_none_right_eq_some, Option.some.injEq] at hstep
    obtain ⟨-, rfl⟩ := hstep
    refine ⟨hother (by simp [hpc, StopperPc.locked]) _, ?_,
      fun hhalted _ ↦ h.barred hhalted (by simp [hpc]), fun _ _ ↦ rfl⟩
    simpa [hpc, StopperPc.threads] using h.tracked
  · rename_i hpc
    obtain rfl := Option.some.inj hstep
    refine ⟨hother (by simp [hpc, StopperPc.locked]) _, ?_,
      fun hhalted _ ↦ h.barred hhalted (by simp [hpc]),
      fun hhalted _ ↦ h.emptied hhalted (Or.inr ⟨_, hpc⟩)⟩
    simpa [hpc, StopperPc.threads] using h.tracked
  · rename_i i rest hpc
    simp only [Option.ite_none_right_eq_some, Option.some.injEq] at hstep
    obtain ⟨hdone, rfl⟩ := hstep
    refine ⟨hother (by simp [hpc, StopperPc.locked]) _, fun j c hc ↦ ?_,
      fun hhalted _ ↦ h.barred hhalted (by simp [hpc]),
      fun hhalted _ ↦ h.emptied hhalted (Or.inr ⟨_, hpc⟩)⟩
    have htracked := h.tracked j c hc
    simp only [hpc, StopperPc.threads, List.mem_cons] at htracked ⊢
    obtain hj | hj | rfl | hj := htracked
    · exact Or.inl hj
    · exact Or.inr (Or.inl hj)
    · exact Or.inl (by simpa [hc] using hdone)
    · exact Or.inr (Or.inr hj)

theorem tracked_step {e : ListenerEvent} (hlocked : Locked s) (h : Tracked s)
    (hstep : s.step e = some s') : Tracked s' := by
  cases e with
  | accept outcome => exact tracked_acceptStep h hstep
  | acceptor => exact tracked_acceptorStep h hstep
  | connection i => exact tracked_connectionStep h hstep
  | stopper => exact tracked_stopperStep hlocked h hstep

theorem tracked_run {events : List ListenerEvent} (hrun : run step {} events = some s) :
    Tracked s := by
  have hsound := run_invariant (Q := fun _ _ ↦ True) (P := fun _ s ↦ Locked s ∧ Tracked s)
    ⟨locked_init, tracked_init⟩ ?_ (along_of_forall (fun _ _ ↦ trivial) _ events) hrun
  · exact hsound.2
  · rintro past s e s' ⟨hlocked, hs⟩ - hstep
    exact ⟨locked_step (step_of_step hstep) hlocked, tracked_step hlocked hs hstep⟩

/-! ## Where no step is left -/

theorem free_of_blocked (h : Tracked s) (hblocked : Blocked step Prompted s) :
    s.clientsMutex = none := by
  by_contra hheld
  obtain ⟨x, hx⟩ := Option.ne_none_iff_exists'.mp hheld
  have hin := h.held x hx
  cases x with
  | acceptor =>
      have hnone := hblocked .acceptor ⟨by simp [SameStop], by simp⟩
      simp only [InSection] at hin
      cases hpc : s.acceptor <;> simp [hpc, AcceptorPc.locked] at hin <;>
        simp [step, acceptorStep, hpc] at hnone
      split at hnone <;> simp at hnone
  | connection i =>
      obtain ⟨c, hc, herasing⟩ := hin
      have hnone := hblocked (.connection i) ⟨by simp [SameStop], ?_⟩
      · simp [step, connectionStep, hc, herasing] at hnone
      · intro j d hj hd hpc
        obtain rfl := ListenerEvent.connection.inj hj
        obtain rfl := Option.some.inj (hc.symm.trans hd)
        simp [herasing] at hpc
  | stopper =>
      simp only [InSection] at hin
      have hnone := hblocked .stopper ⟨fun _ hidle ↦ by simp [hidle, StopperPc.locked] at hin,
        by simp⟩
      cases hpc : s.stopper with
      | shutting remaining => cases remaining <;> simp [step, stopperStep, hpc] at hnone
      | idle | flagged | swapping | joining => simp [hpc, StopperPc.locked] at hin

theorem left_of_blocked (h : Tracked s) (hblocked : Blocked step Prompted s) :
    s.acceptor = .left := by
  have hfree := free_of_blocked h hblocked
  have hnone := hblocked .acceptor ⟨by simp [SameStop], by simp⟩
  have hfailed := hblocked (.accept .failed) ⟨by simp [SameStop], by simp⟩
  cases hpc : s.acceptor with
  | left => rfl
  | accepting => simp [step, acceptStep, hpc] at hfailed
  | checking fd =>
      simp only [step, acceptorStep, hpc] at hnone
      split at hnone <;> simp at hnone
  | polling | locking | inserting | starting | unlocking =>
      simp [step, acceptorStep, hpc, hfree] at hnone

/-- The threads that are left serve clients that nobody has disconnected. -/
theorem handling_of_blocked (h : Tracked s) (hblocked : Blocked step Prompted s) {i : ℕ}
    {c : Connection} (hc : s.connections[i]? = some c) :
    c.pc = .done ∨ c.pc = .handling ∧ c.shut = false := by
  have hfree := free_of_blocked h hblocked
  by_cases hshut : c.pc = .handling ∧ c.shut = false
  · exact Or.inr hshut
  · have hnone := hblocked (.connection i) ⟨by simp [SameStop], ?_⟩
    · cases hpc : c.pc <;> simp [step, connectionStep, hc, hpc, hfree] at hnone
      simp
    · intro j d hj hd hpc
      obtain rfl := ListenerEvent.connection.inj hj
      obtain rfl := Option.some.inj (hc.symm.trans hd)
      simpa [hpc] using hshut

theorem idle_of_blocked (h : Tracked s) (hs : Orderly s) (hblocked : Blocked step Prompted s) :
    s.stopper = .idle := by
  have hfree := free_of_blocked h hblocked
  by_contra hbusy
  have hnone := hblocked .stopper ⟨fun _ ↦ hbusy, by simp⟩
  cases hpc : s.stopper with
  | idle => exact hbusy hpc
  | flagged | swapping => simp [step, stopperStep, hpc, hfree] at hnone
  | shutting remaining => cases remaining <;> simp [step, stopperStep, hpc] at hnone
  | joining threads =>
      cases threads with
      | nil => simp [step, stopperStep, hpc] at hnone
      | cons i rest =>
          simp only [step, stopperStep, hpc, ite_eq_right_iff, reduceCtorEq, imp_false,
            Option.all_eq_true, not_forall] at hnone
          obtain ⟨c, hc, hgoing⟩ := hnone
          obtain hdone | ⟨hhandling, hopen⟩ := handling_of_blocked h hblocked hc
          · simp [hdone] at hgoing
          · -- `shutdown_clients` has gone through its number
            have hreached := hs.reached c (List.mem_of_getElem? hc)
              (by simp [Connection.isOpen, hhandling])
            simp [hpc, StopperPc.reaches, hopen] at hreached

end Listener

open Listener in
/-- After a call of `stop` only so many steps follow, whatever the clients do, as long as
`stop` is not called again.  Where none is left, without a client that has disconnected
on its own, `stop` has returned, the accept loop is left and every thread has ended; the
condition is that no connection erases the number of another. -/
theorem stop_returns (events more : List ListenerEvent) (s s' : Listener)
    (hrun : run Listener.step {} events = some s) (hhalted : s.running = false)
    (hown : Along Listener.step ErasesOwn {} (events ++ more))
    (hsame : Along Listener.step SameStop s more) (hmore : run Listener.step s more = some s') :
    more.length ≤ s.work ∧
      (Blocked Listener.step Prompted s' →
        s'.stopper = .idle ∧ s'.acceptor = .left ∧ s'.connectionThreads = [] ∧
          ∀ c ∈ s'.connections, c.pc = .done) := by
  have hall : run Listener.step {} (events ++ more) = some s' := by
    rw [run_append, hrun]
    exact hmore
  refine ⟨?_, fun hblocked ↦ ?_⟩
  · have hpaid := length_add_le (P := fun s : Listener ↦ s.running = false) (μ := Listener.work)
      (fun _ _ _ hs _ hstep ↦ halted_step (step_of_step hstep) hs)
      (fun _ _ _ hs hQ hstep ↦ work_step hs hQ hstep) hhalted hsame hmore
    omega
  · have htracked := tracked_run hall
    have hidle := idle_of_blocked htracked (orderly_run hown hall) hblocked
    have hnone := htracked.emptied (halted_run hhalted hmore) (Or.inl hidle)
    refine ⟨hidle, left_of_blocked htracked hblocked, hnone, fun c hc ↦ ?_⟩
    obtain ⟨i, hi⟩ := List.mem_iff_getElem?.mp hc
    simpa [hnone, hidle, StopperPc.threads] using htracked.tracked i c hi

/-- `stop` is called while one client is served and another one is accepted. -/
def stopInBetween : List ListenerEvent :=
  acceptClient 5 ++ [.acceptor, .accept (.client 6), .acceptor, .acceptor, .stopper]

/-- How it goes on: neither client leaves before it is disconnected. -/
def stopInBetweenEnd : List ListenerEvent :=
  List.replicate 4 .acceptor ++ List.replicate 5 .stopper ++
    List.replicate 4 (.connection 1) ++ List.replicate 4 (.connection 0) ++
    List.replicate 3 .stopper

open Listener in
theorem stop_returns_inBetween :
    ∃ s s', run Listener.step {} stopInBetween = some s ∧
      run Listener.step s stopInBetweenEnd = some s' ∧ Blocked Listener.step Prompted s' ∧
      stopInBetweenEnd.length ≤ s.work ∧ s'.connections.length = 2 ∧
      s'.connectionThreads = [] ∧ ∀ c ∈ s'.connections, c.pc = .done := by
  have hsummary : (run Listener.step {} stopInBetween).bind (fun s ↦
      (run Listener.step s stopInBetweenEnd).map fun s' ↦
        (s.running, decide (Along Listener.step ErasesOwn {} (stopInBetween ++ stopInBetweenEnd)),
          decide (Along Listener.step SameStop s stopInBetweenEnd), s'.connections.length,
          decide (s'.stopper = .idle ∧ s'.acceptor = .left ∧
            ∀ c ∈ s'.connections, c.pc = .done))) =
      some (false, true, true, 2, true) := by decide +kernel
  obtain ⟨s, hrun, hs⟩ := Option.bind_eq_some_iff.mp hsummary
  obtain ⟨s', hmore, hs'⟩ := Option.map_eq_some_iff.mp hs
  simp only [Prod.mk.injEq, decide_eq_true_eq] at hs'
  obtain ⟨hhalted, hown, hsame, hlength, hidle, hleft, hdone⟩ := hs'
  have hblocked : Blocked Listener.step Prompted s' := by
    intro e he
    cases e with
    | accept outcome => cases outcome <;> simp [Listener.step, acceptStep, hleft]
    | acceptor => simp [Listener.step, acceptorStep, hleft]
    | stopper => exact absurd hidle (he.1 rfl)
    | connection i =>
        cases hc : s'.connections[i]? with
        | none => simp [Listener.step, connectionStep, hc]
        | some c =>
            simp [Listener.step, connectionStep, hc, hdone c (List.mem_of_getElem? hc)]
  have hrest := stop_returns stopInBetween stopInBetweenEnd s s' hrun hhalted hown hsame hmore
  exact ⟨s, s', hrun, hmore, hblocked, hrest.1, hlength, (hrest.2 hblocked).2.2⟩

end ByteCacheDB
