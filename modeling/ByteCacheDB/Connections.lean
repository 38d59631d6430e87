import ByteCacheDB.Lib.Mutex
import ByteCacheDB.Lib.Runs

/-!
# The registered connections

The accept loop of `start`, the threads of the connections and the calls of
`stop`, which `stop_mutex_` keeps from overlapping, take turns.  Descriptor
numbers are what the system hands out: `accept` may return every number that no
open connection has, so the number of a connection that has been closed comes
back while its thread is still on the way to `client_fds_.erase`.
-/

namespace ByteCacheDB

open Mutex Runs

/-- Where the thread of a connection stands. -/
inductive ConnectionPc where
  | handling
  /-- `handle` has returned, `close(client_fd)` to come -/
  | returned
  /-- before `std::lock_guard lock(clients_mutex_)` -/
  | closed
  | erasing
  | done
  deriving DecidableEq, Repr

structure Connection where
  fd : ℕ
  pc : ConnectionPc := .handling
  /-- `shutdown(fd, SHUT_RDWR)` was called on it -/
  shut : Bool := false
  deriving DecidableEq, Repr

/-- The thread was started and has not closed the descriptor. -/
def Connection.isOpen (c : Connection) : Bool :=
  match c.pc with
  | .handling | .returned => true
  | .closed | .erasing | .done => false

/-- Where the accept loop stands. -/
inductive AcceptorPc where
  /-- before `while (running_.load())` -/
  | polling
  | accepting
  | locking (fd : ℕ)
  | checking (fd : ℕ)
  | inserting (fd : ℕ)
  | starting (fd : ℕ)
  | unlocking
  /-- behind the loop, where `stop` is called -/
  | left
  deriving DecidableEq, Repr

/-- Under `clients_mutex_`. -/
def AcceptorPc.locked : AcceptorPc → Bool
  | .checking _ | .inserting _ | .starting _ | .unlocking => true
  | .polling | .accepting | .locking _ | .left => false

/-- Behind the check of `running_`, with a connection on the way. -/
def AcceptorPc.admitting : AcceptorPc → Bool
  | .inserting _ | .starting _ => true
  | .polling | .accepting | .locking _ | .checking _ | .unlocking | .left => false

theorem AcceptorPc.admitting_of_locked {pc : AcceptorPc} (h : pc.locked = false) :
    pc.admitting = false := by
  cases pc <;> simp_all [AcceptorPc.locked, AcceptorPc.admitting]

/-- Where the call of `stop` stands, if there is one. -/
inductive StopperPc where
  | idle
  /-- `running_` is false, `shutdown_clients` to come -/
  | flagged
  | shutting (remaining : List ℕ)
  /-- before the lock of `join_connection_threads` -/
  | swapping
  | joining (threads : List ℕ)
  deriving DecidableEq, Repr

/-- In `shutdown_clients`, under `clients_mutex_`. -/
def StopperPc.locked : StopperPc → Bool
  | .shutting _ => true
  | .idle | .flagged | .swapping | .joining _ => false

/-- `shutdown_clients` has begun. -/
def StopperPc.shuts : StopperPc → Bool
  | .shutting _ | .swapping | .joining _ => true
  | .idle | .flagged => false

/-- The descriptor is among those that `shutdown_clients` has yet to go through. -/
def StopperPc.reaches (fd : ℕ) : StopperPc → Prop
  | .idle | .flagged => True
  | .shutting remaining => fd ∈ remaining
  | .swapping | .joining _ => False

theorem StopperPc.reaches_of_not_shuts {pc : StopperPc} (h : pc.shuts = false) (fd : ℕ) :
    pc.reaches fd := by
  cases pc <;> simp_all [StopperPc.shuts, StopperPc.reaches]

inductive ClientsHolder where
  | acceptor
  | connection (index : ℕ)
  | stopper
  deriving DecidableEq, Repr

inductive AcceptOutcome where
  | client (fd : ℕ)
  | interrupted
  | failed
  deriving DecidableEq, Repr

inductive ListenerEvent where
  | accept (outcome : AcceptOutcome)
  /-- a step of the accept loop other than `accept` -/
  | acceptor
  | connection (index : ℕ)
  | stopper
  deriving DecidableEq, Repr

/-- The connections are numbered as their threads are started. -/
structure Listener where
  running : Bool := true
  clientsMutex : Option ClientsHolder := none
  clientFds : List ℕ := []
  connectionThreads : List ℕ := []
  connections : List Connection := []
  acceptor : AcceptorPc := .polling
  stopper : StopperPc := .idle
  deriving DecidableEq, Repr

/-- `shutdown` reaches the open connection that has the number, if there is one. -/
def Connection.shutdown (fd : ℕ) (c : Connection) : Connection :=
  if c.isOpen && c.fd == fd then { c with shut := true } else c

@[simp] theorem Connection.shutdown_pc (fd : ℕ) (c : Connection) :
    (c.shutdown fd).pc = c.pc := by
  unfold Connection.shutdown
  split <;> rfl

@[simp] theorem Connection.shutdown_fd (fd : ℕ) (c : Connection) :
    (c.shutdown fd).fd = c.fd := by
  unfold Connection.shutdown
  split <;> rfl

theorem Connection.shutdown_shut (fd : ℕ) {c : Connection} (hopen : c.isOpen = true) :
    (c.shutdown fd).shut = (c.shut || c.fd == fd) := by
  by_cases hfd : c.fd = fd <;> simp [Connection.shutdown, hopen, hfd]

@[simp] theorem Connection.isOpen_shutdown (fd : ℕ) (c : Connection) :
    (c.shutdown fd).isOpen = c.isOpen := by
  simp [Connection.isOpen]

namespace Listener

def acceptStep (s : Listener) (outcome : AcceptOutcome) : Option Listener :=
  match s.acceptor, outcome with
  | .accepting, .client fd =>
      if s.connections.all fun c ↦ !(c.isOpen && c.fd == fd) then
        some { s with acceptor := .locking fd }
      else none
  | .accepting, .interrupted => some { s with acceptor := .polling }
  | .accepting, .failed => some { s with acceptor := .left }
  | _, _ => none

def acceptorStep (s : Listener) : Option Listener :=
  match s.acceptor with
  | .polling => some { s with acceptor := if s.running then .accepting else .left }
  | .accepting | .left => none
  | .locking fd =>
      if s.clientsMutex.isNone then
        some { s with clientsMutex := some .acceptor, acceptor := .checking fd }
      else none
  | .checking fd =>
      if s.running then some { s with acceptor := .inserting fd }
      else some { s with clientsMutex := none, acceptor := .left }
  | .inserting fd =>
      some { s with clientFds := s.clientFds.insert fd, acceptor := .starting fd }
  | .starting fd =>
      some { s with
        connectionThreads := s.connectionThreads ++ [s.connections.length]
        connections := s.connections ++ [{ fd := fd }]
        acceptor := .unlocking }
  | .unlocking => some { s with clientsMutex := none, acceptor := .polling }

def connectionStep (s : Listener) (i : ℕ) : Option Listener := do
  let c ← s.connections[i]?
  match c.pc with
  | .handling => some { s with connections := s.connections.set i { c with pc := .returned } }
  | .returned => some { s with connections := s.connections.set i { c with pc := .closed } }
  | .closed =>
      if s.clientsMutex.isNone then
        some { s with
          clientsMutex := some (.connection i)
          connections := s.connections.set i { c with pc := .erasing } }
      else none
  | .erasing =>
      some { s with
        clientsMutex := none
        clientFds := s.clientFds.filter (· ≠ c.fd)
        connections := s.connections.set i { c with pc := .done } }
  | .done => none

def stopperStep (s : Listener) : Option Listener :=
  match s.stopper with
  | .idle => some { s with running := false, stopper := .flagged }
  | .flagged =>
      if s.clientsMutex.isNone then
        some { s with clientsMutex := some .stopper, stopper := .shutting s.clientFds }
      else none
  | .shutting [] => some { s with clientsMutex := none, stopper := .swapping }
  | .shutting (fd :: rest) =>
      some { s with
        connections := s.connections.map (Connection.shutdown fd)
        stopper := .shutting rest }
  | .swapping =>
      if s.clientsMutex.isNone then
        some { s with connectionThreads := [], stopper := .joining s.connectionThreads }
      else none
  | .joining [] => some { s with stopper := .idle }
  | .joining (i :: rest) =>
      if (s.connections[i]?).all (·.pc = .done) then some { s with stopper := .joining rest }
      else none

def step (s : Listener) : ListenerEvent → Option Listener
  | .accept outcome => s.acceptStep outcome
  | .acceptor => s.acceptorStep
  | .connection i => s.connectionStep i
  | .stopper => s.stopperStep

/-- The descriptor of every open connection is in `client_fds_`. -/
def Registered (s : Listener) : Prop :=
  ∀ c ∈ s.connections, c.isOpen = true → c.fd ∈ s.clientFds

instance (s : Listener) : Decidable s.Registered :=
  inferInstanceAs (Decidable (∀ c ∈ s.connections, _))

/-- Not the `erase` of a number that a later connection has by now. -/
def ErasesOwn (s : Listener) : ListenerEvent → Prop
  | .connection i => ∀ c, s.connections[i]? = some c → c.pc = .erasing →
      ∀ d ∈ s.connections, d.isOpen = true → d.fd ≠ c.fd
  | _ => True

instance (s : Listener) (e : ListenerEvent) : Decidable (s.ErasesOwn e) :=
  match e with
  | .connection i =>
      decidable_of_iff ((s.connections[i]?).all fun c ↦ c.pc ≠ .erasing ||
          s.connections.all fun d ↦ !d.isOpen || d.fd ≠ c.fd) (by
        simp only [ErasesOwn]
        cases s.connections[i]? with
        | none => simp
        | some c => simp [← imp_iff_not_or, ← Bool.not_eq_true])
  | .accept _ | .acceptor | .stopper => isTrue trivial

/-! ## What a step can do -/

/-- The steps, each with the state it leads to; those that move the accept loop
only, or a call of `stop` that joins, are one case each.  Which event it was only
matters for `client_fds_.erase`. -/
inductive Step (s : Listener) : ListenerEvent → Listener → Prop
  | advance {e : ListenerEvent} (pc : AcceptorPc) (hnext : pc.locked = false)
      (hpc : s.acceptor.locked = false) :
      Step s e { s with acceptor := pc }
  | lockAcceptor {e : ListenerEvent} (fd : ℕ) (hpc : s.acceptor = .locking fd)
      (hfree : s.clientsMutex = none) :
      Step s e { s with clientsMutex := some .acceptor, acceptor := .checking fd }
  | check {e : ListenerEvent} (fd : ℕ) (hpc : s.acceptor = .checking fd)
      (hrunning : s.running = true) :
      Step s e { s with acceptor := .inserting fd }
  | insert {e : ListenerEvent} (fd : ℕ) (hpc : s.acceptor = .inserting fd) :
      Step s e { s with clientFds := s.clientFds.insert fd, acceptor := .starting fd }
  | start {e : ListenerEvent} (fd : ℕ) (hpc : s.acceptor = .starting fd) :
      Step s e { s with
        connectionThreads := s.connectionThreads ++ [s.connections.length]
        connections := s.connections ++ [{ fd := fd }]
        acceptor := .unlocking }
  | unlock {e : ListenerEvent} (pc : AcceptorPc) (hpc : s.acceptor.locked = true)
      (hnext : pc.locked = false) :
      Step s e { s with clientsMutex := none, acceptor := pc }
  | leave {e : ListenerEvent} (i : ℕ) (c : Connection) (hc : s.connections[i]? = some c)
      (pc : ConnectionPc)
      (hpc : c.pc = .handling ∧ pc = .returned ∨ c.pc = .returned ∧ pc = .closed) :
      Step s e { s with connections := s.connections.set i { c with pc := pc } }
  | lockConnection {e : ListenerEvent} (i : ℕ) (c : Connection) (hc : s.connections[i]? = some c)
      (hpc : c.pc = .closed) (hfree : s.clientsMutex = none) :
      Step s e { s with
        clientsMutex := some (.connection i)
        connections := s.connections.set i { c with pc := .erasing } }
  | erase (i : ℕ) (c : Connection) (hc : s.connections[i]? = some c) (hpc : c.pc = .erasing) :
      Step s (.connection i) { s with
        clientsMutex := none
        clientFds := s.clientFds.filter (· ≠ c.fd)
        connections := s.connections.set i { c with pc := .done } }
  | flag {e : ListenerEvent} (hpc : s.stopper = .idle) :
      Step s e { s with running := false, stopper := .flagged }
  | lockStopper {e : ListenerEvent} (hpc : s.stopper = .flagged) (hfree : s.clientsMutex = none) :
      Step s e { s with clientsMutex := some .stopper, stopper := .shutting s.clientFds }
  | shutdown {e : ListenerEvent} (fd : ℕ) (rest : List ℕ)
      (hpc : s.stopper = .shutting (fd :: rest)) :
      Step s e { s with
        connections := s.connections.map (Connection.shutdown fd)
        stopper := .shutting rest }
  | unlockStopper {e : ListenerEvent} (hpc : s.stopper = .shutting []) :
      Step s e { s with clientsMutex := none, stopper := .swapping }
  | join {e : ListenerEvent} (threads : List ℕ) (pc : StopperPc)
      (hpc : s.stopper = .swapping ∧ (∃ ts, pc = .joining ts) ∨
        ∃ ts, s.stopper = .joining ts ∧ (pc = .idle ∨ ∃ rest, pc = .joining rest)) :
      Step s e { s with connectionThreads := threads, stopper := pc }

variable {s s' : Listener}

theorem step_of_acceptStep {outcome : AcceptOutcome} (h : s.acceptStep outcome = some s') :
    Step s (.accept outcome) s' := by
  unfold acceptStep at h
  split at h
  · rename_i fd hpc
    simp only [Option.ite_none_right_eq_some, Option.some.injEq] at h
    exact h.2 ▸ .advance (.locking fd) rfl (by rw [hpc]; rfl)
  · rename_i hpc
    exact Option.some.inj h ▸ .advance .polling rfl (by rw [hpc]; rfl)
  · rename_i hpc
    exact Option.some.inj h ▸ .advance .left rfl (by rw [hpc]; rfl)
  · simp at h

theorem step_of_acceptorStep (h : s.acceptorStep = some s') : Step s .acceptor s' := by
  unfold acceptorStep at h
  split at h
  · rename_i hpc
    exact Option.some.inj h ▸ .advance _ (by split <;> rfl) (by rw [hpc]; rfl)
  · simp at h
  · simp at h
  · rename_i fd hpc
    simp only [Option.isNone_iff_eq_none, Option.ite_none_right_eq_some, Option.some.injEq] at h
    exact h.2 ▸ .lockAcceptor fd hpc h.1
  · rename_i fd hpc
    split at h
    · rename_i hrunning
      exact Option.some.inj h ▸ .check fd hpc hrunning
    · exact Option.some.inj h ▸ .unlock .left (by rw [hpc]; rfl) rfl
  · rename_i fd hpc
    exact Option.some.inj h ▸ .insert fd hpc
  · rename_i fd hpc
    exact Option.some.inj h ▸ .start fd hpc
  · rename_i hpc
    exact Option.some.inj h ▸ .unlock .polling (by rw [hpc]; rfl) rfl

theorem step_of_connectionStep {i : ℕ} (h : s.connectionStep i = some s') :
    Step s (.connection i) s' := by
  unfold connectionStep at h
  obtain ⟨c, hc, h⟩ := Option.bind_eq_some_iff.mp h
  split at h
  · rename_i hpc
    exact Option.some.inj h ▸ .leave i c hc .returned (Or.inl ⟨hpc, rfl⟩)
  · rename_i hpc
    exact Option.some.inj h ▸ .leave i c hc .closed (Or.inr ⟨hpc, rfl⟩)
  · rename_i hpc
    simp only [Option.isNone_iff_eq_none, Option.ite_none_right_eq_some, Option.some.injEq] at h
    exact h.2 ▸ .lockConnection i c hc hpc h.1
  · rename_i hpc
    exact Option.some.inj h ▸ .erase i c hc hpc
  · simp at h

theorem step_of_stopperStep (h : s.stopperStep = some s') : Step s .stopper s' := by
  unfold stopperStep at h
  split at h
  · rename_i hpc
    exact Option.some.inj h ▸ .flag hpc
  · rename_i hpc
    simp only [Option.isNone_iff_eq_none, Option.ite_none_right_eq_some, Option.some.injEq] at h
    exact h.2 ▸ .lockStopper hpc h.1
  · rename_i hpc
    exact Option.some.inj h ▸ .unlockStopper hpc
  · rename_i fd rest hpc
    exact Option.some.inj h ▸ .shutdown fd rest hpc
  · rename_i hpc
    simp only [Option.isNone_iff_eq_none, Option.ite_none_right_eq_some, Option.some.injEq] at h
    exact h.2 ▸ .join [] _ (Or.inl ⟨hpc, _, rfl⟩)
  · rename_i hpc
    exact Option.some.inj h ▸ .join s.connectionThreads .idle (Or.inr ⟨_, hpc, Or.inl rfl⟩)
  · rename_i i rest hpc
    simp only [Option.ite_none_right_eq_some, Option.some.injEq] at h
    exact h.2 ▸ .join s.connectionThreads (.joining rest) (Or.inr ⟨_, hpc, Or.inr ⟨_, rfl⟩⟩)

theorem step_of_step {e : ListenerEvent} (h : s.step e = some s') : Step s e s' := by
  cases e with
  | accept outcome => exact step_of_acceptStep h
  | acceptor => exact step_of_acceptorStep h
  | connection i => exact step_of_connectionStep h
  | stopper => exact step_of_stopperStep h

/-! ## Who holds `clients_mutex_` -/

def InSection (s : Listener) : ClientsHolder → Prop
  | .acceptor => s.acceptor.locked = true
  | .connection i => ∃ c, s.connections[i]? = some c ∧ c.pc = .erasing
  | .stopper => s.stopper.locked = true

/-- Whoever is in a critical section holds the mutex. -/
def Locked (s : Listener) : Prop := Guards s.clientsMutex s.InSection

theorem getElem?_set_eq_some {xs : List Connection} {i j : ℕ} {c d : Connection}
    (h : (xs.set i d)[j]? = some c) : j = i ∧ c = d ∨ j ≠ i ∧ xs[j]? = some c := by
  rw [List.getElem?_set] at h
  split at h
  · rename_i hij
    split at h
    · exact Or.inl ⟨hij.symm, (Option.some.inj h).symm⟩
    · simp at h
  · rename_i hij
    exact Or.inr ⟨Ne.symm hij, h⟩

/-! Moving one thread leaves the others where they are. -/

theorem inSection_of_acceptor (hconnections : s'.connections = s.connections)
    (hstopper : s'.stopper = s.stopper) (x : ClientsHolder) (hx : x ≠ .acceptor)
    (h : s'.InSection x) : s.InSection x := by
  cases x with
  | acceptor => exact absurd rfl hx
  | connection i =>
      rw [InSection, hconnections] at h
      exact h
  | stopper =>
      rw [InSection, hstopper] at h
      exact h

theorem inSection_of_connection {i : ℕ} {c : Connection} (hacceptor : s'.acceptor = s.acceptor)
    (hconnections : s'.connections = s.connections.set i c) (hstopper : s'.stopper = s.stopper)
    (x : ClientsHolder) (hx : x ≠ .connection i) (h : s'.InSection x) : s.InSection x := by
  cases x with
  | acceptor =>
      rw [InSection, hacceptor] at h
      exact h
  | connection j =>
      have hij : i ≠ j := by
        rintro rfl
        exact hx rfl
      rw [InSection, hconnections, List.getElem?_set_ne hij] at h
      exact h
  | stopper =>
      rw [InSection, hstopper] at h
      exact h

theorem inSection_of_stopper (hacceptor : s'.acceptor = s.acceptor)
    (hconnections : s'.connections = s.connections) (x : ClientsHolder) (hx : x ≠ .stopper)
    (h : s'.InSection x) : s.InSection x := by
  cases x with
  | acceptor =>
      rw [InSection, hacceptor] at h
      exact h
  | connection i =>
      rw [InSection, hconnections] at h
      exact h
  | stopper => exact absurd rfl hx

/-- A thread that has been moved to another place than `erase`. -/
theorem not_inSection_set {i : ℕ} {c : Connection} (hconnections : s'.connections =
    s.connections.set i c) (hpc : c.pc ≠ .erasing) : ¬s'.InSection (.connection i) := by
  rintro ⟨d, hd, herasing⟩
  rw [hconnections] at hd
  obtain ⟨-, rfl⟩ | ⟨hne, -⟩ := getElem?_set_eq_some hd
  · exact hpc herasing
  · exact hne rfl

/-- The accept loop starts a thread. -/
theorem locked_start (hs : Locked s) {fd : ℕ} (hpc : s.acceptor = .starting fd) :
    Locked { s with
      connectionThreads := s.connectionThreads ++ [s.connections.length]
      connections := s.connections ++ [{ fd := fd }]
      acceptor := .unlocking } := by
  refine hs.stay (t := .acceptor) (by simp [InSection, hpc, AcceptorPc.locked]) fun x hne hx ↦ ?_
  cases x with
  | acceptor => exact absurd rfl hne
  | stopper => exact hx
  | connection i =>
      obtain ⟨c, hc, herasing⟩ := hx
      rw [List.getElem?_append] at hc
      split at hc
      · exact ⟨c, hc, herasing⟩
      · obtain rfl := List.mem_singleton.mp (List.mem_of_getElem? hc)
        simp at herasing

/-- `stop` shuts a client down. -/
theorem locked_shutdown (hs : Locked s) {fd : ℕ} {rest : List ℕ}
    (hpc : s.stopper = .shutting (fd :: rest)) :
    Locked { s with
      connections := s.connections.map (Connection.shutdown fd)
      stopper := .shutting rest } := by
  refine hs.stay (t := .stopper) (by simp [InSection, hpc, StopperPc.locked]) fun x hne hx ↦ ?_
  cases x with
  | acceptor => exact hx
  | connection j =>
      obtain ⟨d, hd, herasing⟩ := hx
      rw [List.getElem?_map] at hd
      obtain ⟨c, hc, rfl⟩ := Option.map_eq_some_iff.mp hd
      exact ⟨c, hc, by simpa using herasing⟩
  | stopper => exact absurd rfl hne

theorem locked_step {e : ListenerEvent} (h : Step s e s') (hs : Locked s) : Locked s' := by
  cases h with
  | advance pc hnext hpc =>
      exact hs.outside (t := .acceptor) (by simp [InSection, hnext]) (inSection_of_acceptor rfl rfl)
  | lockAcceptor fd hpc hfree =>
      exact hs.acquire hfree (inSection_of_acceptor rfl rfl)
  | check fd hpc =>
      exact hs.stay (t := .acceptor) (by simp [InSection, hpc, AcceptorPc.locked])
        (inSection_of_acceptor rfl rfl)
  | insert fd hpc =>
      exact hs.stay (t := .acceptor) (by simp [InSection, hpc, AcceptorPc.locked])
        (inSection_of_acceptor rfl rfl)
  | start fd hpc => exact locked_start hs hpc
  | unlock pc hpc hnext =>
      exact hs.release (t := .acceptor) hpc (by simp [InSection, hnext])
        (inSection_of_acceptor rfl rfl)
  | leave i c hc pc hpc =>
      refine hs.outside (t := .connection i) (not_inSection_set rfl ?_)
        (inSection_of_connection rfl rfl rfl)
      obtain ⟨-, rfl⟩ | ⟨-, rfl⟩ := hpc <;> simp
  | lockConnection i c hc hpc hfree =>
      exact hs.acquire hfree (inSection_of_connection rfl rfl rfl)
  | erase i c hc hpc =>
      exact hs.release (t := .connection i) ⟨c, hc, hpc⟩ (not_inSection_set rfl (by simp))
        (inSection_of_connection rfl rfl rfl)
  | flag hpc =>
      exact hs.outside (t := .stopper) (by simp [InSection, StopperPc.locked])
        (inSection_of_stopper rfl rfl)
  | lockStopper hpc hfree => exact hs.acquire hfree (inSection_of_stopper rfl rfl)
  | shutdown fd rest hpc => exact locked_shutdown hs hpc
  | unlockStopper hpc =>
      exact hs.release (t := .stopper) (by simp [InSection, hpc, StopperPc.locked])
        (by simp [InSection, StopperPc.locked]) (inSection_of_stopper rfl rfl)
  | join threads pc hpc =>
      refine hs.outside (t := .stopper) ?_ (inSection_of_stopper rfl rfl)
      obtain ⟨-, _, rfl⟩ | ⟨_, -, rfl | ⟨_, rfl⟩⟩ := hpc <;> simp [InSection, StopperPc.locked]

/-! ## Registration -/

/-- What holds as long as no connection erases the number of another. -/
structure Orderly (s : Listener) : Prop where
  registered : s.Registered
  starting : ∀ fd, s.acceptor = .starting fd → fd ∈ s.clientFds
  halted : s.stopper ≠ .idle → s.running = false
  barred : s.stopper.shuts = true → s.acceptor.admitting = false
  reached : ∀ c ∈ s.connections, c.isOpen = true → c.shut = true ∨ s.stopper.reaches c.fd

/-- An open connection behind a move of one thread stood there before. -/
theorem isOpen_of_mem_set {xs : List Connection} {i : ℕ} {c d : Connection} {pc : ConnectionPc}
    (hc : xs[i]? = some c) (hpc : ({ c with pc := pc } : Connection).isOpen = true →
      c.isOpen = true) (hd : d ∈ xs.set i { c with pc := pc }) (hopen : d.isOpen = true) :
    ∃ e ∈ xs, e.isOpen = true ∧ e.fd = d.fd ∧ e.shut = d.shut := by
  obtain hd | rfl := List.mem_or_eq_of_mem_set hd
  · exact ⟨d, hd, hopen, rfl, rfl⟩
  · exact ⟨c, List.mem_of_getElem? hc, hpc hopen, rfl, rfl⟩

/-- A step that leaves no open connection behind that was not there keeps order
as long as it only removes numbers no open connection has. -/
theorem Orderly.of_open (mutex : Option ClientsHolder) {fds : List ℕ}
    {connections : List Connection} (hs : Orderly s)
    (hopen : ∀ d ∈ connections, d.isOpen = true →
      ∃ e ∈ s.connections, e.isOpen = true ∧ e.fd = d.fd ∧ e.shut = d.shut)
    (hfds : ∀ e ∈ s.connections, e.isOpen = true → e.fd ∈ s.clientFds → e.fd ∈ fds)
    (hstarting : ∀ fd, s.acceptor = .starting fd → fd ∈ s.clientFds → fd ∈ fds) :
    Orderly { s with
      clientsMutex := mutex, clientFds := fds, connections := connections } where
  registered := by
    intro d hd hdopen
    obtain ⟨e, he, heopen, hfd, -⟩ := hopen d hd hdopen
    exact hfd ▸ hfds e he heopen (hs.registered e he heopen)
  starting fd hpc := hstarting fd hpc (hs.starting fd hpc)
  halted := hs.halted
  barred := hs.barred
  reached := by
    intro d hd hdopen
    obtain ⟨e, he, heopen, hfd, hshut⟩ := hopen d hd hdopen
    exact hfd ▸ hshut ▸ hs.reached e he heopen

/-- The accept loop moves outside its section, or out of it. -/
theorem Orderly.of_acceptor (hs : Orderly s) (mutex : Option ClientsHolder) {pc : AcceptorPc}
    (hnext : pc.locked = false) :
    Orderly { s with clientsMutex := mutex, acceptor := pc } := by
  refine { hs with starting := ?_, barred := ?_ }
  · rintro fd rfl
    simp [AcceptorPc.locked] at hnext
  · exact fun _ ↦ AcceptorPc.admitting_of_locked hnext

/-- Whoever shuts the clients down has cleared `running_` first. -/
theorem Orderly.not_shuts (hs : Orderly s) (hrunning : s.running = true) :
    s.stopper.shuts = false := by
  by_contra hshuts
  have hstopped : s.running = false := by
    apply hs.halted
    rintro hidle
    simp [hidle, StopperPc.shuts] at hshuts
  simp [hstopped] at hrunning

theorem orderly_insert (hs : Orderly s) {fd : ℕ} (hpc : s.acceptor = .inserting fd) :
    Orderly { s with clientFds := s.clientFds.insert fd, acceptor := .starting fd } := by
  refine { hs with registered := ?_, starting := ?_, barred := ?_ }
  · intro c hc hopen
    exact List.mem_insert_of_mem (hs.registered c hc hopen)
  · rintro fd' hfd
    obtain rfl := AcceptorPc.starting.inj hfd
    exact List.mem_insert_self
  · intro hshuts
    simpa [hpc, AcceptorPc.admitting] using hs.barred hshuts

/-- The new connection is registered, and `stop` has not yet shut the clients down. -/
theorem orderly_start (hs : Orderly s) {fd : ℕ} (hpc : s.acceptor = .starting fd) :
    Orderly { s with
      connectionThreads := s.connectionThreads ++ [s.connections.length]
      connections := s.connections ++ [{ fd := fd }]
      acceptor := .unlocking } := by
  refine { hs with registered := ?_, starting := by simp, barred := fun _ ↦ rfl, reached := ?_ }
  · intro c hc hopen
    obtain hc | hc := List.mem_append.mp hc
    · exact hs.registered c hc hopen
    · obtain rfl := List.mem_singleton.mp hc
      exact hs.starting fd hpc
  · intro c hc hopen
    obtain hc | hc := List.mem_append.mp hc
    · exact hs.reached c hc hopen
    · obtain rfl := List.mem_singleton.mp hc
      have hwaits : s.stopper.shuts = false := by
        by_contra hshuts
        have hbarred := hs.barred (Bool.eq_true_of_not_eq_false hshuts)
        simp [hpc, AcceptorPc.admitting] at hbarred
      exact Or.inr (StopperPc.reaches_of_not_shuts hwaits fd)

theorem orderly_erase {i : ℕ} (hs : Orderly s) (hlocked : Locked s)
    (hown : s.ErasesOwn (.connection i)) {c : Connection} (hc : s.connections[i]? = some c)
    (hpc : c.pc = .erasing) :
    Orderly { s with
      clientsMutex := none
      clientFds := s.clientFds.filter (· ≠ c.fd)
      connections := s.connections.set i { c with pc := .done } } := by
  refine hs.of_open none (fun d hd hopen ↦ isOpen_of_mem_set hc ?_ hd hopen) ?_ ?_
  · simp [Connection.isOpen]
  · intro d hd hopen hmem
    exact List.mem_filter.mpr ⟨hmem, by simpa using hown c hc hpc d hd hopen⟩
  · intro fd hstarting
    -- the accept loop would hold the mutex
    have hacceptor : s.InSection .acceptor := by simp [InSection, hstarting, AcceptorPc.locked]
    have hboth := hlocked.eq hacceptor (u := .connection i) ⟨c, hc, hpc⟩
    simp at hboth

theorem orderly_lockStopper (hs : Orderly s) (hlocked : Locked s) (hpc : s.stopper = .flagged)
    (hfree : s.clientsMutex = none) :
    Orderly { s with clientsMutex := some .stopper, stopper := .shutting s.clientFds } := by
  refine { hs with halted := fun _ ↦ hs.halted (by simp [hpc]), barred := ?_, reached := ?_ }
  · intro
    apply AcceptorPc.admitting_of_locked
    by_contra hacceptor
    have hheld := hlocked .acceptor (Bool.eq_true_of_not_eq_false hacceptor)
    simp [hfree] at hheld
  · exact fun c hc hopen ↦ Or.inr (hs.registered c hc hopen)

theorem orderly_shutdown (hs : Orderly s) {fd : ℕ} {rest : List ℕ}
    (hpc : s.stopper = .shutting (fd :: rest)) :
    Orderly { s with
      connections := s.connections.map (Connection.shutdown fd)
      stopper := .shutting rest } := by
  refine ⟨?_, hs.starting, fun _ ↦ hs.halted (by simp [hpc]),
    fun _ ↦ hs.barred (by simp [hpc, StopperPc.shuts]), ?_⟩
  · intro d hd hopen
    obtain ⟨c, hc, rfl⟩ := List.mem_map.mp hd
    simpa using hs.registered c hc (by simpa using hopen)
  · intro d hd hopen
    obtain ⟨c, hc, rfl⟩ := List.mem_map.mp hd
    rw [Connection.isOpen_shutdown] at hopen
    have hreached := hs.reached c hc hopen
    simp only [hpc, StopperPc.reaches, List.mem_cons] at hreached
    simp only [Connection.shutdown_shut fd hopen, Connection.shutdown_fd, StopperPc.reaches,
      Bool.or_eq_true, beq_iff_eq]
    tauto

/-- Behind the shutdown every open connection has been shut down. -/
theorem orderly_join (hs : Orderly s) (threads : List ℕ) (pc : StopperPc)
    (hshuts : s.stopper.shuts = true) (hleft : ∀ fd, ¬s.stopper.reaches fd) :
    Orderly { s with connectionThreads := threads, stopper := pc } := by
  refine { hs with halted := ?_, barred := fun _ ↦ hs.barred hshuts, reached := ?_ }
  · intro
    apply hs.halted
    rintro hidle
    simp [hidle, StopperPc.shuts] at hshuts
  · intro c hc hopen
    exact Or.inl ((hs.reached c hc hopen).resolve_right (hleft c.fd))

theorem orderly_step {e : ListenerEvent} (h : Step s e s') (hlocked : Locked s)
    (hown : s.ErasesOwn e) (hs : Orderly s) : Orderly s' := by
  cases h with
  | advance pc hnext hpc => exact hs.of_acceptor s.clientsMutex hnext
  | lockAcceptor fd hpc hfree => exact { hs with starting := by simp, barred := fun _ ↦ rfl }
  | check fd hpc hrunning =>
      refine { hs with starting := by simp, barred := fun hshuts ↦ ?_ }
      simp [hs.not_shuts hrunning] at hshuts
  | insert fd hpc => exact orderly_insert hs hpc
  | start fd hpc => exact orderly_start hs hpc
  | unlock pc hpc hnext => exact hs.of_acceptor none hnext
  | leave i c hc pc hpc =>
      refine hs.of_open s.clientsMutex
        (fun d hd hopen ↦ isOpen_of_mem_set hc ?_ hd hopen) (fun _ _ _ h ↦ h) (fun _ _ h ↦ h)
      intro
      obtain ⟨hpc, -⟩ | ⟨hpc, -⟩ := hpc <;> simp [Connection.isOpen, hpc]
  | lockConnection i c hc hpc hfree =>
      refine hs.of_open (some (.connection i))
        (fun d hd hopen ↦ isOpen_of_mem_set hc ?_ hd hopen) (fun _ _ _ h ↦ h) (fun _ _ h ↦ h)
      simp [Connection.isOpen]
  | erase i c hc hpc => exact orderly_erase hs hlocked hown hc hpc
  | flag hpc =>
      refine { hs with halted := fun _ ↦ rfl, barred := by simp [StopperPc.shuts], reached := ?_ }
      exact fun c _ _ ↦ Or.inr trivial
  | lockStopper hpc hfree => exact orderly_lockStopper hs hlocked hpc hfree
  | shutdown fd rest hpc => exact orderly_shutdown hs hpc
  | unlockStopper hpc =>
      refine { hs with
        halted := fun _ ↦ hs.halted (by simp [hpc])
        barred := fun _ ↦ hs.barred (by simp [hpc, StopperPc.shuts])
        reached := ?_ }
      intro c hc hopen
      simpa [hpc, StopperPc.reaches] using hs.reached c hc hopen
  | join threads pc hpc =>
      apply orderly_join hs
      · obtain ⟨hpc, -⟩ | ⟨ts, hpc, -⟩ := hpc <;> simp [hpc, StopperPc.shuts]
      · obtain ⟨hpc, -⟩ | ⟨ts, hpc, -⟩ := hpc <;> simp [hpc, StopperPc.reaches]

/-- The number of another connection is erased: that connection is not registered
any more. -/
theorem erasesOwn_of_registered {e : ListenerEvent} (h : s.step e = some s')
    (hs' : s'.Registered) : s.ErasesOwn e := by
  cases e with
  | accept | acceptor | stopper => trivial
  | connection i =>
      intro c hc hpc d hd hopen hfd
      simp only [step, connectionStep, hc, Option.bind_eq_bind, Option.bind_some, hpc,
        Option.some.injEq] at h
      subst h
      have hmem : d ∈ s.connections.set i { c with pc := .done } := by
        obtain ⟨j, hj⟩ := List.mem_iff_getElem?.mp hd
        apply List.mem_iff_getElem?.mpr
        refine ⟨j, ?_⟩
        rw [List.getElem?_set_ne, hj]
        rintro rfl
        obtain rfl := Option.some.inj (hc.symm.trans hj)
        simp [Connection.isOpen, hpc] at hopen
      have hregistered := hs' d hmem hopen
      simp [hfd] at hregistered

theorem orderly_init : Orderly {} where
  registered := by simp [Registered]
  starting := by simp
  halted := by simp
  barred := by simp [StopperPc.shuts]
  reached := by simp

theorem locked_init : Locked {} := by
  intro x hx
  cases x <;> simp [InSection, AcceptorPc.locked, StopperPc.locked] at hx

theorem orderly_run {events : List ListenerEvent} (halong : Along step ErasesOwn {} events)
    (hrun : run step {} events = some s) : Orderly s := by
  have hsound := run_invariant (P := fun _ s ↦ Locked s ∧ Orderly s)
    ⟨locked_init, orderly_init⟩ ?_ halong hrun
  · exact hsound.2
  · rintro past s e s' ⟨hlocked, hs⟩ hown hstep
    have h := step_of_step hstep
    exact ⟨locked_step h hlocked, orderly_step h hlocked hown hs⟩

end Listener

open Listener in
/-- In every state of a run every open connection is registered, exactly when no
thread of the run erases a number that an open connection has by then; and then
`stop` has shut down every open connection before it waits for the threads. -/
theorem connections_stay_registered_iff (events : List ListenerEvent) (last : Listener)
    (hrun : run Listener.step {} events = some last) :
    ((∀ past s, past <+: events → run Listener.step {} past = some s → s.Registered) ↔
      Along Listener.step ErasesOwn {} events) ∧
    (Along Listener.step ErasesOwn {} events → ∀ past s threads, past <+: events →
      run Listener.step {} past = some s → s.stopper = .joining threads →
        ∀ c ∈ s.connections, c.isOpen = true → c.shut = true) := by
  refine ⟨⟨fun hregistered ↦ ?_, fun halong past s hpast hs ↦ ?_⟩, ?_⟩
  · exact along_of_reached (fun _ _ _ ↦ erasesOwn_of_registered) hrun hregistered
  · exact (orderly_run (halong.of_initial hpast) hs).registered
  · intro halong past s threads hpast hs hjoining c hc hopen
    have hreached := (orderly_run (halong.of_initial hpast) hs).reached c hc hopen
    simpa [hjoining, StopperPc.reaches] using hreached

/-- The accept loop, once around, with a connection that has the number. -/
def acceptClient (fd : ℕ) : List ListenerEvent :=
  [.acceptor, .accept (.client fd)] ++ List.replicate 5 .acceptor

/-- A connection ends before the next one is accepted under its number; `stop`
shuts that one down. -/
theorem connections_stay_registered_iff_sequential :
    ∃ last, run Listener.step {} (acceptClient 5 ++ List.replicate 4 (.connection 0) ++
        acceptClient 5 ++ List.replicate 5 .stopper) = some last ∧
      last.stopper = .joining [0, 1] ∧ last.connections[1]? = some { fd := 5, shut := true } ∧
      ∀ c ∈ last.connections, c.isOpen = true → c.shut = true := by
  have hrun : (run Listener.step {} (acceptClient 5 ++ List.replicate 4 (.connection 0) ++
      acceptClient 5 ++ List.replicate 5 .stopper)).map
        (fun s ↦ (s.stopper, s.connections[1]?)) =
      some (.joining [0, 1], some { fd := 5, shut := true }) := by decide
  have halong : Along Listener.step Listener.ErasesOwn {} (acceptClient 5 ++
      List.replicate 4 (.connection 0) ++ acceptClient 5 ++ List.replicate 5 .stopper) := by
    decide
  obtain ⟨last, hlast, hview⟩ := Option.map_eq_some_iff.mp hrun
  rw [Prod.mk.injEq] at hview
  refine ⟨last, hlast, hview.1, hview.2, ?_⟩
  exact (connections_stay_registered_iff _ last hlast).2 halong _ last _ List.prefix_rfl hlast
    hview.1

/-- The number of a closed connection comes back from `accept` before its thread
has erased it: the new connection is not registered, `stop` does not shut it down
and waits for its thread. -/
theorem reused_descriptor_unregistered :
    ∃ last, run Listener.step {} (acceptClient 5 ++ List.replicate 2 (.connection 0) ++
        acceptClient 5 ++ List.replicate 2 (.connection 0) ++ List.replicate 5 .stopper) =
          some last ∧
      last.clientFds = [] ∧ last.stopper = .joining [1] ∧
      last.connections[1]? = some { fd := 5, pc := .handling, shut := false } ∧
      ¬last.Registered := by
  have hrun : (run Listener.step {} (acceptClient 5 ++ List.replicate 2 (.connection 0) ++
      acceptClient 5 ++ List.replicate 2 (.connection 0) ++ List.replicate 5 .stopper)).map
        (fun s ↦ (s.clientFds, s.stopper, s.connections[1]?, decide s.Registered)) =
      some ([], .joining [1], some { fd := 5 }, false) := by decide
  obtain ⟨last, hlast, hview⟩ := Option.map_eq_some_iff.mp hrun
  simp only [Prod.mk.injEq, decide_eq_false_iff_not] at hview
  exact ⟨last, hlast, hview⟩

end ByteCacheDB
