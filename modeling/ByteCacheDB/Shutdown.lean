import ByteCacheDB.PoolProgress
import ByteCacheDB.Service

/-!
# An orderly stop

`stop` joins the connections before it shuts the pool down, and it shuts the pool down
before it closes the log.  A stop that begins once `running_` has been set therefore
finds nobody who could be refused, and no command runs behind the log's back.
-/

namespace ByteCacheDB

open Runs Threads

/-- The thread of the connection has been started and has not ended. -/
def ClientPc.Active (pc : ClientPc) : Prop := pc ≠ .absent ∧ pc ≠ .gone

/-- The threads to join have been taken out of `connection_threads_`. -/
def StopPc.Joins {ι : Type*} : StopPc ι → Prop
  | .idle | .flagged => False
  | .joining _ | .pooling | .closing => True

namespace Service

variable {n : ℕ} {ι R : Type*} {s s' : Service n ι R}

/-- A stop does not come before `running_.store(true)`. -/
def StopsLaunched (s : Service n ι R) : ServiceEvent n ι R → Prop
  | .stop => s.main = .launched
  | _ => True

instance (s : Service n ι R) : (e : ServiceEvent n ι R) → Decidable (s.StopsLaunched e)
  | .stop => inferInstanceAs (Decidable (s.main = .launched))
  | .openLog | .launch | .accept _ | .register | .submit _ | .reply _ _ | .answer _ _ | .leave _
  | .worker _ _ | .caller _ _ | .stopper _ => inferInstanceAs (Decidable True)

structure Orderly (s : Service n ι R) : Prop where
  unlaunched : s.main ≠ .launched → s.stopper = .idle ∧ s.acceptor = none ∧ s.threads = [] ∧
    s.pool.stopping = false ∧ s.pool.calls = 0 ∧ ∀ i, s.clients i = .absent
  opened : s.main = .opened → s.logOpen = true
  flagged : s.stopper ≠ .idle → s.running = false
  barred : s.stopper.Joins ∨ s.pool.stopping = true →
    s.running = false ∧ s.acceptor = none ∧ s.threads = []
  listed : ∀ i, (s.clients i).Active → i ∈ s.threads ∨ ∃ l, s.stopper = .joining l ∧ i ∈ l
  quiet : s.pool.stopping = true ∨ s.stopper = .pooling ∨ s.stopper = .closing →
    ∀ i, ¬(s.clients i).Active
  shutting : s.pool.callers none ≠ .idle → s.stopper = .pooling
  stops : (s.pool.callers none).Stops → s.pool.stopping = true
  exited : s.pool.stopping = true →
    (s.pool.callers none).Stops ∨ ∀ w, s.pool.workers w = .exited
  joined : ∀ index, s.pool.callers none = .joining index →
    ∀ w : Fin n, w.val < index → s.pool.workers w = .exited
  closing : s.stopper = .closing → s.pool.stopping = true
  closed : s.main = .launched → s.logOpen = false → ∀ w, s.pool.workers w = .exited
  ended : s.pool.stopping = true → s.stopper ≠ .pooling → s.stopper ≠ .closing → s.logOpen = false
  refused : s.pool.refused = []

/-- Connections and workers move: no thread is started, and the pool is not stopped. -/
theorem Orderly.of_clients (h : Orderly s) (hmain : s'.main = s.main)
    (hrunning : s'.running = s.running) (hlog : s'.logOpen = s.logOpen)
    (hacceptor : s'.acceptor = s.acceptor) (hthreads : s'.threads = s.threads)
    (hstopper : s'.stopper = s.stopper)
    (hactive : ∀ i, (s'.clients i).Active → (s.clients i).Active)
    (habsent : ∀ i, s.clients i = .absent → s'.clients i = .absent)
    (hstopping : s'.pool.stopping = s.pool.stopping)
    (hcalls : s'.pool.calls = s.pool.calls ∨ s.main = .launched)
    (hcaller : s'.pool.callers none = s.pool.callers none)
    (hexited : ∀ w, s.pool.workers w = .exited → s'.pool.workers w = .exited)
    (hrefused : s'.pool.refused = s.pool.refused) : Orderly s' := by
  constructor
  · rw [hmain, hstopper, hacceptor, hthreads, hstopping]
    intro hmain'
    obtain ⟨h₁, h₂, h₃, h₄, h₅, h₆⟩ := h.unlaunched hmain'
    exact ⟨h₁, h₂, h₃, h₄, (hcalls.resolve_right hmain').trans h₅, fun i ↦ habsent i (h₆ i)⟩
  · rw [hmain, hlog]
    exact h.opened
  · rw [hstopper, hrunning]
    exact h.flagged
  · rw [hstopper, hstopping, hrunning, hacceptor, hthreads]
    exact h.barred
  · rw [hthreads, hstopper]
    exact fun i hi ↦ h.listed i (hactive i hi)
  · rw [hstopping, hstopper]
    exact fun hstop i hi ↦ h.quiet hstop i (hactive i hi)
  · rw [hcaller, hstopper]
    exact h.shutting
  · rw [hcaller, hstopping]
    exact h.stops
  · rw [hcaller, hstopping]
    exact fun hstop ↦ (h.exited hstop).imp_right fun hall w ↦ hexited w (hall w)
  · rw [hcaller]
    exact fun index hindex w hw ↦ hexited w (h.joined index hindex w hw)
  · rw [hstopper, hstopping]
    exact h.closing
  · rw [hmain, hlog]
    exact fun hmain' hlog' w ↦ hexited w (h.closed hmain' hlog' w)
  · rw [hstopping, hstopper, hlog]
    exact h.ended
  · rw [hrefused]
    exact h.refused

variable [DecidableEq ι]

/-- One connection moves. -/
theorem active_of_update {i : ι} {pc : ClientPc} (hpc : pc.Active → (s.clients i).Active) (j : ι)
    (hj : (Function.update s.clients i pc j).Active) : (s.clients j).Active := by
  rw [Function.update_apply] at hj
  split at hj
  · rename_i hji
    exact hji ▸ hpc hj
  · exact hj

theorem absent_of_update {i : ι} {pc : ClientPc} (hpc : s.clients i ≠ .absent) (j : ι)
    (hj : s.clients j = .absent) : Function.update s.clients i pc j = .absent := by
  rw [Function.update_of_ne]
  · exact hj
  · rintro rfl
    exact hpc hj

theorem orderly_submit (h : Orderly s) {i : ι} (hstep : s.submit i = some s') : Orderly s' := by
  simp only [submit, Option.ite_none_right_eq_some] at hstep
  obtain ⟨hpc, hcall⟩ := hstep
  obtain ⟨pool, hpool, rfl⟩ := Option.map_eq_some_iff.mp hcall
  simp only [ThreadPool.callStep, Option.ite_none_right_eq_some, Option.some.injEq] at hpool
  obtain ⟨-, rfl⟩ := hpool
  have hactive : (s.clients i).Active := by simp [hpc, ClientPc.Active]
  have hlaunched : s.main = .launched := by
    by_contra hmain
    exact hactive.1 ((h.unlaunched hmain).2.2.2.2.2 i)
  exact h.of_clients rfl rfl rfl rfl rfl rfl (active_of_update fun _ ↦ hactive)
    (absent_of_update hactive.1) rfl (Or.inr hlaunched) (by simp) (fun _ hw ↦ hw) rfl

theorem orderly_answer (h : Orderly s) {i : ι} {sent : Bool} (hstep : s.answer i sent = some s') :
    Orderly s' := by
  unfold answer at hstep
  split at hstep
  case h_2 => simp at hstep
  rename_i task hpc
  obtain ⟨r, -, rfl⟩ := Option.map_eq_some_iff.mp hstep
  have hactive : (s.clients i).Active := by simp [hpc, ClientPc.Active]
  cases sent <;>
    exact h.of_clients rfl rfl rfl rfl rfl rfl (active_of_update fun _ ↦ hactive)
      (absent_of_update hactive.1) rfl (Or.inl rfl) rfl (fun _ hw ↦ hw) rfl

theorem orderly_leave (h : Orderly s) {i : ι} (hstep : s.leave i = some s') : Orderly s' := by
  simp only [leave, Option.ite_none_right_eq_some, Option.some.injEq] at hstep
  obtain ⟨hpc, rfl⟩ := hstep
  have hactive : (s.clients i).Active := by simp [hpc, ClientPc.Active]
  exact h.of_clients rfl rfl rfl rfl rfl rfl (active_of_update fun _ ↦ hactive)
    (absent_of_update hactive.1) rfl (Or.inl rfl) rfl (fun _ hw ↦ hw) rfl

/-- While a connection is inside `enqueue`, the pool is not stopping. -/
theorem orderly_caller (hserved : Served s) (h : Orderly s) {i : ι} {woken : Option (Fin n)}
    {pool : ThreadPool n (Option ι)} (hpool : s.pool.callerStep (some i) woken = some pool)
    (turnedAway : List ι) :
    Orderly { s with
      pool, clients := Function.update s.clients i (settle pool i (s.clients i)), turnedAway } := by
  have hframe := ThreadPool.callerFrame hpool
  obtain ⟨task, hpc, henqueues⟩ := hserved.enqueuing_of_callerStep hpool
  have hactive : (s.clients i).Active := by simp [hpc, ClientPc.Active]
  obtain ⟨hstopping, hcases⟩ := ThreadPool.enqueue_cases henqueues hpool
  have hrefused : pool.refused = s.pool.refused := by
    rcases hcases with ⟨-, hsame⟩ | ⟨-, -, hstop⟩ | ⟨-, hsame, -⟩
    · exact hsame
    · exact absurd hactive (h.quiet (Or.inl hstop) i)
    · exact hsame
  exact h.of_clients rfl rfl rfl rfl rfl rfl (active_of_update fun _ ↦ hactive)
    (absent_of_update hactive.1) hstopping (Or.inl hframe.calls) (hframe.callers none (by simp))
    hframe.exited hrefused

theorem orderly_register (h : Orderly s) {i : ι} (hacceptor : s.acceptor = some i) :
    Orderly { s with
      acceptor := none
      clients := Function.update s.clients i .reading
      threads := s.threads ++ [i] } := by
  have hlaunched : s.main = .launched := by
    by_contra hmain
    simp [(h.unlaunched hmain).2.1] at hacceptor
  have hbarred : ¬(s.stopper.Joins ∨ s.pool.stopping = true) := by
    intro hstop
    simp [(h.barred hstop).2.1] at hacceptor
  obtain ⟨hjoins, hstopping⟩ := not_or.mp hbarred
  refine ⟨fun hmain ↦ absurd hlaunched hmain, h.opened, h.flagged, fun hstop ↦ absurd hstop hbarred,
    fun j hj ↦ ?_, fun hstop ↦ ?_, h.shutting, h.stops, h.exited, h.joined, h.closing, h.closed,
    h.ended, h.refused⟩
  · left
    dsimp only at hj ⊢
    rw [Function.update_apply] at hj
    split at hj
    · rename_i hji
      simp [hji]
    · rcases h.listed j hj with hold | ⟨l, hl, -⟩
      · exact List.mem_append_left _ hold
      · simp [hl, StopPc.Joins] at hjoins
  · rcases hstop with hstop | hstop | hstop
    · exact absurd hstop hstopping
    · simp only at hstop
      simp [hstop, StopPc.Joins] at hjoins
    · simp only at hstop
      simp [hstop, StopPc.Joins] at hjoins

omit [DecidableEq ι] in
theorem orderly_stop (h : Orderly s) (hlaunched : s.main = .launched) (hidle : s.stopper = .idle) :
    Orderly { s with running := false, stopper := .flagged } := by
  refine ⟨fun hmain ↦ absurd hlaunched hmain, h.opened, fun _ ↦ rfl, fun hstop ↦ ?_, fun i hi ↦ ?_,
    fun hstop ↦ ?_, fun hcaller ↦ ?_, h.stops, h.exited, h.joined, by simp, h.closed,
    fun hstop _ _ ↦ ?_, h.refused⟩
  · exact ⟨rfl, (h.barred (Or.inr (hstop.resolve_left id))).2⟩
  · left
    refine (h.listed i hi).resolve_right ?_
    simp [hidle]
  · exact h.quiet (Or.inl (by simpa using hstop))
  · have hpooling := h.shutting hcaller
    simp [hidle] at hpooling
  · exact h.ended hstop (by simp [hidle]) (by simp [hidle])

omit [DecidableEq ι] in
theorem Orderly.launched (h : Orderly s) (hstopper : s.stopper ≠ .idle) : s.main = .launched := by
  by_contra hmain
  exact hstopper (h.unlaunched hmain).1

omit [DecidableEq ι] in
theorem orderly_swap (h : Orderly s) (hpc : s.stopper = .flagged) (hfree : s.acceptor = none) :
    Orderly { s with threads := [], stopper := .joining s.threads } := by
  have hlaunched := h.launched (by simp [hpc])
  have hrunning := h.flagged (by simp [hpc])
  refine ⟨fun hmain ↦ absurd hlaunched hmain, h.opened, fun _ ↦ hrunning,
    fun _ ↦ ⟨hrunning, hfree, rfl⟩, fun i hi ↦ Or.inr ⟨_, rfl, ?_⟩, fun hstop ↦ ?_,
    fun hcaller ↦ ?_, h.stops, h.exited, h.joined, by simp, h.closed, fun hstop _ _ ↦ ?_, h.refused⟩
  · refine (h.listed i hi).resolve_right ?_
    simp [hpc]
  · exact h.quiet (Or.inl (by simpa using hstop))
  · have hpooling := h.shutting hcaller
    simp [hpc] at hpooling
  · exact h.ended hstop (by simp [hpc]) (by simp [hpc])

omit [DecidableEq ι] in
theorem orderly_join (h : Orderly s) {i : ι} {rest : List ι}
    (hpc : s.stopper = .joining (i :: rest))
    (hgone : s.clients i = .gone) : Orderly { s with stopper := .joining rest } := by
  have hlaunched := h.launched (by simp [hpc])
  have hbarred := h.barred (Or.inl (by simp [hpc, StopPc.Joins]))
  refine ⟨fun hmain ↦ absurd hlaunched hmain, h.opened, fun _ ↦ hbarred.1, fun _ ↦ hbarred,
    fun j hj ↦ ?_, fun hstop ↦ ?_, fun hcaller ↦ ?_, h.stops, h.exited, h.joined, by simp, h.closed,
    fun hstop _ _ ↦ ?_, h.refused⟩
  · refine (h.listed j hj).imp_right ?_
    rintro ⟨l, hl, hmem⟩
    obtain rfl : i :: rest = l := by simpa [hpc] using hl
    refine ⟨rest, rfl, (List.mem_cons.mp hmem).resolve_left ?_⟩
    rintro rfl
    exact hj.2 hgone
  · exact h.quiet (Or.inl (by simpa using hstop))
  · have hpooling := h.shutting hcaller
    simp [hpc] at hpooling
  · exact h.ended hstop (by simp [hpc]) (by simp [hpc])

omit [DecidableEq ι] in
/-- All connections have been joined. -/
theorem Orderly.quiet_of_joined (h : Orderly s) (hpc : s.stopper = .joining []) (i : ι) :
    ¬(s.clients i).Active := by
  intro hi
  have hthreads := (h.barred (Or.inl (by simp [hpc, StopPc.Joins]))).2.2
  rcases h.listed i hi with hmem | ⟨l, hl, hmem⟩
  · simp [hthreads] at hmem
  · obtain rfl : [] = l := by simpa [hpc] using hl
    simp at hmem

theorem orderly_shutdown (h : Orderly s) (hpc : s.stopper = .joining [])
    {pool : ThreadPool n (Option ι)} (hpool : s.pool.callStep none .shutdown = some pool) :
    Orderly { s with pool, stopper := .pooling } := by
  have hlaunched := h.launched (by simp [hpc])
  have hbarred := h.barred (Or.inl (by simp [hpc, StopPc.Joins]))
  have hquiet := h.quiet_of_joined hpc
  simp only [ThreadPool.callStep, Option.ite_none_right_eq_some, Option.some.injEq] at hpool
  obtain ⟨hidle, rfl⟩ := hpool
  refine ⟨fun hmain ↦ absurd hlaunched hmain, h.opened, fun _ ↦ hbarred.1, fun _ ↦ hbarred,
    fun j hj ↦ absurd hj (hquiet j), fun _ ↦ hquiet, fun _ ↦ rfl, by simp [CallerPc.Stops],
    fun hstop ↦ Or.inr ?_, by simp, by simp, h.closed, by simp, h.refused⟩
  refine (h.exited hstop).resolve_left ?_
  simp [hidle, CallerPc.Stops]

/-- How a call of `shutdown` goes on. -/
theorem Orderly.shutdown_callerStep (hserved : Served s) (h : Orderly s) {woken : Option (Fin n)}
    {pool : ThreadPool n (Option ι)} (hpool : s.pool.callerStep none woken = some pool) :
    ((pool.callers none).Stops → pool.stopping = true) ∧
      (pool.stopping = true → (pool.callers none).Stops ∨ ∀ w, pool.workers w = .exited) ∧
      (∀ index, pool.callers none = .joining index →
        ∀ w : Fin n, w.val < index → pool.workers w = .exited) ∧
      (pool.callers none = .idle → pool.stopping = true) := by
  have hshutting := hserved.shutting
  cases hc : s.pool.callers none with
  | idle => simp [ThreadPool.callerStep, hc] at hpool
  | enqueueLocking | enqueueChecking | enqueueNotifying => simp [hc, CallerPc.enqueues] at hshutting
  | shutdownLocking =>
      simp only [ThreadPool.callerStep, hc, Option.ite_none_right_eq_some,
        Option.some.injEq] at hpool
      obtain ⟨-, rfl⟩ := hpool
      refine ⟨by simp [CallerPc.Stops], fun hstop ↦ Or.inr ?_, by simp, by simp⟩
      refine (h.exited hstop).resolve_left ?_
      simp [hc, CallerPc.Stops]
  | shutdownChecking =>
      simp only [ThreadPool.callerStep, hc] at hpool
      split at hpool
      · rename_i hstop
        obtain rfl := Option.some.inj hpool
        refine ⟨by simp [CallerPc.Stops], fun _ ↦ Or.inr ?_, by simp, fun _ ↦ hstop⟩
        refine (h.exited hstop).resolve_left ?_
        simp [hc, CallerPc.Stops]
      · obtain rfl := Option.some.inj hpool
        exact ⟨fun _ ↦ rfl, fun _ ↦ Or.inl (by simp [CallerPc.Stops]), by simp, fun _ ↦ rfl⟩
  | shutdownNotifying =>
      have hstop := h.stops (by simp [hc, CallerPc.Stops])
      simp only [ThreadPool.callerStep, hc] at hpool
      obtain rfl := Option.some.inj hpool
      refine ⟨fun _ ↦ hstop, fun _ ↦ Or.inl (by simp [CallerPc.Stops]), fun index hindex ↦ ?_,
        fun _ ↦ hstop⟩
      obtain rfl : 0 = index := by simpa using hindex
      simp
  | joining index =>
      have hstop := h.stops (by simp [hc, CallerPc.Stops])
      simp only [ThreadPool.callerStep, hc] at hpool
      split at hpool
      · rename_i hlt
        simp only [Option.ite_none_right_eq_some, Option.some.injEq] at hpool
        obtain ⟨hexited, rfl⟩ := hpool
        refine ⟨fun _ ↦ hstop, fun _ ↦ Or.inl (by simp [CallerPc.Stops]), fun next hnext w hw ↦ ?_,
          fun _ ↦ hstop⟩
        obtain rfl : index + 1 = next := by simpa using hnext
        rcases Nat.lt_succ_iff_lt_or_eq.mp hw with hlt' | heq
        · exact h.joined index hc w hlt'
        · subst heq
          exact hexited
      · rename_i hge
        obtain rfl := Option.some.inj hpool
        refine ⟨fun _ ↦ hstop, fun _ ↦ Or.inr fun w ↦ ?_, by simp, fun _ ↦ hstop⟩
        exact h.joined index hc w (w.isLt.trans_le (not_lt.mp hge))

theorem orderly_pooling (hserved : Served s) (h : Orderly s) (hpc : s.stopper = .pooling)
    {woken : Option (Fin n)} {pool : ThreadPool n (Option ι)}
    (hpool : s.pool.callerStep none woken = some pool) :
    Orderly { s with
      pool, stopper := if pool.callers none = .idle then .closing else .pooling } := by
  have hlaunched := h.launched (by simp [hpc])
  have hbarred := h.barred (Or.inl (by simp [hpc, StopPc.Joins]))
  have hquiet := h.quiet (Or.inr (Or.inl hpc))
  have hframe := ThreadPool.callerFrame hpool
  have hrefused := (ThreadPool.refused_of_not_enqueues hserved.shutting hpool).1
  obtain ⟨hstops, hexited, hjoined, hdone⟩ := h.shutdown_callerStep hserved hpool
  refine ⟨fun hmain ↦ absurd hlaunched hmain, h.opened, fun _ ↦ hbarred.1, fun _ ↦ hbarred,
    fun j hj ↦ absurd hj (hquiet j), fun _ ↦ hquiet, fun hcaller ↦ if_neg hcaller, hstops,
    hexited, hjoined, fun hclosing ↦ hdone ?_, fun hmain hlog w ↦
      hframe.exited w (h.closed hmain hlog w), fun _ hne hne' ↦ ?_, hrefused.trans h.refused⟩
  · by_contra hcaller
    simp [hcaller] at hclosing
  · by_cases hcaller : pool.callers none = .idle <;> simp [hcaller] at hne hne'

omit [DecidableEq ι] in
theorem orderly_close (h : Orderly s) (hpc : s.stopper = .closing) :
    Orderly { s with logOpen := false, stopper := .idle } := by
  have hlaunched := h.launched (by simp [hpc])
  have hstop := h.closing hpc
  have hbarred := h.barred (Or.inr hstop)
  have hquiet := h.quiet (Or.inl hstop)
  have hidle : s.pool.callers none = .idle := by
    by_contra hcaller
    have hpooling := h.shutting hcaller
    simp [hpc] at hpooling
  have hexited : ∀ w, s.pool.workers w = .exited := by
    refine (h.exited hstop).resolve_left ?_
    simp [hidle, CallerPc.Stops]
  refine ⟨fun hmain ↦ absurd hlaunched hmain, fun hmain ↦ ?_, by simp, fun _ ↦ hbarred,
    fun j hj ↦ absurd hj (hquiet j), fun _ ↦ hquiet, fun hcaller ↦ absurd hidle hcaller, h.stops,
    h.exited, h.joined, by simp, fun _ _ ↦ hexited, fun _ _ _ ↦ rfl, h.refused⟩
  simp [hlaunched] at hmain

theorem orderly_stopper (hserved : Served s) (h : Orderly s) {woken : Option (Fin n)}
    (hstep : s.stopperStep woken = some s') : Orderly s' := by
  unfold stopperStep at hstep
  split at hstep
  · simp at hstep
  · rename_i hpc
    simp only [Option.isNone_iff_eq_none, Option.ite_none_right_eq_some, Option.some.injEq] at hstep
    exact hstep.2 ▸ orderly_swap h hpc hstep.1
  · rename_i hpc
    obtain ⟨pool, hpool, rfl⟩ := Option.map_eq_some_iff.mp hstep
    exact orderly_shutdown h hpc hpool
  · rename_i i rest hpc
    simp only [Option.ite_none_right_eq_some, Option.some.injEq] at hstep
    exact hstep.2 ▸ orderly_join h hpc hstep.1
  · rename_i hpc
    obtain ⟨pool, hpool, rfl⟩ := Option.map_eq_some_iff.mp hstep
    exact orderly_pooling hserved h hpc hpool
  · rename_i hpc
    exact Option.some.inj hstep ▸ orderly_close h hpc

omit [DecidableEq ι] in
theorem orderly_openLog (h : Orderly s) (hmain : s.main = .starting) :
    Orderly { s with main := .opened, logOpen := true } := by
  have hunlaunched := h.unlaunched (by simp [hmain])
  refine ⟨fun _ ↦ hunlaunched, fun _ ↦ rfl, h.flagged, h.barred, h.listed, h.quiet, h.shutting,
    h.stops, h.exited, h.joined, h.closing, by simp, fun hstop ↦ ?_, h.refused⟩
  simp [hunlaunched.2.2.2.1] at hstop

omit [DecidableEq ι] in
theorem orderly_launch (h : Orderly s) (hmain : s.main = .opened) :
    Orderly { s with main := .launched, running := true } := by
  obtain ⟨hidle, -, -, hstopping, -⟩ := h.unlaunched (by simp [hmain])
  have hlog := h.opened hmain
  refine ⟨by simp, by simp, fun hstopper ↦ absurd hidle hstopper, fun hstop ↦ ?_, h.listed, h.quiet,
    h.shutting, h.stops, h.exited, h.joined, h.closing, fun _ hclosed ↦ ?_, h.ended, h.refused⟩
  · simp [hidle, hstopping, StopPc.Joins] at hstop
  · simp [hlog] at hclosed

omit [DecidableEq ι] in
theorem orderly_admit (h : Orderly s) {i : ι} (hmain : s.main = .launched)
    (hrunning : s.running = true) : Orderly { s with acceptor := some i } := by
  refine ⟨fun hunlaunched ↦ absurd hmain hunlaunched, h.opened, h.flagged, fun hstop ↦ ?_, h.listed,
    h.quiet, h.shutting, h.stops, h.exited, h.joined, h.closing, h.closed, h.ended, h.refused⟩
  simp [(h.barred hstop).1] at hrunning

theorem orderly_step (hserved : Served s) (h : Orderly s) {e : ServiceEvent n ι R}
    (hlaunched : s.StopsLaunched e) (hstep : s.step e = some s') : Orderly s' := by
  cases e with
  | openLog =>
      simp only [step, Option.ite_none_right_eq_some, Option.some.injEq] at hstep
      exact hstep.2 ▸ orderly_openLog h hstep.1
  | launch =>
      simp only [step, Option.ite_none_right_eq_some, Option.some.injEq] at hstep
      exact hstep.2 ▸ orderly_launch h hstep.1
  | accept i =>
      simp only [step, Option.ite_none_right_eq_some, Option.some.injEq] at hstep
      exact hstep.2 ▸ orderly_admit h hstep.1.1 hstep.1.2.1
  | register =>
      simp only [step] at hstep
      split at hstep
      · simp at hstep
      · rename_i i hacceptor
        exact Option.some.inj hstep ▸ orderly_register h hacceptor
  | submit i => exact orderly_submit h hstep
  | reply i r =>
      simp only [step, reply, Option.ite_none_right_eq_some, Option.some.injEq] at hstep
      obtain ⟨-, rfl⟩ := hstep
      exact h.of_clients rfl rfl rfl rfl rfl rfl (fun _ hi ↦ hi) (fun _ hi ↦ hi) rfl
        (Or.inl rfl) rfl (fun _ hw ↦ hw) rfl
  | answer i sent => exact orderly_answer h hstep
  | leave i => exact orderly_leave h hstep
  | worker w r =>
      obtain ⟨pool, hpool, rfl⟩ := Option.map_eq_some_iff.mp hstep
      have hframe := ThreadPool.workerFrame hpool
      exact h.of_clients rfl rfl rfl rfl rfl rfl (fun _ hi ↦ hi) (fun _ hi ↦ hi) hframe.stopping
        (Or.inl hframe.calls) (congrFun hframe.callers none) hframe.exited hframe.refused
  | caller i woken =>
      obtain ⟨pool, hpool, rfl⟩ := Option.map_eq_some_iff.mp hstep
      exact orderly_caller hserved h hpool _
  | stop =>
      simp only [step] at hstep
      split at hstep
      · rename_i hidle
        exact Option.some.inj hstep ▸ orderly_stop h hlaunched hidle
      · simp at hstep
  | stopper woken => exact orderly_stopper hserved h hstep

omit [DecidableEq ι] in
theorem orderly_create (workerThreads : ℕ) : Orderly (create workerThreads ι R) := by
  constructor <;> simp [create, StopPc.Joins, ClientPc.Active, CallerPc.Stops]

/-- Only those whose command is refused are turned away. -/
theorem turnedAway_step {e : ServiceEvent n ι R} (hrefused : s'.pool.refused = [])
    (hstep : s.step e = some s') : s'.turnedAway = s.turnedAway := by
  cases e with
  | openLog | launch | accept | leave =>
      simp only [step, leave, Option.ite_none_right_eq_some, Option.some.injEq] at hstep
      obtain ⟨-, rfl⟩ := hstep
      rfl
  | reply =>
      simp only [step, reply, Option.ite_none_right_eq_some, Option.some.injEq] at hstep
      obtain ⟨-, rfl⟩ := hstep
      rfl
  | register =>
      simp only [step] at hstep
      split at hstep
      · simp at hstep
      · obtain rfl := Option.some.inj hstep
        rfl
  | stop =>
      simp only [step] at hstep
      split at hstep
      · obtain rfl := Option.some.inj hstep
        rfl
      · simp at hstep
  | submit i =>
      simp only [step, submit, Option.ite_none_right_eq_some] at hstep
      obtain ⟨pool, -, rfl⟩ := Option.map_eq_some_iff.mp hstep.2
      rfl
  | answer i sent =>
      simp only [step, answer] at hstep
      split at hstep
      · obtain ⟨r, -, rfl⟩ := Option.map_eq_some_iff.mp hstep
        split <;> rfl
      · simp at hstep
  | worker w r =>
      obtain ⟨pool, -, rfl⟩ := Option.map_eq_some_iff.mp hstep
      rfl
  | caller i woken =>
      obtain ⟨pool, -, rfl⟩ := Option.map_eq_some_iff.mp hstep
      have hnot : turnsAway pool i (s.clients i) = false := by
        unfold turnsAway
        split
        · simp [show pool.refused = [] from hrefused]
        · rfl
      simp [hnot]
  | stopper woken =>
      simp only [step, stopperStep] at hstep
      split at hstep
      case h_1 => simp at hstep
      case h_2 | h_4 =>
          simp only [Option.ite_none_right_eq_some, Option.some.injEq] at hstep
          obtain ⟨-, rfl⟩ := hstep
          rfl
      case h_3 | h_5 =>
          obtain ⟨pool, -, rfl⟩ := Option.map_eq_some_iff.mp hstep
          rfl
      case h_6 =>
          obtain rfl := Option.some.inj hstep
          rfl

theorem orderly_run {events : List (ServiceEvent n ι R)} (hserved : Served s) (h : Orderly s)
    (hturned : s.turnedAway = []) (hlaunched : Along step StopsLaunched s events)
    (hrun : run step s events = some s') : Served s' ∧ Orderly s' ∧ s'.turnedAway = [] := by
  refine run_invariant (Q := StopsLaunched)
    (P := fun _ s ↦ Served s ∧ Orderly s ∧ s.turnedAway = []) ⟨hserved, h, hturned⟩ ?_ hlaunched
    hrun
  intro _ s e s' ⟨hserved, h, hturned⟩ hQ hstep
  have hnext := orderly_step hserved h hQ hstep
  exact ⟨served_step hserved hstep, hnext, (turnedAway_step hnext.refused hstep).trans hturned⟩

end Service

/-- As long as `stop` is not called before `running_` has been set: no command is refused
because of a stop, and nobody is turned away; no command runs while the log is closed; and
when a stop has returned, the pool being stopped, every thread of a connection and every
worker is gone, the log is closed and every command that was accepted has been executed. -/
theorem stop_is_orderly {ι R : Type*} [DecidableEq ι] (workerThreads : ℕ)
    (events : List (ServiceEvent (max 1 workerThreads) ι R))
    (s : Service (max 1 workerThreads) ι R)
    (hrun : run Service.step (Service.create workerThreads ι R) events = some s)
    (hlaunched : Along Service.step Service.StopsLaunched (Service.create workerThreads ι R)
      events) :
    s.pool.refused = [] ∧ s.turnedAway = [] ∧
      (∀ w task, s.pool.workers w = .running task → s.logOpen = true) ∧
      (s.pool.stopping = true → s.stopper = .idle →
        (∀ i, s.clients i = .absent ∨ s.clients i = .gone) ∧
          (∀ w, s.pool.workers w = .exited) ∧ s.logOpen = false ∧
          (s.results.map Prod.fst).Perm s.pool.accepted) := by
  obtain ⟨hserved, horderly, hturned⟩ := Service.orderly_run (Service.served_create workerThreads)
    (Service.orderly_create workerThreads) rfl hlaunched hrun
  refine ⟨horderly.refused, hturned, fun w task hw ↦ ?_, fun hstop hidle ↦ ?_⟩
  · -- before the launch there is no task at all
    by_contra hlog
    by_cases hmain : s.main = .launched
    · simp [horderly.closed hmain (by simpa using hlog) w] at hw
    · have hmem := hserved.sound.accepted_of_running hw
      have hlt := hserved.sound.identified.lt_calls task (Or.inl hmem)
      simp [(horderly.unlaunched hmain).2.2.2.2.1] at hlt
  · have hcaller : s.pool.callers none = .idle := by
      by_contra hbusy
      have hpooling := horderly.shutting hbusy
      simp [hidle] at hpooling
    have hexited : ∀ w, s.pool.workers w = .exited := by
      refine (horderly.exited hstop).resolve_left ?_
      simp [hcaller, CallerPc.Stops]
    refine ⟨fun i ↦ ?_, hexited, horderly.ended hstop (by simp [hidle]) (by simp [hidle]), ?_⟩
    · have hquiet := horderly.quiet (Or.inl hstop) i
      simp only [ClientPc.Active, not_and, ne_eq, not_not] at hquiet
      exact or_iff_not_imp_left.mpr hquiet
    · rw [hserved.results]
      exact hserved.sound.finished_of_exited (by omega) hexited

/-- A command is executed and answered, and the server is stopped. -/
def wholeService : List (ServiceEvent (max 1 1) Unit ℕ) :=
  [.openLog, .launch, .accept (), .register, .submit (), .caller () none, .caller () none,
    .caller () none, .worker onlyWorker 0, .stop, .worker onlyWorker 0, .stopper none,
    .worker onlyWorker 0, .worker onlyWorker 7, .answer () true, .leave (), .stopper none,
    .stopper none, .stopper none, .stopper none, .stopper none, .worker onlyWorker 0,
    .worker onlyWorker 0, .worker onlyWorker 0, .stopper none, .stopper none, .stopper none]

theorem stop_is_orderly_wholeService :
    ∃ s, run Service.step (Service.create 1 Unit ℕ) wholeService = some s ∧
      s.answers () = [7] ∧ s.pool.stopping = true ∧ (∀ w, s.pool.workers w = .exited) ∧
      s.logOpen = false ∧ (s.results.map Prod.fst).Perm s.pool.accepted := by
  have hsummary : (run Service.step (Service.create 1 Unit ℕ) wholeService).map
      (fun s ↦ (s.answers (), s.pool.stopping, decide (s.stopper = .idle))) =
      some ([7], true, true) := by decide +kernel
  obtain ⟨s, hrun, hs⟩ := Option.map_eq_some_iff.mp hsummary
  simp only [Prod.mk.injEq, decide_eq_true_eq] at hs
  obtain ⟨hanswers, hstop, hidle⟩ := hs
  have hlaunched : Along Service.step Service.StopsLaunched (Service.create 1 Unit ℕ)
      wholeService := by decide +kernel
  have hrest := (stop_is_orderly 1 wholeService s hrun hlaunched).2.2.2 hstop hidle
  exact ⟨s, hrun, hanswers, hstop, hrest.2.1, hrest.2.2.1, hrest.2.2.2⟩

/-- A stop that comes before the launch is forgotten, and the pool is gone. -/
def earlyStop : List (ServiceEvent (max 1 1) Unit ℕ) :=
  [.stop, .stopper none, .stopper none, .stopper none, .stopper none, .stopper none,
    .worker onlyWorker 0, .worker onlyWorker 0, .worker onlyWorker 0, .stopper none, .stopper none,
    .stopper none, .openLog, .launch, .accept (), .register, .submit (), .caller () none,
    .caller () none]

example : (run Service.step (Service.create 1 Unit ℕ) earlyStop).map
    (fun s ↦ (s.running, s.pool.refused, s.turnedAway)) = some (true, [0], [()]) := by
  decide +kernel

end ByteCacheDB
