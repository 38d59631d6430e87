import ByteCacheDB.Lib.Runs

/-!
# Progress

A measure that every allowed step lowers bounds the runs of allowed steps.  What
such runs come to is read off the states in which no allowed step is possible.
-/

namespace Runs

variable {σ ε : Type*} {step : σ → ε → Option σ} {Q : σ → ε → Prop} {P : σ → Prop} {μ : σ → ℕ}

/-- No allowed event is possible. -/
def Blocked (step : σ → ε → Option σ) (Q : σ → ε → Prop) (s : σ) : Prop :=
  ∀ e, Q s e → step s e = none

/-- The measure pays for every step of the run. -/
theorem length_add_le {s s' : σ} {events : List ε}
    (hkeep : ∀ s e s', P s → Q s e → step s e = some s' → P s')
    (hlower : ∀ s e s', P s → Q s e → step s e = some s' → μ s' < μ s) (hP : P s)
    (halong : Along step Q s events) (hrun : run step s events = some s') :
    events.length + μ s' ≤ μ s := by
  induction events generalizing s with
  | nil =>
      obtain rfl := Option.some.inj hrun
      simp
  | cons e rest ih =>
      rw [run_cons] at hrun
      obtain ⟨s₁, hstep, hrest⟩ := Option.bind_eq_some_iff.mp hrun
      have hpaid := hlower s e s₁ hP halong.1 hstep
      have hlater := ih (hkeep s e s₁ hP halong.1 hstep) (halong.2 s₁ hstep) hrest
      rw [List.length_cons]
      omega

/-- One of several parties comes closer to its end. -/
theorem sum_set_lt {α : Type*} {work : α → ℕ} {parties : List α} {i : ℕ} {a b : α}
    (ha : parties[i]? = some a) (hlower : work b < work a) :
    ((parties.set i b).map work).sum < (parties.map work).sum := by
  induction parties generalizing i with
  | nil => simp at ha
  | cons first rest ih =>
      cases i with
      | zero =>
          obtain rfl := Option.some.inj ha
          simpa using hlower
      | succ i =>
          have hrest := ih (by simpa using ha)
          simpa using hrest

end Runs
