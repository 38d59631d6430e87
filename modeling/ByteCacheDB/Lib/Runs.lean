import Mathlib

/-!
# Runs of partial transition functions

A system is given by what an event makes of a state, if it is possible there.
A run is a list of possible events.  `Along` says that every event of a run
meets a condition in the state it happens in; invariants are proved for one
step and hold along such runs.
-/

namespace Runs

variable {σ ε : Type*} (step : σ → ε → Option σ)

def run (s : σ) (events : List ε) : Option σ := events.foldlM step s

/-- Every event meets the condition in the state where it happens. -/
def Along (Q : σ → ε → Prop) : σ → List ε → Prop
  | _, [] => True
  | s, e :: rest => Q s e ∧ ∀ s', step s e = some s' → Along Q s' rest

instance Along.decidable {Q : σ → ε → Prop} [∀ s e, Decidable (Q s e)] :
    (s : σ) → (events : List ε) → Decidable (Along step Q s events)
  | _, [] => isTrue trivial
  | s, e :: rest =>
      match h : step s e with
      | none => decidable_of_iff (Q s e) (by simp [Along, h])
      | some s' =>
          have : Decidable (Along step Q s' rest) := Along.decidable s' rest
          decidable_of_iff (Q s e ∧ Along step Q s' rest) (by simp [Along, h])

variable {step}

@[simp] theorem run_nil (s : σ) : run step s [] = some s := rfl

theorem run_cons (s : σ) (e : ε) (events : List ε) :
    run step s (e :: events) = (step s e).bind fun s' ↦ run step s' events := rfl

theorem run_append (s : σ) (xs ys : List ε) :
    run step s (xs ++ ys) = (run step s xs).bind fun s' ↦ run step s' ys := by
  rw [run, List.foldlM_append]
  rfl

theorem along_of_forall {Q : σ → ε → Prop} (h : ∀ s e, Q s e) (s : σ) (events : List ε) :
    Along step Q s events := by
  induction events generalizing s with
  | nil => trivial
  | cons e rest ih => exact ⟨h s e, fun s' _ ↦ ih s'⟩

theorem along_of_forall_mem {Q : ε → Prop} {s : σ} {events : List ε} (h : ∀ e ∈ events, Q e) :
    Along step (fun _ e ↦ Q e) s events := by
  induction events generalizing s with
  | nil => trivial
  | cons e rest ih =>
      rw [List.forall_mem_cons] at h
      exact ⟨h.1, fun s' _ ↦ ih h.2⟩

theorem Along.and {Q R : σ → ε → Prop} {s : σ} {events : List ε} (hQ : Along step Q s events)
    (hR : Along step R s events) : Along step (fun s e ↦ Q s e ∧ R s e) s events := by
  induction events generalizing s with
  | nil => trivial
  | cons e rest ih => exact ⟨⟨hQ.1, hR.1⟩, fun s' hs' ↦ ih (hQ.2 s' hs') (hR.2 s' hs')⟩

theorem Along.of_initial {Q : σ → ε → Prop} {s : σ} {xs events : List ε}
    (h : Along step Q s events) (hxs : xs <+: events) : Along step Q s xs := by
  induction xs generalizing s events with
  | nil => trivial
  | cons x xs ih =>
      obtain ⟨ys, rfl⟩ := hxs
      exact ⟨h.1, fun s' hs' ↦ ih (h.2 s' hs') (List.prefix_append xs ys)⟩

/-- A condition that follows from a property of the state it leads to holds along
a run through states with that property. -/
theorem along_of_reached {Q : σ → ε → Prop} {P : σ → Prop} {s₀ s : σ} {events : List ε}
    (h : ∀ s e s', step s e = some s' → P s' → Q s e) (hrun : run step s₀ events = some s)
    (hreached : ∀ past mid, past <+: events → run step s₀ past = some mid → P mid) :
    Along step Q s₀ events := by
  induction events generalizing s₀ with
  | nil => trivial
  | cons e rest ih =>
      rw [run_cons] at hrun
      obtain ⟨s₁, hstep, hrest⟩ := Option.bind_eq_some_iff.mp hrun
      refine ⟨h s₀ e s₁ hstep ?_, fun s' hs' ↦ ?_⟩
      · exact hreached [e] s₁ (by simp) (by simp [run_cons, hstep])
      · obtain rfl := Option.some.inj (hstep.symm.trans hs')
        refine ih hrest fun past mid hpast hmid ↦ ?_
        apply hreached (e :: past) mid (List.cons_prefix_cons.mpr ⟨rfl, hpast⟩)
        rw [run_cons, hstep]
        exact hmid

/-- A property of past and state that every allowed step keeps holds at the end
of every run of allowed steps. -/
theorem run_invariant {Q : σ → ε → Prop} {P : List ε → σ → Prop} {s₀ s : σ} {events : List ε}
    (hinit : P [] s₀)
    (hstep : ∀ past s e s', P past s → Q s e → step s e = some s' → P (past ++ [e]) s')
    (halong : Along step Q s₀ events) (hrun : run step s₀ events = some s) : P events s := by
  suffices hgen : ∀ past s₀, P past s₀ → Along step Q s₀ events →
      run step s₀ events = some s → P (past ++ events) s from
    hgen [] s₀ hinit halong hrun
  clear hinit halong hrun s₀
  induction events with
  | nil =>
      intro past s₀ hP _ hrun
      obtain rfl := Option.some.inj hrun
      simpa using hP
  | cons e rest ih =>
      intro past s₀ hP halong hrun
      rw [run_cons] at hrun
      obtain ⟨s', hs', hrest⟩ := Option.bind_eq_some_iff.mp hrun
      have hnext := ih (past ++ [e]) s' (hstep past s₀ e s' hP halong.1 hs')
        (halong.2 s' hs') hrest
      simpa using hnext

end Runs
