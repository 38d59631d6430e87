import Mathlib

/-!
# Quantities summed over threads

Each thread is in some local state, and a quantity adds up what the local states
contribute.  A step moves one thread.
-/

namespace Threads

/-- A property of all local states, when one thread moves. -/
theorem forall_update {κ σ : Type*} [DecidableEq κ] {P : σ → Prop} {pcs : κ → σ} {k : κ} {pc : σ}
    (h : ∀ j, P (pcs j)) (hpc : P pc) (j : κ) : P (Function.update pcs k pc j) := by
  rw [Function.update_apply]
  split
  · exact hpc
  · exact h j

/-- At most one thread has `P`: who moves there had it, or nobody did. -/
theorem exclusive_update {κ σ : Type*} [DecidableEq κ] {P : σ → Prop} {pcs : κ → σ} {k : κ}
    {pc : σ} (h : ∀ i j, P (pcs i) → P (pcs j) → i = j)
    (hpc : P pc → P (pcs k) ∨ ∀ j, ¬ P (pcs j)) (i j : κ)
    (hi : P (Function.update pcs k pc i)) (hj : P (Function.update pcs k pc j)) : i = j := by
  have hmoved : ∀ l, l ≠ k → P pc → ¬ P (pcs l) := by
    intro l hl hP hother
    rcases hpc hP with hk | hnone
    · exact hl (h l k hother hk)
    · exact hnone l hother
  rw [Function.update_apply] at hi hj
  split_ifs at hi hj with hik hjk hjk
  · rw [hik, hjk]
  · exact absurd hj (hmoved j hjk hi)
  · exact absurd hi (hmoved i hik hj)
  · exact h i j hi hj

variable {κ σ M : Type*} [Fintype κ] [AddCommMonoid M]

/-- What the threads contribute together. -/
def total (share : σ → M) (pcs : κ → σ) : M := ∑ k, share (pcs k)

theorem total_congr {share : σ → M} {pcs pcs' : κ → σ} (h : ∀ k, share (pcs' k) = share (pcs k)) :
    total share pcs' = total share pcs :=
  Finset.sum_congr rfl fun k _ ↦ h k

theorem total_eq_zero {share : σ → M} {pcs : κ → σ} (h : ∀ k, share (pcs k) = 0) :
    total share pcs = 0 :=
  Finset.sum_eq_zero fun k _ ↦ h k

theorem total_eq_single {share : σ → M} {pcs : κ → σ} {k : κ}
    (h : ∀ j, j ≠ k → share (pcs j) = 0) : total share pcs = share (pcs k) :=
  Finset.sum_eq_single k (fun j _ hj ↦ h j hj) fun hk ↦ absurd (Finset.mem_univ k) hk

theorem total_add (share share' : σ → M) (pcs : κ → σ) :
    total (fun pc ↦ share pc + share' pc) pcs = total share pcs + total share' pcs :=
  Finset.sum_add_distrib

theorem total_map {N : Type*} [AddCommMonoid N] (f : M →+ N) (share : σ → M) (pcs : κ → σ) :
    total (fun pc ↦ f (share pc)) pcs = f (total share pcs) :=
  (map_sum f _ _).symm

variable [DecidableEq κ]

/-- Moving one thread exchanges its contribution. -/
theorem total_update (share : σ → M) (pcs : κ → σ) (k : κ) (pc : σ) :
    total share (Function.update pcs k pc) + share (pcs k) = total share pcs + share pc := by
  have hrest : ∑ j ∈ Finset.univ.erase k, share (Function.update pcs k pc j) =
      ∑ j ∈ Finset.univ.erase k, share (pcs j) := by
    apply Finset.sum_congr rfl
    intro j hj
    rw [Function.update_of_ne (Finset.ne_of_mem_erase hj)]
  have hnew := Finset.add_sum_erase Finset.univ (fun j ↦ share (Function.update pcs k pc j))
    (Finset.mem_univ k)
  have hold := Finset.add_sum_erase Finset.univ (fun j ↦ share (pcs j)) (Finset.mem_univ k)
  rw [Function.update_self, hrest] at hnew
  rw [total, total, ← hnew, ← hold]
  abel

/-- A thread that moves without changing its contribution. -/
theorem total_update_of_eq {share : σ → M} {pcs : κ → σ} {k : κ} {pc : σ}
    (h : share pc = share (pcs k)) :
    total share (Function.update pcs k pc) = total share pcs := by
  apply Finset.sum_congr rfl
  intro j _
  by_cases hj : j = k
  · subst hj
    rw [Function.update_self, h]
  · rw [Function.update_of_ne hj]

end Threads
