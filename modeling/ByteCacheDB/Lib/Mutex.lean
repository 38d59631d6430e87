import Mathlib

/-!
# One lock

A lock has an owner or none, and some of the threads are inside the sections that it
guards.  A step takes the lock, gives it back, or leaves it alone while one thread
moves.
-/

namespace Mutex

variable {ι : Type*} {owner : Option ι} {inside inside' : ι → Prop} {t : ι}

/-- Who is inside owns the lock. -/
def Guards (owner : Option ι) (inside : ι → Prop) : Prop := ∀ t, inside t → owner = some t

/-- Who owns the lock is inside. -/
def Occupied (owner : Option ι) (inside : ι → Prop) : Prop := ∀ t, owner = some t → inside t

/-! ## Who is inside owns the lock -/

theorem Guards.eq (h : Guards owner inside) {u : ι} (ht : inside t) (hu : inside u) : t = u :=
  Option.some.inj ((h t ht).symm.trans (h u hu))

/-- Nobody enters. -/
theorem Guards.keep (h : Guards owner inside) (hsub : ∀ u, inside' u → inside u) :
    Guards owner inside' :=
  fun u hu ↦ h u (hsub u hu)

/-- The thread `t` moves and is not inside. -/
theorem Guards.outside (h : Guards owner inside) (hout : ¬inside' t)
    (hothers : ∀ u, u ≠ t → inside' u → inside u) : Guards owner inside' := by
  refine h.keep fun u hu ↦ hothers u ?_ hu
  rintro rfl
  exact hout hu

/-- The thread `t` takes the free lock. -/
theorem Guards.acquire (h : Guards owner inside) (hfree : owner = none)
    (hothers : ∀ u, u ≠ t → inside' u → inside u) : Guards (some t) inside' := by
  intro u hu
  by_contra hne
  have hut : u ≠ t := fun hut ↦ hne (congrArg some hut.symm)
  have hold := h u (hothers u hut hu)
  rw [hfree] at hold
  simp at hold

/-- The thread `t` inside moves and stays there. -/
theorem Guards.stay (h : Guards owner inside) (ht : inside t)
    (hothers : ∀ u, u ≠ t → inside' u → inside u) : Guards owner inside' := by
  intro u hu
  by_cases hut : u = t
  · rw [hut]
    exact h t ht
  · exact h u (hothers u hut hu)

/-- The thread `t` inside gives the lock back, and nobody is inside. -/
theorem Guards.release (h : Guards owner inside) (ht : inside t) (hout : ¬inside' t)
    (hothers : ∀ u, u ≠ t → inside' u → inside u) : Guards none inside' := by
  intro u hu
  by_cases hut : u = t
  · exact absurd (hut ▸ hu) hout
  · exact absurd (h.eq (hothers u hut hu) ht) hut

/-! ## Who owns the lock is inside -/

theorem Occupied.none (inside : ι → Prop) : Occupied none inside := by simp [Occupied]

theorem Occupied.acquire (ht : inside t) : Occupied (some t) inside := by
  intro u hu
  rw [← Option.some.inj hu]
  exact ht

/-- The owner stays inside. -/
theorem Occupied.keep (h : Occupied owner inside) (hsub : ∀ u, inside u → inside' u) :
    Occupied owner inside' :=
  fun u hu ↦ hsub u (h u hu)

/-- The thread `t` moves; if it was inside it stays there. -/
theorem Occupied.move (h : Occupied owner inside) (ht : inside t → inside' t)
    (hothers : ∀ u, u ≠ t → inside u → inside' u) : Occupied owner inside' := by
  refine h.keep fun u hu ↦ ?_
  by_cases hut : u = t
  · rw [hut] at hu ⊢
    exact ht hu
  · exact hothers u hut hu

end Mutex
