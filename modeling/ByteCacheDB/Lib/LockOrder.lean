import ByteCacheDB.Lib.TwoPhase

/-!
# Lock order

Every thread works through scripts of lock operations, one script after another,
and an acquisition has to wait while another owner excludes it.  When each script
takes its locks in the order of a rank and gives back what it took, no set of
threads can wait for each other: the owner of the highest lock somebody waits for
would have to wait for a higher one.  A waiting thread is taken to wait as long as
anybody owns the lock in any mode, so the result does not depend on how a lock
chooses between readers and writers.
-/

namespace LockOrder

open Function Runs TwoPhase

inductive Op (L : Type*)
  | acquire (lock : L) (mode : Mode)
  | release (lock : L)
  deriving DecidableEq

/-- What a thread owns, and what is left of the script it is in. -/
structure Thread (L : Type*) where
  held : L → Option Mode := fun _ ↦ none
  todo : List (Op L) := []

inductive Event (κ J : Type*)
  | start (k : κ) (job : J)
  | step (k : κ)

/-- The lock a thread has to get for its next step. -/
def Thread.awaited {L : Type*} (t : Thread L) : Option L :=
  match t.todo with
  | .acquire lock _ :: _ => some lock
  | _ => none

section Machine

variable {κ L J : Type*} [DecidableEq L] [DecidableEq κ] [Fintype κ]

/-- Nobody owns the lock in a mode that excludes the wanted one. -/
def Grantable (threads : κ → Thread L) (lock : L) : Mode → Prop
  | .shared => ∀ j, (threads j).held lock ≠ some .exclusive
  | .exclusive => ∀ j, (threads j).held lock = none

instance (threads : κ → Thread L) (lock : L) :
    (mode : Mode) → Decidable (Grantable threads lock mode)
  | .shared => inferInstanceAs (Decidable (∀ j, (threads j).held lock ≠ some .exclusive))
  | .exclusive => inferInstanceAs (Decidable (∀ j, (threads j).held lock = none))

def next (script : J → List (Op L)) (threads : κ → Thread L) :
    Event κ J → Option (κ → Thread L)
  | .start k job =>
      match (threads k).todo with
      | [] => some (update threads k ⟨(threads k).held, script job⟩)
      | _ :: _ => none
  | .step k =>
      match (threads k).todo with
      | [] => none
      | .acquire lock mode :: rest =>
          if Grantable threads lock mode then
            some (update threads k ⟨update (threads k).held lock (some mode), rest⟩)
          else none
      | .release lock :: rest =>
          some (update threads k ⟨update (threads k).held lock none, rest⟩)

end Machine

section Ordered

variable {L : Type*} [DecidableEq L] (rank : L → ℕ)

/-- From what is owned, the script takes only locks above all that is owned then,
gives back only what is owned, and ends with nothing. -/
def Ordered : (L → Option Mode) → List (Op L) → Prop
  | held, [] => ∀ lock, held lock = none
  | held, .acquire lock mode :: rest =>
      (∀ other, held other ≠ none → rank other < rank lock) ∧
        Ordered (update held lock (some mode)) rest
  | held, .release lock :: rest => held lock ≠ none ∧ Ordered (update held lock none) rest

/-- The script can stand wherever only locks below the bound are owned, and leaves
behind what it found. -/
def Nested (bound : ℕ) (script : List (Op L)) : Prop :=
  ∀ held rest, (∀ lock, held lock ≠ none → rank lock < bound) → Ordered rank held rest →
    Ordered rank held (script ++ rest)

variable {rank} {bound : ℕ} {script : List (Op L)}

theorem Nested.ordered (h : Nested rank bound script) : Ordered rank (fun _ ↦ none) script := by
  have hrest := h (fun _ ↦ none) [] (by simp) (fun _ ↦ rfl)
  simpa using hrest

theorem nested_nil : Nested rank bound [] := fun _ _ _ hrest ↦ hrest

theorem Nested.append {script' : List (Op L)} (h : Nested rank bound script)
    (h' : Nested rank bound script') : Nested rank bound (script ++ script') := by
  intro held rest hheld hrest
  rw [List.append_assoc]
  exact h held _ hheld (h' held rest hheld hrest)

theorem nested_flatMap {α : Type*} {f : α → List (Op L)} {xs : List α}
    (h : ∀ x ∈ xs, Nested rank bound (f x)) : Nested rank bound (xs.flatMap f) := by
  induction xs with
  | nil => exact nested_nil
  | cons x xs ih =>
      rw [List.forall_mem_cons] at h
      exact h.1.append (ih h.2)

theorem Nested.mono {low : ℕ} (hlow : low ≤ bound) (h : Nested rank bound script) :
    Nested rank low script :=
  fun held rest hheld hrest ↦ h held rest (fun lock hlock ↦ (hheld lock hlock).trans_le hlow) hrest

/-- Takes the locks one by one, and gives them back after the body. -/
def locking (locks : List L) (mode : Mode) (body : List (Op L)) : List (Op L) :=
  locks.map (.acquire · mode) ++ body ++ locks.map .release

def own (locks : List L) (mode : Mode) (held : L → Option Mode) : L → Option Mode :=
  fun lock ↦ if lock ∈ locks then some mode else held lock

variable {locks : List L} {mode : Mode} {held : L → Option Mode} {rest : List (Op L)}

@[simp] theorem own_nil : own [] mode held = held := by
  funext lock
  simp [own]

theorem ordered_acquires (hsorted : locks.Pairwise (rank · < rank ·))
    (hheld : ∀ lock ∈ locks, ∀ other, held other ≠ none → rank other < rank lock)
    (hrest : Ordered rank (own locks mode held) rest) :
    Ordered rank held (locks.map (.acquire · mode) ++ rest) := by
  induction locks generalizing held with
  | nil => simpa using hrest
  | cons lock locks ih =>
      rw [List.pairwise_cons] at hsorted
      rw [List.forall_mem_cons] at hheld
      refine ⟨hheld.1, ih hsorted.2 ?_ ?_⟩
      · intro lock' hmem other hother
        by_cases heq : other = lock
        · exact heq ▸ hsorted.1 lock' hmem
        · rw [update_of_ne heq] at hother
          exact hheld.2 lock' hmem other hother
      · have hown :
            own locks mode (update held lock (some mode)) = own (lock :: locks) mode held := by
          funext other
          by_cases heq : other = lock <;> simp [own, heq, update_of_ne]
        rwa [hown]

theorem ordered_releases (hnodup : locks.Nodup) (hfree : ∀ lock ∈ locks, held lock = none)
    (hrest : Ordered rank held rest) :
    Ordered rank (own locks mode held) (locks.map .release ++ rest) := by
  induction locks with
  | nil => simpa using hrest
  | cons lock locks ih =>
      rw [List.nodup_cons] at hnodup
      rw [List.forall_mem_cons] at hfree
      refine ⟨by simp [own], ?_⟩
      have hown : update (own (lock :: locks) mode held) lock none = own locks mode held := by
        funext other
        by_cases heq : other = lock
        · subst heq
          simp [own, hnodup.1, hfree.1]
        · simp [own, heq, update_of_ne]
      rw [hown]
      exact ih hnodup.2 hfree.2

theorem Nested.locking {low : ℕ} (hsorted : locks.Pairwise (rank · < rank ·))
    (hlow : ∀ lock ∈ locks, low ≤ rank lock) (hhigh : ∀ lock ∈ locks, rank lock < bound)
    (hle : low ≤ bound) (h : Nested rank bound script) :
    Nested rank low (locking locks mode script) := by
  intro held rest hheld hrest
  have hbelow : ∀ lock ∈ locks, ∀ other, held other ≠ none → rank other < rank lock :=
    fun lock hmem other hother ↦ (hheld other hother).trans_le (hlow lock hmem)
  have hfree : ∀ lock ∈ locks, held lock = none := fun lock hmem ↦
    not_not.mp fun hne ↦ (hbelow lock hmem lock hne).ne rfl
  have hown : ∀ lock, own locks mode held lock ≠ none → rank lock < bound := by
    intro lock hne
    by_cases hmem : lock ∈ locks
    · exact hhigh lock hmem
    · rw [own, if_neg hmem] at hne
      exact (hheld lock hne).trans_le hle
  have hnodup : locks.Nodup := hsorted.imp fun hlt heq ↦ hlt.ne (congrArg rank heq)
  have hreleases : Ordered rank (own locks mode held) (locks.map .release ++ rest) :=
    ordered_releases hnodup hfree hrest
  simpa [LockOrder.locking, List.append_assoc] using
    ordered_acquires hsorted hbelow (h _ _ hown hreleases)

theorem nested_lock {lock : L} (hbound : bound ≤ rank lock)
    (h : Nested rank (rank lock + 1) script) : Nested rank bound (locking [lock] mode script) :=
  Nested.locking (List.pairwise_singleton _ _) (by simpa using hbound) (by simp) (by omega) h

end Ordered

section Deadlock

variable {κ L J : Type*} [DecidableEq L] {rank : L → ℕ} {threads threads' : κ → Thread L}

/-- The thread waits for a lock that somebody of the set owns. -/
def WaitsOn (threads : κ → Thread L) (owners : Finset κ) (k : κ) : Prop :=
  ∃ lock, (threads k).awaited = some lock ∧ ∃ j ∈ owners, (threads j).held lock ≠ none

def Disciplined (rank : L → ℕ) (threads : κ → Thread L) : Prop :=
  ∀ k, Ordered rank (threads k).held (threads k).todo

theorem Disciplined.rank_lt_awaited (h : Disciplined rank threads) {k : κ} {lock other : L}
    (hawaited : (threads k).awaited = some lock) (hother : (threads k).held other ≠ none) :
    rank other < rank lock := by
  have hk := h k
  rw [Thread.awaited] at hawaited
  split at hawaited
  case h_1 htodo =>
    cases hawaited
    rw [htodo] at hk
    exact hk.1 other hother
  case h_2 => cases hawaited

theorem Disciplined.todo_ne_nil (h : Disciplined rank threads) {k : κ} {lock : L}
    (hheld : (threads k).held lock ≠ none) : (threads k).todo ≠ [] := by
  intro htodo
  have hk := h k
  rw [htodo] at hk
  exact hheld (hk lock)

/-- In no set of threads does everybody wait for a lock that one of them owns. -/
theorem Disciplined.exists_not_waitsOn (h : Disciplined rank threads) {owners : Finset κ}
    (howners : owners.Nonempty) : ∃ k ∈ owners, ¬ WaitsOn threads owners k := by
  by_contra! hall
  let awaitedRank : κ → ℕ := fun k ↦ ((threads k).awaited.map rank).getD 0
  obtain ⟨k, hk, hmax⟩ := owners.exists_max_image awaitedRank howners
  obtain ⟨lock, hawaited, j, hj, hheld⟩ := hall k hk
  obtain ⟨lock', hawaited', -⟩ := hall j hj
  have hlt := h.rank_lt_awaited hawaited' hheld
  have hle := hmax j hj
  simp only [awaitedRank, hawaited, hawaited', Option.map_some, Option.getD_some] at hle
  omega

variable [DecidableEq κ]

theorem Disciplined.update (h : Disciplined rank threads) {k : κ} {t : Thread L}
    (ht : Ordered rank t.held t.todo) : Disciplined rank (update threads k t) := by
  intro j
  by_cases heq : j = k
  · subst heq
    simpa using ht
  · simpa [update_of_ne heq] using h j

variable [Fintype κ] {script : J → List (Op L)}

theorem Disciplined.next (hscript : ∀ job, Ordered rank (fun _ ↦ none) (script job))
    (h : Disciplined rank threads) {e : Event κ J} (hstep : next script threads e = some threads') :
    Disciplined rank threads' := by
  cases e with
  | start k job =>
      have hk := h k
      simp only [LockOrder.next] at hstep
      split at hstep
      case h_1 htodo =>
        cases hstep
        rw [htodo] at hk
        have hempty : (threads k).held = fun _ ↦ none := funext hk
        exact h.update (by simpa [hempty] using hscript job)
      case h_2 => cases hstep
  | step k =>
      have hk := h k
      simp only [LockOrder.next] at hstep
      split at hstep
      case h_1 => cases hstep
      case h_2 htodo =>
        split at hstep
        · cases hstep
          rw [htodo] at hk
          exact h.update hk.2
        · cases hstep
      case h_3 htodo =>
        cases hstep
        rw [htodo] at hk
        exact h.update hk.2

theorem disciplined_run (hscript : ∀ job, Ordered rank (fun _ ↦ none) (script job))
    {events : List (Event κ J)} (hrun : run (next script) (fun _ ↦ {}) events = some threads) :
    Disciplined rank threads := by
  refine run_invariant (P := fun _ ↦ Disciplined rank) ?_ ?_
    (along_of_forall (fun _ _ ↦ trivial) _ _) hrun
  · exact fun _ _ ↦ rfl
  · exact fun _ _ _ _ h _ hstep ↦ h.next hscript hstep

theorem next_step_isSome {k : κ} (htodo : (threads k).todo ≠ [])
    (hfree : ¬ WaitsOn threads Finset.univ k) : (next script threads (.step k)).isSome := by
  simp only [next]
  split
  case h_1 hnil => exact absurd hnil htodo
  case h_2 lock mode rest hcons =>
    have hnone : ∀ j, (threads j).held lock = none := by
      intro j
      by_contra hne
      exact hfree ⟨lock, by simp [Thread.awaited, hcons], j, Finset.mem_univ j, hne⟩
    have hgrant : Grantable threads lock mode := by
      cases mode with
      | shared => exact fun j ↦ by simp [hnone j]
      | exclusive => exact hnone
    simp [hgrant]
  case h_3 => rfl

omit [DecidableEq κ] in
/-- While a thread is unfinished, some unfinished thread waits for nobody. -/
theorem Disciplined.exists_runnable (h : Disciplined rank threads)
    (hunfinished : ∃ k, (threads k).todo ≠ []) :
    ∃ k, (threads k).todo ≠ [] ∧ ¬ WaitsOn threads Finset.univ k := by
  let owners : Finset κ := Finset.univ.filter fun k ↦ (threads k).todo ≠ []
  have howners : owners.Nonempty := by
    obtain ⟨k, hk⟩ := hunfinished
    exact ⟨k, by simpa [owners] using hk⟩
  obtain ⟨k, hk, hfree⟩ := h.exists_not_waitsOn howners
  refine ⟨k, by simpa [owners] using hk, ?_⟩
  -- whoever owns a lock is unfinished, so the set has all the owners
  rintro ⟨lock, hawaited, j, -, hheld⟩
  exact hfree ⟨lock, hawaited, j, by simpa [owners] using h.todo_ne_nil hheld, hheld⟩

end Deadlock

end LockOrder
