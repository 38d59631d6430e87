import ByteCacheDB.Lib.Runs
import ByteCacheDB.Lib.Threads

/-!
# Two-phase locking

A transaction takes the locks of its cells one by one, then works on the cells
action by action, and then gives the locks back one by one.  The moment at which
it has all of them is its place in the serial order: no cell of it is written by
anybody else until it has finished its work, and what it is still going to write
can be counted as written.  So every transaction gives what it gives when the
transactions are executed one after another, and one that had returned before
another began comes first.
-/

namespace TwoPhase

open Runs Threads

/-- Two elements, one before the other, of a list that grows at its end. -/
theorem pair_sublist_concat {β : Type*} {x y z : β} {l : List β} :
    List.Sublist [x, y] (l ++ [z]) ↔ List.Sublist [x, y] l ∨ x ∈ l ∧ y = z := by
  constructor
  · intro h
    obtain ⟨xs, ys, heq, hxs, hys⟩ := List.sublist_append_iff.mp h
    match xs, ys, heq with
    | [], _, rfl => simpa using hys.length_le
    | [_], _, rfl =>
        exact Or.inr ⟨List.singleton_sublist.mp hxs, List.mem_singleton.mp (hys.subset (by simp))⟩
    | [_, _], _, rfl => exact Or.inl hxs
  · rintro (h | ⟨hx, rfl⟩)
    · exact h.trans (List.sublist_append_left l [z])
    · exact (List.singleton_sublist.mpr hx).append (List.Sublist.refl [y])

inductive Mode
  | shared
  | exclusive
  deriving DecidableEq

/-- A reader-writer lock and who owns it. -/
inductive SharedMutex (κ : Type*)
  | exclusive (owner : κ)
  | shared (owners : Finset κ)

namespace SharedMutex

variable {κ : Type*} [DecidableEq κ]

def acquire (k : κ) : Mode → SharedMutex κ → Option (SharedMutex κ)
  | .exclusive, shared owners => if owners = ∅ then some (exclusive k) else none
  | .shared, shared owners => some (shared (insert k owners))
  | _, exclusive _ => none

def release (k : κ) : SharedMutex κ → SharedMutex κ
  | exclusive _ => shared ∅
  | shared owners => shared (owners.erase k)

def Owns (k : κ) : Mode → SharedMutex κ → Prop
  | .exclusive, exclusive owner => owner = k
  | .shared, shared owners => k ∈ owners
  | _, _ => False

variable {j k : κ} {mode mode' : Mode} {x x' : SharedMutex κ}

theorem owns_acquire (h : x.acquire k mode = some x') : x'.Owns k mode := by
  cases mode <;> cases x <;> simp only [acquire, Option.ite_none_right_eq_some, Option.some.injEq,
    reduceCtorEq] at h
  · subst h
    exact Finset.mem_insert_self _ _
  · obtain ⟨-, rfl⟩ := h
    rfl

/-- Only a shared lock can be taken beside another owner, who keeps it. -/
theorem Owns.acquire (hj : x.Owns j mode') (h : x.acquire k mode = some x') : x'.Owns j mode' := by
  cases mode <;> cases mode' <;> cases x <;> simp only [SharedMutex.acquire, Owns,
    Option.ite_none_right_eq_some, Option.some.injEq, reduceCtorEq] at h hj
  · subst h
    exact Finset.mem_insert_of_mem hj
  · simp [h.1] at hj

omit [DecidableEq κ] in
theorem shared_of_owns (hj : x.Owns j mode) (hk : x.Owns k mode') (hne : j ≠ k) :
    mode = .shared ∧ mode' = .shared := by
  cases mode <;> cases mode' <;> cases x <;> simp only [Owns] at hj hk
  · exact ⟨rfl, rfl⟩
  · exact absurd (hj.symm.trans hk) hne

theorem Owns.release (hj : x.Owns j mode) (hk : x.Owns k mode') (hne : j ≠ k) :
    (x.release k).Owns j mode := by
  obtain ⟨rfl, rfl⟩ := shared_of_owns hj hk hne
  cases x with
  | exclusive owner => exact hj.elim
  | shared owners => exact Finset.mem_erase.mpr ⟨hne, hj⟩

end SharedMutex

/-- What actions do to a store of cells, and what a transaction learns from them.
An action works on one cell at most. -/
structure System (σ ι C α A : Type*) where
  write : α → σ → σ
  read : α → σ → A → A
  cell : α → Option ι
  view : σ → ι → C
  frame : ∀ a s j, cell a ≠ some j → view (write a s) j = view s j
  write_congr : ∀ a s s' i, cell a = some i → view s i = view s' i →
    view (write a s) i = view (write a s') i

structure Txn (ι α A B : Type*) where
  mode : Mode
  locks : List ι
  acts : List α
  start : A
  finish : A → B

namespace System

variable {σ ι C α A B : Type*} (sys : System σ ι C α A)

def exec (acts : List α) (p : σ × A) : σ × A :=
  acts.foldl (fun p a ↦ (sys.write a p.1, sys.read a p.1 p.2)) p

/-- The store after the transactions of a list, one after another. -/
def serial (s : σ) (txns : List (Txn ι α A B)) : σ :=
  txns.foldl (fun s t ↦ (sys.exec t.acts (s, t.start)).1) s

/-- What is learnt depends on the cell alone. -/
def Local [Setoid A] (a : α) : Prop :=
  ∀ s s' acc acc', (∀ i, sys.cell a = some i → sys.view s i = sys.view s' i) → acc ≈ acc' →
    sys.read a s acc ≈ sys.read a s' acc'

/-- A transaction locks the cells of its actions, and writes only under exclusive
locks. -/
structure Admits (t : Txn ι α A B) : Prop where
  nodup : t.locks.Nodup
  covers : ∀ a ∈ t.acts, ∀ i, sys.cell a = some i → i ∈ t.locks
  readOnly : t.mode = .shared → ∀ a ∈ t.acts, ∀ s, sys.view (sys.write a s) = sys.view s

variable {sys}

@[simp] theorem exec_nil (p : σ × A) : sys.exec [] p = p := rfl

@[simp] theorem exec_cons (a : α) (acts : List α) (s : σ) (acc : A) :
    sys.exec (a :: acts) (s, acc) = sys.exec acts (sys.write a s, sys.read a s acc) := rfl

@[simp] theorem serial_concat (s : σ) (txns : List (Txn ι α A B)) (t : Txn ι α A B) :
    sys.serial s (txns ++ [t]) = (sys.exec t.acts (sys.serial s txns, t.start)).1 := by
  simp [serial]

theorem view_write_congr {L : List ι} {a : α} {s s' : σ}
    (h : ∀ i ∈ L, sys.view s i = sys.view s' i) {i : ι} (hi : i ∈ L) :
    sys.view (sys.write a s) i = sys.view (sys.write a s') i := by
  by_cases hcell : sys.cell a = some i
  · exact sys.write_congr a s s' i hcell (h i hi)
  · rw [sys.frame a s i hcell, sys.frame a s' i hcell, h i hi]

/-- Work on locked cells depends on these alone. -/
theorem view_exec_congr {L : List ι} {acts : List α} {s s' : σ} (acc acc' : A)
    (h : ∀ i ∈ L, sys.view s i = sys.view s' i) {i : ι} (hi : i ∈ L) :
    sys.view (sys.exec acts (s, acc)).1 i = sys.view (sys.exec acts (s', acc')).1 i := by
  induction acts generalizing s s' acc acc' with
  | nil => exact h i hi
  | cons a acts ih => exact ih _ _ fun j hj ↦ view_write_congr h hj

theorem exec_congr [Setoid A] {L : List ι} {acts : List α} {s s' : σ} {acc acc' : A}
    (hacts : ∀ a ∈ acts, ∀ i, sys.cell a = some i → i ∈ L)
    (hlocal : ∀ a ∈ acts, sys.Local a) (h : ∀ i ∈ L, sys.view s i = sys.view s' i)
    (hacc : acc ≈ acc') : (sys.exec acts (s, acc)).2 ≈ (sys.exec acts (s', acc')).2 := by
  induction acts generalizing s s' acc acc' with
  | nil => exact hacc
  | cons a acts ih =>
      rw [List.forall_mem_cons] at hacts hlocal
      apply ih hacts.2 hlocal.2
      · exact fun i hi ↦ view_write_congr h hi
      · exact hlocal.1 s s' acc acc' (fun i hi ↦ h i (hacts.1 i hi)) hacc

theorem Admits.view_exec_of_notMem {t : Txn ι α A B} (h : sys.Admits t) {s : σ} {acc : A} {i : ι}
    (hi : i ∉ t.locks) : sys.view (sys.exec t.acts (s, acc)).1 i = sys.view s i := by
  have hacts := h.covers
  generalize t.acts = acts at hacts
  induction acts generalizing s acc with
  | nil => rfl
  | cons a acts ih =>
      rw [List.forall_mem_cons] at hacts
      rw [exec_cons, ih hacts.2]
      exact sys.frame a s i fun hcell ↦ hi (hacts.1 i hcell)

theorem Admits.view_exec_of_shared {t : Txn ι α A B} (h : sys.Admits t) (hmode : t.mode = .shared)
    {s : σ} {acc : A} : sys.view (sys.exec t.acts (s, acc)).1 = sys.view s := by
  have hacts := h.readOnly hmode
  generalize t.acts = acts at hacts
  induction acts generalizing s acc with
  | nil => rfl
  | cons a acts ih =>
      rw [List.forall_mem_cons] at hacts
      rw [exec_cons, ih hacts.2, hacts.1 s]

end System

/-! ## Threads -/

/-- Where a thread is in the transaction with a number. -/
inductive Pc (ι α A B : Type*)
  | idle
  | acquiring (n : ℕ) (t : Txn ι α A B) (held rest : List ι)
  | working (n : ℕ) (t : Txn ι α A B) (rest : List α) (acc : A)
  | releasing (n : ℕ) (t : Txn ι α A B) (held : List ι) (acc : A)

inductive Mark (B : Type*)
  | began (n : ℕ)
  | returned (n : ℕ) (result : B)
  deriving DecidableEq

/-- Transactions are numbered in the order in which they begin. -/
structure Machine (κ σ ι α A B : Type*) where
  store : σ
  mutex : ι → SharedMutex κ := fun _ ↦ .shared ∅
  pcs : κ → Pc ι α A B := fun _ ↦ .idle
  txns : List (Txn ι α A B) := []
  history : List (Mark B) := []

inductive Event (κ ι α A B : Type*)
  | begin (k : κ) (t : Txn ι α A B)
  | step (k : κ)
  | release (k : κ) (i : ι)

namespace Machine

variable {κ σ ι C α A B : Type*} [DecidableEq κ] [DecidableEq ι]

def step (sys : System σ ι C α A) (m : Machine κ σ ι α A B) :
    Event κ ι α A B → Option (Machine κ σ ι α A B)
  | .begin k t =>
      match m.pcs k with
      | .idle => some { m with
          pcs := Function.update m.pcs k (.acquiring m.txns.length t [] t.locks)
          txns := m.txns ++ [t]
          history := m.history ++ [.began m.txns.length] }
      | _ => none
  | .step k =>
      match m.pcs k with
      | .acquiring n t held (i :: rest) =>
          ((m.mutex i).acquire k t.mode).map fun x ↦ { m with
            mutex := Function.update m.mutex i x
            pcs := Function.update m.pcs k (.acquiring n t (i :: held) rest) }
      | .acquiring n t _ [] =>
          some { m with pcs := Function.update m.pcs k (.working n t t.acts t.start) }
      | .working n t (a :: rest) acc => some { m with
          store := sys.write a m.store
          pcs := Function.update m.pcs k (.working n t rest (sys.read a m.store acc)) }
      | .working n t [] acc =>
          some { m with pcs := Function.update m.pcs k (.releasing n t t.locks acc) }
      | .releasing n t [] acc => some { m with
          pcs := Function.update m.pcs k .idle
          history := m.history ++ [.returned n (t.finish acc)] }
      | _ => none
  | .release k i =>
      match m.pcs k with
      | .releasing n t held acc =>
          if i ∈ held then
            some { m with
              mutex := Function.update m.mutex i ((m.mutex i).release k)
              pcs := Function.update m.pcs k (.releasing n t (held.erase i) acc) }
          else none
      | _ => none

/-- What an event does. -/
inductive Stepped (sys : System σ ι C α A) (m : Machine κ σ ι α A B) :
    Event κ ι α A B → Machine κ σ ι α A B → Prop
  | begin {k : κ} {t : Txn ι α A B} (hpc : m.pcs k = .idle) :
      Stepped sys m (.begin k t) { m with
        pcs := Function.update m.pcs k (.acquiring m.txns.length t [] t.locks)
        txns := m.txns ++ [t]
        history := m.history ++ [.began m.txns.length] }
  | acquire {k : κ} {n : ℕ} {t : Txn ι α A B} {held rest : List ι} {i : ι} {x : SharedMutex κ}
      (hpc : m.pcs k = .acquiring n t held (i :: rest))
      (hx : (m.mutex i).acquire k t.mode = some x) :
      Stepped sys m (.step k) { m with
        mutex := Function.update m.mutex i x
        pcs := Function.update m.pcs k (.acquiring n t (i :: held) rest) }
  | grant {k : κ} {n : ℕ} {t : Txn ι α A B} {held : List ι}
      (hpc : m.pcs k = .acquiring n t held []) :
      Stepped sys m (.step k)
        { m with pcs := Function.update m.pcs k (.working n t t.acts t.start) }
  | act {k : κ} {n : ℕ} {t : Txn ι α A B} {a : α} {rest : List α} {acc : A}
      (hpc : m.pcs k = .working n t (a :: rest) acc) :
      Stepped sys m (.step k) { m with
        store := sys.write a m.store
        pcs := Function.update m.pcs k (.working n t rest (sys.read a m.store acc)) }
  | done {k : κ} {n : ℕ} {t : Txn ι α A B} {acc : A} (hpc : m.pcs k = .working n t [] acc) :
      Stepped sys m (.step k)
        { m with pcs := Function.update m.pcs k (.releasing n t t.locks acc) }
  | release {k : κ} {n : ℕ} {t : Txn ι α A B} {held : List ι} {acc : A} {i : ι}
      (hpc : m.pcs k = .releasing n t held acc) (hi : i ∈ held) :
      Stepped sys m (.release k i) { m with
        mutex := Function.update m.mutex i ((m.mutex i).release k)
        pcs := Function.update m.pcs k (.releasing n t (held.erase i) acc) }
  | «return» {k : κ} {n : ℕ} {t : Txn ι α A B} {acc : A}
      (hpc : m.pcs k = .releasing n t [] acc) :
      Stepped sys m (.step k) { m with
        pcs := Function.update m.pcs k .idle
        history := m.history ++ [.returned n (t.finish acc)] }

theorem stepped_of_step {sys : System σ ι C α A} {m m' : Machine κ σ ι α A B}
    {e : Event κ ι α A B} (h : m.step sys e = some m') : Stepped sys m e m' := by
  cases e with
  | begin k t =>
      simp only [step] at h
      split at h
      · obtain rfl := Option.some.inj h
        exact .begin ‹_›
      · simp at h
  | step k =>
      simp only [step] at h
      split at h
      · obtain ⟨x, hx, rfl⟩ := Option.map_eq_some_iff.mp h
        exact .acquire ‹_› hx
      · obtain rfl := Option.some.inj h
        exact .grant ‹_›
      · obtain rfl := Option.some.inj h
        exact .act ‹_›
      · obtain rfl := Option.some.inj h
        exact .done ‹_›
      · obtain rfl := Option.some.inj h
        exact .return ‹_›
      · simp at h
  | release k i =>
      simp only [step] at h
      split at h
      · rw [Option.ite_none_right_eq_some] at h
        obtain ⟨hi, h⟩ := h
        obtain rfl := Option.some.inj h
        exact .release ‹_› hi
      · simp at h

end Machine

/-! ## Who holds which lock -/

namespace Pc

variable {σ ι C α A B : Type*}

/-- The transaction a thread is in. -/
def txn : Pc ι α A B → Option (ℕ × Txn ι α A B)
  | idle => none
  | acquiring n t _ _ | working n t _ _ | releasing n t _ _ => some (n, t)

def held : Pc ι α A B → List ι
  | idle => []
  | acquiring _ _ held _ | releasing _ _ held _ => held
  | working _ t _ _ => t.locks

/-- A transaction with a place in the order, what it still does, and what it has
learnt. -/
def progress : Pc ι α A B → Option (ℕ × Txn ι α A B × List α × A)
  | idle | acquiring _ _ _ _ => none
  | working n t rest acc => some (n, t, rest, acc)
  | releasing n t _ acc => some (n, t, [], acc)

def work : Pc ι α A B → Option (Txn ι α A B × List α × A)
  | working _ t rest acc => some (t, rest, acc)
  | _ => none

theorem of_work {pc : Pc ι α A B} {t : Txn ι α A B} {rest : List α} {acc : A}
    (h : pc.work = some (t, rest, acc)) : ∃ n, pc = .working n t rest acc := by
  cases pc <;> simp_all [work]

def Sound (sys : System σ ι C α A) : Pc ι α A B → Prop
  | idle => True
  | acquiring _ t held rest => sys.Admits t ∧ t.locks = held.reverse ++ rest
  | working _ t rest _ => sys.Admits t ∧ rest <:+ t.acts
  | releasing _ t held _ => sys.Admits t ∧ held.Nodup

end Pc

namespace Machine

variable {κ σ ι C α A B : Type*} {sys : System σ ι C α A} {m m' : Machine κ σ ι α A B}

/-- A thread owns the locks it holds, in the mode of its transaction. -/
structure Guarded (sys : System σ ι C α A) (m : Machine κ σ ι α A B) : Prop where
  sound : ∀ k, (m.pcs k).Sound sys
  owns : ∀ {k n t}, (m.pcs k).txn = some (n, t) → ∀ i ∈ (m.pcs k).held, (m.mutex i).Owns k t.mode

/-- Two threads hold a lock together only in shared mode. -/
theorem Guarded.shared (h : m.Guarded sys) {j k : κ} {n n' : ℕ} {t t' : Txn ι α A B} {i : ι}
    (hj : (m.pcs j).txn = some (n, t)) (hk : (m.pcs k).txn = some (n', t'))
    (hij : i ∈ (m.pcs j).held) (hik : i ∈ (m.pcs k).held) (hne : j ≠ k) :
    t.mode = .shared ∧ t'.mode = .shared :=
  SharedMutex.shared_of_owns (h.owns hj i hij) (h.owns hk i hik) hne

variable [DecidableEq κ] [DecidableEq ι]

omit [DecidableEq ι] in
/-- One thread moves; what it holds behind the move is its own. -/
theorem Guarded.move (h : m.Guarded sys) (k : κ) (pc : Pc ι α A B) (hsound : pc.Sound sys)
    (howns : ∀ {n t}, pc.txn = some (n, t) → ∀ i ∈ pc.held, (m'.mutex i).Owns k t.mode)
    (hothers : ∀ {j n t}, j ≠ k → (m.pcs j).txn = some (n, t) → ∀ i ∈ (m.pcs j).held,
      (m'.mutex i).Owns j t.mode)
    (hpcs : m'.pcs = Function.update m.pcs k pc) : m'.Guarded sys := by
  refine ⟨fun j ↦ ?_, fun {j} n t hj i hi ↦ ?_⟩
  · rw [hpcs]
    exact forall_update h.sound hsound j
  · by_cases hjk : j = k
    · subst hjk
      rw [hpcs, Function.update_self] at hj hi
      exact howns hj i hi
    · rw [hpcs, Function.update_of_ne hjk] at hj hi
      exact hothers hjk hj i hi

/-- Every transaction that begins is admitted by the system. -/
def Admitted (sys : System σ ι C α A) : Event κ ι α A B → Prop
  | .begin _ t => sys.Admits t
  | _ => True

theorem guarded_step {e : Event κ ι α A B} (h : m.Guarded sys) (hadmitted : Admitted sys e)
    (hstep : Stepped sys m e m') : m'.Guarded sys := by
  cases hstep with
  | @begin k t hpc =>
      refine h.move k (.acquiring _ t [] t.locks) ⟨hadmitted, rfl⟩ ?_ (fun _ hj ↦ h.owns hj) rfl
      intro n t' _ i hi
      simp [Pc.held] at hi
  | @acquire k n t held rest i x hpc hx =>
      have hsound := h.sound k
      rw [hpc] at hsound
      have hkeep : ∀ {j mode i'}, (m.mutex i').Owns j mode →
          (Function.update m.mutex i x i').Owns j mode := by
        intro j mode i' howns
        by_cases hi' : i' = i
        · subst hi'
          rw [Function.update_self]
          exact howns.acquire hx
        · rwa [Function.update_of_ne hi']
      refine h.move k (.acquiring n t (i :: held) rest) ⟨hsound.1, by simp [hsound.2]⟩
        ?_ (fun _ hj i' hi' ↦ hkeep (h.owns hj i' hi')) rfl
      rintro _ _ ⟨⟩ i' hi'
      rcases List.mem_cons.mp hi' with rfl | hi'
      · dsimp only
        rw [Function.update_self]
        exact SharedMutex.owns_acquire hx
      · exact hkeep (h.owns (by rw [hpc]; rfl) i' (by rw [hpc]; exact hi'))
  | @grant k n t held hpc =>
      have hsound := h.sound k
      rw [hpc] at hsound
      refine h.move k (.working n t t.acts t.start) ⟨hsound.1, List.suffix_rfl⟩ ?_
        (fun _ hj ↦ h.owns hj) rfl
      rintro _ _ ⟨⟩ i hi
      apply h.owns (by rw [hpc]; rfl)
      rw [hpc]
      simpa [Pc.held, hsound.2] using hi
  | @act k n t a rest acc hpc =>
      have hsound := h.sound k
      rw [hpc] at hsound
      refine h.move k (.working n t rest _)
        ⟨hsound.1, (List.suffix_cons a rest).trans hsound.2⟩ ?_ (fun _ hj ↦ h.owns hj) rfl
      rintro _ _ ⟨⟩ i hi
      exact h.owns (by rw [hpc]; rfl) i (by rw [hpc]; exact hi)
  | @done k n t acc hpc =>
      have hsound := h.sound k
      rw [hpc] at hsound
      refine h.move k (.releasing n t t.locks acc) ⟨hsound.1, hsound.1.nodup⟩ ?_
        (fun _ hj ↦ h.owns hj) rfl
      rintro _ _ ⟨⟩ i hi
      exact h.owns (by rw [hpc]; rfl) i (by rw [hpc]; exact hi)
  | @release k n t held acc i hpc hi =>
      have hsound := h.sound k
      rw [hpc] at hsound
      have howns : ∀ i ∈ held, (m.mutex i).Owns k t.mode := by
        intro i' hi'
        exact h.owns (by rw [hpc]; rfl) i' (by rw [hpc]; exact hi')
      refine h.move k (.releasing n t (held.erase i) acc)
        ⟨hsound.1, hsound.2.erase i⟩ ?_ ?_ rfl
      · rintro _ _ ⟨⟩ i' hi'
        rw [Pc.held, hsound.2.mem_erase_iff] at hi'
        dsimp only
        rw [Function.update_of_ne hi'.1]
        exact howns i' hi'.2
      · intro j n' t' hjk hj i' hi'
        dsimp only
        by_cases hii : i' = i
        · subst hii
          rw [Function.update_self]
          exact (h.owns hj i' hi').release (howns i' hi) hjk
        · rw [Function.update_of_ne hii]
          exact h.owns hj i' hi'
  | @«return» k n t acc hpc =>
      refine h.move k .idle trivial ?_ (fun _ hj ↦ h.owns hj) rfl
      intro n t hidle
      simp [Pc.txn] at hidle

omit [DecidableEq κ] [DecidableEq ι] in
theorem guarded_start (s₀ : σ) : Guarded sys ({ store := s₀ } : Machine κ σ ι α A B) :=
  ⟨fun _ ↦ trivial, by simp [Pc.txn]⟩

/-! ## The serial order -/

section
variable [Setoid A]

/-- In the order, transaction `n` learns `acc`. -/
def Yields (sys : System σ ι C α A) (s₀ : σ) (order : List (ℕ × Txn ι α A B)) (n : ℕ)
    (t : Txn ι α A B) (acc : A) : Prop :=
  ∃ before after, order = before ++ (n, t) :: after ∧ ((∀ a ∈ t.acts, sys.Local a) →
    acc ≈ (sys.exec t.acts (sys.serial s₀ (before.map Prod.snd), t.start)).2)

omit [DecidableEq ι] in
theorem Yields.append {s₀ : σ} {order : List (ℕ × Txn ι α A B)} {n : ℕ} {t : Txn ι α A B} {acc : A}
    (h : Yields sys s₀ order n t acc) (p : ℕ × Txn ι α A B) :
    Yields sys s₀ (order ++ [p]) n t acc := by
  obtain ⟨before, after, rfl, hacc⟩ := h
  exact ⟨before, after ++ [p], by simp, hacc⟩

omit [DecidableEq ι] in
theorem Yields.mem {s₀ : σ} {order : List (ℕ × Txn ι α A B)} {n : ℕ} {t : Txn ι α A B} {acc : A}
    (h : Yields sys s₀ order n t acc) : (n, t) ∈ order := by
  obtain ⟨before, after, rfl, -⟩ := h
  simp

/-- The transactions with a place in the order are those that have had all their
locks. -/
structure Numbered (m : Machine κ σ ι α A B) (order : List (ℕ × Txn ι α A B)) : Prop where
  known : ∀ {k n t}, (m.pcs k).txn = some (n, t) → m.txns[n]? = some t
  distinct : ∀ {j k n t t'}, (m.pcs j).txn = some (n, t) → (m.pcs k).txn = some (n, t') → j = k
  ordered : ∀ p ∈ order, m.txns[p.1]? = some p.2
  nodup : (order.map Prod.fst).Nodup
  pending : ∀ {k n t}, (m.pcs k).txn = some (n, t) → (m.pcs k).progress = none →
    n ∉ order.map Prod.fst
  began : ∀ {n}, .began n ∈ m.history → n < m.txns.length
  realtime : ∀ {c d b}, List.Sublist [.returned c b, .began d] m.history →
    d ∈ order.map Prod.fst → List.Sublist [c, d] (order.map Prod.fst)

/-- Up to what the working threads still write, the store is the one that the serial
execution gives. -/
structure Serialized (sys : System σ ι C α A) (s₀ : σ) (m : Machine κ σ ι α A B)
    (order : List (ℕ × Txn ι α A B)) : Prop where
  settled : ∀ i, (∀ k t rest acc, (m.pcs k).work = some (t, rest, acc) → t.mode = .exclusive →
      i ∉ t.locks) → sys.view m.store i = sys.view (sys.serial s₀ (order.map Prod.snd)) i
  locked : ∀ {k t rest acc}, (m.pcs k).work = some (t, rest, acc) → ∀ i ∈ t.locks,
    sys.view (sys.exec rest (m.store, acc)).1 i = sys.view (sys.serial s₀ (order.map Prod.snd)) i
  promised : ∀ {k n t rest acc}, (m.pcs k).progress = some (n, t, rest, acc) →
    Yields sys s₀ order n t (sys.exec rest (m.store, acc)).2
  returned : ∀ {n b}, .returned n b ∈ m.history → ∃ t acc, b = t.finish acc ∧
    Yields sys s₀ order n t acc

structure Linear (sys : System σ ι C α A) (s₀ : σ) (m : Machine κ σ ι α A B)
    (order : List (ℕ × Txn ι α A B)) : Prop extends
  Numbered m order, Serialized sys s₀ m order

variable {s₀ : σ} {order : List (ℕ × Txn ι α A B)}

omit [DecidableEq ι] [Setoid A] in
/-- A thread moves within its transaction, and not to its place in the order. -/
theorem Numbered.keep (h : m.Numbered order) {k : κ} {pc : Pc ι α A B}
    (htxn : pc.txn = (m.pcs k).txn) (hprogress : pc.progress = none → (m.pcs k).progress = none)
    (hpcs : m'.pcs = Function.update m.pcs k pc) (htxns : m'.txns = m.txns)
    (hhistory : m'.history = m.history) : m'.Numbered order := by
  have hsame : ∀ j, (m'.pcs j).txn = (m.pcs j).txn ∧
      ((m'.pcs j).progress = none → (m.pcs j).progress = none) := by
    intro j
    rw [hpcs, Function.update_apply]
    split
    · rename_i hj
      rw [hj]
      exact ⟨htxn, hprogress⟩
    · exact ⟨rfl, id⟩
  constructor
  · intro j n t hj
    rw [(hsame j).1] at hj
    rw [htxns]
    exact h.known hj
  · intro j j' n t t' hj hj'
    rw [(hsame j).1] at hj
    rw [(hsame j').1] at hj'
    exact h.distinct hj hj'
  · rw [htxns]
    exact h.ordered
  · exact h.nodup
  · intro j n t hj hnone
    rw [(hsame j).1] at hj
    exact h.pending hj ((hsame j).2 hnone)
  · rw [hhistory, htxns]
    exact h.began
  · rw [hhistory]
    exact h.realtime

omit [DecidableEq ι] in
/-- A thread moves that has no place in the order, or has done its work. -/
theorem Serialized.keep (h : m.Serialized sys s₀ order) {k : κ} {pc : Pc ι α A B}
    (hprogress : pc.progress = (m.pcs k).progress) (hwork : pc.work = (m.pcs k).work)
    (hpcs : m'.pcs = Function.update m.pcs k pc) (hstore : m'.store = m.store)
    (hhistory : ∀ {n b}, .returned n b ∈ m'.history → .returned n b ∈ m.history) :
    m'.Serialized sys s₀ order := by
  have hsame : ∀ j, (m'.pcs j).progress = (m.pcs j).progress ∧
      (m'.pcs j).work = (m.pcs j).work := by
    intro j
    rw [hpcs, Function.update_apply]
    split
    · rename_i hj
      rw [hj]
      exact ⟨hprogress, hwork⟩
    · exact ⟨rfl, rfl⟩
  constructor
  · intro i hi
    rw [hstore]
    apply h.settled i
    intro j t rest acc hj
    exact hi j t rest acc ((hsame j).2.trans hj)
  · intro j t rest acc hj
    rw [(hsame j).2] at hj
    rw [hstore]
    exact h.locked hj
  · intro j n t rest acc hj
    rw [(hsame j).1] at hj
    rw [hstore]
    exact h.promised hj
  · exact fun hn ↦ h.returned (hhistory hn)

omit [DecidableEq ι] [Setoid A] in
theorem Numbered.begin (h : m.Numbered order) (k : κ) (t : Txn ι α A B) : Numbered { m with
      pcs := Function.update m.pcs k (.acquiring m.txns.length t [] t.locks)
      txns := m.txns ++ [t]
      history := m.history ++ [.began m.txns.length] } order := by
  have hfresh : m.txns.length ∉ order.map Prod.fst := by
    intro hmem
    obtain ⟨p, hp, hlength⟩ := List.mem_map.mp hmem
    have hknown := h.ordered p hp
    rw [hlength] at hknown
    simp at hknown
  have hgrow : ∀ {n : ℕ} {t'}, m.txns[n]? = some t' → (m.txns ++ [t])[n]? = some t' := by
    intro n t' hn
    rw [List.getElem?_append_left (List.getElem?_eq_some_iff.mp hn).1, hn]
  have hother : ∀ {j}, j ≠ k →
      Function.update m.pcs k (.acquiring m.txns.length t [] t.locks) j = m.pcs j :=
    fun hj ↦ Function.update_of_ne hj _ _
  -- a number in use is an old one
  have hold : ∀ {j n t'}, (m.pcs j).txn = some (n, t') → n ≠ m.txns.length := by
    rintro j n t' hj rfl
    have hknown := h.known hj
    simp at hknown
  constructor <;> try dsimp only
  · intro j n t' hj
    by_cases hjk : j = k
    · subst hjk
      rw [Function.update_self] at hj
      obtain ⟨rfl, rfl⟩ := Prod.mk.inj (Option.some.inj hj)
      simp
    · rw [hother hjk] at hj
      exact hgrow (h.known hj)
  · intro j j' n t' t'' hj hj'
    by_cases hjk : j = k <;> by_cases hjk' : j' = k
    · rw [hjk, hjk']
    · subst hjk
      rw [Function.update_self] at hj
      rw [hother hjk'] at hj'
      exact absurd (Prod.mk.inj (Option.some.inj hj)).1.symm (hold hj')
    · subst hjk'
      rw [Function.update_self] at hj'
      rw [hother hjk] at hj
      exact absurd (Prod.mk.inj (Option.some.inj hj')).1.symm (hold hj)
    · rw [hother hjk] at hj
      rw [hother hjk'] at hj'
      exact h.distinct hj hj'
  · exact fun p hp ↦ hgrow (h.ordered p hp)
  · exact h.nodup
  · intro j n t' hj hnone
    by_cases hjk : j = k
    · subst hjk
      rw [Function.update_self] at hj
      obtain ⟨rfl, -⟩ := Prod.mk.inj (Option.some.inj hj)
      exact hfresh
    · rw [hother hjk] at hj hnone
      exact h.pending hj hnone
  · intro n hn
    rw [List.length_append, List.length_singleton]
    rcases List.mem_append.mp hn with hn | hn
    · exact Nat.lt_succ_of_lt (h.began hn)
    · obtain rfl := Mark.began.inj (List.mem_singleton.mp hn)
      exact Nat.lt_succ_self _
  · intro c d b hbefore hd
    rcases pair_sublist_concat.mp hbefore with hbefore | ⟨-, hlast⟩
    · exact h.realtime hbefore hd
    · obtain rfl := Mark.began.inj hlast
      exact absurd hd hfresh

omit [DecidableEq ι] [Setoid A] in
/-- The place in the order is the one behind those that have had their locks. -/
theorem Numbered.grant (h : m.Numbered order) {k : κ} {n : ℕ} {t : Txn ι α A B} {held : List ι}
    (hpc : m.pcs k = .acquiring n t held [])
    (hreturned : ∀ {c b}, .returned c b ∈ m.history → c ∈ order.map Prod.fst) :
    Numbered { m with pcs := Function.update m.pcs k (.working n t t.acts t.start) }
      (order ++ [(n, t)]) := by
  have htxn : (m.pcs k).txn = some (n, t) := by rw [hpc]; rfl
  have hfresh : n ∉ order.map Prod.fst := h.pending htxn (by rw [hpc]; rfl)
  have hother : ∀ {j}, j ≠ k →
      Function.update m.pcs k (.working n t t.acts t.start) j = m.pcs j :=
    fun hj ↦ Function.update_of_ne hj _ _
  have htxns : ∀ {j n' t'},
      (Function.update m.pcs k (.working n t t.acts t.start) j).txn = some (n', t') →
        (m.pcs j).txn = some (n', t') := by
    intro j n' t' hj
    by_cases hjk : j = k
    · subst hjk
      rw [Function.update_self] at hj
      exact htxn.trans hj
    · rwa [hother hjk] at hj
  constructor <;> try dsimp only
  · exact fun hj ↦ h.known (htxns hj)
  · exact fun hj hj' ↦ h.distinct (htxns hj) (htxns hj')
  · intro p hp
    rcases List.mem_append.mp hp with hp | hp
    · exact h.ordered p hp
    · rw [List.mem_singleton.mp hp]
      exact h.known htxn
  · rw [List.map_append, List.map_singleton, List.nodup_append]
    refine ⟨h.nodup, List.nodup_singleton n, ?_⟩
    rintro c hc d hd rfl
    rw [List.mem_singleton.mp hd] at hc
    exact hfresh hc
  · intro j n' t' hj hnone
    have hjk : j ≠ k := by
      rintro rfl
      simp [Pc.progress] at hnone
    rw [hother hjk] at hj hnone
    rw [List.map_append, List.mem_append, List.map_singleton, List.mem_singleton]
    rintro (hmem | rfl)
    · exact h.pending hj hnone hmem
    · exact hjk (h.distinct hj htxn)
  · exact h.began
  · intro c d b hbefore hd
    rw [List.map_append, List.map_singleton] at hd ⊢
    rw [pair_sublist_concat]
    rcases List.mem_append.mp hd with hd | hd
    · exact Or.inl (h.realtime hbefore hd)
    · exact Or.inr ⟨hreturned (hbefore.subset List.mem_cons_self), List.mem_singleton.mp hd⟩

omit [DecidableEq ι] [Setoid A] in
theorem Numbered.return (h : m.Numbered order) {k : κ} {n : ℕ} {b : B} : Numbered { m with
      pcs := Function.update m.pcs k .idle
      history := m.history ++ [.returned n b] } order := by
  have htxns : ∀ {j p}, (Function.update m.pcs k .idle j).txn = some p →
      Function.update m.pcs k .idle j = m.pcs j := by
    intro j p hj
    apply Function.update_of_ne
    rintro rfl
    simp [Pc.txn] at hj
  constructor <;> try dsimp only
  · intro j n' t' hj
    rw [htxns hj] at hj
    exact h.known hj
  · intro j j' n' t' t'' hj hj'
    rw [htxns hj] at hj
    rw [htxns hj'] at hj'
    exact h.distinct hj hj'
  · exact h.ordered
  · exact h.nodup
  · intro j n' t' hj hnone
    have hpcj := htxns hj
    rw [hpcj] at hj hnone
    exact h.pending hj hnone
  · intro n' hn'
    exact h.began (by simpa using hn')
  · intro c d b' hbefore hd
    rcases pair_sublist_concat.mp hbefore with hbefore | ⟨-, hlast⟩
    · exact h.realtime hbefore hd
    · simp at hlast

omit [DecidableEq κ] [DecidableEq ι] in
/-- A transaction that gets its last lock finds in its cells what the serial
execution of the earlier ones leaves there. -/
theorem Serialized.view_of_held (h : m.Serialized sys s₀ order) (hguarded : m.Guarded sys) {k : κ}
    {n : ℕ} {t : Txn ι α A B} (htxn : (m.pcs k).txn = some (n, t))
    (hwork : (m.pcs k).work = none) {i : ι} (hi : i ∈ (m.pcs k).held) :
    sys.view m.store i = sys.view (sys.serial s₀ (order.map Prod.snd)) i := by
  apply h.settled i
  intro j t' rest acc hj hmode hmem
  have hjk : j ≠ k := by
    rintro rfl
    simp [hwork] at hj
  obtain ⟨n', hpc⟩ := Pc.of_work hj
  have hshared := hguarded.shared (by rw [hpc]; rfl) htxn (by rw [hpc]; exact hmem) hi hjk
  simp [hmode] at hshared

omit [DecidableEq ι] in
theorem Serialized.grant (h : m.Serialized sys s₀ order) (hguarded : m.Guarded sys) {k : κ} {n : ℕ}
    {t : Txn ι α A B} {held : List ι} (hpc : m.pcs k = .acquiring n t held []) :
    Serialized sys s₀ { m with pcs := Function.update m.pcs k (.working n t t.acts t.start) }
      (order ++ [(n, t)]) := by
  have hsound := hguarded.sound k
  rw [hpc] at hsound
  obtain ⟨hadmits, hlocks⟩ := hsound
  have htxn : (m.pcs k).txn = some (n, t) := by rw [hpc]; rfl
  have hwork : (m.pcs k).work = none := by rw [hpc]; rfl
  have hheld : ∀ {i}, i ∈ t.locks → i ∈ (m.pcs k).held := by
    intro i hi
    rw [hpc]
    simpa [Pc.held, hlocks] using hi
  have hview : ∀ i ∈ t.locks,
      sys.view m.store i = sys.view (sys.serial s₀ (order.map Prod.snd)) i :=
    fun i hi ↦ h.view_of_held hguarded htxn hwork (hheld hi)
  have hother : ∀ {j}, j ≠ k →
      Function.update m.pcs k (.working n t t.acts t.start) j = m.pcs j :=
    fun hj ↦ Function.update_of_ne hj _ _
  -- the new transaction changes nothing that others hold, and nothing it does not lock
  have hserial : ∀ i, (t.mode = .exclusive → i ∉ t.locks) →
      sys.view (sys.serial s₀ ((order ++ [(n, t)]).map Prod.snd)) i =
        sys.view (sys.serial s₀ (order.map Prod.snd)) i := by
    intro i hi
    rw [List.map_append, List.map_singleton, System.serial_concat]
    cases hmode : t.mode with
    | shared => rw [hadmits.view_exec_of_shared hmode]
    | exclusive => exact hadmits.view_exec_of_notMem (hi hmode)
  constructor <;> try dsimp only
  · intro i hi
    have hnot : t.mode = .exclusive → i ∉ t.locks :=
      hi k t t.acts t.start (by rw [Function.update_self]; rfl)
    rw [hserial i hnot]
    apply h.settled i
    intro j t' rest acc hj
    have hjk : j ≠ k := by
      rintro rfl
      simp [hwork] at hj
    exact hi j t' rest acc (by rw [hother hjk, hj])
  · intro j t' rest acc hj i hi
    by_cases hjk : j = k
    · subst hjk
      rw [Function.update_self] at hj
      obtain ⟨rfl, rfl, rfl⟩ := hj
      rw [List.map_append, List.map_singleton, System.serial_concat]
      exact System.view_exec_congr _ _ hview hi
    · rw [hother hjk] at hj
      rw [hserial i]
      · exact h.locked hj i hi
      intro hmode hmem
      obtain ⟨n', hpcj⟩ := Pc.of_work hj
      have hshared := hguarded.shared (by rw [hpcj]; rfl) htxn (by rw [hpcj]; exact hi)
        (hheld hmem) hjk
      simp [hmode] at hshared
  · intro j n' t' rest acc hj
    by_cases hjk : j = k
    · subst hjk
      rw [Function.update_self] at hj
      obtain ⟨rfl, rfl, rfl, rfl⟩ := hj
      refine ⟨order, [], rfl, fun hlocal ↦ ?_⟩
      exact System.exec_congr hadmits.covers hlocal hview (Setoid.refl _)
    · rw [hother hjk] at hj
      exact (h.promised hj).append _
  · intro n' b hn'
    obtain ⟨t', acc, hb, hyields⟩ := h.returned hn'
    exact ⟨t', acc, hb, hyields.append _⟩

omit [DecidableEq ι] in
theorem Serialized.act (h : m.Serialized sys s₀ order) (hguarded : m.Guarded sys) {k : κ} {n : ℕ}
    {t : Txn ι α A B} {a : α} {rest : List α} {acc : A}
    (hpc : m.pcs k = .working n t (a :: rest) acc) :
    Serialized sys s₀ { m with
      store := sys.write a m.store
      pcs := Function.update m.pcs k (.working n t rest (sys.read a m.store acc)) } order := by
  have hsound := hguarded.sound k
  rw [hpc] at hsound
  obtain ⟨hadmits, hrest⟩ := hsound
  have hmem : a ∈ t.acts := hrest.subset List.mem_cons_self
  have htxn : (m.pcs k).txn = some (n, t) := by rw [hpc]; rfl
  have hother : ∀ {j}, j ≠ k →
      Function.update m.pcs k (.working n t rest (sys.read a m.store acc)) j = m.pcs j :=
    fun hj ↦ Function.update_of_ne hj _ _
  have hview : ∀ i, (t.mode = .exclusive → i ∉ t.locks) →
      sys.view (sys.write a m.store) i = sys.view m.store i := by
    intro i hi
    cases hmode : t.mode with
    | shared => rw [hadmits.readOnly hmode a hmem]
    | exclusive => exact sys.frame a _ i fun hcell ↦ hi hmode (hadmits.covers a hmem i hcell)
  -- the cells of another working thread are not written
  have hviewOther : ∀ {j n' t' rest' acc'}, j ≠ k → m.pcs j = .working n' t' rest' acc' →
      ∀ i ∈ t'.locks, sys.view (sys.write a m.store) i = sys.view m.store i := by
    intro j n' t' rest' acc' hjk hj i hi
    apply hview i
    intro hmode hik
    have hshared := hguarded.shared (by rw [hj]; rfl) htxn (by rw [hj]; exact hi)
      (by rw [hpc]; exact hik) hjk
    simp [hmode] at hshared
  constructor <;> try dsimp only
  · intro i hi
    rw [hview i (hi k t rest _ (by rw [Function.update_self]; rfl))]
    apply h.settled i
    intro j t' rest' acc' hj
    by_cases hjk : j = k
    · subst hjk
      rw [hpc] at hj
      obtain ⟨rfl, -⟩ := hj
      exact hi j t rest _ (by rw [Function.update_self]; rfl)
    · exact hi j t' rest' acc' (by rw [hother hjk, hj])
  · intro j t' rest' acc' hj i hi
    by_cases hjk : j = k
    · subst hjk
      rw [Function.update_self] at hj
      obtain ⟨rfl, rfl, rfl⟩ := hj
      exact h.locked (by rw [hpc]; rfl) i hi
    · rw [hother hjk] at hj
      obtain ⟨n', hpcj⟩ := Pc.of_work hj
      rw [← h.locked hj i hi]
      exact System.view_exec_congr _ _ (hviewOther hjk hpcj) hi
  · intro j n' t' rest' acc' hj
    by_cases hjk : j = k
    · subst hjk
      rw [Function.update_self] at hj
      obtain ⟨rfl, rfl, rfl, rfl⟩ := hj
      exact h.promised (by rw [hpc]; rfl)
    · rw [hother hjk] at hj
      obtain ⟨before, after, horder, hacc⟩ := h.promised hj
      refine ⟨before, after, horder, fun hlocal ↦ Setoid.trans ?_ (hacc hlocal)⟩
      cases hpcj : m.pcs j with
      | idle | acquiring => simp [hpcj, Pc.progress] at hj
      | working =>
          have hsoundj := hguarded.sound j
          rw [hpcj] at hj hsoundj
          obtain ⟨rfl, rfl, rfl, rfl⟩ := hj
          exact System.exec_congr (fun b hb ↦ hsoundj.1.covers b (hsoundj.2.subset hb))
            (fun b hb ↦ hlocal b (hsoundj.2.subset hb)) (hviewOther hjk hpcj) (Setoid.refl _)
      | releasing =>
          rw [hpcj] at hj
          obtain ⟨rfl, rfl, rfl, rfl⟩ := hj
          exact Setoid.refl _
  · exact h.returned

omit [DecidableEq ι] in
/-- What a transaction has written is in its cells when its work is done. -/
theorem Serialized.done (h : m.Serialized sys s₀ order) {k : κ} {n : ℕ} {t : Txn ι α A B} {acc : A}
    (hpc : m.pcs k = .working n t [] acc) :
    Serialized sys s₀ { m with pcs := Function.update m.pcs k (.releasing n t t.locks acc) }
      order := by
  have hother : ∀ {j}, j ≠ k →
      Function.update m.pcs k (.releasing n t t.locks acc) j = m.pcs j :=
    fun hj ↦ Function.update_of_ne hj _ _
  constructor <;> try dsimp only
  · intro i hi
    by_cases hmem : i ∈ t.locks
    · exact h.locked (by rw [hpc]; rfl) i hmem
    · apply h.settled i
      intro j t' rest' acc' hj
      by_cases hjk : j = k
      · subst hjk
        rw [hpc] at hj
        obtain ⟨rfl, -⟩ := hj
        exact fun _ ↦ hmem
      · exact hi j t' rest' acc' (by rw [hother hjk, hj])
  · intro j t' rest' acc' hj
    have hjk : j ≠ k := by
      rintro rfl
      simp [Pc.work] at hj
    rw [hother hjk] at hj
    exact h.locked hj
  · intro j n' t' rest' acc' hj
    by_cases hjk : j = k
    · subst hjk
      rw [Function.update_self] at hj
      obtain ⟨rfl, rfl, rfl, rfl⟩ := hj
      exact h.promised (by rw [hpc]; rfl)
    · rw [hother hjk] at hj
      exact h.promised hj
  · exact h.returned

omit [DecidableEq ι] in
theorem Serialized.return (h : m.Serialized sys s₀ order) {k : κ} {n : ℕ} {t : Txn ι α A B}
    {acc : A} (hpc : m.pcs k = .releasing n t [] acc) : Serialized sys s₀ { m with
      pcs := Function.update m.pcs k .idle
      history := m.history ++ [.returned n (t.finish acc)] } order := by
  have hother : ∀ {j}, j ≠ k → Function.update m.pcs k .idle j = m.pcs j :=
    fun hj ↦ Function.update_of_ne hj _ _
  constructor <;> try dsimp only
  · intro i hi
    apply h.settled i
    intro j t' rest' acc' hj
    have hjk : j ≠ k := by
      rintro rfl
      simp [hpc, Pc.work] at hj
    exact hi j t' rest' acc' (by rw [hother hjk, hj])
  · intro j t' rest' acc' hj
    have hjk : j ≠ k := by
      rintro rfl
      simp [Pc.work] at hj
    rw [hother hjk] at hj
    exact h.locked hj
  · intro j n' t' rest' acc' hj
    have hjk : j ≠ k := by
      rintro rfl
      simp [Pc.progress] at hj
    rw [hother hjk] at hj
    exact h.promised hj
  · intro n' b hn'
    rcases List.mem_append.mp hn' with hn' | hn'
    · exact h.returned hn'
    · obtain ⟨rfl, rfl⟩ := Mark.returned.inj (List.mem_singleton.mp hn')
      have hyields := h.promised (show (m.pcs k).progress = some (n', t, [], acc) by rw [hpc]; rfl)
      exact ⟨t, acc, rfl, hyields⟩

omit [DecidableEq κ] [DecidableEq ι] in
theorem Serialized.mem_of_returned (h : m.Serialized sys s₀ order) {c : ℕ} {b : B}
    (hc : .returned c b ∈ m.history) : c ∈ order.map Prod.fst := by
  obtain ⟨t, acc, -, hyields⟩ := h.returned hc
  exact List.mem_map.mpr ⟨_, hyields.mem, rfl⟩

theorem linear_step {e : Event κ ι α A B} (h : m.Linear sys s₀ order) (hguarded : m.Guarded sys)
    (hstep : Stepped sys m e m') : ∃ order', m'.Linear sys s₀ order' := by
  obtain ⟨hnumbered, hserialized⟩ := h
  cases hstep with
  | @begin k t hpc =>
      refine ⟨order, hnumbered.begin k t, hserialized.keep (k := k) ?_ ?_ rfl rfl ?_⟩
      · rw [hpc]; rfl
      · rw [hpc]; rfl
      · intro n b hn
        simpa using hn
  | @acquire k n t held rest i x hpc hx =>
      refine ⟨order, hnumbered.keep (k := k) ?_ ?_ rfl rfl rfl,
        hserialized.keep (k := k) ?_ ?_ rfl rfl id⟩ <;> rw [hpc] <;> first | rfl | exact id
  | grant hpc =>
      exact ⟨_, hnumbered.grant hpc hserialized.mem_of_returned, hserialized.grant hguarded hpc⟩
  | @act k n t a rest acc hpc =>
      refine ⟨order, hnumbered.keep (k := k) ?_ ?_ rfl rfl rfl, hserialized.act hguarded hpc⟩
      · rw [hpc]; rfl
      · simp [Pc.progress]
  | @done k n t acc hpc =>
      refine ⟨order, hnumbered.keep (k := k) ?_ ?_ rfl rfl rfl, hserialized.done hpc⟩
      · rw [hpc]; rfl
      · simp [Pc.progress]
  | @release k n t held acc i hpc hi =>
      refine ⟨order, hnumbered.keep (k := k) ?_ ?_ rfl rfl rfl,
        hserialized.keep (k := k) ?_ ?_ rfl rfl id⟩ <;> rw [hpc] <;> first | rfl | exact id
  | «return» hpc => exact ⟨order, hnumbered.return, hserialized.return hpc⟩

omit [DecidableEq κ] [DecidableEq ι] in
theorem linear_start (s₀ : σ) :
    Linear sys s₀ ({ store := s₀ } : Machine κ σ ι α A B) [] := by
  refine ⟨?_, ?_⟩ <;> constructor <;> simp [Pc.txn, Pc.work, Pc.progress, System.serial]

/-- However the steps of the threads are interleaved, the transactions have a total
order, in which one that has returned comes before those that began later, such that
every one has returned what it returns when they are executed in that order. -/
theorem linearizable {events : List (Event κ ι α A B)} (hadmitted : ∀ e ∈ events, Admitted sys e)
    (hrun : run (step sys) { store := s₀ } events = some m) :
    ∃ order : List ℕ, order.Perm (List.range m.txns.length) ∧
      (∀ c d b, List.Sublist [.returned c b, .began d] m.history → List.Sublist [c, d] order) ∧
      ∀ c b, .returned c b ∈ m.history → ∃ before after t acc, order = before ++ c :: after ∧
        m.txns[c]? = some t ∧ b = t.finish acc ∧ ((∀ a ∈ t.acts, sys.Local a) →
          acc ≈ (sys.exec t.acts
            (sys.serial s₀ (before.filterMap fun n ↦ m.txns[n]?), t.start)).2) := by
  obtain ⟨-, order, h⟩ : m.Guarded sys ∧ ∃ order, m.Linear sys s₀ order := by
    refine run_invariant (P := fun _ m ↦ Guarded sys m ∧ ∃ order, Linear sys s₀ m order)
      ⟨guarded_start s₀, [], linear_start s₀⟩ ?_ (along_of_forall_mem hadmitted) hrun
    rintro _ m e m' ⟨hguarded, order, hlinear⟩ hallowed hstep
    have hstepped := stepped_of_step hstep
    exact ⟨guarded_step hguarded hallowed hstepped, linear_step hlinear hguarded hstepped⟩
  -- the transactions without a place follow in any order
  let late := (List.range m.txns.length).filter (· ∉ order.map Prod.fst)
  have hlate : ∀ {n}, n ∈ late ↔ n < m.txns.length ∧ n ∉ order.map Prod.fst := by
    simp [late]
  have hlength : ∀ {n}, n ∈ order.map Prod.fst → n < m.txns.length := by
    intro n hn
    obtain ⟨p, hp, rfl⟩ := List.mem_map.mp hn
    exact (List.getElem?_eq_some_iff.mp (h.ordered p hp)).1
  refine ⟨order.map Prod.fst ++ late, ?_, ?_, ?_⟩
  · rw [List.perm_ext_iff_of_nodup ?_ List.nodup_range]
    · intro n
      rw [List.mem_append, hlate, List.mem_range]
      constructor
      · rintro (hn | hn)
        · exact hlength hn
        · exact hn.1
      · intro hn
        by_cases hmem : n ∈ order.map Prod.fst
        · exact Or.inl hmem
        · exact Or.inr ⟨hn, hmem⟩
    · rw [List.nodup_append]
      refine ⟨h.nodup, List.nodup_range.filter _, ?_⟩
      rintro c hc d hd rfl
      exact (hlate.mp hd).2 hc
  · intro c d b hbefore
    by_cases hd : d ∈ order.map Prod.fst
    · exact (h.realtime hbefore hd).trans (List.sublist_append_left _ _)
    · have hc := h.mem_of_returned (hbefore.subset List.mem_cons_self)
      have hd' : d ∈ late := hlate.mpr ⟨h.began (hbefore.subset (by simp)), hd⟩
      exact (List.singleton_sublist.mpr hc).append (List.singleton_sublist.mpr hd')
  · intro c b hreturned
    obtain ⟨t, acc, hb, hyields⟩ := h.returned hreturned
    have hknown := h.ordered _ hyields.mem
    have hordered := h.ordered
    obtain ⟨before, after, rfl, hacc⟩ := hyields
    refine ⟨before.map Prod.fst, after.map Prod.fst ++ late, t, acc, by simp, hknown, hb, ?_⟩
    have htxns : (before.map Prod.fst).filterMap (fun n ↦ m.txns[n]?) = before.map Prod.snd := by
      have hsome : ∀ p ∈ before, m.txns[p.1]? = some p.2 :=
        fun p hp ↦ hordered p (List.mem_append_left _ hp)
      rw [List.filterMap_map, ← List.filterMap_eq_map]
      exact List.filterMap_congr hsome
    rw [htxns]
    exact hacc

end

end Machine

end TwoPhase
