import Mathlib

/-!
# Lists in order of last use

A list without repetitions stands for a set of elements in the order in which they
were last touched, the least recent first.  Touching an element moves it to the
end; the order of a log of touches is the log with only the last occurrence of each
element, which is `List.dedup`.  Keeping the `n` most recent elements after every
touch gives the same list as keeping them once at the end.
-/

namespace Recency

variable {α : Type*}

section Ends

theorem rdrop_append_rtake (n : ℕ) (l : List α) : l.rdrop n ++ l.rtake n = l :=
  List.take_append_drop _ l

theorem length_rtake (n : ℕ) (l : List α) : (l.rtake n).length = min n l.length := by
  rw [List.rtake, List.length_drop]
  omega

theorem rtake_of_length_le {n : ℕ} {l : List α} (h : l.length ≤ n) : l.rtake n = l := by
  rw [List.rtake, Nat.sub_eq_zero_of_le h, List.drop_zero]

theorem rdrop_of_length_le {n : ℕ} {l : List α} (h : l.length ≤ n) : l.rdrop n = [] := by
  rw [List.rdrop, Nat.sub_eq_zero_of_le h, List.take_zero]

/-- The later elements are kept first, the others fill what room is left. -/
theorem rtake_append (n : ℕ) (l l' : List α) :
    (l ++ l').rtake n = l.rtake (n - l'.length) ++ l'.rtake n := by
  rw [List.rtake, List.rtake, List.rtake, List.length_append, List.drop_append]
  congr 1
  · rcases Nat.le_total n l'.length with hle | hle
    · rw [List.drop_eq_nil_of_le (by omega), List.drop_eq_nil_of_le (by omega)]
    · congr 1
      omega
  · congr 1
    omega

theorem rtake_append_of_le {n : ℕ} (l : List α) {l' : List α} (h : n ≤ l'.length) :
    (l ++ l').rtake n = l'.rtake n := by
  rw [rtake_append, Nat.sub_eq_zero_of_le h, List.rtake_zero, List.nil_append]

theorem rtake_cons_of_le {n : ℕ} (a : α) {l : List α} (h : n ≤ l.length) :
    (a :: l).rtake n = l.rtake n :=
  rtake_append_of_le [a] h

theorem rdrop_cons_of_le {n : ℕ} (a : α) {l : List α} (h : n ≤ l.length) :
    (a :: l).rdrop n = a :: l.rdrop n := by
  rw [List.rdrop, List.rdrop, List.length_cons, Nat.succ_sub h, List.take_succ_cons]

theorem rtake_sublist (n : ℕ) (l : List α) : (l.rtake n).Sublist l := List.drop_sublist _ _

/-- An element of a short end is not among what is dropped before it. -/
theorem notMem_rdrop_append {n : ℕ} {l l' : List α} (hnodup : (l ++ l').Nodup)
    (hlen : l'.length ≤ n) {a : α} (ha : a ∈ l') : a ∉ (l ++ l').rdrop n := by
  intro hmem
  have hdisjoint := (List.nodup_append.mp hnodup).2.2
  rw [List.rdrop, List.length_append, List.take_append_of_le_length (by omega)] at hmem
  exact hdisjoint a (List.mem_of_mem_take hmem) a ha rfl

theorem eq_filter_of_sublist {l l' : List α} (h : l.Sublist l') (hnodup : l'.Nodup) {p : α → Bool}
    (hp : ∀ a, p a = true ↔ a ∈ l) : l = l'.filter p := by
  have hsub : l.Sublist (l'.filter p) := by
    have hfilter := h.filter p
    rwa [List.filter_eq_self.mpr fun a ha ↦ (hp a).mpr ha] at hfilter
  refine hsub.eq_of_length_le ((hnodup.filter p).subperm fun a ha ↦ ?_).length_le
  exact (hp a).mp (List.mem_filter.mp ha).2

end Ends

variable [DecidableEq α]

/-- The order without an element. -/
def forget (l : List α) (a : α) : List α := l.erase a

theorem mem_forget {l : List α} (h : l.Nodup) {a b : α} : b ∈ forget l a ↔ b ≠ a ∧ b ∈ l :=
  h.mem_erase_iff

theorem forget_sublist (l : List α) (a : α) : (forget l a).Sublist l := List.erase_sublist

theorem forget_of_notMem {l : List α} {a : α} (h : a ∉ l) : forget l a = l :=
  List.erase_of_not_mem h

theorem forget_eq_filter {l : List α} (h : l.Nodup) (a : α) :
    forget l a = l.filter fun b ↦ b ≠ a := by
  rw [forget, h.erase_eq_filter]
  exact List.filter_congr fun b _ ↦ by simp [bne, BEq.beq]

theorem foldl_forget {l : List α} (h : l.Nodup) (as : List α) :
    as.foldl forget l = l.filter fun b ↦ b ∉ as := by
  induction as generalizing l with
  | nil => simp
  | cons a as ih =>
      rw [List.foldl_cons, ih (h.sublist (forget_sublist l a)), forget_eq_filter h,
        List.filter_filter]
      exact List.filter_congr fun b _ ↦ by simp [Bool.and_comm]

theorem forget_head (a : α) (l : List α) : forget (a :: l) a = l := List.erase_cons_head a l

/-- The order after one more touch. -/
def touch (l : List α) (a : α) : List α := forget l a ++ [a]

theorem mem_touch {l : List α} {a b : α} : b ∈ touch l a ↔ b = a ∨ b ∈ l := by
  by_cases hb : b = a
  · simp [touch, hb]
  · simp [touch, forget, hb, List.mem_erase_of_ne hb]

theorem touch_of_notMem {l : List α} {a : α} (h : a ∉ l) : touch l a = l ++ [a] := by
  rw [touch, forget, List.erase_of_not_mem h]

theorem touch_forget {l : List α} (h : l.Nodup) (a : α) : touch (forget l a) a = touch l a := by
  have hnotMem : a ∉ forget l a := h.not_mem_erase
  rw [touch_of_notMem hnotMem, touch]

theorem touch_eq_filter {l : List α} (h : l.Nodup) (a : α) :
    touch l a = (l.filter fun b ↦ b ≠ a) ++ [a] := by
  rw [touch, forget_eq_filter h]

theorem nodup_touch {l : List α} (h : l.Nodup) (a : α) : (touch l a).Nodup := by
  rw [touch_eq_filter h]
  refine (h.filter _).append (List.nodup_singleton a) ?_
  simp

theorem length_touch_le (l : List α) (a : α) : (touch l a).length ≤ l.length + 1 := by
  rw [touch, List.length_append, List.length_singleton]
  exact Nat.succ_le_succ (forget_sublist l a).length_le

/-- A key that is in the list goes to its end. -/
def renew (l : List α) (a : α) : List α := if a ∈ l then touch l a else l

theorem renew_of_mem {l : List α} {a : α} (h : a ∈ l) : renew l a = touch l a := if_pos h

theorem renew_of_notMem {l : List α} {a : α} (h : a ∉ l) : renew l a = l := if_neg h

theorem touch_sublist {l l' : List α} (h : l.Sublist l') (a : α) :
    (touch l a).Sublist (touch l' a) :=
  (h.erase a).append (List.Sublist.refl [a])

/-- The order of a longer log. -/
theorem dedup_concat (log : List α) (a : α) : (log ++ [a]).dedup = touch log.dedup a := by
  induction log with
  | nil => simp [touch, forget]
  | cons x log ih =>
      rw [List.cons_append]
      by_cases hx : x ∈ log
      · rw [List.dedup_cons_of_mem (List.mem_append_left _ hx), List.dedup_cons_of_mem hx, ih]
      · by_cases hxa : x = a
        · subst hxa
          rw [List.dedup_cons_of_mem (by simp), ih, List.dedup_cons_of_notMem hx, touch, touch,
            forget, forget, List.erase_cons_head, List.erase_of_not_mem (by simpa using hx)]
        · rw [List.dedup_cons_of_notMem (by simp [hx, hxa]), ih, List.dedup_cons_of_notMem hx,
            touch, touch, forget, forget, List.erase_cons_tail (by simpa using hxa),
            List.cons_append]

theorem nodup_foldl_touch {l : List α} (h : l.Nodup) (as : List α) : (as.foldl touch l).Nodup :=
  List.foldlRecOn as touch h fun _ hl a _ ↦ nodup_touch hl a

theorem length_foldl_touch_le (l as : List α) :
    (as.foldl touch l).length ≤ l.length + as.length := by
  induction as generalizing l with
  | nil => exact Nat.le_refl _
  | cons a as ih =>
      have hrest := ih (touch l a)
      have hfirst := length_touch_le l a
      rw [List.foldl_cons, List.length_cons]
      omega

theorem foldl_touch {l : List α} (h : l.Nodup) (as : List α) :
    as.foldl touch l = (l.filter fun b ↦ b ∉ as) ++ as.dedup := by
  induction as using List.reverseRecOn with
  | nil => simp
  | append_singleton as a ih =>
      rw [List.foldl_append, List.foldl_cons, List.foldl_nil,
        touch_eq_filter (nodup_foldl_touch h as), ih, List.filter_append, List.filter_filter,
        dedup_concat, touch_eq_filter (List.nodup_dedup as), List.append_assoc]
      congr 1
      exact List.filter_congr fun b _ ↦ by simp [and_comm]

/-- What was touched last is at the end. -/
theorem exists_dedup_append (log last : List α) :
    ∃ rest, (log ++ last).dedup = rest ++ last.dedup := by
  induction log with
  | nil => exact ⟨[], rfl⟩
  | cons x log ih =>
      obtain ⟨rest, hrest⟩ := ih
      by_cases hx : x ∈ log ++ last
      · exact ⟨rest, by rw [List.cons_append, List.dedup_cons_of_mem hx, hrest]⟩
      · exact ⟨x :: rest, by
          rw [List.cons_append, List.dedup_cons_of_notMem hx, hrest, List.cons_append]⟩

/-- Keeping the `n` most recent elements before a touch makes no difference to which ones
are the most recent after it. -/
theorem rtake_touch_rtake {l : List α} (hnodup : l.Nodup) (n : ℕ) (a : α) :
    (touch (l.rtake n) a).rtake n = (touch l a).rtake n := by
  rcases Nat.lt_or_ge n l.length with hlen | hlen
  · have hkept : (l.rtake n).length = n := by rw [length_rtake]; omega
    have hsplit := rdrop_append_rtake n l
    by_cases ha : a ∈ l.rtake n
    · -- the dropped elements stay where they are
      have hnotMem : a ∉ l.rdrop n := by
        rw [← hsplit] at hnodup
        exact fun hdrop ↦ (List.nodup_append.mp hnodup).2.2 a hdrop a ha rfl
      have htouch : touch l a = l.rdrop n ++ touch (l.rtake n) a := by
        conv_lhs => rw [← hsplit]
        rw [touch, forget, List.erase_append_right _ hnotMem, List.append_assoc, touch, forget]
      rw [htouch, rtake_append_of_le]
      rw [touch, forget, List.length_append, List.length_erase_of_mem ha, List.length_singleton]
      omega
    · have htouch : touch l a = forget (l.rdrop n) a ++ touch (l.rtake n) a := by
        conv_lhs => rw [← hsplit]
        rw [touch_of_notMem ha, touch, forget, forget]
        by_cases hdrop : a ∈ l.rdrop n
        · rw [List.erase_append_left _ hdrop, List.append_assoc]
        · rw [List.erase_append_right _ hdrop, List.erase_of_not_mem ha,
            List.erase_of_not_mem hdrop, List.append_assoc]
      rw [htouch, rtake_append_of_le]
      rw [touch_of_notMem ha, List.length_append, List.length_singleton]
      omega
  · rw [rtake_of_length_le hlen]

end Recency
