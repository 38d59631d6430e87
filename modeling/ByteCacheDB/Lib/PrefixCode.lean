import Mathlib

/-!
# Prefix-free codes

Every symbol has a codeword, and a text determines the codeword it starts with.
A sequence of codewords is then read in one way only, as long as it is known
where the sequence ends: what follows must not be the beginning of a codeword.
-/

namespace PrefixCode

variable {α β : Type*}

/-- No text starts with the codewords of two symbols. -/
def PrefixFree (code : β → List α) : Prop :=
  ∀ ⦃b b' : β⦄ ⦃xs ys : List α⦄, code b ++ xs = code b' ++ ys → b = b'

variable {code : β → List α}

theorem PrefixFree.rest (h : PrefixFree code) {b b' : β} {xs ys : List α}
    (heq : code b ++ xs = code b' ++ ys) : b = b' ∧ xs = ys := by
  obtain rfl := h heq
  exact ⟨rfl, List.append_cancel_left heq⟩

/-- A sequence of codewords in front of a text that no codeword starts. -/
theorem PrefixFree.decode (h : PrefixFree code) {Stop : List α → Prop}
    (hstop : ∀ b xs, ¬Stop (code b ++ xs)) {bs bs' : List β} {xs ys : List α} (hxs : Stop xs)
    (hys : Stop ys) (heq : bs.flatMap code ++ xs = bs'.flatMap code ++ ys) :
    bs = bs' ∧ xs = ys := by
  induction bs generalizing bs' with
  | nil =>
      cases bs' with
      | nil => exact ⟨rfl, heq⟩
      | cons b' rest' =>
          rw [List.flatMap_nil, List.nil_append, List.flatMap_cons, List.append_assoc] at heq
          exact absurd (heq ▸ hxs) (hstop b' _)
  | cons b rest ih =>
      cases bs' with
      | nil =>
          rw [List.flatMap_nil, List.nil_append, List.flatMap_cons, List.append_assoc] at heq
          exact absurd (heq ▸ hys) (hstop b _)
      | cons b' rest' =>
          rw [List.flatMap_cons, List.flatMap_cons, List.append_assoc, List.append_assoc] at heq
          obtain ⟨rfl, hrest⟩ := h.rest heq
          obtain ⟨rfl, hend⟩ := ih hrest
          exact ⟨rfl, hend⟩

/-- Words that end at the first occurrence of a delimiter. -/
theorem delimited_unique {a : α} {xs ys zs ws : List α} (hxs : a ∉ xs) (hys : a ∉ ys)
    (heq : xs ++ a :: zs = ys ++ a :: ws) : xs = ys ∧ zs = ws := by
  induction xs generalizing ys with
  | nil =>
      cases ys with
      | nil => exact ⟨rfl, List.cons_injective heq⟩
      | cons y ys => exact absurd (List.cons.inj heq).1 (List.ne_of_not_mem_cons hys)
  | cons x xs ih =>
      cases ys with
      | nil => exact absurd (List.cons.inj heq).1.symm (List.ne_of_not_mem_cons hxs)
      | cons y ys =>
          obtain ⟨rfl, hrest⟩ := List.cons.inj heq
          obtain ⟨rfl, hend⟩ :=
            ih (List.not_mem_of_not_mem_cons hxs) (List.not_mem_of_not_mem_cons hys) hrest
          exact ⟨rfl, hend⟩

end PrefixCode
