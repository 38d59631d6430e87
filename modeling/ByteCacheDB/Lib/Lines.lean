import Mathlib

/-!
# Separator-terminated records

`getlines` splits a text as repeated line reads do: every separator ends a
line, and a nonempty unterminated rest is a line of its own.  `unlines` is the
writer that ends every record with the separator.  A prefix of a written text
is a whole number of records followed by a piece of the next one.  `splitLines`
keeps the unterminated rest apart, so that more text can follow it.
-/

namespace Lines

variable {α : Type*} [DecidableEq α]

/-- Lines of a text, without their separators. -/
def getlines (sep : α) : List α → List (List α)
  | [] => []
  | c :: cs =>
      if c = sep then [] :: getlines sep cs
      else
        match getlines sep cs with
        | [] => [[c]]
        | line :: rest => (c :: line) :: rest

/-- Records written one after another, each ended by the separator. -/
def unlines (sep : α) (records : List (List α)) : List α :=
  records.flatMap fun r ↦ r ++ [sep]

@[simp] theorem getlines_nil (sep : α) : getlines sep [] = [] := rfl

omit [DecidableEq α] in
@[simp] theorem unlines_nil (sep : α) : unlines sep [] = [] := rfl

omit [DecidableEq α] in
@[simp] theorem unlines_cons (sep : α) (r : List α) (rs : List (List α)) :
    unlines sep (r :: rs) = r ++ sep :: unlines sep rs := by
  simp [unlines]

/-- A terminated line is read whole, and reading goes on behind it. -/
theorem getlines_line (sep : α) {line : List α} (hline : sep ∉ line) (rest : List α) :
    getlines sep (line ++ sep :: rest) = line :: getlines sep rest := by
  induction line with
  | nil => simp [getlines]
  | cons c cs ih =>
      simp only [List.mem_cons, not_or] at hline
      have hrec := ih hline.2
      simp only [List.cons_append, getlines, if_neg (Ne.symm hline.1), hrec]

theorem getlines_unterminated (sep : α) {line : List α} (hline : sep ∉ line)
    (hne : line ≠ []) : getlines sep line = [line] := by
  induction line with
  | nil => exact absurd rfl hne
  | cons c cs ih =>
      simp only [List.mem_cons, not_or] at hline
      cases cs with
      | nil => simp [getlines, Ne.symm hline.1]
      | cons d ds =>
          have hrec := ih hline.2 (by simp)
          simp only [getlines, if_neg (Ne.symm hline.1)]
          simp only [getlines] at hrec
          rw [hrec]

/-- Lines of a text that was written record by record and then cut. -/
def tailLine : List α → List (List α)
  | [] => []
  | c :: cs => [c :: cs]

omit [DecidableEq α] in
@[simp] theorem tailLine_nil : tailLine ([] : List α) = [] := rfl

omit [DecidableEq α] in
theorem tailLine_of_ne_nil {tail : List α} (h : tail ≠ []) : tailLine tail = [tail] := by
  cases tail with
  | nil => exact absurd rfl h
  | cons c cs => rfl

theorem getlines_unlines_append (sep : α) {records : List (List α)}
    (hrecords : ∀ r ∈ records, sep ∉ r) {tail : List α} (htail : sep ∉ tail) :
    getlines sep (unlines sep records ++ tail) = records ++ tailLine tail := by
  induction records with
  | nil =>
      by_cases hne : tail = []
      · simp [hne]
      · simp [tailLine_of_ne_nil hne, getlines_unterminated sep htail hne]
  | cons r rs ih =>
      have hr : sep ∉ r := hrecords r (by simp)
      have hrec := ih fun s hs ↦ hrecords s (by simp [hs])
      rw [unlines_cons, List.append_assoc, List.cons_append, getlines_line sep hr, hrec,
        List.cons_append]

theorem getlines_unlines (sep : α) {records : List (List α)}
    (hrecords : ∀ r ∈ records, sep ∉ r) : getlines sep (unlines sep records) = records := by
  have hcut := getlines_unlines_append sep hrecords (List.not_mem_nil (a := sep))
  simpa using hcut

omit [DecidableEq α] in
theorem prefix_append_cases {pre xs ys : List α} (h : pre <+: xs ++ ys) :
    pre <+: xs ∨ ∃ rest, pre = xs ++ rest ∧ rest <+: ys := by
  obtain ⟨more, hmore⟩ := h
  rcases List.append_eq_append_iff.mp hmore with ⟨as, hxs, _⟩ | ⟨bs, hpre, hys⟩
  · exact Or.inl ⟨as, hxs.symm⟩
  · exact Or.inr ⟨bs, hpre, more, hys.symm⟩

/-- Where a prefix of a written text can end: after some whole records and a
piece of the next record, which may be that record without its separator. -/
structure Cut (sep : α) (records : List (List α)) (pre : List α)
    (whole : ℕ) (tail : List α) : Prop where
  pre_eq : pre = unlines sep (records.take whole) ++ tail
  tail_of_next : tail = [] ∨ ∃ r, records[whole]? = some r ∧ tail <+: r

omit [DecidableEq α] in
theorem exists_cut (sep : α) (records : List (List α)) (pre : List α)
    (hpre : pre <+: unlines sep records) : ∃ whole tail, Cut sep records pre whole tail := by
  induction records generalizing pre with
  | nil =>
      have hnil : pre = [] := by simpa using hpre
      exact ⟨0, [], by simp [hnil], Or.inl rfl⟩
  | cons r rs ih =>
      rw [unlines_cons, List.append_cons] at hpre
      rcases prefix_append_cases hpre with hshort | ⟨rest, hrest, hpref⟩
      · -- the cut falls inside the first record or right behind its separator
        rcases List.prefix_concat_iff.mp hshort with hall | hin
        · exact ⟨1, [], by simp [hall], Or.inl rfl⟩
        · exact ⟨0, pre, by simp, Or.inr ⟨r, by simp, hin⟩⟩
      · obtain ⟨whole, tail, hcut⟩ := ih rest hpref
        refine ⟨whole + 1, tail, ?_, ?_⟩
        · rw [List.take_succ_cons, unlines_cons, hrest, hcut.pre_eq]
          simp
        · simpa using hcut.tail_of_next

/-- A text is one without separator, or a line and a text behind its separator. -/
@[elab_as_elim]
theorem lines_induction (sep : α) {motive : List α → Prop}
    (unterminated : ∀ rest, sep ∉ rest → motive rest)
    (terminated : ∀ line rest, sep ∉ line → motive rest → motive (line ++ sep :: rest))
    (text : List α) : motive text := by
  induction h : text.length using Nat.strong_induction_on generalizing text with
  | h n ih =>
      by_cases hsep : sep ∈ text
      · obtain ⟨line, rest, rfl, hline⟩ := List.eq_append_cons_of_mem hsep
        apply terminated line rest hline
        apply ih rest.length _ rest rfl
        rw [← h, List.length_append, List.length_cons]
        omega
      · exact unterminated text hsep

/-- The terminated lines of a text and what follows the last separator. -/
def splitLines (sep : α) : List α → List (List α) × List α
  | [] => ([], [])
  | c :: cs =>
      if c = sep then ([] :: (splitLines sep cs).1, (splitLines sep cs).2)
      else
        match splitLines sep cs with
        | ([], rest) => ([], c :: rest)
        | (line :: lines, rest) => ((c :: line) :: lines, rest)

theorem splitLines_unterminated {sep : α} {rest : List α} (hrest : sep ∉ rest) :
    splitLines sep rest = ([], rest) := by
  induction rest with
  | nil => rfl
  | cons c cs ih =>
      simp only [List.mem_cons, not_or] at hrest
      simp [splitLines, Ne.symm hrest.1, ih hrest.2]

theorem splitLines_line {sep : α} {line : List α} (hline : sep ∉ line) (rest : List α) :
    splitLines sep (line ++ sep :: rest) =
      (line :: (splitLines sep rest).1, (splitLines sep rest).2) := by
  induction line with
  | nil => simp [splitLines]
  | cons c cs ih =>
      simp only [List.mem_cons, not_or] at hline
      simp [splitLines, Ne.symm hline.1, ih hline.2]

theorem notMem_splitLines_snd (sep : α) (text : List α) : sep ∉ (splitLines sep text).2 := by
  induction text using lines_induction sep with
  | unterminated rest hrest => simpa [splitLines_unterminated hrest] using hrest
  | terminated line rest hline ih => simpa [splitLines_line hline] using ih

/-- More text goes on where the rest ended. -/
theorem splitLines_append (sep : α) (text more : List α) :
    splitLines sep (text ++ more) =
      ((splitLines sep text).1 ++ (splitLines sep ((splitLines sep text).2 ++ more)).1,
        (splitLines sep ((splitLines sep text).2 ++ more)).2) := by
  induction text using lines_induction sep with
  | unterminated rest hrest => simp [splitLines_unterminated hrest]
  | terminated line rest hline ih =>
      rw [List.append_assoc, List.cons_append, splitLines_line hline, splitLines_line hline, ih]
      rfl

/-- Behind a terminated text the lines of the next one begin. -/
theorem getlines_append {sep : α} {text : List α} (htext : (splitLines sep text).2 = [])
    (more : List α) : getlines sep (text ++ more) = getlines sep text ++ getlines sep more := by
  induction text using lines_induction sep with
  | unterminated rest hrest =>
      rw [splitLines_unterminated hrest] at htext
      subst htext
      rfl
  | terminated line rest hline ih =>
      rw [splitLines_line hline] at htext
      rw [List.append_assoc, List.cons_append, getlines_line sep hline, getlines_line sep hline,
        ih htext, List.cons_append]

/-- The rest of a text is a piece of a line, or of the rest, of every longer one. -/
theorem length_splitLines_snd_le {sep : α} {text more : List α} {n : ℕ}
    (hlines : ∀ line ∈ (splitLines sep (text ++ more)).1, line.length ≤ n)
    (hrest : (splitLines sep (text ++ more)).2.length ≤ n) :
    (splitLines sep text).2.length ≤ n := by
  have htext := notMem_splitLines_snd sep text
  rw [splitLines_append] at hlines hrest
  by_cases hsep : sep ∈ more
  · obtain ⟨line, rest, rfl, hline⟩ := List.eq_append_cons_of_mem hsep
    have hjoined : sep ∉ (splitLines sep text).2 ++ line := by simp [htext, hline]
    rw [← List.append_assoc, splitLines_line hjoined] at hlines
    have hfirst := hlines ((splitLines sep text).2 ++ line) (by simp)
    rw [List.length_append] at hfirst
    omega
  · have hjoined : sep ∉ (splitLines sep text).2 ++ more := by simp [htext, hsep]
    rw [splitLines_unterminated hjoined, List.length_append] at hrest
    omega

end Lines
