import ByteCacheDB.Lib.Numerals

/-!
# Character classes and number conversions of the C++ library

Strings are byte strings.  `isspace` and `toupper` are those of the C locale;
`fromChars` and `stoll` follow the standard: the longest numeral is consumed
and a value outside the result type is an error.
-/

namespace ByteCacheDB

open Numerals

abbrev Bytes := List UInt8

/-- Bytes of an ASCII literal. -/
def ascii (s : String) : Bytes := s.toList.map fun c ↦ c.toNat.toUInt8

def newline : UInt8 := 10
def carriageReturn : UInt8 := 13
def tab : UInt8 := 9
def space : UInt8 := 32
def doubleQuote : UInt8 := 34
def backslash : UInt8 := 92

def isspace (c : UInt8) : Bool := decide (c = 32 ∨ 9 ≤ c.toNat ∧ c.toNat ≤ 13)

def toupper (c : UInt8) : UInt8 := if 97 ≤ c.toNat ∧ c.toNat ≤ 122 then c - 32 else c

/-- The error codes `std::from_chars` reports. -/
inductive Errc where
  | invalidArgument
  | resultOutOfRange
  deriving DecidableEq, Repr

def toStringU64 (n : UInt64) : Bytes := printNat n.toNat

def toStringI64 (z : Int64) : Bytes := printInt z.toInt

/-- An integer as a signed 64-bit value, if it is one. -/
def int64? (z : ℤ) : Option Int64 :=
  if -2 ^ 63 ≤ z ∧ z < 2 ^ 63 then some (Int64.ofInt z) else none

/-- `std::from_chars` for `uint64_t`: the value and the text behind the numeral.
An unsigned target accepts no sign. -/
def fromCharsU64 (text : Bytes) : Except Errc (UInt64 × Bytes) :=
  let digits := text.takeWhile isDigit
  if digits = [] then .error .invalidArgument
  else if readNat digits < 2 ^ 64 then
    .ok (UInt64.ofNat (readNat digits), text.dropWhile isDigit)
  else .error .resultOutOfRange

/-- Split off a leading minus sign. -/
def signOf : Bytes → Bool × Bytes
  | [] => (false, [])
  | c :: cs => if c = minusSign then (true, cs) else (false, c :: cs)

def signed (negative : Bool) (n : ℕ) : ℤ := if negative then -(n : ℤ) else n

/-- `std::from_chars` for `int64_t`. -/
def fromCharsI64 (text : Bytes) : Except Errc (Int64 × Bytes) :=
  let (negative, body) := signOf text
  let digits := body.takeWhile isDigit
  if digits = [] then .error .invalidArgument
  else
    match int64? (signed negative (readNat digits)) with
    | some z => .ok (z, body.dropWhile isDigit)
    | none => .error .resultOutOfRange

/-- `std::stoll`: blanks and a plus sign are skipped, text behind the numeral is
ignored, and the two failures are the exceptions the function throws. -/
def stoll (text : Bytes) : Except Errc Int64 :=
  let body := text.dropWhile isspace
  let (negative, body) := if body.head? = some 43 then (false, body.tail) else signOf body
  let digits := body.takeWhile isDigit
  if digits = [] then .error .invalidArgument
  else
    match int64? (signed negative (readNat digits)) with
    | some z => .ok z
    | none => .error .resultOutOfRange

/-- `stream >> word` for a string. -/
def extractWord (text : Bytes) : Option (Bytes × Bytes) :=
  let body := text.dropWhile isspace
  let word := body.takeWhile fun c ↦ !isspace c
  if word = [] then none else some (word, body.dropWhile fun c ↦ !isspace c)

/-- The numeral that `stream >> number` reads: its sign, its magnitude and the
rest of the stream. -/
def extractNumeral (text : Bytes) : Option (Bool × ℕ × Bytes) :=
  let body := text.dropWhile isspace
  let (negative, body) := if body.head? = some 43 then (false, body.tail) else signOf body
  let digits := body.takeWhile isDigit
  if digits = [] then none else some (negative, readNat digits, body.dropWhile isDigit)

/-- `stream >> number` for an `int`. -/
def extractInt (text : Bytes) : Option (ℤ × Bytes) := do
  let (negative, n, rest) ← extractNumeral text
  let z := signed negative n
  if -2 ^ 31 ≤ z ∧ z < 2 ^ 31 then some (z, rest) else none

/-- `stream >> number` for a `uint64_t`; a minus sign negates modulo `2 ^ 64`. -/
def extractU64 (text : Bytes) : Option (UInt64 × Bytes) := do
  let (negative, n, rest) ← extractNumeral text
  if n < 2 ^ 64 then some (if negative then -UInt64.ofNat n else UInt64.ofNat n, rest) else none

/-! ## Printed numbers read back -/

theorem takeWhile_isDigit_append (ds rest : Bytes) (hds : ∀ b ∈ ds, isDigit b = true)
    (hrest : ∀ b, rest.head? = some b → isDigit b = false) :
    (ds ++ rest).takeWhile isDigit = ds ∧ (ds ++ rest).dropWhile isDigit = rest := by
  rw [List.takeWhile_append_of_pos hds, List.dropWhile_append_of_pos hds]
  cases rest with
  | nil => simp
  | cons b bs => simp [hrest b rfl]

theorem fromCharsU64_printNat {n : ℕ} (hn : n < 2 ^ 64) :
    fromCharsU64 (printNat n) = .ok (UInt64.ofNat n, []) := by
  have hsplit := takeWhile_isDigit_append (printNat n) []
    (fun b ↦ isDigit_of_mem_printNat) (by simp)
  rw [List.append_nil] at hsplit
  simp only [fromCharsU64, hsplit.1, hsplit.2, printNat_ne_nil, readNat_printNat, if_false,
    if_pos hn]

theorem fromCharsU64_toStringU64 (n : UInt64) : fromCharsU64 (toStringU64 n) = .ok (n, []) := by
  rw [toStringU64, fromCharsU64_printNat n.toNat_lt]
  simp

theorem signOf_printNat (n : ℕ) : signOf (printNat n) = (false, printNat n) := by
  obtain ⟨b, bs, hp, hb⟩ := exists_cons_printNat n
  have hne : b ≠ minusSign := by
    rintro rfl
    exact absurd hb (by decide)
  simp [hp, signOf, hne]

theorem int64?_toInt (z : Int64) : int64? z.toInt = some z := by
  have hlo := z.le_toInt
  have hhi := z.toInt_lt
  simp only [int64?]
  rw [if_pos ⟨by simpa using hlo, by simpa using hhi⟩, Int64.ofInt_toInt]

theorem signOf_toStringI64 (z : Int64) :
    signOf (toStringI64 z) = (decide (z.toInt < 0), printNat z.toInt.natAbs) := by
  by_cases hz : z.toInt < 0
  · simp [toStringI64, printInt, hz, signOf]
  · simp [toStringI64, printInt, hz, signOf_printNat]

theorem signed_natAbs (z : ℤ) : signed (decide (z < 0)) z.natAbs = z := by
  by_cases hz : z < 0
  · simp only [signed, hz, decide_true, if_true]
    omega
  · simp only [signed, hz, decide_false, Bool.false_eq_true, if_false]
    omega

theorem fromCharsI64_toStringI64 (z : Int64) : fromCharsI64 (toStringI64 z) = .ok (z, []) := by
  have hsplit := takeWhile_isDigit_append (printNat z.toInt.natAbs) []
    (fun b ↦ isDigit_of_mem_printNat) (by simp)
  rw [List.append_nil] at hsplit
  simp [fromCharsI64, signOf_toStringI64, hsplit.1, hsplit.2, printNat_ne_nil,
    readNat_printNat, signed_natAbs, int64?_toInt]

theorem isspace_of_isDigit {b : UInt8} (hb : isDigit b = true) : isspace b = false := by
  simp only [isDigit, decide_eq_true_eq] at hb
  simp only [isspace, decide_eq_false_iff_not, not_or, not_and]
  refine ⟨?_, by omega⟩
  rintro rfl
  revert hb
  decide

/-- A text `from_chars` reads to its end starts with no blank and no plus sign,
so `stoll` reads the same number. -/
theorem stoll_of_fromCharsI64 {text : Bytes} {z : Int64} {rest : Bytes}
    (h : fromCharsI64 text = .ok (z, rest)) : stoll text = .ok z := by
  cases text with
  | nil => simp [fromCharsI64, signOf] at h
  | cons c cs =>
      by_cases hc : c = minusSign
      · subst hc
        have hs : isspace minusSign = false := by decide
        have hp : (minusSign = (43 : UInt8)) = False := by decide
        simp only [fromCharsI64, signOf, if_true] at h
        simp only [stoll, List.dropWhile_cons, hs, List.head?_cons, Option.some.injEq, hp,
          if_false, signOf, if_true, Bool.false_eq_true]
        split at h
        · simp at h
        · rename_i hne
          rw [if_neg hne]
          split at h <;> simp_all
      · simp only [fromCharsI64, signOf, if_neg hc] at h
        have hd : isDigit c = true := by
          by_contra hd
          simp [hd] at h
        have hs := isspace_of_isDigit hd
        have hp : c ≠ 43 := by
          rintro rfl
          exact absurd hd (by decide)
        simp only [stoll, List.dropWhile_cons, hs, List.head?_cons, Option.some.injEq, hp,
          if_false, signOf, if_neg hc, Bool.false_eq_true]
        split at h
        · simp at h
        · rename_i hne
          rw [if_neg hne]
          split at h <;> simp_all

theorem stoll_toStringI64 (z : Int64) : stoll (toStringI64 z) = .ok z :=
  stoll_of_fromCharsI64 (fromCharsI64_toStringI64 z)

end ByteCacheDB
