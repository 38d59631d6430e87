import Mathlib

/-!
# Decimal numerals over bytes

Printing and reading of natural numbers and integers as ASCII decimal text.
The printer emits no leading zero and no plus sign.  Reading is total on digit
strings, so the round trip only needs that the printed text consists of digits.
-/

namespace Numerals

abbrev Bytes := List UInt8

/-- The ASCII digit of a number below ten. -/
def digitByte (d : ℕ) : UInt8 := (48 + d).toUInt8

def isDigit (b : UInt8) : Bool := decide (48 ≤ b.toNat ∧ b.toNat ≤ 57)

def digitValue (b : UInt8) : ℕ := b.toNat - 48

def minusSign : UInt8 := 45

/-- Decimal text of a natural number. -/
def printNat (n : ℕ) : Bytes :=
  if n = 0 then [digitByte 0] else (Nat.digits 10 n).reverse.map digitByte

/-- Value of a digit string, most significant digit first. -/
def readNat (ds : Bytes) : ℕ := ds.foldl (fun a b ↦ 10 * a + digitValue b) 0

/-- Decimal text of an integer. -/
def printInt (z : ℤ) : Bytes :=
  if z < 0 then minusSign :: printNat z.natAbs else printNat z.natAbs

theorem digitByte_toNat {d : ℕ} (hd : d < 10) : (digitByte d).toNat = 48 + d := by
  have hlt : 48 + d < 2 ^ 8 := by omega
  simpa [digitByte] using Nat.mod_eq_of_lt hlt

theorem isDigit_digitByte {d : ℕ} (hd : d < 10) : isDigit (digitByte d) = true := by
  have hv := digitByte_toNat hd
  simp only [isDigit, hv, decide_eq_true_eq]
  omega

theorem digitValue_digitByte {d : ℕ} (hd : d < 10) : digitValue (digitByte d) = d := by
  rw [digitValue, digitByte_toNat hd]
  omega

theorem readNat_append (ds : Bytes) (b : UInt8) :
    readNat (ds ++ [b]) = 10 * readNat ds + digitValue b := by
  simp [readNat]

/-- Reading the reversed digits evaluates them in base ten. -/
theorem readNat_reverse_digits (ds : List ℕ) (hds : ∀ d ∈ ds, d < 10) :
    readNat (ds.reverse.map digitByte) = Nat.ofDigits 10 ds := by
  induction ds with
  | nil => rfl
  | cons d ds ih =>
      have hd : d < 10 := hds d (by simp)
      have hrest : ∀ x ∈ ds, x < 10 := fun x hx ↦ hds x (by simp [hx])
      rw [List.reverse_cons, List.map_append, List.map_singleton, readNat_append,
        ih hrest, digitValue_digitByte hd, Nat.ofDigits_cons]
      ring

theorem readNat_printNat (n : ℕ) : readNat (printNat n) = n := by
  by_cases hn : n = 0
  · subst hn
    decide
  · rw [printNat, if_neg hn,
      readNat_reverse_digits _ fun d hd ↦ Nat.digits_lt_base (by norm_num) hd]
    exact Nat.ofDigits_digits 10 n

theorem isDigit_of_mem_printNat {n : ℕ} {b : UInt8} (hb : b ∈ printNat n) :
    isDigit b = true := by
  by_cases hn : n = 0
  · subst hn
    simp only [printNat, if_true, List.mem_singleton] at hb
    exact hb ▸ isDigit_digitByte (by norm_num)
  · rw [printNat, if_neg hn] at hb
    obtain ⟨d, hd, rfl⟩ := List.mem_map.mp hb
    exact isDigit_digitByte (Nat.digits_lt_base (by norm_num) (List.mem_reverse.mp hd))

theorem printNat_ne_nil (n : ℕ) : printNat n ≠ [] := by
  by_cases hn : n = 0
  · simp [printNat, hn]
  · simpa [printNat, hn] using Nat.digits_ne_nil_iff_ne_zero.mpr hn

/-- A printed number is not empty, so it has a first digit. -/
theorem exists_cons_printNat (n : ℕ) :
    ∃ b bs, printNat n = b :: bs ∧ isDigit b = true := by
  cases hp : printNat n with
  | nil => exact absurd hp (printNat_ne_nil n)
  | cons b bs => exact ⟨b, bs, rfl, isDigit_of_mem_printNat (n := n) (by simp [hp])⟩

end Numerals
