import Mathlib.Algebra.Group.Nat.Defs
import Mathlib.Data.List.Basic
import Mathlib.Data.List.TakeWhile
import Mathlib.Order.Nat

/-!
# Decimal text of integers

`format` writes an integer the way `printf` does for `%d`, and `parse` reads
one the way `atoi` does: leading white space, an optional sign, and the longest
run of digits.
-/

namespace Decimal

/-- Decimal digits with a leading minus sign for negative integers. -/
def format (z : ℤ) : List Char :=
  if z < 0 then '-' :: Nat.toDigits 10 z.natAbs else Nat.toDigits 10 z.natAbs

/-- Value of the leading run of digits. -/
def digits (cs : List Char) : ℕ :=
  Nat.ofDigitChars 10 (cs.takeWhile Char.isDigit) 0

/-- White space that `atoi` skips. -/
def isSpace (c : Char) : Bool :=
  c.toNat = 32 || (9 ≤ c.toNat && c.toNat ≤ 13)

/-- Optional sign followed by digits. -/
def signed : List Char → ℤ
  | '-' :: cs => -(digits cs : ℤ)
  | '+' :: cs => digits cs
  | cs => digits cs

/-- Read an integer from the start of a text. -/
def parse (cs : List Char) : ℤ :=
  signed (cs.dropWhile isSpace)

theorem isDigit_of_mem_toDigits {n : ℕ} {c : Char}
    (h : c ∈ Nat.toDigits 10 n) : c.isDigit :=
  Nat.isDigit_of_mem_toDigits (by decide) (by decide) h

theorem not_isSpace_of_isDigit {c : Char} (h : c.isDigit) : isSpace c = false := by
  rw [Char.isDigit_iff_toNat] at h
  have h0 : '0'.toNat = 48 := rfl
  simp only [isSpace, Bool.or_eq_false_iff, Bool.and_eq_false_iff,
    decide_eq_false_iff_not]
  omega

theorem takeWhile_toDigits (n : ℕ) :
    (Nat.toDigits 10 n).takeWhile Char.isDigit = Nat.toDigits 10 n :=
  List.takeWhile_eq_self_iff.mpr fun _ h => isDigit_of_mem_toDigits h

theorem digits_toDigits (n : ℕ) : digits (Nat.toDigits 10 n) = n := by
  rw [digits, takeWhile_toDigits, Nat.ofDigitChars_ten_toDigits]

/-- The digits of a number start with a digit, so neither white space nor a
sign is taken from them. -/
theorem parse_toDigits (n : ℕ) : parse (Nat.toDigits 10 n) = n := by
  have hdigits := digits_toDigits n
  have hall : ∀ c ∈ Nat.toDigits 10 n, c.isDigit :=
    fun _ h => isDigit_of_mem_toDigits h
  generalize Nat.toDigits 10 n = cs at hdigits hall
  cases cs with
  | nil => exact congrArg Nat.cast hdigits
  | cons c cs =>
      have hc : c.isDigit := hall c List.mem_cons_self
      rw [parse, List.dropWhile_cons_of_neg (by simp [not_isSpace_of_isDigit hc])]
      have hminus : c ≠ '-' := by
        rintro rfl
        exact absurd hc (by decide)
      have hplus : c ≠ '+' := by
        rintro rfl
        exact absurd hc (by decide)
      unfold signed
      split
      · rename_i heq
        exact absurd (List.cons.inj heq).1 hminus
      · rename_i heq
        exact absurd (List.cons.inj heq).1 hplus
      · rw [hdigits]

/-- Reading back a written integer. -/
theorem parse_format (z : ℤ) : parse (format z) = z := by
  rw [format]
  split
  · rename_i h
    change -(digits (Nat.toDigits 10 z.natAbs) : ℤ) = z
    rw [digits_toDigits]
    omega
  · rw [parse_toDigits]
    omega

theorem length_format_le {z : ℤ} {k : ℕ} (hk : 0 < k) (h : z.natAbs < 10 ^ k) :
    (format z).length ≤ k + 1 := by
  have hlen : (Nat.toDigits 10 z.natAbs).length ≤ k :=
    (Nat.length_toDigits_le_iff (by decide) hk).mpr h
  rw [format]
  split
  · simpa using hlen
  · omega

end Decimal
