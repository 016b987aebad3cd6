import Mathlib.Data.List.Lex
import Mathlib.Data.String.Basic

/-!
# Numbers with leading zeros

Written with the same number of digits, numbers are ordered as their texts are, whatever follows
the digits (`paddedDigits_lt`). A number that needs more digits than there are is written in full,
and the order ends there. Different numbers are written differently, however many digits they need
(`paddedDigits_append_injective`).
-/

set_option autoImplicit false

namespace GreenFuzz.Library

variable {α : Type*} {width m n : ℕ}

/-! ## Texts of one length -/

/-- What follows texts of one length does not change their order. -/
theorem append_lt_append_of_lt [LT α] {l₁ l₂ : List α} (lengths : l₁.length = l₂.length)
    (less : l₁ < l₂) (s t : List α) : l₁ ++ s < l₂ ++ t := by
  induction l₁ generalizing l₂ with
  | nil =>
      obtain rfl := List.length_eq_zero_iff.mp lengths.symm
      cases less
  | cons a l₁ ih =>
      cases l₂ with
      | nil => cases less
      | cons b l₂ =>
          refine List.cons_lt_cons_iff.mpr ?_
          rcases List.cons_lt_cons_iff.mp less with first | ⟨same, later⟩
          · exact Or.inl first
          · exact Or.inr ⟨same, ih (Nat.succ.inj lengths) later⟩

/-! ## Digits -/

/-- The last `width` decimal digits. -/
def lastDigits : ℕ → ℕ → List Char
  | 0, _ => []
  | width + 1, n => lastDigits width (n / 10) ++ [Nat.digitChar (n % 10)]

theorem length_lastDigits (width n : ℕ) : (lastDigits width n).length = width := by
  induction width generalizing n with
  | zero => rfl
  | succ width ih => simp [lastDigits, ih]

theorem lastDigits_zero (width : ℕ) : lastDigits width 0 = List.replicate width '0' := by
  induction width with
  | zero => rfl
  | succ width ih =>
      rw [lastDigits, Nat.zero_div, ih, List.replicate_succ']
      rfl

theorem digitChar_lt_digitChar (order : m < n) (digit : n < 10) :
    Nat.digitChar m < Nat.digitChar n := by
  rw [Char.lt_def, UInt32.lt_iff_toNat_lt]
  show (Nat.digitChar m).toNat < (Nat.digitChar n).toNat
  rw [Nat.toNat_digitChar_of_lt_ten (order.trans digit), Nat.toNat_digitChar_of_lt_ten digit]
  omega

/-- Numbers are ordered as their digits are. -/
theorem lastDigits_lt (order : m < n) (fits : n < 10 ^ width) :
    lastDigits width m < lastDigits width n := by
  induction width generalizing m n with
  | zero => exact absurd order (by omega)
  | succ width ih =>
      rcases Nat.lt_or_ge (m / 10) (n / 10) with less | notLess
      · refine append_lt_append_of_lt ?_ (ih less ?_) _ _
        · rw [length_lastDigits, length_lastDigits]
        · rw [Nat.pow_succ] at fits
          omega
      · have same : m / 10 = n / 10 := by omega
        have last : m % 10 < n % 10 := by omega
        rw [lastDigits, lastDigits, same]
        refine List.append_left_lt (List.cons_lt_cons_iff.mpr (Or.inl ?_))
        exact digitChar_lt_digitChar last (Nat.mod_lt n (by decide))

/-! ## Padding -/

/-- The decimal digits, with leading zeros up to the given width. -/
def paddedDigits (width n : ℕ) : List Char :=
  List.replicate (width - (Nat.toDigits 10 n).length) '0' ++ Nat.toDigits 10 n

/-- A number that fits has exactly the digits that there are. -/
theorem paddedDigits_eq (positive : 0 < width) (fits : n < 10 ^ width) :
    paddedDigits width n = lastDigits width n := by
  obtain ⟨width, rfl⟩ := Nat.exists_eq_succ_of_ne_zero positive.ne'
  induction width generalizing n with
  | zero =>
      rw [paddedDigits, Nat.toDigits_of_lt_base (by simpa using fits)]
      simp [lastDigits, Nat.mod_eq_of_lt (show n < 10 by simpa using fits)]
  | succ width ih =>
      rw [lastDigits]
      rcases Nat.lt_or_ge n 10 with single | more
      · rw [paddedDigits, Nat.toDigits_of_lt_base single, Nat.div_eq_of_lt single, lastDigits_zero,
          Nat.mod_eq_of_lt single]
        rfl
      · have shorter : n / 10 < 10 ^ (width + 1) := by
          rw [Nat.pow_succ] at fits
          omega
        rw [← ih (Nat.succ_pos _) shorter, paddedDigits, paddedDigits,
          Nat.toDigits_of_base_le (by decide) more, List.length_append, List.append_assoc]
        simp

theorem isDigit_of_mem_paddedDigits {c : Char} (member : c ∈ paddedDigits width n) :
    c.isDigit = true := by
  rw [paddedDigits, List.mem_append] at member
  rcases member with zero | digit
  · rw [List.eq_of_mem_replicate zero]
    decide
  · exact Nat.isDigit_of_mem_toDigits (by decide) (by decide) digit

theorem ofDigitChars_paddedDigits (width n : ℕ) :
    Nat.ofDigitChars 10 (paddedDigits width n) 0 = n := by
  rw [paddedDigits, Nat.ofDigitChars_append, Nat.ofDigitChars_replicate_zero, Nat.mul_zero,
    Nat.ofDigitChars_ten_toDigits]

theorem paddedDigits_injective (same : paddedDigits width m = paddedDigits width n) : m = n := by
  rw [← ofDigitChars_paddedDigits width m, same, ofDigitChars_paddedDigits]

/-- A number is read up to the first character that is no digit. -/
theorem paddedDigits_append_injective {c d : Char} {s t : List Char} (first : c.isDigit = false)
    (second : d.isDigit = false)
    (same : paddedDigits width m ++ c :: s = paddedDigits width n ++ d :: t) : m = n := by
  have digits (k : ℕ) {e : Char} (stops : e.isDigit = false) (u : List Char) :
      (paddedDigits width k ++ e :: u).takeWhile Char.isDigit = paddedDigits width k := by
    rw [List.takeWhile_append_of_pos fun _ => isDigit_of_mem_paddedDigits,
      List.takeWhile_cons_of_neg (by rw [stops]; exact Bool.false_ne_true), List.append_nil]
  have equal : paddedDigits width m = paddedDigits width n := by
    rw [← digits m first s, same, digits n second t]
  exact paddedDigits_injective equal

/-- **Padded numbers are ordered as their texts are**, whatever follows the digits. -/
theorem paddedDigits_lt (positive : 0 < width) (order : m < n) (fits : n < 10 ^ width)
    (s t : List Char) : paddedDigits width m ++ s < paddedDigits width n ++ t := by
  rw [paddedDigits_eq positive (order.trans fits), paddedDigits_eq positive fits]
  refine append_lt_append_of_lt ?_ (lastDigits_lt order fits) s t
  rw [length_lastDigits, length_lastDigits]

end GreenFuzz.Library
