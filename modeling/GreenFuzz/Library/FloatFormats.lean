import Mathlib.Algebra.Order.Field.Rat
import Mathlib.Algebra.Order.Field.Power
import Mathlib.Order.Monotone.Odd
import Mathlib.Order.WithBot
import Mathlib.Tactic.Linarith
import Mathlib.Tactic.Ring

/-!
# Binary floating-point formats

A format has a sign bit, exponent bits and fraction bits. `FloatFormat.decode` gives the number that
a bit pattern stands for, with the two infinities, or nothing for a NaN.

The order of the numbers is that of the bit patterns read as sign and magnitude
(`FloatFormat.number_lt_iff`, `FloatFormat.number_eq_iff`), so that numbers can be compared by their
bits.
-/

set_option autoImplicit false

namespace GreenFuzz.Library

/-- A format by the number of its exponent bits and of its fraction bits. -/
structure FloatFormat where
  exponentBits : ℕ
  fractionBits : ℕ
  deriving DecidableEq, Repr

namespace FloatFormat

variable (f : FloatFormat)

def width : ℕ := 1 + f.exponentBits + f.fractionBits

def sign (bits : ℕ) : ℕ := bits / 2 ^ (f.exponentBits + f.fractionBits) % 2

/-- The pattern without its sign bit. -/
def magnitude (bits : ℕ) : ℕ := bits % 2 ^ (f.exponentBits + f.fractionBits)

def exponent (bits : ℕ) : ℕ := f.magnitude bits / 2 ^ f.fractionBits

def fraction (bits : ℕ) : ℕ := f.magnitude bits % 2 ^ f.fractionBits

/-- The magnitude from which on a pattern is no finite number. -/
def infinite : ℕ := (2 ^ f.exponentBits - 1) * 2 ^ f.fractionBits

def IsNan (bits : ℕ) : Prop := f.infinite < f.magnitude bits

instance (bits : ℕ) : Decidable (f.IsNan bits) := inferInstanceAs (Decidable (_ < _))

/-- The absolute value of a finite number, in units of the smallest positive one. Numbers with
exponent 0 have no leading one, and the exponent of the next ones. -/
def units (magnitude : ℕ) : ℕ :=
  if magnitude / 2 ^ f.fractionBits = 0 then magnitude % 2 ^ f.fractionBits
  else (2 ^ f.fractionBits + magnitude % 2 ^ f.fractionBits) *
    2 ^ (magnitude / 2 ^ f.fractionBits - 1)

/-- The smallest positive number. -/
def unit : ℚ := 2 ^ (1 - ((2 ^ (f.exponentBits - 1) - 1 : ℕ) : ℤ) - (f.fractionBits : ℤ))

/-- A pattern read as sign and magnitude. The two zeros are one. -/
def key (bits : ℕ) : ℤ :=
  if f.sign bits = 1 then -(f.magnitude bits : ℤ) else f.magnitude bits

/-- The number with a sign and a magnitude. -/
def number (key : ℤ) : WithBot (WithTop ℚ) :=
  if (f.infinite : ℤ) ≤ key then ⊤
  else if key ≤ -(f.infinite : ℤ) then ⊥
  else ((key.sign * f.units key.natAbs * f.unit : ℚ) : WithTop ℚ)

/-- The number of a pattern, or nothing for a NaN. -/
def decode (bits : ℕ) : Option (WithBot (WithTop ℚ)) :=
  if f.IsNan bits then none else some (f.number (f.key bits))

variable {f}

theorem unit_pos : 0 < f.unit := zpow_pos (by norm_num) _

/-- The absolute value grows with the magnitude. -/
theorem units_strictMono : StrictMono f.units := by
  intro first second smaller
  have one_pos : 0 < 2 ^ f.fractionBits := Nat.two_pow_pos _
  have first_eq := Nat.div_add_mod first (2 ^ f.fractionBits)
  have second_eq := Nat.div_add_mod second (2 ^ f.fractionBits)
  have first_lt := Nat.mod_lt first one_pos
  have exponents : first / 2 ^ f.fractionBits ≤ second / 2 ^ f.fractionBits :=
    Nat.div_le_div_right smaller.le
  simp only [units]
  generalize first / 2 ^ f.fractionBits = exponent at *
  generalize second / 2 ^ f.fractionBits = exponent' at *
  generalize first % 2 ^ f.fractionBits = fraction at *
  generalize second % 2 ^ f.fractionBits = fraction' at *
  generalize 2 ^ f.fractionBits = one at *
  rcases exponents.eq_or_lt with rfl | less
  · have fractions : fraction < fraction' := by omega
    split
    · exact fractions
    · exact Nat.mul_lt_mul_of_pos_right (Nat.add_lt_add_left fractions _) (Nat.two_pow_pos _)
  · have normal : one * 2 ^ (exponent' - 1) ≤ (one + fraction') * 2 ^ (exponent' - 1) :=
      Nat.mul_le_mul_right _ (Nat.le_add_right _ _)
    rw [if_neg (by omega : ¬ exponent' = 0)]
    refine Nat.lt_of_lt_of_le ?_ normal
    split
    · calc fraction < one := first_lt
        _ = one * 1 := (Nat.mul_one _).symm
        _ ≤ one * 2 ^ (exponent' - 1) := Nat.mul_le_mul_left _ Nat.one_le_two_pow
    · have powers : 2 ^ (exponent - 1) * 2 ≤ 2 ^ (exponent' - 1) := by
        rw [← pow_succ]
        exact Nat.pow_le_pow_right (by norm_num) (by omega)
      calc (one + fraction) * 2 ^ (exponent - 1)
          < (one + one) * 2 ^ (exponent - 1) :=
            Nat.mul_lt_mul_of_pos_right (Nat.add_lt_add_left first_lt _) (Nat.two_pow_pos _)
        _ = one * (2 ^ (exponent - 1) * 2) := by ring
        _ ≤ one * 2 ^ (exponent' - 1) := Nat.mul_le_mul_left _ powers

/-- Finite numbers are ordered as their patterns. -/
theorem signed_units_lt_iff {first second : ℤ} :
    first.sign * (f.units first.natAbs : ℤ) < second.sign * (f.units second.natAbs : ℤ) ↔
      first < second := by
  have grows : StrictMono fun key : ℤ => key.sign * (f.units key.natAbs : ℤ) := by
    refine strictMono_of_odd_strictMonoOn_nonneg (fun key => ?_)
      fun first low second high less => ?_
    · simp only [Int.sign_neg, Int.natAbs_neg, neg_mul]
    · obtain ⟨first, rfl⟩ := Int.eq_ofNat_of_zero_le low
      obtain ⟨second, rfl⟩ := Int.eq_ofNat_of_zero_le high
      have grows : f.units first < f.units second := units_strictMono (by omega)
      have positive : Int.sign (second : ℤ) = 1 := Int.sign_eq_one_of_pos (by omega)
      simp only [Int.natAbs_natCast, positive, one_mul]
      rcases Nat.eq_zero_or_pos first with rfl | first_pos
      · simp only [Nat.cast_zero, Int.sign_zero, zero_mul]
        omega
      · rw [Int.sign_eq_one_of_pos (by omega), one_mul]
        exact Int.ofNat_lt.mpr grows
  exact grows.lt_iff_lt

/-- The order of the numbers, infinities included, is that of sign and magnitude. -/
theorem number_lt_iff {first second : ℤ} (low : -(f.infinite : ℤ) ≤ first)
    (high : second ≤ f.infinite) : f.number first < f.number second ↔ first < second := by
  simp only [number]
  by_cases top : (f.infinite : ℤ) ≤ first
  · rw [if_pos top]
    exact iff_of_false not_top_lt (by omega)
  · rw [if_neg top]
    by_cases top' : (f.infinite : ℤ) ≤ second
    · rw [if_pos top']
      refine iff_of_true ?_ (by omega)
      split
      · exact bot_lt_top
      · exact WithBot.coe_lt_coe.mpr (WithTop.coe_lt_top _)
    · rw [if_neg top']
      by_cases bottom' : second ≤ -(f.infinite : ℤ)
      · rw [if_pos bottom']
        exact iff_of_false not_lt_bot (by omega)
      · rw [if_neg bottom']
        by_cases bottom : first ≤ -(f.infinite : ℤ)
        · rw [if_pos bottom]
          exact iff_of_true (WithBot.bot_lt_coe _) (by omega)
        · rw [if_neg bottom, WithBot.coe_lt_coe, WithTop.coe_lt_coe,
            mul_lt_mul_iff_of_pos_right unit_pos, ← signed_units_lt_iff (f := f)]
          exact_mod_cast Iff.rfl

theorem key_le {bits : ℕ} (number : ¬ f.IsNan bits) : f.key bits ≤ f.infinite := by
  rw [IsNan] at number
  rw [key]
  split <;> omega

theorem neg_le_key {bits : ℕ} (number : ¬ f.IsNan bits) : -(f.infinite : ℤ) ≤ f.key bits := by
  rw [IsNan] at number
  rw [key]
  split <;> omega

/-- Numbers are equal where sign and magnitude are. -/
theorem number_eq_iff {first second : ℤ} (low : -(f.infinite : ℤ) ≤ first)
    (high : first ≤ f.infinite) (low' : -(f.infinite : ℤ) ≤ second) (high' : second ≤ f.infinite) :
    f.number first = f.number second ↔ first = second := by
  refine ⟨fun same => ?_, fun same => same ▸ rfl⟩
  have notLess := mt (number_lt_iff low high').mpr (same ▸ lt_irrefl _)
  have notGreater := mt (number_lt_iff low' high).mpr (same ▸ lt_irrefl _)
  omega

end FloatFormat

end GreenFuzz.Library
