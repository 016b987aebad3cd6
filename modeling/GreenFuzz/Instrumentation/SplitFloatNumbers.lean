import GreenFuzz.Instrumentation.SplitFloats

/-!
# What the integer comparisons say about the numbers

The pass compares two patterns by sign, exponent and fraction after a negative zero was made the
positive one. For patterns that are no NaN that is the order of the numbers (`key_lt_iff`,
`key_eq_iff`).
-/

set_option autoImplicit false

namespace GreenFuzz.Instrumentation

open Library

/-- The predicate that the pass implements: false for NaNs, except for the inequality. -/
def quiet : FcmpPredicate → FcmpPredicate
  | .ueq => .oeq
  | .one => .une
  | .ugt => .ogt
  | .uge => .oge
  | .ult => .olt
  | .ule => .ole
  | pred => pred

/-- The type that the pass takes a type for. -/
def standard : FloatType → FloatType
  | .bfloat => .half
  | type => type

/-! ## Predicates on patterns -/

section Predicates

variable {format : FloatFormat} {a b : ℕ}

theorem holds_of_nan (nan : format.IsNan a ∨ format.IsNan b) (pred : FcmpPredicate) :
    (quiet pred).holds format a b = decide (quiet pred = .une) := by
  rcases nan with nan | nan
  · cases pred <;> simp [FcmpPredicate.holds, FloatFormat.decode, nan, quiet]
  · by_cases nan' : format.IsNan a <;>
      cases pred <;> simp [FcmpPredicate.holds, FloatFormat.decode, nan, nan', quiet]

/-- On numbers a predicate compares sign and magnitude. -/
theorem holds_of_numbers (left : ¬ format.IsNan a) (right : ¬ format.IsNan b) :
    FcmpPredicate.oeq.holds format a b = decide (format.key a = format.key b) ∧
      FcmpPredicate.une.holds format a b = decide (format.key a ≠ format.key b) ∧
      FcmpPredicate.ogt.holds format a b = decide (format.key b < format.key a) ∧
      FcmpPredicate.olt.holds format a b = decide (format.key a < format.key b) := by
  have same := FloatFormat.number_eq_iff (FloatFormat.neg_le_key left) (FloatFormat.key_le left)
    (FloatFormat.neg_le_key right) (FloatFormat.key_le right)
  have less := FloatFormat.number_lt_iff (FloatFormat.neg_le_key left) (FloatFormat.key_le right)
  have greater := FloatFormat.number_lt_iff (FloatFormat.neg_le_key right) (FloatFormat.key_le left)
  simp [FcmpPredicate.holds, FloatFormat.decode, left, right, same, less, greater]

/-- A comparison by the strict one and equality. -/
theorem holds_fpOrEquals {pred strict : FcmpPredicate} (isStrict : strictFcmp pred = some strict)
    (format : FloatFormat) (a b : ℕ) :
    pred.holds format a b =
      (strict.holds format a b || FcmpPredicate.oeq.holds format a b) := by
  cases pred <;> simp only [strictFcmp, reduceCtorEq, Option.some.injEq] at isStrict <;>
    subst isStrict <;> simp only [FcmpPredicate.holds]
  all_goals
    cases format.decode a <;> cases format.decode b <;>
      simp [le_iff_lt_or_eq, eq_comm]

end Predicates

/-! ## Sign, exponent and fraction -/

section Keys

variable {f : FloatFormat} {a b : ℕ}

/-- A pattern without the negative zero. -/
def positiveZero (f : FloatFormat) (bits : ℕ) : ℕ :=
  if bits = 2 ^ (f.width - 1) then 0 else bits

theorem width_pred (f : FloatFormat) : f.width - 1 = f.exponentBits + f.fractionBits := by
  rw [FloatFormat.width]
  omega

theorem sign_lt_two (bits : ℕ) : f.sign bits < 2 := Nat.mod_lt _ (by norm_num)

theorem key_positiveZero (bits : ℕ) : f.key (positiveZero f bits) = f.key bits := by
  rw [positiveZero, width_pred]
  split
  · rename_i zero
    subst zero
    simp [FloatFormat.key, FloatFormat.magnitude]
  · rfl

/-- A pattern with the sign bit stands for a number below zero. -/
theorem magnitude_pos {bits : ℕ} (below : bits < 2 ^ f.width)
    (negative : f.sign (positiveZero f bits) = 1) : 0 < f.magnitude (positiveZero f bits) := by
  have width : 2 ^ f.width = 2 ^ (f.exponentBits + f.fractionBits) * 2 := by
    rw [← pow_succ, FloatFormat.width]
    congr 1
    omega
  rw [positiveZero, width_pred] at negative ⊢
  split at negative
  · simp [FloatFormat.sign] at negative
  · rename_i notZero
    rw [if_neg notZero, FloatFormat.magnitude]
    rw [FloatFormat.sign] at negative
    have whole := Nat.div_add_mod bits (2 ^ (f.exponentBits + f.fractionBits))
    have bit : bits / 2 ^ (f.exponentBits + f.fractionBits) < 2 :=
      Nat.div_lt_of_lt_mul (width ▸ below)
    rw [Nat.mod_eq_of_lt bit] at negative
    rw [negative, Nat.mul_one] at whole
    omega

theorem magnitude_eq (bits : ℕ) :
    f.magnitude bits = 2 ^ f.fractionBits * f.exponent bits + f.fraction bits :=
  (Nat.div_add_mod _ _).symm

theorem fraction_lt (bits : ℕ) : f.fraction bits < 2 ^ f.fractionBits :=
  Nat.mod_lt _ (Nat.two_pow_pos _)

theorem exponent_lt (bits : ℕ) : f.exponent bits < 2 ^ f.exponentBits := by
  rw [FloatFormat.exponent]
  refine Nat.div_lt_of_lt_mul ?_
  rw [← pow_add, Nat.add_comm f.fractionBits]
  exact Nat.mod_lt _ (Nat.two_pow_pos _)

theorem exponent_eq (bits : ℕ) :
    f.exponent bits = bits / 2 ^ f.fractionBits % 2 ^ f.exponentBits := by
  rw [FloatFormat.exponent, FloatFormat.magnitude, Nat.add_comm, pow_add,
    Nat.mod_mul_right_div_self]

theorem fraction_eq (bits : ℕ) : f.fraction bits = bits % 2 ^ f.fractionBits := by
  rw [FloatFormat.fraction, FloatFormat.magnitude]
  exact Nat.mod_mod_of_dvd _ (Nat.pow_dvd_pow 2 (Nat.le_add_left _ _))

variable (positive : f.sign a = 1 → 0 < f.magnitude a)
  (positive' : f.sign b = 1 → 0 < f.magnitude b)

include positive positive'

theorem key_eq_iff : f.key a = f.key b ↔
    f.sign a = f.sign b ∧ f.exponent a = f.exponent b ∧ f.fraction a = f.fraction b := by
  have magnitudes := eq_by_halves (f.exponent a) (f.exponent b)
    (fraction_lt (f := f) a) (fraction_lt b)
  rw [← magnitude_eq, ← magnitude_eq] at magnitudes
  have sign := sign_lt_two (f := f) a
  have sign' := sign_lt_two (f := f) b
  rw [FloatFormat.key, FloatFormat.key, ← magnitudes]
  split <;> split <;> omega

/-- The order by the signs, by the exponents where these are equal, and by the fractions where these
are equal too. Among negative numbers it is the other way round. -/
theorem key_lt_iff : f.key a < f.key b ↔
    if f.sign a = f.sign b then
      if f.exponent a = f.exponent b then
        if f.sign a = 1 then f.fraction b < f.fraction a else f.fraction a < f.fraction b
      else if f.sign a = 1 then f.exponent b < f.exponent a else f.exponent a < f.exponent b
    else f.sign a = 1 := by
  have less := lt_by_halves (f.exponent a) (f.exponent b)
    (fraction_lt (f := f) a) (fraction_lt b)
  have greater := lt_by_halves (f.exponent b) (f.exponent a)
    (fraction_lt (f := f) b) (fraction_lt a)
  rw [← magnitude_eq, ← magnitude_eq] at less greater
  have sign := sign_lt_two (f := f) a
  have sign' := sign_lt_two (f := f) b
  rw [FloatFormat.key, FloatFormat.key]
  by_cases same : f.sign a = f.sign b
  · rw [if_pos same, ← same]
    split <;> split <;> omega
  · rw [if_neg same]
    split <;> split <;> omega

end Keys

/-! ## Comparisons by parts -/

section Parts

variable {f : FloatFormat} {a b : ℕ}

/-- An operand as the pass compares it. -/
def compared (f : FloatFormat) (a : ℕ) : ℕ := positiveZero f (a % 2 ^ f.width)

theorem compared_pos (a : ℕ) (negative : f.sign (compared f a) = 1) :
    0 < f.magnitude (compared f a) :=
  magnitude_pos (Nat.mod_lt _ (Nat.two_pow_pos _)) negative

theorem key_compared (a : ℕ) : f.key (compared f a) = f.key a := by
  have wide : f.exponentBits + f.fractionBits ≤ f.width := by
    rw [FloatFormat.width]
    omega
  have magnitude : f.magnitude (a % 2 ^ f.width) = f.magnitude a :=
    Nat.mod_mod_of_dvd _ (Nat.pow_dvd_pow 2 wide)
  have sign : f.sign (a % 2 ^ f.width) = f.sign a := by
    have split : 2 ^ f.width = 2 ^ (f.exponentBits + f.fractionBits) * 2 := by
      rw [← pow_succ, FloatFormat.width]
      congr 1
      omega
    rw [FloatFormat.sign, FloatFormat.sign, split, Nat.mod_mul_right_div_self, Nat.mod_mod]
  rw [compared, key_positiveZero, FloatFormat.key, FloatFormat.key, magnitude, sign]

variable (left : ¬ f.IsNan a) (right : ¬ f.IsNan b)

include left right

theorem oeq_by_parts : FcmpPredicate.oeq.holds f a b =
    decide (f.sign (compared f a) = f.sign (compared f b) ∧
      f.exponent (compared f a) = f.exponent (compared f b) ∧
      f.fraction (compared f a) = f.fraction (compared f b)) := by
  rw [(holds_of_numbers left right).1, ← key_compared a, ← key_compared b]
  exact decide_eq_decide.mpr (key_eq_iff (compared_pos a) (compared_pos b))

theorem une_by_parts : FcmpPredicate.une.holds f a b =
    !decide (f.sign (compared f a) = f.sign (compared f b) ∧
      f.exponent (compared f a) = f.exponent (compared f b) ∧
      f.fraction (compared f a) = f.fraction (compared f b)) := by
  rw [← oeq_by_parts left right, (holds_of_numbers left right).1, (holds_of_numbers left right).2.1,
    decide_not]

/-- An order by the signs, the exponents and the fractions. -/
theorem order_by_parts (greater : Bool) :
    (if greater then FcmpPredicate.ogt else .olt).holds f a b =
      if f.sign (compared f a) = f.sign (compared f b) then
        if f.exponent (compared f a) = f.exponent (compared f b) then
          if decide (f.sign (compared f a) = 1) = greater
          then decide (f.fraction (compared f a) < f.fraction (compared f b))
          else decide (f.fraction (compared f b) < f.fraction (compared f a))
        else if decide (f.sign (compared f a) = 1) = greater
          then decide (f.exponent (compared f a) < f.exponent (compared f b))
          else decide (f.exponent (compared f b) < f.exponent (compared f a))
      else decide (f.sign (compared f (if greater then b else a)) = 1) := by
  obtain ⟨_, _, isGreater, isLess⟩ := holds_of_numbers left right
  cases greater with
  | true =>
      have order := key_lt_iff (f := f) (compared_pos b) (compared_pos a)
      rw [if_pos rfl, isGreater, ← key_compared a, ← key_compared b]
      simp only [order]
      by_cases same : f.sign (compared f a) = f.sign (compared f b)
      · by_cases equal : f.exponent (compared f a) = f.exponent (compared f b) <;>
          by_cases negative : f.sign (compared f b) = 1 <;>
            simp [same, equal, negative, eq_comm]
      · simp only [if_neg same, if_neg (Ne.symm same), if_true]
  | false =>
      have order := key_lt_iff (f := f) (compared_pos a) (compared_pos b)
      rw [if_neg Bool.false_ne_true, isLess, ← key_compared a, ← key_compared b]
      simp only [order]
      by_cases same : f.sign (compared f a) = f.sign (compared f b)
      · by_cases equal : f.exponent (compared f a) = f.exponent (compared f b) <;>
          by_cases negative : f.sign (compared f b) = 1 <;> simp [same, equal, negative]
      · simp only [if_neg same, Bool.false_eq_true, if_false]

end Parts

end GreenFuzz.Instrumentation
