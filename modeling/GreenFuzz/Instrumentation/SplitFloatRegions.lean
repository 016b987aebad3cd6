import GreenFuzz.Instrumentation.SplitCompareRegions
import GreenFuzz.Instrumentation.SplitFloatNumbers

/-!
# The blocks of the floating-point part compute a comparison

The region that takes the place of a comparison computes the comparison with the quiet predicate, on
the standard type of the size.
-/

set_option autoImplicit false

namespace GreenFuzz.Instrumentation

open Library StateTransition

/-! ## The numbers that come from the size -/

/-- What the pass computes from the size of a type is right for the standard type of the size. -/
structure Measures (size : ℕ) (format : FloatFormat) : Prop where
  width_eq : size = format.width
  precision_eq : precision size = format.fractionBits + 1
  nanLowend_eq : nanLowend size = format.infinite * 2
  maskExponent_eq : maskExponent size = 2 ^ format.exponentBits - 1
  maskFraction_eq : maskFraction size = 2 ^ format.fractionBits - 1
  exponent_fits : format.exponentBits ≤ exponentWidth size
  exponent_masked : exponentWidth size ≠ format.exponentBits →
    size - precision size < exTySizeBytes size * 8
  fraction_masked : precision size - 1 < frTySizeBytes size * 8
  not_truncated : size ≤ fractionTypeWidth size

theorem measures {type : FloatType} (small : type.size ≤ 64) :
    Measures type.size (standard type).format := by
  cases type with
  | fp128 => exact absurd small (by decide)
  | half => constructor <;> decide
  | bfloat => constructor <;> decide
  | float => constructor <;> decide
  | double => constructor <;> decide

/-! ## The parts of the regions -/

theorem positiveZero_lt {f : FloatFormat} {width pattern : ℕ} (below : pattern < 2 ^ width) :
    positiveZero f pattern < 2 ^ width := by
  rw [positiveZero]
  split
  · exact Nat.two_pow_pos _
  · exact below

section Parts

variable {M : Type} {new : ℕ} {cmp : Fcmp} {f : FloatFormat} (sized : Measures cmp.type.size f)

include sized

variable {x y : ℕ} {env env1 : Registers}

/-- A pattern shifted to the left has no sign bit. -/
theorem shifted_pattern (a : ℕ) :
    BinaryOp.shl.eval cmp.type.size (a % 2 ^ cmp.type.size) 1 = f.magnitude a * 2 := by
  have size : cmp.type.size = f.exponentBits + f.fractionBits + 1 := by
    rw [sized.width_eq, FloatFormat.width]
    omega
  have one : 1 % 2 ^ cmp.type.size = 1 := Nat.mod_eq_of_lt (Nat.one_lt_two_pow (by omega))
  simp only [BinaryOp.eval, one, Nat.mod_mod, Nat.shiftLeft_eq, pow_one]
  rw [Nat.mod_mul_mod, size, pow_succ, Nat.mul_mod_mul_right, FloatFormat.magnitude]

theorem ugt_nanLowend (a : ℕ) :
    IcmpPredicate.ugt.holds cmp.type.size (f.magnitude a * 2) (nanLowend cmp.type.size) =
      decide (f.IsNan a) := by
  have size : 2 ^ cmp.type.size = 2 ^ (f.exponentBits + f.fractionBits) * 2 := by
    rw [← pow_succ, sized.width_eq, FloatFormat.width]
    congr 1
    omega
  have pattern : f.magnitude a < 2 ^ (f.exponentBits + f.fractionBits) :=
    Nat.mod_lt _ (Nat.two_pow_pos _)
  have infinite : f.infinite < 2 ^ (f.exponentBits + f.fractionBits) := by
    rw [FloatFormat.infinite, pow_add]
    exact Nat.mul_lt_mul_of_pos_right (Nat.sub_lt (Nat.two_pow_pos _) (by norm_num))
      (Nat.two_pow_pos _)
  simp only [IcmpPredicate.holds, sized.nanLowend_eq, size, FloatFormat.IsNan]
  rw [Nat.mod_eq_of_lt (by omega), Nat.mod_eq_of_lt (by omega)]
  exact decide_eq_decide.mpr (by omega)

/-- What the first block leaves: the patterns, and whether one of them is a NaN. -/
theorem run_nanCheck (old1 : Old new cmp.op1) (env : Registers) (memory : M)
    (env1_eq : env1 = (runBody (nanCheck (M := M) new cmp) env memory).1) :
    env1 new = cmp.op0.read env % 2 ^ cmp.type.size ∧
      env1 (new + 1) = cmp.op1.read env % 2 ^ cmp.type.size ∧
      env1 (new + 6) =
        (decide (f.IsNan (cmp.op0.read env)) || decide (f.IsNan (cmp.op1.read env))).toNat := by
  have both : ∀ first second : Bool, BinaryOp.or.eval 1 first.toNat second.toNat =
      (first || second).toNat := by decide
  subst env1_eq
  refine ⟨?_, ?_, ?_⟩
  · simp [nanCheck, runBody, define_apply]
  · simp [nanCheck, runBody, define_apply, old1.read_define]
  · simp [nanCheck, runBody, define_apply, old1.read_define, shifted_pattern sized,
      ugt_nanLowend sized, both]

/-- A pattern is compared with the negative zero. -/
theorem eq_minusZero {pattern : ℕ} (below : pattern < 2 ^ cmp.type.size) :
    IcmpPredicate.eq.holds cmp.type.size pattern (1 <<< (cmp.type.size - 1)) =
      decide (pattern = 2 ^ (f.width - 1)) := by
  have zero : 2 ^ (cmp.type.size - 1) < 2 ^ cmp.type.size := by
    refine Nat.pow_lt_pow_right (by norm_num) ?_
    rw [sized.width_eq, FloatFormat.width]
    omega
  rw [← sized.width_eq]
  simp only [IcmpPredicate.holds, Nat.shiftLeft_eq, Nat.one_mul, Nat.mod_eq_of_lt below,
    Nat.mod_eq_of_lt zero]

theorem isolated_sign {pattern : ℕ} (below : pattern < 2 ^ cmp.type.size) :
    BinaryOp.lshr.eval cmp.type.size pattern (cmp.type.size - 1) % 2 = f.sign pattern := by
  have shift : cmp.type.size - 1 < 2 ^ cmp.type.size :=
    lt_of_le_of_lt (Nat.sub_le _ _) Nat.lt_two_pow_self
  simp only [BinaryOp.eval, Nat.mod_eq_of_lt below, Nat.mod_eq_of_lt shift, FloatFormat.sign,
    Nat.shiftRight_eq_div_pow]
  rw [sized.width_eq, width_pred]

/-- What the second block leaves: the patterns without the negative zero, their signs, and whether
these are equal. -/
theorem run_signCheck {a b : ℕ} (left : env new = a % 2 ^ cmp.type.size)
    (right : env (new + 1) = b % 2 ^ cmp.type.size) (memory : M)
    (env1_eq : env1 = (runBody (signCheck (M := M) new cmp) env memory).1) :
    (env1 (new + 9) = compared f a ∧ env1 (new + 10) = compared f b) ∧
      (env1 (new + 12) = f.sign (compared f a) ∧ env1 (new + 14) = f.sign (compared f b)) ∧
      env1 (new + 15) = (decide (f.sign (compared f a) = f.sign (compared f b))).toNat := by
  have below : ∀ value, value % 2 ^ cmp.type.size < 2 ^ cmp.type.size :=
    fun value => Nat.mod_lt _ (Nat.two_pow_pos _)
  have selected : ∀ value,
      (if (decide (value % 2 ^ cmp.type.size = 2 ^ (f.width - 1))).toNat % 2 = 1
        then 0 else value % 2 ^ cmp.type.size) % 2 ^ cmp.type.size = compared f value := by
    intro value
    rw [compared, positiveZero, ← sized.width_eq]
    by_cases zero : value % 2 ^ cmp.type.size = 2 ^ (cmp.type.size - 1)
    · simp [zero]
    · simp [zero]
  have small : ∀ value, compared f value < 2 ^ cmp.type.size := by
    intro value
    rw [compared, ← sized.width_eq]
    exact positiveZero_lt (below value)
  have same : IcmpPredicate.eq.holds 1 (f.sign (compared f a)) (f.sign (compared f b)) =
      decide (f.sign (compared f a) = f.sign (compared f b)) := by
    simp only [IcmpPredicate.holds, pow_one, Nat.mod_eq_of_lt (sign_lt_two _)]
  subst env1_eq
  simp [signCheck, runBody, define_apply, left, right, eq_minusZero sized, below, selected,
    isolated_sign sized, small, same]

/-- A comparison of what the instructions for the exponents leave is one of the exponents. -/
theorem run_exponents (below : x < 2 ^ cmp.type.size) (below' : y < 2 ^ cmp.type.size)
    (left : env (new + 9) = x) (right : env (new + 10) = y) (memory : M)
    (env1_eq : env1 = (runBody (exponents (M := M) new cmp) env memory).1) (dest : ℕ)
    (pred : IcmpPredicate) :
    exponentCmp new cmp dest pred = ⟨dest, pred, exponentWidth cmp.type.size,
        (exponentCmp new cmp dest pred).op0, (exponentCmp new cmp dest pred).op1⟩ ∧
      (exponentCmp new cmp dest pred).op0.read env1 = f.exponent x ∧
      (exponentCmp new cmp dest pred).op1.read env1 = f.exponent y := by
  have shift : precision cmp.type.size - 1 = f.fractionBits := by
    rw [sized.precision_eq, Nat.add_sub_cancel]
  have small : f.fractionBits < 2 ^ cmp.type.size := by
    refine Nat.lt_of_le_of_lt ?_ (Nat.lt_two_pow_self (n := cmp.type.size))
    rw [sized.width_eq, FloatFormat.width]
    omega
  have shifted : ∀ pattern < 2 ^ cmp.type.size,
      BinaryOp.lshr.eval cmp.type.size pattern (precision cmp.type.size - 1) =
        pattern / 2 ^ f.fractionBits := by
    intro pattern below
    simp only [BinaryOp.eval, shift, Nat.mod_eq_of_lt below, Nat.mod_eq_of_lt small,
      Nat.shiftRight_eq_div_pow]
  subst env1_eq
  by_cases masked : exponentMasked cmp = true
  · have mask : ∀ value, BinaryOp.and.eval (exponentWidth cmp.type.size)
        (value % 2 ^ exponentWidth cmp.type.size) (maskExponent cmp.type.size) =
          value % 2 ^ f.exponentBits := by
      intro value
      have fits : 2 ^ f.exponentBits ∣ 2 ^ exponentWidth cmp.type.size :=
        Nat.pow_dvd_pow 2 sized.exponent_fits
      have below : 2 ^ f.exponentBits - 1 < 2 ^ exponentWidth cmp.type.size :=
        Nat.lt_of_lt_of_le (Nat.sub_lt (Nat.two_pow_pos _) (by norm_num))
          (Nat.le_of_dvd (Nat.two_pow_pos _) fits)
      simp only [BinaryOp.eval, sized.maskExponent_eq, Nat.mod_mod, Nat.mod_eq_of_lt below]
      rw [Nat.and_two_pow_sub_one_eq_mod, Nat.mod_mod_of_dvd _ fits]
    simp [exponentCmp, exponents, masked, runBody, define_apply, left, right, shifted, below,
      below', mask, exponent_eq]
  · have width : exponentWidth cmp.type.size = f.exponentBits := by
      by_contra other
      exact masked (decide_eq_true (sized.exponent_masked other))
    simp [exponentCmp, exponents, masked, runBody, define_apply, left, right, shifted, below,
      below', width, exponent_eq]

theorem exponent_fits (pattern : ℕ) : f.exponent pattern < 2 ^ exponentWidth cmp.type.size :=
  Nat.lt_of_lt_of_le (exponent_lt pattern)
    (Nat.pow_le_pow_right (by norm_num) sized.exponent_fits)

theorem fraction_fits (pattern : ℕ) : f.fraction pattern < 2 ^ cmp.type.size := by
  refine Nat.lt_of_lt_of_le (fraction_lt pattern) (Nat.pow_le_pow_right (by norm_num) ?_)
  rw [sized.width_eq, FloatFormat.width]
  omega

/-- The comparison of the exponents after the instructions for them. -/
theorem run_exponentCmp (below : x < 2 ^ cmp.type.size) (below' : y < 2 ^ cmp.type.size)
    (left : env (new + 9) = x) (right : env (new + 10) = y) (memory : M) (dest : ℕ)
    (pred : IcmpPredicate) :
    runBody (exponents new cmp ++ [.icmp (exponentCmp new cmp dest pred)]) env memory =
      (define (runBody (exponents (M := M) new cmp) env memory).1 (some dest)
        (pred.holds (exponentWidth cmp.type.size) (f.exponent x) (f.exponent y)).toNat,
        memory) := by
  obtain ⟨fields, op0, op1⟩ := run_exponents sized below below' left right memory rfl dest pred
  have kept : (runBody (exponents (M := M) new cmp) env memory).2 = memory := by
    rw [exponents]
    split <;> rfl
  rw [runBody_append, kept]
  simp only [runBody, Instr.run_icmp, Instr.defines_icmp, op0, op1]
  rw [fields]

/-- The fractions keep the size of the type. -/
theorem fractionCmp_eq (dest : ℕ) (pred : IcmpPredicate) :
    fractionCmp new cmp dest pred =
      ⟨dest, pred, cmp.type.size, .reg (new + 25), .reg (new + 26)⟩ := by
  have masked : fractionMasked cmp = true := decide_eq_true sized.fraction_masked
  have full : needTrunc cmp = false := decide_eq_false (Nat.not_lt.mpr sized.not_truncated)
  simp [fractionCmp, masked, full]

/-- What the instructions for the fractions leave. -/
theorem run_fractions (below : x < 2 ^ cmp.type.size) (below' : y < 2 ^ cmp.type.size)
    (left : env (new + 9) = x) (right : env (new + 10) = y) (memory : M)
    (env1_eq : env1 = (runBody (fractions (M := M) new cmp) env memory).1) :
    env1 (new + 25) = f.fraction x ∧ env1 (new + 26) = f.fraction y := by
  have masked : fractionMasked cmp = true := decide_eq_true sized.fraction_masked
  have full : needTrunc cmp = false := decide_eq_false (Nat.not_lt.mpr sized.not_truncated)
  have mask : ∀ pattern < 2 ^ cmp.type.size, BinaryOp.and.eval cmp.type.size pattern
      (maskFraction cmp.type.size) = f.fraction pattern := by
    intro pattern below
    have small : 2 ^ f.fractionBits - 1 < 2 ^ cmp.type.size := by
      refine Nat.lt_of_lt_of_le (Nat.sub_lt (Nat.two_pow_pos _) (by norm_num))
        (Nat.pow_le_pow_right (by norm_num) ?_)
      rw [sized.width_eq, FloatFormat.width]
      omega
    simp only [BinaryOp.eval, sized.maskFraction_eq, Nat.mod_eq_of_lt below, Nat.mod_eq_of_lt small]
    rw [Nat.and_two_pow_sub_one_eq_mod, fraction_eq]
  subst env1_eq
  simp [fractions, masked, full, runBody, define_apply, left, right, mask, below, below']

omit sized in
theorem memory_fractions (env : Registers) (memory : M) :
    (runBody (fractions (M := M) new cmp) env memory).2 = memory := by
  rw [fractions]
  split <;> split <;> rfl

/-- The comparison of the fractions after the instructions for them. -/
theorem run_fractionCmp (below : x < 2 ^ cmp.type.size) (below' : y < 2 ^ cmp.type.size)
    (left : env (new + 9) = x) (right : env (new + 10) = y) (memory : M) (dest : ℕ)
    (pred : IcmpPredicate) :
    runBody (fractions new cmp ++ [.icmp (fractionCmp new cmp dest pred)]) env memory =
      (define (runBody (fractions (M := M) new cmp) env memory).1 (some dest)
        (pred.holds cmp.type.size (f.fraction x) (f.fraction y)).toNat, memory) := by
  obtain ⟨op0, op1⟩ := run_fractions sized below below' left right memory rfl
  rw [runBody_append, memory_fractions]
  simp only [runBody, fractionCmp_eq sized, Instr.run_icmp, Instr.defines_icmp, Operand.read_reg,
    op0, op1]

end Parts

/-! ## The regions -/

theorem holds_equality_small {width a b : ℕ} (below : a < 2 ^ width) (below' : b < 2 ^ width)
    (equal : Bool) : (if equal then IcmpPredicate.eq else .ne).holds width a b =
      (decide (a = b) == equal) := by
  cases equal <;> simp [IcmpPredicate.holds, Nat.mod_eq_of_lt below, Nat.mod_eq_of_lt below']

theorem holds_order_small {width a b : ℕ} (below : a < 2 ^ width) (below' : b < 2 ^ width)
    (greater : Bool) : (if greater then IcmpPredicate.ugt else .ult).holds width a b =
      decide (if greater then b < a else a < b) := by
  cases greater <;> simp [IcmpPredicate.holds, Nat.mod_eq_of_lt below, Nat.mod_eq_of_lt below']

section Regions

variable {M : Type} {new label : ℕ} {cmp : Fcmp}

theorem fresh_nanCheck : ∀ i ∈ nanCheck (M := M) new cmp, ∀ dest ∈ Instruction.defines i,
    new ≤ dest := by
  simp [nanCheck]

theorem fresh_signCheck : ∀ i ∈ signCheck (M := M) new cmp, ∀ dest ∈ Instruction.defines i,
    new ≤ dest := by
  simp [signCheck]

theorem fresh_exponents : ∀ i ∈ exponents (M := M) new cmp, ∀ dest ∈ Instruction.defines i,
    new + 16 ≤ dest := by
  by_cases masked : exponentMasked cmp = true <;> simp [exponents, masked]

theorem fresh_fractions : ∀ i ∈ fractions (M := M) new cmp, ∀ dest ∈ Instruction.defines i,
    new + 25 ≤ dest := by
  by_cases masked : fractionMasked cmp = true <;> by_cases cut : needTrunc cmp = true <;>
    simp [fractions, masked, cut]

theorem dest_exponentCmp (dest : ℕ) (pred : IcmpPredicate) :
    (exponentCmp new cmp dest pred).dest = dest := by
  rw [exponentCmp]
  split <;> rfl

theorem fresh_fpEquality (equal : Bool) :
    (fpEqualityRegion (M := M) new cmp label equal).Fresh new where
  front := fresh_nanCheck
  middle := by simp [fpEqualityRegion]
  bottom := by simp [fpEqualityRegion]
  distinct := by simp [fpEqualityRegion]

theorem fresh_fpOrder (greater : Bool) :
    (fpOrderRegion (M := M) new cmp label greater).Fresh new where
  front := fresh_nanCheck
  middle := by simp [fpOrderRegion]
  bottom := by simp [fpOrderRegion]
  distinct := by simp [fpOrderRegion]

theorem exponentCmp_operands (new : ℕ) (cmp : Fcmp) (dest : ℕ) (pred : IcmpPredicate) :
    Old (new + 22) (exponentCmp new cmp dest pred).op0 ∧
      Old (new + 22) (exponentCmp new cmp dest pred).op1 := by
  rw [exponentCmp]
  split <;> simp [Old, Operand.names]

theorem sign_bit_eq {f : FloatFormat} (bits : ℕ) :
    f.sign bits = (decide (f.sign bits = 1)).toNat := by
  have := sign_lt_two (f := f) bits
  by_cases one : f.sign bits = 1
  · simp [one]
  · simp only [one, decide_false, Bool.toNat_false]
    omega

/-- What holds after the check of the signs. -/
structure SignsChecked (new : ℕ) (f : FloatFormat) (a b : ℕ) (env env' : Registers) : Prop where
  agree : Agree new env env'
  left : env' (new + 9) = compared f a
  right : env' (new + 10) = compared f b
  sign_left : env' (new + 12) = f.sign (compared f a)
  sign_right : env' (new + 14) = f.sign (compared f b)

variable {f : FloatFormat} (sized : Measures cmp.type.size f)

include sized

variable {P : Program (Instr M)} {a b : ℕ} {env : Registers}

theorem compared_lt (a : ℕ) : compared f a < 2 ^ cmp.type.size := by
  rw [compared, ← sized.width_eq]
  exact positiveZero_lt (Nat.mod_lt _ (Nat.two_pow_pos _))

/-- The blocks that both regions begin with. -/
theorem reaches_signs (label : ℕ) {r : Region (Instr M)} (front : r.front = nanCheck new cmp)
    (exit : r.exit = .condBr (.reg (new + 6)) (new + 7) new)
    (nonan_bb : Program.block r.middle new =
      some ⟨new, [], signCheck new cmp, .condBr (.reg (new + 15)) (new + 1) (new + 7)⟩)
    (old1 : Old new cmp.op1) (env : Registers) (memory : M) (a_eq : a = cmp.op0.read env)
    (b_eq : b = cmp.op1.read env) :
    if f.IsNan a ∨ f.IsNan b then
      ∃ env', Agree new env env' ∧ Program.Reaches r.middle
        (leave label (runBody r.front env memory).1 (runBody r.front env memory).2 r.exit)
        (.entering (new + 7) (some label) env' memory)
    else
      ∃ env', SignsChecked new f a b env env' ∧ Program.Reaches r.middle
        (leave label (runBody r.front env memory).1 (runBody r.front env memory).2 r.exit)
        (.entering (if f.sign (compared f a) =
          f.sign (compared f b) then new + 1 else new + 7)
          (some new) env' memory) := by
  rw [front, exit]
  set env1 := (runBody (nanCheck (M := M) new cmp) env memory).1 with env1_eq
  have agree1 : Agree new env env1 := (Agree.refl new env).runBody_right fresh_nanCheck memory
  obtain ⟨left, right, nan_value⟩ := run_nanCheck sized old1 env memory env1_eq
  rw [← a_eq, ← b_eq] at nan_value
  rw [← a_eq] at left
  rw [← b_eq] at right
  have branch : leave label env1 memory (.condBr (.reg (new + 6)) (new + 7) new) = _ :=
    leave_condBr _ nan_value label (new + 7) new memory
  split
  · rename_i nan
    rw [if_pos (by simpa using nan)] at branch
    exact ⟨env1, agree1, branch ▸ .refl⟩
  · rename_i numbers
    rw [if_neg (by simpa using numbers)] at branch
    set env2 := (runBody (signCheck (M := M) new cmp) env1 memory).1 with env2_eq
    have agree2 : Agree new env env2 :=
      agree1.trans ((Agree.refl new env1).runBody_right fresh_signCheck memory)
    obtain ⟨⟨x, y⟩, ⟨sign, sign'⟩, same_value⟩ := run_signCheck sized left right memory env2_eq
    have branch2 : leave new env2 memory (.condBr (.reg (new + 15)) (new + 1) (new + 7)) = _ :=
      leave_condBr _ same_value new (new + 1) (new + 7) memory
    refine ⟨env2, ⟨agree2, x, y, sign, sign'⟩, branch ▸ Program.reaches_leave nonan_bb ?_⟩
    simp only [decide_eq_true_eq] at branch2
    exact branch2 ▸ .refl

/-- The block of the exponents. They can be compared again after it. -/
theorem reaches_exponents {pred : IcmpPredicate} {yes no : ℕ}
    (block : P.block (new + 1) = some ⟨new + 1, [],
      exponents new cmp ++ [.icmp (exponentCmp new cmp (new + 22) pred)],
      .condBr (.reg (new + 22)) yes no⟩) (left : env (new + 9) = compared f a)
    (right : env (new + 10) = compared f b) (memory : M) :
    ∃ env', Agree (new + 16) env env' ∧
      env' (new + 22) = (pred.holds (exponentWidth cmp.type.size) (f.exponent (compared f a))
        (f.exponent (compared f b))).toNat ∧
      (∀ dest pred', Instruction.run (Instr.icmp (exponentCmp new cmp dest pred')) env' memory =
        ((pred'.holds (exponentWidth cmp.type.size) (f.exponent (compared f a))
          (f.exponent (compared f b))).toNat, memory)) ∧
      P.Reaches (.entering (new + 1) (some new) env memory)
        (.entering (if pred.holds (exponentWidth cmp.type.size) (f.exponent (compared f a))
          (f.exponent (compared f b)) then yes else no) (some (new + 1)) env' memory) := by
  have run := run_exponentCmp sized (compared_lt sized a) (compared_lt sized b) left right memory
    (new + 22) pred
  set holds := pred.holds (exponentWidth cmp.type.size) (f.exponent (compared f a))
    (f.exponent (compared f b)) with holds_eq
  set env1 := (runBody (exponents (M := M) new cmp) env memory).1 with env1_eq
  have value : define env1 (some (new + 22)) holds.toNat (new + 22) = holds.toNat := by
    rw [define_apply, if_pos rfl]
  refine ⟨define env1 (some (new + 22)) holds.toNat, ?_, value, fun dest pred' => ?_, ?_⟩
  · exact ((Agree.refl _ env).runBody_right fresh_exponents memory).define_right (by omega) _
  · obtain ⟨fields, op0, op1⟩ := run_exponents sized (compared_lt sized a) (compared_lt sized b)
      left right memory env1_eq dest pred'
    obtain ⟨early0, early1⟩ := exponentCmp_operands new cmp dest pred'
    rw [Instr.run_icmp, early0.read_define (Nat.le_refl _), early1.read_define (Nat.le_refl _), op0,
      op1, fields]
  · refine Program.reaches_leave block ?_
    rw [run, leave_condBr _ value]
    exact .refl

/-- The block of the fractions. -/
theorem reaches_fractions {pred : IcmpPredicate}
    (block : P.block (new + 3) = some ⟨new + 3, [],
      fractions new cmp ++ [.icmp (fractionCmp new cmp (new + 29) pred)], .br (new + 7)⟩)
    (left : env (new + 9) = compared f a) (right : env (new + 10) = compared f b) (memory : M) :
    ∃ env', Agree (new + 25) env env' ∧
      env' (new + 29) = (pred.holds cmp.type.size (f.fraction (compared f a))
        (f.fraction (compared f b))).toNat ∧
      P.Reaches (.entering (new + 3) (some (new + 1)) env memory)
        (.entering (new + 7) (some (new + 3)) env' memory) := by
  have run := run_fractionCmp sized (compared_lt sized a) (compared_lt sized b) left right memory
    (new + 29) pred
  set holds := pred.holds cmp.type.size (f.fraction (compared f a)) (f.fraction (compared f b))
  refine ⟨define (runBody (fractions (M := M) new cmp) env memory).1 (some (new + 29))
    holds.toNat, ?_, ?_, ?_⟩
  · exact ((Agree.refl _ env).runBody_right fresh_fractions memory).define_right (by omega) _
  · rw [define_apply, if_pos rfl]
  · refine Program.reaches_leave block ?_
    rw [run]
    exact .refl

omit sized in
/-- Different exponents decide an order, those of negative numbers the other way round. -/
theorem reaches_exponentOrder (greater : Bool)
    (block : P.block (new + 2) = some ⟨new + 2, [],
      [.icmp (exponentCmp new cmp (new + 23) (if greater then .ugt else .ult)),
        .binary (new + 24) .xor 1 (.reg (new + 23)) (.reg (new + 12))], .br (new + 7)⟩)
    {width x y sign : ℕ} {memory : M} (sign_eq : env (new + 12) = sign) (bit : sign < 2)
    (run : ∀ dest pred, Instruction.run (Instr.icmp (exponentCmp new cmp dest pred)) env memory =
      ((pred.holds width x y).toNat, memory)) (below : x < 2 ^ width) (below' : y < 2 ^ width)
    (differ : x ≠ y) :
    ∃ env', Agree (new + 16) env env' ∧
      env' (new + 24) =
        (if decide (sign = 1) = greater then decide (x < y) else decide (y < x)).toNat ∧
      P.Reaches (.entering (new + 2) (some (new + 1)) env memory)
        (.entering (new + 7) (some (new + 2)) env' memory) := by
  set holds : Bool := (if greater then IcmpPredicate.ugt else .ult).holds width x y with holds_eq
  set env1 := define env (some (new + 23)) holds.toNat with env1_eq
  have xor_run : Instruction.run
      (Instr.binary (new + 24) .xor 1 (.reg (new + 23)) (.reg (new + 12))) env1 memory =
        ((holds ^^ decide (sign = 1)).toNat, memory) := by
    have both : ∀ first second : Bool, BinaryOp.xor.eval 1 first.toNat second.toNat =
        (first ^^ second).toNat := by decide
    have flag : sign = (decide (sign = 1)).toNat := by
      by_cases one : sign = 1
      · simp [one]
      · simp only [one, decide_false, Bool.toNat_false]
        omega
    rw [Instr.run_binary, Operand.read_reg, Operand.read_reg, env1_eq, define_apply, if_pos rfl,
      define_apply, if_neg (by simp), sign_eq, flag, both]
    simp
  refine ⟨define env1 (some (new + 24)) (holds ^^ decide (sign = 1)).toNat, ?_, ?_, ?_⟩
  · exact ((Agree.refl _ env).define_right (by omega) _).define_right (by omega) _
  · rw [define_apply, if_pos rfl, holds_eq, holds_order_small below below']
    rcases Nat.lt_or_gt_of_ne differ with less | less <;>
      by_cases negative : sign = 1 <;> cases greater <;> simp [negative, less, Nat.lt_asymm less]
  · refine Program.reaches_leave block ?_
    rw [runBody, run, Instr.defines_icmp, dest_exponentCmp, ← holds_eq, ← env1_eq, runBody, xor_run,
      Instr.defines_binary, runBody]
    exact .refl

/-- The fractions decide an order. Those of negative numbers are compared the other way round. -/
theorem reaches_fractionOrder (greater : Bool)
    (middle_bb : P.block (new + 3) = some ⟨new + 3, [], fractions new cmp,
      .condBr (.reg (new + 12)) (new + 4) (new + 5)⟩)
    (value_bb : ∀ turned : Bool, P.block (if turned then new + 4 else new + 5) =
      some ⟨if turned then new + 4 else new + 5, [],
        [.icmp (fractionCmp new cmp (if turned then new + 29 else new + 30)
          (if greater ^^ turned then .ugt else .ult))], .br (new + 6)⟩)
    (middle2_bb : P.block (new + 6) = some ⟨new + 6, [⟨new + 31, [(.reg (new + 29), new + 4),
      (.reg (new + 30), new + 5)]⟩], [], .br (new + 7)⟩) (left : env (new + 9) = compared f a)
    (right : env (new + 10) = compared f b) (sign : env (new + 12) = f.sign (compared f a))
    (memory : M) :
    ∃ env', Agree (new + 25) env env' ∧
      env' (new + 31) = (if decide (f.sign (compared f a) = 1) = greater
        then decide (f.fraction (compared f a) < f.fraction (compared f b))
        else decide (f.fraction (compared f b) < f.fraction (compared f a))).toNat ∧
      P.Reaches (.entering (new + 3) (some (new + 1)) env memory)
        (.entering (new + 7) (some (new + 6)) env' memory) := by
  set turned : Bool := decide (f.sign (compared f a) = 1) with turned_eq
  set env1 := (runBody (fractions (M := M) new cmp) env memory).1 with env1_eq
  have agree1 : Agree (new + 25) env env1 :=
    (Agree.refl _ env).runBody_right fresh_fractions memory
  obtain ⟨fraction0, fraction1⟩ := run_fractions sized (compared_lt sized a) (compared_lt sized b)
    left right memory env1_eq
  have sign1 : env1 (new + 12) = turned.toNat := by
    rw [← agree1 _ (by omega), sign, sign_bit_eq]
  set holds : Bool := (if greater ^^ turned then IcmpPredicate.ugt else .ult).holds cmp.type.size
    (f.fraction (compared f a)) (f.fraction (compared f b)) with holds_eq
  set env2 := define env1 (some (if turned then new + 29 else new + 30)) holds.toNat with env2_eq
  have fraction_run : runBody [Instr.icmp (fractionCmp new cmp (if turned then new + 29
      else new + 30) (if greater ^^ turned then .ugt else .ult))] env1 memory = (env2, memory) := by
    simp only [runBody, fractionCmp_eq sized, Instr.run_icmp, Instr.defines_icmp,
      Operand.read_reg, fraction0, fraction1, env2_eq, holds_eq]
  have phi_value : Phi.value ⟨new + 31, [(.reg (new + 29), new + 4), (.reg (new + 30), new + 5)]⟩
      (some (if turned then new + 4 else new + 5)) env2 = holds.toNat := by
    rw [env2_eq]
    cases turned <;> simp [Phi.value_cons, define_apply]
  refine ⟨define env2 (some (new + 31)) holds.toNat, ?_, ?_, ?_⟩
  · refine agree1.trans (((Agree.refl _ env1).define_right ?_ _).define_right (by omega) _)
    split <;> omega
  · rw [define_apply, if_pos rfl, holds_eq,
      holds_order_small (fraction_fits sized _) (fraction_fits sized _)]
    cases turned <;> cases greater <;> simp
  · refine Program.reaches_leave middle_bb ?_
    rw [memory_fractions, leave_condBr _ sign1]
    refine Program.reaches_leave (value_bb turned) ?_
    rw [fraction_run]
    refine Program.reaches_through middle2_bb _ _ _ ?_
    rw [Block.run, runPhis_singleton, phi_value]
    exact .refl

variable {type : FloatType} (format : type.format = f) (label_old : label < new)
  (old1 : Old new cmp.op1)

include format label_old old1

/-- The equality of numbers is decided by the signs, the exponents or the fractions. -/
theorem computes_fpEquality (equal : Bool) (nan_result : nanCmpResult cmp = (!equal).toNat) :
    (fpEqualityRegion new cmp label equal).Computes new label
      (Instr.fcmp (M := M) ⟨cmp.dest, if equal then .oeq else .une, type, cmp.op0, cmp.op1⟩) := by
  intro env memory
  have apart : ∀ number, new + number ≠ label := by omega
  obtain ⟨a, a_eq⟩ : ∃ a, a = cmp.op0.read env := ⟨_, rfl⟩
  obtain ⟨b, b_eq⟩ : ∃ b, b = cmp.op1.read env := ⟨_, rfl⟩
  set pred : IcmpPredicate := if equal then .eq else .ne with pred_eq
  have nonan_bb : Program.block (I := Instr M) (fpEqualityRegion new cmp label equal).middle new =
      some ⟨new, [], signCheck new cmp, .condBr (.reg (new + 15)) (new + 1) (new + 7)⟩ := by
    simp [Program.block, fpEqualityRegion]
  have run : (Instruction.run (Instr.fcmp (M := M)
      ⟨cmp.dest, if equal then .oeq else .une, type, cmp.op0, cmp.op1⟩) env memory).1 =
        ((if equal then FcmpPredicate.oeq else .une).holds f a b).toNat := by
    rw [Instr.run_fcmp, a_eq, b_eq, ← format]
  have signs := reaches_signs sized label rfl rfl nonan_bb old1 env memory a_eq b_eq
  rw [run]
  split at signs
  · rename_i nan
    obtain ⟨env1, agree1, path⟩ := signs
    refine ⟨label, env1, path, agree1, ?_⟩
    have value : (if equal then FcmpPredicate.oeq else .une).holds f a b = !equal := by
      have := holds_of_nan nan (if equal then FcmpPredicate.oeq else .une)
      cases equal <;> exact this
    rw [value, ← nan_result]
    cases equal <;> simp [fpEqualityRegion, Phi.value_cons, label_old.ne', apart]
  rename_i numbers
  obtain ⟨number, number'⟩ := not_or.mp numbers
  obtain ⟨env2, checked, path⟩ := signs
  have value : (if equal then FcmpPredicate.oeq else .une).holds f a b =
      (decide (f.sign (compared f a) = f.sign (compared f b) ∧
        f.exponent (compared f a) = f.exponent (compared f b) ∧
        f.fraction (compared f a) = f.fraction (compared f b)) == equal) := by
    cases equal
    · simpa using une_by_parts number number'
    · simpa using oeq_by_parts number number'
  rw [value]
  by_cases same : f.sign (compared f a) = f.sign (compared f b)
  swap
  · rw [if_neg same] at path
    refine ⟨new, env2, path, checked.agree, ?_⟩
    cases equal <;> simp [fpEqualityRegion, Phi.value_cons, same]
  rw [if_pos same] at path
  have signequal_bb : Program.block (I := Instr M) (fpEqualityRegion new cmp label equal).middle
      (new + 1) = some ⟨new + 1, [], exponents new cmp ++
        [.icmp (exponentCmp new cmp (new + 22) pred)],
        .condBr (.reg (new + 22)) (if equal then new + 3 else new + 7)
          (if equal then new + 7 else new + 3)⟩ := by
    cases equal <;> simp [Program.block, fpEqualityRegion, pred_eq]
  obtain ⟨env3, agree3, exponent_value, -, through⟩ :=
    reaches_exponents sized signequal_bb checked.left checked.right memory
  rw [holds_equality_small (exponent_fits sized _) (exponent_fits sized _)]
    at exponent_value through
  have branch : (if (decide (f.exponent (compared f a) = f.exponent (compared f b)) == equal) = true
      then if equal then new + 3 else new + 7 else if equal then new + 7 else new + 3) =
        if f.exponent (compared f a) = f.exponent (compared f b) then new + 3 else new + 7 := by
    by_cases exponents : f.exponent (compared f a) = f.exponent (compared f b) <;>
      cases equal <;> simp [exponents]
  rw [branch] at through
  by_cases exponents : f.exponent (compared f a) = f.exponent (compared f b)
  swap
  · rw [if_neg exponents] at through
    refine ⟨new + 1, env3, path.trans through, checked.agree.trans (agree3.weaken (by omega)), ?_⟩
    cases equal <;> simp [fpEqualityRegion, Phi.value_cons, exponent_value, same, exponents]
  rw [if_pos exponents] at through
  have middle_bb : Program.block (I := Instr M) (fpEqualityRegion new cmp label equal).middle
      (new + 3) = some ⟨new + 3, [], fractions new cmp ++
        [.icmp (fractionCmp new cmp (new + 29) pred)], .br (new + 7)⟩ := by
    simp [Program.block, fpEqualityRegion, pred_eq]
  obtain ⟨env4, agree4, fraction_value, rest⟩ := reaches_fractions sized middle_bb
    ((agree3 _ (by omega)).symm.trans checked.left)
    ((agree3 _ (by omega)).symm.trans checked.right) memory
  rw [holds_equality_small (fraction_fits sized _) (fraction_fits sized _)] at fraction_value
  refine ⟨new + 3, env4, path.trans (through.trans rest), checked.agree.trans
    ((agree3.weaken (by omega)).trans (agree4.weaken (by omega))), ?_⟩
  cases equal <;> simp [fpEqualityRegion, Phi.value_cons, fraction_value, same, exponents]

/-- An order of numbers is decided by the signs, the exponents or the fractions. -/
theorem computes_fpOrder (greater : Bool) (nan_result : nanCmpResult cmp = 0) :
    (fpOrderRegion new cmp label greater).Computes new label
      (Instr.fcmp (M := M) ⟨cmp.dest, if greater then .ogt else .olt, type, cmp.op0, cmp.op1⟩) := by
  intro env memory
  have apart : ∀ number, new + number ≠ label := by omega
  obtain ⟨a, a_eq⟩ : ∃ a, a = cmp.op0.read env := ⟨_, rfl⟩
  obtain ⟨b, b_eq⟩ : ∃ b, b = cmp.op1.read env := ⟨_, rfl⟩
  have nonan_bb : Program.block (I := Instr M) (fpOrderRegion new cmp label greater).middle new =
      some ⟨new, [], signCheck new cmp, .condBr (.reg (new + 15)) (new + 1) (new + 7)⟩ := by
    simp [Program.block, fpOrderRegion]
  have run : (Instruction.run (Instr.fcmp (M := M)
      ⟨cmp.dest, if greater then .ogt else .olt, type, cmp.op0, cmp.op1⟩) env memory).1 =
        ((if greater then FcmpPredicate.ogt else .olt).holds f a b).toNat := by
    rw [Instr.run_fcmp, a_eq, b_eq, ← format]
  have signs := reaches_signs sized label rfl rfl nonan_bb old1 env memory a_eq b_eq
  rw [run]
  split at signs
  · rename_i nan
    obtain ⟨env1, agree1, path⟩ := signs
    refine ⟨label, env1, path, agree1, ?_⟩
    have value : (if greater then FcmpPredicate.ogt else .olt).holds f a b = false := by
      have := holds_of_nan nan (if greater then FcmpPredicate.ogt else .olt)
      cases greater <;> exact this
    simp [fpOrderRegion, Phi.value_cons, label_old.ne', apart, value, nan_result]
  rename_i numbers
  obtain ⟨number, number'⟩ := not_or.mp numbers
  obtain ⟨env2, checked, path⟩ := signs
  rw [order_by_parts number number']
  by_cases same : f.sign (compared f a) = f.sign (compared f b)
  swap
  · rw [if_neg same] at path
    refine ⟨new, env2, path, checked.agree, ?_⟩
    cases greater
    · simp [fpOrderRegion, Phi.value_cons, same, checked.sign_left, ← sign_bit_eq]
    · simp [fpOrderRegion, Phi.value_cons, same, checked.sign_right, ← sign_bit_eq]
  rw [if_pos same] at path
  have signequal_bb : Program.block (I := Instr M) (fpOrderRegion new cmp label greater).middle
      (new + 1) = some ⟨new + 1, [], exponents new cmp ++
        [.icmp (exponentCmp new cmp (new + 22) .eq)],
        .condBr (.reg (new + 22)) (new + 3) (new + 2)⟩ := by
    simp [Program.block, fpOrderRegion]
  obtain ⟨env3, agree3, -, exponent_run, through⟩ :=
    reaches_exponents sized signequal_bb checked.left checked.right memory
  have equality := holds_equality_small (exponent_fits sized (compared f a))
    (exponent_fits sized (compared f b)) true
  simp only [if_true, beq_true] at equality
  rw [equality] at through
  have sign3 : env3 (new + 12) = f.sign (compared f a) :=
    (agree3 _ (by omega)).symm.trans checked.sign_left
  by_cases exponents : f.exponent (compared f a) = f.exponent (compared f b)
  · rw [if_pos (decide_eq_true exponents)] at through
    obtain ⟨env4, agree4, value, rest⟩ := reaches_fractionOrder sized greater
      (P := (fpOrderRegion new cmp label greater).middle)
      (by simp [Program.block, fpOrderRegion])
      (by rintro (_ | _) <;> cases greater <;> simp [Program.block, fpOrderRegion])
      (by simp [Program.block, fpOrderRegion]) ((agree3 _ (by omega)).symm.trans checked.left)
      ((agree3 _ (by omega)).symm.trans checked.right) sign3 memory
    refine ⟨new + 6, env4, path.trans (through.trans rest), checked.agree.trans
      ((agree3.weaken (by omega)).trans (agree4.weaken (by omega))), ?_⟩
    rw [if_pos same, if_pos exponents, ← value]
    simp [fpOrderRegion, Phi.value_cons]
  · rw [if_neg (by simpa using exponents)] at through
    obtain ⟨env4, agree4, value, rest⟩ := reaches_exponentOrder greater
      (P := (fpOrderRegion new cmp label greater).middle) (by simp [Program.block, fpOrderRegion])
      sign3 (sign_lt_two _) exponent_run (exponent_fits sized _) (exponent_fits sized _) exponents
    refine ⟨new + 2, env4, path.trans (through.trans rest), checked.agree.trans
      ((agree3.weaken (by omega)).trans (agree4.weaken (by omega))), ?_⟩
    rw [if_pos same, if_neg exponents, ← value]
    simp [fpOrderRegion, Phi.value_cons]

end Regions

end GreenFuzz.Instrumentation
