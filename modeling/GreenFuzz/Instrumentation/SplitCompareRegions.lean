import GreenFuzz.Instrumentation.SplitCompares

/-!
# The blocks of the split-compares pass compute the comparison

Each region of the pass leads to the second half of the block with the value that the comparison
would have had. The arithmetic is in four lemmas about the predicates: a comparison by a strict one
and equality, a signed one by the sign bits, and an equality and an order by halves.
-/

set_option autoImplicit false

namespace GreenFuzz.Instrumentation

open Library StateTransition

/-! ## The predicates -/

theorem holds_orEquals {pred strict : IcmpPredicate} (isStrict : strictPredicate pred = some strict)
    (width a b : ℕ) :
    pred.holds width a b = (strict.holds width a b || IcmpPredicate.eq.holds width a b) := by
  have signed : (a % 2 ^ width = b % 2 ^ width) ↔
      signedValue width a = signedValue width b := by
    rw [signedValue, signedValue, BitVec.toInt_inj, BitVec.toNat_eq, BitVec.toNat_ofNat,
      BitVec.toNat_ofNat]
  cases pred <;> simp only [strictPredicate, reduceCtorEq, Option.some.injEq] at isStrict <;>
    subst isStrict <;>
    rw [Bool.eq_iff_iff] <;>
    simp only [IcmpPredicate.holds, Bool.or_eq_true, decide_eq_true_eq, signed] <;>
    omega

/-- The sign bit of an operand. -/
def signBit (width a : ℕ) : ℕ := (a % 2 ^ width) >>> (width - 1) % 2

theorem holds_signed {pred : IcmpPredicate} (isSigned : pred = .sgt ∨ pred = .slt) {width : ℕ}
    (positive : 0 < width) (a b : ℕ) :
    pred.holds width a b =
      if signBit width a = signBit width b then (unsignedPredicate pred).holds width a b
      else (if pred = .sgt then IcmpPredicate.ult else .ugt).holds 1 (signBit width a)
        (signBit width b) := by
  have below := Nat.mod_lt a (Nat.two_pow_pos width)
  have below' := Nat.mod_lt b (Nat.two_pow_pos width)
  have powers : ((2 ^ width : ℕ) : ℤ) = 2 ^ width := by push_cast; rfl
  rw [signBit, signBit, sign_bit positive, sign_bit positive, Bool.eq_iff_iff]
  rcases isSigned with rfl | rfl
  all_goals
    simp only [IcmpPredicate.holds, unsignedPredicate, signedValue_eq, ← powers]
    generalize a % 2 ^ width = x at *
    generalize b % 2 ^ width = y at *
    generalize 2 ^ width = all at *
    generalize 2 ^ (width - 1) = half at *
    by_cases high : half ≤ x <;> by_cases high' : half ≤ y <;>
      simp [high, high'] <;> omega

section Halves

variable {width : ℕ} (even : width = 2 * (width / 2)) (a b : ℕ)

/-- The upper half of an operand, as the pass computes it. -/
def highHalf (width a : ℕ) : ℕ := (a % 2 ^ width) >>> (width / 2) % 2 ^ (width / 2)

include even

theorem by_halves : a % 2 ^ width =
    2 ^ (width / 2) * highHalf width a + a % 2 ^ (width / 2) := by
  rw [highHalf]
  generalize width / 2 = half at *
  subst even
  rw [shifted_half]
  exact halves half a

theorem holds_equality {pred : IcmpPredicate} (equality : pred = .eq ∨ pred = .ne) :
    pred.holds width a b =
      if pred.holds (width / 2) (highHalf width a) (highHalf width b) = (pred = .eq : Bool)
      then pred.holds (width / 2) a b else pred ≠ .eq := by
  have halves_eq := eq_by_halves (highHalf width a) (highHalf width b)
    (Nat.mod_lt a (Nat.two_pow_pos (width / 2))) (Nat.mod_lt b (Nat.two_pow_pos (width / 2)))
  have mod_high : ∀ value, highHalf width value % 2 ^ (width / 2) = highHalf width value :=
    fun value => Nat.mod_mod _ _
  rw [← by_halves even a, ← by_halves even b] at halves_eq
  rw [Bool.eq_iff_iff]
  rcases equality with rfl | rfl <;>
    simp only [IcmpPredicate.holds, mod_high, halves_eq] <;>
    by_cases same : highHalf width a = highHalf width b <;> simp [same, halves_eq]

theorem holds_order {pred inverse : IcmpPredicate}
    (isInverse : inversePredicate pred = some inverse) :
    pred.holds width a b =
      if pred.holds (width / 2) (highHalf width a) (highHalf width b) then true
      else if inverse.holds (width / 2) (highHalf width a) (highHalf width b) then false
      else pred.holds (width / 2) a b := by
  have less := lt_by_halves (highHalf width a) (highHalf width b)
    (Nat.mod_lt a (Nat.two_pow_pos (width / 2))) (Nat.mod_lt b (Nat.two_pow_pos (width / 2)))
  have greater := lt_by_halves (highHalf width b) (highHalf width a)
    (Nat.mod_lt b (Nat.two_pow_pos (width / 2))) (Nat.mod_lt a (Nat.two_pow_pos (width / 2)))
  have mod_high : ∀ value, highHalf width value % 2 ^ (width / 2) = highHalf width value :=
    fun value => Nat.mod_mod _ _
  rw [← by_halves even a, ← by_halves even b] at less greater
  rw [Bool.eq_iff_iff]
  cases pred <;> simp only [inversePredicate, reduceCtorEq, Option.some.injEq] at isInverse <;>
    subst isInverse <;>
    simp only [IcmpPredicate.holds, mod_high, less, greater] <;>
    rcases Nat.lt_trichotomy (highHalf width a) (highHalf width b) with low | same | high <;>
    simp <;> omega

end Halves

/-! ## The regions -/

section Regions

variable {M : Type} {new label : ℕ} {cmp : Icmp}

/-- The operand reads no new register. -/
def Old (new : ℕ) (op : Operand) : Prop := ∀ name ∈ op.names, name < new

theorem Old.read_define {op : Operand} (old : Old new op) {dest : ℕ} (fresh : new ≤ dest)
    (env : Registers) (value : ℕ) : op.read (define env (some dest) value) = op.read env :=
  (Agree.define_right (.refl new env) fresh value).read old |>.symm

theorem fresh_either {dest : ℕ} {first second : Instr M}
    (defines : Instruction.defines first = some new) :
    (eitherRegion new label dest first second).Fresh new where
  front := by simp [eitherRegion, defines]
  middle := by simp [eitherRegion]
  bottom := by simp [eitherRegion]
  distinct := by simp [eitherRegion]

/-- One comparison or the other is the comparison. -/
theorem computes_either {dest : ℕ} {first second whole : Instr M} {holds holds' : Registers → Bool}
    (label_old : label < new) (defines : Instruction.defines first = some new)
    (defines' : Instruction.defines second = some (new + 1))
    (run : ∀ env memory, Instruction.run first env memory = ((holds env).toNat, memory))
    (run' : ∀ env memory, Instruction.run second env memory = ((holds' env).toNat, memory))
    (either : ∀ env memory, Instruction.run whole env memory =
      ((holds env || holds' env).toNat, memory))
    (old : ∀ env env', Agree new env env' → holds' env' = holds' env) :
    (eitherRegion new label dest first second).Computes new label whole := by
  intro env memory
  set env1 := define env (some new) (holds env).toNat with env1_eq
  have agree1 : Agree new env env1 := (Agree.refl new env).define_right (Nat.le_refl _) _
  have front : runBody [first] env memory = (env1, memory) := by
    rw [runBody, run, defines, ← env1_eq, runBody]
  have middle_bb : Program.block (eitherRegion new label dest first second).middle new =
      some ⟨new, [], [second], .br (new + 1)⟩ := by
    simp [Program.block, eitherRegion]
  have exit : leave label (runBody [first] env memory).1 (runBody [first] env memory).2
      (.condBr (.reg new) (new + 1) new) =
        .entering (if holds env then new + 1 else new) (some label) env1 memory := by
    rw [front]
    exact leave_condBr (holds env) (by simp [env1_eq, define_apply]) _ _ _ _
  rw [either]
  cases first_holds : holds env with
  | true =>
      rw [first_holds, if_pos rfl] at exit
      refine ⟨label, env1, exit ▸ .refl, agree1, ?_⟩
      simp [eitherRegion, Phi.value_cons, label_old.ne']
  | false =>
      rw [first_holds, if_neg Bool.false_ne_true] at exit
      refine ⟨new, define env1 (some (new + 1)) (holds' env).toNat, ?_,
        agree1.define_right (by omega) _, ?_⟩
      · refine exit ▸ Program.reaches_leave middle_bb ?_
        rw [runBody, run', defines', old env env1 agree1]
        exact .refl
      · simp [eitherRegion, Phi.value_cons, define_apply]

theorem fresh_orEquals (pred : IcmpPredicate) :
    (orEqualsRegion (M := M) new label cmp pred).Fresh new :=
  fresh_either rfl

theorem computes_orEquals (label_old : label < new) (old0 : Old new cmp.op0)
    (old1 : Old new cmp.op1) {pred : IcmpPredicate}
    (isStrict : strictPredicate cmp.pred = some pred) :
    (orEqualsRegion new label cmp pred).Computes new label (Instr.icmp (M := M) cmp) := by
  refine computes_either label_old rfl rfl (fun _ _ => rfl) (fun _ _ => rfl) (fun env memory => ?_)
    fun env env' agree => ?_
  · rw [Instr.run_icmp, holds_orEquals isStrict]
  · dsimp only
    rw [← agree.read old0, ← agree.read old1]

theorem fresh_signed : (signedRegion (M := M) new cmp).Fresh new where
  front := by simp [signedRegion]
  middle := by simp [signedRegion]
  bottom := by simp [signedRegion]
  distinct := by simp [signedRegion]

theorem eq_holds_bit (width a b : ℕ) :
    IcmpPredicate.eq.holds 1 (signBit width a) (signBit width b) =
      decide (signBit width a = signBit width b) := by
  have bit : ∀ value, signBit width value % 2 = signBit width value := fun value => Nat.mod_mod _ _
  simp only [IcmpPredicate.holds, pow_one, bit]

/-- Where the sign bits are equal the unsigned comparison decides, and elsewhere the sign bits. -/
theorem computes_signed (old0 : Old new cmp.op0) (old1 : Old new cmp.op1)
    (isSigned : cmp.pred = .sgt ∨ cmp.pred = .slt) (positive : 0 < cmp.width) :
    (signedRegion new cmp).Computes new label (Instr.icmp (M := M) cmp) := by
  intro env memory
  set a := cmp.op0.read env with a_eq
  set b := cmp.op1.read env with b_eq
  set inverse : IcmpPredicate := if cmp.pred = .sgt then .ult else .ugt with inverse_eq
  set env1 := (runBody (signedRegion new cmp).front env memory).1 with env1_eq
  have agree1 : Agree new env env1 := (Agree.refl new env).runBody_right fresh_signed.front memory
  have shift : (cmp.width - 1) % 2 ^ cmp.width = cmp.width - 1 :=
    Nat.mod_eq_of_lt (lt_of_le_of_lt (Nat.sub_le _ _) Nat.lt_two_pow_self)
  have front : env1 (new + 1) = signBit cmp.width a ∧ env1 (new + 3) = signBit cmp.width b ∧
      env1 (new + 4) =
        (IcmpPredicate.eq.holds 1 (signBit cmp.width a) (signBit cmp.width b)).toNat := by
    simp [env1_eq, signedRegion, runBody, define_apply, signBit, BinaryOp.eval, old1.read_define,
      shift, ← a_eq, ← b_eq]
  obtain ⟨sign0, sign1, same_value⟩ := front
  rw [eq_holds_bit] at same_value
  have sign_bb : Program.block (I := Instr M) (signedRegion new cmp).middle new =
      some ⟨new, [], [.icmp ⟨new + 5, inverse, 1, .reg (new + 1), .reg (new + 3)⟩],
        .br (new + 2)⟩ := by
    simp [Program.block, signedRegion, inverse_eq]
  have middle_bb : Program.block (I := Instr M) (signedRegion new cmp).middle (new + 1) =
      some ⟨new + 1, [], [.icmp ⟨new + 6, unsignedPredicate cmp.pred, cmp.width, cmp.op0, cmp.op1⟩],
        .br (new + 2)⟩ := by
    simp [Program.block, signedRegion]
  have value : (Instruction.run (Instr.icmp cmp) env memory).1 = _ :=
    congrArg Bool.toNat (holds_signed isSigned positive a b)
  rw [value]
  by_cases same : signBit cmp.width a = signBit cmp.width b
  · refine ⟨new + 1, define env1 (some (new + 6)) ((unsignedPredicate cmp.pred).holds cmp.width
      (cmp.op0.read env1) (cmp.op1.read env1)).toNat, ?_, agree1.define_right (by omega) _, ?_⟩
    · show Program.Reaches _ (leave label env1 memory (.condBr (.reg (new + 4)) (new + 1) new)) _
      rw [leave_condBr true (by simp [same_value, same])]
      exact Program.reaches_leave middle_bb .refl
    · simp [signedRegion, Phi.value_cons, define_apply, ← agree1.read old0, ← agree1.read old1,
        ← a_eq, ← b_eq, same]
  · refine ⟨new, define env1 (some (new + 5)) (inverse.holds 1 (env1 (new + 1))
      (env1 (new + 3))).toNat, ?_, agree1.define_right (by omega) _, ?_⟩
    · show Program.Reaches _ (leave label env1 memory (.condBr (.reg (new + 4)) (new + 1) new)) _
      rw [leave_condBr false (by simp [same_value, same])]
      exact Program.reaches_leave sign_bb .refl
    · simp [signedRegion, Phi.value_cons, define_apply, sign0, sign1, same, ← inverse_eq]

/-- What the instructions for the upper halves leave. -/
theorem run_highHalves (old1 : Old new cmp.op1) (env : Registers) (memory : M) {env1 : Registers}
    (env1_eq : env1 =
      (runBody (highHalves new cmp ++ [Instr.icmp (icmpHigh new cmp)]) env memory).1) :
    env1 (new + 1) = highHalf cmp.width (cmp.op0.read env) ∧
      env1 (new + 3) = highHalf cmp.width (cmp.op1.read env) ∧
      env1 (new + 4) = (cmp.pred.holds (cmp.width / 2) (highHalf cmp.width (cmp.op0.read env))
        (highHalf cmp.width (cmp.op1.read env))).toNat := by
  have shift : cmp.width / 2 % 2 ^ cmp.width = cmp.width / 2 :=
    Nat.mod_eq_of_lt (lt_of_le_of_lt (Nat.div_le_self _ _) Nat.lt_two_pow_self)
  subst env1_eq
  simp [highHalves, icmpHigh, runBody, define_apply, highHalf, BinaryOp.eval, old1.read_define,
    shift]

/-- The comparison of the lower halves reads them modulo their width. -/
theorem holds_lowHalves {pred : IcmpPredicate} (unsigned : pred = .eq ∨ pred = .ne ∨
    pred = .ugt ∨ pred = .ult) (half a b : ℕ) :
    pred.holds half (a % 2 ^ half) (b % 2 ^ half) = pred.holds half a b := by
  rcases unsigned with rfl | rfl | rfl | rfl <;> simp only [IcmpPredicate.holds, Nat.mod_mod]

/-- What the instructions for the lower halves leave. -/
theorem run_lowHalves (old1 : Old new cmp.op1)
    (unsigned : cmp.pred = .eq ∨ cmp.pred = .ne ∨ cmp.pred = .ugt ∨ cmp.pred = .ult)
    (env : Registers) (memory : M) {env2 : Registers}
    (env2_eq : env2 =
      (runBody (lowHalves new cmp ++ [Instr.icmp (icmpLow new cmp)]) env memory).1) :
    env2 (new + 7) = (cmp.pred.holds (cmp.width / 2) (cmp.op0.read env)
      (cmp.op1.read env)).toNat := by
  rw [← holds_lowHalves unsigned, env2_eq]
  simp [lowHalves, icmpLow, runBody, define_apply, old1.read_define]

theorem fresh_equality : (equalityRegion (M := M) new label cmp).Fresh new where
  front := by simp [equalityRegion, highHalves, icmpHigh]
  middle := by simp [equalityRegion]
  bottom := by simp [equalityRegion]
  distinct := by simp [equalityRegion]

theorem fresh_lowHalves : ∀ i ∈ lowHalves new cmp ++ [Instr.icmp (M := M) (icmpLow new cmp)],
    ∀ dest ∈ Instruction.defines i, new ≤ dest := by
  simp [lowHalves, icmpLow]

/-- An equality is decided by the upper halves, or by the lower ones. -/
theorem computes_equality (label_old : label < new) (old0 : Old new cmp.op0)
    (old1 : Old new cmp.op1) (equality : cmp.pred = .eq ∨ cmp.pred = .ne)
    (even : cmp.width = 2 * (cmp.width / 2)) :
    (equalityRegion new label cmp).Computes new label (Instr.icmp (M := M) cmp) := by
  intro env memory
  set a := cmp.op0.read env with a_eq
  set b := cmp.op1.read env with b_eq
  set env1 := (runBody (equalityRegion new label cmp).front env memory).1 with env1_eq
  have agree1 : Agree new env env1 :=
    (Agree.refl new env).runBody_right fresh_equality.front memory
  obtain ⟨high0, high1, high_value⟩ := run_highHalves old1 env memory env1_eq
  set env2 := (runBody (lowHalves new cmp ++ [Instr.icmp (icmpLow new cmp)]) env1 memory).1
    with env2_eq
  have low_value := run_lowHalves old1 (by tauto) env1 memory env2_eq
  rw [← agree1.read old0, ← agree1.read old1, ← a_eq, ← b_eq] at low_value
  have cmp_low_bb : Program.block (I := Instr M) (equalityRegion new label cmp).middle new =
      some ⟨new, [], lowHalves new cmp ++ [.icmp (icmpLow new cmp)], .br (new + 1)⟩ := by
    simp [Program.block, equalityRegion]
  have value : (Instruction.run (Instr.icmp cmp) env memory).1 = _ :=
    congrArg Bool.toNat (holds_equality even a b equality)
  rw [← a_eq, ← b_eq] at high_value
  -- The lower halves are compared where the upper ones leave the result open.
  have branch : leave label env1 memory (equalityRegion (M := M) new label cmp).exit =
      .entering (if cmp.pred.holds (cmp.width / 2) (highHalf cmp.width a) (highHalf cmp.width b) =
        decide (cmp.pred = .eq) then new else new + 1) (some label) env1 memory := by
    rw [equalityRegion]
    rcases equality with isEq | isNe
    · rw [if_pos isEq, leave_condBr _ high_value, isEq]
      simp
    · rw [if_neg (by simp [isNe]), leave_condBr _ high_value, isNe]
      cases IcmpPredicate.ne.holds (cmp.width / 2) (highHalf cmp.width a) (highHalf cmp.width b) <;>
        simp
  rw [value]
  by_cases undecided : cmp.pred.holds (cmp.width / 2) (highHalf cmp.width a)
      (highHalf cmp.width b) = decide (cmp.pred = .eq)
  · rw [if_pos undecided] at branch ⊢
    refine ⟨new, env2, ?_, agree1.trans ((Agree.refl _ _).runBody_right fresh_lowHalves memory), ?_⟩
    · exact branch ▸ Program.reaches_leave cmp_low_bb .refl
    · simp [equalityRegion, Phi.value_cons, low_value]
  · rw [if_neg undecided] at branch ⊢
    refine ⟨label, env1, branch ▸ .refl, agree1, ?_⟩
    simp only [equalityRegion, Phi.value_cons, label_old.ne', if_false, if_true,
      Operand.read_const]
    by_cases isEq : cmp.pred = .eq <;> simp [isEq]

theorem fresh_order (inverse : IcmpPredicate) :
    (orderRegion (M := M) new label cmp inverse).Fresh new where
  front := by simp [orderRegion, highHalves, icmpHigh]
  middle := by simp [orderRegion]
  bottom := by simp [orderRegion]
  distinct := by simp [orderRegion]

/-- An order is decided by the upper halves, this way or the other way round, or by the lower
ones. -/
theorem computes_order (label_old : label < new) (old0 : Old new cmp.op0)
    (old1 : Old new cmp.op1) {inverse : IcmpPredicate}
    (isInverse : inversePredicate cmp.pred = some inverse)
    (even : cmp.width = 2 * (cmp.width / 2)) :
    (orderRegion new label cmp inverse).Computes new label (Instr.icmp (M := M) cmp) := by
  intro env memory
  set a := cmp.op0.read env with a_eq
  set b := cmp.op1.read env with b_eq
  set env1 := (runBody (orderRegion new label cmp inverse).front env memory).1 with env1_eq
  have agree1 : Agree new env env1 :=
    (Agree.refl new env).runBody_right (fresh_order inverse).front memory
  obtain ⟨high0, high1, high_value⟩ := run_highHalves old1 env memory env1_eq
  rw [← a_eq, ← b_eq] at high_value
  set env2 := define env1 (some (new + 8)) (inverse.holds (cmp.width / 2) (env1 (new + 1))
    (env1 (new + 3))).toNat with env2_eq
  have agree2 : Agree new env env2 := agree1.define_right (by omega) _
  have inv_value : env2 (new + 8) = (inverse.holds (cmp.width / 2) (highHalf cmp.width a)
      (highHalf cmp.width b)).toNat := by
    simp [env2_eq, define_apply, high0, high1, ← a_eq, ← b_eq]
  set env3 := (runBody (lowHalves new cmp ++ [Instr.icmp (icmpLow new cmp)]) env2 memory).1
    with env3_eq
  have unsigned : cmp.pred = .eq ∨ cmp.pred = .ne ∨ cmp.pred = .ugt ∨ cmp.pred = .ult := by
    cases pred : cmp.pred <;> simp [pred, inversePredicate] at isInverse ⊢
  have low_value := run_lowHalves old1 unsigned env2 memory env3_eq
  rw [← agree2.read old0, ← agree2.read old1, ← a_eq, ← b_eq] at low_value
  have inv_cmp_bb : Program.block (I := Instr M) (orderRegion new label cmp inverse).middle new =
      some ⟨new, [], [.icmp (icmpInv new cmp inverse)],
        .condBr (.reg (new + 8)) (new + 2) (new + 1)⟩ := by
    simp [Program.block, orderRegion]
  have cmp_low_bb : Program.block (I := Instr M) (orderRegion new label cmp inverse).middle
      (new + 1) = some ⟨new + 1, [], lowHalves new cmp ++ [.icmp (icmpLow new cmp)],
        .br (new + 2)⟩ := by
    simp [Program.block, orderRegion]
  have value : (Instruction.run (Instr.icmp cmp) env memory).1 = _ :=
    congrArg Bool.toNat (holds_order even a b isInverse)
  have branch : leave label env1 memory (orderRegion (M := M) new label cmp inverse).exit = _ :=
    leave_condBr _ high_value label (new + 2) new memory
  have branch' : leave new env2 memory (.condBr (.reg (new + 8)) (new + 2) (new + 1)) = _ :=
    leave_condBr _ inv_value new (new + 2) (new + 1) memory
  rw [value]
  cases high : cmp.pred.holds (cmp.width / 2) (highHalf cmp.width a) (highHalf cmp.width b) with
  | true =>
      rw [high, if_pos rfl] at branch
      refine ⟨label, env1, branch ▸ .refl, agree1, ?_⟩
      simp [orderRegion, Phi.value_cons]
      omega
  | false =>
      rw [high, if_neg Bool.false_ne_true] at branch
      cases inv : inverse.holds (cmp.width / 2) (highHalf cmp.width a) (highHalf cmp.width b) with
      | true =>
          rw [inv, if_pos rfl] at branch'
          refine ⟨new, env2, ?_, agree2, ?_⟩
          · refine branch ▸ Program.reaches_leave inv_cmp_bb ?_
            show Program.Reaches _ (leave new env2 memory _) _
            exact branch' ▸ .refl
          · simp [orderRegion, Phi.value_cons, label_old.ne]
      | false =>
          rw [inv, if_neg Bool.false_ne_true] at branch'
          refine ⟨new + 1, env3, ?_,
            agree2.trans ((Agree.refl _ _).runBody_right fresh_lowHalves memory), ?_⟩
          · refine branch ▸ Program.reaches_leave inv_cmp_bb ?_
            show Program.Reaches _ (leave new env2 memory _) _
            exact branch' ▸ Program.reaches_leave cmp_low_bb .refl
          · simp [orderRegion, Phi.value_cons, low_value]

end Regions

end GreenFuzz.Instrumentation
