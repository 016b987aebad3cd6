import GreenFuzz.Instrumentation.SplitCompareRegions

/-!
# The split-compares pass keeps the meaning of the program

Every step of the pass puts a region that computes a comparison in its place (`Expands`), so that a
run of the program returns the same value and leaves the same memory, and runs forever exactly where
it did. The halves of a value make up the value where its width is even. All widths on the worklist
are powers of two, because the pass takes such widths only and halves them.
-/

set_option autoImplicit false

namespace GreenFuzz.Instrumentation

open Library

variable {M : Type} {P : Program (Instr M)} {cmp : Icmp}

/-! ## Finding a comparison -/

theorem isIcmp_iff {i : Instr M} : i.isIcmp cmp = true ↔ i = .icmp cmp := by
  cases i <;> simp [Instr.isIcmp]

/-- The block of a comparison, cut before and after it. -/
theorem parent_icmp {b : Block (Instr M)} {before after : List (Instr M)}
    (found : parent P (Instr.isIcmp cmp) = some (b, before, after)) :
    P.block b.label = some b ∧ b.body = before ++ .icmp cmp :: after := by
  obtain ⟨block, i, isCmp, split⟩ := parent_spec found
  exact ⟨block, isIcmp_iff.mp isCmp ▸ split⟩

/-- The operands of an instruction of the program read registers that it mentions. -/
theorem instr_operands_old {b : Block (Instr M)} {i : Instr M} {before after : List (Instr M)}
    (found : P.block b.label = some b) (split : b.body = before ++ i :: after) :
    ∀ op ∈ i.operands, Old P.bound op := by
  intro op member name used
  refine Program.lt_bound (Program.mem_of_block found) (List.mem_cons_of_mem _
    (List.mem_append_left _ (List.mem_append_right _ (List.mem_flatMap.mpr
      ⟨i, ?_, List.mem_append_right _ (List.mem_flatMap.mpr ⟨op, member, used⟩)⟩))))
  rw [split]
  exact List.mem_append_right _ List.mem_cons_self

theorem operands_old {b : Block (Instr M)} {before after : List (Instr M)}
    (found : P.block b.label = some b) (split : b.body = before ++ .icmp cmp :: after) :
    Old P.bound cmp.op0 ∧ Old P.bound cmp.op1 :=
  ⟨instr_operands_old found split _ List.mem_cons_self,
    instr_operands_old found split _ (List.mem_cons_of_mem _ List.mem_cons_self)⟩

variable {s s' : Splitting M} {P' : Program (Instr M)} {target : ℕ}

/-! ## One step -/

/-- The comparisons that a region brings. -/
def regionComparisons (r : Region (Instr M)) : List Icmp :=
  bodyComparisons r.front ++ r.middle.flatMap fun block => bodyComparisons block.body

/-- Comparisons with new registers, each with its own. -/
def NewComparisons (new : ℕ) (brought : List Icmp) : Prop :=
  (brought.map Icmp.dest).Nodup ∧ ∀ c ∈ brought, new ≤ c.dest

/-- A program that has blocks in the place of a comparison, with the comparisons they bring. -/
def Expands (P P' : Program (Instr M)) (cmp : Icmp) (brought : List Icmp) : Prop :=
  NewComparisons P.bound brought ∧
  ∃ (b : Block (Instr M)) (before after : List (Instr M)) (r : Region (Instr M)),
    P.block b.label = some b ∧ b.body = before ++ .icmp cmp :: after ∧ r.Fresh P.bound ∧
      r.result.dest = cmp.dest ∧ regionComparisons r = brought ∧
      r.Computes P.bound b.label (.icmp cmp) ∧ P' = P.splice b before after r

theorem Expands.meaning {brought : List Icmp} (expands : Expands P P' cmp brought) :
    P'.meaning = P.meaning := by
  obtain ⟨_, b, before, after, r, found, split, fresh, result, _, computes, rfl⟩ := expands
  exact meaning_splice fresh found split rfl result computes

/-- A width that can be halved down to one bit. -/
def PowerOfTwo (width : ℕ) : Prop := ∃ exponent, width = 2 ^ exponent

theorem PowerOfTwo.positive {width : ℕ} (power : PowerOfTwo width) : 0 < width := by
  obtain ⟨exponent, rfl⟩ := power
  exact Nat.two_pow_pos _

theorem PowerOfTwo.half {width : ℕ} (power : PowerOfTwo width) (halved : width / 2 ≠ 0) :
    width = 2 * (width / 2) ∧ PowerOfTwo (width / 2) := by
  obtain ⟨exponent, rfl⟩ := power
  cases exponent with
  | zero => exact absurd rfl halved
  | succ exponent =>
      have half : 2 ^ (exponent + 1) / 2 = 2 ^ exponent := by
        rw [pow_succ, Nat.mul_div_cancel _ (by norm_num)]
      rw [half, pow_succ]
      exact ⟨Nat.mul_comm _ _, exponent, rfl⟩

/-- What `simplifySignedCompare` does. -/
theorem simplifySignedCompare_spec (step : simplifySignedCompare cmp s = some s')
    (isSigned : cmp.pred = .sgt ∨ cmp.pred = .slt) (positive : 0 < cmp.width) :
    Expands s.program s'.program cmp
        (regionComparisons (M := M) (signedRegion s.program.bound cmp)) ∧
      s'.worklist =
        ⟨s.program.bound + 6, unsignedPredicate cmp.pred, cmp.width, cmp.op0, cmp.op1⟩ ::
          s.worklist := by
  obtain ⟨⟨b, before, after⟩, found, rfl⟩ := Option.map_eq_some_iff.mp step
  obtain ⟨block, split⟩ := parent_icmp found
  obtain ⟨old0, old1⟩ := operands_old block split
  refine ⟨⟨?_, b, before, after, _, block, split, fresh_signed, rfl, rfl,
    computes_signed old0 old1 isSigned positive, rfl⟩, rfl⟩
  simp [NewComparisons, regionComparisons, bodyComparisons, signedRegion]

theorem mem_of_mem_ite_nil {α : Type*} {p : Prop} [Decidable p] {items : List α} {item : α}
    (member : item ∈ if p then items else []) : item ∈ items := by
  split at member
  · exact member
  · exact absurd member List.not_mem_nil

/-- What `splitCompare` does with a comparison that does not have the target width. -/
theorem splitCompare_spec (power : PowerOfTwo cmp.width) (wide : cmp.width ≠ target)
    (step : splitCompare target cmp s = some s') :
    cmp.width / 2 ≠ 0 ∧ ∃ brought pushed, Expands s.program s'.program cmp brought ∧
      s'.worklist = pushed ++ s.worklist ∧ (∀ c ∈ brought, c.width = cmp.width / 2) ∧
      (∀ c ∈ pushed, c ∈ brought) ∧ pushed.length ≤ 3 ∧ pushed.Nodup ∧
      (target < cmp.width / 2 → ∀ c ∈ brought, c ∈ pushed) := by
  rw [splitCompare, if_neg wide] at step
  split at step
  · exact absurd step (by simp)
  · rename_i halved
    refine ⟨halved, ?_⟩
    obtain ⟨even, _⟩ := power.half halved
    obtain ⟨⟨b, before, after⟩, found, step⟩ := Option.bind_eq_some_iff.mp step
    obtain ⟨block, split⟩ := parent_icmp found
    obtain ⟨old0, old1⟩ := operands_old block split
    have label_old := Program.block_lt_bound block
    set new := s.program.bound with new_eq
    dsimp only at step
    by_cases equality : cmp.pred = .eq ∨ cmp.pred = .ne
    · rw [if_pos equality] at step
      obtain rfl := Option.some.inj step
      refine ⟨[icmpHigh new cmp, icmpLow new cmp],
        if target < cmp.width / 2 then [icmpLow new cmp, icmpHigh new cmp] else [],
        ⟨?_, b, before, after, _, block, split, fresh_equality, rfl, rfl,
          computes_equality label_old old0 old1 equality even, rfl⟩, rfl, ?_, ?_, ?_, ?_, ?_⟩
      · simp [NewComparisons, icmpHigh, icmpLow, ← new_eq]
      · simp [icmpHigh, icmpLow]
      · intro c member
        have := mem_of_mem_ite_nil member
        simp only [List.mem_cons, List.not_mem_nil, or_false] at this ⊢
        exact this.symm
      · split <;> simp
      · split <;> simp [icmpLow, icmpHigh]
      · intro again
        simp [again]
    · rw [if_neg equality] at step
      obtain ⟨inverse, isInverse, rfl⟩ := Option.map_eq_some_iff.mp step
      refine ⟨[icmpHigh new cmp, icmpInv new cmp inverse, icmpLow new cmp],
        (if target < cmp.width / 2 then [icmpLow new cmp, icmpHigh new cmp] else []) ++
          [icmpInv new cmp inverse],
        ⟨?_, b, before, after, _, block, split, fresh_order inverse, rfl, rfl,
          computes_order label_old old0 old1 isInverse even, rfl⟩, ?_, ?_, ?_, ?_, ?_, ?_⟩
      · simp [NewComparisons, icmpHigh, icmpLow, icmpInv, ← new_eq]
      · simp
      · simp [icmpHigh, icmpLow, icmpInv]
      · intro c member
        rcases List.mem_append.mp member with halves | inv
        · have := mem_of_mem_ite_nil halves
          simp only [List.mem_cons, List.not_mem_nil, or_false] at this ⊢
          tauto
        · rw [List.mem_singleton.mp inv]
          exact List.mem_cons_of_mem _ List.mem_cons_self
      · split <;> simp
      · split <;> simp [icmpLow, icmpHigh, icmpInv]
      · intro again
        simp [again]

/-- `splitCompare` keeps the meaning, and the powers of two on the worklist. -/
theorem splitCompare_meaning (power : PowerOfTwo cmp.width)
    (powers : ∀ c ∈ s.worklist, PowerOfTwo c.width) (step : splitCompare target cmp s = some s') :
    s'.program.meaning = s.program.meaning ∧ ∀ c ∈ s'.worklist, PowerOfTwo c.width := by
  by_cases wide : cmp.width = target
  · rw [splitCompare, if_pos wide] at step
    obtain rfl := Option.some.inj step
    exact ⟨rfl, powers⟩
  · obtain ⟨halved, brought, pushed, expands, worklist, widths, among, _⟩ :=
      splitCompare_spec power wide step
    refine ⟨expands.meaning, fun c member => ?_⟩
    rcases List.mem_append.mp (worklist ▸ member) with new | old
    · rw [widths c (among c new)]
      exact (power.half halved).2
    · exact powers c old

/-! ## The whole pass -/

theorem splitLoop_meaning {target bitw fuel : ℕ} {s : Splitting M}
    (powers : ∀ c ∈ s.worklist, PowerOfTwo c.width)
    (loop : splitLoop target bitw fuel s = some P') :
    P'.meaning = s.program.meaning := by
  induction fuel generalizing s with
  | zero =>
      rw [splitLoop] at loop
      split at loop
      · rw [← Option.some.inj loop]
      · exact absurd loop (by simp)
  | succ fuel ih =>
      rw [splitLoop] at loop
      cases worklist : s.worklist with
      | nil =>
          rw [worklist] at loop
          rw [← Option.some.inj loop]
      | cons cmp rest =>
          rw [worklist] at loop powers
          have later : ∀ c ∈ rest, PowerOfTwo c.width :=
            fun c member => powers c (List.mem_cons_of_mem _ member)
          dsimp only at loop
          split at loop
          · obtain ⟨s', step, loop⟩ := Option.bind_eq_some_iff.mp loop
            obtain ⟨same, powers'⟩ :=
              splitCompare_meaning (powers cmp List.mem_cons_self) later step
            exact (ih powers' loop).trans same
          · exact @ih ⟨s.program, rest⟩ later loop

/-- What `simplifyOrEqualsCompare` does: a signed strict comparison is simplified at once. -/
theorem simplifyOrEqualsCompare_spec {pred : IcmpPredicate}
    (isStrict : strictPredicate cmp.pred = some pred)
    (step : simplifyOrEqualsCompare cmp s = some s') :
    ∃ P' s'', Expands s.program P' cmp
        [⟨s.program.bound, pred, cmp.width, cmp.op0, cmp.op1⟩,
          ⟨s.program.bound + 1, .eq, cmp.width, cmp.op0, cmp.op1⟩] ∧
      (if pred = .sgt ∨ pred = .slt
        then simplifySignedCompare ⟨s.program.bound, pred, cmp.width, cmp.op0, cmp.op1⟩
          { s with program := P' }
        else some { s with program := P' }) = some s'' ∧
      s' = { s'' with worklist :=
        ⟨s.program.bound + 1, .eq, cmp.width, cmp.op0, cmp.op1⟩ :: s''.worklist } := by
  rw [simplifyOrEqualsCompare, isStrict] at step
  obtain ⟨⟨b, before, after⟩, found, step⟩ := Option.bind_eq_some_iff.mp step
  obtain ⟨block, split⟩ := parent_icmp found
  obtain ⟨old0, old1⟩ := operands_old block split
  obtain ⟨s'', simplified, step⟩ := Option.map_eq_some_iff.mp step
  refine ⟨_, s'', ⟨?_, b, before, after, _, block, split, fresh_orEquals pred, rfl, rfl,
    computes_orEquals (Program.block_lt_bound block) old0 old1 isStrict, rfl⟩, simplified,
    step.symm⟩
  simp [NewComparisons]

theorem simplifySignedCompare_meaning (step : simplifySignedCompare cmp s = some s')
    (isSigned : cmp.pred = .sgt ∨ cmp.pred = .slt) (power : PowerOfTwo cmp.width)
    (powers : ∀ c ∈ s.worklist, PowerOfTwo c.width) :
    s'.program.meaning = s.program.meaning ∧ ∀ c ∈ s'.worklist, PowerOfTwo c.width := by
  obtain ⟨expands, worklist⟩ := simplifySignedCompare_spec step isSigned power.positive
  refine ⟨expands.meaning, fun c member => ?_⟩
  rcases List.mem_cons.mp (worklist ▸ member) with rfl | old
  · exact power
  · exact powers c old

theorem simplifyOrEqualsCompare_meaning {pred : IcmpPredicate}
    (isStrict : strictPredicate cmp.pred = some pred) (power : PowerOfTwo cmp.width)
    (powers : ∀ c ∈ s.worklist, PowerOfTwo c.width)
    (step : simplifyOrEqualsCompare cmp s = some s') :
    s'.program.meaning = s.program.meaning ∧ ∀ c ∈ s'.worklist, PowerOfTwo c.width := by
  obtain ⟨P', s'', expands, simplified, rfl⟩ := simplifyOrEqualsCompare_spec isStrict step
  have both : s''.program.meaning = P'.meaning ∧ ∀ c ∈ s''.worklist, PowerOfTwo c.width := by
    split at simplified
    · rename_i isSigned
      exact simplifySignedCompare_meaning simplified isSigned power powers
    · rw [← Option.some.inj simplified]
      exact ⟨rfl, powers⟩
  refine ⟨both.1.trans expands.meaning, fun c member => ?_⟩
  rcases List.mem_cons.mp member with rfl | old
  · exact power
  · exact both.2 c old

theorem strictPredicate_of_orEquals {pred : IcmpPredicate}
    (orEquals : pred = .uge ∨ pred = .sge ∨ pred = .ule ∨ pred = .sle) :
    ∃ strict, strictPredicate pred = some strict := by
  rcases orEquals with rfl | rfl | rfl | rfl <;> exact ⟨_, rfl⟩

theorem simplify_meaning {s : Splitting M} (power : PowerOfTwo cmp.width)
    (step : simplify cmp P = some s) :
    s.program.meaning = P.meaning ∧ ∀ c ∈ s.worklist, PowerOfTwo c.width := by
  have none : ∀ c ∈ ([] : List Icmp), PowerOfTwo c.width := List.forall_mem_nil _
  rw [simplify] at step
  split at step
  · rename_i orEquals
    obtain ⟨pred, isStrict⟩ := strictPredicate_of_orEquals orEquals
    exact simplifyOrEqualsCompare_meaning isStrict power none step
  · split at step
    · rename_i isSigned
      exact simplifySignedCompare_meaning step isSigned power none
    · rw [← Option.some.inj step]
      exact ⟨rfl, none⟩

theorem simplifyAndSplit_meaning (power : PowerOfTwo cmp.width)
    (split : simplifyAndSplit target cmp P = some P') : P'.meaning = P.meaning := by
  obtain ⟨s, simplified, loop⟩ := Option.bind_eq_some_iff.mp split
  obtain ⟨same, powers⟩ := simplify_meaning power simplified
  refine (splitLoop_meaning (s := { s with worklist := _ }) (fun c member => ?_) loop).trans same
  dsimp only at member
  split at member
  · rw [List.mem_singleton.mp member]
    exact power
  · exact powers c member

theorem powerOfTwo_of_supported {bitw : ℕ} (supported : isSupportedBitWidth bitw = true) :
    PowerOfTwo bitw := by
  simp only [isSupportedBitWidth, List.mem_cons, List.not_mem_nil, or_false,
    decide_eq_true_eq] at supported
  rcases supported with rfl | rfl | rfl | rfl | rfl | rfl
  exacts [⟨3, rfl⟩, ⟨4, rfl⟩, ⟨5, rfl⟩, ⟨6, rfl⟩, ⟨7, rfl⟩, ⟨8, rfl⟩]

/-- The split-compares pass keeps the meaning of every program: whatever the target width, if the
pass gets through, the program returns the same value and leaves the same memory on every start, and
does not end where it did not. -/
theorem splitIntegers_meaning {target : ℕ} {P' : Program (Instr M)}
    (split : splitIntegers target P = some P') : P'.meaning = P.meaning := by
  rw [splitIntegers] at split
  have widths : ∀ cmp ∈ (comparisons P).filter selected, PowerOfTwo cmp.width := by
    intro cmp member
    have taken : selected cmp = true := (List.mem_filter.mp member).2
    rw [selected, Bool.and_eq_true] at taken
    exact powerOfTwo_of_supported taken.2
  revert widths
  generalize (comparisons P).filter selected = worklist at split ⊢
  induction worklist generalizing P with
  | nil =>
      intro _
      rw [← Option.some.inj split]
  | cons cmp rest ih =>
      intro widths
      obtain ⟨P'', first, later⟩ := Option.bind_eq_some_iff.mp split
      exact (ih later fun c member => widths c (List.mem_cons_of_mem _ member)).trans
        (simplifyAndSplit_meaning (widths cmp List.mem_cons_self) first)

/-- A test against an unsigned threshold. -/
def thresholdTest : Program (Instr Unit) :=
  [⟨0, [], [.icmp ⟨1, .uge, 16, .reg 0, .const 700⟩], .ret (some (.reg 1))⟩]

theorem splitIntegers_meaning_threshold :
    ∃ P', splitIntegers 8 thresholdTest = some P' ∧ P'.meaning = thresholdTest.meaning := by
  have through : (splitIntegers 8 thresholdTest).isSome = true := by decide
  exact ⟨_, (Option.some_get through).symm,
    splitIntegers_meaning (Option.some_get through).symm⟩

end GreenFuzz.Instrumentation
