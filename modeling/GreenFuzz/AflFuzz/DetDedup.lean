import GreenFuzz.AflFuzz.DetFlips

/-!
# What the deterministic stages skip

The filters shall skip a candidate only if it has been run. They judge numbers, and three
things go wrong. `could_be_bitflip` takes neighbouring bits of a little-endian number for
neighbouring bits of the input, where they lie in two bytes. `could_be_interest` calls a
big-endian value redundant for a little-endian one whose turn comes later. And
`could_be_arith` is asked when there was no arithmetic.

**A pass skips only what it has run exactly if the input is a single byte, or, without
arithmetic, if every interesting value near a byte is a bit flip of it**
(`dedup_loses_nothing_iff`).
-/

set_option autoImplicit false

namespace GreenFuzz.AflFuzz

open Library

namespace DetPass

/-- Each candidate that is skipped is the input, or has been run before. -/
def LosesNothing (D : DetPass) : Prop :=
  ∀ before after buf, D.attempts = before ++ .skipped buf :: after →
    buf = D.outBuf ∨ .executed buf ∈ before

/-- An interesting value that arithmetic could make of a byte is a bit flip of it. -/
def NearValuesAreFlips (D : DetPass) : Prop :=
  ∀ i < D.len, ∀ value ∈ interesting8,
    couldBeArith ((D.outBuf i).setWidth 32) (value.setWidth 32) 1 = true →
      couldBeBitflip ((D.outBuf i ^^^ value).setWidth 32) = true

variable {D : DetPass}

/-! ## Attempts -/

theorem skipped_of {redundant : Bool} {candidate buf : Buffer}
    (same : .skipped buf = Trial.of redundant candidate) :
    redundant = true ∧ buf = candidate := by
  cases redundant with
  | true => exact ⟨rfl, Trial.skipped.inj same⟩
  | false => cases same

theorem executed_of {redundant : Bool} {candidate buf : Buffer}
    (same : .executed buf = Trial.of redundant candidate) :
    redundant = false ∧ buf = candidate := by
  cases redundant with
  | true => cases same
  | false => exact ⟨rfl, Trial.executed.inj same⟩

/-- Where the stages are put together, what is skipped in a later one comes after the whole
earlier one. -/
theorem append_split {first second before after : List Trial} {attempt : Trial}
    (split : first ++ second = before ++ attempt :: after) :
    attempt ∈ first ∨ ∃ middle, before = first ++ middle ∧ second = middle ++ attempt :: after := by
  rcases List.append_eq_append_iff.mp split with
    ⟨middle, isBefore, isSecond⟩ | ⟨rest, isFirst, isRest⟩
  · exact .inr ⟨middle, isBefore, isSecond⟩
  · cases rest with
    | nil => exact .inr ⟨[], by simpa using isFirst.symm, by simpa using isRest.symm⟩
    | cons head rest =>
        obtain ⟨rfl, -⟩ := List.cons.inj isRest
        exact .inl (isFirst ▸ List.mem_append_right _ List.mem_cons_self)

theorem not_skipped_bitflips {buf : Buffer} : .skipped buf ∉ D.bitflips := by
  simp only [bitflips, walkingBits, walkingByte, walkingBytes, List.mem_cons, List.mem_append,
    List.mem_map, reduceCtorEq, false_or, and_false, exists_false, or_false]
  split <;> split <;> simp

/-! ## The stages for single bytes -/

theorem mem_arith8 {attempt : Trial} :
    attempt ∈ D.arith8 ↔ ∃ i < D.len, ∃ j, (1 ≤ j ∧ j ≤ 35) ∧ ∃ value : Byte,
      (value = D.outBuf i + BitVec.ofNat 8 j ∨ value = D.outBuf i - BitVec.ofNat 8 j) ∧
        attempt = .of (couldBeBitflip ((D.outBuf i ^^^ value).setWidth 32))
          (Function.update D.outBuf i value) := by
  have range : ∀ j, j ∈ List.range' 1 ARITH_MAX ↔ 1 ≤ j ∧ j ≤ 35 := by
    intro j
    rw [List.mem_range'_1, ARITH_MAX]
    omega
  simp only [arith8, List.mem_flatMap, List.mem_range, range, arith8At, List.mem_cons,
    List.not_mem_nil, or_false]
  constructor
  · rintro ⟨i, inside, j, bounds, rfl | rfl⟩
    · exact ⟨i, inside, j, bounds, _, .inl rfl, rfl⟩
    · exact ⟨i, inside, j, bounds, _, .inr rfl, rfl⟩
  · rintro ⟨i, inside, j, bounds, value, rfl | rfl, rfl⟩
    · exact ⟨i, inside, j, bounds, .inl rfl⟩
    · exact ⟨i, inside, j, bounds, .inr rfl⟩

theorem mem_interest8 {attempt : Trial} :
    attempt ∈ D.interest8 ↔
      ∃ i < D.len, ∃ value ∈ interesting8, attempt = D.interest8At i value := by
  simp only [interest8, List.mem_flatMap, List.mem_range, List.mem_map, eq_comm]

/-- What arithmetic could make of a byte. -/
theorem couldBeArith_byte {old new : Byte}
    (near : couldBeArith (old.setWidth 32) (new.setWidth 32) 1 = true) :
    new = old ∨ ∃ j, (1 ≤ j ∧ j ≤ 35) ∧
      (new = old + BitVec.ofNat 8 j ∨ new = old - BitVec.ofNat 8 j) := by
  by_cases same : new = old
  · exact .inl same
  · right
    have differ : ¬old = new := fun back => same back.symm
    have narrow : ∀ byte : Byte, ((byte.setWidth 32) >>> (8 * 0)).setWidth 8 = byte := by
      intro byte
      rw [Nat.mul_zero, BitVec.ushiftRight_zero, BitVec.setWidth_setWidth_of_le _ (by decide),
        BitVec.setWidth_eq]
    have wide : ¬old.setWidth 32 = new.setWidth 32 := by
      intro back
      have bytes := congrArg (BitVec.setWidth 8) back
      rw [BitVec.setWidth_setWidth_of_le _ (by decide), BitVec.setWidth_eq,
        BitVec.setWidth_setWidth_of_le _ (by decide), BitVec.setWidth_eq] at bytes
      exact differ bytes
    have parts : differingParts 8 (old.setWidth 32) (new.setWidth 32) 1 =
        (1, old.setWidth 32, new.setWidth 32) := by
      simp only [differingParts, List.range_one, List.foldl_cons, List.foldl_nil, narrow, ne_eq,
        differ, not_false_eq_true, if_true]
    have apart : arithApart 8 (old.setWidth 32) (new.setWidth 32) = true := by
      rw [couldBeArith, if_neg wide, parts] at near
      simp only [true_and, if_true] at near
      by_contra far
      rw [if_neg far] at near
      cases near
    have nonzero : old.toNat ≠ new.toNat := fun back => differ (BitVec.eq_of_toNat_eq back)
    rcases of_decide_eq_true apart with down | up
    · refine ⟨(old - new).toNat, ?_, .inr ?_⟩
      · simp only [ARITH_MAX] at down
        bv_omega
      · bv_omega
    · refine ⟨(new - old).toNat, ?_, .inl ?_⟩
      · simp only [ARITH_MAX] at up
        bv_omega
      · bv_omega

theorem run_of_skipped_arith8 {buf : Buffer} (skipped : .skipped buf ∈ D.arith8) :
    .executed buf ∈ D.bitflips := by
  obtain ⟨i, inside, j, bounds, value, -, same⟩ := mem_arith8.mp skipped
  obtain ⟨pattern, rfl⟩ := skipped_of same
  exact flips_run_of_couldBeBitflip inside pattern

/-- A byte that arithmetic could make has been run where there is arithmetic. -/
theorem run_of_couldBeArith {i : ℕ} (inside : i < D.len) {value : Byte}
    (near : couldBeArith ((D.outBuf i).setWidth 32) (value.setWidth 32) 1 = true) :
    .executed (Function.update D.outBuf i value) ∈ D.bitflips ++ D.arith8 := by
  rw [List.mem_append]
  rcases couldBeArith_byte near with same | ⟨j, bounds, reached⟩
  · left
    rw [same, Function.update_eq_self]
    exact List.mem_cons_self
  · have attempted := mem_arith8.mpr ⟨i, inside, j, bounds, value, reached, rfl⟩
    cases pattern : couldBeBitflip ((D.outBuf i ^^^ value).setWidth 32) with
    | true => exact .inl (flips_run_of_couldBeBitflip inside pattern)
    | false =>
        rw [pattern] at attempted
        exact .inr attempted

/-- Why a byte is skipped when it is to be set. -/
theorem interest8_skipped {buf : Buffer} (skipped : .skipped buf ∈ D.interest8) :
    ∃ i < D.len, ∃ value ∈ interesting8, buf = Function.update D.outBuf i value ∧
      (couldBeBitflip ((D.outBuf i ^^^ value).setWidth 32) = true ∨
        couldBeArith ((D.outBuf i).setWidth 32) (value.setWidth 32) 1 = true) := by
  obtain ⟨i, inside, value, listed, same⟩ := mem_interest8.mp skipped
  obtain ⟨redundant, isBuf⟩ := skipped_of same
  exact ⟨i, inside, value, listed, isBuf, (Bool.or_eq_true _ _).mp redundant⟩

/-! ## Single bytes, and passes without arithmetic -/

theorem losesNothing_of_single (single : D.len = 1) (arith : D.noArith = false) :
    D.LosesNothing := by
  have stages : D.attempts = D.bitflips ++ (D.arith8 ++ D.interest8) := by
    simp only [attempts, arithmetic, arith16, arith32, interest16, interest32, single, arith,
      Nat.reduceLT, if_true, or_true, List.append_nil, Bool.false_eq_true, if_false,
      List.append_assoc]
  intro before after buf split
  right
  rw [stages] at split
  rcases append_split split with early | ⟨middle, rfl, rest⟩
  · exact absurd early not_skipped_bitflips
  rw [List.mem_append]
  rcases append_split rest with inArith | ⟨middle', rfl, late⟩
  · exact .inl (run_of_skipped_arith8 inArith)
  have skipped : .skipped buf ∈ D.interest8 := by
    rw [late]
    exact List.mem_append_right _ List.mem_cons_self
  obtain ⟨i, inside, value, -, rfl, pattern | near⟩ := interest8_skipped skipped
  · exact .inl (flips_run_of_couldBeBitflip inside pattern)
  · rcases List.mem_append.mp (run_of_couldBeArith inside near) with flipped | added
    · exact .inl flipped
    · exact .inr (List.mem_append_left _ added)

/-- A byte that is set where it is no bit flip is run by no other attempt. -/
theorem interest8_once {i : ℕ} {value : Byte}
    (pattern : couldBeBitflip ((D.outBuf i ^^^ value).setWidth 32) = false)
    (near : couldBeArith ((D.outBuf i).setWidth 32) (value.setWidth 32) 1 = true) :
    .executed (Function.update D.outBuf i value) ∉ D.interest8 := by
  intro ran
  obtain ⟨k, -, value', -, same⟩ := mem_interest8.mp ran
  obtain ⟨needed, isBuf⟩ := executed_of same
  have changes : value ≠ D.outBuf i := by
    rintro rfl
    rw [BitVec.xor_self] at pattern
    exact absurd pattern (by decide)
  have here := congrFun isBuf i
  rw [Function.update_self] at here
  obtain rfl : k = i := by
    by_contra other
    rw [Function.update_of_ne (Ne.symm other)] at here
    exact changes here
  rw [Function.update_self] at here
  rw [← here, near, Bool.or_true] at needed
  cases needed

/-- **Without arithmetic**, what is lost are the interesting values that arithmetic could have
made. -/
theorem losesNothing_iff_of_noArith (noArith : D.noArith = true) :
    D.LosesNothing ↔ D.NearValuesAreFlips := by
  have stages : D.attempts = D.bitflips ++ D.interest8 := by
    simp only [attempts, arithmetic, interest16, interest32, noArith, if_true, true_or,
      List.append_nil]
  constructor
  · intro keeps i inside value listed near
    by_contra other
    have pattern := Bool.eq_false_of_not_eq_true other
    have skipped : .skipped (Function.update D.outBuf i value) ∈ D.interest8 := by
      refine mem_interest8.mpr ⟨i, inside, value, listed, ?_⟩
      rw [interest8At, near, Bool.or_true]
      rfl
    obtain ⟨middle, after, split⟩ := List.append_of_mem skipped
    rcases keeps (D.bitflips ++ middle) after _ (by rw [stages, split, List.append_assoc]) with
      same | ran
    · have unchanged := congrFun same i
      rw [Function.update_self] at unchanged
      rw [unchanged, BitVec.xor_self] at pattern
      exact absurd pattern (by decide)
    · rcases List.mem_append.mp ran with flipped | inMiddle
      · exact other (couldBeBitflip_of_flips_run flipped)
      · refine interest8_once pattern near ?_
        rw [split]
        exact List.mem_append_left _ inMiddle
  · intro near_flips before after buf split
    right
    rw [stages] at split
    rcases append_split split with early | ⟨middle, rfl, late⟩
    · exact absurd early not_skipped_bitflips
    have skipped : .skipped buf ∈ D.interest8 := by
      rw [late]
      exact List.mem_append_right _ List.mem_cons_self
    obtain ⟨i, inside, value, listed, rfl, pattern | near⟩ := interest8_skipped skipped
    · exact List.mem_append_left _ (flips_run_of_couldBeBitflip inside pattern)
    · exact List.mem_append_left _
        (flips_run_of_couldBeBitflip inside (near_flips i inside value listed near))

/-! ## Two bytes that change -/

section TwoBytes

variable {word : BitVec 16}

theorem word_first : storeAt 2 D.outBuf 0 word 0 = byteOf word 0 := by
  have inside : 0 < 2 := by decide
  have byte := storeAt_inside D.outBuf 0 word inside
  rwa [Nat.zero_add] at byte

theorem word_second : storeAt 2 D.outBuf 0 word 1 = byteOf word 1 := by
  have inside : 1 < 2 := by decide
  have byte := storeAt_inside D.outBuf 0 word inside
  rwa [Nat.zero_add] at byte

/-- One byte is not enough. -/
theorem word_ne_update (first : byteOf word 0 ≠ D.outBuf 0) (second : byteOf word 1 ≠ D.outBuf 1)
    (i : ℕ) (value : Byte) : storeAt 2 D.outBuf 0 word ≠ Function.update D.outBuf i value := by
  intro same
  have only : ∀ k, storeAt 2 D.outBuf 0 word k ≠ D.outBuf k → k = i := by
    intro k changes
    by_contra other
    exact changes ((congrFun same k).trans (Function.update_of_ne other _ _))
  have zero := only 0 (word_first ▸ first)
  have one := only 1 (word_second ▸ second)
  omega

/-- A word that starts later leaves the first byte alone. -/
theorem word_start (first : byteOf word 0 ≠ D.outBuf 0) {n i : ℕ} {other : BitVec (8 * n)}
    (same : storeAt 2 D.outBuf 0 word = storeAt n D.outBuf i other) : i = 0 := by
  by_contra later
  have here := congrFun same 0
  rw [word_first, storeAt_outside _ _ _ (.inl (Nat.pos_of_ne_zero later))] at here
  exact first here

/-- What a number added to the first word makes, in either byte order. -/
def AddsTo (orig word : BitVec 16) : Prop :=
  ∃ j, (1 ≤ j ∧ j ≤ 35) ∧
    (word = orig + BitVec.ofNat 16 j ∨ word = orig - BitVec.ofNat 16 j ∨
      word = swap16 (swap16 orig + BitVec.ofNat 16 j) ∨
      word = swap16 (swap16 orig - BitVec.ofNat 16 j))

theorem addsTo_of_arith16 (first : byteOf word 0 ≠ D.outBuf 0)
    (ran : .executed (storeAt 2 D.outBuf 0 word) ∈ D.arith16) :
    AddsTo (loadAt 2 D.outBuf 0) word := by
  rw [arith16] at ran
  split at ran
  · cases ran
  · obtain ⟨i, -, inStage⟩ := List.mem_flatMap.mp ran
    obtain ⟨j, bounds, attempted⟩ := List.mem_flatMap.mp inStage
    rw [List.mem_range'_1, ARITH_MAX] at bounds
    simp only [arith16At, List.mem_cons, List.not_mem_nil, or_false] at attempted
    have bounds' : 1 ≤ j ∧ j ≤ 35 := by omega
    rcases attempted with same | same | same | same <;> obtain ⟨-, same⟩ := executed_of same <;>
      obtain rfl := word_start first same <;> have isWord := (storeAt_inj _ _).mp same
    · exact ⟨j, bounds', .inl isWord⟩
    · exact ⟨j, bounds', .inr (.inl isWord)⟩
    · exact ⟨j, bounds', .inr (.inr (.inl isWord))⟩
    · exact ⟨j, bounds', .inr (.inr (.inr isWord))⟩

theorem toNat_byteOf {w : ℕ} (number : BitVec w) (k : ℕ) :
    (byteOf number k).toNat = number.toNat / 2 ^ (8 * k) % 256 := by
  rw [byteOf, BitVec.extractLsb'_toNat, Nat.shiftRight_eq_div_pow]

/-- A number added to a dword changes its upper half, if it carries that far, and its lower
half in any case. -/
theorem dword_changes {orig other : BitVec 32} {j : ℕ} (bounds : 1 ≤ j ∧ j ≤ 35)
    (third : byteOf other 2 = byteOf orig 2) (fourth : byteOf other 3 = byteOf orig 3)
    (cases : 0xffff < (orig &&& 0xffff).toNat + j ∧ other = orig + BitVec.ofNat 32 j ∨
      (orig &&& 0xffff).toNat < j ∧ other = orig - BitVec.ofNat 32 j ∨
      other = swap32 (swap32 orig + BitVec.ofNat 32 j) ∨
      other = swap32 (swap32 orig - BitVec.ofNat 32 j)) : False := by
  have low : (orig &&& 0xffff).toNat = orig.toNat % 65536 := by
    rw [BitVec.toNat_and]
    exact Nat.and_two_pow_sub_one_eq_mod _ 16
  have third' := congrArg BitVec.toNat third
  have fourth' := congrArg BitVec.toNat fourth
  rw [toNat_byteOf, toNat_byteOf] at third' fourth'
  -- Seen from the other end, the last two bytes are the lower half.
  have mirrored : ∀ sum : BitVec 32, other = swap32 sum →
      sum.toNat % 65536 = (swap32 orig).toNat % 65536 := by
    rintro sum rfl
    have zero : byteOf sum 0 = byteOf (swap32 orig) 0 := by
      rw [swap32_eq, byteOf_swapBytes _ (by decide)] at fourth
      rw [swap32_eq, byteOf_swapBytes _ (by decide)]
      exact fourth
    have one : byteOf sum 1 = byteOf (swap32 orig) 1 := by
      rw [swap32_eq, byteOf_swapBytes _ (by decide)] at third
      rw [swap32_eq, byteOf_swapBytes _ (by decide)]
      exact third
    have zero' := congrArg BitVec.toNat zero
    have one' := congrArg BitVec.toNat one
    rw [toNat_byteOf, toNat_byteOf] at zero' one'
    omega
  rcases cases with ⟨carries, rfl⟩ | ⟨borrows, rfl⟩ | same | same
  · rw [BitVec.toNat_add, BitVec.toNat_ofNat] at third' fourth'
    omega
  · rw [BitVec.toNat_sub, BitVec.toNat_ofNat] at third' fourth'
    omega
  · have lower := mirrored _ same
    rw [BitVec.toNat_add, BitVec.toNat_ofNat] at lower
    omega
  · have lower := mirrored _ same
    rw [BitVec.toNat_sub, BitVec.toNat_ofNat] at lower
    omega

theorem not_run_arith32 (first : byteOf word 0 ≠ D.outBuf 0) :
    .executed (storeAt 2 D.outBuf 0 word) ∉ D.arith32 := by
  intro ran
  rw [arith32] at ran
  split at ran
  · cases ran
  · obtain ⟨i, -, inStage⟩ := List.mem_flatMap.mp ran
    obtain ⟨j, bounds, attempted⟩ := List.mem_flatMap.mp inStage
    rw [List.mem_range'_1, ARITH_MAX] at bounds
    simp only [arith32At, List.mem_cons, List.not_mem_nil, or_false] at attempted
    have behind : ∀ {other : BitVec 32},
        storeAt 2 D.outBuf 0 word = storeAt 4 D.outBuf 0 other → ∀ k, 2 ≤ k → k < 4 →
          byteOf other k = byteOf (loadAt 4 D.outBuf 0) k := by
      intro other same k after below
      have byte := congrFun same k
      have stored := storeAt_inside D.outBuf 0 other below
      rw [Nat.zero_add] at stored
      rw [stored, storeAt_outside _ _ _ (.inr (by omega))] at byte
      rw [byteOf_loadAt _ _ below, Nat.zero_add, byte]
    rcases attempted with same | same | same | same <;>
      obtain ⟨needed, same⟩ := executed_of same <;> obtain rfl := word_start first same <;>
      refine dword_changes (j := j) (by omega) (behind same 2 (by decide) (by decide))
        (behind same 3 (by decide) (by decide)) ?_
    · rw [Bool.or_eq_false_iff, Bool.not_eq_false', decide_eq_true_eq] at needed
      exact .inl ⟨needed.1, rfl⟩
    · rw [Bool.or_eq_false_iff, Bool.not_eq_false', decide_eq_true_eq] at needed
      exact .inr (.inl ⟨needed.1, rfl⟩)
    · exact .inr (.inr (.inl rfl))
    · exact .inr (.inr (.inr rfl))

/-- How flips can change two bytes. -/
def crossings : List (Byte × Byte) :=
  [(0x01#8, 0x80#8), (0x07#8, 0x80#8), (0x03#8, 0xc0#8), (0x01#8, 0xe0#8), (0xff#8, 0xff#8)]

/-- Before the words are set, two bytes that both change are made by flips or by arithmetic on
their word. -/
theorem reached_before_words (arith : D.noArith = false) (first : byteOf word 0 ≠ D.outBuf 0)
    (second : byteOf word 1 ≠ D.outBuf 1)
    (ran : .executed (storeAt 2 D.outBuf 0 word) ∈ D.bitflips ++ D.arithmetic ++ D.interest8) :
    (D.outBuf 0 ^^^ byteOf word 0, D.outBuf 1 ^^^ byteOf word 1) ∈ crossings ∨
      AddsTo (loadAt 2 D.outBuf 0) word := by
  have apart := word_ne_update first second
  simp only [arithmetic, arith, Bool.false_eq_true, if_false, List.mem_append] at ran
  rcases ran with (flipped | (byte | added) | dword) | set
  · left
    rw [← word_first (D := D), ← word_second (D := D)]
    exact crossing_of_flips_run (word_first ▸ first) (word_second ▸ second)
      (storeAt_outside _ _ _ (.inr (by decide))) flipped
  · obtain ⟨i, -, -, -, value, -, same⟩ := mem_arith8.mp byte
    exact absurd (executed_of same).2 (apart i value)
  · exact .inr (addsTo_of_arith16 first added)
  · exact absurd dword (not_run_arith32 first)
  · obtain ⟨i, -, value, -, same⟩ := mem_interest8.mp set
    exact absurd (executed_of same).2 (apart i value)

end TwoBytes

/-! ## Big-endian values whose little-endian twin comes later -/

/-- Two numbers of 16 bits are at most 35 apart, around the end as well. -/
def Near (x t : ℕ) : Prop :=
  ∃ j, (1 ≤ j ∧ j ≤ 35) ∧ (x + j = t ∨ x + j = t + 65536 ∨ t + j = x ∨ t + j = x + 65536)

/-- What two bytes must be like so that two others have been run for them: one is the same, or
a sum in one of the orders or flips make the others. -/
def Reaches (a b t₀ t₁ : ℕ) : Prop :=
  a = t₀ ∨ b = t₁ ∨ Near (a + 256 * b) (t₀ + 256 * t₁) ∨ Near (256 * a + b) (256 * t₀ + t₁) ∨
    ∃ masks ∈ crossings, a = masks.1.toNat ^^^ t₀ ∧ b = masks.2.toNat ^^^ t₁

/-- No two bytes are like that for all four values. -/
theorem reaches_not_all {a b : ℕ} (small : a < 256) (small' : b < 256)
    (one : Reaches a b 0 1) (sixteen : Reaches a b 0 16) (least : Reaches a b 128 0)
    (below : Reaches a b 255 127) : False := by
  simp only [Reaches, Near, crossings, List.mem_cons, List.not_mem_nil, or_false,
    exists_eq_or_imp, exists_eq_left, BitVec.toNat_ofNat, Nat.reducePow, Nat.reduceMod,
    Nat.reduceXor, Nat.xor_zero] at one sixteen least below
  have start : a = 0 ∨ a = 255 ∧ 237 ≤ b := by
    rcases one with one | one | ⟨j, one⟩ | ⟨j, one⟩ | one <;>
      rcases sixteen with sixteen | sixteen | ⟨j', sixteen⟩ | ⟨j', sixteen⟩ | sixteen <;> omega
  have next : a = 0 ∧ b = 0 := by
    rcases least with least | least | ⟨j, least⟩ | ⟨j, least⟩ | least <;> omega
  rcases below with below | below | ⟨j, below⟩ | ⟨j, below⟩ | below <;> omega

theorem toNat_word (number : BitVec 16) :
    number.toNat = (byteOf number 0).toNat + 256 * (byteOf number 1).toNat ∧
      (swap16 number).toNat = 256 * (byteOf number 0).toNat + (byteOf number 1).toNat := by
  have zero : byteOf (swap16 number) 0 = byteOf number 1 := by
    rw [swap16_eq, byteOf_swapBytes _ (by decide)]
  have one : byteOf (swap16 number) 1 = byteOf number 0 := by
    rw [swap16_eq, byteOf_swapBytes _ (by decide)]
  have parts : ∀ word : BitVec 16,
      word.toNat = (byteOf word 0).toNat + 256 * (byteOf word 1).toNat := by
    intro word
    have small := word.isLt
    rw [toNat_byteOf, toNat_byteOf]
    omega
  refine ⟨parts number, ?_⟩
  rw [parts (swap16 number), zero, one, Nat.add_comm]

theorem near_of_addsTo {orig word : BitVec 16} (adds : AddsTo orig word) :
    Near orig.toNat word.toNat ∨ Near (swap16 orig).toNat (swap16 word).toNat := by
  have back : ∀ number : BitVec 16, swap16 (swap16 number) = number := by
    intro number
    rw [swap16_eq, swap16_eq]
    exact swapBytes_swapBytes (n := 2) number
  obtain ⟨j, bounds, rfl | rfl | rfl | rfl⟩ := adds
  · refine .inl ⟨j, bounds, ?_⟩
    have small := orig.isLt
    rw [BitVec.toNat_add, BitVec.toNat_ofNat]
    omega
  · refine .inl ⟨j, bounds, ?_⟩
    have small := orig.isLt
    rw [BitVec.toNat_sub, BitVec.toNat_ofNat]
    omega
  · refine .inr ⟨j, bounds, ?_⟩
    have small := (swap16 orig).isLt
    rw [back, BitVec.toNat_add, BitVec.toNat_ofNat]
    omega
  · refine .inr ⟨j, bounds, ?_⟩
    have small := (swap16 orig).isLt
    rw [back, BitVec.toNat_sub, BitVec.toNat_ofNat]
    omega

/-- A value in the table is called redundant for its little-endian turn. -/
theorem couldBeInterest_of_mem (old : BitVec 16) {value : BitVec 16}
    (listed : value ∈ interesting16) :
    couldBeInterest (old.setWidth 32) (value.setWidth 32) 2 true = true := by
  have placed : value.setWidth 32 = setOver (old.setWidth 32) 0xffff (value.setWidth 32) 0 := by
    have cleared : old.setWidth 32 &&& ~~~((0xffff : BitVec 32) <<< (0 * 8)) = 0#32 := by
      rw [Nat.zero_mul, BitVec.shiftLeft_zero]
      apply BitVec.eq_of_getLsbD_eq
      intro i inside
      have mask : ∀ i < 32, (~~~(0xffff : BitVec 32)).getLsbD i = decide (16 ≤ i) := by decide
      rw [BitVec.getLsbD_and, mask i inside, BitVec.getLsbD_setWidth, BitVec.getLsbD_zero]
      rcases Nat.lt_or_ge i 16 with low | high
      · have outside : ¬16 ≤ i := by omega
        rw [decide_eq_false outside, Bool.and_false]
      · rw [BitVec.getLsbD_of_ge _ _ high, Bool.and_false, Bool.false_and]
    rw [setOver, cleared, BitVec.zero_or, Nat.zero_mul, BitVec.shiftLeft_zero]
  have wordSet : ((List.range (2 - 1)).any fun i => interesting16.any fun other =>
      value.setWidth 32 = setOver (old.setWidth 32) 0xffff (other.setWidth 32) i ∨
        2 < 2 ∧ value.setWidth 32 =
          setOver (old.setWidth 32) 0xffff ((swap16 other).setWidth 32) i) = true := by
    refine List.any_eq_true.mpr ⟨0, by decide, List.any_eq_true.mpr ⟨value, listed, ?_⟩⟩
    exact decide_eq_true (.inl placed)
  rw [couldBeInterest]
  split
  · rfl
  · split
    · rfl
    · rw [if_neg (by decide)]

/-- A value whose little-endian twin is in the table is not set in the other order. -/
theorem interest16At_of_twin (i : ℕ) {value : BitVec 16} (twin : swap16 value ∈ interesting16)
    (differs : value ≠ swap16 value) :
    ∃ redundant, D.interest16At i value =
      [.of redundant (storeAt 2 D.outBuf i value),
        .skipped (storeAt 2 D.outBuf i (swap16 value))] := by
  apply Exists.intro
  simp only [interest16At, if_neg differs, couldBeInterest_of_mem _ twin, Bool.or_true]
  exact rfl

theorem executed_interest16At {i : ℕ} {value : BitVec 16} {buf : Buffer}
    (ran : .executed buf ∈ D.interest16At i value) :
    buf = storeAt 2 D.outBuf i value ∨ buf = storeAt 2 D.outBuf i (swap16 value) := by
  rw [interest16At] at ran
  simp only [List.mem_cons] at ran
  rcases ran with same | ran
  · exact .inl (executed_of same).2
  · split at ran
    · cases ran
    · rw [List.mem_singleton] at ran
      exact .inr (executed_of ran).2

/-- What the first two bytes must be like so that a big-endian value has been run when it is
skipped. -/
theorem reaches_of_losesNothing (keeps : D.LosesNothing) (arith : D.noArith = false)
    (two : 2 ≤ D.len) (early late : List (BitVec 16)) (value : BitVec 16) {t₀ t₁ : ℕ}
    (listed : interesting16 = early ++ value :: late) (twin : swap16 value ∈ interesting16)
    (differs : value ≠ swap16 value)
    (fresh : swap16 value ∉ early) (fresh' : swap16 value ∉ early.map swap16)
    (zero : (byteOf (swap16 value) 0).toNat = t₀) (one : (byteOf (swap16 value) 1).toNat = t₁) :
    Reaches (D.outBuf 0).toNat (D.outBuf 1).toNat t₀ t₁ := by
  subst zero one
  by_contra missed
  have first : byteOf (swap16 value) 0 ≠ D.outBuf 0 := fun same => missed (.inl (by rw [same]))
  have second : byteOf (swap16 value) 1 ≠ D.outBuf 1 :=
    fun same => missed (.inr (.inl (by rw [same])))
  -- The word is not made by flips or by arithmetic.
  have notReached : ¬((D.outBuf 0 ^^^ byteOf (swap16 value) 0,
      D.outBuf 1 ^^^ byteOf (swap16 value) 1) ∈ crossings ∨
        AddsTo (loadAt 2 D.outBuf 0) (swap16 value)) := by
    rintro (crosses | adds)
    · refine missed (.inr (.inr (.inr (.inr ⟨_, crosses, ?_, ?_⟩))))
      · rw [BitVec.toNat_xor, Nat.xor_assoc, Nat.xor_self, Nat.xor_zero]
      · rw [BitVec.toNat_xor, Nat.xor_assoc, Nat.xor_self, Nat.xor_zero]
    · have orig := toNat_word (loadAt 2 D.outBuf 0)
      have target := toNat_word (swap16 value)
      rw [byteOf_loadAt _ _ (by decide), byteOf_loadAt _ _ (by decide)] at orig
      rcases near_of_addsTo adds with near | near
      · rw [orig.1, target.1] at near
        exact missed (.inr (.inr (.inl near)))
      · rw [orig.2, target.2] at near
        exact missed (.inr (.inr (.inr (.inl near))))
  obtain ⟨redundant, skips⟩ := interest16At_of_twin (D := D) 0 twin differs
  obtain ⟨n, more⟩ : ∃ n, D.len - 1 = n + 1 := ⟨D.len - 2, by omega⟩
  have stage : D.interest16 = early.flatMap (D.interest16At 0) ++
      (.of redundant (storeAt 2 D.outBuf 0 value) ::
        .skipped (storeAt 2 D.outBuf 0 (swap16 value)) ::
          (late.flatMap (D.interest16At 0) ++ ((List.range n).map Nat.succ).flatMap fun i =>
            interesting16.flatMap (D.interest16At i))) := by
    rw [interest16, if_neg (by simp only [arith, Bool.false_eq_true, false_or]; omega), more,
      List.range_succ_eq_map, List.flatMap_cons, listed, List.flatMap_append, List.flatMap_cons,
      skips]
    simp only [List.append_assoc, List.cons_append, List.nil_append]
  rcases keeps (D.bitflips ++ D.arithmetic ++ D.interest8 ++ (early.flatMap (D.interest16At 0) ++
      [.of redundant (storeAt 2 D.outBuf 0 value)])) _ _ (by
        rw [attempts, stage]
        simp only [List.append_assoc, List.cons_append, List.nil_append]
        rfl) with same | ran
  · exact first (word_first.symm.trans (congrFun same 0))
  · rcases List.mem_append.mp ran with before | ran
    · exact notReached (reached_before_words arith first second before)
    rcases List.mem_append.mp ran with earlier | last
    · obtain ⟨other, inEarly, attempted⟩ := List.mem_flatMap.mp earlier
      rcases executed_interest16At attempted with same | same
      · exact fresh ((storeAt_inj _ _).mp same ▸ inEarly)
      · exact fresh' ((storeAt_inj _ _).mp same ▸ List.mem_map_of_mem inEarly)
    · have same := List.mem_singleton.mp last
      exact differs ((storeAt_inj _ _).mp (executed_of same).2).symm

/-- With arithmetic, an input of two bytes or more has a candidate skipped that has not been
run. -/
theorem not_losesNothing_of_two (arith : D.noArith = false) (two : 2 ≤ D.len) :
    ¬D.LosesNothing := by
  intro keeps
  have one : Reaches (D.outBuf 0).toNat (D.outBuf 1).toNat 0 1 :=
    reaches_of_losesNothing keeps arith two (interesting16.take 3) (interesting16.drop 4) 0x0001
      (by decide) (by decide) (by decide) (by decide) (by decide) (by decide) (by decide)
  have sixteen : Reaches (D.outBuf 0).toNat (D.outBuf 1).toNat 0 16 :=
    reaches_of_losesNothing keeps arith two (interesting16.take 4) (interesting16.drop 5) 0x0010
      (by decide) (by decide) (by decide) (by decide) (by decide) (by decide) (by decide)
  have least : Reaches (D.outBuf 0).toNat (D.outBuf 1).toNat 128 0 :=
    reaches_of_losesNothing keeps arith two (interesting16.take 9) (interesting16.drop 10) 0x8000
      (by decide) (by decide) (by decide) (by decide) (by decide) (by decide) (by decide)
  have below : Reaches (D.outBuf 0).toNat (D.outBuf 1).toNat 255 127 :=
    reaches_of_losesNothing keeps arith two (interesting16.take 10) (interesting16.drop 11) 0xff7f
      (by decide) (by decide) (by decide) (by decide) (by decide) (by decide) (by decide)
  exact reaches_not_all (D.outBuf 0).isLt (D.outBuf 1).isLt one sixteen least below

/-- **A pass skips only what it has run exactly if the input is a single byte, or, without
arithmetic, if every interesting value near a byte is a bit flip of it.** -/
theorem dedup_loses_nothing_iff (D : DetPass) (some_byte : 0 < D.len) :
    D.LosesNothing ↔
      D.noArith = true ∧ D.NearValuesAreFlips ∨ D.noArith = false ∧ D.len = 1 := by
  cases noArith : D.noArith with
  | true =>
      rw [losesNothing_iff_of_noArith noArith]
      simp only [true_and, Bool.true_eq_false, false_and, or_false]
  | false =>
      simp only [Bool.false_eq_true, false_and, true_and, false_or]
      constructor
      · intro keeps
        by_contra several
        exact not_losesNothing_of_two noArith (by omega) keeps
      · intro single
        exact losesNothing_of_single single noArith

/-- The byte 65. -/
def singleByte : DetPass := ⟨fun _ => 65, 1, false⟩

/-- A single byte loses nothing. -/
theorem dedup_loses_nothing_single : singleByte.LosesNothing :=
  (dedup_loses_nothing_iff singleByte (by decide)).mpr (.inr ⟨rfl, rfl⟩)

/-! ## A candidate that is never run -/

/-- The bytes 0xe0 and 0. -/
def carryingPair : DetPass where
  outBuf k := if k = 0 then 0xe0 else 0
  len := 2
  noArith := false

/-- What is run, seen at the first two bytes. -/
def Trial.ranBytes : Trial → Option (Byte × Byte)
  | .executed buf => some (buf 0, buf 1)
  | .skipped _ => none

/-- The sum of the bytes 0xe0 0x00 and 32. -/
def carriedPair : Buffer :=
  storeAt 2 carryingPair.outBuf 0 (loadAt 2 carryingPair.outBuf 0 + BitVec.ofNat 16 32)

theorem carriedPair_bytes : (carriedPair 0, carriedPair 1) = (0x00#8, 0x01#8) := by decide

/-- **The sum is skipped, and it is not run in the whole pass**: the bits that change stand
together in the number, but not in the input. -/
theorem carried_sum_lost :
    (.skipped carriedPair ∈ carryingPair.attempts ∧ carriedPair ≠ carryingPair.outBuf ∧
        .executed carriedPair ∉ carryingPair.attempts) ∧
      ¬∀ D : DetPass, 0 < D.len → D.LosesNothing := by
  have never : some (0x00#8, 0x01#8) ∉ carryingPair.attempts.map Trial.ranBytes := by
    decide +kernel
  have notRun : .executed carriedPair ∉ carryingPair.attempts := by
    intro ran
    have bytes := List.mem_map_of_mem (f := Trial.ranBytes) ran
    rw [Trial.ranBytes, carriedPair_bytes] at bytes
    exact never bytes
  have other : carriedPair ≠ carryingPair.outBuf := by
    intro same
    exact absurd (congrFun same 0) (by decide)
  have skipped : .skipped carriedPair ∈ carryingPair.attempts := by
    have inStage : .skipped carriedPair ∈ carryingPair.arith16 :=
      List.mem_flatMap.mpr ⟨0, by decide, List.mem_flatMap.mpr ⟨32, by decide,
        List.mem_cons_self⟩⟩
    simp only [attempts, arithmetic, List.mem_append]
    exact .inl (.inl (.inl (.inr (List.mem_append_left _ (List.mem_append_right _ inStage)))))
  refine ⟨⟨skipped, other, notRun⟩, fun all => ?_⟩
  obtain ⟨before, after, split⟩ := List.append_of_mem skipped
  rcases all carryingPair (by decide) before after carriedPair split with same | ran
  · exact other same
  · exact notRun (split ▸ List.mem_append_left _ ran)

end DetPass

end GreenFuzz.AflFuzz
