import GreenFuzz.AflFuzz.DetStages
import GreenFuzz.Library.Runs

/-!
# What the filters of the deterministic stages claim

`could_be_arith` and `could_be_interest` say that an earlier stage has made a value out of an
old one. They are right: what they accept is the old value with one byte, one half or the
whole of it adjusted, or set to an interesting value (`filters_sound`).

The phases of `could_be_arith` share two variables. A later phase uses them only after it has set
them itself, so what an earlier phase left there does not matter (`couldBeArithShared_eq`).
-/

set_option autoImplicit false

namespace GreenFuzz.AflFuzz

open Library

/-! ## Parts of a value -/

/-- Part `i` of `w` bits. -/
def partOf (w : ℕ) (x : BitVec 32) (i : ℕ) : BitVec w := (x >>> (w * i)).setWidth w

/-- The new value is the old one with the bits from a position on replaced. -/
def Replaced {w : ℕ} (old new : BitVec 32) (start : ℕ) (value : BitVec w) : Prop :=
  ∀ k < 32, new.getLsbD k =
    if start ≤ k ∧ k < start + w then value.getLsbD (k - start) else old.getLsbD k

/-- At most `ARITH_MAX` is added or subtracted, modulo the width. -/
def Adjusted {w : ℕ} (a b : BitVec w) : Prop :=
  ∃ d ≤ ARITH_MAX, b = a + BitVec.ofNat w d ∨ b = a - BitVec.ofNat w d

/-- What arithmetic on a value of `blen` bytes can make of it: one byte, one aligned half in
either byte order, or the whole dword in either byte order is adjusted. -/
inductive ArithReaches (blen : ℕ) (old new : BitVec 32) : Prop where
  | same (unchanged : new = old)
  | byte (i : ℕ) (b : BitVec 8) (inside : i < blen) (near : Adjusted (partOf 8 old i) b)
      (placed : Replaced old new (8 * i) b)
  | half (i : ℕ) (b : BitVec 16) (inside : i < blen / 2)
      (near : Adjusted (partOf 16 old i) b ∨ Adjusted (swap16 (partOf 16 old i)) (swap16 b))
      (placed : Replaced old new (16 * i) b)
  | dword (wide : blen = 4) (near : Adjusted old new ∨ Adjusted (swap32 old) (swap32 new))

/-- What interesting values set into a value of `blen` bytes can make of it. -/
inductive InterestReaches (blen : ℕ) (checkLe : Bool) (old new : BitVec 32) : Prop where
  | same (unchanged : new = old)
  | byte (i : ℕ) (inside : i < blen) (value : BitVec 8) (interesting : value ∈ interesting8)
      (placed : Replaced old new (8 * i) value)
  | half (stage : blen = 4 ∨ blen = 2 ∧ checkLe = true) (i : ℕ) (inside : i < blen - 1)
      (value : BitVec 16) (interesting : value ∈ interesting16)
      (placed : Replaced old new (8 * i) value ∨
        blen = 4 ∧ Replaced old new (8 * i) (swap16 value))
  | dword (wide : blen = 4) (stage : checkLe = true) (interesting : new ∈ interesting32)

variable {old new : BitVec 32} {w count : ℕ}

theorem getLsbD_partOf (x : BitVec 32) (i m : ℕ) :
    (partOf w x i).getLsbD m = (decide (m < w) && x.getLsbD (w * i + m)) := by
  rw [partOf, BitVec.getLsbD_setWidth, BitVec.getLsbD_ushiftRight]

/-- A value that differs in one part has that part replaced. -/
theorem replaced_of_parts (positive : 0 < w) {i : ℕ}
    (above : ∀ k, w * count ≤ k → new.getLsbD k = old.getLsbD k)
    (others : ∀ j < count, j ≠ i → partOf w new j = partOf w old j) :
    Replaced old new (w * i) (partOf w new i) := by
  intro k _
  split
  · rename_i within
    have place : w * i + (k - w * i) = k := by omega
    rw [getLsbD_partOf, decide_eq_true (by omega), Bool.true_and, place]
  · rename_i outside
    rcases Nat.lt_or_ge k (w * count) with below | beyond
    · have other : k / w ≠ i := by
        intro here
        have lower := Nat.div_mul_le_self k w
        have upper := Nat.lt_div_mul_add positive (a := k)
        rw [here, Nat.mul_comm] at lower upper
        exact outside ⟨lower, upper⟩
      have same := congrArg (fun x : BitVec w => x.getLsbD (k % w))
        (others (k / w) (Nat.div_lt_of_lt_mul below) other)
      simp only [getLsbD_partOf, decide_eq_true (Nat.mod_lt k positive), Bool.true_and,
        Nat.div_add_mod] at same
      exact same
    · exact above k beyond

/-- A value of so many bits has no bits above. -/
theorem getLsbD_of_small {x : BitVec 32} {bits k : ℕ} (small : x.toNat < 2 ^ bits)
    (above : bits ≤ k) : x.getLsbD k = false :=
  Nat.testBit_lt_two_pow (Nat.lt_of_lt_of_le small (Nat.pow_le_pow_right (by decide) above))

/-! ## Arithmetic -/

theorem arithApart_adjusted (narrow : w ≤ 32) {a b : BitVec w}
    (near : arithApart w (a.setWidth 32) (b.setWidth 32) = true) : Adjusted a b := by
  have lower (x y : BitVec w) : (x.setWidth 32 - y.setWidth 32).setWidth w = x - y := by
    rw [BitVec.sub_eq_add_neg, BitVec.setWidth_add _ _ narrow, BitVec.setWidth_neg_of_le narrow,
      BitVec.setWidth_setWidth_of_le _ narrow, BitVec.setWidth_setWidth_of_le _ narrow,
      BitVec.setWidth_eq, BitVec.setWidth_eq, ← BitVec.sub_eq_add_neg]
  rcases of_decide_eq_true near with down | up
  · rw [lower] at down
    refine ⟨_, down, .inr ?_⟩
    rw [BitVec.ofNat_toNat, BitVec.setWidth_eq, BitVec.eq_sub_iff_add_eq, BitVec.add_comm,
      BitVec.sub_add_cancel]
  · rw [lower] at up
    refine ⟨_, up, .inl ?_⟩
    rw [BitVec.ofNat_toNat, BitVec.setWidth_eq, BitVec.add_comm, BitVec.sub_add_cancel]

/-- One round of the comparison of parts. -/
def comparePart (w : ℕ) (old new : BitVec 32) (seen : ℕ × BitVec 32 × BitVec 32) (i : ℕ) :
    ℕ × BitVec 32 × BitVec 32 :=
  if partOf w old i ≠ partOf w new i then
    (seen.1 + 1, (partOf w old i).setWidth 32, (partOf w new i).setWidth 32)
  else seen

theorem differingParts_eq (w : ℕ) (old new : BitVec 32) (count : ℕ) :
    differingParts w old new count = (List.range count).foldl (comparePart w old new) (0, 0, 0) :=
  rfl

/-- What the comparison has seen of the first parts: none of them differs, or one does and is
kept, or more do. -/
structure PartsSeen (w : ℕ) (old new : BitVec 32) (k : ℕ) (seen : ℕ × BitVec 32 × BitVec 32) :
    Prop where
  same : seen.1 = 0 → ∀ j < k, partOf w new j = partOf w old j
  one : seen.1 = 1 → ∃ i < k, seen.2.1 = (partOf w old i).setWidth 32 ∧
    seen.2.2 = (partOf w new i).setWidth 32 ∧ ∀ j < k, j ≠ i → partOf w new j = partOf w old j

theorem PartsSeen.round {k : ℕ} {seen : ℕ × BitVec 32 × BitVec 32}
    (held : PartsSeen w old new k seen) :
    PartsSeen w old new (k + 1) (comparePart w old new seen k) := by
  unfold comparePart
  split
  · refine ⟨nofun, fun first => ⟨k, Nat.lt_succ_self k, rfl, rfl, fun j below other => ?_⟩⟩
    exact held.same (Nat.succ_injective first) j (by omega)
  · rename_i agree
    have here : partOf w new k = partOf w old k := (not_not.mp agree).symm
    constructor
    · intro zero j below
      by_cases last : j = k
      · rw [last, here]
      · exact held.same zero j (by omega)
    · intro first
      obtain ⟨i, inside, ov, nv, others⟩ := held.one first
      refine ⟨i, by omega, ov, nv, fun j below other => ?_⟩
      by_cases last : j = k
      · rw [last, here]
      · exact others j (by omega) other

/-- If one part differs, it is the one that is returned, and the others are equal. -/
theorem differingParts_one {ov nv : BitVec 32}
    (found : differingParts w old new count = (1, ov, nv)) :
    ∃ i < count, ov = (partOf w old i).setWidth 32 ∧ nv = (partOf w new i).setWidth 32 ∧
      ∀ j < count, j ≠ i → partOf w new j = partOf w old j := by
  have start : PartsSeen w old new 0 (0, 0, 0) := ⟨fun _ => nofun, nofun⟩
  have seen : PartsSeen w old new count
      ((List.range count).foldl (comparePart w old new) (0, 0, 0)) :=
    foldl_range_invariant start fun _ _ _ held => held.round
  rw [← differingParts_eq, found] at seen
  exact seen.one rfl

/-- The variables of the comparison start with what another one left there. -/
def differingPartsAfter (stale : BitVec 32 × BitVec 32) (w : ℕ) (old new : BitVec 32) (count : ℕ) :
    ℕ × BitVec 32 × BitVec 32 :=
  (List.range count).foldl (comparePart w old new) (0, stale)

/-- What was left in the variables shows only if no part differs. -/
theorem differingPartsAfter_cases (stale : BitVec 32 × BitVec 32) (w : ℕ) (old new : BitVec 32)
    (count : ℕ) :
    differingPartsAfter stale w old new count = differingParts w old new count ∨
      differingPartsAfter stale w old new count = (0, stale) ∧
        differingParts w old new count = (0, 0, 0) := by
  rw [differingParts_eq, differingPartsAfter]
  induction count with
  | zero => exact .inr ⟨rfl, rfl⟩
  | succ count ih =>
      simp only [List.range_succ, List.foldl_append, List.foldl_cons, List.foldl_nil]
      rcases ih with same | ⟨left, none_differs⟩
      · exact .inl (congrArg (comparePart w old new · count) same)
      · rw [left, none_differs]
        unfold comparePart
        split
        · exact .inl rfl
        · exact .inr ⟨rfl, rfl⟩

/-- `could_be_arith`, with the variables that its phases share. -/
def couldBeArithShared (oldVal newVal : BitVec 32) (blen : ℕ) : Bool :=
  if oldVal = newVal then true
  else
    let (diffs, ov, nv) := differingPartsAfter (0, 0) 8 oldVal newVal blen
    if diffs = 1 ∧ arithApart 8 ov nv then true
    else if blen = 1 then false
    else
      let (diffs, ov, nv) := differingPartsAfter (ov, nv) 16 oldVal newVal (blen / 2)
      if diffs = 1 ∧ (arithApart 16 ov nv ∨
          arithApart 16 ((swap16 (ov.setWidth 16)).setWidth 32)
            ((swap16 (nv.setWidth 16)).setWidth 32)) then true
      else if blen = 4 then
        arithApart 32 oldVal newVal || arithApart 32 (swap32 oldVal) (swap32 newVal)
      else false

theorem couldBeArithShared_eq (oldVal newVal : BitVec 32) (blen : ℕ) :
    couldBeArithShared oldVal newVal blen = couldBeArith oldVal newVal blen := by
  have bytes : differingPartsAfter (0, 0) 8 oldVal newVal blen =
      differingParts 8 oldVal newVal blen := rfl
  unfold couldBeArithShared couldBeArith
  rw [bytes]
  obtain ⟨diffs, ov, nv⟩ := differingParts 8 oldVal newVal blen
  dsimp only
  rcases differingPartsAfter_cases (ov, nv) 16 oldVal newVal (blen / 2) with same | ⟨left, right⟩
  · rw [same]
  · rw [left, right]
    simp

/-- A value that differs in one part has that part replaced, if neither has bits above the
parts. -/
theorem replaced_of_differingParts {ov nv : BitVec 32} (narrow : w ≤ 32) (positive : 0 < w)
    (oldFits : old.toNat < 2 ^ (w * count)) (newFits : new.toNat < 2 ^ (w * count))
    (found : differingParts w old new count = (1, ov, nv)) :
    ∃ i < count, ov.setWidth w = partOf w old i ∧ nv.setWidth w = partOf w new i ∧
      ov = (partOf w old i).setWidth 32 ∧ nv = (partOf w new i).setWidth 32 ∧
      Replaced old new (w * i) (partOf w new i) := by
  obtain ⟨i, inside, rfl, rfl, others⟩ := differingParts_one found
  refine ⟨i, inside, ?_, ?_, rfl, rfl, replaced_of_parts positive (fun k above => ?_) others⟩
  · rw [BitVec.setWidth_setWidth_of_le _ narrow, BitVec.setWidth_eq]
  · rw [BitVec.setWidth_setWidth_of_le _ narrow, BitVec.setWidth_eq]
  · rw [getLsbD_of_small oldFits above, getLsbD_of_small newFits above]

/-- `could_be_arith` never claims too much. -/
theorem couldBeArith_sound {blen : ℕ} (width : blen = 1 ∨ blen = 2 ∨ blen = 4)
    (oldFits : old.toNat < 2 ^ (8 * blen)) (newFits : new.toNat < 2 ^ (8 * blen))
    (claimed : couldBeArith old new blen = true) : ArithReaches blen old new := by
  unfold couldBeArith at claimed
  split at claimed
  · rename_i same
    exact .same same.symm
  rcases bytes : differingParts 8 old new blen with ⟨diffs, ov, nv⟩
  rw [bytes] at claimed
  dsimp only at claimed
  split at claimed
  · rename_i one
    obtain ⟨rfl, near⟩ := one
    obtain ⟨i, inside, -, -, rfl, rfl, placed⟩ :=
      replaced_of_differingParts (by decide) (by decide) oldFits newFits bytes
    exact .byte i _ inside (arithApart_adjusted (by decide) near) placed
  split at claimed
  · cases claimed
  rcases halves : differingParts 16 old new (blen / 2) with ⟨diffs', ov', nv'⟩
  rw [halves] at claimed
  dsimp only at claimed
  have bits : 8 * blen = 16 * (blen / 2) := by omega
  split at claimed
  · rename_i one
    obtain ⟨rfl, near⟩ := one
    obtain ⟨i, inside, ov_eq, nv_eq, rfl, rfl, placed⟩ :=
      replaced_of_differingParts (by decide) (by decide) (bits ▸ oldFits) (bits ▸ newFits) halves
    rw [ov_eq, nv_eq] at near
    refine .half i _ inside ?_ placed
    exact near.imp (arithApart_adjusted (by decide)) (arithApart_adjusted (by decide))
  split at claimed
  · rename_i wide
    refine .dword wide ?_
    rw [Bool.or_eq_true] at claimed
    have whole (x : BitVec 32) : x = x.setWidth 32 := (BitVec.setWidth_eq x).symm
    rw [whole old, whole new, whole (swap32 _), whole (swap32 (new.setWidth 32))] at claimed
    exact claimed.imp (arithApart_adjusted le_rfl) (arithApart_adjusted le_rfl)
  · cases claimed

/-! ## Interesting values -/

/-- The low bits of a dword. -/
theorem getLsbD_lowMask (narrow : w ≤ 32) (k : ℕ) :
    ((BitVec.allOnes w).setWidth 32).getLsbD k = decide (k < w) := by
  rw [BitVec.getLsbD_setWidth, BitVec.getLsbD_allOnes, ← Bool.decide_and, decide_eq_decide]
  omega

/-- A value set over a mask of its width replaces a part. -/
theorem replaced_setOver {value : BitVec w} {mask : BitVec 32} {i : ℕ}
    (narrow : w ≤ 32) (ones : mask = (BitVec.allOnes w).setWidth 32) :
    Replaced old (setOver old mask (value.setWidth 32) i) (8 * i) value := by
  intro k below
  rw [setOver, BitVec.getLsbD_or, BitVec.getLsbD_and, BitVec.getLsbD_not, BitVec.getLsbD_shiftLeft,
    BitVec.getLsbD_shiftLeft, ones, getLsbD_lowMask narrow, BitVec.getLsbD_setWidth,
    decide_eq_true below, Nat.mul_comm 8]
  have room : k - i * 8 < 32 := by omega
  rcases Nat.lt_or_ge k (i * 8) with before | from_here
  · rw [if_neg (by omega)]
    simp [before]
  · by_cases within : k - i * 8 < w
    · rw [if_pos (by omega)]
      simp [Nat.not_lt.mpr from_here, within, room]
    · rw [if_neg (by omega)]
      have nothing : value.getLsbD (k - i * 8) = false := BitVec.getLsbD_of_ge _ _ (by omega)
      simp [within, nothing]

/-- `could_be_interest` never claims too much. -/
theorem couldBeInterest_sound {blen : ℕ} {checkLe : Bool} (width : blen = 1 ∨ blen = 2 ∨ blen = 4)
    (claimed : couldBeInterest old new blen checkLe = true) :
    InterestReaches blen checkLe old new := by
  unfold couldBeInterest at claimed
  split at claimed
  · rename_i same
    exact .same same.symm
  split at claimed
  · rename_i found
    simp only [List.any_eq_true, List.mem_range, decide_eq_true_eq] at found
    obtain ⟨i, inside, value, interesting, rfl⟩ := found
    exact .byte i inside value interesting (replaced_setOver (by decide) (by decide))
  split at claimed
  · cases claimed
  rename_i looks
  split at claimed
  · rename_i found
    simp only [List.any_eq_true, List.mem_range, decide_eq_true_eq] at found
    obtain ⟨i, inside, value, interesting, placed⟩ := found
    refine .half ?_ i inside value interesting ?_
    · rcases width with one | two | four
      · omega
      · refine .inr ⟨two, ?_⟩
        cases checkLe with
        | true => rfl
        | false => exact absurd ⟨two, rfl⟩ looks
      · exact .inl four
    · rcases placed with rfl | ⟨wide, rfl⟩
      · exact .inl (replaced_setOver (by decide) (by decide))
      · exact .inr ⟨by omega, replaced_setOver (by decide) (by decide)⟩
  · rw [decide_eq_true_eq] at claimed
    obtain ⟨wide, stage, interesting⟩ := claimed
    exact .dword wide stage interesting

/-- **The filters never claim too much**, for old and new values of 8, 16 and 32 bits. -/
theorem filters_sound (blen : ℕ) (width : blen = 1 ∨ blen = 2 ∨ blen = 4) (old new : BitVec 32)
    (oldFits : old.toNat < 2 ^ (8 * blen)) (newFits : new.toNat < 2 ^ (8 * blen)) :
    (couldBeArith old new blen = true → ArithReaches blen old new) ∧
      ∀ checkLe, couldBeInterest old new blen checkLe = true →
        InterestReaches blen checkLe old new :=
  ⟨couldBeArith_sound width oldFits newFits, fun _ => couldBeInterest_sound width⟩

/-- A word and one that differs in its high byte. -/
theorem filters_sound_word : ArithReaches 2 0x12ff 0x13ff ∧ InterestReaches 2 true 0x12ff 0x7fff :=
  ⟨(filters_sound 2 (.inr (.inl rfl)) 0x12ff 0x13ff (by decide) (by decide)).1 (by decide),
    (filters_sound 2 (.inr (.inl rfl)) 0x12ff 0x7fff (by decide) (by decide)).2 true (by decide)⟩

end GreenFuzz.AflFuzz
