import GreenFuzz.AflFuzz.Novelty

/-!
# What `has_new_bits` computes

`has_new_bits` walks the bytes below the real map size, rounded up to whole words.
On these bytes it returns the novelty of the trace and clears the bits of the
trace from the virgin map (`hasNewBits_eq_markBelow`), whatever the word size.

**The return value and the new virgin map are those of the definition by bytes,
and a second call finds nothing and changes nothing** (`hasNewBits_bytewise`).
The two word sizes round differently. They agree exactly when the trace has no
new bits in the word between the two bounds, so on every trace that is zero from
the real map size on. A byte hit there is seen by the 64-bit build only
(`word_sizes_differ`).
-/

set_option autoImplicit false

namespace GreenFuzz.AflFuzz

open Library

/-- The real map size, rounded up to whole words. -/
def walked (W : WordSize) (realMapSize : ℕ) : ℕ := W.n * ((realMapSize + (W.n - 1)) / W.n)

/-- The virgin map with the bits of the trace cleared on the first `size` bytes. -/
def cleared (size : ℕ) (trace virgin : Buffer) : Buffer :=
  fun a => if a < size then virgin a &&& ~~~ trace a else virgin a

/-- `has_new_bits` on the first `size` bytes, without a word size. -/
def markBelow (size : ℕ) (afl : AflState) (map : VirginMap) : ℕ × AflState :=
  let ret := novelty afl.traceBits (afl.virgin map) size
  let next := afl.setVirgin map (cleared size afl.traceBits (afl.virgin map))
  (ret, if ret ≠ 0 ∧ map = .bits then { next with bitmapChanged := true } else next)

/-! ## Bytes -/

/-- Clearing bits changes nothing exactly when none of them is set. -/
theorem and_not_eq_self_iff (virgin trace : Byte) :
    virgin &&& ~~~ trace = virgin ↔ trace &&& virgin = 0#8 := by
  constructor
  · intro same
    apply BitVec.eq_of_getLsbD_eq
    intro j inByte
    have bit := congrArg (fun byte => byte.getLsbD j) same
    simp only [BitVec.getLsbD_and, BitVec.getLsbD_not, inByte, decide_true, Bool.true_and] at bit
    simp only [BitVec.getLsbD_and, BitVec.getLsbD_zero]
    revert bit
    cases trace.getLsbD j <;> cases virgin.getLsbD j <;> simp
  · intro disjoint
    apply BitVec.eq_of_getLsbD_eq
    intro j inByte
    have bit := congrArg (fun byte => byte.getLsbD j) disjoint
    simp only [BitVec.getLsbD_and, BitVec.getLsbD_zero] at bit
    simp only [BitVec.getLsbD_and, BitVec.getLsbD_not, inByte, decide_true, Bool.true_and]
    revert bit
    cases trace.getLsbD j <;> cases virgin.getLsbD j <;> simp

/-- Cleared bits stay cleared. -/
theorem and_not_and_not (virgin trace : Byte) :
    virgin &&& ~~~ trace &&& ~~~ trace = virgin &&& ~~~ trace := by
  rw [BitVec.and_assoc, BitVec.and_self]

/-- A byte meets a pristine byte exactly when it is hit. -/
theorem meets_pristine_iff (trace virgin : Byte) :
    trace &&& virgin ≠ 0#8 ∧ virgin = 255#8 ↔ trace ≠ 0#8 ∧ virgin = 255#8 := by
  refine and_congr_left fun pristine => ⟨fun meets zero => meets ?_, fun hit =>
    meets_of_pristine hit pristine⟩
  rw [zero, BitVec.zero_and]

theorem cleared_cleared (size : ℕ) (trace virgin : Buffer) :
    cleared size trace (cleared size trace virgin) = cleared size trace virgin := by
  funext a
  simp only [cleared]
  split
  · exact and_not_and_not _ _
  · rfl

/-- A trace brings nothing new once its bits are cleared. -/
theorem novelty_cleared (size : ℕ) (trace virgin : Buffer) :
    novelty trace (cleared size trace virgin) size = 0 := by
  have disjoint : ∀ a < size, trace a &&& cleared size trace virgin a = 0#8 := by
    intro a below
    rw [cleared, if_pos below]
    exact (and_not_eq_self_iff _ _).mp (and_not_and_not _ _)
  rw [novelty, if_neg, if_neg]
  · rintro ⟨a, below, meets⟩
    exact meets (disjoint a below)
  · rintro ⟨a, below, hit, pristine⟩
    exact meets_of_pristine hit pristine (disjoint a below)

/-- The virgin maps for two bounds agree exactly when the trace has no new bits between them. -/
theorem cleared_eq_iff {small large : ℕ} (le : small ≤ large) (trace virgin : Buffer) :
    cleared large trace virgin = cleared small trace virgin ↔
      ∀ a, small ≤ a → a < large → trace a &&& virgin a = 0#8 := by
  constructor
  · intro same a above below
    have byte := congrFun same a
    rw [cleared, cleared, if_pos below, if_neg (Nat.not_lt.mpr above)] at byte
    exact (and_not_eq_self_iff _ _).mp byte
  · intro disjoint
    funext a
    simp only [cleared]
    by_cases early : a < small
    · rw [if_pos early, if_pos (Nat.lt_of_lt_of_le early le)]
    · rw [if_neg early]
      split
      · exact (and_not_eq_self_iff _ _).mpr (disjoint a (Nat.le_of_not_lt early) ‹_›)
      · rfl

/-- Bytes without new bits do not count towards the novelty. -/
theorem novelty_eq_of_disjoint {small large : ℕ} (le : small ≤ large) {trace virgin : Buffer}
    (disjoint : ∀ a, small ≤ a → a < large → trace a &&& virgin a = 0#8) :
    novelty trace virgin large = novelty trace virgin small := by
  have restrict (p : ℕ → Prop) (needs : ∀ a, p a → trace a &&& virgin a ≠ 0#8) :
      (∃ a < large, p a) ↔ ∃ a < small, p a := by
    constructor
    · rintro ⟨a, below, holds⟩
      by_cases early : a < small
      · exact ⟨a, early, holds⟩
      · exact absurd (disjoint a (Nat.le_of_not_lt early) below) (needs a holds)
    · rintro ⟨a, below, holds⟩
      exact ⟨a, Nat.lt_of_lt_of_le below le, holds⟩
  have pristine := restrict (fun a => trace a ≠ 0 ∧ virgin a = 255#8) fun a holds =>
    meets_of_pristine holds.1 holds.2
  have fresh := restrict (fun a => trace a &&& virgin a ≠ 0) fun a holds => holds
  simp only [novelty, pristine, fresh]

/-! ## The walked bytes -/

theorem hasNewBits_eq_markBelow (W : WordSize) (afl : AflState) (map : VirginMap) :
    hasNewBits W afl map = markBelow (walked W afl.realMapSize) afl map := by
  have virgin : (discover W.n ((afl.realMapSize + (W.n - 1)) / W.n) afl.traceBits
      (afl.virgin map)).2 = cleared (walked W afl.realMapSize) afl.traceBits (afl.virgin map) := by
    funext a
    rw [discover_virgin W.positive, cleared, walked]
    simp only [Nat.div_lt_iff_lt_mul W.positive, Nat.mul_comm]
  simp only [hasNewBits, markBelow, discover_ret W.positive, virgin]
  rfl

theorem markBelow_ret (size : ℕ) (afl : AflState) (map : VirginMap) :
    (markBelow size afl map).1 = novelty afl.traceBits (afl.virgin map) size := rfl

theorem markBelow_virgin (size : ℕ) (afl : AflState) (map : VirginMap) :
    (markBelow size afl map).2.virgin map = cleared size afl.traceBits (afl.virgin map) := by
  simp only [markBelow]
  split
  · cases map <;> rfl
  · exact AflState.virgin_setVirgin ..

theorem markBelow_frame (size : ℕ) (afl : AflState) (map : VirginMap) :
    (markBelow size afl map).2.traceBits = afl.traceBits ∧
      (markBelow size afl map).2.realMapSize = afl.realMapSize := by
  simp only [markBelow]
  split <;> cases map <;> exact ⟨rfl, rfl⟩

/-- A second call returns 0 and changes nothing. -/
theorem markBelow_again (size : ℕ) (afl : AflState) (map : VirginMap) :
    markBelow size (markBelow size afl map).2 map = (0, (markBelow size afl map).2) := by
  have virgin := markBelow_virgin size afl map
  obtain ⟨trace, -⟩ := markBelow_frame size afl map
  generalize (markBelow size afl map).2 = marked at virgin trace ⊢
  have same : cleared size marked.traceBits (marked.virgin map) = marked.virgin map := by
    rw [trace, virgin, cleared_cleared]
  have nothing : novelty marked.traceBits (marked.virgin map) size = 0 := by
    rw [trace, virgin, novelty_cleared]
  simp only [markBelow, same, nothing, ne_eq, not_true_eq_false, false_and, if_false,
    AflState.setVirgin_virgin]

/-- Two bounds give the same result exactly when the trace has no new bits between them. -/
theorem markBelow_eq_iff {small large : ℕ} (le : small ≤ large) (afl : AflState)
    (map : VirginMap) :
    markBelow large afl map = markBelow small afl map ↔
      ∀ a, small ≤ a → a < large → afl.traceBits a &&& afl.virgin map a = 0#8 := by
  rw [← cleared_eq_iff le]
  constructor
  · intro same
    rw [← markBelow_virgin, ← markBelow_virgin, same]
  · intro same
    have ret := novelty_eq_of_disjoint le ((cleared_eq_iff le _ _).mp same)
    simp only [markBelow, ret, same]

theorem walked_word32_le (realMapSize : ℕ) :
    walked word32 realMapSize ≤ walked word64 realMapSize := by
  simp only [walked, word32, word64]
  omega

theorem word_sizes_agree_iff (afl : AflState) (map : VirginMap) :
    hasNewBits word64 afl map = hasNewBits word32 afl map ↔
      ∀ a, walked word32 afl.realMapSize ≤ a → a < walked word64 afl.realMapSize →
        afl.traceBits a &&& afl.virgin map a = 0#8 := by
  rw [hasNewBits_eq_markBelow, hasNewBits_eq_markBelow]
  exact markBelow_eq_iff (walked_word32_le _) afl map

/-- **`has_new_bits` meets its definition by bytes.** It returns 2 when a walked byte of the
trace meets a pristine byte, else 1 when one meets the virgin map, else 0. The bits of the trace
are cleared where it meets the virgin map, and nowhere else. A second call returns 0 and changes
nothing. The two word sizes agree exactly when nothing new is hit between their bounds. -/
theorem hasNewBits_bytewise (afl : AflState) (map : VirginMap) :
    (∀ W : WordSize,
      (hasNewBits W afl map).1 =
        (if ∃ a < walked W afl.realMapSize,
            afl.traceBits a &&& afl.virgin map a ≠ 0#8 ∧ afl.virgin map a = 255#8 then 2
          else if ∃ a < walked W afl.realMapSize, afl.traceBits a &&& afl.virgin map a ≠ 0#8 then 1
          else 0) ∧
      (∀ a, (hasNewBits W afl map).2.virgin map a =
        if a < walked W afl.realMapSize ∧ afl.traceBits a &&& afl.virgin map a ≠ 0#8 then
          afl.virgin map a &&& ~~~ afl.traceBits a
        else afl.virgin map a) ∧
      hasNewBits W (hasNewBits W afl map).2 map = (0, (hasNewBits W afl map).2)) ∧
    (hasNewBits word64 afl map = hasNewBits word32 afl map ↔
      ∀ a, walked word32 afl.realMapSize ≤ a → a < walked word64 afl.realMapSize →
        afl.traceBits a &&& afl.virgin map a = 0#8) := by
  refine ⟨fun W => ⟨?_, fun a => ?_, ?_⟩, word_sizes_agree_iff afl map⟩
  · simp only [hasNewBits_eq_markBelow, markBelow_ret, novelty, meets_pristine_iff]
    rfl
  · rw [hasNewBits_eq_markBelow, markBelow_virgin, cleared]
    by_cases below : a < walked W afl.realMapSize
    · rw [if_pos below]
      by_cases disjoint : afl.traceBits a &&& afl.virgin map a = 0#8
      · rw [if_neg fun meets => meets.2 disjoint]
        exact (and_not_eq_self_iff _ _).mpr disjoint
      · rw [if_pos ⟨below, disjoint⟩]
    · rw [if_neg below, if_neg fun meets => below meets.1]
  · have again := markBelow_again (walked W afl.realMapSize) afl map
    rw [hasNewBits_eq_markBelow, hasNewBits_eq_markBelow,
      (markBelow_frame (walked W afl.realMapSize) afl map).2]
    exact again

/-- A byte that is hit past the real map size, in the second half of the last 64-bit word. -/
theorem word_sizes_differ :
    ¬ ∀ (afl : AflState) (map : VirginMap),
      hasNewBits word64 afl map = hasNewBits word32 afl map := by
  intro always
  have same := always
    { mapSize := 64, realMapSize := 4, traceBits := fun a => if a = 5 then 1 else 0 } .bits
  rw [word_sizes_agree_iff] at same
  exact absurd (same 5 (by decide) (by decide)) (by decide)

end GreenFuzz.AflFuzz
