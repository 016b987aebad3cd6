import GreenFuzz.Library.ByteWords
import Mathlib.Logic.Function.Basic

/-!
# Bit arrays packed into bytes

Bit `i` of a byte buffer is bit `i % 8` of byte `i / 8`. Three operations are
enough for set-like use of such an array: testing a bit, setting a bit, and
removing all the bits of another array. Each has one lemma that says which bits
the result has.
-/

set_option autoImplicit false

namespace GreenFuzz.Library

/-- The byte with only the bit of index `i` set: `1 << (i & 7)`. -/
def bitMask (i : ℕ) : Byte := 1#8 <<< (i % 8)

/-- Whether bit `i` of the array is set: `buf[i >> 3] & (1 << (i & 7))`. -/
def bitSet (buffer : Buffer) (i : ℕ) : Bool := buffer (i / 8) &&& bitMask i != 0

/-- Set bit `i` of the array: `buf[i >> 3] |= 1 << (i & 7)`. -/
def setBit (buffer : Buffer) (i : ℕ) : Buffer :=
  Function.update buffer (i / 8) (buffer (i / 8) ||| bitMask i)

/-- Remove from the first `len` bytes the bits of another array:
`buf[j] &= ~other[j]`. -/
def removeBits (len : ℕ) (buffer other : Buffer) : Buffer :=
  fun j => if j < len then buffer j &&& ~~~ other j else buffer j

theorem getLsbD_bitMask (i k : ℕ) : (bitMask i).getLsbD k = decide (k = i % 8) := by
  have below : i % 8 < 8 := Nat.mod_lt _ (by decide)
  simp only [bitMask, BitVec.getLsbD_shiftLeft, BitVec.getLsbD_one]
  rcases lt_trichotomy k (i % 8) with h | h | h
  · simp [h, h.ne]
  · simp [h, below]
  · simp only [show ¬ k < i % 8 by omega, show ¬ k - i % 8 = 0 by omega, h.ne', decide_false,
      Bool.and_false]

theorem bitSet_eq_getLsbD (buffer : Buffer) (i : ℕ) :
    bitSet buffer i = (buffer (i / 8)).getLsbD (i % 8) := by
  have below : i % 8 < 8 := Nat.mod_lt _ (by decide)
  rw [bitSet, Bool.eq_iff_iff, bne_iff_ne]
  constructor
  · intro meets
    by_contra unset
    apply meets
    apply BitVec.eq_of_getLsbD_eq
    intro k _
    rw [BitVec.getLsbD_and, getLsbD_bitMask, BitVec.ofNat_eq_ofNat, BitVec.getLsbD_zero]
    by_cases same : k = i % 8
    · subst same
      simp only [Bool.not_eq_true] at unset
      rw [unset, Bool.false_and]
    · rw [decide_eq_false same, Bool.and_false]
  · intro set none
    have bit := congrArg (fun byte => byte.getLsbD (i % 8)) none
    simp only [BitVec.getLsbD_and, getLsbD_bitMask, set, decide_true, Bool.and_true,
      BitVec.ofNat_eq_ofNat, BitVec.getLsbD_zero, Bool.true_eq_false] at bit

/-- Two indices with the same byte and the same bit are the same index. -/
theorem index_eq_of_div_mod {i j : ℕ} (byte : j / 8 = i / 8) (bit : j % 8 = i % 8) : j = i := by
  omega

@[simp] theorem bitSet_setBit (buffer : Buffer) (i j : ℕ) :
    bitSet (setBit buffer i) j = (decide (j = i) || bitSet buffer j) := by
  simp only [bitSet_eq_getLsbD, setBit, Function.update_apply]
  by_cases byte : j / 8 = i / 8
  · rw [if_pos byte, BitVec.getLsbD_or, getLsbD_bitMask, byte, Bool.or_comm]
    congr 1
    exact decide_eq_decide.mpr ⟨index_eq_of_div_mod byte, fun same => same ▸ rfl⟩
  · rw [if_neg byte]
    have differ : j ≠ i := fun same => byte (same ▸ rfl)
    rw [decide_eq_false differ, Bool.false_or]

theorem bitSet_removeBits {len : ℕ} (buffer other : Buffer) {i : ℕ} (inside : i < 8 * len) :
    bitSet (removeBits len buffer other) i = (bitSet buffer i && !bitSet other i) := by
  have byte : i / 8 < len := by omega
  have bit : i % 8 < 8 := Nat.mod_lt _ (by decide)
  simp only [bitSet_eq_getLsbD, removeBits, if_pos byte, BitVec.getLsbD_and, BitVec.getLsbD_not,
    bit, decide_true, Bool.true_and]

/-- An array of `0xff` bytes has all its bits set. -/
theorem bitSet_ones {buffer : Buffer} {i : ℕ} (ones : buffer (i / 8) = 255#8) :
    bitSet buffer i = true := by
  have bit : i % 8 < 8 := Nat.mod_lt _ (by decide)
  rw [bitSet_eq_getLsbD, ones, show (255#8 : Byte) = BitVec.allOnes 8 from rfl,
    BitVec.getLsbD_allOnes, decide_eq_true bit]

@[simp] theorem bitSet_zero (i : ℕ) : bitSet (fun _ => 0) i = false := by
  simp [bitSet]

end GreenFuzz.Library
