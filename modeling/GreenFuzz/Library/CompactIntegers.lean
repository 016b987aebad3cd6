import GreenFuzz.Library.ByteWords
import Mathlib.Data.Nat.Digits.Lemmas

/-!
# Compact integers

The compact integers of the SCALE codec, on a little-endian machine. The two low bits of the
first byte are the mode. In the modes 0, 1 and 2 the integer is what is above them in 1, 2 or 4
bytes. In mode 3 the rest of the first byte is the number of bytes that follow, less 4. Every
integer has one encoding: a longer one than needed is refused.

`decodeCompact_small` and `decodeCompact_big` say what the encodings of the modes decode to.
-/

set_option autoImplicit false

namespace GreenFuzz.Library

/-- The number that bytes spell, least significant first. -/
def littleEndian (bytes : List Byte) : ℕ := Nat.ofDigits 256 (bytes.map BitVec.toNat)

/-- The low `n` bytes of a number, least significant first. -/
def lowBytes (n value : ℕ) : List Byte :=
  (List.range n).map fun k => BitVec.ofNat 8 (value / 256 ^ k)

/-- The least integer of a mode below 3. -/
def leastOfMode : ℕ → ℕ
  | 0 => 0
  | 1 => 64
  | _ => 2 ^ 14

/-- The compact integer at the beginning of bytes, and how many bytes it takes. -/
def decodeCompact : List Byte → Option (ℕ × ℕ)
  | [] => none
  | first :: rest =>
      let mode := first.toNat % 4
      if mode = 3 then
        let n := first.toNat / 4 + 4
        let value := littleEndian (rest.take n)
        if n ≤ rest.length ∧ 2 ^ 30 ≤ value ∧ 256 ^ (n - 1) ≤ value then some (value, n + 1)
        else none
      else
        let value := littleEndian ((first :: rest).take (2 ^ mode)) / 4
        if 2 ^ mode ≤ rest.length + 1 ∧ leastOfMode mode ≤ value then some (value, 2 ^ mode)
        else none

@[simp] theorem length_lowBytes (n value : ℕ) : (lowBytes n value).length = n := by
  rw [lowBytes, List.length_map, List.length_range]

/-- The lowest byte, and the others. -/
theorem lowBytes_succ (n value : ℕ) :
    lowBytes (n + 1) value = BitVec.ofNat 8 value :: lowBytes n (value / 256) := by
  rw [lowBytes, List.range_succ_eq_map, List.map_cons, List.map_map, pow_zero, Nat.div_one,
    lowBytes]
  congr 1
  apply List.map_congr_left
  intro k _
  rw [Function.comp_apply, Nat.pow_succ', Nat.div_div_eq_div_mul]

theorem littleEndian_lowBytes (n value : ℕ) :
    littleEndian (lowBytes n value) = value % 256 ^ n := by
  induction n with
  | zero => rw [pow_zero, Nat.mod_one]; rfl
  | succ n ih =>
      rw [littleEndian, lowBytes, List.range_succ, List.map_append, List.map_append,
        Nat.ofDigits_append, List.length_map, List.length_map, List.length_range]
      rw [littleEndian, lowBytes] at ih
      rw [ih, List.map_singleton, List.map_singleton, Nat.ofDigits_singleton, BitVec.toNat_ofNat]
      exact Nat.mod_pow_succ.symm

/-- The bytes of a word are those of its value. -/
theorem map_byteOf {w : ℕ} (word : BitVec w) (n : ℕ) :
    (List.range n).map (byteOf word) = lowBytes n word.toNat := by
  apply List.map_congr_left
  intro k _
  apply BitVec.eq_of_toNat_eq
  rw [byteOf, BitVec.extractLsb'_toNat, BitVec.toNat_ofNat, Nat.shiftRight_eq_div_pow, pow_mul]
  rfl

/-- What a mode below 3 decodes to. -/
theorem decodeCompact_small {mode value : ℕ} (below : mode < 3)
    (fits : 4 * value + mode < 256 ^ 2 ^ mode) (rest : List Byte) :
    decodeCompact (lowBytes (2 ^ mode) (4 * value + mode) ++ rest) =
      if leastOfMode mode ≤ value then some (value, 2 ^ mode) else none := by
  obtain ⟨more, length⟩ := Nat.exists_eq_add_of_le' (Nat.one_le_two_pow (n := mode))
  have low : (BitVec.ofNat 8 (4 * value + mode)).toNat % 4 = mode := by
    rw [BitVec.toNat_ofNat]
    omega
  have all : lowBytes (2 ^ mode) (4 * value + mode) ++ rest =
      BitVec.ofNat 8 (4 * value + mode) ::
        (lowBytes more ((4 * value + mode) / 256) ++ rest) := by
    rw [length, lowBytes_succ, List.cons_append]
  have taken : (lowBytes (2 ^ mode) (4 * value + mode) ++ rest).take (2 ^ mode) =
      lowBytes (2 ^ mode) (4 * value + mode) :=
    List.take_left' (length_lowBytes _ _)
  have number : littleEndian (lowBytes (2 ^ mode) (4 * value + mode)) / 4 = value := by
    rw [littleEndian_lowBytes, Nat.mod_eq_of_lt fits]
    omega
  have long : 2 ^ mode ≤ (lowBytes more ((4 * value + mode) / 256) ++ rest).length + 1 := by
    rw [List.length_append, length_lowBytes]
    omega
  rw [all, decodeCompact]
  dsimp only
  rw [low, ← all, taken, number, if_neg below.ne]
  exact if_congr (and_iff_right long) rfl rfl

/-- What the big-integer mode decodes to. -/
theorem decodeCompact_big {n value : ℕ} (least : 4 ≤ n) (most : n < 68) (big : 2 ^ 30 ≤ value)
    (needed : 256 ^ (n - 1) ≤ value) (fits : value < 256 ^ n) (rest : List Byte) :
    decodeCompact (lowBytes (n + 1) (256 * value + (4 * (n - 4) + 3)) ++ rest) =
      some (value, n + 1) := by
  have first : (BitVec.ofNat 8 (256 * value + (4 * (n - 4) + 3))).toNat = 4 * (n - 4) + 3 := by
    rw [BitVec.toNat_ofNat]
    omega
  have mode : (4 * (n - 4) + 3) % 4 = 3 := by omega
  have bytes : (4 * (n - 4) + 3) / 4 + 4 = n := by omega
  have above : (256 * value + (4 * (n - 4) + 3)) / 256 = value := by omega
  have long : n ≤ (lowBytes n value ++ rest).length := by
    rw [List.length_append, length_lowBytes]
    exact Nat.le_add_right _ _
  have taken : littleEndian ((lowBytes n value ++ rest).take n) = value := by
    rw [List.take_left' (length_lowBytes _ _), littleEndian_lowBytes, Nat.mod_eq_of_lt fits]
  rw [lowBytes_succ, List.cons_append, decodeCompact]
  dsimp only
  rw [first, if_pos mode, bytes, above, taken, if_pos ⟨long, big, needed⟩]

end GreenFuzz.Library
