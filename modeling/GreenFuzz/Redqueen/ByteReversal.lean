import GreenFuzz.Redqueen.CmpRestores

/-!
# Reversing the bytes of wide operands

`SWAPN` reverses all 16 bytes of a `u128` and shifts what is above the operand out again. The
shift count is computed from a length in bytes. `try_to_add_to_dictN` passes bytes.
`cmp_extend_encodingN` passes bits: the count is negative for every operand of more than two
bytes, so that it wraps around (`swapn_right_iff`).
-/

set_option autoImplicit false

namespace GreenFuzz.Redqueen

open Library AflFuzz

/-! ## The dictionary -/

/-- Whether there are two bytes 0 or two bytes 255 without another byte between them. -/
def dictSkips : List Byte → ℕ → ℕ → Bool
  | [], _, _ => false
  | byte :: rest, cons0, consFf =>
      let counts :=
        if byte = 0 then (cons0 + 1, consFf)
        else if byte = 255 then (cons0, consFf + 1)
        else (0, 0)
      if 1 < counts.1 ∨ 1 < counts.2 then true else dictSkips rest counts.1 counts.2

/-- The bytes of an operand in memory. -/
def operandBytes (size : ℕ) (v : BitVec 128) : List Byte := (List.range size).map (byteOf v)

/-- The tokens that `try_to_add_to_dictN` passes to `maybe_add_auto`. -/
def tryToAddToDictN (machine : Machine) (v : BitVec 128) (size : ℕ) : List (List Byte) :=
  if dictSkips (operandBytes size v) 0 0 then []
  else [operandBytes size v, operandBytes size (swapn machine v size)]

/-! ## Bytes of a shifted word -/

theorem byteOf_ushiftRight {w : ℕ} (word : BitVec w) (m k : ℕ) :
    byteOf (word >>> (8 * m)) k = byteOf word (m + k) := by
  apply BitVec.eq_of_getLsbD_eq
  intro j _
  have position : 8 * m + (8 * k + j) = 8 * (m + k) + j := by omega
  rw [getLsbD_byteOf, getLsbD_byteOf, BitVec.getLsbD_ushiftRight, position]

/-- There are no bytes above a word. -/
theorem byteOf_beyond {n k : ℕ} (word : BitVec (8 * n)) (beyond : n ≤ k) : byteOf word k = 0 := by
  apply BitVec.eq_of_getLsbD_eq
  intro j _
  have outside : 8 * n ≤ 8 * k + j := by omega
  rw [getLsbD_byteOf, BitVec.getLsbD_of_ge word _ outside, Bool.and_false]
  exact (BitVec.getLsbD_zero).symm

/-- The low `n` bytes of a value are those of another one in reverse order, and the others 0. -/
def Reverses (n : ℕ) (x y : BitVec 128) : Prop :=
  ∀ k < 16, byteOf y k = if k < n then byteOf x (n - 1 - k) else 0

/-- With a length in bytes, the count is that of the bytes above the operand. -/
theorem swapnShift_bytes {n : ℕ} (narrow : n ≤ 16) : swapnShift n = 8 * (16 - n) := by
  have shifted : n <<< 3 = 8 * n := by
    rw [Nat.shiftLeft_eq]
    omega
  have small : 8 * n < 2 ^ 32 := by omega
  rw [swapnShift, shifted, u32_of_lt small, u32Sub_of_le (by omega) (by decide)]
  omega

/-- With a length in bits, it wraps around. -/
theorem swapnShift_bits {n : ℕ} (wide : 2 < n) (narrow : n ≤ 16) :
    128 ≤ swapnShift (u32 (n <<< 3)) := by
  rw [swapnShift, u32Sub, u32, u32, u32, Nat.shiftLeft_eq, Nat.shiftLeft_eq]
  omega

theorem swapn_bytes (machine : Machine) {n : ℕ} (positive : 0 < n) (narrow : n ≤ 16)
    (x : BitVec 128) : Reverses n x (swapn machine x n) := by
  have shift := swapnShift_bytes narrow
  have below : 8 * (16 - n) < 128 := by omega
  intro k inside
  rw [swapn, shift, if_pos below, byteOf_ushiftRight]
  split
  next low =>
      have kept : 16 - n + k < 16 := by omega
      have mirrored : 16 - 1 - (16 - n + k) = n - 1 - k := by omega
      rw [byteOf_swapBytes x kept, mirrored]
  next high => exact byteOf_beyond _ (by omega)

/-! ## The evaluations -/

/-- Where `SWAPN` is evaluated. -/
inductive SwapnSite where
  | cmpExtendEncodingN | tryToAddToDictN
  deriving DecidableEq, Repr

/-- The length that is passed for an operand of `n` bytes. -/
def SwapnSite.length : SwapnSite → ℕ → ℕ
  | cmpExtendEncodingN, n => u32 (n <<< 3)
  | tryToAddToDictN, n => n

/-- The operands of the nested call, and the second token, are what the evaluations give. -/
theorem CmpArgs.reversed_eq (machine : Machine) (n : ℕ) (a : CmpArgs 128) :
    a.reversed machine n =
      a.swapped fun x => swapn machine x (SwapnSite.cmpExtendEncodingN.length n) := rfl

theorem mem_tryToAddToDictN {machine : Machine} {v : BitVec 128} {size : ℕ} {token : List Byte}
    (added : token ∈ Redqueen.tryToAddToDictN machine v size) :
    token = operandBytes size v ∨
      token = operandBytes size (swapn machine v (SwapnSite.tryToAddToDictN.length size)) := by
  unfold Redqueen.tryToAddToDictN at added
  split at added
  · cases added
  · rcases List.mem_pair.mp added with first | second
    · exact .inl first
    · exact .inr second

/-- **An evaluation of `SWAPN` has a defined shift and reverses the operand** exactly where the
length is passed in bytes, which `cmp_extend_encodingN` does for no operand. -/
theorem swapn_right_iff (machine : Machine) {n : ℕ} (wide : 2 < n) (narrow : n ≤ 16)
    (x : BitVec 128) (site : SwapnSite) :
    (swapnShift (site.length n) < 128 ∧ Reverses n x (swapn machine x (site.length n))) ↔
      site = .tryToAddToDictN := by
  cases site with
  | cmpExtendEncodingN =>
      have wraps := swapnShift_bits wide narrow
      constructor
      · intro right
        exact absurd right.1 (not_lt.mpr wraps)
      · intro same
        cases same
  | tryToAddToDictN =>
      have shift := swapnShift_bytes narrow
      refine iff_of_true ⟨?_, swapn_bytes machine (by omega) narrow x⟩ rfl
      show swapnShift n < 128
      omega

/-- An operand of three bytes at both places. -/
theorem swapn_right_iff_three :
    (swapnShift 3 < 128 ∧ Reverses 3 0x010203 (swapn idleMachine 0x010203 3)) ∧
      ¬ (swapnShift (u32 (3 <<< 3)) < 128 ∧
        Reverses 3 0x010203 (swapn idleMachine 0x010203 (u32 (3 <<< 3)))) := by
  have wide : 2 < 3 := by decide
  have narrow : 3 ≤ 16 := by decide
  constructor
  · exact (swapn_right_iff idleMachine wide narrow _ .tryToAddToDictN).mpr rfl
  · intro right
    have same := (swapn_right_iff idleMachine wide narrow _ .cmpExtendEncodingN).mp right
    cases same

/-- A machine that shifts by the count modulo 128. -/
def moduloMachine : Machine :=
  ⟨id, id, id, id, fun x => x.setWidth 32, fun x count => x >>> (count % 128)⟩

/-- For the operand 1 of three bytes the count is 2³² - 64, and where only its low 7 bits matter
the nested call gets 2⁵⁶ instead of 2¹⁶. -/
theorem reversed_three_wrong :
    swapnShift (u32 (3 <<< 3)) = 4294967232 ∧
      ((sevenArgs 1).reversed moduloMachine 3).repl = 0x100000000000000 ∧
      ¬ Reverses 3 1 0x100000000000000 ∧ Reverses 3 1 0x10000 := by
  refine ⟨by decide, by decide, ?_, ?_⟩
  · intro right
    exact absurd (right 7 (by decide)) (by decide)
  · intro k inside
    revert k
    decide

end GreenFuzz.Redqueen
