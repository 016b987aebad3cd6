import GreenFuzz.Library.ByteWords

/-!
# Words at arbitrary positions and in either byte order

`ByteWords` looks at a buffer as a sequence of aligned words. Here a word of
`n` bytes is read and written at any byte position: `loadAt` and `storeAt` are
what an unaligned access of a little-endian machine does. `swapBytes` reverses
the bytes of a word and is its own inverse (`swapBytes_swapBytes`).

Reading `n` bytes with the first one most significant gives the number
`bigEndian`, and `bigEndian_eq` says that this is the value of the swapped word:
arithmetic on the big-endian number is arithmetic between two swaps
(`bigEndian_storeAt`). A sum is worked out digit by digit with a carry
(`digit_of_add`).
-/

set_option autoImplicit false

namespace GreenFuzz.Library

variable {n : ℕ}

/-- The word of `n` bytes that starts at a position. -/
def loadAt (n : ℕ) (buffer : Buffer) (position : ℕ) : BitVec (8 * n) :=
  assemble n fun k => buffer (position + k)

/-- Write the word of `n` bytes that starts at a position. -/
def storeAt (n : ℕ) (buffer : Buffer) (position : ℕ) (word : BitVec (8 * n)) : Buffer :=
  fun address =>
    if position ≤ address ∧ address < position + n then byteOf word (address - position)
    else buffer address

/-- The word with its bytes in the opposite order. -/
def swapBytes (n : ℕ) (word : BitVec (8 * n)) : BitVec (8 * n) :=
  assemble n fun k => byteOf word (n - 1 - k)

/-- The number that `n` bytes spell, most significant first. -/
def bigEndian : ℕ → (ℕ → Byte) → ℕ
  | 0, _ => 0
  | n + 1, bytes => 256 * bigEndian n bytes + (bytes n).toNat

theorem byteOf_loadAt (buffer : Buffer) (position : ℕ) {k : ℕ} (below : k < n) :
    byteOf (loadAt n buffer position) k = buffer (position + k) :=
  byteOf_assemble _ below

theorem storeAt_apply (buffer : Buffer) (position : ℕ) (word : BitVec (8 * n)) (address : ℕ) :
    storeAt n buffer position word address =
      if position ≤ address ∧ address < position + n then byteOf word (address - position)
      else buffer address := rfl

/-- Byte `k` of a word that was written is byte `k` of the word. -/
theorem storeAt_inside (buffer : Buffer) (position : ℕ) (word : BitVec (8 * n)) {k : ℕ}
    (below : k < n) : storeAt n buffer position word (position + k) = byteOf word k := by
  have inside : position ≤ position + k ∧ position + k < position + n := by omega
  rw [storeAt_apply, if_pos inside, Nat.add_sub_cancel_left]

/-- Writing a word touches its own bytes only. -/
theorem storeAt_outside (buffer : Buffer) (position : ℕ) (word : BitVec (8 * n)) {address : ℕ}
    (outside : address < position ∨ position + n ≤ address) :
    storeAt n buffer position word address = buffer address := by
  have apart : ¬ (position ≤ address ∧ address < position + n) := by omega
  rw [storeAt_apply, if_neg apart]

/-- Two words written at one position leave the same buffer only if they are equal. -/
theorem storeAt_inj (buffer : Buffer) (position : ℕ) {left right : BitVec (8 * n)} :
    storeAt n buffer position left = storeAt n buffer position right ↔ left = right := by
  constructor
  · intro same
    apply eq_of_byteOf_eq
    intro k below
    have byte := congrFun same (position + k)
    rwa [storeAt_inside _ _ _ below, storeAt_inside _ _ _ below] at byte
  · rintro rfl
    rfl

/-- A word that was written is read back. -/
theorem loadAt_storeAt (buffer : Buffer) (position : ℕ) (word : BitVec (8 * n)) :
    loadAt n (storeAt n buffer position word) position = word := by
  apply eq_of_byteOf_eq
  intro k below
  rw [byteOf_loadAt _ _ below, storeAt_inside _ _ _ below]

theorem byteOf_swapBytes (word : BitVec (8 * n)) {k : ℕ} (below : k < n) :
    byteOf (swapBytes n word) k = byteOf word (n - 1 - k) :=
  byteOf_assemble _ below

/-- Swapping twice gives the word back. -/
theorem swapBytes_swapBytes (word : BitVec (8 * n)) : swapBytes n (swapBytes n word) = word := by
  apply eq_of_byteOf_eq
  intro k below
  have mirrored : n - 1 - k < n := by omega
  have back : n - 1 - (n - 1 - k) = k := by omega
  rw [byteOf_swapBytes _ below, byteOf_swapBytes _ mirrored, back]

/-- Bytes assembled in reverse have the value that the bytes spell big-endian. -/
theorem toNat_assemble_reversed (bytes : ℕ → Byte) :
    (assemble n fun k => bytes (n - 1 - k)).toNat = bigEndian n bytes := by
  induction n with
  | zero => rfl
  | succ n ih =>
      have rest : (fun k => bytes (n - (k + 1))) = fun k => bytes (n - 1 - k) := by
        funext k
        congr 1
        omega
      have low : (bytes n).toNat < 2 ^ 8 := (bytes n).isLt
      simp only [assemble, Nat.add_sub_cancel, Nat.sub_zero]
      rw [rest, BitVec.toNat_append, ih, ← Nat.shiftLeft_add_eq_or_of_lt low, Nat.shiftLeft_eq,
        bigEndian]
      omega

/-- **The big-endian number at a position is the value of the swapped word.** -/
theorem bigEndian_eq (buffer : Buffer) (position : ℕ) :
    bigEndian n (fun k => buffer (position + k)) =
      (swapBytes n (loadAt n buffer position)).toNat := by
  rw [← toNat_assemble_reversed]
  congr 1
  apply eq_of_byteOf_eq
  intro k below
  have mirrored : n - 1 - k < n := by omega
  rw [byteOf_assemble _ below, byteOf_swapBytes _ below, byteOf_loadAt _ _ mirrored]

/-- What is read big-endian where a swapped word was written is the word. -/
theorem bigEndian_storeAt (buffer : Buffer) (position : ℕ) (word : BitVec (8 * n)) :
    bigEndian n (fun k => storeAt n buffer position (swapBytes n word) (position + k)) =
      word.toNat := by
  rw [bigEndian_eq, loadAt_storeAt, swapBytes_swapBytes]

/-- A word has the value that its bytes spell, the last one most significant. -/
theorem toNat_eq_bigEndian (word : BitVec (8 * n)) :
    word.toNat = bigEndian n fun k => byteOf word (n - 1 - k) := by
  rw [← toNat_assemble_reversed]
  congr 1
  apply eq_of_byteOf_eq
  intro k below
  have back : n - 1 - (n - 1 - k) = k := by omega
  rw [byteOf_assemble _ below, back]

/-! ## Carries -/

/-- Adding to a number in base 256 changes its last digit and hands a carry to the rest. -/
theorem digit_of_add {high low high' low' item m : ℕ} (digit : low' < 256)
    (sum : 256 * high' + low' = (256 * high + low + item) % (256 * m)) :
    low' = (low + item) % 256 ∧ high' = (high + (low + item) / 256) % m := by
  have quotient : (256 * high + low + item) / 256 = high + (low + item) / 256 := by omega
  rw [Nat.mod_mul, quotient] at sum
  omega

/-- A carry passes a digit only if that is the highest one. -/
theorem carry_cases {low item : ℕ} (digit : low < 256) (small : item ≤ 1) :
    (low + item) / 256 = 0 ∨ ((low + item) / 256 = 1 ∧ low = 255 ∧ item = 1) := by
  omega

end GreenFuzz.Library
