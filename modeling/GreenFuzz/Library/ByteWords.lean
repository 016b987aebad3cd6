import Mathlib.Data.BitVec
import Mathlib.Tactic.Common

/-!
# Words of bytes in a byte buffer

A buffer is a function from addresses to bytes. A machine word of `n` bytes is
a bit vector of width `8 * n`, read little-endian: byte `k` of the word at
index `i` is the byte of the buffer at address `n * i + k`.

The words of the buffer are what word-sized loops see, and the bytes are what
such loops are about. The lemmas here carry a property across: a word is zero
exactly when its bytes are, the conjunction of two words is nonzero exactly
when some pair of bytes meets (`and_ne_zero_iff`), writing a word writes its
bytes and nothing else (`storeWord_apply`), and a loop that treats the words one
by one treats the bytes one by one (`foldl_words_apply`).
-/

set_option autoImplicit false

namespace GreenFuzz.Library

/-- A byte of memory. -/
abbrev Byte := BitVec 8

/-- A byte buffer, total on addresses. The length lives with the code that
walks it. -/
abbrev Buffer := ℕ → Byte

/-- Byte `k` of a word. -/
def byteOf {w : ℕ} (word : BitVec w) (k : ℕ) : Byte := word.extractLsb' (8 * k) 8

/-- The word whose bytes are given, least significant first. -/
def assemble : (n : ℕ) → (ℕ → Byte) → BitVec (8 * n)
  | 0, _ => 0
  | n + 1, bytes => (assemble n fun k => bytes (k + 1)) ++ bytes 0

/-- The word of `n` bytes at word index `i`, read little-endian. -/
def loadWord (n : ℕ) (buffer : Buffer) (i : ℕ) : BitVec (8 * n) :=
  assemble n fun k => buffer (n * i + k)

/-- Write the word of `n` bytes at word index `i`. -/
def storeWord (n : ℕ) (buffer : Buffer) (i : ℕ) (word : BitVec (8 * n)) : Buffer :=
  fun address => if address / n = i then byteOf word (address % n) else buffer address

variable {n : ℕ}

theorem getLsbD_byteOf {w : ℕ} (word : BitVec w) (k j : ℕ) :
    (byteOf word k).getLsbD j = (decide (j < 8) && word.getLsbD (8 * k + j)) := by
  simp [byteOf]

/-- A word is determined by its bytes. -/
theorem eq_of_byteOf_eq {left right : BitVec (8 * n)}
    (bytes : ∀ k < n, byteOf left k = byteOf right k) : left = right := by
  apply BitVec.eq_of_getLsbD_eq
  intro j below
  have byteIndex : j / 8 < n := by omega
  have bit := congrArg (fun byte => byte.getLsbD (j % 8)) (bytes (j / 8) byteIndex)
  have inByte : j % 8 < 8 := Nat.mod_lt _ (by decide)
  simp only [getLsbD_byteOf, inByte, decide_true, Bool.true_and, Nat.div_add_mod] at bit
  exact bit

@[simp] theorem byteOf_zero (w k : ℕ) : byteOf (0 : BitVec w) k = 0 := by
  simp [byteOf]

@[simp] theorem byteOf_and {w : ℕ} (left right : BitVec w) (k : ℕ) :
    byteOf (left &&& right) k = byteOf left k &&& byteOf right k := by
  simp [byteOf, BitVec.extractLsb'_and]

theorem byteOf_not (word : BitVec (8 * n)) {k : ℕ} (below : k < n) :
    byteOf (~~~ word) k = ~~~ byteOf word k := by
  apply BitVec.eq_of_getLsbD_eq
  intro j inByte
  have inWord : 8 * k + j < 8 * n := by omega
  simp only [getLsbD_byteOf, BitVec.getLsbD_not, inByte, inWord, decide_true, Bool.true_and]

/-- A word is zero exactly when all its bytes are. -/
theorem eq_zero_iff (word : BitVec (8 * n)) : word = 0 ↔ ∀ k < n, byteOf word k = 0 := by
  constructor
  · rintro rfl k _
    exact byteOf_zero _ _
  · intro bytes
    apply eq_of_byteOf_eq
    intro k below
    rw [bytes k below, byteOf_zero]

/-- Two words meet exactly when some pair of their bytes does. -/
theorem and_ne_zero_iff (left right : BitVec (8 * n)) :
    left &&& right ≠ 0 ↔ ∃ k < n, byteOf left k &&& byteOf right k ≠ 0 := by
  rw [Ne, eq_zero_iff]
  push Not
  simp only [byteOf_and]

/-- The bytes of an assembled word are the bytes it was assembled from. -/
theorem byteOf_assemble (bytes : ℕ → Byte) {k : ℕ} (below : k < n) :
    byteOf (assemble n bytes) k = bytes k := by
  induction n generalizing bytes k with
  | zero => omega
  | succ n ih =>
      apply BitVec.eq_of_getLsbD_eq
      intro j inByte
      rw [getLsbD_byteOf, assemble, BitVec.getLsbD_append]
      cases k with
      | zero => simp only [inByte, decide_true, Bool.true_and, Nat.mul_zero, Nat.zero_add, if_true]
      | succ k =>
          have rest := congrArg (fun byte => byte.getLsbD j)
            (ih (fun k => bytes (k + 1)) (Nat.lt_of_succ_lt_succ below))
          have past : ¬ 8 * (k + 1) + j < 8 := by omega
          have shifted : 8 * (k + 1) + j - 8 = 8 * k + j := by omega
          simp only [getLsbD_byteOf, inByte, decide_true, Bool.true_and] at rest ⊢
          rw [if_neg past, shifted, rest]

/-- Byte `k` of the word at index `i` is the byte at address `n * i + k`. -/
@[simp] theorem byteOf_loadWord (buffer : Buffer) (i : ℕ) {k : ℕ} (below : k < n) :
    byteOf (loadWord n buffer i) k = buffer (n * i + k) :=
  byteOf_assemble _ below

/-- The bytes of a word that is zero are zero. -/
theorem apply_of_loadWord_eq_zero {buffer : Buffer} {i address : ℕ} (positive : 0 < n)
    (word : loadWord n buffer i = 0) (here : address / n = i) : buffer address = 0 := by
  have below : address % n < n := Nat.mod_lt _ positive
  have byte := (eq_zero_iff _).mp word _ below
  rwa [byteOf_loadWord _ _ below, ← here, Nat.div_add_mod] at byte

theorem storeWord_apply (buffer : Buffer) (i : ℕ) (word : BitVec (8 * n)) (address : ℕ) :
    storeWord n buffer i word address =
      if address / n = i then byteOf word (address % n) else buffer address := rfl

/-- A loop over the first `count` words whose round `i` acts byte by byte on word
`i` and leaves the other words alone acts byte by byte on all of them. The
buffer is a part `buf` of the loop's state. -/
theorem foldl_words_apply {σ : Type*} (buf : σ → Buffer) (step : σ → ℕ → σ)
    (act : ℕ → Byte → Byte)
    (acts : ∀ state i address, buf (step state i) address =
      if address / n = i then act address (buf state address) else buf state address)
    (state : σ) (count address : ℕ) :
    buf ((List.range count).foldl step state) address =
      if address / n < count then act address (buf state address) else buf state address := by
  induction count with
  | zero => simp
  | succ count ih =>
      rw [List.range_succ, List.foldl_append, List.foldl_cons, List.foldl_nil, acts, ih]
      rcases Nat.lt_trichotomy (address / n) count with h | h | h
      · simp only [h.ne, h, Nat.lt_succ_of_lt h, if_true, if_false]
      · simp only [h, Nat.lt_irrefl, Nat.lt_succ_self, if_true, if_false]
      · simp only [h.ne', Nat.lt_asymm h, show ¬ address / n < count + 1 by omega, if_false]

end GreenFuzz.Library
