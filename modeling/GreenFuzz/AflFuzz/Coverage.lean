import GreenFuzz.AflFuzz.State

/-!
# Coverage maps

The routines of `afl-fuzz-bitmap.c`, `coverage-64.h` and `coverage-32.h` on the
trace and on the virgin maps, in both word sizes and with the three `skim`
loops of the 64-bit build.

Classification works on `u16` halves of a word through a table, and is about
bytes all the same: byte `k` of a classified word is the class of byte `k` of the
word (`byteOf_classifyWord64`, `byteOf_classifyWord32`). A word size carries that
law, so the loops below are written once for both.
-/

set_option autoImplicit false

namespace GreenFuzz.AflFuzz

open Library

/-! ## Count classes -/

/-- `count_class_lookup8`. -/
def countClassLookup8 (b : Byte) : Byte :=
  if b.toNat = 0 then 0
  else if b.toNat = 1 then 1
  else if b.toNat = 2 then 2
  else if b.toNat = 3 then 4
  else if b.toNat ≤ 7 then 8
  else if b.toNat ≤ 15 then 16
  else if b.toNat ≤ 31 then 32
  else if b.toNat ≤ 127 then 64
  else 128

/-- The table that `init_count_class16` fills: at `(b1 << 8) + b2` it holds
`(count_class_lookup8[b1] << 8) | count_class_lookup8[b2]`. -/
def countClassLookup16 (v : BitVec 16) : BitVec 16 :=
  ((countClassLookup8 (byteOf v 1)).setWidth 16 <<< 8)
    ||| (countClassLookup8 (byteOf v 0)).setWidth 16

/-- `classify_word` of `coverage-64.h`: the word as four `u16`. -/
def classifyWord64 (word : BitVec 64) : BitVec 64 :=
  countClassLookup16 (word.extractLsb' 48 16) ++ countClassLookup16 (word.extractLsb' 32 16)
    ++ countClassLookup16 (word.extractLsb' 16 16) ++ countClassLookup16 (word.extractLsb' 0 16)

/-- `classify_word` of `coverage-32.h`: the word as two `u16`. -/
def classifyWord32 (word : BitVec 32) : BitVec 32 :=
  countClassLookup16 (word.extractLsb' 16 16) ++ countClassLookup16 (word.extractLsb' 0 16)

theorem countClassLookup8_zero : countClassLookup8 0 = 0 := rfl

/-- A byte that was hit stays hit. -/
theorem countClassLookup8_eq_zero_iff (b : Byte) : countClassLookup8 b = 0 ↔ b = 0 := by
  revert b
  decide +kernel

theorem byteOf_countClassLookup16 (v : BitVec 16) {k : ℕ} (below : k < 2) :
    byteOf (countClassLookup16 v) k = countClassLookup8 (byteOf v k) := by
  apply BitVec.eq_of_getLsbD_eq
  intro j inByte
  have cases : k = 0 ∨ k = 1 := by omega
  rcases cases with rfl | rfl
  · simp only [getLsbD_byteOf, countClassLookup16, BitVec.getLsbD_or, BitVec.getLsbD_shiftLeft,
      BitVec.getLsbD_setWidth, inByte, Nat.mul_zero, Nat.zero_add, decide_true, Bool.not_true,
      Bool.and_false, Bool.false_and, Bool.true_and, Bool.false_or, show j < 16 by omega]
  · have high : (countClassLookup8 (byteOf v 0)).getLsbD (8 + j) = false :=
      BitVec.getLsbD_of_ge _ _ (by omega)
    simp only [getLsbD_byteOf, countClassLookup16, BitVec.getLsbD_or, BitVec.getLsbD_shiftLeft,
      BitVec.getLsbD_setWidth, inByte, Nat.mul_one, decide_true, Bool.true_and, high,
      show 8 + j < 16 by omega, show ¬ 8 + j < 8 by omega, decide_false, Bool.not_false,
      show 8 + j - 8 = j by omega, show j < 16 by omega, Bool.or_false]

/-- Classifying the `u16` at bit `start` of a word classifies the two bytes
there. -/
theorem byteOf_classified_half {w : ℕ} (word : BitVec w) {start k position : ℕ} (below : k < 2)
    (place : start + 8 * k = 8 * position) :
    byteOf (countClassLookup16 (word.extractLsb' start 16)) k =
      countClassLookup8 (byteOf word position) := by
  rw [byteOf_countClassLookup16 _ below]
  congr 1
  apply BitVec.eq_of_getLsbD_eq
  intro j inByte
  have inHalf : 8 * k + j < 16 := by omega
  have bit : start + (8 * k + j) = 8 * position + j := by omega
  simp only [getLsbD_byteOf, BitVec.getLsbD_extractLsb', inByte, inHalf, decide_true, Bool.true_and,
    bit]

/-- The low byte positions of a concatenation come from its right part. -/
theorem byteOf_append_low {v : ℕ} (high : BitVec v) (low : BitVec 16) {k : ℕ} (below : k < 2) :
    byteOf (high ++ low) k = byteOf low k := by
  apply BitVec.eq_of_getLsbD_eq
  intro j inByte
  have inLow : 8 * k + j < 16 := by omega
  simp only [getLsbD_byteOf, BitVec.getLsbD_append, inLow, if_true]

theorem byteOf_append_high {v : ℕ} (high : BitVec v) (low : BitVec 16) {k : ℕ} (above : 2 ≤ k) :
    byteOf (high ++ low) k = byteOf high (k - 2) := by
  apply BitVec.eq_of_getLsbD_eq
  intro j inByte
  have past : ¬ 8 * k + j < 16 := by omega
  have position : 8 * k + j - 16 = 8 * (k - 2) + j := by omega
  simp only [getLsbD_byteOf, BitVec.getLsbD_append, past, if_false, position]

theorem byteOf_classifyWord64 (word : BitVec 64) {k : ℕ} (below : k < 8) :
    byteOf (classifyWord64 word) k = countClassLookup8 (byteOf word k) := by
  rw [classifyWord64]
  by_cases first : k < 2
  · rw [byteOf_append_low _ _ first]
    exact byteOf_classified_half word first (by omega)
  rw [byteOf_append_high _ _ (by omega)]
  by_cases second : k - 2 < 2
  · rw [byteOf_append_low _ _ second]
    exact byteOf_classified_half word second (by omega)
  rw [byteOf_append_high _ _ (by omega)]
  by_cases third : k - 2 - 2 < 2
  · rw [byteOf_append_low _ _ third]
    exact byteOf_classified_half word third (by omega)
  rw [byteOf_append_high _ _ (by omega)]
  exact byteOf_classified_half word (by omega) (by omega)

theorem byteOf_classifyWord32 (word : BitVec 32) {k : ℕ} (below : k < 4) :
    byteOf (classifyWord32 word) k = countClassLookup8 (byteOf word k) := by
  rw [classifyWord32]
  by_cases first : k < 2
  · rw [byteOf_append_low _ _ first]
    exact byteOf_classified_half word first (by omega)
  rw [byteOf_append_high _ _ (by omega)]
  exact byteOf_classified_half word (by omega) (by omega)

/-! ## The two word sizes -/

/-- A build of the coverage routines: the number of bytes of a word and the
`classify_word` of that size. -/
structure WordSize where
  n : ℕ
  positive : 0 < n
  divides : n ∣ 64
  classifyWord : BitVec (8 * n) → BitVec (8 * n)
  byteOf_classifyWord : ∀ word, ∀ k < n,
    byteOf (classifyWord word) k = countClassLookup8 (byteOf word k)

/-- `coverage-64.h`. -/
def word64 : WordSize where
  n := 8
  positive := by decide
  divides := by decide
  classifyWord := classifyWord64
  byteOf_classifyWord := fun word _ below => byteOf_classifyWord64 word below

/-- `coverage-32.h`. -/
def word32 : WordSize where
  n := 4
  positive := by decide
  divides := by decide
  classifyWord := classifyWord32
  byteOf_classifyWord := fun word _ below => byteOf_classifyWord32 word below

/-- `classify_counts`: `map_size >> 3` words of 8 bytes, or `map_size >> 2` words
of 4 bytes. -/
def classifyCounts (W : WordSize) (mapSize : ℕ) (trace : Buffer) : Buffer :=
  (List.range (mapSize / W.n)).foldl
    (fun mem i =>
      if loadWord W.n mem i ≠ 0 then storeWord W.n mem i (W.classifyWord (loadWord W.n mem i))
      else mem)
    trace

/-- `discover_word`. -/
def discoverWord {n : ℕ} (ret : ℕ) (current virgin : BitVec (8 * n)) : ℕ × BitVec (8 * n) :=
  if current &&& virgin ≠ 0 then
    (if ret < 2 then
        if (List.range n).any (fun k => byteOf current k != 0 && byteOf virgin k == 0xff#8) then 2
        else 1
      else ret,
      virgin &&& ~~~ current)
  else (ret, virgin)

/-- The loop of `has_new_bits` over the first `count` words. -/
def discover (n count : ℕ) (trace virgin : Buffer) : ℕ × Buffer :=
  (List.range count).foldl
    (fun state i =>
      if loadWord n trace i ≠ 0 then
        let found := discoverWord state.1 (loadWord n trace i) (loadWord n state.2 i)
        (found.1, storeWord n state.2 i found.2)
      else state)
    (0, virgin)

/-- `has_new_bits`: `(real_map_size + 7) >> 3` words of 8 bytes, or
`(real_map_size + 3) >> 2` words of 4 bytes. -/
def hasNewBits (W : WordSize) (afl : AflState) (map : VirginMap) : ℕ × AflState :=
  let found := discover W.n ((afl.realMapSize + (W.n - 1)) / W.n) afl.traceBits (afl.virgin map)
  let next := afl.setVirgin map found.2
  (found.1, if found.1 ≠ 0 ∧ map = .bits then { next with bitmapChanged := true } else next)

/-! ## `skim` -/

/-- The builds of `skim`: three in `coverage-64.h`, one in `coverage-32.h`. -/
inductive SkimVariant where
  | plain64 | avx2 | avx512 | plain32
  deriving DecidableEq, Repr

/-- The word size of the header a variant belongs to. -/
def SkimVariant.wordSize : SkimVariant → WordSize
  | .plain64 | .avx2 | .avx512 => word64
  | .plain32 => word32

/-- Whether a word of the trace, classified, meets the word of the virgin map. -/
def wordHasNew (W : WordSize) (virgin current : Buffer) (i : ℕ) : Bool :=
  W.classifyWord (loadWord W.n current i) &&& loadWord W.n virgin i != 0

/-- One round of the plain loops: the four words at `i`. -/
def skimPlain (W : WordSize) (virgin current : Buffer) (i : ℕ) : Bool :=
  (loadWord W.n current i != 0 && wordHasNew W virgin current i)
    || (loadWord W.n current (i + 1) != 0 && wordHasNew W virgin current (i + 1))
    || (loadWord W.n current (i + 2) != 0 && wordHasNew W virgin current (i + 2))
    || (loadWord W.n current (i + 3) != 0 && wordHasNew W virgin current (i + 3))

/-- The byte mask of one lane of `_mm256_cmpeq_epi64` against zero. -/
def zeroLane (word : BitVec 64) : Byte := if word = 0 then 0xff#8 else 0

/-- `_mm256_movemask_epi8` of the comparison of four lanes with zero. -/
def movemask (current : Buffer) (i : ℕ) : BitVec 32 :=
  zeroLane (loadWord 8 current (i + 3)) ++ zeroLane (loadWord 8 current (i + 2))
    ++ zeroLane (loadWord 8 current (i + 1)) ++ zeroLane (loadWord 8 current i)

/-- One round of the AVX2 loop. -/
def skimAvx2 (virgin current : Buffer) (i : ℕ) : Bool :=
  let mask := movemask current i
  if mask = BitVec.allOnes 32 then false
  else
    (mask &&& 0xff == 0 && wordHasNew word64 virgin current i)
      || (mask &&& 0xff00 == 0 && wordHasNew word64 virgin current (i + 1))
      || (mask &&& 0xff0000 == 0 && wordHasNew word64 virgin current (i + 2))
      || (mask &&& 0xff000000 == 0 && wordHasNew word64 virgin current (i + 3))

/-- `_mm512_testn_epi64_mask` of a value with itself: bit `x` is set when lane
`x` is zero. -/
def testnMask (current : Buffer) (i : ℕ) : BitVec 8 :=
  (BitVec.ofBoolListLE ((List.range 8).map fun x => loadWord 8 current (i + x) == 0)).setWidth 8

/-- One round of the AVX512 loop. -/
def skimAvx512 (virgin current : Buffer) (i : ℕ) : Bool :=
  let mask := testnMask current i
  if mask = 0xff then false
  else
    (List.range 8).any fun x =>
      mask &&& (1#8 <<< x) == 0 && wordHasNew word64 virgin current (i + x)

/-- A loop that looks at packs of `stride` words until `continues` fails, and
answers 1 at the first pack with a find. `none` is a loop that outran its fuel. -/
def packLoop (continues finds : ℕ → Bool) (stride : ℕ) : ℕ → ℕ → Option Bool
  | 0, _ => none
  | fuel + 1, i =>
      if continues i then
        if finds i then some true else packLoop continues finds stride fuel (i + stride)
      else some false

/-- `skim`, from `current` to `current + map_size`. The AVX512 loop ends on
`current != current_end`, the others on `current < current_end`. -/
def skim (variant : SkimVariant) (virgin current : Buffer) (mapSize : ℕ) : Option Bool :=
  let words := mapSize / variant.wordSize.n
  match variant with
  | .plain64 => packLoop (· < words) (skimPlain word64 virgin current) 4 (mapSize + 1) 0
  | .avx2 => packLoop (· < words) (skimAvx2 virgin current) 4 (mapSize + 1) 0
  | .avx512 => packLoop (· != words) (skimAvx512 virgin current) 8 (mapSize + 1) 0
  | .plain32 => packLoop (· < words) (skimPlain word32 virgin current) 4 (mapSize + 1) 0

/-- `has_new_bits_unclassified`. The result is the return value, the state and
the flag `*classified`. -/
def hasNewBitsUnclassified (variant : SkimVariant) (afl : AflState) (map : VirginMap)
    (classified : Bool) : Option (ℕ × AflState × Bool) :=
  match skim variant (afl.virgin map) afl.traceBits afl.mapSize with
  | none => none
  | some false => some (0, afl, classified)
  | some true =>
      let afl := { afl with
        traceBits := classifyCounts variant.wordSize afl.mapSize afl.traceBits }
      let found := hasNewBits variant.wordSize afl map
      some (found.1, found.2, true)

/-! ## Other uses of the map -/

/-- `minimize_bits` into a zeroed buffer. -/
def minimizeBits (mapSize : ℕ) (trace : Buffer) : Buffer :=
  (List.range mapSize).foldl (fun mini i => if trace i ≠ 0 then setBit mini i else mini)
    fun _ => 0

/-- `count_bytes`, four bytes at a time. -/
def countBytes (realMapSize : ℕ) (mem : Buffer) : ℕ :=
  (List.range ((realMapSize + 3) / 4)).foldl
    (fun ret i =>
      let v := loadWord 4 mem i
      if v = 0 then ret else ret + (List.range 4).countP fun k => byteOf v k != 0)
    0

end GreenFuzz.AflFuzz
