import GreenFuzz.AflFuzz.Coverage
import Mathlib.Tactic.Tauto

/-!
# The novelty check, byte by byte

The loops over words compute functions of the bytes. A classified trace has the
class of each byte (`classifyCounts_apply`). `has_new_bits` removes the bits of
the trace from the virgin map (`discover_virgin`) and returns the novelty of the
trace (`discover_ret`): 2 when a byte that was hit is pristine, 1 when only new
bits are seen, 0 otherwise. Every build of `skim` answers whether the classified
trace would bring anything new (`skim_eq`).

The fast check and the slow check therefore decide the same predicate, and so do
the four builds among each other.
-/

set_option autoImplicit false

namespace GreenFuzz.AflFuzz

open Library

/-! ## Classified traces -/

/-- One round of `classify_counts` classifies the bytes of its word. A word that
is skipped because it is zero is its own class. -/
theorem classify_round (W : WordSize) (mem : Buffer) (i address : ℕ) :
    (if loadWord W.n mem i ≠ 0 then storeWord W.n mem i (W.classifyWord (loadWord W.n mem i))
      else mem) address =
      if address / W.n = i then countClassLookup8 (mem address) else mem address := by
  have below : address % W.n < W.n := Nat.mod_lt _ W.positive
  by_cases word : loadWord W.n mem i = 0
  · rw [if_neg (not_not.mpr word)]
    by_cases here : address / W.n = i
    · rw [if_pos here, apply_of_loadWord_eq_zero W.positive word here, countClassLookup8_zero]
    · rw [if_neg here]
  · rw [if_pos word, storeWord_apply]
    by_cases here : address / W.n = i
    · rw [if_pos here, if_pos here, W.byteOf_classifyWord _ _ below, byteOf_loadWord _ _ below,
        ← here, Nat.div_add_mod]
    · rw [if_neg here, if_neg here]

/-- A byte of a classified trace is the class of the byte. -/
theorem classifyCounts_apply (W : WordSize) (mapSize : ℕ) (trace : Buffer) (address : ℕ) :
    classifyCounts W mapSize trace address =
      if address / W.n < mapSize / W.n then countClassLookup8 (trace address)
      else trace address :=
  foldl_words_apply id _ (fun _ => countClassLookup8) (classify_round W) trace _ address

/-- On a map of whole words the bound is the map size. -/
theorem word_index_lt_iff {n mapSize : ℕ} (positive : 0 < n) (whole : n ∣ mapSize) (address : ℕ) :
    address / n < mapSize / n ↔ address < mapSize := by
  obtain ⟨words, rfl⟩ := whole
  rw [Nat.mul_div_cancel_left _ positive, Nat.div_lt_iff_lt_mul positive, Nat.mul_comm]

/-! ## `has_new_bits` -/

/-- What a trace brings with respect to a virgin map, on the first `size` bytes:
2 when a byte it hits is pristine, 1 when it has a bit that is still set, 0
otherwise. -/
def novelty (trace virgin : Buffer) (size : ℕ) : ℕ :=
  if ∃ a < size, trace a ≠ 0 ∧ virgin a = 255#8 then 2
  else if ∃ a < size, trace a &&& virgin a ≠ 0 then 1
  else 0

theorem discover_succ (n count : ℕ) (trace virgin : Buffer) :
    discover n (count + 1) trace virgin =
      let state := discover n count trace virgin
      if loadWord n trace count ≠ 0 then
        let found := discoverWord state.1 (loadWord n trace count) (loadWord n state.2 count)
        (found.1, storeWord n state.2 count found.2)
      else state := by
  rw [discover, List.range_succ, List.foldl_append, List.foldl_cons, List.foldl_nil]
  rfl

/-- The word that `discover_word` writes back has the bits of the trace removed,
whichever branch is taken. -/
theorem discoverWord_snd {n : ℕ} (ret : ℕ) (current virgin : BitVec (8 * n)) :
    (discoverWord ret current virgin).2 = virgin &&& ~~~ current := by
  unfold discoverWord
  split
  · rfl
  · rename_i disjoint
    rw [not_not] at disjoint
    apply BitVec.eq_of_getLsbD_eq
    intro j below
    have bit := congrArg (fun word => word.getLsbD j) disjoint
    simp only [BitVec.getLsbD_and, BitVec.ofNat_eq_ofNat, BitVec.getLsbD_zero] at bit
    simp only [BitVec.getLsbD_and, BitVec.getLsbD_not, below, decide_true, Bool.true_and]
    revert bit
    cases current.getLsbD j <;> cases virgin.getLsbD j <;> simp

/-- One round of `has_new_bits` removes the bits of its word of the trace. -/
theorem discover_round {n : ℕ} (positive : 0 < n) (trace : Buffer) (state : ℕ × Buffer)
    (i address : ℕ) :
    (if loadWord n trace i ≠ 0 then
        let found := discoverWord state.1 (loadWord n trace i) (loadWord n state.2 i)
        (found.1, storeWord n state.2 i found.2)
      else state).2 address =
      if address / n = i then state.2 address &&& ~~~ trace address else state.2 address := by
  have below : address % n < n := Nat.mod_lt _ positive
  by_cases word : loadWord n trace i = 0
  · rw [if_neg (not_not.mpr word)]
    by_cases here : address / n = i
    · have byte := apply_of_loadWord_eq_zero positive word here
      rw [if_pos here, byte, show ~~~ (0 : Byte) = BitVec.allOnes 8 from rfl, BitVec.and_allOnes]
    · rw [if_neg here]
  · rw [if_pos word]
    dsimp only
    rw [storeWord_apply]
    by_cases here : address / n = i
    · rw [if_pos here, if_pos here, discoverWord_snd, byteOf_and, byteOf_not _ below,
        byteOf_loadWord _ _ below, byteOf_loadWord _ _ below, ← here, Nat.div_add_mod]
    · rw [if_neg here, if_neg here]

/-- `has_new_bits` removes the bits of the trace from the virgin map. -/
theorem discover_virgin {n : ℕ} (positive : 0 < n) (count : ℕ) (trace virgin : Buffer)
    (address : ℕ) :
    (discover n count trace virgin).2 address =
      if address / n < count then virgin address &&& ~~~ trace address else virgin address :=
  foldl_words_apply Prod.snd _ (fun address byte => byte &&& ~~~ trace address)
    (discover_round positive trace) (0, virgin) count address

/-- An index below `n * (count + 1)` is below `n * count` or in word `count`. -/
theorem exists_lt_word_succ {n count : ℕ} (p : ℕ → Prop) :
    (∃ a < n * (count + 1), p a) ↔ (∃ a < n * count, p a) ∨ ∃ k < n, p (n * count + k) := by
  constructor
  · rintro ⟨a, below, holds⟩
    by_cases early : a < n * count
    · exact .inl ⟨a, early, holds⟩
    · refine .inr ⟨a - n * count, ?_, ?_⟩
      · rw [Nat.mul_succ] at below
        omega
      · rwa [Nat.add_sub_cancel' (by omega)]
  · rintro (⟨a, below, holds⟩ | ⟨k, below, holds⟩)
    · exact ⟨a, by rw [Nat.mul_succ]; omega, holds⟩
    · exact ⟨n * count + k, by rw [Nat.mul_succ]; omega, holds⟩

/-- The return value after one more word. -/
theorem discoverWord_fst {n : ℕ} (ret : ℕ) (current virgin : BitVec (8 * n)) :
    (discoverWord ret current virgin).1 =
      if ∃ k < n, byteOf current k &&& byteOf virgin k ≠ 0 then
        if ret < 2 then
          if ∃ k < n, byteOf current k ≠ 0 ∧ byteOf virgin k = 255#8 then 2 else 1
        else ret
      else ret := by
  unfold discoverWord
  simp only [and_ne_zero_iff, List.any_eq_true, List.mem_range, Bool.and_eq_true, bne_iff_ne,
    beq_iff_eq]
  split
  · rfl
  · rfl

/-- A byte that is hit and pristine meets the virgin map. -/
theorem meets_of_pristine {current virgin : Byte} (hit : current ≠ 0) (pristine : virgin = 255#8) :
    current &&& virgin ≠ 0 := by
  rw [pristine, show (255#8 : Byte) = BitVec.allOnes 8 from rfl, BitVec.and_allOnes]
  exact hit

/-- The case analysis behind one more word: `p` and `f` say that the words so far
have a pristine and a fresh byte, `pw` and `fw` that this word has, `z` that it
is zero. -/
theorem novelty_step {p f pw fw z : Prop} [Decidable p] [Decidable f] [Decidable pw]
    [Decidable fw] [Decidable z] (pristine_fresh : pw → fw) (skipped : z → ¬ fw) :
    (if ¬ z then
        if fw then
          if (if p then 2 else if f then 1 else 0) < 2 then if pw then 2 else 1
          else if p then 2 else if f then 1 else 0
        else if p then 2 else if f then 1 else 0
      else if p then 2 else if f then 1 else 0) =
      if p ∨ pw then 2 else if f ∨ fw then 1 else 0 := by
  by_cases hp : p <;> by_cases hf : f <;> by_cases hfw : fw <;> by_cases hpw : pw <;>
    by_cases hz : z <;> simp_all

/-- `has_new_bits` returns the novelty of the trace. -/
theorem discover_ret {n : ℕ} (positive : 0 < n) (count : ℕ) (trace virgin : Buffer) :
    (discover n count trace virgin).1 = novelty trace virgin (n * count) := by
  induction count with
  | zero => simp [discover, novelty]
  | succ count ih =>
      have old : ∀ k < n, (discover n count trace virgin).2 (n * count + k) =
          virgin (n * count + k) := by
        intro k below
        rw [discover_virgin positive, Nat.mul_add_div positive, Nat.div_eq_of_lt below,
          Nat.add_zero, if_neg (Nat.lt_irrefl _)]
      rw [discover_succ]
      generalize discover n count trace virgin = state at ih old ⊢
      have fresh : (∃ k < n, byteOf (loadWord n trace count) k &&&
            byteOf (loadWord n state.2 count) k ≠ 0) ↔
          ∃ k < n, trace (n * count + k) &&& virgin (n * count + k) ≠ 0 := by
        refine exists_congr fun k => and_congr_right fun below => ?_
        rw [byteOf_loadWord _ _ below, byteOf_loadWord _ _ below, old k below]
      have pristine : (∃ k < n, byteOf (loadWord n trace count) k ≠ 0 ∧
            byteOf (loadWord n state.2 count) k = 255#8) ↔
          ∃ k < n, trace (n * count + k) ≠ 0 ∧ virgin (n * count + k) = 255#8 := by
        refine exists_congr fun k => and_congr_right fun below => ?_
        rw [byteOf_loadWord _ _ below, byteOf_loadWord _ _ below, old k below]
      have pristine_fresh : (∃ k < n, trace (n * count + k) ≠ 0 ∧ virgin (n * count + k) = 255#8) →
          ∃ k < n, trace (n * count + k) &&& virgin (n * count + k) ≠ 0 :=
        fun ⟨k, below, hit, clean⟩ => ⟨k, below, meets_of_pristine hit clean⟩
      have skipped : loadWord n trace count = 0 →
          ¬ ∃ k < n, trace (n * count + k) &&& virgin (n * count + k) ≠ 0 := by
        rintro zero ⟨k, below, meets⟩
        have byte := (eq_zero_iff _).mp zero k below
        rw [byteOf_loadWord _ _ below] at byte
        exact meets (by rw [byte]; simp)
      have step : (if loadWord n trace count ≠ 0 then
            (discoverWord state.1 (loadWord n trace count) (loadWord n state.2 count)).1
          else state.1) = novelty trace virgin (n * (count + 1)) := by
        rw [discoverWord_fst, ih]
        simp only [fresh, pristine, novelty, exists_lt_word_succ]
        exact novelty_step pristine_fresh skipped
      dsimp only
      split at step
      · rename_i word
        rw [if_pos word]
        exact step
      · rename_i word
        rw [if_neg word]
        exact step

/-! ## `skim` -/

/-- The classified trace and the virgin map meet in word `i`, stated on bytes.
A zero word never does. -/
theorem word_finds_iff (W : WordSize) (virgin current : Buffer) (i : ℕ) :
    (loadWord W.n current i ≠ 0 ∧ wordHasNew W virgin current i = true) ↔
      ∃ k < W.n, countClassLookup8 (current (W.n * i + k)) &&& virgin (W.n * i + k) ≠ 0 := by
  have meets : wordHasNew W virgin current i = true ↔
      ∃ k < W.n, countClassLookup8 (current (W.n * i + k)) &&& virgin (W.n * i + k) ≠ 0 := by
    rw [wordHasNew, bne_iff_ne, and_ne_zero_iff]
    refine exists_congr fun k => and_congr_right fun below => ?_
    rw [W.byteOf_classifyWord _ _ below, byteOf_loadWord _ _ below, byteOf_loadWord _ _ below]
  rw [meets, and_iff_right_iff_imp]
  rintro ⟨k, below, new⟩ zero
  have byte := (eq_zero_iff _).mp zero k below
  rw [byteOf_loadWord _ _ below] at byte
  rw [byte, countClassLookup8_zero] at new
  exact new (by simp)

/-- Some word among the `stride` words from `i` has something new. -/
def PackFinds (W : WordSize) (virgin current : Buffer) (stride i : ℕ) : Prop :=
  ∃ x < stride, loadWord W.n current (i + x) ≠ 0 ∧ wordHasNew W virgin current (i + x) = true

theorem exists_lt_four (p : ℕ → Prop) : (∃ x < 4, p x) ↔ p 0 ∨ p 1 ∨ p 2 ∨ p 3 := by
  constructor
  · rintro ⟨x, below, holds⟩
    have cases : x = 0 ∨ x = 1 ∨ x = 2 ∨ x = 3 := by omega
    rcases cases with rfl | rfl | rfl | rfl <;> tauto
  · rintro (h | h | h | h)
    exacts [⟨0, by decide, h⟩, ⟨1, by decide, h⟩, ⟨2, by decide, h⟩, ⟨3, by decide, h⟩]

theorem skimPlain_iff (W : WordSize) (virgin current : Buffer) (i : ℕ) :
    skimPlain W virgin current i = true ↔ PackFinds W virgin current 4 i := by
  rw [PackFinds, exists_lt_four]
  simp only [skimPlain, Bool.or_eq_true, Bool.and_eq_true, bne_iff_ne, Nat.add_zero, or_assoc]

/-- The mask tests of the AVX2 loop ask whether the lanes are zero. -/
theorem movemask_tests (a b c d : Prop) [Decidable a] [Decidable b] [Decidable c] [Decidable d] :
    let lane (p : Prop) [Decidable p] : Byte := if p then 0xff#8 else 0
    let mask : BitVec 32 := lane d ++ lane c ++ lane b ++ lane a
    (mask = BitVec.allOnes 32 ↔ a ∧ b ∧ c ∧ d) ∧ (mask &&& 0xff = 0 ↔ ¬ a) ∧
      (mask &&& 0xff00 = 0 ↔ ¬ b) ∧ (mask &&& 0xff0000 = 0 ↔ ¬ c) ∧
      (mask &&& 0xff000000 = 0 ↔ ¬ d) := by
  by_cases ha : a <;> by_cases hb : b <;> by_cases hc : c <;> by_cases hd : d <;>
    simp only [ha, hb, hc, hd, if_true, if_false] <;> decide

theorem skimAvx2_iff (virgin current : Buffer) (i : ℕ) :
    skimAvx2 virgin current i = true ↔ PackFinds word64 virgin current 4 i := by
  obtain ⟨all, first, second, third, fourth⟩ := movemask_tests (loadWord 8 current i = 0)
    (loadWord 8 current (i + 1) = 0) (loadWord 8 current (i + 2) = 0)
    (loadWord 8 current (i + 3) = 0)
  rw [PackFinds, exists_lt_four]
  change skimAvx2 virgin current i = true ↔
    (loadWord 8 current i ≠ 0 ∧ wordHasNew word64 virgin current i = true) ∨
    (loadWord 8 current (i + 1) ≠ 0 ∧ wordHasNew word64 virgin current (i + 1) = true) ∨
    (loadWord 8 current (i + 2) ≠ 0 ∧ wordHasNew word64 virgin current (i + 2) = true) ∨
    (loadWord 8 current (i + 3) ≠ 0 ∧ wordHasNew word64 virgin current (i + 3) = true)
  simp only [skimAvx2, movemask, zeroLane, all]
  split
  · rename_i zero
    obtain ⟨h0, h1, h2, h3⟩ := zero
    simp only [h0, h1, h2, h3, ne_eq, not_true_eq_false, false_and, or_self, Bool.false_eq_true]
  · simp only [Bool.or_eq_true, Bool.and_eq_true, beq_iff_eq, first, second, third, fourth,
      or_assoc, Ne]

/-- Bit `x` of the AVX512 mask says that lane `x` is zero. -/
theorem getLsbD_testnMask (current : Buffer) (i : ℕ) {x : ℕ} (below : x < 8) :
    (testnMask current i).getLsbD x = (loadWord 8 current (i + x) == 0) := by
  rw [testnMask, BitVec.getLsbD_setWidth, BitVec.getLsbD_ofBoolListLE]
  simp [below]

theorem skimAvx512_iff (virgin current : Buffer) (i : ℕ) :
    skimAvx512 virgin current i = true ↔ PackFinds word64 virgin current 8 i := by
  have bit (x : ℕ) (below : x < 8) :
      testnMask current i &&& (1#8 <<< x) = 0 ↔ loadWord 8 current (i + x) ≠ 0 := by
    have mask : (1#8 <<< x : Byte) = bitMask x := by rw [bitMask, Nat.mod_eq_of_lt below]
    have read := bitSet_eq_getLsbD (fun _ => testnMask current i) x
    rw [Nat.mod_eq_of_lt below, getLsbD_testnMask current i below, bitSet, bne] at read
    rw [mask, Ne, ← beq_iff_eq (a := loadWord 8 current (i + x)), ← read]
    simp
  rw [skimAvx512]
  split
  · rename_i all
    simp only [Bool.false_eq_true, false_iff, PackFinds, not_exists, not_and]
    intro x below word
    have zero := getLsbD_testnMask current i below
    rw [all, show (0xff : BitVec 8) = BitVec.allOnes 8 from rfl, BitVec.getLsbD_allOnes,
      decide_eq_true below, eq_comm, beq_iff_eq] at zero
    exact absurd zero word
  · simp only [List.any_eq_true, List.mem_range, Bool.and_eq_true, beq_iff_eq, PackFinds]
    exact exists_congr fun x => and_congr_right fun below => and_congr_left fun _ => bit x below

/-- A pack loop over `packs` whole packs answers whether some pack has a find. -/
theorem packLoop_eq (continues finds : ℕ → Bool) (stride packs fuel j : ℕ)
    (ends : ∀ j ≤ packs, continues (stride * j) = decide (j < packs))
    (inside : j ≤ packs) (enough : packs - j < fuel) :
    packLoop continues finds stride fuel (stride * j) =
      some (decide (∃ p < packs, j ≤ p ∧ finds (stride * p) = true)) := by
  induction fuel generalizing j with
  | zero => omega
  | succ fuel ih =>
      rw [packLoop, ends j inside]
      by_cases more : j < packs
      · rw [decide_eq_true more, if_pos rfl]
        by_cases found : finds (stride * j) = true
        · have some_pack : ∃ p < packs, j ≤ p ∧ finds (stride * p) = true :=
            ⟨j, more, le_refl _, found⟩
          rw [if_pos found, decide_eq_true some_pack]
        · rw [if_neg found, ← Nat.mul_succ, ih (j + 1) more (by omega)]
          congr 1
          refine decide_eq_decide.mpr (exists_congr fun p => and_congr_right fun _ => ?_)
          constructor
          · rintro ⟨later, holds⟩
            exact ⟨Nat.le_of_succ_le later, holds⟩
          · rintro ⟨later, holds⟩
            have differ : p ≠ j := fun same => found (same ▸ holds)
            exact ⟨by omega, holds⟩
      · have none_left : ¬ ∃ p < packs, j ≤ p ∧ finds (stride * p) = true := by
          rintro ⟨p, below, later, _⟩
          omega
        rw [decide_eq_false more, decide_eq_false none_left]
        rfl

/-- The packs of a map of whole packs cover its bytes. -/
theorem exists_pack_iff (W : WordSize) (virgin current : Buffer) {stride packs : ℕ} :
    (∃ p < packs, PackFinds W virgin current stride (stride * p)) ↔
      ∃ a < W.n * (stride * packs), countClassLookup8 (current a) &&& virgin a ≠ 0 := by
  simp only [PackFinds, word_finds_iff]
  constructor
  · rintro ⟨p, below, x, inPack, k, inWord, new⟩
    refine ⟨_, ?_, new⟩
    have pack : stride * (p + 1) ≤ stride * packs := Nat.mul_le_mul_left _ below
    have word : stride * p + x + 1 ≤ stride * packs := by rw [Nat.mul_succ] at pack; omega
    have bytes : W.n * (stride * p + x + 1) ≤ W.n * (stride * packs) := Nat.mul_le_mul_left _ word
    rw [Nat.mul_succ] at bytes
    omega
  · rintro ⟨a, below, new⟩
    have word : a / W.n < stride * packs := by
      rwa [Nat.div_lt_iff_lt_mul W.positive, Nat.mul_comm]
    have stride_pos : 0 < stride := by
      rcases Nat.eq_zero_or_pos stride with rfl | h
      · simp at word
      · exact h
    refine ⟨a / W.n / stride, ?_, a / W.n % stride, Nat.mod_lt _ stride_pos, a % W.n,
      Nat.mod_lt _ W.positive, ?_⟩
    · rwa [Nat.div_lt_iff_lt_mul stride_pos, Nat.mul_comm]
    · rw [Nat.div_add_mod, Nat.div_add_mod]
      exact new

/-- **Every build of `skim` answers whether the classified trace meets the
virgin map.** -/
theorem skim_eq (variant : SkimVariant) (virgin current : Buffer) {mapSize : ℕ}
    (aligned : 64 ∣ mapSize) :
    skim variant virgin current mapSize =
      some (decide (∃ a < mapSize, countClassLookup8 (current a) &&& virgin a ≠ 0)) := by
  obtain ⟨blocks, rfl⟩ := aligned
  have bytes (W : WordSize) (stride packs : ℕ) (whole : W.n * (stride * packs) = 64 * blocks) :
      (∃ p < packs, 0 ≤ p ∧ PackFinds W virgin current stride (stride * p)) ↔
        ∃ a < 64 * blocks, countClassLookup8 (current a) &&& virgin a ≠ 0 := by
    rw [← whole, ← exists_pack_iff]
    simp
  cases variant with
  | plain64 =>
      have words : 64 * blocks / 8 = 4 * (2 * blocks) := by omega
      have loop := packLoop_eq (· < 4 * (2 * blocks)) (skimPlain word64 virgin current) 4
        (2 * blocks) (64 * blocks + 1) 0 (fun j _ => decide_eq_decide.mpr (by omega)) (by omega)
        (by omega)
      simp only [skimPlain_iff, bytes word64 4 (2 * blocks) (by simp only [word64]; omega)] at loop
      simp only [skim, SkimVariant.wordSize, show word64.n = 8 from rfl, words]
      exact loop
  | avx2 =>
      have words : 64 * blocks / 8 = 4 * (2 * blocks) := by omega
      have loop := packLoop_eq (· < 4 * (2 * blocks)) (skimAvx2 virgin current) 4 (2 * blocks)
        (64 * blocks + 1) 0 (fun j _ => decide_eq_decide.mpr (by omega)) (by omega) (by omega)
      simp only [skimAvx2_iff, bytes word64 4 (2 * blocks) (by simp only [word64]; omega)] at loop
      simp only [skim, SkimVariant.wordSize, show word64.n = 8 from rfl, words]
      exact loop
  | avx512 =>
      have words : 64 * blocks / 8 = 8 * blocks := by omega
      have ends (j : ℕ) (_ : j ≤ blocks) : (8 * j != 8 * blocks) = decide (j < blocks) := by
        rw [Bool.eq_iff_iff, bne_iff_ne, decide_eq_true_iff]
        omega
      have loop := packLoop_eq (· != 8 * blocks) (skimAvx512 virgin current) 8 blocks
        (64 * blocks + 1) 0 ends (by omega) (by omega)
      simp only [skimAvx512_iff, bytes word64 8 blocks (by simp only [word64]; omega)] at loop
      simp only [skim, SkimVariant.wordSize, show word64.n = 8 from rfl, words]
      exact loop
  | plain32 =>
      have words : 64 * blocks / 4 = 4 * (4 * blocks) := by omega
      have loop := packLoop_eq (· < 4 * (4 * blocks)) (skimPlain word32 virgin current) 4
        (4 * blocks) (64 * blocks + 1) 0 (fun j _ => decide_eq_decide.mpr (by omega)) (by omega)
        (by omega)
      simp only [skimPlain_iff, bytes word32 4 (4 * blocks) (by simp only [word32]; omega)] at loop
      simp only [skim, SkimVariant.wordSize, show word32.n = 4 from rfl, words]
      exact loop

/-! ## The fast check and the slow check -/

/-- The trace with every byte of the map classified. -/
def classified (mapSize : ℕ) (trace : Buffer) : Buffer :=
  fun a => if a < mapSize then countClassLookup8 (trace a) else trace a

theorem classifyCounts_eq (W : WordSize) {mapSize : ℕ} (aligned : 64 ∣ mapSize) (trace : Buffer) :
    classifyCounts W mapSize trace = classified mapSize trace := by
  funext a
  simp only [classifyCounts_apply, classified,
    word_index_lt_iff W.positive (W.divides.trans aligned)]

/-- Bytes that the trace does not hit do not count towards its novelty. -/
theorem novelty_eq_of_zero {trace virgin : Buffer} {small large : ℕ} (le : small ≤ large)
    (zero : ∀ a, small ≤ a → a < large → trace a = 0) :
    novelty trace virgin small = novelty trace virgin large := by
  have restrict (p : Byte → Byte → Prop) (needs : ∀ v, ¬ p 0 v) :
      (∃ a < small, p (trace a) (virgin a)) ↔ ∃ a < large, p (trace a) (virgin a) := by
    constructor
    · rintro ⟨a, below, holds⟩
      exact ⟨a, by omega, holds⟩
    · rintro ⟨a, below, holds⟩
      refine ⟨a, ?_, holds⟩
      by_contra outside
      rw [zero a (by omega) below] at holds
      exact needs _ holds
  have pristine := restrict (fun t v => t ≠ 0 ∧ v = 255#8) (fun v h => h.1 rfl)
  have fresh := restrict (fun t v => t &&& v ≠ 0) (fun v h => h (by simp))
  simp only [novelty, pristine, fresh]

/-- `has_new_bits` in terms of bytes, without a word size. -/
def markSeen (afl : AflState) (map : VirginMap) : ℕ × AflState :=
  let ret := novelty afl.traceBits (afl.virgin map) afl.mapSize
  let next := afl.setVirgin map fun a =>
    if a < afl.mapSize then afl.virgin map a &&& ~~~ afl.traceBits a else afl.virgin map a
  (ret, if ret ≠ 0 ∧ map = .bits then { next with bitmapChanged := true } else next)

/-- The words that `has_new_bits` walks end inside the map. -/
theorem walked_le {n real mapSize : ℕ} (positive : 0 < n) (whole : n ∣ mapSize)
    (fits : real ≤ mapSize) : real ≤ n * ((real + (n - 1)) / n) ∧
      n * ((real + (n - 1)) / n) ≤ mapSize := by
  obtain ⟨words, rfl⟩ := whole
  have division := Nat.div_add_mod (real + (n - 1)) n
  have remainder := Nat.mod_lt (real + (n - 1)) positive
  refine ⟨by omega, Nat.mul_le_mul_left _ ?_⟩
  rw [← Nat.lt_succ_iff, Nat.div_lt_iff_lt_mul positive, Nat.succ_mul, Nat.mul_comm]
  omega

theorem hasNewBits_eq (W : WordSize) (afl : AflState) (map : VirginMap)
    (aligned : 64 ∣ afl.mapSize) (fits : afl.realMapSize ≤ afl.mapSize)
    (trailing : ∀ a, afl.realMapSize ≤ a → a < afl.mapSize → afl.traceBits a = 0) :
    hasNewBits W afl map = markSeen afl map := by
  obtain ⟨reaches, inside⟩ := walked_le W.positive (W.divides.trans aligned) fits
  generalize count : (afl.realMapSize + (W.n - 1)) / W.n = words at reaches inside
  have ret : (discover W.n words afl.traceBits (afl.virgin map)).1 =
      novelty afl.traceBits (afl.virgin map) afl.mapSize := by
    rw [discover_ret W.positive]
    exact novelty_eq_of_zero inside fun a above below => trailing a (reaches.trans above) below
  have virgin : (discover W.n words afl.traceBits (afl.virgin map)).2 = fun a =>
      if a < afl.mapSize then afl.virgin map a &&& ~~~ afl.traceBits a else afl.virgin map a := by
    funext a
    have word : a / W.n < words ↔ a < W.n * words := by
      rw [Nat.div_lt_iff_lt_mul W.positive, Nat.mul_comm]
    rw [discover_virgin W.positive]
    by_cases walked : a < W.n * words
    · rw [if_pos (word.mpr walked), if_pos (by omega)]
    · rw [if_neg (fun below => walked (word.mp below))]
      split
      · rename_i below
        rw [trailing a (by omega) below, show ~~~ (0 : Byte) = BitVec.allOnes 8 from rfl,
          BitVec.and_allOnes]
      · rfl
  simp only [hasNewBits, markSeen, count, ret, virgin]

/-- `classify_counts` followed by `has_new_bits`. -/
def slowCheck (W : WordSize) (afl : AflState) (map : VirginMap) : ℕ × AflState :=
  hasNewBits W { afl with traceBits := classifyCounts W afl.mapSize afl.traceBits } map

theorem slowCheck_eq (W : WordSize) (afl : AflState) (map : VirginMap)
    (aligned : 64 ∣ afl.mapSize) (fits : afl.realMapSize ≤ afl.mapSize)
    (trailing : ∀ a, afl.realMapSize ≤ a → a < afl.mapSize → afl.traceBits a = 0) :
    slowCheck W afl map =
      markSeen { afl with traceBits := classified afl.mapSize afl.traceBits } map := by
  rw [slowCheck, classifyCounts_eq W aligned]
  refine hasNewBits_eq W _ map aligned fits fun a beyond below => ?_
  simp only [classified, trailing a beyond below, countClassLookup8_zero, ite_self]

/-- The classified trace has no novelty exactly when no byte of it meets the
virgin map. -/
theorem novelty_classified_eq_zero_iff (afl : AflState) (map : VirginMap) :
    novelty (classified afl.mapSize afl.traceBits) (afl.virgin map) afl.mapSize = 0 ↔
      ¬ ∃ a < afl.mapSize, countClassLookup8 (afl.traceBits a) &&& afl.virgin map a ≠ 0 := by
  have class_of (a : ℕ) (below : a < afl.mapSize) :
      classified afl.mapSize afl.traceBits a = countClassLookup8 (afl.traceBits a) := if_pos below
  rw [novelty]
  constructor
  · intro none
    split at none
    · omega
    · split at none
      · omega
      · rename_i fresh
        rintro ⟨a, below, new⟩
        exact fresh ⟨a, below, by rw [class_of a below]; exact new⟩
  · intro nothing
    rw [if_neg, if_neg]
    · rintro ⟨a, below, new⟩
      rw [class_of a below] at new
      exact nothing ⟨a, below, new⟩
    · rintro ⟨a, below, hit, pristine⟩
      rw [class_of a below] at hit
      exact nothing ⟨a, below, meets_of_pristine hit pristine⟩

/-- Marking a trace without novelty as seen changes only the trace. -/
theorem markSeen_of_zero {afl : AflState} {map : VirginMap}
    (nothing : ∀ a < afl.mapSize, afl.traceBits a &&& afl.virgin map a = 0)
    (zero : novelty afl.traceBits (afl.virgin map) afl.mapSize = 0) :
    markSeen afl map = (0, afl) := by
  have virgin : (fun a => if a < afl.mapSize then afl.virgin map a &&& ~~~ afl.traceBits a
      else afl.virgin map a) = afl.virgin map := by
    funext a
    split
    · rename_i below
      have disjoint := nothing a below
      apply BitVec.eq_of_getLsbD_eq
      intro j inByte
      have bit := congrArg (fun byte => byte.getLsbD j) disjoint
      simp only [BitVec.getLsbD_and, BitVec.ofNat_eq_ofNat, BitVec.getLsbD_zero] at bit
      simp only [BitVec.getLsbD_and, BitVec.getLsbD_not, inByte, decide_true, Bool.true_and]
      revert bit
      cases (afl.traceBits a).getLsbD j <;> cases (afl.virgin map a).getLsbD j <;> simp
    · rfl
  simp only [markSeen, zero, virgin, AflState.setVirgin_virgin, ne_eq, not_true_eq_false, false_and,
    if_false]

/-- **The fast novelty check agrees with the slow one.** On a map of whole
64-byte blocks whose trace is zero past the real map size, every build of
`has_new_bits_unclassified` returns, and returns what `classify_counts` followed
by `has_new_bits` returns, with the same virgin map. It takes the hot path
exactly when that value is 0; then the trace is left as it was, and otherwise it
is left classified. The builds answer alike. -/
theorem hasNewBitsUnclassified_agrees (variant : SkimVariant) (afl : AflState) (map : VirginMap)
    (flag : Bool) (aligned : 64 ∣ afl.mapSize) (fits : afl.realMapSize ≤ afl.mapSize)
    (trailing : ∀ a, afl.realMapSize ≤ a → a < afl.mapSize → afl.traceBits a = 0) :
    ∃ ret fast done, hasNewBitsUnclassified variant afl map flag = some (ret, fast, done) ∧
      ret = (slowCheck variant.wordSize afl map).1 ∧
      fast.virgin map = (slowCheck variant.wordSize afl map).2.virgin map ∧
      fast.bitmapChanged = (slowCheck variant.wordSize afl map).2.bitmapChanged ∧
      (skim variant (afl.virgin map) afl.traceBits afl.mapSize = some false ↔ ret = 0) ∧
      (ret = 0 → fast.traceBits = afl.traceBits ∧ done = flag) ∧
      (ret ≠ 0 → fast.traceBits = classifyCounts variant.wordSize afl.mapSize afl.traceBits ∧
        done = true) ∧
      ∀ other, skim other (afl.virgin map) afl.traceBits afl.mapSize =
          skim variant (afl.virgin map) afl.traceBits afl.mapSize ∧
        hasNewBitsUnclassified other afl map flag = some (ret, fast, done) := by
  have zero_iff := novelty_classified_eq_zero_iff afl map
  have slow (W : WordSize) := slowCheck_eq W afl map aligned fits trailing
  by_cases new : ∃ a < afl.mapSize, countClassLookup8 (afl.traceBits a) &&& afl.virgin map a ≠ 0
  · have found (v : SkimVariant) :
        skim v (afl.virgin map) afl.traceBits afl.mapSize = some true := by
      rw [skim_eq v _ _ aligned, decide_eq_true new]
    have result (v : SkimVariant) : hasNewBitsUnclassified v afl map flag =
        some ((slowCheck v.wordSize afl map).1, (slowCheck v.wordSize afl map).2, true) := by
      simp only [hasNewBitsUnclassified, found]
      rfl
    have ret_ne : (slowCheck variant.wordSize afl map).1 ≠ 0 := by
      rw [slow]
      exact fun none => zero_iff.mp none new
    have trace : (slowCheck variant.wordSize afl map).2.traceBits =
        classifyCounts variant.wordSize afl.mapSize afl.traceBits := by
      rw [slow, classifyCounts_eq _ aligned, markSeen]
      split
      · cases map <;> rfl
      · cases map <;> rfl
    refine ⟨_, _, _, result variant, rfl, rfl, rfl, ?_, fun none => absurd none ret_ne,
      fun _ => ⟨trace, rfl⟩, fun other => ⟨?_, ?_⟩⟩
    · simp only [found, Option.some_inj, Bool.true_eq_false, ret_ne]
    · rw [found, found]
    · rw [result, slow, slow]
  · have skips (v : SkimVariant) :
        skim v (afl.virgin map) afl.traceBits afl.mapSize = some false := by
      rw [skim_eq v _ _ aligned, decide_eq_false new]
    have result (v : SkimVariant) :
        hasNewBitsUnclassified v afl map flag = some (0, afl, flag) := by
      simp only [hasNewBitsUnclassified, skips]
    have quiet : slowCheck variant.wordSize afl map =
        (0, { afl with traceBits := classified afl.mapSize afl.traceBits }) := by
      rw [slow]
      refine markSeen_of_zero (fun a below => ?_) ?_
      · by_contra meets
        refine new ⟨a, below, fun disjoint => meets ?_⟩
        cases map <;> simpa only [classified, if_pos below, AflState.virgin] using disjoint
      · cases map <;> exact zero_iff.mpr new
    refine ⟨0, afl, flag, result variant, by rw [quiet], ?_, by rw [quiet], by simp [skips],
      fun _ => ⟨rfl, rfl⟩, fun none => absurd rfl none, fun other => ⟨?_, result other⟩⟩
    · rw [quiet]
      cases map <;> rfl
    · rw [skips, skips]

/-- A map of one block with a single byte hit for the first time: the AVX2 build
returns 2 and leaves the trace classified. -/
theorem hasNewBitsUnclassified_first_hit :
    ∃ ret fast done, hasNewBitsUnclassified .avx2
        { mapSize := 64, traceBits := fun a => if a = 5 then 3 else 0 } .bits false =
        some (ret, fast, done) ∧ ret = 2 ∧ fast.traceBits 5 = 4 ∧ done = true := by
  obtain ⟨ret, fast, done, result, value, _, _, _, _, slow, _⟩ :=
    hasNewBitsUnclassified_agrees .avx2
      { mapSize := 64, traceBits := fun a => if a = 5 then 3 else 0 } .bits false
      (by decide) (le_refl _) (fun a above below => absurd below (Nat.not_lt.mpr above))
  have two : ret = 2 := by
    rw [value]
    decide +kernel
  obtain ⟨trace, flag⟩ := slow (by omega)
  refine ⟨ret, fast, done, result, two, ?_, flag⟩
  rw [trace]
  decide +kernel

end GreenFuzz.AflFuzz
