import GreenFuzz.AflFuzz.Havoc

/-!
# Whether the two havoc implementations agree

`afl_mutate` and the havoc loop of `fuzz_one_original` write the same mutations
twice. For every code but one they are the same function
(`aflMutate_eq_fuzzOneHavoc`), and the big-endian cases of the havoc loop change
the number that is read big-endian (`changesBigEndian_fuzzOneHavoc`).

The exception is the big-endian addition to a double word. `afl_mutate` closes a
parenthesis too late: the item is added before the first swap, so the two swaps
cancel and the addition is little-endian. **The implementations agree if and
only if the code is another one, the buffer is too short for the mutation, the
random numbers run out, or one is added to four bytes of 255**
(`havoc_agrees_iff`): only a carry through all four bytes hides the order.
-/

set_option autoImplicit false

namespace GreenFuzz.AflFuzz

open Library

/-! ## What is to agree -/

/-- The cases that change a number read big-endian: its bytes, two to the number of its bits,
and the sign of the change. -/
def bigEndianChange : MutationCode → Option (ℕ × ℤ × ℤ)
  | .arith16be_ => some (2, 65536, -1)
  | .arith16be => some (2, 65536, 1)
  | .arith32be_ => some (4, 4294967296, -1)
  | .arith32be => some (4, 4294967296, 1)
  | _ => none

/-- The mutation adds the item, with a sign, to the number read big-endian at the drawn
position, and writes nothing else. -/
def ChangesBigEndian (size : ℕ) (modulus sign : ℤ) (step : Buffer → ℕ → Drawing Buffer)
    (buf : Buffer) (len : ℕ) (draws : Draws) : Prop :=
  size ≤ len → ∀ pos item rest, (posAndItem size len).run draws = some ((pos, item), rest) →
    ∃ out, (step buf len).run draws = some (out, rest) ∧
      (bigEndian size (fun k => out (pos + k)) : ℤ) =
        ((bigEndian size fun k => buf (pos + k) : ℤ) + sign * item.toNat) % modulus ∧
      ∀ address, address < pos ∨ pos + size ≤ address → out address = buf address

/-- Both implementations leave the same buffer and the same random numbers, and the
big-endian cases of both change the number read big-endian. -/
def HavocAgrees (code : MutationCode) (buf : Buffer) (len : ℕ) (draws : Draws) : Prop :=
  (aflMutate code buf len).run draws = (fuzzOneHavoc code buf len).run draws ∧
  ∀ size modulus sign, bigEndianChange code = some (size, modulus, sign) →
    ChangesBigEndian size modulus sign (aflMutate code) buf len draws ∧
    ChangesBigEndian size modulus sign (fuzzOneHavoc code) buf len draws

/-- A big-endian addition to a double word adds one to four bytes of 255. -/
def AddsOneToOnes (buf : Buffer) (len : ℕ) (draws : Draws) : Prop :=
  ∀ pos item rest, (posAndItem 4 len).run draws = some ((pos, item), rest) →
    item = 1 ∧ ∀ k < 4, buf (pos + k) = 255

/-! ## Random draws -/

/-- The item that is added or subtracted lies between 1 and `ARITH_MAX`. -/
theorem item_of_posAndItem {size len pos : ℕ} {item : BitVec 32} {draws rest : Draws}
    (drawn : (posAndItem size len).run draws = some ((pos, item), rest)) :
    1 ≤ item.toNat ∧ item.toNat ≤ ARITH_MAX := by
  simp only [posAndItem, StateT.run_bind, Option.bind_eq_bind, Option.bind_eq_some_iff,
    StateT.run_pure] at drawn
  obtain ⟨⟨pos', middle⟩, -, ⟨value, rest'⟩, drawnItem, same⟩ := drawn
  have below := randBelow_lt (by decide) drawnItem
  injection same with same
  injection same with same
  injection same with _ itemEq
  rw [← itemEq, BitVec.toNat_ofNat]
  simp only [ARITH_MAX] at below ⊢
  omega

/-- A change of a number that fits draws a position and an item, and writes. -/
theorem changeNumber_run {size len : ℕ} (update : Buffer → ℕ → BitVec 32 → Buffer) (buf : Buffer)
    (draws : Draws) (enough : size ≤ len) :
    (changeNumber size update buf len).run draws =
      ((posAndItem size len).run draws).map fun drawn =>
        (update buf drawn.1.1 drawn.1.2, drawn.2) := by
  simp only [changeNumber, if_neg (Nat.not_lt.mpr enough), StateT.run_bind]
  cases (posAndItem size len).run draws with
  | none => rfl
  | some drawn => rfl

/-- A number that does not fit is left alone. -/
theorem changeNumber_short {size len : ℕ} (update : Buffer → ℕ → BitVec 32 → Buffer)
    (buf : Buffer) (short : len < size) : changeNumber size update buf len = pure buf := by
  simp only [changeNumber, if_pos short]

/-! ## The cases that agree -/

/-- **All cases but the big-endian addition to a double word are the same function.** -/
theorem aflMutate_eq_fuzzOneHavoc {code : MutationCode} (other : code ≠ .arith32be) :
    aflMutate code = fuzzOneHavoc code := by
  cases code <;>
    simp only [aflMutate, fuzzOneHavoc, extract16_eq, extract32_eq, insert16_eq, insert32_eq,
      setWidth_add_narrowed, setWidth_sub_narrowed]
  case interesting16 => rw [funext fun d => funext fun o => funext fun x => insert16_eq d o x]
  case interesting32 => rw [funext fun d => funext fun o => funext fun x => insert32_eq d o x]
  case arith32be => exact absurd rfl other

/-! ## The big-endian cases -/

theorem ChangesBigEndian.congr {size : ℕ} {modulus sign : ℤ}
    {step other : Buffer → ℕ → Drawing Buffer} {buf : Buffer} {len : ℕ} {draws : Draws}
    (changes : ChangesBigEndian size modulus sign step buf len draws)
    (same : (other buf len).run draws = (step buf len).run draws) :
    ChangesBigEndian size modulus sign other buf len draws := by
  intro enough pos item rest drawn
  rw [same]
  exact changes enough pos item rest drawn

/-- A case that swaps, changes and swaps back changes the number read big-endian. -/
theorem changesBigEndian_of_swaps (size : ℕ) (modulus sign : ℤ)
    (change : BitVec (8 * size) → BitVec 32 → BitVec (8 * size))
    (value : ∀ word item, ((change word item).toNat : ℤ) =
      ((word.toNat : ℤ) + sign * (item.toNat : ℤ)) % modulus)
    (buf : Buffer) (len : ℕ) (draws : Draws) :
    ChangesBigEndian size modulus sign
      (changeNumber size fun buf pos item =>
        storeAt size buf pos (swapBytes size (change (swapBytes size (loadAt size buf pos)) item)))
      buf len draws := by
  intro enough pos item rest drawn
  refine ⟨_, by rw [changeNumber_run _ _ _ enough, drawn, Option.map_some], ?_, ?_⟩
  · rw [bigEndian_storeAt, value, bigEndian_eq]
  · intro address outside
    exact storeAt_outside _ _ _ outside

theorem toNat_setWidth_sub (word : BitVec 16) (item : BitVec 32) :
    (((word.setWidth 32 - item).setWidth 16).toNat : ℤ) =
      ((word.toNat : ℤ) + -1 * (item.toNat : ℤ)) % 65536 := by
  have small := item.isLt
  rw [BitVec.toNat_setWidth, BitVec.toNat_sub, BitVec.toNat_setWidth]
  have fits := word.isLt
  omega

theorem toNat_setWidth_add (word : BitVec 16) (item : BitVec 32) :
    (((word.setWidth 32 + item).setWidth 16).toNat : ℤ) =
      ((word.toNat : ℤ) + 1 * (item.toNat : ℤ)) % 65536 := by
  rw [BitVec.toNat_setWidth, BitVec.toNat_add, BitVec.toNat_setWidth]
  have fits := word.isLt
  omega

theorem toNat_sub_eq (word item : BitVec 32) :
    ((word - item).toNat : ℤ) =
      ((word.toNat : ℤ) + -1 * (item.toNat : ℤ)) % 4294967296 := by
  have small := item.isLt
  rw [BitVec.toNat_sub]
  omega

theorem toNat_add_eq (word item : BitVec 32) :
    ((word + item).toNat : ℤ) = ((word.toNat : ℤ) + 1 * (item.toNat : ℤ)) % 4294967296 := by
  rw [BitVec.toNat_add]
  omega

/-- **The big-endian cases of the havoc loop change the number read big-endian.** -/
theorem changesBigEndian_fuzzOneHavoc {code : MutationCode} {size : ℕ} {modulus sign : ℤ}
    (bigEndianCode : bigEndianChange code = some (size, modulus, sign)) (buf : Buffer) (len : ℕ)
    (draws : Draws) :
    ChangesBigEndian size modulus sign (fuzzOneHavoc code) buf len draws := by
  cases code <;> simp only [bigEndianChange, reduceCtorEq, Option.some.injEq, Prod.mk.injEq]
    at bigEndianCode
  case arith16be_ =>
    obtain ⟨rfl, rfl, rfl⟩ := bigEndianCode
    simp only [fuzzOneHavoc, setWidth_sub_narrowed, swap16_eq]
    exact changesBigEndian_of_swaps 2 65536 (-1)
      (fun (word : BitVec 16) item => (word.setWidth 32 - item).setWidth 16)
      toNat_setWidth_sub buf len draws
  case arith16be =>
    obtain ⟨rfl, rfl, rfl⟩ := bigEndianCode
    simp only [fuzzOneHavoc, setWidth_add_narrowed, swap16_eq]
    exact changesBigEndian_of_swaps 2 65536 1
      (fun (word : BitVec 16) item => (word.setWidth 32 + item).setWidth 16)
      toNat_setWidth_add buf len draws
  case arith32be_ =>
    obtain ⟨rfl, rfl, rfl⟩ := bigEndianCode
    simp only [fuzzOneHavoc, swap32_eq]
    exact changesBigEndian_of_swaps 4 4294967296 (-1)
      (fun (word : BitVec 32) item => word - item) toNat_sub_eq buf len draws
  case arith32be =>
    obtain ⟨rfl, rfl, rfl⟩ := bigEndianCode
    simp only [fuzzOneHavoc, swap32_eq]
    exact changesBigEndian_of_swaps 4 4294967296 1
      (fun (word : BitVec 32) item => word + item) toNat_add_eq buf len draws

/-! ## The case that disagrees -/

/-- If the last byte changes by the item, the carry reaches it through three bytes of 255. -/
theorem ones_of_carry {low second third high low' second' third' high' item : ℕ}
    (digits : low < 256 ∧ second < 256 ∧ third < 256)
    (digits' : low' < 256 ∧ second' < 256 ∧ third' < 256)
    (least : 1 ≤ item) (most : item ≤ ARITH_MAX)
    (sum : 256 * (256 * (256 * high' + third') + second') + low' =
      (256 * (256 * (256 * high + third) + second) + low + item) % 4294967296)
    (changed : high' = (high + item) % 256) :
    low = 255 ∧ second = 255 ∧ third = 255 ∧ item = 1 := by
  simp only [ARITH_MAX] at most
  obtain ⟨-, sum⟩ := digit_of_add (m := 16777216) digits'.1 sum
  obtain ⟨-, sum⟩ := digit_of_add (m := 65536) digits'.2.1 sum
  obtain ⟨-, sum⟩ := digit_of_add (m := 256) digits'.2.2 sum
  have carry : (low + item) / 256 ≤ 1 := by omega
  have full : (low + item) / 256 = 1 → 256 ≤ low + item := by omega
  have fromSecond := carry_cases digits.2.1 carry
  have carry' : (second + (low + item) / 256) / 256 ≤ 1 := by omega
  have fromThird := carry_cases digits.2.2 carry'
  generalize (low + item) / 256 = firstCarry at *
  generalize (second + firstCarry) / 256 = secondCarry at *
  generalize (third + secondCarry) / 256 = thirdCarry at *
  have reaches : thirdCarry = item := by omega
  omega

/-- The last digit of a sum of four. -/
theorem last_of_sum {low second third high low' second' third' high' item : ℕ}
    (digit : low' < 256)
    (sum : 256 * (256 * (256 * high' + third') + second') + low' =
      (256 * (256 * (256 * high + third) + second) + low + item) % 4294967296) :
    low' = (low + item) % 256 :=
  (digit_of_add (m := 16777216) digit sum).1

/-- **Adding a small item before or after swapping the bytes gives the same word only where
one is added to four bytes of 255.** -/
theorem add_eq_swapped_add_iff (word item : BitVec 32) (least : 1 ≤ item.toNat)
    (most : item.toNat ≤ ARITH_MAX) :
    word + item = swap32 (swap32 word + item) ↔
      item = 1 ∧ ∀ k < 4, byteOf word k = 255 := by
  constructor
  · intro alike
    have swapped : swap32 (word + item) = swap32 word + item := by
      rw [alike, swap32_eq, swap32_eq, swapBytes_swapBytes (n := 4)]
    have digit : ∀ (w : BitVec 32) (k : ℕ), (byteOf w k).toNat < 256 := fun w k =>
      (byteOf w k).isLt
    have value : ∀ w : BitVec 32, w.toNat = bigEndian 4 fun k => byteOf w (4 - 1 - k) :=
      toNat_eq_bigEndian (n := 4)
    have mirrored : ∀ w : BitVec 32, (swap32 w).toNat = bigEndian 4 (byteOf w) := by
      intro w
      rw [swap32_eq]
      exact toNat_assemble_reversed (n := 4) (byteOf w)
    have little : (word + item).toNat = (word.toNat + item.toNat) % 4294967296 :=
      BitVec.toNat_add _ _
    have big : (swap32 (word + item)).toNat =
        ((swap32 word).toNat + item.toNat) % 4294967296 := by
      rw [swapped]
      exact BitVec.toNat_add _ _
    rw [value, value word] at little
    rw [mirrored, mirrored word] at big
    simp only [bigEndian, Nat.mul_zero, Nat.zero_add, Nat.sub_zero] at little big
    have fromLittle := ones_of_carry ⟨digit _ 0, digit _ 1, digit _ 2⟩
      ⟨digit _ 0, digit _ 1, digit _ 2⟩ least most little (last_of_sum (digit _ 3) big)
    have fromBig := ones_of_carry ⟨digit _ 3, digit _ 2, digit _ 1⟩
      ⟨digit _ 3, digit _ 2, digit _ 1⟩ least most big (last_of_sum (digit _ 0) little)
    obtain ⟨zeroth, first, second, one⟩ := fromLittle
    obtain ⟨third, -, -, -⟩ := fromBig
    refine ⟨BitVec.eq_of_toNat_eq one, fun k below => BitVec.eq_of_toNat_eq ?_⟩
    have cases : k = 0 ∨ k = 1 ∨ k = 2 ∨ k = 3 := by omega
    rcases cases with rfl | rfl | rfl | rfl
    · exact zeroth
    · exact first
    · exact second
    · exact third
  · rintro ⟨rfl, ones⟩
    have full : word = 0xFFFFFFFF#32 := by
      apply eq_of_byteOf_eq (n := 4)
      intro k below
      have byte : ∀ k < 4, byteOf 0xFFFFFFFF#32 k = 255 := by decide
      rw [ones k below, byte k below]
    rw [full]
    decide

/-- The big-endian addition to a double word agrees exactly where it adds one to four bytes
of 255, or adds nothing. -/
theorem arith32be_agrees_iff (buf : Buffer) (len : ℕ) (draws : Draws) :
    (aflMutate .arith32be buf len).run draws = (fuzzOneHavoc .arith32be buf len).run draws ↔
      (4 ≤ len → AddsOneToOnes buf len draws) := by
  simp only [aflMutate, fuzzOneHavoc, insert32_eq, extract32_eq]
  by_cases enough : 4 ≤ len
  · simp only [changeNumber_run _ _ _ enough, enough, true_imp_iff, AddsOneToOnes]
    cases drawn : (posAndItem 4 len).run draws with
    | none => simp only [Option.map_none, reduceCtorEq, false_imp_iff, implies_true]
    | some found =>
        obtain ⟨⟨pos, item⟩, rest⟩ := found
        obtain ⟨least, most⟩ := item_of_posAndItem drawn
        have cancelled : ∀ w : BitVec 32, swap32 (swap32 w) = w := by
          intro w
          rw [swap32_eq, swap32_eq]
          exact swapBytes_swapBytes (n := 4) w
        have bytes : (∀ k < 4, byteOf (loadAt 4 buf pos) k = 255) ↔
            ∀ k < 4, buf (pos + k) = 255 := by
          refine forall₂_congr fun k below => ?_
          rw [byteOf_loadAt _ _ below]
        rw [Option.map_some, Option.map_some, Option.some_inj, Prod.mk.injEq, cancelled,
          storeAt_inj, and_iff_left rfl, add_eq_swapped_add_iff _ _ least most, bytes]
        constructor
        · rintro alike pos' item' rest' ⟨⟩
          exact alike
        · intro alike
          exact alike pos item rest rfl
  · have short := Nat.lt_of_not_le enough
    rw [changeNumber_short _ _ short, changeNumber_short _ _ short]
    exact iff_of_true rfl fun long => absurd long enough

/-- **The two implementations agree, and the big-endian cases are big-endian, except where a
big-endian addition to a double word does anything else than add one to four bytes of 255.** -/
theorem havoc_agrees_iff (code : MutationCode) (buf : Buffer) (len : ℕ) (draws : Draws) :
    HavocAgrees code buf len draws ↔
      (code = .arith32be → 4 ≤ len → AddsOneToOnes buf len draws) := by
  constructor
  · rintro ⟨same, -⟩ rfl
    exact (arith32be_agrees_iff buf len draws).mp same
  · intro condition
    have same : (aflMutate code buf len).run draws = (fuzzOneHavoc code buf len).run draws := by
      by_cases exceptional : code = .arith32be
      · subst exceptional
        exact (arith32be_agrees_iff buf len draws).mpr (condition rfl)
      · rw [aflMutate_eq_fuzzOneHavoc exceptional]
    refine ⟨same, fun size modulus sign bigEndianCode => ?_⟩
    have changes := changesBigEndian_fuzzOneHavoc bigEndianCode buf len draws
    exact ⟨changes.congr same, changes⟩

/-- Adding one to a zero double word at the start of a buffer of four bytes: `afl_mutate`
changes the first byte. -/
theorem zero_dword_disagrees :
    ¬ HavocAgrees .arith32be (fun _ => 0) 4 [0] := by
  rintro ⟨same, -⟩
  have outcomes := congrArg (fun outcome => outcome.map fun out => out.1 0) same
  revert outcomes
  decide

end GreenFuzz.AflFuzz
