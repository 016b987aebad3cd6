import GreenFuzz.Library.ByteOrder

/-!
# The havoc mutations that set or change a number

The interesting-value and arithmetic mutations are written twice: in
`afl_mutate` of `afl-mutations.h`, byte by byte with `INSERT16` and `EXTRACT16`
and their 32-bit siblings, and in the havoc loop of `fuzz_one_original`, with
accesses through a `u16 *` or `u32 *`. The machine is little-endian.

Both draw their numbers from `rand_below`, so a mutation is a function of the
values that `rand_next` will return. It yields nothing when these run out.
-/

set_option autoImplicit false

namespace GreenFuzz.AflFuzz

open Library

/-! ## Random numbers -/

/-- The values that `rand_next` will return. -/
abbrev Draws := List (BitVec 64)

/-- A computation that draws random numbers. -/
abbrev Drawing := StateT Draws Option

def UINT64_MAX : ℕ := 18446744073709551615

/-- The loop of `rand_below`: values at the upper end are thrown away. -/
def randBelowLoop (limit : ℕ) : Draws → Option (ℕ × Draws)
  | [] => none
  | unbiasedRnd :: rest =>
      if UINT64_MAX - UINT64_MAX % limit ≤ unbiasedRnd.toNat then randBelowLoop limit rest
      else some (unbiasedRnd.toNat % limit, rest)

/-- `rand_below`. -/
def randBelow (limit : ℕ) : Drawing ℕ :=
  if limit ≤ 1 then pure 0 else randBelowLoop limit

/-- A random number is below its limit. -/
theorem randBelow_lt {limit value : ℕ} {draws rest : Draws} (positive : 0 < limit)
    (drawn : (randBelow limit).run draws = some (value, rest)) : value < limit := by
  by_cases trivialLimit : limit ≤ 1
  · rw [randBelow, if_pos trivialLimit, StateT.run_pure] at drawn
    injection drawn with same
    injection same with zero
    omega
  · rw [randBelow, if_neg trivialLimit] at drawn
    induction draws with
    | nil => cases drawn
    | cons unbiasedRnd draws ih =>
        simp only [StateT.run, randBelowLoop] at drawn
        split at drawn
        · exact ih drawn
        · injection drawn with same
          injection same with value_eq
          rw [← value_eq]
          exact Nat.mod_lt _ positive

/-! ## Tables and macros -/

def INTERESTING_8 : List ℤ := [-128, -1, 0, 1, 16, 32, 64, 100, 127]

def INTERESTING_16 : List ℤ := [-32768, -129, 128, 255, 256, 512, 1000, 1024, 4096, 32767]

def INTERESTING_32 : List ℤ :=
  [-2147483648, -100663046, -32769, 32768, 65535, 65536, 100663045, 2139095040, 2147483647]

def interesting8 : List (BitVec 8) := INTERESTING_8.map (BitVec.ofInt 8)

def interesting16 : List (BitVec 16) := (INTERESTING_8 ++ INTERESTING_16).map (BitVec.ofInt 16)

def interesting32 : List (BitVec 32) :=
  (INTERESTING_8 ++ INTERESTING_16 ++ INTERESTING_32).map (BitVec.ofInt 32)

def ARITH_MAX : ℕ := 35

/-- `SWAP16`. -/
def swap16 (ret : BitVec 16) : BitVec 16 := (ret <<< 8) ||| (ret >>> 8)

/-- `SWAP32`. -/
def swap32 (ret : BitVec 32) : BitVec 32 :=
  (ret <<< 24) ||| (ret >>> 24) ||| ((ret <<< 8) &&& 0x00FF0000#32) |||
    ((ret >>> 8) &&& 0x0000FF00#32)

/-- `EXTRACT16`. -/
def extract16 (s : Buffer) (o : ℕ) : BitVec 16 :=
  let ret : BitVec 16 := (s (o + 1)).setWidth 16
  (ret <<< 8) ||| (s o).setWidth 16

/-- `EXTRACT32`. -/
def extract32 (s : Buffer) (o : ℕ) : BitVec 32 :=
  let ret : BitVec 32 := (s (o + 3)).setWidth 32
  let ret := (ret <<< 8) ||| (s (o + 2)).setWidth 32
  let ret := (ret <<< 8) ||| (s (o + 1)).setWidth 32
  (ret <<< 8) ||| (s o).setWidth 32

/-- `INSERT16`. -/
def insert16 (d : Buffer) (o : ℕ) (x : BitVec 16) : Buffer :=
  let d := Function.update d o ((x &&& 0xFF#16).setWidth 8)
  Function.update d (o + 1) (((x >>> 8) &&& 0xFF#16).setWidth 8)

/-- `INSERT32`. -/
def insert32 (d : Buffer) (o : ℕ) (x : BitVec 32) : Buffer :=
  let d := Function.update d o ((x &&& 0xFF#32).setWidth 8)
  let d := Function.update d (o + 1) (((x >>> 8) &&& 0xFF#32).setWidth 8)
  let d := Function.update d (o + 2) (((x >>> 8 >>> 8) &&& 0xFF#32).setWidth 8)
  Function.update d (o + 3) (((x >>> 8 >>> 8 >>> 8) &&& 0xFF#32).setWidth 8)

/-! ## What the cases share -/

/-- The codes of the two groups. -/
inductive MutationCode where
  | interesting8 | interesting16 | interesting16be | interesting32 | interesting32be
  | arith8_ | arith8 | arith16_ | arith16be_ | arith16 | arith16be
  | arith32_ | arith32be_ | arith32 | arith32be
  deriving DecidableEq

/-- Set a byte to an interesting value: the item is drawn first. -/
def setByte (buf : Buffer) (len : ℕ) : Drawing Buffer := do
  let item ← randBelow interesting8.length
  let pos ← randBelow len
  pure (Function.update buf pos (interesting8.getD item 0))

/-- Set a number of `size` bytes to an interesting value: the item is drawn first. -/
def setNumber {w : ℕ} (size : ℕ) (values : List (BitVec w))
    (put : Buffer → ℕ → BitVec w → Buffer) (buf : Buffer) (len : ℕ) : Drawing Buffer :=
  if len < size then pure buf
  else do
    let item ← randBelow values.length
    let pos ← randBelow (len - (size - 1))
    pure (put buf pos (values.getD item 0))

/-- Change a byte by an item: the item is drawn first. -/
def changeByte (change : BitVec 32 → BitVec 32 → BitVec 32) (buf : Buffer) (len : ℕ) :
    Drawing Buffer := do
  let item ← (fun r => BitVec.ofNat 32 (1 + r)) <$> randBelow ARITH_MAX
  let pos ← randBelow len
  pure (Function.update buf pos ((change ((buf pos).setWidth 32) item).setWidth 8))

/-- Where a number of `size` bytes is changed, and by how much: the position is drawn first. -/
def posAndItem (size len : ℕ) : Drawing (ℕ × BitVec 32) := do
  let pos ← randBelow (len - (size - 1))
  let item ← randBelow ARITH_MAX
  pure (pos, BitVec.ofNat 32 (1 + item))

/-- Change a number of `size` bytes by an item. -/
def changeNumber (size : ℕ) (update : Buffer → ℕ → BitVec 32 → Buffer) (buf : Buffer) (len : ℕ) :
    Drawing Buffer :=
  if len < size then pure buf
  else do
    let (pos, item) ← posAndItem size len
    pure (update buf pos item)

/-! ## The two implementations -/

/-- The cases of `afl_mutate`. -/
def aflMutate : MutationCode → Buffer → ℕ → Drawing Buffer
  | .interesting8 => setByte
  | .interesting16 => setNumber 2 interesting16 insert16
  | .interesting16be => setNumber 2 interesting16 fun buf pos value =>
      insert16 buf pos (swap16 value)
  | .interesting32 => setNumber 4 interesting32 insert32
  | .interesting32be => setNumber 4 interesting32 fun buf pos value =>
      insert32 buf pos (swap32 value)
  | .arith8_ => changeByte fun value item => value - item
  | .arith8 => changeByte fun value item => value + item
  | .arith16_ => changeNumber 2 fun buf pos item =>
      insert16 buf pos (((extract16 buf pos).setWidth 32 - item).setWidth 16)
  | .arith16be_ => changeNumber 2 fun buf pos item =>
      insert16 buf pos (swap16 (((swap16 (extract16 buf pos)).setWidth 32 - item).setWidth 16))
  | .arith16 => changeNumber 2 fun buf pos item =>
      insert16 buf pos (((extract16 buf pos).setWidth 32 + item).setWidth 16)
  | .arith16be => changeNumber 2 fun buf pos item =>
      insert16 buf pos (swap16 (((swap16 (extract16 buf pos)).setWidth 32 + item).setWidth 16))
  | .arith32_ => changeNumber 4 fun buf pos item =>
      insert32 buf pos (extract32 buf pos - item)
  | .arith32be_ => changeNumber 4 fun buf pos item =>
      insert32 buf pos (swap32 (swap32 (extract32 buf pos) - item))
  | .arith32 => changeNumber 4 fun buf pos item =>
      insert32 buf pos (extract32 buf pos + item)
  -- The item is inside both swaps here.
  | .arith32be => changeNumber 4 fun buf pos item =>
      insert32 buf pos (swap32 (swap32 (extract32 buf pos + item)))

/-- The cases of the havoc loop of `fuzz_one_original`. The big-endian 16-bit cases keep the
item in a `u16`. -/
def fuzzOneHavoc : MutationCode → Buffer → ℕ → Drawing Buffer
  | .interesting8 => setByte
  | .interesting16 => setNumber 2 interesting16 (storeAt 2)
  | .interesting16be => setNumber 2 interesting16 fun buf pos value =>
      storeAt 2 buf pos (swap16 value)
  | .interesting32 => setNumber 4 interesting32 (storeAt 4)
  | .interesting32be => setNumber 4 interesting32 fun buf pos value =>
      storeAt 4 buf pos (swap32 value)
  | .arith8_ => changeByte fun value item => value - item
  | .arith8 => changeByte fun value item => value + item
  | .arith16_ => changeNumber 2 fun buf pos item =>
      storeAt 2 buf pos (((loadAt 2 buf pos).setWidth 32 - item).setWidth 16)
  | .arith16be_ => changeNumber 2 fun buf pos item =>
      let num := item.setWidth 16
      storeAt 2 buf pos
        (swap16 (((swap16 (loadAt 2 buf pos)).setWidth 32 - num.setWidth 32).setWidth 16))
  | .arith16 => changeNumber 2 fun buf pos item =>
      storeAt 2 buf pos (((loadAt 2 buf pos).setWidth 32 + item).setWidth 16)
  | .arith16be => changeNumber 2 fun buf pos item =>
      let num := item.setWidth 16
      storeAt 2 buf pos
        (swap16 (((swap16 (loadAt 2 buf pos)).setWidth 32 + num.setWidth 32).setWidth 16))
  | .arith32_ => changeNumber 4 fun buf pos item =>
      storeAt 4 buf pos (loadAt 4 buf pos - item)
  | .arith32be_ => changeNumber 4 fun buf pos item =>
      storeAt 4 buf pos (swap32 (swap32 (loadAt 4 buf pos) - item))
  | .arith32 => changeNumber 4 fun buf pos item =>
      storeAt 4 buf pos (loadAt 4 buf pos + item)
  | .arith32be => changeNumber 4 fun buf pos item =>
      storeAt 4 buf pos (swap32 (swap32 (loadAt 4 buf pos) + item))

/-! ## The macros as operations on words -/

theorem swap16_eq (word : BitVec 16) : swap16 word = swapBytes 2 word := by
  apply eq_of_byteOf_eq (n := 2)
  intro k below
  rw [byteOf_swapBytes _ below]
  apply BitVec.eq_of_getLsbD_eq
  intro j inByte
  have cases : k = 0 ∨ k = 1 := by omega
  rcases cases with rfl | rfl <;> simp [getLsbD_byteOf, swap16] <;> grind

theorem getLsbD_byteTwo : ∀ j < 32,
    (0x00FF0000#32).getLsbD j = (decide (16 ≤ j) && decide (j < 24)) := by
  decide

theorem getLsbD_byteOne : ∀ j < 32,
    (0x0000FF00#32).getLsbD j = (decide (8 ≤ j) && decide (j < 16)) := by
  decide

theorem swap32_eq (word : BitVec 32) : swap32 word = swapBytes 4 word := by
  apply eq_of_byteOf_eq (n := 4)
  intro k below
  rw [byteOf_swapBytes _ below]
  apply BitVec.eq_of_getLsbD_eq
  intro j inByte
  have inWord : 8 * k + j < 32 := by omega
  simp only [getLsbD_byteOf, swap32, BitVec.getLsbD_or, BitVec.getLsbD_and,
    BitVec.getLsbD_shiftLeft, BitVec.getLsbD_ushiftRight, getLsbD_byteTwo _ inWord,
    getLsbD_byteOne _ inWord]
  have cases : k = 0 ∨ k = 1 ∨ k = 2 ∨ k = 3 := by omega
  rcases cases with rfl | rfl | rfl | rfl <;> grind

theorem extract16_eq (s : Buffer) (o : ℕ) : extract16 s o = loadAt 2 s o := by
  apply eq_of_byteOf_eq (n := 2)
  intro k below
  rw [byteOf_loadAt _ _ below]
  apply BitVec.eq_of_getLsbD_eq
  intro j inByte
  have cases : k = 0 ∨ k = 1 := by omega
  rcases cases with rfl | rfl <;> simp [getLsbD_byteOf, extract16] <;> grind

theorem extract32_eq (s : Buffer) (o : ℕ) : extract32 s o = loadAt 4 s o := by
  apply eq_of_byteOf_eq (n := 4)
  intro k below
  rw [byteOf_loadAt _ _ below]
  apply BitVec.eq_of_getLsbD_eq
  intro j inByte
  have cases : k = 0 ∨ k = 1 ∨ k = 2 ∨ k = 3 := by omega
  rcases cases with rfl | rfl | rfl | rfl <;> simp [getLsbD_byteOf, extract32] <;> grind

/-- What `INSERT16` and `INSERT32` write after `k` shifts is byte `k`. -/
theorem setWidth_and_mask {w : ℕ} (x : BitVec w) (k : ℕ) :
    ((x >>> (8 * k)) &&& BitVec.ofNat w 0xFF).setWidth 8 = byteOf x k := by
  apply BitVec.eq_of_getLsbD_eq
  intro j inByte
  have mask : Nat.testBit 0xFF j = true := by
    rw [show 0xFF = 2 ^ 8 - 1 from rfl, Nat.testBit_two_pow_sub_one]
    exact decide_eq_true inByte
  by_cases inWord : 8 * k + j < w
  · simp only [getLsbD_byteOf, BitVec.getLsbD_setWidth, BitVec.getLsbD_and,
      BitVec.getLsbD_ushiftRight, BitVec.getLsbD_ofNat, mask]
    have : j < w := by omega
    simp [this]
  · have past : x.getLsbD (8 * k + j) = false := BitVec.getLsbD_of_ge _ _ (by omega)
    simp [getLsbD_byteOf, past]

/-- Writing the bytes of a word one after the other writes the word. -/
theorem insert16_eq (d : Buffer) (o : ℕ) (x : BitVec 16) : insert16 d o x = storeAt 2 d o x := by
  funext address
  have low := setWidth_and_mask x 0
  have high := setWidth_and_mask x 1
  simp only [Nat.mul_zero, Nat.mul_one, BitVec.ushiftRight_zero] at low high
  simp only [insert16, low, high, storeAt_apply, Function.update_apply]
  grind

/-- The same for the four bytes of a double word. -/
theorem insert32_eq (d : Buffer) (o : ℕ) (x : BitVec 32) : insert32 d o x = storeAt 4 d o x := by
  funext address
  have first := setWidth_and_mask x 0
  have second := setWidth_and_mask x 1
  have third := setWidth_and_mask x 2
  have fourth := setWidth_and_mask x 3
  simp only [Nat.mul_zero, Nat.mul_one, BitVec.ushiftRight_zero] at first second
  simp only [insert32, first, second, ← BitVec.shiftRight_add, third, fourth, storeAt_apply,
    Function.update_apply]
  grind

theorem setWidth_sub_narrowed (a b : BitVec 32) :
    (a - (b.setWidth 16).setWidth 32).setWidth 16 = (a - b).setWidth 16 := by
  bv_omega

theorem setWidth_add_narrowed (a b : BitVec 32) :
    (a + (b.setWidth 16).setWidth 32).setWidth 16 = (a + b).setWidth 16 := by
  bv_omega

end GreenFuzz.AflFuzz
