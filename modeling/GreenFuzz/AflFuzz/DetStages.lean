import GreenFuzz.AflFuzz.Havoc

/-!
# The deterministic stages

After the bit flips, `fuzz_one_original` adds small numbers to the bytes, words and dwords
of the input, and then sets them to interesting values. A candidate is not run if a filter
says that an earlier stage has run it: `could_be_bitflip`, `could_be_arith`,
`could_be_interest`, or the test whether a sum carries.

A pass is the list of the candidates in their order, each run or skipped (`DetPass.attempts`).
Here all bytes are marked in `skip_eff_map`, there is no timeout, and `common_fuzz_stuff`
never ends the pass. Inputs have at most `MAX_FILE` bytes, so no number of steps wraps.
-/

set_option autoImplicit false

namespace GreenFuzz.AflFuzz

open Library

/-! ## The filters -/

/-- Shift until the first bit is set. -/
def shiftOut : ℕ → BitVec 32 → ℕ → BitVec 32 × ℕ
  | 0, xorVal, sh => (xorVal, sh)
  | rounds + 1, xorVal, sh =>
      if xorVal &&& 1 = 0 then shiftOut rounds (xorVal >>> 1) (sh + 1) else (xorVal, sh)

/-- `could_be_bitflip`. -/
def couldBeBitflip (xorVal : BitVec 32) : Bool :=
  if xorVal = 0 then true
  else
    let (xorVal, sh) := shiftOut 32 xorVal 0
    if xorVal = 1 ∨ xorVal = 3 ∨ xorVal = 15 then true
    else if sh % 8 ≠ 0 then false
    else xorVal = 0xff ∨ xorVal = 0xffff ∨ xorVal = 0xffffffff

/-- How many parts of `w` bits differ, and the last two that do. -/
def differingParts (w : ℕ) (oldVal newVal : BitVec 32) (count : ℕ) :
    ℕ × BitVec 32 × BitVec 32 :=
  (List.range count).foldl (fun (diffs, ov, nv) i =>
    let a := (oldVal >>> (w * i)).setWidth w
    let b := (newVal >>> (w * i)).setWidth w
    if a ≠ b then (diffs + 1, a.setWidth 32, b.setWidth 32) else (diffs, ov, nv)) (0, 0, 0)

/-- Two numbers of `w` bits are at most `ARITH_MAX` apart. -/
def arithApart (w : ℕ) (ov nv : BitVec 32) : Bool :=
  ((ov - nv).setWidth w).toNat ≤ ARITH_MAX ∨ ((nv - ov).setWidth w).toNat ≤ ARITH_MAX

/-- `could_be_arith`. -/
def couldBeArith (oldVal newVal : BitVec 32) (blen : ℕ) : Bool :=
  if oldVal = newVal then true
  else
    let (diffs, ov, nv) := differingParts 8 oldVal newVal blen
    if diffs = 1 ∧ arithApart 8 ov nv then true
    else if blen = 1 then false
    else
      let (diffs, ov, nv) := differingParts 16 oldVal newVal (blen / 2)
      if diffs = 1 ∧ (arithApart 16 ov nv ∨
          arithApart 16 ((swap16 (ov.setWidth 16)).setWidth 32)
            ((swap16 (nv.setWidth 16)).setWidth 32)) then true
      else if blen = 4 then
        arithApart 32 oldVal newVal || arithApart 32 (swap32 oldVal) (swap32 newVal)
      else false

/-- A value set over some bits of an old one. -/
def setOver (oldVal mask value : BitVec 32) (i : ℕ) : BitVec 32 :=
  (oldVal &&& ~~~(mask <<< (i * 8))) ||| (value <<< (i * 8))

/-- `could_be_interest`. -/
def couldBeInterest (oldVal newVal : BitVec 32) (blen : ℕ) (checkLe : Bool) : Bool :=
  if oldVal = newVal then true
  else if (List.range blen).any fun i => interesting8.any fun value =>
      newVal = setOver oldVal 0xff (value.setWidth 32) i then true
  else if blen = 2 ∧ checkLe = false then false
  else if (List.range (blen - 1)).any fun i => interesting16.any fun value =>
      newVal = setOver oldVal 0xffff (value.setWidth 32) i ∨
        2 < blen ∧ newVal = setOver oldVal 0xffff ((swap16 value).setWidth 32) i then true
  else blen = 4 ∧ checkLe ∧ newVal ∈ interesting32

/-! ## The stages -/

/-- A candidate that a stage runs, or that it skips because a filter calls it redundant. -/
inductive Trial where
  | executed (buf : Buffer)
  | skipped (buf : Buffer)

/-- A candidate and what the filters say. -/
def Trial.of (redundant : Bool) (buf : Buffer) : Trial :=
  if redundant then .skipped buf else .executed buf

/-- `FLIP_BIT` on `out_buf`. -/
def flipBitIn (buf : Buffer) (b : ℕ) : Buffer :=
  Function.update buf (b / 8) (buf (b / 8) ^^^ (128#8 >>> (b % 8)))

/-- The input in `out_buf`, its length, and whether arithmetic is switched off. -/
structure DetPass where
  outBuf : Buffer
  len : ℕ
  noArith : Bool

namespace DetPass

variable (D : DetPass)

/-- The stages with walking bits: `n` neighbouring bits are flipped. -/
def walkingBits (n : ℕ) : List Trial :=
  (List.range (8 * D.len - (n - 1))).map fun stageCur =>
    .executed ((List.range' stageCur n).foldl flipBitIn D.outBuf)

/-- The stage with a walking byte. -/
def walkingByte : List Trial :=
  (List.range D.len).map fun i =>
    .executed (Function.update D.outBuf i (D.outBuf i ^^^ 0xff))

/-- The stages with two and with four walking bytes. -/
def walkingBytes (n : ℕ) : List Trial :=
  if D.len < n then []
  else (List.range (D.len - (n - 1))).map fun i =>
    .executed (storeAt n D.outBuf i (loadAt n D.outBuf i ^^^ BitVec.allOnes (8 * n)))

/-- The bit flips, after a run of the input. -/
def bitflips : List Trial :=
  .executed D.outBuf :: (D.walkingBits 1 ++ D.walkingBits 2 ++ D.walkingBits 4 ++
    D.walkingByte ++ D.walkingBytes 2 ++ D.walkingBytes 4)

/-- The candidates of `arith 8/8` at a byte for a number. -/
def arith8At (i j : ℕ) : List Trial :=
  let orig := D.outBuf i
  let num := BitVec.ofNat 8 j
  [.of (couldBeBitflip ((orig ^^^ (orig + num)).setWidth 32))
      (Function.update D.outBuf i (orig + num)),
    .of (couldBeBitflip ((orig ^^^ (orig - num)).setWidth 32))
      (Function.update D.outBuf i (orig - num))]

/-- The stage `arith 8/8`. -/
def arith8 : List Trial :=
  (List.range D.len).flatMap fun i => (List.range' 1 ARITH_MAX).flatMap (D.arith8At i)

/-- The candidates of `arith 16/8` at a position for a number. -/
def arith16At (i j : ℕ) : List Trial :=
  let orig : BitVec 16 := loadAt 2 D.outBuf i
  let num := BitVec.ofNat 16 j
  let up := swap16 (swap16 orig + num)
  let down := swap16 (swap16 orig - num)
  [.of (!decide (0xff < (orig &&& 0xff).toNat + j) ||
        couldBeBitflip ((orig ^^^ (orig + num)).setWidth 32)) (storeAt 2 D.outBuf i (orig + num)),
    .of (!decide ((orig &&& 0xff).toNat < j) ||
        couldBeBitflip ((orig ^^^ (orig - num)).setWidth 32)) (storeAt 2 D.outBuf i (orig - num)),
    .of (!decide (0xff < (orig >>> 8).toNat + j) ||
        couldBeBitflip ((orig ^^^ up).setWidth 32)) (storeAt 2 D.outBuf i up),
    .of (!decide ((orig >>> 8).toNat < j) ||
        couldBeBitflip ((orig ^^^ down).setWidth 32)) (storeAt 2 D.outBuf i down)]

/-- The stage `arith 16/8`. -/
def arith16 : List Trial :=
  if D.len < 2 then []
  else (List.range (D.len - 1)).flatMap fun i => (List.range' 1 ARITH_MAX).flatMap (D.arith16At i)

/-- The candidates of `arith 32/8` at a position for a number. -/
def arith32At (i j : ℕ) : List Trial :=
  let orig : BitVec 32 := loadAt 4 D.outBuf i
  let num := BitVec.ofNat 32 j
  let up := swap32 (swap32 orig + num)
  let down := swap32 (swap32 orig - num)
  [.of (!decide (0xffff < (orig &&& 0xffff).toNat + j) ||
        couldBeBitflip (orig ^^^ (orig + num))) (storeAt 4 D.outBuf i (orig + num)),
    .of (!decide ((orig &&& 0xffff).toNat < j) ||
        couldBeBitflip (orig ^^^ (orig - num))) (storeAt 4 D.outBuf i (orig - num)),
    .of (!decide (0xffff < (swap32 orig &&& 0xffff).toNat + j) ||
        couldBeBitflip (orig ^^^ up)) (storeAt 4 D.outBuf i up),
    .of (!decide ((swap32 orig &&& 0xffff).toNat < j) ||
        couldBeBitflip (orig ^^^ down)) (storeAt 4 D.outBuf i down)]

/-- The stage `arith 32/8`. -/
def arith32 : List Trial :=
  if D.len < 4 then []
  else (List.range (D.len - 3)).flatMap fun i => (List.range' 1 ARITH_MAX).flatMap (D.arith32At i)

/-- The candidate of `interest 8/8` at a byte for a value. -/
def interest8At (i : ℕ) (value : BitVec 8) : Trial :=
  let orig := D.outBuf i
  .of (couldBeBitflip ((orig ^^^ value).setWidth 32) ||
      couldBeArith (orig.setWidth 32) (value.setWidth 32) 1)
    (Function.update D.outBuf i value)

/-- The stage `interest 8/8`. -/
def interest8 : List Trial :=
  (List.range D.len).flatMap fun i => interesting8.map (D.interest8At i)

/-- The candidates of `interest 16/8` at a position for a value: a value that reads the same
in both orders is set once. -/
def interest16At (i : ℕ) (value : BitVec 16) : List Trial :=
  let orig : BitVec 16 := loadAt 2 D.outBuf i
  let candidate (value : BitVec 16) (checkLe : Bool) : Trial :=
    .of (couldBeBitflip ((orig ^^^ value).setWidth 32) ||
        couldBeArith (orig.setWidth 32) (value.setWidth 32) 2 ||
        couldBeInterest (orig.setWidth 32) (value.setWidth 32) 2 checkLe)
      (storeAt 2 D.outBuf i value)
  candidate value false ::
    if value = swap16 value then [] else [candidate (swap16 value) true]

/-- The stage `interest 16/8`. -/
def interest16 : List Trial :=
  if D.noArith ∨ D.len < 2 then []
  else (List.range (D.len - 1)).flatMap fun i => interesting16.flatMap (D.interest16At i)

/-- The candidates of `interest 32/8` at a position for a value. -/
def interest32At (i : ℕ) (value : BitVec 32) : List Trial :=
  let orig : BitVec 32 := loadAt 4 D.outBuf i
  let candidate (value : BitVec 32) (checkLe : Bool) : Trial :=
    .of (couldBeBitflip (orig ^^^ value) || couldBeArith orig value 4 ||
        couldBeInterest orig value 4 checkLe)
      (storeAt 4 D.outBuf i value)
  candidate value false ::
    if value = swap32 value then [] else [candidate (swap32 value) true]

/-- The stage `interest 32/8`. -/
def interest32 : List Trial :=
  if D.noArith ∨ D.len < 4 then []
  else (List.range (D.len - 3)).flatMap fun i => interesting32.flatMap (D.interest32At i)

/-- All candidates of the arithmetic stages. -/
def arithmetic : List Trial := if D.noArith then [] else D.arith8 ++ D.arith16 ++ D.arith32

/-- A whole pass. -/
def attempts : List Trial :=
  D.bitflips ++ D.arithmetic ++ D.interest8 ++ D.interest16 ++ D.interest32

end DetPass

end GreenFuzz.AflFuzz
