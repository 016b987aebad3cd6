import GreenFuzz.AflFuzz.AflMutate
import GreenFuzz.Redqueen.ItsFuzz
import GreenFuzz.Redqueen.Strntoll

/-!
# Solving comparisons of instructions

`cmp_extend_encoding` tries to replace an operand of a comparison where it is found in the
input: as a number in decimal digits, after an arithmetic transformation, as an integer of 8, 4
or 2 bytes in either byte order, in SCALE encoding, and one more or one less. Several attempts
call the function again with other operands; the calls are nested, and `depth` bounds how
deeply. `cmp_extend_encodingN` does the same for operands of any other size up to 16 bytes.

Floating-point arithmetic, and what the machine makes of a shift of a `u128` by 128 or more, are
parameters.
-/

set_option autoImplicit false

namespace GreenFuzz.Redqueen

open Library AflFuzz

/-! ## Attributes, levels and operands -/

def IS_EQUAL : BitVec 8 := 1
def IS_GREATER : BitVec 8 := 2
def IS_LESSER : BitVec 8 := 4
def IS_FP : BitVec 8 := 8
def IS_FP_MOD : BitVec 8 := 16
def IS_INT_MOD : BitVec 8 := 32
def IS_TRANSFORM : BitVec 8 := 64

def LVL1 : BitVec 8 := 1
def LVL3 : BitVec 8 := 4

/-- What the source leaves to the machine. -/
structure Machine where
  /-- `g += 1.0` and `g -= 1.0`, for a `float`. -/
  addOne32 : BitVec 32 → BitVec 32
  subOne32 : BitVec 32 → BitVec 32
  /-- The same for a `double`. -/
  addOne64 : BitVec 64 → BitVec 64
  subOne64 : BitVec 64 → BitVec 64
  /-- A `double` converted to a `float`. -/
  toFloat : BitVec 64 → BitVec 32
  /-- A `u128` shifted to the right by 128 or more, which is undefined. -/
  shiftWide : BitVec 128 → ℕ → BitVec 128

/-- The place in the input, and what stays the same in nested calls. -/
structure CmpPlace where
  machine : Machine
  enableTransform : Bool
  enableArith : Bool
  enableScale : Bool
  lvl : BitVec 8
  idx : ℕ
  taintLen : ℕ
  len : ℕ
  origBuf : Buffer

/-- `MIN(len - idx, taint_len)`. -/
def CmpPlace.itsLen (C : CmpPlace) : ℕ := min (u32Sub C.len C.idx) C.taintLen

/-- The arguments that nested calls change. -/
structure CmpArgs (w : ℕ) where
  pattern : BitVec w
  repl : BitVec w
  oPattern : BitVec w
  changedVal : BitVec w
  attr : BitVec 8
  doReverse : Bool

/-- `SWAP64`. -/
def swap64 (x : BitVec 64) : BitVec 64 :=
  let ret := (x &&& 0x00000000FFFFFFFF) <<< 32 ||| (x &&& 0xFFFFFFFF00000000) >>> 32
  let ret := (ret &&& 0x0000FFFF0000FFFF) <<< 16 ||| (ret &&& 0xFFFF0000FFFF0000) >>> 16
  (ret &&& 0x00FF00FF00FF00FF) <<< 8 ||| (ret &&& 0xFF00FF00FF00FF00) >>> 8

/-- `SWAP64`, `SWAP32` or `SWAP16` of a `u64`. -/
def swapWidth (n : ℕ) (x : BitVec 64) : BitVec 64 :=
  if n = 8 then swap64 x
  else if n = 4 then (swap32 (x.setWidth 32)).setWidth 64
  else (swap16 (x.setWidth 16)).setWidth 64

/-- The shift count of `SWAPN`, a `u32`. -/
def swapnShift (l : ℕ) : ℕ := u32Sub 128 (u32 (l <<< 3))

/-- `SWAPN`. -/
def swapn (machine : Machine) (x : BitVec 128) (l : ℕ) : BitVec 128 :=
  let ret : BitVec 128 := swapBytes 16 x
  let sr := swapnShift l
  if sr < 128 then ret >>> sr else machine.shiftWide ret sr

/-! ## A number in decimal digits -/

/-- The buffer with the number in it replaced by a text, in `afl->out_scratch_buf`. -/
def copiedNumber (buf scratch : Buffer) (idx len oldLen : ℕ) (text : List Byte) : Buffer := fun i =>
  if i < idx then buf i
  else if i < idx + text.length then text.getD (i - idx) 0
  else if i < idx + text.length + (len - idx - oldLen) then buf (i - text.length + oldLen)
  else scratch i

/-- A digit behind the text becomes a blank. -/
def numberBuf (buf scratch : Buffer) (idx len oldLen : ℕ) (text : List Byte) : Buffer :=
  let newBuf := copiedNumber buf scratch idx len oldLen text
  if isDigit (newBuf (idx + text.length)) then Function.update newBuf (idx + text.length) 32
  else newBuf

/-- Execute the input with a number replaced. The length is the one of the old input. -/
def executeNumber (C : CmpPlace) (oldLen : ℕ) (text : List Byte) : Its Unit := do
  demand (C.idx + oldLen ≤ C.len)
  let before ← peek fun s => s.buf
  poke fun s => { s with scratch := numberBuf s.buf s.scratch C.idx C.len oldLen text }
  let input ← peek fun s => inputOf C.len s.scratch
  itsFuzz input
  let known ← peek fun s => s.cbuf
  recordFind .number before known input

/-- The number at the index, its text that is to be executed instead, and whether `errno` is
`ERANGE` afterwards. -/
def numberAt (str : List Byte) (erange : Bool) (pattern repl : BitVec 64) :
    Option (ℕ × List Byte) × Bool :=
  match strntoll str erange with
  | (some (oldLen, num), erange) =>
      (if num = pattern ∨ num = 0 then some (oldLen, decimal repl.toInt) else none, erange)
  | (none, erange) =>
      match strntoull str erange with
      | (some (oldLen, unum), erange) =>
          (if unum = pattern ∨ unum = 0 then some (oldLen, decimal repl.toNat) else none, erange)
      | (none, erange) => (none, erange)

/-- The bytes of the buffer from the index on. -/
def CmpPlace.text (C : CmpPlace) (buf : Buffer) : List Byte :=
  (List.range (C.len - C.idx)).map fun k => buf (C.idx + k)

/-- The input is a number that was read by something like `atoi`. -/
def numberTransform (C : CmpPlace) (a : CmpArgs 64) : Its Unit := do
  let found ← peek fun s => numberAt (C.text s.buf) s.erange a.pattern a.repl
  poke fun s => { s with erange := found.2 }
  match found.1 with
  | none => pure ()
  | some (oldLen, text) => executeNumber C oldLen text

/-! ## Transformations -/

/-- The width that an operand is compared with in the buffer, for its number of bytes. -/
def magicWidth (bytes : ℕ) : ℕ :=
  if bytes ≤ 1 then 1 else if bytes ≤ 3 then 2 else if bytes ≤ 7 then 4 else 8

def lower : BitVec 64 := 0x2020202020202020
def upper : BitVec 64 := 0x5f5f5f5f5f5f5f5f

/-- The operands of the nested call for a transformation, if both comparisons show it. -/
def magicRepls (n : ℕ) (a : CmpArgs 64) (bVal oBVal : BitVec 64) : List (Option (BitVec 64)) :=
  let mask : BitVec 64 := (BitVec.allOnes (8 * n)).setWidth 64
  let diff := a.pattern - bVal
  let xored := a.pattern ^^^ bVal
  [ if diff = a.oPattern - oBVal ∧ diff ≠ 0 then some (a.repl - diff) else none,
    if xored = a.oPattern ^^^ oBVal ∧ xored ≠ 0 then some (a.repl ^^^ xored) else none,
    if (oBVal ||| (lower &&& mask)) = (a.oPattern &&& mask) ∧
        (bVal ||| (lower &&& mask)) = (a.pattern &&& mask) then
      some (a.repl &&& (upper &&& mask)) else none,
    if (oBVal &&& (upper &&& mask)) = (a.oPattern &&& mask) ∧
        (bVal &&& (upper &&& mask)) = (a.pattern &&& mask) then
      some (a.repl ||| (lower &&& mask)) else none ]

/-- Try one transformation after the other, until one found something. The first one is tried
in any case. -/
def tryMagic (self : CmpArgs 64 → Its Unit) (a : CmpArgs 64) :
    Bool → List (Option (BitVec 64)) → Its Unit
  | _, [] => pure ()
  | first, magic :: rest => do
      let status ← peek fun s => s.status
      whenever (first ∨ status ≠ 1) (magic.elim (pure ()) fun newRepl =>
        self { a with repl := newRepl, changedVal := a.repl, attr := IS_TRANSFORM,
                      doReverse := true })
      tryMagic self a false rest

/-- Try to identify transform magic. -/
def transformMagic (C : CmpPlace) (self : CmpArgs 64 → Its Unit) (a : CmpArgs 64) (bytes : ℕ) :
    Its Unit := do
  let bVal ← loadBuf C.len (magicWidth bytes) C.idx
  let oBVal ← loadOrig C.origBuf C.len (magicWidth bytes) C.idx
  tryMagic self a true (magicRepls (magicWidth bytes) a (bVal.setWidth 64) (oBVal.setWidth 64))
  poke fun s => { s with status := 0 }

/-! ## Integers -/

/-- The operand is replaced where both buffers have it, or anywhere if it was modified. -/
def replaceInteger (C : CmpPlace) (a : CmpArgs 64) (n : ℕ) : Its Unit := do
  let bVal ← loadBuf C.len n C.idx
  let oBVal ← loadOrig C.origBuf C.len n C.idx
  whenever (bVal = a.pattern.setWidth (8 * n) ∧ oBVal = a.oPattern.setWidth (8 * n) ∨
      IS_FP_MOD ≤ a.attr)
    (replaceWord C.len C.idx n (a.repl.setWidth (8 * n)))

/-- The arguments of a nested call with the other byte order. -/
def CmpArgs.swapped {w : ℕ} (a : CmpArgs w) (swap : BitVec w → BitVec w) : CmpArgs w :=
  { a with pattern := swap a.pattern, repl := swap a.repl, oPattern := swap a.oPattern,
           changedVal := swap a.changedVal, doReverse := false }

/-- An integer of `n` bytes, in both byte orders. -/
def integerEncoding (C : CmpPlace) (self : CmpArgs 64 → Its Unit) (a : CmpArgs 64) (n : ℕ) :
    Its Unit := do
  let s ← peek id
  whenever (n ≤ s.hshape ∧ s.status ≠ 1) do
    whenever (n ≤ C.itsLen) (replaceInteger C a n)
    let status ← peek fun s => s.status
    whenever (a.doReverse ∧ status ≠ 1) (self (a.swapped (swapWidth n)))

/-! ## SCALE encoding -/

/-- How often a number can be divided by 256 until it is 0. -/
def scaleLen : ℕ → ℕ → ℕ
  | 0, _ => 0
  | rounds + 1, tmpVal => if tmpVal = 0 then 0 else scaleLen rounds (tmpVal >>> 8) + 1

/-- The big-integer mode, for an operand of `size` bytes: `ilen` and the value. -/
def scaleBig (size : ℕ) (repl : BitVec 128) : ℕ × BitVec 128 :=
  let scale := scaleLen size repl.toNat - 4
  (scale + 5, repl <<< 8 + BitVec.ofNat 128 (scale <<< 2 + 3))

/-- `ilen` and the value that `cmp_extend_encoding` executes. -/
def scaleEncoding (repl changedVal : BitVec 64) : ℕ × BitVec 128 :=
  let newVal := repl <<< 2
  if changedVal ≤ 255 then (1, newVal.setWidth 128)
  else if newVal ≤ 65535 then (2, (newVal + 1).setWidth 128)
  else if newVal ≤ 4294967295 then (4, (newVal + 2).setWidth 128)
  else scaleBig 8 (repl.setWidth 128)

/-- Write a SCALE encoding, which is part of a `u128`, and execute it. -/
def executeScale (C : CmpPlace) (scale : ℕ × BitVec 128) : Its Unit := do
  demand (scale.1 ≤ 16)
  replaceWord C.len C.idx 32 (scale.2.setWidth (8 * scale.1))

/-- The SCALE encoding of the operand. -/
def scaleAttempt (C : CmpPlace) (a : CmpArgs 64) : Its Unit :=
  let scale := scaleEncoding a.repl a.changedVal
  whenever ((a.attr < IS_FP ∧ (C.enableScale ∨ LVL3 ≤ C.lvl) ∧ a.repl = a.changedVal) ∧
      scale.1 ≤ C.itsLen ∧ 1 < scale.1)
    (executeScale C scale)

/-! ## One more or one less -/

/-- The attribute of a comparison that admits equality, with the direction turned around. -/
def strictAttr (attr : BitVec 8) : BitVec 8 :=
  if attr &&& IS_EQUAL ≠ 0 ∧ attr &&& (IS_GREATER ||| IS_LESSER) ≠ 0 then
    if attr &&& 2 ≠ 0 then attr + 2 else attr - 2
  else attr

/-- The arguments of a nested call with another operand to write. -/
def CmpArgs.modified (a : CmpArgs 64) (replNew : BitVec 64) (attr : BitVec 8) : CmpArgs 64 :=
  { a with repl := replNew, changedVal := replNew, attr := attr, doReverse := true }

/-- The neighbour of a floating-point operand. -/
def floatNeighbour (C : CmpPlace) (greater : Bool) (hshape : ℕ) (repl : BitVec 64) :
    Option (BitVec 64) :=
  if greater then
    if hshape = 4 ∧ 4 ≤ C.itsLen then
      some ((C.machine.addOne32 (repl.setWidth 32)).setWidth 64)
    else if hshape = 8 ∧ 8 ≤ C.itsLen then some (C.machine.addOne64 repl)
    else none
  else
    if hshape = 4 then some ((C.machine.subOne32 (repl.setWidth 32)).setWidth 64)
    else if hshape = 8 then some (C.machine.subOne64 repl)
    else none

/-- A lesser or greater comparison of floating-point numbers. -/
def floatArithmetic (C : CmpPlace) (self : CmpArgs 64 → Its Unit) (a : CmpArgs 64)
    (attr : BitVec 8) : Its Unit := do
  let hshape ← peek fun s => s.hshape
  match floatNeighbour C (attr &&& IS_GREATER ≠ 0) hshape a.repl with
  | none => pure ()
  | some replNew => do
      self (a.modified replNew IS_FP_MOD)
      let hshape ← peek fun s => s.hshape
      whenever (hshape = 8 ∧ 4 ≤ C.itsLen) do
        poke fun s => { s with hshape := 4 }
        self (a.modified ((C.machine.toFloat a.repl).setWidth 64) IS_FP_MOD)
        poke fun s => { s with hshape := 8 }

/-- Add and subtract 1, but only if it is not an `==` or `!=` comparison. -/
def arithmetic (C : CmpPlace) (self : CmpArgs 64 → Its Unit) (a : CmpArgs 64) : Its Unit := do
  let hshape ← peek fun s => s.hshape
  let attr := strictAttr a.attr
  whenever ((C.enableArith ∧ LVL3 ≤ C.lvl ∧ a.attr ≠ IS_TRANSFORM) ∧
      a.attr &&& (IS_GREATER ||| IS_LESSER) ≠ 0 ∧ 4 ≤ hshape)
    (if IS_FP ≤ attr ∧ attr < IS_FP_MOD then floatArithmetic C self a attr
      else whenever (attr < IS_FP)
        (self (a.modified (if attr &&& IS_GREATER ≠ 0 then a.repl + 1 else a.repl - 1)
          IS_INT_MOD)))

/-! ## The functions -/

/-- The number of bytes of an integer of a shape. -/
def shapeWidth (hshape : ℕ) : ℕ :=
  if hshape ≤ 1 then 1 else if hshape = 2 then 2 else if hshape ≤ 4 then 4 else 8

/-- What is only tried at the third level. -/
def expensiveAttempts (C : CmpPlace) (self : CmpArgs 64 → Its Unit) (a : CmpArgs 64) (bytes : ℕ) :
    Its Unit :=
  whenever (C.enableTransform ∧ C.lvl &&& LVL3 ≠ 0) do
    numberTransform C a
    whenever (a.pattern ≠ a.oPattern ∧ a.repl = a.changedVal ∧ a.attr ≤ IS_EQUAL)
      (transformMagic C self a bytes)

/-- What is tried if the operand changed. -/
def plainAttempts (C : CmpPlace) (self : CmpArgs 64 → Its Unit) (a : CmpArgs 64) : Its Unit :=
  whenever (a.pattern ≠ a.oPattern) do
    whenever (C.lvl &&& LVL1 ≠ 0 ∨ IS_FP_MOD ≤ a.attr) do
      integerEncoding C self a 8
      integerEncoding C self a 4
      integerEncoding C self a 2
    scaleAttempt C a
    arithmetic C self a

/-- The body of `cmp_extend_encoding`, where `self` is what it calls again. -/
def cmpExtendBody (C : CmpPlace) (self : CmpArgs 64 → Its Unit) (a : CmpArgs 64) : Its Unit := do
  let hshape ← peek fun s => s.hshape
  let bytes := min (shapeWidth hshape) (u32Sub C.len C.idx)
  whenever (1 < bytes) do
    expensiveAttempts C self a bytes
    plainAttempts C self a

/-- `cmp_extend_encoding`, with at most `depth` calls inside each other. -/
def cmpExtendEncoding (C : CmpPlace) : ℕ → CmpArgs 64 → Its Unit
  | 0, _ => demand False
  | depth + 1, a => cmpExtendBody C (cmpExtendEncoding C depth) a

/-- `ilen` and the value that `cmp_extend_encodingN` executes, if it executes one. -/
def scaleEncodingN (repl : BitVec 128) : Option (ℕ × BitVec 128) :=
  let newVal := repl <<< 2
  if newVal ≤ 255 then some (1, newVal)
  else if newVal ≤ 65535 then some (2, newVal + 1)
  else if newVal ≤ 4294967295 then some (4, newVal + 2)
  else if repl.toNat < 1 <<< 120 then some (scaleBig 16 repl)
  else none

/-- The SCALE encoding of an operand of up to 16 bytes. -/
def scaleAttemptN (C : CmpPlace) (a : CmpArgs 128) : Its Unit :=
  whenever (a.attr < IS_FP ∧ a.attr < 32 ∧ (C.enableScale ∨ LVL3 ≤ C.lvl))
    ((scaleEncodingN a.repl).elim (pure ()) fun scale =>
      whenever (scale.1 ≤ C.itsLen) (executeScale C scale))

/-- The operand is replaced where both buffers have it. -/
def replaceOperand (C : CmpPlace) (a : CmpArgs 128) (hshape : ℕ) : Its Unit := do
  let bVal ← loadBuf C.len hshape C.idx
  let oBVal ← loadOrig C.origBuf C.len hshape C.idx
  demand (hshape ≤ 16)
  whenever (bVal = a.pattern.setWidth (8 * hshape) ∧ oBVal = a.oPattern.setWidth (8 * hshape))
    (replaceWord C.len C.idx 16 (a.repl.setWidth (8 * hshape)))

/-- The operands with `SWAPN` applied to them, for the reverse encoding. -/
def CmpArgs.reversed (machine : Machine) (hshape : ℕ) (a : CmpArgs 128) : CmpArgs 128 :=
  a.swapped fun x => swapn machine x (u32 (hshape <<< 3))

/-- The body of `cmp_extend_encodingN`, where `self` is what it calls again. -/
def cmpExtendBodyN (C : CmpPlace) (self : CmpArgs 128 → Its Unit) (a : CmpArgs 128) :
    Its Unit := do
  let hshape ← peek fun s => s.hshape
  whenever (hshape ≤ C.itsLen) do
    replaceOperand C a hshape
    let status ← peek fun s => s.status
    whenever (a.doReverse ∧ status ≠ 1) (self (a.reversed C.machine hshape))
    scaleAttemptN C a

/-- `cmp_extend_encodingN`, with at most `depth` calls inside each other. -/
def cmpExtendEncodingN (C : CmpPlace) : ℕ → CmpArgs 128 → Its Unit
  | 0, _ => demand False
  | depth + 1, a => cmpExtendBodyN C (cmpExtendEncodingN C depth) a

end GreenFuzz.Redqueen
