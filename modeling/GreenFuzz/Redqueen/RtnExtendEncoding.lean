import GreenFuzz.CompilerRt.CmpLog
import GreenFuzz.Redqueen.Base64
import GreenFuzz.Redqueen.CmpExtendEncoding

/-!
# Solving comparisons of routines

`rtn_extend_encoding` tries to replace an argument of a routine where it is found in the input:
byte by byte from the index on, or from up to four bytes before it, and after a transformation, as
base64, as hexadecimal digits, or with every byte changed in the same way.

Each round of the transformations counts what the bytes so far show, and from the counters follow
the attempts of the round (`Trial`). All attempts but the last three are made in any case, those
only if nothing was found.
-/

set_option autoImplicit false

namespace GreenFuzz.Redqueen

open Library AflFuzz

/-! ## Arguments -/

/-- The arguments of a call, two options, and what the array `save` holds before it is written. -/
structure RtnCall where
  enableTransform : Bool
  enableXtremeTransform : Bool
  entry : ℕ
  o : CompilerRt.CmpfnOperands
  origO : CompilerRt.CmpfnOperands
  idx : ℕ
  taintLen : ℕ
  origBuf : Buffer
  len : ℕ
  lvl : BitVec 8
  unset : Buffer

namespace RtnCall

variable (R : RtnCall)

def pattern : Buffer := if R.entry = 0 then R.o.v0 else R.o.v1
def repl : Buffer := if R.entry = 0 then R.o.v1 else R.o.v0
def oPattern : Buffer := if R.entry = 0 then R.origO.v0 else R.origO.v1
def changedVal : Buffer := if R.entry = 0 then R.origO.v1 else R.origO.v0

/-- `l0`, `l1`, `ol0` and `ol1`. -/
def loggedLens : Byte × Byte × Byte × Byte :=
  if R.entry = 0 then (R.o.v0Len, R.o.v1Len, R.origO.v0Len, R.origO.v1Len)
  else (R.o.v1Len, R.o.v0Len, R.origO.v1Len, R.origO.v0Len)

/-- A length without the mark of a text. -/
def unmark (l : Byte) : Byte := if 0x80 ≤ l then l - 0x80 else l

/-- The lengths without the marks. -/
def lens : Byte × Byte × Byte × Byte :=
  let (l0, l1, ol0, ol1) := R.loggedLens
  if 0x80 ≤ l0 ∨ 0x80 ≤ ol0 then (unmark l0, unmark l1, unmark ol0, unmark ol1)
  else (l0, l1, ol0, ol1)

/-- `lmax`. -/
def lmax (hshape : ℕ) : ℕ :=
  let (l0, l1, ol0, ol1) := R.lens
  if (l0 = 0 ∨ l1 = 0 ∨ ol0 = 0 ∨ ol1 = 0) ∨ 32 < l0 ∨ 32 < l1 ∨ 32 < ol0 ∨ 32 < ol1 then
    (BitVec.ofNat 8 hshape).toNat
  else max l0.toNat ol0.toNat

/-- `its_len`. -/
def itsLen (hshape : ℕ) : ℕ :=
  min (min (min (R.lmax hshape) hshape) (u32Sub R.len R.idx)) R.taintLen

/-- `to`. -/
def lastShift : ℕ := if R.lvl &&& LVL3 ≠ 0 then min 4 R.idx else 0

/-- The values of `pre`. -/
def shifts : List ℕ :=
  if R.lvl &&& LVL3 ≠ 0 ∧ R.lvl &&& LVL1 = 0 ∧ R.lastShift ≠ 0 then List.range' 1 R.lastShift
  else List.range (R.lastShift + 1)

/-- `save` for the direct matches. -/
def saved (itsLen : ℕ) (buf : Buffer) : Buffer := fun k =>
  if k < itsLen + R.lastShift then buf (R.idx - R.lastShift + k) else R.unset k

/-- `save` for the transformations: its first bytes are written again. -/
def savedAgain (itsLen : ℕ) (save buf : Buffer) : Buffer := fun k =>
  if k < itsLen then buf (R.idx + k) else save k

end RtnCall

/-! ## Direct matches -/

/-- `memcpy` to the buffer. -/
def copyToBuf (len start : ℕ) (bytes : List Byte) : Its Unit :=
  attempt (fun _ => start + bytes.length ≤ len) fun s =>
    ((), { s with buf := memcpyTo s.buf start bytes })

/-- `memcpy` from `save`, which has 80 bytes, to the buffer. -/
def putBack (len start offset n : ℕ) (save : Buffer) : Its Unit :=
  attempt (fun _ => offset + n ≤ 80 ∧ start + n ≤ len) fun s =>
    ((), { s with buf := memcpyTo s.buf start (bytesFrom save offset n) })

/-- Copy bytes of the buffer to the combined buffer after a find. -/
def copyToCbuf (len start count : ℕ) : Its Unit :=
  attempt (fun s => s.status = 1 → start + count ≤ len) fun s =>
    ((), if s.status = 1 then { s with cbuf := memcpyTo s.cbuf start (bytesFrom s.buf start count) }
      else s)

/-- Replace byte `i` of a match and execute. -/
def matchByte (R : RtnCall) (start i : ℕ) (before : Buffer) : Its Unit := do
  copyToBuf R.len (start + i) [R.repl i]
  let input ← peek fun s => inputOf R.len s.buf
  itsFuzz input
  let known ← peek fun s => s.cbuf
  -- one byte less than was replaced
  copyToCbuf R.len start i
  recordFind (.direct (start + i)) before known input

/-- The loop over the bytes of a direct match, with `i` afterwards. -/
def matchBytes (R : RtnCall) (start : ℕ) (before : Buffer) : ℕ → ℕ → Its ℕ
  | 0, i => pure i
  | rounds + 1, i => do
      demand (i < 32 ∧ start + i < R.len)
      let s ← peek id
      if (R.pattern i ≠ s.buf (start + i) ∨ R.oPattern i ≠ R.origBuf (start + i)) ∨ s.status = 1
      then pure i
      else do
        matchByte R start i before
        matchBytes R start before rounds (i + 1)

/-- A match from `pre` bytes before the index on. -/
def matchShift (R : RtnCall) (itsLen : ℕ) (save : Buffer) (pre : ℕ) : Its Unit := do
  let s ← peek id
  let start := R.idx - pre
  whenever (s.status ≠ 1 ∧ (pre = 0 ∨ bytesFrom s.buf start pre = bytesFrom R.repl 0 pre)) do
    let i ← matchBytes R start s.buf (itsLen + pre) 0
    putBack R.len start (R.lastShift - pre) i save

def matchShifts (R : RtnCall) (itsLen : ℕ) (save : Buffer) : List ℕ → Its Unit
  | [] => pure ()
  | pre :: rest => do
      matchShift R itsLen save pre
      matchShifts R itsLen save rest

/-! ## Counters -/

/-- What the rounds of the transformations keep: the counters, the marks of prefixes and of upper
case, and the arrays. -/
structure Transforms where
  toupper : ℕ := 0
  tolower : ℕ := 0
  xor : ℕ := 0
  arith : ℕ := 0
  tohex : ℕ := 0
  fromhex : ℕ := 0
  tob64 : ℕ := 0
  fromb64 : ℕ := 0
  from0 : ℕ := 0
  fromx : ℕ := 0
  fromX : ℕ := 0
  fromSlash : ℕ := 0
  to0 : ℕ := 0
  tox : ℕ := 0
  toSlash : ℕ := 0
  toUp : ℕ := 0
  xorVal : Buffer
  arithVal : Buffer
  tmp : Buffer

def isUpperHex (byte : Byte) : Bool := 65 ≤ byte ∧ byte ≤ 70
def isLowerHex (byte : Byte) : Bool := 97 ≤ byte ∧ byte ≤ 102
def isHexChar (byte : Byte) : Bool :=
  (48 ≤ byte ∧ byte ≤ 57) ∨ isUpperHex byte ∨ isLowerHex byte

/-- `is_hex`. -/
def isHex (str : Buffer) (p : ℕ) : Bool := isHexChar (str p) ∧ isHexChar (str (p + 1))

def isBase64Char (byte : Byte) : Bool :=
  (48 ≤ byte ∧ byte ≤ 57) ∨ (65 ≤ byte ∧ byte ≤ 90) ∨ (97 ≤ byte ∧ byte ≤ 122) ∨
    byte = 43 ∨ byte = 47 ∨ byte = 61

/-- `is_base64`. -/
def isBase64 (str : Buffer) (p : ℕ) : Bool :=
  isBase64Char (str p) ∧ isBase64Char (str (p + 1)) ∧ isBase64Char (str (p + 2)) ∧
    isBase64Char (str (p + 3))

/-- `to_up` after a look at one digit. -/
def caseOf (byte : Byte) (toUp : ℕ) : ℕ :=
  if isUpperHex byte then 1 else if isLowerHex byte then 2 else toUp

namespace Transforms

/-- `xor_val` and `arith_val` with the values for byte `i`, which is `byte` in the buffer. -/
def withDifferences (R : RtnCall) (i : ℕ) (byte : Byte) (c : Transforms) : Transforms :=
  { c with xorVal := Function.update c.xorVal i (R.pattern i ^^^ byte)
           arithVal := Function.update c.arithVal i (R.pattern i - byte) }

/-- The prefixes `0x` and `\x` of the input and of the replacement. -/
def withPrefixes (R : RtnCall) (i : ℕ) (c : Transforms) : Transforms :=
  if i = 0 then
    { c with from0 := if R.origBuf R.idx = 48 then 1 else c.from0
             fromSlash := if R.origBuf R.idx = 92 then 1 else c.fromSlash
             to0 := if R.repl 0 = 48 then 1 else c.to0
             toSlash := if R.repl 0 = 92 then 1 else c.toSlash }
  else if i = 1 then
    { c with
      fromx := if R.origBuf (R.idx + 1) = 120 ∨ R.origBuf (R.idx + 1) = 88 then 1 else c.fromx
      fromX := if R.origBuf (R.idx + 1) = 88 then 1 else c.fromX
      tox := if R.repl 1 = 120 ∨ R.repl 1 = 88 then 1 else c.tox }
  else c

/-- The counters for encodings. -/
def withEncodings (R : RtnCall) (i : ℕ) (c : Transforms) : Transforms :=
  let digits := R.enableXtremeTransform ∧ i < 16 ∧ isHex R.repl (2 * i)
  { c with
    tohex := if digits then c.tohex + 1 else c.tohex
    toUp := if digits ∧ c.toUp = 0 then caseOf (R.repl (2 * i + 1)) (caseOf (R.repl (2 * i)) 0)
      else c.toUp
    fromhex :=
      if R.enableXtremeTransform ∧ i % 2 = 1 ∧ u32 (R.idx + i + 1) < R.len ∧
          isHex R.origBuf (R.idx + i - 1) then c.fromhex + 2
      else c.fromhex
    tob64 :=
      if R.enableXtremeTransform ∧ i % 3 = 2 ∧ i < 24 ∧ isBase64 R.repl (4 * (i / 3)) then
        c.tob64 + 3
      else c.tob64
    fromb64 :=
      if R.enableXtremeTransform ∧ i % 4 = 3 ∧ i < 24 ∧ isBase64 R.origBuf (R.idx + i - 3) then
        c.fromb64 + 4
      else c.fromb64 }

/-- The counters for bytes that are all changed in the same way. -/
def withBytes (R : RtnCall) (i : ℕ) (byte : Byte) (c : Transforms) : Transforms :=
  let orig := R.origBuf (R.idx + i)
  { c with
    xor := if R.oPattern i ^^^ orig = c.xorVal i ∧ c.xorVal i ≠ 0 then c.xor + 1 else c.xor
    -- the difference on the left is an `int`, so it may be negative
    arith :=
      if ((R.oPattern i).toNat : ℤ) - (orig.toNat : ℤ) = ((c.arithVal i).toNat : ℤ) ∧
          c.arithVal i ≠ 0 then c.arith + 1
      else c.arith
    tolower :=
      if byte ||| 0x20 = R.pattern i ∧ orig ||| 0x20 = R.oPattern i then c.tolower + 1
      else c.tolower
    toupper :=
      if byte &&& 0x5a = R.pattern i ∧ orig &&& 0x5a = R.oPattern i then c.toupper + 1
      else c.toupper }

/-- The first part of a round, in which byte `i` of the buffer is `byte`. -/
def count (R : RtnCall) (i : ℕ) (byte : Byte) (c : Transforms) : Transforms :=
  (((c.withDifferences R i byte).withPrefixes R i).withEncodings R i).withBytes R i byte

/-- Nothing more can be expected of the transformations. -/
def Hopeless (R : RtnCall) (i : ℕ) (c : Transforms) : Prop :=
  7 ≤ i ∧ (c.xor ≤ i ∧ c.arith ≤ i ∧ c.tolower ≤ i ∧ c.toupper ≤ i ∧ c.tohex < i ∧
    c.fromhex + c.from0 + c.fromx + c.fromSlash + 1 < i ∧
    (R.enableXtremeTransform ∧ c.tob64 + 3 < i ∧ c.fromb64 + 4 < i))

instance (R : RtnCall) (i : ℕ) (c : Transforms) : Decidable (c.Hopeless R i) := by
  unfold Hopeless
  infer_instance

end Transforms

/-! ## Attempts -/

/-- Bytes that are written at the index and executed. -/
structure Trial where
  /-- How many bytes of `repl` are read for it. -/
  reads : ℕ
  /-- Every character that is looked up in a table is in the table. -/
  inTable : Bool := true
  bytes : List Byte
  /-- It is not executed, because it does not fit into the input. -/
  tooLong : Bool := false
  /-- The saved bytes are written over it at once. -/
  putBack : Bool := false
  /-- It is only tried if nothing was found. -/
  guarded : Bool := false

def hexTableUp (digit : Byte) : Byte := ("0123456789ABCDEF".toList.map ord).getD digit.toNat 0
def hexTableLow (digit : Byte) : Byte := ("0123456789abcdef".toList.map ord).getD digit.toNat 0

def hexTable : List Byte :=
  [ 0, 1, 2, 3,  4,  5,  6,  7,  8,  9,  0,  0,  0, 0,
    0, 0, 0, 10, 11, 12, 13, 14, 15, 0,  0,  0,  0, 0,
    0, 0, 0, 0,  0,  0,  0,  0,  0,  0,  0,  0,  0, 0,
    0, 0, 0, 0,  0,  0,  0,  10, 11, 12, 13, 14, 15 ]

/-- `hex_table[byte - '0']`, if the index is inside the table. -/
def hexTableAt (byte : Byte) : Option Byte :=
  if 48 ≤ byte then hexTable[(byte - 48).toNat]? else none

/-- The two digits of a byte. -/
def hexDigits (toUp : ℕ) (byte : Byte) : List Byte :=
  if toUp = 1 then [hexTableUp (byte >>> 4), hexTableUp (byte % 16)]
  else [hexTableLow (byte >>> 4), hexTableLow (byte % 16)]

namespace Transforms

variable (R : RtnCall) (itsLen i : ℕ) (c : Transforms)

/-- Input is base64 and converted to binary: convert `repl` to base64. The lengths `hlen`, and
what is tried. -/
def fromb64Lengths : List ℕ :=
  if R.enableXtremeTransform ∧ i % 4 = 3 ∧ i < 24 ∧ i < c.fromb64 then
    (List.range' i (itsLen + 1 - i)).takeWhile fun hlen => u32 (hlen + R.idx) < R.len
  else []

def fromb64Trial (hlen : ℕ) : Trial :=
  let (res, tmp) := toBase64 R.repl hlen
  { reads := 3 * ((hlen + 2) / 3), bytes := tmp.take res, tooLong := ¬ u32 (res + R.idx) < R.len }

def fromb64Trials : List Trial := (c.fromb64Lengths R itsLen i).map (fromb64Trial R)

/-- `tmp` after these. -/
def fromb64Tmp : Buffer :=
  (c.fromb64Lengths R itsLen i).foldl (fun tmp hlen => memcpyTo tmp 0 (toBase64 R.repl hlen).2)
    c.tmp

/-- Input is converted to base64: decode `repl`. -/
def tob64Trials : List Trial × Buffer :=
  let tmp := c.fromb64Tmp R itsLen i
  if R.enableXtremeTransform ∧ i % 3 = 2 ∧ i < 24 ∧ i < c.tob64 then
    match fromBase64 R.repl tmp (i + 1) with
    | some (olen, tmp) => ([{ reads := 4 * ((i + 1) / 3), bytes := bytesFrom tmp 0 olen }], tmp)
    | none => ([{ reads := 4 * ((i + 1) / 3), inTable := false, bytes := [] }], tmp)
  else ([], tmp)

/-- Where the digits of `repl` begin. -/
def tohexOff : ℕ := if c.toSlash + c.tox + c.to0 = 2 then 2 else 0

/-- The value of two digits of `repl`. -/
def tohexByte (j : ℕ) : Option Byte := do
  let high ← hexTableAt (R.repl (c.tohexOff + 2 * j))
  let low ← hexTableAt (R.repl (c.tohexOff + 2 * j + 1))
  some ((high <<< 4) + low)

/-- Input is converted to hex: convert `repl` to binary. -/
def tohexTrials : List Trial :=
  if R.enableXtremeTransform ∧ i < 16 ∧ i < c.tohex then
    [{ reads := c.tohexOff + 2 * (i + 1)
       inTable := (List.range (i + 1)).all fun j => (c.tohexByte R j).isSome
       bytes := (List.range (i + 1)).map fun j => (c.tohexByte R j).getD 0 }]
  else []

/-- The prefix of the digits. -/
def fromhexPrefix : List Byte :=
  if c.fromSlash ≠ 0 ∧ c.fromx ≠ 0 then [92, if c.fromX ≠ 0 then 88 else 120]
  else if c.from0 ≠ 0 ∧ c.fromx ≠ 0 then [48, if c.fromX ≠ 0 then 88 else 120]
  else []

/-- The prefix and the digits of the first bytes of `repl`. -/
def fromhexText (hlen : ℕ) : List Byte :=
  c.fromhexPrefix ++ (List.range (hlen / 2 + 1)).flatMap fun j => hexDigits c.toUp (R.repl j)

/-- Input is hex and converted to binary: convert `repl` to hex. -/
def fromhexLengths : List ℕ :=
  if R.enableXtremeTransform ∧ i % 2 = 1 ∧ i < 16 ∧ c.fromhex ≠ 0 ∧
      i < c.fromhex + c.fromSlash + c.fromx + c.from0 then
    [i, 2 * i].takeWhile fun hlen => u32 (hlen + R.idx) < R.len
  else []

def fromhexTrial (hlen : ℕ) : Trial :=
  { reads := hlen / 2 + 1
    bytes := (c.fromhexText R hlen).take (hlen + 1 + c.fromhexPrefix.length)
    putBack := true }

def fromhexTrials : List Trial := (c.fromhexLengths R i).map (c.fromhexTrial R)

/-- `tmp` after these, which end it with a 0. -/
def fromhexTmp (tmp : Buffer) : Buffer :=
  (c.fromhexLengths R i).foldl
    (fun tmp hlen => Function.update (memcpyTo tmp 0 (c.fromhexText R hlen))
      (hlen + 1 + c.fromhexPrefix.length) 0) tmp

/-- The first bytes of `repl`, each one changed. -/
def bytewiseTrials (counter : ℕ) (guarded : Bool) (change : ℕ → Byte) : List Trial :=
  if i < counter then
    [{ reads := i + 1, bytes := (List.range (i + 1)).map change, guarded := guarded }]
  else []

def xorTrials : List Trial := bytewiseTrials i c.xor false fun j => R.repl j ^^^ c.xorVal j
def arithTrials : List Trial := bytewiseTrials i c.arith true fun j => R.repl j - c.arithVal j
def toupperTrials : List Trial := bytewiseTrials i c.toupper true fun j => R.repl j ||| 0x20
def tolowerTrials : List Trial := bytewiseTrials i c.tolower true fun j => R.repl j &&& 0x5f

/-- What is tried in any case. -/
def firstTrials : List Trial :=
  c.fromb64Trials R itsLen i ++ (c.tob64Trials R itsLen i).1 ++ c.tohexTrials R i ++
    c.fromhexTrials R i ++ c.xorTrials R i

/-- What is tried if nothing was found. -/
def lastTrials : List Trial := c.arithTrials R i ++ c.toupperTrials R i ++ c.tolowerTrials R i

/-- `tmp` after a round. -/
def tmpAfter : Buffer :=
  let tmp := (c.tob64Trials R itsLen i).2
  let tmp := (c.tohexTrials R i).foldl (fun tmp trial => memcpyTo tmp 0 trial.bytes) tmp
  c.fromhexTmp R i tmp

end Transforms

/-! ## Rounds -/

/-- Write the saved bytes over an attempt. -/
def undo (R : RtnCall) (save : Buffer) (trial : Trial) : Its Unit :=
  whenever trial.putBack (putBack R.len R.idx 0 trial.bytes.length save)

/-- Try one. A find is recorded at the end of the round. -/
def tryOne (R : RtnCall) (save : Buffer) (i : ℕ) (trial : Trial) (followed : Bool) :
    Its (List (Buffer → Find)) := do
  demand (trial.reads ≤ 32 ∧ trial.inTable ∧ trial.bytes.length < 64)
  if trial.tooLong then pure []
  else do
    let before ← peek fun s => s.buf
    copyToBuf R.len R.idx trial.bytes
    let input ← peek fun s => inputOf R.len s.buf
    itsFuzz input
    undo R save trial
    let s ← peek id
    let site : Site := .transform R.idx i trial.bytes.length trial.putBack followed
    pure (if s.status = 1 then [Find.mk site before input s.cbuf] else [])

/-- Something is executed in any case. -/
def someFollow (trials : List Trial) : Bool :=
  trials.any fun trial => !trial.guarded && !trial.tooLong

/-- Try one after the other. -/
def tryAll (R : RtnCall) (save : Buffer) (i : ℕ) : List Trial → Its (List (Buffer → Find))
  | [] => pure []
  | trial :: rest => do
      let status ← peek fun s => s.status
      if trial.guarded ∧ status = 1 then tryAll R save i rest
      else do
        let found ← tryOne R save i trial (someFollow rest)
        let more ← tryAll R save i rest
        pure (found ++ more)

/-- What is done after the attempts of a round. -/
def endRound (R : RtnCall) (i : ℕ) (found : List (Buffer → Find)) : Its Unit := do
  copyToCbuf R.len R.idx (i + 1)
  poke fun s => { s with finds := s.finds ++ found.map fun find => find s.cbuf }

/-- The rounds of the transformations, with `i` afterwards. -/
def transformRounds (R : RtnCall) (itsLen : ℕ) (save : Buffer) : ℕ → ℕ → Transforms → Its ℕ
  | 0, i, _ => pure i
  | rounds + 1, i, c => do
      demand (i < 32 ∧ (i < 16 → 2 * i + 2 ≤ 32) ∧ (i < 24 → 4 * (i / 3) + 4 ≤ 32) ∧
        R.idx + i < R.len)
      let byte ← peek fun s => s.buf (R.idx + i)
      let c := c.count R i byte
      let found ← tryAll R save i (c.firstTrials R itsLen i ++ c.lastTrials R i)
      endRound R i found
      let status ← peek fun s => s.status
      if c.Hopeless R i ∨ R.repl i ≠ R.changedVal i ∨ status = 1 then pure i
      else transformRounds R itsLen save rounds (i + 1) { c with tmp := c.tmpAfter R itsLen i }

/-- The counters before the first round. The arrays are only read where they were written, but
for `tmp`. -/
def Transforms.start (R : RtnCall) : Transforms :=
  { xorVal := R.unset, arithVal := R.unset, tmp := R.unset }

/-- Transform solving. -/
def transformSolving (R : RtnCall) (itsLen : ℕ) (save : Buffer) : Its Unit := do
  let buf ← peek fun s => s.buf
  let save := R.savedAgain itsLen save buf
  let i ← transformRounds R itsLen save itsLen 0 (Transforms.start R)
  putBack R.len R.idx 0 i save

/-- Both parts, for an operand of `itsLen` bytes. -/
def solveRoutine (R : RtnCall) (itsLen : ℕ) : Its Unit := do
  demand (R.lastShift ≤ R.idx ∧ R.idx + itsLen ≤ R.len ∧ itsLen + R.lastShift ≤ 80)
  let buf ← peek fun s => s.buf
  matchShifts R itsLen (R.saved itsLen buf) R.shifts
  let status ← peek fun s => s.status
  whenever (status ≠ 1 ∧ R.enableTransform ∧ R.lvl &&& LVL3 ≠ 0)
    (transformSolving R itsLen (R.saved itsLen buf))

/-- `rtn_extend_encoding`. -/
def rtnExtendEncoding (R : RtnCall) : Its Unit := do
  let hshape ← peek fun s => s.hshape
  let itsLen := R.itsLen hshape
  whenever (1 < itsLen) do
    whenever (R.lvl &&& LVL3 ≠ 0) (demand (itsLen ≤ 32))
    whenever (R.lvl &&& LVL3 ≠ 0 → bytesFrom R.changedVal 0 itsLen = bytesFrom R.repl 0 itsLen)
      (solveRoutine R itsLen)

end GreenFuzz.Redqueen
