import GreenFuzz.AflFuzz.State
import GreenFuzz.AflFuzz.Havoc
import GreenFuzz.AflFuzz.Extras
import GreenFuzz.AflFuzz.ExtrasOver
import GreenFuzz.Library.Checked
import Mathlib.Data.Nat.Digits.Defs

/-!
# The mutator of `afl-mutations.h`

`afl_mutate` changes a buffer in steps. A step draws a mutation from a table, and the
mutation draws where it takes place and how much it changes. Some give up and have
another one drawn.

Every access to the buffer, to the scratch buffer `tmp_buf` and to `splice_buf` is
checked against the room there is, and a number that is used as an offset must have
been drawn from a range that is not empty. Signed arithmetic is checked as well. What
fails a check is a fault.
-/

set_option autoImplicit false

namespace GreenFuzz.AflFuzz

open Library

/-! ## The state -/

def HAVOC_BLK_SMALL : ℕ := 32

def HAVOC_BLK_MEDIUM : ℕ := 128

def HAVOC_BLK_LARGE : ℕ := 1500

def HAVOC_BLK_XL : ℕ := 32768

def MUT_STRATEGY_ARRAY_SIZE : ℕ := 256

/-- The mutations, in the order of their codes. -/
inductive Mutation where
  | flipbit | interesting8 | interesting16 | interesting16be | interesting32 | interesting32be
  | arith8_ | arith8 | arith16_ | arith16be_ | arith16 | arith16be
  | arith32_ | arith32be_ | arith32 | arith32be
  | rand8 | cloneCopy | cloneFixed | overwriteCopy | overwriteFixed | byteadd | bytesub | flip8
  | switch | del | shuffle | delone | insertone | asciinum | insertasciinum
  | extraOverwrite | extraInsert | autoExtraOverwrite | autoExtraInsert
  | spliceOverwrite | spliceInsert
  deriving DecidableEq

/-- What a call works with: the strategy table, the fields of the fuzzer that choose block
lengths, the dictionaries, the other testcase (empty without one) and the capacity. -/
structure Mutator where
  mutationArray : ℕ → Mutation
  queueCycle : ℕ
  runOver10m : Bool
  extras : List Token
  aExtras : List Token
  spliceBuf : List Byte
  maxLen : ℕ

/-- The two buffers with all their room, and the length of the case. -/
structure MutState where
  buf : List Byte
  tmpBuf : List Byte
  len : ℕ

/-- A part of the mutator. -/
abbrev Mutating (α : Type) := Checked MutState Draws α

/-- A mutation is done, or another one is drawn. -/
inductive StepEnd where
  | done | retry
  deriving DecidableEq

/-! ## Random numbers and accesses -/

/-- `rand_below`. -/
def drawBelow (limit : ℕ) : Mutating ℕ := takeFrom (randBelow limit).run

/-- `rand_below` for an offset. -/
def drawOffset (limit : ℕ) : Mutating ℕ := do
  attempt (fun _ => 0 < limit) fun s => ((), s)
  drawBelow limit

/-- `rand_next`. -/
def randNext : Mutating (BitVec 64) := takeFrom fun
  | [] => none
  | value :: rest => some (value, rest)

/-- The current length. -/
def getLen : Mutating ℕ := attempt (fun _ => True) fun s => (s.len, s)

def setLen (len : ℕ) : Mutating Unit := attempt (fun _ => True) fun s => ((), { s with len := len })

/-- Bytes read in `buf`. -/
def readBuf (position count : ℕ) : Mutating (List Byte) :=
  attempt (fun s => position + count ≤ s.buf.length) fun s => (slice s.buf position count, s)

/-- Bytes written to `buf`. -/
def writeBuf (position : ℕ) (data : List Byte) : Mutating Unit :=
  attempt (fun s => position + data.length ≤ s.buf.length)
    fun s => ((), { s with buf := overwrite s.buf position data })

/-- Bytes read in `tmp_buf`. -/
def readTmp (position count : ℕ) : Mutating (List Byte) :=
  attempt (fun s => position + count ≤ s.tmpBuf.length) fun s => (slice s.tmpBuf position count, s)

/-- Bytes written to `tmp_buf`. -/
def writeTmp (position : ℕ) (data : List Byte) : Mutating Unit :=
  attempt (fun s => position + data.length ≤ s.tmpBuf.length)
    fun s => ((), { s with tmpBuf := overwrite s.tmpBuf position data })

/-- `size` bytes that are read and written at a position of `buf`. -/
def editBuf (position size : ℕ) (edit : Buffer → Buffer) : Mutating Unit :=
  attempt (fun s => position + size ≤ s.buf.length) fun s =>
    ((), { s with buf := (List.range s.buf.length).map (edit fun i => (s.buf[i]?).getD 0) })

/-- One byte that is read and written. -/
def editByte (position : ℕ) (edit : Byte → Byte) : Mutating Unit :=
  editBuf position 1 fun buf => Function.update buf position (edit (buf position))

/-- A number that is drawn again until it is another one, if this happens within so many
rounds. -/
def drawOther (limit other : ℕ) : ℕ → Mutating ℕ
  | 0 => giveUp
  | rounds + 1 => do
      let value ← drawOffset limit
      if value = other then drawOther limit other rounds else pure value

namespace Mutator

variable (M : Mutator)

/-- Bytes read in `splice_buf`. -/
def readSplice (position count : ℕ) : Mutating (List Byte) :=
  attempt (fun _ => position + count ≤ M.spliceBuf.length)
    fun s => (slice M.spliceBuf position count, s)

/-- The smallest and the largest length that `choose_block_len` starts with. -/
def blockRange : Mutating (ℕ × ℕ) := do
  let rlim := if !M.runOver10m then 1 else min M.queueCycle 3
  let size ← drawBelow rlim
  if size = 0 then pure (1, HAVOC_BLK_SMALL)
  else if size = 1 then pure (HAVOC_BLK_SMALL, HAVOC_BLK_MEDIUM)
  else do
    let tenth ← drawBelow 10
    if tenth ≠ 0 then pure (HAVOC_BLK_MEDIUM, HAVOC_BLK_LARGE)
    else pure (HAVOC_BLK_LARGE, HAVOC_BLK_XL)

/-- `choose_block_len`. -/
def chooseBlockLen (limit : ℕ) : Mutating ℕ := do
  let (minValue, maxValue) ← M.blockRange
  let minValue := if limit ≤ minValue then 1 else minValue
  let more ← drawBelow (u32 (u32Sub (min maxValue limit) minValue + 1))
  pure (u32 (minValue + more))

end Mutator

/-! ## Numbers -/

/-- The interesting-value cases for more than one byte: the item is drawn first. -/
def mutSetNumber {w : ℕ} (size : ℕ) (values : List (BitVec w))
    (put : Buffer → ℕ → BitVec w → Buffer) : Mutating StepEnd := do
  let len ← getLen
  if len < size then pure .done
  else do
    let item ← drawBelow values.length
    let position ← drawOffset (u32Sub len (size - 1))
    editBuf position size fun buf => put buf position (values.getD item 0)
    pure .done

/-- The arithmetic cases for more than one byte: the position is drawn first. -/
def mutChangeNumber (size : ℕ) (update : Buffer → ℕ → BitVec 32 → Buffer) :
    Mutating StepEnd := do
  let len ← getLen
  if len < size then pure .done
  else do
    let position ← drawOffset (u32Sub len (size - 1))
    let item ← drawBelow ARITH_MAX
    editBuf position size fun buf => update buf position (BitVec.ofNat 32 (1 + item))
    pure .done

/-- The cases that draw an item, and change a byte by it. -/
def mutChangeByte (items : ℕ) (change : Byte → ℕ → Byte) : Mutating StepEnd := do
  let len ← getLen
  let item ← drawBelow items
  let position ← drawOffset len
  editByte position fun byte => change byte item
  pure .done

/-- `MUT_FLIPBIT`. -/
def mutFlipbit : Mutating StepEnd :=
  mutChangeByte 8 fun byte bit => byte ^^^ ((1 : Byte) <<< bit)

/-- `MUT_INTERESTING8`. -/
def mutInteresting8 : Mutating StepEnd :=
  mutChangeByte interesting8.length fun _ item => interesting8.getD item 0

/-- `MUT_ARITH8_`. -/
def mutArith8_ : Mutating StepEnd :=
  mutChangeByte ARITH_MAX fun byte item => byte - BitVec.ofNat 8 (1 + item)

/-- `MUT_ARITH8`. -/
def mutArith8 : Mutating StepEnd :=
  mutChangeByte ARITH_MAX fun byte item => byte + BitVec.ofNat 8 (1 + item)

/-- `MUT_RAND8`: here the position is drawn first. -/
def mutRand8 : Mutating StepEnd := do
  let len ← getLen
  let position ← drawOffset len
  let item ← drawBelow 255
  editByte position fun byte => byte ^^^ BitVec.ofNat 8 (1 + item)
  pure .done

/-- `MUT_BYTEADD`, `MUT_BYTESUB` and `MUT_FLIP8`. -/
def mutOneByte (change : Byte → Byte) : Mutating StepEnd := do
  let len ← getLen
  let position ← drawOffset len
  editByte position change
  pure .done

/-! ## Blocks -/

/-- A case built in `tmp_buf` and copied back: the head, the block and the tail. -/
def insertBlock (cloneTo : ℕ) (block : List Byte) : Mutating StepEnd := do
  let len ← getLen
  let head ← readBuf 0 cloneTo
  writeTmp 0 head
  writeTmp cloneTo block
  let tail ← readBuf cloneTo (u32Sub len cloneTo)
  writeTmp (cloneTo + block.length) tail
  let len := u32 (len + block.length)
  setLen len
  let data ← readTmp 0 len
  writeBuf 0 data
  pure .done

/-- `clone_to ? clone_to - 1 : 0`. -/
def before (position : ℕ) : ℕ := if position ≠ 0 then position - 1 else 0

/-- The byte of a block of equal bytes: drawn, or the one before the block. -/
def fixedByte (position : ℕ) : Mutating Byte := do
  let strat ← drawBelow 2
  if strat ≠ 0 then do
    let item ← drawBelow 256
    pure (BitVec.ofNat 8 item)
  else do
    let bytes ← readBuf (before position) 1
    pure (bytes.getD 0 0)

/-- What follows where a block would be too long: nothing on a small case. -/
def tooLong (len : ℕ) : Mutating StepEnd := pure (if len < 8 then .done else .retry)

namespace Mutator

variable (M : Mutator)

/-- `MUT_CLONE_COPY`. -/
def mutCloneCopy : Mutating StepEnd := do
  let len ← getLen
  if u32 (len + HAVOC_BLK_XL) < M.maxLen then do
    let cloneLen ← M.chooseBlockLen len
    let cloneFrom ← drawOffset (u32 (u32Sub len cloneLen + 1))
    let cloneTo ← drawOffset len
    let block ← readBuf cloneFrom cloneLen
    insertBlock cloneTo block
  else tooLong len

/-- `MUT_CLONE_FIXED`. -/
def mutCloneFixed : Mutating StepEnd := do
  let len ← getLen
  if u32 (len + HAVOC_BLK_XL) < M.maxLen then do
    let cloneLen ← M.chooseBlockLen HAVOC_BLK_XL
    let cloneTo ← drawOffset len
    let item ← fixedByte cloneTo
    insertBlock cloneTo (List.replicate cloneLen item)
  else tooLong len

/-- `MUT_OVERWRITE_COPY`. -/
def mutOverwriteCopy : Mutating StepEnd := do
  let len ← getLen
  if len < 2 then pure .done
  else do
    let copyLen ← M.chooseBlockLen (u32Sub len 1)
    let copyFrom ← drawOffset (u32 (u32Sub len copyLen + 1))
    let copyTo ← drawOffset (u32 (u32Sub len copyLen + 1))
    if copyFrom ≠ copyTo then do
      let block ← readBuf copyFrom copyLen
      writeBuf copyTo block
      pure .done
    else pure .done

/-- `MUT_OVERWRITE_FIXED`. -/
def mutOverwriteFixed : Mutating StepEnd := do
  let len ← getLen
  if len < 2 then pure .done
  else do
    let copyLen ← M.chooseBlockLen (u32Sub len 1)
    let copyTo ← drawOffset (u32 (u32Sub len copyLen + 1))
    let item ← fixedByte copyTo
    writeBuf copyTo (List.replicate copyLen item)
    pure .done

/-- `MUT_SWITCH`. -/
def mutSwitch (rounds : ℕ) : Mutating StepEnd := do
  let len ← getLen
  if len < 4 then pure .done
  else do
    let switchFrom ← drawOffset len
    let switchTo ← drawOther len switchFrom rounds
    let (switchLen, toEnd) :=
      if switchFrom < switchTo then (u32Sub switchTo switchFrom, u32Sub len switchTo)
      else (u32Sub switchFrom switchTo, u32Sub len switchFrom)
    let switchLen ← M.chooseBlockLen (min switchLen toEnd)
    let backup ← readBuf switchFrom switchLen
    writeTmp 0 backup
    let other ← readBuf switchTo switchLen
    writeBuf switchFrom other
    let backup ← readTmp 0 switchLen
    writeBuf switchTo backup
    pure .done

/-- Deleting a block. -/
def deleteBlock (delLen : ℕ) : Mutating StepEnd := do
  let len ← getLen
  let delFrom ← drawOffset (u32 (u32Sub len delLen + 1))
  let tail ← readBuf (delFrom + delLen) (u32Sub (u32Sub len delFrom) delLen)
  writeBuf delFrom tail
  setLen (u32Sub len delLen)
  pure .done

/-- `MUT_DEL`. -/
def mutDel : Mutating StepEnd := do
  let len ← getLen
  if len < 2 then pure .done
  else do
    let delLen ← M.chooseBlockLen (u32Sub len 1)
    deleteBlock delLen

/-- `MUT_DELONE`. -/
def mutDelone : Mutating StepEnd := do
  let len ← getLen
  if len < 2 then pure .done else deleteBlock 1

/-- The loop of `MUT_SHUFFLE`, from an index down to 1. -/
def shuffleFrom (rounds off : ℕ) : ℕ → Mutating Unit
  | 0 => pure ()
  | i + 1 => do
      let j ← drawOther (i + 1 + 1) (i + 1) rounds
      let temp ← readBuf (off + (i + 1)) 1
      let other ← readBuf (off + j) 1
      writeBuf (off + (i + 1)) other
      writeBuf (off + j) temp
      shuffleFrom rounds off i

/-- `MUT_SHUFFLE`. -/
def mutShuffle (rounds : ℕ) : Mutating StepEnd := do
  let len ← getLen
  if len < 4 then pure .done
  else do
    let blen ← M.chooseBlockLen (u32Sub len 1)
    let off ← drawOffset (u32 (u32Sub len blen + 1))
    shuffleFrom rounds off (u32Sub blen 1)
    pure .done

/-- `MUT_INSERTONE`. -/
def mutInsertone : Mutating StepEnd := do
  let len ← getLen
  if len < 2 then pure .done
  else if M.maxLen < u32 (len + 1) then pure .retry
  else do
    let cloneTo ← drawOffset len
    let item ← fixedByte cloneTo
    insertBlock cloneTo [item]

end Mutator

/-! ## Decimal numbers -/

def INT64_MAX : ℤ := 9223372036854775807

def INT64_MIN : ℤ := -9223372036854775808

/-- The decimal text of a natural number. -/
def decimalNat (n : ℕ) : List Byte :=
  if n = 0 then [48] else (Nat.digits 10 n).reverse.map fun digit => BitVec.ofNat 8 (48 + digit)

/-- The decimal text of a number, as `printf` prints it. -/
def decimal (val : ℤ) : List Byte :=
  if val < 0 then ord '-' :: decimalNat val.natAbs else decimalNat val.natAbs

/-- `sizeof(buf)` where `buf` is a `u8 *`. -/
def SIZEOF_BUF : ℕ := 8

/-- `numbuf` after `snprintf(numbuf, sizeof(buf), "%" PRId64, val)`. -/
def numbuf (val : ℤ) : List Byte := (decimal val).take (SIZEOF_BUF - 1)

/-- The first index from `i` on and below `bound` with or without a digit, or `bound`; at most
`rounds` bytes are passed over. -/
def findDigit (buf : List Byte) (digit : Bool) (bound : ℕ) : ℕ → ℕ → Option ℕ
  | 0, i => some i
  | rounds + 1, i =>
      if i < bound then
        match buf[i]? with
        | none => none
        | some byte =>
            if isDigit byte = digit then some i else findDigit buf digit bound rounds (i + 1)
      else some i

/-- Where the case finds a number from a drawn offset on. -/
inductive NumberPlace where
  | nowhere
  | at (off off2 : ℕ)

/-- The search for a digit, from `off` on and then from the beginning, and for the end of the
number. -/
def findNumber (buf : List Byte) (len off : ℕ) : Option NumberPlace := do
  let first ← findDigit buf true len len off
  if first = len then do
    let first ← findDigit buf true off off 0
    if first = off then some .nowhere
    else do
      let off2 ← findDigit buf false len len (first + 1)
      some (.at first off2)
  else do
    let off2 ← findDigit buf false len len (first + 1)
    some (.at first off2)

/-- The digits from `i` on: the value, and where it would become too large. -/
def parseDigits (buf : List Byte) (off2 : ℕ) : ℕ → ℕ → ℤ → Option (ℤ × ℕ)
  | 0, _, val => some (val, off2)
  | rounds + 1, i, val =>
      if i < off2 then
        match buf[i]? with
        | none => none
        | some byte =>
            let digit : ℤ := (byte - 48).toNat
            if INT64_MAX / 10 < val ∨ INT64_MAX - digit < val * 10 then some (val, i)
            else parseDigits buf off2 rounds (i + 1) (val * 10 + digit)
      else some (val, off2)

/-- The number at a place: its value with the sign before it, and its end. -/
def parseNumber (buf : List Byte) (off off2 : ℕ) : Option (ℤ × ℕ) := do
  let first ← buf[off]?
  let (val, off2) ← parseDigits buf off2 (off2 - (off + 1)) (off + 1) (first - 48).toNat
  if off ≠ 0 then do
    let sign ← buf[off - 1]?
    some (if sign = ord '-' then -val else val, off2)
  else some (val, off2)

/-- A result of signed arithmetic. -/
def s64 (val : ℤ) : Mutating ℤ :=
  attempt (fun _ => INT64_MIN ≤ val ∧ val ≤ INT64_MAX) fun s => (val, s)

/-- `val /= 10; --off2` under a condition. -/
def dropDigit (drops : Bool) (val : ℤ) (off2 : ℕ) : ℤ × ℕ :=
  if drops then (val.tdiv 10, off2 - 1) else (val, off2)

/-- The strategies: the new value, and the end of what it replaces. -/
def newNumber (strat : ℕ) (val : ℤ) (off2 : ℕ) : Mutating (ℤ × ℕ) :=
  match strat with
  | 0 => do
      let (val, off2) := dropDigit (val = INT64_MAX) val off2
      let val ← s64 (val + 1)
      pure (val, off2)
  | 1 => do
      let (val, off2) := dropDigit (val = INT64_MIN) val off2
      let val ← s64 (val - 1)
      pure (val, off2)
  | 2 => do
      let (val, off2) :=
        dropDigit (INT64_MAX.tdiv 2 < val || val < INT64_MIN.tdiv 2) val off2
      let val ← s64 (val * 2)
      pure (val, off2)
  | 3 => pure (val.tdiv 2, off2)
  | 4 =>
      -- A negative value is a large one as a `u64`.
      if 0 < val ∧ val < 0x19999999 then do
        let draw ← randNext
        let val ← s64 ((draw.toNat % (val.toNat * 10) : ℕ) : ℤ)
        pure (val, off2)
      else do
        let draw ← drawBelow 256
        pure ((draw : ℤ), off2)
  | 5 => do
      let (val, off2) := dropDigit (INT64_MAX - 256 < val) val off2
      let draw ← drawBelow 256
      let val ← s64 (val + draw)
      pure (val, off2)
  | 6 => do
      let (val, off2) := dropDigit (val < INT64_MIN + 256) val off2
      let draw ← drawBelow 256
      let val ← s64 (val - draw)
      pure (val, off2)
  | _ => pure (-val - 1, off2)

/-- What a search or a parse in `buf` finds; a read outside is a fault. -/
def lookIn {α : Type} (look : List Byte → Option α) : Mutating α := do
  let found ← attempt (fun s => (look s.buf).isSome) fun s => (look s.buf, s)
  match found with
  | some a => pure a
  | none => giveUp

namespace Mutator

variable (M : Mutator)

/-- A number is replaced by the contents of `numbuf`. -/
def replaceNumber (off off2 : ℕ) (val : ℤ) : Mutating StepEnd := do
  let len ← getLen
  let text := numbuf val
  let oldLen := u32Sub off2 off
  let newLen := text.length
  if oldLen = newLen then do
    writeBuf off text
    pure .done
  else if M.maxLen < u32Sub (u32 (off + newLen + len)) off2 then pure .retry
  else do
    let head ← readBuf 0 off
    writeTmp 0 head
    writeTmp off text
    let tail ← readBuf off2 (u32Sub len off2)
    writeTmp (off + newLen) tail
    let len := u32 (len + u32Sub newLen oldLen)
    setLen len
    let data ← readTmp 0 len
    writeBuf 0 data
    pure .done

/-- `MUT_ASCIINUM`. -/
def mutAsciinum : Mutating StepEnd := do
  let len ← getLen
  if len < 4 then pure .done
  else do
    let off ← drawOffset len
    let place ← lookIn fun buf => findNumber buf len off
    match place with
    | .nowhere => tooLong len
    | .at off off2 => do
        let (val, off2) ← lookIn fun buf => parseNumber buf off off2
        let strat ← drawBelow 8
        let (val, off2) ← newNumber strat val off2
        M.replaceNumber off off2 val

/-- `MUT_INSERTASCIINUM`. -/
def mutInsertasciinum : Mutating StepEnd := do
  let len ← getLen
  let insLen ← (fun draw => 1 + draw) <$> drawBelow 8
  let position ← drawOffset len
  if len < position + insLen then tooLong len
  else do
    let val ← randNext
    let text := decimalNat val.toNat
    let (insLen, off) :=
      if text.length < insLen then (text.length, 0) else (insLen, text.length - insLen)
    writeBuf position (slice text off insLen)
    pure .done

/-! ## Dictionaries and splicing -/

/-- Writing a token over the case. -/
def extraOver (dictionary : List Token) : Mutating StepEnd := do
  let len ← getLen
  if dictionary.length = 0 then pure .retry
  else do
    let useExtra ← drawOffset dictionary.length
    let extra := dictionary.getD useExtra []
    if len < extra.length then pure .retry
    else do
      let insertAt ← drawOffset (u32 (u32Sub len extra.length + 1))
      writeBuf insertAt extra
      pure .done

/-- Inserting a token into the case. -/
def extraInsert (dictionary : List Token) : Mutating StepEnd := do
  let len ← getLen
  if dictionary.length = 0 then pure .retry
  else do
    let useExtra ← drawOffset dictionary.length
    let extra := dictionary.getD useExtra []
    if M.maxLen < u32 (len + extra.length) then pure .retry
    else do
      let insertAt ← drawOffset (u32 (len + 1))
      let tail ← readBuf insertAt (u32Sub len insertAt)
      writeBuf (insertAt + extra.length) tail
      writeBuf insertAt extra
      setLen (u32 (len + extra.length))
      pure .done

/-- `MUT_SPLICE_OVERWRITE`. -/
def mutSpliceOverwrite : Mutating StepEnd := do
  let len ← getLen
  let spliceLen := M.spliceBuf.length
  if spliceLen = 0 then pure .retry
  else do
    let copyLen ← M.chooseBlockLen (u32Sub spliceLen 1)
    let copyLen := if len < copyLen then len else copyLen
    let copyFrom ← drawOffset (u32 (u32Sub spliceLen copyLen + 1))
    let copyTo ← drawOffset (u32 (u32Sub len copyLen + 1))
    let block ← M.readSplice copyFrom copyLen
    writeBuf copyTo block
    pure .done

/-- `MUT_SPLICE_INSERT`. -/
def mutSpliceInsert : Mutating StepEnd := do
  let len ← getLen
  let spliceLen := M.spliceBuf.length
  if spliceLen = 0 then pure .retry
  else if M.maxLen < u32 (len + HAVOC_BLK_XL) then pure .retry
  else do
    let cloneLen ← M.chooseBlockLen spliceLen
    let cloneFrom ← drawOffset (u32 (u32Sub spliceLen cloneLen + 1))
    let cloneTo ← drawOffset (u32 (len + 1))
    let block ← M.readSplice cloneFrom cloneLen
    insertBlock cloneTo block

/-! ## The whole mutator -/

/-- The cases of `afl_mutate`. -/
def mutation (rounds : ℕ) : Mutation → Mutating StepEnd
  | .flipbit => mutFlipbit
  | .interesting8 => mutInteresting8
  | .interesting16 => mutSetNumber 2 AflFuzz.interesting16 insert16
  | .interesting16be => mutSetNumber 2 AflFuzz.interesting16 fun buf position value =>
      insert16 buf position (swap16 value)
  | .interesting32 => mutSetNumber 4 AflFuzz.interesting32 insert32
  | .interesting32be => mutSetNumber 4 AflFuzz.interesting32 fun buf position value =>
      insert32 buf position (swap32 value)
  | .arith8_ => mutArith8_
  | .arith8 => mutArith8
  | .arith16_ => mutChangeNumber 2 fun buf position item =>
      insert16 buf position (((extract16 buf position).setWidth 32 - item).setWidth 16)
  | .arith16be_ => mutChangeNumber 2 fun buf position item =>
      insert16 buf position
        (swap16 (((swap16 (extract16 buf position)).setWidth 32 - item).setWidth 16))
  | .arith16 => mutChangeNumber 2 fun buf position item =>
      insert16 buf position (((extract16 buf position).setWidth 32 + item).setWidth 16)
  | .arith16be => mutChangeNumber 2 fun buf position item =>
      insert16 buf position
        (swap16 (((swap16 (extract16 buf position)).setWidth 32 + item).setWidth 16))
  | .arith32_ => mutChangeNumber 4 fun buf position item =>
      insert32 buf position (extract32 buf position - item)
  | .arith32be_ => mutChangeNumber 4 fun buf position item =>
      insert32 buf position (swap32 (swap32 (extract32 buf position) - item))
  | .arith32 => mutChangeNumber 4 fun buf position item =>
      insert32 buf position (extract32 buf position + item)
  | .arith32be => mutChangeNumber 4 fun buf position item =>
      insert32 buf position (swap32 (swap32 (extract32 buf position + item)))
  | .rand8 => mutRand8
  | .cloneCopy => M.mutCloneCopy
  | .cloneFixed => M.mutCloneFixed
  | .overwriteCopy => M.mutOverwriteCopy
  | .overwriteFixed => M.mutOverwriteFixed
  | .byteadd => mutOneByte fun byte => byte + 1
  | .bytesub => mutOneByte fun byte => byte - 1
  | .flip8 => mutOneByte fun byte => byte ^^^ 0xff
  | .switch => M.mutSwitch rounds
  | .del => M.mutDel
  | .shuffle => M.mutShuffle rounds
  | .delone => mutDelone
  | .insertone => M.mutInsertone
  | .asciinum => M.mutAsciinum
  | .insertasciinum => mutInsertasciinum
  | .extraOverwrite => extraOver M.extras
  | .extraInsert => M.extraInsert M.extras
  | .autoExtraOverwrite => extraOver M.aExtras
  | .autoExtraInsert => M.extraInsert M.aExtras
  | .spliceOverwrite => M.mutSpliceOverwrite
  | .spliceInsert => M.mutSpliceInsert

/-- One step: mutations are drawn until one is done, if this happens within so many rounds. -/
def havocStep (rounds : ℕ) : ℕ → Mutating Unit
  | 0 => giveUp
  | tries + 1 => do
      let r ← drawBelow MUT_STRATEGY_ARRAY_SIZE
      let ended ← M.mutation rounds (M.mutationArray r)
      if ended = .done then pure () else havocStep rounds tries

/-- The loop over the steps. -/
def havocSteps (rounds : ℕ) : ℕ → Mutating Unit
  | 0 => pure ()
  | steps + 1 => do
      M.havocStep rounds rounds
      havocSteps rounds steps

/-- `afl_mutate`. -/
def aflMutate (rounds steps : ℕ) : Mutating ℕ := do
  let len ← getLen
  if len = 0 then pure 0
  else do
    M.havocSteps rounds steps
    getLen

end Mutator

end GreenFuzz.AflFuzz
