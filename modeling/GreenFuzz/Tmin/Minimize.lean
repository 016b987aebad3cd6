import GreenFuzz.Library.ByteWords
import GreenFuzz.Library.Runs
import Mathlib.Data.Int.Basic

/-!
# The minimisation loop of `afl-tmin`

`minimize` shrinks an input as long as `tmin_run_target` accepts the result. It
overwrites blocks by the character `0` once and then repeats passes of three
stages: it deletes blocks of halving lengths, replaces all occurrences of one
byte value, and replaces single bytes. It ends with a pass that changes nothing.

The loops are one step function. A step is one round of the innermost loop, so it
runs the target at most once, and `in_data` between two steps is what a user who
aborts the program gets. There are no custom mutators. The counters that are only
printed are left out.
-/

set_option autoImplicit false

namespace GreenFuzz.Tmin

open Library

/-! ## Constants and arithmetic -/

def TMIN_MAX_FILE : ℕ := 10 * 1024 * 1024

def TMIN_SET_MIN_SIZE : ℕ := 4

def TMIN_SET_STEPS : ℕ := 128

def TRIM_START_STEPS : ℕ := 16

/-- The default of the option `-l`. -/
def delLenLimit : ℕ := 1

/-- The character `0`. -/
def ZERO : Byte := 48

/-- Conversion to `u32`. -/
def u32 (n : ℕ) : ℕ := n % 4294967296

/-- Conversion to `s32`. -/
def s32 (n : ℤ) : ℤ := Int.bmod n 4294967296

/-- `next_pow2`, which gives zero for zero. -/
def nextPow2 (n : BitVec 64) : BitVec 64 :=
  let out := n - 1
  let out := out ||| (out >>> 1)
  let out := out ||| (out >>> 2)
  let out := out ||| (out >>> 4)
  let out := out ||| (out >>> 8)
  let out := out ||| (out >>> 16)
  out + 1

/-! ## Whether a run is accepted -/

inductive FsrvRunResult where
  | ok | tmout | crash | error | noinst | nobits
  deriving DecidableEq

/-- What a run of the target gives: its result, and the checksum of the classified and
masked trace. -/
structure Run where
  ret : FsrvRunResult
  cksum : BitVec 64

/-- The modes that decide which runs are accepted. -/
structure Modes where
  hangMode : Bool
  exactMode : Bool
  crashMode : Bool
  origCksum : BitVec 64

/-- `tmin_run_target` after the run; nothing where it calls `FATAL`. -/
def tminRunTarget (modes : Modes) (run : Run) (firstRun : Bool) : Option (Bool × Modes) :=
  if run.ret = .error then none
  else if modes.hangMode then some (run.ret = .tmout, modes)
  else if run.ret = .tmout then some (false, modes)
  else
    let modes :=
      if run.ret = .crash ∧ firstRun then { modes with crashMode := true } else modes
    if run.ret = .crash ∧ modes.crashMode ∧ ¬ modes.exactMode then some (true, modes)
    else if decide (run.ret = .crash) ≠ modes.crashMode then some (false, modes)
    else if run.ret = .noinst then none
    else
      let modes := if firstRun then { modes with origCksum := run.cksum } else modes
      some (modes.origCksum = run.cksum, modes)

/-! ## The stages -/

/-- Where `minimize` is. -/
inductive Stage where
  /-- Block normalization. -/
  | normalize (setLen setPos : ℕ)
  /-- Block deletion. -/
  | delete (delLen delPos : ℕ) (prevDel : Bool)
  /-- Alphabet minimization. -/
  | alphabet (alphaMap : Byte → ℕ) (i : ℕ)
  /-- Character minimization. -/
  | character (tmpBuf : List Byte) (i : ℕ)
  | finalizeAll

/-- The variables of `minimize`. -/
structure MinimizeState where
  inData : List Byte
  changedAny : Bool
  curPass : ℕ
  stage : Stage

namespace MinimizeState

def inLen (s : MinimizeState) : ℕ := s.inData.length

/-- The label `next_del_blksize`. -/
def nextDelBlksize (s : MinimizeState) (delLen : ℕ) : MinimizeState :=
  { s with stage := .delete (if delLen = 0 then 1 else delLen) 0 true }

/-- The label `next_pass`. -/
def nextPass (s : MinimizeState) : MinimizeState :=
  { s with curPass := s.curPass + 1, changedAny := false }.nextDelBlksize
    (u32 (nextPow2 (BitVec.ofNat 64 (s.inLen / TRIM_START_STEPS))).toNat)

end MinimizeState

/-- The state in which `minimize` enters its first stage, or skips all of them. -/
def minimizeStart (inData : List Byte) : MinimizeState :=
  let setLen := u32 (nextPow2 (BitVec.ofNat 64 (inData.length / TMIN_SET_STEPS))).toNat
  { inData, changedAny := false, curPass := 0,
    stage :=
      if inData.length ≤ 1 then .finalizeAll
      else .normalize (if setLen < TMIN_SET_MIN_SIZE then TMIN_SET_MIN_SIZE else setLen) 0 }

/-- `memset` of a part of a buffer to the character `0`. -/
def setZeros (data : List Byte) (pos len : ℕ) : List Byte :=
  data.take pos ++ List.replicate len ZERO ++ data.drop (pos + len)

section Steps

variable (accepts : List Byte → Bool) (s : MinimizeState)

/-- One block of the normalization. -/
def normalizeStep (setLen setPos : ℕ) : MinimizeState :=
  if setPos < s.inLen then
    let useLen := min setLen (s.inLen - setPos)
    let next := Stage.normalize setLen (u32 (setPos + setLen))
    if ((s.inData.drop setPos).take useLen).all (· == ZERO) then { s with stage := next }
    else
      let tmpBuf := setZeros s.inData setPos useLen
      if accepts tmpBuf then { s with inData := tmpBuf, stage := next }
      else { s with stage := next }
  else s.nextPass

/-- One block of the deletion. A block that equals the one that was just kept is skipped. -/
def deleteStep (delLen delPos : ℕ) (prevDel : Bool) : MinimizeState :=
  if delPos < s.inLen then
    let tailLen := (s32 ((s.inLen : ℤ) - delPos - delLen)).toNat
    if ¬ prevDel ∧ tailLen ≠ 0 ∧
        (s.inData.drop (delPos - delLen)).take delLen = (s.inData.drop delPos).take delLen then
      { s with stage := .delete delLen (u32 (delPos + delLen)) prevDel }
    else
      let tmpBuf := s.inData.take delPos ++ (s.inData.drop (delPos + delLen)).take tailLen
      if accepts tmpBuf then
        { s with inData := tmpBuf, changedAny := true, stage := .delete delLen delPos true }
      else { s with stage := .delete delLen (u32 (delPos + delLen)) false }
  else if delLenLimit < delLen ∧ 1 ≤ s.inLen then s.nextDelBlksize (delLen / 2)
  else if 1 < s.curPass ∧ ¬ s.changedAny then { s with stage := .finalizeAll }
  else { s with stage := .alphabet (fun symbol => s.inData.count symbol) 0 }

/-- One byte value of the alphabet. -/
def alphabetStep (alphaMap : Byte → ℕ) (i : ℕ) : MinimizeState :=
  if i < 256 then
    let symbol : Byte := BitVec.ofNat 8 i
    let next := Stage.alphabet alphaMap (i + 1)
    if symbol = ZERO ∨ alphaMap symbol = 0 then { s with stage := next }
    else
      let tmpBuf := s.inData.map fun byte => if byte = symbol then ZERO else byte
      if accepts tmpBuf then { s with inData := tmpBuf, changedAny := true, stage := next }
      else { s with stage := next }
  else { s with stage := .character s.inData 0 }

/-- One character. -/
def characterStep (tmpBuf : List Byte) (i : ℕ) : MinimizeState :=
  if i < s.inLen then
    let orig := tmpBuf.getD i 0
    if orig = ZERO then { s with stage := .character tmpBuf (i + 1) }
    else
      let tmpBuf := tmpBuf.set i ZERO
      if accepts tmpBuf then
        { s with inData := s.inData.set i ZERO, changedAny := true,
                 stage := .character tmpBuf (i + 1) }
      else { s with stage := .character (tmpBuf.set i orig) (i + 1) }
  else if s.changedAny then s.nextPass
  else { s with stage := .finalizeAll }

/-- One round of the innermost loop of `minimize`; nothing at its end. -/
def minimizeStep : Option MinimizeState :=
  match s.stage with
  | .normalize setLen setPos => some (normalizeStep accepts s setLen setPos)
  | .delete delLen delPos prevDel => some (deleteStep accepts s delLen delPos prevDel)
  | .alphabet alphaMap i => some (alphabetStep accepts s alphaMap i)
  | .character tmpBuf i => some (characterStep accepts s tmpBuf i)
  | .finalizeAll => none

end Steps

/-- The runs of `minimize` on an input. -/
def minimize (accepts : List Byte → Bool) (inData : List Byte) :
    TransitionSystem MinimizeState where
  init s := s = minimizeStart inData
  step s t := minimizeStep accepts s = some t

end GreenFuzz.Tmin
