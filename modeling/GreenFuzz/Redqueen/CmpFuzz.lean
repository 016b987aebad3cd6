import GreenFuzz.AflFuzz.CheckIfText
import GreenFuzz.AflFuzz.CmpLogKeys
import GreenFuzz.Redqueen.ByteReversal
import GreenFuzz.Redqueen.Colorization

/-!
# Solving the comparisons of a key

`cmp_fuzz` goes through the entries of a key, and for each of them through the tainted positions of
the input. At a position it calls the solvers for both orders of the operands, until one of them
finds something. A pair of operands that an earlier entry had is passed over.

What it has seen of the operands decides what it offers to the dictionary and how often the key is
tried again. Operands that only count up or down are those of a loop.
-/

set_option autoImplicit false

namespace GreenFuzz.Redqueen

open Library AflFuzz CompilerRt

/-! ## What the calls of a stage share -/

/-- The input, the options and the level of a stage, and its taints, the highest one first. -/
structure ItsStage where
  machine : Machine
  enableTransform : Bool
  enableXtremeTransform : Bool
  enableArith : Bool
  enableScale : Bool
  lvl : BitVec 8
  len : ℕ
  origBuf : Buffer
  isAscii : Bool
  taints : List Tainted

/-- The tainted positions from an index on, each with the number of tainted bytes that are left
there. The current taint is the first of the list, and `t->prev` is the next one. -/
def placesFrom : ℕ → ℕ → List Tainted → List (ℕ × ℕ)
  | 0, _, _ => []
  | _ + 1, _, [] => []
  | rounds + 1, idx, t :: later =>
      if idx < t.pos then placesFrom rounds (idx + 1) (t :: later)
      else
        (idx, u32Sub (u32 (t.pos + t.len)) idx) ::
          placesFrom rounds (idx + 1)
            (if idx = u32Pred (u32 (t.pos + t.len)) then later else t :: later)

namespace ItsStage

variable (F : ItsStage)

/-- The positions at which the loop over `idx` does not continue at once. -/
def places : List (ℕ × ℕ) := placesFrom F.len 0 F.taints.reverse

/-- The place of a call. -/
def place (idx taintLen : ℕ) : CmpPlace where
  machine := F.machine
  enableTransform := F.enableTransform
  enableArith := F.enableArith
  enableScale := F.enableScale
  lvl := F.lvl
  idx := idx
  taintLen := taintLen
  len := F.len
  origBuf := F.origBuf

end ItsStage

/-- `*status = 0`. -/
def resetStatus : Its Unit := poke fun s => { s with status := 0 }

/-- One call after the other, until one found something. -/
def untilFound : List (Its Unit) → Its Bool
  | [] => pure false
  | part :: rest => do
      part
      let status ← peek fun s => s.status
      if status = 1 then pure true else untilFound rest

/-! ## The operands of an entry -/

/-- An entry of the log, and the entry of the original run at its place. -/
structure LoggedPair where
  o : CmpOperands
  origO : CmpOperands

/-- `SWAPA`. -/
def swapa (x : BitVec 8) : BitVec 8 := (x &&& 0xf8) + ((x &&& 7) ^^^ 7)

/-- The first operand with its upper half. -/
def wideV0 (o : CmpOperands) : BitVec 128 := o.v0.setWidth 128 + o.v0_128.setWidth 128 <<< 64

/-- The second operand with its upper half. -/
def wideV1 (o : CmpOperands) : BitVec 128 := o.v1.setWidth 128 + o.v1_128.setWidth 128 <<< 64

/-- The operands of the comparison in the other order. -/
def exchange (o : CmpOperands) : CmpOperands := ⟨o.v1, o.v1_128, o.v0, o.v0_128⟩

namespace LoggedPair

variable (p : LoggedPair)

def exchange : LoggedPair := ⟨Redqueen.exchange p.o, Redqueen.exchange p.origO⟩

/-- The arguments with which the second operand replaces the first one. -/
def args (attr : BitVec 8) : CmpArgs 64 := ⟨p.o.v0, p.o.v1, p.origO.v0, p.origO.v1, attr, true⟩

def argsN (attr : BitVec 8) : CmpArgs 128 :=
  ⟨wideV0 p.o, wideV1 p.o, wideV0 p.origO, wideV1 p.origO, attr, true⟩

/-- The first operand is worth a call. -/
def Worthwhile (lvl : BitVec 8) : Prop :=
  (p.o.v0 ≠ p.origO.v0 ∨ LVL3 ≤ lvl) ∧ p.origO.v0 ≠ p.origO.v1

def WorthwhileN : Prop :=
  wideV0 p.o ≠ wideV0 p.origO ∧ wideV0 p.origO ≠ wideV1 p.origO

instance (lvl : BitVec 8) : Decidable (p.Worthwhile lvl) := inferInstanceAs (Decidable (_ ∧ _))

instance : Decidable p.WorthwhileN := inferInstanceAs (Decidable (_ ∧ _))

end LoggedPair

/-! ## The calls at a position -/

/-- A shape that is not that of an integer, `is_n`. -/
def isN (hshape : ℕ) : Bool := !(hshape == 1 || hshape == 2 || hshape == 4 || hshape == 8)

/-- `cmp_extend_encoding` for one order of the operands. Calls are nested four deep at most. -/
def solveOrder (C : CmpPlace) (p : LoggedPair) (attr : BitVec 8) : Its Unit :=
  whenever (p.Worthwhile C.lvl) (cmpExtendEncoding C 4 (p.args attr))

/-- `cmp_extend_encodingN` for one order of the operands. -/
def solveOrderN (C : CmpPlace) (p : LoggedPair) (attr : BitVec 8) : Its Unit :=
  whenever p.WorthwhileN (cmpExtendEncodingN C 4 (p.argsN attr))

/-- The calls at a position. The first operand of the exchanged entry is the second one. -/
def callsAt (C : CmpPlace) (hshape : ℕ) (attr : BitVec 8) (p : LoggedPair) : List (Its Unit) :=
  (if isN hshape then [solveOrderN C p attr, solveOrderN C p.exchange (swapa attr)] else []) ++
    [solveOrder C p attr, do resetStatus; solveOrder C p.exchange (swapa attr)]

/-- The loop over the positions. The result is whether something was found. -/
def solveEntry (F : ItsStage) (hshape : ℕ) (attr : BitVec 8) (p : LoggedPair) :
    List (ℕ × ℕ) → Its Bool
  | [] => pure false
  | (idx, taintLen) :: rest => do
      resetStatus
      let found ← untilFound (callsAt (F.place idx taintLen) hshape attr p)
      if found then pure true else solveEntry F hshape attr p rest

/-! ## What is offered to the dictionary -/

/-- A call of `try_to_add_to_dict` or `try_to_add_to_dictN`. -/
inductive DictOffer where
  | word (v : BitVec 64) (size : ℕ)
  | wordN (v : BitVec 128) (size : ℕ)
  deriving DecidableEq, Repr

/-- `check_if_text_buf`, which scans like `check_if_text`. -/
def checkIfTextBuf (buf : List Byte) : ℕ :=
  (scanText buf).elim 0 fun s => (if s.ascii < s.utf8 then s.utf8 else s.ascii) % 256

/-- All bytes of an operand are those of a text. -/
def isTextOperand (size : ℕ) (v : BitVec 128) : Bool := checkIfTextBuf (operandBytes size v) = size

/-- What is offered after an entry. -/
def offersOf (F : ItsStage) (hshape : ℕ) (p : LoggedPair) (foundOne : Bool) : List DictOffer :=
  if foundOne = false ∨ F.isAscii = true then
    if isN hshape then
      [wideV0 p.o, wideV1 p.o].filterMap fun v =>
        if foundOne = false ∨ isTextOperand hshape v then some (.wordN v hshape) else none
    else
      [(p.o.v0, p.origO.v0), (p.o.v1, p.origO.v1)].filterMap fun v =>
        if v.1.setWidth (8 * hshape) = v.2.setWidth (8 * hshape) ∧
            (foundOne = false ∨ isTextOperand hshape (v.1.setWidth 128)) then
          some (.word v.1 hshape)
        else none
  else []

/-! ## The loop over the entries -/

/-- What the detection of loops has seen: the last operands, and whether they stayed the same or
were counted up or down. -/
structure LoopFlags where
  v0 : BitVec 64
  v1 : BitVec 64
  v0Fixed : Bool := true
  v1Fixed : Bool := true
  v0Inc : Bool := true
  v1Inc : Bool := true
  v0Dec : Bool := true
  v1Dec : Bool := true

namespace LoopFlags

def next (f : LoopFlags) (o : CmpOperands) : LoopFlags where
  v0 := o.v0
  v1 := o.v1
  v0Fixed := f.v0Fixed && f.v0 == o.v0
  v1Fixed := f.v1Fixed && f.v1 == o.v1
  v0Inc := f.v0Inc && f.v0 + 1 == o.v0
  v1Inc := f.v1Inc && f.v1 + 1 == o.v1
  v0Dec := f.v0Dec && f.v0 - 1 == o.v0
  v1Dec := f.v1Dec && f.v1 - 1 == o.v1

/-- One operand stayed the same, and the other one was counted. -/
def counting (f : LoopFlags) : Bool :=
  f.v0Fixed && f.v1Inc || f.v1Fixed && f.v0Inc || f.v0Fixed && f.v1Dec || f.v1Fixed && f.v0Dec

end LoopFlags

/-- More than three entries that look like those of a loop. -/
def isLoop : List LoggedPair → Bool
  | [] => false
  | first :: rest =>
      let seen : LoopFlags := { v0 := first.o.v0, v1 := first.o.v1 }
      3 < rest.length + 1 && (rest.foldl (fun f p => LoopFlags.next f p.o) seen).counting

/-- An earlier entry had the same operands. -/
def HadBefore (earlier : List CmpOperands) (o : CmpOperands) : Prop :=
  ∃ q ∈ earlier, q.v0 = o.v0 ∧ q.v1 = o.v1

instance (earlier : List CmpOperands) (o : CmpOperands) : Decidable (HadBefore earlier o) :=
  inferInstanceAs (Decidable (∃ q ∈ earlier, _))

/-- The loop over the entries, where `earlier` are those before. The result is whether something
was found, and the offers. -/
def solveEntries (F : ItsStage) (hshape : ℕ) (attr : BitVec 8) :
    List CmpOperands → List LoggedPair → Bool → Its (Bool × List DictOffer)
  | _, [], foundOne => pure (foundOne, [])
  | earlier, p :: rest, foundOne =>
      if HadBefore earlier p.o then
        solveEntries F hshape attr (earlier ++ [p.o]) rest foundOne
      else do
        let found ← solveEntry F hshape attr p F.places
        let (foundLater, offers) ←
          solveEntries F hshape attr (earlier ++ [p.o]) rest (foundOne || found)
        pure (foundLater, offersOf F hshape p (foundOne || found) ++ offers)

/-- The statistics of the key afterwards. -/
def passStatAfter (stat : PassStat) (loop foundOne : Bool) : PassStat :=
  let stat : PassStat := if loop then ⟨0xff, 0xff⟩ else stat
  let stat : PassStat :=
    if foundOne = false ∧ stat.faileds < 0xff then { stat with faileds := stat.faileds + 1 }
    else stat
  if stat.total < 0xff then { stat with total := stat.total + 1 } else stat

/-- The entries of a key, and those of the original run. -/
def loggedPairs (map origMap : CmpMap) (key count : ℕ) : List LoggedPair :=
  (List.range count).map fun i => ⟨map.log key i, origMap.log key i⟩

/-- `cmp_fuzz`, with what it offers to the dictionary and the statistics of the key afterwards. -/
def cmpFuzz (F : ItsStage) (map origMap : CmpMap) (key : ℕ) (stat : PassStat) :
    Its (List DictOffer × PassStat) := do
  let h := map.headers key
  poke fun s => { s with hshape := shapeBytes h.shape, status := 0 }
  if shapeBytes h.shape < 2 then pure ([], stat)
  else do
    let pairs := loggedPairs map origMap key (cmpFuzzLoggeds h)
    let (foundOne, offers) ←
      solveEntries F (shapeBytes h.shape) (h.attr.setWidth 8) [] pairs false
    pure (offers, passStatAfter stat (isLoop pairs) foundOne)

end GreenFuzz.Redqueen
