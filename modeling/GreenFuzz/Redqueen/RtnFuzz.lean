import GreenFuzz.Redqueen.CmpFuzz
import GreenFuzz.Redqueen.RtnExtendEncoding

/-!
# Solving the routines of a key

`rtn_fuzz` goes through the entries of a key and the tainted positions like `cmp_fuzz`. At a
position `rtn_extend_encoding` is called for the first operand, and if that finds nothing for the
second one. No entry is passed over.

A token that is offered to the dictionary may be longer than an operand: the end of a text is looked
for in the rest of the entry.
-/

set_option autoImplicit false

namespace GreenFuzz.Redqueen

open Library AflFuzz CompilerRt

/-! ## The operands of an entry -/

/-- The bytes of an entry. No hook writes `unused`, and the log is cleared before. -/
def entryBytes (o : CmpfnOperands) : Buffer := fun j =>
  if j < 32 then o.v0 j
  else if j < 64 then o.v1 (j - 32)
  else [o.v0Len, o.v1Len, o.addrAttr].getD (j - 64) 0

/-- The entry from the first or from the second operand on. -/
def operandMem (entry : ℕ) (o : CmpfnOperands) : Buffer := fun j => entryBytes o (32 * entry + j)

/-- `strlen`, which stops in `unused` at the latest. -/
def strlenOperand (mem : Buffer) : ℕ := strnlen mem 72

/-- `ADDR_ATTR_V0` or `ADDR_ATTR_V1`. -/
def addrAttrOf (entry : ℕ) (addrAttr : Byte) : Byte := (addrAttr >>> (2 * entry)) &&& 3

def ADDR_ATTR_NOTFOUND : Byte := 0

/-- An entry of the log, and the entry of the original run at its place. -/
structure LoggedRoutine where
  o : CmpfnOperands
  origO : CmpfnOperands

namespace LoggedRoutine

variable (F : ItsStage) (shapeLen : ℕ) (p : LoggedRoutine) (entry : ℕ)

/-- `v0_len` or `v1_len`. -/
def dictLen : ℕ :=
  let mem := operandMem entry p.o
  if (F.isAscii ∨ checkIfTextBuf (bytesFrom mem 0 shapeLen) = shapeLen) ∧ strlenOperand mem ≠ 0 then
    strlenOperand mem
  else shapeLen

/-- What is offered of an operand. -/
def token : Token := bytesFrom (operandMem entry p.o) 0 (p.dictLen F shapeLen entry)

/-- Both runs had the same operand. -/
def SameOperand : Prop :=
  p.token F shapeLen entry = bytesFrom (operandMem entry p.origO) 0 (p.dictLen F shapeLen entry)

/-- In both runs the operand was found in the memory of the program. -/
def Located : Prop :=
  addrAttrOf entry p.o.addrAttr ≠ ADDR_ATTR_NOTFOUND ∧
    addrAttrOf entry p.origO.addrAttr ≠ ADDR_ATTR_NOTFOUND

/-- The operand is offered although it is not a constant of the program. -/
def Offered (foundOne : Bool) : Prop :=
  p.SameOperand F shapeLen entry ∧
    (foundOne = false ∨
      checkIfTextBuf (p.token F shapeLen entry) = p.dictLen F shapeLen entry) ∧
    p.dictLen F shapeLen entry ≠ 32

instance : Decidable (p.SameOperand F shapeLen entry) := inferInstanceAs (Decidable (_ = _))

instance : Decidable (p.Located entry) := inferInstanceAs (Decidable (_ ∧ _))

instance (foundOne : Bool) : Decidable (p.Offered F shapeLen entry foundOne) :=
  inferInstanceAs (Decidable (_ ∧ _))

/-- What is offered after an entry. -/
def offers (foundOne : Bool) : List Token :=
  if (foundOne = false ∧ F.lvl &&& LVL1 ≠ 0) ∨ F.isAscii = true then
    if p.SameOperand F shapeLen 0 ∧ p.Located 0 then [p.token F shapeLen 0]
    else if p.SameOperand F shapeLen 1 ∧ p.Located 1 then [p.token F shapeLen 1]
    else
      [0, 1].filterMap fun entry =>
        if p.Offered F shapeLen entry foundOne then some (p.token F shapeLen entry) else none
  else []

end LoggedRoutine

/-! ## The loops -/

/-- The arguments of a call, where `unset` is what `save` holds before it is written. -/
def ItsStage.rtnCall (F : ItsStage) (unset : Buffer) (p : LoggedRoutine)
    (entry idx taintLen : ℕ) : RtnCall where
  enableTransform := F.enableTransform
  enableXtremeTransform := F.enableXtremeTransform
  entry := entry
  o := p.o
  origO := p.origO
  idx := idx
  taintLen := taintLen
  origBuf := F.origBuf
  len := F.len
  lvl := F.lvl
  unset := unset

/-- The loop over the positions. The result is whether something was found. -/
def solveRoutineAt (F : ItsStage) (unset : ℕ → ℕ → Buffer) (p : LoggedRoutine) :
    List (ℕ × ℕ) → Its Bool
  | [] => pure false
  | (idx, taintLen) :: rest => do
      resetStatus
      let found ← untilFound
        [rtnExtendEncoding (F.rtnCall (unset idx 0) p 0 idx taintLen), do
          resetStatus
          rtnExtendEncoding (F.rtnCall (unset idx 1) p 1 idx taintLen)]
      if found then pure true else solveRoutineAt F unset p rest

/-- The loop over the entries from the one with a number on. The result is whether something was
found, and the offers. -/
def solveRoutines (F : ItsStage) (unset : ℕ → ℕ → ℕ → Buffer) (shapeLen : ℕ) :
    ℕ → List LoggedRoutine → Bool → Its (Bool × List Token)
  | _, [], foundOne => pure (foundOne, [])
  | i, p :: rest, foundOne => do
      let found ← solveRoutineAt F (unset i) p F.places
      let (foundLater, offers) ← solveRoutines F unset shapeLen (i + 1) rest (foundOne || found)
      pure (foundLater, p.offers F shapeLen (foundOne || found) ++ offers)

/-- The entries of a key, and those of the original run. -/
def loggedRoutines (map origMap : CmpMap) (key count : ℕ) : List LoggedRoutine :=
  (List.range count).map fun i => ⟨map.cmpfn key i, origMap.cmpfn key i⟩

/-- `rtn_fuzz`, with what it offers to the dictionary and the statistics of the key afterwards. -/
def rtnFuzz (F : ItsStage) (unset : ℕ → ℕ → ℕ → Buffer) (map origMap : CmpMap) (key : ℕ)
    (stat : PassStat) : Its (List Token × PassStat) := do
  let h := map.headers key
  poke fun s => { s with hshape := shapeBytes h.shape, status := 0 }
  if shapeBytes h.shape < 2 then pure ([], stat)
  else do
    let routines := loggedRoutines map origMap key (rtnFuzzLoggeds h)
    let (foundOne, offers) ← solveRoutines F unset (shapeBytes h.shape) 0 routines false
    pure (offers, passStatAfter stat false foundOne)

end GreenFuzz.Redqueen
