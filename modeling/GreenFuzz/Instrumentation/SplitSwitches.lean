import GreenFuzz.Instrumentation.LlvmInstr
import GreenFuzz.Library.SsaRouting
import Mathlib.Data.List.Dedup
import Mathlib.Data.List.Sort

/-!
# The split-switches pass

`splitSwitches` replaces a switch by a tree of blocks that look at one byte of the value each. A
block tests the byte where all cases that are left have the same one, and compares it with a pivot
where they do not. The successors, which had an entry of the switch block in their phi nodes for
each case, give one of these to each leaf of the tree.

The new blocks are put after the others, and are numbered in the order in which the pass creates
them. The pass puts `NewDefault` before `Default`: a run finds blocks by their labels, and only the
place of the first block matters. A step yields nothing where an assertion of the pass fails.
-/

set_option autoImplicit false

namespace GreenFuzz.Instrumentation

open Library

variable {M : Type}

/-- A byte of a value. -/
def byteAt (value i : ℕ) : ℕ := value >>> (i * 8) &&& 0xFF

/-- `byteSets[i]`, in ascending order. A case is its value and its block. -/
def byteSet (Cases : List (ℕ × ℕ)) (i : ℕ) : List ℕ :=
  ((Cases.map fun case => byteAt case.1 i).dedup).insertionSort (· ≤ ·)

/-- `smallestIndex` and `smallestSize`: the first position with fewest bytes among those that were
not checked. -/
def smallest (Cases : List (ℕ × ℕ)) (bytesChecked : List Bool) : ℕ × ℕ :=
  (List.range bytesChecked.length).foldl (fun best i =>
    if bytesChecked.getD i true then best
    else if (byteSet Cases i).length < best.2 then (i, (byteSet Cases i).length) else best) (0, 257)

/-- The blocks of the program with the phi nodes of one of them changed, for every phi node in its
first entry only. -/
def renamePhis (P : Program (Instr M)) (target OrigBlock NewNode : ℕ) : Program (Instr M) :=
  P.map fun block => if block.label = target
    then { block with phis := block.phis.map (Phi.renameFirst OrigBlock NewNode) } else block

/-- A block that looks at one byte. -/
def nodeBlock (NewNode ValTypeBitWidth : ℕ) (Val : Operand) (index : ℕ) (pred : IcmpPredicate)
    (byte onTrue onFalse : ℕ) : Block (Instr M) where
  label := NewNode
  phis := []
  body :=
    .binary NewNode .lshr ValTypeBitWidth Val (.const (index * 8)) ::
      ((if 8 < ValTypeBitWidth then [.cast (NewNode + 1) 8 (.reg NewNode)] else []) ++
        [.icmp ⟨NewNode + 2, pred, 8,
          .reg (if 8 < ValTypeBitWidth then NewNode + 1 else NewNode), .const byte⟩])
  term := .condBr (.reg (NewNode + 2)) onTrue onFalse

/-- What a conversion leaves: the next number for a block, the program with changed phi nodes, and
the blocks it created, in their order. -/
structure Conversion (M : Type) where
  next : ℕ
  program : Program (Instr M)
  nodes : List (Block (Instr M))

/-- `switchConvert`. The block that it returns has the number `NewNode`. -/
def switchConvert (OrigBlock NewDefault ValTypeBitWidth : ℕ) (Val : Operand) :
    ℕ → List (ℕ × ℕ) → List Bool → ℕ → Program (Instr M) → Option (Conversion M)
  | 0, _, _, _, _ => none
  | fuel + 1, Cases, bytesChecked, NewNode, P =>
      let smallestIndex := (smallest Cases bytesChecked).1
      let smallestSize := (smallest Cases bytesChecked).2
      if bytesChecked.getD smallestIndex true then none
      else if smallestSize = 1 then
        let byte := (byteSet Cases smallestIndex).headD 0
        let bytesChecked := bytesChecked.set smallestIndex true
        if bytesChecked.all id then
          match Cases with
          | [case] =>
              let node := nodeBlock NewNode ValTypeBitWidth Val smallestIndex .eq byte case.2
                NewDefault
              some ⟨NewNode + 3, renamePhis P case.2 OrigBlock NewNode, [node]⟩
          | _ => none
        else
          (switchConvert OrigBlock NewDefault ValTypeBitWidth Val fuel Cases bytesChecked
              (NewNode + 3) P).map fun converted =>
            let node := nodeBlock NewNode ValTypeBitWidth Val smallestIndex .eq byte (NewNode + 3)
              NewDefault
            { converted with nodes := node :: converted.nodes }
      else
        let pivot := (byteSet Cases smallestIndex).getD (smallestSize / 2) 0
        let LHSCases := Cases.filter fun case => byteAt case.1 smallestIndex < pivot
        let RHSCases := Cases.filter fun case => ¬ byteAt case.1 smallestIndex < pivot
        (switchConvert OrigBlock NewDefault ValTypeBitWidth Val fuel LHSCases bytesChecked
            (NewNode + 3) P).bind fun left =>
          (switchConvert OrigBlock NewDefault ValTypeBitWidth Val fuel RHSCases bytesChecked
              left.next left.program).map fun right =>
            let node := nodeBlock NewNode ValTypeBitWidth Val smallestIndex .ult pivot (NewNode + 3)
              left.next
            { right with nodes := node :: (left.nodes ++ right.nodes) }

/-- A switch that the pass passes over: it has one case only, or a width without whole bytes, or
more than eight of them. -/
def switchSkipped (cases : List (ℕ × ℕ)) (bitw : ℕ) : Bool :=
  cases.length < 2 ∨ bitw % 8 ≠ 0 ∨ 64 < bitw

/-- The part of `splitSwitches` for one switch. -/
def splitSwitch (P : Program (Instr M)) (OrigBlock : ℕ) : Option (Program (Instr M)) :=
  match (P.block OrigBlock).map Block.term with
  | some (.switch bitw Val Default cases) =>
      if switchSkipped cases bitw then some P
      else
        let NewDefault := P.bound
        let SwitchBlock := NewDefault + 1
        let Cases := cases.map fun case => (case.1 % 2 ^ bitw, case.2)
        let bytesChecked := List.replicate ((7 + bitw) / 8) false
        (switchConvert OrigBlock NewDefault bitw Val (Cases.length + bytesChecked.length) Cases
            bytesChecked SwitchBlock P).map fun converted =>
          renamePhis
              (converted.program.map fun block =>
                if block.label = OrigBlock then { block with term := .br SwitchBlock } else block)
              Default OrigBlock NewDefault ++
            ⟨NewDefault, [], [], .br Default⟩ :: converted.nodes
  | _ => some P

/-- The blocks that end with a switch. -/
def switches (P : Program (Instr M)) : List ℕ :=
  (P.filter fun block => match block.term with
    | .switch _ _ _ cases => 1 ≤ cases.length
    | _ => false).map Block.label

/-- `splitSwitches` -/
def splitSwitches (P : Program (Instr M)) : Option (Program (Instr M)) :=
  (switches P).foldlM splitSwitch P

end GreenFuzz.Instrumentation
