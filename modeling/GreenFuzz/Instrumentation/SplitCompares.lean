import GreenFuzz.Instrumentation.LlvmInstr
import GreenFuzz.Library.SsaExpansion

/-!
# The split-compares pass

`simplifyAndSplit` takes one integer comparison. It turns `>=` and `<=` into a strict comparison and
a test for equality, and a signed comparison into a comparison of the sign bits and an unsigned one.
What these steps put on the worklist is split into comparisons of the halves, until the comparisons
have the target width.

A comparison on the worklist is known by what it is, and its block is searched for. New registers
and labels are numbers above all that the program mentions. A step yields nothing where the pass
crashes: on a type of no bits, and where `splitCompare` gets a predicate it has no code for.
-/

set_option autoImplicit false

namespace GreenFuzz.Instrumentation

open Library

variable {M : Type}

/-- Whether an instruction is the given comparison. -/
def Instr.isIcmp (cmp : Icmp) : Instr M → Bool
  | .icmp found => found = cmp
  | _ => false

/-- The program and the worklist, the last entry first. -/
structure Splitting (M : Type) where
  program : Program (Instr M)
  worklist : List Icmp

/-- The predicate without the equality. -/
def strictPredicate : IcmpPredicate → Option IcmpPredicate
  | .uge => some .ugt
  | .sge => some .sgt
  | .ule => some .ult
  | .sle => some .slt
  | _ => none

/-- The unsigned predicate for values of one sign. Only `sgt` and `slt` get here. -/
def unsignedPredicate : IcmpPredicate → IcmpPredicate
  | .sgt => .ugt
  | _ => .ult

def inversePredicate : IcmpPredicate → Option IcmpPredicate
  | .ugt => some .ult
  | .ult => some .ugt
  | _ => none

/-! ## The blocks that take the place of a comparison -/

/-- A comparison, and another one where it fails. -/
def eitherRegion (new label dest : ℕ) (first second : Instr M) : Region (Instr M) where
  front := [first]
  exit := .condBr (.reg new) (new + 1) new
  middle := [⟨new, [], [second], .br (new + 1)⟩]
  bottom := new + 1
  result := ⟨dest, [(.reg (new + 1), new), (.const 1, label)]⟩

/-- The strict comparison, and the test for equality where it fails. -/
def orEqualsRegion (new label : ℕ) (cmp : Icmp) (pred : IcmpPredicate) : Region (Instr M) :=
  eitherRegion new label cmp.dest (.icmp ⟨new, pred, cmp.width, cmp.op0, cmp.op1⟩)
    (.icmp ⟨new + 1, .eq, cmp.width, cmp.op0, cmp.op1⟩)

/-- The sign bits, an unsigned comparison where they are equal, and a comparison of the bits where
they differ. -/
def signedRegion (new : ℕ) (cmp : Icmp) : Region (Instr M) where
  front :=
    [.binary new .lshr cmp.width cmp.op0 (.const (cmp.width - 1)),
      .cast (new + 1) 1 (.reg new),
      .binary (new + 2) .lshr cmp.width cmp.op1 (.const (cmp.width - 1)),
      .cast (new + 3) 1 (.reg (new + 2)),
      .icmp ⟨new + 4, .eq, 1, .reg (new + 1), .reg (new + 3)⟩]
  exit := .condBr (.reg (new + 4)) (new + 1) new
  middle :=
    [⟨new, [], [.icmp ⟨new + 5, if cmp.pred = .sgt then .ult else .ugt, 1,
        .reg (new + 1), .reg (new + 3)⟩], .br (new + 2)⟩,
      ⟨new + 1, [], [.icmp ⟨new + 6, unsignedPredicate cmp.pred, cmp.width, cmp.op0, cmp.op1⟩],
        .br (new + 2)⟩]
  bottom := new + 2
  result := ⟨cmp.dest, [(.reg (new + 6), new + 1), (.reg (new + 5), new)]⟩

/-- The upper halves of the operands. -/
def highHalves (new : ℕ) (cmp : Icmp) : List (Instr M) :=
  [.binary new .lshr cmp.width cmp.op0 (.const (cmp.width / 2)),
    .cast (new + 1) (cmp.width / 2) (.reg new),
    .binary (new + 2) .lshr cmp.width cmp.op1 (.const (cmp.width / 2)),
    .cast (new + 3) (cmp.width / 2) (.reg (new + 2))]

/-- The lower halves of the operands. -/
def lowHalves (new : ℕ) (cmp : Icmp) : List (Instr M) :=
  [.cast (new + 5) (cmp.width / 2) cmp.op0, .cast (new + 6) (cmp.width / 2) cmp.op1]

def icmpHigh (new : ℕ) (cmp : Icmp) : Icmp :=
  ⟨new + 4, cmp.pred, cmp.width / 2, .reg (new + 1), .reg (new + 3)⟩

def icmpLow (new : ℕ) (cmp : Icmp) : Icmp :=
  ⟨new + 7, cmp.pred, cmp.width / 2, .reg (new + 5), .reg (new + 6)⟩

def icmpInv (new : ℕ) (cmp : Icmp) (pred : IcmpPredicate) : Icmp :=
  ⟨new + 8, pred, cmp.width / 2, .reg (new + 1), .reg (new + 3)⟩

/-- The transformation for `==` and `!=`: the lower halves decide where the upper ones do not. -/
def equalityRegion (new label : ℕ) (cmp : Icmp) : Region (Instr M) where
  front := highHalves new cmp ++ [.icmp (icmpHigh new cmp)]
  exit :=
    if cmp.pred = .eq then .condBr (.reg (new + 4)) new (new + 1)
    else .condBr (.reg (new + 4)) (new + 1) new
  middle := [⟨new, [], lowHalves new cmp ++ [.icmp (icmpLow new cmp)], .br (new + 1)⟩]
  bottom := new + 1
  result := ⟨cmp.dest, [(.reg (new + 7), new), (.const (if cmp.pred = .eq then 0 else 1), label)]⟩

/-- The transformation for `<` and `>`: where the upper halves do not satisfy the predicate, they
are compared the other way round, and where they do not satisfy that either, the lower halves
decide. -/
def orderRegion (new label : ℕ) (cmp : Icmp) (inverse : IcmpPredicate) : Region (Instr M) where
  front := highHalves new cmp ++ [.icmp (icmpHigh new cmp)]
  exit := .condBr (.reg (new + 4)) (new + 2) new
  middle :=
    [⟨new, [], [.icmp (icmpInv new cmp inverse)], .condBr (.reg (new + 8)) (new + 2) (new + 1)⟩,
      ⟨new + 1, [], lowHalves new cmp ++ [.icmp (icmpLow new cmp)], .br (new + 2)⟩]
  bottom := new + 2
  result := ⟨cmp.dest, [(.reg (new + 7), new + 1), (.const 1, label), (.const 0, new)]⟩

/-! ## The steps of the pass -/

/-- `simplifySignedCompare` -/
def simplifySignedCompare (cmp : Icmp) (s : Splitting M) : Option (Splitting M) :=
  let new := s.program.bound
  (parent s.program (Instr.isIcmp cmp)).map fun (b, before, after) =>
    { program := s.program.splice b before after (signedRegion new cmp)
      worklist := ⟨new + 6, unsignedPredicate cmp.pred, cmp.width, cmp.op0, cmp.op1⟩ ::
        s.worklist }

/-- `simplifyOrEqualsCompare`. The unsigned strict comparison is not put on the worklist. -/
def simplifyOrEqualsCompare (cmp : Icmp) (s : Splitting M) : Option (Splitting M) :=
  let new := s.program.bound
  match strictPredicate cmp.pred with
  | none => some s
  | some pred =>
      (parent s.program (Instr.isIcmp cmp)).bind fun (b, before, after) =>
        let strict : Icmp := ⟨new, pred, cmp.width, cmp.op0, cmp.op1⟩
        let split : Splitting M :=
          { s with
            program := s.program.splice b before after (orEqualsRegion new b.label cmp pred) }
        let simplified :=
          if pred = .sgt ∨ pred = .slt then simplifySignedCompare strict split else some split
        simplified.map fun s =>
          { s with worklist := ⟨new + 1, .eq, cmp.width, cmp.op0, cmp.op1⟩ :: s.worklist }

/-- `splitCompare` -/
def splitCompare (target : ℕ) (cmp : Icmp) (s : Splitting M) : Option (Splitting M) :=
  let new := s.program.bound
  if cmp.width = target then some s
  else if cmp.width / 2 = 0 then none
  else
    (parent s.program (Instr.isIcmp cmp)).bind fun (b, before, after) =>
      let halves := if target < cmp.width / 2 then [icmpLow new cmp, icmpHigh new cmp] else []
      if cmp.pred = .eq ∨ cmp.pred = .ne then
        some { program := s.program.splice b before after (equalityRegion new b.label cmp)
               worklist := halves ++ s.worklist }
      else
        (inversePredicate cmp.pred).map fun inverse =>
          { program := s.program.splice b before after (orderRegion new b.label cmp inverse)
            worklist := halves ++ icmpInv new cmp inverse :: s.worklist }

/-- A bound for the rounds that the comparisons on the worklist can take. -/
def rounds : List Icmp → ℕ
  | [] => 0
  | cmp :: rest => 3 * cmp.width ^ 2 + 1 + rounds rest

/-- The loop that empties the worklist. -/
def splitLoop (target bitw : ℕ) : ℕ → Splitting M → Option (Program (Instr M))
  | 0, s => if s.worklist = [] then some s.program else none
  | fuel + 1, s =>
      match s.worklist with
      | [] => some s.program
      | cmp :: rest =>
          if target < bitw then
            (splitCompare target cmp ⟨s.program, rest⟩).bind (splitLoop target bitw fuel)
          else splitLoop target bitw fuel ⟨s.program, rest⟩

/-- What `simplifyAndSplit` does before its loop. -/
def simplify (cmp : Icmp) (P : Program (Instr M)) : Option (Splitting M) :=
  if cmp.pred = .uge ∨ cmp.pred = .sge ∨ cmp.pred = .ule ∨ cmp.pred = .sle then
    simplifyOrEqualsCompare cmp ⟨P, []⟩
  else if cmp.pred = .sgt ∨ cmp.pred = .slt then simplifySignedCompare cmp ⟨P, []⟩
  else some ⟨P, []⟩

/-- `simplifyAndSplit` -/
def simplifyAndSplit (target : ℕ) (cmp : Icmp) (P : Program (Instr M)) :
    Option (Program (Instr M)) :=
  (simplify cmp P).bind fun s =>
    let worklist := if s.worklist = [] then [cmp] else s.worklist
    splitLoop target cmp.width (rounds worklist) { s with worklist }

/-- `isSupportedBitWidth` -/
def isSupportedBitWidth (bitw : ℕ) : Bool :=
  bitw ∈ [8, 16, 32, 64, 128, 256]

def isConstantInt : Operand → Bool
  | .const _ => true
  | .reg _ => false

/-- Whether `run` takes a comparison: it has one constant and one variable, and a width it knows. -/
def selected (cmp : Icmp) : Bool :=
  isConstantInt cmp.op0 != isConstantInt cmp.op1 && isSupportedBitWidth cmp.width

/-- The integer comparisons of a list of instructions. -/
def bodyComparisons (body : List (Instr M)) : List Icmp :=
  body.filterMap fun
    | .icmp cmp => some cmp
    | _ => none

/-- The integer comparisons of the program. -/
def comparisons (P : Program (Instr M)) : List Icmp :=
  P.flatMap fun b => bodyComparisons b.body

/-- The part of `run` that splits integer comparisons. -/
def splitIntegers (target : ℕ) (P : Program (Instr M)) : Option (Program (Instr M)) :=
  ((comparisons P).filter selected).foldlM (fun P cmp => simplifyAndSplit target cmp P) P

end GreenFuzz.Instrumentation
