import GreenFuzz.Instrumentation.SplitCompares

/-!
# The floating-point part of the split-compares pass

`simplifyFPCompares` turns `>=` and `<=` into a strict comparison and a test for equality.
`splitFPCompares` replaces a comparison by integer ones: NaNs are looked for first, a negative zero
becomes the positive one, and then the signs, the exponents and the fractions are compared.

All that the second one knows of the type is its size. The other numbers come from the size, so the
two 16 bit types are treated alike.
-/

set_option autoImplicit false

namespace GreenFuzz.Instrumentation

open Library

variable {M : Type}

/-- Whether an instruction is the given comparison. -/
def Instr.isFcmp (cmp : Fcmp) : Instr M → Bool
  | .fcmp found => found = cmp
  | _ => false

/-! ## `>=` and `<=` -/

/-- The predicate without the equality. -/
def strictFcmp : FcmpPredicate → Option FcmpPredicate
  | .uge => some .ugt
  | .oge => some .ogt
  | .ule => some .ult
  | .ole => some .olt
  | _ => none

/-- The strict comparison, and the ordered test for equality where it fails. -/
def fpOrEqualsRegion (new label : ℕ) (cmp : Fcmp) (pred : FcmpPredicate) : Region (Instr M) :=
  eitherRegion new label cmp.dest (.fcmp ⟨new, pred, cmp.type, cmp.op0, cmp.op1⟩)
    (.fcmp ⟨new + 1, .oeq, cmp.type, cmp.op0, cmp.op1⟩)

/-! ## The numbers that come from the size -/

def precision (sizeInBits : ℕ) : ℕ :=
  if sizeInBits = 32 then 24
  else if sizeInBits = 64 then 53
  else if sizeInBits = 128 then 113
  else if sizeInBits = 16 then 11
  else if sizeInBits = 80 then 65
  else sizeInBits - 8

def maskFraction (size : ℕ) : ℕ :=
  let shiftR_exponent := precision size - 1
  1 <<< (shiftR_exponent - 1) ||| (1 <<< (shiftR_exponent - 1) - 1)

def maskExponent (size : ℕ) : ℕ := 1 <<< (size - precision size) - 1

def nanLowend (size : ℕ) : ℕ := maskExponent size <<< precision size

def exTySizeBytes (size : ℕ) : ℕ := (size - precision size + 7) >>> 3

def frTySizeBytes (size : ℕ) : ℕ := (precision size - 1 + 7) >>> 3

def nextPowerOfTwo (n : ℕ) : ℕ :=
  let n := n - 1
  let n := n ||| n >>> 1
  let n := n ||| n >>> 2
  let n := n ||| n >>> 4
  n + 1

/-- The width of `IntExponentTy`. -/
def exponentWidth (size : ℕ) : ℕ := nextPowerOfTwo (exTySizeBytes size) <<< 3

/-- The width of `IntFractionTy`. -/
def fractionTypeWidth (size : ℕ) : ℕ := nextPowerOfTwo (frTySizeBytes size) <<< 3

/-! ## The blocks that take the place of a comparison -/

section Blocks

variable (new : ℕ) (cmp : Fcmp)

/-- The operands as integers, and whether one of them is a NaN. -/
def nanCheck : List (Instr M) :=
  let size := cmp.type.size
  [.cast new size cmp.op0,
    .cast (new + 1) size cmp.op1,
    .binary (new + 2) .shl size (.reg new) (.const 1),
    .icmp ⟨new + 3, .ugt, size, .reg (new + 2), .const (nanLowend size)⟩,
    .binary (new + 4) .shl size (.reg (new + 1)) (.const 1),
    .icmp ⟨new + 5, .ugt, size, .reg (new + 4), .const (nanLowend size)⟩,
    .binary (new + 6) .or 1 (.reg (new + 3)) (.reg (new + 5))]

/-- The operands with one zero only, their sign bits, and whether these are equal. -/
def signCheck : List (Instr M) :=
  let size := cmp.type.size
  [.icmp ⟨new + 7, .eq, size, .reg new, .const (1 <<< (size - 1))⟩,
    .icmp ⟨new + 8, .eq, size, .reg (new + 1), .const (1 <<< (size - 1))⟩,
    .select (new + 9) size (.reg (new + 7)) (.const 0) (.reg new),
    .select (new + 10) size (.reg (new + 8)) (.const 0) (.reg (new + 1)),
    .binary (new + 11) .lshr size (.reg (new + 9)) (.const (size - 1)),
    .cast (new + 12) 1 (.reg (new + 11)),
    .binary (new + 13) .lshr size (.reg (new + 10)) (.const (size - 1)),
    .cast (new + 14) 1 (.reg (new + 13)),
    .icmp ⟨new + 15, .eq, 1, .reg (new + 12), .reg (new + 14)⟩]

/-- Whether the exponents need a mask. -/
def exponentMasked : Bool := cmp.type.size - precision cmp.type.size <
  exTySizeBytes cmp.type.size * 8

def exponents : List (Instr M) :=
  let size := cmp.type.size
  [.binary (new + 16) .lshr size (.reg (new + 9)) (.const (precision size - 1)),
    .binary (new + 17) .lshr size (.reg (new + 10)) (.const (precision size - 1)),
    .cast (new + 18) (exponentWidth size) (.reg (new + 16)),
    .cast (new + 19) (exponentWidth size) (.reg (new + 17))] ++
  if exponentMasked cmp then
    [.binary (new + 20) .and (exponentWidth size) (.reg (new + 18)) (.const (maskExponent size)),
      .binary (new + 21) .and (exponentWidth size) (.reg (new + 19)) (.const (maskExponent size))]
  else []

/-- A comparison of the exponents. -/
def exponentCmp (dest : ℕ) (pred : IcmpPredicate) : Icmp :=
  let size := cmp.type.size
  if exponentMasked cmp then
    ⟨dest, pred, exponentWidth size, .reg (new + 20), .reg (new + 21)⟩
  else ⟨dest, pred, exponentWidth size, .reg (new + 18), .reg (new + 19)⟩

/-- Whether the fractions need a mask. -/
def fractionMasked : Bool :=
  precision cmp.type.size - 1 < frTySizeBytes cmp.type.size * 8

def needTrunc : Bool := fractionTypeWidth cmp.type.size < cmp.type.size

def fractions : List (Instr M) :=
  let size := cmp.type.size
  let width := fractionTypeWidth size
  if fractionMasked cmp then
    [.binary (new + 25) .and size (.reg (new + 9)) (.const (maskFraction size)),
      .binary (new + 26) .and size (.reg (new + 10)) (.const (maskFraction size))] ++
    if needTrunc cmp then
      [.cast (new + 27) width (.reg (new + 25)), .cast (new + 28) width (.reg (new + 26))]
    else []
  else if needTrunc cmp then
    [.cast (new + 27) width (.reg (new + 9)), .cast (new + 28) width (.reg (new + 10))]
  else []

/-- A comparison of the fractions. -/
def fractionCmp (dest : ℕ) (pred : IcmpPredicate) : Icmp :=
  let size := cmp.type.size
  if needTrunc cmp then
    ⟨dest, pred, fractionTypeWidth size, .reg (new + 27), .reg (new + 28)⟩
  else if fractionMasked cmp then ⟨dest, pred, size, .reg (new + 25), .reg (new + 26)⟩
  else ⟨dest, pred, size, .reg (new + 9), .reg (new + 10)⟩

/-- `NaNcmp_result` -/
def nanCmpResult : ℕ :=
  if cmp.pred = .one ∨ cmp.pred = .une then 1 else 0

/-- The transformation for `==` and `!=`. -/
def fpEqualityRegion (label : ℕ) (equal : Bool) : Region (Instr M) where
  front := nanCheck new cmp
  exit := .condBr (.reg (new + 6)) (new + 7) new
  middle :=
    [⟨new, [], signCheck new cmp, .condBr (.reg (new + 15)) (new + 1) (new + 7)⟩,
      ⟨new + 1, [], exponents new cmp ++
          [.icmp (exponentCmp new cmp (new + 22) (if equal then .eq else .ne))],
        if equal then .condBr (.reg (new + 22)) (new + 3) (new + 7)
        else .condBr (.reg (new + 22)) (new + 7) (new + 3)⟩,
      ⟨new + 3, [], fractions new cmp ++
          [.icmp (fractionCmp new cmp (new + 29) (if equal then .eq else .ne))],
        .br (new + 7)⟩]
  bottom := new + 7
  result :=
    if equal then
      ⟨cmp.dest, [(.const 0, new), (.const 0, new + 1), (.reg (new + 29), new + 3),
        (.const (nanCmpResult cmp), label)]⟩
    else
      ⟨cmp.dest, [(.const 1, new), (.reg (new + 22), new + 1), (.reg (new + 29), new + 3),
        (.const (nanCmpResult cmp), label)]⟩

/-- The transformation for `>` and `<`. Fractions of negative numbers are compared the other way
round. -/
def fpOrderRegion (label : ℕ) (greater : Bool) : Region (Instr M) where
  front := nanCheck new cmp
  exit := .condBr (.reg (new + 6)) (new + 7) new
  middle :=
    [⟨new, [], signCheck new cmp, .condBr (.reg (new + 15)) (new + 1) (new + 7)⟩,
      ⟨new + 1, [], exponents new cmp ++ [.icmp (exponentCmp new cmp (new + 22) .eq)],
        .condBr (.reg (new + 22)) (new + 3) (new + 2)⟩,
      ⟨new + 2, [],
        [.icmp (exponentCmp new cmp (new + 23) (if greater then .ugt else .ult)),
          .binary (new + 24) .xor 1 (.reg (new + 23)) (.reg (new + 12))],
        .br (new + 7)⟩,
      ⟨new + 3, [], fractions new cmp, .condBr (.reg (new + 12)) (new + 4) (new + 5)⟩,
      ⟨new + 5, [], [.icmp (fractionCmp new cmp (new + 30) (if greater then .ugt else .ult))],
        .br (new + 6)⟩,
      ⟨new + 4, [], [.icmp (fractionCmp new cmp (new + 29) (if greater then .ult else .ugt))],
        .br (new + 6)⟩,
      ⟨new + 6, [⟨new + 31, [(.reg (new + 29), new + 4), (.reg (new + 30), new + 5)]⟩], [],
        .br (new + 7)⟩]
  bottom := new + 7
  result :=
    ⟨cmp.dest, [(.reg (if greater then new + 14 else new + 12), new), (.reg (new + 24), new + 2),
      (.reg (new + 31), new + 6), (.const (nanCmpResult cmp), label)]⟩

/-- The region for a predicate. `>=` and `<=` have none. -/
def fpRegion (label : ℕ) : Option (Region (Instr M)) :=
  match cmp.pred with
  | .oeq | .ueq => some (fpEqualityRegion new cmp label true)
  | .one | .une => some (fpEqualityRegion new cmp label false)
  | .ogt | .ugt => some (fpOrderRegion new cmp label true)
  | .olt | .ult => some (fpOrderRegion new cmp label false)
  | .oge | .uge | .ole | .ule => none

end Blocks

/-! ## The passes -/

/-- The floating-point comparisons of a list of instructions. -/
def bodyFpComparisons (body : List (Instr M)) : List Fcmp :=
  body.filterMap fun
    | .fcmp cmp => some cmp
    | _ => none

/-- The floating-point comparisons of the program. -/
def fpComparisons (P : Program (Instr M)) : List Fcmp :=
  P.flatMap fun b => bodyFpComparisons b.body

/-- Whether `simplifyFPCompares` takes a comparison. -/
def fpSimplified (cmp : Fcmp) : Bool :=
  (strictFcmp cmp.pred).isSome && isConstantInt cmp.op0 != isConstantInt cmp.op1

def simplifyFPCompare (P : Program (Instr M)) (cmp : Fcmp) : Option (Program (Instr M)) :=
  match strictFcmp cmp.pred with
  | none => some P
  | some pred =>
      (parent P (Instr.isFcmp cmp)).map fun (b, before, after) =>
        P.splice b before after (fpOrEqualsRegion P.bound b.label cmp pred)

/-- `simplifyFPCompares` -/
def simplifyFPCompares (P : Program (Instr M)) : Option (Program (Instr M)) :=
  ((fpComparisons P).filter fpSimplified).foldlM simplifyFPCompare P

/-- Whether `splitFPCompares` replaces a comparison. Types of more than 64 bits are passed over. -/
def fpSplit (cmp : Fcmp) : Bool :=
  (strictFcmp cmp.pred).isNone && cmp.type.size ≤ 64

def splitFPCompare (P : Program (Instr M)) (cmp : Fcmp) : Option (Program (Instr M)) :=
  (parent P (Instr.isFcmp cmp)).bind fun (b, before, after) =>
    (fpRegion P.bound cmp b.label).map fun region => P.splice b before after region

/-- `splitFPCompares` -/
def splitFPCompares (P : Program (Instr M)) : Option (Program (Instr M)) :=
  ((fpComparisons P).filter fpSplit).foldlM splitFPCompare P

/-- The part of `run` that splits floating-point comparisons. -/
def splitFloats (P : Program (Instr M)) : Option (Program (Instr M)) :=
  (simplifyFPCompares P).bind splitFPCompares

end GreenFuzz.Instrumentation
