import GreenFuzz.Library.FloatFormats
import GreenFuzz.Library.SsaPrograms

/-!
# The instructions the passes read and build

The laf-intel passes look for comparisons and put integer instructions in their place. The program
they work on has any other instructions as well, which stand here as one constructor with the
operands it reads and any effect on the memory.

A value is read with the width of the instruction that reads it, so a register of a wider type
stands for its low bits. A constant operand is a number: constant expressions, `undef` and poison
are left out.
-/

set_option autoImplicit false

namespace GreenFuzz.Instrumentation

open Library

/-- `CmpInst::ICMP_*` -/
inductive IcmpPredicate where
  | eq | ne | ugt | uge | ult | ule | sgt | sge | slt | sle
  deriving DecidableEq, Repr

/-- `CmpInst::FCMP_*`. The first letter tells whether the comparison is ordered, that is, false
where an operand is a NaN, or unordered, that is, true there. -/
inductive FcmpPredicate where
  | oeq | ueq | one | une | ogt | ugt | oge | uge | olt | ult | ole | ule
  deriving DecidableEq, Repr

/-- A value of a width in two's complement. -/
def signedValue (width a : ℕ) : ℤ := (BitVec.ofNat width a).toInt

/-- `icmp` on integers of a width. -/
def IcmpPredicate.holds (pred : IcmpPredicate) (width a b : ℕ) : Bool :=
  match pred with
  | .eq => a % 2 ^ width = b % 2 ^ width
  | .ne => a % 2 ^ width ≠ b % 2 ^ width
  | .ugt => b % 2 ^ width < a % 2 ^ width
  | .uge => b % 2 ^ width ≤ a % 2 ^ width
  | .ult => a % 2 ^ width < b % 2 ^ width
  | .ule => a % 2 ^ width ≤ b % 2 ^ width
  | .sgt => signedValue width b < signedValue width a
  | .sge => signedValue width b ≤ signedValue width a
  | .slt => signedValue width a < signedValue width b
  | .sle => signedValue width a ≤ signedValue width b

/-- `fcmp` on bit patterns of a format. -/
def FcmpPredicate.holds (pred : FcmpPredicate) (format : FloatFormat) (a b : ℕ) : Bool :=
  match format.decode a, format.decode b with
  | some x, some y =>
      match pred with
      | .oeq | .ueq => x = y
      | .one | .une => x ≠ y
      | .ogt | .ugt => y < x
      | .oge | .uge => y ≤ x
      | .olt | .ult => x < y
      | .ole | .ule => x ≤ y
  | _, _ =>
      match pred with
      | .oeq | .one | .ogt | .oge | .olt | .ole => false
      | .ueq | .une | .ugt | .uge | .ult | .ule => true

/-- An integer comparison. -/
structure Icmp where
  dest : ℕ
  pred : IcmpPredicate
  width : ℕ
  op0 : Operand
  op1 : Operand
  deriving DecidableEq, Repr

/-- The floating-point types with a format of the standard kind. -/
inductive FloatType where
  | half | bfloat | float | double | fp128
  deriving DecidableEq, Repr

def FloatType.format : FloatType → FloatFormat
  | .half => ⟨5, 10⟩
  | .bfloat => ⟨8, 7⟩
  | .float => ⟨8, 23⟩
  | .double => ⟨11, 52⟩
  | .fp128 => ⟨15, 112⟩

/-- `getPrimitiveSizeInBits()` -/
def FloatType.size (type : FloatType) : ℕ := type.format.width

/-- A floating-point comparison. -/
structure Fcmp where
  dest : ℕ
  pred : FcmpPredicate
  type : FloatType
  op0 : Operand
  op1 : Operand
  deriving DecidableEq, Repr

/-- The binary operators the passes use. -/
inductive BinaryOp where
  | lshr | shl | and | or | xor | add | sub
  deriving DecidableEq, Repr

def BinaryOp.eval (op : BinaryOp) (width a b : ℕ) : ℕ :=
  let x := a % 2 ^ width
  let y := b % 2 ^ width
  match op with
  | .lshr => x >>> y
  | .shl => (x <<< y) % 2 ^ width
  | .and => x &&& y
  | .or => x ||| y
  | .xor => x ^^^ y
  | .add => (x + y) % 2 ^ width
  | .sub => (x + 2 ^ width - y) % 2 ^ width

inductive Instr (M : Type) where
  | icmp (cmp : Icmp)
  | fcmp (cmp : Fcmp)
  | binary (dest : ℕ) (op : BinaryOp) (width : ℕ) (op0 op1 : Operand)
  /-- `trunc` to a width, `zext` from one, and `bitcast` to the integer type of the same width. -/
  | cast (dest width : ℕ) (op : Operand)
  | sext (dest narrow width : ℕ) (op : Operand)
  | select (dest width : ℕ) (condition onTrue onFalse : Operand)
  /-- Any other instruction. -/
  | other (dest : Option ℕ) (args : List Operand) (effect : List ℕ → M → ℕ × M)

namespace Instr

variable {M : Type}

def defines : Instr M → Option ℕ
  | .icmp cmp => some cmp.dest
  | .fcmp cmp => some cmp.dest
  | .binary dest _ _ _ _ => some dest
  | .cast dest _ _ => some dest
  | .sext dest _ _ _ => some dest
  | .select dest _ _ _ _ => some dest
  | .other dest _ _ => dest

def operands : Instr M → List Operand
  | .icmp cmp => [cmp.op0, cmp.op1]
  | .fcmp cmp => [cmp.op0, cmp.op1]
  | .binary _ _ _ op0 op1 => [op0, op1]
  | .cast _ _ op => [op]
  | .sext _ _ _ op => [op]
  | .select _ _ condition onTrue onFalse => [condition, onTrue, onFalse]
  | .other _ args _ => args

def run : Instr M → Registers → M → ℕ × M
  | .icmp cmp, env, memory =>
      ((cmp.pred.holds cmp.width (cmp.op0.read env) (cmp.op1.read env)).toNat, memory)
  | .fcmp cmp, env, memory =>
      ((cmp.pred.holds cmp.type.format (cmp.op0.read env) (cmp.op1.read env)).toNat, memory)
  | .binary _ op width op0 op1, env, memory =>
      (op.eval width (op0.read env) (op1.read env), memory)
  | .cast _ width op, env, memory => (op.read env % 2 ^ width, memory)
  | .sext _ narrow width op, env, memory =>
      (((BitVec.ofNat narrow (op.read env)).signExtend width).toNat, memory)
  | .select _ width condition onTrue onFalse, env, memory =>
      ((if condition.read env % 2 = 1 then onTrue.read env else onFalse.read env) % 2 ^ width,
        memory)
  | .other _ args effect, env, memory => effect (args.map (Operand.read env)) memory

theorem read_congr {op : Operand} {env env' : Registers}
    (same : ∀ name ∈ op.names, env name = env' name) : op.read env = op.read env' := by
  cases op with
  | reg name => exact same name (List.mem_singleton_self name)
  | const value => rfl

theorem run_congr (i : Instr M) (env env' : Registers) (memory : M)
    (same : ∀ name ∈ i.operands.flatMap Operand.names, env name = env' name) :
    i.run env memory = i.run env' memory := by
  have reads : ∀ op ∈ i.operands, op.read env = op.read env' := fun op member =>
    read_congr fun name mem => same name (List.mem_flatMap.mpr ⟨op, member, mem⟩)
  cases i with
  | icmp cmp =>
      simp only [run, reads cmp.op0 List.mem_cons_self,
        reads cmp.op1 (List.mem_cons_of_mem _ List.mem_cons_self)]
  | fcmp cmp =>
      simp only [run, reads cmp.op0 List.mem_cons_self,
        reads cmp.op1 (List.mem_cons_of_mem _ List.mem_cons_self)]
  | binary dest op width op0 op1 =>
      simp only [run, reads op0 List.mem_cons_self,
        reads op1 (List.mem_cons_of_mem _ List.mem_cons_self)]
  | cast dest width op => simp only [run, reads op List.mem_cons_self]
  | sext dest narrow width op => simp only [run, reads op List.mem_cons_self]
  | select dest width condition onTrue onFalse =>
      simp only [run, reads condition List.mem_cons_self,
        reads onTrue (List.mem_cons_of_mem _ List.mem_cons_self),
        reads onFalse (List.mem_cons_of_mem _ (List.mem_cons_of_mem _ List.mem_cons_self))]
  | other dest args effect =>
      have args_same : args.map (Operand.read env) = args.map (Operand.read env') :=
        List.map_congr_left reads
      simp only [run, args_same]

instance : Instruction (Instr M) M where
  defines := defines
  uses i := i.operands.flatMap Operand.names
  run := run
  run_congr := run_congr

@[simp] theorem defines_icmp (cmp : Icmp) :
    Instruction.defines (icmp (M := M) cmp) = some cmp.dest := rfl

@[simp] theorem defines_fcmp (cmp : Fcmp) :
    Instruction.defines (fcmp (M := M) cmp) = some cmp.dest := rfl

@[simp] theorem defines_binary (dest : ℕ) (op : BinaryOp) (width : ℕ) (op0 op1 : Operand) :
    Instruction.defines (binary (M := M) dest op width op0 op1) = some dest := rfl

@[simp] theorem defines_cast (dest width : ℕ) (op : Operand) :
    Instruction.defines (cast (M := M) dest width op) = some dest := rfl

@[simp] theorem defines_sext (dest narrow width : ℕ) (op : Operand) :
    Instruction.defines (sext (M := M) dest narrow width op) = some dest := rfl

@[simp] theorem defines_select (dest width : ℕ) (condition onTrue onFalse : Operand) :
    Instruction.defines (select (M := M) dest width condition onTrue onFalse) = some dest := rfl

@[simp] theorem defines_other (dest : Option ℕ) (args : List Operand)
    (effect : List ℕ → M → ℕ × M) : Instruction.defines (other dest args effect) = dest := rfl

@[simp] theorem run_icmp (cmp : Icmp) (env : Registers) (memory : M) :
    Instruction.run (icmp cmp) env memory =
      ((cmp.pred.holds cmp.width (cmp.op0.read env) (cmp.op1.read env)).toNat, memory) := rfl

@[simp] theorem run_fcmp (cmp : Fcmp) (env : Registers) (memory : M) :
    Instruction.run (fcmp cmp) env memory =
      ((cmp.pred.holds cmp.type.format (cmp.op0.read env) (cmp.op1.read env)).toNat, memory) := rfl

@[simp] theorem run_binary (dest : ℕ) (op : BinaryOp) (width : ℕ) (op0 op1 : Operand)
    (env : Registers) (memory : M) :
    Instruction.run (binary dest op width op0 op1) env memory =
      (op.eval width (op0.read env) (op1.read env), memory) := rfl

@[simp] theorem run_cast (dest width : ℕ) (op : Operand) (env : Registers) (memory : M) :
    Instruction.run (cast dest width op) env memory = (op.read env % 2 ^ width, memory) := rfl

@[simp] theorem run_sext (dest narrow width : ℕ) (op : Operand) (env : Registers) (memory : M) :
    Instruction.run (sext dest narrow width op) env memory =
      (((BitVec.ofNat narrow (op.read env)).signExtend width).toNat, memory) := rfl

@[simp] theorem run_select (dest width : ℕ) (condition onTrue onFalse : Operand) (env : Registers)
    (memory : M) :
    Instruction.run (select dest width condition onTrue onFalse) env memory =
      ((if condition.read env % 2 = 1 then onTrue.read env else onFalse.read env) % 2 ^ width,
        memory) := rfl

@[simp] theorem run_other (dest : Option ℕ) (args : List Operand) (effect : List ℕ → M → ℕ × M)
    (env : Registers) (memory : M) :
    Instruction.run (other dest args effect) env memory =
      effect (args.map (Operand.read env)) memory := rfl

end Instr

/-! ## Comparisons by halves and by sign -/

/-- The sign bit, as the passes isolate it. -/
theorem sign_bit {width : ℕ} (positive : 0 < width) (a : ℕ) :
    (a % 2 ^ width) >>> (width - 1) % 2 = if 2 ^ (width - 1) ≤ a % 2 ^ width then 1 else 0 := by
  have below := Nat.mod_lt a (Nat.two_pow_pos width)
  have double : 2 ^ width = 2 ^ (width - 1) * 2 := by
    rw [← pow_succ, Nat.sub_add_cancel positive]
  rw [Nat.shiftRight_eq_div_pow]
  generalize a % 2 ^ width = value at *
  have bit : value / 2 ^ (width - 1) < 2 := Nat.div_lt_of_lt_mul (double ▸ below)
  rw [Nat.mod_eq_of_lt bit]
  split
  · rename_i high
    have : 1 ≤ value / 2 ^ (width - 1) := (Nat.one_le_div_iff (Nat.two_pow_pos _)).mpr high
    omega
  · rename_i low
    exact Nat.div_eq_of_lt (Nat.lt_of_not_le low)

theorem signedValue_eq (width a : ℕ) :
    signedValue width a = if 2 ^ (width - 1) ≤ a % 2 ^ width
      then ((a % 2 ^ width : ℕ) : ℤ) - 2 ^ width else (a % 2 ^ width : ℕ) := by
  rw [signedValue, BitVec.toInt_eq_msb_cond, BitVec.msb_eq_decide, BitVec.toNat_ofNat]
  simp only [decide_eq_true_eq, Nat.cast_pow, Nat.cast_ofNat]

/-- The upper half of a value of twice the width. -/
theorem shifted_half (half a : ℕ) :
    (a % 2 ^ (2 * half)) >>> half % 2 ^ half = a % 2 ^ (2 * half) / 2 ^ half := by
  have below : a % 2 ^ (2 * half) < 2 ^ half * 2 ^ half := by
    rw [← pow_add, ← Nat.two_mul]
    exact Nat.mod_lt _ (Nat.two_pow_pos _)
  rw [Nat.shiftRight_eq_div_pow, Nat.mod_eq_of_lt (Nat.div_lt_of_lt_mul below)]

/-- A value of twice the width from its halves. -/
theorem halves (half a : ℕ) :
    a % 2 ^ (2 * half) = 2 ^ half * (a % 2 ^ (2 * half) / 2 ^ half) + a % 2 ^ half := by
  have low : a % 2 ^ (2 * half) % 2 ^ half = a % 2 ^ half :=
    Nat.mod_mod_of_dvd _ (Nat.pow_dvd_pow 2 (by omega))
  rw [← low, Nat.div_add_mod]

/-- Values compare as their upper halves, and as their lower ones where these are equal. -/
theorem lt_by_halves {one low low' : ℕ} (high high' : ℕ) (below : low < one) (below' : low' < one) :
    one * high + low < one * high' + low' ↔ high < high' ∨ high = high' ∧ low < low' := by
  rcases Nat.lt_trichotomy high high' with less | rfl | greater
  · have : one * (high + 1) ≤ one * high' := Nat.mul_le_mul_left _ less
    rw [Nat.mul_add] at this
    exact iff_of_true (by omega) (.inl less)
  · simp
  · have : one * (high' + 1) ≤ one * high := Nat.mul_le_mul_left _ greater
    rw [Nat.mul_add] at this
    exact iff_of_false (by omega) (by omega)

theorem eq_by_halves {one low low' : ℕ} (high high' : ℕ) (below : low < one) (below' : low' < one) :
    one * high + low = one * high' + low' ↔ high = high' ∧ low = low' := by
  have less := lt_by_halves high high' below below'
  have greater := lt_by_halves high' high below' below
  omega

end GreenFuzz.Instrumentation
