import GreenFuzz.Instrumentation.LlvmInstr
import GreenFuzz.Library.ByteWords
import GreenFuzz.Library.SsaExpansion

/-!
# The compare-transform pass

`transformCmps` looks for calls of the comparing functions of the C library where one string is
known, and compares byte by byte in their place. In a first loop it collects the calls, and the
strings that variables were initialised with. In the second one it takes the known string, shortens
it to what it compares, and adds a block for each byte.

What LLVM says of a pointer comes from outside (`Constants`). Strings of variables are found again
under the operand that they were found at, whatever happened to the variable in between. Calls that
are not direct, or have another calling convention, count as other instructions.
-/

set_option autoImplicit false

namespace GreenFuzz.Instrumentation

open Library

/-- The types the pass tells apart. -/
inductive IrType where
  | int (width : ℕ)
  | ptr
  | other
  deriving DecidableEq, Repr

structure FunctionType where
  returns : IrType
  params : List IrType
  deriving DecidableEq, Repr

/-- A call. Its result has a register where the function returns an `int`. -/
structure Call (M : Type) where
  dest : Option ℕ
  callee : String
  type : FunctionType
  args : List Operand
  effect : List ℕ → M → ℕ × M
  named : type.returns = .int 32 → dest.isSome = true

inductive CallInstr (M : Type) where
  | plain (i : Instr M)
  | call (call : Call M)

/-- A memory with a byte at every address. -/
class ByteMemory (M : Type) where
  byte : M → ℕ → Byte

section Semantics

variable {M : Type}

namespace CallInstr

def defines : CallInstr M → Option ℕ
  | .plain i => i.defines
  | .call made => made.dest

def operands : CallInstr M → List Operand
  | .plain i => i.operands
  | .call made => made.args

def run : CallInstr M → Registers → M → ℕ × M
  | .plain i, env, memory => i.run env memory
  | .call made, env, memory => made.effect (made.args.map (Operand.read env)) memory

theorem run_congr (i : CallInstr M) (env env' : Registers) (memory : M)
    (same : ∀ name ∈ i.operands.flatMap Operand.names, env name = env' name) :
    i.run env memory = i.run env' memory := by
  cases i with
  | plain i => exact Instr.run_congr i env env' memory same
  | call made =>
      have args : made.args.map (Operand.read env) = made.args.map (Operand.read env') :=
        List.map_congr_left fun op member => Instr.read_congr fun name mem =>
          same name (List.mem_flatMap.mpr ⟨op, member, mem⟩)
      simp only [run, args]

instance : Instruction (CallInstr M) M where
  defines := defines
  uses i := i.operands.flatMap Operand.names
  run := run
  run_congr := run_congr

@[simp] theorem defines_plain (i : Instr M) :
    Instruction.defines (plain i) = Instruction.defines i := rfl

@[simp] theorem defines_call (made : Call M) :
    Instruction.defines (call made) = made.dest := rfl

@[simp] theorem run_plain (i : Instr M) (env : Registers) (memory : M) :
    Instruction.run (plain i) env memory = Instruction.run i env memory := rfl

@[simp] theorem run_call (made : Call M) (env : Registers) (memory : M) :
    Instruction.run (call made) env memory =
      made.effect (made.args.map (Operand.read env)) memory := rfl

end CallInstr

def Call.arg (call : Call M) (index : ℕ) : Operand := call.args.getD index (.const 0)

end Semantics

/-! ## The functions of the C library -/

/-- `tolower`, as the C locale has it. -/
def tolower (c : Byte) : Byte := if 65 ≤ c ∧ c ≤ 90 then c + 32 else c

def memcmpNames : List String :=
  ["memcmp", "bcmp", "CRYPTO_memcmp", "OPENSSL_memcmp", "memcmp_const_time", "memcmpct"]

def strcasecmpNames : List String :=
  ["strcasecmp", "stricmp", "ap_cstr_casecmp", "OPENSSL_strcasecmp", "cmsstrcasecmp"]

def strncasecmpNames : List String :=
  ["strncasecmp", "strnicmp", "ap_cstr_casecmpn", "OPENSSL_strncasecmp"]

/-- The names that the second loop tells apart, of which the first one lets only some through. -/
def sizedNames : List String :=
  ["strncmp", "xmlStrncmp", "curl_strnequal", "strncasecmp", "strnicmp", "ap_cstr_casecmpn",
    "OPENSSL_strncasecmp", "xmlStrncasecmp", "g_ascii_strncasecmp", "Curl_strncasecompare",
    "g_strncasecmp"]

def caseInsensitiveNames : List String :=
  ["strcasecmp", "stricmp", "ap_cstr_casecmp", "OPENSSL_strcasecmp", "xmlStrcasecmp",
    "g_strcasecmp", "g_ascii_strcasecmp", "Curl_strcasecompare", "Curl_safe_strcasecompare",
    "cmsstrcasecmp", "strncasecmp", "strnicmp", "ap_cstr_casecmpn", "OPENSSL_strncasecmp",
    "xmlStrncasecmp", "g_ascii_strncasecmp", "Curl_strncasecompare", "g_strncasecmp"]

section Pass

variable {M : Type}

/-- The prototype of `strcmp`. -/
def FunctionType.isTwoStrings (type : FunctionType) : Bool :=
  type.returns = .int 32 ∧ type.params = [.ptr, .ptr]

/-- The width of the size in a prototype like that of `strncmp` and `memcmp`. -/
def FunctionType.sizeWidth (type : FunctionType) : Option ℕ :=
  match type.params with
  | [.ptr, .ptr, .int width] => if type.returns = .int 32 then some width else none
  | _ => none

namespace Call

def isStrcmp (call : Call M) : Bool := call.callee = "strcmp" && call.type.isTwoStrings

def isStrcasecmp (call : Call M) : Bool :=
  call.callee ∈ strcasecmpNames && call.type.isTwoStrings

def isMemcmp (call : Call M) : Bool := call.callee ∈ memcmpNames && call.type.sizeWidth.isSome

def isStrncmp (call : Call M) : Bool := call.callee = "strncmp" && call.type.sizeWidth.isSome

def isStrncasecmp (call : Call M) : Bool :=
  call.callee ∈ strncasecmpNames && call.type.sizeWidth.isSome

/-- Whether the first loop takes an interest in a call. -/
def isCmp (call : Call M) : Bool :=
  call.isStrcmp || call.isMemcmp || call.isStrncmp || call.isStrcasecmp || call.isStrncasecmp

def isIntMemcpy (call : Call M) : Bool := call.callee = "llvm.memcpy.p0i8.p0i8.i64"

/-- `isMemcmp` of the second loop -/
def comparesMemory (call : Call M) : Bool :=
  call.callee ∈ memcmpNames || call.callee = "llvm.memcpy.p0i8.p0i8.i64"

def isSizedcmp (call : Call M) : Bool := call.comparesMemory || call.callee ∈ sizedNames

def isCaseInsensitive (call : Call M) : Bool := call.callee ∈ caseInsensitiveNames

/-- The value of a constant size. -/
def constSize (call : Call M) : Option ℕ :=
  match call.arg 2 with
  | .const value => some (value % 2 ^ (call.type.sizeWidth.getD 0))
  | .reg _ => none

end Call

/-! ## The first loop -/

/-- What LLVM knows: `getConstantStringInfo` of a pointer, which ends before the first NUL, and the
raw bytes of the array that initialises the global variable it points into. -/
structure Constants where
  stringInfo : Operand → Option (List Byte)
  initializer : Operand → Option (List Byte)

/-- `valueMap` -/
abbrev ValueMap := Operand → Option (List Byte)

def ValueMap.save (valueMap : ValueMap) (pointer : Operand) (text : List Byte) : ValueMap :=
  fun other => if other = pointer then some text else valueMap other

/-- A saved string that is not empty. -/
def ValueMap.saved (valueMap : ValueMap) (pointer : Operand) : Option (List Byte) :=
  (valueMap pointer).filter fun text => text ≠ []

/-- What the first loop has found. -/
structure Collected (M : Type) where
  valueMap : ValueMap
  calls : List (Call M)

/-- The strings of global variables. The result tells whether there was one. -/
def lookInitializers (C : Constants) (call : Call M) (valueMap : ValueMap) : ValueMap × Bool :=
  match C.initializer (call.arg 1) with
  | some Str2 =>
      let valueMap := valueMap.save (call.arg 1) Str2
      (if call.isIntMemcpy then valueMap.save (call.arg 0) Str2 else valueMap, true)
  | none =>
      match C.initializer (call.arg 0) with
      | some Str1 => (valueMap.save (call.arg 0) Str1, true)
      | none => (valueMap, false)

/-- Whether the size of a call lets the pass take it. A size of less than two is left to the
function, and `memcmp` needs a constant one. -/
def sizeAllowed (call : Call M) : Bool :=
  if call.isMemcmp || call.isStrncmp || call.isStrncasecmp then
    match call.constSize with
    | some size => 2 ≤ size
    | none => !call.isMemcmp
  else true

/-- The first loop, for one instruction. -/
def collect (C : Constants) (s : Collected M) : CallInstr M → Collected M
  | .plain _ => s
  | .call call =>
      if !call.isCmp && !call.isIntMemcpy then s
      else
        let Str1 := C.stringInfo (call.arg 0)
        let Str2 := C.stringInfo (call.arg 1)
        if call.isIntMemcpy && Str2.isSome then
          { s with valueMap := s.valueMap.save (call.arg 0) (Str2.getD []) }
        else
          let direct := Str1.isSome || Str2.isSome
          let looked := if direct then (s.valueMap, true) else lookInitializers C call s.valueMap
          if call.isIntMemcpy then { s with valueMap := looked.1 }
          else
            let hasString := looked.2 || (looked.1.saved (call.arg 0)).isSome ||
              (looked.1.saved (call.arg 1)).isSome
            { valueMap := looked.1
              calls := if hasString && sizeAllowed call then s.calls ++ [call] else s.calls }

/-! ## The second loop -/

/-- `HasStr1` and `TmpConstStr`, before it is cut. -/
def knownString (C : Constants) (valueMap : ValueMap) (call : Call M) : Bool × List Byte :=
  match C.stringInfo (call.arg 0), C.stringInfo (call.arg 1) with
  | some Str1, _ => (true, Str1)
  | none, some Str2 => (false, Str2)
  | none, none =>
      match valueMap.saved (call.arg 0) with
      | some Str1 => (true, Str1)
      | none => (false, (valueMap.saved (call.arg 1)).getD [])

/-- A string that is not worth the blocks. -/
def isShort (TmpConstStr : List Byte) : Bool :=
  TmpConstStr.length < 2 || TmpConstStr.length = 2 && TmpConstStr.getD 1 1 = 0

/-- The string, with a NUL behind it where the function looks for one. -/
def withNul (call : Call M) (TmpConstStr : List Byte) : List Byte :=
  if !call.isSizedcmp && TmpConstStr.getLastD 1 ≠ 0 then TmpConstStr ++ [0] else TmpConstStr

/-- The string up to its first NUL, but for functions that compare memory. -/
def constStr (call : Call M) (TmpConstStr : List Byte) : List Byte :=
  let TmpConstStr := withNul call TmpConstStr
  if !call.comparesMemory && TmpConstStr.contains 0 then TmpConstStr.take (TmpConstStr.idxOf 0 + 1)
  else TmpConstStr

/-- The bytes that get a block. -/
def unrolled (call : Call M) (ConstStr : List Byte) : List Byte :=
  match if call.isSizedcmp then call.constSize else none with
  | some constSizedLen => ConstStr.take constSizedLen
  | none => ConstStr

/-- What the blocks of a call read: the string that is not known, and the size where it is not a
constant, with its width. -/
structure Unrolling where
  dest : ℕ
  VarStr : Operand
  sizedValue : Option (Operand × ℕ)
  HasStr1 : Bool
  isCaseInsensitive : Bool
  chars : List Byte

/-- The reading of a call by the second loop, or nothing where it passes over the call. -/
def unrolling (C : Constants) (valueMap : ValueMap) (call : Call M) : Option Unrolling :=
  let known := knownString C valueMap call
  if isShort known.2 then none
  else
    some
      { dest := call.dest.getD 0
        VarStr := if known.1 then call.arg 1 else call.arg 0
        sizedValue := if call.isSizedcmp && call.constSize.isNone
          then some (call.arg 2, call.type.sizeWidth.getD 0) else none
        HasStr1 := known.1
        isCaseInsensitive := call.isCaseInsensitive
        chars := unrolled call (constStr call known.2) }

namespace Unrolling

variable (u : Unrolling) (new i : ℕ)

def lenLabel : ℕ := new + 1 + 10 * i

def cmpLabel : ℕ := new + 2 + 10 * i

/-- The first block for a byte. -/
def entry : ℕ := if u.sizedValue.isSome then lenLabel new i else cmpLabel new i

/-- `len_check` -/
def lenCheck (op : Operand) (width : ℕ) : Block (CallInstr M) :=
  ⟨lenLabel new i, [], [.plain (.icmp ⟨new + 1 + 10 * i, .eq, width, op, .const i⟩)],
    .condBr (.reg (new + 1 + 10 * i)) new (cmpLabel new i)⟩

/-- The byte as it is compared. -/
def char (c : Byte) : Byte := if u.isCaseInsensitive then tolower c else c

/-- The call of `tolower` in a block. -/
def tolowerCall (dest : ℕ) (op : Operand) : Call M where
  dest := some dest
  callee := "tolower"
  type := ⟨.int 32, [.int 32]⟩
  args := [op]
  effect args memory := ((tolower (BitVec.ofNat 8 (args.headD 0))).toNat, memory)
  named _ := rfl

variable [ByteMemory M]

/-- The instructions that load a byte of the other string. -/
def loadByte : List (CallInstr M) :=
  [.plain (.binary (new + 2 + 10 * i) .add 64 u.VarStr (.const i)),
    .plain (.other (some (new + 3 + 10 * i)) [.reg (new + 2 + 10 * i)] fun args memory =>
      ((ByteMemory.byte memory (args.headD 0)).toNat, memory))]

/-- The conversion of a loaded byte to lower case. -/
def lowerByte : List (CallInstr M) :=
  if u.isCaseInsensitive then
    [.plain (.cast (new + 4 + 10 * i) 8 (.reg (new + 3 + 10 * i))),
      .call (tolowerCall (new + 5 + 10 * i) (.reg (new + 4 + 10 * i))),
      .plain (.cast (new + 6 + 10 * i) 8 (.reg (new + 5 + 10 * i)))]
  else []

def loaded : Operand := .reg (if u.isCaseInsensitive then new + 6 + 10 * i else new + 3 + 10 * i)

/-- `cmp_added`. The last one goes on in any case. -/
def cmpAdded (c : Byte) (last : Bool) : Block (CallInstr M) :=
  ⟨cmpLabel new i, [],
    u.loadByte new i ++ u.lowerByte new i ++
      [.plain (if u.HasStr1
          then .binary (new + 7 + 10 * i) .sub 8 (.const (u.char c).toNat) (u.loaded new i)
          else .binary (new + 7 + 10 * i) .sub 8 (u.loaded new i) (.const (u.char c).toNat)),
        .plain (.sext (new + 8 + 10 * i) 8 32 (.reg (new + 7 + 10 * i)))] ++
      (if last then []
        else [.plain (.icmp ⟨new + 9 + 10 * i, .eq, 8, .reg (new + 7 + 10 * i), .const 0⟩)]),
    if last then .br new else .condBr (.reg (new + 9 + 10 * i)) (u.entry new (i + 1)) new⟩

/-- The blocks for a byte and those behind it. -/
def blocks (i : ℕ) : List Byte → Program (CallInstr M)
  | [] => []
  | c :: rest =>
      (u.sizedValue.map fun size => lenCheck new i size.1 size.2).toList ++
        u.cmpAdded new i c rest.isEmpty :: blocks (i + 1) rest

/-- The entries of `cmp_phi` for these blocks. -/
def incoming (i : ℕ) : List Byte → List (Operand × ℕ)
  | [] => []
  | _ :: rest =>
      (u.sizedValue.map fun _ => (Operand.const 0, lenLabel new i)).toList ++
        (.reg (new + 8 + 10 * i), cmpLabel new i) :: incoming (i + 1) rest

/-- The blocks in the place of the call. -/
def region : Region (CallInstr M) where
  front := []
  exit := .br (u.entry new 0)
  middle := u.blocks new 0 u.chars
  bottom := new
  result := ⟨u.dest, u.incoming new 0 u.chars⟩

end Unrolling

variable [ByteMemory M]

/-- The second loop, for one call. -/
def replaceCall (C : Constants) (valueMap : ValueMap) (P : Program (CallInstr M)) (call : Call M) :
    Option (Program (CallInstr M)) :=
  match unrolling C valueMap call with
  | none => some P
  | some u =>
      (parent P (definesRegister call.dest)).map fun (b, before, after) =>
        P.splice b before after (u.region P.bound)

/-- What the first loop finds in a program. -/
def collected (C : Constants) (P : Program (CallInstr M)) : Collected M :=
  (P.flatMap Block.body).foldl (collect C) ⟨fun _ => none, []⟩

/-- `transformCmps` -/
def transformCmps (C : Constants) (P : Program (CallInstr M)) : Option (Program (CallInstr M)) :=
  (collected C P).calls.foldlM (replaceCall C (collected C P).valueMap) P

end Pass

end GreenFuzz.Instrumentation
