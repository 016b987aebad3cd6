import Mathlib.Computability.StateTransition
import Mathlib.Data.List.Basic
import Mathlib.Tactic.Common

/-!
# Programs in static single assignment form

A program is a list of basic blocks. A block starts with phi nodes, which read the label of the
block that was left before it, goes on with straight-line instructions, and ends with a branch, a
switch or a return. The first block is the entry.

The instructions are a parameter. What is known of one is the register it defines, the registers it
reads, and that its result depends on nothing else (`Instruction`). Registers and labels are
numbers, values are natural numbers, and the memory is any type, so that it can hold what the
program has written to the outside.

`Program.meaning` is the outcome of a run from the entry, or nothing where the run never ends. Two
programs with the same meaning return the same value and leave the same memory on every start, and
neither runs forever where the other ends.
-/

set_option autoImplicit false

namespace GreenFuzz.Library

open StateTransition

/-- The values of the registers. -/
abbrev Registers := ℕ → ℕ

/-- What an instruction reads: a register or a constant. -/
inductive Operand where
  | reg (name : ℕ)
  | const (value : ℕ)
  deriving DecidableEq, Repr

namespace Operand

def read (env : Registers) : Operand → ℕ
  | .reg name => env name
  | .const value => value

def names : Operand → List ℕ
  | .reg name => [name]
  | .const _ => []

@[simp] theorem read_reg (env : Registers) (name : ℕ) :
    (Operand.reg name).read env = env name := rfl

@[simp] theorem read_const (env : Registers) (value : ℕ) :
    (Operand.const value).read env = value := rfl

end Operand

/-- The straight-line instructions of a language with memories `M`. -/
class Instruction (I : Type*) (M : outParam (Type*)) where
  /-- The register that gets the result. -/
  defines : I → Option ℕ
  /-- The registers that are read. -/
  uses : I → List ℕ
  run : I → Registers → M → ℕ × M
  run_congr : ∀ (i : I) (env env' : Registers) (memory : M),
    (∀ name ∈ uses i, env name = env' name) → run i env memory = run i env' memory

/-- A phi node: a value for each block that can be left before it. -/
structure Phi where
  dest : ℕ
  incoming : List (Operand × ℕ)
  deriving DecidableEq, Repr

/-- The instruction that ends a block. A condition has one bit, and a switch reads its value with
the width it has. -/
inductive Terminator where
  | br (target : ℕ)
  | condBr (condition : Operand) (onTrue onFalse : ℕ)
  | switch (width : ℕ) (value : Operand) (default : ℕ) (cases : List (ℕ × ℕ))
  | ret (value : Option Operand)
  deriving DecidableEq, Repr

structure Block (I : Type*) where
  label : ℕ
  phis : List Phi
  body : List I
  term : Terminator

/-- A program: its blocks in their order, the entry first. -/
abbrev Program (I : Type*) := List (Block I)

/-- How a run ends. A branch to a label that no block has is a fault. -/
inductive Outcome (M : Type*) where
  | returned (value : Option ℕ) (memory : M)
  | fault
  deriving DecidableEq, Repr

/-- A run stands before a block, with the label of the block it came from, or is over. -/
inductive Run (M : Type*) where
  | entering (label : ℕ) (previous : Option ℕ) (env : Registers) (memory : M)
  | ended (outcome : Outcome M)

/-! ## The steps of a run -/

section Semantics

variable {I M : Type*} [Instruction I M]

variable {label : ℕ} {P : Program I} {b : Block I}

/-- The register file with one register changed. An instruction without a result changes none. -/
def define (env : Registers) (dest : Option ℕ) (value : ℕ) : Registers :=
  fun name => if dest = some name then value else env name

/-- The value of the entry for the block that was left. A phi node has one for every such
block. -/
def Phi.value (phi : Phi) (previous : Option ℕ) (env : Registers) : ℕ :=
  match phi.incoming.find? fun entry => some entry.2 = previous with
  | some entry => entry.1.read env
  | none => 0

/-- The phi nodes of a block, which are evaluated at once. -/
def runPhis (phis : List Phi) (previous : Option ℕ) (env : Registers) : Registers := fun name =>
  match phis.find? fun phi => phi.dest = name with
  | some phi => phi.value previous env
  | none => env name

def runBody : List I → Registers → M → Registers × M
  | [], env, memory => (env, memory)
  | i :: rest, env, memory =>
      runBody rest (define env (Instruction.defines i) (Instruction.run i env memory).1)
        (Instruction.run i env memory).2

/-- Where a block goes when it ends. -/
def leave (label : ℕ) (env : Registers) (memory : M) : Terminator → Run M
  | .br target => .entering target (some label) env memory
  | .condBr condition onTrue onFalse =>
      .entering (if condition.read env % 2 = 1 then onTrue else onFalse) (some label) env memory
  | .switch width value default cases =>
      match cases.find? fun case => case.1 % 2 ^ width = value.read env % 2 ^ width with
      | some case => .entering case.2 (some label) env memory
      | none => .entering default (some label) env memory
  | .ret value => .ended (.returned (value.map (Operand.read env)) memory)

def Block.run (b : Block I) (previous : Option ℕ) (env : Registers) (memory : M) : Run M :=
  let after := runBody b.body (runPhis b.phis previous env) memory
  leave b.label after.1 after.2 b.term

/-- The block with a label. -/
def Program.block (P : Program I) (label : ℕ) : Option (Block I) :=
  P.find? fun b => b.label = label

/-- One block of a run. -/
def Program.step (P : Program I) : Run M → Option (Run M)
  | .entering label previous env memory =>
      match P.block label with
      | some b => some (b.run previous env memory)
      | none => some (.ended .fault)
  | .ended _ => none

/-- A run comes from one place to another in some number of steps. -/
abbrev Program.Reaches (P : Program I) : Run M → Run M → Prop := StateTransition.Reaches P.step

/-- A run begins before the first block. -/
def Program.start (P : Program I) (env : Registers) (memory : M) : Run M :=
  match P.head? with
  | some b => .entering b.label none env memory
  | none => .ended .fault

/-- How the run from given registers and a given memory ends, if it does. -/
noncomputable def Program.meaning (P : Program I) (env : Registers) (memory : M) : Part (Run M) :=
  eval P.step (P.start env memory)

theorem Program.step_of_block (found : P.block label = some b) (previous : Option ℕ)
    (env : Registers) (memory : M) :
    P.step (.entering label previous env memory) = some (b.run previous env memory) := by
  rw [Program.step, found]

theorem Program.label_of_block (found : P.block label = some b) : b.label = label := by
  simpa using List.find?_some found

theorem Program.mem_of_block (found : P.block label = some b) : b ∈ P :=
  List.mem_of_find?_eq_some found

theorem Program.block_append_left {P Q : Program I} (found : P.block label = some b) :
    (P ++ Q).block label = some b := by
  rw [Program.block, List.find?_append]
  rw [Program.block] at found
  rw [found, Option.some_or]

theorem Program.block_append_right {P Q : Program I} (absent : ∀ b ∈ P, b.label ≠ label) :
    (P ++ Q).block label = Q.block label := by
  rw [Program.block, List.find?_append, List.find?_eq_none.mpr (by simpa using absent),
    Option.none_or, Program.block]

/-- A run that enters a block goes through it. -/
theorem Program.reaches_through (found : P.block label = some b) (previous : Option ℕ)
    (env : Registers) (memory : M) {later : Run M}
    (rest : P.Reaches (b.run previous env memory) later) :
    P.Reaches (.entering label previous env memory) later :=
  .head (Program.step_of_block found previous env memory) rest

/-- A run that enters a block without phi nodes executes its body and leaves it. -/
theorem Program.reaches_leave {body : List I} {term : Terminator}
    (found : P.block label = some ⟨label, [], body, term⟩) {previous : Option ℕ} {env : Registers}
    {memory : M} {later : Run M}
    (rest : P.Reaches
      (leave label (runBody body env memory).1 (runBody body env memory).2 term) later) :
    P.Reaches (.entering label previous env memory) later :=
  Program.reaches_through found previous env memory rest

/-- A run that is over stays where it is. -/
theorem Program.eq_of_reaches_ended {outcome : Outcome M} {later : Run M}
    (path : P.Reaches (.ended outcome) later) : later = .ended outcome := by
  rcases Relation.ReflTransGen.cases_head path with same | ⟨next, step, _⟩
  · exact same.symm
  · exact absurd step (by simp [Program.step])

/-- A path through blocks that are among those of a program is a path of the program. -/
theorem Program.reaches_of_blocks {P blocks : Program I}
    (among : ∀ label block, blocks.block label = some block → P.block label = some block)
    {run : Run M} {previous : Option ℕ} {env : Registers} {memory : M}
    (path : blocks.Reaches run (.entering label previous env memory)) :
    P.Reaches run (.entering label previous env memory) := by
  induction path using Relation.ReflTransGen.head_induction_on with
  | refl => exact .refl
  | @head first second step rest ih =>
      cases first with
      | ended outcome => exact absurd step (by simp [Program.step])
      | entering label' previous' env' memory' =>
          cases inside : blocks.block label' with
          | none =>
              -- A fault is the end of the run.
              rw [Program.step, inside] at step
              obtain rfl := Option.some.inj step
              exact absurd (Program.eq_of_reaches_ended rest) (by simp)
          | some block =>
              rw [Option.mem_def, Program.step_of_block inside] at step
              rw [← Option.some.inj step] at ih
              exact ih.head (Program.step_of_block (among label' block inside) _ _ _)

theorem leave_condBr {name : ℕ} {env : Registers} (holds : Bool) (value : env name = holds.toNat)
    (label onTrue onFalse : ℕ) (memory : M) :
    leave label env memory (.condBr (.reg name) onTrue onFalse) =
      .entering (if holds then onTrue else onFalse) (some label) env memory := by
  rw [leave, Operand.read_reg, value]
  cases holds <;> rfl

theorem Phi.value_cons (dest label : ℕ) (op : Operand) (rest : List (Operand × ℕ)) (came : ℕ)
    (env : Registers) :
    (Phi.mk dest ((op, label) :: rest)).value (some came) env =
      if label = came then op.read env else (Phi.mk dest rest).value (some came) env := by
  by_cases same : label = came
  · simp [Phi.value, same]
  · simp [Phi.value, same]

theorem define_apply (env : Registers) (dest value name : ℕ) :
    define env (some dest) value name = if dest = name then value else env name := by
  simp [define]

theorem runBody_append (first second : List I) (env : Registers) (memory : M) :
    runBody (first ++ second) env memory =
      runBody second (runBody first env memory).1 (runBody first env memory).2 := by
  induction first generalizing env memory with
  | nil => rfl
  | cons i rest ih => exact ih _ _

end Semantics

/-! ## Registers that are not mentioned -/

section Mentions

variable {I M : Type*} [Instruction I M]

def Phi.numbers (phi : Phi) : List ℕ :=
  phi.dest :: phi.incoming.flatMap fun entry => entry.2 :: entry.1.names

def Terminator.targets : Terminator → List ℕ
  | .br target => [target]
  | .condBr _ onTrue onFalse => [onTrue, onFalse]
  | .switch _ _ default cases => default :: cases.map Prod.snd
  | .ret _ => []

def Terminator.names : Terminator → List ℕ
  | .br _ => []
  | .condBr condition _ _ => condition.names
  | .switch _ value _ _ => value.names
  | .ret value => (value.map Operand.names).getD []

def instructionNumbers (i : I) : List ℕ :=
  (Instruction.defines i).toList ++ Instruction.uses i

def Block.numbers (b : Block I) : List ℕ :=
  b.label :: (b.phis.flatMap Phi.numbers ++ b.body.flatMap instructionNumbers ++
    (b.term.targets ++ b.term.names))

/-- A number above every register and every label of the program. -/
def Program.bound (P : Program I) : ℕ :=
  (P.flatMap Block.numbers).foldr (fun number highest => max (number + 1) highest) 0

theorem lt_foldr_max {numbers : List ℕ} {number : ℕ} (member : number ∈ numbers) :
    number < numbers.foldr (fun number highest => max (number + 1) highest) 0 := by
  induction numbers with
  | nil => exact absurd member List.not_mem_nil
  | cons first rest ih =>
      rw [List.foldr_cons]
      rcases List.mem_cons.mp member with rfl | later
      · exact Nat.lt_of_lt_of_le (Nat.lt_succ_self _) (Nat.le_max_left _ _)
      · exact Nat.lt_of_lt_of_le (ih later) (Nat.le_max_right _ _)

theorem Program.lt_bound {P : Program I} {b : Block I} (member : b ∈ P) {number : ℕ}
    (mentioned : number ∈ b.numbers) : number < P.bound :=
  lt_foldr_max (List.mem_flatMap.mpr ⟨b, member, mentioned⟩)

/-- Two register files that agree on the registers below a number. -/
def Agree (bound : ℕ) (env env' : Registers) : Prop :=
  ∀ name < bound, env name = env' name

variable {bound : ℕ} {env env' : Registers}

theorem Agree.refl (bound : ℕ) (env : Registers) : Agree bound env env := fun _ _ => rfl

theorem Agree.weaken {bound' : ℕ} (agree : Agree bound' env env') (less : bound ≤ bound') :
    Agree bound env env' :=
  fun name below => agree name (Nat.lt_of_lt_of_le below less)

theorem Agree.trans {env'' : Registers} (first : Agree bound env env')
    (second : Agree bound env' env'') : Agree bound env env'' :=
  fun name below => (first name below).trans (second name below)

theorem Agree.read (agree : Agree bound env env') {op : Operand}
    (below : ∀ name ∈ op.names, name < bound) : op.read env = op.read env' := by
  cases op with
  | reg name => exact agree name (below name (List.mem_singleton_self name))
  | const value => rfl

theorem Agree.define (agree : Agree bound env env') (dest : Option ℕ) (value : ℕ) :
    Agree bound (define env dest value) (define env' dest value) := by
  intro name below
  simp only [Library.define, agree name below]

/-- A new register does not matter below the bound. -/
theorem Agree.define_right (agree : Agree bound env env') {dest : ℕ} (fresh : bound ≤ dest)
    (value : ℕ) : Agree bound env (Library.define env' (some dest) value) := by
  intro name below
  have other : (some dest : Option ℕ) ≠ some name := by
    intro same
    have : dest = name := Option.some.inj same
    omega
  rw [Library.define, if_neg other, agree name below]

theorem Agree.run {i : I} (agree : Agree bound env env')
    (below : ∀ number ∈ instructionNumbers i, number < bound) (memory : M) :
    Instruction.run i env memory = Instruction.run i env' memory :=
  Instruction.run_congr i env env' memory fun name used =>
    agree name (below name (List.mem_append_right _ used))

theorem Agree.runBody (agree : Agree bound env env') (body : List I)
    (below : ∀ number ∈ body.flatMap instructionNumbers, number < bound) (memory : M) :
    Agree bound (runBody body env memory).1 (Library.runBody body env' memory).1 ∧
      (Library.runBody body env memory).2 = (Library.runBody body env' memory).2 := by
  induction body generalizing env env' memory with
  | nil => exact ⟨agree, rfl⟩
  | cons i rest ih =>
      rw [List.flatMap_cons] at below
      have same := agree.run (fun number member => below number (List.mem_append_left _ member))
        memory
      simp only [Library.runBody, same]
      exact ih (agree.define _ _) (fun number member => below number
        (List.mem_append_right _ member)) _

/-- Instructions whose results are new registers leave the old ones as they are. -/
theorem Agree.runBody_right {body : List I} (agree : Agree bound env env')
    (fresh : ∀ i ∈ body, ∀ dest ∈ Instruction.defines i, bound ≤ dest) (memory : M) :
    Agree bound env (Library.runBody body env' memory).1 := by
  induction body generalizing env' memory with
  | nil => exact agree
  | cons i rest ih =>
      refine ih ?_ (fun later member => fresh later (List.mem_cons_of_mem _ member)) _
      cases result : Instruction.defines i with
      | none =>
          intro name below
          simp [Library.define, agree name below]
      | some dest =>
          exact agree.define_right (fresh i List.mem_cons_self dest result) _

end Mentions

end GreenFuzz.Library
