import GreenFuzz.Instrumentation.CompareTransform
import GreenFuzz.Instrumentation.SplitCompareRegions

/-!
# What the blocks of the compare-transform pass compute

The blocks for a string take the byte of the other string, subtract, and go on as long as there is
no difference. `Unrolling.cascade` is that value: the first difference, as eight bits, with its
sign. The blocks lead to the second half of the split block with it (`Unrolling.computes_region`).
-/

set_option autoImplicit false

namespace GreenFuzz.Instrumentation

open Library

variable {M : Type}

namespace Unrolling

/-! ## The value -/

section Value

variable [ByteMemory M] (u : Unrolling)

/-- The difference of a byte of the known string and one of the other. -/
def diff (c other : Byte) : Byte :=
  if u.HasStr1 then u.char c - u.char other else u.char other - u.char c

/-- Whether the size ends the comparison before a byte. -/
def ends (size i : ℕ) : Bool :=
  match u.sizedValue with
  | some (_, width) => IcmpPredicate.eq.holds width size i
  | none => false

/-- A byte of the other string. -/
def otherByte (memory : M) (pointer i : ℕ) : Byte :=
  ByteMemory.byte memory (BinaryOp.add.eval 64 pointer i)

/-- The first difference from a byte on. -/
def cascade (other : ℕ → Byte) (size : ℕ) : ℕ → List Byte → ℕ
  | _, [] => 0
  | i, c :: rest =>
      if u.ends size i then 0
      else if u.diff c (other i) = 0 then cascade other size (i + 1) rest
      else ((u.diff c (other i)).signExtend 32).toNat

/-- The size that the blocks read. -/
def size (env : Registers) : ℕ :=
  match u.sizedValue with
  | some (op, _) => op.read env
  | none => 0

/-- The operands of the blocks are old. -/
structure Reads (new : ℕ) : Prop where
  VarStr : Old new u.VarStr
  size : ∀ op width, u.sizedValue = some (op, width) → Old new op

end Value

/-! ## The blocks are new -/

section Labels

variable [ByteMemory M] {u : Unrolling} {new : ℕ}

theorem le_label (chars : List Byte) (i : ℕ) :
    ∀ b ∈ u.blocks (M := M) new i chars, new + 1 + 10 * i ≤ b.label := by
  induction chars generalizing i with
  | nil => exact fun _ member => absurd member List.not_mem_nil
  | cons c rest ih =>
      intro b member
      rw [blocks] at member
      rcases List.mem_append.mp member with isLen | later
      · obtain ⟨size, _, rfl⟩ := Option.map_eq_some_iff.mp (Option.mem_toList.mp isLen)
        exact Nat.le_refl _
      · rcases List.mem_cons.mp later with rfl | inRest
        · simp only [cmpAdded, cmpLabel]
          omega
        · have := ih (i + 1) b inRest
          omega

theorem nodup_labels (chars : List Byte) (i : ℕ) :
    ((u.blocks (M := M) new i chars).map Block.label).Nodup := by
  induction chars generalizing i with
  | nil => exact List.nodup_nil
  | cons c rest ih =>
      have later : ∀ b ∈ u.blocks (M := M) new (i + 1) rest, new + 1 + 10 * i + 10 ≤ b.label :=
        fun b member => by
          have := le_label rest (i + 1) b member
          omega
      have cmp : (u.cmpAdded (M := M) new i c rest.isEmpty).label = new + 2 + 10 * i := rfl
      have inner : ((u.cmpAdded (M := M) new i c rest.isEmpty :: u.blocks new (i + 1) rest).map
          Block.label).Nodup := by
        refine List.nodup_cons.mpr ⟨fun member => ?_, ih (i + 1)⟩
        obtain ⟨b, inside, same⟩ := List.mem_map.mp member
        have := later b inside
        omega
      rw [blocks]
      cases sized : u.sizedValue with
      | none => exact inner
      | some size =>
          show ((lenCheck new i size.1 size.2 :: _).map Block.label).Nodup
          refine List.nodup_cons.mpr ⟨fun member => ?_, inner⟩
          obtain ⟨b, inside, same⟩ := List.mem_map.mp member
          have len : (lenCheck (M := M) new i size.1 size.2).label = new + 1 + 10 * i := rfl
          rcases List.mem_cons.mp inside with rfl | inRest
          · omega
          · have := later b inRest
            omega

/-- The block for the size is found. -/
theorem block_lenCheck {c : Byte} {rest : List Byte} {i : ℕ} {size : Operand × ℕ}
    (sized : u.sizedValue = some size) :
    Program.block (u.blocks (M := M) new i (c :: rest)) (lenLabel new i) =
      some (lenCheck new i size.1 size.2) := by
  rw [Program.block, blocks, sized]
  exact List.find?_cons_of_pos (by simp [lenCheck])

/-- The block for the byte is found. -/
theorem block_cmpAdded {c : Byte} {rest : List Byte} {i : ℕ} :
    Program.block (u.blocks (M := M) new i (c :: rest)) (cmpLabel new i) =
      some (u.cmpAdded new i c rest.isEmpty) := by
  have here : Program.block (u.cmpAdded (M := M) new i c rest.isEmpty :: u.blocks new (i + 1) rest)
      (cmpLabel new i) = some (u.cmpAdded new i c rest.isEmpty) :=
    List.find?_cons_of_pos (by simp [cmpAdded])
  rw [blocks]
  cases u.sizedValue with
  | none => exact here
  | some size =>
      refine (Program.block_append_right fun b member => ?_).trans here
      rw [List.mem_singleton.mp member]
      simp only [lenCheck, lenLabel, cmpLabel]
      omega

/-- The blocks for the later bytes are found. -/
theorem block_later {c : Byte} {rest : List Byte} {i : ℕ} (label : ℕ) (b : Block (CallInstr M))
    (found : Program.block (u.blocks (M := M) new (i + 1) rest) label = some b) :
    Program.block (u.blocks (M := M) new i (c :: rest)) label = some b := by
  have later := le_label rest (i + 1) b (Program.mem_of_block found)
  rw [Program.label_of_block found] at later
  have differs : (u.cmpAdded (M := M) new i c rest.isEmpty).label ≠ label := by
    simp only [cmpAdded, cmpLabel]
    omega
  have here : Program.block (u.cmpAdded (M := M) new i c rest.isEmpty :: u.blocks new (i + 1) rest)
      label = some b := by
    rw [Program.block, List.find?_cons_of_neg (by simpa using differs)]
    exact found
  rw [blocks]
  cases u.sizedValue with
  | none => exact here
  | some size =>
      refine (Program.block_append_right fun b member => ?_).trans here
      rw [List.mem_singleton.mp member]
      simp only [lenCheck, lenLabel]
      omega

end Labels

/-! ## One byte -/

section OneByte

theorem sub_eval (a b : Byte) : BinaryOp.sub.eval 8 a.toNat b.toNat = (a - b).toNat := by
  have := a.isLt
  have := b.isLt
  rw [BitVec.toNat_sub]
  simp only [BinaryOp.eval]
  omega

variable [ByteMemory M] {u : Unrolling} {new i : ℕ}

/-- The byte of the other string, as it is compared. -/
theorem run_loadByte (u : Unrolling) (new i : ℕ) (env : Registers) (memory : M) :
    let after := runBody (u.loadByte (M := M) new i ++ u.lowerByte new i) env memory
    Agree new env after.1 ∧ after.2 = memory ∧
      (u.loaded new i).read after.1 =
        (u.char (otherByte memory (u.VarStr.read env) i)).toNat := by
  intro after
  have fresh : ∀ j ∈ u.loadByte (M := M) new i ++ u.lowerByte new i,
      ∀ dest ∈ Instruction.defines j, new ≤ dest := by
    intro j member
    by_cases insensitive : u.isCaseInsensitive = true
    · simp only [loadByte, lowerByte, if_pos insensitive, List.cons_append, List.nil_append,
        List.mem_cons, List.not_mem_nil, or_false] at member
      rcases member with rfl | rfl | rfl | rfl | rfl <;>
        simp [tolowerCall, Instruction.defines, CallInstr.defines, Instr.defines] <;> omega
    · simp only [loadByte, lowerByte, if_neg insensitive, List.append_nil, List.mem_cons,
        List.not_mem_nil, or_false] at member
      rcases member with rfl | rfl <;>
        simp [Instruction.defines, CallInstr.defines, Instr.defines] <;> omega
  refine ⟨(Agree.refl new env).runBody_right fresh memory, ?_⟩
  have small : ∀ a : Byte, a.toNat % 256 = a.toNat := fun a => Nat.mod_eq_of_lt a.isLt
  by_cases insensitive : u.isCaseInsensitive = true
  · simp [after, loadByte, lowerByte, loaded, tolowerCall, char, insensitive, runBody,
      define_apply, otherByte, small]
  · simp [after, loadByte, lowerByte, loaded, char, insensitive, runBody, define_apply, otherByte]

/-- The instructions of a block subtract the bytes. -/
theorem run_cmpAdded (u : Unrolling) (new i : ℕ) (c : Byte) (last : Bool) (env : Registers)
    (memory : M) :
    let other := otherByte memory (u.VarStr.read env) i
    let after := runBody (u.cmpAdded (M := M) new i c last).body env memory
    Agree new env after.1 ∧ after.2 = memory ∧
      after.1 (new + 8 + 10 * i) = ((u.diff c other).signExtend 32).toNat ∧
      (last = false → after.1 (new + 9 + 10 * i) = (decide (u.diff c other = 0)).toNat) := by
  intro other after
  obtain ⟨agree, kept, loaded⟩ := run_loadByte u new i env memory
  set before := runBody (u.loadByte (M := M) new i ++ u.lowerByte new i) env memory with before_eq
  -- The subtraction, whichever string is known.
  set sub : CallInstr M := .plain (if u.HasStr1
      then .binary (new + 7 + 10 * i) .sub 8 (.const (u.char c).toNat) (u.loaded new i)
      else .binary (new + 7 + 10 * i) .sub 8 (u.loaded new i) (.const (u.char c).toNat)) with sub_eq
  have defines : Instruction.defines sub = some (new + 7 + 10 * i) := by
    rw [sub_eq]
    split <;> rfl
  have run : Instruction.run sub before.1 before.2 = ((u.diff c other).toNat, before.2) := by
    rw [sub_eq, diff]
    by_cases first : u.HasStr1 = true
    · rw [if_pos first, if_pos first, CallInstr.run_plain, Instr.run_binary, loaded,
        Operand.read_const, sub_eval]
    · rw [if_neg first, if_neg first, CallInstr.run_plain, Instr.run_binary, loaded,
        Operand.read_const, sub_eval]
  set rest : List (CallInstr M) := sub :: .plain (.sext (new + 8 + 10 * i) 8 32
    (.reg (new + 7 + 10 * i))) :: (if last then []
      else [.plain (.icmp ⟨new + 9 + 10 * i, .eq, 8, .reg (new + 7 + 10 * i), .const 0⟩)])
    with rest_eq
  have whole : (u.cmpAdded (M := M) new i c last).body =
      (u.loadByte new i ++ u.lowerByte new i) ++ rest := by
    rw [rest_eq, sub_eq]
    simp [cmpAdded]
  have after_eq : after = runBody rest before.1 before.2 := by
    show runBody (u.cmpAdded new i c last).body env memory = _
    rw [whole, runBody_append]
  have small := (u.diff c other).isLt
  have zero : ((u.diff c other).toNat = 0) ↔ u.diff c other = 0 := by
    rw [← BitVec.toNat_inj]
    rfl
  rw [after_eq, rest_eq, runBody, run, defines, kept]
  cases last with
  | true =>
      refine ⟨?_, ?_, ?_, fun isFalse => absurd isFalse (by decide)⟩
      · exact ((agree.define_right (by omega) _).define_right (by omega) _)
      · rfl
      · simp [runBody, define_apply]
  | false =>
      refine ⟨?_, ?_, ?_, fun _ => ?_⟩
      · exact ((agree.define_right (by omega) _).define_right (by omega) _).define_right
          (show new ≤ new + 9 + 10 * i by omega) _
      · rfl
      · simp [runBody, define_apply]
      · simp [runBody, define_apply, IcmpPredicate.holds, Nat.mod_eq_of_lt small, zero]

/-! ## All bytes -/

/-- A block for the size goes on where the size is not reached. -/
theorem step_lenCheck {size : Operand × ℕ} (sized : u.sizedValue = some size) (c : Byte)
    (rest : List Byte) (previous : Option ℕ) (env : Registers) (memory : M) :
    ∃ env', Agree new env env' ∧
      Program.step (u.blocks (M := M) new i (c :: rest))
        (.entering (lenLabel new i) previous env memory) =
          some (.entering (if u.ends (u.size env) i then new else cmpLabel new i)
            (some (lenLabel new i)) env' memory) := by
  have holds : u.ends (u.size env) i = IcmpPredicate.eq.holds size.2 (size.1.read env) i := by
    rw [ends, Unrolling.size, sized]
  refine ⟨define env (some (new + 1 + 10 * i)) (u.ends (u.size env) i).toNat,
    (Agree.refl new env).define_right (by omega) _, ?_⟩
  have value : ∀ result : Bool, define env (some (new + 1 + 10 * i)) result.toNat
      (new + 1 + 10 * i) = result.toNat := fun _ => if_pos rfl
  rw [Program.step_of_block (block_lenCheck sized), holds]
  exact congrArg some (leave_condBr _ (value _) _ _ _ _)

/-- A block for a byte goes on where there is no difference. -/
theorem step_cmpAdded (c : Byte) (rest : List Byte) (previous : Option ℕ) (env : Registers)
    (memory : M) :
    let other := otherByte memory (u.VarStr.read env) i
    ∃ env', Agree new env env' ∧
      env' (new + 8 + 10 * i) = ((u.diff c other).signExtend 32).toNat ∧
      Program.step (u.blocks (M := M) new i (c :: rest))
        (.entering (cmpLabel new i) previous env memory) =
          some (.entering (if rest ≠ [] ∧ u.diff c other = 0 then u.entry new (i + 1) else new)
            (some (cmpLabel new i)) env' memory) := by
  intro other
  obtain ⟨agree, kept, value, condition⟩ :=
    run_cmpAdded u new i c rest.isEmpty env memory
  refine ⟨_, agree, value, ?_⟩
  rw [Program.step_of_block block_cmpAdded]
  show some (leave (cmpLabel new i) (runBody (u.cmpAdded new i c rest.isEmpty).body env memory).1
    (runBody (u.cmpAdded new i c rest.isEmpty).body env memory).2
    (u.cmpAdded new i c rest.isEmpty).term) = _
  rw [kept]
  cases rest with
  | nil => rfl
  | cons next rest =>
      rw [show (u.cmpAdded (M := M) new i c (next :: rest).isEmpty).term =
        .condBr (.reg (new + 9 + 10 * i)) (u.entry new (i + 1)) new from rfl,
        leave_condBr _ (condition rfl)]
      simp [other]

theorem ends_congr {env env' : Registers} (reads : u.Reads new) (agree : Agree new env env') :
    u.size env' = u.size env ∧ u.VarStr.read env' = u.VarStr.read env := by
  refine ⟨?_, (agree.read reads.VarStr).symm⟩
  cases sized : u.sizedValue with
  | none => simp only [Unrolling.size, sized]
  | some size =>
      simp only [Unrolling.size, sized]
      exact (agree.read (reads.size size.1 size.2 sized)).symm

/-- The phi node reads for a later block what it reads in the entries of the later blocks. -/
theorem value_later {c : Byte} {rest : List Byte} {came : ℕ} (later : new + 1 + 10 * (i + 1) ≤ came)
    (env : Registers) :
    (Phi.mk u.dest (u.incoming new i (c :: rest))).value (some came) env =
      (Phi.mk u.dest (u.incoming new (i + 1) rest)).value (some came) env := by
  have notCmp : cmpLabel new i ≠ came := by
    simp only [cmpLabel]
    omega
  have notLen : lenLabel new i ≠ came := by
    simp only [lenLabel]
    omega
  rw [incoming]
  cases u.sizedValue with
  | none => exact (Phi.value_cons _ _ _ _ _ _).trans (if_neg notCmp)
  | some size =>
      refine (Phi.value_cons _ _ _ _ _ _).trans ((if_neg notLen).trans ?_)
      exact (Phi.value_cons _ _ _ _ _ _).trans (if_neg notCmp)

theorem value_cmpLabel (c : Byte) (rest : List Byte) (env : Registers) :
    (Phi.mk u.dest (u.incoming new i (c :: rest))).value (some (cmpLabel new i)) env =
      env (new + 8 + 10 * i) := by
  have notLen : lenLabel new i ≠ cmpLabel new i := by
    simp only [lenLabel, cmpLabel]
    omega
  rw [incoming]
  cases u.sizedValue with
  | none => exact (Phi.value_cons _ _ _ _ _ _).trans (if_pos rfl)
  | some size =>
      refine (Phi.value_cons _ _ _ _ _ _).trans ((if_neg notLen).trans ?_)
      exact (Phi.value_cons _ _ _ _ _ _).trans (if_pos rfl)

theorem value_lenLabel {size : Operand × ℕ} (sized : u.sizedValue = some size) (c : Byte)
    (rest : List Byte) (env : Registers) :
    (Phi.mk u.dest (u.incoming new i (c :: rest))).value (some (lenLabel new i)) env = 0 := by
  rw [incoming, sized]
  exact (Phi.value_cons _ _ _ _ _ _).trans (if_pos rfl)

/-- Where a run comes out of the blocks from a byte on, and what the phi node reads there. -/
def Comes (u : Unrolling) (new i : ℕ) (chars : List Byte) (env : Registers) (memory : M)
    (run : Run M) : Prop :=
  ∃ came env', Program.Reaches (u.blocks (M := M) new i chars) run
      (.entering new (some came) env' memory) ∧
    Agree new env env' ∧ new + 1 + 10 * i ≤ came ∧
    (Phi.mk u.dest (u.incoming new i chars)).value (some came) env' =
      u.cascade (otherByte memory (u.VarStr.read env)) (u.size env) i chars

/-- From the block for a byte on, where the later blocks do what they should. -/
theorem comes_cmpLabel (reads : u.Reads new) (c : Byte) (rest : List Byte)
    (later : rest ≠ [] → ∀ (previous : Option ℕ) (env : Registers) (memory : M),
      u.Comes new (i + 1) rest env memory (.entering (u.entry new (i + 1)) previous env memory))
    (previous : Option ℕ) (env : Registers) (memory : M) (goes : u.ends (u.size env) i = false) :
    u.Comes new i (c :: rest) env memory (.entering (cmpLabel new i) previous env memory) := by
  obtain ⟨env1, agree, value, step⟩ := step_cmpAdded c rest previous env memory (i := i) (u := u)
  rw [Comes, cascade, goes, if_neg Bool.false_ne_true]
  by_cases next : rest ≠ [] ∧ u.diff c (otherByte memory (u.VarStr.read env) i) = 0
  · rw [if_pos next] at step
    obtain ⟨came, env', path, agree', above, result⟩ :=
      later next.1 (some (cmpLabel new i)) env1 memory
    obtain ⟨size, pointer⟩ := ends_congr reads agree
    refine ⟨came, env', .head step (Program.reaches_of_blocks block_later path),
      agree.trans agree', by omega, ?_⟩
    rw [value_later above, result, if_pos next.2, size, pointer]
  · rw [if_neg next] at step
    refine ⟨cmpLabel new i, env1, .single step, agree, by simp only [cmpLabel]; omega, ?_⟩
    rw [value_cmpLabel, value]
    by_cases same : u.diff c (otherByte memory (u.VarStr.read env) i) = 0
    · have last : rest = [] := by
        by_contra more
        exact next ⟨more, same⟩
      rw [if_pos same, same, last]
      rfl
    · rw [if_neg same]

/-- The blocks for the bytes from one on lead to the second half, with the first difference. The
induction is on these bytes. -/
theorem comes_entry (reads : u.Reads new) {chars : List Byte} (nonempty : chars ≠ []) (i : ℕ)
    (previous : Option ℕ) (env : Registers) (memory : M) :
    u.Comes new i chars env memory (.entering (u.entry new i) previous env memory) := by
  induction chars generalizing i previous env memory with
  | nil => exact absurd rfl nonempty
  | cons c rest ih =>
      have cmp := comes_cmpLabel (i := i) reads c rest fun more previous env memory =>
        ih more (i + 1) previous env memory
      cases sized : u.sizedValue with
      | none =>
          have goes : u.ends (u.size env) i = false := by rw [ends, sized]
          rw [entry, sized]
          exact cmp previous env memory goes
      | some size =>
          obtain ⟨env1, agree, step⟩ := step_lenCheck (i := i) sized c rest previous env memory
          rw [entry, sized]
          cases reached : u.ends (u.size env) i with
          | true =>
              rw [reached, if_pos rfl] at step
              refine ⟨lenLabel new i, env1, .single step, agree, Nat.le_refl _, ?_⟩
              rw [value_lenLabel sized, cascade, reached, if_pos rfl]
          | false =>
              rw [reached, if_neg Bool.false_ne_true] at step
              obtain ⟨size', pointer⟩ := ends_congr reads agree
              obtain ⟨came, env', path, agree', above, result⟩ :=
                cmp (some (lenLabel new i)) env1 memory (size'.symm ▸ reached)
              refine ⟨came, env', .head step path, agree.trans agree', above, ?_⟩
              rw [result, size', pointer]

end OneByte

/-! ## The region -/

section WholeRegion

variable {u : Unrolling} {new label : ℕ}

/-- An instruction that the pass adds: it has a new register, and calls at most `tolower`. -/
def Added (new : ℕ) (j : CallInstr M) : Prop :=
  (∀ dest ∈ Instruction.defines j, new ≤ dest) ∧ ∀ made, j = .call made → made.callee = "tolower"

theorem added_plain {j : Instr M} {number : ℕ} (defines : Instruction.defines j = some number)
    (above : new ≤ number) : Added new (.plain j) := by
  refine ⟨fun dest isDest => ?_, fun made same => absurd same (by simp)⟩
  rw [CallInstr.defines_plain, defines] at isDest
  exact Option.some.inj isDest ▸ above

variable [ByteMemory M]

theorem fresh_region : (u.region (M := M) new).Fresh new where
  front _ member := absurd member List.not_mem_nil
  middle b member := by
    have := le_label u.chars 0 b member
    omega
  bottom := Nat.le_refl _
  distinct := by
    refine (nodup_labels u.chars 0).append (List.nodup_singleton _) fun other inside isBottom => ?_
    obtain ⟨b, member, rfl⟩ := List.mem_map.mp inside
    have := le_label u.chars 0 b member
    rw [List.mem_singleton.mp isBottom] at this
    simp only [region] at this
    omega

theorem added_blocks (chars : List Byte) (i : ℕ) :
    ∀ b ∈ u.blocks (M := M) new i chars, ∀ j ∈ b.body, Added new j := by
  induction chars generalizing i with
  | nil => exact fun _ member => absurd member List.not_mem_nil
  | cons c rest ih =>
      intro b member j inBody
      rw [blocks] at member
      rcases List.mem_append.mp member with isLen | later
      · obtain ⟨size, _, rfl⟩ := Option.map_eq_some_iff.mp (Option.mem_toList.mp isLen)
        rw [List.mem_singleton.mp inBody]
        exact added_plain rfl (show new ≤ new + 1 + 10 * i by omega)
      · rcases List.mem_cons.mp later with rfl | inRest
        · simp only [cmpAdded, loadByte, lowerByte, List.mem_append, List.mem_cons,
            List.not_mem_nil, or_false] at inBody
          rcases inBody with ((isLoad | isLower) | isSub | rfl) | isTest
          · rcases isLoad with rfl | rfl
            · exact added_plain rfl (by omega)
            · exact added_plain rfl (by omega)
          · split at isLower
            · simp only [List.mem_cons, List.not_mem_nil, or_false] at isLower
              rcases isLower with rfl | rfl | rfl
              · exact added_plain rfl (by omega)
              · refine ⟨fun dest isDest => ?_, fun made same => ?_⟩
                · rw [CallInstr.defines_call] at isDest
                  rw [← Option.some.inj isDest]
                  omega
                · rw [← CallInstr.call.inj same]
                  rfl
              · exact added_plain rfl (by omega)
            · exact absurd isLower List.not_mem_nil
          · rw [isSub]
            split
            · exact added_plain rfl (by omega)
            · exact added_plain rfl (by omega)
          · exact added_plain rfl (by omega)
          · split at isTest
            · exact absurd isTest List.not_mem_nil
            · rw [List.mem_singleton.mp isTest]
              exact added_plain rfl (show new ≤ new + 9 + 10 * i by omega)
        · exact ih (i + 1) b inRest j inBody

theorem added_region : ∀ j ∈ (u.region (M := M) new).bodies, Added new j := by
  intro j inside
  rcases List.mem_append.mp inside with inFront | inMiddle
  · exact absurd inFront List.not_mem_nil
  · obtain ⟨b, member, inBody⟩ := List.mem_flatMap.mp inMiddle
    exact added_blocks u.chars 0 b member j inBody

/-- An instruction with the value of the cascade, and no effect. -/
theorem computes_region (reads : u.Reads new) (nonempty : u.chars ≠ []) {i : CallInstr M}
    (run : ∀ env memory, Instruction.run i env memory =
      (u.cascade (otherByte memory (u.VarStr.read env)) (u.size env) 0 u.chars, memory)) :
    (u.region new).Computes new label i := by
  intro env memory
  obtain ⟨came, env', path, agree, _, result⟩ :=
    comes_entry reads nonempty 0 (some label) env memory
  rw [run]
  exact ⟨came, env', path, agree, result⟩

end WholeRegion

end Unrolling

end GreenFuzz.Instrumentation
