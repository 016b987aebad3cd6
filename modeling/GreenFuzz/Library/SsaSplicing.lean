import GreenFuzz.Library.SsaPrograms

/-!
# Replacing an instruction by blocks

A compiler pass that expands one instruction into control flow splits the block before the
instruction. The first half gets new instructions and a new terminator, new blocks go between the
halves, and a phi node at the head of the second half takes the place of the instruction. The phi
nodes of the successors, which named the block, name its second half.

Where the new blocks use new registers and labels only, and lead from the end of the first half to
the second half with the value of the instruction in the phi node (`Region.Computes`), the program
has the meaning it had (`meaning_splice`). The pass has to prove that of its own blocks and nothing
about the rest of the program.
-/

set_option autoImplicit false

namespace GreenFuzz.Library

open StateTransition

section Splicing

variable {I : Type*}

/-! ## The operations of a pass on the blocks -/

/-- The phi node with one predecessor renamed. -/
def Phi.retarget (old new : ℕ) (phi : Phi) : Phi :=
  { phi with incoming :=
      phi.incoming.map fun entry => (entry.1, if entry.2 = old then new else entry.2) }

def Block.retarget (old new : ℕ) (b : Block I) : Block I :=
  { b with phis := b.phis.map (Phi.retarget old new) }

/-- The phi nodes of the given blocks with one predecessor renamed. -/
def Program.retarget (P : Program I) (targets : List ℕ) (old new : ℕ) : Program I :=
  P.map fun b => if b.label ∈ targets then b.retarget old new else b

/-- The program with blocks in the place of one. -/
def Program.replaceBlock (P : Program I) (label : ℕ) (blocks : List (Block I)) : Program I :=
  P.flatMap fun b => if b.label = label then blocks else [b]

/-- What takes the place of an instruction: what the first half of the block ends with, the blocks
between the halves, the label of the second half and its phi node. -/
structure Region (I : Type*) where
  front : List I
  exit : Terminator
  middle : List (Block I)
  bottom : ℕ
  result : Phi

/-- The two halves of the block and what stands between them. -/
def Region.blocks (r : Region I) (b : Block I) (before after : List I) : List (Block I) :=
  { b with body := before ++ r.front, term := r.exit } ::
    (r.middle ++ [⟨r.bottom, [r.result], after, b.term⟩])

/-- The program with the region in the place of the instruction between `before` and `after`. -/
def Program.splice (P : Program I) (b : Block I) (before after : List I) (r : Region I) :
    Program I :=
  (P.replaceBlock b.label (r.blocks b before after)).retarget b.term.targets b.label r.bottom

/-! ## Where the blocks are found -/

variable {P : Program I} {b : Block I}

theorem Program.block_retarget (targets : List ℕ) (old new label : ℕ) :
    (P.retarget targets old new).block label =
      (P.block label).map fun b => if b.label ∈ targets then b.retarget old new else b := by
  have label_kept : ∀ b : Block I,
      (if b.label ∈ targets then b.retarget old new else b).label = b.label := by
    intro b
    split <;> rfl
  simp only [Program.block, Program.retarget, List.find?_map, Function.comp_def, label_kept]

/-- A label that is not among the new blocks is found where it was. -/
theorem Program.block_replaceBlock_other {label other : ℕ} {blocks : List (Block I)}
    (differs : other ≠ label) (absent : ∀ block ∈ blocks, block.label ≠ other) :
    (P.replaceBlock label blocks).block other = P.block other := by
  induction P with
  | nil => rfl
  | cons first rest ih =>
      have ih' : (rest.flatMap fun b => if b.label = label then blocks else [b]).find?
          (fun b => b.label = other) = rest.find? fun b => b.label = other := ih
      rw [Program.block, Program.replaceBlock, List.flatMap_cons, List.find?_append, ih',
        Program.block, List.find?_cons]
      by_cases here : first.label = label
      · have none_here : blocks.find? (fun b => b.label = other) = none :=
          List.find?_eq_none.mpr fun block member => by simpa using absent block member
        have not_first : ¬ first.label = other := fun same => differs (same.symm.trans here)
        simp [here, none_here, Ne.symm differs]
      · rw [if_neg here, List.find?_singleton]
        by_cases found : first.label = other <;> simp [found]

/-- A label of the new blocks that no other block has is found among them. -/
theorem Program.block_replaceBlock_new {label new : ℕ} {blocks : List (Block I)} {block : Block I}
    (present : ∃ b ∈ P, b.label = label)
    (found : blocks.find? (fun b => b.label = new) = some block)
    (unused : ∀ b ∈ P, b.label = new → b.label = label) :
    (P.replaceBlock label blocks).block new = some block := by
  induction P with
  | nil =>
      obtain ⟨_, member, _⟩ := present
      exact absurd member List.not_mem_nil
  | cons first rest ih =>
      rw [Program.block, Program.replaceBlock, List.flatMap_cons, List.find?_append]
      by_cases here : first.label = label
      · simp [here, found]
      · have not_first : ¬ first.label = new :=
          fun same => here (unused first List.mem_cons_self same)
        have later : ∃ b ∈ rest, b.label = label := by
          obtain ⟨b, member, same⟩ := present
          rcases List.mem_cons.mp member with rfl | inRest
          · exact absurd same here
          · exact ⟨b, inRest, same⟩
        have := ih later fun b member => unused b (List.mem_cons_of_mem _ member)
        rw [Program.block, Program.replaceBlock] at this
        simp [here, not_first, this]

end Splicing

section Meaning

variable {I M : Type*} [Instruction I M] {P : Program I} {b : Block I}

/-! ## Blocks that are related -/

/-- The label a successor sees, after the block was split. -/
def renamed (old new : ℕ) (previous : Option ℕ) : Option ℕ :=
  previous.map fun label => if label = old then new else label

theorem Phi.value_retarget {old new : ℕ} {phi : Phi} {previous : Option ℕ} (env : Registers)
    (unused : ∀ entry ∈ phi.incoming, entry.2 ≠ new) (came : previous ≠ some new) :
    (phi.retarget old new).value (renamed old new previous) env = phi.value previous env := by
  have same : ∀ entry ∈ phi.incoming,
      (some (if entry.2 = old then new else entry.2) = renamed old new previous ↔
        some entry.2 = previous) := by
    intro entry member
    have entry_old := unused entry member
    cases previous with
    | none => simp [renamed]
    | some label =>
        have label_old : label ≠ new := fun same => came (congrArg some same)
        simp only [renamed, Option.map_some, Option.some.injEq]
        split <;> split <;> omega
  have found : (phi.incoming.find? fun entry =>
        some (if entry.2 = old then new else entry.2) = renamed old new previous) =
      phi.incoming.find? fun entry => some entry.2 = previous := by
    have : ∀ entries : List (Operand × ℕ), (∀ entry ∈ entries,
        (some (if entry.2 = old then new else entry.2) = renamed old new previous ↔
          some entry.2 = previous)) →
        (entries.find? fun entry =>
          some (if entry.2 = old then new else entry.2) = renamed old new previous) =
        entries.find? fun entry => some entry.2 = previous := by
      intro entries
      induction entries with
      | nil => exact fun _ => rfl
      | cons first rest ih =>
          intro agree
          simp only [List.find?_cons, decide_eq_decide.mpr (agree first List.mem_cons_self),
            ih fun entry member => agree entry (List.mem_cons_of_mem _ member)]
    exact this _ same
  rw [Phi.value, Phi.value, Phi.retarget, List.find?_map, Function.comp_def, found]
  cases phi.incoming.find? fun entry => some entry.2 = previous <;> rfl

/-- A phi node reads old registers only. -/
theorem Agree.phiValue {bound : ℕ} {env env' : Registers} (agree : Agree bound env env') {phi : Phi}
    (below : ∀ number ∈ phi.numbers, number < bound) (previous : Option ℕ) :
    phi.value previous env = phi.value previous env' := by
  rw [Phi.value, Phi.value]
  cases found : phi.incoming.find? fun entry => some entry.2 = previous with
  | none => rfl
  | some entry =>
      refine agree.read fun name used => below name (List.mem_cons_of_mem _ ?_)
      exact List.mem_flatMap.mpr
        ⟨entry, List.mem_of_find?_eq_some found, List.mem_cons_of_mem _ used⟩

/-- Phi nodes that define the same registers with the same values. -/
theorem Agree.runPhis {bound : ℕ} {env env' : Registers} (agree : Agree bound env env')
    {phis : List Phi} {previous previous' : Option ℕ} (change : Phi → Phi)
    (dest : ∀ phi, (change phi).dest = phi.dest)
    (value : ∀ phi ∈ phis, phi.value previous env = (change phi).value previous' env') :
    Agree bound (runPhis phis previous env)
      (Library.runPhis (phis.map change) previous' env') := by
  intro name below
  simp only [Library.runPhis, List.find?_map, Function.comp_def, dest]
  cases found : phis.find? fun phi => phi.dest = name with
  | none => exact agree name below
  | some phi => exact value phi (List.mem_of_find?_eq_some found)

/-- A block ends the same way for registers that agree. -/
theorem Agree.leave {bound : ℕ} {env env' : Registers} (agree : Agree bound env env')
    {term : Terminator} (below : ∀ name ∈ term.names, name < bound) (label label' : ℕ)
    (memory : M) :
    (∃ outcome, leave label env memory term = .ended outcome ∧
        Library.leave label' env' memory term = .ended outcome) ∨
      ∃ target ∈ term.targets, leave label env memory term =
          .entering target (some label) env memory ∧
        Library.leave label' env' memory term = .entering target (some label') env' memory := by
  cases term with
  | br target => exact .inr ⟨target, List.mem_singleton_self target, rfl, rfl⟩
  | condBr condition onTrue onFalse =>
      refine .inr ⟨if condition.read env % 2 = 1 then onTrue else onFalse, ?_, rfl, ?_⟩
      · rw [Terminator.targets]
        split <;> simp
      · rw [Library.leave, agree.read below]
  | switch width value default cases =>
      have same : value.read env = value.read env' := agree.read below
      simp only [Library.leave, same]
      cases found : cases.find? fun case =>
          case.1 % 2 ^ width = value.read env' % 2 ^ width with
      | none => exact .inr ⟨default, List.mem_cons_self, rfl, rfl⟩
      | some case =>
          refine .inr ⟨case.2, List.mem_cons_of_mem _ ?_, rfl, rfl⟩
          exact List.mem_map_of_mem (List.mem_of_find?_eq_some found)
  | ret value =>
      refine .inl ⟨_, rfl, ?_⟩
      cases value with
      | none => rfl
      | some op => simp only [Library.leave, Option.map_some, agree.read below]

/-! ## Regions that compute an instruction -/

/-- The registers and labels of the region are new, and its labels differ. -/
structure Region.Fresh (r : Region I) (bound : ℕ) : Prop where
  front : ∀ i ∈ r.front, ∀ dest ∈ Instruction.defines i, bound ≤ dest
  middle : ∀ block ∈ r.middle, bound ≤ block.label
  bottom : bound ≤ r.bottom
  distinct : ((r.middle.map Block.label) ++ [r.bottom]).Nodup

/-- From the end of the first half, the blocks of the region lead to the second half, where the phi
node has the value of the instruction and the old registers are as they were. -/
def Region.Computes (r : Region I) (bound label : ℕ) (i : I) : Prop :=
  ∀ (env : Registers) (memory : M), ∃ (came : ℕ) (env' : Registers),
    Program.Reaches r.middle
        (leave label (runBody r.front env memory).1 (runBody r.front env memory).2 r.exit)
        (.entering r.bottom (some came) env' (Instruction.run i env memory).2) ∧
      Agree bound env env' ∧ r.result.value (some came) env' = (Instruction.run i env memory).1

section Lookup

variable {r : Region I} (before after : List I)

theorem Program.block_lt_bound {label : ℕ} {block : Block I} (found : P.block label = some block) :
    label < P.bound :=
  Program.label_of_block found ▸ Program.lt_bound (Program.mem_of_block found) List.mem_cons_self

/-- The targets of a block are old labels. -/
theorem Program.target_lt_bound (member : b ∈ P) {target : ℕ} (mem : target ∈ b.term.targets) :
    target < P.bound :=
  Program.lt_bound member
    (List.mem_cons_of_mem _ (List.mem_append_right _ (List.mem_append_left _ mem)))

theorem Program.block_splice_top (found : P.block b.label = some b) :
    (P.splice b before after r).block b.label =
      some (if b.label ∈ b.term.targets
        then Block.retarget b.label r.bottom { b with body := before ++ r.front, term := r.exit }
        else { b with body := before ++ r.front, term := r.exit }) := by
  have first : (r.blocks b before after).find? (fun block => block.label = b.label) =
      some { b with body := before ++ r.front, term := r.exit } :=
    List.find?_cons_of_pos (by simp)
  rw [Program.splice, Program.block_retarget, Program.block_replaceBlock_new
    ⟨b, Program.mem_of_block found, rfl⟩ first fun _ _ same => same, Option.map_some]

/-- The blocks between the halves and the second half are found as they were made. -/
theorem Program.block_splice_new (found : P.block b.label = some b) (fresh : r.Fresh P.bound)
    {block : Block I}
    (member : block ∈ r.middle ++ [Block.mk r.bottom [r.result] after b.term]) :
    (P.splice b before after r).block block.label = some block := by
  have labels : (r.middle ++ [Block.mk r.bottom [r.result] after b.term]).map Block.label =
      r.middle.map Block.label ++ [r.bottom] := by simp
  have new : P.bound ≤ block.label := by
    rcases List.mem_append.mp member with between | last
    · exact fresh.middle block between
    · rw [List.mem_singleton.mp last]
      exact fresh.bottom
  have old := Program.block_lt_bound found
  have first : ¬ b.label = block.label := by omega
  have found_among : ∀ blocks : List (Block I), (blocks.map Block.label).Nodup → block ∈ blocks →
      blocks.find? (fun other => other.label = block.label) = some block := by
    intro blocks distinct inside
    induction blocks with
    | nil => exact absurd inside List.not_mem_nil
    | cons other rest ih =>
        rcases List.mem_cons.mp inside with rfl | later
        · exact List.find?_cons_of_pos (by simp)
        · have differs : other.label ≠ block.label := by
            intro same
            exact (List.nodup_cons.mp distinct).1 (same ▸ List.mem_map_of_mem later)
          rw [List.find?_cons_of_neg (by simpa using differs)]
          exact ih (List.nodup_cons.mp distinct).2 later
  have among := found_among _ (labels ▸ fresh.distinct) member
  have among_all : (r.blocks b before after).find? (fun other => other.label = block.label) =
      some block := by
    rw [Region.blocks, List.find?_cons_of_neg (by simpa using first)]
    exact among
  have not_target : block.label ∉ b.term.targets := fun inside => by
    have := Program.target_lt_bound (Program.mem_of_block found) inside
    omega
  rw [Program.splice, Program.block_retarget, Program.block_replaceBlock_new
    ⟨b, Program.mem_of_block found, rfl⟩ among_all ?_, Option.map_some, if_neg not_target]
  intro other inside same
  have : other.label < P.bound := Program.lt_bound inside List.mem_cons_self
  omega

theorem Program.block_splice_other (fresh : r.Fresh P.bound) {label : ℕ} (old : label < P.bound)
    (differs : label ≠ b.label) :
    (P.splice b before after r).block label = (P.block label).map fun block =>
      if block.label ∈ b.term.targets then block.retarget b.label r.bottom else block := by
  rw [Program.splice, Program.block_retarget, Program.block_replaceBlock_other differs]
  intro block member
  rcases List.mem_cons.mp member with rfl | later
  · exact Ne.symm differs
  · have new : P.bound ≤ block.label := by
      rcases List.mem_append.mp later with between | last
      · exact fresh.middle block between
      · rw [List.mem_singleton.mp last]
        exact fresh.bottom
    omega

end Lookup

/-! ## The run of the program with the region -/

/-- A run of the program and one of the spliced program stand before the same block, with the same
old registers, or are over with the same outcome. A block that was entered from the split block is
now entered from its second half. -/
inductive Follows (P : Program I) (b : Block I) (bottom : ℕ) : Run M → Run M → Prop where
  | entering {label : ℕ} {previous : Option ℕ} {env env' : Registers} {memory : M}
      (old : label < P.bound) (came : ∀ label ∈ previous, label < P.bound)
      (successor : previous = some b.label → label ∈ b.term.targets)
      (agree : Agree P.bound env env') :
      Follows P b bottom (.entering label previous env memory)
        (.entering label (renamed b.label bottom previous) env' memory)
  | ended (outcome : Outcome M) : Follows P b bottom (.ended outcome) (.ended outcome)

theorem runPhis_singleton (phi : Phi) (previous : Option ℕ) (env : Registers) :
    runPhis [phi] previous env = define env (some phi.dest) (phi.value previous env) := by
  funext name
  by_cases same : phi.dest = name
  · simp [runPhis, define, same]
  · simp [runPhis, define, same]

section

variable {r : Region I} {before after : List I}

variable {label : ℕ} {block : Block I} {previous : Option ℕ} {env env' : Registers} {memory : M}

/-- The phi nodes of a block read the same after the split, for a run that follows. -/
theorem agree_phis {bottom label : ℕ} (new : P.bound ≤ bottom) (member : block ∈ P)
    (came : ∀ label ∈ previous, label < P.bound)
    (successor : previous = some b.label → label ∈ b.term.targets)
    (agree : Agree P.bound env env') :
    Agree P.bound (runPhis block.phis previous env)
      (runPhis (if label ∈ b.term.targets then block.phis.map (Phi.retarget b.label bottom)
        else block.phis) (renamed b.label bottom previous) env') := by
  have numbers : ∀ phi ∈ block.phis, ∀ number ∈ phi.numbers, number < P.bound :=
    fun phi inside number mem => Program.lt_bound member (List.mem_cons_of_mem _
      (List.mem_append_left _ (List.mem_append_left _ (List.mem_flatMap.mpr ⟨phi, inside, mem⟩))))
  split
  · refine agree.runPhis (Phi.retarget b.label bottom) (fun _ => rfl) fun phi inside => ?_
    have unused : ∀ entry ∈ phi.incoming, entry.2 ≠ bottom := by
      intro entry mem
      have := numbers phi inside entry.2 (List.mem_cons_of_mem _
        (List.mem_flatMap.mpr ⟨entry, mem, List.mem_cons_self⟩))
      omega
    have not_new : previous ≠ some bottom := by
      intro same
      have := came bottom (same ▸ rfl)
      omega
    rw [Phi.value_retarget env' unused not_new]
    exact agree.phiValue (numbers phi inside) previous
  · rename_i not_target
    have not_split : renamed b.label bottom previous = previous := by
      cases previous with
      | none => rfl
      | some label' =>
          have : label' ≠ b.label := fun same => not_target (successor (congrArg some same))
          rw [renamed, Option.map_some, if_neg this]
    rw [not_split]
    have kept : Agree P.bound (runPhis block.phis previous env)
        (runPhis (block.phis.map id) previous env') :=
      agree.runPhis id (fun _ => rfl) fun phi inside => agree.phiValue (numbers phi inside) previous
    rwa [List.map_id] at kept

/-- A path through the blocks of the region is a path of the spliced program. -/
theorem reaches_splice (found : P.block b.label = some b) (fresh : r.Fresh P.bound) {run : Run M}
    {env : Registers} (path : Program.Reaches r.middle run (.entering label previous env memory)) :
    (P.splice b before after r).Reaches run (.entering label previous env memory) := by
  refine Program.reaches_of_blocks (fun label' block inside => ?_) path
  rw [← Program.label_of_block inside]
  exact Program.block_splice_new before after found fresh
    (List.mem_append_left _ (Program.mem_of_block inside))

/-- A run that follows keeps following where both leave a block. -/
theorem Follows.leave {bottom : ℕ} (member : block ∈ P) (agree : Agree P.bound env env')
    (memory : M) (label' : label = if block.label = b.label then bottom else block.label)
    (same : block.label = b.label → block.term = b.term) :
    Follows P b bottom (Library.leave block.label env memory block.term)
      (Library.leave label env' memory block.term) := by
  have names : ∀ name ∈ block.term.names, name < P.bound := fun name mem =>
    Program.lt_bound member
      (List.mem_cons_of_mem _ (List.mem_append_right _ (List.mem_append_right _ mem)))
  rcases agree.leave names block.label label memory with
    ⟨outcome, left, right⟩ | ⟨target, inside, left, right⟩
  · rw [left, right]
    exact .ended outcome
  · have came : some label = renamed b.label bottom (some block.label) := by
      rw [renamed, Option.map_some, label']
    rw [left, right, came]
    refine .entering (Program.target_lt_bound member inside) ?_ ?_ agree
    · intro other mem
      rw [← Option.some.inj (Option.mem_def.mp mem)]
      exact Program.lt_bound member List.mem_cons_self
    · intro split
      exact same (Option.some.inj split) ▸ inside

/-- Through a block that was not split, a run that follows takes one step. -/
theorem Follows.through_other {bottom label : ℕ} (new : P.bound ≤ bottom) (member : block ∈ P)
    (differs : block.label ≠ b.label) (labelled : block.label = label)
    (came : ∀ label ∈ previous, label < P.bound)
    (successor : previous = some b.label → label ∈ b.term.targets)
    (agree : Agree P.bound env env') :
    Follows P b bottom (block.run previous env memory)
      ((if block.label ∈ b.term.targets then block.retarget b.label bottom else block).run
        (renamed b.label bottom previous) env' memory) := by
  subst labelled
  have phis := agree_phis new member came successor agree
  have body := phis.runBody block.body (fun number mem =>
    Program.lt_bound member (List.mem_cons_of_mem _ (List.mem_append_left _
      (List.mem_append_right _ mem)))) memory
  have changed : (if block.label ∈ b.term.targets then block.retarget b.label bottom else block) =
      { block with phis := if block.label ∈ b.term.targets
          then block.phis.map (Phi.retarget b.label bottom) else block.phis } := by
    split <;> rfl
  rw [changed, Block.run, Block.run, body.2]
  exact Follows.leave member body.1 _ (if_neg differs).symm fun same => absurd same differs

/-- The entry block keeps its place. -/
theorem follows_start (before after : List I) (r : Region I) (found : P.block b.label = some b)
    (env : Registers) (memory : M) :
    Follows P b r.bottom (P.start env memory) ((P.splice b before after r).start env memory) := by
  cases P with
  | nil => exact absurd found (by simp [Program.block])
  | cons entry rest =>
      have labels : ((Program.splice (entry :: rest) b before after r).head?).map Block.label =
          some entry.label := by
        rw [Program.splice, Program.retarget, Program.replaceBlock, List.flatMap_cons]
        by_cases here : entry.label = b.label
        · rw [if_pos here, Region.blocks, List.cons_append, List.map_cons, List.head?_cons,
            Option.map_some, here]
          split <;> rfl
        · rw [if_neg here, List.singleton_append, List.map_cons, List.head?_cons,
            Option.map_some]
          split <;> rfl
      obtain ⟨first, head, label⟩ := Option.map_eq_some_iff.mp labels
      have start : (Program.splice (entry :: rest) b before after r).start env memory =
          .entering entry.label (renamed b.label r.bottom none) env memory := by
        rw [Program.start, head, ← label]
        rfl
      rw [start]
      refine .entering ?_ (fun _ mem => ?_) (fun same => ?_) (.refl _ _)
      · exact Program.lt_bound (P := entry :: rest) List.mem_cons_self List.mem_cons_self
      · exact absurd mem (Option.not_mem_none _)
      · exact absurd same.symm (Option.some_ne_none _)

variable {i : I} {dest : ℕ} (fresh : r.Fresh P.bound) (found : P.block b.label = some b)
  (split : b.body = before ++ i :: after) (defines : Instruction.defines i = some dest)
  (result : r.result.dest = dest) (computes : r.Computes P.bound b.label i)

include fresh found split defines result computes

/-- Through the block that was split, a run that follows goes through the first half, the region
and the second half. -/
theorem Follows.through_split (came : ∀ label ∈ previous, label < P.bound)
    (successor : previous = some b.label → b.label ∈ b.term.targets)
    (agree : Agree P.bound env env') :
    ∃ later, Follows P b r.bottom (b.run previous env memory) later ∧
      Reaches₁ (P.splice b before after r).step
        (.entering b.label (renamed b.label r.bottom previous) env' memory) later := by
  have member := Program.mem_of_block found
  have body_below : ∀ number ∈ b.body.flatMap instructionNumbers, number < P.bound :=
    fun number mem => Program.lt_bound member (List.mem_cons_of_mem _ (List.mem_append_left _
      (List.mem_append_right _ mem)))
  rw [split, List.flatMap_append, List.flatMap_cons] at body_below
  -- The phi nodes and what stands before the instruction.
  have phis := agree_phis fresh.bottom member came successor agree
  set phisAfter := if b.label ∈ b.term.targets
    then b.phis.map (Phi.retarget b.label r.bottom) else b.phis with phisAfter_eq
  obtain ⟨agreeBefore, memoryBefore⟩ := phis.runBody before
    (fun number mem => body_below number (List.mem_append_left _ mem)) memory
  set first := runBody before (runPhis b.phis previous env) memory with first_eq
  set second := runBody before
    (runPhis phisAfter (renamed b.label r.bottom previous) env') memory with second_eq
  -- The region and the phi node give the second half the result of the instruction.
  obtain ⟨last, env'', path, kept, value⟩ := computes second.1 second.2
  have sameRun : Instruction.run i first.1 first.2 = Instruction.run i second.1 second.2 := by
    rw [memoryBefore]
    exact agreeBefore.run (fun number mem => body_below number
      (List.mem_append_right _ (List.mem_append_left _ mem))) _
  have agreeResult : Agree P.bound
      (define first.1 (some dest) (Instruction.run i first.1 first.2).1)
      (runPhis [r.result] (some last) env'') := by
    rw [runPhis_singleton, result, value, sameRun]
    exact (agreeBefore.trans kept).define _ _
  obtain ⟨agreeAfter, memoryAfter⟩ := agreeResult.runBody after
    (fun number mem => body_below number
      (List.mem_append_right _ (List.mem_append_right _ mem)))
    (Instruction.run i second.1 second.2).2
  have whole : b.run previous env memory = Library.leave b.label
      (runBody after (define first.1 (some dest) (Instruction.run i first.1 first.2).1)
        (Instruction.run i second.1 second.2).2).1
      (runBody after (define first.1 (some dest) (Instruction.run i first.1 first.2).1)
        (Instruction.run i second.1 second.2).2).2 b.term := by
    rw [Block.run, split, runBody_append, ← first_eq, runBody, defines, sameRun]
  have bottomFound := Program.block_splice_new before after found fresh
    (List.mem_append_right _ (List.mem_singleton_self _))
  have top : (P.splice b before after r).step
      (.entering b.label (renamed b.label r.bottom previous) env' memory) =
      some (Library.leave b.label (runBody r.front second.1 second.2).1
        (runBody r.front second.1 second.2).2 r.exit) := by
    rw [Program.step_of_block (Program.block_splice_top before after found), second_eq,
      phisAfter_eq]
    split <;> simp only [Block.run, Block.retarget, runBody_append]
  refine ⟨(Block.mk r.bottom [r.result] after b.term).run (some last) env''
    (Instruction.run i second.1 second.2).2, ?_, ?_⟩
  · rw [whole, memoryAfter]
    exact Follows.leave member agreeAfter _ (if_pos rfl).symm fun _ => rfl
  · refine .head' top ?_
    exact (reaches_splice found fresh path).tail (Program.step_of_block bottomFound _ _ _)

/-- The spliced program takes the steps of the program. -/
theorem splice_respects :
    Respects P.step (P.splice b before after r).step (Follows (M := M) P b r.bottom) := by
  intro run run' follows
  cases follows with
  | ended outcome => rfl
  | @entering label previous env env' memory old came successor agree =>
      by_cases here : label = b.label
      · subst here
        rw [Program.step_of_block found]
        exact Follows.through_split fresh found split defines result computes came successor agree
      · have there := Program.block_splice_other before after fresh old here
        cases block : P.block label with
        | none =>
            rw [block] at there
            simp only [Program.step, block]
            exact ⟨_, .ended .fault, .single (by simp only [Program.step, there]; rfl)⟩
        | some block' =>
            rw [block, Option.map_some] at there
            rw [Program.step_of_block block]
            have labelled := Program.label_of_block block
            refine ⟨_, Follows.through_other fresh.bottom (Program.mem_of_block block)
              (labelled.symm ▸ here) labelled came successor agree, .single ?_⟩
            exact Program.step_of_block there _ _ _

/-- A region of new blocks that computes an instruction takes its place without a change of the
program's meaning. -/
theorem meaning_splice : (P.splice b before after r).meaning (M := M) = P.meaning := by
  have respects := splice_respects (M := M) fresh found split defines result computes
  funext env memory
  have start := follows_start before after r found env memory
  refine Part.ext fun last => ⟨fun ends => ?_, fun ends => ?_⟩
  · obtain ⟨before', follows, ends'⟩ := tr_eval_rev respects start ends
    have halted := (mem_eval.mp ends').2
    cases follows with
    | ended outcome => exact ends'
    | entering => exact absurd halted (by simp only [Program.step]; split <;> simp)
  · obtain ⟨after', follows, ends'⟩ := tr_eval respects start ends
    have halted := (mem_eval.mp ends).2
    cases follows with
    | ended outcome => exact ends'
    | entering => exact absurd halted (by simp only [Program.step]; split <;> simp)

end

end Meaning

/-! ## Programs with distinct labels -/

section DistinctLabels

variable {I : Type*} {P : Program I} {b : Block I}

theorem Program.labels_retarget (targets : List ℕ) (old new : ℕ) :
    (P.retarget targets old new).map Block.label = P.map Block.label := by
  rw [Program.retarget, List.map_map]
  congr 1
  funext b
  dsimp only [Function.comp]
  split <;> rfl

theorem Program.bodies_retarget (targets : List ℕ) (old new : ℕ) :
    (P.retarget targets old new).flatMap Block.body = P.flatMap Block.body := by
  rw [Program.retarget, List.flatMap_map]
  congr 1
  funext b
  split <;> rfl

/-- A block is found by its label. -/
theorem Program.block_of_mem (labels : (P.map Block.label).Nodup) (inside : b ∈ P) :
    P.block b.label = some b := by
  induction P with
  | nil => exact absurd inside List.not_mem_nil
  | cons first rest ih =>
      rw [List.map_cons, List.nodup_cons] at labels
      rcases List.mem_cons.mp inside with rfl | later
      · exact List.find?_cons_of_pos (by simp)
      · have differs : ¬ first.label = b.label := fun here =>
          labels.1 (here ▸ List.mem_map_of_mem later)
        rw [Program.block, List.find?_cons_of_neg (by simpa using differs)]
        exact ih labels.2 later

/-- Only one block is replaced. -/
theorem Program.replaceBlock_split (blocks : List (Block I)) (inside : b ∈ P)
    (labels : (P.map Block.label).Nodup) :
    ∃ before after, P = before ++ b :: after ∧
      P.replaceBlock b.label blocks = before ++ blocks ++ after := by
  obtain ⟨before, after, rfl⟩ := List.append_of_mem inside
  refine ⟨before, after, rfl, ?_⟩
  rw [List.map_append, List.map_cons, List.nodup_append, List.nodup_cons] at labels
  obtain ⟨_, ⟨notAfter, _⟩, apart⟩ := labels
  have kept : ∀ part : Program I, (∀ other ∈ part, other.label ≠ b.label) →
      part.replaceBlock b.label blocks = part := by
    intro part differ
    induction part with
    | nil => rfl
    | cons first rest ih =>
        rw [Program.replaceBlock, List.flatMap_cons, if_neg (differ first List.mem_cons_self)]
        exact congrArg _ (ih fun other inside => differ other (List.mem_cons_of_mem _ inside))
  have first := kept before fun other inside same =>
    apart other.label (List.mem_map_of_mem inside) b.label List.mem_cons_self same
  have last := kept after fun other inside same =>
    notAfter (same ▸ List.mem_map_of_mem inside)
  rw [Program.replaceBlock] at first last ⊢
  rw [List.flatMap_append, List.flatMap_cons, if_pos rfl, first, last, List.append_assoc]

variable {before after : List I} {r : Region I}

/-- The instructions of the region stand in the place of the instruction. -/
theorem Program.bodies_splice (labels : (P.map Block.label).Nodup)
    (found : P.block b.label = some b) {i : I} (split : b.body = before ++ i :: after) :
    ∃ first last, P.flatMap Block.body = first ++ i :: last ∧
      (P.splice b before after r).flatMap Block.body =
        first ++ (r.front ++ r.middle.flatMap Block.body) ++ last := by
  obtain ⟨blocks, blocks', rfl, replaced⟩ := Program.replaceBlock_split
    (r.blocks b before after) (Program.mem_of_block found) labels
  refine ⟨blocks.flatMap Block.body ++ before, after ++ blocks'.flatMap Block.body, ?_, ?_⟩
  · simp [split]
  · rw [Program.splice, Program.bodies_retarget, replaced]
    simp [Region.blocks]

variable {M : Type*} [Instruction I M]

/-- The labels stay distinct. -/
theorem Program.labels_splice (labels : (P.map Block.label).Nodup)
    (found : P.block b.label = some b) (fresh : r.Fresh P.bound) :
    ((P.splice b before after r).map Block.label).Nodup := by
  have old : ∀ block ∈ P, block.label < P.bound := fun block member =>
    Program.lt_bound member List.mem_cons_self
  obtain ⟨blocks, blocks', rfl, replaced⟩ := Program.replaceBlock_split
    (r.blocks b before after) (Program.mem_of_block found) labels
  have new : ∀ label ∈ r.middle.map Block.label ++ [r.bottom],
      Program.bound (blocks ++ b :: blocks') ≤ label := by
    intro label member
    rcases List.mem_append.mp member with between | last
    · obtain ⟨block, inside, rfl⟩ := List.mem_map.mp between
      exact fresh.middle block inside
    · rw [List.mem_singleton.mp last]
      exact fresh.bottom
  have regrouped : (blocks ++ r.blocks b before after ++ blocks').map Block.label =
      blocks.map Block.label ++ (b.label :: (r.middle.map Block.label ++ [r.bottom])) ++
        blocks'.map Block.label := by
    simp [Region.blocks]
  have order : (blocks.map Block.label ++ (b.label :: (r.middle.map Block.label ++ [r.bottom])) ++
      blocks'.map Block.label).Perm
      ((blocks ++ b :: blocks').map Block.label ++ (r.middle.map Block.label ++ [r.bottom])) := by
    rw [List.map_append, List.map_cons, List.append_assoc, List.append_assoc]
    exact (List.perm_append_left_iff _).mpr (List.Perm.cons _ List.perm_append_comm)
  rw [Program.splice, Program.labels_retarget, replaced, regrouped, order.nodup_iff,
    List.nodup_append]
  refine ⟨labels, fresh.distinct, fun label inside other isNew same => ?_⟩
  obtain ⟨block, member, rfl⟩ := List.mem_map.mp inside
  have := old block member
  have := new other isNew
  omega

end DistinctLabels

/-! ## Instructions read in another way -/

section MapBody

variable {I : Type*} (f : I → I)

def Block.mapBody (b : Block I) : Block I := { b with body := b.body.map f }

/-- The program with another instruction for each of its own. -/
def Program.mapBody (P : Program I) : Program I := P.map (Block.mapBody f)

def Region.mapBody (r : Region I) : Region I :=
  { r with front := r.front.map f, middle := r.middle.map (Block.mapBody f) }

variable {P : Program I} {b : Block I} {before after : List I} {r : Region I}

theorem Program.block_mapBody (label : ℕ) :
    (P.mapBody f).block label = (P.block label).map (Block.mapBody f) := by
  simp only [Program.block, Program.mapBody, List.find?_map]
  rfl

/-- A region of other instructions goes in the place of another instruction. -/
theorem Program.mapBody_splice : (P.splice b before after r).mapBody f =
    (P.mapBody f).splice (b.mapBody f) (before.map f) (after.map f) (r.mapBody f) := by
  have blocks : (r.blocks b before after).map (Block.mapBody f) =
      (r.mapBody f).blocks (b.mapBody f) (before.map f) (after.map f) := by
    simp [Region.blocks, Region.mapBody, Block.mapBody]
  have replaced : (P.replaceBlock b.label (r.blocks b before after)).map (Block.mapBody f) =
      Program.replaceBlock (P.map (Block.mapBody f)) b.label
        ((r.mapBody f).blocks (b.mapBody f) (before.map f) (after.map f)) := by
    rw [← blocks, Program.replaceBlock, Program.replaceBlock, List.map_flatMap, List.flatMap_map]
    congr 1
    funext block
    by_cases here : block.label = b.label <;> simp [here, Block.mapBody]
  have retargeted : ∀ (Q : Program I) (targets : List ℕ) (old new : ℕ),
      (Q.retarget targets old new).map (Block.mapBody f) =
        Program.retarget (Q.map (Block.mapBody f)) targets old new := by
    intro Q targets old new
    rw [Program.retarget, Program.retarget, List.map_map, List.map_map]
    congr 1
    funext block
    by_cases target : block.label ∈ targets <;>
      simp [target, Block.mapBody, Block.retarget]
  rw [Program.splice, Program.mapBody, retargeted, replaced]
  rfl

variable {M : Type*} [Instruction I M]

theorem Program.bound_mapBody
    (kept : ∀ i, instructionNumbers (f i) = instructionNumbers i) :
    (P.mapBody f).bound = P.bound := by
  rw [Program.bound, Program.bound, Program.mapBody, List.flatMap_map]
  congr 2
  funext block
  simp only [Block.numbers, Block.mapBody, List.flatMap_map, kept]

variable {f} {i : I} {dest : ℕ}

/-- A region that computes an instruction, where both are read in another way, does not change what
the program means when it is read that way. -/
theorem meaning_splice_mapBody (kept : ∀ i, instructionNumbers (f i) = instructionNumbers i)
    (fresh : (r.mapBody f).Fresh P.bound) (found : P.block b.label = some b)
    (split : b.body = before ++ i :: after) (defines : Instruction.defines (f i) = some dest)
    (result : r.result.dest = dest)
    (computes : (r.mapBody f).Computes P.bound b.label (f i)) :
    ((P.splice b before after r).mapBody f).meaning (M := M) = (P.mapBody f).meaning := by
  have bound := Program.bound_mapBody (P := P) f kept
  rw [Program.mapBody_splice]
  refine meaning_splice (b := b.mapBody f) (i := f i) (bound ▸ fresh) ?_ ?_ defines result
    (bound ▸ computes)
  · rw [Program.block_mapBody]
    exact found ▸ rfl
  · rw [Block.mapBody, split, List.map_append, List.map_cons]

end MapBody

end GreenFuzz.Library
