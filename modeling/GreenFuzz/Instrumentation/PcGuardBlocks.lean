import GreenFuzz.Instrumentation.LlvmInstr
import GreenFuzz.Library.Dominance

/-!
# Which blocks the PCGUARD pass instruments

`shouldInstrumentBlock` gives no counter to a full dominator, nor to a full post-dominator with
several predecessors. The two trees come from LLVM, which also splits the critical edges before.

No new coverage is lost by that, as far as runs return: a run goes through a block that no earlier
run went through exactly when it goes through such a block with a counter (`new_block_iff`). What a
run without counters would have shown is read off the blocks with counters that the block dominates
or post-dominates (`passes_iff`).

Blocks that hold nothing but `unreachable`, and those without an insertion point, do not occur in
the programs here.
-/

set_option autoImplicit false

namespace GreenFuzz.Instrumentation

open Library

section Pass

/-- Whether a block has successors and dominates all of them. -/
def isFullDominator (F : FlowGraph ℕ) (DT : ℕ → ℕ → Bool) (BB : ℕ) : Bool :=
  !(F.succs BB).isEmpty && (F.succs BB).all (DT BB)

/-- Whether a block has predecessors and post-dominates all of them. -/
def isFullPostDominator (F : FlowGraph ℕ) (PDT : ℕ → ℕ → Bool) (BB : ℕ) : Bool :=
  !(F.preds BB).isEmpty && (F.preds BB).all (PDT BB)

/-- Whether a block gets a counter. With `NoPrune` every block does. -/
def shouldInstrumentBlock (F : FlowGraph ℕ) (DT PDT : ℕ → ℕ → Bool) (NoPrune : Bool) (BB : ℕ) :
    Bool :=
  if NoPrune = true ∨ F.entry = BB then true
  else !isFullDominator F DT BB &&
    !(isFullPostDominator F PDT BB && decide ((F.preds BB).length ≠ 1))

/-- The `BlocksToInstrument` of `instrumentFunction`. -/
def blocksToInstrument (F : FlowGraph ℕ) (DT PDT : ℕ → ℕ → Bool) (NoPrune : Bool) : List ℕ :=
  F.nodes.filter (shouldInstrumentBlock F DT PDT NoPrune)

/-- The tree says which blocks dominate which. -/
def DominatorTree (F : FlowGraph ℕ) (DT : ℕ → ℕ → Bool) : Prop :=
  ∀ a b, DT a b = true ↔ F.Dominates a b

/-- The tree says which blocks post-dominate which. Its roots are the blocks without successors, and
others where these cannot be reached. -/
def PostDominatorTree (F : FlowGraph ℕ) (PDT : ℕ → ℕ → Bool) : Prop :=
  ∃ roots : ℕ → Prop, (∀ x, F.succs x = [] → roots x) ∧
    ∀ a b, PDT a b = true ↔ F.PostDominates roots a b

variable {F : FlowGraph ℕ} {DT PDT : ℕ → ℕ → Bool}

theorem isFullDominator_iff (tree : DominatorTree F DT) (BB : ℕ) :
    isFullDominator F DT BB = true ↔ F.FullDominator BB := by
  rw [isFullDominator, Bool.and_eq_true, Bool.not_eq_true', List.isEmpty_eq_false_iff,
    List.all_eq_true, FlowGraph.FullDominator]
  simp only [tree BB]

theorem isFullPostDominator_iff {roots : ℕ → Prop}
    (tree : ∀ a b, PDT a b = true ↔ F.PostDominates roots a b) (BB : ℕ) :
    isFullPostDominator F PDT BB = true ↔ F.FullPostDominator roots BB := by
  rw [isFullPostDominator, Bool.and_eq_true, Bool.not_eq_true', List.isEmpty_eq_false_iff,
    List.all_eq_true, FlowGraph.FullPostDominator]
  simp only [tree BB]

/-- The instrumented blocks are the watched nodes, or all. -/
theorem shouldInstrumentBlock_iff {roots : ℕ → Prop} (tree : DominatorTree F DT)
    (postTree : ∀ a b, PDT a b = true ↔ F.PostDominates roots a b) (NoPrune : Bool) (BB : ℕ) :
    shouldInstrumentBlock F DT PDT NoPrune BB = true ↔ NoPrune = true ∨ F.Watched roots BB := by
  rw [shouldInstrumentBlock, FlowGraph.Watched]
  by_cases always : NoPrune = true ∨ F.entry = BB
  · rw [if_pos always]
    exact iff_of_true rfl (always.imp_right fun same => .inl same.symm)
  · obtain ⟨prunes, notEntry⟩ := not_or.mp always
    rw [if_neg always, or_iff_right prunes, or_iff_right fun same => notEntry same.symm,
      Bool.and_eq_true, Bool.not_eq_true', Bool.not_eq_true', ← Bool.not_eq_true,
      ← Bool.not_eq_true, Bool.and_eq_true, isFullDominator_iff tree,
      isFullPostDominator_iff postTree, decide_eq_true_eq]

end Pass

/-! ## The walk of a run -/

section Runs

variable {I M : Type} [Instruction I M] {P : Program I}

/-- The control-flow graph of a program. -/
def flowGraph (P : Program I) (labels : (P.map Block.label).Nodup) : FlowGraph ℕ where
  entry := (P.head?.map Block.label).getD 0
  nodes := P.map Block.label
  succs label := ((P.block label).map fun b => b.term.targets).getD []
  nodup := labels
  outside label absent := by
    cases found : P.block label with
    | none => rfl
    | some b =>
        exact absurd (List.mem_map.mpr ⟨b, Program.mem_of_block found,
          Program.label_of_block found⟩) absent

/-- A run goes through a block. -/
def Passes (P : Program I) (run : Run M) (label : ℕ) : Prop :=
  ∃ previous env memory, P.Reaches run (.entering label previous env memory)

/-- A block is left for one of its targets, or by a return that has none. -/
theorem leave_cases (label : ℕ) (env : Registers) (memory : M) (term : Terminator) :
    (∃ target ∈ term.targets, leave label env memory term =
      .entering target (some label) env memory) ∨
    (term.targets = [] ∧ ∃ value, leave label env memory term =
      .ended (.returned value memory)) := by
  cases term with
  | br target => exact .inl ⟨target, List.mem_singleton_self _, rfl⟩
  | condBr condition onTrue onFalse =>
      refine .inl ⟨if condition.read env % 2 = 1 then onTrue else onFalse, ?_, rfl⟩
      split
      · exact List.mem_cons_self
      · exact List.mem_cons_of_mem _ (List.mem_singleton_self _)
  | switch width value default cases =>
      rw [leave]
      split
      · rename_i case found
        exact .inl ⟨case.2, List.mem_cons_of_mem _
          (List.mem_map_of_mem (List.mem_of_find?_eq_some found)), rfl⟩
      · exact .inl ⟨default, List.mem_cons_self, rfl⟩
  | ret value => exact .inr ⟨rfl, _, rfl⟩

/-- A step from before a block takes an edge of the graph, returns from a block without successors,
or finds no block with the label. -/
theorem step_cases (labels : (P.map Block.label).Nodup) {label : ℕ} {previous : Option ℕ}
    {env : Registers} {memory : M} {next : Run M}
    (step : P.step (.entering label previous env memory) = some next) :
    (label ∈ (flowGraph P labels).nodes ∧ ∃ target, (flowGraph P labels).Edge label target ∧
      ∃ env' memory', next = .entering target (some label) env' memory') ∨
    (label ∈ (flowGraph P labels).nodes ∧ (flowGraph P labels).succs label = [] ∧
      ∃ value after, next = .ended (.returned value after)) ∨
    next = .ended .fault := by
  cases found : P.block label with
  | none =>
      rw [Program.step, found] at step
      exact .inr (.inr (Option.some.inj step).symm)
  | some b =>
      have isLabel := Program.label_of_block found
      have isNode : label ∈ (flowGraph P labels).nodes :=
        List.mem_map.mpr ⟨b, Program.mem_of_block found, isLabel⟩
      have succs : (flowGraph P labels).succs label = b.term.targets := by
        show ((P.block label).map fun b => b.term.targets).getD [] = _
        rw [found]
        rfl
      rw [Program.step_of_block found, Block.run, isLabel] at step
      rcases leave_cases label (runBody b.body (runPhis b.phis previous env) memory).1
        (runBody b.body (runPhis b.phis previous env) memory).2 b.term with
        ⟨target, isTarget, leaves⟩ | ⟨none, value, returns⟩
      · rw [leaves] at step
        refine .inl ⟨isNode, target, ?_, _, _, (Option.some.inj step).symm⟩
        rw [FlowGraph.Edge, succs]
        exact isTarget
      · rw [returns] at step
        exact .inr (.inl ⟨isNode, succs.trans none, value, _, (Option.some.inj step).symm⟩)

/-- A run that is over goes through no block. -/
theorem not_passes_ended {outcome : Outcome M} {label : ℕ} :
    ¬ Passes P (.ended outcome) label := by
  rintro ⟨previous, env, memory, path⟩
  exact absurd (Program.eq_of_reaches_ended path) (by simp)

/-- A run goes through the block it stands before, and those that it goes through from then on. -/
theorem passes_iff_of_step {label : ℕ} {previous : Option ℕ} {env : Registers} {memory : M}
    {next : Run M} (step : P.step (.entering label previous env memory) = some next) (l : ℕ) :
    Passes P (.entering label previous env memory) l ↔ l = label ∨ Passes P next l := by
  constructor
  · rintro ⟨previous', env', memory', path⟩
    rcases Relation.ReflTransGen.cases_head path with same | ⟨next', step', later⟩
    · exact .inl (Run.entering.inj same).1.symm
    · obtain rfl : next' = next := Option.some.inj (Option.mem_def.mp step' ▸ step)
      exact .inr ⟨previous', env', memory', later⟩
  · rintro (rfl | ⟨previous', env', memory', path⟩)
    · exact ⟨previous, env, memory, .refl⟩
    · exact ⟨previous', env', memory', .head step path⟩

/-- A run that returns walks through the graph to a block without successors, and goes through the
blocks on its way. The induction is on the rest of the run. -/
theorem exists_walk (labels : (P.map Block.label).Nodup) {run : Run M} {value : Option ℕ}
    {after : M} (path : P.Reaches run (.ended (.returned value after))) (label : ℕ)
    (previous : Option ℕ) (env : Registers) (memory : M)
    (here : run = .entering label previous env memory) :
    ∃ later, (label :: later).IsChain (flowGraph P labels).Edge ∧
      (∀ x ∈ (label :: later).getLast?, (flowGraph P labels).succs x = []) ∧
      (∀ x ∈ label :: later, x ∈ (flowGraph P labels).nodes) ∧
      ∀ l, Passes P run l ↔ l ∈ label :: later := by
  induction path using Relation.ReflTransGen.head_induction_on generalizing label previous env
    memory with
  | refl => exact absurd here (by simp)
  | @head first second step rest ih =>
      subst here
      have passes := passes_iff_of_step step
      rcases step_cases labels step with ⟨isNode, target, edge, env', memory', isNext⟩ |
        ⟨isNode, none, value', after', rfl⟩ | rfl
      · obtain ⟨later, chain, last, inside, on⟩ := ih target _ _ _ isNext
        refine ⟨target :: later, List.isChain_cons_cons.mpr ⟨edge, chain⟩, ?_,
          List.forall_mem_cons.mpr ⟨isNode, inside⟩, fun l => ?_⟩
        · rw [List.getLast?_cons_cons]
          exact last
        · rw [passes, on, List.mem_cons (a := l) (b := label)]
      · refine ⟨[], List.isChain_singleton _, fun x isLast => ?_,
          List.forall_mem_singleton.mpr isNode, fun l => ?_⟩
        · have isHere : label = x := Option.some.inj isLast
          rw [← isHere, none]
        · rw [passes, or_iff_left not_passes_ended, List.mem_singleton]
      · exact absurd (Program.eq_of_reaches_ended rest) (by simp)

/-- The blocks of a run from the start that returns are a complete walk. -/
theorem exists_complete (labels : (P.map Block.label).Nodup) {env : Registers} {memory after : M}
    {value : Option ℕ} (returns : P.Reaches (P.start env memory) (.ended (.returned value after))) :
    ∃ walk, (flowGraph P labels).Complete walk ∧
      (∀ x ∈ walk, x ∈ (flowGraph P labels).nodes) ∧
      ∀ l, Passes P (P.start env memory) l ↔ l ∈ walk := by
  cases head : P.head? with
  | none =>
      rw [Program.start, head] at returns
      exact absurd (Program.eq_of_reaches_ended returns) (by simp)
  | some b =>
      have start : P.start env memory = .entering b.label none env memory := by
        rw [Program.start, head]
      obtain ⟨later, chain, last, inside, on⟩ :=
        exists_walk labels returns b.label none env memory start
      have isEntry : (flowGraph P labels).entry = b.label := by
        show (P.head?.map Block.label).getD 0 = b.label
        rw [head]
        rfl
      exact ⟨b.label :: later, ⟨congrArg some isEntry.symm, chain, last⟩, inside, on⟩

/-! ## No block is lost -/

variable {DT PDT : ℕ → ℕ → Bool}

/-- A run that returns goes through a block exactly when it goes through an instrumented one that
the block dominates or post-dominates. -/
theorem passes_iff (labels : (P.map Block.label).Nodup) (split : (flowGraph P labels).Split)
    (tree : DominatorTree (flowGraph P labels) DT)
    (postTree : PostDominatorTree (flowGraph P labels) PDT) (NoPrune : Bool) {env : Registers}
    {memory after : M} {value : Option ℕ}
    (returns : P.Reaches (P.start env memory) (.ended (.returned value after)))
    (label : ℕ) :
    Passes P (P.start env memory) label ↔
      ∃ c ∈ blocksToInstrument (flowGraph P labels) DT PDT NoPrune,
        Passes P (P.start env memory) c ∧ (DT label c = true ∨ PDT label c = true) := by
  obtain ⟨roots, exits, postTree⟩ := postTree
  obtain ⟨walk, complete, inside, on⟩ := exists_complete labels returns
  rw [on]
  constructor
  · intro goesThrough
    obtain ⟨c, member, watched, dominates⟩ := (complete.mem_iff split exits label).mp goesThrough
    refine ⟨c, List.mem_filter.mpr ⟨inside c member, ?_⟩, (on c).mpr member, ?_⟩
    · exact (shouldInstrumentBlock_iff tree postTree NoPrune c).mpr (.inr watched)
    · rwa [tree, postTree]
  · rintro ⟨c, _, passes, dominates⟩
    rw [tree, postTree] at dominates
    rcases dominates with dominates | dominates
    · exact complete.mem_of_dominates ((on c).mp passes) dominates
    · exact complete.mem_of_postDominates exits ((on c).mp passes) dominates

/-- Where earlier runs and a new one return, the new one goes through a block that is new to them
exactly when it goes through an instrumented one that is. -/
theorem new_block_iff (labels : (P.map Block.label).Nodup) (split : (flowGraph P labels).Split)
    (tree : DominatorTree (flowGraph P labels) DT)
    (postTree : PostDominatorTree (flowGraph P labels) PDT) (NoPrune : Bool)
    (seen : Set (Registers × M))
    (returned : ∀ start ∈ seen, ∃ value after,
      P.Reaches (P.start start.1 start.2) (.ended (.returned value after)))
    {env : Registers} {memory after : M} {value : Option ℕ}
    (returns : P.Reaches (P.start env memory) (.ended (.returned value after))) :
    (∃ label, Passes P (P.start env memory) label ∧
        ∀ start ∈ seen, ¬ Passes P (P.start start.1 start.2) label) ↔
      ∃ c ∈ blocksToInstrument (flowGraph P labels) DT PDT NoPrune,
        Passes P (P.start env memory) c ∧
          ∀ start ∈ seen, ¬ Passes P (P.start start.1 start.2) c := by
  constructor
  · rintro ⟨label, passes, unseen⟩
    obtain ⟨c, instrumented, passes, dominates⟩ :=
      (passes_iff labels split tree postTree NoPrune returns label).mp passes
    refine ⟨c, instrumented, passes, fun start member seenHere => unseen start member ?_⟩
    obtain ⟨value', after', returns'⟩ := returned start member
    exact (passes_iff labels split tree postTree NoPrune returns' label).mpr
      ⟨c, instrumented, seenHere, dominates⟩
  · rintro ⟨c, _, passes, unseen⟩
    exact ⟨c, passes, unseen⟩

end Runs

/-- A branch whose two sides meet again. -/
def diamondTest : Program (Instr Unit) :=
  [⟨0, [], [], .condBr (.reg 0) 1 2⟩, ⟨1, [], [], .br 3⟩, ⟨2, [], [], .br 3⟩,
    ⟨3, [], [], .ret none⟩]

theorem diamondTest_labels : (diamondTest.map Block.label).Nodup := by decide

def diamondGraphTest : FlowGraph ℕ := flowGraph diamondTest diamondTest_labels

/-- The block where the sides meet gets no counter. -/
example : blocksToInstrument diamondGraphTest (fun a b => a == 0 || a == b)
    (fun a b => a == 3 || a == b) false = [0, 1, 2] := by decide

theorem diamondTest_split : diamondGraphTest.Split := by
  have edges : ∀ x ∈ [0, 1, 2, 3], ∀ y ∈ diamondGraphTest.succs x, y ≠ 0 ∧ x ∈ [0, 1, 2] ∧
      (2 ≤ (diamondGraphTest.succs x).length → (diamondGraphTest.preds y).length ≤ 1) := by
    decide
  have inside : ∀ x y, diamondGraphTest.Edge x y → x ∈ [0, 1, 2, 3] := by
    intro x y edge
    by_contra outside
    rw [FlowGraph.Edge, diamondGraphTest.outside x outside] at edge
    exact absurd edge List.not_mem_nil
  have reachable : ∀ x ∈ [0, 1, 2], diamondGraphTest.Reachable x := by
    simp only [List.forall_mem_cons]
    exact ⟨.refl, .single List.mem_cons_self,
      .single (List.mem_cons_of_mem _ List.mem_cons_self), List.forall_mem_nil _⟩
  exact ⟨fun x edge => (edges x (inside x _ edge) _ edge).1 rfl,
    fun x several y edge => (edges x (inside x y edge) y edge).2.2 several,
    fun x y edge _ => reachable x (edges x (inside x y edge) y edge).2.1⟩

noncomputable def dominatesTest (a b : ℕ) : Bool :=
  @decide (diamondGraphTest.Dominates a b) (Classical.dec _)

noncomputable def postDominatesTest (a b : ℕ) : Bool :=
  @decide (diamondGraphTest.PostDominates (diamondGraphTest.succs · = []) a b) (Classical.dec _)

theorem new_block_iff_test :
    (∃ label, Passes diamondTest (diamondTest.start (fun _ => 1) ()) label ∧
        ∀ start ∈ ({(fun _ => 0, ())} : Set (Registers × Unit)),
          ¬ Passes diamondTest (diamondTest.start start.1 start.2) label) ↔
      ∃ c ∈ blocksToInstrument (flowGraph diamondTest diamondTest_labels) dominatesTest
          postDominatesTest false,
        Passes diamondTest (diamondTest.start (fun _ => 1) ()) c ∧
          ∀ start ∈ ({(fun _ => 0, ())} : Set (Registers × Unit)),
            ¬ Passes diamondTest (diamondTest.start start.1 start.2) c := by
  have tree : DominatorTree (flowGraph diamondTest diamondTest_labels) dominatesTest :=
    fun _ _ => @decide_eq_true_iff _ (Classical.dec _)
  have postTree : PostDominatorTree (flowGraph diamondTest diamondTest_labels) postDominatesTest :=
    ⟨fun x => diamondGraphTest.succs x = [], fun _ none => none,
      fun _ _ => @decide_eq_true_iff _ (Classical.dec _)⟩
  have ended : ∀ start ∈ ({(fun _ => 0, ())} : Set (Registers × Unit)), ∃ value after,
      diamondTest.Reaches (diamondTest.start start.1 start.2)
        (.ended (.returned value after)) := by
    rintro start rfl
    exact ⟨none, (), .head rfl (.head rfl (.head rfl .refl))⟩
  have returns : diamondTest.Reaches (diamondTest.start (fun _ => 1) ())
      (.ended (.returned none ())) := .head rfl (.head rfl (.head rfl .refl))
  exact new_block_iff diamondTest_labels diamondTest_split tree postTree false _ ended returns

end GreenFuzz.Instrumentation
