import GreenFuzz.Instrumentation.SplitSwitchTree

/-!
# The split-switches pass preserves the meaning of a program

The tree of a switch is a detour on the way to its successors (`detour_of_converts`), with one leaf
for each case and the new default block for the default. So every step of the pass keeps the meaning
of the program, and what the verifier checks (`splitSwitch_spec`), and the pass leaves no switch but
those it passes over (`splitSwitches_meaning`).
-/

set_option autoImplicit false

namespace GreenFuzz.Instrumentation

open Library StateTransition

variable {M : Type} {P : Program (Instr M)}

/-- The block between the tree and the default successor. -/
def newDefaultBlock (NewDefault Default : ℕ) : Block (Instr M) :=
  ⟨NewDefault, [], [], .br Default⟩

/-- The cases of a switch, with the values in their width. -/
def caseVector (bitw : ℕ) (cases : List (ℕ × ℕ)) : List (ℕ × ℕ) :=
  cases.map fun case => (case.1 % 2 ^ bitw, case.2)

section OneSwitch

variable {b : Block (Instr M)} {bitw Default : ℕ} {Val : Operand} {cases : List (ℕ × ℕ)}

/-- What the pass knows of a switch that it does not pass over. -/
theorem casesLeft_of_switch (verified : P.Verified) (found : P.block b.label = some b)
    (isSwitch : b.term = .switch bitw Val Default cases)
    (taken : switchSkipped cases bitw = false) :
    CasesLeft P.bound bitw (caseVector bitw cases) (List.replicate ((7 + bitw) / 8) false) := by
  have member := Program.mem_of_block found
  have distinct : (cases.map fun case => case.1 % 2 ^ bitw).Nodup := by
    have := verified.terms b member
    rwa [isSwitch] at this
  simp only [switchSkipped, decide_eq_false_iff_not, not_or, not_lt, not_not] at taken
  obtain ⟨several, whole, small⟩ := taken
  have positive : bitw ≠ 0 := by
    rintro rfl
    -- In no bits there is one value.
    have among : (cases.map fun case => case.1 % 2 ^ 0) ⊆ [0] := by
      intro value inside
      obtain ⟨case, _, rfl⟩ := List.mem_map.mp inside
      simp [Nat.mod_one]
    have := (distinct.subperm among).length_le
    rw [List.length_map, List.length_singleton] at this
    omega
  have free : ∀ i, (List.replicate ((7 + bitw) / 8) false).getD i true = true →
      ¬ i < (7 + bitw) / 8 := by
    intro i checked below
    rw [List.getD_eq_getElem _ _ (by rwa [List.length_replicate]), List.getElem_replicate]
      at checked
    exact absurd checked (by decide)
  constructor
  case width =>
    rw [List.length_replicate]
    omega
  case nonempty =>
    refine List.ne_nil_of_length_pos ?_
    rw [caseVector, List.length_map]
    omega
  case distinct =>
    rw [caseVector, List.map_map]
    exact distinct
  case small =>
    intro case inside
    obtain ⟨before, _, rfl⟩ := List.mem_map.mp inside
    exact Nat.mod_lt _ (Nat.two_pow_pos _)
  case old =>
    intro case inside
    obtain ⟨before, mem, rfl⟩ := List.mem_map.mp inside
    refine Program.target_lt_bound member ?_
    rw [isSwitch]
    exact List.mem_cons_of_mem _ (List.mem_map.mpr ⟨before, mem, rfl⟩)
  case alike =>
    intro case _ i below checked
    rw [List.length_replicate] at below
    exact absurd below (free i checked)
  case unchecked =>
    refine ⟨0, ?_, ?_⟩
    · rw [List.length_replicate]
      omega
    · rw [List.getD_eq_getElem _ _ (by rw [List.length_replicate]; omega), List.getElem_replicate]

variable {root : ℕ} {bytesChecked : List Bool} {converted : Conversion M} {routes : List (ℕ × ℕ)}

/-- The tree and the new default block are a detour. -/
theorem detour_of_converts (found : P.block b.label = some b)
    (isSwitch : b.term = .switch bitw Val Default cases)
    (converts : Converts P.bound b.label P.bound bitw Val (caseVector bitw cases) bytesChecked
      (P.bound + 1) P converted routes) :
    Detour P b (routes ++ [(P.bound, Default)]) (.br (P.bound + 1))
      (newDefaultBlock P.bound Default :: converted.nodes) where
  found := found
  targets := by
    rw [List.map_append, isSwitch, Terminator.targets]
    refine List.perm_append_comm.trans (List.Perm.cons _ ?_)
    have := converts.targets
    rwa [caseVector, List.map_map] at this
  distinct := by
    rw [List.map_append]
    refine converts.distinct.append (List.nodup_singleton _) fun via inTree isDefault => ?_
    obtain ⟨route, mem, rfl⟩ := List.mem_map.mp inTree
    have := converts.via_range route mem
    have : route.1 = P.bound := List.mem_singleton.mp isDefault
    omega
  leaves := by
    intro route mem
    rcases List.mem_append.mp mem with inTree | isDefault
    · exact List.mem_cons_of_mem _ (converts.leaves route inTree)
    · rw [List.mem_singleton.mp isDefault]
      exact List.mem_cons_self
  labels := by
    refine List.nodup_cons.mpr ⟨fun inside => ?_, converts.labels⟩
    obtain ⟨node, mem, same⟩ := List.mem_map.mp inside
    have := converts.range.2 node mem
    rw [same] at this
    exact absurd this.1 (Nat.not_succ_le_self _)
  above := by
    intro node mem
    rcases List.mem_cons.mp mem with rfl | inTree
    · exact Nat.le_refl _
    · have := converts.range.2 node inTree
      omega
  plain := by
    intro node mem
    rcases List.mem_cons.mp mem with rfl | inTree
    · exact ⟨rfl, trivial⟩
    · obtain ⟨none, condition, onTrue, onFalse, isBranch⟩ := converts.plain node inTree
      rw [isBranch]
      exact ⟨none, trivial⟩
  branches := by
    intro node mem target below
    rw [vias_append, List.count_append]
    rcases List.mem_cons.mp mem with rfl | inTree
    · have none := converts.count_eq_zero (.inl (Nat.lt_succ_self P.bound)) target
      by_cases here : Default = target <;>
        simp [newDefaultBlock, Terminator.targets, vias_singleton, here, none]
    · have range := converts.range.2 node inTree
      have none : (vias [(P.bound, Default)] target).count node.label = 0 := by
        refine List.count_eq_zero.mpr fun isVia => ?_
        have := mem_vias.mp isVia
        simp only [List.mem_singleton, Prod.mk.injEq] at this
        omega
      rw [none, Nat.add_zero]
      exact converts.branches node inTree target below
  inner := ⟨trivial, fun target mem => by
    rw [List.mem_singleton.mp mem]
    exact Nat.le_succ _⟩

/-- The tree leads to the successor that the switch chooses. -/
theorem leads_of_converts (verified : P.Verified) (found : P.block b.label = some b)
    (isSwitch : b.term = .switch bitw Val Default cases)
    (converts : Converts P.bound b.label P.bound bitw Val (caseVector bitw cases)
      (List.replicate ((7 + bitw) / 8) false) (P.bound + 1) P converted routes) :
    Routing.Leads M P (P.detour b.label (routes ++ [(P.bound, Default)]) (.br (P.bound + 1))
      (newDefaultBlock P.bound Default :: converted.nodes)) b (routes ++ [(P.bound, Default)])
      (.br (P.bound + 1)) := by
  intro env memory
  have distinct : (Terminator.switch bitw Val Default cases).Verified :=
    isSwitch ▸ verified.terms b (Program.mem_of_block found)
  have unchecked : Checked (List.replicate ((7 + bitw) / 8) false) (caseVector bitw cases)
      (Val.read env % 2 ^ bitw) := by
    intro i below checked
    rw [List.getD_eq_getElem _ _ below, List.getElem_replicate] at checked
    exact absurd checked (by decide)
  have nodes : ∀ {label : ℕ} {block : Block (Instr M)}, P.bound ≤ label →
      Program.block (newDefaultBlock P.bound Default :: converted.nodes) label = some block →
      (P.detour b.label (routes ++ [(P.bound, Default)]) (.br (P.bound + 1))
        (newDefaultBlock P.bound Default :: converted.nodes)).block label = some block :=
    fun new isNode => (Program.block_detour b.label new).trans isNode
  have among : ∀ label block, Program.block converted.nodes label = some block →
      (P.detour b.label (routes ++ [(P.bound, Default)]) (.br (P.bound + 1))
        (newDefaultBlock P.bound Default :: converted.nodes)).block label = some block := by
    intro label block isNode
    refine nodes ?_
      (block_cons_other (fun node mem => by exact (converts.range.2 node mem).1) isNode)
    have := (converts.range.2 block (Program.mem_of_block isNode)).1
    rw [Program.label_of_block isNode] at this
    omega
  rw [isSwitch]
  obtain ⟨env', agree, ⟨case, mem, same, leaf, route, path⟩ | ⟨none, last, path⟩⟩ :=
    converts.leads (some b.label) env memory unchecked
  · obtain ⟨before, inside, rfl⟩ := List.mem_map.mp mem
    exact ⟨before.2, leave_switch_case distinct inside same.symm memory, leaf, env',
      List.mem_append_left _ route, agree, Program.reaches_of_blocks among path⟩
  · refine ⟨Default, leave_switch_default (fun case inside same => ?_) memory, P.bound, env',
      List.mem_append_right _ (List.mem_singleton_self _), agree,
      (Program.reaches_of_blocks among path).tail ?_⟩
    · exact none _ (List.mem_map.mpr ⟨case, inside, rfl⟩) same.symm
    · exact Program.step_of_block (nodes (Nat.le_refl _) (List.find?_cons_of_pos (by
        simp [newDefaultBlock]))) _ _ _

/-- The step of the pass for one switch. -/
theorem splitSwitch_eq (found : P.block b.label = some b)
    (isSwitch : b.term = .switch bitw Val Default cases)
    (taken : switchSkipped cases bitw = false)
    (isTree : switchConvert b.label P.bound bitw Val ((caseVector bitw cases).length +
      (List.replicate ((7 + bitw) / 8) false).length) (caseVector bitw cases)
      (List.replicate ((7 + bitw) / 8) false) (P.bound + 1) P = some converted)
    (program : converted.program = P.map (Block.reroute b.label routes)) :
    splitSwitch P b.label = some (P.detour b.label (routes ++ [(P.bound, Default)])
      (.br (P.bound + 1)) (newDefaultBlock P.bound Default :: converted.nodes)) := by
  rw [splitSwitch, found, Option.map_some, isSwitch]
  dsimp only
  rw [taken, if_neg Bool.false_ne_true]
  rw [caseVector] at isTree
  rw [isTree, Option.map_some, program, renamePhis_eq, List.map_map, List.map_map,
    Program.detour]
  congr 2
  refine List.map_congr_left fun block _ => ?_
  rw [Block.detour, Block.reroute_append]
  by_cases here : block.label = b.label <;> simp [Block.reroute, here]

/-- The step gets through on a switch of a verified program. -/
theorem splitSwitch_taken (verified : P.Verified) (found : P.block b.label = some b)
    (isSwitch : b.term = .switch bitw Val Default cases)
    (taken : switchSkipped cases bitw = false) :
    ∃ routes nodes,
      splitSwitch P b.label = some (P.detour b.label routes (.br (P.bound + 1)) nodes) ∧
      Detour P b routes (.br (P.bound + 1)) nodes ∧
      Routing.Leads M P (P.detour b.label routes (.br (P.bound + 1)) nodes) b routes
        (.br (P.bound + 1)) ∧
      ∀ node ∈ nodes, ∀ width value default cases,
        node.term ≠ .switch width value default cases := by
  have left := casesLeft_of_switch verified found isSwitch taken
  have old : Old P.bound Val := fun name mem =>
    Program.lt_bound (Program.mem_of_block found) (List.mem_cons_of_mem _
      (List.mem_append_right _ (List.mem_append_right _ (by rwa [isSwitch]))))
  obtain ⟨converted, routes, isTree, converts⟩ := switchConvert_spec b.label old
    (Nat.le_refl P.bound) left (Nat.add_le_add_left List.count_le_length _) (Nat.le_succ P.bound) P
  refine ⟨routes ++ [(P.bound, Default)], newDefaultBlock P.bound Default :: converted.nodes,
    splitSwitch_eq found isSwitch taken isTree converts.program,
    detour_of_converts found isSwitch converts,
    leads_of_converts verified found isSwitch converts,
    fun node mem width value default cases => ?_⟩
  rcases List.mem_cons.mp mem with rfl | inTree
  · exact Terminator.noConfusion
  · obtain ⟨_, condition, onTrue, onFalse, isBranch⟩ := converts.plain node inTree
    rw [isBranch]
    exact Terminator.noConfusion

end OneSwitch

/-! ## The pass -/

/-- A switch that the pass may leave: one that it passes over, or one of a block it has still to
work on. -/
def SwitchesAmong (waiting : List ℕ) (P : Program (Instr M)) : Prop :=
  ∀ block ∈ P, ∀ width value default cases, block.term = .switch width value default cases →
    switchSkipped cases width = true ∨ block.label ∈ waiting

/-- A block without a switch is not waited for. -/
theorem SwitchesAmong.drop {orig : ℕ} {waiting : List ℕ} (verified : P.Verified)
    (among : SwitchesAmong (orig :: waiting) P)
    (done : ∀ b, P.block orig = some b → ∀ width value default cases,
      b.term = .switch width value default cases → switchSkipped cases width = true) :
    SwitchesAmong waiting P := by
  intro block member width value default cases isSwitch
  refine (among block member width value default cases isSwitch).elim .inl fun waits => ?_
  rcases List.mem_cons.mp waits with here | later
  · have found := Program.block_of_mem verified.labels member
    exact .inl (done block (here ▸ found) width value default cases isSwitch)
  · exact .inr later

/-- A step keeps the program verified, and its meaning. -/
theorem splitSwitch_spec {orig : ℕ} {waiting : List ℕ} (verified : P.Verified)
    (among : SwitchesAmong (orig :: waiting) P) :
    ∃ P', splitSwitch P orig = some P' ∧ P'.Verified ∧ P'.meaning = P.meaning ∧
      SwitchesAmong waiting P' := by
  by_cases work : ∃ b bitw Val Default cases, P.block orig = some b ∧
      b.term = .switch bitw Val Default cases ∧ switchSkipped cases bitw = false
  · obtain ⟨b, bitw, Val, Default, cases, found, isSwitch, taken⟩ := work
    obtain rfl := Program.label_of_block found
    obtain ⟨routes, nodes, step, detour, leads, plain⟩ :=
      splitSwitch_taken verified found isSwitch taken
    refine ⟨_, step, detour.verified verified, (detour.routing verified).meaning leads, ?_⟩
    intro block member width value default cases isSwitch'
    rcases List.mem_append.mp member with old | new
    · obtain ⟨before, inside, rfl⟩ := List.mem_map.mp old
      by_cases here : before.label = b.label
      · simp [Block.detour, here] at isSwitch'
      · rw [Block.detour, if_neg here] at isSwitch'
        exact (among before inside width value default cases isSwitch').imp_right fun waits =>
          (List.mem_cons.mp waits).resolve_left here
    · exact absurd isSwitch' (plain block new width value default cases)
  · have done : ∀ b, P.block orig = some b → ∀ width value default cases,
        b.term = .switch width value default cases → switchSkipped cases width = true := by
      intro b found width value default cases isSwitch
      by_contra notSkipped
      exact work ⟨b, width, value, default, cases, found, isSwitch,
        Bool.eq_false_iff.mpr notSkipped⟩
    refine ⟨P, ?_, verified, rfl, among.drop verified done⟩
    rw [splitSwitch]
    cases found : P.block orig with
    | none => rfl
    | some b =>
        rw [Option.map_some]
        cases isSwitch : b.term with
        | switch width value default cases =>
            exact if_pos (done b found width value default cases isSwitch)
        | _ => rfl

/-- The loop over the blocks. -/
theorem fold_splitSwitch {waiting : List ℕ} (verified : P.Verified)
    (among : SwitchesAmong waiting P) :
    ∃ P', waiting.foldlM splitSwitch P = some P' ∧ P'.Verified ∧ P'.meaning = P.meaning ∧
      SwitchesAmong [] P' := by
  induction waiting generalizing P with
  | nil => exact ⟨P, rfl, verified, rfl, among⟩
  | cons orig waiting ih =>
      obtain ⟨P1, step, verified1, meaning1, among1⟩ := splitSwitch_spec verified among
      obtain ⟨P', rest, verified', meaning', among'⟩ := ih verified1 among1
      refine ⟨P', ?_, verified', meaning'.trans meaning1, among'⟩
      rw [List.foldlM_cons, step]
      exact rest

/-- The split-switches pass gets through on a verified program. What it makes is verified, means
what the program meant, and has no switches but those that the pass passes over. -/
theorem splitSwitches_meaning (verified : P.Verified) :
    ∃ P', splitSwitches P = some P' ∧ P'.Verified ∧ P'.meaning = P.meaning ∧
      ∀ block ∈ P', ∀ width value default cases,
        block.term = .switch width value default cases → switchSkipped cases width = true := by
  have among : SwitchesAmong (switches P) P := by
    intro block member width value default cases isSwitch
    by_cases some : 1 ≤ cases.length
    · refine .inr (List.mem_map.mpr ⟨block, List.mem_filter.mpr ⟨member, ?_⟩, rfl⟩)
      rw [isSwitch]
      exact decide_eq_true some
    · refine .inl (decide_eq_true (.inl ?_))
      omega
  obtain ⟨P', isPass, verified', meaning, left⟩ := fold_splitSwitch verified among
  refine ⟨P', isPass, verified', meaning, fun block member width value default cases isSwitch => ?_⟩
  exact (left block member width value default cases isSwitch).resolve_right List.not_mem_nil

/-- A switch with two cases for one block, whose phi node has an entry for each. -/
def switchTest : Program (Instr Unit) :=
  [⟨0, [], [], .switch 16 (.reg 0) 1 [(0x1234, 2), (0x1235, 2), (0x2234, 1)]⟩,
    ⟨1, [], [], .ret none⟩,
    ⟨2, [⟨1, [(.const 5, 0), (.const 5, 0)]⟩], [], .ret (some (.reg 1))⟩]

theorem splitSwitches_meaning_test :
    ∃ P', splitSwitches switchTest = some P' ∧ P'.Verified ∧ P'.meaning = switchTest.meaning ∧
      ∀ block ∈ P', ∀ width value default cases,
        block.term = .switch width value default cases → switchSkipped cases width = true := by
  refine splitSwitches_meaning ⟨by decide, ?_, ?_⟩
  · simp [switchTest, Terminator.Verified]
  · intro block member phi inside
    have here : block.label = 2 ∧ phi = ⟨1, [(.const 5, 0), (.const 5, 0)]⟩ := by
      simp only [switchTest, List.mem_cons, List.not_mem_nil, or_false] at member
      rcases member with rfl | rfl | rfl
      · exact absurd inside List.not_mem_nil
      · exact absurd inside List.not_mem_nil
      · exact ⟨rfl, List.mem_singleton.mp inside⟩
    obtain ⟨label, rfl⟩ := here
    refine ⟨by simp [Phi.Uniform], fun source => ?_⟩
    rw [label]
    match source with
    | 0 | 1 | 2 => rfl
    | source + 3 => simp [Phi.sources, Program.edges, Program.block, switchTest]

end GreenFuzz.Instrumentation
