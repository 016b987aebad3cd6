import GreenFuzz.Instrumentation.SplitSwitchBytes
import GreenFuzz.Instrumentation.SplitCompareRegions

/-!
# The tree that takes the place of a switch

`switchConvert` gets through on cases with distinct values, and its tree leads to the block of the
case that has the value, or to the new default block (`switchConvert_spec`). What the induction
needs of a subtree is in `Converts`: the new blocks with their labels and branches, the successors
that each leaf has given an entry, and where a run comes out.
-/

set_option autoImplicit false

namespace GreenFuzz.Instrumentation

open Library StateTransition

variable {M : Type}

/-! ## Changed phi nodes -/

/-- One more leaf for a successor. -/
theorem renamePhis_eq (P : Program (Instr M)) (target orig NewNode : ℕ) :
    renamePhis P target orig NewNode = P.map (Block.reroute orig [(NewNode, target)]) := by
  rw [renamePhis]
  congr 1
  funext block
  by_cases here : block.label = target
  · simp only [Block.reroute, vias, here, if_true]
    simp only [List.filter_cons, decide_true, if_true, List.filter_nil, List.map_cons, List.map_nil]
    rfl
  · have none : (Phi.renames orig ([] : List ℕ)) = id := rfl
    simp [Block.reroute, vias, here, Ne.symm here, none]

/-! ## One block -/

section Node

variable (new bitw : ℕ) (Val : Operand) (index byte onTrue onFalse : ℕ)

theorem fresh_nodeBlock (pred : IcmpPredicate) :
    ∀ i ∈ (nodeBlock (M := M) new bitw Val index pred byte onTrue onFalse).body,
      ∀ dest ∈ Instruction.defines i, new ≤ dest := by
  by_cases wide : 8 < bitw <;> simp [nodeBlock, wide]

/-- A node goes on by its byte of the value. -/
theorem step_nodeBlock {pred : IcmpPredicate} (inside : index * 8 + 8 ≤ bitw)
    (unsigned : pred = .eq ∨ pred = .ult) (rest : Program (Instr M)) (previous : Option ℕ)
    (env : Registers) (memory : M) :
    ∃ env', Agree new env env' ∧
      Program.step (nodeBlock new bitw Val index pred byte onTrue onFalse :: rest)
        (.entering new previous env memory) =
          some (.entering (if pred.holds 8 (byteAt (Val.read env % 2 ^ bitw) index) byte
            then onTrue else onFalse) (some new) env' memory) := by
  have shift : index * 8 % 2 ^ bitw = index * 8 :=
    Nat.mod_eq_of_lt (lt_of_le_of_lt (by omega) (Nat.lt_two_pow_self (n := bitw)))
  have low : ∀ a, pred.holds 8 (a % 2 ^ 8) byte = pred.holds 8 a byte := by
    intro a
    rcases unsigned with rfl | rfl <;> simp only [IcmpPredicate.holds, Nat.mod_mod]
  set node := nodeBlock (M := M) new bitw Val index pred byte onTrue onFalse with node_eq
  set env' := (runBody node.body env memory).1 with env'_eq
  have agree : Agree new env env' :=
    (Agree.refl new env).runBody_right (fresh_nodeBlock new bitw Val index byte onTrue onFalse pred)
      memory
  have value : env' (new + 2) =
      (pred.holds 8 (byteAt (Val.read env % 2 ^ bitw) index) byte).toNat := by
    rw [byteAt_eq, low, env'_eq]
    by_cases wide : 8 < bitw <;>
      simp [node_eq, nodeBlock, wide, runBody, define_apply, BinaryOp.eval, shift,
        Nat.shiftRight_eq_div_pow, ← low (_ / _)]
  have kept : (runBody node.body env memory).2 = memory := by
    by_cases wide : 8 < bitw <;> simp [node_eq, nodeBlock, wide, runBody]
  refine ⟨env', agree, ?_⟩
  rw [Program.step_of_block (b := node) (List.find?_cons_of_pos (by simp [node_eq, nodeBlock]))]
  show some (leave new env' (runBody node.body env memory).2
    (.condBr (.reg (new + 2)) onTrue onFalse)) = _
  rw [kept]
  exact congrArg some (leave_condBr _ value new onTrue onFalse memory)

theorem holds_eq_bytes {a b : ℕ} (below : a < 2 ^ 8) (below' : b < 2 ^ 8) :
    (IcmpPredicate.eq.holds 8 a b = true ↔ a = b) ∧
      (IcmpPredicate.ult.holds 8 a b = true ↔ a < b) := by
  simp only [IcmpPredicate.holds, Nat.mod_eq_of_lt below, Nat.mod_eq_of_lt below',
    decide_eq_true_eq, and_self]

end Node

/-! ## The tree -/

/-- What a run from the root of a tree comes to: the block of the case, or the default. -/
def Outcomes (bound NewDefault : ℕ) (Cases : List (ℕ × ℕ)) (routes : List (ℕ × ℕ))
    (nodes : Program (Instr M)) (root value : ℕ) (previous : Option ℕ) (env : Registers)
    (memory : M) : Prop :=
  ∃ env', Agree bound env env' ∧
    ((∃ case ∈ Cases, value = case.1 ∧ ∃ leaf, (leaf, case.2) ∈ routes ∧
        nodes.Reaches (.entering root previous env memory)
          (.entering case.2 (some leaf) env' memory)) ∨
      (∀ case ∈ Cases, value ≠ case.1) ∧ ∃ last,
        nodes.Reaches (.entering root previous env memory)
          (.entering NewDefault (some last) env' memory))

/-- The bytes of a value that were checked are those of the cases. -/
def Checked (bytesChecked : List Bool) (Cases : List (ℕ × ℕ)) (value : ℕ) : Prop :=
  ∀ i < bytesChecked.length, bytesChecked.getD i true = true →
    ∀ case ∈ Cases, byteAt value i = byteAt case.1 i

/-- A tree for some cases, with a route for each of them. -/
structure Converts (bound orig NewDefault bitw : ℕ) (Val : Operand) (Cases : List (ℕ × ℕ))
    (bytesChecked : List Bool) (root : ℕ) (P : Program (Instr M)) (converted : Conversion M)
    (routes : List (ℕ × ℕ)) : Prop where
  program : converted.program = P.map (Block.reroute orig routes)
  targets : (routes.map Prod.snd).Perm (Cases.map Prod.snd)
  range : root ≤ converted.next ∧
    ∀ block ∈ converted.nodes, root ≤ block.label ∧ block.label < converted.next
  labels : (converted.nodes.map Block.label).Nodup
  leaves : ∀ route ∈ routes, route.1 ∈ converted.nodes.map Block.label
  distinct : (routes.map Prod.fst).Nodup
  plain : ∀ block ∈ converted.nodes, block.phis = [] ∧
    ∃ condition onTrue onFalse, block.term = .condBr condition onTrue onFalse
  branches : ∀ block ∈ converted.nodes, ∀ target < bound,
    block.term.targets.count target = (vias routes target).count block.label
  leads : ∀ (previous : Option ℕ) (env : Registers) (memory : M),
    Checked bytesChecked Cases (Val.read env % 2 ^ bitw) →
      Outcomes bound NewDefault Cases routes converted.nodes root (Val.read env % 2 ^ bitw) previous
        env memory

/-- What the pass knows of the cases at any point of the tree. -/
structure CasesLeft (bound bitw : ℕ) (Cases : List (ℕ × ℕ)) (bytesChecked : List Bool) : Prop where
  width : bitw = 8 * bytesChecked.length
  nonempty : Cases ≠ []
  distinct : (Cases.map Prod.fst).Nodup
  small : ∀ case ∈ Cases, case.1 < 2 ^ bitw
  old : ∀ case ∈ Cases, case.2 < bound
  alike : ∀ case ∈ Cases, Checked bytesChecked Cases case.1
  unchecked : ∃ i < bytesChecked.length, bytesChecked.getD i true = false

section Tree

variable {bound orig NewDefault bitw root : ℕ} {Val : Operand} {Cases : List (ℕ × ℕ)}
  {bytesChecked : List Bool} {P : Program (Instr M)}

theorem getD_set (bytesChecked : List Bool) (i j : ℕ) :
    (bytesChecked.set i true).getD j true = if i = j then true else bytesChecked.getD j true := by
  rw [List.getD_eq_getElem?_getD, List.getElem?_set, List.getD_eq_getElem?_getD]
  split
  · split <;> rfl
  · rfl

/-- Cases with one byte at a position are alike there too. -/
theorem CasesLeft.alike_set {i : ℕ} (left : CasesLeft bound bitw Cases bytesChecked)
    (one : (byteSet Cases i).length = 1) :
    ∀ case ∈ Cases, Checked (bytesChecked.set i true) Cases case.1 := by
  intro case member j below checked other member'
  rw [List.length_set] at below
  rw [getD_set] at checked
  split at checked
  · rename_i same
    rw [← same, byteAt_of_length_one one case member, byteAt_of_length_one one other member']
  · exact left.alike case member j below checked other member'

/-- Where all positions are checked, there is one case. -/
theorem CasesLeft.single {i : ℕ} (left : CasesLeft bound bitw Cases bytesChecked)
    (one : (byteSet Cases i).length = 1) (all : (bytesChecked.set i true).all id = true) :
    ∃ case, Cases = [case] := by
  have alike := left.alike_set one
  have everywhere : ∀ j < bytesChecked.length, (bytesChecked.set i true).getD j true = true := by
    intro j below
    rw [List.getD_eq_getElem _ _ (by rwa [List.length_set])]
    exact List.all_eq_true.mp all _ (List.getElem_mem _)
  obtain ⟨first, rest, rfl⟩ := List.exists_cons_of_ne_nil left.nonempty
  refine ⟨first, ?_⟩
  cases rest with
  | nil => rfl
  | cons second rest =>
      have same : first.1 = second.1 := by
        refine eq_of_byteAt (left.width ▸ left.small first List.mem_cons_self)
          (left.width ▸ left.small second (List.mem_cons_of_mem _ List.mem_cons_self))
          fun j below => ?_
        exact alike first List.mem_cons_self j (by rwa [List.length_set])
          (everywhere j below) second
          (List.mem_cons_of_mem _ List.mem_cons_self)
      have distinct := left.distinct
      rw [List.map_cons, List.map_cons, List.nodup_cons] at distinct
      exact absurd (same ▸ List.mem_cons_self) distinct.1

/-- Another position is checked. -/
theorem CasesLeft.check {i : ℕ} (left : CasesLeft bound bitw Cases bytesChecked)
    (one : (byteSet Cases i).length = 1) (more : ¬ (bytesChecked.set i true).all id = true) :
    CasesLeft bound bitw Cases (bytesChecked.set i true) where
  width := by rw [List.length_set]; exact left.width
  nonempty := left.nonempty
  distinct := left.distinct
  small := left.small
  old := left.old
  alike := left.alike_set one
  unchecked := by
    rw [List.all_eq_true, not_forall] at more
    obtain ⟨value, notChecked⟩ := more
    rw [not_forall] at notChecked
    obtain ⟨member, isFalse⟩ := notChecked
    obtain ⟨j, below, rfl⟩ := List.getElem_of_mem member
    refine ⟨j, below, ?_⟩
    rw [List.getD_eq_getElem _ _ below]
    exact Bool.eq_false_iff.mpr isFalse

/-- Some of the cases. -/
theorem CasesLeft.filter (left : CasesLeft bound bitw Cases bytesChecked) (kept : ℕ × ℕ → Bool)
    (some : ∃ case ∈ Cases, kept case = true) :
    CasesLeft bound bitw (Cases.filter kept) bytesChecked where
  width := left.width
  nonempty := by
    obtain ⟨case, member, isKept⟩ := some
    exact List.ne_nil_of_mem (List.mem_filter.mpr ⟨member, isKept⟩)
  distinct := left.distinct.sublist (List.Sublist.map _ List.filter_sublist)
  small case member := left.small case (List.mem_of_mem_filter member)
  old case member := left.old case (List.mem_of_mem_filter member)
  alike case member j below checked other member' := left.alike case (List.mem_of_mem_filter member)
    j below checked other (List.mem_of_mem_filter member')
  unchecked := left.unchecked

/-! ## The three kinds of nodes -/

theorem Outcomes.enter {nodes nodes' : Program (Instr M)} {Cases' routes routes' : List (ℕ × ℕ)}
    {root' value : ℕ} {previous : Option ℕ} {env env1 : Registers} {memory : M}
    (taken : nodes.step (.entering root previous env memory) =
      some (.entering root' (some root) env1 memory))
    (agree : Agree bound env env1)
    (inner : Outcomes bound NewDefault Cases' routes' nodes' root' value (some root) env1 memory)
    (among : ∀ label block, nodes'.block label = some block → nodes.block label = some block)
    (fewerRoutes : ∀ route ∈ routes', route ∈ routes) (fewerCases : ∀ case ∈ Cases', case ∈ Cases)
    (others : ∀ case ∈ Cases, case ∉ Cases' → value ≠ case.1) :
    Outcomes bound NewDefault Cases routes nodes root value previous env memory := by
  obtain ⟨env', agree', ⟨case, member, same, leaf, route, path⟩ | ⟨none, last, path⟩⟩ := inner
  · exact ⟨env', agree.trans agree', .inl ⟨case, fewerCases case member, same, leaf,
      fewerRoutes _ route, .head taken (Program.reaches_of_blocks among path)⟩⟩
  · refine ⟨env', agree.trans agree', .inr ⟨fun case member => ?_, last,
      .head taken (Program.reaches_of_blocks among path)⟩⟩
    by_cases inside : case ∈ Cases'
    · exact none case inside
    · exact others case member inside

theorem block_cons_other {node : Block (Instr M)} {nodes : Program (Instr M)}
    (later : ∀ block ∈ nodes, node.label < block.label) {label : ℕ} {block : Block (Instr M)}
    (found : nodes.block label = some block) :
    Program.block (node :: nodes) label = some block := by
  have := later block (Program.mem_of_block found)
  rw [Program.label_of_block found] at this
  rw [Program.block, List.find?_cons_of_neg (by simp; omega)]
  exact found

/-- The leaves of a tree have its numbers. -/
theorem Converts.via_range {converted : Conversion M} {routes : List (ℕ × ℕ)}
    (converts :
      Converts bound orig NewDefault bitw Val Cases bytesChecked root P converted routes) :
    ∀ route ∈ routes, root ≤ route.1 ∧ route.1 < converted.next := by
  intro route member
  obtain ⟨block, inside, same⟩ := List.mem_map.mp (converts.leaves route member)
  exact same ▸ converts.range.2 block inside

/-- A block with another number is no leaf of the tree. -/
theorem Converts.count_eq_zero {converted : Conversion M} {routes : List (ℕ × ℕ)}
    (converts : Converts bound orig NewDefault bitw Val Cases bytesChecked root P converted routes)
    {label : ℕ} (outside : label < root ∨ converted.next ≤ label) (target : ℕ) :
    (vias routes target).count label = 0 := by
  refine List.count_eq_zero.mpr fun isVia => ?_
  have range := converts.via_range _ (mem_vias.mp isVia)
  dsimp only at range
  omega

variable {i : ℕ}

/-- The last node for a case. -/
theorem converts_leaf {case : ℕ × ℕ} (left : CasesLeft bound bitw [case] bytesChecked)
    (inside : i < bytesChecked.length) (all : (bytesChecked.set i true).all id = true)
    (new : bound ≤ root) (newDefault : bound ≤ NewDefault) (P : Program (Instr M)) :
    Converts bound orig NewDefault bitw Val [case] bytesChecked root P
      ⟨root + 3, renamePhis P case.2 orig root,
        [nodeBlock root bitw Val i .eq (byteAt case.1 i) case.2 NewDefault]⟩
      [(root, case.2)] where
  program := renamePhis_eq P case.2 orig root
  targets := .refl _
  range := ⟨by simp, by simp [nodeBlock]⟩
  labels := List.nodup_singleton _
  leaves := by simp [nodeBlock]
  distinct := List.nodup_singleton _
  plain := by simp [nodeBlock]
  branches := by
    intro block member target old
    obtain rfl := List.mem_singleton.mp member
    have notDefault : NewDefault ≠ target := by omega
    by_cases here : case.2 = target <;>
      simp [nodeBlock, Terminator.targets, vias, here, notDefault]
  leads := by
    intro previous env memory checked
    have width := left.width
    obtain ⟨env', agree, step⟩ := step_nodeBlock root bitw Val i (byteAt case.1 i) case.2 NewDefault
      (by omega) (.inl rfl) [] previous env memory
    refine ⟨env', agree.weaken new, ?_⟩
    by_cases same : byteAt (Val.read env % 2 ^ bitw) i = byteAt case.1 i
    · refine .inl ⟨case, List.mem_singleton_self _, ?_, root, List.mem_singleton_self _, .single ?_⟩
      · refine eq_of_byteAt (width ▸ Nat.mod_lt _ (Nat.two_pow_pos _))
          (width ▸ left.small case (List.mem_singleton_self _)) fun j below => ?_
        by_cases here : i = j
        · exact here ▸ same
        · refine checked j below ?_ case (List.mem_singleton_self _)
          have set := getD_set bytesChecked i j
          rw [if_neg here, List.getD_eq_getElem _ _ (by rwa [List.length_set])] at set
          exact set.symm.trans (List.all_eq_true.mp all _ (List.getElem_mem _))
      · rw [if_pos ((holds_eq_bytes (byteAt_lt _ _) (byteAt_lt _ _)).1.mpr same)] at step
        exact step
    · refine .inr ⟨fun other member value => ?_, root, .single ?_⟩
      · obtain rfl := List.mem_singleton.mp member
        exact same (congrArg (byteAt · i) value)
      · rw [if_neg fun holds => same ((holds_eq_bytes (byteAt_lt _ _) (byteAt_lt _ _)).1.mp holds)]
          at step
        exact step

/-- A node for a byte that all cases have. -/
theorem converts_check {converted : Conversion M} {routes : List (ℕ × ℕ)}
    (left : CasesLeft bound bitw Cases bytesChecked) (old : Old bound Val)
    (inside : i < bytesChecked.length) {byte : ℕ} (one : ∀ case ∈ Cases, byteAt case.1 i = byte)
    (new : bound ≤ root) (newDefault : bound ≤ NewDefault)
    (inner : Converts bound orig NewDefault bitw Val Cases (bytesChecked.set i true) (root + 3) P
      converted routes) :
    Converts bound orig NewDefault bitw Val Cases bytesChecked root P
      ⟨converted.next, converted.program,
        nodeBlock root bitw Val i .eq byte (root + 3) NewDefault :: converted.nodes⟩ routes where
  program := inner.program
  targets := inner.targets
  range := by
    obtain ⟨less, range⟩ := inner.range
    refine ⟨Nat.le_trans (Nat.le_add_right _ _) less, fun block member => ?_⟩
    rcases List.mem_cons.mp member with rfl | later
    · exact ⟨Nat.le_refl _, Nat.lt_of_lt_of_le (Nat.lt_add_of_pos_right (by norm_num)) less⟩
    · exact ⟨Nat.le_trans (Nat.le_add_right _ _) (range block later).1, (range block later).2⟩
  labels := by
    refine List.nodup_cons.mpr ⟨fun member => ?_, inner.labels⟩
    obtain ⟨block, later, same⟩ := List.mem_map.mp member
    have := (inner.range.2 block later).1
    rw [same] at this
    exact absurd this (by simp [nodeBlock])
  leaves route member := List.mem_cons_of_mem _ (inner.leaves route member)
  distinct := inner.distinct
  plain := by
    intro block member
    rcases List.mem_cons.mp member with rfl | later
    · exact ⟨rfl, _, _, _, rfl⟩
    · exact inner.plain block later
  branches := by
    intro block member target below
    rcases List.mem_cons.mp member with rfl | later
    · have none := inner.count_eq_zero (.inl (show root < root + 3 by omega)) target
      have notNode : root + 3 ≠ target := by omega
      have notDefault : NewDefault ≠ target := by omega
      simp [nodeBlock, Terminator.targets, none, notNode, notDefault]
    · exact inner.branches block later target below
  leads := by
    intro previous env memory checked
    have width := left.width
    obtain ⟨env1, agree, step⟩ := step_nodeBlock root bitw Val i byte (root + 3) NewDefault
      (by omega) (.inl rfl) converted.nodes previous env memory
    have agree1 := agree.weaken new
    obtain ⟨first, member⟩ := List.exists_mem_of_ne_nil _ left.nonempty
    have small : byte < 2 ^ 8 := one first member ▸ byteAt_lt _ _
    by_cases same : byteAt (Val.read env % 2 ^ bitw) i = byte
    · rw [if_pos ((holds_eq_bytes (byteAt_lt _ _) small).1.mpr same)] at step
      have value : Val.read env1 = Val.read env := (agree1.read old).symm
      have checked1 : Checked (bytesChecked.set i true) Cases (Val.read env1 % 2 ^ bitw) := by
        intro j below isChecked case mem
        rw [value]
        rw [getD_set] at isChecked
        rw [List.length_set] at below
        split at isChecked
        · rename_i here
          rw [← here, same, one case mem]
        · exact checked j below isChecked case mem
      have later := inner.leads (some root) env1 memory checked1
      rw [value] at later
      refine Outcomes.enter step agree1 later (fun label block found => ?_)
        (fun _ mem => mem) (fun _ mem => mem) fun case mem absent => absurd mem absent
      refine block_cons_other (fun other mem => ?_) found
      have := (inner.range.2 other mem).1
      simp only [nodeBlock]
      omega
    · rw [if_neg fun holds => same ((holds_eq_bytes (byteAt_lt _ _) small).1.mp holds)] at step
      refine ⟨env1, agree1, .inr ⟨fun case mem value => ?_, root, .single step⟩⟩
      exact same (value ▸ one case mem)

section Pivot

variable {first second : Conversion M} {routes routes' : List (ℕ × ℕ)} {pivot : ℕ}

/-- The cases on either side of a pivot have different leaves, and leaves other than the node. -/
theorem Converts.branches_pivot {Cases' : List (ℕ × ℕ)} {P' : Program (Instr M)}
    (inner : Converts bound orig NewDefault bitw Val Cases bytesChecked (root + 3) P first routes)
    (inner' : Converts bound orig NewDefault bitw Val Cases' bytesChecked first.next P' second
      routes') (new : bound ≤ root) :
    ∀ block ∈ nodeBlock root bitw Val i .ult pivot (root + 3) first.next ::
        (first.nodes ++ second.nodes), ∀ target < bound,
      block.term.targets.count target = (vias (routes ++ routes') target).count block.label := by
  intro block member target below
  have less := inner.range.1
  rw [vias_append, List.count_append]
  rcases List.mem_cons.mp member with rfl | later
  · have notNode : root + 3 ≠ target := by omega
    have notNext : first.next ≠ target := by omega
    have none := inner.count_eq_zero (.inl (show root < root + 3 by omega)) target
    have none' := inner'.count_eq_zero (.inl (show root < first.next by omega)) target
    simp [nodeBlock, Terminator.targets, none, none', notNode, notNext]
  · rcases List.mem_append.mp later with low | high
    · rw [inner.branches block low target below,
        inner'.count_eq_zero (.inl (inner.range.2 block low).2), Nat.add_zero]
    · rw [inner'.branches block high target below,
        inner.count_eq_zero (.inr (inner'.range.2 block high).1), Nat.zero_add]

/-- The nodes on one side of a pivot come before those on the other, and after the pivot's. -/
theorem Converts.apart_pivot {Cases' : List (ℕ × ℕ)} {P' : Program (Instr M)}
    (inner : Converts bound orig NewDefault bitw Val Cases bytesChecked (root + 3) P first routes)
    (inner' : Converts bound orig NewDefault bitw Val Cases' bytesChecked first.next P' second
      routes') :
    (∀ block ∈ first.nodes, ∀ block' ∈ second.nodes, block.label < block'.label) ∧
      ∀ block ∈ first.nodes ++ second.nodes, root < block.label ∧ block.label < second.next := by
  obtain ⟨less, range⟩ := inner.range
  obtain ⟨less', range'⟩ := inner'.range
  refine ⟨fun block low block' high =>
    Nat.lt_of_lt_of_le (range block low).2 (range' block' high).1, fun block member => ?_⟩
  rcases List.mem_append.mp member with low | high
  · have := range block low
    omega
  · have := range' block high
    omega

/-- From a node with a pivot a run goes on with the cases on the side of its byte. -/
theorem Converts.leads_pivot (left : CasesLeft bound bitw Cases bytesChecked) (old : Old bound Val)
    (inside : i < bytesChecked.length) (small : pivot < 2 ^ 8) (new : bound ≤ root)
    {P' : Program (Instr M)}
    (inner : Converts bound orig NewDefault bitw Val
      (Cases.filter fun case => byteAt case.1 i < pivot) bytesChecked (root + 3) P first routes)
    (inner' : Converts bound orig NewDefault bitw Val
      (Cases.filter fun case => ¬ byteAt case.1 i < pivot) bytesChecked first.next P' second
      routes') (previous : Option ℕ) (env : Registers) (memory : M)
    (checked : Checked bytesChecked Cases (Val.read env % 2 ^ bitw)) :
    Outcomes bound NewDefault Cases (routes ++ routes')
      (nodeBlock root bitw Val i .ult pivot (root + 3) first.next :: (first.nodes ++ second.nodes))
      root (Val.read env % 2 ^ bitw) previous env memory := by
  obtain ⟨apart, later⟩ := inner.apart_pivot inner'
  have width := left.width
  obtain ⟨env1, agree, step⟩ := step_nodeBlock root bitw Val i pivot (root + 3) first.next
    (by omega) (.inr rfl) (first.nodes ++ second.nodes) previous env memory
  have agree1 := agree.weaken new
  have value : Val.read env1 = Val.read env := (agree1.read old).symm
  have checked1 : ∀ kept, Checked bytesChecked (Cases.filter kept) (Val.read env1 % 2 ^ bitw) :=
    fun kept j below isChecked case mem =>
      value ▸ checked j below isChecked case (List.mem_of_mem_filter mem)
  by_cases low : byteAt (Val.read env % 2 ^ bitw) i < pivot
  · rw [if_pos ((holds_eq_bytes (byteAt_lt _ _) small).2.mpr low)] at step
    have leads := inner.leads (some root) env1 memory (checked1 _)
    rw [value] at leads
    refine Outcomes.enter step agree1 leads (fun label block found => ?_)
      (fun _ mem => List.mem_append_left _ mem) (fun _ mem => List.mem_of_mem_filter mem)
      fun case mem absent same => absent (List.mem_filter.mpr ⟨mem, ?_⟩)
    · exact block_cons_other (fun block member => (later block member).1)
        (Program.block_append_left found)
    · exact decide_eq_true (same ▸ low)
  · rw [if_neg fun holds => low ((holds_eq_bytes (byteAt_lt _ _) small).2.mp holds)] at step
    have leads := inner'.leads (some root) env1 memory (checked1 _)
    rw [value] at leads
    refine Outcomes.enter step agree1 leads (fun label block found => ?_)
      (fun _ mem => List.mem_append_right _ mem) (fun _ mem => List.mem_of_mem_filter mem)
      fun case mem absent same => absent (List.mem_filter.mpr ⟨mem, ?_⟩)
    · refine block_cons_other (fun block member => (later block member).1)
        ((Program.block_append_right fun other mem => ?_).trans found)
      have := apart other mem block (Program.mem_of_block found)
      rw [Program.label_of_block found] at this
      exact this.ne
    · exact decide_eq_true (same ▸ low)

/-- A node that compares a byte with a pivot. -/
theorem converts_pivot (left : CasesLeft bound bitw Cases bytesChecked) (old : Old bound Val)
    (inside : i < bytesChecked.length) (small : pivot < 2 ^ 8) (new : bound ≤ root)
    (inner : Converts bound orig NewDefault bitw Val
      (Cases.filter fun case => byteAt case.1 i < pivot) bytesChecked (root + 3) P first routes)
    (inner' : Converts bound orig NewDefault bitw Val
      (Cases.filter fun case => ¬ byteAt case.1 i < pivot) bytesChecked first.next first.program
      second routes') :
    Converts bound orig NewDefault bitw Val Cases bytesChecked root P
      ⟨second.next, second.program, nodeBlock root bitw Val i .ult pivot (root + 3) first.next ::
        (first.nodes ++ second.nodes)⟩ (routes ++ routes') := by
  obtain ⟨apart, later⟩ := inner.apart_pivot inner'
  constructor
  case program =>
    rw [inner'.program, inner.program, List.map_map]
    congr 1
    funext block
    exact (Block.reroute_append orig routes routes' block).symm
  case targets =>
    rw [List.map_append]
    refine (inner.targets.append inner'.targets).trans ?_
    rw [← List.map_append]
    refine List.Perm.map _ ?_
    have parts := List.filter_append_perm (fun case => decide (byteAt case.1 i < pivot)) Cases
    simp only [← decide_not] at parts
    exact parts
  case range =>
    have less := inner.range.1
    have less' := inner'.range.1
    refine ⟨show root ≤ second.next by omega, fun block member => ?_⟩
    rcases List.mem_cons.mp member with rfl | below
    · exact ⟨Nat.le_refl _, show root < second.next by omega⟩
    · exact ⟨(later block below).1.le, (later block below).2⟩
  case labels =>
    refine List.nodup_cons.mpr ⟨fun member => ?_, ?_⟩
    · obtain ⟨block, below, same⟩ := List.mem_map.mp member
      exact absurd same (later block below).1.ne'
    · rw [List.map_append]
      refine inner.labels.append inner'.labels fun label low high => ?_
      obtain ⟨block, below, rfl⟩ := List.mem_map.mp low
      obtain ⟨block', above, same⟩ := List.mem_map.mp high
      exact absurd same (apart block below block' above).ne'
  case leaves =>
    intro route member
    rw [List.map_cons, List.map_append]
    refine List.mem_cons_of_mem _ (List.mem_append.mpr ?_)
    exact (List.mem_append.mp member).imp (inner.leaves route) (inner'.leaves route)
  case distinct =>
    rw [List.map_append]
    refine inner.distinct.append inner'.distinct fun via low high => ?_
    obtain ⟨route, below, rfl⟩ := List.mem_map.mp low
    obtain ⟨route', above, same⟩ := List.mem_map.mp high
    have range := inner.via_range route below
    have range' := inner'.via_range route' above
    omega
  case plain =>
    intro block member
    rcases List.mem_cons.mp member with rfl | below
    · exact ⟨rfl, _, _, _, rfl⟩
    · exact (List.mem_append.mp below).elim (inner.plain block) (inner'.plain block)
  case branches => exact inner.branches_pivot inner' new
  case leads => exact inner.leads_pivot left old inside small new inner'

end Pivot

/-! ## The whole tree -/

theorem count_false_set (inside : i < bytesChecked.length)
    (unchecked : bytesChecked.getD i true = false) :
    (bytesChecked.set i true).count false + 1 = bytesChecked.count false := by
  rw [List.getD_eq_getElem _ _ inside] at unchecked
  have positive : 0 < bytesChecked.count false :=
    List.count_pos_iff.mpr (unchecked ▸ List.getElem_mem inside)
  rw [List.count_set inside, unchecked]
  simp only [beq_self_eq_true, if_true]
  simp
  omega

/-- The pass gets through with a tree for the cases. The induction is on the fuel: a node for a
common byte checks another position, and a pivot leaves fewer cases on either side. -/
theorem switchConvert_spec (orig : ℕ) (old : Old bound Val)
    (newDefault : bound ≤ NewDefault) {fuel : ℕ}
    (left : CasesLeft bound bitw Cases bytesChecked)
    (enough : Cases.length + bytesChecked.count false ≤ fuel) (new : bound ≤ root)
    (P : Program (Instr M)) :
    ∃ converted routes,
      switchConvert orig NewDefault bitw Val fuel Cases bytesChecked root P = some converted ∧
        Converts bound orig NewDefault bitw Val Cases bytesChecked root P converted routes := by
  induction fuel generalizing Cases bytesChecked root P with
  | zero =>
      have := List.length_pos_of_ne_nil left.nonempty
      omega
  | succ fuel ih =>
      obtain ⟨j, below, unchecked⟩ := left.unchecked
      obtain ⟨inside, free, size⟩ := smallest_spec Cases below unchecked
      have fewer := count_false_set inside free
      rw [switchConvert]
      dsimp only
      rw [if_neg (by rw [free]; decide), size]
      set i := (smallest Cases bytesChecked).1 with i_eq
      by_cases one : (byteSet Cases i).length = 1
      · rw [if_pos one]
        have bytes := byteAt_of_length_one one
        by_cases all : (bytesChecked.set i true).all id = true
        · obtain ⟨case, rfl⟩ := left.single one all
          rw [if_pos all, ← bytes case List.mem_cons_self]
          exact ⟨_, _, rfl, converts_leaf left inside all new newDefault P⟩
        · rw [if_neg all]
          obtain ⟨converted, routes, found, inner⟩ :=
            ih (left.check one all) (by omega) (Nat.le_add_right_of_le new) P
          rw [found]
          exact ⟨_, _, rfl, converts_check left old inside bytes new newDefault inner⟩
      · rw [if_neg one]
        obtain ⟨small, low, high⟩ := pivot_spec left.nonempty one
        set pivot := (byteSet Cases i).getD ((byteSet Cases i).length / 2) 0 with pivot_eq
        have shorter :
            (Cases.filter fun case => byteAt case.1 i < pivot).length < Cases.length := by
          obtain ⟨case, member, above⟩ := high
          exact List.length_filter_lt_length_iff_exists.mpr ⟨case, member, by simpa using above⟩
        have shorter' :
            (Cases.filter fun case => ¬ byteAt case.1 i < pivot).length < Cases.length := by
          obtain ⟨case, member, below⟩ := low
          exact List.length_filter_lt_length_iff_exists.mpr ⟨case, member, by simpa using below⟩
        obtain ⟨first, routes, found, inner⟩ := ih
          (left.filter (fun case => byteAt case.1 i < pivot)
            (low.imp fun _ ⟨member, below⟩ => ⟨member, decide_eq_true below⟩))
          (by omega) (Nat.le_add_right_of_le new) P
        obtain ⟨second, routes', found', inner'⟩ := ih
          (left.filter (fun case => ¬ byteAt case.1 i < pivot)
            (high.imp fun _ ⟨member, above⟩ => ⟨member, decide_eq_true above⟩))
          (by omega) (Nat.le_trans (Nat.le_add_right_of_le new) inner.range.1) first.program
        rw [found, Option.bind_some, found']
        exact ⟨_, _, rfl, converts_pivot left old inside small new inner inner'⟩

end Tree

end GreenFuzz.Instrumentation
