import GreenFuzz.Library.SsaSplicing

/-!
# Replacing the branches out of a block

A compiler pass that expands the terminator of a block into control flow adds blocks, through which
the successors are now entered. A phi node had an entry for every branch of the block, and each
entry is given to one of the new blocks (`Phi.renames`).

Where the new blocks lead to the successor that the terminator chose, the program has the meaning it
had (`Routing.meaning`). A verified program has an entry in its phi nodes for every branch; where
each branch of the block gets a new block, the program stays verified (`Detour.verified`).
-/

set_option autoImplicit false

namespace GreenFuzz.Library

open StateTransition

/-! ## Entries of a phi node -/

/-- The first entry for a block, given to another one. -/
def renameFirst (old new : ℕ) : List (Operand × ℕ) → List (Operand × ℕ)
  | [] => []
  | entry :: rest =>
      if entry.2 = old then (entry.1, new) :: rest else entry :: renameFirst old new rest

def Phi.renameFirst (old new : ℕ) (phi : Phi) : Phi :=
  { phi with incoming := Library.renameFirst old new phi.incoming }

/-- An entry for each of the new blocks. -/
def Phi.renames (old : ℕ) (vias : List ℕ) (phi : Phi) : Phi :=
  vias.foldl (fun phi via => phi.renameFirst old via) phi

/-- The blocks that have an entry, as often as they have one. -/
def Phi.sources (phi : Phi) : List ℕ := phi.incoming.map Prod.snd

/-- Entries for one block have one operand. -/
def Phi.Uniform (phi : Phi) : Prop :=
  ∀ first ∈ phi.incoming, ∀ second ∈ phi.incoming, first.2 = second.2 → first.1 = second.1

section Entries

variable {old new : ℕ} {entries : List (Operand × ℕ)}

theorem renameFirst_split (new : ℕ) (member : old ∈ entries.map Prod.snd) :
    ∃ before op after, entries = before ++ (op, old) :: after ∧ old ∉ before.map Prod.snd ∧
      renameFirst old new entries = before ++ (op, new) :: after := by
  induction entries with
  | nil => exact absurd member List.not_mem_nil
  | cons entry rest ih =>
      by_cases here : entry.2 = old
      · exact ⟨[], entry.1, rest, by rw [← here]; rfl, List.not_mem_nil, if_pos here⟩
      · have later : old ∈ rest.map Prod.snd :=
          (List.mem_cons.mp member).resolve_left (Ne.symm here)
        obtain ⟨before, op, after, rfl, absent, renamed⟩ := ih later
        refine ⟨entry :: before, op, after, rfl, ?_, ?_⟩
        · rw [List.map_cons, List.mem_cons, not_or]
          exact ⟨Ne.symm here, absent⟩
        · rw [renameFirst, if_neg here, renamed]
          rfl

theorem count_renameFirst (member : old ∈ entries.map Prod.snd) (label : ℕ) :
    ((renameFirst old new entries).map Prod.snd).count label + (if label = old then 1 else 0) =
      (entries.map Prod.snd).count label + if label = new then 1 else 0 := by
  obtain ⟨before, op, after, rfl, _, renamed⟩ := renameFirst_split new member
  rw [renamed]
  simp only [List.map_append, List.map_cons, List.count_append, List.count_cons, beq_iff_eq]
  split_ifs <;> omega

/-- An entry after the change is an entry from before, or the one that was given away. -/
theorem mem_renameFirst {entry : Operand × ℕ} (inside : entry ∈ renameFirst old new entries) :
    entry ∈ entries ∨ entry.2 = new ∧ (entry.1, old) ∈ entries := by
  induction entries with
  | nil => exact absurd inside List.not_mem_nil
  | cons first rest ih =>
      rw [renameFirst] at inside
      split at inside
      · rename_i here
        rcases List.mem_cons.mp inside with rfl | later
        · exact .inr ⟨rfl, by rw [← here]; exact List.mem_cons_self⟩
        · exact .inl (List.mem_cons_of_mem _ later)
      · rcases List.mem_cons.mp inside with rfl | later
        · exact .inl List.mem_cons_self
        · rcases ih later with old | ⟨isNew, old⟩
          · exact .inl (List.mem_cons_of_mem _ old)
          · exact .inr ⟨isNew, List.mem_cons_of_mem _ old⟩

theorem find_renameFirst {previous : Option ℕ} (notOld : previous ≠ some old)
    (notNew : previous ≠ some new) :
    (renameFirst old new entries).find? (fun entry => some entry.2 = previous) =
      entries.find? fun entry => some entry.2 = previous := by
  induction entries with
  | nil => rfl
  | cons first rest ih =>
      rw [renameFirst]
      split
      · rename_i here
        rw [List.find?_cons_of_neg (by simpa using Ne.symm notNew),
          List.find?_cons_of_neg (by simpa [here] using Ne.symm notOld)]
      · rw [List.find?_cons, List.find?_cons, ih]

end Entries

section Values

variable {phi : Phi} {old new : ℕ} {env : Registers}

/-- A phi node reads the operand that it has for a block. -/
theorem Phi.Uniform.value (uniform : phi.Uniform) {op : Operand} {label : ℕ}
    (member : (op, label) ∈ phi.incoming) : phi.value (some label) env = op.read env := by
  cases found : phi.incoming.find? fun entry => some entry.2 = some label with
  | none => exact absurd (List.find?_eq_none.mp found _ member) (by simp)
  | some entry =>
      have here : entry.2 = label := by simpa using List.find?_some found
      have same : entry.1 = op := uniform entry (List.mem_of_find?_eq_some found) _ member here
      rw [Phi.value, found, ← same]

theorem Phi.Uniform.renameFirst (uniform : phi.Uniform) (fresh : new ∉ phi.sources) :
    (phi.renameFirst old new).Uniform := by
  have notNew : ∀ entry ∈ phi.incoming, entry.2 ≠ new := fun entry inside same =>
    fresh (same ▸ List.mem_map_of_mem inside)
  intro first inside second inside' same
  rcases mem_renameFirst inside with old1 | ⟨new1, old1⟩ <;>
    rcases mem_renameFirst inside' with old2 | ⟨new2, old2⟩
  · exact uniform first old1 second old2 same
  · exact absurd (same.trans new2) (notNew first old1)
  · exact absurd (same.symm.trans new1) (notNew second old2)
  · exact uniform (first.1, old) old1 (second.1, old) old2 rfl

theorem Phi.value_renameFirst_other {previous : Option ℕ} (notOld : previous ≠ some old)
    (notNew : previous ≠ some new) :
    (phi.renameFirst old new).value previous env = phi.value previous env := by
  rw [Phi.value, Phi.value, Phi.renameFirst, find_renameFirst notOld notNew]

theorem Phi.value_renameFirst_new (uniform : phi.Uniform) (member : old ∈ phi.sources)
    (fresh : new ∉ phi.sources) :
    (phi.renameFirst old new).value (some new) env = phi.value (some old) env := by
  obtain ⟨before, op, after, split, _, renamed⟩ := renameFirst_split new member
  have inside : (op, old) ∈ phi.incoming := split ▸ List.mem_append_right _ List.mem_cons_self
  have inside' : (op, new) ∈ (phi.renameFirst old new).incoming := by
    rw [Phi.renameFirst, renamed]
    exact List.mem_append_right _ List.mem_cons_self
  rw [uniform.value inside, (uniform.renameFirst fresh).value inside']

/-- The block that gave an entry away still has its operand, where it has another entry. -/
theorem Phi.value_renameFirst_old (uniform : phi.Uniform) (fresh : new ∉ phi.sources)
    (differs : new ≠ old) (left : old ∈ (phi.renameFirst old new).sources) :
    (phi.renameFirst old new).value (some old) env = phi.value (some old) env := by
  obtain ⟨entry, inside, here⟩ := List.mem_map.mp left
  have inside' : (entry.1, old) ∈ (phi.renameFirst old new).incoming := by
    rwa [← here, Prod.mk.eta, here]
  rcases mem_renameFirst inside' with before | ⟨isNew, _⟩
  · rw [(uniform.renameFirst fresh).value inside', uniform.value before]
  · exact absurd isNew.symm differs

theorem Phi.count_renameFirst (new : ℕ) (member : old ∈ phi.sources) (label : ℕ) :
    (phi.renameFirst old new).sources.count label + (if label = old then 1 else 0) =
      phi.sources.count label + if label = new then 1 else 0 :=
  Library.count_renameFirst member label

/-- New blocks that get an entry each. -/
structure Phi.Offers (phi : Phi) (old : ℕ) (vias : List ℕ) : Prop where
  uniform : phi.Uniform
  fresh : ∀ via ∈ vias, via ∉ phi.sources ∧ via ≠ old
  distinct : vias.Nodup
  enough : vias.length ≤ phi.sources.count old

theorem Phi.Offers.member {via : ℕ} {vias : List ℕ} (offers : phi.Offers old (via :: vias)) :
    old ∈ phi.sources :=
  List.count_pos_iff.mp (Nat.lt_of_lt_of_le (Nat.succ_pos _) offers.enough)

theorem Phi.Offers.next {via : ℕ} {vias : List ℕ} (offers : phi.Offers old (via :: vias)) :
    (phi.renameFirst old via).Offers old vias := by
  obtain ⟨fresh, differs⟩ := offers.fresh via List.mem_cons_self
  obtain ⟨notLater, distinct⟩ := List.nodup_cons.mp offers.distinct
  have count := Phi.count_renameFirst via offers.member
  refine ⟨offers.uniform.renameFirst fresh, fun other inside => ?_, distinct, ?_⟩
  · obtain ⟨fresh', differs'⟩ := offers.fresh other (List.mem_cons_of_mem _ inside)
    refine ⟨?_, differs'⟩
    have notVia : other ≠ via := fun same => notLater (same ▸ inside)
    have := count other
    rw [if_neg differs', if_neg notVia, Nat.add_zero, Nat.add_zero] at this
    rw [← List.count_eq_zero, this, List.count_eq_zero]
    exact fresh'
  · have := count old
    have enough := offers.enough
    rw [if_pos rfl, if_neg (Ne.symm differs)] at this
    rw [List.length_cons] at enough
    omega

theorem Phi.dest_renames (vias : List ℕ) (phi : Phi) : (phi.renames old vias).dest = phi.dest := by
  induction vias generalizing phi with
  | nil => rfl
  | cons via rest ih => exact ih _

theorem Phi.Offers.uniform_renames {vias : List ℕ} (offers : phi.Offers old vias) :
    (phi.renames old vias).Uniform := by
  induction vias generalizing phi with
  | nil => exact offers.uniform
  | cons via rest ih => exact ih offers.next

/-- How often the blocks have an entry after the change. -/
theorem Phi.Offers.count_renames {vias : List ℕ} (offers : phi.Offers old vias) (label : ℕ) :
    (phi.renames old vias).sources.count label + (if label = old then vias.length else 0) =
      phi.sources.count label + vias.count label := by
  induction vias generalizing phi with
  | nil => simp [Phi.renames]
  | cons via rest ih =>
      have first := Phi.count_renameFirst via offers.member label
      have rest := ih offers.next
      rw [List.count_cons, List.length_cons]
      rw [Phi.renames, List.foldl_cons]
      rw [Phi.renames] at rest
      simp only [beq_iff_eq, eq_comm (a := via)]
      split_ifs at first rest ⊢ <;> omega

/-- A phi node reads the same for the other blocks. -/
theorem Phi.value_renames_other {vias : List ℕ} {previous : Option ℕ} (notOld : previous ≠ some old)
    (notNew : ∀ via ∈ vias, previous ≠ some via) :
    (phi.renames old vias).value previous env = phi.value previous env := by
  induction vias generalizing phi with
  | nil => rfl
  | cons via rest ih =>
      refine Eq.trans ?_ (Phi.value_renameFirst_other notOld (notNew via List.mem_cons_self))
      exact ih fun other inside => notNew other (List.mem_cons_of_mem _ inside)

/-- A phi node reads for a new block what it read for the old one. -/
theorem Phi.Offers.value_renames {vias : List ℕ} (offers : phi.Offers old vias) {via : ℕ}
    (member : via ∈ vias) :
    (phi.renames old vias).value (some via) env = phi.value (some old) env := by
  induction vias generalizing phi with
  | nil => exact absurd member List.not_mem_nil
  | cons first rest ih =>
      obtain ⟨fresh, differs⟩ := offers.fresh first List.mem_cons_self
      obtain ⟨notLater, _⟩ := List.nodup_cons.mp offers.distinct
      by_cases here : via = first
      · subst here
        refine Eq.trans ?_ (Phi.value_renameFirst_new offers.uniform offers.member fresh)
        show ((phi.renameFirst old via).renames old rest).value (some via) env = _
        refine Phi.value_renames_other (mt Option.some.inj differs) fun other inside same => ?_
        exact notLater (Option.some.inj same ▸ inside)
      · have later := (List.mem_cons.mp member).resolve_left here
        refine (ih offers.next later).trans
          (Phi.value_renameFirst_old offers.uniform fresh differs ?_)
        have enough := offers.next.enough
        have positive := List.length_pos_of_mem later
        exact List.count_pos_iff.mp (Nat.lt_of_lt_of_le positive enough)

end Values

/-! ## The run of the program with the new blocks -/

section Routing

variable {I M : Type*} [Instruction I M] {P P' : Program I} {b : Block I}

/-- The new blocks through which a block is entered. -/
def vias (routes : List (ℕ × ℕ)) (label : ℕ) : List ℕ :=
  (routes.filter fun route => route.2 = label).map Prod.fst

theorem mem_vias {routes : List (ℕ × ℕ)} {label via : ℕ} :
    via ∈ vias routes label ↔ (via, label) ∈ routes := by
  simp [vias]

theorem vias_singleton (via target label : ℕ) :
    vias [(via, target)] label = if target = label then [via] else [] := by
  by_cases here : target = label <;> simp [vias, here]

/-- A block whose phi nodes give their entries for one block to the new blocks. -/
def Block.reroute (old : ℕ) (routes : List (ℕ × ℕ)) (block : Block I) : Block I :=
  { block with phis := block.phis.map (Phi.renames old (vias routes block.label)) }

theorem vias_append (first second : List (ℕ × ℕ)) (label : ℕ) :
    vias (first ++ second) label = vias first label ++ vias second label := by
  simp [vias]

theorem Block.reroute_append (old : ℕ) (first second : List (ℕ × ℕ)) (block : Block I) :
    block.reroute old (first ++ second) = (block.reroute old first).reroute old second := by
  simp only [Block.reroute, vias_append, List.map_map]
  congr 2
  funext phi
  exact List.foldl_append

/-- A program with new blocks on the way from one block to its successors. A route is a new block
and the successor it leads to. -/
structure Routing (P P' : Program I) (b : Block I) (routes : List (ℕ × ℕ)) (term : Terminator) :
    Prop where
  found : P.block b.label = some b
  lookup : ∀ label < P.bound, P'.block label = (P.block label).map fun block =>
    { block.reroute b.label routes with
      term := if block.label = b.label then term else block.term }
  entry : P'.head?.map Block.label = P.head?.map Block.label
  new : ∀ route ∈ routes, P.bound ≤ route.1
  offers : ∀ block ∈ P, ∀ phi ∈ block.phis, phi.Offers b.label (vias routes block.label)

/-- The new blocks lead to the successor that the terminator chooses. -/
def Routing.Leads (M : Type*) [Instruction I M] (P P' : Program I) (b : Block I)
    (routes : List (ℕ × ℕ)) (term : Terminator) : Prop :=
  ∀ (env : Registers) (memory : M), ∃ target,
    leave b.label env memory b.term = .entering target (some b.label) env memory ∧
      ∃ via env', (via, target) ∈ routes ∧ Agree P.bound env env' ∧
        P'.Reaches (leave b.label env memory term) (.entering target (some via) env' memory)

/-- A run of the program and one with the new blocks stand before the same block, with the same old
registers, or are over with the same outcome. -/
inductive Routed (P : Program I) (b : Block I) (routes : List (ℕ × ℕ)) : Run M → Run M → Prop where
  | entering {label : ℕ} {previous previous' : Option ℕ} {env env' : Registers} {memory : M}
      (old : label < P.bound) (came : ∀ label ∈ previous, label < P.bound)
      (route : previous ≠ some b.label ∧ previous' = previous ∨
        previous = some b.label ∧ ∃ via ∈ vias routes label, previous' = some via)
      (agree : Agree P.bound env env') :
      Routed P b routes (.entering label previous env memory)
        (.entering label previous' env' memory)
  | ended (outcome : Outcome M) : Routed P b routes (.ended outcome) (.ended outcome)

variable {routes : List (ℕ × ℕ)} {term : Terminator}

section Through

variable {block : Block I} {label : ℕ} {previous previous' : Option ℕ} {env env' : Registers}
  (routing : Routing P P' b routes term) (member : block ∈ P) (labelled : block.label = label)
  (came : ∀ label ∈ previous, label < P.bound)
  (route : previous ≠ some b.label ∧ previous' = previous ∨
    previous = some b.label ∧ ∃ via ∈ vias routes label, previous' = some via)
  (agree : Agree P.bound env env')

include routing member labelled came route agree

theorem Routing.agree_phis :
    Agree P.bound (runPhis block.phis previous env)
      (runPhis (block.reroute b.label routes).phis previous' env') := by
  refine agree.runPhis (Phi.renames b.label (vias routes block.label))
    (Phi.dest_renames _) fun phi inside => ?_
  have numbers : ∀ number ∈ phi.numbers, number < P.bound :=
    fun number mem => Program.lt_bound member (List.mem_cons_of_mem _
      (List.mem_append_left _ (List.mem_append_left _ (List.mem_flatMap.mpr ⟨phi, inside, mem⟩))))
  have offers := routing.offers block member phi inside
  rw [agree.phiValue numbers]
  rcases route with ⟨differs, rfl⟩ | ⟨rfl, via, isVia, rfl⟩
  · refine (Phi.value_renames_other differs fun via isVia same => ?_).symm
    have := came via (same ▸ rfl)
    have := routing.new _ (mem_vias.mp isVia)
    omega
  · exact (offers.value_renames (labelled ▸ isVia)).symm

/-- The registers and the memory after the phi nodes and the body of a block. -/
theorem Routing.through (memory : M) :
    ∃ env1 env2 memory', Agree P.bound env1 env2 ∧
      (∀ term, Block.run ⟨block.label, block.phis, block.body, term⟩ previous env memory =
        leave block.label env1 memory' term) ∧
      ∀ term, Block.run { block.reroute b.label routes with term } previous' env' memory =
        leave block.label env2 memory' term := by
  have phis := routing.agree_phis member labelled came route agree
  obtain ⟨bodies, memories⟩ := phis.runBody block.body (fun number mem => Program.lt_bound member
    (List.mem_cons_of_mem _ (List.mem_append_left _ (List.mem_append_right _ mem)))) memory
  refine ⟨_, _, (runBody block.body (runPhis block.phis previous env) memory).2, bodies,
    fun _ => rfl, fun _ => ?_⟩
  rw [memories]
  rfl

end Through

/-- The program with the new blocks takes the steps of the program. -/
theorem Routing.respects (routing : Routing P P' b routes term)
    (leads : Routing.Leads M P P' b routes term) :
    Respects P.step P'.step (Routed (M := M) P b routes) := by
  intro run run' routed
  cases routed with
  | ended outcome => rfl
  | @entering label previous previous' env env' memory old came route agree =>
      have there := routing.lookup label old
      cases found : P.block label with
      | none =>
          rw [found, Option.map_none] at there
          simp only [Program.step, found]
          exact ⟨_, .ended .fault, .single (by simp only [Program.step, there]; rfl)⟩
      | some block =>
          rw [found, Option.map_some] at there
          rw [Program.step_of_block found]
          have labelled := Program.label_of_block found
          have first :=
            routing.through (Program.mem_of_block found) labelled came route agree memory
          have taken := Program.step_of_block there previous' env' memory
          obtain ⟨env1, env2, memory', agree', run, run'⟩ := first
          rw [run'] at taken
          have whole : block.run previous env memory = leave block.label env1 memory' block.term :=
            run block.term
          rw [whole]
          have names : ∀ name ∈ block.term.names, name < P.bound := fun name mem =>
            Program.lt_bound (Program.mem_of_block found) (List.mem_cons_of_mem _
              (List.mem_append_right _ (List.mem_append_right _ mem)))
          by_cases here : block.label = b.label
          · obtain rfl : block = b := by
              rw [← labelled, here, routing.found] at found
              exact (Option.some.inj found).symm
            rw [if_pos rfl] at taken
            obtain ⟨target, left, via, env'', isRoute, kept, path⟩ := leads env2 memory'
            rcases agree'.leave names block.label block.label memory' with
              ⟨outcome, _, ended⟩ | ⟨target', inside, left', right'⟩
            · exact absurd (left.symm.trans ended) (by simp)
            · obtain rfl : target = target' := by simpa [left] using right'
              rw [left']
              refine ⟨_, .entering (Program.target_lt_bound (Program.mem_of_block found) inside) ?_
                (.inr ⟨rfl, via, mem_vias.mpr isRoute, rfl⟩) (agree'.trans kept), .head' taken path⟩
              intro other mem
              rw [← Option.some.inj (Option.mem_def.mp mem)]
              exact Program.block_lt_bound routing.found
          · rw [if_neg here] at taken
            rcases agree'.leave names block.label block.label memory' with
              ⟨outcome, left, right⟩ | ⟨target, inside, left, right⟩
            · rw [left]
              exact ⟨_, .ended outcome, .single (taken.trans (congrArg some right))⟩
            · rw [left]
              refine ⟨_, .entering (Program.target_lt_bound (Program.mem_of_block found) inside) ?_
                (.inl ⟨by simpa using here, rfl⟩) agree',
                .single (taken.trans (congrArg some right))⟩
              intro other mem
              rw [← Option.some.inj (Option.mem_def.mp mem), labelled]
              exact old

/-- New blocks on the way to the successors do not change the meaning of the program. -/
theorem Routing.meaning (routing : Routing P P' b routes term)
    (leads : Routing.Leads M P P' b routes term) : P'.meaning (M := M) = P.meaning := by
  have respects := routing.respects leads
  funext env memory
  have start : Routed P b routes (P.start env memory) (P'.start env memory) := by
    have entry := routing.entry
    rw [Program.start, Program.start]
    cases head : P.head? with
    | none =>
        rw [head, Option.map_none, Option.map_eq_none_iff] at entry
        rw [entry]
        exact .ended .fault
    | some first =>
        rw [head, Option.map_some, Option.map_eq_some_iff] at entry
        obtain ⟨first', head', same⟩ := entry
        rw [head']
        dsimp only
        rw [same]
        refine .entering ?_ (fun _ mem => absurd mem (Option.not_mem_none _))
          (.inl ⟨(Option.some_ne_none _).symm, rfl⟩) (.refl _ _)
        exact Program.lt_bound (List.mem_of_mem_head? head) List.mem_cons_self
  refine Part.ext fun last => ⟨fun ends => ?_, fun ends => ?_⟩
  · obtain ⟨before', routed, ends'⟩ := tr_eval_rev respects start ends
    have halted := (mem_eval.mp ends').2
    cases routed with
    | ended outcome => exact ends'
    | entering => exact absurd halted (by simp only [Program.step]; split <;> simp)
  · obtain ⟨after', routed, ends'⟩ := tr_eval respects start ends
    have halted := (mem_eval.mp ends).2
    cases routed with
    | ended outcome => exact ends'
    | entering => exact absurd halted (by simp only [Program.step]; split <;> simp)

end Routing

/-! ## Verified programs -/

section Verified

variable {I : Type*} {M : Type*} [Instruction I M]

/-- The cases of a switch have different values. -/
def Terminator.Verified : Terminator → Prop
  | .switch width _ _ cases => (cases.map fun case => case.1 % 2 ^ width).Nodup
  | _ => True

/-- A switch goes to the block of the case that has the value. -/
theorem leave_switch_case {width default label : ℕ} {value : Operand} {cases : List (ℕ × ℕ)}
    (verified : (Terminator.switch width value default cases).Verified) {case : ℕ × ℕ}
    (member : case ∈ cases) {env : Registers}
    (same : case.1 % 2 ^ width = value.read env % 2 ^ width) (memory : M) :
    leave label env memory (.switch width value default cases) =
      .entering case.2 (some label) env memory := by
  rw [leave]
  cases found : cases.find? fun case => case.1 % 2 ^ width = value.read env % 2 ^ width with
  | none => exact absurd (List.find?_eq_none.mp found case member) (by simpa using same)
  | some first =>
      have here : first.1 % 2 ^ width = value.read env % 2 ^ width := by
        simpa using List.find?_some found
      obtain rfl : first = case := List.inj_on_of_nodup_map verified
        (List.mem_of_find?_eq_some found) member (here.trans same.symm)
      rfl

theorem leave_switch_default {width default label : ℕ} {value : Operand} {cases : List (ℕ × ℕ)}
    {env : Registers} (none : ∀ case ∈ cases, case.1 % 2 ^ width ≠ value.read env % 2 ^ width)
    (memory : M) :
    leave label env memory (.switch width value default cases) =
      .entering default (some label) env memory := by
  rw [leave, List.find?_eq_none.mpr (by simpa using none)]

/-- How many branches a block has to another one. -/
def Program.edges (P : Program I) (source target : ℕ) : ℕ :=
  ((P.block source).map fun block => block.term.targets.count target).getD 0

/-- What a verifier checks: a phi node has an entry for each branch to its block, and one operand
for each of the blocks. -/
structure Program.Verified (P : Program I) : Prop where
  labels : (P.map Block.label).Nodup
  terms : ∀ block ∈ P, block.term.Verified
  phis : ∀ block ∈ P, ∀ phi ∈ block.phis, phi.Uniform ∧
    ∀ source, phi.sources.count source = P.edges source block.label

/-- A block with changed phi nodes, and with a new terminator where it is the one that is left. -/
def Block.detour (orig : ℕ) (routes : List (ℕ × ℕ)) (term : Terminator) (block : Block I) :
    Block I :=
  { block.reroute orig routes with term := if block.label = orig then term else block.term }

/-- The program with new blocks behind the others, on the way from one block to its successors. -/
def Program.detour (P : Program I) (orig : ℕ) (routes : List (ℕ × ℕ)) (term : Terminator)
    (nodes : Program I) : Program I :=
  P.map (Block.detour orig routes term) ++ nodes

/-- New blocks with a route for each branch of a block. -/
structure Detour (P : Program I) (b : Block I) (routes : List (ℕ × ℕ)) (term : Terminator)
    (nodes : Program I) : Prop where
  found : P.block b.label = some b
  targets : (routes.map Prod.snd).Perm b.term.targets
  distinct : (routes.map Prod.fst).Nodup
  leaves : ∀ route ∈ routes, route.1 ∈ nodes.map Block.label
  labels : (nodes.map Block.label).Nodup
  above : ∀ node ∈ nodes, P.bound ≤ node.label
  plain : ∀ node ∈ nodes, node.phis = [] ∧ node.term.Verified
  branches : ∀ node ∈ nodes, ∀ target < P.bound,
    node.term.targets.count target = (vias routes target).count node.label
  inner : term.Verified ∧ ∀ target ∈ term.targets, P.bound ≤ target

variable {P : Program I} {b : Block I} {routes : List (ℕ × ℕ)} {term : Terminator}
  {nodes : Program I}

theorem Detour.new (detour : Detour P b routes term nodes) :
    ∀ route ∈ routes, P.bound ≤ route.1 := by
  intro route member
  obtain ⟨node, inside, same⟩ := List.mem_map.mp (detour.leaves route member)
  exact same ▸ detour.above node inside

theorem length_vias (routes : List (ℕ × ℕ)) (label : ℕ) :
    (vias routes label).length = (routes.map Prod.snd).count label := by
  rw [vias, List.length_map, List.count, List.countP_map, ← List.countP_eq_length_filter]
  rfl

/-- A block has as many new predecessors as the terminator had branches to it. -/
theorem Detour.length_vias (detour : Detour P b routes term nodes) (label : ℕ) :
    (vias routes label).length = P.edges b.label label := by
  rw [Library.length_vias, detour.targets.count_eq, Program.edges, detour.found]
  rfl

theorem Program.source_lt_bound {block : Block I} (member : block ∈ P) {phi : Phi}
    (inside : phi ∈ block.phis) {source : ℕ} (isSource : source ∈ phi.sources) :
    source < P.bound := by
  obtain ⟨entry, mem, rfl⟩ := List.mem_map.mp isSource
  refine Program.lt_bound member (List.mem_cons_of_mem _ (List.mem_append_left _
    (List.mem_append_left _ (List.mem_flatMap.mpr ⟨phi, inside, List.mem_cons_of_mem _ ?_⟩))))
  exact List.mem_flatMap.mpr ⟨entry, mem, List.mem_cons_self⟩

theorem Detour.offers (detour : Detour P b routes term nodes) (verified : P.Verified) :
    ∀ block ∈ P, ∀ phi ∈ block.phis, phi.Offers b.label (vias routes block.label) := by
  intro block member phi inside
  obtain ⟨uniform, counts⟩ := verified.phis block member phi inside
  refine ⟨uniform, fun via isVia => ⟨fun source => ?_, fun same => ?_⟩, ?_, ?_⟩
  · have := Program.source_lt_bound member inside source
    have := detour.new _ (mem_vias.mp isVia)
    omega
  · have := Program.block_lt_bound detour.found
    have := detour.new _ (mem_vias.mp isVia)
    omega
  · exact detour.distinct.sublist (List.Sublist.map _ List.filter_sublist)
  · rw [detour.length_vias, counts]

theorem Program.block_map {P : Program I} {f : Block I → Block I}
    (keeps : ∀ block, (f block).label = block.label) (label : ℕ) :
    Program.block (P.map f) label = (P.block label).map f := by
  rw [Program.block, List.find?_map, Program.block]
  congr 2
  funext block
  simp [keeps]

theorem Detour.lookup (detour : Detour P b routes term nodes) {label : ℕ} (old : label < P.bound) :
    (P.detour b.label routes term nodes).block label =
      (P.block label).map (Block.detour b.label routes term) := by
  rw [← Program.block_map (f := Block.detour b.label routes term) (fun _ => rfl), Program.detour,
    Program.block, List.find?_append]
  have none : nodes.find? (fun node => node.label = label) = none := by
    refine List.find?_eq_none.mpr fun node inside => ?_
    have := detour.above node inside
    simp only [decide_eq_true_eq]
    omega
  rw [none, Option.or_none, Program.block]

theorem Program.block_detour (orig : ℕ) {label : ℕ} (new : P.bound ≤ label) :
    (P.detour orig routes term nodes).block label = Program.block nodes label := by
  refine Program.block_append_right fun block inside => ?_
  obtain ⟨before, member, rfl⟩ := List.mem_map.mp inside
  have : before.label < P.bound := Program.lt_bound member List.mem_cons_self
  exact (Nat.lt_of_lt_of_le this new).ne

theorem Detour.routing (detour : Detour P b routes term nodes) (verified : P.Verified) :
    Routing P (P.detour b.label routes term nodes) b routes term where
  found := detour.found
  lookup _ old := detour.lookup old
  entry := by
    obtain ⟨first, rest, rfl⟩ := List.exists_cons_of_ne_nil
      (List.ne_nil_of_mem (Program.mem_of_block detour.found))
    rfl
  new := detour.new
  offers := detour.offers verified

/-- The branches of the new program. -/
theorem Detour.edges (detour : Detour P b routes term nodes) {label : ℕ} (old : label < P.bound)
    (source : ℕ) :
    (P.detour b.label routes term nodes).edges source label =
      if source = b.label then 0
      else if source < P.bound then P.edges source label
      else (vias routes label).count source := by
  by_cases here : source = b.label
  · have none : term.targets.count label = 0 := List.count_eq_zero.mpr fun isTarget => by
      have := detour.inner.2 label isTarget
      omega
    rw [if_pos here, Program.edges, here, detour.lookup (Program.block_lt_bound detour.found),
      detour.found]
    simpa [Block.detour] using none
  · rw [if_neg here]
    by_cases before : source < P.bound
    · rw [if_pos before, Program.edges, detour.lookup before, Program.edges]
      cases found : P.block source with
      | none => rfl
      | some block =>
          have : block.label ≠ b.label := Program.label_of_block found ▸ here
          simp [Block.detour, this]
    · rw [if_neg before, Program.edges, Program.block_detour _ (Nat.le_of_not_lt before)]
      cases found : Program.block nodes source with
      | none =>
          refine (List.count_eq_zero.mpr fun isVia => ?_).symm
          obtain ⟨node, inside, same⟩ := List.mem_map.mp (detour.leaves _ (mem_vias.mp isVia))
          exact absurd (List.find?_eq_none.mp found node inside) (by simpa using same)
      | some node =>
          rw [← Program.label_of_block found]
          exact detour.branches node (Program.mem_of_block found) label old

/-- The program with the new blocks is verified. -/
theorem Detour.verified (detour : Detour P b routes term nodes) (verified : P.Verified) :
    (P.detour b.label routes term nodes).Verified where
  labels := by
    rw [Program.detour, List.map_append, List.map_map]
    refine verified.labels.append detour.labels fun label old new => ?_
    obtain ⟨block, inside, rfl⟩ := List.mem_map.mp old
    obtain ⟨node, inside', same⟩ := List.mem_map.mp new
    have : block.label < P.bound := Program.lt_bound inside List.mem_cons_self
    have := detour.above node inside'
    omega
  terms := by
    intro block member
    rcases List.mem_append.mp member with old | new
    · obtain ⟨before, inside, rfl⟩ := List.mem_map.mp old
      rw [Block.detour]
      dsimp only
      split
      · exact detour.inner.1
      · exact verified.terms before inside
    · exact (detour.plain block new).2
  phis := by
    intro block member phi inside
    rcases List.mem_append.mp member with old | new
    · obtain ⟨before, mem, rfl⟩ := List.mem_map.mp old
      obtain ⟨phi, inside', rfl⟩ := List.mem_map.mp inside
      have offers := detour.offers verified before mem phi inside'
      have below : before.label < P.bound := Program.lt_bound mem List.mem_cons_self
      refine ⟨offers.uniform_renames, fun source => ?_⟩
      have counts := offers.count_renames source
      rw [(verified.phis before mem phi inside').2 source, detour.length_vias] at counts
      show _ = (P.detour b.label routes term nodes).edges source before.label
      rw [detour.edges below]
      by_cases here : source = b.label
      · subst here
        have none : (vias routes before.label).count b.label = 0 :=
          List.count_eq_zero.mpr fun isVia =>
            absurd (detour.new _ (mem_vias.mp isVia)) (Program.block_lt_bound detour.found).not_ge
        rw [if_pos rfl, none] at counts
        rw [if_pos rfl]
        omega
      · rw [if_neg here, Nat.add_zero] at counts
        rw [if_neg here, counts]
        by_cases known : source < P.bound
        · have none : (vias routes before.label).count source = 0 :=
            List.count_eq_zero.mpr fun isVia =>
              absurd (detour.new _ (mem_vias.mp isVia)) known.not_ge
          rw [if_pos known, none, Nat.add_zero]
        · have none : phi.sources.count source = 0 :=
            List.count_eq_zero.mpr fun isSource =>
              known (Program.source_lt_bound mem inside' isSource)
          rw [if_neg known, ← (verified.phis before mem phi inside').2 source, none, Nat.zero_add]
    · rw [(detour.plain block new).1] at inside
      exact absurd inside List.not_mem_nil

end Verified

end GreenFuzz.Library
