import GreenFuzz.Library.SsaSplicing

/-!
# Passes that expand the instructions of one kind

Such a pass goes through a list of instructions, searches for the block of each (`parent`), and
splices a region in its place. An instruction is known by the register that it defines.

Where every region is made of new registers and of other kinds of instructions, and computes what
the instruction is read as, the pass gets through on every program in which the registers of these
instructions have no other definition. The program then means what it meant with the instructions
read that way (`Expansion.meaning`).
-/

set_option autoImplicit false

namespace GreenFuzz.Library

/-! ## Finding an instruction -/

section Finding

variable {I : Type*} {P : Program I} {wanted : I → Bool}

/-- What stands before and after the wanted instruction of a block. -/
def around (wanted : I → Bool) : List I → Option (List I × List I)
  | [] => none
  | i :: rest =>
      if wanted i then some ([], rest)
      else (around wanted rest).map fun parts => (i :: parts.1, parts.2)

/-- The block of the wanted instruction, with the instructions before and after it. -/
def parent (P : Program I) (wanted : I → Bool) : Option (Block I × List I × List I) :=
  (P.map Block.label).findSome? fun label =>
    (P.block label).bind fun b => (around wanted b.body).map fun parts => (b, parts)

theorem around_spec {body before after : List I}
    (found : around wanted body = some (before, after)) :
    ∃ i, wanted i = true ∧ body = before ++ i :: after := by
  induction body generalizing before with
  | nil => exact absurd found (by simp [around])
  | cons i rest ih =>
      rw [around] at found
      split at found
      · rename_i here
        obtain ⟨rfl, rfl⟩ := Prod.mk.inj (Option.some.inj found)
        exact ⟨i, here, rfl⟩
      · obtain ⟨parts, later, same⟩ := Option.map_eq_some_iff.mp found
        obtain ⟨rfl, rfl⟩ := Prod.mk.inj same
        obtain ⟨j, isWanted, split⟩ := ih later
        exact ⟨j, isWanted, by rw [split]; rfl⟩

theorem parent_spec {b : Block I} {before after : List I}
    (found : parent P wanted = some (b, before, after)) :
    P.block b.label = some b ∧ ∃ i, wanted i = true ∧ b.body = before ++ i :: after := by
  obtain ⟨label, _, here⟩ := List.exists_of_findSome?_eq_some found
  obtain ⟨b', block, parts⟩ := Option.bind_eq_some_iff.mp here
  obtain ⟨⟨before', after'⟩, split, same⟩ := Option.map_eq_some_iff.mp parts
  obtain ⟨rfl, rfl, rfl⟩ := by simpa using same
  rw [Program.label_of_block block]
  exact ⟨block, around_spec split⟩

theorem around_of_mem {i : I} (isWanted : wanted i = true) {body : List I} (member : i ∈ body) :
    ∃ parts, around wanted body = some parts := by
  induction body with
  | nil => exact absurd member List.not_mem_nil
  | cons first rest ih =>
      rw [around]
      split
      · exact ⟨_, rfl⟩
      · rename_i other
        rcases List.mem_cons.mp member with rfl | later
        · exact absurd isWanted other
        · obtain ⟨parts, found⟩ := ih later
          exact ⟨_, by rw [found]; rfl⟩

/-- An instruction of the program is found. -/
theorem parent_of_mem (labels : (P.map Block.label).Nodup) {i : I} (isWanted : wanted i = true)
    {b : Block I} (inside : b ∈ P) (inBody : i ∈ b.body) :
    ∃ place, parent P wanted = some place := by
  obtain ⟨parts, split⟩ := around_of_mem isWanted inBody
  have there : ((P.block b.label).bind fun b => (around wanted b.body).map fun parts =>
      (b, parts)).isSome := by
    rw [Program.block_of_mem labels inside, Option.bind_some, split]
    rfl
  refine Option.isSome_iff_exists.mp (List.findSome?_isSome_iff.mpr ?_)
  exact ⟨b.label, List.mem_map_of_mem inside, there⟩

end Finding

/-! ## The pass -/

section Expanding

variable {I M : Type*} [Instruction I M]

/-- The program mentions what its instructions mention. -/
theorem Program.number_lt_bound {P : Program I} {i : I} (inside : i ∈ P.flatMap Block.body) :
    ∀ number ∈ instructionNumbers i, number < P.bound := by
  intro number mentioned
  obtain ⟨b, member, inBody⟩ := List.mem_flatMap.mp inside
  exact Program.lt_bound member (List.mem_cons_of_mem _ (List.mem_append_left _
    (List.mem_append_right _ (List.mem_flatMap.mpr ⟨i, inBody, mentioned⟩))))

/-- The instructions that a region brings. -/
def Region.bodies (r : Region I) : List I := r.front ++ r.middle.flatMap Block.body

/-- What a pass puts in the place of the instructions of a kind, and how they are read for that. -/
structure Expansion (I : Type*) {M : Type*} [Instruction I M] where
  wanted : I → Bool
  reread : I → I
  region : ℕ → ℕ → I → Region I
  numbers : ∀ i, instructionNumbers (reread i) = instructionNumbers i
  kept : ∀ i, wanted i = false → reread i = i
  result : ∀ i, wanted i = true → ∃ dest, Instruction.defines i = some dest ∧
    Instruction.defines (reread i) = some dest ∧
      ∀ new label, (region new label i).result.dest = dest

/-- A region that computes what an instruction is read as. -/
structure Expansion.Expands (e : Expansion I (M := M)) (new label : ℕ) (i : I) : Prop where
  fresh : (e.region new label i).Fresh new
  defines : ∀ j ∈ (e.region new label i).bodies, ∀ dest ∈ Instruction.defines j, new ≤ dest
  others : ∀ j ∈ (e.region new label i).bodies, e.wanted j = false
  computes : (e.region new label i).Computes new label (e.reread i)

/-- Whether an instruction defines a register. -/
def definesRegister (dest : Option ℕ) (i : I) : Bool := Instruction.defines i = dest

/-- One instruction replaced. -/
def Expansion.step (e : Expansion I (M := M)) (P : Program I) (i : I) : Option (Program I) :=
  (parent P (definesRegister (Instruction.defines i))).map fun (b, before, after) =>
    P.splice b before after (e.region P.bound b.label i)

/-- No other instruction defines the register of a wanted one. -/
def Expansion.Single (e : Expansion I (M := M)) (bodies : List I) : Prop :=
  bodies.Pairwise fun i j =>
    e.wanted i = true ∨ e.wanted j = true → Instruction.defines i ≠ Instruction.defines j

variable {e : Expansion I (M := M)} {P : Program I}

/-- The instruction that defines the register of a wanted one is that one. -/
theorem Expansion.Single.eq {bodies : List I} (single : e.Single bodies) {i j : I}
    (inside : i ∈ bodies) (inside' : j ∈ bodies) (isWanted : e.wanted i = true)
    (same : Instruction.defines j = Instruction.defines i) : j = i := by
  by_contra differs
  have symmetric : Std.Symm fun i j : I =>
      e.wanted i = true ∨ e.wanted j = true → Instruction.defines i ≠ Instruction.defines j :=
    ⟨fun _ _ rule either eq => rule either.symm eq.symm⟩
  exact single.forall inside inside' (Ne.symm differs) (.inl isWanted) same.symm

/-- Instructions with new registers in the place of one. -/
theorem Expansion.Single.replace {first last new : List I} {i : I} {bound : ℕ}
    (single : e.Single (first ++ i :: last))
    (old : ∀ j ∈ first ++ i :: last, ∀ number ∈ instructionNumbers j, number < bound)
    (others : ∀ j ∈ new, e.wanted j = false)
    (fresh : ∀ j ∈ new, ∀ dest ∈ Instruction.defines j, bound ≤ dest) :
    e.Single (first ++ new ++ last) := by
  have apart : ∀ j ∈ first ++ i :: last, ∀ k ∈ new, e.wanted j = true →
      Instruction.defines j ≠ Instruction.defines k := by
    intro j inside k isNew isWanted same
    obtain ⟨dest, defines, _⟩ := e.result j isWanted
    have below := old j inside dest (List.mem_append_left _ (by simp [defines]))
    have above := fresh k isNew dest (same ▸ defines)
    omega
  have before : ∀ j ∈ first, j ∈ first ++ i :: last := fun j mem => List.mem_append_left _ mem
  have behind : ∀ j ∈ last, j ∈ first ++ i :: last := fun j mem =>
    List.mem_append_right _ (List.mem_cons_of_mem _ mem)
  obtain ⟨inFirst, inRest, between⟩ := List.pairwise_append.mp single
  refine List.pairwise_append.mpr ⟨List.pairwise_append.mpr ⟨inFirst, ?_, ?_⟩,
    (List.pairwise_cons.mp inRest).2, ?_⟩
  · refine List.Pairwise.imp_of_mem (fun {j k} isNew isNew' _ either => ?_) (List.pairwise_of_forall
      (R := fun _ _ => True) fun _ _ => trivial)
    rw [others j isNew, others k isNew'] at either
    exact absurd either (by simp)
  · intro j mem k isNew either
    exact apart j (before j mem) k isNew (either.resolve_right (by simp [others k isNew]))
  · intro j mem k mem' either
    rcases List.mem_append.mp mem with inFirst | isNew
    · exact between j inFirst k (List.mem_cons_of_mem _ mem') either
    · exact (apart k (behind k mem') j isNew
        (either.resolve_left (by simp [others j isNew]))).symm

/-- Instructions that are not wanted are read as they are. -/
theorem Expansion.mapBody_region {r : Region I} (others : ∀ j ∈ r.bodies, e.wanted j = false) :
    r.mapBody e.reread = r := by
  have front : r.front.map e.reread = r.front :=
    (List.map_congr_left fun j mem => e.kept j (others j (List.mem_append_left _ mem))).trans
      (List.map_id _)
  have middle : r.middle.map (Block.mapBody e.reread) = r.middle := by
    refine (List.map_congr_left fun b mem => ?_).trans (List.map_id _)
    have body : b.body.map e.reread = b.body :=
      (List.map_congr_left fun j inBody => e.kept j (others j (List.mem_append_right _
        (List.mem_flatMap.mpr ⟨b, mem, inBody⟩)))).trans (List.map_id _)
    rw [Block.mapBody, body]
    rfl
  rw [Region.mapBody, front, middle]

theorem Expansion.mapBody_program (others : ∀ j ∈ P.flatMap Block.body, e.wanted j = false) :
    P.mapBody e.reread = P := by
  refine (List.map_congr_left fun b mem => ?_).trans (List.map_id _)
  have body : b.body.map e.reread = b.body :=
    (List.map_congr_left fun j inBody =>
      e.kept j (others j (List.mem_flatMap.mpr ⟨b, mem, inBody⟩))).trans (List.map_id _)
  rw [Block.mapBody, body]
  rfl

/-- The wanted instructions of a program, in their order. -/
def Expansion.worklist (e : Expansion I (M := M)) (P : Program I) : List I :=
  (P.flatMap Block.body).filter e.wanted

/-- What one step does. -/
theorem Expansion.step_spec (labels : (P.map Block.label).Nodup)
    (single : e.Single (P.flatMap Block.body)) {i : I} (member : i ∈ P.flatMap Block.body)
    (isWanted : e.wanted i = true)
    (expands : ∀ new label, label < new → (∀ number ∈ instructionNumbers i, number < new) →
      e.Expands new label i) :
    ∃ P', e.step P i = some P' ∧ (P'.map Block.label).Nodup ∧ e.Single (P'.flatMap Block.body) ∧
      (P'.mapBody e.reread).meaning (M := M) = (P.mapBody e.reread).meaning ∧
      ∃ first last, P.flatMap Block.body = first ++ i :: last ∧
        (P'.flatMap Block.body).filter e.wanted =
          first.filter e.wanted ++ last.filter e.wanted := by
  obtain ⟨b', inside, inBody⟩ := List.mem_flatMap.mp member
  have isIt : definesRegister (Instruction.defines i) i = true := decide_eq_true rfl
  obtain ⟨⟨b, before, after⟩, found⟩ := parent_of_mem labels isIt inside inBody
  obtain ⟨block, j, same, split⟩ := parent_spec found
  have there : j ∈ P.flatMap Block.body := by
    refine List.mem_flatMap.mpr ⟨b, Program.mem_of_block block, ?_⟩
    rw [split]
    exact List.mem_append_right _ List.mem_cons_self
  obtain rfl := single.eq member there isWanted (of_decide_eq_true same)
  have old := Program.number_lt_bound there
  have region := expands P.bound b.label (Program.block_lt_bound block) old
  obtain ⟨dest, _, defines, result⟩ := e.result j isWanted
  have fixed := Expansion.mapBody_region region.others
  obtain ⟨first, last, whole, spliced⟩ :=
    Program.bodies_splice (r := e.region P.bound b.label j) labels block split
  refine ⟨P.splice b before after (e.region P.bound b.label j), ?_,
    Program.labels_splice labels block region.fresh, ?_, ?_, first, last, whole, ?_⟩
  · rw [Expansion.step, found]
    rfl
  · rw [spliced]
    rw [whole] at single
    refine single.replace (fun k mem => Program.number_lt_bound (whole ▸ mem)) region.others
      region.defines
  · exact meaning_splice_mapBody e.numbers (fixed.symm ▸ region.fresh) block split defines
      (result _ _) (fixed.symm ▸ region.computes)
  · have none : (e.region P.bound b.label j).bodies.filter e.wanted = [] :=
      List.filter_eq_nil_iff.mpr fun k mem => by simp [region.others k mem]
    rw [Region.bodies] at none
    rw [spliced, List.filter_append, List.filter_append, none, List.append_nil]

/-- A pass that replaces the wanted instructions of a program, in whatever order, gets through. What
it makes means the program with these instructions read as they were taken, and has none of them
left. -/
theorem Expansion.meaning {worklist : List I} (labels : (P.map Block.label).Nodup)
    (single : e.Single (P.flatMap Block.body)) (listed : (e.worklist P).Perm worklist)
    (expands : ∀ i, e.wanted i = true → ∀ new label, label < new →
      (∀ number ∈ instructionNumbers i, number < new) → e.Expands new label i) :
    ∃ P', worklist.foldlM e.step P = some P' ∧
      P'.meaning (M := M) = (P.mapBody e.reread).meaning ∧
      ∀ i ∈ P'.flatMap Block.body, e.wanted i = false := by
  have loop : ∀ (worklist : List I) (P : Program I), (P.map Block.label).Nodup →
      e.Single (P.flatMap Block.body) → (e.worklist P).Perm worklist →
      ∃ P', worklist.foldlM e.step P = some P' ∧
        (P'.mapBody e.reread).meaning (M := M) = (P.mapBody e.reread).meaning ∧
        ∀ i ∈ P'.flatMap Block.body, e.wanted i = false := by
    intro worklist
    induction worklist with
    | nil =>
        intro P _ _ listed
        refine ⟨P, rfl, rfl, fun i member => Bool.eq_false_iff.mpr fun isWanted => ?_⟩
        exact List.not_mem_nil (listed.mem_iff.mp (List.mem_filter.mpr ⟨member, isWanted⟩))
    | cons i rest ih =>
        intro P labels single listed
        obtain ⟨member, isWanted⟩ := List.mem_filter.mp (listed.mem_iff.mpr List.mem_cons_self)
        obtain ⟨P1, step, labels1, single1, meaning1, first, last, whole, left⟩ :=
          Expansion.step_spec labels single member isWanted (expands i isWanted)
        have listed1 : (e.worklist P1).Perm rest := by
          rw [Expansion.worklist, whole, List.filter_append, List.filter_cons_of_pos isWanted]
            at listed
          rw [Expansion.worklist, left]
          exact List.Perm.cons_inv (List.perm_middle.symm.trans listed)
        obtain ⟨P', later, meaning', none⟩ := ih P1 labels1 single1 listed1
        refine ⟨P', ?_, meaning'.trans meaning1, none⟩
        rw [List.foldlM_cons, step]
        exact later
  obtain ⟨P', through, meaning, none⟩ := loop worklist P labels single listed
  refine ⟨P', through, ?_, none⟩
  rw [← meaning, Expansion.mapBody_program none]

end Expanding

end GreenFuzz.Library
