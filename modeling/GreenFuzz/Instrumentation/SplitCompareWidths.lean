import GreenFuzz.Instrumentation.SplitComparesMeaning

/-!
# The widths that the split-compares pass leaves

For a target of `2 ^ k` bits the pass gets through on every program whose blocks and comparisons are
distinct, and the comparisons it works on become comparisons of at most the target width, with one
exception. The strict comparison that `simplifyOrEqualsCompare` makes of an unsigned `>=` or `<=` is
not put on the worklist, and keeps the full width.

The loop keeps that every wide comparison is on the worklist or was there before
(`LoopInvariant`), and a comparison that is taken from the worklist leaves the program.
-/

set_option autoImplicit false

namespace GreenFuzz.Instrumentation

open Library

variable {M : Type} {P P' : Program (Instr M)} {cmp : Icmp} {brought : List Icmp}

/-! ## The comparisons of an expanded program -/

/-- The blocks of the program have distinct labels, and its comparisons distinct registers. -/
structure Distinct (P : Program (Instr M)) : Prop where
  labels : (P.map Block.label).Nodup
  dests : ((comparisons P).map Icmp.dest).Nodup

theorem comparisons_eq (P : Program (Instr M)) :
    comparisons P = bodyComparisons (P.flatMap Block.body) :=
  (List.filterMap_flatMap ..).symm

/-- The comparisons of the region stand in the place of the comparison. -/
theorem Expands.comparisons (expands : Expands P P' cmp brought)
    (labels : (P.map Block.label).Nodup) :
    ∃ first last, Instrumentation.comparisons P = first ++ cmp :: last ∧
      Instrumentation.comparisons P' = first ++ brought ++ last := by
  obtain ⟨_, b, before, after, r, found, split, _, _, rfl, _, rfl⟩ := expands
  obtain ⟨first, last, whole, spliced⟩ := Program.bodies_splice (r := r) labels found split
  refine ⟨bodyComparisons first, bodyComparisons last, ?_, ?_⟩
  · rw [comparisons_eq, whole]
    simp [bodyComparisons]
  · rw [comparisons_eq, spliced]
    simp [bodyComparisons, regionComparisons, List.filterMap_flatMap]

/-- The labels stay distinct. -/
theorem Expands.labels (expands : Expands P P' cmp brought)
    (labels : (P.map Block.label).Nodup) : (P'.map Block.label).Nodup := by
  obtain ⟨_, b, before, after, r, found, _, fresh, _, _, _, rfl⟩ := expands
  exact Program.labels_splice labels found fresh

theorem exists_of_mem_comparisons (member : cmp ∈ comparisons P) :
    ∃ b ∈ P, .icmp cmp ∈ b.body := by
  obtain ⟨b, inside, listed⟩ := List.mem_flatMap.mp member
  obtain ⟨i, inBody, isCmp⟩ := List.mem_filterMap.mp listed
  have same : i = .icmp cmp := by
    cases i <;> simp_all
  exact ⟨b, inside, same ▸ inBody⟩

theorem dest_lt_bound (member : cmp ∈ comparisons P) : cmp.dest < P.bound := by
  obtain ⟨b, inside, inBody⟩ := exists_of_mem_comparisons member
  refine Program.lt_bound inside (List.mem_cons_of_mem _ (List.mem_append_left _
    (List.mem_append_right _ (List.mem_flatMap.mpr ⟨_, inBody, List.mem_append_left _ ?_⟩))))
  exact List.mem_singleton_self cmp.dest

theorem Expands.distinct (expands : Expands P P' cmp brought) (distinct : Distinct P) :
    Distinct P' := by
  refine ⟨expands.labels distinct.labels, ?_⟩
  obtain ⟨first, last, before, after⟩ := expands.comparisons distinct.labels
  obtain ⟨⟨nodup, new⟩, _⟩ := expands
  have dests := distinct.dests
  have old : ∀ c ∈ first ++ last, c.dest < P.bound := by
    intro c member
    refine dest_lt_bound (before ▸ ?_)
    rcases List.mem_append.mp member with inFirst | inLast
    · exact List.mem_append_left _ inFirst
    · exact List.mem_append_right _ (List.mem_cons_of_mem _ inLast)
  have rest : ((first ++ last).map Icmp.dest).Nodup := by
    rw [before] at dests
    refine dests.sublist (List.Sublist.map _ ?_)
    exact (List.sublist_cons_self _ _).append_left _
  rw [after]
  have order : ((first ++ brought ++ last).map Icmp.dest).Perm
      ((first ++ last).map Icmp.dest ++ brought.map Icmp.dest) := by
    rw [← List.map_append, List.append_assoc, List.append_assoc]
    exact ((List.perm_append_left_iff _).mpr List.perm_append_comm).map _
  rw [order.nodup_iff, List.nodup_append]
  refine ⟨rest, nodup, fun dest inside other isNew same => ?_⟩
  obtain ⟨c, member, rfl⟩ := List.mem_map.mp inside
  obtain ⟨c', member', rfl⟩ := List.mem_map.mp isNew
  have := old c member
  have := new c' member'
  omega

/-- What is in the expanded program: the comparisons that were there, without the one, and the new
ones. -/
theorem Expands.mem_iff (expands : Expands P P' cmp brought) (distinct : Distinct P) (c : Icmp) :
    c ∈ Instrumentation.comparisons P' ↔
      (c ∈ Instrumentation.comparisons P ∧ c ≠ cmp) ∨ c ∈ brought := by
  obtain ⟨first, last, before, after⟩ := expands.comparisons distinct.labels
  have dests := distinct.dests
  rw [before, List.map_append, List.map_cons, List.nodup_append, List.nodup_cons] at dests
  obtain ⟨_, ⟨notLast, _⟩, apart⟩ := dests
  have notFirst : cmp ∉ first := fun member =>
    apart cmp.dest (List.mem_map_of_mem member) cmp.dest List.mem_cons_self rfl
  have notLast' : cmp ∉ last := fun member => notLast (List.mem_map_of_mem member)
  rw [before, after]
  simp only [List.mem_append, List.mem_cons]
  constructor
  · rintro ((inFirst | new) | inLast)
    · exact .inl ⟨.inl inFirst, fun same => notFirst (same ▸ inFirst)⟩
    · exact .inr new
    · exact .inl ⟨.inr (.inr inLast), fun same => notLast' (same ▸ inLast)⟩
  · rintro (⟨inFirst | same | inLast, differs⟩ | new)
    · exact .inl (.inl inFirst)
    · exact absurd same differs
    · exact .inr inLast
    · exact .inl (.inr new)

/-! ## The steps get through -/

/-- A comparison of the program is found. -/
theorem parent_of_mem_comparisons (labels : (P.map Block.label).Nodup)
    (member : cmp ∈ comparisons P) : ∃ place, parent P (Instr.isIcmp cmp) = some place := by
  obtain ⟨b, inside, inBody⟩ := exists_of_mem_comparisons member
  exact parent_of_mem labels (isIcmp_iff.mpr rfl) inside inBody

/-- The predicates that the loop has code for. -/
def Splittable (pred : IcmpPredicate) : Prop :=
  pred = .eq ∨ pred = .ne ∨ ∃ inverse, inversePredicate pred = some inverse

theorem splitCompare_progress {target : ℕ} {s : Splitting M} (distinct : Distinct s.program)
    (member : cmp ∈ comparisons s.program) (splittable : Splittable cmp.pred)
    (halved : cmp.width / 2 ≠ 0) : ∃ s', splitCompare target cmp s = some s' := by
  obtain ⟨⟨b, before, after⟩, found⟩ := parent_of_mem_comparisons distinct.labels member
  rw [splitCompare]
  by_cases reached : cmp.width = target
  · exact ⟨_, if_pos reached⟩
  · rw [if_neg reached, if_neg halved, found, Option.bind_some]
    dsimp only
    split
    · exact ⟨_, rfl⟩
    · rename_i order
      obtain ⟨inverse, isInverse⟩ : ∃ inverse, inversePredicate cmp.pred = some inverse := by
        rcases splittable with isEq | isNe | has
        · exact absurd (.inl isEq) order
        · exact absurd (.inr isNe) order
        · exact has
      rw [isInverse]
      exact ⟨_, rfl⟩

/-- The predicates that a split brings. -/
theorem splitCompare_splittable {target : ℕ} {s s' : Splitting M}
    (splittable : Splittable cmp.pred) (old : ∀ c ∈ s.worklist, Splittable c.pred)
    (step : splitCompare target cmp s = some s') : ∀ c ∈ s'.worklist, Splittable c.pred := by
  rw [splitCompare] at step
  split at step
  · rw [← Option.some.inj step]
    exact old
  · split at step
    · exact absurd step (by simp)
    · obtain ⟨⟨b, before, after⟩, _, step⟩ := Option.bind_eq_some_iff.mp step
      dsimp only at step
      intro c member
      split at step
      · rw [← Option.some.inj step] at member
        rcases List.mem_append.mp member with halves | before
        · have := mem_of_mem_ite_nil halves
          simp only [List.mem_cons, List.not_mem_nil, or_false] at this
          rcases this with rfl | rfl <;> exact splittable
        · exact old c before
      · obtain ⟨inverse, isInverse, rfl⟩ := Option.map_eq_some_iff.mp step
        rcases List.mem_append.mp member with halves | others
        · have := mem_of_mem_ite_nil halves
          simp only [List.mem_cons, List.not_mem_nil, or_false] at this
          rcases this with rfl | rfl <;> exact splittable
        · rcases List.mem_cons.mp others with rfl | before
          · refine .inr (.inr ?_)
            rw [icmpInv]
            cases pred : cmp.pred <;>
              simp only [pred, inversePredicate, reduceCtorEq, Option.some.injEq] at isInverse <;>
              subst isInverse <;> exact ⟨_, rfl⟩
          · exact old c before

/-! ## The loop -/

/-- What the loop keeps, with the comparisons that it does not work on. -/
structure LoopInvariant (target : ℕ) (kept : List Icmp) (s : Splitting M) : Prop where
  distinct : Distinct s.program
  present : ∀ c ∈ s.worklist, c ∈ comparisons s.program
  nodup : s.worklist.Nodup
  widths : ∀ c ∈ s.worklist, ∃ factor, c.width = target * 2 ^ factor
  splittable : ∀ c ∈ s.worklist, Splittable c.pred
  apart : ∀ c ∈ kept, c ∈ comparisons s.program ∧ c ∉ s.worklist
  wide : ∀ c ∈ comparisons s.program, target < c.width → c ∈ kept ∨ c ∈ s.worklist

theorem rounds_append (first second : List Icmp) :
    rounds (first ++ second) = rounds first + rounds second := by
  induction first with
  | nil => simp [rounds]
  | cons cmp rest ih => simp only [List.cons_append, rounds, ih, Nat.add_assoc]

theorem rounds_le {worklist : List Icmp} {width : ℕ} (widths : ∀ c ∈ worklist, c.width = width) :
    rounds worklist = worklist.length * (3 * width ^ 2 + 1) := by
  induction worklist with
  | nil => simp [rounds]
  | cons cmp rest ih =>
      rw [rounds, ih fun c member => widths c (List.mem_cons_of_mem _ member),
        widths cmp List.mem_cons_self, List.length_cons]
      ring

/-- A round of the loop keeps the invariant and leaves fewer rounds. -/
theorem LoopInvariant.step {target : ℕ} {kept rest : List Icmp} {s' : Splitting M}
    (power : PowerOfTwo target) (inv : LoopInvariant target kept ⟨P, cmp :: rest⟩)
    (step : splitCompare target cmp ⟨P, rest⟩ = some s') :
    LoopInvariant target kept s' ∧ rounds s'.worklist < rounds (cmp :: rest) := by
  obtain ⟨factor, width⟩ := inv.widths cmp List.mem_cons_self
  obtain ⟨notRest, nodup⟩ := List.nodup_cons.mp inv.nodup
  have splittable := splitCompare_splittable (inv.splittable cmp List.mem_cons_self)
    (fun c member => inv.splittable c (List.mem_cons_of_mem _ member)) step
  by_cases reached : cmp.width = target
  · rw [splitCompare, if_pos reached] at step
    obtain rfl := Option.some.inj step
    refine ⟨⟨inv.distinct, fun c member => inv.present c (List.mem_cons_of_mem _ member), nodup,
      fun c member => inv.widths c (List.mem_cons_of_mem _ member), splittable,
      fun c member => ⟨(inv.apart c member).1, fun inRest =>
        (inv.apart c member).2 (List.mem_cons_of_mem _ inRest)⟩, fun c member wide => ?_⟩, ?_⟩
    · rcases inv.wide c member wide with old | listed
      · exact .inl old
      · rcases List.mem_cons.mp listed with rfl | later
        · omega
        · exact .inr later
    · simp only [rounds]
      omega
  · have powerWidth : PowerOfTwo cmp.width := by
      obtain ⟨exponent, rfl⟩ := power
      exact ⟨exponent + factor, width.trans (pow_add _ _ _).symm⟩
    obtain ⟨halved, brought, pushed, expands, worklist, widths, among, few, pushedNodup, all⟩ :=
      splitCompare_spec powerWidth reached step
    have isNew : ∀ c ∈ brought, c ∉ comparisons P := fun c member old => by
      have := dest_lt_bound old
      have := expands.1.2 c member
      dsimp only at this
      omega
    have mem_iff := expands.mem_iff inv.distinct
    dsimp only at mem_iff
    obtain ⟨less, rfl⟩ : ∃ less, factor = less + 1 :=
      Nat.exists_eq_succ_of_ne_zero fun zero => reached (by rw [width, zero, pow_zero, Nat.mul_one])
    have half : cmp.width / 2 = target * 2 ^ less := by
      rw [width, pow_succ, ← Nat.mul_assoc, Nat.mul_div_cancel _ (by norm_num)]
    have inWorklist : ∀ c, c ∈ s'.worklist ↔ c ∈ pushed ∨ c ∈ rest := fun c => by
      rw [worklist, List.mem_append]
    refine ⟨⟨expands.distinct inv.distinct, fun c member => ?_, ?_, fun c member => ?_, splittable,
      fun c member => ?_, fun c member wide => ?_⟩, ?_⟩
    · rw [mem_iff]
      rcases (inWorklist c).mp member with new | old
      · exact .inr (among c new)
      · exact .inl ⟨inv.present c (List.mem_cons_of_mem _ old), fun same => notRest (same ▸ old)⟩
    · rw [worklist, List.nodup_append]
      refine ⟨pushedNodup, nodup, fun c new c' old same => isNew c (among c new) ?_⟩
      exact same ▸ inv.present c' (List.mem_cons_of_mem _ old)
    · rcases (inWorklist c).mp member with new | old
      · exact ⟨less, (widths c (among c new)).trans half⟩
      · exact inv.widths c (List.mem_cons_of_mem _ old)
    · obtain ⟨present, notListed⟩ := inv.apart c member
      refine ⟨(mem_iff c).mpr (.inl ⟨present, fun same => notListed ?_⟩), fun listed => ?_⟩
      · exact same ▸ List.mem_cons_self
      · rcases (inWorklist c).mp listed with new | old
        · exact isNew c (among c new) present
        · exact notListed (List.mem_cons_of_mem _ old)
    · rcases (mem_iff c).mp member with ⟨old, differs⟩ | new
      · rcases inv.wide c old wide with isKept | listed
        · exact .inl isKept
        · rcases List.mem_cons.mp listed with same | later
          · exact absurd same differs
          · exact .inr ((inWorklist c).mpr (.inr later))
      · have := widths c new
        exact .inr ((inWorklist c).mpr (.inl (all (by omega) c new)))
    · rw [worklist, rounds_append, rounds_le fun c member => widths c (among c member), rounds]
      have even := (powerWidth.half halved).1
      have pos : 1 ≤ cmp.width / 2 := Nat.one_le_iff_ne_zero.mpr halved
      generalize cmp.width / 2 = half' at *
      rw [even]
      have bound : pushed.length * (3 * half' ^ 2 + 1) ≤ 3 * (3 * half' ^ 2 + 1) :=
        Nat.mul_le_mul_right _ few
      have square : 1 ≤ half' ^ 2 := Nat.one_le_pow _ _ pos
      have double : (2 * half') ^ 2 = 4 * half' ^ 2 := by ring
      dsimp only
      omega

/-- The loop ends, and leaves no wide comparison that it has worked on. -/
theorem LoopInvariant.loop {target bitw fuel : ℕ} {kept : List Icmp} {s : Splitting M}
    (power : PowerOfTwo target) (wide : target < bitw) (inv : LoopInvariant target kept s)
    (enough : rounds s.worklist ≤ fuel) :
    ∃ P', splitLoop target bitw fuel s = some P' ∧ LoopInvariant target kept ⟨P', []⟩ := by
  induction fuel generalizing s with
  | zero =>
      have empty : s.worklist = [] := by
        cases worklist : s.worklist with
        | nil => rfl
        | cons cmp rest =>
            rw [worklist, rounds] at enough
            omega
      obtain ⟨P, worklist⟩ := s
      dsimp only at empty
      subst empty
      exact ⟨P, rfl, inv⟩
  | succ fuel ih =>
      obtain ⟨P, worklist⟩ := s
      cases worklist with
      | nil => exact ⟨P, rfl, inv⟩
      | cons cmp rest =>
          have present := inv.present cmp List.mem_cons_self
          obtain ⟨s', step⟩ : ∃ s', splitCompare target cmp ⟨P, rest⟩ = some s' := by
            by_cases reached : cmp.width = target
            · exact ⟨_, if_pos reached⟩
            · refine splitCompare_progress inv.distinct present
                (inv.splittable cmp List.mem_cons_self) ?_
              obtain ⟨factor, width⟩ := inv.widths cmp List.mem_cons_self
              obtain ⟨less, rfl⟩ : ∃ less, factor = less + 1 :=
                Nat.exists_eq_succ_of_ne_zero fun zero =>
                  reached (by rw [width, zero, pow_zero, Nat.mul_one])
              rw [width, pow_succ, ← Nat.mul_assoc, Nat.mul_div_cancel _ (by norm_num)]
              exact (Nat.mul_pos power.positive (Nat.two_pow_pos _)).ne'
          obtain ⟨inv', fewer⟩ := inv.step power step
          obtain ⟨P', loop, done⟩ := ih inv' (by dsimp only at enough; omega)
          refine ⟨P', ?_, done⟩
          rw [splitLoop]
          dsimp only
          rw [if_pos wide, step, Option.bind_some, loop]

/-! ## Before the loop -/

/-- The strict comparison that stays as wide as it is. -/
def leftStrict (new : ℕ) (cmp : Icmp) : List Icmp :=
  if cmp.pred = .uge then [⟨new, .ugt, cmp.width, cmp.op0, cmp.op1⟩]
  else if cmp.pred = .ule then [⟨new, .ult, cmp.width, cmp.op0, cmp.op1⟩]
  else []

theorem leftStrict_of_strict {strict : IcmpPredicate}
    (isStrict : strictPredicate cmp.pred = some strict) (new : ℕ) :
    leftStrict new cmp = if strict = .sgt ∨ strict = .slt then []
      else [⟨new, strict, cmp.width, cmp.op0, cmp.op1⟩] := by
  rw [leftStrict]
  cases pred : cmp.pred <;> rw [pred] at isStrict <;>
    simp only [strictPredicate, reduceCtorEq, Option.some.injEq] at isStrict <;>
    subst isStrict <;> simp

/-- The comparisons that the work on one comparison leaves alone. -/
def keptComparisons (P : Program (Instr M)) (cmp : Icmp) : List Icmp :=
  (comparisons P).filter (· ≠ cmp) ++ leftStrict P.bound cmp

theorem mem_keptComparisons {c : Icmp} : c ∈ keptComparisons P cmp ↔
    (c ∈ comparisons P ∧ c ≠ cmp) ∨ c ∈ leftStrict P.bound cmp := by
  simp [keptComparisons]

/-- What the loop starts with. -/
structure Simplified (P : Program (Instr M)) (cmp : Icmp) (s : Splitting M) : Prop where
  distinct : Distinct s.program
  nodup : s.worklist.Nodup
  listed : ∀ c ∈ s.worklist, c.width = cmp.width ∧ Splittable c.pred ∧
    c ∈ comparisons s.program ∧ c ∉ keptComparisons P cmp
  kept : ∀ c ∈ keptComparisons P cmp, c ∈ comparisons s.program
  all : ∀ c ∈ comparisons s.program, c ∈ keptComparisons P cmp ∨ c ∈ s.worklist ∨ c.width = 1

theorem splittable_unsigned (pred : IcmpPredicate) : Splittable (unsignedPredicate pred) := by
  refine .inr (.inr ?_)
  cases pred <;> exact ⟨_, rfl⟩

/-- The comparisons of the sign bits, and the one that goes on the worklist. -/
theorem regionComparisons_signed (new : ℕ) :
    regionComparisons (M := M) (signedRegion new cmp) =
      [⟨new + 4, .eq, 1, .reg (new + 1), .reg (new + 3)⟩,
        ⟨new + 5, if cmp.pred = .sgt then .ult else .ugt, 1, .reg (new + 1), .reg (new + 3)⟩,
        ⟨new + 6, unsignedPredicate cmp.pred, cmp.width, cmp.op0, cmp.op1⟩] := rfl

theorem simplifySignedCompare_progress {s : Splitting M} (distinct : Distinct s.program)
    (member : cmp ∈ comparisons s.program) : ∃ s', simplifySignedCompare cmp s = some s' := by
  obtain ⟨place, found⟩ := parent_of_mem_comparisons distinct.labels member
  exact ⟨_, by rw [simplifySignedCompare, found]; rfl⟩

theorem simplifyOrEqualsCompare_progress {pred : IcmpPredicate}
    (isStrict : strictPredicate cmp.pred = some pred) (distinct : Distinct P)
    (member : cmp ∈ comparisons P) : ∃ s', simplifyOrEqualsCompare cmp ⟨P, []⟩ = some s' := by
  obtain ⟨⟨b, before, after⟩, found⟩ := parent_of_mem_comparisons distinct.labels member
  obtain ⟨block, split⟩ := parent_icmp found
  obtain ⟨old0, old1⟩ := operands_old block split
  have expands : Expands P (P.splice b before after (orEqualsRegion P.bound b.label cmp pred)) cmp
      [⟨P.bound, pred, cmp.width, cmp.op0, cmp.op1⟩,
        ⟨P.bound + 1, .eq, cmp.width, cmp.op0, cmp.op1⟩] :=
    ⟨by simp [NewComparisons], b, before, after, _, block, split, fresh_orEquals pred, rfl, rfl,
      computes_orEquals (Program.block_lt_bound block) old0 old1 isStrict, rfl⟩
  have there := (expands.mem_iff distinct ⟨P.bound, pred, cmp.width, cmp.op0, cmp.op1⟩).mpr
    (.inr List.mem_cons_self)
  rw [simplifyOrEqualsCompare, isStrict]
  dsimp only
  rw [found, Option.bind_some]
  dsimp only
  split
  · obtain ⟨s', step⟩ := simplifySignedCompare_progress
      (s := ⟨P.splice b before after (orEqualsRegion P.bound b.label cmp pred), []⟩)
      (expands.distinct distinct) there
    exact ⟨_, by rw [step]; rfl⟩
  · exact ⟨_, rfl⟩

theorem not_kept_of_new {c : Icmp} (new : P.bound ≤ c.dest) (notLeft : c ∉ leftStrict P.bound cmp) :
    c ∉ keptComparisons P cmp := by
  rw [mem_keptComparisons]
  rintro (⟨old, _⟩ | left)
  · have := dest_lt_bound old
    omega
  · exact notLeft left

theorem simplified_signed (isSigned : cmp.pred = .sgt ∨ cmp.pred = .slt) (distinct : Distinct P)
    (member : cmp ∈ comparisons P) (positive : 0 < cmp.width) :
    ∃ s, simplifySignedCompare cmp ⟨P, []⟩ = some s ∧ s.worklist ≠ [] ∧ Simplified P cmp s := by
  obtain ⟨s, step⟩ := simplifySignedCompare_progress (s := ⟨P, []⟩) distinct member
  obtain ⟨expands, worklist⟩ := simplifySignedCompare_spec step isSigned positive
  rw [regionComparisons_signed] at expands
  have mem_iff := expands.mem_iff distinct
  have noneLeft : leftStrict P.bound cmp = [] := by
    rcases isSigned with pred | pred <;> simp [leftStrict, pred]
  refine ⟨s, step, by simp [worklist], expands.distinct distinct, by simp [worklist],
    fun c listed => ?_, fun c isKept => ?_, fun c inside => ?_⟩
  · rw [worklist, List.mem_singleton] at listed
    subst listed
    refine ⟨rfl, splittable_unsigned _, (mem_iff _).mpr (.inr (by simp)), ?_⟩
    exact not_kept_of_new (by simp) (by simp [noneLeft])
  · rw [mem_keptComparisons, noneLeft] at isKept
    exact (mem_iff c).mpr (.inl (isKept.resolve_right List.not_mem_nil))
  · rcases (mem_iff c).mp inside with old | new
    · exact .inl (mem_keptComparisons.mpr (.inl old))
    · simp only [List.mem_cons, List.not_mem_nil, or_false] at new
      rcases new with rfl | rfl | rfl
      · exact .inr (.inr rfl)
      · exact .inr (.inr rfl)
      · exact .inr (.inl (by simp [worklist]))

theorem simplified_orEquals {pred : IcmpPredicate} (isStrict : strictPredicate cmp.pred = some pred)
    (distinct : Distinct P) (member : cmp ∈ comparisons P) (positive : 0 < cmp.width) :
    ∃ s, simplifyOrEqualsCompare cmp ⟨P, []⟩ = some s ∧ s.worklist ≠ [] ∧ Simplified P cmp s := by
  obtain ⟨s, step⟩ := simplifyOrEqualsCompare_progress isStrict distinct member
  obtain ⟨P', s'', expands, simplified, rfl⟩ := simplifyOrEqualsCompare_spec isStrict step
  have mem_iff := expands.mem_iff distinct
  have distinct' := expands.distinct distinct
  dsimp only at mem_iff expands
  split at simplified
  · -- A signed strict comparison gives way to comparisons of its own.
    rename_i isSigned
    obtain ⟨expands', worklist⟩ := simplifySignedCompare_spec simplified isSigned positive
    rw [regionComparisons_signed] at expands'
    dsimp only at expands' worklist
    have mem_iff' := expands'.mem_iff distinct'
    have noneLeft : leftStrict P.bound cmp = [] := by
      rw [leftStrict_of_strict isStrict, if_pos isSigned]
    have strict_new : P.bound < P'.bound :=
      dest_lt_bound ((mem_iff ⟨P.bound, pred, cmp.width, cmp.op0, cmp.op1⟩).mpr
        (.inr List.mem_cons_self))
    have equal_new : P.bound + 1 < P'.bound :=
      dest_lt_bound ((mem_iff ⟨P.bound + 1, .eq, cmp.width, cmp.op0, cmp.op1⟩).mpr
        (.inr (List.mem_cons_of_mem _ List.mem_cons_self)))
    refine ⟨_, step, by simp, expands'.distinct distinct', ?_, fun c listed => ?_,
      fun c isKept => ?_, fun c inside => ?_⟩
    · rw [worklist]
      simp only [List.nodup_cons, List.mem_singleton, Icmp.mk.injEq, List.not_mem_nil,
        not_false_eq_true, List.nodup_nil, and_self, and_true]
      omega
    · dsimp only at listed ⊢
      rw [worklist, List.mem_cons, List.mem_singleton] at listed
      rcases listed with rfl | rfl
      · refine ⟨rfl, .inl rfl, (mem_iff' _).mpr (.inl ⟨(mem_iff _).mpr (.inr ?_), by simp⟩), ?_⟩
        · exact List.mem_cons_of_mem _ List.mem_cons_self
        · exact not_kept_of_new (by simp) (by simp [noneLeft])
      · refine ⟨rfl, splittable_unsigned _, (mem_iff' _).mpr (.inr (by simp)), ?_⟩
        exact not_kept_of_new (by dsimp only; omega) (by simp [noneLeft])
    · rw [mem_keptComparisons, noneLeft] at isKept
      have old := isKept.resolve_right List.not_mem_nil
      refine (mem_iff' c).mpr (.inl ⟨(mem_iff c).mpr (.inl old), fun same => ?_⟩)
      have := dest_lt_bound old.1
      rw [same] at this
      exact absurd this (lt_irrefl _)
    · rcases (mem_iff' c).mp inside with ⟨before, differs⟩ | new
      · rcases (mem_iff c).mp before with old | new
        · exact .inl (mem_keptComparisons.mpr (.inl old))
        · simp only [List.mem_cons, List.not_mem_nil, or_false] at new
          rcases new with rfl | rfl
          · exact absurd rfl differs
          · exact .inr (.inl List.mem_cons_self)
      · simp only [List.mem_cons, List.not_mem_nil, or_false] at new
        rcases new with rfl | rfl | rfl
        · exact .inr (.inr rfl)
        · exact .inr (.inr rfl)
        · exact .inr (.inl (by simp [worklist]))
  · -- An unsigned strict comparison stays.
    rename_i notSigned
    obtain rfl := Option.some.inj simplified
    have left : leftStrict P.bound cmp = [⟨P.bound, pred, cmp.width, cmp.op0, cmp.op1⟩] := by
      rw [leftStrict_of_strict isStrict, if_neg notSigned]
    refine ⟨_, step, by simp, distinct', by simp, fun c listed => ?_, fun c isKept => ?_,
      fun c inside => ?_⟩
    · rw [List.mem_singleton.mp listed]
      refine ⟨rfl, .inl rfl, (mem_iff _).mpr (.inr (by simp)), ?_⟩
      exact not_kept_of_new (by simp) (by simp [left])
    · rw [mem_keptComparisons, left, List.mem_singleton] at isKept
      rcases isKept with old | rfl
      · exact (mem_iff c).mpr (.inl old)
      · exact (mem_iff _).mpr (.inr List.mem_cons_self)
    · rcases (mem_iff c).mp inside with old | new
      · exact .inl (mem_keptComparisons.mpr (.inl old))
      · simp only [List.mem_cons, List.not_mem_nil, or_false] at new
        rcases new with rfl | rfl
        · exact .inl (mem_keptComparisons.mpr (.inr (by simp [left])))
        · exact .inr (.inl List.mem_cons_self)

theorem simplified_plain (plain : Splittable cmp.pred) (distinct : Distinct P)
    (member : cmp ∈ comparisons P) : Simplified P cmp ⟨P, [cmp]⟩ := by
  have noneLeft : leftStrict P.bound cmp = [] := by
    rcases plain with isEq | isNe | ⟨inverse, isInverse⟩
    · simp [leftStrict, isEq]
    · simp [leftStrict, isNe]
    · cases pred : cmp.pred <;> rw [pred] at isInverse <;> simp_all [leftStrict, inversePredicate]
  have mem_kept : ∀ c, c ∈ keptComparisons P cmp ↔ c ∈ comparisons P ∧ c ≠ cmp := fun c => by
    rw [mem_keptComparisons, noneLeft]
    simp
  refine ⟨distinct, List.nodup_singleton _, fun c listed => ?_, fun c isKept => ?_,
    fun c inside => ?_⟩
  · rw [List.mem_singleton.mp listed]
    exact ⟨rfl, plain, member, fun isKept => ((mem_kept cmp).mp isKept).2 rfl⟩
  · exact ((mem_kept c).mp isKept).1
  · by_cases same : c = cmp
    · exact .inr (.inl (List.mem_singleton.mpr same))
    · exact .inl ((mem_kept c).mpr ⟨inside, same⟩)

/-- The work before the loop gets through. -/
theorem simplify_spec (distinct : Distinct P) (member : cmp ∈ comparisons P)
    (positive : 0 < cmp.width) :
    ∃ s, simplify cmp P = some s ∧
      Simplified P cmp { s with worklist := if s.worklist = [] then [cmp] else s.worklist } := by
  rw [simplify]
  split
  · rename_i orEquals
    obtain ⟨pred, isStrict⟩ := strictPredicate_of_orEquals orEquals
    obtain ⟨s, step, nonempty, simplified⟩ :=
      simplified_orEquals isStrict distinct member positive
    refine ⟨s, step, ?_⟩
    rw [if_neg nonempty]
    exact simplified
  · rename_i notOrEquals
    split
    · rename_i isSigned
      obtain ⟨s, step, nonempty, simplified⟩ :=
        simplified_signed isSigned distinct member positive
      refine ⟨s, step, ?_⟩
      rw [if_neg nonempty]
      exact simplified
    · rename_i notSigned
      have plain : Splittable cmp.pred := by
        cases pred : cmp.pred <;> simp_all [Splittable, inversePredicate]
      exact ⟨_, rfl, simplified_plain plain distinct member⟩

/-- `simplifyAndSplit` gets through, and leaves no wide comparison that was not there but the strict
one of an unsigned `>=` or `<=`. -/
theorem simplifyAndSplit_spec {target : ℕ} (power : PowerOfTwo target) (distinct : Distinct P)
    (member : cmp ∈ comparisons P) (width : PowerOfTwo cmp.width) :
    ∃ P', simplifyAndSplit target cmp P = some P' ∧ Distinct P' ∧
      (∀ c ∈ keptComparisons P cmp, c ∈ comparisons P') ∧
      ∀ c ∈ comparisons P', target < c.width → c ∈ keptComparisons P cmp := by
  obtain ⟨s, step, simplified⟩ := simplify_spec distinct member width.positive
  set worklist := if s.worklist = [] then [cmp] else s.worklist with worklist_eq
  have one : ∀ c ∈ comparisons s.program, target < c.width →
      c ∈ keptComparisons P cmp ∨ c ∈ worklist := fun c inside wide => by
    rcases simplified.all c inside with isKept | listed | bit
    · exact .inl isKept
    · exact .inr listed
    · have := power.positive
      omega
  rw [simplifyAndSplit, step, Option.bind_some]
  dsimp only
  rw [← worklist_eq]
  by_cases wide : target < cmp.width
  · obtain ⟨exponent, rfl⟩ := power
    obtain ⟨exponent', width_eq⟩ := width
    have above : exponent < exponent' :=
      (Nat.pow_lt_pow_iff_right (by norm_num)).mp (width_eq ▸ wide)
    have inv : LoopInvariant (2 ^ exponent) (keptComparisons P cmp) ⟨s.program, worklist⟩ := by
      refine ⟨simplified.distinct, fun c listed => (simplified.listed c listed).2.2.1,
        simplified.nodup, fun c listed => ⟨exponent' - exponent, ?_⟩,
        fun c listed => (simplified.listed c listed).2.1, fun c isKept => ?_, one⟩
      · rw [(simplified.listed c listed).1, width_eq, ← pow_add, Nat.add_sub_cancel' above.le]
      · exact ⟨simplified.kept c isKept,
          fun listed => (simplified.listed c listed).2.2.2 isKept⟩
    obtain ⟨P', loop, done⟩ := inv.loop ⟨exponent, rfl⟩ wide le_rfl
    refine ⟨P', loop, done.distinct, fun c isKept => (done.apart c isKept).1, ?_⟩
    exact fun c inside wide => (done.wide c inside wide).resolve_right List.not_mem_nil
  · -- Nothing is split where the comparison is not wider than the target.
    have narrow : ∀ (fuel : ℕ) (rest : List Icmp), rounds rest ≤ fuel →
        splitLoop target cmp.width fuel ⟨s.program, rest⟩ = some s.program := by
      intro fuel
      induction fuel with
      | zero =>
          intro rest enough
          cases rest with
          | nil => rfl
          | cons c rest => simp [rounds] at enough
      | succ fuel ih =>
          intro rest enough
          cases rest with
          | nil => rfl
          | cons c rest =>
              rw [splitLoop]
              dsimp only
              rw [if_neg wide]
              exact ih rest (by rw [rounds] at enough; omega)
    refine ⟨s.program, narrow _ _ le_rfl, simplified.distinct, simplified.kept,
      fun c inside wide' => (one c inside wide').resolve_right fun listed => ?_⟩
    rw [(simplified.listed c listed).1] at wide'
    exact wide wide'

/-! ## The whole pass -/

/-- The strict comparison of an unsigned `>=` or `<=`. -/
def LeftBy (cmp c : Icmp) : Prop :=
  (cmp.pred = .uge ∧ c.pred = .ugt ∨ cmp.pred = .ule ∧ c.pred = .ult) ∧
    c.width = cmp.width ∧ c.op0 = cmp.op0 ∧ c.op1 = cmp.op1

theorem leftBy_of_mem {new : ℕ} {c : Icmp} (member : c ∈ leftStrict new cmp) : LeftBy cmp c := by
  rw [leftStrict] at member
  split at member
  · rw [List.mem_singleton.mp member]
    exact ⟨.inl ⟨‹_›, rfl⟩, rfl, rfl, rfl⟩
  · split at member
    · rw [List.mem_singleton.mp member]
      exact ⟨.inr ⟨‹_›, rfl⟩, rfl, rfl, rfl⟩
    · exact absurd member List.not_mem_nil

theorem exists_leftStrict (unsigned : cmp.pred = .uge ∨ cmp.pred = .ule) (new : ℕ) :
    ∃ c ∈ leftStrict new cmp, LeftBy cmp c ∧ c.dest = new := by
  rcases unsigned with pred | pred
  · refine ⟨⟨new, .ugt, cmp.width, cmp.op0, cmp.op1⟩, by simp [leftStrict, pred], ?_, rfl⟩
    exact ⟨.inl ⟨pred, rfl⟩, rfl, rfl, rfl⟩
  · refine ⟨⟨new, .ult, cmp.width, cmp.op0, cmp.op1⟩, by simp [leftStrict, pred], ?_, rfl⟩
    exact ⟨.inr ⟨pred, rfl⟩, rfl, rfl, rfl⟩

/-- The pass over a list of comparisons of the program. -/
theorem splitAll_spec {target : ℕ} (power : PowerOfTwo target) {worklist : List Icmp}
    (distinct : Distinct P) (nodup : worklist.Nodup)
    (present : ∀ c ∈ worklist, c ∈ comparisons P ∧ PowerOfTwo c.width) :
    ∃ P', worklist.foldlM (fun P cmp => simplifyAndSplit target cmp P) P = some P' ∧
      Distinct P' ∧ (∀ c ∈ comparisons P, c ∉ worklist → c ∈ comparisons P') ∧
      (∀ c ∈ comparisons P', target < c.width →
        (c ∈ comparisons P ∧ c ∉ worklist) ∨ ∃ cmp ∈ worklist, LeftBy cmp c) ∧
      ∀ cmp ∈ worklist, cmp.pred = .uge ∨ cmp.pred = .ule →
        ∃ c ∈ comparisons P', LeftBy cmp c := by
  induction worklist generalizing P with
  | nil =>
      exact ⟨P, rfl, distinct, fun c inside _ => inside,
        fun c inside _ => .inl ⟨inside, List.not_mem_nil⟩, List.forall_mem_nil _⟩
  | cons cmp rest ih =>
      obtain ⟨notRest, nodup⟩ := List.nodup_cons.mp nodup
      obtain ⟨here, width⟩ := present cmp List.mem_cons_self
      obtain ⟨P₁, step, distinct₁, kept, wide⟩ := simplifyAndSplit_spec power distinct here width
      have later : ∀ c ∈ rest, c ∈ comparisons P₁ ∧ PowerOfTwo c.width := fun c inRest => by
        obtain ⟨there, width'⟩ := present c (List.mem_cons_of_mem _ inRest)
        exact ⟨kept c (mem_keptComparisons.mpr (.inl ⟨there, fun same => notRest (same ▸ inRest)⟩)),
          width'⟩
      obtain ⟨P', rest_eq, distinct', kept', wide', left'⟩ := ih distinct₁ nodup later
      have notListed : ∀ c, P.bound ≤ c.dest → c ∉ rest := fun c new inRest => by
        have := dest_lt_bound (present c (List.mem_cons_of_mem _ inRest)).1
        omega
      refine ⟨P', ?_, distinct', fun c inside notIn => ?_, fun c inside isWide => ?_,
        fun c listed unsigned => ?_⟩
      · rw [List.foldlM_cons, step]
        exact rest_eq
      · rw [List.mem_cons, not_or] at notIn
        exact kept' c (kept c (mem_keptComparisons.mpr (.inl ⟨inside, notIn.1⟩))) notIn.2
      · rcases wide' c inside isWide with ⟨old, notIn⟩ | ⟨cmp', inRest, left⟩
        · rcases mem_keptComparisons.mp (wide c old isWide) with ⟨inP, differs⟩ | strict
          · refine .inl ⟨inP, fun listed => ?_⟩
            rcases List.mem_cons.mp listed with same | inRest
            · exact differs same
            · exact notIn inRest
          · exact .inr ⟨cmp, List.mem_cons_self, leftBy_of_mem strict⟩
        · exact .inr ⟨cmp', List.mem_cons_of_mem _ inRest, left⟩
      · rcases List.mem_cons.mp listed with rfl | inRest
        · obtain ⟨strict, member, left, new⟩ := exists_leftStrict unsigned P.bound
          refine ⟨strict, kept' strict (kept strict (mem_keptComparisons.mpr (.inr member))) ?_,
            left⟩
          exact notListed strict new.ge
        · exact left' c inRest unsigned

/-- For a target of `2 ^ k` bits the pass gets through. The comparisons wider than the target that
it leaves are those it did not take, and the strict comparison of every unsigned `>=` and `<=` that
it took. -/
theorem splitIntegers_widths (k : ℕ) (distinct : Distinct P) :
    ∃ P', splitIntegers (2 ^ k) P = some P' ∧
      (∀ c ∈ comparisons P', 2 ^ k < c.width →
        (c ∈ comparisons P ∧ selected c = false) ∨
          ∃ cmp ∈ comparisons P, selected cmp = true ∧ LeftBy cmp c) ∧
      ∀ cmp ∈ comparisons P, selected cmp = true → cmp.pred = .uge ∨ cmp.pred = .ule →
        ∃ c ∈ comparisons P', LeftBy cmp c := by
  have nodup : (comparisons P).Nodup := distinct.dests.of_map _
  obtain ⟨P', split, _, _, wide, left⟩ := splitAll_spec ⟨k, rfl⟩ distinct
    (nodup.filter selected) fun c member => by
      obtain ⟨inside, taken⟩ := List.mem_filter.mp member
      refine ⟨inside, powerOfTwo_of_supported ?_⟩
      rw [selected, Bool.and_eq_true] at taken
      exact taken.2
  refine ⟨P', split, fun c inside isWide => ?_, fun cmp inside taken unsigned => ?_⟩
  · rcases wide c inside isWide with ⟨old, notTaken⟩ | ⟨cmp, listed, leftBy⟩
    · refine .inl ⟨old, ?_⟩
      rw [List.mem_filter, not_and] at notTaken
      simpa using notTaken old
    · obtain ⟨inP, taken⟩ := List.mem_filter.mp listed
      exact .inr ⟨cmp, inP, taken, leftBy⟩
  · exact left cmp (List.mem_filter.mpr ⟨inside, taken⟩) unsigned

/-- The test against a threshold keeps a comparison of 16 bits where the target is 8. -/
theorem splitIntegers_widths_threshold :
    ∃ P', splitIntegers (2 ^ 3) thresholdTest = some P' ∧
      ∃ c ∈ comparisons P', c.pred = .ugt ∧ c.width = 16 := by
  obtain ⟨P', split, _, left⟩ :=
    splitIntegers_widths (P := thresholdTest) 3 ⟨by decide, by decide⟩
  obtain ⟨c, inside, ⟨preds, width, _⟩⟩ := left ⟨1, .uge, 16, .reg 0, .const 700⟩
    (by decide) (by decide) (.inl rfl)
  refine ⟨P', split, c, inside, ?_, width⟩
  rcases preds with ⟨_, pred⟩ | ⟨impossible, _⟩
  · exact pred
  · exact absurd impossible (by decide)

end GreenFuzz.Instrumentation
