import GreenFuzz.Instrumentation.SplitCompareWidths
import GreenFuzz.Instrumentation.SplitFloatRegions

/-!
# What the floating-point part makes of a program

A comparison that the pass works on is read with the quiet predicate, on the standard type of its
size (`reread`). The pass gets through on every program with distinct labels, and the program means
what it meant with its comparisons reread. So the pass keeps the meaning where the unordered
comparisons see no NaN and the ordered inequality sees none, and there is no `bfloat`.

A step of the pass changes the program, but not the reread one. Every comparison on the worklist is
still in the program, as often as it is on the worklist, so that none of those is left.
-/

set_option autoImplicit false

namespace GreenFuzz.Instrumentation

open Library

variable {M : Type} {P P' : Program (Instr M)} {cmp : Fcmp}

/-- Whether the two passes replace a comparison. -/
def fpWorked (cmp : Fcmp) : Bool :=
  cmp.type.size ≤ 64 ∧ ((strictFcmp cmp.pred).isNone ∨ fpSimplified cmp)

/-- A comparison as the passes take it. -/
def reread (cmp : Fcmp) : Fcmp :=
  if fpWorked cmp then { cmp with pred := quiet cmp.pred, type := standard cmp.type } else cmp

def Instr.reread : Instr M → Instr M
  | .fcmp cmp => .fcmp (Instrumentation.reread cmp)
  | i => i

/-! ## The comparisons of the program -/

theorem isFcmp_iff {i : Instr M} : i.isFcmp cmp = true ↔ i = .fcmp cmp := by
  cases i <;> simp [Instr.isFcmp]

theorem fpComparisons_eq (P : Program (Instr M)) :
    fpComparisons P = bodyFpComparisons (P.flatMap Block.body) :=
  (List.filterMap_flatMap ..).symm

theorem mem_bodyFpComparisons {body : List (Instr M)} :
    cmp ∈ bodyFpComparisons body ↔ .fcmp cmp ∈ body := by
  rw [bodyFpComparisons, List.mem_filterMap]
  constructor
  · rintro ⟨i, inside, isCmp⟩
    have same : i = .fcmp cmp := by
      cases i <;> simp_all
    exact same ▸ inside
  · exact fun inside => ⟨_, inside, rfl⟩

/-- A comparison of the program is found. -/
theorem parent_fcmp_of_mem (labels : (P.map Block.label).Nodup) (member : cmp ∈ fpComparisons P) :
    ∃ b before after, parent P (Instr.isFcmp cmp) = some (b, before, after) := by
  rw [fpComparisons_eq, mem_bodyFpComparisons] at member
  obtain ⟨b, inside, inBody⟩ := List.mem_flatMap.mp member
  obtain ⟨⟨b', before, after⟩, found⟩ :=
    parent_of_mem labels (isFcmp_iff.mpr rfl) inside inBody
  exact ⟨b', before, after, found⟩

theorem parent_fcmp {b : Block (Instr M)} {before after : List (Instr M)}
    (found : parent P (Instr.isFcmp cmp) = some (b, before, after)) :
    P.block b.label = some b ∧ b.body = before ++ .fcmp cmp :: after := by
  obtain ⟨block, i, isCmp, split⟩ := parent_spec found
  exact ⟨block, isFcmp_iff.mp isCmp ▸ split⟩

theorem reread_numbers (i : Instr M) :
    instructionNumbers (Instr.reread i) = instructionNumbers i := by
  cases i with
  | fcmp cmp =>
      simp only [Instr.reread, Instrumentation.reread]
      split <;> rfl
  | _ => rfl

/-! ## One step -/

/-- The comparisons that a region brings. -/
def regionFpComparisons (r : Region (Instr M)) : List Fcmp :=
  bodyFpComparisons r.front ++ r.middle.flatMap fun block => bodyFpComparisons block.body

/-- A program that has blocks in the place of a comparison, and reads the same. -/
structure FpExpands (P P' : Program (Instr M)) (cmp : Fcmp) (brought : List Fcmp) : Prop where
  meaning : (P'.mapBody Instr.reread).meaning = (P.mapBody Instr.reread).meaning
  labels : (P'.map Block.label).Nodup
  comparisons : ∃ first last, fpComparisons P = first ++ cmp :: last ∧
    fpComparisons P' = first ++ brought ++ last

/-- A region does what the comparison does, when both are reread. -/
theorem fpExpands_splice {b : Block (Instr M)} {before after : List (Instr M)}
    {r : Region (Instr M)} (labels : (P.map Block.label).Nodup) (found : P.block b.label = some b)
    (split : b.body = before ++ .fcmp cmp :: after) (fresh : r.Fresh P.bound)
    (fresh' : (r.mapBody Instr.reread).Fresh P.bound) (result : r.result.dest = cmp.dest)
    (computes : (r.mapBody Instr.reread).Computes P.bound b.label (.fcmp (reread cmp))) :
    FpExpands P (P.splice b before after r) cmp (regionFpComparisons r) where
  meaning := by
    have dest : (reread cmp).dest = cmp.dest := by
      rw [reread]
      split <;> rfl
    exact meaning_splice_mapBody reread_numbers fresh' found split
      (congrArg some dest) result computes
  labels := Program.labels_splice labels found fresh
  comparisons := by
    obtain ⟨first, last, whole, spliced⟩ := Program.bodies_splice (r := r) labels found split
    refine ⟨bodyFpComparisons first, bodyFpComparisons last, ?_, ?_⟩
    · rw [fpComparisons_eq, whole]
      simp [bodyFpComparisons]
    · rw [fpComparisons_eq, spliced]
      simp [bodyFpComparisons, regionFpComparisons, List.filterMap_flatMap]

/-! ## `>=` and `<=` -/

section OrEquals

variable {new label : ℕ} {pred : FcmpPredicate}

theorem fresh_fpOrEquals : (fpOrEqualsRegion (M := M) new label cmp pred).Fresh new :=
  fresh_either rfl

theorem computes_fpOrEquals (label_old : label < new) (old0 : Old new cmp.op0)
    (old1 : Old new cmp.op1) (isStrict : strictFcmp cmp.pred = some pred) :
    (fpOrEqualsRegion new label cmp pred).Computes new label (Instr.fcmp (M := M) cmp) := by
  refine computes_either label_old rfl rfl (fun _ _ => rfl) (fun _ _ => rfl) (fun env memory => ?_)
    fun env env' agree => ?_
  · rw [Instr.run_fcmp, holds_fpOrEquals isStrict]
  · dsimp only
    rw [← agree.read old0, ← agree.read old1]

/-- The predicate without the equality, of a comparison as the passes take it. -/
def rereadStrict (cmp : Fcmp) (pred : FcmpPredicate) : FcmpPredicate :=
  if fpWorked cmp then quiet pred else pred

theorem strictFcmp_strict {pred strict : FcmpPredicate} (isStrict : strictFcmp pred = some strict) :
    strictFcmp strict = none ∧ strictFcmp (quiet pred) = some (quiet strict) := by
  cases pred <;> simp only [strictFcmp, reduceCtorEq, Option.some.injEq] at isStrict <;>
    subst isStrict <;> exact ⟨rfl, rfl⟩

@[simp] theorem strictFcmp_oeq : strictFcmp .oeq = none := rfl

@[simp] theorem quiet_oeq : quiet .oeq = .oeq := rfl

theorem mapBody_fpOrEquals (new label : ℕ) (simplified : fpSimplified cmp = true)
    (isStrict : strictFcmp cmp.pred = some pred) :
    (fpOrEqualsRegion (M := M) new label cmp pred).mapBody Instr.reread =
        fpOrEqualsRegion new label (reread cmp) (rereadStrict cmp pred) ∧
      strictFcmp (reread cmp).pred = some (rereadStrict cmp pred) := by
  obtain ⟨strict_none, quiet_strict⟩ := strictFcmp_strict isStrict
  by_cases small : cmp.type.size ≤ 64
  · simp [Region.mapBody, Block.mapBody, fpOrEqualsRegion, eitherRegion, Instr.reread, reread,
      rereadStrict, fpWorked, small, strict_none, simplified, quiet_strict]
  · simp [Region.mapBody, Block.mapBody, fpOrEqualsRegion, eitherRegion, Instr.reread, reread,
      rereadStrict, fpWorked, small, isStrict]

end OrEquals

theorem reread_fields (cmp : Fcmp) :
    (reread cmp).dest = cmp.dest ∧ (reread cmp).op0 = cmp.op0 ∧ (reread cmp).op1 = cmp.op1 := by
  rw [reread]
  split <;> exact ⟨rfl, rfl, rfl⟩

/-- What `simplifyFPCompares` does with one comparison. -/
theorem simplifyFPCompare_spec (labels : (P.map Block.label).Nodup)
    (member : cmp ∈ fpComparisons P) (simplified : fpSimplified cmp = true) :
    ∃ P' brought, simplifyFPCompare P cmp = some P' ∧ FpExpands P P' cmp brought ∧
      ∀ c ∈ brought, fpSimplified c = false := by
  have taken := simplified
  rw [fpSimplified, Bool.and_eq_true] at taken
  obtain ⟨pred, isStrict⟩ := Option.isSome_iff_exists.mp taken.1
  obtain ⟨b, before, after, found⟩ := parent_fcmp_of_mem labels member
  obtain ⟨block, split⟩ := parent_fcmp found
  have old := instr_operands_old block split
  obtain ⟨reread_region, strict⟩ := mapBody_fpOrEquals (M := M) P.bound b.label simplified
    isStrict
  obtain ⟨_, op0, op1⟩ := reread_fields cmp
  refine ⟨P.splice b before after (fpOrEqualsRegion P.bound b.label cmp pred),
    [⟨P.bound, pred, cmp.type, cmp.op0, cmp.op1⟩,
      ⟨P.bound + 1, .oeq, cmp.type, cmp.op0, cmp.op1⟩], ?_, ?_, ?_⟩
  · rw [simplifyFPCompare, isStrict]
    exact congrArg (Option.map _) found
  · refine fpExpands_splice labels block split fresh_fpOrEquals ?_ rfl ?_
    · rw [reread_region]
      exact fresh_fpOrEquals
    · rw [reread_region]
      exact computes_fpOrEquals (Program.block_lt_bound block)
        (op0 ▸ old _ List.mem_cons_self)
        (op1 ▸ old _ (List.mem_cons_of_mem _ List.mem_cons_self)) strict
  · simp [fpSimplified, (strictFcmp_strict isStrict).1]

/-! ## The other predicates -/

theorem map_reread {body : List (Instr M)} (none : bodyFpComparisons body = []) :
    body.map Instr.reread = body := by
  have kept : ∀ i ∈ body, Instr.reread i = i := by
    intro i inside
    cases i with
    | fcmp cmp => exact absurd (none ▸ mem_bodyFpComparisons.mpr inside) List.not_mem_nil
    | _ => rfl
  exact (List.map_congr_left kept).trans (List.map_id _)

theorem mapBody_reread {r : Region (Instr M)} (none : regionFpComparisons r = []) :
    r.mapBody Instr.reread = r := by
  rw [regionFpComparisons, List.append_eq_nil_iff, List.flatMap_eq_nil_iff] at none
  have middle : r.middle.map (Block.mapBody Instr.reread) = r.middle :=
    (List.map_congr_left fun block inside => by
      rw [Block.mapBody, map_reread (none.2 block inside)]; rfl).trans (List.map_id _)
  rw [Region.mapBody, map_reread none.1, middle]

section Splits

variable {new label : ℕ}

/-- The two kinds of regions. -/
theorem fpRegion_cases {region : Region (Instr M)}
    (isRegion : fpRegion new cmp label = some region) :
    (∃ equal, region = fpEqualityRegion new cmp label equal ∧
        quiet cmp.pred = (if equal then .oeq else .une) ∧ nanCmpResult cmp = (!equal).toNat) ∨
      ∃ greater, region = fpOrderRegion new cmp label greater ∧
        quiet cmp.pred = (if greater then .ogt else .olt) ∧ nanCmpResult cmp = 0 := by
  rw [fpRegion] at isRegion
  cases kind : cmp.pred <;> rw [kind] at isRegion
  case oeq => exact .inl ⟨true, (Option.some.inj isRegion).symm, rfl, by simp [nanCmpResult, kind]⟩
  case ueq => exact .inl ⟨true, (Option.some.inj isRegion).symm, rfl, by simp [nanCmpResult, kind]⟩
  case one => exact .inl ⟨false, (Option.some.inj isRegion).symm, rfl, by simp [nanCmpResult, kind]⟩
  case une => exact .inl ⟨false, (Option.some.inj isRegion).symm, rfl, by simp [nanCmpResult, kind]⟩
  case ogt => exact .inr ⟨true, (Option.some.inj isRegion).symm, rfl, by simp [nanCmpResult, kind]⟩
  case ugt => exact .inr ⟨true, (Option.some.inj isRegion).symm, rfl, by simp [nanCmpResult, kind]⟩
  case olt => exact .inr ⟨false, (Option.some.inj isRegion).symm, rfl, by simp [nanCmpResult, kind]⟩
  case ult => exact .inr ⟨false, (Option.some.inj isRegion).symm, rfl, by simp [nanCmpResult, kind]⟩
  all_goals exact absurd isRegion (by simp)

theorem fpRegion_of_split (new label : ℕ) (split : fpSplit cmp = true) :
    ∃ region : Region (Instr M), fpRegion new cmp label = some region := by
  rw [fpSplit, Bool.and_eq_true] at split
  rw [fpRegion]
  cases kind : cmp.pred <;> simp [kind, strictFcmp] at split ⊢

/-- The regions have integer instructions only. -/
theorem fpRegion_none {region : Region (Instr M)}
    (isRegion : fpRegion new cmp label = some region) :
    regionFpComparisons region = [] := by
  have signs : bodyFpComparisons (signCheck (M := M) new cmp) = [] := rfl
  have front : bodyFpComparisons (nanCheck (M := M) new cmp) = [] := rfl
  have exponents : bodyFpComparisons (exponents (M := M) new cmp) = [] := by
    rw [exponents]
    split <;> rfl
  have fractions : bodyFpComparisons (fractions (M := M) new cmp) = [] := by
    rw [fractions]
    split <;> split <;> rfl
  have append : ∀ (first : List (Instr M)) (c : Icmp),
      bodyFpComparisons (first ++ [.icmp c]) = bodyFpComparisons first :=
    fun _ _ => List.filterMap_append.trans (List.append_nil _)
  have icmp : ∀ c : Icmp, bodyFpComparisons [Instr.icmp (M := M) c] = [] := fun _ => rfl
  have pair : ∀ (c : Icmp) (dest : ℕ) (op0 op1 : Operand),
      bodyFpComparisons [Instr.icmp (M := M) c, .binary dest .xor 1 op0 op1] = [] :=
    fun _ _ _ _ => rfl
  have empty : bodyFpComparisons ([] : List (Instr M)) = [] := rfl
  rcases fpRegion_cases isRegion with ⟨equal, rfl, _⟩ | ⟨greater, rfl, _⟩
  · simp [regionFpComparisons, fpEqualityRegion, front, signs, append, exponents, fractions]
  · simp [regionFpComparisons, fpOrderRegion, front, signs, append, exponents, fractions, icmp,
      pair, empty]

theorem fresh_fpRegion {region : Region (Instr M)}
    (isRegion : fpRegion new cmp label = some region) :
    region.Fresh new ∧ region.result.dest = cmp.dest := by
  rcases fpRegion_cases isRegion with ⟨equal, rfl, _⟩ | ⟨greater, rfl, _⟩
  · refine ⟨fresh_fpEquality equal, ?_⟩
    cases equal <;> rfl
  · exact ⟨fresh_fpOrder greater, rfl⟩

/-- The region for a predicate computes the comparison as the pass takes it. -/
theorem computes_fpRegion {region : Region (Instr M)} (split : fpSplit cmp = true)
    (isRegion : fpRegion new cmp label = some region) (label_old : label < new)
    (old1 : Old new cmp.op1) : region.Computes new label (.fcmp (reread cmp)) := by
  rw [fpSplit, Bool.and_eq_true, Option.isNone_iff_eq_none, decide_eq_true_eq] at split
  obtain ⟨notStrict, small⟩ := split
  have worked : reread cmp = ⟨cmp.dest, quiet cmp.pred, standard cmp.type, cmp.op0, cmp.op1⟩ := by
    simp [reread, fpWorked, small, notStrict]
  rw [worked]
  rcases fpRegion_cases isRegion with ⟨equal, rfl, pred, nan⟩ | ⟨greater, rfl, pred, nan⟩
  · exact pred ▸ computes_fpEquality (measures small) rfl label_old old1 equal nan
  · exact pred ▸ computes_fpOrder (measures small) rfl label_old old1 greater nan

end Splits

/-- What `splitFPCompares` does with one comparison. -/
theorem splitFPCompare_spec (labels : (P.map Block.label).Nodup)
    (member : cmp ∈ fpComparisons P) (taken : fpSplit cmp = true) :
    ∃ P', splitFPCompare P cmp = some P' ∧ FpExpands P P' cmp [] := by
  obtain ⟨b, before, after, found⟩ := parent_fcmp_of_mem labels member
  obtain ⟨block, split⟩ := parent_fcmp found
  have old := instr_operands_old block split
  obtain ⟨region, isRegion⟩ := fpRegion_of_split (M := M) P.bound b.label taken
  have none := fpRegion_none isRegion
  obtain ⟨fresh, result⟩ := fresh_fpRegion isRegion
  refine ⟨P.splice b before after region, ?_, ?_⟩
  · rw [splitFPCompare, found, Option.bind_some]
    exact congrArg (Option.map _) isRegion
  · have computes := computes_fpRegion taken isRegion (Program.block_lt_bound block)
      (old _ (List.mem_cons_of_mem _ List.mem_cons_self))
    rw [← none]
    exact fpExpands_splice labels block split fresh ((mapBody_reread none).symm ▸ fresh) result
      ((mapBody_reread none).symm ▸ computes)

/-! ## The loops -/

/-- A loop over the comparisons of one kind, whose steps bring no more of the kind. -/
theorem fold_spec (kind : Fcmp → Bool) (kept : Fcmp → Prop)
    (step : Program (Instr M) → Fcmp → Option (Program (Instr M)))
    (spec : ∀ P cmp, (P.map Block.label).Nodup → cmp ∈ fpComparisons P → kind cmp = true →
      ∃ P' brought, step P cmp = some P' ∧ FpExpands P P' cmp brought ∧
        ∀ c ∈ brought, kind c = false ∧ kept c)
    {worklist : List Fcmp} (listed : ((fpComparisons P).filter kind).Perm worklist)
    (labels : (P.map Block.label).Nodup) (all : ∀ c ∈ fpComparisons P, kept c) :
    ∃ P', worklist.foldlM step P = some P' ∧ (P'.map Block.label).Nodup ∧
      (P'.mapBody Instr.reread).meaning = (P.mapBody Instr.reread).meaning ∧
      ∀ c ∈ fpComparisons P', kind c = false ∧ kept c := by
  induction worklist generalizing P with
  | nil =>
      refine ⟨P, rfl, labels, rfl, fun c member => ⟨?_, all c member⟩⟩
      have := List.filter_eq_nil_iff.mp listed.eq_nil c member
      exact Bool.eq_false_iff.mpr this
  | cons cmp rest ih =>
      have inFilter : cmp ∈ (fpComparisons P).filter kind := listed.mem_iff.mpr List.mem_cons_self
      obtain ⟨member, isKind⟩ := List.mem_filter.mp inFilter
      obtain ⟨P', brought, taken, expands, new⟩ := spec P cmp labels member isKind
      obtain ⟨first, last, before, after⟩ := expands.comparisons
      have none : brought.filter kind = [] :=
        List.filter_eq_nil_iff.mpr fun c inside => Bool.eq_false_iff.mp (new c inside).1
      have listed' : ((fpComparisons P').filter kind).Perm rest := by
        rw [before, List.filter_append, List.filter_cons_of_pos isKind] at listed
        rw [after, List.filter_append, List.filter_append, none, List.append_nil]
        exact List.Perm.cons_inv (List.perm_middle.symm.trans listed)
      have all' : ∀ c ∈ fpComparisons P', kept c := by
        intro c inside
        rw [after] at inside
        rcases List.mem_append.mp inside with inside | inLast
        · rcases List.mem_append.mp inside with inFirst | inBrought
          · exact all c (before ▸ List.mem_append_left _ inFirst)
          · exact (new c inBrought).2
        · exact all c (before ▸ List.mem_append_right _ (List.mem_cons_of_mem _ inLast))
      obtain ⟨P'', later, labels', meaning, left⟩ := ih listed' expands.labels all'
      refine ⟨P'', ?_, labels', meaning.trans expands.meaning, left⟩
      rw [List.foldlM_cons, taken]
      exact later

theorem mapBody_fixed (fixed : ∀ c ∈ fpComparisons P, reread c = c) :
    P.mapBody Instr.reread = P := by
  have kept : ∀ b ∈ P, Block.mapBody Instr.reread b = b := by
    intro b inside
    have body : b.body.map Instr.reread = b.body := by
      refine (List.map_congr_left fun i inBody => ?_).trans (List.map_id _)
      cases i with
      | fcmp cmp =>
          have member : cmp ∈ fpComparisons P := by
            rw [fpComparisons_eq, mem_bodyFpComparisons]
            exact List.mem_flatMap.mpr ⟨b, inside, inBody⟩
          exact congrArg Instr.fcmp (fixed cmp member)
      | _ => rfl
    rw [Block.mapBody, body]
  exact (List.map_congr_left kept).trans (List.map_id _)

/-- The floating-point part of the split-compares pass gets through on every program whose labels
are distinct. It leaves no comparison that it works on, and what it makes means the program with
those comparisons read by their quiet predicate, on the standard type of their size. -/
theorem splitFloats_meaning (labels : (P.map Block.label).Nodup) :
    ∃ P', splitFloats P = some P' ∧ P'.meaning = (P.mapBody Instr.reread).meaning ∧
      ∀ c ∈ fpComparisons P', fpWorked c = false := by
  obtain ⟨P1, simplified, labels1, meaning1, left1⟩ := fold_spec fpSimplified
    (fun _ => True) simplifyFPCompare (P := P)
    (fun P cmp labels member isKind => by
      obtain ⟨P', brought, taken, expands, new⟩ := simplifyFPCompare_spec labels member isKind
      exact ⟨P', brought, taken, expands, fun c inside => ⟨new c inside, trivial⟩⟩)
    (List.Perm.refl _) labels (fun _ _ => trivial)
  obtain ⟨P2, split, _, meaning2, left2⟩ := fold_spec fpSplit
    (fun c => fpSimplified c = false) splitFPCompare (P := P1)
    (fun P cmp labels member isKind => by
      obtain ⟨P', taken, expands⟩ := splitFPCompare_spec labels member isKind
      exact ⟨P', [], taken, expands, fun c inside => absurd inside List.not_mem_nil⟩)
    (List.Perm.refl _) labels1 (fun c inside => (left1 c inside).1)
  have none : ∀ c ∈ fpComparisons P2, fpWorked c = false := by
    intro c inside
    obtain ⟨notSplit, notSimplified⟩ := left2 c inside
    simp only [fpSplit, Bool.and_eq_false_iff, decide_eq_false_iff_not] at notSplit
    simp only [fpWorked, notSimplified, decide_eq_false_iff_not]
    rintro ⟨small, isNone | isSimplified⟩
    · rcases notSplit with notNone | large
      · exact absurd isNone (by simp [notNone])
      · exact large small
    · exact absurd isSimplified (by simp)
  refine ⟨P2, ?_, ?_, none⟩
  · rw [splitFloats, simplifyFPCompares, simplified, Option.bind_some]
    exact split
  · have fixed := mapBody_fixed (P := P2) fun c inside => by
      rw [reread, none c inside, if_neg Bool.false_ne_true]
    rw [← meaning1, ← meaning2, fixed]

/-- A test against an unordered bound and one of a `bfloat`. -/
def boundTest : Program (Instr Unit) :=
  [⟨0, [], [.fcmp ⟨2, .uge, .float, .reg 0, .const 0⟩, .fcmp ⟨3, .olt, .bfloat, .reg 1, .reg 2⟩],
    .ret (some (.reg 3))⟩]

theorem splitFloats_meaning_bound :
    ∃ P', splitFloats boundTest = some P' ∧
      P'.meaning = (boundTest.mapBody Instr.reread).meaning ∧
      ∀ c ∈ fpComparisons P', fpWorked c = false :=
  splitFloats_meaning (by decide)

end GreenFuzz.Instrumentation
