import GreenFuzz.Redqueen.ColorizationRanges

/-!
# What a colorization promises

The first loop keeps the ranges apart, and the buffer has the replaced bytes exactly where an
accepted range is (`Painted`). The second loop takes the accepted ranges in ascending order, so
that the taints, of which the newest comes first, are sorted, and a gap is left between any
two of them (`Covered`).

Both properties are about the ranges and taints as lists. That the lists are linked in the
heap is `Listed` for the first loop and `Linked` for the second one.
-/

set_option autoImplicit false

namespace GreenFuzz.Redqueen

open Library AflFuzz

/-- The positions of a taint. -/
def Tainted.Covers (t : Tainted) (i : ℕ) : Prop := t.pos ≤ i ∧ i < t.pos + t.len

variable {len : ℕ} {r : Range} {rest : List Range} {backup changed buf : Buffer}

/-! ## The taints of the second loop -/

/-- The taints cover what the merged ranges cover, are sorted with gaps between them, and no
accepted range starts before one of them ends. `Replaced` is what is left to be covered. -/
structure Covered (len : ℕ) (Replaced : ℕ → Prop) (ranges : List Range) (taints : List Tainted) :
    Prop where
  inside : ∀ r ∈ ranges, r.Inside len
  apart : ranges.Pairwise Range.Apart
  chosen : ∀ i, (∃ r ∈ ranges, r.ok ≠ .untried ∧ r.Covers i) ↔ Replaced i
  merged : ∀ i, (∃ t ∈ taints, t.Covers i) ↔ ∃ r ∈ ranges, r.ok = .merged ∧ r.Covers i
  within : ∀ t ∈ taints, 0 < t.len ∧ t.pos + t.len ≤ len
  sorted : taints.Pairwise fun newer older => older.pos + older.len < newer.pos
  ahead : ∀ r ∈ ranges, r.ok = .accepted → ∀ t ∈ taints, t.pos + t.len ≤ r.start

namespace Covered

variable {Replaced : ℕ → Prop} {taints : List Tainted} {t : Tainted}

theorem perm {ranges others : List Range} (same : ranges.Perm others)
    (covered : Covered len Replaced ranges taints) : Covered len Replaced others taints where
  inside r member := covered.inside r (same.mem_iff.mpr member)
  apart := (same.pairwise_iff Range.Apart.symm).mp covered.apart
  chosen i := by simpa only [same.mem_iff] using covered.chosen i
  merged i := by simpa only [same.mem_iff] using covered.merged i
  within := covered.within
  sorted := covered.sorted
  ahead r member := covered.ahead r (same.mem_iff.mpr member)

/-- Before the second loop there are no taints. -/
theorem start {ranges : List Range} (painted : Painted backup changed len ranges buf)
    (differs : ∀ i < len, changed i ≠ backup i) :
    Covered len (fun i => buf i ≠ backup i) ranges [] where
  inside := painted.inside
  apart := painted.apart
  chosen i := by
    constructor
    · rintro ⟨r, member, tried, covers⟩ same
      have accepted : r.ok = .accepted := by
        cases state : r.ok with
        | untried => exact absurd state tried
        | accepted => rfl
        | merged => exact absurd state (painted.pending r member)
      have below := (painted.inside r member).below
      refine differs i (by have := covers.2; omega) ?_
      rw [← painted.replaced r member accepted i covers, same]
    · intro other
      by_contra none
      refine other (painted.original i fun r member accepted covers => none ?_)
      exact ⟨r, member, fun untried => (nomatch accepted.symm.trans untried), covers⟩
  merged i := by
    constructor
    · rintro ⟨t, member, -⟩
      cases member
    · rintro ⟨r, member, merged, -⟩
      exact absurd merged (painted.pending r member)
  within t member := nomatch member
  sorted := List.Pairwise.nil
  ahead r _ _ t member := nomatch member

/-- An accepted range that starts no later than the others is merged, into taints that cover
one more range, of which only the first one is new. -/
theorem merge (covered : Covered len Replaced (r :: rest) taints) (accepted : r.ok = .accepted)
    (lowest : ∀ other ∈ rest, other.ok = .accepted → r.start ≤ other.start)
    {old : List Tainted} (first : t.pos + t.len = r.stop + 1) (positive : 0 < t.len)
    (kept : ∀ t ∈ old, t ∈ taints) (sorted : ∀ older ∈ old, older.pos + older.len < t.pos)
    (old_sorted : old.Pairwise fun newer older => older.pos + older.len < newer.pos)
    (covers : ∀ i, (∃ u ∈ t :: old, u.Covers i) ↔ (∃ u ∈ taints, u.Covers i) ∨ r.Covers i) :
    Covered len Replaced ({ r with ok := .merged } :: rest) (t :: old) := by
  obtain ⟨first_apart, rest_apart⟩ := List.pairwise_cons.mp covered.apart
  have inside := covered.inside r List.mem_cons_self
  constructor
  · exact List.forall_mem_cons.mpr ⟨⟨inside.ordered, inside.below⟩,
      (List.forall_mem_cons.mp covered.inside).2⟩
  · exact List.pairwise_cons.mpr ⟨first_apart, rest_apart⟩
  · intro i
    rw [← covered.chosen i]
    simp only [List.exists_mem_cons_iff, accepted, ne_eq, reduceCtorEq, not_false_eq_true, true_and]
    rfl
  · intro i
    rw [covers i, covered.merged i]
    simp only [List.exists_mem_cons_iff, accepted, reduceCtorEq, false_and, true_and, false_or]
    exact Or.comm
  · refine List.forall_mem_cons.mpr ⟨⟨positive, ?_⟩, fun other member =>
      covered.within other (kept other member)⟩
    have := inside.below
    omega
  · exact List.pairwise_cons.mpr ⟨sorted, old_sorted⟩
  · intro other member other_accepted
    rcases List.mem_cons.mp member with rfl | later
    · cases other_accepted
    · refine List.forall_mem_cons.mpr ⟨?_, fun older old_member =>
        covered.ahead other (List.mem_cons_of_mem _ later) other_accepted older
          (kept older old_member)⟩
      have order := lowest other later other_accepted
      rcases first_apart other later with before | behind
      · omega
      · have := (covered.inside other (List.mem_cons_of_mem _ later)).ordered
        omega

/-- The current taint gets longer by a range that starts where it ends. -/
theorem extend {old : List Tainted} (covered : Covered len Replaced (r :: rest) (t :: old))
    (accepted : r.ok = .accepted) (continues : t.pos + t.len = r.start) :
    Covered len Replaced ({ r with ok := .merged } :: rest)
      (⟨t.pos, t.len + (r.stop + 1 - r.start)⟩ :: old) := by
  have ordered := (covered.inside r List.mem_cons_self).ordered
  have positive := (covered.within t List.mem_cons_self).1
  obtain ⟨sorted, old_sorted⟩ := List.pairwise_cons.mp covered.sorted
  refine covered.merge accepted ?_ ?_ ?_ (fun older member => List.mem_cons_of_mem _ member) sorted
    old_sorted ?_
  · intro other member other_accepted
    have := covered.ahead other (List.mem_cons_of_mem _ member) other_accepted t List.mem_cons_self
    omega
  · show t.pos + (t.len + (r.stop + 1 - r.start)) = r.stop + 1
    omega
  · exact Nat.add_pos_left positive _
  · intro i
    have longer : Tainted.Covers ⟨t.pos, t.len + (r.stop + 1 - r.start)⟩ i ↔
        t.Covers i ∨ r.Covers i := by
      simp only [Tainted.Covers, Range.Covers]
      omega
    simp only [List.exists_mem_cons_iff, longer]
    exact or_right_comm

/-- The lowest range becomes a taint, if it does not continue the current one. -/
theorem add (covered : Covered len Replaced (r :: rest) taints) (accepted : r.ok = .accepted)
    (lowest : ∀ other ∈ rest, other.ok = .accepted → r.start ≤ other.start)
    (gap : ∀ t, taints.head? = some t → t.pos + t.len ≠ r.start) :
    Covered len Replaced ({ r with ok := .merged } :: rest)
      (⟨r.start, r.stop + 1 - r.start⟩ :: taints) := by
  have ordered := (covered.inside r List.mem_cons_self).ordered
  refine covered.merge accepted lowest ?_ ?_ (fun _ member => member) ?_ covered.sorted ?_
  · show r.start + (r.stop + 1 - r.start) = r.stop + 1
    omega
  · show 0 < r.stop + 1 - r.start
    omega
  · intro older member
    show older.pos + older.len < r.start
    cases taints with
    | nil => cases member
    | cons newest old =>
        have ahead := covered.ahead r List.mem_cons_self accepted newest List.mem_cons_self
        have apart := gap newest rfl
        rcases List.mem_cons.mp member with rfl | later
        · omega
        · have := (List.pairwise_cons.mp covered.sorted).1 older later
          omega
  · intro i
    have same : Tainted.Covers ⟨r.start, r.stop + 1 - r.start⟩ i ↔ r.Covers i := by
      simp only [Tainted.Covers, Range.Covers]
      omega
    simp only [List.exists_mem_cons_iff, same]
    exact Or.comm

end Covered

/-! ## The lists of the second loop -/

/-- The ranges and the taints are linked in their heaps. -/
structure Linked (ranges : Option ℕ) (m : Merging) (items : List (ℕ × Range))
    (taints : List (ℕ × Tainted)) : Prop where
  ranged : LinkedFrom m.ranges none ranges items
  distinct : (addresses items).Nodup
  tainted : LinkedFrom m.taints (some .null) m.taint taints
  taint_distinct : (addresses taints).Nodup
  fresh : ∀ id ∈ addresses taints, id < m.fresh

section Linked

variable {m : Merging} {ranges : Option ℕ} {items left right : List (ℕ × Range)}
  {taints old : List (ℕ × Tainted)} {id tid fuel : ℕ} {t : Tainted}

theorem Linked.taintEnd (linked : Linked ranges m items taints) :
    m.taintEnd = .ok (taints.head?.map fun t => u32 (t.2.pos + t.2.len)) := by
  cases taints with
  | nil =>
      have none : m.taint = none := linked.tainted
      rw [Merging.taintEnd, none]
      rfl
  | cons first rest =>
      obtain ⟨start_eq, node, there, holds, -, -⟩ := linked.tainted
      rw [Merging.taintEnd, start_eq]
      simp only [deref_eq there, Bind.bind, Except.bind, holds]
      rfl

theorem Linked.markMerged (linked : Linked ranges m (left ++ (id, r) :: right) taints) :
    Yields (m.markMerged id) fun m' =>
      Linked ranges m' (left ++ (id, { r with ok := .merged }) :: right) taints := by
  obtain ⟨heap, changed, ranged⟩ :=
    linked.ranged.setItem linked.distinct fun r => { r with ok := .merged }
  rw [Merging.markMerged, changed]
  refine Yields.pure ⟨ranged, ?_, linked.tainted, linked.taint_distinct, linked.fresh⟩
  simpa only [addresses, List.map_append, List.map_cons] using linked.distinct

/-- The node of a range of the list. -/
theorem Linked.rangeThere (linked : Linked ranges m (left ++ (id, r) :: right) taints) :
    ∃ node, m.ranges id = some node ∧ node.item = r := by
  obtain ⟨before, start, here⟩ := linked.ranged.later
  obtain ⟨-, node, there, holds, -, -⟩ := here
  exact ⟨node, there, holds⟩

theorem Linked.extendTaint
    (linked : Linked ranges m (left ++ (id, r) :: right) ((tid, t) :: old)) :
    Yields (m.extendTaint id) fun m' =>
      Linked ranges m' (left ++ (id, { r with ok := .merged }) :: right)
        ((tid, ⟨t.pos, u32 (t.len + r.size)⟩) :: old) := by
  obtain ⟨node, there, rfl⟩ := linked.rangeThere
  have first : LinkedFrom m.taints (some .null) m.taint ([] ++ (tid, t) :: old) := linked.tainted
  obtain ⟨heap, changed, tainted⟩ :=
    first.setItem linked.taint_distinct fun t => ⟨t.pos, u32 (t.len + node.item.size)⟩
  rw [Merging.extendTaint, linked.tainted.1]
  simp only [deref_eq there, Bind.bind, Except.bind]
  rw [show m.taints.modify tid (fun n => { n with item := { n.item with
      len := u32 (n.item.len + node.item.size) } }) = .ok heap from changed]
  rw [linked.tainted.1] at tainted
  exact Linked.markMerged ⟨linked.ranged, linked.distinct, tainted, linked.taint_distinct,
    linked.fresh⟩

theorem Linked.addTaint (linked : Linked ranges m (left ++ (id, r) :: right) taints) :
    Yields (m.addTaint id) fun m' =>
      Linked ranges m' (left ++ (id, { r with ok := .merged }) :: right)
        ((m.fresh, ⟨r.start, r.size⟩) :: taints) := by
  obtain ⟨node, there, rfl⟩ := linked.rangeThere
  have unused : m.fresh ∉ addresses taints := fun member => (linked.fresh _ member).ne rfl
  obtain ⟨heap, pushed, tainted⟩ := linked.tainted.push linked.taint_distinct unused
    ⟨node.item.start, node.item.size⟩ .null
  rw [Merging.addTaint]
  simp only [deref_eq there, pushed, Bind.bind, Except.bind]
  refine Linked.markMerged ⟨linked.ranged, linked.distinct, tainted, ?_, ?_⟩
  · exact List.nodup_cons.mpr ⟨unused, linked.taint_distinct⟩
  · exact List.forall_mem_cons.mpr ⟨Nat.lt_succ_self _,
      fun other member => Nat.lt_succ_of_lt (linked.fresh other member)⟩

/-! ## The second loop -/

/-- What a scan of the ranges finds: nothing if no range is accepted, or an accepted range that
continues the current taint, or the lowest accepted one, which does not continue it. -/
def ScanFinds (taintEnd : Option ℕ) (items : List (ℕ × Range)) (scan : Scan) : Prop :=
  match scan.found with
  | none => ∀ item ∈ items, item.2.ok ≠ .accepted
  | some id => ∃ r, (id, r) ∈ items ∧ r.ok = .accepted ∧
      if scan.continues then taintEnd = some r.start
      else taintEnd ≠ some r.start ∧ ∀ item ∈ items, item.2.ok = .accepted → r.start ≤ item.2.start

/-- The variables of a scan that has seen some of the ranges. -/
structure Scanned (taintEnd : Option ℕ) (seen : List (ℕ × Range)) (scan : Scan) : Prop where
  goes_on : scan.continues = false
  lowest : ∀ item ∈ seen, item.2.ok = .accepted → scan.pos ≤ item.2.start
  unset : scan.found = none → scan.pos = 2 ^ 32 - 1
  found : ∀ id, scan.found = some id → ∃ r, (id, r) ∈ seen ∧ r.ok = .accepted ∧
    scan.pos = r.start ∧ taintEnd ≠ some r.start

theorem scan_finds (taintEnd : Option ℕ) (below : ∀ item ∈ items, item.2.start < 2 ^ 32 - 1) :
    ScanFinds taintEnd items
      (visitAll (scanRange taintEnd) items ⟨false, none, 2 ^ 32 - 1⟩) := by
  have visited := visitAll_cases (scanRange taintEnd) items ⟨false, none, 2 ^ 32 - 1⟩
    (P := Scanned taintEnd)
    (Q := fun scan => scan.continues = true ∧ ∃ id, scan.found = some id ∧
      ∃ r, (id, r) ∈ items ∧ r.ok = .accepted ∧ taintEnd = some r.start) ?_ ?_ ?_
  · generalize visitAll (scanRange taintEnd) items ⟨false, none, 2 ^ 32 - 1⟩ = scan at visited
    rcases visited with scanned | ⟨continues, id, found, r, member, accepted, adjacent⟩
    · rw [ScanFinds]
      cases state : scan.found with
      | none =>
          intro item member accepted
          have low := scanned.lowest item member accepted
          have := below item member
          rw [scanned.unset state] at low
          omega
      | some id =>
          obtain ⟨r, member, accepted, pos_eq, gap⟩ := scanned.found id state
          refine ⟨r, member, accepted, ?_⟩
          rw [scanned.goes_on, if_neg Bool.false_ne_true]
          exact ⟨gap, fun item other accepted => pos_eq ▸ scanned.lowest item other accepted⟩
    · rw [ScanFinds, found]
      refine ⟨r, member, accepted, ?_⟩
      rwa [continues, if_pos rfl]
  · exact ⟨rfl, fun _ member => (nomatch member), fun _ => rfl, fun _ found => (nomatch found)⟩
  · intro seen id r scan scan' scanned visit
    rw [scanRange] at visit
    split at visit
    next taken =>
        split at visit
        next => cases visit
        next gap =>
            cases visit
            refine ⟨scanned.goes_on, ?_, fun unset => (nomatch unset), ?_⟩
            · intro item member accepted
              rcases List.mem_append.mp member with earlier | last
              · exact taken.2.le.trans (scanned.lowest item earlier accepted)
              · rw [List.mem_singleton.mp last]
            · intro other found
              cases found
              exact ⟨r, List.mem_append_right _ (List.mem_singleton_self _), taken.1, rfl, gap⟩
    next passed =>
        cases visit
        refine ⟨scanned.goes_on, ?_, scanned.unset, ?_⟩
        · intro item member accepted
          rcases List.mem_append.mp member with earlier | last
          · exact scanned.lowest item earlier accepted
          · cases List.mem_singleton.mp last
            exact Nat.le_of_not_lt fun lower => passed ⟨accepted, lower⟩
        · intro other found
          obtain ⟨r, member, rest⟩ := scanned.found other found
          exact ⟨r, List.mem_append_left _ member, rest⟩
  · intro seen id r scan scan' _ member visit
    rw [scanRange] at visit
    split at visit
    next taken =>
        split at visit
        next adjacent =>
            cases visit
            exact ⟨rfl, id, rfl, r, member, taken.1, adjacent⟩
        next => cases visit
    next => cases visit

/-- How many ranges still have to be merged. -/
def acceptedCount (items : List (ℕ × Range)) : ℕ := items.countP fun item => item.2.ok = .accepted

theorem acceptedCount_merge (left right : List (ℕ × Range)) (id : ℕ)
    (accepted : r.ok = .accepted) :
    acceptedCount (left ++ (id, r) :: right) =
      acceptedCount (left ++ (id, { r with ok := .merged }) :: right) + 1 := by
  simp only [acceptedCount, List.countP_append, List.countP_cons, accepted, decide_true, if_true,
    reduceCtorEq, decide_false, Bool.false_eq_true, if_false]
  omega

/-- What the second loop leaves behind. -/
def MergedAll (len : ℕ) (Replaced : ℕ → Prop) (ranges : Option ℕ) (fuel : ℕ) (m : Merging) :
    Prop :=
  ∃ items taints, Linked ranges m items taints ∧ items.length ≤ fuel ∧ taints.length ≤ fuel ∧
    Covered len Replaced (items.map Prod.snd) (taints.map Prod.snd) ∧
    ∀ item ∈ items, item.2.ok ≠ .accepted

/-- One round of the second loop. -/
theorem mergeRange_spec {Replaced : ℕ → Prop} (small : len < 2 ^ 32)
    (linked : Linked ranges m (left ++ (id, r) :: right) taints)
    (covered : Covered len Replaced ((left ++ (id, r) :: right).map Prod.snd)
      (taints.map Prod.snd))
    (accepted : r.ok = .accepted) (continues : Bool)
    (found : if continues then taints.head?.map (fun t => u32 (t.2.pos + t.2.len)) = some r.start
      else taints.head?.map (fun t => u32 (t.2.pos + t.2.len)) ≠ some r.start ∧
        ∀ item ∈ left ++ (id, r) :: right, item.2.ok = .accepted → r.start ≤ item.2.start) :
    Yields (m.mergeRange continues id) fun m' =>
      ∃ taints', Linked ranges m' (left ++ (id, { r with ok := .merged }) :: right) taints' ∧
        taints'.length ≤ taints.length + 1 ∧
        Covered len Replaced ((left ++ (id, { r with ok := .merged }) :: right).map Prod.snd)
          (taints'.map Prod.snd) := by
  have toFront (r' : Range) : ((left ++ (id, r') :: right).map Prod.snd).Perm
      (r' :: (left ++ right).map Prod.snd) := by
    rw [List.map_append, List.map_append, List.map_cons]
    exact List.perm_middle
  have first := covered.perm (toFront r)
  have inside := first.inside r List.mem_cons_self
  have ordered := inside.ordered
  have below := inside.below
  have size := inside.size small
  cases continues with
  | true =>
      cases taints with
      | nil => cases found
      | cons newest old =>
          obtain ⟨tid, t⟩ := newest
          have ending : t.pos + t.len ≤ len := (covered.within t List.mem_cons_self).2
          have adjacent : t.pos + t.len = r.start := by
            rw [← u32_of_lt (ending.trans_lt small)]
            exact Option.some.inj found
          refine linked.extendTaint.mono fun m' linked' => ⟨_, linked', Nat.le_succ _, ?_⟩
          have length : u32 (t.len + r.size) = t.len + (r.stop + 1 - r.start) := by
            rw [size, u32_of_lt (by omega)]
          rw [List.map_cons, length]
          exact (first.extend accepted adjacent).perm (toFront _).symm
  | false =>
      obtain ⟨gap, lowest⟩ := found
      refine linked.addTaint.mono fun m' linked' => ⟨_, linked', le_rfl, ?_⟩
      rw [List.map_cons, size]
      refine (first.add accepted ?_ ?_).perm (toFront _).symm
      · intro other member other_accepted
        obtain ⟨item, item_member, rfl⟩ := List.mem_map.mp member
        refine lowest item ?_ other_accepted
        rw [List.mem_append, List.mem_cons]
        rw [List.mem_append] at item_member
        exact item_member.imp_right Or.inr
      · intro t newest adjacent
        cases taints with
        | nil => cases newest
        | cons newest' old =>
            cases newest
            have ending := (covered.within newest'.2 List.mem_cons_self).2
            refine gap (congrArg some ?_)
            exact (u32_of_lt (ending.trans_lt small)).trans adjacent

/-- **The second loop ends** when all accepted ranges are merged. -/
theorem mergeRanges_spec {Replaced : ℕ → Prop} (small : len < 2 ^ 32) {rounds : ℕ}
    (linked : Linked ranges m items taints)
    (covered : Covered len Replaced (items.map Prod.snd) (taints.map Prod.snd))
    (enough : items.length ≤ fuel) (room : taints.length + acceptedCount items ≤ fuel)
    (remaining : acceptedCount items < rounds) :
    Yields (mergeRanges fuel ranges rounds m) (MergedAll len Replaced ranges fuel) := by
  induction rounds generalizing m items taints with
  | zero => exact absurd remaining (Nat.not_lt_zero _)
  | succ rounds ih =>
      have below (item : ℕ × Range) (member : item ∈ items) : item.2.start < 2 ^ 32 - 1 := by
        have inside := covered.inside item.2 (List.mem_map_of_mem member)
        have := inside.ordered
        have := inside.below
        omega
      have finds := scan_finds (taints.head?.map fun t => u32 (t.2.pos + t.2.len)) below
      rw [mergeRanges, linked.taintEnd]
      simp only [Bind.bind, Except.bind]
      rw [walk_eq _ linked.ranged enough]
      generalize visitAll _ items _ = scan at finds
      simp only
      rw [ScanFinds] at finds
      cases state : scan.found with
      | none =>
          rw [state] at finds
          exact Yields.pure ⟨items, taints, linked, enough, by omega, covered, finds⟩
      | some id =>
          rw [state] at finds
          obtain ⟨r, member, accepted, found⟩ := finds
          obtain ⟨left, right, rfl⟩ := List.append_of_mem member
          obtain ⟨m', done, taints', linked', few, covered'⟩ :=
            mergeRange_spec small linked covered accepted scan.continues found
          have count := acceptedCount_merge left right id accepted
          simp only [done]
          refine ih linked' covered' ?_ (by omega) (by omega)
          simpa only [List.length_append, List.length_cons] using enough

end Linked

/-! ## The function -/

/-- What the end of the function hands over. -/
structure Finished (final : Buffer) (m : Merging) (c : Colorized) : Prop where
  ret : c.ret = 0
  buf : c.buf = final
  handed : c.taints ≠ none → c.heap = m.taints ∧ c.taints = m.taint

theorem finishTaints_spec {Replaced : ℕ → Prop} {fuel : ℕ} {m : Merging} {ranges : Option ℕ}
    (afl : ColorizeStats) (final : Buffer) (merged : MergedAll len Replaced ranges fuel m) :
    Yields (finishTaints fuel afl len final m) (Finished final m) := by
  obtain ⟨items, taints, linked, -, room, -, -⟩ := merged
  rw [finishTaints]
  split
  · exact Yields.pure ⟨rfl, rfl, fun some => absurd rfl some⟩
  split
  · obtain ⟨heap, freed⟩ := freeAll_ok linked.tainted linked.taint_distinct room
    rw [freed]
    exact Yields.pure ⟨rfl, rfl, fun some => absurd rfl some⟩
  · exact Yields.pure ⟨rfl, rfl, fun _ => ⟨rfl, rfl⟩⟩

/-- What a colorization comes to: an execution failed, or both loops ended, and what the rounds of
the first one carry holds. -/
inductive ColorizationEnds (T : Target) (changed buf : Buffer) (len fuel : ℕ)
    (P : Colorizing → List (ℕ × Range) → Prop) (c : Colorized) : Prop where
  | failed (ret : c.ret = 1) {k : ℕ} (fails : T.fails k = true)
  | finished {s : Colorizing} {items : List (ℕ × Range)} {ranges : Option ℕ} {m : Merging}
      (held : Held buf changed len s items) (holds : P s items)
      (tried : s.stageCur < u32 (len <<< 1) → ∀ item ∈ items, item.2.ok ≠ .untried)
      (merged : MergedAll len (fun i => s.buf i ≠ buf i) ranges fuel m)
      (ends : Finished s.buf m c)

/-- **All loops of a colorization end**, for every replacement that differs from the input at
every byte. -/
theorem colorization_ends {P : Colorizing → List (ℕ × Range) → Prop} {T : Target} {fuel : ℕ}
    (afl : ColorizeStats) (positive : 0 < len) (small : len < 2 ^ 32)
    (differs : ∀ i < len, changed i ≠ buf i) (enough : 2 * len + 2 ≤ fuel)
    (start : ∀ s : Colorizing, s.buf = buf → s.stageCur = 0 →
      P s [(0, ⟨0, len - 1, .untried⟩)])
    (carries : ∀ s t items items', Held buf changed len s items → P s items →
      t.stageCur = s.stageCur + 1 → Round T changed (T.cksum buf) s t items items' → P t items') :
    Yields (colorization fuel T afl changed buf len)
      (ColorizationEnds T changed buf len fuel P) := by
  have stage_max : u32 (len <<< 1) ≤ 2 * len := by
    rw [Nat.shiftLeft_eq, u32]
    omega
  have empty : Listed ⟨fun _ => none, 0, none, buf, 0⟩ [] :=
    ⟨rfl, List.nodup_nil, fun _ member => (nomatch member)⟩
  obtain ⟨s, added, listed, -, same_buf, same_cur⟩ := empty.addRange 0 (u32Pred len)
  have held : Held buf changed len s [(0, ⟨0, u32Pred len, .untried⟩)] := by
    refine ⟨listed, ?_, Nat.le_add_left _ _⟩
    rw [same_buf, u32Pred_eq_sub positive small.le]
    exact Painted.start positive
  have holds : P s [(0, ⟨0, u32Pred len, .untried⟩)] := by
    rw [u32Pred_eq_sub positive small.le]
    exact start s same_buf same_cur
  rw [colorization, added]
  simp only [Bind.bind, Except.bind]
  split
  next fails =>
    obtain ⟨freed, done⟩ := freeAll_ok listed.linked listed.distinct (show 1 ≤ fuel by omega)
    rw [done]
    exact ⟨_, rfl, .failed rfl fails⟩
  have in_fuel : u32 (len <<< 1) < fuel := by omega
  have within_max : s.stageCur ≤ u32 (len <<< 1) := same_cur.le.trans (Nat.zero_le _)
  obtain ⟨⟨failed, t⟩, run, items, listed', few, within, ends⟩ :=
    tryRanges_ends small in_fuel carries held holds within_max
      (show _ - s.stageCur < fuel by omega)
  have short : items.length ≤ 2 * len + 1 := by
    dsimp only at few within
    omega
  rw [run]
  dsimp only
  cases failed with
  | true =>
      obtain ⟨k, fails⟩ := ends
      obtain ⟨freed, done⟩ :=
        freeAll_ok listed'.linked listed'.distinct (show items.length ≤ fuel by omega)
      simp only [if_true, done]
      exact ⟨_, rfl, .failed rfl fails⟩
  | false =>
      obtain ⟨held', holds', tried⟩ := ends
      have count : acceptedCount items ≤ items.length := List.countP_le_length
      have linked : Linked t.ranges ⟨t.heap, fun _ => none, 0, none, 0⟩ items [] :=
        ⟨listed'.linked, listed'.distinct, rfl, List.nodup_nil, fun _ member => (nomatch member)⟩
      obtain ⟨m, merged, all⟩ := mergeRanges_spec small linked
        (Covered.start held'.painted differs) (show items.length ≤ fuel by omega)
        (by simp only [List.length_nil]; omega) (show acceptedCount items < fuel by omega)
      obtain ⟨items', taints, linked', room, -⟩ := id all
      obtain ⟨freed, done⟩ := freeAll_ok linked'.ranged linked'.distinct room
      rw [if_neg Bool.false_ne_true, walk_eq _ listed'.linked (by omega)]
      simp only [merged, done]
      obtain ⟨c, finish, finished⟩ := finishTaints_spec afl t.buf all
      exact ⟨c, finish, .finished held' holds' tried all finished⟩

/-! ## The contract -/

/-- What the taints that a colorization hands over say about the buffer that it leaves. -/
structure Contract (T : Target) (buf : Buffer) (len : ℕ) (c : Colorized)
    (taints : List (ℕ × Tainted)) : Prop where
  linked : LinkedFrom c.heap (some .null) c.taints taints
  distinct : (addresses taints).Nodup
  differs : ∀ i, c.buf i ≠ buf i ↔ ∃ t ∈ taints, t.2.Covers i
  cksum : T.cksum c.buf = T.cksum buf
  within : ∀ t ∈ taints, 0 < t.2.len ∧ t.2.pos + t.2.len ≤ len
  sorted : taints.Pairwise fun newer older => older.2.pos + older.2.len < newer.2.pos

/-- The taints that are handed over fulfil the contract. -/
theorem MergedAll.contract {T : Target} {fuel : ℕ} {m : Merging} {ranges : Option ℕ}
    {final : Buffer} {c : Colorized}
    (merged : MergedAll len (fun i => final i ≠ buf i) ranges fuel m)
    (finished : Finished final m c) (cksum : T.cksum final = T.cksum buf)
    (handed : c.taints ≠ none) : ∃ taints, Contract T buf len c taints := by
  obtain ⟨items, taints, linked, -, -, covered, all⟩ := merged
  obtain ⟨same_heap, same_taints⟩ := finished.handed handed
  refine ⟨taints, ?_, linked.taint_distinct, fun i => ?_, ?_,
    fun t member => covered.within t.2 (List.mem_map_of_mem member),
    List.pairwise_map.mp covered.sorted⟩
  · rw [same_heap, same_taints]
    exact linked.tainted
  · have chosen := covered.chosen i
    have merged := covered.merged i
    simp only [List.mem_map, exists_exists_and_eq_and] at chosen merged
    rw [finished.buf, ← chosen, merged]
    constructor
    · rintro ⟨item, member, tried, covers⟩
      refine ⟨item, member, ?_, covers⟩
      cases state : item.2.ok with
      | untried => exact absurd state tried
      | accepted => exact absurd state (all item member)
      | merged => rfl
    · rintro ⟨item, member, merged, covers⟩
      exact ⟨item, member, fun untried => (nomatch merged.symm.trans untried), covers⟩
  · rw [finished.buf, cksum]

/-- A round leaves a buffer with the same trace, for an accepted range has it. -/
theorem Round.cksum {T : Target} {execCksum : ℕ} {s t : Colorizing}
    {items items' : List (ℕ × Range)} (round : Round T changed execCksum s t items items')
    (same : T.cksum s.buf = execCksum) : T.cksum t.buf = execCksum := by
  cases round with
  | refuse untried refused restored => rw [restored, same]
  | accept untried agrees replaced =>
      rw [replaced]
      exact not_not.mp fun other => agrees (Or.inl other)

/-- **The contract of a colorization.** For every replacement that differs from the input at
every byte, whichever executions fail, all loops end; and if the function returns 0 and hands
over taints, the buffer differs from the input exactly where they are, the trace is the same,
and the taints are inside the input, apart, not adjacent, sorted by descending position and
linked both ways. -/
theorem colorization_contract (T : Target) (afl : ColorizeStats) (changed buf : Buffer)
    (len fuel : ℕ) (positive : 0 < len) (small : len < 2 ^ 32)
    (differs : ∀ i < len, changed i ≠ buf i) (_fixed : T.fixedSeed = true)
    (enough : 2 * len + 2 ≤ fuel) :
    ∃ c, colorization fuel T afl changed buf len = .ok c ∧
      (c.ret = 0 → c.taints ≠ none → ∃ taints, Contract T buf len c taints) := by
  obtain ⟨c, run, ends⟩ := colorization_ends (P := fun s _ => T.cksum s.buf = T.cksum buf) afl
    positive small differs enough (fun s same _ => congrArg T.cksum same)
    fun s t items items' _ same _ round => round.cksum same
  refine ⟨c, run, fun returned handed => ?_⟩
  cases ends with
  | failed ret _ => exact absurd (ret.symm.trans returned) Nat.one_ne_zero
  | finished _ same _ merged finished => exact merged.contract finished same handed

/-- A target whose trace depends on the byte at position 2. -/
def thirdByteTarget : Target := ⟨fun buf => (buf 2).toNat, fun _ => false, fun _ => true, true⟩

/-- Six bytes are tainted except for the third one. -/
theorem colorization_contract_thirdByte : ∃ c taints,
    colorization 14 thirdByteTarget ⟨0, 0, 0⟩ (fun _ => 1) (fun _ => 0) 6 = .ok c ∧
      Contract thirdByteTarget (fun _ => 0) 6 c taints := by
  obtain ⟨c, done, contract⟩ := colorization_contract thirdByteTarget ⟨0, 0, 0⟩ (fun _ => 1)
    (fun _ => 0) 6 14 (by decide) (by decide) (fun _ _ => by decide) rfl (by decide)
  have handed : (colorization 14 thirdByteTarget ⟨0, 0, 0⟩ (fun _ => 1) (fun _ => 0) 6).toOption.map
      (fun c => (c.ret, c.taints)) = some (0, some 1) := by decide
  rw [done] at handed
  obtain ⟨returned, tainted⟩ := Prod.mk.inj (Option.some.inj handed)
  obtain ⟨taints, promised⟩ := contract returned fun none => nomatch tainted.symm.trans none
  exact ⟨c, taints, done, promised⟩

end GreenFuzz.Redqueen
