import GreenFuzz.Library.Halving
import GreenFuzz.Redqueen.ColorizationContract

/-!
# Which parts of an input a colorization tries

The first loop of `colorization` halves the ranges that it refuses. As long as nothing is accepted
it searches through the parts of the whole input, and its bound on the number of executions is
just enough to try all of them (`Sifted`).

So a colorization that leaves the input as it was has refused every part, and if every part
changes the trace, the input is left as it was and no taints are handed over (`colorization_parts`).
-/

set_option autoImplicit false

namespace GreenFuzz.Redqueen

open Library AflFuzz

variable {len : ℕ} {r : Range} {changed buf : Buffer} {T : Target}

def Range.interval (r : Range) : ℕ × ℕ := (r.start, r.size)

def intervals (items : List (ℕ × Range)) : List (ℕ × ℕ) := items.map fun item => item.2.interval

/-- No range was accepted. -/
def Untouched (items : List (ℕ × Range)) : Prop := ∀ item ∈ items, item.2.ok = .untried

/-- The replacement of a part changes the trace. -/
def Target.Tells (T : Target) (changed buf : Buffer) (start size : ℕ) : Prop :=
  T.cksum (copyPart buf changed start size) ≠ T.cksum buf

/-- The replacement of a part was refused in some round. -/
def Target.RefusesPart (T : Target) (changed buf : Buffer) (start size : ℕ) : Prop :=
  ∃ round, T.Refuses (T.cksum buf) (copyPart buf changed start size) round

/-- The halves of a range are those of its interval. -/
theorem intervals_halves (inside : r.Inside len) (small : len < 2 ^ 32) (fresh : ℕ) :
    intervals (r.halves fresh) = halves r.interval := by
  have ordered := inside.ordered
  have below := inside.below
  have size := inside.size small
  rw [Range.halves, halves, Range.interval]
  dsimp only
  split
  · have start_high : u32 (r.start + r.size / 2) = r.start + r.size / 2 := u32_of_lt (by omega)
    have stop_low : u32 (u32Pred r.start + r.size / 2) = r.start + r.size / 2 - 1 := by
      unfold u32 u32Pred
      omega
    have high : Range.Inside len ⟨r.start + r.size / 2, r.stop, .untried⟩ :=
      ⟨show r.start + r.size / 2 ≤ r.stop by omega, below⟩
    have low : Range.Inside len ⟨r.start, r.start + r.size / 2 - 1, .untried⟩ :=
      ⟨show r.start ≤ r.start + r.size / 2 - 1 by omega,
        show r.start + r.size / 2 - 1 < len by omega⟩
    rw [start_high, stop_low]
    simp only [intervals, List.map_cons, List.map_nil, Range.interval, high.size small,
      low.size small]
    congr 2
    · omega
    · congr 2
      omega
  · rfl

/-! ## The first loop as a search -/

/-- As long as nothing was accepted, the first loop has searched through the parts of the input. -/
def Sifted (T : Target) (changed buf : Buffer) (len : ℕ) (s : Colorizing)
    (items : List (ℕ × Range)) : Prop :=
  Untouched items → Searched 0 len (T.RefusesPart changed buf) (intervals items) ∧
    s.stageCur + looksLeft (intervals items) ≤ 2 * len - 1

section Sifted

variable {s t : Colorizing} {items items' : List (ℕ × Range)}

/-- Without an accepted range the buffer is the original one. -/
theorem Held.buf_of_untouched (held : Held buf changed len s items) (untouched : Untouched items) :
    s.buf = buf := by
  funext i
  refine held.painted.original i fun r member accepted => ?_
  obtain ⟨item, listed, rfl⟩ := List.mem_map.mp member
  exact absurd ((untouched item listed).symm.trans accepted) (by decide)

theorem Sifted.start (positive : 0 < len) (small : len < 2 ^ 32) (begun : s.stageCur = 0) :
    Sifted T changed buf len s [(0, ⟨0, len - 1, .untried⟩)] := by
  intro _
  have inside : Range.Inside len ⟨0, len - 1, .untried⟩ :=
    ⟨Nat.zero_le _, show len - 1 < len by omega⟩
  have size : Range.size ⟨0, len - 1, .untried⟩ = len := by
    rw [inside.size small]
    show len - 1 + 1 - 0 = len
    omega
  rw [intervals, List.map_singleton, Range.interval, size, begun]
  exact ⟨Searched.start, by simp [looksLeft]⟩

/-- A round goes on with the search, or accepts something. -/
theorem Sifted.round (sifted : Sifted T changed buf len s items)
    (held : Held buf changed len s items) (small : len < 2 ^ 32)
    (one_more : t.stageCur = s.stageCur + 1)
    (round : Round T changed (T.cksum buf) s t items items') :
    Sifted T changed buf len t items' := by
  intro untouched'
  cases round with
  | @refuse left right id r untried refused restored =>
      obtain ⟨halves_untried, rest⟩ := List.forall_mem_append.mp untouched'
      obtain ⟨left_untried, right_untried⟩ := List.forall_mem_append.mp rest
      have untouched : Untouched (left ++ (id, r) :: right) :=
        List.forall_mem_append.mpr ⟨left_untried, List.forall_mem_cons.mpr ⟨untried, right_untried⟩⟩
      obtain ⟨searched, budget⟩ := sifted untouched
      rw [held.buf_of_untouched untouched] at refused
      have inside : r.Inside len :=
        held.painted.inside r (List.mem_map_of_mem (List.mem_append_right _ List.mem_cons_self))
      have positive : 0 < r.interval.2 := by
        have := inside.ordered
        show 0 < r.size
        rw [inside.size small]
        omega
      rw [intervals, List.map_append, List.map_cons] at searched budget
      have parts : intervals (r.halves s.fresh ++ (left ++ right)) =
          halves r.interval ++ (intervals left ++ intervals right) := by
        rw [intervals, List.map_append, List.map_append, ← intervals_halves inside small s.fresh]
        rfl
      rw [parts]
      refine ⟨(searched.perm List.perm_middle).refuse ⟨s.stageCur, refused⟩, ?_⟩
      have paid := looksLeft_halves r.interval positive
      rw [looksLeft_middle, looksLeft] at budget
      rw [looksLeft_append, one_more]
      simp only [intervals] at budget ⊢
      omega
  | accept untried agrees replaced =>
      have accepted : RangeOk.accepted = .untried :=
        untouched' _ (List.mem_append_right _ List.mem_cons_self)
      cases accepted

/-- If every part changes the trace, nothing is accepted. -/
theorem Sifted.untouched (sifted : Sifted T changed buf len s items)
    (held : Held buf changed len s items)
    (tells : ∀ b m, PartOf 0 len b m → T.Tells changed buf b m)
    (round : Round T changed (T.cksum buf) s t items items') (untouched : Untouched items) :
    Untouched items' := by
  cases round with
  | @refuse left right id r untried refused restored =>
      obtain ⟨left_untried, later⟩ := List.forall_mem_append.mp untouched
      refine List.forall_mem_append.mpr ⟨?_, List.forall_mem_append.mpr
        ⟨left_untried, (List.forall_mem_cons.mp later).2⟩⟩
      rw [Range.halves]
      split
      · exact List.forall_mem_cons.mpr ⟨rfl, List.forall_mem_singleton.mpr rfl⟩
      · exact List.forall_mem_nil _
  | @accept left right id r untried agrees replaced =>
      obtain ⟨searched, -⟩ := sifted untouched
      have part : PartOf 0 len r.start r.size :=
        searched.parts _ (List.mem_map_of_mem (List.mem_append_right _ List.mem_cons_self))
      rw [held.buf_of_untouched untouched] at agrees
      exact absurd (Or.inl (tells _ _ part)) agrees

end Sifted

/-! ## What is left of the input -/

/-- The bytes of an accepted range are replaced. -/
theorem Held.untouched_of_clean {s : Colorizing} {items : List (ℕ × Range)}
    (held : Held buf changed len s items) (differs : ∀ i < len, changed i ≠ buf i)
    (clean : ∀ i < len, s.buf i = buf i) : Untouched items := by
  intro item member
  have listed := List.mem_map_of_mem (f := Prod.snd) member
  have inside := held.painted.inside item.2 listed
  cases state : item.2.ok with
  | untried => rfl
  | merged => exact absurd state (held.painted.pending item.2 listed)
  | accepted =>
      have first : item.2.start < len := inside.ordered.trans_lt inside.below
      refine absurd ?_ (differs _ first)
      rw [← clean _ first]
      exact (held.painted.replaced item.2 listed state _ ⟨le_rfl, inside.ordered⟩).symm

/-- There are enough executions for all parts. -/
theorem all_tried {s : Colorizing} {items : List (ℕ × Range)} (positive : 0 < len)
    (small : 2 * len < 2 ^ 32) (untouched : Untouched items)
    (tried : s.stageCur < u32 (len <<< 1) → ∀ item ∈ items, item.2.ok ≠ .untried)
    (budget : s.stageCur + looksLeft (intervals items) ≤ 2 * len - 1) : items = [] := by
  have more : s.stageCur < u32 (len <<< 1) := by
    rw [Nat.shiftLeft_eq, pow_one, u32_of_lt (by omega)]
    omega
  cases items with
  | nil => rfl
  | cons first rest =>
      exact absurd (untouched first List.mem_cons_self) (tried more first List.mem_cons_self)

/-- Where nothing was replaced there are no taints. -/
theorem MergedAll.no_taint {ranges : Option ℕ} {fuel : ℕ} {m : Merging} {final : Buffer}
    {c : Colorized} (merged : MergedAll len (fun i => final i ≠ buf i) ranges fuel m)
    (finished : Finished final m c) (same : final = buf) : c.taints = none := by
  obtain ⟨items, taints, linked, -, -, covered, -⟩ := merged
  by_contra handed
  refine handed ((finished.handed handed).2.trans ?_)
  cases taints with
  | nil => exact linked.tainted
  | cons first rest =>
      have nonempty := (covered.within first.2 List.mem_cons_self).1
      have covers : first.2.Covers first.2.pos := ⟨le_rfl, Nat.lt_add_of_pos_right nonempty⟩
      obtain ⟨r, member, merged, covers⟩ :=
        (covered.merged _).mp ⟨first.2, List.mem_cons_self, covers⟩
      have tried : r.ok ≠ .untried := fun untried => nomatch merged.symm.trans untried
      exact absurd (congrFun same _) ((covered.chosen _).mp ⟨r, member, tried, covers⟩)

/-- What a colorization that returns 0 says about the parts of the input. -/
structure Partwise (T : Target) (changed buf : Buffer) (len fuel : ℕ) (c : Colorized) : Prop where
  refused : (∀ i < len, c.buf i = buf i) →
    ∀ start size, PartOf 0 len start size → T.RefusesPart changed buf start size
  clean : (∀ start size, PartOf 0 len start size → T.Tells changed buf start size) →
    c.buf = buf ∧ c.taints = none
  linked : c.taints ≠ none → ∃ taints, LinkedFrom c.heap (some .null) c.taints taints ∧
    (addresses taints).Nodup ∧ taints.length ≤ fuel

/-- **A colorization that leaves the input as it was has refused every part of it, and it leaves
the input as it was if every part changes the trace.** -/
theorem colorization_parts {fuel : ℕ} (afl : ColorizeStats) (positive : 0 < len)
    (small : 2 * len < 2 ^ 32) (differs : ∀ i < len, changed i ≠ buf i)
    (enough : 2 * len + 2 ≤ fuel) :
    Yields (colorization fuel T afl changed buf len) fun c =>
      (c.ret = 1 ∧ ∃ k, T.fails k = true) ∨ (c.ret = 0 ∧ Partwise T changed buf len fuel c) := by
  have below : len < 2 ^ 32 := by omega
  refine (colorization_ends (P := fun s items => Sifted T changed buf len s items ∧
    ((∀ b m, PartOf 0 len b m → T.Tells changed buf b m) → Untouched items)) afl positive below
    differs enough ?_ ?_).mono fun c ends => ?_
  · exact fun s _ begun => ⟨Sifted.start positive below begun,
      fun _ => List.forall_mem_singleton.mpr rfl⟩
  · intro s t items items' held carried one_more round
    exact ⟨carried.1.round held below one_more round,
      fun tells => carried.1.untouched held tells round (carried.2 tells)⟩
  cases ends with
  | failed ret fails => exact Or.inl ⟨ret, _, fails⟩
  | finished held carried tried merged finished =>
      refine Or.inr ⟨finished.ret, fun clean b m part => ?_, fun tells => ?_, fun handed => ?_⟩
      · rw [finished.buf] at clean
        have untouched := held.untouched_of_clean differs clean
        obtain ⟨searched, budget⟩ := carried.1 untouched
        have empty := all_tried positive small untouched tried budget
        rw [empty] at searched
        exact searched.done part
      · have same := held.buf_of_untouched (carried.2 tells)
        exact ⟨finished.buf.trans same, merged.no_taint finished same⟩
      · obtain ⟨items, taints, linked, -, room, -, -⟩ := merged
        obtain ⟨same_heap, same_taints⟩ := finished.handed handed
        rw [same_heap, same_taints]
        exact ⟨taints, linked.tainted, linked.taint_distinct, room⟩

end GreenFuzz.Redqueen
