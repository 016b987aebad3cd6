import GreenFuzz.Redqueen.Colorization
import Mathlib.Data.List.Perm.Basic

/-!
# The first loop of a colorization

The first loop keeps the ranges apart, and the buffer has the replaced bytes exactly where an
accepted range is (`Painted`). That the ranges are linked in the heap is `Listed`.

A round refuses a range or accepts it (`Round`). What every round carries holds when the loop
ends (`tryRanges_ends`).
-/

set_option autoImplicit false

namespace GreenFuzz.Redqueen

open Library AflFuzz

/-! ## Ranges -/

/-- The range is not empty and ends before a length. -/
structure Range.Inside (len : ℕ) (r : Range) : Prop where
  ordered : r.start ≤ r.stop
  below : r.stop < len

def Range.Covers (r : Range) (i : ℕ) : Prop := r.start ≤ i ∧ i ≤ r.stop

def Range.Apart (a b : Range) : Prop := a.stop < b.start ∨ b.stop < a.start

variable {len : ℕ} {r : Range} {rest : List Range} {backup changed buf : Buffer}

theorem Range.Inside.size (inside : r.Inside len) (small : len < 2 ^ 32) :
    r.size = r.stop + 1 - r.start := by
  have := inside.ordered
  have := inside.below
  rw [Range.size, u32_of_lt (by omega), u32Sub_of_le (by omega) (by omega), Nat.add_comm]

/-- The ranges that take the place of a rejected one, with their addresses. -/
def Range.halves (r : Range) (fresh : ℕ) : List (ℕ × Range) :=
  if 1 < r.size then
    [(fresh + 1, ⟨u32 (r.start + r.size / 2), r.stop, .untried⟩),
      (fresh, ⟨r.start, u32 (u32Pred r.start + r.size / 2), .untried⟩)]
  else []

theorem Range.length_halves (r : Range) (fresh : ℕ) : (r.halves fresh).length ≤ 2 := by
  rw [Range.halves]
  split
  · exact le_rfl
  · exact Nat.zero_le 2

theorem Range.Apart.symm {a b : Range} (apart : a.Apart b) : b.Apart a := Or.symm apart

instance : Std.Symm Range.Apart := ⟨fun _ _ => Range.Apart.symm⟩

theorem copyPart_covered {other : Buffer} {i : ℕ} (inside : r.Inside len) (small : len < 2 ^ 32)
    (covers : r.Covers i) : copyPart buf other r.start r.size i = other i := by
  rw [copyPart, inside.size small, if_pos]
  have := inside.ordered
  obtain ⟨above, below⟩ := covers
  omega

theorem copyPart_outside {other : Buffer} {i : ℕ} (inside : r.Inside len) (small : len < 2 ^ 32)
    (outside : ¬ r.Covers i) : copyPart buf other r.start r.size i = buf i := by
  rw [copyPart, inside.size small, if_neg]
  have := inside.ordered
  rintro ⟨above, below⟩
  exact outside ⟨above, by omega⟩

/-! ## The buffer of the first loop -/

/-- The ranges are apart, and the buffer has the replaced bytes in the accepted ones and the
original bytes elsewhere. -/
structure Painted (backup changed : Buffer) (len : ℕ) (ranges : List Range) (buf : Buffer) :
    Prop where
  inside : ∀ r ∈ ranges, r.Inside len
  apart : ranges.Pairwise Range.Apart
  pending : ∀ r ∈ ranges, r.ok ≠ .merged
  replaced : ∀ r ∈ ranges, r.ok = .accepted → ∀ i, r.Covers i → buf i = changed i
  original : ∀ i, (∀ r ∈ ranges, r.ok = .accepted → ¬ r.Covers i) → buf i = backup i

namespace Painted

theorem perm {ranges others : List Range} (same : ranges.Perm others)
    (painted : Painted backup changed len ranges buf) : Painted backup changed len others buf where
  inside r member := painted.inside r (same.mem_iff.mpr member)
  apart := (same.pairwise_iff Range.Apart.symm).mp painted.apart
  pending r member := painted.pending r (same.mem_iff.mpr member)
  replaced r member := painted.replaced r (same.mem_iff.mpr member)
  original i outside := painted.original i fun r member => outside r (same.mem_iff.mp member)

/-- The whole input is one range. -/
theorem start (positive : 0 < len) :
    Painted buf changed len [⟨0, len - 1, .untried⟩] buf where
  inside := by
    simp only [List.mem_singleton, forall_eq]
    exact ⟨Nat.zero_le _, Nat.sub_lt positive Nat.one_pos⟩
  apart := List.pairwise_singleton _ _
  pending := by simp only [List.mem_singleton, forall_eq, ne_eq, reduceCtorEq, not_false_eq_true]
  replaced := by simp only [List.mem_singleton, forall_eq, reduceCtorEq, false_implies]
  original _ _ := rfl

/-- The bytes of a range that was not accepted are the original ones. -/
theorem untried (painted : Painted backup changed len (r :: rest) buf) (fresh : r.ok = .untried)
    {i : ℕ} (covers : r.Covers i) : buf i = backup i := by
  refine painted.original i fun other member accepted other_covers => ?_
  rcases List.mem_cons.mp member with rfl | later
  · rw [fresh] at accepted
    cases accepted
  · have apart := (List.pairwise_cons.mp painted.apart).1 other later
    obtain ⟨above, below⟩ := covers
    obtain ⟨other_above, other_below⟩ := other_covers
    rcases apart with before | behind
    · omega
    · omega

/-- Putting back the bytes of a range that was not accepted undoes its replacement. -/
theorem putBack (painted : Painted backup changed len (r :: rest) buf) (small : len < 2 ^ 32)
    (fresh : r.ok = .untried) :
    copyPart (copyPart buf changed r.start r.size) backup r.start r.size = buf := by
  have inside := painted.inside r List.mem_cons_self
  funext i
  by_cases covers : r.Covers i
  · rw [copyPart_covered inside small covers, painted.untried fresh covers]
  · rw [copyPart_outside inside small covers, copyPart_outside inside small covers]

/-- A range is replaced and accepted. -/
theorem accept (painted : Painted backup changed len (r :: rest) buf) (small : len < 2 ^ 32)
    (fresh : r.ok = .untried) :
    Painted backup changed len ({ r with ok := .accepted } :: rest)
      (copyPart buf changed r.start r.size) := by
  have inside := painted.inside r List.mem_cons_self
  obtain ⟨first_apart, rest_apart⟩ := List.pairwise_cons.mp painted.apart
  constructor
  · intro other member
    rcases List.mem_cons.mp member with rfl | later
    · exact ⟨inside.ordered, inside.below⟩
    · exact painted.inside other (List.mem_cons_of_mem _ later)
  · exact List.pairwise_cons.mpr ⟨fun other later => first_apart other later, rest_apart⟩
  · intro other member
    rcases List.mem_cons.mp member with rfl | later
    · exact fun merged => nomatch merged
    · exact painted.pending other (List.mem_cons_of_mem _ later)
  · intro other member accepted i covers
    rcases List.mem_cons.mp member with rfl | later
    · exact copyPart_covered inside small covers
    · have outside : ¬ r.Covers i := by
        rintro ⟨above, below⟩
        obtain ⟨other_above, other_below⟩ := covers
        rcases first_apart other later with before | behind
        · omega
        · omega
      rw [copyPart_outside inside small outside]
      exact painted.replaced other (List.mem_cons_of_mem _ later) accepted i covers
  · intro i outside
    have not_covered : ¬ r.Covers i := fun covers => outside _ List.mem_cons_self rfl covers
    rw [copyPart_outside inside small not_covered]
    refine painted.original i fun other member accepted => ?_
    rcases List.mem_cons.mp member with rfl | later
    · exact not_covered
    · exact outside other (List.mem_cons_of_mem _ later) accepted

/-- A range that was not accepted is dropped. -/
theorem drop (painted : Painted backup changed len (r :: rest) buf) (fresh : r.ok = .untried) :
    Painted backup changed len rest buf where
  inside other member := painted.inside other (List.mem_cons_of_mem _ member)
  apart := (List.pairwise_cons.mp painted.apart).2
  pending other member := painted.pending other (List.mem_cons_of_mem _ member)
  replaced other member := painted.replaced other (List.mem_cons_of_mem _ member)
  original i outside := by
    refine painted.original i fun other member accepted => ?_
    rcases List.mem_cons.mp member with rfl | later
    · rw [fresh] at accepted
      cases accepted
    · exact outside other later accepted

/-- A new range that was not tried and is apart from the others. -/
theorem add (painted : Painted backup changed len rest buf) (inside : r.Inside len)
    (apart : ∀ other ∈ rest, r.Apart other) (fresh : r.ok = .untried) :
    Painted backup changed len (r :: rest) buf where
  inside := List.forall_mem_cons.mpr ⟨inside, painted.inside⟩
  apart := List.pairwise_cons.mpr ⟨apart, painted.apart⟩
  pending := List.forall_mem_cons.mpr ⟨fun merged => (nomatch fresh.symm.trans merged),
    painted.pending⟩
  replaced := List.forall_mem_cons.mpr ⟨fun accepted => (nomatch fresh.symm.trans accepted),
    painted.replaced⟩
  original i outside := painted.original i (List.forall_mem_cons.mp outside).2

/-- A range of more than one byte is replaced by its halves. -/
theorem split (painted : Painted backup changed len (r :: rest) buf) (small : len < 2 ^ 32)
    (fresh : r.ok = .untried) (wide : 1 < r.size) :
    Painted backup changed len
      (⟨u32 (r.start + r.size / 2), r.stop, .untried⟩ ::
        ⟨r.start, u32 (u32Pred r.start + r.size / 2), .untried⟩ :: rest) buf := by
  have inside := painted.inside r List.mem_cons_self
  have ordered := inside.ordered
  have below := inside.below
  have size := inside.size small
  have apart := (List.pairwise_cons.mp painted.apart).1
  have high : u32 (r.start + r.size / 2) = r.start + r.size / 2 := u32_of_lt (by omega)
  have low : u32 (u32Pred r.start + r.size / 2) = r.start + r.size / 2 - 1 := by
    unfold u32 u32Pred
    omega
  rw [high, low]
  refine ((painted.drop fresh).add ⟨?_, ?_⟩ ?_ rfl).add ⟨?_, ?_⟩ ?_ rfl
  · show r.start ≤ r.start + r.size / 2 - 1
    omega
  · show r.start + r.size / 2 - 1 < len
    omega
  · intro other member
    rcases apart other member with before | behind
    · exact Or.inl (by show r.start + r.size / 2 - 1 < other.start; omega)
    · exact Or.inr behind
  · show r.start + r.size / 2 ≤ r.stop
    omega
  · exact below
  · intro other member
    rcases List.mem_cons.mp member with rfl | later
    · exact Or.inr (by show r.start + r.size / 2 - 1 < r.start + r.size / 2; omega)
    · rcases apart other later with before | behind
      · exact Or.inl before
      · exact Or.inr (by show other.stop < r.start + r.size / 2; omega)

/-- A rejected range gives way to its halves, if it has any. -/
theorem halve (painted : Painted backup changed len (r :: rest) buf) (small : len < 2 ^ 32)
    (untried : r.ok = .untried) (fresh : ℕ) :
    Painted backup changed len ((r.halves fresh).map Prod.snd ++ rest) buf := by
  rw [Range.halves]
  split
  next wide => exact painted.split small untried wide
  next => exact painted.drop untried

end Painted

/-! ## The list of the first loop -/

/-- The ranges are linked in the heap. -/
structure Listed (s : Colorizing) (items : List (ℕ × Range)) : Prop where
  linked : LinkedFrom s.heap none s.ranges items
  distinct : (addresses items).Nodup
  fresh : ∀ id ∈ addresses items, id < s.fresh

section Listed

variable {s : Colorizing} {items left right : List (ℕ × Range)} {id fuel : ℕ}

theorem Listed.addRange (listed : Listed s items) (start stop : ℕ) :
    Yields (s.addRange start stop) fun t =>
      Listed t ((s.fresh, ⟨start, stop, .untried⟩) :: items) ∧ t.fresh = s.fresh + 1 ∧
        t.buf = s.buf ∧ t.stageCur = s.stageCur := by
  have unused : s.fresh ∉ addresses items := fun member => (listed.fresh _ member).ne rfl
  obtain ⟨heap, pushed, linked⟩ :=
    listed.linked.push listed.distinct unused ⟨start, stop, .untried⟩ .unset
  rw [Colorizing.addRange, pushed]
  refine Yields.pure ⟨⟨linked.forget, ?_, ?_⟩, rfl, rfl, rfl⟩
  · exact List.nodup_cons.mpr ⟨unused, listed.distinct⟩
  · exact List.forall_mem_cons.mpr ⟨Nat.lt_succ_self _,
      fun other member => Nat.lt_succ_of_lt (listed.fresh other member)⟩

theorem Listed.dropRange (listed : Listed s (left ++ (id, r) :: right)) :
    Yields (s.dropRange id) fun t =>
      Listed t (left ++ right) ∧ t.buf = s.buf ∧ t.stageCur = s.stageCur := by
  have middle := listed.distinct
  rw [addresses, List.map_append, List.map_cons, List.nodup_middle, ← List.map_append] at middle
  obtain ⟨dropped, distinct⟩ := List.nodup_cons.mp middle
  have fresh (other : ℕ) (member : other ∈ addresses (left ++ right)) : other < s.fresh := by
    refine listed.fresh other ?_
    rw [addresses, List.map_append, List.map_cons, List.mem_append, List.mem_cons]
    rw [addresses, List.map_append, List.mem_append] at member
    exact member.imp_right Or.inr
  obtain ⟨before, start, here⟩ := listed.linked.later
  obtain ⟨-, node, there, -, -, -⟩ := here
  rw [Colorizing.dropRange, deref_eq there]
  rcases List.eq_nil_or_concat' left with rfl | ⟨others, last, rfl⟩
  · obtain ⟨start_eq, node', there', -, -, rest_linked⟩ := listed.linked
    cases there.symm.trans there'
    simp only [Bind.bind, Except.bind, start_eq, if_true]
    cases behind : node.next with
    | none =>
        rw [behind] at rest_linked
        exact ⟨_, rfl, ⟨(rest_linked.update dropped none).forget, distinct, fresh⟩, rfl, rfl⟩
    | some next =>
        rw [behind] at rest_linked
        obtain ⟨second, second_there, redirected⟩ := rest_linked.redirect distinct .null
        simp only [modify_eq second_there]
        exact ⟨_, rfl, ⟨(redirected.update dropped none).forget, distinct, fresh⟩, rfl, rfl⟩
  · have not_first : s.ranges ≠ some id := by
      intro first
      have head := listed.linked.start_eq
      rw [first, addresses, List.map_append, List.head?_append_of_ne_nil _ (by simp)] at head
      refine dropped ?_
      rw [List.map_append]
      exact List.mem_append_left _ (List.mem_of_head? head.symm)
    simp only [Bind.bind, Except.bind, if_neg not_first]
    rw [List.append_assoc, List.singleton_append] at listed dropped
    obtain ⟨changed, unlinked, linked⟩ := listed.linked.unlink listed.distinct
    rw [unlinked]
    refine ⟨_, rfl, ⟨?_, distinct, fresh⟩, rfl, rfl⟩
    rw [List.append_assoc, List.singleton_append]
    exact linked.update dropped none

theorem Listed.acceptRange (listed : Listed s (left ++ (id, r) :: right)) :
    Yields (s.acceptRange id) fun t =>
      Listed t (left ++ (id, { r with ok := .accepted }) :: right) ∧ t.buf = s.buf ∧
        t.stageCur = s.stageCur := by
  obtain ⟨heap, changed, linked⟩ :=
    listed.linked.setItem listed.distinct fun r => { r with ok := .accepted }
  rw [Colorizing.acceptRange, changed]
  refine Yields.pure ⟨⟨linked, ?_, ?_⟩, rfl, rfl⟩
  · simpa only [addresses, List.map_append, List.map_cons] using listed.distinct
  · simpa only [addresses, List.map_append, List.map_cons] using listed.fresh

/-- The variables of the search for the biggest range, after it has seen some ranges. -/
structure PoppedFrom (seen : List (ℕ × Range)) (rmax : Option ℕ × ℕ) : Prop where
  found : ∀ id, rmax.1 = some id → ∃ r, (id, r) ∈ seen ∧ r.ok = .untried
  tried : rmax.1 = none → rmax.2 = 0 ∧ ∀ item ∈ seen, item.2.ok ≠ .untried

theorem PoppedFrom.start : PoppedFrom [] (none, 0) :=
  ⟨fun _ found => (nomatch found), fun _ => ⟨rfl, fun _ member => nomatch member⟩⟩

theorem PoppedFrom.bigger {seen : List (ℕ × Range)} {rmax : Option ℕ × ℕ}
    (popped : PoppedFrom seen rmax) (id : ℕ) (r : Range) :
    PoppedFrom (seen ++ [(id, r)])
      (if r.ok = .untried ∧ rmax.2 ≤ r.size then (some id, r.size) else rmax) := by
  split
  next bigger =>
      refine ⟨fun other found => ?_, fun none => nomatch none⟩
      cases found
      exact ⟨r, List.mem_append_right _ (List.mem_singleton_self _), bigger.1⟩
  next passed =>
      refine ⟨fun other found => ?_, fun none => ?_⟩
      · obtain ⟨r, member, untried⟩ := popped.found other found
        exact ⟨r, List.mem_append_left _ member, untried⟩
      · obtain ⟨zero, tried⟩ := popped.tried none
        refine ⟨zero, List.forall_mem_append.mpr ⟨tried, List.forall_mem_singleton.mpr ?_⟩⟩
        exact fun untried => passed ⟨untried, zero ▸ Nat.zero_le _⟩

/-- The range that is tried next was not tried before. There is none if all were tried. -/
theorem popBiggestRange_spec (listed : Listed s items) (enough : items.length ≤ fuel) :
    Yields (popBiggestRange fuel s) fun found =>
      (∀ id, found = some id → ∃ r, (id, r) ∈ items ∧ r.ok = .untried) ∧
        (found = none → ∀ item ∈ items, item.2.ok ≠ .untried) := by
  rw [popBiggestRange, walk_eq biggerRange listed.linked enough]
  refine Yields.pure ?_
  have visited := visitAll_cases biggerRange items (none, 0) (P := PoppedFrom)
    (Q := fun _ => False) PoppedFrom.start (fun seen id r rmax rmax' popped visit => ?_) ?_
  · have popped := visited.resolve_right not_false
    exact ⟨popped.found, fun none => (popped.tried none).2⟩
  · cases visit
    exact popped.bigger id r
  · intro seen id r rmax rmax' _ _ visit
    cases visit

end Listed
/-! ## A round of the first loop -/

/-- The replacement in a buffer is refused after an execution. -/
def Target.Refuses (T : Target) (execCksum : ℕ) (buf : Buffer) (stageCur : ℕ) : Prop :=
  T.cksum buf ≠ execCksum ∨ (T.slow (stageCur + 1) ∧ T.fixedSeed = false)

/-- A round of the first loop: a range that was not tried is refused and gives way to its halves,
or it is accepted and stays replaced. -/
inductive Round (T : Target) (changed : Buffer) (execCksum : ℕ) (s t : Colorizing) :
    List (ℕ × Range) → List (ℕ × Range) → Prop where
  | refuse {left right : List (ℕ × Range)} {id : ℕ} {r : Range} (untried : r.ok = .untried)
      (refused : T.Refuses execCksum (copyPart s.buf changed r.start r.size) s.stageCur)
      (restored : t.buf = s.buf) :
      Round T changed execCksum s t (left ++ (id, r) :: right)
        (r.halves s.fresh ++ (left ++ right))
  | accept {left right : List (ℕ × Range)} {id : ℕ} {r : Range} (untried : r.ok = .untried)
      (agrees : ¬ T.Refuses execCksum (copyPart s.buf changed r.start r.size) s.stageCur)
      (replaced : t.buf = copyPart s.buf changed r.start r.size) :
      Round T changed execCksum s t (left ++ (id, r) :: right)
        (left ++ (id, { r with ok := .accepted }) :: right)

theorem Round.congr {T : Target} {execCksum : ℕ} {s t u : Colorizing}
    {items items' : List (ℕ × Range)} (round : Round T changed execCksum s t items items')
    (same : u.buf = t.buf) : Round T changed execCksum s u items items' := by
  cases round with
  | refuse untried refused restored => exact .refuse untried refused (same.trans restored)
  | accept untried agrees replaced => exact .accept untried agrees (same.trans replaced)

/-- The ranges are linked and painted, and there are no more of them than executions. -/
structure Held (backup changed : Buffer) (len : ℕ) (s : Colorizing) (items : List (ℕ × Range)) :
    Prop where
  listed : Listed s items
  painted : Painted backup changed len (items.map Prod.snd) s.buf
  few : items.length ≤ s.stageCur + 1

section Held

variable {T : Target} {execCksum stageMax fuel : ℕ} {s : Colorizing}
  {items left right : List (ℕ × Range)} {id : ℕ}

/-- The list with a range in front of the others. -/
theorem map_perm_front (left right : List (ℕ × Range)) (id : ℕ) (r : Range) :
    ((left ++ (id, r) :: right).map Prod.snd).Perm (r :: (left ++ right).map Prod.snd) := by
  rw [List.map_append, List.map_cons, List.map_append]
  exact List.perm_middle

/-- The halves of a range take its place. -/
theorem Listed.replaceByHalves (listed : Listed s (left ++ (id, r) :: right)) :
    Yields (s.splitRange r >>= fun s => s.dropRange id) fun t =>
      Listed t (r.halves s.fresh ++ (left ++ right)) ∧ t.buf = s.buf ∧ t.stageCur = s.stageCur := by
  rw [Colorizing.splitRange, Range.halves]
  by_cases wide : 1 < r.size
  · simp only [if_pos wide]
    refine Yields.bind (P := fun t => Listed t
        ((s.fresh + 1, ⟨u32 (r.start + r.size / 2), r.stop, .untried⟩) ::
          (s.fresh, ⟨r.start, u32 (u32Pred r.start + r.size / 2), .untried⟩) :: left ++
            (id, r) :: right) ∧ t.buf = s.buf ∧ t.stageCur = s.stageCur) ?_ fun t added => ?_
    · refine (listed.addRange _ _).bind fun t added => ?_
      obtain ⟨listed, next, same_buf, same_cur⟩ := added
      refine (listed.addRange _ _).mono fun u added => ?_
      obtain ⟨listed, -, same_buf', same_cur'⟩ := added
      rw [next] at listed
      exact ⟨listed, same_buf'.trans same_buf, same_cur'.trans same_cur⟩
    · obtain ⟨listed, same_buf, same_cur⟩ := added
      refine listed.dropRange.mono fun u dropped => ?_
      obtain ⟨listed, same_buf', same_cur'⟩ := dropped
      exact ⟨listed, same_buf'.trans same_buf, same_cur'.trans same_cur⟩
  · simp only [if_neg wide]
    exact listed.dropRange

/-- A replacement is discarded or accepted. -/
theorem Held.judgeRange (held : Held backup changed len s (left ++ (id, r) :: right))
    (small : len < 2 ^ 32) (untried : r.ok = .untried) (T : Target) (execCksum : ℕ) :
    Yields (judgeRange T backup execCksum id r
        { s with buf := copyPart s.buf changed r.start r.size }) fun t =>
      t.stageCur = s.stageCur ∧ ∃ items', Listed t items' ∧
        Painted backup changed len (items'.map Prod.snd) t.buf ∧
        items'.length ≤ s.stageCur + 2 ∧
        Round T changed execCksum s t (left ++ (id, r) :: right) items' := by
  have painted := held.painted.perm (map_perm_front left right id r)
  have few := held.few
  rw [List.length_append, List.length_cons] at few
  rw [Redqueen.judgeRange]
  split
  next refused =>
    rw [painted.putBack small untried]
    refine held.listed.replaceByHalves.mono fun t replaced => ?_
    obtain ⟨listed, same_buf, same_cur⟩ := replaced
    refine ⟨same_cur, _, listed, ?_, ?_, .refuse untried refused same_buf⟩
    · rw [List.map_append, same_buf]
      exact painted.halve small untried s.fresh
    · have two := r.length_halves s.fresh
      simp only [List.length_append]
      omega
  next agrees =>
    have replaced : Listed { s with buf := copyPart s.buf changed r.start r.size }
        (left ++ (id, r) :: right) :=
      ⟨held.listed.linked, held.listed.distinct, held.listed.fresh⟩
    refine replaced.acceptRange.mono fun t accepted => ?_
    obtain ⟨listed, same_buf, same_cur⟩ := accepted
    refine ⟨same_cur, _, listed, ?_, ?_, .accept untried agrees same_buf⟩
    · rw [same_buf]
      exact (painted.accept small untried).perm (map_perm_front left right id _).symm
    · rw [List.length_append, List.length_cons]
      omega

/-- One round of the first loop, unless the execution fails. -/
theorem Held.tryRange (held : Held backup changed len s items) (small : len < 2 ^ 32)
    (member : (id, r) ∈ items) (untried : r.ok = .untried) :
    Yields (tryRange T backup changed execCksum id s) fun result =>
      if result.1 then
        T.fails (s.stageCur + 1) ∧ Listed result.2 items ∧ result.2.stageCur = s.stageCur
      else result.2.stageCur = s.stageCur + 1 ∧ ∃ items', Held backup changed len result.2 items' ∧
        Round T changed execCksum s result.2 items items' := by
  obtain ⟨left, right, rfl⟩ := List.append_of_mem member
  obtain ⟨before, start, here⟩ := held.listed.linked.later
  obtain ⟨-, node, there, rfl, -, -⟩ := here
  rw [Redqueen.tryRange, deref_eq there]
  by_cases fails : T.fails (s.stageCur + 1)
  · simp only [Bind.bind, Except.bind, if_pos fails]
    refine Yields.pure ?_
    rw [if_pos rfl]
    exact ⟨fails, ⟨held.listed.linked, held.listed.distinct, held.listed.fresh⟩, rfl⟩
  · obtain ⟨t, judged, same_cur, items', listed, painted, few, round⟩ :=
      held.judgeRange small untried T execCksum
    simp only [Bind.bind, Except.bind, if_neg fails, judged]
    refine Yields.pure ?_
    rw [if_neg Bool.false_ne_true]
    refine ⟨congrArg (· + 1) same_cur, items', ⟨⟨listed.linked, listed.distinct, listed.fresh⟩,
      painted, ?_⟩, ?_⟩
    · show items'.length ≤ t.stageCur + 1 + 1
      rw [same_cur]
      exact few
    · exact round.congr rfl

/-- What the first loop leaves behind. If no execution failed, what the rounds carry holds, and
no range is left untried unless there were as many executions as there may be. -/
def LoopEnds (T : Target) (backup changed : Buffer) (len stageMax : ℕ)
    (P : Colorizing → List (ℕ × Range) → Prop) (result : Bool × Colorizing) : Prop :=
  ∃ items, Listed result.2 items ∧ items.length ≤ result.2.stageCur + 1 ∧
    result.2.stageCur ≤ stageMax ∧
    if result.1 then ∃ k, T.fails k = true
    else Held backup changed len result.2 items ∧ P result.2 items ∧
      (result.2.stageCur < stageMax → ∀ item ∈ items, item.2.ok ≠ .untried)

/-- **The first loop ends**, after as many executions as it may do, and what every round carries
holds at its end. -/
theorem tryRanges_ends {P : Colorizing → List (ℕ × Range) → Prop} (small : len < 2 ^ 32)
    (enough : stageMax < fuel)
    (carries : ∀ s t items items', Held backup changed len s items → P s items →
      t.stageCur = s.stageCur + 1 → Round T changed execCksum s t items items' → P t items')
    {rounds : ℕ} (held : Held backup changed len s items) (holds : P s items)
    (within : s.stageCur ≤ stageMax) (left : stageMax - s.stageCur < rounds) :
    Yields (tryRanges fuel T backup changed execCksum stageMax rounds s)
      (LoopEnds T backup changed len stageMax P) := by
  induction rounds generalizing s items with
  | zero => exact absurd left (Nat.not_lt_zero _)
  | succ rounds ih =>
      have few := held.few
      rw [tryRanges]
      refine (popBiggestRange_spec held.listed (by omega)).bind fun found popped => ?_
      cases found with
      | none =>
          exact Yields.pure ⟨items, held.listed, few, within, held, holds, fun _ => popped.2 rfl⟩
      | some id =>
          obtain ⟨r, member, untried⟩ := popped.1 id rfl
          by_cases more : s.stageCur < stageMax
          · simp only [if_pos more]
            refine (held.tryRange small member untried).bind fun result round => ?_
            obtain ⟨failed, t⟩ := result
            cases failed with
            | true =>
                obtain ⟨fails, listed, same_cur⟩ := round
                have few' : items.length ≤ t.stageCur + 1 := same_cur ▸ few
                exact Yields.pure ⟨items, listed, few', same_cur ▸ within, _, fails⟩
            | false =>
                obtain ⟨one_more, items', held', round⟩ := round
                have one_more : t.stageCur = s.stageCur + 1 := one_more
                have within' : t.stageCur ≤ stageMax := by omega
                have fewer : stageMax - t.stageCur < rounds := by omega
                exact ih held' (carries s t items items' held holds one_more round) within' fewer
          · simp only [if_neg more]
            exact Yields.pure ⟨items, held.listed, few, within, held, holds,
              fun fewer => absurd fewer more⟩

end Held

end GreenFuzz.Redqueen
