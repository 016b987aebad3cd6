import GreenFuzz.AflFuzz.FavoredCounters
import GreenFuzz.Library.GreedyCover

/-!
# What the cull picks

The main loop of `cull_queue` is a greedy cover. It takes the bits of an owner out of the map
whether or not the owner can be marked: a disabled owner is picked like any other, and is not
favored. So the favored entries after a cull are the enabled picks
(`favored_cullQueue_iff`), and what only a disabled pick hits is lost.
-/

set_option autoImplicit false

namespace GreenFuzz.AflFuzz

open Library

variable {own : ℕ → Buffer} {afl : AflState} {count q : ℕ}

/-- The owners that the loop picks at the first indices. -/
def cullPicksBelow (own : ℕ → Buffer) (afl : AflState) (count : ℕ) : List ℕ :=
  greedyPicks afl.topRated (fun q i => own q i ≠ 0) count

/-- The owners that `cull_queue` picks. -/
def cullPicks (own : ℕ → Buffer) (afl : AflState) : List ℕ := cullPicksBelow own afl afl.mapSize

/-- What the loop has done before index `count`: the bits that are left are those that no pick
hits, and the enabled picks are favored. -/
structure CullTracks (own : ℕ → Buffer) (start : AflState) (count : ℕ) (afl : AflState) :
    Prop where
  mapSize : afl.mapSize = start.mapSize
  topRated : afl.topRated = start.topRated
  entries : ∀ p, ∃ mark, afl.queueBuf p = { start.queueBuf p with favored := mark }
  bits : ∀ j < start.mapSize,
    bitSet afl.mapTmpBuf j = true ↔ ∀ p ∈ cullPicksBelow own start count, own p j = 0
  favored : ∀ p, (afl.queueBuf p).favored = true ↔ (start.queueBuf p).favored = true ∨
    p ∈ cullPicksBelow own start count ∧ (start.queueBuf p).disabled = false

theorem CullTracks.start (own : ℕ → Buffer) (aligned : 8 ∣ afl.mapSize) :
    CullTracks own (cullReset afl) 0 (cullReset afl) where
  mapSize := rfl
  topRated := rfl
  entries p := ⟨((cullReset afl).queueBuf p).favored, rfl⟩
  bits j inside := by
    have below : j < afl.mapSize := inside
    have byte : j / 8 < afl.mapSize / 8 := by omega
    rw [bitSet_ones (if_pos byte)]
    exact iff_of_true rfl fun p picked => by cases picked
  favored p := by
    refine ⟨Or.inl, ?_⟩
    rintro (favored | ⟨picked, -⟩)
    · exact favored
    · cases picked

/-- An index without an owner, or that a pick hits, changes nothing. -/
theorem CullTracks.idle {start : AflState} (tracks : CullTracks own start count afl)
    (covered : start.topRated count ≠ none →
      ∃ p ∈ cullPicksBelow own start count, own p count ≠ 0) :
    CullTracks own start (count + 1) afl := by
  have same : cullPicksBelow own start (count + 1) = cullPicksBelow own start count :=
    greedyPicks_covered covered
  refine { tracks with bits := ?_, favored := ?_ }
  · rw [same]
    exact tracks.bits
  · rw [same]
    exact tracks.favored

theorem markFavored_frame (afl : AflState) (top : ℕ) :
    (markFavored afl top).mapSize = afl.mapSize ∧ (markFavored afl top).topRated = afl.topRated ∧
      (∀ p, ∃ mark, (markFavored afl top).queueBuf p = { afl.queueBuf p with favored := mark }) ∧
      ∀ p, ((markFavored afl top).queueBuf p).favored = true ↔
        (afl.queueBuf p).favored = true ∨ p = top ∧ (afl.queueBuf top).disabled = false := by
  by_cases free : (afl.queueBuf top).favored = false ∧ (afl.queueBuf top).disabled = false
  · rw [markFavored_eq free.1 free.2]
    refine ⟨rfl, rfl, fun p => ?_, fun p => ?_⟩
    · by_cases same : p = top
      · subst same
        exact ⟨true, by simp⟩
      · exact ⟨(afl.queueBuf p).favored, by simp [same]⟩
    · by_cases same : p = top
      · subst same
        simp [free.2]
      · simp [same]
  · rw [markFavored_of_not free]
    refine ⟨rfl, rfl, fun p => ⟨(afl.queueBuf p).favored, rfl⟩, fun p => ⟨Or.inl, ?_⟩⟩
    rintro (favored | ⟨rfl, enabled⟩)
    · exact favored
    · by_contra plain
      exact free ⟨by simpa using plain, enabled⟩

/-- One round of the main loop. -/
theorem CullTracks.step {start : AflState} (rated : Rated own start) (aligned : 8 ∣ start.mapSize)
    (minis : OwnersKeepMini start) (below : count < start.mapSize)
    (tracks : CullTracks own start count afl) :
    CullTracks own start (count + 1) (cullIndex afl count) := by
  cases bit : bitSet afl.mapTmpBuf count with
  | false =>
      rw [cullIndex_seen bit]
      refine tracks.idle fun _ => ?_
      by_contra missed
      have set := (tracks.bits count below).mpr fun p picked => by
        by_contra hit
        exact missed ⟨p, picked, hit⟩
      rw [bit] at set
      cases set
  | true =>
      cases owner : start.topRated count with
      | none =>
          have same : cullIndex afl count = afl := by
            rw [cullIndex, tracks.topRated, owner]
          rw [same]
          exact tracks.idle fun owned => absurd owner owned
      | some top =>
          obtain ⟨mini, present⟩ := Option.isSome_iff_exists.mp (minis count below top owner)
          obtain ⟨mark, entry⟩ := tracks.entries top
          have mini_eq : (afl.queueBuf top).traceMini = some mini := by
            rw [entry]
            exact present
          have unhit := (tracks.bits count below).mp bit
          have picks : cullPicksBelow own start (count + 1) =
              cullPicksBelow own start count ++ [top] :=
            greedyPicks_uncovered owner fun p picked hit => hit (unhit p picked)
          rw [cullIndex_unseen (tracks.topRated ▸ owner) bit mini_eq]
          obtain ⟨size, owners, entries, favored⟩ := markFavored_frame { afl with
            mapTmpBuf := removeBits (afl.mapSize / 8) afl.mapTmpBuf mini.bytes } top
          refine ⟨size.trans tracks.mapSize, owners.trans tracks.topRated, fun p => ?_,
            fun j inside => ?_, fun p => ?_⟩
          · obtain ⟨now, changed⟩ := entries p
            obtain ⟨old, earlier⟩ := tracks.entries p
            exact ⟨now, by rw [changed]; simp only [earlier]⟩
          · rw [markFavored_mapTmpBuf]
            show bitSet (removeBits (afl.mapSize / 8) afl.mapTmpBuf mini.bytes) j = true ↔ _
            rw [tracks.mapSize, bitSet_removeBits _ _ (by omega),
              rated.miniOwned top mini present j inside, picks]
            simp only [Bool.and_eq_true, tracks.bits j inside, List.mem_append,
              List.mem_singleton, Bool.not_eq_true', decide_eq_false_iff_not, not_not]
            constructor
            · rintro ⟨earlier, now⟩ p (picked | rfl)
              · exact earlier p picked
              · exact now
            · exact fun all => ⟨fun p picked => all p (Or.inl picked), all top (Or.inr rfl)⟩
          · rw [favored p, picks, List.mem_append, List.mem_singleton]
            have flag : (afl.queueBuf top).disabled = (start.queueBuf top).disabled := by
              rw [entry]
            show (afl.queueBuf p).favored = true ∨ p = top ∧ (afl.queueBuf top).disabled = false ↔ _
            rw [tracks.favored p, flag]
            constructor
            · rintro ((old | ⟨picked, enabled⟩) | ⟨rfl, enabled⟩)
              · exact Or.inl old
              · exact Or.inr ⟨Or.inl picked, enabled⟩
              · exact Or.inr ⟨Or.inr rfl, enabled⟩
            · rintro (old | ⟨picked | rfl, enabled⟩)
              · exact Or.inl (Or.inl old)
              · exact Or.inl (Or.inr ⟨picked, enabled⟩)
              · exact Or.inr ⟨rfl, enabled⟩

theorem cullReset_queueBuf (afl : AflState) (q : ℕ) :
    (cullReset afl).queueBuf q = { afl.queueBuf q with
      favored := if q < afl.queuedItems then false else (afl.queueBuf q).favored } := by
  unfold cullReset
  dsimp only
  split <;> rfl

/-- **The favored entries after a cull are the enabled picks**, if every owner has its minimised
trace. They stay enabled. -/
theorem favored_cullQueue_iff (rated : Rated own afl) (aligned : 8 ∣ afl.mapSize)
    (acts : cullReturnsEarly afl = false) (minis : OwnersKeepMini afl)
    (queued : q < afl.queuedItems) :
    (((cullQueue afl).queueBuf q).favored = true ∧ ((cullQueue afl).queueBuf q).disabled = false) ↔
      q ∈ cullPicks own afl ∧ (afl.queueBuf q).disabled = false := by
  have loop : CullTracks own (cullReset afl) afl.mapSize
      ((List.range afl.mapSize).foldl cullIndex (cullReset afl)) := by
    refine foldl_range_invariant (CullTracks.start own aligned) fun i below t tracks => ?_
    refine tracks.step (rated.of_freed (minisFreed_cullReset afl)) aligned ?_ below
    intro j inside p owner
    rw [cullReset_queueBuf]
    exact minis j inside p owner
  set middle := (List.range afl.mapSize).foldl cullIndex (cullReset afl)
  have marked := marksRedundant_foldl (List.range middle.queuedItems) middle
  have plain : ((cullReset afl).queueBuf q).favored = false := by
    rw [cullReset_queueBuf]
    exact if_pos queued
  have flag : (middle.queueBuf q).disabled = (afl.queueBuf q).disabled := by
    obtain ⟨mark, entry⟩ := loop.entries q
    rw [entry, cullReset_queueBuf]
  have before : (middle.queueBuf q).favored = true ↔
      q ∈ cullPicks own afl ∧ (afl.queueBuf q).disabled = false := by
    rw [loop.favored q, plain, cullReset_queueBuf]
    simp only [Bool.false_eq_true, false_or]
    rfl
  rw [cullQueue, if_neg (by simp [acts])]
  show (((List.range middle.queuedItems).foldl cullMark middle).queueBuf q).favored = true ∧
    (((List.range middle.queuedItems).foldl cullMark middle).queueBuf q).disabled = false ↔ _
  rw [marked.favored, before]
  constructor
  · rintro ⟨picked, -⟩
    exact picked
  · intro picked
    refine ⟨picked, ?_⟩
    rw [marked.disabled q (before.mpr picked), flag]
    exact picked.2

/-- The picks hit every owned index. -/
theorem cullPicks_cover (rated : Rated own afl) {i : ℕ} (inside : i < afl.mapSize)
    (owned : afl.topRated i ≠ none) : ∃ p ∈ cullPicks own afl, own p i ≠ 0 :=
  greedyPicks_covers rated.hits inside owned

/-- Picks own indices. -/
theorem exists_owner_of_mem_cullPicks (picked : q ∈ cullPicks own afl) :
    ∃ i < afl.mapSize, afl.topRated i = some q :=
  exists_owner_of_mem_greedyPicks picked

end GreenFuzz.AflFuzz
