import GreenFuzz.AflFuzz.Favored
import GreenFuzz.Library.SlotArray

/-!
# The reference counts of owners

`tc_ref` of an entry counts the map indices it owns in `top_rated`. The two update
functions maintain it with different loops, but each round of either loop is one
contest for one index, and a contest keeps the counts, also when an entry displaces
itself. So the counts are right after every round of every call
(`slots_counted_of_reachable`), no decrement underflows, and `trace_mini` is freed
for the owners that give up their last slot.
-/

set_option autoImplicit false

namespace GreenFuzz.AflFuzz

open Library

/-- The map indices that entry `q` owns. -/
def ownedSlots (afl : AflState) (q : ℕ) : Finset ℕ := slotsOf afl.topRated afl.mapSize q

/-- What the counts are for. `tc_ref` is the number of owned slots; an owner that is
displaced has a reference to give up; it loses `trace_mini` exactly when the slot is
its last; and the entries without `trace_mini` are those that own no slot. -/
structure SlotCounts (afl : AflState) : Prop where
  tcRef : ∀ q, (afl.queueBuf q).tcRef = (ownedSlots afl q).card
  positive : ∀ i top, afl.topRated i = some top → 0 < (afl.queueBuf top).tcRef
  freed : ∀ i top, afl.topRated i = some top →
    (((releaseWinner afl top).queueBuf top).traceMini = none ↔ ownedSlots afl top = {i})
  traceMini : ∀ q, (afl.queueBuf q).traceMini = none ↔ ownedSlots afl q = ∅

/-- The invariant behind it. -/
structure Counted (afl : AflState) : Prop where
  small : afl.mapSize < 2 ^ 32
  inside : ∀ i q, afl.topRated i = some q → i < afl.mapSize
  tcRef : ∀ q, (afl.queueBuf q).tcRef = (ownedSlots afl q).card
  traceMini : ∀ q, (afl.queueBuf q).traceMini = none ↔ ownedSlots afl q = ∅

variable {libm : Libm} {afl before after : AflState} {q i len : ℕ}

theorem Counted.tcRef_lt (counted : Counted afl) (q : ℕ) : (afl.queueBuf q).tcRef < 2 ^ 32 := by
  rw [counted.tcRef]
  exact (card_slotsOf_le _ _ _).trans_lt counted.small

theorem Counted.owns (counted : Counted afl) (owner : afl.topRated i = some q) :
    i ∈ ownedSlots afl q :=
  mem_slotsOf.mpr ⟨counted.inside i q owner, owner⟩

theorem Counted.positive (counted : Counted afl) (owner : afl.topRated i = some q) :
    0 < (afl.queueBuf q).tcRef := by
  rw [counted.tcRef]
  exact Finset.card_pos.mpr ⟨i, counted.owns owner⟩

/-- The owner of a slot is left with one reference less. -/
theorem Counted.pred_tcRef (counted : Counted afl) (owner : afl.topRated i = some q) :
    u32Pred (afl.queueBuf q).tcRef = ((ownedSlots afl q).erase i).card := by
  rw [u32Pred_eq_sub (counted.positive owner) (counted.tcRef_lt q).le, counted.tcRef,
    Finset.card_erase_of_mem (counted.owns owner)]

/-- Giving up index `i`: every entry is counted without it. -/
theorem Counted.releaseOwner (counted : Counted afl) (i p : ℕ) :
    ((releaseOwner afl i).queueBuf p).tcRef = ((ownedSlots afl p).erase i).card ∧
    (((releaseOwner afl i).queueBuf p).traceMini = none ↔ (ownedSlots afl p).erase i = ∅) := by
  have others (differ : afl.topRated i ≠ some p) : (ownedSlots afl p).erase i = ownedSlots afl p :=
    Finset.erase_eq_of_notMem fun member => differ (mem_slotsOf.mp member).2
  unfold AflFuzz.releaseOwner
  cases owner : afl.topRated i with
  | none =>
      rw [others (by rw [owner]; nofun)]
      exact ⟨counted.tcRef p, counted.traceMini p⟩
  | some top =>
      by_cases same : p = top
      · subst same
        have left := counted.pred_tcRef owner
        have owned : (afl.queueBuf p).traceMini ≠ none := fun missing =>
          Finset.notMem_empty i ((counted.traceMini p).mp missing ▸ counted.owns owner)
        simp only [releaseWinner, AflState.modifyEntry_queueBuf_self, left]
        refine ⟨trivial, ?_⟩
        split
        · rename_i last
          exact iff_of_true rfl (Finset.card_eq_zero.mp last)
        · rename_i more
          exact iff_of_false owned fun empty => more (Finset.card_eq_zero.mpr empty)
      · rw [others (by rw [owner]; exact fun equal => same (Option.some.inj equal).symm)]
        simp only [releaseWinner, AflState.modifyEntry_queueBuf_of_ne _ _ _ same]
        exact ⟨counted.tcRef p, counted.traceMini p⟩

theorem Counted.slotCounts (counted : Counted afl) : SlotCounts afl where
  tcRef := counted.tcRef
  positive _ _ owner := counted.positive owner
  freed i top owner := by
    have released := (counted.releaseOwner i top).2
    rw [AflFuzz.releaseOwner, owner] at released
    rw [released, Finset.erase_eq_empty_iff]
    refine ⟨fun single => single.resolve_left ?_, Or.inr⟩
    exact Finset.ne_empty_of_mem (counted.owns owner)
  traceMini := counted.traceMini

/-- One contest keeps the counts. -/
theorem Counted.contend (counted : Counted afl) (inside : i < afl.mapSize) (p2 factor len : ℕ) :
    Counted (contend libm afl q p2 factor len i) := by
  rw [contend_eq]
  split
  · have topRated : (AflFuzz.releaseOwner afl i).topRated = afl.topRated :=
      (minisFreed_releaseOwner afl i).topRated
    have owned (p : ℕ) : ownedSlots (insertWinner (AflFuzz.releaseOwner afl i) q i len) p =
        slotsOf (Function.update afl.topRated i (some q)) afl.mapSize p := by
      unfold ownedSlots insertWinner
      dsimp only
      rw [topRated]
      exact congrArg (fun n => slotsOf _ n p) (releaseOwner_mapSize afl i)
    have winner : ownedSlots (insertWinner (AflFuzz.releaseOwner afl i) q i len) q =
        insert i ((ownedSlots afl q).erase i) := by
      rw [owned, slotsOf_update_self inside]
      rfl
    have loser {p : ℕ} (differ : p ≠ q) :
        ownedSlots (insertWinner (AflFuzz.releaseOwner afl i) q i len) p =
          (ownedSlots afl p).erase i := by
      rw [owned, slotsOf_update_of_ne differ]
      rfl
    refine ⟨?_, ?_, fun p => ?_, fun p => ?_⟩
    · exact (releaseOwner_mapSize afl i).symm ▸ counted.small
    · intro j p owner
      have size : (insertWinner (AflFuzz.releaseOwner afl i) q i len).mapSize = afl.mapSize :=
        releaseOwner_mapSize afl i
      have here : Function.update afl.topRated i (some q) j = some p := topRated ▸ owner
      rw [size]
      rw [Function.update_apply] at here
      split at here
      · rename_i same
        exact same ▸ inside
      · exact counted.inside j p here
    · obtain ⟨references, -⟩ := counted.releaseOwner i p
      by_cases same : p = q
      · subst same
        rw [winner, Finset.card_insert_of_notMem (Finset.notMem_erase i _), ← references]
        have few := card_slotsOf_le (Function.update afl.topRated i (some p)) afl.mapSize p
        rw [← owned, winner, Finset.card_insert_of_notMem (Finset.notMem_erase i _),
          ← references] at few
        simp only [insertWinner, AflState.modifyEntry_queueBuf_self, QueueEntry.won]
        exact Nat.mod_eq_of_lt (few.trans_lt counted.small)
      · rw [loser same, ← references]
        simp only [insertWinner, AflState.modifyEntry_queueBuf_of_ne _ _ _ same]
    · obtain ⟨-, missing⟩ := counted.releaseOwner i p
      by_cases same : p = q
      · subst same
        rw [winner]
        simp only [insertWinner, AflState.modifyEntry_queueBuf_self, QueueEntry.won]
        exact iff_of_false (Option.some_ne_none _) (Finset.insert_ne_empty i _)
      · rw [loser same, ← missing]
        simp only [insertWinner, AflState.modifyEntry_queueBuf_of_ne _ _ _ same]
  · exact counted

/-! ## Steps that leave the slots alone -/

/-- The slots and their counts are the same in both states. Everything else may differ:
traces, lengths, speeds, hit counts, energies, flags and the rest of the state. -/
structure SameSlots (before after : AflState) : Prop where
  mapSize : after.mapSize = before.mapSize
  topRated : after.topRated = before.topRated
  tcRef : ∀ q, (after.queueBuf q).tcRef = (before.queueBuf q).tcRef
  traceMini : ∀ q, (after.queueBuf q).traceMini = (before.queueBuf q).traceMini

theorem SameSlots.refl (afl : AflState) : SameSlots afl afl :=
  ⟨rfl, rfl, fun _ => rfl, fun _ => rfl⟩

theorem SameSlots.trans {middle : AflState} (first : SameSlots before middle)
    (second : SameSlots middle after) : SameSlots before after where
  mapSize := second.mapSize.trans first.mapSize
  topRated := second.topRated.trans first.topRated
  tcRef q := (second.tcRef q).trans (first.tcRef q)
  traceMini q := (second.traceMini q).trans (first.traceMini q)

theorem Counted.of_same (counted : Counted before) (same : SameSlots before after) :
    Counted after := by
  have owned (q : ℕ) : ownedSlots after q = ownedSlots before q := by
    rw [ownedSlots, ownedSlots, same.topRated, same.mapSize]
  refine ⟨?_, ?_, fun q => ?_, fun q => ?_⟩
  · rw [same.mapSize]
    exact counted.small
  · rw [same.topRated, same.mapSize]
    exact counted.inside
  · rw [same.tcRef, owned]
    exact counted.tcRef q
  · rw [same.traceMini, owned]
    exact counted.traceMini q

theorem sameSlots_fuzzRunTarget (afl : AflState) (outcome : RunOutcome) :
    SameSlots afl (fuzzRunTarget afl outcome) := by
  have references (q : ℕ) : ((fuzzRunTarget afl outcome).queueBuf q).tcRef =
      (afl.queueBuf q).tcRef := by
    refine fuzzRunTarget_keeps ?_ afl outcome q
    intro q resource value
    cases resource <;> rfl
  have minis (q : ℕ) : ((fuzzRunTarget afl outcome).queueBuf q).traceMini =
      (afl.queueBuf q).traceMini := by
    refine fuzzRunTarget_keeps ?_ afl outcome q
    intro q resource value
    cases resource <;> rfl
  have freed := minisFreed_fuzzRunTarget afl outcome
  exact ⟨freed.mapSize, freed.topRated, references, minis⟩

/-- Collecting the candidates runs the target and keeps the slots. -/
theorem sameSlots_collectCandidates (runs : ℕ → RunOutcome) (afl : AflState) :
    SameSlots afl (collectCandidates runs afl) := by
  refine foldl_invariant (P := SameSlots afl) (SameSlots.refl afl) fun i _ t same => ?_
  unfold collectCandidate
  dsimp only
  split
  · exact ⟨same.mapSize, same.topRated, same.tcRef, same.traceMini⟩
  · have ran := same.trans (sameSlots_fuzzRunTarget t (runs i))
    exact ⟨ran.mapSize, ran.topRated, ran.tcRef, ran.traceMini⟩

/-! ## The rounds of a call -/

/-- A call that updates slots. -/
inductive SlotCall where
  | score (q : ℕ)
  | recalculate (runs : ℕ → RunOutcome)

/-- The effect of a call. -/
def SlotCall.apply (libm : Libm) (afl : AflState) : SlotCall → AflState
  | .score q => updateBitmapScore libm afl q true
  | .recalculate runs => recalculateAllScores libm runs afl

/-- The state of a call after `rounds` rounds of the loop that updates slots. -/
def SlotCall.midway (libm : Libm) (afl : AflState) (rounds : ℕ) : SlotCall → AflState
  | .score q =>
      if (afl.queueBuf q).disabled then afl
      else
        let p2 := fuzzP2 afl (afl.queueBuf q)
        let factor := favFactor libm afl (afl.queueBuf q)
        ((List.range afl.mapSize).take rounds).foldl
          (fun afl i =>
            if afl.traceBits i ≠ 0 then contend libm afl q p2 factor ((afl.mapSize + 7) / 8) i
            else afl)
          afl
  | .recalculate runs =>
      let afl := collectCandidates runs afl
      ((rescoreCalls afl).take rounds).foldl
        (fun afl call => updateBitmapRescore libm afl call.2 call.1) afl

/-- A call ends after all the rounds of its loop. -/
theorem SlotCall.apply_eq (libm : Libm) (afl : AflState) (call : SlotCall) :
    ∃ rounds, call.apply libm afl = call.midway libm afl rounds := by
  cases call with
  | score q =>
      refine ⟨afl.mapSize, ?_⟩
      rw [SlotCall.midway, List.take_of_length_le (List.length_range).le]
      rfl
  | recalculate runs =>
      refine ⟨(rescoreCalls (collectCandidates runs afl)).length, ?_⟩
      rw [SlotCall.midway, List.take_of_length_le le_rfl]
      rfl

/-- A contest of `update_bitmap_rescore` keeps the counts. -/
theorem Counted.rescore (counted : Counted afl) (inside : i < afl.mapSize) (q : ℕ) :
    Counted (updateBitmapRescore libm afl q i) := by
  unfold updateBitmapRescore
  split
  · exact counted
  · exact counted.contend inside _ _ _

theorem rescore_mapSize (libm : Libm) (afl : AflState) (q i : ℕ) :
    (updateBitmapRescore libm afl q i).mapSize = afl.mapSize := by
  unfold updateBitmapRescore
  split
  · rfl
  · exact contend_mapSize _ _ _

/-- The counts are right after every round of a call. -/
theorem Counted.midway (counted : Counted afl) (call : SlotCall) (rounds : ℕ) :
    Counted (call.midway libm afl rounds) := by
  cases call with
  | score q =>
      rw [SlotCall.midway]
      split
      · exact counted
      · refine (foldl_invariant (P := fun t => Counted t ∧ t.mapSize = afl.mapSize)
          ⟨counted, rfl⟩ ?_).1
        intro i member t ⟨counted, size⟩
        have inside : i < t.mapSize := size ▸ List.mem_range.mp (List.mem_of_mem_take member)
        split
        · exact ⟨counted.contend inside _ _ _, (contend_mapSize _ _ _).trans size⟩
        · exact ⟨counted, size⟩
  | recalculate runs =>
      have collected := counted.of_same (sameSlots_collectCandidates runs afl)
      refine (foldl_invariant
        (P := fun t => Counted t ∧ t.mapSize = (collectCandidates runs afl).mapSize)
        ⟨collected, rfl⟩ ?_).1
      rintro ⟨i, q⟩ member t ⟨counted, size⟩
      obtain ⟨j, low, mapped⟩ := List.mem_flatMap.mp (List.mem_of_mem_take member)
      obtain ⟨id, -, pair⟩ := List.mem_map.mp mapped
      cases pair
      have inside : i < t.mapSize := size ▸ List.mem_range.mp low
      exact ⟨counted.rescore inside q, (rescore_mapSize _ _ _ _).trans size⟩

/-! ## Runs -/

/-- Runs of the calls that update slots, with any other changes between them that leave the
slots alone. In the first state no entry owns a slot. -/
def slotSystem (libm : Libm) : TransitionSystem AflState where
  init afl := afl.mapSize < 2 ^ 32 ∧ (∀ i, afl.topRated i = none) ∧
    ∀ q, (afl.queueBuf q).tcRef = 0 ∧ (afl.queueBuf q).traceMini = none
  step before after := (∃ call : SlotCall, after = call.apply libm before) ∨ SameSlots before after

theorem counted_of_reachable (run : Reachable (slotSystem libm) afl) : Counted afl := by
  refine run.invariant ?_ ?_
  · rintro afl ⟨small, free, fresh⟩
    have owned (q : ℕ) : ownedSlots afl q = ∅ := by
      refine Finset.eq_empty_of_forall_notMem fun i member => ?_
      have owner := (mem_slotsOf.mp member).2
      rw [free] at owner
      cases owner
    refine ⟨small, fun i q owner => ?_, fun q => ?_, fun q => ?_⟩
    · rw [free] at owner
      cases owner
    · rw [(fresh q).1, owned, Finset.card_empty]
    · exact iff_of_true (fresh q).2 (owned q)
  · rintro before after - counted (⟨call, rfl⟩ | same)
    · obtain ⟨rounds, done⟩ := call.apply_eq libm before
      rw [done]
      exact counted.midway call rounds
    · exact counted.of_same same

/-- **Reference counts are the numbers of owned slots**, in every state between calls and after
every round inside a call, so that no decrement underflows and `trace_mini` is freed for the
entries that give up their last slot and for no others. -/
theorem slots_counted_of_reachable (libm : Libm) (afl : AflState)
    (run : Reachable (slotSystem libm) afl) :
    SlotCounts afl ∧
      ∀ (call : SlotCall) (rounds : ℕ), SlotCounts (call.midway libm afl rounds) := by
  have counted := counted_of_reachable run
  exact ⟨counted.slotCounts, fun call rounds => (counted.midway call rounds).slotCounts⟩

/-- Two entries, the second of which is faster. -/
def twoSpeeds : AflState where
  mapSize := 8
  queuedItems := 2
  queueBuf q := { id := q, len := 4, execUs := if q = 0 then 10 else 5 }
  traceBits := fun _ => 1

/-- The first entry gets all eight indices, and the second one takes six of them away, then the
last two, with which the first loses its trace. -/
theorem slots_counted_contest :
    let first := updateBitmapScore Libm.identity twoSpeeds 0 true
    let six := (SlotCall.score 1).midway Libm.identity first 6
    let second := updateBitmapScore Libm.identity first 1 true
    (first.queueBuf 0).tcRef = 8 ∧ (six.queueBuf 0).tcRef = 2 ∧ (six.queueBuf 1).tcRef = 6 ∧
      (six.queueBuf 0).traceMini.isSome ∧ (second.queueBuf 0).traceMini = none ∧
      (second.queueBuf 1).tcRef = 8 ∧ SlotCounts six ∧ SlotCounts second := by
  have first : Reachable (slotSystem Libm.identity)
      (updateBitmapScore Libm.identity twoSpeeds 0 true) :=
    .step (.init ⟨by decide, fun _ => rfl, fun _ => ⟨rfl, rfl⟩⟩) (.inl ⟨.score 0, rfl⟩)
  refine ⟨by decide +kernel, by decide +kernel, by decide +kernel, by decide +kernel,
    ?_, by decide +kernel, ?_, ?_⟩
  · exact Option.isNone_iff_eq_none.mp (by decide +kernel)
  · exact (slots_counted_of_reachable Libm.identity _ first).2 (.score 1) 6
  · exact (slots_counted_of_reachable Libm.identity _ (first.step (.inl ⟨.score 1, rfl⟩))).1

end GreenFuzz.AflFuzz
