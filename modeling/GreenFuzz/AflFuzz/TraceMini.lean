import GreenFuzz.AflFuzz.Score
import GreenFuzz.Library.Runs

/-!
# Whose coverage a minimised trace holds

`trace_mini` of an entry should hold the indices that the entry's own trace hits:
`cull_queue` and `should_det_fuzz` read it as such. Rating an entry while its own
trace is in `trace_bits` keeps this, and so does everything that only frees
minimised traces. `update_bitmap_rescore` refills a missing `trace_mini` from
`trace_bits` too, but there `trace_bits` holds whatever ran last. One call keeps
the property exactly when it refills nothing or `trace_bits` happens to hit the
indices of the entry (`updateBitmapRescore_miniOwned_iff`), and a run keeps it
when all its calls do (`miniOwned_of_reachable`).
-/

set_option autoImplicit false

namespace GreenFuzz.AflFuzz

open Library

/-! ## Contending for a slot -/

/-- A minimised trace has the bits of the indices that the trace hits. -/
theorem bitSet_minimizeBits (mapSize : ℕ) (trace : Buffer) {i : ℕ} (inside : i < mapSize) :
    bitSet (minimizeBits mapSize trace) i = decide (trace i ≠ 0) := by
  have seen : ∀ j, bitSet (minimizeBits mapSize trace) j =
      decide (j < mapSize ∧ trace j ≠ 0) := by
    refine foldl_range_invariant
      (P := fun count mini => ∀ j, bitSet mini j = decide (j < count ∧ trace j ≠ 0)) ?_ ?_
    · intro j
      simp only [bitSet_zero, Nat.not_lt_zero, false_and, decide_false]
    · intro k _ mini bits j
      by_cases hit : trace k ≠ 0
      · rw [if_pos hit, bitSet_setBit, bits, ← Bool.decide_or, decide_eq_decide]
        grind
      · rw [if_neg hit, bits, decide_eq_decide]
        grind
  rw [seen, decide_eq_decide]
  exact and_iff_right inside

/-- Whether a contender with these factors wins index `i`. -/
def winsSlot (libm : Libm) (afl : AflState) (p2 factor i : ℕ) : Bool :=
  match afl.topRated i with
  | none => true
  | some top =>
      p2 ≤ fuzzP2 afl (afl.queueBuf top) && factor ≤ favFactor libm afl (afl.queueBuf top)

/-- The owner of index `i`, if there is one, gives the slot up. -/
def releaseOwner (afl : AflState) (i : ℕ) : AflState :=
  match afl.topRated i with
  | none => afl
  | some top => releaseWinner afl top

/-- A winner takes the place of the previous owner; a loser changes nothing. -/
theorem contend_eq (libm : Libm) (afl : AflState) (q p2 factor len i : ℕ) :
    contend libm afl q p2 factor len i =
      if winsSlot libm afl p2 factor i then insertWinner (releaseOwner afl i) q i len
      else afl := by
  unfold contend winsSlot releaseOwner
  cases owner : afl.topRated i with
  | none => rfl
  | some top =>
      dsimp only
      by_cases slower : fuzzP2 afl (afl.queueBuf top) < p2
      · rw [if_pos slower, if_neg]
        simp [slower]
      · by_cases worse : favFactor libm afl (afl.queueBuf top) < factor
        · rw [if_neg slower, if_pos worse, if_neg]
          simp [worse]
        · rw [if_neg slower, if_neg worse, if_pos]
          simp [Nat.le_of_not_lt slower, Nat.le_of_not_lt worse]

@[simp] theorem releaseOwner_mapSize (afl : AflState) (i : ℕ) :
    (releaseOwner afl i).mapSize = afl.mapSize := by
  unfold releaseOwner
  split <;> rfl

@[simp] theorem releaseOwner_traceBits (afl : AflState) (i : ℕ) :
    (releaseOwner afl i).traceBits = afl.traceBits := by
  unfold releaseOwner
  split <;> rfl

/-! ## Minimised traces of their owners -/

section Owned

variable (own : ℕ → Buffer)

/-- A minimised trace holds the coverage of entry `q`. -/
def HoldsCoverage (mapSize q : ℕ) (mini : TraceMini) : Prop :=
  ∀ i < mapSize, bitSet mini.bytes i = decide (own q i ≠ 0)

/-- Every minimised trace holds the coverage of its own entry. -/
def MiniOwned (afl : AflState) : Prop :=
  ∀ q mini, (afl.queueBuf q).traceMini = some mini → HoldsCoverage own afl.mapSize q mini

/-- `trace_bits` hits the indices that the trace of `q` hits. -/
def TraceIsOwn (afl : AflState) (q : ℕ) : Prop :=
  ∀ i < afl.mapSize, afl.traceBits i ≠ 0 ↔ own q i ≠ 0

instance (afl : AflState) (q : ℕ) : Decidable (TraceIsOwn own afl q) :=
  inferInstanceAs (Decidable (∀ i < afl.mapSize, afl.traceBits i ≠ 0 ↔ own q i ≠ 0))

end Owned

/-- From one state to the other, owners and entries stay, and minimised traces are
only kept or freed. -/
structure MinisFreed (before after : AflState) : Prop where
  mapSize : after.mapSize = before.mapSize
  topRated : after.topRated = before.topRated
  queuedItems : before.queuedItems ≤ after.queuedItems
  traceMini : ∀ q, (after.queueBuf q).traceMini = (before.queueBuf q).traceMini ∨
    (after.queueBuf q).traceMini = none

variable {libm : Libm} {own : ℕ → Buffer} {afl before middle after : AflState} {q i len : ℕ}

theorem MinisFreed.refl (afl : AflState) : MinisFreed afl afl :=
  ⟨rfl, rfl, le_rfl, fun _ => Or.inl rfl⟩

theorem MinisFreed.trans (first : MinisFreed before middle) (second : MinisFreed middle after) :
    MinisFreed before after := by
  refine ⟨second.mapSize.trans first.mapSize, second.topRated.trans first.topRated,
    first.queuedItems.trans second.queuedItems, fun q => ?_⟩
  rcases second.traceMini q with same | freed
  · rw [same]
    exact first.traceMini q
  · exact Or.inr freed

/-- Freeing minimised traces keeps the others right. -/
theorem MiniOwned.of_freed (owned : MiniOwned own before) (freed : MinisFreed before after) :
    MiniOwned own after := by
  intro q mini present
  rcases freed.traceMini q with same | gone
  · rw [freed.mapSize]
    exact owned q mini (same ▸ present)
  · rw [gone] at present
    cases present

/-- Changing one entry frees minimised traces only, if the change does. -/
theorem minisFreed_modifyEntry {change : QueueEntry → QueueEntry}
    (frees : (change (afl.queueBuf q)).traceMini = (afl.queueBuf q).traceMini ∨
      (change (afl.queueBuf q)).traceMini = none) :
    MinisFreed afl (afl.modifyEntry q change) := by
  refine ⟨rfl, rfl, le_rfl, fun p => ?_⟩
  by_cases same : p = q
  · subst same
    rw [AflState.modifyEntry_queueBuf_self]
    exact frees
  · exact Or.inl (by rw [AflState.modifyEntry_queueBuf_of_ne _ _ _ same])

theorem minisFreed_releaseOwner (afl : AflState) (i : ℕ) : MinisFreed afl (releaseOwner afl i) := by
  unfold releaseOwner
  split
  · exact MinisFreed.refl afl
  · refine minisFreed_modifyEntry ?_
    dsimp only
    split
    · exact Or.inr rfl
    · exact Or.inl rfl

theorem minisFreed_markAsRedundant (afl : AflState) (q : ℕ) (state : Bool) :
    MinisFreed afl (markAsRedundant afl q state) := by
  unfold markAsRedundant
  split
  · exact MinisFreed.refl afl
  · refine minisFreed_modifyEntry ?_
    cases state with
    | true => exact Or.inr rfl
    | false => exact Or.inl rfl

theorem minisFreed_fuzzRunTarget (afl : AflState) (outcome : RunOutcome) :
    MinisFreed afl (fuzzRunTarget afl outcome) := by
  have kept (q : ℕ) : ((fuzzRunTarget afl outcome).queueBuf q).traceMini =
      (afl.queueBuf q).traceMini := by
    refine fuzzRunTarget_keeps ?_ afl outcome q
    intro q resource value
    cases resource <;> rfl
  obtain ⟨_, _, _, ran⟩ := fuzzRunTarget_eq afl outcome
  rw [ran] at kept ⊢
  exact ⟨rfl, rfl, le_rfl, fun q => Or.inl (kept q)⟩

theorem minisFreed_foldl {α : Type*} {round : AflState → α → AflState} (items : List α)
    (frees : ∀ afl item, MinisFreed afl (round afl item)) (afl : AflState) :
    MinisFreed afl (items.foldl round afl) :=
  foldl_invariant (P := MinisFreed afl) (MinisFreed.refl afl)
    fun item _ _ freed => freed.trans (frees _ item)

theorem minisFreed_markFavored (afl : AflState) (top : ℕ) :
    MinisFreed afl (markFavored afl top) := by
  have marked : MinisFreed afl (afl.modifyEntry top fun e => { e with favored := true }) :=
    minisFreed_modifyEntry (Or.inl rfl)
  unfold markFavored
  dsimp only
  split
  · split
    · exact ⟨rfl, rfl, le_rfl, marked.traceMini⟩
    · exact ⟨rfl, rfl, le_rfl, marked.traceMini⟩
  · exact MinisFreed.refl afl

theorem minisFreed_cullIndex (afl : AflState) (i : ℕ) : MinisFreed afl (cullIndex afl i) := by
  unfold cullIndex
  split
  · exact MinisFreed.refl afl
  · split
    · split
      · exact MinisFreed.refl afl
      · refine MinisFreed.trans ?_ (minisFreed_markFavored _ _)
        exact ⟨rfl, rfl, le_rfl, fun _ => Or.inl rfl⟩
    · exact MinisFreed.refl afl

theorem minisFreed_cullReset (afl : AflState) : MinisFreed afl (cullReset afl) := by
  refine ⟨rfl, rfl, le_rfl, fun q => Or.inl ?_⟩
  unfold cullReset
  dsimp only
  split <;> rfl

theorem minisFreed_cullMark (afl : AflState) (q : ℕ) : MinisFreed afl (cullMark afl q) := by
  unfold cullMark
  split
  · exact minisFreed_markAsRedundant _ _ _
  · exact MinisFreed.refl afl

theorem minisFreed_cullQueue (afl : AflState) : MinisFreed afl (cullQueue afl) := by
  unfold cullQueue
  split
  · exact MinisFreed.refl afl
  · have favored := (minisFreed_cullReset afl).trans
      (minisFreed_foldl (List.range afl.mapSize) minisFreed_cullIndex _)
    have marked (count : ℕ) :=
      favored.trans (minisFreed_foldl (List.range count) minisFreed_cullMark _)
    exact ⟨(marked _).mapSize, (marked _).topRated, (marked _).queuedItems, (marked _).traceMini⟩

theorem minisFreed_addToQueue (afl : AflState) (len : ℕ) (passedDet : Bool) :
    MinisFreed afl (addToQueue afl len passedDet) := by
  refine ⟨rfl, rfl, Nat.le_succ _, fun q => ?_⟩
  by_cases same : q = afl.queuedItems
  · exact Or.inr (by simp [addToQueue, same])
  · exact Or.inl (by simp [addToQueue, same])

/-! ## Refilling -/

/-- Whether inserting `q` takes a new `trace_mini` from `trace_bits`. -/
def refillsMini (afl : AflState) (q : ℕ) : Prop := (afl.queueBuf q).traceMini = none

/-- Inserting a winner keeps minimised traces right exactly when the winner still
has one or its own trace is in `trace_bits`. -/
theorem insertWinner_miniOwned_iff (owned : MiniOwned own afl) :
    MiniOwned own (insertWinner afl q i len) ↔ (refillsMini afl q → TraceIsOwn own afl q) := by
  have others {p : ℕ} (differ : p ≠ q) :
      (insertWinner afl q i len).queueBuf p = afl.queueBuf p := by
    simp [insertWinner, differ]
  have winner : ((insertWinner afl q i len).queueBuf q).traceMini =
      some ((afl.queueBuf q).traceMini.getD ⟨len, minimizeBits afl.mapSize afl.traceBits⟩) := by
    simp [insertWinner, QueueEntry.won]
  constructor
  · intro after missing j inside
    rw [refillsMini] at missing
    rw [missing, Option.getD_none] at winner
    have bits := after q _ winner j inside
    rw [bitSet_minimizeBits _ _ inside, decide_eq_decide] at bits
    exact bits
  · intro refills p mini present
    by_cases same : p = q
    · subst same
      rw [winner] at present
      cases missing : (afl.queueBuf p).traceMini with
      | some kept =>
          rw [missing, Option.getD_some] at present
          exact owned p mini (missing.trans present)
      | none =>
          rw [missing, Option.getD_none] at present
          cases present
          intro j (inside : j < afl.mapSize)
          rw [bitSet_minimizeBits _ _ inside, decide_eq_decide]
          exact refills missing j inside
    · rw [others same] at present
      exact owned p mini present

/-- A release leaves `q` without a minimised trace when it had none, or when it
gives up the last slot it owns. -/
theorem refillsMini_releaseOwner : refillsMini (releaseOwner afl i) q ↔
    (afl.queueBuf q).traceMini = none ∨
      afl.topRated i = some q ∧ u32Pred (afl.queueBuf q).tcRef = 0 := by
  unfold refillsMini releaseOwner
  cases owner : afl.topRated i with
  | none => simp
  | some top =>
      by_cases same : q = top
      · subst same
        simp only [releaseWinner, AflState.modifyEntry_queueBuf_self]
        split <;> simp_all
      · have differ : top ≠ q := fun equal => same equal.symm
        simp only [releaseWinner, AflState.modifyEntry_queueBuf_of_ne _ _ _ same,
          Option.some.injEq, differ, false_and, or_false]

/-- Contending with one's own trace in `trace_bits` keeps minimised traces right. -/
theorem MiniOwned.contend (owned : MiniOwned own afl) (trace : TraceIsOwn own afl q)
    (p2 factor len i : ℕ) : MiniOwned own (contend libm afl q p2 factor len i) := by
  rw [contend_eq]
  split
  · refine (insertWinner_miniOwned_iff (owned.of_freed (minisFreed_releaseOwner afl i))).mpr ?_
    intro _ j inside
    rw [releaseOwner_traceBits]
    exact trace j (by simpa using inside)
  · exact owned

theorem contend_traceIsOwn (p2 factor len i : ℕ) :
    TraceIsOwn own (contend libm afl q p2 factor len i) q ↔ TraceIsOwn own afl q := by
  rw [contend_eq]
  split
  · show (∀ j < (releaseOwner afl i).mapSize, _) ↔ _
    rw [releaseOwner_mapSize]
    show (∀ j < _, (releaseOwner afl i).traceBits j ≠ 0 ↔ _) ↔ _
    rw [releaseOwner_traceBits]
    rfl
  · rfl

/-- `update_bitmap_score` with the entry's own trace in `trace_bits` keeps minimised
traces right. -/
theorem MiniOwned.updateBitmapScore (owned : MiniOwned own afl) (trace : TraceIsOwn own afl q)
    (haveTrace : Bool) : MiniOwned own (updateBitmapScore libm afl q haveTrace) := by
  unfold AflFuzz.updateBitmapScore
  split
  · exact owned
  · dsimp only
    split
    · refine (foldl_invariant (P := fun afl => MiniOwned own afl ∧ TraceIsOwn own afl q)
        ⟨owned, trace⟩ ?_).1
      intro i _ afl ⟨owned, trace⟩
      split
      · exact ⟨owned.contend trace _ _ _ _, (contend_traceIsOwn _ _ _ _).mpr trace⟩
      · exact ⟨owned, trace⟩
    · exact owned

/-- A call `update_bitmap_rescore(q, i)` has to build a `trace_mini`: `q` wins the
slot, and has none or gives up the last slot it owns. -/
def rescoreRefills (libm : Libm) (afl : AflState) (q i : ℕ) : Prop :=
  (afl.queueBuf q).disabled = false ∧
    winsSlot libm afl (fuzzP2 afl (afl.queueBuf q)) (favFactor libm afl (afl.queueBuf q)) i ∧
    ((afl.queueBuf q).traceMini = none ∨
      afl.topRated i = some q ∧ u32Pred (afl.queueBuf q).tcRef = 0)

instance (libm : Libm) (afl : AflState) (q i : ℕ) : Decidable (rescoreRefills libm afl q i) :=
  have : Decidable ((afl.queueBuf q).traceMini = none) :=
    decidable_of_iff ((afl.queueBuf q).traceMini.isNone = true) Option.isNone_iff_eq_none
  inferInstanceAs (Decidable (_ ∧ _ ∧ (_ ∨ _ ∧ _)))

/-- One call of `update_bitmap_rescore` keeps minimised traces right exactly when it
builds none, or builds it while `trace_bits` hits the indices of its own entry. -/
theorem updateBitmapRescore_miniOwned_iff (owned : MiniOwned own afl) :
    MiniOwned own (updateBitmapRescore libm afl q i) ↔
      (rescoreRefills libm afl q i → TraceIsOwn own afl q) := by
  unfold updateBitmapRescore rescoreRefills
  by_cases disabled : (afl.queueBuf q).disabled = true
  · simp [disabled, owned]
  · rw [if_neg disabled, contend_eq, ← refillsMini_releaseOwner]
    have enabled : (afl.queueBuf q).disabled = false := Bool.not_eq_true _ ▸ disabled
    split
    · rename_i wins
      rw [insertWinner_miniOwned_iff (owned.of_freed (minisFreed_releaseOwner afl i))]
      simp only [TraceIsOwn, releaseOwner_mapSize, releaseOwner_traceBits, enabled, wins, true_and]
    · rename_i loses
      simp [loses, owned]

/-! ## Runs -/

/-- What the rating of entries reads is the same in both states. -/
structure SameRating (before after : AflState) : Prop where
  mapSize : after.mapSize = before.mapSize
  queuedItems : after.queuedItems = before.queuedItems
  topRated : after.topRated = before.topRated
  traceMini : ∀ q, (after.queueBuf q).traceMini = (before.queueBuf q).traceMini

theorem SameRating.minisFreed (same : SameRating before after) : MinisFreed before after :=
  ⟨same.mapSize, same.topRated, same.queuedItems.ge, fun q => Or.inl (same.traceMini q)⟩

/-- The operations that rate entries. `own q` is the trace of entry `q`. Everything
else the fuzzer does may happen between them, as long as it keeps owners and
minimised traces. -/
inductive RatingStep (libm : Libm) (own : ℕ → Buffer) : AflState → AflState → Prop where
  | add (afl : AflState) (len : ℕ) (passedDet : Bool) :
      RatingStep libm own afl (addToQueue afl len passedDet)
  | score (afl : AflState) (q : ℕ) : q < afl.queuedItems →
      RatingStep libm own afl (updateBitmapScore libm { afl with traceBits := own q } q true)
  | redundant (afl : AflState) (q : ℕ) (state : Bool) : q < afl.queuedItems →
      RatingStep libm own afl (markAsRedundant afl q state)
  | cull (afl : AflState) : RatingStep libm own afl (cullQueue afl)
  | other (before after : AflState) : SameRating before after →
      RatingStep libm own before after

/-- A queue in which nothing was rated yet. -/
structure Unrated (afl : AflState) : Prop where
  topRated : ∀ i, afl.topRated i = none
  traceMini : ∀ q, (afl.queueBuf q).traceMini = none

/-- Every refill of a list of calls of `update_bitmap_rescore` happens while
`trace_bits` hits the indices of the refilled entry. -/
def RefillsOwn (libm : Libm) (own : ℕ → Buffer) : AflState → List (ℕ × ℕ) → Prop
  | _, [] => True
  | afl, (i, q) :: calls =>
      (rescoreRefills libm afl q i → TraceIsOwn own afl q) ∧
        RefillsOwn libm own (updateBitmapRescore libm afl q i) calls

instance RefillsOwn.decidable (libm : Libm) (own : ℕ → Buffer) :
    (afl : AflState) → (calls : List (ℕ × ℕ)) → Decidable (RefillsOwn libm own afl calls)
  | _, [] => isTrue trivial
  | afl, (i, q) :: calls =>
      have := RefillsOwn.decidable libm own (updateBitmapRescore libm afl q i) calls
      inferInstanceAs (Decidable ((_ → _) ∧ _))

/-- The refills of a call of `recalculate_all_scores` are from the right traces. -/
def RecalculatesOwn (libm : Libm) (own : ℕ → Buffer) (runs : ℕ → RunOutcome) (afl : AflState) :
    Prop :=
  RefillsOwn libm own (collectCandidates runs afl) (rescoreCalls (collectCandidates runs afl))

instance (libm : Libm) (own : ℕ → Buffer) (runs : ℕ → RunOutcome) (afl : AflState) :
    Decidable (RecalculatesOwn libm own runs afl) :=
  RefillsOwn.decidable _ _ _ _

/-- Runs of rating operations and of calls of `recalculate_all_scores` that meet
`allowed`. The target is deterministic. -/
inductive RescoreStep (libm : Libm) (own : ℕ → Buffer)
    (allowed : (ℕ → RunOutcome) → AflState → Prop) : AflState → AflState → Prop where
  | rating {before after : AflState} : RatingStep libm own before after →
      RescoreStep libm own allowed before after
  | recalculate (afl : AflState) (runs : ℕ → RunOutcome) : (∀ q, (runs q).trace = own q) →
      allowed runs afl → RescoreStep libm own allowed afl (recalculateAllScores libm runs afl)

/-- The system of these runs. -/
def rescoreSystem (libm : Libm) (own : ℕ → Buffer)
    (allowed : (ℕ → RunOutcome) → AflState → Prop) : TransitionSystem AflState where
  init := Unrated
  step := RescoreStep libm own allowed

theorem Unrated.miniOwned (unrated : Unrated afl) : MiniOwned own afl := by
  intro q mini present
  rw [unrated.traceMini q] at present
  cases present

theorem MiniOwned.ratingStep (owned : MiniOwned own before)
    (taken : RatingStep libm own before after) : MiniOwned own after := by
  cases taken with
  | add len passedDet => exact owned.of_freed (minisFreed_addToQueue _ _ _)
  | score q valid =>
      have own_trace : MiniOwned own { before with traceBits := own q } := owned
      exact own_trace.updateBitmapScore (fun i _ => Iff.rfl) true
  | redundant q state => exact owned.of_freed (minisFreed_markAsRedundant _ _ _)
  | cull => exact owned.of_freed (minisFreed_cullQueue _)
  | other _ same => exact owned.of_freed same.minisFreed

theorem minisFreed_collectCandidates (runs : ℕ → RunOutcome) (afl : AflState) :
    MinisFreed afl (collectCandidates runs afl) := by
  refine minisFreed_foldl _ (fun afl i => ?_) afl
  unfold collectCandidate
  dsimp only
  split
  · exact ⟨rfl, rfl, le_rfl, fun _ => Or.inl rfl⟩
  · have ran := minisFreed_fuzzRunTarget afl (runs i)
    exact ⟨ran.mapSize, ran.topRated, ran.queuedItems, ran.traceMini⟩

/-- Calls that refill from the right traces keep minimised traces right. -/
theorem MiniOwned.rescore (calls : List (ℕ × ℕ)) (owned : MiniOwned own afl)
    (refills : RefillsOwn libm own afl calls) :
    MiniOwned own
      (calls.foldl (fun afl call => updateBitmapRescore libm afl call.2 call.1) afl) := by
  induction calls generalizing afl with
  | nil => exact owned
  | cons call calls ih =>
      exact ih ((updateBitmapRescore_miniOwned_iff owned).mpr refills.1) refills.2

/-- **Minimised traces belong to their owners** in every run in which each call of
`update_bitmap_rescore` that builds one finds the trace of its own entry in
`trace_bits`. -/
theorem miniOwned_of_reachable (libm : Libm) (own : ℕ → Buffer) (afl : AflState)
    (run : Reachable (rescoreSystem libm own (RecalculatesOwn libm own)) afl) :
    MiniOwned own afl := by
  refine run.invariant (fun _ => Unrated.miniOwned) ?_
  rintro before after - owned (taken | ⟨runs, -, refills⟩)
  · exact owned.ratingStep taken
  · exact MiniOwned.rescore _ (owned.of_freed (minisFreed_collectCandidates _ _)) refills

/-! ### Two entries on a map of eight bytes -/

variable {allowed : (ℕ → RunOutcome) → AflState → Prop}

/-- Add an entry of `len` bytes and score it. -/
def addScored (own : ℕ → Buffer) (len : ℕ) (afl : AflState) : AflState :=
  updateBitmapScore Libm.identity
    { addToQueue afl len false with traceBits := own afl.queuedItems } afl.queuedItems true

theorem addScored_reachable (len : ℕ)
    (run : Reachable (rescoreSystem Libm.identity own allowed) afl) :
    Reachable (rescoreSystem Libm.identity own allowed) (addScored own len afl) :=
  (run.step (.rating (.add afl len false))).step (.rating (.score _ _ (Nat.lt_succ_self _)))

theorem unrated_empty : Unrated { mapSize := 8 } := ⟨fun _ => rfl, fun _ => rfl⟩

/-- Entry 0 hits the indices 0, 1 and 2, and later entries the index 2 alone. -/
def sharedTrace (q : ℕ) : Buffer := fun i => if q = 0 ∧ i < 2 ∨ i = 2 then 1 else 0

def sharedRuns (q : ℕ) : RunOutcome := { trace := sharedTrace q }

/-- The second entry takes the index 2 from the first one. Rescoring then builds the trace of the
second entry again, from its own run, and keeps that of the first. -/
theorem miniOwned_rescored_contest :
    let first := addScored sharedTrace 8 { mapSize := 8 }
    let second := addScored sharedTrace 2 first
    let afl := recalculateAllScores Libm.identity sharedRuns second
    first.topRated 2 = some 0 ∧ afl.topRated 1 = some 0 ∧ afl.topRated 2 = some 1 ∧
      rescoreRefills Libm.identity (collectCandidates sharedRuns second) 1 2 ∧
      (afl.queueBuf 0).traceMini.isSome ∧ (afl.queueBuf 1).traceMini.isSome ∧
      MiniOwned sharedTrace afl := by
  refine ⟨by decide +kernel, by decide +kernel, by decide +kernel, by decide +kernel,
    by decide +kernel, by decide +kernel,
    miniOwned_of_reachable Libm.identity sharedTrace _ ?_⟩
  exact (addScored_reachable 2 (addScored_reachable 8 (.init unrated_empty))).step
    (.recalculate _ _ (fun _ => rfl) (by decide +kernel))

/-- Entry `q` hits the map index `q` and no other. -/
def diagonalTrace (q : ℕ) : Buffer := fun i => if i = q then 1 else 0

def diagonalRuns (q : ℕ) : RunOutcome := { trace := diagonalTrace q }

/-- Rescoring two entries with disjoint traces leaves the coverage of the second in
the minimised trace of the first. -/
theorem rescored_mini_of_last_run :
    ∃ afl, Reachable (rescoreSystem Libm.identity diagonalTrace fun _ _ => True) afl ∧
      ¬ MiniOwned diagonalTrace afl := by
  refine ⟨recalculateAllScores Libm.identity diagonalRuns
    (addScored diagonalTrace 8 (addScored diagonalTrace 8 { mapSize := 8 })), ?_, ?_⟩
  · exact (addScored_reachable 8 (addScored_reachable 8 (.init unrated_empty))).step
      (.recalculate _ _ (fun _ => rfl) trivial)
  · intro owned
    have missing : (((recalculateAllScores Libm.identity diagonalRuns
        (addScored diagonalTrace 8 (addScored diagonalTrace 8 { mapSize := 8 }))).queueBuf 0
          ).traceMini.map fun mini => bitSet mini.bytes 0) = some false := by decide +kernel
    obtain ⟨mini, present, unset⟩ := Option.map_eq_some_iff.mp missing
    have set := owned 0 mini present 0 (by decide +kernel)
    rw [unset] at set
    exact absurd set (by decide)

end GreenFuzz.AflFuzz
