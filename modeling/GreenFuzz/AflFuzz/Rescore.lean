import GreenFuzz.AflFuzz.Calibrate
import GreenFuzz.AflFuzz.SlotCounts
import GreenFuzz.Library.Challenge

/-!
# Rescoring the whole queue

`recalculate_all_scores` keeps for each map index an array `[count][id1][id2]...` of the
entries that hit it. The arrays are extended by the entries that no earlier call has
executed, and then every entry of an array contends for its index.

`RescoreState` adds the arrays to the state. `recalculateCells_eq` says that they stand
for the lists of `recalculateAllScores`, and `rescore_complete` what they hold after a
call, and that no entry of them is strictly better than the owner.
-/

set_option autoImplicit false

namespace GreenFuzz.AflFuzz

open Library

/-! ## Candidate arrays -/

/-- `ck_realloc` to `size` cells. -/
def reallocCells (cells : List ℕ) (size : ℕ) : List ℕ :=
  cells.take size ++ List.replicate (size - cells.length) 0

/-- Append an id to a candidate array. A null pointer is `none`. -/
def enrollCells (cells : Option (List ℕ)) (id : ℕ) : Option (List ℕ) :=
  match cells with
  | none => some [1, id]
  | some cells =>
      let count := cells.getD 0 0
      let cells := reallocCells cells (count + 2)
      some ((cells.set 0 (u32 (count + 1))).set (count + 1) id)

/-- The ids that the second loop of `recalculate_all_scores` reads. -/
def candidateIds (cells : Option (List ℕ)) : List ℕ :=
  match cells with
  | none => []
  | some cells => (List.range (cells.getD 0 0)).map fun k => cells.getD (k + 1) 0

/-- The array of a list of ids. -/
def encodeIds (ids : List ℕ) : Option (List ℕ) :=
  if ids = [] then none else some (ids.length :: ids)

theorem candidateIds_encodeIds (ids : List ℕ) : candidateIds (encodeIds ids) = ids := by
  unfold encodeIds
  split
  · rename_i empty
    rw [empty]
    rfl
  · unfold candidateIds
    simp only [List.getD_cons_zero, List.getD_cons_succ]
    refine List.ext_getElem (by simp) fun k _ inside => ?_
    simp [List.getD_eq_getElem?_getD, inside]

/-- Enrolling appends, as long as the count does not wrap. -/
theorem enrollCells_encodeIds {ids : List ℕ} (few : ids.length + 1 < 2 ^ 32) (id : ℕ) :
    enrollCells (encodeIds ids) id = encodeIds (ids ++ [id]) := by
  unfold encodeIds
  rw [if_neg (List.append_ne_nil_of_right_ne_nil ids (List.cons_ne_nil id []))]
  split
  · rename_i empty
    rw [empty]
    rfl
  · unfold enrollCells reallocCells
    have count : u32 (ids.length + 1) = ids.length + 1 := Nat.mod_eq_of_lt few
    have room : ids.length + 2 - (ids.length + 1) = 1 := by omega
    simp only [List.getD_cons_zero, List.length_cons, count, room, List.replicate_one]
    rw [List.take_of_length_le (by simp)]
    simp

/-! ## The function on arrays -/

/-- The state with the candidate arrays. -/
structure RescoreState where
  afl : AflState
  cells : ℕ → Option (List ℕ)

/-- One round of the first loop of `recalculate_all_scores`. -/
def collectCells (runs : ℕ → RunOutcome) (s : RescoreState) (i : ℕ) : RescoreState where
  afl := collectCandidate runs s.afl i
  cells :=
    if (s.afl.queueBuf i).disabled then s.cells
    else fun j =>
      if j < s.afl.mapSize ∧ (fuzzRunTarget s.afl (runs i)).traceBits j ≠ 0 then
        enrollCells (s.cells j) (s.afl.queueBuf i).id
      else s.cells j

/-- The first loop of `recalculate_all_scores`. -/
def collectAllCells (runs : ℕ → RunOutcome) (s : RescoreState) : RescoreState :=
  let first := (s.afl.lastScoredIdx + 1).toNat
  (List.range' first (s.afl.queuedItems - first)).foldl (collectCells runs) s

/-- The inner loop over the candidates of index `i`. -/
def rescoreIndex (libm : Libm) (ids : List ℕ) (afl : AflState) (i : ℕ) : AflState :=
  ids.foldl (fun afl id => updateBitmapRescore libm afl id i) afl

/-- The second loop of `recalculate_all_scores`. -/
def rescoreAll (libm : Libm) (s : RescoreState) : AflState :=
  (List.range s.afl.mapSize).foldl
    (fun afl i => rescoreIndex libm (candidateIds (s.cells i)) afl i) s.afl

/-- `recalculate_all_scores`. -/
def recalculateCells (libm : Libm) (runs : ℕ → RunOutcome) (s : RescoreState) : RescoreState :=
  let s := collectAllCells runs s
  { s with afl := rescoreAll libm s }

theorem collectAllCells_afl (runs : ℕ → RunOutcome) (s : RescoreState) :
    (collectAllCells runs s).afl = collectCandidates runs s.afl :=
  (List.foldl_hom RescoreState.afl fun _ _ => rfl).symm

/-! ## What the arrays hold -/

variable {libm : Libm} {own : ℕ → Buffer} {runs : ℕ → RunOutcome} {seen : ℕ → Bool}
  {s t : RescoreState} {afl : AflState} {n i q : ℕ}

/-- The entries below `n` that were enabled when they were first executed and whose trace hits
index `i`, in increasing order. -/
def expectedIds (own : ℕ → Buffer) (seen : ℕ → Bool) (n i : ℕ) : List ℕ :=
  (List.range n).filter fun q => seen q && decide (own q i ≠ 0)

/-- The first `n` entries have been collected. -/
structure CollectedUpTo (own : ℕ → Buffer) (seen : ℕ → Bool) (n : ℕ) (s : RescoreState) : Prop where
  scored : s.afl.lastScoredIdx = n - 1
  ids : ∀ i < s.afl.mapSize, s.afl.topRatedCandidates i = expectedIds own seen n i
  cells : ∀ i < s.afl.mapSize, s.cells i = encodeIds (s.afl.topRatedCandidates i)

/-- The target is deterministic: running entry `q` hits what its trace hits. -/
def RunsOwn (own : ℕ → Buffer) (runs : ℕ → RunOutcome) (mapSize : ℕ) : Prop :=
  ∀ q, ∀ i < mapSize, (runs q).trace i ≠ 0 ↔ own q i ≠ 0

/-- What a run of the target keeps of the queue. -/
structure SameQueue (before after : AflState) : Prop where
  mapSize : after.mapSize = before.mapSize
  queuedItems : after.queuedItems = before.queuedItems
  id : ∀ q, (after.queueBuf q).id = (before.queueBuf q).id
  disabled : ∀ q, (after.queueBuf q).disabled = (before.queueBuf q).disabled

theorem sameQueue_fuzzRunTarget (afl : AflState) (outcome : RunOutcome) :
    SameQueue afl (fuzzRunTarget afl outcome) := by
  have kept {α : Type} (field : QueueEntry → α) (ignores : IgnoresCosts field) (q : ℕ) :=
    fuzzRunTarget_keeps ignores afl outcome q
  refine ⟨?_, ?_, kept QueueEntry.id ?_, kept QueueEntry.disabled ?_⟩
  · exact (minisFreed_fuzzRunTarget afl outcome).mapSize
  · exact fuzzRunTarget_field (fun _ _ _ _ => rfl) afl outcome
  · intro q resource value
    cases resource <;> rfl
  · intro q resource value
    cases resource <;> rfl

theorem sameQueue_collectCandidate (runs : ℕ → RunOutcome) (afl : AflState) (i : ℕ) :
    SameQueue afl (collectCandidate runs afl i) := by
  unfold collectCandidate
  dsimp only
  split
  · exact ⟨rfl, rfl, fun _ => rfl, fun _ => rfl⟩
  · have ran := sameQueue_fuzzRunTarget afl (runs i)
    exact ⟨ran.mapSize, ran.queuedItems, ran.id, ran.disabled⟩

/-- The next entry is expected at the end of a list, or not at all. -/
theorem expectedIds_succ (own : ℕ → Buffer) (seen : ℕ → Bool) (n i : ℕ) :
    expectedIds own seen (n + 1) i =
      expectedIds own seen n i ++ if seen n && decide (own n i ≠ 0) then [n] else [] := by
  unfold expectedIds
  rw [List.range_succ, List.filter_append, List.filter_singleton]
  cases seen n && decide (own n i ≠ 0) <;> rfl

theorem length_expectedIds_le (own : ℕ → Buffer) (seen : ℕ → Bool) (n i : ℕ) :
    (expectedIds own seen n i).length ≤ n :=
  (List.length_filter_le _ _).trans List.length_range.le

/-- One round collects the next entry. -/
theorem CollectedUpTo.step (collected : CollectedUpTo own seen n s) (few : n + 1 < 2 ^ 32)
    (id : (s.afl.queueBuf n).id = n) (scanned : seen n = !(s.afl.queueBuf n).disabled)
    (deterministic : RunsOwn own runs s.afl.mapSize) :
    CollectedUpTo own seen (n + 1) (collectCells runs s n) := by
  have size : (collectCells runs s n).afl.mapSize = s.afl.mapSize :=
    (sameQueue_collectCandidate runs s.afl n).mapSize
  have short (i : ℕ) := length_expectedIds_le own seen n i
  refine ⟨?_, ?_, ?_⟩
  · show (n : ℤ) = ((n + 1 : ℕ) : ℤ) - 1
    omega
  · intro i inside
    rw [size] at inside
    rw [expectedIds_succ, scanned, ← collected.ids i inside]
    unfold collectCells collectCandidate
    dsimp only
    cases off : (s.afl.queueBuf n).disabled with
    | true => simp
    | false =>
        have hits := deterministic n i inside
        simp only [Bool.false_eq_true, if_false, enrollCandidate, fuzzRunTarget_traceBits,
          fuzzRunTarget_candidates, (sameQueue_fuzzRunTarget s.afl (runs n)).mapSize, inside,
          true_and, hits, id, Bool.not_false, Bool.true_and, decide_eq_true_eq]
        split <;> simp
  · intro i inside
    rw [size] at inside
    have before := collected.cells i inside
    unfold collectCells collectCandidate
    dsimp only
    cases off : (s.afl.queueBuf n).disabled with
    | true => simpa using before
    | false =>
        simp only [Bool.false_eq_true, if_false, enrollCandidate, fuzzRunTarget_traceBits,
          fuzzRunTarget_candidates, (sameQueue_fuzzRunTarget s.afl (runs n)).mapSize, inside,
          true_and]
        split
        · rw [before, collected.ids i inside, enrollCells_encodeIds (by have := short i; omega)]
        · exact before

/-- The first loop collects the entries up to the end of the queue. -/
theorem CollectedUpTo.collect (k : ℕ) (collected : CollectedUpTo own seen n s)
    (few : n + k < 2 ^ 32)
    (entries : ∀ q, n ≤ q → q < n + k →
      (s.afl.queueBuf q).id = q ∧ seen q = !(s.afl.queueBuf q).disabled)
    (deterministic : RunsOwn own runs s.afl.mapSize) :
    CollectedUpTo own seen (n + k) ((List.range' n k).foldl (collectCells runs) s) := by
  induction k generalizing n s with
  | zero => exact collected
  | succ k ih =>
      have same := sameQueue_collectCandidate runs s.afl n
      obtain ⟨id, scanned⟩ := entries n le_rfl (by omega)
      have next := collected.step (by omega) id scanned deterministic
      rw [List.range'_succ, List.foldl_cons, Nat.add_comm k 1, ← Nat.add_assoc]
      refine ih next (by omega) (fun q low high => ?_) ?_
      · rw [show (collectCells runs s n).afl = collectCandidate runs s.afl n from rfl,
          same.id, same.disabled]
        exact entries q (by omega) (by omega)
      · rw [show (collectCells runs s n).afl = collectCandidate runs s.afl n from rfl,
          same.mapSize]
        exact deterministic

/-! ## The owners -/

/-- Entry `a` is at least as good as entry `b` in both factors. -/
def AtLeast (libm : Libm) (afl : AflState) (a b : ℕ) : Prop :=
  fuzzP2 afl (afl.queueBuf a) ≤ fuzzP2 afl (afl.queueBuf b) ∧
    favFactor libm afl (afl.queueBuf a) ≤ favFactor libm afl (afl.queueBuf b)

instance (libm : Libm) (afl : AflState) : DecidableRel (AtLeast libm afl) :=
  fun _ _ => inferInstanceAs (Decidable (_ ∧ _))

theorem AtLeast.refl (libm : Libm) (afl : AflState) (a : ℕ) : AtLeast libm afl a a :=
  ⟨le_rfl, le_rfl⟩

theorem AtLeast.trans (a b c : ℕ) (first : AtLeast libm afl a b) (second : AtLeast libm afl b c) :
    AtLeast libm afl a c :=
  ⟨first.1.trans second.1, first.2.trans second.2⟩

/-- What a contest reads of an entry. -/
def ratingOf (libm : Libm) (afl : AflState) (q : QueueEntry) : ℕ × ℕ × Bool :=
  (fuzzP2 afl q, favFactor libm afl q, q.disabled)

/-- The ratings are the same in both states. -/
def SameRatings (libm : Libm) (before after : AflState) : Prop :=
  ∀ q, ratingOf libm after (after.queueBuf q) = ratingOf libm before (before.queueBuf q)

theorem SameRatings.trans {before middle after : AflState} (first : SameRatings libm before middle)
    (second : SameRatings libm middle after) : SameRatings libm before after :=
  fun q => (second q).trans (first q)

theorem SameRatings.atLeast {before after : AflState} (same : SameRatings libm before after) :
    AtLeast libm after = AtLeast libm before := by
  funext a b
  have first := same a
  have second := same b
  simp only [ratingOf, Prod.mk.injEq] at first second
  rw [AtLeast, AtLeast, first.1, first.2.1, second.1, second.2.1]

theorem SameRatings.disabled {before after : AflState} (same : SameRatings libm before after)
    (q : ℕ) : (after.queueBuf q).disabled = (before.queueBuf q).disabled := by
  have rating := same q
  simp only [ratingOf, Prod.mk.injEq] at rating
  exact rating.2.2

theorem SameRatings.challenge {before after : AflState} (same : SameRatings libm before after) :
    Library.challenge (AtLeast libm after) = Library.challenge (AtLeast libm before) := by
  funext owner id
  unfold Library.challenge
  cases owner with
  | none => rfl
  | some top => exact if_congr (by rw [same.atLeast]) rfl rfl

/-- The entry differs in its references and its minimised trace only. -/
def SameButMini (before after : QueueEntry) : Prop :=
  ∃ references mini, after = { before with tcRef := references, traceMini := mini }

theorem sameButMini_modifyEntry (afl : AflState) (top : ℕ) (change : QueueEntry → QueueEntry)
    (kept : ∀ e, SameButMini e (change e)) (q : ℕ) :
    SameButMini (afl.queueBuf q) ((afl.modifyEntry top change).queueBuf q) := by
  by_cases same : q = top
  · rw [same, AflState.modifyEntry_queueBuf_self]
    exact kept _
  · rw [AflState.modifyEntry_queueBuf_of_ne _ _ _ same]
    exact ⟨_, _, rfl⟩

theorem sameButMini_contend (libm : Libm) (afl : AflState) (q p2 factor len i p : ℕ) :
    SameButMini (afl.queueBuf p) ((contend libm afl q p2 factor len i).queueBuf p) := by
  rw [contend_eq]
  split
  · have released : SameButMini (afl.queueBuf p) ((releaseOwner afl i).queueBuf p) := by
      unfold releaseOwner
      split
      · exact ⟨_, _, rfl⟩
      · exact sameButMini_modifyEntry afl _ _ (fun _ => ⟨_, _, rfl⟩) p
    have inserted : SameButMini ((releaseOwner afl i).queueBuf p)
        ((insertWinner (releaseOwner afl i) q i len).queueBuf p) :=
      sameButMini_modifyEntry (releaseOwner afl i) q _ (fun _ => ⟨_, _, rfl⟩) p
    obtain ⟨_, _, first⟩ := released
    obtain ⟨_, _, second⟩ := inserted
    exact ⟨_, _, second.trans (by rw [first])⟩
  · exact ⟨_, _, rfl⟩

/-- A contest changes no rating. -/
theorem sameRatings_contend (libm : Libm) (afl : AflState) (q p2 factor len i : ℕ) :
    SameRatings libm afl (contend libm afl q p2 factor len i) := by
  intro p
  obtain ⟨_, _, entry⟩ := sameButMini_contend libm afl q p2 factor len i p
  obtain ⟨_, _, _, same⟩ := contend_ratesOnly libm afl q p2 factor len i
  rw [entry, same]
  rfl

/-- A contest is a challenge of the owner. -/
theorem contend_challenges (libm : Libm) (afl : AflState) (q len i : ℕ) :
    (contend libm afl q (fuzzP2 afl (afl.queueBuf q)) (favFactor libm afl (afl.queueBuf q)) len
      i).topRated =
      Function.update afl.topRated i (challenge (AtLeast libm afl) (afl.topRated i) q) := by
  have topRated : (releaseOwner afl i).topRated = afl.topRated :=
    (minisFreed_releaseOwner afl i).topRated
  have inserted : (insertWinner (releaseOwner afl i) q i len).topRated =
      Function.update afl.topRated i (some q) := by
    rw [← topRated]
    rfl
  rw [contend_eq]
  unfold winsSlot challenge
  cases owner : afl.topRated i with
  | none => exact inserted
  | some top =>
      dsimp only
      by_cases wins : AtLeast libm afl q top
      · rw [if_pos wins, if_pos (by simpa [AtLeast] using wins)]
        exact inserted
      · rw [if_neg wins, if_neg (by simpa [AtLeast] using wins), ← owner, Function.update_eq_self]

theorem sameRatings_rescore (libm : Libm) (afl : AflState) (q i : ℕ) :
    SameRatings libm afl (updateBitmapRescore libm afl q i) := by
  unfold updateBitmapRescore
  split
  · exact fun _ => rfl
  · exact sameRatings_contend libm afl _ _ _ _ _

/-- The owner of index `i` after the given candidates have challenged it. Disabled entries do
not. -/
def champion (libm : Libm) (afl : AflState) (ids : List ℕ) (i : ℕ) : Option ℕ :=
  (ids.filter fun id => !(afl.queueBuf id).disabled).foldl (challenge (AtLeast libm afl))
    (afl.topRated i)

/-- The inner loop makes the champion the owner of its index, and keeps the other owners. -/
theorem rescoreIndex_topRated (libm : Libm) (ids : List ℕ) (afl : AflState) (i : ℕ) :
    SameRatings libm afl (rescoreIndex libm ids afl i) ∧
      (rescoreIndex libm ids afl i).topRated =
        Function.update afl.topRated i (champion libm afl ids i) := by
  induction ids generalizing afl with
  | nil => exact ⟨fun _ => rfl, (Function.update_eq_self i afl.topRated).symm⟩
  | cons id ids ih =>
      obtain ⟨same, owners⟩ := ih (updateBitmapRescore libm afl id i)
      have one := sameRatings_rescore libm afl id i
      refine ⟨one.trans same, owners.trans ?_⟩
      unfold champion
      simp only [one.disabled, one.challenge]
      cases off : (afl.queueBuf id).disabled with
      | true =>
          have skipped : updateBitmapRescore libm afl id i = afl := if_pos off
          rw [skipped, List.filter_cons_of_neg (by simp [off])]
      | false =>
          have contends : (updateBitmapRescore libm afl id i).topRated =
              Function.update afl.topRated i
                (challenge (AtLeast libm afl) (afl.topRated i) id) := by
            unfold updateBitmapRescore
            rw [if_neg (by simp [off])]
            exact contend_challenges libm afl id _ i
          rw [contends, List.filter_cons_of_pos (by simp [off]), List.foldl_cons,
            Function.update_self, Function.update_idem]

/-- After the second loop every index is owned by its champion. -/
theorem rescoreAll_topRated (libm : Libm) (s : RescoreState) :
    SameRatings libm s.afl (rescoreAll libm s) ∧ (rescoreAll libm s).topRated = fun i =>
      if i < s.afl.mapSize then champion libm s.afl (candidateIds (s.cells i)) i
      else s.afl.topRated i := by
  refine foldl_range_invariant (P := fun count t => SameRatings libm s.afl t ∧
    t.topRated = fun i =>
      if i < count then champion libm s.afl (candidateIds (s.cells i)) i else s.afl.topRated i)
    ⟨fun _ => rfl, ?_⟩ ?_
  · funext i
    rw [if_neg (Nat.not_lt_zero i)]
  · intro k _ t ⟨same, owners⟩
    obtain ⟨kept, replaced⟩ := rescoreIndex_topRated libm (candidateIds (s.cells k)) t k
    refine ⟨same.trans kept, ?_⟩
    have here : champion libm t (candidateIds (s.cells k)) k =
        champion libm s.afl (candidateIds (s.cells k)) k := by
      unfold champion
      simp only [same.disabled, same.challenge, owners, lt_irrefl, if_false]
    funext i
    rw [replaced, here, owners, Function.update_apply]
    by_cases last : i = k
    · subst last
      rw [if_pos rfl, if_pos (Nat.lt_succ_self i)]
    · rw [if_neg last]
      exact if_congr (by omega) rfl rfl

/-! ## Runs -/

/-- What a call of `recalculate_all_scores` leaves. Every array holds the number and the ids of
the expected entries, and an enabled candidate leaves an owner that it is not strictly better
than. -/
structure RescoreComplete (libm : Libm) (own : ℕ → Buffer) (seen : ℕ → Bool) (s : RescoreState) :
    Prop where
  candidates : ∀ i < s.afl.mapSize,
    s.cells i = encodeIds (expectedIds own seen s.afl.queuedItems i)
  undominated : ∀ i < s.afl.mapSize, ∀ q ∈ candidateIds (s.cells i),
    (s.afl.queueBuf q).disabled = false → ∃ top, s.afl.topRated i = some top ∧
      ¬ (fuzzP2 s.afl (s.afl.queueBuf q) ≤ fuzzP2 s.afl (s.afl.queueBuf top) ∧
        favFactor libm s.afl (s.afl.queueBuf q) ≤ favFactor libm s.afl (s.afl.queueBuf top) ∧
        (fuzzP2 s.afl (s.afl.queueBuf q) < fuzzP2 s.afl (s.afl.queueBuf top) ∨
          favFactor libm s.afl (s.afl.queueBuf q) < favFactor libm s.afl (s.afl.queueBuf top)))

/-- A session of the fuzzer. `seen` remembers which entries were enabled when a call first
scanned them. -/
structure RescoreSession where
  state : RescoreState
  seen : ℕ → Bool

/-- A call scans the entries that no earlier call has scanned. -/
def RescoreSession.recalculate (libm : Libm) (runs : ℕ → RunOutcome) (session : RescoreSession) :
    RescoreSession where
  state := recalculateCells libm runs session.state
  seen q :=
    if (q : ℤ) ≤ session.state.afl.lastScoredIdx then session.seen q
    else !(session.state.afl.queueBuf q).disabled

/-- A queue as `add_to_queue` builds it. -/
def QueueIds (afl : AflState) : Prop :=
  afl.queuedItems < 2 ^ 32 ∧ ∀ q < afl.queuedItems, (afl.queueBuf q).id = q

/-- What happens between two calls: the queue may grow, and entries, owners and the schedule may
change in any way. -/
structure Between (before after : RescoreState) : Prop where
  cells : after.cells = before.cells
  candidates : after.afl.topRatedCandidates = before.afl.topRatedCandidates
  lastScoredIdx : after.afl.lastScoredIdx = before.afl.lastScoredIdx
  mapSize : after.afl.mapSize = before.afl.mapSize
  grown : before.afl.queuedItems ≤ after.afl.queuedItems
  ids : QueueIds after.afl

/-- Sessions with a deterministic target. -/
def rescoreSessions (libm : Libm) (own : ℕ → Buffer) : TransitionSystem RescoreSession where
  init session := session.state.afl.lastScoredIdx = -1 ∧ QueueIds session.state.afl ∧
    ∀ i, session.state.afl.topRatedCandidates i = [] ∧ session.state.cells i = none
  step before after :=
    (∃ runs, RunsOwn own runs before.state.afl.mapSize ∧ after = before.recalculate libm runs) ∨
    (Between before.state after.state ∧ after.seen = before.seen)

/-- What every session keeps: a prefix of the queue has been collected. -/
def Scanned (own : ℕ → Buffer) (session : RescoreSession) : Prop :=
  QueueIds session.state.afl ∧ ∃ n ≤ session.state.afl.queuedItems,
    CollectedUpTo own session.seen n session.state

/-- The lists only depend on the entries below their bound. -/
theorem CollectedUpTo.congr {other : ℕ → Bool} (collected : CollectedUpTo own seen n s)
    (agree : ∀ q < n, other q = seen q) : CollectedUpTo own other n s := by
  refine ⟨collected.scored, fun i inside => ?_, collected.cells⟩
  rw [collected.ids i inside]
  refine List.filter_congr fun q below => ?_
  rw [agree q (List.mem_range.mp below)]

/-- The second loop keeps everything but the references, the minimised traces and the owners. -/
theorem rescoreAll_ratesOnly (libm : Libm) (s : RescoreState) :
    RatesOnly s.afl (rescoreAll libm s) := by
  refine foldl_invariant (P := RatesOnly s.afl) (RatesOnly.refl s.afl) fun i _ t same => ?_
  refine foldl_invariant (P := RatesOnly s.afl) same fun id _ t same => ?_
  unfold updateBitmapRescore
  split
  · exact same
  · exact same.trans (contend_ratesOnly _ _ _ _ _ _ _)

theorem rescoreAll_id (libm : Libm) (s : RescoreState) (q : ℕ) :
    ((rescoreAll libm s).queueBuf q).id = (s.afl.queueBuf q).id := by
  refine foldl_invariant (P := fun t : AflState => (t.queueBuf q).id = (s.afl.queueBuf q).id) rfl
    fun i _ t same => ?_
  refine foldl_invariant (P := fun t : AflState => (t.queueBuf q).id = (s.afl.queueBuf q).id) same
    fun id _ t same => ?_
  unfold updateBitmapRescore
  split
  · exact same
  · obtain ⟨_, _, entry⟩ := sameButMini_contend libm t id _ _ _ i q
    rw [entry]
    exact same

/-- The first loop of a call, in a session. -/
theorem Scanned.collect {session : RescoreSession} (scanned : Scanned own session) (libm : Libm)
    (deterministic : RunsOwn own runs session.state.afl.mapSize) :
    CollectedUpTo own (session.recalculate libm runs).seen session.state.afl.queuedItems
      (collectAllCells runs session.state) := by
  obtain ⟨⟨few, ids⟩, n, below, collected⟩ := scanned
  have first : (session.state.afl.lastScoredIdx + 1).toNat = n := by
    rw [collected.scored]
    omega
  have agree : CollectedUpTo own (session.recalculate libm runs).seen n session.state := by
    refine collected.congr fun q inside => if_pos ?_
    rw [collected.scored]
    omega
  have reached : n + (session.state.afl.queuedItems - n) = session.state.afl.queuedItems := by omega
  have all : CollectedUpTo own (session.recalculate libm runs).seen
      (n + (session.state.afl.queuedItems - n))
      ((List.range' n (session.state.afl.queuedItems - n)).foldl (collectCells runs)
        session.state) := by
    refine agree.collect _ (by omega) (fun q low high => ⟨ids q (by omega), if_neg ?_⟩)
      deterministic
    rw [collected.scored]
    omega
  rw [reached] at all
  unfold collectAllCells
  rw [first]
  exact all

theorem sameQueue_collectAllCells (runs : ℕ → RunOutcome) (s : RescoreState) :
    SameQueue s.afl (collectAllCells runs s).afl := by
  rw [collectAllCells_afl]
  refine foldl_invariant (P := SameQueue s.afl) ⟨rfl, rfl, fun _ => rfl, fun _ => rfl⟩
    fun i _ t same => ?_
  have next := sameQueue_collectCandidate runs t i
  exact ⟨next.mapSize.trans same.mapSize, next.queuedItems.trans same.queuedItems,
    fun q => (next.id q).trans (same.id q), fun q => (next.disabled q).trans (same.disabled q)⟩

/-- The second loop keeps the arrays. -/
theorem CollectedUpTo.rescore (collected : CollectedUpTo own seen n s) (libm : Libm) :
    CollectedUpTo own seen n { s with afl := rescoreAll libm s } := by
  obtain ⟨_, _, _, same⟩ := rescoreAll_ratesOnly libm s
  refine ⟨?_, ?_, ?_⟩ <;> dsimp only <;> rw [same]
  · exact collected.scored
  · exact collected.ids
  · exact collected.cells

theorem recalculateCells_queuedItems (libm : Libm) (runs : ℕ → RunOutcome) (s : RescoreState) :
    (recalculateCells libm runs s).afl.queuedItems = s.afl.queuedItems := by
  obtain ⟨_, _, _, same⟩ := rescoreAll_ratesOnly libm (collectAllCells runs s)
  unfold recalculateCells
  dsimp only
  rw [same]
  exact (sameQueue_collectAllCells runs s).queuedItems

theorem Scanned.recalculate {session : RescoreSession} (scanned : Scanned own session)
    (deterministic : RunsOwn own runs session.state.afl.mapSize) :
    Scanned own (session.recalculate libm runs) := by
  have length := recalculateCells_queuedItems libm runs session.state
  have entries := sameQueue_collectAllCells runs session.state
  refine ⟨⟨?_, fun q inside => ?_⟩, _, length.ge, (scanned.collect libm deterministic).rescore libm⟩
  · exact length.trans_lt scanned.1.1
  · exact (rescoreAll_id libm _ q).trans
      ((entries.id q).trans (scanned.1.2 q (inside.trans_eq length)))

theorem scanned_of_reachable {session : RescoreSession}
    (run : Reachable (rescoreSessions libm own) session) : Scanned own session := by
  refine run.invariant ?_ ?_
  · rintro session ⟨unscored, ids, empty⟩
    refine ⟨ids, 0, Nat.zero_le _, unscored, fun i _ => (empty i).1, fun i _ => ?_⟩
    rw [(empty i).1]
    exact (empty i).2
  · rintro before after - scanned (⟨runs, deterministic, rfl⟩ | ⟨between, same⟩)
    · exact scanned.recalculate deterministic
    · obtain ⟨-, n, below, collected⟩ := scanned
      refine ⟨between.ids, n, below.trans between.grown, ?_, fun i inside => ?_, fun i inside => ?_⟩
      · rw [between.lastScoredIdx]
        exact collected.scored
      · rw [between.mapSize] at inside
        rw [between.candidates, same]
        exact collected.ids i inside
      · rw [between.mapSize] at inside
        rw [between.candidates, between.cells]
        exact collected.cells i inside

/-- **The arrays stand for the lists** of `recalculateAllScores`, in every session. -/
theorem recalculateCells_eq {session : RescoreSession}
    (run : Reachable (rescoreSessions libm own) session)
    (deterministic : RunsOwn own runs session.state.afl.mapSize) :
    (recalculateCells libm runs session.state).afl =
      recalculateAllScores libm runs session.state.afl := by
  have collected := (scanned_of_reachable run).collect libm deterministic
  unfold recalculateCells recalculateAllScores rescoreAll rescoreCalls
  dsimp only
  rw [← collectAllCells_afl, List.foldl_flatMap]
  refine List.foldl_ext _ _ _ fun afl i inside => ?_
  rw [collected.cells i (List.mem_range.mp inside), candidateIds_encodeIds, List.foldl_map]
  rfl

/-- **Rescoring is complete.** After every call in every session with a deterministic target, the
array of each map index holds the count and the ids of the entries that were enabled when first
scanned and hit the index, in increasing order, and no enabled candidate is strictly better than
the owner. -/
theorem rescore_complete (libm : Libm) (own : ℕ → Buffer) (session : RescoreSession)
    (run : Reachable (rescoreSessions libm own) session) (runs : ℕ → RunOutcome)
    (deterministic : RunsOwn own runs session.state.afl.mapSize) :
    RescoreComplete libm own (session.recalculate libm runs).seen
      (session.recalculate libm runs).state := by
  have scanned := scanned_of_reachable run
  have collected := scanned.collect libm deterministic
  have after := collected.rescore libm
  have length := recalculateCells_queuedItems libm runs session.state
  have cells : ∀ i < (recalculateCells libm runs session.state).afl.mapSize,
      (recalculateCells libm runs session.state).cells i = encodeIds
        (expectedIds own (session.recalculate libm runs).seen session.state.afl.queuedItems i) :=
    fun i inside => (after.cells i inside).trans (congrArg encodeIds (after.ids i inside))
  refine ⟨fun i inside => ?_, fun i inside q member enabled => ?_⟩
  · rw [show (session.recalculate libm runs).state.afl.queuedItems = _ from length]
    exact cells i inside
  · obtain ⟨same, owners⟩ := rescoreAll_topRated libm (collectAllCells runs session.state)
    have size : i < (collectAllCells runs session.state).afl.mapSize := by
      obtain ⟨_, _, _, rated⟩ := rescoreAll_ratesOnly libm (collectAllCells runs session.state)
      have := congrArg AflState.mapSize rated
      exact inside.trans_eq this
    have challenger : q ∈ (candidateIds ((collectAllCells runs session.state).cells i)).filter
        fun id => !((collectAllCells runs session.state).afl.queueBuf id).disabled := by
      refine List.mem_filter.mpr ⟨member, ?_⟩
      rw [← same.disabled q]
      exact (Bool.not_eq_true' _).mpr enabled
    obtain ⟨top, champion, beaten⟩ := (foldl_challenge_undominated
      (AtLeast.refl libm (collectAllCells runs session.state).afl) AtLeast.trans _
      ((collectAllCells runs session.state).afl.topRated i)).1 q challenger
    refine ⟨top, ?_, ?_⟩
    · exact (congrFun owners i).trans ((if_pos size).trans champion)
    · rintro ⟨level, factor, strict⟩
      rw [← same.atLeast] at beaten
      have equal := beaten ⟨level, factor⟩
      rcases strict with less | less
      · exact absurd equal.1 (Nat.not_le_of_lt less)
      · exact absurd equal.2 (Nat.not_le_of_lt less)

/-- A queue of one entry, of ten bytes. -/
def scoredSeed : RescoreSession where
  state :=
    { afl := addToQueue { mapSize := 8 } 10 false
      cells := fun _ => none }
  seen _ := false

/-- Entry 0 hits index 0, and entry 1 the indices 0 and 1. -/
def nestedTrace (q : ℕ) : Buffer := fun i => if i ≤ q then 1 else 0

/-- A session after a call. -/
def nestedCall (session : RescoreSession) : RescoreSession :=
  session.recalculate Libm.identity fun q => { trace := nestedTrace q }

/-- After the first call a find of two bytes is added, as fast as the seed. -/
def grownSession : RescoreSession :=
  { nestedCall scoredSeed with
    state :=
      { (nestedCall scoredSeed).state with
        afl :=
          { addToQueue (nestedCall scoredSeed).state.afl 2 false with
            queueBuf := fun q => { (addToQueue (nestedCall scoredSeed).state.afl 2 false).queueBuf q
              with execUs := 5 } } } }

/-- The second call scans the find, which takes over the index of the seed. -/
theorem rescore_complete_grown :
    (nestedCall grownSession).state.cells 0 = some [2, 0, 1] ∧
      (nestedCall grownSession).state.cells 1 = some [1, 1] ∧
      grownSession.state.afl.topRated 0 = some 0 ∧
      (nestedCall grownSession).state.afl.topRated 0 = some 1 ∧
      RescoreComplete Libm.identity nestedTrace (nestedCall grownSession).seen
        (nestedCall grownSession).state := by
  have own (mapSize : ℕ) : RunsOwn nestedTrace (fun q => { trace := nestedTrace q }) mapSize :=
    fun _ _ _ => Iff.rfl
  have start : Reachable (rescoreSessions Libm.identity nestedTrace) scoredSeed := by
    refine .init ⟨rfl, ⟨by decide, fun q inside => ?_⟩, fun _ => ⟨rfl, rfl⟩⟩
    obtain rfl : q = 0 := Nat.lt_one_iff.mp inside
    rfl
  have called : Reachable (rescoreSessions Libm.identity nestedTrace) (nestedCall scoredSeed) :=
    start.step (.inl ⟨_, own _, rfl⟩)
  have items : grownSession.state.afl.queuedItems = 2 := by decide +kernel
  have ids : QueueIds grownSession.state.afl := by
    refine ⟨by rw [items]; decide, fun q inside => ?_⟩
    rw [items] at inside
    rcases Nat.le_one_iff_eq_zero_or_eq_one.mp (Nat.le_of_lt_succ inside) with rfl | rfl
    · decide +kernel
    · decide +kernel
  have grown : Reachable (rescoreSessions Libm.identity nestedTrace) grownSession := by
    refine called.step (.inr ⟨?_, rfl⟩)
    exact ⟨rfl, rfl, rfl, rfl, Nat.le_succ _, ids⟩
  exact ⟨by decide +kernel, by decide +kernel, by decide +kernel, by decide +kernel,
    rescore_complete Libm.identity nestedTrace grownSession grown _ (own _)⟩

end GreenFuzz.AflFuzz
