import GreenFuzz.AflFuzz.AliasTable
import GreenFuzz.Library.Fallible
import Mathlib.Algebra.BigOperators.Group.Finset.Basic
import Mathlib.Algebra.Order.BigOperators.Group.Finset
import Mathlib.Algebra.Order.Field.Rat
import Mathlib.Tactic.NormNum
import Mathlib.Tactic.NormNum.OfScientific
import Mathlib.Tactic.Positivity

/-!
# The weights of the alias table

The loops that set the weights keep all that the weights depend on, so the final weight of an
entry is a function of the state before `create_alias_table`: `entryWeight`, doubled for the
latest entries under `MMOPT`. The sum that the weights are divided by is taken before the
doubling (`collectWeights_collected`).
-/

set_option autoImplicit false

namespace GreenFuzz.AflFuzz

open Library

/-! ## Weights are positive -/

theorem timeFactor_pos (execUs avg : ℚ) : 0 < timeFactor execUs avg := by
  unfold timeFactor
  dsimp only
  positivity

theorem lenFactor_pos (len avg : ℚ) : 0 < lenFactor len avg := by
  unfold lenFactor
  dsimp only
  positivity

theorem bitmapFactor_pos (bitmapSize avg : ℚ) : 0 < bitmapFactor bitmapSize avg := by
  unfold bitmapFactor
  dsimp only
  positivity

theorem computeWeight_pos (libm : Libm) (afl : AflState) (avg : Averages) (q : QueueEntry) :
    0 < computeWeight libm afl avg q := by
  have time := timeFactor_pos q.execUs avg.execUs
  have len := lenFactor_pos q.len avg.len
  have bitmap := bitmapFactor_pos q.bitmapSize avg.bitmapSize
  have frequency : (0 : ℚ) < if Schedule.fast ≤ afl.schedule ∧ afl.schedule ≤ .rare ∧
      afl.nFuzz q.nFuzzEntry ≠ 0 then 1 / (libm.log10 (afl.nFuzz q.nFuzzEntry) + 1) else 1 := by
    split
    · rename_i hit
      have log := libm.log10_nonneg _ (Nat.pos_of_ne_zero hit.2.2)
      positivity
    · exact zero_lt_one
  unfold computeWeight
  dsimp only
  generalize (if Schedule.fast ≤ afl.schedule ∧ afl.schedule ≤ .rare ∧
    afl.nFuzz q.nFuzzEntry ≠ 0 then 1 / (libm.log10 (afl.nFuzz q.nFuzzEntry) + 1)
    else 1 : ℚ) = rarity at frequency ⊢
  positivity

/-! ## The score as a step -/

variable {libm : Libm}

/-- `calculate_score` changes nothing but the handicap of the entry. -/
theorem calculateScore_state {afl after : AflState} {q score : ℕ}
    (done : calculateScore libm afl q = .ok (score, after)) :
    ∃ handicap, after = afl.modifyEntry q fun e => { e with handicap := handicap } := by
  unfold calculateScore at done
  obtain ⟨_, -, done⟩ := bind_eq_ok_iff.mp done
  obtain ⟨_, -, done⟩ := bind_eq_ok_iff.mp done
  obtain ⟨_, -, done⟩ := bind_eq_ok_iff.mp done
  obtain ⟨_, -, done⟩ := bind_eq_ok_iff.mp done
  cases done
  exact ⟨_, rfl⟩

/-- The score is positive in every schedule but `COE`. -/
theorem calculateScore_pos {afl after : AflState} {q score : ℕ}
    (done : calculateScore libm afl q = .ok (score, after)) (other : afl.schedule ≠ .coe) :
    0 < score := by
  unfold calculateScore at done
  obtain ⟨_, -, done⟩ := bind_eq_ok_iff.mp done
  obtain ⟨_, -, done⟩ := bind_eq_ok_iff.mp done
  obtain ⟨_, -, done⟩ := bind_eq_ok_iff.mp done
  obtain ⟨perf, energy, done⟩ := bind_eq_ok_iff.mp done
  cases done
  unfold energyScore at energy
  obtain ⟨_, -, energy⟩ := bind_eq_ok_iff.mp energy
  obtain ⟨_, -, energy⟩ := bind_eq_ok_iff.mp energy
  cases energy
  split
  · exact Nat.one_pos
  · rename_i large
    exact Nat.pos_of_ne_zero fun zero => large ⟨other, by rw [zero]; exact Nat.one_pos⟩

/-! ## What the loops keep -/

/-- An entry without what the loops write. -/
def QueueEntry.unweighed (q : QueueEntry) : QueueEntry :=
  { q with weight := 0, perfScore := 0, handicap := 0 }

/-- Only weights, scores and handicaps differ. -/
structure Reweighed (before after : AflState) : Prop where
  rest : ∃ buf, after = { before with queueBuf := buf }
  entries : ∀ i, (after.queueBuf i).unweighed = (before.queueBuf i).unweighed

namespace Reweighed

variable {before middle after afl : AflState}

theorem refl (afl : AflState) : Reweighed afl afl := ⟨⟨afl.queueBuf, rfl⟩, fun _ => rfl⟩

theorem trans (first : Reweighed before middle) (second : Reweighed middle after) :
    Reweighed before after := by
  refine ⟨?_, fun i => (second.entries i).trans (first.entries i)⟩
  obtain ⟨_, rfl⟩ := first.rest
  obtain ⟨buf, rfl⟩ := second.rest
  exact ⟨buf, rfl⟩

theorem modifyEntry {i : ℕ} {change : QueueEntry → QueueEntry} (same : Reweighed before afl)
    (keeps : (change (afl.queueBuf i)).unweighed = (afl.queueBuf i).unweighed) :
    Reweighed before (afl.modifyEntry i change) := by
  refine same.trans ⟨⟨_, rfl⟩, ?_⟩
  exact AflState.modifyEntry_keeps afl i change QueueEntry.unweighed keeps

theorem disabled (same : Reweighed before after) (i : ℕ) :
    (after.queueBuf i).disabled = (before.queueBuf i).disabled := by
  have equal := congrArg QueueEntry.disabled (same.entries i)
  exact equal

theorem queuedItems (same : Reweighed before after) : after.queuedItems = before.queuedItems := by
  obtain ⟨buf, equal⟩ := same.rest
  rw [equal]

theorem schedule (same : Reweighed before after) : after.schedule = before.schedule := by
  obtain ⟨buf, equal⟩ := same.rest
  rw [equal]

/-- The weight does not depend on what the loops write. -/
theorem computeWeight (same : Reweighed before after) (avg : Averages) (i : ℕ) :
    computeWeight libm after avg (after.queueBuf i) =
      AflFuzz.computeWeight libm before avg (before.queueBuf i) := by
  have entries := same.entries i
  obtain ⟨buf, rfl⟩ := same.rest
  calc AflFuzz.computeWeight libm before avg (buf i)
      = AflFuzz.computeWeight libm before avg (buf i).unweighed := rfl
    _ = AflFuzz.computeWeight libm before avg (before.queueBuf i).unweighed := by rw [entries]
    _ = AflFuzz.computeWeight libm before avg (before.queueBuf i) := rfl

end Reweighed

/-! ## The loops -/

/-- The weight of an entry before the doubling, 0 if it is disabled. -/
def entryWeight (libm : Libm) (afl : AflState) (i : ℕ) : ℚ :=
  if (afl.queueBuf i).disabled then 0
  else computeWeight libm afl (averages libm afl) (afl.queueBuf i)

/-- `MMOPT` doubles the weight of the entry. -/
def Doubled (afl : AflState) (i : ℕ) : Prop :=
  (afl.schedule = .mmopt ∧ afl.queuedDiscovered ≠ 0) ∧ firstRecent afl ≤ i ∧
    (afl.queueBuf i).disabled = false

instance (afl : AflState) (i : ℕ) : Decidable (Doubled afl i) :=
  inferInstanceAs (Decidable ((_ ∧ _) ∧ _ ∧ _))

/-- The weight that `create_alias_table` leaves in an entry, 0 if it is disabled. -/
def finalWeight (afl : AflState) (i : ℕ) : ℚ :=
  if (afl.queueBuf i).disabled then 0
  else if afl.schedule < .rare then (afl.queueBuf i).weight
  else (afl.queueBuf i).perfScore

theorem entryWeight_nonneg (libm : Libm) (afl : AflState) (i : ℕ) : 0 ≤ entryWeight libm afl i := by
  unfold entryWeight
  split
  · exact le_rfl
  · exact (computeWeight_pos ..).le

theorem entryWeight_pos {afl : AflState} {i : ℕ} (enabled : (afl.queueBuf i).disabled = false) :
    0 < entryWeight libm afl i := by
  unfold entryWeight
  rw [if_neg (by simp [enabled])]
  exact computeWeight_pos ..

/-- One round of the loop that sets the weights. -/
theorem weighEntry_spec {avg : Averages} {afl after : AflState} {sum sum' : ℚ} {i : ℕ}
    (done : weighEntry libm avg (afl, sum) i = .ok (after, sum')) :
    Reweighed afl after ∧ (∀ j, j ≠ i → after.queueBuf j = afl.queueBuf j) ∧
      ((afl.queueBuf i).disabled = true → sum' = sum) ∧
      ((afl.queueBuf i).disabled = false →
        (after.queueBuf i).weight = computeWeight libm afl avg (afl.queueBuf i) ∧
          sum' = sum + computeWeight libm afl avg (afl.queueBuf i)) := by
  unfold weighEntry at done
  dsimp only at done
  by_cases off : (afl.queueBuf i).disabled = true
  · rw [if_pos off] at done
    cases done
    exact ⟨.refl afl, fun _ _ => rfl, fun _ => rfl, fun on => absurd off (by simp [on])⟩
  · rw [if_neg off] at done
    obtain ⟨⟨score, scored⟩, score_done, done⟩ := bind_eq_ok_iff.mp done
    obtain ⟨handicap, rfl⟩ := calculateScore_state score_done
    cases done
    refine ⟨?_, ?_, fun disabled => absurd disabled off, fun _ => ?_⟩
    · dsimp only
      refine .modifyEntry (.modifyEntry (.modifyEntry (.refl afl) ?_) ?_) ?_
      all_goals rfl
    · intro j other
      rw [AflState.modifyEntry_queueBuf_of_ne _ _ _ other,
        AflState.modifyEntry_queueBuf_of_ne _ _ _ other,
        AflState.modifyEntry_queueBuf_of_ne _ _ _ other]
    · simp

/-- One round of the loop that sets the scores. -/
theorem scoreEntry_spec {afl after : AflState} {sum sum' : ℚ} {i : ℕ}
    (done : scoreEntry libm (afl, sum) i = .ok (after, sum')) (other : afl.schedule ≠ .coe) :
    Reweighed afl after ∧ (∀ j, j ≠ i → after.queueBuf j = afl.queueBuf j) ∧
      ((afl.queueBuf i).disabled = true → sum' = sum) ∧
      ((afl.queueBuf i).disabled = false →
        0 < (after.queueBuf i).perfScore ∧ sum' = sum + (after.queueBuf i).perfScore) := by
  unfold scoreEntry at done
  dsimp only at done
  by_cases off : (afl.queueBuf i).disabled = true
  · rw [if_pos off] at done
    cases done
    exact ⟨.refl afl, fun _ _ => rfl, fun _ => rfl, fun on => absurd off (by simp [on])⟩
  · rw [if_neg off] at done
    obtain ⟨⟨score, scored⟩, score_done, done⟩ := bind_eq_ok_iff.mp done
    have positive := calculateScore_pos score_done other
    obtain ⟨handicap, rfl⟩ := calculateScore_state score_done
    cases done
    refine ⟨?_, ?_, fun disabled => absurd disabled off, fun _ => ?_⟩
    · dsimp only
      refine .modifyEntry (.modifyEntry (.refl afl) ?_) ?_
      all_goals rfl
    · intro j other
      rw [AflState.modifyEntry_queueBuf_of_ne _ _ _ other,
        AflState.modifyEntry_queueBuf_of_ne _ _ _ other]
    · simpa using positive

/-- The loop that sets the weights of the enabled entries and adds them up. -/
theorem weighEntries_spec {afl after : AflState} {sum : ℚ}
    (done : (List.range afl.queuedItems).foldlM (weighEntry libm (averages libm afl)) (afl, 0) =
      .ok (after, sum)) :
    Reweighed afl after ∧
      (∀ i < afl.queuedItems, (afl.queueBuf i).disabled = false →
        (after.queueBuf i).weight = entryWeight libm afl i) ∧
      sum = ∑ i ∈ Finset.range afl.queuedItems, entryWeight libm afl i := by
  refine foldlM_range_invariant (P := fun k state => Reweighed afl state.1 ∧
    (∀ i < k, (afl.queueBuf i).disabled = false →
      (state.1.queueBuf i).weight = entryWeight libm afl i) ∧
    state.2 = ∑ i ∈ Finset.range k, entryWeight libm afl i) ?_ ?_ done
  · exact ⟨.refl afl, fun i below => absurd below (Nat.not_lt_zero i), rfl⟩
  · rintro k - ⟨before, sum⟩ ⟨next, sum'⟩ ⟨same, weights, total⟩ taken
    obtain ⟨kept, elsewhere, off, on⟩ := weighEntry_spec taken
    dsimp only at same weights total ⊢
    refine ⟨same.trans kept, ?_, ?_⟩
    · intro i below enabled
      rcases Nat.lt_succ_iff_lt_or_eq.mp below with earlier | rfl
      · rw [elsewhere i earlier.ne]
        exact weights i earlier enabled
      · rw [(on ((same.disabled i).trans enabled)).1, same.computeWeight, entryWeight,
          if_neg (by simp [enabled])]
    · rw [Finset.sum_range_succ, ← total, entryWeight]
      cases flag : (afl.queueBuf k).disabled with
      | true => rw [off ((same.disabled k).trans flag), if_pos rfl, add_zero]
      | false =>
          rw [(on ((same.disabled k).trans flag)).2, same.computeWeight, if_neg Bool.false_ne_true]

/-- The loop that sets the scores of the enabled entries and adds them up. -/
theorem scoreEntries_spec {afl after : AflState} {sum : ℚ} (other : ¬ afl.schedule < .rare)
    (done : (List.range afl.queuedItems).foldlM (scoreEntry libm) (afl, 0) = .ok (after, sum)) :
    Reweighed afl after ∧
      (∀ i < afl.queuedItems, (afl.queueBuf i).disabled = false → 0 < finalWeight after i) ∧
      sum = ∑ i ∈ Finset.range afl.queuedItems, finalWeight after i := by
  have final {state : AflState} (same : Reweighed afl state) (i : ℕ) : finalWeight state i =
      if (afl.queueBuf i).disabled then 0 else (state.queueBuf i).perfScore := by
    unfold finalWeight
    rw [same.disabled, same.schedule, if_neg other]
  refine foldlM_range_invariant (P := fun k state => Reweighed afl state.1 ∧
    (∀ i < k, (afl.queueBuf i).disabled = false → 0 < finalWeight state.1 i) ∧
    state.2 = ∑ i ∈ Finset.range k, finalWeight state.1 i) ?_ ?_ done
  · exact ⟨.refl afl, fun i below => absurd below (Nat.not_lt_zero i), rfl⟩
  · rintro k - ⟨before, sum⟩ ⟨next, sum'⟩ ⟨same, weights, total⟩ taken
    dsimp only at same weights total ⊢
    have schedule : before.schedule ≠ .coe := by
      intro coe
      rw [same.schedule] at coe
      exact other (by rw [coe]; decide)
    obtain ⟨kept, elsewhere, off, on⟩ := scoreEntry_spec taken schedule
    have earlier_final (i : ℕ) (earlier : i < k) : finalWeight next i = finalWeight before i := by
      rw [final (same.trans kept), final same, elsewhere i earlier.ne]
    refine ⟨same.trans kept, ?_, ?_⟩
    · intro i below enabled
      rcases Nat.lt_succ_iff_lt_or_eq.mp below with earlier | rfl
      · rw [earlier_final i earlier]
        exact weights i earlier enabled
      · rw [final (same.trans kept), if_neg (by simp [enabled])]
        exact (on ((same.disabled i).trans enabled)).1
    · rw [Finset.sum_range_succ,
        Finset.sum_congr rfl fun i member => earlier_final i (Finset.mem_range.mp member), ← total,
        final (same.trans kept)]
      cases flag : (afl.queueBuf k).disabled with
      | true => rw [off ((same.disabled k).trans flag), if_pos rfl, add_zero]
      | false => rw [(on ((same.disabled k).trans flag)).2, if_neg Bool.false_ne_true]

variable {afl after : AflState} {i : ℕ} {P : ℕ → ℚ} {sum : ℚ}

/-! ## The doubling -/

theorem doubleWeight_reweighed (afl : AflState) (i : ℕ) : Reweighed afl (doubleWeight afl i) := by
  unfold doubleWeight
  split
  · exact .refl afl
  · exact .modifyEntry (.refl afl) rfl

theorem doubleWeight_weight (afl : AflState) (i j : ℕ) :
    ((doubleWeight afl i).queueBuf j).weight =
      if j = i ∧ (afl.queueBuf i).disabled = false then (afl.queueBuf j).weight * 2
      else (afl.queueBuf j).weight := by
  unfold doubleWeight
  cases flag : (afl.queueBuf i).disabled with
  | true => simp
  | false =>
      by_cases here : j = i
      · subst here
        simp
      · simp [here]

theorem foldl_doubleWeight {items : List ℕ} (distinct : items.Nodup) (afl : AflState) :
    Reweighed afl (items.foldl doubleWeight afl) ∧
      ∀ j, ((items.foldl doubleWeight afl).queueBuf j).weight =
        if j ∈ items ∧ (afl.queueBuf j).disabled = false then (afl.queueBuf j).weight * 2
        else (afl.queueBuf j).weight := by
  induction items generalizing afl with
  | nil => exact ⟨.refl afl, fun j => by simp⟩
  | cons i items ih =>
      obtain ⟨fresh, distinct⟩ := List.nodup_cons.mp distinct
      obtain ⟨same, weights⟩ := ih distinct (doubleWeight afl i)
      refine ⟨(doubleWeight_reweighed afl i).trans same, fun j => ?_⟩
      rw [List.foldl_cons, weights j, (doubleWeight_reweighed afl i).disabled,
        doubleWeight_weight]
      by_cases here : j = i
      · subst here
        simp [fresh]
      · simp [here]

theorem doubleRecent_spec (afl : AflState) :
    Reweighed afl (doubleRecent afl) ∧ ∀ i < afl.queuedItems,
      ((doubleRecent afl).queueBuf i).weight =
        if Doubled afl i then (afl.queueBuf i).weight * 2 else (afl.queueBuf i).weight := by
  unfold doubleRecent
  by_cases recent : afl.schedule = .mmopt ∧ afl.queuedDiscovered ≠ 0
  · obtain ⟨same, weights⟩ := foldl_doubleWeight (List.nodup_range' (s := firstRecent afl)
      (n := afl.queuedItems - firstRecent afl)) afl
    rw [if_pos recent]
    refine ⟨same, fun i queued => ?_⟩
    have listed : i ∈ List.range' (firstRecent afl) (afl.queuedItems - firstRecent afl) ↔
        firstRecent afl ≤ i := by
      rw [List.mem_range'_1]
      omega
    have doubled : i ∈ List.range' (firstRecent afl) (afl.queuedItems - firstRecent afl) ∧
        (afl.queueBuf i).disabled = false ↔ Doubled afl i :=
      (and_congr_left' listed).trans (and_iff_right recent).symm
    rw [weights i, if_congr doubled rfl rfl]
  · rw [if_neg recent]
    refine ⟨.refl afl, fun i _ => ?_⟩
    rw [if_neg fun doubled => recent doubled.1]

theorem Reweighed.doubled_iff {before after : AflState} (same : Reweighed before after) (i : ℕ) :
    Doubled after i ↔ Doubled before i := by
  have flag := same.disabled i
  obtain ⟨buf, rfl⟩ := same.rest
  unfold Doubled
  rw [flag]
  rfl

/-! ## The collected weights -/

/-- The final weight of an entry, from the state before. -/
def boostedWeight (libm : Libm) (afl : AflState) (i : ℕ) : ℚ :=
  if Doubled afl i then entryWeight libm afl i * 2 else entryWeight libm afl i

theorem entryWeight_le_boostedWeight (libm : Libm) (afl : AflState) (i : ℕ) :
    entryWeight libm afl i ≤ boostedWeight libm afl i := by
  have nonneg := entryWeight_nonneg libm afl i
  unfold boostedWeight
  split
  · exact le_mul_of_one_le_right nonneg one_le_two
  · exact le_rfl

theorem entryWeight_lt_boostedWeight {afl : AflState} (doubled : Doubled afl i) :
    entryWeight libm afl i < boostedWeight libm afl i := by
  have positive : 0 < entryWeight libm afl i := entryWeight_pos doubled.2.2
  unfold boostedWeight
  rw [if_pos doubled]
  exact lt_mul_of_one_lt_right positive one_lt_two

theorem finalWeight_of_disabled {afl : AflState} (disabled : (afl.queueBuf i).disabled = true) :
    finalWeight afl i = 0 :=
  if_pos disabled

theorem finalWeight_nonneg (same : Reweighed afl after)
    (positive : ∀ i < afl.queuedItems, (afl.queueBuf i).disabled = false → 0 < finalWeight after i)
    (queued : i < afl.queuedItems) : 0 ≤ finalWeight after i := by
  cases flag : (afl.queueBuf i).disabled with
  | true => rw [finalWeight_of_disabled ((same.disabled i).trans flag)]
  | false => exact (positive i queued flag).le

/-- The final weights, and the sum that they are divided by. -/
structure Collected (libm : Libm) (afl after : AflState) (P : ℕ → ℚ) (sum : ℚ) : Prop where
  same : Reweighed afl after
  mass : ∀ i, P i = finalWeight after i * afl.queuedItems / sum
  positive : ∀ i < afl.queuedItems, (afl.queueBuf i).disabled = false → 0 < finalWeight after i
  sum_pos : (∃ i < afl.queuedItems, (afl.queueBuf i).disabled = false) → 0 < sum
  balanced : (∀ i < afl.queuedItems, ¬ Doubled afl i) →
    sum = ∑ i ∈ Finset.range afl.queuedItems, finalWeight after i
  excess : (∃ i < afl.queuedItems, Doubled afl i) →
    sum < ∑ i ∈ Finset.range afl.queuedItems, finalWeight after i
  boosted : afl.schedule < .rare → ∀ i < afl.queuedItems,
    finalWeight after i = boostedWeight libm afl i

theorem Collected.pos_iff (collected : Collected libm afl after P sum)
    (queued : i < afl.queuedItems) :
    0 < finalWeight after i ↔ (afl.queueBuf i).disabled = false := by
  cases flag : (afl.queueBuf i).disabled with
  | true => simp [finalWeight_of_disabled ((collected.same.disabled i).trans flag)]
  | false => simpa using collected.positive i queued flag

theorem Collected.sum_le (collected : Collected libm afl after P sum) :
    sum ≤ ∑ i ∈ Finset.range afl.queuedItems, finalWeight after i := by
  by_cases doubled : ∃ i < afl.queuedItems, Doubled afl i
  · exact (collected.excess doubled).le
  · exact (collected.balanced fun i queued twice => doubled ⟨i, queued, twice⟩).le

/-- The weights that `create_alias_table` collects. -/
theorem collectWeights_collected (done : collectWeights libm afl = .ok (after, P)) :
    ∃ sum, Collected libm afl after P sum := by
  unfold collectWeights at done
  by_cases low : afl.schedule < .rare
  · rw [if_pos low] at done
    obtain ⟨⟨weighed, sum⟩, loop, done⟩ := bind_eq_ok_iff.mp done
    obtain ⟨same, weights, total⟩ := weighEntries_spec loop
    obtain ⟨kept, doubled⟩ := doubleRecent_spec weighed
    cases done
    have reweighed := same.trans kept
    have schedule : (doubleRecent weighed).schedule < .rare := reweighed.schedule ▸ low
    have final (i : ℕ) (queued : i < afl.queuedItems) :
        finalWeight (doubleRecent weighed) i = boostedWeight libm afl i := by
      unfold finalWeight
      rw [reweighed.disabled, if_pos schedule, doubled i (same.queuedItems ▸ queued)]
      cases flag : (afl.queueBuf i).disabled with
      | true =>
          have off : entryWeight libm afl i = 0 := if_pos flag
          unfold boostedWeight
          rw [off, zero_mul, ite_self, if_pos rfl]
      | false =>
          rw [if_neg Bool.false_ne_true, weights i queued flag]
          exact if_congr (same.doubled_iff i) rfl rfl
    have finals : ∑ i ∈ Finset.range afl.queuedItems, finalWeight (doubleRecent weighed) i =
        ∑ i ∈ Finset.range afl.queuedItems, boostedWeight libm afl i :=
      Finset.sum_congr rfl fun i member => final i (Finset.mem_range.mp member)
    refine ⟨sum, reweighed, ?_, ?_, ?_, ?_, ?_, fun _ => final⟩
    · intro i
      unfold finalWeight
      rw [if_pos schedule]
      split
      · rw [zero_mul, zero_div]
      · rfl
    · intro i queued enabled
      rw [final i queued]
      exact (entryWeight_pos enabled).trans_le (entryWeight_le_boostedWeight libm afl i)
    · rintro ⟨i, queued, enabled⟩
      rw [total]
      exact Finset.sum_pos' (fun j _ => entryWeight_nonneg libm afl j)
        ⟨i, Finset.mem_range.mpr queued, entryWeight_pos enabled⟩
    · intro none
      rw [finals, total]
      refine Finset.sum_congr rfl fun i member => ?_
      exact (if_neg (none i (Finset.mem_range.mp member))).symm
    · rintro ⟨i, queued, doubled⟩
      rw [finals, total]
      exact Finset.sum_lt_sum (fun j _ => entryWeight_le_boostedWeight libm afl j)
        ⟨i, Finset.mem_range.mpr queued, entryWeight_lt_boostedWeight doubled⟩
  · rw [if_neg low] at done
    obtain ⟨⟨scored, sum⟩, loop, done⟩ := bind_eq_ok_iff.mp done
    obtain ⟨same, positive, total⟩ := scoreEntries_spec low loop
    cases done
    have schedule : ¬ after.schedule < .rare := same.schedule ▸ low
    have plain (i : ℕ) : ¬ Doubled afl i := by
      rintro ⟨⟨mmopt, -⟩, -⟩
      rw [mmopt] at low
      exact low (by decide)
    refine ⟨sum, same, ?_, positive, ?_, fun _ => total, ?_, fun below => absurd below low⟩
    · intro i
      unfold finalWeight
      rw [if_neg schedule]
      split
      · rw [zero_mul, zero_div]
      · rfl
    · rintro ⟨i, queued, enabled⟩
      rw [total]
      exact Finset.sum_pos' (fun j member => finalWeight_nonneg same positive
        (Finset.mem_range.mp member)) ⟨i, Finset.mem_range.mpr queued, positive i queued enabled⟩
    · rintro ⟨i, -, doubled⟩
      exact absurd doubled (plain i)

end GreenFuzz.AflFuzz
