import GreenFuzz.AflFuzz.Duplicates
import GreenFuzz.AflFuzz.QueueCounters

/-!
# One seed for each trace map

The seeds that are enabled, calibrated and have one checksum form a class. The pass over the
duplicates leaves exactly one seed of each class enabled, the shortest, and of several shortest
the first. It leaves the other entries as they are, and the counters of the queue go down by the
number of the entries it disables, if these were not retired before
(`dropDuplicates_keeps_best`).
-/

set_option autoImplicit false

namespace GreenFuzz.AflFuzz

open Library

variable {afl start : AflState} {cksum p q : ℕ}

/-! ## Classes -/

/-- The seeds that are enabled and calibrated and have the checksum, which is not 0. -/
def duplicateClass (afl : AflState) (cksum : ℕ) : Set ℕ :=
  {p | p < afl.queuedItems ∧ (afl.queueBuf p).comparable = true ∧
    (afl.queueBuf p).execCksum = cksum}

/-- The shortest seed of a class, and of several shortest the first. -/
structure IsBest (afl : AflState) (cksum p : ℕ) : Prop where
  member : p ∈ duplicateClass afl cksum
  least : ∀ r ∈ duplicateClass afl cksum, (afl.queueBuf p).len < (afl.queueBuf r).len ∨
    (afl.queueBuf p).len = (afl.queueBuf r).len ∧ p ≤ r

/-- A seed of a class is the best one if no other is kept before it. -/
theorem isBest_iff (member : p ∈ duplicateClass afl cksum) :
    IsBest afl cksum p ↔ ¬ Superseded afl p := by
  obtain ⟨queued, comparable, same⟩ := member
  constructor
  · rintro best ⟨r, better⟩
    have least := best.least r ⟨better.queued, better.comparable, better.cksum.trans same⟩
    have shorter := better.shorter
    omega
  · intro kept
    refine ⟨⟨queued, comparable, same⟩, fun r other => ?_⟩
    obtain ⟨queued', comparable', same'⟩ := other
    by_contra worse
    exact kept ⟨r, queued', comparable', comparable, same'.trans same.symm, by omega⟩

theorem IsBest.unique (best : IsBest afl cksum p) (other : IsBest afl cksum q) : p = q := by
  have first := best.least q other.member
  have second := other.least p best.member
  omega

/-- A class that is not empty has a best seed. -/
theorem exists_isBest (nonempty : (duplicateClass afl cksum).Nonempty) :
    ∃ p, IsBest afl cksum p := by
  obtain ⟨q, member⟩ := nonempty
  by_cases superseded : Superseded afl q
  · obtain ⟨r, better, kept⟩ := superseded.exists_kept
    have member' : r ∈ duplicateClass afl cksum :=
      ⟨better.queued, better.comparable, better.cksum.trans member.2.2⟩
    exact ⟨r, (isBest_iff member').mpr kept⟩
  · exact ⟨q, (isBest_iff member).mpr superseded⟩

/-! ## Counting what is lost -/

/-- The entry was enabled and is disabled now. -/
def LosesEntry (before after : AflState) (p : ℕ) : Prop :=
  (before.queueBuf p).disabled = false ∧ (after.queueBuf p).disabled = true

instance (before after : AflState) : DecidablePred (LosesEntry before after) := fun _ =>
  inferInstanceAs (Decidable (_ ∧ _))

/-- The number of the entries that were enabled and are disabled now. -/
def lostEntries (before after : AflState) : ℕ :=
  Nat.count (LosesEntry before after) before.queuedItems

/-- All entries that were disabled had not been fuzzed. -/
def LosesUnfuzzed (before after : AflState) : Prop :=
  ∀ p < before.queuedItems, LosesEntry before after p → (before.queueBuf p).wasFuzzed = false

/-- A `u32` was lowered by `k` and is a `u32` still. -/
structure LoweredBy (k before after : ℕ) : Prop where
  modulo : u32 (after + k) = u32 before
  small : before < 2 ^ 32 → after < 2 ^ 32

/-- A `u32` went down by exactly `k`. -/
def DropsBy (k before after : ℕ) : Prop :=
  u32 (after + k) = u32 before ∧ (before < 2 ^ 32 → k ≤ before → after + k = before)

theorem LoweredBy.dropsBy {k before after : ℕ} (lowered : LoweredBy k before after) :
    DropsBy k before after := by
  have modulo := lowered.modulo
  refine ⟨modulo, fun small enough => ?_⟩
  have fits := lowered.small small
  simp only [u32] at modulo
  omega

theorem LoweredBy.succ {k before after : ℕ} (lowered : LoweredBy k before after) :
    LoweredBy (k + 1) before (u32Pred after) := by
  have modulo := lowered.modulo
  constructor
  · simp only [u32, u32Pred] at modulo ⊢
    omega
  · intro _
    exact Nat.mod_lt _ (by decide)

/-- What dropping seeds does to the counters and to the entries. -/
structure CountsLost (start afl : AflState) : Prop where
  items : afl.queuedItems = start.queuedItems
  outside : ∀ p, start.queuedItems ≤ p → afl.queueBuf p = start.queueBuf p
  stays : ∀ p, (start.queueBuf p).disabled = true → (afl.queueBuf p).disabled = true
  fuzzed : ∀ p, (afl.queueBuf p).disabled = (start.queueBuf p).disabled →
    (afl.queueBuf p).wasFuzzed = (start.queueBuf p).wasFuzzed
  active : LosesUnfuzzed start afl →
    LoweredBy (lostEntries start afl) start.activeItems afl.activeItems
  pending : LosesUnfuzzed start afl →
    LoweredBy (lostEntries start afl) start.pendingNotFuzzed afl.pendingNotFuzzed

theorem CountsLost.refl (afl : AflState) : CountsLost afl afl := by
  have none : lostEntries afl afl = 0 :=
    Nat.count_iff_forall_not.mpr fun p _ lost =>
      absurd (lost.1.symm.trans lost.2) Bool.false_ne_true
  refine ⟨rfl, fun _ _ => rfl, fun _ => id, fun _ _ => rfl, fun _ => ?_, fun _ => ?_⟩
  · exact none ▸ ⟨rfl, id⟩
  · exact none ▸ ⟨rfl, id⟩

/-- The step lemma: another seed is dropped. -/
theorem CountsLost.drop (counts : CountsLost start afl) (inside : q < start.queuedItems)
    (enabled : (afl.queueBuf q).disabled = false) :
    CountsLost start (disableEntry (retireEntry afl q) q) := by
  have other (p : ℕ) (differ : p ≠ q) := drop_queueBuf_of_ne afl differ
  have out : ((disableEntry (retireEntry afl q) q).queueBuf q).disabled = true := by
    simp [disableEntry]
  have was : (start.queueBuf q).disabled = false := by
    by_contra disabled
    have still := counts.stays q (Bool.eq_true_of_not_eq_false disabled)
    exact absurd (enabled.symm.trans still) Bool.false_ne_true
  have one :
      lostEntries start (disableEntry (retireEntry afl q) q) = lostEntries start afl + 1 := by
    refine count_gain inside (fun lost => ?_) ⟨was, out⟩ fun p _ differ => ?_
    · exact absurd (enabled.symm.trans lost.2) Bool.false_ne_true
    · rw [LosesEntry, LosesEntry, other p differ]
  have before (lost : LosesUnfuzzed start (disableEntry (retireEntry afl q) q)) :
      LosesUnfuzzed start afl ∧ (afl.queueBuf q).wasFuzzed = false := by
    refine ⟨fun p below gone => ?_, ?_⟩
    · have differ : p ≠ q := by
        rintro rfl
        exact absurd (enabled.symm.trans gone.2) Bool.false_ne_true
      refine lost p below ?_
      rwa [LosesEntry, other p differ]
    · rw [counts.fuzzed q (enabled.trans was.symm)]
      exact lost q inside ⟨was, out⟩
  have items : (disableEntry (retireEntry afl q) q).queuedItems = afl.queuedItems :=
    (drops_drop afl q).items
  refine ⟨items.trans counts.items, fun p beyond => ?_, fun p disabled => ?_, fun p same => ?_,
    fun lost => ?_, fun lost => ?_⟩
  · rw [other p (by omega)]
    exact counts.outside p beyond
  · exact (drops_drop afl q).disabled p (counts.stays p disabled)
  · by_cases here : p = q
    · rw [here, out, was] at same
      cases same
    · rw [other p here] at same ⊢
      exact counts.fuzzed p same
  · obtain ⟨earlier, unfuzzed⟩ := before lost
    rw [one, retireEntry_of_unfuzzed unfuzzed]
    exact (counts.active earlier).succ
  · obtain ⟨earlier, unfuzzed⟩ := before lost
    rw [one, retireEntry_of_unfuzzed unfuzzed]
    exact (counts.pending earlier).succ

/-- The run lemma: the whole pass. -/
theorem countsLost_dropDuplicates (afl : AflState) (queue : ℕ) :
    CountsLost afl (dropDuplicates afl queue) := by
  have passed := dropDuplicates_rule (P := CountsLost afl) CountsLost.items
    (fun counts inside comparable =>
      counts.drop inside (QueueEntry.comparable.enabled comparable))
    afl (CountsLost.refl afl)
  unfold dropDuplicates
  dsimp only
  split
  · exact ⟨passed.items, passed.outside, passed.stays, passed.fuzzed, passed.active, passed.pending⟩
  · exact passed

/-- **The pass over the duplicates keeps the best seed of each class** and no other one, changes
no other entry's flag, and lowers the counters by the number of the seeds it disables. -/
theorem dropDuplicates_keeps_best (afl : AflState) (queue : ℕ) :
    (∀ cksum, (duplicateClass afl cksum).Nonempty →
      ∃! p, p ∈ duplicateClass afl cksum ∧
        ((dropDuplicates afl queue).queueBuf p).disabled = false) ∧
    (∀ cksum, ∀ p ∈ duplicateClass afl cksum,
      ((dropDuplicates afl queue).queueBuf p).disabled = false ↔ IsBest afl cksum p) ∧
    (∀ p, (∀ cksum, p ∉ duplicateClass afl cksum) →
      ((dropDuplicates afl queue).queueBuf p).disabled = (afl.queueBuf p).disabled) ∧
    (LosesUnfuzzed afl (dropDuplicates afl queue) →
      DropsBy (lostEntries afl (dropDuplicates afl queue)) afl.activeItems
          (dropDuplicates afl queue).activeItems ∧
        DropsBy (lostEntries afl (dropDuplicates afl queue)) afl.pendingNotFuzzed
          (dropDuplicates afl queue).pendingNotFuzzed) := by
  have counts := countsLost_dropDuplicates afl queue
  have kept (cksum p : ℕ) (member : p ∈ duplicateClass afl cksum) :
      ((dropDuplicates afl queue).queueBuf p).disabled = false ↔ IsBest afl cksum p := by
    have enabled := QueueEntry.comparable.enabled member.2.1
    rw [isBest_iff member, ← Bool.not_eq_true, dropDuplicates_disabled_iff queue member.1,
      show (afl.queueBuf p).disabled = false from enabled]
    simp
  refine ⟨fun cksum nonempty => ?_, kept, fun p alone => ?_, fun unfuzzed =>
    ⟨(counts.active unfuzzed).dropsBy, (counts.pending unfuzzed).dropsBy⟩⟩
  · obtain ⟨p, best⟩ := exists_isBest nonempty
    refine ⟨p, ⟨best.member, (kept cksum p best.member).mpr best⟩, ?_⟩
    rintro r ⟨member, enabled⟩
    exact ((kept cksum r member).mp enabled).unique best
  · rcases Nat.lt_or_ge p afl.queuedItems with queued | beyond
    · rw [Bool.eq_iff_iff, dropDuplicates_disabled_iff queue queued, or_iff_left]
      rintro ⟨r, better⟩
      exact alone _ ⟨queued, better.comparable', rfl⟩
    · rw [counts.outside p beyond]

end GreenFuzz.AflFuzz
