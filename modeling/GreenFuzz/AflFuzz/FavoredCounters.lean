import GreenFuzz.AflFuzz.Favored
import GreenFuzz.AflFuzz.QueueGrowth
import GreenFuzz.AflFuzz.ResumeLoop
import GreenFuzz.Library.Tally
import Mathlib.Order.Bounds.Basic

/-!
# The books of the favored entries

`queued_favored` counts the favored entries, `pending_favored` those of them that were not fuzzed
yet, and `smallest_favored`, unless it is -1, is the first of the latter that is enabled. Culling
the queue computes the three anew, leaving an entry adjusts them, and a fast resume counts the
records it reads. They are right in every state of every run (`favored_books_of_reachable`), so
what the main loop takes through `smallest_favored` is always an enabled favored entry that was
not fuzzed.
-/

set_option autoImplicit false

namespace GreenFuzz.AflFuzz

open Library

/-! ## The books -/

/-- Entry `q` is favored. -/
def IsFavored (afl : AflState) (q : ℕ) : Prop := (afl.queueBuf q).favored = true

/-- Entry `q` is favored and was not fuzzed. -/
def IsPending (afl : AflState) (q : ℕ) : Prop :=
  (afl.queueBuf q).favored = true ∧ (afl.queueBuf q).wasFuzzed = false

instance (afl : AflState) : DecidablePred (IsFavored afl) :=
  fun q => inferInstanceAs (Decidable ((afl.queueBuf q).favored = true))

instance (afl : AflState) : DecidablePred (IsPending afl) :=
  fun q => inferInstanceAs (Decidable ((afl.queueBuf q).favored = true ∧ _))

/-- The entries that `smallest_favored` is the first of. -/
def pickable (afl : AflState) : Set ℕ :=
  {q | q < afl.queuedItems ∧ IsPending afl q ∧ (afl.queueBuf q).disabled = false}

/-- The books are right. -/
structure FavoredCounted (afl : AflState) : Prop where
  bound : afl.queuedItems < 2 ^ 32
  ids : ∀ q < afl.queuedItems, (afl.queueBuf q).id = q
  owners : OwnersQueued afl
  queued : afl.queuedFavored = Nat.count (IsFavored afl) afl.queuedItems
  pending : afl.pendingFavored = Nat.count (IsPending afl) afl.queuedItems
  smallest : afl.smallestFavored ≠ -1 →
    ∃ q : ℕ, afl.smallestFavored = q ∧ IsLeast (pickable afl) q

variable {afl before after : AflState} {q : ℕ}

/-- The first entry that can be picked is the one that the main loop picks. -/
theorem FavoredCounted.directPick (counted : FavoredCounted afl)
    (picked : directPick afl = some q) :
    q ∈ pickable afl := by
  unfold AflFuzz.directPick at picked
  split at picked
  · rename_i some
    obtain ⟨p, same, least⟩ := counted.smallest some.2
    rw [same, Option.some_inj, Int.toNat_natCast] at picked
    exact picked ▸ least.1
  · cases picked

/-! ## Growing -/

theorem marks_eq_iff {e f : QueueEntry} : e.marks = f.marks ↔
    e.id = f.id ∧ e.wasFuzzed = f.wasFuzzed ∧ e.disabled = f.disabled ∧ e.favored = f.favored := by
  simp only [QueueEntry.marks, Marks.mk.injEq]

/-- Adding entries keeps the books right. -/
theorem FavoredCounted.of_keepsBooks (counted : FavoredCounted before)
    (kept : KeepsBooks before after) (bound : after.queuedItems < 2 ^ 32) :
    FavoredCounted after := by
  have old (p : ℕ) (inside : p < before.queuedItems) := marks_eq_iff.mp (kept.old p inside)
  have fresh (p : ℕ) (inside : p < after.queuedItems) (later : before.queuedItems ≤ p) :
      (after.queueBuf p).id = p ∧ (after.queueBuf p).favored = false := by
    have marks := kept.fresh p inside later
    simp only [QueueEntry.marks, Marks.mk.injEq] at marks
    exact ⟨marks.1, marks.2.2.2⟩
  have favored (p : ℕ) (inside : p < before.queuedItems) :
      IsFavored after p ↔ IsFavored before p := by
    unfold IsFavored
    rw [(old p inside).2.2.2]
  have pending (p : ℕ) (inside : p < before.queuedItems) :
      IsPending after p ↔ IsPending before p := by
    unfold IsPending
    rw [(old p inside).2.2.2, (old p inside).2.1]
  have unfavored (p : ℕ) (inside : p < after.queuedItems) (later : before.queuedItems ≤ p) :
      ¬ IsFavored after p := by
    unfold IsFavored
    rw [(fresh p inside later).2]
    decide
  have books := kept.books
  simp only [AflState.favoredBooks, FavoredBooks.mk.injEq] at books
  have same : pickable after = pickable before := by
    ext p
    constructor
    · rintro ⟨inside, waiting, enabled⟩
      have early : p < before.queuedItems := by
        by_contra later
        exact unfavored p inside (Nat.le_of_not_lt later) waiting.1
      refine ⟨early, (pending p early).mp waiting, ?_⟩
      rw [← (old p early).2.2.1]
      exact enabled
    · rintro ⟨inside, waiting, enabled⟩
      refine ⟨inside.trans_le kept.items, (pending p inside).mpr waiting, ?_⟩
      rw [(old p inside).2.2.1]
      exact enabled
  refine ⟨bound, fun p inside => ?_, kept.owners counted.owners, ?_, ?_, fun some => ?_⟩
  · by_cases early : p < before.queuedItems
    · exact (old p early).1.trans (counted.ids p early)
    · exact (fresh p inside (Nat.le_of_not_lt early)).1
  · rw [books.1, counted.queued, count_extend kept.items unfavored]
    exact count_congr_below fun p inside => (favored p inside).symm
  · rw [books.2.1, counted.pending,
      count_extend kept.items fun p inside later waiting => unfavored p inside later waiting.1]
    exact count_congr_below fun p inside => (pending p inside).symm
  · rw [books.2.2.1] at some ⊢
    rw [same]
    exact counted.smallest some

theorem FavoredCounted.of_quiet (counted : FavoredCounted before) (quiet : Quiet before after) :
    FavoredCounted after :=
  counted.of_keepsBooks quiet.grows.toKeepsBooks (by rw [quiet.items]; exact counted.bound)

/-! ## Leaving an entry -/

/-- Leaving an entry keeps the books right. -/
theorem FavoredCounted.settleEntry (counted : FavoredCounted afl) (queued : q < afl.queuedItems) :
    FavoredCounted (settleEntry afl q) := by
  unfold AflFuzz.settleEntry
  dsimp only
  split
  · rename_i guard
    have fresh : (afl.queueBuf q).wasFuzzed = false := by
      simp only [Bool.and_eq_true, Bool.not_eq_true'] at guard
      exact guard.1.2
    set after : AflState := { afl.modifyEntry q fun e => { e with wasFuzzed := true } with
      pendingNotFuzzed := u32Pred afl.pendingNotFuzzed
      reinitTable := true
      pendingFavored :=
        if (afl.queueBuf q).favored then u32Pred afl.pendingFavored else afl.pendingFavored
      smallestFavored := if (afl.queueBuf q).favored then -1 else afl.smallestFavored } with settled
    have entry : after.queueBuf q = { afl.queueBuf q with wasFuzzed := true } := by
      simp [settled]
    have other (p : ℕ) (differ : p ≠ q) : after.queueBuf p = afl.queueBuf p := by
      simp [settled, differ]
    have id (p : ℕ) : (after.queueBuf p).id = (afl.queueBuf p).id :=
      AflState.modifyEntry_keeps afl q (fun e => { e with wasFuzzed := true }) QueueEntry.id rfl p
    have favored (p : ℕ) : IsFavored after p ↔ IsFavored afl p := by
      by_cases same : p = q
      · rw [same, IsFavored, entry]
        exact Iff.rfl
      · rw [IsFavored, other p same]
        exact Iff.rfl
    have pending (p : ℕ) (differ : p ≠ q) : IsPending after p ↔ IsPending afl p := by
      rw [IsPending, other p differ]
      exact Iff.rfl
    have done : ¬ IsPending after q := by
      rw [IsPending, entry]
      simp
    refine ⟨counted.bound, fun p inside => (id p).trans (counted.ids p inside), counted.owners,
      counted.queued.trans (count_congr_below fun p _ => (favored p).symm), ?_, ?_⟩
    · show (if (afl.queueBuf q).favored then u32Pred afl.pendingFavored else afl.pendingFavored) =
        Nat.count (IsPending after) afl.queuedItems
      split
      · rename_i liked
        have one := count_gain (p := IsPending after) queued done ⟨liked, fresh⟩
          fun p _ differ => (pending p differ).symm
        have few : Nat.count (IsPending afl) afl.queuedItems ≤ afl.queuedItems :=
          Nat.count_le _
        have bound := counted.bound
        rw [counted.pending, one]
        exact u32Pred_succ (by omega)
      · rename_i plain
        refine counted.pending.trans (count_congr_below fun p _ => ?_)
        by_cases same : p = q
        · subst same
          exact iff_of_false (fun waiting => plain waiting.1) done
        · exact (pending p same).symm
    · show (if (afl.queueBuf q).favored then -1 else afl.smallestFavored) ≠ -1 → _
      split
      · exact fun absent => absurd rfl absent
      · rename_i plain
        intro some
        obtain ⟨p, least, pick⟩ := counted.smallest some
        have same : pickable after = pickable afl := by
          ext r
          by_cases here : r = q
          · subst here
            exact iff_of_false (fun pick => done pick.2.1) fun pick => plain pick.2.1.1
          · show (r < afl.queuedItems ∧ IsPending after r ∧ _) ↔ _
            rw [pending r here, other r here]
            exact Iff.rfl
        refine ⟨p, ?_, same ▸ pick⟩
        show (if (afl.queueBuf q).favored then -1 else afl.smallestFavored) = p
        rw [if_neg plain, least]
  · exact counted

theorem FavoredCounted.abandonEntry (counted : FavoredCounted afl) (queued : q < afl.queuedItems) :
    FavoredCounted (abandonEntry afl q) :=
  (counted.settleEntry queued).of_quiet (quiet_raiseFuzzLevel _ q)

/-- A call of the classic engine keeps the books right. -/
theorem FavoredCounted.fuzzOneOriginal {B : Build} {s t : SaveState} {input : FuzzOneInput}
    (counted : FavoredCounted s.afl) (queued : q < s.afl.queuedItems)
    (bound : t.afl.queuedItems < 2 ^ 32) (done : fuzzOneOriginal B s q input = .ok t) :
    FavoredCounted t.afl :=
  holds_fuzzOneOriginal queued bound done counted
    (fun _ kept small => counted.of_keepsBooks kept small)
    fun _ grown inside => grown.abandonEntry inside

/-! ## Culling -/

/-- What the main loop of `cull_queue` keeps: only the marks `favored` change, and the books are
those of the entries marked so far. -/
structure CullCounted (start afl : AflState) : Prop where
  items : afl.queuedItems = start.queuedItems
  topRated : afl.topRated = start.topRated
  entries : ∀ p, afl.queueBuf p = { start.queueBuf p with favored := (afl.queueBuf p).favored }
  queued : afl.queuedFavored = Nat.count (IsFavored afl) start.queuedItems
  pending : afl.pendingFavored = Nat.count (IsPending afl) start.queuedItems
  enabled : ∀ p < start.queuedItems, IsFavored afl p → (start.queueBuf p).disabled = false
  smallest : IsFirst (IsPending afl) start.queuedItems afl.smallestFavored

/-- Marking an entry that can be marked. -/
theorem markFavored_eq {top : ℕ} (plain : (afl.queueBuf top).favored = false)
    (enabled : (afl.queueBuf top).disabled = false) :
    markFavored afl top =
      { afl.modifyEntry top fun e => { e with favored := true } with
        queuedFavored := u32 (afl.queuedFavored + 1)
        pendingFavored :=
          if (afl.queueBuf top).wasFuzzed then afl.pendingFavored else u32 (afl.pendingFavored + 1)
        smallestFavored :=
          if (afl.queueBuf top).wasFuzzed then afl.smallestFavored
          else if afl.smallestFavored = -1 ∨ afl.smallestFavored > (afl.queueBuf top).id then
            (afl.queueBuf top).id
          else afl.smallestFavored } := by
  unfold markFavored
  dsimp only
  rw [if_pos (by simp [plain, enabled])]
  cases fuzzed : (afl.queueBuf top).wasFuzzed with
  | true => rfl
  | false => rfl

theorem markFavored_of_not {top : ℕ}
    (marked : ¬ ((afl.queueBuf top).favored = false ∧ (afl.queueBuf top).disabled = false)) :
    markFavored afl top = afl := by
  unfold markFavored
  dsimp only
  rw [if_neg]
  simpa using marked

/-- Marking a queued entry keeps the books. -/
theorem CullCounted.markFavored {start : AflState} {top : ℕ} (counted : CullCounted start afl)
    (bound : start.queuedItems < 2 ^ 32)
    (ids : ∀ p < start.queuedItems, (start.queueBuf p).id = p) (inside : top < start.queuedItems) :
    CullCounted start (markFavored afl top) := by
  by_cases can : (afl.queueBuf top).favored = false ∧ (afl.queueBuf top).disabled = false
  · obtain ⟨plain, enabled⟩ := can
    have id : (afl.queueBuf top).id = top := by
      rw [counted.entries top]
      exact ids top inside
    rw [markFavored_eq plain enabled, id]
    set after : AflState := { afl.modifyEntry top fun e => { e with favored := true } with
      queuedFavored := u32 (afl.queuedFavored + 1)
      pendingFavored :=
        if (afl.queueBuf top).wasFuzzed then afl.pendingFavored else u32 (afl.pendingFavored + 1)
      smallestFavored :=
        if (afl.queueBuf top).wasFuzzed then afl.smallestFavored
        else if afl.smallestFavored = -1 ∨ afl.smallestFavored > top then (top : ℤ)
        else afl.smallestFavored } with marked
    have entry : after.queueBuf top = { afl.queueBuf top with favored := true } := by
      simp [marked]
    have other (p : ℕ) (differ : p ≠ top) : after.queueBuf p = afl.queueBuf p := by
      simp [marked, differ]
    have favored (p : ℕ) (differ : p ≠ top) : IsFavored after p ↔ IsFavored afl p := by
      rw [IsFavored, other p differ]
      exact Iff.rfl
    have pending (p : ℕ) (differ : p ≠ top) : IsPending after p ↔ IsPending afl p := by
      rw [IsPending, other p differ]
      exact Iff.rfl
    have unchanged (fuzzed : (afl.queueBuf top).wasFuzzed = true) (p : ℕ) :
        IsPending after p ↔ IsPending afl p := by
      by_cases same : p = top
      · subst same
        simp [IsPending, plain, entry, fuzzed]
      · exact pending p same
    have one := count_gain (p := IsFavored afl) (q := IsFavored after) inside
      (by simp [IsFavored, plain]) (by simp [IsFavored, entry]) fun p _ differ => favored p differ
    have few : Nat.count (IsFavored after) start.queuedItems ≤ start.queuedItems := Nat.count_le _
    have fewer : Nat.count (IsPending after) start.queuedItems ≤ start.queuedItems :=
      Nat.count_le _
    refine ⟨counted.items, counted.topRated, fun p => ?_, ?_, ?_, fun p below liked => ?_, ?_⟩
    · by_cases same : p = top
      · rw [same, entry, counted.entries top]
      · rw [other p same]
        exact counted.entries p
    · show u32 (afl.queuedFavored + 1) = _
      rw [counted.queued, one]
      exact Nat.mod_eq_of_lt (by omega)
    · show (if (afl.queueBuf top).wasFuzzed then afl.pendingFavored
        else u32 (afl.pendingFavored + 1)) = _
      split
      · rename_i fuzzed
        exact counted.pending.trans (count_congr_below fun p _ => (unchanged fuzzed p).symm)
      · rename_i fresh
        have two := count_gain (p := IsPending afl) (q := IsPending after) inside
          (by simp [IsPending, plain]) (by simpa [IsPending, entry] using fresh)
          fun p _ differ => pending p differ
        rw [counted.pending, two]
        exact Nat.mod_eq_of_lt (by omega)
    · by_cases same : p = top
      · rw [same]
        rw [counted.entries top] at enabled
        exact enabled
      · exact counted.enabled p below ((favored p same).mp liked)
    · show IsFirst (IsPending after) start.queuedItems (if (afl.queueBuf top).wasFuzzed then
        afl.smallestFavored else if afl.smallestFavored = -1 ∨ afl.smallestFavored > top then
        (top : ℤ) else afl.smallestFavored)
      split
      · rename_i fuzzed
        exact counted.smallest.congr fun p _ => (unchanged fuzzed p).symm
      · rename_i fresh
        refine counted.smallest.insert inside fun p _ => ?_
        by_cases same : p = top
        · subst same
          exact iff_of_true (by simpa [IsPending, entry] using fresh) (Or.inr rfl)
        · rw [pending p same, or_iff_left same]
  · rw [markFavored_of_not can]
    exact counted

theorem CullCounted.cullIndex {start : AflState} (counted : CullCounted start afl)
    (bound : start.queuedItems < 2 ^ 32)
    (ids : ∀ p < start.queuedItems, (start.queueBuf p).id = p) (owners : OwnersQueued start)
    (i : ℕ) : CullCounted start (cullIndex afl i) := by
  unfold AflFuzz.cullIndex
  split
  · exact counted
  · rename_i top owner
    rw [counted.topRated] at owner
    split
    · split
      · exact counted
      · rename_i mini _
        have unseen : CullCounted start { afl with
            mapTmpBuf := removeBits (afl.mapSize / 8) afl.mapTmpBuf mini.bytes } :=
          ⟨counted.items, counted.topRated, counted.entries, counted.queued, counted.pending,
            counted.enabled, counted.smallest⟩
        exact unseen.markFavored bound ids (owners i top owner)
    · exact counted

/-- Nothing is favored at the start of a cull. -/
theorem CullCounted.start (afl : AflState) : CullCounted (cullReset afl) (cullReset afl) := by
  have plain (p : ℕ) (inside : p < afl.queuedItems) : ¬ IsFavored (cullReset afl) p := by
    unfold IsFavored cullReset
    dsimp only
    rw [if_pos inside]
    exact Bool.false_ne_true
  refine ⟨rfl, rfl, fun p => rfl, ?_, ?_, fun p inside liked => absurd liked (plain p inside), ?_⟩
  · exact (Nat.count_iff_forall_not.mpr plain).symm
  · exact (Nat.count_iff_forall_not.mpr fun p inside waiting => plain p inside waiting.1).symm
  · exact Or.inl ⟨rfl, fun p inside waiting => plain p inside waiting.1⟩

/-- What the last loop of `cull_queue` keeps: an entry is disabled only if it is not favored. -/
structure MarksRedundant (before after : AflState) : Prop where
  items : after.queuedItems = before.queuedItems
  topRated : after.topRated = before.topRated
  queuedFavored : after.queuedFavored = before.queuedFavored
  pendingFavored : after.pendingFavored = before.pendingFavored
  smallestFavored : after.smallestFavored = before.smallestFavored
  id : ∀ p, (after.queueBuf p).id = (before.queueBuf p).id
  wasFuzzed : ∀ p, (after.queueBuf p).wasFuzzed = (before.queueBuf p).wasFuzzed
  favored : ∀ p, (after.queueBuf p).favored = (before.queueBuf p).favored
  disabled : ∀ p, (before.queueBuf p).favored = true →
    (after.queueBuf p).disabled = (before.queueBuf p).disabled

theorem MarksRedundant.trans {middle : AflState} (first : MarksRedundant before middle)
    (second : MarksRedundant middle after) : MarksRedundant before after where
  items := second.items.trans first.items
  topRated := second.topRated.trans first.topRated
  queuedFavored := second.queuedFavored.trans first.queuedFavored
  pendingFavored := second.pendingFavored.trans first.pendingFavored
  smallestFavored := second.smallestFavored.trans first.smallestFavored
  id p := (second.id p).trans (first.id p)
  wasFuzzed p := (second.wasFuzzed p).trans (first.wasFuzzed p)
  favored p := (second.favored p).trans (first.favored p)
  disabled p liked :=
    (second.disabled p ((first.favored p).trans liked)).trans (first.disabled p liked)

theorem MarksRedundant.refl (afl : AflState) : MarksRedundant afl afl :=
  ⟨rfl, rfl, rfl, rfl, rfl, fun _ => rfl, fun _ => rfl, fun _ => rfl, fun _ _ => rfl⟩

theorem marksRedundant_cullMark (afl : AflState) (q : ℕ) :
    MarksRedundant afl (cullMark afl q) := by
  unfold cullMark
  split
  · unfold markAsRedundant
    split
    · exact MarksRedundant.refl afl
    · refine ⟨rfl, rfl, rfl, rfl, rfl, ?_, ?_, ?_, fun p liked => ?_⟩
      · exact AflState.modifyEntry_keeps afl q _ QueueEntry.id rfl
      · exact AflState.modifyEntry_keeps afl q _ QueueEntry.wasFuzzed rfl
      · exact AflState.modifyEntry_keeps afl q _ QueueEntry.favored rfl
      · by_cases same : p = q
        · subst same
          rw [AflState.modifyEntry_queueBuf_self]
          simp [liked]
        · rw [AflState.modifyEntry_queueBuf_of_ne _ _ _ same]
  · exact MarksRedundant.refl afl

theorem marksRedundant_foldl (items : List ℕ) (afl : AflState) :
    MarksRedundant afl (items.foldl cullMark afl) :=
  foldl_invariant (P := MarksRedundant afl) (MarksRedundant.refl afl)
    fun q _ t kept => kept.trans (marksRedundant_cullMark t q)

/-- Culling the queue computes the books anew. -/
theorem FavoredCounted.cullQueue (counted : FavoredCounted afl) :
    FavoredCounted (cullQueue afl) := by
  unfold AflFuzz.cullQueue
  split
  · exact counted
  · have ids (p : ℕ) (inside : p < afl.queuedItems) : ((cullReset afl).queueBuf p).id = p := by
      unfold cullReset
      dsimp only
      rw [if_pos inside]
      exact counted.ids p inside
    have culled : CullCounted (cullReset afl)
        ((List.range afl.mapSize).foldl AflFuzz.cullIndex (cullReset afl)) :=
      foldl_invariant (P := CullCounted (cullReset afl)) (CullCounted.start afl)
        fun i _ t progress => progress.cullIndex counted.bound ids counted.owners i
    set middle := (List.range afl.mapSize).foldl AflFuzz.cullIndex (cullReset afl)
    have marked := marksRedundant_foldl (List.range middle.queuedItems) middle
    set after := (List.range middle.queuedItems).foldl cullMark middle
    have items : after.queuedItems = afl.queuedItems := marked.items.trans culled.items
    have favored (p : ℕ) : IsFavored after p ↔ IsFavored middle p := by
      rw [IsFavored, marked.favored]
      exact Iff.rfl
    have pending (p : ℕ) : IsPending after p ↔ IsPending middle p := by
      rw [IsPending, marked.favored, marked.wasFuzzed]
      exact Iff.rfl
    have enabled (p : ℕ) (inside : p < afl.queuedItems) (liked : IsFavored middle p) :
        (after.queueBuf p).disabled = false := by
      rw [marked.disabled p liked, culled.entries p]
      exact culled.enabled p inside liked
    refine ⟨?_, fun p inside => ?_, fun i p owner => ?_, ?_, ?_, fun some => ?_⟩
    · show after.queuedItems < 2 ^ 32
      rw [items]
      exact counted.bound
    · show (after.queueBuf p).id = p
      rw [marked.id, culled.entries p]
      exact ids p (items ▸ inside)
    · show p < after.queuedItems
      have rated : after.topRated = afl.topRated := marked.topRated.trans culled.topRated
      have before : afl.topRated i = some p := by
        rw [← rated]
        exact owner
      rw [items]
      exact counted.owners i p before
    · show after.queuedFavored = Nat.count (IsFavored after) after.queuedItems
      rw [marked.queuedFavored, culled.queued, items]
      exact count_congr_below fun p _ => (favored p).symm
    · show after.pendingFavored = Nat.count (IsPending after) after.queuedItems
      rw [marked.pendingFavored, culled.pending, items]
      exact count_congr_below fun p _ => (pending p).symm
    · have first := culled.smallest
      rw [← marked.smallestFavored] at first
      rcases first with ⟨none, -⟩ | ⟨q, same, ⟨inside, waiting⟩, least⟩
      · exact absurd none some
      · refine ⟨q, same, ⟨items ▸ inside, (pending q).mpr waiting, enabled q inside waiting.1⟩, ?_⟩
        rintro p ⟨below, also, -⟩
        exact least ⟨items ▸ below, (pending p).mp also⟩

/-! ## Starting -/

/-- A session before its first cull: nothing is favored. The queue has at most as many entries as
its `u32` counters can count. -/
structure FreshStart (afl : AflState) : Prop where
  bound : afl.queuedItems < 2 ^ 32
  ids : ∀ q < afl.queuedItems, (afl.queueBuf q).id = q
  owners : OwnersQueued afl
  plain : ∀ q < afl.queuedItems, (afl.queueBuf q).favored = false
  queuedFavored : afl.queuedFavored = 0
  pendingFavored : afl.pendingFavored = 0
  smallestFavored : afl.smallestFavored = -1

theorem FreshStart.counted (fresh : FreshStart afl) : FavoredCounted afl := by
  have plain (p : ℕ) (inside : p < afl.queuedItems) : ¬ IsFavored afl p := by
    rw [IsFavored, fresh.plain p inside]
    exact Bool.false_ne_true
  refine ⟨fresh.bound, fresh.ids, fresh.owners, ?_, ?_, fun some => ?_⟩
  · rw [fresh.queuedFavored]
    exact (Nat.count_iff_forall_not.mpr plain).symm
  · rw [fresh.pendingFavored]
    exact (Nat.count_iff_forall_not.mpr fun p inside waiting => plain p inside waiting.1).symm
  · exact absurd fresh.smallestFavored some

/-- Reading test cases keeps a start fresh. -/
theorem FreshStart.of_keepsBooks (fresh : FreshStart before) (kept : KeepsBooks before after)
    (bound : after.queuedItems < 2 ^ 32) : FreshStart after := by
  have books := kept.books
  simp only [AflState.favoredBooks, FavoredBooks.mk.injEq] at books
  have counted := fresh.counted.of_keepsBooks kept bound
  refine ⟨bound, counted.ids, counted.owners, fun p inside => ?_, books.1.trans fresh.queuedFavored,
    books.2.1.trans fresh.pendingFavored, books.2.2.1.trans fresh.smallestFavored⟩
  by_cases early : p < before.queuedItems
  · exact (marks_eq_iff.mp (kept.old p early)).2.2.2.trans (fresh.plain p early)
  · have marks := kept.fresh p inside (Nat.le_of_not_lt early)
    simp only [QueueEntry.marks, Marks.mk.injEq] at marks
    exact marks.2.2.2

theorem keepsBooks_readTestcases {detDone : String → Bool} {dir : List SavedFile}
    (read : readTestcases detDone before dir = .ok after) : KeepsBooks before after := by
  have grown : Grows before ((testcasesOf dir).foldl (fun afl file =>
      addToQueue afl (min file.data.length maxFile) (detDone file.name)) before) :=
    foldl_invariant (P := Grows before) (Grows.refl before)
      fun file _ t so => so.trans (grows_addToQueue t _ _)
  unfold readTestcases at read
  dsimp only at read
  split at read
  · cases read
  · cases read
    exact grown.toKeepsBooks

/-- A fast resume counts what it reads. -/
theorem FreshStart.resumed (fresh : FreshStart afl) (s : AflState) :
    FavoredCounted (resumed s afl) := by
  set start : AflState := { afl with
    virginBits := s.virginBits
    virginTmout := s.virginTmout
    virginCrash := s.virginCrash
    varBytes := s.varBytes }
  have entries := restoredUpTo_restoreAll s.queueBuf afl.queuedItems start
  have counts : (restoreAll s.queueBuf afl.queuedItems start).queuedFavored =
        Nat.count (IsFavored s) afl.queuedItems ∧
      (restoreAll s.queueBuf afl.queuedItems start).pendingFavored =
        Nat.count (IsPending s) afl.queuedItems := by
    refine foldl_range_invariant (P := fun i (t : AflState) =>
      t.queuedFavored = Nat.count (IsFavored s) i ∧
        t.pendingFavored = Nat.count (IsPending s) i) ?_ fun i inside t so => ?_
    · exact ⟨fresh.queuedFavored, fresh.pendingFavored⟩
    · obtain ⟨queued, pending, -, -⟩ := restoreRecord_counters s.queueBuf t i
      have few : Nat.count (IsFavored s) i ≤ i := Nat.count_le _
      have fewer : Nat.count (IsPending s) i ≤ i := Nat.count_le _
      have bound := fresh.bound
      rw [queued, pending, so.1, so.2, Nat.count_succ, Nat.count_succ]
      constructor
      · split
        · rename_i liked
          rw [if_pos (show IsFavored s i from liked)]
          exact Nat.mod_eq_of_lt (by omega)
        · rename_i plain
          rw [if_neg (show ¬ IsFavored s i from plain), Nat.add_zero]
      · split
        · rename_i waiting
          rw [if_pos (by simpa [IsPending] using waiting)]
          exact Nat.mod_eq_of_lt (by omega)
        · rename_i settled
          rw [if_neg (by simpa [IsPending] using settled), Nat.add_zero]
  set final := restoreAll s.queueBuf afl.queuedItems start
  have favored (p : ℕ) (inside : p < afl.queuedItems) : IsFavored final p ↔ IsFavored s p := by
    rw [IsFavored, entries.read p inside]
    exact Iff.rfl
  have pending (p : ℕ) (inside : p < afl.queuedItems) : IsPending final p ↔ IsPending s p := by
    rw [IsPending, entries.read p inside]
    exact Iff.rfl
  have items : final.queuedItems = afl.queuedItems := entries.queuedItems
  refine ⟨items ▸ fresh.bound, fun p inside => ?_, fun i p owner => ?_, ?_, ?_, fun some => ?_⟩
  · show (final.queueBuf p).id = p
    have below : p < afl.queuedItems := items ▸ inside
    rw [entries.read p below]
    exact fresh.ids p below
  · have before : afl.topRated i = Option.some p := by
      rw [← show final.topRated = afl.topRated from entries.topRated]
      exact owner
    exact items ▸ fresh.owners i p before
  · show final.queuedFavored = Nat.count (IsFavored final) final.queuedItems
    rw [items, counts.1]
    exact count_congr_below fun p inside => (favored p inside).symm
  · show final.pendingFavored = Nat.count (IsPending final) final.queuedItems
    rw [items, counts.2]
    exact count_congr_below fun p inside => (pending p inside).symm
  · exact absurd (entries.smallestFavored.trans fresh.smallestFavored) some

/-! ## Runs -/

/-- What can happen after the start: a find, a cull, a call of the classic engine, and anything
that touches neither the counters nor the marks. -/
inductive FavoredStep (B : Build) : SaveState → SaveState → Prop where
  | find {s t : SaveState} {kept : Bool} (input : SaveInput)
      (saved : saveIfInteresting B s input = .ok (kept, t))
      (bound : t.afl.queuedItems < 2 ^ 32) : FavoredStep B s t
  | cull (s : SaveState) : FavoredStep B s { s with afl := cullQueue s.afl }
  | fuzz {s t : SaveState} (q : ℕ) (input : FuzzOneInput) (queued : q < s.afl.queuedItems)
      (fuzzed : fuzzOneOriginal B s q input = .ok t)
      (bound : t.afl.queuedItems < 2 ^ 32) : FavoredStep B s t
  | other {s t : SaveState} (quiet : Quiet s.afl t.afl) : FavoredStep B s t

/-- A session that read the test cases of an old one and its `fastresume.bin`. -/
def FastResumed (B : Build) (afl : AflState) : Prop :=
  ∃ saved start fresh : AflState, ∃ detDone dir, FreshStart start ∧
    readTestcases detDone start dir = .ok fresh ∧ fresh.queuedItems < 2 ^ 32 ∧
    fastResume B.libm fresh (writeFastresume saved) = .ok afl

def favoredSystem (B : Build) : TransitionSystem SaveState where
  init s := FreshStart s.afl ∨ FastResumed B s.afl
  step := FavoredStep B

theorem FastResumed.counted {B : Build} (resume : FastResumed B afl) : FavoredCounted afl := by
  obtain ⟨saved, start, fresh, detDone, dir, started, read, bound, done⟩ := resume
  have begun := started.of_keepsBooks (keepsBooks_readTestcases read) bound
  rw [fastResume_writeFastresume] at done
  split at done
  · cases done
    exact begun.resumed saved
  · split at done
    · cases done
    · cases done

theorem favoredCounted_of_reachable {B : Build} {s : SaveState}
    (run : Reachable (favoredSystem B) s) : FavoredCounted s.afl := by
  refine run.invariant (P := fun s => FavoredCounted s.afl) ?_ ?_
  · rintro s (fresh | resume)
    · exact fresh.counted
    · exact resume.counted
  · intro s t _ counted taken
    cases taken with
    | find input saved bound =>
        exact counted.of_keepsBooks (grows_saveIfInteresting saved).toKeepsBooks bound
    | cull => exact counted.cullQueue
    | fuzz q input queued fuzzed bound => exact counted.fuzzOneOriginal queued bound fuzzed
    | other quiet => exact counted.of_quiet quiet

/-- **The books of the favored entries are right** in every state of every run from a fresh start
or a fast resume: the two counters count, the pending counter is positive while there is an entry
to settle, `smallest_favored` is -1 or the first entry that can be picked, and what the main loop
picks through it is favored, enabled and was not fuzzed. -/
theorem favored_books_of_reachable (B : Build) (s : SaveState)
    (run : Reachable (favoredSystem B) s) :
    s.afl.queuedFavored = Nat.count (IsFavored s.afl) s.afl.queuedItems ∧
      s.afl.pendingFavored = Nat.count (IsPending s.afl) s.afl.queuedItems ∧
      (∀ q < s.afl.queuedItems, IsPending s.afl q → 0 < s.afl.pendingFavored) ∧
      (s.afl.smallestFavored ≠ -1 →
        ∃ q : ℕ, s.afl.smallestFavored = q ∧ IsLeast (pickable s.afl) q) ∧
      ∀ q, directPick s.afl = some q → q < s.afl.queuedItems ∧
        (s.afl.queueBuf q).favored = true ∧ (s.afl.queueBuf q).wasFuzzed = false ∧
        (s.afl.queueBuf q).disabled = false := by
  have counted := favoredCounted_of_reachable run
  refine ⟨counted.queued, counted.pending, fun q inside waiting => ?_, counted.smallest,
    fun q picked => ?_⟩
  · rw [counted.pending]
    exact count_pos_of inside waiting
  · obtain ⟨inside, waiting, enabled⟩ := counted.directPick picked
    exact ⟨inside, waiting.1, waiting.2, enabled⟩

/-- A queue of two scored entries before the first cull. -/
def twoRated : SaveState where
  afl :=
    { mapSize := 8
      queuedItems := 2
      activeItems := 2
      pendingNotFuzzed := 2
      scoreChanged := true
      topRated := fun i => if i < 2 then some (1 - i) else none
      queueBuf := fun q => { id := q, traceMini := some ⟨1, fun _ => if q = 0 then 2 else 1⟩ } }

/-- Two entries are favored by the first cull, and the first of them is picked. -/
theorem favored_books_two_rated :
    directPick (cullQueue twoRated.afl) = some 0 ∧ (cullQueue twoRated.afl).queuedFavored = 2 ∧
      ((cullQueue twoRated.afl).queueBuf 0).wasFuzzed = false := by
  have start : FreshStart twoRated.afl := by
    refine ⟨by decide, fun q _ => rfl, fun i p owner => ?_, fun q _ => rfl, rfl, rfl, rfl⟩
    have slot : (if i < 2 then some (1 - i) else none) = some p := owner
    split at slot
    · have here : 1 - i = p := Option.some.inj slot
      show p < 2
      omega
    · cases slot
  have run : Reachable (favoredSystem trivialBuild) { twoRated with
      afl := cullQueue twoRated.afl } :=
    (Reachable.init (Or.inl start)).step (FavoredStep.cull twoRated)
  have picked : directPick (cullQueue twoRated.afl) = some 0 := by decide +kernel
  exact ⟨picked, by decide +kernel,
    ((favored_books_of_reachable trivialBuild _ run).2.2.2.2 0 picked).2.2.1⟩

end GreenFuzz.AflFuzz
