import GreenFuzz.AflFuzz.QueueCounters

/-!
# Leaving an entry, in both engines

`fuzz_one_original` marks the entry it leaves as fuzzed and keeps the counters of the queue in
step with the mark (`exitBooks_fuzzOneOriginal`). In `mopt_common_fuzzing` that update is
commented out, so a complete call keeps the same books exactly when the entry was marked before
(`engines_agree_iff`). An entry that the main loop takes through `smallest_favored` is then taken
again, still unfuzzed. After a complete call of the classic engine the entry is marked in every
later state, whatever the engines, the finds and the culls do (`wasFuzzed_of_run`).
-/

set_option autoImplicit false

namespace GreenFuzz.AflFuzz

open Library

/-- What leaving an entry updates. -/
structure ExitBooks where
  wasFuzzed : Bool
  pendingNotFuzzed : ℕ
  pendingFavored : ℕ
  smallestFavored : ℤ
  reinitTable : Bool
  deriving DecidableEq

def AflState.exitBooks (afl : AflState) (q : ℕ) : ExitBooks :=
  ⟨(afl.queueBuf q).wasFuzzed, afl.pendingNotFuzzed, afl.pendingFavored, afl.smallestFavored,
    afl.reinitTable⟩

/-- The books after `found` entries were added. -/
def ExitBooks.found (b : ExitBooks) (found : ℕ) : ExitBooks :=
  { b with pendingNotFuzzed := b.pendingNotFuzzed + found }

/-- The books after the entry was marked as fuzzed. -/
def ExitBooks.settled (b : ExitBooks) (favored : Bool) : ExitBooks :=
  if b.wasFuzzed then b
  else
    { wasFuzzed := true
      pendingNotFuzzed := u32Pred b.pendingNotFuzzed
      pendingFavored := if favored then u32Pred b.pendingFavored else b.pendingFavored
      smallestFavored := if favored then -1 else b.smallestFavored
      reinitTable := true }

variable {B : Build} {s t : SaveState} {q : ℕ} {input : FuzzOneInput}

/-! ## The exit paths -/

theorem exitBooks_raiseFuzzLevel (afl : AflState) (q : ℕ) :
    (raiseFuzzLevel afl q).exitBooks q = afl.exitBooks q := by
  unfold AflState.exitBooks raiseFuzzLevel
  rw [AflState.modifyEntry_queueBuf_self]
  rfl

/-- `abandon_entry` of `fuzz_one_original` settles an enabled, calibrated entry. -/
theorem exitBooks_abandonEntry {afl : AflState} (running : afl.stopSoon = false)
    (calibrated : (afl.queueBuf q).calFailed = 0) (enabled : (afl.queueBuf q).disabled = false) :
    (abandonEntry afl q).exitBooks q = (afl.exitBooks q).settled (afl.queueBuf q).favored := by
  unfold abandonEntry
  rw [exitBooks_raiseFuzzLevel]
  cases fuzzed : (afl.queueBuf q).wasFuzzed with
  | true =>
      unfold settleEntry ExitBooks.settled AflState.exitBooks
      simp [fuzzed]
  | false =>
      unfold settleEntry ExitBooks.settled AflState.exitBooks
      simp [running, calibrated, enabled, fuzzed]

/-! ## Complete calls -/

theorem Grows.exitBooks {before after : AflState} (grown : Grows before after)
    (queued : q < before.queuedItems) : after.exitBooks q =
      (before.exitBooks q).found (after.queuedItems - before.queuedItems) := by
  have marks := grown.old q queued
  have books := grown.books
  have pending := grown.pending
  have items := grown.items
  unfold AflState.favoredBooks at books
  unfold AflState.exitBooks ExitBooks.found
  simp only [QueueEntry.marks, Marks.mk.injEq, FavoredBooks.mk.injEq] at marks books
  simp only [ExitBooks.mk.injEq]
  exact ⟨marks.2.1, by omega, books.2.1, books.2.2.1, books.2.2.2⟩

/-- A growing queue leaves the current entry as it was. -/
theorem Grows.current {before after : AflState} (grown : Grows before after)
    (queued : q < before.queuedItems) :
    (after.queueBuf q).disabled = (before.queueBuf q).disabled ∧
      (after.queueBuf q).favored = (before.queueBuf q).favored := by
  have marks := grown.old q queued
  simp only [QueueEntry.marks, Marks.mk.injEq] at marks
  exact ⟨marks.2.2.1, marks.2.2.2⟩

/-- A complete call of the classic engine settles the entry. -/
theorem exitBooks_fuzzOneOriginal (queued : q < s.afl.queuedItems)
    (enabled : (s.afl.queueBuf q).disabled = false)
    (calibrated : (s.afl.queueBuf q).calFailed = 0)
    (taken : skipsEntry s.afl (s.afl.queueBuf q) input = false)
    (done : fuzzOneOriginal B s q input = .ok t) (running : t.afl.stopSoon = false) :
    t.afl.exitBooks q =
      ((s.afl.exitBooks q).found (t.afl.queuedItems - s.afl.queuedItems)).settled
        (s.afl.queueBuf q).favored := by
  unfold fuzzOneOriginal at done
  rw [taken] at done
  split at done
  · cases done
    rw [abandonEntry_stopSoon] at running
    rw [exitBooks_abandonEntry running calibrated enabled, abandonEntry_queuedItems, Nat.sub_self]
    rfl
  · obtain ⟨fuzzed, reached, result⟩ := bind_eq_ok_iff.mp done
    cases result
    rw [abandonEntry_stopSoon] at running
    have grown := (keepsBooks_fuzzEntry queued reached).2 calibrated
    obtain ⟨same, favored⟩ := grown.current queued
    rw [exitBooks_abandonEntry running ((grown.calFailed q queued).trans calibrated)
      (same.trans enabled), abandonEntry_queuedItems, grown.exitBooks queued, favored]

/-- A complete call of the MOpt engine leaves the entry as it is. -/
theorem exitBooks_moptCommonFuzzing (queued : q < s.afl.queuedItems)
    (calibrated : (s.afl.queueBuf q).calFailed = 0)
    (taken : skipsEntry s.afl (s.afl.queueBuf q) input = false)
    (done : moptCommonFuzzing B s q input = .ok t) :
    t.afl.exitBooks q =
      (s.afl.exitBooks q).found (t.afl.queuedItems - s.afl.queuedItems) := by
  unfold moptCommonFuzzing at done
  rw [taken] at done
  obtain ⟨fuzzed, reached, result⟩ := bind_eq_ok_iff.mp done
  cases result
  have grown := (keepsBooks_fuzzEntry queued reached).2 calibrated
  exact (exitBooks_raiseFuzzLevel fuzzed.afl q).trans (grown.exitBooks queued)

/-- Settling changes the books of an entry that was not fuzzed, and of no other. -/
theorem ExitBooks.settled_eq_iff (b : ExitBooks) (favored : Bool) :
    b = b.settled favored ↔ b.wasFuzzed = true := by
  unfold ExitBooks.settled
  cases fuzzed : b.wasFuzzed with
  | true => simp
  | false =>
      rw [if_neg (by decide)]
      refine iff_of_false (fun same => ?_) (by decide)
      rw [same] at fuzzed
      cases fuzzed

/-- **When the engines agree.** Two complete calls from the same state that find the same number
of entries keep the same books, and the MOpt engine does not leave its entry to be picked again as
unfuzzed, exactly when the entry was marked as fuzzed before. -/
theorem engines_agree_iff (B : Build) (s : SaveState) (q : ℕ) (original puppet : FuzzOneInput)
    (classic mopt : SaveState) (queued : q < s.afl.queuedItems)
    (enabled : (s.afl.queueBuf q).disabled = false)
    (calibrated : (s.afl.queueBuf q).calFailed = 0)
    (taken : skipsEntry s.afl (s.afl.queueBuf q) original = false)
    (takenPuppet : skipsEntry s.afl (s.afl.queueBuf q) puppet = false)
    (byClassic : fuzzOneOriginal B s q original = .ok classic)
    (byMopt : moptCommonFuzzing B s q puppet = .ok mopt)
    (running : classic.afl.stopSoon = false)
    (finds : mopt.afl.queuedItems = classic.afl.queuedItems) :
    (mopt.afl.exitBooks q = classic.afl.exitBooks q ∧
      (directPick s.afl = some q →
        ¬ (directPick mopt.afl = some q ∧ (mopt.afl.queueBuf q).wasFuzzed = false))) ↔
      (s.afl.queueBuf q).wasFuzzed = true := by
  have classicBooks := exitBooks_fuzzOneOriginal queued enabled calibrated taken byClassic running
  have moptBooks := exitBooks_moptCommonFuzzing queued calibrated takenPuppet byMopt
  rw [finds] at moptBooks
  rw [classicBooks, moptBooks, ExitBooks.settled_eq_iff]
  have kept : (mopt.afl.queueBuf q).wasFuzzed = (s.afl.queueBuf q).wasFuzzed :=
    congrArg ExitBooks.wasFuzzed moptBooks
  constructor
  · rintro ⟨fuzzed, -⟩
    exact fuzzed
  · intro fuzzed
    refine ⟨fuzzed, fun _ again => ?_⟩
    rw [kept, fuzzed] at again
    cases again.2

/-! ## Later picks -/

/-- An entry of the queue that is marked as fuzzed. -/
def MarkedFuzzed (q : ℕ) (afl : AflState) : Prop :=
  q < afl.queuedItems ∧ (afl.queueBuf q).wasFuzzed = true

theorem MarkedFuzzed.of_keepsBooks {before after : AflState} (marked : MarkedFuzzed q before)
    (kept : KeepsBooks before after) : MarkedFuzzed q after := by
  refine ⟨marked.1.trans_le kept.items, ?_⟩
  have same := congrArg Marks.wasFuzzed (kept.old q marked.1)
  exact same.trans marked.2

theorem MarkedFuzzed.abandonEntry {afl : AflState} (marked : MarkedFuzzed q afl) (p : ℕ) :
    MarkedFuzzed q (abandonEntry afl p) := by
  suffices settled : MarkedFuzzed q (settleEntry afl p) from
    settled.of_keepsBooks (quiet_raiseFuzzLevel _ p).grows.toKeepsBooks
  unfold settleEntry
  dsimp only
  split
  · refine ⟨marked.1, ?_⟩
    show ((afl.modifyEntry p fun e => { e with wasFuzzed := true }).queueBuf q).wasFuzzed = true
    by_cases same : q = p
    · rw [same, AflState.modifyEntry_queueBuf_self]
    · rw [AflState.modifyEntry_queueBuf_of_ne _ _ _ same]
      exact marked.2
  · exact marked

theorem MarkedFuzzed.cullQueue {afl : AflState} (marked : MarkedFuzzed q afl) :
    MarkedFuzzed q (cullQueue afl) := by
  unfold AflFuzz.cullQueue
  split
  · exact marked
  · have culled : SameActivity afl ((List.range afl.mapSize).foldl cullIndex (cullReset afl)) :=
      foldl_invariant (P := SameActivity afl) (sameActivity_cullReset afl)
        fun i _ t same => same.trans (sameActivity_cullIndex t i)
    set middle := (List.range afl.mapSize).foldl cullIndex (cullReset afl)
    have last := marksRedundant_foldl (List.range middle.queuedItems) middle
    refine ⟨marked.1.trans_eq (last.items.trans culled.items).symm, ?_⟩
    exact (last.wasFuzzed q).trans ((culled.wasFuzzed q).trans marked.2)

/-- A call of `fuzz_one` for any entry, whichever engines it runs. -/
theorem MarkedFuzzed.fuzzOne {p : ℕ} {key : KeyModule} {original puppet : FuzzOneInput}
    (marked : MarkedFuzzed q s.afl) (queued : p < s.afl.queuedItems)
    (done : fuzzOne B key s p original puppet = .ok t) : MarkedFuzzed q t.afl := by
  have second {middle : SaveState} (first : MarkedFuzzed q middle.afl)
      (queued : p < middle.afl.queuedItems)
      (rest : (if middle.afl.limitTimeSig ≠ 0 ∧ key ≠ .psoUpdating
        then moptCommonFuzzing B middle p puppet else .ok middle) = .ok t) :
      MarkedFuzzed q t.afl := by
    split at rest
    · unfold moptCommonFuzzing at rest
      split at rest
      · cases rest
        exact first
      · obtain ⟨fuzzed, reached, result⟩ := bind_eq_ok_iff.mp rest
        cases result
        exact (first.of_keepsBooks (keepsBooks_fuzzEntry queued reached).1).of_keepsBooks
          (quiet_raiseFuzzLevel _ p).grows.toKeepsBooks
    · cases rest
      exact first
  unfold AflFuzz.fuzzOne at done
  dsimp only at done
  split at done
  · obtain ⟨middle, classic, rest⟩ := bind_eq_ok_iff.mp done
    rcases fuzzOneOriginal_cases queued classic with same | ⟨afl, kept, items, left⟩
    · exact second (same ▸ marked) (same ▸ queued) rest
    · refine second ?_ ((queued.trans_le kept.items).trans_eq items.symm) rest
      rw [left]
      exact (marked.of_keepsBooks kept).abandonEntry p
  · exact second marked queued done

/-- What happens in the main loop: an entry is fuzzed, the queue is culled, or entries are added
with their counters. -/
inductive LoopStep (B : Build) : SaveState → SaveState → Prop where
  | fuzz {s t : SaveState} (q : ℕ) (key : KeyModule) (original puppet : FuzzOneInput)
      (queued : q < s.afl.queuedItems) (done : fuzzOne B key s q original puppet = .ok t) :
      LoopStep B s t
  | cull (s : SaveState) : LoopStep B s { s with afl := cullQueue s.afl }
  | other {s t : SaveState} (kept : KeepsBooks s.afl t.afl) : LoopStep B s t

/-- **An entry that the classic engine has left stays fuzzed**: in every later state of the main
loop it is marked, so no later pick of it is one of an unfuzzed entry. -/
theorem wasFuzzed_of_run {later : SaveState} (queued : q < s.afl.queuedItems)
    (enabled : (s.afl.queueBuf q).disabled = false)
    (calibrated : (s.afl.queueBuf q).calFailed = 0)
    (taken : skipsEntry s.afl (s.afl.queueBuf q) input = false)
    (done : fuzzOneOriginal B s q input = .ok t) (running : t.afl.stopSoon = false)
    (run : Relation.ReflTransGen (LoopStep B) t later) : MarkedFuzzed q later.afl := by
  have left : MarkedFuzzed q t.afl := by
    constructor
    · rcases fuzzOneOriginal_cases queued done with same | ⟨afl, kept, items, -⟩
      · rwa [same]
      · exact (queued.trans_le kept.items).trans_eq items.symm
    · have books := exitBooks_fuzzOneOriginal queued enabled calibrated taken done running
      refine (congrArg ExitBooks.wasFuzzed books).trans ?_
      unfold ExitBooks.settled
      split
      · assumption
      · rfl
  induction run with
  | refl => exact left
  | tail _ step marked =>
      cases step with
      | fuzz p key original puppet queued done => exact marked.fuzzOne queued done
      | cull => exact marked.cullQueue
      | other kept => exact marked.of_keepsBooks kept

/-- A queue of one entry that is favored and about to be picked. -/
def onePending (fuzzed : Bool) : SaveState where
  afl :=
    { mapSize := 64
      queuedItems := 1
      activeItems := 1
      pendingNotFuzzed := 1
      queuedFavored := 1
      pendingFavored := 1
      smallestFavored := 0
      limitTimeSig := 1
      queueBuf := fun _ =>
        { len := 4, favored := true, trimDone := true, wasFuzzed := fuzzed, perfScore := 100 } }

/-- An entry that was marked before: both engines leave the books alone. -/
theorem engines_agree_marked :
    ∃ classic mopt, fuzzOneOriginal trivialBuild (onePending true) 0 {} = .ok classic ∧
      moptCommonFuzzing trivialBuild (onePending true) 0 {} = .ok mopt ∧
      mopt.afl.exitBooks 0 = classic.afl.exitBooks 0 :=
  ⟨_, _, rfl, rfl, ((engines_agree_iff trivialBuild (onePending true) 0 {} {} _ _ (by decide) rfl
    rfl (by decide) (by decide) rfl rfl rfl rfl).mpr rfl).1⟩

/-- A fresh favored entry that was picked through `smallest_favored`: the MOpt engine leaves it
unfuzzed, and the main loop picks it again. -/
theorem mopt_picks_again :
    directPick (onePending false).afl = some 0 ∧
      ∃ classic mopt, fuzzOneOriginal trivialBuild (onePending false) 0 {} = .ok classic ∧
        fuzzOne trivialBuild .pilot (onePending false) 0 {} {} = .ok mopt ∧
        (classic.afl.queueBuf 0).wasFuzzed = true ∧ (mopt.afl.queueBuf 0).wasFuzzed = false ∧
        mopt.afl.exitBooks 0 ≠ classic.afl.exitBooks 0 ∧ directPick mopt.afl = some 0 :=
  ⟨by decide, _, _, rfl, rfl, by decide, by decide, by decide, by decide⟩

end GreenFuzz.AflFuzz
