import GreenFuzz.AflFuzz.FastResume

/-!
# What the record loop restores

Reading back a file that was written from a queue `saved` succeeds exactly when as many test
cases were read as the file has records (`fastResume_writeFastresume`). Entry `i` then has the
fields and the minimised trace of `saved i`, and everything that is not in a record is as it was
(`resumed_queueBuf`).
-/

set_option autoImplicit false

namespace GreenFuzz.AflFuzz

open Library

variable {saved : ℕ → QueueEntry} {m n i : ℕ}

/-! ## Reading back -/

theorem readRecord_entryChunks (e : QueueEntry) (rest : List Chunk) :
    readRecord (entryChunks e ++ rest) =
      .ok ((e.region, e.traceMini.map TraceMini.bytes), rest) := by
  unfold entryChunks
  cases e.traceMini with
  | none => rfl
  | some mini => rfl

/-- The records of the entries from `k` up to `m`. -/
def recordsFrom (saved : ℕ → QueueEntry) (k m : ℕ) : List Chunk :=
  (List.range' k (m - k)).flatMap fun i => entryChunks (saved i)

theorem recordsFrom_of_lt (saved : ℕ → QueueEntry) {k : ℕ} (below : k < m) :
    recordsFrom saved k m = entryChunks (saved k) ++ recordsFrom saved (k + 1) m := by
  have shape : m - k = (m - (k + 1)) + 1 := by omega
  rw [recordsFrom, shape, List.range'_succ, List.flatMap_cons]
  rfl

theorem recordsFrom_self (saved : ℕ → QueueEntry) (m : ℕ) : recordsFrom saved m m = [] := by
  simp [recordsFrom]

theorem recordsFrom_ne_nil (saved : ℕ → QueueEntry) (below : n < m) :
    recordsFrom saved n m ≠ [] := by
  rw [recordsFrom_of_lt saved below]
  unfold entryChunks
  cases (saved n).traceMini with
  | none => simp
  | some mini => simp

/-- One round, as a function of the saved entries. -/
def restoreRecord (saved : ℕ → QueueEntry) (afl : AflState) (i : ℕ) : AflState :=
  let afl := restoreEntry afl i ((saved i).region, (saved i).traceMini.map TraceMini.bytes)
  countRestored { afl with
    totalBitmapSize := u64 (afl.totalBitmapSize + (afl.queueBuf i).bitmapSize)
    totalBitmapEntries := u64 (afl.totalBitmapEntries + 1) } i

/-- The first `count` rounds. -/
def restoreAll (saved : ℕ → QueueEntry) (count : ℕ) (afl : AflState) : AflState :=
  (List.range count).foldl (restoreRecord saved) afl

/-- Without a trace there is nothing to score. -/
theorem updateBitmapScore_no_trace (libm : Libm) (afl : AflState) (q : ℕ) :
    updateBitmapScore libm afl q false = afl := by
  unfold updateBitmapScore
  split
  · rfl
  · rfl

theorem resumeRecord_recordsFrom (libm : Libm) (afl : AflState) (below : i < m) :
    resumeRecord libm (afl, recordsFrom saved i m) i =
      .ok (restoreRecord saved afl i, recordsFrom saved (i + 1) m) := by
  unfold resumeRecord
  rw [recordsFrom_of_lt saved below, readRecord_entryChunks]
  show Except.ok (countRestored (updateBitmapScore libm _ i false) i, _) = _
  rw [updateBitmapScore_no_trace]
  rfl

theorem foldlM_resumeRecord (libm : Libm) (afl : AflState) {count : ℕ} (le : count ≤ m) :
    (List.range count).foldlM (resumeRecord libm) (afl, recordsFrom saved 0 m) =
      .ok (restoreAll saved count afl, recordsFrom saved count m) := by
  induction count with
  | zero => rfl
  | succ count ih =>
      rw [List.range_succ, List.foldlM_append, ih (by omega)]
      show (resumeRecord libm (_, recordsFrom saved count m) count >>= pure) = _
      rw [resumeRecord_recordsFrom libm _ (by omega), restoreAll, restoreAll, List.range_succ,
        List.foldl_append]
      rfl

theorem foldlM_resumeRecord_short (libm : Libm) (afl : AflState) {count : ℕ} (more : m < count) :
    (List.range count).foldlM (resumeRecord libm) (afl, recordsFrom saved 0 m) =
      .error .shortRead := by
  induction count with
  | zero => cases more
  | succ count ih =>
      rw [List.range_succ, List.foldlM_append]
      rcases Nat.lt_succ_iff_lt_or_eq.mp more with later | rfl
      · rw [ih later]
        rfl
      · rw [foldlM_resumeRecord libm afl le_rfl, recordsFrom_self]
        rfl

/-- The session after the record loop. -/
def resumed (s afl : AflState) : AflState :=
  { restoreAll s.queueBuf afl.queuedItems { afl with
      virginBits := s.virginBits
      virginTmout := s.virginTmout
      virginCrash := s.virginCrash
      varBytes := s.varBytes } with
    reinitTable := true }

/-- **Reading back a saved session** succeeds exactly when there are as many test cases as
records. -/
theorem fastResume_writeFastresume (libm : Libm) (s afl : AflState) :
    fastResume libm afl (writeFastresume s) =
      if afl.queuedItems = s.queuedItems then .ok (resumed s afl)
      else if afl.queuedItems < s.queuedItems then .error .trailingData
      else .error .shortRead := by
  have records : (List.range s.queuedItems).flatMap (fun i => entryChunks (s.queueBuf i)) =
      recordsFrom s.queueBuf 0 s.queuedItems := by
    rw [recordsFrom, Nat.sub_zero, List.range_eq_range']
  show ((List.range afl.queuedItems).foldlM (resumeRecord libm)
    (_, (List.range s.queuedItems).flatMap _) >>= _) = _
  rw [records]
  rcases Nat.lt_trichotomy afl.queuedItems s.queuedItems with fewer | same | more
  · rw [foldlM_resumeRecord libm _ fewer.le, if_neg fewer.ne, if_pos fewer]
    show (if (recordsFrom s.queueBuf afl.queuedItems s.queuedItems).isEmpty then _ else _) = _
    rw [if_neg (by simpa using recordsFrom_ne_nil s.queueBuf fewer)]
  · rw [foldlM_resumeRecord libm _ same.le, if_pos same]
    show (if (recordsFrom s.queueBuf afl.queuedItems s.queuedItems).isEmpty then _ else _) = _
    rw [if_pos (by rw [same, recordsFrom_self]; rfl)]
    rfl
  · rw [foldlM_resumeRecord_short libm _ more, if_neg more.ne', if_neg (Nat.not_lt.mpr more.le)]
    rfl

/-! ## What is restored -/

/-- An entry with a record stored in it. -/
def QueueEntry.restored (e record : QueueEntry) (mapSize : ℕ) : QueueEntry :=
  { e.withRegion record.region with
    traceMini :=
      match record.traceMini.map TraceMini.bytes with
      | none => e.traceMini
      | some bytes => some ⟨(mapSize + 7) / 8, bytes⟩ }

/-- What one round changes besides the counters. -/
theorem restoreRecord_eq (saved : ℕ → QueueEntry) (afl : AflState) (i : ℕ) :
    ∃ pending active unstable favored pendingFavored size entries, restoreRecord saved afl i =
      { afl with
        queueBuf := Function.update afl.queueBuf i ((afl.queueBuf i).restored (saved i) afl.mapSize)
        pendingNotFuzzed := pending
        activeItems := active
        queuedVariable := unstable
        queuedFavored := favored
        pendingFavored := pendingFavored
        totalBitmapSize := size
        totalBitmapEntries := entries } :=
  ⟨_, _, _, _, _, _, _, rfl⟩

/-- The entries after the first `count` rounds. -/
structure RestoredUpTo (saved : ℕ → QueueEntry) (start : AflState) (count : ℕ) (afl : AflState) :
    Prop where
  mapSize : afl.mapSize = start.mapSize
  queuedItems : afl.queuedItems = start.queuedItems
  topRated : afl.topRated = start.topRated
  smallestFavored : afl.smallestFavored = start.smallestFavored
  read : ∀ i < count, afl.queueBuf i = (start.queueBuf i).restored (saved i) start.mapSize
  unread : ∀ i, count ≤ i → afl.queueBuf i = start.queueBuf i

theorem restoredUpTo_restoreAll (saved : ℕ → QueueEntry) (count : ℕ) (start : AflState) :
    RestoredUpTo saved start count (restoreAll saved count start) := by
  refine foldl_range_invariant (P := RestoredUpTo saved start)
    ⟨rfl, rfl, rfl, rfl, fun _ none => absurd none (Nat.not_lt_zero _), fun _ _ => rfl⟩ ?_
  intro i _ afl before
  obtain ⟨_, _, _, _, _, _, _, round⟩ := restoreRecord_eq saved afl i
  rw [round]
  refine ⟨before.mapSize, before.queuedItems, before.topRated, before.smallestFavored, ?_, ?_⟩
  · intro j early
    rcases Nat.lt_succ_iff_lt_or_eq.mp early with earlier | rfl
    · show Function.update afl.queueBuf i _ j = _
      rw [Function.update_of_ne earlier.ne]
      exact before.read j earlier
    · show Function.update afl.queueBuf j _ j = _
      rw [Function.update_self, before.unread j le_rfl, before.mapSize]
  · intro j late
    show Function.update afl.queueBuf i _ j = _
    rw [Function.update_of_ne (by omega)]
    exact before.unread j (by omega)

/-- Entry `i` of a resumed session. -/
theorem resumed_queueBuf (s start : AflState) (queued : i < start.queuedItems) :
    (resumed s start).queueBuf i =
      (start.queueBuf i).restored (s.queueBuf i) start.mapSize :=
  (restoredUpTo_restoreAll s.queueBuf start.queuedItems { start with
    virginBits := s.virginBits
    virginTmout := s.virginTmout
    virginCrash := s.virginCrash
    varBytes := s.varBytes }).read i queued

/-- The resumed session has the size and the owners of the new one. -/
theorem resumed_frame (s start : AflState) :
    (resumed s start).queuedItems = start.queuedItems ∧
      (resumed s start).mapSize = start.mapSize ∧
      (resumed s start).topRated = start.topRated := by
  have loop := restoredUpTo_restoreAll s.queueBuf start.queuedItems { start with
    virginBits := s.virginBits
    virginTmout := s.virginTmout
    virginCrash := s.virginCrash
    varBytes := s.varBytes }
  exact ⟨loop.queuedItems, loop.mapSize, loop.topRated⟩

/-! ## What is counted -/

theorem restoreEntry_marks (saved : ℕ → QueueEntry) (afl : AflState) (i : ℕ) :
    (restoreEntry afl i ((saved i).region,
      (saved i).traceMini.map TraceMini.bytes)).queueBuf i =
      (afl.queueBuf i).restored (saved i) afl.mapSize :=
  AflState.modifyEntry_queueBuf_self _ _ _

/-- A record is counted by its own marks. -/
theorem restoreRecord_counters (saved : ℕ → QueueEntry) (afl : AflState) (i : ℕ) :
    (restoreRecord saved afl i).queuedFavored =
        (if (saved i).favored then u32 (afl.queuedFavored + 1) else afl.queuedFavored) ∧
      (restoreRecord saved afl i).pendingFavored =
        (if (saved i).favored ∧ !(saved i).wasFuzzed then u32 (afl.pendingFavored + 1)
        else afl.pendingFavored) ∧
      (restoreRecord saved afl i).pendingNotFuzzed =
        (if (saved i).wasFuzzed ∨ (saved i).disabled then u32Pred afl.pendingNotFuzzed
        else afl.pendingNotFuzzed) ∧
      (restoreRecord saved afl i).activeItems =
        (if (saved i).disabled then u32Pred afl.activeItems else afl.activeItems) := by
  unfold restoreRecord countRestored
  dsimp only
  rw [restoreEntry_marks]
  refine ⟨rfl, rfl, ?_, rfl⟩
  show (if (saved i).disabled ∧ !(saved i).wasFuzzed then
      u32Pred (if (saved i).wasFuzzed then u32Pred afl.pendingNotFuzzed else afl.pendingNotFuzzed)
    else if (saved i).wasFuzzed then u32Pred afl.pendingNotFuzzed else afl.pendingNotFuzzed) = _
  cases (saved i).wasFuzzed <;> cases (saved i).disabled <;> simp

end GreenFuzz.AflFuzz
