import GreenFuzz.AflFuzz.QueueGrowth

/-!
# One queue entry per execution

A call of `save_if_interesting` should add at most one entry to the queue, count at most one
hang, and return. Everything but a hang does: a crash is never added twice, and a hang that is
repeated, or that is dropped, is counted once.

With `AFL_KEEP_TIMEOUTS` a hang that does not repeat jumps back to `save_to_queue` with the fault
unchanged, and falls into the case of the hangs again. There it is counted a second time, and when
its calibration run is new to the hang map as well, it is run and kept again (`Requeues`).
`returnsOnce_iff` says that a call keeps its promise exactly when it does not make that jump.
-/

set_option autoImplicit false

namespace GreenFuzz.AflFuzz

open Library

variable {B : Build} {input : SaveInput} {c d : SaveLocals}

/-! ## Calls whose target goes on answering -/

/-- A call where the target, run again for the `i`-th time, does as `reruns i` says; only the
first `count` reruns are looked at. -/
def callWith (B : Build) (s : SaveState) (input : SaveInput) (reruns : ℕ → HangRerun)
    (count : ℕ) : Except SaveFault (Bool × SaveState) :=
  saveIfInteresting B s { input with hangRuns := (List.range count).map reruns }

/-- At most one entry was added, and each counter of the hangs moved at most once. -/
structure QueuesOnce (s t : SaveState) : Prop where
  items : t.afl.queuedItems ≤ s.afl.queuedItems + 1
  total : t.totalTmouts = s.totalTmouts ∨ t.totalTmouts = u64 (s.totalTmouts + 1)
  saved : t.savedTmouts = s.savedTmouts ∨ t.savedTmouts = u64 (s.savedTmouts + 1)

/-- The call returns, and works on at most one entry and one hang. -/
def ReturnsOnce (B : Build) (s : SaveState) (input : SaveInput) (reruns : ℕ → HangRerun) : Prop :=
  ∃ count kept t, callWith B s input reruns count = .ok (kept, t) ∧ QueuesOnce s t

/-- The fault of a rerun is neither a hang nor, while the fuzzer goes on, a crash. -/
def NotRepeated (afl : AflState) (run : RunOutcome) : Prop :=
  (afl.stopSoon = true ∨ run.stopSoon = true) ∨ run.fault ≠ .tmout ∧ run.fault ≠ .crash

/-- The hang is new, there is a longer timeout to try, it does not repeat, and it is kept. -/
structure JumpsBack (B : Build) (s : SaveState) (first : HangRerun) : Prop where
  room : s.savedHangs < keepUniqueHang
  new : (newToMap B s.afl .tmout).1 = true
  longer : s.afl.execTmout < s.hangTmout
  notRepeated : NotRepeated s.afl first.run
  keeps : s.aflKeepTimeouts = true

/-- The call examines the execution as a hang, and jumps back. -/
structure Requeues (B : Build) (s : SaveState) (input : SaveInput) (first : HangRerun) : Prop where
  nonempty : input.mem ≠ []
  hang : input.fault = .tmout
  unwanted : s.afl.crashMode ≠ .tmout
  heeded : s.aflIgnoreTimeouts = false
  jumps : JumpsBack B s first

/-! ## Nothing is left undecided -/

theorem calculateNewBits_ok (B : Build) (c : SaveLocals) (aligned : 64 ∣ c.s.afl.mapSize) :
    ∃ d, calculateNewBitsIfNecessary B c = .ok d := by
  unfold calculateNewBitsIfNecessary
  split
  · exact ⟨_, rfl⟩
  · split
    · exact ⟨_, rfl⟩
    · unfold hasNewBitsUnclassified
      rw [skim_eq _ _ _ aligned]
      cases decide (∃ a < c.s.afl.mapSize,
        countClassLookup8 (c.s.afl.traceBits a) &&& c.s.afl.virgin .bits a ≠ 0) with
      | false => exact ⟨_, rfl⟩
      | true => exact ⟨_, rfl⟩

theorem feedSan_succeeds (B : Build) (c : SaveLocals) (aligned : 64 ∣ c.s.afl.mapSize) :
    ∃ result, feedSan B c = .ok result := by
  obtain ⟨counted, found⟩ := calculateNewBits_ok B c aligned
  unfold feedSan
  split
  · exact ⟨_, rfl⟩
  · split
    · dsimp only
      split
      · exact ⟨_, rfl⟩
      · exact ⟨_, rfl⟩
    · rw [found]
      exact ⟨_, rfl⟩
    · dsimp only
      split
      · exact ⟨_, rfl⟩
      · exact ⟨_, rfl⟩

theorem runSanitizers_succeeds (B : Build) (input : SaveInput) (c : SaveLocals)
    (aligned : 64 ∣ c.s.afl.mapSize) : ∃ result, runSanitizers B input c = .ok result := by
  obtain ⟨⟨feed, fed⟩, result⟩ := feedSan_succeeds B c aligned
  unfold runSanitizers
  rw [result]
  cases feed with
  | false => exact ⟨_, rfl⟩
  | true => exact ⟨_, rfl⟩

theorem saveToQueue_fatal {fault : SaveFault} (aligned : 64 ∣ c.s.afl.mapSize)
    (failed : saveToQueue B input c = .error fault) : fault = .fatal := by
  have same := (keptBySanitizers_sameCrash B input).cksum c
  obtain ⟨counted, found⟩ := calculateNewBits_ok B (calculateCksumIfNecessary B c)
    (by rwa [same.mapSize])
  rcases bind_eq_error_iff.mp failed with undecided | ⟨_, counted_eq, failed⟩
  · rw [found] at undecided
    cases undecided
  · rcases bind_eq_error_iff.mp failed with taken | ⟨files, created, failed⟩
    · exact (createFile_error taken).1
    · dsimp only at failed
      split at failed
      · cases failed
        rfl
      · cases failed

theorem keepAsCrash_fatal {fault : SaveFault} (failed : keepAsCrash B input c = .error fault) :
    fault = .fatal := by
  rcases keepAsCrash_returns B input c with ⟨d, done⟩ | ⟨fatal, -, -⟩
  · rw [done] at failed
    cases failed
  · rw [fatal] at failed
    cases failed
    rfl

theorem keepAsHang_fatal {fault : SaveFault} (failed : keepAsHang B input c = .error fault) :
    fault = .fatal := by
  rcases bind_eq_error_iff.mp failed with taken | ⟨files, created, failed⟩
  · exact (createFile_error taken).1
  · cases failed

/-! ## One visit of the case of the hangs -/

/-- The hang was counted, and nothing was kept. -/
structure CountedHang (s t : SaveState) : Prop where
  items : t.afl.queuedItems = s.afl.queuedItems
  total : t.totalTmouts = u64 (s.totalTmouts + 1)
  saved : t.savedTmouts = s.savedTmouts

theorem CountedHang.queuesOnce {s t : SaveState} (counted : CountedHang s t) : QueuesOnce s t :=
  ⟨by have := counted.items; omega, Or.inr counted.total, Or.inl counted.saved⟩

theorem newToMap_keeps (B : Build) (afl : AflState) (map : VirginMap) :
    (newToMap B afl map).2.execTmout = afl.execTmout ∧
      (newToMap B afl map).2.stopSoon = afl.stopSoon := by
  unfold newToMap
  split
  · exact ⟨rfl, rfl⟩
  · unfold hasNewBits
    dsimp only
    cases map <;> split <;> exact ⟨rfl, rfl⟩

theorem countHang_new_iff (B : Build) (c : SaveLocals) :
    (countHang B c).1 = true ↔
      c.s.savedHangs < keepUniqueHang ∧ (newToMap B c.s.afl .tmout).1 = true := by
  unfold countHang
  dsimp only
  split
  · rename_i full
    exact iff_of_false Bool.false_ne_true fun ⟨room, _⟩ => absurd room (Nat.not_lt.mpr full)
  · rename_i room
    exact (and_iff_right (Nat.lt_of_not_le room)).symm

theorem countHang_counted (B : Build) (c : SaveLocals) : CountedHang c.s (countHang B c).2.s := by
  have quiet := quiet_countHang B c
  refine ⟨quiet.items, ?_, ?_⟩
  · unfold countHang
    dsimp only
    split
    · rfl
    · split <;> rfl
  · unfold countHang
    dsimp only
    split
    · rfl
    · split <;> rfl

/-- Counting a hang keeps what decides whether it is run again and kept. -/
theorem countHang_keeps (B : Build) (c : SaveLocals) :
    (countHang B c).2.s.afl.execTmout = c.s.afl.execTmout ∧
      (countHang B c).2.s.afl.stopSoon = c.s.afl.stopSoon ∧
      (countHang B c).2.s.hangTmout = c.s.hangTmout ∧
      (countHang B c).2.s.aflKeepTimeouts = c.s.aflKeepTimeouts := by
  obtain ⟨timeout, stop⟩ := newToMap_keeps B c.s.afl .tmout
  unfold countHang
  dsimp only
  split
  · exact ⟨rfl, rfl, rfl, rfl⟩
  · split
    · exact ⟨timeout, stop, rfl, rfl⟩
    · exact ⟨timeout, stop, rfl, rfl⟩

theorem rerunHang_stopSoon (c : SaveLocals) (rerun : HangRerun) :
    (rerunHang c rerun).s.afl.stopSoon = (c.s.afl.stopSoon || rerun.run.stopSoon) :=
  fuzzRunTarget_stopSoon c.s.afl rerun.run

theorem keepAsHang_s (kept : keepAsHang B input c = .ok d) :
    d.s = { c.s with savedHangs := d.s.savedHangs, hangFiles := d.s.hangFiles } := by
  obtain ⟨files, created, result⟩ := bind_eq_ok_iff.mp kept
  cases result
  rfl

/-- The case as it is when the hang is kept in the queue. -/
def keptHang (B : Build) (c : SaveLocals) (rerun : HangRerun) : SaveLocals :=
  let c := rerunHang (countHang B c).2 rerun
  { c with s := { c.s with savedTmouts := u64 (c.s.savedTmouts + 1) } }

/-- A visit that does not jump back ends with the hang counted, or tries to save it as a hang or as
a crash. -/
def Settles (B : Build) (input : SaveInput) (c : SaveLocals)
    (result : Except SaveFault SaveLocals) : Prop :=
  ∃ e, CountedHang c.s e.s ∧
    (result = .ok e ∨ result = keepAsHang B input e ∨ result = keepAsCrash B input e)

theorem Settles.counted {result : Except SaveFault SaveLocals} (settles : Settles B input c result)
    (done : result = .ok d) : CountedHang c.s d.s := by
  obtain ⟨e, counted, (ended | hang | crash)⟩ := settles
  · rw [ended] at done
    cases done
    exact counted
  · rw [hang] at done
    have quiet := quiet_keepAsHang done
    exact ⟨quiet.items.trans counted.items,
      (congrArg SaveState.totalTmouts (keepAsHang_s done)).trans counted.total,
      (congrArg SaveState.savedTmouts (keepAsHang_s done)).trans counted.saved⟩
  · rw [crash] at done
    have quiet := quiet_keepAsCrash done
    exact ⟨quiet.items.trans counted.items,
      (congrArg SaveState.totalTmouts (keepAsCrash_s done)).trans counted.total,
      (congrArg SaveState.savedTmouts (keepAsCrash_s done)).trans counted.saved⟩

theorem Settles.fatal {result : Except SaveFault SaveLocals} {fault : SaveFault}
    (settles : Settles B input c result) (failed : result = .error fault) : fault = .fatal := by
  obtain ⟨e, -, (ended | hang | crash)⟩ := settles
  · rw [ended] at failed
    cases failed
  · rw [hang] at failed
    exact keepAsHang_fatal failed
  · rw [crash] at failed
    exact keepAsCrash_fatal failed

/-- The case of the hangs is left, or entered again with the hang kept in the queue. -/
theorem examineHang_cons (B : Build) (input : SaveInput) (c : SaveLocals) (rerun : HangRerun)
    (reruns : List HangRerun) :
    (JumpsBack B c.s rerun ∧ examineHang B input (rerun :: reruns) c =
      saveToQueue B { input with calibration := rerun.calibration } (keptHang B c rerun) >>=
        examineHang B input reruns) ∨
    (¬ JumpsBack B c.s rerun ∧ Settles B input c (examineHang B input (rerun :: reruns) c)) := by
  have counted := countHang_counted B c
  obtain ⟨timeout, stop, longer, keeps⟩ := countHang_keeps B c
  have again : CountedHang c.s (rerunHang (countHang B c).2 rerun).s := by
    have ran := quiet_rerunHang (countHang B c).2 rerun
    exact ⟨ran.items.trans counted.items, counted.total, counted.saved⟩
  have stopped := rerunHang_stopSoon (countHang B c).2 rerun
  rw [stop] at stopped
  have repeated (faulty : (c.s.afl.stopSoon || rerun.run.stopSoon) = false)
      (fault : rerun.run.fault = .tmout ∨ rerun.run.fault = .crash) :
      ¬ JumpsBack B c.s rerun := by
    intro jumps
    obtain ⟨before, during⟩ := Bool.or_eq_false_iff.mp faulty
    rcases jumps.notRepeated with (here | there) | ⟨noHang, noCrash⟩
    · rw [before] at here
      cases here
    · rw [during] at there
      cases there
    · exact fault.elim noHang noCrash
  unfold examineHang
  dsimp only
  split
  · rename_i old
    refine Or.inr ⟨fun jumps => ?_, _, counted, Or.inl rfl⟩
    rw [(countHang_new_iff B c).mpr ⟨jumps.room, jumps.new⟩] at old
    cases old
  · rename_i new
    obtain ⟨room, fresh⟩ := (countHang_new_iff B c).mp (by simpa using new)
    split
    · rename_i short
      rw [timeout, longer] at short
      exact Or.inr ⟨fun jumps => absurd jumps.longer (Nat.not_lt.mpr short), _, counted,
        Or.inr (Or.inl rfl)⟩
    · rename_i long
      rw [timeout, longer] at long
      rw [stopped]
      split
      · rename_i crash
        simp only [Bool.and_eq_true, Bool.not_eq_true', decide_eq_true_eq] at crash
        exact Or.inr ⟨repeated crash.1 (Or.inr crash.2), _, again, Or.inr (Or.inr rfl)⟩
      · rename_i noCrash
        split
        · rename_i other
          have kept : (rerunHang (countHang B c).2 rerun).s.aflKeepTimeouts =
            c.s.aflKeepTimeouts := keeps
          by_cases keep : c.s.aflKeepTimeouts = true
          · rw [if_pos (kept.trans keep)]
            refine Or.inl ⟨⟨room, fresh, Nat.lt_of_not_le long, ?_, keep⟩, rfl⟩
            unfold NotRepeated
            simp only [Bool.and_eq_true, Bool.not_eq_true', decide_eq_true_eq, not_and,
              Bool.or_eq_true, Bool.or_eq_false_iff] at noCrash other
            by_cases going : c.s.afl.stopSoon = true ∨ rerun.run.stopSoon = true
            · exact Or.inl going
            · refine Or.inr ⟨other.resolve_left going, noCrash ?_⟩
              simpa using going
          · rw [if_neg (fun there => keep (kept.symm.trans there))]
            exact Or.inr ⟨fun jumps => keep jumps.keeps, _, again, Or.inl rfl⟩
        · rename_i hang
          simp only [Bool.or_eq_true, decide_eq_true_eq, not_or, not_not] at hang
          refine Or.inr ⟨repeated ?_ (Or.inl hang.2), _, again, Or.inr (Or.inl rfl)⟩
          simpa using hang.1

/-! ## A whole examination -/

theorem u64_add (n k : ℕ) : u64 (u64 n + k) = u64 (n + k) := Nat.mod_add_mod n _ k

/-- A hang that is kept in the queue was counted, and has its entry. -/
theorem keptHang_queued {rerun : HangRerun}
    (queued : saveToQueue B input (keptHang B c rerun) = .ok d) :
    d.s.totalTmouts = u64 (c.s.totalTmouts + 1) ∧
      d.s.afl.queuedItems = c.s.afl.queuedItems + 1 := by
  have counted := countHang_counted B c
  have ran := quiet_rerunHang (countHang B c).2 rerun
  constructor
  · exact (congrArg SaveState.totalTmouts (saveToQueue_s queued)).trans counted.total
  · rw [saveToQueue_items queued]
    exact congrArg (· + 1) (ran.items.trans counted.items)

/-- An examination counts the hang once more than it adds entries. -/
theorem examineHang_counts (reruns : List HangRerun)
    (done : examineHang B input reruns c = .ok d) :
    ∃ k, d.s.totalTmouts = u64 (c.s.totalTmouts + (k + 1)) ∧
      d.s.afl.queuedItems = c.s.afl.queuedItems + k := by
  induction reruns generalizing c with
  | nil =>
      have counted := countHang_counted B c
      unfold examineHang at done
      dsimp only at done
      split at done
      · cases done
        exact ⟨0, counted.total, counted.items⟩
      · split at done
        · have kept := Settles.counted ⟨_, counted, Or.inr (Or.inl rfl)⟩ done
          exact ⟨0, kept.total, kept.items⟩
        · cases done
  | cons rerun reruns ih =>
      rcases examineHang_cons B input c rerun reruns with ⟨-, jumped⟩ | ⟨-, settles⟩
      · rw [jumped] at done
        obtain ⟨kept, queued, again⟩ := bind_eq_ok_iff.mp done
        obtain ⟨total, items⟩ := keptHang_queued queued
        obtain ⟨k, total', items'⟩ := ih again
        refine ⟨k + 1, ?_, ?_⟩
        · rw [total', total, u64_add]
          congr 1
          omega
        · rw [items', items]
          omega
      · have kept := settles.counted done
        exact ⟨0, kept.total, kept.items⟩

/-- After a jump back the hang was counted twice, and an entry was added. -/
theorem examineHang_jumped {rerun : HangRerun} {reruns : List HangRerun}
    (jumps : JumpsBack B c.s rerun)
    (done : examineHang B input (rerun :: reruns) c = .ok d) : ¬ QueuesOnce c.s d.s := by
  intro once
  rcases examineHang_cons B input c rerun reruns with ⟨-, jumped⟩ | ⟨settled, -⟩
  · rw [jumped] at done
    obtain ⟨kept, queued, again⟩ := bind_eq_ok_iff.mp done
    obtain ⟨total, items⟩ := keptHang_queued queued
    obtain ⟨k, total', items'⟩ := examineHang_counts reruns again
    rw [total, u64_add] at total'
    have one := once.items
    have none : k = 0 := by omega
    subst none
    have moved := once.total
    rw [total'] at moved
    unfold u64 at moved
    omega
  · exact settled jumps

/-! ## The other calls -/

/-- No entry was added, and no hang counted. -/
structure SameHangs (s t : SaveState) : Prop where
  items : t.afl.queuedItems = s.afl.queuedItems
  total : t.totalTmouts = s.totalTmouts
  saved : t.savedTmouts = s.savedTmouts

theorem SameHangs.queuesOnce {s t : SaveState} (same : SameHangs s t) : QueuesOnce s t :=
  ⟨same.items.trans_le (Nat.le_succ _), Or.inl same.total, Or.inl same.saved⟩

theorem SameHangs.trans {s t u : SaveState} (first : SameHangs s t) (second : SameHangs t u) :
    SameHangs s u :=
  ⟨second.items.trans first.items, second.total.trans first.total,
    second.saved.trans first.saved⟩

theorem SameHangs.before {s t u : SaveState} (first : SameHangs s t) (once : QueuesOnce t u) :
    QueuesOnce s u := by
  obtain ⟨items, total, saved⟩ := once
  rw [first.items] at items
  rw [first.total] at total
  rw [first.saved] at saved
  exact ⟨items, total, saved⟩

theorem sameHangs_keepAsCrash (kept : keepAsCrash B input c = .ok d) : SameHangs c.s d.s :=
  ⟨(quiet_keepAsCrash kept).items, by rw [keepAsCrash_s kept],
    by rw [keepAsCrash_s kept]⟩

/-- The steps before the labels count no hang. -/
theorem keptBySanitizers_sameHangs (B : Build) (input : SaveInput) :
    KeptBySanitizers B input fun c d => SameHangs c.s d.s where
  refl _ := ⟨rfl, rfl, rfl⟩
  trans := SameHangs.trans
  classify c := by
    unfold classifyIfNecessary
    split <;> exact ⟨rfl, rfl, rfl⟩
  sum _ _ _ := ⟨rfl, rfl, rfl⟩
  look c := ⟨(quiet_hasNewBits B.variant.wordSize c.s.afl .bits).items, rfl, rfl⟩
  note _ _ := ⟨rfl, rfl, rfl⟩
  count _ _ := ⟨rfl, rfl, rfl⟩
  mark _ _ _ := ⟨rfl, rfl, rfl⟩
  run c sanIdx := ⟨(quiet_fuzzRunTarget c.s.afl (input.sanRuns sanIdx)).items, rfl, rfl⟩

theorem sameHangs_saveFault {fault : FsrvRunResult} (noHang : fault ≠ .tmout)
    (done : saveFault B input fault c = .ok d) : SameHangs c.s d.s := by
  unfold saveFault at done
  split at done
  · exact absurd rfl noHang
  · exact sameHangs_keepAsCrash done
  · cases done
  · cases done
    exact ⟨rfl, rfl, rfl⟩

theorem saveFault_fatal {fault : FsrvRunResult} {e : SaveFault} (noHang : fault ≠ .tmout)
    (failed : saveFault B input fault c = .error e) : e = .fatal := by
  unfold saveFault at failed
  split at failed
  · exact absurd rfl noHang
  · exact keepAsCrash_fatal failed
  · cases failed
    rfl
  · cases failed

theorem sanFault_ne_tmout (crashed : Bool) : sanFault crashed ≠ .tmout := by
  cases crashed <;> decide

/-- A wanted execution is added at most once: the sanitizers make no hang of it. -/
theorem queuesOnce_saveWanted (done : saveWanted B input c = .ok d) : QueuesOnce c.s d.s := by
  obtain ⟨⟨crashed, ran⟩, sanitized, rest⟩ := bind_eq_ok_iff.mp done
  obtain ⟨counted, found, rest⟩ := bind_eq_ok_iff.mp rest
  have kept := keptBySanitizers_sameHangs B input
  have before := (kept.sanitizers sanitized).trans (kept.newBits found)
  dsimp only at rest
  split at rest
  · split at rest
    · exact (before.trans (sameHangs_saveFault (by decide) rest)).queuesOnce
    · cases rest
      exact ⟨before.queuesOnce.items, before.queuesOnce.total, before.queuesOnce.saved⟩
  · obtain ⟨queued, added, rest⟩ := bind_eq_ok_iff.mp rest
    have after := sameHangs_saveFault (sanFault_ne_tmout crashed) rest
    refine before.before ⟨?_, Or.inl ?_, Or.inl ?_⟩
    · rw [after.items, saveToQueue_items added]
    · rw [after.total, saveToQueue_s added]
    · rw [after.saved, saveToQueue_s added]

theorem saveWanted_fatal {fault : SaveFault} (aligned : 64 ∣ c.s.afl.mapSize)
    (failed : saveWanted B input c = .error fault) : fault = .fatal := by
  obtain ⟨⟨crashed, ran⟩, sanitized⟩ := runSanitizers_succeeds B input c aligned
  have ranAligned : 64 ∣ ran.s.afl.mapSize := by
    rw [((keptBySanitizers_sameCrash B input).sanitizers sanitized).mapSize]
    exact aligned
  obtain ⟨counted, found⟩ := calculateNewBits_ok B ran ranAligned
  have countedAligned : 64 ∣ counted.s.afl.mapSize := by
    rw [((keptBySanitizers_sameCrash B input).newBits found).mapSize]
    exact ranAligned
  rcases bind_eq_error_iff.mp failed with undecided | ⟨result, sanitized', failed⟩
  · rw [sanitized] at undecided
    cases undecided
  · rw [sanitized] at sanitized'
    cases sanitized'
    rcases bind_eq_error_iff.mp failed with undecided | ⟨result, found', failed⟩
    · rw [found] at undecided
      cases undecided
    · rw [found] at found'
      cases found'
      dsimp only at failed
      split at failed
      · split at failed
        · exact saveFault_fatal (by decide) failed
        · cases failed
      · rcases bind_eq_error_iff.mp failed with lost | ⟨queued, added, failed⟩
        · exact saveToQueue_fatal countedAligned lost
        · exact saveFault_fatal (sanFault_ne_tmout crashed) failed

/-! ## The call -/

theorem newToMap_frequency (B : Build) (c : SaveLocals) :
    (newToMap B (updatePathFrequency B c).s.afl .tmout).1 = (newToMap B c.s.afl .tmout).1 := by
  obtain ⟨trace, paths, counted, same⟩ := updatePathFrequency_afl B c
  rw [counted]
  unfold newToMap hasNewBits AflState.virgin
  dsimp only
  rw [same]
  split
  · rfl
  · rfl

theorem jumpsBack_frequency (B : Build) (c : SaveLocals) (first : HangRerun) :
    JumpsBack B (updatePathFrequency B c).s first ↔ JumpsBack B c.s first := by
  obtain ⟨trace, paths, counted, -⟩ := updatePathFrequency_afl B c
  have room : (updatePathFrequency B c).s.savedHangs = c.s.savedHangs := by
    rw [updatePathFrequency_s B c]
  have longer : (updatePathFrequency B c).s.hangTmout = c.s.hangTmout := by
    rw [updatePathFrequency_s B c]
  have keeps : (updatePathFrequency B c).s.aflKeepTimeouts = c.s.aflKeepTimeouts := by
    rw [updatePathFrequency_s B c]
  have timeout : (updatePathFrequency B c).s.afl.execTmout = c.s.afl.execTmout := by
    rw [counted]
  have stop : NotRepeated (updatePathFrequency B c).s.afl first.run ↔
      NotRepeated c.s.afl first.run := by
    rw [counted]
    exact Iff.rfl
  constructor
  · rintro ⟨h₁, h₂, h₃, h₄, h₅⟩
    rw [room] at h₁
    rw [newToMap_frequency] at h₂
    rw [timeout, longer] at h₃
    rw [keeps] at h₅
    exact ⟨h₁, h₂, h₃, stop.mp h₄, h₅⟩
  · rintro ⟨h₁, h₂, h₃, h₄, h₅⟩
    rw [← room] at h₁
    rw [← newToMap_frequency] at h₂
    rw [← timeout, ← longer] at h₃
    rw [← keeps] at h₅
    exact ⟨h₁, h₂, h₃, stop.mpr h₄, h₅⟩

variable {s t : SaveState} {reruns : ℕ → HangRerun} {count : ℕ} {kept : Bool}

/-- The input with the first reruns of a target. -/
def SaveInput.withReruns (input : SaveInput) (reruns : ℕ → HangRerun) (count : ℕ) : SaveInput :=
  { input with hangRuns := (List.range count).map reruns }

/-- A hang that is looked at goes through the case of the hangs. -/
theorem callWith_hang (nonempty : input.mem ≠ []) (hang : input.fault = .tmout)
    (unwanted : s.afl.crashMode ≠ .tmout) (heeded : s.aflIgnoreTimeouts = false) :
    callWith B s input reruns count =
      (examineHang B (input.withReruns reruns count) ((List.range count).map reruns)
        (updatePathFrequency B { s := s, mem := input.mem }) >>= fun c =>
          .ok (c.keeping, c.s)) := by
  unfold callWith saveIfInteresting
  dsimp only
  rw [if_neg nonempty, if_neg (by simp [heeded]),
    if_neg (fun wanted => unwanted (wanted.symm.trans hang))]
  show (saveFault B (input.withReruns reruns count) input.fault _ >>= _) = _
  rw [hang]
  rfl

/-- A call that does not jump back is done with one rerun, and works on one entry and one hang,
unless it ends the fuzzer. -/
theorem callWith_once (reruns : ℕ → HangRerun) (aligned : 64 ∣ s.afl.mapSize)
    (stays : ¬ Requeues B s input (reruns 0)) :
    callWith B s input reruns 1 = .error .fatal ∨
      ∃ kept t, callWith B s input reruns 1 = .ok (kept, t) ∧ QueuesOnce s t := by
  have counted := (keptBySanitizers_sameHangs B input).frequency { s := s, mem := input.mem }
  by_cases empty : input.mem = []
  · refine Or.inr ⟨false, s, ?_, le_of_lt (Nat.lt_succ_self _), Or.inl rfl, Or.inl rfl⟩
    unfold callWith saveIfInteresting
    rw [if_pos empty]
  by_cases ignored : input.fault = .tmout ∧ s.aflIgnoreTimeouts
  · refine Or.inr ⟨false, _, ?_, counted.queuesOnce⟩
    unfold callWith saveIfInteresting
    rw [if_neg empty, if_pos ignored]
  by_cases wanted : input.fault = s.afl.crashMode
  · have call : callWith B s input reruns 1 =
        (saveWanted B (input.withReruns reruns 1)
          (updatePathFrequency B { s := s, mem := input.mem }) >>= fun c =>
            .ok (c.keeping, c.s)) := by
      unfold callWith saveIfInteresting
      dsimp only
      rw [if_neg empty, if_neg ignored, if_pos wanted]
      rfl
    have frequencyAligned :
        64 ∣ (updatePathFrequency B { s := s, mem := input.mem }).s.afl.mapSize := by
      rw [((keptBySanitizers_sameCrash B input).frequency _).mapSize]
      exact aligned
    rw [call]
    cases done : saveWanted B (input.withReruns reruns 1)
        (updatePathFrequency B { s := s, mem := input.mem }) with
    | error fault =>
        rw [saveWanted_fatal frequencyAligned done]
        exact Or.inl rfl
    | ok d => exact Or.inr ⟨_, _, rfl, counted.before (queuesOnce_saveWanted done)⟩
  by_cases hang : input.fault = .tmout
  · have heeded : s.aflIgnoreTimeouts = false := by simpa [hang] using ignored
    have unwanted : s.afl.crashMode ≠ .tmout := fun same => wanted (hang.trans same.symm)
    rw [callWith_hang empty hang unwanted heeded]
    have settled : ¬ JumpsBack B (updatePathFrequency B { s := s, mem := input.mem }).s
        (reruns 0) := fun jumps =>
      stays ⟨empty, hang, unwanted, heeded, (jumpsBack_frequency B _ _).mp jumps⟩
    rcases examineHang_cons B (input.withReruns reruns 1)
        (updatePathFrequency B { s := s, mem := input.mem }) (reruns 0) [] with
      ⟨jumps, -⟩ | ⟨-, settles⟩
    · exact absurd jumps settled
    · show (examineHang B (input.withReruns reruns 1) [reruns 0] _ >>= _) = _ ∨ _
      cases done : examineHang B (input.withReruns reruns 1) [reruns 0]
          (updatePathFrequency B { s := s, mem := input.mem }) with
      | error fault =>
          rw [settles.fatal done]
          exact Or.inl rfl
      | ok d =>
          exact Or.inr ⟨_, _, by
            show (examineHang B (input.withReruns reruns 1) [reruns 0] _ >>= _) = _
            rw [done]
            rfl, counted.before (settles.counted done).queuesOnce⟩
  · have call : callWith B s input reruns 1 =
        (saveFault B (input.withReruns reruns 1) input.fault
          (updatePathFrequency B { s := s, mem := input.mem }) >>= fun c =>
            .ok (c.keeping, c.s)) := by
      unfold callWith saveIfInteresting
      dsimp only
      rw [if_neg empty, if_neg ignored, if_neg wanted]
      rfl
    rw [call]
    cases done : saveFault B (input.withReruns reruns 1) input.fault
        (updatePathFrequency B { s := s, mem := input.mem }) with
    | error fault =>
        rw [saveFault_fatal hang done]
        exact Or.inl rfl
    | ok d => exact Or.inr ⟨_, _, rfl, (counted.trans (sameHangs_saveFault hang done)).queuesOnce⟩

/-- A call that jumps back does not keep the promise. -/
theorem not_queuesOnce_of_requeues (requeues : Requeues B s input (reruns 0))
    (done : callWith B s input reruns count = .ok (kept, t)) : ¬ QueuesOnce s t := by
  have counted := (keptBySanitizers_sameHangs B input).frequency { s := s, mem := input.mem }
  have jumps := (jumpsBack_frequency B { s := s, mem := input.mem } (reruns 0)).mpr requeues.jumps
  rw [callWith_hang requeues.nonempty requeues.hang requeues.unwanted requeues.heeded] at done
  obtain ⟨d, examined, result⟩ := bind_eq_ok_iff.mp done
  cases result
  cases count with
  | zero =>
      -- without a rerun the examination cannot end
      have new := (countHang_new_iff B _).mpr ⟨jumps.room, jumps.new⟩
      obtain ⟨timeout, -, longer, -⟩ :=
        countHang_keeps B (updatePathFrequency B { s := s, mem := input.mem })
      unfold examineHang at examined
      dsimp only [List.range_zero, List.map_nil] at examined
      rw [if_neg (by simp [new]), if_neg (by
        rw [timeout, longer]
        exact Nat.not_le.mpr jumps.longer)] at examined
      cases examined
  | succ count =>
      rw [List.range_succ_eq_map, List.map_cons] at examined
      intro once
      refine examineHang_jumped jumps examined ⟨?_, ?_, ?_⟩
      · rw [counted.items]
        exact once.items
      · rw [counted.total]
        exact once.total
      · rw [counted.saved]
        exact once.saved

/-- **At most one entry and one hang, exactly without the jump back.** For a target with any
behaviour on the reruns, a call that does not end the fuzzer returns with at most one entry added
and each counter of the hangs moved at most once, if and only if it does not jump back to
`save_to_queue` from the case of the hangs. -/
theorem returnsOnce_iff (B : Build) (s : SaveState) (input : SaveInput) (reruns : ℕ → HangRerun)
    (aligned : 64 ∣ s.afl.mapSize)
    (survives : ∀ count, callWith B s input reruns count ≠ .error .fatal) :
    ReturnsOnce B s input reruns ↔ ¬ Requeues B s input (reruns 0) := by
  constructor
  · rintro ⟨count, kept, t, done, once⟩ requeues
    exact not_queuesOnce_of_requeues requeues done once
  · intro stays
    rcases callWith_once reruns aligned stays with fatal | ⟨kept, t, done, once⟩
    · exact absurd fatal (survives 1)
    · exact ⟨1, kept, t, done, once⟩

/-- A fuzzer without instrumentation that keeps timeouts. -/
def keepsTimeouts : SaveState where
  afl := { mapSize := 64, nonInstrumentedMode := true, execTmout := 20 }
  aflKeepTimeouts := true

/-- A target that answers the first `n` times it is run with the longer timeout, and then hangs.
With the short timeout it hangs always. -/
def answersFirst (n i : ℕ) : HangRerun where
  run := if i < n then {} else { fault := .tmout }
  calibration := { runs := fun _ => { fault := .tmout } }

/-- A hang that repeats at once is counted once. -/
theorem returnsOnce_repeated :
    ReturnsOnce trivialBuild keepsTimeouts { mem := [65], fault := .tmout } (answersFirst 0) := by
  refine (returnsOnce_iff trivialBuild keepsTimeouts { mem := [65], fault := .tmout }
    (answersFirst 0) (by decide) ?_).mpr ?_
  · intro count fatal
    cases count with
    | zero => cases fatal
    | succ n =>
        unfold callWith at fatal
        rw [List.range_succ_eq_map, List.map_cons] at fatal
        cases fatal
  · intro requeues
    rcases requeues.jumps.notRepeated with (here | there) | ⟨noHang, -⟩
    · cases here
    · cases there
    · exact noHang rfl

/-- A hang that does not repeat twice is counted three times and queued twice. -/
theorem hang_queued_twice :
    ¬ ReturnsOnce trivialBuild keepsTimeouts { mem := [65], fault := .tmout } (answersFirst 2) ∧
      (callWith trivialBuild keepsTimeouts { mem := [65], fault := .tmout } (answersFirst 2)
        3).toOption.map (fun r => (r.2.afl.queuedItems, r.2.totalTmouts, r.2.savedTmouts)) =
          some (2, 3, 2) := by
  constructor
  · rintro ⟨count, kept, t, done, once⟩
    have jumps : JumpsBack trivialBuild keepsTimeouts (answersFirst 2 0) :=
      ⟨by decide, rfl, by decide, Or.inr ⟨by decide, by decide⟩, rfl⟩
    exact not_queuesOnce_of_requeues ⟨by decide, rfl, by decide, rfl, jumps⟩ done once
  · decide +kernel

end GreenFuzz.AflFuzz
