import GreenFuzz.AflFuzz.SyncImport

/-!
# Noticing that a peer was restarted

A peer that is restarted empties its queue and writes its `cmdline` anew. The next sync from it
should notice, and set the counter of the cases seen back to 0.

A sync touches its own file `.last` and then compares the times of the two files. The time of
`.last` is therefore that of the sync itself and not that of the previous one, as the comment in the
code has it. A restart is noticed when it falls into the same tick of the clock as the touch, or
between the touch and the comparison (`restart_noticed_iff`).

The peer, the clock and the stages of a sync are steps of one system, in any order. The clock has
any granularity, and never goes back.
-/

set_option autoImplicit false

namespace GreenFuzz.AflFuzz

open Library

variable {B : Build} {peer : String} {f g : SyncState} {queue news : List SavedFile}
  {cases : String → CaseRun} {maxStartId : ℕ} {i j : Import}

/-! ## What a sync logs -/

theorem importCase_logs {file : SavedFile} (going : i.stopped = false)
    (done : importCase B peer maxStartId cases i file = .ok j) :
    ∃ what, j.f.visits peer = i.f.visits peer ++ [(file.name, what)] := by
  have visited (what : Visit) : (i.visit peer file.name what).f.visits peer =
      i.f.visits peer ++ [(file.name, what)] := Function.update_self ..
  simp only [importCase, going, Bool.false_eq_true, if_false] at done
  split at done
  · cases done
    exact ⟨.unreadable, visited _⟩
  · split at done
    · cases done
      exact ⟨.empty, visited _⟩
    · split at done
      · cases done
        exact ⟨.oversized, visited _⟩
      · split at done
        · obtain ⟨-, -, -, visits, -⟩ := executeCase_ok done
          exact ⟨.executed, by rw [visits, visited]⟩
        · cases done
          exact ⟨.known, visited _⟩

theorem foldlM_logs (done : news.foldlM (importCase B peer maxStartId cases) i = .ok j) :
    ∃ later, j.f.visits peer = i.f.visits peer ++ later := by
  induction news generalizing i with
  | nil =>
      cases done
      exact ⟨[], (List.append_nil _).symm⟩
  | cons file news ih =>
      cases stopped : i.stopped with
      | true =>
          rw [foldlM_importCase_stopped _ stopped] at done
          cases done
          exact ⟨[], (List.append_nil _).symm⟩
      | false =>
          rw [List.foldlM_cons] at done
          obtain ⟨k, visited, rest⟩ := bind_eq_ok_iff.mp done
          obtain ⟨what, first⟩ := importCase_logs stopped visited
          obtain ⟨later, logged⟩ := ih rest
          exact ⟨(file.name, what) :: later, by rw [logged, first, List.append_assoc]; rfl⟩

/-- A loop over cases logs something. -/
theorem foldlM_logs_ne (some : news ≠ []) (going : i.stopped = false)
    (done : news.foldlM (importCase B peer maxStartId cases) i = .ok j) :
    j.f.visits peer ≠ i.f.visits peer := by
  cases news with
  | nil => exact absurd rfl some
  | cons file news =>
      rw [List.foldlM_cons] at done
      obtain ⟨k, visited, rest⟩ := bind_eq_ok_iff.mp done
      obtain ⟨what, first⟩ := importCase_logs going visited
      obtain ⟨later, logged⟩ := foldlM_logs rest
      rw [logged, first, List.append_assoc]
      intro same
      have none := List.append_right_eq_self.mp same
      cases none

/-- A sync that comes to the cases either finds none, and leaves the counter, or logs some. -/
theorem importCases_logs (done : importCases B f peer queue cases = .ok g) :
    newCases (f.notes peer).seen queue = [] ∧ (g.notes peer).seen = (f.notes peer).seen ∧
        g.visits peer = f.visits peer ∨
      newCases (f.notes peer).seen queue ≠ [] ∧ g.visits peer ≠ f.visits peer := by
  simp only [importCases] at done
  split at done
  · rename_i none
    cases done
    refine Or.inl ⟨none, ?_, rfl⟩
    rw [modifyNotes_self, SyncNotes.seen, dropMax_counter]
    rfl
  · rename_i some
    obtain ⟨i, looped, rest⟩ := bind_eq_ok_iff.mp done
    refine Or.inr ⟨some, ?_⟩
    have logged := foldlM_logs_ne some rfl looped
    split at rest
    · cases rest
      exact logged
    · cases rest
      exact logged

/-! ## Runs -/

/-- How far a sync from the peer is: the queue was listed, and `.last` was touched at some time. -/
inductive SyncPhase where
  | idle
  | listed (queue : List SavedFile)
  | touched (queue : List SavedFile) (time : ℕ)

/-- An instance, the output directory of a peer, and the clock. The flag tells whether the peer was
restarted since the last sync. -/
structure RestartState where
  clock : ℕ
  f : SyncState
  phase : SyncPhase := .idle
  queue : List SavedFile := []
  cmdline : ℕ
  restarted : Bool := false

/-- The output directory of the peer. -/
def RestartState.dir (s : RestartState) : InstanceDir where
  queue := some s.queue
  cmdline := some s.cmdline

/-- The comparison of the times, and what follows. -/
structure FinishesSync (B : Build) (peer : String) (s t : RestartState) (listing : List SavedFile)
    (touchedAt : ℕ) : Prop where
  phase : s.phase = .touched listing touchedAt
  syncs : ∃ cases, syncTouched B s.f peer s.dir listing cases = .ok t.f
  after : t = { s with f := t.f, phase := .idle, restarted := false }

/-- One step of the clock, of the peer, or of the instance. -/
inductive RestartStep (B : Build) (peer : String) : RestartState → RestartState → Prop where
  | ticks (s : RestartState) (now : ℕ) (later : s.clock ≤ now) :
      RestartStep B peer s { s with clock := now }
  | restarts (s : RestartState) :
      RestartStep B peer s { s with queue := [], cmdline := s.clock, restarted := true }
  | adds (s : RestartState) (file : SavedFile) :
      RestartStep B peer s { s with queue := s.queue ++ [file] }
  | works (s : RestartState) (g : SyncState) (last : (g.notes peer).last = (s.f.notes peer).last) :
      RestartStep B peer s { s with f := g }
  | lists (s : RestartState) (idle : s.phase = .idle) :
      RestartStep B peer s { s with phase := .listed s.queue }
  | touches (s : RestartState) (listing : List SavedFile) (listed : s.phase = .listed listing) :
      RestartStep B peer s { s with
        f := s.f.touchLast peer s.clock, phase := .touched listing s.clock }
  | finishes (s t : RestartState) (listing : List SavedFile) (touchedAt : ℕ)
      (sync : FinishesSync B peer s t listing touchedAt) : RestartStep B peer s t

/-- At first no sync is going on. The notes can be those of an earlier session. -/
def restartSystem (B : Build) (peer : String) : TransitionSystem RestartState where
  init := fun s => 0 < s.clock ∧ s.phase = .idle ∧ s.restarted = false
  step := RestartStep B peer

/-- The counter is 0, and the peer was skipped this time. -/
structure Noticed (peer : String) (s t : RestartState) : Prop where
  counter : (t.f.notes peer).seen = 0
  skipped : t.f.visits peer = s.f.visits peer

/-- There was nothing to set back, and nothing to import. -/
def NothingToReset (peer : String) (s : RestartState) (listing : List SavedFile) : Prop :=
  (s.f.notes peer).seen = 0 ∧ newCases 0 listing = []

variable {s t : RestartState} {listing : List SavedFile} {touchedAt : ℕ}

/-- A sync that has touched `.last` has done so at a time of the clock. -/
structure TouchedOnTime (peer : String) (s : RestartState) : Prop where
  started : 0 < s.clock
  last : ∀ listing touchedAt, s.phase = .touched listing touchedAt →
    (s.f.notes peer).last = some touchedAt ∧ 0 < touchedAt

theorem touchedOnTime_of_reachable (run : Reachable (restartSystem B peer) s) :
    TouchedOnTime peer s := by
  refine Reachable.invariant ?_ ?_ run
  · rintro s ⟨started, idle, -⟩
    refine ⟨started, fun listing touchedAt touched => ?_⟩
    rw [idle] at touched
    cases touched
  · intro s t _ onTime taken
    cases taken with
    | ticks now later => exact ⟨onTime.started.trans_le later, onTime.last⟩
    | restarts => exact ⟨onTime.started, onTime.last⟩
    | adds file => exact ⟨onTime.started, onTime.last⟩
    | works g last =>
        refine ⟨onTime.started, fun listing touchedAt touched => ?_⟩
        obtain ⟨here, positive⟩ := onTime.last listing touchedAt touched
        exact ⟨last.trans here, positive⟩
    | lists idle =>
        refine ⟨onTime.started, fun listing touchedAt touched => ?_⟩
        cases touched
    | touches listing listed =>
        refine ⟨onTime.started, fun listing touchedAt touched => ?_⟩
        cases touched
        refine ⟨?_, onTime.started⟩
        show ((s.f.touchLast peer s.clock).notes peer).last = _
        rw [SyncState.touchLast, modifyNotes_self]
    | finishes t listing touchedAt sync =>
        rw [sync.after]
        refine ⟨onTime.started, fun listing touchedAt touched => ?_⟩
        cases touched

/-- What a sync does after the touch depends on the two times. -/
theorem noticed_iff (onTime : TouchedOnTime peer s)
    (sync : FinishesSync B peer s t listing touchedAt) :
    Noticed peer s t ↔ touchedAt ≤ s.cmdline ∨ NothingToReset peer s listing := by
  obtain ⟨last, positive⟩ := onTime.last listing touchedAt sync.phase
  have check : looksRestarted (s.f.notes peer) s.dir = decide (touchedAt ≤ s.cmdline) := by
    simp only [looksRestarted, last, RestartState.dir, positive.ne', ne_eq, not_false_eq_true,
      decide_true, Bool.true_and]
  obtain ⟨cases, done⟩ := sync.syncs
  simp only [syncTouched, check] at done
  split at done
  · rename_i inTime
    have reset := Except.ok.inj done
    refine iff_of_true ⟨?_, ?_⟩ (Or.inl (of_decide_eq_true inTime))
    · rw [← reset, modifyNotes_self]
      rfl
    · rw [← reset]
      rfl
  · rename_i late
    have notInTime : ¬ touchedAt ≤ s.cmdline := fun inTime => late (decide_eq_true inTime)
    rw [or_iff_right notInTime]
    rcases importCases_logs done with ⟨none, kept, quiet⟩ | ⟨some, logged⟩
    · constructor
      · rintro ⟨counter, -⟩
        have zero := kept.symm.trans counter
        rw [zero] at none
        exact ⟨zero, none⟩
      · rintro ⟨zero, -⟩
        exact ⟨kept.trans zero, quiet⟩
    · refine iff_of_false (fun noticed => logged noticed.skipped) ?_
      rintro ⟨zero, none⟩
      rw [zero] at some
      exact some none

/-- **When a restart is noticed.** In every run, the first sync after a restart sets the counter to
0 and skips the peer if and only if the peer was not restarted before the tick in which the sync
touched `.last`, or there was nothing to set back. -/
theorem restart_noticed_iff (run : Reachable (restartSystem B peer) s)
    (sync : FinishesSync B peer s t listing touchedAt) :
    (s.restarted = true → Noticed peer s t) ↔
      (s.restarted = true → touchedAt ≤ s.cmdline ∨ NothingToReset peer s listing) :=
  imp_congr_right fun _ => noticed_iff (touchedOnTime_of_reachable run) sync

/-- An instance that has seen one case of the peer. -/
def sawOne : SyncState :=
  { ignoresTimeouts with notes := fun _ => { counter := some 1, last := some 1 } }

/-- A sync that has touched `.last` at some time, after a restart of the peer at time 5. -/
def afterRestart (touchedAt : ℕ) : RestartState where
  clock := touchedAt
  f := sawOne.touchLast "peer" touchedAt
  phase := .touched [] touchedAt
  cmdline := 5
  restarted := true

theorem reachable_afterRestart {touchedAt : ℕ} (later : 5 ≤ touchedAt) :
    Reachable (restartSystem trivialBuild "peer") (afterRestart touchedAt) := by
  have start : Reachable (restartSystem trivialBuild "peer")
      { clock := 5, f := sawOne, cmdline := 1 } := Reachable.init ⟨by decide, rfl, rfl⟩
  have restarted := start.step (RestartStep.restarts _)
  have ticked := restarted.step (RestartStep.ticks _ touchedAt later)
  have listed := ticked.step (RestartStep.lists _ rfl)
  exact listed.step (RestartStep.touches _ [] rfl)

theorem newCases_nil (k : ℕ) : newCases k [] = [] := by
  have sorted : alphasort (dotEntries ++ []) = dotEntries := by
    refine alphasort_numbered (fun i file here => ?_) (Nat.zero_le _)
    cases here
  rw [newCases, sorted, List.dropWhile_eq_nil_iff]
  intro dot member
  rw [not_matchesId_dot k dot member]
  rfl

/-- In the tick of the restart, the sync notices it. -/
theorem noticed_same_tick : ∃ t, FinishesSync trivialBuild "peer" (afterRestart 5) t [] 5 ∧
    Noticed "peer" (afterRestart 5) t := by
  obtain ⟨g, done, -⟩ := syncPeer_calm trivialBuild "peer" (afterRestart 5).dir [] 5
    (f := sawOne) ⟨rfl, rfl⟩
  have sync : FinishesSync trivialBuild "peer" (afterRestart 5)
      { afterRestart 5 with f := g, phase := .idle, restarted := false } [] 5 :=
    ⟨rfl, ⟨_, done⟩, rfl⟩
  refine ⟨_, sync, ?_⟩
  exact (restart_noticed_iff (reachable_afterRestart le_rfl) sync).mpr
    (fun _ => Or.inl le_rfl) rfl

/-- One tick later it does not, and the counter stays at one. -/
theorem restart_missed : ∃ t, Reachable (restartSystem trivialBuild "peer") (afterRestart 6) ∧
    FinishesSync trivialBuild "peer" (afterRestart 6) t [] 6 ∧ (afterRestart 6).restarted = true ∧
      (t.f.notes "peer").seen = 1 := by
  obtain ⟨g, done, -⟩ := syncPeer_calm trivialBuild "peer" (afterRestart 6).dir [] 6
    (f := sawOne) ⟨rfl, rfl⟩
  have sync : FinishesSync trivialBuild "peer" (afterRestart 6)
      { afterRestart 6 with f := g, phase := .idle, restarted := false } [] 6 :=
    ⟨rfl, ⟨_, done⟩, rfl⟩
  refine ⟨_, reachable_afterRestart (by decide), sync, rfl, ?_⟩
  have late : looksRestarted ((sawOne.touchLast "peer" 6).notes "peer") (afterRestart 6).dir =
      false := rfl
  simp only [syncPeer, syncTouched, late, Bool.false_eq_true, if_false] at done
  rcases importCases_logs done with ⟨-, kept, -⟩ | ⟨some, -⟩
  · exact kept
  · exact absurd (newCases_nil _) some

end GreenFuzz.AflFuzz
