import GreenFuzz.Cmin.Selection

/-!
# Selecting with a crash directory

With a crash directory `Worker.run` counts the tuples of crashing files, but chooses
representatives among the other files only. So it chooses as it does without a crash directory
when crashing files have no trace (`AgreesQuietly.runWorker`), and every tuple of a file that does
not crash has its representative.

A tuple that only crashing files have is counted and has no representative. The selection looks
for the representative of each counted tuple, unless it has the tuple already, and then indexes
`files` with the largest file index. **The selection raises no exception, and the saved files cover
the files that do not crash, exactly if each tuple of a crashing file is a tuple of another file
too** (`main_crash_dir_iff`).
-/

set_option autoImplicit false

namespace GreenFuzz.Cmin

open Library

/-! ## Quiet crashes -/

/-- The settings without a crash directory. -/
def Setup.together (S : Setup) : Setup := { S with crashDir := false }

section Quiet

variable (S : Setup) (read : ℕ → Reading S.maxTuple)

/-- The tuples of a file that does not crash. -/
def quietTrace (idx : ℕ) : List ℕ := if (read idx).crash then [] else (read idx).trace

theorem mem_quietTrace {idx t : ℕ} :
    t ∈ quietTrace S read idx ↔ (read idx).crash = false ∧ t ∈ (read idx).trace := by
  rw [quietTrace]
  cases (read idx).crash <;> simp

/-- The readings with no tuples for crashing files. -/
def quiet (idx : ℕ) : Reading S.together.maxTuple where
  trace := quietTrace S read idx
  crash := (read idx).crash
  energy := (read idx).energy
  trace_lt := fun t member => (read idx).trace_lt t ((mem_quietTrace S read).mp member).2
  energy_le := (read idx).energy_le

end Quiet

/-- A tuple of a file that does not crash. -/
def OrdinaryTuple (S : Setup) (read : ℕ → Reading S.maxTuple) (t : ℕ) : Prop :=
  ∃ idx < S.numFiles, (read idx).crash = false ∧ t ∈ (read idx).trace

/-- Each tuple of a crashing file is a tuple of a file that does not crash. -/
def CrashesCovered (S : Setup) (read : ℕ → Reading S.maxTuple) : Prop :=
  ∀ idx < S.numFiles, (read idx).crash = true → ∀ t ∈ (read idx).trace, OrdinaryTuple S read t

/-- What is claimed: the selection raises no exception, and the saved files that do not crash have
the tuples of all files that do not crash. -/
def SelectsOrdinary (S : Setup) (read : ℕ → Reading S.maxTuple)
    (result : Except Fault (List ℕ)) : Prop :=
  ∃ saved, result = .ok saved ∧
    ∀ t, (∃ idx ∈ saved, (read idx).crash = false ∧ t ∈ (read idx).trace) ↔ OrdinaryTuple S read t

/-! ## The workers -/

variable {S : Setup} {read : ℕ → Reading S.maxTuple}

/-- Two workers that differ at most in what they count. -/
structure AgreesQuietly (s s' : WorkerState) : Prop where
  m : s.m = s'.m
  bestEnergy : s.bestEnergy = s'.bestEnergy
  tracePack : s.tracePack = s'.tracePack
  packPos : s.packPos = s'.packPos
  progress : s.progress = s'.progress

/-- A crashing file is not chosen. -/
theorem chooseFile_crash (crashDir : S.crashDir = true) {s : WorkerState} {idx : ℕ}
    (crash : (read idx).crash = true) : chooseFile S read s idx = ⟨s.m, s.bestEnergy, false⟩ := by
  rw [chooseFile, if_neg (by simp [crash, crashDir])]

/-- With a crash directory a file is chosen as if crashing files had no trace. -/
theorem chooseFile_quiet (crashDir : S.crashDir = true) {s s' : WorkerState}
    (agrees : AgreesQuietly s s') (idx : ℕ) :
    chooseFile S read s idx = chooseFile S.together (quiet S read) s' idx := by
  have right : chooseFile S.together (quiet S read) s' idx =
      (quietTrace S read idx).foldl (considerTuple S.energyFirst idx (read idx).energy)
        ⟨s'.m, s'.bestEnergy, false⟩ := if_pos (Or.inr rfl)
  rw [right, quietTrace, ← agrees.m, ← agrees.bestEnergy]
  cases crash : (read idx).crash with
  | false => rw [chooseFile, if_pos (Or.inl (by rw [crash]; rfl)), if_neg Bool.false_ne_true]
  | true => rw [chooseFile_crash crashDir crash, if_pos rfl, List.foldl_nil]

theorem AgreesQuietly.processFile (crashDir : S.crashDir = true) {s s' : WorkerState}
    (agrees : AgreesQuietly s s') (worker idx : ℕ) :
    AgreesQuietly (processFile S read worker s idx)
      (processFile S.together (quiet S read) worker s' idx) := by
  have choice : chooseFile S read s idx = chooseFile S.together (quiet S read) s' idx :=
    chooseFile_quiet crashDir agrees idx
  unfold Cmin.processFile
  dsimp only
  rw [← choice]
  cases used : (chooseFile S read s idx).used with
  | false =>
      rw [if_neg Bool.false_ne_true, if_neg Bool.false_ne_true]
      exact ⟨rfl, rfl, agrees.tracePack, agrees.packPos, by rw [agrees.progress]⟩
  | true =>
      have ordinary : (read idx).crash = false := by
        by_contra crash
        rw [chooseFile_crash crashDir (Bool.not_eq_false _ ▸ crash)] at used
        cases used
      have trace : (quiet S read idx).trace = (read idx).trace :=
        if_neg (by rw [ordinary]; exact Bool.false_ne_true)
      have size : S.together.tupleItemsize = S.tupleItemsize := rfl
      rw [if_pos rfl, if_pos rfl, trace, size]
      exact ⟨rfl, rfl, by rw [agrees.tracePack], by rw [agrees.packPos],
        by rw [agrees.progress, agrees.packPos]⟩

/-- The workers differ at most in what they count. -/
theorem AgreesQuietly.runWorker (crashDir : S.crashDir = true) (worker : ℕ)
    (batches : List (List ℕ)) :
    AgreesQuietly (runWorker S read worker batches)
      (runWorker S.together (quiet S read) worker batches) := by
  rw [runWorker_eq_foldl, runWorker_eq_foldl]
  have run (files : List ℕ) {s s' : WorkerState} (agrees : AgreesQuietly s s') :
      AgreesQuietly (files.foldl (Cmin.processFile S read worker) s)
        (files.foldl (Cmin.processFile S.together (quiet S read) worker) s') := by
    induction files generalizing s s' with
    | nil => exact agrees
    | cons idx files ih => exact ih (agrees.processFile crashDir worker idx)
  exact run _ ⟨rfl, rfl, rfl, rfl, rfl⟩

/-- A worker counts the tuples of all its files. -/
theorem counted_runWorker (worker : ℕ) (batches : List (List ℕ)) (t : ℕ) :
    t ∈ (runWorker S read worker batches).counter.map Prod.fst ↔
      ∃ idx ∈ batches.flatten, t ∈ (read idx).trace := by
  have counter (s : WorkerState) (idx : ℕ) :
      (processFile S read worker s idx).counter = countTuples s.counter (read idx).trace := by
    unfold processFile
    dsimp only
    split <;> rfl
  have run (files : List ℕ) (s : WorkerState) :
      t ∈ (files.foldl (processFile S read worker) s).counter.map Prod.fst ↔
        (∃ idx ∈ files, t ∈ (read idx).trace) ∨ t ∈ s.counter.map Prod.fst := by
    induction files generalizing s with
    | nil => simp
    | cons idx files ih =>
        rw [List.foldl_cons, ih, counter, mem_keys_countTuples]
        simp only [List.mem_cons, exists_eq_or_imp]
        rw [or_assoc]
        exact or_left_comm
  rw [runWorker_eq_foldl, run]
  simp [WorkerState.start]

/-! ## The selection -/

section Agree

variable {states states' : ℕ → WorkerState} (agrees : ∀ i, AgreesQuietly (states i) (states' i))

include agrees

theorem bestIdx_agrees (t : ℕ) : bestIdx S states t = bestIdx S.together states' t := by
  have consider : considerWorker S states t = considerWorker S.together states' t := by
    funext best i
    rw [considerWorker, considerWorker, (agrees i).m, (agrees i).bestEnergy]
    rfl
  have chosen : (fun i => (states i).m t) = fun i => (states' i).m t := by
    funext i
    rw [(agrees i).m]
  rw [bestIdx, bestIdx, bestPair, bestPair, consider, chosen]
  rfl

theorem readTrace_agrees (worker pos tupleCount : ℕ) :
    readTrace S states worker pos tupleCount =
      readTrace S.together states' worker pos tupleCount := by
  rw [readTrace, readTrace, (agrees worker).tracePack]
  rfl

/-- The selection does not depend on what the workers count. -/
theorem selectFiles_agrees (info : List (ℕ × (ℕ × ℕ × ℕ))) (allUnique : List (ℕ × ℕ)) :
    selectFiles S states info allUnique = selectFiles S.together states' info allUnique := by
  have once : selectOnce S states info = selectOnce S.together states' info := by
    funext s pair
    rw [selectOnce, selectOnce, bestIdx_agrees agrees]
    rfl
  have combine : combineAll S states = combineAll S.together states' := by
    funext jobs
    have one (worker : ℕ) :
        combineTraces S states worker = combineTraces S.together states' worker := by
      funext jobs
      simp only [combineTraces, readTrace_agrees agrees]
    simp only [combineAll, one]
    rfl
  have missing : selectMissing S states info = selectMissing S.together states' info := by
    funext s pair
    simp only [selectMissing, bestIdx_agrees agrees, readTrace_agrees agrees]
    rfl
  rw [selectFiles, selectFiles, once, combine, missing]

end Agree

/-! ## When the selection succeeds -/

section Success

variable {states : ℕ → WorkerState} {info : List (ℕ × (ℕ × ℕ × ℕ))}
  {messages : List (Option Placed)}
  {t : ℕ}

/-- Where no worker has a representative, the merged one is no file. -/
theorem bestIdx_of_missing (missing : ∀ i < S.workers, (states i).m t = S.maxFileIndex) :
    bestIdx S states t = S.maxFileIndex := by
  have pair : bestPair S states t = (infEn, S.maxFileIndex) := by
    refine foldl_invariant (P := fun best => best = (infEn, S.maxFileIndex)) rfl ?_
    intro i member best known
    rw [considerWorker_eq, if_pos (missing i (List.mem_range.mp member)), known]
  have least : ((List.range S.workers).map fun i => (states i).m t).min? =
      some S.maxFileIndex := by
    refine List.min?_eq_some_iff.mpr ⟨?_, fun m member => ?_⟩
    · exact List.mem_map.mpr ⟨0, List.mem_range.mpr S.workers_pos, missing 0 S.workers_pos⟩
    · obtain ⟨i, listed, rfl⟩ := List.mem_map.mp member
      exact (missing i (List.mem_range.mp listed)).ge
  rw [bestIdx, pair, if_pos rfl, least]
  rfl

/-- A file with a place was sent. -/
theorem sent_of_lookup {idx : ℕ} {entry : ℕ × ℕ × ℕ}
    (found : (traceInfo messages).lookup idx = some entry) :
    ∃ p, some p ∈ messages ∧ p.idx = idx := by
  induction messages using List.reverseRecOn with
  | nil => cases found
  | append_singleton messages message ih =>
      cases message with
      | none =>
          rw [traceInfo_append_none] at found
          obtain ⟨p, member, file⟩ := ih found
          exact ⟨p, List.mem_append_left _ member, file⟩
      | some q =>
          rw [traceInfo_append_some, lookup_assign] at found
          by_cases same : idx = q.idx
          · exact ⟨q, by simp, same.symm⟩
          · rw [if_neg same] at found
            obtain ⟨p, member, file⟩ := ih found
            exact ⟨p, List.mem_append_left _ member, file⟩

theorem lookup_of_place {idx : ℕ} {entry : ℕ × ℕ × ℕ} (placed : place info idx = .ok entry) :
    info.lookup idx = some entry := by
  unfold place at placed
  split at placed
  · rename_i known
    cases placed
    exact known
  · cases placed

theorem lt_of_checkFile {idx : ℕ} (checked : checkFile S idx = .ok ()) : idx < S.numFiles := by
  by_contra outside
  rw [checkFile, if_neg outside] at checked
  cases checked

variable (retrievable : ∀ idx entry, info.lookup idx = some entry →
  Retrievable S read states info idx)

include retrievable

/-- A round of the first phase that succeeds keeps the jobs right. -/
theorem selectOnce_ok_sound {s next : PhaseOne} (sound : s.Sound S read states) {pair : ℕ × ℕ}
    (ok : selectOnce S states info s pair = .ok next) : next.Sound S read states := by
  have whole := ok
  unfold selectOnce at ok
  dsimp only at ok
  split at ok
  · cases ok
    exact sound
  · split at ok
    · cases ok
      exact sound
    · obtain ⟨⟨⟩, -, rest⟩ := bind_eq_ok_iff.mp ok
      obtain ⟨entry, placed, -⟩ := bind_eq_ok_iff.mp rest
      obtain ⟨next', ok', sound'⟩ :=
        selectOnce_sound sound (retrievable _ entry (lookup_of_place placed))
      rw [whole] at ok'
      cases ok'
      exact sound'

/-- A round of the second phase that succeeds has its tuple already, or finds a file for it, and
adds the tuples of a listed file. -/
theorem selectMissing_ok {s next : List ℕ × Finset ℕ} {pair : ℕ × ℕ}
    (ok : selectMissing S states info s pair = .ok next) :
    (pair.1 ∈ s.2 ∧ next = s) ∨
      (pair.1 ∉ s.2 ∧ bestIdx S states pair.1 < S.numFiles ∧
        next = (s.1 ++ [bestIdx S states pair.1],
          s.2 ∪ (read (bestIdx S states pair.1)).trace.toFinset)) := by
  obtain ⟨saved, alreadyHave⟩ := s
  unfold selectMissing at ok
  dsimp only at ok
  split at ok
  · rename_i present
    cases ok
    exact Or.inl ⟨present, rfl⟩
  · rename_i new
    obtain ⟨⟨⟩, checked, rest⟩ := bind_eq_ok_iff.mp ok
    obtain ⟨⟨worker, pos, tupleCount⟩, placed, rest⟩ := bind_eq_ok_iff.mp rest
    obtain ⟨result, reads, final⟩ := bind_eq_ok_iff.mp rest
    have found := lookup_of_place placed
    obtain ⟨-, w, -, p, n, found', reads'⟩ := retrievable _ _ found
    rw [found] at found'
    cases found'
    rw [reads] at reads'
    cases reads'
    cases final
    exact Or.inr ⟨new, lt_of_checkFile checked, rfl⟩

/-- If the selection succeeds, each tuple is one of a listed file. -/
theorem covered_of_selectFiles {allUnique : List (ℕ × ℕ)} {saved : List ℕ}
    (represented : ∀ t, bestIdx S states t < S.numFiles → ∃ idx < S.numFiles, t ∈ (read idx).trace)
    (ok : selectFiles S states info allUnique = .ok saved) :
    ∀ pair ∈ allUnique, ∃ idx < S.numFiles, pair.1 ∈ (read idx).trace := by
  obtain ⟨once, phase_one, rest⟩ := bind_eq_ok_iff.mp ok
  obtain ⟨alreadyHave, combined, rest⟩ := bind_eq_ok_iff.mp rest
  obtain ⟨last, phase_two, -⟩ := bind_eq_ok_iff.mp rest
  have sound : once.Sound S read states := by
    refine foldlM_carries (P := fun (_ : List (ℕ × ℕ)) (s : PhaseOne) => s.Sound S read states)
      PhaseOne.sound_start ?_ phase_one
    exact fun _ _ _ _ _ sound ok => selectOnce_ok_sound retrievable sound ok
  rw [combineAll_spec sound] at combined
  cases combined
  -- what is collected are tuples of listed files, and so are the tuples that were passed
  have carried := foldlM_carries (P := fun (passed : List (ℕ × ℕ)) (s : List ℕ × Finset ℕ) =>
    (∀ t ∈ s.2, ∃ idx < S.numFiles, t ∈ (read idx).trace) ∧
      ∀ pair ∈ passed, ∃ idx < S.numFiles, pair.1 ∈ (read idx).trace)
    ⟨fun t member => ?_, nofun⟩ (fun passed pair _ s next held ok => ?_) phase_two
  · exact fun pair member => carried.2 pair (List.mem_reverse.mpr member)
  · obtain ⟨idx, saved, inside⟩ := mem_tuplesOf.mp member
    exact ⟨idx, sound.listed idx saved, inside⟩
  · obtain ⟨collected, passed_in⟩ := held
    rcases selectMissing_ok retrievable ok with ⟨present, rfl⟩ | ⟨-, listed, rfl⟩
    · refine ⟨collected, fun earlier member => ?_⟩
      rcases List.mem_append.mp member with before | now
      · exact passed_in earlier before
      · rw [List.mem_singleton.mp now]
        exact collected _ present
    · refine ⟨fun t member => ?_, fun earlier member => ?_⟩
      · rw [Finset.mem_union, List.mem_toFinset] at member
        rcases member with before | inside
        · exact collected t before
        · exact ⟨_, listed, inside⟩
      · rcases List.mem_append.mp member with before | now
        · exact passed_in earlier before
        · rw [List.mem_singleton.mp now]
          exact represented _ listed

end Success

theorem ordinary_iff {t : ℕ} :
    OrdinaryTuple S read t ↔ ∃ idx < S.together.numFiles, t ∈ (quiet S read idx).trace := by
  simp only [OrdinaryTuple, quiet, mem_quietTrace]
  rfl

/-- A merged representative that is a file stands for a tuple of a processed file. -/
theorem represented_of_bestIdx {states : ℕ → WorkerState} {handed : ℕ → List (List ℕ)} {t : ℕ}
    (known : ∀ i < S.workers, Represented S read i (handed i).flatten (states i))
    (files : ∀ idx, (∃ i < S.workers, idx ∈ (handed i).flatten) ↔ idx < S.numFiles)
    (listed : bestIdx S states t < S.numFiles) : ∃ idx < S.numFiles, t ∈ (read idx).trace := by
  have set : ∃ i < S.workers, (states i).m t ≠ S.maxFileIndex := by
    by_contra none
    push Not at none
    rw [bestIdx_of_missing none] at listed
    exact absurd listed (not_lt.mpr S.numFiles_le_maxFileIndex)
  obtain ⟨i, worker, set⟩ := set
  obtain ⟨p, sent, file, inside⟩ := (known i worker).used t set
  have processed := ((known i worker).placed p sent).2.1
  exact ⟨_, (files _).mp ⟨i, worker, file ▸ processed⟩, inside⟩

/-- **With a crash directory the selection raises no exception, and saves files that cover those
that do not crash, exactly if each tuple of a crashing file is a tuple of another file too.** -/
theorem main_crash_dir_iff (S : Setup) (read : ℕ → Reading S.maxTuple)
    (crashDir : S.crashDir = true)
    (q : QueueState) (run : Reachable (jobQueue S) q) (stopped : q.running = ∅)
    (messages : List (Option Placed))
    (arrival : messages.Perm ((List.range S.workers).flatMap fun i =>
      (runWorker S read i (q.handed i)).progress))
    (arrived : List ℕ) (joined : arrived.Perm (List.range S.workers)) :
    SelectsOrdinary S read (main S read q.handed messages arrived) ↔ CrashesCovered S read := by
  set states : ℕ → WorkerState := fun i => runWorker S read i (q.handed i) with states_eq
  let states' : ℕ → WorkerState := fun i => runWorker S.together (quiet S read) i (q.handed i)
  have agrees (i : ℕ) : AgreesQuietly (states i) (states' i) :=
    AgreesQuietly.runWorker crashDir i (q.handed i)
  have files := mem_handed_iff run stopped
  have known (i : ℕ) (worker : i < S.together.workers) :
      Represented S.together (quiet S read) i (q.handed i).flatten (states' i) :=
    runWorker_represented rfl fun idx member => (files idx).mp ⟨i, worker, member⟩
  have arrival' : messages.Perm ((List.range S.together.workers).flatMap fun i =>
      (states' i).progress) := by
    simp only [← (agrees _).progress]
    exact arrival
  set allUnique := mostCommon (arrived.foldl (fun counter i =>
    addCounter counter (states i).counter) [])
  have own (i : ℕ) (_ : i < S.together.workers) (t : ℕ) :
      t ∈ (states i).counter.map Prod.fst ↔ ∃ idx ∈ (q.handed i).flatten, t ∈ (read idx).trace :=
    counted_runWorker i (q.handed i) t
  have counted := merged_counts files joined own
  have same : main S read q.handed messages arrived =
      selectFiles S.together states' (traceInfo messages) allUnique :=
    selectFiles_agrees agrees (traceInfo messages) allUnique
  rw [same]
  constructor
  · rintro ⟨saved, ok, -⟩ idx listed crash t inside
    obtain ⟨pair, member, rfl⟩ := (counted t).mpr ⟨idx, listed, inside⟩
    rw [ordinary_iff]
    refine covered_of_selectFiles (fun idx entry found => ?_) (fun t below => ?_) ok pair member
    · exact retrievable_of_sent known files arrival' (sent_of_lookup found)
    · exact represented_of_bestIdx known files below
  · intro crashes
    have ordinary (pair : ℕ × ℕ) (member : pair ∈ allUnique) : OrdinaryTuple S read pair.1 := by
      obtain ⟨idx, listed, inside⟩ := (counted pair.1).mp ⟨pair, member, rfl⟩
      cases crash : (read idx).crash with
      | false => exact ⟨idx, listed, crash, inside⟩
      | true => exact crashes idx listed crash pair.1 inside
    have retrievable (pair : ℕ × ℕ) (member : pair ∈ allUnique) :
        Retrievable S.together (quiet S read) states' (traceInfo messages)
            (bestIdx S.together states' pair.1) ∧
          pair.1 ∈ (quiet S read (bestIdx S.together states' pair.1)).trace := by
      obtain ⟨idx, listed, inside⟩ := ordinary_iff.mp (ordinary pair member)
      exact retrievable_of_covered known files arrival' listed inside
    obtain ⟨saved, selected, listed, all⟩ := selectFiles_spec
      (fun pair member => (retrievable pair member).1)
      fun pair member => (retrievable pair member).2
    refine ⟨saved, selected, fun t => ⟨?_, fun covered => ?_⟩⟩
    · rintro ⟨idx, member, ordinary, inside⟩
      exact ⟨idx, listed idx member, ordinary, inside⟩
    · obtain ⟨idx, below, -, inside⟩ := covered
      obtain ⟨pair, member, rfl⟩ := (counted t).mpr ⟨idx, below, inside⟩
      obtain ⟨file, saved_file, has⟩ := mem_tuplesOf.mp (all pair member)
      exact ⟨file, saved_file, (mem_quietTrace S read).mp has⟩

/-! ## Two files, one of which crashes -/

def crashSetup : Setup := { twoFiles with crashDir := true }

theorem zero_le_infEn : 0 ≤ infEn := Nat.zero_le _

/-- The crashing file has no tuple of its own. -/
def readCovered (idx : ℕ) : Reading crashSetup.maxTuple :=
  if idx = 0 then { trace := [4, 9], energy_le := zero_le_infEn }
  else { trace := [4], crash := true, energy_le := zero_le_infEn }

/-- The crashing file has a tuple of its own. -/
def readLone (idx : ℕ) : Reading crashSetup.maxTuple :=
  if idx = 0 then { trace := [4], energy_le := zero_le_infEn }
  else { trace := [9], crash := true, energy_le := zero_le_infEn }

theorem crashSetup_reachable : Reachable (jobQueue crashSetup) oneStopped := by
  have start : Reachable (jobQueue crashSetup) (.start crashSetup) := .init rfl
  have taken := start.step (QueueStep.batch _ 0 [0, 1] [none] (by decide) rfl)
  exact taken.step (QueueStep.sentinel _ 0 [] (by decide) rfl)

theorem main_crash_dir_covered :
    SelectsOrdinary crashSetup readCovered
      (main crashSetup readCovered oneStopped.handed [some ⟨0, 0, 0, 2⟩, none] [0]) := by
  refine (main_crash_dir_iff crashSetup readCovered rfl oneStopped crashSetup_reachable (by decide)
    _ (List.Perm.of_eq (by decide +kernel)) [0] (.refl _)).mpr ?_
  intro idx listed crash t inside
  have last : idx ≠ 0 := by
    rintro rfl
    cases crash
  rw [readCovered, if_neg last] at inside
  exact ⟨0, by decide, rfl, List.mem_cons.mpr (Or.inl (List.mem_singleton.mp inside))⟩

/-- The second file crashes with a tuple of its own: the largest file index is looked up. -/
theorem main_crash_dir_indexError :
    ¬ ∀ (S : Setup) (read : ℕ → Reading S.maxTuple) (q : QueueState)
        (messages : List (Option Placed)) (arrived : List ℕ), S.crashDir = true →
      Reachable (jobQueue S) q → q.running = ∅ →
      messages.Perm ((List.range S.workers).flatMap fun i =>
        (runWorker S read i (q.handed i)).progress) →
      arrived.Perm (List.range S.workers) →
      SelectsOrdinary S read (main S read q.handed messages arrived) := by
  intro claim
  obtain ⟨saved, ok, -⟩ := claim crashSetup readLone oneStopped [some ⟨0, 0, 0, 1⟩, none] [0] rfl
    crashSetup_reachable (by decide) (List.Perm.of_eq (by decide +kernel)) (.refl _)
  have common : mostCommon [(4, 1), (9, 1)] = [(4, 1), (9, 1)] :=
    List.mergeSort_of_pairwise (by decide)
  have counter : [0].foldl (fun counter worker =>
      addCounter counter (runWorker crashSetup readLone worker (oneStopped.handed worker)).counter)
      [] = [(4, 1), (9, 1)] := by decide +kernel
  have failed : selectFiles crashSetup (fun worker =>
      runWorker crashSetup readLone worker (oneStopped.handed worker))
      (traceInfo [some ⟨0, 0, 0, 1⟩, none]) [(4, 1), (9, 1)] = .error .indexError := by
    decide +kernel
  rw [main] at ok
  dsimp only at ok
  rw [counter, common, failed] at ok
  cases ok

end GreenFuzz.Cmin
