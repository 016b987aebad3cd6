import GreenFuzz.Cmin.JobQueue
import GreenFuzz.Cmin.Main
import GreenFuzz.Cmin.Represented
import GreenFuzz.Library.Fallible

/-!
# The selection preserves coverage

Every tuple of a file has a merged representative, whose trace has the tuple, and whose place is
known and holds its trace. So the selection raises no exception, the tuples it has collected are
always those of the files it has saved, and in the end these are all tuples
(`main_preserves_coverage`).
-/

set_option autoImplicit false

namespace GreenFuzz.Cmin

open Library

/-! ## Merging -/

section Merge

variable {S : Setup} {states : ℕ → WorkerState} {t : ℕ}

theorem considerWorker_eq (best : ℕ × ℕ) (i : ℕ) :
    considerWorker S states t best i =
      if (states i).m t = S.maxFileIndex then best
      else if pairLess ((states i).bestEnergy t, (states i).m t) best then
        ((states i).bestEnergy t, (states i).m t)
      else best := by
  have candidate : (if (states i).bestEnergy t ≠ infEn then
      ((states i).bestEnergy t, (states i).m t) else (infEn, (states i).m t)) =
      ((states i).bestEnergy t, (states i).m t) := by
    split
    · rfl
    · rename_i missing
      rw [not_not.mp missing]
  unfold considerWorker
  dsimp only
  rw [candidate]

/-- The best pair is the one it starts with, or that of a worker with a representative. -/
theorem bestPair_cases (S : Setup) (states : ℕ → WorkerState) (t : ℕ) :
    bestPair S states t = (infEn, S.maxFileIndex) ∨
      ∃ i < S.workers, (states i).m t ≠ S.maxFileIndex ∧
        bestPair S states t = ((states i).bestEnergy t, (states i).m t) := by
  refine foldl_invariant (P := fun best => best = (infEn, S.maxFileIndex) ∨
    ∃ i < S.workers, (states i).m t ≠ S.maxFileIndex ∧
      best = ((states i).bestEnergy t, (states i).m t)) (Or.inl rfl) ?_
  intro i member best known
  rw [considerWorker_eq]
  split
  · exact known
  · rename_i set
    split
    · exact Or.inr ⟨i, List.mem_range.mp member, set, rfl⟩
    · exact known

/-- If a worker has a representative, the merged one is that of a worker. -/
theorem bestIdx_mem (bounded : ∀ i < S.workers, (states i).m t ≤ S.maxFileIndex)
    (known : ∃ i < S.workers, (states i).m t ≠ S.maxFileIndex) :
    ∃ i < S.workers, (states i).m t ≠ S.maxFileIndex ∧ bestIdx S states t = (states i).m t := by
  unfold bestIdx
  split
  · obtain ⟨i, worker, set⟩ := known
    have nonempty : (List.range S.workers).map (fun i => (states i).m t) ≠ [] := by
      simpa using S.workers_pos.ne'
    obtain ⟨least, found⟩ := Option.ne_none_iff_exists'.mp (mt List.min?_eq_none_iff.mp nonempty)
    obtain ⟨member, smallest⟩ := List.min?_eq_some_iff.mp found
    obtain ⟨j, listed, rfl⟩ := List.mem_map.mp member
    have below := smallest _ (List.mem_map_of_mem (List.mem_range.mpr worker))
    have upper := bounded i worker
    refine ⟨j, List.mem_range.mp listed, ?_, by rw [found]; rfl⟩
    omega
  · rename_i energy
    rcases bestPair_cases S states t with start | ⟨i, worker, set, pair⟩
    · rw [start] at energy
      exact absurd rfl energy
    · exact ⟨i, worker, set, by rw [pair]⟩

theorem mem_keys_addCounter (counter other : List (ℕ × ℕ)) (t : ℕ) :
    t ∈ (addCounter counter other).map Prod.fst ↔
      t ∈ other.map Prod.fst ∨ t ∈ counter.map Prod.fst := by
  unfold addCounter
  induction other generalizing counter with
  | nil => simp
  | cons pair other ih =>
      rw [List.foldl_cons, ih, mem_keys_assign, List.map_cons, List.mem_cons]
      tauto

theorem mem_keys_merged (arrived : List ℕ) (counter : List (ℕ × ℕ)) (t : ℕ) :
    t ∈ (arrived.foldl (fun counter i => addCounter counter (states i).counter)
        counter).map Prod.fst ↔
      (∃ i ∈ arrived, t ∈ (states i).counter.map Prod.fst) ∨ t ∈ counter.map Prod.fst := by
  induction arrived generalizing counter with
  | nil => simp
  | cons i arrived ih =>
      rw [List.foldl_cons, ih, mem_keys_addCounter]
      simp only [List.mem_cons, exists_eq_or_imp]
      rw [or_assoc]
      exact or_left_comm

/-- The merged counter has the tuples that a worker counted. -/
theorem mem_mostCommon_merged {arrived : List ℕ} (joined : arrived.Perm (List.range S.workers))
    (t : ℕ) :
    (∃ pair ∈ mostCommon (arrived.foldl (fun counter i => addCounter counter (states i).counter)
        []), pair.1 = t) ↔ ∃ i < S.workers, t ∈ (states i).counter.map Prod.fst := by
  rw [← List.mem_map, mostCommon, (List.mergeSort_perm _ _).map Prod.fst |>.mem_iff,
    mem_keys_merged]
  simp [joined.mem_iff]

theorem traceInfo_append_none (messages : List (Option Placed)) :
    traceInfo (messages ++ [none]) = traceInfo messages := by
  rw [traceInfo, List.foldl_append, List.foldl_cons, List.foldl_nil]
  rfl

theorem traceInfo_append_some (messages : List (Option Placed)) (p : Placed) :
    traceInfo (messages ++ [some p]) =
      assign (traceInfo messages) p.idx (p.worker, p.pos, p.tupleCount) := by
  rw [traceInfo, List.foldl_append, List.foldl_cons, List.foldl_nil]
  rfl

/-- A file whose place was sent has a place, and it is one that was sent. -/
theorem lookup_traceInfo {messages : List (Option Placed)} {idx : ℕ}
    (sent : ∃ p, some p ∈ messages ∧ p.idx = idx) :
    ∃ p, some p ∈ messages ∧ p.idx = idx ∧
      (traceInfo messages).lookup idx = some (p.worker, p.pos, p.tupleCount) := by
  induction messages using List.reverseRecOn with
  | nil =>
      obtain ⟨p, member, -⟩ := sent
      exact absurd member List.not_mem_nil
  | append_singleton messages message ih =>
      have before (earlier : ∃ p, some p ∈ messages ∧ p.idx = idx) :
          ∃ p, some p ∈ messages ++ [message] ∧ p.idx = idx ∧
            (traceInfo messages).lookup idx = some (p.worker, p.pos, p.tupleCount) := by
        obtain ⟨p, member, file, found⟩ := ih earlier
        exact ⟨p, List.mem_append_left _ member, file, found⟩
      cases message with
      | none =>
          rw [traceInfo_append_none]
          obtain ⟨p, member, file⟩ := sent
          refine before ⟨p, ?_, file⟩
          simpa using member
      | some q =>
          rw [traceInfo_append_some, lookup_assign]
          by_cases same : idx = q.idx
          · exact ⟨q, by simp, same.symm, if_pos same⟩
          · rw [if_neg same]
            obtain ⟨p, member, file⟩ := sent
            refine before ⟨p, ?_, file⟩
            rcases List.mem_append.mp member with earlier | late
            · exact earlier
            · obtain rfl := Option.some.inj (List.mem_singleton.mp late)
              exact absurd file.symm same

end Merge

/-! ## Selection -/

section Select

variable {S : Setup} {read : ℕ → Reading S.maxTuple} {states : ℕ → WorkerState}
  {info : List (ℕ × (ℕ × ℕ × ℕ))}

/-- The file is in the list, its place is known, and its trace is read back from there. -/
def Retrievable (S : Setup) (read : ℕ → Reading S.maxTuple) (states : ℕ → WorkerState)
    (info : List (ℕ × (ℕ × ℕ × ℕ))) (idx : ℕ) : Prop :=
  idx < S.numFiles ∧ ∃ worker < S.workers, ∃ pos tupleCount,
    info.lookup idx = some (worker, pos, tupleCount) ∧
      readTrace S states worker pos tupleCount = .ok (read idx).trace

/-- The tuples of the files. -/
def tuplesOf (read : ℕ → Reading S.maxTuple) (files : List ℕ) : Finset ℕ :=
  (files.flatMap fun idx => (read idx).trace).toFinset

theorem mem_tuplesOf {files : List ℕ} {t : ℕ} :
    t ∈ tuplesOf read files ↔ ∃ idx ∈ files, t ∈ (read idx).trace := by
  simp [tuplesOf]

theorem tuplesOf_append (files : List ℕ) (idx : ℕ) :
    tuplesOf read (files ++ [idx]) = tuplesOf read files ∪ (read idx).trace.toFinset := by
  ext t
  simp [mem_tuplesOf, or_and_right, exists_or]

/-- The jobs of the first phase are the traces of the files it saved. -/
structure PhaseOne.Sound (S : Setup) (read : ℕ → Reading S.maxTuple) (states : ℕ → WorkerState)
    (s : PhaseOne) : Prop where
  listed : ∀ idx ∈ s.saved, idx < S.numFiles
  job_saved : ∀ worker, ∀ job ∈ s.jobs worker, ∃ idx ∈ s.saved,
    readTrace S states worker job.1 job.2 = .ok (read idx).trace
  saved_job : ∀ idx ∈ s.saved, ∃ worker < S.workers, ∃ job ∈ s.jobs worker,
    readTrace S states worker job.1 job.2 = .ok (read idx).trace

theorem PhaseOne.sound_start : ({} : PhaseOne).Sound S read states :=
  ⟨fun _ member => absurd member List.not_mem_nil,
    fun _ _ member => absurd member List.not_mem_nil,
    fun _ member => absurd member List.not_mem_nil⟩

theorem selectOnce_sound {s : PhaseOne} (sound : s.Sound S read states) {pair : ℕ × ℕ}
    (retrievable : Retrievable S read states info (bestIdx S states pair.1)) :
    ∃ next, selectOnce S states info s pair = .ok next ∧ next.Sound S read states := by
  obtain ⟨listed, worker, worker_lt, pos, tupleCount, found, reads⟩ := retrievable
  unfold selectOnce
  dsimp only
  split
  · exact ⟨s, rfl, sound⟩
  · split
    · exact ⟨s, rfl, sound⟩
    · have checked : checkFile S (bestIdx S states pair.1) = .ok () := if_pos listed
      have placed : place info (bestIdx S states pair.1) = .ok (worker, pos, tupleCount) := by
        rw [place, found]
      rw [checked, placed]
      refine ⟨_, rfl, ?_, ?_, ?_⟩
      · intro idx member
        rcases List.mem_append.mp member with earlier | last
        · exact sound.listed idx earlier
        · rw [List.mem_singleton.mp last]
          exact listed
      · intro w job member
        dsimp only at member ⊢
        by_cases here : w = worker
        · subst here
          rw [Function.update_self] at member
          rcases List.mem_append.mp member with earlier | last
          · obtain ⟨idx, saved, read_back⟩ := sound.job_saved w job earlier
            exact ⟨idx, List.mem_append_left _ saved, read_back⟩
          · rw [List.mem_singleton.mp last]
            exact ⟨_, List.mem_append_right _ (List.mem_singleton.mpr rfl), reads⟩
        · rw [Function.update_of_ne here] at member
          obtain ⟨idx, saved, read_back⟩ := sound.job_saved w job member
          exact ⟨idx, List.mem_append_left _ saved, read_back⟩
      · intro idx member
        dsimp only at member ⊢
        rcases List.mem_append.mp member with earlier | last
        · obtain ⟨w, w_lt, job, queued, read_back⟩ := sound.saved_job idx earlier
          refine ⟨w, w_lt, job, ?_, read_back⟩
          by_cases here : w = worker
          · subst here
            rw [Function.update_self]
            exact List.mem_append_left _ queued
          · rwa [Function.update_of_ne here]
        · rw [List.mem_singleton.mp last]
          refine ⟨worker, worker_lt, (pos, tupleCount), ?_, reads⟩
          rw [Function.update_self]
          exact List.mem_append_right _ (List.mem_singleton.mpr rfl)

/-- Reading back the jobs of one worker collects their traces. -/
theorem combineTraces_spec {worker : ℕ} {jobs : List (ℕ × ℕ)} {trace : ℕ × ℕ → List ℕ}
    (reads : ∀ job ∈ jobs, readTrace S states worker job.1 job.2 = .ok (trace job)) :
    ∃ collected, combineTraces S states worker jobs = .ok collected ∧
      ∀ t, t ∈ collected ↔ ∃ job ∈ jobs, t ∈ trace job := by
  refine foldlM_succeeds (P := fun (done : List (ℕ × ℕ)) (collected : Finset ℕ) =>
    ∀ t, t ∈ collected ↔ ∃ job ∈ done, t ∈ trace job) (by simp) ?_
  intro done job member collected known
  rw [reads job member]
  refine ⟨_, rfl, fun t => ?_⟩
  rw [Finset.mem_union, known t, List.mem_toFinset]
  simp [or_and_right, exists_or]

/-- After the first phase, the tuples of the saved files are read back. -/
theorem combineAll_spec {s : PhaseOne} (sound : s.Sound S read states) :
    combineAll S states s.jobs = .ok (tuplesOf read s.saved) := by
  have known (worker : ℕ) (job : ℕ × ℕ) : ∃ trace, job ∈ s.jobs worker →
      readTrace S states worker job.1 job.2 = .ok trace := by
    by_cases queued : job ∈ s.jobs worker
    · obtain ⟨idx, -, reads⟩ := sound.job_saved worker job queued
      exact ⟨_, fun _ => reads⟩
    · exact ⟨[], fun member => absurd member queued⟩
  choose trace reads using known
  have all : ∃ collected, combineAll S states s.jobs = .ok collected ∧
      ∀ t, t ∈ collected ↔ ∃ worker ∈ List.range S.workers, ∃ job ∈ s.jobs worker,
        t ∈ trace worker job := by
    refine foldlM_succeeds (P := fun (done : List ℕ) (collected : Finset ℕ) =>
      ∀ t, t ∈ collected ↔ ∃ worker ∈ done, ∃ job ∈ s.jobs worker, t ∈ trace worker job)
      (by simp) ?_
    intro done worker member collected known
    obtain ⟨result, combined, tuples⟩ :=
      combineTraces_spec fun job queued => reads worker job queued
    rw [combined]
    refine ⟨_, rfl, fun t => ?_⟩
    rw [Finset.mem_union, known t, tuples t]
    simp [or_and_right, exists_or]
  obtain ⟨collected, combined, tuples⟩ := all
  rw [combined]
  congr 1
  ext t
  rw [tuples, mem_tuplesOf]
  constructor
  · rintro ⟨worker, -, job, queued, inside⟩
    obtain ⟨idx, saved, read_back⟩ := sound.job_saved worker job queued
    rw [reads worker job queued] at read_back
    exact ⟨idx, saved, Except.ok.inj read_back ▸ inside⟩
  · rintro ⟨idx, saved, inside⟩
    obtain ⟨worker, worker_lt, job, queued, read_back⟩ := sound.saved_job idx saved
    rw [reads worker job queued] at read_back
    exact ⟨worker, List.mem_range.mpr worker_lt, job, queued, Except.ok.inj read_back ▸ inside⟩

/-- The second phase has collected the tuples of the saved files, and all that it passed. -/
structure Collects (S : Setup) (read : ℕ → Reading S.maxTuple) (passed : List (ℕ × ℕ))
    (s : List ℕ × Finset ℕ) : Prop where
  listed : ∀ idx ∈ s.1, idx < S.numFiles
  collected : s.2 = tuplesOf read s.1
  passed_in : ∀ pair ∈ passed, pair.1 ∈ s.2

theorem selectMissing_collects {s : List ℕ × Finset ℕ} {passed : List (ℕ × ℕ)}
    (collects : Collects S read passed s) {pair : ℕ × ℕ}
    (retrievable : Retrievable S read states info (bestIdx S states pair.1))
    (covers : pair.1 ∈ (read (bestIdx S states pair.1)).trace) :
    ∃ next, selectMissing S states info s pair = .ok next ∧
      Collects S read (passed ++ [pair]) next := by
  obtain ⟨saved, alreadyHave⟩ := s
  obtain ⟨listed, worker, worker_lt, pos, tupleCount, found, reads⟩ := retrievable
  unfold selectMissing
  dsimp only
  split
  · rename_i present
    refine ⟨_, rfl, collects.listed, collects.collected, fun earlier member => ?_⟩
    rcases List.mem_append.mp member with before | last
    · exact collects.passed_in earlier before
    · rw [List.mem_singleton.mp last]
      exact present
  · have checked : checkFile S (bestIdx S states pair.1) = .ok () := if_pos listed
    have placed : place info (bestIdx S states pair.1) = .ok (worker, pos, tupleCount) := by
      rw [place, found]
    rw [checked, placed]
    dsimp only [bind, Except.bind]
    rw [reads]
    refine ⟨_, rfl, fun idx member => ?_, ?_, fun earlier member => ?_⟩
    · rcases List.mem_append.mp member with before | last
      · exact collects.listed idx before
      · rw [List.mem_singleton.mp last]
        exact listed
    · dsimp only
      rw [tuplesOf_append, ← collects.collected]
    · rcases List.mem_append.mp member with before | last
      · exact Finset.mem_union_left _ (collects.passed_in earlier before)
      · rw [List.mem_singleton.mp last]
        exact Finset.mem_union_right _ (List.mem_toFinset.mpr covers)

/-- The selection succeeds, and saves listed files that have all tuples it was given. -/
theorem selectFiles_spec {allUnique : List (ℕ × ℕ)}
    (retrievable : ∀ pair ∈ allUnique, Retrievable S read states info (bestIdx S states pair.1))
    (covers : ∀ pair ∈ allUnique, pair.1 ∈ (read (bestIdx S states pair.1)).trace) :
    ∃ saved, selectFiles S states info allUnique = .ok saved ∧
      (∀ idx ∈ saved, idx < S.numFiles) ∧ ∀ pair ∈ allUnique, pair.1 ∈ tuplesOf read saved := by
  obtain ⟨once, phase_one, sound⟩ := foldlM_succeeds
    (P := fun (_ : List (ℕ × ℕ)) (s : PhaseOne) => s.Sound S read states) PhaseOne.sound_start
    fun _ pair member s sound => selectOnce_sound sound (retrievable pair member)
  have started : Collects S read [] (once.saved, tuplesOf read once.saved) :=
    ⟨sound.listed, rfl, fun pair member => absurd member List.not_mem_nil⟩
  obtain ⟨⟨saved, alreadyHave⟩, phase_two, collects⟩ := foldlM_succeeds
    (P := Collects S read) started fun passed pair member s collects =>
      selectMissing_collects collects (retrievable pair (List.mem_reverse.mp member))
        (covers pair (List.mem_reverse.mp member))
  refine ⟨saved, ?_, collects.listed, fun pair member => ?_⟩
  · unfold selectFiles
    rw [phase_one]
    dsimp only [bind, Except.bind]
    rw [combineAll_spec sound]
    dsimp only
    rw [phase_two]
    rfl
  · have have_it := collects.passed_in pair (List.mem_reverse.mpr member)
    rwa [collects.collected] at have_it

end Select

/-! ## The whole run -/

section Run

variable {S : Setup} {read : ℕ → Reading S.maxTuple} {states : ℕ → WorkerState}
  {handed : ℕ → List (List ℕ)} {messages : List (Option Placed)}

/-- The merged counter has the tuples of all files. -/
theorem merged_counts {arrived : List ℕ}
    (files : ∀ idx, (∃ i < S.workers, idx ∈ (handed i).flatten) ↔ idx < S.numFiles)
    (joined : arrived.Perm (List.range S.workers))
    (counted : ∀ i < S.workers, ∀ t, t ∈ (states i).counter.map Prod.fst ↔
      ∃ idx ∈ (handed i).flatten, t ∈ (read idx).trace) (t : ℕ) :
    (∃ pair ∈ mostCommon (arrived.foldl (fun counter i =>
      addCounter counter (states i).counter) []), pair.1 = t) ↔
        ∃ idx < S.numFiles, t ∈ (read idx).trace := by
  rw [mem_mostCommon_merged joined]
  constructor
  · rintro ⟨i, worker, key⟩
    obtain ⟨idx, processed, inside⟩ := (counted i worker t).mp key
    exact ⟨idx, (files idx).mp ⟨i, worker, processed⟩, inside⟩
  · rintro ⟨idx, listed, inside⟩
    obtain ⟨i, worker, processed⟩ := (files idx).mpr listed
    exact ⟨i, worker, (counted i worker t).mpr ⟨idx, processed, inside⟩⟩

/-- The trace of a file whose place was sent can be read back. -/
theorem retrievable_of_sent
    (known : ∀ i < S.workers, Represented S read i (handed i).flatten (states i))
    (files : ∀ idx, (∃ i < S.workers, idx ∈ (handed i).flatten) ↔ idx < S.numFiles)
    (arrival : messages.Perm ((List.range S.workers).flatMap fun i => (states i).progress))
    {idx : ℕ} (sent : ∃ p, some p ∈ messages ∧ p.idx = idx) :
    Retrievable S read states (traceInfo messages) idx := by
  obtain ⟨p, message, file, found⟩ := lookup_traceInfo sent
  have sender := arrival.mem_iff.mp message
  simp only [List.mem_flatMap, List.mem_range] at sender
  obtain ⟨k, worker_k, message_k⟩ := sender
  obtain ⟨own, processed, count, packed⟩ := (known k worker_k).placed p message_k
  rw [file] at processed count packed
  refine ⟨(files _).mp ⟨k, worker_k, processed⟩, k, worker_k, p.pos, p.tupleCount, ?_, ?_⟩
  · rw [found, own]
  · have fit : ∀ u ∈ (read idx).trace, u < 256 ^ S.tupleItemsize :=
      fun u member => ((read _).trace_lt u member).trans S.maxTuple_lt
    rw [readTrace, count, packed.readAt fit]

/-- A tuple of a file has a merged representative, whose trace has it and can be read back. -/
theorem retrievable_of_covered
    (known : ∀ i < S.workers, Represented S read i (handed i).flatten (states i))
    (files : ∀ idx, (∃ i < S.workers, idx ∈ (handed i).flatten) ↔ idx < S.numFiles)
    (arrival : messages.Perm ((List.range S.workers).flatMap fun i => (states i).progress))
    {t idx : ℕ} (listed : idx < S.numFiles) (inside : t ∈ (read idx).trace) :
    Retrievable S read states (traceInfo messages) (bestIdx S states t) ∧
      t ∈ (read (bestIdx S states t)).trace := by
  have bounded (i : ℕ) (worker : i < S.workers) : (states i).m t ≤ S.maxFileIndex := by
    by_cases missing : (states i).m t = S.maxFileIndex
    · exact missing.le
    · obtain ⟨p, message, file, -⟩ := (known i worker).used t missing
      have processed := ((known i worker).placed p message).2.1
      rw [← file]
      exact ((files p.idx).mp ⟨i, worker, processed⟩).le.trans S.numFiles_le_maxFileIndex
  obtain ⟨i, worker, member⟩ := (files idx).mpr listed
  obtain ⟨j, worker_j, set, equal⟩ :=
    bestIdx_mem bounded ⟨i, worker, (known i worker).covered idx member t inside⟩
  obtain ⟨p, message, file, has⟩ := (known j worker_j).used t set
  rw [← equal] at file has
  refine ⟨retrievable_of_sent known files arrival ⟨p, arrival.mem_iff.mpr ?_, file⟩, has⟩
  exact List.mem_flatMap.mpr ⟨j, List.mem_range.mpr worker_j, message⟩

/-- **The selection preserves coverage.** For every way in which the queue hands out the batches,
and every order in which messages and results arrive, `main` raises no exception, and the files
that it saves have together the tuples of all files. -/
theorem main_preserves_coverage (S : Setup) (read : ℕ → Reading S.maxTuple)
    (noCrashDir : S.crashDir = false) (q : QueueState) (run : Reachable (jobQueue S) q)
    (stopped : q.running = ∅) (messages : List (Option Placed))
    (arrival : messages.Perm ((List.range S.workers).flatMap fun i =>
      (runWorker S read i (q.handed i)).progress))
    (arrived : List ℕ) (joined : arrived.Perm (List.range S.workers)) :
    ∃ saved, main S read q.handed messages arrived = .ok saved ∧
      ∀ t, (∃ idx ∈ saved, t ∈ (read idx).trace) ↔
        ∃ idx < S.numFiles, t ∈ (read idx).trace := by
  set states : ℕ → WorkerState := fun i => runWorker S read i (q.handed i) with states_eq
  have files := mem_handed_iff run stopped
  have known (i : ℕ) (worker : i < S.workers) :
      Represented S read i (q.handed i).flatten (states i) :=
    runWorker_represented noCrashDir fun idx member => (files idx).mp ⟨i, worker, member⟩
  set allUnique := mostCommon (arrived.foldl (fun counter i =>
    addCounter counter (states i).counter) [])
  have counted := merged_counts files joined fun i worker => (known i worker).counted
  have retrievable (pair : ℕ × ℕ) (member : pair ∈ allUnique) :
      Retrievable S read states (traceInfo messages) (bestIdx S states pair.1) ∧
        pair.1 ∈ (read (bestIdx S states pair.1)).trace := by
    obtain ⟨idx, listed, inside⟩ := (counted pair.1).mp ⟨pair, member, rfl⟩
    exact retrievable_of_covered known files arrival listed inside
  obtain ⟨saved, selected, listed, all⟩ := selectFiles_spec
    (fun pair member => (retrievable pair member).1) fun pair member => (retrievable pair member).2
  refine ⟨saved, selected, fun t => ⟨?_, ?_⟩⟩
  · rintro ⟨idx, member, inside⟩
    exact ⟨idx, listed idx member, inside⟩
  · intro covered
    obtain ⟨pair, member, rfl⟩ := (counted t).mpr covered
    exact mem_tuplesOf.mp (all pair member)

/-- Two files for one worker. -/
def twoFiles : Setup where
  numFiles := 2
  workers := 1

/-- Both files have tuple 4; the second has tuple 9 as well, and costs less energy. -/
def readTwo (idx : ℕ) : Reading twoFiles.maxTuple :=
  if idx = 0 then { trace := [4], energy := 30 } else { trace := [4, 9], energy := 20 }

/-- The worker took the batch and the sentinel. -/
def oneStopped : QueueState where
  jobs := []
  handed := Function.update (fun _ => []) 0 [[0, 1]]
  running := (Finset.range 1).erase 0

theorem oneStopped_reachable : Reachable (jobQueue twoFiles) oneStopped := by
  have start : Reachable (jobQueue twoFiles) (.start twoFiles) := .init rfl
  have taken := start.step (QueueStep.batch _ 0 [0, 1] [none] (by decide) rfl)
  exact taken.step (QueueStep.sentinel _ 0 [] (by decide) rfl)

theorem main_preserves_two_files :
    ∃ saved, main twoFiles readTwo oneStopped.handed
        [some ⟨0, 0, 0, 1⟩, some ⟨1, 0, 4, 2⟩] [0] = .ok saved ∧
      ∀ t, (∃ idx ∈ saved, t ∈ (readTwo idx).trace) ↔
        ∃ idx < twoFiles.numFiles, t ∈ (readTwo idx).trace := by
  exact main_preserves_coverage twoFiles readTwo rfl oneStopped oneStopped_reachable (by decide) _
    (List.Perm.of_eq (by decide +kernel)) [0] (.refl _)

end Run

end GreenFuzz.Cmin
