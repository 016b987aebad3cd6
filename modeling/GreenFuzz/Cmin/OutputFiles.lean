import GreenFuzz.Cmin.CrashTuples
import GreenFuzz.Cmin.Output

/-!
# The saved files

A run of `main` from the input files to the saved files. The selection chooses different files of
the list (`main_nodup`), and the crashing files are different files of the list
(`crashes_perm`).

**The selected files and the crashing files are saved with their contents, each under its own name,
exactly in two cases together** (`CminRun.delivers_iff`). Where files are named by their base names
alone, a base name is used again only for the same content, and not for a file that is linked
already. Where crashes are saved, with `--no-dedup` no two of them have the same hash and different
contents; and with `dedup` a crashing file whose index is below the number of crashes is at that
place among them, and any other is in the crash directory already: the hashes are indexed by the
place among the crashes.

Files are hard links and copies. Symbolic links among the input files are left out.
-/

set_option autoImplicit false

namespace GreenFuzz.Cmin

open Library

/-! ## The selected files -/

section Selected

variable {S : Setup} {read : ℕ → Reading S.maxTuple} {states : ℕ → WorkerState}
  {info : List (ℕ × (ℕ × ℕ × ℕ))}

/-- A round of the first phase that succeeds saves no file again. -/
theorem selectOnce_nodup {s next : PhaseOne} (nodup : s.saved.Nodup) {pair : ℕ × ℕ}
    (ok : selectOnce S states info s pair = .ok next) : next.saved.Nodup := by
  unfold selectOnce at ok
  dsimp only at ok
  split at ok
  · cases ok
    exact nodup
  · split at ok
    · cases ok
      exact nodup
    · rename_i new
      obtain ⟨⟨⟩, -, rest⟩ := bind_eq_ok_iff.mp ok
      obtain ⟨entry, -, final⟩ := bind_eq_ok_iff.mp rest
      cases final
      simpa only [List.concat_eq_append] using nodup.concat new

/-- The selection saves listed files, and none twice: a tuple that is missing is in the trace of its
representative, so that was not saved before. -/
theorem selectFiles_nodup {allUnique : List (ℕ × ℕ)} {saved : List ℕ}
    (retrievable : ∀ idx entry, info.lookup idx = some entry → Retrievable S read states info idx)
    (covers : ∀ t, bestIdx S states t < S.numFiles → t ∈ (read (bestIdx S states t)).trace)
    (ok : selectFiles S states info allUnique = .ok saved) :
    saved.Nodup ∧ ∀ idx ∈ saved, idx < S.numFiles := by
  obtain ⟨once, phase_one, rest⟩ := bind_eq_ok_iff.mp ok
  obtain ⟨alreadyHave, combined, rest⟩ := bind_eq_ok_iff.mp rest
  obtain ⟨last, phase_two, final⟩ := bind_eq_ok_iff.mp rest
  cases final
  have first := foldlM_carries (P := fun (_ : List (ℕ × ℕ)) (s : PhaseOne) =>
    s.Sound S read states ∧ s.saved.Nodup) ⟨PhaseOne.sound_start, List.nodup_nil⟩
    (fun _ _ _ _ _ held ok => ⟨selectOnce_ok_sound retrievable held.1 ok,
      selectOnce_nodup held.2 ok⟩) phase_one
  rw [combineAll_spec first.1] at combined
  cases combined
  have second := foldlM_carries (P := fun (_ : List (ℕ × ℕ)) (s : List ℕ × Finset ℕ) =>
    s.2 = tuplesOf read s.1 ∧ s.1.Nodup ∧ ∀ idx ∈ s.1, idx < S.numFiles)
    ⟨rfl, first.2, first.1.listed⟩ (fun _ pair _ s next held ok => ?_) phase_two
  · exact second.2
  · obtain ⟨collected, nodup, listed⟩ := held
    rcases selectMissing_ok retrievable ok with ⟨-, rfl⟩ | ⟨missing, below, rfl⟩
    · exact ⟨collected, nodup, listed⟩
    · have new : bestIdx S states pair.1 ∉ s.1 := by
        intro saved
        rw [collected, mem_tuplesOf] at missing
        exact missing ⟨_, saved, covers _ below⟩
      refine ⟨?_, ?_, fun idx member => ?_⟩
      · rw [tuplesOf_append, collected]
      · simpa only [List.concat_eq_append] using nodup.concat new
      · rcases List.mem_append.mp member with before | now
        · exact listed idx before
        · rwa [List.mem_singleton.mp now]

/-- The selection of workers that represent their tuples saves listed files, and none twice. -/
theorem selection_nodup {handed : ℕ → List (List ℕ)} {messages : List (Option Placed)}
    (known : ∀ i < S.workers, Represented S read i (handed i).flatten (states i))
    (files : ∀ idx, (∃ i < S.workers, idx ∈ (handed i).flatten) ↔ idx < S.numFiles)
    (arrival : messages.Perm ((List.range S.workers).flatMap fun i => (states i).progress))
    {allUnique : List (ℕ × ℕ)} {saved : List ℕ}
    (ok : selectFiles S states (traceInfo messages) allUnique = .ok saved) :
    saved.Nodup ∧ ∀ idx ∈ saved, idx < S.numFiles := by
  have retrievable (idx : ℕ) (entry : ℕ × ℕ × ℕ)
      (found : (traceInfo messages).lookup idx = some entry) :
      Retrievable S read states (traceInfo messages) idx :=
    retrievable_of_sent known files arrival (sent_of_lookup found)
  refine selectFiles_nodup retrievable (fun t below => ?_) ok
  obtain ⟨idx, listed, inside⟩ := represented_of_bestIdx known files below
  exact (retrievable_of_covered known files arrival listed inside).2

end Selected

section Run

variable {S : Setup} {read : ℕ → Reading S.maxTuple} {q : QueueState}

/-- The selection of a run saves listed files, and none twice. -/
theorem main_nodup (run : Reachable (jobQueue S) q) (stopped : q.running = ∅)
    {messages : List (Option Placed)}
    (arrival : messages.Perm ((List.range S.workers).flatMap fun i =>
      (runWorker S read i (q.handed i)).progress))
    {arrived saved : List ℕ} (ok : main S read q.handed messages arrived = .ok saved) :
    saved.Nodup ∧ ∀ idx ∈ saved, idx < S.numFiles := by
  have files := mem_handed_iff run stopped
  cases crashDir : S.crashDir with
  | false =>
      have known (i : ℕ) (worker : i < S.workers) :
          Represented S read i (q.handed i).flatten (runWorker S read i (q.handed i)) :=
        runWorker_represented crashDir fun idx member => (files idx).mp ⟨i, worker, member⟩
      exact selection_nodup known files arrival ok
  | true =>
      have agrees (i : ℕ) : AgreesQuietly (runWorker S read i (q.handed i))
          (runWorker S.together (quiet S read) i (q.handed i)) :=
        AgreesQuietly.runWorker crashDir i (q.handed i)
      have known (i : ℕ) (worker : i < S.together.workers) :
          Represented S.together (quiet S read) i (q.handed i).flatten
            (runWorker S.together (quiet S read) i (q.handed i)) :=
        runWorker_represented rfl fun idx member => (files idx).mp ⟨i, worker, member⟩
      simp only [(agrees _).progress] at arrival
      rw [main, selectFiles_agrees agrees] at ok
      exact selection_nodup known files arrival ok

/-- A worker reports the files that crashed. -/
theorem crashes_runWorker (worker : ℕ) (batches : List (List ℕ)) :
    (runWorker S read worker batches).crashes =
      batches.flatten.filter fun idx => (read idx).crash := by
  have crashes (s : WorkerState) (idx : ℕ) : (processFile S read worker s idx).crashes =
      if (read idx).crash then s.crashes ++ [idx] else s.crashes := by
    unfold processFile
    dsimp only
    split <;> rfl
  have run (files : List ℕ) (s : WorkerState) :
      (files.foldl (processFile S read worker) s).crashes =
        s.crashes ++ files.filter fun idx => (read idx).crash := by
    induction files generalizing s with
    | nil => simp
    | cons idx files ih =>
        rw [List.foldl_cons, ih, crashes, List.filter_cons]
        cases (read idx).crash <;> simp
  rw [runWorker_eq_foldl, run]
  rfl

/-- All workers together report the listed files that crashed, each once. -/
theorem crashes_perm (run : Reachable (jobQueue S) q) (stopped : q.running = ∅)
    {arrived : List ℕ} (joined : arrived.Perm (List.range S.workers)) :
    (arrived.flatMap fun i => (runWorker S read i (q.handed i)).crashes).Perm
      ((List.range S.numFiles).filter fun idx => (read idx).crash) := by
  have together (workers : List ℕ) :
      (workers.flatMap fun i => (runWorker S read i (q.handed i)).crashes) =
        (workers.flatMap q.handed).flatten.filter fun idx => (read idx).crash := by
    induction workers with
    | nil => rfl
    | cons i workers ih =>
        rw [List.flatMap_cons, List.flatMap_cons, List.flatten_append, List.filter_append, ih,
          crashes_runWorker]
  rw [together, ← S.flatten_batches]
  have handed := (joined.flatMap_right q.handed).trans (handed_perm run stopped)
  exact handed.flatten.filter _

end Run

/-! ## Runs -/

/-- The settings of a run, and the files it starts with: what each file contains, the input files,
and the entries of the crash directory, which are files of their own. -/
structure Corpus (β : Type) where
  noDedup : Bool
  asQueue : Bool
  digest : β → List Byte
  size : β → ℕ
  content : ℕ → β
  fresh : ℕ
  input : List InputFile
  crashEntries : List Char → Option ℕ
  canLink : ℕ → Bool
  canLinkCrash : ℕ → Bool
  input_lt : ∀ file ∈ input, file.inode < fresh
  entries_lt : ∀ name ino, crashEntries name = some ino → ino < fresh
  entries_apart : ∀ name ino, crashEntries name = some ino → ∀ file ∈ input, file.inode ≠ ino
  entries_single : ∀ name other ino, crashEntries name = some ino →
    crashEntries other = some ino → name = other

namespace Corpus

variable {β : Type} (r : Corpus β)

/-- `hash_file`, for what the files contain. -/
def hashFile (content : ℕ → β) (file : InputFile) : List Byte := r.digest (content file.inode)

/-- The files and the hashes after dedup and sort. -/
def prepared : List InputFile × List (List Byte) :=
  prepare (r.hashFile r.content) (fun file => r.size (r.content file.inode)) r.noDedup r.input

/-- `files[idx]`. -/
def file (idx : ℕ) : InputFile := r.prepared.1.getD idx default

/-- The files, with the output directory, which is empty. -/
def disk : Store (List Char) β := ⟨r.content, fun _ => none, r.fresh⟩

end Corpus

/-- A run of `main` up to the selected files. -/
structure CminRun (β : Type) extends Corpus β where
  setup : Setup
  numFiles_eq : setup.numFiles = toCorpus.prepared.1.length
  read : ℕ → Reading setup.maxTuple
  q : QueueState
  reachable : Reachable (jobQueue setup) q
  stopped : q.running = ∅
  messages : List (Option Placed)
  arrival : messages.Perm ((List.range setup.workers).flatMap fun i =>
    (runWorker setup read i (q.handed i)).progress)
  arrived : List ℕ
  joined : arrived.Perm (List.range setup.workers)
  saved : List ℕ
  selected : main setup read q.handed messages arrived = .ok saved

namespace CminRun

variable {β : Type} (r : CminRun β)

/-- The calls of `save_file`. -/
def outputs : List (Saving (List Char)) :=
  r.saved.mapIdx fun count idx =>
    ⟨(r.file idx).inode, fileName r.noDedup r.asQueue r.prepared.2 (r.file idx) idx count⟩

/-- The crashing files, in the order in which the results of the workers arrived. -/
def crashes : List ℕ :=
  r.arrived.flatMap fun i => (runWorker r.setup r.read i (r.q.handed i)).crashes

/-- The crashing files that are saved, for what the files contain then. -/
def crashSavings (content : ℕ → β) : List (Saving (List Char)) :=
  let crashFiles := r.crashes.map r.file
  if r.noDedup then
    let deduped := dedup (r.hashFile content) crashFiles
    crashItems deduped.1 deduped.2
  else crashItems crashFiles r.prepared.2

/-- Saving the crashing files in the crash directory. -/
def saveCrashes (t : Store (List Char) β) : Store (List Char) β :=
  if r.setup.crashDir then
    (r.crashSavings t.content).foldl (saveCrash r.canLinkCrash) { t with dir := r.crashEntries }
  else { t with dir := r.crashEntries }

/-- The output directory and the crash directory after `main`. -/
def finish : Except SameFileError (Store (List Char) β × Store (List Char) β) := do
  let t ← saveFiles r.canLink r.disk r.outputs
  let crash := r.saveCrashes t
  return ({ t with content := crash.content }, crash)

/-- A crashing file under its own hash. -/
def underHash (idx : ℕ) : Saving (List Char) :=
  ⟨(r.file idx).inode, hexName (r.hashFile r.content (r.file idx))⟩

/-- What is claimed: after `main` each selected file's content is in the output directory under its
name, and each crashing file's content is in the crash directory under its hash. -/
def Delivers : Prop :=
  ∃ output crash, r.finish = .ok (output, crash) ∧
    (∀ item ∈ r.outputs, Holds output r.content item) ∧
    (r.setup.crashDir = true → ∀ idx ∈ r.crashes, Holds crash r.content (r.underHash idx))

/-- A hash at the place of a crash among the crashes is its own, and the crashes without a place are
in the crash directory already. -/
def InPlace : Prop :=
  ∀ idx ∈ r.crashes, (idx < r.crashes.length → r.crashes[idx]? = some idx) ∧
    (r.crashes.length ≤ idx →
      Holds { r.disk with dir := r.crashEntries } r.content (r.underHash idx))

/-- No two crashes have the same hash and different contents. -/
def NoCollision : Prop :=
  ∀ idx ∈ r.crashes, ∀ other ∈ r.crashes,
    r.hashFile r.content (r.file idx) = r.hashFile r.content (r.file other) →
      r.content (r.file idx).inode = r.content (r.file other).inode

/-- The condition under which every file is saved under its name. -/
structure NamesFit : Prop where
  outputs : r.noDedup = true → r.asQueue = false → Compatible r.canLink r.disk r.outputs
  crashes : r.setup.crashDir = true → if r.noDedup then r.NoCollision else r.InPlace

/-! ## The files of a run -/

theorem mem_input {idx : ℕ} (listed : idx < r.setup.numFiles) : r.file idx ∈ r.input := by
  rw [r.numFiles_eq] at listed
  rw [Corpus.file, List.getD_eq_getElem _ _ listed]
  exact mem_of_mem_prepare (List.getElem_mem listed)

theorem crashes_lt {idx : ℕ} (member : idx ∈ r.crashes) : idx < r.setup.numFiles := by
  have listed := (crashes_perm r.reachable r.stopped r.joined).mem_iff.mp member
  exact List.mem_range.mp (List.mem_of_mem_filter listed)

theorem length_crashes_le : r.crashes.length ≤ r.setup.numFiles := by
  rw [crashes, (crashes_perm r.reachable r.stopped r.joined).length_eq]
  exact (List.length_filter_le _ _).trans List.length_range.le

/-- With `dedup`, the hash of a file is its own. -/
theorem hashList_eq (deduped : r.noDedup = false) :
    r.prepared.2 = r.prepared.1.map (r.hashFile r.content) := by
  rw [Corpus.prepared, deduped]
  exact prepare_hashes r.input

theorem length_hashList (deduped : r.noDedup = false) :
    r.prepared.2.length = r.setup.numFiles := by
  rw [r.hashList_eq deduped, List.length_map, r.numFiles_eq]

theorem nodup_hashList (deduped : r.noDedup = false) : r.prepared.2.Nodup := by
  rw [Corpus.prepared, deduped]
  exact nodup_prepare r.input

theorem hashList_getD (deduped : r.noDedup = false) {idx : ℕ} (listed : idx < r.setup.numFiles) :
    r.prepared.2.getD idx [] = r.hashFile r.content (r.file idx) := by
  rw [r.numFiles_eq] at listed
  rw [hashList_eq r deduped, Corpus.file, List.getD_eq_getElem _ _ (by simpa using listed),
    List.getD_eq_getElem _ _ listed, List.getElem_map]

/-- With `dedup`, different files have different hashes. -/
theorem hashFile_injective (deduped : r.noDedup = false) {i j : ℕ} (first : i < r.setup.numFiles)
    (second : j < r.setup.numFiles)
    (same : r.hashFile r.content (r.file i) = r.hashFile r.content (r.file j)) : i = j := by
  rw [← r.hashList_getD deduped first, ← r.hashList_getD deduped second] at same
  rw [← r.length_hashList deduped] at first second
  rw [List.getD_eq_getElem _ _ first, List.getD_eq_getElem _ _ second] at same
  exact (r.nodup_hashList deduped).getElem_inj_iff.mp same

/-! ## The output directory -/

theorem mem_outputs {item : Saving (List Char)} (member : item ∈ r.outputs) :
    ∃ file ∈ r.input, item.src = file.inode := by
  obtain ⟨count, below, rfl⟩ := List.mem_mapIdx.mp member
  have listed := (main_nodup r.reachable r.stopped r.arrival r.selected).2
  exact ⟨_, r.mem_input (listed _ (List.getElem_mem below)), rfl⟩

theorem own_outputs : OwnEntries r.disk r.outputs where
  sources := by
    intro item member
    obtain ⟨file, listed, src⟩ := r.mem_outputs member
    exact src ▸ r.input_lt file listed
  entries := nofun
  apart := nofun
  single := nofun

/-- Files with other names than bare base names may be saved. -/
theorem outputs_compatible (bare : r.noDedup = true → r.asQueue = false →
    Compatible r.canLink r.disk r.outputs) : Compatible r.canLink r.disk r.outputs := by
  by_cases named : r.noDedup = false ∨ r.asQueue = true
  · obtain ⟨nodup, listed⟩ := main_nodup r.reachable r.stopped r.arrival r.selected
    refine compatible_of_nodup (List.pairwise_iff_getElem.mpr fun i j first second order => ?_)
    simp only [outputs, List.length_map, List.length_mapIdx] at first second
    simp only [outputs, List.getElem_map, List.getElem_mapIdx]
    have place {k : ℕ} (below : k < r.saved.length) (deduped : r.noDedup = false) :
        r.saved[k] < r.prepared.2.length := by
      rw [r.length_hashList deduped]
      exact listed _ (List.getElem_mem below)
    exact fileName_ne named r.nodup_hashList (place first) (place second)
      (fun same => order.ne (nodup.getElem_inj_iff.mp same)) order.ne
  · push Not at named
    exact bare (Bool.not_eq_false _ ▸ named.1) (Bool.not_eq_true _ ▸ named.2)

/-! ## The crash directory -/

/-- What is saved in the crash directory after the output directory. -/
theorem crashSavings_names (content : ℕ → β) :
    ((r.crashSavings content).map Saving.name).Nodup := by
  rw [crashSavings]
  split
  · refine nodup_crashItems ?_ (nodup_dedup _)
    rw [dedup_hashes, List.length_map]
  · rename_i deduped
    have deduped := Bool.not_eq_true _ ▸ deduped
    refine nodup_crashItems ?_ (r.nodup_hashList deduped)
    rw [List.length_map, r.length_hashList deduped]
    exact r.length_crashes_le

theorem mem_crashSavings {content : ℕ → β} {item : Saving (List Char)}
    (member : item ∈ r.crashSavings content) : ∃ file ∈ r.input, item.src = file.inode := by
  have listed {file : InputFile} (crash : file ∈ r.crashes.map r.file) : file ∈ r.input := by
    obtain ⟨idx, inside, rfl⟩ := List.mem_map.mp crash
    exact r.mem_input (r.crashes_lt inside)
  rw [crashSavings] at member
  split at member
  · obtain ⟨k, below, rfl⟩ := List.mem_mapIdx.mp member
    exact ⟨_, listed (mem_of_mem_dedup (List.getElem_mem below)), rfl⟩
  · obtain ⟨k, below, rfl⟩ := List.mem_mapIdx.mp member
    exact ⟨_, listed (List.getElem_mem below), rfl⟩

section Crashes

variable {r} {t : Store (List Char) β} (grown : r.fresh ≤ t.fresh)

include grown

theorem own_crashes :
    OwnEntries { t with dir := r.crashEntries } (r.crashSavings t.content) where
  sources := by
    intro item member
    obtain ⟨file, listed, src⟩ := r.mem_crashSavings member
    exact src ▸ (r.input_lt file listed).trans_le grown
  entries := fun name ino there => (r.entries_lt name ino there).trans_le grown
  apart := by
    intro name ino there item member
    obtain ⟨file, listed, src⟩ := r.mem_crashSavings member
    exact src ▸ r.entries_apart name ino there file listed
  single := r.entries_single

/-- The crashing files are saved, and only entries of the crash directory are written through. -/
theorem saveCrashes_saved (crashDir : r.setup.crashDir = true) :
    Saved r.canLinkCrash { t with dir := r.crashEntries } (r.crashSavings t.content)
      (r.saveCrashes t) := by
  have compatible : Compatible r.canLinkCrash { t with dir := r.crashEntries }
      (r.crashSavings t.content) := compatible_of_nodup (r.crashSavings_names t.content)
  obtain ⟨crash, ok, saved⟩ := saveFiles_result (own_crashes grown) compatible
  rwa [saveCrashes, if_pos crashDir, foldl_saveCrash ok]

/-- The files behind the entries of the output directory keep their contents. -/
theorem saveCrashes_content (entries : Entries r.disk r.outputs t) {name : List Char} {ino : ℕ}
    (there : t.dir name = some ino) : (r.saveCrashes t).content ino = t.content ino := by
  cases crashDir : r.setup.crashDir with
  | false => rw [saveCrashes, if_neg (by rw [crashDir]; exact Bool.false_ne_true)]
  | true =>
      have kept := (saveCrashes_saved grown crashDir).kept
      rcases entries.from_items name ino there with old | ⟨item, member, rfl⟩ | ⟨new, below⟩
      · cases old
      · obtain ⟨file, listed, src⟩ := r.mem_outputs member
        rw [src]
        exact kept _ ((r.input_lt file listed).trans_le grown) fun name entry =>
          r.entries_apart name _ entry file listed rfl
      · refine kept _ below fun name entry => ?_
        exact absurd (r.entries_lt name ino entry) (not_lt.mpr new)

variable (same : ∀ ino < r.fresh, t.content ino = r.content ino)

omit grown in
include same in
theorem content_crash {idx : ℕ} (member : idx ∈ r.crashes) :
    t.content (r.file idx).inode = r.content (r.file idx).inode :=
  same _ (r.input_lt _ (r.mem_input (r.crashes_lt member)))

omit grown in
include same in
/-- With `--no-dedup`, a crash with the hash of a crash is saved under that hash. -/
theorem exists_crashSaving (noDedup : r.noDedup = true) {idx : ℕ} (member : idx ∈ r.crashes) :
    ∃ other ∈ r.crashes, r.hashFile r.content (r.file other) = r.hashFile r.content (r.file idx) ∧
      ⟨(r.file other).inode, (r.underHash idx).name⟩ ∈ r.crashSavings t.content := by
  have hash {i : ℕ} (crash : i ∈ r.crashes) :
      r.hashFile t.content (r.file i) = r.hashFile r.content (r.file i) :=
    congrArg r.digest (content_crash same crash)
  have crashed : r.file idx ∈ r.crashes.map r.file := List.mem_map_of_mem member
  obtain ⟨kept, listed, equal⟩ :
      ∃ kept ∈ (dedup (r.hashFile t.content) (r.crashes.map r.file)).1,
        r.hashFile t.content kept = r.hashFile t.content (r.file idx) := exists_mem_dedup crashed
  obtain ⟨other, crash, rfl⟩ := List.mem_map.mp (mem_of_mem_dedup listed)
  rw [hash crash, hash member] at equal
  refine ⟨other, crash, equal, ?_⟩
  obtain ⟨k, below, at_k⟩ := List.mem_iff_getElem.mp listed
  rw [crashSavings, if_pos noDedup]
  refine List.mem_mapIdx.mpr ⟨k, below, ?_⟩
  rw [dedup_hashes, List.getD_eq_getElem _ _ (by simpa using below), List.getElem_map, at_k,
    hash crash, equal]
  rfl

include same in
/-- The crashes are saved under their hashes exactly if the hashes fit. -/
theorem saveCrashes_iff (crashDir : r.setup.crashDir = true) :
    (∀ idx ∈ r.crashes, Holds (r.saveCrashes t) r.content (r.underHash idx)) ↔
      if r.noDedup then r.NoCollision else r.InPlace := by
  have saved := saveCrashes_saved grown crashDir
  have names := r.crashSavings_names t.content
  cases noDedup : r.noDedup with
  | true =>
      rw [if_pos rfl]
      constructor
      · intro holds idx member other member' equal
        obtain ⟨kept, crash, -, item⟩ := exists_crashSaving same noDedup member
        have first :=
          (saved.holds_iff_of_mem names item (r.underHash idx) rfl _).mp (holds idx member)
        have name : (r.underHash idx).name = (r.underHash other).name := congrArg hexName equal
        have second := (saved.holds_iff_of_mem names item (r.underHash other) name _).mp
          (holds other member')
        exact first.symm.trans second
      · intro noCollision idx member
        obtain ⟨kept, crash, equal, item⟩ := exists_crashSaving same noDedup member
        refine (saved.holds_iff_of_mem names item (r.underHash idx) rfl _).mpr ?_
        exact (content_crash same crash).trans (noCollision kept crash idx member equal)
  | false =>
      rw [if_neg Bool.false_ne_true]
      refine forall₂_congr fun idx member => ?_
      have items : r.crashSavings t.content = crashItems (r.crashes.map r.file) r.prepared.2 := by
        rw [crashSavings, if_neg (by rw [noDedup]; exact Bool.false_ne_true)]
      have listed := r.crashes_lt member
      rcases Nat.lt_or_ge idx r.crashes.length with early | late
      · have item : ⟨(r.file r.crashes[idx]).inode, hexName (r.prepared.2.getD idx [])⟩ ∈
            r.crashSavings t.content := by
          rw [items]
          exact List.mem_mapIdx.mpr ⟨idx, by simpa using early, by simp⟩
        have name : hexName (r.prepared.2.getD idx []) = (r.underHash idx).name :=
          congrArg hexName (r.hashList_getD noDedup listed)
        have placed : r.crashes[idx] ∈ r.crashes := List.getElem_mem early
        rw [saved.holds_iff_of_mem names item (r.underHash idx) name]
        simp only [early, not_le.mpr early, false_imp_iff, true_imp_iff, and_true,
          List.getElem?_eq_getElem early, Option.some.injEq]
        constructor
        · intro content
          have equal := (content_crash same placed).symm.trans content
          exact r.hashFile_injective noDedup (r.crashes_lt placed) listed (congrArg r.digest equal)
        · intro own
          exact (content_crash same placed).trans (by rw [own]; rfl)
      · have unnamed : ∀ item ∈ r.crashSavings t.content, item.name ≠ (r.underHash idx).name := by
          rw [items]
          intro item member' equal
          obtain ⟨k, below, rfl⟩ := List.mem_mapIdx.mp member'
          rw [List.length_map] at below
          have listed' := (below.trans_le late).trans listed
          have hashes := hexName_injective equal
          rw [r.hashList_getD noDedup listed'] at hashes
          have place := r.hashFile_injective noDedup listed' listed hashes
          omega
        rw [saved.holds_iff_of_unnamed unnamed]
        simp only [not_lt.mpr late, late, false_imp_iff, true_imp_iff, true_and]
        refine exists_congr fun ino => and_congr_right fun there => ?_
        have kept : t.content ino = r.disk.content ino := same ino (r.entries_lt _ ino there)
        dsimp only
        rw [kept]

end Crashes

/-- **Every selected and every crashing file is saved under its name exactly if the names fit.** -/
theorem delivers_iff : r.Delivers ↔ r.NamesFit := by
  have grown {t : Store (List Char) β} (ok : saveFiles r.canLink r.disk r.outputs = .ok t) :
      r.fresh ≤ t.fresh := (saveFiles_entries ok).fresh_le
  -- what the output directory holds is not changed in the crash directory
  have output {t : Store (List Char) β} (ok : saveFiles r.canLink r.disk r.outputs = .ok t)
      (item : Saving (List Char)) :
      Holds { t with content := (r.saveCrashes t).content } r.content item ↔
        Holds t r.content item := by
    refine exists_congr fun ino => and_congr_right fun there => ?_
    rw [← saveCrashes_content (grown ok) (saveFiles_entries ok) there]
  have crashes {t : Store (List Char) β} (saved : Saved r.canLink r.disk r.outputs t)
      (crashDir : r.setup.crashDir = true) :=
    saveCrashes_iff saved.fresh_le (fun ino below => saved.kept ino below nofun) crashDir
  constructor
  · rintro ⟨final, crash, ok, outputs, crashed⟩
    obtain ⟨t, selected, finished⟩ := bind_eq_ok_iff.mp ok
    cases finished
    have compatible := (saveFiles_iff r.own_outputs).mp
      ⟨t, selected, fun item member => (output selected item).mp (outputs item member)⟩
    obtain ⟨t', selected', saved⟩ := saveFiles_result r.own_outputs compatible
    rw [selected] at selected'
    cases selected'
    exact ⟨fun _ _ => compatible, fun crashDir => (crashes saved crashDir).mp (crashed crashDir)⟩
  · intro fit
    have compatible := r.outputs_compatible fit.outputs
    obtain ⟨t, selected, saved⟩ := saveFiles_result r.own_outputs compatible
    refine ⟨_, _, bind_eq_ok_iff.mpr ⟨t, selected, rfl⟩, fun item member => ?_, fun crashDir => ?_⟩
    · exact (output selected item).mpr (saved.holds compatible member)
    · exact (crashes saved crashDir).mpr (fit.crashes crashDir)

end CminRun

/-! ## Two files, the second of which crashes -/

/-- The files `a` and `b`, and their SHA1. -/
def twoInputs : Corpus (List Byte) where
  noDedup := false
  asQueue := false
  digest := fun content =>
    if content = [0x61] then
      [0x86, 0xf7, 0xe4, 0x37, 0xfa, 0xa5, 0xa7, 0xfc, 0xe1, 0x5d,
        0x1d, 0xdc, 0xb9, 0xea, 0xea, 0xea, 0x37, 0x76, 0x67, 0xb8]
    else
      [0xe9, 0xd7, 0x1f, 0x5e, 0xe7, 0xc9, 0x2d, 0x6d, 0xc9, 0xe9,
        0x2f, 0xfd, 0xad, 0x17, 0xb8, 0xbd, 0x49, 0x41, 0x8f, 0x98]
  size := List.length
  content := fun ino => if ino = 0 then [0x61] else [0x62]
  fresh := 2
  input := [⟨"in/a".toList, 0⟩, ⟨"in/b".toList, 1⟩]
  crashEntries := fun _ => none
  canLink := fun _ => true
  canLinkCrash := fun _ => true
  input_lt := by decide
  entries_lt := nofun
  entries_apart := nofun
  entries_single := nofun

theorem twoInputs_prepared :
    twoInputs.prepared =
      (twoInputs.input, twoInputs.input.map (twoInputs.hashFile twoInputs.content)) := by
  have deduped : dedup (twoInputs.hashFile twoInputs.content) twoInputs.input =
      (twoInputs.input, twoInputs.input.map (twoInputs.hashFile twoInputs.content)) := by
    decide +kernel
  have sorted : ([0, 1].mergeSort fun a b => decide ([1, 1].getD a 0 ≤ [1, 1].getD b 0)) = [0, 1] :=
    List.mergeSort_of_pairwise (by decide)
  have noDedup : twoInputs.noDedup = false := rfl
  rw [Corpus.prepared, prepare, noDedup, if_neg Bool.false_ne_true, deduped]
  refine (congrArg (fun idxes : List ℕ => (reorder idxes twoInputs.input,
    reorder idxes (twoInputs.input.map (twoInputs.hashFile twoInputs.content)))) sorted).trans ?_
  decide +kernel

/-- The second file crashes, and the first one is selected. -/
def crashLast : CminRun (List Byte) where
  toCorpus := twoInputs
  setup := crashSetup
  numFiles_eq := by rw [twoInputs_prepared]; rfl
  read := readCovered
  q := oneStopped
  reachable := crashSetup_reachable
  stopped := by decide
  messages := [some ⟨0, 0, 0, 2⟩, none]
  arrival := List.Perm.of_eq (by decide +kernel)
  arrived := [0]
  joined := .refl _
  saved := [0]
  selected := by
    have common : mostCommon [(4, 2), (9, 1)] = [(4, 2), (9, 1)] :=
      List.mergeSort_of_pairwise (by decide)
    have counter : [0].foldl (fun counter worker => addCounter counter
        (runWorker crashSetup readCovered worker (oneStopped.handed worker)).counter) [] =
        [(4, 2), (9, 1)] := by decide +kernel
    rw [main]
    dsimp only
    rw [counter, common]
    decide +kernel

/-- **The only crash, `b`, is saved under the SHA1 of `a`**, so that there is nothing under its
own. -/
theorem crashLast_misnamed : ¬ ∀ (β : Type) (r : CminRun β), r.Delivers := by
  intro claim
  obtain ⟨output, crash, ok, -, crashed⟩ := claim _ crashLast
  obtain ⟨t, -, finished⟩ := bind_eq_ok_iff.mp ok
  cases finished
  have crashes : crashLast.crashes = [1] := by decide +kernel
  obtain ⟨ino, there, -⟩ := crashed rfl 1 (by rw [crashes]; exact List.mem_cons_self)
  have file : crashLast.file 1 = ⟨"in/b".toList, 1⟩ := by
    rw [Corpus.file, show crashLast.prepared = _ from twoInputs_prepared]
    decide +kernel
  have savings : crashLast.crashSavings t.content = [⟨1, hexName (twoInputs.digest [0x61])⟩] := by
    have noDedup : crashLast.noDedup = false := rfl
    rw [CminRun.crashSavings, crashes, List.map_singleton, file, noDedup,
      if_neg Bool.false_ne_true, show crashLast.prepared = _ from twoInputs_prepared]
    decide +kernel
  have entries : (crashLast.saveCrashes t).dir =
      Function.update (fun _ => none) (hexName (twoInputs.digest [0x61])) (some 1) := by
    have crashDir : crashLast.setup.crashDir = true := rfl
    rw [CminRun.saveCrashes, if_pos crashDir, savings]
    rfl
  rw [entries, CminRun.underHash, file, Function.update_of_ne (by decide +kernel)] at there
  cases there

end GreenFuzz.Cmin
