import GreenFuzz.AflFuzz.NumberedNames
import GreenFuzz.AflFuzz.QueueNames
import GreenFuzz.AflFuzz.SeedCover
import GreenFuzz.Library.Ranks

/-!
# Whose record a resumed entry gets

The records of `fastresume.bin` come in the order of the queue. A restart in place makes the
entries in the order of the names of their files. So the entry with a given file gets the record
at the rank of its name, which is its own record only if the names increase along the queue.

Numbers with six digits do increase. Hashes do not, and neither do numbers from a million on, nor
seeds that keep a name like `id:1`. Two entries with one hash share a file, and then there are
fewer test cases than records, which ends the fuzzer.

The entries get their own records exactly when no two share a file and every record equals the
one at the rank of its file (`queue_restored_iff`).
-/

set_option autoImplicit false

namespace GreenFuzz.AflFuzz

open Library

/-! ## Restarting in place -/

/-- The test cases are read, and then the records. -/
def resumeInPlace (libm : Libm) (detDone : String → Bool) (start : AflState)
    (dir : List SavedFile) (file : List Chunk) : Except ResumeFault AflState := do
  let afl ← readTestcases detDone start dir
  fastResume libm afl file

/-- The entries agree in the fields from `colorized` up to `mother` and in `trace_mini`. -/
structure SameRecord (e f : QueueEntry) : Prop where
  region : e.region = f.region
  traceMini : e.traceMini.map TraceMini.bytes = f.traceMini.map TraceMini.bytes

/-- The restart succeeds, and gives every test case the record of the entry with its file. -/
def QueueRestored (libm : Libm) (detDone : String → Bool) (start : AflState) (t : Session) :
    Prop :=
  ∃ r, resumeInPlace libm detDone start t.s.queueFiles (writeFastresume t.s.afl) = .ok r ∧
    ∀ k file i, (testcasesOf t.s.queueFiles)[k]? = some file → t.fnames[i]? = some file.name →
      SameRecord (r.queueBuf k) (t.s.afl.queueBuf i)

/-- No two entries share a file, and the entry that stands in the queue where the file of another
stands in the directory has the record of that other one. -/
structure RecordsInPlace (t : Session) : Prop where
  distinct : t.fnames.Nodup
  records : ∀ i name, t.fnames[i]? = some name →
    SameRecord (t.s.afl.queueBuf (rankIn t.fnames name)) (t.s.afl.queueBuf i)

theorem SameRecord.refl (e : QueueEntry) : SameRecord e e := ⟨rfl, rfl⟩

theorem SameRecord.symm {e f : QueueEntry} (same : SameRecord e f) : SameRecord f e :=
  ⟨same.region.symm, same.traceMini.symm⟩

theorem SameRecord.trans {e f g : QueueEntry} (first : SameRecord e f) (second : SameRecord f g) :
    SameRecord e g :=
  ⟨first.region.trans second.region, first.traceMini.trans second.traceMini⟩

/-! ## What is read -/

variable {B : Build} {t : Session} {detDone : String → Bool} {start afl : AflState}
  {dir : List SavedFile}

/-- Entries that were just read have no minimised trace. -/
theorem readTestcases_traceMini (empty : start.queuedItems = 0)
    (read : readTestcases detDone start dir = .ok afl) :
    ∀ k < afl.queuedItems, (afl.queueBuf k).traceMini = none := by
  have all : ∀ k < ((testcasesOf dir).foldl (fun afl file =>
      addToQueue afl (min file.data.length maxFile) (detDone file.name)) start).queuedItems,
      (((testcasesOf dir).foldl (fun afl file =>
        addToQueue afl (min file.data.length maxFile) (detDone file.name)) start).queueBuf
          k).traceMini = none := by
    refine foldl_invariant (P := fun t : AflState => ∀ k < t.queuedItems,
      (t.queueBuf k).traceMini = none) ?_ ?_
    · intro k below
      rw [empty] at below
      exact absurd below (Nat.not_lt_zero k)
    · intro file _ t none k below
      show (Function.update t.queueBuf t.queuedItems _ k).traceMini = _
      by_cases last : k = t.queuedItems
      · rw [last, Function.update_self]
      · rw [Function.update_of_ne last]
        exact none k (Nat.lt_of_le_of_ne (Nat.lt_succ_iff.mp below) last)
  unfold readTestcases at read
  dsimp only at read
  split at read
  · cases read
  · cases read
    exact all

theorem sameRecord_restored {e saved : QueueEntry} (mapSize : ℕ) (fresh : e.traceMini = none) :
    SameRecord (e.restored saved mapSize) saved := by
  refine ⟨rfl, ?_⟩
  unfold QueueEntry.restored
  cases saved.traceMini with
  | none => exact congrArg (Option.map TraceMini.bytes) fresh
  | some mini => rfl

/-- A restart succeeds if there is a test case for every record, and gives them out in order. -/
theorem resumeInPlace_ok {libm : Libm} {r : AflState} (empty : start.queuedItems = 0)
    (done : resumeInPlace libm detDone start dir (writeFastresume afl) = .ok r) :
    (testcasesOf dir).length = afl.queuedItems ∧
      ∀ k < afl.queuedItems, SameRecord (r.queueBuf k) (afl.queueBuf k) := by
  obtain ⟨begun, read, resume⟩ := bind_eq_ok_iff.mp done
  rw [fastResume_writeFastresume] at resume
  obtain ⟨items, -⟩ := readTestcases_items empty read
  split at resume
  · rename_i same
    cases resume
    refine ⟨items.symm.trans same, fun k below => ?_⟩
    rw [resumed_queueBuf afl begun (same ▸ below)]
    exact sameRecord_restored _ (readTestcases_traceMini empty read k (same ▸ below))
  · split at resume <;> cases resume

theorem resumeInPlace_succeeds (libm : Libm) (detDone : String → Bool)
    (empty : start.queuedItems = 0) (some : testcasesOf dir ≠ [])
    (items : (testcasesOf dir).length = afl.queuedItems) :
    ∃ r, resumeInPlace libm detDone start dir (writeFastresume afl) = .ok r := by
  have count := foldl_addToQueue_items detDone (testcasesOf dir) start
  rw [empty, Nat.zero_add] at count
  set begun := (testcasesOf dir).foldl (fun afl file =>
    addToQueue afl (min file.data.length maxFile) (detDone file.name)) start
  have read : readTestcases detDone start dir = .ok begun := by
    refine if_neg ?_
    show begun.queuedItems ≠ 0
    rw [count]
    exact fun none => some (List.length_eq_zero_iff.mp none)
  refine ⟨resumed afl begun, bind_eq_ok_iff.mpr ⟨begun, read, ?_⟩⟩
  rw [fastResume_writeFastresume, if_pos (count.trans items)]

/-! ## The order of the directory -/

/-- The test cases of a restart are the files of the entries, in the order of their names. -/
theorem FilesMatch.testcasesOf_names (files : FilesMatch t) :
    ((testcasesOf t.s.queueFiles).map SavedFile.name).Pairwise (· < ·) ∧
      ((testcasesOf t.s.queueFiles).map SavedFile.name).Perm
        (t.s.queueFiles.map SavedFile.name) := by
  have all : testcasesOf t.s.queueFiles = alphasort t.s.queueFiles := by
    refine List.filter_eq_self.mpr fun file member => ?_
    exact files.testcases file ((List.perm_insertionSort _ _).mem_iff.mp member)
  have perm : ((testcasesOf t.s.queueFiles).map SavedFile.name).Perm
      (t.s.queueFiles.map SavedFile.name) := by
    rw [all]
    exact (List.perm_insertionSort _ _).map _
  refine ⟨?_, perm⟩
  have different : ((testcasesOf t.s.queueFiles).map SavedFile.name).Pairwise (· ≠ ·) :=
    perm.nodup_iff.mpr files.distinct
  have sorted := alphasort_names t.s.queueFiles
  rw [← all] at sorted
  exact (different.and sorted).imp fun ⟨ne, le⟩ => lt_of_le_of_ne le ne

/-- The directory has as many files as the queue has entries exactly if no two share one. -/
theorem FilesMatch.perm_iff (files : FilesMatch t) :
    (t.s.queueFiles.map SavedFile.name).Perm t.fnames ↔
      (testcasesOf t.s.queueFiles).length = t.s.afl.queuedItems := by
  have length : (testcasesOf t.s.queueFiles).length =
      (t.s.queueFiles.map SavedFile.name).length := by
    rw [← files.testcasesOf_names.2.length_eq, List.length_map]
  rw [length, ← files.items]
  refine ⟨List.Perm.length_eq, fun same => ?_⟩
  refine (files.distinct.subperm fun name member => ?_).perm_of_length_le same.ge
  exact (files.listed name).mp member

/-! ## When the records are in place -/

/-- **Every test case gets its own record back exactly when the records are in place.** -/
theorem queue_restored_iff (B : Build) (hex : HexDigests B) (libm : Libm)
    (detDone : String → Bool) (start : AflState) (empty : start.queuedItems = 0) (t : Session)
    (run : Reachable (sessionSystem B) t) :
    QueueRestored libm detDone start t ↔ RecordsInPlace t := by
  have files := filesMatch_of_reachable hex run
  obtain ⟨increasing, perm⟩ := files.testcasesOf_names
  constructor
  · rintro ⟨r, done, own⟩
    obtain ⟨items, records⟩ := resumeInPlace_ok empty done
    have same := files.perm_iff.mpr items
    refine ⟨same.nodup_iff.mp files.distinct, fun i name here => ?_⟩
    have place := (getElem?_sorted_iff increasing (perm.trans same)
      (List.mem_of_getElem? here)).mpr rfl
    rw [List.getElem?_map, Option.map_eq_some_iff] at place
    obtain ⟨file, at_rank, rfl⟩ := place
    have below : rankIn t.fnames file.name < t.s.afl.queuedItems :=
      items ▸ (List.getElem?_eq_some_iff.mp at_rank).1
    exact (records _ below).symm.trans (own _ file i at_rank here)
  · rintro ⟨distinct, own⟩
    have same : (t.s.queueFiles.map SavedFile.name).Perm t.fnames :=
      (List.perm_ext_iff_of_nodup files.distinct distinct).mpr files.listed
    have items := files.perm_iff.mp same
    have some : testcasesOf t.s.queueFiles ≠ [] := by
      intro none
      rw [none, ← files.items] at items
      exact files.started (List.length_eq_zero_iff.mp items.symm)
    obtain ⟨r, done⟩ := resumeInPlace_succeeds libm detDone empty some items
    refine ⟨r, done, fun k file i at_k here => ?_⟩
    have place : k = rankIn t.fnames file.name := by
      refine (getElem?_sorted_iff increasing (perm.trans same) (List.mem_of_getElem? here)).mp ?_
      rw [List.getElem?_map, at_k]
      rfl
    have below : k < t.s.afl.queuedItems := items ▸ (List.getElem?_eq_some_iff.mp at_k).1
    refine ((resumeInPlace_ok empty done).2 k below).trans ?_
    rw [place]
    exact own i file.name here

/-! ## Increasing names -/

/-- Names that increase along the queue have their records in place. -/
theorem recordsInPlace_of_increasing (increasing : t.fnames.Pairwise (· < ·)) :
    RecordsInPlace t := by
  refine ⟨increasing.imp fun less => less.ne, fun i name here => ?_⟩
  obtain ⟨inside, rfl⟩ := List.getElem?_eq_some_iff.mp here
  rw [rankIn_getElem increasing inside]
  exact SameRecord.refl _

/-! ### Two seeds -/

/-- A build whose `sha1_hex` is right on the texts `a` and `b`. -/
def sha1Build : Build := { trivialBuild with
  sha1Hex := fun data =>
    if data = [97] then "86f7e437faa5a7fce15d1ddcb9eaeaea377667b8"
    else if data = [98] then "e9d71f5ee7c92d6dc9e92ffdad17b8bd49418f98"
    else "da39a3ee5e6b4b0d3255bfef95601890afd80709" }

theorem sha1Build_hexDigests : HexDigests sha1Build := by
  have digits {text : String} (length : (text.length == 40) = true)
      (all : (text.toList.all fun c => "0123456789abcdef".toList.contains c) = true) :
      text.length = 40 ∧ ∀ c ∈ text.toList, c ∈ "0123456789abcdef".toList :=
    ⟨beq_iff_eq.mp length,
      fun c member => List.contains_iff_mem.mp (List.all_eq_true.mp all c member)⟩
  intro data
  show (ite _ _ _ : String).length = 40 ∧ ∀ c ∈ (ite _ _ _ : String).toList, _
  split
  · exact digits (by decide +kernel) (by decide +kernel)
  · split
    · exact digits (by decide +kernel) (by decide +kernel)
    · exact digits (by decide +kernel) (by decide +kernel)

/-- The seeds `1` and `2`. -/
def seedsBA : List SavedFile := [⟨"1", [98]⟩, ⟨"2", [97]⟩]

def twoRead : AflState :=
  (testcasesOf seedsBA).foldl (fun afl file => addToQueue afl (min file.data.length maxFile) false)
    { mapSize := 8 }

/-- The first seed was calibrated, the second was not. -/
def firstCalibrated : AflState :=
  (calibrateCase sha1Build.platform twoRead 0 { runs := fun _ => { trace := hitsFirst } }).2

/-- A session with these seeds. -/
def seedSession (sha1 : Bool) (first second : String) (afl : AflState) : Session where
  s :=
    { afl := afl
      aflSha1Filenames := sha1
      queueFiles := [⟨first, [98]⟩, ⟨second, [97]⟩] }
  fnames := [first, second]

theorem seedSession_reachable (sha1 : Bool) (first second : String)
    (names : [first, second] = pivotInputs sha1Build
      { aflSha1Filenames := sha1 } (testcasesOf seedsBA)) (differ : first ≠ second) :
    Reachable (sessionSystem sha1Build) (seedSession sha1 first second firstCalibrated) := by
  have items : twoRead.queuedItems = 2 ∧ firstCalibrated.queuedItems = 2 := by decide +kernel
  have read : readTestcases (fun _ => false) { mapSize := 8 } seedsBA = .ok twoRead := by
    show (if twoRead.queuedItems = 0 then .error .noTestCases else .ok twoRead) = Except.ok twoRead
    rw [items.1]
    rfl
  have starts : StartsFrom sha1Build false seedsBA (seedSession sha1 first second twoRead) := by
    refine ⟨⟨_, _, rfl, read⟩, ?_, ?_, by simpa [seedSession] using differ⟩
    · rw [seedSession, names]
      rfl
    · have data : (testcasesOf seedsBA).map SavedFile.data = [[98], [97]] := by decide +kernel
      rw [data]
      rfl
  refine .step (.init ⟨seedsBA, starts⟩) (.work [first, second] ?_ rfl ?_ rfl)
  · exact items.2.trans items.1.symm
  · intro file member
    simp only [List.mem_cons, List.not_mem_nil, or_false] at member
    rcases member with rfl | rfl <;> simp

/-- With numbers, both seeds get their own records back. -/
theorem queue_restored_numbered :
    QueueRestored Libm.identity (fun _ => false) { mapSize := 8 }
      (seedSession false "id:000000,time:0,execs:0,orig:1" "id:000001,time:0,execs:0,orig:2"
        firstCalibrated) := by
  refine (queue_restored_iff sha1Build sha1Build_hexDigests Libm.identity (fun _ => false)
    { mapSize := 8 } rfl _ (seedSession_reachable false _ _ ?_ (by decide))).mpr ?_
  · decide +kernel
  · refine recordsInPlace_of_increasing ?_
    show List.Pairwise _ ["id:000000,time:0,execs:0,orig:1", "id:000001,time:0,execs:0,orig:2"]
    decide +kernel

/-- With hashes, the names come the other way round, and each seed gets the record of the
other one. -/
theorem queue_swapped_hashed :
    Reachable (sessionSystem sha1Build) (seedSession true
        "e9d71f5ee7c92d6dc9e92ffdad17b8bd49418f98" "86f7e437faa5a7fce15d1ddcb9eaeaea377667b8"
        firstCalibrated) ∧
      ¬ QueueRestored Libm.identity (fun _ => false) { mapSize := 8 } (seedSession true
        "e9d71f5ee7c92d6dc9e92ffdad17b8bd49418f98" "86f7e437faa5a7fce15d1ddcb9eaeaea377667b8"
        firstCalibrated) := by
  refine ⟨seedSession_reachable true _ _ (by decide +kernel) (by decide), ?_⟩
  rintro ⟨r, done, own⟩
  have read := (resumeInPlace_ok rfl done).2 0 (by decide +kernel)
  have wanted := own 0 ⟨"86f7e437faa5a7fce15d1ddcb9eaeaea377667b8", [97]⟩ 1 (by decide +kernel) rfl
  have same := congrArg QueueEntry.execUs (read.symm.trans wanted).region
  exact absurd same (by decide +kernel)

end GreenFuzz.AflFuzz
