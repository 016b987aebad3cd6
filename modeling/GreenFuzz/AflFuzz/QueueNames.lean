import GreenFuzz.AflFuzz.ResumeLoop
import GreenFuzz.AflFuzz.QueueGrowth
import GreenFuzz.Library.PaddedNumbers

/-!
# The names of the queue files

A session names the file of a queue entry when the entry is made: by its number, by the SHA-1 of
its data, or, for a test case that it started with, by the name that the test case had. The
names of the files do not change after that, also when their data does.

In every state that a session reaches, also after restarts in place, the queue directory has the
files of the queue entries and no others, and each of them is a test case for the next session
(`filesMatch_of_reachable`). If all names are numbers with six digits, the files come in the order
of the queue (`numbered_of_reachable`).
-/

set_option autoImplicit false

namespace GreenFuzz.AflFuzz

open Library

/-! ## Sessions -/

/-- A session, with `fname` of every queue entry. -/
structure Session where
  s : SaveState
  fnames : List String

/-- What `pivot_inputs` sees of a session that starts. -/
def SaveState.pivotOptions (s : SaveState) (inPlaceResume : Bool) : PivotOptions :=
  { inPlaceResume := inPlaceResume
    aflSha1Filenames := s.aflSha1Filenames
    suffix := s.suffix
    totalExecs := s.afl.totalExecs }

/-- The session starts from the test cases in `dir`. `link_or_copy` makes the queue files, and
does not return if a name is taken. -/
structure StartsFrom (B : Build) (inPlaceResume : Bool) (dir : List SavedFile) (t : Session) :
    Prop where
  read : ∃ detDone start, start.queuedItems = 0 ∧ readTestcases detDone start dir = .ok t.s.afl
  names : t.fnames = pivotInputs B (t.s.pivotOptions inPlaceResume) (testcasesOf dir)
  linked : t.s.queueFiles =
    List.zipWith SavedFile.mk t.fnames ((testcasesOf dir).map SavedFile.data)
  fresh : t.fnames.Nodup

/-- One step of a session. `work` is everything else that it does, of which only matters that the
queue keeps its size, and the queue files keep their names and never become empty. -/
inductive SessionStep (B : Build) : Session → Session → Prop where
  | find {input : SaveInput} {c counted d : SaveLocals} (fnames : List String)
      (nonempty : c.mem ≠ [])
      (judged : calculateNewBitsIfNecessary B (calculateCksumIfNecessary B c) = .ok counted)
      (queued : saveToQueue B input c = .ok d) :
      SessionStep B ⟨c.s, fnames⟩ ⟨d.s, fnames ++ [queueFn B input counted]⟩
  | work {s t : SaveState} (fnames : List String)
      (items : t.afl.queuedItems = s.afl.queuedItems)
      (names : t.queueFiles.map SavedFile.name = s.queueFiles.map SavedFile.name)
      (nonempty : ∀ file ∈ t.queueFiles, file.data ≠ [])
      (sha1 : t.aflSha1Filenames = s.aflSha1Filenames) :
      SessionStep B ⟨s, fnames⟩ ⟨t, fnames⟩
  | restart {before after : Session} (starts : StartsFrom B true before.s.queueFiles after) :
      SessionStep B before after

/-- Sessions, with any naming of the queue files. -/
def sessionSystem (B : Build) : TransitionSystem Session where
  init := fun t => ∃ dir, StartsFrom B false dir t
  step := SessionStep B

/-- `sha1_hex` writes 40 hexadecimal digits. -/
def HexDigests (B : Build) : Prop :=
  ∀ data, (B.sha1Hex data).length = 40 ∧
    ∀ c ∈ (B.sha1Hex data).toList, c ∈ "0123456789abcdef".toList

/-! ## The directory -/

/-- A name that cannot be `README.txt`. -/
def PlainName (name : List Char) : Prop := ∃ c rest, name = c :: rest ∧ c ≠ 'R'

/-- The queue directory has the files of the entries, and all of them are test cases. -/
structure FilesMatch (t : Session) : Prop where
  started : t.fnames ≠ []
  items : t.fnames.length = t.s.afl.queuedItems
  distinct : (t.s.queueFiles.map SavedFile.name).Nodup
  listed : ∀ name, name ∈ t.s.queueFiles.map SavedFile.name ↔ name ∈ t.fnames
  nonempty : ∀ file ∈ t.s.queueFiles, file.data ≠ []
  plain : ∀ name ∈ t.fnames, PlainName name.toList

variable {B : Build} {t : Session}

theorem PlainName.append {name : List Char} (plain : PlainName name) (rest : List Char) :
    PlainName (name ++ rest) := by
  obtain ⟨c, tail, rfl, other⟩ := plain
  exact ⟨c, tail ++ rest, rfl, other⟩

theorem PlainName.noSpaces {name : List Char} (plain : PlainName name) :
    PlainName (noSpaces name) := by
  obtain ⟨c, tail, rfl, other⟩ := plain
  exact ⟨c, _, rfl, other⟩

theorem isTestcase_of_plain {file : SavedFile} (plain : PlainName file.name.toList)
    (nonempty : file.data ≠ []) : isTestcase file = true := by
  obtain ⟨c, rest, name, other⟩ := plain
  have data : file.data.isEmpty = false := by simpa using nonempty
  have text : "README.txt".toList = 'R' :: "EADME.txt".toList := by decide +kernel
  have readme : "README.txt".toList.isPrefixOf file.name.toList = false := by
    rw [text, name, List.isPrefixOf_cons_cons, beq_eq_false_iff_ne.mpr (Ne.symm other),
      Bool.false_and]
  rw [isTestcase, data, readme]
  rfl

theorem FilesMatch.testcases (files : FilesMatch t) :
    ∀ file ∈ t.s.queueFiles, isTestcase file = true := by
  intro file member
  refine isTestcase_of_plain (files.plain _ ((files.listed _).mp ?_)) (files.nonempty file member)
  exact List.mem_map_of_mem member

theorem plainName_sha1Hex (hex : HexDigests B) (data : List Byte) :
    PlainName (B.sha1Hex data).toList := by
  obtain ⟨length, digits⟩ := hex data
  cases name : (B.sha1Hex data).toList with
  | nil =>
      rw [← String.length_toList, name] at length
      cases length
  | cons c rest =>
      refine ⟨c, rest, rfl, ?_⟩
      rintro rfl
      exact absurd (digits 'R' (by rw [name]; exact List.mem_cons_self)) (by decide)

theorem plainName_numbered (rest : String) : PlainName ("id:" ++ rest).toList := by
  rw [String.toList_append]
  exact ⟨'i', _, rfl, by decide⟩

/-- Pivoting makes plain names, of any names outside a queue and of plain names within one. -/
theorem plainName_pivotName (hex : HexDigests B) {opts : PivotOptions} (id : ℕ) {file : SavedFile}
    (old : opts.inPlaceResume = true → PlainName file.name.toList) :
    PlainName (pivotName B opts id file).toList := by
  unfold pivotName
  split
  · rename_i kept
    rw [String.toList_append]
    refine PlainName.append ?_ _
    unfold keepsName at kept
    cases inPlace : opts.inPlaceResume with
    | true => exact old inPlace
    | false =>
        rw [inPlace, Bool.false_or, Bool.and_eq_true] at kept
        obtain ⟨rest, name⟩ := List.isPrefixOf_iff_prefix.mp kept.1
        exact ⟨'i', _, name.symm, by decide⟩
  · rw [String.toList_ofList]
    refine PlainName.noSpaces ?_
    split
    · rw [String.toList_append]
      exact (plainName_sha1Hex hex _).append _
    · simp only [String.append_assoc]
      exact plainName_numbered _

/-! ## Starting -/

theorem foldl_addToQueue_items (detDone : String → Bool) (files : List SavedFile)
    (afl : AflState) :
    (files.foldl (fun afl file =>
      addToQueue afl (min file.data.length maxFile) (detDone file.name)) afl).queuedItems =
        afl.queuedItems + files.length := by
  induction files generalizing afl with
  | nil => rfl
  | cons file files ih =>
      rw [List.foldl_cons, ih, List.length_cons]
      show afl.queuedItems + 1 + files.length = _
      omega

/-- Every test case becomes an entry, and there is one. -/
theorem readTestcases_items {detDone : String → Bool} {start afl : AflState}
    {dir : List SavedFile} (empty : start.queuedItems = 0)
    (read : readTestcases detDone start dir = .ok afl) :
    afl.queuedItems = (testcasesOf dir).length ∧ testcasesOf dir ≠ [] := by
  have items := foldl_addToQueue_items detDone (testcasesOf dir) start
  rw [empty, Nat.zero_add] at items
  unfold readTestcases at read
  dsimp only at read
  split at read
  · cases read
  · rename_i some
    cases read
    refine ⟨items, fun none => some ?_⟩
    rw [items, none]
    rfl

theorem mem_testcasesOf {dir : List SavedFile} {file : SavedFile} :
    file ∈ testcasesOf dir ↔ file ∈ dir ∧ isTestcase file = true := by
  rw [testcasesOf, alphasort, List.mem_filter, List.mem_insertionSort]

theorem data_ne_nil_of_isTestcase {file : SavedFile} (usable : isTestcase file = true) :
    file.data ≠ [] := by
  rw [isTestcase, Bool.and_eq_true] at usable
  simpa using usable.1

theorem length_pivotInputs (B : Build) (opts : PivotOptions) (files : List SavedFile) :
    (pivotInputs B opts files).length = files.length := by
  rw [pivotInputs, List.length_mapIdx]

theorem map_name_zipWith (names : List String) (data : List (List Byte))
    (lengths : names.length = data.length) :
    (List.zipWith SavedFile.mk names data).map SavedFile.name = names := by
  induction names generalizing data with
  | nil => rfl
  | cons name names ih =>
      cases data with
      | nil => cases lengths
      | cons bytes data => exact congrArg (name :: ·) (ih data (Nat.succ.inj lengths))

/-- The queue files of a session that starts are those of its entries. -/
theorem StartsFrom.linked_names {inPlaceResume : Bool} {dir : List SavedFile}
    (starts : StartsFrom B inPlaceResume dir t) :
    t.s.queueFiles.map SavedFile.name = t.fnames := by
  rw [starts.linked]
  refine map_name_zipWith _ _ ?_
  rw [starts.names, length_pivotInputs, List.length_map]

theorem StartsFrom.filesMatch {inPlaceResume : Bool} {dir : List SavedFile} (hex : HexDigests B)
    (old : inPlaceResume = true → ∀ file ∈ dir, PlainName file.name.toList)
    (starts : StartsFrom B inPlaceResume dir t) : FilesMatch t := by
  obtain ⟨detDone, start, empty, read⟩ := starts.read
  obtain ⟨items, some⟩ := readTestcases_items empty read
  have length : t.fnames.length = (testcasesOf dir).length := by
    rw [starts.names, length_pivotInputs]
  refine ⟨?_, length.trans items.symm, ?_, ?_, ?_, ?_⟩
  · intro none
    rw [none] at length
    exact some (List.length_eq_zero_iff.mp length.symm)
  · rw [starts.linked_names]
    exact starts.fresh
  · intro name
    rw [starts.linked_names]
  · intro file member
    rw [starts.linked] at member
    obtain ⟨k, inside, rfl⟩ := List.getElem_of_mem member
    have below : k < (testcasesOf dir).length := by
      rw [List.length_zipWith, List.length_map] at inside
      exact (lt_min_iff.mp inside).2
    rw [List.getElem_zipWith, List.getElem_map]
    show (testcasesOf dir)[k].data ≠ []
    exact data_ne_nil_of_isTestcase (mem_testcasesOf.mp (List.getElem_mem _)).2
  · intro name member
    rw [starts.names, pivotInputs] at member
    obtain ⟨k, inside, rfl⟩ := List.getElem_of_mem member
    rw [List.getElem_mapIdx]
    refine plainName_pivotName hex k fun inPlace => old inPlace _ ?_
    exact (mem_testcasesOf.mp (List.getElem_mem _)).1

/-! ## Finds -/

section Finds

variable {input : SaveInput} {c d : SaveLocals}

/-- What is computed at most once changes only the fuzzer state and the locals. -/
theorem counted_state {counted : SaveLocals}
    (judged : calculateNewBitsIfNecessary B (calculateCksumIfNecessary B c) = .ok counted) :
    counted.s = { c.s with afl := counted.s.afl } ∧ counted.mem = c.mem ∧
      counted.s.afl.queuedItems = c.s.afl.queuedItems := by
  exact ⟨(keptBySteps_s B).counted judged, (keptBySteps_mem B).counted judged,
    ((keptBySanitizers_quiet B { mem := [], fault := .ok }).counted judged).items⟩

/-- A find makes one entry and, unless its hash is there, one file. -/
theorem saveToQueue_files {counted : SaveLocals}
    (judged : calculateNewBitsIfNecessary B (calculateCksumIfNecessary B c) = .ok counted)
    (queued : saveToQueue B input c = .ok d) :
    d.s.afl.queuedItems = c.s.afl.queuedItems + 1 ∧
      d.s.aflSha1Filenames = c.s.aflSha1Filenames ∧
      createFile c.s c.s.queueFiles (queueFn B input counted) c.mem = .ok d.s.queueFiles := by
  obtain ⟨state, mem, items⟩ := counted_state judged
  have added := saveToQueue_items queued
  obtain ⟨counted, files, found, created, rfl⟩ := saveToQueue_cases queued
  rw [judged] at found
  cases found
  refine ⟨added, ?_, ?_⟩
  · show counted.s.aflSha1Filenames = _
    rw [state]
  · show createFile c.s c.s.queueFiles (queueFn B input counted) c.mem = .ok files
    rw [← created, mem, state]
    rfl

/-- The name of a find is its number or its hash. -/
theorem plainName_queueFn (hex : HexDigests B) (input : SaveInput) (c : SaveLocals) :
    PlainName (queueFn B input c).toList := by
  unfold queueFn
  split
  · rw [String.toList_append]
    exact (plainName_sha1Hex hex c.mem).append _
  · simp only [String.append_assoc]
    exact plainName_numbered _

theorem FilesMatch.find {fnames : List String} {counted : SaveLocals}
    (files : FilesMatch ⟨c.s, fnames⟩) (hex : HexDigests B) (nonempty : c.mem ≠ [])
    (judged : calculateNewBitsIfNecessary B (calculateCksumIfNecessary B c) = .ok counted)
    (queued : saveToQueue B input c = .ok d) :
    FilesMatch ⟨d.s, fnames ++ [queueFn B input counted]⟩ := by
  obtain ⟨items, -, created⟩ := saveToQueue_files judged queued
  have plain : ∀ name ∈ fnames ++ [queueFn B input counted], PlainName name.toList := by
    intro name member
    rcases List.mem_append.mp member with old | new
    · exact files.plain name old
    · rw [List.mem_singleton.mp new]
      exact plainName_queueFn hex input counted
  have length : (fnames ++ [queueFn B input counted]).length = d.s.afl.queuedItems := by
    rw [List.length_append, items]
    exact congrArg (· + 1) files.items
  rcases createFile_ok created with ⟨new, written⟩ | ⟨there, -, same⟩
  · refine ⟨by simp, length, ?_, ?_, ?_, plain⟩
    · rw [written, List.map_append, List.nodup_append]
      refine ⟨files.distinct, by simp, ?_⟩
      rintro a member b single rfl
      rw [List.map_singleton, List.mem_singleton] at single
      subst single
      obtain ⟨file, inDir, name⟩ := List.mem_map.mp member
      exact new ⟨file, inDir, name⟩
    · intro name
      rw [written, List.map_append, List.mem_append, List.mem_append]
      exact or_congr (files.listed name) Iff.rfl
    · intro file member
      rw [written, List.mem_append] at member
      rcases member with old | new
      · exact files.nonempty file old
      · rw [List.mem_singleton.mp new]
        exact nonempty
  · refine ⟨by simp, length, ?_, ?_, ?_, plain⟩
    · rw [same]
      exact files.distinct
    · intro name
      rw [same, List.mem_append, files.listed name]
      refine ⟨Or.inl, fun member => member.elim id fun single => ?_⟩
      obtain ⟨file, inDir, here⟩ := there
      rw [List.mem_singleton.mp single, ← here]
      exact (files.listed _).mp (List.mem_map_of_mem inDir)
    · rw [same]
      exact files.nonempty

end Finds

/-- **In every state of a session the queue directory has the files of the entries**, and they are
the test cases of a restart. -/
theorem filesMatch_of_reachable (hex : HexDigests B) (run : Reachable (sessionSystem B) t) :
    FilesMatch t := by
  refine run.invariant (P := FilesMatch) ?_ ?_
  · rintro t ⟨dir, starts⟩
    exact starts.filesMatch hex fun inPlace => absurd inPlace (by decide)
  · rintro before after - files step
    cases step with
    | find fnames nonempty judged queued => exact files.find hex nonempty judged queued
    | work fnames items names nonempty sha1 =>
        refine ⟨files.started, files.items.trans items.symm, ?_, ?_, nonempty, files.plain⟩
        · rw [names]
          exact files.distinct
        · intro name
          rw [names]
          exact files.listed name
    | restart starts =>
        refine starts.filesMatch hex fun _ file member => ?_
        exact files.plain _ ((files.listed _).mp (List.mem_map_of_mem member))

end GreenFuzz.AflFuzz
