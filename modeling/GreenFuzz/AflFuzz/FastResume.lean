import GreenFuzz.AflFuzz.SaveIfInteresting
import Mathlib.Data.List.Sort

/-!
# Fast resume

At its end a session writes `fastresume.bin`: the virgin maps, and one record for each queue
entry, in the order of the queue. A session that resumes in place reads the test cases of the
old queue directory in the order of their names, and gives the entries it makes of them the
records in the order of the file. Nothing in a record names its test case.

The model covers the end of `main` and its record loop in `afl-fuzz.c`, and `read_testcases` and
`pivot_inputs` of `afl-fuzz-init.c`. The file is a list of chunks, one for each write. A file of
another version of the fuzzer is not read at all, so both sides agree on the sizes of the chunks.

`pivot_inputs` also sets the depth of an entry, which its record overwrites, and is modelled as
far as it chooses names.
-/

set_option autoImplicit false

namespace GreenFuzz.AflFuzz

open Library

/-! ## The file -/

/-- How a resume can end the fuzzer: a read that finds something else than it wants, data after
the last record, or no usable test case. -/
inductive ResumeFault where
  | shortRead | trailingData | noTestCases
  deriving DecidableEq, Repr

/-- The fields of an entry from `colorized` up to `mother`, which lie next to each other in
memory. The others are blank. -/
def QueueEntry.region (e : QueueEntry) : QueueEntry :=
  { e with len := 0, id := 0, mother := none, traceMini := none }

/-- Overwrite these fields. -/
def QueueEntry.withRegion (e saved : QueueEntry) : QueueEntry :=
  { saved with len := e.len, id := e.id, mother := e.mother, traceMini := e.traceMini }

/-- What one `ZLIBWRITE` puts into the file. -/
inductive Chunk where
  | map (bytes : Buffer)
  | queueData (region : QueueEntry)
  | hasMini (flag : Bool)
  | traceMini (bytes : Buffer)

/-- The record of an entry. -/
def entryChunks (e : QueueEntry) : List Chunk :=
  match e.traceMini with
  | none => [.queueData e.region, .hasMini false]
  | some mini => [.queueData e.region, .hasMini true, .traceMini mini.bytes]

/-- `fastresume.bin` as it is written at the end of `main`. -/
def writeFastresume (afl : AflState) : List Chunk :=
  [.map afl.virginBits, .map afl.virginTmout, .map afl.virginCrash, .map afl.varBytes] ++
    (List.range afl.queuedItems).flatMap fun i => entryChunks (afl.queueBuf i)

/-! ## The record loop -/

/-- Read one record. -/
def readRecord : List Chunk → Except ResumeFault ((QueueEntry × Option Buffer) × List Chunk)
  | .queueData region :: .hasMini false :: rest => .ok ((region, none), rest)
  | .queueData region :: .hasMini true :: .traceMini bytes :: rest =>
      .ok ((region, some bytes), rest)
  | _ => .error .shortRead

/-- Store a record in entry `i`. -/
def restoreEntry (afl : AflState) (i : ℕ) (record : QueueEntry × Option Buffer) : AflState :=
  afl.modifyEntry i fun e => { e.withRegion record.1 with
    traceMini :=
      match record.2 with
      | none => e.traceMini
      | some bytes => some ⟨(afl.mapSize + 7) / 8, bytes⟩ }

/-- The counters after the record of entry `i` was read. -/
def countRestored (afl : AflState) (i : ℕ) : AflState :=
  let q := afl.queueBuf i
  let pending := if q.wasFuzzed then u32Pred afl.pendingNotFuzzed else afl.pendingNotFuzzed
  { afl with
    pendingNotFuzzed := if q.disabled ∧ !q.wasFuzzed then u32Pred pending else pending
    activeItems := if q.disabled then u32Pred afl.activeItems else afl.activeItems
    queuedVariable :=
      if q.varBehavior then u32 (afl.queuedVariable + 1) else afl.queuedVariable
    queuedFavored := if q.favored then u32 (afl.queuedFavored + 1) else afl.queuedFavored
    pendingFavored :=
      if q.favored ∧ !q.wasFuzzed then u32 (afl.pendingFavored + 1) else afl.pendingFavored }

/-- One round of the record loop. -/
def resumeRecord (libm : Libm) (state : AflState × List Chunk) (i : ℕ) :
    Except ResumeFault (AflState × List Chunk) := do
  let (record, rest) ← readRecord state.2
  let afl := restoreEntry state.1 i record
  let afl := { afl with
    totalBitmapSize := u64 (afl.totalBitmapSize + (afl.queueBuf i).bitmapSize)
    totalBitmapEntries := u64 (afl.totalBitmapEntries + 1) }
  let afl := updateBitmapScore libm afl i false
  .ok (countRestored afl i, rest)

/-- The block of `main` that reads `fastresume.bin`. -/
def fastResume (libm : Libm) (afl : AflState) (file : List Chunk) : Except ResumeFault AflState :=
  match file with
  | .map bits :: .map tmout :: .map crash :: .map var :: records => do
      let afl := { afl with
        virginBits := bits, virginTmout := tmout, virginCrash := crash, varBytes := var }
      let (afl, rest) ← (List.range afl.queuedItems).foldlM (resumeRecord libm) (afl, records)
      if rest.isEmpty then .ok { afl with reinitTable := true } else .error .trailingData
  | _ => .error .shortRead

/-! ## Test cases -/

/-- `alphasort`: names are compared byte by byte, since the locale is never set. -/
def alphasort (dir : List SavedFile) : List SavedFile :=
  dir.insertionSort fun a b => a.name ≤ b.name

/-- `read_testcases` passes over empty files and over `README.txt`. -/
def isTestcase (file : SavedFile) : Bool :=
  !file.data.isEmpty && !"README.txt".toList.isPrefixOf file.name.toList

/-- The files that become queue entries, in the order in which they do. -/
def testcasesOf (dir : List SavedFile) : List SavedFile := (alphasort dir).filter isTestcase

/-- `MAX_FILE`. -/
def maxFile : ℕ := 1024 * 1024

/-- `read_testcases`. The old seed selection can shuffle the files, which is not modelled.
`detDone` tells for which names deterministic fuzzing is complete. -/
def readTestcases (detDone : String → Bool) (afl : AflState) (dir : List SavedFile) :
    Except ResumeFault AflState :=
  let afl := (testcasesOf dir).foldl
    (fun afl file => addToQueue afl (min file.data.length maxFile) (detDone file.name)) afl
  if afl.queuedItems = 0 then .error .noTestCases else .ok afl

/-! ## Names -/

/-- `sscanf(text, "%06u", &n)`: white space, a sign, and digits, where the sign and the digits
have at most 6 characters. -/
def scanU6 (text : List Char) : Option ℕ :=
  let text := text.dropWhile Char.isWhitespace
  let (negative, digits) :=
    match text with
    | '-' :: rest => (true, (rest.take 5).takeWhile Char.isDigit)
    | '+' :: rest => (false, (rest.take 5).takeWhile Char.isDigit)
    | _ => (false, (text.take 6).takeWhile Char.isDigit)
  if digits.isEmpty then none
  else
    let n := digits.foldl (fun n digit => 10 * n + (digit.toNat - '0'.toNat)) 0
    some (if negative then u32 (2 ^ 32 - n) else n)

/-- The name after `,orig:`, if there is one. -/
def origName (name : List Char) : List Char :=
  match (List.range name.length).find? fun i => ",orig:".toList.isPrefixOf (name.drop i) with
  | some i => name.drop (i + 6)
  | none => name

/-- `no_spaces(pos + 30)`, where `pos` is the slash before the name. -/
def noSpaces (name : List Char) : List Char :=
  name.take 29 ++ (name.drop 29).map fun c => if c = ' ' then '_' else c

/-- What `pivot_inputs` is given besides the files. -/
structure PivotOptions where
  inPlaceResume : Bool := false
  aflSha1Filenames : Bool := false
  suffix : String := ""
  totalExecs : ℕ := 0

/-- The test case keeps its name. -/
def keepsName (opts : PivotOptions) (id : ℕ) (name : String) : Bool :=
  opts.inPlaceResume ||
    "id:".toList.isPrefixOf name.toList && scanU6 (name.toList.drop 3) = some id

/-- The name that `pivot_inputs` gives to entry `id`. -/
def pivotName (B : Build) (opts : PivotOptions) (id : ℕ) (file : SavedFile) : String :=
  if keepsName opts id file.name then file.name ++ opts.suffix
  else
    String.ofList <| noSpaces <| String.toList <|
      if opts.aflSha1Filenames then B.sha1Hex (file.data.take maxFile) ++ opts.suffix
      else "id:" ++ pad6 id ++ ",time:0,execs:" ++ toString opts.totalExecs ++ ",orig:" ++
        String.ofList (origName file.name.toList) ++ opts.suffix

/-- `pivot_inputs`: the names of the queue files, in the order of the queue. -/
def pivotInputs (B : Build) (opts : PivotOptions) (files : List SavedFile) : List String :=
  files.mapIdx fun id file => pivotName B opts id file

end GreenFuzz.AflFuzz
