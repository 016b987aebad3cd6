import GreenFuzz.Library.Dict
import GreenFuzz.Library.Packing

/-!
# The workers of `afl-cmin.py`

`Worker.run`: a worker gets batches of file indices, runs `afl_showmap` on them, and keeps for
each tuple the file that represents it. A file that represents a tuple when it is processed is
used: its trace is appended to the pack of the worker, and the place of the trace is sent to the
main process.

What `afl_showmap` returns for a file is a `Reading`. An array is a function from indices, and
its length is `maxTuple`. The file index of a path is its place in the sorted list of files.
-/

set_option autoImplicit false

namespace GreenFuzz.Cmin

open Library

/-! ## Type codes -/

/-- The type codes of `array` that the tool chooses from. -/
inductive TypeCode where
  | B | H | I | L | Q
  deriving DecidableEq, Repr

/-- The size of an item in bytes. -/
def TypeCode.itemsize : TypeCode → ℕ
  | .B => 1
  | .H => 2
  | .I => 4
  | .L => 8
  | .Q => 8

/-- `detect_type_code`. -/
def detectTypeCode (size : ℕ) : Option TypeCode :=
  [TypeCode.B, .H, .I, .L, .Q].find? fun code => size < 256 ^ code.itemsize

/-- The size of the items of an array with the detected code. -/
def detectItemsize (size : ℕ) : ℕ := (detectTypeCode size).elim 0 TypeCode.itemsize

theorem lt_pow_detectItemsize {size : ℕ} (fits : size < 2 ^ 64) :
    size < 256 ^ detectItemsize size := by
  have last : detectTypeCode size ≠ none := by
    intro none
    have failed := List.find?_eq_none.mp none .Q (by decide)
    exact failed (decide_eq_true (by simpa [TypeCode.itemsize] using fits))
  obtain ⟨code, found⟩ := Option.ne_none_iff_exists'.mp last
  have passed := List.find?_some found
  rw [detectItemsize, found]
  simpa using passed

/-! ## Settings and readings -/

/-- The settings of a run. No list is longer than `sys.maxsize`, and the arrays of a worker have
`maxTuple` items. -/
structure Setup where
  numFiles : ℕ
  workers : ℕ
  aflMapSize : Option ℕ := none
  noBatch : Bool := false
  energyFirst : Bool := true
  crashDir : Bool := false
  workers_pos : 0 < workers := by decide
  numFiles_lt : numFiles < 2 ^ 63 := by decide
  aflMapSize_lt : aflMapSize.getD 0 * 9 < 2 ^ 63 := by decide

namespace Setup

variable (S : Setup)

/-- `self.afl_map_size or 65536`. -/
def mapSize : ℕ := if S.aflMapSize.getD 0 = 0 then 65536 else S.aflMapSize.getD 0

def maxTuple : ℕ := S.mapSize * 9

/-- The item size of the tuple arrays: that of `I`, if there is no map size. -/
def tupleItemsize : ℕ :=
  if S.aflMapSize.getD 0 = 0 then TypeCode.I.itemsize else detectItemsize (S.aflMapSize.getD 0 * 9)

/-- The largest value of the file index arrays, which means that there is no file. -/
def maxFileIndex : ℕ := 256 ^ detectItemsize S.numFiles - 1

theorem numFiles_le_maxFileIndex : S.numFiles ≤ S.maxFileIndex := by
  have bound := S.numFiles_lt
  have fits : S.numFiles < 256 ^ detectItemsize S.numFiles := lt_pow_detectItemsize (by omega)
  unfold maxFileIndex
  omega

theorem maxTuple_lt : S.maxTuple < 256 ^ S.tupleItemsize := by
  have bound := S.aflMapSize_lt
  unfold maxTuple mapSize tupleItemsize
  split
  · decide
  · exact lt_pow_detectItemsize (by omega)

end Setup

/-- The largest `u64`, which stands for a missing energy. -/
def infEn : ℕ := 2 ^ 64 - 1

/-- What `afl_showmap` returns for a file: its tuples, whether it crashed, and its energy, which
is 0 if there is no reading. The energy is printed from a `uint64_t`. -/
structure Reading (maxTuple : ℕ) where
  trace : List ℕ
  crash : Bool := false
  energy : ℕ := 0
  trace_lt : ∀ t ∈ trace, t < maxTuple := by decide
  energy_le : energy ≤ infEn := by decide

/-! ## One worker -/

/-- The representatives of the tuples, the energies they were chosen by, and whether the current
file is used. -/
structure Choice where
  m : ℕ → ℕ
  bestEnergy : ℕ → ℕ
  used : Bool

/-- One round of the loop `for t in r`. -/
def considerTuple (energyFirst : Bool) (idx energy : ℕ) (c : Choice) (t : ℕ) : Choice :=
  if energyFirst ∧ 0 < energy then
    if energy < c.bestEnergy t ∨ (energy = c.bestEnergy t ∧ idx < c.m t) then
      { m := Function.update c.m t idx
        bestEnergy := Function.update c.bestEnergy t energy
        used := true }
    else c
  else if idx < c.m t then { c with m := Function.update c.m t idx, used := true }
  else c

/-- The place of a trace: its file, the worker that packed it, the position and the number of
tuples. -/
structure Placed where
  idx : ℕ
  worker : ℕ
  pos : ℕ
  tupleCount : ℕ
  deriving DecidableEq, Repr

/-- `Counter.update` with tuples. -/
def countTuples (counter : List (ℕ × ℕ)) (trace : List ℕ) : List (ℕ × ℕ) :=
  trace.foldl (fun counter t => assign counter t ((counter.lookup t).getD 0 + 1)) counter

/-- The local variables of `Worker.run`, the pack, and the progress messages sent so far. -/
structure WorkerState where
  m : ℕ → ℕ
  bestEnergy : ℕ → ℕ
  counter : List (ℕ × ℕ) := []
  crashes : List ℕ := []
  energies : List (ℕ × ℕ) := []
  tracePack : List Byte := []
  packPos : ℕ := 0
  progress : List (Option Placed) := []

/-- The worker before the first batch. -/
def WorkerState.start (S : Setup) : WorkerState where
  m := fun _ => S.maxFileIndex
  bestEnergy := fun _ => infEn

section Worker

variable (S : Setup) (read : ℕ → Reading S.maxTuple) (worker : ℕ)

/-- The loop over the tuples of a file, unless it is a crash that goes to another directory. -/
def chooseFile (s : WorkerState) (idx : ℕ) : Choice :=
  if !(read idx).crash ∨ !S.crashDir then
    (read idx).trace.foldl (considerTuple S.energyFirst idx (read idx).energy)
      ⟨s.m, s.bestEnergy, false⟩
  else ⟨s.m, s.bestEnergy, false⟩

/-- One file of a batch. -/
def processFile (s : WorkerState) (idx : ℕ) : WorkerState :=
  let r := read idx
  let choice := chooseFile S read s idx
  let s :=
    { s with
      counter := countTuples s.counter r.trace
      crashes := if r.crash then s.crashes ++ [idx] else s.crashes
      energies := assign s.energies idx r.energy
      m := choice.m
      bestEnergy := choice.bestEnergy }
  if choice.used then
    { s with
      tracePack := s.tracePack ++ packItems S.tupleItemsize r.trace
      progress := s.progress ++ [some ⟨idx, worker, s.packPos, r.trace.length⟩]
      packPos := s.packPos + r.trace.length * S.tupleItemsize }
  else { s with progress := s.progress ++ [none] }

/-- `Worker.run`, for the batches that the worker gets. -/
def runWorker (batches : List (List ℕ)) : WorkerState :=
  batches.foldl (fun s batch => batch.foldl (processFile S read worker) s) (.start S)

theorem runWorker_eq_foldl (batches : List (List ℕ)) :
    runWorker S read worker batches =
      batches.flatten.foldl (processFile S read worker) (.start S) := by
  rw [runWorker, List.foldl_flatten]

end Worker

end GreenFuzz.Cmin
