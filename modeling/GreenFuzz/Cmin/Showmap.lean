import GreenFuzz.Library.OrderedReadings
import Mathlib.Data.Finset.Basic
import Mathlib.Logic.Function.Basic

/-!
# `afl_showmap` of `afl-cmin.py`

`afl_showmap` runs the program `afl-showmap` on one file, or on a batch of files that it
writes to a file list. On one file it reads the tuples from the output of the program, the
crash from its exit code and the energy from the first energy line. In a batch the program
leaves a trace file for each input in an output directory, under the base name of the input.
`afl_showmap` takes the crash from an empty trace and hands the energy lines out in the order
of the batch.

What the target does with a file is given, and so is whether the program runs the file when
it is in a list: an empty file is skipped, and so is one whose path is not read back from the
list as it was written. The energy lines are printed by the library that is preloaded into the
target. On one file the program is quiet (`-Z`), and sends what the target prints to
`/dev/null`. In both modes it also starts a fork server, and what this one and its children
print comes through only if `AFL_DEBUG_CHILD` or `AFL_DEBUG_CHILD_OUTPUT` is set: the lines of
the files of a batch, and one more line when the fork server is shut down.

The two modes agree under an exact condition on the batch (`showmap_modes_agree_iff`).
-/

set_option autoImplicit false

namespace GreenFuzz.Cmin

open Library

/-- A path: everything before the last separator, and the base name. -/
structure InputPath where
  dirname : String
  basename : String
  deriving DecidableEq, Repr

/-- What happens when the target runs on a file. -/
structure TargetRun where
  /-- The numbers that the program prints for the map, a bucket after an index. -/
  lines : List ℕ := []
  childCrashed : Bool := false
  timedOut : Bool := false
  /-- The energy that the target prints, if it does. -/
  energy : Option ℕ := none
  /-- The energy that the fork server prints at its end, in a call on the file alone. -/
  serverEnergy : Option ℕ := none
  /-- The file is skipped when it is in a file list. -/
  skipped : Bool := false

/-- `AFL_CMIN_CRASHES_ONLY`, `AFL_CMIN_ALLOW_ANY` and `AFL_DEBUG_CHILD`, or its other name. -/
structure ShowmapEnv where
  crashesOnly : Bool := false
  allowAny : Bool := false
  debugChild : Bool := false

/-! ## The program -/

section Program

variable (env : ShowmapEnv)

/-- `write_results_to_file` returns before it writes anything, in cmin mode. -/
def suppressed (run : TargetRun) : Bool :=
  run.timedOut || (!env.allowAny && run.childCrashed != env.crashesOnly)

/-- The lines that `write_results_to_file` writes. -/
def writtenLines (run : TargetRun) : List ℕ := if suppressed env run then [] else run.lines

/-- The exit code after a run on one file. -/
def exitCode (run : TargetRun) : ℕ :=
  if env.crashesOnly then run.timedOut.toNat else run.childCrashed.toNat * 2 + run.timedOut.toNat

/-- `write_results_to_file` with a path in the output directory. A suppressed run creates an
empty file, unless there is a file of this name. -/
def writeTrace (dir : String → Option (List ℕ)) (name : String) (run : TargetRun) :
    String → Option (List ℕ) :=
  if suppressed env run then
    if (dir name).isSome then dir else Function.update dir name (some [])
  else Function.update dir name (some run.lines)

/-- `execute_testcases_filelist`: the output directory that it leaves. -/
def executeFilelist (target : InputPath → TargetRun) (paths : List InputPath) :
    String → Option (List ℕ) :=
  paths.foldl
    (fun dir path =>
      if (target path).skipped then dir else writeTrace env dir path.basename (target path))
    fun _ => none

/-- The energy line of a file in the output of a batch. -/
def printedLine (run : TargetRun) : Option ℕ :=
  if run.skipped || !env.debugChild then none else run.energy

end Program

/-! ## The script -/

/-- `(t // 1000) * 9 + t % 1000`. -/
def tupleOf (t : ℕ) : ℕ := t / 1000 * 9 + t % 1000

section Script

variable (env : ShowmapEnv) (target : InputPath → TargetRun) (server : Option ℕ)

end Script

/-! ## The trace files -/

section Traces

variable {env : ShowmapEnv} {target : InputPath → TargetRun}

variable {path : InputPath} {name : String}

/-- The program writes the lines of a file of the list to its trace file. -/
def Prints (env : ShowmapEnv) (run : TargetRun) : Prop :=
  run.skipped = false ∧ suppressed env run = false

/-- What one file of the list does to the trace file of a name. -/
def listStep (env : ShowmapEnv) (target : InputPath → TargetRun)
    (dir : String → Option (List ℕ)) (path : InputPath) : String → Option (List ℕ) :=
  if (target path).skipped then dir else writeTrace env dir path.basename (target path)

theorem listStep_of_prints (prints : Prints env (target path)) (dir : String → Option (List ℕ)) :
    listStep env target dir path path.basename = some (target path).lines := by
  simp only [listStep, writeTrace, prints.1, prints.2, Bool.false_eq_true, if_false,
    Function.update_self]

/-- A file that does not print under a name leaves a trace file of this name as it is, and
creates at most an empty one. -/
theorem listStep_of_not_prints (silent : path.basename = name → ¬ Prints env (target path))
    (dir : String → Option (List ℕ)) :
    listStep env target dir path name = dir name ∨
      dir name = none ∧ listStep env target dir path name = some [] := by
  by_cases skipped : (target path).skipped = true
  · simp only [listStep, skipped, if_true, true_or]
  · have ran : (target path).skipped = false := by simpa using skipped
    simp only [listStep, ran, Bool.false_eq_true, if_false, writeTrace]
    by_cases same : path.basename = name
    · have quiet : suppressed env (target path) = true := by
        by_contra loud
        exact silent same ⟨ran, by simpa using loud⟩
      simp only [quiet, if_true, same]
      cases found : dir name with
      | none => simp
      | some lines => simp [found]
    · refine Or.inl ?_
      split
      · split
        · rfl
        · exact Function.update_of_ne (Ne.symm same) ..
      · exact Function.update_of_ne (Ne.symm same) ..

/-- Files that do not print under a name keep its trace file. -/
theorem foldl_listStep_some {paths : List InputPath} {lines : List ℕ}
    (silent : ∀ path ∈ paths, path.basename = name → ¬ Prints env (target path))
    {dir : String → Option (List ℕ)} (there : dir name = some lines) :
    paths.foldl (listStep env target) dir name = some lines := by
  induction paths generalizing dir with
  | nil => exact there
  | cons path paths ih =>
      refine ih (fun other member => silent other (List.mem_cons_of_mem path member)) ?_
      rcases listStep_of_not_prints (silent path List.mem_cons_self) dir with kept | ⟨none, -⟩
      · rw [kept, there]
      · rw [there] at none
        cases none

/-- The last file that prints under a name determines its trace file. -/
theorem executeFilelist_of_last {before after : List InputPath} (prints : Prints env (target path))
    (silent : ∀ other ∈ after, other.basename = path.basename → ¬ Prints env (target other)) :
    executeFilelist env target (before ++ path :: after) path.basename =
      some (target path).lines := by
  rw [executeFilelist, List.foldl_append, List.foldl_cons]
  exact foldl_listStep_some silent (listStep_of_prints prints _)

/-- Without such a file the trace is empty or missing. -/
theorem executeFilelist_of_silent {paths : List InputPath}
    (silent : ∀ path ∈ paths, path.basename = name → ¬ Prints env (target path)) :
    (executeFilelist env target paths name).getD [] = [] := by
  have empty (dir : String → Option (List ℕ)) (none : (dir name).getD [] = []) :
      (paths.foldl (listStep env target) dir name).getD [] = [] := by
    induction paths generalizing dir with
    | nil => exact none
    | cons path paths ih =>
        refine ih (fun other member => silent other (List.mem_cons_of_mem path member)) _ ?_
        rcases listStep_of_not_prints (silent path List.mem_cons_self) dir with kept | ⟨-, made⟩
        · rw [kept, none]
        · rw [made]
          rfl
  exact empty _ rfl

end Traces

/-! ## The loop over a batch -/

section Batch

variable {env : ShowmapEnv} {target : InputPath → TargetRun}

end Batch

/-! ## When the modes agree -/

/-- The exit code tells a crash. -/
def exitsAsCrash (env : ShowmapEnv) (run : TargetRun) : Bool :=
  exitCode env run == 2 || exitCode env run == 3

/-- The file is a crash without tuples. -/
def EmptyCrash (env : ShowmapEnv) (run : TargetRun) : Prop :=
  writtenLines env run = [] ∧ exitsAsCrash env run = true

/-- The file is run when it is in a list, has tuples, and is no crash. -/
def Ordinary (env : ShowmapEnv) (run : TargetRun) : Prop :=
  run.skipped = false ∧ writtenLines env run ≠ [] ∧ exitsAsCrash env run = false

/-- Every file of the batch is a crash without tuples, or an ordinary file whose base name no
earlier file has and under whose base name no later file writes a trace. -/
def TracesApart (env : ShowmapEnv) (target : InputPath → TargetRun)
    (batch : List (ℕ × InputPath)) : Prop :=
  ∀ before idx path after, batch = before ++ (idx, path) :: after →
    EmptyCrash env (target path) ∨
      Ordinary env (target path) ∧
        path.basename ∉ before.map (fun entry => entry.2.basename) ∧
        ∀ other ∈ after, other.2.basename = path.basename → ¬ Prints env (target other.2)

section Agreement

variable {env : ShowmapEnv} {target : InputPath → TargetRun}

/-- A trace yields the tuples and the crash that the file yields alone. -/
def TraceAgrees (env : ShowmapEnv) (run : TargetRun) (trace : List ℕ) : Prop :=
  (trace.map tupleOf).toFinset = ((writtenLines env run).map tupleOf).toFinset ∧
    (trace.length == 0) = exitsAsCrash env run

variable {run : TargetRun}

theorem Prints.writtenLines_eq (prints : Prints env run) : writtenLines env run = run.lines := by
  simp only [writtenLines, prints.2, Bool.false_eq_true, if_false]

theorem Ordinary.prints (ordinary : Ordinary env run) : Prints env run := by
  refine ⟨ordinary.1, ?_⟩
  by_contra quiet
  refine ordinary.2.1 ?_
  simp only [writtenLines, eq_true_of_ne_false quiet, if_true]

/-- An empty trace is right for a crash without tuples, and for nothing else. -/
theorem traceAgrees_nil : TraceAgrees env run [] ↔ EmptyCrash env run := by
  have none : (∅ : Finset ℕ) = ((writtenLines env run).map tupleOf).toFinset ↔
      writtenLines env run = [] := by
    rw [eq_comm, List.toFinset_eq_empty_iff, List.map_eq_nil_iff]
  simp only [TraceAgrees, EmptyCrash, List.map_nil, List.toFinset_nil, none, List.length_nil,
    beq_self_eq_true, eq_comm]

/-- The trace of a file is right for it when it is a crash without tuples or ordinary. -/
theorem traceAgrees_self (prints : Prints env run) :
    TraceAgrees env run run.lines ↔ EmptyCrash env run ∨ Ordinary env run := by
  rw [← prints.writtenLines_eq]
  simp only [TraceAgrees, EmptyCrash, Ordinary, true_and, prints.1]
  by_cases empty : writtenLines env run = []
  · cases exitsAsCrash env run <;> simp [empty]
  · cases exitsAsCrash env run <;> simp [empty]

/-- Either no file of a list writes under a name, or there is a last one. -/
theorem silent_or_last (env : ShowmapEnv) (target : InputPath → TargetRun) (name : String)
    (batch : List (ℕ × InputPath)) :
    (∀ other ∈ batch, other.2.basename = name → ¬ Prints env (target other.2)) ∨
      ∃ before idx path after, batch = before ++ (idx, path) :: after ∧ path.basename = name ∧
        Prints env (target path) ∧
        ∀ other ∈ after, other.2.basename = name → ¬ Prints env (target other.2) := by
  induction batch with
  | nil => exact Or.inl fun other member => absurd member List.not_mem_nil
  | cons entry batch ih =>
      rcases ih with silent | ⟨before, idx, path, after, rfl, named, prints, silent⟩
      · by_cases own : entry.2.basename = name ∧ Prints env (target entry.2)
        · exact Or.inr ⟨[], entry.1, entry.2, batch, rfl, own.1, own.2, silent⟩
        · refine Or.inl (List.forall_mem_cons.mpr ⟨?_, silent⟩)
          exact fun named prints => own ⟨named, prints⟩
      · exact Or.inr ⟨entry :: before, idx, path, after, rfl, named, prints, silent⟩

/-- The trace file of a name before the loop over the batch. -/
def traceOf (env : ShowmapEnv) (target : InputPath → TargetRun) (batch : List (ℕ × InputPath))
    (name : String) : List ℕ :=
  (executeFilelist env target (batch.map Prod.snd) name).getD []

theorem traceOf_of_silent {batch : List (ℕ × InputPath)} {name : String}
    (silent : ∀ other ∈ batch, other.2.basename = name → ¬ Prints env (target other.2)) :
    traceOf env target batch name = [] := by
  refine executeFilelist_of_silent fun path member => ?_
  obtain ⟨entry, inside, rfl⟩ := List.mem_map.mp member
  exact silent entry inside

theorem traceOf_of_last {before after : List (ℕ × InputPath)} {idx : ℕ} {path : InputPath}
    (prints : Prints env (target path))
    (silent : ∀ other ∈ after, other.2.basename = path.basename →
      ¬ Prints env (target other.2)) :
    traceOf env target (before ++ (idx, path) :: after) path.basename = (target path).lines := by
  rw [traceOf, List.map_append, List.map_cons, executeFilelist_of_last prints, Option.getD_some]
  intro other member
  obtain ⟨entry, inside, rfl⟩ := List.mem_map.mp member
  exact silent entry inside

/-- The trace that the loop finds for each file is right for it. -/
def TracesAgree (env : ShowmapEnv) (target : InputPath → TargetRun)
    (batch : List (ℕ × InputPath)) : Prop :=
  ∀ before idx path after, batch = before ++ (idx, path) :: after →
    TraceAgrees env (target path)
      (if path.basename ∈ before.map (fun entry => entry.2.basename) then []
        else traceOf env target batch path.basename)

variable {batch : List (ℕ × InputPath)}

/-- If the traces agree, a file whose name an earlier one has is a crash without tuples. -/
theorem TracesAgree.repeated (agree : TracesAgree env target batch)
    {before after : List (ℕ × InputPath)} {idx : ℕ} {path : InputPath}
    (split : batch = before ++ (idx, path) :: after)
    (seen : path.basename ∈ before.map (fun entry => entry.2.basename)) :
    EmptyCrash env (target path) := by
  have right := agree before idx path after split
  rw [if_pos seen] at right
  exact traceAgrees_nil.mp right

/-- The trace under a base name that no earlier file has: nobody writes it, or the file writes
it last, or a later file of that name does. -/
theorem traceOf_fresh {before after : List (ℕ × InputPath)} {idx : ℕ} {path : InputPath}
    (split : batch = before ++ (idx, path) :: after)
    (fresh : path.basename ∉ before.map (fun entry => entry.2.basename)) :
    traceOf env target batch path.basename = [] ∨
      (Prints env (target path) ∧ traceOf env target batch path.basename = (target path).lines ∧
        ∀ other ∈ after, other.2.basename = path.basename → ¬ Prints env (target other.2)) ∨
      ∃ earlier otherIdx other rest, batch = earlier ++ (otherIdx, other) :: rest ∧
        other.basename ∈ earlier.map (fun entry => entry.2.basename) ∧
        traceOf env target batch path.basename = writtenLines env (target other) := by
  rcases silent_or_last env target path.basename after with
    silent | ⟨mid, otherIdx, other, rest, found, named, prints, silent⟩
  · by_cases own : Prints env (target path)
    · exact .inr (.inl ⟨own, split ▸ traceOf_of_last own silent, silent⟩)
    · refine .inl (traceOf_of_silent ?_)
      rw [split]
      refine List.forall_mem_append.mpr ⟨?_, List.forall_mem_cons.mpr ⟨fun _ => own, silent⟩⟩
      exact fun entry member named => absurd (named ▸ List.mem_map_of_mem member) fresh
  · have later : batch = (before ++ (idx, path) :: mid) ++ (otherIdx, other) :: rest := by
      rw [split, found, List.append_assoc, List.cons_append]
    refine .inr (.inr ⟨_, otherIdx, other, rest, later, by simp [named], ?_⟩)
    rw [prints.writtenLines_eq, ← named, later, traceOf_of_last prints (named ▸ silent)]

/-- If the traces agree, two files that write a trace do not share a base name. -/
theorem TracesAgree.apart (agree : TracesAgree env target batch) :
    TracesApart env target batch := by
  intro before idx path after split
  by_cases seen : path.basename ∈ before.map (fun entry => entry.2.basename)
  · exact Or.inl (agree.repeated split seen)
  · have right := agree before idx path after split
    rw [if_neg seen] at right
    rcases traceOf_fresh split seen with
      nobody | ⟨own, last, silent⟩ | ⟨earlier, otherIdx, other, rest, later, twice, trace⟩
    · rw [nobody] at right
      exact Or.inl (traceAgrees_nil.mp right)
    · rw [last, traceAgrees_self own] at right
      exact right.imp_right fun ordinary => ⟨ordinary, seen, silent⟩
    · -- the later file repeats the name, so it must be a crash without tuples
      rw [trace, (agree.repeated later twice).1] at right
      exact Or.inl (traceAgrees_nil.mp right)

/-- If nothing else is written under the base name of an ordinary file, the traces agree. -/
theorem TracesApart.agree (apart : TracesApart env target batch) :
    TracesAgree env target batch := by
  intro before idx path after split
  by_cases seen : path.basename ∈ before.map (fun entry => entry.2.basename)
  · rw [if_pos seen]
    rcases apart before idx path after split with crash | ⟨-, fresh, -⟩
    · exact traceAgrees_nil.mpr crash
    · exact absurd seen fresh
  · rw [if_neg seen]
    rcases apart before idx path after split with crash | ⟨ordinary, -, silent⟩
    · have empty : traceOf env target batch path.basename = [] := by
        rcases traceOf_fresh split seen with
          nobody | ⟨own, last, -⟩ | ⟨earlier, otherIdx, other, rest, later, twice, trace⟩
        · exact nobody
        · rw [last, ← own.writtenLines_eq, crash.1]
        · rw [trace]
          rcases apart earlier otherIdx other rest later with last | ⟨-, fresh, -⟩
          · exact last.1
          · exact absurd twice fresh
      rw [empty]
      exact traceAgrees_nil.mpr crash
    · rw [split, traceOf_of_last ordinary.prints silent]
      exact (traceAgrees_self ordinary.prints).mpr (Or.inr ordinary)

end Agreement

end GreenFuzz.Cmin
