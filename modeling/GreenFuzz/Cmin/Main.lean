import GreenFuzz.Cmin.Worker
import Mathlib.Data.Finset.Basic
import Mathlib.Data.List.Lex

/-!
# The selection in `main` of `afl-cmin.py`

After the workers, `main` has the places of the traces, which came over the progress queue, and
the results of the workers, which came over the result queue. It merges the representatives by
energy and index, and selects files in two phases: the representatives of the tuples that were
counted once, and then, from the rarest tuple on, the representative of every tuple that is not
yet in the trace of a selected file.

A file index that is not in `files`, a file without a place, and a pack that ends too early raise
an exception. The messages of different workers arrive in any order, so the arrived messages and
the order of the results are arguments.
-/

set_option autoImplicit false

namespace GreenFuzz.Cmin

open Library

/-- The exceptions of the selection. -/
inductive Fault where
  | indexError | keyError | eofError
  deriving DecidableEq, Repr

/-! ## Merging -/

/-- The dictionary `trace_info`: worker, position and number of tuples for each used file. -/
def traceInfo (messages : List (Option Placed)) : List (ℕ × (ℕ × ℕ × ℕ)) :=
  messages.foldl (fun info message =>
    match message with
    | some p => assign info p.idx (p.worker, p.pos, p.tupleCount)
    | none => info) []

/-- `Counter.update` with another counter. -/
def addCounter (counter other : List (ℕ × ℕ)) : List (ℕ × ℕ) :=
  other.foldl (fun counter pair =>
    assign counter pair.1 (pair.2 + (counter.lookup pair.1).getD 0)) counter

/-- `Counter.most_common`: a stable sort by descending count. -/
def mostCommon (counter : List (ℕ × ℕ)) : List (ℕ × ℕ) :=
  counter.mergeSort fun a b => b.2 ≤ a.2

section Merge

variable (S : Setup) (states : ℕ → WorkerState) (t : ℕ)

/-- `cand < best_pair`. -/
def pairLess (a b : ℕ × ℕ) : Prop := a.1 < b.1 ∨ (a.1 = b.1 ∧ a.2 < b.2)

instance (a b : ℕ × ℕ) : Decidable (pairLess a b) := inferInstanceAs (Decidable (_ ∨ _))

/-- One round of the loop over the workers. -/
def considerWorker (best : ℕ × ℕ) (i : ℕ) : ℕ × ℕ :=
  let idx := (states i).m t
  let en := (states i).bestEnergy t
  if idx = S.maxFileIndex then best
  else
    let cand := if en ≠ infEn then (en, idx) else (infEn, idx)
    if pairLess cand best then cand else best

def bestPair : ℕ × ℕ :=
  (List.range S.workers).foldl (considerWorker S states t) (infEn, S.maxFileIndex)

/-- `best_idxes[t]`: by energy and index, and the smallest index if there is no energy. -/
def bestIdx : ℕ :=
  if (bestPair S states t).1 = infEn then
    ((List.range S.workers).map fun i => (states i).m t).min?.getD 0
  else (bestPair S states t).2

end Merge

/-! ## Selection -/

/-- The files passed to `save_file` so far, and the jobs of the workers that read the traces
back. -/
structure PhaseOne where
  saved : List ℕ := []
  jobs : ℕ → List (ℕ × ℕ) := fun _ => []

section Select

variable (S : Setup) (states : ℕ → WorkerState) (info : List (ℕ × (ℕ × ℕ × ℕ)))

/-- `files[idx]`. -/
def checkFile (idx : ℕ) : Except Fault Unit :=
  if idx < S.numFiles then .ok () else .error .indexError

/-- `trace_info[idx]`. -/
def place (idx : ℕ) : Except Fault (ℕ × ℕ × ℕ) :=
  match info.lookup idx with
  | some entry => .ok entry
  | none => .error .keyError

/-- `seek` and `fromfile` on the pack of a worker. -/
def readTrace (worker pos tupleCount : ℕ) : Except Fault (List ℕ) :=
  match readAt S.tupleItemsize (states worker).tracePack pos tupleCount with
  | some trace => .ok trace
  | none => .error .eofError

/-- One round of the first phase. -/
def selectOnce (s : PhaseOne) (pair : ℕ × ℕ) : Except Fault PhaseOne :=
  if pair.2 ≠ 1 then .ok s
  else
    let idx := bestIdx S states pair.1
    if idx ∈ s.saved then .ok s
    else do
      checkFile S idx
      let (worker, pos, tupleCount) ← place info idx
      return { saved := s.saved ++ [idx]
               jobs := Function.update s.jobs worker (s.jobs worker ++ [(pos, tupleCount)]) }

/-- `CombineTraceWorker.run`. -/
def combineTraces (worker : ℕ) (jobs : List (ℕ × ℕ)) : Except Fault (Finset ℕ) :=
  jobs.foldlM (fun have_ job => do
    let result ← readTrace S states worker job.1 job.2
    return have_ ∪ result.toFinset) ∅

/-- The tuples of the files that the first phase saved. The order of the workers does not
matter for a union. -/
def combineAll (jobs : ℕ → List (ℕ × ℕ)) : Except Fault (Finset ℕ) :=
  (List.range S.workers).foldlM (fun have_ worker => do
    let result ← combineTraces S states worker (jobs worker)
    return have_ ∪ result) ∅

/-- One round of the second phase. -/
def selectMissing (s : List ℕ × Finset ℕ) (pair : ℕ × ℕ) : Except Fault (List ℕ × Finset ℕ) :=
  let (saved, alreadyHave) := s
  if pair.1 ∈ alreadyHave then .ok (saved, alreadyHave)
  else do
    let idx := bestIdx S states pair.1
    checkFile S idx
    let (worker, pos, tupleCount) ← place info idx
    let result ← readTrace S states worker pos tupleCount
    return (saved ++ [idx], alreadyHave ∪ result.toFinset)

/-- The two phases. The result is the list of the files passed to `save_file`. -/
def selectFiles (allUnique : List (ℕ × ℕ)) : Except Fault (List ℕ) := do
  let once ← allUnique.foldlM (selectOnce S states info) {}
  let alreadyHave ← combineAll S states once.jobs
  let (saved, _) ← allUnique.reverse.foldlM (selectMissing S states info) (once.saved, alreadyHave)
  return saved

end Select

/-- The part of `main` from the progress messages on, for the batches that the workers got, the
messages in the order of their arrival, and the workers in the order in which their results
arrive. -/
def main (S : Setup) (read : ℕ → Reading S.maxTuple) (handed : ℕ → List (List ℕ))
    (messages : List (Option Placed)) (arrived : List ℕ) : Except Fault (List ℕ) :=
  let states := fun worker => runWorker S read worker (handed worker)
  let counter := arrived.foldl (fun counter worker => addCounter counter (states worker).counter) []
  selectFiles S states (traceInfo messages) (mostCommon counter)

end GreenFuzz.Cmin
