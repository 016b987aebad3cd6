import GreenFuzz.AflFuzz.Score
import GreenFuzz.AflFuzz.TestcaseCache

/-!
# Trimming a testcase

`trim_case` and `trim_case_custom`, as far as they change the length of an entry and the
testcase cache. What the target does on each shortened case, what the custom trimmers
answer and what the post processors return are inputs of the call.

The built-in trimmer removes blocks from the case. A deletion that keeps the trace is made
permanent at once, so the length is shorter also when a later run ends the trimming early.
-/

set_option autoImplicit false

namespace GreenFuzz.AflFuzz

open Library

/-! ## What the target and the custom mutators do -/

/-- The run of the target after one deletion: it ends the trimming, or the trace is or is not
the trace of the entry. -/
inductive TrimVerdict where
  | aborts | keepsTrace | changesTrace
  deriving DecidableEq, Repr

/-- One round of `trim_case_custom`: the run ends the trimming, the answer is empty or has
another trace, or its trace is the trace of the entry and its length is `retlen`. -/
inductive CustomTrimStep where
  | aborts
  | fails
  | keepsTrace (retlen : ℕ)
  deriving DecidableEq, Repr

/-- A custom mutator. `trim` is the rounds its trimmer is called for, `none` if it has none.
`postProcess` is the answer of its post processor, `none` if it has none: a failure, or a size
together with whether the answer is in the buffer that `trim_case` was given. -/
structure CustomMutator where
  trim : Option (List CustomTrimStep) := none
  postProcess : Option (Option (ℕ × Bool)) := none

/-- A call of `trim_case`. `inPlace` says that `in_buf` is the cached buffer of the entry, and
`verdicts` are the runs of the built-in trimmer, in their order. -/
structure TrimCall where
  inPlace : Bool
  mutators : List CustomMutator := []
  aflPostProcessKeepOriginal : Bool := false
  minLength : ℕ := 1
  maxLength : ℕ := 1024 * 1024
  verdicts : List TrimVerdict := []
  minLength_lt : minLength < 2 ^ 32 := by decide
  maxLength_lt : maxLength < 2 ^ 32 := by decide

/-- The rounds of the mutators that have a trimmer. -/
def TrimCall.trimmers (call : TrimCall) : List (List CustomTrimStep) :=
  call.mutators.filterMap CustomMutator.trim

/-- The answers of the mutators that have a post processor. -/
def TrimCall.processed (call : TrimCall) : List (Option (ℕ × Bool)) :=
  call.mutators.filterMap CustomMutator.postProcess

/-! ## Custom trimming -/

/-- The loop of `trim_case_custom` and the length it leaves, where `out` is the length of
`out_buf`. -/
def trimCustomFrom (len : ℕ) (out : Option ℕ) : List CustomTrimStep → ℕ
  | [] => out.getD len
  | .aborts :: _ => len
  | .fails :: steps => trimCustomFrom len out steps
  | .keepsTrace retlen :: steps => trimCustomFrom len (some (u32 retlen)) steps

/-- `trim_case_custom`. -/
def trimCaseCustom (len : ℕ) (steps : List CustomTrimStep) : ℕ := trimCustomFrom len none steps

/-! ## Built-in trimming -/

/-- The smallest block that is removed. -/
def trimBound (lenP2 : ℕ) : ℕ := max (lenP2 / 1024) 4

/-- The first pass, from blocks of `removeLen` bytes on, that has a block to remove. A pass
starts at the end of the first block. -/
def enterPass (len lenP2 removeLen : ℕ) : Option (ℕ × ℕ) :=
  let removeLen := whileLoop (fun r => trimBound lenP2 ≤ r ∧ len ≤ r) (fun r => r / 2) 32 removeLen
  if trimBound lenP2 ≤ removeLen ∧ removeLen < len then some (removeLen, removeLen) else none

/-- The next deletion: in this pass, or in a later one with smaller blocks. -/
def nextAttempt (len lenP2 removeLen removePos : ℕ) : Option (ℕ × ℕ) :=
  if removePos < len then some (removeLen, removePos) else enterPass len lenP2 (removeLen / 2)

/-- The local variables of `trim_case`. `attempt` is the size and the position of the next
deletion, `none` after the loops. -/
structure TrimState where
  len : ℕ
  lenP2 : ℕ
  attempt : Option (ℕ × ℕ)
  needsWrite : Bool := false
  aborted : Bool := false

/-- The variables before the loops. A case of less than five bytes is not trimmed. -/
def trimStart (len : ℕ) : TrimState :=
  let lenP2 := u32 (nextPow2 len)
  { len := len
    lenP2 := lenP2
    attempt := if len < 5 then none else enterPass len lenP2 (max (lenP2 / 16) 4) }

/-- One deletion. -/
def TrimState.try (st : TrimState) (removeLen removePos : ℕ) : TrimVerdict → TrimState
  | .aborts => { st with attempt := none, aborted := true }
  | .keepsTrace =>
      let len := st.len - min removeLen (st.len - removePos)
      let lenP2 := u32 (nextPow2 len)
      { st with
        len := len
        lenP2 := lenP2
        attempt := nextAttempt len lenP2 removeLen removePos
        needsWrite := true }
  | .changesTrace =>
      { st with attempt := nextAttempt st.len st.lenP2 removeLen (u32 (removePos + removeLen)) }

/-- The loops of `trim_case`. Verdicts that are too few or too many belong to no call. -/
def trimLoop (st : TrimState) : List TrimVerdict → Except CacheFault TrimState
  | [] =>
      match st.attempt with
      | none => .ok st
      | some _ => .error .undecided
  | verdict :: verdicts =>
      match st.attempt with
      | none => .error .undecided
      | some (removeLen, removePos) => trimLoop (st.try removeLen removePos verdict) verdicts

/-- The size and the buffer after one post processor. -/
def postProcessed (result : ℕ × Bool) : Option (ℕ × Bool) → ℕ × Bool
  | none => (0, result.2)
  | some answer => answer

/-- The limits on the size of a post processed case. -/
def TrimCall.limited (call : TrimCall) (size : ℕ) : ℕ :=
  if size < call.minLength then call.minLength
  else if call.maxLength < size then call.maxLength
  else size

/-- The post processing of a trimmed case: its size, and whether it is still in `in_buf`. -/
def TrimCall.postProcess (call : TrimCall) (len : ℕ) : ℕ × Bool :=
  let result := call.processed.foldl postProcessed (len, true)
  let result := if result.1 = 0 then (len, true) else result
  (call.limited result.1, result.2)

/-! ## The whole call -/

namespace TestcaseCache

/-- `q->len = len`. -/
def setLen (s : TestcaseCache) (q len : ℕ) : TestcaseCache :=
  { s with entries := s.changed q fun e => { e with len := len } }

end TestcaseCache

/-- The end of `trim_case` after the loops of the built-in trimmer. -/
def finishTrim (s : TestcaseCache) (q : ℕ) (call : TrimCall) (st : TrimState) : TestcaseCache :=
  let origLen := (s.entries q).len
  if st.needsWrite && !st.aborted then
    let (len, same) :=
      if call.mutators ≠ [] ∧ !call.aflPostProcessKeepOriginal then call.postProcess st.len
      else (st.len, true)
    queueTestcaseRetakeMem (s.setLen q len) q len origLen (call.inPlace && same)
  else s.setLen q st.len

/-- `trim_case`. -/
def trimCase (s : TestcaseCache) (q : ℕ) (call : TrimCall) : Except CacheFault TestcaseCache :=
  let origLen := (s.entries q).len
  if call.trimmers ≠ [] then
    .ok (queueTestcaseRetake (s.setLen q (call.trimmers.foldl trimCaseCustom origLen)) q origLen)
  else do
    let st ← trimLoop (trimStart origLen) call.verdicts
    .ok (finishTrim s q call st)

/-! ## The length that a call leaves -/

/-- The lengths that the rounds of a custom trimmer leave in `out_buf`, in their order. Nothing
is written when a run ends the trimming. -/
def CustomTrimStep.written (steps : List CustomTrimStep) : List ℕ :=
  if .aborts ∈ steps then []
  else steps.filterMap fun
    | .keepsTrace retlen => some (u32 retlen)
    | _ => none

theorem trimCustomFrom_eq (len : ℕ) (out : Option ℕ) (steps : List CustomTrimStep) :
    trimCustomFrom len out steps =
      if .aborts ∈ steps then len
      else ((CustomTrimStep.written steps).getLast?.or out).getD len := by
  induction steps generalizing out with
  | nil => rfl
  | cons step steps ih =>
      cases step with
      | aborts => simp [trimCustomFrom]
      | fails =>
          rw [trimCustomFrom, ih]
          simp [CustomTrimStep.written]
      | keepsTrace retlen =>
          rw [trimCustomFrom, ih]
          by_cases aborts : CustomTrimStep.aborts ∈ steps
          · simp [aborts]
          · simp [CustomTrimStep.written, aborts, List.getLast?_cons]

theorem trimCaseCustom_eq (len : ℕ) (steps : List CustomTrimStep) :
    trimCaseCustom len steps = (CustomTrimStep.written steps).getLast?.getD len := by
  rw [trimCaseCustom, trimCustomFrom_eq]
  split
  · rename_i aborts
    rw [CustomTrimStep.written, if_pos aborts]
    rfl
  · rw [Option.or_none]

/-- The custom trimmers leave the last length that one of them wrote. -/
theorem foldl_trimCaseCustom (len : ℕ) (trimmers : List (List CustomTrimStep)) :
    trimmers.foldl trimCaseCustom len =
      (trimmers.flatMap CustomTrimStep.written).getLast?.getD len := by
  induction trimmers generalizing len with
  | nil => rfl
  | cons steps trimmers ih =>
      rw [List.foldl_cons, ih, trimCaseCustom_eq, List.flatMap_cons, List.getLast?_append]
      cases (trimmers.flatMap CustomTrimStep.written).getLast? <;> rfl

theorem lt_of_mem_written {steps : List CustomTrimStep} {n : ℕ}
    (member : n ∈ CustomTrimStep.written steps) : n < 2 ^ 32 := by
  unfold CustomTrimStep.written at member
  split at member
  · cases member
  · obtain ⟨step, -, same⟩ := List.mem_filterMap.mp member
    cases step with
    | aborts => cases same
    | fails => cases same
    | keepsTrace retlen =>
        cases same
        exact Nat.mod_lt _ (by decide)

/-- A deletion removes at least one byte. -/
def TrimState.Ready (st : TrimState) : Prop :=
  ∀ removeLen removePos, st.attempt = some (removeLen, removePos) →
    0 < removeLen ∧ removePos < st.len

theorem enterPass_ready {len lenP2 removeLen blockLen blockPos : ℕ}
    (entered : enterPass len lenP2 removeLen = some (blockLen, blockPos)) :
    0 < blockLen ∧ blockPos < len := by
  unfold enterPass trimBound at entered
  dsimp only at entered
  split at entered
  · cases entered
    omega
  · cases entered

theorem nextAttempt_ready {len lenP2 removeLen removePos blockLen blockPos : ℕ}
    (positive : 0 < removeLen)
    (next : nextAttempt len lenP2 removeLen removePos = some (blockLen, blockPos)) :
    0 < blockLen ∧ blockPos < len := by
  unfold nextAttempt at next
  split at next
  · rename_i inside
    cases next
    exact ⟨positive, inside⟩
  · exact enterPass_ready next

theorem trimStart_ready (len : ℕ) : (trimStart len).Ready := by
  intro removeLen removePos next
  unfold trimStart at next
  dsimp only at next
  split at next
  · cases next
  · exact enterPass_ready next

/-- What the loops leave: the flags say which verdicts there were, and a deletion that was made
permanent has shortened the case. -/
theorem trimLoop_spec {st done : TrimState} {verdicts : List TrimVerdict} (ready : st.Ready)
    (result : trimLoop st verdicts = .ok done) :
    (done.needsWrite = true ↔ st.needsWrite = true ∨ .keepsTrace ∈ verdicts) ∧
    (done.aborted = true ↔ st.aborted = true ∨ .aborts ∈ verdicts) ∧
    done.len ≤ st.len ∧
    (.keepsTrace ∈ verdicts → done.len < st.len) ∧
    (.keepsTrace ∉ verdicts → done.len = st.len) := by
  induction verdicts generalizing st with
  | nil =>
      rw [trimLoop] at result
      split at result
      · cases result
        simp
      · cases result
  | cons verdict verdicts ih =>
      rw [trimLoop] at result
      split at result
      · cases result
      · rename_i removeLen removePos next
        obtain ⟨positive, inside⟩ := ready _ _ next
        cases verdict with
        | aborts =>
            obtain ⟨writes, aborts, le, shorter, same⟩ := ih (by nofun) result
            simp only [TrimState.try] at writes aborts le shorter same
            simp_all
        | keepsTrace =>
            obtain ⟨writes, aborts, le, -, -⟩ :=
              ih (fun _ _ => nextAttempt_ready positive) result
            simp only [TrimState.try] at writes aborts le
            refine ⟨by simp [writes], by simp [aborts], by omega, fun _ => by omega, ?_⟩
            intro absent
            exact absurd List.mem_cons_self absent
        | changesTrace =>
            obtain ⟨writes, aborts, le, shorter, same⟩ :=
              ih (fun _ _ => nextAttempt_ready positive) result
            simp only [TrimState.try] at writes aborts le shorter same
            simp_all

/-- The answer of the last post processor, if it did not fail. -/
def TrimCall.answer (call : TrimCall) : Option (ℕ × Bool) :=
  call.processed.getLast?.join.filter fun answer => answer.1 ≠ 0

theorem TrimCall.postProcess_eq (call : TrimCall) (len : ℕ) :
    call.postProcess len =
      (call.limited (call.answer.getD (len, true)).1, (call.answer.getD (len, true)).2) := by
  unfold TrimCall.postProcess TrimCall.answer
  rcases List.eq_nil_or_concat call.processed with none_left | ⟨earlier, last, split_last⟩
  · simp [none_left]
  · cases last with
    | none => simp [split_last, postProcessed]
    | some answer =>
        by_cases failed : answer.1 = 0 <;>
          simp [split_last, postProcessed, failed, Option.filter_some]

theorem TrimCall.limited_lt (call : TrimCall) (size : ℕ) : call.limited size < 2 ^ 32 := by
  have := call.minLength_lt
  have := call.maxLength_lt
  unfold TrimCall.limited
  split
  · assumption
  · split <;> omega

end GreenFuzz.AflFuzz
