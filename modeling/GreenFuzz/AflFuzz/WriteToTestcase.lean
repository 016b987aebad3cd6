import GreenFuzz.Library.ByteWords
import Mathlib.Logic.Function.Basic

/-!
# The caller's buffer in `write_to_testcase`

`write_to_testcase` runs the custom post-processors over the test case and hands
the result to the target. With `AFL_POST_PROCESS_KEEP_ORIGINAL` it should then undo
what it did: give the caller its buffer back, and exchange the buffers `out` and
`out_scratch` once more.

It copies the result to `out_scratch` and exchanges the two only if the result is
in another buffer, but it undoes the exchange in any case. Documented post-processors
change the test case in place and return it, so the result is in the same buffer,
and the original is lost as well. A caller may pass `out_scratch` itself (the tries of
ASCII numbers in `cmp_extend_encoding` do): then the result is copied over the original, or
`afl_realloc` frees it. Without custom mutators nothing is kept: the length is cut to the
limits. **The caller's buffer, its length and the roles of the
two buffers survive exactly under the condition `Survives`**
(`keeps_original_iff`).
-/

set_option autoImplicit false

namespace GreenFuzz.AflFuzz

open Library

/-! ## The function -/

/-- An address of a block of memory. -/
abbrev Ptr := ℕ

/-- The contents of the blocks that are allocated. -/
abbrev Heap := Ptr → Option (List Byte)

/-- `afl_custom_post_process`: from the memory, the data, its size and the old value of
`new_buf`, the memory, the new size and the new value of `new_buf`. -/
abbrev PostProcess := Heap → Ptr → ℤ → Option Ptr → Heap × ℤ × Option Ptr

/-- The custom mutators, with their post-processors, and the options. -/
structure TestcaseSetup where
  customMutators : List (Option PostProcess)
  keepOriginal : Bool
  minLength : ℕ := 1
  maxLength : ℕ := 1048576
  /-- Where `afl_realloc` puts a buffer that has to hold so many bytes. -/
  aflRealloc : Option Ptr → ℕ → Ptr

/-- The memory, and the two scratch buffers of the fuzzer. -/
structure TestcaseBufs where
  heap : Heap
  outBuf : Option Ptr
  outScratchBuf : Option Ptr

/-- `afl_swap_bufs(AFL_BUF_PARAM(out), AFL_BUF_PARAM(out_scratch))`. -/
def TestcaseBufs.swap (b : TestcaseBufs) : TestcaseBufs :=
  { b with outBuf := b.outScratchBuf, outScratchBuf := b.outBuf }

/-- The variables of the loop over the post-processors. -/
structure PostProcessed where
  heap : Heap
  newSize : ℤ
  newMem : Ptr
  newBuf : Option Ptr

/-- One post-processor. -/
def postProcessOne (p : PostProcessed) (el : Option PostProcess) : PostProcessed :=
  match el with
  | none => p
  | some aflCustomPostProcess =>
      let (heap, newSize, newBuf) := aflCustomPostProcess p.heap p.newMem p.newSize p.newBuf
      match newBuf with
      | none => { p with heap := heap, newSize := 0, newBuf := some p.newMem }
      | some buf =>
          if newSize ≤ 0 then { p with heap := heap, newSize := 0, newBuf := some p.newMem }
          else { heap := heap, newSize := newSize, newMem := buf, newBuf := some buf }

/-- The loop over the post-processors. -/
def postProcessAll (T : TestcaseSetup) (heap : Heap) (mem : Ptr) (len : ℕ) : PostProcessed :=
  T.customMutators.foldl postProcessOne ⟨heap, len, mem, none⟩

/-- The size within the limits. -/
def clampLength (T : TestcaseSetup) (size : ℤ) (fix : Bool) : ℤ :=
  if size < T.minLength ∧ !fix then T.minLength
  else if T.maxLength < size then T.maxLength
  else size

/-- The bytes of `out_scratch` once it holds the result: the rest is what was there. -/
def scratchBytes (b : TestcaseBufs) (result : Option (List Byte)) (size : ℕ) : List Byte :=
  (result.getD []).take size ++ ((b.outScratchBuf.bind b.heap).getD []).drop size

/-- The block that moves the result to `out_scratch` and exchanges the two buffers. When
`afl_realloc` moves `out_scratch`, the old block is freed. -/
def moveResult (T : TestcaseSetup) (b : TestcaseBufs) (newMem : Ptr) (newSize : ℤ) :
    TestcaseBufs × Ptr :=
  let size := newSize.toNat
  let newBuf := T.aflRealloc b.outScratchBuf size
  let freed := b.outScratchBuf.elim b.heap fun old => Function.update b.heap old none
  let heap := Function.update freed newBuf (some (scratchBytes b (b.heap newMem) size))
  ({ b with heap := heap, outScratchBuf := some newBuf }.swap, newBuf)

/-- `write_to_testcase`: the memory and the buffers, `*mem`, and the returned length. -/
def writeToTestcase (T : TestcaseSetup) (b : TestcaseBufs) (mem : Ptr) (len : ℕ) (fix : Bool) :
    TestcaseBufs × Ptr × ℤ :=
  if T.customMutators.length ≠ 0 then
    let p := postProcessAll T b.heap mem len
    let b := { b with heap := p.heap }
    if p.newSize = 0 ∧ !fix then (b, mem, 0)
    else
      let newSize := clampLength T (if p.newSize = 0 then (len : ℤ) else p.newSize) fix
      let moves := p.newMem ≠ mem ∧ 0 < newSize
      let moved := if moves then moveResult T b p.newMem newSize else (b, mem)
      -- The saved original shares the variable `new_mem` with the result.
      let newMem := if moves ∧ T.keepOriginal then mem else p.newMem
      if !T.keepOriginal then (moved.1, moved.2, newSize)
      else (moved.1.swap, newMem, len)
  else (b, mem, clampLength T len fix)

/-! ## What is claimed -/

/-- `*mem` is the pointer it was with the same bytes, the length is returned unless the call
returned 0, and the two buffers have the same roles; `out_scratch` may have been resized. -/
def KeepsOriginal (T : TestcaseSetup) (b : TestcaseBufs) (mem : Ptr) (len : ℕ) (fix : Bool) :
    Prop :=
  let after := writeToTestcase T b mem len fix
  after.2.1 = mem ∧ after.1.heap mem = b.heap mem ∧ (after.2.2 = 0 ∨ after.2.2 = len) ∧
    after.1.outBuf = b.outBuf ∧
    (after.1.outScratchBuf = b.outScratchBuf ∨
      ∃ size, after.1.outScratchBuf = some (T.aflRealloc b.outScratchBuf size))

/-- Moving the result leaves the bytes of the caller, who may have passed `out_scratch`: then
the block stays where it is, and what is copied into it is what it held. -/
def MovesApart (T : TestcaseSetup) (b : TestcaseBufs) (mem : Ptr) (p : PostProcessed) (size : ℕ) :
    Prop :=
  if b.outScratchBuf = some mem then
    T.aflRealloc b.outScratchBuf size = mem ∧
      b.heap mem = some (scratchBytes { b with heap := p.heap } (p.heap p.newMem) size)
  else p.heap mem = b.heap mem

/-- With custom mutators: the call returns 0, moves the result, or neither but with both scratch
buffers the same, and the bytes of the caller stay. Without: the length lies within the limits. -/
def Survives (T : TestcaseSetup) (b : TestcaseBufs) (mem : Ptr) (len : ℕ) (fix : Bool) : Prop :=
  if T.customMutators.length ≠ 0 then
    let p := postProcessAll T b.heap mem len
    let newSize := clampLength T (if p.newSize = 0 then (len : ℤ) else p.newSize) fix
    (p.newSize = 0 ∧ fix = false ∧ p.heap mem = b.heap mem) ∨
      (¬ (p.newSize = 0 ∧ fix = false) ∧ p.newMem ≠ mem ∧ 0 < newSize ∧
        MovesApart T b mem p newSize.toNat) ∨
      (¬ (p.newSize = 0 ∧ fix = false) ∧ p.newMem = mem ∧ b.outBuf = b.outScratchBuf ∧
        p.heap mem = b.heap mem)
  else (T.minLength ≤ len ∨ fix = true) ∧ (len ≤ T.maxLength ∨ T.maxLength = 0)

/-! ## When the original survives -/

variable {T : TestcaseSetup} {b : TestcaseBufs} {mem : Ptr} {len : ℕ} {fix : Bool}

/-- Within the limits a length is returned as it is, and only then or where 0 is returned. -/
theorem clampLength_keeps_iff (T : TestcaseSetup) (len : ℕ) (fix : Bool) :
    (clampLength T len fix = 0 ∨ clampLength T len fix = len) ↔
      (T.minLength ≤ len ∨ fix = true) ∧ (len ≤ T.maxLength ∨ T.maxLength = 0) := by
  simp only [clampLength]
  cases fix with
  | true =>
      simp only [Bool.not_true, Bool.false_eq_true, and_false, if_false, or_true, true_and]
      split <;> omega
  | false =>
      simp only [Bool.not_false, and_true, Bool.false_eq_true, or_false]
      split
      · omega
      · split <;> omega

theorem keepsOriginal_plain_iff (plain : ¬ T.customMutators.length ≠ 0) :
    KeepsOriginal T b mem len fix ↔ Survives T b mem len fix := by
  simp only [KeepsOriginal, Survives, writeToTestcase, if_neg plain, true_and, true_or, and_true]
  exact clampLength_keeps_iff T len fix

/-- The bytes of the caller after the result was moved. -/
theorem moveResult_heap (T : TestcaseSetup) (b : TestcaseBufs) (p : PostProcessed) (newSize : ℤ)
    (live : b.heap mem ≠ none)
    (apart : b.outScratchBuf ≠ some mem → ∀ size, T.aflRealloc b.outScratchBuf size ≠ mem) :
    (moveResult T { b with heap := p.heap } p.newMem newSize).1.heap mem = b.heap mem ↔
      MovesApart T b mem p newSize.toNat := by
  simp only [moveResult, TestcaseBufs.swap, MovesApart]
  by_cases scratch : b.outScratchBuf = some mem
  · simp only [if_pos scratch]
    by_cases stays : T.aflRealloc b.outScratchBuf newSize.toNat = mem
    · rw [stays, Function.update_self, eq_self_iff_true, true_and]
      exact eq_comm
    · -- the old block, which is the caller's, is freed
      rw [Function.update_of_ne (Ne.symm stays), scratch, Option.elim_some, Function.update_self]
      exact iff_of_false (Ne.symm live) fun kept => stays (scratch ▸ kept.1)
  · rw [if_neg scratch, Function.update_of_ne (apart scratch _).symm]
    cases other : b.outScratchBuf with
    | none => rfl
    | some old =>
        have elsewhere : mem ≠ old := by
          rintro rfl
          exact scratch other
        rw [Option.elim_some, Function.update_of_ne elsewhere]

/-- **In keep-original mode the caller's buffer, its length and the roles of the scratch buffers
survive exactly under the condition.** -/
theorem keeps_original_iff (keep : T.keepOriginal = true) (live : b.heap mem ≠ none)
    (apart : b.outScratchBuf ≠ some mem → ∀ size, T.aflRealloc b.outScratchBuf size ≠ mem) :
    KeepsOriginal T b mem len fix ↔ Survives T b mem len fix := by
  by_cases mutators : T.customMutators.length ≠ 0
  · simp only [KeepsOriginal, Survives, writeToTestcase, if_pos mutators, keep]
    generalize postProcessAll T b.heap mem len = p
    by_cases dropped : p.newSize = 0 ∧ fix = false
    · have early : p.newSize = 0 ∧ (!fix) = true := ⟨dropped.1, by rw [dropped.2]; rfl⟩
      simp only [if_pos early, true_and, true_or, and_true]
      constructor
      · exact fun same => .inl ⟨dropped.1, dropped.2, same⟩
      · rintro (⟨-, -, same⟩ | ⟨goesOn, -⟩ | ⟨goesOn, -⟩)
        · exact same
        · exact absurd dropped goesOn
        · exact absurd dropped goesOn
    · have goesOn : ¬ (p.newSize = 0 ∧ (!fix) = true) := by
        rintro ⟨zero, unfixed⟩
        refine dropped ⟨zero, ?_⟩
        cases fix with
        | true => cases unfixed
        | false => rfl
      have kept : ¬ (p.newSize = 0 ∧ fix = false ∧ p.heap mem = b.heap mem) := fun early =>
        dropped ⟨early.1, early.2.1⟩
      simp only [if_neg goesOn, dropped, kept, false_or, not_false_eq_true, true_and]
      generalize clampLength T (if p.newSize = 0 then (len : ℤ) else p.newSize) fix = newSize
      by_cases moves : p.newMem ≠ mem ∧ 0 < newSize
      · have bytes := moveResult_heap T b p newSize live apart
        simp only [if_pos moves, Bool.not_true, Bool.false_eq_true, if_false, and_true, true_and,
          or_true]
        constructor
        · exact fun same => .inl ⟨moves.1, moves.2, bytes.mp same.1⟩
        · rintro (⟨-, -, moved⟩ | ⟨same, -⟩)
          · exact ⟨bytes.mpr moved, rfl, .inr ⟨_, rfl⟩⟩
          · exact absurd same moves.1
      · have unsaved : ¬ ((p.newMem ≠ mem ∧ 0 < newSize) ∧ True) := fun saved => moves saved.1
        simp only [if_neg moves, if_neg unsaved, Bool.not_true, Bool.false_eq_true, if_false,
          or_true, true_and, TestcaseBufs.swap]
        constructor
        · rintro ⟨same, bytes, out, -⟩
          exact .inr ⟨same, out.symm, bytes⟩
        · rintro (⟨other, positive, -⟩ | ⟨same, roles, bytes⟩)
          · exact absurd ⟨other, positive⟩ moves
          · exact ⟨same, bytes, roles.symm, .inl roles⟩
  · exact keepsOriginal_plain_iff mutators

/-! ## Three calls -/

/-- A post-processor that returns another block of the same size, with the first byte changed, and
one that returns the block it is given. -/
def copyingPost : PostProcess := fun heap mem size _ =>
  (Function.update heap 7 ((heap mem).map fun bytes => 67 :: bytes.drop 1), size, some 7)

def samePost : PostProcess := fun heap mem size _ => (heap, size, some mem)

/-- Buffers 1 and 2 are the scratch buffers; buffer 3 is another one. -/
def threeBufs : TestcaseBufs where
  heap := fun p => if p = 2 ∨ p = 3 then some [65, 66] else none
  outBuf := some 1
  outScratchBuf := some 2

def keepSetup (post : PostProcess) : TestcaseSetup :=
  { customMutators := [some post], keepOriginal := true, aflRealloc := fun _ _ => 2 }

/-- The original survives in buffer 3, and not in `out_scratch`, where the result is copied. -/
theorem keeps_original_copying :
    KeepsOriginal (keepSetup copyingPost) threeBufs 3 2 false ∧
      ¬ KeepsOriginal (keepSetup copyingPost) threeBufs 2 2 false := by
  constructor
  · refine (keeps_original_iff rfl (by decide) fun _ _ => (by decide : (2 : Ptr) ≠ 3)).mpr ?_
    exact .inr (.inl ⟨by decide, by decide, by decide, rfl⟩)
  · refine fun kept => ?_
    have survives := (keeps_original_iff rfl (by decide) fun other => absurd rfl other).mp kept
    rcases survives with ⟨dropped, -⟩ | ⟨-, -, -, -, bytes⟩ | ⟨-, same, -⟩
    · exact absurd dropped (by decide)
    · exact absurd bytes (by decide)
    · exact absurd same (by decide)

/-- A post-processor that returns the block it is given leaves the scratch buffers exchanged. -/
theorem roles_exchanged : ¬ KeepsOriginal (keepSetup samePost) threeBufs 3 2 false := by
  rintro ⟨-, -, -, out, -⟩
  exact absurd out (by decide)

end GreenFuzz.AflFuzz
