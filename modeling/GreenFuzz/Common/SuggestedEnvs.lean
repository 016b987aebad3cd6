import GreenFuzz.Common.EnvTable
import GreenFuzz.Common.Segments
import GreenFuzz.Common.StringDistance
import GreenFuzz.Library.FallibleLoops

/-!
# Suggestions for a mistyped variable

`print_suggested_envs` compares the name of an unknown variable with the known ones, then with the
known ones without one of their segments, and last the name without one of its segments with the
known ones. It stops as soon as there are suggestions.

The only segment of a name without an underscore ends one byte behind the null byte, and the index
of the new terminator wraps below zero. The loop over the known names checks for this
(`reduceVariable_yields`), and the one over the name that is given does not (`reduceName_outside`).
-/

set_option autoImplicit false

namespace GreenFuzz.Common

open Library
open AflFuzz (ord u32 u64 u64Sub MAX_ALLOC allocAborts)

def ENV_SIMILARITY_TRESHOLD : ℕ := 3

/-! ## The code -/

/-- `ck_alloc`, of bytes. -/
def ckAlloc (size : ℕ) : Except Stop (List Byte) :=
  if allocAborts size then .error .aborted else .ok (List.replicate (u32 size) 0)

/-- The locals `seen` and `found`, and the names that were printed. -/
structure Suggesting where
  seen : List Byte
  found : Bool := false
  printed : List (List Byte) := []
  deriving DecidableEq, Repr

/-- A name of the table is printed if the distance of two strings is small and it was not printed
before. -/
def suggestIf (j : ℕ) (name s1 s2 : List Byte) (s : Suggesting) : Except Stop Suggesting := do
  if stringDistanceLevenshtein s1 s2 < ENV_SIMILARITY_TRESHOLD then
    if (← load s.seen j) = 0 then
      return ⟨← store s.seen j 1, true, s.printed ++ [name]⟩
  return s

/-- `afl_environment_variables[j] + 4`. -/
def aflEnv (name : List Byte) : List Byte := (name ++ [0]).drop 4

/-- The first loop. -/
def suggestWhole (names : List (List Byte)) (envName : List Byte) (s : Suggesting) :
    Except Stop Suggesting :=
  names.zipIdx.foldlM (fun s (name, j) => do
    suggestIf j name (← readString (aflEnv name)) (← readString envName) s) s

/-- The copies of what stands before a segment and behind it. -/
def copyAround (text : List Byte) (len : ℕ) (reduced : List Byte) (start stop : ℕ) :
    Except Stop (List Byte) := do
  let reduced ← memcpy reduced 0 text start
  if stop < len then memcpy reduced start (text.drop stop) (len - stop) else return reduced

/-- One round of the second loop, up to the comparison: what is in `reduced`, and the end of the
segment. -/
def reduceVariable (text : List Byte) (len : ℕ) (reduced : List Byte) (start : ℕ) :
    Except Stop (List Byte × ℕ) := do
  let stop := start + (← strcspn (text.drop start) (ord '_')) + 1
  let reduced ← copyAround text len reduced start stop
  if stop ≤ len + start then
    return (← store reduced (u64 (u64Sub len stop + start)) 0, stop)
  return (reduced, stop)

/-- The same of the third loop. The index of the terminator is not checked. -/
def reduceName (text : List Byte) (len : ℕ) (reduced : List Byte) (start : ℕ) :
    Except Stop (List Byte × ℕ) := do
  let stop := start + (← strcspn (text.drop start) (ord '_')) + 1
  let reduced ← copyAround text len reduced start stop
  return (← store reduced (u64 (u64Sub len stop + start)) 0, stop)

/-- The locals of a loop over segments. -/
structure Reducing where
  reduced : List Byte
  start : ℕ := 0
  suggesting : Suggesting

/-- The body of the second loop. -/
def suggestReducedVariable (envName : List Byte) (j : ℕ) (name : List Byte) (len : ℕ)
    (s : Reducing) : Except Stop Reducing := do
  let (reduced, stop) ← reduceVariable (aflEnv name) len s.reduced s.start
  let suggesting ← suggestIf j name (← readString reduced) (← readString envName) s.suggesting
  return ⟨reduced, stop, suggesting⟩

/-- The second loop. -/
def suggestReducedVariables (names : List (List Byte)) (envName : List Byte) (s : Suggesting) :
    Except Stop Suggesting :=
  names.zipIdx.foldlM (fun s (name, j) => do
    let aflEnvLen ← strlen (aflEnv name)
    let reduced ← ckAlloc (aflEnvLen + 1)
    let t ← whileOk (fun t => t.start < aflEnvLen)
      (suggestReducedVariable envName j name aflEnvLen) .endless (aflEnvLen + 1)
      { reduced, suggesting := s }
    return t.suggesting) s

/-- The loop over the table in the third loop, which does not set `found`. -/
def suggestAgain (names : List (List Byte)) (reduced : List Byte) (s : Suggesting) :
    Except Stop Suggesting :=
  names.zipIdx.foldlM (fun s (name, j) => do
    let t ← suggestIf j name (← readString (aflEnv name)) (← readString reduced) s
    return { t with found := s.found }) s

/-- The body of the third loop. -/
def suggestReducedName (names : List (List Byte)) (envName : List Byte) (len : ℕ) (s : Reducing) :
    Except Stop Reducing := do
  let (reduced, stop) ← reduceName envName len s.reduced s.start
  return ⟨reduced, stop, ← suggestAgain names reduced s.suggesting⟩

/-- The third loop. -/
def suggestReducedNames (names : List (List Byte)) (envName : List Byte) (len : ℕ)
    (s : Suggesting) : Except Stop Suggesting := do
  let reduced ← ckAlloc (len + 1)
  let t ← whileOk (fun t => t.start < len) (suggestReducedName names envName len) .endless (len + 1)
    { reduced, suggesting := s }
  return t.suggesting

/-- `print_suggested_envs`: the names that are printed. Both callers have found the prefix `AFL_`,
so that the length of the name does not wrap. -/
def printSuggestedEnvs (names : List (List Byte)) (mispelledEnv : CString) :
    Except Stop (List (List Byte)) := do
  let envNameLen := (← strcspn mispelledEnv.buffer (ord '=')) - 4
  let envName ← memcpy (← ckAlloc (envNameLen + 1)) 0 (mispelledEnv.buffer.drop 4) envNameLen
  let s ← suggestWhole names envName { seen := ← ckAlloc (names.length + 1) }
  if s.found then return s.printed
  let s ← suggestReducedVariables names envName s
  if s.found then return s.printed
  return (← suggestReducedNames names envName envNameLen s).printed

/-- Memory that is not too large is allocated and zeroed. -/
theorem ckAlloc_fits {n : ℕ} (fits : n ≤ MAX_ALLOC) :
    ckAlloc n = .ok (List.replicate n 0) := by
  have same : u32 n = n := Nat.mod_eq_of_lt (by unfold MAX_ALLOC at fits; omega)
  rw [ckAlloc, allocAborts, same, if_neg (by rw [decide_eq_true_eq]; exact fits.not_gt)]

/-! ## Reducing a text -/

section Reducing

variable {text reduced : List Byte} {start : ℕ}

/-- What the two copies leave in the buffer. -/
theorem copyAround_eq {stop : ℕ} (length : reduced.length = text.length + 1)
    (inside : start < text.length) (after : start < stop) :
    copyAround (text ++ [0]) text.length reduced start stop =
      .ok (text.take start ++ text.drop stop ++ reduced.drop (start + (text.length - stop))) := by
  have front : (text ++ [0]).take start = text.take start := List.take_append_of_le_length inside.le
  have lead : (text.take start).length = start := List.length_take_of_le inside.le
  have first : overwrite reduced 0 (text.take start) = text.take start ++ reduced.drop start := by
    rw [overwrite, List.take_zero, List.nil_append, Nat.zero_add, lead]
  rw [copyAround, memcpy_inside (by omega) (by rw [List.length_append]; omega), front, first]
  show (if _ then _ else _) = _
  by_cases more : stop < text.length
  · have behind : ((text ++ [0]).drop stop).take (text.length - stop) = text.drop stop := by
      rw [List.drop_append_of_le_length more.le,
        List.take_left' (by rw [List.length_drop])]
    rw [if_pos more, memcpy_inside, behind, overwrite, List.take_left' lead, List.length_drop,
      ← List.drop_drop, List.drop_left' lead, List.drop_drop]
    · rw [List.length_append, lead, List.length_drop]
      omega
    · rw [List.length_drop, List.length_append]
      omega
  · rw [if_neg more, List.drop_eq_nil_of_le (Nat.le_of_not_lt more), List.append_nil,
      Nat.sub_eq_zero_of_le (Nat.le_of_not_lt more), Nat.add_zero]
    rfl

/-- The index of the terminator, where it does not wrap below zero. -/
theorem terminator_index {len stop : ℕ} (small : len < MAX_ALLOC) (before : start < len)
    (le : stop ≤ len + start) (within : stop ≤ len + 1) :
    u64 (u64Sub len stop + start) = len + start - stop := by
  unfold MAX_ALLOC at small
  unfold u64 u64Sub u64
  omega

/-- What stands in a buffer after a round over a text. -/
structure Reduced (text : List Byte) (start : ℕ) (reduced : List Byte) : Prop where
  length : reduced.length = text.length + 1
  string : readString reduced = .ok (withoutSegment text start)

theorem reduced_of_terminated {front back : List Byte} {b : Byte} (noNull : 0 ∉ text)
    (kept : front = withoutSegment text start)
    (length : (front ++ b :: back).length = text.length + 1) :
    ∃ buf, store (front ++ b :: back) front.length 0 = .ok buf ∧ Reduced text start buf := by
  have free : 0 ∉ front := by
    rw [kept, withoutSegment]
    intro member
    split at member
    · rcases List.mem_append.mp member with before | behind
      · exact noNull (List.mem_of_mem_take before)
      · exact noNull (List.mem_of_mem_drop behind)
    · exact noNull (List.mem_of_mem_take member)
  have written : (front ++ b :: back).set front.length 0 = front ++ 0 :: back := by
    rw [List.set_append_right _ _ le_rfl, Nat.sub_self, List.set_cons_zero]
  refine ⟨_, store_inside (by rw [List.length_append, List.length_cons]; omega), ?_, ?_⟩
  · rw [List.length_set, length]
  · rw [written, readString_string free, kept]

variable (noNull : 0 ∉ text) (small : text.length < MAX_ALLOC)
  (length : reduced.length = text.length + 1) (inside : start < text.length)

include noNull small length inside

/-- The terminator ends the text without the segment. -/
theorem terminate (guard : segmentStop text start ≤ text.length + start) :
    ∃ buf, store (text.take start ++ text.drop (segmentStop text start) ++
        reduced.drop (start + (text.length - segmentStop text start)))
      (u64 (u64Sub text.length (segmentStop text start) + start)) 0 = .ok buf ∧
      Reduced text start buf := by
  obtain ⟨after, within, -, -⟩ := segmentEnds inside.le
  rw [terminator_index small inside guard within]
  generalize stop_eq : segmentStop text start = stop at *
  have lead : (text.take start).length = start := List.length_take_of_le inside.le
  by_cases last : stop ≤ text.length
  · have kept : text.take start ++ text.drop stop = withoutSegment text start := by
      rw [withoutSegment, stop_eq, if_pos last]
    obtain ⟨b, back, split⟩ : ∃ b back,
        reduced.drop (start + (text.length - stop)) = b :: back :=
      List.exists_cons_of_ne_nil (List.ne_nil_of_length_pos (by rw [List.length_drop]; omega))
    have total := congrArg List.length split
    rw [List.length_drop, List.length_cons] at total
    have size : (text.take start ++ text.drop stop).length = text.length + start - stop := by
      rw [List.length_append, lead, List.length_drop]
      omega
    rw [split, ← size]
    exact reduced_of_terminated noNull kept
      (by rw [List.length_append, List.length_cons, size]; omega)
  · have kept : text.take (start - 1) = withoutSegment text start := by
      rw [withoutSegment, stop_eq, if_neg last]
    have before : start - 1 < text.length := by omega
    have split : text.take start = text.take (start - 1) ++ [text[start - 1]] := by
      rw [List.take_append_getElem before, Nat.sub_add_cancel (by omega)]
    have size : (text.take (start - 1)).length = text.length + start - stop := by
      rw [List.length_take_of_le before.le]
      omega
    rw [List.drop_eq_nil_of_le (by omega : text.length ≤ stop), List.append_nil, split,
      List.append_assoc, List.singleton_append, ← size]
    refine reduced_of_terminated noNull kept ?_
    rw [List.length_append, List.length_cons, size, List.length_drop]
    omega

omit small in
theorem reduceName_eq :
    reduceName (text ++ [0]) text.length reduced start =
      (store (text.take start ++ text.drop (segmentStop text start) ++
          reduced.drop (start + (text.length - segmentStop text start)))
        (u64 (u64Sub text.length (segmentStop text start) + start)) 0).map
          fun buf => (buf, segmentStop text start) := by
  rw [reduceName, strcspn_segment noNull inside.le]
  show copyAround _ _ _ _ (segmentStop text start) >>= _ = _
  rw [copyAround_eq length inside (segmentEnds inside.le).after]
  rfl

omit small in
theorem reduceVariable_eq :
    reduceVariable (text ++ [0]) text.length reduced start =
      if segmentStop text start ≤ text.length + start then
        reduceName (text ++ [0]) text.length reduced start
      else .ok (text.take start ++ text.drop (segmentStop text start) ++
          reduced.drop (start + (text.length - segmentStop text start)),
        segmentStop text start) := by
  rw [reduceName_eq noNull length inside, reduceVariable, strcspn_segment noNull inside.le]
  show copyAround _ _ _ _ (segmentStop text start) >>= _ = _
  rw [copyAround_eq length inside (segmentEnds inside.le).after]
  rfl

theorem reduceName_yields (guard : segmentStop text start ≤ text.length + start) :
    Yields (reduceName (text ++ [0]) text.length reduced start) fun r =>
      r.2 = segmentStop text start ∧ Reduced text start r.1 := by
  obtain ⟨buf, stored, reduces⟩ := terminate noNull small length inside guard
  rw [reduceName_eq noNull length inside, stored]
  exact ⟨_, rfl, rfl, reduces⟩

/-- The second loop keeps the buffer empty where it writes no terminator. -/
theorem reduceVariable_yields (fresh : start = 0 → reduced = List.replicate (text.length + 1) 0) :
    Yields (reduceVariable (text ++ [0]) text.length reduced start) fun r =>
      r.2 = segmentStop text start ∧ Reduced text start r.1 := by
  rw [reduceVariable_eq noNull length inside]
  by_cases guard : segmentStop text start ≤ text.length + start
  · rw [if_pos guard]
    exact reduceName_yields noNull small length inside guard
  · have within := (segmentEnds inside.le).within
    obtain rfl : start = 0 := by omega
    rw [if_neg guard, List.drop_eq_nil_of_le (by omega), List.take_zero, List.append_nil,
      List.nil_append, Nat.zero_add, Nat.sub_eq_zero_of_le (by omega), List.drop_zero]
    refine ⟨_, rfl, rfl, length, ?_⟩
    rw [fresh rfl, withoutSegment, if_neg (by omega), List.take_zero, List.replicate_succ,
      ← List.nil_append (0 :: _)]
    exact readString_string nofun

omit inside in
/-- A name without an underscore is terminated at the largest index. -/
theorem reduceName_outside (nonempty : 0 < text.length) (whole : ord '_' ∉ text) :
    reduceName (text ++ [0]) text.length reduced 0 = .error .outside := by
  have stop : segmentStop text 0 = text.length + 1 := by
    rw [segmentStop, List.drop_zero, List.takeWhile_eq_self_iff.mpr (passed_of_not_mem whole),
      Nat.zero_add]
  have index : text.length + 1 ≤ u64 (u64Sub text.length (text.length + 1) + 0) := by
    unfold MAX_ALLOC at small
    unfold u64Sub u64
    omega
  rw [reduceName_eq noNull length nonempty, stop, store_outside]
  · rfl
  · rw [List.drop_eq_nil_of_le (Nat.le_succ _), List.take_zero, List.append_nil, List.nil_append,
      List.length_drop]
    omega

end Reducing

end GreenFuzz.Common
