import GreenFuzz.AflFuzz.Havoc
import GreenFuzz.Library.Runs

/-!
# Where two inputs are spliced

The splicing stage joins the current input and the file of another entry. It looks
for the first and the last offset at which they differ, draws a split point between
the two, and copies the head from the current input. `fuzz_one_original` and
`mopt_common_fuzzing` contain the same code.

The second copy starts at the front of the partner's file and not at the split
point, so the new input has the right length and the wrong tail. **The tail is the
rest of the partner's file if and only if that file repeats itself with the split
point as a period** (`splices_at_one_offset_iff`), for instance when the split
point is 0.
-/

set_option autoImplicit false

namespace GreenFuzz.AflFuzz

open Library

/-! ## The stage -/

/-- `locate_diffs`: the first and the last differing offset, or -1 twice. -/
def locateDiffs (ptr1 ptr2 : List Byte) (len : ℕ) : ℤ × ℤ :=
  (List.range len).foldl
    (fun loc pos =>
      if ptr1.getD pos 0 ≠ ptr2.getD pos 0 then (if loc.1 = -1 then (pos : ℤ) else loc.1, (pos : ℤ))
      else loc)
    (-1, -1)

/-- The offsets between which the stage splits, if it does not retry with another partner. -/
def spliceRange (inBuf newBuf : List Byte) : Option (ℕ × ℕ) :=
  let diffs := locateDiffs inBuf newBuf (min inBuf.length newBuf.length)
  if diffs.1 < 0 ∨ diffs.2 < 2 ∨ diffs.1 = diffs.2 then none
  else some (diffs.1.toNat, diffs.2.toNat)

/-- The splicing stage with the content of a partner: the new input and the split point, or
nothing where it retries. -/
def splice (inBuf newBuf : List Byte) : Drawing (Option (List Byte × ℕ)) :=
  match spliceRange inBuf newBuf with
  | none => pure none
  | some (fDiff, lDiff) => do
      let r ← randBelow (lDiff - fDiff)
      let splitAt := fDiff + r
      let len := newBuf.length
      -- The second `memcpy` reads from `new_buf`, without the split point.
      pure (some (inBuf.take splitAt ++ newBuf.take (len - splitAt), splitAt))

/-- The splicing stage of `fuzz_one_original`. -/
def fuzzOneSplicing : List Byte → List Byte → Drawing (Option (List Byte × ℕ)) := splice

/-- The splicing stage of `mopt_common_fuzzing`. -/
def moptSplicing : List Byte → List Byte → Drawing (Option (List Byte × ℕ)) := splice

/-! ## What is claimed -/

/-- The inputs differ at an offset within both. -/
def DiffersAt (inBuf newBuf : List Byte) (pos : ℕ) : Prop :=
  pos < inBuf.length ∧ pos < newBuf.length ∧ inBuf.getD pos 0 ≠ newBuf.getD pos 0

/-- Whenever a split point is accepted, it lies between the first and the last differing offset,
and the new input is the head of the one file and the tail of the other. -/
def SplicesAtOneOffset (stage : List Byte → List Byte → Drawing (Option (List Byte × ℕ)))
    (inBuf newBuf : List Byte) (draws : Draws) : Prop :=
  ∀ out splitAt rest, (stage inBuf newBuf).run draws = some (some (out, splitAt), rest) →
    out.length = newBuf.length ∧
    (∃ first last, DiffersAt inBuf newBuf first ∧ (∀ pos < first, ¬ DiffersAt inBuf newBuf pos) ∧
      DiffersAt inBuf newBuf last ∧ (∀ pos, DiffersAt inBuf newBuf pos → pos ≤ last) ∧
      first ≤ splitAt ∧ splitAt < last) ∧
    out = inBuf.take splitAt ++ newBuf.drop splitAt

/-- The partner's file repeats itself with the drawn split point as a period. -/
def PartnerRepeats (inBuf newBuf : List Byte) (draws : Draws) : Prop :=
  ∀ fDiff lDiff r rest, spliceRange inBuf newBuf = some (fDiff, lDiff) →
    (randBelow (lDiff - fDiff)).run draws = some (r, rest) →
    ∀ k, fDiff + r + k < newBuf.length → newBuf.getD (fDiff + r + k) 0 = newBuf.getD k 0

/-! ## The difference search -/

/-- What `locate_diffs` knows after the offsets below `len`. -/
def Located (inBuf newBuf : List Byte) (len : ℕ) (loc : ℤ × ℤ) : Prop :=
  (loc = (-1, -1) ∧ ∀ pos < len, inBuf.getD pos 0 = newBuf.getD pos 0) ∨
  ∃ first last : ℕ, loc = ((first : ℤ), (last : ℤ)) ∧ first < len ∧ last < len ∧
    inBuf.getD first 0 ≠ newBuf.getD first 0 ∧ inBuf.getD last 0 ≠ newBuf.getD last 0 ∧
    (∀ pos < first, inBuf.getD pos 0 = newBuf.getD pos 0) ∧
    ∀ pos < len, inBuf.getD pos 0 ≠ newBuf.getD pos 0 → pos ≤ last

/-- **`locate_diffs` finds the first and the last difference.** -/
theorem located_locateDiffs (inBuf newBuf : List Byte) (len : ℕ) :
    Located inBuf newBuf len (locateDiffs inBuf newBuf len) := by
  refine foldl_range_invariant (P := fun pos loc => Located inBuf newBuf pos loc)
    (.inl ⟨rfl, fun pos below => absurd below (Nat.not_lt_zero pos)⟩) ?_
  intro i _ loc located
  by_cases same : inBuf.getD i 0 = newBuf.getD i 0
  · rw [if_neg (fun differ => differ same)]
    rcases located with ⟨rfl, none⟩ |
      ⟨first, last, rfl, inFirst, inLast, firstDiff, lastDiff, least, greatest⟩
    · refine .inl ⟨rfl, fun pos below => ?_⟩
      rcases Nat.lt_succ_iff_lt_or_eq.mp below with earlier | rfl
      · exact none pos earlier
      · exact same
    · refine .inr ⟨first, last, rfl, by omega, by omega, firstDiff, lastDiff, least, ?_⟩
      intro pos below differs
      rcases Nat.lt_succ_iff_lt_or_eq.mp below with earlier | rfl
      · exact greatest pos earlier differs
      · exact absurd same differs
  · rw [if_pos same]
    rcases located with ⟨rfl, none⟩ |
      ⟨first, last, rfl, inFirst, inLast, firstDiff, lastDiff, least, greatest⟩
    · refine .inr ⟨i, i, rfl, Nat.lt_succ_self i, Nat.lt_succ_self i, same, same, none, ?_⟩
      intro pos below _
      exact Nat.lt_succ_iff.mp below
    · have known : ¬ (first : ℤ) = -1 := by omega
      refine .inr ⟨first, i, by simp only [if_neg known], by omega, Nat.lt_succ_self i, firstDiff,
        same, least, ?_⟩
      intro pos below _
      exact Nat.lt_succ_iff.mp below

/-- The offsets between which the stage splits are the first and the last difference. -/
theorem spliceRange_spec {inBuf newBuf : List Byte} {fDiff lDiff : ℕ}
    (range : spliceRange inBuf newBuf = some (fDiff, lDiff)) :
    fDiff < lDiff ∧ DiffersAt inBuf newBuf fDiff ∧
      (∀ pos < fDiff, ¬ DiffersAt inBuf newBuf pos) ∧ DiffersAt inBuf newBuf lDiff ∧
      ∀ pos, DiffersAt inBuf newBuf pos → pos ≤ lDiff := by
  have located := located_locateDiffs inBuf newBuf (min inBuf.length newBuf.length)
  simp only [spliceRange] at range
  split at range
  · cases range
  · rename_i accepted
    push Not at accepted
    injection range with range
    injection range with firstEq lastEq
    rcases located with ⟨loc, -⟩ |
      ⟨first, last, loc, inFirst, inLast, firstDiff, lastDiff, least, greatest⟩
    · rw [loc] at accepted
      exact absurd accepted.1 (by decide)
    · rw [loc] at accepted firstEq lastEq
      simp only [Int.toNat_natCast] at firstEq lastEq
      subst firstEq lastEq
      have ordered : first ≤ last := greatest first inFirst firstDiff
      have apart : first ≠ last := fun same => accepted.2.2 (by rw [same])
      refine ⟨by omega, ⟨by omega, by omega, firstDiff⟩, ?_, ⟨by omega, by omega, lastDiff⟩, ?_⟩
      · rintro pos before ⟨-, -, differs⟩
        exact differs (least pos before)
      · rintro pos ⟨inOld, inNew, differs⟩
        exact greatest pos (by omega) differs

/-! ## The tail -/

/-- A prefix takes the place of a suffix exactly if the list repeats itself. -/
theorem take_eq_drop_iff (data : List Byte) (splitAt : ℕ) :
    data.take (data.length - splitAt) = data.drop splitAt ↔
      ∀ k, splitAt + k < data.length → data.getD (splitAt + k) 0 = data.getD k 0 := by
  constructor
  · intro same k inside
    have entry := congrArg (fun part => part.getD k 0) same
    simp only [List.getD_eq_getElem?_getD, List.getElem?_drop] at entry ⊢
    rw [List.getElem?_take_of_lt (by omega)] at entry
    exact entry.symm
  · intro repeats
    apply List.ext_getElem?
    intro k
    by_cases inside : splitAt + k < data.length
    · have entry := repeats k inside
      rw [List.getElem?_take_of_lt (by omega), List.getElem?_drop]
      rw [← List.getElem_eq_getD (h := inside), ← List.getElem_eq_getD (h := by omega)] at entry
      rw [List.getElem?_eq_getElem inside, List.getElem?_eq_getElem (by omega), entry]
    · rw [List.getElem?_eq_none (by rw [List.length_take]; omega),
        List.getElem?_eq_none (by rw [List.length_drop]; omega)]

theorem splices_iff (inBuf newBuf : List Byte) (draws : Draws) :
    SplicesAtOneOffset splice inBuf newBuf draws ↔ PartnerRepeats inBuf newBuf draws := by
  constructor
  · intro claimed fDiff lDiff r rest range drawn
    have ran : (splice inBuf newBuf).run draws =
        some (some (inBuf.take (fDiff + r) ++ newBuf.take (newBuf.length - (fDiff + r)),
          fDiff + r), rest) := by
      simp only [splice, range, StateT.run_bind, drawn]
      rfl
    obtain ⟨-, -, joined⟩ := claimed _ _ _ ran
    exact (take_eq_drop_iff newBuf (fDiff + r)).mp (List.append_cancel_left joined)
  · intro repeats out splitAt rest ran
    cases range : spliceRange inBuf newBuf with
    | none =>
        simp only [splice, range, StateT.run_pure] at ran
        cases ran
    | some diffs =>
        obtain ⟨fDiff, lDiff⟩ := diffs
        obtain ⟨apart, firstDiffers, least, lastDiffers, greatest⟩ := spliceRange_spec range
        simp only [splice, range, StateT.run_bind, Option.bind_eq_bind,
          Option.bind_eq_some_iff, StateT.run_pure] at ran
        obtain ⟨⟨r, rest'⟩, drawn, same⟩ := ran
        cases same
        have below := randBelow_lt (Nat.sub_pos_of_lt apart) drawn
        have tail := (take_eq_drop_iff newBuf (fDiff + r)).mpr
          (repeats fDiff lDiff r _ range drawn)
        refine ⟨?_, ⟨fDiff, lDiff, firstDiffers, least, lastDiffers, greatest, by omega,
          by omega⟩, by rw [tail]⟩
        have inOld := lastDiffers.1
        have inNew := lastDiffers.2.1
        rw [List.length_append, List.length_take, List.length_take]
        omega

/-- **Both engines join the two files at one offset exactly if the partner's file repeats itself
with the split point as a period.** -/
theorem splices_at_one_offset_iff (inBuf newBuf : List Byte) (draws : Draws) :
    (SplicesAtOneOffset fuzzOneSplicing inBuf newBuf draws ∧
      SplicesAtOneOffset moptSplicing inBuf newBuf draws) ↔
      PartnerRepeats inBuf newBuf draws := by
  rw [← splices_iff]
  exact and_self_iff

/-- Two inputs of four bytes, split at offset 1: the tail starts at the front of the partner's
file. -/
theorem tail_from_the_front :
    ¬ (SplicesAtOneOffset fuzzOneSplicing [1, 1, 1, 1] [2, 3, 4, 5] [1] ∧
      SplicesAtOneOffset moptSplicing [1, 1, 1, 1] [2, 3, 4, 5] [1]) := by
  rintro ⟨claimed, -⟩
  have ran : (fuzzOneSplicing [1, 1, 1, 1] [2, 3, 4, 5]).run [1] =
      some (some ([1, 2, 3, 4], 1), []) := by decide
  obtain ⟨-, -, joined⟩ := claimed _ _ _ ran
  exact absurd joined (by decide)

end GreenFuzz.AflFuzz
