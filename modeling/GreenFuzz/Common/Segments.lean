import GreenFuzz.AflFuzz.Extras
import GreenFuzz.Library.CStrings

/-!
# Segments of a name

A segment of a name ends at an underscore or at the end of the string, and the scan goes on behind
this byte. So the last segment ends one byte behind the null byte (`segmentEnds`).
-/

set_option autoImplicit false

namespace GreenFuzz.Common

open Library
open AflFuzz (ord)

/-- The end of the segment that starts at an index: one byte behind its underscore, or behind the
null byte. -/
def segmentStop (text : List Byte) (start : ℕ) : ℕ :=
  start + ((text.drop start).takeWhile (· ≠ ord '_')).length + 1

/-- The text without the segment that starts at an index. -/
def withoutSegment (text : List Byte) (start : ℕ) : List Byte :=
  if segmentStop text start ≤ text.length then
    text.take start ++ text.drop (segmentStop text start)
  else text.take (start - 1)

/-- Where the segments of a text start. -/
def segmentStarts (text : List Byte) : List ℕ :=
  (List.range text.length).filter fun i => i = 0 ∨ text[i - 1]? = some (ord '_')

variable {text : List Byte} {start i : ℕ}

theorem mem_segmentStarts :
    i ∈ segmentStarts text ↔ i < text.length ∧ (i = 0 ∨ text[i - 1]? = some (ord '_')) := by
  rw [segmentStarts, List.mem_filter, List.mem_range, decide_eq_true_eq]

/-- What is known of the end of a segment. -/
structure SegmentEnds (text : List Byte) (start stop : ℕ) : Prop where
  after : start < stop
  within : stop ≤ text.length + 1
  closed : stop ≤ text.length → text[stop - 1]? = some (ord '_')
  free : ∀ i, start ≤ i → i + 1 < stop → text[i]? ≠ some (ord '_')

theorem segmentEnds (le : start ≤ text.length) :
    SegmentEnds text start (segmentStop text start) := by
  have rest (i : ℕ) : text[start + i]? = (text.drop start)[i]? := List.getElem?_drop.symm
  have length : (text.drop start).length = text.length - start := List.length_drop
  unfold segmentStop
  generalize text.drop start = tail at *
  have free {front : List Byte} (passed : ∀ b ∈ front, decide (b ≠ ord '_') = true)
      (back : List Byte) (split : tail = front ++ back) (i : ℕ) (from_start : start ≤ i)
      (before : i < start + front.length) : text[i]? ≠ some (ord '_') := by
    obtain ⟨k, rfl⟩ := Nat.exists_eq_add_of_le from_start
    have inside : k < front.length := by omega
    rw [rest, split, List.getElem?_append_left inside, List.getElem?_eq_getElem inside]
    intro same
    exact absurd (Option.some.inj same) (of_decide_eq_true (passed _ (List.getElem_mem inside)))
  rcases all_or_first (· ≠ ord '_') tail with all | ⟨front, a, back, rfl, passed, fails⟩
  · rw [List.takeWhile_eq_self_iff.mpr all]
    exact ⟨by omega, by omega, fun inside => absurd inside (by omega), fun i from_start before =>
      free all [] (List.append_nil _).symm i from_start (by omega)⟩
  · obtain rfl : a = ord '_' := by simpa using fails
    rw [takeWhile_append_cons passed fails]
    rw [List.length_append, List.length_cons] at length
    refine ⟨by omega, by omega, fun _ => ?_, fun i from_start before =>
      free passed _ rfl i from_start (by omega)⟩
    rw [Nat.add_sub_cancel, rest, List.getElem?_append_right le_rfl, Nat.sub_self,
      List.getElem?_cons_zero]

/-- The next segment starts where one ends. -/
theorem segmentStarts_between {stop : ℕ} (ends : SegmentEnds text start stop)
    (member : i ∈ segmentStarts text) (after : start < i) : stop ≤ i := by
  by_contra before
  obtain ⟨-, first | mark⟩ := mem_segmentStarts.mp member
  · omega
  · exact ends.free (i - 1) (by omega) (by omega) mark

theorem strcspn_segment (noNull : 0 ∉ text) (le : start ≤ text.length) :
    strcspn ((text ++ [0]).drop start) (ord '_') =
      .ok ((text.drop start).takeWhile (· ≠ ord '_')).length := by
  have noNull' : 0 ∉ text.drop start := fun member => noNull (List.mem_of_mem_drop member)
  rw [List.drop_append_of_le_length le]
  generalize text.drop start = tail at *
  rcases all_or_first (· ≠ ord '_') tail with all | ⟨front, a, back, rfl, passed, fails⟩
  · rw [List.takeWhile_eq_self_iff.mpr all]
    exact strcspn_append noNull' (fun member => by simpa using all _ member) (.inl rfl)
  · rw [takeWhile_append_cons passed fails, List.append_assoc]
    refine strcspn_append (fun member => noNull' (List.mem_append_left _ member)) (fun member => ?_)
      (.inr (by simpa using fails))
    simpa using passed _ member

end GreenFuzz.Common
