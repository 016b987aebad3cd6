import GreenFuzz.Library.ByteWords
import Mathlib.Data.List.GetD

/-!
# Words in a stream of bytes

Two processes that exchange machine words through a byte stream write the four
bytes of a word in memory order and read four bytes back. Reading what was
written returns the word (`readWord_wordBytes`), and a stream that starts with a
word keeps the rest (`List.drop_left'` of Mathlib).

What is in the stream and what is still to be written add up to what is still to
be read. `split_of_append_eq` takes the next item off such an equation.
-/

set_option autoImplicit false

namespace GreenFuzz.Library

/-- A word of four bytes. -/
abbrev Word := BitVec 32

/-- The bytes of a word, in memory order. -/
def wordBytes (word : Word) : List Byte := (List.range 4).map (byteOf word)

/-- The word at the front of a stream. -/
def readWord (stream : List Byte) : Word := assemble 4 fun k => stream.getD k 0

@[simp] theorem length_wordBytes (word : Word) : (wordBytes word).length = 4 := by
  simp only [wordBytes, List.length_map, List.length_range]

/-- A word is read as it was written. -/
@[simp] theorem readWord_wordBytes (word : Word) (rest : List Byte) :
    readWord (wordBytes word ++ rest) = word := by
  refine eq_of_byteOf_eq (n := 4) fun k below => ?_
  have inWord : k < (wordBytes word).length := by rw [length_wordBytes]; exact below
  have inStream : k < (wordBytes word ++ rest).length := by
    rw [List.length_append]
    exact Nat.lt_add_right _ inWord
  rw [readWord, byteOf_assemble _ below, List.getD_eq_getElem _ _ inStream,
    List.getElem_append_left inWord]
  simp only [wordBytes, List.getElem_map, List.getElem_range]

/-- A stream that is long enough to hold the next item starts with it. -/
theorem split_of_append_eq {α : Type*} {stream pending item rest : List α}
    (total : stream ++ pending = item ++ rest) (holds : item.length ≤ stream.length) :
    stream = item ++ stream.drop item.length ∧ stream.drop item.length ++ pending = rest := by
  have front : stream.take item.length = item := by
    have taken := congrArg (List.take item.length) total
    rwa [List.take_append_of_le_length holds, List.take_left'] at taken
    rfl
  have split : stream = item ++ stream.drop item.length := by
    conv_lhs => rw [← List.take_append_drop item.length stream, front]
  refine ⟨split, ?_⟩
  rw [split, List.append_assoc] at total
  exact List.append_cancel_left total

end GreenFuzz.Library
