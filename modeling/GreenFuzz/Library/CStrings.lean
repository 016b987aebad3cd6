import GreenFuzz.Library.ByteWords
import GreenFuzz.Library.Fallible
import GreenFuzz.Library.Overwrite

/-!
# C strings in buffers

A buffer is the list of its bytes, and a pointer into it is what stands from there on. Reading
and writing outside a buffer have no result, and neither has a function of the C library that
looks for a null byte where there is none.

A string that stands in a buffer is a block of bytes other than null with a null byte behind it.
The functions find its end (`strlen_string`), the first byte of some kind in it
(`countUntil_append`) and its bytes (`readString_string`).
-/

set_option autoImplicit false

namespace GreenFuzz.Library

/-- Why a computation on buffers does not return: it accesses what is not there, it does not come
to an end, or the process is aborted. -/
inductive Stop where
  | outside | endless | aborted
  deriving DecidableEq, Repr

/-- A C string, by its bytes before the null byte. -/
structure CString where
  bytes : List Byte
  noNull : 0 ∉ bytes

/-- A string in memory. -/
def CString.buffer (s : CString) : List Byte := s.bytes ++ [0]

/-- The bytes of a literal. -/
def literal (s : String) : List Byte := s.toByteArray.data.toList.map UInt8.toBitVec

/-! ## Accesses -/

/-- `buf[i]`. -/
def load (buf : List Byte) (i : ℕ) : Except Stop Byte :=
  match buf[i]? with
  | some b => .ok b
  | none => .error .outside

/-- `buf[i] = b`. -/
def store (buf : List Byte) (i : ℕ) (b : Byte) : Except Stop (List Byte) :=
  if i < buf.length then .ok (buf.set i b) else .error .outside

/-- `memcpy(dst + pos, src, count)`. -/
def memcpy (dst : List Byte) (pos : ℕ) (src : List Byte) (count : ℕ) : Except Stop (List Byte) :=
  if pos + count ≤ dst.length ∧ count ≤ src.length then .ok (overwrite dst pos (src.take count))
  else .error .outside

variable {buf text more block rest : List Byte} {i pos count : ℕ} {b c : Byte}

theorem load_of_drop (stands : buf.drop i = b :: rest) : load buf i = .ok b := by
  have first := congrArg List.head? stands
  rw [List.head?_drop, List.head?_cons] at first
  rw [load, first]

/-- The byte behind a block that starts at a position. -/
theorem load_behind (stands : buf.drop pos = block ++ b :: rest) :
    load buf (pos + block.length) = .ok b := by
  have there : buf.drop (pos + block.length) = b :: rest := by
    rw [← List.drop_drop, stands, List.drop_left]
  exact load_of_drop there

theorem store_inside (inside : i < buf.length) : store buf i b = .ok (buf.set i b) := if_pos inside

theorem store_outside (beyond : buf.length ≤ i) : store buf i b = .error .outside :=
  if_neg beyond.not_gt

theorem memcpy_inside (room : pos + count ≤ buf.length) (there : count ≤ text.length) :
    memcpy buf pos text count = .ok (overwrite buf pos (text.take count)) := if_pos ⟨room, there⟩

theorem memcpy_outside (beyond : buf.length < pos + count) :
    memcpy buf pos text count = .error .outside := if_neg fun fits => fits.1.not_gt beyond

/-- A byte written behind a block that starts at a position. -/
theorem drop_set_append (stands : buf.drop pos = block ++ c :: rest) :
    (buf.set (pos + block.length) b).drop pos = block ++ b :: rest := by
  rw [List.drop_set, if_neg (by omega), stands, Nat.add_sub_cancel_left, List.set_append_right _ _
    le_rfl, Nat.sub_self, List.set_cons_zero]

/-! ## The first byte of a kind -/

section Blocks

variable {α : Type*} {p : α → Bool} {front back : List α} {a : α}

/-- A list is cut at its first member that fails a test, if there is one. -/
theorem all_or_first (p : α → Bool) (l : List α) :
    (∀ a ∈ l, p a = true) ∨
      ∃ front a back, l = front ++ a :: back ∧ (∀ b ∈ front, p b = true) ∧ p a = false := by
  induction l with
  | nil => exact .inl nofun
  | cons a l ih =>
      cases test : p a with
      | false => exact .inr ⟨[], a, l, rfl, nofun, test⟩
      | true =>
          rcases ih with all | ⟨front, first, back, rfl, passed, fails⟩
          · exact .inl (List.forall_mem_cons.mpr ⟨test, all⟩)
          · have passed' : ∀ b ∈ a :: front, p b = true := List.forall_mem_cons.mpr ⟨test, passed⟩
            exact .inr ⟨a :: front, first, back, rfl, passed', fails⟩

/-- A list without a value passes the scan for it. -/
theorem passed_of_not_mem [DecidableEq α] {l : List α} (absent : a ∉ l) :
    ∀ b ∈ l, decide (b ≠ a) = true :=
  fun _ member => decide_eq_true fun same => absent (same ▸ member)

theorem takeWhile_append_cons (passed : ∀ b ∈ front, p b = true) (fails : p a = false) :
    (front ++ a :: back).takeWhile p = front := by
  rw [List.takeWhile_append_of_pos passed, List.takeWhile_cons_of_neg (by simp [fails]),
    List.append_nil]

theorem dropWhile_append_cons (passed : ∀ b ∈ front, p b = true) (fails : p a = false) :
    (front ++ a :: back).dropWhile p = a :: back := by
  rw [List.dropWhile_append_of_pos passed, List.dropWhile_cons_of_neg (by simp [fails])]

end Blocks

/-! ## Scans -/

/-- How many bytes stand before the first one that ends the scan. -/
def countUntil (ends : Byte → Bool) : List Byte → Except Stop ℕ
  | [] => .error .outside
  | b :: text => if ends b then .ok 0 else (countUntil ends text).map (· + 1)

/-- `strlen`. -/
def strlen (text : List Byte) : Except Stop ℕ := countUntil (fun b => b = 0) text

/-- `strcspn`, for one rejected byte. -/
def strcspn (text : List Byte) (reject : Byte) : Except Stop ℕ :=
  countUntil (fun b => b = 0 ∨ b = reject) text

/-- The string that a pointer refers to. -/
def readString (text : List Byte) : Except Stop (List Byte) :=
  (strlen text).map fun len => text.take len

theorem countUntil_append {ends : Byte → Bool} (passed : ∀ c ∈ block, ends c = false)
    (found : ends b = true) : countUntil ends (block ++ b :: rest) = .ok block.length := by
  induction block with
  | nil => exact if_pos found
  | cons c block ih =>
      have here : ¬ ends c = true := by
        rw [passed c List.mem_cons_self]
        exact Bool.false_ne_true
      have later := ih fun d member => passed d (List.mem_cons_of_mem c member)
      rw [List.cons_append, countUntil, if_neg here, later]
      rfl

theorem strlen_string (noNull : 0 ∉ block) : strlen (block ++ 0 :: rest) = .ok block.length :=
  countUntil_append (fun _ member => decide_eq_false fun null => noNull (null ▸ member))
    (decide_eq_true rfl)

theorem readString_string (noNull : 0 ∉ block) : readString (block ++ 0 :: rest) = .ok block := by
  rw [readString, strlen_string noNull]
  exact congrArg Except.ok List.take_left

/-- The rejected byte or the end of the string comes first. -/
theorem strcspn_append (noNull : 0 ∉ block) (absent : c ∉ block) (found : b = 0 ∨ b = c) :
    strcspn (block ++ b :: rest) c = .ok block.length := by
  refine countUntil_append (fun d member => decide_eq_false ?_) (decide_eq_true found)
  rintro (null | rejected)
  · exact noNull (null ▸ member)
  · exact absent (rejected ▸ member)

end GreenFuzz.Library
