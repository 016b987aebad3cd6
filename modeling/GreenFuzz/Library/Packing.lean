import GreenFuzz.Library.ByteWords

/-!
# Packed items in a file

A file is a list of bytes. An item of `w` bytes is written little-endian, and a list of items
one after the other. Items that were written at a position are read back from it, whatever is
written before and after (`Packed.readAt`).
-/

set_option autoImplicit false

namespace GreenFuzz.Library

/-- The `w` bytes of an item, least significant first. -/
def itemBytes : ℕ → ℕ → List Byte
  | 0, _ => []
  | w + 1, item => BitVec.ofNat 8 item :: itemBytes w (item / 256)

/-- The item that bytes are read as. -/
def itemOf : List Byte → ℕ
  | [] => 0
  | byte :: bytes => byte.toNat + 256 * itemOf bytes

/-- The bytes of a list of items. -/
def packItems (w : ℕ) (items : List ℕ) : List Byte := items.flatMap (itemBytes w)

/-- Read items from the start of a file, unless it ends too early. -/
def readItems (w : ℕ) : ℕ → List Byte → Option (List ℕ)
  | 0, _ => some []
  | count + 1, file =>
      if w ≤ file.length then
        (readItems w count (file.drop w)).map fun items => itemOf (file.take w) :: items
      else none

/-- Read items from a position of a file. -/
def readAt (w : ℕ) (file : List Byte) (pos count : ℕ) : Option (List ℕ) :=
  readItems w count (file.drop pos)

variable {w : ℕ}

@[simp] theorem length_itemBytes (w item : ℕ) : (itemBytes w item).length = w := by
  induction w generalizing item with
  | zero => rfl
  | succ w ih => rw [itemBytes, List.length_cons, ih]

theorem itemOf_itemBytes {item : ℕ} (fits : item < 256 ^ w) : itemOf (itemBytes w item) = item := by
  induction w generalizing item with
  | zero =>
      rw [pow_zero, Nat.lt_one_iff] at fits
      rw [fits]
      rfl
  | succ w ih =>
      have quotient : item / 256 < 256 ^ w := by
        rw [pow_succ] at fits
        exact Nat.div_lt_of_lt_mul (by rwa [Nat.mul_comm])
      rw [itemBytes, itemOf, ih quotient, BitVec.toNat_ofNat]
      exact Nat.mod_add_div item 256

theorem length_packItems (w : ℕ) (items : List ℕ) :
    (packItems w items).length = items.length * w := by
  induction items with
  | nil => simp [packItems]
  | cons item items ih =>
      rw [packItems, List.flatMap_cons, List.length_append, length_itemBytes, List.length_cons,
        Nat.succ_mul, Nat.add_comm]
      exact congrArg (· + w) ih

/-- Items are read back from the start of a file. -/
theorem readItems_packItems {items : List ℕ} (fit : ∀ item ∈ items, item < 256 ^ w)
    (rest : List Byte) : readItems w items.length (packItems w items ++ rest) = some items := by
  induction items with
  | nil => rfl
  | cons item items ih =>
      have tail := ih fun later member => fit later (List.mem_cons_of_mem item member)
      have front : packItems w (item :: items) ++ rest =
          itemBytes w item ++ (packItems w items ++ rest) := by
        rw [packItems, List.flatMap_cons, List.append_assoc]
        rfl
      have width := length_itemBytes w item
      have enough : w ≤ (itemBytes w item ++ (packItems w items ++ rest)).length := by
        rw [List.length_append, width]
        exact Nat.le_add_right _ _
      rw [front, List.length_cons, readItems, if_pos enough, List.drop_left' width,
        List.take_left' width, tail, itemOf_itemBytes (fit item List.mem_cons_self)]
      rfl

/-- The items were written to the file at the position. -/
def Packed (w : ℕ) (file : List Byte) (pos : ℕ) (items : List ℕ) : Prop :=
  ∃ front rest, file = front ++ packItems w items ++ rest ∧ pos = front.length

/-- Items that are written at the end of a file. -/
theorem Packed.append (file : List Byte) (items : List ℕ) :
    Packed w (file ++ packItems w items) file.length items :=
  ⟨file, [], (List.append_nil _).symm, rfl⟩

/-- What is written later keeps the items. -/
theorem Packed.extend {file : List Byte} {pos : ℕ} {items : List ℕ}
    (packed : Packed w file pos items)
    (more : List Byte) : Packed w (file ++ more) pos items := by
  obtain ⟨front, rest, rfl, rfl⟩ := packed
  exact ⟨front, rest ++ more, List.append_assoc _ _ _, rfl⟩

/-- The items are read back. -/
theorem Packed.readAt {file : List Byte} {pos : ℕ} {items : List ℕ}
    (packed : Packed w file pos items)
    (fit : ∀ item ∈ items, item < 256 ^ w) :
    Library.readAt w file pos items.length = some items := by
  obtain ⟨front, rest, rfl, rfl⟩ := packed
  rw [Library.readAt, List.append_assoc, List.drop_left]
  exact readItems_packItems fit rest

end GreenFuzz.Library
