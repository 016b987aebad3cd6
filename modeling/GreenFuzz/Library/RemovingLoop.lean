import GreenFuzz.Library.Runs
import Mathlib.Data.List.Chain
import Mathlib.Data.List.Nodup

/-!
# Removing items in a loop over the same list

A loop that goes through a list by the index and removes items from this list on the way. Where it
removes an item, the next one moves to the index that is done, and the loop passes over it. So of
items in a row that should be removed, every second one stays (`overlooked`).
-/

set_option autoImplicit false

namespace GreenFuzz.Library

variable {α : Type*} (p : α → Bool)

/-- One round: the first item that is equal to the current one is removed, if it should be. -/
def removeRound [DecidableEq α] (s : ℕ × List α) : ℕ × List α :=
  (s.1 + 1, (s.2[s.1]?).elim s.2 fun item => if p item then s.2.erase item else s.2)

/-- `for item in items: if p(item): items.remove(item)`. -/
def removeLoop [DecidableEq α] (items : List α) : List α :=
  (whileLoop (fun s => s.1 < s.2.length) (removeRound p) items.length (0, items)).2

/-- What the loop leaves of the items from an index on. -/
def leftOver : List α → List α
  | [] => []
  | [item] => if p item then [] else [item]
  | item :: next :: items =>
      if p item then next :: leftOver items else item :: leftOver (next :: items)

/-- The items that should be removed and stay. -/
def overlooked : List α → List α
  | [] => []
  | [_] => []
  | item :: next :: items =>
      if p item then if p next then next :: overlooked items else overlooked items
      else overlooked (next :: items)

variable {p} {items earlier : List α} {item : α} {rounds : ℕ}

theorem leftOver_cons_of_not (stays : p item = false) :
    leftOver p (item :: items) = item :: leftOver p items := by
  cases items with
  | nil => simp [leftOver, stays]
  | cons next items => simp [leftOver, stays]

theorem removeRound_at [DecidableEq α] (new : item ∉ earlier) :
    removeRound p (earlier.length, earlier ++ item :: items) =
      (earlier.length + 1, if p item then earlier ++ items else earlier ++ item :: items) := by
  have read : (earlier ++ item :: items)[earlier.length]? = some item := by
    rw [List.getElem?_append_right (Nat.le_refl _), Nat.sub_self]
    rfl
  unfold removeRound
  dsimp only
  rw [read, Option.elim_some, List.erase_append_right _ new, List.erase_cons_head]

/-- The loop from an index on leaves the items before it alone. -/
theorem whileLoop_removeRound [DecidableEq α] (distinct : (earlier ++ items).Nodup)
    (enough : items.length ≤ rounds) :
    (whileLoop (fun s => s.1 < s.2.length) (removeRound p) rounds
      (earlier.length, earlier ++ items)).2 = earlier ++ leftOver p items := by
  induction rounds generalizing earlier items with
  | zero =>
      obtain rfl : items = [] := List.eq_nil_of_length_eq_zero (Nat.le_zero.mp enough)
      rfl
  | succ rounds ih =>
      cases items with
      | nil =>
          rw [whileLoop_of_not (by simp)]
          rfl
      | cons item items =>
          have new : item ∉ earlier := fun old =>
            (List.nodup_append'.mp distinct).2.2 old List.mem_cons_self
          have guard : earlier.length < (earlier ++ item :: items).length := by simp
          rw [whileLoop, if_pos guard, removeRound_at new]
          cases removed : p item with
          | false =>
              rw [if_neg Bool.false_ne_true, leftOver_cons_of_not removed]
              have shift : earlier ++ item :: items = (earlier ++ [item]) ++ items := by simp
              have length : earlier.length + 1 = (earlier ++ [item]).length := by simp
              rw [shift] at distinct ⊢
              rw [length, ih distinct (Nat.le_of_succ_le_succ enough), List.append_assoc]
              rfl
          | true =>
              rw [if_pos rfl]
              cases items with
              | nil =>
                  rw [whileLoop_of_not (by simp), leftOver, removed]
                  rfl
              | cons next items =>
                  -- The next item has moved to the index of the removed one.
                  have shift : earlier ++ next :: items = (earlier ++ [next]) ++ items := by simp
                  have length : earlier.length + 1 = (earlier ++ [next]).length := by simp
                  have rest : ((earlier ++ [next]) ++ items).Nodup := by
                    rw [← shift]
                    exact distinct.sublist (by simp)
                  rw [shift, length, ih rest (by simp at enough; omega), leftOver, removed,
                    List.append_assoc]
                  rfl

/-- **What the loop leaves**, of a list whose items differ. -/
theorem removeLoop_eq [DecidableEq α] (distinct : items.Nodup) :
    removeLoop p items = leftOver p items := by
  have start : ([] ++ items).Nodup := distinct
  exact whileLoop_removeRound start (Nat.le_refl _)

theorem leftOver_sublist (p : α → Bool) (items : List α) : (leftOver p items).Sublist items := by
  fun_induction leftOver p items with
  | case1 => exact .slnil
  | case2 item removed => exact List.nil_sublist _
  | case3 item stays => exact List.Sublist.refl _
  | case4 item next items removed ih => exact (ih.cons_cons next).cons item
  | case5 item next items stays ih => exact ih.cons_cons item

theorem overlooked_sublist (p : α → Bool) (items : List α) :
    (overlooked p items).Sublist items := by
  fun_induction overlooked p items with
  | case1 => exact .slnil
  | case2 item => exact List.nil_sublist _
  | case3 item next items removed also ih => exact (ih.cons_cons next).cons item
  | case4 item next items removed stays ih => exact (ih.cons next).cons item
  | case5 item next items stays ih => exact ih.cons item

/-- An overlooked item should have been removed. -/
theorem of_mem_overlooked (member : item ∈ overlooked p items) : p item = true := by
  fun_induction overlooked p items with
  | case1 => cases member
  | case2 item => cases member
  | case3 item next items removed also ih =>
      rcases List.mem_cons.mp member with rfl | later
      · exact also
      · exact ih later
  | case4 item next items removed stays ih => exact ih member
  | case5 item next items stays ih => exact ih member

/-- **An item is left exactly if it should not be removed or is overlooked.** -/
theorem mem_leftOver_iff : item ∈ leftOver p items ↔
    (item ∈ items ∧ p item = false) ∨ item ∈ overlooked p items := by
  fun_induction leftOver p items with
  | case1 => simp [overlooked]
  | case2 other removed =>
      simp only [overlooked, List.not_mem_nil, or_false, List.mem_singleton, false_iff]
      rintro ⟨rfl, stays⟩
      rw [removed] at stays
      cases stays
  | case3 other stays =>
      simp only [overlooked, List.not_mem_nil, or_false, List.mem_singleton]
      exact ⟨fun same => ⟨same, by simpa [same] using stays⟩, And.left⟩
  | case4 other next items removed ih =>
      rw [overlooked, if_pos removed]
      split
      · grind
      · grind
  | case5 other next items stays ih =>
      rw [overlooked, if_neg stays]
      grind

end GreenFuzz.Library
