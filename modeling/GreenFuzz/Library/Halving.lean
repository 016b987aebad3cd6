import Mathlib.Data.List.Basic
import Mathlib.Order.Nat

/-!
# Halving intervals

An interval of numbers has a start and a size. Its parts are the interval itself and the parts of
its halves, down to single numbers.

A search through the parts keeps a list of intervals that it has not looked at. It takes one out,
and if that is refused, puts its halves in. Whatever the order, every part has been refused or is
below an interval of the list (`Searched`), an interval of `n` numbers costs `2 * n - 1` looks
(`looksLeft_halves`), and when the list is empty all parts have been refused (`Searched.done`).
-/

set_option autoImplicit false

namespace GreenFuzz.Library

/-- `PartOf a n b m`: the interval of size `m` at `b` is a part of the one of size `n` at `a`. -/
inductive PartOf : ℕ → ℕ → ℕ → ℕ → Prop where
  | whole (a n : ℕ) : PartOf a n a n
  | low {a n b m : ℕ} (wide : 1 < n) (below : PartOf a (n / 2) b m) : PartOf a n b m
  | high {a n b m : ℕ} (wide : 1 < n) (below : PartOf (a + n / 2) (n - n / 2) b m) :
      PartOf a n b m

namespace PartOf

variable {a n b m c k : ℕ}

theorem trans (outer : PartOf a n b m) (inner : PartOf b m c k) : PartOf a n c k := by
  induction outer with
  | whole => exact inner
  | low wide _ ih => exact .low wide (ih inner)
  | high wide _ ih => exact .high wide (ih inner)

theorem positive (part : PartOf a n b m) (nonempty : 0 < n) : 0 < m := by
  induction part with
  | whole => exact nonempty
  | low wide _ ih => exact ih (by omega)
  | high wide _ ih => exact ih (by omega)

/-- A part is inside. -/
theorem inside (part : PartOf a n b m) : a ≤ b ∧ b + m ≤ a + n := by
  induction part with
  | whole => exact ⟨le_rfl, le_rfl⟩
  | low wide _ ih => omega
  | high wide _ ih => omega

end PartOf

/-- The halves of an interval that can be halved, the higher one first. -/
def halves (p : ℕ × ℕ) : List (ℕ × ℕ) :=
  if 1 < p.2 then [(p.1 + p.2 / 2, p.2 - p.2 / 2), (p.1, p.2 / 2)] else []

/-- How many looks a list of intervals costs at most. -/
def looksLeft : List (ℕ × ℕ) → ℕ
  | [] => 0
  | p :: pending => 2 * p.2 - 1 + looksLeft pending

theorem looksLeft_append (pending others : List (ℕ × ℕ)) :
    looksLeft (pending ++ others) = looksLeft pending + looksLeft others := by
  induction pending with
  | nil => rw [List.nil_append, looksLeft, Nat.zero_add]
  | cons p pending ih => rw [List.cons_append, looksLeft, looksLeft, ih, Nat.add_assoc]

theorem looksLeft_middle (left right : List (ℕ × ℕ)) (p : ℕ × ℕ) :
    looksLeft (left ++ p :: right) = looksLeft (p :: (left ++ right)) := by
  rw [looksLeft_append, looksLeft, looksLeft, looksLeft_append]
  omega

/-- A look at an interval is paid for. -/
theorem looksLeft_halves (p : ℕ × ℕ) (positive : 0 < p.2) :
    looksLeft (halves p) + 1 = 2 * p.2 - 1 := by
  rw [halves]
  split
  · simp only [looksLeft]
    omega
  · rw [looksLeft]
    omega

/-- A search has come so far: every part has been refused or is below an interval that is left. -/
structure Searched (a n : ℕ) (Refused : ℕ → ℕ → Prop) (pending : List (ℕ × ℕ)) : Prop where
  parts : ∀ p ∈ pending, PartOf a n p.1 p.2
  settled : ∀ b m, PartOf a n b m → Refused b m ∨ ∃ p ∈ pending, PartOf p.1 p.2 b m

namespace Searched

variable {a n : ℕ} {Refused : ℕ → ℕ → Prop} {pending others : List (ℕ × ℕ)} {p : ℕ × ℕ}

theorem start : Searched a n Refused [(a, n)] where
  parts := List.forall_mem_singleton.mpr (.whole a n)
  settled _ _ part := Or.inr ⟨(a, n), List.mem_singleton_self _, part⟩

theorem perm (same : pending.Perm others) (searched : Searched a n Refused pending) :
    Searched a n Refused others where
  parts p member := searched.parts p (same.mem_iff.mpr member)
  settled b m part := by
    rcases searched.settled b m part with refused | ⟨p, member, below⟩
    · exact Or.inl refused
    · exact Or.inr ⟨p, same.mem_iff.mp member, below⟩

/-- An interval is refused. -/
theorem refuse (searched : Searched a n Refused (p :: pending)) (refused : Refused p.1 p.2) :
    Searched a n Refused (halves p ++ pending) where
  parts := by
    obtain ⟨part, rest⟩ := List.forall_mem_cons.mp searched.parts
    refine List.forall_mem_append.mpr ⟨?_, rest⟩
    rw [halves]
    split
    next wide =>
        refine List.forall_mem_cons.mpr ⟨?_, List.forall_mem_singleton.mpr ?_⟩
        · exact part.trans (.high wide (.whole _ _))
        · exact part.trans (.low wide (.whole _ _))
    next => exact List.forall_mem_nil _
  settled b m part := by
    rcases searched.settled b m part with earlier | ⟨q, member, below⟩
    · exact Or.inl earlier
    rcases List.mem_cons.mp member with rfl | later
    · cases below with
      | whole => exact Or.inl refused
      | low wide below =>
          refine Or.inr ⟨(q.1, q.2 / 2), List.mem_append_left _ ?_, below⟩
          rw [halves, if_pos wide]
          exact List.mem_cons_of_mem _ (List.mem_singleton_self _)
      | high wide below =>
          refine Or.inr ⟨(q.1 + q.2 / 2, q.2 - q.2 / 2), List.mem_append_left _ ?_, below⟩
          rw [halves, if_pos wide]
          exact List.mem_cons_self
    · exact Or.inr ⟨q, List.mem_append_right _ later, below⟩

/-- Nothing is left. -/
theorem done (searched : Searched a n Refused []) {b m : ℕ} (part : PartOf a n b m) :
    Refused b m := by
  rcases searched.settled b m part with refused | ⟨p, member, -⟩
  · exact refused
  · cases member

end Searched

end GreenFuzz.Library
