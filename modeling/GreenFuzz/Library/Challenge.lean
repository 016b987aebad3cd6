import Mathlib.Order.Defs.Unbundled
import Mathlib.Data.List.Basic

/-!
# A champion under a partial comparison

Challengers come one after the other, and each takes the place of the champion when it
is at least as good. The comparison need not be total. If it is a preorder, no challenger
is strictly better than the last champion (`foldl_challenge_undominated`).
-/

set_option autoImplicit false

namespace GreenFuzz.Library

variable {α : Type*} (atLeast : α → α → Prop) [DecidableRel atLeast]

/-- One challenge: `c` replaces a champion that it is at least as good as. -/
def challenge (champion : Option α) (c : α) : Option α :=
  match champion with
  | none => some c
  | some t => if atLeast c t then some c else some t

variable {atLeast}

/-- After a challenge the challenger does not strictly beat the champion, and the champion is
at least as good as the one before. -/
theorem challenge_spec (reflexive : ∀ a, atLeast a a) (champion : Option α) (c : α) :
    ∃ w, challenge atLeast champion c = some w ∧ (atLeast c w → atLeast w c) ∧
      ∀ t, champion = some t → atLeast w t := by
  cases champion with
  | none => exact ⟨c, rfl, id, nofun⟩
  | some t =>
      by_cases better : atLeast c t
      · refine ⟨c, if_pos better, id, ?_⟩
        intro first same
        cases same
        exact better
      · refine ⟨t, if_neg better, fun beats => absurd beats better, ?_⟩
        intro first same
        cases same
        exact reflexive t

/-- **The last champion is undominated** by the challengers, and at least as good as the first
champion. -/
theorem foldl_challenge_undominated (reflexive : ∀ a, atLeast a a)
    (transitive : ∀ a b c, atLeast a b → atLeast b c → atLeast a c) (items : List α)
    (champion : Option α) :
    (∀ c ∈ items, ∃ w, items.foldl (challenge atLeast) champion = some w ∧
      (atLeast c w → atLeast w c)) ∧
    ∀ t, champion = some t → ∃ w, items.foldl (challenge atLeast) champion = some w ∧
      atLeast w t := by
  induction items generalizing champion with
  | nil => exact ⟨nofun, fun t first => ⟨t, first, reflexive t⟩⟩
  | cons c items ih =>
      obtain ⟨w, won, beats, improves⟩ := challenge_spec reflexive champion c
      obtain ⟨later, kept⟩ := ih (challenge atLeast champion c)
      obtain ⟨last, ends, better⟩ := kept w won
      rw [List.foldl_cons]
      constructor
      · intro d member
        rcases List.mem_cons.mp member with rfl | member
        · refine ⟨last, ends, fun beaten => ?_⟩
          -- the challenger beats the last champion, so it beat the one it met
          exact transitive _ _ _ better (beats (transitive _ _ _ beaten better))
        · exact later d member
      · intro t first
        exact ⟨last, ends, transitive _ _ _ better (improves t first)⟩

end GreenFuzz.Library
