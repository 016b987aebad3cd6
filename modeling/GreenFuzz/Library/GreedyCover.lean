import Mathlib.Data.List.Basic

/-!
# Greedy covers

Every index may have an owner, and owners hit indices. A walk over the indices picks the owner of
each index that no earlier pick hits. If owners hit the indices they own, the picks hit every
owned index (`greedyPicks_covers`).
-/

set_option autoImplicit false

namespace GreenFuzz.Library

variable {α : Type*} (owner : ℕ → Option α) (hits : α → ℕ → Prop) [∀ q i, Decidable (hits q i)]

/-- What a walk over the first indices picks. -/
def greedyPicks : ℕ → List α
  | 0 => []
  | i + 1 =>
      match owner i with
      | none => greedyPicks i
      | some q => if ∃ p ∈ greedyPicks i, hits p i then greedyPicks i else greedyPicks i ++ [q]

variable {owner hits} {count : ℕ}

/-- An index that a pick hits, or that has no owner, adds no pick. -/
theorem greedyPicks_covered
    (covered : owner count ≠ none → ∃ p ∈ greedyPicks owner hits count, hits p count) :
    greedyPicks owner hits (count + 1) = greedyPicks owner hits count := by
  rw [greedyPicks]
  split
  · rfl
  · rename_i q owned
    exact if_pos (covered (by rw [owned]; exact Option.some_ne_none q))

/-- An owned index that no pick hits adds its owner. -/
theorem greedyPicks_uncovered {q : α} (owned : owner count = some q)
    (uncovered : ∀ p ∈ greedyPicks owner hits count, ¬ hits p count) :
    greedyPicks owner hits (count + 1) = greedyPicks owner hits count ++ [q] := by
  simp only [greedyPicks, owned]
  refine if_neg ?_
  rintro ⟨p, member, hit⟩
  exact uncovered p member hit

/-- Picks own indices. -/
theorem exists_owner_of_mem_greedyPicks {q : α} (picked : q ∈ greedyPicks owner hits count) :
    ∃ i < count, owner i = some q := by
  induction count with
  | zero => cases picked
  | succ count ih =>
      have earlier (before : q ∈ greedyPicks owner hits count) :
          ∃ i < count + 1, owner i = some q := by
        obtain ⟨i, below, owned⟩ := ih before
        exact ⟨i, Nat.lt_succ_of_lt below, owned⟩
      rw [greedyPicks] at picked
      split at picked
      · exact earlier picked
      · rename_i p owned
        split at picked
        · exact earlier picked
        · rcases List.mem_append.mp picked with before | now
          · exact earlier before
          · rw [List.mem_singleton.mp now]
            exact ⟨count, Nat.lt_succ_self count, owned⟩

theorem mem_greedyPicks_succ {q : α} (picked : q ∈ greedyPicks owner hits count) :
    q ∈ greedyPicks owner hits (count + 1) := by
  rw [greedyPicks]
  split
  · exact picked
  · split
    · exact picked
    · exact List.mem_append_left _ picked

/-- The picks hit every owned index, if owners hit what they own. -/
theorem greedyPicks_covers (own : ∀ i q, owner i = some q → hits q i) {i : ℕ} (below : i < count)
    (owned : owner i ≠ none) : ∃ p ∈ greedyPicks owner hits count, hits p i := by
  induction count with
  | zero => cases below
  | succ count ih =>
      rcases Nat.lt_succ_iff_lt_or_eq.mp below with earlier | rfl
      · obtain ⟨p, picked, hit⟩ := ih earlier
        exact ⟨p, mem_greedyPicks_succ picked, hit⟩
      · obtain ⟨q, owner_eq⟩ := Option.ne_none_iff_exists'.mp owned
        by_cases covered : ∃ p ∈ greedyPicks owner hits i, hits p i
        · obtain ⟨p, picked, hit⟩ := covered
          exact ⟨p, mem_greedyPicks_succ picked, hit⟩
        · have uncovered : ∀ p ∈ greedyPicks owner hits i, ¬ hits p i :=
            fun p picked hit => covered ⟨p, picked, hit⟩
          rw [greedyPicks_uncovered owner_eq uncovered]
          exact ⟨q, List.mem_append_right _ List.mem_cons_self, own i q owner_eq⟩

end GreenFuzz.Library
