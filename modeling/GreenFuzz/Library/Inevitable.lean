import Mathlib.Logic.Relation
import Mathlib.Order.WellFounded

/-!
# What every run comes to

A step relation is nondeterministic: the interleaving of two processes, and the
way a transfer is split, are choices of the steps. A property is inevitable from
a state when every run from there, continued for as long as a step is possible,
comes to a state that has it. A run that gets stuck elsewhere refutes it
(`Inevitable.not_of_stuck`), and so does a set of states that a run need not leave
(`Inevitable.not_of_trap`).

Inevitability is proved by an invariant and a measure: where the property does
not hold yet some step is possible, and every step from there keeps the
invariant and lowers the measure (`Inevitable.of_measure`).
-/

set_option autoImplicit false

namespace GreenFuzz.Library

variable {σ : Type*} {step : σ → σ → Prop} {P Q : σ → Prop}

/-- Every run from the state comes to a state with the property. -/
inductive Inevitable (step : σ → σ → Prop) (P : σ → Prop) : σ → Prop where
  | now {s : σ} : P s → Inevitable step P s
  | later {s : σ} : (∃ t, step s t) → (∀ t, step s t → Inevitable step P t) →
      Inevitable step P s

/-- An invariant under which, until the property holds, some step is possible and every
step keeps the invariant and lowers a measure makes the property inevitable. -/
theorem Inevitable.of_measure {β : Type*} [Preorder β] [WellFoundedLT β] (Inv : σ → Prop)
    (measure : σ → β)
    (advances : ∀ s, Inv s → P s ∨
      ((∃ t, step s t) ∧ ∀ t, step s t → Inv t ∧ measure t < measure s)) {s : σ} (start : Inv s) :
    Inevitable step P s := by
  induction s using (InvImage.wf measure wellFounded_lt).induction with
  | _ s ih =>
      rcases advances s start with holds | ⟨moves, keeps⟩
      · exact .now holds
      · refine .later moves fun t taken => ?_
        obtain ⟨still, lower⟩ := keeps t taken
        exact ih t lower still

/-- Some run comes to a state with what is inevitable. -/
theorem Inevitable.exists_run {s : σ} (comes : Inevitable step P s) :
    ∃ t, Relation.ReflTransGen step s t ∧ P t := by
  induction comes with
  | now holds => exact ⟨_, .refl, holds⟩
  | later moves _ ih =>
      obtain ⟨t, taken⟩ := moves
      obtain ⟨u, rest, holds⟩ := ih t taken
      exact ⟨u, .head taken rest, holds⟩

/-- A run along which the property never holds, and which cannot go on, refutes that
the property is inevitable. -/
theorem Inevitable.not_of_stuck {s t : σ}
    (run : Relation.ReflTransGen (fun u v => ¬ P u ∧ step u v) s t) (never : ¬ P t)
    (stuck : ∀ u, ¬ step t u) : ¬ Inevitable step P s := by
  induction run using Relation.ReflTransGen.head_induction_on with
  | refl =>
      intro comes
      cases comes with
      | now holds => exact never holds
      | later moves _ => exact moves.elim stuck
  | head taken _ ih =>
      intro comes
      cases comes with
      | now holds => exact taken.1 holds
      | later _ next => exact ih (next _ taken.2)

/-- States without the property from which, if a step is possible at all, some step leads to
another such state: the property is not inevitable there. -/
theorem Inevitable.not_of_trap (Trap : σ → Prop)
    (stays : ∀ s, Trap s → ¬ P s ∧ ∀ t, step s t → ∃ u, step s u ∧ Trap u) {s : σ}
    (trapped : Trap s) : ¬ Inevitable step P s := by
  intro comes
  induction comes with
  | now holds => exact (stays _ trapped).1 holds
  | later moves _ ih =>
      obtain ⟨t, taken⟩ := moves
      obtain ⟨u, taken, still⟩ := (stays _ trapped).2 t taken
      exact ih u taken still

end GreenFuzz.Library
