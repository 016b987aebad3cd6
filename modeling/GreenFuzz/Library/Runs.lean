import Mathlib.Data.List.Basic
import Mathlib.Logic.Function.Iterate

/-!
# Runs of a transition system and invariants of loops

A transition system is a set of initial states and a step relation. A state is
reachable when some run from an initial state ends in it. What holds initially
and is kept by every step from a reachable state holds in every reachable state
(`Reachable.invariant`).

A counted loop is a left fold over `List.range`. A property indexed by the loop
counter that one round carries from `i` to `i + 1` is carried over the whole loop
(`foldl_range_invariant`). A loop with a guard is `whileLoop`. If its body simulates a step
that does nothing where the guard fails, the loop simulates the iterated step
(`whileLoop_simulates`).
-/

set_option autoImplicit false

namespace GreenFuzz.Library

/-- A transition system on states `σ`. -/
structure TransitionSystem (σ : Type*) where
  init : σ → Prop
  step : σ → σ → Prop

/-- The states that runs of the system end in. -/
inductive Reachable {σ : Type*} (T : TransitionSystem σ) : σ → Prop where
  | init {s : σ} : T.init s → Reachable T s
  | step {s t : σ} : Reachable T s → T.step s t → Reachable T t

variable {σ α : Type*}

/-- A property of the initial states that every step from a reachable state keeps
holds of every reachable state. -/
theorem Reachable.invariant {T : TransitionSystem σ} {P : σ → Prop}
    (start : ∀ s, T.init s → P s)
    (keeps : ∀ s t, Reachable T s → P s → T.step s t → P t) {s : σ} (run : Reachable T s) :
    P s := by
  induction run with
  | init initial => exact start _ initial
  | step before taken ih => exact keeps _ _ before ih taken

/-- A property of the counter and the state that each round of a loop carries to
the next counter holds at the end of the loop. -/
theorem foldl_range_invariant {P : ℕ → σ → Prop} {round : σ → ℕ → σ} {count : ℕ} {s : σ}
    (start : P 0 s) (carries : ∀ i < count, ∀ s, P i s → P (i + 1) (round s i)) :
    P count ((List.range count).foldl round s) := by
  induction count with
  | zero => exact start
  | succ count ih =>
      rw [List.range_succ, List.foldl_append, List.foldl_cons, List.foldl_nil]
      refine carries count (Nat.lt_succ_self _) _ (ih fun i below => ?_)
      exact carries i (Nat.lt_succ_of_lt below)

/-- A property that every round of a loop over a list keeps holds at its end. -/
theorem foldl_invariant {P : σ → Prop} {round : σ → α → σ} {items : List α} {s : σ}
    (start : P s) (keeps : ∀ item ∈ items, ∀ s, P s → P (round s item)) :
    P (items.foldl round s) := by
  induction items generalizing s with
  | nil => exact start
  | cons item items ih =>
      exact ih (keeps item List.mem_cons_self s start)
        fun later member => keeps later (List.mem_cons_of_mem _ member)

/-- `while (guard) body`, for at most the given number of rounds. -/
def whileLoop (guard : σ → Prop) [DecidablePred guard] (body : σ → σ) : ℕ → σ → σ
  | 0, state => state
  | rounds + 1, state => if guard state then whileLoop guard body rounds (body state) else state

/-- A loop whose guard fails does nothing. -/
theorem whileLoop_of_not {guard : σ → Prop} [DecidablePred guard] {body : σ → σ} {rounds : ℕ}
    {s : σ} (stops : ¬ guard s) : whileLoop guard body rounds s = s := by
  cases rounds with
  | zero => rfl
  | succ rounds => exact if_neg stops

theorem whileLoop_of_guard {guard : σ → Prop} [DecidablePred guard] {body : σ → σ} {rounds : ℕ}
    {s : σ} (runs : guard s) :
    whileLoop guard body (rounds + 1) s = whileLoop guard body rounds (body s) :=
  if_pos runs

/-- A loop simulates the iteration of the step that its body simulates. -/
theorem whileLoop_simulates {guard : σ → Prop} [DecidablePred guard] {body : σ → σ}
    {R : σ → α → Prop} {step : α → α} (busy : ∀ s a, R s a → guard s → R (body s) (step a))
    (idle : ∀ s a, R s a → ¬ guard s → step a = a) (rounds : ℕ) {s : σ} {a : α}
    (related : R s a) : R (whileLoop guard body rounds s) (step^[rounds] a) := by
  induction rounds generalizing s a with
  | zero => exact related
  | succ rounds ih =>
      by_cases runs : guard s
      · rw [whileLoop_of_guard runs, Function.iterate_succ_apply]
        exact ih (busy s a related runs)
      · rw [whileLoop_of_not runs, Function.iterate_fixed (idle s a related runs)]
        exact related

end GreenFuzz.Library
