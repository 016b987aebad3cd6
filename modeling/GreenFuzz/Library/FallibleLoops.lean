import GreenFuzz.Library.Fallible
import GreenFuzz.Library.Runs

/-!
# Loops whose rounds may fail

A loop with a guard and a body that may fail. It fails too when its number of rounds is used
up before the guard fails, so a loop with a result has come to its end.

If every round succeeds, keeps an invariant and lowers a measure, the loop succeeds and ends where
the guard fails (`whileSome_invariant`, `Yields.whileOk`). A loop that succeeds does what the same
loop without the checks does (`whileSome_eq_whileLoop`).
-/

set_option autoImplicit false

namespace GreenFuzz.Library

variable {σ α : Type*} {guard : σ → Prop} [DecidablePred guard] {body : σ → Option σ}

/-- `while (guard) body`, for at most the given number of rounds. -/
def whileSome (guard : σ → Prop) [DecidablePred guard] (body : σ → Option σ) : ℕ → σ → Option σ
  | 0, s => if guard s then none else some s
  | rounds + 1, s => if guard s then (body s).bind (whileSome guard body rounds) else some s

theorem whileSome_of_not {rounds : ℕ} {s : σ} (stops : ¬ guard s) :
    whileSome guard body rounds s = some s := by
  cases rounds with
  | zero => exact if_neg stops
  | succ rounds => exact if_neg stops

theorem whileSome_of_guard {rounds : ℕ} {s t : σ} (runs : guard s) (round : body s = some t) :
    whileSome guard body (rounds + 1) s = whileSome guard body rounds t := by
  rw [whileSome, if_pos runs, round, Option.bind_some]

/-- Rounds that succeed, keep the invariant and lower the measure lead to the end. -/
theorem whileSome_invariant {P : σ → Prop} {measure : σ → ℕ}
    (round : ∀ s, P s → guard s → ∃ t, body s = some t ∧ P t ∧ measure t < measure s) {rounds : ℕ}
    {s : σ} (start : P s) (enough : measure s ≤ rounds) :
    ∃ t, whileSome guard body rounds s = some t ∧ P t ∧ ¬ guard t := by
  induction rounds generalizing s with
  | zero =>
      have stops : ¬ guard s := by
        intro runs
        obtain ⟨t, -, -, lower⟩ := round s start runs
        omega
      exact ⟨s, whileSome_of_not stops, start, stops⟩
  | succ rounds ih =>
      by_cases runs : guard s
      · obtain ⟨t, done, keeps, lower⟩ := round s start runs
        rw [whileSome_of_guard runs done]
        exact ih keeps (by omega)
      · exact ⟨s, whileSome_of_not runs, start, runs⟩

/-- A loop that succeeds is the loop without the checks. -/
theorem whileSome_eq_whileLoop {forget : σ → α} {guard' : α → Prop} [DecidablePred guard']
    {body' : α → α} (guards : ∀ s, guard' (forget s) ↔ guard s)
    (rounds_agree : ∀ s t, body s = some t → body' (forget s) = forget t) {rounds : ℕ} {s t : σ}
    (done : whileSome guard body rounds s = some t) :
    whileLoop guard' body' rounds (forget s) = forget t := by
  induction rounds generalizing s with
  | zero =>
      rw [whileSome, Option.ite_none_left_eq_some, Option.some.injEq] at done
      rw [whileLoop, done.2]
  | succ rounds ih =>
      by_cases runs : guard s
      · rw [whileSome, if_pos runs] at done
        obtain ⟨middle, round, rest⟩ := Option.bind_eq_some_iff.mp done
        rw [whileLoop_of_guard ((guards s).mpr runs), rounds_agree s middle round]
        exact ih rest
      · rw [whileSome_of_not runs, Option.some.injEq] at done
        rw [whileLoop_of_not ((guards s).not.mpr runs), done]

/-! ## Loops that fail in different ways -/

section Errors

variable {ε : Type*} {body : σ → Except ε σ} {spent : ε}

/-- `while (guard) body`, which fails with `spent` if its rounds are used up. -/
def whileOk (guard : σ → Prop) [DecidablePred guard] (body : σ → Except ε σ) (spent : ε) :
    ℕ → σ → Except ε σ
  | 0, s => if guard s then .error spent else .ok s
  | rounds + 1, s => if guard s then body s >>= whileOk guard body spent rounds else .ok s

theorem whileOk_of_not {rounds : ℕ} {s : σ} (stops : ¬ guard s) :
    whileOk guard body spent rounds s = .ok s := by
  cases rounds with
  | zero => exact if_neg stops
  | succ rounds => exact if_neg stops

theorem whileOk_of_guard {rounds : ℕ} {s : σ} (runs : guard s) :
    whileOk guard body spent (rounds + 1) s = body s >>= whileOk guard body spent rounds :=
  if_pos runs

/-- Rounds that succeed, keep the invariant and lower the measure lead to the end. -/
theorem Yields.whileOk {P : σ → Prop} {m : σ → ℕ}
    (round : ∀ s, P s → guard s → Yields (body s) fun t => P t ∧ m t < m s)
    {rounds : ℕ} {s : σ} (start : P s) (enough : m s ≤ rounds) :
    Yields (whileOk guard body spent rounds s) fun t => P t ∧ ¬ guard t := by
  induction rounds generalizing s with
  | zero =>
      have stops : ¬ guard s := by
        intro runs
        obtain ⟨t, -, -, lower⟩ := round s start runs
        omega
      exact ⟨s, whileOk_of_not stops, start, stops⟩
  | succ rounds ih =>
      by_cases runs : guard s
      · rw [whileOk_of_guard runs]
        exact (round s start runs).bind fun t kept => ih kept.1 (by omega)
      · exact ⟨s, whileOk_of_not runs, start, runs⟩

end Errors

end GreenFuzz.Library
