import Mathlib.Tactic.Common

/-!
# Computations that must not go wrong

A computation works on a state, takes values from a supply, and may halt: because the
supply is used up, or at a fault, when it does what it must not do. It is safe at a
state with a postcondition if it never comes to a fault, whatever the supply is, and
the postcondition holds of what it returns (`Safe`).

The rules follow the program: a step that is allowed and the rest are safe if the rest
is (`Safe.attempt_bind`), a value from the supply may be anything its range admits
(`Safe.bind`, `Safe.mono`).

What follows from the safety of a computation is shown along one of its runs (`Reaches`): what
comes next is safe (`Safe.after`), what is done is allowed (`Safe.allowed`), and the
postcondition holds at the end (`Safe.of_reaches`).
-/

set_option autoImplicit false

namespace GreenFuzz.Library

variable {σ δ α β : Type}

/-- Why a computation returns nothing. -/
inductive Halt where
  | exhausted | fault
  deriving DecidableEq, Repr

/-- A computation on a state, with a supply of values. -/
abbrev Checked (σ δ α : Type) := StateT σ (StateT δ (Except Halt)) α

/-- Do a step that must be allowed. -/
def attempt (allowed : σ → Prop) [DecidablePred allowed] (step : σ → α × σ) : Checked σ δ α :=
  fun s supply => if allowed s then .ok (step s, supply) else .error .fault

/-- Use what can be taken from the supply. -/
def takeFrom (take : δ → Option (α × δ)) : Checked σ δ α := fun s supply =>
  match take supply with
  | none => .error .exhausted
  | some (a, rest) => .ok ((a, s), rest)

/-- Take the next value of a list. -/
def takeHead {ε : Type} : Checked σ (List ε) ε := takeFrom fun supply =>
  match supply with
  | [] => none
  | value :: rest => some (value, rest)

/-- Stop without a fault. -/
def giveUp : Checked σ δ α := fun _ _ => .error .exhausted

/-- A result without a fault, of which the postcondition holds. -/
def Fine (post : α → σ → Prop) : Except Halt ((α × σ) × δ) → Prop
  | .ok ((a, s'), _) => post a s'
  | .error halt => halt = .exhausted

/-- No fault at this state, and the postcondition holds of what is returned. -/
structure Safe (m : Checked σ δ α) (s : σ) (post : α → σ → Prop) : Prop where
  fine : ∀ supply, Fine post (m s supply)

namespace Safe

variable {m : Checked σ δ α} {next : α → Checked σ δ β} {s : σ}
  {post : β → σ → Prop} {P : α → σ → Prop}

theorem pure {a : α} (holds : P a s) : Safe (Pure.pure a : Checked σ δ α) s P :=
  ⟨fun _ => holds⟩

theorem giveUp : Safe (Library.giveUp : Checked σ δ α) s P := ⟨fun _ => rfl⟩

/-- What is safe halts only if the supply is used up. -/
theorem exhausted (safe : Safe m s P) {supply : δ} {halt : Halt}
    (run : m s supply = .error halt) : halt = .exhausted := by
  have fine := safe.fine supply
  rwa [run] at fine

/-- The postcondition holds of what is returned. -/
theorem returned (safe : Safe m s P) {supply left : δ} {a : α} {s' : σ}
    (run : m s supply = .ok ((a, s'), left)) : P a s' := by
  have fine := safe.fine supply
  rwa [run] at fine

theorem bind (first : Safe m s P) (rest : ∀ a s', P a s' → Safe (next a) s' post) :
    Safe (m >>= next) s post := by
  refine ⟨fun supply => ?_⟩
  simp only [Bind.bind, StateT.bind]
  cases run : m s supply with
  | error halt => exact first.exhausted run
  | ok result => exact (rest _ _ (first.returned run)).fine result.2

theorem mono {weaker : α → σ → Prop} (safe : Safe m s P)
    (weakens : ∀ a s', P a s' → weaker a s') : Safe m s weaker := by
  refine ⟨fun supply => ?_⟩
  cases run : m s supply with
  | error halt => exact safe.exhausted run
  | ok result => exact weakens _ _ (safe.returned run)

/-- A step that is allowed. -/
theorem attempt {allowed : σ → Prop} [DecidablePred allowed] {step : σ → α × σ} (may : allowed s)
    (holds : P (step s).1 (step s).2) :
    Safe (Library.attempt allowed step : Checked σ δ α) s P := by
  refine ⟨fun supply => ?_⟩
  simp only [Library.attempt, if_pos may]
  exact holds

/-- A step that is allowed, and the rest. -/
theorem attempt_bind {allowed : σ → Prop} [DecidablePred allowed] {step : σ → α × σ}
    (may : allowed s) (rest : Safe (next (step s).1) (step s).2 post) :
    Safe (Library.attempt allowed step >>= next) s post :=
  bind (attempt (P := fun a s' => a = (step s).1 ∧ s' = (step s).2) may ⟨rfl, rfl⟩)
    fun _ _ same => same.1 ▸ same.2 ▸ rest

/-- The values that can be taken from the supply. -/
theorem takeFrom {take : δ → Option (α × δ)}
    (holds : ∀ supply a rest, take supply = some (a, rest) → P a s) :
    Safe (Library.takeFrom take : Checked σ δ α) s P := by
  refine ⟨fun supply => ?_⟩
  simp only [Library.takeFrom]
  cases taken : take supply with
  | none => rfl
  | some result => exact holds supply result.1 result.2 taken

end Safe

/-! ## Runs -/

section Runs

variable {m : Checked σ δ α} {next : α → Checked σ δ β} {s s' : σ} {supply rest : δ} {a : α}

theorem run_bind (run : m s supply = .ok ((a, s'), rest)) :
    (m >>= next) s supply = next a s' rest := by
  simp only [Bind.bind, StateT.bind, run, Except.bind]

theorem run_bind_error {halt : Halt} (run : m s supply = .error halt) :
    (m >>= next) s supply = .error halt := by
  simp only [Bind.bind, StateT.bind, run, Except.bind]

theorem run_attempt {allowed : σ → Prop} [DecidablePred allowed] {step : σ → α × σ}
    (may : allowed s) : attempt allowed step s supply = .ok (step s, supply) := if_pos may

end Runs

/-! ## Runs that can happen -/

section Possible

variable {ε : Type} {m : Checked σ (List ε) α} {next : α → Checked σ (List ε) β} {s t u : σ}
  {a : α} {b : β}

/-- Some values lead to this result and this state, whatever comes after them. -/
def Reaches (m : Checked σ (List ε) α) (s : σ) (a : α) (t : σ) : Prop :=
  ∃ given, ∀ left, m s (given ++ left) = .ok ((a, t), left)

theorem Reaches.pure : Reaches (Pure.pure a : Checked σ (List ε) α) s a s := ⟨[], fun _ => rfl⟩

theorem Reaches.bind (first : Reaches m s a t) (rest : Reaches (next a) t b u) :
    Reaches (m >>= next) s b u := by
  obtain ⟨given, run⟩ := first
  obtain ⟨more, run_rest⟩ := rest
  refine ⟨given ++ more, fun left => ?_⟩
  rw [List.append_assoc, run_bind (run (more ++ left))]
  exact run_rest left

theorem Reaches.attempt {allowed : σ → Prop} [DecidablePred allowed] {step : σ → α × σ}
    (may : allowed s) :
    Reaches (Library.attempt allowed step : Checked σ (List ε) α) s (step s).1 (step s).2 :=
  ⟨[], fun _ => run_attempt may⟩

theorem Reaches.takeHead (value : ε) : Reaches (takeHead : Checked σ (List ε) ε) s value s :=
  ⟨[value], fun _ => rfl⟩

/-- Two parts of a run. -/
theorem Reaches.attempt_bind {allowed : σ → Prop} [DecidablePred allowed] {step : σ → α × σ}
    (may : allowed s) (rest : Reaches (next (step s).1) (step s).2 b u) :
    Reaches (Library.attempt allowed step >>= next) s b u := (Reaches.attempt may).bind rest

namespace Safe

variable {post : α → σ → Prop} {post' : β → σ → Prop}

theorem of_reaches (safe : Safe m s post) (reaches : Reaches m s a t) : post a t := by
  obtain ⟨given, run⟩ := reaches
  exact safe.returned (run [])

/-- What is safe is safe after its first part. -/
theorem after (safe : Safe (m >>= next) s post') (reaches : Reaches m s a t) :
    Safe (next a) t post' := by
  obtain ⟨given, run⟩ := reaches
  refine ⟨fun supply => ?_⟩
  have fine := safe.fine (given ++ supply)
  rwa [run_bind (run supply)] at fine

/-- The first part of what is safe. -/
theorem first (safe : Safe (m >>= next) s post') : Safe m s fun _ _ => True := by
  refine ⟨fun supply => ?_⟩
  cases run : m s supply with
  | error halt => exact safe.exhausted (run_bind_error run)
  | ok result => trivial

/-- What holds before the rest, in every run. -/
theorem before (safe : Safe (m >>= next) s post')
    (holds : ∀ a t left, Fine post' (next a t left) → post a t) : Safe m s post := by
  refine ⟨fun supply => ?_⟩
  cases run : m s supply with
  | error halt => exact safe.exhausted (run_bind_error run)
  | ok result =>
      have fine := safe.fine supply
      rw [run_bind run] at fine
      exact holds _ _ _ fine

/-- Only what is allowed is safe. -/
theorem allowed {allowed : σ → Prop} [DecidablePred allowed] {step : σ → α × σ}
    (safe : Safe (Library.attempt allowed step : Checked σ (List ε) α) s post) : allowed s := by
  by_contra may_not
  have fine := safe.fine []
  rw [Library.attempt, if_neg may_not] at fine
  cases fine

end Safe

end Possible

end GreenFuzz.Library
