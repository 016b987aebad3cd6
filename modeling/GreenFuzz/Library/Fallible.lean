import Mathlib.Data.List.Basic

/-!
# Fallible computations

When a sequence of two computations in `Except` succeeds, and when it fails. What every round of
a counted loop carries to the next counter holds when the loop succeeds. A computation meets a
postcondition if it succeeds with it (`Yields`), or if it may also fail in the ways that are
allowed (`Meets`).
-/

set_option autoImplicit false

namespace GreenFuzz.Library

universe u v

variable {ε : Type u} {α β : Type v}

/-- A sequence succeeds when both parts do. -/
theorem bind_eq_ok_iff {x : Except ε α} {f : α → Except ε β} {b : β} :
    x >>= f = .ok b ↔ ∃ a, x = .ok a ∧ f a = .ok b := by
  constructor
  · intro done
    cases x with
    | error e => cases done
    | ok a => exact ⟨a, rfl, done⟩
  · rintro ⟨a, rfl, done⟩
    exact done

/-- A sequence fails when the first part does, or when the second does after it. -/
theorem bind_eq_error_iff {x : Except ε α} {f : α → Except ε β} {e : ε} :
    x >>= f = .error e ↔ x = .error e ∨ ∃ a, x = .ok a ∧ f a = .error e := by
  constructor
  · intro failed
    cases x with
    | error e' =>
        cases failed
        exact Or.inl rfl
    | ok a => exact Or.inr ⟨a, rfl, failed⟩
  · rintro (rfl | ⟨a, rfl, failed⟩)
    · rfl
    · exact failed

/-- The computation succeeds, and the postcondition holds of its value. -/
def Yields (x : Except ε α) (post : α → Prop) : Prop := ∃ a, x = .ok a ∧ post a

section Yields

variable {x : Except ε α} {f : α → Except ε β} {P Q : α → Prop} {R : β → Prop} {a : α}

theorem Yields.pure (holds : P a) : Yields (Pure.pure a : Except ε α) P := ⟨a, rfl, holds⟩

theorem Yields.bind (first : Yields x P) (rest : ∀ a, P a → Yields (f a) R) :
    Yields (x >>= f) R := by
  obtain ⟨a, rfl, holds⟩ := first
  exact rest a holds

theorem Yields.mono (yields : Yields x P) (weaker : ∀ a, P a → Q a) : Yields x Q := by
  obtain ⟨a, done, holds⟩ := yields
  exact ⟨a, done, weaker a holds⟩

end Yields

/-- The postcondition holds of the value if there is one, and only the allowed failures happen. -/
def Meets (mayFail : ε → Prop) (x : Except ε α) (post : α → Prop) : Prop :=
  match x with
  | .ok a => post a
  | .error e => mayFail e

section Meets

variable {mayFail : ε → Prop} {x : Except ε α} {f : α → Except ε β} {P Q : α → Prop}
  {R : β → Prop} {a : α} {e : ε}

theorem Meets.pure (holds : P a) : Meets mayFail (Pure.pure a : Except ε α) P := holds

theorem Meets.bind (first : Meets mayFail x P) (rest : ∀ a, P a → Meets mayFail (f a) R) :
    Meets mayFail (x >>= f) R := by
  cases x with
  | ok a => exact rest a first
  | error e => exact first

theorem Meets.bind_of_eq (done : x = .ok a) (rest : Meets mayFail (f a) R) :
    Meets mayFail (x >>= f) R := by
  subst done
  exact rest

theorem Meets.mono (meets : Meets mayFail x P) (weaker : ∀ a, P a → Q a) : Meets mayFail x Q := by
  cases x with
  | ok a => exact weaker a meets
  | error e => exact meets

end Meets

/-- A property of the counter and the state that each round of a loop carries to the next
counter holds when the loop succeeds. -/
theorem foldlM_range_invariant {σ : Type v} {P : ℕ → σ → Prop} {round : σ → ℕ → Except ε σ}
    {count : ℕ} {s t : σ} (start : P 0 s)
    (carries : ∀ i < count, ∀ s t, P i s → round s i = .ok t → P (i + 1) t)
    (done : (List.range count).foldlM round s = .ok t) : P count t := by
  induction count generalizing t with
  | zero =>
      cases done
      exact start
  | succ count ih =>
      rw [List.range_succ, List.foldlM_append] at done
      obtain ⟨middle, before, last⟩ := bind_eq_ok_iff.mp done
      rw [List.foldlM_cons] at last
      obtain ⟨final, taken, final_eq⟩ := bind_eq_ok_iff.mp last
      cases final_eq
      refine carries count (Nat.lt_succ_self _) middle _ (ih (fun i below => ?_) before) taken
      exact carries i (Nat.lt_succ_of_lt below)

/-- A loop over a list succeeds when every round does, after the items before it, and what the
rounds carry along the list holds at its end. -/
theorem foldlM_succeeds_along {ι σ : Type v} {P : List ι → σ → Prop} {round : σ → ι → Except ε σ}
    {items : List ι} {s : σ} (start : P [] s)
    (rounds : ∀ done item rest, items = done ++ item :: rest → ∀ s, P done s →
      ∃ t, round s item = .ok t ∧ P (done ++ [item]) t) :
    ∃ t, items.foldlM round s = .ok t ∧ P items t := by
  have run (rest done : List ι) (whole : items = done ++ rest) (s : σ) (holds : P done s) :
      ∃ t, rest.foldlM round s = .ok t ∧ P (done ++ rest) t := by
    induction rest generalizing done s with
    | nil => exact ⟨s, rfl, by rwa [List.append_nil]⟩
    | cons item rest ih =>
        obtain ⟨middle, first, carried⟩ := rounds done item rest whole s holds
        obtain ⟨t, rest_ok, final⟩ := ih (done ++ [item]) (by simpa using whole) middle carried
        refine ⟨t, ?_, by rwa [List.append_assoc, List.singleton_append] at final⟩
        rw [List.foldlM_cons, first]
        exact rest_ok
  exact run items [] rfl s start

/-- A loop over a list succeeds when every round does, and what the rounds carry along the list
holds at its end. -/
theorem foldlM_succeeds {ι σ : Type v} {P : List ι → σ → Prop} {round : σ → ι → Except ε σ}
    {items : List ι} {s : σ} (start : P [] s)
    (rounds : ∀ done, ∀ item ∈ items, ∀ s, P done s →
      ∃ t, round s item = .ok t ∧ P (done ++ [item]) t) :
    ∃ t, items.foldlM round s = .ok t ∧ P items t :=
  foldlM_succeeds_along start fun done item _ whole =>
    rounds done item (whole ▸ List.mem_append_right _ List.mem_cons_self)

/-- What the rounds carry along a list holds at its end when the loop succeeds. -/
theorem foldlM_carries {ι σ : Type v} {P : List ι → σ → Prop} {round : σ → ι → Except ε σ}
    {items : List ι} {s t : σ} (start : P [] s)
    (carries : ∀ done, ∀ item ∈ items, ∀ s t, P done s → round s item = .ok t →
      P (done ++ [item]) t)
    (succeeded : items.foldlM round s = .ok t) : P items t := by
  have run (rest : List ι) (inside : ∀ item ∈ rest, item ∈ items) (done : List ι) (s : σ)
      (holds : P done s) (ok : rest.foldlM round s = .ok t) : P (done ++ rest) t := by
    induction rest generalizing done s with
    | nil =>
        cases ok
        rwa [List.append_nil]
    | cons item rest ih =>
        rw [List.foldlM_cons] at ok
        obtain ⟨middle, first, rest_ok⟩ := bind_eq_ok_iff.mp ok
        have next := carries done item (inside item List.mem_cons_self) s middle holds first
        have final := ih (fun later member => inside later (List.mem_cons_of_mem item member))
          (done ++ [item]) middle next rest_ok
        rwa [List.append_assoc, List.singleton_append] at final
  exact run items (fun _ member => member) [] s start succeeded

end GreenFuzz.Library
