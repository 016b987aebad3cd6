import GreenFuzz.Redqueen.CmpExtendEncoding

/-!
# Runs of the solvers

What the attempts of a run lead to, the whole run leads to, however the calls are nested: a
relation between states that is transitive and that holds between the states before and after
every attempt (`KeptByAttempts`) holds between the states before and after a call
(`KeptByAttempts.cmpExtendEncoding`, `KeptByAttempts.cmpExtendEncodingN`).
-/

set_option autoImplicit false

namespace GreenFuzz.Redqueen

open Library AflFuzz

/-- The relation is transitive, and every attempt leads to a related state. -/
structure KeptByAttempts (C : CmpPlace) (R : ItsState → ItsState → Prop) : Prop where
  refl : ∀ s, R s s
  trans : ∀ s t u, R s t → R t u → R s u
  /-- Writes to the globals. -/
  globals : ∀ s hshape status erange,
    R s { s with hshape := hshape, status := status, erange := erange }
  number : ∀ oldLen text, Leads R (executeNumber C oldLen text)
  replace : ∀ room n (word : BitVec (8 * n)), Leads R (replaceWord C.len C.idx room word)

namespace KeptByAttempts

variable {C : CmpPlace} {R : ItsState → ItsState → Prop} {a : CmpArgs 64}
  {self : CmpArgs 64 → Its Unit}

theorem peek_bind {α β : Type} {read : ItsState → α} {next : α → Its β}
    (rest : ∀ a, Leads R (next a)) : Leads R (peek read >>= next) := Leads.read_bind rest

theorem numberTransform (kept : KeptByAttempts C R) : Leads R (numberTransform C a) := by
  refine peek_bind fun found => ?_
  refine Leads.bind kept.trans (Leads.attempt fun s _ => ?_) fun _ => ?_
  · exact kept.globals s s.hshape s.status found.2
  · split
    · exact Leads.pure kept.refl ()
    · exact kept.number _ _

theorem tryMagic (kept : KeptByAttempts C R) (nested : ∀ b, Leads R (self b)) (first : Bool)
    (magics : List (Option (BitVec 64))) : Leads R (tryMagic self a first magics) := by
  induction magics generalizing first with
  | nil => exact Leads.pure kept.refl ()
  | cons magic rest ih =>
      refine peek_bind fun _ => ?_
      refine Leads.bind kept.trans (Leads.whenever kept.refl ?_) fun _ => ih false
      cases magic with
      | none => exact Leads.pure kept.refl ()
      | some newRepl => exact nested _

theorem transformMagic (kept : KeptByAttempts C R) (nested : ∀ b, Leads R (self b)) (bytes : ℕ) :
    Leads R (transformMagic C self a bytes) := by
  refine Leads.read_bind fun _ => Leads.read_bind fun _ => ?_
  refine Leads.bind kept.trans (kept.tryMagic nested true _) fun _ => ?_
  exact Leads.attempt fun s _ => kept.globals s s.hshape 0 s.erange

theorem integerEncoding (kept : KeptByAttempts C R) (nested : ∀ b, Leads R (self b)) (n : ℕ) :
    Leads R (integerEncoding C self a n) := by
  refine peek_bind fun _ => Leads.whenever kept.refl ?_
  refine Leads.bind kept.trans (Leads.whenever kept.refl ?_) fun _ => peek_bind fun _ => ?_
  · refine Leads.read_bind fun _ => Leads.read_bind fun _ => Leads.whenever kept.refl ?_
    exact kept.replace _ _ _
  · exact Leads.whenever kept.refl (nested _)

theorem executeScale (kept : KeptByAttempts C R) (scale : ℕ × BitVec 128) :
    Leads R (executeScale C scale) :=
  Leads.bind kept.trans (Leads.attempt fun s _ => kept.refl s) fun _ => kept.replace _ _ _

theorem floatArithmetic (kept : KeptByAttempts C R) (nested : ∀ b, Leads R (self b))
    (attr : BitVec 8) : Leads R (floatArithmetic C self a attr) := by
  refine peek_bind fun _ => ?_
  split
  · exact Leads.pure kept.refl ()
  · refine Leads.bind kept.trans (nested _) fun _ => peek_bind fun _ => ?_
    refine Leads.whenever kept.refl ?_
    refine Leads.bind kept.trans (Leads.attempt fun s _ => ?_) fun _ =>
      Leads.bind kept.trans (nested _) fun _ => Leads.attempt fun s _ => ?_
    · exact kept.globals s 4 s.status s.erange
    · exact kept.globals s 8 s.status s.erange

theorem arithmetic (kept : KeptByAttempts C R) (nested : ∀ b, Leads R (self b)) :
    Leads R (arithmetic C self a) := by
  refine peek_bind fun _ => Leads.whenever kept.refl ?_
  split
  · exact kept.floatArithmetic nested _
  · exact Leads.whenever kept.refl (nested _)

theorem expensiveAttempts (kept : KeptByAttempts C R) (nested : ∀ b, Leads R (self b))
    (bytes : ℕ) : Leads R (expensiveAttempts C self a bytes) :=
  Leads.whenever kept.refl (Leads.bind kept.trans kept.numberTransform fun _ =>
    Leads.whenever kept.refl (kept.transformMagic nested bytes))

theorem plainAttempts (kept : KeptByAttempts C R) (nested : ∀ b, Leads R (self b)) :
    Leads R (plainAttempts C self a) := by
  refine Leads.whenever kept.refl (Leads.bind kept.trans (Leads.whenever kept.refl ?_) fun _ => ?_)
  · exact Leads.bind kept.trans (kept.integerEncoding nested 8) fun _ =>
      Leads.bind kept.trans (kept.integerEncoding nested 4) fun _ => kept.integerEncoding nested 2
  · exact Leads.bind kept.trans (Leads.whenever kept.refl (kept.executeScale _)) fun _ =>
      kept.arithmetic nested

/-- **A call leads to a related state**, however deeply calls are nested in it. -/
theorem cmpExtendEncoding (kept : KeptByAttempts C R) (depth : ℕ) (a : CmpArgs 64) :
    Leads R (cmpExtendEncoding C depth a) := by
  induction depth generalizing a with
  | zero => exact Leads.stopped
  | succ depth ih =>
      refine peek_bind fun _ => Leads.whenever kept.refl ?_
      exact Leads.bind kept.trans (kept.expensiveAttempts ih _) fun _ => kept.plainAttempts ih

theorem cmpExtendEncodingN (kept : KeptByAttempts C R) (depth : ℕ) (a : CmpArgs 128) :
    Leads R (cmpExtendEncodingN C depth a) := by
  induction depth generalizing a with
  | zero => exact Leads.stopped
  | succ depth ih =>
      refine peek_bind fun _ => Leads.whenever kept.refl ?_
      refine Leads.bind kept.trans ?_ fun _ => peek_bind fun _ => ?_
      · refine Leads.read_bind fun _ => Leads.read_bind fun _ => ?_
        exact Leads.bind kept.trans (Leads.attempt fun s _ => kept.refl s) fun _ =>
          Leads.whenever kept.refl (kept.replace _ _ _)
      · refine Leads.bind kept.trans (Leads.whenever kept.refl (ih _)) fun _ => ?_
        refine Leads.whenever kept.refl ?_
        cases scaleEncodingN a.repl with
        | none => exact Leads.pure kept.refl ()
        | some scale => exact Leads.whenever kept.refl (kept.executeScale scale)

end KeptByAttempts

end GreenFuzz.Redqueen
