import GreenFuzz.Redqueen.CmpExtendEncoding

/-!
# The solvers put back what they replace

Each attempt restores the buffer, and no access leaves it, because an attempt with `n` bytes is
only made where `n` bytes are left. A nested call is made with arguments of a smaller rank: it
does not reverse the bytes any more, or its attribute stands for a transformed or modified
operand, for which neither transformations nor neighbours are tried.

So the functions never go deeper than four and two calls, and restore the buffer and the shape
(`cmp_extend_restores`).
-/

set_option autoImplicit false

namespace GreenFuzz.Redqueen

open Library AflFuzz

variable {C : CmpPlace} {a : CmpArgs 64} {self : CmpArgs 64 → Its Unit}

/-- The index is inside the input. -/
structure CmpPlace.Inside (C : CmpPlace) : Prop where
  index : C.idx < C.len
  small : C.len < 2 ^ 32

theorem CmpPlace.Inside.left (inside : C.Inside) : u32Sub C.len C.idx = C.len - C.idx :=
  u32Sub_of_le inside.index.le inside.small

/-- What fits into the tainted bytes fits into the buffer. -/
theorem CmpPlace.Inside.fits (inside : C.Inside) {n : ℕ} (short : n ≤ C.itsLen) :
    C.idx + n ≤ C.len := by
  rw [CmpPlace.itsLen, inside.left] at short
  have := inside.index
  omega

/-! ## Ranks -/

/-- How many more calls can be nested that change the attribute, twice. -/
def attrRank (attr : BitVec 8) : ℕ :=
  if IS_FP_MOD ≤ attr ∧ attr &&& (IS_GREATER ||| IS_LESSER) = 0 then 0 else 2

/-- How many more calls can be nested. -/
def CmpArgs.rank {w : ℕ} (a : CmpArgs w) : ℕ := attrRank a.attr + if a.doReverse then 1 else 0

theorem CmpArgs.rank_le {w : ℕ} (a : CmpArgs w) : a.rank ≤ 3 := by
  unfold rank attrRank
  grind

/-- A call without reversal is below one with it. -/
theorem CmpArgs.rank_swapped {w : ℕ} {a : CmpArgs w} {swap : BitVec w → BitVec w}
    (reverse : a.doReverse = true) : (a.swapped swap).rank < a.rank := by
  show attrRank a.attr + 0 < attrRank a.attr + if a.doReverse then 1 else 0
  rw [if_pos reverse]
  exact Nat.lt_succ_self _

/-- A call for a transformed or modified operand is below the others. -/
theorem CmpArgs.rank_lt {a b : CmpArgs 64}
    (closed : b.attr = IS_FP_MOD ∨ b.attr = IS_INT_MOD ∨ b.attr = IS_TRANSFORM)
    (opened : a.attr < IS_FP_MOD ∨ a.attr &&& (IS_GREATER ||| IS_LESSER) ≠ 0) :
    b.rank < a.rank := by
  have low : attrRank b.attr = 0 := by
    rcases closed with attr | attr | attr <;> rw [attr] <;> decide
  have high : attrRank a.attr = 2 := by
    refine if_neg ?_
    rintro ⟨above, none⟩
    rcases opened with below | some
    · exact absurd above (BitVec.not_le.mpr below)
    · exact some none
  rw [rank, rank, low, high]
  split <;> omega

/-! ## The attempts -/

theorem restores_executeNumber {oldLen : ℕ} (inside : C.idx + oldLen ≤ C.len)
    (text : List Byte) : Restores (executeNumber C oldLen text) := by
  refine Restores.demand_bind inside (Restores.peek_bind fun _ _ => ?_)
  refine Restores.bind (Restores.poke fun _ => ⟨rfl, rfl⟩) fun _ => ?_
  refine Restores.peek_bind fun _ _ => ?_
  refine (restores_itsFuzz _).bind fun _ => Restores.peek_bind fun _ _ => ?_
  exact restores_recordFind _ _ _ _

/-- The number that is found ends inside the text. -/
theorem numberAt_end_le {str text : List Byte} {erange : Bool} {pattern repl : BitVec 64}
    {oldLen : ℕ} (found : (numberAt str erange pattern repl).1 = some (oldLen, text)) :
    oldLen ≤ str.length := by
  unfold numberAt at found
  split at found
  next signed =>
      dsimp only at found
      split at found
      · cases found
        exact strntoWith_end_le (congrArg Prod.fst signed)
      · cases found
  next =>
      split at found
      next unsigned =>
          dsimp only at found
          split at found
          · cases found
            exact strntoWith_end_le (congrArg Prod.fst unsigned)
          · cases found
      next => cases found

theorem restores_numberTransform (inside : C.Inside) : Restores (numberTransform C a) := by
  refine Restores.peek_bind fun s _ => ?_
  refine Restores.bind (Restores.poke fun _ => ⟨rfl, rfl⟩) fun _ => ?_
  split
  · exact Restores.pure ()
  next oldLen text found =>
      have stop := numberAt_end_le found
      rw [CmpPlace.text, List.length_map, List.length_range] at stop
      have := inside.index
      exact restores_executeNumber (by omega) text

theorem restores_tryMagic (nested : ∀ b : CmpArgs 64, b.attr = IS_TRANSFORM → Restores (self b))
    (first : Bool) (magics : List (Option (BitVec 64))) :
    Restores (tryMagic self a first magics) := by
  induction magics generalizing first with
  | nil => exact Restores.pure ()
  | cons magic rest ih =>
      refine Restores.peek_bind fun s _ => ?_
      refine Restores.bind (Restores.whenever fun _ => ?_) fun _ => ih false
      cases magic with
      | none => exact Restores.pure ()
      | some newRepl => exact nested _ rfl

theorem restores_transformMagic (inside : C.Inside)
    (nested : ∀ b : CmpArgs 64, b.attr = IS_TRANSFORM → Restores (self b)) {bytes : ℕ}
    (wide : 1 < bytes) (left : bytes ≤ C.len - C.idx) :
    Restores (transformMagic C self a bytes) := by
  have width : magicWidth bytes ≤ bytes := by
    unfold magicWidth
    grind
  have fits : C.idx + magicWidth bytes ≤ C.len := by
    have := inside.index
    omega
  refine Restores.loadBuf_bind fits fun bVal => Restores.loadOrig_bind fits fun oBVal => ?_
  refine (restores_tryMagic nested true _).bind fun _ => ?_
  exact Restores.poke fun _ => ⟨rfl, rfl⟩

theorem restores_replaceInteger (inside : C.Inside) {n : ℕ} (short : n ≤ C.itsLen) :
    Restores (replaceInteger C a n) := by
  have fits := inside.fits short
  refine Restores.loadBuf_bind fits fun bVal => Restores.loadOrig_bind fits fun oBVal => ?_
  exact Restores.whenever fun _ => restores_replaceWord fits le_rfl _

theorem restores_integerEncoding (inside : C.Inside)
    (nested : ∀ b : CmpArgs 64, b.rank < a.rank → Restores (self b)) (n : ℕ) :
    Restores (integerEncoding C self a n) := by
  refine Restores.peek_bind fun s _ => Restores.whenever fun _ => ?_
  refine Restores.bind (Restores.whenever fun short => restores_replaceInteger inside short)
    fun _ => ?_
  refine Restores.peek_bind fun _ _ => Restores.whenever fun reversed => ?_
  exact nested _ (CmpArgs.rank_swapped reversed.1)

/-- A number of `size` bytes has no more than `size` of them. -/
theorem scaleLen_le (size v : ℕ) : scaleLen size v ≤ size := by
  induction size generalizing v with
  | zero => exact le_rfl
  | succ size ih =>
      rw [scaleLen]
      split
      · exact Nat.zero_le _
      · exact Nat.succ_le_succ (ih _)

/-- A number below a power of 256 has no more bytes than the exponent. -/
theorem scaleLen_le_of_lt {size v k : ℕ} (small : v < 256 ^ k) : scaleLen size v ≤ k := by
  induction k generalizing size v with
  | zero =>
      have zero : v = 0 := by omega
      subst zero
      cases size <;> exact le_rfl
  | succ k ih =>
      cases size with
      | zero => exact Nat.zero_le _
      | succ size =>
          rw [scaleLen]
          split
          · exact Nat.zero_le _
          · refine Nat.succ_le_succ (ih ?_)
            rw [Nat.shiftRight_eq_div_pow]
            exact Nat.div_lt_of_lt_mul (by rwa [Nat.pow_succ'] at small)

theorem restores_executeScale (inside : C.Inside) {scale : ℕ × BitVec 128}
    (short : scale.1 ≤ C.itsLen) (fits : scale.1 ≤ 16) : Restores (executeScale C scale) :=
  Restores.demand_bind fits
    (restores_replaceWord (inside.fits short) (fits.trans (by decide)) _)

/-- A SCALE encoding has no more bytes than a `u128`. -/
theorem scaleEncoding_le (repl changedVal : BitVec 64) :
    (scaleEncoding repl changedVal).1 ≤ 16 := by
  have bytes := scaleLen_le 8 (repl.setWidth 128).toNat
  unfold scaleEncoding
  dsimp only
  split
  · show 1 ≤ 16
    decide
  split
  · show 2 ≤ 16
    decide
  split
  · show 4 ≤ 16
    decide
  · show scaleLen 8 _ - 4 + 5 ≤ 16
    omega

theorem restores_scaleAttempt (inside : C.Inside) : Restores (scaleAttempt C a) :=
  Restores.whenever fun may => restores_executeScale inside may.2.1 (scaleEncoding_le _ _)

theorem restores_floatArithmetic
    (nested : ∀ b : CmpArgs 64, b.attr = IS_FP_MOD → Restores (self b)) (attr : BitVec 8) :
    Restores (floatArithmetic C self a attr) := by
  refine Restores.peek_bind fun _ _ => ?_
  split
  · exact Restores.pure ()
  · refine (nested _ rfl).bind fun _ s small => Safe.attempt_bind trivial ?_
    unfold whenever
    split
    next double =>
        -- the shape is 4 during the call, and was 8 before
        refine Safe.attempt_bind trivial ?_
        have changed : Restores (self (a.modified ((C.machine.toFloat a.repl).setWidth 64) 16)) :=
          nested _ rfl
        refine (changed { s with hshape := 4 } (show 4 ≤ 16 by decide)).bind fun _ t kept => ?_
        exact Safe.attempt trivial ⟨kept.buf, double.1.symm⟩
    next => exact Safe.pure (Kept.refl s)

theorem restores_arithmetic (nested : ∀ b : CmpArgs 64, b.rank < a.rank → Restores (self b)) :
    Restores (arithmetic C self a) := by
  refine Restores.peek_bind fun s _ => Restores.whenever fun may => ?_
  have opened : a.attr < IS_FP_MOD ∨ a.attr &&& (IS_GREATER ||| IS_LESSER) ≠ 0 :=
    Or.inr may.2.1
  split
  · exact restores_floatArithmetic
      (fun b attr => nested b (CmpArgs.rank_lt (Or.inl attr) opened)) _
  · refine Restores.whenever fun _ => nested _ (CmpArgs.rank_lt ?_ opened)
    exact Or.inr (Or.inl rfl)

/-- **One call restores, if the calls of smaller rank do.** -/
theorem restores_cmpExtendBody (inside : C.Inside)
    (nested : ∀ b : CmpArgs 64, b.rank < a.rank → Restores (self b)) :
    Restores (cmpExtendBody C self a) := by
  refine Restores.peek_bind fun s _ => Restores.whenever fun wide => ?_
  have left : min (shapeWidth s.hshape) (u32Sub C.len C.idx) ≤ C.len - C.idx := by
    rw [inside.left]
    exact min_le_right _ _
  refine Restores.bind (Restores.whenever fun _ => ?_) fun _ => Restores.whenever fun _ => ?_
  · refine (restores_numberTransform inside).bind fun _ => Restores.whenever fun magic => ?_
    refine restores_transformMagic inside (fun b attr => ?_) wide left
    have below : a.attr < IS_FP_MOD := by
      have := magic.2.2
      simp only [IS_EQUAL, IS_FP_MOD] at this ⊢
      bv_omega
    exact nested b (CmpArgs.rank_lt (Or.inr (Or.inr attr)) (Or.inl below))
  · refine Restores.bind (Restores.whenever fun _ => ?_) fun _ => ?_
    · refine (restores_integerEncoding inside nested 8).bind fun _ => ?_
      refine (restores_integerEncoding inside nested 4).bind fun _ => ?_
      exact restores_integerEncoding inside nested 2
    · exact (restores_scaleAttempt inside).bind fun _ => restores_arithmetic nested

/-- `cmp_extend_encoding` restores, with as much depth as the arguments may need. -/
theorem restores_cmpExtendEncoding (inside : C.Inside) {depth : ℕ} (a : CmpArgs 64)
    (enough : a.rank < depth) : Restores (cmpExtendEncoding C depth a) := by
  induction depth generalizing a with
  | zero => exact absurd enough (Nat.not_lt_zero _)
  | succ depth ih =>
      refine restores_cmpExtendBody inside fun b lower => ih b ?_
      omega

/-! ## Operands of other sizes -/

variable {n : CmpArgs 128} {selfN : CmpArgs 128 → Its Unit}

theorem restores_replaceOperand (inside : C.Inside) {hshape : ℕ} (short : hshape ≤ C.itsLen)
    (small : hshape ≤ 16) : Restores (replaceOperand C n hshape) := by
  have fits := inside.fits short
  refine Restores.loadBuf_bind fits fun bVal => Restores.loadOrig_bind fits fun oBVal => ?_
  refine Restores.demand_bind small (Restores.whenever fun _ => ?_)
  exact restores_replaceWord fits small _

theorem scaleEncodingN_le {repl : BitVec 128} {scale : ℕ × BitVec 128}
    (encoded : scaleEncodingN repl = some scale) : scale.1 ≤ 16 := by
  unfold scaleEncodingN at encoded
  dsimp only at encoded
  split at encoded
  · cases encoded
    show 1 ≤ 16
    decide
  split at encoded
  · cases encoded
    show 2 ≤ 16
    decide
  split at encoded
  · cases encoded
    show 4 ≤ 16
    decide
  split at encoded
  next below =>
      cases encoded
      have bytes : scaleLen 16 repl.toNat ≤ 15 := scaleLen_le_of_lt (below.trans_eq (by decide))
      show scaleLen 16 repl.toNat - 4 + 5 ≤ 16
      omega
  next => cases encoded

theorem restores_scaleAttemptN (inside : C.Inside) : Restores (scaleAttemptN C n) := by
  refine Restores.whenever fun _ => ?_
  cases encoded : scaleEncodingN n.repl with
  | none => exact Restores.pure ()
  | some scale =>
      exact Restores.whenever fun short =>
        restores_executeScale inside short (scaleEncodingN_le encoded)

theorem restores_cmpExtendBodyN (inside : C.Inside)
    (nested : ∀ b : CmpArgs 128, b.rank < n.rank → Restores (selfN b)) :
    Restores (cmpExtendBodyN C selfN n) := by
  refine Restores.peek_bind fun s small => Restores.whenever fun short => ?_
  refine (restores_replaceOperand inside short small).bind fun _ => ?_
  refine Restores.peek_bind fun _ _ => ?_
  refine Restores.bind (Restores.whenever fun reversed => ?_) fun _ => restores_scaleAttemptN inside
  exact nested _ (CmpArgs.rank_swapped reversed.1)

theorem restores_cmpExtendEncodingN (inside : C.Inside) {depth : ℕ} (n : CmpArgs 128)
    (enough : n.rank < depth) : Restores (cmpExtendEncodingN C depth n) := by
  induction depth generalizing n with
  | zero => exact absurd enough (Nat.not_lt_zero _)
  | succ depth ih =>
      refine restores_cmpExtendBodyN inside fun b lower => ih b ?_
      omega

/-- **The solvers restore what they touch.** For every place inside the input, all operands,
attributes, options and results of the executions, with a shape of at most 16 bytes, the calls
are nested at most four deep, no access leaves the buffers or the local arrays, and on a return
of 0 the buffer and the shape are what they were. -/
theorem cmp_extend_restores (C : CmpPlace) (inside : C.Inside) (s : ItsState)
    (shape : s.hshape ≤ 16) (depth : ℕ) (enough : 4 ≤ depth) :
    (∀ a, Safe (cmpExtendEncoding C depth a) s fun _ t => t.buf = s.buf ∧ t.hshape = s.hshape) ∧
      ∀ a, Safe (cmpExtendEncodingN C depth a) s fun _ t =>
        t.buf = s.buf ∧ t.hshape = s.hshape := by
  constructor
  · intro a
    have restores := restores_cmpExtendEncoding inside a (a.rank_le.trans_lt enough)
    exact (restores s shape).mono fun _ t kept => ⟨kept.buf, kept.hshape⟩
  · intro a
    have restores := restores_cmpExtendEncodingN inside a (a.rank_le.trans_lt enough)
    exact (restores s shape).mono fun _ t kept => ⟨kept.buf, kept.hshape⟩

/-- A machine whose arithmetic does nothing. -/
def idleMachine : Machine := ⟨id, id, id, id, fun x => x.setWidth 32, fun x _ => x⟩

/-- The place at the beginning of an input of three bytes, at the third level. -/
def firstOfThree : CmpPlace :=
  { machine := idleMachine, enableTransform := true, enableArith := true, enableScale := true,
    lvl := LVL3, idx := 0, taintLen := 3, len := 3, origBuf := fun _ => 0 }

/-- The input `7ab`, with a shape of four bytes. -/
def sevenState : ItsState :=
  { buf := fun i => [55, 97, 98].getD i 0, cbuf := fun _ => 0, scratch := fun _ => 0, hshape := 4,
    status := 0, erange := false, executed := [], finds := [] }

/-- The comparison of the number 7 with another one. -/
def sevenArgs {w : ℕ} (repl : BitVec w) : CmpArgs w :=
  { pattern := 7, repl := repl, oPattern := 7, changedVal := repl, attr := IS_EQUAL,
    doReverse := false }

theorem cmp_extend_restores_seven :
    (∀ a, Safe (cmpExtendEncoding firstOfThree 4 a) sevenState fun _ t =>
        t.buf = sevenState.buf ∧ t.hshape = 4) ∧
      ∀ a, Safe (cmpExtendEncodingN firstOfThree 4 a) sevenState fun _ t =>
        t.buf = sevenState.buf ∧ t.hshape = 4 :=
  cmp_extend_restores firstOfThree ⟨by decide, by decide⟩ sevenState (by decide) 4 le_rfl

end GreenFuzz.Redqueen
