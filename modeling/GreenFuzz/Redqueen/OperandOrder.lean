import GreenFuzz.Redqueen.CmpFuzz
import GreenFuzz.Redqueen.NumberReplacement
import GreenFuzz.Redqueen.QuietRuns
import Mathlib

/-!
# The order of the operands

`cmp_fuzz` calls the solvers for both orders of the operands of a comparison. For the second order
it turns the attribute around. `SWAPA` negates it instead, so that a test for equality becomes one
for being less or greater: for one order transformations of the operand are looked for, and for the
other one its neighbours are tried. What is executed for a number also depends on the calls before,
by way of `errno` and the scratch buffer.

Where none of this decides anything (`EvenLog`), a key and the one with the operands exchanged lead
to the same candidates, as long as nothing is found (`operands_exchanged`). Below the third level
that is always so (`evenLog_of_lower`).
-/

set_option autoImplicit false

namespace GreenFuzz.Redqueen

open Library AflFuzz CompilerRt

/-! ## A number at a place -/

section Numbers

variable {C : CmpPlace} {buf scratch other : Buffer} {hshape idx len oldLen : ℕ} {text : List Byte}
  {a : CmpArgs 64}

/-- A text that is not shorter than the number covers all that comes from the scratch buffer. -/
theorem inputOf_numberBuf (stop : idx + oldLen ≤ len) (long : oldLen ≤ text.length) :
    inputOf len (numberBuf buf scratch idx len oldLen text) =
      inputOf len (numberBuf buf other idx len oldLen text) := by
  have copied {i : ℕ} (inside : i < len) :
      copiedNumber buf scratch idx len oldLen text i =
        copiedNumber buf other idx len oldLen text i := by
    have covered : i < idx + text.length + (len - idx - oldLen) := by omega
    simp only [copiedNumber, if_pos covered]
  refine List.map_congr_left fun i member => ?_
  rw [numberBuf_apply, numberBuf_apply, copied (List.mem_range.mp member)]

/-- What is executed for a number and its new text. -/
def numberInputs (C : CmpPlace) (buf : Buffer) : Option (ℕ × List Byte) → List (List Byte)
  | none => []
  | some (oldLen, text) => [inputOf C.len (numberBuf buf buf C.idx C.len oldLen text)]

theorem tries_executeNumber (stop : C.idx + oldLen ≤ C.len) (long : oldLen ≤ text.length) :
    Tries buf hshape (executeNumber C oldLen text) ()
      (numberInputs C buf (some (oldLen, text))) := by
  intro s here results quiet length
  obtain ⟨⟨found, readable, erange⟩, rfl⟩ := List.length_eq_one_iff.mp length
  obtain rfl : found = false := quiet _ List.mem_cons_self
  have input : inputOf C.len (numberBuf s.buf s.scratch C.idx C.len oldLen text) =
      inputOf C.len (numberBuf s.buf s.buf C.idx C.len oldLen text) := inputOf_numberBuf stop long
  refine ⟨{ s with
    scratch := numberBuf s.buf s.scratch C.idx C.len oldLen text
    status := 2
    erange := erange
    executed := s.executed ++
      [inputOf C.len (numberBuf s.buf s.scratch C.idx C.len oldLen text)] },
    ⟨here.buf, here.hshape, OfNat.ofNat_ne_one 2⟩, ?_, fun left => ?_⟩
  · rw [numberInputs, ← here.buf, input]
  · simp only [executeNumber, itsFuzz, recordFind, peek, poke, demand, attempt, takeHead, takeFrom,
      Bind.bind, StateT.bind, Except.bind, if_true, if_pos stop, List.cons_append, List.nil_append]
    rfl

/-- What is executed for the number at the place depends neither on `errno` nor on what the scratch
buffer held before. -/
structure CmpPlace.Steady (C : CmpPlace) (buf : Buffer) (a : CmpArgs 64) : Prop where
  errno : (numberAt (C.text buf) true a.pattern a.repl).1 =
    (numberAt (C.text buf) false a.pattern a.repl).1
  long : ∀ number ∈ (numberAt (C.text buf) false a.pattern a.repl).1,
    number.1 ≤ number.2.length

theorem CmpPlace.Steady.numberAt (steady : C.Steady buf a) (erange : Bool) :
    (numberAt (C.text buf) erange a.pattern a.repl).1 =
      (Redqueen.numberAt (C.text buf) false a.pattern a.repl).1 := by
  cases erange with
  | false => rfl
  | true => exact steady.errno

theorem CmpPlace.Inside.number (inside : C.Inside) {erange : Bool} {pattern repl : BitVec 64}
    (found : (numberAt (C.text buf) erange pattern repl).1 = some (oldLen, text)) :
    C.idx + oldLen ≤ C.len := by
  have stop := numberAt_end_le found
  rw [CmpPlace.text, List.length_map, List.length_range] at stop
  have := inside.index
  omega

theorem tries_numberTransform (inside : C.Inside) (steady : C.Steady buf a) :
    Tries buf hshape (numberTransform C a) ()
      (numberInputs C buf (numberAt (C.text buf) false a.pattern a.repl).1) := by
  have tries : Tries buf hshape
      (match (numberAt (C.text buf) false a.pattern a.repl).1 with
        | none => pure ()
        | some (oldLen, text) => executeNumber C oldLen text) ()
      (numberInputs C buf (numberAt (C.text buf) false a.pattern a.repl).1) := by
    cases found : (numberAt (C.text buf) false a.pattern a.repl).1 with
    | none => exact Tries.pure ()
    | some number => exact tries_executeNumber (inside.number found) (steady.long number found)
  refine Tries.read_bind (fun _ _ => trivial) fun s here => ?_
  rw [here.buf, steady.numberAt]
  have errno : Tries buf hshape (poke fun t => { t with
      erange := (numberAt (C.text buf) s.erange a.pattern a.repl).2 }) () [] :=
    Tries.poke (fun _ there => ⟨there.buf, there.hshape, there.status⟩) fun _ => rfl
  exact errno.bind tries

end Numbers

/-! ## The solvers -/

section Solvers

variable {C : CmpPlace} {buf : Buffer} {hshape : ℕ} {a : CmpArgs 64} {attr attr' : BitVec 8}
  {self : CmpArgs 64 → Its Unit}

theorem not_modified (integers : attr < IS_FP) : ¬ IS_FP_MOD ≤ attr := by
  unfold IS_FP at integers
  unfold IS_FP_MOD
  bv_omega

variable (inside : C.Inside) (integers : attr < IS_FP) (integers' : attr' < IS_FP)

include inside integers integers'

theorem balanced_replaceInteger {n : ℕ} (short : n ≤ C.itsLen) :
    Balanced buf hshape (replaceInteger C { a with attr := attr } n)
      (replaceInteger C { a with attr := attr' } n) := by
  have fits := inside.fits short
  refine Balanced.loadBuf_bind fits (Balanced.loadOrig_bind fits ?_)
  refine Balanced.whenever ?_ fun _ => Balanced.replaceWord fits le_rfl _
  exact or_congr_right (iff_of_false (not_modified integers) (not_modified integers'))

theorem balanced_integerEncoding {n : ℕ}
    (nested : a.doReverse = true → n ≤ hshape → Balanced buf hshape
      (self { a.swapped (swapWidth n) with attr := attr })
      (self { a.swapped (swapWidth n) with attr := attr' })) :
    Balanced buf hshape (integerEncoding C self { a with attr := attr } n)
      (integerEncoding C self { a with attr := attr' } n) := by
  have goes (s : ItsState) (here : At buf hshape s) :
      n ≤ s.hshape ∧ s.status ≠ 1 ↔ n ≤ hshape := by
    rw [here.hshape, and_iff_left here.status]
  refine Balanced.peek_bind (fun s here => whenever_congr (goes s here) _)
    (fun s here => whenever_congr (goes s here) _) (Balanced.whenever Iff.rfl fun small => ?_)
  refine Balanced.bind (Balanced.whenever Iff.rfl fun short =>
    balanced_replaceInteger inside integers integers' short) fun _ => ?_
  have reverses (s : ItsState) (here : At buf hshape s) :
      a.doReverse = true ∧ s.status ≠ 1 ↔ a.doReverse = true := and_iff_left here.status
  exact Balanced.peek_bind (fun s here => whenever_congr (reverses s here) _)
    (fun s here => whenever_congr (reverses s here) _)
    (Balanced.whenever Iff.rfl fun reverse => nested reverse small)

omit integers integers' in
theorem balanced_executeScale {scale : ℕ × BitVec 128} (short : scale.1 ≤ C.itsLen)
    (fits : scale.1 ≤ 16) : Balanced buf hshape (executeScale C scale) (executeScale C scale) :=
  Balanced.demand_bind fits (Balanced.replaceWord (inside.fits short) (fits.trans (by decide)) _)

theorem balanced_scaleAttempt :
    Balanced buf hshape (scaleAttempt C { a with attr := attr })
      (scaleAttempt C { a with attr := attr' }) := by
  refine Balanced.whenever ?_ fun may =>
    balanced_executeScale inside may.2.1 (scaleEncoding_le _ _)
  exact and_congr_left fun _ => and_congr_left fun _ => iff_of_true integers integers'

/-- The attribute decides nothing in a call: neither are transformations of a changed operand looked
for, nor neighbours of one tried, and a number at the place is replaced in one way. -/
structure CmpPlace.Even (C : CmpPlace) (buf : Buffer) (hshape : ℕ) (a : CmpArgs 64) : Prop where
  number : C.enableTransform = true ∧ C.lvl &&& LVL3 ≠ 0 → C.Steady buf a
  magic : C.enableTransform = true ∧ C.lvl &&& LVL3 ≠ 0 →
    ¬ (a.pattern ≠ a.oPattern ∧ a.repl = a.changedVal)
  arith : C.enableArith = true ∧ LVL3 ≤ C.lvl ∧ 4 ≤ hshape → a.pattern = a.oPattern

omit inside integers integers' in
theorem balanced_arithmetic (even : C.Even buf hshape a) (changed : a.pattern ≠ a.oPattern) :
    Balanced buf hshape (arithmetic C self { a with attr := attr })
      (arithmetic C self { a with attr := attr' }) := by
  have idle (b : CmpArgs 64) (s : ItsState) (here : At buf hshape s) :
      ¬ ((C.enableArith ∧ LVL3 ≤ C.lvl ∧ b.attr ≠ IS_TRANSFORM) ∧
        b.attr &&& (IS_GREATER ||| IS_LESSER) ≠ 0 ∧ 4 ≤ s.hshape) := by
    rintro ⟨⟨enabled, level, -⟩, -, wide⟩
    exact changed (even.arith ⟨enabled, level, here.hshape ▸ wide⟩)
  exact Balanced.peek_bind (fun s here => if_neg (idle _ s here))
    (fun s here => if_neg (idle _ s here)) (Balanced.pure ())

omit integers integers' in
theorem balanced_expensiveAttempts (even : C.Even buf hshape a) (bytes : ℕ) :
    Balanced buf hshape (expensiveAttempts C self { a with attr := attr } bytes)
      (expensiveAttempts C self { a with attr := attr' } bytes) := by
  refine Balanced.whenever Iff.rfl fun enabled => Balanced.bind ?_ fun _ => ?_
  · have tries : Tries buf hshape (numberTransform C a) () _ :=
      tries_numberTransform inside (even.number enabled)
    exact ⟨(), _, _, tries, tries, List.Perm.refl _⟩
  · have none (attr : BitVec 8) :
        ¬ (a.pattern ≠ a.oPattern ∧ a.repl = a.changedVal ∧ attr ≤ IS_EQUAL) :=
      fun magic => even.magic enabled ⟨magic.1, magic.2.1⟩
    exact Balanced.idle (none attr) (none attr')

/-- The attribute decides nothing in the calls for the other byte order. -/
def CmpPlace.EvenReversed (C : CmpPlace) (buf : Buffer) (hshape : ℕ) (a : CmpArgs 64) : Prop :=
  a.pattern ≠ a.oPattern → C.lvl &&& LVL1 ≠ 0 → ∀ n ∈ [8, 4, 2], n ≤ hshape →
    C.Even buf hshape (a.swapped (swapWidth n))

theorem balanced_plainAttempts (even : C.Even buf hshape a)
    (nested : a.pattern ≠ a.oPattern → C.lvl &&& LVL1 ≠ 0 → a.doReverse = true →
      ∀ n ∈ [8, 4, 2], n ≤ hshape → Balanced buf hshape
        (self { a.swapped (swapWidth n) with attr := attr })
        (self { a.swapped (swapWidth n) with attr := attr' })) :
    Balanced buf hshape (plainAttempts C self { a with attr := attr })
      (plainAttempts C self { a with attr := attr' }) := by
  refine Balanced.whenever Iff.rfl fun changed => ?_
  refine Balanced.bind (Balanced.whenever ?_ fun level => ?_) fun _ => ?_
  · exact or_congr_right (iff_of_false (not_modified integers) (not_modified integers'))
  · have first_level := level.resolve_right (not_modified integers)
    have encoding {n : ℕ} (width : n ∈ [8, 4, 2]) :=
      balanced_integerEncoding inside integers integers' fun reverse =>
        nested changed first_level reverse n width
    exact Balanced.bind (encoding (.head _)) fun _ =>
      Balanced.bind (encoding (.tail _ (.head _))) fun _ =>
        encoding (.tail _ (.tail _ (.head _)))
  · exact Balanced.bind (balanced_scaleAttempt inside integers integers') fun _ =>
      balanced_arithmetic even changed

/-- The number of bytes of an operand, `bytes`. -/
def CmpPlace.bytes (C : CmpPlace) (hshape : ℕ) : ℕ := min (shapeWidth hshape) (u32Sub C.len C.idx)

theorem balanced_cmpExtendBody (even : 1 < C.bytes hshape → C.Even buf hshape a)
    (nested : 1 < C.bytes hshape → a.pattern ≠ a.oPattern → C.lvl &&& LVL1 ≠ 0 →
      a.doReverse = true → ∀ n ∈ [8, 4, 2], n ≤ hshape → Balanced buf hshape
        (self { a.swapped (swapWidth n) with attr := attr })
        (self { a.swapped (swapWidth n) with attr := attr' })) :
    Balanced buf hshape (cmpExtendBody C self { a with attr := attr })
      (cmpExtendBody C self { a with attr := attr' }) := by
  refine Balanced.peek_bind (fun s here => by rw [here.hshape])
    (fun s here => by rw [here.hshape]) (Balanced.whenever Iff.rfl fun wide => ?_)
  exact Balanced.bind (balanced_expensiveAttempts inside (even wide) _) fun _ =>
    balanced_plainAttempts inside integers integers' (even wide) (nested wide)

/-- **The attribute of a comparison of integers does not matter** where it decides nothing in the
call and in those for the other byte order. -/
theorem balanced_cmpExtendEncoding
    (even : 1 < C.bytes hshape → C.Even buf hshape a ∧ C.EvenReversed buf hshape a) (depth : ℕ) :
    Balanced buf hshape (cmpExtendEncoding C (depth + 2) { a with attr := attr })
      (cmpExtendEncoding C (depth + 2) { a with attr := attr' }) := by
  refine balanced_cmpExtendBody inside integers integers' (fun wide => (even wide).1)
    fun wide changed level _ n width small => ?_
  -- The nested call does not reverse the bytes once more.
  refine balanced_cmpExtendBody inside integers integers'
    (fun _ => (even wide).2 changed level n width small) ?_
  rintro - - - ⟨⟩

/-! ## Operands of other sizes -/

variable {n : CmpArgs 128} {selfN : CmpArgs 128 → Its Unit}

omit integers integers' in
theorem balanced_replaceOperand {width : ℕ} (short : width ≤ C.itsLen) (small : width ≤ 16) :
    Balanced buf hshape (replaceOperand C { n with attr := attr } width)
      (replaceOperand C { n with attr := attr' } width) := by
  have fits := inside.fits short
  refine Balanced.loadBuf_bind fits (Balanced.loadOrig_bind fits (Balanced.demand_bind small ?_))
  exact Balanced.whenever Iff.rfl fun _ => Balanced.replaceWord fits small _

theorem balanced_scaleAttemptN :
    Balanced buf hshape (scaleAttemptN C { n with attr := attr })
      (scaleAttemptN C { n with attr := attr' }) := by
  have narrow {x : BitVec 8} (below : x < IS_FP) : x < IS_FP ∧ x < 32 := by
    unfold IS_FP at below ⊢
    exact ⟨below, by bv_omega⟩
  refine Balanced.whenever ?_ fun _ => ?_
  · rw [← and_assoc, ← and_assoc]
    exact and_congr_left fun _ => iff_of_true (narrow integers) (narrow integers')
  · dsimp only
    cases encoded : scaleEncodingN n.repl with
    | none => exact Balanced.pure ()
    | some scale =>
        exact Balanced.whenever Iff.rfl fun short =>
          balanced_executeScale inside short (scaleEncodingN_le encoded)

omit inside integers integers' in
/-- The attribute has no part in a swap. -/
theorem swapped_attr {w : ℕ} (a : CmpArgs w) (swap : BitVec w → BitVec w) (attr : BitVec 8) :
    ({ a with attr := attr } : CmpArgs w).swapped swap = { a.swapped swap with attr := attr } := rfl

theorem balanced_cmpExtendEncodingN (small : hshape ≤ 16) {depth : ℕ}
    (enough : (if n.doReverse then 1 else 0) < depth) :
    Balanced buf hshape (cmpExtendEncodingN C depth { n with attr := attr })
      (cmpExtendEncodingN C depth { n with attr := attr' }) := by
  induction depth generalizing n with
  | zero => exact absurd enough (Nat.not_lt_zero _)
  | succ depth ih =>
      refine Balanced.peek_bind (fun s here => by rw [here.hshape]) (fun s here => by
        rw [here.hshape]) (Balanced.whenever Iff.rfl fun short => ?_)
      refine Balanced.bind (balanced_replaceOperand inside short small) fun _ => ?_
      have reverses (s : ItsState) (here : At buf hshape s) :
          n.doReverse = true ∧ s.status ≠ 1 ↔ n.doReverse = true := and_iff_left here.status
      refine Balanced.peek_bind
        (fun s here => congrArg (· >>= fun _ => _) (whenever_congr (reverses s here) _))
        (fun s here => congrArg (· >>= fun _ => _) (whenever_congr (reverses s here) _))
        (Balanced.bind (Balanced.whenever Iff.rfl fun reverse => ?_)
          fun _ => balanced_scaleAttemptN inside integers integers')
      rw [if_pos reverse] at enough
      rw [CmpArgs.reversed, CmpArgs.reversed, swapped_attr n _ attr, swapped_attr n _ attr']
      generalize swapped_eq : (n.swapped fun x => swapn C.machine x (u32 (hshape <<< 3))) = other
      have once : other.doReverse = false := by rw [← swapped_eq]; rfl
      refine ih (n := other) ?_
      rw [once]
      exact Nat.lt_of_succ_lt_succ enough

end Solvers

/-! ## The calls at a position -/

section Calls

variable {F : ItsStage} {C : CmpPlace} {buf : Buffer} {hshape : ℕ} {attr attr' : BitVec 8}
  {p : LoggedPair}

theorem Tries.untilFound {parts : List (Its Unit)} {mades : List (List (List Byte))}
    (tries : List.Forall₂ (fun part made => Tries buf hshape part () made) parts mades) :
    Tries buf hshape (untilFound parts) false mades.flatten := by
  induction tries with
  | nil => exact Tries.pure false
  | cons first _ ih =>
      exact first.bind (Tries.peek_bind (fun s here => if_neg here.status) ih)

theorem tries_resetStatus : Tries buf hshape resetStatus () [] :=
  Tries.poke (fun _ here => ⟨here.buf, here.hshape, Nat.zero_ne_one⟩) fun _ => rfl

/-- The attribute decides nothing in the call for one order of the operands. -/
def LoggedPair.EvenFor (p : LoggedPair) (C : CmpPlace) (buf : Buffer) (hshape : ℕ) : Prop :=
  p.origO.v0 ≠ p.origO.v1 → 1 < C.bytes hshape →
    C.Even buf hshape (p.args 0) ∧ C.EvenReversed buf hshape (p.args 0)

theorem balanced_solveOrder (inside : C.Inside) (integers : attr < IS_FP)
    (integers' : attr' < IS_FP) (even : p.EvenFor C buf hshape) :
    Balanced buf hshape (solveOrder C p attr) (solveOrder C p attr') :=
  Balanced.whenever Iff.rfl fun worthwhile =>
    balanced_cmpExtendEncoding (a := p.args 0) inside integers integers' (even worthwhile.2) 2

theorem balanced_solveOrderN (inside : C.Inside) (integers : attr < IS_FP)
    (integers' : attr' < IS_FP) (small : hshape ≤ 16) :
    Balanced buf hshape (solveOrderN C p attr) (solveOrderN C p attr') :=
  Balanced.whenever Iff.rfl fun _ =>
    balanced_cmpExtendEncodingN (n := p.argsN attr) inside integers integers' small
      (show 1 < 4 by decide)

/-- The calls for an entry and for the exchanged one are the same, in another order. -/
theorem balanced_callsAt (inside : C.Inside) (integers : attr < IS_FP)
    (swapped : swapa attr < IS_FP) (small : hshape ≤ 16) (even : p.EvenFor C buf hshape)
    (even' : p.exchange.EvenFor C buf hshape) :
    Balanced buf hshape (untilFound (callsAt C hshape attr p))
      (untilFound (callsAt C hshape attr p.exchange)) := by
  obtain ⟨⟨⟩, first, first', tries, tries', perm⟩ :=
    balanced_solveOrder inside integers swapped even
  obtain ⟨⟨⟩, second, second', other, other', perm'⟩ :=
    balanced_solveOrder inside integers swapped even'
  have reset {part : Its Unit} {made : List (List Byte)} (tries : Tries buf hshape part () made) :
      Tries buf hshape (do resetStatus; part) () made := tries_resetStatus.bind tries
  have words : (first ++ second').Perm (second ++ first') :=
    (perm.append perm'.symm).trans List.perm_append_comm
  unfold callsAt
  cases isN hshape with
  | false =>
      refine ⟨false, _, _, Tries.untilFound (.cons tries (.cons (reset other') .nil)),
        Tries.untilFound (.cons other (.cons (reset tries') .nil)), ?_⟩
      simpa using words
  | true =>
      obtain ⟨⟨⟩, wide, wide', triesN, triesN', permN⟩ :=
        balanced_solveOrderN (p := p) inside integers swapped small
      obtain ⟨⟨⟩, more, more', otherN, otherN', permN'⟩ :=
        balanced_solveOrderN (p := p.exchange) inside integers swapped small
      have wides : (wide ++ more').Perm (more ++ wide') :=
        (permN.append permN'.symm).trans List.perm_append_comm
      refine ⟨false, _, _,
        Tries.untilFound (.cons triesN (.cons otherN' (.cons tries (.cons (reset other') .nil)))),
        Tries.untilFound (.cons otherN (.cons triesN' (.cons other (.cons (reset tries') .nil)))),
        ?_⟩
      simpa using wides.append words

/-! ## The entries of a key -/

theorem placesFrom_lt {rounds idx : ℕ} {taints : List Tainted} {place : ℕ × ℕ}
    (member : place ∈ placesFrom rounds idx taints) : place.1 < idx + rounds := by
  induction rounds generalizing idx taints with
  | zero => cases member
  | succ rounds ih =>
      have later {taints : List Tainted} (member : place ∈ placesFrom rounds (idx + 1) taints) :
          place.1 < idx + (rounds + 1) := by
        have := ih member
        omega
      cases taints with
      | nil => cases member
      | cons t rest =>
          rw [placesFrom] at member
          split at member
          · exact later member
          · rcases List.mem_cons.mp member with rfl | member
            · exact Nat.lt_add_of_pos_right rounds.succ_pos
            · exact later member

theorem ItsStage.inside (small : F.len < 2 ^ 32) {place : ℕ × ℕ} (member : place ∈ F.places) :
    (F.place place.1 place.2).Inside := by
  have index := placesFrom_lt member
  rw [Nat.zero_add] at index
  exact ⟨index, small⟩

/-- The attribute decides nothing in the calls for an entry, at no position. -/
def LoggedPair.EvenHanded (p : LoggedPair) (F : ItsStage) (buf : Buffer) (hshape : ℕ) : Prop :=
  ∀ place ∈ F.places, p.EvenFor (F.place place.1 place.2) buf hshape ∧
    p.exchange.EvenFor (F.place place.1 place.2) buf hshape

theorem balanced_solveEntry (integers : attr < IS_FP) (swapped : swapa attr < IS_FP)
    (small : hshape ≤ 16) {places : List (ℕ × ℕ)}
    (each : ∀ place ∈ places, (F.place place.1 place.2).Inside ∧
      p.EvenFor (F.place place.1 place.2) buf hshape ∧
      p.exchange.EvenFor (F.place place.1 place.2) buf hshape) :
    Balanced buf hshape (solveEntry F hshape attr p places)
      (solveEntry F hshape attr p.exchange places) := by
  induction places with
  | nil => exact Balanced.pure false
  | cons place rest ih =>
      have reset : Balanced buf hshape resetStatus resetStatus :=
        ⟨(), [], [], tries_resetStatus, tries_resetStatus, List.Perm.refl _⟩
      obtain ⟨inside, even, even'⟩ := each place List.mem_cons_self
      refine Balanced.bind reset fun _ =>
        Balanced.bind (balanced_callsAt inside integers swapped small even even') fun found => ?_
      cases found with
      | false => exact ih fun place member => each place (List.mem_cons_of_mem _ member)
      | true => exact Balanced.pure true

theorem hadBefore_exchange (earlier : List CmpOperands) (p : LoggedPair) :
    HadBefore (earlier.map exchange) p.exchange.o ↔ HadBefore earlier p.o := by
  constructor
  · rintro ⟨_, member, first, second⟩
    obtain ⟨q, before, rfl⟩ := List.mem_map.mp member
    exact ⟨q, before, second, first⟩
  · rintro ⟨q, before, first, second⟩
    exact ⟨exchange q, List.mem_map_of_mem before, second, first⟩

theorem exchanged_solveEntries (inside : F.len < 2 ^ 32) (integers : attr < IS_FP)
    (swapped : swapa attr < IS_FP) (small : hshape ≤ 16) (earlier : List CmpOperands)
    (pairs : List LoggedPair) (foundOne : Bool)
    (even : ∀ before p after, pairs = before ++ p :: after →
      ¬ HadBefore (earlier ++ before.map LoggedPair.o) p.o → p.EvenHanded F buf hshape) :
    ∃ r r' made made', Tries buf hshape (solveEntries F hshape attr earlier pairs foundOne) r made ∧
      Tries buf hshape (solveEntries F hshape attr (earlier.map exchange)
        (pairs.map LoggedPair.exchange) foundOne) r' made' ∧ made.Perm made' := by
  induction pairs generalizing earlier foundOne with
  | nil => exact ⟨_, _, [], [], Tries.pure _, Tries.pure _, List.Perm.refl _⟩
  | cons p pairs ih =>
      have rest (foundOne : Bool) := ih (earlier ++ [p.o]) foundOne fun before q after split new =>
        even (p :: before) q after (congrArg (p :: ·) split)
          (by rwa [List.map_cons, List.append_cons])
      simp only [List.map_append, List.map_cons, List.map_nil] at rest ⊢
      rw [solveEntries, solveEntries]
      by_cases seen : HadBefore earlier p.o
      · rw [if_pos seen, if_pos ((hadBefore_exchange earlier p).mpr seen)]
        exact rest foundOne
      · rw [if_neg seen, if_neg (mt (hadBefore_exchange earlier p).mp seen)]
        have even := even [] p pairs rfl (by rwa [List.map_nil, List.append_nil])
        have balanced : Balanced buf hshape (solveEntry F hshape attr p F.places)
            (solveEntry F hshape attr p.exchange F.places) :=
          balanced_solveEntry integers swapped small fun place member =>
            ⟨F.inside inside member, even place member⟩
        obtain ⟨found, made, made', tries, tries', perm⟩ := balanced
        obtain ⟨r, r', more, more', tries_rest, tries_rest', perm_rest⟩ := rest (foundOne || found)
        refine ⟨_, _, _, _, tries.bind (tries_rest.bind (Tries.pure _)),
          tries'.bind (tries_rest'.bind (Tries.pure _)), ?_⟩
        rw [List.append_nil, List.append_nil]
        exact perm.append perm_rest

/-- The attribute decides nothing for the entries that `cmp_fuzz` does not pass over. -/
def EvenLog (F : ItsStage) (map origMap : CmpMap) (key : ℕ) (buf : Buffer) : Prop :=
  ∀ before p after,
    loggedPairs map origMap key (cmpFuzzLoggeds (map.headers key)) = before ++ p :: after →
    ¬ HadBefore (before.map LoggedPair.o) p.o →
    p.EvenHanded F buf (shapeBytes (map.headers key).shape)

end Calls

/-! ## A key and the exchanged one -/

/-- The log with `v0` and `v1` exchanged in every entry. -/
def exchangeLog (map : CmpMap) : CmpMap := { map with log := fun key i => exchange (map.log key i) }

/-- A run on a buffer executes these inputs, if no execution fails or finds anything. -/
def Executes {α : Type} (part : Its α) (buf : Buffer) (made : List (List Byte)) : Prop :=
  ∀ s, s.buf = buf → ∀ results, Quiet results → made.length ≤ results.length →
    ∃ r t left, part s results = .ok ((r, t), left) ∧ t.executed = s.executed ++ made

/-- Without finds, both parts execute the same set of inputs. -/
def SameCandidates {α : Type} (part part' : Its α) (buf : Buffer) : Prop :=
  ∃ made made', Executes part buf made ∧ Executes part' buf made' ∧
    ∀ input, input ∈ made ↔ input ∈ made'

section Keys

variable {F : ItsStage} {map origMap : CmpMap} {key count : ℕ} {stat : PassStat} {buf : Buffer}

theorem loggedPairs_exchange :
    loggedPairs (exchangeLog map) (exchangeLog origMap) key count =
      (loggedPairs map origMap key count).map LoggedPair.exchange := by
  rw [loggedPairs, loggedPairs, List.map_map]
  rfl

theorem equality_is_integer {attr : BitVec 4} (equality : attr ≤ 1) :
    attr.setWidth 8 < IS_FP ∧ swapa (attr.setWidth 8) < IS_FP := by
  revert attr
  decide

theorem Executes.of_tries {α : Type} {part : Its α} {made : List (List Byte)} {hshape : ℕ} {r : α}
    (tries : Tries buf hshape part r made) :
    Executes (do poke fun s => { s with hshape := hshape, status := 0 }; part) buf made := by
  intro s here results quiet enough
  have length : (results.take made.length).length = made.length := by
    rw [List.length_take, min_eq_left enough]
  obtain ⟨t, -, executed, run⟩ := tries { s with hshape := hshape, status := 0 }
    ⟨here, rfl, Nat.zero_ne_one⟩ (results.take made.length)
    (fun result member => quiet result (List.mem_of_mem_take member)) length
  have run := run (results.drop made.length)
  rw [List.take_append_drop] at run
  exact ⟨r, t, _, run, executed⟩

/-- **Both orders of the operands of an equality are attacked alike** where the attribute decides
nothing. -/
theorem operands_exchanged (F : ItsStage) (map origMap : CmpMap) (key : ℕ) (stat : PassStat)
    (buf : Buffer) (small : F.len < 2 ^ 32) (shape : shapeBytes (map.headers key).shape ≤ 16)
    (equality : (map.headers key).attr ≤ 1) (even : EvenLog F map origMap key buf) :
    SameCandidates (cmpFuzz F map origMap key stat)
      (cmpFuzz F (exchangeLog map) (exchangeLog origMap) key stat) buf := by
  by_cases narrow : shapeBytes (map.headers key).shape < 2
  · have none (map origMap : CmpMap) (narrow : shapeBytes (map.headers key).shape < 2) :
        Executes (cmpFuzz F map origMap key stat) buf [] := by
      rw [cmpFuzz, if_pos narrow]
      exact Executes.of_tries (Tries.pure _)
    exact ⟨[], [], none map origMap narrow, none _ _ narrow, fun _ => Iff.rfl⟩
  · obtain ⟨integers, swapped⟩ := equality_is_integer equality
    obtain ⟨r, r', made, made', tries, tries', perm⟩ := exchanged_solveEntries small integers
      swapped shape [] _ false even
    have executes {map origMap : CmpMap} {r : Bool × List DictOffer} {made : List (List Byte)}
        (wide : ¬ shapeBytes (map.headers key).shape < 2)
        (tries : Tries buf (shapeBytes (map.headers key).shape)
          (solveEntries F (shapeBytes (map.headers key).shape) ((map.headers key).attr.setWidth 8)
            [] (loggedPairs map origMap key (cmpFuzzLoggeds (map.headers key))) false) r made) :
        Executes (cmpFuzz F map origMap key stat) buf (made ++ []) := by
      rw [cmpFuzz, if_neg wide]
      exact Executes.of_tries (tries.bind (Tries.pure _))
    rw [← loggedPairs_exchange] at tries'
    refine ⟨_, _, executes narrow tries, executes narrow tries', fun input => ?_⟩
    rw [List.append_nil, List.append_nil]
    exact perm.mem_iff

/-- Below the third level, neither transformations nor neighbours are tried. -/
theorem evenLog_of_lower (lower : F.lvl < LVL3) : EvenLog F map origMap key buf := by
  have no_transform : F.lvl &&& LVL3 = 0 := by
    generalize F.lvl = lvl at lower
    revert lvl
    decide +kernel
  have even (C : CmpPlace) (level : C.lvl = F.lvl) (hshape : ℕ) (a : CmpArgs 64) :
      C.Even buf hshape a := by
    rw [← level] at lower no_transform
    refine ⟨fun transform => absurd no_transform transform.2,
      fun transform => absurd no_transform transform.2, fun arith => ?_⟩
    exact absurd lower (BitVec.not_lt.mpr arith.2.1)
  intro before p after _ _ place _
  refine ⟨fun _ _ => ⟨even _ rfl _ _, fun _ _ n _ _ => even _ rfl _ _⟩,
    fun _ _ => ⟨even _ rfl _ _, fun _ _ n _ _ => even _ rfl _ _⟩⟩

/-- The stage for an input of two tainted bytes, with all options on. -/
def twoBytes (lvl : BitVec 8) : ItsStage :=
  { machine := idleMachine, enableTransform := true, enableXtremeTransform := true,
    enableArith := true, enableScale := true, lvl := lvl, len := 2, origBuf := fun _ => 0,
    isAscii := false, taints := [⟨0, 2⟩] }

/-- A test for equality with 7 of four bytes. -/
def equalsSeven (v : BitVec 64) : CmpMap :=
  { headers := fun _ => { hits := 1, shape := 3, attr := 1 }, log := fun _ _ => ⟨v, 0, 7, 0⟩ }

theorem operands_exchanged_first :
    SameCandidates (cmpFuzz (twoBytes LVL1) (equalsSeven 0x0101) (equalsSeven 0) 0 {})
      (cmpFuzz (twoBytes LVL1) (exchangeLog (equalsSeven 0x0101)) (exchangeLog (equalsSeven 0)) 0
        {})
      fun _ => 1 :=
  operands_exchanged (twoBytes LVL1) (equalsSeven 0x0101) (equalsSeven 0) 0 {} _ (by decide)
    (by decide) (by decide) (evenLog_of_lower (by decide))

/-- What a run executed. -/
def executedBy {α : Type} : Except Halt ((α × ItsState) × List ExecResult) → List (List Byte)
  | .ok ((_, t), _) => t.executed
  | .error _ => []

theorem Executes.executedBy {α : Type} {part : Its α} {made : List (List Byte)}
    (executes : Executes part buf made) {s : ItsState} (here : s.buf = buf)
    {results : List ExecResult} (quiet : Quiet results) (enough : made.length ≤ results.length) :
    executedBy (part s results) = s.executed ++ made := by
  obtain ⟨r, t, left, run, executed⟩ := executes s here results quiet enough
  rw [run]
  exact executed

/-- The stage for the input of two bytes that only tries neighbours. -/
def neighbours : ItsStage :=
  { twoBytes LVL3 with enableTransform := false, enableXtremeTransform := false }

def onesState : ItsState :=
  { buf := fun _ => 1, cbuf := fun _ => 0, scratch := fun _ => 0, hshape := 0, status := 0,
    erange := false, executed := [], finds := [] }

/-- With the changed operand first nothing is executed, and with the other one first three inputs
are. -/
theorem neighbours_executed (results : List ExecResult) :
    executedBy (cmpFuzz neighbours (equalsSeven 0x0101) (equalsSeven 0) 0 {} onesState results) =
        [] ∧
      executedBy (cmpFuzz neighbours (exchangeLog (equalsSeven 0x0101))
        (exchangeLog (equalsSeven 0)) 0 {} onesState
        (nothingFound :: nothingFound :: nothingFound :: results)) =
        [[0, 0], [8, 0], [0, 8]] := by
  constructor <;> cbv

/-- A test for equality is attacked for one order of its operands, and not for the other. -/
theorem operands_not_exchanged :
    ((equalsSeven 0x0101).headers 0).attr ≤ 1 ∧
      ¬ SameCandidates (cmpFuzz neighbours (equalsSeven 0x0101) (equalsSeven 0) 0 {})
        (cmpFuzz neighbours (exchangeLog (equalsSeven 0x0101)) (exchangeLog (equalsSeven 0)) 0 {})
        fun _ => 1 := by
  refine ⟨by decide, ?_⟩
  rintro ⟨made, made', executes, executes', same⟩
  have quiet (n : ℕ) : Quiet (List.replicate n nothingFound) := fun result member => by
    rw [List.eq_of_mem_replicate member]
    rfl
  have none : made = [] := by
    have executed := executes.executedBy (s := onesState) rfl (quiet made.length)
      (List.length_replicate).ge
    exact executed.symm.trans (neighbours_executed _).1
  have three : made' = [[0, 0], [8, 0], [0, 8]] := by
    have executed := executes'.executedBy (s := onesState) rfl (quiet (made'.length + 3))
      (by rw [List.length_replicate]; exact Nat.le_add_right _ 3)
    exact executed.symm.trans (neighbours_executed (List.replicate made'.length nothingFound)).2
  have tried : [8, 0] ∈ made := by
    rw [same, three]
    exact .tail _ (.head _)
  rw [none] at tried
  cases tried

end Keys

end GreenFuzz.Redqueen
