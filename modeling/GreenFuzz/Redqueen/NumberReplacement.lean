import GreenFuzz.Redqueen.CmpRestores
import GreenFuzz.Redqueen.CmpRuns

/-!
# The input with another number in it

When the input has a number at the index that the target compares, `cmp_extend_encoding`
executes the input with the decimal digits of the other operand in the number's place. What it
means to execute is `intendedInput`, whose length changes with the number of characters. What it
executes has the length of the old input: bytes at the end are cut off, or bytes that were never
written are added, unless the two numbers have equally many characters (`number_executed_iff`).
-/

set_option autoImplicit false

namespace GreenFuzz.Redqueen

open Library AflFuzz

/-- The first byte, if it is a digit, becomes a blank. -/
def blankDigit : List Byte → List Byte
  | [] => []
  | byte :: rest => (if isDigit byte then 32 else byte) :: rest

/-- The input with a number of `oldLen` characters replaced. -/
def intendedInput (buf : Buffer) (idx len oldLen : ℕ) (text : List Byte) : List Byte :=
  inputOf idx buf ++ text ++ blankDigit (bytesFrom buf (idx + oldLen) (len - idx - oldLen))

section Number

variable {buf scratch : Buffer} {idx len oldLen : ℕ} {text : List Byte}

theorem length_blankDigit (bytes : List Byte) : (blankDigit bytes).length = bytes.length := by
  cases bytes <;> rfl

theorem length_intendedInput (fits : idx + oldLen ≤ len) :
    (intendedInput buf idx len oldLen text).length + oldLen = len + text.length := by
  rw [intendedInput, List.length_append, List.length_append, length_blankDigit, inputOf, bytesFrom,
    List.length_map, List.length_map, List.length_range, List.length_range]
  omega

theorem getElem?_blankDigit (bytes : List Byte) (k : ℕ) :
    (blankDigit bytes)[k]? =
      bytes[k]?.map fun byte => if k = 0 ∧ isDigit byte then 32 else byte := by
  cases bytes with
  | nil => rfl
  | cons byte rest =>
      cases k with
      | zero => simp [blankDigit]
      | succ k => simp [blankDigit]

theorem intendedInput_before {i : ℕ} (before : i < idx) :
    (intendedInput buf idx len oldLen text)[i]? = some (buf i) := by
  rw [intendedInput, List.append_assoc, List.getElem?_append_left, inputOf, List.getElem?_map,
    List.getElem?_range before, Option.map_some]
  simpa only [inputOf, List.length_map, List.length_range] using before

theorem intendedInput_text {k : ℕ} (inside : k < text.length) :
    (intendedInput buf idx len oldLen text)[idx + k]? = text[k]? := by
  have length : (inputOf idx buf).length = idx := by
    rw [inputOf, List.length_map, List.length_range]
  rw [intendedInput, List.append_assoc, List.getElem?_append_right (by omega), length,
    Nat.add_sub_cancel_left, List.getElem?_append_left inside]

theorem intendedInput_behind {k : ℕ} (inside : k < len - idx - oldLen) :
    (intendedInput buf idx len oldLen text)[idx + text.length + k]? =
      some (if k = 0 ∧ isDigit (buf (idx + oldLen + k)) then 32 else buf (idx + oldLen + k)) := by
  have length : (inputOf idx buf ++ text).length = idx + text.length := by
    rw [List.length_append, inputOf, List.length_map, List.length_range]
  rw [intendedInput, List.getElem?_append_right (by omega), length, Nat.add_sub_cancel_left,
    getElem?_blankDigit, bytesFrom, List.getElem?_map, List.getElem?_range inside]
  rfl

theorem numberBuf_apply (i : ℕ) :
    numberBuf buf scratch idx len oldLen text i =
      if i = idx + text.length ∧ isDigit (copiedNumber buf scratch idx len oldLen text i) then 32
      else copiedNumber buf scratch idx len oldLen text i := by
  by_cases digit : isDigit (copiedNumber buf scratch idx len oldLen text (idx + text.length))
  · rw [numberBuf, if_pos digit]
    by_cases here : i = idx + text.length
    · subst here
      rw [Function.update_self, if_pos ⟨rfl, digit⟩]
    · rw [Function.update_of_ne here, if_neg (not_and_of_not_left _ here)]
  · rw [numberBuf, if_neg digit, if_neg]
    rintro ⟨rfl, other⟩
    exact digit other

theorem copiedNumber_text {k : ℕ} (inside : k < text.length) :
    some (copiedNumber buf scratch idx len oldLen text (idx + k)) = text[k]? := by
  have not_before : ¬ idx + k < idx := by omega
  have in_text : idx + k < idx + text.length := by omega
  rw [copiedNumber, if_neg not_before, if_pos in_text, Nat.add_sub_cancel_left,
    List.getD_eq_getElem?_getD, List.getElem?_eq_getElem inside]
  rfl

theorem copiedNumber_behind {k : ℕ} (inside : k < len - idx - oldLen) :
    copiedNumber buf scratch idx len oldLen text (idx + text.length + k) =
      buf (idx + oldLen + k) := by
  have not_before : ¬ idx + text.length + k < idx := by omega
  have not_text : ¬ idx + text.length + k < idx + text.length := by omega
  have in_rest : idx + text.length + k < idx + text.length + (len - idx - oldLen) := by omega
  have source : idx + text.length + k - text.length + oldLen = idx + oldLen + k := by omega
  rw [copiedNumber, if_neg not_before, if_neg not_text, if_pos in_rest, source]

/-- Where the two numbers have equally many characters, the scratch buffer holds the input. -/
theorem numberBuf_eq (same : text.length = oldLen) {i : ℕ} (inside : i < len) :
    some (numberBuf buf scratch idx len oldLen text i) =
      (intendedInput buf idx len oldLen text)[i]? := by
  rw [numberBuf_apply]
  rcases Nat.lt_or_ge i idx with before | later
  · have elsewhere : i ≠ idx + text.length := by omega
    rw [if_neg fun both => elsewhere both.1, copiedNumber, if_pos before,
      intendedInput_before before]
  rcases Nat.lt_or_ge i (idx + text.length) with digit | behind
  · obtain ⟨k, rfl⟩ := Nat.exists_eq_add_of_le later
    have k_inside : k < text.length := by omega
    rw [if_neg fun both => digit.ne both.1, copiedNumber_text k_inside, intendedInput_text k_inside]
  · obtain ⟨k, rfl⟩ := Nat.exists_eq_add_of_le behind
    have k_inside : k < len - idx - oldLen := by omega
    have first : idx + text.length + k = idx + text.length ↔ k = 0 := by omega
    rw [copiedNumber_behind k_inside, intendedInput_behind k_inside]
    simp only [first]

/-- **The executed bytes are the intended input exactly when both numbers have equally many
characters.** -/
theorem numberInput_eq_iff (fits : idx + oldLen ≤ len) :
    inputOf len (numberBuf buf scratch idx len oldLen text) =
        intendedInput buf idx len oldLen text ↔ text.length = oldLen := by
  have length : (intendedInput buf idx len oldLen text).length + oldLen = len + text.length :=
    length_intendedInput fits
  constructor
  · intro same
    rw [← same, inputOf, List.length_map, List.length_range] at length
    omega
  · intro same
    apply List.ext_getElem?
    intro i
    rcases Nat.lt_or_ge i len with inside | beyond
    · rw [← numberBuf_eq same inside, inputOf, List.getElem?_map, List.getElem?_range inside]
      rfl
    · rw [List.getElem?_eq_none (by rw [inputOf, List.length_map, List.length_range]; exact beyond),
        List.getElem?_eq_none (by omega)]

/-- Nor do bytes of the scratch buffer matter then. -/
theorem numberInput_scratch (fits : idx + oldLen ≤ len) (same : text.length = oldLen)
    (other : Buffer) :
    inputOf len (numberBuf buf other idx len oldLen text) =
      inputOf len (numberBuf buf scratch idx len oldLen text) :=
  ((numberInput_eq_iff fits).mpr same).trans ((numberInput_eq_iff fits).mpr same).symm

end Number

/-! ## Runs -/

section Runs

variable {C : CmpPlace} {a : CmpArgs 64} {s t : ItsState} {supply left : List ExecResult} {u : Unit}
  {oldLen : ℕ} {text : List Byte}

/-- The scratch buffer is executed, and nothing of it is copied to the combined buffer. -/
theorem run_executeNumber (run : executeNumber C oldLen text s supply = .ok ((u, t), left)) :
    let input := inputOf C.len (numberBuf s.buf s.scratch C.idx C.len oldLen text)
    t.executed = s.executed ++ [input] ∧ ∃ (result : ExecResult) (known : Buffer),
      t.finds = if result.found then s.finds ++ [⟨.number, s.buf, input, known, known⟩]
        else s.finds := by
  obtain ⟨-, run⟩ := run_demand_bind run
  have run := run_peek_bind run
  have run := run_poke_bind run
  have run := run_peek_bind run
  obtain ⟨_, _, _, run_fuzz, run⟩ := run_bind_ok run
  obtain ⟨result, rfl, rfl⟩ := run_itsFuzz run_fuzz
  have run := run_peek_bind run
  obtain ⟨rfl, rfl⟩ := run_recordFind run
  intro input
  refine ⟨rfl, result, result.cbufAfter input s.cbuf, ?_⟩
  cases result.found <;> rfl

/-- More and more is executed. -/
theorem executed_grows (C : CmpPlace) : KeptByAttempts C fun s t => s.executed <+: t.executed where
  refl s := List.prefix_refl s.executed
  trans s t u first second := first.trans second
  globals s _ _ _ := List.prefix_refl s.executed
  number oldLen text s supply u t left run := ⟨_, (run_executeNumber run).1.symm⟩
  replace room n word s supply u t left run := by
    obtain ⟨result, input, known, -, -, -, rfl⟩ := run_replaceWord run
    exact List.prefix_append _ _

/-- The text is the other operand, as a signed or an unsigned number. -/
theorem numberAt_text {str : List Byte} {erange : Bool} {pattern repl : BitVec 64}
    (found : (numberAt str erange pattern repl).1 = some (oldLen, text)) :
    text = decimal repl.toInt ∨ text = decimal repl.toNat := by
  unfold numberAt at found
  split at found
  · dsimp only at found
    split at found
    · cases found
      exact .inl rfl
    · cases found
  · split at found
    · dsimp only at found
      split at found
      · cases found
        exact .inr rfl
      · cases found
    · cases found

/-- The number in the input, where `cmp_extend_encoding` looks for one. -/
structure NumberFound (C : CmpPlace) (a : CmpArgs 64) (s : ItsState) (oldLen : ℕ)
    (text : List Byte) : Prop where
  bytes : 1 < min (shapeWidth s.hshape) (u32Sub C.len C.idx)
  enabled : C.enableTransform = true
  level : C.lvl &&& LVL3 ≠ 0
  number : (numberAt (C.text s.buf) s.erange a.pattern a.repl).1 = some (oldLen, text)

theorem NumberFound.fits (found : NumberFound C a s oldLen text) (inside : C.Inside) :
    C.idx + oldLen ≤ C.len := by
  have stop := numberAt_end_le found.number
  rw [CmpPlace.text, List.length_map, List.length_range] at stop
  have := inside.index
  omega

/-- The number is replaced before anything else is tried. -/
theorem NumberFound.first_executed (found : NumberFound C a s oldLen text) {depth : ℕ}
    (run : cmpExtendEncoding C (depth + 1) a s supply = .ok ((u, t), left)) :
    s.executed ++ [inputOf C.len (numberBuf s.buf s.scratch C.idx C.len oldLen text)] <+:
      t.executed := by
  have grows := executed_grows C
  have nested : ∀ b, Leads _ (cmpExtendEncoding C depth b) := grows.cmpExtendEncoding depth
  have run : cmpExtendBody C (cmpExtendEncoding C depth) a s supply = .ok ((u, t), left) := run
  have run := run_peek_bind run
  rw [whenever, if_pos found.bytes] at run
  obtain ⟨_, v, _, run_expensive, run_plain⟩ := run_bind_ok run
  refine List.IsPrefix.trans ?_ (grows.plainAttempts nested _ _ _ _ _ run_plain)
  rw [expensiveAttempts, whenever, if_pos ⟨found.enabled, found.level⟩] at run_expensive
  obtain ⟨_, w, _, run_number, run_magic⟩ := run_bind_ok run_expensive
  refine List.IsPrefix.trans ?_
    (Leads.whenever grows.refl (grows.transformMagic nested _) _ _ _ _ _ run_magic)
  have run_number := run_peek_bind run_number
  have run_number := run_poke_bind run_number
  rw [found.number] at run_number
  rw [(run_executeNumber run_number).1]

/-- **The input that is executed for a number is the one that is meant, and free of bytes that
were never written, exactly when the new number has as many characters as the old one.** -/
theorem number_executed_iff (inside : C.Inside) (found : NumberFound C a s oldLen text) (depth : ℕ)
    (run : cmpExtendEncoding C (depth + 1) a s supply = .ok (((), t), left)) :
    (text = decimal a.repl.toInt ∨ text = decimal a.repl.toNat) ∧
      ∃ input more, t.executed = s.executed ++ input :: more ∧
        ((input = intendedInput s.buf C.idx C.len oldLen text ∧
            ∀ scratch, inputOf C.len (numberBuf s.buf scratch C.idx C.len oldLen text) = input) ↔
          text.length = oldLen) := by
  refine ⟨numberAt_text found.number, ?_⟩
  obtain ⟨more, executed⟩ := found.first_executed run
  refine ⟨inputOf C.len (numberBuf s.buf s.scratch C.idx C.len oldLen text), more, ?_, ?_⟩
  · rw [← executed, List.append_assoc, List.singleton_append]
  · have fits := found.fits inside
    constructor
    · intro meant
      exact (numberInput_eq_iff fits).mp meant.1
    · intro same
      exact ⟨(numberInput_eq_iff fits).mpr same, numberInput_scratch fits same⟩

/-- For `7ab` and the number 8, `8ab` is executed. -/
theorem number_executed_iff_eight :
    NumberFound firstOfThree (sevenArgs 8) sevenState 1 [56] ∧
      ∃ t left, cmpExtendEncoding firstOfThree 1 (sevenArgs 8) sevenState [nothingFound] =
          .ok (((), t), left) ∧
        ∃ input more, t.executed = [] ++ input :: more ∧
          ((input = intendedInput sevenState.buf 0 3 1 [56] ∧
              ∀ scratch, inputOf 3 (numberBuf sevenState.buf scratch 0 3 1 [56]) = input) ↔
            [56].length = 1) := by
  have found : NumberFound firstOfThree (sevenArgs 8) sevenState 1 [56] :=
    ⟨by decide, rfl, by decide, by decide⟩
  have returns : ∃ t left, cmpExtendEncoding firstOfThree 1 (sevenArgs 8) sevenState
      [nothingFound] = .ok (((), t), left) := ⟨_, _, rfl⟩
  obtain ⟨t, left, run⟩ := returns
  exact ⟨found, t, left, run, (number_executed_iff ⟨by decide, by decide⟩ found 0 run).2⟩

/-- For `7ab` and the number 10, `10a` is executed instead of `10ab`. -/
theorem number_cut_off :
    NumberFound firstOfThree (sevenArgs 10) sevenState 1 (decimal 10) ∧
      ∃ t left, cmpExtendEncoding firstOfThree 1 (sevenArgs 10) sevenState [nothingFound] =
          .ok (((), t), left) ∧
        t.executed = [[49, 48, 97]] ∧
        intendedInput sevenState.buf 0 3 1 (decimal 10) = [49, 48, 97, 98] :=
  ⟨⟨by decide, rfl, by decide, by decide⟩, _, _, rfl, by decide, by decide⟩

end Runs

end GreenFuzz.Redqueen
