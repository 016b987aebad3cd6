import GreenFuzz.AflFuzz.Extras
import GreenFuzz.Library.CStrings

/-!
# Pairs of names and values in a string

A string is read from the left. A pair is the name of a variable, an `=` and a value, which stands
in single or double quotes or ends at a space. What can be read are the pairs up to the first place
where there is none (`Reading`). There is exactly one reading of each string (`exists_reading`,
`Reading.unique`).

The first pair of a string is computed by `firstPair` (`firstPair_iff`).
-/

set_option autoImplicit false

namespace GreenFuzz.Common

open Library
open AflFuzz (ord isDigit isLabel quoteMark)

/-- The name and the value of a variable. -/
abbrev EnvPair := List Byte × List Byte

/-! ## What stands in a string -/

/-- A name of a variable: letters, digits and underscores, and no digit first. -/
structure IsName (name : List Byte) : Prop where
  nonempty : name ≠ []
  noDigit : ∀ b ∈ name.head?, isDigit b = false
  labels : ∀ b ∈ name, isLabel b = true

/-- A quotation mark that a value may stand in. -/
abbrev IsQuote (b : Byte) : Prop := b = ord '\'' ∨ b = quoteMark

/-- A value that does not stand in quotes. -/
structure IsBare (value : List Byte) : Prop where
  nonempty : value ≠ []
  unquoted : ∀ b ∈ value.head?, ¬ IsQuote b
  noBlank : ord ' ' ∉ value

/-- The value at the beginning of a string, and what follows it. -/
inductive ValueFirst : List Byte → List Byte → List Byte → Prop where
  | last {value : List Byte} (bare : IsBare value) : ValueFirst value value []
  | blank {value rest : List Byte} (bare : IsBare value) :
      ValueFirst (value ++ ord ' ' :: rest) value rest
  | quoted {mark : Byte} {value rest : List Byte} (quote : IsQuote mark) (closed : mark ∉ value) :
      ValueFirst (mark :: (value ++ mark :: rest)) value rest

/-- The pair at the beginning of a string, and what follows it. -/
inductive PairFirst : List Byte → EnvPair → List Byte → Prop where
  | pair {name text value rest : List Byte} (isName : IsName name)
      (first : ValueFirst text value rest) :
      PairFirst (name ++ ord '=' :: text) (name, value) rest

/-- A string without the blanks at its beginning. -/
def unblanked (text : List Byte) : List Byte := text.dropWhile fun b => b = ord ' '

/-- The pairs that are read from the left, as long as there are any, and what is left then. -/
inductive Reading : List Byte → List EnvPair → List Byte → Prop where
  | stop {text : List Byte} (noMore : ¬ ∃ pair rest, PairFirst (unblanked text) pair rest) :
      Reading text [] text
  | pair {text rest left : List Byte} {pair : EnvPair} {pairs : List EnvPair}
      (first : PairFirst (unblanked text) pair rest) (more : Reading rest pairs left) :
      Reading text (pair :: pairs) left

/-- At most one byte is left, apart from blanks. -/
def AtEnd (text : List Byte) : Prop := (unblanked text).length ≤ 1

instance : DecidablePred AtEnd := fun _ => inferInstanceAs (Decidable (_ ≤ 1))

/-! ## The first pair -/

/-- The value at the beginning of a string, and what follows it, if there is one. -/
def firstValue : List Byte → Option (List Byte × List Byte)
  | [] => none
  | mark :: inner =>
      if mark = ord ' ' then none
      else if IsQuote mark then
        match inner.dropWhile (· ≠ mark) with
        | [] => none
        | _ :: rest => some (inner.takeWhile (· ≠ mark), rest)
      else some ((mark :: inner).takeWhile (· ≠ ord ' '),
        ((mark :: inner).dropWhile (· ≠ ord ' ')).tail)

/-- The pair at the beginning of a string, and what follows it, if there is one. -/
def firstPair (text : List Byte) : Option (EnvPair × List Byte) :=
  if ∀ b ∈ text.head?, b = ord '=' ∨ isDigit b then none
  else
    match text.dropWhile isLabel with
    | [] => none
    | b :: value =>
        if b ≠ ord '=' then none
        else (firstValue value).map fun first => ((text.takeWhile isLabel, first.1), first.2)

variable {text value rest name : List Byte} {pair : EnvPair}

theorem firstValue_of_bare {mark : Byte} {inner : List Byte} (bare : IsBare (mark :: inner))
    (tail : List Byte) (ends : tail = [] ∨ ∃ more, tail = ord ' ' :: more) :
    firstValue (mark :: inner ++ tail) = some (mark :: inner, tail.tail) := by
  have noBlank : mark ≠ ord ' ' := fun same => bare.noBlank (same ▸ List.mem_cons_self)
  have noQuote : ¬ IsQuote mark := bare.unquoted mark rfl
  rw [List.cons_append, firstValue, if_neg noBlank, if_neg noQuote, ← List.cons_append]
  have passed := passed_of_not_mem bare.noBlank
  rcases ends with rfl | ⟨more, rfl⟩
  · rw [List.append_nil, List.takeWhile_eq_self_iff.mpr passed,
      List.dropWhile_eq_nil_iff.mpr passed]
  · rw [takeWhile_append_cons passed (by simp), dropWhile_append_cons passed (by simp)]

theorem IsQuote.ne_blank {mark : Byte} (quote : IsQuote mark) : mark ≠ ord ' ' := by
  rintro rfl
  revert quote
  decide

theorem firstValue_of_valueFirst (first : ValueFirst text value rest) :
    firstValue text = some (value, rest) := by
  cases first with
  | last bare =>
      obtain ⟨mark, inner, rfl⟩ := List.exists_cons_of_ne_nil bare.nonempty
      have found := firstValue_of_bare bare [] (.inl rfl)
      rwa [List.append_nil] at found
  | blank bare =>
      obtain ⟨mark, inner, rfl⟩ := List.exists_cons_of_ne_nil bare.nonempty
      exact firstValue_of_bare bare _ (.inr ⟨rest, rfl⟩)
  | quoted quote closed =>
      have passed := passed_of_not_mem closed
      rw [firstValue, if_neg quote.ne_blank, if_pos quote,
        dropWhile_append_cons passed (by simp), takeWhile_append_cons passed (by simp)]

theorem isBare_of_passed {mark : Byte} (starts : text.head? = some mark) (quote : ¬ IsQuote mark)
    (passed : ∀ b ∈ text, decide (b ≠ ord ' ') = true) : IsBare text where
  nonempty := by
    rintro rfl
    cases starts
  unquoted := by
    intro b first
    cases starts.symm.trans first
    exact quote
  noBlank := fun member => by simpa using passed _ member

theorem valueFirst_of_firstValue (found : firstValue text = some (value, rest)) :
    ValueFirst text value rest := by
  cases text with
  | nil => cases found
  | cons mark inner =>
      rw [firstValue, Option.ite_none_left_eq_some] at found
      obtain ⟨noBlank, found⟩ := found
      by_cases quote : IsQuote mark
      · rw [if_pos quote] at found
        rcases all_or_first (· ≠ mark) inner with all | ⟨front, a, back, rfl, passed, closes⟩
        · rw [List.dropWhile_eq_nil_iff.mpr all] at found
          cases found
        · obtain rfl : a = mark := by simpa using closes
          rw [dropWhile_append_cons passed closes, takeWhile_append_cons passed closes] at found
          cases found
          exact .quoted quote fun member => by simpa using passed _ member
      · rw [if_neg quote] at found
        rcases all_or_first (· ≠ ord ' ') (mark :: inner) with
          all | ⟨front, a, back, split, passed, ends⟩
        · rw [List.takeWhile_eq_self_iff.mpr all, List.dropWhile_eq_nil_iff.mpr all] at found
          cases found
          exact .last (isBare_of_passed rfl quote all)
        · obtain rfl : a = ord ' ' := by simpa using ends
          rw [split, takeWhile_append_cons passed ends, dropWhile_append_cons passed ends] at found
          cases found
          rw [split]
          refine .blank (isBare_of_passed ?_ quote passed)
          cases value with
          | nil =>
              cases split
              exact absurd rfl noBlank
          | cons first more =>
              cases split
              rfl

/-- The value at the beginning of a string is found. -/
theorem firstValue_iff : firstValue text = some (value, rest) ↔ ValueFirst text value rest :=
  ⟨valueFirst_of_firstValue, firstValue_of_valueFirst⟩

theorem not_isLabel_equals : isLabel (ord '=') = false := by decide

/-- The first byte of a string that starts with a name. -/
theorem IsName.starts (isName : IsName name) (more : List Byte) :
    ¬ ∀ b ∈ (name ++ more).head?, b = ord '=' ∨ isDigit b = true := by
  obtain ⟨first, others, rfl⟩ := List.exists_cons_of_ne_nil isName.nonempty
  intro refused
  rcases refused first rfl with rfl | digit
  · exact absurd (isName.labels _ List.mem_cons_self) (by decide)
  · exact absurd digit (by rw [isName.noDigit first rfl]; exact Bool.false_ne_true)

theorem firstPair_of_pairFirst (first : PairFirst text pair rest) :
    firstPair text = some (pair, rest) := by
  obtain ⟨isName, first⟩ := first
  rw [firstPair, if_neg (isName.starts _),
    dropWhile_append_cons isName.labels not_isLabel_equals,
    takeWhile_append_cons isName.labels not_isLabel_equals]
  dsimp only
  rw [if_neg (not_not_intro rfl), firstValue_iff.mpr first]
  rfl

theorem pairFirst_of_firstPair (found : firstPair text = some (pair, rest)) :
    PairFirst text pair rest := by
  rw [firstPair, Option.ite_none_left_eq_some] at found
  obtain ⟨starts, found⟩ := found
  rcases all_or_first isLabel text with all | ⟨front, a, back, rfl, labels, ends⟩
  · rw [List.dropWhile_eq_nil_iff.mpr all] at found
    cases found
  · rw [dropWhile_append_cons labels ends, takeWhile_append_cons labels ends] at found
    dsimp only at found
    rw [Option.ite_none_left_eq_some] at found
    obtain ⟨equals, found⟩ := found
    obtain rfl := not_not.mp equals
    obtain ⟨⟨value, left⟩, first, same⟩ := Option.map_eq_some_iff.mp found
    cases same
    refine .pair ⟨?_, ?_, labels⟩ (firstValue_iff.mp first)
    · rintro rfl
      exact starts fun b first => .inl (Option.some.inj first).symm
    · intro b first
      by_contra digit
      refine starts fun c first' => ?_
      rw [List.head?_append, first] at first'
      cases first'
      exact .inr (by simpa using digit)

/-- The pair at the beginning of a string is found. -/
theorem firstPair_iff : firstPair text = some (pair, rest) ↔ PairFirst text pair rest :=
  ⟨pairFirst_of_firstPair, firstPair_of_pairFirst⟩

/-! ## Readings -/

theorem ValueFirst.suffix (first : ValueFirst text value rest) :
    ∃ front, text = front ++ rest ∧ front ≠ [] := by
  cases first with
  | last bare => exact ⟨text, (List.append_nil _).symm, bare.nonempty⟩
  | blank bare => exact ⟨value ++ [ord ' '], (List.append_cons value _ rest), by simp⟩
  | @quoted mark _ _ _ _ => exact ⟨mark :: (value ++ [mark]), by simp, List.cons_ne_nil _ _⟩

theorem PairFirst.suffix (first : PairFirst text pair rest) :
    ∃ front, text = front ++ rest ∧ 2 < front.length := by
  obtain ⟨isName, first⟩ := first
  obtain ⟨front, rfl, nonempty⟩ := first.suffix
  refine ⟨_ ++ ord '=' :: front, (List.append_assoc _ (ord '=' :: front) rest).symm, ?_⟩
  have named := List.length_pos_iff.mpr isName.nonempty
  have valued := List.length_pos_iff.mpr nonempty
  rw [List.length_append, List.length_cons]
  omega

theorem exists_blanks (text : List Byte) : ∃ blanks, text = blanks ++ unblanked text ∧
    ∀ b ∈ blanks, b = ord ' ' :=
  ⟨text.takeWhile fun b => b = ord ' ', List.takeWhile_append_dropWhile.symm,
    fun b member => of_decide_eq_true (p := b = ord ' ')
      (List.mem_takeWhile_imp (p := fun b => decide (b = ord ' ')) member)⟩

theorem noNull_unblanked (noNull : 0 ∉ text) : 0 ∉ unblanked text :=
  fun member => noNull (List.dropWhile_subset _ member)

theorem unblanked_ne_nil (last : ¬ AtEnd text) : unblanked text ≠ [] := by
  intro empty
  exact last (by rw [AtEnd, empty]; exact Nat.zero_le _)

/-- A pair, with the blanks before it, is taken off the string. -/
theorem PairFirst.length_lt (first : PairFirst (unblanked text) pair rest) :
    rest.length < text.length := by
  obtain ⟨front, split, long⟩ := first.suffix
  obtain ⟨blanks, whole, -⟩ := exists_blanks text
  rw [whole, split, List.length_append, List.length_append]
  omega

theorem PairFirst.not_atEnd (first : PairFirst (unblanked text) pair rest) : ¬ AtEnd text := by
  obtain ⟨front, split, long⟩ := first.suffix
  rw [AtEnd, split, List.length_append]
  omega

theorem PairFirst.noNull (first : PairFirst (unblanked text) pair rest) (noNull : 0 ∉ text) :
    0 ∉ rest := by
  obtain ⟨front, split, -⟩ := first.suffix
  intro member
  exact noNull_unblanked noNull (split ▸ List.mem_append_right front member)

/-- A reading exists. -/
theorem exists_reading (text : List Byte) : ∃ pairs left, Reading text pairs left := by
  induction length : text.length using Nat.strong_induction_on generalizing text with
  | _ n ih =>
      by_cases first : ∃ pair rest, PairFirst (unblanked text) pair rest
      · obtain ⟨pair, rest, first⟩ := first
        obtain ⟨pairs, left, more⟩ := ih _ (first.length_lt.trans_eq length) rest rfl
        exact ⟨_, _, .pair first more⟩
      · exact ⟨_, _, .stop first⟩

/-- There is only one reading. -/
theorem Reading.unique {pairs pairs' : List EnvPair} {left left' : List Byte}
    (reading : Reading text pairs left) (reading' : Reading text pairs' left') :
    pairs = pairs' ∧ left = left' := by
  induction reading generalizing pairs' with
  | stop noMore =>
      cases reading' with
      | stop => exact ⟨rfl, rfl⟩
      | pair first => exact absurd ⟨_, _, first⟩ noMore
  | pair first _ ih =>
      cases reading' with
      | stop noMore => exact absurd ⟨_, _, first⟩ noMore
      | pair first' more' =>
          have same := (firstPair_iff.mpr first).symm.trans (firstPair_iff.mpr first')
          cases same
          obtain ⟨rfl, rfl⟩ := ih more'
          exact ⟨rfl, rfl⟩

end GreenFuzz.Common
