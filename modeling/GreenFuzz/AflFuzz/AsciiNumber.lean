import GreenFuzz.AflFuzz.MutateBounds

/-!
# The number in the text

The number of a text at a drawn offset is the first run of digits from there on, or else
from the beginning (`NumberAt`), and it is negative after a minus sign (`numberValue`).
The mutator finds this run and reads its value, or the first digits of a value that is too
large for an `s64` (`parseNumber_spec`).
-/

set_option autoImplicit false

namespace GreenFuzz.AflFuzz

open Library

/-! ## Digits -/

/-- The value of a text of digits. -/
def digitsValue (text : List Byte) : ℕ :=
  Nat.ofDigits 10 (text.reverse.map fun byte => (byte - 48).toNat)

theorem digitsValue_append (first second : List Byte) :
    digitsValue (first ++ second) =
      digitsValue first * 10 ^ second.length + digitsValue second := by
  rw [digitsValue, List.reverse_append, List.map_append, Nat.ofDigits_append, List.length_map,
    List.length_reverse, ← digitsValue, ← digitsValue]
  ring

theorem digitsValue_singleton (byte : Byte) : digitsValue [byte] = (byte - 48).toNat :=
  Nat.ofDigits_singleton

theorem digitsValue_le_append (first second : List Byte) :
    digitsValue first ≤ digitsValue (first ++ second) := by
  have power : 1 ≤ 10 ^ second.length := Nat.one_le_pow _ _ (by decide)
  rw [digitsValue_append]
  exact (Nat.le_mul_of_pos_right _ power).trans (Nat.le_add_right _ _)

theorem toNat_sub_of_isDigit {byte : Byte} (digit : isDigit byte = true) :
    (byte - 48).toNat < 10 := by
  simp only [isDigit, Bool.and_eq_true, decide_eq_true_eq] at digit
  bv_omega

theorem digitsValue_lt {text : List Byte} (digits : ∀ byte ∈ text, isDigit byte = true) :
    digitsValue text < 10 ^ text.length := by
  have below : ∀ digit ∈ text.reverse.map fun byte => (byte - 48).toNat, digit < 10 := by
    intro digit mem
    obtain ⟨byte, inText, rfl⟩ := List.mem_map.mp mem
    exact toNat_sub_of_isDigit (digits byte (List.mem_reverse.mp inText))
  have less := Nat.ofDigits_lt_base_pow_length (by decide) below
  rwa [List.length_map, List.length_reverse] at less

/-- The decimal text of a number has its value. -/
theorem digitsValue_decimalNat (n : ℕ) : digitsValue (decimalNat n) = n := by
  rw [decimalNat]
  split
  · rename_i zero
    rw [zero]
    rfl
  · rw [digitsValue, ← List.map_reverse, List.reverse_reverse, List.map_map]
    have same : (Nat.digits 10 n).map ((fun byte : Byte => (byte - 48).toNat) ∘
        fun digit => BitVec.ofNat 8 (48 + digit)) = Nat.digits 10 n := by
      refine (List.map_congr_left ?_).trans (List.map_id _)
      intro digit mem
      have small : digit < 10 := Nat.digits_lt_base (by decide) mem
      simp only [Function.comp_apply, id_eq]
      bv_omega
    rw [same, Nat.ofDigits_digits]

/-! ## The number in the text -/

/-- There is a digit at a position. -/
def digitAt (buf : List Byte) (i : ℕ) : Bool := isDigit (buf.getD i 0)

/-- The number that is found from an offset on: the first run of digits from there on, or
else from the beginning. -/
structure NumberAt (buf : List Byte) (len off first last : ℕ) : Prop where
  start : off ≤ first ∧ (∀ i, off ≤ i → i < first → digitAt buf i = false) ∨
    first < off ∧ (∀ i, off ≤ i → i < len → digitAt buf i = false) ∧
      ∀ i < first, digitAt buf i = false
  digits : ∀ i, first ≤ i → i < last → digitAt buf i = true
  some_digit : first < last
  inside : last ≤ len
  ends : last < len → digitAt buf last = false

section Searching

variable {buf : List Byte} {len off first last : ℕ}

/-- There is one such number at most. -/
theorem NumberAt.unique {first' last' : ℕ} (number : NumberAt buf len off first last)
    (other : NumberAt buf len off first' last') : first = first' ∧ last = last' := by
  have digit := number.digits first le_rfl number.some_digit
  have digit' := other.digits first' le_rfl other.some_digit
  have beyond := number.some_digit.trans_le number.inside
  have beyond' := other.some_digit.trans_le other.inside
  have notBefore : ∀ {a b : ℕ}, digitAt buf a = true → (a < b → digitAt buf a = false) → b ≤ a := by
    intro a b there absent
    rcases Nat.lt_or_ge a b with less | le
    · rw [absent less] at there
      exact absurd there Bool.false_ne_true
    · exact le
  have sameFirst : first = first' := by
    rcases number.start with ⟨after, none_before⟩ | ⟨wrapped, none_after, none_before⟩ <;>
      rcases other.start with ⟨after', none_before'⟩ | ⟨wrapped', none_after', none_before'⟩
    · have le := notBefore digit' (none_before first' after')
      have le' := notBefore digit (none_before' first after)
      omega
    · have := notBefore digit (none_after' first after)
      omega
    · have := notBefore digit' (none_after first' after')
      omega
    · have le := notBefore digit' (none_before first')
      have le' := notBefore digit (none_before' first)
      omega
  subst sameFirst
  refine ⟨rfl, ?_⟩
  have inRun := number.digits last'
  have inRun' := other.digits last
  have ends := number.ends
  have ends' := other.ends
  have some_digit := number.some_digit
  have some_digit' := other.some_digit
  have inside := number.inside
  have inside' := other.inside
  rcases Nat.lt_trichotomy last last' with less | same | more
  · have there := inRun' some_digit.le less
    rw [ends (less.trans_le inside')] at there
    exact absurd there Bool.false_ne_true
  · exact same
  · have there := inRun some_digit'.le more
    rw [ends' (more.trans_le inside)] at there
    exact absurd there Bool.false_ne_true

/-- By induction on the rounds: nothing is passed over that is searched. -/
theorem findDigit_stops {digit : Bool} {bound rounds i j : ℕ} (fits : bound ≤ buf.length)
    (enough : bound ≤ i + rounds) (found : findDigit buf digit bound rounds i = some j) :
    (∀ k, i ≤ k → k < j → digitAt buf k = !digit) ∧ (j < bound → digitAt buf j = digit) := by
  induction rounds generalizing i with
  | zero =>
      cases found
      exact ⟨fun k after before => absurd before (by omega), fun below => absurd below (by omega)⟩
  | succ rounds ih =>
      rw [findDigit] at found
      split at found
      · rename_i less
        have there : buf.getD i 0 = buf[i] := by
          rw [List.getD_eq_getElem?_getD, List.getElem?_eq_getElem (less.trans_le fits),
            Option.getD_some]
        rw [List.getElem?_eq_getElem (less.trans_le fits)] at found
        simp only at found
        split at found
        · rename_i isSought
          cases found
          refine ⟨fun k after before => absurd before (by omega), fun _ => ?_⟩
          rw [digitAt, there, isSought]
        · rename_i other
          obtain ⟨passed, stopped⟩ := ih (by omega) found
          refine ⟨fun k after before => ?_, stopped⟩
          rcases after.eq_or_lt with same | later
          · rw [← same, digitAt, there]
            exact Bool.eq_not_of_ne other
          · exact passed k later before
      · cases found
        exact ⟨fun k after before => absurd before (by omega), fun below => absurd below ‹_›⟩

/-- The rest of a number after its first digit. -/
theorem numberAt_of_ending (fits : len ≤ buf.length) (below : first < len)
    (isDigit : digitAt buf first = true)
    (ended : findDigit buf false len len (first + 1) = some last)
    (start : off ≤ first ∧ (∀ i, off ≤ i → i < first → digitAt buf i = false) ∨
      first < off ∧ (∀ i, off ≤ i → i < len → digitAt buf i = false) ∧
        ∀ i < first, digitAt buf i = false) :
    NumberAt buf len off first last := by
  obtain ⟨j, found, after, inside⟩ := findDigit_found false len fits below
  obtain rfl : j = last := Option.some.inj (found.symm.trans ended)
  obtain ⟨digits, ends⟩ := findDigit_stops fits (by omega) ended
  refine ⟨start, ?_, after, inside, ends⟩
  intro i from_first before
  rcases from_first.eq_or_lt with same | later
  · rw [← same, isDigit]
  · exact digits i later before

/-- What the search answers: the number, or that there is no digit. -/
theorem findNumber_spec {place : NumberPlace} (fits : len ≤ buf.length) (inside : off < len)
    (found : findNumber buf len off = some place) :
    match place with
    | .nowhere => ∀ i < len, digitAt buf i = false
    | .at first last => NumberAt buf len off first last := by
  obtain ⟨j, foundFirst, after, within⟩ := findDigit_found true len fits inside.le
  obtain ⟨passed, stopped⟩ := findDigit_stops fits (by omega) foundFirst
  rw [findNumber, foundFirst, Option.bind_eq_bind, Option.bind_some] at found
  split at found
  · rename_i noneAfter
    obtain ⟨j', foundWrapped, -, within'⟩ :=
      findDigit_found true off (inside.le.trans fits) (Nat.zero_le off)
    obtain ⟨passed', stopped'⟩ := findDigit_stops (inside.le.trans fits) (by omega) foundWrapped
    rw [foundWrapped, Option.bind_some] at found
    split at found
    · cases found
      intro i below
      rcases Nat.lt_or_ge i off with before | from_off
      · exact passed' i (Nat.zero_le i) (by omega)
      · exact passed i from_off (by omega)
    · obtain ⟨off2, ended, same⟩ := Option.bind_eq_some_iff.mp found
      cases same
      exact numberAt_of_ending fits (by omega) (stopped' (by omega)) ended
        (.inr ⟨by omega, fun i from_off below => passed i from_off (by omega),
          fun i before => passed' i (Nat.zero_le i) before⟩)
  · obtain ⟨off2, ended, same⟩ := Option.bind_eq_some_iff.mp found
    cases same
    exact numberAt_of_ending fits (by omega) (stopped (by omega)) ended
      (.inl ⟨after, fun i from_off before => passed i from_off before⟩)

/-- The number is found. -/
theorem found_of_numberAt (fits : len ≤ buf.length) (inside : off < len)
    (number : NumberAt buf len off first last) :
    findNumber buf len off = some (.at first last) := by
  obtain ⟨place, found, -⟩ := findNumber_found fits inside
  cases place with
  | nowhere =>
      have digit := number.digits first le_rfl number.some_digit
      have below := number.some_digit.trans_le number.inside
      rw [findNumber_spec fits inside found first below] at digit
      exact absurd digit Bool.false_ne_true
  | «at» first' last' =>
      obtain ⟨rfl, rfl⟩ := number.unique (findNumber_spec fits inside found)
      exact found

end Searching

/-! ## The value in the text -/

/-- The value of a run of digits. -/
def runValue (buf : List Byte) (first last : ℕ) : ℕ := digitsValue (slice buf first (last - first))

/-- The number in the text: the value of its digits, negative after a minus sign. -/
def numberValue (buf : List Byte) (first last : ℕ) : ℤ :=
  if 0 < first ∧ buf[first - 1]? = some (ord '-') then -(runValue buf first last : ℤ)
  else runValue buf first last

section Parsing

variable {buf : List Byte} {len off first last : ℕ}

theorem runValue_succ {i : ℕ} (start : first ≤ i) (inside : i < buf.length) :
    runValue buf first (i + 1) = runValue buf first i * 10 + (buf[i] - 48).toNat := by
  have longer : slice buf first (i + 1 - first) = slice buf first (i - first) ++ [buf[i]] := by
    have less : i - first < (buf.drop first).length := by
      rw [List.length_drop]
      omega
    rw [slice, slice, Nat.sub_add_comm start, List.take_succ_eq_append_getElem less,
      List.getElem_drop]
    simp only [Nat.add_sub_cancel' start]
  rw [runValue, longer, digitsValue_append, digitsValue_singleton]
  rfl

theorem runValue_mono {stop : ℕ} (order : stop ≤ last) :
    runValue buf first stop ≤ runValue buf first last := by
  have split : slice buf first (last - first) = slice buf first (stop - first) ++
      ((buf.drop first).drop (stop - first)).take (last - first - (stop - first)) := by
    rw [slice, slice, ← List.take_add, Nat.add_sub_cancel' (Nat.sub_le_sub_right order first)]
  rw [runValue, runValue, split]
  exact digitsValue_le_append _ _

theorem NumberAt.isDigit_of_mem (number : NumberAt buf len off first last)
    (fits : len ≤ buf.length) {stop : ℕ} {byte : Byte} (within : stop ≤ last)
    (mem : byte ∈ slice buf first (stop - first)) : isDigit byte = true := by
  have inside := number.inside
  obtain ⟨i, below, rfl⟩ := List.getElem_of_mem mem
  have bound : i < stop - first := below.trans_le (List.length_take_le _ _)
  have digit := number.digits (first + i) (Nat.le_add_right _ _) (by omega)
  simp only [slice, List.getElem_take, List.getElem_drop]
  rwa [digitAt, List.getD_eq_getElem?_getD, List.getElem?_eq_getElem (by omega),
    Option.getD_some] at digit

/-- A run of so many digits is below the power of ten. -/
theorem NumberAt.runValue_lt (number : NumberAt buf len off first last) (fits : len ≤ buf.length)
    {stop : ℕ} (order : first ≤ stop) (within : stop ≤ last) :
    runValue buf first stop < 10 ^ (stop - first) := by
  have inside := number.inside
  have length : (slice buf first (stop - first)).length = stop - first := length_slice (by omega)
  rw [runValue]
  refine (digitsValue_lt ?_).trans_eq (by rw [length])
  intro byte mem
  exact number.isDigit_of_mem fits within mem

/-- By induction on the digits: the value so far is the value of the digits so far, and where
the reading stops early it is close to the largest `s64`. -/
theorem parseDigits_spec {off2 rounds i stop : ℕ} {val' : ℤ} (fits : off2 ≤ buf.length)
    (start : first ≤ i) (remaining : i + rounds = off2)
    (parsed : parseDigits buf off2 rounds i (runValue buf first i) = some (val', stop)) :
    val' = runValue buf first stop ∧ i ≤ stop ∧
      (stop = off2 ∨ stop < off2 ∧ INT64_MAX < val' * 10 + 255) := by
  induction rounds generalizing i with
  | zero =>
      cases parsed
      obtain rfl : i = off2 := remaining
      exact ⟨rfl, le_rfl, .inl rfl⟩
  | succ rounds ih =>
      have less : i < off2 := by omega
      rw [parseDigits, if_pos less, List.getElem?_eq_getElem (less.trans_le fits)] at parsed
      simp only at parsed
      split at parsed
      · rename_i large
        cases parsed
        refine ⟨rfl, le_rfl, .inr ⟨less, ?_⟩⟩
        have byte := (buf[stop] - 48).isLt
        rw [INT64_MAX] at large ⊢
        omega
      · have next : ((runValue buf first i : ℕ) : ℤ) * 10 + ((buf[i] - 48).toNat : ℤ) =
            (runValue buf first (i + 1) : ℕ) := by
          rw [runValue_succ start (less.trans_le fits)]
          push_cast
          rfl
        rw [next] at parsed
        obtain ⟨value, after, ended⟩ := ih (Nat.le_succ_of_le start) (by omega) parsed
        exact ⟨value, Nat.le_of_succ_le after, ended⟩

theorem runValue_self (first : ℕ) : runValue buf first first = 0 := by
  rw [runValue, Nat.sub_self, slice, List.take_zero]
  rfl

/-- What is read is the number in the text, or its first digits when it is too large. -/
theorem parseNumber_spec (number : NumberAt buf len off first last) (fits : len ≤ buf.length)
    {val : ℤ} {stop : ℕ} (parsed : parseNumber buf first last = some (val, stop)) :
    stop = last ∧ val = numberValue buf first last ∨
      first + 18 ≤ stop ∧ stop ≤ last ∧
        (10 ^ 17 ≤ val ∧ val ≤ numberValue buf first last ∨
          val ≤ -10 ^ 17 ∧ numberValue buf first last ≤ val) := by
  have some_digit := number.some_digit
  have inside : last ≤ buf.length := number.inside.trans fits
  have begins : ((buf[first] - 48).toNat : ℤ) = (runValue buf first (first + 1) : ℕ) := by
    rw [runValue_succ le_rfl (some_digit.trans_le inside), runValue_self, Nat.zero_mul,
      Nat.zero_add]
  rw [parseNumber, List.getElem?_eq_getElem (some_digit.trans_le inside), Option.bind_eq_bind,
    Option.bind_some] at parsed
  obtain ⟨⟨val', stop'⟩, read, signed⟩ := Option.bind_eq_some_iff.mp parsed
  rw [begins] at read
  obtain ⟨value, after, ended⟩ :=
    parseDigits_spec inside (Nat.le_succ first) (by omega) read
  have less : stop' ≤ last := by omega
  have small := number.runValue_lt fits (Nat.le_of_succ_le after) less
  have grows : runValue buf first stop' ≤ runValue buf first last := runValue_mono less
  have sign : stop = stop' ∧ (val = val' ∧ numberValue buf first last = runValue buf first last ∨
      val = -val' ∧ numberValue buf first last = -(runValue buf first last : ℤ)) := by
    simp only at signed
    split at signed
    · rename_i nonzero
      obtain ⟨byte, there, same⟩ := Option.bind_eq_some_iff.mp signed
      cases same
      refine ⟨rfl, ?_⟩
      split
      · rename_i minus
        exact .inr ⟨rfl, if_pos ⟨Nat.pos_of_ne_zero nonzero, by rw [there, minus]⟩⟩
      · rename_i other
        refine .inl ⟨rfl, if_neg ?_⟩
        rintro ⟨-, minus⟩
        exact other (Option.some.inj (there.symm.trans minus))
    · rename_i zero
      cases signed
      exact ⟨rfl, .inl ⟨rfl, if_neg fun minus => zero minus.1.ne'⟩⟩
  obtain ⟨rfl, sign⟩ := sign
  rcases ended with whole | ⟨early, large⟩
  · subst whole
    exact .inl ⟨rfl, by omega⟩
  · have long : first + 18 ≤ stop := by
      by_contra short
      have power : 10 ^ (stop - first) ≤ 10 ^ 17 := Nat.pow_le_pow_right (by decide) (by omega)
      rw [INT64_MAX] at large
      omega
    rw [INT64_MAX] at large
    exact .inr ⟨long, less, by omega⟩

end Parsing

end GreenFuzz.AflFuzz
