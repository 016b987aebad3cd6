import GreenFuzz.AflFuzz.AflMutate
import Mathlib.Data.Nat.Digits.Lemmas

/-!
# The numbers that the mutator reads, computes and prints

The search for a number stays inside the case and finds at least one byte
(`findNumber_found`), and what is read there is a value of an `s64`
(`parseNumber_found`). A decimal text has a sign for a negative number, and as many digits
as the number needs (`length_decimal_le_iff`).

A strategy asks for another number. Which numbers and draws lead to one with at most
seven characters is said for each strategy (`ShortResult`), and the mutator computes such
a number exactly then (`newNumber_outcome`), also where it knows only the first digits of a
number (`shortResult_congr`).
-/

set_option autoImplicit false

namespace GreenFuzz.AflFuzz

open Library

/-! ## Searching and reading -/

/-- By induction on the rounds: the search stays between its start and its bound. -/
theorem findDigit_found {buf : List Byte} (digit : Bool) {bound : ℕ} (rounds : ℕ) {i : ℕ}
    (fits : bound ≤ buf.length) (start : i ≤ bound) :
    ∃ j, findDigit buf digit bound rounds i = some j ∧ i ≤ j ∧ j ≤ bound := by
  induction rounds generalizing i with
  | zero => exact ⟨i, rfl, le_rfl, start⟩
  | succ rounds ih =>
      rw [findDigit]
      split
      · rename_i less
        rw [List.getElem?_eq_getElem (less.trans_le fits)]
        simp only
        split
        · exact ⟨i, rfl, le_rfl, start⟩
        · obtain ⟨j, found, after, inside⟩ := ih less
          exact ⟨j, found, Nat.le_of_succ_le after, inside⟩
      · exact ⟨i, rfl, le_rfl, start⟩

/-- A number that is found has at least one byte, and ends inside the case. -/
theorem findNumber_found {buf : List Byte} {len off : ℕ} (fits : len ≤ buf.length)
    (inside : off < len) :
    ∃ place, findNumber buf len off = some place ∧
      ∀ first off2, place = .at first off2 → first < off2 ∧ off2 ≤ len := by
  have ending : ∀ first < len, ∃ off2,
      findDigit buf false len len (first + 1) = some off2 ∧ first < off2 ∧ off2 ≤ len := by
    intro first less
    exact findDigit_found false len fits less
  obtain ⟨first, found, after, within⟩ :=
    findDigit_found true len fits inside.le
  rw [findNumber, found, Option.bind_eq_bind, Option.bind_some]
  split
  · obtain ⟨wrapped, found', after', within'⟩ :=
      findDigit_found true off (inside.le.trans fits) (Nat.zero_le off)
    rw [found', Option.bind_some]
    split
    · refine ⟨.nowhere, rfl, ?_⟩
      intro _ _ same
      cases same
    · obtain ⟨off2, ended, more, last⟩ := ending wrapped (by omega)
      refine ⟨.at wrapped off2, by rw [ended, Option.bind_some], ?_⟩
      intro _ _ same
      cases same
      exact ⟨more, last⟩
  · obtain ⟨off2, ended, more, last⟩ := ending first (by omega)
    refine ⟨.at first off2, by rw [ended, Option.bind_some], ?_⟩
    intro _ _ same
    cases same
    exact ⟨more, last⟩

/-- By induction on the digits: the value stays in the range of an `s64`. -/
theorem parseDigits_found {buf : List Byte} {off2 : ℕ} (rounds : ℕ) {i : ℕ} {val : ℤ}
    (fits : off2 ≤ buf.length) (start : i ≤ off2) (positive : 0 ≤ val) (most : val ≤ INT64_MAX) :
    ∃ val' stop, parseDigits buf off2 rounds i val = some (val', stop) ∧
      i ≤ stop ∧ stop ≤ off2 ∧ 0 ≤ val' ∧ val' ≤ INT64_MAX := by
  induction rounds generalizing i val with
  | zero => exact ⟨val, off2, rfl, start, le_rfl, positive, most⟩
  | succ rounds ih =>
      rw [parseDigits]
      split
      · rename_i less
        rw [List.getElem?_eq_getElem (less.trans_le fits)]
        simp only
        split
        · exact ⟨val, i, rfl, le_rfl, start, positive, most⟩
        · rename_i small
          obtain ⟨val', stop, parsed, after, inside, positive', most'⟩ :=
            ih less
              (show 0 ≤ val * 10 + ((buf[i] - 48).toNat : ℤ) by omega) (by omega)
          exact ⟨val', stop, parsed, Nat.le_of_succ_le after, inside, positive', most'⟩
      · exact ⟨val, off2, rfl, start, le_rfl, positive, most⟩

/-- A number that is read has at least one byte, and is a value of an `s64` other than the
smallest. -/
theorem parseNumber_found {buf : List Byte} {off off2 : ℕ} (fits : off2 ≤ buf.length)
    (some_byte : off < off2) :
    ∃ val stop, parseNumber buf off off2 = some (val, stop) ∧
      off < stop ∧ stop ≤ off2 ∧ -INT64_MAX ≤ val ∧ val ≤ INT64_MAX := by
  have inside : off < buf.length := some_byte.trans_le fits
  have firstSmall : ((buf[off] - 48).toNat : ℤ) ≤ INT64_MAX := by
    have := (buf[off] - 48).isLt
    rw [INT64_MAX]
    omega
  obtain ⟨val, stop, parsed, after, within, positive, most⟩ :=
    parseDigits_found (off2 - (off + 1)) fits some_byte (Int.natCast_nonneg _) firstSmall
  rw [parseNumber, List.getElem?_eq_getElem inside, Option.bind_eq_bind, Option.bind_some, parsed]
  simp only [Option.bind_eq_bind, Option.bind_some]
  split
  · rw [List.getElem?_eq_getElem (by omega), Option.bind_some]
    refine ⟨_, stop, rfl, after, within, ?_⟩
    split <;> omega
  · exact ⟨val, stop, rfl, after, within, by omega, most⟩

/-! ## Dropping a digit -/

theorem tdiv_cases (val d : ℤ) :
    0 ≤ val ∧ val.tdiv d = val / d ∨ val < 0 ∧ val.tdiv d = -(-val / d) := by
  rcases le_or_gt 0 val with positive | negative
  · exact .inl ⟨positive, Int.tdiv_eq_ediv_of_nonneg positive⟩
  · refine .inr ⟨negative, ?_⟩
    rw [← Int.tdiv_eq_ediv_of_nonneg (by omega), Int.neg_tdiv, neg_neg]

/-- The value after a digit may have been dropped, and the end of the number. -/
theorem dropDigit_spec (drops : Bool) (val : ℤ) (off2 : ℕ) :
    ∃ val' off2', dropDigit drops val off2 = (val', off2') ∧ off2' ≤ off2 ∧ off2 ≤ off2' + 1 ∧
      (drops = true ∧ val' = val.tdiv 10 ∨ ¬drops = true ∧ val' = val ∧ off2' = off2) := by
  cases drops with
  | false => exact ⟨val, off2, rfl, le_rfl, Nat.le_succ _, .inr ⟨Bool.false_ne_true, rfl, rfl⟩⟩
  | true => exact ⟨val.tdiv 10, off2 - 1, rfl, Nat.sub_le _ _, by omega, .inl ⟨rfl, rfl⟩⟩

/-! ## The strategies -/

/-- The numbers and draws for which the number that a strategy asks for has at most seven
characters. -/
def ShortResult (strat : ℕ) (n : ℤ) (draws : Draws) : Prop :=
  match strat with
  | 0 => -1000000 ≤ n ∧ n < 9999999
  | 1 => -999999 < n ∧ n ≤ 10000000
  | 2 => -500000 < n ∧ n < 5000000
  | 3 => -2000000 < n ∧ n < 20000000
  | 4 => 0 < n → n < 0x19999999 →
      ∀ draw ∈ draws.head?, draw.toNat % (n.toNat * 10) < 10000000
  | 5 => ∀ r rest, (randBelow 256).run draws = some (r, rest) → -1000000 < n + r ∧ n + r < 10000000
  | 6 => ∀ r rest, (randBelow 256).run draws = some (r, rest) → -1000000 < n - r ∧ n - r < 10000000
  | _ => -10000000 ≤ n ∧ n < 999999

section Strategies

variable {s : MutState} {draws : Draws}

theorem run_s64 {val : ℤ} (least : INT64_MIN ≤ val) (most : val ≤ INT64_MAX) :
    s64 val s draws = .ok ((val, s), draws) := run_attempt ⟨least, most⟩

theorem run_drawBelow {limit r : ℕ} {rest : Draws}
    (drawn : (randBelow limit).run draws = some (r, rest)) :
    drawBelow limit s draws = .ok ((r, s), rest) := by
  simp only [drawBelow, takeFrom, drawn]

theorem run_drawBelow_none {limit : ℕ} (drawn : (randBelow limit).run draws = none) :
    drawBelow limit s draws = .error .exhausted := by
  simp only [drawBelow, takeFrom, drawn]

/-- A draw below a limit: there are too few draws, or the only number that can be drawn is
drawn, so what is asked of every drawn number is asked of that one. -/
theorem drawBelow_outcome {limit : ℕ} (positive : 0 < limit) (asked : ℕ → Prop) :
    drawBelow limit s draws = .error .exhausted ∧
        (∀ r rest, (randBelow limit).run draws = some (r, rest) → asked r) ∨
      ∃ r rest, r < limit ∧ drawBelow limit s draws = .ok ((r, s), rest) ∧
        ((∀ r' rest', (randBelow limit).run draws = some (r', rest') → asked r') ↔ asked r) := by
  cases drawn : (randBelow limit).run draws with
  | none =>
      exact .inl ⟨run_drawBelow_none drawn, fun r rest none_left => absurd none_left nofun⟩
  | some result =>
      refine .inr ⟨result.1, result.2, randBelow_lt positive drawn, run_drawBelow drawn, ?_⟩
      constructor
      · intro all
        exact all result.1 result.2 rfl
      · intro asks r' rest' same
        cases same
        exact asks

/-- What a strategy does: it has too few draws, or computes a number that is short exactly
when the number that it asks for is. A digit is dropped from a large number only, and the
number becomes less than ten times as large, or stays small. -/
theorem newNumber_outcome {strat off2 : ℕ} {val : ℤ} (least : -INT64_MAX ≤ val)
    (most : val ≤ INT64_MAX) :
    newNumber strat val off2 s draws = .error .exhausted ∧ ShortResult strat val draws ∨
      ∃ val' off2' rest, newNumber strat val off2 s draws = .ok (((val', off2'), s), rest) ∧
        INT64_MIN ≤ val' ∧ val' ≤ INT64_MAX ∧
        (ShortResult strat val draws ↔ -1000000 < val' ∧ val' < 10000000) ∧
        (off2' = off2 ∨ off2' ≤ off2 ∧ off2 ≤ off2' + 1 ∧ 10 ^ 17 ≤ val.natAbs) ∧
        (val' < 10000000 ∨ val' < 10 * val.natAbs) := by
  have tenth := tdiv_cases val 10
  have half : INT64_MAX.tdiv 2 = 4611686018427387903 ∧ INT64_MIN.tdiv 2 = -4611686018427387904 :=
    ⟨rfl, rfl⟩
  have range : INT64_MAX = 9223372036854775807 ∧ INT64_MIN = -9223372036854775808 := ⟨rfl, rfl⟩
  rw [newNumber.eq_def]
  split
  · obtain ⟨val', off2', dropped, less, more, cases⟩ := dropDigit_spec (val = INT64_MAX) val off2
    rw [dropped]
    rw [decide_eq_true_eq] at cases
    refine .inr ⟨val' + 1, off2', draws, run_bind (run_s64 (by omega) (by omega)), by omega,
      by omega, ?_, by omega, by omega⟩
    simp only [ShortResult]
    omega
  · obtain ⟨val', off2', dropped, less, more, cases⟩ := dropDigit_spec (val = INT64_MIN) val off2
    rw [dropped]
    rw [decide_eq_true_eq] at cases
    refine .inr ⟨val' - 1, off2', draws, run_bind (run_s64 (by omega) (by omega)), by omega,
      by omega, ?_, by omega, by omega⟩
    simp only [ShortResult]
    omega
  · obtain ⟨val', off2', dropped, less, more, cases⟩ :=
      dropDigit_spec (INT64_MAX.tdiv 2 < val || val < INT64_MIN.tdiv 2) val off2
    rw [dropped]
    rw [Bool.or_eq_true, decide_eq_true_eq, decide_eq_true_eq] at cases
    refine .inr ⟨val' * 2, off2', draws, run_bind (run_s64 (by omega) (by omega)), by omega,
      by omega, ?_, by omega, by omega⟩
    simp only [ShortResult]
    omega
  · have halved := tdiv_cases val 2
    refine .inr ⟨val.tdiv 2, off2, draws, rfl, by omega, by omega, ?_, by omega, by omega⟩
    simp only [ShortResult]
    omega
  · split
    · rename_i small
      cases draws with
      | nil =>
          refine .inl ⟨run_bind_error rfl, ?_⟩
          intro _ _ draw none_left
          cases none_left
      | cons draw rest =>
          have below : draw.toNat % (val.toNat * 10) < val.toNat * 10 := Nat.mod_lt _ (by omega)
          refine .inr ⟨(draw.toNat % (val.toNat * 10) : ℕ), off2, rest,
            (run_bind rfl).trans (run_bind (run_s64 (by omega) (by omega))), by omega, by omega,
            ?_, by omega, by omega⟩
          constructor
          · intro short
            have less := short small.1 small.2 draw rfl
            omega
          · rintro ⟨-, less⟩ _ _ other same
            cases same
            omega
    · rename_i large
      have asks : ShortResult 4 val draws := fun positive less => absurd ⟨positive, less⟩ large
      rcases drawBelow_outcome (Nat.succ_pos 255) (fun _ => True) with
        ⟨failed, -⟩ | ⟨r, rest, small, ran, -⟩
      · exact .inl ⟨run_bind_error failed, asks⟩
      · exact .inr ⟨r, off2, rest, run_bind ran, by omega, by omega,
          iff_of_true asks ⟨by omega, by omega⟩, by omega, by omega⟩
  · obtain ⟨val', off2', dropped, less, more, cases⟩ :=
      dropDigit_spec (INT64_MAX - 256 < val) val off2
    rw [dropped]
    rw [decide_eq_true_eq] at cases
    rcases drawBelow_outcome (Nat.succ_pos 255)
        (fun r => -1000000 < val + r ∧ val + r < 10000000) with
      ⟨failed, asks⟩ | ⟨r, rest, small, ran, asks⟩
    · exact .inl ⟨run_bind_error failed, asks⟩
    · refine .inr ⟨val' + r, off2', rest,
        (run_bind ran).trans (run_bind (run_s64 (by omega) (by omega))),
        by omega, by omega, asks.trans ?_, by omega, by omega⟩
      omega
  · obtain ⟨val', off2', dropped, less, more, cases⟩ :=
      dropDigit_spec (val < INT64_MIN + 256) val off2
    rw [dropped]
    rw [decide_eq_true_eq] at cases
    rcases drawBelow_outcome (Nat.succ_pos 255)
        (fun r => -1000000 < val - r ∧ val - r < 10000000) with
      ⟨failed, asks⟩ | ⟨r, rest, small, ran, asks⟩
    · exact .inl ⟨run_bind_error failed, asks⟩
    · refine .inr ⟨val' - r, off2', rest,
        (run_bind ran).trans (run_bind (run_s64 (by omega) (by omega))),
        by omega, by omega, asks.trans ?_, by omega, by omega⟩
      omega
  · refine .inr ⟨-val - 1, off2, draws, rfl, by omega, by omega, ?_, by omega, by omega⟩
    simp only [ShortResult]
    omega

/-- A number that is too large for an `s64` is as far from a short result as its first
digits. -/
theorem shortResult_congr {strat : ℕ} {val n : ℤ}
    (close : val = n ∨ 10 ^ 17 ≤ val ∧ val ≤ n ∨ val ≤ -10 ^ 17 ∧ n ≤ val) :
    ShortResult strat val draws ↔ ShortResult strat n draws := by
  rcases close with rfl | far
  · rfl
  rw [ShortResult.eq_def, ShortResult.eq_def]
  split
  · omega
  · omega
  · omega
  · omega
  · exact ⟨fun _ _ _ => absurd far (by omega), fun _ _ _ => absurd far (by omega)⟩
  · refine forall₂_congr fun r rest => imp_congr_right fun drawn => ?_
    have small := randBelow_lt (by decide) drawn
    omega
  · refine forall₂_congr fun r rest => imp_congr_right fun drawn => ?_
    have small := randBelow_lt (by decide) drawn
    omega
  · -- The strategies that are excluded here would be split again.
    clear * - far
    omega

end Strategies

/-! ## Decimal texts -/

theorem length_decimalNat_le_iff {n k : ℕ} (positive : 0 < k) :
    (decimalNat n).length ≤ k ↔ n < 10 ^ k := by
  rw [decimalNat]
  split
  · rename_i zero
    subst zero
    simp only [List.length_singleton, Nat.pow_pos, iff_true, Nat.zero_lt_succ]
    exact positive
  · rw [List.length_map, List.length_reverse]
    exact Nat.digits_length_le_iff (by decide) n

theorem decimalNat_ne_nil (n : ℕ) : 0 < (decimalNat n).length := by
  rw [decimalNat]
  split
  · exact Nat.zero_lt_one
  · rename_i nonzero
    rw [List.length_map, List.length_reverse, List.length_pos_iff]
    exact Nat.digits_ne_nil_iff_ne_zero.mpr nonzero

theorem decimal_ne_nil (val : ℤ) : 0 < (decimal val).length := by
  rw [decimal]
  split
  · exact Nat.zero_lt_succ _
  · exact decimalNat_ne_nil _

/-- How large a number may be whose text has so many characters. -/
theorem length_decimal_le_iff {val : ℤ} {k : ℕ} (positive : 1 < k) :
    (decimal val).length ≤ k ↔ -(10 ^ (k - 1) : ℕ) < val ∧ val < (10 ^ k : ℕ) := by
  have more : 10 ^ (k - 1) ≤ 10 ^ k := Nat.pow_le_pow_right (by decide) (Nat.sub_le k 1)
  rw [decimal]
  split
  · rw [List.length_cons, ← Nat.le_sub_iff_add_le positive.le,
      length_decimalNat_le_iff (Nat.sub_pos_of_lt positive)]
    omega
  · rw [length_decimalNat_le_iff (by omega)]
    have some_power : 0 < 10 ^ (k - 1) := Nat.pow_pos (by decide)
    omega

/-- `numbuf` holds at least one character, and at most seven. -/
theorem length_numbuf (val : ℤ) : 0 < (numbuf val).length ∧ (numbuf val).length ≤ 7 := by
  have some_character := decimal_ne_nil val
  rw [numbuf, SIZEOF_BUF, List.length_take]
  omega

end GreenFuzz.AflFuzz
