import GreenFuzz.Redqueen.RtnExtendEncoding

/-!
# The attempts of a round

As long as nothing is found, the counters of a round follow from the bytes of the input
(`Transforms.counted`). They bound what the attempts of the round read and write: only an attempt
to convert to base64 reads behind the 32 bytes of the operand, and only one to convert to
hexadecimal digits writes behind the end of the input (`trials_inside_iff`). After the rounds were
given up no later round would have had an attempt (`trials_of_hopeless`).
-/

set_option autoImplicit false

namespace GreenFuzz.Redqueen

open Library AflFuzz

namespace Transforms

/-- The counters after a round. -/
def next (R : RtnCall) (itsLen i : ℕ) (byte : Byte) (c : Transforms) : Transforms :=
  { c.count R i byte with tmp := (c.count R i byte).tmpAfter R itsLen i }

/-- The counters before a round, where the buffer was not changed from this round's byte on. -/
def entering (R : RtnCall) (itsLen : ℕ) (buf : Buffer) : ℕ → Transforms
  | 0 => start R
  | i + 1 => (entering R itsLen buf i).next R itsLen i (buf (R.idx + i))

/-- The counters from which the attempts of a round follow. -/
def counted (R : RtnCall) (itsLen : ℕ) (buf : Buffer) (i : ℕ) : Transforms :=
  (entering R itsLen buf i).count R i (buf (R.idx + i))

end Transforms

variable {R : RtnCall} {itsLen i j : ℕ} {byte : Byte} {buf : Buffer}

/-! ## How the counters grow -/

/-- How far counters may have grown in some rounds, from round `i` to before round `j`. -/
structure Grown (i j : ℕ) (c d : Transforms) : Prop where
  xor : d.xor + i ≤ c.xor + j
  arith : d.arith + i ≤ c.arith + j
  tolower : d.tolower + i ≤ c.tolower + j
  toupper : d.toupper + i ≤ c.toupper + j
  tohex : d.tohex + i ≤ c.tohex + j
  fromhex : d.fromhex + 2 * (i / 2) ≤ c.fromhex + 2 * (j / 2)
  tob64 : d.tob64 + 3 * (i / 3) ≤ c.tob64 + 3 * (j / 3)
  fromb64 : d.fromb64 + 4 * (i / 4) ≤ c.fromb64 + 4 * (j / 4)
  from0 : 2 ≤ i → d.from0 = c.from0
  fromx : 2 ≤ i → d.fromx = c.fromx
  fromSlash : 2 ≤ i → d.fromSlash = c.fromSlash

theorem Grown.refl (i : ℕ) (c : Transforms) : Grown i i c c := by
  constructor
  all_goals first | exact le_rfl | exact fun _ => rfl

theorem Grown.trans {k : ℕ} {c d e : Transforms} (later : i ≤ j) (first : Grown i j c d)
    (rest : Grown j k d e) : Grown i k c e where
  xor := by have := first.xor; have := rest.xor; omega
  arith := by have := first.arith; have := rest.arith; omega
  tolower := by have := first.tolower; have := rest.tolower; omega
  toupper := by have := first.toupper; have := rest.toupper; omega
  tohex := by have := first.tohex; have := rest.tohex; omega
  fromhex := by have := first.fromhex; have := rest.fromhex; omega
  tob64 := by have := first.tob64; have := rest.tob64; omega
  fromb64 := by have := first.fromb64; have := rest.fromb64; omega
  from0 two := (rest.from0 (two.trans later)).trans (first.from0 two)
  fromx two := (rest.fromx (two.trans later)).trans (first.fromx two)
  fromSlash two := (rest.fromSlash (two.trans later)).trans (first.fromSlash two)

/-- The counters of encodings are not counted with the prefixes. -/
theorem withPrefixes_counters (c : Transforms) :
    (c.withPrefixes R i).tohex = c.tohex ∧ (c.withPrefixes R i).fromhex = c.fromhex ∧
      (c.withPrefixes R i).tob64 = c.tob64 ∧ (c.withPrefixes R i).fromb64 = c.fromb64 ∧
      (c.withPrefixes R i).xor = c.xor ∧ (c.withPrefixes R i).arith = c.arith ∧
      (c.withPrefixes R i).tolower = c.tolower ∧ (c.withPrefixes R i).toupper = c.toupper := by
  unfold Transforms.withPrefixes
  split
  · exact ⟨rfl, rfl, rfl, rfl, rfl, rfl, rfl, rfl⟩
  · split
    · exact ⟨rfl, rfl, rfl, rfl, rfl, rfl, rfl, rfl⟩
    · exact ⟨rfl, rfl, rfl, rfl, rfl, rfl, rfl, rfl⟩

theorem withPrefixes_of_two_le (two : 2 ≤ i) (c : Transforms) : c.withPrefixes R i = c := by
  unfold Transforms.withPrefixes
  rw [if_neg (by omega), if_neg (by omega)]

/-- A counter that is increased under a condition. -/
theorem ite_add_le (condition : Prop) [Decidable condition] (n k : ℕ) :
    (if condition then n + k else n) ≤ n + k := by
  split
  · exact le_rfl
  · exact Nat.le_add_right n k

/-- A counter that is increased in some rounds only. -/
theorem ite_add_round_le (condition : Prop) [Decidable condition] (n : ℕ) {k r : ℕ}
    (every : condition → i % k = r) (round : r + 1 = k) :
    (if condition then n + k else n) + k * (i / k) ≤ n + k * ((i + 1) / k) := by
  have here := Nat.div_add_mod i k
  have there := Nat.div_add_mod (i + 1) k
  have monotone : k * (i / k) ≤ k * ((i + 1) / k) :=
    Nat.mul_le_mul_left k (Nat.div_le_div_right (Nat.le_succ i))
  split
  next holds =>
    have last := every holds
    have wraps : (i + 1) % k = 0 := by
      rw [Nat.add_mod, last, ← round]
      cases r with
      | zero => exact Nat.mod_one _
      | succ r => rw [Nat.one_mod, Nat.mod_self]
    omega
  next => omega

theorem grown_count (c : Transforms) : Grown i (i + 1) c (c.count R i byte) := by
  obtain ⟨tohex, fromhex, tob64, fromb64, xor, arith, tolower, toupper⟩ :=
    withPrefixes_counters (R := R) (i := i) (c.withDifferences R i byte)
  have one {d n : ℕ} (grows : d ≤ n + 1) : d + i ≤ n + (i + 1) := by omega
  have prefixes (two : 2 ≤ i) : c.count R i byte =
      ((c.withDifferences R i byte).withEncodings R i).withBytes R i byte := by
    rw [Transforms.count, withPrefixes_of_two_le two]
  exact {
    xor := one ((ite_add_le _ _ _).trans_eq (congrArg (· + 1) xor))
    arith := one ((ite_add_le _ _ _).trans_eq (congrArg (· + 1) arith))
    tolower := one ((ite_add_le _ _ _).trans_eq (congrArg (· + 1) tolower))
    toupper := one ((ite_add_le _ _ _).trans_eq (congrArg (· + 1) toupper))
    tohex := one ((ite_add_le _ _ _).trans_eq (congrArg (· + 1) tohex))
    fromhex := (ite_add_round_le _ _ (fun odd => odd.2.1) rfl).trans_eq
      (congrArg (· + 2 * ((i + 1) / 2)) fromhex)
    tob64 := (ite_add_round_le _ _ (fun last => last.2.1) rfl).trans_eq
      (congrArg (· + 3 * ((i + 1) / 3)) tob64)
    fromb64 := (ite_add_round_le _ _ (fun last => last.2.1) rfl).trans_eq
      (congrArg (· + 4 * ((i + 1) / 4)) fromb64)
    from0 := fun two => (congrArg Transforms.from0 (prefixes two)).trans rfl
    fromx := fun two => (congrArg Transforms.fromx (prefixes two)).trans rfl
    fromSlash := fun two => (congrArg Transforms.fromSlash (prefixes two)).trans rfl }

/-- The counters from round to round. -/
theorem grown_entering (later : i ≤ j) :
    Grown i j (Transforms.entering R itsLen buf i) (Transforms.entering R itsLen buf j) := by
  induction j, later using Nat.le_induction with
  | base => exact Grown.refl i _
  | succ j later ih =>
      have step : Grown j (j + 1) (Transforms.entering R itsLen buf j)
          (Transforms.counted R itsLen buf j) := grown_count _
      exact ih.trans later ⟨step.xor, step.arith, step.tolower, step.toupper, step.tohex,
        step.fromhex, step.tob64, step.fromb64, step.from0, step.fromx, step.fromSlash⟩

/-- The counters of a later round. -/
theorem grown_counted (later : i < j) :
    Grown (i + 1) (j + 1) (Transforms.counted R itsLen buf i)
      (Transforms.counted R itsLen buf j) := by
  have between : Grown (i + 1) j (Transforms.entering R itsLen buf (i + 1))
      (Transforms.entering R itsLen buf j) := grown_entering later
  have last : Grown j (j + 1) (Transforms.entering R itsLen buf j)
      (Transforms.counted R itsLen buf j) := grown_count _
  exact ⟨(between.trans later last).xor, (between.trans later last).arith,
    (between.trans later last).tolower, (between.trans later last).toupper,
    (between.trans later last).tohex, (between.trans later last).fromhex,
    (between.trans later last).tob64, (between.trans later last).fromb64,
    (between.trans later last).from0, (between.trans later last).fromx,
    (between.trans later last).fromSlash⟩

/-- **Giving up is right**: no later round would have had an attempt. -/
theorem trials_of_hopeless (hopeless : (Transforms.counted R itsLen buf i).Hopeless R i)
    (later : i < j) :
    (Transforms.counted R itsLen buf j).firstTrials R itsLen j = [] ∧
      (Transforms.counted R itsLen buf j).lastTrials R j = [] := by
  obtain ⟨seven, xor, arith, tolower, toupper, tohex, fromhex, -, tob64, fromb64⟩ := hopeless
  have grown : Grown (i + 1) (j + 1) (Transforms.counted R itsLen buf i)
      (Transforms.counted R itsLen buf j) := grown_counted later
  generalize Transforms.counted R itsLen buf i = c at *
  generalize Transforms.counted R itsLen buf j = d at *
  have no_fromb64 : ¬ j < d.fromb64 := by
    have := grown.fromb64
    omega
  have no_tob64 : ¬ j < d.tob64 := by
    have := grown.tob64
    omega
  have no_tohex : ¬ j < d.tohex := by
    have := grown.tohex
    omega
  have no_fromhex : ¬ j < d.fromhex + d.fromSlash + d.fromx + d.from0 := by
    have := grown.fromhex
    have := grown.fromSlash (by omega)
    have := grown.fromx (by omega)
    have := grown.from0 (by omega)
    omega
  have no_xor : ¬ j < d.xor := by
    have := grown.xor
    omega
  have no_arith : ¬ j < d.arith := by
    have := grown.arith
    omega
  have no_toupper : ¬ j < d.toupper := by
    have := grown.toupper
    omega
  have no_tolower : ¬ j < d.tolower := by
    have := grown.tolower
    omega
  constructor
  · have fromb64_none : d.fromb64Lengths R itsLen j = [] :=
      if_neg fun tried => no_fromb64 tried.2.2.2
    have tob64_none : (d.tob64Trials R itsLen j).1 = [] := by
      rw [Transforms.tob64Trials, if_neg fun tried => no_tob64 tried.2.2.2]
    have tohex_none : d.tohexTrials R j = [] := if_neg fun tried => no_tohex tried.2.2
    have fromhex_none : d.fromhexLengths R j = [] := if_neg fun tried => no_fromhex tried.2.2.2.2
    have xor_none : d.xorTrials R j = [] := if_neg no_xor
    rw [Transforms.firstTrials, Transforms.fromb64Trials, Transforms.fromhexTrials, fromb64_none,
      tob64_none, tohex_none, fromhex_none, xor_none]
    rfl
  · have arith_none : d.arithTrials R j = [] := if_neg no_arith
    have toupper_none : d.toupperTrials R j = [] := if_neg no_toupper
    have tolower_none : d.tolowerTrials R j = [] := if_neg no_tolower
    rw [Transforms.lastTrials, arith_none, toupper_none, tolower_none]
    rfl

/-! ## What the counters show -/

/-- What is known of `repl` from the counters before round `i`. -/
structure Seen (R : RtnCall) (i : ℕ) (c : Transforms) : Prop where
  to0 : c.to0 ≤ if R.repl 0 = 48 then 1 else 0
  toSlash : c.toSlash ≤ if R.repl 0 = 92 then 1 else 0
  tox : c.tox ≤ if R.repl 1 = 120 ∨ R.repl 1 = 88 then 1 else 0
  tohex_le : c.tohex ≤ i
  tohex : c.tohex = i → ∀ k < i, isHex R.repl (2 * k) = true
  tob64_le : c.tob64 ≤ 3 * (i / 3)
  tob64 : c.tob64 = 3 * (i / 3) → ∀ k < i / 3, isBase64 R.repl (4 * k) = true

theorem seen_start : Seen R 0 (Transforms.start R) where
  to0 := Nat.zero_le _
  toSlash := Nat.zero_le _
  tox := Nat.zero_le _
  tohex_le := le_rfl
  tohex _ _ none := (Nat.not_lt_zero _ none).elim
  tob64_le := Nat.zero_le _
  tob64 _ _ none := (Nat.not_lt_zero _ none).elim

/-- A mark that is set under a condition. -/
theorem mark_le {condition : Prop} [Decidable condition] {mark : ℕ}
    (before : mark ≤ if condition then 1 else 0) :
    (if condition then 1 else mark) ≤ if condition then 1 else 0 := by
  split
  next => exact le_rfl
  next fails => rwa [if_neg fails] at before

theorem Seen.withPrefixes {c : Transforms} (seen : Seen R i c) : Seen R i (c.withPrefixes R i) := by
  unfold Transforms.withPrefixes
  split
  · exact { seen with to0 := mark_le seen.to0, toSlash := mark_le seen.toSlash }
  · split
    · exact { seen with tox := mark_le seen.tox }
    · exact seen

theorem Seen.withEncodings {c : Transforms} (seen : Seen R i c) :
    Seen R (i + 1) (c.withEncodings R i) := by
  have tohex_le := seen.tohex_le
  have tob64_le := seen.tob64_le
  refine ⟨seen.to0, seen.toSlash, seen.tox, ?_, ?_, ?_, ?_⟩
  · exact (ite_add_le _ _ _).trans (Nat.add_le_add_right tohex_le 1)
  · intro all k below
    simp only [Transforms.withEncodings] at all
    split at all
    next digits =>
      rcases Nat.lt_succ_iff_lt_or_eq.mp below with earlier | rfl
      · exact seen.tohex (by omega) k earlier
      · exact digits.2.2
    next => omega
  · have bound : (c.withEncodings R i).tob64 + 3 * (i / 3) ≤ c.tob64 + 3 * ((i + 1) / 3) :=
      ite_add_round_le _ _ (fun last => last.2.1) rfl
    omega
  · intro all k below
    simp only [Transforms.withEncodings] at all
    split at all
    next group =>
      have next : (i + 1) / 3 = i / 3 + 1 := by
        have last := group.2.1
        omega
      rw [next] at all below
      rcases Nat.lt_succ_iff_lt_or_eq.mp below with earlier | rfl
      · exact seen.tob64 (by omega) k earlier
      · exact group.2.2.2
    next =>
      have same : (i + 1) / 3 = i / 3 := by
        omega
      rw [same] at all below
      exact seen.tob64 all k below

theorem seen_counted_entering (R : RtnCall) (itsLen : ℕ) (buf : Buffer) (i : ℕ) :
    Seen R i (Transforms.entering R itsLen buf i) ∧
      Seen R (i + 1) (Transforms.counted R itsLen buf i) := by
  have step (j : ℕ) (seen : Seen R j (Transforms.entering R itsLen buf j)) :
      Seen R (j + 1) (Transforms.counted R itsLen buf j) := by
    have different : Seen R j ((Transforms.entering R itsLen buf j).withDifferences R j
        (buf (R.idx + j))) := { seen with }
    have encoded := different.withPrefixes.withEncodings
    exact { encoded with }
  have entered : Seen R i (Transforms.entering R itsLen buf i) := by
    induction i with
    | zero => exact seen_start
    | succ i ih =>
        have counted := step i ih
        exact { counted with }
  exact ⟨entered, step i entered⟩

/-! ## Tables -/

theorem hexTableAt_isSome : ∀ byte, isHexChar byte = true → (hexTableAt byte).isSome := by
  decide +kernel

theorem decodeAt_isSome : ∀ byte, isBase64Char byte = true → (decodeAt byte).isSome := by
  decide +kernel

theorem decodeNext_isSome (byte : Byte) (v : BitVec 32) (base64 : isBase64Char byte = true) :
    (decodeNext byte v).isSome := by
  unfold decodeNext
  split
  · rfl
  · rw [Option.isSome_map]
    exact decodeAt_isSome byte base64

/-- Four characters decode to at most three bytes. -/
theorem fromBase64Group_isSome {src : Buffer} {p : ℕ} (base64 : isBase64 src p = true) (q ret : ℕ)
    (dst : Buffer) :
    ∃ result, fromBase64Group src p q ret dst = some result ∧ result.1 ≤ ret + 3 := by
  simp only [isBase64, decide_eq_true_eq] at base64
  obtain ⟨first, second, third, fourth⟩ := base64
  obtain ⟨v0, decoded0⟩ := Option.isSome_iff_exists.mp (decodeAt_isSome _ first)
  obtain ⟨v1, decoded1⟩ := Option.isSome_iff_exists.mp (decodeAt_isSome _ second)
  obtain ⟨v2, decoded2⟩ :=
    Option.isSome_iff_exists.mp (decodeNext_isSome _ (v0 <<< 6 ||| v1) third)
  obtain ⟨v3, decoded3⟩ := Option.isSome_iff_exists.mp (decodeNext_isSome _ v2 fourth)
  unfold fromBase64Group
  simp only [decoded0, decoded1, decoded2, decoded3, Option.map_some, Option.bind_eq_bind,
    Option.bind_some]
  refine ⟨_, rfl, ?_⟩
  split <;> split <;> dsimp only <;> omega

theorem fromBase64Groups_isSome {src : Buffer} {rounds p : ℕ}
    (base64 : ∀ k < rounds, isBase64 src (p + 4 * k) = true) (q ret : ℕ) (dst : Buffer) :
    ∃ result, fromBase64Groups src rounds p q ret dst = some result ∧
      result.1 ≤ ret + 3 * rounds := by
  induction rounds generalizing p q ret dst with
  | zero => exact ⟨_, rfl, le_rfl⟩
  | succ rounds ih =>
      obtain ⟨⟨middle, dst'⟩, decoded, few⟩ :=
        fromBase64Group_isSome (base64 0 (Nat.succ_pos rounds)) q ret dst
      rw [Nat.mul_zero, Nat.add_zero] at decoded
      have later : ∀ k < rounds, isBase64 src (p + 4 + 4 * k) = true := by
        intro k below
        have here := base64 (k + 1) (Nat.succ_lt_succ below)
        rwa [Nat.mul_succ, Nat.add_comm (4 * k), ← Nat.add_assoc] at here
      obtain ⟨result, rest, count⟩ := ih later (q + 3) middle dst'
      refine ⟨result, ?_, by dsimp only at few; omega⟩
      rw [fromBase64Groups, decoded]
      exact rest

/-! ## Attempts inside -/

/-- The attempt reads inside the arrays and writes inside the input. -/
structure Trial.Inside (R : RtnCall) (trial : Trial) : Prop where
  reads : trial.reads ≤ 32
  table : trial.inTable = true
  room : trial.bytes.length < 64
  fits : trial.tooLong = false → R.idx + trial.bytes.length ≤ R.len

/-- The index is inside the input, which is not longer than inputs may be. -/
structure RtnCall.Inside (R : RtnCall) : Prop where
  index : R.idx < R.len
  small : R.len ≤ MAX_FILE

/-- Round `i` is one for an operand of `itsLen` bytes in the input. -/
structure RoundInside (R : RtnCall) (itsLen i : ℕ) : Prop where
  round : i < itsLen
  operand : itsLen ≤ 32
  inside : R.idx + itsLen ≤ R.len
  small : R.len ≤ MAX_FILE

/-- A small number added to a position is not wrapped. -/
theorem RoundInside.u32_add (within : RoundInside R itsLen i) {n : ℕ} (small : n ≤ 64) :
    u32 (n + R.idx) = n + R.idx := by
  have inside := within.inside
  have len := within.small
  have round := within.round
  simp only [MAX_FILE] at len
  exact u32_of_lt (by omega)

section Inside

variable {c : Transforms} {trial : Trial}

theorem inside_bytewise (within : RoundInside R itsLen i) {counter : ℕ} {guarded : Bool}
    {change : ℕ → Byte} (member : trial ∈ Transforms.bytewiseTrials i counter guarded change) :
    trial.Inside R ∧ trial.guarded = guarded ∧ trial.tooLong = false := by
  have round := within.round
  have operand := within.operand
  have inside := within.inside
  unfold Transforms.bytewiseTrials at member
  split at member
  · obtain rfl := List.mem_singleton.mp member
    refine ⟨⟨?_, rfl, ?_, fun _ => ?_⟩, rfl, rfl⟩
    · exact round.trans_le operand
    · rw [List.length_map, List.length_range]
      omega
    · rw [List.length_map, List.length_range]
      omega
  · cases member

/-- The digits do not begin behind a prefix, for with a prefix `tohex` would be too small. -/
theorem tohexOff_eq_zero (seen : Seen R (i + 1) c) (all : i < c.tohex) : c.tohexOff = 0 := by
  have first := seen.tohex (by have := seen.tohex_le; omega) 0 (Nat.succ_pos i)
  simp only [isHex, decide_eq_true_eq] at first
  have no_mark : ¬ (R.repl 1 = 120 ∨ R.repl 1 = 88) := by
    have digit := first.2
    rintro (mark | mark)
    · rw [Nat.mul_zero, Nat.zero_add, mark] at digit
      exact absurd digit (by decide)
    · rw [Nat.mul_zero, Nat.zero_add, mark] at digit
      exact absurd digit (by decide)
  have tox := seen.tox
  rw [if_neg no_mark] at tox
  have one : c.to0 + c.toSlash ≤ 1 := by
    have to0 := seen.to0
    have toSlash := seen.toSlash
    by_cases zero : R.repl 0 = 48
    · have no_slash : R.repl 0 ≠ 92 := by
        rw [zero]
        decide
      rw [if_neg no_slash] at toSlash
      rw [if_pos zero] at to0
      omega
    · rw [if_neg zero] at to0
      split at toSlash <;> omega
  unfold Transforms.tohexOff
  rw [if_neg (by omega)]

theorem inside_tohex (within : RoundInside R itsLen i) (seen : Seen R (i + 1) c)
    (member : trial ∈ c.tohexTrials R i) : trial.Inside R ∧ trial.guarded = false := by
  have round := within.round
  have inside := within.inside
  unfold Transforms.tohexTrials at member
  split at member
  next tried =>
    obtain ⟨-, short, all⟩ := tried
    have off := tohexOff_eq_zero seen all
    have digits := seen.tohex (by have := seen.tohex_le; omega)
    obtain rfl := List.mem_singleton.mp member
    refine ⟨⟨?_, ?_, ?_, fun _ => ?_⟩, rfl⟩
    · rw [off]
      dsimp only
      omega
    · refine List.all_eq_true.mpr fun j below => ?_
      have pair := digits j (List.mem_range.mp below)
      simp only [isHex, decide_eq_true_eq] at pair
      obtain ⟨high, high_known⟩ := Option.isSome_iff_exists.mp (hexTableAt_isSome _ pair.1)
      obtain ⟨low, low_known⟩ := Option.isSome_iff_exists.mp (hexTableAt_isSome _ pair.2)
      unfold Transforms.tohexByte
      simp only [off, Nat.zero_add, high_known, low_known, Option.bind_eq_bind, Option.bind_some,
        Option.isSome_some]
    · rw [List.length_map, List.length_range]
      omega
    · rw [List.length_map, List.length_range]
      omega
  next => cases member

theorem inside_tob64 (within : RoundInside R itsLen i) (seen : Seen R (i + 1) c)
    (member : trial ∈ (c.tob64Trials R itsLen i).1) : trial.Inside R ∧ trial.guarded = false := by
  have round := within.round
  have inside := within.inside
  unfold Transforms.tob64Trials at member
  dsimp only at member
  split at member
  next tried =>
    obtain ⟨-, last, short, all⟩ := tried
    have groups := seen.tob64 (by have := seen.tob64_le; omega)
    have rounds : u32 (((i + 1) / 3) <<< 2) / 4 = (i + 1) / 3 := by
      rw [Nat.shiftLeft_eq, u32_of_lt (by omega)]
      omega
    have all_groups : ∀ k < (i + 1) / 3, isBase64 R.repl (0 + 4 * k) = true := by
      intro k below
      rw [Nat.zero_add]
      exact groups k below
    obtain ⟨⟨olen, tmp⟩, decoded, few⟩ :=
      fromBase64Groups_isSome all_groups 0 0 (c.fromb64Tmp R itsLen i)
    rw [fromBase64, rounds, decoded] at member
    obtain rfl := List.mem_singleton.mp member
    dsimp only at few
    refine ⟨⟨?_, rfl, ?_, fun _ => ?_⟩, rfl⟩
    · dsimp only
      omega
    · rw [length_bytesFrom]
      omega
    · rw [length_bytesFrom]
      omega
  next => cases member

/-- The lengths for base64. -/
theorem mem_fromb64Lengths {hlen : ℕ} (member : hlen ∈ c.fromb64Lengths R itsLen i) :
    i ≤ hlen ∧ hlen ≤ itsLen := by
  unfold Transforms.fromb64Lengths at member
  split at member
  next =>
    have between := List.mem_range'_1.mp ((List.takeWhile_prefix _).subset member)
    omega
  next => cases member

theorem inside_fromb64_iff (within : RoundInside R itsLen i) {hlen : ℕ}
    (member : hlen ∈ c.fromb64Lengths R itsLen i) :
    (Transforms.fromb64Trial R hlen).Inside R ↔ hlen ≤ 30 := by
  have operand := within.operand
  have between := mem_fromb64Lengths member
  have len : encodedLen hlen = 4 * ((hlen + 2) / 3) := encodedLen_eq (by omega)
  have length : (Transforms.fromb64Trial R hlen).bytes.length ≤ encodedLen hlen :=
    List.length_take_le _ _
  constructor
  · intro inside
    have reads : 3 * ((hlen + 2) / 3) ≤ 32 := inside.reads
    omega
  · intro short
    refine ⟨?_, rfl, by omega, fun fits => ?_⟩
    · show 3 * ((hlen + 2) / 3) ≤ 32
      omega
    · have fits : ¬ ¬ u32 (encodedLen hlen + R.idx) < R.len := of_decide_eq_false fits
      rw [within.u32_add (by omega)] at fits
      omega

/-- The lengths for hexadecimal digits. -/
theorem mem_fromhexLengths {hlen : ℕ} (member : hlen ∈ c.fromhexLengths R i) :
    i < 16 ∧ (hlen = i ∨ hlen = 2 * i) := by
  unfold Transforms.fromhexLengths at member
  split at member
  next tried =>
    have either := (List.takeWhile_prefix _).subset member
    rw [List.mem_cons, List.mem_singleton] at either
    exact ⟨tried.2.2.1, either⟩
  next => cases member

theorem length_hexDigits (toUp : ℕ) (byte : Byte) : (hexDigits toUp byte).length = 2 := by
  unfold hexDigits
  split <;> rfl

theorem length_fromhexPrefix (c : Transforms) : c.fromhexPrefix.length ≤ 2 := by
  unfold Transforms.fromhexPrefix
  split
  · exact le_rfl
  · split
    · exact le_rfl
    · exact Nat.zero_le 2

theorem length_fromhexTrial (hlen : ℕ) :
    (c.fromhexTrial R hlen).bytes.length = hlen + 1 + c.fromhexPrefix.length := by
  have digits : ((List.range (hlen / 2 + 1)).flatMap fun j => hexDigits c.toUp (R.repl j)).length =
      2 * (hlen / 2 + 1) := by
    rw [List.length_flatMap]
    simp only [length_hexDigits, List.map_const', List.length_range, List.sum_replicate_nat]
    exact Nat.mul_comm _ _
  show ((c.fromhexText R hlen).take _).length = _
  rw [List.length_take, Transforms.fromhexText, List.length_append, digits]
  omega

theorem inside_fromhex_iff {hlen : ℕ} (member : hlen ∈ c.fromhexLengths R i) :
    (c.fromhexTrial R hlen).Inside R ↔
      R.idx + (hlen + 1 + c.fromhexPrefix.length) ≤ R.len := by
  have lengths := mem_fromhexLengths member
  have short := length_fromhexPrefix c
  have length := length_fromhexTrial (R := R) (c := c) hlen
  rw [← length]
  constructor
  · intro inside
    exact inside.fits rfl
  · intro fits
    refine ⟨?_, rfl, by omega, fun _ => fits⟩
    show hlen / 2 + 1 ≤ 32
    omega

/-- **What is read and written in a round** stays inside exactly if no base64 of more than 30
bytes is tried, and if the hexadecimal digits end inside the input. -/
theorem trials_inside_iff (within : RoundInside R itsLen i) (seen : Seen R (i + 1) c) :
    (∀ trial ∈ c.firstTrials R itsLen i ++ c.lastTrials R i, trial.Inside R) ↔
      (∀ hlen ∈ c.fromb64Lengths R itsLen i, hlen ≤ 30) ∧
        ∀ hlen ∈ c.fromhexLengths R i, R.idx + (hlen + 1 + c.fromhexPrefix.length) ≤ R.len := by
  simp only [Transforms.firstTrials, Transforms.lastTrials, List.forall_mem_append,
    Transforms.fromb64Trials, Transforms.fromhexTrials, List.forall_mem_map]
  constructor
  · rintro ⟨⟨⟨⟨⟨fromb64, -⟩, -⟩, fromhex⟩, -⟩, -⟩
    exact ⟨fun hlen member => (inside_fromb64_iff within member).mp (fromb64 hlen member),
      fun hlen member => (inside_fromhex_iff member).mp (fromhex hlen member)⟩
  · rintro ⟨fromb64, fromhex⟩
    refine ⟨⟨⟨⟨⟨?_, ?_⟩, ?_⟩, ?_⟩, ?_⟩, ⟨?_, ?_⟩, ?_⟩
    · exact fun hlen member => (inside_fromb64_iff within member).mpr (fromb64 hlen member)
    · exact fun trial member => (inside_tob64 within seen member).1
    · exact fun trial member => (inside_tohex within seen member).1
    · exact fun hlen member => (inside_fromhex_iff member).mpr (fromhex hlen member)
    · exact fun trial member => (inside_bytewise within member).1
    · exact fun trial member => (inside_bytewise within member).1
    · exact fun trial member => (inside_bytewise within member).1
    · exact fun trial member => (inside_bytewise within member).1

/-- The first attempts of a round are made in any case. -/
theorem guarded_firstTrials (within : RoundInside R itsLen i) (seen : Seen R (i + 1) c) :
    ∀ trial ∈ c.firstTrials R itsLen i, trial.guarded = false := by
  simp only [Transforms.firstTrials, List.forall_mem_append, Transforms.fromb64Trials,
    Transforms.fromhexTrials, List.forall_mem_map]
  refine ⟨⟨⟨⟨fun hlen _ => rfl, ?_⟩, ?_⟩, fun hlen _ => rfl⟩, ?_⟩
  · exact fun trial member => (inside_tob64 within seen member).2
  · exact fun trial member => (inside_tohex within seen member).2
  · exact fun trial member => (inside_bytewise within member).2.1

/-- The last attempts of a round are only made if nothing was found. -/
theorem guarded_lastTrials (within : RoundInside R itsLen i) :
    ∀ trial ∈ c.lastTrials R i, trial.guarded = true ∧ trial.tooLong = false := by
  simp only [Transforms.lastTrials, List.forall_mem_append]
  refine ⟨⟨?_, ?_⟩, ?_⟩
  · exact fun trial member => (inside_bytewise within member).2
  · exact fun trial member => (inside_bytewise within member).2
  · exact fun trial member => (inside_bytewise within member).2

end Inside

end GreenFuzz.Redqueen
