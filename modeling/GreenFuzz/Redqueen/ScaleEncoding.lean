import GreenFuzz.Library.CompactIntegers
import GreenFuzz.Redqueen.CmpRestores

/-!
# Candidates in SCALE encoding

The solvers write the operand as a compact integer of the SCALE codec. Which mode they take
depends on the operand shifted to the left by 2 in its own type, so that its two high bits are
lost: an operand from 2⁶² on, or from 2¹²⁶ on for a `u128`, whose other bits are a number below
2³⁰ is written as that number. All other candidates decode to the operand
(`scale_candidates_iff`).
-/

set_option autoImplicit false

namespace GreenFuzz.Redqueen

open Library AflFuzz

/-! ## The big-integer mode -/

/-- The number of bytes is the number of digits to the base 256. -/
theorem scaleLen_eq {size v : ℕ} (fits : v < 256 ^ size) :
    scaleLen size v = (Nat.digits 256 v).length := by
  induction size generalizing v with
  | zero =>
      have zero : v = 0 := by omega
      subst zero
      rfl
  | succ size ih =>
      rw [scaleLen]
      split
      next zero =>
          subst zero
          rfl
      next positive =>
          have above : v / 256 < 256 ^ size :=
            Nat.div_lt_of_lt_mul (by rwa [Nat.pow_succ'] at fits)
          rw [Nat.digits_def' (by decide) (Nat.pos_of_ne_zero positive), List.length_cons,
            Nat.shiftRight_eq_div_pow]
          exact congrArg (· + 1) (ih above)

/-- A big integer decodes to the operand. -/
theorem decodeCompact_scaleBig (size : ℕ) (repl : BitVec 128) (big : 2 ^ 30 ≤ repl.toNat)
    (fits : repl.toNat < 256 ^ size) (small : repl.toNat < 256 ^ 15) (rest : List Byte) :
    decodeCompact (lowBytes (scaleBig size repl).1 (scaleBig size repl).2.toNat ++ rest) =
      some (repl.toNat, (scaleBig size repl).1) := by
  have digits := scaleLen_eq fits
  have below := Nat.lt_base_pow_length_digits (b := 256) (m := repl.toNat) (by decide)
  have above := Nat.base_pow_length_digits_le 256 repl.toNat (by decide) (by omega)
  have short : scaleLen size repl.toNat ≤ 15 := scaleLen_le_of_lt small
  rw [← digits] at below above
  have least : 4 ≤ scaleLen size repl.toNat := by
    by_contra less
    have three : scaleLen size repl.toNat ≤ 3 := by omega
    have small := below.trans_le (Nat.pow_le_pow_right (by decide) three)
    omega
  have needed : 256 ^ (scaleLen size repl.toNat - 1) ≤ repl.toNat := by
    obtain ⟨n, length⟩ := Nat.exists_eq_add_of_le' (by omega : 1 ≤ scaleLen size repl.toNat)
    rw [length, Nat.pow_succ] at above
    rw [length, Nat.add_sub_cancel]
    omega
  have value : (scaleBig size repl).2.toNat =
      256 * repl.toNat + (4 * (scaleLen size repl.toNat - 4) + 3) := by
    rw [scaleBig, BitVec.toNat_add, BitVec.toNat_shiftLeft, BitVec.toNat_ofNat,
      Nat.shiftLeft_eq, Nat.shiftLeft_eq]
    omega
  have bytes : (scaleBig size repl).1 = scaleLen size repl.toNat + 1 := by
    rw [scaleBig]
    omega
  rw [value, bytes]
  exact decodeCompact_big least (by omega) big needed below rest

/-! ## The small modes -/

/-- A candidate in a mode below 3 decodes to what is above the mode. -/
theorem decodeCompact_small_iff {mode low value : ℕ} (below : mode < 3)
    (fits : 4 * low + mode < 256 ^ 2 ^ mode) (rest : List Byte) :
    decodeCompact (lowBytes (2 ^ mode) (4 * low + mode) ++ rest) = some (value, 2 ^ mode) ↔
      leastOfMode mode ≤ low ∧ low = value := by
  rw [decodeCompact_small below fits]
  split
  next least =>
      constructor
      · intro same
        cases same
        exact ⟨least, rfl⟩
      · rintro ⟨-, rfl⟩
        rfl
  next more =>
      constructor
      · intro same
        cases same
      · intro both
        exact absurd both.1 more

/-- An operand shifted to the left by 2, with the mode in the two low bits. -/
theorem toNat_shifted_add {w mode : ℕ} (wide : 2 ≤ w) (small : mode < 4) (repl : BitVec w) :
    (repl <<< 2 + BitVec.ofNat w mode).toNat = 4 * (repl.toNat % 2 ^ (w - 2)) + mode := by
  have size : 2 ^ w = 4 * 2 ^ (w - 2) := by
    conv_lhs => rw [← Nat.sub_add_cancel wide, Nat.pow_add]
    omega
  have low : repl.toNat % 2 ^ (w - 2) < 2 ^ (w - 2) := Nat.mod_lt _ (by positivity)
  have mode_eq : mode % 2 ^ w = mode := Nat.mod_eq_of_lt (by omega)
  have shifted : (repl <<< 2).toNat = 4 * (repl.toNat % 2 ^ (w - 2)) := by
    rw [BitVec.toNat_shiftLeft, Nat.shiftLeft_eq, Nat.mul_comm, size]
    exact Nat.mul_mod_mul_left 4 _ _
  rw [BitVec.toNat_add, BitVec.toNat_ofNat, mode_eq, shifted]
  exact Nat.mod_eq_of_lt (by omega)

theorem toNat_shifted {w : ℕ} (wide : 2 ≤ w) (repl : BitVec w) :
    (repl <<< 2).toNat = 4 * (repl.toNat % 2 ^ (w - 2)) := by
  have shifted := toNat_shifted_add wide (by decide : 0 < 4) repl
  rwa [BitVec.add_zero] at shifted

/-- The operand loses high bits, and what is left is small. -/
def ScaleWraps {w : ℕ} (repl : BitVec w) : Prop :=
  2 ^ (w - 2) ≤ repl.toNat ∧ repl.toNat % 2 ^ (w - 2) < 2 ^ 30

/-- A candidate of `cmp_extend_encoding`, which has more than one byte, decodes to the operand
unless the shift loses bits. -/
theorem scaleEncoding_decodes_iff {repl : BitVec 64} (long : 1 < (scaleEncoding repl repl).1)
    (rest : List Byte) :
    decodeCompact (lowBytes (scaleEncoding repl repl).1 (scaleEncoding repl repl).2.toNat ++ rest) =
        some (repl.toNat, (scaleEncoding repl repl).1) ↔
      ¬ ScaleWraps repl := by
  have width := repl.isLt
  have shifted : (repl <<< 2).toNat = 4 * (repl.toNat % 2 ^ 62) := toNat_shifted (by decide) repl
  have least : leastOfMode 2 = 2 ^ 14 := rfl
  unfold ScaleWraps
  unfold scaleEncoding at long ⊢
  dsimp only at long ⊢
  split
  next single =>
      rw [if_pos single] at long
      exact absurd long (lt_irrefl 1)
  next several =>
      have large : 255 < repl.toNat := not_le.mp several
      split
      next two =>
          have two : (repl <<< 2).toNat ≤ 65535 := two
          have value : (repl <<< 2 + 1).toNat = 4 * (repl.toNat % 2 ^ 62) + 1 :=
            toNat_shifted_add (by decide) (by decide) repl
          show decodeCompact (lowBytes (2 ^ 1) _ ++ rest) = some (_, 2 ^ 1) ↔ _
          rw [BitVec.toNat_setWidth_of_le (by decide), value,
            decodeCompact_small_iff (by decide) (by omega), leastOfMode]
          omega
      next four =>
          have four : ¬ (repl <<< 2).toNat ≤ 65535 := four
          split
          next small =>
              have small : (repl <<< 2).toNat ≤ 4294967295 := small
              have value : (repl <<< 2 + 2).toNat = 4 * (repl.toNat % 2 ^ 62) + 2 :=
                toNat_shifted_add (by decide) (by decide) repl
              show decodeCompact (lowBytes (2 ^ 2) _ ++ rest) = some (_, 2 ^ 2) ↔ _
              rw [BitVec.toNat_setWidth_of_le (by decide), value,
                decodeCompact_small_iff (by decide) (by omega), least]
              omega
          next big =>
              have big : ¬ (repl <<< 2).toNat ≤ 4294967295 := big
              have same : (repl.setWidth 128).toNat = repl.toNat :=
                BitVec.toNat_setWidth_of_le (by decide)
              have decodes := decodeCompact_scaleBig 8 (repl.setWidth 128)
                (by omega) (by omega) (by omega) rest
              rw [same] at decodes
              have kept : ¬ (2 ^ (64 - 2) ≤ repl.toNat ∧ repl.toNat % 2 ^ (64 - 2) < 2 ^ 30) := by
                omega
              exact iff_of_true decodes kept

/-- A candidate of `cmp_extend_encodingN` decodes to the operand unless the shift loses bits. -/
theorem scaleEncodingN_decodes_iff {repl : BitVec 128} {scale : ℕ × BitVec 128}
    (encoded : scaleEncodingN repl = some scale) (rest : List Byte) :
    decodeCompact (lowBytes scale.1 scale.2.toNat ++ rest) = some (repl.toNat, scale.1) ↔
      ¬ ScaleWraps repl := by
  have width := repl.isLt
  have shifted : (repl <<< 2).toNat = 4 * (repl.toNat % 2 ^ 126) := toNat_shifted (by decide) repl
  have least : leastOfMode 2 = 2 ^ 14 := rfl
  unfold ScaleWraps
  unfold scaleEncodingN at encoded
  dsimp only at encoded
  split at encoded
  next one =>
      have one : (repl <<< 2).toNat ≤ 255 := one
      cases encoded
      show decodeCompact (lowBytes (2 ^ 0) (repl <<< 2).toNat ++ rest) = some (_, 2 ^ 0) ↔ _
      rw [shifted, ← Nat.add_zero (4 * _), decodeCompact_small_iff (by decide) (by omega),
        leastOfMode]
      omega
  next more =>
      have more : ¬ (repl <<< 2).toNat ≤ 255 := more
      split at encoded
      next two =>
          have two : (repl <<< 2).toNat ≤ 65535 := two
          cases encoded
          have value : (repl <<< 2 + 1).toNat = 4 * (repl.toNat % 2 ^ 126) + 1 :=
            toNat_shifted_add (by decide) (by decide) repl
          show decodeCompact (lowBytes (2 ^ 1) (repl <<< 2 + 1).toNat ++ rest) =
            some (_, 2 ^ 1) ↔ _
          rw [value, decodeCompact_small_iff (by decide) (by omega), leastOfMode]
          omega
      next four =>
          have four : ¬ (repl <<< 2).toNat ≤ 65535 := four
          split at encoded
          next small =>
              have small : (repl <<< 2).toNat ≤ 4294967295 := small
              cases encoded
              have value : (repl <<< 2 + 2).toNat = 4 * (repl.toNat % 2 ^ 126) + 2 :=
                toNat_shifted_add (by decide) (by decide) repl
              show decodeCompact (lowBytes (2 ^ 2) (repl <<< 2 + 2).toNat ++ rest) =
                some (_, 2 ^ 2) ↔ _
              rw [value, decodeCompact_small_iff (by decide) (by omega), least]
              omega
          next big =>
              have big : ¬ (repl <<< 2).toNat ≤ 4294967295 := big
              split at encoded
              next supported =>
                  cases encoded
                  have below : repl.toNat < 2 ^ 120 := supported
                  have decodes := decodeCompact_scaleBig 16 repl
                    (by omega) (by omega) (by omega) rest
                  have kept : ¬ (2 ^ (128 - 2) ≤ repl.toNat ∧
                      repl.toNat % 2 ^ (128 - 2) < 2 ^ 30) := by
                    omega
                  exact iff_of_true decodes kept
              next => cases encoded

/-- The bytes that a number below 2³⁰ takes. -/
def smallLen (value : ℕ) : ℕ := if value < 64 then 1 else if value < 2 ^ 14 then 2 else 4

/-- An operand that loses bits is written like the rest of it, though not in one byte. -/
theorem scaleEncoding_wraps {repl : BitVec 64} (wraps : ScaleWraps repl) :
    (scaleEncoding repl repl).1 = max 2 (smallLen (repl.toNat % 2 ^ 62)) := by
  obtain ⟨high, low⟩ : 2 ^ 62 ≤ repl.toNat ∧ repl.toNat % 2 ^ 62 < 2 ^ 30 := wraps
  have shifted : (repl <<< 2).toNat = 4 * (repl.toNat % 2 ^ 62) := toNat_shifted (by decide) repl
  have several : ¬ repl ≤ 255 := by
    intro (single : repl.toNat ≤ 255)
    omega
  have small : repl <<< 2 ≤ 4294967295 := by
    show (repl <<< 2).toNat ≤ 4294967295
    omega
  unfold scaleEncoding smallLen
  dsimp only
  rw [if_neg several, if_pos small]
  have two : repl <<< 2 ≤ 65535 ↔ repl.toNat % 2 ^ 62 < 2 ^ 14 := by
    show (repl <<< 2).toNat ≤ 65535 ↔ _
    omega
  by_cases short : repl.toNat % 2 ^ 62 < 2 ^ 14
  · rw [if_pos (two.mpr short), if_pos short]
    split <;> rfl
  · have long : ¬ repl.toNat % 2 ^ 62 < 64 := by omega
    rw [if_neg fun le => short (two.mp le), if_neg long, if_neg short]
    rfl

theorem scaleEncodingN_wraps {repl : BitVec 128} (wraps : ScaleWraps repl) :
    ∃ value, scaleEncodingN repl = some (smallLen (repl.toNat % 2 ^ 126), value) := by
  obtain ⟨-, low⟩ : 2 ^ 126 ≤ repl.toNat ∧ repl.toNat % 2 ^ 126 < 2 ^ 30 := wraps
  have shifted : (repl <<< 2).toNat = 4 * (repl.toNat % 2 ^ 126) := toNat_shifted (by decide) repl
  have one : repl <<< 2 ≤ 255 ↔ repl.toNat % 2 ^ 126 < 64 := by
    show (repl <<< 2).toNat ≤ 255 ↔ _
    omega
  have two : repl <<< 2 ≤ 65535 ↔ repl.toNat % 2 ^ 126 < 2 ^ 14 := by
    show (repl <<< 2).toNat ≤ 65535 ↔ _
    omega
  have small : repl <<< 2 ≤ 4294967295 := by
    show (repl <<< 2).toNat ≤ 4294967295
    omega
  unfold scaleEncodingN smallLen
  simp only [one, two, small, if_true]
  split
  · exact ⟨_, rfl⟩
  · split <;> exact ⟨_, rfl⟩

/-- Without lost bits a candidate is in the supported range. -/
theorem scaleEncodingN_supported {repl : BitVec 128} {scale : ℕ × BitVec 128}
    (encoded : scaleEncodingN repl = some scale) (keeps : ¬ ScaleWraps repl) :
    repl.toNat < 2 ^ 120 := by
  by_contra large
  have shifted : (repl <<< 2).toNat = 4 * (repl.toNat % 2 ^ 126) := toNat_shifted (by decide) repl
  have width := repl.isLt
  have keeps : ¬ (2 ^ 126 ≤ repl.toNat ∧ repl.toNat % 2 ^ 126 < 2 ^ 30) := keeps
  have big : ¬ repl <<< 2 ≤ 4294967295 := by
    show ¬ (repl <<< 2).toNat ≤ 4294967295
    omega
  have four : ¬ repl <<< 2 ≤ 65535 := by
    intro (two : (repl <<< 2).toNat ≤ 65535)
    omega
  have more : ¬ repl <<< 2 ≤ 255 := by
    intro (one : (repl <<< 2).toNat ≤ 255)
    omega
  have outside : ¬ repl.toNat < 1 <<< 120 := large
  unfold scaleEncodingN at encoded
  dsimp only at encoded
  rw [if_neg more, if_neg four, if_neg big, if_neg outside] at encoded
  cases encoded

/-! ## Runs -/

section Runs

variable {C : CmpPlace} {s t : ItsState} {supply left : List ExecResult} {u : Unit}

/-- The bytes that are written are the low bytes of the value. -/
theorem lowBytes_setWidth (n : ℕ) (value : BitVec 128) :
    lowBytes n (value.setWidth (8 * n)).toNat = lowBytes n value.toNat := by
  rw [← map_byteOf, ← map_byteOf]
  apply List.map_congr_left
  intro k inside
  have below : k < n := List.mem_range.mp inside
  apply BitVec.eq_of_getLsbD_eq
  intro j inByte
  have bit : 8 * k + j < 8 * n := by omega
  rw [getLsbD_byteOf, getLsbD_byteOf, BitVec.getLsbD_setWidth, decide_eq_true bit, Bool.true_and]

/-- What a decoder finds where a word was written. -/
theorem drop_inputOf_storeAt {len idx n : ℕ} (fits : idx + n ≤ len) (buf : Buffer)
    (word : BitVec (8 * n)) :
    ∃ rest, (inputOf len (storeAt n buf idx word)).drop idx = lowBytes n word.toNat ++ rest := by
  obtain ⟨more, rfl⟩ := Nat.exists_eq_add_of_le fits
  refine ⟨((List.range more).map (n + ·)).map fun k => storeAt n buf idx word (idx + k), ?_⟩
  have length : (List.map (storeAt n buf idx word) (List.range idx)).length = idx := by
    rw [List.length_map, List.length_range]
  rw [inputOf, Nat.add_assoc, List.range_add, List.map_append, List.drop_left' length,
    List.map_map, List.range_add, List.map_append, ← map_byteOf]
  congr 1
  apply List.map_congr_left
  intro k inside
  exact storeAt_inside _ _ _ (List.mem_range.mp inside)

/-- The input decodes to the value at the index, and differs from the buffer only in the bytes of
the encoding. -/
def ScaleCandidate (C : CmpPlace) (buf : Buffer) (value ilen : ℕ) (input : List Byte) : Prop :=
  decodeCompact (input.drop C.idx) = some (value, ilen) ∧
    ∃ word : BitVec (8 * ilen), input = inputOf C.len (storeAt ilen buf C.idx word)

theorem run_executeScale {scale : ℕ × BitVec 128}
    (run : executeScale C scale s supply = .ok ((u, t), left)) :
    t.executed = s.executed ++
      [inputOf C.len (storeAt scale.1 s.buf C.idx (scale.2.setWidth (8 * scale.1)))] := by
  obtain ⟨-, run⟩ := run_demand_bind run
  obtain ⟨result, input, known, -, rfl, -, rfl⟩ := run_replaceWord run
  rfl

/-- An executed encoding is a candidate for a value if its bytes decode to it. -/
theorem candidate_executeScale_iff (inside : C.Inside) {scale : ℕ × BitVec 128} {value : ℕ}
    {keeps : Prop} (short : scale.1 ≤ C.itsLen)
    (decodes : ∀ rest, decodeCompact (lowBytes scale.1 scale.2.toNat ++ rest) =
      some (value, scale.1) ↔ keeps)
    (run : executeScale C scale s supply = .ok ((u, t), left)) :
    (∀ input, t.executed = s.executed ++ [input] → ScaleCandidate C s.buf value scale.1 input) ↔
      keeps := by
  have executed := run_executeScale run
  obtain ⟨rest, bytes⟩ := drop_inputOf_storeAt (inside.fits short) s.buf
    (scale.2.setWidth (8 * scale.1))
  rw [lowBytes_setWidth] at bytes
  constructor
  · intro all
    have candidate := (all _ executed).1
    rwa [bytes, decodes rest] at candidate
  · intro holds input same
    rw [executed] at same
    obtain rfl := List.singleton_inj.mp (List.append_cancel_left same)
    refine ⟨?_, _, rfl⟩
    rw [bytes]
    exact (decodes rest).mpr holds

/-- Nothing was executed. -/
theorem candidate_of_same {P : List Byte → Prop} (same : t = s) :
    ∀ input, t.executed = s.executed ++ [input] → P input := by
  intro input executed
  rw [same] at executed
  have length := congrArg List.length executed
  rw [List.length_append, List.length_singleton] at length
  omega

/-- When `cmp_extend_encoding` tries a SCALE encoding. -/
def ScaleTried (C : CmpPlace) (attr : BitVec 8) : Prop :=
  attr < IS_FP ∧ (C.enableScale ∨ LVL3 ≤ C.lvl)

theorem scaleAttempt_iff (inside : C.Inside) {a : CmpArgs 64}
    (run : scaleAttempt C a s supply = .ok ((u, t), left)) :
    (∀ input, t.executed = s.executed ++ [input] →
        ScaleCandidate C s.buf a.repl.toNat (scaleEncoding a.repl a.changedVal).1 input) ↔
      ¬ (ScaleTried C a.attr ∧ a.repl = a.changedVal ∧ ScaleWraps a.repl ∧
        max 2 (smallLen (a.repl.toNat % 2 ^ 62)) ≤ C.itsLen) := by
  rcases run_whenever run with ⟨⟨⟨low, level, same⟩, short, long⟩, run⟩ | ⟨never, unchanged, -⟩
  · rw [← same] at short long run ⊢
    rw [candidate_executeScale_iff inside short (scaleEncoding_decodes_iff long) run]
    refine not_congr ⟨fun wraps => ⟨⟨low, level⟩, rfl, wraps, ?_⟩, fun all => all.2.2.1⟩
    rwa [← scaleEncoding_wraps wraps]
  · refine iff_of_true (candidate_of_same unchanged) ?_
    rintro ⟨⟨low, level⟩, same, wraps, fits⟩
    have length := scaleEncoding_wraps wraps
    refine never ⟨⟨low, level, same⟩, ?_⟩
    rw [← same, length]
    exact ⟨fits, lt_max_of_lt_left (by decide)⟩

theorem scaleAttemptN_iff (inside : C.Inside) {a : CmpArgs 128}
    (run : scaleAttemptN C a s supply = .ok ((u, t), left)) :
    (∀ input, t.executed = s.executed ++ [input] → a.repl.toNat < 2 ^ 120 ∧
        ∃ scale, scaleEncodingN a.repl = some scale ∧
          ScaleCandidate C s.buf a.repl.toNat scale.1 input) ↔
      ¬ (ScaleTried C a.attr ∧ ScaleWraps a.repl ∧
        smallLen (a.repl.toNat % 2 ^ 126) ≤ C.itsLen) := by
  rcases run_whenever run with ⟨⟨low, -, level⟩, run⟩ | ⟨never, unchanged, -⟩
  · cases encoded : scaleEncodingN a.repl with
    | none =>
        rw [encoded] at run
        cases run
        refine iff_of_true (candidate_of_same rfl) ?_
        rintro ⟨-, wraps, -⟩
        obtain ⟨value, some⟩ := scaleEncodingN_wraps wraps
        rw [encoded] at some
        cases some
    | some scale =>
        rw [encoded] at run
        rcases run_whenever run with ⟨short, run⟩ | ⟨long, unchanged, -⟩
        · have decodes := candidate_executeScale_iff inside short
            (scaleEncodingN_decodes_iff encoded) run
          constructor
          · rintro all ⟨-, wraps, -⟩
            refine decodes.mp (fun input executed => ?_) wraps
            obtain ⟨-, other, same, candidate⟩ := all input executed
            cases same
            exact candidate
          · intro right
            have keeps : ¬ ScaleWraps a.repl := by
              intro wraps
              obtain ⟨value, same⟩ := scaleEncodingN_wraps wraps
              rw [encoded] at same
              cases same
              exact right ⟨⟨low, level⟩, wraps, short⟩
            exact fun input executed => ⟨scaleEncodingN_supported encoded keeps, scale, rfl,
              decodes.mpr keeps input executed⟩
        · refine iff_of_true (candidate_of_same unchanged) ?_
          rintro ⟨-, wraps, fits⟩
          obtain ⟨value, same⟩ := scaleEncodingN_wraps wraps
          rw [encoded] at same
          cases same
          exact long fits
  · refine iff_of_true (candidate_of_same unchanged) ?_
    rintro ⟨⟨low, level⟩, -⟩
    exact never ⟨low, BitVec.lt_trans low (by decide : IS_FP < 32), level⟩

/-- **Candidates in SCALE encoding decode to the operand**, in the bytes that were written and
within the supported range, exactly unless one is tried and fits that lost high bits. -/
theorem scale_candidates_iff (C : CmpPlace) (inside : C.Inside) (s t : ItsState)
    (supply left : List ExecResult) :
    (∀ a, scaleAttempt C a s supply = .ok (((), t), left) →
      ((∀ input, t.executed = s.executed ++ [input] →
          ScaleCandidate C s.buf a.repl.toNat (scaleEncoding a.repl a.changedVal).1 input) ↔
        ¬ (ScaleTried C a.attr ∧ a.repl = a.changedVal ∧ ScaleWraps a.repl ∧
          max 2 (smallLen (a.repl.toNat % 2 ^ 62)) ≤ C.itsLen))) ∧
      ∀ a, scaleAttemptN C a s supply = .ok (((), t), left) →
        ((∀ input, t.executed = s.executed ++ [input] → a.repl.toNat < 2 ^ 120 ∧
            ∃ scale, scaleEncodingN a.repl = some scale ∧
              ScaleCandidate C s.buf a.repl.toNat scale.1 input) ↔
          ¬ (ScaleTried C a.attr ∧ ScaleWraps a.repl ∧
            smallLen (a.repl.toNat % 2 ^ 126) ≤ C.itsLen)) :=
  ⟨fun _ run => scaleAttempt_iff inside run, fun _ run => scaleAttemptN_iff inside run⟩

/-- The operand 1000 is written in two bytes by both functions. -/
theorem scale_candidates_iff_thousand :
    (∃ t left, scaleAttempt firstOfThree (sevenArgs 1000) sevenState [nothingFound] =
          .ok (((), t), left) ∧
        ∀ input, t.executed = sevenState.executed ++ [input] →
          ScaleCandidate firstOfThree sevenState.buf 1000 2 input) ∧
      ∃ t left, scaleAttemptN firstOfThree (sevenArgs 1000) sevenState [nothingFound] =
          .ok (((), t), left) ∧
        ∀ input, t.executed = sevenState.executed ++ [input] → 1000 < 2 ^ 120 ∧
          ∃ scale, scaleEncodingN 1000 = some scale ∧
            ScaleCandidate firstOfThree sevenState.buf 1000 scale.1 input := by
  have inside : firstOfThree.Inside := ⟨by decide, by decide⟩
  constructor
  · have returns : ∃ t left, scaleAttempt firstOfThree (sevenArgs 1000) sevenState
        [nothingFound] = .ok (((), t), left) := ⟨_, _, rfl⟩
    obtain ⟨t, left, run⟩ := returns
    refine ⟨t, left, run, ((scale_candidates_iff _ inside _ t _ left).1 _ run).mpr ?_⟩
    rintro ⟨-, -, wraps, -⟩
    exact absurd wraps.1 (by decide)
  · have returns : ∃ t left, scaleAttemptN firstOfThree (sevenArgs 1000) sevenState
        [nothingFound] = .ok (((), t), left) := ⟨_, _, rfl⟩
    obtain ⟨t, left, run⟩ := returns
    refine ⟨t, left, run, ((scale_candidates_iff _ inside _ t _ left).2 _ run).mpr ?_⟩
    rintro ⟨-, wraps, -⟩
    exact absurd wraps.1 (by decide)

/-- The operands 2⁶² + 100 and, as a `u128`, 2¹²⁶ + 100 are written as 100. -/
theorem scale_high_bits_lost :
    (∃ t left, scaleAttempt firstOfThree (sevenArgs 0x4000000000000064) sevenState [nothingFound] =
          .ok (((), t), left) ∧
        t.executed = sevenState.executed ++ [[145, 1, 98]]) ∧
      (∃ t left, scaleAttemptN firstOfThree (sevenArgs 0x40000000000000000000000000000064)
            sevenState [nothingFound] = .ok (((), t), left) ∧
        t.executed = sevenState.executed ++ [[145, 1, 98]]) ∧
      decodeCompact [145, 1, 98] = some (100, 2) :=
  ⟨⟨_, _, rfl, by decide⟩, ⟨_, _, rfl, by decide⟩, by decide⟩

end Runs

end GreenFuzz.Redqueen
