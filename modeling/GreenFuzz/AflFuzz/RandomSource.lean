import GreenFuzz.AflFuzz.Havoc
import Mathlib.Data.Int.CardIntervalMod
import Mathlib.Data.Set.Card

/-!
# The random source

`rand_set_seed` and the 64-bit `rand_next` of `afl-performance.c`. The generator multiplies
by an odd number, subtracts and rotates, so its step is a bijection and the state of two
zeros comes from no other state. `rand_set_seed` does not start there, whatever `hash64` returns.

`rand_below` throws away the values at the upper end. What it keeps are as many values for each
remainder (`card_randBelow`).
-/

set_option autoImplicit false

namespace GreenFuzz.AflFuzz

open Library

/-! ## The generator -/

/-- `rand_seed`. -/
structure RandSeed where
  seed0 : BitVec 64
  seed1 : BitVec 64
  seed2 : BitVec 64

/-- `rand_set_seed`. -/
def randSetSeed (hash64 : BitVec 64 → BitVec 64) (initSeed : BitVec 64) : RandSeed :=
  let seed0 := hash64 initSeed
  let seed1 := seed0 ^^^ 0x1234567890abcdef
  { seed0, seed1
    seed2 := (seed0 &&& 0x1234567890abcdef) ^^^ (seed1 ||| 0xfedcba9876543210) }

/-- `ROTL`. -/
def rotl (d : BitVec 64) (lrot : ℕ) : BitVec 64 := (d <<< lrot) ||| (d >>> (64 - lrot))

/-- `rand_next`: the value that is returned, and the seed that is left. -/
def RandSeed.randNext (s : RandSeed) : BitVec 64 × RandSeed :=
  let xp := s.seed0
  (xp, { s with seed0 := 15241094284759029579#64 * s.seed1, seed1 := rotl (s.seed1 - xp) 27 })

/-- The step of the generator on the two words it uses. -/
def romuDuoJr (s : BitVec 64 × BitVec 64) : BitVec 64 × BitVec 64 :=
  (15241094284759029579#64 * s.2, rotl (s.2 - s.1) 27)

theorem RandSeed.randNext_step (s : RandSeed) :
    (s.randNext.2.seed0, s.randNext.2.seed1) = romuDuoJr (s.seed0, s.seed1) := rfl

theorem rotl_eq {lrot : ℕ} (less : lrot < 64) (d : BitVec 64) :
    rotl d lrot = d.rotateLeft lrot := by
  rw [BitVec.rotateLeft_def, Nat.mod_eq_of_lt less, rotl]

/-- A rotation is undone by the rest of a full turn. -/
theorem rotl_rotl {left right : ℕ} (turn : left + right = 64) (less : left < 64)
    (less' : right < 64)
    (d : BitVec 64) : rotl (rotl d left) right = d := by
  refine BitVec.eq_of_getLsbD_eq fun i below => ?_
  rw [rotl_eq less', rotl_eq less, BitVec.getLsbD_rotateLeft_of_le less',
    BitVec.getLsbD_rotateLeft_of_le less, BitVec.getLsbD_rotateLeft_of_le less]
  rcases Nat.lt_or_ge i right with low | high
  · have outside : ¬ 64 - right + i < left := by omega
    have place : 64 - right + i - left = i := by omega
    have inside : 64 - right + i < 64 := by omega
    simp only [low, outside, place, inside, decide_true, decide_false, cond_true, cond_false,
      Bool.true_and]
  · have outside : ¬ i < right := by omega
    have within : i - right < left := by omega
    have place : 64 - left + (i - right) = i := by omega
    simp only [outside, within, place, below, decide_true, decide_false, cond_true, cond_false,
      Bool.true_and]

/-- The step backwards. -/
def romuBack (s : BitVec 64 × BitVec 64) : BitVec 64 × BitVec 64 :=
  let seed1 := 4888251478366616163#64 * s.1
  (seed1 - rotl s.2 37, seed1)

/-- The step loses nothing. -/
theorem romuDuoJr_bijective : Function.Bijective romuDuoJr := by
  have inverse : 4888251478366616163#64 * 15241094284759029579#64 = 1#64 := by decide
  have inverse' : 15241094284759029579#64 * 4888251478366616163#64 = 1#64 := by decide
  refine Function.bijective_iff_has_inverse.mpr ⟨romuBack, fun s => ?_, fun s => ?_⟩
  · have first : 4888251478366616163#64 * (15241094284759029579#64 * s.2) = s.2 := by
      rw [← BitVec.mul_assoc, inverse, BitVec.one_mul]
    have second : s.2 - (s.2 - s.1) = s.1 := by bv_omega
    simp only [romuDuoJr, romuBack, first,
      rotl_rotl rfl (by decide : 27 < 64) (by decide : 37 < 64),
      second]
  · have first : 15241094284759029579#64 * (4888251478366616163#64 * s.1) = s.1 := by
      rw [← BitVec.mul_assoc, inverse', BitVec.one_mul]
    have second (x y : BitVec 64) : x - (x - y) = y := by bv_omega
    simp only [romuDuoJr, romuBack, first, second,
      rotl_rotl rfl (by decide : 37 < 64) (by decide : 27 < 64)]

/-- Two zeros come from two zeros only. -/
theorem romuDuoJr_eq_zero_iff (s : BitVec 64 × BitVec 64) : romuDuoJr s = (0, 0) ↔ s = (0, 0) := by
  have fixed : romuDuoJr (0, 0) = (0, 0) := by decide
  constructor
  · intro zero
    exact romuDuoJr_bijective.injective (zero.trans fixed.symm)
  · rintro rfl
    exact fixed

/-- The words of a seed that has not degenerated. -/
def RandSeed.Alive (s : RandSeed) : Prop := (s.seed0, s.seed1) ≠ (0, 0)

theorem randSetSeed_alive (hash64 : BitVec 64 → BitVec 64) (initSeed : BitVec 64) :
    (randSetSeed hash64 initSeed).Alive := by
  intro zero
  simp only [randSetSeed, Prod.mk.injEq] at zero
  obtain ⟨first, second⟩ := zero
  rw [first] at second
  exact absurd second (by decide)

theorem RandSeed.Alive.randNext {s : RandSeed} (alive : s.Alive) : s.randNext.2.Alive := by
  intro zero
  rw [RandSeed.randNext_step] at zero
  exact alive ((romuDuoJr_eq_zero_iff _).mp zero)

/-- The run lemma: no number of steps degenerates the seed. -/
theorem RandSeed.Alive.iterate {s : RandSeed} (alive : s.Alive) (steps : ℕ) :
    ((fun s => s.randNext.2)^[steps] s).Alive := by
  induction steps generalizing s with
  | zero => exact alive
  | succ steps ih => exact ih alive.randNext

/-! ## Bounded numbers -/

/-- The largest multiple of the limit that is not above `UINT64_MAX`. -/
theorem accepted_bound (limit : ℕ) :
    UINT64_MAX - UINT64_MAX % limit = limit * (UINT64_MAX / limit) := by
  have parts := Nat.div_add_mod UINT64_MAX limit
  omega

/-- A value below the bound is accepted, and gives its remainder. -/
theorem randBelow_one {limit : ℕ} (more : 2 ≤ limit) (v : BitVec 64) (r : ℕ) :
    (randBelow limit).run [v] = some (r, []) ↔
      v.toNat < limit * (UINT64_MAX / limit) ∧ v.toNat % limit = r := by
  rw [randBelow, if_neg (by omega)]
  simp only [StateT.run, randBelowLoop, accepted_bound]
  split
  · rename_i rejected
    refine iff_of_false ?_ fun accepted => by omega
    rintro ⟨⟩
  · rename_i accepted
    rw [Option.some.injEq, Prod.mk.injEq, and_iff_left rfl]
    exact (and_iff_right (by omega)).symm

/-- **Each remainder comes from the same number of accepted values.** -/
theorem card_randBelow {limit : ℕ} (more : 2 ≤ limit) {r : ℕ} (below : r < limit) :
    {v : BitVec 64 | (randBelow limit).run [v] = some (r, [])}.ncard = UINT64_MAX / limit := by
  have numbers : BitVec.toNat '' {v : BitVec 64 | (randBelow limit).run [v] = some (r, [])} =
      ((Finset.range (limit * (UINT64_MAX / limit))).filter (· ≡ r [MOD limit]) : Finset ℕ) := by
    ext k
    simp only [Set.mem_image, Set.mem_ofPred_eq, randBelow_one more, Finset.coe_filter,
      Finset.mem_range, Nat.ModEq, Nat.mod_eq_of_lt below]
    constructor
    · rintro ⟨v, accepted, rfl⟩
      exact accepted
    · intro accepted
      have fits : k < 2 ^ 64 := by
        have bound := Nat.mul_div_le UINT64_MAX limit
        unfold UINT64_MAX at bound accepted
        omega
      refine ⟨BitVec.ofNat 64 k, ?_, ?_⟩
      · rw [BitVec.toNat_ofNat, Nat.mod_eq_of_lt fits]
        exact accepted
      · rw [BitVec.toNat_ofNat, Nat.mod_eq_of_lt fits]
  have positive : 0 < limit := by omega
  rw [← Set.ncard_image_of_injective _ BitVec.toNat_injective, numbers, Set.ncard_coe_finset,
    ← Nat.count_eq_card_filter_range, Nat.count_modEq_card _ positive, Nat.mul_mod_right,
    if_neg (Nat.not_lt_zero _), Nat.add_zero, Nat.mul_div_cancel_left _ positive]

/-- **The random source never degenerates, and `rand_below` is exact.** -/
theorem random_source_sound :
    (∀ hash64 initSeed steps,
      ((fun s => s.randNext.2)^[steps] (randSetSeed hash64 initSeed)).Alive) ∧
    Function.Bijective romuDuoJr ∧
    ∀ limit, 2 ≤ limit → limit < 2 ^ 32 →
      (∀ r < limit, {v : BitVec 64 | (randBelow limit).run [v] = some (r, [])}.ncard =
        UINT64_MAX / limit) ∧
      ∀ draws value rest, (randBelow limit).run draws = some (value, rest) → value < limit :=
  ⟨fun hash64 initSeed => (randSetSeed_alive hash64 initSeed).iterate, romuDuoJr_bijective,
    fun _ more _ => ⟨fun _ => card_randBelow more, fun _ _ _ => randBelow_lt (by omega)⟩⟩

/-- A die: as many values for the last face as for any other. -/
theorem random_source_die :
    {v : BitVec 64 | (randBelow 6).run [v] = some (5, [])}.ncard = UINT64_MAX / 6 :=
  (random_source_sound.2.2 6 (by decide) (by decide)).1 5 (by decide)

end GreenFuzz.AflFuzz
