import GreenFuzz.AflFuzz.DetStages

/-!
# What the bit flips run

Walking bits are numbered from the top of each byte, so they meet two bytes at the lowest
bit of one and the highest bit of the next. What they do to a byte is an exclusive or with
a mask (`walked_apply`).

A byte that differs by a pattern of `could_be_bitflip` has been run with the others left
alone (`flips_run_of_couldBeBitflip`), and only then (`couldBeBitflip_of_flips_run`). Two
bytes that both differ have been run by few flips only (`crossing_of_flips_run`).
-/

set_option autoImplicit false

namespace GreenFuzz.AflFuzz

open Library

/-! ## Masks -/

/-- What flipped bits do to a byte. -/
def flipMask : List ℕ → ℕ → Byte
  | [], _ => 0#8
  | b :: bits, k => (if b / 8 = k then 128#8 >>> (b % 8) else 0#8) ^^^ flipMask bits k

theorem foldl_flipBitIn_apply (bits : List ℕ) (buf : Buffer) (k : ℕ) :
    bits.foldl flipBitIn buf k = buf k ^^^ flipMask bits k := by
  induction bits generalizing buf with
  | nil => rw [List.foldl_nil, flipMask, BitVec.xor_zero]
  | cons b bits ih =>
      rw [List.foldl_cons, ih, flipMask, ← BitVec.xor_assoc, flipBitIn]
      congr 1
      split
      · rename_i here
        rw [here, Function.update_self]
      · rename_i elsewhere
        rw [Function.update_of_ne fun same => elsewhere same.symm, BitVec.xor_zero]

/-- Whole bytes shift the mask. -/
theorem flipMask_shift (m : ℕ) (bits : List ℕ) (d : ℕ) :
    flipMask (bits.map (8 * m + ·)) (m + d) = flipMask bits d := by
  induction bits with
  | nil => rfl
  | cons b bits ih =>
      have byte : (8 * m + b) / 8 = m + d ↔ b / 8 = d := by omega
      have bit : (8 * m + b) % 8 = b % 8 := by omega
      simp only [List.map_cons, flipMask, ih, byte, bit]

theorem flipMask_below {m k : ℕ} (bits : List ℕ) (before : k < m) :
    flipMask (bits.map (8 * m + ·)) k = 0#8 := by
  induction bits with
  | nil => rfl
  | cons b bits ih =>
      have elsewhere : ¬(8 * m + b) / 8 = k := by omega
      rw [List.map_cons, flipMask, if_neg elsewhere, ih, BitVec.xor_zero]

/-- Walking bits from bit `r` of byte `m` on, seen from that byte. -/
theorem walked_apply (buf : Buffer) (m r n d : ℕ) :
    (List.range' (8 * m + r) n).foldl flipBitIn buf (m + d) =
      buf (m + d) ^^^ flipMask (List.range' r n) d := by
  rw [foldl_flipBitIn_apply, ← List.map_add_range', flipMask_shift]

theorem walked_below (buf : Buffer) {m k : ℕ} (r n : ℕ) (before : k < m) :
    (List.range' (8 * m + r) n).foldl flipBitIn buf k = buf k := by
  rw [foldl_flipBitIn_apply, ← List.map_add_range', flipMask_below _ before, BitVec.xor_zero]

/-- The masks of the walking bits: the first byte changes, the second one exactly if the bits
reach it, and no third one does. -/
theorem flipMask_cases : ∀ n ∈ [1, 2, 4], ∀ r < 8,
    flipMask (List.range' r n) 0 ≠ 0 ∧
      (flipMask (List.range' r n) 1 = 0 ↔ r + n ≤ 8) ∧
      (r + n ≤ 8 → couldBeBitflip ((flipMask (List.range' r n) 0).setWidth 32) = true) := by
  decide

theorem flipMask_crossing : ∀ n ∈ [1, 2, 4], ∀ r < 8, flipMask (List.range' r n) 1 ≠ 0 →
    (flipMask (List.range' r n) 0, flipMask (List.range' r n) 1) ∈
      [(0x01#8, 0x80#8), (0x07#8, 0x80#8), (0x03#8, 0xc0#8), (0x01#8, 0xe0#8),
        (0xff#8, 0xff#8)] := by
  decide

theorem flipMask_behind {r n k : ℕ} (inside : r + n ≤ 8) (behind : 0 < k) :
    flipMask (List.range' r n) k = 0#8 := by
  induction n generalizing r with
  | zero => rfl
  | succ n ih =>
      have elsewhere : ¬r / 8 = k := by omega
      rw [List.range'_succ, flipMask, if_neg elsewhere, ih (by omega), BitVec.xor_zero]

/-- The patterns of a byte: nothing, walking bits inside it, or all bits. -/
theorem couldBeBitflip_byte : ∀ mask : Byte, couldBeBitflip (mask.setWidth 32) = true →
    mask = 0 ∨ mask = 0xff ∨
      ∃ n ∈ [1, 2, 4], ∃ r < 8, r + n ≤ 8 ∧ mask = flipMask (List.range' r n) 0 := by
  decide +kernel

namespace DetPass

variable {D : DetPass}

/-! ## What is run -/

theorem mem_walkingBits {n : ℕ} {buf : Buffer} (positive : 0 < n) :
    .executed buf ∈ D.walkingBits n ↔ ∃ m, ∃ r < 8, 8 * m + r + n ≤ 8 * D.len ∧
      buf = (List.range' (8 * m + r) n).foldl flipBitIn D.outBuf := by
  simp only [walkingBits, List.mem_map, List.mem_range, Trial.executed.injEq]
  constructor
  · rintro ⟨b, below, rfl⟩
    refine ⟨b / 8, b % 8, Nat.mod_lt _ (by decide), by omega, ?_⟩
    rw [Nat.div_add_mod]
  · rintro ⟨m, r, inByte, within, rfl⟩
    exact ⟨8 * m + r, by omega, rfl⟩

theorem mem_walkingByte {buf : Buffer} :
    .executed buf ∈ D.walkingByte ↔
      ∃ i < D.len, buf = Function.update D.outBuf i (D.outBuf i ^^^ 0xff) := by
  simp only [walkingByte, List.mem_map, List.mem_range, Trial.executed.injEq, eq_comm]

theorem mem_walkingBytes {n : ℕ} {buf : Buffer} (ran : .executed buf ∈ D.walkingBytes n) :
    ∃ i, buf = storeAt n D.outBuf i (loadAt n D.outBuf i ^^^ BitVec.allOnes (8 * n)) := by
  rw [walkingBytes] at ran
  split at ran
  · cases ran
  · obtain ⟨i, -, same⟩ := List.mem_map.mp ran
    cases same
    exact ⟨i, rfl⟩

/-- The flips that are run. -/
theorem mem_bitflips {buf : Buffer} (ran : .executed buf ∈ D.bitflips) :
    buf = D.outBuf ∨
      (∃ n ∈ [1, 2, 4], ∃ m, ∃ r < 8,
        buf = (List.range' (8 * m + r) n).foldl flipBitIn D.outBuf) ∨
      (∃ i, buf = Function.update D.outBuf i (D.outBuf i ^^^ 0xff)) ∨
      ∃ n ∈ [2, 4], ∃ i,
        buf = storeAt n D.outBuf i (loadAt n D.outBuf i ^^^ BitVec.allOnes (8 * n)) := by
  simp only [bitflips, List.mem_cons, List.mem_append, Trial.executed.injEq] at ran
  rcases ran with same | (((((ran | ran) | ran) | ran) | ran) | ran)
  · exact .inl same
  · obtain ⟨m, r, inByte, -, same⟩ := (mem_walkingBits (by decide)).mp ran
    exact .inr (.inl ⟨1, by decide, m, r, inByte, same⟩)
  · obtain ⟨m, r, inByte, -, same⟩ := (mem_walkingBits (by decide)).mp ran
    exact .inr (.inl ⟨2, by decide, m, r, inByte, same⟩)
  · obtain ⟨m, r, inByte, -, same⟩ := (mem_walkingBits (by decide)).mp ran
    exact .inr (.inl ⟨4, by decide, m, r, inByte, same⟩)
  · obtain ⟨i, -, same⟩ := mem_walkingByte.mp ran
    exact .inr (.inr (.inl ⟨i, same⟩))
  · exact .inr (.inr (.inr ⟨2, by decide, mem_walkingBytes ran⟩))
  · exact .inr (.inr (.inr ⟨4, by decide, mem_walkingBytes ran⟩))

theorem xor_of_eq {w : ℕ} {x y mask : BitVec w} (same : x = y ^^^ mask) : y ^^^ x = mask := by
  rw [same, ← BitVec.xor_assoc, BitVec.xor_self, BitVec.zero_xor]

theorem eq_of_xor {w : ℕ} {x y mask : BitVec w} (differs : y ^^^ x = mask) : x = y ^^^ mask := by
  rw [← differs, ← BitVec.xor_assoc, BitVec.xor_self, BitVec.zero_xor]

/-- A byte of a word whose bits are all flipped. -/
theorem flippedWord_apply {n i k : ℕ} (below : k < n) :
    storeAt n D.outBuf i (loadAt n D.outBuf i ^^^ BitVec.allOnes (8 * n)) (i + k) =
      D.outBuf (i + k) ^^^ 0xff#8 := by
  rw [storeAt_inside _ _ _ below, BitVec.xor_allOnes, byteOf_not _ below, byteOf_loadAt _ _ below]
  exact BitVec.xor_allOnes.symm

/-- A byte that differs by a pattern has been run. -/
theorem flips_run_of_couldBeBitflip {i : ℕ} (inside : i < D.len) {value : Byte}
    (pattern : couldBeBitflip ((D.outBuf i ^^^ value).setWidth 32) = true) :
    .executed (Function.update D.outBuf i value) ∈ D.bitflips := by
  rcases couldBeBitflip_byte _ pattern with none_differs | all | ⟨n, walks, r, inByte, within, mask⟩
  · have same : value = D.outBuf i := (BitVec.xor_eq_zero_iff.mp none_differs).symm
    rw [same, Function.update_eq_self]
    exact List.mem_cons_self
  · refine List.mem_cons_of_mem _ (List.mem_append_left _ (List.mem_append_left _
      (List.mem_append_right _ (mem_walkingByte.mpr ⟨i, inside, ?_⟩))))
    rw [eq_of_xor all]
  · have walked : Function.update D.outBuf i value =
        (List.range' (8 * i + r) n).foldl flipBitIn D.outBuf := by
      funext k
      rcases Nat.lt_trichotomy k i with before | here | behind
      · rw [walked_below _ _ _ before, Function.update_of_ne before.ne]
      · rw [here, Function.update_self, eq_of_xor mask]
        exact (walked_apply D.outBuf i r n 0).symm
      · obtain ⟨d, rfl⟩ := Nat.exists_eq_add_of_lt behind
        rw [Function.update_of_ne behind.ne', Nat.add_assoc, walked_apply,
          flipMask_behind within (Nat.succ_pos d), BitVec.xor_zero]
    simp only [List.mem_cons, List.not_mem_nil, or_false] at walks
    have run : .executed (Function.update D.outBuf i value) ∈ D.walkingBits n :=
      (mem_walkingBits (by omega)).mpr ⟨i, r, inByte, by omega, walked⟩
    simp only [bitflips, List.mem_cons, List.mem_append]
    rcases walks with rfl | rfl | rfl
    · exact .inr (.inl (.inl (.inl (.inl (.inl run)))))
    · exact .inr (.inl (.inl (.inl (.inl (.inr run)))))
    · exact .inr (.inl (.inl (.inl (.inr run))))

/-- A byte that has been run, with the others left alone, differs by a pattern. -/
theorem couldBeBitflip_of_flips_run {i : ℕ} {value : Byte}
    (ran : .executed (Function.update D.outBuf i value) ∈ D.bitflips) :
    couldBeBitflip ((D.outBuf i ^^^ value).setWidth 32) = true := by
  have elsewhere : ∀ {k : ℕ} {mask : Byte}, mask ≠ 0 →
      Function.update D.outBuf i value k = D.outBuf k ^^^ mask → k = i := by
    intro k mask changes same
    by_contra other
    rw [Function.update_of_ne other] at same
    exact changes ((xor_of_eq same).symm.trans BitVec.xor_self)
  rcases mem_bitflips ran with
    same | ⟨n, walks, m, r, inByte, same⟩ | ⟨j, same⟩ | ⟨n, size, j, same⟩
  · have value_same := congrFun same i
    rw [Function.update_self] at value_same
    rw [value_same, BitVec.xor_self]
    rfl
  · obtain ⟨changes, reaches, pattern⟩ := flipMask_cases n walks r inByte
    have here := (congrFun same (m + 0)).trans (walked_apply D.outBuf m r n 0)
    have next := (congrFun same (m + 1)).trans (walked_apply D.outBuf m r n 1)
    obtain rfl : m = i := elsewhere changes here
    rw [Function.update_of_ne (Nat.succ_ne_self m)] at next
    have inside := reaches.mp ((xor_of_eq next).symm.trans BitVec.xor_self)
    rw [Nat.add_zero, Function.update_self] at here
    rw [xor_of_eq here]
    exact pattern inside
  · have here := congrFun same j
    rw [Function.update_self] at here
    obtain rfl : j = i := elsewhere (by decide) here
    rw [Function.update_self] at here
    rw [xor_of_eq here]
    decide
  · have two : 1 < n := by
      simp only [List.mem_cons, List.not_mem_nil, or_false] at size
      omega
    have here := (congrFun same (j + 0)).trans (flippedWord_apply (by omega))
    have next := (congrFun same (j + 1)).trans (flippedWord_apply two)
    have first := elsewhere (by decide) here
    have second := elsewhere (by decide) next
    omega

/-- How the first two bytes differ where flips change both and leave the third one alone. -/
theorem crossing_of_flips_run {buf : Buffer} (first : buf 0 ≠ D.outBuf 0)
    (second : buf 1 ≠ D.outBuf 1) (third : buf 2 = D.outBuf 2)
    (ran : .executed buf ∈ D.bitflips) :
    (D.outBuf 0 ^^^ buf 0, D.outBuf 1 ^^^ buf 1) ∈
      [(0x01#8, 0x80#8), (0x07#8, 0x80#8), (0x03#8, 0xc0#8), (0x01#8, 0xe0#8),
        (0xff#8, 0xff#8)] := by
  rcases mem_bitflips ran with
    same | ⟨n, walks, m, r, inByte, same⟩ | ⟨j, same⟩ | ⟨n, size, j, same⟩
  · exact absurd (congrFun same 0) first
  · obtain rfl : m = 0 := by
      by_contra later
      exact first ((congrFun same 0).trans (walked_below _ _ _ (Nat.pos_of_ne_zero later)))
    have here := (congrFun same 0).trans (walked_apply D.outBuf 0 r n 0)
    have next := (congrFun same 1).trans (walked_apply D.outBuf 0 r n 1)
    rw [xor_of_eq here, xor_of_eq next]
    refine flipMask_crossing n walks r inByte fun stays => second ?_
    rw [next, stays]
    exact BitVec.xor_zero
  · have only : ∀ k, buf k ≠ D.outBuf k → k = j := by
      intro k changes
      by_contra other
      exact changes ((congrFun same k).trans (Function.update_of_ne other _ _))
    exact absurd ((only 0 first).trans (only 1 second).symm) (by decide)
  · have start : j = 0 := by
      by_contra later
      exact first ((congrFun same 0).trans
        (storeAt_outside _ _ _ (.inl (Nat.pos_of_ne_zero later))))
    subst start
    simp only [List.mem_cons, List.not_mem_nil, or_false] at size
    rcases size with rfl | rfl
    · have here := (congrFun same 0).trans (flippedWord_apply (k := 0) (by decide))
      have next := (congrFun same 1).trans (flippedWord_apply (k := 1) (by decide))
      rw [xor_of_eq here, xor_of_eq next]
      decide
    · have behind := (congrFun same 2).trans (flippedWord_apply (k := 2) (by decide))
      have mask := xor_of_eq behind
      rw [third, BitVec.xor_self] at mask
      exact absurd mask (by decide)

end DetPass

end GreenFuzz.AflFuzz
