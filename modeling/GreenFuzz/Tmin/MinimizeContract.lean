import GreenFuzz.Tmin.Minimize
import GreenFuzz.Library.Inevitable
import Mathlib.Data.Prod.Lex

/-!
# The contract of the minimisation loop

The oracle is any predicate on inputs. `tminRunTarget` is one once the dry run has
set its modes, and accepts the input of the dry run (`tminRunTarget_again`).

**`minimize` comes to an end; between any two rounds it holds an input that was
accepted and is no longer than the original; and at the end no single byte can be
deleted** (`minimize_contract`).

It ends because every change lowers the number of bytes plus the number of bytes
that are not the character `0`, and a further pass needs a change. The last
deletion stage changed nothing, so each of its blocks of one byte was rejected. It
skips a byte that equals the one before, but deleting either gives the same input
(`eraseIdx_of_equal`), and that one was rejected.
-/

set_option autoImplicit false

namespace GreenFuzz.Tmin

open Library

/-! ## Arithmetic -/

/-- No block is longer: the first block lengths are powers of two below it. -/
def blockLimit : ℕ := 1048576

theorem u32_of_lt {n : ℕ} (small : n < 4294967296) : u32 n = n := Nat.mod_eq_of_lt small

theorem shift_or_lt (n : BitVec 64) (k : ℕ) (small : n.toNat < blockLimit) :
    (n ||| (n >>> k)).toNat < blockLimit := by
  have shifted : (n >>> k).toNat < blockLimit := by
    rw [BitVec.toNat_ushiftRight]
    exact Nat.lt_of_le_of_lt (Nat.shiftRight_le _ _) small
  rw [BitVec.toNat_or]
  exact Nat.or_lt_two_pow (n := 20) small shifted

/-- The next power of two of a number below the limit is below it as well. -/
theorem nextPow2_le {n : BitVec 64} (small : n.toNat ≤ blockLimit) :
    (nextPow2 n).toNat ≤ blockLimit := by
  by_cases zero : n = 0
  · rw [zero]
    decide
  · have positive : 0 < n.toNat := by
      rcases Nat.eq_zero_or_pos n.toNat with none | positive
      · exact absurd (BitVec.eq_of_toNat_eq none) zero
      · exact positive
    have below : (n - 1).toNat < blockLimit := by
      simp only [blockLimit] at small ⊢
      bv_omega
    have filled := shift_or_lt _ 16 (shift_or_lt _ 8 (shift_or_lt _ 4 (shift_or_lt _ 2
      (shift_or_lt _ 1 below))))
    have succ : ∀ out : BitVec 64, out.toNat < blockLimit → (out + 1).toNat ≤ blockLimit := by
      intro out inside
      simp only [blockLimit] at inside ⊢
      bv_omega
    exact succ _ filled

/-- The length of a first block. -/
theorem firstBlock_le {len : ℕ} (steps : ℕ) (fits : len < TMIN_MAX_FILE) (coarse : 10 ≤ steps) :
    u32 (nextPow2 (BitVec.ofNat 64 (len / steps))).toNat ≤ blockLimit := by
  have quotient : len / steps ≤ blockLimit := by
    have capped : len / steps ≤ len / 10 := Nat.div_le_div_left coarse (by decide)
    simp only [TMIN_MAX_FILE] at fits
    simp only [blockLimit]
    omega
  have small : (BitVec.ofNat 64 (len / steps)).toNat ≤ blockLimit :=
    Nat.le_trans (Nat.mod_le _ _) quotient
  exact Nat.le_trans (Nat.mod_le _ _) (nextPow2_le small)

theorem toNat_s32 {n m : ℕ} (small : n < 2147483648) (small' : m < 2147483648) :
    (s32 ((n : ℤ) - m)).toNat = n - m := by
  have unchanged : s32 ((n : ℤ) - m) = (n : ℤ) - m := by
    simp only [s32]
    apply Int.bmod_eq_of_le <;> omega
  rw [unchanged]
  omega

/-! ## What the changes do to an input -/

/-- Deleting a byte gives an input that is rejected, for every byte. -/
def OneMinimal (accepts : List Byte → Bool) (data : List Byte) : Prop :=
  ∀ k < data.length, accepts (data.eraseIdx k) = false

/-- The length, and once more for every byte that is not the character `0`. -/
def weight (data : List Byte) : ℕ := data.length + data.countP (· != ZERO)

theorem length_setZeros {data : List Byte} {pos len : ℕ} (inside : pos + len ≤ data.length) :
    (setZeros data pos len).length = data.length := by
  simp only [setZeros, List.length_append, List.length_take, List.length_replicate,
    List.length_drop]
  omega

theorem weight_setZeros_le {data : List Byte} {pos len : ℕ} (inside : pos + len ≤ data.length) :
    weight (setZeros data pos len) ≤ weight data := by
  have split : data = data.take pos ++ ((data.drop pos).take len ++ data.drop (pos + len)) := by
    rw [← List.drop_drop, List.take_append_drop, List.take_append_drop]
  have zeros : (List.replicate len ZERO).countP (· != ZERO) = 0 := by
    rw [List.countP_replicate]
    rfl
  have parts := congrArg (List.countP (· != ZERO)) split
  rw [weight, weight, length_setZeros inside]
  simp only [setZeros, List.countP_append, zeros] at parts ⊢
  omega

/-- The input without a block. -/
def deleteBlock (data : List Byte) (pos len : ℕ) : List Byte :=
  data.take pos ++ (data.drop (pos + len)).take (data.length - pos - len)

theorem deleteBlock_eq (data : List Byte) (pos len : ℕ) :
    deleteBlock data pos len = data.take pos ++ data.drop (pos + len) := by
  have whole : (data.drop (pos + len)).length ≤ data.length - pos - len := by
    rw [List.length_drop]
    omega
  rw [deleteBlock, List.take_of_length_le whole]

theorem deleteBlock_one (data : List Byte) (pos : ℕ) :
    deleteBlock data pos 1 = data.eraseIdx pos := by
  rw [deleteBlock_eq, List.eraseIdx_eq_take_drop_succ]

theorem length_deleteBlock_lt {data : List Byte} {pos len : ℕ} (positive : 1 ≤ len)
    (inside : pos < data.length) : (deleteBlock data pos len).length < data.length := by
  rw [deleteBlock_eq, List.length_append, List.length_take, List.length_drop]
  omega

theorem weight_deleteBlock_lt {data : List Byte} {pos len : ℕ} (positive : 1 ≤ len)
    (inside : pos < data.length) : weight (deleteBlock data pos len) < weight data := by
  have sub : (deleteBlock data pos len).Sublist data := by
    have tail : ((data.drop pos).drop len).Sublist (data.drop pos) := List.drop_sublist _ _
    have joined := tail.append_left (data.take pos)
    rw [List.take_append_drop] at joined
    rwa [deleteBlock_eq, ← List.drop_drop]
  have shorter := length_deleteBlock_lt positive inside
  have lighter := sub.countP_le (p := (· != ZERO))
  simp only [weight]
  omega

/-- The input with one byte value replaced by the character `0`. -/
def replaceSymbol (data : List Byte) (symbol : Byte) : List Byte :=
  data.map fun byte => if byte = symbol then ZERO else byte

theorem weight_replaceSymbol_lt {data : List Byte} {symbol : Byte} (present : symbol ∈ data)
    (other : symbol ≠ ZERO) : weight (replaceSymbol data symbol) < weight data := by
  obtain ⟨before, after, rfl⟩ := List.append_of_mem present
  have lighter : ∀ part : List Byte,
      (replaceSymbol part symbol).countP (· != ZERO) ≤ part.countP (· != ZERO) := by
    intro part
    rw [replaceSymbol, List.countP_map]
    apply List.countP_mono_left
    intro byte _ kept
    simp only [Function.comp_apply] at kept
    split at kept
    · exact absurd kept (by decide)
    · exact kept
  have front := lighter before
  have back := lighter after
  have counted : (symbol != ZERO) = true := bne_iff_ne.mpr other
  have same : (replaceSymbol (before ++ symbol :: after) symbol).length =
      (before ++ symbol :: after).length := List.length_map _
  have replaced : replaceSymbol (before ++ symbol :: after) symbol =
      replaceSymbol before symbol ++ ZERO :: replaceSymbol after symbol := by
    simp only [replaceSymbol, List.map_append, List.map_cons, if_true]
  rw [weight, weight, same, replaced]
  simp only [List.countP_append, List.countP_cons, counted, bne_self_eq_false, if_true,
    Bool.false_eq_true, if_false]
  omega

theorem weight_set_lt {data : List Byte} {i : ℕ} (inside : i < data.length)
    (other : data.getD i 0 ≠ ZERO) : weight (data.set i ZERO) < weight data := by
  have found : data.getD i 0 = data[i] := (List.getElem_eq_getD 0).symm
  have counted : (data[i] != ZERO) = true := bne_iff_ne.mpr (found ▸ other)
  have split : data = data.take i ++ data[i] :: data.drop (i + 1) := by
    rw [List.getElem_cons_drop, List.take_append_drop]
  have parts := congrArg (List.countP (· != ZERO)) split
  rw [weight, weight, List.length_set, List.set_eq_take_append_cons_drop, if_pos inside]
  simp only [List.countP_append, List.countP_cons, counted, bne_self_eq_false, if_true,
    Bool.false_eq_true, if_false] at parts ⊢
  omega

/-! ## The invariant -/

/-- What each stage knows. Until something changes in a pass, its deletion stage records
which bytes cannot be deleted. -/
def StageKept (accepts : List Byte → Bool) (s : MinimizeState) : Prop :=
  match s.stage with
  | .normalize setLen _ => 1 ≤ setLen ∧ setLen ≤ blockLimit
  | .delete delLen delPos prevDel =>
      1 ≤ delLen ∧ delLen ≤ blockLimit ∧
      (prevDel = false → delLen ≤ delPos) ∧
      (delLen = 1 → s.changedAny = false → ∀ k < delPos, k < s.inLen →
        accepts (s.inData.eraseIdx k) = false)
  | .alphabet alphaMap i =>
      (∀ symbol : Byte, i ≤ symbol.toNat → symbol ≠ ZERO → alphaMap symbol ≠ 0 →
        symbol ∈ s.inData) ∧
      (s.changedAny = false → OneMinimal accepts s.inData)
  | .character tmpBuf _ =>
      tmpBuf = s.inData ∧ (s.changedAny = false → OneMinimal accepts s.inData)
  | .finalizeAll => OneMinimal accepts s.inData

/-- The input is accepted and no longer than the original. -/
structure Sound (accepts : List Byte → Bool) (input data : List Byte) : Prop where
  accepted : accepts data = true
  shorter : data.length ≤ input.length
  fits : data.length < TMIN_MAX_FILE

/-- The invariant of `minimize`. -/
structure Kept (accepts : List Byte → Bool) (input : List Byte) (s : MinimizeState) : Prop where
  sound : Sound accepts input s.inData
  stage : StageKept accepts s

/-- An input that is accepted and no longer takes the place of a sound one. -/
theorem Sound.accept {accepts : List Byte → Bool} {input data shorter : List Byte}
    (sound : Sound accepts input data) (accepted : accepts shorter = true)
    (length_le : shorter.length ≤ data.length) : Sound accepts input shorter :=
  ⟨accepted, Nat.le_trans length_le sound.shorter, Nat.lt_of_le_of_lt length_le sound.fits⟩

/-! ## The measure -/

/-- The stages of a pass, counted backwards. -/
def rank : Stage → ℕ
  | .normalize _ _ => 4
  | .delete _ _ _ => 3
  | .alphabet _ _ => 2
  | .character _ _ => 1
  | .finalizeAll => 0

/-- What is left of a stage. -/
def roundsLeft (s : MinimizeState) : ℕ ×ₗ ℕ :=
  match s.stage with
  | .normalize _ setPos => toLex (0, s.inLen - setPos)
  | .delete delLen delPos _ => toLex (delLen, s.inLen - delPos)
  | .alphabet _ i => toLex (0, 256 - i)
  | .character _ i => toLex (0, s.inLen - i)
  | .finalizeAll => toLex (0, 0)

/-- A change lowers the weight by one at least, and allows one more pass. -/
def budget (s : MinimizeState) : ℕ := 2 * weight s.inData + s.changedAny.toNat

/-- The measure that every step lowers. -/
def measure (s : MinimizeState) : ℕ ×ₗ ℕ ×ₗ ℕ ×ₗ ℕ :=
  toLex (budget s, toLex (rank s.stage, roundsLeft s))

theorem measure_lt_of_budget {s t : MinimizeState} (lower : budget t < budget s) :
    measure t < measure s :=
  Prod.Lex.toLex_lt_toLex.mpr (.inl lower)

theorem measure_lt_of_rank {s t : MinimizeState} (same : budget t ≤ budget s)
    (lower : rank t.stage < rank s.stage) : measure t < measure s := by
  rcases Nat.lt_or_eq_of_le same with less | equal
  · exact measure_lt_of_budget less
  · exact Prod.Lex.toLex_lt_toLex.mpr
      (.inr ⟨equal, Prod.Lex.toLex_lt_toLex.mpr (.inl lower)⟩)

theorem measure_lt_of_rounds {s t : MinimizeState} (same : budget t ≤ budget s)
    (stage : rank t.stage = rank s.stage) (lower : roundsLeft t < roundsLeft s) :
    measure t < measure s := by
  rcases Nat.lt_or_eq_of_le same with less | equal
  · exact measure_lt_of_budget less
  · exact Prod.Lex.toLex_lt_toLex.mpr
      (.inr ⟨equal, Prod.Lex.toLex_lt_toLex.mpr (.inr ⟨stage, lower⟩)⟩)

/-- A change of the input that lowers its weight. -/
theorem budget_lt_of_changed {s t : MinimizeState} (lighter : weight t.inData < weight s.inData) :
    budget t < budget s := by
  have flag : t.changedAny.toNat ≤ 1 := Bool.toNat_le _
  simp only [budget]
  omega

/-! ## One step -/

variable {accepts : List Byte → Bool} {input : List Byte} {s : MinimizeState}

/-- A new block length starts at the front of the input. -/
theorem kept_nextDelBlksize (sound : Sound accepts input s.inData) {delLen : ℕ}
    (small : delLen ≤ blockLimit) : Kept accepts input (s.nextDelBlksize delLen) := by
  refine ⟨sound, ?_⟩
  simp only [StageKept, MinimizeState.nextDelBlksize]
  refine ⟨?_, ?_, nofun, fun _ _ k past => ?_⟩
  · split <;> omega
  · split
    · decide
    · exact small
  · exact absurd past (Nat.not_lt_zero k)

theorem kept_nextPass (sound : Sound accepts input s.inData) : Kept accepts input s.nextPass :=
  kept_nextDelBlksize (s := { s with curPass := s.curPass + 1, changedAny := false }) sound
    (firstBlock_le _ sound.fits (by decide))

/-- One block of the normalization keeps the invariant. -/
theorem kept_normalizeStep (sound : Sound accepts input s.inData) {setLen setPos : ℕ}
    (positive : 1 ≤ setLen) (small : setLen ≤ blockLimit) :
    Kept accepts input (normalizeStep accepts s setLen setPos) := by
  simp only [normalizeStep]
  split
  · rename_i before
    have fitting : setPos + min setLen (s.inLen - setPos) ≤ s.inData.length := by
      simp only [MinimizeState.inLen] at before ⊢
      omega
    split
    · exact ⟨sound, positive, small⟩
    · split
      · rename_i accepted
        exact ⟨sound.accept accepted (length_setZeros fitting).le, positive, small⟩
      · exact ⟨sound, positive, small⟩
  · exact kept_nextPass sound

/-- Deleting either of two equal neighbours gives the same input. -/
theorem eraseIdx_of_equal {data : List Byte} {k : ℕ}
    (equal : (data.drop k).take 1 = (data.drop (k + 1)).take 1) :
    data.eraseIdx (k + 1) = data.eraseIdx k := by
  have front : data.take (k + 1) = data.take k ++ (data.drop k).take 1 := List.take_add
  have back : data.drop (k + 1) = (data.drop (k + 1)).take 1 ++ data.drop (k + 1 + 1) := by
    have split := List.take_append_drop 1 (data.drop (k + 1))
    rw [List.drop_drop] at split
    exact split.symm
  rw [List.eraseIdx_eq_take_drop_succ, List.eraseIdx_eq_take_drop_succ, front, equal,
    List.append_assoc, ← back]

/-- The length of the tail behind a block, computed in 32 bits. -/
theorem tailLen_eq (sound : Sound accepts input s.inData) {delLen delPos : ℕ}
    (small : delLen ≤ blockLimit) (before : delPos < s.inLen) :
    (s32 ((s.inLen : ℤ) - delPos - delLen)).toNat = s.inLen - delPos - delLen := by
  have fits := sound.fits
  simp only [TMIN_MAX_FILE, blockLimit, MinimizeState.inLen] at fits small before ⊢
  have merged : (s.inData.length : ℤ) - delPos - delLen =
      (s.inData.length : ℤ) - ((delPos + delLen : ℕ) : ℤ) := by
    push_cast
    omega
  rw [merged, toNat_s32 (by omega) (by omega)]
  omega

/-- One block of the deletion keeps the invariant. Skipping a byte that equals the one before
is sound because deleting that one was rejected. -/
theorem kept_deleteStep (kept : Kept accepts input s) {delLen delPos : ℕ} {prevDel : Bool}
    (stage : s.stage = .delete delLen delPos prevDel) :
    Kept accepts input (deleteStep accepts s delLen delPos prevDel) := by
  obtain ⟨sound, known⟩ := kept
  simp only [StageKept, stage] at known
  obtain ⟨positive, small, behind, tried⟩ := known
  have fits := sound.fits
  simp only [deleteStep]
  by_cases before : delPos < s.inLen
  · have next : u32 (delPos + delLen) = delPos + delLen := by
      simp only [TMIN_MAX_FILE, blockLimit, MinimizeState.inLen] at fits small before
      exact u32_of_lt (by omega)
    rw [if_pos before, next, tailLen_eq sound small before]
    split
    · rename_i skipped
      obtain ⟨undeleted, -, equal⟩ := skipped
      have behind := behind (Bool.eq_false_of_not_eq_true undeleted)
      refine ⟨sound, positive, small, fun _ => Nat.le_add_left _ _,
        fun one unchanged k past here => ?_⟩
      subst one
      rcases Nat.lt_or_eq_of_le (Nat.lt_succ_iff.mp past) with earlier | now
      · exact tried rfl unchanged k earlier here
      · obtain ⟨previous, rfl⟩ : ∃ j, delPos = j + 1 := ⟨delPos - 1, by omega⟩
        have same := eraseIdx_of_equal (k := previous) equal
        subst now
        rw [same]
        exact tried rfl unchanged previous (Nat.lt_succ_self _) (by omega)
    · split
      · rename_i accepted
        have shorter := length_deleteBlock_lt positive before
        refine ⟨sound.accept accepted shorter.le, positive, small, nofun, nofun⟩
      · rename_i rejected
        refine ⟨sound, positive, small, fun _ => Nat.le_add_left _ _,
        fun one unchanged k past here => ?_⟩
        subst one
        rcases Nat.lt_or_eq_of_le (Nat.lt_succ_iff.mp past) with earlier | now
        · exact tried rfl unchanged k earlier here
        · rw [now, ← deleteBlock_one]
          exact Bool.eq_false_of_not_eq_true rejected
  · rw [if_neg before]
    have minimal : delLen = 1 → s.changedAny = false → OneMinimal accepts s.inData :=
      fun one unchanged k inside => tried one unchanged k (by
        simp only [MinimizeState.inLen] at before
        omega) inside
    split
    · exact kept_nextDelBlksize sound (Nat.le_trans (Nat.div_le_self _ _) small)
    · rename_i last
      have settled : s.changedAny = false → OneMinimal accepts s.inData := by
        intro unchanged
        by_cases one : delLen = 1
        · exact minimal one unchanged
        · intro k inside
          simp only [delLenLimit, MinimizeState.inLen] at last
          omega
      split
      · rename_i final
        exact ⟨sound, settled (by simpa using final.2)⟩
      · refine ⟨sound, fun symbol _ _ counted => ?_, settled⟩
        exact List.count_pos_iff.mp (Nat.pos_of_ne_zero counted)

/-- One byte value keeps the invariant: it can only be replaced if it is there. -/
theorem kept_alphabetStep (kept : Kept accepts input s) {alphaMap : Byte → ℕ} {i : ℕ}
    (stage : s.stage = .alphabet alphaMap i) :
    Kept accepts input (alphabetStep accepts s alphaMap i) := by
  obtain ⟨sound, known⟩ := kept
  simp only [StageKept, stage] at known
  obtain ⟨mapped, settled⟩ := known
  have later : ∀ symbol : Byte, i + 1 ≤ symbol.toNat → symbol ≠ ZERO → alphaMap symbol ≠ 0 →
      symbol ∈ s.inData := fun symbol past => mapped symbol (Nat.le_of_succ_le past)
  simp only [alphabetStep]
  split
  · rename_i inAlphabet
    split
    · exact ⟨sound, later, settled⟩
    · split
      · rename_i accepted
        refine ⟨sound.accept accepted (List.length_map _).le, ?_, nofun⟩
        intro symbol past other counted
        refine List.mem_map.mpr ⟨symbol, later symbol past other counted, if_neg ?_⟩
        rintro rfl
        rw [BitVec.toNat_ofNat, Nat.mod_eq_of_lt inAlphabet] at past
        omega
      · exact ⟨sound, later, settled⟩
  · exact ⟨sound, rfl, settled⟩

/-- One character keeps the invariant: `tmp_buf` is `in_data` between two rounds. -/
theorem kept_characterStep (kept : Kept accepts input s) {tmpBuf : List Byte} {i : ℕ}
    (stage : s.stage = .character tmpBuf i) :
    Kept accepts input (characterStep accepts s tmpBuf i) := by
  obtain ⟨sound, known⟩ := kept
  simp only [StageKept, stage] at known
  obtain ⟨rfl, settled⟩ := known
  simp only [characterStep]
  split
  · rename_i inside
    split
    · exact ⟨sound, rfl, settled⟩
    · split
      · rename_i accepted
        exact ⟨sound.accept accepted List.length_set.le, rfl, nofun⟩
      · have restored : (s.inData.set i ZERO).set i (s.inData.getD i 0) = s.inData := by
          have inside' : i < s.inData.length := inside
          have found : s.inData.getD i 0 = s.inData[i] := (List.getElem_eq_getD 0).symm
          rw [List.set_set, found, List.set_getElem_self]
        exact ⟨sound, restored, settled⟩
  · split
    · exact kept_nextPass sound
    · rename_i unchanged
      exact ⟨sound, settled (Bool.eq_false_of_not_eq_true unchanged)⟩

/-- **One step keeps the invariant.** -/
theorem Kept.step (kept : Kept accepts input s) {t : MinimizeState}
    (taken : minimizeStep accepts s = some t) : Kept accepts input t := by
  simp only [minimizeStep] at taken
  cases stage : s.stage with
  | normalize setLen setPos =>
      have known := kept.stage
      simp only [StageKept, stage] at known taken
      injection taken with same
      rw [← same]
      exact kept_normalizeStep kept.sound known.1 known.2
  | delete delLen delPos prevDel =>
      simp only [stage] at taken
      injection taken with same
      rw [← same]
      exact kept_deleteStep kept stage
  | alphabet alphaMap i =>
      simp only [stage] at taken
      injection taken with same
      rw [← same]
      exact kept_alphabetStep kept stage
  | character tmpBuf i =>
      simp only [stage] at taken
      injection taken with same
      rw [← same]
      exact kept_characterStep kept stage
  | finalizeAll =>
      simp only [stage] at taken
      cases taken

/-! ## Every step lowers the measure -/

theorem budget_nextPass (s : MinimizeState) : budget s.nextPass = 2 * weight s.inData := rfl

/-- Rounds that go on in one stage, with a counter that runs down. -/
theorem toLex_lt_of_counter {first count count' : ℕ} (lower : count' < count) :
    toLex (first, count') < toLex (first, count) :=
  Prod.Lex.toLex_lt_toLex.mpr (.inr ⟨rfl, lower⟩)

theorem normalizeStep_lowers {setLen setPos : ℕ} (stage : s.stage = .normalize setLen setPos)
    (sound : Sound accepts input s.inData) (positive : 1 ≤ setLen) (small : setLen ≤ blockLimit) :
    measure (normalizeStep accepts s setLen setPos) < measure s := by
  have fits := sound.fits
  simp only [normalizeStep]
  split
  · rename_i before
    simp only [TMIN_MAX_FILE, blockLimit, MinimizeState.inLen] at fits small before
    have next : u32 (setPos + setLen) = setPos + setLen := u32_of_lt (by omega)
    have fitting : setPos + min setLen (s.inLen - setPos) ≤ s.inData.length := by
      simp only [MinimizeState.inLen]
      omega
    have lower : ∀ t : MinimizeState, t.inData.length = s.inData.length →
        t.changedAny = s.changedAny → weight t.inData ≤ weight s.inData →
        t.stage = .normalize setLen (u32 (setPos + setLen)) → measure t < measure s := by
      intro t sameLength sameFlag lighter advanced
      apply measure_lt_of_rounds
      · simp only [budget, sameFlag]
        omega
      · rw [advanced, stage]
        rfl
      · simp only [roundsLeft, advanced, stage, next, MinimizeState.inLen, sameLength]
        exact toLex_lt_of_counter (by omega)
    split
    · exact lower _ rfl rfl le_rfl rfl
    · split
      · exact lower _ (length_setZeros fitting) rfl (weight_setZeros_le fitting) rfl
      · exact lower _ rfl rfl le_rfl rfl
  · apply measure_lt_of_rank
    · rw [budget_nextPass]
      exact Nat.le_add_right _ _
    · rw [stage]
      exact Nat.lt_succ_self 3

theorem deleteStep_lowers {delLen delPos : ℕ} {prevDel : Bool}
    (stage : s.stage = .delete delLen delPos prevDel) (sound : Sound accepts input s.inData)
    (positive : 1 ≤ delLen) (small : delLen ≤ blockLimit) :
    measure (deleteStep accepts s delLen delPos prevDel) < measure s := by
  have fits := sound.fits
  simp only [deleteStep]
  by_cases before : delPos < s.inLen
  · have lower : ∀ prevDel,
        measure { s with stage := .delete delLen (u32 (delPos + delLen)) prevDel } < measure s := by
      intro prevDel
      simp only [TMIN_MAX_FILE, blockLimit, MinimizeState.inLen] at fits small before
      have next : u32 (delPos + delLen) = delPos + delLen := u32_of_lt (by omega)
      apply measure_lt_of_rounds
      · exact le_rfl
      · rw [stage]
        rfl
      · simp only [roundsLeft, stage, next, MinimizeState.inLen]
        exact toLex_lt_of_counter (by omega)
    rw [if_pos before, tailLen_eq sound small before]
    split
    · exact lower _
    · split
      · apply measure_lt_of_budget
        apply budget_lt_of_changed
        exact weight_deleteBlock_lt positive before
      · exact lower _
  · rw [if_neg before]
    split
    · rename_i halved
      apply measure_lt_of_rounds
      · exact le_rfl
      · rw [stage]
        rfl
      · simp only [roundsLeft, stage, MinimizeState.nextDelBlksize]
        have shorter : (if delLen / 2 = 0 then 1 else delLen / 2) < delLen := by
          have long := halved.1
          simp only [delLenLimit] at long
          split <;> omega
        exact Prod.Lex.toLex_lt_toLex.mpr (.inl shorter)
    · split
      · apply measure_lt_of_rank
        · exact le_rfl
        · rw [stage]
          exact Nat.zero_lt_succ 2
      · apply measure_lt_of_rank
        · exact le_rfl
        · rw [stage]
          exact Nat.lt_succ_self 2

theorem alphabetStep_lowers (kept : Kept accepts input s) {alphaMap : Byte → ℕ} {i : ℕ}
    (stage : s.stage = .alphabet alphaMap i) :
    measure (alphabetStep accepts s alphaMap i) < measure s := by
  have known := kept.stage
  simp only [StageKept, stage] at known
  simp only [alphabetStep]
  split
  · rename_i inAlphabet
    have lower : measure { s with stage := .alphabet alphaMap (i + 1) } < measure s := by
      apply measure_lt_of_rounds
      · exact le_rfl
      · rw [stage]
        rfl
      · simp only [roundsLeft, stage]
        exact toLex_lt_of_counter (by omega)
    split
    · exact lower
    · rename_i present
      push Not at present
      split
      · apply measure_lt_of_budget
        apply budget_lt_of_changed
        have value : (BitVec.ofNat 8 i).toNat = i := by
          rw [BitVec.toNat_ofNat, Nat.mod_eq_of_lt inAlphabet]
        exact weight_replaceSymbol_lt (known.1 _ value.ge present.1 present.2) present.1
      · exact lower
  · apply measure_lt_of_rank
    · exact le_rfl
    · rw [stage]
      exact Nat.lt_succ_self 1

theorem characterStep_lowers (kept : Kept accepts input s) {tmpBuf : List Byte} {i : ℕ}
    (stage : s.stage = .character tmpBuf i) :
    measure (characterStep accepts s tmpBuf i) < measure s := by
  have known := kept.stage
  simp only [StageKept, stage] at known
  obtain ⟨rfl, -⟩ := known
  simp only [characterStep]
  split
  · rename_i inside
    have lower : ∀ tmpBuf, measure { s with stage := .character tmpBuf (i + 1) } < measure s := by
      intro tmpBuf
      apply measure_lt_of_rounds
      · exact le_rfl
      · rw [stage]
        rfl
      · simp only [roundsLeft, stage, MinimizeState.inLen] at inside ⊢
        exact toLex_lt_of_counter (by omega)
    split
    · exact lower _
    · rename_i other
      split
      · apply measure_lt_of_budget
        apply budget_lt_of_changed
        exact weight_set_lt inside other
      · exact lower _
  · split
    · rename_i changed
      apply measure_lt_of_budget
      rw [budget_nextPass, budget, changed]
      exact Nat.lt_succ_self _
    · apply measure_lt_of_rank
      · exact le_rfl
      · rw [stage]
        exact Nat.lt_succ_self 0

/-- **One step lowers the measure.** -/
theorem Kept.lowers (kept : Kept accepts input s) {t : MinimizeState}
    (taken : minimizeStep accepts s = some t) : measure t < measure s := by
  have known := kept.stage
  simp only [minimizeStep] at taken
  cases stage : s.stage with
  | normalize setLen setPos =>
      simp only [StageKept, stage] at known taken
      injection taken with same
      rw [← same]
      exact normalizeStep_lowers stage kept.sound known.1 known.2
  | delete delLen delPos prevDel =>
      simp only [StageKept, stage] at known taken
      injection taken with same
      rw [← same]
      exact deleteStep_lowers stage kept.sound known.1 known.2.1
  | alphabet alphaMap i =>
      simp only [stage] at taken
      injection taken with same
      rw [← same]
      exact alphabetStep_lowers kept stage
  | character tmpBuf i =>
      simp only [stage] at taken
      injection taken with same
      rw [← same]
      exact characterStep_lowers kept stage
  | finalizeAll =>
      simp only [stage] at taken
      cases taken

/-- There is a next round unless the end is reached. -/
theorem minimizeStep_isSome (running : s.stage ≠ .finalizeAll) :
    ∃ t, minimizeStep accepts s = some t := by
  simp only [minimizeStep]
  split
  · exact ⟨_, rfl⟩
  · exact ⟨_, rfl⟩
  · exact ⟨_, rfl⟩
  · exact ⟨_, rfl⟩
  · exact absurd ‹_› running

/-! ## Whole runs -/

theorem Kept.start (long : 2 ≤ input.length) (fits : input.length < TMIN_MAX_FILE)
    (accepted : accepts input = true) : Kept accepts input (minimizeStart input) := by
  have several : ¬ input.length ≤ 1 := by omega
  have block := firstBlock_le TMIN_SET_STEPS fits (by decide)
  refine ⟨⟨accepted, le_rfl, fits⟩, ?_⟩
  simp only [StageKept, minimizeStart, if_neg several]
  split
  · decide
  · rename_i enough
    simp only [TMIN_SET_MIN_SIZE] at enough
    exact ⟨by omega, block⟩

theorem kept_of_reachable (long : 2 ≤ input.length) (fits : input.length < TMIN_MAX_FILE)
    (accepted : accepts input = true) (run : Reachable (minimize accepts input) s) :
    Kept accepts input s :=
  run.invariant
    (fun _ start => start ▸ Kept.start long fits accepted)
    (fun _ _ _ kept taken => kept.step taken)

/-- **Minimisation comes to an end, holds an accepted input that is no longer than the
original all the time, and ends with one from which no byte can be deleted.** -/
theorem minimize_contract (accepts : List Byte → Bool) (input : List Byte)
    (long : 2 ≤ input.length) (fits : input.length < TMIN_MAX_FILE)
    (accepted : accepts input = true) :
    Inevitable (minimize accepts input).step (fun s => s.stage = .finalizeAll)
      (minimizeStart input) ∧
    ∀ s, Reachable (minimize accepts input) s →
      accepts s.inData = true ∧ s.inData.length ≤ input.length ∧
      (s.stage = .finalizeAll → OneMinimal accepts s.inData) := by
  constructor
  · refine Inevitable.of_measure (Kept accepts input) measure ?_
      (Kept.start long fits accepted)
    intro s kept
    by_cases ended : s.stage = .finalizeAll
    · exact .inl ended
    · exact .inr ⟨minimizeStep_isSome ended, fun t taken => ⟨kept.step taken, kept.lowers taken⟩⟩
  · intro s run
    have kept := kept_of_reachable long fits accepted run
    refine ⟨kept.sound.accepted, kept.sound.shorter, fun ended => ?_⟩
    have known := kept.stage
    simp only [StageKept, ended] at known
    exact known

/-- An oracle that wants two bytes at least, and the shortest input. -/
theorem minimize_contract_pair :
    Inevitable (minimize (fun data => 2 ≤ data.length) [65, 65]).step
      (fun s => s.stage = .finalizeAll) (minimizeStart [65, 65]) ∧
    ∀ s, Reachable (minimize (fun data => 2 ≤ data.length) [65, 65]) s →
      decide (2 ≤ s.inData.length) = true ∧ s.inData.length ≤ 2 ∧
      (s.stage = .finalizeAll → OneMinimal (fun data => 2 ≤ data.length) s.inData) :=
  minimize_contract (fun data => 2 ≤ data.length) [65, 65] (by decide) (by decide) (by decide)

/-! ## The oracle of the tool -/

/-- After the dry run the modes stay as they are. -/
theorem tminRunTarget_modes {modes modes' : Modes} {run : Run} {verdict : Bool}
    (ran : tminRunTarget modes run false = some (verdict, modes')) : modes' = modes := by
  simp only [tminRunTarget, Bool.false_eq_true, and_false, if_false] at ran
  grind

/-- **The input of the dry run is accepted afterwards**: if the run is the hang that is asked
for, or no hang. -/
theorem tminRunTarget_again {modes modes' : Modes} {run : Run} {verdict : Bool}
    (fresh : modes.crashMode = false)
    (asExpected : modes.hangMode = true ↔ run.ret = .tmout)
    (ran : tminRunTarget modes run true = some (verdict, modes')) :
    tminRunTarget modes' run false = some (true, modes') := by
  simp only [tminRunTarget] at ran ⊢
  grind

end GreenFuzz.Tmin
