import GreenFuzz.AflFuzz.State
import GreenFuzz.Library.Fallible

/-!
# Skip inference

The first part of `skip_deterministic_stage` of `afl-fuzz-skipdet.c`. It inverts blocks of the
input, runs the target on them, and looks whether the trace is still that of the input. From a
position on, the block doubles as long as this is so. The last block that left the trace
alone is marked as ineffective in `inf_eff_map`, and the inference goes on behind it.

What the target does may depend on how often it was run. Accesses are checked: a write outside a
buffer is an error. The trials and the skipped blocks are recorded, and nothing reads the
record.
-/

set_option autoImplicit false

namespace GreenFuzz.AflFuzz

open Library

/-! ## The buffers -/

/-- Why the inference does not come to its end. -/
inductive InferenceStop where
  | abandoned | outOfBounds | exhausted
  deriving DecidableEq, Repr

/-- One round of `flip_range`. -/
def flipByte (input : List Byte) (i : ℕ) : Except InferenceStop (List Byte) :=
  match input[i]? with
  | none => .error .outOfBounds
  | some byte => .ok (input.set i (byte ^^^ 0xff))

/-- `flip_range`. -/
def flipRange (input : List Byte) (pos size : ℕ) : Except InferenceStop (List Byte) :=
  (List.range size).foldlM (fun input i => flipByte input (u32 (pos + i))) input

/-- `memset(map + pos, 0, count)`. -/
def clearCells (cells : List Byte) (pos count : ℕ) : Except InferenceStop (List Byte) :=
  if pos + count ≤ cells.length then
    .ok (cells.take pos ++ List.replicate count 0 ++ cells.drop (pos + count))
  else .error .outOfBounds

/-! ## The inference -/

def MINIMAL_BLOCK_SIZE : ℕ := 64

/-- A run of the target: which block was inverted, what was run, the checksum of the trace,
and what `out_buf` holds after the block is inverted back. -/
structure BlockTrial where
  pos : ℕ
  size : ℕ
  executed : List Byte
  cksum : BitVec 64
  restored : List Byte

/-- The local variables, the number of runs so far, and the record. -/
structure Inference where
  pos : ℕ := 0
  curBlockSize : ℕ := MINIMAL_BLOCK_SIZE
  outBuf : List Byte
  infEffMap : List Byte
  runs : ℕ
  trials : List BlockTrial := []
  skipped : List (ℕ × ℕ) := []

/-- `common_fuzz_stuff` for the numbered run of a buffer: the checksum of the trace, or nothing
if the entry is to be left. -/
abbrev FuzzTarget := ℕ → List Byte → Option (BitVec 64)

/-- `common_fuzz_stuff`, and `hash64` of the trace. -/
def FuzzTarget.run (target : FuzzTarget) (runs : ℕ) (buf : List Byte) :
    Except InferenceStop (BitVec 64) :=
  match target runs buf with
  | none => .error .abandoned
  | some cksum => .ok cksum

namespace Inference

/-- The target was run on the inverted block. -/
def afterTrial (w : Inference) (t : BlockTrial) : Inference :=
  { w with outBuf := t.restored, runs := w.runs + 1, trials := t :: w.trials }

/-- A round of the inner loop, and whether the loop goes on. -/
def tryBlock (target : FuzzTarget) (len : ℕ) (prevCksum : BitVec 64) (w : Inference) :
    Except InferenceStop (Inference × Bool) := do
  let flipBlockSize :=
    if u32 (w.curBlockSize + w.pos) < len then w.curBlockSize else u32Sub (len - 1) w.pos
  let executed ← flipRange w.outBuf w.pos flipBlockSize
  let cksum ← target.run w.runs executed
  let outBuf ← flipRange executed w.pos flipBlockSize
  let w := w.afterTrial ⟨w.pos, flipBlockSize, executed, cksum, outBuf⟩
  if cksum = prevCksum then
    let w := { w with curBlockSize := u32 (w.curBlockSize * 2) }
    return (w, w.curBlockSize < u32Sub (len - 1) w.pos)
  else return (w, false)

/-- The inner loop. -/
def growBlock (target : FuzzTarget) (len : ℕ) (prevCksum : BitVec 64) :
    ℕ → Inference → Except InferenceStop Inference
  | 0, _ => .error .exhausted
  | rounds + 1, w =>
      if w.curBlockSize < len / 8 then do
        let (w, again) ← w.tryBlock target len prevCksum
        if again then growBlock target len prevCksum rounds w else return w
      else .ok w

/-- What follows the inner loop in a round of the outer one. -/
def skipBlock (len : ℕ) (w : Inference) : Except InferenceStop Inference :=
  if w.curBlockSize = MINIMAL_BLOCK_SIZE then
    .ok { w with pos := u32 (w.pos + w.curBlockSize) }
  else do
    let curSkipLen :=
      if u32 (w.curBlockSize / 2 + w.pos) < len then w.curBlockSize / 2
      else u32Sub (u32Sub len w.pos) 1
    let infEffMap ← clearCells w.infEffMap w.pos curSkipLen
    return { w with
      infEffMap, pos := u32 (w.pos + curSkipLen)
      skipped := w.skipped ++ [(w.pos, curSkipLen)] }

/-- The outer loop. -/
def inferBlocks (target : FuzzTarget) (len : ℕ) (prevCksum : BitVec 64) :
    ℕ → Inference → Except InferenceStop Inference
  | 0, _ => .error .exhausted
  | rounds + 1, w =>
      if w.pos < len - 1 then do
        let w ← growBlock target len prevCksum len { w with curBlockSize := MINIMAL_BLOCK_SIZE }
        let w ← w.skipBlock len
        inferBlocks target len prevCksum rounds w
      else .ok w

end Inference

/-- The skip inference of `skip_deterministic_stage`. Each loop has as many rounds as the input
has bytes. -/
def skipInference (target : FuzzTarget) (origBuf outBuf : List Byte) :
    Except InferenceStop Inference := do
  let len := origBuf.length
  let prevCksum ← target.run 0 origBuf
  let w : Inference := { outBuf, infEffMap := List.replicate len 1, runs := 1 }
  if MINIMAL_BLOCK_SIZE * 8 < len then Inference.inferBlocks target len prevCksum len w
  else return w

/-! ## Inverting a block -/

/-- The bytes of a block are inverted. -/
def invertBlock (input : List Byte) (pos size : ℕ) : List Byte :=
  input.mapIdx fun i byte => if pos ≤ i ∧ i < pos + size then byte ^^^ 0xff else byte

variable {input : List Byte} {pos size : ℕ}

@[simp] theorem length_invertBlock : (invertBlock input pos size).length = input.length :=
  List.length_mapIdx

theorem invertBlock_zero : invertBlock input pos 0 = input := by
  refine List.ext_getElem (by simp) fun i _ _ => ?_
  simp only [invertBlock, List.getElem_mapIdx]
  exact if_neg (by omega)

/-- Inverting one more byte. -/
theorem invertBlock_succ (inside : pos + size < input.length) :
    flipByte (invertBlock input pos size) (pos + size) =
      .ok (invertBlock input pos (size + 1)) := by
  have byte : (invertBlock input pos size)[pos + size]? = some input[pos + size] := by
    rw [List.getElem?_eq_getElem (by simpa using inside)]
    simp only [invertBlock, List.getElem_mapIdx]
    rw [if_neg (by omega)]
  rw [flipByte, byte]
  refine congrArg Except.ok (List.ext_getElem (by simp) fun i _ _ => ?_)
  simp only [invertBlock, List.getElem_set, List.getElem_mapIdx]
  by_cases here : pos + size = i
  · subst here
    rw [if_pos rfl, if_pos (by omega)]
  · rw [if_neg here]
    exact if_congr (by omega) rfl rfl

/-- `flip_range` inside the buffer inverts the block. -/
theorem flipRange_eq (fits : input.length ≤ 2 ^ 31) (inside : pos + size ≤ input.length) :
    flipRange input pos size = .ok (invertBlock input pos size) := by
  unfold flipRange
  induction size with
  | zero => exact congrArg Except.ok invertBlock_zero.symm
  | succ size ih =>
      rw [List.range_succ, List.foldlM_append, ih (by omega)]
      have index : u32 (pos + size) = pos + size := u32_of_lt (by omega)
      simp only [List.foldlM_cons, List.foldlM_nil, index, bind_pure]
      exact invertBlock_succ (by omega)

/-- A block that is inverted twice is as before. -/
theorem invertBlock_invertBlock : invertBlock (invertBlock input pos size) pos size = input := by
  refine List.ext_getElem (by simp) fun i _ _ => ?_
  simp only [invertBlock, List.getElem_mapIdx]
  split
  · rw [BitVec.xor_assoc, BitVec.xor_self, BitVec.xor_zero]
  · rfl

/-- `memset` inside the map clears the cells of the block and no other. -/
theorem clearCells_eq {cells : List Byte} {count : ℕ} (inside : pos + count ≤ cells.length) :
    ∃ cleared, clearCells cells pos count = .ok cleared ∧ cleared.length = cells.length ∧
      ∀ i, cleared[i]? = if pos ≤ i ∧ i < pos + count then some 0 else cells[i]? := by
  refine ⟨_, if_pos inside, ?_, fun i => ?_⟩
  · simp only [List.length_append, List.length_take, List.length_replicate, List.length_drop]
    omega
  · have before : (cells.take pos).length = pos := by
      rw [List.length_take]
      omega
    have upto : (cells.take pos ++ List.replicate count (0 : Byte)).length = pos + count := by
      rw [List.length_append, before, List.length_replicate]
    rcases Nat.lt_or_ge i pos with early | late
    · rw [if_neg (by omega), List.getElem?_append_left (by omega),
        List.getElem?_append_left (by omega), List.getElem?_take_of_lt early]
    · rcases Nat.lt_or_ge i (pos + count) with within | behind
      · rw [if_pos ⟨late, within⟩, List.getElem?_append_left (by omega),
          List.getElem?_append_right (by omega), List.getElem?_replicate, if_pos (by omega)]
      · rw [if_neg (by omega), List.getElem?_append_right (by omega), upto, List.getElem?_drop,
          Nat.add_sub_cancel' behind]

/-! ## What the inference keeps -/

variable {target : FuzzTarget} {orig : List Byte} {prevCksum : BitVec 64}

/-- A trial inverted exactly its block of the input, in bounds, and left `out_buf` unchanged. -/
structure BlockTrial.Sound (target : FuzzTarget) (orig : List Byte) (t : BlockTrial) : Prop where
  inside : t.pos + t.size ≤ orig.length
  executed_eq : t.executed = invertBlock orig t.pos t.size
  restored_eq : t.restored = orig
  ran : ∃ run, target run t.executed = some t.cksum

/-- The trials are sound. The cells that are cleared are those of the skipped blocks, which were
tried, gave the checksum of the input, and do not overlap. -/
structure Inference.Sound (target : FuzzTarget) (orig : List Byte) (prevCksum : BitVec 64)
    (w : Inference) : Prop where
  outBuf_eq : w.outBuf = orig
  length_map : w.infEffMap.length = orig.length
  trials : ∀ t ∈ w.trials, t.Sound target orig
  cleared : ∀ i, w.infEffMap[i]? = some 0 ↔ ∃ b ∈ w.skipped, b.1 ≤ i ∧ i < b.1 + b.2
  tried : ∀ b ∈ w.skipped, ∃ t ∈ w.trials, t.pos = b.1 ∧ t.size = b.2 ∧ t.cksum = prevCksum
  apart : w.skipped.Pairwise fun a b => a.1 + a.2 ≤ b.1

/-- Between the rounds of the outer loop, the skipped blocks are behind. -/
structure Inference.Behind (target : FuzzTarget) (orig : List Byte) (prevCksum : BitVec 64)
    (w : Inference) : Prop extends w.Sound target orig prevCksum where
  behind : ∀ b ∈ w.skipped, b.1 + b.2 ≤ w.pos

/-- The part of a block of this size that is inverted or skipped. -/
def blockLength (len pos size : ℕ) : ℕ := if size + pos < len then size else len - 1 - pos

/-- In the inner loop, the last doubling came from a trial that gave the checksum of the
input. -/
structure Inference.Growing (target : FuzzTarget) (orig : List Byte) (prevCksum : BitVec 64)
    (start : ℕ) (w : Inference) : Prop extends w.Behind target orig prevCksum where
  pos_eq : w.pos = start
  minimal : MINIMAL_BLOCK_SIZE ≤ w.curBlockSize
  small : w.curBlockSize ≤ 2 ^ 30
  grew : w.curBlockSize = MINIMAL_BLOCK_SIZE ∨ ∃ t ∈ w.trials, t.pos = w.pos ∧
    t.size = blockLength orig.length w.pos (w.curBlockSize / 2) ∧ t.cksum = prevCksum

namespace Inference

variable {w : Inference}

theorem Sound.start : Sound target orig prevCksum
    { outBuf := orig, infEffMap := List.replicate orig.length 1, runs := 1 } where
  outBuf_eq := rfl
  length_map := List.length_replicate
  trials := nofun
  cleared i := by
    refine ⟨fun zero => ?_, fun ⟨_, member, _⟩ => absurd member List.not_mem_nil⟩
    rw [List.getElem?_replicate] at zero
    split at zero
    · cases zero
    · cases zero
  tried := nofun
  apart := .nil

/-- The only way not to come to the end: a run of the target ends the stage. -/
def Leaves (target : FuzzTarget) (stop : InferenceStop) : Prop :=
  stop = .abandoned ∧ ∃ run buf, target run buf = none

theorem run_meets (target : FuzzTarget) (run : ℕ) (buf : List Byte) :
    Meets (Leaves target) (target.run run buf) fun cksum => target run buf = some cksum := by
  unfold FuzzTarget.run
  cases outcome : target run buf with
  | none => exact ⟨rfl, run, buf, outcome⟩
  | some cksum => exact rfl

/-- `flip_range` is given the length of the block. -/
theorem Growing.flipLength {start : ℕ} (growing : w.Growing target orig prevCksum start)
    (fits : orig.length ≤ 2 ^ 31) (more : start < orig.length - 1) :
    (if u32 (w.curBlockSize + w.pos) < orig.length then w.curBlockSize
      else u32Sub (orig.length - 1) w.pos) = blockLength orig.length w.pos w.curBlockSize := by
  have here := growing.pos_eq
  have small := growing.small
  rw [u32_of_lt (by omega), u32Sub_of_le (by omega) (by omega), blockLength]

/-- A sound trial keeps the invariant. -/
theorem Behind.afterTrial {t : BlockTrial} (behind : w.Behind target orig prevCksum)
    (sound : t.Sound target orig) : (w.afterTrial t).Behind target orig prevCksum where
  outBuf_eq := sound.restored_eq
  length_map := behind.length_map
  trials := List.forall_mem_cons.mpr ⟨sound, behind.trials⟩
  cleared := behind.cleared
  tried b member := by
    obtain ⟨earlier, tried, same⟩ := behind.tried b member
    exact ⟨earlier, List.mem_cons_of_mem _ tried, same⟩
  apart := behind.apart
  behind := behind.behind

/-- The invariant does not depend on the block size. -/
theorem Behind.congr {w' : Inference} (behind : w.Behind target orig prevCksum)
    (outBuf : w'.outBuf = w.outBuf) (infEffMap : w'.infEffMap = w.infEffMap)
    (trials : w'.trials = w.trials) (skipped : w'.skipped = w.skipped) (pos : w.pos ≤ w'.pos) :
    w'.Behind target orig prevCksum where
  outBuf_eq := outBuf.trans behind.outBuf_eq
  length_map := infEffMap ▸ behind.length_map
  trials := trials ▸ behind.trials
  cleared := infEffMap ▸ skipped ▸ behind.cleared
  tried := trials ▸ skipped ▸ behind.tried
  apart := skipped ▸ behind.apart
  behind b member := Nat.le_trans (behind.behind b (skipped ▸ member)) pos

/-- The step lemma of the inner loop. -/
theorem Growing.tryBlock {start : ℕ} (growing : w.Growing target orig prevCksum start)
    (fits : orig.length ≤ 2 ^ 31) (more : start < orig.length - 1)
    (below : w.curBlockSize < orig.length / 8) :
    Meets (Leaves target) (w.tryBlock target orig.length prevCksum) fun result =>
      result.1.Growing target orig prevCksum start ∧
        (result.2 = true → result.1.curBlockSize = w.curBlockSize * 2) := by
  have here := growing.pos_eq
  have minimal := growing.minimal
  have length := growing.flipLength fits more
  set size := blockLength orig.length w.pos w.curBlockSize with size_eq
  have inside : w.pos + size ≤ orig.length := by
    rw [size_eq, blockLength]
    split <;> omega
  have double : u32 (w.curBlockSize * 2) = w.curBlockSize * 2 := u32_of_lt (by omega)
  have restores : flipRange (invertBlock orig w.pos size) w.pos size = .ok orig := by
    rw [flipRange_eq (by simpa using fits) (by simpa using inside), invertBlock_invertBlock]
  unfold Inference.tryBlock
  simp only [length, growing.outBuf_eq]
  refine Meets.bind_of_eq (flipRange_eq fits inside) ?_
  refine Meets.bind (run_meets target w.runs (invertBlock orig w.pos size)) fun cksum ran => ?_
  refine Meets.bind_of_eq restores ?_
  have sound : BlockTrial.Sound target orig
      ⟨w.pos, size, invertBlock orig w.pos size, cksum, orig⟩ := ⟨inside, rfl, rfl, _, ran⟩
  have behind := growing.toBehind.afterTrial sound
  split
  · rename_i same
    refine Meets.pure ⟨?_, fun _ => double⟩
    refine
      { toBehind := behind.congr rfl rfl rfl rfl le_rfl
        pos_eq := here, minimal := ?_, small := ?_, grew := .inr ?_ }
    · exact (Nat.le_trans minimal (Nat.le_mul_of_pos_right _ Nat.two_pos)).trans_eq double.symm
    · exact double.trans_le (by omega)
    · refine ⟨_, List.mem_cons_self, rfl, ?_, same⟩
      dsimp only [Inference.afterTrial]
      rw [double, Nat.mul_div_cancel _ (by decide)]
  · refine Meets.pure ⟨?_, nofun⟩
    refine
      { toBehind := behind
        pos_eq := here, minimal := minimal, small := growing.small, grew := ?_ }
    rcases growing.grew with first | ⟨t, tried, same⟩
    · exact .inl first
    · exact .inr ⟨t, List.mem_cons_of_mem _ tried, same⟩

/-- The run lemma of the inner loop: doubling ends it before the rounds are used up. -/
theorem Growing.growBlock {start : ℕ} (fits : orig.length ≤ 2 ^ 31)
    (more : start < orig.length - 1) (rounds : ℕ) (growing : w.Growing target orig prevCksum start)
    (enough : orig.length - w.curBlockSize < rounds) :
    Meets (Leaves target) (growBlock target orig.length prevCksum rounds w) fun w' =>
      w'.Growing target orig prevCksum start := by
  induction rounds generalizing w with
  | zero => exact absurd enough (Nat.not_lt_zero _)
  | succ rounds ih =>
      unfold Inference.growBlock
      split
      · rename_i below
        refine (growing.tryBlock fits more below).bind fun result kept => ?_
        obtain ⟨w', again⟩ := result
        obtain ⟨grows, doubled⟩ := kept
        dsimp only at grows doubled ⊢
        split
        · rename_i goes_on
          have minimal := growing.minimal
          have size := doubled goes_on
          unfold MINIMAL_BLOCK_SIZE at minimal
          exact ih grows (by omega)
        · exact grows
      · exact growing

/-- The step lemma of the outer loop: the block that is skipped is the one that was tried. -/
theorem Growing.skipBlock {start : ℕ} (growing : w.Growing target orig prevCksum start)
    (fits : orig.length ≤ 2 ^ 31) (more : start < orig.length - 1) :
    Meets (Leaves target) (w.skipBlock orig.length) fun w' =>
      w'.Behind target orig prevCksum ∧ start < w'.pos := by
  have here := growing.pos_eq
  have minimal := growing.minimal
  have small := growing.small
  unfold MINIMAL_BLOCK_SIZE at minimal
  unfold Inference.skipBlock
  split
  · rename_i first
    have moved : u32 (w.pos + w.curBlockSize) = w.pos + w.curBlockSize := u32_of_lt (by omega)
    refine Meets.pure ⟨growing.toBehind.congr rfl rfl rfl rfl ?_, ?_⟩
    · exact (Nat.le_add_right _ _).trans_eq moved.symm
    · exact (by omega : start < w.pos + w.curBlockSize).trans_eq moved.symm
  · rename_i doubled
    set size := blockLength orig.length w.pos (w.curBlockSize / 2) with size_eq
    have skip : (if u32 (w.curBlockSize / 2 + w.pos) < orig.length then w.curBlockSize / 2
        else u32Sub (u32Sub orig.length w.pos) 1) = size := by
      have left : u32Sub orig.length w.pos = orig.length - w.pos :=
        u32Sub_of_le (by omega) (by omega)
      rw [u32_of_lt (by omega), left, u32Sub_of_le (by omega) (by omega), size_eq, blockLength,
        Nat.sub_right_comm]
    have inside : w.pos + size ≤ orig.length ∧ 0 < size := by
      rw [size_eq, blockLength]
      split <;> omega
    have room : w.pos + size ≤ w.infEffMap.length := inside.1.trans_eq growing.length_map.symm
    obtain ⟨cleared, done, length, cells⟩ := clearCells_eq room
    obtain ⟨t, tried, same⟩ := growing.grew.resolve_left doubled
    have moved : u32 (w.pos + size) = w.pos + size := u32_of_lt (by omega)
    simp only [skip, moved]
    refine Meets.bind_of_eq done (Meets.pure ⟨?_, by dsimp only; omega⟩)
    refine
      { outBuf_eq := growing.outBuf_eq, length_map := length.trans growing.length_map
        trials := growing.trials, cleared := ?_, tried := ?_, apart := ?_, behind := ?_ }
    · intro i
      have before := growing.cleared i
      simp only [cells, List.mem_append, List.mem_singleton, or_and_right, exists_or,
        exists_eq_left, ← before]
      by_cases within : w.pos ≤ i ∧ i < w.pos + size
      · rw [if_pos within]
        exact iff_of_true rfl (.inr within)
      · rw [if_neg within, or_iff_left within]
    · intro b member
      rcases List.mem_append.mp member with earlier | last
      · exact growing.tried b earlier
      · cases List.mem_singleton.mp last
        exact ⟨t, tried, same⟩
    · refine List.pairwise_append.mpr ⟨growing.apart, List.pairwise_singleton _ _, ?_⟩
      intro b earlier b' last
      cases List.mem_singleton.mp last
      exact growing.behind b earlier
    · intro b member
      rcases List.mem_append.mp member with earlier | last
      · exact (growing.behind b earlier).trans (Nat.le_add_right _ _)
      · cases List.mem_singleton.mp last
        exact le_rfl

/-- The run lemma of the outer loop: the position moves on until the end is near. -/
theorem Behind.inferBlocks (fits : orig.length ≤ 2 ^ 31) (rounds : ℕ)
    (behind : w.Behind target orig prevCksum) (enough : orig.length - 1 - w.pos < rounds) :
    Meets (Leaves target) (inferBlocks target orig.length prevCksum rounds w) fun w' =>
      w'.Behind target orig prevCksum := by
  induction rounds generalizing w with
  | zero => exact absurd enough (Nat.not_lt_zero _)
  | succ rounds ih =>
      unfold Inference.inferBlocks
      split
      · rename_i more
        have small : MINIMAL_BLOCK_SIZE ≤ 2 ^ 30 := by decide
        have growing : ({ w with curBlockSize := MINIMAL_BLOCK_SIZE } : Inference).Growing target
            orig prevCksum w.pos :=
          { toBehind := behind.congr rfl rfl rfl rfl le_rfl
            pos_eq := rfl, minimal := le_rfl, small := small, grew := .inl rfl }
        refine (growing.growBlock fits more orig.length ?_).bind fun w' grown => ?_
        · unfold MINIMAL_BLOCK_SIZE
          dsimp only
          omega
        · refine (grown.skipBlock fits more).bind fun w'' kept => ?_
          exact ih kept.1 (by have := kept.2; omega)
      · exact behind

end Inference

/-- **Skip inference is sound.** No access is out of bounds, and the loops come to their end
unless a run of the target ends the stage. Then the trials inverted blocks of the input in
bounds, and the cells that are cleared are those of blocks that were tried, gave the checksum of
the input, and do not overlap. -/
theorem skipInference_sound (target : FuzzTarget) (origBuf : List Byte)
    (fits : origBuf.length ≤ 2 ^ 31) :
    (∃ w prevCksum, skipInference target origBuf origBuf = .ok w ∧
      target 0 origBuf = some prevCksum ∧ w.Sound target origBuf prevCksum) ∨
    skipInference target origBuf origBuf = .error .abandoned ∧
      ∃ run buf, target run buf = none := by
  have meets : Meets (Inference.Leaves target) (skipInference target origBuf origBuf) fun w =>
      ∃ prevCksum, target 0 origBuf = some prevCksum ∧ w.Sound target origBuf prevCksum := by
    unfold skipInference
    refine (Inference.run_meets target 0 origBuf).bind fun prevCksum baseline => ?_
    split
    · rename_i long
      have start : Inference.Behind target origBuf prevCksum
          { outBuf := origBuf, infEffMap := List.replicate origBuf.length 1, runs := 1 } :=
        { toSound := .start, behind := nofun }
      refine (start.inferBlocks fits origBuf.length ?_).mono fun w behind => ?_
      · dsimp only
        omega
      · exact ⟨prevCksum, baseline, behind.toSound⟩
    · exact Meets.pure ⟨prevCksum, baseline, .start⟩
  cases outcome : skipInference target origBuf origBuf with
  | ok w =>
      rw [outcome] at meets
      obtain ⟨prevCksum, baseline, sound⟩ := meets
      exact .inl ⟨w, prevCksum, rfl, baseline, sound⟩
  | error stop =>
      rw [outcome] at meets
      obtain ⟨rfl, nothing⟩ := meets
      exact .inr ⟨rfl, nothing⟩

/-- A target whose trace never changes. -/
theorem skipInference_sound_constant :
    ∃ w, skipInference (fun _ _ => some 7) (List.replicate 600 0) (List.replicate 600 0) = .ok w ∧
      w.Sound (fun _ _ => some 7) (List.replicate 600 0) 7 := by
  have fits : (List.replicate 600 (0 : Byte)).length ≤ 2 ^ 31 := by
    rw [List.length_replicate]
    decide
  rcases skipInference_sound (fun _ _ => some 7) (List.replicate 600 0) fits with
    ⟨w, prevCksum, done, baseline, sound⟩ | ⟨-, run, buf, nothing⟩
  · cases baseline
    exact ⟨w, done, sound⟩
  · cases nothing

end GreenFuzz.AflFuzz
