import GreenFuzz.AflFuzz.TrimCase
import Mathlib.Logic.Relation

/-!
# What trimming leaves of a testcase

The contents of the buffers in a call of `trim_case` without custom mutators. The
candidate of a deletion is written from two parts of `in_buf`, and a deletion
that keeps the trace closes the gap in place. An access outside the buffer has
no result, so a call with a result makes none.

A round of the loops either shortens the case or moves on, to the next position
or to smaller blocks (`Trimming.Kept.round`), so enough rounds come to the end.
**Then the case is what is left of the original after deleting blocks past its
first four bytes, its trace has the checksum of the original, and the buffer, the
cached testcase and the file hold it** (`trimCase_keeps_behaviour`).
-/

set_option autoImplicit false

namespace GreenFuzz.AflFuzz

open Library

/-! ## The call -/

/-- Bytes read from a buffer. -/
def readBytes (mem : List Byte) (start count : ℕ) : Option (List Byte) :=
  if start + count ≤ mem.length then some ((mem.drop start).take count) else none

/-- `memmove` inside a buffer. -/
def memmove (mem : List Byte) (dst src count : ℕ) : Option (List Byte) :=
  if dst + count ≤ mem.length then
    (readBytes mem src count).map fun data => mem.take dst ++ data ++ mem.drop (dst + count)
  else none

/-- `write_with_gap`: the testcase that is written. -/
def writeWithGap (mem : List Byte) (len skipAt skipLen : ℕ) : Option (List Byte) :=
  (readBytes mem 0 skipAt).bind fun head =>
    (readBytes mem (skipAt + skipLen) (len - skipAt - skipLen)).map fun tail => head ++ tail

/-- The local variables of `trim_case` and `in_buf`. -/
structure Trimming where
  st : TrimState
  inBuf : List Byte

/-- One deletion of a target whose trace has this checksum on each testcase. -/
def Trimming.round (cksum : List Byte → BitVec 64) (execCksum : BitVec 64) (t : Trimming)
    (removeLen removePos : ℕ) : Option Trimming :=
  let trimAvail := min removeLen (t.st.len - removePos)
  (writeWithGap t.inBuf t.st.len removePos trimAvail).bind fun candidate =>
    if cksum candidate = execCksum then
      (memmove t.inBuf removePos (removePos + trimAvail) (t.st.len - removePos - trimAvail)).map
        fun moved => ⟨t.st.try removeLen removePos .keepsTrace, moved⟩
    else some ⟨t.st.try removeLen removePos .changesTrace, t.inBuf⟩

/-- The loops, if they end within this number of rounds. -/
def trimRounds (cksum : List Byte → BitVec 64) (execCksum : BitVec 64) :
    ℕ → Trimming → Option Trimming
  | 0, _ => none
  | rounds + 1, t =>
      match t.st.attempt with
      | none => some t
      | some (removeLen, removePos) =>
          (t.round cksum execCksum removeLen removePos).bind (trimRounds cksum execCksum rounds)

/-- The cached buffer of the entry: none, `in_buf` itself, or another one. -/
inductive CachedBuf where
  | absent
  | inPlace
  | separate (buf : List Byte)

/-- The first bytes of the cached buffer. -/
def CachedBuf.content (inBuf : List Byte) (len : ℕ) : CachedBuf → Option (List Byte)
  | .absent => none
  | .inPlace => some (inBuf.take len)
  | .separate buf => some (buf.take len)

/-- `queue_testcase_retake_mem`, as far as it changes the contents of the cached buffer. -/
def CachedBuf.retakeMem (inBuf : List Byte) (len oldLen : ℕ) : CachedBuf → Option CachedBuf
  | .absent => some .absent
  | .inPlace => some .inPlace
  | .separate buf =>
      let buf := if u32 (len + 1024) < oldLen then buf.take len else buf
      if len ≤ buf.length then
        (readBytes inBuf 0 len).map fun data => .separate (data ++ buf.drop len)
      else none

/-- What a call leaves: `q->len`, the buffers and the file. -/
structure Trimmed where
  len : ℕ
  inBuf : List Byte
  cached : CachedBuf
  disk : List Byte

/-- `trim_case` without custom mutators, if its loops end within this number of rounds. -/
def trimCaseContent (rounds : ℕ) (cksum : List Byte → BitVec 64) (execCksum : BitVec 64)
    (original : List Byte) (cached : CachedBuf) : Option Trimmed :=
  (trimRounds cksum execCksum rounds ⟨trimStart original.length, original⟩).bind fun t =>
    if t.st.needsWrite then
      (readBytes t.inBuf 0 t.st.len).bind fun written =>
        (cached.retakeMem t.inBuf t.st.len original.length).map fun cached =>
          ⟨t.st.len, t.inBuf, cached, written⟩
    else some ⟨t.st.len, t.inBuf, cached, original⟩

/-! ## Deleting blocks -/

/-- A block past the first four bytes is deleted. -/
def DeletesBlock (before after : List Byte) : Prop :=
  ∃ head block tail, 4 ≤ head.length ∧ before = head ++ block ++ tail ∧ after = head ++ tail

/-- Blocks past the first four bytes are deleted, one after the other. -/
def BlocksDeleted : List Byte → List Byte → Prop := Relation.ReflTransGen DeletesBlock

/-- What is left is a subsequence. -/
theorem BlocksDeleted.sublist {before after : List Byte} (deleted : BlocksDeleted before after) :
    after.Sublist before := by
  induction deleted with
  | refl => exact .refl _
  | tail _ last ih =>
      obtain ⟨head, block, tail, -, rfl, rfl⟩ := last
      refine List.Sublist.trans ?_ ih
      exact (List.sublist_append_left head block).append (.refl tail)

/-- The first four bytes stay. -/
theorem BlocksDeleted.take_four {before after : List Byte}
    (deleted : BlocksDeleted before after) : after.take 4 = before.take 4 := by
  induction deleted with
  | refl => rfl
  | tail _ last ih =>
      obtain ⟨head, block, tail, four, rfl, rfl⟩ := last
      rw [← ih, List.append_assoc, List.take_append_of_le_length four,
        List.take_append_of_le_length four]

/-! ## One deletion -/

variable {mem : List Byte} {len skipAt skipLen : ℕ}

theorem readBytes_of_le {start count : ℕ} (inside : start + count ≤ mem.length) :
    readBytes mem start count = some ((mem.drop start).take count) := if_pos inside

/-- The case around a block. -/
theorem take_eq_around (inside : skipAt + skipLen ≤ len) :
    mem.take len = mem.take skipAt ++ (mem.drop skipAt).take skipLen ++
      (mem.drop (skipAt + skipLen)).take (len - skipAt - skipLen) := by
  have rest : len = skipAt + skipLen + (len - skipAt - skipLen) := by omega
  conv_lhs => rw [rest, List.take_add, List.take_add]

theorem writeWithGap_eq (inside : skipAt + skipLen ≤ len) (fits : len ≤ mem.length) :
    writeWithGap mem len skipAt skipLen =
      some (mem.take skipAt ++ (mem.drop (skipAt + skipLen)).take (len - skipAt - skipLen)) := by
  rw [writeWithGap, readBytes_of_le (by omega), readBytes_of_le (by omega)]
  rfl

/-- Closing the gap leaves the candidate that was written. -/
theorem memmove_closes (inside : skipAt + skipLen ≤ len) (fits : len ≤ mem.length) :
    ∃ moved, memmove mem skipAt (skipAt + skipLen) (len - skipAt - skipLen) = some moved ∧
      moved.length = mem.length ∧
      moved.take (len - skipLen) =
        mem.take skipAt ++ (mem.drop (skipAt + skipLen)).take (len - skipAt - skipLen) := by
  rw [memmove, if_pos (by omega), readBytes_of_le (by omega)]
  refine ⟨_, rfl, ?_, ?_⟩
  · simp only [List.length_append, List.length_take, List.length_drop]
    omega
  · refine List.take_left' ?_
    simp only [List.length_append, List.length_take, List.length_drop]
    omega

/-! ## The loops -/

/-- A deletion that is possible: past the first four bytes, inside the case, and of a size that
does not wrap the position. -/
def Attempt (len removeLen removePos : ℕ) : Prop :=
  4 ≤ removePos ∧ removePos < len ∧ 0 < removeLen ∧ removeLen < 2 ^ 31

/-- Blocks are halved until a pass has a block to remove. -/
theorem enterPass_attempt {lenP2 removeLen blockLen blockPos : ℕ} (small : removeLen < 2 ^ 31)
    (entered : enterPass len lenP2 removeLen = some (blockLen, blockPos)) :
    Attempt len blockLen blockPos ∧ blockLen ≤ removeLen := by
  have halved : ∀ rounds r, whileLoop (fun r => trimBound lenP2 ≤ r ∧ len ≤ r) (fun r => r / 2)
      rounds r ≤ r := by
    intro rounds
    induction rounds with
    | zero => exact fun r => Nat.le_refl r
    | succ rounds ih =>
        intro r
        rw [whileLoop]
        split
        · exact Nat.le_trans (ih _) (Nat.div_le_self r 2)
        · exact Nat.le_refl r
  simp only [enterPass, Option.ite_none_right_eq_some, Option.some.injEq, Prod.mk.injEq] at entered
  obtain ⟨⟨bound, inside⟩, rfl, rfl⟩ := entered
  have four : 4 ≤ trimBound lenP2 := Nat.le_max_right _ _
  have atMost := halved 32 removeLen
  refine ⟨⟨by omega, inside, by omega, by omega⟩, atMost⟩

/-- The next deletion is further on, or its block is smaller. -/
theorem nextAttempt_attempt {lenP2 removeLen removePos blockLen blockPos : ℕ}
    (four : 4 ≤ removePos) (positive : 0 < removeLen) (small : removeLen < 2 ^ 31)
    (next : nextAttempt len lenP2 removeLen removePos = some (blockLen, blockPos)) :
    Attempt len blockLen blockPos ∧
      (blockLen = removeLen ∧ blockPos = removePos ∨ blockLen < removeLen) := by
  simp only [nextAttempt] at next
  split at next
  · cases next
    exact ⟨⟨four, ‹_›, positive, small⟩, .inl ⟨rfl, rfl⟩⟩
  · obtain ⟨attempt, atMost⟩ := enterPass_attempt (by omega) next
    exact ⟨attempt, .inr (by omega)⟩

theorem trimStart_attempt {len blockLen blockPos : ℕ}
    (next : (trimStart len).attempt = some (blockLen, blockPos)) :
    Attempt len blockLen blockPos := by
  simp only [trimStart, Option.ite_none_left_eq_some] at next
  refine (enterPass_attempt ?_ next.2).1
  have word : u32 (nextPow2 len) < 2 ^ 32 := Nat.mod_lt _ (by decide)
  omega

/-- What the loops keep: nothing is lost of the original but deleted blocks, and the trace is
that of the original. -/
structure Trimming.Kept (cksum : List Byte → BitVec 64) (original : List Byte) (t : Trimming) :
    Prop where
  length : t.inBuf.length = original.length
  fits : t.st.len ≤ original.length
  blocks : BlocksDeleted original (t.inBuf.take t.st.len)
  trace : cksum (t.inBuf.take t.st.len) = cksum original
  attempt : ∀ removeLen removePos, t.st.attempt = some (removeLen, removePos) →
    Attempt t.st.len removeLen removePos
  untouched : t.st.needsWrite = false → t.inBuf = original ∧ t.st.len = original.length

theorem Trimming.Kept.start (cksum : List Byte → BitVec 64) (original : List Byte) :
    Trimming.Kept cksum original ⟨trimStart original.length, original⟩ where
  length := rfl
  fits := Nat.le_refl _
  blocks := by
    simp only [trimStart, List.take_length]
    exact .refl
  trace := by simp only [trimStart, List.take_length]
  attempt _ _ next := trimStart_attempt next
  untouched _ := ⟨rfl, rfl⟩

/-- How far the loops are from their end: the length comes first, then the block size, then what
is left of the pass. -/
def TrimState.measure (st : TrimState) : ℕ :=
  match st.attempt with
  | none => 0
  | some (removeLen, removePos) => st.len * 2 ^ 64 + removeLen * 2 ^ 32 + (st.len - removePos)

/-- A shorter case, or a later position in the same case, is closer to the end. -/
theorem measure_lt {st st' : TrimState} {removeLen removePos removePos' lenP2 : ℕ}
    (small : st.len ≤ 2 ^ 31) (here : st.attempt = some (removeLen, removePos))
    (attempt : Attempt st.len removeLen removePos) (four : 4 ≤ removePos')
    (next : st'.attempt = nextAttempt st'.len lenP2 removeLen removePos')
    (closer : st'.len < st.len ∨ st'.len = st.len ∧ removePos < removePos') :
    st'.measure < st.measure := by
  obtain ⟨-, inside, positive, block⟩ := attempt
  simp only [TrimState.measure, here]
  cases there : st'.attempt with
  | none =>
      simp only
      omega
  | some later =>
      obtain ⟨blockLen, blockPos⟩ := later
      rw [there] at next
      obtain ⟨⟨-, inside', -, block'⟩, same | smaller⟩ :=
        nextAttempt_attempt four positive block next.symm
      · simp only
        omega
      · simp only
        omega

/-- The step lemma: a round makes no access outside the buffer, keeps the invariant and comes
closer to the end. -/
theorem Trimming.Kept.round {cksum : List Byte → BitVec 64} {original : List Byte} {t : Trimming}
    (kept : t.Kept cksum original) (small : original.length ≤ 2 ^ 31) {removeLen removePos : ℕ}
    (next : t.st.attempt = some (removeLen, removePos)) :
    ∃ t', t.round cksum (cksum original) removeLen removePos = some t' ∧
      t'.Kept cksum original ∧ t'.st.measure < t.st.measure := by
  obtain ⟨four, inside, positive, block⟩ := kept.attempt _ _ next
  have avail : removePos + min removeLen (t.st.len - removePos) ≤ t.st.len := by omega
  have fits : t.st.len ≤ t.inBuf.length := kept.length ▸ kept.fits
  have word : t.st.len ≤ 2 ^ 31 := Nat.le_trans kept.fits small
  rw [Trimming.round, writeWithGap_eq avail fits, Option.bind_some]
  split
  · rename_i same
    obtain ⟨moved, done, length, content⟩ := memmove_closes avail fits
    rw [done]
    refine ⟨_, rfl, ?_, ?_⟩
    · refine
        { length := length.trans kept.length
          fits := Nat.le_trans (Nat.sub_le _ _) kept.fits
          blocks := ?_
          trace := ?_
          attempt := ?_
          untouched := fun clean => Bool.noConfusion clean }
      · refine kept.blocks.tail ⟨_, _, _, ?_, take_eq_around avail, content⟩
        rw [List.length_take]
        omega
      · exact (congrArg cksum content).trans same
      · intro blockLen blockPos later
        exact (nextAttempt_attempt four positive block later).1
    · refine measure_lt word next ⟨four, inside, positive, block⟩ four rfl (.inl ?_)
      simp only [TrimState.try]
      omega
  · have further : u32 (removePos + removeLen) = removePos + removeLen :=
      Nat.mod_eq_of_lt (by omega)
    refine ⟨_, rfl, { kept with attempt := ?_ }, ?_⟩
    · intro blockLen blockPos later
      simp only [TrimState.try, further] at later
      exact (nextAttempt_attempt (by omega) positive block later).1
    · have moves : (t.st.try removeLen removePos .changesTrace).attempt =
          nextAttempt t.st.len t.st.lenP2 removeLen (removePos + removeLen) := by
        simp only [TrimState.try, further]
      exact measure_lt word next ⟨four, inside, positive, block⟩ (by omega) moves
        (.inr ⟨rfl, Nat.lt_add_of_pos_right positive⟩)

/-- The run lemma: as many rounds as the measure says are enough. -/
theorem trimRounds_kept {cksum : List Byte → BitVec 64} {original : List Byte}
    (small : original.length ≤ 2 ^ 31) {bound : ℕ} {t : Trimming} (kept : t.Kept cksum original)
    (within : t.st.measure ≤ bound) :
    ∃ done : Trimming, done.Kept cksum original ∧
      ∀ rounds, bound < rounds → trimRounds cksum (cksum original) rounds t = some done := by
  induction bound generalizing t with
  | zero =>
      cases next : t.st.attempt with
      | none =>
          refine ⟨t, kept, fun rounds enough => ?_⟩
          obtain ⟨rest, rfl⟩ := Nat.exists_eq_succ_of_ne_zero (Nat.ne_of_gt enough)
          simp only [trimRounds, next]
      | some here =>
          obtain ⟨-, inside, -⟩ := kept.attempt _ _ next
          simp only [TrimState.measure, next] at within
          omega
  | succ bound ih =>
      cases next : t.st.attempt with
      | none =>
          refine ⟨t, kept, fun rounds enough => ?_⟩
          obtain ⟨rest, rfl⟩ :=
            Nat.exists_eq_succ_of_ne_zero (Nat.ne_of_gt (Nat.zero_lt_of_lt enough))
          simp only [trimRounds, next]
      | some here =>
          obtain ⟨t', round, kept', closer⟩ := kept.round small next
          obtain ⟨done, keptDone, runs⟩ := ih kept' (by omega)
          refine ⟨done, keptDone, fun rounds enough => ?_⟩
          obtain ⟨rest, rfl⟩ :=
            Nat.exists_eq_succ_of_ne_zero (Nat.ne_of_gt (Nat.zero_lt_of_lt enough))
          simp only [trimRounds, next, round, Option.bind_some]
          exact runs rest (Nat.lt_of_succ_lt_succ enough)

/-! ## The whole call -/

/-- The cached buffer gets what is in `in_buf`. -/
theorem CachedBuf.retakeMem_content {cached : CachedBuf} {inBuf : List Byte} {len oldLen : ℕ}
    (fits : len ≤ inBuf.length) (shorter : len ≤ oldLen)
    (holds : ∀ buf, cached = .separate buf → oldLen ≤ buf.length) :
    ∃ cached', cached.retakeMem inBuf len oldLen = some cached' ∧
      ∀ data, cached'.content inBuf len = some data → data = inBuf.take len := by
  cases cached with
  | absent => exact ⟨_, rfl, fun data held => absurd held.symm (Option.some_ne_none data)⟩
  | inPlace => exact ⟨_, rfl, fun data held => (Option.some.inj held).symm⟩
  | separate buf =>
      have room : oldLen ≤ buf.length := holds buf rfl
      have kept : len ≤ (if u32 (len + 1024) < oldLen then buf.take len else buf).length := by
        split
        · rw [List.length_take]
          omega
        · omega
      simp only [CachedBuf.retakeMem, if_pos kept]
      rw [readBytes_of_le (by omega)]
      refine ⟨_, rfl, fun data held => ?_⟩
      obtain rfl := Option.some.inj held
      refine List.take_left' ?_
      rw [List.drop_zero, List.length_take]
      omega

/-- **Trimming keeps the behaviour of a testcase.** A call that is not interrupted ends. The case
is the original less blocks past its first four bytes, its trace has the checksum of the original,
and it is what `in_buf`, the cached buffer and the file hold. No access is outside `in_buf`. -/
theorem trimCase_keeps_behaviour (cksum : List Byte → BitVec 64) {original : List Byte}
    {cached : CachedBuf} (five : 5 ≤ original.length) (small : original.length ≤ 2 ^ 31)
    (holds : ∀ data, cached.content original original.length = some data → data = original) :
    ∃ (rounds : ℕ) (done : Trimmed),
      (∀ more, rounds ≤ more →
        trimCaseContent more cksum (cksum original) original cached = some done) ∧
      BlocksDeleted original (done.inBuf.take done.len) ∧
      (done.inBuf.take done.len).Sublist original ∧
      (done.inBuf.take done.len).take 4 = original.take 4 ∧ 4 ≤ done.len ∧
      cksum (done.inBuf.take done.len) = cksum original ∧
      done.len ≤ done.inBuf.length ∧ done.inBuf.length = original.length ∧
      (∀ data, done.cached.content done.inBuf done.len = some data →
        data = done.inBuf.take done.len) ∧
      done.disk = done.inBuf.take done.len := by
  obtain ⟨t, kept, runs⟩ := trimRounds_kept small (Trimming.Kept.start cksum original)
    (Nat.le_refl _)
  have prefix_kept := kept.blocks.take_four
  have fits : t.st.len ≤ t.inBuf.length := kept.length ▸ kept.fits
  have four : 4 ≤ t.st.len := by
    have lengths := congrArg List.length prefix_kept
    simp only [List.length_take] at lengths
    omega
  refine ⟨(trimStart original.length).measure + 1, ?_⟩
  cases writes : t.st.needsWrite with
  | false =>
      obtain ⟨same, whole⟩ := kept.untouched writes
      have content : t.inBuf.take t.st.len = original := by
        rw [same, whole, List.take_length]
      refine ⟨⟨t.st.len, t.inBuf, cached, original⟩, fun more enough => ?_, kept.blocks,
        kept.blocks.sublist, prefix_kept, four, kept.trace, fits, kept.length, ?_, content.symm⟩
      · rw [trimCaseContent, runs more enough, Option.bind_some, writes]
        rfl
      · intro data held
        rw [content]
        exact holds data (by rwa [same, whole] at held)
  | true =>
      have room : ∀ buf, cached = .separate buf → original.length ≤ buf.length := by
        rintro buf rfl
        have same := congrArg List.length (holds _ rfl)
        rw [List.length_take] at same
        omega
      obtain ⟨cached', retaken, content⟩ := CachedBuf.retakeMem_content fits kept.fits room
      refine ⟨⟨t.st.len, t.inBuf, cached', t.inBuf.take t.st.len⟩, fun more enough => ?_,
        kept.blocks, kept.blocks.sublist, prefix_kept, four, kept.trace, fits, kept.length, content,
        rfl⟩
      rw [trimCaseContent, runs more enough, Option.bind_some, if_pos writes,
        readBytes_of_le (by omega), Option.bind_some, retaken]
      rfl

/-- Eight bytes of which only the first two matter to the target, cached in another buffer. -/
theorem trimCase_keeps_behaviour_eight :
    ∃ (rounds : ℕ) (done : Trimmed), (∀ more, rounds ≤ more →
      trimCaseContent more (fun data => BitVec.ofNat 64 (data.take 2).length) 2
        (List.replicate 8 7) (.separate (List.replicate 9 7)) = some done) ∧
      done.disk = done.inBuf.take done.len := by
  have holds : ∀ data, (CachedBuf.separate (List.replicate 9 7)).content (List.replicate 8 7)
      (List.replicate 8 (7 : Byte)).length = some data → data = List.replicate 8 7 :=
    fun _ held => (Option.some.inj held).symm
  obtain ⟨rounds, done, ends, -, -, -, -, -, -, -, -, disk⟩ := trimCase_keeps_behaviour
    (fun data => BitVec.ofNat 64 (data.take 2).length) (by decide) (by decide) holds
  exact ⟨rounds, done, ends, disk⟩

end GreenFuzz.AflFuzz
