import GreenFuzz.AflFuzz.MutateNumbers

/-!
# The mutator stays in bounds

Before and after each mutation the two buffers have room for `max_len` bytes, and the
case has at least one and at most `max_len` of them (`Room`). A block length lies
between 1 and the limit it is chosen for (`chooseBlockLen_safe`), and each case of
`afl_mutate` is safe where there is room, and leaves it (`mutation_safe`).

**So every access is inside its buffer, every offset is drawn from a range that is not
empty, and no signed arithmetic overflows, whatever is drawn**
(`aflMutate_in_bounds`). The lengths have to be far enough from the end of a `u32`
for the largest block; the callers pass at most `MAX_FILE`.
-/

set_option autoImplicit false

namespace GreenFuzz.AflFuzz

open Library

/-! ## Room for the case -/

/-- There is room for `max_len` bytes, and the case has at least one byte and fits. -/
structure Mutator.Room (M : Mutator) (s : MutState) : Prop where
  buf : s.buf.length = M.maxLen
  tmpBuf : s.tmpBuf.length = M.maxLen
  some_byte : 1 ≤ s.len
  fits : s.len ≤ M.maxLen

/-- The lengths are far enough from the end of a `u32`. -/
structure Mutator.Bounded (M : Mutator) : Prop where
  maxLen : M.maxLen + HAVOC_BLK_XL < 4294967296
  spliceLen : M.spliceBuf.length < 4294967296
  extras : ∀ token ∈ M.extras, token.length ≤ MAX_DICT_FILE
  aExtras : ∀ token ∈ M.aExtras, token.length ≤ MAX_DICT_FILE

theorem Mutator.Bounded.small {M : Mutator} (bounded : M.Bounded) :
    M.maxLen + 32768 < 4294967296 := bounded.maxLen

/-! ## Rules for the parts -/

section Rules

variable {α : Type} {s : MutState} {post : α → MutState → Prop} {limit position count : ℕ}

variable {next : ℕ → Mutating α}

theorem drawBelow_bind (positive : 0 < limit) (rest : ∀ r < limit, Safe (next r) s post) :
    Safe (drawBelow limit >>= next) s post := by
  refine Safe.bind (P := fun r s' => s' = s ∧ r < limit) (Safe.takeFrom ?_) ?_
  · exact fun draws r left drawn => ⟨rfl, randBelow_lt positive drawn⟩
  · rintro r s' ⟨rfl, inside⟩
    exact rest r inside

theorem drawOffset_bind (positive : 0 < limit) (rest : ∀ r < limit, Safe (next r) s post) :
    Safe (drawOffset limit >>= next) s post := by
  rw [drawOffset, bind_assoc]
  exact Safe.attempt_bind positive (drawBelow_bind positive rest)

theorem randNext_bind {next : BitVec 64 → Mutating α} (rest : ∀ r, Safe (next r) s post) :
    Safe (randNext >>= next) s post := by
  refine Safe.bind (P := fun _ s' => s' = s) (Safe.takeFrom fun _ _ _ _ => rfl) ?_
  rintro r s' rfl
  exact rest r

theorem getLen_bind (rest : Safe (next s.len) s post) : Safe (getLen >>= next) s post :=
  Safe.attempt_bind trivial rest

theorem setLen_bind {next : Unit → Mutating α} {len : ℕ}
    (rest : Safe (next ()) { s with len := len } post) : Safe (setLen len >>= next) s post :=
  Safe.attempt_bind trivial rest

theorem readBuf_bind {next : List Byte → Mutating α} (fits : position + count ≤ s.buf.length)
    (rest : ∀ data : List Byte, data.length = count → Safe (next data) s post) :
    Safe (readBuf position count >>= next) s post :=
  Safe.attempt_bind fits (rest _ (length_slice fits))

theorem writeBuf_bind {next : Unit → Mutating α} {data : List Byte}
    (fits : position + data.length ≤ s.buf.length)
    (rest : ∀ buf : List Byte, buf.length = s.buf.length →
      Safe (next ()) { s with buf := buf } post) :
    Safe (writeBuf position data >>= next) s post :=
  Safe.attempt_bind fits (rest _ (length_overwrite fits))

theorem readTmp_bind {next : List Byte → Mutating α} (fits : position + count ≤ s.tmpBuf.length)
    (rest : ∀ data : List Byte, data.length = count → Safe (next data) s post) :
    Safe (readTmp position count >>= next) s post :=
  Safe.attempt_bind fits (rest _ (length_slice fits))

theorem writeTmp_bind {next : Unit → Mutating α} {data : List Byte}
    (fits : position + data.length ≤ s.tmpBuf.length)
    (rest : ∀ tmpBuf : List Byte, tmpBuf.length = s.tmpBuf.length →
      Safe (next ()) { s with tmpBuf := tmpBuf } post) :
    Safe (writeTmp position data >>= next) s post :=
  Safe.attempt_bind fits (rest _ (length_overwrite fits))

theorem editBuf_bind {next : Unit → Mutating α} {edit : Buffer → Buffer}
    (fits : position + count ≤ s.buf.length)
    (rest : ∀ buf : List Byte, buf.length = s.buf.length →
      Safe (next ()) { s with buf := buf } post) :
    Safe (editBuf position count edit >>= next) s post := by
  refine Safe.attempt_bind fits (rest _ ?_)
  rw [List.length_map, List.length_range]

theorem drawOther_bind {other rounds : ℕ} (positive : 0 < limit)
    (rest : ∀ r < limit, r ≠ other → Safe (next r) s post) :
    Safe (drawOther limit other rounds >>= next) s post := by
  refine Safe.bind (P := fun r s' => s' = s ∧ r < limit ∧ r ≠ other) ?_ ?_
  · induction rounds with
    | zero => exact Safe.giveUp
    | succ rounds ih =>
        refine drawOffset_bind positive fun r inside => ?_
        split
        · exact ih
        · rename_i differs
          exact Safe.pure ⟨rfl, inside, differs⟩
  · rintro r s' ⟨rfl, inside, differs⟩
    exact rest r inside differs

end Rules

namespace Mutator

variable {M : Mutator} {s : MutState} {limit : ℕ}

theorem readSplice_bind {α : Type} {post : α → MutState → Prop} {position count : ℕ}
    {next : List Byte → Mutating α} (fits : position + count ≤ M.spliceBuf.length)
    (rest : ∀ data : List Byte, data.length = count → Safe (next data) s post) :
    Safe (M.readSplice position count >>= next) s post :=
  Safe.attempt_bind fits (rest _ (length_slice fits))

/-- The range starts with at least one byte, and ends within the largest block. -/
theorem blockRange_safe : Safe M.blockRange s fun range s' =>
    s' = s ∧ 1 ≤ range.1 ∧ range.1 < range.2 ∧ range.2 ≤ HAVOC_BLK_XL := by
  rw [blockRange]
  refine Safe.bind (P := fun _ s' => s' = s) (Safe.takeFrom fun _ _ _ _ => rfl) ?_
  rintro size s' rfl
  split
  · exact Safe.pure ⟨rfl, by decide⟩
  · split
    · exact Safe.pure ⟨rfl, by decide⟩
    · refine drawBelow_bind (by decide) fun tenth _ => ?_
      split
      · exact Safe.pure ⟨rfl, by decide⟩
      · exact Safe.pure ⟨rfl, by decide⟩

/-- A block length lies between 1 and its limit; without a limit it is 1. -/
theorem chooseBlockLen_safe (small : limit < 4294967296) :
    Safe (M.chooseBlockLen limit) s fun n s' =>
      s' = s ∧ 1 ≤ n ∧ n ≤ HAVOC_BLK_XL ∧ (1 ≤ limit → n ≤ limit) ∧ (limit = 0 → n = 1) := by
  rw [chooseBlockLen]
  refine Safe.bind blockRange_safe ?_
  rintro ⟨minValue, maxValue⟩ s' ⟨rfl, some_byte, order, most⟩
  simp only [HAVOC_BLK_XL] at some_byte order most ⊢
  have start : (if limit ≤ minValue then 1 else minValue) = 1 ∧ limit ≤ minValue ∨
      (if limit ≤ minValue then 1 else minValue) = minValue ∧ minValue < limit := by
    split
    · exact .inl ⟨rfl, ‹_›⟩
    · exact .inr ⟨rfl, by omega⟩
  generalize (if limit ≤ minValue then 1 else minValue) = first at start
  by_cases unlimited : limit = 0
  · obtain rfl : first = 1 := by omega
    subst unlimited
    have wraps : u32 (u32Sub (min maxValue 0) 1 + 1) = 0 := by
      rw [Nat.min_zero]
      decide
    rw [wraps]
    refine Safe.bind (P := fun r s'' => s'' = s' ∧ r = 0) (Safe.takeFrom ?_) ?_
    · intro draws r left drawn
      exact ⟨rfl, (congrArg Prod.fst (Option.some.inj drawn)).symm⟩
    · rintro r s'' ⟨rfl, rfl⟩
      exact Safe.pure ⟨rfl, by decide⟩
  · have width : u32 (u32Sub (min maxValue limit) first + 1) = min maxValue limit - first + 1 := by
      rw [u32Sub_of_le (by omega) (by omega), u32_of_lt (by omega)]
    rw [width]
    refine drawBelow_bind (by omega) fun r inside => ?_
    rw [u32_of_lt (by omega)]
    exact Safe.pure ⟨rfl, by omega, by omega, fun _ => by omega, fun none_left => by omega⟩

theorem block_bind {α : Type} {post : α → MutState → Prop} {next : ℕ → Mutating α}
    (small : limit < 4294967296) (positive : 1 ≤ limit)
    (rest : ∀ n, 1 ≤ n → n ≤ limit → n ≤ 32768 → Safe (next n) s post) :
    Safe (M.chooseBlockLen limit >>= next) s post := by
  refine Safe.bind (chooseBlockLen_safe small) ?_
  rintro n s' ⟨rfl, some_byte, most, inside, -⟩
  exact rest n some_byte (inside positive) most

/-! ## Numbers in the case -/

/-- What is found in a buffer is used. -/
theorem lookIn_bind {α β : Type} {post : β → MutState → Prop} {look : List Byte → Option α}
    {next : α → Mutating β} {a : α} (found : look s.buf = some a) (rest : Safe (next a) s post) :
    Safe (lookIn look >>= next) s post := by
  rw [lookIn, bind_assoc]
  refine Safe.attempt_bind (by rw [found]; rfl) ?_
  simp only [found]
  exact Safe.bind (P := fun a' s' => a' = a ∧ s' = s) (Safe.pure ⟨rfl, rfl⟩)
    fun _ _ same => same.1 ▸ same.2 ▸ rest

/-- No strategy overflows, and the number loses at most its last digit. -/
theorem newNumber_safe {strat off2 : ℕ} {val : ℤ} (least : -INT64_MAX ≤ val)
    (most : val ≤ INT64_MAX) :
    Safe (newNumber strat val off2) s fun result s' =>
      s' = s ∧ result.2 ≤ off2 ∧ off2 ≤ result.2 + 1 := by
  refine ⟨fun draws => ?_⟩
  rcases newNumber_outcome least most with
    ⟨failed, -⟩ | ⟨val', off2', rest, ran, -, -, -, dropped, -⟩
  · rw [failed]
    rfl
  · rw [ran]
    exact ⟨rfl, by omega, by omega⟩

/-! ## The cases -/

/-- What a case leaves. -/
abbrev Leaves (M : Mutator) : StepEnd → MutState → Prop := fun _ s => M.Room s

section Cases

variable (bounded : M.Bounded) (room : M.Room s)

include bounded room

omit bounded in
theorem tooLong_safe {len : ℕ} : Safe (tooLong len) s M.Leaves :=
  Safe.pure room

theorem mutSetNumber_safe {w size : ℕ} {values : List (BitVec w)}
    {put : Buffer → ℕ → BitVec w → Buffer} (some_value : 0 < values.length) (positive : 1 ≤ size) :
    Safe (mutSetNumber size values put) s M.Leaves := by
  obtain ⟨buf, tmpBuf, some_byte, fits⟩ := room
  have small := bounded.small
  refine getLen_bind ?_
  split
  · exact Safe.pure ⟨buf, tmpBuf, some_byte, fits⟩
  · refine drawBelow_bind some_value fun item _ => ?_
    rw [u32Sub_of_le (by omega) (by omega)]
    refine drawOffset_bind (by omega) fun position inside => ?_
    refine editBuf_bind (by omega) fun buf' same => ?_
    exact Safe.pure ⟨same.trans buf, tmpBuf, some_byte, fits⟩

theorem mutChangeNumber_safe {size : ℕ} {update : Buffer → ℕ → BitVec 32 → Buffer}
    (positive : 1 ≤ size) : Safe (mutChangeNumber size update) s M.Leaves := by
  obtain ⟨buf, tmpBuf, some_byte, fits⟩ := room
  have small := bounded.small
  refine getLen_bind ?_
  split
  · exact Safe.pure ⟨buf, tmpBuf, some_byte, fits⟩
  · rw [u32Sub_of_le (by omega) (by omega)]
    refine drawOffset_bind (by omega) fun position inside => ?_
    refine drawBelow_bind (by decide) fun item _ => ?_
    refine editBuf_bind (by omega) fun buf' same => ?_
    exact Safe.pure ⟨same.trans buf, tmpBuf, some_byte, fits⟩

omit bounded in
theorem mutChangeByte_safe {items : ℕ} {change : Byte → ℕ → Byte} (positive : 0 < items) :
    Safe (mutChangeByte items change) s M.Leaves := by
  obtain ⟨buf, tmpBuf, some_byte, fits⟩ := room
  refine getLen_bind ?_
  refine drawBelow_bind positive fun item _ => ?_
  refine drawOffset_bind some_byte fun position inside => ?_
  refine editBuf_bind (by omega) fun buf' same => ?_
  exact Safe.pure ⟨same.trans buf, tmpBuf, some_byte, fits⟩

omit bounded in
theorem mutRand8_safe : Safe mutRand8 s M.Leaves := by
  obtain ⟨buf, tmpBuf, some_byte, fits⟩ := room
  refine getLen_bind ?_
  refine drawOffset_bind some_byte fun position inside => ?_
  refine drawBelow_bind (by decide) fun item _ => ?_
  refine editBuf_bind (by omega) fun buf' same => ?_
  exact Safe.pure ⟨same.trans buf, tmpBuf, some_byte, fits⟩

omit bounded in
theorem mutOneByte_safe {change : Byte → Byte} : Safe (mutOneByte change) s M.Leaves := by
  obtain ⟨buf, tmpBuf, some_byte, fits⟩ := room
  refine getLen_bind ?_
  refine drawOffset_bind some_byte fun position inside => ?_
  refine editBuf_bind (by omega) fun buf' same => ?_
  exact Safe.pure ⟨same.trans buf, tmpBuf, some_byte, fits⟩

/-- A block is inserted where the longer case still fits. -/
theorem insertBlock_safe {cloneTo : ℕ} {block : List Byte} (inside : cloneTo ≤ s.len)
    (longer : s.len + block.length ≤ M.maxLen) : Safe (insertBlock cloneTo block) s M.Leaves := by
  obtain ⟨buf, tmpBuf, some_byte, fits⟩ := room
  have small := bounded.small
  refine getLen_bind ?_
  refine readBuf_bind (by omega) fun head length => ?_
  refine writeTmp_bind (by omega) fun tmp₁ same₁ => ?_
  refine writeTmp_bind (by simp only; omega) fun tmp₂ same₂ => ?_
  rw [u32Sub_of_le inside (by omega), u32_of_lt (by omega)]
  refine readBuf_bind (by simp only; omega) fun tail tailLength => ?_
  refine writeTmp_bind (by simp only at *; omega) fun tmp₃ same₃ => ?_
  refine setLen_bind ?_
  refine readTmp_bind (by simp only at *; omega) fun data dataLength => ?_
  refine writeBuf_bind (by simp only; omega) fun buf' same => ?_
  simp only at same₂ same₃ same
  exact Safe.pure ⟨same.trans buf, by simp only; omega, by simp only; omega, longer⟩

omit bounded in
/-- The byte of a block of equal bytes changes nothing. -/
theorem fixedByte_bind {position : ℕ} {next : Byte → Mutating StepEnd} (inside : position < s.len)
    (rest : ∀ byte, Safe (next byte) s M.Leaves) :
    Safe (fixedByte position >>= next) s M.Leaves := by
  have buf := room.buf
  have fits := room.fits
  refine Safe.bind (P := fun _ s' => s' = s) ?_ ?_
  · refine drawBelow_bind (by decide) fun strat _ => ?_
    split
    · exact drawBelow_bind (by decide) fun item _ => Safe.pure rfl
    · have earlier : before position ≤ position := by
        rw [before]
        split <;> omega
      exact readBuf_bind (by omega) fun bytes _ => Safe.pure rfl
  · rintro byte s' rfl
    exact rest byte

theorem mutCloneCopy_safe : Safe M.mutCloneCopy s M.Leaves := by
  have small := bounded.small
  have buf := room.buf
  have fits := room.fits
  have some_byte := room.some_byte
  refine getLen_bind ?_
  rw [HAVOC_BLK_XL, u32_of_lt (by omega)]
  split
  · refine block_bind (by omega) some_byte fun cloneLen positive within most => ?_
    rw [u32Sub_of_le within (by omega), u32_of_lt (by omega)]
    refine drawOffset_bind (by omega) fun cloneFrom fromInside => ?_
    refine drawOffset_bind some_byte fun cloneTo toInside => ?_
    refine readBuf_bind (by omega) fun block length => ?_
    exact insertBlock_safe bounded room toInside.le (by omega)
  · exact tooLong_safe room

theorem mutCloneFixed_safe : Safe M.mutCloneFixed s M.Leaves := by
  have small := bounded.small
  have fits := room.fits
  refine getLen_bind ?_
  rw [HAVOC_BLK_XL, u32_of_lt (by omega)]
  split
  · refine block_bind (by decide) (by decide) fun cloneLen positive within most => ?_
    refine drawOffset_bind room.some_byte fun cloneTo toInside => ?_
    refine fixedByte_bind room toInside fun item => ?_
    exact insertBlock_safe bounded room toInside.le (by rw [List.length_replicate]; omega)
  · exact tooLong_safe room

theorem mutOverwriteCopy_safe : Safe M.mutOverwriteCopy s M.Leaves := by
  have small := bounded.small
  obtain ⟨buf, tmpBuf, some_byte, fits⟩ := room
  refine getLen_bind ?_
  split
  · exact Safe.pure ⟨buf, tmpBuf, some_byte, fits⟩
  · rw [u32Sub_of_le some_byte (by omega)]
    refine block_bind (by omega) (by omega) fun copyLen positive within most => ?_
    rw [u32Sub_of_le (by omega) (by omega), u32_of_lt (by omega)]
    refine drawOffset_bind (by omega) fun copyFrom fromInside => ?_
    refine drawOffset_bind (by omega) fun copyTo toInside => ?_
    split
    · refine readBuf_bind (by omega) fun block length => ?_
      refine writeBuf_bind (by omega) fun buf' same => ?_
      exact Safe.pure ⟨same.trans buf, tmpBuf, some_byte, fits⟩
    · exact Safe.pure ⟨buf, tmpBuf, some_byte, fits⟩

theorem mutOverwriteFixed_safe : Safe M.mutOverwriteFixed s M.Leaves := by
  have small := bounded.small
  have buf := room.buf
  have fits := room.fits
  have some_byte := room.some_byte
  refine getLen_bind ?_
  split
  · exact Safe.pure room
  · rw [u32Sub_of_le some_byte (by omega)]
    refine block_bind (by omega) (by omega) fun copyLen positive within most => ?_
    rw [u32Sub_of_le (by omega) (by omega), u32_of_lt (by omega)]
    refine drawOffset_bind (by omega) fun copyTo toInside => ?_
    refine fixedByte_bind room (by omega) fun item => ?_
    refine writeBuf_bind (by rw [List.length_replicate]; omega) fun buf' same => ?_
    exact Safe.pure ⟨same.trans buf, room.tmpBuf, some_byte, fits⟩

theorem mutSwitch_safe {rounds : ℕ} : Safe (M.mutSwitch rounds) s M.Leaves := by
  have small := bounded.small
  obtain ⟨buf, tmpBuf, some_byte, fits⟩ := room
  refine getLen_bind ?_
  split
  · exact Safe.pure ⟨buf, tmpBuf, some_byte, fits⟩
  · refine drawOffset_bind some_byte fun switchFrom fromInside => ?_
    refine drawOther_bind some_byte fun switchTo toInside differs => ?_
    have lengths : ∃ switchLen toEnd,
        (if switchFrom < switchTo then (u32Sub switchTo switchFrom, u32Sub s.len switchTo)
          else (u32Sub switchFrom switchTo, u32Sub s.len switchFrom)) = (switchLen, toEnd) ∧
        1 ≤ min switchLen toEnd ∧ switchFrom + min switchLen toEnd ≤ s.len ∧
        switchTo + min switchLen toEnd ≤ s.len := by
      split
      · refine ⟨_, _, rfl, ?_⟩
        rw [u32Sub_of_le (by omega) (by omega), u32Sub_of_le (by omega) (by omega)]
        omega
      · refine ⟨_, _, rfl, ?_⟩
        rw [u32Sub_of_le (by omega) (by omega), u32Sub_of_le (by omega) (by omega)]
        omega
    obtain ⟨switchLen, toEnd, same, positive, fromFits, toFits⟩ := lengths
    rw [same]
    refine block_bind (by omega) positive fun blockLen some_length within most => ?_
    refine readBuf_bind (by omega) fun backup length => ?_
    refine writeTmp_bind (by omega) fun tmp₁ sameTmp => ?_
    refine readBuf_bind (by simp only; omega) fun other otherLength => ?_
    refine writeBuf_bind (by simp only; omega) fun buf₁ same₁ => ?_
    refine readTmp_bind (by simp only at *; omega) fun backup' length' => ?_
    refine writeBuf_bind (by simp only at *; omega) fun buf₂ same₂ => ?_
    simp only at same₁ same₂
    exact Safe.pure ⟨by simp only; omega, by simp only; omega, some_byte, fits⟩

theorem deleteBlock_safe {delLen : ℕ} (less : delLen < s.len) :
    Safe (deleteBlock delLen) s M.Leaves := by
  have small := bounded.small
  obtain ⟨buf, tmpBuf, some_byte, fits⟩ := room
  refine getLen_bind ?_
  rw [u32Sub_of_le less.le (by omega), u32_of_lt (by omega)]
  refine drawOffset_bind (by omega) fun delFrom inside => ?_
  have behind : u32Sub s.len delFrom = s.len - delFrom := u32Sub_of_le (by omega) (by omega)
  rw [behind, u32Sub_of_le (by omega) (by omega)]
  refine readBuf_bind (by omega) fun tail length => ?_
  refine writeBuf_bind (by omega) fun buf' same => ?_
  refine setLen_bind ?_
  exact Safe.pure ⟨same.trans buf, tmpBuf, Nat.le_sub_of_add_le (by omega),
    Nat.le_trans (Nat.sub_le _ _) fits⟩

theorem mutDel_safe : Safe M.mutDel s M.Leaves := by
  have small := bounded.small
  have fits := room.fits
  refine getLen_bind ?_
  split
  · exact Safe.pure room
  · rw [u32Sub_of_le room.some_byte (by omega)]
    refine block_bind (by omega) (by omega) fun delLen positive within most => ?_
    exact deleteBlock_safe bounded room (by omega)

theorem mutDelone_safe : Safe mutDelone s M.Leaves := by
  refine getLen_bind ?_
  split
  · exact Safe.pure room
  · have less : 1 < s.len := by omega
    exact deleteBlock_safe bounded room less

omit bounded in
/-- The loop of the shuffle, by induction on the index. -/
theorem shuffleFrom_safe {rounds off i : ℕ} (inside : off + i < s.len) :
    Safe (shuffleFrom rounds off i) s fun _ s' => M.Room s' := by
  induction i generalizing s with
  | zero => exact Safe.pure room
  | succ i ih =>
      have buf := room.buf
      have fits := room.fits
      refine drawOther_bind (by omega) fun j jInside differs => ?_
      refine readBuf_bind (by omega) fun temp length => ?_
      refine readBuf_bind (by omega) fun other otherLength => ?_
      refine writeBuf_bind (by omega) fun buf₁ same₁ => ?_
      refine writeBuf_bind (by simp only; omega) fun buf₂ same₂ => ?_
      simp only at same₂
      exact ih ⟨by simp only; omega, room.tmpBuf, room.some_byte, fits⟩ (by simp only; omega)

theorem mutShuffle_safe {rounds : ℕ} : Safe (M.mutShuffle rounds) s M.Leaves := by
  have small := bounded.small
  have fits := room.fits
  refine getLen_bind ?_
  split
  · exact Safe.pure room
  · rw [u32Sub_of_le room.some_byte (by omega)]
    refine block_bind (by omega) (by omega) fun blen positive within most => ?_
    rw [u32Sub_of_le (by omega) (by omega), u32_of_lt (by omega), u32Sub_of_le positive (by omega)]
    refine drawOffset_bind (by omega) fun off inside => ?_
    exact Safe.bind (shuffleFrom_safe room (by omega)) fun _ s' room' => Safe.pure room'

theorem mutInsertone_safe : Safe M.mutInsertone s M.Leaves := by
  have small := bounded.small
  have fits := room.fits
  refine getLen_bind ?_
  rw [u32_of_lt (by omega)]
  split
  · exact Safe.pure room
  · split
    · exact Safe.pure room
    · refine drawOffset_bind room.some_byte fun cloneTo toInside => ?_
      refine fixedByte_bind room toInside fun item => ?_
      exact insertBlock_safe bounded room toInside.le (by rw [List.length_singleton]; omega)

/-- A number is replaced where it is, and by a number that fits. -/
theorem replaceNumber_safe {off off2 : ℕ} {val : ℤ} (order : off ≤ off2) (inside : off2 ≤ s.len) :
    Safe (M.replaceNumber off off2 val) s M.Leaves := by
  have small := bounded.small
  have ⟨some_digit, digits⟩ := length_numbuf val
  obtain ⟨buf, tmpBuf, some_byte, fits⟩ := room
  refine getLen_bind ?_
  simp only
  generalize numbuf val = text at *
  rw [u32Sub_of_le order (by omega)]
  split
  · refine writeBuf_bind (by omega) fun buf' same => ?_
    exact Safe.pure ⟨same.trans buf, tmpBuf, some_byte, fits⟩
  · have longer : u32Sub (u32 (off + text.length + s.len)) off2 =
        off + text.length + (s.len - off2) := by
      simp only [u32Sub, u32]
      omega
    rw [longer]
    split
    · exact Safe.pure ⟨buf, tmpBuf, some_byte, fits⟩
    · rename_i shorter
      have newLen : u32 (s.len + u32Sub text.length (off2 - off)) =
          off + text.length + (s.len - off2) := by
        simp only [u32Sub, u32]
        omega
      rw [newLen, u32Sub_of_le inside (by omega)]
      refine readBuf_bind (by omega) fun head length => ?_
      refine writeTmp_bind (by omega) fun tmp₁ same₁ => ?_
      refine writeTmp_bind (by simp only; omega) fun tmp₂ same₂ => ?_
      refine readBuf_bind (by simp only; omega) fun tail tailLength => ?_
      refine writeTmp_bind (by simp only at *; omega) fun tmp₃ same₃ => ?_
      refine setLen_bind ?_
      refine readTmp_bind (by simp only at *; omega) fun data dataLength => ?_
      refine writeBuf_bind (by simp only; omega) fun buf' same => ?_
      simp only at same₂ same₃ same
      exact Safe.pure ⟨same.trans buf, by simp only; omega, by simp only; omega,
        by simp only; omega⟩

theorem mutAsciinum_safe : Safe M.mutAsciinum s M.Leaves := by
  have fits : s.len ≤ s.buf.length := room.buf ▸ room.fits
  refine getLen_bind ?_
  split
  · exact Safe.pure room
  · refine drawOffset_bind room.some_byte fun off inside => ?_
    obtain ⟨place, found, within⟩ := findNumber_found fits inside
    refine lookIn_bind found ?_
    cases place with
    | nowhere => exact tooLong_safe room
    | «at» first off2 =>
        obtain ⟨some_byte, last⟩ := within first off2 rfl
        obtain ⟨val, stop, parsed, after, before, least, most⟩ :=
          parseNumber_found (last.trans fits) some_byte
        refine lookIn_bind parsed ?_
        refine drawBelow_bind (by decide) fun strat _ => ?_
        refine Safe.bind (newNumber_safe least most) ?_
        rintro ⟨val', off2'⟩ s' ⟨rfl, less, more⟩
        exact replaceNumber_safe bounded room (by simp only at *; omega) (by simp only at *; omega)

omit bounded in
theorem mutInsertasciinum_safe : Safe mutInsertasciinum s M.Leaves := by
  obtain ⟨buf, tmpBuf, some_byte, fits⟩ := room
  refine getLen_bind ?_
  rw [← bind_pure_comp, bind_assoc]
  refine drawBelow_bind (by decide) fun more _ => ?_
  rw [pure_bind]
  refine drawOffset_bind some_byte fun position inside => ?_
  split
  · exact tooLong_safe ⟨buf, tmpBuf, some_byte, fits⟩
  · refine randNext_bind fun val => ?_
    have lengths : ∃ insLen off, (if (decimalNat val.toNat).length < 1 + more
          then ((decimalNat val.toNat).length, 0)
          else (1 + more, (decimalNat val.toNat).length - (1 + more))) = (insLen, off) ∧
        insLen ≤ 1 + more ∧ off + insLen ≤ (decimalNat val.toNat).length := by
      split
      · exact ⟨_, _, rfl, by omega, by omega⟩
      · exact ⟨_, _, rfl, le_rfl, by omega⟩
    obtain ⟨insLen, off, same, less, within⟩ := lengths
    simp only [same]
    refine writeBuf_bind (by rw [length_slice within]; omega) fun buf' same => ?_
    exact Safe.pure ⟨same.trans buf, tmpBuf, some_byte, fits⟩

/-! ## Dictionaries and splicing -/

theorem extraOver_safe {dictionary : List Token} : Safe (extraOver dictionary) s M.Leaves := by
  have small := bounded.small
  obtain ⟨buf, tmpBuf, some_byte, fits⟩ := room
  refine getLen_bind ?_
  split
  · exact Safe.pure ⟨buf, tmpBuf, some_byte, fits⟩
  · refine drawOffset_bind (by omega) fun useExtra _ => ?_
    simp only
    generalize dictionary.getD useExtra [] = extra
    split
    · exact Safe.pure ⟨buf, tmpBuf, some_byte, fits⟩
    · rw [u32Sub_of_le (by omega) (by omega), u32_of_lt (by omega)]
      refine drawOffset_bind (by omega) fun insertAt inside => ?_
      refine writeBuf_bind (by omega) fun buf' same => ?_
      exact Safe.pure ⟨same.trans buf, tmpBuf, some_byte, fits⟩

theorem extraInsert_safe {dictionary : List Token}
    (tokens : ∀ token ∈ dictionary, token.length ≤ MAX_DICT_FILE) :
    Safe (M.extraInsert dictionary) s M.Leaves := by
  have small := bounded.small
  obtain ⟨buf, tmpBuf, some_byte, fits⟩ := room
  refine getLen_bind ?_
  split
  · exact Safe.pure ⟨buf, tmpBuf, some_byte, fits⟩
  · refine drawOffset_bind (by omega) fun useExtra inDictionary => ?_
    simp only
    have short : (dictionary.getD useExtra []).length ≤ 128 := by
      rw [List.getD_eq_getElem?_getD, List.getElem?_eq_getElem inDictionary]
      exact tokens _ (List.getElem_mem inDictionary)
    generalize dictionary.getD useExtra [] = extra at short
    rw [u32_of_lt (by omega), u32_of_lt (by omega)]
    split
    · exact Safe.pure ⟨buf, tmpBuf, some_byte, fits⟩
    · refine drawOffset_bind (Nat.zero_lt_succ _) fun insertAt inside => ?_
      rw [u32Sub_of_le (by omega) (by omega)]
      refine readBuf_bind (by omega) fun tail length => ?_
      refine writeBuf_bind (by omega) fun buf₁ same₁ => ?_
      refine writeBuf_bind (by simp only; omega) fun buf₂ same₂ => ?_
      refine setLen_bind ?_
      simp only at same₂
      exact Safe.pure ⟨by simp only; omega, tmpBuf, by simp only; omega, by simp only; omega⟩

theorem mutSpliceOverwrite_safe : Safe M.mutSpliceOverwrite s M.Leaves := by
  have small := bounded.small
  have spliceSmall := bounded.spliceLen
  obtain ⟨buf, tmpBuf, some_byte, fits⟩ := room
  refine getLen_bind ?_
  simp only
  split
  · exact Safe.pure ⟨buf, tmpBuf, some_byte, fits⟩
  · rw [u32Sub_of_le (b := 1) (by omega) spliceSmall]
    refine Safe.bind (chooseBlockLen_safe (by omega)) ?_
    -- A splice buffer of one byte has a block of one byte chosen, without a limit.
    rintro chosen s' ⟨rfl, positive, -, within, alone⟩
    have lengths : ∃ copyLen, (if s'.len < chosen then s'.len else chosen) = copyLen ∧
        1 ≤ copyLen ∧ copyLen ≤ s'.len ∧ copyLen ≤ M.spliceBuf.length := by
      split
      · exact ⟨_, rfl, some_byte, le_rfl, by omega⟩
      · exact ⟨_, rfl, positive, by omega, by omega⟩
    obtain ⟨copyLen, same, some_length, inCase, inSplice⟩ := lengths
    rw [same, u32Sub_of_le inSplice spliceSmall, u32Sub_of_le inCase (by omega),
      u32_of_lt (by omega), u32_of_lt (by omega)]
    refine drawOffset_bind (by omega) fun copyFrom fromInside => ?_
    refine drawOffset_bind (by omega) fun copyTo toInside => ?_
    refine readSplice_bind (by omega) fun block length => ?_
    refine writeBuf_bind (by omega) fun buf' same => ?_
    exact Safe.pure ⟨same.trans buf, tmpBuf, some_byte, fits⟩

theorem mutSpliceInsert_safe : Safe M.mutSpliceInsert s M.Leaves := by
  have small := bounded.small
  have spliceSmall := bounded.spliceLen
  have fits := room.fits
  refine getLen_bind ?_
  simp only
  split
  · exact Safe.pure room
  · rw [HAVOC_BLK_XL, u32_of_lt (by omega)]
    split
    · exact Safe.pure room
    · refine block_bind spliceSmall (by omega) fun cloneLen positive within most => ?_
      rw [u32Sub_of_le within spliceSmall, u32_of_lt (by omega), u32_of_lt (by omega)]
      refine drawOffset_bind (by omega) fun cloneFrom fromInside => ?_
      refine drawOffset_bind (Nat.zero_lt_succ _) fun cloneTo toInside => ?_
      refine readSplice_bind (by omega) fun block length => ?_
      exact insertBlock_safe bounded room (by omega) (by omega)

/-! ## The whole mutator -/

/-- One case: whatever it draws, it stays in bounds and leaves a case that fits. -/
theorem mutation_safe (rounds : ℕ) (kind : Mutation) :
    Safe (M.mutation rounds kind) s M.Leaves := by
  cases kind with
  | flipbit =>
      rw [mutation, mutFlipbit]
      exact mutChangeByte_safe room (by decide)
  | interesting8 =>
      rw [mutation, mutInteresting8]
      exact mutChangeByte_safe room (by decide)
  | interesting16 | interesting16be | interesting32 | interesting32be =>
      rw [mutation]
      exact mutSetNumber_safe bounded room (by decide) (by decide)
  | arith8_ =>
      rw [mutation, mutArith8_]
      exact mutChangeByte_safe room (by decide)
  | arith8 =>
      rw [mutation, mutArith8]
      exact mutChangeByte_safe room (by decide)
  | arith16_ | arith16be_ | arith16 | arith16be | arith32_ | arith32be_ | arith32 | arith32be =>
      rw [mutation]
      exact mutChangeNumber_safe bounded room (by decide)
  | rand8 => exact mutRand8_safe room
  | cloneCopy => exact mutCloneCopy_safe bounded room
  | cloneFixed => exact mutCloneFixed_safe bounded room
  | overwriteCopy => exact mutOverwriteCopy_safe bounded room
  | overwriteFixed => exact mutOverwriteFixed_safe bounded room
  | byteadd | bytesub | flip8 =>
      rw [mutation]
      exact mutOneByte_safe room
  | switch => exact mutSwitch_safe bounded room
  | del => exact mutDel_safe bounded room
  | shuffle => exact mutShuffle_safe bounded room
  | delone => exact mutDelone_safe bounded room
  | insertone => exact mutInsertone_safe bounded room
  | asciinum => exact mutAsciinum_safe bounded room
  | insertasciinum => exact mutInsertasciinum_safe room
  | extraOverwrite | autoExtraOverwrite =>
      rw [mutation]
      exact extraOver_safe bounded room
  | extraInsert => exact extraInsert_safe bounded room bounded.extras
  | autoExtraInsert => exact extraInsert_safe bounded room bounded.aExtras
  | spliceOverwrite => exact mutSpliceOverwrite_safe bounded room
  | spliceInsert => exact mutSpliceInsert_safe bounded room

/-- One step, by induction on the cases that are drawn. -/
theorem havocStep_safe (rounds tries : ℕ) :
    Safe (M.havocStep rounds tries) s fun _ s' => M.Room s' := by
  induction tries generalizing s with
  | zero => exact Safe.giveUp
  | succ tries ih =>
      refine drawBelow_bind (by decide) fun r _ => ?_
      refine Safe.bind (mutation_safe bounded room rounds _) fun ended s' room' => ?_
      split
      · exact Safe.pure room'
      · exact ih room'

/-- All steps, by induction on their number. -/
theorem havocSteps_safe (rounds steps : ℕ) :
    Safe (M.havocSteps rounds steps) s fun _ s' => M.Room s' := by
  induction steps generalizing s with
  | zero => exact Safe.pure room
  | succ steps ih =>
      exact Safe.bind (havocStep_safe bounded room rounds rounds) fun _ s' room' => ih room'

end Cases

/-- **`afl_mutate` stays in bounds**: for every number of steps, every strategy table, every
dictionary and splice buffer and all draws there is no access outside a buffer and no
offset from an empty range, and the case that is left has at least one byte and fits. A
block length lies between 1 and its limit. -/
theorem aflMutate_in_bounds (M : Mutator) (bounded : M.Bounded) (s : MutState) (room : M.Room s)
    (rounds steps : ℕ) :
    Safe (M.aflMutate rounds steps) s (fun len s' => len = s'.len ∧ M.Room s') ∧
      Safe (M.havocSteps rounds steps) s (fun _ s' => M.Room s') ∧
      ∀ limit, 1 ≤ limit → limit < 4294967296 →
        Safe (M.chooseBlockLen limit) s fun n s' => s' = s ∧ 1 ≤ n ∧ n ≤ limit := by
  have run := havocSteps_safe bounded room rounds steps
  refine ⟨?_, run, ?_⟩
  · refine getLen_bind ?_
    split
    · rename_i empty
      exact absurd room.some_byte (by omega)
    · refine Safe.bind run fun _ s' room' => ?_
      exact Safe.attempt trivial ⟨rfl, room'⟩
  · intro limit positive small
    refine Safe.mono (chooseBlockLen_safe small) ?_
    rintro n s' ⟨same, some_byte, -, within, -⟩
    exact ⟨same, some_byte, within positive⟩

/-- A mutator that replaces numbers, with room for eight bytes. -/
def numbersOnly : Mutator where
  mutationArray _ := .asciinum
  queueCycle := 1
  runOver10m := false
  extras := []
  aExtras := []
  spliceBuf := []
  maxLen := 8

theorem numbersOnly_bounded : numbersOnly.Bounded := ⟨by decide, by decide, by decide, by decide⟩

theorem aflMutate_in_bounds_eight :
    Safe (numbersOnly.aflMutate 10 3) ⟨List.replicate 8 49, List.replicate 8 0, 5⟩
      (fun len s' => len = s'.len ∧ numbersOnly.Room s') :=
  (aflMutate_in_bounds numbersOnly numbersOnly_bounded _ ⟨rfl, rfl, by decide, by decide⟩ 10 3).1

/-- The number 9999 becomes -10000. -/
example : ((numbersOnly.aflMutate 10 1) ⟨[57, 57, 57, 57, 0, 0, 0, 0], List.replicate 8 0, 4⟩
    [0, 0, 7]).toOption.map (fun result => (result.1.1, result.1.2.buf)) =
      some (6, [45, 49, 48, 48, 48, 48, 0, 0]) := by decide

end Mutator

end GreenFuzz.AflFuzz
