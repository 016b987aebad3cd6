import GreenFuzz.AflFuzz.AsciiNumber

/-!
# Whether the ascii-number mutation writes the number it computed

The new number is printed into `numbuf`, with `sizeof(buf)` as the size, which is the size
of a pointer. So a text with more than seven characters is cut, and the case shows other
digits than those of the number.

**The mutation writes the number it computed exactly if that number is short enough**, or
nothing is written at all (`asciinum_writes_iff`). The condition is one on the number in
the text and the strategy that is drawn (`TextFits`).
-/

set_option autoImplicit false

namespace GreenFuzz.AflFuzz

open Library

/-- The case without the bytes behind it. -/
def MutState.content (s : MutState) : List Byte := s.buf.take s.len

/-! ## Runs of the parts -/

section Runs

variable {s : MutState} {draws : Draws} {position count : ℕ} {data : List Byte}

theorem run_getLen : getLen s draws = .ok ((s.len, s), draws) := run_attempt trivial

theorem run_drawOffset {limit : ℕ} (positive : 0 < limit) :
    drawOffset limit s draws = drawBelow limit s draws := by
  have allowed : (attempt (fun _ => 0 < limit) fun s => ((), s) : Mutating Unit) s draws =
      .ok (((), s), draws) := run_attempt positive
  rw [drawOffset, run_bind allowed]

theorem run_lookIn {α : Type} {look : List Byte → Option α} {a : α} (found : look s.buf = some a) :
    lookIn look s draws = .ok ((a, s), draws) := by
  have allowed : (attempt (fun s => (look s.buf).isSome) fun s => (look s.buf, s) :
      Mutating (Option α)) s draws = .ok ((look s.buf, s), draws) :=
    run_attempt (by rw [found]; rfl)
  rw [lookIn, run_bind allowed, found]
  rfl

theorem run_setLen {len : ℕ} : setLen len s draws = .ok (((), { s with len := len }), draws) :=
  run_attempt trivial

theorem run_readBuf (fits : position + count ≤ s.buf.length) :
    readBuf position count s draws = .ok ((slice s.buf position count, s), draws) :=
  run_attempt fits

theorem run_writeBuf (fits : position + data.length ≤ s.buf.length) :
    writeBuf position data s draws =
      .ok (((), { s with buf := overwrite s.buf position data }), draws) :=
  run_attempt fits

theorem run_readTmp (fits : position + count ≤ s.tmpBuf.length) :
    readTmp position count s draws = .ok ((slice s.tmpBuf position count, s), draws) :=
  run_attempt fits

theorem run_writeTmp (fits : position + data.length ≤ s.tmpBuf.length) :
    writeTmp position data s draws =
      .ok (((), { s with tmpBuf := overwrite s.tmpBuf position data }), draws) :=
  run_attempt fits

end Runs

/-! ## Replacing a number -/

/-- What the case computes before it prints: where the number stands, where what is replaced
ends, and the new number. -/
def asciinumNumber : Mutating (Option (ℕ × ℕ × ℤ)) := do
  let len ← getLen
  if len < 4 then pure none
  else do
    let off ← drawOffset len
    let place ← lookIn fun buf => findNumber buf len off
    match place with
    | .nowhere => pure none
    | .at off off2 => do
        let (val, off2) ← lookIn fun buf => parseNumber buf off off2
        let strat ← drawBelow 8
        let (val, off2) ← newNumber strat val off2
        pure (some (off, off2, val))

namespace Mutator

variable {M : Mutator} {s : MutState} {off off2 : ℕ}

theorem length_content (room : M.Room s) : s.content.length = s.len := by
  rw [MutState.content, List.length_take_of_le (room.buf ▸ room.fits)]

/-- What the end of the case does: there is too little room, or the contents of `numbuf` stand
in the place of the number. -/
theorem replaceNumber_outcome (val : ℤ) (draws : Draws) (bounded : M.Bounded) (room : M.Room s)
    (order : off ≤ off2) (inside : off2 ≤ s.len) :
    off2 - off ≠ (numbuf val).length ∧ M.maxLen < off + (numbuf val).length + (s.len - off2) ∧
        M.replaceNumber off off2 val s draws = .ok ((.retry, s), draws) ∨
      ¬(off2 - off ≠ (numbuf val).length ∧
          M.maxLen < off + (numbuf val).length + (s.len - off2)) ∧
        ∃ s', M.replaceNumber off off2 val s draws = .ok ((.done, s'), draws) ∧
          s'.content = s.content.take off ++ numbuf val ++ s.content.drop off2 := by
  have small : M.maxLen + 32768 < 4294967296 := bounded.maxLen
  have ⟨some_digit, digits⟩ := length_numbuf val
  obtain ⟨buf, tmpBuf, some_byte, fits⟩ := room
  have front : s.content.take off = s.buf.take off := by
    rw [MutState.content, List.take_take, Nat.min_eq_left (by omega)]
  have back : s.content.drop off2 = slice s.buf off2 (s.len - off2) := by
    rw [MutState.content, List.drop_take, slice]
  rw [front, back, replaceNumber, run_bind run_getLen]
  simp only
  generalize numbuf val = text at *
  rw [u32Sub_of_le order (by omega)]
  split
  · rename_i same
    refine .inr ⟨fun differs => differs.1 same, _, run_bind (run_writeBuf (by omega)), ?_⟩
    have ending : off + text.length = off2 := by omega
    have split : s.len = off2 + (s.len - off2) := by omega
    rw [MutState.content]
    simp only
    rw [split, List.take_add, take_overwrite_end ending.symm (by omega),
      drop_overwrite (by omega) ending.le, slice, Nat.add_sub_cancel_left]
  · rename_i differs
    have longer : u32Sub (u32 (off + text.length + s.len)) off2 =
        off + text.length + (s.len - off2) := by
      simp only [u32Sub, u32]
      omega
    rw [longer]
    split
    · exact .inl ⟨differs, ‹_›, rfl⟩
    · rename_i shorter
      have newLen : u32 (s.len + u32Sub text.length (off2 - off)) =
          off + text.length + (s.len - off2) := by
        simp only [u32Sub, u32]
        omega
      refine .inr ⟨fun refused => shorter refused.2, ?_⟩
      obtain ⟨head, isHead⟩ : ∃ head, slice s.buf 0 off = head := ⟨_, rfl⟩
      obtain ⟨tail, isTail⟩ : ∃ tail, slice s.buf off2 (s.len - off2) = tail := ⟨_, rfl⟩
      obtain ⟨len, isLen⟩ : ∃ len, off + text.length + (s.len - off2) = len := ⟨_, rfl⟩
      have headLength : head.length = off := isHead ▸ length_slice (by omega)
      have tailLength : tail.length = s.len - off2 := isTail ▸ length_slice (by omega)
      have length₁ : (overwrite s.tmpBuf 0 head).length = M.maxLen := by
        rw [length_overwrite (by omega), tmpBuf]
      have length₂ : (overwrite (overwrite s.tmpBuf 0 head) off text).length = M.maxLen := by
        rw [length_overwrite (by omega), length₁]
      obtain ⟨tmp, isTmp⟩ : ∃ tmp, overwrite (overwrite (overwrite s.tmpBuf 0 head) off text)
          (off + text.length) tail = tmp := ⟨_, rfl⟩
      have length₃ : tmp.length = M.maxLen := by
        rw [← isTmp, length_overwrite (by omega), length₂]
      have data : tmp.take len = head ++ text ++ tail :=
        isTmp ▸ take_overwrite_three headLength.symm (by omega) (by omega)
      have dataLength : (slice tmp 0 len).length = len := length_slice (by omega)
      refine ⟨⟨overwrite s.buf 0 (slice tmp 0 len), tmp, len⟩, ?_, ?_⟩
      · rw [newLen, u32Sub_of_le inside (by omega), isLen, run_bind (run_readBuf (by omega)),
          isHead, run_bind (run_writeTmp (by omega)), run_bind (run_writeTmp (by simp only; omega)),
          run_bind (run_readBuf (by simp only; omega))]
        simp only
        rw [isTail, run_bind (run_writeTmp (by simp only; omega)), run_bind run_setLen]
        simp only
        rw [isTmp, run_bind (run_readTmp (by simp only; omega)),
          run_bind (run_writeBuf (by simp only; omega))]
        rfl
      · rw [MutState.content]
        simp only
        rw [isTail, take_overwrite_end (by omega) (by omega), List.take_zero, List.nil_append,
          slice, List.drop_zero, data, ← isHead, slice, List.drop_zero]

/-- The case prints the number that it computed. -/
theorem mutAsciinum_eq {draws : Draws} : M.mutAsciinum s draws =
    (asciinumNumber >>= fun number => match number with
      | none => tooLong s.len
      | some (off, off2, val) => M.replaceNumber off off2 val) s draws := by
  rw [mutAsciinum, asciinumNumber, bind_assoc, run_bind run_getLen, run_bind run_getLen]
  split
  · rw [pure_bind, tooLong, if_pos (by omega)]
  · rw [bind_assoc]
    refine congrFun (congrFun (congrArg (drawOffset s.len >>= ·) (funext fun off => ?_)) s) draws
    rw [bind_assoc]
    refine congrArg (lookIn _ >>= ·) (funext fun place => ?_)
    cases place with
    | nowhere => rw [pure_bind]
    | «at» first last => simp only [bind_assoc, pure_bind]

end Mutator

/-! ## Cut numbers -/

theorem short_iff {val : ℤ} : (decimal val).length ≤ 7 ↔ -1000000 < val ∧ val < 10000000 := by
  rw [length_decimal_le_iff (by decide)]
  rfl

theorem numbuf_of_short {val : ℤ} (short : (decimal val).length ≤ 7) : numbuf val = decimal val :=
  List.take_of_length_le short

/-- A text that is cut and consists of digits alone is that of a large number, at least ten
times the value of the digits. -/
theorem le_of_numbuf_digits {val : ℤ} (cut : 7 < (decimal val).length)
    (digits : ∀ byte ∈ numbuf val, isDigit byte = true) :
    10000000 ≤ val ∧ 10 * (digitsValue (numbuf val) : ℤ) ≤ val := by
  have positive : 0 ≤ val := by
    by_contra negative
    have sign : ord '-' ∈ numbuf val := by
      rw [numbuf, decimal, if_pos (by omega)]
      exact List.mem_cons_self
    exact absurd (digits _ sign) (by decide)
  have plain : decimal val = decimalNat val.natAbs := if_neg (by omega)
  have longer : ¬-1000000 < val ∨ ¬val < 10000000 := by
    rw [← not_and_or, ← short_iff]
    omega
  refine ⟨by omega, ?_⟩
  have parts := digitsValue_append (numbuf val) ((decimal val).drop 7)
  have rest : ((decimal val).drop 7).length ≠ 0 := by
    rw [List.length_drop]
    omega
  have power : 10 ≤ 10 ^ ((decimal val).drop 7).length := Nat.le_self_pow rest 10
  have whole : digitsValue (numbuf val ++ (decimal val).drop 7) = val.natAbs := by
    rw [numbuf, SIZEOF_BUF, List.take_append_drop, plain, digitsValue_decimalNat]
  have times := Nat.mul_le_mul_left (digitsValue (numbuf val)) power
  omega

namespace Mutator

variable {M : Mutator} {s : MutState} {draws : Draws}

/-! ## Whether the number is written -/

/-- No arithmetic overflows, and a changed case holds the decimal text of the computed number
in the place of the old one, and is otherwise the same. -/
def WritesNumber (M : Mutator) (s : MutState) (draws : Draws) : Prop :=
  asciinumNumber s draws ≠ .error .fault ∧
    ∀ ended s' rest, M.mutAsciinum s draws = .ok ((ended, s'), rest) → s'.content ≠ s.content →
      ∃ off off2 val between,
        asciinumNumber s draws = .ok ((some (off, off2, val), s), between) ∧
        s'.content = s.content.take off ++ decimal val ++ s.content.drop off2

/-- For the number in the text and the strategy that is drawn, the new number has at most
seven characters, or seven characters have no room in the place of the number. -/
def TextFits (M : Mutator) (s : MutState) (draws : Draws) : Prop :=
  ∀ off rest first last strat rest', (randBelow s.len).run draws = some (off, rest) →
    NumberAt s.buf s.len off first last → (randBelow 8).run rest = some (strat, rest') →
    ShortResult strat (numberValue s.buf first last) rest' ∨
      M.maxLen < first + 7 + (s.len - last)

/-- How the numbers of a run that reaches the end of the case hang together. -/
structure Computed (s : MutState) (off first last strat : ℕ) (draws : Draws) (stop : ℕ) (val : ℤ) :
    Prop where
  number : NumberAt s.buf s.len off first last
  short_iff : ShortResult strat (numberValue s.buf first last) draws ↔ (decimal val).length ≤ 7
  ends : stop = last ∨ first + 17 ≤ stop ∧ stop ≤ last
  grows : stop = last → val < 10000000 ∨ val < 10 * runValue s.buf first last

theorem natAbs_numberValue (buf : List Byte) (first last : ℕ) :
    (numberValue buf first last).natAbs = runValue buf first last := by
  rw [numberValue]
  split
  · rw [Int.natAbs_neg, Int.natAbs_natCast]
  · exact Int.natAbs_natCast _

/-- The new number, from what is read and what the strategy does. -/
theorem computed_of {off first last strat stop stop' : ℕ} {old val : ℤ}
    (number : NumberAt s.buf s.len off first last) (fits : s.len ≤ s.buf.length)
    (read : stop = last ∧ old = numberValue s.buf first last ∨
      first + 18 ≤ stop ∧ stop ≤ last ∧
        (10 ^ 17 ≤ old ∧ old ≤ numberValue s.buf first last ∨
          old ≤ -10 ^ 17 ∧ numberValue s.buf first last ≤ old))
    (same : ShortResult strat (numberValue s.buf first last) draws ↔
      -1000000 < val ∧ val < 10000000)
    (ends : stop' = stop ∨ stop' ≤ stop ∧ stop ≤ stop' + 1 ∧ 10 ^ 17 ≤ old.natAbs)
    (grows : val < 10000000 ∨ val < 10 * old.natAbs) :
    Computed s off first last strat draws stop' val := by
  have size := natAbs_numberValue s.buf first last
  have digits := number.runValue_lt fits number.some_digit.le le_rfl
  refine ⟨number, same.trans AflFuzz.short_iff.symm, ?_, fun _ => by omega⟩
  rcases read with ⟨rfl, isOld⟩ | ⟨long, less, -⟩
  · rcases ends with whole | ⟨less, more, large⟩
    · exact .inl whole
    · have long : first + 18 ≤ stop := by
        by_contra short
        have power : 10 ^ (stop - first) ≤ 10 ^ 17 := Nat.pow_le_pow_right (by decide) (by omega)
        omega
      exact .inr (by omega)
  · exact .inr (by omega)

/-- What is computed before the number is printed: there are too few draws, there is no
number, or the new number. -/
theorem asciinumNumber_outcome (room : M.Room s) (large : 4 ≤ s.len) :
    asciinumNumber s draws = .error .exhausted ∧ TextFits M s draws ∨
      (∃ rest, asciinumNumber s draws = .ok ((none, s), rest) ∧ TextFits M s draws) ∨
      ∃ off rest first last strat rest' stop val between,
        (randBelow s.len).run draws = some (off, rest) ∧
        (randBelow 8).run rest = some (strat, rest') ∧
        asciinumNumber s draws = .ok ((some (first, stop, val), s), between) ∧
        Computed s off first last strat rest' stop val := by
  have fits : s.len ≤ s.buf.length := room.buf ▸ room.fits
  have starts : drawOffset s.len s draws = drawBelow s.len s draws := run_drawOffset room.some_byte
  rw [asciinumNumber, run_bind run_getLen, if_neg (by omega)]
  cases drawnOff : (randBelow s.len).run draws with
  | none =>
      refine .inl ⟨run_bind_error (starts.trans (run_drawBelow_none drawnOff)), ?_⟩
      intro off rest first last strat rest' drawn
      cases drawnOff.symm.trans drawn
  | some result =>
      obtain ⟨off, rest⟩ := result
      have inside := randBelow_lt room.some_byte drawnOff
      obtain ⟨place, found, within⟩ := findNumber_found fits inside
      rw [run_bind (starts.trans (run_drawBelow drawnOff)), run_bind (run_lookIn found)]
      cases place with
      | nowhere =>
          refine .inr (.inl ⟨rest, rfl, ?_⟩)
          intro off' rest' first last strat rest'' drawn number
          cases drawnOff.symm.trans drawn
          cases found.symm.trans (found_of_numberAt fits inside number)
      | «at» first last =>
          have number := findNumber_spec fits inside found
          obtain ⟨some_digit, last_inside⟩ := within first last rfl
          obtain ⟨old, stop, parsed, after, before, least, most⟩ :=
            parseNumber_found (last_inside.trans fits) some_digit
          have read := parseNumber_spec number fits parsed
          simp only
          rw [run_bind (run_lookIn parsed)]
          cases drawnStrat : (randBelow 8).run rest with
          | none =>
              refine .inl ⟨run_bind_error (run_drawBelow_none drawnStrat), ?_⟩
              intro off' left first' last' strat left' drawn _ drawn'
              cases drawnOff.symm.trans drawn
              cases drawnStrat.symm.trans drawn'
          | some result =>
              obtain ⟨strat, rest'⟩ := result
              have short : ShortResult strat old rest' ↔
                  ShortResult strat (numberValue s.buf first last) rest' :=
                shortResult_congr (by omega)
              simp only
              rw [run_bind (run_drawBelow drawnStrat)]
              rcases newNumber_outcome least most with
                ⟨tooFew, isShort⟩ | ⟨val, stop', between, run, -, -, same, ends, grows⟩
              · refine .inl ⟨run_bind_error tooFew, ?_⟩
                intro off' left first' last' strat' left' drawn number' drawn'
                cases drawnOff.symm.trans drawn
                cases drawnStrat.symm.trans drawn'
                obtain ⟨rfl, rfl⟩ := number.unique number'
                exact .inl (short.mp isShort)
              · rw [run_bind run]
                exact .inr (.inr ⟨off, rest, first, last, strat, rest', stop', val, between, rfl,
                  drawnStrat, rfl, computed_of number fits read (short.symm.trans same) ends grows⟩)

section Computed

variable {off first last strat stop : ℕ} {val : ℤ} {rest rest' : Draws}

/-- What the condition says about the number of a run. -/
theorem textFits_iff (drawn : (randBelow s.len).run draws = some (off, rest))
    (drawn' : (randBelow 8).run rest = some (strat, rest'))
    (computed : Computed s off first last strat rest' stop val) :
    TextFits M s draws ↔
      (decimal val).length ≤ 7 ∨ M.maxLen < first + 7 + (s.len - last) := by
  rw [← computed.short_iff]
  constructor
  · intro fits
    exact fits off rest first last strat rest' drawn computed.number drawn'
  · intro fits off' left first' last' strat' left' same number same'
    cases drawn.symm.trans same
    cases drawn'.symm.trans same'
    obtain ⟨rfl, rfl⟩ := computed.number.unique number
    exact fits

/-- A cut text always changes the case. -/
theorem cut_changes (room : M.Room s) (computed : Computed s off first last strat rest' stop val)
    (cut : 7 < (decimal val).length) :
    s.content.take first ++ numbuf val ++ s.content.drop stop ≠ s.content := by
  intro same
  obtain ⟨isNumber, -, ends, grows⟩ := computed
  have inside := isNumber.inside
  have some_digit := isNumber.some_digit
  have fits : s.len ≤ s.buf.length := room.buf ▸ room.fits
  have contentLength := length_content room
  have seven : (numbuf val).length = 7 := by
    rw [numbuf, SIZEOF_BUF, List.length_take]
    omega
  have headLength : (s.content.take first).length = first := List.length_take_of_le (by omega)
  have whole : stop = last ∧ last = first + 7 := by
    have lengths := congrArg List.length same
    rw [List.length_append, List.length_append, headLength, seven, List.length_drop,
      contentLength] at lengths
    omega
  -- The text stands where the digits stood.
  have there : numbuf val = slice s.buf first (last - first) := by
    have middle := congrArg (fun bytes => (bytes.drop first).take 7) same
    rw [List.append_assoc, List.drop_left' headLength, List.take_left' seven, MutState.content,
      List.drop_take, List.take_take, Nat.min_eq_left (by omega)] at middle
    rw [middle, slice, whole.2, Nat.add_sub_cancel_left]
  have digits : ∀ byte ∈ numbuf val, isDigit byte = true := by
    intro byte mem
    rw [there] at mem
    exact isNumber.isDigit_of_mem fits le_rfl mem
  have large := le_of_numbuf_digits cut digits
  have growth := grows whole.1
  rw [runValue, ← there] at growth
  omega

end Computed

/-- **The ascii-number mutation writes the number it computed, whole, exactly if that number
has at most seven characters**, or nothing is written because seven characters have no
room. Which numbers of the text this means depends on the strategy that is drawn. -/
theorem asciinum_writes_iff (M : Mutator) (bounded : M.Bounded) (s : MutState) (room : M.Room s)
    (large : 4 ≤ s.len) (draws : Draws) : WritesNumber M s draws ↔ TextFits M s draws := by
  rcases asciinumNumber_outcome room large with
    ⟨tooFew, fits⟩ | ⟨rest, unnumbered, fits⟩ |
      ⟨off, rest, first, last, strat, rest', stop, val, between, drawn, drawn', computes, computed⟩
  · refine iff_of_true ⟨by rw [tooFew]; exact nofun, ?_⟩ fits
    intro ended s' rest run
    rw [mutAsciinum_eq, run_bind_error tooFew] at run
    cases run
  · refine iff_of_true ⟨by rw [unnumbered]; exact nofun, ?_⟩ fits
    intro ended s' left run changed
    rw [mutAsciinum_eq, run_bind unnumbered] at run
    cases run
    exact absurd rfl changed
  · have run : M.mutAsciinum s draws = M.replaceNumber first stop val s between := by
      rw [mutAsciinum_eq, run_bind computes]
    have noFault : asciinumNumber s draws ≠ .error .fault := by
      rw [computes]
      exact nofun
    have ends := computed.ends
    have inside := computed.number.inside
    have some_digit := computed.number.some_digit
    have fits := room.fits
    have contentLength := length_content room
    rw [textFits_iff drawn drawn' computed]
    have numbufLength : (numbuf val).length = min 7 (decimal val).length := List.length_take
    rcases replaceNumber_outcome val between bounded room
      (show first ≤ stop by omega) (show stop ≤ s.len by omega) with
        ⟨differs, noRoom, refused⟩ | ⟨roomy, s', done, contents⟩
    · -- Nothing is written.
      refine iff_of_true ⟨noFault, ?_⟩ (by omega)
      intro ended s' left run' changed
      cases (run.symm.trans run').symm.trans refused
      exact absurd rfl changed
    · rcases Nat.lt_or_ge 7 (decimal val).length with cut | short
      · refine iff_of_false ?_ (by omega)
        rintro ⟨-, written⟩
        obtain ⟨off', off2', val', between', computes', contents'⟩ :=
          written .done s' between (run.trans done) (contents ▸ cut_changes room computed cut)
        cases computes.symm.trans computes'
        have lengths := congrArg List.length (contents.symm.trans contents')
        simp only [List.length_append] at lengths
        omega
      · refine iff_of_true ⟨noFault, ?_⟩ (.inl short)
        intro ended s'' left run' _
        cases (run.symm.trans run').symm.trans done
        refine ⟨first, stop, val, between, computes, ?_⟩
        rw [contents, numbuf_of_short short]

/-- The text 9999999, with room for eight bytes. -/
def sevenNines : MutState where
  buf := [57, 57, 57, 57, 57, 57, 57, 0]
  tmpBuf := List.replicate 8 0
  len := 7

theorem sevenNines_room : numbersOnly.Room sevenNines := ⟨rfl, rfl, by decide, by decide⟩

/-- The number before 9999999 has room. -/
theorem asciinum_writes_seven_nines : WritesNumber numbersOnly sevenNines [0, 1] ∧
    TextFits numbersOnly sevenNines [0, 1] := by
  have computes : asciinumNumber sevenNines [0, 1] =
      .ok ((some (0, 7, 9999998), sevenNines), []) := rfl
  have run : numbersOnly.mutAsciinum sevenNines [0, 1] =
      .ok ((.done, { sevenNines with buf := [57, 57, 57, 57, 57, 57, 56, 0] }), []) := rfl
  have written : WritesNumber numbersOnly sevenNines [0, 1] := by
    refine ⟨fun fault => ?_, fun ended s' rest run' _ => ?_⟩
    · cases computes.symm.trans fault
    cases run.symm.trans run'
    exact ⟨0, 7, 9999998, [], computes, by decide⟩
  exact ⟨written, (asciinum_writes_iff numbersOnly numbersOnly_bounded sevenNines sevenNines_room
    (by decide) [0, 1]).mp written⟩

/-- The number after 9999999 is written as 1000000. -/
theorem next_number_cut : ¬∀ M : Mutator, M.Bounded → ∀ s : MutState, M.Room s → 4 ≤ s.len →
    ∀ draws, WritesNumber M s draws := by
  intro all
  have computes : asciinumNumber sevenNines [0, 0] =
      .ok ((some (0, 7, 10000000), sevenNines), []) := rfl
  have run : numbersOnly.mutAsciinum sevenNines [0, 0] =
      .ok ((.done, { sevenNines with buf := [49, 48, 48, 48, 48, 48, 48, 0] }), []) := rfl
  obtain ⟨off, off2, val, between, computes', contents⟩ :=
    (all numbersOnly numbersOnly_bounded sevenNines sevenNines_room (by decide) [0, 0]).2
      _ _ _ run (by decide)
  cases computes.symm.trans computes'
  exact absurd contents (by decide)

end Mutator

end GreenFuzz.AflFuzz
