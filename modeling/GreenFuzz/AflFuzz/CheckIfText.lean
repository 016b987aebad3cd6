import GreenFuzz.AflFuzz.State
import GreenFuzz.Library.FallibleLoops
import GreenFuzz.Redqueen.ItsFuzz

/-!
# Text detection

`check_if_text` reads a queue entry and counts its printable ASCII characters and its UTF-8
sequences. `comp` starts as the length and ends as the number of rounds of the scan, so both
percentages are of a number that is at least what was counted.

The guard should leave out entries that are too short or too long. It compares the length with
both limits by `<`, so it leaves out all entries below the upper limit, and of the lengths in
between only the upper limit itself is looked at (`textDetected_iff`).

The locale is never set, so `isprint` is that of the C locale.
-/

set_option autoImplicit false

namespace GreenFuzz.AflFuzz

open Library
open Redqueen (AFL_TXT_MIN_LEN AFL_TXT_MAX_LEN)

def AFL_TXT_MIN_PERCENT : ℕ := 99

/-! ## The scan -/

/-- The locals of `check_if_text`. -/
structure TextScan where
  offset : ℕ := 0
  ascii : ℕ := 0
  utf8 : ℕ := 0
  comp : ℤ
  deriving DecidableEq, Repr

/-- `lo <= buf[i] && buf[i] <= hi`. A byte that was not loaded cannot be read. -/
def byteIn (buf : List Byte) (i lo hi : ℕ) : Option Bool :=
  buf[i]?.map fun b => lo ≤ b.toNat ∧ b.toNat ≤ hi

/-- `buf[i] == value`. -/
def byteIs (buf : List Byte) (i value : ℕ) : Option Bool := buf[i]?.map fun b => b.toNat = value

/-- A printable character, a tab or an end of line. -/
def isTextByte (buf : List Byte) (i : ℕ) : Option Bool :=
  byteIs buf i 0x09 <||> byteIs buf i 0x0A <||> byteIs buf i 0x0D <||> byteIn buf i 0x20 0x7E

/-- `isascii(buf[i]) || isprint(buf[i])`. -/
def isAsciiByte (buf : List Byte) (i : ℕ) : Option Bool :=
  byteIn buf i 0 0x7F <||> byteIn buf i 0x20 0x7E

/-- `len - offset > n`. -/
def leaves (buf : List Byte) (i n : ℕ) : Option Bool := some (n < buf.length - i)

/-- The pattern of a non-overlong sequence of two bytes. -/
def isTwoByte (buf : List Byte) (i : ℕ) : Option Bool :=
  leaves buf i 1 <&&> byteIn buf i 0xC2 0xDF <&&> byteIn buf (i + 1) 0x80 0xBF

/-- The patterns of three bytes. -/
def isThreeByte (buf : List Byte) (i : ℕ) : Option Bool :=
  leaves buf i 2 <&&>
    ((byteIs buf i 0xE0 <&&> byteIn buf (i + 1) 0xA0 0xBF <&&> byteIn buf (i + 2) 0x80 0xBF) <||>
      ((byteIn buf i 0xE1 0xEC <||> byteIs buf i 0xEE <||> byteIs buf i 0xEF) <&&>
        byteIn buf (i + 1) 0x80 0xBF <&&> byteIn buf (i + 2) 0x80 0xBF) <||>
      (byteIs buf i 0xED <&&> byteIn buf (i + 1) 0x80 0x9F <&&> byteIn buf (i + 2) 0x80 0xBF))

/-- The patterns of four bytes. -/
def isFourByte (buf : List Byte) (i : ℕ) : Option Bool :=
  leaves buf i 3 <&&>
    ((byteIs buf i 0xF0 <&&> byteIn buf (i + 1) 0x90 0xBF <&&> byteIn buf (i + 2) 0x80 0xBF <&&>
        byteIn buf (i + 3) 0x80 0xBF) <||>
      (byteIn buf i 0xF1 0xF3 <&&> byteIn buf (i + 1) 0x80 0xBF <&&>
        byteIn buf (i + 2) 0x80 0xBF <&&> byteIn buf (i + 3) 0x80 0xBF) <||>
      (byteIs buf i 0xF4 <&&> byteIn buf (i + 1) 0x80 0x8F <&&> byteIn buf (i + 2) 0x80 0xBF <&&>
        byteIn buf (i + 3) 0x80 0xBF))

/-- One round of the scan. -/
def scanRound (buf : List Byte) (s : TextScan) : Option TextScan := do
  if ← isTextByte buf s.offset then
    return { s with offset := s.offset + 1, utf8 := s.utf8 + 1, ascii := s.ascii + 1 }
  -- The round continues, since the byte can also start a UTF-8 sequence.
  let ascii := if ← isAsciiByte buf s.offset then s.ascii + 1 else s.ascii
  if ← isTwoByte buf s.offset then
    return ⟨s.offset + 2, ascii, s.utf8 + 1, s.comp - 1⟩
  if ← isThreeByte buf s.offset then
    return ⟨s.offset + 3, ascii, s.utf8 + 1, s.comp - 2⟩
  if ← isFourByte buf s.offset then
    return ⟨s.offset + 4, ascii, s.utf8 + 1, s.comp - 3⟩
  return ⟨s.offset + 1, ascii, s.utf8, s.comp⟩

/-- The scan of the loaded bytes. Every round moves on, so there are not more rounds than bytes. -/
def scanText (buf : List Byte) : Option TextScan :=
  whileSome (fun s => s.offset < buf.length) (scanRound buf) buf.length { comp := buf.length }

/-- `(part * 100) / whole`, as a `u32`. -/
def percent (part : ℕ) (whole : ℤ) : Option ℕ :=
  if whole = 0 then none else some ((u32 (part * 100) : ℤ).tdiv whole % 2 ^ 32).toNat

/-- The class of the loaded bytes: UTF-8, ASCII or none. -/
def classifyText (buf : List Byte) : Option ℕ := do
  let s ← scanText buf
  let percentUtf8 ← percent s.utf8 s.comp
  let percentAscii ← percent s.ascii buf.length
  return if percentAscii ≤ percentUtf8 ∧ AFL_TXT_MIN_PERCENT ≤ percentUtf8 then 2
    else if AFL_TXT_MIN_PERCENT ≤ percentAscii then 1
    else 0

/-- The bytes that are loaded of a queue entry of `qLen` bytes, if any. The file may not be
readable, and it may have changed. -/
def loadText (qLen : ℕ) (file : Option (List Byte)) : Option (List Byte) :=
  if qLen < AFL_TXT_MIN_LEN ∨ qLen < AFL_TXT_MAX_LEN then none
  else
    let len := if MAX_FILE ≤ qLen then MAX_FILE - 1 else qLen
    match file with
    | none => none
    | some bytes => if (bytes.take len).length ≠ len then none else some (bytes.take len)

/-- `check_if_text`. There is no result where it reads a byte that was not loaded, or divides by
zero. -/
def checkIfText (qLen : ℕ) (file : Option (List Byte)) : Option ℕ :=
  match loadText qLen file with
  | none => some 0
  | some buf => classifyText buf

/-! ## The patterns read inside -/

variable {buf : List Byte} {i n : ℕ} {s t : TextScan}

theorem isSome_and {x y : Option Bool} (first : x.isSome) (second : y.isSome) :
    (x <&&> y).isSome := by
  obtain ⟨b, rfl⟩ := Option.isSome_iff_exists.mp first
  cases b with
  | false => rfl
  | true => exact second

theorem isSome_or {x y : Option Bool} (first : x.isSome) (second : y.isSome) :
    (x <||> y).isSome := by
  obtain ⟨b, rfl⟩ := Option.isSome_iff_exists.mp first
  cases b with
  | false => exact second
  | true => rfl

theorem isSome_byteIn (inside : i < buf.length) (lo hi : ℕ) : (byteIn buf i lo hi).isSome := by
  rw [byteIn, Option.isSome_map, List.getElem?_eq_getElem inside]
  rfl

theorem isSome_byteIs (inside : i < buf.length) (value : ℕ) : (byteIs buf i value).isSome := by
  rw [byteIs, Option.isSome_map, List.getElem?_eq_getElem inside]
  rfl

/-- A pattern behind a length check reads only where enough bytes are left, and matches only
there. -/
theorem leaves_and {rest : Option Bool} (reads : n < buf.length - i → rest.isSome) :
    ∃ b, (leaves buf i n <&&> rest) = some b ∧ (b = true → n < buf.length - i) := by
  unfold leaves
  by_cases enough : n < buf.length - i
  · obtain ⟨b, read⟩ := Option.isSome_iff_exists.mp (reads enough)
    rw [decide_eq_true enough, read]
    exact ⟨b, rfl, fun _ => enough⟩
  · rw [decide_eq_false enough]
    exact ⟨false, rfl, nofun⟩

theorem isTwoByte_reads (buf : List Byte) (i : ℕ) :
    ∃ b, isTwoByte buf i = some b ∧ (b = true → 1 < buf.length - i) :=
  leaves_and fun enough =>
    isSome_and (isSome_byteIn (by omega) _ _) (isSome_byteIn (by omega) _ _)

theorem isThreeByte_reads (buf : List Byte) (i : ℕ) :
    ∃ b, isThreeByte buf i = some b ∧ (b = true → 2 < buf.length - i) := by
  refine leaves_and fun enough => ?_
  have lead (lo hi : ℕ) : (byteIn buf i lo hi).isSome := isSome_byteIn (by omega) lo hi
  have leads (value : ℕ) : (byteIs buf i value).isSome := isSome_byteIs (by omega) value
  have tails (lo hi : ℕ) :
      (byteIn buf (i + 1) lo hi <&&> byteIn buf (i + 2) 0x80 0xBF).isSome :=
    isSome_and (isSome_byteIn (by omega) lo hi) (isSome_byteIn (by omega) _ _)
  refine isSome_or (isSome_and (leads _) (tails _ _)) (isSome_or (isSome_and ?_ (tails _ _))
    (isSome_and (leads _) (tails _ _)))
  exact isSome_or (lead _ _) (isSome_or (leads _) (leads _))

theorem isFourByte_reads (buf : List Byte) (i : ℕ) :
    ∃ b, isFourByte buf i = some b ∧ (b = true → 3 < buf.length - i) := by
  refine leaves_and fun enough => ?_
  have tails (lo hi : ℕ) : (byteIn buf (i + 1) lo hi <&&> byteIn buf (i + 2) 0x80 0xBF <&&>
      byteIn buf (i + 3) 0x80 0xBF).isSome :=
    isSome_and (isSome_byteIn (by omega) lo hi)
      (isSome_and (isSome_byteIn (by omega) _ _) (isSome_byteIn (by omega) _ _))
  exact isSome_or (isSome_and (isSome_byteIs (by omega) _) (tails _ _))
    (isSome_or (isSome_and (isSome_byteIn (by omega) _ _) (tails _ _))
      (isSome_and (isSome_byteIs (by omega) _) (tails _ _)))

theorem isSome_isTextByte (inside : i < buf.length) : (isTextByte buf i).isSome :=
  isSome_or (isSome_byteIs inside _) (isSome_or (isSome_byteIs inside _)
    (isSome_or (isSome_byteIs inside _) (isSome_byteIn inside _ _)))

/-! ## One round -/

/-- What one round does: it consumes some bytes of the rest, counts at most one character of each
kind, and takes all but one of the bytes off `comp`. -/
structure Advances (buf : List Byte) (s t : TextScan) : Prop where
  forward : s.offset < t.offset
  inside : t.offset ≤ buf.length
  ascii : t.ascii ≤ s.ascii + 1
  utf8 : t.utf8 ≤ s.utf8 + 1
  comp : t.comp + t.offset = s.comp + s.offset + 1

theorem advances_of_width {width ascii utf8 : ℕ} {comp : ℤ} (forward : 0 < width)
    (inside : s.offset + width ≤ buf.length) (ascii_le : ascii ≤ s.ascii + 1)
    (utf8_le : utf8 ≤ s.utf8 + 1) (comp_eq : comp = s.comp - width + 1) :
    Advances buf s ⟨s.offset + width, ascii, utf8, comp⟩ where
  forward := Nat.lt_add_of_pos_right forward
  inside := inside
  ascii := ascii_le
  utf8 := utf8_le
  comp := by
    show comp + ((s.offset + width : ℕ) : ℤ) = _
    omega

theorem scanRound_advances (inside : s.offset < buf.length) :
    ∃ t, scanRound buf s = some t ∧ Advances buf s t := by
  obtain ⟨text, text_read⟩ := Option.isSome_iff_exists.mp (isSome_isTextByte inside)
  obtain ⟨ascii, ascii_read⟩ := Option.isSome_iff_exists.mp
    (isSome_or (isSome_byteIn inside 0 0x7F) (isSome_byteIn inside 0x20 0x7E))
  obtain ⟨two, two_read, room_two⟩ := isTwoByte_reads buf s.offset
  obtain ⟨three, three_read, room_three⟩ := isThreeByte_reads buf s.offset
  obtain ⟨four, four_read, room_four⟩ := isFourByte_reads buf s.offset
  have counted : (if ascii = true then s.ascii + 1 else s.ascii) ≤ s.ascii + 1 := by
    split <;> omega
  unfold scanRound isAsciiByte
  rw [text_read, ascii_read, two_read, three_read, four_read]
  cases text with
  | true =>
      exact ⟨_, rfl, advances_of_width Nat.one_pos inside le_rfl le_rfl (by simp)⟩
  | false =>
      cases two with
      | true =>
          have room := room_two rfl
          exact ⟨_, rfl, advances_of_width two_pos (by omega) counted le_rfl (by omega)⟩
      | false =>
          cases three with
          | true =>
              have room := room_three rfl
              exact ⟨_, rfl,
                advances_of_width three_pos (by omega) counted le_rfl (by omega)⟩
          | false =>
              cases four with
              | true =>
                  have room := room_four rfl
                  exact ⟨_, rfl,
                    advances_of_width four_pos (by omega) counted le_rfl (by omega)⟩
              | false =>
                  exact ⟨_, rfl, advances_of_width Nat.one_pos inside counted (Nat.le_succ _)
                    (by simp)⟩

/-! ## The scan -/

/-- **The invariant of the scan**: what was counted is at most the number of rounds, which `comp`
is ahead of the bytes left, and at most the number of bytes consumed. -/
structure TextScanned (buf : List Byte) (s : TextScan) : Prop where
  inside : s.offset ≤ buf.length
  ascii : s.ascii ≤ s.offset
  utf8 : s.utf8 + buf.length ≤ s.comp + s.offset
  rounds : 0 < s.offset → (buf.length : ℤ) < s.comp + s.offset
  comp : s.comp ≤ buf.length

theorem textScanned_start (buf : List Byte) : TextScanned buf { comp := buf.length } :=
  ⟨Nat.zero_le _, le_rfl, by simp, fun positive => absurd positive (Nat.lt_irrefl 0), le_rfl⟩

theorem TextScanned.advance (scanned : TextScanned buf s) (advances : Advances buf s t) :
    TextScanned buf t := by
  obtain ⟨-, ascii, utf8, -, at_most⟩ := scanned
  obtain ⟨forward, inside, ascii_le, utf8_le, comp⟩ := advances
  exact ⟨inside, by omega, by omega, fun _ => by omega, by omega⟩

/-- The rounds from one state to another, each with the first byte that it consumes and their
number. -/
inductive Rounds (buf : List Byte) : TextScan → List (ℕ × ℕ) → TextScan → Prop where
  | stop {s : TextScan} (stops : ¬ s.offset < buf.length) : Rounds buf s [] s
  | round {s t u : TextScan} {spans : List (ℕ × ℕ)} (inside : s.offset < buf.length)
      (next : scanRound buf s = some t) (rest : Rounds buf t spans u) :
      Rounds buf s ((s.offset, t.offset - s.offset) :: spans) u

/-- The bytes of some spans. -/
def bytesOf (spans : List (ℕ × ℕ)) : List ℕ := spans.flatMap fun span => List.range' span.1 span.2

/-- The scan reads only loaded bytes and consumes each of them once. -/
theorem scan_rounds {rounds : ℕ} (scanned : TextScanned buf s)
    (enough : buf.length - s.offset ≤ rounds) :
    ∃ spans t, whileSome (fun s => s.offset < buf.length) (scanRound buf) rounds s = some t ∧
      Rounds buf s spans t ∧ bytesOf spans = List.range' s.offset (buf.length - s.offset) ∧
      TextScanned buf t ∧ t.offset = buf.length := by
  induction rounds generalizing s with
  | zero =>
      have stops : ¬ s.offset < buf.length := by omega
      have whole : buf.length - s.offset = 0 := by omega
      refine ⟨[], s, whileSome_of_not stops, .stop stops, ?_, scanned, ?_⟩
      · rw [whole]
        rfl
      · exact le_antisymm scanned.inside (Nat.le_of_not_lt stops)
  | succ rounds ih =>
      by_cases inside : s.offset < buf.length
      · obtain ⟨m, next, advances⟩ := scanRound_advances inside
        have forward := advances.forward
        have within := advances.inside
        obtain ⟨spans, t, loop, rest, bytes, final, ends⟩ :=
          ih (scanned.advance advances) (by omega)
        refine ⟨_, t, ?_, .round inside next rest, ?_, final, ends⟩
        · refine (whileSome_of_guard ?_ next).trans loop
          exact inside
        · have parts : buf.length - s.offset =
              (m.offset - s.offset) + (buf.length - m.offset) := by omega
          have joint : s.offset + (m.offset - s.offset) = m.offset := by omega
          rw [bytesOf, List.flatMap_cons, parts, ← List.range'_append_1, joint]
          exact congrArg (_ ++ ·) bytes
      · have whole : buf.length - s.offset = 0 := by omega
        refine ⟨[], s, whileSome_of_not inside, .stop inside, ?_, scanned, ?_⟩
        · rw [whole]
          rfl
        · exact le_antisymm scanned.inside (Nat.le_of_not_lt inside)

/-! ## The percentages -/

theorem percent_le (part : ℕ) (whole : ℤ) (positive : 0 < whole) (le : part ≤ whole)
    (small : part * 100 < 2 ^ 32) :
    ∃ p, percent part whole = some p ∧ p ≤ 100 ∧ (part = whole → p = 100) := by
  have quotient : ((u32 (part * 100) : ℤ).tdiv whole) = (part * 100 : ℤ) / whole := by
    rw [u32, Nat.mod_eq_of_lt small, Int.tdiv_eq_ediv_of_nonneg (Int.natCast_nonneg _)]
    push_cast
    rfl
  have nonneg : 0 ≤ (part * 100 : ℤ) / whole := Int.ediv_nonneg (by omega) positive.le
  have at_most : (part * 100 : ℤ) / whole ≤ 100 :=
    Int.ediv_le_of_le_mul positive (by omega)
  refine ⟨((part * 100 : ℤ) / whole).toNat, ?_, by omega, fun equal => ?_⟩
  · rw [percent, if_neg positive.ne', quotient, Int.emod_eq_of_lt nonneg (by omega)]
  · rw [equal, Int.mul_ediv_cancel_left _ positive.ne']
    rfl

/-! ## What the scan guarantees -/

/-- **The scan of loaded bytes is sound**: it comes to its end, so that it read only these bytes;
its rounds consume each of them once; and it is classified by two percentages that are at most
100, of which neither divisor is zero. -/
def ScanSound (buf : List Byte) : Prop :=
  ∃ spans t percentUtf8 percentAscii, scanText buf = some t ∧
    Rounds buf { comp := buf.length } spans t ∧ bytesOf spans = List.range buf.length ∧
    percent t.utf8 t.comp = some percentUtf8 ∧ percentUtf8 ≤ 100 ∧
    percent t.ascii buf.length = some percentAscii ∧ percentAscii ≤ 100

theorem scanSound (nonempty : 0 < buf.length) (small : buf.length < MAX_FILE) : ScanSound buf := by
  obtain ⟨spans, t, loop, rounds, bytes, scanned, ends⟩ :=
    scan_rounds (textScanned_start buf) (Nat.sub_le _ _)
  obtain ⟨-, ascii, utf8, ahead, at_most⟩ := scanned
  have positive := ahead (by omega)
  unfold MAX_FILE at small
  obtain ⟨percentUtf8, utf8_eq, utf8_le, -⟩ :=
    percent_le t.utf8 t.comp (by omega) (by omega) (by omega)
  obtain ⟨percentAscii, ascii_eq, ascii_le, -⟩ :=
    percent_le t.ascii buf.length (by omega) (by omega) (by omega)
  refine ⟨spans, t, percentUtf8, percentAscii, loop, rounds, ?_, utf8_eq, utf8_le, ascii_eq,
    ascii_le⟩
  rw [bytes, Nat.sub_zero, List.range_eq_range']

/-! ## Text -/

/-- Only printable ASCII, tabs, newlines and carriage returns. -/
def IsText (bytes : List Byte) : Prop :=
  ∀ b ∈ bytes, b.toNat = 0x09 ∨ b.toNat = 0x0A ∨ b.toNat = 0x0D ∨
    0x20 ≤ b.toNat ∧ b.toNat ≤ 0x7E

instance : DecidablePred IsText := fun bytes =>
  inferInstanceAs (Decidable (∀ b ∈ bytes, b.toNat = 0x09 ∨ _))

theorem some_or (b : Bool) (y : Option Bool) :
    (some b <||> y) = if b = true then some true else y := by
  cases b <;> rfl

theorem isTextByte_of_text (text : IsText buf) (inside : i < buf.length) :
    isTextByte buf i = some true := by
  have byte := text buf[i] (List.getElem_mem inside)
  unfold isTextByte byteIs byteIn
  rw [List.getElem?_eq_getElem inside]
  simp only [Option.map_some, some_or, decide_eq_true_eq]
  split_ifs
  · rfl
  · rfl
  · rfl
  · exact congrArg some (decide_eq_true (by omega))

/-- Over text, every round counts one character of each kind. -/
structure CountsText (buf : List Byte) (s : TextScan) : Prop where
  inside : s.offset ≤ buf.length
  ascii : s.ascii = s.offset
  utf8 : s.utf8 = s.offset
  comp : s.comp = buf.length

theorem scanText_of_text (text : IsText buf) :
    scanText buf = some ⟨buf.length, buf.length, buf.length, buf.length⟩ := by
  have round (s : TextScan) (counts : CountsText buf s) (inside : s.offset < buf.length) :
      ∃ t, scanRound buf s = some t ∧ CountsText buf t ∧
        buf.length - t.offset < buf.length - s.offset := by
    obtain ⟨-, ascii, utf8, comp⟩ := counts
    refine ⟨⟨s.offset + 1, s.ascii + 1, s.utf8 + 1, s.comp⟩, ?_, ⟨inside, ?_, ?_, comp⟩, ?_⟩
    · unfold scanRound
      rw [isTextByte_of_text text inside]
      rfl
    · exact congrArg (· + 1) ascii
    · exact congrArg (· + 1) utf8
    · dsimp only
      omega
  obtain ⟨t, loop, ⟨inside, ascii, utf8, comp⟩, stops⟩ :=
    whileSome_invariant round (s := { comp := buf.length }) ⟨Nat.zero_le _, rfl, rfl, rfl⟩
      (Nat.sub_le buf.length 0)
  have ends : t.offset = buf.length := le_antisymm inside (Nat.le_of_not_lt stops)
  refine loop.trans ?_
  obtain ⟨offset, _, _, _⟩ := t
  dsimp only at *
  subst ascii utf8 comp ends
  rfl

/-- **Text that is loaded has the class of UTF-8.** -/
theorem classifyText_of_text (text : IsText buf) (nonempty : 0 < buf.length)
    (small : buf.length < MAX_FILE) : classifyText buf = some 2 := by
  unfold MAX_FILE at small
  obtain ⟨whole, percent_eq, -, hundred⟩ :=
    percent_le buf.length buf.length (by omega) le_rfl (by omega)
  obtain rfl := hundred rfl
  unfold classifyText
  rw [scanText_of_text text]
  show (percent buf.length buf.length >>= fun percentUtf8 =>
    percent buf.length buf.length >>= _) = _
  rw [percent_eq]
  rfl

/-! ## The guard -/

theorem length_of_loadText {qLen : ℕ} {file : Option (List Byte)}
    (loaded : loadText qLen file = some buf) : 0 < buf.length ∧ buf.length < MAX_FILE := by
  unfold loadText at loaded
  split at loaded
  · cases loaded
  · rename_i guard
    cases file with
    | none => cases loaded
    | some bytes =>
        dsimp only at loaded
        generalize capped : (if MAX_FILE ≤ qLen then MAX_FILE - 1 else qLen) = len at loaded
        unfold AFL_TXT_MIN_LEN at guard
        unfold MAX_FILE at capped ⊢
        split at loaded
        · cases loaded
        · rename_i whole
          cases loaded
          rw [not_not.mp whole]
          split at capped <;> omega

/-- A file of the largest length is loaded. -/
theorem loadText_of_top {bytes : List Byte} (top : bytes.length = AFL_TXT_MAX_LEN) :
    loadText AFL_TXT_MAX_LEN (some bytes) = some bytes := by
  unfold loadText
  rw [if_neg (by decide), if_neg (by decide), ← top]
  dsimp only
  rw [List.take_length, if_neg (not_not_intro rfl)]

/-- A text file of an entry is classified as text, if its length is between the limits. -/
def TextAccepted (qLen : ℕ) (file : Option (List Byte)) : Prop :=
  ∀ bytes, file = some bytes → bytes.length = qLen → IsText bytes → AFL_TXT_MIN_LEN ≤ qLen →
    qLen ≤ AFL_TXT_MAX_LEN → ∃ c, checkIfText qLen file = some c ∧ c ≠ 0

/-- **Text detection**: text files are accepted, and whatever is loaded is scanned soundly, exactly
unless the file is a text whose length is between the limits and below the upper one. -/
theorem textDetected_iff (qLen : ℕ) (file : Option (List Byte)) :
    (TextAccepted qLen file ∧ ∀ buf, loadText qLen file = some buf → ScanSound buf) ↔
      ∀ bytes, file = some bytes → bytes.length = qLen → IsText bytes → AFL_TXT_MIN_LEN ≤ qLen →
        ¬ qLen < AFL_TXT_MAX_LEN := by
  have sound : ∀ buf, loadText qLen file = some buf → ScanSound buf := by
    intro buf loaded
    obtain ⟨nonempty, small⟩ := length_of_loadText loaded
    exact scanSound nonempty small
  constructor
  · rintro ⟨accepted, -⟩ bytes read whole text long short
    obtain ⟨c, classified, nonzero⟩ := accepted bytes read whole text long short.le
    have refused : loadText qLen file = none := if_pos (.inr short)
    rw [checkIfText, refused] at classified
    cases classified
    exact nonzero rfl
  · intro top
    refine ⟨fun bytes read whole text long le => ⟨2, ?_, by decide⟩, sound⟩
    have at_top : qLen = AFL_TXT_MAX_LEN :=
      le_antisymm le (Nat.le_of_not_lt (top bytes read whole text long))
    subst at_top read
    have loaded := loadText_of_top whole
    obtain ⟨nonempty, small⟩ := length_of_loadText loaded
    rw [checkIfText, loaded]
    exact classifyText_of_text text nonempty small

/-- Twelve spaces. -/
theorem spaces_not_detected : IsText (List.replicate 12 0x20) ∧
    checkIfText 12 (some (List.replicate 12 0x20)) = some 0 := by
  decide

end GreenFuzz.AflFuzz
