import GreenFuzz.Library.ByteWords
import Mathlib.Data.List.DropRight
import Mathlib.Tactic.Common

/-!
# Dictionary files

`load_extras_file` reads a dictionary line by line. A line is trimmed, its closing quote is
cut off, a label, a level and a number in brackets are skipped, and what follows the opening
quote is decoded. A line that is empty, a comment, malformed or above the level is passed
over.

Bytes are those of the C locale. A line read by `fgets` ends at its first null byte.

A dictionary that prints each token as `name@0="..."`, with every byte that is not printable
escaped, is read back as its tokens (`loadExtrasFile_printed`).
-/

set_option autoImplicit false

namespace GreenFuzz.AflFuzz

open Library

def MAX_DICT_FILE : ℕ := 128

def MAX_LINE : ℕ := 8192

/-! ## Characters -/

/-- The byte of an ASCII character. -/
def ord (c : Char) : Byte := BitVec.ofNat 8 c.toNat

def quoteMark : Byte := 34

def backslash : Byte := 92

def newline : Byte := 10

/-- `isspace`. -/
def isSpace (b : Byte) : Bool := b = 32 || (9 ≤ b.toNat && b.toNat ≤ 13)

/-- `isdigit`. -/
def isDigit (b : Byte) : Bool := 48 ≤ b.toNat && b.toNat ≤ 57

/-- `isalnum`. -/
def isAlnum (b : Byte) : Bool :=
  isDigit b || (65 ≤ b.toNat && b.toNat ≤ 90) || (97 ≤ b.toNat && b.toNat ≤ 122)

/-- `isalnum(*lptr) || *lptr == '_'`. -/
def isLabel (b : Byte) : Bool := isAlnum b || b = ord '_'

/-- `isxdigit`. -/
def isXdigit (b : Byte) : Bool :=
  isDigit b || (65 ≤ b.toNat && b.toNat ≤ 70) || (97 ≤ b.toNat && b.toNat ≤ 102)

/-- `strchr(hexdigits, tolower(c)) - hexdigits`, for a hexadecimal digit. -/
def hexValue (b : Byte) : Byte :=
  if isDigit b then b - 48 else if b.toNat ≤ 70 then b - 65 + 10 else b - 97 + 10

/-- `case 1 ... 31: case 128 ... 255:`. -/
def isSkipped (b : Byte) : Bool := (1 ≤ b.toNat && b.toNat ≤ 31) || 128 ≤ b.toNat

/-- `atoi`, where the number is an `int`. In C a larger one is undefined. -/
def atoi (text : List Byte) : ℤ :=
  let digits (text : List Byte) : ℤ :=
    (text.takeWhile isDigit).foldl (fun n b => n * 10 + (b.toNat - 48 : ℕ)) 0
  match text.dropWhile isSpace with
  | [] => 0
  | b :: rest => if b = ord '-' then -digits rest else if b = ord '+' then digits rest
      else digits (b :: rest)

/-! ## Reading lines -/

/-- `fgets` for at most the given number of bytes: the bytes read and the rest of the file. -/
def fgets : ℕ → List Byte → List Byte × List Byte
  | 0, file => ([], file)
  | _ + 1, [] => ([], [])
  | n + 1, b :: file =>
      if b = newline then ([b], file) else (b :: (fgets n file).1, (fgets n file).2)

theorem fgets_snd_length_le (n : ℕ) (file : List Byte) :
    (fgets n file).2.length ≤ file.length := by
  induction n generalizing file with
  | zero => exact le_rfl
  | succ n ih =>
      cases file with
      | nil => exact le_rfl
      | cons b file =>
          simp only [fgets]
          split
          · exact Nat.le_succ _
          · exact (ih file).trans (Nat.le_succ _)

theorem fgets_snd_length_lt (n : ℕ) (b : Byte) (file : List Byte) :
    (fgets (n + 1) (b :: file)).2.length < (b :: file).length := by
  simp only [fgets]
  split
  · exact Nat.lt_succ_self _
  · exact Nat.lt_succ_of_le (fgets_snd_length_le n file)

/-- The buffers that `fgets(buf, MAX_LINE, f)` fills until the end of the file. -/
def readBuffers : List Byte → List (List Byte)
  | [] => []
  | b :: file =>
      (fgets (MAX_LINE - 1) (b :: file)).1 :: readBuffers (fgets (MAX_LINE - 1) (b :: file)).2
termination_by file => file.length
decreasing_by exact fgets_snd_length_lt (MAX_LINE - 2) b file

/-! ## Parsing a line -/

/-- The byte that an escape after a backslash stands for, and what follows the escape. -/
def unescape : List Byte → Option (Byte × List Byte)
  | [] => none
  | c :: rest =>
      if c = backslash ∨ c = quoteMark then some (c, rest)
      else
        match rest with
        | hi :: lo :: more =>
            if c ≠ ord 'x' ∨ !isXdigit hi ∨ !isXdigit lo then none
            else some (hexValue hi <<< 4 ||| hexValue lo, more)
        | _ => none

theorem unescape_length {text more : List Byte} {b : Byte}
    (found : unescape text = some (b, more)) : more.length < text.length := by
  cases text with
  | nil => cases found
  | cons c rest =>
      simp only [unescape] at found
      split at found
      · cases found
        exact Nat.lt_succ_self _
      · split at found
        · split at found
          · cases found
          · cases found
            simp only [List.length_cons]
            omega
        · cases found

/-- The loop over the bytes between the quotes. An escape that is invalid loses its
backslash. -/
def decodeKeyword : List Byte → List Byte
  | [] => []
  | b :: rest =>
      if isSkipped b then decodeKeyword rest
      else if b = backslash then
        match _found : unescape rest with
        | some (c, more) => c :: decodeKeyword more
        | none => decodeKeyword rest
      else b :: decodeKeyword rest
termination_by text => text.length
decreasing_by
  · exact Nat.lt_succ_self _
  · exact Nat.lt_succ_of_lt (unescape_length _found)
  · exact Nat.lt_succ_self _
  · exact Nat.lt_succ_self _

/-- A line without the white space around it. -/
def trimLine (line : List Byte) : List Byte := (line.dropWhile isSpace).rdropWhile isSpace

/-- `while (isalnum(*lptr) || *lptr == '_') ++lptr;`. -/
def skipLabel (text : List Byte) : List Byte :=
  text.dropWhile isLabel

/-- `if (*lptr == '@')`: nothing is left of a line above the level. -/
def skipLevel (dictLevel : ℤ) : List Byte → Option (List Byte)
  | [] => some []
  | b :: rest =>
      if b = ord '@' then
        if dictLevel < atoi rest then none else some (rest.dropWhile isDigit)
      else some (b :: rest)

/-- `if (*lptr == '[')`. -/
def skipNumber : List Byte → List Byte
  | [] => []
  | b :: rest =>
      if b = ord '[' then
        match rest.dropWhile isDigit with
        | c :: more => if c = ord ']' then more else c :: more
        | [] => []
      else b :: rest

/-- The text between the quotes of a line, if it has one. -/
def quotedText (dictLevel : ℤ) (line : List Byte) : Option (List Byte) :=
  let text := trimLine line
  if text.head? = none ∨ text.head? = some (ord '#') then none
  else if text.getLast? ≠ some (quoteMark) then none
  else do
    let text ← skipLevel dictLevel (skipLabel text.dropLast)
    let text := (skipNumber text).dropWhile fun b => isSpace b || b = ord '='
    if text.head? ≠ some (quoteMark) ∨ text.tail = [] then none else some text.tail

/-- `afl->extras`, and the two lengths that the function updates. -/
structure ExtrasState where
  extras : List (List Byte)
  minLen : ℕ
  maxLen : ℕ
  deriving DecidableEq, Repr

/-- One round of the loop over the lines. -/
def loadLine (dictLevel : ℤ) (s : ExtrasState) (buf : List Byte) : ExtrasState :=
  match quotedText dictLevel (buf.takeWhile fun b => b ≠ 0) with
  | none => s
  | some text =>
      let data := decodeKeyword text
      if MAX_DICT_FILE < data.length then s
      else
        { extras := s.extras ++ [data]
          minLen := if data.length < s.minLen then data.length else s.minLen
          maxLen := if s.maxLen < data.length then data.length else s.maxLen }

/-- `load_extras_file`, where the level is `(s32)dict_level`. -/
def loadExtrasFile (dictLevel : ℤ) (s : ExtrasState) (file : List Byte) : ExtrasState :=
  (readBuffers file).foldl (loadLine dictLevel) s

/-! ## Printed dictionaries -/

/-- A byte that is written as it is. -/
def IsPlain (b : Byte) : Prop :=
  32 ≤ b.toNat ∧ b.toNat ≤ 126 ∧ b ≠ quoteMark ∧ b ≠ backslash

instance (b : Byte) : Decidable (IsPlain b) := inferInstanceAs (Decidable (_ ∧ _ ∧ _ ∧ _))

/-- The ways to write one byte of a token. -/
inductive WritesByte : Byte → List Byte → Prop where
  | plain (b : Byte) : IsPlain b → WritesByte b [b]
  | escaped (b : Byte) : b = quoteMark ∨ b = backslash → WritesByte b [backslash, b]
  | hex (b hi lo : Byte) : isXdigit hi → isXdigit lo → (hexValue hi).toNat = b.toNat / 16 →
      (hexValue lo).toNat = b.toNat % 16 → WritesByte b [backslash, ord 'x', hi, lo]

/-- The ways to write a token. -/
inductive WritesToken : List Byte → List Byte → Prop where
  | nil : WritesToken [] []
  | cons {b : Byte} {token written rest : List Byte} :
      WritesByte b written → WritesToken token rest → WritesToken (b :: token) (written ++ rest)

/-- What stands between the label of a printed line and the token. -/
def levelZero : List Byte := [ord '@', ord '0', ord '=', quoteMark]

/-- The line `name@0="..."`. -/
def printedLine (label written : List Byte) : List Byte :=
  label ++ (levelZero ++ (written ++ [quoteMark]))

/-- A line that prints a token. -/
inductive PrintsToken : List Byte → List Byte → Prop where
  | line {label token written : List Byte} :
      (∀ b ∈ label, isLabel b = true) → WritesToken token written →
        PrintsToken token (printedLine label written)

/-- The file with the given lines. -/
def dictionaryFile (lines : List (List Byte)) : List Byte :=
  (lines.map fun line => line ++ [newline]).flatten

/-! ## Reading a printed dictionary back -/

section Decode

theorem decodeKeyword_plain {b : Byte} (printed : isSkipped b = false) (plain : b ≠ backslash)
    (rest : List Byte) : decodeKeyword (b :: rest) = b :: decodeKeyword rest := by
  rw [decodeKeyword]
  simp only [printed, Bool.false_eq_true, if_false, if_neg plain]

theorem decodeKeyword_escape {text more : List Byte} {b : Byte}
    (found : unescape text = some (b, more)) :
    decodeKeyword (backslash :: text) = b :: decodeKeyword more := by
  have printed : isSkipped backslash = false := by decide
  rw [decodeKeyword]
  simp only [printed, Bool.false_eq_true, if_false, if_true]
  split
  · rename_i c rest known
    rw [found] at known
    cases known
    rfl
  · rename_i none
    rw [found] at none
    cases none

/-- A byte is made of its two hexadecimal digits. -/
theorem hex_digits {b hi lo : Byte} (high : hi.toNat = b.toNat / 16)
    (low : lo.toNat = b.toNat % 16) : hi <<< 4 ||| lo = b := by
  have digits : ∀ b : Byte, BitVec.ofNat 8 (b.toNat / 16) <<< 4 ||| BitVec.ofNat 8 (b.toNat % 16) =
      b := by decide
  have highDigit : hi = BitVec.ofNat 8 (b.toNat / 16) := by
    apply BitVec.eq_of_toNat_eq
    rw [BitVec.toNat_ofNat, high]
    omega
  have lowDigit : lo = BitVec.ofNat 8 (b.toNat % 16) := by
    apply BitVec.eq_of_toNat_eq
    rw [BitVec.toNat_ofNat, low]
    omega
  rw [highDigit, lowDigit]
  exact digits b

/-- The decoder takes one written byte off the text. -/
theorem WritesByte.decode {b : Byte} {written : List Byte} (writes : WritesByte b written)
    (rest : List Byte) : decodeKeyword (written ++ rest) = b :: decodeKeyword rest := by
  cases writes with
  | plain plain =>
      obtain ⟨low, high, -, unslashed⟩ := plain
      refine decodeKeyword_plain ?_ unslashed rest
      simp only [isSkipped, Bool.or_eq_false_iff, Bool.and_eq_false_iff, decide_eq_false_iff_not]
      omega
  | escaped special =>
      have found : unescape (b :: rest) = some (b, rest) := by
        simp only [unescape, or_comm.mp special, if_true]
      exact decodeKeyword_escape found
  | hex hi lo digitHi digitLo high low =>
      have letter : ¬ (ord 'x' = backslash ∨ ord 'x' = quoteMark) := by decide
      have found : unescape (ord 'x' :: hi :: lo :: rest) = some (b, rest) := by
        simp only [unescape, if_neg letter, digitHi, digitLo, hex_digits high low, ne_eq,
          not_true, Bool.not_true, Bool.false_eq_true, or_self, if_false]
      exact decodeKeyword_escape found

/-- **A written token is decoded to the token.** -/
theorem WritesToken.decode {token written : List Byte} (writes : WritesToken token written) :
    decodeKeyword written = token := by
  induction writes with
  | nil => rw [decodeKeyword]
  | cons byte _ ih => rw [byte.decode, ih]

end Decode

section Lines

/-- A byte that may stand in a printed line. -/
def IsPrint (b : Byte) : Prop := 32 ≤ b.toNat ∧ b.toNat ≤ 126

instance (b : Byte) : Decidable (IsPrint b) := inferInstanceAs (Decidable (_ ∧ _))

theorem isPrint_of_isXdigit {b : Byte} (digit : isXdigit b = true) : IsPrint b := by
  simp only [isXdigit, isDigit, Bool.or_eq_true, Bool.and_eq_true, decide_eq_true_eq] at digit
  simp only [IsPrint]
  omega

/-- A label has printable characters that are no white space. -/
theorem isPrint_of_isLabel {b : Byte} (label : isLabel b = true) :
    IsPrint b ∧ isSpace b = false ∧ b ≠ ord '#' := by
  have all : ∀ b : Byte, isLabel b = true → IsPrint b ∧ isSpace b = false ∧ b ≠ ord '#' := by
    decide
  exact all b label

theorem WritesByte.isPrint {b : Byte} {written : List Byte} (writes : WritesByte b written) :
    ∀ c ∈ written, IsPrint c := by
  cases writes with
  | plain plain => exact List.forall_mem_singleton.mpr ⟨plain.1, plain.2.1⟩
  | escaped special =>
      refine List.forall_mem_cons.mpr ⟨by decide, List.forall_mem_singleton.mpr ?_⟩
      rcases special with rfl | rfl <;> decide
  | hex hi lo digitHi digitLo _ _ =>
      refine List.forall_mem_cons.mpr ⟨by decide, List.forall_mem_cons.mpr ⟨by decide, ?_⟩⟩
      exact List.forall_mem_cons.mpr ⟨isPrint_of_isXdigit digitHi,
        List.forall_mem_singleton.mpr (isPrint_of_isXdigit digitLo)⟩

theorem WritesToken.isPrint {token written : List Byte} (writes : WritesToken token written) :
    ∀ c ∈ written, IsPrint c := by
  induction writes with
  | nil => exact fun c member => absurd member List.not_mem_nil
  | cons byte _ ih => exact List.forall_mem_append.mpr ⟨byte.isPrint, ih⟩

theorem WritesToken.ne_nil {token written : List Byte} (writes : WritesToken token written)
    (some : token ≠ []) : written ≠ [] := by
  rintro rfl
  have decoded := writes.decode
  rw [decodeKeyword] at decoded
  exact some decoded.symm

theorem PrintsToken.isPrint {token line : List Byte} (prints : PrintsToken token line) :
    ∀ c ∈ line, IsPrint c := by
  cases prints with
  | line alnum writes =>
      refine List.forall_mem_append.mpr ⟨fun c member => (isPrint_of_isLabel (alnum c member)).1,
        List.forall_mem_append.mpr ⟨by decide, List.forall_mem_append.mpr
          ⟨writes.isPrint, by decide⟩⟩⟩

variable {label written : List Byte}

/-- The first byte of a printed line. -/
theorem printedLine_head (alnum : ∀ b ∈ label, isLabel b = true) (written : List Byte) :
    ∃ b rest, printedLine label written = b :: rest ∧ isSpace b = false ∧ b ≠ ord '#' := by
  cases label with
  | nil => exact ⟨ord '@', _, rfl, by decide, by decide⟩
  | cons b label =>
      have head := isPrint_of_isLabel (alnum b List.mem_cons_self)
      exact ⟨b, _, rfl, head.2⟩

/-- White space after the closing quote is trimmed, and nothing else. -/
theorem trimLine_printedLine (alnum : ∀ b ∈ label, isLabel b = true) {ending : List Byte}
    (blank : ∀ b ∈ ending, isSpace b = true) :
    trimLine (printedLine label written ++ ending) = printedLine label written := by
  obtain ⟨b, rest, first, dark, -⟩ := printedLine_head alnum written
  have left : (printedLine label written ++ ending).dropWhile isSpace =
      printedLine label written ++ ending := by
    rw [first, List.cons_append, List.dropWhile_cons_of_neg (by simp [dark])]
  rw [trimLine, left]
  clear left first dark
  induction ending using List.reverseRecOn with
  | nil =>
      have last : ¬ isSpace quoteMark = true := by decide
      rw [List.append_nil, printedLine, ← List.append_assoc, ← List.append_assoc,
        List.rdropWhile_concat_neg _ _ _ last]
  | append_singleton ending c ih =>
      rw [← List.append_assoc, List.rdropWhile_concat_pos _ _ _ (blank c (by simp))]
      exact ih fun b member => blank b (List.mem_append_left _ member)

/-- The label and the level are skipped. -/
theorem skipLevel_printed {dictLevel : ℤ} (level : 0 ≤ dictLevel)
    (alnum : ∀ b ∈ label, isLabel b = true) (written : List Byte) :
    skipLevel dictLevel (skipLabel (label ++ (levelZero ++ written))) =
      some (ord '=' :: quoteMark :: written) := by
  have skipped : skipLabel (label ++ (levelZero ++ written)) =
      ord '@' :: ord '0' :: ord '=' :: quoteMark :: written := by
    rw [skipLabel, List.dropWhile_append_of_pos alnum]
    rfl
  have zero : atoi (ord '0' :: ord '=' :: quoteMark :: written) = 0 := rfl
  rw [skipped, skipLevel, if_pos rfl, zero, if_neg (not_lt.mpr level)]
  rfl

/-- **The text between the quotes of a printed line** is the written token. -/
theorem quotedText_printedLine {dictLevel : ℤ} (level : 0 ≤ dictLevel)
    (alnum : ∀ b ∈ label, isLabel b = true) (some : written ≠ []) {ending : List Byte}
    (blank : ∀ b ∈ ending, isSpace b = true) :
    quotedText dictLevel (printedLine label written ++ ending) = written := by
  obtain ⟨b, rest, first, -, comment⟩ := printedLine_head alnum written
  have used : ¬ ((printedLine label written).head? = none ∨
      (printedLine label written).head? = Option.some (ord '#')) := by
    rw [first]
    simpa using comment
  have last : ¬ (printedLine label written).getLast? ≠ Option.some quoteMark := by
    simp [printedLine]
  have body : (printedLine label written).dropLast = label ++ (levelZero ++ written) := by
    rw [printedLine, ← List.append_assoc, ← List.append_assoc, List.dropLast_concat,
      List.append_assoc]
  simp only [quotedText, trimLine_printedLine alnum blank, if_neg used, if_neg last, body,
    skipLevel_printed level alnum]
  exact if_neg fun malformed => malformed.elim (fun head => head rfl) some

/-- One printed line adds its token. -/
theorem loadLine_printed {token line : List Byte} (prints : PrintsToken token line)
    {dictLevel : ℤ} (level : 0 ≤ dictLevel)
    (sized : 1 ≤ token.length ∧ token.length ≤ MAX_DICT_FILE) {ending : List Byte}
    (blank : ending = [] ∨ ending = [newline]) (s : ExtrasState) :
    loadLine dictLevel s (line ++ ending) =
      { extras := s.extras ++ [token]
        minLen := min token.length s.minLen
        maxLen := max s.maxLen token.length } := by
  have whole : (line ++ ending).takeWhile (fun b => b ≠ 0) = line ++ ending := by
    refine List.takeWhile_eq_self_iff.mpr (List.forall_mem_append.mpr ⟨fun b member => ?_, ?_⟩)
    · have printable := prints.isPrint b member
      simp only [ne_eq, decide_not, Bool.not_eq_true', decide_eq_false_iff_not]
      rintro rfl
      revert printable
      decide
    · rcases blank with rfl | rfl <;> decide
  have spaces : ∀ b ∈ ending, isSpace b = true := by
    rcases blank with rfl | rfl <;> decide
  rw [loadLine, whole]
  cases prints with
  | line alnum writes =>
      have some : token ≠ [] := List.ne_nil_of_length_pos sized.1
      rw [quotedText_printedLine level alnum (writes.ne_nil some) spaces]
      simp only [writes.decode, if_neg (not_lt.mpr sized.2), min_def_lt, max_def_lt]

theorem loadLine_newline (dictLevel : ℤ) (s : ExtrasState) :
    loadLine dictLevel s [newline] = s := by
  have whole : [newline].takeWhile (fun b => b ≠ 0) = [newline] := by decide
  have empty : trimLine [newline] = [] := by decide
  rw [loadLine, whole]
  simp only [quotedText, empty, List.head?_nil, true_or, if_true]

end Lines

/-! ## Reading the file -/

section File

/-- A line that fits the buffer is read with its newline. -/
theorem fgets_short {n : ℕ} {line : List Byte} (short : line.length < n)
    (inside : newline ∉ line) (file : List Byte) :
    fgets n (line ++ newline :: file) = (line ++ [newline], file) := by
  induction line generalizing n with
  | nil =>
      obtain ⟨n, rfl⟩ := Nat.exists_eq_succ_of_ne_zero (Nat.ne_of_gt short)
      rfl
  | cons b line ih =>
      obtain ⟨n, rfl⟩ := Nat.exists_eq_succ_of_ne_zero (Nat.ne_zero_of_lt short)
      rw [List.mem_cons, not_or] at inside
      rw [List.cons_append, fgets, if_neg (by exact Ne.symm inside.1),
        ih (Nat.lt_of_succ_lt_succ short) inside.2]
      rfl

/-- A line that fills the buffer is read without its newline. -/
theorem fgets_full {line : List Byte} (inside : newline ∉ line) (file : List Byte) :
    fgets line.length (line ++ file) = (line, file) := by
  induction line with
  | nil => rfl
  | cons b line ih =>
      rw [List.mem_cons, not_or] at inside
      rw [List.length_cons, List.cons_append, fgets, if_neg (by exact Ne.symm inside.1),
        ih inside.2]

theorem readBuffers_of_ne_nil {file : List Byte} (some : file ≠ []) :
    readBuffers file =
      (fgets (MAX_LINE - 1) file).1 :: readBuffers (fgets (MAX_LINE - 1) file).2 := by
  obtain ⟨b, file, rfl⟩ := List.exists_cons_of_ne_nil some
  rw [readBuffers]

/-- A printed line at the start of a file adds its token. -/
theorem loadExtrasFile_cons {token line : List Byte} (prints : PrintsToken token line)
    {dictLevel : ℤ} (level : 0 ≤ dictLevel)
    (sized : 1 ≤ token.length ∧ token.length ≤ MAX_DICT_FILE)
    (short : line.length < MAX_LINE) (s : ExtrasState) (file : List Byte) :
    loadExtrasFile dictLevel s (line ++ newline :: file) =
      loadExtrasFile dictLevel
        { extras := s.extras ++ [token]
          minLen := min token.length s.minLen
          maxLen := max s.maxLen token.length } file := by
  have inside : newline ∉ line := by
    intro member
    have printable := prints.isPrint newline member
    revert printable
    decide
  rw [loadExtrasFile, readBuffers_of_ne_nil (by simp)]
  by_cases fits : line.length < MAX_LINE - 1
  · rw [fgets_short fits inside, List.foldl_cons,
      loadLine_printed prints level sized (Or.inr rfl)]
    rfl
  · -- the newline is left for the next buffer, which is an empty line
    have full : MAX_LINE - 1 = line.length := by omega
    have rest : fgets (MAX_LINE - 1) (newline :: file) = ([newline], file) := rfl
    have loaded := loadLine_printed prints level sized (Or.inl rfl) s
    rw [List.append_nil] at loaded
    rw [full, fgets_full inside, List.foldl_cons, loaded, readBuffers_of_ne_nil (by simp), rest,
      List.foldl_cons, loadLine_newline]
    rfl

end File

/-- **A printed dictionary is read back**: its tokens are added in order, and the two lengths
are lowered and raised to the extreme lengths of the tokens. -/
theorem loadExtrasFile_printed {tokens lines : List (List Byte)}
    (prints : List.Forall₂ PrintsToken tokens lines) {dictLevel : ℤ} (level : 0 ≤ dictLevel)
    (sized : ∀ token ∈ tokens, 1 ≤ token.length ∧ token.length ≤ MAX_DICT_FILE)
    (short : ∀ line ∈ lines, line.length < MAX_LINE) (s : ExtrasState) :
    loadExtrasFile dictLevel s (dictionaryFile lines) =
      { extras := s.extras ++ tokens
        minLen := tokens.foldl (fun least token => min token.length least) s.minLen
        maxLen := tokens.foldl (fun most token => max most token.length) s.maxLen } := by
  induction prints generalizing s with
  | nil =>
      simp only [loadExtrasFile, dictionaryFile, List.map_nil, List.flatten_nil, readBuffers,
        List.foldl_nil, List.append_nil]
  | @cons token line tokens lines first rest ih =>
      have file : dictionaryFile (line :: lines) = line ++ newline :: dictionaryFile lines := by
        simp [dictionaryFile]
      rw [file, loadExtrasFile_cons first level (sized token List.mem_cons_self)
        (short line List.mem_cons_self),
        ih (fun t member => sized t (List.mem_cons_of_mem _ member))
        (fun l member => short l (List.mem_cons_of_mem _ member))]
      simp only [List.append_assoc, List.singleton_append, List.foldl_cons]

/-- The line `k@0="\x00\"A"`. -/
def exampleLine : List Byte :=
  printedLine [ord 'k'] ([backslash, ord 'x', ord '0', ord '0'] ++ ([backslash, quoteMark] ++
    ([ord 'A'] ++ [])))

theorem loadExtrasFile_printed_example :
    loadExtrasFile 0 ⟨[], MAX_DICT_FILE, 0⟩ (dictionaryFile [exampleLine]) =
      ⟨[[0, quoteMark, ord 'A']], 3, 3⟩ := by
  refine loadExtrasFile_printed (.cons (.line (by decide) ?_) .nil) le_rfl (by decide) (by decide)
    ⟨[], MAX_DICT_FILE, 0⟩
  exact .cons (.hex 0 (ord '0') (ord '0') (by decide) (by decide) (by decide) (by decide))
    (.cons (.escaped quoteMark (Or.inl rfl)) (.cons (.plain (ord 'A') (by decide)) .nil))

end GreenFuzz.AflFuzz
