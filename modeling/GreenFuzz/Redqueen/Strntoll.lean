import GreenFuzz.Library.ByteWords
import Mathlib.Data.List.TakeDrop

/-!
# Numbers in a text

`strtoll` and `strtoull` with base 0: white space, a sign, `0x` before hexadecimal digits or
`0` before octal ones, and digits. The value is cut at the limits of the type, and then `errno`
is `ERANGE`.

`strntoll` and `strntoull` are the wrappers of the source. They skip blanks, look at no more
than 63 bytes, and do not reset `errno`, so that a value at a limit is refused after any earlier
overflow. The number ends inside the text (`strntoWith_end_le`).
-/

set_option autoImplicit false

namespace GreenFuzz.Redqueen

open Library

/-! ## The standard library -/

/-- `isspace`, in the C locale. -/
def isSpace (byte : Byte) : Bool := byte = 32 || (9 ≤ byte && byte ≤ 13)

/-- The value of a digit, of bases up to 16. -/
def digitValue (byte : Byte) : Option ℕ :=
  if 48 ≤ byte ∧ byte ≤ 57 then some (byte - 48).toNat
  else if 65 ≤ byte ∧ byte ≤ 70 then some (byte - 55).toNat
  else if 97 ≤ byte ∧ byte ≤ 102 then some (byte - 87).toNat
  else none

def isDigitOf (base : ℕ) (byte : Byte) : Bool := (digitValue byte).any fun value => value < base

/-- What is written in a text: the sign, the digits, and how many bytes were read. -/
structure Numeral where
  negative : Bool
  magnitude : ℕ
  stop : ℕ

/-- The length of the sign, if there is one. -/
def signLength (text : List Byte) : ℕ :=
  if text.head? = some 43 ∨ text.head? = some 45 then 1 else 0

/-- The base of a numeral after its sign, and the length of its prefix. -/
def numeralBase : List Byte → ℕ × ℕ
  | first :: mark :: digit :: _ =>
      if first = 48 then
        if (mark = 120 ∨ mark = 88) ∧ isDigitOf 16 digit then (16, 2) else (8, 0)
      else (10, 0)
  | [first, _] | [first] => if first = 48 then (8, 0) else (10, 0)
  | [] => (10, 0)

def numeralValue (base : ℕ) (digits : List Byte) : ℕ :=
  digits.foldl (fun value digit => base * value + (digitValue digit).getD 0) 0

/-- The numeral at the beginning of a text. Without digits nothing is read. -/
def readNumeral (text : List Byte) : Numeral :=
  let spaces := (text.takeWhile isSpace).length
  let signed := text.drop spaces
  let body := signed.drop (signLength signed)
  let base := numeralBase body
  let digits := (body.drop base.2).takeWhile (isDigitOf base.1)
  if digits = [] then ⟨false, 0, 0⟩
  else
    { negative := signed.head? = some 45
      magnitude := numeralValue base.1 digits
      stop := spaces + signLength signed + base.2 + digits.length }

/-- The value that `strtoll` returns, and whether it sets `errno` to `ERANGE`. -/
def strtollValue (number : Numeral) : BitVec 64 × Bool :=
  if number.negative then
    if number.magnitude ≤ 2 ^ 63 then (-BitVec.ofNat 64 number.magnitude, false)
    else (BitVec.ofNat 64 (2 ^ 63), true)
  else if number.magnitude < 2 ^ 63 then (BitVec.ofNat 64 number.magnitude, false)
  else (BitVec.ofNat 64 (2 ^ 63 - 1), true)

/-- The value that `strtoull` returns, and whether it sets `errno` to `ERANGE`. -/
def strtoullValue (number : Numeral) : BitVec 64 × Bool :=
  if number.magnitude < 2 ^ 64 then
    (if number.negative then -BitVec.ofNat 64 number.magnitude
      else BitVec.ofNat 64 number.magnitude, false)
  else (BitVec.allOnes 64, true)

/-! ## The wrappers -/

/-- `strntoll` and `strntoull`: where the number ends and its value, unless there is nothing to
read or the value is one of the `limits` and `errno` is `ERANGE`, and whether it is `ERANGE`
afterwards. -/
def strntoWith (value : Numeral → BitVec 64 × Bool) (limits : List (BitVec 64))
    (str : List Byte) (erange : Bool) : Option (ℕ × BitVec 64) × Bool :=
  let blanks := (str.takeWhile (· = 32)).length
  let beg := str.drop blanks
  if beg = [] then (none, erange)
  else
    let number := readNumeral (beg.take 63)
    let ret := value number
    let erange := erange || ret.2
    if ret.1 ∈ limits ∧ erange then (none, erange)
    else (some (blanks + number.stop, ret.1), erange)

def strntoll : List Byte → Bool → Option (ℕ × BitVec 64) × Bool :=
  strntoWith strtollValue [BitVec.ofNat 64 (2 ^ 63), BitVec.ofNat 64 (2 ^ 63 - 1)]

def strntoull : List Byte → Bool → Option (ℕ × BitVec 64) × Bool :=
  strntoWith strtoullValue [BitVec.allOnes 64]

/-! ## Where a number ends -/

theorem length_takeWhile_le {α : Type} (test : α → Bool) (items : List α) :
    (items.takeWhile test).length ≤ items.length :=
  (List.takeWhile_sublist test).length_le

theorem numeralBase_prefix_le (body : List Byte) : (numeralBase body).2 ≤ body.length := by
  unfold numeralBase
  split
  · split
    · split
      · exact Nat.le_add_left _ _
      · exact Nat.zero_le _
    · exact Nat.zero_le _
  · split <;> exact Nat.zero_le _
  · split <;> exact Nat.zero_le _
  · exact Nat.zero_le _

theorem signLength_le (text : List Byte) : signLength text ≤ text.length := by
  cases text with
  | nil => exact Nat.le_of_eq rfl
  | cons first rest =>
      unfold signLength
      split
      · exact Nat.le_add_left _ _
      · exact Nat.zero_le _

/-- A numeral is inside its text. -/
theorem readNumeral_stop_le (text : List Byte) : (readNumeral text).stop ≤ text.length := by
  have spaces := length_takeWhile_le isSpace text
  have sign := signLength_le (text.drop (text.takeWhile isSpace).length)
  unfold readNumeral
  dsimp only
  generalize (text.takeWhile isSpace).length = skipped at spaces sign
  generalize signLength (text.drop skipped) = signed at sign
  have base := numeralBase_prefix_le ((text.drop skipped).drop signed)
  generalize numeralBase ((text.drop skipped).drop signed) = parts at base
  have digits := length_takeWhile_le (isDigitOf parts.1)
    (((text.drop skipped).drop signed).drop parts.2)
  simp only [List.length_drop] at sign base digits
  split
  · exact Nat.zero_le _
  · dsimp only
    omega

/-- The number that a wrapper finds ends inside the text. -/
theorem strntoWith_end_le {value : Numeral → BitVec 64 × Bool} {limits : List (BitVec 64)}
    {str : List Byte} {erange : Bool} {stop : ℕ} {number : BitVec 64}
    (found : (strntoWith value limits str erange).1 = some (stop, number)) : stop ≤ str.length := by
  unfold strntoWith at found
  dsimp only at found
  have blanks := length_takeWhile_le (fun byte : Byte => decide (byte = 32)) str
  have stop_le := readNumeral_stop_le
    ((str.drop (str.takeWhile fun byte => decide (byte = 32)).length).take 63)
  rw [List.length_take, List.length_drop] at stop_le
  split at found
  · cases found
  · split at found
    · cases found
    · cases found
      omega

end GreenFuzz.Redqueen
