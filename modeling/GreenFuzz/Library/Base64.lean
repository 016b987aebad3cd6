import GreenFuzz.Library.ByteWords

/-!
# Base64

The padded encoding of RFC 4648: every three bytes become four characters, and one or two bytes
at the end are filled up with zero bits and with `=`.
-/

set_option autoImplicit false

namespace GreenFuzz.Library

/-- The character of a value below 64. -/
def base64Char (value : ℕ) : Byte :=
  if value < 26 then BitVec.ofNat 8 (value + 65)
  else if value < 52 then BitVec.ofNat 8 (value + 71)
  else if value < 62 then BitVec.ofNat 8 (value - 4)
  else if value = 62 then 43
  else 47

/-- `=`. -/
def base64Pad : Byte := 61

/-- Character `k` of 24 bits. -/
def quantumChar (v k : ℕ) : Byte := base64Char (v / 2 ^ (18 - 6 * k) % 64)

/-- The encoding of a list of bytes. -/
def encodeBase64 : List Byte → List Byte
  | [] => []
  | [a] =>
      let v := a.toNat * 2 ^ 16
      [quantumChar v 0, quantumChar v 1, base64Pad, base64Pad]
  | [a, b] =>
      let v := a.toNat * 2 ^ 16 + b.toNat * 2 ^ 8
      [quantumChar v 0, quantumChar v 1, quantumChar v 2, base64Pad]
  | a :: b :: c :: rest =>
      let v := a.toNat * 2 ^ 16 + b.toNat * 2 ^ 8 + c.toNat
      quantumChar v 0 :: quantumChar v 1 :: quantumChar v 2 :: quantumChar v 3 :: encodeBase64 rest

end GreenFuzz.Library
