import GreenFuzz.AflFuzz.Extras
import GreenFuzz.AflFuzz.State
import GreenFuzz.Library.Base64
import GreenFuzz.Redqueen.ItsFuzz

/-!
# The base64 helpers

`to_base64` looks ahead as long as the position is below the length of the encoding, not that of
the source. The look-ahead of a last group of one or two bytes takes bytes behind the source, and
their high bits change its last character. `from_base64` decodes what RFC 4648 says
(`fromBase64_encodeBase64`). Both are right together exactly where those bits are 0 and the
length of the encoding is a `u32` (`base64_inverse_iff`).
-/

set_option autoImplicit false

namespace GreenFuzz.Redqueen

open Library AflFuzz

/-! ## The functions -/

def base64EncodeTable : List Byte :=
  "ABCDEFGHIJKLMNOPQRSTUVWXYZabcdefghijklmnopqrstuvwxyz0123456789+/".toList.map ord

def base64DecodeTable : List Byte :=
  [ 62, 0,  0,  0,  63, 52, 53, 54, 55, 56, 57, 58, 59, 60, 61, 0,
    0,  0,  0,  0,  0,  0,  0,  1,  2,  3,  4,  5,  6,  7,  8,  9,
    10, 11, 12, 13, 14, 15, 16, 17, 18, 19, 20, 21, 22, 23, 24, 25,
    0,  0,  0,  0,  0,  0,  26, 27, 28, 29, 30, 31, 32, 33, 34, 35,
    36, 37, 38, 39, 40, 41, 42, 43, 44, 45, 46, 47, 48, 49, 50, 51]

/-- `base64_encode_table[bits & 0x3F]`. -/
def encodeAt (bits : BitVec 32) : Byte := base64EncodeTable.getD (bits &&& 0x3F).toNat 0

/-- `base64_decode_table[byte - 43]`, if the index is inside the table. -/
def decodeAt (byte : Byte) : Option (BitVec 32) :=
  if 43 ≤ byte then (base64DecodeTable[(byte - 43).toNat]?).map fun value => value.setWidth 32
  else none

/-- The `len` of `to_base64`. -/
def encodedLen (dstLen : ℕ) : ℕ :=
  let len := u32 (dstLen / 3 * 4)
  if dstLen % 3 ≠ 0 then u32 (len + 4) else len

/-- `v` with another byte behind it, or with zero bits. -/
def lookAhead (src : Buffer) (len i : ℕ) (v : BitVec 32) : BitVec 32 :=
  if i < len then v <<< 8 ||| (src i).setWidth 32 else v <<< 8

/-- One round of the loop of `to_base64`: four bytes of `dst`. -/
def toBase64Group (src : Buffer) (dstLen len i : ℕ) : List Byte :=
  let v := (src i).setWidth 32
  let v := lookAhead src len (i + 1) v
  let v := lookAhead src len (i + 2) v
  [ encodeAt (v >>> 18), encodeAt (v >>> 12),
    if i + 1 < dstLen then encodeAt (v >>> 6) else 61,
    if i + 2 < dstLen then encodeAt v else 61 ]

def toBase64Groups (src : Buffer) (dstLen len : ℕ) : ℕ → ℕ → List Byte
  | 0, _ => []
  | rounds + 1, i => toBase64Group src dstLen len i ++ toBase64Groups src dstLen len rounds (i + 3)

/-- `to_base64`: what it returns, and what it writes to `dst`. -/
def toBase64 (src : Buffer) (dstLen : ℕ) : ℕ × List Byte :=
  let len := encodedLen dstLen
  (len, toBase64Groups src dstLen len (len / 4) 0 ++ [0])

/-- `(v << 6) | base64_decode_table[byte - 43]`, or `v << 6` for a `=`. -/
def decodeNext (byte : Byte) (v : BitVec 32) : Option (BitVec 32) :=
  if byte = 61 then some (v <<< 6) else (decodeAt byte).map fun value => v <<< 6 ||| value

/-- Byte `k` of the three that a group stands for. -/
def groupByte (v : BitVec 32) (k : ℕ) : Byte := (v >>> (16 - 8 * k)).setWidth 8

/-- One round of the loop of `from_base64`: `ret` and `dst`. -/
def fromBase64Group (src : Buffer) (i j ret : ℕ) (dst : Buffer) : Option (ℕ × Buffer) := do
  let v ← decodeAt (src i)
  let v ← (decodeAt (src (i + 1))).map fun value => v <<< 6 ||| value
  let v ← decodeNext (src (i + 2)) v
  let v ← decodeNext (src (i + 3)) v
  let first := (ret + 1, Function.update dst j (groupByte v 0))
  let second :=
    if src (i + 2) ≠ 61 then (first.1 + 1, Function.update first.2 (j + 1) (groupByte v 1))
    else first
  some (if src (i + 3) ≠ 61 then (second.1 + 1, Function.update second.2 (j + 2) (groupByte v 2))
    else second)

def fromBase64Groups (src : Buffer) : ℕ → ℕ → ℕ → ℕ → Buffer → Option (ℕ × Buffer)
  | 0, _, _, ret, dst => some (ret, dst)
  | rounds + 1, i, j, ret, dst =>
      match fromBase64Group src i j ret dst with
      | none => none
      | some (ret, dst) => fromBase64Groups src rounds (i + 4) (j + 3) ret dst

/-- `from_base64`: what it returns, and `dst`. -/
def fromBase64 (src dst : Buffer) (dstLen : ℕ) : Option (ℕ × Buffer) :=
  fromBase64Groups src (u32 ((dstLen / 3) <<< 2) / 4) 0 0 0 dst

/-! ## Characters -/

theorem encodeAt_eq (bits : BitVec 32) : encodeAt bits = base64Char (bits.toNat % 64) := by
  have table : ∀ value < 64, base64EncodeTable.getD value 0 = base64Char value := by decide +kernel
  have mask : (bits &&& 0x3F).toNat = bits.toNat % 64 := by
    rw [BitVec.toNat_and]
    exact Nat.and_two_pow_sub_one_eq_mod _ 6
  rw [encodeAt, mask]
  exact table _ (Nat.mod_lt _ (by decide))

theorem decodeAt_base64Char {value : ℕ} (small : value < 64) :
    decodeAt (base64Char value) = some (BitVec.ofNat 32 value) := by
  revert value
  decide

theorem base64Char_ne_pad {value : ℕ} (small : value < 64) : base64Char value ≠ 61 := by
  revert value
  decide

/-- Different values have different characters. -/
theorem base64Char_inj {left right : ℕ} (left_small : left < 64) (right_small : right < 64) :
    base64Char left = base64Char right ↔ left = right := by
  constructor
  · intro same
    have decoded := decodeAt_base64Char left_small
    rw [same, decodeAt_base64Char right_small] at decoded
    have values := congrArg BitVec.toNat (Option.some.inj decoded)
    rw [BitVec.toNat_ofNat, BitVec.toNat_ofNat] at values
    omega
  · rintro rfl
    rfl

/-- Bits behind a number. -/
theorem toNat_shift_or {v low : BitVec 32} {k : ℕ} (fits : v.toNat * 2 ^ k < 2 ^ 32)
    (small : low.toNat < 2 ^ k) : (v <<< k ||| low).toNat = v.toNat * 2 ^ k + low.toNat := by
  rw [BitVec.toNat_or, BitVec.toNat_shiftLeft, Nat.shiftLeft_eq, Nat.mod_eq_of_lt fits,
    ← Nat.shiftLeft_eq, Nat.shiftLeft_add_eq_or_of_lt small]

/-! ## Encoding -/

section Encoding

variable {src : Buffer} {n len i : ℕ}

theorem toNat_lookAhead {v : BitVec 32} (inside : i < len) (small : v.toNat < 2 ^ 24) :
    (lookAhead src len i v).toNat = v.toNat * 2 ^ 8 + (src i).toNat := by
  have byte : ((src i).setWidth 32).toNat = (src i).toNat :=
    BitVec.toNat_setWidth_of_le (by decide)
  have low : (src i).toNat < 2 ^ 8 := (src i).isLt
  rw [lookAhead, if_pos inside, toNat_shift_or (by omega) (by omega), byte]

/-- A group stands for three bytes of the memory, whether or not they belong to the source. -/
theorem toBase64Group_eq (inside : i + 2 < len) {v : ℕ}
    (value : v = (src i).toNat * 2 ^ 16 + (src (i + 1)).toNat * 2 ^ 8 + (src (i + 2)).toNat) :
    toBase64Group src n len i =
      [ quantumChar v 0, quantumChar v 1,
        if i + 1 < n then quantumChar v 2 else 61, if i + 2 < n then quantumChar v 3 else 61 ] := by
  have first : ((src i).setWidth 32).toNat = (src i).toNat :=
    BitVec.toNat_setWidth_of_le (by decide)
  have byte_first : (src i).toNat < 2 ^ 8 := (src i).isLt
  have byte_second : (src (i + 1)).toNat < 2 ^ 8 := (src (i + 1)).isLt
  have second : (lookAhead src len (i + 1) ((src i).setWidth 32)).toNat =
      ((src i).setWidth 32).toNat * 2 ^ 8 + (src (i + 1)).toNat :=
    toNat_lookAhead (by omega) (by omega)
  have third : (lookAhead src len (i + 2) (lookAhead src len (i + 1) ((src i).setWidth 32))).toNat =
      (lookAhead src len (i + 1) ((src i).setWidth 32)).toNat * 2 ^ 8 + (src (i + 2)).toNat :=
    toNat_lookAhead inside (by omega)
  have all : (lookAhead src len (i + 2) (lookAhead src len (i + 1) ((src i).setWidth 32))).toNat =
      v := by
    omega
  have last : v / 2 ^ (18 - 6 * 3) = v := Nat.div_one v
  unfold toBase64Group quantumChar
  simp only [encodeAt_eq, BitVec.toNat_ushiftRight, Nat.shiftRight_eq_div_pow, all, last]

/-- The byte behind the source has no bits that the last group takes. -/
def TailFits (src : Buffer) (n r : ℕ) : Prop :=
  r % 3 = 0 ∨ r % 3 = 1 ∧ (src n).toNat < 16 ∨ r % 3 = 2 ∧ (src n).toNat < 64

/-- Character `k` tells two numbers apart that differ in its bits. -/
theorem quantumChar_inj {left right k : ℕ} :
    quantumChar left k = quantumChar right k ↔
      left / 2 ^ (18 - 6 * k) % 64 = right / 2 ^ (18 - 6 * k) % 64 :=
  base64Char_inj (Nat.mod_lt _ (by decide)) (Nat.mod_lt _ (by decide))

theorem toBase64Group_one_iff (inside : i + 2 < len) :
    toBase64Group src (i + 1) len i = encodeBase64 [src i] ↔ (src (i + 1)).toNat < 16 := by
  have low : (src (i + 2)).toNat < 2 ^ 8 := (src (i + 2)).isLt
  have middle : (src (i + 1)).toNat < 2 ^ 8 := (src (i + 1)).isLt
  have beyond : ¬ i + 2 < i + 1 := by omega
  rw [toBase64Group_eq inside rfl, if_neg (lt_irrefl _), if_neg beyond, encodeBase64]
  simp only [List.cons.injEq, quantumChar_inj, and_true]
  constructor
  · rintro ⟨-, second, -⟩
    omega
  · intro small
    refine ⟨?_, ?_, rfl, rfl⟩
    · omega
    · omega

theorem toBase64Group_two_iff (inside : i + 2 < len) :
    toBase64Group src (i + 2) len i = encodeBase64 [src i, src (i + 1)] ↔
      (src (i + 2)).toNat < 64 := by
  have low : (src (i + 2)).toNat < 2 ^ 8 := (src (i + 2)).isLt
  have within : i + 1 < i + 2 := by omega
  rw [toBase64Group_eq inside rfl, if_pos within, if_neg (lt_irrefl _), encodeBase64]
  simp only [List.cons.injEq, quantumChar_inj, and_true]
  constructor
  · rintro ⟨-, -, third, -⟩
    omega
  · intro small
    refine ⟨?_, ?_, ?_, rfl⟩
    · omega
    · omega
    · omega

/-- The groups are the encoding exactly if the byte behind the source lets them. -/
theorem toBase64Groups_eq_iff {rounds r : ℕ} (count : rounds = (r + 2) / 3) (ending : i + r = n)
    (inside : i + 3 * rounds ≤ len) :
    toBase64Groups src n len rounds i = encodeBase64 (bytesFrom src i r) ↔ TailFits src n r := by
  induction rounds generalizing i r with
  | zero =>
      have empty : r = 0 := by omega
      subst empty
      exact iff_of_true rfl (.inl rfl)
  | succ rounds ih =>
      rcases (by omega : r = 1 ∨ r = 2 ∨ 3 ≤ r) with one | two | more
      · subst one ending
        have last : rounds = 0 := by omega
        have tail : TailFits src (i + 1) 1 ↔ (src (i + 1)).toNat < 16 := by
          unfold TailFits
          omega
        rw [last, toBase64Groups, toBase64Groups, List.append_nil, tail]
        exact toBase64Group_one_iff (by omega)
      · subst two ending
        have last : rounds = 0 := by omega
        have tail : TailFits src (i + 2) 2 ↔ (src (i + 2)).toNat < 64 := by
          unfold TailFits
          omega
        rw [last, toBase64Groups, toBase64Groups, List.append_nil, tail]
        exact toBase64Group_two_iff (by omega)
      · obtain ⟨m, rfl⟩ := Nat.exists_eq_add_of_le' more
        have second_inside : i + 1 < n := by omega
        have third_inside : i + 2 < n := by omega
        have rest := ih (i := i + 3) (r := m) (by omega) (by omega) (by omega)
        have tail : TailFits src n (m + 3) ↔ TailFits src n m := by
          rw [TailFits, TailFits, Nat.add_mod_right]
        rw [toBase64Groups, toBase64Group_eq (by omega) rfl, if_pos second_inside,
          if_pos third_inside, bytesFrom_succ, bytesFrom_succ, bytesFrom_succ, encodeBase64, tail,
          ← rest]
        exact List.append_right_inj _

end Encoding

/-! ## Decoding -/

section Decoding

variable {src dst : Buffer} {i j ret : ℕ}

theorem memcpyTo_nil : memcpyTo dst j [] = dst := by
  funext p
  rw [memcpyTo, List.getElem?_nil, Option.getD_none, ite_self]

theorem memcpyTo_cons (byte : Byte) (rest : List Byte) :
    memcpyTo dst j (byte :: rest) = memcpyTo (Function.update dst j byte) (j + 1) rest := by
  funext p
  rcases Nat.lt_trichotomy p j with before | here | behind
  · rw [memcpyTo_below before, memcpyTo_below (by omega), Function.update_of_ne before.ne]
  · subst here
    rw [memcpyTo_below (Nat.lt_succ_self p), Function.update_self]
    exact memcpyTo_add 0
  · obtain ⟨k, rfl⟩ := Nat.exists_eq_add_of_lt behind
    have elsewhere : j + k + 1 ≠ j := by omega
    have same : j + k + 1 = j + 1 + k := by omega
    rw [Nat.add_assoc, memcpyTo_add, List.getElem?_cons_succ, ← Nat.add_assoc, same, memcpyTo_add,
      Function.update_of_ne (same ▸ elsewhere)]

/-- The value of a character behind a number. -/
theorem decodeNext_quantumChar (w k : ℕ) (v : BitVec 32) :
    decodeNext (quantumChar w k) v = some (v <<< 6 ||| BitVec.ofNat 32 (w / 2 ^ (18 - 6 * k) % 64))
    := by
  have small := Nat.mod_lt (w / 2 ^ (18 - 6 * k)) (by decide : 0 < 64)
  rw [decodeNext, quantumChar, if_neg (base64Char_ne_pad small), decodeAt_base64Char small]
  rfl

/-- A `=` counts as 0. -/
theorem decodeNext_pad (v : BitVec 32) :
    decodeNext base64Pad v = some (v <<< 6 ||| BitVec.ofNat 32 0) := by
  rw [BitVec.or_zero]
  exact if_pos rfl

theorem decodeAt_quantumChar (w k : ℕ) :
    decodeAt (quantumChar w k) = some (BitVec.ofNat 32 (w / 2 ^ (18 - 6 * k) % 64)) :=
  decodeAt_base64Char (Nat.mod_lt _ (by decide))

theorem quantumChar_ne_pad (w k : ℕ) : quantumChar w k ≠ 61 :=
  base64Char_ne_pad (Nat.mod_lt _ (by decide))

/-- Six bits behind a number. -/
theorem toNat_six {v : BitVec 32} {w : ℕ} (fits : v.toNat < 2 ^ 26) (small : w < 64) :
    (v <<< 6 ||| BitVec.ofNat 32 w).toNat = v.toNat * 2 ^ 6 + w := by
  have low : (BitVec.ofNat 32 w).toNat = w := by
    rw [BitVec.toNat_ofNat]
    omega
  rw [toNat_shift_or (by omega) (by omega), low]

theorem toNat_groupByte (v : BitVec 32) (k : ℕ) :
    (groupByte v k).toNat = v.toNat / 2 ^ (16 - 8 * k) % 2 ^ 8 := by
  rw [groupByte, BitVec.toNat_setWidth, BitVec.toNat_ushiftRight, Nat.shiftRight_eq_div_pow]

/-- The bytes of a number of 24 bits. -/
theorem groupByte_eq {v : BitVec 32} {a b c : Byte}
    (value : v.toNat = a.toNat * 2 ^ 16 + b.toNat * 2 ^ 8 + c.toNat) :
    groupByte v 0 = a ∧ groupByte v 1 = b ∧ groupByte v 2 = c := by
  have high : a.toNat < 2 ^ 8 := a.isLt
  have middle : b.toNat < 2 ^ 8 := b.isLt
  have low : c.toNat < 2 ^ 8 := c.isLt
  refine ⟨BitVec.eq_of_toNat_eq ?_, BitVec.eq_of_toNat_eq ?_, BitVec.eq_of_toNat_eq ?_⟩
  · rw [toNat_groupByte]
    omega
  · rw [toNat_groupByte]
    omega
  · rw [toNat_groupByte]
    omega

/-- A group whose characters, where a `=` counts as 0, stand for three bytes. -/
theorem fromBase64Group_eq (ret : ℕ) (dst : Buffer) {d0 d1 d2 d3 : ℕ} {a b c : Byte}
    (first : decodeAt (src i) = some (BitVec.ofNat 32 d0))
    (second : decodeAt (src (i + 1)) = some (BitVec.ofNat 32 d1))
    (third : ∀ v, decodeNext (src (i + 2)) v = some (v <<< 6 ||| BitVec.ofNat 32 d2))
    (fourth : ∀ v, decodeNext (src (i + 3)) v = some (v <<< 6 ||| BitVec.ofNat 32 d3))
    (small : d0 < 64 ∧ d1 < 64 ∧ d2 < 64 ∧ d3 < 64)
    (value : d0 * 2 ^ 18 + d1 * 2 ^ 12 + d2 * 2 ^ 6 + d3 =
      a.toNat * 2 ^ 16 + b.toNat * 2 ^ 8 + c.toNat) :
    fromBase64Group src i j ret dst =
      let one := (ret + 1, Function.update dst j a)
      let two :=
        if src (i + 2) ≠ 61 then (one.1 + 1, Function.update one.2 (j + 1) b) else one
      some (if src (i + 3) ≠ 61 then (two.1 + 1, Function.update two.2 (j + 2) c) else two) := by
  obtain ⟨small0, small1, small2, small3⟩ := small
  have low : (BitVec.ofNat 32 d0).toNat = d0 := by
    rw [BitVec.toNat_ofNat]
    omega
  have v1 := toNat_six (v := BitVec.ofNat 32 d0) (by omega) small1
  have v2 := toNat_six (v := BitVec.ofNat 32 d0 <<< 6 ||| BitVec.ofNat 32 d1) (by omega) small2
  have v3 := toNat_six
    (v := (BitVec.ofNat 32 d0 <<< 6 ||| BitVec.ofNat 32 d1) <<< 6 ||| BitVec.ofNat 32 d2)
    (by omega) small3
  obtain ⟨byte0, byte1, byte2⟩ := groupByte_eq
    (v := ((BitVec.ofNat 32 d0 <<< 6 ||| BitVec.ofNat 32 d1) <<< 6 ||| BitVec.ofNat 32 d2) <<< 6 |||
      BitVec.ofNat 32 d3) (a := a) (b := b) (c := c) (by omega)
  unfold fromBase64Group
  simp only [first, second, third, fourth, Option.map_some, Option.bind_eq_bind, Option.bind_some,
    byte0, byte1, byte2]

theorem bytesFrom_four (m : ℕ) :
    bytesFrom src i (m + 4) =
      src i :: src (i + 1) :: src (i + 2) :: src (i + 3) :: bytesFrom src (i + 4) m := by
  rw [bytesFrom_succ, bytesFrom_succ, bytesFrom_succ, bytesFrom_succ]

/-- The groups of an encoding decode to the bytes. -/
theorem fromBase64Groups_encode (bytes : List Byte) {rounds : ℕ}
    (count : rounds = (bytes.length + 2) / 3)
    (encoded : bytesFrom src i (4 * rounds) = encodeBase64 bytes) :
    fromBase64Groups src rounds i j ret dst =
      some (ret + bytes.length, memcpyTo dst j bytes) := by
  have small : ∀ w, w % 64 < 64 := fun w => Nat.mod_lt w (by decide)
  have zero : (0 : Byte).toNat = 0 := rfl
  induction bytes using encodeBase64.induct generalizing rounds i j ret dst with
  | case1 =>
      subst count
      rw [memcpyTo_nil]
      rfl
  | case2 a =>
      obtain rfl : rounds = 1 := by
        rw [List.length_singleton] at count
        omega
      have high : a.toNat < 2 ^ 8 := a.isLt
      have chars := (bytesFrom_four 0).symm.trans encoded
      simp only [encodeBase64, List.cons.injEq] at chars
      obtain ⟨first, second, third, fourth, -⟩ := chars
      have group := fromBase64Group_eq ret dst (i := i) (j := j) (a := a) (b := 0) (c := 0)
        (first ▸ decodeAt_quantumChar _ _) (second ▸ decodeAt_quantumChar _ _)
        (third ▸ decodeNext_pad) (fourth ▸ decodeNext_pad)
        ⟨small _, small _, by decide, by decide⟩
        (by rw [zero]; omega)
      have third_pad : ¬ src (i + 2) ≠ 61 := not_not.mpr third
      have fourth_pad : ¬ src (i + 3) ≠ 61 := not_not.mpr fourth
      rw [fromBase64Groups, group]
      simp only [if_neg third_pad, if_neg fourth_pad]
      rw [fromBase64Groups, memcpyTo_cons, memcpyTo_nil]
      rfl
  | case3 a b =>
      obtain rfl : rounds = 1 := by
        rw [List.length_cons, List.length_singleton] at count
        omega
      have high : a.toNat < 2 ^ 8 := a.isLt
      have middle : b.toNat < 2 ^ 8 := b.isLt
      have chars := (bytesFrom_four 0).symm.trans encoded
      simp only [encodeBase64, List.cons.injEq] at chars
      obtain ⟨first, second, third, fourth, -⟩ := chars
      have group := fromBase64Group_eq ret dst (i := i) (j := j) (a := a) (b := b) (c := 0)
        (first ▸ decodeAt_quantumChar _ _) (second ▸ decodeAt_quantumChar _ _)
        (third ▸ decodeNext_quantumChar _ _) (fourth ▸ decodeNext_pad)
        ⟨small _, small _, small _, by decide⟩
        (by rw [zero]; omega)
      have third_char : src (i + 2) ≠ 61 := third ▸ quantumChar_ne_pad _ _
      have fourth_pad : ¬ src (i + 3) ≠ 61 := not_not.mpr fourth
      rw [fromBase64Groups, group]
      simp only [if_pos third_char, if_neg fourth_pad]
      rw [fromBase64Groups, memcpyTo_cons, memcpyTo_cons, memcpyTo_nil]
      rfl
  | case4 a b c rest ih =>
      have high : a.toNat < 2 ^ 8 := a.isLt
      have middle : b.toNat < 2 ^ 8 := b.isLt
      have low : c.toNat < 2 ^ 8 := c.isLt
      obtain ⟨m, rfl⟩ : ∃ m, rounds = m + 1 := ⟨(rest.length + 2) / 3, by
        rw [count, List.length_cons, List.length_cons, List.length_cons]
        omega⟩
      have count_rest : m = (rest.length + 2) / 3 := by
        rw [List.length_cons, List.length_cons, List.length_cons] at count
        omega
      have chars := (bytesFrom_four (4 * m)).symm.trans encoded
      simp only [encodeBase64, List.cons.injEq] at chars
      obtain ⟨first, second, third, fourth, more⟩ := chars
      have group := fromBase64Group_eq ret dst (i := i) (j := j) (a := a) (b := b) (c := c)
        (first ▸ decodeAt_quantumChar _ _) (second ▸ decodeAt_quantumChar _ _)
        (third ▸ decodeNext_quantumChar _ _) (fourth ▸ decodeNext_quantumChar _ _)
        ⟨small _, small _, small _, small _⟩ (by omega)
      have third_char : src (i + 2) ≠ 61 := third ▸ quantumChar_ne_pad _ _
      have fourth_char : src (i + 3) ≠ 61 := fourth ▸ quantumChar_ne_pad _ _
      rw [fromBase64Groups, group]
      simp only [if_pos third_char, if_pos fourth_char]
      rw [ih count_rest more, memcpyTo_cons, memcpyTo_cons, memcpyTo_cons, List.length_cons,
        List.length_cons, List.length_cons]
      congr 2
      omega

end Decoding

/-! ## Both together -/

/-- `to_base64` gives the padded encoding of the source and its length, and `from_base64` gives
the source back for every memory that holds the encoding. -/
structure Base64Inverse (src : Buffer) (n : ℕ) : Prop where
  encodes : toBase64 src n =
    (4 * ((n + 2) / 3), encodeBase64 (bytesFrom src 0 n) ++ [0])
  decodes : ∀ encoded dst,
    bytesFrom encoded 0 (4 * ((n + 2) / 3)) = encodeBase64 (bytesFrom src 0 n) →
      fromBase64 encoded dst (3 * (4 * ((n + 2) / 3) / 4)) =
        some (n, memcpyTo dst 0 (bytesFrom src 0 n))

/-- The length of the encoding, where it is a `u32`. -/
theorem encodedLen_eq {n : ℕ} (short : 4 * ((n + 2) / 3) < 2 ^ 32) :
    encodedLen n = 4 * ((n + 2) / 3) := by
  have whole : u32 (n / 3 * 4) = n / 3 * 4 := u32_of_lt (by omega)
  unfold encodedLen
  dsimp only
  rw [whole]
  split
  · rw [u32_of_lt (by omega)]
    omega
  · omega

theorem encodedLen_lt (n : ℕ) : encodedLen n < 2 ^ 32 := by
  unfold encodedLen
  dsimp only
  split
  · exact Nat.mod_lt _ (by decide)
  · exact Nat.mod_lt _ (by decide)

/-- **The helpers are inverse** exactly if the length of the encoding is a `u32` and the byte
behind a source of 3k + 1 bytes is below 16, or behind one of 3k + 2 bytes below 64. -/
theorem base64_inverse_iff (src : Buffer) (n : ℕ) :
    Base64Inverse src n ↔ 4 * ((n + 2) / 3) < 2 ^ 32 ∧ TailFits src n n := by
  have groups : 4 * ((n + 2) / 3) / 4 = (n + 2) / 3 := Nat.mul_div_cancel_left _ (by decide)
  have encodes_iff (short : 4 * ((n + 2) / 3) < 2 ^ 32) :
      toBase64 src n = (4 * ((n + 2) / 3), encodeBase64 (bytesFrom src 0 n) ++ [0]) ↔
        TailFits src n n := by
    rw [toBase64, encodedLen_eq short, groups, Prod.mk.injEq, List.append_left_inj,
      toBase64Groups_eq_iff rfl (Nat.zero_add n) (by omega)]
    exact and_iff_right rfl
  constructor
  · intro inverse
    have length : encodedLen n = 4 * ((n + 2) / 3) := congrArg Prod.fst inverse.encodes
    have short : 4 * ((n + 2) / 3) < 2 ^ 32 := by
      rw [← length]
      exact encodedLen_lt n
    exact ⟨short, (encodes_iff short).mp inverse.encodes⟩
  · rintro ⟨short, fits⟩
    refine ⟨(encodes_iff short).mpr fits, fun encoded dst holds => ?_⟩
    have size : u32 ((3 * (4 * ((n + 2) / 3) / 4) / 3) <<< 2) / 4 = (n + 2) / 3 := by
      rw [groups, Nat.mul_div_cancel_left _ (by decide : 0 < 3), Nat.shiftLeft_eq,
        u32_of_lt (by omega)]
      omega
    have length : (bytesFrom src 0 n).length = n := length_bytesFrom _ _ _
    rw [fromBase64, size, fromBase64Groups_encode (bytesFrom src 0 n) (by rw [length]) holds,
      length, Nat.zero_add]

/-- For the byte `A` with the byte 16 behind it, `QR==` is written instead of `QQ==`. -/
theorem base64_tail_read :
    toBase64 (fun k => [65, 16].getD k 0) 1 = (4, [81, 82, 61, 61, 0]) ∧
      encodeBase64 [65] = [81, 81, 61, 61] := by
  constructor
  · decide +kernel
  · decide

end GreenFuzz.Redqueen
