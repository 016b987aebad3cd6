import GreenFuzz.AflFuzz.UserExtras

/-!
# Plain strings from wide strings

Strings of a program may reach the dictionary as UTF-16 or UTF-32. `deunicode_extras` counts the
zero bytes of each token by their position modulo four, guesses from the counts which bytes carry
the text, copies these to a buffer of 64 bytes and adds them as a token. A token that looks like
UTF-32 is tried as UTF-32 and as UTF-16.

Each copy is at most as long as the token, so the buffer is never overrun. The zero bytes of a
widened string stand at all places of the other residue classes and at no place of its own
(`zeros_utf16`, `zeros_utf32`), so the guess is right for the four encodings. **Every string
without zero bytes is recovered from each of them, and no token is lost**
(`deunicodeExtras_recovers`).
-/

set_option autoImplicit false

namespace GreenFuzz.AflFuzz

open Library

/-! ## The code -/

/-- The size of `buf`. -/
def SCRATCH_SIZE : ℕ := 64

/-- The counters of zero bytes: at even and odd positions, and at those that are 2 and 3 modulo
four. -/
structure ZeroCounts where
  z1 : ℕ
  z2 : ℕ
  z3 : ℕ
  z4 : ℕ
  deriving DecidableEq, Repr

/-- One round of the counting loop. The cases 2 and 3 fall through to the next. -/
def ZeroCounts.count (z : ZeroCounts) (j : ℕ) (byte : Byte) : ZeroCounts :=
  if byte ≠ 0 then z
  else
    match j % 4 with
    | 2 => { z with z3 := z.z3 + 1, z1 := z.z1 + 1 }
    | 0 => { z with z1 := z.z1 + 1 }
    | 3 => { z with z4 := z.z4 + 1, z2 := z.z2 + 1 }
    | _ => { z with z2 := z.z2 + 1 }

/-- The counting loop from a position on. -/
def countZeros : ℕ → Token → ZeroCounts → ZeroCounts
  | _, [], z => z
  | j, byte :: data, z => countZeros (j + 1) data (z.count j byte)

/-- A copying loop from a position on, with the bytes `buf[0 .. k - 1]`. Nothing is returned where
it writes behind the buffer. -/
def copyBytes (keep : ℕ → Bool) : ℕ → Token → Token → Option Token
  | _, [], buf => some buf
  | j, byte :: data, buf =>
      if !keep j then copyBytes keep (j + 1) data buf
      else if SCRATCH_SIZE ≤ buf.length then none
      else copyBytes keep (j + 1) data (buf ++ [byte])

/-- Which bytes of a token that looks like UTF-32 are copied. -/
def keeps32 (z : ZeroCounts) (half quarter j : ℕ) : Bool :=
  if z.z4 < quarter then j % 4 = 3
  else if z.z3 < quarter then j % 4 = 2
  else if z.z2 < half then j % 4 = 1
  else j % 4 = 0

/-- Which bytes of a token that looks like UTF-16 are copied. -/
def keeps16 (z : ZeroCounts) (half j : ℕ) : Bool :=
  if z.z1 < half then j % 2 = 0 else j % 2 = 1

/-- One round of the loop of `deunicode_extras`: the dictionary with what a token adds. -/
def deunicodeToken (extras : List Token) (data : Token) : Option (List Token) :=
  if data.length < 6 || 64 < data.length || data.length % 2 ≠ 0 then some extras
  else
    let z := countZeros 0 data ⟨0, 0, 0, 0⟩
    let half := data.length / 2
    let quarter := half / 2
    if (z.z1 < half && z.z2 < half) || z.z1 + z.z2 = data.length then some extras
    else do
      let extras ←
        if data.length % 4 = 0 && 12 ≤ data.length && (z.z3 = quarter || z.z4 = quarter) &&
            z.z1 + z.z2 = quarter * 3 then
          (copyBytes (keeps32 z half quarter) 0 data []).map (addExtraNocheck extras)
        else some extras
      (copyBytes (keeps16 z half) 0 data []).map (addExtraNocheck extras)

/-- `deunicode_extras`. The tokens that are added come after those that the loop looks at. -/
def deunicodeExtras (Q : Qsort) (extras : List Token) : Option (List Token) :=
  if extras = [] then some extras
  else (extras.foldlM deunicodeToken extras).map (Q.sort compareExtrasLen)

/-! ## What is claimed -/

/-- The encodings of plain strings. -/
inductive WideEncoding where
  | utf16le | utf16be | utf32le | utf32be
  deriving DecidableEq, Repr

/-- The widened byte. -/
def WideEncoding.widen : WideEncoding → Byte → Token
  | .utf16le, b => [b, 0]
  | .utf16be, b => [0, b]
  | .utf32le, b => [b, 0, 0, 0]
  | .utf32be, b => [0, 0, 0, b]

/-- The encoded string. -/
def WideEncoding.encode (e : WideEncoding) (s : Token) : Token := s.flatMap e.widen

/-- The longest string that is recovered. -/
def WideEncoding.maxLength : WideEncoding → ℕ
  | .utf16le | .utf16be => 32
  | .utf32le | .utf32be => 16

/-! ## Copying -/

variable {extras after : List Token} {data s : Token} {keep : ℕ → Bool} {j : ℕ}

/-- The bytes that a copying loop copies. -/
def keptBytes (keep : ℕ → Bool) : ℕ → Token → Token
  | _, [] => []
  | j, byte :: data =>
      if keep j then byte :: keptBytes keep (j + 1) data else keptBytes keep (j + 1) data

theorem length_keptBytes_le (keep : ℕ → Bool) (j : ℕ) (data : Token) :
    (keptBytes keep j data).length ≤ data.length := by
  induction data generalizing j with
  | nil => exact le_rfl
  | cons byte data ih =>
      rw [keptBytes]
      split
      · exact Nat.succ_le_succ (ih _)
      · exact (ih _).trans (Nat.le_succ _)

/-- A copy that fits is not cut off. -/
theorem copyBytes_eq {buf : Token} (room : buf.length + data.length ≤ SCRATCH_SIZE) :
    copyBytes keep j data buf = some (buf ++ keptBytes keep j data) := by
  induction data generalizing j buf with
  | nil => rw [copyBytes, keptBytes, List.append_nil]
  | cons byte data ih =>
      rw [List.length_cons] at room
      rw [copyBytes, keptBytes]
      cases kept : keep j with
      | false =>
          rw [if_pos (by rfl), if_neg (by exact Bool.false_ne_true)]
          exact ih (by omega)
      | true =>
          rw [if_neg (by decide), if_neg (by omega), if_pos rfl, ih, List.append_assoc]
          · rfl
          · rw [List.length_append, List.length_singleton]
            omega

/-- The tokens that a token adds. -/
def plainTokens (data : Token) : List Token :=
  if data.length < 6 || 64 < data.length || data.length % 2 ≠ 0 then []
  else
    let z := countZeros 0 data ⟨0, 0, 0, 0⟩
    let half := data.length / 2
    let quarter := half / 2
    if (z.z1 < half && z.z2 < half) || z.z1 + z.z2 = data.length then []
    else
      (if data.length % 4 = 0 && 12 ≤ data.length && (z.z3 = quarter || z.z4 = quarter) &&
          z.z1 + z.z2 = quarter * 3 then [keptBytes (keeps32 z half quarter) 0 data] else []) ++
        [keptBytes (keeps16 z half) 0 data]

/-- A round of the loop adds the tokens of its token: the buffer is not overrun. -/
theorem deunicodeToken_eq (extras : List Token) (data : Token) :
    deunicodeToken extras data = some (extras ++ plainTokens data) := by
  rw [deunicodeToken, plainTokens]
  by_cases passed : (data.length < 6 || 64 < data.length || data.length % 2 ≠ 0) = true
  · rw [if_pos passed, if_pos passed, List.append_nil]
  rw [if_neg passed, if_neg passed]
  have fits : ([] : Token).length + data.length ≤ SCRATCH_SIZE := by
    simp only [Bool.or_eq_true, decide_eq_true_eq] at passed
    rw [List.length_nil, SCRATCH_SIZE]
    omega
  simp only [copyBytes_eq fits, List.nil_append, Option.map_some, addExtraNocheck]
  split
  · rw [List.append_nil]
  · split
    · rw [← List.append_assoc]
      rfl
    · rfl

/-- The loop adds the tokens of all tokens. -/
theorem foldlM_deunicodeToken (tokens extras : List Token) :
    tokens.foldlM deunicodeToken extras = some (extras ++ tokens.flatMap plainTokens) := by
  induction tokens generalizing extras with
  | nil => rw [List.foldlM_nil, List.flatMap_nil, List.append_nil]; rfl
  | cons token tokens ih =>
      rw [List.foldlM_cons, deunicodeToken_eq, Option.bind_eq_bind, Option.bind_some, ih,
        List.flatMap_cons, List.append_assoc]

/-- **The buffer is not overrun**, whatever the tokens are. -/
theorem deunicodeExtras_eq (Q : Qsort) (extras : List Token) :
    deunicodeExtras Q extras = some (if extras = [] then [] else
      Q.sort compareExtrasLen (extras ++ extras.flatMap plainTokens)) := by
  rw [deunicodeExtras]
  split
  · rename_i empty
    rw [empty]
  · rw [foldlM_deunicodeToken, Option.map_some]

theorem length_le_of_mem_plainTokens {token : Token} (member : token ∈ plainTokens data) :
    token.length ≤ SCRATCH_SIZE := by
  rw [plainTokens] at member
  by_cases passed : (data.length < 6 || 64 < data.length || data.length % 2 ≠ 0) = true
  · rw [if_pos passed] at member
    cases member
  rw [if_neg passed] at member
  have short : data.length ≤ SCRATCH_SIZE := by
    simp only [Bool.or_eq_true, decide_eq_true_eq] at passed
    rw [SCRATCH_SIZE]
    omega
  simp only at member
  split at member
  · cases member
  · rcases List.mem_append.mp member with wide | narrow
    · split at wide
      · rw [List.mem_singleton.mp wide]
        exact (length_keptBytes_le _ _ _).trans short
      · cases wide
    · rw [List.mem_singleton.mp narrow]
      exact (length_keptBytes_le _ _ _).trans short

/-! ## The four encodings -/

theorem length_encode (e : WideEncoding) (s : Token) :
    (e.encode s).length = (e.widen 0).length * s.length := by
  rw [WideEncoding.encode, List.length_flatMap]
  induction s with
  | nil => rfl
  | cons b s ih =>
      rw [List.map_cons, List.sum_cons, ih, List.length_cons, Nat.mul_succ, Nat.add_comm]
      cases e <;> rfl

theorem encode_cons (e : WideEncoding) (b : Byte) (s : Token) :
    e.encode (b :: s) = e.widen b ++ e.encode s := List.flatMap_cons

theorem count_of_ne {byte : Byte} (dark : byte ≠ 0) (z : ZeroCounts) (j : ℕ) :
    z.count j byte = z := if_pos dark

/-- A zero byte is counted by the counters of its residue classes. -/
theorem count_zero (z : ZeroCounts) (j : ℕ) :
    z.count j 0#8 =
      { z1 := z.z1 + if j % 2 = 0 then 1 else 0
        z2 := z.z2 + if j % 2 = 1 then 1 else 0
        z3 := z.z3 + if j % 4 = 2 then 1 else 0
        z4 := z.z4 + if j % 4 = 3 then 1 else 0 } := by
  have parity : j % 2 = j % 4 % 2 := by omega
  rw [ZeroCounts.count, if_neg (by decide), parity]
  have four : j % 4 = 0 ∨ j % 4 = 1 ∨ j % 4 = 2 ∨ j % 4 = 3 := by omega
  rcases four with residue | residue | residue | residue <;> simp [residue]

/-- The zero bytes of a string as UTF-16. -/
theorem zeros_utf16 (plain : 0 ∉ s) (z : ZeroCounts) (even : j % 2 = 0) :
    ((countZeros j (WideEncoding.utf16le.encode s) z).z1 = z.z1 ∧
      (countZeros j (WideEncoding.utf16le.encode s) z).z2 = z.z2 + s.length) ∧
    (countZeros j (WideEncoding.utf16be.encode s) z).z1 = z.z1 + s.length ∧
      (countZeros j (WideEncoding.utf16be.encode s) z).z2 = z.z2 := by
  induction s generalizing j z with
  | nil => exact ⟨⟨rfl, rfl⟩, rfl, rfl⟩
  | cons b s ih =>
      obtain ⟨dark, plain⟩ := not_or.mp (mt List.mem_cons.mpr plain)
      have odd : (j + 1) % 2 = 1 := by omega
      have even' : (j + 1 + 1) % 2 = 0 := by omega
      have text := count_of_ne (Ne.symm dark)
      obtain ⟨⟨le1, le2⟩, -⟩ := ih plain (z.count (j + 1) 0) even'
      obtain ⟨-, be1, be2⟩ := ih plain (z.count j 0) even'
      simp only [encode_cons, WideEncoding.widen, List.cons_append, List.nil_append, countZeros,
        text, le1, le2, be1, be2]
      simp [count_zero, even, odd]
      omega

/-- The zero bytes of a string as UTF-32. -/
theorem zeros_utf32 (plain : 0 ∉ s) (z : ZeroCounts) (aligned : j % 4 = 0) :
    countZeros j (WideEncoding.utf32le.encode s) z =
      ⟨z.z1 + s.length, z.z2 + 2 * s.length, z.z3 + s.length, z.z4 + s.length⟩ ∧
    countZeros j (WideEncoding.utf32be.encode s) z =
      ⟨z.z1 + 2 * s.length, z.z2 + s.length, z.z3 + s.length, z.z4⟩ := by
  induction s generalizing j z with
  | nil => exact ⟨rfl, rfl⟩
  | cons b s ih =>
      obtain ⟨dark, plain⟩ := not_or.mp (mt List.mem_cons.mpr plain)
      have text := count_of_ne (Ne.symm dark)
      have residues : (j + 1) % 4 = 1 ∧ (j + 1 + 1) % 4 = 2 ∧ (j + 1 + 1 + 1) % 4 = 3 ∧
          (j + 1 + 1 + 1 + 1) % 4 = 0 := by omega
      have parities : j % 2 = 0 ∧ (j + 1) % 2 = 1 ∧ (j + 1 + 1) % 2 = 0 ∧
          (j + 1 + 1 + 1) % 2 = 1 := by omega
      simp only [encode_cons, WideEncoding.widen, List.cons_append, List.nil_append, countZeros,
        text, (ih plain _ residues.2.2.2).1, (ih plain _ residues.2.2.2).2]
      simp [count_zero, residues, parities, aligned]
      omega

/-- A rule that copies the text byte of each widened byte. -/
def PicksText (keep : ℕ → Bool) (e : WideEncoding) : Prop :=
  ∀ j b rest, j % (e.widen 0).length = 0 →
    keptBytes keep j (e.widen b ++ rest) = b :: keptBytes keep (j + (e.widen 0).length) rest

/-- Such a rule recovers the string. -/
theorem PicksText.recovers {e : WideEncoding} (picks : PicksText keep e)
    (aligned : j % (e.widen 0).length = 0) : keptBytes keep j (e.encode s) = s := by
  induction s generalizing j with
  | nil => rfl
  | cons b s ih =>
      rw [encode_cons, picks j b _ aligned, ih]
      rw [Nat.add_mod_right]
      exact aligned

theorem picksText_utf16 : PicksText (fun j => j % 2 = 0) .utf16le ∧
    PicksText (fun j => j % 2 = 1) .utf16be := by
  refine ⟨fun j b rest aligned => ?_, fun j b rest aligned => ?_⟩
  · have even : j % 2 = 0 := aligned
    have odd : (j + 1) % 2 = 1 := by omega
    simp [WideEncoding.widen, keptBytes, even, odd]
  · have even : j % 2 = 0 := aligned
    have odd : (j + 1) % 2 = 1 := by omega
    simp [WideEncoding.widen, keptBytes, even, odd]

theorem picksText_utf32 : PicksText (fun j => j % 4 = 0) .utf32le ∧
    PicksText (fun j => j % 4 = 3) .utf32be := by
  refine ⟨fun j b rest aligned => ?_, fun j b rest aligned => ?_⟩
  · have first : j % 4 = 0 := aligned
    have residues : (j + 1) % 4 = 1 ∧ (j + 1 + 1) % 4 = 2 ∧ (j + 1 + 1 + 1) % 4 = 3 := by omega
    simp [WideEncoding.widen, keptBytes, first, residues]
  · have first : j % 4 = 0 := aligned
    have residues : (j + 1) % 4 = 1 ∧ (j + 1 + 1) % 4 = 2 ∧ (j + 1 + 1 + 1) % 4 = 3 := by omega
    simp [WideEncoding.widen, keptBytes, first, residues]

/-- A token whose size and zero bytes pass the checks. -/
structure LooksWide (data : Token) (z : ZeroCounts) : Prop where
  zeros : countZeros 0 data ⟨0, 0, 0, 0⟩ = z
  size : 6 ≤ data.length ∧ data.length ≤ 64 ∧ data.length % 2 = 0
  full : data.length / 2 ≤ z.z1 ∨ data.length / 2 ≤ z.z2
  dark : z.z1 + z.z2 ≠ data.length

/-- Such a token is tried as UTF-16. -/
theorem LooksWide.narrow {z : ZeroCounts} (looks : LooksWide data z) :
    keptBytes (keeps16 z (data.length / 2)) 0 data ∈ plainTokens data := by
  obtain ⟨rfl, size, full, dark⟩ := looks
  rw [plainTokens, if_neg (by simp only [Bool.or_eq_true, decide_eq_true_eq]; omega)]
  simp only
  rw [if_neg (by simp only [Bool.or_eq_true, Bool.and_eq_true, decide_eq_true_eq]; omega)]
  exact List.mem_append_right _ List.mem_cons_self

/-- It is tried as UTF-32 if three quarters of it are zero. -/
theorem LooksWide.wide {z : ZeroCounts} (looks : LooksWide data z)
    (four : data.length % 4 = 0 ∧ 12 ≤ data.length)
    (quarter : z.z3 = data.length / 2 / 2 ∨ z.z4 = data.length / 2 / 2)
    (zeros : z.z1 + z.z2 = data.length / 2 / 2 * 3) :
    keptBytes (keeps32 z (data.length / 2) (data.length / 2 / 2)) 0 data ∈ plainTokens data := by
  obtain ⟨rfl, size, full, dark⟩ := looks
  rw [plainTokens, if_neg (by simp only [Bool.or_eq_true, decide_eq_true_eq]; omega)]
  simp only
  rw [if_neg (by simp only [Bool.or_eq_true, Bool.and_eq_true, decide_eq_true_eq]; omega),
    if_pos (by simp only [Bool.or_eq_true, Bool.and_eq_true, decide_eq_true_eq]; omega)]
  exact List.mem_append_left _ List.mem_cons_self

/-- **A widened string is recovered**: from UTF-16 by the last copy, from UTF-32 by the first. -/
theorem mem_plainTokens (e : WideEncoding) (plain : 0 ∉ s) (three : 3 ≤ s.length)
    (short : s.length ≤ e.maxLength) : s ∈ plainTokens (e.encode s) := by
  have size := length_encode e s
  cases e with
  | utf16le =>
      have length : (WideEncoding.utf16le.encode s).length = 2 * s.length := size
      have most : s.length ≤ 32 := short
      obtain ⟨⟨z1, z2⟩, -⟩ := zeros_utf16 (j := 0) plain ⟨0, 0, 0, 0⟩ rfl
      simp only [Nat.zero_add] at z1 z2
      have looks : LooksWide (WideEncoding.utf16le.encode s) _ :=
        ⟨rfl, by omega, by omega, by omega⟩
      have added := looks.narrow
      have rule : keeps16 (countZeros 0 (WideEncoding.utf16le.encode s) ⟨0, 0, 0, 0⟩)
          ((WideEncoding.utf16le.encode s).length / 2) = fun j => j % 2 = 0 := by
        funext j
        rw [keeps16, if_pos (by omega)]
      rw [rule, picksText_utf16.1.recovers rfl] at added
      exact added
  | utf16be =>
      have length : (WideEncoding.utf16be.encode s).length = 2 * s.length := size
      have most : s.length ≤ 32 := short
      obtain ⟨-, z1, z2⟩ := zeros_utf16 (j := 0) plain ⟨0, 0, 0, 0⟩ rfl
      simp only [Nat.zero_add] at z1 z2
      have looks : LooksWide (WideEncoding.utf16be.encode s) _ :=
        ⟨rfl, by omega, by omega, by omega⟩
      have added := looks.narrow
      have rule : keeps16 (countZeros 0 (WideEncoding.utf16be.encode s) ⟨0, 0, 0, 0⟩)
          ((WideEncoding.utf16be.encode s).length / 2) = fun j => j % 2 = 1 := by
        funext j
        rw [keeps16, if_neg (by omega)]
      rw [rule, picksText_utf16.2.recovers rfl] at added
      exact added
  | utf32le =>
      have length : (WideEncoding.utf32le.encode s).length = 4 * s.length := size
      have most : s.length ≤ 16 := short
      have zeros := (zeros_utf32 (j := 0) plain ⟨0, 0, 0, 0⟩ rfl).1
      simp only [Nat.zero_add] at zeros
      have looks : LooksWide (WideEncoding.utf32le.encode s) _ :=
        ⟨zeros, by omega, by simp only; omega, by simp only; omega⟩
      have added := looks.wide (by omega) (by simp only; omega) (by simp only; omega)
      have rule : keeps32 ⟨s.length, 2 * s.length, s.length, s.length⟩
          ((WideEncoding.utf32le.encode s).length / 2)
          ((WideEncoding.utf32le.encode s).length / 2 / 2) = fun j => j % 4 = 0 := by
        funext j
        simp only [keeps32]
        rw [if_neg (by omega), if_neg (by omega), if_neg (by omega)]
      rw [rule, picksText_utf32.1.recovers rfl] at added
      exact added
  | utf32be =>
      have length : (WideEncoding.utf32be.encode s).length = 4 * s.length := size
      have most : s.length ≤ 16 := short
      have zeros := (zeros_utf32 (j := 0) plain ⟨0, 0, 0, 0⟩ rfl).2
      simp only [Nat.zero_add] at zeros
      have looks : LooksWide (WideEncoding.utf32be.encode s) _ :=
        ⟨zeros, by omega, by simp only; omega, by simp only; omega⟩
      have added := looks.wide (by omega) (by simp only; omega) (by simp only; omega)
      have rule : keeps32 ⟨2 * s.length, s.length, s.length, 0⟩
          ((WideEncoding.utf32be.encode s).length / 2)
          ((WideEncoding.utf32be.encode s).length / 2 / 2) = fun j => j % 4 = 3 := by
        funext j
        simp only [keeps32]
        rw [if_pos (by omega)]
      rw [rule, picksText_utf32.2.recovers rfl] at added
      exact added

example : plainTokens (WideEncoding.utf16be.encode [97, 98, 99]) = [[97, 98, 99]] := by decide

/-- **`deunicode_extras` recovers plain strings**: it never writes behind its buffer, and where the
lengths of the tokens can be compared it keeps all tokens and adds each string without zero bytes
of which one of the four encodings was there. -/
theorem deunicodeExtras_recovers (Q : Qsort) (extras : List Token) :
    ∃ after, deunicodeExtras Q extras = some after ∧
      ((∀ token ∈ extras, token.length < 2 ^ 31) →
        (∀ token ∈ extras, token ∈ after) ∧
        ∀ (e : WideEncoding) (s : Token), 0 ∉ s → 3 ≤ s.length → s.length ≤ e.maxLength →
          e.encode s ∈ extras → s ∈ after) := by
  refine ⟨_, deunicodeExtras_eq Q extras, fun small => ?_⟩
  by_cases empty : extras = []
  · rw [empty]
    exact ⟨nofun, nofun⟩
  rw [if_neg empty]
  have all_small : ∀ token ∈ extras ++ extras.flatMap plainTokens, token.length < 2 ^ 31 := by
    refine List.forall_mem_append.mpr ⟨small, fun token member => ?_⟩
    obtain ⟨data, -, added⟩ := List.mem_flatMap.mp member
    exact (length_le_of_mem_plainTokens added).trans_lt (by decide)
  have perm := perm_sort Q all_small
  refine ⟨fun token member => perm.mem_iff.mpr (List.mem_append_left _ member), ?_⟩
  intro e s plain three short member
  refine perm.mem_iff.mpr (List.mem_append_right _ (List.mem_flatMap.mpr ⟨_, member, ?_⟩))
  exact mem_plainTokens e plain three short

/-- Two wide strings are recovered, from different encodings. -/
theorem deunicodeExtras_two :
    ∃ after, deunicodeExtras insertionQsort
        [WideEncoding.utf16le.encode [97, 98, 99], WideEncoding.utf32be.encode [71, 69, 84]] =
          some after ∧
      [97, 98, 99] ∈ after ∧ [71, 69, 84] ∈ after := by
  obtain ⟨after, converted, keeps⟩ := deunicodeExtras_recovers insertionQsort
    [WideEncoding.utf16le.encode [97, 98, 99], WideEncoding.utf32be.encode [71, 69, 84]]
  obtain ⟨-, recovers⟩ := keeps (by decide)
  refine ⟨after, converted, ?_, ?_⟩
  · exact recovers .utf16le [97, 98, 99] (by decide) (by decide) (by decide) (by decide)
  · exact recovers .utf32be [71, 69, 84] (by decide) (by decide) (by decide) (by decide)

end GreenFuzz.AflFuzz
