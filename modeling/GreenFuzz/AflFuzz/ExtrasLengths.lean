import GreenFuzz.AflFuzz.UserExtras

/-!
# The lengths of loaded tokens

`load_extras_file` warns about an empty keyword and passes over it. The check is made before the
text is decoded, and decoding drops bytes: those that are not printable, and the backslash of an
invalid escape. So a text of such bytes becomes a token of no bytes.

The writes stay inside the buffer of `rptr - lptr` bytes for every text (`storeKeyword_eq`), and
no token is longer than `MAX_DICT_FILE`. **All tokens that a file adds have at least one byte
exactly if each of its quoted texts has a character**: a byte from 32 to 127 that is no backslash,
or two backslashes in a row (`loadExtrasFile_lengths_iff`).
-/

set_option autoImplicit false

namespace GreenFuzz.AflFuzz

open Library

/-! ## Writing the data -/

/-- The loop over the bytes between the quotes, which writes to a buffer of the given size. Nothing
is returned where it writes behind the buffer. -/
def storeKeyword (size : ℕ) : List Byte → List Byte → Option (List Byte)
  | [], data => some data
  | b :: rest, data =>
      if isSkipped b then storeKeyword size rest data
      else if b = backslash then
        match _found : unescape rest with
        | some (c, more) =>
            if size ≤ data.length then none else storeKeyword size more (data ++ [c])
        | none => storeKeyword size rest data
      else if size ≤ data.length then none
      else storeKeyword size rest (data ++ [b])
termination_by text => text.length
decreasing_by
  · exact Nat.lt_succ_self _
  · exact Nat.lt_succ_of_lt (unescape_length _found)
  · exact Nat.lt_succ_self _
  · exact Nat.lt_succ_self _

/-- The texts between the quotes in a file. -/
def quotedTexts (dictLevel : ℤ) (file : List Byte) : List (List Byte) :=
  (readBuffers file).filterMap fun buf => quotedText dictLevel (buf.takeWhile fun b => b ≠ 0)

/-- The tokens that a file adds. -/
def addedTokens (dictLevel : ℤ) (s : ExtrasState) (file : List Byte) : List Token :=
  (loadExtrasFile dictLevel s file).extras.drop s.extras.length

/-- What is claimed of a file: each token has a byte and is not too long, and no text is written
behind the buffer that is allocated for it. -/
def LoadsSafely (dictLevel : ℤ) (s : ExtrasState) (file : List Byte) : Prop :=
  (∀ token ∈ addedTokens dictLevel s file, 1 ≤ token.length ∧ token.length ≤ MAX_DICT_FILE) ∧
    ∀ text ∈ quotedTexts dictLevel file, storeKeyword text.length text [] ≠ none

/-- A text that does not only have bytes that are dropped. -/
def HasCharacter (text : List Byte) : Prop :=
  (∃ b ∈ text, isSkipped b = false ∧ b ≠ backslash) ∨ [backslash, backslash] <:+: text

/-! ## Inside the buffer -/

variable {text rest data : List Byte} {b c : Byte} {size : ℕ}

theorem isSkipped_backslash : isSkipped backslash = false := by decide

theorem decodeKeyword_skipped (skipped : isSkipped b = true) (rest : List Byte) :
    decodeKeyword (b :: rest) = decodeKeyword rest := by
  rw [decodeKeyword, if_pos skipped]

/-- An invalid escape loses its backslash. -/
theorem decodeKeyword_invalid (missing : unescape rest = none) :
    decodeKeyword (backslash :: rest) = decodeKeyword rest := by
  rw [decodeKeyword]
  simp only [isSkipped_backslash, Bool.false_eq_true, if_false, if_true]
  split
  · rename_i c more found
    rw [missing] at found
    cases found
  · rfl

theorem storeKeyword_invalid (missing : unescape rest = none) :
    storeKeyword size (backslash :: rest) data = storeKeyword size rest data := by
  rw [storeKeyword]
  simp only [isSkipped_backslash, Bool.false_eq_true, if_false, if_true]
  split
  · rename_i c more found
    rw [missing] at found
    cases found
  · rfl

theorem storeKeyword_escape {more : List Byte} (found : unescape rest = some (c, more))
    (room : data.length < size) :
    storeKeyword size (backslash :: rest) data = storeKeyword size more (data ++ [c]) := by
  rw [storeKeyword]
  simp only [isSkipped_backslash, Bool.false_eq_true, if_false, if_true]
  split
  · rename_i d rest' known
    rw [found] at known
    cases known
    exact if_neg (not_le.mpr room)
  · rename_i missing
    rw [found] at missing
    cases missing

theorem storeKeyword_plain (printed : isSkipped b = false) (plain : b ≠ backslash)
    (room : data.length < size) :
    storeKeyword size (b :: rest) data = storeKeyword size rest (data ++ [b]) := by
  rw [storeKeyword]
  simp only [printed, Bool.false_eq_true, if_false, if_neg plain, if_neg (not_le.mpr room)]

/-- **Every write is inside the buffer**: at most one byte is written for each byte of the text. -/
theorem storeKeyword_eq (room : data.length + text.length ≤ size) :
    storeKeyword size text data = some (data ++ decodeKeyword text) := by
  induction text using decodeKeyword.induct generalizing data with
  | case1 => rw [storeKeyword, decodeKeyword, List.append_nil]
  | case2 b rest skipped ih =>
      rw [storeKeyword, if_pos skipped, decodeKeyword_skipped skipped]
      exact ih (by rw [List.length_cons] at room; omega)
  | case3 rest c more found printed ih =>
      rw [List.length_cons] at room
      have shorter := unescape_length found
      rw [storeKeyword_escape found (by omega), decodeKeyword_escape found,
        ih (by rw [List.length_append, List.length_singleton]; omega), List.append_assoc]
      rfl
  | case4 rest missing printed ih =>
      rw [storeKeyword_invalid missing, decodeKeyword_invalid missing]
      exact ih (by rw [List.length_cons] at room; omega)
  | case5 b rest printed plain ih =>
      rw [List.length_cons] at room
      have printed' := Bool.eq_false_iff.mpr printed
      rw [storeKeyword_plain printed' plain (by omega), decodeKeyword_plain printed' plain,
        ih (by rw [List.length_append, List.length_singleton]; omega), List.append_assoc]
      rfl

/-! ## Texts without a character -/

theorem backslashes_prefix_iff :
    [backslash, backslash] <+: b :: rest ↔ b = backslash ∧ rest.head? = some backslash := by
  rw [List.cons_prefix_cons, eq_comm]
  refine and_congr_right fun _ => ?_
  cases rest with
  | nil => exact iff_of_false (fun short => absurd short.length_le (by decide)) nofun
  | cons c rest =>
      rw [List.cons_prefix_cons, List.head?_cons, Option.some.injEq, eq_comm]
      exact and_iff_left List.nil_prefix

/-- A byte makes a character, alone or as the first of two backslashes, or it does not count. -/
theorem hasCharacter_cons : HasCharacter (b :: rest) ↔
    (isSkipped b = false ∧ b ≠ backslash) ∨ (b = backslash ∧ rest.head? = some backslash) ∨
      HasCharacter rest := by
  rw [HasCharacter, HasCharacter, List.infix_cons_iff, backslashes_prefix_iff]
  simp only [List.mem_cons, exists_eq_or_imp]
  exact or_assoc.trans (or_congr_right or_left_comm)

/-- A valid escape starts with one of three characters. -/
theorem unescape_head {more : List Byte} (found : unescape rest = some (c, more)) :
    ∃ d rest', rest = d :: rest' ∧ (d = backslash ∨ d = quoteMark ∨ d = ord 'x') := by
  cases rest with
  | nil => cases found
  | cons d rest' =>
      refine ⟨d, rest', rfl, ?_⟩
      simp only [unescape] at found
      split at found
      · rename_i special
        exact special.imp_right Or.inl
      · refine Or.inr (Or.inr ?_)
        split at found
        · split at found
          · cases found
          · rename_i valid
            exact not_not.mp fun other => valid (Or.inl other)
        · cases found

/-- **A text is decoded to nothing exactly if it has no character.** -/
theorem decodeKeyword_eq_nil_iff (text : List Byte) :
    decodeKeyword text = [] ↔ ¬ HasCharacter text := by
  induction text using decodeKeyword.induct with
  | case1 =>
      rw [decodeKeyword, HasCharacter]
      simp
  | case2 b rest skipped ih =>
      have unslashed : b ≠ backslash := by
        rintro rfl
        exact absurd skipped (by decide)
      rw [decodeKeyword_skipped skipped, ih, hasCharacter_cons]
      simp [skipped, unslashed]
  | case3 rest c more found printed ih =>
      rw [decodeKeyword_escape found]
      refine iff_of_false (List.cons_ne_nil _ _) (not_not.mpr ?_)
      obtain ⟨d, rest', rfl, head⟩ := unescape_head found
      rw [hasCharacter_cons, hasCharacter_cons]
      rcases head with rfl | head
      · exact Or.inr (Or.inl ⟨rfl, rfl⟩)
      · refine Or.inr (Or.inr (Or.inl ?_))
        rcases head with rfl | rfl <;> decide
  | case4 rest missing printed ih =>
      have single : rest.head? ≠ some backslash := by
        intro head
        obtain ⟨rest', rfl⟩ := List.head?_eq_some_iff.mp head
        simp [unescape] at missing
      rw [decodeKeyword_invalid missing, ih, hasCharacter_cons]
      simp [single]
  | case5 b rest printed plain ih =>
      have printed' := Bool.eq_false_iff.mpr printed
      rw [decodeKeyword_plain printed' plain]
      refine iff_of_false (List.cons_ne_nil _ _) (not_not.mpr ?_)
      exact Or.inl ⟨b, List.mem_cons_self, printed', plain⟩

/-! ## Files -/

/-- A line adds its decoded text if it has one that is not too long. -/
theorem extras_loadLine (dictLevel : ℤ) (s : ExtrasState) (buf : List Byte) :
    (loadLine dictLevel s buf).extras =
      s.extras ++ (((quotedText dictLevel (buf.takeWhile fun b => b ≠ 0)).toList.map
        decodeKeyword).filter fun token => token.length ≤ MAX_DICT_FILE) := by
  rw [loadLine]
  cases quotedText dictLevel (buf.takeWhile fun b => b ≠ 0) with
  | none => exact (List.append_nil _).symm
  | some text =>
      by_cases long : MAX_DICT_FILE < (decodeKeyword text).length
      · simp [long]
      · simp [long, not_lt.mp long]

/-- The tokens that a file adds are the decoded texts that are not too long. -/
theorem addedTokens_eq (dictLevel : ℤ) (s : ExtrasState) (file : List Byte) :
    addedTokens dictLevel s file =
      ((quotedTexts dictLevel file).map decodeKeyword).filter fun token =>
        token.length ≤ MAX_DICT_FILE := by
  have added : ∀ (bufs : List (List Byte)) (s : ExtrasState),
      (bufs.foldl (loadLine dictLevel) s).extras = s.extras ++
        ((bufs.filterMap fun buf => quotedText dictLevel (buf.takeWhile fun b => b ≠ 0)).map
          decodeKeyword).filter fun token => token.length ≤ MAX_DICT_FILE := by
    intro bufs
    induction bufs with
    | nil => exact fun s => (List.append_nil _).symm
    | cons buf bufs ih =>
        intro s
        rw [List.foldl_cons, ih, extras_loadLine, List.append_assoc, ← List.filter_append,
          ← List.map_append, List.filterMap_cons]
        cases quotedText dictLevel (buf.takeWhile fun b => b ≠ 0) with
        | none => rfl
        | some text => rfl
  rw [addedTokens, loadExtrasFile, added, List.drop_left, quotedTexts]

/-- **What a file adds has bytes exactly if its texts have characters**: a byte from 32 to 127 that
is no backslash, or two backslashes in a row. -/
theorem loadExtrasFile_lengths_iff (dictLevel : ℤ) (s : ExtrasState) (file : List Byte) :
    LoadsSafely dictLevel s file ↔ ∀ text ∈ quotedTexts dictLevel file, HasCharacter text := by
  rw [LoadsSafely, addedTokens_eq]
  constructor
  · rintro ⟨sized, -⟩ text member
    by_contra bare
    have empty := (decodeKeyword_eq_nil_iff text).mpr bare
    have added : ([] : Token) ∈ ((quotedTexts dictLevel file).map decodeKeyword).filter
        fun token => token.length ≤ MAX_DICT_FILE :=
      List.mem_filter.mpr ⟨empty ▸ List.mem_map_of_mem member, by decide⟩
    exact absurd (sized [] added).1 (by decide)
  · intro characters
    refine ⟨fun token member => ?_, fun text _ => ?_⟩
    · obtain ⟨decoded, short⟩ := List.mem_filter.mp member
      obtain ⟨text, quoted, rfl⟩ := List.mem_map.mp decoded
      refine ⟨List.length_pos_iff.mpr fun empty => ?_, of_decide_eq_true short⟩
      exact (decodeKeyword_eq_nil_iff text).mp empty (characters text quoted)
    · rw [storeKeyword_eq (by rw [List.length_nil, Nat.zero_add])]
      exact nofun

/-- The line `"é"` adds a token of no bytes. -/
theorem loadExtrasFile_empty_token :
    ¬ ∀ (dictLevel : ℤ) (s : ExtrasState) (file : List Byte), LoadsSafely dictLevel s file := by
  intro claim
  have lines : readBuffers [34, 195, 169, 34, 10] = [[34, 195, 169, 34, 10]] := by
    have line : fgets (MAX_LINE - 1) [34, 195, 169, 34, 10] = ([34, 195, 169, 34, 10], []) := rfl
    rw [readBuffers_of_ne_nil (by decide), line, readBuffers]
  have texts : quotedTexts 0 [34, 195, 169, 34, 10] = [[195, 169]] := by
    rw [quotedTexts, lines]
    decide
  have empty : decodeKeyword [195, 169] = [] := by
    rw [decodeKeyword_skipped (by decide), decodeKeyword_skipped (by decide), decodeKeyword]
  have sized := (claim 0 ⟨[], MAX_DICT_FILE, 0⟩ [34, 195, 169, 34, 10]).1
  rw [addedTokens_eq, texts, List.map_singleton, empty] at sized
  exact absurd (sized [] (by decide)).1 (by decide)

end GreenFuzz.AflFuzz
