import GreenFuzz.AflFuzz.MapBuffers
import GreenFuzz.Common.EnvPairs

/-!
# Setting the environment of the target

`extract_and_set_env` reads `KEY=VALUE` pairs from a string and sets each of them as soon as it is
read. A value may stand in single or double quotes, and may then contain spaces. The names and
values are terminated in a copy of the string, and `goto free_and_return` leaves the function at
the first part that is no pair.

So a string whose beginning can be read changes the environment even if the function fails. What
it changes are in all cases the pairs that can be read from the left, and it succeeds if there is a
pair and at most one character is left over behind the last one (`extractAndSetEnv_reading`).
-/

set_option autoImplicit false

namespace GreenFuzz.Common

open Library
open AflFuzz (ord isDigit isLabel quoteMark u32 MAX_ALLOC allocAborts)

/-! ## The environment -/

/-- The values of the variables that are set. -/
abbrev Environment := List Byte → Option (List Byte)

/-- `setenv(name, value, 1)`. An empty name and one with an `=` are refused. -/
def setenv (env : Environment) (name value : List Byte) : Environment :=
  if name = [] ∨ ord '=' ∈ name then env else Function.update env name (some value)

/-- The environment with some pairs set, one after the other. -/
def setPairs (env : Environment) (pairs : List EnvPair) : Environment :=
  pairs.foldl (fun env pair => Function.update env pair.1 (some pair.2)) env

variable {text value rest name : List Byte} {pair : EnvPair}

/-- A name can be set. -/
theorem IsName.setenv_eq (isName : IsName name) (env : Environment) (value : List Byte) :
    setenv env name value = Function.update env name (some value) := by
  refine if_neg ?_
  rintro (empty | member)
  · exact isName.nonempty empty
  · exact absurd (isName.labels _ member) (by decide)

theorem PairFirst.setenv_eq (first : PairFirst text pair rest) (env : Environment) :
    setenv env pair.1 pair.2 = Function.update env pair.1 (some pair.2) := by
  obtain ⟨isName, -⟩ := first
  exact isName.setenv_eq env _

/-! ## The code -/

/-- `ck_strdup`. The size is a `u32`. -/
def ckStrdup (str : CString) : Except Stop (List Byte) :=
  if allocAborts (str.bytes.length + 1) then .error .aborted
  else .ok (str.buffer.take (u32 (str.bytes.length + 1)))

/-- The loop over a name, with the number of bytes before `end`. -/
def scanName (copy : List Byte) : ℕ → ℕ → OptionT (Except Stop) ℕ
  | 0, rest => return rest
  | left + 1, rest => do
      let c ← load copy rest
      if c = ord '=' ∨ c = ord ' ' then return rest
      if !isLabel c then failure
      scanName copy left (rest + 1)

/-- The loop over a value. -/
def scanValue (copy : List Byte) (closingSym : Byte) : ℕ → ℕ → Except Stop ℕ
  | 0, rest => return rest
  | left + 1, rest => do
      if (← load copy rest) = closingSym then return rest
      scanValue copy closingSym left (rest + 1)

/-- Where the name and the value of a pair stand in the copy, and where the rest starts. -/
structure PairPlace where
  copy : List Byte
  key : ℕ
  val : ℕ
  rest : ℕ

/-- From the value of a pair on. A failure is `goto free_and_return`. -/
def parseValue (copy : List Byte) (stop key rest : ℕ) : OptionT (Except Stop) PairPlace := do
  if stop ≤ rest then failure
  let mark ← load copy rest
  if mark = ord ' ' then failure
  let quoted := mark = ord '\'' ∨ mark = quoteMark
  let closingSym := if quoted then mark else ord ' '
  let val := if quoted then rest + 1 else rest
  if quoted ∧ stop ≤ val then failure
  let rest ← scanValue copy closingSym (stop - val) val
  if closingSym ≠ ord ' ' then
    if (← load copy rest) ≠ closingSym then failure
  return ⟨← store copy rest 0, key, val, rest + 1⟩

/-- One pair, from its name on. -/
def parsePair (copy : List Byte) (stop key : ℕ) : OptionT (Except Stop) PairPlace := do
  let first ← load copy key
  if first = ord '=' ∨ isDigit first then failure
  let rest ← scanName copy (stop - key) key
  if (← load copy rest) ≠ ord '=' then failure
  parseValue (← store copy rest 0) stop key (rest + 1)

/-- The locals of `extract_and_set_env`, and the environment. -/
structure EnvScan where
  copy : List Byte
  rest : ℕ := 0
  numPairs : ℕ := 0
  env : Environment

/-- The loop over the pairs: what the function returns, and the environment then. -/
def extractLoop (stop : ℕ) : ℕ → EnvScan → Except Stop (Bool × Environment)
  | 0, s => if s.rest < stop then .error .endless else return (s.numPairs ≠ 0, s.env)
  | rounds + 1, s => do
      if ¬ s.rest < stop then return (s.numPairs ≠ 0, s.env)
      let rest := s.rest + (← countUntil (fun b => b ≠ ord ' ') (s.copy.drop s.rest))
      -- The `break`: one last byte is not looked at.
      if stop ≤ rest + 1 then return (s.numPairs ≠ 0, s.env)
      match ← (parsePair s.copy stop rest).run with
      | none => return (false, s.env)
      | some place =>
          let name ← readString (place.copy.drop place.key)
          let value ← readString (place.copy.drop place.val)
          extractLoop stop rounds
            ⟨place.copy, place.rest, s.numPairs + 1, setenv s.env name value⟩

/-- `extract_and_set_env`. There is no result if it accesses anything outside the copy, or if the
allocator aborts. -/
def extractAndSetEnv (envStr : Option CString) (env : Environment) :
    Except Stop (Bool × Environment) :=
  match envStr with
  | none => return (false, env)
  | some str => do
      let copy ← ckStrdup str
      let stop ← strlen copy
      extractLoop stop stop { copy, env }

/-! ## The code on a string -/

section Code

variable {copy more : List Byte} {stop key : ℕ}

variable {start : ℕ} {front back : List Byte}

/-- The rest of the string stands from an index of the copy on, up to its end. Behind the end of the
copy nothing is left. -/
def StandsAt (copy : List Byte) (stop rest : ℕ) (text : List Byte) : Prop :=
  copy.drop rest = text ++ [0] ∧ stop = rest + text.length ∨ text = [] ∧ stop ≤ rest

theorem StandsAt.cases (stands : StandsAt copy stop start text) :
    text = [] ∧ ¬ start < stop ∨
      text ≠ [] ∧ copy.drop start = text ++ [0] ∧ stop = start + text.length := by
  rcases stands with ⟨there, ends⟩ | ⟨rfl, beyond⟩
  · rcases List.eq_nil_or_concat text with rfl | nonempty
    · exact .inl ⟨rfl, by rw [ends]; exact lt_irrefl _⟩
    · refine .inr ⟨?_, there, ends⟩
      rintro rfl
      simp at nonempty
  · exact .inl ⟨rfl, beyond.not_gt⟩

theorem scanName_labels (left : ℕ) (stands : copy.drop start = front ++ back)
    (labels : ∀ b ∈ front, isLabel b = true) :
    scanName copy (front.length + left) start = scanName copy left (start + front.length) := by
  induction front generalizing start with
  | nil => rw [List.length_nil, Nat.zero_add, Nat.add_zero]
  | cons b front ih =>
      have label := labels b List.mem_cons_self
      have goesOn : ¬ (b = ord '=' ∨ b = ord ' ') := by
        rintro (rfl | rfl) <;> exact absurd label (by decide)
      have next : copy.drop (start + 1) = front ++ back := by
        rw [← List.drop_drop, stands]
        rfl
      have rest := ih next fun c member => labels c (List.mem_cons_of_mem b member)
      rw [List.length_cons, Nat.add_right_comm, scanName, load_of_drop stands]
      show (if _ then _ else _ : OptionT (Except Stop) ℕ) = _
      rw [if_neg goesOn, if_neg (by simp [label]), rest, Nat.add_right_comm, Nat.add_assoc]

theorem scanName_ends (left : ℕ) {a : Byte} (there : load copy start = .ok a)
    (fails : isLabel a = false) :
    scanName copy (left + 1) start =
      if a = ord '=' ∨ a = ord ' ' then pure start else failure := by
  rw [scanName, there]
  show (if _ then _ else _ : OptionT (Except Stop) ℕ) = _
  by_cases stops : a = ord '=' ∨ a = ord ' '
  · rw [if_pos stops, if_pos stops]
  · rw [if_neg stops, if_neg stops, if_pos (by rw [fails]; rfl)]
    rfl

theorem scanValue_passed {sym : Byte} (left : ℕ) (stands : copy.drop start = front ++ back)
    (passed : ∀ b ∈ front, decide (b ≠ sym) = true) :
    scanValue copy sym (front.length + left) start =
      scanValue copy sym left (start + front.length) := by
  induction front generalizing start with
  | nil => rw [List.length_nil, Nat.zero_add, Nat.add_zero]
  | cons b front ih =>
      have goesOn : b ≠ sym := of_decide_eq_true (passed b List.mem_cons_self)
      have next : copy.drop (start + 1) = front ++ back := by
        rw [← List.drop_drop, stands]
        rfl
      have rest := ih next fun c member => passed c (List.mem_cons_of_mem b member)
      rw [List.length_cons, Nat.add_right_comm, scanValue, load_of_drop stands]
      show (if _ then _ else _ : Except Stop ℕ) = _
      rw [if_neg goesOn, rest, Nat.add_right_comm, Nat.add_assoc]

/-- The loop over a value stops at the symbol that closes it, or at the end of the string. -/
theorem scanValue_text (sym : Byte) (stands : copy.drop start = text ++ [0]) :
    scanValue copy sym text.length start =
      .ok (start + (text.takeWhile (· ≠ sym)).length) := by
  rcases all_or_first (· ≠ sym) text with all | ⟨front, a, back, rfl, passed, closes⟩
  · rw [List.takeWhile_eq_self_iff.mpr all]
    exact scanValue_passed 0 stands all
  · obtain rfl : a = sym := by simpa using closes
    rw [List.append_assoc] at stands
    have last : load copy (start + front.length) = .ok a := load_behind stands
    rw [takeWhile_append_cons passed closes, List.length_append, scanValue_passed _ stands passed,
      List.length_cons, scanValue, last]
    exact if_pos rfl

/-- A byte of the copy can be overwritten by a null byte, and the string before it ends there. -/
theorem store_terminator {c : Byte} (stands : copy.drop start = front ++ c :: back)
    (noNull : 0 ∉ front) :
    store copy (start + front.length) 0 = .ok (copy.set (start + front.length) 0) ∧
      readString ((copy.set (start + front.length) 0).drop start) = .ok front ∧
      (copy.set (start + front.length) 0).drop (start + front.length + 1) = back := by
  have length := congrArg List.length stands
  rw [List.length_drop, List.length_append, List.length_cons] at length
  refine ⟨store_inside (by omega), ?_, ?_⟩
  · rw [drop_set_append stands, readString_string noNull]
  · rw [List.drop_set_of_lt (by omega), ← List.drop_drop, ← List.drop_drop, stands,
      List.drop_left]
    rfl

/-- What is known of the place of a pair whose value is read from `start` on. -/
structure ValuePlaced (copy : List Byte) (stop key start : ℕ) (value rest : List Byte)
    (place : PairPlace) : Prop where
  terminated : ∃ p, start ≤ p ∧ place.copy = copy.set p 0
  key : place.key = key
  value : readString (place.copy.drop place.val) = .ok value
  rest : StandsAt place.copy stop place.rest rest

/-- A value that ends at a byte of the copy. -/
theorem valuePlaced {c : Byte} {start val : ℕ} (after : start ≤ val)
    (stands : copy.drop val = front ++ c :: back) (noNull : 0 ∉ front)
    (left : back = rest ++ [0] ∧ stop = val + front.length + 1 + rest.length ∨
      rest = [] ∧ stop ≤ val + front.length + 1) :
    ValuePlaced copy stop key start front rest
      ⟨copy.set (val + front.length) 0, key, val, val + front.length + 1⟩ := by
  obtain ⟨-, value, behind⟩ := store_terminator stands noNull
  refine ⟨⟨_, Nat.le_add_right_of_le after, rfl⟩, rfl, value, ?_⟩
  rcases left with ⟨rfl, ends⟩ | ⟨rfl, ends⟩
  · exact .inl ⟨behind, ends⟩
  · exact .inr ⟨rfl, ends⟩

theorem run_read {α β : Type} (a : α) (next : α → OptionT (Except Stop) β) :
    OptionT.run (liftM (Except.ok a : Except Stop α) >>= next) = (next a).run := rfl

theorem parseValue_bare {mark : Byte} (first : load copy start = .ok mark) (inside : ¬ stop ≤ start)
    (blank : mark ≠ ord ' ') (quote : ¬ IsQuote mark) {p : ℕ}
    (scanned : scanValue copy (ord ' ') (stop - start) start = .ok p)
    (stored : store copy p 0 = .ok more) :
    (parseValue copy stop key start).run = .ok (some ⟨more, key, start, p + 1⟩) := by
  rw [parseValue, if_neg inside, first, run_read, if_neg blank]
  dsimp only
  rw [if_neg quote, if_neg quote, if_neg fun both => quote both.1, scanned]
  simp only [ne_eq, not_true_eq_false, if_false]
  change OptionT.run (liftM (store copy p 0) >>= _) = _
  rw [stored]
  rfl

theorem parseValue_unclosed {mark : Byte} (first : load copy start = .ok mark)
    (inside : ¬ stop ≤ start) (quote : IsQuote mark) (ended : stop ≤ start + 1) :
    (parseValue copy stop key start).run = .ok none := by
  rw [parseValue, if_neg inside, first, run_read, if_neg quote.ne_blank]
  dsimp only
  rw [if_pos quote, if_pos ⟨quote, ended⟩]
  rfl

theorem parseValue_quoted (key : ℕ) {mark closing : Byte} (first : load copy start = .ok mark)
    (inside : ¬ stop ≤ start) (quote : IsQuote mark) (goesOn : ¬ stop ≤ start + 1) {p : ℕ}
    (scanned : scanValue copy mark (stop - (start + 1)) (start + 1) = .ok p)
    (last : load copy p = .ok closing) (stored : store copy p 0 = .ok more) :
    (parseValue copy stop key start).run =
      .ok (if closing = mark then some ⟨more, key, start + 1, p + 1⟩ else none) := by
  rw [parseValue, if_neg inside, first, run_read, if_neg quote.ne_blank]
  dsimp only
  rw [if_pos quote, if_pos quote, if_neg fun both => goesOn both.2, scanned, run_read,
    if_pos quote.ne_blank, last, run_read]
  by_cases closes : closing = mark
  · rw [if_neg (not_not_intro closes), if_pos closes, stored]
    rfl
  · rw [if_pos closes, if_neg closes]
    rfl

/-- The code finds the value that is given, and gives up if there is none. -/
def FindsValue (copy : List Byte) (stop key start : ℕ) :
    Option (List Byte × List Byte) → Prop
  | none => (parseValue copy stop key start).run = .ok none
  | some (value, rest) => ∃ place, (parseValue copy stop key start).run = .ok (some place) ∧
      ValuePlaced copy stop key start value rest place

section Value

variable {mark : Byte} {inner : List Byte} {start : ℕ}

theorem findsValue_quoted (stands : copy.drop start = mark :: inner ++ [0])
    (ends : stop = start + 1 + inner.length) (noNull : 0 ∉ mark :: inner) (quote : IsQuote mark) :
    FindsValue copy stop key start (firstValue (mark :: inner)) := by
  have inside : ¬ stop ≤ start := by omega
  have first : load copy start = .ok mark := load_of_drop stands
  have later : copy.drop (start + 1) = inner ++ [0] := by
    rw [← List.drop_drop, stands]
    rfl
  rw [firstValue, if_neg quote.ne_blank, if_pos quote]
  by_cases ended : stop ≤ start + 1
  · obtain rfl : inner = [] := List.eq_nil_of_length_eq_zero (by omega)
    exact parseValue_unclosed first inside quote ended
  have noNull' : 0 ∉ inner := fun member => noNull (List.mem_cons_of_mem mark member)
  have scanned := scanValue_text mark later
  rw [show inner.length = stop - (start + 1) by omega] at scanned
  rcases all_or_first (· ≠ mark) inner with all | ⟨front, a, back, rfl, passed, closes⟩
  · -- No mark closes the value, and the byte that is looked at is the null byte.
    rw [List.takeWhile_eq_self_iff.mpr all] at scanned
    have last : load copy (start + 1 + inner.length) = .ok 0 := load_behind later
    have parsed := parseValue_quoted key first inside quote ended scanned last
      (store_terminator later noNull').1
    have open_ : (0 : Byte) ≠ mark := fun null => noNull (null ▸ List.mem_cons_self)
    rw [if_neg open_] at parsed
    rwa [List.dropWhile_eq_nil_iff.mpr all]
  · obtain rfl : a = mark := by simpa using closes
    rw [takeWhile_append_cons passed closes] at scanned
    rw [List.append_assoc] at later
    rw [List.length_append, List.length_cons] at ends
    have noNull'' : 0 ∉ front := fun member => noNull' (List.mem_append_left _ member)
    have last : load copy (start + 1 + front.length) = .ok a := load_behind later
    have parsed := parseValue_quoted key first inside quote ended scanned last
      (store_terminator later noNull'').1
    rw [if_pos rfl] at parsed
    rw [dropWhile_append_cons passed closes, takeWhile_append_cons passed closes]
    exact ⟨_, parsed, valuePlaced (Nat.le_succ start) later noNull'' (.inl ⟨rfl, by omega⟩)⟩

theorem findsValue_bare (stands : copy.drop start = mark :: inner ++ [0])
    (ends : stop = start + (mark :: inner).length) (noNull : 0 ∉ mark :: inner)
    (blank : mark ≠ ord ' ') (quote : ¬ IsQuote mark) :
    FindsValue copy stop key start (firstValue (mark :: inner)) := by
  have inside : ¬ stop ≤ start := by
    rw [ends, List.length_cons]
    omega
  have first : load copy start = .ok mark := load_of_drop stands
  have scanned := scanValue_text (ord ' ') stands
  rw [← Nat.add_sub_cancel_left (n := start) (m := (mark :: inner).length), ← ends] at scanned
  rw [firstValue, if_neg blank, if_neg quote]
  rcases all_or_first (· ≠ ord ' ') (mark :: inner) with
    all | ⟨front, a, back, split, passed, closes⟩
  · rw [List.takeWhile_eq_self_iff.mpr all] at scanned
    rw [List.takeWhile_eq_self_iff.mpr all, List.dropWhile_eq_nil_iff.mpr all]
    exact ⟨_, parseValue_bare first inside blank quote scanned (store_terminator stands noNull).1,
      valuePlaced le_rfl stands noNull (.inr ⟨rfl, by omega⟩)⟩
  · obtain rfl : a = ord ' ' := by simpa using closes
    rw [split, List.length_append, List.length_cons] at ends
    rw [split, List.append_assoc] at stands
    have noNull' : 0 ∉ front := fun member => noNull (split ▸ List.mem_append_left _ member)
    rw [split, takeWhile_append_cons passed closes] at scanned
    rw [split, takeWhile_append_cons passed closes, dropWhile_append_cons passed closes,
      List.tail_cons]
    exact ⟨_, parseValue_bare first inside blank quote scanned (store_terminator stands noNull').1,
      valuePlaced le_rfl stands noNull' (.inl ⟨rfl, by omega⟩)⟩

/-- The code finds the value at the beginning of a string. -/
theorem findsValue_firstValue (key : ℕ) (stands : copy.drop start = text ++ [0])
    (ends : stop = start + text.length) (noNull : 0 ∉ text) :
    FindsValue copy stop key start (firstValue text) := by
  cases text with
  | nil =>
      show (parseValue copy stop key start).run = _
      rw [parseValue, if_pos (by rw [ends]; exact le_rfl)]
      rfl
  | cons mark inner =>
      by_cases blank : mark = ord ' '
      · have inside : ¬ stop ≤ start := by
          rw [ends, List.length_cons]
          omega
        rw [firstValue, if_pos blank]
        show (parseValue copy stop key start).run = _
        rw [parseValue, if_neg inside, load_of_drop stands, run_read, if_pos blank]
        rfl
      · by_cases quote : IsQuote mark
        · refine findsValue_quoted stands ?_ noNull quote
          rw [ends, List.length_cons]
          omega
        · exact findsValue_bare stands ends noNull blank quote

end Value

/-- What is known of the place of a pair. -/
structure PairPlaced (stop : ℕ) (pair : EnvPair) (rest : List Byte) (place : PairPlace) :
    Prop where
  name : readString (place.copy.drop place.key) = .ok pair.1
  value : readString (place.copy.drop place.val) = .ok pair.2
  rest : StandsAt place.copy stop place.rest rest

/-- The code finds the pair that is given, and gives up if there is none. -/
def FindsPair (copy : List Byte) (stop key : ℕ) : Option (EnvPair × List Byte) → Prop
  | none => (parsePair copy stop key).run = .ok none
  | some (pair, rest) => ∃ place, (parsePair copy stop key).run = .ok (some place) ∧
      PairPlaced stop pair rest place

/-- A name that was terminated stays so when the value behind it is. -/
theorem ValuePlaced.pairPlaced {place : PairPlace}
    (placed : ValuePlaced copy stop key (key + front.length + 1) value rest place)
    (named : copy.drop key = front ++ 0 :: back) (noNull : 0 ∉ front) :
    PairPlaced stop (front, value) rest place := by
  obtain ⟨⟨p, behind, copy_eq⟩, key_eq, value_read, left⟩ := placed
  refine ⟨?_, value_read, left⟩
  obtain ⟨i, rfl⟩ := Nat.exists_eq_add_of_le behind
  rw [copy_eq, key_eq, List.drop_set, if_neg (by omega), named,
    List.set_append_right _ _ (by omega),
    show key + front.length + 1 + i - key - front.length = i + 1 by omega, List.set_cons_succ]
  exact readString_string noNull

theorem parsePair_refused {first : Byte} (begins : load copy key = .ok first)
    (refused : first = ord '=' ∨ isDigit first) : (parsePair copy stop key).run = .ok none := by
  rw [parsePair, begins, run_read, if_pos refused]
  rfl

theorem parsePair_malformed {first : Byte} (begins : load copy key = .ok first)
    (accepted : ¬ (first = ord '=' ∨ isDigit first))
    (scanned : scanName copy (stop - key) key = failure) :
    (parsePair copy stop key).run = .ok none := by
  rw [parsePair, begins, run_read, if_neg accepted, scanned]
  rfl

theorem parsePair_named {first last : Byte} (begins : load copy key = .ok first)
    (accepted : ¬ (first = ord '=' ∨ isDigit first)) {p : ℕ}
    (scanned : scanName copy (stop - key) key = pure p) (stops : load copy p = .ok last)
    (stored : store copy p 0 = .ok more) :
    (parsePair copy stop key).run =
      if last = ord '=' then (parseValue more stop key (p + 1)).run else .ok none := by
  rw [parsePair, begins, run_read, if_neg accepted, scanned]
  change OptionT.run (liftM (load copy p) >>= _) = _
  rw [stops]
  rw [run_read]
  by_cases equals : last = ord '='
  · rw [if_neg (not_not_intro equals), if_pos equals, stored]
    rfl
  · rw [if_pos equals, if_neg equals]
    rfl

/-- A pair is found if the value behind its name is. -/
theorem findsPair_of_findsValue {front behind : List Byte}
    {value : Option (List Byte × List Byte)}
    (parsed : (parsePair copy stop key).run =
      (parseValue more stop key (key + front.length + 1)).run)
    (named : more.drop key = front ++ 0 :: behind) (noNull : 0 ∉ front)
    (found : FindsValue more stop key (key + front.length + 1) value) :
    FindsPair copy stop key (value.map fun first => ((front, first.1), first.2)) := by
  cases value with
  | none => exact parsed.trans found
  | some value =>
      obtain ⟨place, run, placed⟩ := found
      exact ⟨place, parsed.trans run, placed.pairPlaced named noNull⟩

/-- The code finds the pair at the beginning of a string. -/
theorem findsPair_firstPair (stands : copy.drop key = text ++ [0])
    (ends : stop = key + text.length) (noNull : 0 ∉ text) (nonempty : text ≠ []) :
    FindsPair copy stop key (firstPair text) := by
  obtain ⟨first, others, starts⟩ := List.exists_cons_of_ne_nil nonempty
  have begins : load copy key = .ok first := by
    rw [starts] at stands
    exact load_of_drop stands
  have head : text.head? = some first := by rw [starts]; rfl
  have left : stop - key = text.length := by omega
  rw [firstPair, head]
  by_cases refused : first = ord '=' ∨ isDigit first
  · rw [if_pos (fun b same => Option.some.inj same ▸ refused)]
    exact parsePair_refused begins refused
  rw [if_neg fun all => refused (all first rfl)]
  rcases all_or_first isLabel text with all | ⟨front, a, back, rfl, labels, fails⟩
  · have scanned : scanName copy (stop - key) key = pure (key + text.length) := by
      rw [left]
      exact scanName_labels 0 stands all
    have stops : load copy (key + text.length) = .ok 0 := load_behind stands
    have parsed := parsePair_named begins refused scanned stops (store_terminator stands noNull).1
    rw [if_neg (by decide)] at parsed
    rwa [List.dropWhile_eq_nil_iff.mpr all]
  · rw [takeWhile_append_cons labels fails, dropWhile_append_cons labels fails]
    rw [List.append_assoc] at stands
    have here : load copy (key + front.length) = .ok a := load_behind stands
    have noNull' : 0 ∉ front := fun member => noNull (List.mem_append_left _ member)
    have scanned := (scanName_labels _ stands labels).trans (scanName_ends back.length here fails)
    rw [← List.length_cons (a := a), ← List.length_append, ← left] at scanned
    obtain ⟨stored, -, behind⟩ := store_terminator stands noNull'
    dsimp only
    by_cases equals : a = ord '='
    · rw [if_neg (not_not_intro equals)]
      rw [if_pos (.inl equals)] at scanned
      have parsed := parsePair_named begins refused scanned here stored
      rw [if_pos equals] at parsed
      have ends' : stop = key + front.length + 1 + back.length := by
        rw [ends, List.length_append, List.length_cons]
        omega
      have found := findsValue_firstValue key behind ends' fun member =>
        noNull (List.mem_append_right _ (List.mem_cons_of_mem a member))
      exact findsPair_of_findsValue parsed (drop_set_append stands) noNull' found
    · rw [if_pos equals]
      by_cases blank : a = ord ' '
      · rw [if_pos (.inr blank)] at scanned
        have parsed := parsePair_named begins refused scanned here stored
        rwa [if_neg equals] at parsed
      · rw [if_neg (by rintro (same | same); exacts [equals same, blank same])] at scanned
        exact parsePair_malformed begins refused scanned

end Code

/-! ## The loop -/

section Loop

variable {stop rounds : ℕ} {s : EnvScan}

theorem extractLoop_over (ended : ¬ s.rest < stop) :
    extractLoop stop rounds s = .ok (decide (s.numPairs ≠ 0), s.env) := by
  cases rounds with
  | zero => exact if_neg ended
  | succ rounds =>
      rw [extractLoop, if_pos ended]
      rfl

/-- One round, up to the name of the next pair. -/
theorem extractLoop_round (rounds : ℕ) (stands : s.copy.drop s.rest = text ++ [0])
    (ends : stop = s.rest + text.length) (nonempty : text ≠ []) :
    ∃ key, s.copy.drop key = unblanked text ++ [0] ∧ stop = key + (unblanked text).length ∧
      extractLoop stop (rounds + 1) s =
        if AtEnd text then .ok (decide (s.numPairs ≠ 0), s.env)
        else (parsePair s.copy stop key).run >>= fun found =>
          match found with
          | none => .ok (false, s.env)
          | some place =>
              readString (place.copy.drop place.key) >>= fun name =>
                readString (place.copy.drop place.val) >>= fun value =>
                  extractLoop stop rounds
                    ⟨place.copy, place.rest, s.numPairs + 1, setenv s.env name value⟩ := by
  obtain ⟨blanks, split, all⟩ := exists_blanks text
  have running : s.rest < stop := by
    have positive := List.length_pos_iff.mpr nonempty
    omega
  have length := congrArg List.length split
  rw [List.length_append] at length
  have key : s.copy.drop (s.rest + blanks.length) = unblanked text ++ [0] := by
    rw [← List.drop_drop, stands]
    conv_lhs => rw [split]
    rw [List.append_assoc, List.drop_left]
  have skipped : countUntil (fun b => b ≠ ord ' ') (s.copy.drop s.rest) = .ok blanks.length := by
    have passed : ∀ b ∈ blanks, decide (b ≠ ord ' ') = false := fun b member =>
      decide_eq_false (not_not_intro (all b member))
    rw [stands, split, List.append_assoc]
    rcases body : unblanked text with _ | ⟨b, more⟩
    · exact countUntil_append passed (by decide)
    · have fails := List.head?_dropWhile_not (fun b => decide (b = ord ' ')) text
      rw [← unblanked, body] at fails
      exact countUntil_append passed (by simpa using fails)
  refine ⟨_, key, by omega, ?_⟩
  rw [extractLoop, if_neg (not_not_intro running), skipped]
  show (if _ then _ else _ : Except Stop (Bool × Environment)) = _
  have at_end : stop ≤ s.rest + blanks.length + 1 ↔ AtEnd text := by
    rw [AtEnd]
    omega
  by_cases last : AtEnd text
  · rw [if_pos last, if_pos (at_end.mpr last)]
    rfl
  · rw [if_neg last, if_neg (at_end.not.mpr last)]
    rfl

/-- **The loop sets the pairs of the reading**, and succeeds if the reading comes to the end of the
string and has a pair. -/
theorem extractLoop_reading {pairs : List EnvPair} {left : List Byte}
    (reading : Reading text pairs left) (stands : StandsAt s.copy stop s.rest text)
    (noNull : 0 ∉ text) (enough : text.length ≤ rounds) :
    extractLoop stop rounds s =
      .ok (decide (s.numPairs + pairs.length ≠ 0 ∧ AtEnd left), setPairs s.env pairs) := by
  induction reading generalizing rounds s with
  | @stop text noMore =>
      rcases stands.cases with ⟨rfl, past⟩ | ⟨nonempty, there, ends⟩
      · rw [extractLoop_over past]
        simp [AtEnd, unblanked, setPairs]
      · obtain ⟨rounds, rfl⟩ := Nat.exists_eq_add_of_le'
          ((List.length_pos_iff.mpr nonempty).trans_le enough)
        obtain ⟨key, stands', ends', round⟩ :=
          extractLoop_round rounds there ends nonempty
        rw [round]
        by_cases last : AtEnd text
        · rw [if_pos last]
          simp [last, setPairs]
        · have absent : firstPair (unblanked text) = none := by
            refine Option.eq_none_iff_forall_ne_some.mpr fun found same => ?_
            exact noMore ⟨_, _, pairFirst_of_firstPair same⟩
          have found := findsPair_firstPair stands' ends' (noNull_unblanked noNull)
            (unblanked_ne_nil last)
          rw [absent] at found
          rw [if_neg last, found]
          simp [last, setPairs]
          rfl
  | @pair text rest left pair pairs first more ih =>
      have last : ¬ AtEnd text := first.not_atEnd
      have shorter : rest.length < text.length := first.length_lt
      have body := unblanked_ne_nil last
      rcases stands.cases with ⟨rfl, -⟩ | ⟨nonempty, there, ends⟩
      · exact absurd rfl body
      · obtain ⟨rounds, rfl⟩ := Nat.exists_eq_add_of_le'
          ((List.length_pos_iff.mpr nonempty).trans_le enough)
        obtain ⟨key, stands', ends', round⟩ :=
          extractLoop_round rounds there ends nonempty
        have found := findsPair_firstPair stands' ends' (noNull_unblanked noNull) body
        rw [firstPair_of_pairFirst first] at found
        obtain ⟨place, parsed, name, value, stands''⟩ := found
        rw [round, if_neg last, parsed]
        show readString _ >>= _ = _
        rw [name]
        show readString _ >>= _ = _
        rw [value]
        show extractLoop stop rounds _ = _
        rw [ih stands'' (first.noNull noNull) (by omega), first.setenv_eq, List.length_cons]
        simp only [setPairs, List.foldl_cons, Nat.add_assoc, Nat.add_comm 1]

end Loop

/-! ## The function -/

/-- **The environment is changed by the pairs that are read from the left**, one after the other,
and the function succeeds if there is a pair and at most one byte behind the last one. -/
theorem extractAndSetEnv_reading (str : CString) (fits : str.bytes.length + 1 < 2 ^ 32)
    (env : Environment) :
    (MAX_ALLOC < str.bytes.length + 1 ∧ extractAndSetEnv (some str) env = .error .aborted) ∨
      ((∃ pairs left, Reading str.bytes pairs left) ∧
        ∀ pairs left, Reading str.bytes pairs left →
          extractAndSetEnv (some str) env =
            .ok (decide (pairs ≠ [] ∧ AtEnd left), setPairs env pairs)) := by
  have size : u32 (str.bytes.length + 1) = str.bytes.length + 1 := Nat.mod_eq_of_lt fits
  by_cases aborts : MAX_ALLOC < str.bytes.length + 1
  · refine .inl ⟨aborts, ?_⟩
    rw [extractAndSetEnv, ckStrdup, if_pos (by rw [allocAborts, size]; exact decide_eq_true aborts)]
    rfl
  · refine .inr ⟨exists_reading str.bytes, fun pairs left reading => ?_⟩
    have whole : str.buffer.take (u32 (str.bytes.length + 1)) = str.bytes ++ [0] := by
      rw [size, CString.buffer, List.take_of_length_le (by simp)]
    rw [extractAndSetEnv, ckStrdup,
      if_neg (by rw [allocAborts, size, decide_eq_true_eq]; exact aborts), whole]
    show strlen (str.bytes ++ [0]) >>= _ = _
    rw [strlen_string str.noNull]
    show extractLoop _ _ _ = _
    rw [extractLoop_reading reading (.inl ⟨rfl, (Nat.zero_add _).symm⟩) str.noNull le_rfl]
    simp [List.length_eq_zero_iff]

/-- The value that the documentation of `AFL_TARGET_ENV` gives as an example. -/
def documentedEnv : CString := ⟨literal "VAR1=1 VAR2='a b c'", by decide⟩

theorem extractAndSetEnv_documented : extractAndSetEnv (some documentedEnv) (fun _ => none) =
    .ok (true, setPairs (fun _ => none)
      [(literal "VAR1", literal "1"), (literal "VAR2", literal "a b c")]) := by
  rcases extractAndSetEnv_reading documentedEnv (by decide) fun _ => none with
    ⟨aborts, -⟩ | ⟨-, result⟩
  · exact absurd aborts (by decide)
  · have first : PairFirst (unblanked documentedEnv.bytes) (literal "VAR1", literal "1")
        (literal "VAR2='a b c'") := firstPair_iff.mp (by decide)
    refine result _ [] (.pair first (.pair (firstPair_iff.mp (by decide)) (.stop ?_)))
    rintro ⟨pair, rest, first⟩
    exact absurd (firstPair_of_pairFirst first) nofun

/-- A pair, and a name without a value behind it. -/
def pairAndName : CString := ⟨literal "AB=1 CD", by decide⟩

/-- A string of one letter, repeated. -/
def repeated (n : ℕ) : CString :=
  ⟨List.replicate n (ord 'A'), fun member => absurd (List.eq_of_mem_replicate member) (by decide)⟩

/-- Of a string whose size wraps to zero nothing is copied. -/
theorem extractAndSetEnv_wrapped {n : ℕ} (wraps : u32 (n + 1) = 0) (env : Environment) :
    extractAndSetEnv (some (repeated n)) env = .error .outside := by
  have copied : ckStrdup (repeated n) = .ok [] := by
    rw [ckStrdup, show (repeated n).bytes.length = n from List.length_replicate, allocAborts, wraps]
    rfl
  rw [extractAndSetEnv, copied]
  rfl

/-- A call that fails changes the environment, and one reads outside its copy. -/
theorem extractAndSetEnv_not_atomic :
    (∃ env, extractAndSetEnv (some pairAndName) (fun _ => none) = .ok (false, env) ∧
      env ≠ fun _ => none) ∧
    extractAndSetEnv (some (repeated (2 ^ 32 - 1))) (fun _ => none) = .error .outside := by
  refine ⟨⟨_, rfl, fun same => ?_⟩, extractAndSetEnv_wrapped (by decide) _⟩
  exact absurd (congrFun same (literal "AB")) (by decide)

end GreenFuzz.Common
