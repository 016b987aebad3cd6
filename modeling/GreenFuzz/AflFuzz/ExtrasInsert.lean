import GreenFuzz.AflFuzz.ExtrasOver

/-!
# Inserting dictionary tokens

The stages `user extras (insert)` and `auto extras (insert)` of `fuzz_one_original`
build each case in a scratch buffer: the token and the tail are copied for every token,
the head byte by byte, after the tokens of an offset.

An offset that the effector map does not mark is passed over before its head byte is
copied, so that later cases keep there what the insertion before it has left, or what
the scratch buffer held. After the last offset the byte behind the input is copied.
**The cases are right, and nothing else is read, exactly if every byte that is left so
is the byte of the input and the last offset is not completed**
(`extras_insert_iff`).
-/

set_option autoImplicit false

namespace GreenFuzz.AflFuzz

open Library

/-! ## The stages -/

def MAX_FILE : ℕ := 1048576

/-- `memcpy` to a buffer. -/
def memcpyTo (buffer : Buffer) (position : ℕ) (data : List Byte) : Buffer := fun p =>
  if position ≤ p then (data[p - position]?).getD (buffer p) else buffer p

/-- A case that is run: its offset, its token and its bytes. -/
structure InsertedCase where
  i : ℕ
  token : Token
  bytes : List Byte
  deriving DecidableEq, Repr

/-- The scratch buffer of a stage, the cases that were run, the last first, and the positions that
were read in `out_buf`. -/
structure InsertState where
  exTmp : Buffer
  cases : List InsertedCase
  reads : List ℕ

/-- A stage: its tokens, the scratch buffer as `afl_realloc` returns it, and the byte behind the
input in `out_buf`, which is `in_buf` here. -/
structure InsertStage where
  D : DictStages
  tokens : List Token
  exTmp : Buffer
  behind : Byte

namespace InsertStage

variable (T : InsertStage)

/-- `len`. -/
abbrev len : ℕ := T.D.inBuf.length

/-- An offset that the effector map marks. -/
def marked (i : ℕ) : Bool := T.D.skipEffMap (i % T.len)

/-- The tokens that do not make a case too long. -/
def insertable : List Token := T.tokens.filter fun token => T.len + token.length ≤ MAX_FILE

/-- The case of a token at an offset. -/
def insert (i : ℕ) (token : Token) (s : InsertState) : InsertState :=
  let exTmp := memcpyTo s.exTmp i token
  let exTmp := memcpyTo exTmp (i + token.length) (slice T.D.inBuf i (T.len - i))
  { exTmp := exTmp
    cases := ⟨i, token, (List.range (T.len + token.length)).map exTmp⟩ :: s.cases
    reads := List.range' i (T.len - i) ++ s.reads }

/-- The loop over the tokens at an offset, with the number of the token: what it leaves, and
whether the entry is abandoned. -/
def insertTokens (i : ℕ) : ℕ → List Token → InsertState → InsertState × Bool
  | _, [], s => (s, false)
  | j, token :: tokens, s =>
      if MAX_FILE < T.len + token.length then insertTokens i (j + 1) tokens s
      else if T.D.commonFuzzStuff i j then (T.insert i token s, true)
      else insertTokens i (j + 1) tokens (T.insert i token s)

/-- Copying the head byte of an offset. -/
def copyHead (i : ℕ) (s : InsertState) : InsertState :=
  { s with
    exTmp := Function.update s.exTmp i ((T.D.inBuf[i]?).getD T.behind)
    reads := i :: s.reads }

/-- One offset. -/
def insertOffset (i : ℕ) (s : InsertState) : InsertState × StageEnd :=
  if !T.marked i then (s, .completed)
  else if T.D.isDetTimeout i then (s, .timedOut)
  else
    match T.insertTokens i 0 T.tokens s with
    | (s, true) => (s, .abandoned)
    | (s, false) => (T.copyHead i s, .completed)

/-- The loop over the offsets. -/
def insertOffsets : List ℕ → InsertState → InsertState × StageEnd
  | [], s => (s, .completed)
  | i :: offsets, s =>
      match T.insertOffset i s with
      | (s, .completed) => insertOffsets offsets s
      | (s, ended) => (s, ended)

/-- The whole stage. -/
def run : InsertState × StageEnd :=
  T.insertOffsets (List.range (T.len + 1)) ⟨T.exTmp, [], []⟩

end InsertStage

/-- `user extras (insert)`. -/
def userExtrasInsert (D : DictStages) (exTmp : Buffer) (behind : Byte) : InsertState × StageEnd :=
  InsertStage.run ⟨D, D.extras, exTmp, behind⟩

/-- `auto extras (insert)`. -/
def autoExtrasInsert (D : DictStages) (exTmp : Buffer) (behind : Byte) : InsertState × StageEnd :=
  InsertStage.run ⟨D, D.aExtras, exTmp, behind⟩

/-! ## What is claimed -/

namespace InsertStage

variable (T : InsertStage)

/-- Each case is the input with the token inserted, and only the input is read in `out_buf`. -/
def Right (s : InsertState) : Prop :=
  (∀ c ∈ s.cases, c.bytes = T.D.inBuf.take c.i ++ c.token ++ T.D.inBuf.drop c.i) ∧
    ∀ p ∈ s.reads, p < T.len

/-- The last marked offset before an offset. -/
def lastMarked : ℕ → Option ℕ
  | 0 => none
  | i + 1 => if T.marked i then some i else lastMarked i

/-- The byte that is left in the scratch buffer at a position from `i` on, when the offset `i`
comes: that of the last token, inserted at the last marked offset, or the old one. -/
def leftBy (i p : ℕ) : Byte :=
  match T.lastMarked i, T.insertable.getLast? with
  | some q, some token => ((token ++ T.D.inBuf.drop q)[p - q]?).getD 0
  | _, _ => T.exTmp p

/-- The stage goes on after an offset. -/
def Passes (i : ℕ) : Prop :=
  T.marked i → T.D.isDetTimeout i = false ∧
    ∀ j token, T.tokens[j]? = some token → T.len + token.length ≤ MAX_FILE →
      T.D.commonFuzzStuff i j = false

/-- An offset the stage comes to, that is marked and in time. -/
def Reached (i : ℕ) : Prop :=
  T.marked i ∧ T.D.isDetTimeout i = false ∧ ∀ k < i, T.Passes k

/-- At an offset the stage comes to: if a token can be inserted, each unmarked offset before it
was left the byte of the input, and the last offset is not completed. -/
def SoundAt (i : ℕ) : Prop :=
  (T.insertable ≠ [] → ∀ p < i, T.marked p = false → some (T.leftBy p p) = T.D.inBuf[p]?) ∧
    (i = T.len → ¬ T.Passes i)

/-- The stage does what it should. -/
def Sound : Prop := ∀ i ≤ T.len, T.Reached i → T.SoundAt i

end InsertStage

/-! ## The scratch buffer -/

section Scratch

variable {buffer : Buffer} {position p n : ℕ} {data : List Byte}

theorem memcpyTo_below (before : p < position) : memcpyTo buffer position data p = buffer p :=
  if_neg (Nat.not_le.mpr before)

theorem memcpyTo_add (k : ℕ) :
    memcpyTo buffer position data (position + k) = (data[k]?).getD (buffer (position + k)) := by
  rw [memcpyTo, if_pos (Nat.le_add_right _ _), Nat.add_sub_cancel_left]

/-- What is copied is read behind what was there. -/
theorem range_map_memcpyTo (buffer : Buffer) (position : ℕ) (data : List Byte) :
    (List.range (position + data.length)).map (memcpyTo buffer position data) =
      (List.range position).map buffer ++ data := by
  rw [List.range_add, List.map_append, List.map_map]
  congr 1
  · refine List.map_congr_left fun p member => ?_
    exact memcpyTo_below (List.mem_range.mp member)
  · refine List.ext_getElem (by rw [List.length_map, List.length_range]) fun k inside there => ?_
    rw [List.getElem_map, List.getElem_range, Function.comp_apply, memcpyTo_add,
      List.getElem?_eq_getElem there, Option.getD_some]

/-- The first bytes of a buffer are those of a list. -/
theorem range_map_eq_take_iff (fits : n ≤ data.length) :
    (List.range n).map buffer = data.take n ↔ ∀ p < n, some (buffer p) = data[p]? := by
  constructor
  · intro same p before
    have entry := congrArg (fun list : List Byte => list[p]?) same
    rwa [List.getElem?_map, List.getElem?_range before, List.getElem?_take_of_lt before] at entry
  · intro same
    refine List.ext_getElem? fun p => ?_
    by_cases before : p < n
    · rw [List.getElem?_map, List.getElem?_range before, List.getElem?_take_of_lt before]
      exact same p before
    · rw [List.getElem?_eq_none, List.getElem?_eq_none]
      · rw [List.length_take]
        omega
      · rw [List.length_map, List.length_range]
        omega

end Scratch

/-! ## One offset -/

namespace InsertStage

variable {T : InsertStage} {i j p : ℕ} {token : Token} {tokens : List Token} {s : InsertState}

theorem insert_bytes (token : Token) (s : InsertState) (inside : i ≤ T.len) :
    (List.range (T.len + token.length)).map (T.insert i token s).exTmp =
      (List.range i).map s.exTmp ++ token ++ T.D.inBuf.drop i := by
  have tail : slice T.D.inBuf i (T.len - i) = T.D.inBuf.drop i := by
    rw [slice, List.take_of_length_le]
    rw [List.length_drop]
  have length : i + token.length + (T.D.inBuf.drop i).length = T.len + token.length := by
    have whole : T.D.inBuf.length = T.len := rfl
    rw [List.length_drop]
    omega
  rw [insert, tail, ← length]
  simp only [range_map_memcpyTo]

theorem insert_below (before : p < i) : (T.insert i token s).exTmp p = s.exTmp p := by
  simp only [insert]
  rw [memcpyTo_below (by omega), memcpyTo_below before]

/-- The bytes of the input and the token from the offset on. -/
theorem insert_from (start : i ≤ p) (inside : p < T.len) :
    (T.insert i token s).exTmp p = ((token ++ T.D.inBuf.drop i)[p - i]?).getD 0 := by
  have bytes := congrArg (fun list : List Byte => (list[p]?).getD 0)
    (insert_bytes token s (Nat.le_trans start inside.le))
  rw [List.getElem?_map, List.getElem?_range (by omega), Option.map_some, Option.getD_some,
    List.append_assoc, List.getElem?_append_right (by rwa [List.length_map, List.length_range]),
    List.length_map, List.length_range] at bytes
  exact bytes

theorem insert_right (inside : i ≤ T.len) :
    T.Right (T.insert i token s) ↔
      T.Right s ∧ (List.range i).map s.exTmp = T.D.inBuf.take i := by
  have reads : (∀ p ∈ (T.insert i token s).reads, p < T.len) ↔ ∀ p ∈ s.reads, p < T.len := by
    simp only [insert, List.mem_append, List.mem_range'_1]
    constructor
    · exact fun below p member => below p (.inr member)
    · rintro below p (member | member)
      · omega
      · exact below p member
  have head : (T.insert i token s).cases =
      ⟨i, token, (List.range i).map s.exTmp ++ token ++ T.D.inBuf.drop i⟩ :: s.cases := by
    rw [← insert_bytes token s inside]
    rfl
  rw [Right, reads, head, List.forall_mem_cons, List.append_assoc, List.append_assoc,
    List.append_left_inj, Right]
  exact ⟨fun right => ⟨⟨right.1.2, right.2⟩, right.1.1⟩,
    fun right => ⟨⟨right.2, right.1.1⟩, right.1.2⟩⟩

theorem copyHead_right : T.Right (T.copyHead i s) ↔ T.Right s ∧ i < T.len := by
  simp only [Right, copyHead, List.forall_mem_cons]
  exact ⟨fun right => ⟨⟨right.1, right.2.2⟩, right.2.1⟩,
    fun right => ⟨right.1.1, right.2, right.1.2⟩⟩

/-- What the loop over the tokens leaves, by induction on them. -/
theorem insertTokens_spec (j : ℕ) (tokens : List Token) (s : InsertState) (inside : i ≤ T.len) :
    let result := T.insertTokens i j tokens s
    let fitting := tokens.filter fun token => T.len + token.length ≤ MAX_FILE
    (∀ p < i, result.1.exTmp p = s.exTmp p) ∧
    (result.2 = false → ∀ p, i ≤ p → p < T.len → result.1.exTmp p =
      (fitting.getLast?.map fun token => ((token ++ T.D.inBuf.drop i)[p - i]?).getD 0).getD
        (s.exTmp p)) ∧
    (T.Right result.1 ↔ T.Right s ∧
      (fitting ≠ [] → (List.range i).map s.exTmp = T.D.inBuf.take i)) ∧
    (result.2 = false ↔ ∀ k token, tokens[k]? = some token → T.len + token.length ≤ MAX_FILE →
      T.D.commonFuzzStuff i (j + k) = false) := by
  induction tokens generalizing j s with
  | nil =>
      refine ⟨fun p _ => rfl, fun _ p _ _ => rfl, ?_, ?_⟩
      · exact ⟨fun right => ⟨right, fun some_token => absurd rfl some_token⟩, fun right => right.1⟩
      · exact iff_of_true rfl fun k token here => by cases here
  | cons token tokens ih =>
      have shift (holds : ℕ → Token → Prop) :
          (∀ k other, (token :: tokens)[k]? = some other → holds k other) ↔
            holds 0 token ∧ ∀ k other, tokens[k]? = some other → holds (k + 1) other := by
        constructor
        · exact fun all => ⟨all 0 token rfl, fun k other here => all (k + 1) other here⟩
        · rintro ⟨first, rest⟩ k other here
          cases k with
          | zero => exact Option.some.inj here ▸ first
          | succ k => exact rest k other here
      by_cases fits : T.len + token.length ≤ MAX_FILE
      · have fitting : (token :: tokens).filter (fun token => T.len + token.length ≤ MAX_FILE) =
            token :: tokens.filter fun token => T.len + token.length ≤ MAX_FILE :=
          List.filter_cons_of_pos (decide_eq_true fits)
        have head_kept : (List.range i).map (T.insert i token s).exTmp =
            (List.range i).map s.exTmp :=
          List.map_congr_left fun p member => insert_below (List.mem_range.mp member)
        simp only [insertTokens, if_neg (Nat.not_lt.mpr fits), fitting]
        by_cases abandons : T.D.commonFuzzStuff i j = true
        · rw [if_pos abandons]
          refine ⟨fun p before => insert_below before,
            fun goesOn => Bool.noConfusion goesOn, ?_, ?_⟩
          · simp only [insert_right inside, ne_eq, reduceCtorEq, not_false_eq_true, forall_const]
          · rw [shift]
            refine iff_of_false Bool.noConfusion fun none_abandons => ?_
            exact absurd (none_abandons.1 fits) (by rw [Nat.add_zero, abandons]; decide)
        · rw [if_neg abandons]
          obtain ⟨below, from_offset, right, ended⟩ := ih (j + 1) (T.insert i token s)
          refine ⟨fun p before => (below p before).trans (insert_below before), ?_, ?_, ?_⟩
          · intro goesOn p start before
            rw [from_offset goesOn p start before, List.getLast?_cons]
            cases (tokens.filter fun token => T.len + token.length ≤ MAX_FILE).getLast? with
            | none => exact insert_from start before
            | some last => rfl
          · rw [right, head_kept, insert_right inside]
            simp only [ne_eq, reduceCtorEq, not_false_eq_true, forall_const]
            exact ⟨fun held => held.1, fun held => ⟨held, fun _ => held.2⟩⟩
          · rw [ended, shift]
            simp only [Nat.add_zero, Bool.not_eq_true _ ▸ abandons, implies_true, true_and,
              Nat.add_assoc, Nat.add_comm 1]
      · have fitting : (token :: tokens).filter (fun token => T.len + token.length ≤ MAX_FILE) =
            tokens.filter fun token => T.len + token.length ≤ MAX_FILE :=
          List.filter_cons_of_neg (by simpa only [decide_eq_true_eq] using fits)
        obtain ⟨below, from_offset, right, ended⟩ := ih (j + 1) s
        simp only [insertTokens, if_pos (Nat.not_le.mp fits), fitting]
        refine ⟨below, from_offset, right, ?_⟩
        rw [ended, shift]
        simp only [fits, false_implies, true_and, Nat.add_assoc, Nat.add_comm 1]

/-! ## The whole stage -/

/-- The scratch buffer when an offset comes: the input at the marked offsets before it, elsewhere
what was left. -/
def Holds (T : InsertStage) (i : ℕ) (s : InsertState) : Prop :=
  ∀ p < T.len, s.exTmp p =
    if p < i ∧ T.marked p = true then (T.D.inBuf[p]?).getD 0 else T.leftBy (min p i) p

/-- The head is right exactly if every byte that was left is that of the input. -/
theorem Holds.head_iff (holds : T.Holds i s) (inside : i ≤ T.len) :
    (List.range i).map s.exTmp = T.D.inBuf.take i ↔
      ∀ p < i, T.marked p = false → some (T.leftBy p p) = T.D.inBuf[p]? := by
  rw [range_map_eq_take_iff inside]
  refine forall_congr' fun p => forall_congr' fun before => ?_
  have there : p < T.D.inBuf.length := Nat.lt_of_lt_of_le before inside
  rw [holds p there, Nat.min_eq_left before.le]
  cases T.marked p with
  | true =>
      simp only [before, and_self, if_true, List.getElem?_eq_getElem there, Option.getD_some,
        reduceCtorEq, false_implies]
  | false => simp only [Bool.false_eq_true, and_false, if_false, true_implies]

/-- An unmarked offset changes nothing. -/
theorem Holds.unmarked (holds : T.Holds i s) (unmarked : T.marked i = false) :
    T.Holds (i + 1) s := by
  intro p inside
  have skip : T.leftBy (i + 1) p = T.leftBy i p := by
    simp only [leftBy, lastMarked, unmarked, Bool.false_eq_true, if_false]
  rw [holds p inside]
  rcases Nat.lt_trichotomy p i with before | rfl | behind
  · rw [Nat.min_eq_left before.le, Nat.min_eq_left (by omega)]
    simp only [before, Nat.lt_succ_of_lt before]
  · simp only [Nat.lt_irrefl, unmarked, Bool.false_eq_true, and_false, if_false, Nat.min_self,
      Nat.min_eq_left (Nat.le_succ p)]
  · rw [Nat.min_eq_right behind.le, Nat.min_eq_right (by omega), skip]
    simp only [Nat.not_lt.mpr behind.le, Nat.not_lt.mpr (Nat.succ_le_of_lt behind), false_and,
      if_false]

/-- A marked offset leaves its head byte, and behind it the last token with its tail. -/
theorem Holds.marked {s' : InsertState} (holds : T.Holds i s) (marked : T.marked i = true)
    (inside : i < T.len) (below : ∀ p < i, s'.exTmp p = s.exTmp p)
    (from_offset : ∀ p, i ≤ p → p < T.len → s'.exTmp p =
      (T.insertable.getLast?.map fun token => ((token ++ T.D.inBuf.drop i)[p - i]?).getD 0).getD
        (s.exTmp p)) :
    T.Holds (i + 1) (T.copyHead i s') := by
  intro p here
  rcases Nat.lt_trichotomy p i with before | rfl | behind
  · simp only [copyHead, Function.update_of_ne (Nat.ne_of_lt before)]
    rw [below p before, holds p here, Nat.min_eq_left before.le, Nat.min_eq_left (by omega)]
    simp only [before, Nat.lt_succ_of_lt before]
  · have there : p < T.D.inBuf.length := here
    simp only [copyHead, Function.update_self, Nat.lt_succ_self, marked, and_self, if_true,
      List.getElem?_eq_getElem there, Option.getD_some]
  · simp only [copyHead, Function.update_of_ne (Nat.ne_of_gt behind)]
    rw [from_offset p behind.le here, Nat.min_eq_right (by omega), leftBy, lastMarked,
      if_pos marked]
    simp only [Nat.not_lt.mpr (Nat.succ_le_of_lt behind), false_and, if_false]
    cases last : T.insertable.getLast? with
    | none =>
        rw [Option.map_none, Option.getD_none, holds p here, Nat.min_eq_right behind.le]
        simp only [Nat.not_lt.mpr behind.le, false_and, if_false, leftBy, last]
        cases T.lastMarked i <;> rfl
    | some token => rfl

/-- The step lemma: what an offset adds to the condition. -/
theorem insertOffset_iff (holds : T.Holds i s) (inside : i ≤ T.len)
    (before : ∀ k < i, T.Passes k) :
    ((T.insertOffset i s).2 = .completed ↔ T.Passes i) ∧
    (T.Passes i → i < T.len → T.Holds (i + 1) (T.insertOffset i s).1) ∧
    (T.Right (T.insertOffset i s).1 ↔ T.Right s ∧ (T.Reached i → T.SoundAt i)) := by
  rw [insertOffset]
  cases marked : T.marked i with
  | false =>
      have passes : T.Passes i := fun here => absurd (marked.symm.trans here) Bool.false_ne_true
      have missed : ¬ T.Reached i := fun here =>
        absurd (marked.symm.trans here.1) Bool.false_ne_true
      simp only [Bool.not_false, if_true, passes, missed, false_implies, and_true, true_and,
        forall_const]
      exact fun _ => holds.unmarked marked
  | true =>
      simp only [Bool.not_true, Bool.false_eq_true, if_false]
      cases late : T.D.isDetTimeout i with
      | true =>
          have stops : ¬ T.Passes i := fun passes =>
            absurd (late.symm.trans (passes marked).1) Bool.true_eq_false_eq_False
          have missed : ¬ T.Reached i := fun here =>
            absurd (late.symm.trans here.2.1) Bool.true_eq_false_eq_False
          simp only [if_true, stops, missed, false_implies, and_true, reduceCtorEq]
      | false =>
          simp only [Bool.false_eq_true, if_false]
          have reached : T.Reached i := ⟨marked, late, before⟩
          obtain ⟨below, from_offset, right, ended⟩ :=
            insertTokens_spec 0 T.tokens s inside
          simp only [Nat.zero_add] at ended
          have passes_iff : T.Passes i ↔ (T.insertTokens i 0 T.tokens s).2 = false := by
            rw [ended]
            exact ⟨fun passes => (passes marked).2, fun goesOn _ => ⟨late, goesOn⟩⟩
          have heads := holds.head_iff inside
          rw [← insertable] at right from_offset
          generalize T.insertTokens i 0 T.tokens s = result at *
          obtain ⟨s', abandons⟩ := result
          simp only at below from_offset right passes_iff
          cases abandons with
          | true =>
              have stops : ¬ T.Passes i := fun passes => Bool.noConfusion (passes_iff.mp passes)
              refine ⟨iff_of_false nofun stops, fun passes => absurd passes stops, ?_⟩
              simp only [reached, true_implies, SoundAt, stops, not_false_eq_true, implies_true,
                and_true, right, heads]
          | false =>
              have passes : T.Passes i := passes_iff.mpr rfl
              refine ⟨iff_of_true rfl passes,
                fun _ within => holds.marked marked within below (from_offset rfl), ?_⟩
              rw [copyHead_right, right, heads, and_assoc]
              simp only [reached, true_implies, SoundAt, passes, not_true_eq_false]
              have last : i < T.len ↔ (i = T.len → False) := by
                have := inside
                exact ⟨fun within same => absurd same (Nat.ne_of_lt within),
                  fun other => Nat.lt_of_le_of_ne inside other⟩
              rw [last]

/-- The run lemma, by induction on the offsets that are left. -/
theorem insertOffsets_iff {n : ℕ} (holds : T.Holds i s) (rest : i + n = T.len + 1)
    (before : ∀ k < i, T.Passes k) :
    T.Right (T.insertOffsets (List.range' i n) s).1 ↔
      T.Right s ∧ ∀ k, i ≤ k → k ≤ T.len → T.Reached k → T.SoundAt k := by
  induction n generalizing i s with
  | zero =>
      refine ⟨fun right => ⟨right, fun k start inside => ?_⟩, fun right => right.1⟩
      omega
  | succ n ih =>
      obtain ⟨completed, holds', right⟩ := insertOffset_iff holds (by omega) before
      rw [List.range'_succ, insertOffsets]
      have from_here (rest : ∀ k, i + 1 ≤ k → k ≤ T.len → T.Reached k → T.SoundAt k) :
          (∀ k, i ≤ k → k ≤ T.len → T.Reached k → T.SoundAt k) ↔ (T.Reached i → T.SoundAt i) := by
        refine ⟨fun all => all i (Nat.le_refl i) (by omega), fun here k start inside => ?_⟩
        rcases Nat.eq_or_lt_of_le start with rfl | later
        · exact here
        · exact rest k later inside
      have stopped (stops : ¬ T.Passes i) :
          ∀ k, i + 1 ≤ k → k ≤ T.len → T.Reached k → T.SoundAt k :=
        fun k later _ reached => absurd (reached.2.2 i later) stops
      generalize T.insertOffset i s = result at completed holds' right
      obtain ⟨s', ended⟩ := result
      cases ended with
      | completed =>
          have passes : T.Passes i := completed.mp rfl
          simp only at holds' right
          by_cases within : i < T.len
          · have before' : ∀ k < i + 1, T.Passes k := by
              intro k earlier
              rcases Nat.eq_or_lt_of_le (Nat.le_of_lt_succ earlier) with rfl | earlier
              · exact passes
              · exact before k earlier
            rw [ih (holds' passes within) (by omega) before', right, and_assoc]
            refine and_congr_right fun _ => ⟨?_, fun all => ⟨all i (Nat.le_refl i) within.le,
              fun k later => all k (Nat.le_of_succ_le later)⟩⟩
            rintro ⟨here, later⟩
            exact (from_here later).mpr here
          · obtain rfl : n = 0 := by omega
            have none_later : ∀ k, i + 1 ≤ k → k ≤ T.len → T.Reached k → T.SoundAt k :=
              fun k later inside => by omega
            rw [from_here none_later]
            exact right
      | timedOut =>
          rw [from_here (stopped fun passes => StageEnd.noConfusion (completed.mpr passes))]
          exact right
      | abandoned =>
          rw [from_here (stopped fun passes => StageEnd.noConfusion (completed.mpr passes))]
          exact right

/-- A stage does what it should exactly under the condition. -/
theorem run_right_iff (T : InsertStage) : T.Right T.run.1 ↔ T.Sound := by
  have start : T.Holds 0 ⟨T.exTmp, [], []⟩ := by
    intro p _
    simp only [Nat.not_lt_zero, false_and, if_false, Nat.min_zero, leftBy, lastMarked]
  rw [run, List.range_eq_range', insertOffsets_iff start (Nat.zero_add _)
    fun k earlier => absurd earlier (Nat.not_lt_zero k)]
  have right : T.Right ⟨T.exTmp, [], []⟩ :=
    ⟨fun c member => absurd member List.not_mem_nil, fun p member => absurd member List.not_mem_nil⟩
  exact ⟨fun held k inside => held.2 k (Nat.zero_le k) inside,
    fun sound => ⟨right, fun k _ inside => sound k inside⟩⟩

end InsertStage

/-- **A dictionary insertion stage runs right cases and reads only the input exactly if at every
offset it comes to, with a token to insert, each unmarked offset before was left the byte of the
input, and it does not complete the last offset.** -/
theorem extras_insert_iff (D : DictStages) (exTmp : Buffer) (behind : Byte) :
    (InsertStage.Right ⟨D, D.extras, exTmp, behind⟩ (userExtrasInsert D exTmp behind).1 ↔
      InsertStage.Sound ⟨D, D.extras, exTmp, behind⟩) ∧
    (InsertStage.Right ⟨D, D.aExtras, exTmp, behind⟩ (autoExtrasInsert D exTmp behind).1 ↔
      InsertStage.Sound ⟨D, D.aExtras, exTmp, behind⟩) :=
  ⟨InsertStage.run_right_iff _, InsertStage.run_right_iff _⟩

/-- Two bytes of which only the second is marked: the head of the case is what the scratch buffer
held. -/
def secondMarked : DictStages :=
  { inBuf := [1, 2], extras := [[9]], aExtras := [], skipEffMap := fun i => i = 1
    randBelow := fun _ _ => 0, isDetTimeout := fun _ => false
    commonFuzzStuff := fun _ _ => false }

theorem head_never_copied :
    ¬ InsertStage.Right ⟨secondMarked, [[9]], fun _ => 0, 0⟩
      (userExtrasInsert secondMarked (fun _ => 0) 0).1 := by
  rintro ⟨right, -⟩
  have same := right ⟨1, [9], [0, 9, 2]⟩ (by decide)
  exact absurd same (by decide)

end GreenFuzz.AflFuzz
