import GreenFuzz.Instrumentation.CompareTransformMeaning

/-!
# The value of a replaced call against that of the function

`Comparison` says what a comparing function of the C library looks at, and `Describes` what it may
return: the sign is that of the first difference. The blocks for a call find the first difference
in the known string, but for what the string does not have. They agree with the function on zero
for every other string exactly when the known string covers the comparison, and on the sign where
the difference fits in a signed byte (`cascade_describes`).

The pass puts no NUL behind a known string that is compared up to a size. `strncmp` with a size
beyond the string, and `memcmp` with the NUL in its size, are not covered then.
-/

set_option autoImplicit false

namespace GreenFuzz.Instrumentation

open Library

/-! ## The functions -/

/-- What a comparing function looks at: how it reads a byte, whether it ends behind a NUL, and how
many bytes it compares at most. -/
structure Comparison where
  fold : Byte → Byte
  terminated : Bool
  limit : Option ℕ
  fold_eq_zero : ∀ c, fold c = 0 ↔ c = 0

namespace Comparison

variable (comparison : Comparison) (first second : ℕ → Byte)

/-- The function finds its first difference at a byte. -/
structure DiffersAt (i : ℕ) : Prop where
  within : ∀ n ∈ comparison.limit, i < n
  differ : comparison.fold (first i) ≠ comparison.fold (second i)
  same : ∀ j < i, comparison.fold (first j) = comparison.fold (second j)
  goesOn : comparison.terminated = true → ∀ j < i, first j ≠ 0

/-- The difference of two bytes, which count as unsigned. -/
def distance (i : ℕ) : ℤ :=
  ((comparison.fold (first i)).toNat : ℤ) - ((comparison.fold (second i)).toNat : ℤ)

/-- A result that the function may have. -/
def Describes (result : ℤ) : Prop :=
  (∀ i, comparison.DiffersAt first second i →
    result.sign = (comparison.distance first second i).sign) ∧
  ((∀ i, ¬ comparison.DiffersAt first second i) → result = 0)

/-- A known string with all bytes that the function can look at. -/
def Covers (text : List Byte) : Prop :=
  (comparison.terminated = true ∧ 0 ∈ text) ∨ ∃ n ∈ comparison.limit, n ≤ text.length

variable {comparison first second}

/-- A covered comparison ends within the known string, whichever of the two it is. -/
theorem Covers.lt_length {text : List Byte} (covers : comparison.Covers text) {i : ℕ}
    (differs : comparison.DiffersAt first second i)
    (known : (∀ j c, text[j]? = some c → first j = c) ∨
      (∀ j c, text[j]? = some c → second j = c)) : i < text.length := by
  rcases covers with ⟨terminated, member⟩ | ⟨n, isLimit, short⟩
  · obtain ⟨nul, isNul⟩ := List.getElem?_of_mem member
    obtain ⟨inside, _⟩ := List.getElem?_eq_some_iff.mp isNul
    by_contra beyond
    have before : nul < i := by omega
    refine differs.goesOn terminated nul before ?_
    rcases known with first_known | second_known
    · exact first_known nul 0 isNul
    · have same := differs.same nul before
      rw [second_known nul 0 isNul, (comparison.fold_eq_zero 0).mpr rfl] at same
      exact (comparison.fold_eq_zero _).mp same
  · exact lt_of_lt_of_le (differs.within n isLimit) short

/-- There is a byte that is read in another way. -/
theorem exists_fold_ne (comparison : Comparison) (c : Byte) :
    ∃ other, comparison.fold other ≠ comparison.fold c := by
  by_cases zero : c = 0
  · refine ⟨1, fun same => ?_⟩
    rw [zero, (comparison.fold_eq_zero 0).mpr rfl] at same
    exact absurd ((comparison.fold_eq_zero 1).mp same) (by decide)
  · refine ⟨0, fun same => zero ?_⟩
    rw [(comparison.fold_eq_zero 0).mpr rfl] at same
    exact (comparison.fold_eq_zero c).mp same.symm

end Comparison

theorem tolower_eq_zero (c : Byte) : tolower c = 0 ↔ c = 0 := by
  rw [tolower]
  constructor
  · intro lower
    split at lower
    · bv_omega
    · exact lower
  · rintro rfl
    rfl

variable {M : Type}

/-- The function that a call calls. Its size is read with the width that the prototype has. The sign
is that of `memcmp` for `bcmp` and `CRYPTO_memcmp` too, for which only zero is specified. -/
def Call.comparison (call : Call M) (size : ℕ) : Comparison where
  fold := if call.isStrcasecmp || call.isStrncasecmp then tolower else id
  terminated := !call.isMemcmp
  limit :=
    if call.isMemcmp || call.isStrncmp || call.isStrncasecmp
    then some (size % 2 ^ call.type.sizeWidth.getD 0) else none
  fold_eq_zero c := by
    split
    · exact tolower_eq_zero c
    · exact Iff.rfl

/-- The names of the lists tell the functions apart. -/
theorem names_apart (name : String) :
    (name ∈ memcmpNames → name ∉ caseInsensitiveNames ∧ name ∉ strcasecmpNames ∧
      name ∉ strncasecmpNames) ∧
    (name ∈ strcasecmpNames → name ∈ caseInsensitiveNames ∧ name ∉ memcmpNames ∧
      name ∉ sizedNames ∧ name ∉ strncasecmpNames ∧ name ≠ "strncmp" ∧
      name ≠ "llvm.memcpy.p0i8.p0i8.i64") ∧
    (name ∈ strncasecmpNames → name ∈ caseInsensitiveNames ∧ name ∉ memcmpNames ∧
      name ∈ sizedNames ∧ name ≠ "llvm.memcpy.p0i8.p0i8.i64") := by
  refine ⟨?_, ?_, ?_⟩ <;> revert name <;> decide

/-- The second loop tells the functions apart as the first one does. -/
theorem Call.kinds_of_isCmp {call : Call M} (isCmp : call.isCmp = true) :
    call.isCaseInsensitive = (call.isStrcasecmp || call.isStrncasecmp) ∧
      call.comparesMemory = call.isMemcmp ∧
      call.isSizedcmp = (call.isMemcmp || call.isStrncmp || call.isStrncasecmp) := by
  have kinds : (call.callee = "strcmp" ∧ call.type.isTwoStrings = true) ∨
      (call.callee ∈ memcmpNames ∧ call.type.sizeWidth.isSome = true) ∨
      (call.callee = "strncmp" ∧ call.type.sizeWidth.isSome = true) ∨
      (call.callee ∈ strcasecmpNames ∧ call.type.isTwoStrings = true) ∨
      (call.callee ∈ strncasecmpNames ∧ call.type.sizeWidth.isSome = true) := by
    simp only [Call.isStrcmp, Call.isMemcmp, Call.isStrncmp, Call.isStrcasecmp, Call.isStrncasecmp,
      Call.isCmp, Bool.or_eq_true, Bool.and_eq_true, decide_eq_true_eq] at isCmp
    tauto
  obtain ⟨memory, insensitive, sizedInsensitive⟩ := names_apart call.callee
  simp only [Call.isCaseInsensitive, Call.comparesMemory, Call.isSizedcmp, Call.isStrcasecmp,
    Call.isStrncasecmp, Call.isMemcmp, Call.isStrncmp]
  rcases kinds with ⟨callee, type⟩ | ⟨callee, type⟩ | ⟨callee, type⟩ | ⟨callee, type⟩ |
    ⟨callee, type⟩
  · simp [callee, memcmpNames, caseInsensitiveNames, strcasecmpNames, strncasecmpNames, sizedNames]
  · simp [callee, type, memory callee]
  · simp [callee, type, memcmpNames, caseInsensitiveNames, strcasecmpNames, strncasecmpNames,
      sizedNames]
  · simp [callee, type, insensitive callee]
  · simp [callee, type, sizedInsensitive callee]

/-! ## The first difference in the blocks -/

namespace Unrolling

variable (u : Unrolling) (other : ℕ → Byte) (size : ℕ)

/-- The blocks for the bytes from one on find a difference behind `j` others. -/
structure Finds (i : ℕ) (chars : List Byte) (j : ℕ) : Prop where
  goes : ∀ k ≤ j, u.ends size (i + k) = false
  same : ∀ k < j, ∀ c, chars[k]? = some c → u.diff c (other (i + k)) = 0
  differ : ∃ c, chars[j]? = some c ∧ u.diff c (other (i + j)) ≠ 0

variable {u other size}

theorem finds_zero {i : ℕ} {c : Byte} {rest : List Byte} (goes : u.ends size i = false)
    (differ : u.diff c (other i) ≠ 0) : u.Finds other size i (c :: rest) 0 where
  goes k before := by
    rw [Nat.le_zero.mp before]
    exact goes
  same k before := absurd before (Nat.not_lt_zero k)
  differ := ⟨c, rfl, differ⟩

theorem finds_succ {i j : ℕ} {c : Byte} {rest : List Byte} :
    u.Finds other size i (c :: rest) (j + 1) ↔
      u.ends size i = false ∧ u.diff c (other i) = 0 ∧ u.Finds other size (i + 1) rest j := by
  constructor
  · intro finds
    refine ⟨finds.goes 0 (Nat.zero_le _), finds.same 0 (Nat.succ_pos _) c rfl, ?_, ?_, ?_⟩
    · intro k before
      rw [Nat.add_assoc, Nat.add_comm 1]
      exact finds.goes (k + 1) (Nat.succ_le_succ before)
    · intro k before d get
      rw [Nat.add_assoc, Nat.add_comm 1]
      exact finds.same (k + 1) (Nat.succ_lt_succ before) d get
    · rw [Nat.add_assoc, Nat.add_comm 1]
      exact finds.differ
  · rintro ⟨goes, same, finds⟩
    refine ⟨fun k before => ?_, fun k before d get => ?_, ?_⟩
    · cases k with
      | zero => exact goes
      | succ k =>
          have := finds.goes k (Nat.le_of_succ_le_succ before)
          rwa [Nat.add_assoc, Nat.add_comm 1] at this
    · cases k with
      | zero => exact Option.some.inj get ▸ same
      | succ k =>
          have := finds.same k (Nat.lt_of_succ_lt_succ before) d get
          rwa [Nat.add_assoc, Nat.add_comm 1] at this
    · have := finds.differ
      rwa [Nat.add_assoc, Nat.add_comm 1] at this

/-- The cascade is the difference that the blocks find. -/
theorem cascade_of_finds {i j : ℕ} {chars : List Byte} {c : Byte}
    (finds : u.Finds other size i chars j) (get : chars[j]? = some c) :
    u.cascade other size i chars = ((u.diff c (other (i + j))).signExtend 32).toNat := by
  induction chars generalizing i j with
  | nil => exact absurd get (by simp)
  | cons d rest ih =>
      cases j with
      | zero =>
          obtain rfl := Option.some.inj get
          obtain ⟨e, isFirst, differ⟩ := finds.differ
          obtain rfl := Option.some.inj isFirst
          have goes : u.ends size i = false := finds.goes 0 (Nat.le_refl _)
          rw [Nat.add_zero] at differ ⊢
          rw [cascade, goes, if_neg Bool.false_ne_true, if_neg differ]
      | succ j =>
          obtain ⟨goes, same, later⟩ := finds_succ.mp finds
          rw [cascade, goes, if_neg Bool.false_ne_true, if_pos same, ih later get, Nat.add_assoc,
            Nat.add_comm 1]

/-- The cascade is zero where the blocks find none. -/
theorem cascade_of_not_finds {i : ℕ} {chars : List Byte}
    (none : ∀ j, ¬ u.Finds other size i chars j) : u.cascade other size i chars = 0 := by
  induction chars generalizing i with
  | nil => rfl
  | cons c rest ih =>
      rw [cascade]
      cases goes : u.ends size i with
      | true => exact if_pos rfl
      | false =>
          rw [if_neg Bool.false_ne_true]
          by_cases same : u.diff c (other i) = 0
          · rw [if_pos same]
            exact ih fun j finds => none (j + 1) (finds_succ.mpr ⟨goes, same, finds⟩)
          · exact absurd (finds_zero goes same) (none 0)

theorem diff_eq_zero (c d : Byte) : u.diff c d = 0 ↔ u.char c = u.char d := by
  rw [diff]
  split <;> bv_omega

/-- The first string of the call, where one of them is the known one. -/
def first (known other : ℕ → Byte) : ℕ → Byte := if u.HasStr1 then known else other

def second (known other : ℕ → Byte) : ℕ → Byte := if u.HasStr1 then other else known

/-- The value in the place of the call, as an `int`. -/
def value (other : ℕ → Byte) (size : ℕ) : ℤ :=
  (BitVec.ofNat 32 (u.cascade other size 0 u.chars)).toInt

theorem char_first_eq_iff (known other : ℕ → Byte) (i : ℕ) :
    u.char (u.first known other i) = u.char (u.second known other i) ↔
      u.char (known i) = u.char (other i) := by
  rw [first, second]
  split
  · exact Iff.rfl
  · exact eq_comm

theorem known_eq_zero {known other : ℕ → Byte} {i : ℕ} (first : u.first known other i = 0)
    (second : u.second known other i = 0) : known i = 0 := by
  rw [Unrolling.first] at first
  rw [Unrolling.second] at second
  split at first
  · exact first
  · rename_i notFirst
    rwa [if_neg notFirst] at second

theorem diff_eq (known other : ℕ → Byte) (i : ℕ) :
    u.diff (known i) (other i) =
      u.char (u.first known other i) - u.char (u.second known other i) := by
  rw [diff, first, second]
  split <;> rfl

end Unrolling

/-- The sign of a difference in eight bits is that of the difference where it fits there. -/
theorem sign_sub_iff (a b : Byte) :
    (a - b).toInt.sign = ((a.toNat : ℤ) - (b.toNat : ℤ)).sign ↔
      -128 ≤ (a.toNat : ℤ) - (b.toNat : ℤ) ∧ (a.toNat : ℤ) - (b.toNat : ℤ) < 128 := by
  have small_a := a.isLt
  have small_b := b.isLt
  have wraps : (a - b).toInt = if 2 * ((256 - b.toNat + a.toNat) % 256) < 256
      then (((256 - b.toNat + a.toNat) % 256 : ℕ) : ℤ)
      else (((256 - b.toNat + a.toNat) % 256 : ℕ) : ℤ) - 256 := by
    rw [BitVec.toInt_eq_toNat_cond, BitVec.toNat_sub]
    rfl
  by_cases fits : -128 ≤ (a.toNat : ℤ) - (b.toNat : ℤ) ∧ (a.toNat : ℤ) - (b.toNat : ℤ) < 128
  · have same : (a - b).toInt = (a.toNat : ℤ) - (b.toNat : ℤ) := by
      rw [wraps]
      split <;> omega
    rw [same]
    exact iff_of_true rfl fits
  · refine iff_of_false (fun same => ?_) fits
    rcases lt_or_ge (a.toNat : ℤ) (b.toNat : ℤ) with less | notLess
    · have positive : 0 < (a - b).toInt := by
        rw [wraps]
        split <;> omega
      rw [Int.sign_eq_one_of_pos positive, Int.sign_eq_neg_one_of_neg (by omega)] at same
      exact absurd same (by decide)
    · have negative : (a - b).toInt < 0 := by
        rw [wraps]
        split <;> omega
      rw [Int.sign_eq_neg_one_of_neg negative, Int.sign_eq_one_of_pos (by omega)] at same
      exact absurd same (by decide)

/-! ## One call -/

section OneCall

variable {C : Constants} {valueMap : ValueMap} {call : Call M} {u : Unrolling}

/-- The known string of a call, as far as it is compared. -/
def Call.text (C : Constants) (valueMap : ValueMap) (call : Call M) : List Byte :=
  constStr call (knownString C valueMap call).2

theorem unrolling_reads (isUnrolling : unrolling C valueMap call = some u) :
    u.isCaseInsensitive = call.isCaseInsensitive ∧
      u.sizedValue = if call.isSizedcmp && call.constSize.isNone
        then some (call.arg 2, call.type.sizeWidth.getD 0) else none := by
  rw [unrolling] at isUnrolling
  split at isUnrolling
  · exact absurd isUnrolling (by simp)
  · obtain rfl := Option.some.inj isUnrolling
    exact ⟨rfl, rfl⟩

/-- A string that ends at its first NUL has no other one. -/
theorem nul_last {text : List Byte} (isString : call.comparesMemory = false) {j : ℕ}
    (isNul : (constStr call text)[j]? = some 0) : j + 1 = (constStr call text).length := by
  rw [constStr, isString] at isNul ⊢
  simp only [Bool.not_false, Bool.true_and, List.contains_iff_mem] at isNul ⊢
  generalize withNul call text = whole at *
  by_cases member : 0 ∈ whole
  · rw [if_pos member] at isNul ⊢
    obtain ⟨inside, _⟩ := List.getElem?_eq_some_iff.mp isNul
    have first : whole.idxOf 0 < whole.length := List.idxOf_lt_length_of_mem member
    rw [List.length_take] at inside ⊢
    by_contra early
    have before : j < whole.idxOf 0 := by omega
    have inTake : 0 ∈ whole.take (j + 1) := by
      rw [List.getElem?_take_of_lt (by omega)] at isNul
      refine List.mem_of_getElem? (i := j) ?_
      rw [List.getElem?_take_of_lt (Nat.lt_succ_self j)]
      exact isNul
    have := (List.mem_take_iff_idxOf_lt member).mp inTake
    omega
  · rw [if_neg member] at isNul
    exact absurd (List.mem_of_getElem? isNul) member

section Unrolled

variable (isCmp : call.isCmp = true) (isUnrolling : unrolling C valueMap call = some u)

include isCmp isUnrolling

theorem char_eq_fold (size : ℕ) (c : Byte) : u.char c = (call.comparison size).fold c := by
  rw [Unrolling.char, (unrolling_reads isUnrolling).1, (Call.kinds_of_isCmp isCmp).1,
    Call.comparison]
  dsimp only
  split <;> rfl

omit isCmp isUnrolling in
/-- The test before each byte finds the size before the byte, or nothing. -/
theorem holds_size_iff (width size j : ℕ) :
    (∀ k ≤ j, IcmpPredicate.eq.holds width size k = false) ↔ j < size % 2 ^ width := by
  simp only [IcmpPredicate.holds, decide_eq_false_iff_not]
  constructor
  · intro goes
    by_contra reached
    exact goes (size % 2 ^ width) (Nat.le_of_not_lt reached) (Nat.mod_mod _ _).symm
  · intro before k inside same
    have small := Nat.mod_lt size (Nat.two_pow_pos width)
    rw [Nat.mod_eq_of_lt (show k < 2 ^ width by omega)] at same
    omega

/-- The blocks are those for the bytes of the text, and the size ends them where it ends the
function. -/
theorem goes_iff (env : Registers) (j : ℕ) (c : Byte) :
    (u.chars[j]? = some c ∧ ∀ k ≤ j, u.ends (u.size env) k = false) ↔
      (Call.text C valueMap call)[j]? = some c ∧
        ∀ n ∈ (call.comparison ((call.arg 2).read env)).limit, j < n := by
  obtain ⟨_, _, _, _, _, chars⟩ := unrolling_spec isUnrolling
  obtain ⟨_, sized⟩ := unrolling_reads isUnrolling
  have limit : (call.comparison ((call.arg 2).read env)).limit =
      if call.isSizedcmp then some ((call.arg 2).read env % 2 ^ call.type.sizeWidth.getD 0)
      else none := by
    rw [(Call.kinds_of_isCmp isCmp).2.2]
    rfl
  rw [chars, ← Call.text, unrolled, limit]
  cases isSized : call.isSizedcmp with
  | false =>
      rw [isSized] at sized
      simp [Unrolling.ends, sized]
  | true =>
      cases constant : call.constSize with
      | some n =>
          have isSize : (call.arg 2).read env % 2 ^ call.type.sizeWidth.getD 0 = n := by
            rw [Call.constSize] at constant
            split at constant
            · rename_i value isConst
              rw [isConst]
              exact Option.some.inj constant
            · exact absurd constant (by simp)
          have never : ∀ k, u.ends (u.size env) k = false := fun k => by
            rw [Unrolling.ends, sized, isSized, constant]
            rfl
          rw [if_pos rfl, if_pos rfl, isSize, List.getElem?_take]
          constructor
          · rintro ⟨get, _⟩
            split at get
            · exact ⟨get, fun m isLimit => Option.some.inj isLimit ▸ ‹j < n›⟩
            · exact absurd get (by simp)
          · rintro ⟨get, within⟩
            rw [if_pos (within n rfl)]
            exact ⟨get, fun k _ => never k⟩
      | none =>
          have ends : ∀ k, u.ends (u.size env) k = IcmpPredicate.eq.holds
              (call.type.sizeWidth.getD 0) ((call.arg 2).read env) k := fun k => by
            rw [Unrolling.ends, Unrolling.size, sized, isSized, constant]
            rfl
          rw [if_pos rfl, if_pos rfl]
          simp only [ends, holds_size_iff, Option.mem_def, Option.some.injEq, forall_eq']

variable {known other : ℕ → Byte} {env : Registers}
  (agrees : ∀ j c, (Call.text C valueMap call)[j]? = some c → known j = c)

include agrees

omit isUnrolling in
/-- A known string that is compared as a string has its NUL at its end. -/
theorem text_nul {size : ℕ} (terminated : (call.comparison size).terminated = true) {k : ℕ}
    (inside : k < (Call.text C valueMap call).length) (isNul : known k = 0) :
    k + 1 = (Call.text C valueMap call).length := by
  have isString : call.comparesMemory = false := by
    rw [(Call.kinds_of_isCmp isCmp).2.1]
    simpa [Call.comparison] using terminated
  have get := List.getElem?_eq_getElem inside
  rw [← agrees k _ get, isNul] at get
  exact nul_last isString get

/-- What the blocks find is the first difference of the function, within the known string. -/
theorem finds_iff (j : ℕ) :
    u.Finds other (u.size env) 0 u.chars j ↔
      j < (Call.text C valueMap call).length ∧
        (call.comparison ((call.arg 2).read env)).DiffersAt (u.first known other)
          (u.second known other) j := by
  set comparison := call.comparison ((call.arg 2).read env)
  have goes := goes_iff isCmp isUnrolling env
  have fold : ∀ c, u.char c = comparison.fold c := char_eq_fold isCmp isUnrolling _
  have same_iff : ∀ k, comparison.fold (u.first known other k) =
      comparison.fold (u.second known other k) ↔ u.diff (known k) (other k) = 0 := fun k => by
    rw [← fold, ← fold, Unrolling.char_first_eq_iff, Unrolling.diff_eq_zero]
  constructor
  · intro finds
    obtain ⟨c, get, differ⟩ := finds.differ
    rw [Nat.zero_add] at differ
    have before : ∀ k ≤ j, u.ends (u.size env) k = false := fun k inside => by
      have := finds.goes k inside
      rwa [Nat.zero_add] at this
    obtain ⟨inText, within⟩ := (goes j c).mp ⟨get, before⟩
    obtain ⟨inside, _⟩ := List.getElem?_eq_some_iff.mp inText
    have same : ∀ k < j, u.diff (known k) (other k) = 0 := by
      intro k earlier
      obtain ⟨inChars, _⟩ := List.getElem?_eq_some_iff.mp get
      have isChar := List.getElem?_eq_getElem (show k < u.chars.length by omega)
      have isText := (goes k _).mp ⟨isChar, fun l inside => before l (by omega)⟩
      have := finds.same k earlier _ isChar
      rwa [Nat.zero_add, ← agrees k _ isText.1] at this
    refine ⟨inside, within, fun equal => differ ?_, fun k earlier => ?_, ?_⟩
    · rw [← agrees j c inText]
      exact (same_iff j).mp equal
    · exact (same_iff k).mpr (same k earlier)
    · intro terminated k earlier isNul
      refine absurd (text_nul isCmp agrees terminated (show k < _ by omega) ?_) (by omega)
      have folded := (same_iff k).mpr (same k earlier)
      rw [isNul, (comparison.fold_eq_zero 0).mpr rfl] at folded
      have other_nul := (comparison.fold_eq_zero _).mp folded.symm
      exact u.known_eq_zero isNul other_nul
  · rintro ⟨inside, differs⟩
    have inText := List.getElem?_eq_getElem inside
    obtain ⟨get, before⟩ := (goes j _).mpr ⟨inText, differs.within⟩
    refine ⟨fun k earlier => ?_, fun k earlier c isChar => ?_, _, get, fun equal => ?_⟩
    · rw [Nat.zero_add]
      exact before k earlier
    · obtain ⟨isText, _⟩ := (goes k c).mp ⟨isChar, fun l inside => before l (by omega)⟩
      rw [Nat.zero_add, ← agrees k c isText]
      exact (same_iff k).mp (differs.same k earlier)
    · rw [Nat.zero_add, ← agrees j _ inText] at equal
      exact differs.differ ((same_iff j).mpr equal)

/-- The value in the place of the call is the difference of the bytes that the blocks find. -/
theorem value_of_differs {j : ℕ} (inside : j < (Call.text C valueMap call).length)
    (differs : (call.comparison ((call.arg 2).read env)).DiffersAt (u.first known other)
      (u.second known other) j) :
    u.value other (u.size env) = ((call.comparison ((call.arg 2).read env)).fold
      (u.first known other j) - (call.comparison ((call.arg 2).read env)).fold
        (u.second known other j)).toInt := by
  have finds := (finds_iff isCmp isUnrolling agrees j).mpr ⟨inside, differs⟩
  have inText := List.getElem?_eq_getElem inside
  obtain ⟨get, _⟩ := (goes_iff isCmp isUnrolling env j _).mpr ⟨inText, differs.within⟩
  rw [Unrolling.value, Unrolling.cascade_of_finds finds get, Nat.zero_add, BitVec.ofNat_toNat,
    BitVec.setWidth_eq, BitVec.toInt_signExtend_of_le (by omega), ← agrees j _ inText,
    Unrolling.diff_eq known, char_eq_fold isCmp isUnrolling ((call.arg 2).read env),
    char_eq_fold isCmp isUnrolling ((call.arg 2).read env)]

/-- The value is zero where the function has no first difference in the known string. -/
theorem value_of_not_differs
    (none : ∀ j < (Call.text C valueMap call).length,
      ¬ (call.comparison ((call.arg 2).read env)).DiffersAt (u.first known other)
        (u.second known other) j) : u.value other (u.size env) = 0 := by
  have nowhere : ∀ j, ¬ u.Finds other (u.size env) 0 u.chars j := fun j finds => by
    obtain ⟨inside, differs⟩ := (finds_iff isCmp isUnrolling agrees j).mp finds
    exact none j inside differs
  rw [Unrolling.value, Unrolling.cascade_of_not_finds nowhere]
  rfl

/-- A comparison that the known string does not cover misses a difference. -/
theorem exists_missed
    (uncovered : ¬ (call.comparison ((call.arg 2).read env)).Covers (Call.text C valueMap call)) :
    ∃ other, u.value other (u.size env) = 0 ∧
      ∃ i, (call.comparison ((call.arg 2).read env)).DiffersAt (u.first known other)
        (u.second known other) i := by
  set comparison := call.comparison ((call.arg 2).read env)
  set text := Call.text C valueMap call
  obtain ⟨b, apart⟩ := comparison.exists_fold_ne (known text.length)
  -- The other string has the same bytes up to the end of the known one.
  let other : ℕ → Byte := fun i => if i < text.length then known i else b
  have same : ∀ i < text.length, u.first known other i = known i ∧
      u.second known other i = known i := fun i inside => by
    have kept : other i = known i := if_pos inside
    rw [Unrolling.first, Unrolling.second]
    split
    · exact ⟨rfl, kept⟩
    · exact ⟨kept, rfl⟩
  refine ⟨other, value_of_not_differs isCmp isUnrolling agrees fun j inside differs => ?_,
    text.length, fun n isLimit => ?_, fun equal => ?_, fun j inside => ?_,
    fun terminated j inside isNul => ?_⟩
  · obtain ⟨first, second⟩ := same j inside
    exact differs.differ (by rw [first, second])
  · by_contra reached
    exact uncovered (.inr ⟨n, isLimit, Nat.le_of_not_lt reached⟩)
  · have beyond : other text.length = b := if_neg (lt_irrefl _)
    rw [Unrolling.first, Unrolling.second] at equal
    split at equal
    · rw [beyond] at equal
      exact apart equal.symm
    · rw [beyond] at equal
      exact apart equal
  · obtain ⟨first, second⟩ := same j inside
    rw [first, second]
  · have get := List.getElem?_eq_getElem inside
    rw [(same j inside).1] at isNul
    rw [← agrees j _ get, isNul] at get
    exact uncovered (.inl ⟨terminated, List.mem_of_getElem? get⟩)

end Unrolled

variable {known : ℕ → Byte}

/-- Where the pass unrolls a call, the value of its blocks is zero for the same strings as that of
the function exactly when the known string covers the comparison. It then has the sign that the
function has exactly when the first difference fits in a signed byte. -/
theorem cascade_describes (isCmp : call.isCmp = true)
    (isUnrolling : unrolling C valueMap call = some u) (env : Registers)
    (agrees : ∀ j c, (Call.text C valueMap call)[j]? = some c → known j = c) :
    let comparison := call.comparison ((call.arg 2).read env)
    (comparison.Covers (Call.text C valueMap call) ↔ ∀ other,
      u.value other (u.size env) = 0 ↔
        ∀ i, ¬ comparison.DiffersAt (u.first known other) (u.second known other) i) ∧
    (comparison.Covers (Call.text C valueMap call) → ∀ other,
      comparison.Describes (u.first known other) (u.second known other)
        (u.value other (u.size env)) ↔
      ∀ i, comparison.DiffersAt (u.first known other) (u.second known other) i →
        -128 ≤ comparison.distance (u.first known other) (u.second known other) i ∧
          comparison.distance (u.first known other) (u.second known other) i < 128) := by
  intro comparison
  have knows : ∀ other, (∀ j c, (Call.text C valueMap call)[j]? = some c →
        u.first known other j = c) ∨
      (∀ j c, (Call.text C valueMap call)[j]? = some c → u.second known other j = c) := by
    intro other
    rw [Unrolling.first, Unrolling.second]
    split
    · exact .inl agrees
    · exact .inr agrees
  refine ⟨⟨fun covers other => ⟨fun zero i differs => ?_, fun none => ?_⟩, fun agree => ?_⟩,
    fun covers other => ⟨fun describes i differs => ?_, fun fits => ⟨fun i differs => ?_,
      fun none => ?_⟩⟩⟩
  · rw [value_of_differs isCmp isUnrolling agrees (covers.lt_length differs (knows other))
      differs] at zero
    exact differs.differ (sub_eq_zero.mp (BitVec.eq_of_toInt_eq zero))
  · exact value_of_not_differs isCmp isUnrolling agrees fun j _ => none j
  · by_contra uncovered
    obtain ⟨other, zero, i, differs⟩ := exists_missed isCmp isUnrolling agrees uncovered
    exact (agree other).mp zero i differs
  · have sign := describes.1 i differs
    rw [value_of_differs isCmp isUnrolling agrees (covers.lt_length differs (knows other))
      differs] at sign
    exact (sign_sub_iff _ _).mp sign
  · rw [value_of_differs isCmp isUnrolling agrees (covers.lt_length differs (knows other)) differs]
    exact (sign_sub_iff _ _).mpr (fits i differs)
  · exact value_of_not_differs isCmp isUnrolling agrees fun j _ => none j

/-- The blocks for the call of the test: those for the two letters, and one for the NUL. -/
def unrollingTest : Unrolling where
  dest := 0
  VarStr := .reg 7
  sizedValue := none
  HasStr1 := false
  isCaseInsensitive := false
  chars := [97, 98, 0]

theorem cascade_describes_test :
    unrolling constantsTest (fun _ => none) strcmpTest = some unrollingTest ∧
      ((strcmpTest.comparison 0).Covers [97, 98, 0] ↔
        ∀ other, unrollingTest.value other 0 = 0 ↔
          ∀ i, ¬ (strcmpTest.comparison 0).DiffersAt
            (unrollingTest.first ([97, 98, 0].getD · 0) other)
            (unrollingTest.second ([97, 98, 0].getD · 0) other) i) := by
  have isUnrolling : unrolling constantsTest (fun _ => none) strcmpTest = some unrollingTest := rfl
  have agrees : ∀ j c, (Call.text constantsTest (fun _ => none) strcmpTest)[j]? = some c →
      [97, 98, 0].getD j 0 = c := fun j c get => by
    have isText : ([97, 98, 0] : List Byte)[j]? = some c := get
    rw [List.getD_eq_getElem?_getD, isText, Option.getD_some]
  exact ⟨isUnrolling, (cascade_describes rfl isUnrolling (fun _ => 0) agrees).1⟩

end OneCall

end GreenFuzz.Instrumentation
