import GreenFuzz.Library.Qsort
import GreenFuzz.Library.Runs
import GreenFuzz.AflFuzz.State
import GreenFuzz.AflFuzz.Havoc
import GreenFuzz.AflFuzz.AutoTokens

/-!
# The auto dictionary

`maybe_add_auto` is offered a token that a stage collected. It passes over runs of one byte,
long tokens, built-in interesting values and what the user dictionary has already. A token that
`a_extras` has already is counted; another one is appended, or takes the place of one in the second
half when the array is full. Then the array is sorted by the use counts, and its first
`USE_AUTO_EXTRAS` entries by their length.

The user dictionary is searched only as far as its order allows, so the search finds a
token exactly if it is there (`matchesExtras_iff`). Both sorts are stated for any `qsort`.

**After any calls the tokens are distinct, of the right size, the first of them sorted by their
length and used at least as often as the others** (`autoDictionary_reachable`).
-/

set_option autoImplicit false

namespace GreenFuzz.AflFuzz

open Library

/-! ## The code -/

def MAX_AUTO_EXTRAS : ℕ := 32768

/-- `struct auto_extra_data`. -/
structure AutoExtra where
  data : Token
  hitCnt : ℕ
  deriving DecidableEq, Repr

/-- The fields of the fuzzer that `maybe_add_auto` works on. The entries of `a_extras` after the
last are zero. -/
structure AutoState where
  aExtras : List AutoExtra
  autoChanged : Bool
  deriving DecidableEq, Repr

/-- A `u32` difference, returned as an `int`. -/
def intDifference (a b : ℕ) : ℤ := Int.bmod ((a : ℤ) - b) (2 ^ 32)

def compareAutoExtrasLen (ae1 ae2 : AutoExtra) : ℤ :=
  intDifference ae1.data.length ae2.data.length

/-- Descending order. -/
def compareAutoExtrasUseD (ae1 ae2 : AutoExtra) : ℤ := intDifference ae2.hitCnt ae1.hitCnt

/-- `tolower`. -/
def tolower (b : Byte) : Byte := if 65 ≤ b.toNat ∧ b.toNat ≤ 90 then b + 32 else b

/-- `memcmp_nocase` on texts of the same length. -/
def memcmpNocase : Token → Token → Bool
  | a :: m1, b :: m2 => if tolower a ^^^ tolower b ≠ 0 then true else memcmpNocase m1 m2
  | _, _ => false

/-- The loop over the bytes after the first comes to the end. -/
def isRepeated : Token → Bool
  | [] => false
  | first :: mem => mem.all fun b => first ^^^ b = 0

/-- A built-in interesting value. A `u16` is compared with a `s16` as an `int`. -/
def isInteresting (mem : Token) : Bool :=
  let buf : Buffer := fun k => mem.getD k 0
  (mem.length = 2 && interesting16.any fun value =>
    ((loadAt 2 buf 0).toNat : ℤ) = value.toInt || loadAt 2 buf 0 = swap16 value) ||
  (mem.length = 4 && interesting32.any fun value =>
    loadAt 4 buf 0 = value || loadAt 4 buf 0 = swap32 value)

/-- The two loops over `extras`. -/
def matchesExtras (extras : List Token) (mem : Token) : Bool :=
  ((extras.dropWhile fun extra => extra.length < mem.length).takeWhile fun extra =>
    extra.length = mem.length).any fun extra => !memcmpNocase extra mem

/-- The loop over `a_extras`: the entries with the match counted, if there is one. -/
def hitAuto (mem : Token) : List AutoExtra → Option (List AutoExtra)
  | [] => none
  | a :: aExtras =>
      if a.data.length = mem.length && !memcmpNocase a.data mem then
        some ({ a with hitCnt := u32 (a.hitCnt + 1) } :: aExtras)
      else (hitAuto mem aExtras).map (a :: ·)

/-- `maybe_add_auto` down to the label `sort_a_extras`: the entries there, unless it returned. -/
def addAuto (extras : List Token) (mem : Token) (aExtras : List AutoExtra) :
    Drawing (Option (List AutoExtra)) :=
  if isRepeated mem || MAX_AUTO_EXTRA < mem.length then pure none
  else if isInteresting mem then pure none
  else if matchesExtras extras mem then pure none
  else
    match hitAuto mem aExtras with
    | some aExtras => pure (some aExtras)
    | none =>
        if aExtras.length < MAX_AUTO_EXTRAS then pure (some (aExtras ++ [⟨mem, 0⟩]))
        else do
          let i ← randBelow ((MAX_AUTO_EXTRAS + 1) / 2)
          pure (some (aExtras.set (MAX_AUTO_EXTRAS / 2 + i) ⟨mem, 0⟩))

/-- What follows the label `sort_a_extras`. -/
def sortAExtras (Q : Qsort) (aExtras : List AutoExtra) : List AutoExtra :=
  let byUse := Q.sort compareAutoExtrasUseD aExtras
  let front := min USE_AUTO_EXTRAS aExtras.length
  Q.sort compareAutoExtrasLen (byUse.take front) ++ byUse.drop front

/-- `maybe_add_auto`. -/
def maybeAddAuto (Q : Qsort) (extras : List Token) (mem : Token) (s : AutoState) :
    Drawing AutoState := do
  match ← addAuto extras mem s.aExtras with
  | none => pure s
  | some aExtras => pure ⟨sortAExtras Q aExtras, true⟩

/-! ## What is claimed -/

/-- Equal ignoring case. -/
def EqualNocase (token other : Token) : Prop := token.map tolower = other.map tolower

/-- Tokens without two that are equal ignoring case. -/
def Apart (tokens : List Token) : Prop := tokens.Pairwise fun token other =>
  ¬ EqualNocase token other

/-- A token of 2 to `MAX_AUTO_EXTRA` bytes that is not a run of one byte. -/
structure WorthAdding (token : Token) : Prop where
  two_le : 2 ≤ token.length
  le_max : token.length ≤ MAX_AUTO_EXTRA
  varied : ¬ ∃ b, token = List.replicate token.length b

/-- The tokens of entries. -/
def tokensIn (aExtras : List AutoExtra) : List Token := aExtras.map AutoExtra.data

/-- What holds of the auto dictionary. -/
structure AutoDictionary (aExtras : List AutoExtra) : Prop where
  apart : Apart (tokensIn aExtras)
  worth : ∀ token ∈ tokensIn aExtras, WorthAdding token
  count : aExtras.length ≤ MAX_AUTO_EXTRAS
  short_first : SortedByLength (tokensIn (aExtras.take (min aExtras.length USE_AUTO_EXTRAS)))
  used_first : ∀ a ∈ aExtras.take (min aExtras.length USE_AUTO_EXTRAS),
    ∀ later ∈ aExtras.drop (min aExtras.length USE_AUTO_EXTRAS), later.hitCnt ≤ a.hitCnt

/-- The auto dictionary in a run, and for each token the user dictionary at the time when it was
inserted last. -/
structure AutoRun where
  auto : AutoState
  insertedUnder : Token → List Token

/-- The run after a call, with the user dictionary of that call for the tokens it inserted. -/
def AutoRun.next (r : AutoRun) (extras : List Token) (after : AutoState) : AutoRun where
  auto := after
  insertedUnder token :=
    if token ∈ tokensIn after.aExtras ∧ token ∉ tokensIn r.auto.aExtras then extras
    else r.insertedUnder token

/-- A call in which the hit counts are below `2 ^ 31` when they are sorted. The user dictionary
may be another one for each call. -/
inductive AutoStep (Q : Qsort) (r : AutoRun) : AutoRun → Prop where
  | call {extras : List Token} {mem : Token} {draws rest : Draws} {after : AutoState}
      (sorted : SortedByLength extras) (some_byte : 1 ≤ mem.length)
      (counts : ∀ aExtras rest, (addAuto extras mem r.auto.aExtras).run draws =
        some (some aExtras, rest) → ∀ a ∈ aExtras, a.hitCnt < 2 ^ 31)
      (called : (maybeAddAuto Q extras mem r.auto).run draws = some (after, rest)) :
      AutoStep Q r (r.next extras after)

/-- Any calls, from an empty auto dictionary. -/
def autoSystem (Q : Qsort) : TransitionSystem AutoRun where
  init r := r.auto = ⟨[], false⟩
  step := AutoStep Q

/-! ## Searching -/

variable {extras tokens : List Token} {mem token other : Token} {aExtras after : List AutoExtra}

theorem EqualNocase.length_eq (equal : EqualNocase token other) : token.length = other.length := by
  have lengths := congrArg List.length equal
  rwa [List.length_map, List.length_map] at lengths

theorem memcmpNocase_eq_false {m1 m2 : Token} (same : m1.length = m2.length) :
    memcmpNocase m1 m2 = false ↔ EqualNocase m1 m2 := by
  induction m1 generalizing m2 with
  | nil =>
      rw [List.length_nil, eq_comm, List.length_eq_zero_iff] at same
      rw [same]
      exact iff_of_true rfl rfl
  | cons a m1 ih =>
      cases m2 with
      | nil => cases same
      | cons b m2 =>
          rw [memcmpNocase, EqualNocase, List.map_cons, List.map_cons, List.cons.injEq]
          by_cases equal : tolower a = tolower b
          · rw [if_neg (not_not.mpr (by exact BitVec.xor_eq_zero_iff.mpr equal)),
              ih (Nat.succ.inj same), EqualNocase]
            exact (and_iff_right equal).symm
          · rw [if_pos (by exact mt BitVec.xor_eq_zero_iff.mp equal)]
            exact iff_of_false nofun fun both => equal both.1

/-- The loop over the first bytes runs through exactly for a run of one byte. -/
theorem isRepeated_iff (some_byte : 1 ≤ mem.length) :
    isRepeated mem = true ↔ ∃ b, mem = List.replicate mem.length b := by
  cases mem with
  | nil => cases some_byte
  | cons first mem =>
      simp only [isRepeated, List.all_eq_true, decide_eq_true_eq, List.eq_replicate_iff, true_and]
      constructor
      · intro repeated
        refine ⟨first, fun b member => ?_⟩
        rcases List.mem_cons.mp member with rfl | later
        · rfl
        · exact (BitVec.xor_eq_zero_iff.mp (repeated b later)).symm
      · rintro ⟨b, repeated⟩ c later
        rw [repeated first List.mem_cons_self, repeated c (List.mem_cons_of_mem _ later)]
        exact BitVec.xor_self

/-- Up to the first longer token, a sorted list has all tokens of the shortest length. -/
theorem mem_takeWhile_length (sorted : SortedByLength tokens) {n : ℕ}
    (long : ∀ token ∈ tokens, n ≤ token.length) :
    token ∈ tokens.takeWhile (fun extra => extra.length = n) ↔
      token ∈ tokens ∧ token.length = n := by
  induction tokens with
  | nil => exact iff_of_false List.not_mem_nil fun both => List.not_mem_nil both.1
  | cons extra tokens ih =>
      obtain ⟨least, sorted⟩ := List.pairwise_cons.mp sorted
      by_cases right : extra.length = n
      · rw [List.takeWhile_cons, if_pos (decide_eq_true right), List.mem_cons, List.mem_cons,
          ih sorted fun token later => long token (List.mem_cons_of_mem _ later)]
        constructor
        · rintro (rfl | both)
          · exact ⟨Or.inl rfl, right⟩
          · exact ⟨Or.inr both.1, both.2⟩
        · rintro ⟨rfl | later, size⟩
          · exact Or.inl rfl
          · exact Or.inr ⟨later, size⟩
      · rw [List.takeWhile_cons, if_neg (by rwa [decide_eq_true_eq])]
        refine iff_of_false List.not_mem_nil ?_
        rintro ⟨member, rfl⟩
        have first := long extra List.mem_cons_self
        rcases List.mem_cons.mp member with rfl | later
        · exact right rfl
        · exact right (le_antisymm (least token later) first)

/-- The two loops over a sorted list come to all tokens of a length. -/
theorem mem_searched (sorted : SortedByLength extras) {n : ℕ} :
    token ∈ (extras.dropWhile fun extra => extra.length < n).takeWhile
      (fun extra => extra.length = n) ↔ token ∈ extras ∧ token.length = n := by
  induction extras with
  | nil => exact iff_of_false List.not_mem_nil fun both => List.not_mem_nil both.1
  | cons extra extras ih =>
      obtain ⟨least, sorted'⟩ := List.pairwise_cons.mp sorted
      by_cases short : extra.length < n
      · rw [List.dropWhile_cons, if_pos (decide_eq_true short), ih sorted', List.mem_cons]
        refine and_congr_left fun size => (or_iff_right ?_).symm
        rintro rfl
        exact short.ne size
      · rw [List.dropWhile_cons, if_neg (by rwa [decide_eq_true_eq])]
        refine mem_takeWhile_length sorted (List.forall_mem_cons.mpr ⟨not_lt.mp short, ?_⟩)
        exact fun token later => (not_lt.mp short).trans (least token later)

/-- **The search in a sorted user dictionary finds a token if it is there**, ignoring case. -/
theorem matchesExtras_iff (sorted : SortedByLength extras) :
    matchesExtras extras mem = true ↔ ∃ extra ∈ extras, EqualNocase extra mem := by
  simp only [matchesExtras, List.any_eq_true, Bool.not_eq_true']
  constructor
  · rintro ⟨extra, searched, equal⟩
    obtain ⟨member, size⟩ := (mem_searched sorted).mp searched
    exact ⟨extra, member, (memcmpNocase_eq_false size).mp equal⟩
  · rintro ⟨extra, member, equal⟩
    have size := equal.length_eq
    exact ⟨extra, (mem_searched sorted).mpr ⟨member, size⟩, (memcmpNocase_eq_false size).mpr equal⟩

/-- A counted token was there; the tokens stay as they are. -/
theorem tokensIn_hitAuto (hit : hitAuto mem aExtras = some after) :
    tokensIn after = tokensIn aExtras := by
  induction aExtras generalizing after with
  | nil => cases hit
  | cons a aExtras ih =>
      rw [hitAuto] at hit
      split at hit
      · cases hit
        rfl
      · obtain ⟨later, counted, rfl⟩ := Option.map_eq_some_iff.mp hit
        rw [tokensIn, List.map_cons, ← tokensIn, ih counted]
        rfl

/-- A token that is not counted is not there. -/
theorem hitAuto_none (missed : hitAuto mem aExtras = none) :
    ∀ token ∈ tokensIn aExtras, ¬ EqualNocase token mem := by
  induction aExtras with
  | nil => exact fun token member => absurd member List.not_mem_nil
  | cons a aExtras ih =>
      rw [hitAuto] at missed
      split at missed
      · cases missed
      · rename_i differs
        refine List.forall_mem_cons.mpr ⟨fun equal => differs ?_,
          ih (Option.map_eq_none_iff.mp missed)⟩
        rw [decide_eq_true equal.length_eq, (memcmpNocase_eq_false equal.length_eq).mpr equal]
        rfl

/-! ## Adding a token -/

/-- A token worth adding that is in neither dictionary. -/
structure IsNew (extras tokens : List Token) (mem : Token) : Prop where
  worth : WorthAdding mem
  user : ∀ extra ∈ extras, ¬ EqualNocase extra mem
  auto : ∀ token ∈ tokens, ¬ EqualNocase token mem

/-- What a call makes of the tokens before it sorts them. -/
inductive Admits (extras tokens : List Token) (mem : Token) : List Token → Prop where
  | counted : Admits extras tokens mem tokens
  | appended : IsNew extras tokens mem → tokens.length < MAX_AUTO_EXTRAS →
      Admits extras tokens mem (tokens ++ [mem])
  | replaced (i : ℕ) : IsNew extras tokens mem → Admits extras tokens mem (tokens.set i mem)

theorem worthAdding_of_checks (some_byte : 1 ≤ mem.length)
    (passed : ¬ (isRepeated mem || MAX_AUTO_EXTRA < mem.length) = true) : WorthAdding mem := by
  rw [Bool.or_eq_true, not_or, isRepeated_iff some_byte, decide_eq_true_eq, not_lt] at passed
  refine ⟨?_, passed.2, passed.1⟩
  by_contra short
  have one : mem.length = 1 := by omega
  obtain ⟨b, rfl⟩ := List.length_eq_one_iff.mp one
  exact passed.1 ⟨b, rfl⟩

/-- The entries when they are sorted: the token is counted, appended, or put in the place of
another one. -/
inductive Stores (mem : Token) (aExtras : List AutoExtra) : List AutoExtra → Prop where
  | counted {after : List AutoExtra} (hit : hitAuto mem aExtras = some after) :
      Stores mem aExtras after
  | appended (missed : hitAuto mem aExtras = none) (room : aExtras.length < MAX_AUTO_EXTRAS) :
      Stores mem aExtras (aExtras ++ [⟨mem, 0⟩])
  | replaced (i : ℕ) (missed : hitAuto mem aExtras = none) (inside : i < aExtras.length) :
      Stores mem aExtras (aExtras.set i ⟨mem, 0⟩)

/-- A call that comes to the sorting has passed the checks and stored the token. -/
theorem addAuto_stores {draws rest : Draws}
    (added : (addAuto extras mem aExtras).run draws = some (some after, rest)) :
    ¬ (isRepeated mem || MAX_AUTO_EXTRA < mem.length) = true ∧ ¬ isInteresting mem = true ∧
      ¬ matchesExtras extras mem = true ∧ Stores mem aExtras after := by
  rw [addAuto] at added
  by_cases failed : (isRepeated mem || MAX_AUTO_EXTRA < mem.length) = true
  · rw [if_pos failed] at added
    cases added
  rw [if_neg failed] at added
  by_cases interesting : isInteresting mem = true
  · rw [if_pos interesting] at added
    cases added
  rw [if_neg interesting] at added
  by_cases user : matchesExtras extras mem = true
  · rw [if_pos user] at added
    cases added
  rw [if_neg user] at added
  refine ⟨failed, interesting, user, ?_⟩
  cases hit : hitAuto mem aExtras with
  | some counted =>
      rw [hit] at added
      cases added
      exact .counted hit
  | none =>
      rw [hit] at added
      by_cases room : aExtras.length < MAX_AUTO_EXTRAS
      · simp only [if_pos room] at added
        cases added
        exact .appended hit room
      · simp only [if_neg room] at added
        obtain ⟨⟨i, later⟩, drawn, stored⟩ := Option.bind_eq_some_iff.mp added
        cases stored
        have below := randBelow_lt (by decide) drawn
        unfold MAX_AUTO_EXTRAS at below room
        refine .replaced _ hit ?_
        unfold MAX_AUTO_EXTRAS
        omega

/-- What stands in `a_extras` when it is sorted. -/
theorem addAuto_admits {draws rest : Draws} (sorted : SortedByLength extras)
    (some_byte : 1 ≤ mem.length)
    (added : (addAuto extras mem aExtras).run draws = some (some after, rest)) :
    Admits extras (tokensIn aExtras) mem (tokensIn after) := by
  obtain ⟨passed, -, user, stores⟩ := addAuto_stores added
  have isNew (missed : hitAuto mem aExtras = none) : IsNew extras (tokensIn aExtras) mem :=
    { worth := worthAdding_of_checks some_byte passed
      user := fun extra member equal => user ((matchesExtras_iff sorted).mpr
        ⟨extra, member, equal⟩)
      auto := hitAuto_none missed }
  cases stores with
  | counted hit =>
      rw [tokensIn_hitAuto hit]
      exact .counted
  | appended missed room =>
      have tokens : tokensIn (aExtras ++ [⟨mem, 0⟩]) = tokensIn aExtras ++ [mem] := List.map_append
      rw [tokens]
      exact .appended (isNew missed) (by rwa [tokensIn, List.length_map])
  | replaced i missed inside =>
      have tokens : tokensIn (aExtras.set i ⟨mem, 0⟩) = (tokensIn aExtras).set i mem := List.map_set
      rw [tokens]
      exact .replaced _ (isNew missed)

/-- What holds of the tokens in any order. -/
structure TokenSet (tokens : List Token) : Prop where
  apart : Apart tokens
  worth : ∀ token ∈ tokens, WorthAdding token
  count : tokens.length ≤ MAX_AUTO_EXTRAS

theorem TokenSet.perm (held : TokenSet tokens) {tokens' : List Token}
    (perm : tokens'.Perm tokens) : TokenSet tokens' where
  apart := (perm.pairwise_iff fun differ equal => differ equal.symm).mpr held.apart
  worth := fun token member => held.worth token (perm.mem_iff.mp member)
  count := perm.length_eq.trans_le held.count

/-- A new token stays apart from the others. -/
theorem TokenSet.cons (held : TokenSet tokens) (isNew : IsNew extras tokens mem)
    (room : tokens.length < MAX_AUTO_EXTRAS) : TokenSet (mem :: tokens) where
  apart := List.pairwise_cons.mpr
    ⟨fun token member equal => isNew.auto token member equal.symm, held.apart⟩
  worth := List.forall_mem_cons.mpr ⟨isNew.worth, held.worth⟩
  count := room

theorem TokenSet.sublist (held : TokenSet tokens) {fewer : List Token}
    (sublist : fewer.Sublist tokens) : TokenSet fewer where
  apart := held.apart.sublist sublist
  worth := fun token member => held.worth token (sublist.subset member)
  count := sublist.length_le.trans held.count

/-- **The tokens stay apart**, whether one is counted, appended or replaced. -/
theorem TokenSet.admit (held : TokenSet tokens) {tokens' : List Token}
    (admits : Admits extras tokens mem tokens') : TokenSet tokens' := by
  cases admits with
  | counted => exact held
  | appended isNew room =>
      exact (held.cons isNew room).perm (List.perm_append_singleton mem tokens)
  | replaced i isNew =>
      by_cases inside : i < tokens.length
      · have fewer := held.sublist (List.eraseIdx_sublist tokens i)
        have isNew' : IsNew extras (tokens.eraseIdx i) mem :=
          ⟨isNew.worth, isNew.user, fun token member =>
            isNew.auto token (List.mem_of_mem_eraseIdx member)⟩
        have room : (tokens.eraseIdx i).length < MAX_AUTO_EXTRAS := by
          rw [List.length_eraseIdx_of_lt inside]
          exact (Nat.sub_one_lt (Nat.ne_of_gt (Nat.zero_lt_of_lt inside))).trans_le held.count
        exact (fewer.cons isNew' room).perm (List.set_perm_cons_eraseIdx inside mem)
      · rw [List.set_eq_of_length_le (not_lt.mp inside)]
        exact held

/-- A token that was not there before is the new one. -/
theorem Admits.inserted {tokens' : List Token} (admits : Admits extras tokens mem tokens')
    (member : token ∈ tokens') (absent : token ∉ tokens) :
    ∀ extra ∈ extras, ¬ EqualNocase extra token := by
  cases admits with
  | counted => exact absurd member absent
  | appended isNew =>
      rcases List.mem_append.mp member with old | new
      · exact absurd old absent
      · rw [List.mem_singleton.mp new]
        exact isNew.user
  | replaced i isNew =>
      rcases List.mem_or_eq_of_mem_set member with old | rfl
      · exact absurd old absent
      · exact isNew.user

/-! ## Sorting -/

/-- The difference of small numbers is not wrapped. -/
theorem intDifference_of_lt {a b : ℕ} (left : a < 2 ^ 31) (right : b < 2 ^ 31) :
    intDifference a b = (a : ℤ) - b := by
  rw [intDifference]
  exact Int.bmod_eq_of_le_mul_two (by omega) (by omega)

section Sorted

variable (Q : Qsort) (counts : ∀ a ∈ aExtras, a.hitCnt < 2 ^ 31)
  (sizes : ∀ a ∈ aExtras, a.data.length ≤ MAX_AUTO_EXTRA)

include counts

theorem compareUse_eq : ∀ a ∈ aExtras, ∀ b ∈ aExtras,
    compareAutoExtrasUseD a b = -(a.hitCnt : ℤ) - -(b.hitCnt : ℤ) := by
  intro a left b right
  rw [compareAutoExtrasUseD, intDifference_of_lt (counts b right) (counts a left)]
  omega

theorem perm_byUse : (Q.sort compareAutoExtrasUseD aExtras).Perm aExtras :=
  Q.perm (.of_key (compareUse_eq counts))

theorem sorted_byUse :
    (Q.sort compareAutoExtrasUseD aExtras).Pairwise fun a later => later.hitCnt ≤ a.hitCnt :=
  (Q.sorted_key (compareUse_eq counts)).imp fun ordered => by omega

include sizes

theorem compareLen_eq (n : ℕ) : ∀ a ∈ (Q.sort compareAutoExtrasUseD aExtras).take n,
    ∀ b ∈ (Q.sort compareAutoExtrasUseD aExtras).take n,
      compareAutoExtrasLen a b = (a.data.length : ℤ) - b.data.length := by
  have small : ∀ a ∈ (Q.sort compareAutoExtrasUseD aExtras).take n, a.data.length < 2 ^ 31 := by
    intro a front
    have size := sizes a ((perm_byUse Q counts).mem_iff.mp (List.mem_of_mem_take front))
    exact size.trans_lt (by decide)
  intro a left b right
  exact intDifference_of_lt (small a left) (small b right)

/-- The entries that are sorted by their length. -/
theorem take_sortAExtras : (sortAExtras Q aExtras).take (min USE_AUTO_EXTRAS aExtras.length) =
    Q.sort compareAutoExtrasLen ((Q.sort compareAutoExtrasUseD aExtras).take
      (min USE_AUTO_EXTRAS aExtras.length)) := by
  refine List.take_left' ?_
  rw [(Q.perm (.of_key (compareLen_eq Q counts sizes _))).length_eq, List.length_take,
    (perm_byUse Q counts).length_eq]
  omega

theorem perm_sortAExtras : (sortAExtras Q aExtras).Perm aExtras := by
  have front := Q.perm (.of_key (compareLen_eq Q counts sizes
    (min USE_AUTO_EXTRAS aExtras.length)))
  refine (front.append_right _).trans ?_
  rw [List.take_append_drop]
  exact perm_byUse Q counts

theorem drop_sortAExtras : (sortAExtras Q aExtras).drop (min USE_AUTO_EXTRAS aExtras.length) =
    (Q.sort compareAutoExtrasUseD aExtras).drop (min USE_AUTO_EXTRAS aExtras.length) := by
  refine List.drop_left' ?_
  rw [(Q.perm (.of_key (compareLen_eq Q counts sizes _))).length_eq, List.length_take,
    (perm_byUse Q counts).length_eq]
  omega

/-- **The sorted array**: its tokens are those before, its first entries are sorted by their
length and used at least as often as the others. -/
theorem autoDictionary_sortAExtras (held : TokenSet (tokensIn aExtras)) :
    AutoDictionary (sortAExtras Q aExtras) := by
  have perm := perm_sortAExtras Q counts sizes
  have held' := held.perm (perm.map AutoExtra.data)
  have front : min (sortAExtras Q aExtras).length USE_AUTO_EXTRAS =
      min USE_AUTO_EXTRAS aExtras.length := by rw [perm.length_eq, Nat.min_comm]
  refine ⟨held'.apart, held'.worth, perm.length_eq.trans_le ?_, ?_, ?_⟩
  · simpa [tokensIn] using held.count
  · rw [front, take_sortAExtras Q counts sizes, tokensIn, SortedByLength, List.pairwise_map]
    exact (Q.sorted_key (compareLen_eq Q counts sizes _)).imp fun ordered => by omega
  · rw [front, take_sortAExtras Q counts sizes, drop_sortAExtras Q counts sizes]
    exact Q.front_before_rest (sorted_byUse Q counts) (.of_key (compareLen_eq Q counts sizes _))

end Sorted

/-! ## Runs -/

theorem AutoDictionary.tokenSet (held : AutoDictionary aExtras) : TokenSet (tokensIn aExtras) where
  apart := held.apart
  worth := held.worth
  count := (List.length_map _).trans_le held.count

/-- A call leaves everything as it is, or sorts what was admitted. -/
theorem maybeAddAuto_cases {Q : Qsort} {s t : AutoState} {draws rest : Draws}
    (called : (maybeAddAuto Q extras mem s).run draws = some (t, rest)) :
    t = s ∨ ∃ aExtras rest, (addAuto extras mem s.aExtras).run draws = some (some aExtras, rest) ∧
      t = ⟨sortAExtras Q aExtras, true⟩ := by
  obtain ⟨⟨result, left⟩, added, sorted⟩ := Option.bind_eq_some_iff.mp called
  cases result with
  | none =>
      cases sorted
      exact Or.inl rfl
  | some aExtras =>
      cases sorted
      exact Or.inr ⟨aExtras, rest, added, rfl⟩

/-- What holds in a run: the auto dictionary is in order, and no token of it was in the user
dictionary when it was inserted. -/
structure AutoRun.InOrder (r : AutoRun) : Prop where
  dictionary : AutoDictionary r.auto.aExtras
  user : ∀ token ∈ tokensIn r.auto.aExtras, ∀ extra ∈ r.insertedUnder token,
    ¬ EqualNocase extra token

/-- One call keeps the order. -/
theorem AutoRun.InOrder.step {Q : Qsort} {r r' : AutoRun} (held : r.InOrder)
    (taken : AutoStep Q r r') : r'.InOrder := by
  cases taken with
  | @call extras mem draws rest after sorted some_byte counts called =>
      rcases maybeAddAuto_cases called with rfl | ⟨aExtras, left, added, rfl⟩
      · refine ⟨held.dictionary, fun token member extra under => ?_⟩
        simp only [AutoRun.next] at under
        split at under
        · rename_i fresh
          exact absurd fresh.1 fresh.2
        · exact held.user token member extra under
      · have admits := addAuto_admits sorted some_byte added
        have tokens := held.dictionary.tokenSet.admit admits
        have small := counts aExtras left added
        have sizes : ∀ a ∈ aExtras, a.data.length ≤ MAX_AUTO_EXTRA :=
          fun a member => (tokens.worth a.data (List.mem_map_of_mem member)).le_max
        have perm := (perm_sortAExtras Q small sizes).map AutoExtra.data
        refine ⟨autoDictionary_sortAExtras Q small sizes tokens, fun token member extra under => ?_⟩
        simp only [AutoRun.next] at under
        split at under
        · rename_i fresh
          exact admits.inserted (perm.mem_iff.mp fresh.1) fresh.2 extra under
        · rename_i old
          exact held.user token (not_not.mp fun absent => old ⟨member, absent⟩) extra under

/-- **The auto dictionary is in order after any calls**, with any random numbers, user
dictionaries sorted by their length, and hit counts below `2 ^ 31`: no two tokens are equal
ignoring case, nor is one equal to a token that the user dictionary had when it was inserted; the
tokens have 2 to `MAX_AUTO_EXTRA` bytes and are no runs of one byte; there are at most
`MAX_AUTO_EXTRAS`; the first `USE_AUTO_EXTRAS` are sorted by their length and were hit at least
as often as each after them. -/
theorem autoDictionary_reachable (Q : Qsort) {r : AutoRun} (run : Reachable (autoSystem Q) r) :
    AutoDictionary r.auto.aExtras ∧ ∀ token ∈ tokensIn r.auto.aExtras,
      ∀ extra ∈ r.insertedUnder token, ¬ EqualNocase extra token := by
  have held : r.InOrder := by
    refine run.invariant (fun r start => ?_) fun r r' _ held taken => held.step taken
    have none_yet : r.auto.aExtras = [] := congrArg AutoState.aExtras start
    refine ⟨?_, ?_⟩
    · rw [none_yet]
      exact ⟨.nil, nofun, Nat.zero_le _, .nil, nofun⟩
    · rw [none_yet]
      exact nofun
  exact ⟨held.dictionary, held.user⟩

/-- The tokens `abc` and then `xy` are offered, with `k` in the user dictionary. -/
theorem autoDictionary_reachable_example :
    AutoDictionary [⟨[120, 121], 0⟩, ⟨[97, 98, 99], 0⟩] ∧
      ∀ token ∈ ([[120, 121], [97, 98, 99]] : List Token), ∀ extra ∈ ([[107]] : List Token),
        ¬ EqualNocase extra token := by
  let start : AutoRun := ⟨⟨[], false⟩, fun _ => []⟩
  let second := start.next [[107]] ⟨[⟨[97, 98, 99], 0⟩], true⟩
  let third := second.next [[107]] ⟨[⟨[120, 121], 0⟩, ⟨[97, 98, 99], 0⟩], true⟩
  have sorted : SortedByLength [[107]] := List.pairwise_singleton _ _
  have first_call : AutoStep insertionQsort start second := by
    refine @AutoStep.call _ _ _ [97, 98, 99] [] [] _ sorted (by decide) ?_ rfl
    intro aExtras rest added
    cases added
    decide
  have second_call : AutoStep insertionQsort second third := by
    refine @AutoStep.call _ _ _ [120, 121] [] [] _ sorted (by decide) ?_ rfl
    intro aExtras rest added
    cases added
    decide
  have run : Reachable (autoSystem insertionQsort) third :=
    .step (.step (.init (s := start) rfl) first_call) second_call
  obtain ⟨dictionary, user⟩ := autoDictionary_reachable insertionQsort run
  refine ⟨dictionary, fun token member extra under => user token member extra ?_⟩
  rcases List.mem_cons.mp member with rfl | member
  · exact under
  · rw [List.mem_singleton.mp member]
    exact under

end GreenFuzz.AflFuzz
