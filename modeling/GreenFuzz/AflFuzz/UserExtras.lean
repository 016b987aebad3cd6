import GreenFuzz.AflFuzz.Extras
import GreenFuzz.AflFuzz.AutoExtras
import Mathlib.Data.List.GetD

/-!
# The user dictionary

`load_extras` reads a dictionary file, or takes each file of a directory as a token, and sorts
what it has. `add_extra` adds a token of the target and sorts again. `dedup_extras` removes
duplicates: two indices walk the array, and after a removal the code jumps back to look at the
same place again. It compares tokens of the same length only and stops at the first longer one.

**On a sorted array the walk comes to an end with the tokens that were there, each once and in
their order** (`dedupExtras_spec`), which is the list without later duplicates
(`dedupExtras_eq`).
-/

set_option autoImplicit false

namespace GreenFuzz.AflFuzz

open Library

/-! ## Loading -/

def compareExtrasLen (e1 e2 : Token) : ℤ := intDifference e1.length e2.length

/-- `add_extra_nocheck`. -/
def addExtraNocheck (extras : List Token) (mem : Token) : List Token := extras ++ [mem]

/-- `extras_check_and_sort`. -/
def extrasCheckAndSort (Q : Qsort) (extras : List Token) : List Token :=
  if extras = [] then extras else Q.sort compareExtrasLen extras

/-- What ends the fuzzer while dictionaries are loaded. -/
inductive ExtrasFatal where
  | unableToOpen | unableToAccess | levelsNotSupported | shortRead
  deriving DecidableEq, Repr

/-- What is found under a name in a directory. -/
structure DirEntry where
  accessible : Bool
  isReg : Bool
  stSize : ℕ
  opens : Bool
  content : List Byte

/-- What `opendir` finds: an error, a file with its content, if it can be opened, or a
directory. -/
inductive ExtrasSource where
  | missing
  | file (content : Option (List Byte))
  | directory (entries : List DirEntry)

/-- The loop over the entries of a directory. -/
def loadEntries : List DirEntry → List Token → Except ExtrasFatal (List Token)
  | [], extras => pure extras
  | de :: entries, extras =>
      if !de.accessible then .error .unableToAccess
      else if !de.isReg || de.stSize = 0 then loadEntries entries extras
      else if MAX_DICT_FILE < de.stSize then loadEntries entries extras
      else if !de.opens then .error .unableToOpen
      else if de.content.length < de.stSize then .error .shortRead
      else loadEntries entries (extras ++ [de.content.take de.stSize])

/-- `load_extras`. A level stands after an `@` in the argument. -/
def loadExtras (Q : Qsort) (opendir : List Byte → ExtrasSource) (dir : List Byte)
    (extras : List Token) : Except ExtrasFatal (List Token) :=
  let x := dir.dropWhile fun b => b ≠ ord '@'
  let dictLevel := if x = [] then 0 else atoi x.tail
  match opendir (dir.takeWhile fun b => b ≠ ord '@') with
  | .missing => .error .unableToOpen
  | .file none => .error .unableToOpen
  | .file (some content) =>
      pure (extrasCheckAndSort Q
        (loadExtrasFile dictLevel ⟨extras, MAX_DICT_FILE, 0⟩ content).extras)
  | .directory entries =>
      if x ≠ [] then .error .levelsNotSupported
      else (loadEntries entries extras).map (extrasCheckAndSort Q)

/-! ## Adding -/

/-- The loop of `add_extra` over the tokens, with `found`: whether it returns. -/
def hasExtra (mem : Token) : Bool → List Token → Bool
  | _, [] => false
  | found, extra :: extras =>
      if extra.length = mem.length then
        if extra = mem then true else hasExtra mem true extras
      else if found then false
      else hasExtra mem found extras

/-- `add_extra`. -/
def addExtra (Q : Qsort) (mem : Token) (extras : List Token) : List Token :=
  if hasExtra mem false extras then extras
  else if MAX_DICT_FILE < mem.length then extras
  else Q.sort compareExtrasLen (addExtraNocheck extras mem)

/-! ## Removing duplicates -/

/-- The inner loop of `dedup_extras` from the label `restart_dedup`. A token that is equal to the
first is removed, and the next one stands at its place. -/
def restartDedup (i j : ℕ) (extras : List Token) : List Token :=
  if extras.length ≤ j ∨ (extras.getD i []).length ≠ (extras.getD j []).length then extras
  else if extras.getD i [] = extras.getD j [] then restartDedup i j (extras.eraseIdx j)
  else restartDedup i (j + 1) extras
termination_by extras.length - j
decreasing_by
  · rename_i inside _
    rw [List.length_eraseIdx_of_lt (not_le.mp fun outside => inside (Or.inl outside))]
    omega
  · rename_i inside _
    exact Nat.sub_lt_sub_left (not_le.mp fun outside => inside (Or.inl outside))
      (Nat.lt_succ_self j)

theorem length_restartDedup_le (i j : ℕ) (extras : List Token) :
    (restartDedup i j extras).length ≤ extras.length := by
  fun_induction restartDedup i j extras with
  | case1 => exact le_rfl
  | case2 j extras _ _ ih => exact ih.trans (List.length_eraseIdx_le _ _)
  | case3 j extras _ _ ih => exact ih

/-- The outer loop of `dedup_extras`. -/
def dedupFrom (i : ℕ) (extras : List Token) : List Token :=
  if i < extras.length - 1 then dedupFrom (i + 1) (restartDedup i (i + 1) extras) else extras
termination_by extras.length - i
decreasing_by
  have := length_restartDedup_le i (i + 1) extras
  omega

/-- `dedup_extras`. -/
def dedupExtras (extras : List Token) : List Token :=
  if extras.length < 2 then extras else dedupFrom 0 extras

/-! ## Lists without duplicates -/

section EraseDups

variable {α : Type} [BEq α] [LawfulBEq α]

omit [LawfulBEq α] in
theorem eraseDups_sublist (l : List α) : l.eraseDups.Sublist l := by
  induction length : l.length using Nat.strong_induction_on generalizing l with
  | _ n ih =>
      cases l with
      | nil => exact List.Sublist.slnil
      | cons a l =>
          rw [List.eraseDups_cons]
          have shorter : (l.filter fun b => !b == a).length < n := by
            rw [← length, List.length_cons]
            exact Nat.lt_succ_of_le (List.length_filter_le _ l)
          exact ((ih _ shorter _ rfl).trans List.filter_sublist).cons_cons a

theorem nodup_eraseDups (l : List α) : l.eraseDups.Nodup := by
  induction length : l.length using Nat.strong_induction_on generalizing l with
  | _ n ih =>
      cases l with
      | nil => exact List.nodup_nil
      | cons a l =>
          rw [List.eraseDups_cons, List.nodup_cons, List.mem_eraseDups]
          have shorter : (l.filter fun b => !b == a).length < n := by
            rw [← length, List.length_cons]
            exact Nat.lt_succ_of_le (List.length_filter_le _ l)
          exact ⟨by simp, ih _ shorter _ rfl⟩

end EraseDups

/-! ## The walk -/

variable {extras front rest : List Token} {mem token : Token}

/-- The token at an index is the first of those from it on. -/
theorem drop_eq_getD_cons {j : ℕ} (inside : j < extras.length) :
    extras.drop j = extras.getD j [] :: extras.drop (j + 1) := by
  rw [List.drop_eq_getElem_cons inside, List.getD_eq_getElem _ _ inside]

/-- A longer token is followed by tokens that are longer too. -/
theorem length_lt_of_mem_drop (sorted : SortedByLength extras) {i j : ℕ} (ahead : i < j)
    (inside : j < extras.length)
    (differ : (extras.getD i []).length ≠ (extras.getD j []).length)
    (member : token ∈ extras.drop j) : (extras.getD i []).length < token.length := by
  have order := List.pairwise_iff_getElem.mp sorted
  have first := order i j (ahead.trans inside) inside ahead
  rw [List.getD_eq_getElem _ _ (ahead.trans inside), List.getD_eq_getElem _ _ inside] at differ
  rw [List.getD_eq_getElem _ _ (ahead.trans inside)]
  refine (lt_of_le_of_ne first differ).trans_le ?_
  obtain ⟨k, below, rfl⟩ := List.mem_iff_getElem.mp member
  rw [List.getElem_drop]
  rcases Nat.eq_zero_or_pos k with rfl | behind
  · exact le_rfl
  · exact order j (j + k) inside _ (by omega)

/-- The inner loop removes what is equal to the first token, since what is longer is not. -/
theorem restartDedup_eq (sorted : SortedByLength extras) {i j : ℕ} (ahead : i < j) :
    restartDedup i j extras =
      extras.take j ++ (extras.drop j).filter fun token => !token == extras.getD i [] := by
  fun_induction restartDedup i j extras with
  | case1 j extras stops =>
      have kept : (extras.drop j).filter (fun token => !token == extras.getD i []) =
          extras.drop j := by
        refine List.filter_eq_self.mpr fun token member => ?_
        rw [Bool.not_eq_true', beq_eq_false_iff_ne]
        rintro rfl
        have inside : j < extras.length := by
          by_contra outside
          rw [List.drop_of_length_le (not_lt.mp outside)] at member
          cases member
        exact (length_lt_of_mem_drop sorted ahead inside
          (stops.resolve_left (not_le.mpr inside)) member).ne rfl
      rw [kept, List.take_append_drop]
  | case2 j extras continues same ih =>
      have inside : j < extras.length := not_le.mp fun outside => continues (Or.inl outside)
      have erased := List.eraseIdx_eq_take_drop_succ extras j
      have front : (extras.take j).length = j := by
        rw [List.length_take, min_eq_left inside.le]
      have taken : (extras.eraseIdx j).take j = extras.take j := by
        rw [erased, List.take_left' front]
      have dropped : (extras.eraseIdx j).drop j = extras.drop (j + 1) := by
        rw [erased, List.drop_left' front]
      have first : (extras.eraseIdx j).getD i [] = extras.getD i [] := by
        rw [erased, List.getD_append _ _ _ _ (by rwa [front]), List.getD_eq_getElem?_getD,
          List.getElem?_take_of_lt ahead, List.getD_eq_getElem?_getD]
      rw [ih (sorted.sublist (List.eraseIdx_sublist extras j)) ahead, taken, dropped, first,
        drop_eq_getD_cons inside, List.filter_cons_of_neg (by rw [same, beq_self_eq_true]; decide)]
  | case3 j extras continues differ ih =>
      have inside : j < extras.length := not_le.mp fun outside => continues (Or.inl outside)
      have taken : extras.take (j + 1) = extras.take j ++ [extras.getD j []] := by
        rw [List.take_add_one, List.getElem?_eq_getElem inside, List.getD_eq_getElem _ _ inside,
          Option.toList_some]
      rw [ih sorted (ahead.trans (Nat.lt_succ_self j)), taken, drop_eq_getD_cons inside,
        List.filter_cons_of_pos (by simpa using Ne.symm differ), List.append_assoc]
      rfl

/-- The outer loop, after its first rounds. -/
theorem dedupFrom_eq (sorted : SortedByLength (front ++ rest)) :
    dedupFrom front.length (front ++ rest) = front ++ rest.eraseDups := by
  induction length : rest.length using Nat.strong_induction_on generalizing front rest with
  | _ n ih =>
      cases rest with
      | nil =>
          rw [dedupFrom, if_neg (by simp), List.eraseDups_nil]
      | cons token rest =>
          have first : (front ++ token :: rest).getD front.length [] = token := by
            rw [List.getD_eq_getElem?_getD, List.getElem?_append_right le_rfl, Nat.sub_self]
            rfl
          have shape : front ++ token :: rest = (front ++ [token]) ++ rest :=
            (List.append_cons front token rest)
          have front_length : (front ++ [token]).length = front.length + 1 := by
            rw [List.length_append, List.length_singleton]
          have shorter : (rest.filter fun b => !b == token).length < n := by
            rw [← length, List.length_cons]
            exact Nat.lt_succ_of_le (List.length_filter_le _ rest)
          rw [dedupFrom]
          split
          · rw [restartDedup_eq sorted (Nat.lt_succ_self _), first, shape,
              List.take_left' front_length, List.drop_left' front_length, ← front_length,
              ih _ shorter ?_ rfl, List.eraseDups_cons, List.append_assoc]
            · rfl
            · rw [shape] at sorted
              exact sorted.sublist (List.filter_sublist.append_left _)
          · rename_i last
            rw [List.length_append, List.length_cons] at last
            obtain rfl : rest = [] := List.eq_nil_of_length_eq_zero (by omega)
            rfl

/-- **On a sorted array the walk leaves the list without later duplicates.** -/
theorem dedupExtras_eq (sorted : SortedByLength extras) :
    dedupExtras extras = extras.eraseDups := by
  rw [dedupExtras]
  split
  · rename_i short
    match extras, short with
    | [], _ => rfl
    | [token], _ => rfl
  · exact @dedupFrom_eq [] extras sorted

/-- **`dedup_extras` on a sorted array** leaves the tokens that were there, each once and in their
order. -/
theorem dedupExtras_spec (sorted : SortedByLength extras) :
    (∀ token, token ∈ dedupExtras extras ↔ token ∈ extras) ∧ (dedupExtras extras).Nodup ∧
      (dedupExtras extras).Sublist extras := by
  rw [dedupExtras_eq sorted]
  exact ⟨fun token => List.mem_eraseDups, nodup_eraseDups extras, eraseDups_sublist extras⟩

/-! ## Order -/

/-- The tokens that the producers let through. -/
def Bounded (extras : List Token) : Prop := ∀ token ∈ extras, token.length ≤ MAX_DICT_FILE

/-- The comparison of tokens whose lengths are no negative numbers as an `int`. -/
theorem compareExtrasLen_eq (small : ∀ token ∈ extras, token.length < 2 ^ 31) :
    ∀ e1 ∈ extras, ∀ e2 ∈ extras,
      compareExtrasLen e1 e2 = (e1.length : ℤ) - (e2.length : ℤ) :=
  fun e1 left e2 right => intDifference_of_lt (small e1 left) (small e2 right)

variable (Q : Qsort)

theorem sortedByLength_sort (small : ∀ token ∈ extras, token.length < 2 ^ 31) :
    SortedByLength (Q.sort compareExtrasLen extras) :=
  (Q.sorted_key (compareExtrasLen_eq small)).imp fun ordered => by omega

theorem perm_sort (small : ∀ token ∈ extras, token.length < 2 ^ 31) :
    (Q.sort compareExtrasLen extras).Perm extras :=
  Q.perm (.of_key (compareExtrasLen_eq small))

theorem Bounded.small (bounded : Bounded extras) : ∀ token ∈ extras, token.length < 2 ^ 31 :=
  fun token member => (bounded token member).trans_lt (by decide)

theorem Bounded.append (bounded : Bounded extras) (short : token.length ≤ MAX_DICT_FILE) :
    Bounded (extras ++ [token]) :=
  List.forall_mem_append.mpr ⟨bounded, List.forall_mem_singleton.mpr short⟩

/-- A dictionary in order: sorted, with tokens that the producers let through. -/
structure InOrder (extras : List Token) : Prop where
  sorted : SortedByLength extras
  bounded : Bounded extras

theorem Bounded.sort (bounded : Bounded extras) : InOrder (Q.sort compareExtrasLen extras) where
  sorted := sortedByLength_sort Q bounded.small
  bounded := fun token member => bounded token ((perm_sort Q bounded.small).mem_iff.mp member)

theorem Bounded.extrasCheckAndSort (bounded : Bounded extras) :
    InOrder (extrasCheckAndSort Q extras) := by
  rw [AflFuzz.extrasCheckAndSort]
  split
  · rename_i empty
    rw [empty]
    exact ⟨.nil, nofun⟩
  · exact bounded.sort Q

/-- A line adds no token above the limit. -/
theorem Bounded.loadLine {s : ExtrasState} (bounded : Bounded s.extras) (dictLevel : ℤ)
    (buf : List Byte) : Bounded (loadLine dictLevel s buf).extras := by
  rw [AflFuzz.loadLine]
  cases quotedText dictLevel (buf.takeWhile fun b => b ≠ 0) with
  | none => exact bounded
  | some text =>
      by_cases long : MAX_DICT_FILE < (decodeKeyword text).length
      · simp only [if_pos long]
        exact bounded
      · simp only [if_neg long]
        exact bounded.append (not_lt.mp long)

theorem Bounded.loadExtrasFile {s : ExtrasState} (bounded : Bounded s.extras) (dictLevel : ℤ)
    (file : List Byte) : Bounded (loadExtrasFile dictLevel s file).extras :=
  foldl_invariant (P := fun s : ExtrasState => Bounded s.extras) bounded
    fun buf _ _ held => Bounded.loadLine held dictLevel buf

/-- A directory adds no token above the limit. -/
theorem Bounded.loadEntries {entries : List DirEntry} {after : List Token}
    (bounded : Bounded extras) (loaded : loadEntries entries extras = .ok after) :
    Bounded after := by
  induction entries generalizing extras with
  | nil =>
      cases loaded
      exact bounded
  | cons de entries ih =>
      rw [AflFuzz.loadEntries] at loaded
      split at loaded
      · cases loaded
      split at loaded
      · exact ih bounded loaded
      split at loaded
      · exact ih bounded loaded
      split at loaded
      · cases loaded
      split at loaded
      · cases loaded
      · rename_i small _ _
        refine ih (bounded.append ?_) loaded
        exact (List.length_take_le _ _).trans (not_lt.mp small)

/-- **`load_extras` leaves the dictionary in order**, if it does not end the fuzzer. -/
theorem Bounded.loadExtras {opendir : List Byte → ExtrasSource} {dir : List Byte}
    {after : List Token} (bounded : Bounded extras)
    (loaded : loadExtras Q opendir dir extras = .ok after) : InOrder after := by
  rw [AflFuzz.loadExtras] at loaded
  split at loaded
  · cases loaded
  · cases loaded
  · cases loaded
    exact Bounded.extrasCheckAndSort Q (Bounded.loadExtrasFile bounded _ _)
  · split at loaded
    · cases loaded
    · rename_i entries _ _
      cases read : AflFuzz.loadEntries entries extras with
      | error fatal =>
          rw [read] at loaded
          cases loaded
      | ok tokens =>
          rw [read] at loaded
          cases loaded
          exact (bounded.loadEntries read).extrasCheckAndSort Q

/-- **`add_extra` keeps the dictionary in order.** -/
theorem InOrder.addExtra (held : InOrder extras) (mem : Token) :
    InOrder (addExtra Q mem extras) := by
  rw [AflFuzz.addExtra]
  split
  · exact held
  split
  · exact held
  · rename_i short
    exact (held.bounded.append (not_lt.mp short)).sort Q

/-- **`dedup_extras` keeps the dictionary in order.** -/
theorem InOrder.dedupExtras (held : InOrder extras) : InOrder (dedupExtras extras) := by
  obtain ⟨same, -, sublist⟩ := dedupExtras_spec held.sorted
  exact ⟨held.sorted.sublist sublist, fun token member =>
    held.bounded token ((same token).mp member)⟩

end GreenFuzz.AflFuzz
