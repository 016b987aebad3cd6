import GreenFuzz.AflFuzz.AliasStacks
import GreenFuzz.Library.FallibleLoops

/-!
# The alias table under any rounding

The loops of `create_alias_table` once more, now with numbers of any kind: a type with any
comparison and any subtraction, so that a test `< 1` may come out either way, as it may for
rounded numbers or for one that is not a number. All accesses to the arrays of `n` cells are
checked, and the loops fail if they do not end. The slots that get a probability are recorded.

With exact rationals, these are the loops of `buildTable` (`buildTable_of_exact`).
-/

set_option autoImplicit false

namespace GreenFuzz.AflFuzz

open Library

/-- Numbers as the loops use them. -/
structure Doubles (F : Type) where
  zero : F
  one : F
  lt : F → F → Bool
  sub : F → F → F

/-- Exact arithmetic. -/
def exactDoubles : Doubles ℚ := ⟨0, 1, fun x y => x < y, fun x y => x - y⟩

/-- The arrays and counters, and the slots that were given a probability. -/
structure AliasCells (F : Type) where
  P : ℕ → F
  small : ℕ → ℕ := fun _ => 0
  large : ℕ → ℕ := fun _ => 0
  nSmall : ℕ := 0
  nLarge : ℕ
  aliasProbability : ℕ → F
  aliasTable : ℕ → ℕ
  settled : List ℕ := []

namespace AliasCells

variable {F : Type} (ops : Doubles F) (n : ℕ)

/-- Put an index on the stack it belongs to. -/
def push (w : AliasCells F) (j : ℕ) : Option (AliasCells F) := do
  let p ← readCell n w.P j
  if ops.lt p ops.one then
    let small ← writeCell n w.small w.nSmall j
    return { w with small, nSmall := u32 (w.nSmall + 1) }
  else
    let large ← writeCell n w.large w.nLarge j
    return { w with large, nLarge := u32Pred w.nLarge }

/-- The loop over `s32 j`, from `(s32)(n - 1)` down to 0. -/
def partitionEntries (w : AliasCells F) : Option (AliasCells F) :=
  (List.range (if u32Pred n < 2 ^ 31 then n else 0)).reverse.foldlM (push ops n) w

/-- Fill the slot of the top small index with the top large index. -/
def fillSlot (w : AliasCells F) : Option (AliasCells F) := do
  let nSmall := u32Pred w.nSmall
  let small ← readCell n w.small nSmall
  let nLarge := u32 (w.nLarge + 1)
  let large ← readCell n w.large nLarge
  let p ← readCell n w.P small
  let aliasProbability ← writeCell n w.aliasProbability small p
  let aliasTable ← writeCell n w.aliasTable small large
  let q ← readCell n w.P large
  let P ← writeCell n w.P large (ops.sub q (ops.sub ops.one p))
  push ops n { w with
    P, nSmall, nLarge, aliasProbability, aliasTable, settled := small :: w.settled } large

def fillSlots (w : AliasCells F) : Option (AliasCells F) :=
  whileSome (fun w => w.nSmall ≠ 0 ∧ w.nLarge ≠ u32Pred n) (fillSlot ops n) n w

/-- `afl->alias_probability[Small[--nSmall]] = 1`. -/
def certainSmall (w : AliasCells F) : Option (AliasCells F) := do
  let nSmall := u32Pred w.nSmall
  let small ← readCell n w.small nSmall
  let aliasProbability ← writeCell n w.aliasProbability small ops.one
  return { w with nSmall, aliasProbability, settled := small :: w.settled }

/-- `afl->alias_probability[Large[++nLarge]] = 1`. -/
def certainLarge (w : AliasCells F) : Option (AliasCells F) := do
  let nLarge := u32 (w.nLarge + 1)
  let large ← readCell n w.large nLarge
  let aliasProbability ← writeCell n w.aliasProbability large ops.one
  return { w with nLarge, aliasProbability, settled := large :: w.settled }

/-- The two left-over loops. -/
def finish (w : AliasCells F) : Option (AliasCells F) := do
  let w ← whileSome (fun w => w.nSmall ≠ 0) (certainSmall ops n) n w
  whileSome (fun w => w.nLarge ≠ u32Pred n) (certainLarge ops n) n w

/-- The arrays before the loops. -/
def start (P prob : ℕ → F) (table : ℕ → ℕ) : AliasCells F where
  P := P
  nLarge := u32Pred n
  aliasProbability := fun i => if i < n then ops.zero else prob i
  aliasTable := fun i => if i < n then 0 else table i

/-- The loops of `create_alias_table`. -/
def build (w : AliasCells F) : Option (AliasCells F) := do
  let w ← partitionEntries ops n w
  let w ← fillSlots ops n w
  finish ops n w

/-! ## What the loops keep -/

/-- The indices in `seen` are those on the two stacks and those settled, `larges` of them on the
high stack. All are indices of the arrays, and so are the aliases. -/
structure Held (n : ℕ) (seen : List ℕ) (w : AliasCells F) (larges : ℕ) : Prop where
  nLarge_eq : w.nLarge = u32Pred (n - larges)
  all : (lowStack w.small w.nSmall ++ highStack w.large n larges ++ w.settled).Perm seen
  inside : ∀ j ∈ seen, j < n
  room : seen.length ≤ n
  targets : ∀ i < n, w.aliasTable i < n

variable (ops : Doubles F) {n : ℕ} {w : AliasCells F} {seen : List ℕ} {larges : ℕ}

section Held

variable (fits : n < 2 ^ 32) (held : Held n seen w larges)

include fits held

omit fits in
theorem Held.count : w.nSmall + larges + w.settled.length = seen.length := by
  have length := held.all.length_eq
  rwa [List.length_append, List.length_append, length_lowStack, length_highStack] at length

omit fits in
theorem Held.perm {seen' : List ℕ} (same : seen.Perm seen') : Held n seen' w larges :=
  { held with
    all := held.all.trans same
    inside := fun j member => held.inside j (same.mem_iff.mpr member)
    room := same.length_eq ▸ held.room }

theorem Held.pushSmall (room : seen.length < n) {j : ℕ} (new : j < n) :
    Held n (j :: seen) { w with
      small := Function.update w.small w.nSmall j
      nSmall := u32 (w.nSmall + 1) } larges where
  nLarge_eq := held.nLarge_eq
  all := by
    have count := held.count
    dsimp only
    rw [u32_of_lt (by omega), lowStack_push, List.append_assoc, List.append_assoc]
    exact List.perm_middle.trans ((List.append_assoc _ _ _ ▸ held.all).cons j)
  inside := List.forall_mem_cons.mpr ⟨new, held.inside⟩
  room := room
  targets := held.targets

theorem Held.pushLarge (room : seen.length < n) {j : ℕ} (new : j < n) :
    Held n (j :: seen) { w with
      large := Function.update w.large w.nLarge j
      nLarge := u32Pred w.nLarge } (larges + 1) where
  nLarge_eq := by
    have count := held.count
    have step : n - larges = n - (larges + 1) + 1 := by omega
    dsimp only
    rw [held.nLarge_eq, step, u32Pred_succ (by omega)]
  all := by
    have count := held.count
    have step : n - larges = n - (larges + 1) + 1 := by omega
    have cell : w.nLarge = n - (larges + 1) := by
      rw [held.nLarge_eq, step, u32Pred_succ (by omega)]
    dsimp only
    rw [cell, highStack_push (by omega), List.append_assoc, List.cons_append]
    exact List.perm_middle.trans ((List.append_assoc _ _ _ ▸ held.all).cons j)
  inside := List.forall_mem_cons.mpr ⟨new, held.inside⟩
  room := room
  targets := held.targets

/-- The step lemma of a push: there is room for the index, whatever the test says. -/
theorem Held.push (room : seen.length < n) {j : ℕ} (new : j < n) :
    ∃ w' larges', AliasCells.push ops n w j = some w' ∧ Held n (j :: seen) w' larges' ∧
      w'.settled = w.settled := by
  have count := held.count
  unfold AliasCells.push
  rw [readCell_of_lt new, Option.bind_eq_bind, Option.bind_some]
  split
  · rw [writeCell_of_lt (by omega)]
    exact ⟨_, larges, rfl, held.pushSmall fits room new, rfl⟩
  · have cell : w.nLarge < n := by
      rw [held.nLarge_eq, u32Pred_eq_sub (by omega) (by omega)]
      omega
    rw [writeCell_of_lt cell]
    exact ⟨_, larges + 1, rfl, held.pushLarge fits room new, rfl⟩

theorem Held.popSmall (some_small : w.nSmall ≠ 0) :
    ∃ rest, u32Pred w.nSmall < n ∧ w.small (u32Pred w.nSmall) < n ∧
      Held n rest { w with nSmall := u32Pred w.nSmall } larges ∧
      (w.small (u32Pred w.nSmall) :: rest).Perm seen := by
  have count := held.count
  have room := held.room
  obtain ⟨k, shape⟩ := Nat.exists_eq_succ_of_ne_zero some_small
  have cell : u32Pred w.nSmall = k := by
    rw [shape, Nat.succ_eq_add_one, u32Pred_succ (by omega)]
  have all := held.all
  rw [shape, Nat.succ_eq_add_one, lowStack_succ, List.append_assoc, List.append_assoc,
    List.singleton_append] at all
  have split := List.perm_middle.symm.trans all
  rw [cell]
  refine ⟨lowStack w.small k ++ (highStack w.large n larges ++ w.settled), by omega,
    held.inside _ (split.mem_iff.mp List.mem_cons_self), ?_, split⟩
  have shorter := split.length_eq
  rw [List.length_cons] at shorter
  exact
    { nLarge_eq := held.nLarge_eq
      all := by rw [List.append_assoc]
      inside := fun j member => held.inside j (split.mem_iff.mp (List.mem_cons_of_mem _ member))
      room := by omega
      targets := held.targets }

theorem Held.popLarge (some_large : w.nLarge ≠ u32Pred n) :
    ∃ rest, u32 (w.nLarge + 1) < n ∧ w.large (u32 (w.nLarge + 1)) < n ∧
      Held n rest { w with nLarge := u32 (w.nLarge + 1) } (larges - 1) ∧
      (w.large (u32 (w.nLarge + 1)) :: rest).Perm seen := by
  have count := held.count
  have room := held.room
  have positive : larges ≠ 0 := by
    intro none_left
    rw [held.nLarge_eq, none_left] at some_large
    exact some_large rfl
  obtain ⟨l, shape⟩ := Nat.exists_eq_succ_of_ne_zero positive
  subst shape
  rw [Nat.succ_eq_add_one] at count
  have cell : u32 (w.nLarge + 1) = n - (l + 1) := by
    rw [held.nLarge_eq, Nat.succ_eq_add_one, u32_u32Pred (by omega)]
  have all := held.all
  rw [Nat.succ_eq_add_one, highStack_succ (by omega), List.append_assoc, List.cons_append] at all
  have split := List.perm_middle.symm.trans all
  rw [cell]
  refine ⟨lowStack w.small w.nSmall ++ (highStack w.large n l ++ w.settled), by omega,
    held.inside _ (split.mem_iff.mp List.mem_cons_self), ?_, split⟩
  have shorter := split.length_eq
  rw [List.length_cons] at shorter
  have step : n - l = n - (l + 1) + 1 := by omega
  exact
    { nLarge_eq := by rw [Nat.succ_sub_one, step, u32Pred_succ (by omega)]
      all := by rw [Nat.succ_sub_one, List.append_assoc]
      inside := fun j member => held.inside j (split.mem_iff.mp (List.mem_cons_of_mem _ member))
      room := by omega
      targets := held.targets }

omit fits in
/-- A slot gets its probability. -/
theorem Held.settle {j : ℕ} (new : j < n) (room : seen.length < n) (P prob : ℕ → F) {table : ℕ → ℕ}
    (targets : ∀ i < n, table i < n) :
    Held n (j :: seen) { w with
      P, aliasProbability := prob, aliasTable := table, settled := j :: w.settled } larges where
  nLarge_eq := held.nLarge_eq
  all := List.perm_middle.trans (held.all.cons j)
  inside := List.forall_mem_cons.mpr ⟨new, held.inside⟩
  room := room
  targets := targets

/-! ## The loops -/

/-- The run lemma of the partition. -/
theorem Held.pushAll (items : List ℕ) (room : seen.length + items.length ≤ n)
    (inside : ∀ j ∈ items, j < n) :
    ∃ w' larges', items.foldlM (AliasCells.push ops n) w = some w' ∧
      Held n (items.reverse ++ seen) w' larges' ∧ w'.settled = w.settled := by
  induction items generalizing w seen larges with
  | nil => exact ⟨w, larges, rfl, held, rfl⟩
  | cons j items ih =>
      rw [List.length_cons] at room
      obtain ⟨new, others⟩ := List.forall_mem_cons.mp inside
      obtain ⟨w₁, larges₁, pushed, held₁, same⟩ := held.push ops fits (by omega) new
      obtain ⟨w₂, larges₂, rest, held₂, same'⟩ :=
        ih held₁ (by rw [List.length_cons]; omega) others
      refine ⟨w₂, larges₂, ?_, ?_, same'.trans same⟩
      · rw [List.foldlM_cons, pushed, Option.bind_eq_bind, Option.bind_some, rest]
      · rwa [List.reverse_cons, List.append_assoc, List.singleton_append]

/-- The step lemma of the main loop: a slot is settled, and the large index goes back to one of
the stacks. -/
theorem Held.fillSlot (some_small : w.nSmall ≠ 0) (some_large : w.nLarge ≠ u32Pred n) :
    ∃ w' larges', AliasCells.fillSlot ops n w = some w' ∧ Held n seen w' larges' ∧
      w'.settled.length = w.settled.length + 1 := by
  obtain ⟨rest, cell, small_inside, lower, split⟩ := held.popSmall fits some_small
  obtain ⟨rest', cell', large_inside, lower', split'⟩ := lower.popLarge fits some_large
  dsimp only at cell' large_inside split'
  have shorter := split.length_eq
  have shorter' := split'.length_eq
  rw [List.length_cons] at shorter shorter'
  have room := held.room
  unfold AliasCells.fillSlot
  simp only [readCell_of_lt cell, readCell_of_lt cell', readCell_of_lt small_inside,
    readCell_of_lt large_inside, writeCell_of_lt small_inside, writeCell_of_lt large_inside,
    Option.bind_eq_bind, Option.bind_some]
  set small := w.small (u32Pred w.nSmall)
  set large := w.large (u32 (w.nLarge + 1))
  have targets : ∀ i < n, Function.update w.aliasTable small large i < n := by
    intro i below
    by_cases here : i = small
    · rw [here, Function.update_self]
      exact large_inside
    · rw [Function.update_of_ne here]
      exact held.targets i below
  have settled := lower'.settle small_inside (by omega)
    (Function.update w.P large (ops.sub (w.P large) (ops.sub ops.one (w.P small))))
    (Function.update w.aliasProbability small (w.P small)) targets
  obtain ⟨w', larges', pushed, held', same⟩ :=
    settled.push ops fits (by rw [List.length_cons]; omega) large_inside
  refine ⟨w', larges', pushed, held'.perm ?_, ?_⟩
  · exact ((List.Perm.swap small large rest').trans (split'.cons small)).trans split
  · rw [same, List.length_cons]

/-- How many slots have no probability yet. -/
def unsettled (n : ℕ) (w : AliasCells F) : ℕ := n - w.settled.length

omit fits held in
theorem Held.unsettled_lt {w' : AliasCells F} {larges' : ℕ} (held' : Held n seen w' larges')
    (more : w'.settled.length = w.settled.length + 1) : unsettled n w' < unsettled n w := by
  have count := held'.count
  have room := held'.room
  unfold unsettled
  omega

theorem Held.fillSlots :
    ∃ w' larges', AliasCells.fillSlots ops n w = some w' ∧ Held n seen w' larges' := by
  have round (w : AliasCells F) (held : ∃ larges, Held n seen w larges)
      (runs : w.nSmall ≠ 0 ∧ w.nLarge ≠ u32Pred n) :
      ∃ w', AliasCells.fillSlot ops n w = some w' ∧ (∃ larges, Held n seen w' larges) ∧
        unsettled n w' < unsettled n w := by
    obtain ⟨larges, held⟩ := held
    obtain ⟨w', larges', filled, held', more⟩ := held.fillSlot ops fits runs.1 runs.2
    exact ⟨w', filled, ⟨larges', held'⟩, held'.unsettled_lt more⟩
  obtain ⟨w', done, ⟨larges', held'⟩, -⟩ :=
    whileSome_invariant round ⟨larges, held⟩ (Nat.sub_le n _)
  exact ⟨w', larges', done, held'⟩

theorem Held.certainSmall (some_small : w.nSmall ≠ 0) :
    ∃ w', AliasCells.certainSmall ops n w = some w' ∧ Held n seen w' larges ∧
      w'.settled.length = w.settled.length + 1 := by
  obtain ⟨rest, cell, inside, lower, split⟩ := held.popSmall fits some_small
  have shorter := split.length_eq
  rw [List.length_cons] at shorter
  have room := held.room
  unfold AliasCells.certainSmall
  simp only [readCell_of_lt cell, writeCell_of_lt inside, Option.bind_eq_bind, Option.bind_some]
  exact ⟨_, rfl, (lower.settle inside (by omega) _ _ held.targets).perm split, rfl⟩

theorem Held.certainLarge (some_large : w.nLarge ≠ u32Pred n) :
    ∃ w', AliasCells.certainLarge ops n w = some w' ∧ Held n seen w' (larges - 1) ∧
      w'.settled.length = w.settled.length + 1 ∧ w'.nSmall = w.nSmall := by
  obtain ⟨rest, cell, inside, lower, split⟩ := held.popLarge fits some_large
  have shorter := split.length_eq
  rw [List.length_cons] at shorter
  have room := held.room
  unfold AliasCells.certainLarge
  simp only [readCell_of_lt cell, writeCell_of_lt inside, Option.bind_eq_bind, Option.bind_some]
  exact ⟨_, rfl, (lower.settle inside (by omega) _ _ held.targets).perm split, rfl, rfl⟩

/-- Both stacks are empty in the end. -/
theorem Held.finish :
    ∃ w', AliasCells.finish ops n w = some w' ∧ w'.settled.Perm seen ∧
      ∀ i < n, w'.aliasTable i < n := by
  have small_round (w : AliasCells F) (held : ∃ larges, Held n seen w larges)
    (runs : w.nSmall ≠ 0) :
      ∃ w', AliasCells.certainSmall ops n w = some w' ∧ (∃ larges, Held n seen w' larges) ∧
        unsettled n w' < unsettled n w := by
    obtain ⟨larges, held⟩ := held
    obtain ⟨w', popped, held', more⟩ := held.certainSmall ops fits runs
    exact ⟨w', popped, ⟨larges, held'⟩, held'.unsettled_lt more⟩
  have large_round (w : AliasCells F) (held : (∃ larges, Held n seen w larges) ∧ w.nSmall = 0)
      (runs : w.nLarge ≠ u32Pred n) :
      ∃ w', AliasCells.certainLarge ops n w = some w' ∧
        ((∃ larges, Held n seen w' larges) ∧ w'.nSmall = 0) ∧
          unsettled n w' < unsettled n w := by
    obtain ⟨⟨larges, held⟩, no_small⟩ := held
    obtain ⟨w', popped, held', more, same⟩ := held.certainLarge ops fits runs
    exact ⟨w', popped, ⟨⟨_, held'⟩, same.trans no_small⟩, held'.unsettled_lt more⟩
  obtain ⟨w₁, done₁, ⟨larges₁, held₁⟩, no_small⟩ :=
    whileSome_invariant small_round ⟨larges, held⟩ (Nat.sub_le n _)
  obtain ⟨w₂, done₂, ⟨⟨larges₂, held₂⟩, none_small⟩, no_large⟩ :=
    whileSome_invariant large_round ⟨⟨larges₁, held₁⟩, not_not.mp no_small⟩ (Nat.sub_le n _)
  refine ⟨w₂, ?_, ?_, held₂.targets⟩
  · unfold AliasCells.finish
    rw [done₁, Option.bind_eq_bind, Option.bind_some, done₂]
  · have count := held₂.count
    have room := held₂.room
    have none_large : larges₂ = 0 := by
      have same := held₂.nLarge_eq.symm.trans (not_not.mp no_large)
      rw [u32Pred_inj (by omega) fits] at same
      omega
    have all := held₂.all
    rwa [none_small, none_large, lowStack, highStack, List.range_zero, List.range'_zero,
      List.map_nil, List.map_nil, List.nil_append, List.nil_append] at all

end Held

/-! ## The whole table -/

theorem start_held (P prob : ℕ → F) (table : ℕ → ℕ) : Held n [] (start ops n P prob table) 0 where
  nLarge_eq := rfl
  all := List.Perm.refl _
  inside := nofun
  room := Nat.zero_le n
  targets i below := by
    unfold start
    exact (if_pos below).trans_lt (Nat.zero_lt_of_lt below)

/-- The indices that the partition looks at. -/
def partitioned (n : ℕ) : List ℕ := List.range (if u32Pred n < 2 ^ 31 then n else 0)

/-- Whatever the tests say, no access is out of bounds, the loops end, the aliases are indices,
and each partitioned index is settled once. -/
theorem build_total (fits : n < 2 ^ 32) (P prob : ℕ → F) (table : ℕ → ℕ) :
    ∃ w, build ops n (start ops n P prob table) = some w ∧ w.settled.Perm (partitioned n) ∧
      ∀ i < n, w.aliasTable i < n := by
  have inside : ∀ j ∈ (partitioned n).reverse, j < n := by
    intro j member
    rw [List.mem_reverse, partitioned, List.mem_range] at member
    split at member <;> omega
  have room : (partitioned n).length ≤ n := by
    rw [partitioned, List.length_range]
    split <;> omega
  obtain ⟨w₁, larges₁, pushed, held₁, -⟩ :=
    (start_held ops P prob table).pushAll ops fits (partitioned n).reverse
      (by simpa using room) inside
  obtain ⟨w₂, larges₂, filled, held₂⟩ := held₁.fillSlots ops fits
  obtain ⟨w₃, finished, settled, targets⟩ := held₂.finish ops fits
  refine ⟨w₃, ?_, ?_, targets⟩
  · unfold build partitionEntries
    rw [Option.bind_eq_bind, ← partitioned, pushed, Option.bind_some, filled, Option.bind_some,
      finished]
  · rwa [List.reverse_reverse, List.append_nil] at settled

/-! ## Exact arithmetic -/

/-- The arrays without the record. -/
def forget (w : AliasCells ℚ) : AliasArrays where
  P := w.P
  small := w.small
  large := w.large
  nSmall := w.nSmall
  nLarge := w.nLarge
  aliasProbability := w.aliasProbability
  aliasTable := w.aliasTable

section Exact

variable {w w' : AliasCells ℚ}

theorem push_exact {j : ℕ} (done : push exactDoubles n w j = some w') :
    w.forget.push j = w'.forget := by
  unfold push at done
  simp only [Option.bind_eq_bind, Option.bind_eq_some_iff, readCell_eq_some_iff] at done
  obtain ⟨p, ⟨-, rfl⟩, done⟩ := done
  unfold AliasArrays.push
  split at done
  · rename_i light
    obtain ⟨small, written, done⟩ := Option.bind_eq_some_iff.mp done
    obtain ⟨-, rfl⟩ := writeCell_eq_some_iff.mp written
    cases done
    exact if_pos (of_decide_eq_true light)
  · rename_i heavy
    obtain ⟨large, written, done⟩ := Option.bind_eq_some_iff.mp done
    obtain ⟨-, rfl⟩ := writeCell_eq_some_iff.mp written
    cases done
    exact if_neg fun light => heavy (decide_eq_true light)

theorem foldlM_push_exact (items : List ℕ)
    (done : items.foldlM (push exactDoubles n) w = some w') :
    items.foldl AliasArrays.push w.forget = w'.forget := by
  induction items generalizing w with
  | nil =>
      cases done
      rfl
  | cons j items ih =>
      rw [List.foldlM_cons] at done
      obtain ⟨middle, pushed, rest⟩ := Option.bind_eq_some_iff.mp done
      rw [List.foldl_cons, push_exact pushed]
      exact ih rest

theorem fillSlot_exact (done : fillSlot exactDoubles n w = some w') :
    w.forget.fillSlot = w'.forget := by
  unfold fillSlot at done
  simp only [Option.bind_eq_bind, Option.bind_eq_some_iff, readCell_eq_some_iff,
    writeCell_eq_some_iff] at done
  obtain ⟨small, ⟨-, rfl⟩, large, ⟨-, rfl⟩, p, ⟨-, rfl⟩, prob, ⟨-, rfl⟩, table, ⟨-, rfl⟩, q,
    ⟨-, rfl⟩, P, ⟨-, rfl⟩, pushed⟩ := done
  have round := push_exact pushed
  unfold AliasArrays.fillSlot
  exact round

theorem certainSmall_exact (done : certainSmall exactDoubles n w = some w') :
    w.forget.certainSmall = w'.forget := by
  unfold certainSmall at done
  simp only [Option.bind_eq_bind, Option.bind_eq_some_iff, readCell_eq_some_iff,
    writeCell_eq_some_iff] at done
  obtain ⟨small, ⟨-, rfl⟩, prob, ⟨-, rfl⟩, same⟩ := done
  cases same
  rfl

theorem certainLarge_exact (done : certainLarge exactDoubles n w = some w') :
    w.forget.certainLarge = w'.forget := by
  unfold certainLarge at done
  simp only [Option.bind_eq_bind, Option.bind_eq_some_iff, readCell_eq_some_iff,
    writeCell_eq_some_iff] at done
  obtain ⟨large, ⟨-, rfl⟩, prob, ⟨-, rfl⟩, same⟩ := done
  cases same
  rfl

/-- With exact arithmetic the loops build the table of `buildTable`. -/
theorem buildTable_of_exact {afl : AflState} {P : ℕ → ℚ}
    (done : build exactDoubles afl.queuedItems (start exactDoubles afl.queuedItems P
      afl.aliasProbability afl.aliasTable) = some w) :
    (buildTable afl P).aliasProbability = w.aliasProbability ∧
      (buildTable afl P).aliasTable = w.aliasTable := by
  set n := afl.queuedItems with n_eq
  simp only [build, finish, Option.bind_eq_bind, Option.bind_eq_some_iff] at done
  obtain ⟨w₁, pushed, w₂, filled, w₃, popped, finished⟩ := done
  have begins : AliasArrays.start afl P =
      (start exactDoubles n P afl.aliasProbability afl.aliasTable).forget := rfl
  have partition : AliasArrays.partitionEntries n (AliasArrays.start afl P) = w₁.forget := by
    unfold partitionEntries at pushed
    unfold AliasArrays.partitionEntries
    rw [begins, foldlM_push_exact _ pushed]
  have main : AliasArrays.fillSlots n w₁.forget = w₂.forget :=
    whileSome_eq_whileLoop (fun _ => Iff.rfl) (fun _ _ => fillSlot_exact) filled
  have smalls : whileLoop (fun w => w.nSmall ≠ 0) AliasArrays.certainSmall n w₂.forget =
      w₃.forget := whileSome_eq_whileLoop (fun _ => Iff.rfl) (fun _ _ => certainSmall_exact) popped
  have larges : whileLoop (fun w => w.nLarge ≠ u32Pred n) AliasArrays.certainLarge n w₃.forget =
      w.forget := whileSome_eq_whileLoop (fun _ => Iff.rfl) (fun _ _ => certainLarge_exact) finished
  unfold buildTable
  dsimp only
  rw [← n_eq, partition, main, AliasArrays.finish, smalls, larges]
  exact ⟨rfl, rfl⟩

end Exact

/-! ## Any rounding -/

/-- **The table is complete, whatever the tests say, if there are at most `2 ^ 31` entries**: no
access is out of bounds, the loops end, each slot gets one final probability, and each alias is
an index. With more entries the partition does nothing, and no slot gets a probability. -/
theorem build_complete_iff (ops : Doubles F) (P prob : ℕ → F) (table : ℕ → ℕ) (n : ℕ)
    (some_entry : 1 ≤ n) (fits : n < 2 ^ 32) :
    (∃ w, build ops n (start ops n P prob table) = some w ∧ (∀ i < n, w.settled.count i = 1) ∧
      ∀ i < n, w.aliasTable i < n) ↔ n ≤ 2 ^ 31 := by
  obtain ⟨w, built, settled, targets⟩ := build_total ops fits P prob table
  constructor
  · rintro ⟨w', built', once, -⟩
    cases Option.some.inj (built.symm.trans built')
    have zero := once 0 some_entry
    rw [settled.count_eq, partitioned] at zero
    by_contra too_many
    rw [if_neg (by unfold u32Pred; omega)] at zero
    cases zero
  · intro few
    refine ⟨w, built, fun i below => ?_, targets⟩
    have signed : u32Pred n < 2 ^ 31 := by
      unfold u32Pred
      omega
    rw [settled.count_eq, partitioned, if_pos signed]
    exact List.count_eq_one_of_mem List.nodup_range (List.mem_range.mpr below)

/-- Numbers for which every test comes out as it likes: the tests of each index are answered in
turn from a list. -/
def answered : Doubles (List Bool) := ⟨[], [], fun x _ => x.headD false, fun x _ => x.tail⟩

/-- Three entries. Indices 0 and 1 are large at first, and index 0 stays so after it gave mass. -/
theorem build_complete_three :
    ∃ w, build answered 3 (start answered 3 (fun i => if i = 2 then [true] else []) (fun _ => [])
      fun _ => 0) = some w ∧ (∀ i < 3, w.settled.count i = 1) ∧ ∀ i < 3, w.aliasTable i < 3 :=
  (build_complete_iff answered _ _ _ 3 (by decide) (by decide)).mpr (by decide)

/-- With one entry more than a signed loop variable can count, no slot gets a probability. -/
theorem build_incomplete : ¬ ∃ w, build exactDoubles (2 ^ 31 + 1)
    (start exactDoubles (2 ^ 31 + 1) (fun _ => 1) (fun _ => 0) fun _ => 0) = some w ∧
      (∀ i < 2 ^ 31 + 1, w.settled.count i = 1) ∧
        ∀ i < 2 ^ 31 + 1, w.aliasTable i < 2 ^ 31 + 1 := by
  rintro ⟨w, built, once, -⟩
  obtain ⟨w', built', settled, -⟩ := build_total (n := 2 ^ 31 + 1) exactDoubles (by decide)
    (fun _ => 1) (fun _ => 0) fun _ => 0
  cases Option.some.inj (built.symm.trans built')
  have zero := once 0 (by decide)
  rw [settled.count_eq, partitioned, if_neg (by decide)] at zero
  cases zero

end AliasCells

end GreenFuzz.AflFuzz
