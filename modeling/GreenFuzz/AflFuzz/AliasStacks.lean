import GreenFuzz.AflFuzz.AliasTable
import GreenFuzz.Library.AliasMethod
import GreenFuzz.Library.TwoStacks

/-!
# The arrays of `create_alias_table` are stacks

`Small` holds a stack with its top at `nSmall - 1`, and `Large` one with its top at
`nLarge + 1`, where `nLarge` is a `u32` that wraps below 0 when all entries are large. With
these stacks, the loops of `create_alias_table` are Vose's construction
(`AliasArrays.table_refines`).
-/

set_option autoImplicit false

namespace GreenFuzz.AflFuzz

open Library

/-! ## Counters -/

theorem u32_u32Pred {n : ℕ} (fits : n < 2 ^ 32) : u32 (u32Pred n + 1) = n := by
  unfold u32Pred u32
  omega

theorem u32Pred_inj {m n : ℕ} (fits : m < 2 ^ 32) (fits' : n < 2 ^ 32) :
    u32Pred m = u32Pred n ↔ m = n := by
  unfold u32Pred
  omega

namespace AliasArrays

/-! ## The stacks in the arrays -/

/-- The arrays of length `n` hold the stack `small` from the low end of `Small` and the stack
`large` from the high end of `Large`. -/
structure Stacked (n : ℕ) (w : AliasArrays) (small large : List ℕ) : Prop where
  small_eq : small = (List.range w.nSmall).reverse.map w.small
  large_eq : large = (List.range' (n - large.length) large.length).map w.large
  nLarge_eq : w.nLarge = u32Pred (n - large.length)
  room : small.length + large.length ≤ n

variable {n : ℕ} {w : AliasArrays} {small large : List ℕ}

theorem Stacked.small_stack (held : Stacked n w small large) :
    small = (lowStack w.small w.nSmall).reverse := held.small_eq.trans List.map_reverse

theorem Stacked.large_stack (held : Stacked n w small large) :
    large = highStack w.large n large.length := held.large_eq

theorem Stacked.nSmall_eq (held : Stacked n w small large) : w.nSmall = small.length := by
  rw [held.small_stack, List.length_reverse, length_lowStack]

theorem Stacked.small_ne_nil_iff (held : Stacked n w small large) :
    w.nSmall ≠ 0 ↔ small ≠ [] := by
  rw [held.nSmall_eq, ne_eq, List.length_eq_zero_iff]

theorem Stacked.large_ne_nil_iff (fits : n < 2 ^ 32) (held : Stacked n w small large) :
    w.nLarge ≠ u32Pred n ↔ large ≠ [] := by
  have room := held.room
  rw [held.nLarge_eq, ne_eq, u32Pred_inj (by omega) fits, ne_eq, ← List.length_eq_zero_iff]
  omega

/-- The stacks do not depend on the other arrays. -/
theorem Stacked.congr {w' : AliasArrays} (held : Stacked n w small large)
    (smalls : w'.small = w.small) (larges : w'.large = w.large) (nSmall : w'.nSmall = w.nSmall)
    (nLarge : w'.nLarge = w.nLarge) : Stacked n w' small large := by
  refine ⟨?_, ?_, ?_, held.room⟩
  · rw [smalls, nSmall]
    exact held.small_eq
  · rw [larges]
    exact held.large_eq
  · rw [nLarge]
    exact held.nLarge_eq

theorem Stacked.pushSmall (fits : n < 2 ^ 32) (held : Stacked n w small large)
    (room : small.length + large.length < n) (j : ℕ) :
    Stacked n (w.pushSmall j) (j :: small) large := by
  have count := held.nSmall_eq
  have next : u32 (w.nSmall + 1) = w.nSmall + 1 := u32_of_lt (by omega)
  have pushed : lowStack (Function.update w.small w.nSmall j) (w.nSmall + 1) =
      lowStack w.small w.nSmall ++ [j] := lowStack_push j
  refine ⟨?_, held.large_eq, held.nLarge_eq, by rw [List.length_cons]; omega⟩
  unfold AliasArrays.pushSmall
  dsimp only
  rw [next, List.map_reverse, ← lowStack, pushed, List.reverse_append, ← held.small_stack]
  rfl

theorem Stacked.pushLarge (fits : n < 2 ^ 32) (held : Stacked n w small large)
    (room : small.length + large.length < n) (j : ℕ) :
    Stacked n (w.pushLarge j) small (j :: large) := by
  have step : n - large.length = n - (large.length + 1) + 1 := by omega
  have top : w.nLarge = n - (large.length + 1) := by
    rw [held.nLarge_eq, step, u32Pred_succ (by omega)]
  refine ⟨held.small_eq, ?_, ?_, by rw [List.length_cons]; omega⟩
  · unfold AliasArrays.pushLarge
    dsimp only
    have pushed : highStack (Function.update w.large (n - (large.length + 1)) j) n
        (large.length + 1) = j :: highStack w.large n large.length := highStack_push (by omega) j
    rw [top, List.length_cons, ← highStack, pushed, ← held.large_stack]
  · unfold AliasArrays.pushLarge
    dsimp only
    rw [List.length_cons, top]

/-- `Small[--nSmall]` is the top of the small stack, and takes it off. -/
theorem Stacked.popSmall {s : ℕ} (fits : n < 2 ^ 32) (held : Stacked n w (s :: small) large) :
    w.small (u32Pred w.nSmall) = s ∧
      Stacked n { w with nSmall := u32Pred w.nSmall } small large := by
  have room := held.room
  have count := held.nSmall_eq
  rw [List.length_cons] at room count
  have shape := held.small_stack
  rw [count, lowStack_succ, List.reverse_concat, List.cons.injEq] at shape
  have less : u32Pred w.nSmall = small.length := by
    rw [count, u32Pred_succ (by omega)]
  refine ⟨?_, ?_, held.large_eq, held.nLarge_eq, by omega⟩
  · rw [less]
    exact shape.1.symm
  · dsimp only
    rw [less, List.map_reverse]
    exact shape.2

/-- `Large[++nLarge]` is the top of the large stack, and takes it off. -/
theorem Stacked.popLarge {l : ℕ} (fits : n < 2 ^ 32) (held : Stacked n w small (l :: large)) :
    w.large (u32 (w.nLarge + 1)) = l ∧
      Stacked n { w with nLarge := u32 (w.nLarge + 1) } small large := by
  have room := held.room
  rw [List.length_cons] at room
  have next : u32 (w.nLarge + 1) = n - (large.length + 1) := by
    rw [held.nLarge_eq, List.length_cons, u32_u32Pred (by omega)]
  have step : n - (large.length + 1) + 1 = n - large.length := by omega
  have shape := held.large_stack
  rw [List.length_cons, highStack_succ (by omega), List.cons.injEq] at shape
  refine ⟨?_, held.small_eq, shape.2, ?_, by omega⟩
  · rw [next]
    exact shape.1.symm
  · dsimp only
    rw [next, ← step, u32Pred_succ (by omega)]

/-! ## The partition -/

/-- The partition pushes the light indices on one stack and the others on the other. -/
theorem Stacked.foldl_push (fits : n < 2 ^ 32) (items : List ℕ) (held : Stacked n w small large)
    (room : small.length + large.length + items.length ≤ n) :
    Stacked n (items.foldl push w) ((items.filter fun j => w.P j < 1).reverse ++ small)
      ((items.filter fun j => ¬ w.P j < 1).reverse ++ large) ∧
      (items.foldl push w).P = w.P ∧
      (items.foldl push w).aliasProbability = w.aliasProbability ∧
      (items.foldl push w).aliasTable = w.aliasTable := by
  induction items generalizing w small large with
  | nil => exact ⟨held, rfl, rfl, rfl⟩
  | cons j items ih =>
      rw [List.length_cons] at room
      rw [List.foldl_cons]
      by_cases light : w.P j < 1
      · have pushed : w.push j = w.pushSmall j := if_pos light
        obtain ⟨rest, same⟩ := ih (held.pushSmall fits (by omega) j)
          (by rw [List.length_cons]; omega)
        rw [pushed, List.filter_cons_of_pos (by simpa using light),
          List.filter_cons_of_neg (by simpa using light), List.reverse_cons, List.append_assoc]
        exact ⟨rest, same⟩
      · have pushed : w.push j = w.pushLarge j := if_neg light
        obtain ⟨rest, same⟩ := ih (held.pushLarge fits (by omega) j)
          (by rw [List.length_cons]; omega)
        rw [pushed, List.filter_cons_of_neg (by simpa using light),
          List.filter_cons_of_pos (by simpa using light), List.reverse_cons, List.append_assoc]
        exact ⟨rest, same⟩

/-! ## The main loop -/

/-- The arrays hold the state of Vose's construction. -/
structure Represents (n : ℕ) (w : AliasArrays) (v : AliasState ℕ ℚ) : Prop where
  stacked : Stacked n w v.small v.large
  mass : v.mass = w.P
  prob : v.prob = w.aliasProbability
  aliasOf : v.aliasOf = w.aliasTable

/-- `fillSlot` is a round of the construction. -/
theorem Represents.fillSlot {v : AliasState ℕ ℚ} (fits : n < 2 ^ 32) (held : Represents n w v)
    {s l : ℕ} (smalls : v.small = s :: small) (larges : v.large = l :: large) :
    Represents n w.fillSlot v.round := by
  have stacked := held.stacked
  rw [smalls, larges] at stacked
  have room := stacked.room
  rw [List.length_cons, List.length_cons] at room
  obtain ⟨small_top, below⟩ := stacked.popSmall fits
  obtain ⟨large_top, lower⟩ := below.popLarge fits
  dsimp only at large_top
  set filled : AliasArrays :=
    { w with
      nSmall := u32Pred w.nSmall
      nLarge := u32 (w.nLarge + 1)
      aliasProbability := Function.update w.aliasProbability s (w.P s)
      aliasTable := Function.update w.aliasTable s l
      P := Function.update w.P l (w.P l - (1 - w.P s)) } with filled_eq
  have shape : w.fillSlot = filled.push l := by
    unfold AliasArrays.fillSlot
    dsimp only
    rw [small_top, large_top]
  have lowered : Stacked n filled small large := lower.congr rfl rfl rfl rfl
  have rest : filled.P l = v.mass l - (1 - v.mass s) := by
    rw [held.mass]
    exact Function.update_self ..
  rw [shape, AliasState.round_cons smalls larges, ← rest]
  unfold push
  split
  · rename_i light
    refine ⟨?_, ?_, ?_, ?_⟩
    · exact lowered.pushSmall fits (by omega) l
    all_goals simp only [held.mass, held.prob, held.aliasOf, filled_eq, AliasArrays.pushSmall,
      Function.update_self]
  · rename_i heavy
    refine ⟨?_, ?_, ?_, ?_⟩
    · exact lowered.pushLarge fits (by omega) l
    all_goals simp only [held.mass, held.prob, held.aliasOf, filled_eq, AliasArrays.pushLarge,
      Function.update_self]

/-- The main loop is the iterated round. -/
theorem Represents.fillSlots {v : AliasState ℕ ℚ} (fits : n < 2 ^ 32) (held : Represents n w v) :
    Represents n (w.fillSlots n) (AliasState.round^[n] v) := by
  have guard {w : AliasArrays} {v : AliasState ℕ ℚ} (held : Represents n w v) :
      (w.nSmall ≠ 0 ∧ w.nLarge ≠ u32Pred n) ↔ v.small ≠ [] ∧ v.large ≠ [] :=
    and_congr held.stacked.small_ne_nil_iff (held.stacked.large_ne_nil_iff fits)
  refine whileLoop_simulates (R := Represents n) ?_ ?_ n held
  · intro w v held runs
    obtain ⟨some_small, some_large⟩ := (guard held).mp runs
    obtain ⟨s, small, smalls⟩ := List.exists_cons_of_ne_nil some_small
    obtain ⟨l, large, larges⟩ := List.exists_cons_of_ne_nil some_large
    exact held.fillSlot fits smalls larges
  · intro w v held stops
    rw [guard held, not_and_or, not_not, not_not] at stops
    exact AliasState.round_of_nil stops

/-! ## The left-over loops -/

theorem Stacked.certainSmalls (fits : n < 2 ^ 32) (held : Stacked n w small large) (rounds : ℕ)
    (enough : small.length ≤ rounds) :
    Stacked n (whileLoop (fun w => w.nSmall ≠ 0) certainSmall rounds w) [] large ∧
      (whileLoop (fun w => w.nSmall ≠ 0) certainSmall rounds w).aliasProbability =
        (fun i => if i ∈ small then 1 else w.aliasProbability i) ∧
      (whileLoop (fun w => w.nSmall ≠ 0) certainSmall rounds w).aliasTable = w.aliasTable := by
  induction small generalizing w rounds with
  | nil =>
      rw [whileLoop_of_not (by exact held.small_ne_nil_iff.not.mpr (not_not.mpr rfl))]
      exact ⟨held, by simp, rfl⟩
  | cons s small ih =>
      rw [List.length_cons] at enough
      obtain ⟨rounds, rfl⟩ := Nat.exists_eq_add_one.mpr (Nat.zero_lt_of_lt enough)
      obtain ⟨top, below⟩ := held.popSmall fits
      have lowered : Stacked n w.certainSmall small large := by
        refine below.congr ?_ ?_ ?_ ?_ <;> rw [certainSmall]
      obtain ⟨empty, prob, table⟩ := ih lowered rounds (Nat.le_of_succ_le_succ enough)
      rw [whileLoop_of_guard (by exact held.small_ne_nil_iff.mpr (List.cons_ne_nil s small))]
      refine ⟨empty, ?_, table.trans (by rw [certainSmall])⟩
      funext i
      rw [prob, certainSmall, top]
      dsimp only
      by_cases here : i = s
      · simp [here]
      · simp [here]

theorem Stacked.certainLarges (fits : n < 2 ^ 32) (held : Stacked n w small large) (rounds : ℕ)
    (enough : large.length ≤ rounds) :
    (whileLoop (fun w => w.nLarge ≠ u32Pred n) certainLarge rounds w).aliasProbability =
        (fun i => if i ∈ large then 1 else w.aliasProbability i) ∧
      (whileLoop (fun w => w.nLarge ≠ u32Pred n) certainLarge rounds w).aliasTable =
        w.aliasTable := by
  induction large generalizing w rounds with
  | nil =>
      rw [whileLoop_of_not (by exact (held.large_ne_nil_iff fits).not.mpr (not_not.mpr rfl))]
      exact ⟨by simp, rfl⟩
  | cons l large ih =>
      rw [List.length_cons] at enough
      obtain ⟨rounds, rfl⟩ := Nat.exists_eq_add_one.mpr (Nat.zero_lt_of_lt enough)
      obtain ⟨top, below⟩ := held.popLarge fits
      have lowered : Stacked n w.certainLarge small large := by
        refine below.congr ?_ ?_ ?_ ?_ <;> rw [certainLarge]
      obtain ⟨prob, table⟩ := ih lowered rounds (Nat.le_of_succ_le_succ enough)
      rw [whileLoop_of_guard (by exact (held.large_ne_nil_iff fits).mpr (List.cons_ne_nil l large))]
      refine ⟨?_, table.trans (by rw [certainLarge])⟩
      funext i
      rw [prob, certainLarge, top]
      dsimp only
      by_cases here : i = l
      · simp [here]
      · simp [here]

/-- The left-over loops finish the table. -/
theorem Represents.finish {v : AliasState ℕ ℚ} (fits : n < 2 ^ 32) (held : Represents n w v) :
    (w.finish n).aliasProbability = v.finish.prob ∧ (w.finish n).aliasTable = v.finish.aliasOf := by
  have room := held.stacked.room
  obtain ⟨rest, prob, table⟩ := held.stacked.certainSmalls fits n (by omega)
  obtain ⟨prob', table'⟩ := rest.certainLarges fits n (by omega)
  constructor
  · unfold AliasArrays.finish
    rw [prob', prob]
    funext i
    unfold AliasState.finish
    dsimp only
    rw [held.prob]
    by_cases small_one : i ∈ v.small <;> by_cases large_one : i ∈ v.large <;>
      simp [small_one, large_one]
  · unfold AliasArrays.finish
    rw [table', table]
    exact held.aliasOf.symm

/-! ## The whole table -/

/-- The state of Vose's construction before the main loop. -/
def vose (afl : AflState) (P : ℕ → ℚ) : AliasState ℕ ℚ where
  prob := (start afl P).aliasProbability
  aliasOf := (start afl P).aliasTable
  mass := P
  small := (List.range afl.queuedItems).filter fun i => P i < 1
  large := (List.range afl.queuedItems).filter fun i => ¬ P i < 1

theorem vose_represents {afl : AflState} {P : ℕ → ℚ} (some_entry : 0 < afl.queuedItems)
    (fits : afl.queuedItems ≤ 2 ^ 31) :
    Represents afl.queuedItems (partitionEntries afl.queuedItems (start afl P)) (vose afl P) := by
  set n := afl.queuedItems with n_eq
  have signed : u32Pred n < 2 ^ 31 := by
    unfold u32Pred
    omega
  have empty : Stacked n (start afl P) [] [] := ⟨rfl, rfl, rfl, Nat.zero_le n⟩
  obtain ⟨stacked, mass, prob, table⟩ := empty.foldl_push (by omega) (List.range n).reverse
    (by simp)
  unfold partitionEntries
  rw [if_pos signed]
  refine ⟨?_, mass.symm, prob.symm, table.symm⟩
  rw [List.filter_reverse, List.filter_reverse, List.reverse_reverse, List.reverse_reverse,
    List.append_nil, List.append_nil] at stacked
  exact stacked

theorem vose_sound {afl : AflState} {P : ℕ → ℚ} (nonneg : ∀ i < afl.queuedItems, 0 ≤ P i) :
    AliasState.Sound (Finset.range afl.queuedItems) P (vose afl P).large (vose afl P) := by
  refine AliasState.Sound.of_start (v := vose afl P) ?_ ?_ ?_ ?_ ?_
  · refine (List.nodup_range.filter _).append (List.nodup_range.filter _) ?_
    intro i light heavy
    have below : P i < 1 := by simpa using (List.mem_filter.mp light).2
    have above : ¬ P i < 1 := by simpa using (List.mem_filter.mp heavy).2
    exact above below
  · intro i
    rw [List.mem_append, Finset.mem_range, vose, List.mem_filter, List.mem_filter, List.mem_range]
    by_cases light : P i < 1 <;> simp [light]
  · intro i light
    have below : P i < 1 := by simpa using (List.mem_filter.mp light).2
    exact below
  · intro i heavy
    have above : 1 ≤ P i := by simpa using (List.mem_filter.mp heavy).2
    exact above
  · intro i light
    exact nonneg i (List.mem_range.mp (List.mem_filter.mp light).1)

theorem vose_pending (afl : AflState) (P : ℕ → ℚ) : (vose afl P).pending = afl.queuedItems := by
  unfold AliasState.pending vose
  have parts := List.length_eq_length_filter_add (l := List.range afl.queuedItems)
    fun i => decide (P i < 1)
  simpa only [List.length_range, decide_not] using parts.symm

/-- **The loops of `create_alias_table` are Vose's construction**: they build the table of a
state that its rounds reach, in which a stack is empty. -/
theorem table_refines {afl : AflState} {P : ℕ → ℚ} (some_entry : 0 < afl.queuedItems)
    (fits : afl.queuedItems ≤ 2 ^ 31) (nonneg : ∀ i < afl.queuedItems, 0 ≤ P i) :
    ∃ v : AliasState ℕ ℚ,
      v.Sound (Finset.range afl.queuedItems) P (vose afl P).large ∧
        (v.small = [] ∨ v.large = []) ∧
        (buildTable afl P).aliasProbability = v.finish.prob ∧
        (buildTable afl P).aliasTable = v.finish.aliasOf := by
  have narrow : afl.queuedItems < 2 ^ 32 := by omega
  refine ⟨AliasState.round^[afl.queuedItems] (vose afl P),
    (vose_sound nonneg).iterate afl.queuedItems,
    AliasState.iterate_done (vose_pending afl P).le, ?_⟩
  exact ((vose_represents some_entry fits).fillSlots narrow).finish narrow

theorem buildTable_queuedItems (afl : AflState) (P : ℕ → ℚ) :
    (buildTable afl P).queuedItems = afl.queuedItems := by
  unfold buildTable
  rfl

/-- The loop variable of the partition is negative from the start if there are more than
`2 ^ 31` entries, and the table stays zero. -/
theorem table_of_too_many {afl : AflState} {P : ℕ → ℚ} (narrow : afl.queuedItems < 2 ^ 32)
    (too_many : 2 ^ 31 < afl.queuedItems) {i : ℕ} (queued : i < afl.queuedItems) :
    (buildTable afl P).aliasProbability i = 0 ∧ (buildTable afl P).aliasTable i = 0 := by
  have negative : ¬ u32Pred afl.queuedItems < 2 ^ 31 := by
    unfold u32Pred
    omega
  have idle : partitionEntries afl.queuedItems (start afl P) = start afl P := by
    unfold partitionEntries
    rw [if_neg negative]
    rfl
  have no_small : (start afl P).nSmall = 0 := by rw [start]
  have no_large : (start afl P).nLarge = u32Pred afl.queuedItems := by rw [start]
  have unfilled : fillSlots afl.queuedItems (start afl P) = start afl P :=
    whileLoop_of_not fun runs => runs.1 no_small
  have unfinished : whileLoop (fun w => w.nSmall ≠ 0) certainSmall afl.queuedItems (start afl P) =
      start afl P := whileLoop_of_not fun runs => runs no_small
  have finished : finish afl.queuedItems (start afl P) = start afl P := by
    rw [finish, unfinished]
    exact whileLoop_of_not fun runs => runs no_large
  unfold buildTable
  dsimp only
  rw [idle, unfilled, finished]
  exact ⟨if_pos queued, if_pos queued⟩

end AliasArrays

end GreenFuzz.AflFuzz
