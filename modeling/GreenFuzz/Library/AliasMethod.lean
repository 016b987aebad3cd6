import Mathlib.Algebra.BigOperators.Group.Finset.Basic
import Mathlib.Algebra.BigOperators.Ring.Finset
import Mathlib.Algebra.Order.BigOperators.Group.Finset
import Mathlib.Algebra.Order.Field.Basic
import Mathlib.Data.List.Nodup
import Mathlib.Tactic.Linarith
import Mathlib.Tactic.Ring

/-!
# The alias method

An alias table gives each slot a probability and an alias. A draw of a slot yields the slot
itself with its probability, and its alias otherwise. The share of an index is what all
slots together give it.

Vose's construction works on two stacks: the indices whose mass is below 1, and the
others. A round fills the slot of a small index with the missing mass of a large one. It
never creates mass, so every index ends with the share it started with, up to what is left
on the stacks (`AliasState.Sound.account`). If the masses add up to the number of slots,
nothing is left (`AliasState.Sound.share_of_balanced`). If they add up to more, the shares are in
proportion to the masses only when all positive masses but that of the first large index are
equal to the average (`AliasState.Sound.share_of_excess_iff`).
-/

set_option autoImplicit false

namespace GreenFuzz.Library

open Finset

variable {ι K : Type*} [DecidableEq ι] [Field K]

/-! ## Tables and shares -/

/-- A probability and an alias for each slot. -/
structure AliasTable (ι K : Type*) where
  prob : ι → K
  aliasOf : ι → ι

namespace AliasTable

variable (t : AliasTable ι K)

/-- What slot `s` gives to the index `i`. -/
def gives (s i : ι) : K :=
  (if i = s then t.prob s else 0) + (if i = t.aliasOf s then 1 - t.prob s else 0)

/-- What the slots of `S` give to the index `i`. -/
def share (S : Finset ι) (i : ι) : K := ∑ s ∈ S, t.gives s i

/-- A slot gives 1 in total, if its alias counts. -/
theorem sum_gives {S : Finset ι} {s : ι} (inside : s ∈ S)
    (target : t.aliasOf s ∈ S ∨ t.prob s = 1) : ∑ i ∈ S, t.gives s i = 1 := by
  unfold gives
  rw [sum_add_distrib, sum_ite_eq' S s fun _ => t.prob s, if_pos inside,
    sum_ite_eq' S (t.aliasOf s) fun _ => 1 - t.prob s]
  rcases target with counts | certain
  · rw [if_pos counts]
    ring
  · rw [certain, sub_self, ite_self, add_zero]

theorem sum_share {S : Finset ι} (targets : ∀ s ∈ S, t.aliasOf s ∈ S ∨ t.prob s = 1) :
    ∑ i ∈ S, t.share S i = S.card := by
  unfold share
  rw [sum_comm, sum_congr rfl fun s inside => t.sum_gives inside (targets s inside)]
  simp

/-- Two tables that differ in one slot differ in what that slot gives. -/
theorem share_of_slot {t t' : AliasTable ι K} {S : Finset ι} {s : ι} (inside : s ∈ S)
    (same : ∀ r, r ≠ s → t'.prob r = t.prob r ∧ t'.aliasOf r = t.aliasOf r) (i : ι) :
    t'.share S i = t.share S i + (t'.gives s i - t.gives s i) := by
  have elsewhere : ∑ r ∈ S.erase s, t'.gives r i = ∑ r ∈ S.erase s, t.gives r i := by
    refine sum_congr rfl fun r member => ?_
    obtain ⟨prob, aliasOf⟩ := same r (ne_of_mem_erase member)
    rw [gives, gives, prob, aliasOf]
  unfold share
  rw [← add_sum_erase S (fun r => t'.gives r i) inside,
    ← add_sum_erase S (fun r => t.gives r i) inside, elsewhere]
  ring

variable [LinearOrder K] [IsStrictOrderedRing K]

theorem gives_nonneg {s : ι} (nonneg : 0 ≤ t.prob s) (le_one : t.prob s ≤ 1) (i : ι) :
    0 ≤ t.gives s i := by
  unfold gives
  split <;> split <;> linarith

end AliasTable

/-! ## Vose's construction -/

/-- The table so far, the masses, and the stacks of small and of large indices. -/
structure AliasState (ι K : Type*) extends AliasTable ι K where
  mass : ι → K
  small : List ι
  large : List ι

namespace AliasState

variable [LinearOrder K]

/-- One round: the slot of the top small index is filled by the top large index, whose mass
shrinks by what it gave. -/
def round (v : AliasState ι K) : AliasState ι K :=
  match v.small, v.large with
  | s :: small, l :: large =>
      let rest := v.mass l - (1 - v.mass s)
      { prob := Function.update v.prob s (v.mass s)
        aliasOf := Function.update v.aliasOf s l
        mass := Function.update v.mass l rest
        small := if rest < 1 then l :: small else small
        large := if rest < 1 then large else l :: large }
  | _, _ => v

/-- What is left on the stacks gets probability 1. -/
def finish (v : AliasState ι K) : AliasTable ι K where
  prob i := if i ∈ v.small ++ v.large then 1 else v.prob i
  aliasOf := v.aliasOf

/-- The mass of an index on the stacks beyond the 1 that its own slot takes. -/
def surplus (v : AliasState ι K) (i : ι) : K :=
  if i ∈ v.small ++ v.large then v.mass i - 1 else 0

/-- What the rounds keep, for masses `start` on the indices `S` and the first stack `first` of
large indices. -/
structure Sound (S : Finset ι) (start : ι → K) (first : List ι) (v : AliasState ι K) : Prop where
  nodup : (v.small ++ v.large).Nodup
  inside : ∀ i ∈ v.small ++ v.large, i ∈ S
  small_lt : ∀ i ∈ v.small, v.mass i < 1
  large_ge : ∀ i ∈ v.large, 1 ≤ v.mass i
  nonneg : ∀ i ∈ v.small, 0 ≤ v.mass i
  le_start : ∀ i, v.mass i ≤ start i
  suffix : v.large <:+ first
  untouched : ∀ i ∈ v.large.tail, v.mass i = start i
  slot : ∀ i ∈ S, v.finish.prob i ∈ Set.Icc 0 1 ∧ (v.aliasOf i ∈ S ∨ v.finish.prob i = 1)
  account : ∀ i ∈ S, v.finish.share S i + v.surplus i = start i

variable {S : Finset ι} {start : ι → K} {first : List ι} {v : AliasState ι K}

/-- A round that has nothing to do changes nothing. -/
theorem round_of_nil (done : v.small = [] ∨ v.large = []) : v.round = v := by
  unfold round
  rcases done with none | none
  · rw [none]
  · rw [none]
    split
    · rename_i clash
      cases clash
    · rfl

theorem round_cons {s l : ι} {small large : List ι} (smalls : v.small = s :: small)
    (larges : v.large = l :: large) :
    v.round =
      { prob := Function.update v.prob s (v.mass s)
        aliasOf := Function.update v.aliasOf s l
        mass := Function.update v.mass l (v.mass l - (1 - v.mass s))
        small := if v.mass l - (1 - v.mass s) < 1 then l :: small else small
        large := if v.mass l - (1 - v.mass s) < 1 then large else l :: large } := by
  unfold round
  rw [smalls, larges]

/-- After a round the stacks hold the same indices, except the small one that was filled. -/
theorem mem_round {s l : ι} {small large : List ι} (smalls : v.small = s :: small)
    (larges : v.large = l :: large) (i : ι) :
    i ∈ v.round.small ++ v.round.large ↔ i = l ∨ i ∈ small ∨ i ∈ large := by
  rw [round_cons smalls larges]
  dsimp only
  split
  · simp
  · simp [or_left_comm]

section Round

variable {s l : ι} {small large : List ι} (smalls : v.small = s :: small)
  (larges : v.large = l :: large)

include smalls larges

/-- All other indices stay on the stacks, or off them. -/
theorem stays {r : ι} (other : r ≠ s) :
    r ∈ v.round.small ++ v.round.large ↔ r ∈ v.small ++ v.large := by
  rw [mem_round smalls larges, smalls, larges]
  simp [other, or_left_comm]

theorem mass_large : v.round.mass l = v.mass l - (1 - v.mass s) := by
  rw [round_cons smalls larges]
  exact Function.update_self ..

theorem mass_other {r : ι} (other : r ≠ l) : v.round.mass r = v.mass r := by
  rw [round_cons smalls larges]
  exact Function.update_of_ne other ..

/-- The large index becomes small. -/
theorem stacks_moved (moved : v.round.mass l < 1) :
    v.round.small = l :: small ∧ v.round.large = large := by
  rw [mass_large smalls larges] at moved
  rw [round_cons smalls larges]
  exact ⟨if_pos moved, if_pos moved⟩

/-- The large index stays large. -/
theorem stacks_kept (kept : ¬ v.round.mass l < 1) :
    v.round.small = small ∧ v.round.large = l :: large := by
  rw [mass_large smalls larges] at kept
  rw [round_cons smalls larges]
  exact ⟨if_neg kept, if_neg kept⟩

theorem finish_prob_other {r : ι} (other : r ≠ s) :
    v.round.finish.prob r = v.finish.prob r := by
  unfold finish
  dsimp only
  rw [if_congr (stays smalls larges other) rfl rfl, round_cons smalls larges]
  dsimp only
  rw [Function.update_of_ne other]

theorem aliasOf_filled : v.round.aliasOf s = l := by
  rw [round_cons smalls larges]
  exact Function.update_self ..

theorem aliasOf_other {r : ι} (other : r ≠ s) : v.round.aliasOf r = v.aliasOf r := by
  rw [round_cons smalls larges]
  exact Function.update_of_ne other ..

end Round

/-- The number of indices on the stacks. -/
def pending (v : AliasState ι K) : ℕ := v.small.length + v.large.length

/-- A round that has something to do empties one place on the stacks. -/
theorem pending_round (busy : ¬ (v.small = [] ∨ v.large = [])) :
    v.round.pending + 1 = v.pending := by
  cases smalls : v.small with
  | nil => exact absurd (Or.inl smalls) busy
  | cons s small =>
      cases larges : v.large with
      | nil => exact absurd (Or.inr larges) busy
      | cons l large =>
          rw [round_cons smalls larges]
          unfold pending
          rw [smalls, larges]
          dsimp only
          split <;> simp <;> omega

/-- As many rounds as there are indices on the stacks empty one of the stacks. -/
theorem iterate_done {count : ℕ} (enough : v.pending ≤ count) :
    (round^[count] v).small = [] ∨ (round^[count] v).large = [] := by
  induction count generalizing v with
  | zero =>
      left
      have none : v.small.length = 0 := by
        unfold pending at enough
        omega
      exact List.length_eq_zero_iff.mp none
  | succ count ih =>
      rw [Function.iterate_succ_apply]
      by_cases done : v.small = [] ∨ v.large = []
      · have still : round^[count] v.round = v := by
          rw [round_of_nil done]
          exact Function.iterate_fixed (round_of_nil done) count
        rw [still]
        exact done
      · have := pending_round done
        exact ih (by omega)

/-! ### What the rounds keep -/

namespace Sound

section Round

variable {s l : ι} {small large : List ι} (sound : Sound S start first v)
  (smalls : v.small = s :: small) (larges : v.large = l :: large)

include sound smalls larges

theorem top_ne : s ≠ l := by
  have nodup := sound.nodup
  rw [smalls, larges, List.cons_append, List.nodup_cons] at nodup
  rintro rfl
  exact nodup.1 (by simp)

/-- The slot that a round fills leaves the stacks. -/
theorem filled : s ∉ v.round.small ++ v.round.large := by
  have nodup := sound.nodup
  rw [smalls, larges, List.cons_append, List.nodup_cons] at nodup
  rw [mem_round smalls larges]
  rintro (same | again)
  · exact sound.top_ne smalls larges same
  · exact nodup.1 (by simp [again.elim Or.inl fun later => Or.inr (Or.inr later)])

theorem finish_prob_filled : v.round.finish.prob s = v.mass s := by
  refine (if_neg (sound.filled smalls larges)).trans ?_
  rw [round_cons smalls larges]
  exact Function.update_self ..

/-- A round moves mass from the large index into the slot of the small one, and keeps the
account. -/
theorem account_round (i : ι) (inside : i ∈ S) :
    v.round.finish.share S i + v.round.surplus i = start i := by
  have differ := sound.top_ne smalls larges
  have waiting : s ∈ v.small ++ v.large := by simp [smalls]
  have slot : v.round.finish.share S i =
      v.finish.share S i + (v.round.finish.gives s i - v.finish.gives s i) :=
    AliasTable.share_of_slot (sound.inside s waiting) (fun r other =>
      ⟨finish_prob_other smalls larges other, aliasOf_other smalls larges other⟩) i
  have before : v.finish.gives s i = if i = s then 1 else 0 := by
    have certain : v.finish.prob s = 1 := if_pos waiting
    rw [AliasTable.gives, certain, sub_self, ite_self, add_zero]
  have after : v.round.finish.gives s i =
      (if i = s then v.mass s else 0) + (if i = l then 1 - v.mass s else 0) := by
    rw [AliasTable.gives, sound.finish_prob_filled smalls larges]
    exact congrArg (fun t => _ + if i = t then 1 - v.mass s else 0) (aliasOf_filled smalls larges)
  rw [slot, before, after, ← sound.account i inside]
  unfold surplus
  by_cases small_one : i = s
  · subst small_one
    rw [if_neg (sound.filled smalls larges), if_pos waiting, if_pos rfl, if_neg differ, if_pos rfl]
    ring
  · rw [if_congr (stays smalls larges small_one) rfl rfl, if_neg small_one, if_neg small_one]
    by_cases large_one : i = l
    · subst large_one
      have listed : i ∈ v.small ++ v.large := by simp [larges]
      rw [if_pos listed, if_pos rfl, if_pos listed, mass_large smalls larges]
      ring
    · rw [if_neg large_one, mass_other smalls larges large_one]
      ring

variable [IsStrictOrderedRing K]

/-- A round only takes mass away. -/
theorem le_start_round (i : ι) : v.round.mass i ≤ start i := by
  by_cases large_one : i = l
  · subst large_one
    have light := sound.small_lt s (by simp [smalls])
    have bound := sound.le_start i
    rw [mass_large smalls larges]
    linarith
  · rw [mass_other smalls larges large_one]
    exact sound.le_start i

omit [IsStrictOrderedRing K] in
/-- The indices below the tops keep their mass. -/
theorem mass_below {i : ι} (below : i ∈ small ++ large) : v.round.mass i = v.mass i := by
  have nodup := sound.nodup
  rw [smalls, larges, List.cons_append, List.nodup_cons, List.nodup_middle] at nodup
  have other : i ≠ l := by
    rintro rfl
    exact nodup.2.notMem below
  exact mass_other smalls larges other

omit [IsStrictOrderedRing K] in
/-- After a round the slots still give probabilities and aliases. -/
theorem slot_round {i : ι} (inside : i ∈ S) :
    v.round.finish.prob i ∈ Set.Icc 0 1 ∧ (v.round.aliasOf i ∈ S ∨ v.round.finish.prob i = 1) := by
  by_cases small_one : i = s
  · subst small_one
    have listed : i ∈ v.small := by simp [smalls]
    rw [sound.finish_prob_filled smalls larges, aliasOf_filled smalls larges]
    exact ⟨⟨sound.nonneg i listed, (sound.small_lt i listed).le⟩,
      Or.inl (sound.inside l (by simp [larges]))⟩
  · rw [finish_prob_other smalls larges small_one, aliasOf_other smalls larges small_one]
    exact sound.slot i inside

omit [IsStrictOrderedRing K] in
theorem inside_round {i : ι} (listed : i ∈ v.round.small ++ v.round.large) : i ∈ S := by
  have other : i ≠ s := by
    rintro rfl
    exact sound.filled smalls larges listed
  exact sound.inside i ((stays smalls larges other).mp listed)

/-- A round that has something to do keeps what the rounds keep: the large index stays on top
of its stack, or moves to the top of the small ones. -/
theorem round_of_cons : Sound S start first v.round := by
  have small_lt : ∀ i ∈ small, v.round.mass i < 1 := by
    intro i member
    rw [sound.mass_below smalls larges (by simp [member])]
    exact sound.small_lt i (by simp [smalls, member])
  have large_ge : ∀ i ∈ large, 1 ≤ v.round.mass i := by
    intro i member
    rw [sound.mass_below smalls larges (by simp [member])]
    exact sound.large_ge i (by simp [larges, member])
  have nonneg : ∀ i ∈ small, 0 ≤ v.round.mass i := by
    intro i member
    rw [sound.mass_below smalls larges (by simp [member])]
    exact sound.nonneg i (by simp [smalls, member])
  have untouched : ∀ i ∈ large, v.round.mass i = start i := by
    intro i member
    rw [sound.mass_below smalls larges (by simp [member])]
    exact sound.untouched i (by simp [larges, member])
  have positive : 0 ≤ v.round.mass l := by
    have heavy := sound.large_ge l (by simp [larges])
    have least := sound.nonneg s (by simp [smalls])
    rw [mass_large smalls larges]
    linarith
  have nodup := sound.nodup
  have suffix := sound.suffix
  rw [smalls, larges, List.cons_append, List.nodup_cons] at nodup
  rw [larges] at suffix
  by_cases moved : v.round.mass l < 1
  · obtain ⟨smalls_after, larges_after⟩ := stacks_moved smalls larges moved
    refine ⟨?_, fun i => sound.inside_round smalls larges, ?_, ?_, ?_,
      sound.le_start_round smalls larges, ?_, ?_, fun i => sound.slot_round smalls larges,
      sound.account_round smalls larges⟩
    all_goals
      simp only [smalls_after, larges_after]
    · exact List.nodup_middle.mp nodup.2
    · exact List.forall_mem_cons.mpr ⟨moved, small_lt⟩
    · exact large_ge
    · exact List.forall_mem_cons.mpr ⟨positive, nonneg⟩
    · exact (List.suffix_cons l large).trans suffix
    · exact fun i member => untouched i (List.mem_of_mem_tail member)
  · obtain ⟨smalls_after, larges_after⟩ := stacks_kept smalls larges moved
    refine ⟨?_, fun i => sound.inside_round smalls larges, ?_, ?_, ?_,
      sound.le_start_round smalls larges, ?_, ?_, fun i => sound.slot_round smalls larges,
      sound.account_round smalls larges⟩
    all_goals
      simp only [smalls_after, larges_after]
    · exact nodup.2
    · exact small_lt
    · exact List.forall_mem_cons.mpr ⟨not_lt.mp moved, large_ge⟩
    · exact nonneg
    · exact suffix
    · exact untouched

end Round

variable [IsStrictOrderedRing K]

/-- If all indices are on the stacks, no slot is filled yet. -/
theorem of_start (nodup : (v.small ++ v.large).Nodup)
    (all : ∀ i, i ∈ v.small ++ v.large ↔ i ∈ S) (small_lt : ∀ i ∈ v.small, v.mass i < 1)
    (large_ge : ∀ i ∈ v.large, 1 ≤ v.mass i) (nonneg : ∀ i ∈ v.small, 0 ≤ v.mass i) :
    Sound S v.mass v.large v := by
  have certain : ∀ i ∈ S, v.finish.prob i = 1 := fun i inside => if_pos ((all i).mpr inside)
  refine ⟨nodup, fun i => (all i).mp, small_lt, large_ge, nonneg, fun _ => le_rfl,
    List.suffix_rfl, fun _ _ => rfl, ?_, ?_⟩
  · intro i inside
    rw [certain i inside]
    exact ⟨⟨zero_le_one, le_rfl⟩, Or.inr rfl⟩
  · intro i inside
    have one : v.finish.share S i = 1 := by
      unfold AliasTable.share AliasTable.gives
      rw [sum_congr rfl fun s member => by rw [certain s member, sub_self, ite_self, add_zero],
        sum_ite_eq, if_pos inside]
    rw [one, surplus, if_pos ((all i).mpr inside)]
    ring

theorem round (sound : Sound S start first v) : Sound S start first v.round := by
  cases smalls : v.small with
  | nil => rwa [round_of_nil (Or.inl smalls)]
  | cons s small =>
      cases larges : v.large with
      | nil => rwa [round_of_nil (Or.inr larges)]
      | cons l large => exact sound.round_of_cons smalls larges

/-- Any number of rounds keep what the rounds keep. -/
theorem iterate (sound : Sound S start first v) (count : ℕ) :
    Sound S start first (AliasState.round^[count] v) := by
  induction count with
  | zero => exact sound
  | succ count ih =>
      rw [Function.iterate_succ_apply']
      exact ih.round

/-! ### What the finished table gives -/

omit [IsStrictOrderedRing K] in
theorem sum_share (sound : Sound S start first v) : ∑ i ∈ S, v.finish.share S i = S.card :=
  v.finish.sum_share fun s inside => (sound.slot s inside).2

omit [IsStrictOrderedRing K] in
/-- What is left on the stacks is what the masses have beyond the number of slots. -/
theorem sum_surplus (sound : Sound S start first v) :
    ∑ i ∈ S, v.surplus i = ∑ i ∈ S, start i - S.card := by
  rw [← sound.sum_share, ← sum_sub_distrib]
  refine sum_congr rfl fun i inside => ?_
  rw [← sound.account i inside]
  ring

theorem surplus_nonneg (sound : Sound S start first v) (no_small : v.small = []) (i : ι) :
    0 ≤ v.surplus i := by
  unfold surplus
  split
  · rename_i listed
    rw [no_small, List.nil_append] at listed
    exact sub_nonneg.mpr (sound.large_ge i listed)
  · exact le_rfl

theorem surplus_nonpos (sound : Sound S start first v) (no_large : v.large = []) (i : ι) :
    v.surplus i ≤ 0 := by
  unfold surplus
  split
  · rename_i listed
    rw [no_large, List.append_nil] at listed
    exact sub_nonpos.mpr (sound.small_lt i listed).le
  · exact le_rfl

/-- **If the masses add up to the number of slots, every index gets its mass.** -/
theorem share_of_balanced (sound : Sound S start first v) (done : v.small = [] ∨ v.large = [])
    (balanced : ∑ i ∈ S, start i = S.card) {i : ι} (inside : i ∈ S) :
    v.finish.share S i = start i := by
  have total : ∑ i ∈ S, v.surplus i = 0 := by
    rw [sound.sum_surplus, balanced, sub_self]
  have none : v.surplus i = 0 := by
    rcases done with no_small | no_large
    · exact (sum_eq_zero_iff_of_nonneg fun j _ => sound.surplus_nonneg no_small j).mp total i inside
    · exact (sum_eq_zero_iff_of_nonpos fun j _ => sound.surplus_nonpos no_large j).mp total i inside
  rw [← sound.account i inside, none, add_zero]

/-! ### Masses that add up to more than the slots -/

omit [IsStrictOrderedRing K] in
/-- If the first large index is left, all of them are. -/
theorem large_eq_first (sound : Sound S start first v) (nodup : first.Nodup) {l : ι}
    (top : first.head? = some l) (listed : l ∈ v.large) : v.large = first := by
  obtain ⟨front, split⟩ := sound.suffix
  cases front with
  | nil => exact split
  | cons f front =>
      rw [← split, List.cons_append, List.head?_cons, Option.some.injEq] at top
      rw [← split, List.cons_append, List.nodup_cons] at nodup
      exact absurd (List.mem_append_right front (top ▸ listed)) nodup.1

section Excess

variable (sound : Sound S start first v) (done : v.small = [] ∨ v.large = [])
  (excess : (S.card : K) < ∑ i ∈ S, start i)

include sound done excess

omit done in
/-- A large index is left. -/
theorem large_ne_nil : v.large ≠ [] := by
  intro no_large
  have total : ∑ i ∈ S, v.surplus i ≤ 0 := sum_nonpos fun j _ => sound.surplus_nonpos no_large j
  rw [sound.sum_surplus] at total
  exact absurd total (not_le.mpr (sub_pos.mpr excess))

/-- No small index is left. -/
theorem no_small_of_excess : v.small = [] :=
  done.resolve_right (sound.large_ne_nil excess)

/-- An index that is not left gets its mass, and one that is left but not on top of the stack
gets 1. -/
theorem share_of_excess {i : ι} (inside : i ∈ S) :
    (i ∉ v.large → v.finish.share S i = start i) ∧
      (i ∈ v.large.tail → v.finish.share S i = 1) := by
  have no_small := sound.no_small_of_excess done excess
  have account := sound.account i inside
  unfold surplus at account
  rw [no_small, List.nil_append] at account
  constructor
  · intro gone
    rwa [if_neg gone, add_zero] at account
  · intro below
    rw [if_pos (List.mem_of_mem_tail below), sound.untouched i below] at account
    linarith

/-- An index without mass gets nothing. -/
theorem share_of_no_mass {i : ι} (inside : i ∈ S) (massless : start i = 0) :
    v.finish.share S i = 0 := by
  rw [← massless]
  refine (sound.share_of_excess done excess inside).1 fun listed => ?_
  have heavy := sound.large_ge i listed
  have bound := sound.le_start i
  rw [massless] at bound
  exact absurd (heavy.trans bound) (not_le.mpr zero_lt_one)

/-- If the shares are in proportion to the masses, every index with a mass is left. -/
theorem left_of_proportional {i : ι} (inside : i ∈ S) (massive : 0 < start i)
    (proportional : v.finish.share S i * ∑ j ∈ S, start j = start i * S.card) : i ∈ v.large := by
  by_contra gone
  rw [(sound.share_of_excess done excess inside).1 gone] at proportional
  exact excess.ne' (mul_left_cancel₀ massive.ne' proportional)

/-- If all masses but one are the average, then that one is left: the others cannot make up the
surplus. -/
theorem left_of_average {l : ι} (counted : l ∈ S)
    (average : ∀ i ∈ S, 0 < start i → i ≠ l → start i * S.card = ∑ j ∈ S, start j) :
    l ∈ v.large := by
  by_contra gone
  have no_small := sound.no_small_of_excess done excess
  have slots : (0 : K) < S.card := Nat.cast_pos.mpr (card_pos.mpr ⟨l, counted⟩)
  set total := ∑ j ∈ S, start j with total_eq
  have none : v.surplus l = 0 := by
    unfold surplus
    rw [no_small, List.nil_append, if_neg gone]
  have bound : ∀ i ∈ S.erase l, v.surplus i ≤ total / S.card - 1 := by
    intro i member
    have beyond : 1 < total / S.card := (one_lt_div slots).mpr excess
    unfold surplus
    rw [no_small, List.nil_append]
    split
    · rename_i listed
      have heavy : 0 < start i :=
        zero_lt_one.trans_le ((sound.large_ge i listed).trans (sound.le_start i))
      have equal := average i (mem_of_mem_erase member) heavy (ne_of_mem_erase member)
      rw [← equal, mul_div_cancel_right₀ _ slots.ne']
      exact sub_le_sub_right (sound.le_start i) 1
    · exact (sub_pos.mpr beyond).le
  have most : total - S.card ≤ (S.card - 1) * (total / S.card - 1) := by
    calc total - S.card = v.surplus l + ∑ i ∈ S.erase l, v.surplus i := by
          rw [add_sum_erase S v.surplus counted, sound.sum_surplus]
      _ ≤ 0 + ∑ i ∈ S.erase l, (total / S.card - 1) :=
          add_le_add none.le (sum_le_sum bound)
      _ = (S.card - 1) * (total / S.card - 1) := by
          rw [zero_add, sum_const, nsmul_eq_mul, card_erase_of_mem counted,
            Nat.cast_pred (card_pos.mpr ⟨l, counted⟩)]
  have split : total - S.card = S.card * (total / S.card - 1) := by
    rw [mul_sub, mul_div_cancel₀ _ slots.ne', mul_one]
  have beyond : 0 < total / S.card - 1 := sub_pos.mpr ((one_lt_div slots).mpr excess)
  linarith

/-- **If the masses add up to more than the number of slots, the shares are in proportion to the
masses exactly when all masses but that of the first large index are the average.** -/
theorem share_of_excess_iff (nodup : first.Nodup) (start_nonneg : ∀ i ∈ S, 0 ≤ start i)
    (firsts : ∀ i, i ∈ first ↔ i ∈ S ∧ 1 ≤ start i) :
    (∀ i ∈ S, v.finish.share S i * ∑ j ∈ S, start j = start i * S.card) ↔
      ∀ i ∈ S, 0 < start i → first.head? ≠ some i → start i * S.card = ∑ j ∈ S, start j := by
  constructor
  · intro proportional i inside massive below
    have left : i ∈ v.large :=
      sound.left_of_proportional done excess inside massive (proportional i inside)
    obtain ⟨l, rest, shape⟩ :=
      List.exists_cons_of_ne_nil (List.ne_nil_of_mem (sound.suffix.mem left))
    have top : first.head? = some l := by rw [shape, List.head?_cons]
    obtain ⟨counted, heavy⟩ := (firsts l).mp (by simp [shape])
    have all := sound.large_eq_first nodup top (sound.left_of_proportional done excess counted
      (zero_lt_one.trans_le heavy) (proportional l counted))
    have lower : i ∈ v.large.tail := by
      rw [all, shape] at left
      rw [all, shape, List.tail_cons]
      rcases List.mem_cons.mp left with same | later
      · exact absurd (same ▸ top) below
      · exact later
    rw [← proportional i inside, (sound.share_of_excess done excess inside).2 lower, one_mul]
  · intro average
    obtain ⟨l, rest, shape⟩ := List.exists_cons_of_ne_nil
      (List.ne_nil_of_mem (sound.suffix.mem (List.head_mem (sound.large_ne_nil excess))))
    have top : first.head? = some l := by rw [shape, List.head?_cons]
    obtain ⟨counted, heavy⟩ := (firsts l).mp (by simp [shape])
    have others : ∀ i ∈ S, 0 < start i → i ≠ l → start i * S.card = ∑ j ∈ S, start j :=
      fun i inside massive other => average i inside massive fun same =>
        other (Option.some.inj (same.symm.trans top))
    have all := sound.large_eq_first nodup top (sound.left_of_average done excess counted others)
    have slots : (0 : K) < S.card := Nat.cast_pos.mpr (card_pos.mpr ⟨l, counted⟩)
    have elsewhere : ∀ i ∈ S, i ≠ l →
        v.finish.share S i * ∑ j ∈ S, start j - start i * S.card = 0 := by
      intro i inside other
      rcases (start_nonneg i inside).eq_or_lt with massless | massive
      · rw [sound.share_of_no_mass done excess inside massless.symm, ← massless]
        ring
      · have equal := others i inside massive other
        have large_one : 1 ≤ start i := by
          refine le_of_mul_le_mul_right ?_ slots
          rw [one_mul, equal]
          exact excess.le
        have lower : i ∈ v.large.tail := by
          have listed := (firsts i).mpr ⟨inside, large_one⟩
          rw [shape] at listed
          rw [all, shape, List.tail_cons]
          exact (List.mem_cons.mp listed).resolve_left other
        rw [(sound.share_of_excess done excess inside).2 lower, one_mul, equal, sub_self]
    -- the shares and the masses have the same totals, so the last index fits as well
    have total : ∑ i ∈ S, (v.finish.share S i * ∑ j ∈ S, start j - start i * S.card) = 0 := by
      rw [sum_sub_distrib, ← sum_mul, ← sum_mul, sound.sum_share, mul_comm, sub_self]
    intro i inside
    refine sub_eq_zero.mp ?_
    by_cases last : i = l
    · subst last
      rw [sum_eq_single_of_mem i inside elsewhere] at total
      exact total
    · exact elsewhere i inside last

end Excess

end Sound

end AliasState

end GreenFuzz.Library
