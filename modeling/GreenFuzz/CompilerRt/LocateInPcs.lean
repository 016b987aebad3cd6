import GreenFuzz.CompilerRt.PcMap
import GreenFuzz.Library.FallibleLoops

/-!
# The search in the filter ranges

`locate_in_pcs` is a binary search for the range that contains a program counter. Ranges are in
the order of their starts, and each ends before the next one starts. The search goes by the
starts alone. It tests whether it has found the range only when the start is not above the
needle, so below the lower bound no range contains the needle, and above the upper one all starts
are greater.

The end of a range is computed in the width of a pointer. The search never finds a range that
reaches the end of the address space, since its end wraps (`locateIndexInPcs_iff`).

The size of the filter is a `u32`, and so is the upper bound that it starts with: for an empty
filter this is the largest `u32`.
-/

set_option autoImplicit false

namespace GreenFuzz.CompilerRt

open Library

/-- `FilterPCEntry`: a start and a length. -/
abbrev FilterPCEntry := BitVec 64 × BitVec 32

/-! ## The code -/

/-- How far a search is: in its loop, at a hit, or after the `break`. -/
inductive SearchStatus where
  | running | hit (index : ℕ) | broke
  deriving DecidableEq, Repr

/-- The index of a hit. -/
def SearchStatus.found : SearchStatus → Option ℕ
  | .hit index => some index
  | _ => none

/-- The locals of `locate_in_pcs`. -/
structure PcSearch where
  lowerBound : ℕ := 0
  upperBound : ℕ
  status : SearchStatus := .running
  deriving DecidableEq, Repr

/-- `start <= needle` and `start + len > needle`. -/
def FilterPCEntry.hits (entry : FilterPCEntry) (needle : BitVec 64) : Prop :=
  entry.1 ≤ needle ∧ needle < entry.1 + entry.2.setWidth 64

/-- The guard of the loop, which a return or a `break` ends too. -/
def PcSearch.goesOn (size : ℕ) (s : PcSearch) : Prop :=
  s.status = .running ∧ s.lowerBound < size ∧ s.lowerBound ≤ s.upperBound

instance (size : ℕ) : DecidablePred (PcSearch.goesOn size) := fun s =>
  inferInstanceAs (Decidable (s.status = .running ∧ _))

/-- One round. An entry outside the array cannot be read. -/
def searchRound (entries : List FilterPCEntry) (needle : BitVec 64) (s : PcSearch) :
    Option PcSearch :=
  let currentIndex := s.lowerBound + (s.upperBound - s.lowerBound) / 2
  entries[currentIndex]?.map fun (start, len) =>
    if start ≤ needle then
      if needle < start + len.setWidth 64 then { s with status := .hit currentIndex }
      else { s with lowerBound := currentIndex + 1 }
    else if currentIndex = 0 then { s with status := .broke }
    else { s with upperBound := currentIndex - 1 }

/-- `__afl_filter_pcs_size - 1`, as a `u32`. -/
def firstUpperBound (size : ℕ) : ℕ := (size + u32Size - 1) % u32Size

/-- `locate_in_pcs`, with the index that it stores if it returns 1. There is no result where it
reads outside the array, or where its loop takes more rounds than there are entries, and one. -/
def locateIndexInPcs (entries : List FilterPCEntry) (needle : BitVec 64) : Option (Option ℕ) :=
  (whileSome (PcSearch.goesOn entries.length) (searchRound entries needle) (entries.length + 1)
    { upperBound := firstUpperBound entries.length }).map fun s => s.status.found

/-! ## Ranges -/

/-- The needle is in the range. -/
def FilterPCEntry.Contains (entry : FilterPCEntry) (needle : BitVec 64) : Prop :=
  entry.1.toNat ≤ needle.toNat ∧ needle.toNat < entry.1.toNat + entry.2.toNat

/-- The ranges are sorted by their starts, and each ends before the next one starts. -/
def SortedRanges (entries : List FilterPCEntry) : Prop :=
  entries.Pairwise fun a b => a.1.toNat + a.2.toNat ≤ b.1.toNat

/-- The code hits a range that contains the needle, unless the range reaches the end of the address
space. -/
theorem FilterPCEntry.hits_iff (entry : FilterPCEntry) (needle : BitVec 64) :
    entry.hits needle ↔ entry.Contains needle ∧ entry.1.toNat + entry.2.toNat < 2 ^ 64 := by
  unfold hits Contains
  have start := entry.1.isLt
  have len := entry.2.isLt
  have top := needle.isLt
  rw [BitVec.le_def, BitVec.lt_def, BitVec.toNat_add, BitVec.toNat_setWidth]
  omega

variable {entries : List FilterPCEntry} {needle : BitVec 64} {s : PcSearch} {i j : ℕ}

theorem SortedRanges.ends_before (sorted : SortedRanges entries) (before : i < j)
    (inside : j < entries.length) :
    entries[i].1.toNat + entries[i].2.toNat ≤ entries[j].1.toNat :=
  List.pairwise_iff_getElem.mp sorted i j (before.trans inside) inside before

/-! ## The invariant -/

/-- **The invariant of the search**: no range below the lower bound contains the needle as the code
tests it, and all starts above the upper bound are greater. -/
structure Narrowed (entries : List FilterPCEntry) (needle : BitVec 64) (s : PcSearch) : Prop where
  upper : s.upperBound < entries.length
  below : ∀ i (inside : i < entries.length), i < s.lowerBound → ¬ entries[i].hits needle
  above : ∀ i (inside : i < entries.length), s.upperBound < i → needle < entries[i].1

/-- The state of a search, with what a hit and the `break` mean. -/
def Searching (entries : List FilterPCEntry) (needle : BitVec 64) (s : PcSearch) : Prop :=
  match s.status with
  | .running => Narrowed entries needle s
  | .hit index => ∃ inside : index < entries.length, entries[index].hits needle
  | .broke => ∀ i (inside : i < entries.length), ¬ entries[i].hits needle

theorem not_hits_of_above {entry : FilterPCEntry} (above : needle < entry.1) :
    ¬ entry.hits needle := fun hit => absurd hit.1 (BitVec.not_le.mpr above)

/-- A range that ends before another one starts cannot contain what is not below this start. -/
theorem not_hits_of_before (sorted : SortedRanges entries) (before : i < j)
    (inside : j < entries.length) (start : entries[j].1 ≤ needle) : ¬ entries[i].hits needle := by
  intro hit
  have ends := sorted.ends_before before inside
  have contains := ((entries[i].hits_iff needle).mp hit).1.2
  rw [BitVec.le_def] at start
  omega

/-- The rounds that are left, at most. -/
def PcSearch.rest (s : PcSearch) : ℕ :=
  match s.status with
  | .running => s.upperBound + 2 - s.lowerBound
  | _ => 0

/-- **One round keeps the invariant and narrows the search.** -/
theorem searchRound_narrows (sorted : SortedRanges entries) (narrowed : Narrowed entries needle s)
    (goesOn : s.goesOn entries.length) :
    ∃ t, searchRound entries needle s = some t ∧ Searching entries needle t ∧ t.rest < s.rest := by
  obtain ⟨running, -, le⟩ := goesOn
  obtain ⟨upper, below, above⟩ := narrowed
  obtain ⟨mid, mid_eq⟩ : ∃ mid, mid = s.lowerBound + (s.upperBound - s.lowerBound) / 2 := ⟨_, rfl⟩
  have low : s.lowerBound ≤ mid := by omega
  have high : mid ≤ s.upperBound := by omega
  have inside : mid < entries.length := high.trans_lt upper
  have read : entries[mid]? = some entries[mid] := List.getElem?_eq_getElem inside
  have rest : s.rest = s.upperBound + 2 - s.lowerBound := by
    rw [PcSearch.rest, running]
  unfold searchRound
  rw [← mid_eq]
  dsimp only
  rw [read]
  refine ⟨_, rfl, ?_⟩
  dsimp only
  rw [rest]
  by_cases start : entries[mid].1 ≤ needle
  · rw [if_pos start]
    by_cases stop : needle < entries[mid].1 + entries[mid].2.setWidth 64
    · rw [if_pos stop]
      exact ⟨⟨inside, start, stop⟩, by simp only [PcSearch.rest]; omega⟩
    · rw [if_neg stop]
      simp only [Searching, PcSearch.rest, running]
      refine ⟨⟨upper, fun i inner lower => ?_, above⟩, by omega⟩
      rcases Nat.lt_succ_iff_lt_or_eq.mp lower with before | rfl
      · exact not_hits_of_before sorted before inside start
      · exact fun hit => stop hit.2
  · rw [if_neg start]
    have later (i : ℕ) (inner : i < entries.length) (from_mid : mid ≤ i) :
        needle < entries[i].1 := by
      rw [BitVec.not_le] at start
      rcases Nat.eq_or_lt_of_le from_mid with rfl | after
      · exact start
      · have ends := sorted.ends_before after inner
        rw [BitVec.lt_def] at start ⊢
        omega
    by_cases first : mid = 0
    · rw [if_pos first]
      refine ⟨fun i inner => not_hits_of_above (later i inner (by omega)), ?_⟩
      simp only [PcSearch.rest]
      omega
    · rw [if_neg first]
      simp only [Searching, PcSearch.rest, running]
      exact ⟨⟨by dsimp only; omega, below, fun i inner beyond => later i inner
        (by dsimp only at beyond; omega)⟩, by omega⟩

/-- Of sorted ranges at most one is hit. -/
theorem hits_unique (sorted : SortedRanges entries) {inside : i < entries.length}
    {inside' : j < entries.length} (hit : entries[i].hits needle) (hit' : entries[j].hits needle) :
    i = j := by
  rcases Nat.lt_trichotomy i j with before | same | after
  · exact absurd hit (not_hits_of_before sorted before inside' hit'.1)
  · exact same
  · exact absurd hit' (not_hits_of_before sorted after inside hit.1)

/-- The index is that of the range that is hit, if there is one. -/
def FoundIn (entries : List FilterPCEntry) (needle : BitVec 64) (found : Option ℕ) : Prop :=
  ∀ i, found = some i ↔ ∃ entry, entries[i]? = some entry ∧ entry.hits needle

theorem foundIn_some (sorted : SortedRanges entries) {inside : i < entries.length}
    (hit : entries[i].hits needle) : FoundIn entries needle (some i) := by
  refine fun j => ⟨fun same => ?_, ?_⟩
  · cases same
    exact ⟨entries[i], List.getElem?_eq_getElem inside, hit⟩
  · rintro ⟨entry, read, other⟩
    obtain ⟨inner, rfl⟩ := List.getElem?_eq_some_iff.mp read
    exact congrArg some (hits_unique sorted hit other)

theorem foundIn_none (unhit : ∀ i (inside : i < entries.length), ¬ entries[i].hits needle) :
    FoundIn entries needle none := by
  refine fun j => iff_of_false nofun ?_
  rintro ⟨entry, read, hit⟩
  obtain ⟨inside, rfl⟩ := List.getElem?_eq_some_iff.mp read
  exact unhit j inside hit

/-- Where the loop ends, the search is complete. -/
theorem Searching.foundIn (sorted : SortedRanges entries) (searching : Searching entries needle s)
    (stops : ¬ s.goesOn entries.length) : FoundIn entries needle s.status.found := by
  unfold Searching at searching
  cases status : s.status with
  | hit index =>
      rw [status] at searching
      obtain ⟨inside, hit⟩ := searching
      exact foundIn_some sorted hit
  | broke =>
      rw [status] at searching
      exact foundIn_none searching
  | running =>
      rw [status] at searching
      obtain ⟨upper, below, above⟩ := searching
      refine foundIn_none fun i inside => ?_
      by_cases low : i < s.lowerBound
      · exact below i inside low
      · refine not_hits_of_above (above i inside ?_)
        by_contra beyond
        exact stops ⟨status, by omega, by omega⟩

/-- The bounds that a search of a filter that is not empty starts with. -/
theorem narrowed_start (needle : BitVec 64) (positive : 0 < entries.length) :
    Narrowed entries needle { upperBound := entries.length - 1 } :=
  ⟨Nat.sub_lt positive Nat.one_pos, fun i _ low => absurd low (Nat.not_lt_zero i),
    fun i inside beyond => absurd inside (by dsimp only at beyond; omega)⟩

theorem firstUpperBound_of_pos {size : ℕ} (positive : 0 < size) (small : size < 2 ^ 32) :
    firstUpperBound size = size - 1 := by
  unfold firstUpperBound u32Size
  omega

/-- **The search terminates, reads only inside the array and finds the range that is hit.** -/
theorem locateIndexInPcs_spec (small : entries.length < 2 ^ 32) (sorted : SortedRanges entries)
    (needle : BitVec 64) :
    ∃ r, locateIndexInPcs entries needle = some r ∧ FoundIn entries needle r := by
  rcases Nat.eq_zero_or_pos entries.length with empty | positive
  · have idle : ¬ PcSearch.goesOn entries.length
        { upperBound := firstUpperBound entries.length } := by
      rintro ⟨-, inside, -⟩
      rw [empty] at inside
      cases inside
    refine ⟨none, ?_, foundIn_none fun i inside => ?_⟩
    · rw [locateIndexInPcs, whileSome_of_not idle]
      rfl
    · rw [empty] at inside
      cases inside
  · have upper := firstUpperBound_of_pos positive small
    have start : Searching entries needle { upperBound := firstUpperBound entries.length } := by
      rw [upper]
      exact narrowed_start needle positive
    have round (s : PcSearch) (searching : Searching entries needle s)
        (goesOn : s.goesOn entries.length) : ∃ t, searchRound entries needle s = some t ∧
          Searching entries needle t ∧ t.rest < s.rest := by
      rw [Searching, goesOn.1] at searching
      exact searchRound_narrows sorted searching goesOn
    obtain ⟨t, loop, searching, stops⟩ := whileSome_invariant round start
      (show _ ≤ entries.length + 1 by rw [PcSearch.rest, upper]; dsimp only; omega)
    refine ⟨t.status.found, ?_, searching.foundIn sorted stops⟩
    rw [locateIndexInPcs, loop]
    rfl

/-! ## The filter of a module -/

/-- From bounds that keep the invariant, the loop without the index says whether a range is hit. -/
theorem locateFrom_found (sorted : SortedRanges entries) {lower upper : ℕ}
    (narrowed : Narrowed entries needle ⟨lower, upper, .running⟩) :
    ∃ found, FoundIn entries needle found ∧
      locateFrom entries needle lower upper = found.isSome := by
  fun_induction locateFrom entries needle lower upper with
  | case1 lower upper bounds mid beyond =>
      have inside : upper < entries.length := narrowed.upper
      rw [List.getElem?_eq_none_iff] at beyond
      omega
  | case2 lower upper bounds mid start len read reaches covers =>
      obtain ⟨inside, here⟩ := List.getElem?_eq_some_iff.mp read
      have hit : entries[mid].hits needle := here ▸ ⟨reaches, covers⟩
      exact ⟨_, foundIn_some sorted hit, rfl⟩
  | case3 lower upper bounds mid start len read reaches passes ih =>
      obtain ⟨t, round, next, -⟩ := searchRound_narrows sorted narrowed ⟨rfl, bounds⟩
      rw [searchRound, show entries[_]? = _ from read, Option.map_some] at round
      dsimp only at round
      rw [if_pos reaches, if_neg passes] at round
      cases round
      exact ih next
  | case4 lower upper bounds mid start len read beyond first =>
      obtain ⟨t, round, next, -⟩ := searchRound_narrows sorted narrowed ⟨rfl, bounds⟩
      rw [searchRound, show entries[_]? = _ from read, Option.map_some] at round
      dsimp only at round
      rw [if_neg beyond, if_pos first] at round
      cases round
      exact ⟨none, foundIn_none next, rfl⟩
  | case5 lower upper bounds mid start len read beyond later ih =>
      obtain ⟨t, round, next, -⟩ := searchRound_narrows sorted narrowed ⟨rfl, bounds⟩
      rw [searchRound, show entries[_]? = _ from read, Option.map_some] at round
      dsimp only at round
      rw [if_neg beyond, if_neg later] at round
      cases round
      exact ih next
  | case6 lower upper bounds =>
      have searching : Searching entries needle ⟨lower, upper, .running⟩ := narrowed
      exact ⟨none, searching.foundIn sorted fun goesOn => bounds goesOn.2, rfl⟩

/-- The guards that a filter keeps are those of the program counters that a range hits. -/
theorem locateInPcs_iff (sorted : SortedRanges entries) (needle : BitVec 64) :
    locateInPcs entries needle = true ↔ ∃ entry ∈ entries, entry.hits needle := by
  rcases Nat.eq_zero_or_pos entries.length with empty | positive
  · obtain rfl := List.eq_nil_of_length_eq_zero empty
    simp [locateInPcs, locateFrom]
  · obtain ⟨found, right, same⟩ :=
      locateFrom_found sorted (narrowed_start needle positive)
    rw [locateInPcs, same, Option.isSome_iff_exists]
    constructor
    · rintro ⟨i, index⟩
      obtain ⟨entry, read, hit⟩ := (right i).mp index
      exact ⟨entry, List.mem_of_getElem? read, hit⟩
    · rintro ⟨entry, member, hit⟩
      obtain ⟨i, read⟩ := List.getElem?_of_mem member
      exact ⟨i, (right i).mpr ⟨entry, read, hit⟩⟩

/-! ## Ranges at the end of the address space -/

/-- **The range that contains the needle is found exactly if it ends before the end of the address
space**, and nothing is found exactly if there is no such range. -/
theorem locateIndexInPcs_iff (small : entries.length < 2 ^ 32) (sorted : SortedRanges entries)
    (needle : BitVec 64) :
    (∃ r, locateIndexInPcs entries needle = some r ∧
        ∀ i, r = some i ↔ ∃ entry, entries[i]? = some entry ∧ entry.Contains needle) ↔
      ∀ entry ∈ entries, entry.Contains needle → entry.1.toNat + entry.2.toNat < 2 ^ 64 := by
  obtain ⟨r, located, found⟩ := locateIndexInPcs_spec small sorted needle
  constructor
  · rintro ⟨r', located', right⟩ entry member contains
    rw [located, Option.some.injEq] at located'
    subst located'
    obtain ⟨i, read⟩ := List.getElem?_of_mem member
    obtain ⟨entry', read', hit⟩ := (found i).mp ((right i).mpr ⟨entry, read, contains⟩)
    rw [read, Option.some.injEq] at read'
    subst read'
    exact ((entry.hits_iff needle).mp hit).2
  · intro bounded
    refine ⟨r, located, fun i => (found i).trans ?_⟩
    constructor
    · rintro ⟨entry, read, hit⟩
      exact ⟨entry, read, ((entry.hits_iff needle).mp hit).1⟩
    · rintro ⟨entry, read, contains⟩
      have bound := bounded entry (List.mem_of_getElem? read) contains
      exact ⟨entry, read, (entry.hits_iff needle).mpr ⟨contains, bound⟩⟩

/-- The last sixteen bytes of the address space. -/
theorem top_range_missed : SortedRanges [(-16#64, 16#32)] ∧
    FilterPCEntry.Contains (-16#64, 16#32) (-1#64) ∧
      locateIndexInPcs [(-16#64, 16#32)] (-1#64) = some none := by
  refine ⟨?_, ?_, ?_⟩
  · exact List.pairwise_singleton _ _
  · constructor <;> decide
  · decide

/-- The second of two ranges. -/
theorem locateIndexInPcs_iff_second : ∃ r,
    locateIndexInPcs [(16#64, 16#32), (64#64, 8#32)] 65#64 = some r ∧
      ∀ i, r = some i ↔ ∃ entry, [(16#64, 16#32), (64#64, 8#32)][i]? = some entry ∧
        FilterPCEntry.Contains entry 65#64 := by
  refine (locateIndexInPcs_iff (by decide) ?_ 65#64).mpr ?_
  · exact List.pairwise_pair.mpr (by decide)
  · intro entry member _
    simp only [List.mem_cons, List.not_mem_nil, or_false] at member
    rcases member with rfl | rfl <;> decide

end GreenFuzz.CompilerRt
