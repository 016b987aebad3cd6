import GreenFuzz.AflFuzz.Deunicode

/-!
# The order of the user dictionary

Dictionaries are loaded, the target adds tokens in the handshake, and before the first run strings
are narrowed and duplicates removed. The comparison of lengths as an `int` needs short tokens, and
the early exits need sorted ones. Every producer keeps both (`DictionaryStep.inOrder`).

**The user dictionary is sorted by length after every load, addition, conversion and removal of
duplicates, and the last leaves each token of a sorted list once, in their order**
(`userDictionary_inOrder`).
-/

set_option autoImplicit false

namespace GreenFuzz.AflFuzz

open Library

/-- What changes `extras`. -/
inductive DictionaryStep (Q : Qsort) (extras : List Token) : List Token → Prop where
  | loadExtras {after : List Token} (opendir : List Byte → ExtrasSource) (dir : List Byte)
      (loaded : loadExtras Q opendir dir extras = .ok after) : DictionaryStep Q extras after
  | addExtra (mem : Token) : DictionaryStep Q extras (addExtra Q mem extras)
  | deunicodeExtras {after : List Token} (converted : deunicodeExtras Q extras = some after) :
      DictionaryStep Q extras after
  | dedupExtras : DictionaryStep Q extras (dedupExtras extras)

/-- Any of these, in any order, from an empty dictionary. -/
def dictionarySystem (Q : Qsort) : TransitionSystem (List Token) where
  init extras := extras = []
  step := DictionaryStep Q

variable {Q : Qsort} {extras after : List Token}

/-- `deunicode_extras` adds short tokens only. -/
theorem InOrder.deunicodeExtras (held : InOrder extras)
    (converted : deunicodeExtras Q extras = some after) : InOrder after := by
  rw [deunicodeExtras_eq, Option.some.injEq] at converted
  rw [← converted]
  split
  · exact ⟨.nil, nofun⟩
  · refine Bounded.sort Q (List.forall_mem_append.mpr ⟨held.bounded, fun token member => ?_⟩)
    obtain ⟨data, -, added⟩ := List.mem_flatMap.mp member
    exact (length_le_of_mem_plainTokens added).trans (by decide)

/-- Each step keeps the dictionary in order. -/
theorem DictionaryStep.inOrder (held : InOrder extras) (taken : DictionaryStep Q extras after) :
    InOrder after := by
  cases taken with
  | loadExtras opendir dir loaded => exact held.bounded.loadExtras Q loaded
  | addExtra mem => exact held.addExtra Q mem
  | deunicodeExtras converted => exact held.deunicodeExtras converted
  | dedupExtras => exact held.dedupExtras

/-- Every dictionary that is reached is in order. -/
theorem inOrder_reachable (run : Reachable (dictionarySystem Q) extras) : InOrder extras := by
  refine run.invariant (P := InOrder) (fun extras start => ?_) fun extras after _ held taken => ?_
  · obtain rfl : extras = [] := start
    exact ⟨.nil, nofun⟩
  · exact DictionaryStep.inOrder (Q := Q) held taken

/-- **The user dictionary stays sorted and duplicates are removed.** After any loads, additions,
conversions and removals `extras` is sorted by length. On any sorted list `dedup_extras` ends, with
the same tokens, none twice, in the same order. -/
theorem userDictionary_inOrder (Q : Qsort) :
    (∀ extras, Reachable (dictionarySystem Q) extras → SortedByLength extras) ∧
      ∀ extras, SortedByLength extras →
        (∀ token, token ∈ dedupExtras extras ↔ token ∈ extras) ∧ (dedupExtras extras).Nodup ∧
          (dedupExtras extras).Sublist extras :=
  ⟨fun _ run => (inOrder_reachable run).sorted, fun _ sorted => dedupExtras_spec sorted⟩

/-- A string and its wide form are added, the conversion adds the string once more, and one of the
two is removed. -/
theorem userDictionary_twice :
    let wide := WideEncoding.utf16be.encode [97, 98, 99]
    let added := addExtra insertionQsort [97, 98, 99] (addExtra insertionQsort wide [])
    let converted := [[97, 98, 99], [97, 98, 99], wide]
    deunicodeExtras insertionQsort added = some converted ∧ SortedByLength converted ∧
      dedupExtras converted = [[97, 98, 99], wide] ∧ (dedupExtras converted).Nodup := by
  have conversion : deunicodeExtras insertionQsort
      (addExtra insertionQsort [97, 98, 99]
        (addExtra insertionQsort (WideEncoding.utf16be.encode [97, 98, 99]) [])) =
      some [[97, 98, 99], [97, 98, 99], WideEncoding.utf16be.encode [97, 98, 99]] := by
    decide +kernel
  have start : Reachable (dictionarySystem insertionQsort) [] := .init rfl
  have run := ((start.step (.addExtra (WideEncoding.utf16be.encode [97, 98, 99]))).step
    (.addExtra [97, 98, 99])).step (.deunicodeExtras conversion)
  obtain ⟨sorted, removes⟩ := userDictionary_inOrder insertionQsort
  exact ⟨conversion, sorted _ run, by decide +kernel, (removes _ (sorted _ run)).2.1⟩

end GreenFuzz.AflFuzz
