import GreenFuzz.CompilerRt.CmpLog

/-!
# The attributes of logged routine calls

The routine hooks write the operands and their lengths to the place that the hit counter names,
but the attributes of the two addresses always to the first place of the ring. After an
execution the first place has the attributes of the last call, and every other place those it
had before (`RoutinesLogged`). So the entries describe single calls exactly where these happen
to be the right ones (`routine_entries_iff`).
-/

set_option autoImplicit false

namespace GreenFuzz.CompilerRt

open Library

/-- The attributes of the two addresses of a call. -/
def CmpEntry.addrAttr : CmpEntry → Byte
  | .ins .. => 0
  | .rtn _ ptr1 ptr2 _ _ => addrAttrCombine ptr1.attr ptr2.attr

/-- A place has the operands, the lengths and the attributes of one call. -/
structure CmpMap.DescribesAt (map : CmpMap) (key : ℕ) (entry : CmpEntry) (place : ℕ) : Prop where
  holds : map.HoldsAt key entry place
  attr : (map.cmpfn key place).addrAttr = entry.addrAttr

/-- A key of a map after the given routine calls were logged there, where `start` is the map
before. -/
structure RoutinesLogged (start map : CmpMap) (key : ℕ) (entries : List CmpEntry) : Prop where
  unused : entries = [] → (map.headers key).type ≠ .rtn
  used : entries ≠ [] → (map.headers key).type = .rtn
  hits : (map.headers key).hits = BitVec.ofNat 6 entries.length
  ring : RingHolds CMP_MAP_RTN_H (map.HoldsAt key) entries
  first : ∀ last ∈ entries.getLast?, (map.cmpfn key 0).addrAttr = last.addrAttr
  others : ∀ place, place ≠ 0 →
    (map.cmpfn key place).addrAttr = (start.cmpfn key place).addrAttr

section Logging

variable {start map : CmpMap} {key : ℕ} {entries : List CmpEntry} {entry : CmpEntry}

theorem routinesLogged_nil (map : CmpMap) (key : ℕ) :
    RoutinesLogged map map.clearHeaders key [] where
  unused _ := nofun
  used some := absurd rfl some
  hits := rfl
  ring := ringHolds_nil _ _
  first := nofun
  others _ _ := rfl

/-- The hit counter of a key before and after one more routine call. -/
theorem RoutinesLogged.hit (logged : RoutinesLogged start map key entries)
    (routine : entry.type = .rtn) :
    ((map.headers key).hit entry).1.type = .rtn ∧
      ((map.headers key).hit entry).1.hits = BitVec.ofNat 6 (entries.length + 1) ∧
      ((map.headers key).hit entry).2 = BitVec.ofNat 6 entries.length := by
  cases entry with
  | ins => cases routine
  | rtn l ptr1 ptr2 v0Len v1Len =>
      by_cases unused : entries = []
      · rw [CmpHeader.hit, if_pos (logged.unused unused), unused]
        exact ⟨rfl, rfl, rfl⟩
      · have typed := logged.used unused
        have again : ¬ (map.headers key).type ≠ .rtn := not_not.mpr typed
        rw [CmpHeader.hit, if_neg again, BitVec.ofNat_add, ← logged.hits]
        exact ⟨typed, rfl, rfl⟩

/-- Where a routine call leaves its attributes, and that it keeps those of the other places. -/
theorem addrAttr_write (map : CmpMap) (key : ℕ) (routine : entry.type = .rtn) (place : ℕ) :
    ((map.write key entry).cmpfn key place).addrAttr =
      if place = 0 then entry.addrAttr else (map.cmpfn key place).addrAttr := by
  cases entry with
  | ins => cases routine
  | rtn l ptr1 ptr2 v0Len v1Len =>
      simp only [CmpMap.write, Function.update_self]
      by_cases first : place = 0
      · subst first
        rw [Function.update_self, if_pos rfl]
        rfl
      · rw [Function.update_of_ne first, if_neg first]
        by_cases here : place = ((map.headers key).hit (.rtn l ptr1 ptr2 v0Len v1Len)).2.toNat &&&
            (CMP_MAP_RTN_H - 1)
        · rw [← here, Function.update_self]
          rfl
        · rw [Function.update_of_ne here]

theorem RoutinesLogged.write (logged : RoutinesLogged start map key entries)
    (routine : entry.type = .rtn) :
    RoutinesLogged start (map.write key entry) key (entries ++ [entry]) := by
  obtain ⟨typed, counted, placed⟩ := logged.hit routine
  have header := headers_write_self map key entry
  have nonempty : entries ++ [entry] ≠ [] := List.append_ne_nil_of_right_ne_nil _ (by simp)
  refine ⟨fun none => absurd none nonempty, fun _ => ?_, ?_, ?_, ?_, fun place other => ?_⟩
  · rw [header, typed]
  · rw [header, counted, List.length_append, List.length_singleton]
  · refine ringHolds_write logged.ring ?_
    rw [CmpMap.place, placed, routine]
    exact place_eq .rtn entries.length
  · intro last member
    rw [List.getLast?_append_of_ne_nil _ (by simp)] at member
    cases member
    rw [addrAttr_write map key routine, if_pos rfl]
    rfl
  · rw [addrAttr_write map key routine, if_neg other, logged.others place other]

/-- Logging at another key. -/
theorem RoutinesLogged.write_other (logged : RoutinesLogged start map key entries) {other : ℕ}
    (elsewhere : key ≠ other) (entry : CmpEntry) :
    RoutinesLogged start (map.write other entry) key entries := by
  have header := headers_write_other map elsewhere entry
  have places : (map.write other entry).cmpfn key = map.cmpfn key := by
    cases entry with
    | ins => rfl
    | rtn => exact Function.update_of_ne elsewhere ..
  have held := holdsAt_write_other map elsewhere entry
  exact ⟨header ▸ logged.unused, header ▸ logged.used, header ▸ logged.hits, held ▸ logged.ring,
    places ▸ logged.first, places ▸ logged.others⟩

/-- **What an execution leaves at a key** that only routine hooks hit. -/
theorem routinesLogged_run (maxLen : ℕ) (map : CmpMap) (key : ℕ) (calls : List (ℕ × CmpCall))
    (routines : ∀ entry ∈ loggedAt maxLen key calls, entry.type = .rtn) :
    RoutinesLogged map (map.clearHeaders.execute maxLen calls) key
      (loggedAt maxLen key calls) := by
  refine logged_run (P := fun after entries => RoutinesLogged map after key entries) maxLen map key
    (routinesLogged_nil map key) ?_ ?_ calls routines
  · intro after entries entry routine logged
    exact logged.write routine
  · intro after entries other entry elsewhere logged
    exact logged.write_other elsewhere entry

/-- The attributes that the places have after an execution are those of the calls that they
should describe: the last call has the attributes of the last one written to the first place, and
the other places had theirs before. -/
structure AttrsAgree (start : CmpMap) (key : ℕ) (entries : List CmpEntry) : Prop where
  first : 0 < entries.length % 64 → ∀ last ∈ entries.getLast?,
    ∀ entry ∈ lastIn CMP_MAP_RTN_H entries 0, last.addrAttr = entry.addrAttr
  others : ∀ place, place ≠ 0 → place < min (entries.length % 64) CMP_MAP_RTN_H →
    ∀ entry ∈ lastIn CMP_MAP_RTN_H entries place,
      (start.cmpfn key place).addrAttr = entry.addrAttr

/-- A place below the counter has the operands and the lengths of the last call written to it. -/
theorem RoutinesLogged.describesAt_iff (logged : RoutinesLogged start map key entries) {place : ℕ}
    (below : place < min (entries.length % 64) CMP_MAP_RTN_H) :
    ∃ entry, lastIn CMP_MAP_RTN_H entries place = some entry ∧
      (map.DescribesAt key entry place ↔
        (map.cmpfn key place).addrAttr = entry.addrAttr) := by
  have written : place < entries.length :=
    (lt_of_lt_of_le below (min_le_left _ _)).trans_le (Nat.mod_le _ _)
  obtain ⟨entry, last⟩ := lastIn_isSome (h := CMP_MAP_RTN_H) written
  have held := logged.ring.last (lt_of_lt_of_le below (min_le_right _ _)) last
  exact ⟨entry, last, fun describes => describes.attr, fun attr => ⟨held, attr⟩⟩

theorem RoutinesLogged.describes_iff (logged : RoutinesLogged start map key entries) :
    (∀ place < min (map.headers key).hits.toNat CMP_MAP_RTN_H,
        ∃ entry, lastIn CMP_MAP_RTN_H entries place = some entry ∧
          map.DescribesAt key entry place) ↔
      AttrsAgree start key entries := by
  have counter : (map.headers key).hits.toNat = entries.length % 64 := by
    rw [logged.hits, BitVec.toNat_ofNat]
  rw [counter]
  constructor
  · intro describes
    refine ⟨fun some last member entry written => ?_, fun place other below entry written => ?_⟩
    · obtain ⟨described, same, describe⟩ := describes 0 (lt_min some (by decide))
      obtain rfl := Option.some.inj (same.symm.trans written)
      rw [← logged.first last member, describe.attr]
    · obtain ⟨described, same, describe⟩ := describes place below
      obtain rfl := Option.some.inj (same.symm.trans written)
      rw [← logged.others place other, describe.attr]
  · intro agree place below
    obtain ⟨entry, written, describes⟩ := logged.describesAt_iff below
    refine ⟨entry, written, describes.mpr ?_⟩
    by_cases first : place = 0
    · subst first
      have some : 0 < entries.length % 64 := lt_of_lt_of_le below (min_le_left _ _)
      have nonempty : entries ≠ [] := by
        rintro rfl
        exact absurd some (lt_irrefl 0)
      have last := List.getLast?_eq_some_getLast nonempty
      rw [logged.first _ last, agree.first some _ last _ written]
    · rw [logged.others place first, agree.others place first below _ written]

/-- **The entries of a routine log describe single calls**, with their operands, lengths and
attributes, exactly if the attributes that the hooks leave in the places agree with them. -/
theorem routine_entries_iff (maxLen : ℕ) (map : CmpMap) (key : ℕ) (calls : List (ℕ × CmpCall))
    (routines : ∀ entry ∈ loggedAt maxLen key calls, entry.type = .rtn) :
    (∀ place < min ((map.clearHeaders.execute maxLen calls).headers key).hits.toNat CMP_MAP_RTN_H,
        ∃ entry, lastIn CMP_MAP_RTN_H (loggedAt maxLen key calls) place = some entry ∧
          (map.clearHeaders.execute maxLen calls).DescribesAt key entry place) ↔
      AttrsAgree map key (loggedAt maxLen key calls) :=
  (routinesLogged_run maxLen map key calls routines).describes_iff

/-- A readable region, with the attribute of its address. -/
def readable (byte attr : Byte) : Region :=
  { bytes := fun _ => byte, valid := fun len => len, attr := attr }

/-- A call that compares a region that no program header covers with a read-only one. -/
def inputFirst : CmpCall := .rtn (readable 65 0) (readable 66 1)

/-- The same with the arguments exchanged. -/
def inputSecond : CmpCall := .rtn (readable 66 1) (readable 65 0)

/-- After one call its entry has the attributes of the call. -/
theorem routine_entries_iff_one : AttrsAgree {} 7 (loggedAt 32 7 [(7, inputFirst)]) ∧
    ∀ place < min ((({} : CmpMap).clearHeaders.execute 32 [(7, inputFirst)]).headers
        7).hits.toNat CMP_MAP_RTN_H,
      ∃ entry, lastIn CMP_MAP_RTN_H (loggedAt 32 7 [(7, inputFirst)]) place = some entry ∧
        (({} : CmpMap).clearHeaders.execute 32 [(7, inputFirst)]).DescribesAt 7 entry place := by
  have agree : AttrsAgree {} 7 (loggedAt 32 7 [(7, inputFirst)]) :=
    { first := fun _ last isLast entry isFirst => by
        cases isLast
        cases isFirst
        rfl
      others := fun place other below => absurd (Nat.lt_one_iff.mp below) other }
  refine ⟨agree, (routine_entries_iff 32 {} 7 [(7, inputFirst)] fun entry member => ?_).mpr agree⟩
  obtain rfl := List.mem_singleton.mp member
  rfl

/-- After both calls the first entry has the attributes of the second call, and the second entry
has none. -/
theorem second_call_overwrites :
    let map := ({} : CmpMap).clearHeaders.execute 32 [(7, inputFirst), (7, inputSecond)]
    (map.headers 7).hits = 2 ∧
      (map.cmpfn 7 0).v0 0 = 65 ∧ (map.cmpfn 7 0).addrAttr = addrAttrCombine 1 0 ∧
      (map.cmpfn 7 1).v0 0 = 66 ∧ (map.cmpfn 7 1).addrAttr = addrAttrCombine 0 0 := by
  decide

end Logging

end GreenFuzz.CompilerRt
