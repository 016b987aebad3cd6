import GreenFuzz.CompilerRt.CmpLog

/-!
# Which logged comparisons the fuzzer attacks

After an execution of the target `input_to_state_stage` goes through the keys of
`cmp_map`. A key without hits is passed over, and so is one that failed too often.
`cmp_fuzz` and `rtn_fuzz` bound their loop over the entries of a key by its hits and by the
size of its ring.

The counter of hits has 6 bits and wraps, so the loop covers the logged comparisons exactly
when their number is below 64 or its remainder fills the ring (`entries_agree_iff`). After
64 comparisons a key is treated as not hit (`sixtyFour_not_hit`).
-/

set_option autoImplicit false

namespace GreenFuzz.AflFuzz

open CompilerRt Library

/-- `struct afl_pass_stat`. -/
structure PassStat where
  total : ℕ := 0
  faileds : ℕ := 0

def CMPLOG_FAIL_MAX : ℕ := 96

/-- A key that is ignored from now on. -/
def PassStat.exhausted (stat : PassStat) : Bool :=
  CMPLOG_FAIL_MAX ≤ stat.faileds || CMPLOG_FAIL_MAX ≤ stat.total

/-- The bits of `lvl` that the loop over the keys tests, and `cmplog_enable_transform`. -/
structure CmplogLevel where
  lvl1 : Bool
  lvl3 : Bool
  enableTransform : Bool

/-- Routines are attacked. -/
def CmplogLevel.routines (level : CmplogLevel) : Bool :=
  level.lvl1 || (level.lvl3 && level.enableTransform)

/-- `SHAPE_BYTES`. -/
def shapeBytes (shape : BitVec 5) : ℕ := shape.toNat + 1

/-- The first loop over the keys: `headers[k].hits = 0` for an exhausted key. -/
def ignoreExhausted (stat : PassStat) (h : CmpHeader) : CmpHeader :=
  if h.hits ≠ 0 ∧ stat.exhausted then { h with hits := 0 } else h

/-- The bound of the loop of `cmp_fuzz`. -/
def cmpFuzzLoggeds (h : CmpHeader) : ℕ :=
  if shapeBytes h.shape < 2 then 0 else if CMP_MAP_H < h.hits.toNat then CMP_MAP_H else h.hits.toNat

/-- The bound of the loop of `rtn_fuzz`. -/
def rtnFuzzLoggeds (h : CmpHeader) : ℕ :=
  if shapeBytes h.shape < 2 then 0
  else if CMP_MAP_RTN_H < h.hits.toNat then CMP_MAP_RTN_H
  else h.hits.toNat

/-- How many entries of a key the stage goes through. -/
def processedEntries (level : CmplogLevel) (stat : PassStat) (h : CmpHeader) : ℕ :=
  let h := ignoreExhausted stat h
  if h.hits = 0 then 0
  else if h.type = .ins then cmpFuzzLoggeds h
  else if level.routines then rtnFuzzLoggeds h
  else 0

/-- The stage attacks keys of a type with these statistics. -/
def Attacked (level : CmplogLevel) (stat : PassStat) (type : CmpType) : Prop :=
  stat.exhausted = false ∧ (type = .rtn → level.routines = true)

section Keys

variable {level : CmplogLevel} {stat : PassStat} {type : CmpType} {map : CmpMap} {key : ℕ}
  {entries : List CmpEntry}

/-- The loop covers the counted hits, up to the size of the ring. -/
theorem processedEntries_eq (attacked : Attacked level stat type)
    (logged : KeyLogged type map key entries) (hit : entries ≠ []) :
    processedEntries level stat (map.headers key) = min (entries.length % 64) type.places := by
  obtain ⟨enabled, routines⟩ := attacked
  obtain ⟨typed, shaped⟩ := logged.used hit
  have counted : (map.headers key).hits.toNat = entries.length % 64 := by
    rw [logged.hits, BitVec.toNat_ofNat]
  have kept : ignoreExhausted stat (map.headers key) = map.headers key := by
    simp only [ignoreExhausted, enabled, Bool.false_eq_true, and_false, if_false]
  have wide : ¬ shapeBytes (map.headers key).shape < 2 := by
    simp only [shapeBytes]
    omega
  have zero : (map.headers key).hits = 0 ↔ entries.length % 64 = 0 := by
    rw [← counted]
    exact BitVec.toNat_inj.symm
  simp only [processedEntries, kept, zero, typed]
  by_cases wrapped : entries.length % 64 = 0
  · rw [if_pos wrapped, wrapped, Nat.zero_min]
  · rw [if_neg wrapped]
    cases type with
    | ins =>
        simp only [if_true, cmpFuzzLoggeds, if_neg wide, counted, CmpType.places, min_comm,
          min_def_lt]
    | rtn =>
        simp only [reduceCtorEq, if_false, routines rfl, if_true, rtnFuzzLoggeds, if_neg wide,
          counted, CmpType.places, min_comm, min_def_lt]

end Keys

/-- **The fuzzer goes through as many entries of a key as were logged there**, up to the
size of the ring, and they hold the operands last written to their places, exactly when
fewer than 64 comparisons were logged or the remainder of their number fills the ring. The key is
one that is attacked, with comparisons of 2 to 32 bytes: those of one byte are passed over. -/
theorem entries_agree_iff (maxLen key : ℕ) (map : CmpMap) (type : CmpType)
    (calls : List (ℕ × CmpCall)) (level : CmplogLevel) (stat : PassStat)
    (attacked : Attacked level stat type)
    (kind : ∀ entry ∈ loggedAt maxLen key calls, entry.type = type)
    (wide : ∀ entry ∈ loggedAt maxLen key calls, entry.Wide)
    (hit : loggedAt maxLen key calls ≠ []) :
    (processedEntries level stat ((map.clearHeaders.execute maxLen calls).headers key) =
        min (loggedAt maxLen key calls).length type.places ∧
      ∀ i entry, (loggedAt maxLen key calls)[i]? = some entry →
        i % type.places < min (loggedAt maxLen key calls).length type.places →
        (loggedAt maxLen key calls).length ≤ i + type.places →
          (map.clearHeaders.execute maxLen calls).HoldsAt key entry (i % type.places)) ↔
      (loggedAt maxLen key calls).length < 64 ∨
        type.places ≤ (loggedAt maxLen key calls).length % 64 := by
  have logged := keyLogged_run maxLen map key type calls kind wide
  have places : type.places = 32 ∨ type.places = 16 := by
    cases type with
    | ins => exact Or.inl rfl
    | rtn => exact Or.inr rfl
  rw [processedEntries_eq attacked logged hit]
  constructor
  · rintro ⟨agree, -⟩
    omega
  · intro fits
    exact ⟨by omega, fun i entry found _ last => logged.ring i entry found last⟩

/-- A loop of comparisons of a counter with -1, at one site. -/
def countingLoop (n : ℕ) : List (ℕ × CmpCall) :=
  (List.range n).map fun i => (7, .hook4 (BitVec.ofNat 32 i) (-1) 1)

theorem entries_agree_three :
    processedEntries ⟨true, false, false⟩ {}
      ((({} : CmpMap).clearHeaders.execute 32 (countingLoop 3)).headers 7) = 3 :=
  ((entries_agree_iff 32 7 {} .ins (countingLoop 3) ⟨true, false, false⟩ {}
    ⟨rfl, fun routine => by cases routine⟩
    (by simp [countingLoop, loggedAt, CmpCall.entry, CmpEntry.type, List.range_succ])
    (by simp [countingLoop, loggedAt, CmpCall.entry, CmpEntry.Wide, CmpEntry.width,
      List.range_succ])
    (by simp [countingLoop, loggedAt, CmpCall.entry, List.range_succ])).mpr
      (Or.inl (by decide))).1

/-- After 64 comparisons the key counts as not hit. -/
theorem sixtyFour_not_hit :
    (loggedAt 32 7 (countingLoop 64)).length = 64 ∧
      processedEntries ⟨true, false, false⟩ {}
        ((({} : CmpMap).clearHeaders.execute 32 (countingLoop 64)).headers 7) = 0 := by
  decide +kernel

end GreenFuzz.AflFuzz
