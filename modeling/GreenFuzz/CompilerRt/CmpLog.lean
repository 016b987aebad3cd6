import GreenFuzz.Library.ByteWords
import GreenFuzz.Library.Rings
import Mathlib.Logic.Function.Basic

/-!
# The comparison log of a target

A target compiled for CmpLog calls a hook at each comparison. The hook hashes its return
address to a key of the shared `cmp_map`, counts the hit in the packed header of the key
and writes the operands to the next of the key's entries. The counter has 6 bits, and the
entries are a ring of `CMP_MAP_H` places, or of `CMP_MAP_RTN_H` when a routine is compared.

The two kinds of entries are two views of one memory. A key that is used by hooks of one
kind only is never read through the other view, so the model keeps a map for each.

After `n` logged calls of one kind the counter is `n` modulo 64 and each place of the ring
holds the last operands written to it (`KeyLogged`, `keyLogged_run`).
-/

set_option autoImplicit false

namespace GreenFuzz.CompilerRt

open Library

def CMP_MAP_H : ℕ := 32

def CMP_MAP_RTN_H : ℕ := 16

/-- `CMP_TYPE_INS` and `CMP_TYPE_RTN`. -/
inductive CmpType where
  | ins | rtn
  deriving DecidableEq, Repr

/-- The places of the ring of a key. -/
def CmpType.places : CmpType → ℕ
  | .ins => CMP_MAP_H
  | .rtn => CMP_MAP_RTN_H

/-- `struct cmp_header`. -/
structure CmpHeader where
  hits : BitVec 6 := 0
  shape : BitVec 5 := 0
  type : CmpType := .ins
  attr : BitVec 4 := 0
  deriving DecidableEq, Repr

/-- `struct cmp_operands`. -/
structure CmpOperands where
  v0 : BitVec 64 := 0
  v0_128 : BitVec 64 := 0
  v1 : BitVec 64 := 0
  v1_128 : BitVec 64 := 0
  deriving DecidableEq, Repr

/-- `struct cmpfn_operands`. -/
structure CmpfnOperands where
  v0 : Buffer := fun _ => 0
  v1 : Buffer := fun _ => 0
  v0Len : Byte := 0
  v1Len : Byte := 0
  addrAttr : Byte := 0

/-- `struct cmp_map`. -/
structure CmpMap where
  headers : ℕ → CmpHeader := fun _ => {}
  /-- `log[k][i]`. -/
  log : ℕ → ℕ → CmpOperands := fun _ _ => {}
  /-- `((struct cmpfn_operands *)log[k])[i]`. -/
  cmpfn : ℕ → ℕ → CmpfnOperands := fun _ _ => {}

/-! ## The calls of the hooks -/

/-- A memory region that a pointer points to. -/
structure Region where
  null : Bool := false
  bytes : Buffer
  /-- `area_is_valid`, for a length. -/
  valid : ℕ → ℕ
  /-- `get_prog_addr_attr`. -/
  attr : Byte := 0

/-- `strnlen`. -/
def strnlen (bytes : Buffer) (n : ℕ) : ℕ :=
  ((List.range n).find? fun i => bytes i = 0).getD n

/-- A call of a hook, without its key. A call of `__sanitizer_cov_trace_switch` is one
call for each of its cases. -/
inductive CmpCall where
  | hook2 (arg1 arg2 : BitVec 16) (attr : BitVec 4)
  | hook4 (arg1 arg2 : BitVec 32) (attr : BitVec 4)
  | hook8 (arg1 arg2 : BitVec 64) (attr : BitVec 4)
  | hookN (arg1 arg2 : BitVec 128) (attr : BitVec 4) (size : ℕ)
  | hook16 (arg1 arg2 : BitVec 128) (attr : BitVec 4)
  | switchCase (val case : BitVec 64)
  | strn (ptr1 ptr2 : Region) (len : ℕ)
  | str (ptr1 ptr2 : Region)
  | rtn (ptr1 ptr2 : Region)

/-- What a hook logs. -/
inductive CmpEntry where
  /-- The width less one, the attribute, the operands, and whether the upper halves are
  written. -/
  | ins (shape : ℕ) (attr : BitVec 4) (v0 v1 : BitVec 128) (upper : Bool)
  /-- The number of bytes compared, and the logged lengths. -/
  | rtn (l : ℕ) (ptr1 ptr2 : Region) (v0Len v1Len : ℕ)

def CmpEntry.type : CmpEntry → CmpType
  | .ins .. => .ins
  | .rtn .. => .rtn

/-- How many bytes are compared. -/
def CmpEntry.width : CmpEntry → ℕ
  | .ins shape .. => shape + 1
  | .rtn l .. => l

/-- `if (!len1) l = len2; else if (!len2) l = len1; else l = MAX(len1, len2);`. -/
def longer (len1 len2 : ℕ) : ℕ :=
  if len1 = 0 then len2 else if len2 = 0 then len1 else max len1 len2

/-- `if (len > __afl_cmplog_max_len) len = 0;`. -/
def capLen (maxLen len : ℕ) : ℕ := if maxLen < len then 0 else len

/-- The length of one operand in `__cmplog_rtn_hook_strn`. -/
def strnOperandLen (maxLen len : ℕ) (ptr : Region) : ℕ :=
  let len1 := strnlen ptr.bytes (min len 32)
  capLen maxLen (if len1 ≤ 32 then ptr.valid (len1 + 1) else len1)

/-- What a call logs, if it does not return before it has a key. -/
def CmpCall.entry (maxLen : ℕ) : CmpCall → Option CmpEntry
  | .hook2 arg1 arg2 attr =>
      if arg1 = arg2 then none
      else some (.ins 1 attr (arg1.setWidth 128) (arg2.setWidth 128) false)
  | .hook4 arg1 arg2 attr =>
      if arg1 = arg2 then none
      else some (.ins 3 attr (arg1.setWidth 128) (arg2.setWidth 128) false)
  | .hook8 arg1 arg2 attr =>
      if arg1 = arg2 then none
      else some (.ins 7 attr (arg1.setWidth 128) (arg2.setWidth 128) false)
  | .hookN arg1 arg2 attr size =>
      if arg1 = arg2 ∨ maxLen < size then none
      else some (.ins size attr arg1 arg2 (7 < size))
  | .hook16 arg1 arg2 attr =>
      if maxLen < 16 then none else some (.ins 15 attr arg1 arg2 true)
  | .switchCase val case => some (.ins 7 1 (val.setWidth 128) (case.setWidth 128) false)
  | .strn ptr1 ptr2 len =>
      if len = 0 ∨ maxLen < len then none
      else
        let l := longer (strnOperandLen maxLen len ptr1) (strnOperandLen maxLen len ptr2)
        if l < 2 then none else some (.rtn l ptr1 ptr2 (0x80 + l) (0x80 + l))
  | .str ptr1 ptr2 =>
      if ptr1.null ∨ ptr2.null then none
      else
        let len1 := capLen maxLen (strnlen ptr1.bytes 31 + 1)
        let len2 := capLen maxLen (strnlen ptr2.bytes 31 + 1)
        let l := longer len1 len2
        if l < 2 then none else some (.rtn l ptr1 ptr2 (0x80 + len1) (0x80 + len2))
  | .rtn ptr1 ptr2 =>
      if ptr1.valid 32 = 0 ∨ ptr2.valid 32 = 0 then none
      else
        let len := min maxLen (min (ptr1.valid 32) (ptr2.valid 32))
        some (.rtn len ptr1 ptr2 len len)

/-! ## Logging -/

/-- The header after a hit, and the counter that the hook indexes the ring with. -/
def CmpHeader.hit (h : CmpHeader) : CmpEntry → CmpHeader × BitVec 6
  | .ins shape attr _ _ _ =>
      if h.type ≠ .ins then
        ({ type := .ins, hits := 1, shape := BitVec.ofNat 5 shape, attr := attr }, 0)
      else
        ({ h with
            hits := h.hits + 1
            shape := if h.shape.toNat < shape then BitVec.ofNat 5 shape else h.shape
            attr := attr }, h.hits)
  | .rtn l _ _ _ _ =>
      if h.type ≠ .rtn then
        ({ h with type := .rtn, hits := 1, shape := BitVec.ofNat 5 (l - 1) }, 0)
      else
        ({ h with
            hits := h.hits + 1
            shape := if h.shape.toNat < l then BitVec.ofNat 5 (l - 1) else h.shape }, h.hits)

/-- `ADDR_ATTR_COMBINE`. -/
def addrAttrCombine (attr1 attr2 : Byte) : Byte := (attr1 &&& 3) + ((attr2 &&& 3) <<< 2)

/-- The operands that an instruction hook leaves in a place. -/
def CmpOperands.write (o : CmpOperands) (v0 v1 : BitVec 128) (upper : Bool) : CmpOperands :=
  { v0 := v0.setWidth 64
    v1 := v1.setWidth 64
    v0_128 := if upper then (v0 >>> 64).setWidth 64 else o.v0_128
    v1_128 := if upper then (v1 >>> 64).setWidth 64 else o.v1_128 }

/-- The operands that a routine hook leaves in a place. The bytes after the first 32
belong to other fields. -/
def CmpfnOperands.write (o : CmpfnOperands) (ptr1 ptr2 : Region) (v0Len v1Len : ℕ) :
    CmpfnOperands :=
  { o with
    v0 := fun j => if j < 32 then ptr1.bytes j else 0
    v1 := fun j => if j < 32 then ptr2.bytes j else 0
    v0Len := BitVec.ofNat 8 v0Len
    v1Len := BitVec.ofNat 8 v1Len }

/-- Log an entry. A routine hook stores the attributes of both addresses in the first
place, whichever place it writes the operands to. -/
def CmpMap.write (map : CmpMap) (key : ℕ) (entry : CmpEntry) : CmpMap :=
  let counted := (map.headers key).hit entry
  let map := { map with headers := Function.update map.headers key counted.1 }
  match entry with
  | .ins _ _ v0 v1 upper =>
      let hits := counted.2.toNat &&& (CMP_MAP_H - 1)
      { map with
        log := Function.update map.log key
          (Function.update (map.log key) hits ((map.log key hits).write v0 v1 upper)) }
  | .rtn _ ptr1 ptr2 v0Len v1Len =>
      let hits := counted.2.toNat &&& (CMP_MAP_RTN_H - 1)
      let places := Function.update (map.cmpfn key) hits
        ((map.cmpfn key hits).write ptr1 ptr2 v0Len v1Len)
      let first := { places 0 with addrAttr := addrAttrCombine ptr1.attr ptr2.attr }
      { map with cmpfn := Function.update map.cmpfn key (Function.update places 0 first) }

/-- A call of a hook at a site whose return address hashes to `key`. -/
def CmpMap.call (maxLen : ℕ) (map : CmpMap) (site : ℕ × CmpCall) : CmpMap :=
  (site.2.entry maxLen).elim map (map.write site.1)

/-- The log after an execution, of which `calls` are the calls in order. -/
def CmpMap.execute (maxLen : ℕ) (map : CmpMap) (calls : List (ℕ × CmpCall)) : CmpMap :=
  calls.foldl (CmpMap.call maxLen) map

/-- `memset(afl->shm.cmp_map->headers, 0, ..)`, before an execution. -/
def CmpMap.clearHeaders (map : CmpMap) : CmpMap := { map with headers := fun _ => {} }

/-! ## What is logged at a key -/

/-- The operands of an entry are in place `place` of the ring of a key. -/
def CmpMap.HoldsAt (map : CmpMap) (key : ℕ) : CmpEntry → ℕ → Prop
  | .ins _ _ v0 v1 upper, place =>
      (map.log key place).v0 = v0.setWidth 64 ∧ (map.log key place).v1 = v1.setWidth 64 ∧
        (upper → (map.log key place).v0_128 = (v0 >>> 64).setWidth 64 ∧
          (map.log key place).v1_128 = (v1 >>> 64).setWidth 64)
  | .rtn _ ptr1 ptr2 v0Len v1Len, place =>
      (∀ j < 32, (map.cmpfn key place).v0 j = ptr1.bytes j ∧
        (map.cmpfn key place).v1 j = ptr2.bytes j) ∧
        (map.cmpfn key place).v0Len = BitVec.ofNat 8 v0Len ∧
        (map.cmpfn key place).v1Len = BitVec.ofNat 8 v1Len

/-- The entries that an execution logs at a key. -/
def loggedAt (maxLen key : ℕ) (calls : List (ℕ × CmpCall)) : List CmpEntry :=
  calls.filterMap fun site => if site.1 = key then site.2.entry maxLen else none

/-- A comparison of at least two bytes, and at most the 32 that fit the shape. -/
def CmpEntry.Wide (entry : CmpEntry) : Prop := 2 ≤ entry.width ∧ entry.width ≤ 32

/-- The header and the ring of a key after the given entries, all of one type, were logged
there. -/
structure KeyLogged (type : CmpType) (map : CmpMap) (key : ℕ) (entries : List CmpEntry) :
    Prop where
  unused : entries = [] → map.headers key = {}
  hits : (map.headers key).hits = BitVec.ofNat 6 entries.length
  used : entries ≠ [] → (map.headers key).type = type ∧ 1 ≤ (map.headers key).shape.toNat
  ring : RingHolds type.places (map.HoldsAt key) entries

section Logging

variable {type : CmpType} {map : CmpMap} {key : ℕ} {entries : List CmpEntry} {entry : CmpEntry}

/-- The place that the counter names is the counter modulo the number of places. -/
theorem place_eq (type : CmpType) (n : ℕ) :
    (BitVec.ofNat 6 n).toNat &&& (type.places - 1) = n % type.places := by
  have masked (k : ℕ) (few : k ≤ 6) : (BitVec.ofNat 6 n).toNat &&& (2 ^ k - 1) = n % 2 ^ k := by
    rw [Nat.and_two_pow_sub_one_eq_mod, BitVec.toNat_ofNat]
    exact Nat.mod_mod_of_dvd n (Nat.pow_dvd_pow 2 few)
  cases type with
  | ins => exact masked 5 (by decide)
  | rtn => exact masked 4 (by decide)

/-- The place that the next entry of a key is written to. -/
def CmpMap.place (map : CmpMap) (key : ℕ) (entry : CmpEntry) : ℕ :=
  ((map.headers key).hit entry).2.toNat &&& (entry.type.places - 1)

/-- Storing the attributes of the addresses keeps the operands of every place. -/
theorem addrAttr_keeps (places : ℕ → CmpfnOperands) (attr : Byte) (place : ℕ) :
    ∃ kept, Function.update places 0 { places 0 with addrAttr := attr } place =
      { places place with addrAttr := kept } := by
  by_cases first : place = 0
  · subst first
    exact ⟨attr, Function.update_self ..⟩
  · exact ⟨_, Function.update_of_ne first ..⟩

/-- A place holds what was just written to it. -/
theorem holdsAt_write_self (map : CmpMap) (key : ℕ) (entry : CmpEntry) :
    (map.write key entry).HoldsAt key entry (map.place key entry) := by
  cases entry with
  | ins shape attr v0 v1 upper =>
      simp only [CmpMap.HoldsAt, CmpMap.write, CmpMap.place, CmpEntry.type, CmpType.places,
        Function.update_self, CmpOperands.write, true_and]
      intro upper
      simp only [upper, if_true, and_self]
  | rtn l ptr1 ptr2 v0Len v1Len =>
      simp only [CmpMap.HoldsAt, CmpMap.write, CmpMap.place, CmpEntry.type, CmpType.places,
        Function.update_self]
      obtain ⟨kept, same⟩ := addrAttr_keeps _ _ _
      rw [same, Function.update_self]
      refine ⟨fun j below => ⟨if_pos below, if_pos below⟩, rfl, rfl⟩

/-- The other places hold what they held. -/
theorem CmpMap.HoldsAt.write_of_ne {old : CmpEntry} {place : ℕ}
    (held : map.HoldsAt key old place) (elsewhere : place ≠ map.place key entry) :
    (map.write key entry).HoldsAt key old place := by
  cases entry with
  | ins shape attr v0 v1 upper =>
      cases old with
      | ins =>
          simp only [CmpMap.HoldsAt, CmpMap.write, Function.update_self]
          rw [Function.update_of_ne (by exact elsewhere)]
          exact held
      | rtn => exact held
  | rtn l ptr1 ptr2 v0Len v1Len =>
      cases old with
      | ins => exact held
      | rtn =>
          simp only [CmpMap.HoldsAt, CmpMap.write, Function.update_self]
          obtain ⟨kept, same⟩ := addrAttr_keeps _ _ _
          rw [same, Function.update_of_ne (by exact elsewhere)]
          exact held

theorem ofNat_pos {value : ℕ} (positive : 1 ≤ value) (fits : value < 32) :
    1 ≤ (BitVec.ofNat 5 value).toNat := by
  rw [BitVec.toNat_ofNat, Nat.mod_eq_of_lt fits]
  exact positive

theorem raised_pos {shape : BitVec 5} {bound value : ℕ} (positive : 1 ≤ value)
    (fits : value < 32) (shaped : 1 ≤ shape.toNat) :
    1 ≤ (if shape.toNat < bound then BitVec.ofNat 5 value else shape).toNat := by
  split
  · exact ofNat_pos positive fits
  · exact shaped

/-- What a hit does to the header of a key with entries of its type, and where it is
written. -/
theorem KeyLogged.hit (logged : KeyLogged entry.type map key entries) (wide : entry.Wide) :
    ((map.headers key).hit entry).1.type = entry.type ∧
      ((map.headers key).hit entry).1.hits = BitVec.ofNat 6 (entries.length + 1) ∧
      1 ≤ ((map.headers key).hit entry).1.shape.toNat ∧
      ((map.headers key).hit entry).2 = BitVec.ofNat 6 entries.length := by
  obtain ⟨atLeast, atMost⟩ := wide
  rw [BitVec.ofNat_add, ← logged.hits]
  by_cases unused : entries = []
  · rw [logged.unused unused]
    cases entry with
    | ins shape attr v0 v1 upper =>
        simp only [CmpEntry.width] at atLeast atMost
        have raised : (0 : BitVec 5).toNat < shape := show 0 < shape by omega
        simp only [CmpHeader.hit, CmpEntry.type, ne_eq, not_true, if_false, if_pos raised]
        exact ⟨trivial, rfl, ofNat_pos (by omega) (by omega), trivial⟩
    | rtn l ptr1 ptr2 v0Len v1Len =>
        simp only [CmpEntry.width] at atLeast atMost
        exact ⟨rfl, rfl, ofNat_pos (by omega) (by omega), rfl⟩
  · obtain ⟨typed, shaped⟩ := logged.used unused
    cases entry with
    | ins shape attr v0 v1 upper =>
        simp only [CmpEntry.width] at atLeast atMost
        simp only [CmpHeader.hit, typed, CmpEntry.type, ne_eq, not_true, if_false]
        exact ⟨trivial, rfl, raised_pos (by omega) (by omega) shaped, trivial⟩
    | rtn l ptr1 ptr2 v0Len v1Len =>
        simp only [CmpEntry.width] at atLeast atMost
        simp only [CmpHeader.hit, typed, CmpEntry.type, ne_eq, not_true, if_false]
        exact ⟨trivial, rfl, raised_pos (by omega) (by omega) shaped, trivial⟩

theorem headers_write_self (map : CmpMap) (key : ℕ) (entry : CmpEntry) :
    (map.write key entry).headers key = ((map.headers key).hit entry).1 := by
  cases entry <;> exact Function.update_self ..

/-- A logged entry is the next one of its ring. -/
theorem ringHolds_write {n : ℕ} (ring : RingHolds n (map.HoldsAt key) entries)
    (placed : map.place key entry = entries.length % n) :
    RingHolds n ((map.write key entry).HoldsAt key) (entries ++ [entry]) := by
  refine ring.push ?_ ?_
  · exact placed ▸ holdsAt_write_self map key entry
  · intro old other elsewhere held
    exact held.write_of_ne (placed ▸ elsewhere)

/-- Logging one more entry of the type at a key. -/
theorem KeyLogged.write (logged : KeyLogged entry.type map key entries) (wide : entry.Wide) :
    KeyLogged entry.type (map.write key entry) key (entries ++ [entry]) := by
  obtain ⟨typed, counted, shaped, placed⟩ := logged.hit wide
  have header := headers_write_self map key entry
  refine ⟨fun none => absurd none (List.append_ne_nil_of_right_ne_nil _ (by simp)), ?_, ?_, ?_⟩
  · rw [header, counted, List.length_append, List.length_singleton]
  · rw [header]
    exact fun _ => ⟨typed, shaped⟩
  · refine ringHolds_write logged.ring ?_
    rw [CmpMap.place, placed]
    exact place_eq entry.type entries.length

theorem headers_write_other (map : CmpMap) {other : ℕ} (elsewhere : key ≠ other)
    (entry : CmpEntry) :
    (map.write other entry).headers key = map.headers key := by
  cases entry <;> exact Function.update_of_ne elsewhere ..

theorem holdsAt_write_other (map : CmpMap) {other : ℕ} (elsewhere : key ≠ other)
    (entry : CmpEntry) :
    (map.write other entry).HoldsAt key = map.HoldsAt key := by
  funext old place
  cases entry <;> cases old <;>
    simp only [CmpMap.HoldsAt, CmpMap.write, Function.update_of_ne elsewhere]

/-- Logging at another key. -/
theorem KeyLogged.write_other (logged : KeyLogged type map key entries) {other : ℕ}
    (elsewhere : key ≠ other) (entry : CmpEntry) :
    KeyLogged type (map.write other entry) key entries := by
  have header := headers_write_other map elsewhere entry
  have held := holdsAt_write_other map elsewhere entry
  exact ⟨header ▸ logged.unused, header ▸ logged.hits, header ▸ logged.used, held ▸ logged.ring⟩

/-- A key of a map with cleared headers. -/
theorem keyLogged_nil (type : CmpType) (map : CmpMap) (key : ℕ) :
    KeyLogged type map.clearHeaders key [] :=
  ⟨fun _ => rfl, rfl, fun some => absurd rfl some, ringHolds_nil _ _⟩

/-- What holds of a key of a map with cleared headers, and is kept by logging there and at other
keys, holds after an execution. -/
theorem logged_run (maxLen : ℕ) (map : CmpMap) (key : ℕ) {good : CmpEntry → Prop}
    {P : CmpMap → List CmpEntry → Prop} (nil : P map.clearHeaders [])
    (here : ∀ map entries entry, good entry → P map entries →
      P (map.write key entry) (entries ++ [entry]))
    (elsewhere : ∀ map entries other entry, key ≠ other → P map entries →
      P (map.write other entry) entries)
    (calls : List (ℕ × CmpCall)) (all : ∀ entry ∈ loggedAt maxLen key calls, good entry) :
    P (map.clearHeaders.execute maxLen calls) (loggedAt maxLen key calls) := by
  induction calls using List.reverseRecOn with
  | nil => exact nil
  | append_singleton calls site ih =>
      have before : loggedAt maxLen key (calls ++ [site]) = loggedAt maxLen key calls ++
          (if site.1 = key then site.2.entry maxLen else none).toList := by
        simp only [loggedAt, List.filterMap_append]
        cases found : (if site.1 = key then site.2.entry maxLen else none) with
        | none => simp only [List.filterMap_cons, found, List.filterMap_nil, Option.toList_none]
        | some entry =>
            simp only [List.filterMap_cons, found, List.filterMap_nil, Option.toList_some]
      rw [before] at all ⊢
      have logged := ih fun entry member => all entry (List.mem_append_left _ member)
      rw [CmpMap.execute, List.foldl_append, List.foldl_cons, List.foldl_nil, CmpMap.call]
      cases written : site.2.entry maxLen with
      | none =>
          simp only [ite_self, Option.toList_none, List.append_nil]
          exact logged
      | some entry =>
          by_cases same : site.1 = key
          · rw [written, if_pos same, Option.toList_some] at all
            rw [if_pos same, Option.toList_some, Option.elim_some, same]
            exact here _ _ entry (all entry (by simp)) logged
          · rw [if_neg same, Option.toList_none, List.append_nil, Option.elim_some]
            exact elsewhere _ _ site.1 entry (Ne.symm same) logged

/-- **What an execution leaves at a key** whose entries are of one type, whatever it logs
at other keys. -/
theorem keyLogged_run (maxLen : ℕ) (map : CmpMap) (key : ℕ) (type : CmpType)
    (calls : List (ℕ × CmpCall))
    (kind : ∀ entry ∈ loggedAt maxLen key calls, entry.type = type)
    (wide : ∀ entry ∈ loggedAt maxLen key calls, entry.Wide) :
    KeyLogged type (map.clearHeaders.execute maxLen calls) key (loggedAt maxLen key calls) := by
  have good : ∀ entry ∈ loggedAt maxLen key calls, entry.type = type ∧ entry.Wide :=
    fun entry member => ⟨kind entry member, wide entry member⟩
  refine logged_run (P := fun map entries => KeyLogged type map key entries) maxLen map key
    (keyLogged_nil type map key) ?_ ?_ calls good
  · rintro map entries entry ⟨rfl, wide⟩ logged
    exact logged.write wide
  · intro map entries other entry elsewhere logged
    exact logged.write_other elsewhere entry

end Logging

end GreenFuzz.CompilerRt
