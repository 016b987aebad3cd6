import GreenFuzz.AflFuzz.ExtrasOver
import Mathlib.Data.List.SplitBy

/-!
# Collecting tokens while bits are flipped

The stage `bitflip 1/1` of `fuzz_one_original` flips each bit of the marked bytes. When
the lowest bits of neighbouring bytes give the same checksum, and not that of the input,
the bytes are collected and handed to `maybe_add_auto`.

An unmarked byte is passed over without ending what is collected, so the bytes on its
two sides are joined. What is handed on are the groups of flipped bytes with the same
checksum, in their order, of which the last is lost unless it reaches the end of the
input (`flip1_autos`). **All tokens are real exactly if no such group has a gap, apart
from those whose bytes stand together elsewhere** (`flip1_tokens_iff`).
-/

set_option autoImplicit false

namespace GreenFuzz.AflFuzz

open Library

/-! ## The stage -/

def MIN_AUTO_EXTRA : ℕ := 3

def MAX_AUTO_EXTRA : ℕ := 32

/-- `FLIP_BIT`. -/
def flipBit (buf : List Byte) (b : ℕ) : List Byte :=
  buf.modify (b / 8) fun byte => byte ^^^ (128 >>> (b % 8))

/-- What the stage works on: the input, the bits of `skip_eff_map`, how late it is and what
`common_fuzz_stuff` returns for each bit, what it returns for the input, and the checksum of the
trace of each case. -/
structure Flip1Stage where
  inBuf : List Byte
  nonInstrumentedMode : Bool := false
  skipEffMap : ℕ → Bool
  isDetTimeout : ℕ → Bool
  commonFuzzStuff : ℕ → Bool
  cleanRun : Bool := false
  cksum : List Byte → BitVec 64

/-- The buffer, what is collected, and the tokens that `maybe_add_auto` was called with. -/
structure FlipState where
  outBuf : List Byte
  aCollect : Buffer
  aLen : ℕ
  prevCksum : BitVec 64
  autos : List Token

/-- Collecting a byte. -/
def FlipState.collectByte (s : FlipState) (byte : Byte) : FlipState :=
  { s with
    aCollect := if s.aLen < MAX_AUTO_EXTRA then Function.update s.aCollect s.aLen byte
      else s.aCollect
    aLen := s.aLen + 1 }

/-- Handing on what is collected, if its length is right. -/
def FlipState.maybeAddAuto (s : FlipState) : FlipState :=
  if MIN_AUTO_EXTRA ≤ s.aLen ∧ s.aLen ≤ MAX_AUTO_EXTRA then
    { s with autos := s.autos ++ [(List.range s.aLen).map s.aCollect] }
  else s

namespace Flip1Stage

variable (F : Flip1Stage)

/-- `_prev_cksum`. -/
def baseline : BitVec 64 := F.cksum F.inBuf

/-- `len << 3`. -/
def stageMax : ℕ := 8 * F.inBuf.length

/-- What follows the run for the lowest bit of a byte. -/
def collect (stageCur : ℕ) (cksum : BitVec 64) (s : FlipState) : FlipState :=
  let byte := (s.outBuf[stageCur / 8]?).getD 0
  let s :=
    if stageCur = F.stageMax - 1 ∧ cksum = s.prevCksum then (s.collectByte byte).maybeAddAuto
    else if cksum ≠ s.prevCksum then { s.maybeAddAuto with aLen := 0, prevCksum := cksum }
    else s
  if cksum ≠ F.baseline then s.collectByte byte else s

/-- One bit. -/
def flipOne (stageCur : ℕ) (s : FlipState) : FlipState × StageEnd :=
  if !F.skipEffMap (stageCur / 8) then (s, .completed)
  else if F.isDetTimeout stageCur then (s, .timedOut)
  else
    let outBuf := flipBit s.outBuf stageCur
    if F.commonFuzzStuff stageCur then ({ s with outBuf := outBuf }, .abandoned)
    else
      let s := { s with outBuf := flipBit outBuf stageCur }
      if !F.nonInstrumentedMode && stageCur % 8 = 7 then
        (F.collect stageCur (F.cksum outBuf) s, .completed)
      else (s, .completed)

/-- The loop over the bits. -/
def flipBits : List ℕ → FlipState → FlipState × StageEnd
  | [], s => (s, .completed)
  | stageCur :: bits, s =>
      match F.flipOne stageCur s with
      | (s, .completed) => flipBits bits s
      | (s, ended) => (s, ended)

/-- The stage, where `a_collect` holds anything before it. -/
def run (aCollect : Buffer) : FlipState × StageEnd :=
  let s : FlipState := ⟨F.inBuf, aCollect, 0, F.baseline, []⟩
  if F.cleanRun then (s, .abandoned) else F.flipBits (List.range F.stageMax) s

/-! ## What is claimed -/

/-- The checksum for the lowest bit of a byte. -/
def lowCksum (k : ℕ) : BitVec 64 := F.cksum (flipBit F.inBuf (8 * k + 7))

/-- The stage ends at this bit. -/
def stops (stageCur : ℕ) : Bool :=
  F.skipEffMap (stageCur / 8) && (F.isDetTimeout stageCur || F.commonFuzzStuff stageCur)

/-- How many bits the stage comes through. -/
def flipEnd : ℕ := if F.cleanRun then 0 else (List.range F.stageMax).findIdx F.stops

/-- The bytes of which the lowest bit was flipped within the first bits. -/
def flippedBefore (n : ℕ) : List ℕ := (List.range (n / 8)).filter F.skipEffMap

/-- The groups of bytes with the same checksum. -/
def groups (flipped : List ℕ) : List (List ℕ) :=
  flipped.splitBy fun j k => F.lowCksum j == F.lowCksum k

/-- The groups that are ended by another checksum or by the end of the input. -/
def endedGroups (n : ℕ) : List (List ℕ) :=
  if n = F.stageMax ∧ F.skipEffMap (F.inBuf.length - 1) then F.groups (F.flippedBefore n)
  else (F.groups (F.flippedBefore n)).dropLast

/-- A group of the right length, with another checksum than the input. -/
def worthwhile (group : List ℕ) : Bool :=
  MIN_AUTO_EXTRA ≤ group.length && group.length ≤ MAX_AUTO_EXTRA &&
    group.all fun k => F.lowCksum k ≠ F.baseline

/-- The bytes of a group. -/
def bytesOf (group : List ℕ) : Token := group.map fun k => (F.inBuf[k]?).getD 0

/-- A token stands at a place of the input, where the lowest bit of each byte was flipped and gave
the same checksum, another than that of the input. -/
def StandsAt (token : Token) (start : ℕ) : Prop :=
  start + token.length ≤ F.inBuf.length ∧ token = slice F.inBuf start token.length ∧
    ∃ cksum ≠ F.baseline, ∀ k < token.length,
      start + k ∈ F.flippedBefore F.flipEnd ∧ F.lowCksum (start + k) = cksum

/-- A token of the right length that stands somewhere. -/
def Real (token : Token) : Prop :=
  MIN_AUTO_EXTRA ≤ token.length ∧ token.length ≤ MAX_AUTO_EXTRA ∧ ∃ start, F.StandsAt token start

/-- A group of neighbouring bytes. -/
def Gapless (group : List ℕ) : Prop := ∃ start, group = List.range' start group.length

end Flip1Stage

/-! ## One byte -/

theorem flipBit_flipBit (buf : List Byte) (b : ℕ) : flipBit (flipBit buf b) b = buf := by
  have twice : (fun byte : Byte => byte ^^^ (128 >>> (b % 8))) ∘
      (fun byte : Byte => byte ^^^ (128 >>> (b % 8))) = id := by
    funext byte
    rw [Function.comp_apply, BitVec.xor_assoc, BitVec.xor_self, BitVec.xor_zero, id]
  rw [flipBit, flipBit, List.modify_modify_eq, twice, List.modify_id]

namespace Flip1Stage

variable {F : Flip1Stage} {s : FlipState} {front group : List ℕ} {p stageCur : ℕ}

/-- The tokens of groups. -/
def tokensOf (F : Flip1Stage) (groups : List (List ℕ)) : List Token :=
  (groups.filter F.worthwhile).map F.bytesOf

theorem tokensOf_append (left right : List (List ℕ)) :
    F.tokensOf (left ++ right) = F.tokensOf left ++ F.tokensOf right := by
  rw [tokensOf, List.filter_append, List.map_append, ← tokensOf, ← tokensOf]

theorem tokensOf_singleton_of_not (worthless : F.worthwhile group = false) :
    F.tokensOf [group] = [] := by
  rw [tokensOf, List.filter_cons_of_neg (Bool.eq_false_iff.mp worthless)]
  rfl

/-- What the variables of the stage say about the bytes that were flipped: the last of them are a
group with the last checksum, and the tokens are those of the groups before it. -/
structure Tracks (F : Flip1Stage) (front group : List ℕ) (s : FlipState) : Prop where
  outBuf : s.outBuf = F.inBuf
  same : ∀ k ∈ group, F.lowCksum k = s.prevCksum
  apart : ∀ j ∈ front.getLast?, ∀ k ∈ group.head?, (F.lowCksum j == F.lowCksum k) = false
  autos : s.autos = F.tokensOf (F.groups front)
  empty : group = [] → front = [] ∧ s.prevCksum = F.baseline
  idle : s.prevCksum = F.baseline → s.aLen = 0
  length : s.prevCksum ≠ F.baseline → s.aLen = group.length
  bytes : s.prevCksum ≠ F.baseline → ∀ k < MAX_AUTO_EXTRA, ∀ q, group[k]? = some q →
    s.aCollect k = (F.inBuf[q]?).getD 0

/-- The last group is a group of its own. -/
theorem groups_append (some_byte : group ≠ []) {cksum : BitVec 64}
    (same : ∀ k ∈ group, F.lowCksum k = cksum)
    (apart : ∀ j ∈ front.getLast?, ∀ k ∈ group.head?, (F.lowCksum j == F.lowCksum k) = false) :
    F.groups (front ++ group) = F.groups front ++ [group] := by
  have chain : group.IsChain fun j k => (F.lowCksum j == F.lowCksum k) = true := by
    refine (List.pairwise_of_forall_mem_list fun j hj k hk => ?_).isChain
    rw [same j hj, same k hk, beq_self_eq_true]
  rw [groups, List.splitBy_append apart, List.splitBy_of_isChain some_byte chain, groups]

/-- A group is worth it if its length is right and its checksum is not that of the input. -/
theorem worthwhile_iff (some_byte : group ≠ []) {cksum : BitVec 64}
    (same : ∀ k ∈ group, F.lowCksum k = cksum) :
    F.worthwhile group = true ↔
      (MIN_AUTO_EXTRA ≤ group.length ∧ group.length ≤ MAX_AUTO_EXTRA) ∧ cksum ≠ F.baseline := by
  simp only [worthwhile, Bool.and_eq_true, decide_eq_true_eq, List.all_eq_true]
  refine and_congr_right fun _ => ⟨fun others => ?_, fun other k member => ?_⟩
  · obtain ⟨first, member⟩ := List.exists_mem_of_ne_nil group some_byte
    exact same first member ▸ others first member
  · rw [same k member]
    exact other

/-- What is handed on is the group, if it is worth it. -/
theorem Tracks.maybeAddAuto (tracks : F.Tracks front group s) :
    s.maybeAddAuto.autos = F.tokensOf (F.groups (front ++ group)) := by
  by_cases none_yet : group = []
  · obtain ⟨rfl, start⟩ := tracks.empty none_yet
    have idle := tracks.idle start
    subst none_yet
    rw [FlipState.maybeAddAuto, if_neg (by rw [idle]; decide)]
    exact tracks.autos
  · have worth := worthwhile_iff none_yet tracks.same
    rw [groups_append none_yet tracks.same tracks.apart, tokensOf_append, ← tracks.autos]
    by_cases adds : (MIN_AUTO_EXTRA ≤ group.length ∧ group.length ≤ MAX_AUTO_EXTRA) ∧
        s.prevCksum ≠ F.baseline
    · obtain ⟨right, changed⟩ := adds
      have collected : (List.range s.aLen).map s.aCollect = F.bytesOf group := by
        rw [tracks.length changed]
        refine List.ext_getElem (by rw [bytesOf, List.length_map, List.length_map,
          List.length_range]) fun k inside there => ?_
        have within : k < group.length := by
          rwa [bytesOf, List.length_map] at there
        simp only [bytesOf, List.getElem_map, List.getElem_range]
        exact tracks.bytes changed k (by omega) _ (List.getElem?_eq_getElem within)
      rw [FlipState.maybeAddAuto, if_pos (by rwa [tracks.length changed]), collected, tokensOf,
        List.filter_cons_of_pos (worth.mpr ⟨right, changed⟩)]
      rfl
    · have worthless : F.worthwhile group = false := by
        rw [Bool.eq_false_iff, ne_eq, worth]
        exact adds
      have unchanged : s.maybeAddAuto = s := by
        rw [FlipState.maybeAddAuto]
        refine if_neg fun right => ?_
        by_cases changed : s.prevCksum = F.baseline
        · rw [tracks.idle changed] at right
          exact absurd right.1 (by decide)
        · rw [tracks.length changed] at right
          exact adds ⟨right, changed⟩
      rw [unchanged, tokensOf_singleton_of_not worthless, List.append_nil]

/-- Collecting a byte of the same checksum makes the group longer. -/
theorem Tracks.extend (tracks : F.Tracks front group s) (same : F.lowCksum p = s.prevCksum)
    (changed : s.prevCksum ≠ F.baseline) :
    F.Tracks front (group ++ [p]) (s.collectByte ((s.outBuf[p]?).getD 0)) := by
  have some_byte : group ≠ [] := fun none_yet => changed (tracks.empty none_yet).2
  have length := tracks.length changed
  refine { outBuf := tracks.outBuf, same := ?_, apart := ?_, autos := tracks.autos, empty := ?_,
           idle := fun idle => absurd idle changed, length := fun _ => ?_, bytes := fun _ => ?_ }
  · intro k member
    rcases List.mem_append.mp member with member | member
    · exact tracks.same k member
    · rw [List.mem_singleton.mp member]
      exact same
  · rw [List.head?_append_of_ne_nil _ some_byte]
    exact tracks.apart
  · intro none_yet
    exact absurd (List.append_eq_nil_iff.mp none_yet).1 some_byte
  · simp only [FlipState.collectByte, length, List.length_append, List.length_singleton]
  · intro k below q here
    simp only [FlipState.collectByte, length]
    rcases Nat.lt_trichotomy k group.length with before | rfl | behind
    · rw [List.getElem?_append_left before] at here
      split
      · rw [Function.update_of_ne (Nat.ne_of_lt before)]
        exact tracks.bytes changed k below q here
      · exact tracks.bytes changed k below q here
    · rw [List.getElem?_append_right (Nat.le_refl _), Nat.sub_self, List.getElem?_cons_zero,
        Option.some.injEq] at here
      rw [if_pos below, Function.update_self, tracks.outBuf, here]
    · rw [List.getElem?_eq_none (by
        rw [List.length_append, List.length_singleton]; omega)] at here
      cases here

/-- Another checksum starts a group. -/
theorem Tracks.restart (tracks : F.Tracks front group s) (other : F.lowCksum p ≠ s.prevCksum) :
    let s' : FlipState := { s.maybeAddAuto with aLen := 0, prevCksum := F.lowCksum p }
    F.Tracks (front ++ group) [p] (if F.lowCksum p ≠ F.baseline then
      s'.collectByte ((s.outBuf[p]?).getD 0) else s') := by
  have kept : s.maybeAddAuto.outBuf = F.inBuf := by
    rw [FlipState.maybeAddAuto]
    split <;> exact tracks.outBuf
  have apart : ∀ j ∈ (front ++ group).getLast?, ∀ k ∈ [p].head?,
      (F.lowCksum j == F.lowCksum k) = false := by
    intro j last k first
    obtain rfl := Option.some.inj first
    rw [beq_eq_false_iff_ne]
    by_cases none_yet : group = []
    · rw [none_yet, (tracks.empty none_yet).1] at last
      cases last
    · rw [List.getLast?_append_of_ne_nil _ none_yet] at last
      rw [tracks.same j (List.mem_of_getLast? last)]
      exact other.symm
  intro s'
  have same : ∀ k ∈ [p], F.lowCksum k = F.lowCksum p := by
    intro k member
    rw [List.mem_singleton.mp member]
  by_cases changed : F.lowCksum p = F.baseline
  · rw [if_neg (not_not.mpr changed)]
    exact { outBuf := kept, same := same, apart := apart, autos := tracks.maybeAddAuto
            empty := fun none_yet => absurd none_yet (List.cons_ne_nil _ _)
            idle := fun _ => rfl, length := fun differs => absurd changed differs
            bytes := fun differs => absurd changed differs }
  · rw [if_pos changed]
    refine { outBuf := kept, same := same, apart := apart, autos := tracks.maybeAddAuto
             empty := fun none_yet => absurd none_yet (List.cons_ne_nil _ _)
             idle := fun idle => absurd idle changed, length := fun _ => rfl
             bytes := fun _ k below q here => ?_ }
    cases k with
    | zero =>
        obtain rfl := Option.some.inj here
        simp only [FlipState.collectByte, tracks.outBuf]
        rw [if_pos (show 0 < MAX_AUTO_EXTRA by decide), Function.update_self]
    | succ k => cases here

/-- A byte that gives the checksum of the input, after such bytes, is not collected. -/
theorem Tracks.extendIdle (tracks : F.Tracks front group s) (same : F.lowCksum p = s.prevCksum)
    (idle : s.prevCksum = F.baseline) : F.Tracks front (group ++ [p]) s := by
  refine { outBuf := tracks.outBuf, same := ?_, apart := ?_, autos := tracks.autos
           empty := fun none_yet => absurd (List.append_eq_nil_iff.mp none_yet).2
             (List.cons_ne_nil _ _)
           idle := tracks.idle, length := fun changed => absurd idle changed
           bytes := fun changed => absurd idle changed }
  · intro k member
    rcases List.mem_append.mp member with member | member
    · exact tracks.same k member
    · rw [List.mem_singleton.mp member]
      exact same
  · by_cases none_yet : group = []
    · rw [(tracks.empty none_yet).1]
      intro j last
      cases last
    · rw [List.head?_append_of_ne_nil _ none_yet]
      exact tracks.apart

/-- The step lemma: the lowest bit of a byte that is not the last one. -/
theorem Tracks.collect (tracks : F.Tracks front group s) (inside : stageCur ≠ F.stageMax - 1) :
    ∃ front' group', front' ++ group' = front ++ group ++ [stageCur / 8] ∧
      F.Tracks front' group' (F.collect stageCur (F.lowCksum (stageCur / 8)) s) := by
  simp only [Flip1Stage.collect, inside, false_and, if_false]
  by_cases same : F.lowCksum (stageCur / 8) = s.prevCksum
  · refine ⟨front, group ++ [stageCur / 8], (List.append_assoc _ _ _).symm, ?_⟩
    rw [if_neg (not_not.mpr same)]
    by_cases idle : F.lowCksum (stageCur / 8) = F.baseline
    · rw [if_neg (not_not.mpr idle)]
      exact tracks.extendIdle same (same.symm.trans idle)
    · rw [if_pos idle]
      exact tracks.extend same (same ▸ idle)
  · refine ⟨front ++ group, [stageCur / 8], rfl, ?_⟩
    rw [if_pos same]
    exact tracks.restart same

/-- The lowest bit of the last byte ends the last group. -/
theorem Tracks.collect_last (tracks : F.Tracks front group s) (last : stageCur = F.stageMax - 1) :
    (F.collect stageCur (F.lowCksum (stageCur / 8)) s).autos =
      F.tokensOf (F.groups (front ++ group ++ [stageCur / 8])) := by
  have collects (byte : Byte) (s : FlipState) :
      (if F.lowCksum (stageCur / 8) ≠ F.baseline then s.collectByte byte else s).autos =
        s.autos := by
    split <;> rfl
  simp only [Flip1Stage.collect, collects]
  by_cases same : F.lowCksum (stageCur / 8) = s.prevCksum
  · rw [if_pos ⟨last, same⟩, List.append_assoc]
    by_cases idle : s.prevCksum = F.baseline
    · rw [← (tracks.extendIdle same idle).maybeAddAuto]
      have none_yet := tracks.idle idle
      rw [FlipState.maybeAddAuto, FlipState.maybeAddAuto, if_neg, if_neg]
      · rfl
      · rw [none_yet]
        decide
      · simp only [FlipState.collectByte, none_yet]
        decide
    · exact (tracks.extend same idle).maybeAddAuto
  · have restarted := tracks.restart same
    rw [if_neg (fun ends => same ends.2), if_pos same,
      groups_append (List.cons_ne_nil _ _) restarted.same restarted.apart, tokensOf_append,
      tokensOf_singleton_of_not, List.append_nil]
    · exact tracks.maybeAddAuto.trans rfl
    · rw [worthwhile]
      rfl

/-! ## All bits -/

/-- The bytes that were flipped, one bit further on. -/
theorem flippedBefore_succ (b : ℕ) : F.flippedBefore (b + 1) =
    if b % 8 = 7 ∧ F.skipEffMap (b / 8) = true then F.flippedBefore b ++ [b / 8]
    else F.flippedBefore b := by
  by_cases low : b % 8 = 7
  · have next : (b + 1) / 8 = b / 8 + 1 := by omega
    simp only [low, true_and]
    rw [flippedBefore, next, List.range_succ, List.filter_append, ← flippedBefore]
    split
    · rename_i marked
      rw [List.filter_cons_of_pos marked]
      rfl
    · rename_i unmarked
      rw [List.filter_cons_of_neg unmarked, List.filter_nil, List.append_nil]
  · have next : (b + 1) / 8 = b / 8 := by omega
    simp only [low, false_and, if_false]
    rw [flippedBefore, next, ← flippedBefore]

/-- The variables say what they should about the bytes that were flipped. -/
def Tracked (F : Flip1Stage) (flipped : List ℕ) (s : FlipState) : Prop :=
  ∃ front group, front ++ group = flipped ∧ F.Tracks front group s

/-- All groups but the last have been handed on. -/
theorem Tracked.autos {flipped : List ℕ} (tracked : F.Tracked flipped s) :
    s.autos = F.tokensOf (F.groups flipped).dropLast := by
  obtain ⟨front, group, rfl, tracks⟩ := tracked
  by_cases none_yet : group = []
  · subst none_yet
    rw [tracks.autos, (tracks.empty rfl).1]
    rfl
  · rw [groups_append none_yet tracks.same tracks.apart, List.dropLast_concat]
    exact tracks.autos

/-- A bit at which the stage does not end: the buffer is restored, and a low bit is looked at. -/
theorem flipOne_of_goesOn (goesOn : F.stops stageCur = false) (outBuf : s.outBuf = F.inBuf)
    (instrumented : F.nonInstrumentedMode = false) :
    F.flipOne stageCur s =
      (if F.skipEffMap (stageCur / 8) = true ∧ stageCur % 8 = 7 then
        F.collect stageCur (F.lowCksum (stageCur / 8)) s else s, .completed) := by
  rw [stops, Bool.and_eq_false_imp] at goesOn
  rw [flipOne]
  cases marked : F.skipEffMap (stageCur / 8) with
  | false => simp only [Bool.not_false, if_true, Bool.false_eq_true, false_and, if_false]
  | true =>
      obtain ⟨inTime, runs⟩ := Bool.or_eq_false_iff.mp (goesOn marked)
      have restored : ({ s with outBuf := flipBit (flipBit s.outBuf stageCur) stageCur } :
          FlipState) = s := by
        rw [flipBit_flipBit]
      simp only [inTime, runs, instrumented, restored, Bool.not_true, Bool.not_false, Bool.true_and,
        Bool.false_eq_true, if_false, true_and, decide_eq_true_eq]
      by_cases low : stageCur % 8 = 7
      · have bit : 8 * (stageCur / 8) + 7 = stageCur := by omega
        rw [if_pos low, if_pos low, lowCksum, bit, outBuf]
      · rw [if_neg low, if_neg low]

/-- A bit at which the stage ends hands nothing on. -/
theorem flipOne_of_stops (stops : F.stops stageCur = true) :
    (F.flipOne stageCur s).2 ≠ .completed ∧ (F.flipOne stageCur s).1.autos = s.autos := by
  rw [Flip1Stage.stops, Bool.and_eq_true] at stops
  obtain ⟨marked, ends⟩ := stops
  simp only [flipOne, marked, Bool.not_true, Bool.false_eq_true, if_false]
  cases late : F.isDetTimeout stageCur with
  | true => exact ⟨nofun, rfl⟩
  | false =>
      rw [late, Bool.false_or] at ends
      simp only [ends, Bool.false_eq_true, if_false, if_true]
      exact ⟨nofun, trivial⟩

/-- The run lemma, by induction on the bits that are left. -/
theorem flipBits_autos {n : ℕ} (instrumented : F.nonInstrumentedMode = false)
    (rest : stageCur + n = F.stageMax) (inside : stageCur < F.stageMax)
    (tracked : F.Tracked (F.flippedBefore stageCur) s) :
    (F.flipBits (List.range' stageCur n) s).1.autos =
      F.tokensOf (F.endedGroups (stageCur + (List.range' stageCur n).findIdx F.stops)) := by
  induction n generalizing stageCur s with
  | zero => omega
  | succ n ih =>
      rw [List.range'_succ, flipBits, List.findIdx_cons]
      cases ends : F.stops stageCur with
      | true =>
          obtain ⟨stopped, same⟩ := flipOne_of_stops (s := s) ends
          have unfinished : ¬ (stageCur = F.stageMax ∧
              F.skipEffMap (F.inBuf.length - 1) = true) := fun last => by omega
          simp only [cond_true, Nat.add_zero, endedGroups, if_neg unfinished]
          rw [← tracked.autos, same]
      | false =>
          obtain ⟨front, group, flipped, tracks⟩ := id tracked
          have next := F.flippedBefore_succ stageCur
          rw [flipOne_of_goesOn ends tracks.outBuf instrumented, cond_false, ← Nat.add_assoc,
            Nat.add_right_comm]
          simp only
          by_cases later : stageCur + 1 < F.stageMax
          · refine ih (by omega) later ?_
            rw [next]
            by_cases looks : stageCur % 8 = 7 ∧ F.skipEffMap (stageCur / 8) = true
            · rw [if_pos looks, if_pos looks.symm, ← flipped]
              exact tracks.collect (by omega)
            · rw [if_neg looks, if_neg fun both => looks both.symm]
              exact tracked
          · obtain rfl : n = 0 := by omega
            have last : stageCur = F.stageMax - 1 := by omega
            have low : stageCur % 8 = 7 := by
              rw [last, stageMax] at *
              omega
            have byte : stageCur / 8 = F.inBuf.length - 1 := by
              rw [last, stageMax] at *
              omega
            have whole : stageCur + 1 = F.stageMax := by omega
            simp only [low, true_and, and_true, byte] at next ⊢
            rw [List.range'_zero, flipBits, List.findIdx_nil, Nat.add_zero, endedGroups, whole,
              ← whole, next]
            simp only [true_and]
            split
            · rw [← flipped, ← byte]
              exact tracks.collect_last last
            · exact tracked.autos

/-- What the stage hands on: the groups that were ended. -/
theorem flip1_autos (F : Flip1Stage) (aCollect : Buffer)
    (instrumented : F.nonInstrumentedMode = false) :
    (F.run aCollect).1.autos = F.tokensOf (F.endedGroups F.flipEnd) := by
  have start : F.Tracked (F.flippedBefore 0) ⟨F.inBuf, aCollect, 0, F.baseline, []⟩ :=
    ⟨[], [], rfl, rfl, fun _ member => absurd member List.not_mem_nil, nofun, rfl,
      fun _ => ⟨rfl, rfl⟩, fun _ => rfl, fun changed => absurd rfl changed,
      fun changed => absurd rfl changed⟩
  have nothing : F.tokensOf (F.endedGroups 0) = [] := by
    rw [endedGroups]
    split <;> rfl
  rw [run, flipEnd]
  cases F.cleanRun with
  | true => exact nothing.symm
  | false =>
      simp only [Bool.false_eq_true, if_false, List.range_eq_range']
      by_cases some_bit : 0 < F.stageMax
      · have bits := flipBits_autos instrumented (Nat.zero_add _) some_bit start
        rwa [Nat.zero_add] at bits
      · have none_left : F.stageMax = 0 := by omega
        rw [none_left]
        exact nothing.symm

/-- Without instrumentation nothing is handed on. -/
theorem autos_of_nonInstrumented (aCollect : Buffer) (blind : F.nonInstrumentedMode = true) :
    (F.run aCollect).1.autos = [] := by
  have one (stageCur : ℕ) (s : FlipState) : (F.flipOne stageCur s).1.autos = s.autos := by
    simp only [flipOne, blind, Bool.not_true, Bool.false_and, Bool.false_eq_true, if_false]
    split
    · rfl
    · split
      · rfl
      · split <;> rfl
  have all (bits : List ℕ) (s : FlipState) : (F.flipBits bits s).1.autos = s.autos := by
    induction bits generalizing s with
    | nil => rfl
    | cons stageCur bits ih =>
        have same := one stageCur s
        rw [flipBits]
        generalize F.flipOne stageCur s = result at same
        obtain ⟨s', ended⟩ := result
        cases ended with
        | completed => exact (ih s').trans same
        | timedOut => exact same
        | abandoned => exact same
  rw [run]
  split
  · rfl
  · exact all _ _

/-! ## Groups without a gap -/

/-- The bytes of an ended group were flipped, and have one checksum. -/
theorem mem_endedGroups {n : ℕ} (ended : group ∈ F.endedGroups n) :
    (∀ k ∈ group, k ∈ F.flippedBefore n) ∧
      ∀ j ∈ group, ∀ k ∈ group, F.lowCksum j = F.lowCksum k := by
  have member : group ∈ F.groups (F.flippedBefore n) := by
    rw [endedGroups] at ended
    split at ended
    · exact ended
    · exact List.mem_of_mem_dropLast ended
  constructor
  · intro k inside
    have flat := List.flatten_splitBy (fun j k => F.lowCksum j == F.lowCksum k) (F.flippedBefore n)
    rw [← flat]
    exact List.mem_flatten.mpr ⟨group, member, inside⟩
  · have from_first (first : ℕ) (group : List ℕ)
        (chain : (first :: group).IsChain fun j k => (F.lowCksum j == F.lowCksum k) = true) :
        ∀ k ∈ first :: group, F.lowCksum k = F.lowCksum first := by
      induction group generalizing first with
      | nil =>
          intro k inside
          rw [List.mem_singleton.mp inside]
      | cons second group ih =>
          intro k inside
          obtain ⟨same, rest⟩ := List.isChain_cons_cons.mp chain
          rcases List.mem_cons.mp inside with rfl | inside
          · rfl
          · exact (ih second rest k inside).trans (eq_of_beq same).symm
    have chain := List.isChain_of_mem_splitBy member
    cases group with
    | nil => exact fun j inside => absurd inside List.not_mem_nil
    | cons first group =>
        exact fun j hj k hk =>
          (from_first first group chain j hj).trans (from_first first group chain k hk).symm

theorem lt_of_mem_flippedBefore {k : ℕ} (flipped : k ∈ F.flippedBefore F.flipEnd) :
    k < F.inBuf.length := by
  have before := List.mem_range.mp (List.mem_filter.mp flipped).1
  have bound : F.flipEnd ≤ F.stageMax := by
    rw [flipEnd]
    split
    · exact Nat.zero_le _
    · exact Nat.le_trans List.findIdx_le_length (Nat.le_of_eq List.length_range)
  rw [stageMax] at bound
  omega

/-- A group without a gap stands where it begins. -/
theorem standsAt_of_gapless (worth : F.worthwhile group = true)
    (ended : group ∈ F.endedGroups F.flipEnd) (gapless : Gapless group) :
    ∃ start, F.StandsAt (F.bytesOf group) start := by
  obtain ⟨flipped, same⟩ := mem_endedGroups ended
  obtain ⟨start, shape⟩ := gapless
  simp only [worthwhile, Bool.and_eq_true, decide_eq_true_eq, List.all_eq_true] at worth
  obtain ⟨⟨long, -⟩, other⟩ := worth
  have long : 3 ≤ group.length := long
  have place (k : ℕ) (inside : k < group.length) : start + k ∈ group := by
    rw [shape, List.mem_range'_1]
    omega
  have fits : start + group.length ≤ F.inBuf.length := by
    have last := lt_of_mem_flippedBefore (flipped _ (place (group.length - 1) (by omega)))
    omega
  have length : (F.bytesOf group).length = group.length := List.length_map _
  refine ⟨start, length.symm ▸ fits, ?_, F.lowCksum start, ?_, ?_⟩
  · rw [length]
    refine List.ext_getElem (by rw [length, length_slice fits]) fun k inside there => ?_
    have within : k < group.length := length ▸ inside
    have entry : group[k] = start + k := by
      rw [List.getElem_of_eq shape, List.getElem_range', Nat.one_mul]
    simp only [bytesOf, List.getElem_map, slice, List.getElem_take, List.getElem_drop, entry]
    rw [List.getElem?_eq_getElem (by omega), Option.getD_some]
  · have first := other start (place 0 (by omega))
    exact first
  · intro k inside
    rw [length] at inside
    exact ⟨flipped _ (place k inside), same _ (place k inside) _ (place 0 (by omega))⟩

end Flip1Stage

/-- **The tokens that the stage hands on are real exactly if each group of flipped bytes that is
worth it has no gap, or its bytes stand together elsewhere with one checksum.** -/
theorem flip1_tokens_iff (F : Flip1Stage) (aCollect : Buffer) :
    (∀ token ∈ (F.run aCollect).1.autos, F.Real token) ↔
      (F.nonInstrumentedMode = false → ∀ group ∈ F.endedGroups F.flipEnd,
        F.worthwhile group = true →
          Flip1Stage.Gapless group ∨ ∃ start, F.StandsAt (F.bytesOf group) start) := by
  cases instrumented : F.nonInstrumentedMode with
  | true =>
      rw [Flip1Stage.autos_of_nonInstrumented aCollect instrumented]
      exact iff_of_true (fun token member => absurd member List.not_mem_nil) nofun
  | false =>
      rw [Flip1Stage.flip1_autos F aCollect instrumented]
      constructor
      · intro real _ group ended worth
        obtain ⟨-, -, stands⟩ := real (F.bytesOf group)
          (List.mem_map_of_mem (List.mem_filter.mpr ⟨ended, worth⟩))
        exact .inr stands
      · intro grouped token member
        obtain ⟨group, kept, rfl⟩ := List.mem_map.mp member
        obtain ⟨ended, worth⟩ := List.mem_filter.mp kept
        have lengths := worth
        simp only [Flip1Stage.worthwhile, Bool.and_eq_true, decide_eq_true_eq] at lengths
        have length : (F.bytesOf group).length = group.length := List.length_map _
        refine ⟨length ▸ lengths.1.1, length ▸ lengths.1.2, ?_⟩
        rcases grouped rfl group ended worth with gapless | stands
        · exact Flip1Stage.standsAt_of_gapless worth ended gapless
        · exact stands

/-- Four bytes of which the third is not marked, and a target that sees whether the input has been
changed: the bytes around the third are joined. -/
def gapStage : Flip1Stage :=
  { inBuf := [73, 72, 68, 82], skipEffMap := fun k => k ≠ 2
    isDetTimeout := fun _ => false, commonFuzzStuff := fun _ => false
    cksum := fun data => if data = [73, 72, 68, 82] then 0 else 1 }

theorem joined_around_gap :
    ¬ ∀ token ∈ (gapStage.run fun _ => 0).1.autos, gapStage.Real token := by
  intro real
  obtain ⟨-, -, start, fits, same, -⟩ := real [73, 72, 82] (by decide)
  obtain rfl | rfl : start = 0 ∨ start = 1 := by
    have fits : start + 3 ≤ 4 := fits
    omega
  · exact absurd same (by decide)
  · exact absurd same (by decide)

end GreenFuzz.AflFuzz
