import GreenFuzz.Library.ByteWords
import GreenFuzz.Library.Overwrite

/-!
# Overwriting with dictionary tokens

The stages `user extras (over)` and `auto extras (over)` of `fuzz_one_original` write
each token over the input, at each offset that the effector map marks. The buffer is
restored once for an offset and not between its tokens.

The tokens are sorted by their length, so a token hides those before it at the same
offset (`overTokens_right`), and what is written last is what has to be restored
(`overOffset_right`). **Every case that is run is the input with one token, a token
that is passed over as redundant gives the input or a case that was run at its offset,
and the stage leaves the input in the buffer** (`extras_over_restore`).
-/

set_option autoImplicit false

namespace GreenFuzz.AflFuzz

open Library

/-! ## The stages -/

/-- The data of a dictionary token. -/
abbrev Token := List Byte

def USE_AUTO_EXTRAS : ℕ := 4096

/-- What the dictionary stages of `fuzz_one_original` work on: the input, the user and the auto
tokens, the bits of `skip_eff_map`, and what is drawn, how late it is and what
`common_fuzz_stuff` returns at an offset and a token. Without custom post processors the runs of
the target leave the buffers alone. -/
structure DictStages where
  inBuf : List Byte
  extras : List Token
  aExtras : List Token
  maxDetExtras : ℕ := 256
  skipEffMap : ℕ → Bool
  randBelow : ℕ → ℕ → ℕ
  isDetTimeout : ℕ → Bool
  commonFuzzStuff : ℕ → ℕ → Bool

/-- How an offset or a stage ends. -/
inductive StageEnd where
  | completed | timedOut | abandoned
  deriving DecidableEq, Repr

/-- What a stage does with a token that fits at an offset: it runs a case, or the token is there
already. -/
inductive OverEvent where
  | runs (i : ℕ) (token : Token) (outBuf : List Byte)
  | redundant (i : ℕ) (token : Token)
  deriving DecidableEq, Repr

/-- The buffer of a stage, and what was done, the last first. -/
structure OverState where
  outBuf : List Byte
  log : List OverEvent
  deriving DecidableEq, Repr

variable (D : DictStages)

/-- The loop over the tokens at an offset, with the number of the token and `last_len`: what it
leaves, and whether the entry is abandoned. -/
def overTokens (skips : ℕ → Bool) (i : ℕ) :
    ℕ → ℕ → List Token → OverState → OverState × ℕ × Bool
  | _, lastLen, [], s => (s, lastLen, false)
  | j, lastLen, token :: tokens, s =>
      if skips j ∨ D.inBuf.length - i < token.length then
        overTokens skips i (j + 1) lastLen tokens s
      else if token = slice s.outBuf i token.length then
        overTokens skips i (j + 1) lastLen tokens { s with log := .redundant i token :: s.log }
      else
        let outBuf := overwrite s.outBuf i token
        let s := ⟨outBuf, .runs i token outBuf :: s.log⟩
        if D.commonFuzzStuff i j then (s, token.length, true)
        else overTokens skips i (j + 1) token.length tokens s

/-- One offset. -/
def overOffset (skips : ℕ → ℕ → Bool) (tokens : List Token) (i : ℕ) (s : OverState) :
    OverState × StageEnd :=
  if !D.skipEffMap i then (s, .completed)
  else if D.isDetTimeout i then (s, .timedOut)
  else
    match overTokens D (skips i) i 0 0 tokens s with
    | (s, _, true) => (s, .abandoned)
    | (s, lastLen, false) =>
        ({ s with outBuf := overwrite s.outBuf i (slice D.inBuf i lastLen) }, .completed)

/-- The loop over the offsets. -/
def overOffsets (skips : ℕ → ℕ → Bool) (tokens : List Token) :
    List ℕ → OverState → OverState × StageEnd
  | [], s => (s, .completed)
  | i :: offsets, s =>
      match overOffset D skips tokens i s with
      | (s, .completed) => overOffsets skips tokens offsets s
      | (s, ended) => (s, ended)

/-- `user extras (over)`. Tokens are skipped at random if there are too many. -/
def userExtrasOver : OverState × StageEnd :=
  overOffsets D
    (fun i j => D.maxDetExtras < D.extras.length && D.maxDetExtras ≤ D.randBelow i j)
    D.extras (List.range D.inBuf.length) ⟨D.inBuf, []⟩

/-- `auto extras (over)`. -/
def autoExtrasOver : OverState × StageEnd :=
  overOffsets D (fun _ _ => false) (D.aExtras.take USE_AUTO_EXTRAS)
    (List.range D.inBuf.length) ⟨D.inBuf, []⟩

/-! ## What is claimed -/

/-- Each case that is run is the input with the token, and each token that is passed over gives
the input or a case that was run before at its offset. -/
def RightLog (inBuf : List Byte) : List OverEvent → Prop
  | [] => True
  | .runs i token outBuf :: earlier =>
      i + token.length ≤ inBuf.length ∧ outBuf = overwrite inBuf i token ∧ RightLog inBuf earlier
  | .redundant i token :: earlier =>
      (overwrite inBuf i token = inBuf ∨
        ∃ other, .runs i other (overwrite inBuf i token) ∈ earlier) ∧ RightLog inBuf earlier

/-- Tokens sorted by their length, the shortest first. -/
def SortedByLength (tokens : List Token) : Prop :=
  tokens.Pairwise fun token later => token.length ≤ later.length

/-! ## One offset -/

variable {D} {skips : ℕ → ℕ → Bool} {tokens : List Token} {s : OverState} {i j lastLen : ℕ}

/-- The buffer while tokens are written at an offset: the input, or the input with the last token,
which was run. -/
def WrittenLast (inBuf : List Byte) (i lastLen : ℕ) (s : OverState) : Prop :=
  (s.outBuf = inBuf ∧ lastLen = 0) ∨
    ∃ token, token.length = lastLen ∧ i + lastLen ≤ inBuf.length ∧
      s.outBuf = overwrite inBuf i token ∧ .runs i token s.outBuf ∈ s.log

/-- A token that is not shorter than the last one hides it. -/
theorem WrittenLast.overwrite {inBuf : List Byte} {token : Token}
    (written : WrittenLast inBuf i lastLen s) (longer : lastLen ≤ token.length)
    (fits : i + token.length ≤ inBuf.length) :
    overwrite s.outBuf i token = overwrite inBuf i token := by
  rcases written with ⟨same, -⟩ | ⟨last, rfl, -, same, -⟩
  · rw [same]
  · rw [same, overwrite_overwrite longer fits]

/-- What was written last is all that has to be restored. -/
theorem WrittenLast.restore {inBuf : List Byte} (written : WrittenLast inBuf i lastLen s)
    (inside : i < inBuf.length) :
    Library.overwrite s.outBuf i (slice inBuf i lastLen) = inBuf := by
  rcases written with ⟨same, rfl⟩ | ⟨last, rfl, fits, same, -⟩
  · rw [same]
    exact overwrite_slice inBuf inside.le
  · rw [same]
    exact overwrite_undo fits

/-- The tokens of an offset, by induction on them: each is at least as long as the last. -/
theorem overTokens_right {skips : ℕ → Bool} {result : OverState × ℕ × Bool}
    (run : overTokens D skips i j lastLen tokens s = result)
    (inside : i < D.inBuf.length) (sorted : SortedByLength tokens)
    (longer : ∀ token ∈ tokens, lastLen ≤ token.length)
    (right : RightLog D.inBuf s.log) (written : WrittenLast D.inBuf i lastLen s) :
    RightLog D.inBuf result.1.log ∧ WrittenLast D.inBuf i result.2.1 result.1 := by
  induction tokens generalizing j lastLen s with
  | nil =>
      subst run
      exact ⟨right, written⟩
  | cons token tokens ih =>
      obtain ⟨later, rest⟩ := List.pairwise_cons.mp sorted
      have longer' : ∀ other ∈ tokens, lastLen ≤ other.length :=
        fun other member => longer other (List.mem_cons_of_mem token member)
      rw [overTokens] at run
      split at run
      · exact ih run rest longer' right written
      · rename_i room
        have fits : i + token.length ≤ D.inBuf.length := by
          have := not_or.mp room
          omega
        have whole := written.overwrite (longer token List.mem_cons_self) fits
        split at run
        · rename_i there
          have length : s.outBuf.length = D.inBuf.length := by
            rcases written with ⟨same, -⟩ | ⟨last, rfl, room, same, -⟩
            · rw [same]
            · rw [same, length_overwrite room]
          have unchanged : overwrite D.inBuf i token = s.outBuf :=
            whole.symm.trans (overwrite_of_slice (length ▸ fits) there.symm)
          refine ih run rest longer' ⟨?_, right⟩ ?_
          · rcases written with ⟨same, -⟩ | ⟨last, -, -, -, member⟩
            · exact .inl (unchanged.trans same)
            · exact .inr ⟨last, unchanged ▸ member⟩
          · rcases written with same | ⟨last, length, room, same, member⟩
            · exact .inl same
            · exact .inr ⟨last, length, room, same, List.mem_cons_of_mem _ member⟩
        · have right' : RightLog D.inBuf (.runs i token (overwrite s.outBuf i token) :: s.log) :=
            ⟨fits, whole, right⟩
          have written' : WrittenLast D.inBuf i token.length
              ⟨overwrite s.outBuf i token, .runs i token (overwrite s.outBuf i token) :: s.log⟩ :=
            .inr ⟨token, rfl, fits, whole, List.mem_cons_self⟩
          simp only at run
          split at run
          · subst run
            exact ⟨right', written'⟩
          · exact ih run rest later right' written'

/-- The step lemma: an offset keeps the log right, and the input in the buffer. -/
theorem overOffset_right (skips : ℕ → ℕ → Bool) (inside : i < D.inBuf.length)
    (sorted : SortedByLength tokens) (right : RightLog D.inBuf s.log)
    (restored : s.outBuf = D.inBuf) :
    RightLog D.inBuf (overOffset D skips tokens i s).1.log ∧
      ((overOffset D skips tokens i s).2 ≠ .abandoned →
        (overOffset D skips tokens i s).1.outBuf = D.inBuf) := by
  rw [overOffset]
  split
  · exact ⟨right, fun _ => restored⟩
  · split
    · exact ⟨right, fun _ => restored⟩
    · obtain ⟨right', written⟩ := overTokens_right (s := s) (j := 0) rfl inside sorted
        (fun _ _ => Nat.zero_le _) right (.inl ⟨restored, rfl⟩)
      generalize overTokens D (skips i) i 0 0 tokens s = result at right' written
      obtain ⟨s', lastLen, abandons⟩ := result
      cases abandons with
      | true => exact ⟨right', fun goesOn => absurd rfl goesOn⟩
      | false => exact ⟨right', fun _ => written.restore inside⟩

/-- The run lemma, by induction on the offsets. -/
theorem overOffsets_right {offsets : List ℕ} (inside : ∀ i ∈ offsets, i < D.inBuf.length)
    (sorted : SortedByLength tokens) (right : RightLog D.inBuf s.log)
    (restored : s.outBuf = D.inBuf) :
    RightLog D.inBuf (overOffsets D skips tokens offsets s).1.log ∧
      ((overOffsets D skips tokens offsets s).2 ≠ .abandoned →
        (overOffsets D skips tokens offsets s).1.outBuf = D.inBuf) := by
  induction offsets generalizing s with
  | nil => exact ⟨right, fun _ => restored⟩
  | cons i offsets ih =>
      obtain ⟨right', restored'⟩ := overOffset_right skips
        (inside i List.mem_cons_self) sorted right restored
      rw [overOffsets]
      generalize overOffset D skips tokens i s = result at right' restored'
      obtain ⟨s', ended⟩ := result
      cases ended with
      | completed =>
          exact ih (fun k member => inside k (List.mem_cons_of_mem i member)) right'
            (restored' nofun)
      | timedOut => exact ⟨right', fun _ => restored' nofun⟩
      | abandoned => exact ⟨right', fun goesOn => absurd rfl goesOn⟩

/-! ## The stages -/

/-- **Tokens need no restoring between them.** Every case that either stage runs is the input with
one token, every token that is redundant gives the input or a case that was run before at its
offset, and a stage that is not abandoned leaves the input in the buffer. -/
theorem extras_over_restore (D : DictStages) (userSorted : SortedByLength D.extras)
    (autoSorted : SortedByLength (D.aExtras.take USE_AUTO_EXTRAS)) :
    (RightLog D.inBuf (userExtrasOver D).1.log ∧
      ((userExtrasOver D).2 ≠ .abandoned → (userExtrasOver D).1.outBuf = D.inBuf)) ∧
    (RightLog D.inBuf (autoExtrasOver D).1.log ∧
      ((autoExtrasOver D).2 ≠ .abandoned → (autoExtrasOver D).1.outBuf = D.inBuf)) := by
  have inside : ∀ i ∈ List.range D.inBuf.length, i < D.inBuf.length :=
    fun i member => List.mem_range.mp member
  exact ⟨overOffsets_right inside userSorted trivial rfl,
    overOffsets_right inside autoSorted trivial rfl⟩

/-- Three bytes, two user tokens of which the second begins with the first, and an auto token. -/
def threeTokens : DictStages :=
  { inBuf := [1, 2, 3], extras := [[9], [9, 2]], aExtras := [[3]]
    skipEffMap := fun i => i ≠ 1, randBelow := fun _ _ => 0
    isDetTimeout := fun _ => false, commonFuzzStuff := fun _ _ => false }

theorem extras_over_restore_three :
    RightLog [1, 2, 3] (userExtrasOver threeTokens).1.log ∧
      (userExtrasOver threeTokens).1.outBuf = [1, 2, 3] := by
  have restores := extras_over_restore threeTokens
    (List.pairwise_pair.mpr (by decide)) (List.pairwise_singleton _ _)
  exact ⟨restores.1.1, restores.1.2 (by decide)⟩

/-- The second token is redundant after the first at the first offset. -/
example : (userExtrasOver threeTokens).1 =
    ⟨[1, 2, 3], [.runs 2 [9] [1, 2, 9], .redundant 0 [9, 2], .runs 0 [9] [9, 2, 3]]⟩ := by
  decide

end GreenFuzz.AflFuzz
