import GreenFuzz.AflFuzz.NewBits
import GreenFuzz.Redqueen.CombinedFinds

/-!
# The combine step of the stage

`input_to_state_stage` calls the solvers for everything that was logged, and each of them copies
what it finds to the combined buffer. If there was more than one find, the combined buffer is
executed at the end: the virgin map is set back to what it was before the stage, the execution
clears bits of it, and the result is intersected with the map as the solvers left it.

**A find in a word is collected, a find that is undisturbed is collected exactly if every byte that
it changed and that is not copied was in the combined buffer before, and the intersection has no
bit that the map did not have** (`combine_collects_iff`). The last byte of a direct match is not
copied (`direct_find_incomplete`).
-/

set_option autoImplicit false

namespace GreenFuzz.Redqueen

open Library AflFuzz

/-! ## The calls of a stage -/

/-- A call of a solver. -/
inductive SolverCall where
  | cmp (C : CmpPlace) (depth : ℕ) (a : CmpArgs 64)
  | cmpN (C : CmpPlace) (depth : ℕ) (a : CmpArgs 128)
  | rtn (R : RtnCall)

def SolverCall.run : SolverCall → Its Unit
  | .cmp C depth a => cmpExtendEncoding C depth a
  | .cmpN C depth a => cmpExtendEncodingN C depth a
  | .rtn R => rtnExtendEncoding R

/-- Calls one after the other. `cmp_fuzz` and `rtn_fuzz` set `hshape` and `*status` before a call;
which calls they make depends on the log. -/
def solveAll : List (ℕ × ℕ × SolverCall) → Its Unit
  | [] => pure ()
  | (hshape, status, call) :: rest => do
      poke fun s => { s with hshape := hshape, status := status }
      call.run
      solveAll rest

theorem records_call (call : SolverCall) : Leads Records call.run := by
  cases call with
  | cmp C depth a => exact records_cmpExtendEncoding C depth a
  | cmpN C depth a => exact records_cmpExtendEncodingN C depth a
  | rtn R => exact records_rtnExtendEncoding R

theorem records_solveAll (calls : List (ℕ × ℕ × SolverCall)) : Leads Records (solveAll calls) := by
  induction calls with
  | nil => exact Leads.pure Records.refl ()
  | cons call rest ih =>
      refine Leads.bind Records.trans (Leads.attempt fun s _ => Records.of_eq rfl) fun _ => ?_
      exact Leads.bind Records.trans (records_call _) fun _ => ih

/-! ## The virgin map -/

/-- `v[i] &= s[i]`. -/
def mergeWord (n : ℕ) (save virgin : Buffer) (i : ℕ) : Buffer :=
  storeWord n virgin i (loadWord n virgin i &&& loadWord n save i)

/-- The loop over the words of the map. -/
def mergeVirgin (W : WordSize) (mapSize : ℕ) (save virgin : Buffer) : Buffer :=
  (List.range (mapSize / W.n)).foldl (mergeWord W.n save) virgin

/-- The virgin map after the stage. The execution of the combined buffer makes of a virgin map
what it will. -/
def combineStep (W : WordSize) (mapSize origHitCnt hitCnt : ℕ) (execute : Buffer → Buffer)
    (virginBackup virginBits : Buffer) : Buffer :=
  if origHitCnt + 1 < hitCnt then
    let virginSave := virginBits
    let virginBits := memcpyTo virginBits 0 (bytesFrom virginBackup 0 mapSize)
    mergeVirgin W mapSize virginSave (execute virginBits)
  else virginBits

/-- Every bit of a byte is a bit of another one. -/
def BitSubset (left right : Byte) : Prop := ∀ j, left.getLsbD j = true → right.getLsbD j = true

theorem BitSubset.refl (byte : Byte) : BitSubset byte byte := fun _ set => set

/-- An intersection has the bits of both bytes only. -/
theorem bitSubset_and (left right : Byte) : BitSubset (left &&& right) right := by
  intro j set
  rw [BitVec.getLsbD_and, Bool.and_eq_true] at set
  exact set.2

theorem mergeWord_apply {n : ℕ} (positive : 0 < n) (save virgin : Buffer) (i address : ℕ) :
    mergeWord n save virgin i address =
      if address / n = i then virgin address &&& save address else virgin address := by
  have below : address % n < n := Nat.mod_lt _ positive
  rw [mergeWord, storeWord_apply]
  split
  next here =>
    rw [byteOf_and, byteOf_loadWord _ _ below, byteOf_loadWord _ _ below, ← here,
      Nat.div_add_mod]
  next => rfl

/-- Merging intersects the maps byte by byte, up to the last whole word. -/
theorem mergeVirgin_apply (W : WordSize) (mapSize : ℕ) (save virgin : Buffer) (address : ℕ) :
    mergeVirgin W mapSize save virgin address =
      if address / W.n < mapSize / W.n then virgin address &&& save address
      else virgin address :=
  foldl_words_apply id (mergeWord W.n save) (fun address byte => byte &&& save address)
    (fun virgin i address => mergeWord_apply W.positive save virgin i address) virgin _ address

/-- The step brings back no bit, whatever the execution does. -/
theorem combineStep_subset (W : WordSize) {mapSize : ℕ} (rounded : 64 ∣ mapSize)
    (origHitCnt hitCnt : ℕ) (execute : Buffer → Buffer) (virginBackup virginBits : Buffer)
    {address : ℕ} (inside : address < mapSize) :
    BitSubset (combineStep W mapSize origHitCnt hitCnt execute virginBackup virginBits address)
      (virginBits address) := by
  unfold combineStep
  split
  · have whole : address / W.n < mapSize / W.n :=
      Nat.div_lt_div_of_lt_of_dvd (W.divides.trans rounded) inside
    rw [mergeVirgin_apply, if_pos whole]
    exact bitSubset_and _ _
  · exact BitSubset.refl _

/-! ## Both -/

/-- A word is copied as a whole. -/
theorem restKnown_of_word {find : Find} (word : find.site = .word) : find.RestKnown := by
  intro p byte _ left_out
  rw [word] at left_out
  exact absurd trivial left_out

/-- What is known of the finds of a run that started without any. -/
theorem Records.collects {s t : ItsState} (records : Records s t) (fresh : s.finds = [])
    {find : Find} (member : find ∈ t.finds) :
    (find.site = .word → find.Collected) ∧
      (find.site.Undisturbed → (find.Collected ↔ find.RestKnown)) := by
  obtain ⟨made, grown, copied⟩ := records
  rw [grown, fresh, List.nil_append] at member
  have collected_iff (undisturbed : find.site.Undisturbed) :
      find.Collected ↔ find.RestKnown := (copied find member undisturbed).collected_iff
  refine ⟨fun word => ?_, collected_iff⟩
  have undisturbed : find.site.Undisturbed := by
    rw [word]
    trivial
  exact (collected_iff undisturbed).mpr (restKnown_of_word word)

/-- **Every word that is found is collected, every undisturbed find of the calls is collected
exactly if the bytes that it changed and that are not copied were combined before, and the step
brings back no bit of the virgin map**, for all results of the executions. -/
theorem combine_collects_iff (calls : List (ℕ × ℕ × SolverCall)) {s t : ItsState}
    {supply left : List ExecResult} (run : solveAll calls s supply = .ok (((), t), left))
    (fresh : s.finds = []) (W : WordSize) {mapSize : ℕ} (rounded : 64 ∣ mapSize)
    (len origHitCnt hitCnt : ℕ) (execute : List Byte → Buffer → Buffer)
    (virginBackup virginBits : Buffer) :
    (∀ find ∈ t.finds, (find.site = .word → find.Collected) ∧
        (find.site.Undisturbed → (find.Collected ↔ find.RestKnown))) ∧
      ∀ address < mapSize,
        BitSubset (combineStep W mapSize origHitCnt hitCnt (execute (inputOf len t.cbuf))
          virginBackup virginBits address) (virginBits address) := by
  refine ⟨fun find member => ?_, fun address inside => ?_⟩
  · exact (records_solveAll calls s supply () t left run).collects fresh member
  · exact combineStep_subset W rounded _ _ _ _ _ inside

/-- A routine compares the input `ab` with `AB`. -/
def directCalls : List (ℕ × ℕ × SolverCall) :=
  [(2, 0, .rtn (compareCall [97, 98] [97, 98] [97, 98] false 2))]

/-- Before the stage the combined buffer holds the first byte of the input, and this one. -/
def directState (second : Byte) : ItsState :=
  { inputState 2 [97, 98] with cbuf := fun i => [97, second].getD i 0 }

/-- A run can be tried out. -/
theorem exists_run {part : Its Unit} {s : ItsState} {supply : List ExecResult} {p : ItsState → Prop}
    [DecidablePred p]
    (ends : (match part s supply with
      | .ok ((_, t), []) => decide (p t)
      | _ => false) = true) :
    ∃ t, part s supply = .ok (((), t), []) ∧ p t := by
  cases run : part s supply with
  | error halt =>
      rw [run] at ends
      cases ends
  | ok result =>
      obtain ⟨⟨_, t⟩, left⟩ := result
      rw [run] at ends
      cases left with
      | nil => exact ⟨t, rfl, of_decide_eq_true ends⟩
      | cons _ _ => cases ends

/-- The second byte makes the find, and was combined before. -/
theorem combine_collects_iff_direct :
    ∃ t, solveAll directCalls (directState 66) [nothingFound, crashFound] = .ok (((), t), []) ∧
      (∃ find ∈ t.finds, find.site = .direct 1 ∧ find.executed = [65, 66] ∧ find.Collected) ∧
      ∀ address < 64,
        BitSubset (combineStep word64 64 0 2 (fun virgin => cleared 64 (fun _ => 1) virgin)
          (fun _ => 255) (fun _ => 254) address) 254 := by
  obtain ⟨t, run, find, member, site, executed, known⟩ :
      ∃ t, solveAll directCalls (directState 66) [nothingFound, crashFound] = .ok (((), t), []) ∧
        ∃ find ∈ t.finds, find.site = .direct 1 ∧ find.executed = [65, 66] ∧
          find.known 1 = 66 := exists_run (by decide +kernel)
  obtain ⟨finds, subset⟩ := combine_collects_iff directCalls run rfl word64
    (show 64 ∣ 64 from Nat.dvd_refl 64) 2 0 2
    (fun _ virgin => cleared 64 (fun _ => 1) virgin) (fun _ => 255) fun _ => 254
  have rest : find.RestKnown := by
    rintro p byte ⟨here, -⟩ left_out
    rw [site] at left_out
    obtain ⟨inside, value⟩ := List.getElem?_eq_some_iff.mp (executed ▸ here)
    obtain rfl : p = 1 := Nat.le_antisymm (Nat.le_of_lt_succ inside) (Nat.le_of_not_lt left_out)
    exact known.trans value
  refine ⟨t, run, ⟨find, member, site, executed, ((finds find member).2 ?_).mpr rest⟩, subset⟩
  rw [site]
  trivial

/-- The second byte makes the find, and only the first one is combined. -/
theorem direct_find_incomplete :
    ∃ t, solveAll directCalls (directState 98) [nothingFound, crashFound] = .ok (((), t), []) ∧
      ∃ find ∈ t.finds, find.site = .direct 1 ∧ find.executed = [65, 66] ∧ ¬ find.Collected := by
  obtain ⟨t, run, find, member, here, executed, before, combined⟩ :
      ∃ t, solveAll directCalls (directState 98) [nothingFound, crashFound] = .ok (((), t), []) ∧
        ∃ find ∈ t.finds, find.site = .direct 1 ∧ find.executed = [65, 66] ∧
          find.before 1 = 98 ∧ find.combined 1 = 98 := exists_run (by decide +kernel)
  refine ⟨t, run, find, member, here, executed, fun collected => ?_⟩
  have last : find.combined 1 = 66 := by
    refine collected 1 66 ⟨by rw [executed]; rfl, ?_⟩
    rw [before]
    decide
  exact absurd (combined.symm.trans last) (by decide)

end GreenFuzz.Redqueen
