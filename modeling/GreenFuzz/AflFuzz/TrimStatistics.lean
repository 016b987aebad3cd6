import GreenFuzz.AflFuzz.CacheAccounting

/-!
# The trim statistics

`trim_case` and `trim_case_custom` add the length of a case to `bytes_trim_in` when they start
to trim it, and to `bytes_trim_out` when they end. The label `abort_trimming` of `trim_case` is also
where a case of less than five bytes and a case that custom trimmers have dealt with end up. The
first was not counted in, and the second was counted out by `trim_case_custom` already.

So a call may count out more than it counts in (`trimCaseCounted_balanced_iff`). What earlier
calls have saved makes up for it or not.
-/

set_option autoImplicit false

namespace GreenFuzz.AflFuzz

open Library

/-! ## The code -/

structure TrimStats where
  bytesTrimIn : ℕ := 0
  bytesTrimOut : ℕ := 0
  deriving DecidableEq, Repr

namespace TrimStats

/-- `afl->bytes_trim_in += q->len`. -/
def enter (s : TrimStats) (len : ℕ) : TrimStats :=
  { s with bytesTrimIn := u64 (s.bytesTrimIn + len) }

/-- `afl->bytes_trim_out += q->len`. -/
def leave (s : TrimStats) (len : ℕ) : TrimStats :=
  { s with bytesTrimOut := u64 (s.bytesTrimOut + len) }

/-- The bytes that `show_stats_pizza` makes a ratio of. -/
def savedPizza (s : TrimStats) : Option ℕ :=
  if s.bytesTrimOut = 0 then none else some (u64Sub s.bytesTrimIn s.bytesTrimOut)

end TrimStats

/-- `trim_case_custom`, with the length of the entry. -/
def countCustom (state : ℕ × TrimStats) (steps : List CustomTrimStep) : ℕ × TrimStats :=
  let len := trimCaseCustom state.1 steps
  (len, (state.2.enter state.1).leave len)

/-- The length after the loops of the built-in trimmer and the post processing. -/
def TrimCall.lengthAfter (call : TrimCall) (st : TrimState) : ℕ :=
  if st.needsWrite && !st.aborted then
    if call.mutators ≠ [] ∧ !call.aflPostProcessKeepOriginal then (call.postProcess st.len).1
    else st.len
  else st.len

/-- `trim_case`, with the length of the entry. -/
def trimCaseCounted (len : ℕ) (call : TrimCall) (s : TrimStats) :
    Except CacheFault (ℕ × TrimStats) :=
  if call.trimmers ≠ [] then
    let (len, s) := call.trimmers.foldl countCustom (len, s)
    .ok (len, s.leave len)
  else if len < 5 then .ok (len, s.leave len)
  else do
    let s := s.enter len
    let st ← trimLoop (trimStart len) call.verdicts
    let len := call.lengthAfter st
    return (len, s.leave len)

/-! ## The lengths are those of `trimCase` -/

theorem fst_foldl_countCustom (trimmers : List (List CustomTrimStep)) (state : ℕ × TrimStats) :
    (trimmers.foldl countCustom state).1 = trimmers.foldl trimCaseCustom state.1 := by
  induction trimmers generalizing state with
  | nil => rfl
  | cons steps trimmers ih => exact ih (countCustom state steps)

theorem len_queueTestcaseRetake (s : TestcaseCache) (q p oldLen : ℕ) :
    ((queueTestcaseRetake s q oldLen).entries p).len = (s.entries p).len := by
  unfold queueTestcaseRetake
  dsimp only
  split_ifs
  · exact s.changed_len q _ p
  · rfl
  · rfl

theorem len_queueTestcaseRetakeMem (s : TestcaseCache) (q p len oldLen : ℕ) (inPlace : Bool) :
    ((queueTestcaseRetakeMem s q len oldLen inPlace).entries p).len = (s.entries p).len := by
  unfold queueTestcaseRetakeMem
  split_ifs
  · exact s.changed_len q _ p
  · rfl
  · rfl

/-- A case of less than five bytes stays as it is. -/
theorem lengthAfter_of_short {len : ℕ} {call : TrimCall} {st : TrimState} (short : len < 5)
    (loop : trimLoop (trimStart len) call.verdicts = .ok st) : call.lengthAfter st = len := by
  have idle : (trimStart len).attempt = none := if_pos short
  cases verdicts : call.verdicts with
  | nil =>
      rw [verdicts, trimLoop, idle] at loop
      cases loop
      rfl
  | cons verdict verdicts' =>
      rw [verdicts, trimLoop, idle] at loop
      cases loop

/-- The length that is counted out is the length that `trimCase` leaves. -/
theorem trimCaseCounted_len {s t : TestcaseCache} {q : ℕ} {call : TrimCall}
    (done : trimCase s q call = .ok t) (stats : TrimStats) :
    ∃ stats', trimCaseCounted (s.entries q).len call stats = .ok ((t.entries q).len, stats') := by
  unfold trimCase at done
  unfold trimCaseCounted
  split at done
  · rename_i custom
    cases done
    have length := fst_foldl_countCustom call.trimmers ((s.entries q).len, stats)
    rw [if_pos custom, len_queueTestcaseRetake, TestcaseCache.len_setLen]
    exact ⟨_, congrArg (fun len => Except.ok (len, _)) length⟩
  · rename_i builtIn
    rw [if_neg builtIn]
    obtain ⟨st, loop, finish⟩ := bind_eq_ok_iff.mp done
    cases finish
    have length : ((finishTrim s q call st).entries q).len = call.lengthAfter st := by
      unfold finishTrim TrimCall.lengthAfter
      dsimp only
      split_ifs
      · rw [len_queueTestcaseRetakeMem, TestcaseCache.len_setLen]
      · rw [len_queueTestcaseRetakeMem, TestcaseCache.len_setLen]
      · rw [TestcaseCache.len_setLen]
    rw [length]
    split
    · rename_i short
      rw [lengthAfter_of_short short loop]
      exact ⟨_, rfl⟩
    · rw [loop]
      exact ⟨_, rfl⟩

/-! ## What a call counts -/

/-- The lengths that custom trimmers start from, added up. -/
def enteredBy : List (List CustomTrimStep) → ℕ → ℕ
  | [], _ => 0
  | steps :: trimmers, len => len + enteredBy trimmers (trimCaseCustom len steps)

/-- The lengths that custom trimmers leave, added up. -/
def leftBy : List (List CustomTrimStep) → ℕ → ℕ
  | [], _ => 0
  | steps :: trimmers, len =>
      trimCaseCustom len steps + leftBy trimmers (trimCaseCustom len steps)

/-- Each trimmer starts where the one before it has ended. -/
theorem leftBy_add (trimmers : List (List CustomTrimStep)) (len : ℕ) :
    leftBy trimmers len + len = enteredBy trimmers len + trimmers.foldl trimCaseCustom len := by
  induction trimmers generalizing len with
  | nil => rw [leftBy, enteredBy, List.foldl_nil]
  | cons steps trimmers ih =>
      have rest := ih (trimCaseCustom len steps)
      rw [leftBy, enteredBy, List.foldl_cons]
      omega

/-- The bytes that a call counts in. -/
def TrimCall.entered (call : TrimCall) (len : ℕ) : ℕ :=
  if call.trimmers ≠ [] then enteredBy call.trimmers len else if len < 5 then 0 else len

/-- The bytes that a call counts out, where it leaves this length. -/
def TrimCall.left (call : TrimCall) (len after : ℕ) : ℕ := leftBy call.trimmers len + after

/-- The totals without a wrap. -/
def TrimCall.Fits (call : TrimCall) (len after : ℕ) (s : TrimStats) : Prop :=
  s.bytesTrimIn + call.entered len < 2 ^ 64 ∧ s.bytesTrimOut + call.left len after < 2 ^ 64

theorem snd_foldl_countCustom (trimmers : List (List CustomTrimStep)) {len : ℕ} {s : TrimStats}
    (fits : s.bytesTrimIn + enteredBy trimmers len < 2 ^ 64)
    (fits' : s.bytesTrimOut + leftBy trimmers len < 2 ^ 64) :
    (trimmers.foldl countCustom (len, s)).2 =
      ⟨s.bytesTrimIn + enteredBy trimmers len, s.bytesTrimOut + leftBy trimmers len⟩ := by
  induction trimmers generalizing len s with
  | nil => rfl
  | cons steps trimmers ih =>
      rw [enteredBy, ← Nat.add_assoc] at fits
      rw [leftBy, ← Nat.add_assoc] at fits'
      have counted : countCustom (len, s) steps = (trimCaseCustom len steps,
          ⟨s.bytesTrimIn + len, s.bytesTrimOut + trimCaseCustom len steps⟩) := by
        unfold countCustom TrimStats.enter TrimStats.leave
        dsimp only
        rw [u64_of_lt (by omega), u64_of_lt (by omega)]
      rw [List.foldl_cons, counted, ih fits fits', enteredBy, leftBy, Nat.add_assoc, Nat.add_assoc]

/-- The spec lemma of a call: what it adds to the totals. -/
theorem trimCaseCounted_spec {len after : ℕ} {call : TrimCall} {s t : TrimStats}
    (done : trimCaseCounted len call s = .ok (after, t)) (fits : call.Fits len after s) :
    t = ⟨s.bytesTrimIn + call.entered len, s.bytesTrimOut + call.left len after⟩ := by
  obtain ⟨fits_in, fits_out⟩ := fits
  unfold trimCaseCounted at done
  unfold TrimCall.entered at fits_in ⊢
  unfold TrimCall.left at fits_out ⊢
  by_cases custom : call.trimmers ≠ []
  · rw [if_pos custom] at done fits_in ⊢
    have totals := snd_foldl_countCustom call.trimmers fits_in (by omega)
    simp only [Except.ok.injEq, Prod.mk.injEq] at done
    obtain ⟨rfl, rfl⟩ := done
    rw [totals, TrimStats.leave]
    dsimp only
    rw [u64_of_lt (by omega), Nat.add_assoc]
  · rw [if_neg custom] at done fits_in ⊢
    rw [not_not.mp custom, leftBy, Nat.zero_add] at fits_out ⊢
    split at done
    · rename_i short
      rw [if_pos short] at fits_in ⊢
      cases done
      rw [TrimStats.leave, u64_of_lt fits_out]
      rfl
    · rename_i long
      rw [if_neg long] at fits_in ⊢
      obtain ⟨st, loop, finish⟩ := bind_eq_ok_iff.mp done
      cases finish
      rw [TrimStats.enter, TrimStats.leave, u64_of_lt fits_in]
      dsimp only at fits_out ⊢
      rw [u64_of_lt fits_out]

/-! ## Calls that keep the totals in order -/

/-- What a call has to meet, where earlier calls have saved so many bytes. Custom trimmers have to
leave at most half of the length and of the bytes saved. A short case is paid for by the bytes
saved, and so is what the post processing adds to a trimmed case. -/
def TrimCall.Balanced (call : TrimCall) (len saved : ℕ) : Prop :=
  if call.trimmers ≠ [] then
    2 * (call.trimmers.flatMap CustomTrimStep.written).getLast?.getD len ≤ len + saved
  else if len < 5 then len ≤ saved
  else
    .keepsTrace ∈ call.verdicts → .aborts ∉ call.verdicts → call.mutators ≠ [] →
      call.aflPostProcessKeepOriginal = false → call.finalSize.1 ≤ len + saved

/-- The post processing leaves at most so many bytes exactly when its final size is at most that. -/
theorem TrimCall.postProcess_le_iff (call : TrimCall) {len trimmed saved : ℕ}
    (shorter : trimmed < len) :
    (call.postProcess trimmed).1 ≤ len + saved ↔ call.finalSize.1 ≤ len + saved := by
  rw [call.postProcess_eq]
  unfold TrimCall.finalSize
  cases call.answer with
  | some answer => rfl
  | none =>
      rcases call.limited_of_lt shorter with same | ⟨small, low⟩
      · rw [Option.getD_none, same]
      · simp only [Option.getD_none]
        omega

/-- The built-in trimmer leaves at most so many bytes exactly under the condition. -/
theorem lengthAfter_le_iff {len saved : ℕ} {call : TrimCall} {st : TrimState}
    (loop : trimLoop (trimStart len) call.verdicts = .ok st) :
    call.lengthAfter st ≤ len + saved ↔
      (.keepsTrace ∈ call.verdicts → .aborts ∉ call.verdicts → call.mutators ≠ [] →
        call.aflPostProcessKeepOriginal = false → call.finalSize.1 ≤ len + saved) := by
  obtain ⟨writes, aborts, le, shorter, -⟩ := trimLoop_spec (trimStart_ready len) loop
  have start : (trimStart len).len = len := rfl
  rw [start] at le shorter
  have unwritten : (trimStart len).needsWrite = false := rfl
  have unaborted : (trimStart len).aborted = false := rfl
  simp only [unwritten, unaborted, Bool.false_eq_true, false_or] at writes aborts
  unfold TrimCall.lengthAfter
  by_cases processed : (.keepsTrace ∈ call.verdicts ∧ .aborts ∉ call.verdicts) ∧
      call.mutators ≠ [] ∧ call.aflPostProcessKeepOriginal = false
  · obtain ⟨⟨keeps, goes_on⟩, some_mutator, changes⟩ := processed
    rw [writes.mpr keeps, Bool.eq_false_iff.mpr (mt aborts.mp goes_on), changes, Bool.not_false,
      Bool.and_true, if_pos rfl, if_pos ⟨some_mutator, rfl⟩,
      call.postProcess_le_iff (shorter keeps)]
    exact ⟨fun small _ _ _ _ => small, fun small => small keeps goes_on some_mutator rfl⟩
  · refine iff_of_true ?_ fun keeps goes_on some_mutator changes =>
      absurd ⟨⟨keeps, goes_on⟩, some_mutator, changes⟩ processed
    split_ifs with written processes
    · rw [Bool.and_eq_true, Bool.not_eq_true', ← Bool.not_eq_true, writes, aborts] at written
      rw [Bool.not_eq_true'] at processes
      exact absurd ⟨written, processes⟩ processed
    · exact le.trans (Nat.le_add_right _ _)
    · exact le.trans (Nat.le_add_right _ _)

/-- The step lemma: **a call keeps the totals in order exactly if it is balanced.** -/
theorem trimCaseCounted_balanced_iff {len after : ℕ} {call : TrimCall} {s t : TrimStats}
    (ordered : s.bytesTrimOut ≤ s.bytesTrimIn)
    (done : trimCaseCounted len call s = .ok (after, t)) (fits : call.Fits len after s) :
    t.bytesTrimOut ≤ t.bytesTrimIn ↔ call.Balanced len (s.bytesTrimIn - s.bytesTrimOut) := by
  rw [trimCaseCounted_spec done fits]
  unfold trimCaseCounted at done
  unfold TrimCall.entered TrimCall.left TrimCall.Balanced
  dsimp only
  by_cases custom : call.trimmers ≠ []
  · rw [if_pos custom] at done
    have final := fst_foldl_countCustom call.trimmers (len, s)
    have parts := leftBy_add call.trimmers len
    dsimp only at final
    simp only [Except.ok.injEq, Prod.mk.injEq] at done
    obtain ⟨rfl, -⟩ := done
    rw [if_pos custom, if_pos custom, final]
    rw [foldl_trimCaseCustom] at parts ⊢
    omega
  · rw [if_neg custom] at done
    rw [if_neg custom, if_neg custom, not_not.mp custom, leftBy, Nat.zero_add]
    split at done
    · rename_i short
      rw [if_pos short, if_pos short]
      cases done
      omega
    · rename_i long
      rw [if_neg long, if_neg long]
      obtain ⟨st, loop, finish⟩ := bind_eq_ok_iff.mp done
      cases finish
      rw [← lengthAfter_le_iff loop]
      omega

/-! ## No wrap -/

/-- The totals are far enough from the end for all that a call may count. -/
def TrimCall.Room (call : TrimCall) (s : TrimStats) : Prop :=
  s.bytesTrimIn + (call.trimmers.length + 1) * 2 ^ 32 ≤ 2 ^ 64 ∧
    s.bytesTrimOut + (call.trimmers.length + 1) * 2 ^ 32 ≤ 2 ^ 64

theorem trimCaseCustom_lt {len : ℕ} (small : len < 2 ^ 32) (steps : List CustomTrimStep) :
    trimCaseCustom len steps < 2 ^ 32 := by
  rw [trimCaseCustom_eq]
  cases last : (CustomTrimStep.written steps).getLast? with
  | none => exact small
  | some n => exact lt_of_mem_written (List.mem_of_getLast? last)

theorem counted_le {len : ℕ} (small : len < 2 ^ 32) (trimmers : List (List CustomTrimStep)) :
    enteredBy trimmers len ≤ trimmers.length * 2 ^ 32 ∧
      leftBy trimmers len ≤ trimmers.length * 2 ^ 32 ∧
        trimmers.foldl trimCaseCustom len < 2 ^ 32 := by
  induction trimmers generalizing len with
  | nil => exact ⟨Nat.zero_le _, Nat.zero_le _, small⟩
  | cons steps trimmers ih =>
      have left := trimCaseCustom_lt small steps
      obtain ⟨entered_le, left_le, final⟩ := ih left
      rw [enteredBy, leftBy, List.length_cons, Nat.succ_mul]
      exact ⟨by omega, by omega, final⟩

theorem lengthAfter_lt {len : ℕ} (small : len < 2 ^ 32) {call : TrimCall} {st : TrimState}
    (loop : trimLoop (trimStart len) call.verdicts = .ok st) : call.lengthAfter st < 2 ^ 32 := by
  obtain ⟨-, -, le, -⟩ := trimLoop_spec (trimStart_ready len) loop
  unfold TrimCall.lengthAfter
  split_ifs
  · rw [call.postProcess_eq]
    exact call.limited_lt _
  · exact le.trans_lt small
  · exact le.trans_lt small

theorem TrimCall.Room.fits {len after : ℕ} {call : TrimCall} {s t : TrimStats}
    (room : call.Room s) (small : len < 2 ^ 32)
    (done : trimCaseCounted len call s = .ok (after, t)) : call.Fits len after s := by
  obtain ⟨entered_le, left_le, final⟩ := counted_le small call.trimmers
  obtain ⟨room_in, room_out⟩ := room
  unfold trimCaseCounted at done
  unfold TrimCall.Fits TrimCall.entered TrimCall.left
  by_cases custom : call.trimmers ≠ []
  · have ends := fst_foldl_countCustom call.trimmers (len, s)
    dsimp only at ends
    rw [if_pos custom] at done ⊢
    simp only [Except.ok.injEq, Prod.mk.injEq] at done
    obtain ⟨rfl, -⟩ := done
    rw [ends]
    omega
  · rw [if_neg custom] at done ⊢
    split at done
    · rename_i short
      cases done
      rw [if_pos short]
      omega
    · rename_i long
      obtain ⟨st, loop, finish⟩ := bind_eq_ok_iff.mp done
      cases finish
      have bound := lengthAfter_lt small loop
      rw [if_neg long]
      omega

/-! ## Runs -/

namespace TrimStats

/-- No more bytes have left than entered, so the ratio of the pizza screen is made of their
difference. -/
def Ordered (s : TrimStats) : Prop :=
  s.bytesTrimOut ≤ s.bytesTrimIn ∧
    ∀ saved, s.savedPizza = some saved → s.bytesTrimOut + saved = s.bytesTrimIn

theorem ordered_iff {s : TrimStats} (bounded : s.bytesTrimIn < 2 ^ 64) :
    s.Ordered ↔ s.bytesTrimOut ≤ s.bytesTrimIn := by
  refine ⟨And.left, fun le => ⟨le, fun saved shown => ?_⟩⟩
  unfold savedPizza at shown
  split at shown
  · cases shown
  · cases shown
    rw [u64Sub_of_le le bounded]
    omega

end TrimStats

/-- Calls for cases of any length that are balanced where they start. -/
def trimSystem : TransitionSystem TrimStats where
  init s := s = {}
  step s t := ∃ len call after, len < 2 ^ 32 ∧ call.Room s ∧
    call.Balanced len (s.bytesTrimIn - s.bytesTrimOut) ∧
    trimCaseCounted len call s = .ok (after, t)

/-- **No more bytes leave the trimmer than enter it in every run of balanced calls**, and a
further call keeps it so exactly if it is balanced too. -/
theorem trimOrdered_of_reachable {s : TrimStats} (run : Reachable trimSystem s) :
    s.Ordered ∧ ∀ len call after t, len < 2 ^ 32 → call.Room s →
      trimCaseCounted len call s = .ok (after, t) →
        (t.Ordered ↔ call.Balanced len (s.bytesTrimIn - s.bytesTrimOut)) := by
  have call_iff : ∀ s len call after t, s.Ordered → len < 2 ^ 32 → call.Room s →
      trimCaseCounted len call s = .ok (after, t) →
        (t.Ordered ↔ call.Balanced len (s.bytesTrimIn - s.bytesTrimOut)) := by
    intro s len call after t ordered small room done
    have fits := room.fits small done
    have total := trimCaseCounted_spec done fits
    rw [TrimStats.ordered_iff (by rw [total]; exact fits.1)]
    exact trimCaseCounted_balanced_iff ordered.1 done fits
  have ordered : s.Ordered := by
    refine run.invariant (fun s start => ?_) fun s t _ ordered taken => ?_
    · cases start
      exact ⟨le_rfl, nofun⟩
    · obtain ⟨len, call, after, small, room, balanced, done⟩ := taken
      exact (call_iff s len call after t ordered small room done).mpr balanced
  exact ⟨ordered, fun len call after t => call_iff s len call after t ordered⟩

/-- The first case has three bytes. -/
theorem short_case_unordered : ∃ t, trimCaseCounted 3 { inPlace := false } {} = .ok (3, t) ∧
    t.savedPizza = some (2 ^ 64 - 3) ∧ ¬ t.Ordered :=
  ⟨⟨0, 3⟩, rfl, rfl, fun ordered => absurd ordered.1 (by decide)⟩

/-- The second half of a case of eight bytes is removed. -/
theorem trimOrdered_of_reachable_half : (⟨8, 4⟩ : TrimStats).Ordered := by
  have run : Reachable trimSystem ⟨8, 4⟩ :=
    .step (.init rfl) ⟨8, { inPlace := false, verdicts := [.keepsTrace] }, 4, by decide,
      ⟨by decide, by decide⟩, fun _ _ some_mutator => absurd rfl some_mutator, rfl⟩
  exact (trimOrdered_of_reachable run).1

end GreenFuzz.AflFuzz
