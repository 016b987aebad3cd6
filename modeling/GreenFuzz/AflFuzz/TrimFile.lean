import GreenFuzz.AflFuzz.TrimContent

/-!
# The file that trimming leaves

`trim_case` shortens the case and its length at once, and rewrites the file when the
loops are done. The writes of the kernel may be short.

A run that ends the trimming after a deletion was accepted jumps past the rewriting,
so the length and the file differ. Neither way of rewriting follows short writes:
with `-N` every write starts at the beginning of the buffer (`rewriteLoop_spec`), and
`ck_write` compares what it has written with what is left, so it stops when the two
are the same (`ckWriteLoop_spec`). **The file holds the case exactly if there was
nothing to write, or the trimming was not ended early and the writes come out whole**
(`trim_file_follows_iff`). The case is that of `caseLeft`, which knows no buffers.
-/

set_option autoImplicit false

namespace GreenFuzz.AflFuzz

open Library

/-! ## Short writes -/

/-- How much the kernel accepts at most in each write, at least one byte. -/
structure ShortWrites where
  accepts : ℕ → ℕ
  positive : ∀ call, 0 < accepts call

/-- The result of `write` when `count` bytes are offered. -/
def ShortWrites.write (kernel : ShortWrites) (call count : ℕ) : ℕ :=
  min (kernel.accepts call) count

/-- What is accepted before a write, if all earlier ones are short. -/
def ShortWrites.total (kernel : ShortWrites) : ℕ → ℕ
  | 0 => 0
  | call + 1 => kernel.total call + kernel.accepts call

/-- The loop of `ck_write`, if it ends within this number of rounds: the contents of the file. -/
def ckWriteLoop (kernel : ShortWrites) (buf : List Byte) :
    ℕ → ℕ → ℕ → ℕ → ℕ → List Byte → Option (List Byte)
  | 0, _, _, _, _, _ => none
  | rounds + 1, call, written, off, len, file =>
      let res := kernel.write call len
      let file := file ++ (buf.drop off).take res
      -- `_len` is what is left, `_written` what was accepted so far.
      if res ≠ len ∧ (0 < res ∧ written + res ≠ len) then
        ckWriteLoop kernel buf rounds (call + 1) (written + res) (off + res) (len - res) file
      else some file

/-- `ck_write` to an empty file. Cases have at most `MAX_FILE` bytes, so that their signed length
is their length. -/
def ckWrite (kernel : ShortWrites) (buf : List Byte) (len : ℕ) : Option (List Byte) :=
  if len = 0 then some [] else ckWriteLoop kernel buf len 0 0 0 len []

/-- The writing loop of `trim_case` with `no_unlink`, if it ends within this number of rounds. -/
def rewriteLoop (kernel : ShortWrites) (buf : List Byte) (len : ℕ) :
    ℕ → ℕ → ℕ → List Byte → Option (List Byte)
  | 0, _, _, _ => none
  | rounds + 1, call, written, file =>
      if written < len then
        let result := kernel.write call (len - written)
        let file := file ++ buf.take result
        rewriteLoop kernel buf len rounds (call + 1)
          (if 0 < result then written + result else written) file
      else some file

/-! ## The call -/

/-- One deletion, with the verdict of the target on it. -/
def Trimming.judged (t : Trimming) (removeLen removePos : ℕ) (verdict : TrimVerdict) :
    Option Trimming :=
  let trimAvail := min removeLen (t.st.len - removePos)
  (writeWithGap t.inBuf t.st.len removePos trimAvail).bind fun _ =>
    match verdict with
    | .keepsTrace =>
        (memmove t.inBuf removePos (removePos + trimAvail) (t.st.len - removePos - trimAvail)).map
          fun moved => ⟨t.st.try removeLen removePos .keepsTrace, moved⟩
    | .changesTrace => some ⟨t.st.try removeLen removePos .changesTrace, t.inBuf⟩
    | .aborts => some ⟨t.st.try removeLen removePos .aborts, t.inBuf⟩

/-- The loops of `trim_case`. Verdicts that are too few or too many belong to no call. -/
def trimVerdicts : Trimming → List TrimVerdict → Option Trimming
  | t, [] =>
      match t.st.attempt with
      | none => some t
      | some _ => none
  | t, verdict :: verdicts =>
      match t.st.attempt with
      | none => none
      | some (removeLen, removePos) =>
          (t.judged removeLen removePos verdict).bind fun t => trimVerdicts t verdicts

/-- What a call leaves: `q->len`, `in_buf` and the file `q->fname`. -/
structure TrimmedFile where
  len : ℕ
  inBuf : List Byte
  disk : List Byte

/-- `trim_case` without custom mutators, for an entry whose file holds its case. -/
def trimCaseFile (noUnlink : Bool) (kernel : ShortWrites) (original : List Byte)
    (verdicts : List TrimVerdict) : Option TrimmedFile :=
  (trimVerdicts ⟨trimStart original.length, original⟩ verdicts).bind fun t =>
    if t.st.needsWrite ∧ !t.st.aborted then
      (if noUnlink then rewriteLoop kernel t.inBuf t.st.len (t.st.len + 1) 0 0 []
        else ckWrite kernel t.inBuf t.st.len).map fun disk => ⟨t.st.len, t.inBuf, disk⟩
    else some ⟨t.st.len, t.inBuf, original⟩

/-! ## What is claimed -/

/-- The file holds exactly the bytes of the case. -/
def TrimmedFile.Follows (done : TrimmedFile) : Prop :=
  done.disk = done.inBuf.take done.len ∧ done.disk.length = done.len

/-- What accepted deletions leave of a case. -/
def caseLeft : TrimState → List Byte → List TrimVerdict → List Byte
  | _, data, [] => data
  | st, data, verdict :: verdicts =>
      match st.attempt with
      | none => data
      | some (removeLen, removePos) =>
          let trimAvail := min removeLen (st.len - removePos)
          caseLeft (st.try removeLen removePos verdict)
            (if verdict = .keepsTrace then data.take removePos ++ data.drop (removePos + trimAvail)
              else data)
            verdicts

/-- With `no_unlink` each write after the first finds the first bytes of the case repeated where
it should have started. Otherwise no write after the first brings what is accepted in all to just
what was left before it. -/
def WritesWhole (noUnlink : Bool) (kernel : ShortWrites) (data : List Byte) : Prop :=
  if noUnlink then
    ∀ call, kernel.total call < data.length →
      let result := kernel.write call (data.length - kernel.total call)
      data.take result = (data.drop (kernel.total call)).take result
  else ∀ call, 0 < kernel.total call → 2 * kernel.total call + kernel.accepts call ≠ data.length

/-! ## The writing loops -/

variable {kernel : ShortWrites} {buf file : List Byte} {len call rounds : ℕ}

theorem ShortWrites.total_mono (kernel : ShortWrites) {first later : ℕ} (order : first ≤ later) :
    kernel.total first ≤ kernel.total later := by
  induction order with
  | refl => exact Nat.le_refl _
  | step _ ih => exact Nat.le_trans ih (Nat.le_add_right _ _)

/-- The loop of `ck_write` ends, with the whole file unless the accepted part once is the half of
what is left. -/
theorem ckWriteLoop_spec (call : ℕ) (fits : len ≤ buf.length) (inside : kernel.total call < len)
    (enough : len - kernel.total call ≤ rounds) :
    ∃ file, ckWriteLoop kernel buf rounds call (kernel.total call) (kernel.total call)
        (len - kernel.total call) (buf.take (kernel.total call)) = some file ∧
      (file = buf.take len ↔ ∀ later, call ≤ later → 0 < kernel.total later →
        2 * kernel.total later + kernel.accepts later ≠ len) := by
  induction rounds generalizing call with
  | zero => omega
  | succ rounds ih =>
      have some_byte := kernel.positive call
      have next : kernel.total (call + 1) = kernel.total call + kernel.accepts call := rfl
      simp only [ckWriteLoop, ← List.take_add]
      by_cases last : len - kernel.total call ≤ kernel.accepts call
      · have all : kernel.write call (len - kernel.total call) = len - kernel.total call :=
          Nat.min_eq_right last
        have ends : kernel.total call + (len - kernel.total call) = len := by omega
        rw [all, if_neg (fun goes => goes.1 rfl), ends]
        refine ⟨_, rfl, iff_of_true rfl fun later order begun => ?_⟩
        rcases Nat.eq_or_lt_of_le order with rfl | order
        · omega
        · have past : kernel.total (call + 1) ≤ kernel.total later := kernel.total_mono order
          omega
      · have short : kernel.write call (len - kernel.total call) = kernel.accepts call :=
          Nat.min_eq_left (by omega)
        rw [short]
        by_cases half : kernel.total call + kernel.accepts call = len - kernel.total call
        · rw [if_neg (fun goes => goes.2.2 half)]
          refine ⟨_, rfl, iff_of_false (fun whole => ?_) fun avoided => ?_⟩
          · have lengths := congrArg List.length whole
            rw [List.length_take, List.length_take] at lengths
            omega
          · exact avoided call (Nat.le_refl call) (by omega) (by omega)
        · rw [if_pos ⟨by omega, some_byte, half⟩]
          obtain ⟨file, run, whole⟩ := ih (call + 1) (by omega) (by omega)
          rw [next, Nat.sub_add_eq] at run
          refine ⟨file, run, whole.trans ⟨fun avoided later order begun => ?_,
            fun avoided later order => avoided later (by omega)⟩⟩
          rcases Nat.eq_or_lt_of_le order with rfl | order
          · omega
          · exact avoided later order begun

/-- The loop with `no_unlink` ends, with the whole file if the buffer repeats its beginning at
every place where a write should have started. -/
theorem rewriteLoop_spec (call : ℕ) (file : List Byte) (fits : len ≤ buf.length)
    (written : file.length = min (kernel.total call) len)
    (enough : len - kernel.total call < rounds) :
    ∃ done, rewriteLoop kernel buf len rounds call (min (kernel.total call) len) file = some done ∧
      (done = buf.take len ↔ file = buf.take (min (kernel.total call) len) ∧
        ∀ later, call ≤ later → kernel.total later < len →
          buf.take (kernel.write later (len - kernel.total later)) =
            (buf.drop (kernel.total later)).take
              (kernel.write later (len - kernel.total later))) := by
  induction rounds generalizing call file with
  | zero => omega
  | succ rounds ih =>
      rw [rewriteLoop]
      by_cases goes : kernel.total call < len
      · have some_byte := kernel.positive call
        have place : min (kernel.total call) len = kernel.total call := Nat.min_eq_left goes.le
        have next : kernel.total (call + 1) = kernel.total call + kernel.accepts call := rfl
        rw [place] at written ⊢
        rw [if_pos goes]
        have accepted : 0 < kernel.write call (len - kernel.total call) :=
          Nat.lt_min.mpr ⟨some_byte, by omega⟩
        have reached : kernel.total call + kernel.write call (len - kernel.total call) =
            min (kernel.total (call + 1)) len := by
          rw [ShortWrites.write, next]
          omega
        simp only [if_pos accepted, reached]
        obtain ⟨done, run, whole⟩ := ih (call + 1)
          (file ++ buf.take (kernel.write call (len - kernel.total call)))
          (by rw [List.length_append, written, List.length_take, ← reached]
              have : kernel.write call (len - kernel.total call) ≤ len - kernel.total call :=
                Nat.min_le_right _ _
              omega)
          (by omega)
        refine ⟨done, run, whole.trans ?_⟩
        have room : kernel.total call ≤ buf.length := by omega
        have pieces : file ++ buf.take (kernel.write call (len - kernel.total call)) =
            buf.take (min (kernel.total (call + 1)) len) ↔ file = buf.take (kernel.total call) ∧
              buf.take (kernel.write call (len - kernel.total call)) =
                (buf.drop (kernel.total call)).take
                  (kernel.write call (len - kernel.total call)) := by
          rw [← reached, List.take_add]
          refine ⟨fun same => List.append_inj same ?_, fun same => by rw [← same.1, ← same.2]⟩
          rw [written, List.length_take_of_le room]
        rw [pieces]
        constructor
        · rintro ⟨⟨start, here⟩, rest⟩
          refine ⟨start, fun later order inside => ?_⟩
          rcases Nat.eq_or_lt_of_le order with rfl | order
          · exact here
          · exact rest later order inside
        · rintro ⟨start, rest⟩
          exact ⟨⟨start, rest call (Nat.le_refl call) goes⟩,
            fun later order => rest later (Nat.le_of_succ_le order)⟩
      · have place : min (kernel.total call) len = len := Nat.min_eq_right (by omega)
        rw [place, if_neg (Nat.lt_irrefl len)]
        refine ⟨file, rfl, iff_self_and.mpr fun _ later order inside => ?_⟩
        have past := kernel.total_mono order
        omega

/-- Rewriting the file of a case ends, with the whole case exactly under the condition. -/
theorem rewritten_whole_iff (noUnlink : Bool) (kernel : ShortWrites) (fits : len ≤ buf.length) :
    ∃ disk, (if noUnlink then rewriteLoop kernel buf len (len + 1) 0 0 []
        else ckWrite kernel buf len) = some disk ∧
      (disk = buf.take len ↔ WritesWhole noUnlink kernel (buf.take len)) := by
  have length : (buf.take len).length = len := List.length_take_of_le fits
  cases noUnlink with
  | true =>
      have enough : len - kernel.total 0 < len + 1 := Nat.lt_succ_of_le (Nat.sub_le _ _)
      obtain ⟨disk, run, whole⟩ := rewriteLoop_spec 0 [] fits
        (by simp only [ShortWrites.total, Nat.zero_min, List.length_nil]) enough
      simp only [ShortWrites.total, Nat.zero_min] at run whole
      refine ⟨disk, run, whole.trans ?_⟩
      simp only [WritesWhole, if_true, length, List.take_zero, true_and]
      refine forall_congr' fun later => ?_
      simp only [Nat.zero_le, forall_const]
      refine forall_congr' fun inside => ?_
      have end_inside : kernel.write later (len - kernel.total later) ≤ len - kernel.total later :=
        Nat.min_le_right _ _
      rw [List.take_take, List.drop_take, List.take_take, Nat.min_eq_left (by omega),
        Nat.min_eq_left end_inside]
  | false =>
      simp only [WritesWhole, Bool.false_eq_true, if_false, length, ckWrite]
      by_cases empty : len = 0
      · subst empty
        refine ⟨[], rfl, iff_of_true rfl fun later begun => ?_⟩
        omega
      · rw [if_neg empty]
        have enough : len - kernel.total 0 ≤ len := Nat.sub_le _ _
        obtain ⟨disk, run, whole⟩ := ckWriteLoop_spec 0 fits (Nat.pos_of_ne_zero empty) enough
        refine ⟨disk, run, whole.trans ?_⟩
        exact ⟨fun avoided later => avoided later (Nat.zero_le _),
          fun avoided later _ => avoided later⟩

/-! ## The trimming loops -/

/-- What the loops keep: the buffer has its length, and begins with the case. -/
structure Trimming.Holds (t : Trimming) (size : ℕ) (data : List Byte) : Prop where
  length : t.inBuf.length = size
  fits : t.st.len ≤ size
  case : t.inBuf.take t.st.len = data
  ready : t.st.Ready

/-- The step lemma: one deletion and its verdict. -/
theorem Trimming.Holds.judged {t t' : Trimming} {size removeLen removePos : ℕ} {data : List Byte}
    {verdict : TrimVerdict} (holds : t.Holds size data)
    (next : t.st.attempt = some (removeLen, removePos))
    (step : t.judged removeLen removePos verdict = some t') :
    t'.st = t.st.try removeLen removePos verdict ∧
      t'.Holds size (if verdict = .keepsTrace then
        data.take removePos ++ data.drop (removePos + min removeLen (t.st.len - removePos))
      else data) := by
  obtain ⟨positive, inside⟩ := holds.ready _ _ next
  have avail : removePos + min removeLen (t.st.len - removePos) ≤ t.st.len := by omega
  have fits : t.st.len ≤ t.inBuf.length := holds.length ▸ holds.fits
  simp only [Trimming.judged, writeWithGap_eq avail fits, Option.bind_some] at step
  cases verdict with
  | aborts =>
      obtain rfl := Option.some.inj step
      exact ⟨rfl, { holds with ready := fun _ _ later => by cases later }⟩
  | changesTrace =>
      obtain rfl := Option.some.inj step
      exact ⟨rfl, { holds with ready := fun _ _ later => nextAttempt_ready positive later }⟩
  | keepsTrace =>
      obtain ⟨moved, done, length, content⟩ := memmove_closes avail fits
      simp only [done, Option.map_some, Option.some.injEq] at step
      subst step
      refine ⟨rfl, length.trans holds.length, Nat.le_trans (Nat.sub_le _ _) holds.fits, ?_,
        fun _ _ later => nextAttempt_ready positive later⟩
      rw [if_pos rfl, ← holds.case, List.take_take, Nat.min_eq_left inside.le, List.drop_take,
        Nat.sub_add_eq]
      exact content

/-- The run lemma: the loops are those on the lengths, and leave the case of `caseLeft`. -/
theorem Trimming.Holds.verdicts {t done : Trimming} {size : ℕ} {data : List Byte}
    {verdicts : List TrimVerdict} (holds : t.Holds size data)
    (run : trimVerdicts t verdicts = some done) :
    trimLoop t.st verdicts = .ok done.st ∧ done.Holds size (caseLeft t.st data verdicts) := by
  induction verdicts generalizing t data with
  | nil =>
      cases next : t.st.attempt with
      | none =>
          simp only [trimVerdicts, next, Option.some.injEq] at run
          subst run
          exact ⟨by simp only [trimLoop, next], holds⟩
      | some here => simp only [trimVerdicts, next, reduceCtorEq] at run
  | cons verdict verdicts ih =>
      cases next : t.st.attempt with
      | none => simp only [trimVerdicts, next, reduceCtorEq] at run
      | some here =>
          obtain ⟨removeLen, removePos⟩ := here
          simp only [trimVerdicts, next] at run
          obtain ⟨t', step, rest⟩ := Option.bind_eq_some_iff.mp run
          obtain ⟨same, holds'⟩ := holds.judged next step
          simp only [trimLoop, caseLeft, next, ← same]
          exact ih holds' rest

/-- Without an accepted deletion all is left. -/
theorem caseLeft_of_not_mem {st : TrimState} {data : List Byte} {verdicts : List TrimVerdict}
    (none_kept : .keepsTrace ∉ verdicts) : caseLeft st data verdicts = data := by
  induction verdicts generalizing st with
  | nil => rfl
  | cons verdict verdicts ih =>
      obtain ⟨other, rest⟩ := not_or.mp (List.mem_cons.not.mp none_kept)
      rw [caseLeft]
      split
      · rfl
      · simp only [if_neg (Ne.symm other)]
        exact ih rest

/-- **The file holds exactly the bytes of the case unless the trimming was ended early after a
deletion was accepted, or a short write spoils it.** -/
theorem trim_file_follows_iff {noUnlink : Bool} {original : List Byte}
    {verdicts : List TrimVerdict} {done : TrimmedFile}
    (run : trimCaseFile noUnlink kernel original verdicts = some done) :
    done.Follows ↔ (.keepsTrace ∈ verdicts → .aborts ∉ verdicts ∧
      WritesWhole noUnlink kernel (caseLeft (trimStart original.length) original verdicts)) := by
  obtain ⟨t, loops, finish⟩ := Option.bind_eq_some_iff.mp run
  have start : (Trimming.mk (trimStart original.length) original).Holds original.length original :=
    ⟨rfl, Nat.le_refl _, List.take_length, trimStart_ready _⟩
  obtain ⟨lengths, holds⟩ := start.verdicts loops
  obtain ⟨writes, aborts, -, shorter, same⟩ := trimLoop_spec start.ready lengths
  have unwritten : (trimStart original.length).needsWrite = false := rfl
  have unaborted : (trimStart original.length).aborted = false := rfl
  simp only [unwritten, unaborted, Bool.false_eq_true, false_or] at writes aborts
  have fits : t.st.len ≤ t.inBuf.length := holds.length ▸ holds.fits
  have whole_length : (t.inBuf.take t.st.len).length = t.st.len := List.length_take_of_le fits
  by_cases accepted : TrimVerdict.keepsTrace ∈ verdicts
  · by_cases early : TrimVerdict.aborts ∈ verdicts
    · simp only [aborts.mpr early, Bool.not_true, Bool.false_eq_true, and_false, if_false,
        Option.some.injEq] at finish
      subst finish
      refine iff_of_false (fun follows => ?_) fun avoided => (avoided accepted).1 early
      have less : t.st.len < original.length := shorter accepted
      have length : original.length = t.st.len := follows.2
      omega
    · have complete : t.st.aborted = false := by
        simpa only [← Bool.not_eq_true, aborts] using early
      simp only [writes.mpr accepted, complete, Bool.not_false, and_self, if_true] at finish
      obtain ⟨disk, written, content⟩ := rewritten_whole_iff noUnlink kernel fits
      rw [written, Option.map_some, Option.some.injEq] at finish
      subst finish
      rw [← holds.case, TrimmedFile.Follows]
      simp only [accepted, early, not_false_eq_true, true_and, forall_const]
      rw [← content]
      exact ⟨fun follows => follows.1, fun whole => ⟨whole, whole ▸ whole_length⟩⟩
  · have untouched : t.st.needsWrite = false := by
      simpa only [← Bool.not_eq_true, writes] using accepted
    simp only [untouched, Bool.false_eq_true, false_and, if_false, Option.some.injEq] at finish
    subst finish
    refine iff_of_true ⟨?_, (same accepted).symm⟩ fun kept => absurd kept accepted
    exact (caseLeft_of_not_mem accepted).symm.trans holds.case.symm

/-! ## Some calls -/

/-- A kernel that accepts at most so many bytes in each write. -/
def evenWrites (size : ℕ) (positive : 0 < size) : ShortWrites := ⟨fun _ => size, fun _ => positive⟩

/-- Writes of single bytes with `no_unlink` repeat the first byte. -/
example : rewriteLoop (evenWrites 1 (by decide)) [1, 2, 3] 3 4 0 0 [] = some [1, 1, 1] := by decide

/-- `ck_write` of six bytes stops when four of them are accepted in two writes. -/
example : ckWrite (evenWrites 2 (by decide)) [1, 2, 3, 4, 5, 6] 6 = some [1, 2, 3, 4] := by decide

/-- A deletion of four bytes out of eight is accepted, and the file is rewritten in one write. -/
theorem trim_file_follows_eight :
    (TrimmedFile.mk 4 [1, 2, 3, 4, 5, 6, 7, 8] [1, 2, 3, 4]).Follows ∧
      WritesWhole false (evenWrites 1048576 (by decide))
        (caseLeft (trimStart 8) [1, 2, 3, 4, 5, 6, 7, 8] [.keepsTrace]) := by
  have run : trimCaseFile false (evenWrites 1048576 (by decide)) [1, 2, 3, 4, 5, 6, 7, 8]
      [.keepsTrace] = some ⟨4, [1, 2, 3, 4, 5, 6, 7, 8], [1, 2, 3, 4]⟩ := rfl
  have follows : (TrimmedFile.mk 4 [1, 2, 3, 4, 5, 6, 7, 8] [1, 2, 3, 4]).Follows := ⟨rfl, rfl⟩
  exact ⟨follows, ((trim_file_follows_iff run).mp follows (List.mem_singleton_self _)).2⟩

/-- The second run of the target ends the trimming: the case has eight bytes, its file twelve. -/
theorem interrupted_file_differs :
    ∃ done, trimCaseFile false (evenWrites 1048576 (by decide))
      [1, 2, 3, 4, 5, 6, 7, 8, 9, 10, 11, 12] [.keepsTrace, .aborts] = some done ∧
        ¬ done.Follows := by
  refine ⟨_, rfl, fun follows => ?_⟩
  exact absurd follows.2 (by decide)

end GreenFuzz.AflFuzz
