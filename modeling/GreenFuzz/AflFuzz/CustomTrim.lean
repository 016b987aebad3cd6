import GreenFuzz.AflFuzz.TrimFile

/-!
# Custom trimmers, one after the other

`trim_case_custom` runs the trimmer of one custom mutator. It keeps the last candidate with the
checksum of the entry in `out_buf`, and writes it to the file when the trimmer is done, together
with the length. A stop or a failed run skips that. So the length and the file change together
(`trimCaseCustomFile_spec`).

`trim_case` calls it for each mutator with a trimmer, always with the same `in_buf`. **Each trimmer
starts from the current case, and leaves the last candidate that was accepted or nothing new,
exactly if the files are written whole and every case that a trimmer starts from is found at the
beginning of `in_buf`** (`customTrimmers_sound_iff`). What the mutators answer, how the runs of the
target end and what the kernel accepts are inputs.
-/

set_option autoImplicit false

namespace GreenFuzz.AflFuzz

open Library

/-! ## One trimmer -/

/-- What trimming changes of an entry: `q->len`, and the file `q->fname`. -/
structure CaseFile where
  len : ℕ
  disk : List Byte
  deriving DecidableEq, Repr

/-- One round of the loop: the answer of `afl_custom_trim`, `none` for a null pointer; the bytes
that `write_to_testcase` leaves in `retbuf`, none if it returns 0; the run of the target, and the
checksum of its classified trace; and the answer of `afl_custom_post_trim`. -/
structure TrimRound where
  retbuf : Option (List Byte)
  written : List Byte
  fault : FsrvRunResult := .ok
  stopSoon : Bool := false
  cksum : BitVec 64
  postTrim : BitVec 32
  written_lt : written.length < 2 ^ 31 := by decide

/-- The answer of `afl_custom_init_trim`, the rounds, and the writes to the file. -/
structure TrimmerScript where
  initTrim : BitVec 32
  rounds : List TrimRound
  kernel : ShortWrites

/-- The local variables of `trim_case_custom`. -/
structure CustomTrimming where
  stageCur : ℕ := 0
  stageMax : ℕ
  fault : FsrvRunResult := .ok
  outBuf : Option (List Byte) := none
  aborted : Bool := false

/-- The target is run, on a candidate that is not empty. -/
def TrimRound.runs (r : TrimRound) : Bool := r.retbuf ≠ some [] && r.written ≠ []

/-- The run ends the trimming. -/
def TrimRound.interrupted (r : TrimRound) : Bool := r.runs && (r.stopSoon || r.fault = .error)

/-- The candidate is accepted. -/
def TrimRound.accepted (execCksum : BitVec 64) (r : TrimRound) : Bool :=
  r.runs && !r.interrupted && r.cksum = execCksum

/-- One round. A null pointer and a negative answer to a failure are fatal. -/
def customRound (execCksum : BitVec 64) (c : CustomTrimming) (r : TrimRound) :
    Option CustomTrimming :=
  if r.retbuf = none then none
  else
    let c := if r.runs then { c with fault := r.fault } else c
    if r.interrupted then some { c with aborted := true }
    else if r.accepted execCksum then
      some { c with outBuf := some r.written, stageCur := r.postTrim.toNat }
    else if r.postTrim.toInt < 0 then none
    else some { c with stageCur := r.postTrim.toNat }

/-- The loop. Rounds that are too few or too many belong to no call. -/
def customRounds (execCksum : BitVec 64) : CustomTrimming → List TrimRound → Option CustomTrimming
  | c, [] => if !c.aborted ∧ c.stageCur < c.stageMax then none else some c
  | c, r :: rounds =>
      if !c.aborted ∧ c.stageCur < c.stageMax then
        (customRound execCksum c r).bind fun c => customRounds execCksum c rounds
      else none

/-- `trim_case_custom`: the entry and the fault. The test `unlikely(retval) < 0` finds no negative
answer where `unlikely` is built on `!!`. -/
def trimCaseCustomFile (builtinExpect : Bool) (execCksum : BitVec 64) (before : CaseFile)
    (script : TrimmerScript) : Option (CaseFile × FsrvRunResult) :=
  if !builtinExpect ∧ script.initTrim.toInt < 0 then none
  else
    (customRounds execCksum { stageMax := script.initTrim.toNat } script.rounds).bind fun c =>
      match c.outBuf with
      | some outBuf =>
          if c.aborted then some (before, c.fault)
          else (ckWrite script.kernel outBuf outBuf.length).map fun disk =>
            (⟨u32 outBuf.length, disk⟩, c.fault)
      | none => some (before, c.fault)

/-! ## All trimmers -/

/-- A call of `trim_case_custom`, with the bytes that `afl_custom_init_trim` receives if they lie in
`in_buf`. -/
structure TrimmerCall where
  script : TrimmerScript
  received : Option (List Byte)
  before : CaseFile
  after : CaseFile
  fault : FsrvRunResult

/-- The calls for the mutators that have a trimmer. -/
def customTrimmers (builtinExpect : Bool) (execCksum : BitVec 64) (inBuf : List Byte) :
    CaseFile → List TrimmerScript → Option (List TrimmerCall)
  | _, [] => some []
  | before, script :: scripts =>
      (trimCaseCustomFile builtinExpect execCksum before script).bind fun (after, fault) =>
        (customTrimmers builtinExpect execCksum inBuf after scripts).map fun calls =>
          ⟨script, readBytes inBuf 0 before.len, before, after, fault⟩ :: calls

/-- The loop over the custom mutators in `trim_case`, for an entry whose file holds its case. -/
def trimCaseTrimmers (builtinExpect : Bool) (execCksum : BitVec 64) (inBuf original : List Byte)
    (mutators : List (Option TrimmerScript)) : Option (List TrimmerCall) :=
  customTrimmers builtinExpect execCksum inBuf ⟨original.length, original⟩ (mutators.filterMap id)

/-! ## What is claimed -/

/-- The last accepted candidate, unless a run ended the trimming. -/
def TrimmerScript.kept (execCksum : BitVec 64) (script : TrimmerScript) : Option (List Byte) :=
  if script.rounds.any TrimRound.interrupted then none
  else (script.rounds.filter (TrimRound.accepted execCksum)).getLast?.map TrimRound.written

/-- The length and the file stay, or both become those of the last accepted candidate. -/
def TrimmerCall.Atomic (execCksum : BitVec 64) (call : TrimmerCall) : Prop :=
  call.after = (call.script.kept execCksum).elim call.before fun data => ⟨data.length, data⟩

/-- The trimmer receives `q->len` bytes, those of the file. -/
def TrimmerCall.StartsCurrent (call : TrimmerCall) : Prop :=
  call.received = some call.before.disk ∧ call.before.disk.length = call.before.len

/-- The case after some trimmers. -/
def caseAfter (execCksum : BitVec 64) (original : List Byte) (scripts : List TrimmerScript) :
    List Byte :=
  (scripts.filterMap (TrimmerScript.kept execCksum)).getLast?.getD original

/-- Every case that a trimmer starts from is at the beginning of `in_buf`. -/
def StartsInBuf (execCksum : BitVec 64) (inBuf original : List Byte)
    (scripts : List TrimmerScript) : Prop :=
  ∀ front script rest, scripts = front ++ script :: rest →
    caseAfter execCksum original front <+: inBuf

/-! ## One trimmer is atomic -/

variable {builtinExpect : Bool} {execCksum : BitVec 64} {c done : CustomTrimming} {r : TrimRound}
  {rounds : List TrimRound} {script : TrimmerScript} {before after : CaseFile}
  {fault : FsrvRunResult} {inBuf original : List Byte}

/-- What one round can do: end the trimming, accept the candidate, or reject it. -/
theorem customRound_cases {next : CustomTrimming} (round : customRound execCksum c r = some next) :
    (r.interrupted = true ∧ next.aborted = true ∧ next.outBuf = c.outBuf) ∨
    (r.interrupted = false ∧ r.accepted execCksum = true ∧ next.aborted = c.aborted ∧
      next.outBuf = some r.written) ∨
    (r.interrupted = false ∧ r.accepted execCksum = false ∧ next.aborted = c.aborted ∧
      next.outBuf = c.outBuf) := by
  have kept : (if r.runs then { c with fault := r.fault } else c).aborted = c.aborted ∧
      (if r.runs then { c with fault := r.fault } else c).outBuf = c.outBuf := by
    split <;> exact ⟨rfl, rfl⟩
  unfold customRound at round
  split at round
  · cases round
  · dsimp only at round
    cases interrupted : r.interrupted with
    | true =>
        rw [interrupted, if_pos rfl] at round
        cases round
        exact Or.inl ⟨rfl, rfl, kept.2⟩
    | false =>
        rw [interrupted, if_neg Bool.false_ne_true] at round
        cases accepted : r.accepted execCksum with
        | true =>
            rw [accepted, if_pos rfl] at round
            cases round
            exact Or.inr (Or.inl ⟨rfl, rfl, kept.1, rfl⟩)
        | false =>
            rw [accepted, if_neg Bool.false_ne_true] at round
            split at round
            · cases round
            · cases round
              exact Or.inr (Or.inr ⟨rfl, rfl, kept.1, kept.2⟩)

/-- The loop ends early exactly if a run was interrupted, and keeps the last accepted candidate. -/
theorem customRounds_spec (run : customRounds execCksum c rounds = some done) :
    (done.aborted = true ↔ c.aborted = true ∨ rounds.any TrimRound.interrupted = true) ∧
      done.outBuf = ((rounds.filter (TrimRound.accepted execCksum)).getLast?.map
        TrimRound.written).or c.outBuf := by
  induction rounds generalizing c with
  | nil =>
      rw [customRounds] at run
      split at run
      · cases run
      · cases run
        simp
  | cons r rounds ih =>
      rw [customRounds] at run
      split at run
      · rename_i goes
        obtain ⟨next, round, rest⟩ := Option.bind_eq_some_iff.mp run
        obtain ⟨aborts, out⟩ := ih rest
        have running : c.aborted = false := by simpa using goes.1
        rw [aborts, out, running]
        rcases customRound_cases round with ⟨interrupted, aborted, kept⟩ |
          ⟨quiet, accepted, aborted, kept⟩ | ⟨quiet, rejected, aborted, kept⟩
        · have rejected : r.accepted execCksum = false := by simp [TrimRound.accepted, interrupted]
          simp [interrupted, aborted, kept, rejected]
        · simp [quiet, aborted, kept, accepted, running, List.getLast?_cons]
        · simp [quiet, aborted, kept, rejected, running]
      · cases run

/-- A call leaves the entry as it is, or writes the candidate that is kept. -/
theorem trimCaseCustomFile_spec
    (run : trimCaseCustomFile builtinExpect execCksum before script = some (after, fault)) :
    match script.kept execCksum with
    | none => after = before
    | some data => after.len = data.length ∧
        (after.disk = data ↔ WritesWhole false script.kernel data) := by
  unfold trimCaseCustomFile at run
  split at run
  · cases run
  · obtain ⟨c, loop, finish⟩ := Option.bind_eq_some_iff.mp run
    obtain ⟨aborts, out⟩ := customRounds_spec loop
    rw [Option.or_none] at out
    simp only [Bool.false_eq_true, false_or] at aborts
    cases interrupted : script.rounds.any TrimRound.interrupted with
    | true =>
        have skipped : after = before := by
          rw [aborts.mpr interrupted] at finish
          split at finish
          · exact (Prod.mk.inj (Option.some.inj finish)).1.symm
          · exact (Prod.mk.inj (Option.some.inj finish)).1.symm
        simpa [TrimmerScript.kept, interrupted] using skipped
    | false =>
        have complete : c.aborted = false := by
          simpa only [← Bool.not_eq_true, aborts] using interrupted
        rw [TrimmerScript.kept, interrupted, if_neg Bool.false_ne_true, ← out]
        rw [complete] at finish
        cases kept : c.outBuf with
        | none =>
            rw [kept] at finish
            exact (Prod.mk.inj (Option.some.inj finish)).1.symm
        | some data =>
            have short : data.length < 2 ^ 32 := by
              obtain ⟨r, -, rfl⟩ := Option.map_eq_some_iff.mp (out.symm.trans kept)
              exact r.written_lt.trans (by decide)
            obtain ⟨disk, written, whole⟩ :=
              rewritten_whole_iff false script.kernel (le_refl data.length)
            simp only [kept, Bool.false_eq_true, if_false] at finish written
            rw [written, Option.map_some, Option.some.injEq, Prod.mk.injEq] at finish
            obtain ⟨rfl, -⟩ := finish
            rw [List.take_length] at whole
            exact ⟨u32_of_lt short, whole⟩

/-! ## All trimmers compose -/

/-- A call is atomic exactly if what it keeps is written whole. -/
theorem atomic_iff (received : Option (List Byte))
    (run : trimCaseCustomFile builtinExpect execCksum before script = some (after, fault)) :
    TrimmerCall.Atomic execCksum ⟨script, received, before, after, fault⟩ ↔
      ∀ data, script.kept execCksum = some data → WritesWhole false script.kernel data := by
  have spec := trimCaseCustomFile_spec run
  rw [TrimmerCall.Atomic]
  cases kept : script.kept execCksum with
  | none =>
      rw [kept] at spec
      exact iff_of_true spec nofun
  | some data =>
      rw [kept] at spec
      obtain ⟨len, whole⟩ := spec
      simp only [Option.elim_some, Option.some.injEq, forall_eq']
      rw [← whole]
      refine ⟨fun same => by rw [same], fun disk => ?_⟩
      rw [← disk] at len ⊢
      rw [← len]

/-- Reading a case from `in_buf`. -/
theorem readBytes_eq_iff {data : List Byte} :
    readBytes inBuf 0 data.length = some data ↔ data <+: inBuf := by
  rw [readBytes, List.prefix_iff_eq_take]
  split
  · rw [Option.some.injEq, List.drop_zero]
    exact eq_comm
  · rename_i outside
    refine iff_of_false nofun fun same => outside ?_
    have length := congrArg List.length same
    rw [List.length_take] at length
    omega

theorem caseAfter_cons (original : List Byte) (script : TrimmerScript)
    (scripts : List TrimmerScript) :
    caseAfter execCksum original (script :: scripts) =
      caseAfter execCksum ((script.kept execCksum).getD original) scripts := by
  rw [caseAfter, caseAfter, List.filterMap_cons]
  cases script.kept execCksum with
  | none => rfl
  | some data => rw [List.getLast?_cons]; rfl

theorem startsInBuf_cons (scripts : List TrimmerScript) :
    StartsInBuf execCksum inBuf original (script :: scripts) ↔
      original <+: inBuf ∧
        StartsInBuf execCksum inBuf ((script.kept execCksum).getD original) scripts := by
  constructor
  · intro starts
    refine ⟨starts [] script scripts rfl, fun front next rest split => ?_⟩
    rw [← caseAfter_cons]
    exact starts (script :: front) next rest (by rw [split, List.cons_append])
  · rintro ⟨first, others⟩ front next rest split
    cases front with
    | nil => exact first
    | cons head front =>
        obtain ⟨rfl, tail⟩ := List.cons.inj split
        rw [caseAfter_cons]
        exact others front next rest tail

/-- The run lemma, by induction on the trimmers: the first one leaves the case that the others start
from. -/
theorem customTrimmers_sound_iff {scripts : List TrimmerScript} {calls : List TrimmerCall}
    (run : customTrimmers builtinExpect execCksum inBuf ⟨original.length, original⟩ scripts =
      some calls) :
    (∀ call ∈ calls, call.Atomic execCksum ∧ call.StartsCurrent) ↔
      (∀ script ∈ scripts, ∀ data, script.kept execCksum = some data →
        WritesWhole false script.kernel data) ∧
      StartsInBuf execCksum inBuf original scripts := by
  induction scripts generalizing original calls with
  | nil =>
      cases run
      simp [StartsInBuf]
  | cons script scripts ih =>
      obtain ⟨⟨after, fault⟩, first, rest⟩ := Option.bind_eq_some_iff.mp run
      obtain ⟨later, tail, rfl⟩ := Option.map_eq_some_iff.mp rest
      have atomic := atomic_iff (readBytes inBuf 0 original.length) first
      have starts : TrimmerCall.StartsCurrent ⟨script, readBytes inBuf 0 original.length,
          ⟨original.length, original⟩, after, fault⟩ ↔ original <+: inBuf :=
        (and_iff_left rfl).trans readBytes_eq_iff
      rw [List.forall_mem_cons, List.forall_mem_cons, startsInBuf_cons, atomic, starts]
      by_cases whole :
          ∀ data, script.kept execCksum = some data → WritesWhole false script.kernel data
      · have next : after = ⟨((script.kept execCksum).getD original).length,
            (script.kept execCksum).getD original⟩ := by
          refine (atomic.mpr whole).trans ?_
          cases script.kept execCksum <;> rfl
        rw [next] at tail
        rw [ih tail]
        tauto
      · tauto

/-- **Trimmers are atomic and compose** exactly if what they keep is written whole, and every case
that one of them starts from is at the beginning of `in_buf`. -/
theorem trimCaseTrimmers_sound_iff {mutators : List (Option TrimmerScript)}
    {calls : List TrimmerCall}
    (run : trimCaseTrimmers builtinExpect execCksum inBuf original mutators = some calls) :
    (∀ call ∈ calls, call.Atomic execCksum ∧ call.StartsCurrent) ↔
      (∀ script, some script ∈ mutators → ∀ data, script.kept execCksum = some data →
        WritesWhole false script.kernel data) ∧
      StartsInBuf execCksum inBuf original (mutators.filterMap id) := by
  rw [customTrimmers_sound_iff run]
  simp only [List.mem_filterMap, id_eq, exists_eq_right]

/-! ## Two trimmers -/

/-- A trimmer whose only candidate is accepted, and written at once. -/
def oneAccepted (candidate : List Byte) (short : candidate.length < 2 ^ 31) : TrimmerScript where
  initTrim := 1
  rounds := [{ retbuf := some candidate, written := candidate, cksum := 7, postTrim := 1
               written_lt := short }]
  kernel := evenWrites 1048576 (by decide)

/-- The calls for a case of four bytes, when the first trimmer leaves this candidate of two, and the
second one its first byte. -/
def twoCalls (candidate : List Byte) (short : candidate.length < 2 ^ 31)
    (received : Option (List Byte)) : List TrimmerCall :=
  [⟨oneAccepted candidate short, some [1, 2, 3, 4], ⟨4, [1, 2, 3, 4]⟩, ⟨2, candidate⟩, .ok⟩,
    ⟨oneAccepted [1] (by decide), received, ⟨2, candidate⟩, ⟨1, [1]⟩, .ok⟩]

/-- The first trimmer cuts the tail off, so the second one starts from what is left. -/
theorem trimCaseTrimmers_sound_tail :
    (∀ call ∈ twoCalls [1, 2] (by decide) (some [1, 2]), call.Atomic 7 ∧ call.StartsCurrent) ∧
      StartsInBuf 7 [1, 2, 3, 4] [1, 2, 3, 4] ([some (oneAccepted [1, 2] (by decide)), none,
        some (oneAccepted [1] (by decide))].filterMap id) := by
  have run : trimCaseTrimmers true 7 [1, 2, 3, 4] [1, 2, 3, 4]
      [some (oneAccepted [1, 2] (by decide)), none, some (oneAccepted [1] (by decide))] =
      some (twoCalls [1, 2] (by decide) (some [1, 2])) := rfl
  have sound : ∀ call ∈ twoCalls [1, 2] (by decide) (some [1, 2]),
      call.Atomic 7 ∧ call.StartsCurrent := by
    intro call member
    rcases List.mem_cons.mp member with rfl | member
    · exact ⟨rfl, rfl, rfl⟩
    · obtain rfl := List.mem_singleton.mp member
      exact ⟨rfl, rfl, rfl⟩
  exact ⟨sound, ((trimCaseTrimmers_sound_iff run).mp sound).2⟩

/-- The first trimmer removes the first two bytes, and the second one still receives these. -/
theorem second_trimmer_outdated :
    ¬ ∀ (builtinExpect : Bool) (execCksum : BitVec 64) (inBuf original : List Byte)
        (mutators : List (Option TrimmerScript)) (calls : List TrimmerCall),
      original <+: inBuf →
      trimCaseTrimmers builtinExpect execCksum inBuf original mutators = some calls →
      ∀ call ∈ calls, call.Atomic execCksum ∧ call.StartsCurrent := by
  intro claim
  have sound := claim true 7 [1, 2, 3, 4] [1, 2, 3, 4]
    [some (oneAccepted [3, 4] (by decide)), some (oneAccepted [1] (by decide))]
    (twoCalls [3, 4] (by decide) (some [1, 2])) (List.prefix_refl _) rfl _
    (List.mem_cons_of_mem _ List.mem_cons_self)
  exact absurd sound.2.1 (by decide)

end GreenFuzz.AflFuzz
