import GreenFuzz.Redqueen.NumberReplacement
import GreenFuzz.Redqueen.RtnRestores

/-!
# What is combined of a find

After a find the replacement is copied to the combined buffer. How much of it is copied depends
on where it was made: all of a word, nothing of a number, all but the last byte of a direct match,
and of a transformation the bytes up to the one of the round.

A find that is not disturbed before the copy, by saved bytes written over it or by another
execution, leaves in the combined buffer the executed bytes where they are copied and what was
there where they are not (`Find.Copied`). Every part of the solvers records such finds only
(`Records`), so every call does (`records_cmpExtendEncoding`, `records_cmpExtendEncodingN`,
`records_rtnExtendEncoding`).
-/

set_option autoImplicit false

namespace GreenFuzz.Redqueen

open Library AflFuzz

/-! ## Finds -/

/-- The positions of a replacement that are copied after a find. -/
def Site.Copies : Site → ℕ → Prop
  | .word, _ => True
  | .number, _ => False
  | .direct last, p => p < last
  | .transform idx i _ _ _, p => p < idx + (i + 1)

/-- The replacement is still in the buffer when it is copied, and it was executed last. -/
def Site.Undisturbed : Site → Prop
  | .transform _ _ _ putBack followed => putBack = false ∧ followed = false
  | _ => True

namespace Find

variable (find : Find)

/-- The replacement changed the byte at a position to this one. -/
def Changes (p : ℕ) (byte : Byte) : Prop := find.executed[p]? = some byte ∧ byte ≠ find.before p

/-- The combined buffer agrees with the executed input on all that was changed. -/
def Collected : Prop := ∀ p byte, find.Changes p byte → find.combined p = byte

/-- What was changed and is not copied is in the combined buffer already. -/
def RestKnown : Prop :=
  ∀ p byte, find.Changes p byte → ¬ find.site.Copies p → find.known p = byte

/-- What was changed is copied, where the site copies it, and nothing else is. -/
structure Copied : Prop where
  inside : ∀ p byte, find.Changes p byte → find.site.Copies p → find.combined p = byte
  outside : ∀ p byte, find.Changes p byte → ¬ find.site.Copies p →
    find.combined p = find.known p

variable {find}

/-- The copy collects a find exactly if what it leaves out is known. -/
theorem Copied.collected_iff (copied : find.Copied) : find.Collected ↔ find.RestKnown := by
  constructor
  · intro collected p byte changes left_out
    rw [← copied.outside p byte changes left_out]
    exact collected p byte changes
  · intro known p byte changes
    by_cases copies : find.site.Copies p
    · exact copied.inside p byte changes copies
    · rw [copied.outside p byte changes copies]
      exact known p byte changes copies

end Find

/-- The byte of an input at a position. -/
theorem getElem?_inputOf {len p : ℕ} {buf : Buffer} {byte : Byte}
    (here : (inputOf len buf)[p]? = some byte) : buf p = byte := by
  obtain ⟨below, same⟩ := List.getElem?_eq_some_iff.mp here
  rw [← same]
  simp only [inputOf, List.getElem_map, List.getElem_range]

/-! ## Records -/

/-- Between two states only finds were recorded of which, if they are not disturbed, the copied
part is combined. -/
def Records (s t : ItsState) : Prop :=
  ∃ made, t.finds = s.finds ++ made ∧ ∀ find ∈ made, find.site.Undisturbed → find.Copied

theorem Records.of_eq {s t : ItsState} (same : t.finds = s.finds) : Records s t :=
  ⟨[], by rw [same, List.append_nil], fun _ none => nomatch none⟩

theorem Records.refl (s : ItsState) : Records s s := Records.of_eq rfl

theorem Records.trans (s t u : ItsState) (first : Records s t) (second : Records t u) :
    Records s u := by
  obtain ⟨made, grown, copied⟩ := first
  obtain ⟨more, grown_more, copied_more⟩ := second
  refine ⟨made ++ more, by rw [grown_more, grown, List.append_assoc], fun find member => ?_⟩
  rcases List.mem_append.mp member with early | late
  · exact copied find early
  · exact copied_more find late

/-- At most one find was recorded. -/
theorem Records.of_find {s t : ItsState} {find : Find} {found : Prop} [Decidable found]
    (recorded : t.finds = if found then s.finds ++ [find] else s.finds)
    (copied : find.site.Undisturbed → find.Copied) : Records s t := by
  split at recorded
  · refine ⟨[find], recorded, fun other member => ?_⟩
    rw [List.mem_singleton.mp member]
    exact copied
  · exact Records.of_eq recorded

/-! ## Words and numbers -/

section Words

variable {C : CmpPlace} {len idx n : ℕ}

/-- Of a word every byte is copied. -/
theorem copied_word {buf known : Buffer} (word : BitVec (8 * n)) :
    Find.Copied ⟨.word, buf, inputOf len (storeAt n buf idx word), known,
      storeAt n known idx word⟩ := by
  refine ⟨fun p byte changes _ => ?_, fun _ _ _ left_out => absurd trivial left_out⟩
  have written : storeAt n buf idx word p = byte := getElem?_inputOf changes.1
  by_cases inside : idx ≤ p ∧ p < idx + n
  · show storeAt n known idx word p = byte
    rw [← written, storeAt_apply, if_pos inside, storeAt_apply, if_pos inside]
  · rw [storeAt_apply, if_neg inside] at written
    exact absurd written.symm changes.2

theorem records_replaceWord (room : ℕ) (word : BitVec (8 * n)) :
    Leads Records (replaceWord len idx room word) := by
  intro s supply u t left run
  obtain ⟨result, input, known, -, rfl, -, rfl⟩ := run_replaceWord run
  exact Records.of_find rfl fun _ => copied_word word

/-- Of a number nothing is copied. -/
theorem copied_number {before known : Buffer} {input : List Byte} :
    Find.Copied ⟨.number, before, input, known, known⟩ :=
  ⟨fun _ _ _ never => never.elim, fun _ _ _ _ => rfl⟩

theorem records_executeNumber (oldLen : ℕ) (text : List Byte) :
    Leads Records (executeNumber C oldLen text) := by
  intro s supply u t left run
  obtain ⟨-, result, known, recorded⟩ := run_executeNumber run
  exact Records.of_find recorded fun _ => copied_number

theorem records_attempts (C : CmpPlace) : KeptByAttempts C Records where
  refl := Records.refl
  trans := Records.trans
  globals _ _ _ _ := Records.of_eq rfl
  number := records_executeNumber
  replace room _ word := records_replaceWord room word

/-- A call of `cmp_extend_encoding`, with all that is nested in it. -/
theorem records_cmpExtendEncoding (C : CmpPlace) (depth : ℕ) (a : CmpArgs 64) :
    Leads Records (cmpExtendEncoding C depth a) := (records_attempts C).cmpExtendEncoding depth a

theorem records_cmpExtendEncodingN (C : CmpPlace) (depth : ℕ) (a : CmpArgs 128) :
    Leads Records (cmpExtendEncodingN C depth a) := (records_attempts C).cmpExtendEncodingN depth a

end Words

/-! ## Direct matches -/

section Matches

variable {R : RtnCall} {start i : ℕ} {before : Buffer}

variable {s t : ItsState} {supply left : List ExecResult} {u : Unit}

/-- What is copied within a range, and what is outside of it. -/
theorem copied_range {p n : ℕ} {src dst : Buffer} :
    memcpyTo dst start (bytesFrom src start n) p =
      if start ≤ p ∧ p < start + n then src p else dst p := by
  split
  next inside =>
    obtain ⟨k, rfl⟩ := Nat.exists_eq_add_of_le inside.1
    rw [memcpyTo_add, getElem?_bytesFrom (by omega), Option.getD_some]
  next outside => exact memcpyTo_outside (by rw [length_bytesFrom]; omega)

/-- The bytes from a position on are copied up to another one, and before it nothing was
changed. -/
theorem copied_block {site : Site} {buf known : Buffer} {len n : ℕ}
    (copies_iff : ∀ p, site.Copies p ↔ p < start + n) (begins : ∀ p < start, buf p = before p) :
    Find.Copied ⟨site, before, inputOf len buf, known,
      memcpyTo known start (bytesFrom buf start n)⟩ := by
  refine ⟨fun p byte ⟨executed, differs⟩ copies => ?_, fun p byte _ left_out => ?_⟩
  · have here : buf p = byte := getElem?_inputOf executed
    have behind : start ≤ p := by
      refine Nat.le_of_not_lt fun early => differs ?_
      rw [← here, begins p early]
    show memcpyTo known start (bytesFrom buf start n) p = byte
    rw [copied_range, if_pos ⟨behind, (copies_iff p).mp copies⟩, here]
  · show memcpyTo known start (bytesFrom buf start n) p = known p
    rw [copied_range, if_neg fun inside => left_out ((copies_iff p).mpr inside.2)]

theorem run_copyToCbuf {len count : ℕ}
    (run : copyToCbuf len start count s supply = .ok ((u, t), left)) :
    supply = left ∧ t = { s with
      cbuf := if s.status = 1 then memcpyTo s.cbuf start (bytesFrom s.buf start count)
        else s.cbuf } := by
  obtain ⟨-, copied, same⟩ := run_attempt_ok run
  obtain ⟨-, rfl⟩ := Prod.mk.inj copied
  refine ⟨same, ?_⟩
  split <;> rfl

/-- Bytes are written to the buffer and executed, and then comes the rest. -/
theorem run_write_bind {α : Type} {bytes : List Byte} {next : List Byte → Its α} {a : α}
    (run : (do
      copyToBuf R.len start bytes
      let input ← peek fun s => inputOf R.len s.buf
      itsFuzz input
      next input) s supply = .ok ((a, t), left)) :
    ∃ (result : ExecResult) (middle : List ExecResult),
      let buf := memcpyTo s.buf start bytes
      next (inputOf R.len buf)
        { s with
          buf := buf
          status := if result.found then 1 else 2
          erange := result.erange
          cbuf := result.cbufAfter (inputOf R.len buf) s.cbuf
          executed := s.executed ++ [inputOf R.len buf] } middle = .ok ((a, t), left) := by
  obtain ⟨_, _, _, run_write, run⟩ := run_bind_ok run
  obtain ⟨-, written, rfl⟩ := run_attempt_ok run_write
  obtain ⟨-, rfl⟩ := Prod.mk.inj written
  have run := run_peek_bind run
  obtain ⟨_, _, middle, run_fuzz, run⟩ := run_bind_ok run
  obtain ⟨result, rfl, rfl⟩ := run_itsFuzz run_fuzz
  exact ⟨result, middle, run⟩

/-- One byte of a direct match. All that was replaced before it is copied. -/
theorem run_matchByte (run : matchByte R start i before s supply = .ok ((u, t), left))
    (begins : ∀ p < start, s.buf p = before p) : Records s t ∧ ∀ p < start, t.buf p = before p := by
  obtain ⟨result, _, run⟩ := run_write_bind run
  have run := run_peek_bind run
  obtain ⟨_, _, _, run_copy, run⟩ := run_bind_ok run
  obtain ⟨rfl, rfl⟩ := run_copyToCbuf run_copy
  obtain ⟨rfl, rfl⟩ := run_recordFind run
  have still : ∀ p < start, memcpyTo s.buf (start + i) [R.repl i] p = before p := by
    intro p early
    rw [memcpyTo_below (Nat.lt_add_right i early)]
    exact begins p early
  refine ⟨?_, still⟩
  cases found : result.found with
  | false => exact Records.of_eq rfl
  | true =>
      refine ⟨[_], rfl, List.forall_mem_singleton.mpr fun _ => ?_⟩
      exact copied_block (fun _ => Iff.rfl) still

theorem run_matchBytes {rounds : ℕ} {last : ℕ}
    (run : matchBytes R start before rounds i s supply = .ok ((last, t), left))
    (begins : ∀ p < start, s.buf p = before p) : Records s t := by
  induction rounds generalizing i s supply with
  | zero =>
      cases run
      exact Records.refl _
  | succ rounds ih =>
      obtain ⟨-, run⟩ := run_demand_bind run
      have run := run_peek_bind run
      split at run
      · cases run
        exact Records.refl _
      · obtain ⟨_, u, _, run_byte, run_rest⟩ := run_bind_ok run
        obtain ⟨records, still⟩ := run_matchByte run_byte begins
        exact Records.trans _ u t records (ih run_rest still)

theorem records_putBack {len offset n : ℕ} {save : Buffer} :
    Leads Records (putBack len start offset n save) :=
  Leads.attempt fun _ _ => Records.of_eq rfl

theorem records_matchShift (itsLen : ℕ) (save : Buffer) (pre : ℕ) :
    Leads Records (matchShift R itsLen save pre) := by
  intro s supply u t left run
  have run := run_peek_bind run
  rcases run_whenever run with ⟨-, run⟩ | ⟨-, rfl, -⟩
  · obtain ⟨last, v, _, run_match, run_back⟩ := run_bind_ok run
    have records := run_matchBytes run_match fun _ _ => rfl
    exact Records.trans s v t records (records_putBack v _ _ t left run_back)
  · exact Records.refl t

theorem records_matchShifts (itsLen : ℕ) (save : Buffer) (shifts : List ℕ) :
    Leads Records (matchShifts R itsLen save shifts) := by
  induction shifts with
  | nil => exact Leads.pure Records.refl ()
  | cons pre rest ih =>
      exact Leads.bind Records.trans (records_matchShift itsLen save pre) fun _ => ih

end Matches

/-! ## Transformations -/

section Transformations

variable {R : RtnCall} {save : Buffer} {i : ℕ} {trial : Trial} {trials : List Trial}
  {s t : ItsState} {supply left : List ExecResult} {found : List (Buffer → Find)}

/-- The combined buffer after a round in which something was found. -/
def combinedAfter (R : RtnCall) (i : ℕ) (s : ItsState) : Buffer :=
  memcpyTo s.cbuf R.idx (bytesFrom s.buf R.idx (i + 1))

theorem run_undo {u : Unit} (run : undo R save trial s supply = .ok ((u, t), left)) :
    t.finds = s.finds ∧ (trial.putBack = false → t = s) := by
  rcases run_whenever run with ⟨putBack, run⟩ | ⟨-, rfl, -⟩
  · obtain ⟨-, copied, -⟩ := run_attempt_ok run
    obtain ⟨-, rfl⟩ := Prod.mk.inj copied
    exact ⟨rfl, fun no => absurd putBack (Bool.eq_false_iff.mp no)⟩
  · exact ⟨rfl, fun _ => rfl⟩

/-- One attempt. If it finds something, is not written over and nothing else is executed, what
the end of the round copies are bytes of the attempt. -/
theorem run_tryOne {followed : Bool}
    (run : tryOne R save i trial followed s supply = .ok ((found, t), left)) :
    t.finds = s.finds ∧ ∀ find ∈ found, t.status = 1 ∧ ∀ cbuf, (find cbuf).site.Undisturbed →
      followed = false ∧ (find (combinedAfter R i t)).Copied := by
  obtain ⟨-, run⟩ := run_demand_bind run
  split at run
  · cases run
    exact ⟨rfl, fun _ none => nomatch none⟩
  · have run := run_peek_bind run
    obtain ⟨result, _, run⟩ := run_write_bind run
    obtain ⟨_, v, _, run_undone, run⟩ := run_bind_ok run
    obtain ⟨finds, untouched⟩ := run_undo run_undone
    have run := run_peek_bind run
    cases run
    refine ⟨finds, fun find member => ?_⟩
    split at member
    next set =>
      rw [List.mem_singleton.mp member]
      refine ⟨set, fun _ undisturbed => ⟨undisturbed.2, ?_⟩⟩
      rw [untouched undisturbed.1]
      exact copied_block (fun _ => Iff.rfl) fun p early => memcpyTo_below early
    next => exact nomatch member

theorem run_tryOne_tooLong {followed : Bool} (long : trial.tooLong = true)
    (run : tryOne R save i trial followed s supply = .ok ((found, t), left)) :
    t = s ∧ found = [] := by
  obtain ⟨-, run⟩ := run_demand_bind run
  rw [if_pos long] at run
  cases run
  exact ⟨rfl, rfl⟩

theorem someFollow_cons : someFollow (trial :: trials) = false ↔
    (trial.guarded = true ∨ trial.tooLong = true) ∧ someFollow trials = false := by
  rw [someFollow, List.any_cons, Bool.or_eq_false_iff, Bool.and_eq_false_iff,
    Bool.not_eq_false', Bool.not_eq_false', someFollow]

/-- The first attempt is left out, or it is made before the others. -/
theorem run_tryAll_cons
    (run : tryAll R save i (trial :: trials) s supply = .ok ((found, t), left)) :
    (trial.guarded = true ∧ s.status = 1) ∧
        tryAll R save i trials s supply = .ok ((found, t), left) ∨
      ¬ (trial.guarded = true ∧ s.status = 1) ∧ ∃ first more u middle, found = first ++ more ∧
        tryOne R save i trial (someFollow trials) s supply = .ok ((first, u), middle) ∧
        tryAll R save i trials u middle = .ok ((more, t), left) := by
  have run := run_peek_bind run
  split at run
  next idle => exact .inl ⟨idle, run⟩
  next tried =>
      obtain ⟨first, u, middle, run_one, run⟩ := run_bind_ok run
      obtain ⟨more, v, _, run_more, run⟩ := run_bind_ok run
      cases run
      exact .inr ⟨tried, first, more, u, middle, rfl, run_one, run_more⟩

/-- After a find nothing is executed if no attempt has to be. -/
theorem run_tryAll_idle (run : tryAll R save i trials s supply = .ok ((found, t), left))
    (quiet : someFollow trials = false) (set : s.status = 1) : t = s ∧ found = [] := by
  induction trials generalizing found s supply with
  | nil =>
      cases run
      exact ⟨rfl, rfl⟩
  | cons trial rest ih =>
      obtain ⟨idle, quiet_rest⟩ := someFollow_cons.mp quiet
      rcases run_tryAll_cons run with
        ⟨-, run_rest⟩ | ⟨tried, first, more, u, _, rfl, run_one, run_rest⟩
      · exact ih run_rest quiet_rest set
      · have long : trial.tooLong = true := idle.resolve_left fun guarded => tried ⟨guarded, set⟩
        obtain ⟨rfl, rfl⟩ := run_tryOne_tooLong long run_one
        obtain ⟨rfl, rfl⟩ := ih run_rest quiet_rest set
        exact ⟨rfl, rfl⟩

/-- All attempts of a round. -/
theorem run_tryAll (run : tryAll R save i trials s supply = .ok ((found, t), left)) :
    t.finds = s.finds ∧ ∀ find ∈ found, ∀ cbuf, (find cbuf).site.Undisturbed →
      t.status = 1 ∧ (find (combinedAfter R i t)).Copied := by
  induction trials generalizing found s supply with
  | nil =>
      cases run
      exact ⟨rfl, fun _ none => nomatch none⟩
  | cons trial rest ih =>
      rcases run_tryAll_cons run with ⟨-, run_rest⟩ | ⟨-, first, more, u, _, rfl, run_one, run_rest⟩
      · exact ih run_rest
      · obtain ⟨finds, first_copied⟩ := run_tryOne run_one
        obtain ⟨finds_rest, more_copied⟩ := ih run_rest
        refine ⟨finds_rest.trans finds, fun find member cbuf undisturbed => ?_⟩
        rcases List.mem_append.mp member with early | late
        · obtain ⟨set, copied⟩ := first_copied find early
          obtain ⟨quiet, block⟩ := copied cbuf undisturbed
          obtain ⟨rfl, -⟩ := run_tryAll_idle run_rest quiet set
          exact ⟨set, block⟩
        · exact more_copied find late cbuf undisturbed

/-- What was found in a round is recorded at its end. -/
theorem run_endRound {u : Unit} (run : endRound R i found s supply = .ok ((u, t), left)) :
    t.finds = s.finds ++ found.map fun find =>
      find (if s.status = 1 then combinedAfter R i s else s.cbuf) := by
  obtain ⟨_, _, _, run_copy, run⟩ := run_bind_ok run
  obtain ⟨rfl, rfl⟩ := run_copyToCbuf run_copy
  obtain ⟨rfl, -⟩ := run_poke run
  rfl

theorem records_round {middle : List ExecResult} {u : ItsState} {done : Unit}
    (run_all : tryAll R save i trials s supply = .ok ((found, u), middle))
    (run_end : endRound R i found u middle = .ok ((done, t), left)) : Records s t := by
  obtain ⟨finds, copied⟩ := run_tryAll run_all
  refine ⟨_, (run_endRound run_end).trans (congrArg (· ++ _) finds), ?_⟩
  refine List.forall_mem_map.mpr fun find member undisturbed => ?_
  obtain ⟨set, block⟩ := copied find member _ undisturbed
  rw [if_pos set]
  exact block

theorem records_transformRounds (itsLen rounds : ℕ) (c : Transforms) :
    Leads Records (transformRounds R itsLen save rounds i c) := by
  induction rounds generalizing i c with
  | zero => exact Leads.pure Records.refl i
  | succ rounds ih =>
      intro s supply last t left run
      obtain ⟨-, run⟩ := run_demand_bind run
      have run := run_peek_bind run
      obtain ⟨found, u, _, run_all, run⟩ := run_bind_ok run
      obtain ⟨_, v, _, run_end, run⟩ := run_bind_ok run
      refine Records.trans _ v t (records_round run_all run_end) ?_
      have run := run_peek_bind run
      split at run
      · cases run
        exact Records.refl _
      · exact ih _ _ _ _ _ _ run

theorem records_transformSolving (itsLen : ℕ) :
    Leads Records (transformSolving R itsLen save) := by
  refine Leads.read_bind fun buf => ?_
  exact Leads.bind Records.trans (records_transformRounds _ _ _) fun _ => records_putBack

theorem records_solveRoutine (itsLen : ℕ) : Leads Records (solveRoutine R itsLen) := by
  refine Leads.bind Records.trans (Leads.attempt fun s _ => Records.refl s) fun _ => ?_
  refine Leads.read_bind fun buf => ?_
  refine Leads.bind Records.trans (records_matchShifts _ _ _) fun _ => Leads.read_bind fun _ => ?_
  exact Leads.whenever Records.refl (records_transformSolving itsLen)

/-- A call of `rtn_extend_encoding`. -/
theorem records_rtnExtendEncoding (R : RtnCall) : Leads Records (rtnExtendEncoding R) := by
  refine Leads.read_bind fun hshape => Leads.whenever Records.refl ?_
  refine Leads.bind Records.trans (Leads.whenever Records.refl ?_) fun _ => ?_
  · exact Leads.attempt fun s _ => Records.refl s
  · exact Leads.whenever Records.refl (records_solveRoutine _)

end Transformations

end GreenFuzz.Redqueen
