import GreenFuzz.Redqueen.RtnTrials

/-!
# What the routine solver leaves of the buffer

`rtn_extend_encoding` puts back as many bytes as its loop counter says when it ends, which a find
may do in any round. So the buffer is as it was exactly if in every round, wherever it may end,
the attempts up to there leave the bytes from the round's own byte on as they were
(`RoundRestored`). Besides this, a direct match from before the index must not run over the end
of the operands, which have 32 bytes (`MatchEnds`).

Both directions go along the runs in which nothing is found until the round in question.
-/

set_option autoImplicit false

namespace GreenFuzz.Redqueen

open Library AflFuzz

/-! ## Bytes written over each other -/

section Bytes

variable {buf src : Buffer} {start p n : ℕ} {xs ys : List Byte}

theorem memcpyTo_outside (outside : p < start ∨ start + xs.length ≤ p) :
    memcpyTo buf start xs p = buf p := by
  rcases outside with before | behind
  · exact memcpyTo_below before
  · obtain ⟨k, rfl⟩ := Nat.exists_eq_add_of_le (Nat.le_of_add_right_le behind)
    rw [memcpyTo_add, List.getElem?_eq_none (by omega), Option.getD_none]

/-- Bytes that are written over others, which are not more. -/
theorem memcpyTo_memcpyTo (fewer : xs.length ≤ ys.length) :
    memcpyTo (memcpyTo buf start xs) start ys = memcpyTo buf start ys := by
  funext p
  rcases Nat.lt_or_ge p start with before | behind
  · rw [memcpyTo_below before, memcpyTo_below before, memcpyTo_below before]
  · obtain ⟨k, rfl⟩ := Nat.exists_eq_add_of_le behind
    rw [memcpyTo_add, memcpyTo_add, memcpyTo_add]
    by_cases inside : k < ys.length
    · rw [List.getElem?_eq_getElem inside, Option.getD_some, Option.getD_some]
    · rw [List.getElem?_eq_none (by omega), List.getElem?_eq_none (by omega), Option.getD_none,
        Option.getD_none]

theorem memcpyTo_append (buf : Buffer) (start : ℕ) (xs ys : List Byte) :
    memcpyTo (memcpyTo buf start xs) (start + xs.length) ys = memcpyTo buf start (xs ++ ys) := by
  funext p
  rcases Nat.lt_or_ge p (start + xs.length) with first | second
  · rw [memcpyTo_below first]
    rcases Nat.lt_or_ge p start with before | behind
    · rw [memcpyTo_below before, memcpyTo_below before]
    · obtain ⟨k, rfl⟩ := Nat.exists_eq_add_of_le behind
      rw [memcpyTo_add, memcpyTo_add, List.getElem?_append_left (by omega)]
  · obtain ⟨k, rfl⟩ := Nat.exists_eq_add_of_le second
    have beyond : start + xs.length + k = start + (xs.length + k) := Nat.add_assoc _ _ _
    rw [memcpyTo_add, memcpyTo_outside (.inr (Nat.le_add_right _ _)), beyond, memcpyTo_add,
      List.getElem?_append_right (Nat.le_add_right _ _), Nat.add_sub_cancel_left]

theorem bytesFrom_concat (src : Buffer) (start n : ℕ) :
    bytesFrom src start (n + 1) = bytesFrom src start n ++ [src (start + n)] := by
  rw [bytesFrom, List.range_succ, List.map_append, List.map_singleton, bytesFrom]

theorem getElem?_bytesFrom {k : ℕ} (inside : k < n) :
    (bytesFrom src start n)[k]? = some (src (start + k)) := by
  rw [bytesFrom, List.getElem?_map, List.getElem?_range inside, Option.map_some]

/-- Bytes are put back where nothing else was changed. -/
theorem memcpyTo_restores {save : Buffer} {offset : ℕ}
    (saved : ∀ k < n, save (offset + k) = src (start + k))
    (same : ∀ p, p < start ∨ start + n ≤ p → buf p = src p) :
    memcpyTo buf start (bytesFrom save offset n) = src := by
  funext p
  by_cases inside : start ≤ p ∧ p < start + n
  · obtain ⟨k, rfl⟩ := Nat.exists_eq_add_of_le inside.1
    have below : k < n := by omega
    rw [memcpyTo_add, getElem?_bytesFrom below, Option.getD_some, saved k below]
  · have outside : p < start ∨ start + n ≤ p := by omega
    rw [memcpyTo_outside (by rwa [length_bytesFrom]), same p outside]

end Bytes

variable {R : RtnCall} {itsLen i : ℕ} {s : ItsState} {save buf : Buffer}

/-! ## Executions -/

theorem safe_itsFuzz (input : List Byte) :
    Safe (itsFuzz input) s fun _ t => t.buf = s.buf := by
  refine Safe.bind (P := fun _ t => t = s) (Safe.takeFrom fun _ _ _ _ => rfl) ?_
  rintro result t rfl
  exact Safe.attempt trivial rfl

/-- An execution may find something or nothing. -/
theorem reaches_itsFuzz (input : List Byte) (result : ExecResult) :
    Reaches (itsFuzz input) s () { s with
      status := if result.found then 1 else 2
      erange := result.erange
      cbuf := result.cbufAfter input s.cbuf
      executed := s.executed ++ [input] } :=
  (Reaches.takeHead result).bind (Reaches.attempt trivial)

theorem reaches_demand {condition : Prop} [Decidable condition] (holds : condition) :
    Reaches (demand condition) s () s := Reaches.attempt holds

theorem reaches_peek {α : Type} {read : ItsState → α} : Reaches (peek read) s (read s) s :=
  Reaches.attempt trivial

/-- Copying to the combined buffer concerns nothing else. -/
theorem safe_copyToCbuf {start n : ℕ} (inside : start + n ≤ R.len) :
    Safe (copyToCbuf R.len start n) s fun _ t => t.buf = s.buf ∧ t.status = s.status := by
  refine Safe.attempt (fun _ => inside) ?_
  dsimp only
  split
  · exact ⟨rfl, rfl⟩
  · exact ⟨rfl, rfl⟩

theorem reaches_copyToCbuf {start n : ℕ} (inside : start + n ≤ R.len) :
    ∃ t, Reaches (copyToCbuf R.len start n) s () t := ⟨_, Reaches.attempt fun _ => inside⟩

theorem safe_recordFind {site : Site} {before known : Buffer} {input : List Byte} :
    Safe (recordFind site before known input) s fun _ t =>
      t.buf = s.buf ∧ t.status = s.status := by
  unfold recordFind poke
  refine Safe.attempt trivial ?_
  dsimp only
  split
  · exact ⟨rfl, rfl⟩
  · exact ⟨rfl, rfl⟩

theorem reaches_recordFind (s : ItsState) (site : Site) (before known : Buffer)
    (input : List Byte) : ∃ t, Reaches (recordFind site before known input) s () t := by
  unfold recordFind poke
  exact ⟨_, Reaches.attempt trivial⟩

/-! ## One attempt -/

/-- What an attempt leaves. -/
def Trial.leaves (R : RtnCall) (save buf : Buffer) (trial : Trial) : Buffer :=
  if trial.tooLong then buf
  else memcpyTo buf R.idx
    (if trial.putBack then bytesFrom save 0 trial.bytes.length else trial.bytes)

/-- What attempts leave that are made one after the other. -/
def leftBy (R : RtnCall) (save buf : Buffer) (trials : List Trial) : Buffer :=
  trials.foldl (fun buf trial => trial.leaves R save buf) buf

section Trials

variable {trial : Trial} {trials xs ys : List Trial}

theorem leaves_of_tooLong (tooLong : trial.tooLong = true) : trial.leaves R save buf = buf :=
  if_pos tooLong

/-- An attempt that is executed, and put back or not. -/
theorem leaves_eq (fits : trial.tooLong = false) : trial.leaves R save buf =
    if trial.putBack then
      memcpyTo (memcpyTo buf R.idx trial.bytes) R.idx (bytesFrom save 0 trial.bytes.length)
    else memcpyTo buf R.idx trial.bytes := by
  rw [Trial.leaves, fits, if_neg Bool.false_ne_true]
  split
  · rw [memcpyTo_memcpyTo (length_bytesFrom _ _ _).ge]
  · rfl

theorem safe_undo {before : Buffer} (fits : trial.tooLong = false) (inside : trial.Inside R)
    (written : s.buf = memcpyTo before R.idx trial.bytes) :
    Safe (undo R save trial) s fun _ t =>
      t.buf = trial.leaves R save before ∧ t.status = s.status := by
  rw [leaves_eq fits]
  unfold undo whenever
  split
  next putBack =>
    rw [← written]
    have room := inside.room
    exact Safe.attempt ⟨by omega, inside.fits fits⟩ ⟨rfl, rfl⟩
  next => exact Safe.pure ⟨written, rfl⟩

theorem reaches_undo (s : ItsState) (save : Buffer) (fits : trial.tooLong = false)
    (inside : trial.Inside R) : ∃ t, Reaches (undo R save trial) s () t := by
  unfold undo whenever
  split
  · have room := inside.room
    exact ⟨_, Reaches.attempt ⟨by omega, inside.fits fits⟩⟩
  · exact ⟨s, Reaches.pure⟩

theorem safe_tryOne {followed : Bool} (inside : trial.Inside R) :
    Safe (tryOne R save i trial followed) s fun _ t => t.buf = trial.leaves R save s.buf := by
  refine Safe.attempt_bind ⟨inside.reads, inside.table, inside.room⟩ ?_
  split
  next tooLong => exact Safe.pure (leaves_of_tooLong tooLong).symm
  next fits =>
    have fits := eq_false_of_ne_true fits
    refine Safe.attempt_bind trivial (Safe.attempt_bind (inside.fits fits)
      (Safe.attempt_bind trivial ((safe_itsFuzz _).bind fun _ t executed => ?_)))
    exact (safe_undo fits inside executed).bind fun _ u left =>
      Safe.attempt_bind trivial (Safe.pure left.1)

/-- An attempt may find something or nothing, if it is executed. -/
theorem reaches_tryOne (s : ItsState) (save : Buffer) (i : ℕ) (followed : Bool)
    (inside : trial.Inside R) (found : Bool) :
    ∃ finds t, Reaches (tryOne R save i trial followed) s finds t ∧
      t.buf = trial.leaves R save s.buf ∧
      t.status = if trial.tooLong then s.status else if found then 1 else 2 := by
  have post : Safe (tryOne R save i trial followed) s _ := safe_tryOne inside
  suffices reached : ∃ finds t, Reaches (tryOne R save i trial followed) s finds t ∧
      t.status = if trial.tooLong then s.status else if found then 1 else 2 by
    obtain ⟨finds, t, reaches, status⟩ := reached
    exact ⟨finds, t, reaches, post.of_reaches reaches, status⟩
  cases fits : trial.tooLong with
  | true =>
      refine ⟨[], s, Reaches.attempt_bind ⟨inside.reads, inside.table, inside.room⟩ ?_, rfl⟩
      rw [if_pos fits]
      exact Reaches.pure
  | false =>
      let written := { s with buf := memcpyTo s.buf R.idx trial.bytes }
      obtain ⟨u, executes, same, set⟩ :
          ∃ u, Reaches (itsFuzz (inputOf R.len written.buf)) written () u ∧
            u.buf = memcpyTo s.buf R.idx trial.bytes ∧ u.status = if found then 1 else 2 :=
        ⟨_, reaches_itsFuzz _ ⟨found, false, false⟩, rfl, rfl⟩
      obtain ⟨t, undone⟩ := reaches_undo u save fits inside
      have status := ((safe_undo fits inside same).of_reaches undone).2.trans set
      let site : Site := .transform R.idx i trial.bytes.length trial.putBack followed
      refine ⟨if t.status = 1 then [Find.mk site s.buf (inputOf R.len written.buf) t.cbuf] else [],
        t,
        Reaches.attempt_bind ⟨inside.reads, inside.table, inside.room⟩ ?_, status⟩
      rw [if_neg (Bool.eq_false_iff.mp fits)]
      exact Reaches.attempt_bind trivial (Reaches.attempt_bind (inside.fits fits)
        (Reaches.attempt_bind trivial (executes.bind (undone.bind
          (Reaches.attempt_bind trivial Reaches.pure)))))

/-- An attempt may find nothing. -/
theorem reaches_tryOne_quiet (save : Buffer) (i : ℕ) (followed : Bool) (inside : trial.Inside R)
    (quiet : s.status ≠ 1) : ∃ finds t, Reaches (tryOne R save i trial followed) s finds t ∧
      t.buf = trial.leaves R save s.buf ∧ t.status ≠ 1 := by
  obtain ⟨finds, t, one, left, status⟩ := reaches_tryOne s save i followed inside false
  refine ⟨finds, t, one, left, ?_⟩
  rw [status]
  split
  · exact quiet
  · decide

/-- What is safe to try is inside. -/
theorem inside_of_safe_tryOne {followed : Bool} {post : List (Buffer → Find) → ItsState → Prop}
    (safe : Safe (tryOne R save i trial followed) s post) : trial.Inside R := by
  obtain ⟨reads, table, room⟩ := Safe.allowed safe.first
  refine ⟨reads, table, room, fun fits => ?_⟩
  have rest := Safe.after safe (Reaches.attempt ⟨reads, table, room⟩)
  rw [if_neg (Bool.eq_false_iff.mp fits)] at rest
  have writes := Safe.allowed (rest.after (Reaches.attempt trivial)).first
  exact writes

/-! ## The attempts of a round -/

theorem leftBy_nil : leftBy R save buf [] = buf := rfl

theorem leftBy_cons :
    leftBy R save buf (trial :: trials) = leftBy R save (trial.leaves R save buf) trials := rfl

theorem leftBy_of_tooLong (idle : ∀ trial ∈ trials, trial.tooLong = true) :
    leftBy R save buf trials = buf := by
  induction trials with
  | nil => rfl
  | cons trial rest ih =>
      rw [List.forall_mem_cons] at idle
      rw [leftBy_cons, leaves_of_tooLong idle.1]
      exact ih idle.2

/-- Nothing is tried any more after a find. -/
theorem safe_tryAll_found (last : ∀ trial ∈ ys, trial.guarded = true) (found : s.status = 1) :
    Safe (tryAll R save i ys) s fun _ t => t.buf = s.buf := by
  induction ys with
  | nil => exact Safe.pure rfl
  | cons trial rest ih =>
      rw [List.forall_mem_cons] at last
      refine Safe.attempt_bind trivial ?_
      rw [if_pos ⟨last.1, found⟩]
      exact ih last.2

/-- Some of the last attempts are made. -/
theorem safe_tryAll_last (inside : ∀ trial ∈ ys, trial.Inside R)
    (last : ∀ trial ∈ ys, trial.guarded = true) :
    Safe (tryAll R save i ys) s fun _ t => ∃ made ≤ ys.length,
      t.buf = leftBy R save s.buf (ys.take made) := by
  induction ys generalizing s with
  | nil => exact Safe.pure ⟨0, le_rfl, rfl⟩
  | cons trial rest ih =>
      by_cases found : s.status = 1
      · exact (safe_tryAll_found last found).mono fun _ t same => ⟨0, Nat.zero_le _, same⟩
      · rw [List.forall_mem_cons] at last inside
        refine Safe.attempt_bind trivial ?_
        rw [if_neg fun both => found both.2]
        refine (safe_tryOne inside.1).bind fun _ t left => ?_
        refine (ih inside.2 last.2).bind fun _ u ⟨made, few, rest_left⟩ => Safe.pure ?_
        refine ⟨made + 1, Nat.succ_le_succ few, ?_⟩
        rw [rest_left, left, List.take_succ_cons, leftBy_cons]

/-- The first attempts and some of the last ones are made. -/
theorem safe_tryAll (inside : ∀ trial ∈ xs ++ ys, trial.Inside R)
    (any_case : ∀ trial ∈ xs, trial.guarded = false)
    (last : ∀ trial ∈ ys, trial.guarded = true) :
    Safe (tryAll R save i (xs ++ ys)) s fun _ t => ∃ made ≤ ys.length,
      t.buf = leftBy R save s.buf (xs ++ ys.take made) := by
  induction xs generalizing s with
  | nil => exact safe_tryAll_last inside last
  | cons trial rest ih =>
      rw [List.forall_mem_cons] at any_case
      rw [List.cons_append, List.forall_mem_cons] at inside
      refine Safe.attempt_bind trivial ?_
      rw [if_neg fun both => Bool.false_ne_true (any_case.1.symm.trans both.1)]
      refine (safe_tryOne inside.1).bind fun _ t left => ?_
      refine (ih inside.2 any_case.2).bind fun _ u ⟨made, few, rest_left⟩ => Safe.pure ?_
      refine ⟨made, few, ?_⟩
      rw [rest_left, left, List.cons_append, leftBy_cons]

theorem reaches_tryAll_cons {finds more : List (Buffer → Find)} {t u : ItsState}
    (tried : ¬ (trial.guarded = true ∧ s.status = 1))
    (one : Reaches (tryOne R save i trial (someFollow trials)) s finds t)
    (others : Reaches (tryAll R save i trials) t more u) :
    Reaches (tryAll R save i (trial :: trials)) s (finds ++ more) u := by
  refine Reaches.attempt_bind trivial ?_
  rw [if_neg tried]
  exact one.bind (others.bind Reaches.pure)

/-- All attempts may be made and find nothing. -/
theorem reaches_tryAll_quiet (save : Buffer) (i : ℕ) (inside : ∀ trial ∈ trials, trial.Inside R)
    (quiet : s.status ≠ 1) : ∃ finds t, Reaches (tryAll R save i trials) s finds t ∧
      t.buf = leftBy R save s.buf trials ∧ t.status ≠ 1 := by
  induction trials generalizing s with
  | nil => exact ⟨_, s, Reaches.pure, rfl, quiet⟩
  | cons trial rest ih =>
      rw [List.forall_mem_cons] at inside
      obtain ⟨finds, t, one, left, still⟩ :=
        reaches_tryOne_quiet save i (someFollow rest) inside.1 quiet
      obtain ⟨more, u, others, rest_left, rest_quiet⟩ := ih (s := t) inside.2 still
      refine ⟨_, u, reaches_tryAll_cons (fun both => quiet both.2) one others, ?_, rest_quiet⟩
      rw [rest_left, left, leftBy_cons]

/-- After a find only attempts that are not executed are made. -/
theorem reaches_tryAll_idle (save : Buffer) (i : ℕ) (inside : ∀ trial ∈ trials, trial.Inside R)
    (found : s.status = 1)
    (idle : ∀ trial ∈ trials, trial.guarded = true ∨ trial.tooLong = true) :
    ∃ finds t, Reaches (tryAll R save i trials) s finds t ∧ t.buf = s.buf ∧ t.status = 1 := by
  induction trials generalizing s with
  | nil => exact ⟨_, s, Reaches.pure, rfl, found⟩
  | cons trial rest ih =>
      rw [List.forall_mem_cons] at inside idle
      by_cases guarded : trial.guarded = true
      · obtain ⟨more, u, others, same, still⟩ := ih inside.2 found idle.2
        refine ⟨more, u, Reaches.attempt_bind trivial ?_, same, still⟩
        rw [if_pos ⟨guarded, found⟩]
        exact others
      · have tooLong := idle.1.resolve_left guarded
        obtain ⟨finds, t, one, left, status⟩ :=
          reaches_tryOne s save i (someFollow rest) inside.1 false
        rw [leaves_of_tooLong tooLong] at left
        rw [if_pos tooLong, found] at status
        obtain ⟨more, u, others, same, still⟩ := ih (s := t) inside.2 status idle.2
        exact ⟨_, u, reaches_tryAll_cons (fun both => guarded both.1) one others, same.trans left,
          still⟩

/-- The last one of some attempts that is executed may be the first to find something. -/
theorem reaches_tryAll_found (save : Buffer) (i : ℕ)
    (inside : ∀ trial ∈ xs ++ ys, trial.Inside R) (quiet : s.status ≠ 1)
    (last : ∀ trial ∈ ys, trial.guarded = true) (executed : ∃ trial ∈ xs, trial.tooLong = false) :
    ∃ finds t, Reaches (tryAll R save i (xs ++ ys)) s finds t ∧
      t.buf = leftBy R save s.buf xs ∧ t.status = 1 := by
  induction xs generalizing s with
  | nil =>
      obtain ⟨_, none, -⟩ := executed
      cases none
  | cons trial rest ih =>
      rw [List.cons_append, List.forall_mem_cons] at inside
      by_cases later : ∃ trial ∈ rest, trial.tooLong = false
      · obtain ⟨finds, t, one, left, still⟩ :=
          reaches_tryOne_quiet save i (someFollow (rest ++ ys)) inside.1 quiet
        obtain ⟨more, u, others, rest_left, found⟩ := ih (s := t) inside.2 still later
        refine ⟨_, u, reaches_tryAll_cons (fun both => quiet both.2) one others, ?_, found⟩
        rw [rest_left, left, leftBy_cons]
      · have fits : trial.tooLong = false := by
          obtain ⟨there, member, fits⟩ := executed
          rcases List.mem_cons.mp member with rfl | member
          · exact fits
          · exact (later ⟨there, member, fits⟩).elim
        have idle : ∀ trial ∈ rest, trial.tooLong = true := fun there member =>
          (Bool.eq_false_or_eq_true _).resolve_right fun fits => later ⟨there, member, fits⟩
        obtain ⟨finds, t, one, left, status⟩ :=
          reaches_tryOne s save i (someFollow (rest ++ ys)) inside.1 true
        rw [if_neg (Bool.eq_false_iff.mp fits), if_pos rfl] at status
        have no_more : ∀ trial ∈ rest ++ ys, trial.guarded = true ∨ trial.tooLong = true := by
          rw [List.forall_mem_append]
          exact ⟨fun there member => .inr (idle there member),
            fun there member => .inl (last there member)⟩
        obtain ⟨more, u, others, same, found⟩ := reaches_tryAll_idle save i
          inside.2 status no_more
        refine ⟨_, u, reaches_tryAll_cons (fun both => quiet both.2) one others, ?_, found⟩
        rw [same, left, leftBy_cons, leftBy_of_tooLong idle]

/-- What is safe to try is inside. -/
theorem inside_of_safe_tryAll {post : List (Buffer → Find) → ItsState → Prop}
    (safe : Safe (tryAll R save i trials) s post) (quiet : s.status ≠ 1) :
    ∀ trial ∈ trials, trial.Inside R := by
  induction trials generalizing s post with
  | nil => exact fun _ none => nomatch none
  | cons trial rest ih =>
      have tried := Safe.after safe reaches_peek
      rw [if_neg fun both => quiet both.2] at tried
      have inside := inside_of_safe_tryOne tried.first
      obtain ⟨finds, t, one, -, still⟩ :=
        reaches_tryOne_quiet save i (someFollow rest) inside quiet
      exact List.forall_mem_cons.mpr ⟨inside, ih (tried.after one).first still⟩

/-- What attempts leave at a position follows from what was there. -/
theorem leftBy_congr {left right : Buffer} {p : ℕ} (same : left p = right p) :
    leftBy R save left trials p = leftBy R save right trials p := by
  induction trials generalizing left right with
  | nil => exact same
  | cons trial rest ih =>
      rw [leftBy_cons, leftBy_cons]
      refine ih ?_
      unfold Trial.leaves
      split
      · exact same
      · unfold memcpyTo
        split
        · rw [same]
        · exact same

end Trials

/-! ## Rounds -/

/-- Two buffers agree before the index and from byte `i` of the operand on. -/
def AgreeFrom (R : RtnCall) (i : ℕ) (left right : Buffer) : Prop :=
  ∀ p, p < R.idx ∨ R.idx + i ≤ p → left p = right p

/-- What is in `save` in the rounds for a buffer. -/
def RtnCall.kept (R : RtnCall) (itsLen : ℕ) (buf : Buffer) : Buffer :=
  R.savedAgain itsLen (R.saved itsLen buf) buf

/-- Round `i` stays inside, and what it leaves is put back wherever it ends. -/
structure RoundRestored (R : RtnCall) (itsLen : ℕ) (buf : Buffer) (i : ℕ) : Prop where
  /-- No base64 of more than 30 bytes is tried. -/
  base64 : ∀ hlen ∈ (Transforms.counted R itsLen buf i).fromb64Lengths R itsLen i, hlen ≤ 30
  /-- The hexadecimal digits and their prefix end inside the input. -/
  hex : ∀ hlen ∈ (Transforms.counted R itsLen buf i).fromhexLengths R i,
    R.idx + (hlen + 1 + (Transforms.counted R itsLen buf i).fromhexPrefix.length) ≤ R.len
  /-- The attempts that are made in any case, and then each one of the others, leave byte `i` and
  the bytes behind it as they were. -/
  left : ∀ made ≤ ((Transforms.counted R itsLen buf i).lastTrials R i).length,
    AgreeFrom R i (leftBy R (R.kept itsLen buf) buf
      ((Transforms.counted R itsLen buf i).firstTrials R itsLen i ++
        ((Transforms.counted R itsLen buf i).lastTrials R i).take made)) buf

section Rounds

theorem safe_endRound {found : List (Buffer → Find)} (within : R.idx + (i + 1) ≤ R.len) :
    Safe (endRound R i found) s fun _ t => t.buf = s.buf ∧ t.status = s.status := by
  refine (safe_copyToCbuf within).bind fun _ t same => ?_
  unfold poke
  exact Safe.attempt trivial same

theorem reaches_endRound (s : ItsState) (found : List (Buffer → Find))
    (within : R.idx + (i + 1) ≤ R.len) :
    ∃ t, Reaches (endRound R i found) s () t := by
  obtain ⟨t, copied⟩ := reaches_copyToCbuf (s := s) within
  unfold endRound poke
  exact ⟨_, copied.bind (Reaches.attempt trivial)⟩

/-- What is looked at in a round is inside. -/
theorem RoundInside.looks (within : RoundInside R itsLen i) :
    i < 32 ∧ (i < 16 → 2 * i + 2 ≤ 32) ∧ (i < 24 → 4 * (i / 3) + 4 ≤ 32) ∧
      R.idx + i < R.len := by
  have round := within.round
  have operand := within.operand
  have inside := within.inside
  omega

variable {rounds : ℕ} {c : Transforms}

/-- The counters of a round, from a buffer that was not changed from its byte on. -/
theorem count_eq_counted (entered : c = Transforms.entering R itsLen buf i)
    (agree : AgreeFrom R i s.buf buf) :
    c.count R i (s.buf (R.idx + i)) = Transforms.counted R itsLen buf i := by
  rw [agree _ (.inr le_rfl), entered]
  rfl

/-- The rounds stay inside and put back what they leave. -/
theorem safe_transformRounds (operand : itsLen ≤ 32) (inside : R.idx + itsLen ≤ R.len)
    (small : R.len ≤ MAX_FILE) (restored : ∀ j < itsLen, RoundRestored R itsLen buf j)
    (count : i + rounds = itsLen) (entered : c = Transforms.entering R itsLen buf i)
    (agree : AgreeFrom R i s.buf buf) :
    Safe (transformRounds R itsLen (R.kept itsLen buf) rounds i c) s fun last t =>
      last ≤ itsLen ∧ AgreeFrom R last t.buf buf := by
  induction rounds generalizing i c s with
  | zero => exact Safe.pure ⟨count.le, agree⟩
  | succ rounds ih =>
      have within : RoundInside R itsLen i := ⟨by omega, operand, inside, small⟩
      have seen := (seen_counted_entering R itsLen buf i).2
      have here := restored i within.round
      refine Safe.attempt_bind within.looks (Safe.attempt_bind trivial ?_)
      dsimp only
      rw [count_eq_counted entered agree]
      refine (safe_tryAll ((trials_inside_iff within seen).mpr ⟨here.base64, here.hex⟩)
        (guarded_firstTrials within seen) fun trial member =>
          (guarded_lastTrials within trial member).1).bind fun found t ⟨made, few, left⟩ => ?_
      have round := within.round
      refine (safe_endRound (by omega)).bind fun _ u ⟨same, _⟩ => Safe.attempt_bind trivial ?_
      have still : AgreeFrom R i u.buf buf := by
        intro p outside
        rw [same, left, ← here.left made few p outside]
        exact leftBy_congr (agree p outside)
      split
      · exact Safe.pure ⟨by omega, still⟩
      · exact ih (by omega) rfl fun p outside => still p (by omega)

/-- A round without attempts leaves everything as it was. -/
theorem roundRestored_of_nil
    (first : (Transforms.counted R itsLen buf i).firstTrials R itsLen i = [])
    (last : (Transforms.counted R itsLen buf i).lastTrials R i = []) :
    RoundRestored R itsLen buf i := by
  have parts := first
  simp only [Transforms.firstTrials, List.append_eq_nil_iff, Transforms.fromb64Trials,
    Transforms.fromhexTrials, List.map_eq_nil_iff] at parts
  obtain ⟨⟨⟨⟨base64, -⟩, -⟩, hex⟩, -⟩ := parts
  refine ⟨?_, ?_, fun made _ p _ => ?_⟩
  · rw [base64]
    exact fun _ none => absurd none List.not_mem_nil
  · rw [hex]
    exact fun _ none => absurd none List.not_mem_nil
  · rw [first, last, List.take_nil, List.append_nil, leftBy_nil]

/-- What a round leaves that ends with a find. -/
theorem left_of_safe_round {next : List (Buffer → Find) → Its ℕ} {first last : List Trial}
    (agree : AgreeFrom R i s.buf buf) (quiet : s.status ≠ 1)
    (inside : ∀ trial ∈ first ++ last, trial.Inside R)
    (guarded : ∀ trial ∈ last, trial.guarded = true)
    (safe : Safe (tryAll R save i (first ++ last) >>= next) s fun last t =>
      AgreeFrom R last t.buf buf)
    (ends : ∀ found t, t.status = 1 → ∃ u, Reaches (next found) t i u ∧ u.buf = t.buf)
    (made : ℕ) : AgreeFrom R i (leftBy R save buf (first ++ last.take made)) buf := by
  have parts : first ++ last = (first ++ last.take made) ++ last.drop made := by
    rw [List.append_assoc, List.take_append_drop]
  by_cases executed : ∃ trial ∈ first ++ last.take made, trial.tooLong = false
  · rw [parts] at safe inside
    obtain ⟨found, t, tried, left, status⟩ := reaches_tryAll_found save i inside
      quiet (fun trial member => guarded trial (List.mem_of_mem_drop member)) executed
    obtain ⟨u, ended, same⟩ := ends found t status
    have after := (Safe.after safe tried).of_reaches ended
    intro p outside
    rw [← after p outside, same, left]
    exact leftBy_congr (agree p outside).symm
  · have idle : ∀ trial ∈ first ++ last.take made, trial.tooLong = true := fun trial member =>
      (Bool.eq_false_or_eq_true _).resolve_right fun fits => executed ⟨trial, member, fits⟩
    rw [leftBy_of_tooLong idle]
    exact fun _ _ => rfl

/-- Rounds that put back what they leave, in every run. -/
theorem restored_of_safe_rounds (operand : itsLen ≤ 32) (inside : R.idx + itsLen ≤ R.len)
    (small : R.len ≤ MAX_FILE) (unchanged : ∀ k < itsLen, R.repl k = R.changedVal k)
    (count : i + rounds = itsLen) (entered : c = Transforms.entering R itsLen buf i)
    (agree : AgreeFrom R i s.buf buf) (quiet : s.status ≠ 1)
    (safe : Safe (transformRounds R itsLen (R.kept itsLen buf) rounds i c) s fun last t =>
      AgreeFrom R last t.buf buf) (j : ℕ) (later : i ≤ j) (below : j < itsLen) :
    RoundRestored R itsLen buf j := by
  induction rounds generalizing i c s with
  | zero => omega
  | succ rounds ih =>
      have within : RoundInside R itsLen i := ⟨by omega, operand, inside, small⟩
      have seen := (seen_counted_entering R itsLen buf i).2
      have round := within.round
      rw [transformRounds] at safe
      have body := (safe.after (reaches_demand within.looks)).after reaches_peek
      dsimp only at body
      rw [count_eq_counted entered agree] at body
      have all_inside := inside_of_safe_tryAll body.first quiet
      have guarded : ∀ trial ∈ (Transforms.counted R itsLen buf i).lastTrials R i,
          trial.guarded = true := fun trial member => (guarded_lastTrials within trial member).1
      have end_round (found : List (Buffer → Find)) (t : ItsState) :
          ∃ u, Reaches (endRound R i found) t () u ∧ u.buf = t.buf ∧ u.status = t.status := by
        obtain ⟨u, ended⟩ := reaches_endRound t found (by omega : R.idx + (i + 1) ≤ R.len)
        exact ⟨u, ended, (safe_endRound (by omega)).of_reaches ended⟩
      have left := left_of_safe_round agree quiet all_inside guarded body fun found t status => by
        obtain ⟨u, ended, same, still⟩ := end_round found t
        refine ⟨u, ended.bind (Reaches.attempt_bind trivial ?_), same⟩
        rw [if_pos (.inr (.inr (still.trans status)))]
        exact Reaches.pure
      rcases Nat.eq_or_lt_of_le later with rfl | later
      · obtain ⟨base64, hex⟩ := (trials_inside_iff within seen).mp all_inside
        exact ⟨base64, hex, fun made _ => left made⟩
      · by_cases hopeless : (Transforms.counted R itsLen buf i).Hopeless R i
        · obtain ⟨first, last⟩ := trials_of_hopeless hopeless later
          exact roundRestored_of_nil first last
        · obtain ⟨found, t, tried, all_left, none⟩ := reaches_tryAll_quiet
            (R.kept itsLen buf) i all_inside quiet
          obtain ⟨u, ended, same, still⟩ := end_round found t
          have rest := ((body.after tried).after ended).after reaches_peek
          have goes_on : ¬ ((Transforms.counted R itsLen buf i).Hopeless R i ∨
              R.repl i ≠ R.changedVal i ∨ u.status = 1) := by
            rintro (given_up | different | found)
            · exact hopeless given_up
            · exact different (unchanged i round)
            · exact none (still.symm.trans found)
          rw [if_neg goes_on] at rest
          refine ih (by omega) rfl (fun p outside => ?_) (still ▸ none) rest later
          have all := left ((Transforms.counted R itsLen buf i).lastTrials R i).length p (by omega)
          rw [List.take_length] at all
          rw [same, all_left, ← all]
          exact leftBy_congr (agree p (by omega))

end Rounds

/-! ## Direct matches -/

/-- Byte `m` of an operand is not the one in the input. -/
def Mismatch (R : RtnCall) (buf : Buffer) (start m : ℕ) : Prop :=
  R.pattern m ≠ buf (start + m) ∨ R.oPattern m ≠ R.origBuf (start + m)

/-- A match of so many bytes ends before the operands do. -/
def MatchEnds (R : RtnCall) (buf : Buffer) (start count : ℕ) : Prop :=
  count ≤ 32 ∨ ∃ m < 32, Mismatch R buf start m

/-- A match from `pre` bytes before the index on is tried. -/
def RtnCall.Tried (R : RtnCall) (buf : Buffer) (pre : ℕ) : Prop :=
  pre = 0 ∨ bytesFrom buf (R.idx - pre) pre = bytesFrom R.repl 0 pre

section Matches

variable {before : Buffer} {start count rounds : ℕ}

/-- One more byte is replaced. -/
theorem replaced_succ (written : s.buf = memcpyTo buf start (bytesFrom R.repl 0 i)) :
    memcpyTo s.buf (start + i) [R.repl i] = memcpyTo buf start (bytesFrom R.repl 0 (i + 1)) := by
  have appended := memcpyTo_append buf start (bytesFrom R.repl 0 i) [R.repl i]
  rw [length_bytesFrom] at appended
  rw [written, appended, bytesFrom_concat, Nat.zero_add]

/-- The next byte was not replaced yet. -/
theorem next_byte (written : s.buf = memcpyTo buf start (bytesFrom R.repl 0 i)) :
    s.buf (start + i) = buf (start + i) := by
  rw [written]
  exact memcpyTo_outside (.inr (by rw [length_bytesFrom]))

theorem safe_matchByte (inside : start + (i + 1) ≤ R.len)
    (written : s.buf = memcpyTo buf start (bytesFrom R.repl 0 i)) :
    Safe (matchByte R start i before) s fun _ t =>
      t.buf = memcpyTo buf start (bytesFrom R.repl 0 (i + 1)) := by
  have room : start + i + [R.repl i].length ≤ R.len := by
    rw [List.length_singleton]
    omega
  refine Safe.attempt_bind room (Safe.attempt_bind trivial ?_)
  refine (safe_itsFuzz _).bind fun _ t same => ?_
  refine Safe.attempt_bind trivial ((safe_copyToCbuf (by omega)).bind fun _ u copied => ?_)
  refine safe_recordFind.mono fun _ v recorded => ?_
  rw [recorded.1, copied.1]
  exact same.trans (replaced_succ written)

/-- A round of a match may find nothing. -/
theorem reaches_matchByte (s : ItsState) (before : Buffer) (inside : start + (i + 1) ≤ R.len) :
    ∃ t, Reaches (matchByte R start i before) s () t ∧ t.status ≠ 1 := by
  have room : start + i + [R.repl i].length ≤ R.len := by
    rw [List.length_singleton]
    omega
  let replaced := { s with buf := memcpyTo s.buf (start + i) [R.repl i] }
  obtain ⟨t, executed, status⟩ : ∃ t, Reaches (itsFuzz (inputOf R.len replaced.buf)) replaced () t ∧
      t.status = 2 := ⟨_, reaches_itsFuzz _ nothingFound, rfl⟩
  obtain ⟨u, copied⟩ := reaches_copyToCbuf (R := R) (s := t) (by omega : start + i ≤ R.len)
  obtain ⟨v, recorded⟩ := reaches_recordFind u (.direct (start + i)) before t.cbuf
    (inputOf R.len replaced.buf)
  refine ⟨v, Reaches.attempt_bind room (reaches_peek.bind (executed.bind (reaches_peek.bind
    (copied.bind recorded)))), ?_⟩
  rw [(safe_recordFind.of_reaches recorded).2, ((safe_copyToCbuf (by omega)).of_reaches copied).2,
    status]
  decide

/-- Byte `i` is not the mismatch that a match ends at, if the match goes on there. -/
theorem ends_later (ends : count ≤ 32 ∨ ∃ m < 32, i ≤ m ∧ Mismatch R buf start m)
    (matches_here : ¬ Mismatch R buf start i) :
    count ≤ 32 ∨ ∃ m < 32, i + 1 ≤ m ∧ Mismatch R buf start m := by
  rcases ends with short | ⟨m, small, later, mismatch⟩
  · exact .inl short
  · refine .inr ⟨m, small, Nat.lt_of_le_of_ne later ?_, mismatch⟩
    rintro rfl
    exact matches_here mismatch

/-- A match replaces some bytes, and stays inside the operands. -/
theorem safe_matchBytes (ends : count ≤ 32 ∨ ∃ m < 32, i ≤ m ∧ Mismatch R buf start m)
    (total : i + rounds = count) (inside : start + count ≤ R.len)
    (written : s.buf = memcpyTo buf start (bytesFrom R.repl 0 i)) :
    Safe (matchBytes R start before rounds i) s fun last t =>
      last ≤ count ∧ t.buf = memcpyTo buf start (bytesFrom R.repl 0 last) := by
  induction rounds generalizing i s with
  | zero => exact Safe.pure ⟨total.le, written⟩
  | succ rounds ih =>
      have below : i < 32 := by
        rcases ends with short | ⟨m, small, later, -⟩ <;> omega
      refine Safe.attempt_bind ⟨below, by omega⟩ (Safe.attempt_bind trivial ?_)
      split
      next => exact Safe.pure ⟨by omega, written⟩
      next goes_on =>
        have matches_here : ¬ Mismatch R buf start i := by
          rw [Mismatch, ← next_byte written]
          exact fun mismatch => goes_on (.inl mismatch)
        refine (safe_matchByte (by omega) written).bind fun _ t replaced => ?_
        exact ih (ends_later ends matches_here) (by omega) replaced

/-- A match in which nothing is found. -/
theorem reaches_matchBytes (before : Buffer)
    (ends : count ≤ 32 ∨ ∃ m < 32, i ≤ m ∧ Mismatch R buf start m)
    (total : i + rounds = count) (inside : start + count ≤ R.len)
    (written : s.buf = memcpyTo buf start (bytesFrom R.repl 0 i)) (quiet : s.status ≠ 1) :
    ∃ last t, Reaches (matchBytes R start before rounds i) s last t ∧ t.status ≠ 1 := by
  induction rounds generalizing i s with
  | zero => exact ⟨i, s, Reaches.pure, quiet⟩
  | succ rounds ih =>
      have below : i < 32 := by
        rcases ends with short | ⟨m, small, later, -⟩ <;> omega
      rw [matchBytes]
      by_cases mismatch : Mismatch R buf start i
      · refine ⟨i, s, (reaches_demand ⟨below, by omega⟩).bind (reaches_peek.bind ?_), quiet⟩
        rw [Mismatch, ← next_byte written] at mismatch
        rw [if_pos (.inl mismatch)]
        exact Reaches.pure
      · obtain ⟨t, matched, still⟩ := reaches_matchByte s before
          (by omega : start + (i + 1) ≤ R.len)
        have replaced := (safe_matchByte (by omega) written).of_reaches matched
        obtain ⟨last, u, rest, none⟩ := ih (ends_later ends mismatch) (by omega) replaced still
        refine ⟨last, u, (reaches_demand ⟨below, by omega⟩).bind (reaches_peek.bind ?_), none⟩
        rw [Mismatch, ← next_byte written] at mismatch
        rw [id, if_neg (not_or.mpr ⟨mismatch, quiet⟩)]
        exact matched.bind rest

/-- A match that stays inside the operands ends before they do. -/
theorem ends_of_safe_matchBytes {post : ℕ → ItsState → Prop} (small : i ≤ 32)
    (total : i + rounds = count) (written : s.buf = memcpyTo buf start (bytesFrom R.repl 0 i))
    (quiet : s.status ≠ 1) (safe : Safe (matchBytes R start before rounds i) s post) :
    count ≤ 32 ∨ ∃ m < 32, i ≤ m ∧ Mismatch R buf start m := by
  induction rounds generalizing i s with
  | zero => exact .inl (by omega)
  | succ rounds ih =>
      rw [matchBytes] at safe
      have within := Safe.allowed safe.first
      by_cases mismatch : Mismatch R buf start i
      · exact .inr ⟨i, within.1, le_rfl, mismatch⟩
      · obtain ⟨t, matched, still⟩ := reaches_matchByte s before
          (by omega : start + (i + 1) ≤ R.len)
        have replaced := (safe_matchByte (by omega) written).of_reaches matched
        have rest := (safe.after (reaches_demand within)).after reaches_peek
        rw [Mismatch, ← next_byte written] at mismatch
        rw [id, if_neg (not_or.mpr ⟨mismatch, quiet⟩)] at rest
        rcases ih within.1 (by omega) replaced still (rest.after matched) with short | later
        · exact .inl short
        · obtain ⟨m, bound, beyond, there⟩ := later
          exact .inr ⟨m, bound, by omega, there⟩

/-! ## Shifts -/

theorem mem_shifts {pre : ℕ} (member : pre ∈ R.shifts) : pre ≤ R.lastShift := by
  unfold RtnCall.shifts at member
  split at member
  · have between := List.mem_range'_1.mp member
    omega
  · exact Nat.le_of_lt_succ (List.mem_range.mp member)

theorem lastShift_le : R.lastShift ≤ R.idx ∧ R.lastShift ≤ 4 := by
  unfold RtnCall.lastShift
  split
  · omega
  · omega

/-- The operand begins with nothing replaced. -/
theorem written_none : s.buf = memcpyTo s.buf start (bytesFrom R.repl 0 0) :=
  (memcpyTo_nil : memcpyTo s.buf start [] = s.buf).symm

variable {pre : ℕ} {shifts : List ℕ}

/-- The mismatch of a match that has not begun. -/
theorem MatchEnds.begin (ends : MatchEnds R buf start count) :
    count ≤ 32 ∨ ∃ m < 32, 0 ≤ m ∧ Mismatch R buf start m := by
  rcases ends with short | ⟨m, small, mismatch⟩
  · exact .inl short
  · exact .inr ⟨m, small, Nat.zero_le m, mismatch⟩

theorem safe_matchShift (small : itsLen ≤ 32) (inside : R.idx + itsLen ≤ R.len)
    (shifted : pre ≤ R.lastShift)
    (ends : R.Tried s.buf pre → MatchEnds R s.buf (R.idx - pre) (itsLen + pre)) :
    Safe (matchShift R itsLen (R.saved itsLen s.buf) pre) s fun _ t => t.buf = s.buf := by
  obtain ⟨fits, four⟩ := lastShift_le (R := R)
  refine Safe.attempt_bind trivial ?_
  dsimp only
  unfold whenever
  split
  next tried =>
    refine (safe_matchBytes (ends tried.2).begin (Nat.zero_add _) (by omega) written_none).bind
      fun last t ⟨few, replaced⟩ => ?_
    refine Safe.attempt ⟨by omega, by omega⟩ (memcpyTo_restores (fun k below => ?_)
      fun p outside => ?_)
    · have inside_save : R.lastShift - pre + k < itsLen + R.lastShift := by omega
      rw [RtnCall.saved, if_pos inside_save]
      congr 1
      omega
    · rw [replaced]
      exact memcpyTo_outside (by rwa [length_bytesFrom])
  next => exact Safe.pure rfl

/-- A shift at which nothing is found. -/
theorem reaches_matchShift (save : Buffer) (small : itsLen ≤ 32) (inside : R.idx + itsLen ≤ R.len)
    (shifted : pre ≤ R.lastShift) (quiet : s.status ≠ 1)
    (ends : R.Tried s.buf pre → MatchEnds R s.buf (R.idx - pre) (itsLen + pre)) :
    ∃ t, Reaches (matchShift R itsLen save pre) s () t ∧ t.status ≠ 1 := by
  obtain ⟨fits, four⟩ := lastShift_le (R := R)
  unfold matchShift whenever
  by_cases tried : s.status ≠ 1 ∧ (pre = 0 ∨
      bytesFrom s.buf (R.idx - pre) pre = bytesFrom R.repl 0 pre)
  · obtain ⟨last, t, matched, none⟩ := reaches_matchBytes s.buf (ends tried.2).begin
      (Nat.zero_add _) (by omega) written_none quiet
    have bound := ((safe_matchBytes (ends tried.2).begin (Nat.zero_add _) (by omega)
      written_none).of_reaches matched).1
    let restored := memcpyTo t.buf (R.idx - pre) (bytesFrom save (R.lastShift - pre) last)
    refine ⟨{ t with buf := restored }, reaches_peek.bind ?_, none⟩
    rw [id, if_pos tried]
    exact matched.bind (Reaches.attempt ⟨by omega, by omega⟩)
  · refine ⟨s, reaches_peek.bind ?_, quiet⟩
    rw [id, if_neg tried]
    exact Reaches.pure

theorem ends_of_safe_matchShift {post : Unit → ItsState → Prop} (quiet : s.status ≠ 1)
    (safe : Safe (matchShift R itsLen save pre) s post) (tried : R.Tried s.buf pre) :
    MatchEnds R s.buf (R.idx - pre) (itsLen + pre) := by
  unfold matchShift whenever at safe
  have body := safe.after reaches_peek
  rw [id, if_pos ⟨quiet, tried⟩] at body
  rcases ends_of_safe_matchBytes (Nat.zero_le 32) (Nat.zero_add _) written_none quiet
    body.first with short | ⟨m, below, -, mismatch⟩
  · exact .inl short
  · exact .inr ⟨m, below, mismatch⟩

/-- All shifts. -/
theorem safe_matchShifts (small : itsLen ≤ 32) (inside : R.idx + itsLen ≤ R.len)
    (same : s.buf = buf) (shifted : ∀ pre ∈ shifts, pre ≤ R.lastShift)
    (ends : ∀ pre ∈ shifts, R.Tried buf pre → MatchEnds R buf (R.idx - pre) (itsLen + pre)) :
    Safe (matchShifts R itsLen (R.saved itsLen buf) shifts) s fun _ t => t.buf = buf := by
  induction shifts generalizing s with
  | nil => exact Safe.pure same
  | cons pre rest ih =>
      rw [List.forall_mem_cons] at shifted ends
      subst same
      refine (safe_matchShift small inside shifted.1 ends.1).bind fun _ t restored => ?_
      exact ih restored shifted.2 ends.2

theorem reaches_matchShifts (small : itsLen ≤ 32) (inside : R.idx + itsLen ≤ R.len)
    (same : s.buf = buf) (quiet : s.status ≠ 1) (shifted : ∀ pre ∈ shifts, pre ≤ R.lastShift)
    (ends : ∀ pre ∈ shifts, R.Tried buf pre → MatchEnds R buf (R.idx - pre) (itsLen + pre)) :
    ∃ t, Reaches (matchShifts R itsLen (R.saved itsLen buf) shifts) s () t ∧ t.status ≠ 1 := by
  induction shifts generalizing s with
  | nil => exact ⟨s, Reaches.pure, quiet⟩
  | cons pre rest ih =>
      rw [List.forall_mem_cons] at shifted ends
      subst same
      obtain ⟨t, first, still⟩ := reaches_matchShift (R.saved itsLen s.buf) small inside
        shifted.1 quiet ends.1
      have restored := (safe_matchShift small inside shifted.1 ends.1).of_reaches first
      obtain ⟨u, others, none⟩ := ih restored still shifted.2 ends.2
      exact ⟨u, first.bind others, none⟩

theorem ends_of_safe_matchShifts {post : Unit → ItsState → Prop} (small : itsLen ≤ 32)
    (inside : R.idx + itsLen ≤ R.len) (same : s.buf = buf) (quiet : s.status ≠ 1)
    (shifted : ∀ pre ∈ shifts, pre ≤ R.lastShift)
    (safe : Safe (matchShifts R itsLen (R.saved itsLen buf) shifts) s post) :
    ∀ pre ∈ shifts, R.Tried buf pre → MatchEnds R buf (R.idx - pre) (itsLen + pre) := by
  induction shifts generalizing s with
  | nil => exact fun _ none => nomatch none
  | cons pre rest ih =>
      rw [List.forall_mem_cons] at shifted
      subst same
      rw [matchShifts] at safe
      have here := ends_of_safe_matchShift quiet safe.first
      obtain ⟨t, first, still⟩ := reaches_matchShift (R.saved itsLen s.buf) small inside
        shifted.1 quiet here
      have restored := (safe_matchShift small inside shifted.1 here).of_reaches first
      exact List.forall_mem_cons.mpr ⟨here, ih restored still shifted.2 (safe.after first)⟩

end Matches

/-! ## The function -/

/-- The matches end before the operands do, and the rounds are put back. -/
structure RtnCall.Restorable (R : RtnCall) (itsLen : ℕ) (buf : Buffer) : Prop where
  matches_end : ∀ pre ∈ R.shifts, R.Tried buf pre → MatchEnds R buf (R.idx - pre) (itsLen + pre)
  rounds : R.enableTransform = true → R.lvl &&& LVL3 ≠ 0 →
    ∀ i < itsLen, RoundRestored R itsLen buf i

section Function

variable (operand : itsLen ≤ 32) (fits : R.idx + itsLen ≤ R.len) (small : R.len ≤ MAX_FILE)

include operand fits small

theorem safe_transformSolving (same : s.buf = buf)
    (restored : ∀ i < itsLen, RoundRestored R itsLen buf i) :
    Safe (transformSolving R itsLen (R.saved itsLen buf)) s fun _ t => t.buf = buf := by
  subst same
  refine Safe.attempt_bind trivial ?_
  refine (safe_transformRounds operand fits small restored (Nat.zero_add _) rfl
    fun _ _ => rfl).bind fun last t ⟨few, agree⟩ => ?_
  refine Safe.attempt ⟨by omega, by omega⟩ (memcpyTo_restores (fun k below => ?_) agree)
  have inside : 0 + k < itsLen := by omega
  rw [RtnCall.savedAgain, if_pos inside, Nat.zero_add]

theorem restored_of_safe_transformSolving (same : s.buf = buf) (quiet : s.status ≠ 1)
    (unchanged : ∀ k < itsLen, R.repl k = R.changedVal k)
    (safe : Safe (transformSolving R itsLen (R.saved itsLen buf)) s fun _ t => t.buf = buf) :
    ∀ i < itsLen, RoundRestored R itsLen buf i := by
  subst same
  unfold transformSolving at safe
  have rounds := safe.after reaches_peek
  intro i below
  refine restored_of_safe_rounds operand fits small unchanged (Nat.zero_add _) rfl
    (fun _ _ => rfl) quiet (rounds.before fun last t left fine => ?_) i (Nat.zero_le i) below
  rw [putBack, Library.attempt] at fine
  split at fine
  next =>
    intro p outside
    rw [← show memcpyTo t.buf R.idx _ = s.buf from fine]
    exact (memcpyTo_outside (by rwa [length_bytesFrom])).symm
  next => cases fine

/-- Both parts put the buffer back exactly if every match and every round does. -/
theorem safe_solveRoutine_iff (quiet : s.status ≠ 1)
    (unchanged : R.lvl &&& LVL3 ≠ 0 → ∀ k < itsLen, R.repl k = R.changedVal k) :
    (Safe (solveRoutine R itsLen) s fun _ t => t.buf = s.buf) ↔ R.Restorable itsLen s.buf := by
  obtain ⟨shift_inside, four⟩ := lastShift_le (R := R)
  have room : R.lastShift ≤ R.idx ∧ R.idx + itsLen ≤ R.len ∧ itsLen + R.lastShift ≤ 80 :=
    ⟨shift_inside, fits, by omega⟩
  constructor
  · intro safe
    unfold solveRoutine whenever at safe
    have body := (safe.after (reaches_demand room)).after reaches_peek
    have ends := ends_of_safe_matchShifts operand fits rfl quiet (fun _ => mem_shifts) body.first
    refine ⟨ends, fun enabled level => ?_⟩
    obtain ⟨t, matched, still⟩ := reaches_matchShifts operand fits rfl quiet (fun _ => mem_shifts)
      ends
    have same := (safe_matchShifts operand fits rfl (fun _ => mem_shifts) ends).of_reaches matched
    have solving := (body.after matched).after reaches_peek
    rw [if_pos ⟨still, enabled, level⟩] at solving
    exact restored_of_safe_transformSolving operand fits small same still (unchanged level) solving
  · rintro ⟨ends, restored⟩
    refine Safe.attempt_bind room (Safe.attempt_bind trivial ?_)
    refine (safe_matchShifts operand fits rfl (fun _ => mem_shifts) ends).bind fun _ t same => ?_
    refine Safe.attempt_bind trivial ?_
    dsimp only
    unfold whenever
    split
    next solving =>
      exact safe_transformSolving operand fits small same (restored solving.2.1 solving.2.2)
    next => exact Safe.pure same

end Function

/-- The operand has no more bytes than the shape says and ends inside the input. -/
theorem itsLen_le (inside : R.Inside) (hshape : ℕ) :
    R.itsLen hshape ≤ hshape ∧ R.idx + R.itsLen hshape ≤ R.len := by
  have index := inside.index
  have small := inside.small
  simp only [MAX_FILE] at small
  have left : u32Sub R.len R.idx = R.len - R.idx := u32Sub_of_le index.le (by omega)
  unfold RtnCall.itsLen
  omega

theorem eq_of_bytesFrom_eq {left right : Buffer} {n : ℕ}
    (same : bytesFrom left 0 n = bytesFrom right 0 n) (k : ℕ) (below : k < n) :
    right k = left k := by
  have byte : (bytesFrom left 0 n)[k]? = (bytesFrom right 0 n)[k]? := by rw [same]
  rw [getElem?_bytesFrom below, getElem?_bytesFrom below, Nat.zero_add] at byte
  exact (Option.some.inj byte).symm

/-- **The buffer is restored and nothing is accessed outside**, for all results of the
executions, exactly if there is nothing to do, or every direct match that is tried ends before the
operands do and every round of the transformations stays inside and leaves the bytes from its own
byte on as they were. -/
theorem rtn_extend_restores_iff (R : RtnCall) (inside : R.Inside) (s : ItsState)
    (shape : s.hshape ≤ 32) (fresh : s.status ≠ 1) :
    (Safe (rtnExtendEncoding R) s fun _ t => t.buf = s.buf) ↔
      (1 < R.itsLen s.hshape →
        (R.lvl &&& LVL3 ≠ 0 →
          bytesFrom R.changedVal 0 (R.itsLen s.hshape) = bytesFrom R.repl 0 (R.itsLen s.hshape)) →
        R.Restorable (R.itsLen s.hshape) s.buf) := by
  obtain ⟨operand, fits⟩ := itsLen_le inside s.hshape
  have operand := operand.trans shape
  have solved_iff (unchanged : R.lvl &&& LVL3 ≠ 0 →
      bytesFrom R.changedVal 0 (R.itsLen s.hshape) = bytesFrom R.repl 0 (R.itsLen s.hshape)) :=
    safe_solveRoutine_iff (s := s) operand fits inside.small fresh fun level =>
      eq_of_bytesFrom_eq (unchanged level)
  constructor
  · intro safe long unchanged
    unfold rtnExtendEncoding at safe
    have body := safe.after reaches_peek
    rw [whenever, if_pos long] at body
    refine (solved_iff unchanged).mp ?_
    have compared : Reaches (whenever (R.lvl &&& LVL3 ≠ 0) (demand (R.itsLen s.hshape ≤ 32))) s ()
        s := by
      unfold whenever
      split
      · exact reaches_demand operand
      · exact Reaches.pure
    have solves := body.after compared
    rwa [whenever, if_pos unchanged] at solves
  · intro restorable
    refine Safe.attempt_bind trivial ?_
    dsimp only
    rw [whenever]
    split
    next long =>
      refine Safe.bind (P := fun _ t => t = s) ?_ fun _ t same => ?_
      · rw [whenever]
        split
        · exact Safe.attempt operand rfl
        · exact Safe.pure rfl
      · subst same
        rw [whenever]
        split
        next unchanged => exact (solved_iff unchanged).mpr (restorable long unchanged)
        next => exact Safe.pure rfl
    next => exact Safe.pure rfl

/-- A routine compares with `AB` what the input was changed to. -/
def compareCall (pattern oPattern origBuf : List Byte) (xtreme : Bool) (taintLen : ℕ) : RtnCall :=
  { enableTransform := true, enableXtremeTransform := xtreme, entry := 0
    o := { v0 := fun i => pattern.getD i 0, v1 := fun i => [65, 66].getD i 0 }
    origO := { v0 := fun i => oPattern.getD i 0, v1 := fun i => [65, 66].getD i 0 }
    idx := 0, taintLen := taintLen, origBuf := fun i => origBuf.getD i 0, len := origBuf.length
    lvl := LVL3, unset := fun _ => 0 }

/-- An input before anything was executed. -/
def inputState (hshape : ℕ) (input : List Byte) : ItsState :=
  { buf := fun i => input.getD i 0, cbuf := fun _ => 0, scratch := fun _ => 0, hshape := hshape,
    status := 0, erange := false, executed := [], finds := [] }

/-- The inputs `ba` and `ab`, of which every byte was changed by an xor with 1. -/
def xorCall : RtnCall := compareCall [96, 99] [99, 96] [98, 97] false 2

/-- A find in the first round leaves the buffer changed, and that round is not restored. -/
theorem rtn_extend_restores_iff_xor :
    (¬ Safe (rtnExtendEncoding xorCall) (inputState 2 [97, 98]) fun _ t =>
        t.buf = (inputState 2 [97, 98]).buf) ∧
      ¬ (1 < xorCall.itsLen 2 →
        (xorCall.lvl &&& LVL3 ≠ 0 → bytesFrom xorCall.changedVal 0 (xorCall.itsLen 2) =
          bytesFrom xorCall.repl 0 (xorCall.itsLen 2)) →
        xorCall.Restorable (xorCall.itsLen 2) (inputState 2 [97, 98]).buf) := by
  have changed : ¬ Safe (rtnExtendEncoding xorCall) (inputState 2 [97, 98]) fun _ t =>
      t.buf = (inputState 2 [97, 98]).buf := by
    intro safe
    obtain ⟨t, run, moved⟩ : ∃ t, rtnExtendEncoding xorCall (inputState 2 [97, 98]) [crashFound] =
        .ok (((), t), []) ∧ t.buf 0 = 64 := ⟨_, rfl, by decide⟩
    rw [safe.returned run] at moved
    exact absurd moved (by decide)
  exact ⟨changed, fun restorable => changed ((rtn_extend_restores_iff xorCall ⟨by decide, by decide⟩
    (inputState 2 [97, 98]) (by decide) (by decide)).mpr restorable)⟩

/-- For `ab` the first byte that is tried is the replaced one changed back, and a find leaves it in
the buffer. For the input `\x6162` with a byte behind it, the digits of `AB` and what lies behind it
are written behind the end. -/
theorem xor_find_remains :
    (∃ t, rtnExtendEncoding xorCall (inputState 2 [97, 98]) [crashFound] = .ok (((), t), []) ∧
      t.buf 0 = 64 ∧ (inputState 2 [97, 98]).buf 0 = 97) ∧
    (rtnExtendEncoding (compareCall [] [] [92, 120, 54, 49, 54, 50, 54] true 4)
      (inputState 4 [92, 120, 54, 49, 54, 50, 54]) (List.replicate 8 nothingFound) matches
        .error .fault) = true :=
  ⟨⟨_, rfl, by decide, by decide⟩, by decide +kernel⟩

end GreenFuzz.Redqueen
