import GreenFuzz.AflFuzz.ExtrasInsert
import GreenFuzz.Library.ByteOrder
import GreenFuzz.Library.Checked

/-!
# Replacing bytes and executing

The functions that solve comparisons all do the same: they replace some bytes of the buffer,
execute the target, copy the replacement to the combined buffer if the execution found
something, and put the old bytes back.

The results of the executions are a supply. An execution that fails makes every function
return 1, which ends the run, so the supply ends there. An access outside a buffer or a local
array is a fault, and so is a call nested more deeply than the fuel allows. `Restores` says that
a part of a function comes to no fault and leaves the buffer and the global `hshape` as they
were if it returns 0.

The combined buffer is `afl->in_scratch_buf`, and `check_if_text` reads a new queue entry into the
same buffer, if the entry is long.

What is executed and what is found is recorded (`executed`, `finds`). No function reads this.
-/

set_option autoImplicit false

namespace GreenFuzz.Redqueen

open Library AflFuzz

/-- The result of an execution that did not fail. -/
structure ExecResult where
  /-- There are more queue entries or crashes than before. -/
  found : Bool
  /-- What was found is a queue entry, whose file can be read. -/
  readable : Bool
  /-- `errno` is `ERANGE` afterwards. -/
  erange : Bool
  deriving DecidableEq, Repr

/-- An execution that finds nothing. -/
def nothingFound : ExecResult := ⟨false, false, false⟩

/-- An execution that ends in a crash nobody has seen. -/
def crashFound : ExecResult := ⟨true, false, false⟩

/-- How an input was made that found something. -/
inductive Site where
  /-- A word was replaced. -/
  | word
  /-- A number in decimal digits was replaced. -/
  | number
  /-- A direct match, whose last replaced byte is at this position. -/
  | direct (last : ℕ)
  /-- A transformation in round `i`, which wrote bytes of this length at the index. They may be
  written over before the round ends, and something else may be executed. -/
  | transform (idx i length : ℕ) (putBack followed : Bool)
  deriving DecidableEq, Repr

/-- A replacement that found something: the buffer before it, the input that was executed, and
the combined buffer before and after the replacement was copied. -/
structure Find where
  site : Site
  before : Buffer
  executed : List Byte
  known : Buffer
  combined : Buffer

/-- The buffers and the globals. -/
structure ItsState where
  buf : Buffer
  cbuf : Buffer
  /-- `afl->out_scratch_buf`. -/
  scratch : Buffer
  hshape : ℕ
  status : ℕ
  erange : Bool
  executed : List (List Byte)
  finds : List Find

/-- A part of a function that executes the target. -/
abbrev Its := Checked ItsState (List ExecResult)

/-! ## Steps -/

/-- Stop at a fault unless a condition holds. -/
def demand (condition : Prop) [Decidable condition] : Its Unit :=
  attempt (fun _ => condition) fun s => ((), s)

/-- Read the state. -/
def peek {α : Type} (read : ItsState → α) : Its α := attempt (fun _ => True) fun s => (read s, s)

/-- Write to the state. -/
def poke (write : ItsState → ItsState) : Its Unit := attempt (fun _ => True) fun s => ((), write s)

/-- `if (condition) { part }`. -/
def whenever (condition : Prop) [Decidable condition] (part : Its Unit) : Its Unit :=
  if condition then part else pure ()

/-- The `n` bytes of the buffer from a position on, as a number. -/
def loadBuf (len n idx : ℕ) : Its (BitVec (8 * n)) :=
  attempt (fun _ => idx + n ≤ len) fun s => (loadAt n s.buf idx, s)

/-- The `n` bytes of another buffer of the same length. -/
def loadOrig (origBuf : Buffer) (len n idx : ℕ) : Its (BitVec (8 * n)) :=
  attempt (fun _ => idx + n ≤ len) fun s => (loadAt n origBuf idx, s)

def storeBuf (len idx : ℕ) {n : ℕ} (word : BitVec (8 * n)) : Its Unit :=
  attempt (fun _ => idx + n ≤ len) fun s => ((), { s with buf := storeAt n s.buf idx word })

/-- The first bytes of a buffer. -/
def inputOf (len : ℕ) (buf : Buffer) : List Byte := (List.range len).map buf

/-- The bytes of a buffer from a position on. -/
def bytesFrom (buf : Buffer) (start count : ℕ) : List Byte :=
  (List.range count).map fun k => buf (start + k)

def AFL_TXT_MIN_LEN : ℕ := 12
def AFL_TXT_MAX_LEN : ℕ := 65535

/-- What `check_if_text` leaves in `afl->in_scratch_buf`. -/
def checkIfText (input : List Byte) (inScratch : Buffer) : Buffer :=
  if input.length < AFL_TXT_MIN_LEN ∨ input.length < AFL_TXT_MAX_LEN then inScratch
  else
    let len := if MAX_FILE ≤ input.length then MAX_FILE - 1 else input.length
    memcpyTo inScratch 0 (input.take len ++ [0])

/-- The combined buffer after an execution. -/
def ExecResult.cbufAfter (result : ExecResult) (input : List Byte) (cbuf : Buffer) : Buffer :=
  if result.found ∧ result.readable then checkIfText input cbuf else cbuf

/-- `its_fuzz`. -/
def itsFuzz (input : List Byte) : Its Unit := do
  let result ← takeHead
  poke fun s => { s with
    status := if result.found then 1 else 2
    erange := result.erange
    cbuf := result.cbufAfter input s.cbuf
    executed := s.executed ++ [input] }

/-- Record what an execution found. -/
def recordFind (site : Site) (before known : Buffer) (input : List Byte) : Its Unit :=
  poke fun s =>
    if s.status = 1 then { s with finds := s.finds ++ [⟨site, before, input, known, s.cbuf⟩] }
    else s

/-- Execute the buffer, and copy a replacement to the combined buffer if it found something. -/
def executeReplaced (len idx : ℕ) {n : ℕ} (word : BitVec (8 * n)) (before : Buffer) : Its Unit := do
  let input ← peek fun s => inputOf len s.buf
  itsFuzz input
  let known ← peek fun s => s.cbuf
  poke fun s => if s.status = 1 then { s with cbuf := storeAt n s.cbuf idx word } else s
  recordFind .word before known input

/-- Replace `n` bytes, which a local array of `room` bytes can hold, execute, and put the old
bytes back. -/
def replaceWord (len idx room : ℕ) {n : ℕ} (word : BitVec (8 * n)) : Its Unit := do
  let before ← peek fun s => s.buf
  let old ← loadBuf len n idx
  demand (n ≤ room)
  storeBuf len idx word
  executeReplaced len idx word before
  storeBuf len idx old

@[simp] theorem length_bytesFrom (buf : Buffer) (start count : ℕ) :
    (bytesFrom buf start count).length = count := by
  rw [bytesFrom, List.length_map, List.length_range]

theorem bytesFrom_succ (buf : Buffer) (start count : ℕ) :
    bytesFrom buf start (count + 1) = buf start :: bytesFrom buf (start + 1) count := by
  rw [bytesFrom, List.range_succ_eq_map, List.map_cons, List.map_map, bytesFrom, Nat.add_zero]
  congr 1
  apply List.map_congr_left
  intro k _
  rw [Function.comp_apply, Nat.succ_eq_add_one, Nat.add_right_comm, Nat.add_assoc]

/-! ## What is left as it was -/

/-- The buffer and the shape are the same, and so is the shape's bound. -/
structure Kept (s t : ItsState) : Prop where
  buf : t.buf = s.buf
  hshape : t.hshape = s.hshape

theorem Kept.refl (s : ItsState) : Kept s s := ⟨rfl, rfl⟩

theorem Kept.trans {s t u : ItsState} (first : Kept s t) (second : Kept t u) : Kept s u :=
  ⟨second.buf.trans first.buf, second.hshape.trans first.hshape⟩

/-- The part comes to no fault, and keeps the buffer and a shape of at most 16 bytes. -/
def Restores {α : Type} (part : Its α) : Prop :=
  ∀ s, s.hshape ≤ 16 → Safe part s fun _ t => Kept s t

section Rules

variable {α β : Type} {part : Its α} {next : α → Its β} {len n idx : ℕ}

theorem Restores.pure (a : α) : Restores (Pure.pure a : Its α) :=
  fun s _ => Safe.pure (Kept.refl s)

theorem Restores.bind (first : Restores part) (rest : ∀ a, Restores (next a)) :
    Restores (part >>= next) := by
  intro s small
  refine (first s small).bind fun a t kept => ?_
  have still : t.hshape ≤ 16 := kept.hshape.trans_le small
  exact (rest a t still).mono fun _ u kept' => kept.trans kept'

theorem Restores.peek_bind {read : ItsState → α}
    (rest : ∀ s, s.hshape ≤ 16 → Restores (next (read s))) : Restores (peek read >>= next) :=
  fun s small => Safe.attempt_bind trivial (rest s small s small)

theorem Restores.demand_bind {condition : Prop} [Decidable condition] {next : Unit → Its β}
    (holds : condition) (rest : Restores (next ())) : Restores (demand condition >>= next) :=
  fun s small => Safe.attempt_bind holds (rest s small)

theorem Restores.loadBuf_bind {next : BitVec (8 * n) → Its β} (inside : idx + n ≤ len)
    (rest : ∀ word, Restores (next word)) : Restores (loadBuf len n idx >>= next) :=
  fun s small => Safe.attempt_bind inside (rest _ s small)

theorem Restores.loadOrig_bind {origBuf : Buffer} {next : BitVec (8 * n) → Its β}
    (inside : idx + n ≤ len) (rest : ∀ word, Restores (next word)) :
    Restores (loadOrig origBuf len n idx >>= next) :=
  fun s small => Safe.attempt_bind inside (rest _ s small)

theorem Restores.whenever {condition : Prop} [Decidable condition] {part : Its Unit}
    (restores : condition → Restores part) : Restores (whenever condition part) := by
  unfold Redqueen.whenever
  split
  next holds => exact restores holds
  next => exact Restores.pure ()

/-- A write that concerns neither the buffer nor the shape. -/
theorem Restores.poke {write : ItsState → ItsState} (keeps : ∀ s, Kept s (write s)) :
    Restores (poke write) :=
  fun s _ => Safe.attempt trivial (keeps s)

theorem restores_itsFuzz (input : List Byte) : Restores (itsFuzz input) := by
  intro s small
  refine Safe.bind (P := fun _ t => t = s) (Safe.takeFrom fun _ _ _ _ => rfl) ?_
  rintro result t rfl
  exact Safe.attempt trivial ⟨rfl, rfl⟩

theorem restores_recordFind (site : Site) (before known : Buffer) (input : List Byte) :
    Restores (recordFind site before known input) := by
  refine Restores.poke fun s => ?_
  split
  · exact ⟨rfl, rfl⟩
  · exact Kept.refl s

theorem restores_executeReplaced (word : BitVec (8 * n)) (before : Buffer) :
    Restores (executeReplaced len idx word before) := by
  refine Restores.peek_bind fun s _ => (restores_itsFuzz _).bind fun _ => ?_
  refine Restores.peek_bind fun s _ => ?_
  refine Restores.bind (Restores.poke fun s => ?_) fun _ => restores_recordFind _ _ _ _
  split
  · exact ⟨rfl, rfl⟩
  · exact Kept.refl s

/-- Writing back what was read undoes a replacement. -/
theorem storeAt_undo (buf : Buffer) (idx : ℕ) (word : BitVec (8 * n)) :
    storeAt n (storeAt n buf idx word) idx (loadAt n buf idx) = buf := by
  funext address
  by_cases inside : idx ≤ address ∧ address < idx + n
  · obtain ⟨offset, rfl⟩ := Nat.exists_eq_add_of_le inside.1
    have below : offset < n := by omega
    rw [storeAt_inside _ _ _ below, byteOf_loadAt _ _ below]
  · have outside : address < idx ∨ idx + n ≤ address := by omega
    rw [storeAt_outside _ _ _ outside, storeAt_outside _ _ _ outside]

/-- A replacement inside the buffer is put back. -/
theorem restores_replaceWord {room : ℕ} (inside : idx + n ≤ len) (fits : n ≤ room)
    (word : BitVec (8 * n)) : Restores (replaceWord len idx room word) := by
  intro s small
  refine Safe.attempt_bind trivial (Safe.attempt_bind inside (Safe.attempt_bind fits
    (Safe.attempt_bind inside ?_)))
  have executes : Restores (executeReplaced len idx word s.buf) := restores_executeReplaced _ _
  refine (executes { s with buf := storeAt n s.buf idx word } small).bind fun _ t executed => ?_
  refine Safe.attempt inside ⟨?_, executed.hshape⟩
  show storeAt n t.buf idx _ = s.buf
  rw [executed.buf]
  exact storeAt_undo s.buf idx word

end Rules

/-! ## What a run leads to -/

/-- Every run of the part that returns 0 leads from a state to a related one. -/
def Leads {α : Type} (R : ItsState → ItsState → Prop) (part : Its α) : Prop :=
  ∀ s supply a t left, part s supply = .ok ((a, t), left) → R s t

section Leads

variable {R : ItsState → ItsState → Prop} {α β : Type} {part : Its α} {next : α → Its β}
  {len n idx : ℕ}

theorem Leads.pure (refl : ∀ s, R s s) (a : α) : Leads R (Pure.pure a : Its α) := by
  intro s supply b t left run
  cases run
  exact refl s

variable {s t : ItsState} {supply left : List ExecResult} {condition : Prop}

/-- A run of a sequence is a run of the first part and one of the rest. -/
theorem run_bind_ok {b : β} (run : (part >>= next) s supply = .ok ((b, t), left)) :
    ∃ a u middle, part s supply = .ok ((a, u), middle) ∧ next a u middle = .ok ((b, t), left) := by
  simp only [Bind.bind, StateT.bind, Except.bind] at run
  cases first : part s supply with
  | error halt =>
      rw [first] at run
      cases run
  | ok result =>
      rw [first] at run
      exact ⟨result.1.1, result.1.2, result.2, rfl, run⟩

theorem Leads.bind (trans : ∀ s t u, R s t → R t u → R s u) (first : Leads R part)
    (rest : ∀ a, Leads R (next a)) : Leads R (part >>= next) := by
  intro s supply b t left run
  obtain ⟨a, u, middle, run_first, run_rest⟩ := run_bind_ok run
  exact trans s u t (first s supply a u middle run_first) (rest a u middle b t left run_rest)

/-- A step that was allowed. -/
theorem run_attempt_ok {allowed : ItsState → Prop} [DecidablePred allowed]
    {step : ItsState → α × ItsState} {a : α}
    (run : attempt allowed step s supply = .ok ((a, t), left)) :
    allowed s ∧ step s = (a, t) ∧ supply = left := by
  simp only [attempt] at run
  split at run
  next may =>
      obtain ⟨result, same⟩ := Prod.mk.inj (Except.ok.inj run)
      exact ⟨may, result, same⟩
  next => cases run

/-- A step that is a step for the relation. -/
theorem Leads.attempt {allowed : ItsState → Prop} [DecidablePred allowed]
    {step : ItsState → α × ItsState} (related : ∀ s, allowed s → R s (step s).2) :
    Leads R (Library.attempt allowed step : Its α) := by
  intro s supply a t left run
  obtain ⟨may, result, -⟩ := run_attempt_ok run
  have step_related := related s may
  rwa [result] at step_related

/-- What always comes to a fault never returns. -/
theorem Leads.stopped : Leads R (demand False) := by
  intro s supply a t left run
  obtain ⟨never, -⟩ := run_attempt_ok run
  exact never.elim

/-- A step that only reads, and the rest. -/
theorem Leads.read_bind {allowed : ItsState → Prop} [DecidablePred allowed] {read : ItsState → α}
    (rest : ∀ a, Leads R (next a)) :
    Leads R ((Library.attempt allowed fun s => (read s, s)) >>= next) := by
  intro s supply b t left run
  obtain ⟨a, u, middle, run_first, run_rest⟩ := run_bind_ok run
  obtain ⟨-, result, -⟩ := run_attempt_ok run_first
  obtain ⟨rfl, rfl⟩ := Prod.mk.inj result
  exact rest (read s) s middle b t left run_rest

/-- A condition in a run. -/
theorem run_demand_bind [Decidable condition] {next : Unit → Its β} {b : β}
    (run : (demand condition >>= next) s supply = .ok ((b, t), left)) :
    condition ∧ next () s supply = .ok ((b, t), left) := by
  obtain ⟨_, _, _, run_first, run_rest⟩ := run_bind_ok run
  obtain ⟨holds, result, rfl⟩ := run_attempt_ok run_first
  obtain ⟨-, rfl⟩ := Prod.mk.inj result
  exact ⟨holds, run_rest⟩

/-- A read in a run. -/
theorem run_peek_bind {read : ItsState → α} {b : β}
    (run : (peek read >>= next) s supply = .ok ((b, t), left)) :
    next (read s) s supply = .ok ((b, t), left) := by
  obtain ⟨a, u, middle, run_first, run_rest⟩ := run_bind_ok run
  obtain ⟨-, result, rfl⟩ := run_attempt_ok run_first
  obtain ⟨rfl, rfl⟩ := Prod.mk.inj result
  exact run_rest

/-- A write in a run. -/
theorem run_poke_bind {write : ItsState → ItsState} {next : Unit → Its β} {b : β}
    (run : (poke write >>= next) s supply = .ok ((b, t), left)) :
    next () (write s) supply = .ok ((b, t), left) := by
  obtain ⟨a, u, middle, run_first, run_rest⟩ := run_bind_ok run
  obtain ⟨-, result, rfl⟩ := run_attempt_ok run_first
  obtain ⟨rfl, rfl⟩ := Prod.mk.inj result
  exact run_rest

theorem run_poke {write : ItsState → ItsState} {u : Unit}
    (run : poke write s supply = .ok ((u, t), left)) : t = write s ∧ supply = left := by
  obtain ⟨-, result, same⟩ := run_attempt_ok run
  exact ⟨(Prod.mk.inj result).2.symm, same⟩

/-- Either the part was run, or nothing was done. -/
theorem run_whenever [Decidable condition] {part : Its Unit} {u : Unit}
    (run : whenever condition part s supply = .ok ((u, t), left)) :
    condition ∧ part s supply = .ok ((u, t), left) ∨ ¬ condition ∧ t = s ∧ left = supply := by
  unfold whenever at run
  split at run
  next holds => exact .inl ⟨holds, run⟩
  next fails =>
      cases run
      exact .inr ⟨fails, rfl, rfl⟩

theorem Leads.whenever (refl : ∀ s, R s s) [Decidable condition] {part : Its Unit}
    (leads : Leads R part) : Leads R (whenever condition part) := by
  unfold Redqueen.whenever
  split
  · exact leads
  · exact Leads.pure refl ()

end Leads

/-! ## What an execution does -/

section Executions

variable {s t : ItsState} {supply left : List ExecResult} {u : Unit}

theorem run_itsFuzz {input : List Byte} (run : itsFuzz input s supply = .ok ((u, t), left)) :
    ∃ result, supply = result :: left ∧
      t = { s with status := if result.found then 1 else 2, erange := result.erange,
                   cbuf := result.cbufAfter input s.cbuf,
                   executed := s.executed ++ [input] } := by
  obtain ⟨result, state, middle, run_take, run_poke'⟩ := run_bind_ok run
  obtain ⟨rfl, rfl⟩ := run_poke run_poke'
  cases supply with
  | nil => cases run_take
  | cons first rest =>
      cases run_take
      exact ⟨result, rfl, rfl⟩

/-- An execution and its record, where the combined buffer is dealt with in between. -/
theorem run_recordFind {site : Site} {before known : Buffer} {input : List Byte}
    (run : recordFind site before known input s supply = .ok ((u, t), left)) :
    supply = left ∧
      t = { s with finds := if s.status = 1 then s.finds ++ [⟨site, before, input, known, s.cbuf⟩]
                            else s.finds } := by
  obtain ⟨rfl, same⟩ := run_poke run
  refine ⟨same, ?_⟩
  split <;> rfl

theorem run_executeReplaced {len idx n : ℕ} {word : BitVec (8 * n)} {before : Buffer}
    (run : executeReplaced len idx word before s supply = .ok ((u, t), left)) :
    ∃ result known, supply = result :: left ∧
      known = result.cbufAfter (inputOf len s.buf) s.cbuf ∧
      t = { s with
        status := if result.found then 1 else 2
        erange := result.erange
        executed := s.executed ++ [inputOf len s.buf]
        cbuf := if result.found then storeAt n known idx word else known
        finds := if result.found then
            s.finds ++ [⟨.word, before, inputOf len s.buf, known, storeAt n known idx word⟩]
          else s.finds } := by
  have run := run_peek_bind run
  obtain ⟨_, v, middle, run_fuzz, run_rest⟩ := run_bind_ok run
  obtain ⟨result, rfl, rfl⟩ := run_itsFuzz run_fuzz
  have run_rest := run_peek_bind run_rest
  obtain ⟨rfl, rfl⟩ := run_recordFind (run_poke_bind run_rest)
  refine ⟨result, _, rfl, rfl, ?_⟩
  cases result.found <;> rfl

/-- A replacement executes the buffer with the word in it, and copies the word to the combined
buffer if this found something. -/
theorem run_replaceWord {len idx room n : ℕ} {word : BitVec (8 * n)}
    (run : replaceWord len idx room word s supply = .ok ((u, t), left)) :
    ∃ result input known, supply = result :: left ∧
      input = inputOf len (storeAt n s.buf idx word) ∧ known = result.cbufAfter input s.cbuf ∧
      t = { s with
        status := if result.found then 1 else 2
        erange := result.erange
        executed := s.executed ++ [input]
        cbuf := if result.found then storeAt n known idx word else known
        finds := if result.found then
            s.finds ++ [⟨.word, s.buf, input, known, storeAt n known idx word⟩]
          else s.finds } := by
  have run := run_peek_bind run
  obtain ⟨_, _, _, run_load, run⟩ := run_bind_ok run
  obtain ⟨-, loaded, rfl⟩ := run_attempt_ok run_load
  obtain ⟨rfl, rfl⟩ := Prod.mk.inj loaded
  obtain ⟨-, run⟩ := run_demand_bind run
  obtain ⟨_, _, _, run_store, run⟩ := run_bind_ok run
  obtain ⟨-, stored, rfl⟩ := run_attempt_ok run_store
  obtain ⟨-, rfl⟩ := Prod.mk.inj stored
  obtain ⟨_, _, _, run_execute, run⟩ := run_bind_ok run
  obtain ⟨result, known, rfl, same, rfl⟩ := run_executeReplaced run_execute
  obtain ⟨-, restored, rfl⟩ := run_attempt_ok run
  obtain ⟨-, rfl⟩ := Prod.mk.inj restored
  refine ⟨result, _, known, rfl, rfl, same, ?_⟩
  rw [storeAt_undo]

end Executions

end GreenFuzz.Redqueen
