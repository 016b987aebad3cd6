import GreenFuzz.Redqueen.ItsFuzz

/-!
# Runs without finds

As long as no execution finds anything, the solvers give back the buffer and the shape, and their
status is never that of a find. What such a run executes does not depend on anything else (`Tries`),
so that two parts can be compared by what they execute (`Balanced`).
-/

set_option autoImplicit false

namespace GreenFuzz.Redqueen

open Library AflFuzz

/-- None of the executions finds anything. -/
def Quiet (results : List ExecResult) : Prop := ∀ result ∈ results, result.found = false

/-- A state with this buffer and this shape in which nothing was found. -/
structure At (buf : Buffer) (hshape : ℕ) (s : ItsState) : Prop where
  buf : s.buf = buf
  hshape : s.hshape = hshape
  status : s.status ≠ 1

/-- From every such state, if nothing is found, the part executes these inputs and ends at such a
state with this result. -/
def Tries {α : Type} (buf : Buffer) (hshape : ℕ) (part : Its α) (a : α)
    (made : List (List Byte)) : Prop :=
  ∀ s, At buf hshape s → ∀ results, Quiet results → results.length = made.length →
    ∃ t, At buf hshape t ∧ t.executed = s.executed ++ made ∧
      ∀ left, part s (results ++ left) = .ok ((a, t), left)

section Rules

variable {buf : Buffer} {hshape : ℕ} {α β : Type} {part : Its α} {next : α → Its β} {a : α} {b : β}
  {made rest : List (List Byte)} {len n idx : ℕ}

theorem Tries.pure (a : α) : Tries buf hshape (Pure.pure a : Its α) a [] := by
  intro s here results _ none
  obtain rfl := List.eq_nil_of_length_eq_zero none
  exact ⟨s, here, (List.append_nil _).symm, fun _ => rfl⟩

theorem Tries.bind (first : Tries buf hshape part a made)
    (second : Tries buf hshape (next a) b rest) :
    Tries buf hshape (part >>= next) b (made ++ rest) := by
  intro s here results quiet length
  rw [List.length_append] at length
  obtain ⟨early, late, rfl, early_length⟩ : ∃ early late, results = early ++ late ∧
      early.length = made.length :=
    ⟨results.take made.length, results.drop made.length, (List.take_append_drop _ _).symm, by
      rw [List.length_take]
      omega⟩
  rw [List.length_append] at length
  obtain ⟨t, there, executed, run⟩ := first s here early
    (fun result member => quiet result (List.mem_append_left _ member)) early_length
  obtain ⟨u, at_end, executed', run'⟩ := second t there late
    (fun result member => quiet result (List.mem_append_right _ member)) (by omega)
  refine ⟨u, at_end, by rw [executed', executed, List.append_assoc], fun left => ?_⟩
  rw [List.append_assoc, run_bind (run (late ++ left))]
  exact run' left

/-- A step that only reads. -/
theorem Tries.read_bind {allowed : ItsState → Prop} [DecidablePred allowed] {read : ItsState → α}
    (may : ∀ s, At buf hshape s → allowed s)
    (tries : ∀ s, At buf hshape s → Tries buf hshape (next (read s)) b made) :
    Tries buf hshape (attempt allowed (fun s => (read s, s)) >>= next) b made := by
  intro s here results quiet length
  obtain ⟨t, there, executed, run⟩ := tries s here s here results quiet length
  refine ⟨t, there, executed, fun left => ?_⟩
  have step : attempt allowed (fun s => (read s, s)) s (results ++ left) =
      .ok ((read s, s), results ++ left) := run_attempt (may s here)
  rw [run_bind step]
  exact run left

/-- Where all that is read leads to the same. -/
theorem Tries.peek_bind {read : ItsState → α} {fixed : Its β}
    (same : ∀ s, At buf hshape s → next (read s) = fixed) (tries : Tries buf hshape fixed b made) :
    Tries buf hshape (peek read >>= next) b made :=
  Tries.read_bind (fun _ _ => trivial) fun s here => by rwa [same s here]

theorem Tries.demand_bind {condition : Prop} [Decidable condition] {next : Unit → Its β}
    (holds : condition) (tries : Tries buf hshape (next ()) b made) :
    Tries buf hshape (demand condition >>= next) b made :=
  Tries.read_bind (fun _ _ => holds) fun _ _ => tries

theorem Tries.loadBuf_bind {next : BitVec (8 * n) → Its β} (inside : idx + n ≤ len)
    (tries : Tries buf hshape (next (loadAt n buf idx)) b made) :
    Tries buf hshape (loadBuf len n idx >>= next) b made :=
  Tries.read_bind (fun _ _ => inside) fun _ here => by rwa [here.buf]

theorem Tries.loadOrig_bind {origBuf : Buffer} {next : BitVec (8 * n) → Its β}
    (inside : idx + n ≤ len) (tries : Tries buf hshape (next (loadAt n origBuf idx)) b made) :
    Tries buf hshape (loadOrig origBuf len n idx >>= next) b made :=
  Tries.read_bind (fun _ _ => inside) fun _ _ => tries

/-- A write that concerns neither the buffer nor the shape, and does not look like a find. -/
theorem Tries.poke {write : ItsState → ItsState}
    (keeps : ∀ s, At buf hshape s → At buf hshape (write s))
    (executed : ∀ s, (write s).executed = s.executed) :
    Tries buf hshape (poke write) () [] := by
  intro s here results _ none
  obtain rfl := List.eq_nil_of_length_eq_zero none
  exact ⟨write s, keeps s here, by rw [executed, List.append_nil], fun _ => rfl⟩

/-- A replacement executes the buffer with the word in it. -/
theorem Tries.replaceWord {room : ℕ} (inside : idx + n ≤ len) (fits : n ≤ room)
    (word : BitVec (8 * n)) :
    Tries buf hshape (replaceWord len idx room word) () [inputOf len (storeAt n buf idx word)] := by
  intro s here results quiet length
  obtain ⟨result, rfl⟩ := List.length_eq_one_iff.mp length
  have nothing : result.found = false := quiet result List.mem_cons_self
  obtain ⟨t, run⟩ : ∃ t, ∀ left,
      Redqueen.replaceWord len idx room word s ([result] ++ left) = .ok (((), t), left) := by
    refine ⟨?_, fun left => ?_⟩
    rotate_left
    · simp only [Redqueen.replaceWord, executeReplaced, itsFuzz, recordFind, peek, Redqueen.poke,
        loadBuf, storeBuf, demand, attempt, takeHead, takeFrom, Bind.bind, StateT.bind, Except.bind,
        if_true, if_pos inside, if_pos fits, List.cons_append, List.nil_append]
      rfl
  obtain ⟨result', input, known, taken, input_eq, -, rfl⟩ := run_replaceWord (run [])
  obtain ⟨rfl, -⟩ := List.cons.inj taken
  refine ⟨_, ?_, ?_, run⟩
  · refine ⟨here.buf, here.hshape, ?_⟩
    rw [nothing]
    show (2 : ℕ) ≠ 1
    decide
  · rw [input_eq, here.buf]

theorem whenever_congr {condition condition' : Prop} [Decidable condition] [Decidable condition']
    (same : condition ↔ condition') (part : Its Unit) :
    whenever condition part = whenever condition' part := by
  rw [whenever, whenever]
  exact if_congr same rfl rfl

theorem Tries.whenever_of {condition : Prop} [Decidable condition] {part : Its Unit}
    (holds : condition) (tries : Tries buf hshape part () made) :
    Tries buf hshape (whenever condition part) () made := by
  rwa [whenever, if_pos holds]

theorem Tries.whenever_of_not {condition : Prop} [Decidable condition] {part : Its Unit}
    (fails : ¬ condition) : Tries buf hshape (whenever condition part) () [] := by
  rw [whenever, if_neg fails]
  exact Tries.pure ()

end Rules

/-! ## Two parts that execute the same -/

/-- Without finds, both parts return the same and execute the same inputs, in some order. -/
def Balanced {α : Type} (buf : Buffer) (hshape : ℕ) (part part' : Its α) : Prop :=
  ∃ a made made', Tries buf hshape part a made ∧ Tries buf hshape part' a made' ∧ made.Perm made'

namespace Balanced

variable {buf : Buffer} {hshape : ℕ} {α β : Type} {part part' : Its α} {next next' : α → Its β}
  {len n idx : ℕ}

theorem pure (a : α) : Balanced buf hshape (Pure.pure a : Its α) (Pure.pure a) :=
  ⟨a, [], [], Tries.pure a, Tries.pure a, List.Perm.refl _⟩

theorem bind (first : Balanced buf hshape part part')
    (rest : ∀ a, Balanced buf hshape (next a) (next' a)) :
    Balanced buf hshape (part >>= next) (part' >>= next') := by
  obtain ⟨a, made, made', tries, tries', perm⟩ := first
  obtain ⟨b, more, more', tries_rest, tries_rest', perm_rest⟩ := rest a
  exact ⟨b, _, _, tries.bind tries_rest, tries'.bind tries_rest', perm.append perm_rest⟩

theorem peek_bind {read : ItsState → α} {fixed fixed' : Its β}
    (same : ∀ s, At buf hshape s → next (read s) = fixed)
    (same' : ∀ s, At buf hshape s → next' (read s) = fixed')
    (balanced : Balanced buf hshape fixed fixed') :
    Balanced buf hshape (peek read >>= next) (peek read >>= next') := by
  obtain ⟨b, made, made', tries, tries', perm⟩ := balanced
  exact ⟨b, made, made', tries.peek_bind same, tries'.peek_bind same', perm⟩

theorem loadBuf_bind {next next' : BitVec (8 * n) → Its β} (inside : idx + n ≤ len)
    (balanced : Balanced buf hshape (next (loadAt n buf idx)) (next' (loadAt n buf idx))) :
    Balanced buf hshape (loadBuf len n idx >>= next) (loadBuf len n idx >>= next') := by
  obtain ⟨b, made, made', tries, tries', perm⟩ := balanced
  exact ⟨b, made, made', tries.loadBuf_bind inside, tries'.loadBuf_bind inside, perm⟩

theorem loadOrig_bind {origBuf : Buffer} {next next' : BitVec (8 * n) → Its β}
    (inside : idx + n ≤ len)
    (balanced : Balanced buf hshape (next (loadAt n origBuf idx)) (next' (loadAt n origBuf idx))) :
    Balanced buf hshape (loadOrig origBuf len n idx >>= next)
      (loadOrig origBuf len n idx >>= next') := by
  obtain ⟨b, made, made', tries, tries', perm⟩ := balanced
  exact ⟨b, made, made', tries.loadOrig_bind inside, tries'.loadOrig_bind inside, perm⟩

theorem demand_bind {condition : Prop} [Decidable condition] {next next' : Unit → Its β}
    (holds : condition) (balanced : Balanced buf hshape (next ()) (next' ())) :
    Balanced buf hshape (demand condition >>= next) (demand condition >>= next') := by
  obtain ⟨b, made, made', tries, tries', perm⟩ := balanced
  exact ⟨b, made, made', tries.demand_bind holds, tries'.demand_bind holds, perm⟩

theorem whenever {condition condition' : Prop} [Decidable condition] [Decidable condition']
    {part part' : Its Unit} (same : condition ↔ condition')
    (balanced : condition → Balanced buf hshape part part') :
    Balanced buf hshape (whenever condition part) (Redqueen.whenever condition' part') := by
  by_cases holds : condition
  · obtain ⟨⟨⟩, made, made', tries, tries', perm⟩ := balanced holds
    exact ⟨(), made, made', tries.whenever_of holds, tries'.whenever_of (same.mp holds), perm⟩
  · have fails := mt same.mpr holds
    exact ⟨(), [], [], Tries.whenever_of_not holds, Tries.whenever_of_not fails, List.Perm.refl _⟩

/-- Both do nothing. -/
theorem idle {condition condition' : Prop} [Decidable condition] [Decidable condition']
    {part part' : Its Unit} (fails : ¬ condition) (fails' : ¬ condition') :
    Balanced buf hshape (Redqueen.whenever condition part) (Redqueen.whenever condition' part') :=
  whenever (iff_of_false fails fails') fun holds => absurd holds fails

theorem replaceWord {room : ℕ} (inside : idx + n ≤ len) (fits : n ≤ room) (word : BitVec (8 * n)) :
    Balanced buf hshape (replaceWord len idx room word) (Redqueen.replaceWord len idx room word) :=
  ⟨(), _, _, Tries.replaceWord inside fits word, Tries.replaceWord inside fits word,
    List.Perm.refl _⟩

end Balanced

end GreenFuzz.Redqueen
