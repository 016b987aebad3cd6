import GreenFuzz.AflFuzz.DryRun
import GreenFuzz.AflFuzz.SlotCounts

/-!
# Which duplicates are dropped

The pass over the duplicates keeps, of the seeds with one checksum, the shortest, and of several
shortest the first. It disables the others and no other entry (`dropDuplicates_disabled_iff`).
The slots of the map stay with their owners, also with those that are disabled
(`drops_dropDuplicates`).
-/

set_option autoImplicit false

namespace GreenFuzz.AflFuzz

open Library

variable {before middle after afl start : AflState} {idx q r n : ℕ}

/-- Seed `r` is kept before seed `q`: their checksums are the same, and `r` is shorter, or as long
and earlier. -/
structure Supersedes (afl : AflState) (r q : ℕ) : Prop where
  queued : r < afl.queuedItems
  comparable : (afl.queueBuf r).comparable = true
  comparable' : (afl.queueBuf q).comparable = true
  cksum : (afl.queueBuf r).execCksum = (afl.queueBuf q).execCksum
  shorter : (afl.queueBuf r).len < (afl.queueBuf q).len ∨
    (afl.queueBuf r).len = (afl.queueBuf q).len ∧ r < q

/-- Another seed is kept before this one. -/
def Superseded (afl : AflState) (q : ℕ) : Prop := ∃ r, Supersedes afl r q

theorem Supersedes.trans (first : Supersedes afl r q) (second : Supersedes afl idx r) :
    Supersedes afl idx q where
  queued := second.queued
  comparable := second.comparable
  comparable' := first.comparable'
  cksum := second.cksum.trans first.cksum
  shorter := by
    rcases first.shorter with _ | _ <;> rcases second.shorter with _ | _ <;> omega

theorem Supersedes.irrefl (same : Supersedes afl q q) : False := by
  rcases same.shorter with _ | _ <;> omega

/-- Of the seeds that are kept before a given one, one is kept before all others. -/
theorem Superseded.exists_kept (superseded : Superseded afl q) :
    ∃ r, Supersedes afl r q ∧ ¬ Superseded afl r := by
  obtain ⟨r, first⟩ := superseded
  -- induction on the length of the seed, then on its index
  induction measure : (afl.queueBuf r).len using Nat.strong_induction_on generalizing r with
  | _ len shorter =>
      induction r using Nat.strong_induction_on with
      | _ r earlier =>
          by_cases kept : Superseded afl r
          · obtain ⟨s, better⟩ := kept
            rcases better.shorter with less | ⟨same, early⟩
            · exact shorter _ (measure ▸ less) s (first.trans better) rfl
            · exact earlier s early (first.trans better) (same.trans measure)
          · exact ⟨r, first, kept⟩

/-! ## What the pass changes -/

/-- Entries are retired and disabled, and nothing else that matters changes. -/
structure Drops (before after : AflState) : Prop where
  items : after.queuedItems = before.queuedItems
  slots : SameSlots before after
  changed : after.scoreChanged = before.scoreChanged
  mode : after.nonInstrumentedMode = before.nonInstrumentedMode
  len : ∀ p, (after.queueBuf p).len = (before.queueBuf p).len
  cksum : ∀ p, (after.queueBuf p).execCksum = (before.queueBuf p).execCksum
  calFailed : ∀ p, (after.queueBuf p).calFailed = (before.queueBuf p).calFailed
  execUs : ∀ p, (after.queueBuf p).execUs = (before.queueBuf p).execUs
  disabled : ∀ p, (before.queueBuf p).disabled = true → (after.queueBuf p).disabled = true

theorem Drops.refl (afl : AflState) : Drops afl afl :=
  ⟨rfl, SameSlots.refl afl, rfl, rfl, fun _ => rfl, fun _ => rfl, fun _ => rfl, fun _ => rfl,
    fun _ => id⟩

theorem Drops.trans (first : Drops before middle) (second : Drops middle after) :
    Drops before after where
  items := second.items.trans first.items
  slots := first.slots.trans second.slots
  changed := second.changed.trans first.changed
  mode := second.mode.trans first.mode
  len p := (second.len p).trans (first.len p)
  cksum p := (second.cksum p).trans (first.cksum p)
  calFailed p := (second.calFailed p).trans (first.calFailed p)
  execUs p := (second.execUs p).trans (first.execUs p)
  disabled p was := second.disabled p (first.disabled p was)

/-- A change of one entry that retires or disables it. -/
theorem drops_modifyEntry (afl : AflState) (q : ℕ) (change : QueueEntry → QueueEntry)
    (keeps : ∀ e : QueueEntry, ∃ fuzzed score, change e =
      { e with wasFuzzed := fuzzed, disabled := (change e).disabled, perfScore := score })
    (disabled : ∀ e : QueueEntry, e.disabled = true → (change e).disabled = true) :
    Drops afl (afl.modifyEntry q change) := by
  have field {α : Type} (f : QueueEntry → α)
      (ignores : ∀ (e : QueueEntry) fuzzed flag score,
        f { e with wasFuzzed := fuzzed, disabled := flag, perfScore := score } = f e) (p : ℕ) :
      f ((afl.modifyEntry q change).queueBuf p) = f (afl.queueBuf p) := by
    refine AflState.modifyEntry_keeps afl q change f ?_ p
    obtain ⟨fuzzed, score, shape⟩ := keeps (afl.queueBuf q)
    rw [shape]
    exact ignores _ _ _ _
  refine ⟨rfl, ⟨rfl, rfl, field QueueEntry.tcRef fun _ _ _ _ => rfl,
    field QueueEntry.traceMini fun _ _ _ _ => rfl⟩, rfl, rfl,
    field QueueEntry.len fun _ _ _ _ => rfl,
    field QueueEntry.execCksum fun _ _ _ _ => rfl, field QueueEntry.calFailed fun _ _ _ _ => rfl,
    field QueueEntry.execUs fun _ _ _ _ => rfl, fun p was => ?_⟩
  by_cases same : p = q
  · subst same
    rw [AflState.modifyEntry_queueBuf_self]
    exact disabled _ was
  · rwa [AflState.modifyEntry_queueBuf_of_ne _ _ _ same]

theorem drops_retireEntry (afl : AflState) (q : ℕ) : Drops afl (retireEntry afl q) := by
  have marked := drops_modifyEntry afl q (fun e => { e with wasFuzzed := true })
    (fun e => ⟨true, e.perfScore, rfl⟩) fun _ => id
  unfold retireEntry
  split
  · exact ⟨rfl, ⟨rfl, rfl, marked.slots.tcRef, marked.slots.traceMini⟩, rfl, rfl, marked.len,
      marked.cksum, marked.calFailed, marked.execUs, marked.disabled⟩
  · exact Drops.refl afl

theorem drops_disableEntry (afl : AflState) (q : ℕ) : Drops afl (disableEntry afl q) :=
  drops_modifyEntry afl q _ (fun e => ⟨e.wasFuzzed, 0, rfl⟩) fun _ _ => rfl

theorem Drops.comparable (drops : Drops before after)
    (comparable : (after.queueBuf q).comparable = true) :
    (before.queueBuf q).comparable = true := by
  simp only [QueueEntry.comparable, Bool.and_eq_true, Bool.not_eq_true', decide_eq_true_eq,
    drops.cksum, drops.calFailed] at comparable ⊢
  refine ⟨⟨?_, comparable.1.2⟩, comparable.2⟩
  by_contra was
  have still := drops.disabled q (by simpa using was)
  rw [comparable.1.1] at still
  cases still

/-! ## The loops -/

/-- What was disabled since the start was superseded. -/
def Justified (start afl : AflState) : Prop :=
  ∀ p, (afl.queueBuf p).disabled = true →
    (start.queueBuf p).disabled = true ∨ Superseded start p

theorem retireEntry_disabled (afl : AflState) (q p : ℕ) :
    ((retireEntry afl q).queueBuf p).disabled = (afl.queueBuf p).disabled := by
  unfold retireEntry
  split
  · exact AflState.modifyEntry_keeps afl q (fun e => { e with wasFuzzed := true })
      QueueEntry.disabled rfl p
  · rfl

/-- Dropping a superseded seed. -/
theorem Justified.drop (justified : Justified start afl) (superseded : Superseded start q) :
    Justified start (disableEntry (retireEntry afl q) q) := by
  intro p disabled
  by_cases same : p = q
  · rw [same]
    exact Or.inr superseded
  · unfold disableEntry at disabled
    rw [AflState.modifyEntry_queueBuf_of_ne _ _ _ same, retireEntry_disabled] at disabled
    exact justified p disabled

theorem drops_drop (afl : AflState) (q : ℕ) : Drops afl (disableEntry (retireEntry afl q) q) :=
  (drops_retireEntry afl q).trans (drops_disableEntry _ q)

theorem not_comparable_drop (afl : AflState) (q : ℕ) :
    ((disableEntry (retireEntry afl q) q).queueBuf q).comparable = false := by
  simp [QueueEntry.comparable, disableEntry]

/-- No entry after `idx` has its checksum, unless one of the two is out. -/
def Separated (afl : AflState) (idx : ℕ) (later : List ℕ) : Prop :=
  (afl.queueBuf idx).comparable = true → ∀ i ∈ later, (afl.queueBuf i).comparable = true →
    (afl.queueBuf i).execCksum ≠ (afl.queueBuf idx).execCksum

theorem Separated.of_drops {later : List ℕ} (separated : Separated before idx later)
    (drops : Drops before after) : Separated after idx later := by
  intro here i member there
  rw [drops.cksum, drops.cksum]
  exact separated (drops.comparable here) i member (drops.comparable there)

/-- The inner loop drops superseded seeds until none of the later entries has the checksum. -/
theorem dropDuplicatesOf_spec (rest : List ℕ) (later : ∀ i ∈ rest, idx < i ∧ i < n)
    (state : AflState × Bool) (size : start.queuedItems = n) (begun : Drops start state.1)
    (justified : Justified start state.1) (comparable : (state.1.queueBuf idx).comparable = true) :
    Drops state.1 (dropDuplicatesOf idx state rest).1 ∧
      Justified start (dropDuplicatesOf idx state rest).1 ∧
      Separated (dropDuplicatesOf idx state rest).1 idx rest := by
  induction rest generalizing state with
  | nil => exact ⟨Drops.refl _, justified, fun _ i member => by cases member⟩
  | cons i rest ih =>
      have after (j : ℕ) (member : j ∈ rest) := later j (List.mem_cons_of_mem i member)
      obtain ⟨follows, inside⟩ := later i List.mem_cons_self
      unfold dropDuplicatesOf
      dsimp only
      split
      · rename_i differ
        obtain ⟨drops, still, separated⟩ := ih after state begun justified comparable
        refine ⟨drops, still, fun here j member there => ?_⟩
        rcases List.mem_cons.mp member with rfl | further
        · intro same
          rw [drops.cksum, drops.cksum] at same
          have kept := drops.comparable there
          simp only [kept, same, Bool.not_true, ne_eq, not_true_eq_false, decide_false,
            Bool.or_self,
            Bool.false_eq_true] at differ
        · exact separated here j further there
      · rename_i equal
        simp only [Bool.or_eq_true, Bool.not_eq_true', decide_eq_true_eq, not_or, not_not,
          Bool.not_eq_false] at equal
        obtain ⟨present, same⟩ := equal
        have startIdx := begun.comparable comparable
        have startI := begun.comparable present
        have cksum : (start.queueBuf i).execCksum = (start.queueBuf idx).execCksum := by
          rw [← begun.cksum, ← begun.cksum]
          exact same
        split
        · rename_i longer
          rw [begun.len, begun.len] at longer
          have superseded : Superseded start i := by
            refine ⟨idx, size ▸ follows.trans inside, startIdx, startI, cksum.symm, ?_⟩
            omega
          have dropped := drops_drop state.1 i
          have still :
              ((disableEntry (retireEntry state.1 i) i).queueBuf idx).comparable = true := by
            have other : ((disableEntry (retireEntry state.1 i) i).queueBuf idx).disabled =
                (state.1.queueBuf idx).disabled := by
              unfold disableEntry
              rw [AflState.modifyEntry_queueBuf_of_ne _ _ _ follows.ne, retireEntry_disabled]
            simp only [QueueEntry.comparable, other, dropped.cksum, dropped.calFailed]
            exact comparable
          obtain ⟨drops, left, separated⟩ := ih after
            (disableEntry (retireEntry state.1 i) i, true) (begun.trans dropped)
            (justified.drop superseded) still
          refine ⟨dropped.trans drops, left, fun here j member there => ?_⟩
          rcases List.mem_cons.mp member with rfl | further
          · have gone := drops.comparable there
            rw [not_comparable_drop] at gone
            cases gone
          · exact separated here j further there
        · rename_i shorter
          rw [begun.len, begun.len] at shorter
          have superseded : Superseded start idx :=
            ⟨i, size ▸ inside, startI, startIdx, cksum, Or.inl (by omega)⟩
          refine ⟨drops_drop state.1 idx, justified.drop superseded, fun here => ?_⟩
          rw [not_comparable_drop] at here
          cases here

/-- What the outer loop has done after its first rounds. -/
structure PassedUpTo (start : AflState) (count : ℕ) (afl : AflState) : Prop where
  drops : Drops start afl
  justified : Justified start afl
  separated : ∀ idx < count,
    Separated afl idx (List.range' (idx + 1) (start.queuedItems - (idx + 1)))

theorem PassedUpTo.round {state : AflState × Bool} {count : ℕ}
    (passed : PassedUpTo start count state.1) (inside : count < start.queuedItems - 1) :
    PassedUpTo start (count + 1) (dropDuplicatesRound state count).1 := by
  unfold dropDuplicatesRound
  split
  · rename_i comparable
    rw [passed.drops.items]
    obtain ⟨drops, justified, separated⟩ := dropDuplicatesOf_spec
      (List.range' (count + 1) (start.queuedItems - (count + 1)))
      (fun i later => by
        rw [List.mem_range'_1] at later
        exact ⟨by omega, show i < start.queuedItems by omega⟩)
      state rfl passed.drops passed.justified comparable
    refine ⟨passed.drops.trans drops, justified, fun idx below => ?_⟩
    rcases Nat.lt_succ_iff_lt_or_eq.mp below with earlier | rfl
    · exact (passed.separated idx earlier).of_drops drops
    · exact separated
  · rename_i out
    refine ⟨passed.drops, passed.justified, fun idx below => ?_⟩
    rcases Nat.lt_succ_iff_lt_or_eq.mp below with earlier | rfl
    · exact passed.separated idx earlier
    · exact fun here => absurd here out

theorem passedUpTo_loop (afl : AflState) : PassedUpTo afl (afl.queuedItems - 1)
    ((List.range (afl.queuedItems - 1)).foldl dropDuplicatesRound (afl, false)).1 :=
  foldl_range_invariant (P := fun count (state : AflState × Bool) => PassedUpTo afl count state.1)
    ⟨Drops.refl afl, fun _ => Or.inl, fun _ none => absurd none (Nat.not_lt_zero _)⟩
    fun _ inside _ passed => passed.round inside

theorem passedUpTo_dropDuplicates (afl : AflState) (queue : ℕ) :
    PassedUpTo afl (afl.queuedItems - 1) (dropDuplicates afl queue) := by
  have passed := passedUpTo_loop afl
  unfold dropDuplicates
  dsimp only
  split
  · have last := passed.drops
    exact ⟨⟨last.items, ⟨last.slots.mapSize, last.slots.topRated, last.slots.tcRef,
      last.slots.traceMini⟩, last.changed, last.mode, last.len, last.cksum, last.calFailed,
      last.execUs, last.disabled⟩, passed.justified, passed.separated⟩
  · exact passed

/-- The pass leaves the slots to their owners. -/
theorem drops_dropDuplicates (afl : AflState) (queue : ℕ) : Drops afl (dropDuplicates afl queue) :=
  (passedUpTo_dropDuplicates afl queue).drops

/-- **The pass disables the superseded seeds** and no other entry. -/
theorem dropDuplicates_disabled_iff (queue : ℕ) (queued : q < afl.queuedItems) :
    ((dropDuplicates afl queue).queueBuf q).disabled = true ↔
      (afl.queueBuf q).disabled = true ∨ Superseded afl q := by
  have passed := passedUpTo_dropDuplicates afl queue
  refine ⟨passed.justified q, ?_⟩
  rintro (was | superseded)
  · exact passed.drops.disabled q was
  · by_contra enabled
    -- both the seed and the best of its duplicates are still in, so their checksums differ
    have stays {p : ℕ} (comparable : (afl.queueBuf p).comparable = true)
        (still : ((dropDuplicates afl queue).queueBuf p).disabled ≠ true) :
        ((dropDuplicates afl queue).queueBuf p).comparable = true := by
      simp only [QueueEntry.comparable, passed.drops.cksum, passed.drops.calFailed,
        Bool.and_eq_true, Bool.not_eq_true'] at comparable ⊢
      exact ⟨⟨by simpa using still, comparable.1.2⟩, comparable.2⟩
    obtain ⟨r, better, kept⟩ := superseded.exists_kept
    have leads : ((dropDuplicates afl queue).queueBuf r).disabled ≠ true := by
      intro out
      rcases passed.justified r out with was | again
      · have comparable := better.comparable
        simp [QueueEntry.comparable, was] at comparable
      · exact kept again
    have here := stays better.comparable' enabled
    have there := stays better.comparable leads
    have same : ((dropDuplicates afl queue).queueBuf r).execCksum =
        ((dropDuplicates afl queue).queueBuf q).execCksum := by
      rw [passed.drops.cksum, passed.drops.cksum]
      exact better.cksum
    have queued' := better.queued
    rcases Nat.lt_trichotomy r q with less | rfl | more
    · refine passed.separated r (by omega) there q ?_ here same.symm
      rw [List.mem_range'_1]
      omega
    · exact better.irrefl
    · refine passed.separated q (by omega) here r ?_ there same
      rw [List.mem_range'_1]
      omega

end GreenFuzz.AflFuzz
