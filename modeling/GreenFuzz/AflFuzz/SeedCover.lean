import GreenFuzz.AflFuzz.SeedRating

/-!
# Duplicates and the first cull

Two orders meet when a session starts. `update_bitmap_score` prefers a seed by its speed times
its size, and the pass over the duplicates prefers it by its size. The pass does not look at
`top_rated`, so it may disable the owner of a slot. The first cull picks that owner, takes its
indices out of the map and marks nothing.

After the first cull the favored and enabled entries cover what the calibrated seeds hit exactly
when they cover what the disabled picks hit (`seeds_covered_iff`).
-/

set_option autoImplicit false

namespace GreenFuzz.AflFuzz

open Library

variable {own : ℕ → Buffer} {afl : AflState} {q : ℕ}

/-- A session in which nothing was scored or measured yet. -/
structure Unscored (afl : AflState) : Prop where
  instrumented : afl.nonInstrumentedMode = false
  aligned : 8 ∣ afl.mapSize
  small : afl.mapSize < 2 ^ 32
  free : ∀ i, afl.topRated i = none
  fresh : ∀ q, (afl.queueBuf q).tcRef = 0 ∧ (afl.queueBuf q).traceMini = none ∧
    (afl.queueBuf q).execUs = 0

theorem Unscored.rated (unscored : Unscored afl) : SeedsRated own afl := by
  have none (i p : ℕ) : afl.topRated i ≠ some p := by
    rw [unscored.free]
    nofun
  refine ⟨unscored.instrumented, unscored.aligned, ?_, ?_, fun i p owner => absurd owner (none i p),
    fun i p owner => absurd owner (none i p), fun p calibrated => ?_⟩
  · exact Unrated.rated ⟨unscored.free, fun q => (unscored.fresh q).2.1⟩
  · have start : Reachable (slotSystem Libm.identity) afl := .init ⟨unscored.small, unscored.free,
      fun q => ⟨(unscored.fresh q).1, (unscored.fresh q).2.1⟩⟩
    exact counted_of_reachable start
  · exact absurd (unscored.fresh p).2.2 calibrated

theorem Unscored.addToQueue (unscored : Unscored afl) (len : ℕ) (passedDet : Bool) :
    Unscored (addToQueue afl len passedDet) := by
  refine ⟨unscored.instrumented, unscored.aligned, unscored.small, unscored.free, fun p => ?_⟩
  show (Function.update afl.queueBuf afl.queuedItems _ p).tcRef = 0 ∧
    (Function.update afl.queueBuf afl.queuedItems _ p).traceMini = none ∧
    (Function.update afl.queueBuf afl.queuedItems _ p).execUs = 0
  by_cases same : p = afl.queuedItems
  · subst same
    rw [Function.update_self]
    exact ⟨rfl, rfl, rfl⟩
  · rw [Function.update_of_ne same]
    exact unscored.fresh p

/-! ## When nothing is lost -/

/-- The entry is out after the pass over the duplicates. -/
def Dropped (afl : AflState) (q : ℕ) : Prop :=
  (afl.queueBuf q).disabled = true ∨ Superseded afl q

/-- Every index that a pick hits which is dropped is also hit by a pick which stays. -/
def DropsCovered (own : ℕ → Buffer) (afl : AflState) : Prop :=
  ∀ q ∈ cullPicks own afl, Dropped afl q → ∀ i < afl.mapSize, own q i ≠ 0 →
    ∃ p ∈ cullPicks own afl, ¬ Dropped afl p ∧ own p i ≠ 0

/-- Nothing is lost if every pick is enabled and the shortest seed with its checksum. -/
theorem dropsCovered_of_shortest
    (shortest : ∀ q ∈ cullPicks own afl, (afl.queueBuf q).disabled = false ∧
      ∀ r < afl.queuedItems, (afl.queueBuf r).execCksum = (afl.queueBuf q).execCksum →
        (afl.queueBuf q).len < (afl.queueBuf r).len ∨
          (afl.queueBuf q).len = (afl.queueBuf r).len ∧ q ≤ r) :
    DropsCovered own afl := by
  intro q picked dropped
  obtain ⟨enabled, first⟩ := shortest q picked
  rcases dropped with disabled | ⟨r, better⟩
  · rw [enabled] at disabled
    cases disabled
  · have order := first r better.queued better.cksum
    have shorter := better.shorter
    omega

/-- After the first cull every index that a calibrated seed hits is hit by an entry that is
favored and enabled. -/
def SeedsCovered (own : ℕ → Buffer) (afl : AflState) : Prop :=
  ∀ q < afl.queuedItems, (afl.queueBuf q).calibrated → ∀ i < afl.mapSize, own q i ≠ 0 →
    ∃ p < afl.queuedItems, (((cullQueue afl).queueBuf p).favored = true ∧
      ((cullQueue afl).queueBuf p).disabled = false) ∧ own p i ≠ 0

theorem SeedsRated.acts (rated : SeedsRated own afl) {i p : ℕ}
    (owner : afl.topRated i = some p) : cullReturnsEarly afl = false := by
  simp [cullReturnsEarly, rated.changed i p owner, rated.instrumented]

/-- The cull after the pass over the duplicates of rated seeds. -/
theorem SeedsRated.covered_iff (rated : SeedsRated own afl) (queue : ℕ) :
    SeedsCovered own (dropDuplicates afl queue) ↔ DropsCovered own afl := by
  have drops := drops_dropDuplicates afl queue
  have after := rated.of_same drops.sameOwners
  have stays {p : ℕ} (queued : p < afl.queuedItems) :
      ((dropDuplicates afl queue).queueBuf p).disabled = false ↔ ¬ Dropped afl p := by
    rw [Dropped, ← dropDuplicates_disabled_iff queue queued, Bool.not_eq_true]
  have picks : cullPicks own (dropDuplicates afl queue) = cullPicks own afl := by
    rw [cullPicks, cullPicks, cullPicksBelow, cullPicksBelow, drops.slots.topRated,
      drops.slots.mapSize]
  have queuedPick {p : ℕ} (picked : p ∈ cullPicks own afl) : p < afl.queuedItems := by
    obtain ⟨i, -, owner⟩ := exists_owner_of_mem_cullPicks picked
    exact rated.rated.queued i p owner
  have favored {p i r : ℕ} (owner : afl.topRated i = some r) (queued : p < afl.queuedItems) :
      (((cullQueue (dropDuplicates afl queue)).queueBuf p).favored = true ∧
        ((cullQueue (dropDuplicates afl queue)).queueBuf p).disabled = false) ↔
      p ∈ cullPicks own afl ∧ ¬ Dropped afl p := by
    rw [favored_cullQueue_iff after.rated after.aligned
      (after.acts (drops.slots.topRated ▸ owner)) after.keepMini (drops.items ▸ queued), picks,
      stays queued]
  constructor
  · intro covered q picked dropped i inside hit
    obtain ⟨j, -, owner⟩ := exists_owner_of_mem_cullPicks picked
    have measured : ((dropDuplicates afl queue).queueBuf q).calibrated := by
      rw [QueueEntry.calibrated, drops.execUs]
      exact rated.owners j q owner
    obtain ⟨p, queued, liked, also⟩ := covered q (drops.items ▸ queuedPick picked) measured i
      (drops.slots.mapSize ▸ inside) hit
    rw [drops.items] at queued
    obtain ⟨member, stays⟩ := (favored owner queued).mp liked
    exact ⟨p, member, stays, also⟩
  · intro covered q queued measured i inside hit
    rw [drops.slots.mapSize] at inside
    rw [QueueEntry.calibrated, drops.execUs] at measured
    have owned := rated.owned q measured i inside hit
    obtain ⟨r, owner⟩ := Option.ne_none_iff_exists'.mp owned
    obtain ⟨p, picked, also⟩ := cullPicks_cover rated.rated inside owned
    have found : ∃ p ∈ cullPicks own afl, ¬ Dropped afl p ∧ own p i ≠ 0 := by
      by_cases dropped : Dropped afl p
      · exact covered p picked dropped i inside also
      · exact ⟨p, picked, dropped, also⟩
    obtain ⟨p, picked, stays, also⟩ := found
    have below := queuedPick picked
    exact ⟨p, drops.items ▸ below, (favored owner below).mpr ⟨picked, stays⟩, also⟩

/-- **When the duplicates lose no coverage.** After the dry run of a deterministic target and the
first cull, the favored and enabled entries hit everything that the calibrated seeds hit exactly
if every index of a pick that the pass over the duplicates drops is also hit by a pick that it
keeps. -/
theorem seeds_covered_iff (B : Build) (opts : DryRunOptions) (seeds : ℕ → SeedInput)
    (own : ℕ → Buffer) (d calibrated e : DryRun) (unscored : Unscored d.s.afl)
    (deterministic : ∀ q k, ((seeds q).calibration.runs k).trace = own q)
    (loop : dryRunLoop B opts seeds d (dryRunOrder opts d.s.afl.queuedItems) = .ok calibrated)
    (all : calibrated.stopped = false) (done : performDryRun B opts seeds d = .ok e) :
    SeedsCovered own e.s.afl ↔ DropsCovered own calibrated.s.afl := by
  have rated : SeedsRated own calibrated.s.afl :=
    (SeedsRated.dryRunLoop deterministic (fun q member => mem_dryRunOrder member) unscored.rated
      loop).1
  unfold performDryRun at done
  split at done
  · cases done
  · obtain ⟨looped, again, rest⟩ := bind_eq_ok_iff.mp done
    rw [loop] at again
    cases again
    rw [if_neg (by rw [all]; decide)] at rest
    split at rest
    · cases rest
    · cases rest
      exact rated.covered_iff calibrated.queue

/-! ### Two seeds with one trace -/

/-- A build whose hash function tells traces apart by their first byte. -/
def hashingBuild : Build := { trivialBuild with hash64 := fun _ trace => (trace 0).toNat + 1 }

def hitsFirst : Buffer := fun i => if i = 0 then 1 else 0

/-- Seeds that hit index 0. The second takes a hundred times as long as the first. -/
def slowSecond (q : ℕ) : SeedInput :=
  { calibration := { runs := fun _ => { trace := hitsFirst }
                     elapsedUs := if q = 0 then 7 else 700 } }

def seedsOfLength (first second : ℕ) : DryRun :=
  { s := { afl := addToQueue (addToQueue { mapSize := 8 } first false) second false } }

theorem unscored_seedsOfLength (first second : ℕ) :
    Unscored (seedsOfLength first second).s.afl := by
  have empty : Unscored { mapSize := 8 } :=
    ⟨rfl, ⟨1, rfl⟩, by decide, fun _ => rfl, fun _ => ⟨rfl, rfl, rfl⟩⟩
  exact (empty.addToQueue first false).addToQueue second false

/-- The shorter seed is the faster one: nothing is lost. -/
theorem seeds_covered_fast_and_short :
    ∃ e, performDryRun hashingBuild {} slowSecond (seedsOfLength 4 5) = .ok e ∧
      SeedsCovered (fun _ => hitsFirst) e.s.afl := by
  refine ⟨_, rfl, (seeds_covered_iff hashingBuild {} slowSecond (fun _ => hitsFirst)
    (seedsOfLength 4 5) _ _ (unscored_seedsOfLength 4 5) (fun _ _ => rfl) rfl rfl rfl).mpr ?_⟩
  refine dropsCovered_of_shortest ?_
  decide +kernel

/-- The shorter seed is the slower one: it is kept, but the longer one owns the slot. After the
first cull no entry is favored. -/
theorem seeds_lost_with_fast_duplicate :
    ∃ e, performDryRun hashingBuild {} slowSecond (seedsOfLength 5 4) = .ok e ∧
      Unscored (seedsOfLength 5 4).s.afl ∧ e.stopped = false ∧
      ¬ SeedsCovered (fun _ => hitsFirst) e.s.afl := by
  refine ⟨_, rfl, unscored_seedsOfLength 5 4, rfl, fun covered => ?_⟩
  obtain ⟨p, queued, liked, -⟩ := covered 0 (by decide +kernel)
    (show _ ≠ 0 by decide +kernel) 0 (by decide +kernel) (by decide)
  revert p
  decide +kernel

end GreenFuzz.AflFuzz
