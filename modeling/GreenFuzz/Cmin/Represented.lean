import GreenFuzz.Cmin.Worker
import GreenFuzz.Library.Runs

/-!
# What a worker knows about its files

For every tuple of a file that a worker processed, the worker has a representative: a processed
file whose trace has the tuple. A representative was used when it was processed, so its place was
sent, and the pack of the worker holds its trace there (`Represented`). The worker counts exactly
the tuples of its files.
-/

set_option autoImplicit false

namespace GreenFuzz.Cmin

open Library

/-! ## One tuple -/

/-- A tuple with an energy has a representative, and no energy is above the one that stands for
a missing one. -/
def Choice.Consistent (limit : ℕ) (c : Choice) : Prop :=
  ∀ t, c.bestEnergy t ≤ infEn ∧ (c.bestEnergy t ≠ infEn → c.m t ≠ limit)

section Tuple

variable {energyFirst : Bool} {idx energy limit : ℕ} {c : Choice} {t : ℕ}

/-- A tuple keeps its representative, or gets the current file, which is then used. -/
theorem considerTuple_m (energyFirst : Bool) (idx energy : ℕ) (c : Choice) (t u : ℕ) :
    (considerTuple energyFirst idx energy c t).m u = c.m u ∨
      (u = t ∧ (considerTuple energyFirst idx energy c t).m u = idx ∧
        (considerTuple energyFirst idx energy c t).used = true) := by
  by_cases here : u = t
  · subst here
    unfold considerTuple
    split_ifs <;> simp
  · left
    unfold considerTuple
    split_ifs <;> simp [here]

theorem considerTuple_used (used : c.used = true) :
    (considerTuple energyFirst idx energy c t).used = true := by
  unfold considerTuple
  split_ifs <;> simp [used]

theorem considerTuple_consistent (below : idx < limit) (energy_le : energy ≤ infEn)
    (consistent : c.Consistent limit) :
    (considerTuple energyFirst idx energy c t).Consistent limit := by
  intro u
  by_cases here : u = t
  · subst here
    have known := consistent u
    unfold considerTuple
    split_ifs
    · simp [energy_le, below.ne]
    · exact known
    · simpa [below.ne] using known.1
    · exact known
  · have known := consistent u
    unfold considerTuple
    split_ifs <;> simpa [here] using known

/-- After the round the tuple has a representative. -/
theorem considerTuple_represents (below : idx < limit) (energy_le : energy ≤ infEn)
    (consistent : c.Consistent limit) :
    (considerTuple energyFirst idx energy c t).m t ≠ limit := by
  unfold considerTuple
  split_ifs with byEnergy better smaller
  · simpa using below.ne
  · intro missing
    have unknown : c.bestEnergy t = infEn := by
      by_contra known
      exact (consistent t).2 known missing
    push Not at better
    have last : energy = c.bestEnergy t := by omega
    exact absurd (better.2 last) (by omega)
  · simpa using below.ne
  · omega

end Tuple

/-! ## The tuples of a file -/

section File

variable {idx energy limit : ℕ} {c : Choice}

theorem foldl_considerTuple_m (energyFirst : Bool) (idx energy : ℕ) (c : Choice) (tuples : List ℕ)
    (u : ℕ) :
    (tuples.foldl (considerTuple energyFirst idx energy) c).m u = c.m u ∨
      (u ∈ tuples ∧ (tuples.foldl (considerTuple energyFirst idx energy) c).m u = idx ∧
        (tuples.foldl (considerTuple energyFirst idx energy) c).used = true) := by
  induction tuples generalizing c with
  | nil => exact Or.inl rfl
  | cons t tuples ih =>
      rw [List.foldl_cons]
      rcases ih (considerTuple energyFirst idx energy c t) with kept | ⟨later, new⟩
      · rcases considerTuple_m energyFirst idx energy c t u with same | ⟨rfl, set, used⟩
        · exact Or.inl (kept.trans same)
        · have still : (tuples.foldl (considerTuple energyFirst idx energy)
              (considerTuple energyFirst idx energy c u)).used = true :=
            foldl_invariant (P := fun c : Choice => c.used = true) used
              fun _ _ _ used => considerTuple_used used
          exact Or.inr ⟨List.mem_cons_self, kept.trans set, still⟩
      · exact Or.inr ⟨List.mem_cons_of_mem t later, new⟩

theorem foldl_considerTuple_consistent (energyFirst : Bool) (below : idx < limit)
    (energy_le : energy ≤ infEn) (consistent : c.Consistent limit) (tuples : List ℕ) :
    (tuples.foldl (considerTuple energyFirst idx energy) c).Consistent limit :=
  foldl_invariant (P := Choice.Consistent limit) consistent
    fun _ _ _ kept => considerTuple_consistent below energy_le kept

/-- After the loop every tuple of the file has a representative, and no representative is
lost. -/
theorem foldl_considerTuple_represents (energyFirst : Bool) (below : idx < limit)
    (energy_le : energy ≤ infEn) (consistent : c.Consistent limit) (tuples : List ℕ) (u : ℕ)
    (known : u ∈ tuples ∨ c.m u ≠ limit) :
    (tuples.foldl (considerTuple energyFirst idx energy) c).m u ≠ limit := by
  induction tuples generalizing c with
  | nil => exact known.resolve_left (List.not_mem_nil)
  | cons t tuples ih =>
      rw [List.foldl_cons]
      refine ih (considerTuple_consistent below energy_le consistent) ?_
      by_cases later : u ∈ tuples
      · exact Or.inl later
      · right
        by_cases here : u = t
        · subst here
          exact considerTuple_represents below energy_le consistent
        · have before : c.m u ≠ limit := by
            refine known.resolve_left fun member => ?_
            rcases List.mem_cons.mp member with same | rest
            · exact here same
            · exact later rest
          rcases considerTuple_m energyFirst idx energy c t u with same | ⟨equal, -⟩
          · rw [same]
            exact before
          · exact absurd equal here

end File

theorem mem_keys_countTuples (counter : List (ℕ × ℕ)) (trace : List ℕ) (t : ℕ) :
    t ∈ (countTuples counter trace).map Prod.fst ↔ t ∈ trace ∨ t ∈ counter.map Prod.fst := by
  unfold countTuples
  induction trace generalizing counter with
  | nil => simp
  | cons u trace ih =>
      rw [List.foldl_cons, ih, mem_keys_assign, List.mem_cons]
      tauto

/-! ## The files of a worker -/

/-- What a worker knows after it processed the files `done`. -/
structure Represented (S : Setup) (read : ℕ → Reading S.maxTuple) (worker : ℕ) (done : List ℕ)
    (s : WorkerState) : Prop where
  packPos_eq : s.packPos = s.tracePack.length
  placed : ∀ p, some p ∈ s.progress → p.worker = worker ∧ p.idx ∈ done ∧
    p.tupleCount = (read p.idx).trace.length ∧
      Packed S.tupleItemsize s.tracePack p.pos (read p.idx).trace
  used : ∀ t, s.m t ≠ S.maxFileIndex → ∃ p, some p ∈ s.progress ∧ p.idx = s.m t ∧
    t ∈ (read (s.m t)).trace
  consistent : (Choice.mk s.m s.bestEnergy false).Consistent S.maxFileIndex
  covered : ∀ idx ∈ done, ∀ t ∈ (read idx).trace, s.m t ≠ S.maxFileIndex
  counted : ∀ t, t ∈ s.counter.map Prod.fst ↔ ∃ idx ∈ done, t ∈ (read idx).trace

section Files

variable {S : Setup} {read : ℕ → Reading S.maxTuple} {worker : ℕ} {done : List ℕ}
  {s : WorkerState}

theorem represented_start : Represented S read worker [] (.start S) := by
  refine ⟨rfl, fun p sent => absurd sent List.not_mem_nil, fun t known => absurd rfl known, ?_,
    fun idx member => absurd member List.not_mem_nil, fun t => by simp [WorkerState.start]⟩
  intro t
  exact ⟨le_rfl, fun known => absurd rfl known⟩

/-- Processing a file keeps what the worker knows, and adds the file. -/
theorem Represented.processFile (noCrashDir : S.crashDir = false)
    (known : Represented S read worker done s) {idx : ℕ} (listed : idx < S.numFiles) :
    Represented S read worker (done ++ [idx]) (processFile S read worker s idx) := by
  have below : idx < S.maxFileIndex := listed.trans_le S.numFiles_le_maxFileIndex
  have loop : chooseFile S read s idx = (read idx).trace.foldl
      (considerTuple S.energyFirst idx (read idx).energy) ⟨s.m, s.bestEnergy, false⟩ := by
    unfold chooseFile
    rw [if_pos (Or.inr (by simp [noCrashDir]))]
  have choice (u : ℕ) := foldl_considerTuple_m S.energyFirst idx (read idx).energy
    ⟨s.m, s.bestEnergy, false⟩ (read idx).trace u
  have consistent := foldl_considerTuple_consistent S.energyFirst below (read idx).energy_le
    known.consistent (read idx).trace
  have represents := foldl_considerTuple_represents S.energyFirst below (read idx).energy_le
    known.consistent (read idx).trace
  rw [← loop] at consistent represents
  simp only [← loop] at choice
  have counted (t : ℕ) : t ∈ (countTuples s.counter (read idx).trace).map Prod.fst ↔
      ∃ file ∈ done ++ [idx], t ∈ (read file).trace := by
    rw [mem_keys_countTuples, known.counted]
    simp [or_comm, or_and_right, exists_or]
  have covered : ∀ file ∈ done ++ [idx], ∀ t ∈ (read file).trace,
      (chooseFile S read s idx).m t ≠ S.maxFileIndex := by
    intro file member t inside
    refine represents t ?_
    rcases List.mem_append.mp member with earlier | last
    · exact Or.inr (known.covered file earlier t inside)
    · rw [List.mem_singleton.mp last] at inside
      exact Or.inl inside
  have member_of (file : ℕ) (earlier : file ∈ done) : file ∈ done ++ [idx] :=
    List.mem_append_left _ earlier
  unfold Cmin.processFile
  dsimp only
  split
  · rename_i used
    refine ⟨?_, ?_, ?_, consistent, covered, counted⟩
    · dsimp only
      rw [List.length_append, length_packItems, known.packPos_eq]
    · intro p sent
      dsimp only at sent ⊢
      rcases List.mem_append.mp sent with earlier | last
      · obtain ⟨here, file, count, packed⟩ := known.placed p earlier
        exact ⟨here, member_of _ file, count, packed.extend _⟩
      · obtain rfl := Option.some.inj (List.mem_singleton.mp last)
        refine ⟨rfl, List.mem_append_right _ (List.mem_singleton.mpr rfl), rfl, ?_⟩
        dsimp only
        rw [known.packPos_eq]
        exact Packed.append _ _
    · intro t set
      dsimp only at set ⊢
      rcases choice t with same | ⟨inside, new, -⟩
      · rw [same] at set ⊢
        obtain ⟨p, sent, file, inside⟩ := known.used t set
        exact ⟨p, List.mem_append_left _ sent, file, inside⟩
      · refine ⟨⟨idx, worker, s.packPos, (read idx).trace.length⟩,
          List.mem_append_right _ (List.mem_singleton.mpr rfl), new.symm, ?_⟩
        rw [new]
        exact inside
  · rename_i unused
    refine ⟨known.packPos_eq, ?_, ?_, consistent, covered, counted⟩
    · intro p sent
      dsimp only at sent ⊢
      rcases List.mem_append.mp sent with earlier | last
      · obtain ⟨here, file, rest⟩ := known.placed p earlier
        exact ⟨here, member_of _ file, rest⟩
      · cases List.mem_singleton.mp last
    · intro t set
      dsimp only at set ⊢
      rcases choice t with same | ⟨-, -, used⟩
      · rw [same] at set ⊢
        obtain ⟨p, sent, file, inside⟩ := known.used t set
        exact ⟨p, List.mem_append_left _ sent, file, inside⟩
      · exact absurd used unused

/-- What a worker knows at the end of its run. -/
theorem runWorker_represented (noCrashDir : S.crashDir = false) {batches : List (List ℕ)}
    (listed : ∀ idx ∈ batches.flatten, idx < S.numFiles) :
    Represented S read worker batches.flatten (runWorker S read worker batches) := by
  have run (files : List ℕ) (inside : ∀ idx ∈ files, idx < S.numFiles) {done : List ℕ}
      {s : WorkerState} (known : Represented S read worker done s) :
      Represented S read worker (done ++ files)
        (files.foldl (Cmin.processFile S read worker) s) := by
    induction files generalizing done s with
    | nil => simpa using known
    | cons idx files ih =>
        have next := ih (fun later member => inside later (List.mem_cons_of_mem idx member))
          (known.processFile noCrashDir (inside idx List.mem_cons_self))
        rwa [List.append_assoc, List.singleton_append] at next
  rw [runWorker_eq_foldl]
  exact run batches.flatten listed represented_start

end Files

end GreenFuzz.Cmin
