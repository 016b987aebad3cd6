import GreenFuzz.Cmin.Selection

/-!
# The representative with the least energy

With `--energy-first`, a tuple should be represented by the file with the least energy, and
among those by the file with the least index; a file without an energy counts only if there is
no other.

A file without an energy replaces a representative with a larger index without changing the
energy that is stored for the tuple (`energyFirst_limits`). A worker that gets its files in
increasing order never has a representative with a larger index. The job queue hands out the files
in this order, so the merged representative is the right one (`bestIdx_energyFirst`). The largest
`u64` stands for a missing energy, also if it was read.
-/

set_option autoImplicit false

namespace GreenFuzz.Cmin

open Library

/-! ## Keys -/

/-- A file by which the representatives are ordered: its energy, or the largest one if it is
missing, and its index. -/
def fileKey (energy idx : ℕ) : ℕ × ℕ := (if energy = 0 then infEn else energy, idx)

/-- The smaller of two pairs. -/
def pairMin (a b : ℕ × ℕ) : ℕ × ℕ := if pairLess a b then a else b

theorem not_pairLess_pairMin_left (a b : ℕ × ℕ) : ¬ pairLess a (pairMin a b) := by
  unfold pairMin
  split
  · unfold pairLess
    omega
  · assumption

theorem not_pairLess_pairMin_right {a b x : ℕ × ℕ} (above : ¬ pairLess x b) :
    ¬ pairLess x (pairMin a b) := by
  unfold pairMin
  split
  · rename_i smaller
    unfold pairLess at *
    omega
  · exact above

/-- The representative and the energy of a tuple. -/
def Choice.pair (c : Choice) (t : ℕ) : ℕ × ℕ := (c.bestEnergy t, c.m t)

section Tuple

variable {idx energy limit : ℕ} {c : Choice} {t : ℕ}

/-- The file is not below a representative, and a tuple without a representative has no
energy. -/
def Choice.Before (limit idx : ℕ) (c : Choice) : Prop :=
  ∀ t, c.bestEnergy t ≤ infEn ∧ (c.m t = limit ∧ c.bestEnergy t = infEn ∨ c.m t ≤ idx)

/-- One round takes the smaller of the two pairs. -/
theorem considerTuple_pair (before : c.Before limit idx) (u : ℕ) :
    (considerTuple true idx energy c t).pair u =
      if u = t then pairMin (fileKey energy idx) (c.pair u) else c.pair u := by
  by_cases here : u = t
  · subst here
    obtain ⟨bound, rank⟩ := before u
    rw [if_pos rfl]
    unfold pairMin fileKey considerTuple Choice.pair pairLess
    by_cases missing : energy = 0
    · subst missing
      have rule :
          (infEn < c.bestEnergy u ∨ infEn = c.bestEnergy u ∧ idx < c.m u) ↔ idx < c.m u := by
        omega
      simp only [lt_irrefl, and_false, if_false, if_true, rule]
      split
      · rename_i smaller
        have none : c.bestEnergy u = infEn := by omega
        simp [none]
      · rfl
    · have positive : 0 < energy := Nat.pos_of_ne_zero missing
      simp only [positive, and_self, if_true, missing, if_false]
      split <;> simp
  · rw [if_neg here]
    unfold considerTuple Choice.pair
    split_ifs <;> simp [here]

theorem considerTuple_before (energy_le : energy ≤ infEn) (before : c.Before limit idx) :
    (considerTuple true idx energy c t).Before limit idx := by
  intro u
  obtain ⟨bound, rank⟩ := before u
  have pair : (considerTuple true idx energy c t).pair u =
      if u = t then pairMin (fileKey energy idx) (c.pair u) else c.pair u :=
    considerTuple_pair before u
  unfold pairMin fileKey Choice.pair at pair
  split_ifs at pair with here less missing <;> rw [Prod.mk.injEq] at pair <;> omega

/-- The loop over the tuples of a file takes the smaller of the two pairs, for each tuple. -/
theorem foldl_considerTuple_pair (energy_le : energy ≤ infEn) (before : c.Before limit idx)
    (tuples : List ℕ) (u : ℕ) :
    (tuples.foldl (considerTuple true idx energy) c).pair u =
      if u ∈ tuples then pairMin (fileKey energy idx) (c.pair u) else c.pair u := by
  induction tuples generalizing c with
  | nil => simp
  | cons t tuples ih =>
      rw [List.foldl_cons, ih (considerTuple_before energy_le before), considerTuple_pair before]
      by_cases here : u = t
      · subst here
        have twice : pairMin (fileKey energy idx) (pairMin (fileKey energy idx) (c.pair u)) =
            pairMin (fileKey energy idx) (c.pair u) := if_neg (not_pairLess_pairMin_left _ _)
        simp [twice]
      · simp [here]

end Tuple

/-! ## The files of a worker -/

section Files

variable {S : Setup} {read : ℕ → Reading S.maxTuple} {done : List ℕ} {t : ℕ} {p : ℕ × ℕ}

/-- The file has the tuple, and is not a crash that goes to another directory. -/
def Covers (S : Setup) (read : ℕ → Reading S.maxTuple) (t idx : ℕ) : Prop :=
  t ∈ (read idx).trace ∧ ((read idx).crash = false ∨ S.crashDir = false)

/-- The pair is the least key of the files that cover the tuple, if there is one. -/
structure LeastKey (S : Setup) (read : ℕ → Reading S.maxTuple) (done : List ℕ) (t : ℕ)
    (p : ℕ × ℕ) : Prop where
  attained : (p = (infEn, S.maxFileIndex) ∧ ∀ idx ∈ done, ¬ Covers S read t idx) ∨
    ∃ idx ∈ done, Covers S read t idx ∧ p = fileKey (read idx).energy idx
  least : ∀ idx ∈ done, Covers S read t idx → ¬ pairLess (fileKey (read idx).energy idx) p

theorem fileKey_fst_le (read : ℕ → Reading S.maxTuple) (idx : ℕ) :
    (fileKey (read idx).energy idx).1 ≤ infEn := by
  have bound := (read idx).energy_le
  unfold fileKey
  dsimp only
  split <;> omega

/-- A covering file is compared with the pair, any other file changes nothing. -/
theorem LeastKey.snoc (known : LeastKey S read done t p) {idx : ℕ}
    (below : idx < S.maxFileIndex) {p' : ℕ × ℕ}
    (covering : Covers S read t idx → p' = pairMin (fileKey (read idx).energy idx) p)
    (other : ¬ Covers S read t idx → p' = p) : LeastKey S read (done ++ [idx]) t p' := by
  by_cases covers : Covers S read t idx
  · rw [covering covers]
    constructor
    · right
      unfold pairMin
      split
      · exact ⟨idx, by simp, covers, rfl⟩
      · rename_i above
        rcases known.attained with ⟨start, -⟩ | ⟨j, member, covers_j, equal⟩
        · have bound := fileKey_fst_le read idx
          refine absurd ?_ above
          rw [start]
          exact bound.lt_or_eq.imp id fun equal => ⟨equal, below⟩
        · exact ⟨j, List.mem_append_left _ member, covers_j, equal⟩
    · intro j member covers_j
      rcases List.mem_append.mp member with earlier | last
      · exact not_pairLess_pairMin_right (known.least j earlier covers_j)
      · rw [List.mem_singleton.mp last]
        exact not_pairLess_pairMin_left _ _
  · rw [other covers]
    constructor
    · rcases known.attained with ⟨start, none⟩ | ⟨j, member, rest⟩
      · refine Or.inl ⟨start, fun j member => ?_⟩
        rcases List.mem_append.mp member with earlier | last
        · exact none j earlier
        · rw [List.mem_singleton.mp last]
          exact covers
      · exact Or.inr ⟨j, List.mem_append_left _ member, rest⟩
    · intro j member covers_j
      rcases List.mem_append.mp member with earlier | last
      · exact known.least j earlier covers_j
      · rw [List.mem_singleton.mp last] at covers_j
        exact absurd covers_j covers

/-- Processing a file that is not below the earlier ones keeps the pairs least. -/
theorem leastKey_processFile (energyFirst : S.energyFirst = true) (worker : ℕ) {s : WorkerState}
    (known : ∀ t, LeastKey S read done t (s.bestEnergy t, s.m t)) {idx : ℕ}
    (listed : idx < S.numFiles) (later : ∀ j ∈ done, j < idx) (t : ℕ) :
    LeastKey S read (done ++ [idx]) t
      ((processFile S read worker s idx).bestEnergy t, (processFile S read worker s idx).m t) := by
  have below : idx < S.maxFileIndex := listed.trans_le S.numFiles_le_maxFileIndex
  have before : (Choice.mk s.m s.bestEnergy false).Before S.maxFileIndex idx := by
    intro u
    rcases (known u).attained with ⟨start, -⟩ | ⟨j, member, -, equal⟩
    · rw [Prod.mk.injEq] at start
      exact ⟨start.1.le, Or.inl ⟨start.2, start.1⟩⟩
    · have bound := fileKey_fst_le read j
      rw [← equal] at bound
      exact ⟨bound, Or.inr ((congrArg Prod.snd equal).trans_le (later j member).le)⟩
  have pair : ((processFile S read worker s idx).bestEnergy t,
      (processFile S read worker s idx).m t) = (chooseFile S read s idx).pair t := by
    unfold processFile
    dsimp only
    split <;> rfl
  rw [pair]
  refine (known t).snoc below ?_ ?_
  · rintro ⟨inside, kept⟩
    have counts : (!(read idx).crash) = true ∨ (!S.crashDir) = true := by simpa using kept
    unfold chooseFile
    rw [if_pos counts, energyFirst, foldl_considerTuple_pair (read idx).energy_le before,
      if_pos inside]
    rfl
  · intro uncovered
    unfold chooseFile
    split
    · rename_i counts
      have outside : t ∉ (read idx).trace := fun inside => uncovered ⟨inside, by simpa using counts⟩
      rw [energyFirst, foldl_considerTuple_pair (read idx).energy_le before, if_neg outside]
      rfl
    · rfl

/-- A worker that gets its files in increasing order ends with the least keys. -/
theorem runWorker_leastKey (energyFirst : S.energyFirst = true) (worker : ℕ)
    {batches : List (List ℕ)} (listed : ∀ idx ∈ batches.flatten, idx < S.numFiles)
    (increasing : batches.flatten.Pairwise (· < ·)) (t : ℕ) :
    LeastKey S read batches.flatten t ((runWorker S read worker batches).bestEnergy t,
      (runWorker S read worker batches).m t) := by
  have run (files : List ℕ) (inside : ∀ idx ∈ files, idx < S.numFiles)
      (order : files.Pairwise (· < ·)) {done : List ℕ} (later : ∀ j ∈ done, ∀ idx ∈ files, j < idx)
      {s : WorkerState} (known : ∀ t, LeastKey S read done t (s.bestEnergy t, s.m t)) :
      ∀ t, LeastKey S read (done ++ files) t
        ((files.foldl (processFile S read worker) s).bestEnergy t,
          (files.foldl (processFile S read worker) s).m t) := by
    induction files generalizing done s with
    | nil => simpa using known
    | cons idx files ih =>
        obtain ⟨first, order⟩ := List.pairwise_cons.mp order
        have next := leastKey_processFile energyFirst worker known (inside idx List.mem_cons_self)
          fun j member => later j member idx List.mem_cons_self
        have above : ∀ j ∈ done ++ [idx], ∀ file ∈ files, j < file := by
          intro j member file rest
          rcases List.mem_append.mp member with earlier | last
          · exact later j earlier file (List.mem_cons_of_mem idx rest)
          · rw [List.mem_singleton.mp last]
            exact first file rest
        simpa using ih (fun j member => inside j (List.mem_cons_of_mem idx member)) order above next
  rw [runWorker_eq_foldl]
  refine run batches.flatten listed increasing (fun j member => absurd member List.not_mem_nil)
    (fun u => ⟨Or.inl ⟨rfl, fun idx member => absurd member List.not_mem_nil⟩,
      fun idx member => absurd member List.not_mem_nil⟩) t

end Files

/-! ## Merging -/

section Merge

variable {S : Setup} {read : ℕ → Reading S.maxTuple} {states : ℕ → WorkerState}
  {files : ℕ → List ℕ} {t : ℕ}

/-- No worker has a smaller pair than the merged one. -/
theorem bestPair_least (i : ℕ) (worker : i < S.workers) (set : (states i).m t ≠ S.maxFileIndex) :
    ¬ pairLess ((states i).bestEnergy t, (states i).m t) (bestPair S states t) := by
  unfold bestPair
  refine foldl_range_invariant (P := fun k best => ∀ i < k, (states i).m t ≠ S.maxFileIndex →
    ¬ pairLess ((states i).bestEnergy t, (states i).m t) best) ?_ ?_ i worker set
  · exact fun i below => absurd below (Nat.not_lt_zero i)
  · intro k _ best known i below set
    rw [considerWorker_eq]
    rcases Nat.lt_succ_iff_lt_or_eq.mp below with earlier | rfl
    · have above := known i earlier set
      split
      · exact above
      · exact not_pairLess_pairMin_right above
    · rw [if_neg set]
      exact not_pairLess_pairMin_left _ _

/-- The merged pair is the least key of all files. -/
theorem bestPair_leastKey {all : List ℕ}
    (known : ∀ i < S.workers, LeastKey S read (files i) t
      ((states i).bestEnergy t, (states i).m t))
    (parts : ∀ idx, (∃ i < S.workers, idx ∈ files i) ↔ idx ∈ all)
    (listed : ∀ idx ∈ all, idx < S.numFiles) :
    LeastKey S read all t (bestPair S states t) := by
  have own (i : ℕ) (worker : i < S.workers) {idx : ℕ} (member : idx ∈ files i)
      (covers : Covers S read t idx) : (states i).m t ≠ S.maxFileIndex := by
    rcases (known i worker).attained with ⟨-, none⟩ | ⟨j, inside, -, equal⟩
    · exact absurd covers (none idx member)
    · have file : (states i).m t = j := congrArg Prod.snd equal
      rw [file]
      exact ((listed j ((parts j).mp ⟨i, worker, inside⟩)).trans_le
        S.numFiles_le_maxFileIndex).ne
  constructor
  · rcases bestPair_cases S states t with start | ⟨i, worker, set, equal⟩
    · refine Or.inl ⟨start, fun idx member covers => ?_⟩
      obtain ⟨i, worker, inside⟩ := (parts idx).mpr member
      have set := own i worker inside covers
      have above := bestPair_least i worker set
      rcases (known i worker).attained with ⟨pair, -⟩ | ⟨j, inside, -, pair⟩
      · exact set (congrArg Prod.snd pair)
      · have bound := fileKey_fst_le read j
        have file := (listed j ((parts j).mp ⟨i, worker, inside⟩)).trans_le
          S.numFiles_le_maxFileIndex
        rw [start, pair] at above
        exact above (bound.lt_or_eq.imp id fun equal => ⟨equal, file⟩)
    · rcases (known i worker).attained with ⟨pair, -⟩ | ⟨j, inside, covers, pair⟩
      · exact absurd (congrArg Prod.snd pair) set
      · exact Or.inr ⟨j, (parts j).mp ⟨i, worker, inside⟩, covers, equal.trans pair⟩
  · intro idx member covers
    obtain ⟨i, worker, inside⟩ := (parts idx).mpr member
    have above := bestPair_least i worker (own i worker inside covers)
    have least := (known i worker).least idx inside covers
    unfold pairLess at *
    omega

/-- The merged representative is the file of the least key. -/
theorem bestIdx_eq_snd
    (bounded : ∀ i < S.workers, (states i).m t ≤ S.maxFileIndex ∧ (states i).bestEnergy t ≤ infEn) :
    bestIdx S states t = (bestPair S states t).2 := by
  unfold bestIdx
  split
  · rename_i missing
    have least : ((List.range S.workers).map fun i => (states i).m t).min? =
        some (bestPair S states t).2 := by
      rw [List.min?_eq_some_iff]
      constructor
      · rcases bestPair_cases S states t with start | ⟨i, worker, -, equal⟩
        · rw [start]
          refine List.mem_map.mpr ⟨0, List.mem_range.mpr S.workers_pos, ?_⟩
          by_contra set
          have above := bestPair_least 0 S.workers_pos set
          have bound := bounded 0 S.workers_pos
          rw [start] at above
          refine above (bound.2.lt_or_eq.imp id fun equal => ⟨equal, ?_⟩)
          exact lt_of_le_of_ne bound.1 set
        · rw [equal]
          exact List.mem_map.mpr ⟨i, List.mem_range.mpr worker, rfl⟩
      · intro m member
        obtain ⟨i, listed, rfl⟩ := List.mem_map.mp member
        have worker := List.mem_range.mp listed
        have bound := bounded i worker
        by_cases set : (states i).m t = S.maxFileIndex
        · rw [set]
          rcases bestPair_cases S states t with start | ⟨j, worker_j, -, equal⟩
          · rw [start]
          · rw [equal]
            exact (bounded j worker_j).1
        · have above := bestPair_least i worker set
          unfold pairLess at above
          omega
    rw [least, Option.getD_some]
  · rfl

end Merge

/-! ## The choice is a function of the inputs -/

/-- An energy that counts. -/
def Reading.HasEnergy {maxTuple : ℕ} (r : Reading maxTuple) : Prop :=
  0 < r.energy ∧ r.energy ≠ infEn

/-- The file covers the tuple with the least energy and index among the files with an energy, or
with the least index if there is none. -/
structure LeastEnergy (S : Setup) (read : ℕ → Reading S.maxTuple) (t b : ℕ) : Prop where
  listed : b < S.numFiles
  covers : Covers S read t b
  least_energy : (∃ idx < S.numFiles, Covers S read t idx ∧ (read idx).HasEnergy) →
    (read b).HasEnergy ∧ ∀ idx < S.numFiles, Covers S read t idx → (read idx).HasEnergy →
      (read b).energy < (read idx).energy ∨ (read b).energy = (read idx).energy ∧ b ≤ idx
  least_index : (¬ ∃ idx < S.numFiles, Covers S read t idx ∧ (read idx).HasEnergy) →
    ∀ idx < S.numFiles, Covers S read t idx → b ≤ idx

theorem fileKey_of_hasEnergy {maxTuple : ℕ} {r : Reading maxTuple} (has : r.HasEnergy) (idx : ℕ) :
    fileKey r.energy idx = (r.energy, idx) := by
  unfold fileKey
  rw [if_neg has.1.ne']

theorem fileKey_of_not_hasEnergy {maxTuple : ℕ} {r : Reading maxTuple} (has : ¬ r.HasEnergy)
    (idx : ℕ) : fileKey r.energy idx = (infEn, idx) := by
  unfold Reading.HasEnergy at has
  unfold fileKey
  split
  · rfl
  · rw [show r.energy = infEn by omega]

theorem LeastKey.leastEnergy {S : Setup} {read : ℕ → Reading S.maxTuple} {t : ℕ} {p : ℕ × ℕ}
    (known : LeastKey S read (List.range S.numFiles) t p)
    (covered : ∃ idx < S.numFiles, Covers S read t idx) : LeastEnergy S read t p.2 := by
  have least (idx : ℕ) (listed : idx < S.numFiles) := known.least idx (List.mem_range.mpr listed)
  rcases known.attained with ⟨-, none⟩ | ⟨b, member, covers, rfl⟩
  · obtain ⟨idx, listed, covers⟩ := covered
    exact absurd covers (none idx (List.mem_range.mpr listed))
  · refine ⟨List.mem_range.mp member, covers, ?_, ?_⟩
    · rintro ⟨j, listed_j, covers_j, has_j⟩
      have has : (read b).HasEnergy := by
        by_contra missing
        have above := least j listed_j covers_j
        have bound := (read j).energy_le
        rw [fileKey_of_not_hasEnergy missing, fileKey_of_hasEnergy has_j] at above
        exact above (Or.inl (lt_of_le_of_ne bound has_j.2))
      refine ⟨has, fun idx listed covers_idx has_idx => ?_⟩
      have above := least idx listed covers_idx
      rw [fileKey_of_hasEnergy has, fileKey_of_hasEnergy has_idx] at above
      unfold pairLess at above
      dsimp only [fileKey] at above ⊢
      omega
    · intro none idx listed covers_idx
      have missing (j : ℕ) (listed_j : j < S.numFiles) (covers_j : Covers S read t j) :
          ¬ (read j).HasEnergy := fun has => none ⟨j, listed_j, covers_j, has⟩
      have above := least idx listed covers_idx
      rw [fileKey_of_not_hasEnergy (missing b (List.mem_range.mp member) covers),
        fileKey_of_not_hasEnergy (missing idx listed covers_idx)] at above
      exact not_lt.mp fun smaller => above (Or.inr ⟨rfl, smaller⟩)

/-- **With `--energy-first`, the representatives are a function of the inputs.** However the queue
hands out the batches, the merged representative of a covered tuple is the file with the least
energy and index, and the energy that a worker stores for a tuple, if any, is the energy of its
representative. -/
theorem bestIdx_energyFirst (S : Setup) (read : ℕ → Reading S.maxTuple)
    (energyFirst : S.energyFirst = true) (q : QueueState) (run : Reachable (jobQueue S) q)
    (stopped : q.running = ∅) (t : ℕ) (covered : ∃ idx < S.numFiles, Covers S read t idx) :
    LeastEnergy S read t (bestIdx S (fun i => runWorker S read i (q.handed i)) t) ∧
      ∀ i < S.workers, (runWorker S read i (q.handed i)).bestEnergy t ≠ infEn →
        (runWorker S read i (q.handed i)).bestEnergy t =
          (read ((runWorker S read i (q.handed i)).m t)).energy := by
  have files := mem_handed_iff run stopped
  have known (i : ℕ) (worker : i < S.workers) : LeastKey S read (q.handed i).flatten t
      ((runWorker S read i (q.handed i)).bestEnergy t, (runWorker S read i (q.handed i)).m t) :=
    runWorker_leastKey energyFirst i (fun idx member => (files idx).mp ⟨i, worker, member⟩)
      (handed_increasing run i) t
  have pairs (i : ℕ) (worker : i < S.workers) :
      (runWorker S read i (q.handed i)).m t ≤ S.maxFileIndex ∧
        (runWorker S read i (q.handed i)).bestEnergy t ≤ infEn := by
    rcases (known i worker).attained with ⟨start, -⟩ | ⟨j, member, -, equal⟩
    · rw [Prod.mk.injEq] at start
      exact ⟨start.2.le, start.1.le⟩
    · have bound := fileKey_fst_le read j
      have listed := (files j).mp ⟨i, worker, member⟩
      have file : (runWorker S read i (q.handed i)).m t = j := congrArg Prod.snd equal
      rw [← equal] at bound
      exact ⟨file.trans_le (listed.le.trans S.numFiles_le_maxFileIndex), bound⟩
  constructor
  · rw [bestIdx_eq_snd pairs]
    refine (bestPair_leastKey known (fun idx => ?_) fun idx member =>
      List.mem_range.mp member).leastEnergy covered
    rw [List.mem_range]
    exact files idx
  · intro i worker set
    rcases (known i worker).attained with ⟨start, -⟩ | ⟨j, -, -, equal⟩
    · exact absurd (congrArg Prod.fst start) set
    · have file : (runWorker S read i (q.handed i)).m t = j := congrArg Prod.snd equal
      have energy := congrArg Prod.fst equal
      dsimp only [fileKey] at energy
      rw [file, energy]
      split
      · rename_i missing
        rw [if_pos missing] at energy
        exact absurd energy set
      · rfl

theorem bestIdx_energyFirst_two_files :
    LeastEnergy twoFiles readTwo 4
        (bestIdx twoFiles (fun i => runWorker twoFiles readTwo i (oneStopped.handed i)) 4) ∧
      (runWorker twoFiles readTwo 0 (oneStopped.handed 0)).bestEnergy 4 =
        (readTwo ((runWorker twoFiles readTwo 0 (oneStopped.handed 0)).m 4)).energy := by
  have chosen := bestIdx_energyFirst twoFiles readTwo rfl oneStopped oneStopped_reachable
    (by decide) 4 ⟨0, by decide, by decide, Or.inl rfl⟩
  exact ⟨chosen.1, chosen.2 0 (by decide) (by decide +kernel)⟩

theorem four_lt_maxTuple : ∀ t ∈ [4], t < twoFiles.maxTuple := by decide

/-- The first file has no energy, and the second one costs 10. -/
def readMissing (idx : ℕ) : Reading twoFiles.maxTuple :=
  if idx = 0 then { trace := [4], trace_lt := four_lt_maxTuple }
  else { trace := [4], energy := 10, trace_lt := four_lt_maxTuple }

/-- The first file has no energy, and the second one costs the largest `u64`. -/
def readLargest (idx : ℕ) : Reading twoFiles.maxTuple :=
  if idx = 0 then { trace := [4], trace_lt := four_lt_maxTuple }
  else { trace := [4], energy := infEn, trace_lt := four_lt_maxTuple }

/-- A worker that gets the second file before the first one represents the tuple by the file
without an energy and keeps the energy of the other. And a file whose energy is the largest `u64`
does not represent the tuple, though the other file has no energy. -/
theorem energyFirst_limits :
    ((runWorker twoFiles readMissing 0 [[1], [0]]).m 4 = 0 ∧
        (runWorker twoFiles readMissing 0 [[1], [0]]).bestEnergy 4 = 10 ∧
        (readMissing 0).energy = 0) ∧
      (bestIdx twoFiles (fun _ => runWorker twoFiles readLargest 0 [[0, 1]]) 4 = 0 ∧
        (readLargest 0).energy = 0 ∧ 0 < (readLargest 1).energy ∧ 4 ∈ (readLargest 1).trace) := by
  decide +kernel

end GreenFuzz.Cmin
