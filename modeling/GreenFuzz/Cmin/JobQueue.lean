import GreenFuzz.Cmin.Worker
import GreenFuzz.Library.Runs
import Mathlib.Algebra.BigOperators.Group.Finset.Basic
import Mathlib.Algebra.Order.Group.Multiset
import Mathlib.Data.Multiset.Basic
import Mathlib.Tactic.Abel

/-!
# The job queue of `afl-cmin.py`

`main` cuts the list of files into batches. The dispatcher puts the batches on the queue in
order, followed by one sentinel for each worker. Any worker that still runs may take the next
job; a worker that takes a sentinel stops.

When all workers have stopped, every batch was handed to exactly one worker
(`handed_eq_batches`), and each worker got its batches in the order of the files
(`handed_sublist`).
-/

set_option autoImplicit false

namespace GreenFuzz.Cmin

open Library

/-! ## Batches -/

/-- The batches of `batched`, for at most the given number of batches. -/
def batchesOf {α : Type*} (size : ℕ) : ℕ → List α → List (List α)
  | 0, _ => []
  | rounds + 1, items =>
      if items.isEmpty then []
      else items.take size :: batchesOf size rounds (items.drop size)

/-- `batched`. -/
def batched {α : Type*} (size : ℕ) (items : List α) : List (List α) :=
  batchesOf size items.length items

theorem flatten_batchesOf {α : Type*} {size : ℕ} (positive : 0 < size) {rounds : ℕ}
    {items : List α} (enough : items.length ≤ rounds) :
    (batchesOf size rounds items).flatten = items := by
  induction rounds generalizing items with
  | zero =>
      rw [List.length_eq_zero_iff.mp (Nat.le_zero.mp enough)]
      rfl
  | succ rounds ih =>
      cases items with
      | nil => rfl
      | cons item items =>
          have shorter : ((item :: items).drop size).length ≤ rounds := by
            rw [List.length_drop]
            omega
          rw [batchesOf, List.isEmpty_cons, if_neg Bool.false_ne_true, List.flatten_cons,
            ih shorter, List.take_append_drop]

theorem flatten_batched {α : Type*} {size : ℕ} (positive : 0 < size) (items : List α) :
    (batched size items).flatten = items :=
  flatten_batchesOf positive le_rfl

/-- The number of files in a batch. -/
def Setup.chunk (S : Setup) : ℕ :=
  if S.noBatch then 1 else max 1 (min 128 (S.numFiles / S.workers))

theorem Setup.chunk_pos (S : Setup) : 0 < S.chunk := by
  unfold Setup.chunk
  split <;> omega

/-- The batches of file indices. -/
def Setup.batches (S : Setup) : List (List ℕ) := batched S.chunk (List.range S.numFiles)

theorem Setup.flatten_batches (S : Setup) : S.batches.flatten = List.range S.numFiles :=
  flatten_batched S.chunk_pos _

/-! ## The queue -/

/-- The jobs on the queue, the batches handed to each worker, and the workers that run. -/
structure QueueState where
  jobs : List (Option (List ℕ))
  handed : ℕ → List (List ℕ)
  running : Finset ℕ

/-- A running worker takes the next job. -/
inductive QueueStep : QueueState → QueueState → Prop where
  | batch (q : QueueState) (worker : ℕ) (batch : List ℕ) (rest : List (Option (List ℕ))) :
      worker ∈ q.running → q.jobs = some batch :: rest →
        QueueStep q { q with
          jobs := rest
          handed := Function.update q.handed worker (q.handed worker ++ [batch]) }
  | sentinel (q : QueueState) (worker : ℕ) (rest : List (Option (List ℕ))) :
      worker ∈ q.running → q.jobs = none :: rest →
        QueueStep q { q with jobs := rest, running := q.running.erase worker }

/-- The batches and one sentinel for each worker, before any worker took a job. -/
def QueueState.start (S : Setup) : QueueState where
  jobs := S.batches.map some ++ List.replicate S.workers none
  handed := fun _ => []
  running := Finset.range S.workers

def jobQueue (S : Setup) : TransitionSystem QueueState where
  init q := q = .start S
  step := QueueStep

/-! ## What the queue hands out -/

/-- The batches that are still queued, those handed out, and the sentinels that are left. -/
structure HandsOut (S : Setup) (q : QueueState) (rest : List (List ℕ)) : Prop where
  jobs_eq : q.jobs = rest.map some ++ List.replicate q.running.card none
  running_sub : q.running ⊆ Finset.range S.workers
  all : ∑ i ∈ Finset.range S.workers, (q.handed i : Multiset (List ℕ)) + rest = S.batches
  in_order : ∀ i, (q.handed i ++ rest).Sublist S.batches
  sentinels_last : rest = [] ∨ q.running.card = S.workers

theorem handsOut_start (S : Setup) : HandsOut S (.start S) S.batches := by
  refine ⟨?_, Finset.Subset.rfl, ?_, fun _ => .refl _, Or.inr ?_⟩
  · rw [QueueState.start, Finset.card_range]
  · simp [QueueState.start]
  · rw [QueueState.start, Finset.card_range]

theorem HandsOut.step {S : Setup} {q next : QueueState} {rest : List (List ℕ)}
    (hands : HandsOut S q rest) (taken : QueueStep q next) : ∃ rest, HandsOut S next rest := by
  have jobs_eq := hands.jobs_eq
  cases taken with
  | batch worker batch jobs runs queued =>
      rw [queued] at jobs_eq
      cases rest with
      | nil =>
          cases left : q.running.card with
          | zero => rw [left] at jobs_eq; cases jobs_eq
          | succ k =>
              rw [left, List.replicate_succ] at jobs_eq
              cases jobs_eq
      | cons first rest =>
          rw [List.map_cons, List.cons_append, List.cons.injEq, Option.some.injEq] at jobs_eq
          obtain ⟨rfl, jobs_eq⟩ := jobs_eq
          have inside := hands.running_sub runs
          refine ⟨rest, jobs_eq, hands.running_sub, ?_, ?_, ?_⟩
          · have all := hands.all
            have others : ∑ i ∈ (Finset.range S.workers).erase worker,
                (Function.update q.handed worker (q.handed worker ++ [batch]) i :
                  Multiset (List ℕ)) =
                ∑ i ∈ (Finset.range S.workers).erase worker, (q.handed i : Multiset (List ℕ)) := by
              refine Finset.sum_congr rfl fun i member => ?_
              rw [Function.update_of_ne (Finset.ne_of_mem_erase member)]
            rw [← Finset.add_sum_erase _ _ inside] at all ⊢
            dsimp only
            rw [others, Function.update_self, ← Multiset.coe_add, ← all,
              Multiset.coe_singleton, ← Multiset.cons_coe, ← Multiset.singleton_add]
            abel
          · intro i
            have order := hands.in_order i
            by_cases taker : i = worker
            · subst taker
              dsimp only
              rw [Function.update_self, List.append_assoc]
              exact order
            · dsimp only
              rw [Function.update_of_ne taker]
              exact (List.Sublist.append_left (List.sublist_cons_self batch rest) _).trans order
          · exact Or.inr (hands.sentinels_last.resolve_left (List.cons_ne_nil _ _))
  | sentinel worker jobs runs queued =>
      rw [queued] at jobs_eq
      cases rest with
      | cons first rest => cases jobs_eq
      | nil =>
          refine ⟨[], ?_, (Finset.erase_subset _ _).trans hands.running_sub, hands.all,
            hands.in_order, Or.inl rfl⟩
          have count := Finset.card_erase_add_one runs
          rw [← count, List.replicate_succ] at jobs_eq
          cases jobs_eq
          rfl

variable {S : Setup} {q : QueueState} (run : Reachable (jobQueue S) q)

include run

theorem handsOut_of_reachable : ∃ rest, HandsOut S q rest := by
  refine run.invariant (P := fun q => ∃ rest, HandsOut S q rest) ?_ ?_
  · rintro q rfl
    exact ⟨_, handsOut_start S⟩
  · rintro q next - ⟨rest, hands⟩ taken
    exact hands.step taken

/-- **When all workers have stopped, every batch was handed to exactly one worker.** -/
theorem handed_eq_batches (stopped : q.running = ∅) :
    ∑ i ∈ Finset.range S.workers, (q.handed i : Multiset (List ℕ)) = S.batches := by
  obtain ⟨rest, hands⟩ := handsOut_of_reachable run
  have empty : rest = [] := by
    refine hands.sentinels_last.resolve_right ?_
    rw [stopped, Finset.card_empty]
    exact S.workers_pos.ne
  have all := hands.all
  rw [empty] at all
  simpa using all

theorem handed_perm (stopped : q.running = ∅) :
    ((List.range S.workers).flatMap q.handed).Perm S.batches := by
  have all := handed_eq_batches run stopped
  have joined : ((List.range S.workers).flatMap q.handed : Multiset (List ℕ)) =
      ∑ i ∈ Finset.range S.workers, (q.handed i : Multiset (List ℕ)) :=
    (Multiset.coe_bind (List.range S.workers) q.handed).symm
  exact Multiset.coe_eq_coe.mp (joined.trans all)

/-- Each worker gets its batches in the order of the files. -/
theorem handed_sublist (i : ℕ) : (q.handed i).Sublist S.batches := by
  obtain ⟨rest, hands⟩ := handsOut_of_reachable run
  exact (List.sublist_append_left _ _).trans (hands.in_order i)

/-- The files that a worker gets are in increasing order. -/
theorem handed_increasing (i : ℕ) : (q.handed i).flatten.Pairwise (· < ·) := by
  have order := (handed_sublist run i).flatten
  rw [S.flatten_batches] at order
  exact List.pairwise_lt_range.sublist order

/-- The workers get the files of the list, and no file is left out. -/
theorem mem_handed_iff (stopped : q.running = ∅) (idx : ℕ) :
    (∃ i < S.workers, idx ∈ (q.handed i).flatten) ↔ idx < S.numFiles := by
  have batch_iff (batch : List ℕ) : batch ∈ S.batches ↔ ∃ i < S.workers, batch ∈ q.handed i := by
    rw [← Multiset.mem_coe, ← handed_eq_batches run stopped, Multiset.mem_sum]
    simp
  have file_iff : idx < S.numFiles ↔ ∃ batch ∈ S.batches, idx ∈ batch := by
    rw [← List.mem_range, ← S.flatten_batches, List.mem_flatten]
  rw [file_iff]
  constructor
  · rintro ⟨i, worker, member⟩
    obtain ⟨batch, handed, inside⟩ := List.mem_flatten.mp member
    exact ⟨batch, (batch_iff batch).mpr ⟨i, worker, handed⟩, inside⟩
  · rintro ⟨batch, listed, inside⟩
    obtain ⟨i, worker, handed⟩ := (batch_iff batch).mp listed
    exact ⟨i, worker, List.mem_flatten.mpr ⟨batch, handed, inside⟩⟩

end GreenFuzz.Cmin
