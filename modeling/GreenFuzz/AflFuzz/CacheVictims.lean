import GreenFuzz.AflFuzz.CacheInvariant

/-!
# The eviction loop has a victim

The eviction loop of `queue_testcase_get` draws slots until one holds an entry other than
`queue_cur`. With a capacity of at least three there always is such a slot: when the loop is
entered at least two entries are cached, and the capacity that the loop learns is at least three
again (`eviction_has_victim_iff`). With a capacity of one the loop is entered on an empty cache, and
with a capacity of two when `queue_cur` is the only cached entry.
-/

set_option autoImplicit false

namespace GreenFuzz.AflFuzz

open Library TestcaseCache

variable {s t : TestcaseCache} {q tid old len : ℕ} {fresh : ℕ → Option ℕ}

/-! ## Drawing a victim -/

/-- Below the highest count there is a slot that holds an entry other than `queue_cur`. -/
def HasVictim (s : TestcaseCache) : Prop :=
  ∃ i < s.maxCacheCount, ∃ old, s.cache i = some old ∧ s.queueCur ≠ some old

/-- The states in which a call of `queue_testcase_get` for `q` draws a victim: the condition of
the eviction loop holds, and the capacity was learned if it had to be. -/
inductive DrawsFrom (s : TestcaseCache) (q : ℕ) (fresh : ℕ → Option ℕ) : TestcaseCache → Prop
  | first {t : TestcaseCache} (absent : (s.entries q).testcaseBuf = none)
      (wanted : ¬ ((s.entries q).weight < 1 ∨ s.maxCacheSize = 0))
      (full : s.mustEvict (s.entries q).len = true)
      (learned : s.learnLimit (s.entries q).len fresh = .ok t) : DrawsFrom s q fresh t
  | again {t u : TestcaseCache} {tid old : ℕ} (drawn : DrawsFrom s q fresh t)
      (below : tid < t.maxCacheCount) (holds : t.cache tid = some old)
      (other : t.queueCur ≠ some old)
      (full : (t.evict tid old).mustEvict (s.entries q).len = true)
      (learned : (t.evict tid old).learnLimit (s.entries q).len fresh = .ok u) :
      DrawsFrom s q fresh u

/-- Whenever a victim is drawn, there is one. -/
def HasVictims (s : TestcaseCache) : Prop :=
  ∀ q fresh t, DrawsFrom s q fresh t → HasVictim t

/-! ## Three slots -/

/-- A sound cache of at least three slots. -/
structure Roomy (s : TestcaseCache) : Prop extends Inv s where
  three : 3 ≤ s.maxCacheEntries

theorem Roomy.evict (roomy : Roomy s) (below : tid < s.maxCacheCount)
    (holds : s.cache tid = some old) : Roomy (s.evict tid old) :=
  ⟨roomy.toInv.evict below holds, roomy.three⟩

/-- The loop is entered with at least two cached entries. -/
theorem Roomy.two_le (roomy : Roomy s) (full : s.mustEvict len = true) : 2 ≤ s.cacheCount := by
  have three := roomy.three
  rw [mustEvict, u32Pred_eq_sub (by omega) (roomy.small.trans (by decide))] at full
  simp only [Bool.or_eq_true, Bool.and_eq_true, decide_eq_true_eq] at full
  omega

/-- Learning the capacity changes nothing, or only the array and its length and capacity. -/
theorem learnLimit_cases (learned : s.learnLimit len fresh = .ok t) :
    t = s ∨ t.cacheCount = s.cacheCount ∧
      (s.cacheCount < s.maxCacheCount ∧ t.maxCacheEntries = u32 (s.maxCacheCount + 1) ∨
        t.maxCacheEntries = u32 (s.cacheCount + 1)) := by
  simp only [TestcaseCache.learnLimit] at learned
  split at learned
  · split at learned
    · rename_i _ higher
      split at learned
      · cases learned
      · cases learned
        exact .inr ⟨rfl, .inl ⟨higher, rfl⟩⟩
    · split at learned
      · cases learned
      · cases learned
        exact .inr ⟨rfl, .inr rfl⟩
  · cases learned
    exact .inl rfl

/-- Learning the capacity leaves the count alone, and at least three slots. -/
theorem Roomy.learnLimit (roomy : Roomy s) (full : s.mustEvict len = true)
    (learned : s.learnLimit len fresh = .ok t) : Roomy t ∧ t.cacheCount = s.cacheCount := by
  have two := roomy.two_le full
  have top := roomy.count_le_top
  have small := roomy.small
  have within := roomy.top
  rcases roomy.toInv.learnLimit with
    aborted | ⟨t', learned', inv, -⟩
  · rw [aborted] at learned
    cases learned
  · cases learned'.symm.trans learned
    rcases learnLimit_cases learned with rfl | ⟨count, ⟨-, capacity⟩ | capacity⟩
    · exact ⟨roomy, rfl⟩
    · exact ⟨⟨inv, by rw [capacity, u32_of_lt (by omega)]; omega⟩, count⟩
    · exact ⟨⟨inv, by rw [capacity, u32_of_lt (by omega)]; omega⟩, count⟩

/-- Two cached entries are two victims, unless one of them is `queue_cur`. -/
theorem Roomy.hasVictim (roomy : Roomy s) (two : 2 ≤ s.cacheCount) : HasVictim s := by
  rw [roomy.counted, ← Nat.lt_iff_add_one_le, Finset.one_lt_card] at two
  obtain ⟨i, first, j, second, differ⟩ := two
  obtain ⟨low, present⟩ := mem_occupied.mp first
  obtain ⟨low', present'⟩ := mem_occupied.mp second
  obtain ⟨a, holds⟩ := Option.isSome_iff_exists.mp present
  obtain ⟨b, holds'⟩ := Option.isSome_iff_exists.mp present'
  by_cases current : s.queueCur = some a
  · refine ⟨j, roomy.below_top low' holds', b, holds', fun also => ?_⟩
    have same : a = b := Option.some.inj (current.symm.trans also)
    exact differ (roomy.once i low j low' a holds (same ▸ holds'))
  · exact ⟨i, roomy.below_top low holds, a, holds, current⟩

/-- The step lemma of the loop: whenever a victim is drawn, two entries are cached. -/
theorem Roomy.draws (roomy : Roomy s) (drawn : DrawsFrom s q fresh t) :
    Roomy t ∧ 2 ≤ t.cacheCount := by
  induction drawn with
  | first absent wanted full learned =>
      obtain ⟨after, count⟩ := roomy.learnLimit full learned
      exact ⟨after, (roomy.two_le full).trans_eq count.symm⟩
  | again drawn below holds other full learned ih =>
      have evicted := ih.1.evict below holds
      obtain ⟨after, count⟩ := evicted.learnLimit full learned
      exact ⟨after, (evicted.two_le full).trans_eq count.symm⟩

theorem Roomy.hasVictims (roomy : Roomy s) : HasVictims s := fun _ _ _ drawn =>
  (roomy.draws drawn).1.hasVictim (roomy.draws drawn).2

/-! ## Runs -/

theorem Roomy.evictFrom (draws : List ℕ) (roomy : Roomy s)
    (done : evictFrom len fresh s draws = .ok (t, tid)) : 3 ≤ t.maxCacheEntries := by
  induction draws generalizing s with
  | nil => cases done
  | cons draw draws ih =>
      have low := roomy.randBelow_lt draw
      rw [TestcaseCache.evictFrom] at done
      split at done
      · cases done
      · split at done
        · exact ih roomy done
        · rename_i victim holds
          split at done
          · exact ih roomy done
          · have evicted := roomy.evict (roomy.below_top low holds) holds
            split at done
            · rename_i full
              obtain ⟨u, learned, rest⟩ := bind_eq_ok_iff.mp done
              exact ih (evicted.learnLimit full learned).1 rest
            · cases done
              exact evicted.three

theorem register_capacity (done : s.register q tid = .ok t) :
    t.maxCacheEntries = s.maxCacheEntries := by
  rw [register] at done
  split at done
  · cases done
  · cases done
    rfl

/-- The step lemma of a run: every operation leaves at least three slots. -/
theorem Roomy.apply (roomy : Roomy s) {op : CacheOp} (allowed : op.Allowed s)
    (done : op.apply s = .ok t) : Roomy t := by
  refine ⟨((roomy.toInv.apply op allowed).2 t done).1, ?_⟩
  cases op with
  | get q draws fresh =>
      simp only [CacheOp.apply, queueTestcaseGet] at done
      split at done
      · cases done
        exact roomy.three
      · split at done
        · cases done
          exact roomy.three
        · obtain ⟨⟨u, tid⟩, made, rest⟩ := bind_eq_ok_iff.mp done
          obtain ⟨found, -, registered⟩ := bind_eq_ok_iff.mp rest
          rw [register_capacity registered]
          rw [makeRoom] at made
          split at made
          · rename_i full
            obtain ⟨v, learned, evicts⟩ := bind_eq_ok_iff.mp made
            exact (roomy.learnLimit full learned).1.evictFrom draws evicts
          · cases made
            exact roomy.three
  | storeMem q =>
      simp only [CacheOp.apply, queueTestcaseStoreMem] at done
      split at done
      · cases done
        exact roomy.three
      · obtain ⟨found, -, registered⟩ := bind_eq_ok_iff.mp done
        rw [register_capacity registered]
        exact roomy.three
  | retake q oldLen =>
      cases done
      simp only [queueTestcaseRetake]
      split
      · split <;> exact roomy.three
      · exact roomy.three
  | retakeMem q len oldLen inPlace =>
      cases done
      simp only [queueTestcaseRetakeMem]
      split
      · split <;> exact roomy.three
      · exact roomy.three
  | select queueCur =>
      cases done
      exact roomy.three
  | reweigh q len weight =>
      cases done
      exact roomy.three

theorem roomy_of_reachable {maxCacheEntries : ℕ} (fits : RequestFits maxCacheEntries)
    (three : 3 ≤ maxCacheEntries) (run : Reachable (cacheSystem maxCacheEntries) s) : Roomy s := by
  refine run.invariant ?_ ?_
  · rintro s start
    refine ⟨inv_of_reachable fits (.init start), ?_⟩
    obtain ⟨maxCacheSize, queueCur, entries, -, started⟩ := start
    rw [startCache] at started
    split at started
    · cases started
    · cases started
      exact three
  · rintro s t - roomy ⟨op, allowed, done⟩
    exact roomy.apply allowed done

/-- A cache that has room for the case, but no slot. -/
theorem draws_of_room (absent : (s.entries q).testcaseBuf = none)
    (heavy : ¬ (s.entries q).weight < 1)
    (room : u64 (s.cacheSize + (s.entries q).len) < s.maxCacheSize)
    (full : u32Pred s.maxCacheEntries ≤ s.cacheCount) : DrawsFrom s q fresh s := by
  refine .first absent (fun light => ?_) ?_ (if_neg fun learns => Nat.not_lt.mpr learns.1 room)
  · exact light.elim heavy (by omega)
  · rw [mustEvict, decide_eq_true full, Bool.or_true]

/-- With one slot the loop is entered on the empty cache. -/
theorem draws_empty (fresh : ℕ → Option ℕ) :
    DrawsFrom (filledCache 1 1 0) 0 fresh (filledCache 1 1 0) :=
  draws_of_room rfl (lt_irrefl 1) (by decide) (by decide)

/-- With two slots the loop is entered when `queue_cur` is the only entry. -/
theorem draws_current (fresh : ℕ → Option ℕ) :
    DrawsFrom { filledCache 2 2 1 with queueCur := some 0 } 1 fresh
      { filledCache 2 2 1 with queueCur := some 0 } :=
  draws_of_room rfl (lt_irrefl 1) (by decide) (by decide)

/-- **The eviction loop always has a victim**, in every run, exactly when the cache has three
slots at least. -/
theorem eviction_has_victim_iff (maxCacheEntries : ℕ) (one : 1 ≤ maxCacheEntries)
    (fits : RequestFits maxCacheEntries) :
    (∀ s, Reachable (cacheSystem maxCacheEntries) s → HasVictims s) ↔ 3 ≤ maxCacheEntries := by
  constructor
  · intro always
    by_contra few
    obtain rfl | rfl : maxCacheEntries = 1 ∨ maxCacheEntries = 2 := by omega
    · have empty : Reachable (cacheSystem 1) (filledCache 1 1 0) :=
        filledCache_start (by decide) (by decide)
      obtain ⟨i, below, -⟩ := always _ empty 0 (fun _ => none) _ (draws_empty _)
      exact absurd below (Nat.not_lt_zero i)
    · have stored : Reachable (cacheSystem 2) (filledCache 2 2 1) :=
        filledCache_reachable (by decide) (by decide) (by decide) (by decide) (by decide)
      have current : Reachable (cacheSystem 2) { filledCache 2 2 1 with queueCur := some 0 } :=
        stored.step ⟨.select (some 0), trivial, rfl⟩
      obtain ⟨i, below, old, holds, other⟩ :=
        always _ current 1 (fun _ => none) _ (draws_current _)
      obtain rfl : i = 0 := Nat.lt_one_iff.mp below
      exact other holds
  · intro three s run
    exact (roomy_of_reachable fits three run).hasVictims

/-- The default capacity. -/
theorem eviction_has_victim_default :
    HasVictims (filledCache 65536 65536 2) :=
  (eviction_has_victim_iff 65536 (by decide) (Or.inl (by decide))).mpr (by decide) _
    (filledCache_reachable (by decide) (by decide) (by decide) (by decide) (by decide))

/-- With `AFL_TESTCACHE_ENTRIES=1` the first call draws from the empty cache, and no random
numbers end it. -/
theorem empty_cache_has_no_victim :
    Reachable (cacheSystem 1) (filledCache 1 1 0) ∧ ¬ HasVictims (filledCache 1 1 0) ∧
      ∀ draws, queueTestcaseGet (filledCache 1 1 0) 0 draws (fun _ => none) =
        .error .undecided := by
  refine ⟨filledCache_start (by decide) (by decide), fun always => ?_, fun draws => ?_⟩
  · obtain ⟨i, below, -⟩ := always 0 (fun _ => none) _ (draws_empty _)
    exact absurd below (Nat.not_lt_zero i)
  · have ends (draws : List ℕ) :
        evictFrom 1 (fun _ => none) (filledCache 1 1 0) draws = .error .undecided := by
      induction draws with
      | nil => rfl
      | cons draw draws ih => exact ih
    have full : (filledCache 1 1 0).mustEvict 1 = true := by decide
    have learned : (filledCache 1 1 0).learnLimit 1 (fun _ => none) = .ok (filledCache 1 1 0) :=
      if_neg fun learns => absurd learns.1 (by decide)
    have heavy : ¬ (((filledCache 1 1 0).entries 0).weight < 1 ∨
        (filledCache 1 1 0).maxCacheSize = 0) := by
      rintro (light | none)
      · exact lt_irrefl 1 light
      · cases none
    have cached : ¬ ((filledCache 1 1 0).entries 0).testcaseBuf ≠ none := not_not.mpr rfl
    have made : (filledCache 1 1 0).makeRoom 1 (fun _ => none) draws = .error .undecided := by
      rw [makeRoom, full, if_pos rfl, learned]
      exact ends draws
    rw [queueTestcaseGet, if_neg cached, if_neg heavy]
    show ((filledCache 1 1 0).makeRoom 1 (fun _ => none) draws >>= _) = _
    rw [made]
    rfl

end GreenFuzz.AflFuzz
