import GreenFuzz.AflFuzz.TestcaseCache

/-!
# The structure of the testcase cache

One invariant ties the counters of the cache to its array. It bounds the highest count by
the capacity and the capacity by the allocated length, so that a search for a free slot
ends below the capacity, and it is kept by every operation (`cache_sound_iff`).

It needs an array of at least as many slots as the capacity. The allocator takes the size
as a `u32`, so for a capacity of `2 ^ 29` or more a smaller array is allocated, and the
search runs out of it (`truncated_cache_overruns`).
-/

set_option autoImplicit false

namespace GreenFuzz.AflFuzz

open Library

namespace TestcaseCache

variable {s t : TestcaseCache} {q i tid old len : ℕ} {fresh : ℕ → Option ℕ}

/-- Whether entry `q` has a buffer. -/
def Cached (s : TestcaseCache) (q : ℕ) : Prop := (s.entries q).testcaseBuf ≠ none

/-- What every operation keeps. -/
structure Inv (s : TestcaseCache) : Prop where
  small : s.maxCacheEntries ≤ 2 ^ 27
  fits : s.maxCacheEntries ≤ s.allocated
  top : s.maxCacheCount ≤ s.maxCacheEntries
  above : ∀ i, s.maxCacheCount ≤ i → i < s.maxCacheEntries → s.cache i = none
  counted : s.cacheCount = (occupied s.cache s.maxCacheEntries).card
  room : s.cacheCount < s.maxCacheEntries
  hint : s.smallestFree ≤ s.maxCacheCount
  below : ∀ i < s.smallestFree, s.cache i ≠ none
  cached : ∀ i < s.maxCacheEntries, ∀ q, s.cache i = some q → s.Cached q
  slot : ∀ q, s.Cached q → ∃ i < s.maxCacheEntries, s.cache i = some q
  once : ∀ i < s.maxCacheEntries, ∀ j < s.maxCacheEntries, ∀ q,
    s.cache i = some q → s.cache j = some q → i = j

theorem changed_apply (s : TestcaseCache) (q p : ℕ) (change : CacheEntry → CacheEntry) :
    s.changed q change p = if p = q then change (s.entries q) else s.entries p :=
  Function.update_apply _ _ _ _

/-- Replacing a buffer keeps the lengths. -/
theorem changed_len (s : TestcaseCache) (q : ℕ) (buffer : Option ℕ) (p : ℕ) :
    (s.changed q (fun e => { e with testcaseBuf := buffer }) p).len = (s.entries p).len := by
  rw [changed_apply]
  split
  · rename_i same
    rw [same]
  · rfl

/-! ## Evicting -/

/-- A slot below the highest count is a slot of the cache. -/
theorem Inv.inside (inv : Inv s) (below : i < s.maxCacheCount) : i < s.maxCacheEntries :=
  below.trans_le inv.top

/-- After an eviction exactly the victim is not cached any more. -/
theorem cached_evict {p : ℕ} : (s.evict tid old).Cached p ↔ p ≠ old ∧ s.Cached p := by
  show ((s.changed old fun e => { e with testcaseBuf := none }) p).testcaseBuf ≠ none ↔ _
  rw [changed_apply]
  split
  · rename_i same
    simp [same]
  · rename_i differ
    simp [differ, Cached]

/-- An occupied slot is below the highest count. -/
theorem Inv.below_top (inv : Inv s) (low : i < s.maxCacheEntries) (holds : s.cache i = some old) :
    i < s.maxCacheCount := by
  by_contra high
  rw [inv.above i (Nat.le_of_not_lt high) low] at holds
  cases holds

theorem Inv.evict (inv : Inv s) (below : tid < s.maxCacheCount) (holds : s.cache tid = some old) :
    Inv (s.evict tid old) := by
  have inside := inv.inside below
  have used : tid ∈ occupied s.cache s.maxCacheEntries :=
    mem_occupied.mpr ⟨inside, by rw [holds]; rfl⟩
  have positive : 0 < s.cacheCount := by
    rw [inv.counted]
    exact Finset.card_pos.mpr ⟨tid, used⟩
  have count : u32Pred s.cacheCount = s.cacheCount - 1 :=
    u32Pred_eq_sub positive (inv.room.le.trans (inv.small.trans (by decide)))
  have kept {i p : ℕ} (present : Function.update s.cache tid none i = some p) :
      i ≠ tid ∧ s.cache i = some p := by
    rw [Function.update_apply] at present
    split at present
    · cases present
    · exact ⟨‹_›, present⟩
  refine ⟨inv.small, inv.fits, inv.top, ?_, ?_, ?_, ?_, ?_, ?_, ?_, ?_⟩
  · intro i high low
    show Function.update s.cache tid none i = none
    rw [Function.update_apply, inv.above i high low, ite_self]
  · show u32Pred s.cacheCount = (occupied (Function.update s.cache tid none) _).card
    rw [count, inv.counted, occupied_update_none]
    exact (Finset.card_erase_of_mem used).symm
  · show u32Pred s.cacheCount < s.maxCacheEntries
    have := inv.room
    omega
  · show (if tid < s.smallestFree then tid else s.smallestFree) ≤ s.maxCacheCount
    split
    · exact below.le
    · exact inv.hint
  · intro i (less : i < if tid < s.smallestFree then tid else s.smallestFree)
    show Function.update s.cache tid none i ≠ none
    have early : i < s.smallestFree ∧ i ≠ tid := by
      split at less <;> omega
    rw [Function.update_of_ne early.2]
    exact inv.below i early.1
  · intro i low p present
    obtain ⟨differ, before⟩ := kept present
    refine cached_evict.mpr ⟨?_, inv.cached i low p before⟩
    rintro rfl
    exact differ (inv.once i low tid inside p before holds)
  · intro p cached
    obtain ⟨differ, before⟩ := cached_evict.mp cached
    obtain ⟨i, low, present⟩ := inv.slot p before
    refine ⟨i, low, ?_⟩
    show Function.update s.cache tid none i = some p
    rw [Function.update_of_ne, present]
    rintro rfl
    rw [holds] at present
    exact differ (Option.some.inj present).symm
  · intro i low j low' p first second
    exact inv.once i low j low' p (kept first).2 (kept second).2

/-- The count never exceeds the highest count. -/
theorem Inv.count_le_top (inv : Inv s) : s.cacheCount ≤ s.maxCacheCount := by
  rw [inv.counted, occupied_eq_of_empty inv.top inv.above]
  calc (occupied s.cache s.maxCacheCount).card
      ≤ (Finset.range s.maxCacheCount).card := Finset.card_le_card (Finset.filter_subset _ _)
    _ = s.maxCacheCount := Finset.card_range _

/-- What learning the capacity and evicting leave alone. -/
structure Evicts (s t : TestcaseCache) : Prop where
  queueCur : t.queueCur = s.queueCur
  len : ∀ q, (t.entries q).len = (s.entries q).len
  fewer : ∀ q, t.Cached q → s.Cached q
  current : ∀ q, s.queueCur = some q → s.Cached q → t.Cached q

theorem Evicts.refl (s : TestcaseCache) : Evicts s s :=
  ⟨rfl, fun _ => rfl, fun _ cached => cached, fun _ _ cached => cached⟩

theorem Evicts.trans {u : TestcaseCache} (first : Evicts s t) (second : Evicts t u) :
    Evicts s u where
  queueCur := second.queueCur.trans first.queueCur
  len q := (second.len q).trans (first.len q)
  fewer q cached := first.fewer q (second.fewer q cached)
  current q here cached :=
    second.current q (first.queueCur.trans here) (first.current q here cached)

/-- Nobody is evicted when the entries stay the same. -/
theorem Evicts.of_same (queueCur : t.queueCur = s.queueCur) (entries : t.entries = s.entries) :
    Evicts s t := by
  refine ⟨queueCur, fun q => ?_, fun _ => ?_, fun _ _ => ?_⟩
  · rw [entries]
  · rw [Cached, entries]
    exact id
  · rw [Cached, Cached, entries]
    exact id

theorem evicts_evict (tid : ℕ) (other : s.queueCur ≠ some old) : Evicts s (s.evict tid old) where
  queueCur := rfl
  len := changed_len s old none
  fewer _ cached := (cached_evict.mp cached).2
  current _ here cached := cached_evict.mpr ⟨fun same => other (same ▸ here), cached⟩

/-- The capacity can be lowered to one above the highest count, with any array that agrees
on the slots below the new capacity. -/
theorem Inv.shrink (inv : Inv s)
    (lower : s.maxCacheCount < s.maxCacheEntries) {allocated : ℕ}
    (fits : s.maxCacheCount + 1 ≤ allocated) {cache : ℕ → Option ℕ}
    (same : ∀ i < s.maxCacheCount + 1, cache i = s.cache i) :
    Inv { s with
      maxCacheEntries := s.maxCacheCount + 1
      doOnce := true
      allocated := allocated
      cache := cache } := by
  have top := inv.count_le_top
  have small := inv.small
  have hint := inv.hint
  have slots : occupied cache (s.maxCacheCount + 1) = occupied s.cache s.maxCacheEntries := by
    rw [occupied_eq_of_empty inv.top inv.above,
      ← occupied_eq_of_empty (Nat.le_succ s.maxCacheCount)
        fun i high low => inv.above i high (by omega)]
    ext i
    rw [mem_occupied, mem_occupied]
    exact and_congr_right fun low => by rw [same i low]
  constructor <;> dsimp only
  case small => omega
  case fits => exact fits
  case top => omega
  case above =>
    intro i high low
    rw [same i low]
    exact inv.above i high (by omega)
  case counted =>
    rw [slots]
    exact inv.counted
  case room => omega
  case hint => exact hint
  case below =>
    intro i low
    rw [same i (by omega)]
    exact inv.below i low
  case cached =>
    intro i low p present
    rw [same i low] at present
    exact inv.cached i (by omega) p present
  case slot =>
    intro p cached
    obtain ⟨i, low, present⟩ := inv.slot p cached
    have used := inv.below_top low present
    refine ⟨i, by omega, ?_⟩
    rw [same i (by omega), present]
  case once =>
    intro i low j low' p first second
    rw [same i low] at first
    rw [same j low'] at second
    exact inv.once i (by omega) j (by omega) p first second

/-- Learning the capacity keeps the invariant and all entries. It never accesses the array
out of bounds. -/
theorem Inv.learnLimit (inv : Inv s) :
    s.learnLimit len fresh = .error .aborted ∨
      ∃ t, s.learnLimit len fresh = .ok t ∧ Inv t ∧ t.queueCur = s.queueCur ∧
        t.entries = s.entries ∧ t.cacheSize = s.cacheSize := by
  unfold TestcaseCache.learnLimit
  split
  · rename_i learns
    obtain ⟨-, -, lower, -⟩ := learns
    have small := inv.small
    have top := inv.count_le_top
    have capacity : (if s.cacheCount < s.maxCacheCount then u32 (s.maxCacheCount + 1)
        else u32 (s.cacheCount + 1)) = s.maxCacheCount + 1 := by
      split
      · exact u32_of_lt (by omega)
      · rw [u32_of_lt (by omega)]
        omega
    have bytes : requestBytes (u32 (s.maxCacheCount + 1 + 1)) = (s.maxCacheCount + 2) * 8 := by
      rw [requestBytes, u32_of_lt (n := s.maxCacheCount + 1 + 1) (by omega), u32_of_lt (by omega)]
    dsimp only
    rw [capacity, bytes]
    split
    · exact Or.inl rfl
    · refine Or.inr ⟨_, rfl, inv.shrink lower (by omega) fun i low => if_pos ?_, ?_⟩
      · have := inv.fits
        omega
      · exact ⟨rfl, rfl, rfl⟩
  · exact Or.inr ⟨s, rfl, inv, rfl, rfl, rfl⟩

/-! ## Making room -/

/-- What is known after the eviction loop: there is room for one more entry, and `tid` is
the highest count or an empty slot. -/
structure Room (s t : TestcaseCache) (tid : ℕ) : Prop where
  inv : Inv t
  evicts : Evicts s t
  room : t.cacheCount + 1 < t.maxCacheEntries
  start : tid = t.maxCacheCount ∨ tid < t.maxCacheEntries ∧ t.cache tid = none

/-- When the loop ends, one more entry fits below the capacity. -/
theorem room_of_not_mustEvict (inv : Inv s) (enough : s.mustEvict len = false) :
    s.cacheCount + 1 < s.maxCacheEntries := by
  have room := inv.room
  rw [mustEvict, u32Pred_eq_sub (by omega) (inv.small.trans (by decide))] at enough
  simp only [Bool.or_eq_false_iff, decide_eq_false_iff_not] at enough
  omega

/-- Random numbers choose a slot of the cache. -/
theorem Inv.randBelow_lt (inv : Inv s) (draw : ℕ) :
    randBelow s.maxCacheCount draw < s.maxCacheEntries := by
  have room := inv.room
  have top := inv.top
  unfold randBelow
  split
  · omega
  · have := Nat.mod_lt draw (show 0 < s.maxCacheCount by omega)
    omega

/-- The eviction loop ends with room, is aborted, or needs more random numbers. -/
theorem Inv.evictFrom (draws : List ℕ) (inv : Inv s) :
    evictFrom len fresh s draws = .error .aborted ∨
      evictFrom len fresh s draws = .error .undecided ∨
      ∃ t tid, evictFrom len fresh s draws = .ok (t, tid) ∧ Room s t tid := by
  induction draws generalizing s with
  | nil => exact Or.inr (Or.inl rfl)
  | cons draw draws ih =>
      have low := inv.randBelow_lt draw
      have inside : ¬ s.allocated ≤ randBelow s.maxCacheCount draw := by
        have := inv.fits
        omega
      unfold TestcaseCache.evictFrom
      dsimp only
      rw [if_neg inside]
      cases holds : s.cache (randBelow s.maxCacheCount draw) with
      | none => exact ih inv
      | some old =>
          dsimp only
          by_cases current : s.queueCur = some old
          · rw [if_pos current]
            exact ih inv
          · rw [if_neg current]
            have below := inv.below_top low holds
            have evicted := inv.evict below holds
            have evicts := evicts_evict (randBelow s.maxCacheCount draw) current
            cases full : (s.evict (randBelow s.maxCacheCount draw) old).mustEvict len with
            | false =>
                refine Or.inr (Or.inr ⟨_, _, rfl, evicted, evicts,
                  room_of_not_mustEvict evicted full, Or.inr ⟨low, ?_⟩⟩)
                exact Function.update_self _ _ _
            | true =>
                rw [if_pos rfl]
                rcases evicted.learnLimit with aborted | ⟨t, learned, inv, current, entries, -⟩
                · rw [aborted]
                  exact Or.inl rfl
                · rw [learned]
                  rcases ih inv with failed | more | ⟨u, tid, done, room⟩
                  · exact Or.inl failed
                  · exact Or.inr (Or.inl more)
                  · have before := evicts.trans (Evicts.of_same current entries)
                    exact Or.inr (Or.inr ⟨u, tid, done,
                      { room with evicts := before.trans room.evicts }⟩)

/-- The eviction loop of `queue_testcase_get`. -/
theorem Inv.makeRoom (inv : Inv s) (draws : List ℕ) :
    s.makeRoom len fresh draws = .error .aborted ∨
      s.makeRoom len fresh draws = .error .undecided ∨
      ∃ t tid, s.makeRoom len fresh draws = .ok (t, tid) ∧ Room s t tid := by
  unfold TestcaseCache.makeRoom
  cases full : s.mustEvict len with
  | false =>
      simp only [Bool.false_eq_true, if_false]
      exact Or.inr (Or.inr ⟨s, _, rfl, inv, Evicts.refl s, room_of_not_mustEvict inv full,
        Or.inl rfl⟩)
  | true =>
      rw [if_pos rfl]
      rcases inv.learnLimit with aborted | ⟨t, learned, inv, current, entries, -⟩
      · rw [aborted]
        exact Or.inl rfl
      · rw [learned]
        rcases inv.evictFrom draws with failed | more | ⟨u, tid, done, room⟩
        · exact Or.inl failed
        · exact Or.inr (Or.inl more)
        · exact Or.inr (Or.inr ⟨u, tid, done,
            { room with evicts := (Evicts.of_same current entries).trans room.evicts }⟩)

/-! ## Inserting -/

/-- A search from the highest count, from an empty slot, or from the hint when all slots were
used once, ends at an empty slot below the capacity. -/
theorem Inv.scan (inv : Inv s)
    (start : tid = s.maxCacheCount ∨ tid < s.maxCacheEntries ∧ s.cache tid = none) :
    ∃ found, s.scan (if s.maxCacheEntries ≤ tid then s.smallestFree else tid) = .ok found ∧
      found < s.maxCacheEntries ∧ s.cache found = none := by
  have fits := inv.fits
  obtain ⟨free, from_start, low, empty⟩ : ∃ free,
      (if s.maxCacheEntries ≤ tid then s.smallestFree else tid) ≤ free ∧
        free < s.maxCacheEntries ∧ s.cache free = none := by
    by_cases beyond : s.maxCacheEntries ≤ tid
    · rw [if_pos beyond]
      obtain ⟨free, low, empty⟩ : ∃ i < s.maxCacheEntries, s.cache i = none :=
        exists_empty (by rw [← inv.counted]; exact inv.room)
      refine ⟨free, ?_, low, empty⟩
      by_contra early
      exact inv.below free (Nat.lt_of_not_le early) empty
    · rw [if_neg beyond]
      have low := Nat.lt_of_not_le beyond
      rcases start with rfl | ⟨-, empty⟩
      · exact ⟨_, le_rfl, low, inv.above _ le_rfl low⟩
      · exact ⟨_, le_rfl, low, empty⟩
  obtain ⟨found, result, -, upto, free⟩ := firstEmpty_finds from_start
    (show free < _ + (s.allocated - (if s.maxCacheEntries ≤ tid then s.smallestFree else tid)) by
      omega) empty
  refine ⟨found, ?_, upto.trans_lt low, free⟩
  rw [TestcaseCache.scan, result]

/-- After an insertion exactly the new entry is cached in addition. -/
theorem Inv.register (inv : Inv s) (room : s.cacheCount + 1 < s.maxCacheEntries)
    (low : tid < s.maxCacheEntries) (empty : s.cache tid = none) (absent : ¬ s.Cached q) :
    ∃ t, s.register q tid = .ok t ∧ Inv t ∧ (∀ p, t.Cached p ↔ p = q ∨ s.Cached p) ∧
      (∀ p, (t.entries p).len = (s.entries p).len) ∧
      t.cacheSize = u64 (s.cacheSize + (s.entries q).len) := by
  have small := inv.small
  have fits := inv.fits
  have hint := inv.hint
  have top := inv.top
  have inside : ¬ s.allocated ≤ tid := by omega
  unfold TestcaseCache.register
  dsimp only
  rw [if_neg inside, u32_of_lt (n := s.cacheCount + 1) (by omega),
    u32_of_lt (n := tid + 1) (by omega)]
  have cached (p : ℕ) : ((s.changed q fun e =>
      { e with testcaseBuf := some (s.entries q).len }) p).testcaseBuf ≠ none ↔
        p = q ∨ s.Cached p := by
    rw [changed_apply]
    split
    · rename_i same
      simp [same]
    · rename_i differ
      simp [differ, Cached]
  have slots {i p : ℕ} : Function.update s.cache tid (some q) i = some p ↔
      i = tid ∧ p = q ∨ i ≠ tid ∧ s.cache i = some p := by
    rw [Function.update_apply]
    split
    · rename_i same
      simp [same, eq_comm]
    · rename_i differ
      simp [differ]
  have fresh_slot {i : ℕ} (present : s.cache i = some q) (below : i < s.maxCacheEntries) : False :=
    absent (inv.cached i below q present)
  refine ⟨_, rfl, ?_, cached, changed_len s q _, rfl⟩
  constructor <;> dsimp only
  case small => exact small
  case fits => exact fits
  case top => split <;> omega
  case above =>
    intro i high below
    rw [Function.update_of_ne (by split at high <;> omega)]
    exact inv.above i (by split at high <;> omega) below
  case counted =>
    rw [occupied_update_some low, Finset.card_insert_of_notMem, inv.counted]
    simp [empty]
  case room => exact room
  case hint =>
    split
    · omega
    · split <;> omega
  case below =>
    intro i early
    by_cases same : i = tid
    · subst same
      simp
    · rw [Function.update_of_ne same]
      refine inv.below i ?_
      split at early
      · exact early
      · split at early <;> omega
  case cached =>
    intro i below p present
    refine (cached p).mpr ?_
    rcases slots.mp present with ⟨-, same⟩ | ⟨-, before⟩
    · exact Or.inl same
    · exact Or.inr (inv.cached i below p before)
  case slot =>
    intro p has
    rcases (cached p).mp has with rfl | before
    · exact ⟨tid, low, by simp⟩
    · obtain ⟨i, below, present⟩ := inv.slot p before
      refine ⟨i, below, slots.mpr (Or.inr ⟨?_, present⟩)⟩
      rintro rfl
      rw [empty] at present
      cases present
  case once =>
    intro i below j below' p first second
    rcases slots.mp first with ⟨here, new⟩ | ⟨-, before⟩
    · rcases slots.mp second with ⟨there, -⟩ | ⟨-, before'⟩
      · rw [here, there]
      · exact absurd (new ▸ before') fun present => fresh_slot present below'
    · rcases slots.mp second with ⟨-, new⟩ | ⟨-, before'⟩
      · exact absurd (new ▸ before) fun present => fresh_slot present below
      · exact inv.once i below j below' p before before'

/-- An operation on a state that meets the invariant does not leave the array, keeps the
invariant, and keeps `queue_cur` cached. -/
def Keeps (s : TestcaseCache) (result : Except CacheFault TestcaseCache) : Prop :=
  result ≠ .error .outOfBounds ∧
    ∀ t, result = .ok t → Inv t ∧ ∀ q, s.queueCur = some q → s.Cached q → t.Cached q

theorem Keeps.ok (inv : Inv t) (cached : ∀ q, s.Cached q → t.Cached q) : Keeps s (.ok t) := by
  refine ⟨nofun, fun u same => ?_⟩
  cases same
  exact ⟨inv, fun q _ => cached q⟩

/-- Both insertions: search, then register. -/
theorem Room.inserted (room : Room s t tid) (absent : ¬ s.Cached q) :
    ∃ u, (do
      let found ← t.scan (if t.maxCacheEntries ≤ tid then t.smallestFree else tid)
      t.register q found) = .ok u ∧ Inv u ∧ ∀ p, u.Cached p ↔ p = q ∨ t.Cached p := by
  obtain ⟨found, scanned, low, empty⟩ := room.inv.scan room.start
  obtain ⟨u, registered, inv, cached, -⟩ := room.inv.register room.room low empty
    fun cached => absent (room.evicts.fewer q cached)
  refine ⟨u, ?_, inv, cached⟩
  rw [scanned]
  exact registered

theorem Room.insert (room : Room s t tid) (absent : ¬ s.Cached q) :
    Keeps s (do
      let found ← t.scan (if t.maxCacheEntries ≤ tid then t.smallestFree else tid)
      t.register q found) := by
  obtain ⟨u, result, inv, cached⟩ := room.inserted absent
  rw [result]
  refine ⟨nofun, fun v same => ?_⟩
  cases same
  refine ⟨inv, fun p current before => (cached p).mpr (Or.inr ?_)⟩
  exact room.evicts.current p current before

theorem Inv.get (inv : Inv s) (q : ℕ) (draws : List ℕ) (fresh : ℕ → Option ℕ) :
    Keeps s (queueTestcaseGet s q draws fresh) := by
  unfold queueTestcaseGet
  split
  · exact Keeps.ok inv fun _ cached => cached
  · rename_i absent
    split
    · exact Keeps.ok inv fun _ cached => cached
    · rcases inv.makeRoom draws with aborted | undecided | ⟨t, tid, made, room⟩
      · rw [aborted]
        exact ⟨nofun, nofun⟩
      · rw [undecided]
        exact ⟨nofun, nofun⟩
      · rw [made]
        exact room.insert absent

/-- `queue_testcase_store_mem` inserts only when there is room. -/
theorem Inv.room_of_space (inv : Inv s)
    (space : ¬ ((s.entries q).weight < 1 ∨
      s.maxCacheSize ≤ u64 (s.cacheSize + (s.entries q).len) ∨
      u32Pred s.maxCacheEntries ≤ s.cacheCount)) : Room s s s.maxCacheCount := by
  have bound := inv.room
  refine ⟨inv, Evicts.refl s, ?_, Or.inl rfl⟩
  rw [u32Pred_eq_sub (by omega) (inv.small.trans (by decide))] at space
  omega

theorem Inv.storeMem (inv : Inv s) (absent : (s.entries q).testcaseBuf = none) :
    Keeps s (queueTestcaseStoreMem s q) := by
  unfold queueTestcaseStoreMem
  split
  · exact Keeps.ok inv fun _ cached => cached
  · rename_i space
    exact (inv.room_of_space space).insert (absurd absent)

/-- Changing a buffer's length, lengths, weights or `queue_cur` does not touch the slots. -/
theorem Inv.of_entries (inv : Inv s) {entries : ℕ → CacheEntry} {cacheSize : ℕ}
    {queueCur : Option ℕ}
    (same : ∀ p, (entries p).testcaseBuf ≠ none ↔ s.Cached p) :
    Inv { s with entries := entries, cacheSize := cacheSize, queueCur := queueCur } :=
  { inv with
    cached := fun i low p present => (same p).mpr (inv.cached i low p present)
    slot := fun p cached => inv.slot p ((same p).mp cached) }

/-- A change that keeps whether the entry has a buffer changes nobody's. -/
theorem changed_cached (s : TestcaseCache) (q : ℕ) (change : CacheEntry → CacheEntry)
    (kept : (change (s.entries q)).testcaseBuf ≠ none ↔ s.Cached q) (p : ℕ) :
    (s.changed q change p).testcaseBuf ≠ none ↔ s.Cached p := by
  rw [changed_apply]
  split
  · rename_i same
    rw [same]
    exact kept
  · rfl

theorem Inv.resize (inv : Inv s) (present : s.Cached q) (len oldLen : ℕ) :
    Keeps s (.ok (resizeBuffer s q len oldLen)) := by
  have same := changed_cached s q (fun e => { e with testcaseBuf := some len })
    (by simpa using present)
  exact Keeps.ok (inv.of_entries same) fun p cached => (same p).mpr cached

/-- Every operation keeps the invariant. -/
theorem Inv.apply (inv : Inv s) (op : CacheOp) (allowed : op.Allowed s) : Keeps s (op.apply s) := by
  have unchanged : Keeps s (.ok s) := Keeps.ok inv fun _ cached => cached
  cases op with
  | get q draws fresh => exact inv.get q draws fresh
  | storeMem q => exact inv.storeMem allowed
  | retake q oldLen =>
      unfold CacheOp.apply queueTestcaseRetake
      dsimp only
      split
      · rename_i present
        split
        · exact inv.resize present _ _
        · exact unchanged
      · exact unchanged
  | retakeMem q len oldLen inPlace =>
      unfold CacheOp.apply queueTestcaseRetakeMem
      dsimp only
      split
      · rename_i present
        split
        · exact inv.resize present _ _
        · exact unchanged
      · exact unchanged
  | select queueCur =>
      exact Keeps.ok (inv.of_entries fun _ => Iff.rfl) fun _ cached => cached
  | reweigh q len weight =>
      have same := changed_cached s q (fun e => { e with len := len, weight := weight }) Iff.rfl
      exact Keeps.ok (inv.of_entries same) fun p cached => (same p).mpr cached

end TestcaseCache

/-! ## Runs -/

open TestcaseCache

/-- The cache as its users see it: an entry has a buffer when it has exactly one slot, the
count is the number of occupied slots, no slot at or above the highest count is occupied,
and no slot below the hint is empty. -/
structure CacheSound (s : TestcaseCache) : Prop where
  buffer : ∀ q, (s.entries q).testcaseBuf ≠ none ↔
    ∃! i, i < s.maxCacheEntries ∧ s.cache i = some q
  count : s.cacheCount = (occupied s.cache s.maxCacheEntries).card
  above : ∀ i, s.maxCacheCount ≤ i → i < s.maxCacheEntries → s.cache i = none
  below : ∀ i < s.smallestFree, s.cache i ≠ none

/-- No operation accesses the array out of bounds or evicts `queue_cur`. -/
def CacheSafe (s : TestcaseCache) : Prop :=
  ∀ op : CacheOp, op.Allowed s → op.apply s ≠ .error .outOfBounds ∧
    ∀ t, op.apply s = .ok t → ∀ q, s.queueCur = some q →
      (s.entries q).testcaseBuf ≠ none → (t.entries q).testcaseBuf ≠ none

/-- Runs that start with an empty cache of the given capacity, with any size limit and any
entries. -/
def cacheSystem (maxCacheEntries : ℕ) : TransitionSystem TestcaseCache where
  init s := ∃ maxCacheSize queueCur entries, (∀ q, (entries q).testcaseBuf = none) ∧
    startCache maxCacheEntries maxCacheSize queueCur entries = .ok s
  step s t := ∃ op : CacheOp, op.Allowed s ∧ op.apply s = .ok t

theorem TestcaseCache.Inv.sound {s : TestcaseCache} (inv : Inv s) : CacheSound s where
  buffer q := by
    constructor
    · intro cached
      obtain ⟨i, low, present⟩ := inv.slot q cached
      exact ⟨i, ⟨low, present⟩, fun j other => inv.once j other.1 i low q other.2 present⟩
    · rintro ⟨i, ⟨low, present⟩, -⟩
      exact inv.cached i low q present
  count := inv.counted
  above := inv.above
  below := inv.below

theorem TestcaseCache.Inv.safe {s : TestcaseCache} (inv : Inv s) : CacheSafe s := by
  intro op allowed
  obtain ⟨inside, keeps⟩ := inv.apply op allowed
  exact ⟨inside, fun t done => (keeps t done).2⟩

/-- The size of the array reaches the allocator untruncated, or truncated to a size that it
refuses. -/
def RequestFits (maxCacheEntries : ℕ) : Prop :=
  maxCacheEntries < 2 ^ 29 ∨ maxCacheEntries % 2 ^ 29 = 0 ∨ 2 ^ 27 < maxCacheEntries % 2 ^ 29

theorem requestBytes_eq (entries : ℕ) : requestBytes entries = entries % 2 ^ 29 * 8 := by
  unfold requestBytes u32
  omega

theorem inv_of_reachable {maxCacheEntries : ℕ}
    (fits : RequestFits maxCacheEntries) {s : TestcaseCache}
    (run : Reachable (cacheSystem maxCacheEntries) s) : Inv s := by
  refine run.invariant ?_ ?_
  · rintro s ⟨maxCacheSize, queueCur, entries, uncached, started⟩
    unfold startCache at started
    rw [requestBytes_eq] at started
    split at started
    · cases started
    · rename_i accepted
      cases started
      have small : maxCacheEntries ≤ 2 ^ 27 ∧ maxCacheEntries % 2 ^ 29 = maxCacheEntries := by
        unfold maxAlloc at accepted
        rcases fits with fits | zero | large <;> omega
      constructor <;> dsimp only
      case small => exact small.1
      case fits => omega
      case top => exact Nat.zero_le _
      case above => exact fun _ _ _ => rfl
      case counted => simp [occupied]
      case room => omega
      case hint => exact le_rfl
      case below => exact fun i low => absurd low (Nat.not_lt_zero i)
      case cached =>
        intro _ _ _ present
        cases present
      case slot => exact fun q cached => absurd (uncached q) cached
      case once =>
        intro _ _ _ _ _ present
        cases present
  · rintro s t - inv ⟨op, allowed, done⟩
    exact ((inv.apply op allowed).2 t done).1

/-! ### A truncated array -/

/-- The cache of the given capacity, with an array of `allocated` slots, after the entries
below `stored` were stored. Each has one byte. -/
def filledCache (maxCacheEntries allocated stored : ℕ) : TestcaseCache where
  cache i := if i < stored then some i else none
  allocated := allocated
  maxCacheEntries := maxCacheEntries
  maxCacheCount := stored
  cacheCount := stored
  cacheSize := stored
  maxCacheSize := 2 ^ 40
  entries q := { len := 1, testcaseBuf := if q < stored then some 1 else none }

section Truncated

variable {maxCacheEntries allocated stored : ℕ}

/-- Storing the next entry looks for a slot right above the stored ones. -/
theorem storeMem_filled (word : maxCacheEntries < 2 ^ 32) (room : stored + 1 < maxCacheEntries) :
    queueTestcaseStoreMem (filledCache maxCacheEntries allocated stored) stored = (do
      let tid ← (filledCache maxCacheEntries allocated stored).scan stored
      (filledCache maxCacheEntries allocated stored).register stored tid) := by
  have space : ¬ ((1 : ℚ) < 1 ∨ 2 ^ 40 ≤ u64 (stored + 1) ∨ u32Pred maxCacheEntries ≤ stored) := by
    unfold u64 u32Pred
    rintro (light | full)
    · exact lt_irrefl 1 light
    · omega
  have open_top : ¬ maxCacheEntries ≤ stored := by omega
  refine (if_neg space).trans ?_
  show (do
    let tid ← (filledCache maxCacheEntries allocated stored).scan
      (if maxCacheEntries ≤ stored then 0 else stored)
    (filledCache maxCacheEntries allocated stored).register stored tid) = _
  rw [if_neg open_top]

/-- While the array lasts, the next entry gets the next slot. -/
theorem storeMem_filled_ok (word : maxCacheEntries < 2 ^ 32) (room : stored + 1 < maxCacheEntries)
    (space : stored < allocated) :
    queueTestcaseStoreMem (filledCache maxCacheEntries allocated stored) stored =
      .ok (filledCache maxCacheEntries allocated (stored + 1)) := by
  have scanned : (filledCache maxCacheEntries allocated stored).scan stored = .ok stored := by
    obtain ⟨fuel, enough⟩ : ∃ fuel, allocated - stored = fuel + 1 :=
      ⟨allocated - stored - 1, by omega⟩
    simp [scan, filledCache, enough, firstEmpty]
  have slots : Function.update (fun i => if i < stored then some i else none) stored (some stored) =
      fun i => if i < stored + 1 then some i else none := by
    funext i
    rw [Function.update_apply]
    grind
  have entries : (filledCache maxCacheEntries allocated stored).changed stored
      (fun e => { e with testcaseBuf := some 1 }) =
        (filledCache maxCacheEntries allocated (stored + 1)).entries := by
    funext q
    rw [changed_apply]
    unfold filledCache
    dsimp only
    split <;> grind
  have count : u32 (stored + 1) = stored + 1 := u32_of_lt (by omega)
  have size : u64 (stored + 1) = stored + 1 := Nat.mod_eq_of_lt (by omega)
  rw [storeMem_filled word room, scanned]
  refine (if_neg (Nat.not_le_of_lt space)).trans (congrArg Except.ok ?_)
  rw [filledCache] at entries ⊢
  simp only [filledCache, count, size, slots, entries, le_refl, if_true]

/-- When the array is full, the search for the next slot leaves it. -/
theorem storeMem_filled_overruns (word : maxCacheEntries < 2 ^ 32)
    (short : allocated + 1 < maxCacheEntries) :
    queueTestcaseStoreMem (filledCache maxCacheEntries allocated allocated) allocated =
      .error .outOfBounds := by
  rw [storeMem_filled word short]
  have scanned : (filledCache maxCacheEntries allocated allocated).scan allocated =
      .error .outOfBounds := by
    unfold scan filledCache
    dsimp only
    rw [Nat.sub_self]
    rfl
  rw [scanned]
  rfl

/-- The empty cache is a start state, when the allocator accepts the request. -/
theorem filledCache_start (nonzero : maxCacheEntries % 2 ^ 29 ≠ 0)
    (few : maxCacheEntries % 2 ^ 29 ≤ 2 ^ 27) :
    Reachable (cacheSystem maxCacheEntries)
      (filledCache maxCacheEntries (maxCacheEntries % 2 ^ 29) 0) := by
  refine .init ⟨2 ^ 40, none, fun _ => { len := 1 }, fun _ => rfl, ?_⟩
  unfold startCache
  rw [requestBytes_eq, if_neg (by unfold maxAlloc; omega), Nat.mul_div_cancel _ (by decide)]
  simp [filledCache]

/-- All the slots of the array can be filled. -/
theorem filledCache_reachable (word : maxCacheEntries < 2 ^ 32)
    (nonzero : maxCacheEntries % 2 ^ 29 ≠ 0) (few : maxCacheEntries % 2 ^ 29 ≤ 2 ^ 27)
    (inside : stored ≤ maxCacheEntries % 2 ^ 29) (room : stored < maxCacheEntries) :
    Reachable (cacheSystem maxCacheEntries)
      (filledCache maxCacheEntries (maxCacheEntries % 2 ^ 29) stored) := by
  induction stored with
  | zero => exact filledCache_start nonzero few
  | succ stored ih =>
      refine (ih (by omega) (by omega)).step ⟨.storeMem stored, ?_, ?_⟩
      · exact if_neg (Nat.lt_irrefl stored)
      · exact storeMem_filled_ok word room inside

end Truncated

/-- **The testcase cache keeps its structure and stays inside its array**, in every run from an
empty cache, exactly when the size of the array is not truncated to one that the allocator
grants. -/
theorem cache_sound_iff (maxCacheEntries : ℕ) (three : 3 ≤ maxCacheEntries)
    (word : maxCacheEntries < 2 ^ 32) :
    (∀ s, Reachable (cacheSystem maxCacheEntries) s → CacheSound s ∧ CacheSafe s) ↔
      RequestFits maxCacheEntries := by
  constructor
  · intro sound
    by_contra truncated
    unfold RequestFits at truncated
    obtain ⟨-, safe⟩ := sound _ (filledCache_reachable word (by omega) (by omega) le_rfl (by omega))
    refine (safe (.storeMem (maxCacheEntries % 2 ^ 29)) (if_neg (Nat.lt_irrefl _))).1 ?_
    exact storeMem_filled_overruns word (by omega)
  · intro fits s run
    have inv := inv_of_reachable fits run
    exact ⟨inv.sound, inv.safe⟩

/-- The default capacity, after two entries were stored. -/
theorem cache_sound_default :
    CacheSound (filledCache 65536 65536 2) ∧ CacheSafe (filledCache 65536 65536 2) :=
  (cache_sound_iff 65536 (by decide) (by decide)).mpr (Or.inl (by decide)) _
    (filledCache_reachable (by decide) (by decide) (by decide) (by decide) (by decide))

/-- With `AFL_TESTCACHE_ENTRIES=536870915` an array of three slots is allocated, and the fourth
entry is stored outside it. -/
theorem truncated_cache_overruns :
    Reachable (cacheSystem 536870915) (filledCache 536870915 3 3) ∧
      CacheOp.Allowed (filledCache 536870915 3 3) (.storeMem 3) ∧
      CacheOp.apply (filledCache 536870915 3 3) (.storeMem 3) = .error .outOfBounds := by
  refine ⟨?_, rfl, storeMem_filled_overruns (by decide) (by decide)⟩
  exact filledCache_reachable (by decide) (by decide) (by decide) (by decide) (by decide)

end GreenFuzz.AflFuzz
