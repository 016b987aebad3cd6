import GreenFuzz.AflFuzz.CacheInvariant
import GreenFuzz.AflFuzz.TrimCase
import Mathlib.Algebra.BigOperators.Group.Finset.Basic
import Mathlib.Algebra.Order.BigOperators.Group.Finset

/-!
# The size of the testcase cache

`q_testcase_cache_size` should be the number of bytes that are cached. Insertions and
evictions keep it so. A trim changes the length of a cached entry, and the total follows it
only when the case grows: a shorter case leaves the total alone, or adds a difference that
was taken on 32 bits.

`cache_accounted_of_reachable` is about runs whose trims avoid this, and says for every
operation from a reached state that the total is right after it exactly when it does.
-/

set_option autoImplicit false

namespace GreenFuzz.AflFuzz

open Library

namespace TestcaseCache

variable {s t : TestcaseCache} {q i tid old len : ℕ} {fresh : ℕ → Option ℕ}

/-- The total is the sum of the lengths of the cached entries, and the sum that an insertion of
any length tests does not wrap. -/
def Accounted (s : TestcaseCache) : Prop :=
  ∃ cached : Finset ℕ, (∀ q, q ∈ cached ↔ s.Cached q) ∧
    s.cacheSize = ∑ q ∈ cached, (s.entries q).len ∧
    ∀ len < 2 ^ 32, u64 (s.cacheSize + len) = ∑ q ∈ cached, (s.entries q).len + len

/-- Every length is a `u32`. -/
def LengthsFit (s : TestcaseCache) : Prop := ∀ q, (s.entries q).len < 2 ^ 32

/-- The cached entries are no more than the slots, so that their lengths are far from `2 ^ 64`. -/
theorem Inv.sum_le (inv : Inv s) (fit : LengthsFit s) {cached : Finset ℕ}
    (members : ∀ q, q ∈ cached ↔ s.Cached q) :
    ∑ q ∈ cached, (s.entries q).len ≤ 2 ^ 59 := by
  have slots : cached ⊆ (Finset.range s.maxCacheEntries).image fun i => (s.cache i).getD 0 := by
    intro q member
    obtain ⟨i, low, present⟩ := inv.slot q ((members q).mp member)
    refine Finset.mem_image.mpr ⟨i, Finset.mem_range.mpr low, ?_⟩
    rw [present, Option.getD_some]
  have few : cached.card ≤ 2 ^ 27 :=
    calc cached.card
        ≤ ((Finset.range s.maxCacheEntries).image fun i => (s.cache i).getD 0).card :=
          Finset.card_le_card slots
      _ ≤ (Finset.range s.maxCacheEntries).card := Finset.card_image_le
      _ = s.maxCacheEntries := Finset.card_range _
      _ ≤ 2 ^ 27 := inv.small
  calc ∑ q ∈ cached, (s.entries q).len
      ≤ cached.card • 2 ^ 32 := Finset.sum_le_card_nsmul _ _ _ fun q _ => (fit q).le
    _ ≤ 2 ^ 27 * 2 ^ 32 := Nat.mul_le_mul_right _ few
    _ = 2 ^ 59 := (Nat.pow_add 2 27 32).symm

/-- The second half of the accounting follows from the first. -/
theorem Inv.accounted_iff (inv : Inv s) (fit : LengthsFit s) (cached : Finset ℕ)
    (members : ∀ q, q ∈ cached ↔ s.Cached q) :
    Accounted s ↔ s.cacheSize = ∑ q ∈ cached, (s.entries q).len := by
  constructor
  · rintro ⟨others, same, total, -⟩
    have equal : others = cached := Finset.ext fun q => (same q).trans (members q).symm
    rw [total, equal]
  · intro total
    have bound := inv.sum_le fit members
    refine ⟨cached, members, total, fun len small => ?_⟩
    rw [← total] at bound ⊢
    exact Nat.mod_eq_of_lt (by omega)

/-! ## Inserting and evicting -/

/-- The victim of an eviction takes its length with it. -/
theorem Accounted.evict (inv : Inv s) (fit : LengthsFit s) (accounted : Accounted s)
    (below : tid < s.maxCacheCount) (holds : s.cache tid = some old) :
    Accounted (s.evict tid old) := by
  obtain ⟨cached, members, total, -⟩ := accounted
  have bound := inv.sum_le fit members
  have member : old ∈ cached := (members old).mpr (inv.cached tid (inv.inside below) old holds)
  have split_sum := Finset.add_sum_erase cached (fun q => (s.entries q).len) member
  refine ((inv.evict below holds).accounted_iff (fun p => ?_) (cached.erase old)
    fun p => ?_).mpr ?_
  · rw [TestcaseCache.evict, changed_len]
    exact fit p
  · rw [Finset.mem_erase, members, cached_evict]
  · rw [TestcaseCache.evict]
    simp only [changed_len]
    rw [u64Sub_of_le (by omega) (by omega)]
    omega

theorem Accounted.congr (accounted : Accounted s) (entries : t.entries = s.entries)
    (size : t.cacheSize = s.cacheSize) : Accounted t := by
  unfold Accounted Cached at *
  rw [entries, size]
  exact accounted

theorem Accounted.evictFrom (draws : List ℕ) (inv : Inv s) (fit : LengthsFit s)
    (accounted : Accounted s) {tid : ℕ} (done : evictFrom len fresh s draws = .ok (t, tid)) :
    Accounted t := by
  induction draws generalizing s with
  | nil => cases done
  | cons draw draws ih =>
      have low := inv.randBelow_lt draw
      have inside : ¬ s.allocated ≤ randBelow s.maxCacheCount draw := by
        have := inv.fits
        omega
      unfold TestcaseCache.evictFrom at done
      dsimp only at done
      rw [if_neg inside] at done
      cases holds : s.cache (randBelow s.maxCacheCount draw) with
      | none =>
          rw [holds] at done
          exact ih inv fit accounted done
      | some old =>
          rw [holds] at done
          dsimp only at done
          split at done
          · exact ih inv fit accounted done
          · rename_i other
            have below := inv.below_top low holds
            have evicted := Accounted.evict inv fit accounted below holds
            have fits : LengthsFit (s.evict (randBelow s.maxCacheCount draw) old) := by
              intro p
              rw [(evicts_evict _ other).len]
              exact fit p
            split at done
            · obtain ⟨u, learned, rest⟩ := bind_eq_ok_iff.mp done
              rcases (inv.evict below holds).learnLimit with
                aborted | ⟨v, again, inv, -, entries, size⟩
              · rw [aborted] at learned
                cases learned
              · rw [again] at learned
                cases learned
                refine ih inv (fun p => ?_) (evicted.congr entries size) rest
                rw [entries]
                exact fits p
            · cases done
              exact evicted

theorem Accounted.makeRoom (draws : List ℕ) (inv : Inv s) (fit : LengthsFit s)
    (accounted : Accounted s) (done : s.makeRoom len fresh draws = .ok (t, tid)) :
    Accounted t := by
  unfold TestcaseCache.makeRoom at done
  split at done
  · obtain ⟨u, learned, rest⟩ := bind_eq_ok_iff.mp done
    rcases inv.learnLimit with aborted | ⟨v, again, inv, -, entries, size⟩
    · rw [aborted] at learned
      cases learned
    · rw [again] at learned
      cases learned
      refine Accounted.evictFrom draws inv (fun p => ?_) (accounted.congr entries size) rest
      rw [entries]
      exact fit p
  · cases done
    exact accounted

/-- An insertion adds the length of the new entry. -/
theorem Accounted.register (inv : Inv s) (fit : LengthsFit s) (accounted : Accounted s)
    (room : s.cacheCount + 1 < s.maxCacheEntries) (low : tid < s.maxCacheEntries)
    (empty : s.cache tid = none) (absent : ¬ s.Cached q) (done : s.register q tid = .ok t) :
    Accounted t ∧ LengthsFit t := by
  obtain ⟨u, registered, kept, others, lengths, size⟩ := inv.register room low empty absent
  rw [registered] at done
  cases done
  obtain ⟨cached, members, total, tested⟩ := accounted
  have fresh : q ∉ cached := fun member => absent ((members q).mp member)
  have fits : LengthsFit t := fun p => (lengths p).symm ▸ fit p
  refine ⟨(kept.accounted_iff fits (insert q cached) fun p => ?_).mpr ?_, fits⟩
  · rw [Finset.mem_insert, members, others]
  · simp only [lengths]
    rw [size, Finset.sum_insert fresh, tested _ (fit q), Nat.add_comm]

/-- Both insertions: search, then register. -/
theorem Accounted.insert {u : TestcaseCache} (room : Room s t tid) (fit : LengthsFit s)
    (accounted : Accounted t) (absent : ¬ s.Cached q)
    (done : (do
      let found ← t.scan (if t.maxCacheEntries ≤ tid then t.smallestFree else tid)
      t.register q found) = .ok u) : Accounted u ∧ LengthsFit u := by
  obtain ⟨found, scanned, low, empty⟩ := room.inv.scan room.start
  rw [scanned] at done
  have fits : LengthsFit t := fun p => (room.evicts.len p).symm ▸ fit p
  exact accounted.register room.inv fits room.room low empty
    (fun cached => absent (room.evicts.fewer q cached)) done

theorem Accounted.get (inv : Inv s) (fit : LengthsFit s) (accounted : Accounted s)
    {draws : List ℕ} (done : queueTestcaseGet s q draws fresh = .ok t) :
    Accounted t ∧ LengthsFit t := by
  unfold queueTestcaseGet at done
  split at done
  · cases done
    exact ⟨accounted, fit⟩
  · rename_i absent
    split at done
    · cases done
      exact ⟨accounted, fit⟩
    · obtain ⟨⟨u, tid⟩, made, inserted⟩ := bind_eq_ok_iff.mp done
      rcases inv.makeRoom draws with aborted | undecided | ⟨v, tid', made', room⟩
      · rw [aborted] at made
        cases made
      · rw [undecided] at made
        cases made
      · rw [made'] at made
        cases made
        exact Accounted.insert room fit (accounted.makeRoom draws inv fit made') absent inserted

theorem Accounted.storeMem (inv : Inv s) (fit : LengthsFit s) (accounted : Accounted s)
    (absent : (s.entries q).testcaseBuf = none) (done : queueTestcaseStoreMem s q = .ok t) :
    Accounted t ∧ LengthsFit t := by
  unfold queueTestcaseStoreMem at done
  split at done
  · cases done
    exact ⟨accounted, fit⟩
  · rename_i space
    exact Accounted.insert (inv.room_of_space space) fit accounted (absurd absent) done

/-! ## Resizing -/

/-- Entry `q` gets the length `len`, with a buffer if it had one, and the total becomes `size`. -/
def Resizes (s t : TestcaseCache) (q len size : ℕ) : Prop :=
  ∃ buffer, (buffer ≠ none ↔ s.Cached q) ∧
    t = { s with
      entries := s.changed q fun e => { e with len := len, testcaseBuf := buffer }
      cacheSize := size }

section Resizes

variable {size : ℕ}

theorem Resizes.cached (resized : Resizes s t q len size) (p : ℕ) : t.Cached p ↔ s.Cached p := by
  obtain ⟨buffer, kept, rfl⟩ := resized
  exact changed_cached s q _ kept p

theorem Resizes.inv (resized : Resizes s t q len size) (inv : Inv s) : Inv t := by
  obtain ⟨buffer, kept, rfl⟩ := resized
  exact inv.of_entries (changed_cached s q _ kept)

theorem Resizes.entry_len (resized : Resizes s t q len size) (p : ℕ) :
    (t.entries p).len = if p = q then len else (s.entries p).len := by
  obtain ⟨buffer, kept, rfl⟩ := resized
  show (s.changed q _ p).len = _
  rw [changed_apply]
  split <;> rfl

theorem Resizes.cacheSize_eq (resized : Resizes s t q len size) : t.cacheSize = size := by
  obtain ⟨buffer, kept, rfl⟩ := resized
  rfl

theorem Resizes.fit (resized : Resizes s t q len size) (fit : LengthsFit s)
    (small : len < 2 ^ 32) : LengthsFit t := by
  intro p
  rw [resized.entry_len]
  split
  · exact small
  · exact fit p

/-- The total stays right exactly when it changes by as much as the length of a cached entry,
and not at all for an entry that is not cached. -/
theorem Resizes.accounted_iff (resized : Resizes s t q len size) (inv : Inv s)
    (fit : LengthsFit s) (small : len < 2 ^ 32) (accounted : Accounted s) :
    Accounted t ↔
      (s.Cached q → size + (s.entries q).len = s.cacheSize + len) ∧
      (¬ s.Cached q → size = s.cacheSize) := by
  obtain ⟨cached, members, total, -⟩ := accounted
  rw [(resized.inv inv).accounted_iff (resized.fit fit small) cached fun p =>
    (members p).trans (resized.cached p).symm, resized.cacheSize_eq]
  by_cases member : q ∈ cached
  · have present := (members q).mp member
    have before := Finset.add_sum_erase cached (fun p => (s.entries p).len) member
    have after := Finset.add_sum_erase cached (fun p => (t.entries p).len) member
    have others : ∑ p ∈ cached.erase q, (t.entries p).len =
        ∑ p ∈ cached.erase q, (s.entries p).len := by
      refine Finset.sum_congr rfl fun p other => ?_
      rw [resized.entry_len, if_neg (Finset.ne_of_mem_erase other)]
    have new : (t.entries q).len = len := by rw [resized.entry_len, if_pos rfl]
    simp only [new] at after
    constructor
    · intro sum
      exact ⟨fun _ => by omega, absurd present⟩
    · rintro ⟨change, -⟩
      have := change present
      omega
  · have absent : ¬ s.Cached q := fun present => member ((members q).mpr present)
    have same : ∑ p ∈ cached, (t.entries p).len = ∑ p ∈ cached, (s.entries p).len := by
      refine Finset.sum_congr rfl fun p inside => ?_
      rw [resized.entry_len, if_neg]
      rintro rfl
      exact member inside
    rw [same, ← total]
    exact ⟨fun sum => ⟨fun present => absurd present absent, fun _ => sum⟩,
      fun both => both.2 absent⟩

end Resizes

/-- Changing the length alone. -/
theorem resizes_setLen (s : TestcaseCache) (q len : ℕ) :
    Resizes s (s.setLen q len) q len s.cacheSize :=
  ⟨(s.entries q).testcaseBuf, Iff.rfl, rfl⟩

/-- Changing the length, then the buffer of a cached entry. -/
theorem resizes_resizeBuffer (present : s.Cached q) (len oldLen : ℕ) :
    Resizes s (resizeBuffer (s.setLen q len) q len oldLen) q len
      (u64 (s.cacheSize + u32Sub len oldLen)) := by
  refine ⟨some len, ⟨fun _ => present, fun _ => nofun⟩, ?_⟩
  simp only [resizeBuffer, setLen, changed, Function.update_self, Function.update_idem]

theorem cached_setLen (s : TestcaseCache) (q len : ℕ) :
    ((s.setLen q len).entries q).testcaseBuf ≠ none ↔ s.Cached q :=
  (resizes_setLen s q len).cached q

theorem len_setLen (s : TestcaseCache) (q len : ℕ) : ((s.setLen q len).entries q).len = len := by
  rw [(resizes_setLen s q len).entry_len, if_pos rfl]

/-- The `u32` difference is right for a longer case only. -/
theorem u32Sub_of_lt {a b : ℕ} (less : a < b) (small : b < 2 ^ 32) :
    u32Sub a b = 2 ^ 32 - (b - a) := by
  unfold u32Sub u32
  omega

/-- The total after a change by a `u32` difference follows the length when the case grows. -/
theorem add_u32Sub_iff {total len oldLen : ℕ} (few : total ≤ 2 ^ 59) (small : len < 2 ^ 32)
    (old_small : oldLen < 2 ^ 32) :
    u64 (total + u32Sub len oldLen) + oldLen = total + len ↔ oldLen ≤ len := by
  rcases Nat.lt_or_ge len oldLen with less | le
  · rw [u32Sub_of_lt less old_small, u64_of_lt (by omega)]
    omega
  · rw [u32Sub_of_le le small, u64_of_lt (by omega)]
    omega

variable (inv : Inv s) (fit : LengthsFit s) (accounted : Accounted s)

include inv fit accounted

theorem Accounted.total_le : s.cacheSize ≤ 2 ^ 59 := by
  obtain ⟨cached, members, total, -⟩ := accounted
  rw [total]
  exact inv.sum_le fit members

/-- A length of a case that is not cached does not matter. -/
theorem Accounted.setLen_absent (small : len < 2 ^ 32) (absent : ¬ s.Cached q) (fits : Prop) :
    (∃ size, Resizes s (s.setLen q len) q len size) ∧
      (Accounted (s.setLen q len) ↔ (s.Cached q → fits)) := by
  have resized := resizes_setLen s q len
  rw [resized.accounted_iff inv fit small accounted]
  exact ⟨⟨_, resized⟩, fun _ cached => absurd cached absent,
    fun _ => ⟨fun cached => absurd cached absent, fun _ => rfl⟩⟩

/-- A retake from the file keeps the total right exactly when the case did not shrink. -/
theorem Accounted.retake_iff (small : len < 2 ^ 32) :
    (∃ size, Resizes s (queueTestcaseRetake (s.setLen q len) q (s.entries q).len) q len size) ∧
    (Accounted (queueTestcaseRetake (s.setLen q len) q (s.entries q).len) ↔
      (s.Cached q → (s.entries q).len ≤ len)) := by
  have few := accounted.total_le inv fit
  have old := fit q
  unfold queueTestcaseRetake
  dsimp only
  rw [len_setLen]
  by_cases present : s.Cached q
  · rw [if_pos ((cached_setLen s q len).mpr present)]
    split
    · have resized := resizes_resizeBuffer present len (s.entries q).len
      rw [resized.accounted_iff inv fit small accounted, add_u32Sub_iff few small old]
      exact ⟨⟨_, resized⟩, and_iff_left (absurd present)⟩
    · rename_i same
      have resized := resizes_setLen s q len
      rw [resized.accounted_iff inv fit small accounted]
      refine ⟨⟨_, resized⟩, fun both cached => ?_, fun longer => ⟨fun cached => ?_, fun _ => rfl⟩⟩
      · have := both.1 cached
        omega
      · have := longer cached
        omega
  · rw [if_neg fun cached => present ((cached_setLen s q len).mp cached)]
    exact accounted.setLen_absent inv fit small present _

/-- A retake from memory keeps the total right when the length is the same. -/
theorem Accounted.retakeMem_iff (small : len < 2 ^ 32) (inPlace : Bool) :
    (∃ size, Resizes s
      (queueTestcaseRetakeMem (s.setLen q len) q len (s.entries q).len inPlace) q len size) ∧
    (Accounted (queueTestcaseRetakeMem (s.setLen q len) q len (s.entries q).len inPlace) ↔
      (s.Cached q → len = (s.entries q).len ∨
        (!inPlace ∧ u32 (len + 1024) < (s.entries q).len ∧ (s.entries q).len < len))) := by
  have few := accounted.total_le inv fit
  have old := fit q
  unfold queueTestcaseRetakeMem
  by_cases present : s.Cached q
  · rw [if_pos ((cached_setLen s q len).mpr present)]
    split
    · rename_i taken
      have resized := resizes_resizeBuffer present len (s.entries q).len
      rw [resized.accounted_iff inv fit small accounted, add_u32Sub_iff few small old]
      refine ⟨⟨_, resized⟩, fun both cached => ?_, fun longer => ⟨fun cached => ?_, absurd present⟩⟩
      · rcases (both.1 cached).eq_or_lt with same | longer
        · exact Or.inl same.symm
        · exact Or.inr ⟨taken.1, taken.2, longer⟩
      · rcases longer cached with same | ⟨-, -, longer⟩
        · exact same.ge
        · exact longer.le
    · rename_i kept
      have resized := resizes_setLen s q len
      rw [resized.accounted_iff inv fit small accounted]
      refine ⟨⟨_, resized⟩, fun both cached => ?_, fun longer => ⟨fun cached => ?_, fun _ => rfl⟩⟩
      · have := both.1 cached
        exact Or.inl (by omega)
      · rcases longer cached with same | ⟨apart, wraps, -⟩
        · rw [same]
        · exact absurd ⟨apart, wraps⟩ kept
  · rw [if_neg fun cached => present ((cached_setLen s q len).mp cached)]
    exact accounted.setLen_absent inv fit small present _

/-- A change of the length alone keeps the total right when there is none. -/
theorem Accounted.setLen_iff (small : len < 2 ^ 32) :
    Accounted (s.setLen q len) ↔ (s.Cached q → len = (s.entries q).len) := by
  rw [(resizes_setLen s q len).accounted_iff inv fit small accounted]
  constructor
  · intro both cached
    have := both.1 cached
    omega
  · intro same
    exact ⟨fun cached => by rw [same cached], fun _ => rfl⟩

end TestcaseCache

/-! ## Trimming -/

/-- The size of a post processed case, and whether it is still in `in_buf`. Without an answer of
a post processor the smallest size is the only one that is not below the length before. -/
def TrimCall.finalSize (call : TrimCall) : ℕ × Bool :=
  match call.answer with
  | none => (call.minLength, true)
  | some (size, same) => (call.limited size, same)

/-- What a trim of a cached entry of length `len` has to meet. A custom trimmer may not leave a
shorter case. A deletion of the built-in trimmer that keeps the trace has to be undone by the
post processing, which restores the length, or makes the case in another buffer so much longer
that the test of `queue_testcase_retake_mem` wraps. -/
def TrimCall.KeepsTotal (call : TrimCall) (len : ℕ) : Prop :=
  if call.trimmers ≠ [] then
    ∀ n, (call.trimmers.flatMap CustomTrimStep.written).getLast? = some n → len ≤ n
  else
    .keepsTrace ∈ call.verdicts →
      .aborts ∉ call.verdicts ∧ call.mutators ≠ [] ∧ !call.aflPostProcessKeepOriginal ∧
        (call.finalSize.1 = len ∨
          !(call.inPlace && call.finalSize.2) ∧ u32 (call.finalSize.1 + 1024) < len ∧
            len < call.finalSize.1)

/-- The limits bring a shorter case back to the length only as the smallest size. -/
theorem TrimCall.limited_of_lt (call : TrimCall) {len trimmed : ℕ} (shorter : trimmed < len) :
    call.limited trimmed = call.minLength ∨
      call.limited trimmed < len ∧ call.minLength < len := by
  unfold TrimCall.limited
  split
  · exact Or.inl rfl
  · split <;> omega

/-- A post processed case is as long as before, or longer, exactly when the final size is. -/
theorem TrimCall.postProcess_iff (call : TrimCall) {len trimmed : ℕ} (shorter : trimmed < len) :
    ((call.postProcess trimmed).1 = len ∨
      !(call.inPlace && (call.postProcess trimmed).2) ∧
        u32 ((call.postProcess trimmed).1 + 1024) < len ∧ len < (call.postProcess trimmed).1) ↔
    (call.finalSize.1 = len ∨
      !(call.inPlace && call.finalSize.2) ∧ u32 (call.finalSize.1 + 1024) < len ∧
        len < call.finalSize.1) := by
  rw [call.postProcess_eq]
  unfold TrimCall.finalSize
  cases call.answer with
  | some answer => rfl
  | none =>
      rcases call.limited_of_lt shorter with same | ⟨small, low⟩
      · rw [Option.getD_none, same]
      · simp only [Option.getD_none]
        omega

namespace TestcaseCache

variable {s t : TestcaseCache} {q : ℕ}

/-- The end of the built-in trimmer keeps the total right exactly when the trim meets its
condition. -/
theorem Accounted.finishTrim_iff (inv : Inv s) (fit : LengthsFit s) (accounted : Accounted s)
    {call : TrimCall} (builtIn : call.trimmers = []) {st : TrimState}
    (result : trimLoop (trimStart (s.entries q).len) call.verdicts = .ok st) :
    (∃ len size, len < 2 ^ 32 ∧ Resizes s (finishTrim s q call st) q len size) ∧
    (Accounted (finishTrim s q call st) ↔
      (s.Cached q → call.KeepsTotal (s.entries q).len)) := by
  obtain ⟨writes, aborts, le, shorter, same⟩ := trimLoop_spec (trimStart_ready _) result
  have start : (trimStart (s.entries q).len).len = (s.entries q).len := rfl
  rw [start] at le shorter same
  have small : st.len < 2 ^ 32 := le.trans_lt (fit q)
  have unwritten : (trimStart (s.entries q).len).needsWrite = false := rfl
  have unaborted : (trimStart (s.entries q).len).aborted = false := rfl
  simp only [unwritten, unaborted, Bool.false_eq_true, false_or] at writes aborts
  unfold finishTrim TrimCall.KeepsTotal
  rw [if_neg (not_not_intro builtIn)]
  dsimp only
  by_cases keeps : .keepsTrace ∈ call.verdicts
  · have shrunk := shorter keeps
    by_cases ends : .aborts ∈ call.verdicts
    · rw [writes.mpr keeps, aborts.mpr ends]
      refine ⟨⟨_, _, small, resizes_setLen s q st.len⟩, ?_⟩
      rw [Bool.not_true, Bool.and_false, if_neg Bool.false_ne_true,
        accounted.setLen_iff inv fit small]
      refine forall_congr' fun cached => ⟨fun equal => absurd equal shrunk.ne, fun meets => ?_⟩
      exact absurd ends (meets keeps).1
    · rw [writes.mpr keeps, Bool.eq_false_iff.mpr fun aborted => ends (aborts.mp aborted)]
      rw [Bool.not_false, Bool.and_true, if_pos rfl]
      by_cases processes : call.mutators ≠ [] ∧ !call.aflPostProcessKeepOriginal
      · rw [if_pos processes]
        have bound : (call.postProcess st.len).1 < 2 ^ 32 := by
          rw [call.postProcess_eq]
          exact call.limited_lt _
        obtain ⟨⟨size, resized⟩, iff⟩ := accounted.retakeMem_iff (q := q) inv fit bound
          (call.inPlace && (call.postProcess st.len).2)
        refine ⟨⟨_, _, bound, resized⟩, iff.trans (forall_congr' fun cached => ?_)⟩
        rw [call.postProcess_iff shrunk]
        exact ⟨fun meets _ => ⟨ends, processes.1, processes.2, meets⟩,
          fun meets => (meets keeps).2.2.2⟩
      · rw [if_neg processes]
        obtain ⟨⟨size, resized⟩, iff⟩ := accounted.retakeMem_iff (q := q) inv fit small
          (call.inPlace && true)
        refine ⟨⟨_, _, small, resized⟩, iff.trans (forall_congr' fun cached => ?_)⟩
        constructor
        · rintro (equal | ⟨-, -, longer⟩)
          · exact absurd equal shrunk.ne
          · exact absurd longer shrunk.asymm
        · intro meets
          exact absurd ⟨(meets keeps).2.1, (meets keeps).2.2.1⟩ processes
  · rw [Bool.eq_false_iff.mpr fun written => keeps (writes.mp written)]
    refine ⟨⟨_, _, small, resizes_setLen s q st.len⟩, ?_⟩
    rw [Bool.false_and, if_neg Bool.false_ne_true, accounted.setLen_iff inv fit small]
    exact forall_congr' fun _ => ⟨fun _ member => absurd member keeps, fun _ => same keeps⟩

/-- A trim keeps the slots, and the total exactly when it meets its condition. -/
theorem Accounted.trimCase_iff (inv : Inv s) (fit : LengthsFit s) (accounted : Accounted s)
    {call : TrimCall} (done : trimCase s q call = .ok t) :
    (∃ len size, len < 2 ^ 32 ∧ Resizes s t q len size) ∧
    (Accounted t ↔ (s.Cached q → call.KeepsTotal (s.entries q).len)) := by
  unfold trimCase at done
  dsimp only at done
  split at done
  · rename_i custom
    cases done
    rw [foldl_trimCaseCustom]
    unfold TrimCall.KeepsTotal
    rw [if_pos custom]
    cases last : (call.trimmers.flatMap CustomTrimStep.written).getLast? with
    | none =>
        obtain ⟨⟨size, resized⟩, iff⟩ := accounted.retake_iff (q := q) inv fit (fit q)
        refine ⟨⟨_, _, fit q, resized⟩, iff.trans (forall_congr' fun _ => ?_)⟩
        exact ⟨fun _ => nofun, fun _ => le_rfl⟩
    | some n =>
        obtain ⟨steps, -, written⟩ := List.mem_flatMap.mp (List.mem_of_getLast? last)
        have small := lt_of_mem_written written
        obtain ⟨⟨size, resized⟩, iff⟩ := accounted.retake_iff (q := q) inv fit small
        refine ⟨⟨_, _, small, resized⟩, iff.trans (forall_congr' fun _ => ?_)⟩
        constructor
        · intro le m same
          cases same
          exact le
        · intro longer
          exact longer n rfl
  · rename_i builtIn
    obtain ⟨st, result, finished⟩ := bind_eq_ok_iff.mp done
    cases finished
    exact accounted.finishTrim_iff inv fit (not_not.mp builtIn) result

end TestcaseCache

/-! ## Runs -/

open TestcaseCache

/-- What can happen to the cache and to the lengths in it. -/
inductive AccountOp where
  | cache (op : CacheOp)
  | trim (q : ℕ) (call : TrimCall)

/-- The effect of an operation. -/
def AccountOp.apply (s : TestcaseCache) : AccountOp → Except CacheFault TestcaseCache
  | .cache op => op.apply s
  | .trim q call => trimCase s q call

/-- The retakes are only called by `trim_case`, which is also the only code that changes the
length of a cached entry. -/
def AccountOp.Allowed (s : TestcaseCache) : AccountOp → Prop
  | .cache (.retake _ _) => False
  | .cache (.retakeMem _ _ _ _) => False
  | .cache (.reweigh q len _) => len < 2 ^ 32 ∧ (s.Cached q → len = (s.entries q).len)
  | .cache op => op.Allowed s
  | .trim _ _ => True

/-- A trim of a cached entry meets its condition. -/
def AccountOp.KeepsTotal (s : TestcaseCache) : AccountOp → Prop
  | .cache _ => True
  | .trim q call => s.Cached q → call.KeepsTotal (s.entries q).len

/-- Runs from an empty cache in which every operation satisfies `meets`. -/
def accountSystem (maxCacheEntries : ℕ) (meets : TestcaseCache → AccountOp → Prop) :
    TransitionSystem TestcaseCache where
  init s := ∃ maxCacheSize queueCur entries,
    (∀ q, (entries q).testcaseBuf = none ∧ (entries q).len < 2 ^ 32) ∧
    startCache maxCacheEntries maxCacheSize queueCur entries = .ok s
  step s t := ∃ op : AccountOp, op.Allowed s ∧ meets s op ∧ op.apply s = .ok t

/-- What every run keeps besides the total. -/
structure Tracked (s : TestcaseCache) : Prop where
  inv : Inv s
  fit : LengthsFit s

theorem Tracked.step {s t : TestcaseCache} (tracked : Tracked s) (accounted : Accounted s)
    (op : AccountOp) (allowed : op.Allowed s) (done : op.apply s = .ok t) :
    Tracked t ∧ (Accounted t ↔ op.KeepsTotal s) := by
  obtain ⟨inv, fit⟩ := tracked
  cases op with
  | trim q call =>
      obtain ⟨⟨len, size, small, resized⟩, iff⟩ := accounted.trimCase_iff inv fit done
      exact ⟨⟨resized.inv inv, resized.fit fit small⟩, iff⟩
  | cache op =>
      cases op with
      | retake q oldLen => exact allowed.elim
      | retakeMem q len oldLen inPlace => exact allowed.elim
      | get q draws fresh =>
          obtain ⟨after, fits⟩ := accounted.get inv fit done
          exact ⟨⟨((inv.get q draws fresh).2 t done).1, fits⟩, iff_of_true after trivial⟩
      | storeMem q =>
          obtain ⟨after, fits⟩ := accounted.storeMem inv fit allowed done
          exact ⟨⟨((inv.storeMem allowed).2 t done).1, fits⟩, iff_of_true after trivial⟩
      | select queueCur =>
          cases done
          exact ⟨⟨inv.of_entries fun _ => Iff.rfl, fit⟩,
            iff_of_true (accounted.congr rfl rfl) trivial⟩
      | reweigh q len weight =>
          have kept := ((inv.apply (.reweigh q len weight) trivial).2 t done).1
          cases done
          have lengths (p : ℕ) :
              (s.changed q (fun e => { e with len := len, weight := weight }) p).len < 2 ^ 32 ∧
              (s.Cached p →
                (s.changed q (fun e => { e with len := len, weight := weight }) p).len =
                  (s.entries p).len) := by
            rw [changed_apply]
            split
            · rename_i same
              rw [same]
              exact allowed
            · exact ⟨fit p, fun _ => rfl⟩
          have fits := fun p => (lengths p).1
          obtain ⟨cached, members, total, -⟩ := accounted
          refine ⟨⟨kept, fits⟩, iff_of_true ((kept.accounted_iff fits cached fun p => ?_).mpr ?_)
            trivial⟩
          · rw [members]
            exact (changed_cached s q _ Iff.rfl p).symm
          · refine total.trans (Finset.sum_congr rfl fun p member => ?_)
            exact ((lengths p).2 ((members p).mp member)).symm

/-- The start of a run. -/
theorem Tracked.start {maxCacheEntries : ℕ} (fits : RequestFits maxCacheEntries)
    {meets : TestcaseCache → AccountOp → Prop} {s : TestcaseCache}
    (initial : (accountSystem maxCacheEntries meets).init s) : Tracked s ∧ Accounted s := by
  obtain ⟨maxCacheSize, queueCur, entries, empty, started⟩ := initial
  have inv : Inv s := inv_of_reachable fits
    (.init ⟨maxCacheSize, queueCur, entries, fun q => (empty q).1, started⟩)
  unfold startCache at started
  split at started
  · cases started
  · cases started
    have fit : ∀ q, (entries q).len < 2 ^ 32 := fun q => (empty q).2
    refine ⟨⟨inv, fit⟩, (inv.accounted_iff fit ∅ fun q => ?_).mpr rfl⟩
    exact iff_of_false (Finset.notMem_empty q) fun cached => cached (empty q).1

/-- **The total of the testcase cache is the number of bytes cached**, in every state of every
run whose trims meet their condition, and from there after exactly the operations that do. -/
theorem cache_accounted_of_reachable {maxCacheEntries : ℕ} (fits : RequestFits maxCacheEntries)
    {s : TestcaseCache}
    (run : Reachable (accountSystem maxCacheEntries fun s op => op.KeepsTotal s) s) :
    Accounted s ∧ ∀ (op : AccountOp) (t : TestcaseCache), op.Allowed s → op.apply s = .ok t →
      (Accounted t ↔ op.KeepsTotal s) := by
  have both : Tracked s ∧ Accounted s := by
    refine run.invariant (fun s initial => Tracked.start fits initial) ?_
    rintro s t - ⟨tracked, accounted⟩ ⟨op, allowed, meets, done⟩
    obtain ⟨after, iff⟩ := tracked.step accounted op allowed done
    exact ⟨after, iff.mpr meets⟩
  exact ⟨both.2, fun op t allowed done => (both.1.step both.2 op allowed done).2⟩

/-! ### A case that is trimmed in its buffer -/

/-- An empty cache of the default capacity, with entries of eight bytes. -/
def emptyCache : TestcaseCache where
  cache _ := none
  allocated := 65536
  maxCacheEntries := 65536
  maxCacheSize := 50 * 1048576
  entries _ := { len := 8 }

theorem emptyCache_init (meets : TestcaseCache → AccountOp → Prop) :
    (accountSystem 65536 meets).init emptyCache := by
  refine ⟨50 * 1048576, none, fun _ => { len := 8 }, fun _ => ⟨rfl, ?_⟩, ?_⟩
  · show 8 < 2 ^ 32
    decide
  · unfold startCache
    rw [requestBytes_eq, if_neg (by unfold maxAlloc; omega)]
    rfl

/-- Storing the first entry caches its eight bytes. -/
theorem emptyCache_stored : ∃ s, queueTestcaseStoreMem emptyCache 0 = .ok s ∧ s.Cached 0 ∧
    (s.entries 0).len = 8 := by
  refine ⟨_, rfl, ?_, rfl⟩
  exact fun absent => Option.some_ne_none _ absent

/-- A trim in the cached buffer with one deletion that keeps the trace. -/
def inPlaceTrim : TrimCall where
  inPlace := true
  verdicts := [.keepsTrace]

/-- The same with a post processor that fills the case up to eight bytes. -/
def paddedTrim : TrimCall where
  inPlace := true
  mutators := [{ postProcess := some (some (8, true)) }]
  verdicts := [.keepsTrace]

/-- The deletion leaves four of eight bytes. -/
theorem inPlaceTrim_loop : trimLoop (trimStart 8) inPlaceTrim.verdicts =
    .ok { len := 4, lenP2 := 4, attempt := none, needsWrite := true } := rfl

/-- An entry of eight bytes is stored, and then trimmed and filled up again. -/
theorem cache_accounted_padded : ∃ s t,
    Reachable (accountSystem 65536 fun s op => op.KeepsTotal s) s ∧ s.Cached 0 ∧
      trimCase s 0 paddedTrim = .ok t ∧
      Reachable (accountSystem 65536 fun s op => op.KeepsTotal s) t ∧ Accounted t := by
  obtain ⟨s, stored, cached, eight⟩ := emptyCache_stored
  have run : Reachable (accountSystem 65536 fun s op => op.KeepsTotal s) s :=
    .step (.init (emptyCache_init _)) ⟨.cache (.storeMem 0), rfl, trivial, stored⟩
  have builtIn : ¬ paddedTrim.trimmers ≠ [] := not_not_intro rfl
  have meets : AccountOp.KeepsTotal s (.trim 0 paddedTrim) := by
    intro _
    rw [TrimCall.KeepsTotal, if_neg builtIn, eight]
    exact fun _ => ⟨by decide, List.cons_ne_nil _ _, rfl, .inl rfl⟩
  obtain ⟨t, trimmed⟩ : ∃ t, trimCase s 0 paddedTrim = .ok t := by
    rw [trimCase, eight, if_neg builtIn]
    exact ⟨_, rfl⟩
  have after : Reachable (accountSystem 65536 fun s op => op.KeepsTotal s) t :=
    .step run ⟨.trim 0 paddedTrim, trivial, meets, trimmed⟩
  exact ⟨s, t, run, cached, trimmed, after,
    (cache_accounted_of_reachable (Or.inl (by decide)) after).1⟩

/-- An entry of eight bytes is stored and then trimmed to four bytes in its buffer: eight bytes
are still accounted for. -/
theorem trim_in_place_unaccounted : ∃ s t,
    Reachable (accountSystem 65536 fun _ _ => True) s ∧ trimCase s 0 inPlaceTrim = .ok t ∧
      Reachable (accountSystem 65536 fun _ _ => True) t ∧ ¬ Accounted t := by
  obtain ⟨s, stored, cached, eight⟩ := emptyCache_stored
  have run : Reachable (accountSystem 65536 fun _ _ => True) s :=
    .step (.init (emptyCache_init _)) ⟨.cache (.storeMem 0), rfl, trivial, stored⟩
  have builtIn : ¬ inPlaceTrim.trimmers ≠ [] := not_not_intro rfl
  obtain ⟨t, trimmed⟩ : ∃ t, trimCase s 0 inPlaceTrim = .ok t := by
    rw [trimCase, eight, if_neg builtIn, inPlaceTrim_loop]
    exact ⟨_, rfl⟩
  refine ⟨s, t, run, trimmed, .step run ⟨.trim 0 inPlaceTrim, trivial, trivial, trimmed⟩, ?_⟩
  have start := Tracked.start (Or.inl (by decide)) (emptyCache_init fun _ _ => True)
  obtain ⟨tracked, iff⟩ := start.1.step start.2 (.cache (.storeMem 0)) rfl stored
  rw [((iff.mpr trivial).trimCase_iff tracked.inv tracked.fit trimmed).2]
  intro meets
  have condition := meets cached
  rw [TrimCall.KeepsTotal, if_neg builtIn] at condition
  exact (condition List.mem_cons_self).2.1 rfl

end GreenFuzz.AflFuzz
