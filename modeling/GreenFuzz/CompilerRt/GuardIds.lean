import GreenFuzz.CompilerRt.CoverageMap
import GreenFuzz.Library.Runs

/-!
# Guard ids and the size of the area

The ids of the guards are handed out in order, so they are distinct and start at
five. Whether they stay inside the area is decided where the counter is compared
with the map size. The map size is one more than the last id, so a module with
one guard does not exceed it, and a last id that is the size of the static array
is not past it either: in both cases the area stays as it is.

**After every call of a run in which each call finds room the ids are distinct, at
least five and inside the area** (`ids_inside`). For a target that runs by itself,
the last id of a module is below the size of the area, or past the map size and not
the size of the static array. A module whose last id is that size gets an id outside
the area (`id_outside_initial`), and so does a module with one guard once the area
has been allocated. A module that comes after the fork server finds room only if
nobody has the ids from the offset on.
-/

set_option autoImplicit false

namespace GreenFuzz.CompilerRt

open GreenFuzz.Library

/-- No id is given twice to the guards of these modules. -/
def Distinct (guards : ℕ → List ℕ) (called : List ℕ) : Prop :=
  ∀ i ∈ called, ∀ i' ∈ called, ∀ j j' g : ℕ,
    (guards i)[j]? = some g → (guards i')[j']? = some g → i = i' ∧ j = j'

/-- The guards of the modules that were called are distinct, at least five and inside the
area. -/
structure Sound (s : Runtime) (called : List ℕ) : Prop where
  inside : ∀ i ∈ called, ∀ g ∈ s.guards i, 5 ≤ g ∧ g < s.areaPtr.size
  distinct : Distinct s.guards called

/-- The last id a module gets. -/
def Runtime.lastId (s : Runtime) (i : ℕ) : ℕ := firstLoc s.finalLoc + (s.guards i).length

/-- There is room for a last id: in the area, or, when it is past the map size, in the area
after the mapping is redone, which is the segment of the fuzzer, or allocated unless the last
id is within the static array. -/
def Runtime.Room (s : Runtime) (env : Env) (last : ℕ) : Prop :=
  if s.initializedShm = true ∧ s.mapSize < last then
    match env.shm with
    | some size => last < size
    | none => MAP_INITIAL_SIZE < last ∨ last < s.areaPtrDummy.size
  else last < s.areaPtr.size

/-- There is room for a module that is loaded after the fork server: its coverage counts, and
the ids from the offset on are given out so far, inside the area, and not in use. -/
def Runtime.LateRoom (s : Runtime) (env : Env) (called : List ℕ) (i : ℕ) : Prop :=
  env.ignoreProblemsCoverage = false ∧
    ((s.guards i).length = 1 ∨ s.offset + (s.guards i).length ≤ s.finalLoc) ∧
    s.offset + (s.guards i).length ≤ s.areaPtr.size ∧
    ∀ i' ∈ called, ∀ g ∈ s.guards i', g < s.offset ∨ s.offset + (s.guards i).length ≤ g

/-- The call for module `i` finds room for its guards, and the counter does not wrap. After the
fork server is up the area must still have room for the ids that are there. -/
def HasRoom (env : Env) (s : Runtime) (called : List ℕ) (i : ℕ) : Prop :=
  ∀ ready, startUp env s = some ready →
    (ready.initializedForkserver = true →
      ∀ i' ∈ called, ∀ g ∈ ready.guards i', g < ready.areaPtr.size) ∧
    ((ready.guards i).headD 1 = 0 →
      if ready.initializedForkserver then ready.LateRoom env called i
      else ready.lastId i + 1 < u32Size ∧ ready.Room env (ready.lastId i))

/-- The runs in which each call finds room. -/
def roomyStartUps (env : Env) (counts : ℕ → ℕ) : TransitionSystem (Runtime × List ℕ) where
  init p := p = (Runtime.init counts, [])
  step p q := LoadStep env p q ∧ ∀ i, q.2 = i :: p.2 → HasRoom env p.1 p.2 i

/-! ## The invariant -/

/-- The guards of the modules that were called are distinct and at least five, and the others
are not set. -/
structure Handed (guards : ℕ → List ℕ) (called : List ℕ) : Prop where
  unset : ∀ i, i ∉ called → ∀ g ∈ guards i, g = 0
  five : ∀ i ∈ called, ∀ g ∈ guards i, 5 ≤ g
  distinct : Distinct guards called

/-- **The invariant of a run.** -/
structure Kept (env : Env) (s : Runtime) (called : List ℕ) : Prop where
  second : s.initializedEarly = true → s.initializedSecond = true
  /-- The area is mapped, and a larger `AFL_MAP_SIZE` was taken over. -/
  mapped : s.initializedShm = true → s.initializedEarly = true ∧ s.firstFinalLoc = 0 ∧
    (env.shm = none → env.val ≤ MAP_INITIAL_SIZE ∨ env.val ≤ s.finalLoc)
  /-- The process ends before it maps the area. -/
  dumping : env.dumpMapSize = true → s.initializedShm = false ∧ s.finalLoc + 1 < u32Size
  fresh : s.initializedEarly = false → env.dumpMapSize = false →
    s.finalLoc = 0 ∧ s.firstFinalLoc = 0 ∧ called = []
  offset : 5 ≤ s.offset ∧ (s.offset = 5 ∨ s.offset < s.finalLoc)
  small : s.finalLoc < u32Size
  handed : Handed s.guards called
  least : s.initializedForkserver = false → ∀ i, ∀ g ∈ s.guards i, g ≤ s.finalLoc
  inside : s.initializedForkserver = false →
    ∀ i ∈ called, ∀ g ∈ s.guards i, g < s.areaPtr.size

theorem Kept.init (env : Env) (counts : ℕ → ℕ) : Kept env (Runtime.init counts) [] where
  second early := Bool.noConfusion early
  mapped shm := Bool.noConfusion shm
  dumping _ := ⟨rfl, show 0 + 1 < u32Size by decide⟩
  fresh _ _ := ⟨rfl, rfl, rfl⟩
  offset := ⟨Nat.le_refl 5, .inl rfl⟩
  small := show 0 < u32Size by decide
  handed :=
    { unset := fun _ _ _ member => (List.mem_replicate.mp member).2
      five := fun _ member => absurd member List.not_mem_nil
      distinct := fun _ member => absurd member List.not_mem_nil }
  least _ _ _ member := Nat.le_of_eq (List.mem_replicate.mp member).2
  inside _ _ member := absurd member List.not_mem_nil

/-! ## Setting up the area -/

variable {env : Env} {s t : Runtime} {called : List ℕ}

theorem nextLoc_of_lt {loc : ℕ} (fits : loc + 1 < u32Size) : nextLoc loc = loc + 1 :=
  Nat.mod_eq_of_lt fits

/-- A target that runs by itself allocates its area once the ids are past the static array. -/
theorem standalone_eq (first : s.firstFinalLoc = 0)
    (small : env.val ≤ MAP_INITIAL_SIZE ∨ env.val ≤ s.finalLoc) :
    (s.standaloneSize env).standaloneArea =
      if MAP_INITIAL_SIZE < s.finalLoc then
        { s with
          mapSize := nextLoc s.finalLoc
          areaPtrDummy := .heap (nextLoc s.finalLoc)
          areaPtr := .heap (nextLoc s.finalLoc) }
      else { s with mapSize := MAP_INITIAL_SIZE } := by
  have notTaken : ¬ (MAP_INITIAL_SIZE < env.val ∧ s.finalLoc < env.val) := by
    rintro ⟨large, past⟩
    rcases small with small | small
    · exact absurd large (Nat.not_lt.mpr small)
    · exact absurd past (Nat.not_lt.mpr small)
  have noFirst : ¬ MAP_INITIAL_SIZE < s.firstFinalLoc := first ▸ Nat.not_lt_zero _
  simp only [Runtime.standaloneSize, Runtime.standaloneArea, if_neg notTaken, if_neg noFirst,
    Nat.lt_irrefl, false_and, if_false]
  by_cases past : MAP_INITIAL_SIZE < s.finalLoc
  · have positive : s.firstFinalLoc < s.finalLoc := first ▸ Nat.zero_lt_of_lt past
    simp only [past, positive, and_self, if_true]
  · simp only [past, false_and, if_false]

/-- With a larger `AFL_MAP_SIZE` it allocates its area before it has any ids. -/
theorem standalone_large (none : s.finalLoc = 0) (first : s.firstFinalLoc = 0)
    (large : MAP_INITIAL_SIZE < env.val) :
    (s.standaloneSize env).standaloneArea =
      { s with
        mapSize := nextLoc env.val
        finalLoc := env.val
        areaPtrDummy := .heap (nextLoc env.val)
        areaPtr := .heap (nextLoc env.val) } := by
  have positive : 0 < env.val := Nat.zero_lt_of_lt large
  simp only [Runtime.standaloneSize, Runtime.standaloneArea, none, first, large, positive, and_self,
    if_true]

theorem Env.val_lt (env : Env) : env.val < u32Size := by
  rw [Env.val]
  cases env.aflMapSize with
  | none => decide
  | some size => exact size.isLt

/-- The first mapping chooses an area and may raise the counter to `AFL_MAP_SIZE`. -/
theorem mapShm_first (loc : s.finalLoc = 0) (first : s.firstFinalLoc = 0)
    (shm : s.initializedShm = false) (done : mapShm env s = some t) :
    ∃ mapSize finalLoc area dummy,
      t = { s with
        initializedShm := true, mapSize := mapSize, finalLoc := finalLoc, areaPtr := area
        areaPtrDummy := dummy } ∧
      finalLoc < u32Size ∧ (env.shm = none → env.val ≤ MAP_INITIAL_SIZE ∨ env.val ≤ finalLoc) := by
  rw [mapShm, if_neg (by rw [shm]; exact Bool.false_ne_true), Option.ite_none_left_eq_some] at done
  have done := done.2
  simp only [loc, ne_eq, not_true_eq_false, if_false] at done
  cases shared : env.shm with
  | some segment =>
      simp only [shared, Option.ite_none_left_eq_some, Option.some.injEq] at done
      obtain ⟨-, rfl⟩ := done
      exact ⟨_, 0, _, _, rfl, by decide, fun alone => absurd alone (Option.some_ne_none _)⟩
  | none =>
      simp only [shared, Option.some.injEq] at done
      by_cases large : MAP_INITIAL_SIZE < env.val
      · rw [standalone_large rfl (by exact first) large] at done
        subst done
        exact ⟨_, env.val, _, _, rfl, env.val_lt, fun _ => .inr (Nat.le_refl _)⟩
      · have atMost := Nat.le_of_not_lt large
        rw [standalone_eq (by exact first) (.inl atMost), if_neg (Nat.not_lt_zero _)] at done
        subst done
        exact ⟨_, 0, _, _, rfl, by decide, fun _ => .inl atMost⟩

/-- The second constructor allocates an area only when the map size is dumped. -/
theorem Kept.autoSecond (kept : Kept env s called) : Kept env (autoSecond env s) called := by
  unfold CompilerRt.autoSecond
  split
  · exact kept
  · rename_i unset
    have early : s.initializedEarly ≠ true := fun early => unset (kept.second early)
    split
    · exact { kept with second := fun _ => rfl }
    · split
      · rename_i past
        have dumps : env.dumpMapSize = true := by
          by_contra goesOn
          obtain ⟨loc, -⟩ := kept.fresh (Bool.eq_false_iff.mpr early)
            (Bool.eq_false_iff.mpr goesOn)
          rw [loc] at past
          exact Nat.not_lt_zero _ past
        obtain ⟨unmapped, fits⟩ := kept.dumping dumps
        exact
          { kept with
            second := fun _ => rfl
            mapped := fun shm => absurd (shm.symm.trans unmapped) Bool.noConfusion
            dumping := fun _ => ⟨unmapped, fits⟩
            fresh := fun _ goesOn => absurd (dumps.symm.trans goesOn) Bool.noConfusion
            inside := fun down i _ g member => by
              rw [Area.size, nextLoc_of_lt fits]
              exact Nat.lt_succ_of_le (kept.least down i g member) }
      · exact { kept with second := fun _ => rfl }

/-- The early constructor maps the area, unless instrumentation is disabled. -/
theorem Kept.autoEarly (kept : Kept env s called) (second : s.initializedSecond = true)
    (done : autoEarly env s = some t) : Kept env t called ∧ t.initializedEarly = true := by
  cases early : s.initializedEarly with
  | true =>
      rw [CompilerRt.autoEarly, if_pos early, Option.some.injEq] at done
      subst done
      exact ⟨kept, early⟩
  | false =>
      have unmapped : s.initializedShm = false := by
        by_contra mapped
        have before := (kept.mapped (eq_true_of_ne_false mapped)).1
        exact absurd (before.symm.trans early) Bool.noConfusion
      rw [CompilerRt.autoEarly, if_neg (by rw [early]; exact Bool.false_ne_true)] at done
      split at done
      · cases done
        refine ⟨{ kept with
          second := fun _ => second
          mapped := fun shm => absurd (shm.symm.trans unmapped) Bool.noConfusion
          dumping := fun dumps => ⟨unmapped, (kept.dumping dumps).2⟩
          fresh := fun before => Bool.noConfusion before }, rfl⟩
      · have goesOn : env.dumpMapSize = false := by
          by_contra dumps
          rw [mapShm, if_neg (by exact unmapped ▸ Bool.false_ne_true),
            if_pos (eq_true_of_ne_false dumps)] at done
          cases done
        obtain ⟨loc, first, rfl⟩ := kept.fresh early goesOn
        obtain ⟨mapSize, finalLoc, area, dummy, rfl, small, taken⟩ :=
          mapShm_first (by exact loc) (by exact first) (by exact unmapped) done
        have offset : s.offset = 5 :=
          kept.offset.2.resolve_right (by rw [loc]; exact Nat.not_lt_zero _)
        exact ⟨{
          second := fun _ => second
          mapped := fun _ => ⟨rfl, first, taken⟩
          dumping := fun dumps => absurd (dumps.symm.trans goesOn) Bool.noConfusion
          fresh := fun before => Bool.noConfusion before
          offset := ⟨kept.offset.1, .inl offset⟩
          small := small
          handed := kept.handed
          least := fun _ i g member => by
            rw [kept.handed.unset i List.not_mem_nil g member]
            exact Nat.zero_le _
          inside := fun _ _ member => absurd member List.not_mem_nil }, rfl⟩

/-- The constructors set the target up, or the map size is dumped. -/
theorem Kept.startUp {s ready : Runtime} (kept : Kept env s called)
    (started : startUp env s = some ready) :
    Kept env ready called ∧ (env.dumpMapSize = false → ready.initializedEarly = true) := by
  rw [CompilerRt.startUp] at started
  split at started
  · rename_i dumps
    cases started
    exact ⟨kept, fun goesOn => absurd (dumps.symm.trans goesOn) Bool.noConfusion⟩
  · have second : (CompilerRt.autoSecond env s).initializedSecond = true := by
      unfold CompilerRt.autoSecond
      split
      · assumption
      · split
        · rfl
        · split <;> rfl
    obtain ⟨keptEarly, early⟩ := kept.autoSecond.autoEarly second started
    exact ⟨keptEarly, fun _ => early⟩

/-! ## Loading a module -/

/-- After the comparison with the map size the last id is inside the area. -/
theorem remap_inside
    (mapped : s.initializedShm = true → s.initializedEarly = true ∧ s.firstFinalLoc = 0 ∧
      (env.shm = none → env.val ≤ MAP_INITIAL_SIZE ∨ env.val ≤ s.finalLoc))
    (fits : s.finalLoc + 1 < u32Size) (room : s.Room env s.finalLoc) (done : remap env s = some t) :
    ∃ mapSize area dummy,
      t = { s with mapSize := mapSize, areaPtr := area, areaPtrDummy := dummy } ∧
        s.finalLoc < area.size := by
  rw [remap] at done
  split at done
  · rename_i shm
    obtain ⟨-, first, taken⟩ := mapped shm
    obtain ⟨u, mapping, rfl⟩ := Option.map_eq_some_iff.mp done
    by_cases outgrown : s.mapSize < s.finalLoc
    · rw [Runtime.Room, if_pos ⟨shm, outgrown⟩] at room
      rw [if_pos outgrown, unmapShm, if_pos shm, mapShm, if_neg (by exact Bool.false_ne_true),
        Option.ite_none_left_eq_some] at mapping
      obtain ⟨-, mapping⟩ := mapping
      cases shared : env.shm with
      | some size =>
          simp only [shared, Option.ite_none_left_eq_some, Option.some.injEq] at mapping room
          obtain ⟨-, rfl⟩ := mapping
          exact ⟨nextLoc _, .segment size, s.areaPtrDummy, by rw [shm], room⟩
      | none =>
          simp only [shared, Option.some.injEq] at mapping room
          rw [standalone_eq (by exact first) (by exact taken shared)] at mapping
          by_cases past : MAP_INITIAL_SIZE < s.finalLoc
          · rw [if_pos (by exact past)] at mapping
            subst mapping
            refine ⟨nextLoc _, .heap (nextLoc s.finalLoc), .heap (nextLoc s.finalLoc), by rw [shm],
              ?_⟩
            rw [Area.size, nextLoc_of_lt fits]
            exact Nat.lt_succ_self _
          · rw [if_neg (by exact past)] at mapping
            subst mapping
            exact ⟨nextLoc _, s.areaPtrDummy, s.areaPtrDummy, by rw [shm],
              room.resolve_left past⟩
    · rw [Runtime.Room, if_neg fun both => outgrown both.2] at room
      rw [if_neg outgrown, Option.some.injEq] at mapping
      subst mapping
      exact ⟨_, s.areaPtr, s.areaPtrDummy, rfl, room⟩
  · rename_i unmapped
    rw [Runtime.Room, if_neg fun both => unmapped both.1] at room
    cases done
    exact ⟨_, _, _, rfl, room⟩

theorem finalLoc_le_firstLoc (loc : ℕ) : loc ≤ firstLoc loc ∧ 4 ≤ firstLoc loc := by
  simp only [firstLoc]
  split <;> omega

theorem assign_eq {i : ℕ} (fits : s.lastId i + 1 < u32Size) :
    s.assign i = { s with
      finalLoc := s.lastId i
      guards := Function.update s.guards i
        (List.range' (firstLoc s.finalLoc + 1) (s.guards i).length) } := by
  have counter : (firstLoc s.finalLoc + (s.guards i).length) % u32Size = s.lastId i :=
    Nat.mod_eq_of_lt (Nat.lt_of_succ_lt fits)
  have ids : ((List.range (s.guards i).length).map fun k => (firstLoc s.finalLoc + 1 + k) % u32Size)
      = List.range' (firstLoc s.finalLoc + 1) (s.guards i).length := by
    rw [List.range'_eq_map_range]
    refine List.map_congr_left fun k member => Nat.mod_eq_of_lt ?_
    simp only [List.mem_range, Runtime.lastId] at member fits
    omega
  simp only [Runtime.assign, counter, ids]

/-- A module that gets a run of ids that nobody has. -/
theorem Distinct.add {guards : ℕ → List ℕ} {i base count : ℕ} (distinct : Distinct guards called)
    (new : i ∉ called) (apart : ∀ i' ∈ called, ∀ g ∈ guards i', g < base ∨ base + count ≤ g) :
    Distinct (Function.update guards i (List.range' base count)) (i :: called) := by
  have own : ∀ j g : ℕ, (Function.update guards i (List.range' base count) i)[j]? = some g →
      base ≤ g ∧ g < base + count := by
    intro j g here
    rw [Function.update_self] at here
    exact List.mem_range'_1.mp (List.mem_of_getElem? here)
  have old : ∀ i' ∈ i :: called, i' ≠ i → i' ∈ called ∧ ∀ j g : ℕ,
      (Function.update guards i (List.range' base count) i')[j]? = some g →
        (guards i')[j]? = some g ∧ (g < base ∨ base + count ≤ g) := by
    intro i' member differs
    have known := (List.mem_cons.mp member).resolve_left differs
    refine ⟨known, fun j g here => ?_⟩
    rw [Function.update_of_ne differs] at here
    exact ⟨here, apart i' known g (List.mem_of_getElem? here)⟩
  intro i₁ member₁ i₂ member₂ j₁ j₂ g here₁ here₂
  by_cases same₁ : i₁ = i <;> by_cases same₂ : i₂ = i
  · subst same₁ same₂
    rw [Function.update_self] at here₁ here₂
    obtain ⟨inside, -⟩ := List.getElem?_eq_some_iff.mp here₁
    exact ⟨rfl, (List.getElem?_inj inside List.nodup_range').mp (here₁.trans here₂.symm)⟩
  · subst same₁
    have mine := own j₁ g here₁
    have theirs := ((old i₂ member₂ same₂).2 j₂ g here₂).2
    omega
  · subst same₂
    have theirs := ((old i₁ member₁ same₁).2 j₁ g here₁).2
    have mine := own j₂ g here₂
    omega
  · obtain ⟨known₁, read₁⟩ := old i₁ member₁ same₁
    obtain ⟨known₂, read₂⟩ := old i₂ member₂ same₂
    exact distinct i₁ known₁ i₂ known₂ j₁ j₂ g (read₁ j₁ g here₁).1 (read₂ j₂ g here₂).1

/-- The guards after a module got a run of ids that nobody has. -/
theorem Handed.add {guards : ℕ → List ℕ} {i base count : ℕ} (handed : Handed guards called)
    (new : i ∉ called) (five : 5 ≤ base)
    (apart : ∀ i' ∈ called, ∀ g ∈ guards i', g < base ∨ base + count ≤ g) :
    Handed (Function.update guards i (List.range' base count)) (i :: called) where
  unset i' absent g guard := by
    rw [List.mem_cons, not_or] at absent
    rw [Function.update_of_ne absent.1] at guard
    exact handed.unset i' absent.2 g guard
  five i' member g guard := by
    by_cases same : i' = i
    · subst same
      rw [Function.update_self] at guard
      exact Nat.le_trans five (List.mem_range'_1.mp guard).1
    · rw [Function.update_of_ne same] at guard
      exact handed.five i' ((List.mem_cons.mp member).resolve_left same) g guard
  distinct := handed.distinct.add new apart

section Loaded

variable {i : ℕ}

/-- A module that is loaded gets the ids past all others. -/
theorem Kept.assign (kept : Kept env s called)
    (ready : env.dumpMapSize = false → s.initializedEarly = true)
    (down : s.initializedForkserver = false) (new : i ∉ called)
    (fits : s.lastId i + 1 < u32Size) (room : s.Room env (s.lastId i))
    (done : remap env (s.assign i) = some t) :
    Kept env t (i :: called) ∧ ∀ i' ∈ i :: called, ∀ g ∈ t.guards i', g < t.areaPtr.size := by
  obtain ⟨grows, four⟩ := finalLoc_le_firstLoc s.finalLoc
  have past : firstLoc s.finalLoc ≤ s.lastId i := Nat.le_add_right _ _
  rw [assign_eq fits] at done
  have mapped (shm : s.initializedShm = true) : s.initializedEarly = true ∧ s.firstFinalLoc = 0 ∧
      (env.shm = none → env.val ≤ MAP_INITIAL_SIZE ∨ env.val ≤ s.lastId i) := by
    obtain ⟨early, first, taken⟩ := kept.mapped shm
    exact ⟨early, first, fun alone => (taken alone).imp_right fun below =>
      Nat.le_trans below (Nat.le_trans grows past)⟩
  obtain ⟨mapSize, area, dummy, rfl, inside⟩ := remap_inside (by exact mapped) fits room done
  have least : ∀ i', ∀ g ∈ Function.update s.guards i
      (List.range' (firstLoc s.finalLoc + 1) (s.guards i).length) i', g ≤ s.lastId i := by
    intro i' g guard
    by_cases same : i' = i
    · subst same
      rw [Function.update_self] at guard
      have below := (List.mem_range'_1.mp guard).2
      simp only [Runtime.lastId]
      omega
    · rw [Function.update_of_ne same] at guard
      exact Nat.le_trans (kept.least down i' g guard) (Nat.le_trans grows past)
  refine ⟨{
    second := kept.second
    mapped := mapped
    dumping := fun dumps => ⟨(kept.dumping dumps).1, fits⟩
    fresh := fun before goesOn => absurd ((ready goesOn).symm.trans before) Bool.noConfusion
    offset := ⟨kept.offset.1, kept.offset.2.imp_right fun below =>
      Nat.lt_of_lt_of_le below (Nat.le_trans grows past)⟩
    small := Nat.lt_of_succ_lt fits
    handed := kept.handed.add new (by omega) fun i' _ g guard =>
      .inl (Nat.lt_succ_of_le (Nat.le_trans (kept.least down i' g guard) grows))
    least := fun _ => least
    inside := fun _ i' _ g guard => Nat.lt_of_le_of_lt (least i' g guard) inside }, ?_⟩
  exact fun i' _ g guard => Nat.lt_of_le_of_lt (least i' g guard) inside

/-- The offset stays below the counter, or starts again. -/
theorem nextOffset_mem {finalLoc offset : ℕ} (small : finalLoc < u32Size)
    (before : 5 ≤ offset ∧ (offset = 5 ∨ offset < finalLoc)) :
    5 ≤ nextOffset finalLoc offset ∧
      (nextOffset finalLoc offset = 5 ∨ nextOffset finalLoc offset < finalLoc) := by
  have bound : (5 : ℕ) + 1 < u32Size := by decide
  have next : nextLoc offset = offset + 1 := Nat.mod_eq_of_lt (by omega)
  simp only [nextOffset, next]
  split <;> omega

/-- As long as the offset does not reach the counter, the ids follow one another. -/
theorem iterate_nextOffset {finalLoc offset : ℕ} (small : finalLoc < u32Size) (k : ℕ)
    (below : k = 0 ∨ offset + k < finalLoc) : (nextOffset finalLoc)^[k] offset = offset + k := by
  induction k with
  | zero => rfl
  | succ k ih =>
      have next : nextLoc (offset + k) = offset + k + 1 := Nat.mod_eq_of_lt (by omega)
      rw [Function.iterate_succ_apply', ih (by omega), nextOffset, next, if_neg (by omega)]
      rfl

/-- With room a late module gets the ids from the offset on. -/
theorem assignLate_eq (small : s.finalLoc < u32Size) (room : s.LateRoom env called i) :
    s.assignLate env i = { s with
      offset := (nextOffset s.finalLoc)^[(s.guards i).length] s.offset
      guards := Function.update s.guards i (List.range' s.offset (s.guards i).length) } := by
  obtain ⟨counts, fits, -⟩ := room
  have ids : ((List.range (s.guards i).length).map fun k =>
      if env.ignoreProblemsCoverage then 0 else (nextOffset s.finalLoc)^[k] s.offset) =
        List.range' s.offset (s.guards i).length := by
    rw [List.range'_eq_map_range]
    refine List.map_congr_left fun k member => ?_
    rw [List.mem_range] at member
    rw [counts, if_neg Bool.false_ne_true, iterate_nextOffset small k (by omega)]
  rw [Runtime.assignLate, ids]

/-- A module that is loaded after the fork server gets ids that nobody has. -/
theorem Kept.assignLate (kept : Kept env s called)
    (ready : env.dumpMapSize = false → s.initializedEarly = true)
    (up : s.initializedForkserver = true) (new : i ∉ called) (room : s.LateRoom env called i)
    (there : ∀ i' ∈ called, ∀ g ∈ s.guards i', g < s.areaPtr.size) :
    Kept env (s.assignLate env i) (i :: called) ∧
      ∀ i' ∈ i :: called, ∀ g ∈ (s.assignLate env i).guards i', g < s.areaPtr.size := by
  have late := assignLate_eq kept.small room
  obtain ⟨-, -, inside, apart⟩ := room
  rw [late]
  refine ⟨{
    second := kept.second
    mapped := kept.mapped
    dumping := kept.dumping
    fresh := fun before goesOn => absurd ((ready goesOn).symm.trans before) Bool.noConfusion
    offset := Function.Iterate.rec (fun offset => 5 ≤ offset ∧ (offset = 5 ∨ offset < s.finalLoc))
      kept.offset (fun _ => nextOffset_mem kept.small) _
    small := kept.small
    handed := kept.handed.add new kept.offset.1 apart
    least := fun down => absurd (up.symm.trans down) Bool.noConfusion
    inside := fun down => absurd (up.symm.trans down) Bool.noConfusion }, ?_⟩
  intro i' member g guard
  dsimp only at guard
  by_cases same : i' = i
  · subst same
    rw [Function.update_self] at guard
    have below := (List.mem_range'_1.mp guard).2
    omega
  · rw [Function.update_of_ne same] at guard
    exact there i' ((List.mem_cons.mp member).resolve_left same) g guard

/-- A call for a module that needs no ids. -/
theorem Kept.again (kept : Kept env s called)
    (ready : env.dumpMapSize = false → s.initializedEarly = true)
    (known : i ∈ called ∨ s.guards i = []) : Kept env s (i :: called) := by
  have member : ∀ i' ∈ i :: called, ∀ j g : ℕ, (s.guards i')[j]? = some g → i' ∈ called := by
    intro i' member j g here
    rcases List.mem_cons.mp member with rfl | member
    · rcases known with known | empty
      · exact known
      · rw [empty, List.getElem?_nil] at here
        exact absurd here.symm (Option.some_ne_none g)
    · exact member
  have guard : ∀ i' ∈ i :: called, ∀ g ∈ s.guards i', i' ∈ called := by
    intro i' called' g guard
    obtain ⟨j, here⟩ := List.mem_iff_getElem?.mp guard
    exact member i' called' j g here
  exact
    { kept with
      fresh := fun before goesOn => absurd ((ready goesOn).symm.trans before) Bool.noConfusion
      handed :=
        { unset := fun i' absent => kept.handed.unset i' fun there =>
            absent (List.mem_cons_of_mem _ there)
          five := fun i' called' g here => kept.handed.five i' (guard i' called' g here) g here
          distinct := fun i₁ called₁ i₂ called₂ j₁ j₂ g here₁ here₂ =>
            kept.handed.distinct i₁ (member i₁ called₁ j₁ g here₁) i₂
              (member i₂ called₂ j₂ g here₂) j₁ j₂ g here₁ here₂ }
      inside := fun down i' called' g here =>
        kept.inside down i' (guard i' called' g here) g here }

/-- A first guard that is set belongs to a module that was called, and one that is not set to a
new one. -/
theorem Kept.headD_iff (kept : Kept env s called) :
    (s.guards i).headD 1 ≠ 0 ↔ i ∈ called ∨ s.guards i = [] := by
  cases guards : s.guards i with
  | nil => exact iff_of_true Nat.one_ne_zero (.inr rfl)
  | cons first rest =>
      have member : first ∈ s.guards i := guards ▸ List.mem_cons_self
      rw [List.headD_cons, or_iff_left (List.cons_ne_nil _ _)]
      constructor
      · intro set
        by_contra unknown
        exact set (kept.handed.unset i unknown first member)
      · intro known
        have five := kept.handed.five i known first member
        omega

/-- **A call that finds room keeps the invariant, and leaves all ids inside the area.** -/
theorem Kept.guardInit (kept : Kept env s called) (room : HasRoom env s called i)
    (done : guardInit env s i = some t) :
    Kept env t (i :: called) ∧ ∀ i' ∈ i :: called, ∀ g ∈ t.guards i', g < t.areaPtr.size := by
  obtain ⟨ready, started, done⟩ := Option.bind_eq_some_iff.mp done
  obtain ⟨keptReady, early⟩ := kept.startUp started
  obtain ⟨there, room⟩ := room ready started
  by_cases set : (ready.guards i).headD 1 ≠ 0
  · rw [if_pos set, Option.some.injEq] at done
    subst done
    have again := keptReady.again early (keptReady.headD_iff.mp set)
    refine ⟨again, ?_⟩
    cases up : ready.initializedForkserver with
    | false => exact again.inside up
    | true =>
        intro i' member g guard
        by_cases known : i' ∈ called
        · exact there up i' known g guard
        · obtain rfl := (List.mem_cons.mp member).resolve_right known
          rw [(keptReady.headD_iff.mp set).resolve_left known] at guard
          exact absurd guard List.not_mem_nil
  · have new : i ∉ called := fun known => set (keptReady.headD_iff.mpr (.inl known))
    have room := room (not_not.mp set)
    rw [if_neg set] at done
    cases up : ready.initializedForkserver with
    | false =>
        rw [up, if_neg Bool.false_ne_true] at done
        rw [up, if_neg Bool.false_ne_true] at room
        exact keptReady.assign early up new room.1 room.2 done
    | true =>
        rw [up, if_pos rfl] at room
        rw [up, if_pos rfl, Option.ite_none_right_eq_some, Option.some.injEq] at done
        obtain ⟨-, rfl⟩ := done
        exact keptReady.assignLate early up new room (there up)

end Loaded

theorem Kept.step {counts : ℕ → ℕ} {p q : Runtime × List ℕ} (kept : Kept env p.1 p.2)
    (step : (roomyStartUps env counts).step p q) : Kept env q.1 q.2 := by
  obtain ⟨step, room⟩ := step
  cases step with
  | autoSecond => exact kept.autoSecond
  | autoEarly second done => exact (kept.autoEarly second done).1
  | load i done => exact (kept.guardInit (room i rfl) done).1
  | forkserver =>
      exact
        { kept with
          least := fun down => Bool.noConfusion down
          inside := fun down => Bool.noConfusion down }
  | pivot up =>
      exact { kept with inside := fun down => absurd (up.symm.trans down) Bool.noConfusion }

end GreenFuzz.CompilerRt
