import GreenFuzz.AflFuzz.State
import GreenFuzz.Library.Runs

/-!
# The arrays of the coverage map at start-up

`afl_state_init` allocates one array for each thing that afl-fuzz keeps for every edge, and
`main` allocates `top_rated_candidates` when schedules are cycled. The size is that of
`AFL_MAP_SIZE` at first. An emulation mode sets it to `MAP_SIZE`, and each fork server that
reports a larger map makes `afl_resize_map_buffers` grow the arrays, before the first
execution is rated.

An array is the number of its cells and their contents. Fresh memory of `realloc` has
unspecified contents, and the allocator takes its size as a `u32`.

The arrays cover the map in every state of a start-up whose steps fit, and a step that does
not fit leaves an array short or with a stale pointer (`mapCovered_of_reachable`).
-/

set_option autoImplicit false

namespace GreenFuzz.AflFuzz

open Library

/-- `MAP_SIZE`. -/
def MAP_SIZE : ℕ := 65536

/-- `MAX_ALLOC`. -/
def MAX_ALLOC : ℕ := 0x40000000

/-- The arrays that `afl_state_init` allocates. -/
inductive EdgeArray where
  | virginBits | virginTmout | virginCrash | varBytes | topRated | cleanTrace
  | cleanTraceCustom | firstTrace | mapTmpBuf
  deriving DecidableEq, Repr

/-- `sizeof` of a cell: `top_rated` has pointers, the others bytes. -/
def EdgeArray.cellSize : EdgeArray → ℕ
  | .topRated => 8
  | _ => 1

/-- `afl_resize_map_buffers` clears the new cells. -/
def EdgeArray.cleared : EdgeArray → Bool
  | .virginBits | .virginTmout | .virginCrash => false
  | _ => true

def EdgeArray.all : List EdgeArray :=
  [.virginBits, .virginTmout, .virginCrash, .varBytes, .topRated, .cleanTrace,
    .cleanTraceCustom, .firstTrace, .mapTmpBuf]

/-- An allocated array: how many cells it has room for, and what they hold. A null pointer is
0. -/
structure CellArray where
  room : ℕ
  cells : ℕ → ℕ

/-- A request of this many bytes ends the process. -/
def allocAborts (bytes : ℕ) : Bool := MAX_ALLOC < u32 bytes

/-- `ck_alloc`. -/
def ckAlloc (cellSize count : ℕ) : CellArray := ⟨u32 (count * cellSize) / cellSize, fun _ => 0⟩

/-- `ck_realloc`, where `fresh` is what new memory holds. -/
def ckRealloc (fresh : ℕ → ℕ) (array : CellArray) (cellSize count : ℕ) : CellArray where
  room := u32 (count * cellSize) / cellSize
  cells := fun i => if i < array.room then array.cells i else fresh i

/-- `memset(array + start, 0, count)`. -/
def CellArray.clear (array : CellArray) (start count : ℕ) : CellArray :=
  { array with cells := fun i => if start ≤ i ∧ i < start + count then 0 else array.cells i }

/-- `afl_state_init`. -/
def allocMapBuffers (mapSize : ℕ) : Option (EdgeArray → CellArray) :=
  if EdgeArray.all.any fun name => allocAborts (mapSize * name.cellSize) then none
  else some fun name => ckAlloc name.cellSize mapSize

/-- `afl_resize_map_buffers`. -/
def resizeMapBuffers (fresh : ℕ → ℕ) (buffers : EdgeArray → CellArray) (oldSize newSize : ℕ) :
    Option (EdgeArray → CellArray) :=
  if EdgeArray.all.any fun name => allocAborts (newSize * name.cellSize) then none
  else some fun name =>
    let array := ckRealloc fresh (buffers name) name.cellSize newSize
    if oldSize < newSize ∧ name.cleared then array.clear oldSize (newSize - oldSize) else array

/-! ## Start-up -/

/-- Where `main` is: reading options, setting up the arguments of the target, or starting
fork servers. -/
inductive StartPhase where
  | options | arguments | servers
  deriving DecidableEq, Repr

/-- The environment: `cycle_schedules`, whether the target is not instrumented or emulated,
and what fresh memory holds. -/
structure StartConfig where
  cycleSchedules : Bool
  emulated : Bool
  fresh : ℕ → ℕ

/-- The local `map_size` of `main`, and the arrays. -/
structure StartState where
  phase : StartPhase
  mapSize : ℕ
  buffers : EdgeArray → CellArray
  candidates : Option CellArray

/-- A step of `main`. -/
inductive StartAction where
  /-- Allocate `top_rated_candidates`. -/
  | allocate
  /-- The block for targets that are not instrumented or emulated. -/
  | setUp
  /-- A fork server of the target, a sanitizer or CmpLog reports the size of its map. -/
  | measure (newMapSize : ℕ)

/-- A step of `main`, if it is next and does not end the process. -/
def StartState.act (config : StartConfig) (s : StartState) : StartAction → Option StartState
  | .allocate =>
      if s.phase ≠ .options ∨ (config.cycleSchedules ∧ allocAborts (s.mapSize * 8)) then none
      else
        some { s with
          phase := .arguments
          candidates := if config.cycleSchedules then some (ckAlloc 8 s.mapSize) else none }
  | .setUp =>
      if s.phase ≠ .arguments then none
      else if config.emulated then
        -- the size is assigned before the call, which gets it as the old size
        let mapSize := MAP_SIZE
        (resizeMapBuffers config.fresh s.buffers mapSize MAP_SIZE).map fun buffers =>
          { s with phase := .servers, mapSize := mapSize, buffers := buffers }
      else some { s with phase := .servers }
  | .measure newMapSize =>
      if s.phase ≠ .servers then none
      else if s.mapSize < newMapSize then
        (resizeMapBuffers config.fresh s.buffers s.mapSize newMapSize).map fun buffers =>
          { s with mapSize := newMapSize, buffers := buffers }
      else some s

/-- An array has room for the map, and its pointers are null as far as the map goes. -/
def CellArray.Covers (array : CellArray) (mapSize : ℕ) : Prop :=
  mapSize ≤ array.room ∧ ∀ i < mapSize, array.cells i = 0

/-- Every array has room for the map, and the arrays of pointers have null pointers. -/
structure MapCovered (s : StartState) : Prop where
  room : ∀ name, s.mapSize ≤ (s.buffers name).room
  topRated : (s.buffers .topRated).Covers s.mapSize
  candidates : ∀ array, s.candidates = some array → array.Covers s.mapSize

/-- The map may grow to the size: the bytes of `top_rated` fit a `u32`, and
`top_rated_candidates`, which nobody resizes, is missing or large enough. -/
def GrowthFits (s : StartState) (newMapSize : ℕ) : Prop :=
  newMapSize < 2 ^ 29 ∧ ∀ array, s.candidates = some array → newMapSize ≤ array.room

/-- The condition on a step. -/
def StepFits (config : StartConfig) (s : StartState) : StartAction → Prop
  | .allocate => True
  | .setUp => config.emulated → s.mapSize < MAP_SIZE →
      GrowthFits s MAP_SIZE ∧ ∀ i, s.mapSize ≤ i → i < MAP_SIZE → config.fresh i = 0
  | .measure newMapSize => s.mapSize < newMapSize → GrowthFits s newMapSize

/-! ## What one step does -/

section Steps

variable {config : StartConfig} {s t : StartState} {newMapSize : ℕ}

/-- An array of pointers gets its room when its bytes fit a `u32`, and only then. -/
theorem pointer_room (count : ℕ) : count ≤ u32 (count * 8) / 8 ↔ count < 2 ^ 29 := by
  rw [u32]
  omega

theorem cell_room {count : ℕ} (fits : count < 2 ^ 29) (name : EdgeArray) :
    u32 (count * name.cellSize) / name.cellSize = count := by
  cases name <;> simp only [EdgeArray.cellSize, u32] <;> omega

theorem allocMapBuffers_eq_some {mapSize : ℕ} {buffers : EdgeArray → CellArray}
    (done : allocMapBuffers mapSize = some buffers) :
    buffers = fun name => ckAlloc name.cellSize mapSize := by
  simp only [allocMapBuffers] at done
  split at done
  · cases done
  · exact (Option.some.inj done).symm

/-- The room of each array after a resize. -/
theorem resizeMapBuffers_room {fresh : ℕ → ℕ} {before after : EdgeArray → CellArray}
    {oldSize newSize : ℕ} (done : resizeMapBuffers fresh before oldSize newSize = some after)
    (name : EdgeArray) : (after name).room = u32 (newSize * name.cellSize) / name.cellSize := by
  simp only [resizeMapBuffers] at done
  split at done
  · cases done
  · cases done
    dsimp only
    split <;> rfl

/-- What `top_rated` holds after a resize: the new cells are cleared if the old size that was
passed is below the new one. -/
theorem resizeMapBuffers_topRated {fresh : ℕ → ℕ} {before after : EdgeArray → CellArray}
    {oldSize newSize : ℕ} (done : resizeMapBuffers fresh before oldSize newSize = some after)
    (i : ℕ) : (after .topRated).cells i =
      if oldSize ≤ i ∧ i < newSize then 0
      else if i < (before .topRated).room then (before .topRated).cells i
      else fresh i := by
  simp only [resizeMapBuffers] at done
  split at done
  · cases done
  · cases done
    simp only [EdgeArray.cleared, and_true, ckRealloc, CellArray.clear]
    by_cases grows : oldSize < newSize
    · have range : oldSize ≤ i ∧ i < oldSize + (newSize - oldSize) ↔
          oldSize ≤ i ∧ i < newSize := by omega
      simp only [if_pos grows, range]
    · have outside : ¬ (oldSize ≤ i ∧ i < newSize) := by omega
      simp only [if_neg grows, if_neg outside]

/-- The states of a start-up whose steps fit. -/
structure StartInv (s : StartState) : Prop extends MapCovered s where
  small : s.mapSize < 2 ^ 29
  null : ∀ array, s.candidates = some array → ∀ i, array.cells i = 0
  exact : s.phase ≠ .servers → (s.buffers .topRated).room = s.mapSize

/-- A start-up begins with the arrays of `afl_state_init`. `get_map_size` admits `1 << 29` too, for
which the bytes of `top_rated` are 0 as a `u32`. -/
def StartState.Initial (s : StartState) : Prop :=
  s.phase = .options ∧ s.candidates = none ∧ s.mapSize < 2 ^ 29 ∧
    allocMapBuffers s.mapSize = some s.buffers

theorem startInv_initial (initial : s.Initial) : StartInv s := by
  obtain ⟨-, missing, small, allocated⟩ := initial
  have buffers := allocMapBuffers_eq_some allocated
  have room (name : EdgeArray) : (s.buffers name).room = s.mapSize := by
    rw [buffers]
    exact cell_room small name
  refine ⟨⟨fun name => (room name).ge, ⟨(room .topRated).ge, fun i _ => ?_⟩, ?_⟩, small, ?_, ?_⟩
  · rw [buffers]
    rfl
  · rw [missing]
    exact fun _ none => nomatch none
  · rw [missing]
    exact fun _ none => nomatch none
  · exact fun _ => room .topRated

/-- A resize covers the new map exactly when the growth fits and the new pointers that the call
does not clear are null. -/
theorem covered_resize_iff (inv : StartInv s) {after : EdgeArray → CellArray} {oldSize : ℕ}
    (done : resizeMapBuffers config.fresh s.buffers oldSize newMapSize = some after)
    (phase : StartPhase) :
    MapCovered { s with phase := phase, mapSize := newMapSize, buffers := after } ↔
      GrowthFits s newMapSize ∧ ∀ i, s.mapSize ≤ i → i < newMapSize → i < oldSize →
        (if i < (s.buffers .topRated).room then (s.buffers .topRated).cells i
          else config.fresh i) = 0 := by
  have rooms := resizeMapBuffers_room done
  have pointers := resizeMapBuffers_topRated done
  constructor
  · rintro ⟨room, topRated, candidates⟩
    refine ⟨⟨?_, fun array found => (candidates array found).1⟩, fun i above below early => ?_⟩
    · have enough := topRated.1
      rw [rooms] at enough
      exact (pointer_room newMapSize).mp enough
    · have null := topRated.2 i below
      rwa [pointers, if_neg (by omega)] at null
  · rintro ⟨⟨small, candidates⟩, fresh⟩
    have room (name : EdgeArray) : newMapSize ≤ (after name).room :=
      ((rooms name).trans (cell_room small name)).ge
    refine ⟨room, ⟨room .topRated, fun i (below : i < newMapSize) => ?_⟩,
      fun array found => ⟨candidates array found, fun i _ => inv.null array found i⟩⟩
    rw [pointers]
    split
    · rfl
    · rename_i early
      by_cases covered : i < s.mapSize
      · rw [if_pos (covered.trans_le inv.topRated.1)]
        exact inv.topRated.2 i covered
      · exact fresh i (not_lt.mp covered) below (by omega)

/-- The condition on a step is exact. -/
theorem act_covered_iff (inv : StartInv s) (action : StartAction)
    (taken : s.act config action = some t) : MapCovered t ↔ StepFits config s action := by
  cases action with
  | allocate =>
      simp only [StartState.act] at taken
      split at taken
      · cases taken
      · cases taken
        simp only [StepFits, iff_true]
        refine ⟨inv.room, inv.topRated, fun array found => ?_⟩
        dsimp only at found
        split at found
        · cases found
          exact ⟨(pointer_room s.mapSize).mpr inv.small, fun _ _ => rfl⟩
        · cases found
  | setUp =>
      simp only [StartState.act] at taken
      split at taken
      · cases taken
      · rename_i arguments
        split at taken
        · rename_i emulated
          obtain ⟨after, done, rfl⟩ := Option.map_eq_some_iff.mp taken
          rw [covered_resize_iff inv done .servers]
          by_cases grows : s.mapSize < MAP_SIZE
          · simp only [StepFits, emulated, grows, true_imp_iff]
            refine and_congr_right fun _ => forall_congr' fun i => ?_
            have exact := inv.exact (by rw [not_not.mp arguments]; decide)
            constructor
            · intro null above below
              have fresh := null above below below
              rwa [if_neg (by omega)] at fresh
            · intro fresh above below _
              rw [if_neg (by omega)]
              exact fresh above below
          · simp only [StepFits, emulated, grows, true_imp_iff, false_imp_iff, iff_true]
            refine ⟨⟨by decide, fun array found => ?_⟩, fun i above below => by omega⟩
            exact (not_lt.mp grows).trans (inv.candidates array found).1
        · rename_i native
          cases taken
          simp only [StepFits, native, Bool.false_eq_true, false_imp_iff, iff_true]
          exact ⟨inv.room, inv.topRated, inv.candidates⟩
  | measure newMapSize =>
      simp only [StartState.act] at taken
      split at taken
      · cases taken
      · split at taken
        · rename_i grows
          obtain ⟨after, done, rfl⟩ := Option.map_eq_some_iff.mp taken
          rw [covered_resize_iff inv done s.phase]
          simp only [StepFits, grows, true_imp_iff, and_iff_left_iff_imp]
          intro _ i above _ below
          omega
        · rename_i small
          cases taken
          simp only [StepFits, small, false_imp_iff, iff_true]
          exact inv.toMapCovered

/-- A step that fits keeps the invariant. -/
theorem StartInv.act (inv : StartInv s) (action : StartAction)
    (taken : s.act config action = some t) (fits : StepFits config s action) : StartInv t := by
  have covered := (act_covered_iff inv action taken).mpr fits
  cases action with
  | allocate =>
      simp only [StartState.act] at taken
      split at taken
      · cases taken
      · rename_i next
        cases taken
        refine ⟨covered, inv.small, fun array found i => ?_, fun _ => ?_⟩
        · dsimp only at found
          split at found
          · cases found
            rfl
          · cases found
        · exact inv.exact (by rw [not_not.mp (not_or.mp next).1]; decide)
  | setUp =>
      simp only [StartState.act] at taken
      split at taken
      · cases taken
      · split at taken
        · obtain ⟨after, done, rfl⟩ := Option.map_eq_some_iff.mp taken
          exact ⟨covered, (by decide : MAP_SIZE < 2 ^ 29), inv.null, fun early => absurd rfl early⟩
        · cases taken
          exact ⟨covered, inv.small, inv.null, fun early => absurd rfl early⟩
  | measure newMapSize =>
      simp only [StartState.act] at taken
      split at taken
      · cases taken
      · rename_i servers
        split at taken
        · rename_i grows
          obtain ⟨after, done, rfl⟩ := Option.map_eq_some_iff.mp taken
          exact ⟨covered, (fits grows).1, inv.null, fun early => absurd (not_not.mp servers) early⟩
        · cases taken
          exact inv

end Steps

/-- Start-ups whose steps fit. -/
def startSystem (config : StartConfig) : TransitionSystem StartState where
  init := StartState.Initial
  step s t := ∃ action, s.act config action = some t ∧ StepFits config s action

/-- **The arrays cover the map in every state of a start-up whose steps fit**, and a step from
such a state leaves them covering the map exactly when it fits. -/
theorem mapCovered_of_reachable (config : StartConfig) (s : StartState)
    (run : Reachable (startSystem config) s) :
    MapCovered s ∧ ∀ action t, s.act config action = some t →
      (MapCovered t ↔ StepFits config s action) := by
  have inv : StartInv s := by
    refine run.invariant (P := StartInv) (fun s initial => startInv_initial initial) ?_
    rintro before after - inv ⟨action, taken, fits⟩
    exact inv.act action taken fits
  exact ⟨inv.toMapCovered, fun action t taken => act_covered_iff inv action taken⟩

/-- The state after `afl_state_init`. -/
def startState (mapSize : ℕ) : StartState where
  phase := .options
  mapSize := mapSize
  buffers := fun name => ckAlloc name.cellSize mapSize
  candidates := none

/-- The state of an instrumented target before its fork server is started. -/
theorem mapCovered_native :
    MapCovered { startState 65536 with phase := .servers } ∧
      StepFits ⟨false, false, fun _ => 1⟩ { startState 65536 with phase := .servers }
        (.measure 131072) := by
  have start : Reachable (startSystem ⟨false, false, fun _ => 1⟩) (startState 65536) :=
    .init ⟨rfl, rfl, by decide, rfl⟩
  have allocated : Reachable (startSystem ⟨false, false, fun _ => 1⟩)
      { startState 65536 with phase := .arguments } := start.step ⟨.allocate, rfl, trivial⟩
  have run : Reachable (startSystem ⟨false, false, fun _ => 1⟩)
      { startState 65536 with phase := .servers } :=
    allocated.step ⟨.setUp, rfl, fun emulated => nomatch emulated⟩
  refine ⟨(mapCovered_of_reachable ⟨false, false, fun _ => 1⟩ _ run).1, fun _ => ?_⟩
  exact ⟨by decide, fun _ found => nomatch found⟩

/-- When schedules are cycled, a larger map leaves `top_rated_candidates` short. When the
target is emulated, a smaller `AFL_MAP_SIZE` leaves stale pointers in `top_rated`. -/
theorem arrays_left_behind :
    (∃ t, (((startState 65536).act ⟨true, false, fun _ => 1⟩ .allocate).bind
        (·.act ⟨true, false, fun _ => 1⟩ .setUp)).bind
        (·.act ⟨true, false, fun _ => 1⟩ (.measure 131072)) = some t ∧ ¬ MapCovered t) ∧
      ∃ t, ((startState 64).act ⟨false, true, fun _ => 1⟩ .allocate).bind
        (·.act ⟨false, true, fun _ => 1⟩ .setUp) = some t ∧ ¬ MapCovered t := by
  constructor
  · refine ⟨_, rfl, fun covered => ?_⟩
    have room := (covered.candidates _ rfl).1
    revert room
    decide
  · refine ⟨_, rfl, fun covered => ?_⟩
    have null := covered.topRated.2 64 (by decide)
    revert null
    decide

end GreenFuzz.AflFuzz
