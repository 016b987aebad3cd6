import Mathlib.Data.List.Basic
import Mathlib.Logic.Function.Basic
import Mathlib.Logic.Function.Iterate
import Mathlib.Tactic.Common

/-!
# Guards and the coverage map of a target

A target compiled with `trace-pc-guard` has one guard for each edge of each of
its modules. When a module is loaded, `__sanitizer_cov_trace_pc_guard_init`
gives its guards the next ids of a running counter, `__afl_final_loc`, and a
guard that is passed counts at its id in the area `__afl_area_ptr`. The area is a
static array at first. `__afl_map_shm` replaces it by the segment of the fuzzer,
or, in a target that runs by itself, by allocated memory once the ids outgrow
the static array. After each module the counter is compared with
`__afl_map_size` to see whether the mapping has to be redone.

The model follows the start-up of such a target: `AFL_MAP_SIZE`, the segment of the
fuzzer and four switches are the environment, memory is never short, and a call
that ends the process has no result. A module that is loaded after the fork server
is up ends it, unless `AFL_IGNORE_PROBLEMS` is set: then it gets the ids from 5 on
once more, or none. With `AFL_DISABLE_LLVM_INSTRUMENTATION` nothing is ever mapped,
and with `AFL_DUMP_MAP_SIZE` the process ends where it would be; until then the ids
are handed out all the same. Targets that were compiled with a fixed map address or
for selective coverage (`__AFL_COVERAGE`) are left out.
-/

set_option autoImplicit false

namespace GreenFuzz.CompilerRt

/-- `2^32`, where a `u32` wraps. -/
def u32Size : ℕ := 0x100000000

def MAP_SIZE : ℕ := 65536

/-- The size of the static array, `2 << 20`. -/
def MAP_INITIAL_SIZE : ℕ := 2097152

/-- The memory a pointer to a coverage area points to. -/
inductive Area where
  /-- `__afl_area_initial`. -/
  | initial
  /-- From `malloc`. -/
  | heap (size : ℕ)
  /-- The segment of the fuzzer. -/
  | segment (size : ℕ)
  deriving DecidableEq

/-- The bytes of an area. -/
def Area.size : Area → ℕ
  | .initial => MAP_INITIAL_SIZE
  | .heap size => size
  | .segment size => size

/-- The environment of the target. -/
structure Env where
  /-- The size of the segment named by `__AFL_SHM_ID`, when it is set. -/
  shm : Option ℕ := none
  /-- `AFL_MAP_SIZE`, a `u32`. -/
  aflMapSize : Option (Fin u32Size) := none
  /-- `AFL_DISABLE_LLVM_INSTRUMENTATION`, `AFL_DUMP_MAP_SIZE`, `AFL_IGNORE_PROBLEMS` and
  `AFL_IGNORE_PROBLEMS_COVERAGE` are set. -/
  disableInstrumentation : Bool := false
  dumpMapSize : Bool := false
  ignoreProblems : Bool := false
  ignoreProblemsCoverage : Bool := false

/-- `val`: the value of `AFL_MAP_SIZE`, zero when it is not set. -/
def Env.val (env : Env) : ℕ := (env.aflMapSize.map Fin.val).getD 0

/-- The variables of the runtime, and the guards of the modules. -/
structure Runtime where
  /-- `__afl_area_ptr` and `__afl_area_ptr_dummy`. -/
  areaPtr : Area
  areaPtrDummy : Area
  finalLoc : ℕ
  mapSize : ℕ
  firstFinalLoc : ℕ
  /-- `__afl_already_initialized_second`, `_early`, `_shm` and `_forkserver`. -/
  initializedSecond : Bool
  initializedEarly : Bool
  initializedShm : Bool
  initializedForkserver : Bool
  /-- The static `offset` of modules that are loaded late. -/
  offset : ℕ
  guards : ℕ → List ℕ

/-- Before any module is loaded. The modules have these numbers of guards. -/
def Runtime.init (counts : ℕ → ℕ) : Runtime where
  areaPtr := .initial
  areaPtrDummy := .initial
  finalLoc := 0
  mapSize := MAP_SIZE
  firstFinalLoc := 0
  initializedSecond := false
  initializedEarly := false
  initializedShm := false
  initializedForkserver := false
  offset := 5
  guards i := List.replicate (counts i) 0

/-- `__afl_final_loc + 1`. -/
def nextLoc (loc : ℕ) : ℕ := (loc + 1) % u32Size

/-- The map size of a target that runs by itself: a larger `AFL_MAP_SIZE` is taken over,
and the counter with it. -/
def Runtime.standaloneSize (s : Runtime) (env : Env) : Runtime :=
  let mapSize :=
    if MAP_INITIAL_SIZE < env.val ∧ s.finalLoc < env.val then env.val
    else if MAP_INITIAL_SIZE < s.firstFinalLoc then s.firstFinalLoc else MAP_INITIAL_SIZE
  { s with
    mapSize
    finalLoc := if MAP_INITIAL_SIZE < mapSize ∧ s.finalLoc < mapSize then mapSize else s.finalLoc }

/-- The area of a target that runs by itself. -/
def Runtime.standaloneArea (s : Runtime) : Runtime :=
  if MAP_INITIAL_SIZE < s.finalLoc ∧ s.firstFinalLoc < s.finalLoc then
    { s with
      mapSize := nextLoc s.finalLoc
      areaPtrDummy := .heap (nextLoc s.finalLoc)
      areaPtr := .heap (nextLoc s.finalLoc) }
  else s

/-- `__afl_map_shm`. Under the fuzzer a map beyond the default needs `AFL_MAP_SIZE`. -/
def mapShm (env : Env) (s : Runtime) : Option Runtime :=
  if s.initializedShm then some s
  else if env.dumpMapSize then none
  else
    let sized :=
      { s with
        initializedShm := true
        mapSize := if s.finalLoc ≠ 0 then nextLoc s.finalLoc else s.mapSize }
    match env.shm with
    | none => some (sized.standaloneSize env).standaloneArea
    | some size =>
        -- The value is compared as a signed number here.
        if MAP_SIZE < sized.mapSize ∧ (env.val < MAP_SIZE ∨ u32Size / 2 ≤ env.val) then none
        else some { sized with areaPtr := .segment size }

/-- `__afl_unmap_shm`. -/
def unmapShm (s : Runtime) : Runtime :=
  if s.initializedShm then { s with areaPtr := s.areaPtrDummy, initializedShm := false } else s

/-- `__afl_auto_second`. -/
def autoSecond (env : Env) (s : Runtime) : Runtime :=
  if s.initializedSecond then s
  else if env.disableInstrumentation then { s with initializedSecond := true }
  else if MAP_INITIAL_SIZE < s.finalLoc then
    { s with
      initializedSecond := true
      firstFinalLoc := nextLoc s.finalLoc
      areaPtr := .heap (nextLoc s.finalLoc)
      areaPtrDummy := .heap (nextLoc s.finalLoc) }
  else { s with initializedSecond := true }

/-- `__afl_auto_early`. -/
def autoEarly (env : Env) (s : Runtime) : Option Runtime :=
  if s.initializedEarly then some s
  else if env.disableInstrumentation then some { s with initializedEarly := true }
  else mapShm env { s with initializedEarly := true }

/-- The constructors that every call makes sure have run. -/
def startUp (env : Env) (s : Runtime) : Option Runtime :=
  if env.dumpMapSize then some s else autoEarly env (autoSecond env s)

/-- The first five entries are skipped. -/
def firstLoc (loc : ℕ) : ℕ := if loc < 4 then 4 else loc

/-- The guards of a module get the next ids. -/
def Runtime.assign (s : Runtime) (i : ℕ) : Runtime :=
  { s with
    finalLoc := (firstLoc s.finalLoc + (s.guards i).length) % u32Size
    guards := Function.update s.guards i
      ((List.range (s.guards i).length).map fun k => (firstLoc s.finalLoc + 1 + k) % u32Size) }

/-- The mapping is redone when the ids have outgrown the map size. -/
def remap (env : Env) (s : Runtime) : Option Runtime :=
  if s.initializedShm then
    (if s.mapSize < s.finalLoc then mapShm env (unmapShm s) else some s).map fun mapped =>
      { mapped with mapSize := nextLoc mapped.finalLoc }
  else some s

/-- `if (unlikely(++offset >= __afl_final_loc)) { offset = 5; }`. -/
def nextOffset (finalLoc offset : ℕ) : ℕ :=
  if finalLoc ≤ nextLoc offset then 5 else nextLoc offset

/-- The guards of a module that is loaded after the fork server: they share the ids of others,
or all count at 0. -/
def Runtime.assignLate (s : Runtime) (env : Env) (i : ℕ) : Runtime :=
  { s with
    offset := (nextOffset s.finalLoc)^[(s.guards i).length] s.offset
    guards := Function.update s.guards i ((List.range (s.guards i).length).map fun k =>
      if env.ignoreProblemsCoverage then 0 else (nextOffset s.finalLoc)^[k] s.offset) }

/-- `__sanitizer_cov_trace_pc_guard_init` for the guards of module `i`. A first guard that
is set shows that the module was there before. -/
def guardInit (env : Env) (s : Runtime) (i : ℕ) : Option Runtime :=
  (startUp env s).bind fun ready =>
    if (ready.guards i).headD 1 ≠ 0 then some ready
    else if ready.initializedForkserver then
      if env.ignoreProblems then some (ready.assignLate env i) else none
    else remap env (ready.assign i)

/-- What happens to a target, with the modules whose guards were initialised: the constructors
run, also between the modules; modules are loaded; the fork server is started; and afterwards
the area may be given up for the dummy, at the end of `__afl_persistent_loop` or for
`AFL_LLVM_ONLY_FSRV`. -/
inductive LoadStep (env : Env) : Runtime × List ℕ → Runtime × List ℕ → Prop where
  | autoSecond {s : Runtime} {called : List ℕ} :
      LoadStep env (s, called) (autoSecond env s, called)
  | autoEarly {s t : Runtime} {called : List ℕ} (second : s.initializedSecond = true)
      (done : autoEarly env s = some t) : LoadStep env (s, called) (t, called)
  | load {s t : Runtime} {called : List ℕ} (i : ℕ) (done : guardInit env s i = some t) :
      LoadStep env (s, called) (t, i :: called)
  | forkserver {s : Runtime} {called : List ℕ} (enabled : env.disableInstrumentation = false) :
      LoadStep env (s, called) ({ s with initializedForkserver := true }, called)
  | pivot {s : Runtime} {called : List ℕ} (up : s.initializedForkserver = true) :
      LoadStep env (s, called) ({ s with areaPtr := s.areaPtrDummy }, called)

end GreenFuzz.CompilerRt
