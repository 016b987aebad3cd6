import GreenFuzz.AflFuzz.Score

/-!
# The performance score

`calculate_score` of `afl-fuzz-queue.c`, in the order of the source: speed, bitmap
size, handicap, depth, schedule, limits, and the energy heuristic. An integer division
by zero kills the fuzzer, so every integer division is checked and the score is
returned in `Except`. Divisions of doubles cannot trap; they are divisions of rationals.
-/

set_option autoImplicit false

namespace GreenFuzz.AflFuzz

/-- How `calculate_score` can fail: with a trap, or with `FATAL`. -/
inductive ScoreFault where
  | divisionByZero | queueStateCorrupt
  deriving DecidableEq, Repr

/-- An integer division. -/
def checkedDiv (n d : ℕ) : Except ScoreFault ℕ :=
  if d = 0 then .error .divisionByZero else .ok (n / d)

/-- `if (!n) { n = 1; }`. -/
def orOne (n : ℕ) : ℕ := if n = 0 then 1 else n

/-- The score by execution speed, compared with the average. -/
def speedScore (afl : AflState) (q : QueueEntry) (avgExecUs : ℕ) : ℕ :=
  let execUs : ℚ := q.execUs
  if afl.schedule < .rare ∧ !afl.fixedSeed then
    if execUs * 0.1 > avgExecUs then 10
    else if execUs * 0.25 > avgExecUs then 25
    else if execUs * 0.5 > avgExecUs then 50
    else if execUs * 0.75 > avgExecUs then 75
    else if u64 (q.execUs * 4) < avgExecUs then 300
    else if u64 (q.execUs * 3) < avgExecUs then 200
    else if u64 (q.execUs * 2) < avgExecUs then 150
    else 100
  else 100

/-- Adjust the score by the size of the bitmap. -/
def bitmapScore (q : QueueEntry) (avgBitmapSize perf : ℕ) : ℕ :=
  let size : ℚ := q.bitmapSize
  if size * 0.3 > avgBitmapSize then u32 (perf * 3)
  else if size * 0.5 > avgBitmapSize then u32 (perf * 2)
  else if size * 0.75 > avgBitmapSize then truncate 32 (perf * 1.5)
  else if u32 (q.bitmapSize * 3) < avgBitmapSize then truncate 32 (perf * 0.25)
  else if u32 (q.bitmapSize * 2) < avgBitmapSize then truncate 32 (perf * 0.5)
  else if size * 1.5 < avgBitmapSize then truncate 32 (perf * 0.75)
  else perf

/-- Adjust the score by the handicap of a latecomer, which is used up. -/
def handicapScore (q : QueueEntry) (perf : ℕ) : ℕ × ℕ :=
  if 4 ≤ q.handicap then (u32 (perf * 4), q.handicap - 4)
  else if q.handicap ≠ 0 then (u32 (perf * 2), q.handicap - 1)
  else (perf, q.handicap)

/-- Adjust the score by the depth. -/
def depthScore (q : QueueEntry) (perf : ℕ) : ℕ :=
  if q.depth ≤ 3 then perf
  else if q.depth ≤ 7 then u32 (perf * 2)
  else if q.depth ≤ 13 then u32 (perf * 3)
  else if q.depth ≤ 25 then u32 (perf * 4)
  else u32 (perf * 5)

/-- The entries that count for the mean of `COE`. -/
def enabledEntries (afl : AflState) : List ℕ :=
  (List.range afl.queuedItems).filter fun i => !(afl.queueBuf i).disabled

/-- The factor of the schedule `FAST`, also reached from `COE`. -/
def fastFactor (libm : Libm) (afl : AflState) (q : QueueEntry) : ℚ :=
  if q.fuzzLevel = 0 then 1
  else
    let magnitude := truncate 32 (libm.log2 (afl.nFuzz q.nFuzzEntry))
    let factor : ℚ :=
      if magnitude ≤ 1 then 4
      else if magnitude ≤ 3 then 3
      else if magnitude = 4 then 2
      else if magnitude = 5 then 1
      else if q.favored then 1
      else if magnitude = 6 then 0.8
      else if magnitude = 7 then 0.6
      else 0.4
    if q.favored then factor * 1.15 else factor

/-- The factor of the schedule `COE`. -/
def coeFactor (libm : Libm) (afl : AflState) (q : QueueEntry) : Except ScoreFault ℚ :=
  if q.fuzzLevel = 0 then .ok 1
  else
    let items := enabledEntries afl
    if items.length = 0 then .error .queueStateCorrupt
    else
      let sum : ℚ := (items.map fun i => libm.log2 (afl.nFuzz (afl.queueBuf i).nFuzzEntry)).sum
      let fuzzMu := sum / items.length
      if fuzzMu < libm.log2 (afl.nFuzz q.nFuzzEntry) then
        .ok (if !q.favored then 0 else 1)
      else .ok (fastFactor libm afl q)

/-- The factor of the schedules `LIN` and `QUAD`, whose dividends differ. -/
def hitFactor (afl : AflState) (q : QueueEntry) (dividend : ℕ) : Except ScoreFault ℚ :=
  if q.fuzzLevel = 0 then .ok 1
  else do
    let factor ← checkedDiv dividend (u32 (afl.nFuzz q.nFuzzEntry + 1))
    return factor

/-- `MAX_FACTOR`. -/
def maxFactor : ℚ := 32

/-- The switch over the schedule: the score, and the factor it is multiplied with. -/
def scheduleScore (libm : Libm) (afl : AflState) (q : QueueEntry) (perf : ℕ) :
    Except ScoreFault (ℕ × ℚ) :=
  match afl.schedule with
  | .explore | .seek => .ok (perf, 1)
  | .exploit => .ok (perf, maxFactor)
  | .coe => do return (perf, ← coeFactor libm afl q)
  | .fast => .ok (perf, fastFactor libm afl q)
  | .lin => do return (perf, ← hitFactor afl q q.fuzzLevel)
  | .quad => do return (perf, ← hitFactor afl q (u32 (q.fuzzLevel * q.fuzzLevel)))
  | .mmopt => .ok (if u64Sub afl.maxDepth q.depth < 5 then u32 (perf * 2) else perf, 1)
  | .rare =>
      let perf := u32 (perf + u32 (q.tcRef * 10))
      let share : ℚ := afl.nFuzz q.nFuzzEntry / afl.totalExecs
      .ok (truncate 32 (perf * (1 - share)), 1)

/-- Multiply with the factor of the schedules from `EXPLOIT` to `QUAD`. `POWER_BETA`
is 1. -/
def applyFactor (afl : AflState) (perf : ℕ) (factor : ℚ) : ℕ :=
  if Schedule.exploit ≤ afl.schedule ∧ afl.schedule ≤ .quad then
    truncate 32 (perf * ((if maxFactor < factor then maxFactor else factor) / 1))
  else perf

/-- The adjustment of the MOpt mode, and the lower bound. -/
def moptScore (afl : AflState) (q : QueueEntry) (perf : ℕ) : ℕ :=
  if afl.limitTimeSig ≠ 0 ∧ u64Sub afl.maxDepth q.depth < 3 then u32 (perf * 2)
  else if afl.schedule ≠ .coe ∧ perf < 1 then 1
  else perf

/-- The upper bound `havoc_max_mult * 100`. -/
def limitScore (afl : AflState) (perf : ℕ) : ℕ :=
  let limit := u32 (afl.havocMaxMult.toNat * 100)
  if limit < perf then limit else perf

/-- The line through `(low, 5)` and `(high, 0.2)`. -/
def linearMultiplier (low high cost : ℕ) : ℚ :=
  let m : ℚ := (0.2 - 5) / u64Sub high low
  let b : ℚ := 5 - m * low
  m * cost + b

/-- The energy multiplier of one resource. -/
def energyMultiplier (low high cost : ℕ) : ℚ :=
  if high = low then 1
  else
    let result := if cost = 0 then 1 else linearMultiplier low high cost
    let result := if result < 0.2 then 0.2 else result
    if 5 < result then 5 else result

/-- The energy heuristic. The two averages are computed and not used. -/
def energyScore (afl : AflState) (q : QueueEntry) (perf : ℕ) : Except ScoreFault ℕ := do
  let _ ← checkedDiv (u128 afl.totalCpuEnergy) (u128 afl.totalCalCycles)
  let _ ← checkedDiv (u128 afl.totalMemEnergy) (u128 afl.totalCalCycles)
  let cpuMultiplier := energyMultiplier afl.minCpuEnergy afl.maxCpuEnergy q.cpuEnergyCost
  let memMultiplier := energyMultiplier afl.minMemEnergy afl.maxMemEnergy q.memEnergyCost
  let perf := limitScore afl (truncate 32 (perf * cpuMultiplier * memMultiplier))
  return if afl.schedule ≠ .coe ∧ perf < 1 then 1 else perf

/-- `calculate_score`. The result is the score and the state, in which the handicap of
the entry is smaller. -/
def calculateScore (libm : Libm) (afl : AflState) (q : ℕ) : Except ScoreFault (ℕ × AflState) := do
  let avgExecUs ← checkedDiv afl.totalCalUs (orOne (u32 afl.totalCalCycles))
  let avgBitmapSize ← checkedDiv afl.totalBitmapSize (orOne (u32 afl.totalBitmapEntries))
  let entry := afl.queueBuf q
  let perf := speedScore afl entry (u32 avgExecUs)
  let perf := bitmapScore entry (u32 avgBitmapSize) perf
  let late := handicapScore entry perf
  let perf := depthScore entry late.1
  let scheduled ← scheduleScore libm afl entry perf
  let perf := applyFactor afl scheduled.1 scheduled.2
  let perf := limitScore afl (moptScore afl entry perf)
  let perf ← energyScore afl entry perf
  return (perf, afl.modifyEntry q fun e => { e with handicap := late.2 })

end GreenFuzz.AflFuzz
