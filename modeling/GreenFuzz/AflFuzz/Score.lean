import GreenFuzz.AflFuzz.Coverage
import GreenFuzz.AflFuzz.Run

/-!
# Rating the entries of each map index

The favored-entry machinery of `afl-fuzz-queue.c`. `top_rated[i]` is the best
entry that hits map index `i`; `update_bitmap_score` lets an entry contend for the
indices of the trace in `trace_bits`, `update_bitmap_rescore` for one index, and
`cull_queue` marks a set of owners as favored. An owner keeps a minimised trace
(`trace_mini`) while it owns a slot.

The two update functions share the comparison and the insertion; `contend` is
that shared block. They differ in the length they allocate for `trace_mini`.
-/

set_option autoImplicit false

namespace GreenFuzz.AflFuzz

open Library

/-! ## The fav factor -/

/-- `next_pow2` on a 64-bit `size_t`. -/
def nextPow2 (n : ℕ) : ℕ :=
  let out := BitVec.ofNat 64 n - 1
  let out := out ||| out >>> 1
  let out := out ||| out >>> 2
  let out := out ||| out >>> 4
  let out := out ||| out >>> 8
  let out := out ||| out >>> 16
  (out + 1).toNat

/-- The local `eMin` of `energy_bonus`. -/
def energyMin (afl : AflState) : ℕ := u64 (afl.minCpuEnergy + afl.minMemEnergy)

/-- The local `eMax` of `energy_bonus`. -/
def energyMax (afl : AflState) : ℕ := u64 (afl.maxCpuEnergy + afl.maxMemEnergy)

/-- The normalised energy of `energy_bonus`, before it is clamped. -/
def energyNorm (libm : Libm) (afl : AflState) (e : ℕ) : ℚ :=
  let num := libm.log1p (if energyMin afl < e then e - energyMin afl else 0)
  let den := libm.log1p (energyMax afl - energyMin afl)
  num / den

/-- `energy_bonus`. -/
def energyBonus (libm : Libm) (afl : AflState) (e : ℕ) : ℚ :=
  if e = 0 ∨ energyMax afl ≤ energyMin afl then 1
  else
    let norm := energyNorm libm afl e
    let norm := if norm < 0 then 0 else norm
    let norm := if 1 < norm then 1 else norm
    let bonus := 1 + 0.25 * (0.5 - norm)
    let bonus := if bonus < 0.8 then 0.8 else bonus
    if 1.25 < bonus then 1.25 else bonus

/-- The local `fuzz_p2` of the update functions. -/
def fuzzP2 (afl : AflState) (q : QueueEntry) : ℕ :=
  if Schedule.fast ≤ afl.schedule ∧ afl.schedule < .rare then 0
  else if afl.schedule = .rare then nextPow2 (afl.nFuzz q.nFuzzEntry)
  else q.fuzzLevel

/-- The local `fav_factor` of the update functions. -/
def favFactor (libm : Libm) (afl : AflState) (q : QueueEntry) : ℕ :=
  let factor :=
    if Schedule.rare ≤ afl.schedule ∨ afl.fixedSeed then u32 (q.len <<< 2)
    else u64 (q.execUs * q.len)
  if q.cpuEnergyCost ≠ 0 ∨ q.memEnergyCost ≠ 0 then
    truncate 64 (factor / energyBonus libm afl (u64 (q.cpuEnergyCost + q.memEnergyCost)))
  else factor

/-! ## Slots -/

/-- `if (!--top->tc_ref) { ck_free(top->trace_mini); top->trace_mini = NULL; }`. -/
def releaseWinner (afl : AflState) (top : ℕ) : AflState :=
  afl.modifyEntry top fun q => { q with
    tcRef := u32Pred q.tcRef
    traceMini := if u32Pred q.tcRef = 0 then none else q.traceMini }

/-- A new winner has one more reference, and the fresh `trace_mini` if it had
none. -/
def QueueEntry.won (q : QueueEntry) (fresh : TraceMini) : QueueEntry :=
  { q with
    tcRef := u32 (q.tcRef + 1)
    traceMini := some (q.traceMini.getD fresh) }

/-- Insert `q` as the new winner of index `i`, with a `trace_mini` of `len` bytes
taken from `trace_bits` if it has none. -/
def insertWinner (afl : AflState) (q i len : ℕ) : AflState :=
  { afl.modifyEntry q fun e => e.won ⟨len, minimizeBits afl.mapSize afl.traceBits⟩ with
    topRated := Function.update afl.topRated i (some q)
    scoreChanged := true }

/-- Let `q`, whose factors are known, contend for index `i`. -/
def contend (libm : Libm) (afl : AflState) (q p2 factor len i : ℕ) : AflState :=
  match afl.topRated i with
  | none => insertWinner afl q i len
  | some top =>
      if fuzzP2 afl (afl.queueBuf top) < p2 then afl
      else if favFactor libm afl (afl.queueBuf top) < factor then afl
      else insertWinner (releaseWinner afl top) q i len

/-- `update_bitmap_score`. -/
def updateBitmapScore (libm : Libm) (afl : AflState) (q : ℕ) (haveTrace : Bool) : AflState :=
  if (afl.queueBuf q).disabled then afl
  else
    let p2 := fuzzP2 afl (afl.queueBuf q)
    let factor := favFactor libm afl (afl.queueBuf q)
    if haveTrace then
      (List.range afl.mapSize).foldl
        (fun afl i =>
          if afl.traceBits i ≠ 0 then contend libm afl q p2 factor ((afl.mapSize + 7) / 8) i
          else afl)
        afl
    else afl

/-- `update_bitmap_rescore`. -/
def updateBitmapRescore (libm : Libm) (afl : AflState) (q index : ℕ) : AflState :=
  if (afl.queueBuf q).disabled then afl
  else
    contend libm afl q (fuzzP2 afl (afl.queueBuf q)) (favFactor libm afl (afl.queueBuf q))
      (afl.mapSize / 8) index

/-! ## Culling the queue -/

/-- `mark_as_redundant`. -/
def markAsRedundant (afl : AflState) (q : ℕ) (state : Bool) : AflState :=
  if state = (afl.queueBuf q).fsRedundant then afl
  else
    afl.modifyEntry q fun e => { e with
      fsRedundant := state
      traceMini := if state then none else e.traceMini
      disabled := if state ∧ afl.aflDisableRedundant then true else e.disabled }

/-- The block of `cull_queue` that marks an owner as favored. -/
def markFavored (afl : AflState) (top : ℕ) : AflState :=
  let entry := afl.queueBuf top
  if !entry.favored && !entry.disabled then
    let afl := afl.modifyEntry top fun e => { e with favored := true }
    let afl := { afl with queuedFavored := u32 (afl.queuedFavored + 1) }
    if !entry.wasFuzzed then
      { afl with
        pendingFavored := u32 (afl.pendingFavored + 1)
        smallestFavored :=
          if afl.smallestFavored = -1 ∨ afl.smallestFavored > entry.id then entry.id
          else afl.smallestFavored }
    else afl
  else afl

/-- One round of the main loop of `cull_queue`. -/
def cullIndex (afl : AflState) (i : ℕ) : AflState :=
  match afl.topRated i with
  | none => afl
  | some top =>
      if bitSet afl.mapTmpBuf i then
        match (afl.queueBuf top).traceMini with
        | none => afl
        | some mini =>
            markFavored
              { afl with mapTmpBuf := removeBits (afl.mapSize / 8) afl.mapTmpBuf mini.bytes } top
      else afl

/-- The start of `cull_queue`: everything is unfavored and unseen. -/
def cullReset (afl : AflState) : AflState :=
  { afl with
    scoreChanged := false
    mapTmpBuf := fun j => if j < afl.mapSize / 8 then 255 else afl.mapTmpBuf j
    queuedFavored := 0
    pendingFavored := 0
    smallestFavored := -1
    queueBuf := fun q =>
      if q < afl.queuedItems then { afl.queueBuf q with favored := false } else afl.queueBuf q }

/-- `cull_queue` returns at once when no score has changed. -/
def cullReturnsEarly (afl : AflState) : Bool := !afl.scoreChanged || afl.nonInstrumentedMode

/-- One round of the last loop of `cull_queue`. -/
def cullMark (afl : AflState) (q : ℕ) : AflState :=
  if !(afl.queueBuf q).disabled then markAsRedundant afl q !(afl.queueBuf q).favored else afl

/-- `cull_queue`. -/
def cullQueue (afl : AflState) : AflState :=
  if cullReturnsEarly afl then afl
  else
    let afl := (List.range afl.mapSize).foldl cullIndex (cullReset afl)
    let afl := (List.range afl.queuedItems).foldl cullMark afl
    { afl with reinitTable := true }

/-! ## Growing the queue -/

/-- `add_to_queue`. -/
def addToQueue (afl : AflState) (len : ℕ) (passedDet : Bool) : AflState :=
  let entry : QueueEntry :=
    { len := len
      id := afl.queuedItems
      depth := u32 (afl.curDepth + 1)
      passedDet := passedDet
      mother := afl.queueCur
      weight := 1
      perfScore := 100 }
  { afl with
    maxDepth := if afl.maxDepth < entry.depth then entry.depth else afl.maxDepth
    queueTop := some afl.queuedItems
    readyForSplicingCount :=
      if 4 < len then afl.readyForSplicingCount + 1 else afl.readyForSplicingCount
    queuedItems := afl.queuedItems + 1
    activeItems := afl.activeItems + 1
    pendingNotFuzzed := afl.pendingNotFuzzed + 1
    queueBuf := Function.update afl.queueBuf afl.queuedItems entry }

/-! ## Rescoring the whole queue -/

/-- Append entry `id` to the candidates of every index of the current trace. -/
def enrollCandidate (afl : AflState) (id : ℕ) : AflState :=
  { afl with
    topRatedCandidates := fun j =>
      if j < afl.mapSize ∧ afl.traceBits j ≠ 0 then afl.topRatedCandidates j ++ [id]
      else afl.topRatedCandidates j }

/-- One round of the first loop of `recalculate_all_scores`: execute an enabled
entry. -/
def collectCandidate (runs : ℕ → RunOutcome) (afl : AflState) (i : ℕ) : AflState :=
  let afl :=
    if (afl.queueBuf i).disabled then afl
    else enrollCandidate (fuzzRunTarget afl (runs i)) (afl.queueBuf i).id
  { afl with lastScoredIdx := i }

/-- The first loop of `recalculate_all_scores`, over the entries that were not
executed by an earlier call. -/
def collectCandidates (runs : ℕ → RunOutcome) (afl : AflState) : AflState :=
  let first := (afl.lastScoredIdx + 1).toNat
  (List.range' first (afl.queuedItems - first)).foldl (collectCandidate runs) afl

/-- The calls of the second loop of `recalculate_all_scores`, as pairs of a map
index and a queue id. -/
def rescoreCalls (afl : AflState) : List (ℕ × ℕ) :=
  (List.range afl.mapSize).flatMap fun i => (afl.topRatedCandidates i).map fun id => (i, id)

/-- `recalculate_all_scores`, where `runs q` is what the target does on entry `q`. -/
def recalculateAllScores (libm : Libm) (runs : ℕ → RunOutcome) (afl : AflState) : AflState :=
  let afl := collectCandidates runs afl
  (rescoreCalls afl).foldl (fun afl call => updateBitmapRescore libm afl call.2 call.1) afl

end GreenFuzz.AflFuzz
