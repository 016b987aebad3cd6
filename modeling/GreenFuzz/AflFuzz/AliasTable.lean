import GreenFuzz.AflFuzz.CalculateScore
import GreenFuzz.Library.Runs

/-!
# The alias table

`create_alias_table` and `select_next_queue_entry` of `afl-fuzz-queue.c`. The weights come
first: a product of factors for the schedules below `RARE`, and the performance score for the
others. Then the table is built from two arrays of indices that serve as stacks: `Small` grows
from its low end, `Large` from its high end downwards.

The random slot and the random number of the selection are its arguments. A loop `while` is
`whileLoop`, which gets a number of rounds that is never used up.
-/

set_option autoImplicit false

namespace GreenFuzz.AflFuzz

open Library

/-! ## Weights -/

/-- The averages over the enabled entries. -/
structure Averages where
  execUs : ℚ
  bitmapSize : ℚ
  len : ℚ

def averages (libm : Libm) (afl : AflState) : Averages :=
  let enabled := enabledEntries afl
  { execUs := (enabled.map fun i => ((afl.queueBuf i).execUs : ℚ)).sum / enabled.length
    bitmapSize := (enabled.map fun i => libm.log (afl.queueBuf i).bitmapSize).sum / enabled.length
    len := (enabled.map fun i => ((afl.queueBuf i).len : ℚ)).sum / enabled.length }

/-- The factor by execution time. The quotient by an average of zero is infinite or not a
number, and all comparisons with it from below fail. -/
def timeFactor (execUs avg : ℚ) : ℚ :=
  let t := execUs / avg
  if avg = 0 then 1
  else if t < 0.1 then 1
  else if t ≤ 0.25 then 0.95
  else if t ≤ 0.5 then 1
  else if t ≤ 0.75 then 1.05
  else if t ≤ 1 then 1.1
  else if t < 1.25 then 0.2
  else if t ≤ 1.5 then 1
  else if t ≤ 2 then 1.1
  else if t ≤ 2.5 then 1
  else if t ≤ 5 then 1.15
  else if t ≤ 20 then 1.1
  else 1

/-- The factor by length. -/
def lenFactor (len avg : ℚ) : ℚ :=
  let l := len / avg
  if avg = 0 then 1.15
  else if l < 0.1 then 0.5
  else if l ≤ 0.5 then 1
  else if l ≤ 1.25 then 1.05
  else if l ≤ 1.75 then 1
  else if l ≤ 2 then 0.95
  else if l ≤ 5 then 1
  else if l ≤ 10 then 1.05
  else 1.15

/-- The factor by the size of the bitmap. -/
def bitmapFactor (bitmapSize avg : ℚ) : ℚ :=
  let bms := bitmapSize / avg
  if avg = 0 then 0.75
  else if bms < 0.1 then 0.01
  else if bms ≤ 0.25 then 0.55
  else if bms ≤ 0.5 then 1
  else if bms ≤ 0.75 then 1.2
  else if bms ≤ 1.25 then 1.3
  else if bms ≤ 1.75 then 1.25
  else if bms ≤ 2 then 1
  else if bms ≤ 2.5 then 1.3
  else 0.75

/-- The weight of an enabled entry. -/
def computeWeight (libm : Libm) (afl : AflState) (avg : Averages) (q : QueueEntry) : ℚ :=
  let hits := afl.nFuzz q.nFuzzEntry
  let weight : ℚ :=
    if Schedule.fast ≤ afl.schedule ∧ afl.schedule ≤ .rare ∧ hits ≠ 0 then
      1 / (libm.log10 hits + 1)
    else 1
  let weight := if afl.schedule < .rare then weight * timeFactor q.execUs avg.execUs else weight
  let weight := weight * lenFactor q.len avg.len
  let weight := weight * bitmapFactor q.bitmapSize avg.bitmapSize
  let weight := if !q.wasFuzzed then weight * 2.5 else weight
  if q.fsRedundant then weight * 0.75 else weight

/-- Set the weight and the score of one entry, and add the weight to the sum. -/
def weighEntry (libm : Libm) (avg : Averages) (state : AflState × ℚ) (i : ℕ) :
    Except ScoreFault (AflState × ℚ) :=
  let (afl, sum) := state
  if (afl.queueBuf i).disabled then .ok (afl, sum)
  else do
    let weight := computeWeight libm afl avg (afl.queueBuf i)
    let afl := afl.modifyEntry i fun q => { q with weight }
    let (score, afl) ← calculateScore libm afl i
    let afl := afl.modifyEntry i fun q => { q with perfScore := score }
    return (afl, sum + (afl.queueBuf i).weight)

/-- Set the score of one entry, and add it to the sum. -/
def scoreEntry (libm : Libm) (state : AflState × ℚ) (i : ℕ) : Except ScoreFault (AflState × ℚ) :=
  let (afl, sum) := state
  if (afl.queueBuf i).disabled then .ok (afl, sum)
  else do
    let (score, afl) ← calculateScore libm afl i
    let afl := afl.modifyEntry i fun q => { q with perfScore := score }
    return (afl, sum + (afl.queueBuf i).perfScore)

/-- The first of the latest entries whose weight `MMOPT` doubles. It is no index of the queue
if more entries were discovered than there are. -/
def firstRecent (afl : AflState) : ℕ :=
  u32Sub afl.queuedItems (if 5 ≤ afl.queuedDiscovered then 5 else afl.queuedDiscovered)

def doubleWeight (afl : AflState) (i : ℕ) : AflState :=
  if (afl.queueBuf i).disabled then afl
  else afl.modifyEntry i fun q => { q with weight := q.weight * 2 }

/-- `MMOPT` doubles the weight of the latest entries, after the sum was taken. -/
def doubleRecent (afl : AflState) : AflState :=
  if afl.schedule = .mmopt ∧ afl.queuedDiscovered ≠ 0 then
    (List.range' (firstRecent afl) (afl.queuedItems - firstRecent afl)).foldl doubleWeight afl
  else afl

/-- The state after the weights are set, and the array `P`. -/
def collectWeights (libm : Libm) (afl : AflState) : Except ScoreFault (AflState × (ℕ → ℚ)) := do
  let n := afl.queuedItems
  if afl.schedule < .rare then
    let (afl, sum) ← (List.range n).foldlM (weighEntry libm (averages libm afl)) (afl, 0)
    let afl := doubleRecent afl
    return (afl, fun i =>
      if (afl.queueBuf i).disabled then 0 else (afl.queueBuf i).weight * n / sum)
  else
    let (afl, sum) ← (List.range n).foldlM (scoreEntry libm) (afl, 0)
    return (afl, fun i =>
      if (afl.queueBuf i).disabled then 0 else (afl.queueBuf i).perfScore * n / sum)

/-! ## The table -/

/-- The arrays and counters that the table is built with. -/
structure AliasArrays where
  P : ℕ → ℚ
  small : ℕ → ℕ := fun _ => 0
  large : ℕ → ℕ := fun _ => 0
  nSmall : ℕ := 0
  nLarge : ℕ
  aliasProbability : ℕ → ℚ
  aliasTable : ℕ → ℕ

namespace AliasArrays

/-- `Small[nSmall++] = j`. -/
def pushSmall (w : AliasArrays) (j : ℕ) : AliasArrays :=
  { w with small := Function.update w.small w.nSmall j, nSmall := u32 (w.nSmall + 1) }

/-- `Large[nLarge--] = j`. -/
def pushLarge (w : AliasArrays) (j : ℕ) : AliasArrays :=
  { w with large := Function.update w.large w.nLarge j, nLarge := u32Pred w.nLarge }

/-- Put an index on the stack it belongs to. -/
def push (w : AliasArrays) (j : ℕ) : AliasArrays :=
  if w.P j < 1 then w.pushSmall j else w.pushLarge j

/-- The loop over `s32 j`, from `(s32)(n - 1)` down to 0. It starts below 0 if `n - 1` does not
fit. -/
def partitionEntries (n : ℕ) (w : AliasArrays) : AliasArrays :=
  (List.range (if u32Pred n < 2 ^ 31 then n else 0)).reverse.foldl push w

/-- Fill the slot of the top small index with the top large index. -/
def fillSlot (w : AliasArrays) : AliasArrays :=
  let nSmall := u32Pred w.nSmall
  let nLarge := u32 (w.nLarge + 1)
  let small := w.small nSmall
  let large := w.large nLarge
  { w with
    nSmall, nLarge
    aliasProbability := Function.update w.aliasProbability small (w.P small)
    aliasTable := Function.update w.aliasTable small large
    P := Function.update w.P large (w.P large - (1 - w.P small)) }.push large

def fillSlots (n : ℕ) (w : AliasArrays) : AliasArrays :=
  whileLoop (fun w => w.nSmall ≠ 0 ∧ w.nLarge ≠ u32Pred n) fillSlot n w

/-- `afl->alias_probability[Small[--nSmall]] = 1`. -/
def certainSmall (w : AliasArrays) : AliasArrays :=
  { w with
    nSmall := u32Pred w.nSmall
    aliasProbability := Function.update w.aliasProbability (w.small (u32Pred w.nSmall)) 1 }

/-- `afl->alias_probability[Large[++nLarge]] = 1`. -/
def certainLarge (w : AliasArrays) : AliasArrays :=
  { w with
    nLarge := u32 (w.nLarge + 1)
    aliasProbability := Function.update w.aliasProbability (w.large (u32 (w.nLarge + 1))) 1 }

/-- The two left-over loops. -/
def finish (n : ℕ) (w : AliasArrays) : AliasArrays :=
  whileLoop (fun w => w.nLarge ≠ u32Pred n) certainLarge n
    (whileLoop (fun w => w.nSmall ≠ 0) certainSmall n w)

/-- The arrays before the loops. -/
def start (afl : AflState) (P : ℕ → ℚ) : AliasArrays where
  P := P
  nLarge := u32Pred afl.queuedItems
  aliasProbability := fun i => if i < afl.queuedItems then 0 else afl.aliasProbability i
  aliasTable := fun i => if i < afl.queuedItems then 0 else afl.aliasTable i

end AliasArrays

open AliasArrays in
/-- The part of `create_alias_table` after the weights are collected in `P`. -/
def buildTable (afl : AflState) (P : ℕ → ℚ) : AflState :=
  let n := afl.queuedItems
  let w := finish n (fillSlots n (partitionEntries n (start afl P)))
  { afl with
    aliasProbability := w.aliasProbability
    aliasTable := w.aliasTable
    reinitTable := false }

/-- `create_alias_table`. -/
def createAliasTable (libm : Libm) (afl : AflState) : Except ScoreFault AflState := do
  let (afl, P) ← collectWeights libm afl
  return buildTable afl P

/-- `select_next_queue_entry`, for the slot `s` and the number `p`. -/
def selectNextQueueEntry {K : Type*} [RatCast K] [LT K] [DecidableLT K] (afl : AflState) (s : ℕ)
    (p : K) : ℕ :=
  if p < (afl.aliasProbability s : K) then s else afl.aliasTable s

end GreenFuzz.AflFuzz
