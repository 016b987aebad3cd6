import GreenFuzz.AflFuzz.State
import GreenFuzz.Library.LinkedNodes

/-!
# Colorization

`colorization` replaces as much of an input as it can without changing the trace of the
target. It keeps a list of ranges that still have to be tried. The biggest one is replaced; if
the trace changed, its bytes are put back and the range is split in two halves, otherwise the
range is accepted. When nothing is left to be tried, or after two executions for each byte,
the accepted ranges are merged into the list of taints, lowest first.

Both lists are doubly linked, and an operation on them that follows a link to a node that is
not allocated is a fault. The loops take an amount of fuel, and using it up is a fault.
-/

set_option autoImplicit false

namespace GreenFuzz.Redqueen

open Library AflFuzz

/-- The values 0, 1 and 2 of the field `ok` of a range. -/
inductive RangeOk where
  | untried | accepted | merged
  deriving DecidableEq, Repr

/-- `struct range`, without its links. The source calls the last position `end`. -/
structure Range where
  start : ℕ
  stop : ℕ
  ok : RangeOk

/-- `1 + r->end - r->start`. -/
def Range.size (r : Range) : ℕ := u32Sub (u32 (1 + r.stop)) r.start

/-- `struct tainted`, without its links. -/
structure Tainted where
  pos : ℕ
  len : ℕ

/-- What the executions of the target come to, with their numbers. -/
structure Target where
  /-- The checksum of the trace of an input. -/
  cksum : Buffer → ℕ
  /-- `common_fuzz_stuff` returned 1. -/
  fails : ℕ → Bool
  /-- The execution took more than three times as long as the one of the queue entry. -/
  slow : ℕ → Bool
  fixedSeed : Bool

/-- The fields of the state that decide whether a colorization is of use. -/
structure ColorizeStats where
  colorizeSuccess : ℕ
  cmplogLvl : ℕ
  activeItems : ℕ

def CMPLOG_CORPUS_PERCENT : ℕ := 5

def CMPLOG_POSITIONS_MAX : ℕ := 12 * 1024

/-- `memcpy(buf + start, other + start, size)`. -/
def copyPart (buf other : Buffer) (start size : ℕ) : Buffer :=
  fun i => if start ≤ i ∧ i < start + size then other i else buf i

/-! ## The ranges that have to be tried -/

/-- The variables of the first loop. -/
structure Colorizing where
  heap : Heap Range
  fresh : ℕ
  ranges : Option ℕ
  buf : Buffer
  stageCur : ℕ

def Colorizing.addRange (s : Colorizing) (start stop : ℕ) : Except Halt Colorizing := do
  let heap ← Heap.push s.heap s.fresh ⟨start, stop, .untried⟩ s.ranges .unset
  return { s with heap := heap, fresh := s.fresh + 1, ranges := some s.fresh }

/-- A range that was not accepted and is at least as big as the ones before it. -/
def biggerRange (id : ℕ) (r : Range) (rmax : Option ℕ × ℕ) : ForInStep (Option ℕ × ℕ) :=
  .yield (if r.ok = .untried ∧ rmax.2 ≤ r.size then (some id, r.size) else rmax)

def popBiggestRange (fuel : ℕ) (s : Colorizing) : Except Halt (Option ℕ) := do
  let rmax ← s.heap.walk biggerRange fuel s.ranges (none, 0)
  return rmax.1

/-- The halves of a range that was rejected, unless it is one byte. -/
def Colorizing.splitRange (s : Colorizing) (r : Range) : Except Halt Colorizing :=
  if 1 < r.size then do
    let s ← s.addRange r.start (u32 (u32Pred r.start + r.size / 2))
    s.addRange (u32 (r.start + r.size / 2)) r.stop
  else pure s

/-- Take a range out of the list and free it. -/
def Colorizing.dropRange (s : Colorizing) (id : ℕ) : Except Halt Colorizing := do
  let rng ← s.heap.deref id
  if s.ranges = some id then
    match rng.next with
    | none => return { s with heap := s.heap.free id, ranges := none }
    | some next => do
        let heap ← s.heap.modify next fun node => { node with prev := .null }
        return { s with heap := heap.free id, ranges := some next }
  else do
    let heap ← s.heap.unlink id
    return { s with heap := heap.free id }

def Colorizing.acceptRange (s : Colorizing) (id : ℕ) : Except Halt Colorizing := do
  let heap ← s.heap.modify id fun node => { node with item := { node.item with ok := .accepted } }
  return { s with heap := heap }

/-- Discard a replacement that changed the trace or took too long, or accept the range. -/
def judgeRange (T : Target) (backup : Buffer) (execCksum id : ℕ) (r : Range) (s : Colorizing) :
    Except Halt Colorizing :=
  if T.cksum s.buf ≠ execCksum ∨ (T.slow (s.stageCur + 1) ∧ T.fixedSeed = false) then do
    let s ← { s with buf := copyPart s.buf backup r.start r.size }.splitRange r
    s.dropRange id
  else s.acceptRange id

/-- Replace a range and execute. The first component says whether the execution failed. -/
def tryRange (T : Target) (backup changed : Buffer) (execCksum id : ℕ) (s : Colorizing) :
    Except Halt (Bool × Colorizing) := do
  let rng ← s.heap.deref id
  let s := { s with buf := copyPart s.buf changed rng.item.start rng.item.size }
  if T.fails (s.stageCur + 1) then return (true, s)
  let s ← judgeRange T backup execCksum id rng.item s
  return (false, { s with stageCur := s.stageCur + 1 })

/-- The first loop. -/
def tryRanges (fuel : ℕ) (T : Target) (backup changed : Buffer) (execCksum stageMax : ℕ) :
    ℕ → Colorizing → Except Halt (Bool × Colorizing)
  | 0, _ => .error .fault
  | rounds + 1, s => do
      match ← popBiggestRange fuel s with
      | none => return (false, s)
      | some id =>
          if s.stageCur < stageMax then do
            let (failed, s) ← tryRange T backup changed execCksum id s
            if failed then return (true, s)
            else tryRanges fuel T backup changed execCksum stageMax rounds s
          else return (false, s)

/-! ## The taints -/

/-- The variables of the second loop. -/
structure Merging where
  ranges : Heap Range
  taints : Heap Tainted
  fresh : ℕ
  taint : Option ℕ
  positions : ℕ

/-- The variables of a scan of the ranges, and whether it was left at a range that
continues the current taint. -/
structure Scan where
  continues : Bool
  found : Option ℕ
  pos : ℕ

/-- Look for an accepted range that continues the current taint, else for the lowest one. -/
def scanRange (taintEnd : Option ℕ) (id : ℕ) (r : Range) (scan : Scan) : ForInStep Scan :=
  if r.ok = .accepted ∧ r.start < scan.pos then
    if taintEnd = some r.start then .done { scan with continues := true, found := some id }
    else .yield { scan with found := some id, pos := r.start }
  else .yield scan

namespace Merging

/-- `taint->pos + taint->len`. -/
def taintEnd (m : Merging) : Except Halt (Option ℕ) :=
  match m.taint with
  | none => pure none
  | some taint => do
      let t ← m.taints.deref taint
      return some (u32 (t.item.pos + t.item.len))

/-- `rng->ok = 2`. -/
def markMerged (m : Merging) (id : ℕ) : Except Halt Merging := do
  let ranges ← m.ranges.modify id fun node => { node with item := { node.item with ok := .merged } }
  return { m with ranges := ranges }

/-- The current taint gets longer by a range. -/
def extendTaint (m : Merging) (id : ℕ) : Except Halt Merging := do
  match m.taint with
  | none => .error .fault
  | some taint => do
      let rng ← m.ranges.deref id
      let taints ← m.taints.modify taint fun node =>
        { node with item := { node.item with len := u32 (node.item.len + rng.item.size) } }
      { m with taints := taints, positions := u32 (m.positions + rng.item.size) }.markMerged id

/-- A range becomes the current taint. -/
def addTaint (m : Merging) (id : ℕ) : Except Halt Merging := do
  let rng ← m.ranges.deref id
  let taints ← m.taints.push m.fresh ⟨rng.item.start, rng.item.size⟩ m.taint .null
  { m with
    taints := taints
    fresh := m.fresh + 1
    taint := some m.fresh
    positions := u32 (m.positions + rng.item.size) }.markMerged id

/-- What is done with the range that a scan found. -/
def mergeRange (m : Merging) (continues : Bool) (id : ℕ) : Except Halt Merging :=
  if continues then m.extendTaint id else m.addTaint id

end Merging

/-- The second loop. The source starts a scan by going round or by a jump. -/
def mergeRanges (fuel : ℕ) (ranges : Option ℕ) : ℕ → Merging → Except Halt Merging
  | 0, _ => .error .fault
  | rounds + 1, m => do
      let taintEnd ← m.taintEnd
      let scan ← m.ranges.walk (scanRange taintEnd) fuel ranges ⟨false, none, 2 ^ 32 - 1⟩
      match scan.found with
      | none => return m
      | some id => do
          let m ← m.mergeRange scan.continues id
          mergeRanges fuel ranges rounds m

/-! ## The function -/

/-- Nearly the whole input is tainted, and few entries could be colorized. -/
def ColorizeStats.unsatisfactory (afl : ColorizeStats) (len positions : ℕ) : Bool :=
  afl.colorizeSuccess ≠ 0 && afl.cmplogLvl < 3 &&
    (CMPLOG_POSITIONS_MAX < positions && len / positions = 1 &&
      CMPLOG_CORPUS_PERCENT < afl.activeItems / afl.colorizeSuccess)

/-- What `colorization` leaves behind. -/
structure Colorized where
  ret : ℕ
  buf : Buffer
  heap : Heap Tainted
  taints : Option ℕ
  afl : ColorizeStats

/-- The end of the function, where the taints are handed over or freed. -/
def finishTaints (fuel : ℕ) (afl : ColorizeStats) (len : ℕ) (buf : Buffer) (m : Merging) :
    Except Halt Colorized :=
  if m.taint = none then pure ⟨0, buf, m.taints, none, afl⟩
  else if afl.unsatisfactory len m.positions then do
    let heap ← Heap.freeAll fuel m.taints m.taint
    return ⟨0, buf, heap, none, afl⟩
  else
    pure ⟨0, buf, m.taints, m.taint, { afl with colorizeSuccess := u32 (afl.colorizeSuccess + 1) }⟩

/-- `colorization`, where `changed` is what `random_replace` or `type_replace` makes of the
input, and `*taints` is null at the call. -/
def colorization (fuel : ℕ) (T : Target) (afl : ColorizeStats) (changed buf : Buffer) (len : ℕ) :
    Except Halt Colorized := do
  let s ← Colorizing.addRange ⟨fun _ => none, 0, none, buf, 0⟩ 0 (u32Pred len)
  if T.fails 0 then
    let _ ← Heap.freeAll fuel s.heap s.ranges
    return ⟨1, buf, fun _ => none, none, afl⟩
  let (failed, s) ← tryRanges fuel T buf changed (T.cksum buf) (u32 (len <<< 1)) fuel s
  if failed then
    let _ ← Heap.freeAll fuel s.heap s.ranges
    return ⟨1, s.buf, fun _ => none, none, afl⟩
  let _ ← s.heap.walk (fun _ _ => ForInStep.yield) fuel s.ranges ()
  let m ← mergeRanges fuel s.ranges fuel ⟨s.heap, fun _ => none, 0, none, 0⟩
  let _ ← Heap.freeAll fuel m.ranges s.ranges
  finishTaints fuel afl len s.buf m

end GreenFuzz.Redqueen
