import GreenFuzz.AflFuzz.State
import GreenFuzz.Library.SlotArray
import GreenFuzz.Library.Fallible
import GreenFuzz.Library.Runs

/-!
# The testcase cache

The cache of testcase buffers in `afl-fuzz-queue.c`: an array of slots, a counter of
cached entries, the highest count so far, a hint for the smallest free slot, and a
capacity that shrinks once, when the cache is first filled by size.

An access to the array outside its allocated length is the fault `outOfBounds`. The
random numbers that choose victims and the contents of freshly allocated memory are
inputs; an eviction that needs more random numbers than given is `undecided`. Of a
testcase buffer only its allocated length is kept.
-/

set_option autoImplicit false

namespace GreenFuzz.AflFuzz

open Library

/-! ## The state -/

/-- How an operation can fail: it accesses the array outside its bounds, the allocator
ends the program, or the random numbers do not suffice to choose a victim. -/
inductive CacheFault where
  | outOfBounds | aborted | undecided
  deriving DecidableEq, Repr

/-- The fields of a queue entry that the cache reads. `testcaseBuf` is the length of the
buffer, `none` a null pointer. -/
structure CacheEntry where
  len : ℕ := 0
  weight : ℚ := 1
  testcaseBuf : Option ℕ := none

/-- The cache fields of `afl_state_t`, without their prefix `q_testcase_`. -/
structure TestcaseCache where
  cache : ℕ → Option ℕ
  allocated : ℕ
  maxCacheEntries : ℕ
  maxCacheCount : ℕ := 0
  cacheCount : ℕ := 0
  smallestFree : ℕ := 0
  cacheSize : ℕ := 0
  maxCacheSize : ℕ
  evictions : ℕ := 0
  doOnce : Bool := false
  queueCur : Option ℕ := none
  entries : ℕ → CacheEntry

/-- `MAX_ALLOC`. -/
def maxAlloc : ℕ := 0x40000000

/-- The `u32` size that reaches the allocator for a request of `entries` pointers. -/
def requestBytes (entries : ℕ) : ℕ := u32 (entries * 8)

/-- The allocation of the array in `main`. The allocator returns null for no bytes, which
`main` does not accept, and aborts on too many. -/
def startCache (maxCacheEntries maxCacheSize : ℕ) (queueCur : Option ℕ)
    (entries : ℕ → CacheEntry) : Except CacheFault TestcaseCache :=
  if requestBytes maxCacheEntries = 0 ∨ maxAlloc < requestBytes maxCacheEntries then
    .error .aborted
  else
    .ok
      { cache := fun _ => none
        allocated := requestBytes maxCacheEntries / 8
        maxCacheEntries := maxCacheEntries
        maxCacheSize := maxCacheSize
        queueCur := queueCur
        entries := entries }

namespace TestcaseCache

variable (s : TestcaseCache)

/-- The entries after one of them has changed. -/
def changed (q : ℕ) (change : CacheEntry → CacheEntry) : ℕ → CacheEntry :=
  Function.update s.entries q (change (s.entries q))

/-! ## Making room -/

/-- The condition of the eviction loop. -/
def mustEvict (len : ℕ) : Bool :=
  (s.maxCacheSize ≤ u64 (s.cacheSize + len) && 1 < s.cacheCount)
    || u32Pred s.maxCacheEntries ≤ s.cacheCount

/-- The block that learns the capacity when the cache is first filled by size. The array is
reallocated with one slot more than the capacity; `fresh` is what new memory holds. -/
def learnLimit (len : ℕ) (fresh : ℕ → Option ℕ) : Except CacheFault TestcaseCache :=
  if s.maxCacheSize ≤ u64 (s.cacheSize + len) ∧ s.cacheCount < s.maxCacheEntries ∧
      s.maxCacheCount < s.maxCacheEntries ∧ !s.doOnce then
    let capacity :=
      if s.cacheCount < s.maxCacheCount then u32 (s.maxCacheCount + 1) else u32 (s.cacheCount + 1)
    let bytes := requestBytes (u32 (capacity + 1))
    if maxAlloc < bytes then .error .aborted
    else
      .ok { s with
        maxCacheEntries := capacity
        doOnce := true
        allocated := bytes / 8
        cache := fun i => if i < s.allocated then s.cache i else fresh i }
  else .ok s

/-- `rand_below`, given what the random number generator yields. -/
def randBelow (limit draw : ℕ) : ℕ := if limit ≤ 1 then 0 else draw % limit

/-- Evict the entry `old` from slot `tid`. -/
def evict (tid old : ℕ) : TestcaseCache :=
  { s with
    entries := s.changed old fun e => { e with testcaseBuf := none }
    cacheSize := u64Sub s.cacheSize (s.entries old).len
    cache := Function.update s.cache tid none
    cacheCount := u32Pred s.cacheCount
    evictions := u32 (s.evictions + 1)
    smallestFree := if tid < s.smallestFree then tid else s.smallestFree }

/-- The eviction loop from the point where a victim is drawn. A drawn slot that is empty or
holds `queue_cur` is drawn again. -/
def evictFrom (len : ℕ) (fresh : ℕ → Option ℕ) (s : TestcaseCache) :
    List ℕ → Except CacheFault (TestcaseCache × ℕ)
  | [] => .error .undecided
  | draw :: draws =>
      let tid := randBelow s.maxCacheCount draw
      if s.allocated ≤ tid then .error .outOfBounds
      else
        match s.cache tid with
        | none => evictFrom len fresh s draws
        | some old =>
            if s.queueCur = some old then evictFrom len fresh s draws
            else if (s.evict tid old).mustEvict len then do
              let s ← (s.evict tid old).learnLimit len fresh
              evictFrom len fresh s draws
            else .ok (s.evict tid old, tid)

/-- The eviction loop, with the value of `tid` after it. -/
def makeRoom (len : ℕ) (fresh : ℕ → Option ℕ) (draws : List ℕ) :
    Except CacheFault (TestcaseCache × ℕ) :=
  if s.mustEvict len then do
    let s ← s.learnLimit len fresh
    evictFrom len fresh s draws
  else .ok (s, s.maxCacheCount)

/-! ## Inserting -/

/-- `while (cache[tid] != NULL) ++tid;`. -/
def scan (tid : ℕ) : Except CacheFault ℕ :=
  match firstEmpty s.cache (s.allocated - tid) tid with
  | some found => .ok found
  | none => .error .outOfBounds

/-- The common end of the two insertions: the entry gets a buffer and the slot `tid`. -/
def register (q tid : ℕ) : Except CacheFault TestcaseCache :=
  let len := (s.entries q).len
  if s.allocated ≤ tid then .error .outOfBounds
  else
    .ok { s with
      entries := s.changed q fun e => { e with testcaseBuf := some len }
      cache := Function.update s.cache tid (some q)
      cacheSize := u64 (s.cacheSize + len)
      cacheCount := u32 (s.cacheCount + 1)
      maxCacheCount := if s.maxCacheCount ≤ tid then u32 (tid + 1) else s.maxCacheCount
      smallestFree :=
        if s.maxCacheCount ≤ tid then s.smallestFree
        else if tid = s.smallestFree then u32 (tid + 1)
        else s.smallestFree }

end TestcaseCache

/-! ## The operations -/

/-- `queue_testcase_get`. -/
def queueTestcaseGet (s : TestcaseCache) (q : ℕ) (draws : List ℕ) (fresh : ℕ → Option ℕ) :
    Except CacheFault TestcaseCache :=
  if (s.entries q).testcaseBuf ≠ none then .ok s
  else if (s.entries q).weight < 1 ∨ s.maxCacheSize = 0 then .ok s
  else do
    let (s, tid) ← s.makeRoom (s.entries q).len fresh draws
    let tid ← s.scan (if s.maxCacheEntries ≤ tid then s.smallestFree else tid)
    s.register q tid

/-- `queue_testcase_store_mem`. -/
def queueTestcaseStoreMem (s : TestcaseCache) (q : ℕ) : Except CacheFault TestcaseCache :=
  if (s.entries q).weight < 1 ∨ s.maxCacheSize ≤ u64 (s.cacheSize + (s.entries q).len) ∨
      u32Pred s.maxCacheEntries ≤ s.cacheCount then .ok s
  else do
    let tid ← s.scan
      (if s.maxCacheEntries ≤ s.maxCacheCount then s.smallestFree else s.maxCacheCount)
    s.register q tid

/-- Replace the buffer of a cached entry by one of another length. -/
def resizeBuffer (s : TestcaseCache) (q len oldLen : ℕ) : TestcaseCache :=
  { s with
    entries := s.changed q fun e => { e with testcaseBuf := some len }
    cacheSize := u64 (s.cacheSize + u32Sub len oldLen) }

/-- `queue_testcase_retake`. -/
def queueTestcaseRetake (s : TestcaseCache) (q oldLen : ℕ) : TestcaseCache :=
  let len := (s.entries q).len
  if (s.entries q).testcaseBuf ≠ none then
    if oldLen < len ∨ u32 (len + 1024) < oldLen then resizeBuffer s q len oldLen else s
  else s

/-- `queue_testcase_retake_mem`. `inPlace` says that the new data is in the buffer itself. -/
def queueTestcaseRetakeMem (s : TestcaseCache) (q len oldLen : ℕ) (inPlace : Bool) :
    TestcaseCache :=
  if (s.entries q).testcaseBuf ≠ none then
    if !inPlace ∧ u32 (len + 1024) < oldLen then resizeBuffer s q len oldLen else s
  else s

/-- What can happen to the cache. Lengths and weights of entries and `queue_cur` are changed
by other code. -/
inductive CacheOp where
  | get (q : ℕ) (draws : List ℕ) (fresh : ℕ → Option ℕ)
  | storeMem (q : ℕ)
  | retake (q oldLen : ℕ)
  | retakeMem (q len oldLen : ℕ) (inPlace : Bool)
  | select (queueCur : Option ℕ)
  | reweigh (q len : ℕ) (weight : ℚ)

/-- The effect of an operation. -/
def CacheOp.apply (s : TestcaseCache) : CacheOp → Except CacheFault TestcaseCache
  | .get q draws fresh => queueTestcaseGet s q draws fresh
  | .storeMem q => queueTestcaseStoreMem s q
  | .retake q oldLen => .ok (queueTestcaseRetake s q oldLen)
  | .retakeMem q len oldLen inPlace => .ok (queueTestcaseRetakeMem s q len oldLen inPlace)
  | .select queueCur => .ok { s with queueCur := queueCur }
  | .reweigh q len weight =>
      .ok { s with entries := s.changed q fun e => { e with len := len, weight := weight } }

/-- `queue_testcase_store_mem` is called on entries that are not cached. -/
def CacheOp.Allowed (s : TestcaseCache) : CacheOp → Prop
  | .storeMem q => (s.entries q).testcaseBuf = none
  | _ => True

end GreenFuzz.AflFuzz
