import GreenFuzz.Library.BitArray
import Mathlib.Data.Rat.Defs
import Mathlib.Algebra.Order.Ring.Rat
import Mathlib.Data.Nat.Cast.Order.Ring
import Mathlib.Order.Monotone.Defs

/-!
# The fuzzer state

The part of `afl_state_t` and of `struct queue_entry` that the queue, the score,
the calibration and the selection code work on. A pointer to a queue entry is
its index in `queue_buf` (the field `id`), a null pointer is `none`, and an
array is a function from indices together with the length field the source
keeps for it. Machine integers are natural numbers, wrapped by `u32` and `u64`
where the code can overflow them. A `double` is an exact rational.

The defaults are the values `afl_state_init` and `ck_alloc` leave behind: zero
everywhere, except for the fields that `afl_state_init` sets and for the virgin
maps, which `main` fills with `0xff` before the first run.
-/

set_option autoImplicit false

namespace GreenFuzz.AflFuzz

open Library

/-! ## Machine integers and the mathematics library -/

/-- Wrap to a `u32`. -/
def u32 (n : ℕ) : ℕ := n % 2 ^ 32

/-- Wrap to a `u64`. -/
def u64 (n : ℕ) : ℕ := n % 2 ^ 64

/-- Wrap to a `u128`. -/
def u128 (n : ℕ) : ℕ := n % 2 ^ 128

/-- `x - 1` on a `u32`. -/
def u32Pred (n : ℕ) : ℕ := (n + (2 ^ 32 - 1)) % 2 ^ 32

/-- `a - b` on a `u32`. -/
def u32Sub (a b : ℕ) : ℕ := u32 (a + (2 ^ 32 - b % 2 ^ 32))

/-- `a - b` on a `u64`. -/
def u64Sub (a b : ℕ) : ℕ := u64 (a + (2 ^ 64 - b % 2 ^ 64))

theorem u32Pred_eq_sub {n : ℕ} (positive : 0 < n) (small : n ≤ 2 ^ 32) : u32Pred n = n - 1 := by
  unfold u32Pred
  omega

theorem u32Pred_succ {n : ℕ} (small : n < 2 ^ 32) : u32Pred (n + 1) = n :=
  u32Pred_eq_sub (Nat.succ_pos n) small

theorem u32_of_lt {n : ℕ} (small : n < 2 ^ 32) : u32 n = n := Nat.mod_eq_of_lt small

theorem u64_of_lt {n : ℕ} (small : n < 2 ^ 64) : u64 n = n := Nat.mod_eq_of_lt small

theorem u32Sub_of_le {a b : ℕ} (le : b ≤ a) (small : a < 2 ^ 32) : u32Sub a b = a - b := by
  unfold u32Sub u32
  omega

theorem u64Sub_of_le {a b : ℕ} (le : b ≤ a) (small : a < 2 ^ 64) : u64Sub a b = a - b := by
  unfold u64Sub u64
  rw [Nat.mod_eq_of_lt (show b < 2 ^ 64 by omega)]
  omega

/-- The conversion of a `double` to an unsigned integer of `w` bits: the
fraction is dropped. A negative or too large value is undefined behaviour in C;
here a negative one becomes 0 and a large one wraps. -/
def truncate (w : ℕ) (x : ℚ) : ℕ := x.floor.toNat % 2 ^ w

/-- The functions of `math.h` that the code calls, at the integers it calls them
on. Only what the source relies on is known about them. -/
structure Libm where
  log : ℕ → ℚ
  log2 : ℕ → ℚ
  log10 : ℕ → ℚ
  log1p : ℕ → ℚ
  log10_nonneg : ∀ n, 0 < n → 0 ≤ log10 n
  log1p_zero : log1p 0 = 0
  log1p_strictMono : StrictMono log1p

/-- Every function returns its argument. It meets what the source relies on and
lets examples be evaluated that never call the library. -/
def Libm.identity : Libm where
  log := fun n => n
  log2 := fun n => n
  log10 := fun n => n
  log1p := fun n => n
  log10_nonneg := fun n _ => Nat.cast_nonneg n
  log1p_zero := rfl
  log1p_strictMono := fun _ _ less => Nat.cast_lt.mpr less

/-! ## Enumerations -/

/-- The power schedules, in the order of the source. -/
inductive Schedule where
  | explore | mmopt | exploit | fast | coe | lin | quad | rare | seek
  deriving DecidableEq, Repr

/-- The number of a schedule, which the code compares. -/
def Schedule.code : Schedule → ℕ
  | .explore => 0
  | .mmopt => 1
  | .exploit => 2
  | .fast => 3
  | .coe => 4
  | .lin => 5
  | .quad => 6
  | .rare => 7
  | .seek => 8

instance : LE Schedule := ⟨fun a b => a.code ≤ b.code⟩
instance : LT Schedule := ⟨fun a b => a.code < b.code⟩
instance (a b : Schedule) : Decidable (a ≤ b) := inferInstanceAs (Decidable (a.code ≤ b.code))
instance (a b : Schedule) : Decidable (a < b) := inferInstanceAs (Decidable (a.code < b.code))

/-- `fsrv_run_result_t`. -/
inductive FsrvRunResult where
  | ok | tmout | crash | error | noinst | nobits
  deriving DecidableEq, Repr

/-- The three virgin maps that `has_new_bits` is called with. -/
inductive VirginMap where
  | bits | tmout | crash
  deriving DecidableEq, Repr

/-- `N_FUZZ_SIZE`. -/
def nFuzzSize : ℕ := 2 ^ 21

/-! ## Queue entries -/

/-- A minimised trace: the allocated length in bytes and the bytes. -/
structure TraceMini where
  len : ℕ
  bytes : Buffer

/-- `struct queue_entry`. -/
structure QueueEntry where
  len : ℕ := 0
  id : ℕ := 0
  colorized : ℕ := 0
  calFailed : ℕ := 0
  trimDone : Bool := false
  wasFuzzed : Bool := false
  passedDet : Bool := false
  hasNewCov : Bool := false
  varBehavior : Bool := false
  favored : Bool := false
  fsRedundant : Bool := false
  isAscii : Bool := false
  disabled : Bool := false
  bitmapSize : ℕ := 0
  fuzzLevel : ℕ := 0
  nFuzzEntry : ℕ := 0
  execUs : ℕ := 0
  handicap : ℕ := 0
  depth : ℕ := 0
  execCksum : ℕ := 0
  custom : ℕ := 0
  statsMutated : ℕ := 0
  tcRef : ℕ := 0
  perfScore : ℚ := 0
  weight : ℚ := 0
  cpuEnergyCost : ℕ := 0
  memEnergyCost : ℕ := 0
  mother : Option ℕ := none
  traceMini : Option TraceMini := none

/-! ## The global state -/

/-- `afl_state_t`. -/
structure AflState where
  /- `fsrv` -/
  mapSize : ℕ
  realMapSize : ℕ := mapSize
  totalExecs : ℕ := 0
  execTmout : ℕ := 1000
  traceBits : Buffer := fun _ => 0
  /- the shared memory words that the target publishes its energy in -/
  cpuEnergyMap : Option ℕ := none
  memEnergyMap : Option ℕ := none
  /- `afl_env` and the command line -/
  aflDisableRedundant : Bool := false
  aflCalFast : Bool := false
  limitTimeSig : ℤ := 0
  schedule : Schedule := .explore
  havocMaxMult : Byte := 64
  nonInstrumentedMode : Bool := false
  fixedSeed : Bool := false
  cmplogMode : Bool := false
  crashMode : FsrvRunResult := .ok
  stopSoon : Bool := false
  scoreChanged : Bool := false
  bitmapChanged : Bool := false
  reinitTable : Bool := false
  /- coverage maps -/
  virginBits : Buffer := fun _ => 255
  virginTmout : Buffer := fun _ => 255
  virginCrash : Buffer := fun _ => 255
  varBytes : Buffer := fun _ => 0
  firstTrace : Buffer := fun _ => 0
  mapTmpBuf : Buffer := fun _ => 0
  nFuzz : ℕ → ℕ := fun _ => 0
  /- the queue and its counters -/
  queueBuf : ℕ → QueueEntry := fun _ => {}
  queueCur : Option ℕ := none
  queueTop : Option ℕ := none
  queuedItems : ℕ := 0
  activeItems : ℕ := 0
  pendingNotFuzzed : ℕ := 0
  readyForSplicingCount : ℕ := 0
  queuedVariable : ℕ := 0
  queuedDiscovered : ℕ := 0
  queuedFavored : ℕ := 0
  queuedWithCov : ℕ := 0
  pendingFavored : ℕ := 0
  smallestFavored : ℤ := -1
  curDepth : ℕ := 0
  maxDepth : ℕ := 0
  varByteCount : ℕ := 0
  /- calibration statistics -/
  totalCalUs : ℕ := 0
  totalCalCycles : ℕ := 0
  totalBitmapSize : ℕ := 0
  totalBitmapEntries : ℕ := 0
  totalCpuEnergy : ℕ := 0
  totalMemEnergy : ℕ := 0
  minCpuEnergy : ℕ := 0
  maxCpuEnergy : ℕ := 0
  minMemEnergy : ℕ := 0
  maxMemEnergy : ℕ := 0
  /- the best entry of each map index -/
  topRated : ℕ → Option ℕ := fun _ => none
  topRatedCandidates : ℕ → List ℕ := fun _ => []
  lastScoredIdx : ℤ := -1
  /- the alias table -/
  aliasProbability : ℕ → ℚ := fun _ => 0
  aliasTable : ℕ → ℕ := fun _ => 0

namespace AflState

/-- Change one queue entry. -/
def modifyEntry (afl : AflState) (q : ℕ) (change : QueueEntry → QueueEntry) : AflState :=
  { afl with queueBuf := Function.update afl.queueBuf q (change (afl.queueBuf q)) }

variable (afl : AflState) (q : ℕ) (change : QueueEntry → QueueEntry)

@[simp] theorem modifyEntry_queueBuf :
    (afl.modifyEntry q change).queueBuf =
      Function.update afl.queueBuf q (change (afl.queueBuf q)) := rfl

@[simp] theorem modifyEntry_queueBuf_self :
    (afl.modifyEntry q change).queueBuf q = change (afl.queueBuf q) := by
  simp [modifyEntry]

theorem modifyEntry_queueBuf_of_ne {p : ℕ} (differ : p ≠ q) :
    (afl.modifyEntry q change).queueBuf p = afl.queueBuf p := by
  simp [modifyEntry, differ]

/-- A field of the entries that the change keeps is kept everywhere. -/
theorem modifyEntry_keeps {α : Type*} (field : QueueEntry → α)
    (keeps : field (change (afl.queueBuf q)) = field (afl.queueBuf q)) (p : ℕ) :
    field ((afl.modifyEntry q change).queueBuf p) = field (afl.queueBuf p) := by
  by_cases same : p = q
  · subst same
    rw [modifyEntry_queueBuf_self, keeps]
  · rw [modifyEntry_queueBuf_of_ne _ _ _ same]

/-- Read one of the virgin maps. -/
def virgin (afl : AflState) : VirginMap → Buffer
  | .bits => afl.virginBits
  | .tmout => afl.virginTmout
  | .crash => afl.virginCrash

/-- Overwrite one of the virgin maps. -/
def setVirgin (afl : AflState) (map : VirginMap) (buffer : Buffer) : AflState :=
  match map with
  | .bits => { afl with virginBits := buffer }
  | .tmout => { afl with virginTmout := buffer }
  | .crash => { afl with virginCrash := buffer }

@[simp] theorem virgin_setVirgin (map : VirginMap) (buffer : Buffer) :
    (afl.setVirgin map buffer).virgin map = buffer := by
  cases map <;> rfl

@[simp] theorem setVirgin_virgin (map : VirginMap) : afl.setVirgin map (afl.virgin map) = afl := by
  cases map <;> rfl

end AflState

end GreenFuzz.AflFuzz
