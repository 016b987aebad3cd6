import GreenFuzz.AflFuzz.State

/-!
# Running the target

`fuzz_run_target` of `afl-fuzz-run.c`. What the target does in one run is an
input of the model: how the run ended, the trace it left in the shared map, the
energy it published, and whether a stop was requested meanwhile.

The energy hook stores a positive reading in the entry `queue_cur`, whichever
entry was executed, and clears the shared word. Nothing else of the queue
changes (`fuzzRunTarget_keeps`).
-/

set_option autoImplicit false

namespace GreenFuzz.AflFuzz

open Library

/-- What one run of the target does. A reading of `none` leaves the shared word
as it was. -/
structure RunOutcome where
  fault : FsrvRunResult := .ok
  trace : Buffer := fun _ => 0
  cpuEnergy : Option ℕ := none
  memEnergy : Option ℕ := none
  stopSoon : Bool := false

/-- The two resources whose energy is measured. -/
inductive Resource where
  | cpu | mem
  deriving DecidableEq, Repr

/-- `q->cpu_energy_cost` or `q->mem_energy_cost`. -/
def QueueEntry.cost (q : QueueEntry) : Resource → ℕ
  | .cpu => q.cpuEnergyCost
  | .mem => q.memEnergyCost

/-- Overwrite one energy cost. -/
def QueueEntry.setCost (q : QueueEntry) (resource : Resource) (value : ℕ) : QueueEntry :=
  match resource with
  | .cpu => { q with cpuEnergyCost := value }
  | .mem => { q with memEnergyCost := value }

/-- The word at `afl->cpu_energy_map` or `afl->mem_energy_map`, if attached. -/
def AflState.energyMap (afl : AflState) : Resource → Option ℕ
  | .cpu => afl.cpuEnergyMap
  | .mem => afl.memEnergyMap

/-- Overwrite the word of one energy map. -/
def AflState.setEnergyMap (afl : AflState) (resource : Resource) (word : Option ℕ) : AflState :=
  match resource with
  | .cpu => { afl with cpuEnergyMap := word }
  | .mem => { afl with memEnergyMap := word }

/-- The reading a run publishes for a resource. -/
def RunOutcome.energy (outcome : RunOutcome) : Resource → Option ℕ
  | .cpu => outcome.cpuEnergy
  | .mem => outcome.memEnergy

/-- One block of the energy measurement hook: read the shared word, store a
positive value in `queue_cur`, clear the word. -/
def recordEnergy (afl : AflState) (resource : Resource) (published : Option ℕ) : AflState :=
  match afl.energyMap resource with
  | none => afl
  | some word =>
      let val := published.getD word
      let afl := match afl.queueCur with
        | some current =>
            if 0 < val then afl.modifyEntry current fun q => q.setCost resource val else afl
        | none => afl
      afl.setEnergyMap resource (some 0)

/-- `afl_fsrv_run_target`: the trace in the shared map is the run's. -/
def fsrvRunTarget (afl : AflState) (outcome : RunOutcome) : AflState :=
  { afl with
    traceBits := outcome.trace
    totalExecs := u64 (afl.totalExecs + 1)
    stopSoon := afl.stopSoon || outcome.stopSoon }

/-- `fuzz_run_target`: run the target, then the energy hook. -/
def fuzzRunTarget (afl : AflState) (outcome : RunOutcome) : AflState :=
  recordEnergy (recordEnergy (fsrvRunTarget afl outcome) .cpu outcome.cpuEnergy) .mem
    outcome.memEnergy

/-! ## What the hook changes -/

/-- A field of the entries that does not read the energy costs. -/
def IgnoresCosts {α : Type*} (field : QueueEntry → α) : Prop :=
  ∀ (q : QueueEntry) resource value, field (q.setCost resource value) = field q

/-- The hook keeps every field of the entries except the costs. -/
theorem recordEnergy_keeps {α : Type*} {field : QueueEntry → α} (ignores : IgnoresCosts field)
    (afl : AflState) (resource : Resource) (published : Option ℕ) (p : ℕ) :
    field ((recordEnergy afl resource published).queueBuf p) = field (afl.queueBuf p) := by
  have stored (current value : ℕ) :
      field ((afl.modifyEntry current fun q => q.setCost resource value).queueBuf p) =
        field (afl.queueBuf p) :=
    AflState.modifyEntry_keeps afl current (fun q => q.setCost resource value) field
      (ignores _ _ _) p
  unfold recordEnergy
  split
  · rfl
  · dsimp only
    split
    · split
      · cases resource <;> exact stored _ _
      · cases resource <;> rfl
    · cases resource <;> rfl

theorem fuzzRunTarget_keeps {α : Type*} {field : QueueEntry → α} (ignores : IgnoresCosts field)
    (afl : AflState) (outcome : RunOutcome) (p : ℕ) :
    field ((fuzzRunTarget afl outcome).queueBuf p) = field (afl.queueBuf p) := by
  rw [fuzzRunTarget, recordEnergy_keeps ignores, recordEnergy_keeps ignores]
  rfl

/-- The hook changes the queue and the energy maps, and nothing else. -/
theorem recordEnergy_eq (afl : AflState) (resource : Resource) (published : Option ℕ) :
    ∃ queue cpu mem, recordEnergy afl resource published =
      { afl with queueBuf := queue, cpuEnergyMap := cpu, memEnergyMap := mem } := by
  unfold recordEnergy
  split
  · exact ⟨_, _, _, rfl⟩
  · dsimp only
    split
    · split <;> cases resource <;> exact ⟨_, _, _, rfl⟩
    · cases resource <;> exact ⟨_, _, _, rfl⟩

/-- A run of the target changes the trace, the counter of runs, the stop flag, the
queue and the energy maps, and nothing else. -/
theorem fuzzRunTarget_eq (afl : AflState) (outcome : RunOutcome) :
    ∃ queue cpu mem, fuzzRunTarget afl outcome =
      { fsrvRunTarget afl outcome with
        queueBuf := queue, cpuEnergyMap := cpu, memEnergyMap := mem } := by
  obtain ⟨queue, cpu, mem, measured⟩ :=
    recordEnergy_eq (fsrvRunTarget afl outcome) .cpu outcome.cpuEnergy
  rw [fuzzRunTarget, measured]
  exact recordEnergy_eq _ .mem outcome.memEnergy

/-- What the hook does not change is as the run left it. -/
theorem fuzzRunTarget_field {α : Type*} {field : AflState → α}
    (ignores : ∀ afl queue cpu mem, field { afl with
      queueBuf := queue, cpuEnergyMap := cpu, memEnergyMap := mem } = field afl)
    (afl : AflState) (outcome : RunOutcome) :
    field (fuzzRunTarget afl outcome) = field (fsrvRunTarget afl outcome) := by
  obtain ⟨queue, cpu, mem, ran⟩ := fuzzRunTarget_eq afl outcome
  rw [ran]
  exact ignores _ queue cpu mem

section Fields

variable (afl : AflState) (outcome : RunOutcome)

@[simp] theorem fuzzRunTarget_traceBits : (fuzzRunTarget afl outcome).traceBits = outcome.trace :=
  fuzzRunTarget_field (fun _ _ _ _ => rfl) afl outcome

@[simp] theorem fuzzRunTarget_stopSoon :
    (fuzzRunTarget afl outcome).stopSoon = (afl.stopSoon || outcome.stopSoon) :=
  fuzzRunTarget_field (fun _ _ _ _ => rfl) afl outcome

@[simp] theorem fuzzRunTarget_crashMode : (fuzzRunTarget afl outcome).crashMode = afl.crashMode :=
  fuzzRunTarget_field (fun _ _ _ _ => rfl) afl outcome

@[simp] theorem fuzzRunTarget_nonInstrumentedMode :
    (fuzzRunTarget afl outcome).nonInstrumentedMode = afl.nonInstrumentedMode :=
  fuzzRunTarget_field (fun _ _ _ _ => rfl) afl outcome

@[simp] theorem fuzzRunTarget_mapSize : (fuzzRunTarget afl outcome).mapSize = afl.mapSize :=
  fuzzRunTarget_field (fun _ _ _ _ => rfl) afl outcome

@[simp] theorem fuzzRunTarget_realMapSize :
    (fuzzRunTarget afl outcome).realMapSize = afl.realMapSize :=
  fuzzRunTarget_field (fun _ _ _ _ => rfl) afl outcome

@[simp] theorem fuzzRunTarget_varBytes : (fuzzRunTarget afl outcome).varBytes = afl.varBytes :=
  fuzzRunTarget_field (fun _ _ _ _ => rfl) afl outcome

@[simp] theorem fuzzRunTarget_candidates :
    (fuzzRunTarget afl outcome).topRatedCandidates = afl.topRatedCandidates :=
  fuzzRunTarget_field (fun _ _ _ _ => rfl) afl outcome

end Fields

/-! ## Where a reading is stored -/

/-- The value the hook reads for a resource, 0 when no map is attached. -/
def AflState.reading (afl : AflState) (resource : Resource) (published : Option ℕ) : ℕ :=
  match afl.energyMap resource with
  | none => 0
  | some word => published.getD word

@[simp] theorem QueueEntry.cost_setCost (q : QueueEntry) (resource other : Resource) (value : ℕ) :
    (q.setCost resource value).cost other = if other = resource then value else q.cost other := by
  cases resource <;> cases other <;> rfl

@[simp] theorem AflState.setEnergyMap_queueBuf (afl : AflState) (resource : Resource)
    (word : Option ℕ) : (afl.setEnergyMap resource word).queueBuf = afl.queueBuf := by
  cases resource <;> rfl

/-- The hook stores a positive reading in `queue_cur` and in no other entry. -/
theorem recordEnergy_cost (afl : AflState) (resource other : Resource) (published : Option ℕ)
    (p : ℕ) :
    ((recordEnergy afl resource published).queueBuf p).cost other =
      if other = resource ∧ afl.queueCur = some p ∧ 0 < afl.reading resource published then
        afl.reading resource published
      else (afl.queueBuf p).cost other := by
  unfold recordEnergy AflState.reading
  cases afl.energyMap resource with
  | none => simp
  | some word =>
      dsimp only
      rw [AflState.setEnergyMap_queueBuf]
      cases afl.queueCur with
      | none => simp
      | some current =>
          dsimp only
          by_cases positive : 0 < published.getD word
          · rw [if_pos positive]
            by_cases same : p = current
            · subst same
              simp [positive]
            · rw [AflState.modifyEntry_queueBuf_of_ne _ _ _ same, if_neg]
              rintro ⟨-, equal, -⟩
              exact same (Option.some.inj equal).symm
          · rw [if_neg positive, if_neg (fun stored => positive stored.2.2)]

/-- The hook clears the shared word of its resource. -/
theorem recordEnergy_energyMap (afl : AflState) (resource other : Resource)
    (published : Option ℕ) :
    (recordEnergy afl resource published).energyMap other =
      if other = resource then (afl.energyMap other).map fun _ => 0 else afl.energyMap other := by
  unfold recordEnergy
  cases attached : afl.energyMap resource with
  | none => by_cases same : other = resource <;> simp [same, attached]
  | some word =>
      dsimp only
      split
      · split <;> cases resource <;> cases other <;>
          simp_all [AflState.energyMap, AflState.setEnergyMap, AflState.modifyEntry]
      · cases resource <;> cases other <;>
          simp_all [AflState.energyMap, AflState.setEnergyMap]

/-- Each run clears the shared words. -/
theorem fuzzRunTarget_energyMap (afl : AflState) (outcome : RunOutcome) (resource : Resource) :
    (fuzzRunTarget afl outcome).energyMap resource = (afl.energyMap resource).map fun _ => 0 := by
  rw [fuzzRunTarget, recordEnergy_energyMap, recordEnergy_energyMap]
  cases resource <;> simp [fsrvRunTarget, AflState.energyMap]

/-- After a run the entry `queue_cur` has the positive readings of the run as its costs;
the costs of the others are as before. -/
theorem fuzzRunTarget_cost (afl : AflState) (outcome : RunOutcome) (resource : Resource) (p : ℕ) :
    ((fuzzRunTarget afl outcome).queueBuf p).cost resource =
      if afl.queueCur = some p ∧ 0 < afl.reading resource (outcome.energy resource) then
        afl.reading resource (outcome.energy resource)
      else (afl.queueBuf p).cost resource := by
  have current : (recordEnergy (fsrvRunTarget afl outcome) .cpu outcome.cpuEnergy).queueCur =
      afl.queueCur := by
    obtain ⟨_, _, _, same⟩ := recordEnergy_eq (fsrvRunTarget afl outcome) .cpu outcome.cpuEnergy
    rw [same]
    rfl
  rw [fuzzRunTarget, recordEnergy_cost, recordEnergy_cost]
  cases resource with
  | cpu =>
      simp only [reduceCtorEq, false_and, if_false, true_and]
      rfl
  | mem =>
      simp only [AflState.reading, recordEnergy_energyMap, current, true_and, reduceCtorEq,
        false_and, if_false]
      rfl

end GreenFuzz.AflFuzz
