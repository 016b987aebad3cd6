import GreenFuzz.CompilerRt.CoverageMap
import GreenFuzz.Library.ByteWords
import Mathlib.Data.List.Infix

/-!
# The map from guard ids to program counters

`__sanitizer_cov_pcs_init` gets the table of program counters of the last module, and writes the
counters of all modules that were not mapped yet to the PC map, at the ids of their guards. For
the last module a filter may set guards to 0 on the way.

The id of the first guard is read again for each entry. Once the filter has set that guard to 0,
the other entries of the module are written from index 0 on, outside the ids of the module. The
same happens to a module that is mapped late, after an earlier call has set its first guard to
0; if it is the last guard that was set to 0, the module is not mapped at all. **Otherwise the
PC map is right** (`pcmap_right_iff`).
-/

set_option autoImplicit false

namespace GreenFuzz.CompilerRt

open Library

/-! ## Filters -/

/-- What is read from `AFL_PC_FILTER_FILE`: `__afl_filter_pcs` and `__afl_filter_pcs_module`. -/
structure FilterPcs where
  entries : List (BitVec 64 × BitVec 32)
  moduleName : List Byte

/-- The loop of `locate_in_pcs`, with its bounds. -/
def locateFrom (entries : List (BitVec 64 × BitVec 32)) (needle : BitVec 64)
    (lowerBound upperBound : ℕ) : Bool :=
  if lowerBound < entries.length ∧ lowerBound ≤ upperBound then
    let currentIndex := lowerBound + (upperBound - lowerBound) / 2
    match entries[currentIndex]? with
    | none => false
    | some (start, len) =>
        if start ≤ needle then
          if needle < start + len.setWidth 64 then true
          else locateFrom entries needle (currentIndex + 1) upperBound
        else if currentIndex = 0 then false
        else locateFrom entries needle lowerBound (currentIndex - 1)
  else false
termination_by upperBound + 1 - lowerBound

/-- `locate_in_pcs`. -/
def locateInPcs (entries : List (BitVec 64 × BitVec 32)) (needle : BitVec 64) : Bool :=
  locateFrom entries needle 0 (entries.length - 1)

/-- What a call finds in the environment. -/
structure PcEnv where
  /-- `__afl_map_size`. -/
  mapSize : ℕ
  /-- With `AFL_PC_FILTER`, whether the description of a program counter contains it. -/
  pcFilter : Option (BitVec 64 → Bool)
  filterPcs : Option FilterPcs

/-! ## Modules -/

/-- `afl_module_info_t`. Without guards `start` is `NULL`. -/
structure ModuleInfo where
  name : List Byte
  baseAddress : BitVec 64
  guards : List ℕ
  pcs : List (BitVec 64)
  mapped : Bool
  /-- The id that the first guard was given, which no function reads. -/
  firstId : ℕ
  deriving DecidableEq, Repr

/-- `__afl_pcmap_ptr`, and what a call wrote to it in order, which no function reads. -/
structure Pcmap where
  entries : ℕ → BitVec 64
  written : List (ℕ × BitVec 64)

structure PcState where
  modules : List ModuleInfo
  /-- `NULL` is `none`. -/
  pcmap : Option Pcmap

def Pcmap.write (pcmap : Pcmap) (index : ℕ) (pc : BitVec 64) : Pcmap :=
  { entries := Function.update pcmap.entries index pc
    written := pcmap.written ++ [(index, pc)] }

/-- The program counter before the one in the table, relative to the module. -/
def ModuleInfo.relative (m : ModuleInfo) (pc : BitVec 64) : BitVec 64 := pc - 1 - m.baseAddress

/-- A filter sets the guard of an entry to 0. -/
def PcEnv.nulls (E : PcEnv) (m : ModuleInfo) (last : Bool) (pc : BitVec 64) : Bool :=
  last && ((E.pcFilter.any fun matched => !matched pc) ||
    E.filterPcs.any fun file =>
      decide (file.moduleName <:+: m.name) && !locateInPcs file.entries (m.relative pc))

/-! ## The call -/

/-- The loop over the entries of a module from entry `j` on, where an index outside the map ends
the process. -/
def mapEntries (E : PcEnv) (last : Bool) :
    List (BitVec 64) → ℕ → ModuleInfo → Option Pcmap → Option (ModuleInfo × Option Pcmap)
  | [], _, m, pcmap => some (m, pcmap)
  | pc :: pcs, j, m, pcmap =>
      let index := (m.guards.headD 0 + j) % u32Size
      if E.mapSize ≤ index then none
      else
        let pcmap := pcmap.map fun map => map.write index (m.relative pc)
        let m := if E.nulls m last pc then { m with guards := m.guards.set j 0 } else m
        mapEntries E last pcs (j + 1) m pcmap

/-- One module. -/
def mapModule (E : PcEnv) (last : Bool) (m : ModuleInfo) (pcmap : Option Pcmap) :
    Option (ModuleInfo × Option Pcmap) :=
  if m.mapped then some (m, pcmap)
  else if m.guards = [] then none
  else if m.guards.getLastD 0 = 0 then some (m, pcmap)
  else
    (mapEntries E last m.pcs 0 m pcmap).map fun result =>
      ({ result.1 with mapped := result.2.isSome }, result.2)

/-- All modules. -/
def mapModules (E : PcEnv) :
    List ModuleInfo → Option Pcmap → Option (List ModuleInfo × Option Pcmap)
  | [], pcmap => some ([], pcmap)
  | m :: modules, pcmap =>
      match mapModule E modules.isEmpty m pcmap with
      | none => none
      | some (m, pcmap) => (mapModules E modules pcmap).map fun result => (m :: result.1, result.2)

/-- The modules after the last one got its table. -/
def attachPcs (pcs : List (BitVec 64)) : List ModuleInfo → List ModuleInfo
  | [] => []
  | [m] => [{ m with pcs := pcs }]
  | m :: modules => m :: attachPcs pcs modules

/-- `__sanitizer_cov_pcs_init`, called from the module with this name, if `dladdr` finds one. -/
def pcsInit (E : PcEnv) (caller : Option (List Byte)) (pcs : List (BitVec 64)) (s : PcState) :
    Option PcState :=
  match caller with
  | none => some s
  | some name =>
      match s.modules.getLast? with
      | none => none
      | some lastModule =>
          if name ≠ lastModule.name then some s
          else
            let pcmap := s.pcmap.map fun map => { map with written := [] }
            (mapModules E (attachPcs pcs s.modules) pcmap).map fun result =>
              { modules := result.1, pcmap := result.2 }

/-! ## What is written -/

/-- A list of writes. -/
def Pcmap.writeAll (pcmap : Pcmap) (writes : List (ℕ × BitVec 64)) : Pcmap :=
  writes.foldl (fun map write => map.write write.1 write.2) pcmap

@[simp] theorem Pcmap.writeAll_cons (pcmap : Pcmap) (write : ℕ × BitVec 64)
    (writes : List (ℕ × BitVec 64)) :
    pcmap.writeAll (write :: writes) = (pcmap.write write.1 write.2).writeAll writes := rfl

theorem Pcmap.writeAll_append (pcmap : Pcmap) (first second : List (ℕ × BitVec 64)) :
    pcmap.writeAll (first ++ second) = (pcmap.writeAll first).writeAll second :=
  List.foldl_append

@[simp] theorem Pcmap.entries_write (pcmap : Pcmap) (index : ℕ) (pc : BitVec 64) :
    (pcmap.write index pc).entries = Function.update pcmap.entries index pc := rfl

theorem Pcmap.written_writeAll (pcmap : Pcmap) (writes : List (ℕ × BitVec 64)) :
    (pcmap.writeAll writes).written = pcmap.written ++ writes := by
  induction writes generalizing pcmap with
  | nil => exact (List.append_nil _).symm
  | cons write writes ih =>
      rw [writeAll_cons, ih, Pcmap.write, List.append_assoc, List.singleton_append]

theorem Pcmap.entries_of_not_written {pcmap : Pcmap} {writes : List (ℕ × BitVec 64)} {i : ℕ}
    (never : ∀ pc, (i, pc) ∉ writes) : (pcmap.writeAll writes).entries i = pcmap.entries i := by
  induction writes generalizing pcmap with
  | nil => rfl
  | cons write writes ih =>
      have other : i ≠ write.1 := by
        rintro rfl
        exact never write.2 List.mem_cons_self
      rw [writeAll_cons, ih fun pc member => never pc (List.mem_cons_of_mem _ member),
        entries_write, Function.update_of_ne other]

/-- An index that is only written with one value holds it. -/
theorem Pcmap.entries_of_agree {pcmap : Pcmap} {writes : List (ℕ × BitVec 64)} {i : ℕ}
    {pc : BitVec 64} (written : (i, pc) ∈ writes) (agree : ∀ pc', (i, pc') ∈ writes → pc' = pc) :
    (pcmap.writeAll writes).entries i = pc := by
  induction writes generalizing pcmap with
  | nil => cases written
  | cons write writes ih =>
      have rest : ∀ pc', (i, pc') ∈ writes → pc' = pc := fun pc' member =>
        agree pc' (List.mem_cons_of_mem _ member)
      rw [writeAll_cons]
      by_cases later : (i, pc) ∈ writes
      · exact ih later rest
      · obtain rfl : (i, pc) = write := (List.mem_cons.mp written).resolve_right later
        have never : ∀ pc', (i, pc') ∉ writes := fun pc' member => later (rest pc' member ▸ member)
        rw [entries_of_not_written never, entries_write, Function.update_self]

/-- The writes for entries from entry `j` on, where the id of the first guard is `base`. -/
def entryWrites (relative : BitVec 64 → BitVec 64) (base : ℕ) :
    List (BitVec 64) → ℕ → List (ℕ × BitVec 64)
  | [], _ => []
  | pc :: pcs, j => ((base + j) % u32Size, relative pc) :: entryWrites relative base pcs (j + 1)

theorem mem_entryWrites {relative : BitVec 64 → BitVec 64} {base j i : ℕ} {pcs : List (BitVec 64)}
    {value : BitVec 64} :
    (i, value) ∈ entryWrites relative base pcs j ↔
      ∃ k pc, pcs[k]? = some pc ∧ i = (base + (j + k)) % u32Size ∧ value = relative pc := by
  induction pcs generalizing j with
  | nil =>
      constructor
      · intro member
        cases member
      · rintro ⟨k, pc, found, -⟩
        cases found
  | cons first pcs ih =>
      rw [entryWrites, List.mem_cons, ih, Prod.mk.injEq]
      constructor
      · rintro (⟨index, content⟩ | ⟨k, pc, found, index, content⟩)
        · exact ⟨0, first, rfl, index, content⟩
        · refine ⟨k + 1, pc, found, ?_, content⟩
          rwa [Nat.add_right_comm, ← Nat.add_assoc] at index
      · rintro ⟨k, pc, found, index, content⟩
        cases k with
        | zero =>
            cases found
            exact .inl ⟨index, content⟩
        | succ k =>
            refine .inr ⟨k, pc, found, ?_, content⟩
            rwa [Nat.add_right_comm, ← Nat.add_assoc]

/-- What is written for a module. -/
def moduleWrites (E : PcEnv) (last : Bool) (m : ModuleInfo) : List (ℕ × BitVec 64) :=
  if m.mapped = true ∨ m.guards.getLastD 0 = 0 then []
  else
    match m.pcs with
    | [] => []
    | pc :: pcs =>
        ((m.guards.headD 0 + 0) % u32Size, m.relative pc) ::
          entryWrites m.relative (if E.nulls m last pc then 0 else m.guards.headD 0) pcs 1

section Writes

variable {E : PcEnv} {last : Bool} {m m' : ModuleInfo} {pcmap : Pcmap} {result : Option Pcmap}

/-- Setting a later guard to 0 keeps the first one. -/
theorem headD_set (guards : List ℕ) {j : ℕ} (later : 1 ≤ j) :
    (guards.set j 0).headD 0 = guards.headD 0 := by
  obtain ⟨k, rfl⟩ := Nat.exists_eq_add_of_le' later
  cases guards <;> rfl

/-- From the second entry on, the id of the first guard stays the same. -/
theorem mapEntries_later {pcs : List (BitVec 64)} {j : ℕ} (later : 1 ≤ j)
    (run : mapEntries E last pcs j m (some pcmap) = some (m', result)) :
    result = some (pcmap.writeAll (entryWrites m.relative (m.guards.headD 0) pcs j)) := by
  induction pcs generalizing j m pcmap with
  | nil =>
      cases run
      rfl
  | cons pc pcs ih =>
      rw [mapEntries] at run
      dsimp only at run
      split at run
      · cases run
      · have rest := ih (Nat.le_succ_of_le later) run
        rw [rest, entryWrites, Pcmap.writeAll_cons]
        split
        · rw [headD_set _ later]
          rfl
        · rfl

theorem mapModule_writes (run : mapModule E last m (some pcmap) = some (m', result)) :
    result = some (pcmap.writeAll (moduleWrites E last m)) := by
  unfold mapModule at run
  unfold moduleWrites
  split at run
  next mapped =>
      cases run
      rw [if_pos (.inl mapped)]
      rfl
  next unmapped =>
      split at run
      · cases run
      · split at run
        next skipped =>
            cases run
            rw [if_pos (.inr skipped)]
            rfl
        next kept =>
            rw [if_neg (not_or.mpr ⟨unmapped, kept⟩)]
            obtain ⟨⟨after, map⟩, entries, same⟩ := Option.map_eq_some_iff.mp run
            obtain rfl : map = result := congrArg Prod.snd same
            cases table : m.pcs with
            | nil =>
                rw [table] at entries
                cases entries
                rfl
            | cons pc pcs =>
                rw [table, mapEntries] at entries
                dsimp only at entries
                split at entries
                · cases entries
                · rw [mapEntries_later le_rfl entries]
                  dsimp only
                  rw [Pcmap.writeAll_cons]
                  split
                  · have first : (m.guards.set 0 0).headD 0 = 0 := by
                      cases m.guards <;> rfl
                    rw [first]
                    rfl
                  · rfl

/-- The modules, each with whether it is the last one. -/
def flagged : List ModuleInfo → List (Bool × ModuleInfo)
  | [] => []
  | m :: modules => (modules.isEmpty, m) :: flagged modules

theorem mem_flagged {modules : List ModuleInfo} :
    m ∈ modules ↔ ∃ last, (last, m) ∈ flagged modules := by
  induction modules with
  | nil =>
      constructor
      · intro member
        cases member
      · rintro ⟨last, member⟩
        cases member
  | cons first modules ih =>
      simp only [flagged, List.mem_cons, Prod.mk.injEq, ih]
      constructor
      · rintro (rfl | ⟨last, member⟩)
        · exact ⟨_, .inl ⟨rfl, rfl⟩⟩
        · exact ⟨last, .inr member⟩
      · rintro ⟨last, ⟨-, same⟩ | member⟩
        · exact .inl same
        · exact .inr ⟨last, member⟩

/-- What is written for all modules. -/
def allWrites (E : PcEnv) (modules : List ModuleInfo) : List (ℕ × BitVec 64) :=
  (flagged modules).flatMap fun module => moduleWrites E module.1 module.2

theorem mem_allWrites {modules : List ModuleInfo} {write : ℕ × BitVec 64} :
    write ∈ allWrites E modules ↔
      ∃ last m, (last, m) ∈ flagged modules ∧ write ∈ moduleWrites E last m := by
  rw [allWrites, List.mem_flatMap, Prod.exists]

theorem mapModules_writes {modules after : List ModuleInfo}
    (run : mapModules E modules (some pcmap) = some (after, result)) :
    result = some (pcmap.writeAll (allWrites E modules)) := by
  induction modules generalizing after pcmap with
  | nil =>
      cases run
      rfl
  | cons m modules ih =>
      rw [mapModules] at run
      cases first : mapModule E modules.isEmpty m (some pcmap) with
      | none =>
          rw [first] at run
          cases run
      | some mapped =>
          obtain ⟨m', map⟩ := mapped
          obtain rfl := mapModule_writes first
          rw [first] at run
          obtain ⟨⟨rest, map⟩, others, same⟩ := Option.map_eq_some_iff.mp run
          obtain rfl : map = result := congrArg Prod.snd same
          have writes : allWrites E (m :: modules) =
              moduleWrites E modules.isEmpty m ++ allWrites E modules := List.flatMap_cons
          rw [ih others, writes, Pcmap.writeAll_append]

end Writes

/-! ## When the map is right -/

/-- The guards of a module have the ids that follow each other from `firstId` on, or were set to
0, and there is an entry for each of them. The ids 0 and 1 are never given to a guard. -/
structure ModuleInfo.Numbered (m : ModuleInfo) : Prop where
  nonempty : m.guards ≠ []
  table : m.pcs.length = m.guards.length
  least : 1 < m.firstId
  ids : ∀ j id, m.guards[j]? = some id → id = 0 ∨ id = m.firstId + j
  fits : m.firstId + m.guards.length ≤ u32Size

/-- The first and the last guard still have their ids, and the first one keeps it as long as there
are entries. -/
structure ModuleInfo.KeepsBase (m : ModuleInfo) (E : PcEnv) (last : Bool) : Prop where
  firstGuard : m.guards.headD 0 ≠ 0
  lastGuard : m.guards.getLastD 0 ≠ 0
  filter : m.pcs.length ≤ 1 ∨ ∀ pc ∈ m.pcs.head?, E.nulls m last pc = false

/-- The entries of all modules that were to be mapped are right, and were written by the call,
which wrote nothing outside the ids of these modules. -/
structure PcmapRight (modules : List ModuleInfo) (map : Pcmap) : Prop where
  entries : ∀ m ∈ modules, m.mapped = false → ∀ j pc, m.pcs[j]? = some pc →
    map.entries (m.firstId + j) = m.relative pc ∧
      (m.firstId + j, m.relative pc) ∈ map.written
  inside : ∀ i pc, (i, pc) ∈ map.written →
    ∃ m ∈ modules, m.mapped = false ∧ m.firstId ≤ i ∧ i < m.firstId + m.guards.length

section Right

variable {E : PcEnv} {last : Bool} {m : ModuleInfo}

theorem ModuleInfo.Numbered.head (numbered : m.Numbered) (first : m.guards.headD 0 ≠ 0) :
    m.guards.headD 0 = m.firstId := by
  cases guards : m.guards with
  | nil => exact absurd guards numbered.nonempty
  | cons id rest =>
      rw [guards] at first
      exact (numbered.ids 0 id (by rw [guards]; rfl)).resolve_left first

/-- A module that keeps its base is written to its ids. -/
theorem ModuleInfo.KeepsBase.mem_writes (keeps : m.KeepsBase E last) (numbered : m.Numbered)
    (unmapped : m.mapped = false) {i : ℕ} {value : BitVec 64} :
    (i, value) ∈ moduleWrites E last m ↔
      ∃ j pc, m.pcs[j]? = some pc ∧ i = m.firstId + j ∧ value = m.relative pc := by
  have base := numbered.head keeps.firstGuard
  have processed : ¬ (m.mapped = true ∨ m.guards.getLastD 0 = 0) := by
    rintro (mapped | skipped)
    · rw [unmapped] at mapped
      cases mapped
    · exact keeps.lastGuard skipped
  have writes : moduleWrites E last m = entryWrites m.relative m.firstId m.pcs 0 := by
    unfold moduleWrites
    rw [if_neg processed, base]
    cases table : m.pcs with
    | nil => rfl
    | cons pc pcs =>
        have filter := keeps.filter
        rw [table] at filter
        rcases filter with one | kept
        · have none : pcs = [] := List.eq_nil_of_length_eq_zero (by
            rw [List.length_cons] at one
            omega)
          rw [none]
          rfl
        · have kept : E.nulls m last pc = false := kept pc rfl
          dsimp only
          rw [kept]
          rfl
  rw [writes, mem_entryWrites]
  refine exists_congr fun j => exists_congr fun pc => and_congr_right fun found => ?_
  have below : j < m.pcs.length := (List.getElem?_eq_some_iff.mp found).1
  have fits := numbered.fits
  rw [numbered.table] at below
  rw [Nat.zero_add, Nat.mod_eq_of_lt (by omega)]

/-- A module that does not is passed over, or is written to index 0 or 1. -/
theorem ModuleInfo.writes_of_not_keepsBase (numbered : m.Numbered) (unmapped : m.mapped = false)
    (loses : ¬ m.KeepsBase E last) :
    m.guards.getLastD 0 = 0 ∨ ∃ i value, i < 2 ∧ (i, value) ∈ moduleWrites E last m := by
  have table := numbered.table
  have some_guard := List.length_pos_of_ne_nil numbered.nonempty
  by_cases skipped : m.guards.getLastD 0 = 0
  · exact .inl skipped
  · right
    have processed : ¬ (m.mapped = true ∨ m.guards.getLastD 0 = 0) := by
      rw [unmapped]
      exact not_or.mpr ⟨nofun, skipped⟩
    cases entries : m.pcs with
    | nil =>
        rw [entries, List.length_nil] at table
        omega
    | cons pc pcs =>
        unfold moduleWrites
        rw [if_neg processed, entries]
        by_cases first : m.guards.headD 0 = 0
        · refine ⟨0, m.relative pc, by decide, ?_⟩
          rw [first]
          exact List.mem_cons_self
        · cases pcs with
          | nil =>
              refine absurd ⟨first, skipped, .inl ?_⟩ loses
              rw [entries]
              rfl
          | cons second rest =>
              have nulled : E.nulls m last pc = true := by
                by_contra kept
                refine loses ⟨first, skipped, .inr ?_⟩
                rw [entries]
                rintro _ ⟨⟩
                exact Bool.eq_false_of_not_eq_true kept
              refine ⟨1, m.relative second, by decide, ?_⟩
              dsimp only
              rw [nulled, if_pos rfl]
              exact List.mem_cons_of_mem _ List.mem_cons_self

/-- The ids of different modules that were not mapped yet are different. -/
def IdsApart (modules : List ModuleInfo) : Prop :=
  ∀ m ∈ modules, ∀ m' ∈ modules, m.mapped = false → m'.mapped = false → m ≠ m' →
    ∀ j < m.guards.length, ∀ j' < m'.guards.length, m.firstId + j ≠ m'.firstId + j'

variable {modules : List ModuleInfo} {map : Pcmap}

/-- If all modules keep their bases, the map is right. -/
theorem pcmapRight_of_keepsBase (start : Pcmap)
    (numbered : ∀ m ∈ modules, m.mapped = false → m.Numbered) (apart : IdsApart modules)
    (keeps : ∀ last m, (last, m) ∈ flagged modules → m.mapped = false → m.KeepsBase E last)
    (fresh : start.written = []) :
    PcmapRight modules (start.writeAll (allWrites E modules)) := by
  have written : (start.writeAll (allWrites E modules)).written = allWrites E modules := by
    rw [Pcmap.written_writeAll, fresh, List.nil_append]
  have inside : ∀ i value, (i, value) ∈ allWrites E modules → ∃ m ∈ modules, m.mapped = false ∧
      ∃ j pc, m.pcs[j]? = some pc ∧ i = m.firstId + j ∧ value = m.relative pc := by
    intro i value member
    obtain ⟨last, m, place, write⟩ := mem_allWrites.mp member
    have here := mem_flagged.mpr ⟨last, place⟩
    cases mapped : m.mapped with
    | true =>
        rw [moduleWrites, if_pos (.inl mapped)] at write
        cases write
    | false =>
        exact ⟨m, here, mapped,
          ((keeps last m place mapped).mem_writes (numbered m here mapped) mapped).mp write⟩
  have below : ∀ m ∈ modules, m.mapped = false → ∀ j pc, m.pcs[j]? = some pc →
      j < m.guards.length := by
    intro m here unmapped j pc found
    rw [← (numbered m here unmapped).table]
    exact (List.getElem?_eq_some_iff.mp found).1
  constructor
  · intro m here unmapped j pc found
    obtain ⟨last, place⟩ := mem_flagged.mp here
    have write : (m.firstId + j, m.relative pc) ∈ allWrites E modules :=
      mem_allWrites.mpr ⟨last, m, place, ((keeps last m place unmapped).mem_writes
        (numbered m here unmapped) unmapped).mpr ⟨j, pc, found, rfl, rfl⟩⟩
    refine ⟨Pcmap.entries_of_agree write fun value other => ?_, by rwa [written]⟩
    obtain ⟨m', here', unmapped', j', pc', found', index, rfl⟩ := inside _ value other
    by_cases same : m = m'
    · subst same
      obtain rfl : j = j' := Nat.add_left_cancel index
      rw [found] at found'
      cases found'
      rfl
    · exact absurd index (apart m here m' here' unmapped unmapped' same j
        (below m here unmapped j pc found) j' (below m' here' unmapped' j' pc' found'))
  · intro i value member
    rw [written] at member
    obtain ⟨m, here, unmapped, j, pc, found, rfl, -⟩ := inside i value member
    have short := below m here unmapped j pc found
    exact ⟨m, here, unmapped, Nat.le_add_right _ _, Nat.add_lt_add_left short _⟩

/-- If the map is right, all modules keep their bases. -/
theorem PcmapRight.keepsBase {start : Pcmap}
    (right : PcmapRight modules (start.writeAll (allWrites E modules)))
    (numbered : ∀ m ∈ modules, m.mapped = false → m.Numbered) (apart : IdsApart modules)
    (fresh : start.written = []) (place : (last, m) ∈ flagged modules)
    (unmapped : m.mapped = false) : m.KeepsBase E last := by
  have written : (start.writeAll (allWrites E modules)).written = allWrites E modules := by
    rw [Pcmap.written_writeAll, fresh, List.nil_append]
  -- nothing is written to the indices 0 and 1
  have high : ∀ i value, (i, value) ∈ allWrites E modules → 2 ≤ i := by
    intro i value member
    obtain ⟨m', here', unmapped', least, -⟩ := right.inside i value (by rwa [written])
    exact (numbered m' here' unmapped').least.trans_le least
  have here := mem_flagged.mpr ⟨last, place⟩
  by_contra loses
  rcases ModuleInfo.writes_of_not_keepsBase (numbered m here unmapped) unmapped loses with
    skipped | ⟨i, value, low, write⟩
  · -- the module was passed over, so that another one would have been written to its first id
    have guards := List.length_pos_of_ne_nil (numbered m here unmapped).nonempty
    have entry : 0 < m.pcs.length := (numbered m here unmapped).table ▸ guards
    have write := (right.entries m here unmapped 0 _ (List.getElem?_eq_getElem entry)).2
    rw [written] at write
    obtain ⟨last', m', place', write'⟩ := mem_allWrites.mp write
    have here' := mem_flagged.mpr ⟨last', place'⟩
    have unmapped' : m'.mapped = false := by
      cases mapped : m'.mapped with
      | false => rfl
      | true =>
          rw [moduleWrites, if_pos (.inl mapped)] at write'
          cases write'
    by_cases keeps : m'.KeepsBase E last'
    · obtain ⟨j, pc, found, index, -⟩ :=
        (keeps.mem_writes (numbered m' here' unmapped') unmapped').mp write'
      have short : j < m'.guards.length := by
        rw [← (numbered m' here' unmapped').table]
        exact (List.getElem?_eq_some_iff.mp found).1
      have other : m ≠ m' := by
        rintro rfl
        exact keeps.lastGuard skipped
      exact apart m here m' here' unmapped unmapped' other 0 guards j short index
    · rcases ModuleInfo.writes_of_not_keepsBase (numbered m' here' unmapped') unmapped' keeps with
        skipped' | ⟨i, value, low, low_write⟩
      · rw [moduleWrites, if_pos (.inr skipped')] at write'
        cases write'
      · have := high i value (mem_allWrites.mpr ⟨last', m', place', low_write⟩)
        omega
  · have := high i value (mem_allWrites.mpr ⟨last, m, place, write⟩)
    omega

/-- **After a call the entries of all modules that were not mapped yet are right, and nothing
outside their ids was written,** exactly if each of these modules still has the ids of its first
and its last guard, and the filter leaves the first guard of the last module alone unless it has
only one. -/
theorem pcmap_right_iff (E : PcEnv) {name : List Byte} {pcs : List (BitVec 64)} {s s' : PcState}
    {start : Pcmap} (run : pcsInit E (some name) pcs s = some s')
    (accepted : s.modules.getLast?.map ModuleInfo.name = some name)
    (attached : s.pcmap = some start)
    (numbered : ∀ m ∈ attachPcs pcs s.modules, m.mapped = false → m.Numbered)
    (apart : IdsApart (attachPcs pcs s.modules)) :
    ∃ map, s'.pcmap = some map ∧
      (PcmapRight (attachPcs pcs s.modules) map ↔
        ∀ last m, (last, m) ∈ flagged (attachPcs pcs s.modules) → m.mapped = false →
          m.KeepsBase E last) := by
  obtain ⟨lastModule, found, same⟩ := Option.map_eq_some_iff.mp accepted
  unfold pcsInit at run
  rw [found, attached] at run
  dsimp only at run
  rw [if_neg (not_not.mpr same.symm)] at run
  obtain ⟨⟨after, map⟩, mapped, rfl⟩ := Option.map_eq_some_iff.mp run
  refine ⟨_, mapModules_writes mapped, ?_, ?_⟩
  · intro right last m place unmapped
    exact right.keepsBase numbered apart rfl place unmapped
  · intro keeps
    exact pcmapRight_of_keepsBase _ numbered apart keeps rfl

/-- A module with three guards from 5 on. -/
def threeGuards : ModuleInfo :=
  { name := [97], baseAddress := 0x1000, guards := [5, 6, 7], pcs := [], mapped := false,
    firstId := 5 }

/-- A filter that lets only the last entry pass. -/
def keepsLast : PcEnv :=
  { mapSize := 65536, pcFilter := some fun pc => pc = 0x1031, filterPcs := none }

/-- A filter that lets the first entry pass. -/
def keepsFirst : PcEnv :=
  { mapSize := 65536, pcFilter := some fun pc => pc = 0x1011, filterPcs := none }

/-- The table of the module. -/
def threePcs : List (BitVec 64) := [0x1011, 0x1021, 0x1031]

theorem pcmap_right_iff_keepsFirst :
    ∃ s' map, pcsInit keepsFirst (some [97]) threePcs ⟨[threeGuards], some ⟨fun _ => 0, []⟩⟩ =
        some s' ∧
      s'.pcmap = some map ∧ PcmapRight (attachPcs threePcs [threeGuards]) map := by
  have returns : ∃ s', pcsInit keepsFirst (some [97]) threePcs
      ⟨[threeGuards], some ⟨fun _ => 0, []⟩⟩ = some s' := ⟨_, rfl⟩
  obtain ⟨s', run⟩ := returns
  have numbered : ∀ m ∈ attachPcs threePcs [threeGuards], m.mapped = false → m.Numbered := by
    intro m member _
    obtain rfl := List.mem_singleton.mp member
    refine ⟨nofun, rfl, by decide, fun j id found => .inr ?_, by decide⟩
    match j with
    | 0 => exact (Option.some.inj found).symm
    | 1 => exact (Option.some.inj found).symm
    | 2 => exact (Option.some.inj found).symm
    | j + 3 => cases found
  have apart : IdsApart (attachPcs threePcs [threeGuards]) := by
    intro m here m' here' _ _ other
    obtain rfl := List.mem_singleton.mp here
    obtain rfl := List.mem_singleton.mp here'
    exact absurd rfl other
  obtain ⟨map, found, iff⟩ := pcmap_right_iff keepsFirst run rfl rfl numbered apart
  refine ⟨s', map, run, found, iff.mpr fun last m place _ => ?_⟩
  obtain ⟨rfl, rfl⟩ := Prod.mk.inj (List.mem_singleton.mp place)
  refine ⟨by decide, by decide, .inr ?_⟩
  rintro pc ⟨⟩
  decide

/-- When the filter sets the first of three guards to 0, the other two entries are written to the
indices 1 and 2. -/
theorem first_guard_nulled :
    (pcsInit keepsLast (some [97]) threePcs
        ⟨[threeGuards], some ⟨fun _ => 0, []⟩⟩).map (fun s => s.pcmap.map Pcmap.written) =
      some (some [(5, 0x10), (1, 0x20), (2, 0x30)]) := by
  decide

end Right

end GreenFuzz.CompilerRt
