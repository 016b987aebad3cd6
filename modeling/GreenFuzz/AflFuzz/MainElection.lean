import GreenFuzz.AflFuzz.SyncImport

/-!
# Electing a main node

Among the instances that share a sync directory, the main node has a marker `is_main_node` in its
output directory. An instance that takes the role should create its own marker, one that gives it
up should remove it, and none should touch the marker of another.

`sync_fuzzers` does so. `check_sync_fuzzers` writes the path of the own marker into one buffer and
opens the path in another, which still holds the marker that was looked for last, in the directory
of a peer. So an instance that elects itself at startup has the role without the marker, and a peer
gets a marker that never asked for one.

`marker_own_iff` says which calls are honest about the marker. In runs of honest calls, whoever has
a marker has the role (`markersTold_of_reachable`).
-/

set_option autoImplicit false

namespace GreenFuzz.AflFuzz

open Library

variable {B : Build} {id name : String} {f g : SyncState} {d d' : SyncDir}

/-! ## Markers -/

/-- The output directory of an instance exists. -/
def SyncDir.HasHome (d : SyncDir) (id : String) : Prop := (d.dirs id).isSome = true

theorem hasMarker_setMarker (d : SyncDir) (id name : String) (marked : Bool) :
    (d.setMarker id marked).hasMarker name =
      if name = id then (d.dirs id).isSome && marked else d.hasMarker name := by
  simp only [SyncDir.hasMarker, SyncDir.setMarker, Function.update_apply]
  by_cases same : name = id
  · rw [if_pos same, if_pos same]
    cases d.dirs id with
    | none => rfl
    | some dir => rfl
  · rw [if_neg same, if_neg same]

theorem hasHome_setMarker (d : SyncDir) (id name : String) (marked : Bool) :
    (d.setMarker id marked).HasHome name ↔ d.HasHome name := by
  simp only [SyncDir.HasHome, SyncDir.setMarker, Function.update_apply]
  by_cases same : name = id
  · rw [if_pos same, same, Option.isSome_map]
  · rw [if_neg same]

/-- A call is honest: the markers of others stay as they are, and who takes the role has one. -/
structure Honest (id : String) (f : SyncState) (d : SyncDir) (g : SyncState) (d' : SyncDir) :
    Prop where
  others : ∀ name, name ≠ id → d'.hasMarker name = d.hasMarker name
  taken : f.isMainNode = false → g.isMainNode = true → d'.hasMarker id = true

/-! ## Syncing -/

/-- The role and the name of the instance. -/
structure SameRole (f g : SyncState) : Prop where
  main : g.isMainNode = f.isMainNode
  syncId : g.syncId = f.syncId

theorem SameRole.refl (f : SyncState) : SameRole f f := ⟨rfl, rfl⟩

theorem SameRole.trans {h : SyncState} (first : SameRole f g) (second : SameRole g h) :
    SameRole f h :=
  ⟨second.main.trans first.main, second.syncId.trans first.syncId⟩

section Roles

variable {peer : String} {queue news : List SavedFile} {cases : String → CaseRun}
  {maxStartId : ℕ} {i j : Import}

theorem sameRole_executeCase {data : List Byte} {case : CaseRun}
    (done : executeCase B data case i = .ok j) : SameRole i.f j.f := by
  simp only [executeCase] at done
  split at done
  · cases done
    exact ⟨rfl, rfl⟩
  · obtain ⟨⟨kept, s⟩, saved, result⟩ := bind_eq_ok_iff.mp done
    cases result
    exact ⟨rfl, rfl⟩

theorem sameRole_importCase {file : SavedFile}
    (done : importCase B peer maxStartId cases i file = .ok j) : SameRole i.f j.f := by
  simp only [importCase] at done
  split at done
  · cases done
    exact SameRole.refl _
  · split at done
    · cases done
      exact ⟨rfl, rfl⟩
    · split at done
      · cases done
        exact ⟨rfl, rfl⟩
      · split at done
        · cases done
          exact ⟨rfl, rfl⟩
        · split at done
          · have same := sameRole_executeCase done
            exact ⟨same.main, same.syncId⟩
          · cases done
            exact ⟨rfl, rfl⟩

theorem sameRole_foldlM (done : news.foldlM (importCase B peer maxStartId cases) i = .ok j) :
    SameRole i.f j.f := by
  induction news generalizing i with
  | nil =>
      cases done
      exact SameRole.refl _
  | cons file news ih =>
      rw [List.foldlM_cons] at done
      obtain ⟨k, visited, rest⟩ := bind_eq_ok_iff.mp done
      exact (sameRole_importCase visited).trans (ih rest)

/-- Importing cases does not change the role. -/
theorem sameRole_syncPeer {dir : InstanceDir} {now : ℕ}
    (done : syncPeer B f peer dir queue now cases = .ok g) : SameRole f g := by
  simp only [syncPeer, syncTouched] at done
  split at done
  · cases done
    exact ⟨rfl, rfl⟩
  · simp only [importCases] at done
    split at done
    · cases done
      exact ⟨rfl, rfl⟩
    · obtain ⟨k, looped, rest⟩ := bind_eq_ok_iff.mp done
      have kept := sameRole_foldlM looped
      split at rest
      · cases rest
        exact ⟨kept.main, kept.syncId⟩
      · cases rest
        exact ⟨kept.main, kept.syncId⟩

end Roles

/-- What a sweep over the sync directory has done to the role and the markers: nothing, or the role
was given up. -/
structure Swept (id : String) (w v : Sweep) : Prop where
  syncId : v.f.syncId = w.f.syncId
  others : ∀ name, name ≠ id → v.d.hasMarker name = w.d.hasMarker name
  homes : ∀ name, v.d.HasHome name ↔ w.d.HasHome name
  role : (v.f.isMainNode = w.f.isMainNode ∧ v.d.hasMarker id = w.d.hasMarker id) ∨
    (v.f.isMainNode = false ∧ v.d.hasMarker id = false)

theorem Swept.refl (id : String) (w : Sweep) : Swept id w w :=
  ⟨rfl, fun _ _ => rfl, fun _ => Iff.rfl, Or.inl ⟨rfl, rfl⟩⟩

theorem Swept.trans {u v w : Sweep} (first : Swept id u v) (second : Swept id v w) :
    Swept id u w where
  syncId := second.syncId.trans first.syncId
  others name apart := (second.others name apart).trans (first.others name apart)
  homes name := (second.homes name).trans (first.homes name)
  role := by
    rcases second.role with ⟨main, marker⟩ | gone
    · rw [main, marker]
      exact first.role
    · exact Or.inr gone

theorem swept_takeRole (w : Sweep) (named : w.f.syncId = id) (name : String) :
    Swept id w (takeRole w name).2 := by
  simp only [takeRole]
  split
  · split
    · split
      · refine ⟨rfl, fun other apart => ?_, fun other => hasHome_setMarker _ _ _ _, ?_⟩
        · show (w.d.setMarker w.f.syncId false).hasMarker other = _
          rw [hasMarker_setMarker, if_neg (by rwa [named])]
        · refine Or.inr ⟨rfl, ?_⟩
          show (w.d.setMarker w.f.syncId false).hasMarker id = _
          rw [hasMarker_setMarker, if_pos named.symm, Bool.and_false]
      · exact Swept.refl id w
    · exact Swept.refl id w
  · exact Swept.refl id w

theorem swept_syncEntry {env : SyncEnv} {w v : Sweep} (named : w.f.syncId = id)
    (done : syncEntry B env w name = .ok v) : Swept id w v := by
  simp only [syncEntry] at done
  split at done
  · cases done
    exact Swept.refl id w
  · have counted : Swept id w { w with entries := w.entries + 1 } :=
      ⟨rfl, fun _ _ => rfl, fun _ => Iff.rfl, Or.inl ⟨rfl, rfl⟩⟩
    have taken := counted.trans
      (swept_takeRole { w with entries := w.entries + 1 } named name)
    split at done
    · cases done
      exact taken
    · split at done
      · cases done
        exact ⟨taken.syncId, taken.others, taken.homes, taken.role⟩
      · split at done
        · cases done
          exact ⟨taken.syncId, taken.others, taken.homes, taken.role⟩
        · obtain ⟨g, synced, result⟩ := bind_eq_ok_iff.mp done
          cases result
          have same := sameRole_syncPeer synced
          refine ⟨same.syncId.trans taken.syncId, taken.others, taken.homes, ?_⟩
          show (g.isMainNode = _ ∧ _) ∨ (g.isMainNode = false ∧ _)
          rw [same.main]
          exact taken.role

theorem swept_foldlM {env : SyncEnv} {names : List String} {w v : Sweep}
    (named : w.f.syncId = id) (done : names.foldlM (syncEntry B env) w = .ok v) :
    Swept id w v := by
  induction names generalizing w with
  | nil =>
      cases done
      exact Swept.refl _ _
  | cons name names ih =>
      rw [List.foldlM_cons] at done
      obtain ⟨u, first, rest⟩ := bind_eq_ok_iff.mp done
      have one := swept_syncEntry named first
      exact one.trans (ih (one.syncId.trans named) rest)

/-- Who has a marker has the role. -/
def MarkerTold (id : String) (f : SyncState) (d : SyncDir) : Prop :=
  d.hasMarker id = true → f.isMainNode = true

/-- Syncing is honest, and the marker of the instance goes with its role. -/
theorem honest_syncFuzzers {env : SyncEnv} (named : f.syncId = id) (home : d.HasHome id)
    (done : syncFuzzers B f d env = .ok (g, d')) :
    Honest id f d g d' ∧ g.syncId = id ∧ (∀ name, d'.HasHome name ↔ d.HasHome name) ∧
      (MarkerTold id f d → MarkerTold id g d') := by
  simp only [syncFuzzers] at done
  split at done
  · cases done
    refine ⟨⟨fun _ _ => rfl, fun plain main => ?_⟩, named, fun _ => Iff.rfl, fun told => told⟩
    rw [plain] at main
    cases main
  · obtain ⟨w, looped, result⟩ := bind_eq_ok_iff.mp done
    have swept := swept_foldlM named looped
    have result := Except.ok.inj result
    have named' : w.f.syncId = id := swept.syncId.trans named
    simp only [electSelf] at result
    split at result
    · -- elected: the own marker is created
      cases result
      have there : w.d.HasHome id := (swept.homes id).mpr home
      have marked : (w.d.setMarker w.f.syncId true).hasMarker id = true := by
        rw [named', hasMarker_setMarker, if_pos rfl, Bool.and_true]
        exact there
      refine ⟨⟨fun name apart => ?_, fun _ _ => marked⟩, named', fun name => ?_, fun _ _ => rfl⟩
      · rw [named', hasMarker_setMarker, if_neg apart]
        exact swept.others name apart
      · exact (hasHome_setMarker _ _ _ _).trans (swept.homes name)
    · cases result
      refine ⟨⟨swept.others, fun plain main => ?_⟩, named', swept.homes, fun told marked => ?_⟩
      · rcases swept.role with ⟨same, -⟩ | ⟨gone, -⟩
        · rw [same] at main
          rw [show f.isMainNode = false from plain] at main
          cases main
        · rw [gone] at main
          cases main
      · rcases swept.role with ⟨same, marker⟩ | ⟨-, unmarked⟩
        · rw [same]
          exact told (marker.symm.trans marked)
        · rw [unmarked] at marked
          cases marked

/-! ## The search at startup -/

/-- What `check_sync_fuzzers` is looking for: nobody syncs, the instance is the main node, or a peer
has a marker. -/
def FindsMain (f : SyncState) (d : SyncDir) : Prop :=
  f.aflNoSync = true ∨ f.isMainNode = true ∨
    ∃ name ∈ d.names, f.passesOver name = false ∧ d.hasMarker name = true

/-- There is no peer to look at, and the buffer that was never written holds the path of the own
marker. -/
def LuckyBuffer (f : SyncState) (d : SyncDir) (uninitialized : Option String) : Prop :=
  (∀ name ∈ d.names, f.passesOver name = true) ∧ uninitialized = some f.syncId

/-- The search after some of the names. -/
structure Searched (d : SyncDir) (names : List String) (start search : MainSearch) : Prop where
  main : search.f.isMainNode = start.f.isMainNode
  syncId : search.f.syncId = start.f.syncId
  found : search.haveMain = true ↔ start.haveMain = true ∨
    ∃ name ∈ names, start.f.passesOver name = false ∧ d.hasMarker name = true
  buffer : search.haveMain = false →
    ((∀ name ∈ names, start.f.passesOver name = true) ∧ search.qdMainPath = start.qdMainPath) ∨
      ∃ name ∈ names, start.f.passesOver name = false ∧ search.qdMainPath = some name

theorem passesOver_congr (same : g.syncId = f.syncId) (name : String) :
    g.passesOver name = f.passesOver name := by
  rw [SyncState.passesOver, SyncState.passesOver, same]

theorem sameRole_noteMax (f : SyncState) (d : SyncDir) (name : String) :
    SameRole f (noteMax f d name) := by
  simp only [noteMax]
  split
  · exact SameRole.refl f
  · split
    · exact ⟨rfl, rfl⟩
    · exact SameRole.refl f

/-- One entry of the search. -/
theorem checkSyncEntry_cases (d : SyncDir) (search : MainSearch) (name : String) :
    SameRole search.f (checkSyncEntry d search name).f ∧
      ((search.f.passesOver name = true ∧ checkSyncEntry d search name = search) ∨
        (search.f.passesOver name = false ∧
          ((search.haveMain = true ∧ (checkSyncEntry d search name).haveMain = true) ∨
            (search.haveMain = false ∧
              (checkSyncEntry d search name).haveMain = d.hasMarker name ∧
              (checkSyncEntry d search name).qdMainPath = some name)))) := by
  have role := sameRole_noteMax search.f d name
  simp only [checkSyncEntry]
  split
  · rename_i passed
    exact ⟨SameRole.refl _, Or.inl ⟨passed, rfl⟩⟩
  · rename_i looked
    cases found : search.haveMain with
    | true => exact ⟨role, Or.inr ⟨eq_false_of_ne_true looked, Or.inl ⟨rfl, rfl⟩⟩⟩
    | false => exact ⟨role, Or.inr ⟨eq_false_of_ne_true looked, Or.inr ⟨rfl, rfl, rfl⟩⟩⟩

theorem searched_foldl (d : SyncDir) (names : List String) (start : MainSearch) :
    Searched d names start (names.foldl (checkSyncEntry d) start) := by
  induction names generalizing start with
  | nil => exact ⟨rfl, rfl, by simp, fun _ => Or.inl ⟨by simp, rfl⟩⟩
  | cons name names ih =>
      rw [List.foldl_cons]
      have rest := ih (checkSyncEntry d start name)
      obtain ⟨role, cases⟩ := checkSyncEntry_cases d start name
      have passes (other : String) : (checkSyncEntry d start name).f.passesOver other =
          start.f.passesOver other := passesOver_congr role.syncId other
      refine ⟨rest.main.trans role.main, rest.syncId.trans role.syncId, ?_, ?_⟩
      · rw [rest.found]
        simp only [passes, List.exists_mem_cons_iff]
        rcases cases with ⟨passed, same⟩ | ⟨looked, ⟨before, after⟩ | ⟨before, after, -⟩⟩
        · simp [same, passed]
        · simp [before, after]
        · simp [before, after, looked]
      · intro none
        rcases rest.buffer none with ⟨quiet, same⟩ | ⟨other, later, looked, path⟩
        · rcases cases with ⟨passed, unchanged⟩ | ⟨looked, ⟨before, after⟩ | ⟨before, after, path⟩⟩
          · refine Or.inl ⟨fun other member => ?_, by rw [same, unchanged]⟩
            rcases List.mem_cons.mp member with rfl | later
            · exact passed
            · rw [← passes]
              exact quiet other later
          · exfalso
            have main := rest.found.mpr (Or.inl after)
            rw [none] at main
            cases main
          · exact Or.inr ⟨name, List.mem_cons_self, looked, same.trans path⟩
        · exact Or.inr ⟨other, List.mem_cons_of_mem _ later, (passes other).symm.trans looked, path⟩

/-- What a search at startup comes to. -/
theorem checkSyncFuzzers_cases (f : SyncState) (d : SyncDir) (uninitialized : Option String) :
    (FindsMain f d ∧ SameRole f (checkSyncFuzzers f d uninitialized).1 ∧
      (checkSyncFuzzers f d uninitialized).2 = d) ∨
    (¬ FindsMain f d ∧ f.isMainNode = false ∧
      (checkSyncFuzzers f d uninitialized).1.isMainNode = true ∧
      (checkSyncFuzzers f d uninitialized).1.syncId = f.syncId ∧
      ((∀ name ∈ d.names, f.passesOver name = true) ∧ uninitialized = none ∧
          (checkSyncFuzzers f d uninitialized).2 = d ∨
        ∃ opened, (checkSyncFuzzers f d uninitialized).2 = d.setMarker opened true ∧
          ((∀ name ∈ d.names, f.passesOver name = true) ∧ uninitialized = some opened ∨
            opened ∈ d.names ∧ f.passesOver opened = false))) := by
  have searched := searched_foldl d d.names
    { f := f, haveMain := f.isMainNode, qdMainPath := uninitialized }
  simp only [checkSyncFuzzers]
  by_cases alone : f.aflNoSync = true
  · rw [if_pos alone]
    exact Or.inl ⟨Or.inl alone, SameRole.refl f, rfl⟩
  · rw [if_neg alone]
    generalize d.names.foldl (checkSyncEntry d)
      { f := f, haveMain := f.isMainNode, qdMainPath := uninitialized } = search at searched ⊢
    have found : search.haveMain = true ↔ FindsMain f d := by
      rw [searched.found]
      exact (or_iff_right alone).symm
    cases main : search.haveMain with
    | true => exact Or.inl ⟨found.mp main, ⟨searched.main, searched.syncId⟩, rfl⟩
    | false =>
        have lost : ¬ FindsMain f d := fun finds => by
          rw [found.mpr finds] at main
          cases main
        have plain : f.isMainNode = false :=
          eq_false_of_ne_true fun here => lost (Or.inr (Or.inl here))
        refine Or.inr ⟨lost, plain, rfl, searched.syncId, ?_⟩
        rcases searched.buffer main with ⟨quiet, path⟩ | ⟨opened, listed, looked, path⟩
        · cases written : uninitialized with
          | none => exact Or.inl ⟨quiet, rfl, by rw [path, written]; rfl⟩
          | some opened =>
              exact Or.inr ⟨opened, by rw [path, written]; rfl, Or.inl ⟨quiet, rfl⟩⟩
        · exact Or.inr ⟨opened, by rw [path]; rfl, Or.inr ⟨listed, looked⟩⟩

/-- **A search at startup is honest exactly when it finds a main node**, or when there is no peer
and the buffer is lucky. -/
theorem honest_check_iff {uninitialized : Option String} (named : f.syncId = id)
    (home : d.HasHome id) (told : MarkerTold id f d) :
    Honest id f d (checkSyncFuzzers f d uninitialized).1 (checkSyncFuzzers f d uninitialized).2 ↔
      FindsMain f d ∨ LuckyBuffer f d uninitialized := by
  rcases checkSyncFuzzers_cases f d uninitialized with
    ⟨finds, role, same⟩ | ⟨lost, plain, main, -, opened⟩
  · refine iff_of_true ⟨fun name _ => by rw [same], fun before after => ?_⟩ (Or.inl finds)
    rw [role.main, before] at after
    cases after
  · rw [or_iff_right lost]
    have unmarked : d.hasMarker id = false :=
      eq_false_of_ne_true fun marked => by
        rw [told marked] at plain
        cases plain
    constructor
    · intro honest
      have marked := honest.taken plain main
      rcases opened with ⟨-, -, same⟩ | ⟨opened, result, path⟩
      · rw [same, unmarked] at marked
        cases marked
      · rw [result, hasMarker_setMarker] at marked
        have own : id = opened := by
          by_contra apart
          rw [if_neg apart, unmarked] at marked
          cases marked
        rcases path with ⟨quiet, written⟩ | ⟨-, looked⟩
        · exact ⟨quiet, by rw [written, named, own]⟩
        · rw [← own, ← named] at looked
          simp [SyncState.passesOver] at looked
    · rintro ⟨quiet, written⟩
      rcases opened with ⟨-, none, -⟩ | ⟨opened, result, path⟩
      · rw [none] at written
        cases written
      · have own : opened = id := by
          rcases path with ⟨-, here⟩ | ⟨listed, looked⟩
          · rw [written, named] at here
            exact (Option.some.inj here).symm
          · rw [quiet opened listed] at looked
            cases looked
        rw [result, own]
        refine ⟨fun name apart => ?_, fun _ _ => ?_⟩
        · rw [hasMarker_setMarker, if_neg apart]
        · rw [hasMarker_setMarker, if_pos rfl, Bool.and_true]
          exact home

/-! ## Runs -/

/-- The instances by name, and the sync directory that they share. -/
structure Fleet where
  f : String → SyncState
  d : SyncDir

/-- What the instance `id` makes of the state, with its new own state and the new directory. -/
def Fleet.update (s : Fleet) (id : String) (g : SyncState) (d : SyncDir) : Fleet :=
  ⟨Function.update s.f id g, d⟩

/-- A call of one of the two functions. -/
inductive Call where
  | check (uninitialized : Option String)
  | sync (env : SyncEnv)

/-- The instance `id` makes a call, which returns. -/
inductive CallsOf (B : Build) (id : String) : Call → Fleet → Fleet → Prop where
  | check (s : Fleet) (uninitialized : Option String) (home : s.d.HasHome id) :
      CallsOf B id (.check uninitialized) s
        (s.update id (checkSyncFuzzers (s.f id) s.d uninitialized).1
          (checkSyncFuzzers (s.f id) s.d uninitialized).2)
  | sync (s : Fleet) (env : SyncEnv) (g : SyncState) (d : SyncDir) (home : s.d.HasHome id)
      (done : syncFuzzers B (s.f id) s.d env = .ok (g, d)) :
      CallsOf B id (.sync env) s (s.update id g d)

/-- When a call is honest about the marker: a search at startup has to find a main node. -/
def FindsOrSyncs (s : Fleet) (id : String) : Call → Prop
  | .check uninitialized =>
      FindsMain (s.f id) s.d ∨ LuckyBuffer (s.f id) s.d uninitialized
  | .sync _ => True

/-- Work that leaves the roles and the markers alone. -/
structure KeepsRoles (s t : Fleet) : Prop where
  roles : ∀ id, SameRole (s.f id) (t.f id)
  markers : ∀ id, t.d.hasMarker id = s.d.hasMarker id

/-- Runs all of whose searches find a main node. At first whoever has a marker was configured as
the main node. -/
def electionSystem (B : Build) : TransitionSystem Fleet where
  init := fun s => ∀ id, (s.f id).syncId = id ∧ MarkerTold id (s.f id) s.d
  step := fun s t => KeepsRoles s t ∨
    ∃ id call, CallsOf B id call s t ∧ FindsOrSyncs s id call

variable {s t : Fleet} {call : Call}

theorem update_f_self (s : Fleet) (id : String) (g : SyncState) (d : SyncDir) :
    (s.update id g d).f id = g := Function.update_self ..

theorem update_f_of_ne {other : String} (apart : other ≠ id) (s : Fleet) (g : SyncState)
    (d : SyncDir) : (s.update id g d).f other = s.f other := Function.update_of_ne apart ..

/-- A call is honest exactly if it does not fail to find a main node. -/
theorem honest_call_iff (named : (s.f id).syncId = id) (told : MarkerTold id (s.f id) s.d)
    (calls : CallsOf B id call s t) :
    Honest id (s.f id) s.d (t.f id) t.d ↔ FindsOrSyncs s id call := by
  cases calls with
  | check _ uninitialized home =>
      rw [update_f_self]
      exact honest_check_iff named home told
  | sync _ env g d home done =>
      rw [update_f_self]
      exact iff_of_true (honest_syncFuzzers named home done).1 trivial

/-- Nobody but the caller changes, and the caller keeps its name. -/
theorem CallsOf.others (calls : CallsOf B id call s t) (named : (s.f id).syncId = id) :
    (∀ other, other ≠ id → t.f other = s.f other) ∧ (t.f id).syncId = id := by
  cases calls with
  | check _ uninitialized home =>
      refine ⟨fun other apart => update_f_of_ne apart _ _ _, ?_⟩
      rw [update_f_self]
      rcases checkSyncFuzzers_cases (s.f id) s.d uninitialized with
        ⟨-, role, -⟩ | ⟨-, -, -, syncId, -⟩
      · exact role.syncId.trans named
      · exact syncId.trans named
  | sync _ env g d home done =>
      refine ⟨fun other apart => update_f_of_ne apart _ _ _, ?_⟩
      rw [update_f_self]
      exact (honest_syncFuzzers named home done).2.1

/-- The caller has the role if it has the marker after the call. -/
theorem CallsOf.told (calls : CallsOf B id call s t) (named : (s.f id).syncId = id)
    (told : MarkerTold id (s.f id) s.d) : MarkerTold id (t.f id) t.d := by
  cases calls with
  | check _ uninitialized home =>
      rw [update_f_self]
      rcases checkSyncFuzzers_cases (s.f id) s.d uninitialized with
        ⟨-, role, same⟩ | ⟨-, -, main, -, -⟩
      · intro marked
        rw [role.main]
        refine told ?_
        rw [← same]
        exact marked
      · exact fun _ => main
  | sync _ env g d home done =>
      rw [update_f_self]
      exact (honest_syncFuzzers named home done).2.2.2 told

/-- In runs of honest calls every instance with a marker has the role. -/
theorem markersTold_of_reachable (run : Reachable (electionSystem B) s) :
    ∀ id, (s.f id).syncId = id ∧ MarkerTold id (s.f id) s.d := by
  refine Reachable.invariant (fun s start => start) ?_ run
  rintro s t - before (kept | ⟨caller, call, calls, finds⟩) id
  · refine ⟨(kept.roles id).syncId.trans (before id).1, fun marked => ?_⟩
    rw [(kept.roles id).main]
    refine (before id).2 ?_
    rw [← kept.markers id]
    exact marked
  · obtain ⟨named, told⟩ := before caller
    have honest := (honest_call_iff named told calls).mpr finds
    obtain ⟨others, caller_named⟩ := calls.others named
    by_cases same : id = caller
    · subst same
      exact ⟨caller_named, calls.told named told⟩
    · rw [others id same]
      refine ⟨(before id).1, fun marked => ?_⟩
      rw [honest.others id same] at marked
      exact (before id).2 marked

/-- **Which calls are honest about the markers.** In runs whose searches at startup all find a main
node, every instance with a marker has the role, and any next call of one of the two functions
touches no other marker, and creates the own one when it takes the role, if and only if it is not a
search that fails to find a main node. -/
theorem marker_own_iff (run : Reachable (electionSystem B) s) :
    (∀ id, s.d.hasMarker id = true → (s.f id).isMainNode = true) ∧
      ∀ id call t, CallsOf B id call s t →
        (Honest id (s.f id) s.d (t.f id) t.d ↔ FindsOrSyncs s id call) := by
  have told := markersTold_of_reachable run
  exact ⟨fun id => (told id).2, fun id call t calls =>
    honest_call_iff (told id).1 (told id).2 calls⟩

/-- Two secondaries `a` and `b`, where `b` may have been configured as the main node. -/
def twoInstances (main : Bool) : Fleet where
  f := fun id =>
    { s := { afl := { mapSize := 64 } }, syncId := id, isMainNode := main && id == "b" }
  d :=
    { names := ["a", "b"]
      dirs := fun name =>
        if name = "a" then some {} else if name = "b" then some { isMainNode := main } else none }

theorem told_twoInstances (main : Bool) (id : String) :
    ((twoInstances main).f id).syncId = id ∧
      MarkerTold id ((twoInstances main).f id) (twoInstances main).d := by
  refine ⟨rfl, fun marked => ?_⟩
  simp only [twoInstances, SyncDir.hasMarker] at marked ⊢
  by_cases first : id = "a"
  · simp [first] at marked
  · by_cases second : id = "b"
    · simpa [second] using marked
    · simp [first, second] at marked

/-- A secondary that finds a main node leaves the markers alone. -/
theorem marker_own_found :
    Honest "a" ((twoInstances true).f "a") (twoInstances true).d
      (checkSyncFuzzers ((twoInstances true).f "a") (twoInstances true).d none).1
      (checkSyncFuzzers ((twoInstances true).f "a") (twoInstances true).d none).2 := by
  have run : Reachable (electionSystem trivialBuild) (twoInstances true) :=
    Reachable.init (told_twoInstances true)
  have honest := ((marker_own_iff run).2 "a" _ _
    (CallsOf.check (twoInstances true) none rfl)).mpr
      (Or.inl (Or.inr (Or.inr ⟨"b", by decide, by decide, by decide⟩)))
  rw [update_f_self] at honest
  exact honest

/-- A secondary that finds none takes the role, and creates the marker of its peer. -/
theorem marker_of_peer_created :
    Reachable (electionSystem trivialBuild) (twoInstances false) ∧
      ∃ t, CallsOf trivialBuild "a" (.check none) (twoInstances false) t ∧
        (t.f "a").isMainNode = true ∧ t.d.hasMarker "a" = false ∧
          t.d.hasMarker "b" = true ∧ (t.f "b").isMainNode = false := by
  refine ⟨Reachable.init (told_twoInstances false), _,
    CallsOf.check (twoInstances false) none rfl, ?_, ?_, ?_, ?_⟩
  · decide +kernel
  · decide +kernel
  · decide +kernel
  · decide +kernel

end GreenFuzz.AflFuzz
