import GreenFuzz.AflFuzz.NumberedNames
import GreenFuzz.AflFuzz.SyncFuzzers
import Mathlib.Data.List.TakeWhile

/-!
# Importing the cases of a peer

An instance should import every case of a peer exactly once, in the order of their numbers, while
the peer keeps adding cases. It remembers how many it has seen, and looks for the next one by the
first nine characters of its name in a listing sorted by names.

With numbers of six digits the listing is in the order of the numbers, and the nine characters are
those of one name. Then a sync goes on exactly where the last one stopped
(`newCases_numbered`). With a million cases `id:100000` is the beginning of two names, and
`id:1000000` stands before `id:100001`.

`handled_iff` says which syncs keep the promise, after syncs that have kept it: those that find no
cases at all, and those that have seen fewer than a million cases, find at most a million, and do
not take the peer for restarted.
-/

set_option autoImplicit false

namespace GreenFuzz.AflFuzz

open Library

variable {B : Build} {peer : String} {f g : SyncState} {files queue news : List SavedFile}
  {cases : String → CaseRun} {maxStartId : ℕ} {i j : Import}

/-! ## One case -/

/-- What became of a case is right: it was executed, or there was a reason to skip it. -/
def Rightly (syncId : String) (file : SavedFile) : Visit → Prop
  | .unreadable => False
  | .empty => file.data = []
  | .oversized => maxFile < file.data.length
  | .known => isKnownCase syncId file.name = true
  | .executed => True

/-- The visits are to these cases, one to each, in their order. -/
def VisitsOf (syncId : String) (files : List SavedFile) (visits : List (String × Visit)) : Prop :=
  List.Forall₂ (fun file visit => visit.1 = file.name ∧ Rightly syncId file visit.2) files visits

/-- What a case does to the loop: it is visited, and counted. -/
structure VisitsCase (peer : String) (file : SavedFile) (i j : Import) : Prop where
  notes : j.f.notes = i.f.notes
  syncId : j.f.syncId = i.f.syncId
  next : j.nextMinAccept = u32 (i.nextMinAccept + 1)
  visit : ∃ what, Rightly i.f.syncId file what ∧
    j.f.visits peer = i.f.visits peer ++ [(file.name, what)]
  stops : j.stopped = true → j.f.s.afl.stopSoon = true

theorem executeCase_ok {data : List Byte} {case : CaseRun}
    (done : executeCase B data case i = .ok j) :
    j.f.notes = i.f.notes ∧ j.f.syncId = i.f.syncId ∧ j.nextMinAccept = i.nextMinAccept ∧
      j.f.visits = i.f.visits ∧
      (i.stopped = false → j.stopped = true → j.f.s.afl.stopSoon = true) := by
  simp only [executeCase] at done
  split at done
  · rename_i stops
    cases done
    exact ⟨rfl, rfl, rfl, rfl, fun _ _ => stops⟩
  · obtain ⟨⟨kept, s⟩, saved, result⟩ := bind_eq_ok_iff.mp done
    cases result
    refine ⟨rfl, rfl, rfl, rfl, fun going stopped => ?_⟩
    rw [going] at stopped
    cases stopped

theorem visitsCase_visit (peer : String) {file : SavedFile} {what : Visit}
    (going : i.stopped = false) (right : Rightly i.f.syncId file what) :
    VisitsCase peer file i (i.visit peer file.name what) := by
  refine ⟨rfl, rfl, rfl, ⟨what, right, ?_⟩, fun stopped => ?_⟩
  · exact Function.update_self ..
  · rw [show (i.visit peer file.name what).stopped = i.stopped from rfl, going] at stopped
    cases stopped

theorem visitsCase_importCase {file : SavedFile} (readable : (cases file.name).readable = true)
    (going : i.stopped = false) (done : importCase B peer maxStartId cases i file = .ok j) :
    VisitsCase peer file i j := by
  simp only [importCase, going, readable, Bool.false_eq_true, Bool.not_true, if_false] at done
  split at done
  · rename_i empty
    cases done
    exact visitsCase_visit peer going empty
  · split at done
    · rename_i large
      cases done
      exact visitsCase_visit peer going large
    · split at done
      · have rightly : Rightly i.f.syncId file .executed := trivial
        have visited := visitsCase_visit peer going rightly
        obtain ⟨notes, syncId, next, visits, stops⟩ := executeCase_ok done
        obtain ⟨what, right, visit⟩ := visited.visit
        exact ⟨notes, syncId, next, ⟨what, right, by rw [visits, visit]⟩, stops going⟩
      · rename_i known
        cases done
        refine visitsCase_visit peer going ?_
        show isKnownCase i.f.syncId file.name = true
        simpa using (not_or.mp known).2

theorem importCase_stopped {file : SavedFile} (stopped : i.stopped = true) :
    importCase B peer maxStartId cases i file = .ok i := by
  simp only [importCase, stopped, if_true]

/-! ## One sync -/

/-- A loop that was stopped stays stopped. -/
theorem foldlM_importCase_stopped (news : List SavedFile) (stopped : i.stopped = true) :
    news.foldlM (importCase B peer maxStartId cases) i = .ok i := by
  induction news with
  | nil => rfl
  | cons file news ih =>
      rw [List.foldlM_cons, importCase_stopped stopped]
      exact ih

/-- What the loop does to the cases, unless it is stopped. -/
structure VisitsAll (peer : String) (news : List SavedFile) (i j : Import) : Prop where
  notes : j.f.notes = i.f.notes
  syncId : j.f.syncId = i.f.syncId
  next : j.nextMinAccept = u32 (i.nextMinAccept + news.length)
  visits : ∃ visits, VisitsOf i.f.syncId news visits ∧
    j.f.visits peer = i.f.visits peer ++ visits

theorem foldlM_importCase (readable : ∀ name, (cases name).readable = true)
    (going : i.stopped = false) (small : i.nextMinAccept < 2 ^ 32)
    (done : news.foldlM (importCase B peer maxStartId cases) i = .ok j)
    (goesOn : j.f.s.afl.stopSoon = false) : VisitsAll peer news i j ∧ j.stopped = false := by
  induction news generalizing i with
  | nil =>
      cases done
      refine ⟨⟨rfl, rfl, (Nat.mod_eq_of_lt small).symm, [], List.Forall₂.nil, ?_⟩, going⟩
      rw [List.append_nil]
  | cons file news ih =>
      rw [List.foldlM_cons] at done
      obtain ⟨k, visited, rest⟩ := bind_eq_ok_iff.mp done
      have one := visitsCase_importCase (readable file.name) going visited
      obtain ⟨what, right, visit⟩ := one.visit
      cases stopped : k.stopped with
      | true =>
          rw [foldlM_importCase_stopped news stopped] at rest
          cases rest
          rw [one.stops stopped] at goesOn
          cases goesOn
      | false =>
          have inside : k.nextMinAccept < 2 ^ 32 := by
            rw [one.next]
            exact Nat.mod_lt _ (by decide)
          obtain ⟨all, last⟩ := ih stopped inside rest
          obtain ⟨visits, rightly, visited⟩ := all.visits
          rw [one.syncId] at rightly
          refine ⟨⟨all.notes.trans one.notes, all.syncId.trans one.syncId, ?_,
            (file.name, what) :: visits, List.Forall₂.cons ⟨rfl, right⟩ rightly, ?_⟩, last⟩
          · rw [all.next, one.next, u32, u32, u32, Nat.mod_add_mod, List.length_cons]
            congr 1
            omega
          · rw [visited, visit, List.append_assoc]
            rfl

/-- What a sync that is not stopped does, when it comes to the cases. -/
structure Imports (peer : String) (news : List SavedFile) (f g : SyncState) : Prop where
  syncId : g.syncId = f.syncId
  seen : (g.notes peer).seen = u32 ((f.notes peer).seen + news.length)
  visits : ∃ visits, VisitsOf f.syncId news visits ∧ g.visits peer = f.visits peer ++ visits

theorem dropMax_counter (notes : SyncNotes) : notes.dropMax.counter = notes.counter := by
  simp only [SyncNotes.dropMax]
  split
  · split
    · rfl
    · rfl
  · rfl

theorem modifyNotes_self (f : SyncState) (peer : String) (change : SyncNotes → SyncNotes) :
    (f.modifyNotes peer change).notes peer = change (f.notes peer) := Function.update_self ..

theorem imports_of_importCases (readable : ∀ name, (cases name).readable = true)
    (small : (f.notes peer).seen < 2 ^ 32) (done : importCases B f peer queue cases = .ok g)
    (goesOn : g.s.afl.stopSoon = false) :
    Imports peer (newCases (f.notes peer).seen queue) f g := by
  have kept : ((f.modifyNotes peer SyncNotes.dropMax).notes peer).seen = (f.notes peer).seen := by
    rw [modifyNotes_self, SyncNotes.seen, dropMax_counter]
    rfl
  simp only [importCases] at done
  split at done
  · rename_i none
    cases done
    rw [none]
    refine ⟨rfl, ?_, [], List.Forall₂.nil, (List.append_nil _).symm⟩
    rw [kept]
    exact (Nat.mod_eq_of_lt small).symm
  · obtain ⟨i, looped, rest⟩ := bind_eq_ok_iff.mp done
    have going : i.f.s.afl.stopSoon = false := by
      split at rest
      · cases rest
        exact goesOn
      · cases rest
        exact goesOn
    obtain ⟨all, last⟩ := foldlM_importCase readable rfl small looped going
    rw [if_neg (by rw [last]; decide)] at rest
    cases rest
    refine ⟨all.syncId, ?_, all.visits⟩
    rw [modifyNotes_self, ← all.next]
    rfl

theorem touchLast_seen (f : SyncState) (peer : String) (now : ℕ) :
    ((f.touchLast peer now).notes peer).seen = (f.notes peer).seen := by
  rw [SyncState.touchLast, modifyNotes_self]
  rfl

/-- The check for a restart looks at the time of the attempt. -/
theorem looksRestarted_touched (f : SyncState) (peer : String) (now : ℕ) (dir : InstanceDir) :
    looksRestarted ((f.touchLast peer now).notes peer) dir =
      looksRestarted { last := some now } dir := by
  rw [SyncState.touchLast, modifyNotes_self]
  rfl

/-- A sync either takes the peer for restarted, or comes to the cases. -/
theorem syncPeer_cases {dir : InstanceDir} {now : ℕ}
    (readable : ∀ name, (cases name).readable = true) (small : (f.notes peer).seen < 2 ^ 32)
    (done : syncPeer B f peer dir queue now cases = .ok g) (goesOn : g.s.afl.stopSoon = false) :
    (looksRestarted { last := some now } dir = true ∧ (g.notes peer).seen = 0 ∧
      g.visits = f.visits ∧ g.syncId = f.syncId) ∨
    (looksRestarted { last := some now } dir = false ∧
      Imports peer (newCases (f.notes peer).seen queue) f g) := by
  rw [syncPeer, syncTouched, looksRestarted_touched] at done
  split at done
  · rename_i restarted
    cases done
    refine Or.inl ⟨restarted, ?_, rfl, rfl⟩
    rw [modifyNotes_self]
    rfl
  · rename_i running
    have imports := imports_of_importCases readable (by rwa [touchLast_seen]) done goesOn
    rw [touchLast_seen] at imports
    refine Or.inr ⟨eq_false_of_ne_true running, imports.syncId, ?_, imports.visits⟩
    rw [imports.seen, touchLast_seen]

/-! ## All the peers -/

/-- Work that does not concern the peer. -/
structure KeepsPeer (peer : String) (f g : SyncState) : Prop where
  counter : (g.notes peer).counter = (f.notes peer).counter
  visits : g.visits peer = f.visits peer
  syncId : g.syncId = f.syncId

theorem KeepsPeer.refl (peer : String) (f : SyncState) : KeepsPeer peer f f := ⟨rfl, rfl, rfl⟩

theorem KeepsPeer.trans {h : SyncState} (first : KeepsPeer peer f g) (second : KeepsPeer peer g h) :
    KeepsPeer peer f h :=
  ⟨second.counter.trans first.counter, second.visits.trans first.visits,
    second.syncId.trans first.syncId⟩

variable {other : String}

theorem keepsPeer_modifyNotes (apart : peer ≠ other) (f : SyncState)
    (change : SyncNotes → SyncNotes) : KeepsPeer peer f (f.modifyNotes other change) := by
  refine ⟨?_, rfl, rfl⟩
  show (Function.update f.notes other _ peer).counter = _
  rw [Function.update_of_ne apart]

theorem keepsPeer_visit (apart : peer ≠ other) (i : Import) (name : String) (what : Visit) :
    KeepsPeer peer i.f (i.visit other name what).f := by
  refine ⟨rfl, ?_, rfl⟩
  show Function.update i.f.visits other _ peer = _
  rw [Function.update_of_ne apart]

theorem keepsPeer_importCase (apart : peer ≠ other) {file : SavedFile}
    (done : importCase B other maxStartId cases i file = .ok j) : KeepsPeer peer i.f j.f := by
  have visited := keepsPeer_visit apart i file.name
  simp only [importCase] at done
  split at done
  · cases done
    exact KeepsPeer.refl _ _
  · split at done
    · cases done
      exact visited .unreadable
    · split at done
      · cases done
        exact visited .empty
      · split at done
        · cases done
          exact visited .oversized
        · split at done
          · obtain ⟨notes, syncId, -, visits, -⟩ := executeCase_ok done
            have kept := visited .executed
            exact ⟨by rw [notes]; exact kept.counter, by rw [visits]; exact kept.visits,
              syncId.trans kept.syncId⟩
          · cases done
            exact visited .known

theorem keepsPeer_foldlM (apart : peer ≠ other)
    (done : news.foldlM (importCase B other maxStartId cases) i = .ok j) :
    KeepsPeer peer i.f j.f := by
  induction news generalizing i with
  | nil =>
      cases done
      exact KeepsPeer.refl _ _
  | cons file news ih =>
      rw [List.foldlM_cons] at done
      obtain ⟨k, visited, rest⟩ := bind_eq_ok_iff.mp done
      exact (keepsPeer_importCase apart visited).trans (ih rest)

/-- Syncing from another peer does not concern this one. -/
theorem keepsPeer_syncPeer (apart : peer ≠ other) {dir : InstanceDir} {now : ℕ}
    (done : syncPeer B f other dir queue now cases = .ok g) : KeepsPeer peer f g := by
  have touched := keepsPeer_modifyNotes apart f fun notes => { notes with last := some now }
  simp only [syncPeer, syncTouched] at done
  split at done
  · cases done
    exact touched.trans (keepsPeer_modifyNotes apart _ _)
  · refine touched.trans ?_
    simp only [importCases] at done
    split at done
    · cases done
      exact keepsPeer_modifyNotes apart _ _
    · obtain ⟨k, looped, rest⟩ := bind_eq_ok_iff.mp done
      have kept := (keepsPeer_modifyNotes apart _ _).trans (keepsPeer_foldlM apart looped)
      split at rest
      · cases rest
        exact kept
      · cases rest
        exact kept.trans (keepsPeer_modifyNotes apart _ _)

/-- The instance synced from the peer once, among other work. -/
def SyncsOnce (B : Build) (env : SyncEnv) (peer : String) (f g : SyncState) : Prop :=
  ∃ before after dir queue, KeepsPeer peer f before ∧ dir.queue = some queue ∧
    syncPeer B before peer dir queue (env.now peer) (env.cases peer) = .ok after ∧
      KeepsPeer peer after g

theorem takeRole_keepsPeer (peer name : String) (w : Sweep) :
    KeepsPeer peer w.f (takeRole w name).2.f := by
  simp only [takeRole]
  split
  · split
    · split
      · exact ⟨rfl, rfl, rfl⟩
      · exact KeepsPeer.refl _ _
    · exact KeepsPeer.refl _ _
  · exact KeepsPeer.refl _ _

/-- An entry of the sync directory is passed over, or synced from. -/
theorem syncEntry_cases (peer : String) {env : SyncEnv} {w v : Sweep} {name : String}
    (done : syncEntry B env w name = .ok v) :
    KeepsPeer peer w.f v.f ∨ name = peer ∧ SyncsOnce B env peer w.f v.f := by
  simp only [syncEntry] at done
  split at done
  · cases done
    exact Or.inl (KeepsPeer.refl _ _)
  · have kept := takeRole_keepsPeer peer name { w with entries := w.entries + 1 }
    split at done
    · cases done
      exact Or.inl kept
    · split at done
      · cases done
        exact Or.inl kept
      · rename_i dir there
        split at done
        · cases done
          exact Or.inl kept
        · rename_i queue listed
          obtain ⟨g, synced, result⟩ := bind_eq_ok_iff.mp done
          cases result
          by_cases same : name = peer
          · subst same
            exact Or.inr ⟨rfl, _, g, dir, queue, kept, listed, synced, KeepsPeer.refl _ _⟩
          · exact Or.inl (kept.trans (keepsPeer_syncPeer (Ne.symm same) synced))

theorem syncEntries_cases (peer : String) {env : SyncEnv} {w v : Sweep} {names : List String}
    (distinct : names.Nodup) (done : names.foldlM (syncEntry B env) w = .ok v) :
    KeepsPeer peer w.f v.f ∨ peer ∈ names ∧ SyncsOnce B env peer w.f v.f := by
  induction names generalizing w with
  | nil =>
      cases done
      exact Or.inl (KeepsPeer.refl _ _)
  | cons name names ih =>
      rw [List.foldlM_cons] at done
      obtain ⟨u, first, rest⟩ := bind_eq_ok_iff.mp done
      obtain ⟨fresh, distinct⟩ := List.nodup_cons.mp distinct
      rcases syncEntry_cases peer first with kept | ⟨rfl, synced⟩
      · rcases ih distinct rest with keeps | ⟨later, before, after, dir, queue, begun, once⟩
        · exact Or.inl (kept.trans keeps)
        · exact Or.inr ⟨List.mem_cons_of_mem _ later, before, after, dir, queue,
            kept.trans begun, once⟩
      · rcases ih distinct rest with keeps | ⟨later, -⟩
        · obtain ⟨before, after, dir, queue, begun, listed, once, ended⟩ := synced
          exact Or.inr ⟨List.mem_cons_self, before, after, dir, queue, begun, listed, once,
            ended.trans keeps⟩
        · exact absurd later fresh

/-- **A call of `sync_fuzzers`, for one peer**, is other work, or one sync among other work. -/
theorem syncFuzzers_cases {env : SyncEnv} {d d' : SyncDir} (distinct : d.names.Nodup)
    (done : syncFuzzers B f d env = .ok (g, d')) :
    KeepsPeer peer f g ∨ SyncsOnce B env peer f g := by
  simp only [syncFuzzers] at done
  split at done
  · cases done
    exact Or.inl (KeepsPeer.refl _ _)
  · obtain ⟨w, swept, result⟩ := bind_eq_ok_iff.mp done
    have elected : KeepsPeer peer w.f g := by
      have last := congrArg Prod.fst (Except.ok.inj result)
      simp only [electSelf] at last
      split at last
      · rw [← last]
        exact ⟨rfl, rfl, rfl⟩
      · rw [← last]
        exact KeepsPeer.refl _ _
    rcases syncEntries_cases peer distinct swept with kept | ⟨-, synced⟩
    · exact Or.inl (kept.trans elected)
    · obtain ⟨before, after, dir, queue, begun, listed, once, ended⟩ := synced
      exact Or.inr ⟨before, after, dir, queue, begun, listed, once, ended.trans elected⟩

/-! ## The listing -/

/-- The queue of a peer: cases with consecutive numbers from 0. -/
def NumberedCases (files : List SavedFile) : Prop :=
  ∀ i file, files[i]? = some file → ∃ rest, file.name = "id:" ++ pad6 i ++ "," ++ rest

theorem toList_entry (n : ℕ) : ("id:" ++ pad6 n).toList = 'i' :: 'd' :: ':' :: (pad6 n).toList := by
  have front : "id:".toList = ['i', 'd', ':'] := by decide
  rw [String.toList_append, front, List.cons_append, List.cons_append, List.singleton_append]

theorem toList_caseName (n : ℕ) (rest : String) :
    ("id:" ++ pad6 n ++ "," ++ rest).toList =
      'i' :: 'd' :: ':' :: ((pad6 n).toList ++ ',' :: rest.toList) := by
  have comma : ",".toList = [','] := by decide
  rw [String.toList_append, String.toList_append, toList_entry, comma]
  simp only [List.cons_append, List.append_assoc, List.nil_append]

/-- Nine characters tell numbers of six digits apart. -/
theorem matchesId_iff {n k : ℕ} {file : SavedFile} {rest : String}
    (name : file.name = "id:" ++ pad6 n ++ "," ++ rest) (fits : n < 10 ^ 6) (small : k < 10 ^ 6) :
    matchesId k file = true ↔ n = k := by
  simp only [matchesId, name, toList_caseName, toList_entry, beq_iff_eq, List.take_succ_cons,
    List.cons.injEq, true_and]
  rw [List.take_append_of_le_length (length_pad6 fits).ge,
    List.take_of_length_le (length_pad6 fits).le, List.take_of_length_le (length_pad6 small).le]
  exact ⟨pad6_injective, fun same => by rw [same]⟩

theorem dotEntries_name : ∀ dot ∈ dotEntries, ∃ rest, dot.name.toList = '.' :: rest := by
  intro dot member
  simp only [dotEntries, List.mem_cons, List.not_mem_nil, or_false] at member
  rcases member with rfl | rfl | rfl
  · exact ⟨[], by decide⟩
  · exact ⟨['.'], by decide⟩
  · exact ⟨"state".toList, by decide⟩

theorem not_matchesId_dot (k : ℕ) : ∀ dot ∈ dotEntries, matchesId k dot = false := by
  intro dot member
  obtain ⟨rest, name⟩ := dotEntries_name dot member
  rw [matchesId, name, toList_entry, List.take_succ_cons, List.take_succ_cons, beq_eq_false_iff_ne]
  exact fun same => absurd (List.cons.inj same).1 (by decide)

theorem dot_lt_case {file dot : SavedFile} {n : ℕ} {rest : String} (member : dot ∈ dotEntries)
    (name : file.name = "id:" ++ pad6 n ++ "," ++ rest) : dot.name < file.name := by
  obtain ⟨tail, dotName⟩ := dotEntries_name dot member
  rw [String.lt_iff_toList_lt, name, toList_caseName, dotName]
  exact List.cons_lt_cons_iff.mpr (Or.inl (by decide))

theorem NumberedCases.numbered (numbered : NumberedCases files) :
    Numbered (files.map SavedFile.name) := by
  intro n name here
  rw [List.getElem?_map, Option.map_eq_some_iff] at here
  obtain ⟨file, at_n, rfl⟩ := here
  obtain ⟨rest, name⟩ := numbered n file at_n
  exact ⟨"," ++ rest, by rw [name, String.append_assoc]⟩

/-- With numbers of six digits the listing is in the order of the numbers. -/
theorem alphasort_numbered (numbered : NumberedCases files) (few : files.length ≤ 10 ^ 6) :
    alphasort (dotEntries ++ files) = dotEntries ++ files := by
  apply List.Pairwise.insertionSort_eq
  rw [List.pairwise_append]
  refine ⟨by decide, ?_, fun dot member file case => ?_⟩
  · have increasing := numbered.numbered.increasing (by rwa [List.length_map])
    rw [List.pairwise_map] at increasing
    exact increasing.imp fun less => less.le
  · obtain ⟨n, at_n⟩ := List.mem_iff_getElem?.mp case
    obtain ⟨rest, name⟩ := numbered n file at_n
    exact (dot_lt_case member name).le

/-- **A sync goes on where the last one stopped**, as long as numbers have six digits. -/
theorem newCases_numbered (numbered : NumberedCases files) (few : files.length ≤ 10 ^ 6) {k : ℕ}
    (small : k < 10 ^ 6) : newCases k files = files.drop k := by
  have skips (n : ℕ) (file : SavedFile) (at_n : files[n]? = some file) :
      matchesId k file = true ↔ n = k := by
    obtain ⟨rest, name⟩ := numbered n file at_n
    exact matchesId_iff name ((List.getElem?_eq_some_iff.mp at_n).1.trans_le few) small
  rw [newCases, alphasort_numbered numbered few, List.dropWhile_append_of_pos]
  · conv_lhs => rw [← List.take_append_drop k files]
    rw [List.dropWhile_append_of_pos]
    · cases rest : files.drop k with
      | nil => rfl
      | cons file news =>
          have at_k : files[k]? = some file := by
            have head : (files.drop k)[0]? = files[k]? := List.getElem?_drop
            rw [rest] at head
            exact head.symm
          rw [List.dropWhile_cons_of_neg]
          simp [(skips k file at_k).mpr rfl]
    · intro file member
      obtain ⟨n, at_n⟩ := List.mem_iff_getElem?.mp member
      have below : n < k := by
        have inside := (List.getElem?_eq_some_iff.mp at_n).1
        rw [List.length_take] at inside
        omega
      rw [List.getElem?_take_of_lt below] at at_n
      have other : matchesId k file = false := by
        refine eq_false_of_ne_true fun matching => ?_
        exact below.ne ((skips n file at_n).mp matching)
      rw [other]
      rfl
  · intro file member
    rw [not_matchesId_dot k file member]
    rfl

/-- A number with more digits than six is not the beginning of one with six. -/
theorem caseName_ne {m n : ℕ} (fits : m < 10 ^ 6) (large : 10 ^ 6 ≤ n) (r s : String) :
    "id:" ++ pad6 m ++ "," ++ r ≠ "id:" ++ pad6 n ++ "," ++ s := by
  intro same
  have texts := congrArg String.toList same
  rw [toList_caseName, toList_caseName] at texts
  have tails : (pad6 m).toList ++ ',' :: r.toList = (pad6 n).toList ++ ',' :: s.toList := by
    simpa using texts
  have more := length_pad6_of_large large
  have seventh := congrArg (fun text : List Char => text[6]?) tails
  rw [List.getElem?_append_right (length_pad6 fits).le, length_pad6 fits,
    List.getElem?_append_left more, List.getElem?_eq_getElem more] at seventh
  have comma : ',' = (pad6 n).toList[6] := by simpa using seventh
  have digit := isDigit_of_mem_pad6 (List.getElem_mem more)
  rw [← comma] at digit
  exact absurd digit (by decide)

/-- What is new is in the order of the names. -/
theorem newCases_sorted (k : ℕ) (files : List SavedFile) :
    ((newCases k files).map SavedFile.name).Pairwise (· ≤ ·) := by
  have sorted := alphasort_names (dotEntries ++ files)
  refine sorted.sublist (List.Sublist.map _ ?_)
  exact List.dropWhile_sublist _

theorem mem_newCases {k : ℕ} {file : SavedFile} (member : file ∈ files)
    (matching : matchesId k file = true) : file ∈ newCases k files := by
  have listed : file ∈ alphasort (dotEntries ++ files) :=
    (List.perm_insertionSort _ _).mem_iff.mpr (List.mem_append_right _ member)
  rw [← List.takeWhile_append_dropWhile (p := fun file => !matchesId k file)
    (l := alphasort (dotEntries ++ files)), List.mem_append] at listed
  rcases listed with before | later
  · have other := List.mem_takeWhile_imp before
    rw [matching] at other
    cases other
  · exact later

/-! ## Runs -/

/-- An instance and the queue of one of its peers. -/
structure PeerState where
  f : SyncState
  files : List SavedFile

/-- A sync that can read the cases and is not stopped. -/
structure Syncs (B : Build) (peer : String) (dir : InstanceDir) (now : ℕ) (s t : PeerState) :
    Prop where
  queue : dir.queue = some s.files
  files : t.files = s.files
  syncs : ∃ cases, (∀ name, (cases name).readable = true) ∧
    syncPeer B s.f peer dir s.files now cases = .ok t.f
  goesOn : t.f.s.afl.stopSoon = false

/-- The peer adds a case, the instance does other work, or it syncs from the peer in a way that is
allowed. -/
inductive PeerStep (B : Build) (peer : String)
    (allowed : PeerState → InstanceDir → ℕ → Prop) : PeerState → PeerState → Prop where
  | adds (s : PeerState) (file : SavedFile) (rest : String)
      (name : file.name = "id:" ++ pad6 s.files.length ++ "," ++ rest) :
      PeerStep B peer allowed s { s with files := s.files ++ [file] }
  | works (s : PeerState) (g : SyncState) (keeps : KeepsPeer peer s.f g) :
      PeerStep B peer allowed s { s with f := g }
  | syncs (s t : PeerState) (dir : InstanceDir) (now : ℕ) (sync : Syncs B peer dir now s t)
      (fine : allowed s dir now) : PeerStep B peer allowed s t

/-- Every case of the peer was handled exactly once, in the order of the numbers, and counted. -/
structure AllHandled (peer : String) (s : PeerState) : Prop where
  visits : VisitsOf s.f.syncId s.files (s.f.visits peer)
  counter : (s.f.notes peer).seen = s.files.length

/-- There is nothing to import, or all of this: the peer is not taken for restarted, the number of
the next case has six digits, and so have the numbers of all the cases. -/
def Careful (peer : String) (s : PeerState) (dir : InstanceDir) (now : ℕ) : Prop :=
  s.files = [] ∨ looksRestarted { last := some now } dir = false ∧
    (s.f.notes peer).seen < 10 ^ 6 ∧ s.files.length ≤ 10 ^ 6

/-- Runs all of whose syncs are careful. At first the peer has no cases. -/
def carefulSystem (B : Build) (peer : String) : TransitionSystem PeerState where
  init := fun s => s.files = [] ∧ (s.f.notes peer).seen = 0 ∧ s.f.visits peer = []
  step := PeerStep B peer (Careful peer)

/-- The cases that were counted are those that were handled. -/
structure HandledSoFar (peer : String) (s : PeerState) : Prop where
  numbered : NumberedCases s.files
  visits : VisitsOf s.f.syncId (s.files.take (s.f.notes peer).seen) (s.f.visits peer)
  counted : (s.f.notes peer).seen ≤ s.files.length
  small : (s.f.notes peer).seen ≤ 10 ^ 6

variable {s t : PeerState} {dir : InstanceDir} {now : ℕ}

theorem VisitsOf.names {syncId : String} {visits : List (String × Visit)}
    (visited : VisitsOf syncId files visits) : visits.map Prod.fst = files.map SavedFile.name := by
  induction visited with
  | nil => rfl
  | cons one _ ih => rw [List.map_cons, List.map_cons, one.1, ih]

theorem VisitsOf.append {syncId : String} {visits later : List (String × Visit)}
    (first : VisitsOf syncId files visits) (second : VisitsOf syncId news later) :
    VisitsOf syncId (files ++ news) (visits ++ later) := by
  induction first with
  | nil => exact second
  | cons one _ ih => exact List.Forall₂.cons one ih

/-- What a sync from such a state does. -/
theorem HandledSoFar.sync (handled : HandledSoFar peer s) (sync : Syncs B peer dir now s t) :
    (looksRestarted { last := some now } dir = true ∧ (t.f.notes peer).seen = 0 ∧
      t.f.visits = s.f.visits ∧ t.f.syncId = s.f.syncId) ∨
    (looksRestarted { last := some now } dir = false ∧
      Imports peer (newCases (s.f.notes peer).seen s.files) s.f t.f) := by
  obtain ⟨cases, readable, done⟩ := sync.syncs
  exact syncPeer_cases readable (handled.small.trans_lt (by decide)) done sync.goesOn

/-- A careful sync handles all the cases. -/
theorem HandledSoFar.allHandled (handled : HandledSoFar peer s)
    (sync : Syncs B peer dir now s t) (careful : Careful peer s dir now) :
    AllHandled peer t := by
  have few : s.files.length ≤ 10 ^ 6 := by
    rcases careful with none | ⟨-, -, few⟩
    · rw [none]
      exact Nat.zero_le _
    · exact few
  have small : (s.f.notes peer).seen < 10 ^ 6 := by
    rcases careful with none | ⟨-, small, -⟩
    · have counted := handled.counted
      rw [none] at counted
      exact Nat.lt_of_le_of_lt counted (by decide)
    · exact small
  rcases handled.sync sync with ⟨restarted, zero, visits, syncId⟩ | ⟨-, imports⟩
  · have none : s.files = [] := by
      refine careful.resolve_right fun running => ?_
      rw [restarted] at running
      exact absurd running.1 (by decide)
    have before := handled.visits
    rw [none, List.take_nil] at before
    refine ⟨?_, ?_⟩
    · rw [sync.files, none, syncId, visits]
      exact before
    · rw [sync.files, none, zero]
      rfl
  · rw [newCases_numbered handled.numbered few small] at imports
    obtain ⟨visits, rightly, visited⟩ := imports.visits
    refine ⟨?_, ?_⟩
    · have all := handled.visits.append rightly
      rw [List.take_append_drop] at all
      rw [sync.files, imports.syncId, visited]
      exact all
    · have counted := handled.counted
      rw [imports.seen, sync.files, List.length_drop, Nat.add_sub_cancel' counted]
      exact Nat.mod_eq_of_lt (few.trans_lt (by decide))

/-- The states of careful runs. -/
theorem handledSoFar_of_reachable (run : Reachable (carefulSystem B peer) s) :
    HandledSoFar peer s := by
  refine Reachable.invariant ?_ ?_ run
  · rintro s ⟨none, zero, empty⟩
    refine ⟨?_, ?_, ?_, ?_⟩
    · intro i file here
      rw [none] at here
      cases here
    · rw [none, empty, List.take_nil]
      exact List.Forall₂.nil
    · rw [zero]
      exact Nat.zero_le _
    · rw [zero]
      exact Nat.zero_le _
  · intro s t _ handled taken
    cases taken with
    | adds file rest name =>
        refine ⟨?_, ?_, ?_, handled.small⟩
        · intro i case here
          rcases Nat.lt_or_ge i s.files.length with old | new
          · rw [List.getElem?_append_left old] at here
            exact handled.numbered i case here
          · rw [List.getElem?_append_right new, List.getElem?_singleton] at here
            split at here
            · rename_i last
              cases here
              have position : i = s.files.length := by omega
              rw [position]
              exact ⟨rest, name⟩
            · cases here
        · show VisitsOf _ (List.take _ (s.files ++ [file])) _
          rw [List.take_append_of_le_length handled.counted]
          exact handled.visits
        · show _ ≤ (s.files ++ [file]).length
          rw [List.length_append]
          exact handled.counted.trans (Nat.le_add_right _ _)
    | works g keeps =>
        have seen : (g.notes peer).seen = (s.f.notes peer).seen := by
          rw [SyncNotes.seen, SyncNotes.seen, keeps.counter]
        refine ⟨handled.numbered, ?_, ?_, ?_⟩
        · show VisitsOf g.syncId (s.files.take (g.notes peer).seen) (g.visits peer)
          rw [keeps.syncId, keeps.visits, seen]
          exact handled.visits
        · show (g.notes peer).seen ≤ s.files.length
          rw [seen]
          exact handled.counted
        · show (g.notes peer).seen ≤ 10 ^ 6
          rw [seen]
          exact handled.small
    | syncs t dir now sync careful =>
        have all := handled.allHandled sync careful
        have few : s.files.length ≤ 10 ^ 6 := by
          rcases careful with none | ⟨-, -, few⟩
          · rw [none]
            exact Nat.zero_le _
          · exact few
        refine ⟨?_, ?_, all.counter.le, ?_⟩
        · rw [sync.files]
          exact handled.numbered
        · rw [all.counter, List.take_length]
          exact all.visits
        · rw [all.counter, sync.files]
          exact few

/-- With a million cases seen, the case 100000 is found again. -/
theorem matchesId_million {file : SavedFile} {rest : String}
    (name : file.name = "id:" ++ pad6 100000 ++ "," ++ rest) :
    matchesId (10 ^ 6) file = true := by
  have digits : (pad6 100000).toList = ['1', '0', '0', '0', '0', '0'] := by
    rw [toList_pad6]
    decide
  have million : (pad6 (10 ^ 6)).toList = ['1', '0', '0', '0', '0', '0', '0'] := by
    rw [toList_pad6]
    decide
  rw [matchesId, name, toList_caseName, toList_entry, digits, million]
  rfl

/-- The case 1000000 stands before the case 999999 in a listing. -/
theorem million_lt (r s : String) :
    "id:" ++ pad6 (10 ^ 6) ++ "," ++ r < "id:" ++ pad6 999999 ++ "," ++ s := by
  have million : (pad6 (10 ^ 6)).toList = ['1', '0', '0', '0', '0', '0', '0'] := by
    rw [toList_pad6]
    decide
  have digits : (pad6 999999).toList = ['9', '9', '9', '9', '9', '9'] := by
    rw [toList_pad6]
    decide
  rw [String.lt_iff_toList_lt, toList_caseName, toList_caseName, million, digits]
  simp only [List.cons_append, List.cons_lt_cons_iff, lt_self_iff_false, true_and, false_or]
  exact Or.inl (by decide)

/-- A sync that handles all the cases was careful. -/
theorem HandledSoFar.careful (handled : HandledSoFar peer s) (sync : Syncs B peer dir now s t)
    (all : AllHandled peer t) : Careful peer s dir now := by
  have visits := all.visits
  have counter := all.counter
  rw [sync.files] at visits counter
  rcases handled.sync sync with ⟨-, zero, -, -⟩ | ⟨running, imports⟩
  · rw [zero] at counter
    exact Or.inl (List.length_eq_zero_iff.mp counter.symm)
  · refine Or.inr ⟨running, ?_⟩
    obtain ⟨later, rightly, visited⟩ := imports.visits
    -- what was found is what was missing
    have found : (newCases (s.f.notes peer).seen s.files).map SavedFile.name =
        (s.files.drop (s.f.notes peer).seen).map SavedFile.name := by
      have names := visits.names
      rw [visited, List.map_append, handled.visits.names, rightly.names] at names
      have whole : s.files.map SavedFile.name =
          (s.files.take (s.f.notes peer).seen).map SavedFile.name ++
            (s.files.drop (s.f.notes peer).seen).map SavedFile.name := by
        rw [← List.map_append, List.take_append_drop]
      exact List.append_cancel_left (names.trans whole)
    have small : (s.f.notes peer).seen < 10 ^ 6 := by
      refine Nat.lt_of_le_of_ne handled.small fun million => ?_
      have many := handled.counted
      rw [million] at many found
      have inside : 100000 < s.files.length := Nat.lt_of_lt_of_le (by decide) many
      obtain ⟨rest, name⟩ := handled.numbered 100000 _ (List.getElem?_eq_getElem inside)
      have again := List.mem_map_of_mem (f := SavedFile.name)
        (mem_newCases (List.getElem_mem inside) (matchesId_million name))
      rw [found] at again
      obtain ⟨file, member, same⟩ := List.mem_map.mp again
      obtain ⟨n, at_n⟩ := List.mem_iff_getElem?.mp member
      rw [List.getElem?_drop] at at_n
      obtain ⟨rest', name'⟩ := handled.numbered _ file at_n
      rw [name, name'] at same
      exact caseName_ne (by decide) (Nat.le_add_right _ _) rest rest' same.symm
    refine ⟨small, Nat.not_lt.mp fun many => ?_⟩
    have sorted := newCases_sorted (s.f.notes peer).seen s.files
    rw [found, List.pairwise_iff_getElem] at sorted
    have inside : 999999 < s.files.length := Nat.lt_trans (by decide) many
    obtain ⟨r, last⟩ := handled.numbered 999999 _ (List.getElem?_eq_getElem inside)
    obtain ⟨r', next⟩ := handled.numbered (10 ^ 6) _ (List.getElem?_eq_getElem many)
    have order := sorted (999999 - (s.f.notes peer).seen) (10 ^ 6 - (s.f.notes peer).seen)
      (by rw [List.length_map, List.length_drop]; omega)
      (by rw [List.length_map, List.length_drop]; omega) (by omega)
    simp only [List.getElem_map, List.getElem_drop] at order
    have first : (s.f.notes peer).seen + (999999 - (s.f.notes peer).seen) = 999999 := by omega
    have second : (s.f.notes peer).seen + (10 ^ 6 - (s.f.notes peer).seen) = 10 ^ 6 := by omega
    simp only [first, second, last, next] at order
    exact absurd order (not_le_of_gt (million_lt r' r))

/-- **Which syncs import every case exactly once.** After syncs that have, a sync leaves every case
of the peer handled once, in the order of the numbers, with the counter at the number of cases, if
and only if there are no cases, or the peer is not taken for restarted and both the next number and
all the numbers have six digits. -/
theorem handled_iff (run : Reachable (carefulSystem B peer) s)
    (sync : Syncs B peer dir now s t) : AllHandled peer t ↔ Careful peer s dir now :=
  ⟨fun all => (handledSoFar_of_reachable run).careful sync all,
    fun careful => (handledSoFar_of_reachable run).allHandled sync careful⟩

/-! ## A million cases -/

/-- An import where the case runs into an ignored timeout. -/
def timesOut : CaseRun where
  run := { fault := .tmout }

/-- The fuzzer ignores timeouts, and goes on. -/
structure Calm (f : SyncState) : Prop where
  ignores : f.s.aflIgnoreTimeouts = true
  goesOn : f.s.afl.stopSoon = false

theorem executeCase_calm (B : Build) (data : List Byte) (calm : Calm i.f) :
    ∃ j, executeCase B data timesOut i = .ok j ∧ Calm j.f ∧ j.stopped = i.stopped := by
  obtain ⟨_, _, _, ran⟩ := fuzzRunTarget_eq i.f.s.afl timesOut.run
  have going : (fuzzRunTarget i.f.s.afl timesOut.run).stopSoon = false := by
    rw [ran]
    show (i.f.s.afl.stopSoon || false) = false
    rw [calm.goesOn, Bool.or_false]
  simp only [executeCase, going, Bool.false_eq_true, if_false, saveIfInteresting]
  by_cases empty : timesOut.write data = []
  · rw [if_pos empty]
    exact ⟨_, rfl, ⟨calm.ignores, going⟩, rfl⟩
  · rw [if_neg empty, if_pos ⟨rfl, calm.ignores⟩]
    refine ⟨_, rfl, ⟨?_, ?_⟩, rfl⟩
    · show (updatePathFrequency B _).s.aflIgnoreTimeouts = true
      rw [updatePathFrequency_s]
      exact calm.ignores
    · obtain ⟨_, _, counted, -⟩ := updatePathFrequency_afl B
        { s := { i.f.s with afl := fuzzRunTarget i.f.s.afl timesOut.run }
          mem := timesOut.write data }
      show (updatePathFrequency B _).s.afl.stopSoon = false
      rw [counted]
      exact going

theorem importCase_calm (B : Build) (peer : String) (maxStartId : ℕ) (file : SavedFile)
    (calm : Calm i.f) (going : i.stopped = false) :
    ∃ j, importCase B peer maxStartId (fun _ => timesOut) i file = .ok j ∧ Calm j.f ∧
      j.stopped = false := by
  have visited (what : Visit) : Calm (i.visit peer file.name what).f := ⟨calm.ignores, calm.goesOn⟩
  simp only [importCase, going, timesOut, Bool.false_eq_true, Bool.not_true, if_false]
  split
  · exact ⟨_, rfl, visited _, going⟩
  · split
    · exact ⟨_, rfl, visited _, going⟩
    · split
      · obtain ⟨j, done, still, same⟩ := executeCase_calm B file.data (visited .executed)
        exact ⟨j, done, still, same.trans going⟩
      · exact ⟨_, rfl, visited _, going⟩

theorem foldlM_importCase_calm (B : Build) (peer : String) (maxStartId : ℕ)
    (news : List SavedFile) (i : Import) (calm : Calm i.f) (going : i.stopped = false) :
    ∃ j, news.foldlM (importCase B peer maxStartId fun _ => timesOut) i = .ok j ∧ Calm j.f ∧
      j.stopped = false := by
  induction news generalizing i with
  | nil => exact ⟨i, rfl, calm, going⟩
  | cons file news ih =>
      obtain ⟨k, visited, still, goes⟩ := importCase_calm B peer maxStartId file calm going
      obtain ⟨j, rest, last⟩ := ih k still goes
      refine ⟨j, ?_, last⟩
      rw [List.foldlM_cons, visited]
      exact rest

/-- A sync of timeouts that are ignored succeeds. -/
theorem syncPeer_calm (B : Build) (peer : String) (dir : InstanceDir) (queue : List SavedFile)
    (now : ℕ) (calm : Calm f) :
    ∃ g, syncPeer B f peer dir queue now (fun _ => timesOut) = .ok g ∧ Calm g := by
  simp only [syncPeer, syncTouched]
  split
  · exact ⟨_, rfl, calm.ignores, calm.goesOn⟩
  · simp only [importCases]
    split
    · exact ⟨_, rfl, calm.ignores, calm.goesOn⟩
    · have touched : Calm ((f.touchLast peer now).modifyNotes peer SyncNotes.dropMax) :=
        ⟨calm.ignores, calm.goesOn⟩
      obtain ⟨j, looped, still, going⟩ := foldlM_importCase_calm B peer
        (((f.touchLast peer now).notes peer).max.getD 0)
        (newCases ((f.touchLast peer now).notes peer).seen queue)
        ⟨(f.touchLast peer now).modifyNotes peer SyncNotes.dropMax,
          ((f.touchLast peer now).notes peer).seen, false⟩ touched rfl
      rw [looped]
      refine ⟨_, if_neg (by rw [going]; decide), still.ignores, still.goesOn⟩

/-- A queue of `n` cases. -/
def queueOf (n : ℕ) : List SavedFile :=
  (List.range n).map fun i => ⟨"id:" ++ pad6 i ++ "," ++ "time:0", [65]⟩

theorem length_queueOf (n : ℕ) : (queueOf n).length = n := by
  rw [queueOf, List.length_map, List.length_range]

/-- An instance that ignores timeouts. -/
def ignoresTimeouts : SyncState where
  s := { afl := { mapSize := 64 }, aflIgnoreTimeouts := true }
  syncId := "main"

/-- The directory of a peer that was started at time 1. -/
def startedPeer (n : ℕ) : InstanceDir where
  queue := some (queueOf n)
  cmdline := some 1

theorem reachable_queueOf (B : Build) (peer : String) (n : ℕ) :
    Reachable (carefulSystem B peer) ⟨ignoresTimeouts, queueOf n⟩ := by
  induction n with
  | zero => exact Reachable.init ⟨rfl, rfl, rfl⟩
  | succ n ih =>
      have added : PeerStep B peer (Careful peer) ⟨ignoresTimeouts, queueOf n⟩
          ⟨ignoresTimeouts, queueOf n ++ [⟨"id:" ++ pad6 n ++ "," ++ "time:0", [65]⟩]⟩ :=
        PeerStep.adds _ _ "time:0" (by rw [length_queueOf])
      have next : queueOf (n + 1) =
          queueOf n ++ [⟨"id:" ++ pad6 n ++ "," ++ "time:0", [65]⟩] := by
        rw [queueOf, List.range_succ, List.map_append]
        rfl
      rw [next]
      exact Reachable.step ih added

/-- The instance can sync from that peer at a later time. -/
theorem syncs_queueOf (B : Build) (peer : String) (n now : ℕ) (calm : Calm f) :
    ∃ g, Syncs B peer (startedPeer n) now ⟨f, queueOf n⟩ ⟨g, queueOf n⟩ ∧ Calm g := by
  obtain ⟨g, done, still⟩ := syncPeer_calm B peer (startedPeer n) (queueOf n) now calm
  exact ⟨g, ⟨rfl, rfl, ⟨fun _ => timesOut, fun _ => rfl, done⟩, still.goesOn⟩, still⟩

theorem calm_ignoresTimeouts : Calm ignoresTimeouts := ⟨rfl, rfl⟩

theorem careful_first {n : ℕ} (few : n ≤ 10 ^ 6) :
    Careful "peer" ⟨ignoresTimeouts, queueOf n⟩ (startedPeer n) 2 := by
  refine Or.inr ⟨rfl, ?_, ?_⟩
  · show 0 < 10 ^ 6
    decide
  · exact (length_queueOf n).trans_le few

/-- The first sync imports two cases, and the second one the case that the peer added since. -/
theorem handled_later : ∃ g h,
    Syncs trivialBuild "peer" (startedPeer 2) 2 ⟨ignoresTimeouts, queueOf 2⟩ ⟨g, queueOf 2⟩ ∧
      Syncs trivialBuild "peer" (startedPeer 3) 3 ⟨g, queueOf 3⟩ ⟨h, queueOf 3⟩ ∧
      AllHandled "peer" ⟨g, queueOf 2⟩ ∧ ¬ AllHandled "peer" ⟨g, queueOf 3⟩ ∧
      AllHandled "peer" ⟨h, queueOf 3⟩ := by
  have start := reachable_queueOf trivialBuild "peer" 2
  obtain ⟨g, first, calm⟩ := syncs_queueOf trivialBuild "peer" 2 2 calm_ignoresTimeouts
  obtain ⟨h, second, -⟩ := syncs_queueOf trivialBuild "peer" 3 3 calm
  have careful := careful_first (n := 2) (by decide)
  have all : AllHandled "peer" ⟨g, queueOf 2⟩ := (handled_iff start first).mpr careful
  have seen : (g.notes "peer").seen = 2 := all.counter.trans (length_queueOf 2)
  have added : Reachable (carefulSystem trivialBuild "peer") ⟨g, queueOf 3⟩ :=
    Reachable.step (Reachable.step start (PeerStep.syncs _ _ _ 2 first careful))
      (PeerStep.adds ⟨g, queueOf 2⟩ _ "time:0" (by rw [length_queueOf]))
  refine ⟨g, h, first, second, all, fun again => ?_, (handled_iff added second).mpr ?_⟩
  · exact absurd (seen.symm.trans again.counter) (by rw [length_queueOf]; decide)
  · refine Or.inr ⟨rfl, seen.trans_lt (by decide), ?_⟩
    exact (length_queueOf 3).trans_le (by decide)

/-- A sync that finds nothing new after a million cases is not careful. -/
theorem not_careful_million {n now : ℕ} (many : n = 10 ^ 6) (seen : (g.notes "peer").seen = n) :
    ¬ Careful "peer" ⟨g, queueOf n⟩ (startedPeer n) now := by
  rintro (none | ⟨-, small, -⟩)
  · have length := length_queueOf n
    rw [show queueOf n = [] from none, many] at length
    exact absurd length (by decide)
  · exact absurd (seen.trans many) small.ne

/-- After a million cases were imported, the next sync imports cases again. -/
theorem million_imported_again : ∃ n s t, n = 10 ^ 6 ∧ s.files = queueOf n ∧
    Reachable (carefulSystem trivialBuild "peer") s ∧ AllHandled "peer" s ∧
      Syncs trivialBuild "peer" (startedPeer n) 3 s t ∧ ¬ AllHandled "peer" t := by
  obtain ⟨n, million⟩ : ∃ n : ℕ, n = 10 ^ 6 := ⟨_, rfl⟩
  have start := reachable_queueOf trivialBuild "peer" n
  obtain ⟨g, first, calm⟩ := syncs_queueOf trivialBuild "peer" n 2 calm_ignoresTimeouts
  obtain ⟨h, second, -⟩ := syncs_queueOf trivialBuild "peer" n 3 calm
  have careful := careful_first million.le
  have all := (handledSoFar_of_reachable start).allHandled first careful
  have next : Reachable (carefulSystem trivialBuild "peer") ⟨g, queueOf n⟩ :=
    Reachable.step start (PeerStep.syncs _ _ _ 2 first careful)
  refine ⟨n, ⟨g, queueOf n⟩, ⟨h, queueOf n⟩, million, rfl, next, all, second, fun again => ?_⟩
  have seen : (g.notes "peer").seen = n := all.counter.trans (length_queueOf n)
  exact not_careful_million million seen ((handledSoFar_of_reachable next).careful second again)

end GreenFuzz.AflFuzz
