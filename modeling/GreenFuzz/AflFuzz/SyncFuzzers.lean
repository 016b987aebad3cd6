import GreenFuzz.AflFuzz.FastResume
import GreenFuzz.AflFuzz.QueueGrowth

/-!
# Instances that share a sync directory

Each instance has an output directory under the sync directory, named by its sync id. The others
read its queue, the time at which its `cmdline` was written, and whether there is a marker
`is_main_node`. What an instance remembers about a peer is under `.synced` in its own directory: the
number of cases it has seen, when it last synced, and how many there were at startup.

`check_sync_fuzzers` and `sync_fuzzers` of `afl-fuzz-run.c` are here as functions of the state of
an instance and of the sync directory. The part of `sync_fuzzers` about one peer is `syncPeer`: the
note that there was an attempt (`touchLast`), the check for a restart (`looksRestarted`) and the
cases themselves (`importCases`). What is done with each case is logged in `visits`, which the code
does not keep.

Left out are the time spent, what the user is shown, and foreign test cases.
-/

set_option autoImplicit false

namespace GreenFuzz.AflFuzz

open Library

/-! ## The sync directory -/

/-- What the others see in the output directory of an instance. -/
structure InstanceDir where
  queue : Option (List SavedFile) := some []
  cmdline : Option ℕ := none
  isMainNode : Bool := false

/-- The names in the sync directory, in the order of `readdir`, and what they stand for. A name
that is not a directory stands for nothing. -/
structure SyncDir where
  names : List String
  dirs : String → Option InstanceDir

/-- The files of a peer under `.synced`: the number of cases seen, if it was written, the time of
the last attempt, and the highest number at startup. -/
structure SyncNotes where
  counter : Option ℕ := none
  last : Option ℕ := none
  max : Option ℕ := none

/-- What became of a case of a peer. -/
inductive Visit where
  | unreadable | empty | oversized | known | executed
  deriving DecidableEq, Repr

/-- An instance: the fuzzer, its role, its notes, and the log of the cases it came by. -/
structure SyncState where
  s : SaveState
  syncId : String
  isMainNode : Bool := false
  isSecondaryNode : Bool := true
  aflNoSync : Bool := false
  queuedImported : ℕ := 0
  notes : String → SyncNotes := fun _ => {}
  visits : String → List (String × Visit) := fun _ => []

/-- Change the notes about a peer. -/
def SyncState.modifyNotes (f : SyncState) (peer : String) (change : SyncNotes → SyncNotes) :
    SyncState :=
  { f with notes := Function.update f.notes peer (change (f.notes peer)) }

/-- `access(.., F_OK) == 0` on the marker of an instance. -/
def SyncDir.hasMarker (d : SyncDir) (name : String) : Bool :=
  match d.dirs name with
  | some dir => dir.isMainNode
  | none => false

/-- Create or remove the marker of an instance, if it has a directory. -/
def SyncDir.setMarker (d : SyncDir) (name : String) (marked : Bool) : SyncDir :=
  { d with
    dirs := Function.update d.dirs name
      ((d.dirs name).map fun dir => { dir with isMainNode := marked }) }

/-- Dot files and the own directory are passed over. -/
def SyncState.passesOver (f : SyncState) (name : String) : Bool :=
  name.toList.head? == some '.' || name == f.syncId

/-! ## `check_sync_fuzzers` -/

/-- The local variables. The buffer `qd_main_path` holds the path of the last marker that was looked
for, as the name of its instance. -/
structure MainSearch where
  f : SyncState
  haveMain : Bool
  qdMainPath : Option String

/-- Write down the highest number in the queue of a peer, if it has cases. -/
def noteMax (f : SyncState) (d : SyncDir) (name : String) : SyncState :=
  match (d.dirs name).bind InstanceDir.queue with
  | none => f
  | some queue =>
      let maxStartId := queue.countP fun file => file.name.toList.head? != some '.'
      if maxStartId ≠ 0 then
        f.modifyNotes name fun notes => { notes with max := some (maxStartId - 1) }
      else f

/-- One entry of the sync directory. -/
def checkSyncEntry (d : SyncDir) (search : MainSearch) (name : String) : MainSearch :=
  if search.f.passesOver name then search
  else if !search.haveMain then
    { f := noteMax search.f d name, haveMain := d.hasMarker name, qdMainPath := some name }
  else { search with f := noteMax search.f d name }

/-- `check_sync_fuzzers`. Before it is written, the buffer names whatever it happens to name. -/
def checkSyncFuzzers (f : SyncState) (d : SyncDir) (uninitialized : Option String) :
    SyncState × SyncDir :=
  if f.aflNoSync then (f, d)
  else
    let search := d.names.foldl (checkSyncEntry d)
      { f := f, haveMain := f.isMainNode, qdMainPath := uninitialized }
    if !search.haveMain then
      ({ search.f with isMainNode := true },
        match search.qdMainPath with
        | some name => d.setMarker name true
        | none => d)
    else (search.f, d)

/-! ## The cases of a peer -/

/-- How the import of a case goes: whether its file can be opened, what `write_to_testcase` makes of
the data, what the run does, and what `save_if_interesting` is given besides. -/
structure CaseRun where
  readable : Bool := true
  write : List Byte → List Byte := id
  run : RunOutcome := {}
  save : SaveInput := { mem := [], fault := .ok }

/-- `is_known_case`: a case that the peer had from this instance. -/
def isKnownCase (syncId name : String) : Bool :=
  let comingFromMe := (syncId ++ ",").toList
  decide (15 + 4 + 6 + comingFromMe.length ≤ name.toList.length) &&
    "sync".toList.isPrefixOf (name.toList.drop 10) &&
    comingFromMe.isPrefixOf (name.toList.drop 15)

/-- The local variables of the loop over the cases. -/
structure Import where
  f : SyncState
  nextMinAccept : ℕ
  stopped : Bool := false

/-- Log what became of a case. -/
def Import.visit (i : Import) (peer name : String) (what : Visit) : Import :=
  { i with
    f := { i.f with
      visits := Function.update i.f.visits peer (i.f.visits peer ++ [(name, what)]) }
    nextMinAccept := u32 (i.nextMinAccept + 1) }

/-- Run a case, and save it if it is interesting. -/
def executeCase (B : Build) (data : List Byte) (case : CaseRun) (i : Import) :
    Except SaveFault Import :=
  let mem := case.write data
  let s := { i.f.s with afl := fuzzRunTarget i.f.s.afl case.run }
  if s.afl.stopSoon then .ok { i with f := { i.f with s := s }, stopped := true }
  else do
    let (kept, s) ← saveIfInteresting B s { case.save with mem := mem, fault := case.run.fault }
    .ok { i with f := { i.f with
      s := s, queuedImported := u32 (i.f.queuedImported + kept.toNat) } }

/-- One case: `maxStartId` is 0 when there is no note about the startup. -/
def importCase (B : Build) (peer : String) (maxStartId : ℕ) (cases : String → CaseRun) (i : Import)
    (file : SavedFile) : Except SaveFault Import :=
  if i.stopped then .ok i
  else
    let next := u32 (i.nextMinAccept + 1)
    if !(cases file.name).readable then .ok (i.visit peer file.name .unreadable)
    else if file.data = [] then .ok (i.visit peer file.name .empty)
    else if maxFile < file.data.length then .ok (i.visit peer file.name .oversized)
    else if next < maxStartId ∨ isKnownCase i.f.syncId file.name = false then
      executeCase B file.data (cases file.name) (i.visit peer file.name .executed)
    else .ok (i.visit peer file.name .known)

/-- The directories that `scandir` lists besides the files. They sort before every case, so they are
never opened. -/
def dotEntries : List SavedFile := [⟨".", []⟩, ⟨"..", []⟩, ⟨".state", []⟩]

/-- `strncmp(name, entry, 9) == 0`, where `entry` is `id:%06u` of a number. -/
def matchesId (n : ℕ) (file : SavedFile) : Bool :=
  file.name.toList.take 9 == ("id:" ++ pad6 n).toList.take 9

/-- The listing from the first entry on that matches the next number. -/
def newCases (next : ℕ) (queue : List SavedFile) : List SavedFile :=
  (alphasort (dotEntries ++ queue)).dropWhile fun file => !matchesId next file

/-- `next_min_accept` as read from the notes. -/
def SyncNotes.seen (notes : SyncNotes) : ℕ := notes.counter.getD 0

/-- The number of the startup is dropped when it is exceeded. -/
def SyncNotes.dropMax (notes : SyncNotes) : SyncNotes :=
  match notes.max with
  | some maxStartId => if maxStartId < notes.seen then { notes with max := none } else notes
  | none => notes

/-- The loop over the cases, from the note about the startup on. -/
def importCases (B : Build) (f : SyncState) (peer : String) (queue : List SavedFile)
    (cases : String → CaseRun) : Except SaveFault SyncState :=
  let notes := f.notes peer
  let f := f.modifyNotes peer SyncNotes.dropMax
  let news := newCases notes.seen queue
  if news = [] then .ok f
  else do
    let i ← news.foldlM (importCase B peer (notes.max.getD 0) cases)
      { f := f, nextMinAccept := notes.seen }
    if i.stopped then .ok i.f
    else .ok (i.f.modifyNotes peer fun notes => { notes with counter := some i.nextMinAccept })

/-! ## `sync_fuzzers` -/

/-- Document the attempt to sync: the file `.last` gets the time of now. -/
def SyncState.touchLast (f : SyncState) (peer : String) (now : ℕ) : SyncState :=
  f.modifyNotes peer fun notes => { notes with last := some now }

/-- The check for a restart: `last_mtime && last_mtime <= st.st_mtime`. -/
def looksRestarted (notes : SyncNotes) (dir : InstanceDir) : Bool :=
  match notes.last, dir.cmdline with
  | some last, some written => decide (last ≠ 0) && decide (last ≤ written)
  | _, _ => false

/-- The rest of the visit to a peer, after the attempt was documented. -/
def syncTouched (B : Build) (f : SyncState) (peer : String) (dir : InstanceDir)
    (queue : List SavedFile) (cases : String → CaseRun) : Except SaveFault SyncState :=
  if looksRestarted (f.notes peer) dir then
    .ok (f.modifyNotes peer fun notes => { notes with counter := some 0 })
  else importCases B f peer queue cases

/-- The visit to a peer with a queue. -/
def syncPeer (B : Build) (f : SyncState) (peer : String) (dir : InstanceDir)
    (queue : List SavedFile) (now : ℕ) (cases : String → CaseRun) : Except SaveFault SyncState :=
  syncTouched B (f.touchLast peer now) peer dir queue cases

/-- What a call is given besides the state and the sync directory: the time at which it comes to
each peer, and how the imports go. -/
structure SyncEnv where
  now : String → ℕ
  cases : String → String → CaseRun := fun _ _ => {}

/-- The local variables. -/
structure Sweep where
  f : SyncState
  d : SyncDir
  entries : ℕ := 0
  synced : ℕ := 0

/-- The role of a secondary: a temporary main node that finds another one is one no longer. The
answer is whether the entry is synced from. -/
def takeRole (w : Sweep) (name : String) : Bool × Sweep :=
  if w.f.isSecondaryNode then
    if w.f.isMainNode then
      if w.d.hasMarker name then
        (true, { w with
          f := { w.f with isMainNode := false }, d := w.d.setMarker w.f.syncId false })
      else (true, w)
    else (w.d.hasMarker name, w)
  else (true, w)

/-- One entry of the sync directory. -/
def syncEntry (B : Build) (env : SyncEnv) (w : Sweep) (name : String) : Except SaveFault Sweep :=
  if w.f.passesOver name then .ok w
  else
    let (goes, w) := takeRole { w with entries := w.entries + 1 } name
    if !goes then .ok w
    else
      let w := { w with synced := w.synced + 1 }
      match w.d.dirs name with
      | none => .ok w
      | some dir =>
          match dir.queue with
          | none => .ok w
          | some queue => do
              let f ← syncPeer B w.f name dir queue (env.now name) (env.cases name)
              .ok { w with f := f }

/-- A secondary that found no main node becomes one. -/
def electSelf (w : Sweep) : SyncState × SyncDir :=
  if w.synced = 0 ∧ w.entries ≠ 0 ∧ w.f.isSecondaryNode then
    ({ w.f with isMainNode := true }, w.d.setMarker w.f.syncId true)
  else (w.f, w.d)

/-- `sync_fuzzers`. -/
def syncFuzzers (B : Build) (f : SyncState) (d : SyncDir) (env : SyncEnv) :
    Except SaveFault (SyncState × SyncDir) :=
  if f.aflNoSync then .ok (f, d)
  else do
    let w ← d.names.foldlM (syncEntry B env) { f := f, d := d }
    .ok (electSelf w)

end GreenFuzz.AflFuzz
