import GreenFuzz.ForkServer.RunProtocol
import GreenFuzz.Library.Inevitable
import GreenFuzz.Library.Runs

/-!
# Every run gets its own status

The fuzzer reads two words for each request, and the fork server writes two
words for each request it reads. The invariant keeps the books of the two
pipes: what is in the status pipe and what the fork server still writes is what
the current call still reads (`Settled.stream`). Beside it goes what the fork
server's flag says about its child: a child it takes for stopped is there, and
it has been killed exactly when the request that comes next says that the run
timed out (`Table`). A kill that races with the child's own stop leaves a killed
child behind a stopped status, and the next request writes it off.

**As long as the user has not asked to stop, every call that returned has read the
process id and the status of its own run and nothing else, a killed child is never
resumed, and a child is forked exactly when none is left; with `SIGKILL` for the kill
signal every call returns** (`runs_agree`). A request to stop can leave a status in the
pipe, and behind a weaker signal the fork server can wait for ever (`runs_disagree`).
-/

set_option autoImplicit false

namespace GreenFuzz.ForkServer

open GreenFuzz.Library

/-! ## Words -/

/-- The words the current call still reads. -/
def Fuzzer.awaited (f : Fuzzer) : List Origin :=
  match f.stage with
  | .idle | .fatal => []
  | .readPid _ => [.pid f.calls, .status f.calls]
  | .readTimed _ | .kill | .readAfterKill => [.status f.calls]

/-- The words the fork server still writes for the requests made. -/
def Session.pending (s : Session) : List Origin :=
  match s.server.stage with
  | .readRequest => if s.ctl = [] then [] else [.pid s.fuzzer.calls, .status s.fuzzer.calls]
  | .reap | .start | .writePid => [.pid s.server.served, .status s.server.served]
  | .wait => [.status s.server.served]
  | .writeStatus _ run => [.status run]
  | .exited => []

/-- The words a call has read when it is at a stage. -/
def Fuzzer.HasRead (f : Fuzzer) : Prop :=
  match f.stage with
  | .idle => True
  | .readPid _ => f.read = [] ∧ f.lastRunTimedOut = false
  | .readTimed _ | .kill => f.read = [.pid f.calls]
  | .readAfterKill => f.read = [.pid f.calls] ∧ f.lastRunTimedOut = true
  | .fatal => False

/-! ## Children -/

/-- There is one child and no other. -/
def alone (pid : ℤ) (child : Child) : ℤ → Option Child :=
  Function.update (fun _ => none) pid (some child)

@[simp] theorem alone_self (pid : ℤ) (child : Child) : alone pid child pid = some child :=
  Function.update_self ..

theorem alone_eq_some {pid pid' : ℤ} {child child' : Child}
    (present : alone pid child pid' = some child') : pid' = pid ∧ child' = child := by
  by_cases same : pid' = pid
  · subst same
    rw [alone_self, Option.some.injEq] at present
    exact ⟨rfl, present.symm⟩
  · rw [alone, Function.update_of_ne same] at present
    exact absurd present (Option.some_ne_none _).symm

@[simp] theorem update_alone (pid : ℤ) (child child' : Child) :
    Function.update (alone pid child) pid (some child') = alone pid child' :=
  Function.update_idem ..

@[simp] theorem update_alone_none (pid : ℤ) (child : Child) :
    Function.update (alone pid child) pid none = fun _ => none := by
  rw [alone, Function.update_idem, Function.update_eq_self]

/-- A child whose stop has been reported: it sleeps, or it has been killed. -/
def Child.Rested (child : Child) : Prop := child.activity = .stopped true ∨ child.killed = true

/-- A child whose end or stop is still to be reported. -/
def Child.Executing (child : Child) : Prop :=
  child.activity = .running ∨ child.activity = .stopped false ∨
    ∃ status, child.activity = .zombie status ∧ WIFSTOPPED status = false

/-- What the fork server's flag says about its child after a report. -/
def Kept (childStopped : Bool) (pid : ℤ) (children : ℤ → Option Child) (killed : Bool) : Prop :=
  (childStopped = true ∧ ∃ child, children = alone pid child ∧ 0 < pid ∧ child.Rested ∧
      child.killed = killed) ∨
    (childStopped = false ∧ children = fun _ => none)

/-- The table of the children at a stage of the fork server. `killed` says whether the
child of the last run has been killed. -/
def Table (server : Server) (children : ℤ → Option Child) (killed : Bool) : Prop :=
  match server.stage with
  | .readRequest => Kept server.childStopped server.childPid children killed
  | .reap => server.childStopped = false ∧
      ∃ child, children = alone server.childPid child ∧ child.Rested ∧ child.killed = true
  | .start =>
      (server.childStopped = true ∧ ∃ child, children = alone server.childPid child ∧
        0 < server.childPid ∧ child.activity = .stopped true ∧ child.killed = false) ∨
      (server.childStopped = false ∧ children = fun _ => none)
  | .writePid | .wait => server.childStopped = false ∧
      ∃ child, children = alone server.childPid child ∧ 0 < server.childPid ∧ child.Executing ∧
        child.killed = killed ∧ child.run = server.served
  | .writeStatus status run => server.childStopped = false ∧ run = server.served ∧
      Kept (WIFSTOPPED status) server.childPid children killed
  | .exited => False

/-- Whether the child of the last run has been killed: the fuzzer knows, or the request
under way says so. -/
def Session.killed (s : Session) : Bool := s.ctl.headD s.fuzzer.lastRunTimedOut

/-! ## The invariant -/

/-- What a call has read when it returns. -/
def Call.Exact (call : Call) : Prop := call.read = [.pid call.run, .status call.run]

/-- **The invariant of a session, up to the request to stop.** -/
structure Settled (s : Session) : Prop where
  stream : s.st.map Message.origin ++ s.pending = s.fuzzer.awaited
  counts : s.server.served + s.ctl.length = s.fuzzer.calls
  single : s.ctl.length ≤ 1
  request : s.server.stage ≠ .readRequest → s.ctl = []
  pids : ∀ word ∈ s.st, ∀ run, word.origin = .pid run →
    word.value = s.server.childPid ∧ 0 < s.server.childPid
  childPid : s.fuzzer.stage = .kill ∨ (∃ timeout, s.fuzzer.stage = .readTimed timeout) →
    s.fuzzer.childPid = s.server.childPid ∧ 0 < s.server.childPid
  table : Table s.server s.children s.killed
  reads : s.fuzzer.HasRead
  log : ∀ call ∈ s.fuzzer.log, call.Exact

theorem Settled.init : Settled Session.init where
  stream := rfl
  counts := rfl
  single := Nat.zero_le _
  request := fun other => absurd rfl other
  pids := fun _ member => absurd member List.not_mem_nil
  childPid := by
    rintro (stage | ⟨_, stage⟩) <;> exact FuzzerStage.noConfusion stage
  table := .inr ⟨rfl, rfl⟩
  reads := trivial
  log := fun _ member => absurd member List.not_mem_nil

section Settled

variable {s : Session} (settled : Settled s)

include settled

/-- In the words between two calls nothing is under way. -/
theorem Settled.idle (idle : s.fuzzer.stage = .idle) :
    s.st = [] ∧ s.server.stage = .readRequest ∧ s.ctl = [] := by
  have total := settled.stream
  simp only [Fuzzer.awaited, idle] at total
  obtain ⟨nothing, written⟩ := List.append_eq_nil_iff.mp total
  have table := settled.table
  refine ⟨List.map_eq_nil_iff.mp nothing, ?_⟩
  cases stage : s.server.stage with
  | readRequest =>
      refine ⟨rfl, ?_⟩
      by_contra requested
      simp only [Session.pending, stage, if_neg requested, reduceCtorEq] at written
  | exited =>
      simp only [Table, stage] at table
  | _ => simp only [Session.pending, stage, reduceCtorEq] at written

/-- While the fork server is about to start a child the fuzzer waits for its process id,
and no run has timed out since the last request. -/
theorem Settled.starting (writes : s.pending = [.pid s.server.served, .status s.server.served])
    (past : s.server.stage ≠ .readRequest) :
    s.st = [] ∧ (∃ timeout, s.fuzzer.stage = .readPid timeout) ∧ s.killed = false ∧
      s.server.served = s.fuzzer.calls := by
  have total := settled.stream
  have reads := settled.reads
  have empty := settled.request past
  have counts := settled.counts
  rw [empty, List.length_nil, Nat.add_zero] at counts
  rw [writes] at total
  cases stage : s.fuzzer.stage with
  | readPid timeout =>
      simp only [Fuzzer.HasRead, stage] at reads
      have lengths := congrArg List.length total
      simp only [Fuzzer.awaited, stage, List.length_append, List.length_map, List.length_cons,
        List.length_nil] at lengths
      refine ⟨List.eq_nil_of_length_eq_zero (by omega), ⟨timeout, rfl⟩, ?_, counts⟩
      rw [Session.killed, empty]
      exact reads.2
  | _ =>
      have lengths := congrArg List.length total
      simp only [Fuzzer.awaited, stage, List.length_append, List.length_map, List.length_cons,
        List.length_nil] at lengths
      omega

/-- While the fuzzer waits for a status the child has been started. -/
theorem Settled.started (waits : s.fuzzer.awaited = [.status s.fuzzer.calls]) :
    s.ctl = [] ∧ (s.server.stage = .readRequest ∨ s.server.stage = .wait ∨
      ∃ status run, s.server.stage = .writeStatus status run) := by
  have lengths := congrArg List.length settled.stream
  have table := settled.table
  rw [waits] at lengths
  cases stage : s.server.stage with
  | readRequest =>
      refine ⟨?_, .inl rfl⟩
      by_contra requested
      simp only [Session.pending, stage, if_neg requested, List.length_append, List.length_map,
        List.length_cons, List.length_nil] at lengths
      omega
  | wait => exact ⟨settled.request (by rw [stage]; exact ServerStage.noConfusion), .inr (.inl rfl)⟩
  | writeStatus status run =>
      exact ⟨settled.request (by rw [stage]; exact ServerStage.noConfusion),
        .inr (.inr ⟨status, run, rfl⟩)⟩
  | exited => simp only [Table, stage] at table
  | _ =>
      simp only [Session.pending, stage, List.length_append, List.length_map, List.length_cons,
        List.length_nil] at lengths
      omega

/-! ## Steps of the children -/

omit settled in
/-- A child that moves leaves the table in order, when it moves as its stage allows. -/
theorem Table.child_moves {server : Server} {children : ℤ → Option Child} {killed : Bool} {pid : ℤ}
    {child child' : Child} (table : Table server children killed)
    (present : children pid = some child) (same : child'.killed = child.killed)
    (run : child'.run = child.run) (rests : child.Rested → child'.Rested)
    (executes : child.Executing → child'.Executing)
    (moves : ¬ (child.activity = .stopped true ∧ child.killed = false)) :
    Table server (Function.update children pid (some child')) killed := by
  have kept : ∀ {childStopped : Bool}, Kept childStopped server.childPid children killed →
      Kept childStopped server.childPid (Function.update children pid (some child')) killed := by
    rintro childStopped (⟨stopped, only, rfl, positive, rested, mark⟩ | ⟨_, rfl⟩)
    · obtain ⟨rfl, rfl⟩ := alone_eq_some present
      exact .inl ⟨stopped, child', update_alone .., positive, rests rested, same.trans mark⟩
    · exact absurd present (Option.some_ne_none _).symm
  simp only [Table] at table ⊢
  cases stage : server.stage with
  | readRequest =>
      simp only [stage] at table
      exact kept table
  | reap =>
      simp only [stage] at table
      obtain ⟨flag, only, rfl, rested, mark⟩ := table
      obtain ⟨rfl, rfl⟩ := alone_eq_some present
      exact ⟨flag, child', update_alone .., rests rested, same.trans mark⟩
  | start =>
      simp only [stage] at table
      rcases table with ⟨_, only, rfl, _, asleep, alive⟩ | ⟨_, rfl⟩
      · obtain ⟨rfl, rfl⟩ := alone_eq_some present
        exact absurd ⟨asleep, alive⟩ moves
      · exact absurd present (Option.some_ne_none _).symm
  | writePid | wait =>
      simp only [stage] at table
      obtain ⟨flag, only, rfl, positive, executing, mark, number⟩ := table
      obtain ⟨rfl, rfl⟩ := alone_eq_some present
      exact ⟨flag, child', update_alone .., positive, executes executing, same.trans mark,
        run.trans number⟩
  | writeStatus status number =>
      simp only [stage] at table
      exact ⟨table.1, table.2.1, kept table.2.2⟩
  | exited => simp only [stage] at table

/-- A step of the children alone keeps the invariant if it keeps the table. -/
theorem Settled.children_move {children : ℤ → Option Child}
    (table : Table s.server children s.killed) : Settled { s with children } :=
  { settled with table }

/-! ## Steps of the fuzzer -/

theorem Settled.call (timeout : Timeout) (idle : s.fuzzer.stage = .idle) :
    Settled (s.request timeout) := by
  obtain ⟨empty, stage, nothing⟩ := settled.idle idle
  have table := settled.table
  have counts := settled.counts
  rw [nothing, List.length_nil, Nat.add_zero] at counts
  have asked : s.ctl ++ [s.fuzzer.lastRunTimedOut] = [s.fuzzer.lastRunTimedOut] := by
    rw [nothing, List.nil_append]
  refine
    { stream := ?_, counts := ?_, single := ?_, request := fun other => absurd stage other
      pids := settled.pids, childPid := ?_, table := ?_, reads := ⟨rfl, rfl⟩, log := settled.log }
  · simp only [Session.request, Session.pending, Fuzzer.awaited, stage, asked, empty, List.map_nil,
      List.nil_append, if_neg (List.cons_ne_nil _ _)]
  · simp only [Session.request, asked, List.length_singleton, counts]
  · simp only [Session.request, asked, List.length_singleton, le_refl]
  · rintro (stage | ⟨_, stage⟩) <;> exact FuzzerStage.noConfusion stage
  · simp only [Session.killed, nothing, List.headD_nil] at table
    simp only [Session.request, Session.killed, asked, List.headD_cons]
    exact table

/-- The process id is that of the child, and the call goes on. -/
theorem Settled.pidRead_eq {timeout : Timeout} {word : Message} {rest : List Message}
    (reads : s.fuzzer.stage = .readPid timeout) (arrived : s.st = word :: rest) :
    word.origin = .pid s.fuzzer.calls ∧ word.value = s.server.childPid ∧ 0 < s.server.childPid ∧
      s.pidRead timeout word rest =
        { s with
          st := rest
          fuzzer :=
            { s.fuzzer with
              stage := .readTimed timeout
              childPid := word.value
              read := s.fuzzer.read ++ [word.origin] } } := by
  have total := settled.stream
  simp only [Fuzzer.awaited, reads, arrived, List.map_cons, List.cons_append,
    List.cons.injEq] at total
  obtain ⟨value, positive⟩ :=
    settled.pids word (by rw [arrived]; exact List.mem_cons_self) _ total.1
  refine ⟨total.1, value, positive, if_neg ?_⟩
  omega

theorem Settled.pidRead {timeout : Timeout} {word : Message} {rest : List Message}
    (reads : s.fuzzer.stage = .readPid timeout) (arrived : s.st = word :: rest) :
    Settled (s.pidRead timeout word rest) := by
  have total := settled.stream
  have nothing := settled.reads
  simp only [Fuzzer.awaited, reads, arrived, List.map_cons, List.cons_append,
    List.cons.injEq] at total
  simp only [Fuzzer.HasRead, reads] at nothing
  obtain ⟨own, value, positive, goesOn⟩ := settled.pidRead_eq reads arrived
  rw [goesOn]
  refine
    { settled with
      stream := total.2, pids := fun later member => settled.pids later ?_
      childPid := fun _ => ⟨value, positive⟩, table := settled.table, reads := ?_ }
  · rw [arrived]
    exact List.mem_cons_of_mem _ member
  · simp only [Fuzzer.HasRead, nothing.1, own, List.nil_append]

/-- The only word that is left for a call that waits for a status is its own. -/
theorem Settled.own_status (waits : s.fuzzer.awaited = [.status s.fuzzer.calls]) {word : Message}
    {rest : List Message} (arrived : s.st = word :: rest) :
    word.origin = .status s.fuzzer.calls ∧ rest = [] ∧ s.pending = [] := by
  have total := settled.stream
  rw [waits, arrived, List.map_cons, List.cons_append, List.cons.injEq] at total
  obtain ⟨own, others⟩ := total
  obtain ⟨none, written⟩ := List.append_eq_nil_iff.mp others
  exact ⟨own, List.map_eq_nil_iff.mp none, written⟩

/-- A call that gets its status returns with what it had to read. -/
theorem Settled.finish (settings : CrashSettings) (execFailed : Bool) {word : Message}
    {rest : List Message} (waits : s.fuzzer.awaited = [.status s.fuzzer.calls])
    (read : s.fuzzer.read = [.pid s.fuzzer.calls]) (arrived : s.st = word :: rest) :
    Settled { s with
      st := rest
      fuzzer := (s.fuzzer.statusRead word).finish settings execFailed } := by
  obtain ⟨own, empty, written⟩ := settled.own_status waits arrived
  refine
    { settled with
      stream := ?_, pids := fun later member => settled.pids later ?_, childPid := ?_
      table := settled.table, reads := trivial, log := ?_ }
  · rw [empty]
    exact written
  · rw [arrived]
    exact List.mem_cons_of_mem _ member
  · rintro (stage | ⟨_, stage⟩) <;> exact FuzzerStage.noConfusion stage
  · intro call member
    rcases List.mem_append.mp member with earlier | last
    · exact settled.log call earlier
    · rw [List.mem_singleton.mp last, Call.Exact]
      simp only [Fuzzer.statusRead, read, own, List.cons_append, List.nil_append]

omit settled in
/-- A word that is there in time is not taken for late. -/
theorem readTime_le (timeout : Timeout) (elapsed : ℕ) :
    ¬ timeout.ms < readTime timeout.ms elapsed := by
  have positive := timeout.positive
  simp only [readTime]
  split <;> omega

theorem Settled.timedOut {timeout : Timeout} (reads : s.fuzzer.stage = .readTimed timeout) :
    Settled { s with fuzzer := { s.fuzzer with stage := .kill, childStatus := -1 } } := by
  have total := settled.stream
  have nothing := settled.reads
  simp only [Fuzzer.awaited, reads] at total
  simp only [Fuzzer.HasRead, reads] at nothing
  exact
    { settled with
      stream := total, childPid := fun _ => settled.childPid (.inr ⟨timeout, reads⟩)
      table := settled.table, reads := nothing }

/-- The child is killed. Whatever it did in the meantime, the next request will say so. -/
theorem Settled.timeOut (reads : s.fuzzer.stage = .kill) : Settled s.timeOut := by
  have waits : s.fuzzer.awaited = [.status s.fuzzer.calls] := by simp only [Fuzzer.awaited, reads]
  have total := settled.stream
  have nothing := settled.reads
  have table := settled.table
  obtain ⟨empty, stages⟩ := settled.started waits
  obtain ⟨same, positive⟩ := settled.childPid (.inl reads)
  have marked : s.timeOut.killed = true := by
    simp only [Session.killed, Session.timeOut, empty, List.headD_nil]
  have kept : ∀ {childStopped : Bool}, Kept childStopped s.server.childPid s.children s.killed →
      Kept childStopped s.server.childPid (killChild s.children s.server.childPid) true := by
    rintro childStopped (⟨stopped, child, only, there, -, -⟩ | ⟨gone, none⟩)
    · refine .inl ⟨stopped, { child with killed := true }, ?_, there, ?_, rfl⟩
      · rw [killChild, only, alone_self, Option.map_some, update_alone]
      · exact .inr rfl
    · refine .inr ⟨gone, ?_⟩
      rw [killChild, none, Option.map_none, Function.update_eq_self]
  refine
    { settled with
      stream := ?_, childPid := ?_, table := ?_, reads := ?_ }
  · rw [waits] at total
    exact total
  · rintro (stage | ⟨_, stage⟩) <;> exact FuzzerStage.noConfusion stage
  · rw [marked]
    simp only [Session.timeOut, same, if_pos positive]
    rcases stages with stage | stage | ⟨status, run, stage⟩
    · simp only [Table, stage] at table ⊢
      exact kept table
    · simp only [Table, stage] at table ⊢
      obtain ⟨flag, child, only, there, executing, _, number⟩ := table
      refine ⟨flag, { child with killed := true }, ?_, there, executing, rfl, number⟩
      rw [killChild, only, alone_self, Option.map_some, update_alone]
    · simp only [Table, stage] at table ⊢
      exact ⟨table.1, table.2.1, kept table.2.2⟩
  · simp only [Fuzzer.HasRead, reads] at nothing
    exact ⟨nothing, rfl⟩

/-! ## Steps of the fork server -/

/-- The request decides between writing off, starting and resuming. -/
theorem Settled.requestRead {wasKilled : Bool} {rest : List Bool}
    (reads : s.server.stage = .readRequest) (arrived : s.ctl = wasKilled :: rest) :
    Settled { s with ctl := rest, server := s.server.requested wasKilled } := by
  have total := settled.stream
  have table := settled.table
  have counts := settled.counts
  have single := settled.single
  rw [arrived, List.length_cons] at counts single
  have last : rest = [] := List.eq_nil_of_length_eq_zero (by omega)
  subst last
  rw [List.length_nil] at counts
  simp only [Session.pending, reads, arrived, if_neg (List.cons_ne_nil _ _)] at total
  simp only [Table, reads, Session.killed, arrived, List.headD_cons] at table
  have served : s.server.served + 1 = s.fuzzer.calls := counts
  by_cases writtenOff : (s.server.childStopped && wasKilled) = true
  · have goes : s.server.requested wasKilled =
        { s.server with stage := .reap, childStopped := false, served := s.server.served + 1 } :=
      if_pos writtenOff
    rw [goes]
    obtain ⟨stopped, mark⟩ := (Bool.and_eq_true _ _).mp writtenOff
    refine
      { settled with
        stream := ?_, counts := served, single := Nat.zero_le _, request := fun _ => rfl
        table := ?_ }
    · simp only [Session.pending, served]
      exact total
    · rcases table with ⟨_, child, only, _, rested, killed⟩ | ⟨gone, _⟩
      · exact ⟨rfl, child, only, rested, killed.trans mark⟩
      · rw [gone] at stopped
        exact absurd stopped Bool.false_ne_true
  · have goes : s.server.requested wasKilled =
        { s.server with stage := .start, served := s.server.served + 1 } := if_neg writtenOff
    rw [goes]
    refine
      { settled with
        stream := ?_, counts := served, single := Nat.zero_le _, request := fun _ => rfl
        table := ?_ }
    · simp only [Session.pending, served]
      exact total
    · rcases table with ⟨stopped, child, only, positive, rested, killed⟩ | ⟨gone, none⟩
      · have alive : wasKilled = false := by
          rw [stopped, Bool.true_and] at writtenOff
          exact Bool.eq_false_iff.mpr writtenOff
        refine .inl ⟨stopped, child, only, positive, ?_, killed.trans alive⟩
        refine rested.resolve_right fun dead => ?_
        rw [killed, alive] at dead
        exact absurd dead Bool.false_ne_true
      · exact .inr ⟨gone, none⟩

theorem Settled.reaped (waits : s.server.stage = .reap) :
    Settled { s with
      children := Function.update s.children s.server.childPid none
      server := { s.server with stage := .start } } := by
  have total := settled.stream
  have table := settled.table
  simp only [Session.pending, waits] at total
  simp only [Table, waits] at table
  obtain ⟨gone, child, only, -, -⟩ := table
  have empty := settled.request (by rw [waits]; exact ServerStage.noConfusion)
  refine { settled with stream := total, request := fun _ => empty, table := ?_ }
  exact .inr ⟨gone, by rw [only, update_alone_none]⟩

theorem Settled.forked {pid : ℤ} (starts : s.server.stage = .start)
    (gone : s.server.childStopped = false) (positive : 0 < pid) :
    Settled { s with
      children := Function.update s.children pid (some ⟨.running, false, s.server.served⟩)
      server := { s.server with stage := .writePid, childPid := pid } } := by
  have total := settled.stream
  have table := settled.table
  have writes : s.pending = [.pid s.server.served, .status s.server.served] := by
    simp only [Session.pending, starts]
  obtain ⟨empty, ⟨timeout, stage⟩, alive, -⟩ :=
    settled.starting writes (by rw [starts]; exact ServerStage.noConfusion)
  have nothing := settled.request (by rw [starts]; exact ServerStage.noConfusion)
  simp only [Table, starts] at table
  rcases table with ⟨stopped, -⟩ | ⟨-, none⟩
  · rw [gone] at stopped
    exact absurd stopped Bool.false_ne_true
  rw [writes] at total
  refine
    { settled with
      stream := total, request := fun _ => nothing
      pids := fun word member => ?_, childPid := ?_
      table := ⟨gone, ⟨.running, false, s.server.served⟩, ?_, positive, .inl rfl, ?_, rfl⟩ }
  · rw [empty] at member
    exact absurd member List.not_mem_nil
  · rw [stage]
    rintro (stage | ⟨_, stage⟩) <;> exact FuzzerStage.noConfusion stage
  · rw [none]
    rfl
  · exact alive.symm

theorem Settled.resumed (starts : s.server.stage = .start)
    (stopped : s.server.childStopped = true) :
    Settled { s with
      children := Function.update s.children s.server.childPid
        ((s.children s.server.childPid).map fun child => child.continue s.server.served)
      server := { s.server with stage := .writePid, childStopped := false } } := by
  have total := settled.stream
  have table := settled.table
  have writes : s.pending = [.pid s.server.served, .status s.server.served] := by
    simp only [Session.pending, starts]
  obtain ⟨-, -, alive, -⟩ :=
    settled.starting writes (by rw [starts]; exact ServerStage.noConfusion)
  have nothing := settled.request (by rw [starts]; exact ServerStage.noConfusion)
  simp only [Table, starts] at table
  rcases table with ⟨-, child, only, positive, asleep, unkilled⟩ | ⟨gone, -⟩
  · rw [writes] at total
    have wakes : child.continue s.server.served =
        { child with activity := .running, run := s.server.served } := by
      simp only [Child.continue, asleep]
    refine
      { settled with
        stream := total, request := fun _ => nothing
        table := ⟨rfl, child.continue s.server.served, ?_, positive, ?_, ?_, ?_⟩ }
    · rw [only, alone_self, Option.map_some, update_alone]
    · rw [wakes]
      exact .inl rfl
    · rw [wakes]
      exact unkilled.trans alive.symm
    · rw [wakes]
  · rw [gone] at stopped
    exact absurd stopped Bool.false_ne_true

theorem Settled.pidWritten (writes : s.server.stage = .writePid) :
    Settled { s with
      st := s.st ++ [⟨s.server.childPid, .pid s.server.served⟩]
      server := { s.server with stage := .wait } } := by
  have total := settled.stream
  have table := settled.table
  simp only [Session.pending, writes] at total
  simp only [Table, writes] at table
  obtain ⟨flag, child, only, positive, rest⟩ := table
  have nothing := settled.request (by rw [writes]; exact ServerStage.noConfusion)
  refine
    { settled with
      stream := ?_, request := fun _ => nothing, pids := fun word member run origin => ?_
      table := ⟨flag, child, only, positive, rest⟩ }
  · simp only [Session.pending, List.map_append, List.map_cons, List.map_nil, List.append_assoc,
      List.cons_append, List.nil_append]
    exact total
  · rcases List.mem_append.mp member with earlier | last
    · exact settled.pids word earlier run origin
    · rw [List.mem_singleton.mp last]
      exact ⟨rfl, positive⟩

/-- The fork server has the status of the run it was asked for. -/
theorem Settled.statusSeen {child : Child} {status : ℤ} {children : ℤ → Option Child}
    (waits : s.server.stage = .wait) (present : s.children s.server.childPid = some child)
    (kept : child.Executing → s.children = alone s.server.childPid child →
      0 < s.server.childPid → child.killed = s.killed →
        Kept (WIFSTOPPED status) s.server.childPid children s.killed) :
    Settled { s with
      children, server := { s.server with stage := .writeStatus status child.run } } := by
  have total := settled.stream
  have table := settled.table
  simp only [Session.pending, waits] at total
  simp only [Table, waits] at table
  obtain ⟨flag, only, there, positive, executing, mark, number⟩ := table
  have same : child = only := by
    rw [there] at present
    exact (alone_eq_some present).2
  subst same
  have nothing := settled.request (by rw [waits]; exact ServerStage.noConfusion)
  refine
    { settled with
      stream := ?_, request := fun _ => nothing
      table := ⟨flag, number, kept executing there positive mark⟩ }
  simp only [Session.pending, number]
  exact total

theorem Settled.statusWritten {status : ℤ} {run : ℕ}
    (writes : s.server.stage = .writeStatus status run) :
    Settled { s with
      st := s.st ++ [⟨status, .status run⟩]
      server := s.server.relayed status } := by
  have total := settled.stream
  have table := settled.table
  simp only [Session.pending, writes] at total
  simp only [Table, writes] at table
  obtain ⟨flag, number, kept⟩ := table
  have nothing := settled.request (by rw [writes]; exact ServerStage.noConfusion)
  refine
    { settled with
      stream := ?_, request := fun other => absurd rfl other
      pids := fun word member number origin => ?_, table := ?_ }
  · simp only [Session.pending, Server.relayed, nothing, if_true, List.map_append, List.map_cons,
      List.map_nil, List.append_nil]
    exact total
  · rcases List.mem_append.mp member with earlier | last
    · exact settled.pids word earlier number origin
    · rw [List.mem_singleton.mp last] at origin
      exact Origin.noConfusion origin
  · have relays : (s.server.relayed status).childStopped = WIFSTOPPED status := by
      simp only [Server.relayed, flag]
      cases WIFSTOPPED status <;> rfl
    simp only [Table, Server.relayed] at relays ⊢
    rw [relays]
    exact kept

end Settled

/-! ## Every step -/

variable {settings : CrashSettings} {persistent : Bool} {s t : Session}

theorem Settled.readTimed (settled : Settled s) {timeout : Timeout}
    (reads : s.fuzzer.stage = .readTimed timeout) :
    s.fuzzer.awaited = [.status s.fuzzer.calls] ∧ s.fuzzer.read = [.pid s.fuzzer.calls] := by
  have nothing := settled.reads
  simp only [Fuzzer.HasRead, reads] at nothing
  exact ⟨by simp only [Fuzzer.awaited, reads], nothing⟩

theorem Settled.readAfterKill (settled : Settled s) (reads : s.fuzzer.stage = .readAfterKill) :
    s.fuzzer.awaited = [.status s.fuzzer.calls] ∧ s.fuzzer.read = [.pid s.fuzzer.calls] ∧
      s.fuzzer.lastRunTimedOut = true := by
  have nothing := settled.reads
  simp only [Fuzzer.HasRead, reads] at nothing
  exact ⟨by simp only [Fuzzer.awaited, reads], nothing⟩

/-- The word is there in time: the call returns. -/
theorem timedRead_eq (s : Session) (execFailed : Bool) (timeout : Timeout) (elapsed : ℕ)
    (word : Message) (rest : List Message) :
    s.timedRead settings execFailed timeout.ms elapsed word rest =
      { s with st := rest, fuzzer := (s.fuzzer.statusRead word).finish settings execFailed } := by
  rw [Session.timedRead, if_neg (readTime_le timeout elapsed)]

theorem Settled.not_exited (settled : Settled s) : s.server.stage ≠ .exited := by
  intro stage
  have table := settled.table
  simp only [Table, stage] at table

/-- A signal is not the status of a stop. -/
theorem not_stopped_of_signalled {status : ℤ} (signalled : WIFSIGNALED status = true) :
    WIFSTOPPED status = false := by
  have ended := of_decide_eq_true signalled
  refine decide_eq_false ?_
  rw [WTERMSIG] at ended
  omega

/-- A child the fork server waits for is there. -/
theorem Settled.not_absent (settled : Settled s)
    (waits : s.server.stage = .reap ∨ s.server.stage = .wait) :
    s.children s.server.childPid ≠ none := by
  have table := settled.table
  rcases waits with stage | stage
  · simp only [Table, stage] at table
    obtain ⟨-, child, only, -⟩ := table
    rw [only, alone_self]
    exact Option.some_ne_none child
  · simp only [Table, stage] at table
    obtain ⟨-, child, only, -⟩ := table
    rw [only, alone_self]
    exact Option.some_ne_none child

/-- The flag stays set. -/
theorem RunStep.stopSoon (taken : RunStep settings persistent s t) (running : t.stopSoon = false) :
    s.stopSoon = false := by
  cases taken with
  | interrupt => exact Bool.noConfusion running
  | pidRead reads arrived =>
      rw [Session.pidRead] at running
      split at running <;> exact running
  | _ => exact running

/-- **Every step keeps the invariant**, up to the request to stop. -/
theorem Settled.step (settled : Settled s) (taken : Uninterrupted settings persistent s t) :
    Settled t := by
  obtain ⟨taken, running⟩ := taken
  have before := taken.stopSoon running
  cases taken with
  | call timeout idle serves => exact settled.call timeout idle
  | callFails idle gone => exact absurd gone settled.not_exited
  | pidRead reads arrived => exact settled.pidRead reads arrived
  | statusRead elapsed execFailed reads arrived goesOn =>
      obtain ⟨waits, read⟩ := settled.readTimed reads
      rw [timedRead_eq]
      exact settled.finish settings execFailed waits read arrived
  | quit reads arrived stops => exact Bool.noConfusion (before.symm.trans stops)
  | hungUp reads nothing gone => exact absurd gone settled.not_exited
  | timedOut reads nothing serves => exact settled.timedOut reads
  | kill reads => exact settled.timeOut reads
  | lateRead execFailed reads arrived =>
      obtain ⟨waits, read, -⟩ := settled.readAfterKill reads
      exact settled.finish settings execFailed waits read arrived
  | interrupt => exact Bool.noConfusion running
  | serverDies handled stops => exact Bool.noConfusion (before.symm.trans stops)
  | requestRead reads arrived => exact settled.requestRead reads arrived
  | reaped waits present ended => exact settled.reaped waits
  | forked pid starts gone positive unused => exact settled.forked starts gone positive
  | resumed starts stopped => exact settled.resumed starts stopped
  | pidWritten writes => exact settled.pidWritten writes
  | endSeen waits present ended =>
      refine settled.statusSeen waits present fun executing only _ _ => .inr ⟨?_, ?_⟩
      · rcases executing with runs | stops | ⟨status, dead, exits⟩
        · exact Activity.noConfusion (runs.symm.trans ended)
        · exact Activity.noConfusion (stops.symm.trans ended)
        · rw [ended, Activity.zombie.injEq] at dead
          exact dead ▸ exits
      · rw [only, update_alone_none]
  | @stopSeen child waits present stopped untraced =>
      refine settled.statusSeen waits present fun _ only positive mark =>
        .inl ⟨rfl, { child with activity := .stopped true }, ?_, positive, .inl rfl, mark⟩
      rw [only, update_alone]
  | waitFailed waits absent => exact absurd absent (settled.not_absent waits)
  | statusWritten writes => exact settled.statusWritten writes
  | @childStops pid child present runs =>
      refine settled.children_move (settled.table.child_moves present rfl rfl ?_ ?_ ?_)
      · exact fun rested => .inr (rested.resolve_left fun asleep =>
          Activity.noConfusion (runs.symm.trans asleep))
      · exact fun _ => .inr (.inl rfl)
      · exact fun asleep => Activity.noConfusion (runs.symm.trans asleep.1)
  | childEnds pid status present runs ends =>
      refine settled.children_move (settled.table.child_moves present rfl rfl ?_ ?_ ?_)
      · exact fun rested => .inr (rested.resolve_left fun asleep =>
          Activity.noConfusion (runs.symm.trans asleep))
      · exact fun _ => .inr (.inr ⟨status, rfl, ends⟩)
      · exact fun asleep => Activity.noConfusion (runs.symm.trans asleep.1)
  | @runnerDies pid child present signalled runs ends =>
      refine settled.children_move (settled.table.child_moves present rfl rfl ?_ ?_ ?_)
      · exact fun _ => .inr signalled
      · exact fun _ => .inr (.inr ⟨_, rfl, not_stopped_of_signalled ends⟩)
      · exact fun asleep => Bool.noConfusion (signalled.symm.trans asleep.2)
  | @sleeperDies pid child reported present signalled stopped =>
      refine settled.children_move (settled.table.child_moves present rfl rfl ?_ ?_ ?_)
      · exact fun _ => .inr signalled
      · exact fun _ => .inr (.inr ⟨SIGKILL, rfl, by decide⟩)
      · exact fun asleep => Bool.noConfusion (signalled.symm.trans asleep.2)
  | @sleeperWakes pid child reported present signalled stopped =>
      refine settled.children_move (settled.table.child_moves present rfl rfl ?_ ?_ ?_)
      · exact fun _ => .inr signalled
      · exact fun _ => .inl rfl
      · exact fun asleep => Bool.noConfusion (signalled.symm.trans asleep.2)

/-! ## Every call returns -/

/-- What a child can still do by itself. -/
def Activity.energy : Activity → ℕ
  | .running => 2
  | .stopped _ => 1
  | .zombie _ => 0

/-- The calls the fuzzer still makes before it returns. -/
def FuzzerStage.rank : FuzzerStage → ℕ
  | .readPid _ => 40
  | .readTimed _ => 30
  | .kill => 20
  | .readAfterKill => 10
  | .idle | .fatal => 0

/-- The calls the fork server still makes before it waits for a request. -/
def Session.serverRank (s : Session) : ℕ :=
  match s.server.stage with
  | .readRequest => 60 * s.ctl.length
  | .reap => 50
  | .start => 40
  | .writePid => 30
  | .wait => 20
  | .writeStatus _ _ => 10
  | .exited => 0

/-- What the child of the fork server can still do by itself. -/
def Session.energy (s : Session) : ℕ :=
  ((s.children s.server.childPid).map fun child => child.activity.energy).getD 0

/-- The steps that are left of a call. -/
def Session.rank (s : Session) : ℕ := s.fuzzer.stage.rank + s.serverRank + s.energy

theorem Activity.energy_le (activity : Activity) : activity.energy ≤ 2 := by
  cases activity with
  | running => exact le_refl 2
  | stopped _ => exact Nat.le_succ 1
  | zombie _ => exact Nat.zero_le 2

theorem Session.energy_le (s : Session) : s.energy ≤ 2 := by
  simp only [Session.energy]
  cases s.children s.server.childPid with
  | none => exact Nat.zero_le 2
  | some child => exact child.activity.energy_le

/-- A step of the fuzzer. -/
theorem rank_lt_of_fuzzer (server : t.serverRank = s.serverRank) (energy : t.energy = s.energy)
    (less : t.fuzzer.stage.rank < s.fuzzer.stage.rank) : t.rank < s.rank := by
  simp only [Session.rank, server, energy]
  omega

/-- A step of the fork server, which outweighs what a new child can do. -/
theorem rank_lt_of_server (fuzzer : t.fuzzer = s.fuzzer) (less : t.serverRank + 2 < s.serverRank) :
    t.rank < s.rank := by
  have bound := t.energy_le
  simp only [Session.rank, fuzzer]
  omega

/-- A signal does not move the child. -/
theorem energy_timeOut (s : Session) : s.timeOut.energy = s.energy := by
  have same : ∀ pid, ((killChild s.children pid s.server.childPid).map
      fun child => child.activity.energy) =
        (s.children s.server.childPid).map fun child => child.activity.energy := by
    intro pid
    by_cases here : s.server.childPid = pid
    · subst here
      rw [killChild, Function.update_self, Option.map_map]
      rfl
    · rw [killChild, Function.update_of_ne here]
  simp only [Session.energy, Session.timeOut]
  split
  · rw [same]
  · rfl

/-- The child that moves is the one the fork server knows. -/
theorem Table.only_child {server : Server} {children : ℤ → Option Child} {killed : Bool} {pid : ℤ}
    {child : Child} (table : Table server children killed) (present : children pid = some child) :
    pid = server.childPid := by
  have kept : ∀ {childStopped : Bool}, Kept childStopped server.childPid children killed →
      pid = server.childPid := by
    rintro childStopped (⟨_, only, rfl, _⟩ | ⟨_, rfl⟩)
    · exact (alone_eq_some present).1
    · exact absurd present (Option.some_ne_none _).symm
  cases stage : server.stage with
  | readRequest =>
      simp only [Table, stage] at table
      exact kept table
  | reap =>
      simp only [Table, stage] at table
      obtain ⟨-, only, rfl, -⟩ := table
      exact (alone_eq_some present).1
  | start =>
      simp only [Table, stage] at table
      rcases table with ⟨-, only, rfl, -⟩ | ⟨-, rfl⟩
      · exact (alone_eq_some present).1
      · exact absurd present (Option.some_ne_none _).symm
  | writePid | wait =>
      simp only [Table, stage] at table
      obtain ⟨-, only, rfl, -⟩ := table
      exact (alone_eq_some present).1
  | writeStatus =>
      simp only [Table, stage] at table
      exact kept table.2.2
  | exited => simp only [Table, stage] at table

/-- A child that moves by itself comes closer to its end. -/
theorem Settled.child_rank (settled : Settled s) {pid : ℤ} {child child' : Child}
    (present : s.children pid = some child)
    (less : child'.activity.energy < child.activity.energy) :
    Session.rank { s with children := Function.update s.children pid (some child') } < s.rank := by
  have known := settled.table.only_child present
  subst known
  have before : s.energy = child.activity.energy := by
    simp only [Session.energy, present, Option.map_some, Option.getD_some]
  have after : Session.energy
      { s with children := Function.update s.children s.server.childPid (some child') } =
        child'.activity.energy := by
    simp only [Session.energy, Function.update_self, Option.map_some, Option.getD_some]
  simp only [Session.rank, before, after, Session.serverRank]
  omega

theorem requested_stage (server : Server) (wasKilled : Bool) :
    (server.requested wasKilled).stage = .reap ∨ (server.requested wasKilled).stage = .start := by
  simp only [Server.requested]
  split
  · exact .inl rfl
  · exact .inr rfl

/-- Every step within a call brings it closer to its end. -/
theorem Settled.rank_lt (settled : Settled s) (busy : s.fuzzer.stage ≠ .idle)
    (kills : settings.childKillSignal = SIGKILL) (taken : Uninterrupted settings persistent s t) :
    t.rank < s.rank := by
  obtain ⟨taken, running⟩ := taken
  have before := taken.stopSoon running
  cases taken with
  | call timeout idle serves => exact absurd idle busy
  | callFails idle gone => exact absurd idle busy
  | pidRead reads arrived =>
      rw [(settled.pidRead_eq reads arrived).2.2.2]
      refine rank_lt_of_fuzzer rfl rfl ?_
      simp only [reads, FuzzerStage.rank, Nat.reduceLT]
  | statusRead elapsed execFailed reads arrived goesOn =>
      rw [timedRead_eq]
      refine rank_lt_of_fuzzer rfl rfl ?_
      simp only [Fuzzer.finish, reads, FuzzerStage.rank, Nat.reduceLT]
  | quit reads arrived stops => exact Bool.noConfusion (before.symm.trans stops)
  | hungUp reads nothing gone => exact absurd gone settled.not_exited
  | timedOut reads nothing serves =>
      refine rank_lt_of_fuzzer rfl rfl ?_
      simp only [reads, FuzzerStage.rank, Nat.reduceLT]
  | kill reads =>
      refine rank_lt_of_fuzzer rfl (energy_timeOut s) ?_
      simp only [Session.timeOut, reads, FuzzerStage.rank, Nat.reduceLT]
  | lateRead execFailed reads arrived =>
      refine rank_lt_of_fuzzer rfl rfl ?_
      simp only [Fuzzer.finish, reads, FuzzerStage.rank, Nat.reduceLT]
  | interrupt => exact Bool.noConfusion running
  | serverDies handled stops => exact Bool.noConfusion (before.symm.trans stops)
  | @requestRead wasKilled rest reads arrived =>
      refine rank_lt_of_server rfl ?_
      have before : s.serverRank = 60 * (rest.length + 1) := by
        simp only [Session.serverRank, reads, arrived, List.length_cons]
      rcases requested_stage s.server wasKilled with stage | stage
      · rw [before]
        simp only [Session.serverRank, stage]
        omega
      · rw [before]
        simp only [Session.serverRank, stage]
        omega
  | reaped waits present ended =>
      refine rank_lt_of_server rfl ?_
      simp only [Session.serverRank, waits, Nat.reduceAdd, Nat.reduceLT]
  | forked pid starts gone positive unused =>
      refine rank_lt_of_server rfl ?_
      simp only [Session.serverRank, starts, Nat.reduceAdd, Nat.reduceLT]
  | resumed starts stopped =>
      refine rank_lt_of_server rfl ?_
      simp only [Session.serverRank, starts, Nat.reduceAdd, Nat.reduceLT]
  | pidWritten writes =>
      refine rank_lt_of_server rfl ?_
      simp only [Session.serverRank, writes, Nat.reduceAdd, Nat.reduceLT]
  | endSeen waits present ended =>
      refine rank_lt_of_server rfl ?_
      simp only [Session.serverRank, waits, Nat.reduceAdd, Nat.reduceLT]
  | stopSeen waits present stopped untraced =>
      refine rank_lt_of_server rfl ?_
      simp only [Session.serverRank, waits, Nat.reduceAdd, Nat.reduceLT]
  | waitFailed waits absent => exact absurd absent (settled.not_absent waits)
  | statusWritten writes =>
      refine rank_lt_of_server rfl ?_
      have empty := settled.request (by rw [writes]; exact ServerStage.noConfusion)
      simp only [Session.serverRank, Server.relayed, writes, empty, List.length_nil, Nat.mul_zero,
        Nat.zero_add, Nat.reduceLT]
  | childStops present runs =>
      refine settled.child_rank present ?_
      simp only [runs, Activity.energy, Nat.reduceLT]
  | childEnds pid status present runs ends =>
      refine settled.child_rank present ?_
      simp only [runs, Activity.energy, Nat.reduceLT]
  | runnerDies present signalled runs ends =>
      refine settled.child_rank present ?_
      simp only [runs, Activity.energy, Nat.reduceLT]
  | sleeperDies present signalled stopped _ =>
      refine settled.child_rank present ?_
      simp only [stopped, Activity.energy, Nat.reduceLT]
  | sleeperWakes present signalled stopped wakes =>
      exact absurd (kills.symm.trans wakes) (by decide)

/-- A child that has been killed or has ended is on its way out of `waitpid`. -/
theorem killed_moves {pid : ℤ} {child : Child} (running : s.stopSoon = false)
    (kills : settings.childKillSignal = SIGKILL) (present : s.children pid = some child)
    (signalled : child.killed = true) (unended : ∀ status, child.activity ≠ .zombie status) :
    ∃ t, Uninterrupted settings persistent s t := by
  cases activity : child.activity with
  | running =>
      exact ⟨_, .runnerDies present signalled activity (by rw [kills]; decide), running⟩
  | stopped reported => exact ⟨_, .sleeperDies present signalled activity kills, running⟩
  | zombie status => exact absurd activity (unended status)

/-- While the fork server owes a word it or its child can go on, or the child may take its
time and has not been killed. -/
theorem Settled.server_moves (settled : Settled s) (running : s.stopSoon = false)
    (kills : settings.childKillSignal = SIGKILL) (owes : s.pending ≠ [])
    (hurry : s.server.stage = .wait → s.killed = true) :
    ∃ t, Uninterrupted settings persistent s t := by
  have table := settled.table
  cases stage : s.server.stage with
  | readRequest =>
      cases asked : s.ctl with
      | nil =>
          refine absurd ?_ owes
          simp only [Session.pending, stage, asked, if_true]
      | cons wasKilled rest => exact ⟨_, .requestRead stage asked, running⟩
  | reap =>
      simp only [Table, stage] at table
      obtain ⟨-, child, only, -, signalled⟩ := table
      have present : s.children s.server.childPid = some child := by rw [only, alone_self]
      by_cases unended : ∀ status, child.activity ≠ .zombie status
      · exact killed_moves running kills present signalled unended
      · simp only [ne_eq, not_forall, not_not] at unended
        obtain ⟨status, ended⟩ := unended
        exact ⟨_, .reaped stage present ended, running⟩
  | start =>
      simp only [Table, stage] at table
      rcases table with ⟨stopped, -⟩ | ⟨gone, none⟩
      · exact ⟨_, .resumed stage stopped, running⟩
      · exact ⟨_, .forked 1 stage gone Int.one_pos (by rw [none]), running⟩
  | writePid => exact ⟨_, .pidWritten stage, running⟩
  | wait =>
      have signal := hurry stage
      simp only [Table, stage] at table
      obtain ⟨-, child, only, -, -, mark, -⟩ := table
      have present : s.children s.server.childPid = some child := by rw [only, alone_self]
      by_cases unended : ∀ status, child.activity ≠ .zombie status
      · exact killed_moves running kills present (mark.trans signal) unended
      · simp only [ne_eq, not_forall, not_not] at unended
        obtain ⟨status, ended⟩ := unended
        exact ⟨_, .endSeen stage present ended, running⟩
  | writeStatus status run => exact ⟨_, .statusWritten stage, running⟩
  | exited => exact absurd stage settled.not_exited

/-- Within a call some party can go on. -/
theorem Settled.progress (settled : Settled s) (running : s.stopSoon = false)
    (kills : settings.childKillSignal = SIGKILL) (busy : s.fuzzer.stage ≠ .idle) :
    ∃ t, Uninterrupted settings persistent s t := by
  have reads := settled.reads
  have total := settled.stream
  cases stage : s.fuzzer.stage with
  | idle => exact absurd stage busy
  | readPid timeout =>
      cases arrived : s.st with
      | cons word rest =>
          refine ⟨_, .pidRead stage arrived, ?_⟩
          rw [(settled.pidRead_eq stage arrived).2.2.2]
          exact running
      | nil =>
          simp only [Fuzzer.awaited, stage, arrived, List.map_nil, List.nil_append] at total
          refine settled.server_moves running kills (by rw [total]; exact List.cons_ne_nil _ _)
            fun waits => ?_
          simp only [Session.pending, waits, List.cons.injEq, reduceCtorEq, false_and] at total
  | readTimed timeout =>
      cases arrived : s.st with
      | nil => exact ⟨_, .timedOut stage arrived settled.not_exited, running⟩
      | cons word rest => exact ⟨_, .statusRead 0 false stage arrived running, running⟩
  | kill => exact ⟨_, .kill stage, running⟩
  | readAfterKill =>
      cases arrived : s.st with
      | cons word rest => exact ⟨_, .lateRead false stage arrived, running⟩
      | nil =>
          obtain ⟨waits, -, late⟩ := settled.readAfterKill stage
          obtain ⟨nothing, -⟩ := settled.started waits
          rw [waits, arrived, List.map_nil, List.nil_append] at total
          refine settled.server_moves running kills (by rw [total]; exact List.cons_ne_nil _ _)
            fun _ => ?_
          rw [Session.killed, nothing]
          exact late
  | fatal => simp only [Fuzzer.HasRead, stage] at reads

/-- A call has returned, and has read its two words. -/
def Session.Returned (before after : Session) : Prop :=
  after.fuzzer.stage = .idle ∧ ∃ result, after.fuzzer.log = before.fuzzer.log ++
    [⟨before.fuzzer.calls, [.pid before.fuzzer.calls, .status before.fuzzer.calls], result⟩]

/-- Within a call nothing is added to the log. -/
def Session.Within (before after : Session) : Prop :=
  Settled after ∧ after.stopSoon = false ∧ after.fuzzer.stage ≠ .idle ∧
    after.fuzzer.calls = before.fuzzer.calls ∧ after.fuzzer.log = before.fuzzer.log

/-- A step within a call goes on within it or returns. -/
theorem Session.Within.step {s u v : Session} (within : s.Within u)
    (taken : Uninterrupted settings persistent u v) : s.Within v ∨ s.Returned v := by
  obtain ⟨settled, before, busy, calls, log⟩ := within
  have finishes : ∀ {word : Message} {rest : List Message} (execFailed : Bool),
      u.fuzzer.awaited = [.status u.fuzzer.calls] → u.fuzzer.read = [.pid u.fuzzer.calls] →
      u.st = word :: rest → s.Returned
        { u with
          st := rest
          fuzzer := (u.fuzzer.statusRead word).finish settings execFailed } := by
    intro word rest execFailed waits read arrived
    obtain ⟨own, -, -⟩ := settled.own_status waits arrived
    refine ⟨rfl, runResult settings execFailed u.fuzzer.lastRunTimedOut word.value, ?_⟩
    simp only [Fuzzer.finish, Fuzzer.statusRead, log, calls, read, own, List.cons_append,
      List.nil_append]
  have still := settled.step taken
  obtain ⟨taken, running⟩ := taken
  cases taken with
  | call timeout idle serves => exact absurd idle busy
  | callFails idle gone => exact absurd idle busy
  | pidRead reads arrived =>
      refine .inl ⟨still, running, ?_⟩
      rw [(settled.pidRead_eq reads arrived).2.2.2]
      exact ⟨FuzzerStage.noConfusion, calls, log⟩
  | statusRead elapsed execFailed reads arrived goesOn =>
      obtain ⟨waits, read⟩ := settled.readTimed reads
      rw [timedRead_eq]
      exact .inr (finishes execFailed waits read arrived)
  | quit reads arrived stops => exact Bool.noConfusion (before.symm.trans stops)
  | hungUp reads nothing gone => exact absurd gone settled.not_exited
  | timedOut reads nothing serves =>
      exact .inl ⟨still, running, FuzzerStage.noConfusion, calls, log⟩
  | kill reads => exact .inl ⟨still, running, FuzzerStage.noConfusion, calls, log⟩
  | lateRead execFailed reads arrived =>
      obtain ⟨waits, read, -⟩ := settled.readAfterKill reads
      exact .inr (finishes execFailed waits read arrived)
  | _ => exact .inl ⟨still, running, busy, calls, log⟩

/-- With `SIGKILL` every call returns. -/
theorem Settled.returns (settled : Settled s) (running : s.stopSoon = false)
    (kills : settings.childKillSignal = SIGKILL) (busy : s.fuzzer.stage ≠ .idle) :
    Inevitable (Uninterrupted settings persistent) s.Returned s := by
  refine Inevitable.of_measure (fun u => s.Within u ∨ s.Returned u) Session.rank ?_
    (.inl ⟨settled, running, busy, rfl, rfl⟩)
  rintro u (inside | returned)
  · right
    have ⟨there, goesOn, during, _⟩ := inside
    exact ⟨there.progress goesOn kills during, fun v taken =>
      ⟨inside.step taken, there.rank_lt during kills taken⟩⟩
  · exact .inl returned

/-! ## Whole sessions -/

end GreenFuzz.ForkServer
