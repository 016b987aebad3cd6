import Mathlib.Logic.Function.Basic
import Mathlib.Data.Int.Basic
import Mathlib.Tactic.Common

/-!
# Runs of the target through the fork server

For each execution the fuzzer (`afl_fsrv_run_target`) writes a word to the
control pipe that says whether the previous run timed out, reads the process id
of the child from the status pipe, and waits for the wait status of the child
with a time limit (`read_s32_timed`). When the limit passes it kills the child
and reads the status without a limit. The fork server (the loop of
`__afl_start_forkserver`) reads the word, starts a child or resumes the one that
has stopped at the end of a persistent iteration, writes the process id, waits
for the child and writes the status. A child that had stopped while the fuzzer
was already killing it is written off when the next word says so.

The processes of the operating system are the third party. A child may stop,
exit or crash at any time, or do nothing; a signal that kills it is delivered
some time after it was sent. `RunStep` interleaves the three. The kill signal is a
setting: unlike `SIGKILL`, another one need not end the child, and does nothing to
one that has stopped, where only `SIGCONT` is not held back.

When the user asks to stop, the handler of the fuzzer (`afl_states_stop`) sets a flag
and sends its signals to the child and to the fork server. Interrupted reads are
restarted, so a call notices by the flag, or by a pipe whose other end is gone.

The words in the status pipe carry the run they were written for. The code does not
see this, and no step depends on it.
-/

set_option autoImplicit false

namespace GreenFuzz.ForkServer

/-! ## Wait statuses -/

/-- `WIFSTOPPED(status)`. -/
def WIFSTOPPED (status : ℤ) : Bool := status % 256 = 127

/-- `WTERMSIG(status)`. -/
def WTERMSIG (status : ℤ) : ℤ := status % 128

/-- `WIFSIGNALED(status)`. -/
def WIFSIGNALED (status : ℤ) : Bool := 0 < WTERMSIG status ∧ WTERMSIG status < 127

/-- `WEXITSTATUS(status)`. -/
def WEXITSTATUS (status : ℤ) : ℤ := status / 256 % 256

/-- The status of a child that has raised `SIGSTOP`. -/
def stoppedStatus : ℤ := 19 * 256 + 127

def SIGKILL : ℤ := 9

def SIGCONT : ℤ := 18

/-! ## The processes -/

/-- What a child is doing. A stop is reported to its parent once. -/
inductive Activity where
  | running
  | stopped (reported : Bool)
  /-- It has ended, and its parent has not waited for it. -/
  | zombie (status : ℤ)

/-- A child of the fork server. `run` is the run it executes or has executed last. -/
structure Child where
  activity : Activity
  /-- The kill signal has been sent. -/
  killed : Bool
  run : ℕ

/-- The effect of `SIGCONT` for a run. -/
def Child.continue (child : Child) (run : ℕ) : Child :=
  match child.activity with
  | .stopped _ => { child with activity := .running, run }
  | _ => child

/-! ## The two sides -/

/-- What a word in the status pipe is, and the run it is for. -/
inductive Origin where
  | pid (run : ℕ)
  | status (run : ℕ)
  deriving DecidableEq

/-- A word in the status pipe. -/
structure Message where
  value : ℤ
  origin : Origin

/-- `fsrv_run_result_t`. -/
inductive RunResult where
  | ok
  | tmout
  | crash
  | error
  deriving DecidableEq

/-- What a call of `afl_fsrv_run_target` read and returned. -/
structure Call where
  run : ℕ
  read : List Origin
  result : RunResult

/-- The time limit of a call, at least a millisecond: every caller takes it from a
setting that is checked to be positive. -/
structure Timeout where
  ms : ℕ
  positive : 0 < ms

/-- Where `afl_fsrv_run_target` is. -/
inductive FuzzerStage where
  /-- Between two calls. -/
  | idle
  /-- The request is written. -/
  | readPid (timeout : Timeout)
  /-- In `read_s32_timed`. -/
  | readTimed (timeout : Timeout)
  /-- `exec_ms > timeout`. -/
  | kill
  /-- The read after the kill. -/
  | readAfterKill
  /-- "Fork server is misbehaving (OOM?)" -/
  | fatal

/-- The side of the fuzzer. -/
structure Fuzzer where
  stage : FuzzerStage
  lastRunTimedOut : Bool
  childPid : ℤ
  childStatus : ℤ
  totalExecs : ℕ
  /-- The calls so far, and the words the current one has read. -/
  calls : ℕ
  read : List Origin
  /-- The calls that have returned. -/
  log : List Call

/-- Where the loop of `__afl_start_forkserver` is. -/
inductive ServerStage where
  | readRequest
  /-- Before the first `waitpid`, which writes off a stopped child. -/
  | reap
  /-- Before `fork` or `SIGCONT`. -/
  | start
  | writePid
  /-- Before the second `waitpid`. -/
  | wait
  | writeStatus (status : ℤ) (run : ℕ)
  /-- `_exit(1)` after a `waitpid` that fails, or ended by a signal. -/
  | exited

/-- The side of the fork server. -/
structure Server where
  stage : ServerStage
  childStopped : Bool
  childPid : ℤ
  /-- The requests read so far. -/
  served : ℕ

/-- The settings of the fuzzer that the outcome of a run depends on. -/
structure CrashSettings where
  usesAsan : ℕ
  usesCrashExitcode : Bool
  crashExitcode : ℤ
  /-- `AFL_KILL_SIGNAL`, or `SIGKILL`. -/
  childKillSignal : ℤ

/-- The two sides, the children by process id, the pipes and the flag of the signal
handler. -/
structure Session where
  fuzzer : Fuzzer
  server : Server
  children : ℤ → Option Child
  ctl : List Bool
  st : List Message
  stopSoon : Bool

/-- After the handshake. -/
def Session.init : Session where
  fuzzer :=
    { stage := .idle, lastRunTimedOut := false, childPid := -1, childStatus := 0, totalExecs := 0,
      calls := 0, read := [], log := [] }
  server := { stage := .readRequest, childStopped := false, childPid := 0, served := 0 }
  children := fun _ => none
  ctl := []
  st := []
  stopSoon := false

/-! ## The calls of the fuzzer -/

/-- What `read_s32_timed` returns when the word is there after `elapsed` milliseconds. -/
def readTime (timeout elapsed : ℕ) : ℕ :=
  if 0 < min timeout elapsed then min timeout elapsed else 1

/-- `MSAN_ERROR` and `LSAN_ERROR`. -/
def MSAN_ERROR : ℤ := 86

def LSAN_ERROR : ℤ := 23

/-- The result of a run. `execFailed` says that the target left `EXEC_FAIL_SIG` in the
map. -/
def runResult (settings : CrashSettings) (execFailed timedOut : Bool) (status : ℤ) : RunResult :=
  if execFailed then .error
  else if timedOut then .tmout
  else if WIFSIGNALED status ∨ (settings.usesAsan &&& 4 ≠ 0 ∧ WEXITSTATUS status = MSAN_ERROR) ∨
      (settings.usesAsan &&& 2 ≠ 0 ∧ WEXITSTATUS status = LSAN_ERROR) ∨
      (settings.usesCrashExitcode ∧ WEXITSTATUS status = settings.crashExitcode) then .crash
  else .ok

/-- The request: whether the previous run timed out. -/
def Session.request (s : Session) (timeout : Timeout) : Session :=
  { s with
    ctl := s.ctl ++ [s.fuzzer.lastRunTimedOut]
    fuzzer :=
      { s.fuzzer with
        stage := .readPid timeout
        lastRunTimedOut := false
        calls := s.fuzzer.calls + 1
        read := [] } }

/-- A call that cannot go on returns if the user wants to quit, and is fatal otherwise. -/
def Session.giveUp (s : Session) : Session :=
  { s with
    fuzzer :=
      if s.stopSoon then
        { s.fuzzer with
          stage := .idle
          log := s.fuzzer.log ++ [⟨s.fuzzer.calls, s.fuzzer.read, .ok⟩] }
      else { s.fuzzer with stage := .fatal } }

/-- The request cannot be written. -/
def Session.requestFailed (s : Session) : Session :=
  Session.giveUp { s with fuzzer := { s.fuzzer with calls := s.fuzzer.calls + 1, read := [] } }

/-- The process id is read and checked. -/
def Session.pidRead (s : Session) (timeout : Timeout) (word : Message) (rest : List Message) :
    Session :=
  let known :=
    { s with
      st := rest
      fuzzer :=
        { s.fuzzer with
          stage := .readTimed timeout
          childPid := word.value
          read := s.fuzzer.read ++ [word.origin] } }
  if word.value ≤ 0 then known.giveUp else known

/-- A status is read. -/
def Fuzzer.statusRead (f : Fuzzer) (word : Message) : Fuzzer :=
  { f with childStatus := word.value, read := f.read ++ [word.origin] }

/-- The end of a call that has its status. -/
def Fuzzer.finish (f : Fuzzer) (settings : CrashSettings) (execFailed : Bool) : Fuzzer :=
  { f with
    stage := .idle
    childPid := if WIFSTOPPED f.childStatus then f.childPid else -1
    totalExecs := f.totalExecs + 1
    log := f.log ++
      [⟨f.calls, f.read, runResult settings execFailed f.lastRunTimedOut f.childStatus⟩] }

/-- `read_s32_timed` gets the word in time, or, for a limit that is none, too late. -/
def Session.timedRead (s : Session) (settings : CrashSettings) (execFailed : Bool)
    (timeout elapsed : ℕ) (word : Message) (rest : List Message) : Session :=
  { s with
    st := rest
    fuzzer :=
      if timeout < readTime timeout elapsed then
        { s.fuzzer.statusRead word with stage := .kill }
      else (s.fuzzer.statusRead word).finish settings execFailed }

/-- `kill(tmp_pid, fsrv->child_kill_signal)`, when there is such a process. -/
def killChild (children : ℤ → Option Child) (pid : ℤ) : ℤ → Option Child :=
  Function.update children pid ((children pid).map fun child => { child with killed := true })

/-- The child has run out of time. -/
def Session.timeOut (s : Session) : Session :=
  { s with
    children :=
      if 0 < s.fuzzer.childPid then killChild s.children s.fuzzer.childPid else s.children
    fuzzer :=
      { s.fuzzer with
        stage := .readAfterKill
        lastRunTimedOut := true
        childPid := if 0 < s.fuzzer.childPid then -1 else s.fuzzer.childPid } }

/-- `afl_states_stop`: the flag is set and the child gets the kill signal. The signal to the
fork server arrives later, if there is one. -/
def Session.stop (s : Session) : Session :=
  { s with
    children :=
      if 0 < s.fuzzer.childPid then killChild s.children s.fuzzer.childPid else s.children
    stopSoon := true }

/-! ## The loop of the fork server -/

/-- `child_stopped && was_killed`: the child is written off first. -/
def Server.requested (server : Server) (wasKilled : Bool) : Server :=
  if server.childStopped && wasKilled then
    { server with stage := .reap, childStopped := false, served := server.served + 1 }
  else { server with stage := .start, served := server.served + 1 }

/-- The status of the child is relayed. -/
def Server.relayed (server : Server) (status : ℤ) : Server :=
  { server with
    stage := .readRequest
    childStopped := if WIFSTOPPED status then true else server.childStopped }

/-! ## Steps -/

/-- One step of one party, with the settings of the fuzzer and whether the child is
persistent. -/
inductive RunStep (settings : CrashSettings) (persistent : Bool) : Session → Session → Prop where
  /-- `afl_fsrv_run_target` is called. -/
  | call {s : Session} (timeout : Timeout) (idle : s.fuzzer.stage = .idle)
      (serves : s.server.stage ≠ .exited) : RunStep settings persistent s (s.request timeout)
  | callFails {s : Session} (idle : s.fuzzer.stage = .idle) (gone : s.server.stage = .exited) :
      RunStep settings persistent s s.requestFailed
  | pidRead {s : Session} {timeout : Timeout} {word : Message} {rest : List Message}
      (reads : s.fuzzer.stage = .readPid timeout) (arrived : s.st = word :: rest) :
      RunStep settings persistent s (s.pidRead timeout word rest)
  | statusRead {s : Session} {timeout : Timeout} {word : Message} {rest : List Message}
      (elapsed : ℕ) (execFailed : Bool) (reads : s.fuzzer.stage = .readTimed timeout)
      (arrived : s.st = word :: rest) (goesOn : s.stopSoon = false) :
      RunStep settings persistent s (s.timedRead settings execFailed timeout.ms elapsed word rest)
  /-- "Early return - the user wants to quit." -/
  | quit {s : Session} {timeout : Timeout} (reads : s.fuzzer.stage = .readTimed timeout)
      (arrived : s.st ≠ []) (stops : s.stopSoon = true) :
      RunStep settings persistent s s.giveUp
  /-- The pipe is closed: a read that waits for a word ends without it. -/
  | hungUp {s : Session} (reads : s.fuzzer.stage ≠ .idle ∧ s.fuzzer.stage ≠ .kill ∧
      s.fuzzer.stage ≠ .fatal) (nothing : s.st = []) (gone : s.server.stage = .exited) :
      RunStep settings persistent s s.giveUp
  /-- `poll` returns 0. -/
  | timedOut {s : Session} {timeout : Timeout} (reads : s.fuzzer.stage = .readTimed timeout)
      (nothing : s.st = []) (serves : s.server.stage ≠ .exited) :
      RunStep settings persistent s
        { s with fuzzer := { s.fuzzer with stage := .kill, childStatus := -1 } }
  | kill {s : Session} (reads : s.fuzzer.stage = .kill) :
      RunStep settings persistent s s.timeOut
  | lateRead {s : Session} {word : Message} {rest : List Message} (execFailed : Bool)
      (reads : s.fuzzer.stage = .readAfterKill) (arrived : s.st = word :: rest) :
      RunStep settings persistent s
        { s with
          st := rest
          fuzzer := (s.fuzzer.statusRead word).finish settings execFailed }
  /-- The user asks to stop. -/
  | interrupt {s : Session} (running : s.stopSoon = false) :
      RunStep settings persistent s s.stop
  /-- The signal of `afl_states_stop` ends the fork server. Its handler of `SIGTERM` (`at_exit`)
  takes the child along. -/
  | serverDies {s : Session} (handled : Bool) (stops : s.stopSoon = true) :
      RunStep settings persistent s
        { s with
          children :=
            if handled then Function.update s.children s.server.childPid none else s.children
          server := { s.server with stage := .exited } }
  | requestRead {s : Session} {wasKilled : Bool} {rest : List Bool}
      (reads : s.server.stage = .readRequest) (arrived : s.ctl = wasKilled :: rest) :
      RunStep settings persistent s
        { s with ctl := rest, server := s.server.requested wasKilled }
  /-- The first `waitpid`, which returns when the child has ended. -/
  | reaped {s : Session} {child : Child} {status : ℤ} (waits : s.server.stage = .reap)
      (present : s.children s.server.childPid = some child)
      (ended : child.activity = .zombie status) :
      RunStep settings persistent s
        { s with
          children := Function.update s.children s.server.childPid none
          server := { s.server with stage := .start } }
  | forked {s : Session} (pid : ℤ) (starts : s.server.stage = .start)
      (gone : s.server.childStopped = false) (positive : 0 < pid) (unused : s.children pid = none) :
      RunStep settings persistent s
        { s with
          children :=
            Function.update s.children pid (some ⟨.running, false, s.server.served⟩)
          server := { s.server with stage := .writePid, childPid := pid } }
  | resumed {s : Session} (starts : s.server.stage = .start)
      (stopped : s.server.childStopped = true) :
      RunStep settings persistent s
        { s with
          children := Function.update s.children s.server.childPid
            ((s.children s.server.childPid).map fun child => child.continue s.server.served)
          server := { s.server with stage := .writePid, childStopped := false } }
  | pidWritten {s : Session} (writes : s.server.stage = .writePid) :
      RunStep settings persistent s
        { s with
          st := s.st ++ [⟨s.server.childPid, .pid s.server.served⟩]
          server := { s.server with stage := .wait } }
  /-- The second `waitpid` finds that the child has ended. -/
  | endSeen {s : Session} {child : Child} {status : ℤ} (waits : s.server.stage = .wait)
      (present : s.children s.server.childPid = some child)
      (ended : child.activity = .zombie status) :
      RunStep settings persistent s
        { s with
          children := Function.update s.children s.server.childPid none
          server := { s.server with stage := .writeStatus status child.run } }
  /-- The second `waitpid`, with `WUNTRACED`, finds that the child has stopped. -/
  | stopSeen {s : Session} {child : Child} (waits : s.server.stage = .wait)
      (present : s.children s.server.childPid = some child)
      (stopped : child.activity = .stopped false) (untraced : persistent = true) :
      RunStep settings persistent s
        { s with
          children := Function.update s.children s.server.childPid
            (some { child with activity := .stopped true })
          server := { s.server with stage := .writeStatus stoppedStatus child.run } }
  /-- `waitpid` fails when there is no such child. -/
  | waitFailed {s : Session} (waits : s.server.stage = .reap ∨ s.server.stage = .wait)
      (absent : s.children s.server.childPid = none) :
      RunStep settings persistent s { s with server := { s.server with stage := .exited } }
  | statusWritten {s : Session} {status : ℤ} {run : ℕ}
      (writes : s.server.stage = .writeStatus status run) :
      RunStep settings persistent s
        { s with
          st := s.st ++ [⟨status, .status run⟩]
          server := s.server.relayed status }
  /-- A child stops itself: the end of a persistent iteration. -/
  | childStops {s : Session} {pid : ℤ} {child : Child} (present : s.children pid = some child)
      (runs : child.activity = .running) :
      RunStep settings persistent s
        { s with
          children :=
            Function.update s.children pid (some { child with activity := .stopped false }) }
  /-- A child exits or crashes. -/
  | childEnds {s : Session} {child : Child} (pid status : ℤ)
      (present : s.children pid = some child) (runs : child.activity = .running)
      (ends : WIFSTOPPED status = false) :
      RunStep settings persistent s
        { s with
          children :=
            Function.update s.children pid (some { child with activity := .zombie status }) }
  /-- The kill signal ends a running child. -/
  | runnerDies {s : Session} {pid : ℤ} {child : Child} (present : s.children pid = some child)
      (signalled : child.killed = true) (runs : child.activity = .running)
      (ends : WIFSIGNALED settings.childKillSignal = true) :
      RunStep settings persistent s
        { s with
          children := Function.update s.children pid
            (some { child with activity := .zombie settings.childKillSignal }) }
  /-- `SIGKILL` ends a stopped child. -/
  | sleeperDies {s : Session} {pid : ℤ} {child : Child} {reported : Bool}
      (present : s.children pid = some child) (signalled : child.killed = true)
      (stopped : child.activity = .stopped reported)
      (kills : settings.childKillSignal = SIGKILL) :
      RunStep settings persistent s
        { s with
          children :=
            Function.update s.children pid (some { child with activity := .zombie SIGKILL }) }
  /-- With `SIGCONT` for the kill signal a stopped child goes on. -/
  | sleeperWakes {s : Session} {pid : ℤ} {child : Child} {reported : Bool}
      (present : s.children pid = some child) (signalled : child.killed = true)
      (stopped : child.activity = .stopped reported)
      (wakes : settings.childKillSignal = SIGCONT) :
      RunStep settings persistent s
        { s with
          children := Function.update s.children pid (some { child with activity := .running }) }

/-- A step in a session in which the user does not ask to stop. -/
def Uninterrupted (settings : CrashSettings) (persistent : Bool) (s t : Session) : Prop :=
  RunStep settings persistent s t ∧ t.stopSoon = false

end GreenFuzz.ForkServer
