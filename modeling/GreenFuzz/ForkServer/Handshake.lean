import GreenFuzz.Library.WordStream

/-!
# The handshake of the fork server

The target starts a fork server (`__afl_start_forkserver` of the compiler
runtime) and the fuzzer waits for it (`afl_fsrv_start`). The two talk over two
pipes: the control pipe from the fuzzer to the target and the status pipe back.
The target says hello with its protocol version, the fuzzer answers with the
complement, and the target then sends its option word, the parameters of the
options in the order of their numbers, and its version again. The
autodictionary among the parameters is written and read in loops that take
whatever part of it a single call transfers.

Both sides are modelled as stages, one for each call that reads or writes, with
the variables the later stages need. `Step` interleaves them: a write needs room
in the pipe, a read needs something in it, and how much of the dictionary a call
moves is a choice of the step. Words are written in one piece, as a pipe
guarantees for so few bytes. The model is of the new protocol: a hello that
selects the old one ends in a stage of its own, as does a read of a word that
returns fewer than four bytes. Calls that fail are not modelled.
-/

set_option autoImplicit false

namespace GreenFuzz.ForkServer

open GreenFuzz.Library

/-! ## Constants of the protocol -/

def FS_NEW_VERSION_MIN : Word := 1

def FS_NEW_VERSION_MAX : Word := 1

def FS_NEW_ERROR : Word := 0xeffe0000

def FS_NEW_OPT_MAPSIZE : Word := 0x00000001

def FS_NEW_OPT_SHDMEM_FUZZ : Word := 0x00000002

def FS_NEW_OPT_AUTODICT : Word := 0x00000800

def MAP_SIZE : Word := 65536

/-- `version`, the hello of the target: "AFL" and the version number. -/
def version : Word := 0x41464c00 + FS_NEW_VERSION_MAX

/-! ## The target -/

/-- The memory `__afl_dictionary` points to, of `__afl_dictionary_len` bytes. -/
structure Dictionary where
  bytes : List Byte
  fits : bytes.length < 2 ^ 32

/-- `__afl_dictionary_len`. -/
def Dictionary.len (dictionary : Dictionary) : Word := BitVec.ofNat 32 dictionary.bytes.length

/-- What the target announces. -/
structure Target where
  /-- `__afl_map_size`. -/
  mapSize : Word
  /-- `__afl_sharedmem_fuzzing`. -/
  sharedmemFuzzing : Bool
  /-- `__afl_dictionary`, `none` for the null pointer. -/
  dictionary : Option Dictionary

/-- `__afl_dictionary_len && __afl_dictionary`: the dictionary that is sent. -/
def Target.sentDictionary (T : Target) : Option Dictionary :=
  T.dictionary.filter fun dictionary => dictionary.len ≠ 0

/-- The option word. The map size is always sent. -/
def Target.options (T : Target) : Word :=
  FS_NEW_OPT_MAPSIZE ||| (if T.sharedmemFuzzing then FS_NEW_OPT_SHDMEM_FUZZ else 0) |||
    (if T.sentDictionary.isSome then FS_NEW_OPT_AUTODICT else 0)

/-- Where `__afl_start_forkserver` is: before which call. -/
inductive TargetStage where
  | hello
  | reply
  | options
  | mapSize
  | dictLen (dictionary : Dictionary)
  /-- In the loop that writes the dictionary, with the bytes from `offset` on,
  `len` of them, still to write. -/
  | dict (rest : List Byte)
  | welcome
  /-- `__afl_connected = 1`. -/
  | connected
  /-- `_exit(1)`. -/
  | exited

/-- `while (len != 0)`: the loop goes on or the final message is next. -/
def dictLoop (rest : List Byte) : TargetStage :=
  if rest = [] then .welcome else .dict rest

/-- After the map size comes the dictionary, if there is one to send. -/
def Target.afterMapSize (T : Target) : TargetStage :=
  match T.sentDictionary with
  | some dictionary => .dictLen dictionary
  | none => .welcome

/-- The words the target writes, each with the stage it comes to. -/
def Target.message (T : Target) : TargetStage → Option (Word × TargetStage)
  | .hello => some (version, .reply)
  | .options => some (T.options, .mapSize)
  | .mapSize => some (T.mapSize, T.afterMapSize)
  | .dictLen dictionary => some (dictionary.len, dictLoop dictionary.bytes)
  | .welcome => some (version, .connected)
  | _ => none

/-- The answer of the fuzzer is checked against the complement of the version. -/
def replyRead (bytes : List Byte) : TargetStage :=
  if bytes.length = 4 ∧ readWord bytes = version ^^^ 0xffffffff then .options else .exited

/-! ## The fuzzer -/

/-- The fields of `afl_forkserver_t` the handshake reads and writes. -/
structure Fsrv where
  mapSize : Word
  realMapSize : Word
  supportShmemFuzz : Bool
  useShmemFuzz : Bool
  /-- `add_extra_func` is set. -/
  addExtraFunc : Bool
  /-- `AFL_NO_AUTODICT` is in the environment. -/
  ignoreAutodict : Bool
  /-- The tokens `add_extra_func` was called with, in order. -/
  extras : List (List Byte)

/-- The `FATAL` exits of the handshake. -/
inductive Fatal where
  /-- `report_error_and_exit`, with the error code. -/
  | reported (code : Word)
  /-- "Fork server version is not assigned, this should not happen." -/
  | versionNotAssigned
  /-- "Fork server version is not not supported." -/
  | versionNotSupported
  /-- "Target's coverage map size of %u is larger than the one this AFL++ is set with
  (%u)." -/
  | mapTooLarge (target fuzzer : Word)
  /-- "Target requested sharedmem fuzzing, but we failed to enable it." -/
  | sharedmemNotEnabled
  /-- "Dictionary has an illegal size: %d" -/
  | dictionarySize (size : Word)
  /-- "Error in forkserver communication (%08x=>%08x)" -/
  | communication (keep received : Word)

/-- Where `afl_fsrv_start` is: before which call. `keep` is its variable of that
name, the hello of the target. -/
inductive FsrvStage where
  | hello
  | reply (keep : Word)
  | options (keep : Word)
  | mapSize (keep options : Word)
  | dictSize (keep : Word)
  /-- In the loop that reads the dictionary of `size` bytes, the first of which are
  read. -/
  | dict (keep size : Word) (read : List Byte)
  | welcome (keep : Word)
  | up
  /-- The hello selects the old protocol. -/
  | oldModel (status : Word)
  | fatal (why : Fatal)
  /-- A read of a word returned fewer than four bytes. -/
  | shortRead

/-- The hello of the target is checked. -/
def helloRead (status : Word) : FsrvStage :=
  if status &&& FS_NEW_ERROR = FS_NEW_ERROR then .fatal (.reported (status &&& 0x0000ffff))
  else if 0x41464c00 ≤ status ∧ status ≤ 0x41464cff then
    if status - 0x41464c00 = 0 then .fatal .versionNotAssigned
    else if status - 0x41464c00 < FS_NEW_VERSION_MIN ∨
        FS_NEW_VERSION_MAX < status - 0x41464c00 then
      .fatal .versionNotSupported
    else .reply status
  else .oldModel status

/-- The dictionary is read when it is announced. -/
def afterSharedmem (keep options : Word) : FsrvStage :=
  if options &&& FS_NEW_OPT_AUTODICT ≠ 0 then .dictSize keep else .welcome keep

/-- The option for test cases in shared memory has no parameter. -/
def sharedmemRead (keep options : Word) (vars : Fsrv) : FsrvStage × Fsrv :=
  if options &&& FS_NEW_OPT_SHDMEM_FUZZ ≠ 0 then
    if vars.supportShmemFuzz then
      (afterSharedmem keep options, { vars with useShmemFuzz := true })
    else (.fatal .sharedmemNotEnabled, vars)
  else (afterSharedmem keep options, vars)

/-- `fsrv->map_size`, or the default when it is not set. -/
def Fsrv.mapLimit (vars : Fsrv) : Word := if vars.mapSize = 0 then MAP_SIZE else vars.mapSize

/-- The map size of the target, rounded up as the code does it. -/
def alignedMapSize (size : Word) : Word :=
  if size % 64 ≠ 0 then ((size + 63) >>> 6) <<< 6 else size

/-- The map size of the target is checked against the map of the fuzzer and adopted. -/
def mapSizeRead (keep options size : Word) (vars : Fsrv) : FsrvStage × Fsrv :=
  if vars.mapLimit < alignedMapSize size then
    (.fatal (.mapTooLarge (alignedMapSize size) vars.mapLimit),
      { vars with mapSize := vars.mapLimit, realMapSize := size })
  else
    sharedmemRead keep options { vars with mapSize := alignedMapSize size, realMapSize := size }

/-- The option word says whether a map size follows. -/
def optionsRead (keep options : Word) (vars : Fsrv) : FsrvStage × Fsrv :=
  if options &&& FS_NEW_OPT_MAPSIZE ≠ 0 then (.mapSize keep options, vars)
  else sharedmemRead keep options { vars with mapSize := MAP_SIZE, realMapSize := MAP_SIZE }

/-- The announced length of the dictionary is checked. -/
def dictSizeRead (keep size : Word) : FsrvStage :=
  if size < 2 ∨ 0xffffff < size then .fatal (.dictionarySize size) else .dict keep size []

/-- The loop over the length-prefixed tokens of the dictionary, from `offset` on. -/
def dictTokens (dict : List Byte) (offset : ℕ) : List (List Byte) :=
  if offset < dict.length ∧ (dict.getD offset 0).toNat + offset < dict.length then
    (dict.drop (offset + 1)).take (dict.getD offset 0).toNat ::
      dictTokens dict (offset + (1 + (dict.getD offset 0).toNat))
  else []
termination_by dict.length - offset

/-- `!ignore_autodict && fsrv->add_extra_func`: the tokens that are handed on. -/
def Fsrv.handed (vars : Fsrv) (tokens : List (List Byte)) : List (List Byte) :=
  if !vars.ignoreAutodict && vars.addExtraFunc then tokens else []

/-- `while (offset < dict_size)`: the loop goes on, or the tokens are handed on. -/
def dictRead (keep size : Word) (read : List Byte) (vars : Fsrv) : FsrvStage × Fsrv :=
  if read.length < size.toNat then (.dict keep size read, vars)
  else (.welcome keep, { vars with extras := vars.extras ++ vars.handed (dictTokens read 0) })

/-- The last word has to be the first one again. -/
def welcomeRead (keep received : Word) : FsrvStage :=
  if received ≠ keep then .fatal (.communication keep received) else .up

/-- What the fuzzer does with a word it reads, where it reads one. -/
def wordRead (word : Word) (vars : Fsrv) : FsrvStage → Option (FsrvStage × Fsrv)
  | .hello => some (helloRead word, vars)
  | .options keep => some (optionsRead keep word vars)
  | .mapSize keep options => some (mapSizeRead keep options word vars)
  | .dictSize keep => some (dictSizeRead keep word, vars)
  | .welcome keep => some (welcomeRead keep word, vars)
  | _ => none

/-! ## The two processes and their pipes -/

/-- What a pipe holds at most. A word fits. -/
structure PipeLimit where
  capacity : ℕ
  word_fits : 4 ≤ capacity

/-- The two processes and the bytes in their pipes. -/
structure Handshake where
  target : TargetStage
  fsrv : FsrvStage
  vars : Fsrv
  ctl : List Byte
  st : List Byte

/-- Both sides at their first call, the pipes empty. -/
def Handshake.init (vars : Fsrv) : Handshake :=
  { target := .hello, fsrv := .hello, vars, ctl := [], st := [] }

/-- One call of one side. -/
inductive Step (T : Target) (limit : PipeLimit) : Handshake → Handshake → Prop where
  | targetWrites {s : Handshake} {word : Word} {next : TargetStage}
      (writes : T.message s.target = some (word, next))
      (room : s.st.length + 4 ≤ limit.capacity) :
      Step T limit s { s with target := next, st := s.st ++ wordBytes word }
  | targetWritesDict {s : Handshake} {rest : List Byte} {ret : ℕ}
      (writes : s.target = .dict rest) (some : 0 < ret) (atMost : ret ≤ rest.length)
      (room : s.st.length + ret ≤ limit.capacity) :
      Step T limit s
        { s with target := dictLoop (rest.drop ret), st := s.st ++ rest.take ret }
  | targetReads {s : Handshake} (reads : s.target = .reply) (arrived : s.ctl ≠ []) :
      Step T limit s { s with target := replyRead (s.ctl.take 4), ctl := s.ctl.drop 4 }
  | fsrvWrites {s : Handshake} {keep : Word} (writes : s.fsrv = .reply keep)
      (room : s.ctl.length + 4 ≤ limit.capacity) :
      Step T limit s
        { s with fsrv := .options keep, ctl := s.ctl ++ wordBytes (keep ^^^ 0xffffffff) }
  | fsrvReads {s : Handshake} {next : FsrvStage × Fsrv} (arrived : 4 ≤ s.st.length)
      (reads : wordRead (readWord s.st) s.vars s.fsrv = some next) :
      Step T limit s { s with fsrv := next.1, vars := next.2, st := s.st.drop 4 }
  | fsrvReadsShort {s : Handshake} {next : FsrvStage × Fsrv} (arrived : s.st ≠ [])
      (short : s.st.length < 4) (reads : wordRead (readWord s.st) s.vars s.fsrv = some next) :
      Step T limit s { s with fsrv := .shortRead, st := [] }
  | fsrvReadsDict {s : Handshake} {keep size : Word} {read : List Byte} {ret : ℕ}
      (reads : s.fsrv = .dict keep size read) (some : 0 < ret) (arrived : ret ≤ s.st.length)
      (atMost : ret ≤ size.toNat - read.length) :
      Step T limit s
        { s with
          fsrv := (dictRead keep size (read ++ s.st.take ret) s.vars).1
          vars := (dictRead keep size (read ++ s.st.take ret) s.vars).2
          st := s.st.drop ret }

end GreenFuzz.ForkServer
