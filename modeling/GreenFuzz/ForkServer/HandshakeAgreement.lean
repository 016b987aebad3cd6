import GreenFuzz.ForkServer.Handshake
import GreenFuzz.Library.Inevitable

/-!
# The two sides of the handshake agree

The target writes a number of words that depends on its options, and the
fuzzer decides from the option word how many it reads. The invariant is that
they count the same: the bytes in the status pipe and those the target still
writes are together the bytes the fuzzer still reads (`Agrees.stream`). From it
every read of a word finds either nothing or the whole word, also right after
the dictionary, whose loops move any number of bytes at a time.

**Every run of the handshake comes to an end with both sides connected, the
pipes empty, the map size agreed on and the dictionary handed over**
(`handshake_agrees`). Two settings of the fuzzer decide what it makes of the
options: it stops when the target wants test cases in shared memory and it has
none to offer, and it reads the dictionary without using it under
`AFL_NO_AUTODICT` or without a callback (`handshake_depends_on_settings`).
-/

set_option autoImplicit false

namespace GreenFuzz.ForkServer

open GreenFuzz.Library

/-! ## The tokens of a dictionary -/

/-- A token with its length in front, in one byte. -/
def lengthPrefixed (token : List Byte) : List Byte := BitVec.ofNat 8 token.length :: token

/-- A well-formed autodictionary: a sequence of length-prefixed tokens that are not
empty, of a size the handshake transfers. -/
structure AutoDict where
  tokens : List (List Byte)
  nonempty : ∀ token ∈ tokens, token ≠ []
  short : ∀ token ∈ tokens, token.length < 256
  two_le : 2 ≤ (tokens.flatMap lengthPrefixed).length
  le_max : (tokens.flatMap lengthPrefixed).length ≤ 0xffffff

/-- The dictionary as the target has it in memory. -/
def AutoDict.memory (dict : AutoDict) : Dictionary where
  bytes := dict.tokens.flatMap lengthPrefixed
  fits := lt_of_le_of_lt dict.le_max (by decide)

/-- The loop over the dictionary, started where a token starts, finds the tokens from
there on. The last one ends at the end of the dictionary, where the loop's test is an
equality away from failing. -/
theorem dictTokens_append (tokens : List (List Byte)) (before : List Byte)
    (short : ∀ token ∈ tokens, token.length < 256) :
    dictTokens (before ++ tokens.flatMap lengthPrefixed) before.length = tokens := by
  induction tokens generalizing before with
  | nil =>
      rw [dictTokens, List.flatMap_nil, List.append_nil, if_neg]
      exact fun inside => Nat.lt_irrefl _ inside.1
  | cons token tokens ih =>
      have small : token.length < 256 := short token List.mem_cons_self
      have here : (before ++ (token :: tokens).flatMap lengthPrefixed).getD before.length 0 =
          BitVec.ofNat 8 token.length := by
        simp [lengthPrefixed, List.getD_eq_getElem?_getD]
      have size : (BitVec.ofNat 8 token.length).toNat = token.length := by
        rw [BitVec.toNat_ofNat]
        exact Nat.mod_eq_of_lt small
      have total : (before ++ (token :: tokens).flatMap lengthPrefixed).length =
          before.length + (1 + token.length) + (tokens.flatMap lengthPrefixed).length := by
        simp [lengthPrefixed]
        omega
      have after : before ++ (token :: tokens).flatMap lengthPrefixed =
          (before ++ lengthPrefixed token) ++ tokens.flatMap lengthPrefixed := by
        rw [List.flatMap_cons, List.append_assoc]
      have next : before.length + (1 + token.length) =
          (before ++ lengthPrefixed token).length := by
        simp [lengthPrefixed]
        omega
      have rest := ih (before ++ lengthPrefixed token)
        fun later member => short later (List.mem_cons_of_mem _ member)
      rw [dictTokens, here, size, if_pos (by omega), next, after, rest]
      congr 1
      simp [lengthPrefixed, List.drop_append, List.drop_eq_nil_of_le (Nat.le_succ before.length)]

/-! ## The map size -/

/-- The next multiple of 64. -/
def roundUp (size : ℕ) : ℕ := (size + 63) / 64 * 64

/-- The code rounds up, as long as the result is a map size. -/
theorem toNat_alignedMapSize {size : Word} (fits : roundUp size.toNat < 2 ^ 32) :
    (alignedMapSize size).toNat = roundUp size.toNat := by
  have noOverflow : size.toNat + 63 < 2 ^ 32 := by
    simp only [roundUp] at fits
    omega
  simp only [alignedMapSize, roundUp]
  split
  · rw [BitVec.toNat_shiftLeft, BitVec.toNat_ushiftRight, BitVec.toNat_add,
      Nat.shiftRight_eq_div_pow, Nat.shiftLeft_eq]
    simp only [BitVec.reduceToNat]
    omega
  · rename_i multiple
    have divides : size.toNat % 64 = 0 := by
      have := congrArg BitVec.toNat (not_not.mp multiple)
      simpa using this
    omega

/-! ## What is still to be written and to be read -/

variable (T : Target)

/-- The bytes of the dictionary that is sent. -/
def Target.dictBytes : List Byte := (T.sentDictionary.map Dictionary.bytes).getD []

/-- What the target writes after the map size. -/
def Target.tail : List Byte :=
  match T.sentDictionary with
  | some dictionary => wordBytes dictionary.len ++ (dictionary.bytes ++ wordBytes version)
  | none => wordBytes version

/-- The bytes the target still writes. -/
def Target.pending : TargetStage → List Byte
  | .hello => wordBytes version ++ (wordBytes T.options ++ (wordBytes T.mapSize ++ T.tail))
  | .reply | .options => wordBytes T.options ++ (wordBytes T.mapSize ++ T.tail)
  | .mapSize => wordBytes T.mapSize ++ T.tail
  | .dictLen dictionary => wordBytes dictionary.len ++ (dictionary.bytes ++ wordBytes version)
  | .dict rest => rest ++ wordBytes version
  | .welcome => wordBytes version
  | .connected | .exited => []

/-- The bytes the fuzzer still reads. -/
def Target.awaited : FsrvStage → List Byte
  | .hello => T.pending .hello
  | .reply _ | .options _ => T.pending .options
  | .mapSize _ _ => T.pending .mapSize
  | .dictSize _ => T.tail
  | .dict _ _ read => T.dictBytes.drop read.length ++ wordBytes version
  | .welcome _ => wordBytes version
  | _ => []

variable {T}

theorem pending_dictLoop (rest : List Byte) :
    T.pending (dictLoop rest) = rest ++ wordBytes version := by
  simp only [dictLoop]
  split
  · rename_i done
    rw [done]
    rfl
  · rfl

theorem pending_afterMapSize : T.pending T.afterMapSize = T.tail := by
  simp only [Target.afterMapSize, Target.tail]
  cases T.sentDictionary <;> rfl

/-- Writing a word takes it off what is to be written. -/
theorem pending_message {stage next : TargetStage} {word : Word}
    (writes : T.message stage = some (word, next)) :
    T.pending stage = wordBytes word ++ T.pending next := by
  cases stage with
  | hello | options | welcome =>
      cases writes
      simp only [Target.pending, List.append_nil]
  | mapSize =>
      cases writes
      rw [pending_afterMapSize]
      rfl
  | dictLen dictionary =>
      cases writes
      rw [pending_dictLoop]
      rfl
  | _ => simp only [Target.message, reduceCtorEq] at writes

/-! ## The stages a run goes through -/

/-- The stages of the target in a run that goes well. -/
def Target.Sane (T : Target) : TargetStage → Prop
  | .dictLen dictionary => T.sentDictionary = some dictionary
  | .dict rest => ∃ dictionary, T.sentDictionary = some dictionary ∧ rest ≠ [] ∧
      rest.length ≤ dictionary.bytes.length
  | .exited => False
  | _ => True

/-- The stages before the answer of the fuzzer is read. -/
def TargetStage.Early : TargetStage → Prop
  | .hello | .reply => True
  | _ => False

instance : DecidablePred TargetStage.Early
  | .hello | .reply => isTrue trivial
  | .options | .mapSize | .dictLen _ | .dict _ | .welcome | .connected | .exited => isFalse id

/-- The stages after the answer is written. -/
def FsrvStage.Answered : FsrvStage → Prop
  | .hello | .reply _ => False
  | _ => True

instance : DecidablePred FsrvStage.Answered
  | .hello | .reply _ => isFalse id
  | .options _ | .mapSize _ _ | .dictSize _ | .dict _ _ _ | .welcome _ | .up | .oldModel _
  | .fatal _ | .shortRead => isTrue trivial

/-- What the loops and the checks of the fuzzer rely on: a map that fits, test cases
in shared memory when they are asked for, and a dictionary with these tokens. -/
structure Compatible (T : Target) (start : Fsrv) (tokens : List (List Byte)) : Prop where
  fits : roundUp T.mapSize.toNat ≤ start.mapLimit.toNat
  shared : T.sharedmemFuzzing = true → start.supportShmemFuzz = true
  sizes : ∀ dictionary, T.sentDictionary = some dictionary →
    2 ≤ dictionary.bytes.length ∧ dictionary.bytes.length ≤ 0xffffff
  sent : ∀ dictionary, T.sentDictionary = some dictionary →
    dictTokens dictionary.bytes 0 = tokens
  unsent : T.sentDictionary = none → tokens = []

/-- The fields of the fuzzer after the options. -/
def Target.configured (T : Target) (start : Fsrv) : Fsrv :=
  { start with
    mapSize := alignedMapSize T.mapSize
    realMapSize := T.mapSize
    useShmemFuzz := T.sharedmemFuzzing || start.useShmemFuzz }

/-- The fields of the fuzzer after the handshake. -/
def Target.handedOver (T : Target) (start : Fsrv) (tokens : List (List Byte)) : Fsrv :=
  { T.configured start with extras := start.extras ++ start.handed tokens }

/-- The stages of the fuzzer in a run that goes well, with their variables. -/
def Follows (T : Target) (start : Fsrv) (tokens : List (List Byte)) (vars : Fsrv) :
    FsrvStage → Prop
  | .hello => vars = start
  | .reply keep | .options keep => keep = version ∧ vars = start
  | .mapSize keep options => keep = version ∧ options = T.options ∧ vars = start
  | .dictSize keep => keep = version ∧ T.sentDictionary ≠ none ∧ vars = T.configured start
  | .dict keep size read => keep = version ∧ ∃ dictionary, T.sentDictionary = some dictionary ∧
      size = dictionary.len ∧ read <+: dictionary.bytes ∧
      read.length < dictionary.bytes.length ∧ vars = T.configured start
  | .welcome keep => keep = version ∧ vars = T.handedOver start tokens
  | .up => vars = T.handedOver start tokens
  | _ => False

/-! ## The words of the target pass the checks -/

theorem helloRead_version : helloRead version = .reply version := by
  simp only [helloRead]
  rw [if_neg (by decide), if_pos (by decide), if_neg (by decide), if_neg (by decide)]

theorem options_mapSize : T.options &&& FS_NEW_OPT_MAPSIZE ≠ 0 := by
  simp only [Target.options]
  cases T.sharedmemFuzzing <;> cases T.sentDictionary.isSome <;> decide

theorem options_sharedmem :
    T.options &&& FS_NEW_OPT_SHDMEM_FUZZ ≠ 0 ↔ T.sharedmemFuzzing = true := by
  simp only [Target.options]
  cases T.sharedmemFuzzing <;> cases T.sentDictionary.isSome <;> decide

theorem options_autodict : T.options &&& FS_NEW_OPT_AUTODICT ≠ 0 ↔ T.sentDictionary ≠ none := by
  rw [← Option.isSome_iff_ne_none]
  simp only [Target.options]
  cases T.sharedmemFuzzing <;> cases T.sentDictionary.isSome <;> decide

theorem afterSharedmem_sent (sent : T.sentDictionary ≠ none) :
    afterSharedmem version T.options = .dictSize version :=
  if_pos (options_autodict.mpr sent)

theorem afterSharedmem_unsent (unsent : T.sentDictionary = none) :
    afterSharedmem version T.options = .welcome version :=
  if_neg fun announced => options_autodict.mp announced unsent

/-! ## The fuzzer reads what the target writes -/

section Reads

variable {start : Fsrv} {tokens : List (List Byte)} (compatible : Compatible T start tokens)

include compatible

/-- The length that is sent is the length of the dictionary, and passes the check. -/
theorem Compatible.dictSizeRead {dictionary : Dictionary} (keep : Word)
    (sent : T.sentDictionary = some dictionary) :
    dictSizeRead keep dictionary.len = .dict keep dictionary.len [] ∧
      dictionary.len.toNat = dictionary.bytes.length := by
  have size : dictionary.len.toNat = dictionary.bytes.length := by
    rw [Dictionary.len, BitVec.toNat_ofNat]
    exact Nat.mod_eq_of_lt dictionary.fits
  obtain ⟨atLeast, atMost⟩ := compatible.sizes dictionary sent
  refine ⟨if_neg ?_, size⟩
  rw [not_or, BitVec.lt_def, BitVec.lt_def, size]
  simp only [BitVec.reduceToNat]
  omega

theorem Compatible.toNat_alignedMapSize :
    (alignedMapSize T.mapSize).toNat = roundUp T.mapSize.toNat :=
  ForkServer.toNat_alignedMapSize (lt_of_le_of_lt compatible.fits (BitVec.isLt _))

/-- The stage after the options, with the fields set. -/
theorem Compatible.sharedmemRead_options (vars : Fsrv)
    (supports : vars.supportShmemFuzz = start.supportShmemFuzz) :
    sharedmemRead version T.options vars =
      (afterSharedmem version T.options,
        { vars with useShmemFuzz := T.sharedmemFuzzing || vars.useShmemFuzz }) := by
  simp only [sharedmemRead, options_sharedmem]
  cases asked : T.sharedmemFuzzing with
  | true =>
      rw [if_pos rfl, supports, if_pos (compatible.shared asked)]
      rfl
  | false =>
      rw [if_neg Bool.false_ne_true]
      rfl

/-- A stage that reads a word finds it next in the stream and goes on to a stage
that follows. -/
theorem Compatible.reads {stage : FsrvStage} {vars : Fsrv} {other : Word}
    {elsewhere : FsrvStage × Fsrv} (follows : Follows T start tokens vars stage)
    (reads : wordRead other vars stage = some elsewhere) :
    ∃ word next, wordRead word vars stage = some next ∧
      T.awaited stage = wordBytes word ++ T.awaited next.1 ∧
      Follows T start tokens next.2 next.1 ∧ (next.1.Answered ↔ stage.Answered) := by
  cases stage with
  | hello =>
      refine ⟨version, (.reply version, vars), ?_, rfl, ⟨rfl, follows⟩, Iff.rfl⟩
      simp only [wordRead, helloRead_version]
  | options keep =>
      obtain ⟨rfl, rfl⟩ := follows
      refine ⟨T.options, (.mapSize version T.options, vars), ?_, rfl, ⟨rfl, rfl, rfl⟩, Iff.rfl⟩
      simp only [wordRead, optionsRead, if_pos options_mapSize]
  | mapSize keep options =>
      obtain ⟨rfl, rfl, rfl⟩ := follows
      have adopted : mapSizeRead version T.options T.mapSize vars =
          (afterSharedmem version T.options, T.configured vars) := by
        have inMap : ¬ vars.mapLimit < alignedMapSize T.mapSize := by
          rw [BitVec.not_lt, BitVec.le_def, compatible.toNat_alignedMapSize]
          exact compatible.fits
        simp only [mapSizeRead, if_neg inMap]
        exact compatible.sharedmemRead_options
          { vars with mapSize := alignedMapSize T.mapSize, realMapSize := T.mapSize } rfl
      refine ⟨T.mapSize, (afterSharedmem version T.options, T.configured vars), ?_, ?_⟩
      · simp only [wordRead, adopted]
      · cases sent : T.sentDictionary with
        | none =>
            have nothing : T.handedOver vars tokens = T.configured vars := by
              simp only [Target.handedOver, compatible.unsent sent, Fsrv.handed, ite_self,
                List.append_nil, Target.configured]
            rw [afterSharedmem_unsent sent]
            refine ⟨?_, ⟨rfl, nothing.symm⟩, Iff.rfl⟩
            simp only [Target.awaited, Target.pending, Target.tail, sent]
        | some dictionary =>
            have announced : T.sentDictionary ≠ none := by simp only [sent, ne_eq, reduceCtorEq,
              not_false_eq_true]
            rw [afterSharedmem_sent announced]
            exact ⟨rfl, ⟨rfl, announced, rfl⟩, Iff.rfl⟩
  | dictSize keep =>
      obtain ⟨rfl, announced, rfl⟩ := follows
      obtain ⟨dictionary, sent⟩ := Option.ne_none_iff_exists'.mp announced
      obtain ⟨accepted, size⟩ := compatible.dictSizeRead version sent
      have positive := (compatible.sizes dictionary sent).1
      refine ⟨dictionary.len, (.dict version dictionary.len [], T.configured start), ?_, ?_,
        ⟨rfl, dictionary, sent, rfl, List.nil_prefix, by simp only [List.length_nil]; omega, rfl⟩,
        Iff.rfl⟩
      · simp only [wordRead, accepted]
      · simp only [Target.awaited, Target.tail, Target.dictBytes, sent, Option.map_some,
          Option.getD_some, List.length_nil, List.drop_zero]
  | welcome keep =>
      obtain ⟨rfl, rfl⟩ := follows
      refine ⟨version, (.up, T.handedOver start tokens), ?_, rfl, rfl, Iff.rfl⟩
      simp only [wordRead, welcomeRead, ne_eq, not_true_eq_false, if_false]
  | _ => simp only [wordRead, reduceCtorEq] at reads

/-- A part of the dictionary that is read is taken off what is to be read. After the
last part the tokens have been handed over. -/
theorem Compatible.readsDict {keep size : Word} {read chunk : List Byte} {vars : Fsrv}
    (follows : Follows T start tokens vars (.dict keep size read))
    (comes : chunk <+: T.dictBytes.drop read.length) :
    T.awaited (.dict keep size read) =
        chunk ++ T.awaited (dictRead keep size (read ++ chunk) vars).1 ∧
      Follows T start tokens (dictRead keep size (read ++ chunk) vars).2
        (dictRead keep size (read ++ chunk) vars).1 ∧
      (dictRead keep size (read ++ chunk) vars).1.Answered := by
  obtain ⟨rfl, dictionary, sent, rfl, ⟨remaining, whole⟩, unfinished, rfl⟩ := follows
  obtain ⟨rest, split⟩ := comes
  have bytes : T.dictBytes = dictionary.bytes := by
    simp only [Target.dictBytes, sent, Option.map_some, Option.getD_some]
  have left : T.dictBytes.drop read.length = remaining := by
    rw [bytes, ← whole, List.drop_left]
  rw [left] at split
  have size := (compatible.dictSizeRead version sent).2
  have total : dictionary.bytes = (read ++ chunk) ++ rest := by
    rw [← whole, ← split, List.append_assoc]
  by_cases more : (read ++ chunk).length < dictionary.bytes.length
  · have goesOn : dictRead version dictionary.len (read ++ chunk) (T.configured start) =
        (.dict version dictionary.len (read ++ chunk), T.configured start) :=
      if_pos (size.symm ▸ more)
    rw [goesOn]
    refine ⟨?_, ⟨rfl, dictionary, sent, rfl, ⟨rest, total.symm⟩, more, rfl⟩, trivial⟩
    simp only [Target.awaited, left]
    rw [bytes, total, List.drop_left, ← split, List.append_assoc]
  · have done : rest = [] := by
      have lengths := congrArg List.length total
      rw [List.length_append] at lengths
      exact List.eq_nil_of_length_eq_zero (by omega)
    subst done
    rw [List.append_nil] at total split
    have ends : dictRead version dictionary.len (read ++ chunk) (T.configured start) =
        (.welcome version, T.handedOver start tokens) := by
      rw [dictRead, if_neg (size.symm ▸ more), ← total, compatible.sent dictionary sent]
      rfl
    rw [ends]
    refine ⟨?_, ⟨rfl, rfl⟩, trivial⟩
    simp only [Target.awaited, left, split]

end Reads

/-! ## The invariant -/

variable {start : Fsrv} {tokens : List (List Byte)}

/-- The answer of the fuzzer is on its way between the stage of the fuzzer that
writes it and the stage of the target that reads it. -/
inductive Control : TargetStage → FsrvStage → List Byte → Prop where
  | before {target : TargetStage} {fsrv : FsrvStage} :
      target.Early → ¬ fsrv.Answered → Control target fsrv []
  | answer {fsrv : FsrvStage} :
      fsrv.Answered → Control .reply fsrv (wordBytes (version ^^^ 0xffffffff))
  | after {target : TargetStage} {fsrv : FsrvStage} :
      ¬ target.Early → fsrv.Answered → Control target fsrv []

/-- **The invariant of the handshake**: what is in the status pipe and what the target
still writes is what the fuzzer still reads. -/
structure Agrees (T : Target) (start : Fsrv) (tokens : List (List Byte)) (s : Handshake) :
    Prop where
  stream : s.st ++ T.pending s.target = T.awaited s.fsrv
  control : Control s.target s.fsrv s.ctl
  sane : T.Sane s.target
  follows : Follows T start tokens s.vars s.fsrv

theorem Agrees.init (vars : Fsrv) : Agrees T vars tokens (Handshake.init vars) :=
  ⟨List.nil_append _, .before trivial id, trivial, rfl⟩

/-! ## One step of the target -/

variable {s t : Handshake} {target next : TargetStage} {fsrv : FsrvStage} {ctl : List Byte}
  {vars : Fsrv}

theorem sane_dictLoop {dictionary : Dictionary} {rest : List Byte}
    (sent : T.sentDictionary = some dictionary) (part : rest.length ≤ dictionary.bytes.length) :
    T.Sane (dictLoop rest) ∧ ¬ (dictLoop rest).Early := by
  simp only [dictLoop]
  split
  · exact ⟨trivial, id⟩
  · rename_i more
    exact ⟨⟨dictionary, sent, more, part⟩, id⟩

theorem sane_afterMapSize : T.Sane T.afterMapSize ∧ ¬ T.afterMapSize.Early := by
  cases sent : T.sentDictionary with
  | none =>
      simp only [Target.afterMapSize, sent]
      exact ⟨trivial, id⟩
  | some dictionary =>
      simp only [Target.afterMapSize, sent]
      exact ⟨sent, id⟩

/-- The stage after a word is written. -/
theorem sane_message {stage next : TargetStage} {word : Word} (sane : T.Sane stage)
    (writes : T.message stage = some (word, next)) :
    T.Sane next ∧ (next.Early ↔ stage.Early) ∧ stage ≠ .reply := by
  cases stage with
  | hello | options | welcome =>
      cases writes
      exact ⟨trivial, Iff.rfl, TargetStage.noConfusion⟩
  | mapSize =>
      cases writes
      exact ⟨sane_afterMapSize.1, iff_of_false sane_afterMapSize.2 id, TargetStage.noConfusion⟩
  | dictLen dictionary =>
      cases writes
      obtain ⟨still, late⟩ := sane_dictLoop sane le_rfl
      exact ⟨still, iff_of_false late id, TargetStage.noConfusion⟩
  | _ => simp only [Target.message, reduceCtorEq] at writes

/-- The answer stays where it is while the target writes. -/
theorem Control.target_moves (control : Control target fsrv ctl) (same : next.Early ↔ target.Early)
    (writing : target ≠ .reply) : Control next fsrv ctl := by
  cases control with
  | before early unanswered => exact .before (same.mpr early) unanswered
  | answer answered => exact absurd rfl writing
  | after late answered => exact .after (fun early => late (same.mp early)) answered

/-- The answer stays where it is while the fuzzer reads. -/
theorem Control.fsrv_moves {target : TargetStage} {fsrv next : FsrvStage}
    (control : Control target fsrv ctl) (same : next.Answered ↔ fsrv.Answered) :
    Control target next ctl := by
  cases control with
  | before early unanswered => exact .before early fun answered => unanswered (same.mp answered)
  | answer answered => exact .answer (same.mpr answered)
  | after late answered => exact .after late (same.mpr answered)

/-- Before the fuzzer has answered the target is still at its first calls. -/
theorem Control.of_unanswered {target : TargetStage} (control : Control target fsrv ctl)
    (unanswered : ¬ fsrv.Answered) : target.Early ∧ ctl = [] := by
  cases control with
  | before early _ => exact ⟨early, rfl⟩
  | answer answered => exact absurd answered unanswered
  | after _ answered => exact absurd answered unanswered

/-- Once the fuzzer has answered the target finds the answer. -/
theorem Control.of_reply (control : Control .reply fsrv ctl) (answered : fsrv.Answered) :
    ctl = wordBytes (version ^^^ 0xffffffff) := by
  cases control with
  | before _ unanswered => exact absurd answered unanswered
  | answer _ => rfl
  | after late _ => exact absurd trivial late

/-- The target finds the answer it expects. -/
theorem replyRead_answer : replyRead ((wordBytes (version ^^^ 0xffffffff)).take 4) = .options := by
  have whole := List.take_of_length_le (length_wordBytes (version ^^^ 0xffffffff)).le
  have found := readWord_wordBytes (version ^^^ 0xffffffff) []
  rw [List.append_nil] at found
  rw [whole, replyRead, if_pos ⟨length_wordBytes _, found⟩]

/-! ## Whole words -/

theorem length_tail {dictionary : Dictionary} (sent : T.sentDictionary = some dictionary) :
    T.tail.length = 8 + dictionary.bytes.length := by
  simp only [Target.tail, sent, List.length_append, length_wordBytes]
  omega

theorem length_tail_unsent (unsent : T.sentDictionary = none) : T.tail.length = 4 := by
  simp only [Target.tail, unsent, length_wordBytes]

/-- How many bytes the target still writes. What comes after the map size is `T.tail`;
inside it the target is between two words or in the dictionary. -/
theorem length_pending {stage : TargetStage} (sane : T.Sane stage) :
    (T.pending stage).length = 12 + T.tail.length ∨ (T.pending stage).length = 8 + T.tail.length ∨
      (T.pending stage).length = 4 + T.tail.length ∨ (T.pending stage).length = T.tail.length ∨
      (4 ≤ (T.pending stage).length ∧ (T.pending stage).length + 4 ≤ T.tail.length) ∨
      (T.pending stage).length = 0 := by
  cases stage with
  | hello | reply | options =>
      simp only [Target.pending, List.length_append, length_wordBytes]
      omega
  | mapSize =>
      refine .inr (.inr (.inl ?_))
      simp only [Target.pending, List.length_append, length_wordBytes]
  | dictLen dictionary =>
      have whole := length_tail sane
      simp only [Target.pending, List.length_append, length_wordBytes]
      omega
  | dict rest =>
      obtain ⟨dictionary, sent, some, part⟩ := sane
      have whole := length_tail sent
      simp only [Target.pending, List.length_append, length_wordBytes]
      omega
  | welcome =>
      simp only [Target.pending, length_wordBytes]
      cases sent : T.sentDictionary with
      | none =>
          have whole := length_tail_unsent sent
          omega
      | some dictionary =>
          have whole := length_tail sent
          omega
  | connected | exited => simp only [Target.pending, List.length_nil, or_true]

/-- How many bytes the fuzzer still reads, where it reads a word. -/
theorem length_awaited {stage : FsrvStage} {vars vars' : Fsrv} {other : Word}
    {elsewhere : FsrvStage × Fsrv} (follows : Follows T start tokens vars stage)
    (reads : wordRead other vars' stage = some elsewhere) :
    (T.awaited stage).length = 12 + T.tail.length ∨
      (T.awaited stage).length = 8 + T.tail.length ∨
      (T.awaited stage).length = 4 + T.tail.length ∨
      ((T.awaited stage).length = T.tail.length ∧ 4 ≤ T.tail.length) ∨
      ((T.awaited stage).length = 4 ∧ 4 ≤ T.tail.length) := by
  have atLeast : 4 ≤ T.tail.length := by
    cases sent : T.sentDictionary with
    | none => exact (length_tail_unsent sent).ge
    | some dictionary =>
        rw [length_tail sent]
        omega
  cases stage with
  | hello | options =>
      simp only [Target.awaited, Target.pending, List.length_append, length_wordBytes]
      omega
  | mapSize =>
      refine .inr (.inr (.inl ?_))
      simp only [Target.awaited, Target.pending, List.length_append, length_wordBytes]
  | dictSize => exact .inr (.inr (.inr (.inl ⟨rfl, atLeast⟩)))
  | welcome => exact .inr (.inr (.inr (.inr ⟨length_wordBytes _, atLeast⟩)))
  | _ => simp only [wordRead, reduceCtorEq] at reads

/-- Where the fuzzer reads a word, the pipe is empty or holds all of it. -/
theorem Agrees.whole_word (agrees : Agrees T start tokens s) {other : Word}
    {elsewhere : FsrvStage × Fsrv} (reads : wordRead other vars s.fsrv = some elsewhere)
    (arrived : s.st ≠ []) : 4 ≤ s.st.length := by
  have total := congrArg List.length agrees.stream
  have some := List.length_pos_iff.mpr arrived
  have toWrite := length_pending agrees.sane
  have toRead := length_awaited agrees.follows reads
  rw [List.length_append] at total
  omega

/-- The bytes that are still to cross a pipe, and the answer. -/
def remaining (T : Target) (s : Handshake) : ℕ :=
  (T.pending s.target).length + (T.awaited s.fsrv).length +
    (if s.target.Early then 1 else 0) + (if s.fsrv.Answered then 0 else 1)

/-! ## Every step -/

variable {limit : PipeLimit}

/-- Where the fuzzer writes its answer the target waits for it. -/
theorem Agrees.target_waits (agrees : Agrees T start tokens s) {keep : Word}
    (writes : s.fsrv = .reply keep) : s.target = .reply ∧ s.ctl = [] := by
  obtain ⟨stream, control, -, -⟩ := agrees
  rw [writes] at stream control
  obtain ⟨early, empty⟩ := control.of_unanswered id
  refine ⟨?_, empty⟩
  have total := congrArg List.length stream
  cases target : s.target with
  | reply => rfl
  | hello =>
      simp only [target, Target.awaited, Target.pending, List.length_append,
        length_wordBytes] at total
      omega
  | _ =>
      rw [target] at early
      exact early.elim

/-- A step keeps the invariant and brings the handshake forward. -/
def Advances (T : Target) (start : Fsrv) (tokens : List (List Byte)) (s t : Handshake) : Prop :=
  Agrees T start tokens t ∧ remaining T t < remaining T s

/-- The target writes a part of the dictionary. -/
theorem Agrees.targetWritesDict (agrees : Agrees T start tokens s) {rest : List Byte} {ret : ℕ}
    (writes : s.target = .dict rest) (some : 0 < ret) (atMost : ret ≤ rest.length) :
    Advances T start tokens s
      { s with target := dictLoop (rest.drop ret), st := s.st ++ rest.take ret } := by
  obtain ⟨stream, control, sane, follows⟩ := agrees
  rw [writes] at stream control sane
  obtain ⟨dictionary, sent, more, part⟩ := sane
  have part' : (rest.drop ret).length ≤ dictionary.bytes.length := by
    rw [List.length_drop]
    omega
  obtain ⟨still, late⟩ := sane_dictLoop sent part'
  refine ⟨⟨?_, control.target_moves (iff_of_false late id) TargetStage.noConfusion, still,
    follows⟩, ?_⟩
  · rw [pending_dictLoop, List.append_assoc, ← List.append_assoc (rest.take ret),
      List.take_append_drop]
    exact stream
  · have before : (T.pending (.dict rest)).length = rest.length + 4 := by
      simp only [Target.pending, List.length_append, length_wordBytes]
    simp only [remaining, writes, pending_dictLoop, before, List.length_append,
      length_wordBytes, List.length_drop, if_neg late,
      if_neg (show ¬ (TargetStage.dict rest).Early from id)]
    omega

/-- The target reads the answer. -/
theorem Agrees.targetReads (agrees : Agrees T start tokens s) (reads : s.target = .reply)
    (arrived : s.ctl ≠ []) :
    Advances T start tokens s
      { s with target := replyRead (s.ctl.take 4), ctl := s.ctl.drop 4 } := by
  obtain ⟨stream, control, -, follows⟩ := agrees
  have answered : s.fsrv.Answered := by
    by_contra unanswered
    exact arrived (control.of_unanswered unanswered).2
  rw [reads] at stream control
  have answer := control.of_reply answered
  have drained : s.ctl.drop 4 = [] := by
    rw [answer]
    exact List.drop_of_length_le (length_wordBytes _).le
  rw [answer] at drained
  refine ⟨⟨?_, ?_, ?_, follows⟩, ?_⟩
  · simp only [answer, replyRead_answer]
    exact stream
  · simp only [answer, replyRead_answer, drained]
    exact .after id answered
  · simp only [answer, replyRead_answer]
    exact trivial
  · simp only [remaining, reads, answer, replyRead_answer, Target.pending,
      if_pos (show TargetStage.reply.Early from trivial),
      if_neg (show ¬ TargetStage.options.Early from id)]
    omega

/-- The fuzzer reads a part of the dictionary. -/
theorem Compatible.fsrvReadsDict (compatible : Compatible T start tokens)
    (agrees : Agrees T start tokens s) {keep size : Word} {read : List Byte} {ret : ℕ}
    (reads : s.fsrv = .dict keep size read) (some : 0 < ret) (arrived : ret ≤ s.st.length)
    (atMost : ret ≤ size.toNat - read.length) :
    Advances T start tokens s
      { s with
        fsrv := (dictRead keep size (read ++ s.st.take ret) s.vars).1
        vars := (dictRead keep size (read ++ s.st.take ret) s.vars).2
        st := s.st.drop ret } := by
  obtain ⟨stream, control, sane, follows⟩ := agrees
  rw [reads] at stream control follows
  have bound := follows
  obtain ⟨-, dictionary, sent, rfl, -, unfinished, -⟩ := bound
  have size := (compatible.dictSizeRead version sent).2
  have bytes : T.dictBytes = dictionary.bytes := by
    simp only [Target.dictBytes, sent, Option.map_some, Option.getD_some]
  have inside : ret ≤ (T.dictBytes.drop read.length).length := by
    rw [bytes, List.length_drop]
    omega
  have front : s.st.take ret = (T.dictBytes.drop read.length).take ret := by
    have taken := congrArg (List.take ret) stream
    rwa [Target.awaited, List.take_append_of_le_length arrived,
      List.take_append_of_le_length inside] at taken
  have comes : s.st.take ret <+: T.dictBytes.drop read.length := by
    rw [front]
    exact List.take_prefix _ _
  obtain ⟨item, goesOn, answered⟩ := compatible.readsDict follows comes
  rw [item] at stream
  have whole : (s.st.take ret).length = ret := by
    rw [List.length_take]
    omega
  obtain ⟨-, rest⟩ := split_of_append_eq stream (by omega)
  rw [whole] at rest
  have same : (dictRead keep dictionary.len (read ++ s.st.take ret) s.vars).1.Answered ↔
      (FsrvStage.dict keep dictionary.len read).Answered := iff_of_true answered trivial
  refine ⟨⟨rest, control.fsrv_moves same, sane, goesOn⟩, ?_⟩
  simp only [remaining, reads, item, List.length_append, whole, if_pos answered,
    if_pos (show (FsrvStage.dict keep dictionary.len read).Answered from trivial)]
  omega

/-- **Every step keeps the invariant and brings the handshake forward.** -/
theorem Compatible.step (compatible : Compatible T start tokens) (agrees : Agrees T start tokens s)
    (taken : Step T limit s t) : Advances T start tokens s t := by
  have ⟨stream, control, sane, follows⟩ := agrees
  cases taken with
  | targetWrites writes room =>
      obtain ⟨still, same, writing⟩ := sane_message sane writes
      have written := pending_message writes
      refine ⟨⟨?_, control.target_moves same writing, still, follows⟩, ?_⟩
      · rw [List.append_assoc, ← written]
        exact stream
      · simp only [remaining, written, List.length_append, length_wordBytes, same]
        omega
  | targetWritesDict writes some atMost room => exact agrees.targetWritesDict writes some atMost
  | targetReads reads arrived => exact agrees.targetReads reads arrived
  | @fsrvWrites keep writes room =>
      obtain ⟨waits, empty⟩ := agrees.target_waits writes
      rw [writes] at stream follows
      obtain ⟨rfl, same⟩ := follows
      refine ⟨⟨stream, ?_, sane, rfl, same⟩, ?_⟩
      · rw [empty, waits]
        exact .answer trivial
      · simp only [remaining, writes, Target.awaited,
          if_pos (show (FsrvStage.options version).Answered from trivial),
          if_neg (show ¬ (FsrvStage.reply version).Answered from id)]
        omega
  | fsrvReads arrived reads =>
      obtain ⟨word, next, found, item, goesOn, answered⟩ := compatible.reads follows reads
      rw [item] at stream
      obtain ⟨front, rest⟩ := split_of_append_eq stream (by rw [length_wordBytes]; exact arrived)
      rw [length_wordBytes] at front rest
      have here : readWord s.st = word := by rw [front, readWord_wordBytes]
      rw [here, found, Option.some.injEq] at reads
      subst reads
      refine ⟨⟨rest, control.fsrv_moves answered, sane, goesOn⟩, ?_⟩
      simp only [remaining, item, List.length_append, length_wordBytes, answered]
      omega
  | fsrvReadsShort arrived short reads =>
      exact absurd (agrees.whole_word reads arrived) (by omega)
  | fsrvReadsDict reads some arrived atMost =>
      exact compatible.fsrvReadsDict agrees reads some arrived atMost

/-! ## The handshake comes to its end -/

/-- Both sides have finished the handshake: nothing is left in a pipe, the fuzzer has
the map size of the target, and these tokens were handed to `add_extra`. -/
structure Finished (T : Target) (start : Fsrv) (tokens : List (List Byte)) (s : Handshake) :
    Prop where
  connected : s.target = .connected
  up : s.fsrv = .up
  ctl_empty : s.ctl = []
  st_empty : s.st = []
  realMapSize : s.vars.realMapSize = T.mapSize
  mapSize : s.vars.mapSize.toNat = roundUp T.mapSize.toNat
  extras : s.vars.extras = start.extras ++ tokens

theorem Target.Sane.connected_of_pending {stage : TargetStage} (sane : T.Sane stage)
    (done : T.pending stage = []) : stage = .connected := by
  have length := congrArg List.length done
  cases stage with
  | connected => rfl
  | exited => exact sane.elim
  | _ =>
      simp only [Target.pending, List.length_append, length_wordBytes, List.length_nil] at length
      omega

theorem Control.ctl_of_connected (control : Control .connected fsrv ctl) : ctl = [] := by
  cases control with
  | before early _ => exact early.elim
  | after _ _ => rfl

/-- When the fuzzer waits at an empty pipe the target can go on. -/
theorem Agrees.target_moves (agrees : Agrees T start tokens s) (empty : s.st = [])
    (waits : T.awaited s.fsrv ≠ []) (reading : ∀ keep, s.fsrv ≠ .reply keep) :
    ∃ t, Step T limit s t := by
  obtain ⟨stream, control, sane, -⟩ := agrees
  have room : s.st.length + 4 ≤ limit.capacity := by
    rw [empty, List.length_nil, Nat.zero_add]
    exact limit.word_fits
  rw [empty, List.nil_append] at stream
  cases target : s.target with
  | hello | options | mapSize | dictLen | welcome =>
      exact ⟨_, .targetWrites (by rw [target]; rfl) room⟩
  | reply =>
      rw [target] at stream
      generalize hctl : s.ctl = ctl at control
      rw [target] at control
      cases control with
      | before early unanswered =>
          cases fsrv : s.fsrv with
          | hello =>
              have total := congrArg List.length stream
              simp only [fsrv, Target.awaited, Target.pending, List.length_append,
                length_wordBytes] at total
              omega
          | reply keep => exact absurd fsrv (reading keep)
          | _ => exact absurd (by rw [fsrv]; exact trivial) unanswered
      | answer answered => exact ⟨_, .targetReads target (by rw [hctl]; decide)⟩
      | after late answered => exact absurd trivial late
  | dict rest =>
      rw [target] at sane
      obtain ⟨-, -, more, -⟩ := sane
      have some := List.length_pos_iff.mpr more
      exact ⟨_, .targetWritesDict target Nat.one_pos some (by omega)⟩
  | connected | exited =>
      rw [target] at stream
      exact absurd stream.symm waits

/-- Where the fuzzer reads a word, it or the target can go on. -/
theorem Compatible.word_moves (compatible : Compatible T start tokens)
    (agrees : Agrees T start tokens s) {elsewhere : FsrvStage × Fsrv}
    (reads : wordRead (readWord s.st) s.vars s.fsrv = some elsewhere) : ∃ t, Step T limit s t := by
  by_cases empty : s.st = []
  · obtain ⟨word, next, -, item, -⟩ := compatible.reads agrees.follows reads
    refine agrees.target_moves empty (fun nothing => ?_) fun keep answering => ?_
    · rw [item] at nothing
      have long := congrArg List.length nothing
      simp only [List.length_append, length_wordBytes, List.length_nil] at long
      omega
    · simp only [answering, wordRead, reduceCtorEq] at reads
  · exact ⟨_, .fsrvReads (agrees.whole_word reads empty) reads⟩

/-- Until both sides have finished one of them can go on. -/
theorem Compatible.progress (compatible : Compatible T start tokens)
    (agrees : Agrees T start tokens s) :
    Finished T start (start.handed tokens) s ∨ ∃ t, Step T limit s t := by
  have invariant := agrees
  obtain ⟨stream, control, sane, follows⟩ := agrees
  cases fsrv : s.fsrv with
  | hello | options | mapSize | dictSize | welcome =>
      exact .inr (compatible.word_moves invariant (by rw [fsrv]; rfl))
  | reply keep =>
      obtain ⟨-, empty⟩ := invariant.target_waits fsrv
      refine .inr ⟨_, .fsrvWrites fsrv ?_⟩
      rw [empty, List.length_nil, Nat.zero_add]
      exact limit.word_fits
  | dict keep size read =>
      right
      by_cases empty : s.st = []
      · refine invariant.target_moves empty (fun nothing => ?_) fun keep answering => ?_
        · rw [fsrv] at nothing
          have long := congrArg List.length nothing
          simp only [Target.awaited, List.length_append, length_wordBytes, List.length_nil] at long
          omega
        · rw [fsrv] at answering
          exact FsrvStage.noConfusion answering
      · rw [fsrv] at follows
        obtain ⟨-, dictionary, sent, rfl, -, unfinished, -⟩ := follows
        have size := (compatible.dictSizeRead version sent).2
        have some := List.length_pos_iff.mpr empty
        exact ⟨_, .fsrvReadsDict fsrv Nat.one_pos some (by omega)⟩
  | up =>
      left
      rw [fsrv] at stream follows
      obtain ⟨nothing, done⟩ := List.append_eq_nil_iff.mp stream
      have vars : s.vars = T.handedOver start tokens := follows
      have connected := sane.connected_of_pending done
      rw [connected, fsrv] at control
      refine ⟨connected, fsrv, control.ctl_of_connected, nothing, ?_, ?_, ?_⟩
      · simp only [vars, Target.handedOver, Target.configured]
      · simp only [vars, Target.handedOver, Target.configured, compatible.toNat_alignedMapSize]
      · simp only [vars, Target.handedOver]
  | oldModel | fatal | shortRead =>
      rw [fsrv] at follows
      exact follows.elim

/-- Compatible sides come to the end of the handshake. -/
theorem Compatible.inevitable (compatible : Compatible T start tokens) :
    Inevitable (Step T limit) (Finished T start (start.handed tokens)) (Handshake.init start) :=
  Inevitable.of_measure (Agrees T start tokens) (remaining T)
    (fun _ agrees => (compatible.progress agrees).imp_right fun moves =>
      ⟨moves, fun _ taken => compatible.step agrees taken⟩) (Agrees.init start)

/-- The tokens of the dictionary a target has. -/
def dictionaryTokens (dict : Option AutoDict) : List (List Byte) :=
  (dict.map AutoDict.tokens).getD []

/-- A target with a well-formed dictionary, or none, and a fuzzer with the map and the
support it asks for are compatible. -/
theorem compatible_of_autoDict (dict : Option AutoDict)
    (carries : T.dictionary = dict.map AutoDict.memory)
    (fits : roundUp T.mapSize.toNat ≤ start.mapLimit.toNat)
    (supported : T.sharedmemFuzzing = true → start.supportShmemFuzz = true) :
    Compatible T start (dictionaryTokens dict) := by
  cases dict with
  | none =>
      have unsent : T.sentDictionary = none := by
        rw [Target.sentDictionary, carries]
        rfl
      exact ⟨fits, supported, fun _ sent => by simp only [unsent, reduceCtorEq] at sent,
        fun _ sent => by simp only [unsent, reduceCtorEq] at sent, fun _ => rfl⟩
  | some dict =>
      have length : dict.memory.len.toNat = dict.memory.bytes.length := by
        rw [Dictionary.len, BitVec.toNat_ofNat]
        exact Nat.mod_eq_of_lt dict.memory.fits
      have nonzero : dict.memory.len ≠ 0 := by
        intro zero
        have := dict.two_le
        rw [zero] at length
        simp only [AutoDict.memory, BitVec.ofNat_eq_ofNat, BitVec.toNat_ofNat,
          Nat.zero_mod] at length
        omega
      have sent : T.sentDictionary = some dict.memory := by
        rw [Target.sentDictionary, carries, Option.map_some, Option.filter_some,
          if_pos (decide_eq_true nonzero)]
      refine ⟨fits, supported, fun dictionary here => ?_, fun dictionary here => ?_,
        fun unsent => ?_⟩
      · rw [sent, Option.some.injEq] at here
        subst here
        exact ⟨dict.two_le, dict.le_max⟩
      · rw [sent, Option.some.injEq] at here
        subst here
        exact dictTokens_append dict.tokens [] dict.short
      · rw [sent] at unsent
        exact absurd unsent (Option.some_ne_none _)

/-- **The handshake agrees.** Whatever options the target announces, with any map size
that fits, any well-formed dictionary and any split of its transfer, every run of the two
processes ends with both sides connected, nothing left in a pipe, the map size of the
target taken over and its tokens handed to `add_extra` in order. A fuzzer without support
for test cases in shared memory is left out when the target asks for them, and the tokens
are handed on as `AFL_NO_AUTODICT` and the callback say. -/
theorem handshake_agrees (T : Target) (limit : PipeLimit) (start : Fsrv) (dict : Option AutoDict)
    (carries : T.dictionary = dict.map AutoDict.memory)
    (fits : roundUp T.mapSize.toNat ≤ start.mapLimit.toNat)
    (supported : T.sharedmemFuzzing = true → start.supportShmemFuzz = true) :
    Inevitable (Step T limit) (Finished T start (start.handed (dictionaryTokens dict)))
      (Handshake.init start) :=
  (compatible_of_autoDict dict carries fits supported).inevitable

/-! ## The settings of the fuzzer -/

/-- Pipes of the usual capacity. -/
def usualPipe : PipeLimit := ⟨65536, by decide⟩

/-- A dictionary of two tokens. -/
def twoTokens : AutoDict where
  tokens := [[65], [66, 67]]
  nonempty := by decide
  short := by decide
  two_le := by decide
  le_max := by decide

/-- A target with a small map that asks for test cases in shared memory. -/
def sharedTarget : Target := ⟨70, true, none⟩

/-- A target with a small map and a dictionary. -/
def dictionaryTarget : Target := ⟨70, false, some twoTokens.memory⟩

/-- A fuzzer with the default map and nothing else set. -/
def plainFsrv : Fsrv := ⟨MAP_SIZE, 0, false, false, false, false, []⟩

/-- A fuzzer that shares memory and takes tokens. -/
def sharingFsrv : Fsrv := ⟨MAP_SIZE, 0, true, false, true, false, []⟩

/-- The handshake of a target with a dictionary and a fuzzer that takes it. -/
theorem handshake_agrees_twoTokens :
    Inevitable (Step dictionaryTarget usualPipe)
      (Finished dictionaryTarget sharingFsrv (sharingFsrv.handed [[65], [66, 67]]))
      (Handshake.init sharingFsrv) :=
  handshake_agrees dictionaryTarget usualPipe sharingFsrv (some twoTokens) rfl (by decide)
    (fun asked => absurd asked (by decide))

/-- The target writes a word into an empty pipe. -/
theorem Step.word_written {word : Word} (writes : T.message target = some (word, next)) :
    Step T limit ⟨target, fsrv, vars, ctl, []⟩ ⟨next, fsrv, vars, ctl, wordBytes word⟩ :=
  .targetWrites (s := ⟨target, fsrv, vars, ctl, []⟩) writes
    (by rw [List.length_nil, Nat.zero_add]; exact limit.word_fits)

/-- The fuzzer reads a word that is alone in the pipe. -/
theorem Step.word_read {target : TargetStage} {word : Word} {next : FsrvStage × Fsrv}
    (reads : wordRead word vars fsrv = some next) :
    Step T limit ⟨target, fsrv, vars, ctl, wordBytes word⟩ ⟨target, next.1, next.2, ctl, []⟩ := by
  have found : readWord (wordBytes word) = word := by
    have := readWord_wordBytes word []
    rwa [List.append_nil] at this
  have drained : (wordBytes word).drop 4 = [] := List.drop_of_length_le (length_wordBytes word).le
  have step : Step T limit ⟨target, fsrv, vars, ctl, wordBytes word⟩
      ⟨target, next.1, next.2, ctl, (wordBytes word).drop 4⟩ :=
    .fsrvReads (s := ⟨target, fsrv, vars, ctl, wordBytes word⟩) (length_wordBytes word).ge
      (by rw [found]; exact reads)
  rwa [drained] at step

/-- The fuzzer answers a hello. -/
theorem Step.answered {target : TargetStage} {keep : Word} :
    Step T limit ⟨target, .reply keep, vars, [], []⟩
      ⟨target, .options keep, vars, wordBytes (keep ^^^ 0xffffffff), []⟩ :=
  .fsrvWrites (s := ⟨target, .reply keep, vars, [], []⟩) rfl
    (by rw [List.length_nil, Nat.zero_add]; exact limit.word_fits)

/-- The target reads the answer. -/
theorem Step.answer_read :
    Step T limit ⟨.reply, fsrv, vars, wordBytes (version ^^^ 0xffffffff), []⟩
      ⟨.options, fsrv, vars, [], []⟩ := by
  have drained : (wordBytes (version ^^^ 0xffffffff)).drop 4 = [] :=
    List.drop_of_length_le (length_wordBytes _).le
  have step : Step T limit ⟨.reply, fsrv, vars, wordBytes (version ^^^ 0xffffffff), []⟩ _ :=
    .targetReads rfl fun nothing => by
      have long := congrArg List.length nothing
      simp only [length_wordBytes, List.length_nil] at long
      omega
  simpa only [replyRead_answer, drained] using step

/-- A fuzzer that has given up reads and writes nothing more, and a connected target
neither. -/
theorem Step.stuck_of_fatal {why : Fatal} {ctl st : List Byte} (u : Handshake) :
    ¬ Step T limit ⟨.connected, .fatal why, vars, ctl, st⟩ u := by
  intro taken
  cases taken with
  | targetWrites writes _ => simp only [Target.message, reduceCtorEq] at writes
  | targetWritesDict writes _ _ _ => exact TargetStage.noConfusion writes
  | targetReads reads _ => exact TargetStage.noConfusion reads
  | fsrvWrites writes _ => exact FsrvStage.noConfusion writes
  | fsrvReads _ reads => simp only [wordRead, reduceCtorEq] at reads
  | fsrvReadsShort _ _ reads => simp only [wordRead, reduceCtorEq] at reads
  | fsrvReadsDict reads _ _ _ => exact FsrvStage.noConfusion reads

/-- Nor do two sides that have finished. -/
theorem Finished.stuck (finished : Finished T start tokens s) (u : Handshake) :
    ¬ Step T limit s u := by
  intro taken
  have target := finished.connected
  have fsrv := finished.up
  cases taken with
  | targetWrites writes _ => simp only [target, Target.message, reduceCtorEq] at writes
  | targetWritesDict writes _ _ _ => exact TargetStage.noConfusion (target.symm.trans writes)
  | targetReads reads _ => exact TargetStage.noConfusion (target.symm.trans reads)
  | fsrvWrites writes _ => exact FsrvStage.noConfusion (fsrv.symm.trans writes)
  | fsrvReads _ reads => simp only [fsrv, wordRead, reduceCtorEq] at reads
  | fsrvReadsShort _ _ reads => simp only [fsrv, wordRead, reduceCtorEq] at reads
  | fsrvReadsDict reads _ _ _ => exact FsrvStage.noConfusion (fsrv.symm.trans reads)

/-- A fuzzer without shared memory gives up after the map size. -/
theorem mapSizeRead_sharedTarget :
    mapSizeRead version sharedTarget.options 70 plainFsrv =
      (.fatal .sharedmemNotEnabled,
        { plainFsrv with mapSize := alignedMapSize 70, realMapSize := 70 }) := by
  have inMap : ¬ plainFsrv.mapLimit < alignedMapSize 70 := by decide
  simp only [mapSizeRead, sharedmemRead]
  rw [if_neg inMap, if_pos (options_sharedmem.mpr rfl), if_neg (by decide)]

/-- The run in which a fuzzer without shared memory meets a target that asks for it. -/
theorem refused (tokens : List (List Byte)) :
    ¬ Inevitable (Step sharedTarget usualPipe) (Finished sharedTarget plainFsrv tokens)
      (Handshake.init plainFsrv) := by
  have unfinished : ∀ {s : Handshake}, s.fsrv ≠ .up →
      ¬ Finished sharedTarget plainFsrv tokens s := fun down finished => down finished.up
  have asks : wordRead sharedTarget.options plainFsrv (.options version) =
      some (.mapSize version sharedTarget.options, plainFsrv) := by
    simp only [wordRead, optionsRead, if_pos options_mapSize]
  have stops : wordRead 70 plainFsrv (.mapSize version sharedTarget.options) =
      some (.fatal .sharedmemNotEnabled,
        { plainFsrv with mapSize := alignedMapSize 70, realMapSize := 70 }) := by
    simp only [wordRead, mapSizeRead_sharedTarget]
  have greets : wordRead version plainFsrv .hello = some (.reply version, plainFsrv) := by
    simp only [wordRead, helloRead_version]
  refine Inevitable.not_of_stuck (t := ⟨.connected, .fatal .sharedmemNotEnabled,
    { plainFsrv with mapSize := alignedMapSize 70, realMapSize := 70 }, [], wordBytes version⟩)
    ?_ (unfinished FsrvStage.noConfusion) Step.stuck_of_fatal
  refine .head ⟨unfinished FsrvStage.noConfusion, Step.word_written rfl⟩ ?_
  refine .head ⟨unfinished FsrvStage.noConfusion, Step.word_read greets⟩ ?_
  refine .head ⟨unfinished FsrvStage.noConfusion, Step.answered⟩ ?_
  refine .head ⟨unfinished FsrvStage.noConfusion, Step.answer_read⟩ ?_
  refine .head ⟨unfinished FsrvStage.noConfusion, Step.word_written rfl⟩ ?_
  refine .head ⟨unfinished FsrvStage.noConfusion, Step.word_read asks⟩ ?_
  refine .head ⟨unfinished FsrvStage.noConfusion, Step.word_written rfl⟩ ?_
  refine .head ⟨unfinished FsrvStage.noConfusion, Step.word_read stops⟩ ?_
  exact .single ⟨unfinished FsrvStage.noConfusion, Step.word_written rfl⟩

/-- Where the fuzzer does not hand the tokens on, no run hands them on. -/
theorem Compatible.not_handed (compatible : Compatible T start tokens)
    (kept : start.handed tokens ≠ tokens) :
    ¬ Inevitable (Step T limit) (Finished T start tokens) (Handshake.init start) := by
  have never : ∀ s, Agrees T start tokens s → ¬ Finished T start tokens s := by
    intro s agrees finished
    have vars := agrees.follows
    rw [finished.up] at vars
    have extras := finished.extras
    rw [show s.vars = T.handedOver start tokens from vars] at extras
    exact kept (List.append_cancel_left extras)
  obtain ⟨t, run, finished⟩ := Inevitable.exists_run
    (show Inevitable (Step T limit) _ _ from compatible.inevitable)
  have agreeing : ∀ {s : Handshake}, Relation.ReflTransGen (Step T limit) (Handshake.init start) s →
      Agrees T start tokens s ∧ Relation.ReflTransGen
        (fun u v => ¬ Finished T start tokens u ∧ Step T limit u v) (Handshake.init start) s := by
    intro s run
    induction run with
    | refl => exact ⟨Agrees.init start, .refl⟩
    | tail _ taken ih =>
        exact ⟨(compatible.step ih.1 taken).1, ih.2.tail ⟨never _ ih.1, taken⟩⟩
  exact Inevitable.not_of_stuck (agreeing run).2 (never t (agreeing run).1) finished.stuck

/-- A target that asks for shared memory is refused by a fuzzer that has none, and
without a callback the tokens of a dictionary are read and dropped. -/
theorem handshake_depends_on_settings :
    ¬ Inevitable (Step sharedTarget usualPipe) (Finished sharedTarget plainFsrv [])
        (Handshake.init plainFsrv) ∧
      ¬ Inevitable (Step dictionaryTarget usualPipe)
        (Finished dictionaryTarget plainFsrv [[65], [66, 67]]) (Handshake.init plainFsrv) := by
  have compatible : Compatible dictionaryTarget plainFsrv [[65], [66, 67]] :=
    compatible_of_autoDict (some twoTokens) rfl (by decide)
      fun asked => absurd asked (by decide)
  exact ⟨refused [], compatible.not_handed (by decide)⟩

end GreenFuzz.ForkServer
