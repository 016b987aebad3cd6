import GreenFuzz.Redqueen.ColorizationParts
import GreenFuzz.Redqueen.RtnFuzz

/-!
# The input-to-state stage

`input_to_state_stage` colorizes the buffer, logs the comparisons of the original input and of the
colorized one, and calls the solvers for the keys that were hit. If nothing fails it returns 0, and
`fuzz_one` goes on with the same buffer.

The statement that would copy the original input back is inside a comment. The stage hands over the
buffer as the colorization left it, also when there are no taints because nearly everything was
replaced. So **the buffer is the original one after every run that returns 0 exactly if no part of
the input can be replaced without changing the trace** (`inputToStateStage_clean_iff`).
-/

set_option autoImplicit false

namespace GreenFuzz.Redqueen

open Library AflFuzz CompilerRt

/-! ## What the stage works on -/

/-- An input, what `random_replace` or `type_replace` makes of it, and the checksums of the traces
of the target. -/
structure Colorable where
  len : ℕ
  orig : Buffer
  changed : Buffer
  cksum : Buffer → ℕ
  positive : 0 < len
  small : 2 * len < 2 ^ 32
  differs : ∀ i < len, changed i ≠ orig i

/-- The options, the state of the fuzzer and of the queue entry, and what the executions come to. -/
structure StageEnv where
  machine : Machine
  enableTransform : Bool
  enableXtremeTransform : Bool
  enableArith : Bool
  enableScale : Bool
  fixedSeed : Bool
  /-- `__afl_cmplog_max_len` in the target. -/
  maxLen : ℕ
  stats : ColorizeStats
  passStats : ℕ → PassStat
  /-- `queue_cur->colorized` and `queue_cur->is_ascii`. -/
  colorized : ℕ
  isAscii : Bool
  /-- Which executions of the colorization fail, and which are slow. -/
  fails : ℕ → Bool
  slow : ℕ → Bool
  /-- The comparisons of the original input and of the colorized one, unless their execution
  failed. -/
  origCalls : Option (List (ℕ × CmpCall))
  calls : Option (List (ℕ × CmpCall))
  /-- There is more than one new queue entry or crash after the solvers. -/
  manyFinds : Bool
  /-- What the local arrays hold before they are written. -/
  unset : ℕ → ℕ → ℕ → ℕ → Buffer

def CMPLOG_LVL_MAX : ℕ := 3

def CMP_MAP_W : ℕ := 65536

namespace StageEnv

variable (E : StageEnv) (I : Colorable)

def target : Target := ⟨I.cksum, E.fails, E.slow, E.fixedSeed⟩

/-- `lvl`. -/
def lvl : BitVec 8 :=
  (if E.colorized ≠ 0 then 0 else LVL1) + if E.stats.cmplogLvl = CMPLOG_LVL_MAX then LVL3 else 0

/-- What the loops over the keys test. -/
def level : CmplogLevel :=
  ⟨E.lvl &&& LVL1 ≠ 0, E.lvl &&& LVL3 ≠ 0, E.enableTransform⟩

/-- The arguments that the solvers share. -/
def itsStage (taints : List Tainted) : ItsStage where
  machine := E.machine
  enableTransform := E.enableTransform
  enableXtremeTransform := E.enableXtremeTransform
  enableArith := E.enableArith
  enableScale := E.enableScale
  lvl := E.lvl
  len := I.len
  origBuf := I.orig
  isAscii := E.isAscii
  taints := taints

end StageEnv

/-! ## The keys -/

/-- What is offered to the dictionary by either solver. -/
inductive StageOffer where
  | operand (offer : DictOffer)
  | token (mem : Token)

/-- The first loop over the keys: those that failed too often are ignored. -/
def ignoreKeys (passStats : ℕ → PassStat) (map : CmpMap) : CmpMap :=
  { map with
    headers := fun k =>
      if k < CMP_MAP_W then ignoreExhausted (passStats k) (map.headers k) else map.headers k }

/-- A round of the second loop, with the offers and the statistics of the key afterwards. -/
def solveKey (E : StageEnv) (F : ItsStage) (map origMap : CmpMap) (k : ℕ) :
    Its (List StageOffer × PassStat) :=
  let stat := E.passStats k
  if (map.headers k).hits = 0 then pure ([], stat)
  else if (map.headers k).type = .ins then do
    let (offers, stat) ← cmpFuzz F map origMap k stat
    pure (offers.map .operand, stat)
  else if E.level.routines then do
    let (tokens, stat) ← rtnFuzz F (E.unset k) map origMap k stat
    pure (tokens.map .token, stat)
  else pure ([], stat)

/-- The second loop over the keys, with all offers and the statistics of the keys. -/
def solveKeys (E : StageEnv) (F : ItsStage) (map origMap : CmpMap) :
    List ℕ → Its (List StageOffer × List PassStat)
  | [] => pure ([], [])
  | k :: rest => do
      let (offers, stat) ← solveKey E F map origMap k
      let (more, stats) ← solveKeys E F map origMap rest
      pure (offers ++ more, stat :: stats)

/-! ## The stage -/

/-- What the stage returns and leaves in the state of the fuzzer. The buffers are in the state of
the computation. -/
structure StageEnd where
  ret : ℕ
  colorized : ℕ
  stats : ColorizeStats
  offers : List StageOffer := []
  /-- The statistics of the keys, if the solvers were called. -/
  passStats : List PassStat := []
  /-- The combined input that is executed at the end. What comes of that is not looked at. -/
  combined : Option (List Byte) := none

/-- Do what a colorization does. -/
def liftExcept {α : Type} (x : Except Halt α) : Its α := fun s supply =>
  match x with
  | .ok a => .ok ((a, s), supply)
  | .error halt => .error halt

/-- The taints, the highest one first. -/
def readTaints (fuel : ℕ) (c : Colorized) : Except Halt (List Tainted) :=
  c.heap.walk (fun _ t taints => .yield (taints ++ [t])) fuel c.taints []

/-- The part of the stage that has both logs. -/
def solveLogged (fuel : ℕ) (I : Colorable) (E : StageEnv) (c : Colorized)
    (origCalls calls : List (ℕ × CmpCall)) : Its StageEnd := do
  let taints ← liftExcept (readTaints fuel c)
  let origMap := ({} : CmpMap).execute E.maxLen origCalls
  let map := ignoreKeys E.passStats (origMap.clearHeaders.execute E.maxLen calls)
  poke fun s => { s with cbuf := memcpyTo s.cbuf 0 (inputOf I.len I.orig) }
  let (offers, passStats) ←
    solveKeys E (E.itsStage I taints) map origMap (List.range CMP_MAP_W)
  let _ ← liftExcept (Heap.freeAll fuel c.heap c.taints)
  let combined ← peek fun s => inputOf I.len s.cbuf
  pure { ret := 0, colorized := CMPLOG_LVL_MAX, stats := c.afl, offers, passStats,
         combined := if E.manyFinds then some combined else none }

/-- `input_to_state_stage`. A solver that returns 1 ends the run. Nothing in the repository sets
`queue_cur->taint`, so the stage always colorizes. -/
def inputToStateStage (fuel : ℕ) (I : Colorable) (E : StageEnv) : Its StageEnd := do
  let buf ← peek fun s => s.buf
  let c ← liftExcept (colorization fuel (E.target I) E.stats I.changed buf I.len)
  poke fun s => { s with buf := c.buf }
  if c.ret = 1 then pure { ret := 1, colorized := E.colorized, stats := c.afl }
  else if c.taints = none then pure { ret := 0, colorized := CMPLOG_LVL_MAX, stats := c.afl }
  else
    match E.origCalls, E.calls with
    | some origCalls, some calls => solveLogged fuel I E c origCalls calls
    | _, _ => do
        let _ ← liftExcept (Heap.freeAll fuel c.heap c.taints)
        pure { ret := 1, colorized := CMPLOG_LVL_MAX, stats := c.afl }

/-! ## Runs of the stage -/

section Runs

variable {α β : Type} {x : Except Halt α} {a : α} {b : β} {next : α → Its β} {s t : ItsState}
  {supply left : List ExecResult}

theorem run_liftExcept (done : x = .ok a) : liftExcept x s supply = .ok ((a, s), supply) := by
  subst done
  rfl

theorem run_liftExcept_bind
    (run : (liftExcept x >>= next) s supply = .ok ((b, t), left)) :
    ∃ a, x = .ok a ∧ next a s supply = .ok ((b, t), left) := by
  obtain ⟨a, u, middle, lifted, rest⟩ := run_bind_ok run
  cases x with
  | error halt => cases lifted
  | ok value =>
      cases lifted
      exact ⟨_, rfl, rest⟩

end Runs

/-- The fuzzer goes on with the original input after every run of the stage that returns 0.
`fuzz_one` copies the input to the buffer before. -/
def LeavesClean (fuel : ℕ) (I : Colorable) (E : StageEnv) : Prop :=
  ∀ s supply e t left, s.buf = I.orig →
    inputToStateStage fuel I E s supply = .ok ((e, t), left) → e.ret = 0 →
    ∀ i < I.len, t.buf i = I.orig i

section Stage

variable {fuel : ℕ} {I : Colorable} {E : StageEnv}

/-- What the colorization of the stage comes to. -/
theorem Colorable.parts (I : Colorable) (E : StageEnv) (enough : 2 * I.len + 2 ≤ fuel) :
    Yields (colorization fuel (E.target I) E.stats I.changed I.orig I.len) fun c =>
      (c.ret = 1 ∧ ∃ k, E.fails k = true) ∨
        (c.ret = 0 ∧ Partwise (E.target I) I.changed I.orig I.len fuel c) :=
  colorization_parts E.stats I.positive I.small I.differs enough

/-- If every part of the input changes the trace, the stage hands the original input over. -/
theorem leavesClean_of_tells (enough : 2 * I.len + 2 ≤ fuel)
    (tells : ∀ start size, PartOf 0 I.len start size →
      I.cksum (copyPart I.orig I.changed start size) ≠ I.cksum I.orig) :
    LeavesClean fuel I E := by
  intro s supply e t left same run ret i below
  rw [inputToStateStage] at run
  have run := run_peek_bind run
  obtain ⟨c, colored, run⟩ := run_liftExcept_bind run
  have run := run_poke_bind run
  rw [same] at colored
  obtain ⟨c', yielded, ends⟩ := I.parts E enough
  cases colored.symm.trans yielded
  rcases ends with ⟨failed, -⟩ | ⟨returned, parts⟩
  · rw [if_pos failed] at run
    cases run
    cases ret
  · obtain ⟨same_buf, no_taint⟩ := parts.clean tells
    rw [if_neg (by rw [returned]; exact Nat.zero_ne_one), if_pos no_taint] at run
    cases run
    exact congrFun same_buf i

/-- Keys without hits are passed over. -/
theorem solveKeys_unlogged (F : ItsStage) {map : CmpMap} (origMap : CmpMap)
    (unlogged : ∀ k, (map.headers k).hits = 0) (keys : List ℕ) :
    solveKeys E F map origMap keys = pure ([], keys.map E.passStats) := by
  induction keys with
  | nil => rfl
  | cons k rest ih =>
      rw [solveKeys, solveKey, if_pos (unlogged k), ih]
      rfl

/-- Without comparisons the part with both logs leaves the buffer as it is and returns 0. -/
theorem solveLogged_unlogged {c : Colorized}
    (parts : Partwise (E.target I) I.changed I.orig I.len fuel c) (handed : c.taints ≠ none)
    (s : ItsState) (supply : List ExecResult) :
    ∃ e t, solveLogged fuel I E c [] [] s supply = .ok ((e, t), supply) ∧ e.ret = 0 ∧
      t.buf = s.buf := by
  obtain ⟨taints, linked, distinct, room⟩ := parts.linked handed
  have read : readTaints fuel c = .ok _ := walk_eq _ linked room []
  obtain ⟨freed, done⟩ := freeAll_ok linked distinct room
  let map := (({} : CmpMap).execute E.maxLen []).clearHeaders.execute E.maxLen []
  have unlogged (k : ℕ) : ((ignoreKeys E.passStats map).headers k).hits = 0 := by
    simp [map, ignoreKeys, ignoreExhausted, CmpMap.execute, CmpMap.clearHeaders]
  let combined := memcpyTo s.cbuf 0 (inputOf I.len I.orig)
  refine ⟨{ ret := 0, colorized := CMPLOG_LVL_MAX, stats := c.afl,
            passStats := (List.range CMP_MAP_W).map E.passStats,
            combined := if E.manyFinds then some (inputOf I.len combined) else none },
    { s with cbuf := combined }, ?_, rfl, rfl⟩
  rw [solveLogged, run_bind (run_liftExcept read)]
  dsimp only
  rw [solveKeys_unlogged _ _ unlogged, done]
  generalize List.range CMP_MAP_W = keys
  rfl

/-- Nothing fails, nothing is slow, and the target compares nothing. -/
def calmEnv (stats : ColorizeStats) : StageEnv where
  machine := idleMachine
  enableTransform := true
  enableXtremeTransform := true
  enableArith := true
  enableScale := true
  fixedSeed := false
  maxLen := 32
  stats := stats
  passStats := fun _ => {}
  colorized := 0
  isAscii := false
  fails := fun _ => false
  slow := fun _ => false
  origCalls := some []
  calls := some []
  manyFinds := false
  unset := fun _ _ _ _ _ => 0

/-- Then the stage returns 0 and hands over what the colorization left. -/
theorem calm_run (I : Colorable) (stats : ColorizeStats) (enough : 2 * I.len + 2 ≤ fuel)
    {s : ItsState} (same : s.buf = I.orig) (supply : List ExecResult) :
    ∃ c e t, colorization fuel ((calmEnv stats).target I) stats I.changed I.orig I.len = .ok c ∧
      Partwise ((calmEnv stats).target I) I.changed I.orig I.len fuel c ∧
      inputToStateStage fuel I (calmEnv stats) s supply = .ok ((e, t), supply) ∧ e.ret = 0 ∧
        t.buf = c.buf := by
  obtain ⟨c, colored, ends⟩ := I.parts (calmEnv stats) enough
  obtain ⟨-, k, fails⟩ | ⟨returned, parts⟩ := ends
  · cases fails
  have begun : inputToStateStage fuel I (calmEnv stats) s supply =
      (if c.taints = none then pure { ret := 0, colorized := CMPLOG_LVL_MAX, stats := c.afl }
        else solveLogged fuel I (calmEnv stats) c [] []) { s with buf := c.buf } supply := by
    have peeked : (peek fun s => s.buf : Its Buffer) s supply = .ok ((I.orig, s), supply) := by
      rw [← same]
      rfl
    have poked : (poke fun s => { s with buf := c.buf }) s supply =
        .ok (((), { s with buf := c.buf }), supply) := rfl
    rw [inputToStateStage, run_bind peeked, run_bind (run_liftExcept colored), run_bind poked,
      if_neg (by rw [returned]; exact Nat.zero_ne_one)]
    rfl
  rw [begun]
  by_cases handed : c.taints = none
  · rw [if_pos handed]
    exact ⟨c, _, _, colored, parts, rfl, rfl, rfl⟩
  · rw [if_neg handed]
    obtain ⟨e, t, run, ret, same_buf⟩ :=
      solveLogged_unlogged parts handed { s with buf := c.buf } supply
    exact ⟨c, e, t, colored, parts, run, ret, same_buf⟩

end Stage

/-- The state before the stage, in which `fuzz_one` has copied the input. -/
def copiedState (buf : Buffer) : ItsState where
  buf := buf
  cbuf := fun _ => 0
  scratch := fun _ => 0
  hshape := 0
  status := 0
  erange := false
  executed := []
  finds := []

/-- **The stage leaves the original input in every run that returns 0, for all comparisons, finds,
failures and delays, exactly if no part of the input can be replaced without changing the trace.**
The parts are those that the colorization comes to by halving. -/
theorem inputToStateStage_clean_iff (I : Colorable) (fuel : ℕ) (enough : 2 * I.len + 2 ≤ fuel) :
    (∀ E, LeavesClean fuel I E) ↔
      ∀ start size, PartOf 0 I.len start size →
        I.cksum (copyPart I.orig I.changed start size) ≠ I.cksum I.orig := by
  constructor
  · intro clean start size part
    obtain ⟨c, e, t, -, parts, run, ret, same_buf⟩ :=
      calm_run I ⟨0, 0, 0⟩ enough (show (copiedState I.orig).buf = I.orig from rfl) []
    have original := clean _ _ _ _ _ _ rfl run ret
    rw [same_buf] at original
    obtain ⟨round, changes | ⟨slow, -⟩⟩ := parts.refused original start size part
    · exact changes
    · cases slow
  · exact fun tells E => leavesClean_of_tells enough tells

/-- Five bytes, and a target that tells whether one of them is not 0. -/
def watchedInput : Colorable where
  len := 5
  orig := fun _ => 0
  changed := fun _ => 1
  cksum := fun buf => if (List.range 5).all fun i => buf i = 0 then 0 else 1
  positive := by decide
  small := by decide
  differs := fun _ _ => by decide

theorem inputToStateStage_clean_watched :
    watchedInput.len = 5 ∧ ∀ E, LeavesClean 12 watchedInput E := by
  refine ⟨rfl, (inputToStateStage_clean_iff watchedInput 12 (by decide)).mpr
    fun start size part => ?_⟩
  have positive := part.positive (by decide)
  obtain ⟨-, below⟩ := part.inside
  have inside : start < 5 := by
    have : start + size ≤ 0 + 5 := below
    omega
  have replaced : copyPart watchedInput.orig watchedInput.changed start size start = 1 :=
    if_pos ⟨le_rfl, Nat.lt_add_of_pos_right positive⟩
  have told : ¬ ((List.range 5).all fun i =>
      copyPart watchedInput.orig watchedInput.changed start size i = 0) = true := by
    rw [List.all_eq_true]
    intro all
    have zero := of_decide_eq_true (all start (List.mem_range.mpr inside))
    rw [replaced] at zero
    cases zero
  show (if _ then 0 else 1) ≠ 0
  rw [if_neg told]
  exact Nat.one_ne_zero

/-- Five bytes that the target does not look at. -/
def ignoredInput : Colorable := { watchedInput with cksum := fun _ => 0 }

/-- They are replaced, and the stage returns 0 without putting them back. -/
theorem inputToStateStage_leaves_replaced :
    ∃ e t, inputToStateStage 12 ignoredInput (calmEnv ⟨0, 0, 0⟩) (copiedState ignoredInput.orig)
        [] = .ok ((e, t), []) ∧ e.ret = 0 ∧ t.buf 0 = 1 ∧ ignoredInput.orig 0 = 0 := by
  obtain ⟨c, e, t, colored, -, run, ret, same_buf⟩ := calm_run ignoredInput ⟨0, 0, 0⟩
    (show 2 * 5 + 2 ≤ 12 by decide)
    (show (copiedState ignoredInput.orig).buf = ignoredInput.orig from rfl) []
  have first : (colorization 12 ((calmEnv ⟨0, 0, 0⟩).target ignoredInput) ⟨0, 0, 0⟩
      ignoredInput.changed ignoredInput.orig ignoredInput.len).toOption.map (fun c => c.buf 0) =
        some 1 := by decide
  rw [colored] at first
  exact ⟨e, t, run, ret, same_buf ▸ Option.some.inj first, rfl⟩

end GreenFuzz.Redqueen
