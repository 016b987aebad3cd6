import GreenFuzz.Instrumentation.CompareTransformRegions

/-!
# What a program means after the compare-transform pass

The pass gets through on every program in SSA form. The program then means what it meant with the
calls that were replaced read as `Unrolling.cascade`, the first difference of the bytes
(`transformCmps_meaning`). The calls are those that the first loop collects and whose string is long
enough; every call keeps its place in the list of the first loop, whatever it has saved by then.
-/

set_option autoImplicit false

namespace GreenFuzz.Instrumentation

open Library

variable {M : Type}

/-! ## The calls that are replaced -/

section OneCall

variable {C : Constants} {valueMap : ValueMap} {call : Call M} {u : Unrolling}

theorem isCmp_returns (isCmp : call.isCmp = true) : call.type.returns = .int 32 := by
  have twoStrings : call.type.isTwoStrings = true → call.type.returns = .int 32 := fun prototype =>
    (of_decide_eq_true prototype).1
  have sized : call.type.sizeWidth.isSome = true → call.type.returns = .int 32 := by
    intro prototype
    rw [FunctionType.sizeWidth] at prototype
    split at prototype
    · split at prototype
      · assumption
      · exact absurd prototype (by simp)
    · exact absurd prototype (by simp)
  simp only [Call.isCmp, Call.isStrcmp, Call.isMemcmp, Call.isStrncmp, Call.isStrcasecmp,
    Call.isStrncasecmp, Bool.or_eq_true, Bool.and_eq_true] at isCmp
  rcases isCmp with (((⟨_, h⟩ | ⟨_, h⟩) | ⟨_, h⟩) | ⟨_, h⟩) | ⟨_, h⟩
  · exact twoStrings h
  · exact sized h
  · exact sized h
  · exact twoStrings h
  · exact sized h

/-- A function with a size is one of those whose size the first loop looks at. -/
theorem sized_of_isCmp (isCmp : call.isCmp = true) (isSized : call.isSizedcmp = true) :
    (call.isMemcmp || call.isStrncmp || call.isStrncasecmp) = true := by
  by_contra notSized
  simp only [Bool.not_eq_true, Bool.or_eq_false_iff] at notSized
  simp only [Call.isCmp, notSized, Bool.or_false, Bool.or_eq_true] at isCmp
  rcases isCmp with isStrcmp | isStrcasecmp
  · have callee : call.callee = "strcmp" := by
      simp only [Call.isStrcmp, Bool.and_eq_true, decide_eq_true_eq] at isStrcmp
      exact isStrcmp.1
    exact absurd isSized (by simp [Call.isSizedcmp, Call.comparesMemory, callee, memcmpNames,
      sizedNames])
  · have callee : call.callee ∈ strcasecmpNames := by
      simp only [Call.isStrcasecmp, Bool.and_eq_true, decide_eq_true_eq] at isStrcasecmp
      exact isStrcasecmp.1
    simp only [strcasecmpNames, List.mem_cons, List.not_mem_nil, or_false] at callee
    rcases callee with callee | callee | callee | callee | callee <;>
      exact absurd isSized (by simp [Call.isSizedcmp, Call.comparesMemory, callee, memcmpNames,
        sizedNames])

/-- The parts of a reading. -/
theorem unrolling_spec (isUnrolling : unrolling C valueMap call = some u) :
    isShort (knownString C valueMap call).2 = false ∧
      u.dest = call.dest.getD 0 ∧ u.HasStr1 = (knownString C valueMap call).1 ∧
      u.VarStr = call.arg (if u.HasStr1 then 1 else 0) ∧
      (u.sizedValue = none ∨ u.sizedValue = some (call.arg 2, call.type.sizeWidth.getD 0)) ∧
      u.chars = unrolled call (constStr call (knownString C valueMap call).2) := by
  rw [unrolling] at isUnrolling
  split at isUnrolling
  · exact absurd isUnrolling (by simp)
  · rename_i notShort
    obtain rfl := Option.some.inj isUnrolling
    refine ⟨Bool.eq_false_iff.mpr notShort, rfl, rfl, ?_, ?_, rfl⟩
    · dsimp only
      split <;> rfl
    · dsimp only
      split
      · exact .inr rfl
      · exact .inl rfl

/-- The pass compares at least one byte. -/
theorem chars_ne_nil (isCmp : call.isCmp = true) (allowed : sizeAllowed call = true)
    (isUnrolling : unrolling C valueMap call = some u) : u.chars ≠ [] := by
  obtain ⟨notShort, _, _, _, _, chars⟩ := unrolling_spec isUnrolling
  set text := (knownString C valueMap call).2 with text_eq
  have long : text ≠ [] := by
    intro empty
    exact absurd notShort (by simp [isShort, empty])
  have whole : withNul call text ≠ [] := by
    rw [withNul]
    split
    · exact List.append_ne_nil_of_left_ne_nil long _
    · exact long
  have cut : constStr call text ≠ [] := by
    rw [constStr]
    split
    · refine List.ne_nil_of_length_pos ?_
      rw [List.length_take, lt_min_iff]
      exact ⟨Nat.succ_pos _, List.length_pos_of_ne_nil whole⟩
    · exact whole
  rw [chars, unrolled]
  split
  · rename_i constSizedLen isSize
    split at isSize
    · rename_i isSized
      have looked := sized_of_isCmp isCmp isSized
      rw [sizeAllowed, if_pos looked, isSize] at allowed
      have two : 2 ≤ constSizedLen := of_decide_eq_true allowed
      refine List.ne_nil_of_length_pos ?_
      rw [List.length_take, lt_min_iff]
      exact ⟨by omega, List.length_pos_of_ne_nil cut⟩
    · exact absurd isSize (by simp)
  · exact cut

theorem tolower_not_isCmp (isTolower : call.callee = "tolower") : call.isCmp = false := by
  simp [Call.isCmp, Call.isStrcmp, Call.isMemcmp, Call.isStrncmp, Call.isStrcasecmp,
    Call.isStrncasecmp, isTolower, memcmpNames, strcasecmpNames, strncasecmpNames]

/-- Whether a call is replaced, where the first loop has collected calls with these results. -/
def isReplaced (C : Constants) (valueMap : ValueMap) (dests : List (Option ℕ)) (call : Call M) :
    Bool :=
  call.isCmp && sizeAllowed call && decide (call.dest ∈ dests) && (unrolling C valueMap call).isSome

/-- The parts of a call that is replaced. -/
theorem isReplaced_iff {dests : List (Option ℕ)} : isReplaced C valueMap dests call = true ↔
    call.isCmp = true ∧ sizeAllowed call = true ∧ call.dest ∈ dests ∧
      ∃ u, unrolling C valueMap call = some u := by
  rw [isReplaced, Bool.and_eq_true, Bool.and_eq_true, Bool.and_eq_true, decide_eq_true_eq,
    Option.isSome_iff_exists, and_assoc, and_assoc]

/-- The registers that the blocks read are those of the call. -/
theorem reads_of_unrolling (isUnrolling : unrolling C valueMap call = some u) {new : ℕ}
    (old : ∀ number ∈ instructionNumbers (CallInstr.call call), number < new) : u.Reads new := by
  obtain ⟨_, _, _, VarStr, size, _⟩ := unrolling_spec isUnrolling
  have args : ∀ index, Old new (call.arg index) := by
    intro index name used
    rw [Call.arg, List.getD_eq_getElem?_getD] at used
    cases found : call.args[index]? with
    | none =>
        rw [found] at used
        exact absurd used List.not_mem_nil
    | some op =>
        rw [found] at used
        exact old name (List.mem_append_right _
          (List.mem_flatMap.mpr ⟨op, List.mem_of_getElem? found, used⟩))
  refine ⟨VarStr ▸ args _, fun op width sized => ?_⟩
  rcases size with none | some
  · exact absurd (none.symm.trans sized) (by simp)
  · obtain ⟨rfl, _⟩ := Prod.mk.inj (Option.some.inj (some.symm.trans sized))
    exact args 2

theorem getD_args (call : Call M) (index : ℕ) (env : Registers) :
    (call.args.map (Operand.read env)).getD index 0 = (call.arg index).read env := by
  rw [Call.arg, List.getD_eq_getElem?_getD, List.getD_eq_getElem?_getD, List.getElem?_map]
  cases call.args[index]? <;> rfl

end OneCall

section Reading

variable [ByteMemory M]

/-- A call that computes what its blocks compute. -/
def Unrolling.read (u : Unrolling) (call : Call M) : Call M :=
  { call with
    effect := fun args memory =>
      (u.cascade (Unrolling.otherByte memory (args.getD (if u.HasStr1 then 1 else 0) 0))
        (if u.sizedValue.isSome then args.getD 2 0 else 0) 0 u.chars, memory) }

/-- An instruction as the pass takes it. -/
def rereadCall (C : Constants) (valueMap : ValueMap) (dests : List (Option ℕ)) :
    CallInstr M → CallInstr M
  | .plain i => .plain i
  | .call call =>
      match unrolling C valueMap call with
      | some u => if isReplaced C valueMap dests call then .call (u.read call) else .call call
      | none => .call call

section Expansion

variable (C : Constants) (valueMap : ValueMap) (dests : List (Option ℕ))

theorem numbers_rereadCall (i : CallInstr M) :
    instructionNumbers (rereadCall C valueMap dests i) = instructionNumbers i := by
  cases i with
  | plain i => rfl
  | call call =>
      rw [rereadCall]
      split
      · split <;> rfl
      · rfl

/-- Whether an instruction is a call that is replaced. -/
def isWanted : CallInstr M → Bool
  | .plain _ => false
  | .call call => isReplaced C valueMap dests call

/-- The blocks for an instruction. Only calls that are replaced get any. -/
def regionOf (new : ℕ) : CallInstr M → Region (CallInstr M)
  | .plain _ => ⟨[], .ret none, [], new, ⟨0, []⟩⟩
  | .call call =>
      match unrolling C valueMap call with
      | some u => u.region new
      | none => ⟨[], .ret none, [], new, ⟨0, []⟩⟩

/-- What the pass does with its calls. -/
def callExpansion : Expansion (CallInstr M) where
  wanted := isWanted C valueMap dests
  reread := rereadCall C valueMap dests
  region new _ := regionOf C valueMap new
  numbers := numbers_rereadCall C valueMap dests
  kept i other := by
    cases i with
    | plain i => rfl
    | call call =>
        rw [rereadCall]
        split
        · exact if_neg (Bool.eq_false_iff.mp other)
        · rfl
  result i wanted := by
    cases i with
    | plain i => exact absurd wanted (by simp [isWanted])
    | call call =>
        have replaced : isReplaced C valueMap dests call = true := wanted
        obtain ⟨isCmp, _, _, u, isUnrolling⟩ := isReplaced_iff.mp replaced
        obtain ⟨dest, named⟩ := Option.isSome_iff_exists.mp (call.named (isCmp_returns isCmp))
        obtain ⟨_, isDest, _⟩ := unrolling_spec isUnrolling
        refine ⟨dest, named, ?_, fun new _ => ?_⟩
        · rw [rereadCall, isUnrolling]
          dsimp only
          rw [if_pos replaced]
          exact named
        · rw [regionOf, isUnrolling]
          show u.dest = dest
          rw [isDest, named, Option.getD_some]

variable {C valueMap dests}

/-- The blocks of a call compute what it is read as. -/
theorem expands_call (i : CallInstr M) (wanted : isWanted C valueMap dests i = true)
    {new label : ℕ} (old : ∀ number ∈ instructionNumbers i, number < new) :
    (callExpansion C valueMap dests).Expands new label i := by
  cases i with
  | plain i => exact absurd wanted (by simp [isWanted])
  | call call =>
      obtain ⟨isCmp, allowed, _, u, isUnrolling⟩ := isReplaced_iff.mp wanted
      have region : regionOf (M := M) C valueMap new (.call call) = u.region new := by
        rw [regionOf, isUnrolling]
      have read : rereadCall C valueMap dests (.call call) = .call (u.read call) := by
        rw [rereadCall, isUnrolling]
        exact if_pos wanted
      have reads := reads_of_unrolling isUnrolling old
      obtain ⟨_, _, _, VarStr, size, _⟩ := unrolling_spec isUnrolling
      constructor
      case fresh =>
        show (regionOf C valueMap new (.call call)).Fresh new
        rw [region]
        exact Unrolling.fresh_region
      case defines =>
        show ∀ j ∈ (regionOf C valueMap new (.call call)).bodies, _
        rw [region]
        exact fun j inside => (Unrolling.added_region j inside).1
      case others =>
        show ∀ j ∈ (regionOf C valueMap new (.call call)).bodies,
          isWanted C valueMap dests j = false
        rw [region]
        intro j inside
        cases j with
        | plain j => rfl
        | call made =>
            have := tolower_not_isCmp ((Unrolling.added_region _ inside).2 made rfl)
            simp [isWanted, isReplaced, this]
      case computes =>
        show (regionOf C valueMap new (.call call)).Computes new label
          (rereadCall C valueMap dests (.call call))
        rw [region, read]
        refine Unrolling.computes_region reads (chars_ne_nil isCmp allowed isUnrolling)
          fun env memory => ?_
        rw [CallInstr.run_call]
        have sizeRead : u.size env =
            if u.sizedValue.isSome then (call.arg 2).read env else 0 := by
          rw [Unrolling.size]
          rcases size with none | some
          · rw [none]
            rfl
          · rw [some]
            rfl
        rw [sizeRead, VarStr, ← getD_args, ← getD_args]
        rfl

end Expansion

end Reading

/-! ## What the first loop collects -/

section Collecting

variable {C : Constants} {P : Program (CallInstr M)}

/-- One instruction adds its own call at most. -/
theorem collect_calls (s : Collected M) (i : CallInstr M) :
    (collect C s i).calls = s.calls ∨ ∃ call, i = .call call ∧ call.isCmp = true ∧
      sizeAllowed call = true ∧ (collect C s i).calls = s.calls ++ [call] := by
  cases i with
  | plain i => exact .inl rfl
  | call call =>
      rw [collect]
      dsimp only
      by_cases other : (!call.isCmp && !call.isIntMemcpy) = true
      · exact .inl (by rw [if_pos other])
      · rw [if_neg other]
        by_cases copied : (call.isIntMemcpy && (C.stringInfo (call.arg 1)).isSome) = true
        · exact .inl (by rw [if_pos copied])
        · rw [if_neg copied]
          by_cases memcpy : call.isIntMemcpy = true
          · exact .inl (by rw [if_pos memcpy])
          · rw [if_neg memcpy]
            generalize (if ((C.stringInfo (call.arg 0)).isSome ||
              (C.stringInfo (call.arg 1)).isSome) = true then (s.valueMap, true)
              else lookInitializers C call s.valueMap) = looked
            dsimp only
            split
            · rename_i isTaken
              rw [Bool.and_eq_true] at isTaken
              have isCmp : call.isCmp = true := by simpa [memcpy] using other
              exact .inr ⟨call, rfl, isCmp, isTaken.2, rfl⟩
            · exact .inl rfl

theorem foldl_collect (bodies : List (CallInstr M)) (s : Collected M) :
    ∃ added, (bodies.foldl (collect C) s).calls = s.calls ++ added ∧
      (added.map CallInstr.call).Sublist bodies ∧
      ∀ call ∈ added, call.isCmp = true ∧ sizeAllowed call = true := by
  induction bodies generalizing s with
  | nil => exact ⟨[], (List.append_nil _).symm, .slnil, List.forall_mem_nil _⟩
  | cons i rest ih =>
      obtain ⟨added, whole, sublist, all⟩ := ih (collect C s i)
      rw [List.foldl_cons]
      rcases collect_calls (C := C) s i with same | ⟨call, rfl, isCmp, allowed, more⟩
      · exact ⟨added, same ▸ whole, sublist.cons i, all⟩
      · refine ⟨call :: added, ?_, sublist.cons_cons _, ?_⟩
        · rw [whole, more, List.append_assoc, List.singleton_append]
        · exact List.forall_mem_cons.mpr ⟨⟨isCmp, allowed⟩, all⟩

/-- The calls that the first loop collects are calls of the program, in their order. -/
theorem collected_spec : ((collected C P).calls.map CallInstr.call).Sublist (P.flatMap Block.body) ∧
    ∀ call ∈ (collected C P).calls, call.isCmp = true ∧ sizeAllowed call = true := by
  obtain ⟨added, whole, sublist, all⟩ :=
    foldl_collect (C := C) (P.flatMap Block.body) ⟨fun _ => none, []⟩
  rw [List.nil_append] at whole
  rw [collected, whole]
  exact ⟨sublist, all⟩

/-- Every register has one definition at most. -/
def SingleDefinitions (P : Program (CallInstr M)) : Prop :=
  (P.flatMap Block.body).Pairwise fun i j =>
    Instruction.defines i = none ∨ Instruction.defines i ≠ Instruction.defines j

end Collecting

/-! ## The pass -/

section Pass

variable [ByteMemory M] {C : Constants} {P : Program (CallInstr M)}

/-- The results of the calls that the first loop has collected. -/
def replacedDests (C : Constants) (P : Program (CallInstr M)) : List (Option ℕ) :=
  ((collected C P).calls.filter fun call =>
    (unrolling C (collected C P).valueMap call).isSome).map Call.dest

/-- What the pass does with the calls of a program. -/
def passExpansion (C : Constants) (P : Program (CallInstr M)) : Expansion (CallInstr M) :=
  callExpansion C (collected C P).valueMap (replacedDests C P)

theorem single_of_definitions (single : SingleDefinitions P) :
    (passExpansion C P).Single (P.flatMap Block.body) := by
  have named : ∀ i, (passExpansion C P).wanted i = true →
      Instruction.defines i ≠ none := by
    intro i wanted none
    obtain ⟨dest, defines, _⟩ := (passExpansion C P).result i wanted
    exact absurd (none.symm.trans defines) (by simp)
  refine List.Pairwise.imp (fun {i j} apart either same => ?_) single
  rcases apart with none | differs
  · exact either.elim (fun wanted => named i wanted none)
      fun wanted => named j wanted (same.symm.trans none)
  · exact differs same

theorem nodup_of_wanted (C : Constants) {l : List (CallInstr M)} (single : SingleDefinitions P)
    (sublist : l.Sublist (P.flatMap Block.body))
    (wanted : ∀ i ∈ l, (passExpansion C P).wanted i = true) : l.Nodup := by
  refine List.Pairwise.imp_of_mem (fun {i j} inside _ apart same => ?_) (single.sublist sublist)
  obtain ⟨dest, defines, _⟩ := (passExpansion C P).result i (wanted i inside)
  rcases apart with none | differs
  · exact absurd (none.symm.trans defines) (by simp)
  · exact differs (congrArg _ same)

/-- The calls that the second loop works on are the wanted instructions. -/
theorem listed (single : SingleDefinitions P) :
    ((passExpansion C P).worklist P).Perm (((collected C P).calls.filter fun call =>
      (unrolling C (collected C P).valueMap call).isSome).map CallInstr.call) := by
  obtain ⟨sublist, all⟩ := collected_spec (C := C) (P := P)
  set taken := (collected C P).calls.filter fun call =>
    (unrolling C (collected C P).valueMap call).isSome with taken_eq
  have among : (taken.map CallInstr.call).Sublist (P.flatMap Block.body) :=
    (List.filter_sublist.map _).trans sublist
  have wanted : ∀ call ∈ taken, (passExpansion C P).wanted (.call call) = true := by
    intro call member
    obtain ⟨inside, isSome⟩ := List.mem_filter.mp member
    exact isReplaced_iff.mpr ⟨(all call inside).1, (all call inside).2,
      List.mem_map_of_mem member, Option.isSome_iff_exists.mp isSome⟩
  refine (List.perm_ext_iff_of_nodup ?_ ?_).mpr fun i => ⟨fun member => ?_, fun member => ?_⟩
  · exact nodup_of_wanted C single List.filter_sublist fun i member => (List.mem_filter.mp member).2
  · refine nodup_of_wanted C single among fun i member => ?_
    obtain ⟨call, inside, rfl⟩ := List.mem_map.mp member
    exact wanted call inside
  · obtain ⟨inside, isWanted⟩ := List.mem_filter.mp member
    cases i with
    | plain i =>
        exact absurd isWanted (by simp [passExpansion, callExpansion, Instrumentation.isWanted])
    | call call =>
        -- The call that was collected defines the same register, so it is this one.
        obtain ⟨_, _, isDest, _⟩ := isReplaced_iff.mp isWanted
        obtain ⟨made, isTaken, same⟩ := List.mem_map.mp isDest
        have here := among.subset (List.mem_map_of_mem isTaken)
        rw [← (single_of_definitions single).eq inside here isWanted same]
        exact List.mem_map_of_mem isTaken
  · obtain ⟨call, isTaken, rfl⟩ := List.mem_map.mp member
    exact List.mem_filter.mpr ⟨among.subset member, wanted call isTaken⟩

theorem transformCmps_eq : transformCmps C P = (((collected C P).calls.filter fun call =>
    (unrolling C (collected C P).valueMap call).isSome).map CallInstr.call).foldlM
      (passExpansion C P).step P := by
  rw [transformCmps, List.foldlM_map, List.foldlM_filter]
  congr 1
  funext Q call
  rw [replaceCall]
  cases isUnrolling : unrolling C (collected C P).valueMap call with
  | none => rfl
  | some u =>
      have region : ∀ new, regionOf (M := M) C (collected C P).valueMap new (.call call) =
          u.region new := fun new => by rw [regionOf, isUnrolling]
      rw [Option.isSome_some, if_pos rfl, Expansion.step]
      refine congrArg (fun splice => Option.map splice _) (funext fun place => ?_)
      exact congrArg (Q.splice _ _ _) (region _).symm

/-- The compare-transform pass gets through on every program whose labels are distinct and whose
registers have one definition each. What it makes means the program with the calls that it replaced
read as the first difference of the bytes, and none of these calls is left. -/
theorem transformCmps_meaning (labels : (P.map Block.label).Nodup)
    (single : SingleDefinitions P) :
    ∃ P', transformCmps C P = some P' ∧
      P'.meaning = (P.mapBody (rereadCall C (collected C P).valueMap (replacedDests C P))).meaning ∧
      ∀ i ∈ P'.flatMap Block.body,
        isWanted C (collected C P).valueMap (replacedDests C P) i = false := by
  rw [transformCmps_eq]
  exact Expansion.meaning labels (single_of_definitions single) (listed single)
    fun i wanted new label _ old => expands_call i wanted old

/-- A call of `strcmp` whose second string is known, in a memory that is a function. -/
def strcmpTest : Call (ℕ → Byte) where
  dest := some 0
  callee := "strcmp"
  type := ⟨.int 32, [.ptr, .ptr]⟩
  args := [.reg 7, .const 1000]
  effect _ memory := (0, memory)
  named _ := rfl

instance : ByteMemory (ℕ → Byte) where
  byte memory address := memory address

def constantsTest : Constants where
  stringInfo op := if op = .const 1000 then some [97, 98] else none
  initializer _ := none

theorem transformCmps_meaning_test :
    replacedDests constantsTest [⟨0, [], [.call strcmpTest], .ret (some (.reg 0))⟩] = [some 0] ∧
    ∃ P', transformCmps constantsTest [⟨0, [], [.call strcmpTest], .ret (some (.reg 0))⟩] =
        some P' ∧
      P'.meaning = (Program.mapBody (rereadCall constantsTest (fun _ => none) [some 0])
        [⟨0, [], [.call strcmpTest], .ret (some (.reg 0))⟩]).meaning ∧
      ∀ i ∈ P'.flatMap Block.body, isWanted constantsTest (fun _ => none) [some 0] i = false :=
  ⟨rfl, transformCmps_meaning (by decide) (List.pairwise_singleton _ _)⟩

end Pass

end GreenFuzz.Instrumentation
