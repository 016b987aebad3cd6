import GreenFuzz.Common.SuggestedEnvs

/-!
# Where the suggestions stay inside their buffers

The first two loops of `print_suggested_envs` have found something if a known name is similar to the
given one, or a known name without one of its segments. If not, the third loop is reached, and its
first round writes outside if the given name has no underscore. So the function leaves its buffers
exactly in this case (`printSuggestedEnvs_inside_iff`), and if the size of the copy is cut off.
-/

set_option autoImplicit false

namespace GreenFuzz.Common

open Library
open AflFuzz (ord u32 MAX_ALLOC allocAborts)

/-! ## Suggesting -/

/-- The code takes two strings for similar. -/
def Similar (s1 s2 : List Byte) : Prop :=
  stringDistanceLevenshtein s1 s2 < ENV_SIMILARITY_TRESHOLD

/-- Most names are told apart by their lengths. -/
theorem similar_iff (s1 s2 : List Byte) :
    Similar s1 s2 ↔ (s1.length < s2.length + ENV_SIMILARITY_TRESHOLD ∧
      s2.length < s1.length + ENV_SIMILARITY_TRESHOLD) ∧
        stringDistanceLevenshtein s1 s2 < ENV_SIMILARITY_TRESHOLD := by
  obtain ⟨below, above⟩ := length_le_distance s1 s2
  refine (and_iff_right_of_imp fun near => ?_).symm
  rw [Similar] at near
  constructor <;> omega

instance (s1 s2 : List Byte) : Decidable (Similar s1 s2) :=
  decidable_of_iff' _ (similar_iff s1 s2)

section Suggesting

variable {names : List (List Byte)} {name envName s1 s2 : List Byte} {n j : ℕ} {s t : Suggesting}

/-- `seen` has a byte for each name, and nothing was seen as long as nothing was found. -/
structure Marked (n : ℕ) (s : Suggesting) : Prop where
  length : s.seen.length = n
  unseen : s.found = false → ∀ b ∈ s.seen, b = 0

/-- Nothing was seen before the first loop. -/
theorem marked_unseen (n : ℕ) : Marked n { seen := List.replicate n 0 } :=
  ⟨List.length_replicate, fun _ _ => List.eq_of_mem_replicate⟩

/-- What a comparison does. -/
theorem suggestIf_eq (inside : j < s.seen.length) :
    suggestIf j name s1 s2 s = .ok (if Similar s1 s2 ∧ s.seen[j] = 0 then
      ⟨s.seen.set j 1, true, s.printed ++ [name]⟩ else s) := by
  have read : load s.seen j = .ok s.seen[j] := load_of_drop (List.drop_eq_getElem_cons inside)
  rw [suggestIf, read, store_inside inside]
  by_cases near : stringDistanceLevenshtein s1 s2 < ENV_SIMILARITY_TRESHOLD
  · rw [if_pos near]
    show (if _ then _ else _ : Except Stop Suggesting) = _
    by_cases unseen : s.seen[j] = 0
    · rw [if_pos unseen, if_pos ⟨near, unseen⟩]
      rfl
    · rw [if_neg unseen, if_neg fun both => unseen both.2]
      rfl
  · rw [if_neg near, if_neg fun both => near both.1]
    rfl

theorem suggestIf_yields (marked : Marked n s) (inside : j < n) :
    Yields (suggestIf j name s1 s2 s) fun t =>
      Marked n t ∧ (t.found = true ↔ s.found = true ∨ Similar s1 s2) := by
  obtain ⟨rfl, unseen⟩ := marked
  refine ⟨_, suggestIf_eq inside, ?_⟩
  split
  · rename_i both
    exact ⟨⟨List.length_set, nofun⟩, iff_of_true rfl (.inr both.1)⟩
  · rename_i kept
    refine ⟨⟨rfl, unseen⟩, .inl, fun either => either.elim id fun similar => ?_⟩
    by_contra unfound
    exact kept ⟨similar, unseen (by simpa using unfound) _ (List.getElem_mem inside)⟩

/-- A comparison keeps the length of `seen`. -/
theorem suggestIf_length (inside : j < s.seen.length) :
    Yields (suggestIf j name s1 s2 s) fun t => t.seen.length = s.seen.length := by
  refine ⟨_, suggestIf_eq inside, ?_⟩
  split
  · exact List.length_set
  · rfl

/-- A loop over the table finds something if one of its rounds does. -/
theorem table_yields {H : List Byte → Prop}
    {round : Suggesting → List Byte × ℕ → Except Stop Suggesting}
    (rounds : ∀ name j s, names[j]? = some name → Marked n s →
      Yields (round s (name, j)) fun t => Marked n t ∧ (t.found = true ↔ s.found = true ∨ H name))
    (marked : Marked n s) (start : s.found = false) :
    Yields (names.zipIdx.foldlM round s) fun t =>
      Marked n t ∧ (t.found = true ↔ ∃ name ∈ names, H name) := by
  have steps : Yields (names.zipIdx.foldlM round s) fun t =>
      Marked n t ∧ (t.found = true ↔ ∃ item ∈ names.zipIdx, H item.1) := by
    refine foldlM_succeeds (P := fun (done : List (List Byte × ℕ)) (s : Suggesting) =>
      Marked n s ∧ (s.found = true ↔ ∃ item ∈ done, H item.1)) ⟨marked, by simp [start]⟩ ?_
    rintro done ⟨name, j⟩ member s ⟨marked, found⟩
    obtain ⟨t, ran, marked', found'⟩ :=
      rounds name j s (List.mem_zipIdx_iff_getElem?.mp member) marked
    refine ⟨t, ran, marked', found'.trans ?_⟩
    rw [found]
    simp [or_and_right, exists_or]
  obtain ⟨t, ran, marked', found⟩ := steps
  refine ⟨t, ran, marked', found.trans ⟨?_, ?_⟩⟩
  · rintro ⟨⟨name, j⟩, member, hit⟩
    exact ⟨name, List.mem_of_getElem? (List.mem_zipIdx_iff_getElem?.mp member), hit⟩
  · rintro ⟨name, member, hit⟩
    obtain ⟨j, there⟩ := List.mem_iff_getElem?.mp member
    exact ⟨(name, j), List.mem_zipIdx_iff_getElem?.mpr there, hit⟩

end Suggesting

/-! ## The loops -/

section Loops

variable {names : List (List Byte)} {name env : List Byte} {n j : ℕ} {s : Suggesting}

theorem NameFits.aflEnv_eq (fits : NameFits name) : aflEnv name = name.drop 4 ++ [0] := by
  have long : 4 ≤ name.length := fits.1.length_le
  rw [aflEnv, List.drop_append_of_le_length long]

theorem NameFits.noNull_drop (fits : NameFits name) : 0 ∉ name.drop 4 :=
  fun member => fits.2.2 (List.mem_of_mem_drop member)

/-- The first loop finds the names that are similar. -/
theorem suggestWhole_yields (fits : TableFits names) (noNull : 0 ∉ env)
    (marked : Marked (names.length + 1) s) (start : s.found = false) :
    Yields (suggestWhole names (env ++ [0]) s) fun t =>
      Marked (names.length + 1) t ∧
        (t.found = true ↔ ∃ name ∈ names, Similar (name.drop 4) env) := by
  refine table_yields (H := fun name => Similar (name.drop 4) env)
    (fun name j s there marked => ?_) marked start
  have nameFits := fits.names name (List.mem_of_getElem? there)
  obtain ⟨inside, -⟩ := List.getElem?_eq_some_iff.mp there
  dsimp only
  rw [nameFits.aflEnv_eq, readString_string nameFits.noNull_drop, readString_string noNull]
  exact suggestIf_yields marked (Nat.lt_succ_of_lt inside)

/-- **The invariant of the second loop** over the segments of a name. -/
structure Visited (n : ℕ) (text env : List Byte) (before : Prop) (s : Reducing) : Prop where
  length : s.reduced.length = text.length + 1
  fresh : s.start = 0 → s.reduced = List.replicate (text.length + 1) 0
  starts : s.start < text.length → s.start ∈ segmentStarts text
  marked : Marked n s.suggesting
  found : s.suggesting.found = true ↔ before ∨
    ∃ i ∈ segmentStarts text, i < s.start ∧ Similar (withoutSegment text i) env

theorem suggestReducedVariable_yields {before : Prop} {s : Reducing} (fits : NameFits name)
    (noNull : 0 ∉ env) (inside : j < n) (visited : Visited n (name.drop 4) env before s)
    (goesOn : s.start < (name.drop 4).length) :
    Yields (suggestReducedVariable (env ++ [0]) j name (name.drop 4).length s) fun t =>
      Visited n (name.drop 4) env before t ∧
        (name.drop 4).length + 1 - t.start < (name.drop 4).length + 1 - s.start := by
  obtain ⟨length, fresh, starts, marked, found⟩ := visited
  have noNull' := fits.noNull_drop
  have small : (name.drop 4).length < MAX_ALLOC := by
    have shorter := fits.2.1
    rw [List.length_drop]
    omega
  rw [suggestReducedVariable, fits.aflEnv_eq]
  generalize name.drop 4 = text at *
  have ends := segmentEnds goesOn.le
  refine (reduceVariable_yields noNull' small length goesOn fresh).bind ?_
  rintro ⟨buf, stop⟩ ⟨stop_eq, reduces⟩
  dsimp only at stop_eq reduces ⊢
  rw [← stop_eq] at ends
  rw [reduces.string, readString_string noNull]
  refine (suggestIf_yields marked inside).bind fun t ⟨marked', found'⟩ => ?_
  have later := ends.after
  refine Yields.pure ⟨⟨reduces.length, fun zero => absurd zero (by dsimp only; omega),
    fun within => ?_, marked', ?_⟩, by dsimp only; omega⟩
  · exact mem_segmentStarts.mpr ⟨within, .inr (ends.closed (Nat.le_of_lt within))⟩
  · rw [found', found, or_assoc]
    refine or_congr_right ⟨?_, ?_⟩
    · rintro (⟨i, member, earlier, similar⟩ | similar)
      · exact ⟨i, member, earlier.trans later, similar⟩
      · exact ⟨s.start, starts goesOn, later, similar⟩
    · rintro ⟨i, member, earlier, similar⟩
      rcases Nat.lt_trichotomy i s.start with lower | rfl | higher
      · exact .inl ⟨i, member, lower, similar⟩
      · exact .inr similar
      · exact absurd (segmentStarts_between ends member higher) (Nat.not_le.mpr earlier)

/-- The second loop finds the names that are similar without one of their segments. -/
theorem suggestReducedVariables_yields (fits : TableFits names) (noNull : 0 ∉ env)
    (marked : Marked (names.length + 1) s) (start : s.found = false) :
    Yields (suggestReducedVariables names (env ++ [0]) s) fun t =>
      Marked (names.length + 1) t ∧ (t.found = true ↔ ∃ name ∈ names,
        ∃ i ∈ segmentStarts (name.drop 4), Similar (withoutSegment (name.drop 4) i) env) := by
  refine table_yields (H := fun name => ∃ i ∈ segmentStarts (name.drop 4),
    Similar (withoutSegment (name.drop 4) i) env) (fun name j s there marked => ?_) marked start
  have nameFits := fits.names name (List.mem_of_getElem? there)
  obtain ⟨inside, -⟩ := List.getElem?_eq_some_iff.mp there
  have allocated : ckAlloc ((name.drop 4).length + 1) =
      .ok (List.replicate ((name.drop 4).length + 1) 0) := ckAlloc_fits (by
    have shorter := nameFits.2.1
    rw [List.length_drop]
    omega)
  dsimp only
  rw [nameFits.aflEnv_eq, strlen_string nameFits.noNull_drop]
  show Yields (ckAlloc _ >>= _) _
  rw [allocated]
  show Yields (whileOk _ _ _ _ _ >>= _) _
  have begins : Visited (names.length + 1) (name.drop 4) env (s.found = true)
      { reduced := List.replicate ((name.drop 4).length + 1) 0, suggesting := s } := by
    refine ⟨List.length_replicate, fun _ => rfl, fun positive => ?_, marked, ?_⟩
    · exact mem_segmentStarts.mpr ⟨positive, .inl rfl⟩
    · simp
  refine (Yields.whileOk (m := fun t : Reducing => (name.drop 4).length + 1 - t.start)
    (fun t visited goesOn => suggestReducedVariable_yields nameFits noNull
      (Nat.lt_succ_of_lt inside) visited goesOn) begins (Nat.sub_le _ _)).bind ?_
  rintro t ⟨visited, stops⟩
  refine Yields.pure ⟨visited.marked, visited.found.trans (or_congr_right ?_)⟩
  refine exists_congr fun i => and_congr_right fun member => and_iff_right ?_
  have within := (mem_segmentStarts.mp member).1
  omega

/-- The table is gone through once more for each segment of the name. -/
theorem suggestAgain_yields (fits : TableFits names) {reduced text : List Byte}
    (string : readString reduced = .ok text) (length : s.seen.length = names.length + 1) :
    Yields (suggestAgain names reduced s) fun t => t.seen.length = names.length + 1 := by
  refine foldlM_succeeds (P := fun _ (s : Suggesting) => s.seen.length = names.length + 1) length ?_
  rintro - ⟨name, j⟩ member s length
  have there := List.mem_zipIdx_iff_getElem?.mp member
  have nameFits := fits.names name (List.mem_of_getElem? there)
  obtain ⟨inside, -⟩ := List.getElem?_eq_some_iff.mp there
  dsimp only at inside ⊢
  rw [nameFits.aflEnv_eq, readString_string nameFits.noNull_drop, string]
  refine (suggestIf_length (by omega)).bind fun t kept => ?_
  exact Yields.pure (kept.trans length)

/-- **The invariant of the third loop**, over a name that has an underscore. -/
structure Shortened (n : ℕ) (text : List Byte) (s : Reducing) : Prop where
  length : s.reduced.length = text.length + 1
  seen : s.suggesting.seen.length = n

theorem segmentStop_le {text : List Byte} (member : ord '_' ∈ text) :
    segmentStop text 0 ≤ text.length := by
  obtain ⟨i, inside, mark⟩ := List.getElem_of_mem member
  by_contra beyond
  exact (segmentEnds (Nat.zero_le _)).free i (Nat.zero_le i) (by omega)
    (List.getElem?_eq_some_iff.mpr ⟨inside, mark⟩)

theorem suggestReducedName_yields (fits : TableFits names) (noNull : 0 ∉ env)
    (small : env.length < MAX_ALLOC) (member : ord '_' ∈ env) {s : Reducing}
    (shortened : Shortened (names.length + 1) env s) (goesOn : s.start < env.length) :
    Yields (suggestReducedName names (env ++ [0]) env.length s) fun t =>
      Shortened (names.length + 1) env t ∧ env.length + 1 - t.start < env.length + 1 - s.start := by
  have ends := segmentEnds goesOn.le
  have later := ends.after
  have guard : segmentStop env s.start ≤ env.length + s.start := by
    have within := ends.within
    rcases Nat.eq_zero_or_pos s.start with first | positive
    · rw [first]
      exact segmentStop_le member
    · omega
  refine (reduceName_yields noNull small shortened.length goesOn guard).bind ?_
  rintro ⟨buf, stop⟩ ⟨stop_eq, reduces⟩
  dsimp only at stop_eq reduces ⊢
  refine (suggestAgain_yields fits reduces.string shortened.seen).bind fun t seen => ?_
  exact Yields.pure ⟨⟨reduces.length, seen⟩, by dsimp only; omega⟩

/-- The third loop stays inside its buffers if the name has an underscore. -/
theorem suggestReducedNames_yields (fits : TableFits names) (noNull : 0 ∉ env)
    (small : env.length < MAX_ALLOC) (may : env = [] ∨ ord '_' ∈ env)
    (seen : s.seen.length = names.length + 1) :
    Yields (suggestReducedNames names (env ++ [0]) env.length s) fun _ => True := by
  rw [suggestReducedNames, ckAlloc_fits (n := env.length + 1) small]
  show Yields (whileOk _ _ _ _ _ >>= _) _
  rcases may with rfl | member
  · exact ⟨s, rfl, trivial⟩
  · refine (Yields.whileOk (m := fun t : Reducing => env.length + 1 - t.start)
      (fun t shortened goesOn =>
        suggestReducedName_yields fits noNull small member shortened goesOn)
      ⟨List.length_replicate, seen⟩ (Nat.sub_le _ _)).bind fun t _ => ?_
    exact Yields.pure trivial

/-- The first round of the third loop writes outside if the name has no underscore. -/
theorem suggestReducedNames_outside (noNull : 0 ∉ env) (small : env.length < MAX_ALLOC)
    (nonempty : env ≠ []) (whole : ord '_' ∉ env) :
    suggestReducedNames names (env ++ [0]) env.length s = .error .outside := by
  have positive := List.length_pos_iff.mpr nonempty
  have loop : whileOk (fun t : Reducing => t.start < env.length)
      (suggestReducedName names (env ++ [0]) env.length) .endless (env.length + 1)
      { reduced := List.replicate (env.length + 1) 0, suggesting := s } = .error .outside := by
    rw [whileOk_of_guard (by exact positive), suggestReducedName,
      reduceName_outside noNull small List.length_replicate positive whole]
    rfl
  rw [suggestReducedNames, ckAlloc_fits (n := env.length + 1) small]
  show whileOk _ _ _ _ _ >>= _ = _
  rw [loop]
  rfl

end Loops

/-! ## The function -/

/-- The name of a variable after its prefix, up to the value. -/
def envNameOf (env : CString) : List Byte := (env.bytes.takeWhile (· ≠ ord '=')).drop 4

/-- A known name is similar, or a known name without one of its segments. -/
def Suggested (names : List (List Byte)) (envName : List Byte) : Prop :=
  ∃ name ∈ names, Similar (name.drop 4) envName ∨
    ∃ start ∈ segmentStarts (name.drop 4), Similar (withoutSegment (name.drop 4) start) envName

instance (names : List (List Byte)) (envName : List Byte) : Decidable (Suggested names envName) :=
  inferInstanceAs (Decidable (∃ name ∈ names, _ ∨ ∃ start ∈ _, _))

/-- The name of the variable that is given stands behind the prefix. -/
theorem copied_name {env : CString} (prefixed : literal "AFL_" <+: env.bytes) :
    ∃ rest, strcspn env.buffer (ord '=') = .ok (4 + (envNameOf env).length) ∧
      env.buffer.drop 4 = envNameOf env ++ rest ∧ 0 ∉ envNameOf env := by
  obtain ⟨tail, bytes⟩ := prefixed
  have noNull : 0 ∉ env.bytes := env.noNull
  have name : envNameOf env = tail.takeWhile (· ≠ ord '=') := by
    rw [envNameOf, ← bytes, List.takeWhile_append_of_pos (by decide)]
    rfl
  rw [CString.buffer, name]
  rw [← bytes] at noNull ⊢
  have noNull' : 0 ∉ tail := fun member => noNull (List.mem_append_right _ member)
  rcases all_or_first (· ≠ ord '=') tail with all | ⟨front, a, back, rfl, passed, fails⟩
  · rw [List.takeWhile_eq_self_iff.mpr all]
    have absent : ord '=' ∉ tail := fun member => by simpa using all _ member
    refine ⟨[0], ?_, rfl, noNull'⟩
    exact (strcspn_append noNull (List.not_mem_append (by decide) absent) (.inl rfl)).trans
      (congrArg Except.ok List.length_append)
  · rw [takeWhile_append_cons passed fails]
    have free : 0 ∉ front := fun member => noNull' (List.mem_append_left _ member)
    have absent : ord '=' ∉ front := fun member => by simpa using passed _ member
    refine ⟨a :: back ++ [0], ?_, by rw [List.append_assoc, List.append_assoc]; rfl, free⟩
    rw [← List.append_assoc, List.append_assoc]
    exact (strcspn_append (List.not_mem_append (by decide) free)
      (List.not_mem_append (by decide) absent) (.inr (by simpa using fails))).trans
      (congrArg Except.ok List.length_append)

/-- How the function begins. -/
theorem printSuggestedEnvs_start {names : List (List Byte)} (fits : TableFits names) {env : CString}
    (prefixed : literal "AFL_" <+: env.bytes) (small : (envNameOf env).length < MAX_ALLOC) :
    printSuggestedEnvs names env = (do
      let s ← suggestWhole names (envNameOf env ++ [0])
        { seen := List.replicate (names.length + 1) 0 }
      if s.found then return s.printed
      let s ← suggestReducedVariables names (envNameOf env ++ [0]) s
      if s.found then return s.printed
      let s ← suggestReducedNames names (envNameOf env ++ [0]) (envNameOf env).length s
      return s.printed) := by
  obtain ⟨rest, counted, stands, -⟩ := copied_name prefixed
  have copied : memcpy (List.replicate ((envNameOf env).length + 1) 0) 0 (env.buffer.drop 4)
      (envNameOf env).length = .ok (envNameOf env ++ [0]) := by
    rw [stands, memcpy_inside (by rw [List.length_replicate]; omega)
      (by rw [List.length_append]; omega), List.take_left, overwrite, List.take_zero,
      List.nil_append, Nat.zero_add, List.drop_replicate, Nat.add_sub_cancel_left]
    rfl
  rw [printSuggestedEnvs, counted]
  show ckAlloc (4 + _ - 4 + 1) >>= _ = _
  rw [Nat.add_sub_cancel_left, ckAlloc_fits (n := (envNameOf env).length + 1) small]
  show memcpy _ _ _ _ >>= _ = _
  rw [copied]
  show ckAlloc _ >>= _ = _
  rw [ckAlloc_fits (n := names.length + 1) fits.length]
  rfl

/-- The condition under which the buffers are not left: the third loop is not reached, or it has a
name that it can reduce. -/
def Reducible (names : List (List Byte)) (envName : List Byte) : Prop :=
  envName = [] ∨ ord '_' ∈ envName ∨ Suggested names envName

instance (names : List (List Byte)) (envName : List Byte) : Decidable (Reducible names envName) :=
  inferInstanceAs (Decidable (_ ∨ _ ∨ _))

section Inside

variable {names : List (List Byte)} {env : CString}

/-- The buffers are not left if the third loop is not reached or can reduce the name. -/
theorem printSuggestedEnvs_yields (fits : TableFits names) (prefixed : literal "AFL_" <+: env.bytes)
    (small : (envNameOf env).length < MAX_ALLOC) (reducible : Reducible names (envNameOf env)) :
    Yields (printSuggestedEnvs names env) fun _ => True := by
  obtain ⟨-, -, -, noNull⟩ := copied_name prefixed
  rw [printSuggestedEnvs_start fits prefixed small]
  refine (suggestWhole_yields fits noNull (marked_unseen _) rfl).bind ?_
  rintro s ⟨marked, whole⟩
  by_cases found : s.found = true
  · rw [if_pos found]
    exact Yields.pure trivial
  · rw [if_neg found]
    refine (suggestReducedVariables_yields fits noNull marked (by simpa using found)).bind ?_
    rintro t ⟨marked', parts⟩
    by_cases found' : t.found = true
    · rw [if_pos found']
      exact Yields.pure trivial
    · rw [if_neg found']
      have may : envNameOf env = [] ∨ ord '_' ∈ envNameOf env := by
        rcases reducible with empty | mark | ⟨name, member, similar | part⟩
        · exact .inl empty
        · exact .inr mark
        · exact absurd (whole.mpr ⟨name, member, similar⟩) found
        · exact absurd (parts.mpr ⟨name, member, part⟩) found'
      refine (suggestReducedNames_yields fits noNull small may marked'.length).bind fun _ _ => ?_
      exact Yields.pure trivial

/-- The third loop is reached with a name that it cannot reduce. -/
theorem printSuggestedEnvs_outside (fits : TableFits names)
    (prefixed : literal "AFL_" <+: env.bytes) (small : (envNameOf env).length < MAX_ALLOC)
    (irreducible : ¬ Reducible names (envNameOf env)) :
    printSuggestedEnvs names env = .error .outside := by
  obtain ⟨-, -, -, noNull⟩ := copied_name prefixed
  obtain ⟨nonempty, whole, unlike⟩ :
      envNameOf env ≠ [] ∧ ord '_' ∉ envNameOf env ∧ ¬ Suggested names (envNameOf env) := by
    simpa [Reducible] using irreducible
  obtain ⟨s, ran, marked, found⟩ := suggestWhole_yields fits noNull (marked_unseen _) rfl
  have unfound : s.found = false := by
    rw [← Bool.not_eq_true, found]
    rintro ⟨name, member, similar⟩
    exact unlike ⟨name, member, .inl similar⟩
  obtain ⟨t, ran', -, found'⟩ := suggestReducedVariables_yields fits noNull marked unfound
  have unfound' : t.found = false := by
    rw [← Bool.not_eq_true, found']
    rintro ⟨name, member, part⟩
    exact unlike ⟨name, member, .inr part⟩
  rw [printSuggestedEnvs_start fits prefixed small, ran]
  show (if s.found then _ else _ : Except Stop _) = _
  rw [if_neg (by rw [unfound]; exact Bool.false_ne_true), ran']
  show (if t.found then _ else _ : Except Stop _) = _
  rw [if_neg (by rw [unfound']; exact Bool.false_ne_true),
    suggestReducedNames_outside noNull small nonempty whole]
  rfl

/-- A name that is too long is refused, or its copy leaves a buffer whose size was cut off. -/
theorem printSuggestedEnvs_long (prefixed : literal "AFL_" <+: env.bytes)
    (large : MAX_ALLOC ≤ (envNameOf env).length) :
    printSuggestedEnvs names env =
      .error (if allocAborts ((envNameOf env).length + 1) then .aborted else .outside) := by
  obtain ⟨-, counted, -, -⟩ := copied_name prefixed
  rw [printSuggestedEnvs, counted]
  show ckAlloc (4 + _ - 4 + 1) >>= _ = _
  rw [Nat.add_sub_cancel_left, ckAlloc]
  by_cases aborts : allocAborts ((envNameOf env).length + 1) = true
  · rw [if_pos aborts, if_pos aborts]
    rfl
  · rw [if_neg aborts, if_neg aborts]
    show memcpy _ _ _ _ >>= _ = _
    rw [memcpy_outside]
    · rfl
    · rw [allocAborts, decide_eq_true_eq] at aborts
      rw [List.length_replicate, Nat.zero_add]
      unfold u32 MAX_ALLOC at *
      omega

/-- An access outside a buffer is no abortion. -/
theorem not_meets_outside {α : Type} {post : α → Prop} :
    ¬ Meets (· = Stop.aborted) (.error .outside) post := by
  intro meets
  have same : Stop.outside = Stop.aborted := meets
  cases same

end Inside

/-- **The function leaves its buffers** exactly if its third loop is reached with a name that has no
underscore, or if the size of the copy is cut off. Apart from this it returns, or the allocator
refuses a name that is too long. -/
theorem printSuggestedEnvs_inside_iff (switchable : Bool) (env : CString)
    (prefixed : literal "AFL_" <+: env.bytes) :
    Meets (· = .aborted) (printSuggestedEnvs (aflEnvironmentVariables switchable) env)
        (fun _ => True) ↔
      allocAborts ((envNameOf env).length + 1) = true ∨ (envNameOf env).length < MAX_ALLOC ∧
        Reducible (aflEnvironmentVariables switchable) (envNameOf env) := by
  have fits := tableFits_aflEnvironmentVariables switchable
  rcases Nat.lt_or_ge (envNameOf env).length MAX_ALLOC with small | large
  · have allocated : ¬ allocAborts ((envNameOf env).length + 1) = true := by
      have same : u32 ((envNameOf env).length + 1) = (envNameOf env).length + 1 :=
        Nat.mod_eq_of_lt (by unfold MAX_ALLOC at small; omega)
      rw [allocAborts, same, decide_eq_true_eq]
      exact Nat.not_lt.mpr small
    rw [or_iff_right allocated, and_iff_right small]
    by_cases reducible : Reducible (aflEnvironmentVariables switchable) (envNameOf env)
    · obtain ⟨printed, ran, -⟩ := printSuggestedEnvs_yields fits prefixed small reducible
      rw [ran]
      exact iff_of_true trivial reducible
    · rw [printSuggestedEnvs_outside fits prefixed small reducible]
      exact iff_of_false not_meets_outside reducible
  · rw [printSuggestedEnvs_long prefixed large]
    by_cases aborts : allocAborts ((envNameOf env).length + 1) = true
    · rw [if_pos aborts]
      exact iff_of_true rfl (.inl aborts)
    · rw [if_neg aborts]
      exact iff_of_false not_meets_outside fun either =>
        either.elim aborts fun both => both.1.not_ge large

/-- A name with an underscore stays inside. -/
theorem printSuggestedEnvs_inside_split :
    literal "AFL_" <+: literal "AFL_MEM_ORY=1" ∧ Meets (· = .aborted)
      (printSuggestedEnvs (aflEnvironmentVariables false) ⟨literal "AFL_MEM_ORY=1", by decide⟩)
      fun _ => True := by
  have prefixed : literal "AFL_" <+: literal "AFL_MEM_ORY=1" := by decide
  refine ⟨prefixed, ?_⟩
  rw [printSuggestedEnvs_inside_iff false _ prefixed]
  refine .inr ⟨?_, .inr (.inl ?_)⟩
  · decide
  · decide

/-- No name of the table is similar to `MEMORY`, also without a segment. -/
theorem memory_irreducible : ¬ Reducible (aflEnvironmentVariables false) (literal "MEMORY") := by
  decide +kernel

theorem memory_name : envNameOf ⟨literal "AFL_MEMORY=1", by decide⟩ = literal "MEMORY" := by decide

/-- The variable `AFL_MEMORY` makes the function write outside. -/
theorem printSuggestedEnvs_outside_memory :
    literal "AFL_" <+: literal "AFL_MEMORY=1" ∧
      printSuggestedEnvs (aflEnvironmentVariables false) ⟨literal "AFL_MEMORY=1", by decide⟩ =
        .error .outside := by
  have prefixed : literal "AFL_" <+: literal "AFL_MEMORY=1" := by decide
  refine ⟨prefixed, printSuggestedEnvs_outside (tableFits_aflEnvironmentVariables false) prefixed
    ?_ ?_⟩
  · rw [memory_name]
    decide
  · rw [memory_name]
    exact memory_irreducible

end GreenFuzz.Common
