import GreenFuzz.AflFuzz.AutoExtras

/-!
# Built-in values in the auto dictionary

`maybe_add_auto` passes over the tokens that are interesting values anyway. Tokens of four bytes
are compared as `u32`. Tokens of two bytes are compared as a `u16` with a `s16`, so a negative
value is never found as it is, only with its bytes swapped. All negative values but one are
found in spite of this, as the swapped bytes of another value or as a run of one byte. The
one that is not is -128 (`passed_iff`).
-/

set_option autoImplicit false

namespace GreenFuzz.AflFuzz

open Library

/-! ## The filter -/

/-- The word that a token of two bytes is. -/
def wordOf (token : Token) : BitVec 16 := loadAt 2 (fun k => token.getD k 0) 0

/-- The word that a token of four bytes is. -/
def dwordOf (token : Token) : BitVec 32 := loadAt 4 (fun k => token.getD k 0) 0

/-- A token is no interesting value, in either byte order. -/
structure BuiltinFree (token : Token) : Prop where
  two : token.length = 2 → ∀ value ∈ interesting16,
    wordOf token ≠ value ∧ wordOf token ≠ swap16 value
  four : token.length = 4 → ∀ value ∈ interesting32,
    dwordOf token ≠ value ∧ dwordOf token ≠ swap32 value

/-- The bytes of -128 as a word. -/
def minus128 : Token := [0x80, 0xff]

theorem minus128_builtin : ¬ BuiltinFree minus128 := fun free =>
  (free.two rfl 0xff80 (by decide)).1 (by decide)

/-- Why a value of the table is found: it is not negative, or another value has its bytes
swapped. For -128 there is no reason. -/
theorem interesting16_found : ∀ value ∈ interesting16, (value.toNat : ℤ) = value.toInt ∨
    interesting16.any (fun other => value = swap16 other) = true ∨ value = 0xff80 := by
  have table : (interesting16.all fun value => decide ((value.toNat : ℤ) = value.toInt ∨
      interesting16.any (fun other => value = swap16 other) = true ∨ value = 0xff80)) = true := by
    decide
  exact fun value listed => of_decide_eq_true (List.all_eq_true.mp table value listed)

variable {mem : Token}

theorem eq_minus128 (two : mem.length = 2) (word : wordOf mem = 0xff80) : mem = minus128 := by
  obtain ⟨a, b, rfl⟩ := List.length_eq_two.mp two
  have low : byteOf (wordOf [a, b]) 0 = a := byteOf_loadAt _ 0 (by decide)
  have high : byteOf (wordOf [a, b]) 1 = b := byteOf_loadAt _ 0 (by decide)
  rw [word] at low high
  rw [← low, ← high]
  decide

/-- **What passes the filter is no built-in value, unless it is -128.** -/
theorem builtinFree_of_passes (passes : ¬ isInteresting mem = true) (other : mem ≠ minus128) :
    BuiltinFree mem := by
  simp only [isInteresting, Bool.or_eq_true, Bool.and_eq_true, decide_eq_true_eq, List.any_eq_true,
    not_or, not_and, not_exists] at passes
  obtain ⟨words, dwords⟩ := passes
  refine ⟨fun two value listed => ⟨fun same => ?_, fun same => ?_⟩, fun four value listed => ?_⟩
  · rcases interesting16_found value listed with positive | twins | special
    · exact (words two value listed).1 (by rw [← positive, ← same]; rfl)
    · obtain ⟨twin, twin_listed, swapped⟩ := List.any_eq_true.mp twins
      exact (words two twin twin_listed).2 (same.trans (of_decide_eq_true swapped))
    · exact other (eq_minus128 two (same.trans special))
  · exact (words two value listed).2 same
  · exact dwords four value listed

/-! ## Calls -/

variable {Q : Qsort} {extras : List Token} {s t : AutoState} {draws rest : Draws}

/-- Tokens of the auto dictionary that are no built-in values. -/
def AllFree (s : AutoState) : Prop := ∀ token ∈ tokensIn s.aExtras, BuiltinFree token

/-- What is asked of a call: it offers another word than -128, or the user dictionary has it. -/
def NotMissed (extras : List Token) (mem : Token) : Prop :=
  mem ≠ minus128 ∨ matchesExtras extras mem = true

/-- What a call inserts is the token it was offered. -/
theorem Stores.mem_or_eq {aExtras after : List AutoExtra} (stores : Stores mem aExtras after) :
    ∀ token ∈ tokensIn after, token ∈ tokensIn aExtras ∨ token = mem := by
  intro token member
  cases stores with
  | counted hit =>
      rw [tokensIn_hitAuto hit] at member
      exact .inl member
  | appended missed room =>
      rw [tokensIn, List.map_append, List.mem_append] at member
      exact member.imp id List.mem_singleton.mp
  | replaced i missed inside =>
      rw [tokensIn, List.map_set] at member
      exact List.mem_or_eq_of_mem_set member

/-- The token is there when the entries are sorted, or one that is equal ignoring case. -/
theorem Stores.mem_or_hit {aExtras after : List AutoExtra} (stores : Stores mem aExtras after) :
    mem ∈ tokensIn after ∨ ∃ counted, hitAuto mem aExtras = some counted := by
  cases stores with
  | counted hit => exact .inr ⟨_, hit⟩
  | appended missed room =>
      left
      rw [tokensIn, List.map_append, List.mem_append]
      exact .inr List.mem_cons_self
  | replaced i missed inside =>
      left
      rw [tokensIn, List.map_set]
      exact List.mem_set (by simpa using inside) mem

/-- A token is counted only if there is one that is equal ignoring case. -/
theorem exists_of_hitAuto {aExtras after : List AutoExtra}
    (hit : hitAuto mem aExtras = some after) :
    ∃ token ∈ tokensIn aExtras, EqualNocase token mem := by
  induction aExtras generalizing after with
  | nil => cases hit
  | cons a aExtras ih =>
      rw [hitAuto] at hit
      split at hit
      · rename_i equal
        rw [Bool.and_eq_true, decide_eq_true_eq, Bool.not_eq_true'] at equal
        exact ⟨a.data, List.mem_cons_self, (memcmpNocase_eq_false equal.1).mp equal.2⟩
      · obtain ⟨later, counted, -⟩ := Option.map_eq_some_iff.mp hit
        obtain ⟨token, member, equal⟩ := ih counted
        exact ⟨token, List.mem_cons_of_mem _ member, equal⟩

/-- No other byte becomes one of these bytes by `tolower`. -/
theorem eq_of_tolower {b c : Byte} (high : 128 ≤ c.toNat) (same : tolower b = tolower c) :
    b = c := by
  have kept : tolower c = c := if_neg (by omega)
  rw [kept] at same
  by_cases upper : 65 ≤ b.toNat ∧ b.toNat ≤ 90
  · rw [tolower, if_pos upper] at same
    have number := congrArg BitVec.toNat same
    have shift : (32 : Byte).toNat = 32 := rfl
    rw [BitVec.toNat_add, shift] at number
    omega
  · rwa [tolower, if_neg upper] at same

theorem eq_minus128_of_equalNocase {token : Token} (equal : EqualNocase token minus128) :
    token = minus128 := by
  obtain ⟨a, b, rfl⟩ := List.length_eq_two.mp equal.length_eq
  simp only [EqualNocase, minus128, List.map_cons, List.map_nil, List.cons.injEq, and_true] at equal
  rw [eq_of_tolower (by decide) equal.1, eq_of_tolower (by decide) equal.2]
  rfl

/-- A call with -128 comes to the sorting, unless the user dictionary has it. -/
theorem addAuto_minus128 {aExtras : List AutoExtra}
    (unknown : ¬ matchesExtras extras minus128 = true) :
    (addAuto extras minus128 aExtras).run draws ≠ some (none, rest) := by
  intro returned
  rw [addAuto, if_neg (by decide), if_neg (by decide), if_neg unknown] at returned
  cases hit : hitAuto minus128 aExtras with
  | some counted =>
      rw [hit] at returned
      cases returned
  | none =>
      rw [hit] at returned
      by_cases room : aExtras.length < MAX_AUTO_EXTRAS
      · simp only [if_pos room] at returned
        cases returned
      · simp only [if_neg room] at returned
        obtain ⟨⟨i, later⟩, -, stored⟩ := Option.bind_eq_some_iff.mp returned
        cases stored

section Sorted

variable (permutes : ∀ {α : Type} (compare : α → α → ℤ) (l : List α), (Q.sort compare l).Perm l)

include permutes

theorem tokens_sortAExtras (aExtras : List AutoExtra) :
    (tokensIn (sortAExtras Q aExtras)).Perm (tokensIn aExtras) := by
  refine List.Perm.map _ ?_
  refine ((permutes compareAutoExtrasLen _).append_right _).trans ?_
  rw [List.take_append_drop]
  exact permutes compareAutoExtrasUseD aExtras

/-- The step lemma: **a call keeps the auto dictionary free of built-in values exactly if it does
not offer -128**, or offers it while the user dictionary has it. -/
theorem allFree_call_iff (free : AllFree s)
    (called : (maybeAddAuto Q extras mem s).run draws = some (t, rest)) :
    AllFree t ↔ NotMissed extras mem := by
  obtain ⟨⟨result, left⟩, added, sorted⟩ := Option.bind_eq_some_iff.mp called
  cases result with
  | none =>
      cases sorted
      refine iff_of_true free ?_
      by_contra missed
      rw [NotMissed, not_or, not_not] at missed
      obtain ⟨rfl, unknown⟩ := missed
      exact addAuto_minus128 unknown added
  | some aExtras =>
      cases sorted
      obtain ⟨-, passes, unknown, stores⟩ := addAuto_stores added
      have perm := tokens_sortAExtras permutes aExtras
      constructor
      · intro after
        refine .inl ?_
        rintro rfl
        rcases stores.mem_or_hit with stored | ⟨counted, hit⟩
        · exact minus128_builtin (after _ (perm.mem_iff.mpr stored))
        · obtain ⟨token, member, equal⟩ := exists_of_hitAuto hit
          rw [eq_minus128_of_equalNocase equal] at member
          exact minus128_builtin (free _ member)
      · intro notMissed token member
        rcases stores.mem_or_eq token (perm.mem_iff.mp member) with old | rfl
        · exact free token old
        · exact builtinFree_of_passes passes (notMissed.resolve_right unknown)

end Sorted

/-- Any calls that do not offer -128, or only while the user dictionary has it. -/
def offerSystem (Q : Qsort) : TransitionSystem AutoState where
  init s := s = ⟨[], false⟩
  step s t := ∃ extras mem draws rest, NotMissed extras mem ∧
    (maybeAddAuto Q extras mem s).run draws = some (t, rest)

/-- **Built-in values stay out of the auto dictionary in every run in which -128 is not offered
to it**, and a further call keeps it so exactly under this condition. -/
theorem builtinFree_of_reachable (Q : Qsort)
    (permutes : ∀ {α : Type} (compare : α → α → ℤ) (l : List α), (Q.sort compare l).Perm l)
    {s : AutoState} (run : Reachable (offerSystem Q) s) :
    AllFree s ∧ ∀ extras mem draws rest t,
      (maybeAddAuto Q extras mem s).run draws = some (t, rest) →
        (AllFree t ↔ NotMissed extras mem) := by
  have free : AllFree s := by
    refine run.invariant (fun s start => ?_) fun s t _ free taken => ?_
    · cases start
      exact nofun
    · obtain ⟨extras, mem, draws, rest, notMissed, called⟩ := taken
      exact (allFree_call_iff permutes free called).mpr notMissed
  exact ⟨free, fun extras mem draws rest t called => allFree_call_iff permutes free called⟩

/-- The word 80 FF is offered to an empty dictionary. -/
theorem minus128_inserted : ∃ t rest,
    (maybeAddAuto insertionQsort [] minus128 ⟨[], false⟩).run [] = some (t, rest) ∧ ¬ AllFree t :=
  ⟨⟨[⟨minus128, 0⟩], true⟩, [], rfl, fun free => minus128_builtin (free _ List.mem_cons_self)⟩

/-- The word 12 34 is offered twice. -/
theorem builtinFree_of_reachable_word : AllFree ⟨[⟨[0x12, 0x34], 1⟩], true⟩ := by
  have once : Reachable (offerSystem insertionQsort) ⟨[⟨[0x12, 0x34], 0⟩], true⟩ :=
    .step (.init rfl) ⟨[], [0x12, 0x34], [], [], .inl (by decide), rfl⟩
  have twice : Reachable (offerSystem insertionQsort) ⟨[⟨[0x12, 0x34], 1⟩], true⟩ :=
    .step once ⟨[], [0x12, 0x34], [], [], .inl (by decide), rfl⟩
  exact (builtinFree_of_reachable insertionQsort (fun _ _ => List.perm_insertionSort _ _) twice).1

end GreenFuzz.AflFuzz
