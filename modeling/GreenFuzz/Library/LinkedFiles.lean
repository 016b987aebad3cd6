import GreenFuzz.Library.Fallible
import Mathlib.Logic.Function.Basic
import Mathlib.Order.Basic
import Mathlib.Order.Nat
import Mathlib.Tactic.Common

/-!
# Saving files by links and copies

Files are saved in a directory under names: by a hard link, or by a copy where no link can be made.
Where a name is taken, the copy is written through the entry, so that every other link to the file
behind it changes too; and a file is not copied to itself.

Saving in a directory whose entries are files of their own succeeds, with each file's content
under its name in the end, exactly if names are used again only for files with the content of the
first, and not for that file itself where it is linked (`saveFiles_iff`). Then only the files behind
the entries that were there are written (`saveFiles_result`). With different names nothing can go
wrong (`compatible_of_nodup`).
-/

set_option autoImplicit false

namespace GreenFuzz.Library

variable {α β : Type} [DecidableEq α]

/-- The contents of the files, a directory, and the first number that no file has. -/
structure Store (α β : Type) where
  content : ℕ → β
  dir : α → Option ℕ
  fresh : ℕ

/-- A file to be saved, and its name in the directory. -/
structure Saving (α : Type) where
  src : ℕ
  name : α
  deriving DecidableEq, Repr

/-- The exception for a file that is copied to itself. -/
inductive SameFileError where
  | sameFile
  deriving DecidableEq, Repr

/-- A link, or a copy if that fails. -/
def linkOrCopy (canLink : ℕ → Bool) (s : Store α β) (item : Saving α) :
    Except SameFileError (Store α β) :=
  match s.dir item.name with
  | none =>
      if canLink item.src then
        .ok { s with dir := Function.update s.dir item.name (some item.src) }
      else
        .ok { content := Function.update s.content s.fresh (s.content item.src)
              dir := Function.update s.dir item.name (some s.fresh)
              fresh := s.fresh + 1 }
  | some dst =>
      if dst = item.src then .error .sameFile
      else .ok { s with content := Function.update s.content dst (s.content item.src) }

/-- Saving files one after the other. -/
def saveFiles (canLink : ℕ → Bool) (s : Store α β) (items : List (Saving α)) :
    Except SameFileError (Store α β) := items.foldlM (linkOrCopy canLink) s

/-- The first file that is saved under a name. -/
def firstNamed (items : List (Saving α)) (name : α) : Option (Saving α) :=
  items.find? fun item => item.name = name

/-- The directory holds a file's content under its name. -/
def Holds (s : Store α β) (content : ℕ → β) (item : Saving α) : Prop :=
  ∃ ino, s.dir item.name = some ino ∧ s.content ino = content item.src

/-- A file may be saved under the name of an earlier one: it has the same content, and is not the
file that was linked. -/
def Compatible (canLink : ℕ → Bool) (s : Store α β) (items : List (Saving α)) : Prop :=
  ∀ front item rest first, items = front ++ item :: rest → firstNamed front item.name = some first →
    s.content first.src = s.content item.src ∧
      (s.dir item.name = none → canLink first.src = true → first.src ≠ item.src)

/-- The files to be saved are there, and the entries of the directory are files of their own. -/
structure OwnEntries (s : Store α β) (items : List (Saving α)) : Prop where
  sources : ∀ item ∈ items, item.src < s.fresh
  entries : ∀ name ino, s.dir name = some ino → ino < s.fresh
  apart : ∀ name ino, s.dir name = some ino → ∀ item ∈ items, item.src ≠ ino
  single : ∀ name other ino, s.dir name = some ino → s.dir other = some ino → name = other

/-! ## First names -/

section First

variable {items : List (Saving α)} {item first : Saving α} {name : α}

theorem firstNamed_append (front : List (Saving α)) (item : Saving α) (name : α) :
    firstNamed (front ++ [item]) name =
      (firstNamed front name).or (if item.name = name then some item else none) := by
  rw [firstNamed, List.find?_append, firstNamed]
  by_cases same : item.name = name <;> simp [same]

/-- A name is saved first by an earlier file, or by the last one. -/
theorem firstNamed_append_some {front : List (Saving α)}
    (found : firstNamed (front ++ [item]) name = some first) :
    firstNamed front name = some first ∨
      (firstNamed front name = none ∧ item.name = name ∧ first = item) := by
  rw [firstNamed_append, Option.or_eq_some_iff] at found
  refine found.imp_right fun ⟨unnamed, last⟩ => ⟨unnamed, ?_⟩
  split at last
  · rename_i same
    exact ⟨same, (Option.some.inj last).symm⟩
  · cases last

theorem firstNamed_append_none {front : List (Saving α)}
    (unnamed : firstNamed (front ++ [item]) name = none) :
    firstNamed front name = none ∧ item.name ≠ name := by
  rw [firstNamed_append, Option.or_eq_none_iff] at unnamed
  refine unnamed.imp_right fun last same => ?_
  rw [if_pos same] at last
  cases last

theorem mem_of_firstNamed (found : firstNamed items name = some first) :
    first ∈ items ∧ first.name = name :=
  ⟨List.mem_of_find?_eq_some found, by simpa using List.find?_some found⟩

/-- The first file with the name of a file in the list is an earlier one, or that file. -/
theorem firstNamed_split (front rest : List (Saving α)) (item : Saving α) :
    firstNamed (front ++ item :: rest) item.name =
      some ((firstNamed front item.name).getD item) := by
  rw [firstNamed, List.find?_append, List.find?_cons_of_pos (by simp), ← firstNamed]
  cases firstNamed front item.name <;> rfl

/-- Of files with different names none has the name of an earlier one. -/
theorem firstNamed_none_of_nodup {front rest : List (Saving α)}
    (nodup : ((front ++ item :: rest).map Saving.name).Nodup) :
    firstNamed front item.name = none := by
  cases found : firstNamed front item.name with
  | none => rfl
  | some first =>
      obtain ⟨earlier, named⟩ := mem_of_firstNamed found
      rw [List.map_append, List.map_cons, List.nodup_append] at nodup
      exact absurd named (nodup.2.2 _ (List.mem_map_of_mem earlier) _ List.mem_cons_self)

theorem firstNamed_of_nodup (nodup : (items.map Saving.name).Nodup) (member : item ∈ items) :
    firstNamed items item.name = some item := by
  obtain ⟨front, rest, rfl⟩ := List.append_of_mem member
  rw [firstNamed_split, firstNamed_none_of_nodup nodup, Option.getD_none]

end First

/-- Files with different names may be saved. -/
theorem compatible_of_nodup {canLink : ℕ → Bool} {s : Store α β} {items : List (Saving α)}
    (nodup : (items.map Saving.name).Nodup) : Compatible canLink s items := by
  rintro front item rest first rfl found
  rw [firstNamed_none_of_nodup nodup] at found
  cases found

/-! ## Saving compatible files -/

section Saved

variable {canLink : ℕ → Bool} {s t : Store α β} {items front : List (Saving α)}
  {item first : Saving α} {name : α}

/-- The entry of a name that was saved: the entry that was there, a link, or a new file. -/
inductive EntryOf (canLink : ℕ → Bool) (s t : Store α β) (first : Saving α) : ℕ → Prop where
  | old {ino : ℕ} : s.dir first.name = some ino → EntryOf canLink s t first ino
  | link : s.dir first.name = none → canLink first.src = true → EntryOf canLink s t first first.src
  | copy {ino : ℕ} : s.dir first.name = none → canLink first.src = false → s.fresh ≤ ino →
      ino < t.fresh → EntryOf canLink s t first ino

/-- What holds after files were saved. -/
structure Saved (canLink : ℕ → Bool) (s : Store α β) (done : List (Saving α)) (t : Store α β) :
    Prop where
  fresh_le : s.fresh ≤ t.fresh
  kept : ∀ ino < s.fresh, (∀ name, s.dir name ≠ some ino) → t.content ino = s.content ino
  untouched : ∀ name, firstNamed done name = none →
    t.dir name = s.dir name ∧ ∀ ino, s.dir name = some ino → t.content ino = s.content ino
  saved : ∀ name first, firstNamed done name = some first →
    ∃ ino, t.dir name = some ino ∧ t.content ino = s.content first.src ∧
      EntryOf canLink s t first ino

theorem Saved.start : Saved canLink s [] s :=
  ⟨le_rfl, fun _ _ _ => rfl, fun _ _ => ⟨rfl, fun _ _ => rfl⟩, nofun⟩

/-- A file that is saved has the content that it had. -/
theorem Saved.content_src (saved : Saved canLink s front t) (own : OwnEntries s items)
    (member : item ∈ items) : t.content item.src = s.content item.src :=
  saved.kept _ (own.sources item member) fun name entry => own.apart name _ entry item member rfl

omit [DecidableEq α] in
/-- Entries are files that exist. -/
theorem EntryOf.lt_fresh {ino : ℕ} (entry : EntryOf canLink s t first ino)
    (own : OwnEntries s items) (member : first ∈ items) (grown : s.fresh ≤ t.fresh) :
    ino < t.fresh := by
  cases entry with
  | old there => exact (own.entries _ _ there).trans_le grown
  | link _ _ => exact (own.sources first member).trans_le grown
  | copy _ _ _ below => exact below

omit [DecidableEq α] in
theorem EntryOf.grow {ino : ℕ} (entry : EntryOf canLink s t first ino) {t' : Store α β}
    (grown : t.fresh ≤ t'.fresh) : EntryOf canLink s t' first ino := by
  cases entry with
  | old there => exact .old there
  | link absent links => exact .link absent links
  | copy absent unlinked new below => exact .copy absent unlinked new (below.trans_le grown)

omit [DecidableEq α] in
/-- Only an entry that was there is written through. -/
theorem EntryOf.ne_old {ino dst : ℕ} (entry : EntryOf canLink s t first ino)
    (own : OwnEntries s items) (member : first ∈ items) (there : s.dir name = some dst)
    (other : first.name ≠ name) : ino ≠ dst := by
  rintro rfl
  cases entry with
  | old same => exact other (own.single _ _ _ same there)
  | link _ _ => exact own.apart name _ there first member rfl
  | copy _ _ new _ => exact absurd (own.entries _ _ there) (not_lt.mpr new)

/-- A step that gives a new name its entry and leaves the other entries alone. -/
theorem Saved.extend {t' : Store α β} (saved : Saved canLink s front t)
    (new : firstNamed front item.name = none) (grown : t.fresh ≤ t'.fresh)
    (kept : ∀ ino < s.fresh, (∀ name, s.dir name ≠ some ino) → t'.content ino = t.content ino)
    (others : ∀ name, item.name ≠ name → t'.dir name = t.dir name ∧
      ∀ ino, t.dir name = some ino → t'.content ino = t.content ino)
    (entry : ∃ ino, t'.dir item.name = some ino ∧ t'.content ino = s.content item.src ∧
      EntryOf canLink s t' item ino) : Saved canLink s (front ++ [item]) t' where
  fresh_le := saved.fresh_le.trans grown
  kept := fun ino below free => (kept ino below free).trans (saved.kept ino below free)
  untouched := by
    intro name unnamed
    obtain ⟨unnamed, other⟩ := firstNamed_append_none unnamed
    obtain ⟨dir, content⟩ := saved.untouched name unnamed
    obtain ⟨dir', content'⟩ := others name other
    exact ⟨dir'.trans dir, fun ino there =>
      (content' ino (dir.trans there)).trans (content ino there)⟩
  saved := by
    intro name first found
    rcases firstNamed_append_some found with earlier | ⟨-, rfl, rfl⟩
    · obtain ⟨ino, there, content, kind⟩ := saved.saved name first earlier
      have other : item.name ≠ name := by
        rintro rfl
        rw [new] at earlier
        cases earlier
      obtain ⟨dir', content'⟩ := others name other
      exact ⟨ino, dir'.trans there, (content' ino there).trans content, kind.grow grown⟩
    · exact entry

/-- Entries of other names are not those of files that are written. -/
theorem Saved.entry_ne (saved : Saved canLink s front t) (own : OwnEntries s items)
    (inside : ∀ item ∈ front, item ∈ items) {ino : ℕ} (there : t.dir name = some ino) :
    ino < t.fresh ∧ ∀ other dst, s.dir other = some dst → other ≠ name → ino ≠ dst := by
  cases found : firstNamed front name with
  | none =>
      rw [(saved.untouched name found).1] at there
      refine ⟨(own.entries _ _ there).trans_le saved.fresh_le, fun other dst there' differ => ?_⟩
      rintro rfl
      exact differ (own.single _ _ _ there' there)
  | some first =>
      obtain ⟨ino', there', -, kind⟩ := saved.saved name first found
      obtain ⟨member, named⟩ := mem_of_firstNamed found
      rw [there, Option.some.injEq] at there'
      subst there'
      refine ⟨kind.lt_fresh own (inside _ member) saved.fresh_le, fun other dst there' differ => ?_⟩
      exact kind.ne_old own (inside _ member) there' (by rw [named]; exact differ.symm)

/-- A file under a new name is linked or copied. -/
theorem Saved.step_new (saved : Saved canLink s front t) (own : OwnEntries s items)
    (inside : ∀ item ∈ front, item ∈ items) (member : item ∈ items)
    (new : firstNamed front item.name = none) :
    ∃ t', linkOrCopy canLink t item = .ok t' ∧ Saved canLink s (front ++ [item]) t' := by
  have src := saved.content_src own member
  obtain ⟨dir, -⟩ := saved.untouched _ new
  rw [linkOrCopy, dir]
  cases there : s.dir item.name with
  | some dst =>
      have other := own.apart _ _ there item member
      refine ⟨_, if_neg other.symm, saved.extend new le_rfl (fun ino _ free => ?_)
        (fun name differ => ⟨rfl, fun ino there' => ?_⟩) ⟨dst, dir.trans there,
          (Function.update_self _ _ _).trans src, .old there⟩⟩
      · refine Function.update_of_ne ?_ _ _
        rintro rfl
        exact free _ there
      · exact Function.update_of_ne ((saved.entry_ne own inside there').2 _ _ there differ) _ _
  | none =>
      cases links : canLink item.src with
      | true =>
          refine ⟨_, if_pos rfl, saved.extend new le_rfl (fun _ _ _ => rfl)
            (fun name differ => ⟨Function.update_of_ne differ.symm _ _, fun _ _ => rfl⟩)
            ⟨item.src, Function.update_self _ _ _, src, .link there links⟩⟩
      | false =>
          refine ⟨_, if_neg Bool.false_ne_true, saved.extend new (Nat.le_succ _)
            (fun ino below _ => ?_) (fun name differ => ⟨Function.update_of_ne differ.symm _ _,
              fun ino there' => ?_⟩) ⟨t.fresh, Function.update_self _ _ _,
              (Function.update_self _ _ _).trans src,
              .copy there links saved.fresh_le (Nat.lt_succ_self _)⟩⟩
          · exact Function.update_of_ne (below.trans_le saved.fresh_le).ne _ _
          · exact Function.update_of_ne (saved.entry_ne own inside there').1.ne _ _

/-- A file under a name that was used is copied over the same content. -/
theorem Saved.step_again (saved : Saved canLink s front t) (own : OwnEntries s items)
    (member : item ∈ items) (found : firstNamed front item.name = some first)
    (content : s.content first.src = s.content item.src)
    (differ : s.dir item.name = none → canLink first.src = true → first.src ≠ item.src) :
    ∃ t', linkOrCopy canLink t item = .ok t' ∧ Saved canLink s (front ++ [item]) t' := by
  obtain ⟨dst, entry, written, kind⟩ := saved.saved _ _ found
  obtain ⟨-, named⟩ := mem_of_firstNamed found
  have other : dst ≠ item.src := by
    cases kind with
    | old there => exact (own.apart _ _ there item member).symm
    | link absent links => exact differ (named ▸ absent) links
    | copy _ _ late _ => exact ((own.sources item member).trans_le late).ne'
  have same : Function.update t.content dst (t.content item.src) = t.content := by
    rw [saved.content_src own member, ← content, ← written, Function.update_eq_self]
  refine ⟨t, ?_, saved.fresh_le, saved.kept, fun name unnamed => ?_, fun name first' found' => ?_⟩
  · rw [linkOrCopy, entry]
    simp only [if_neg other, same]
  · exact saved.untouched name (firstNamed_append_none unnamed).1
  · rcases firstNamed_append_some found' with earlier | ⟨unnamed, rfl, -⟩
    · exact saved.saved name first' earlier
    · rw [found] at unnamed
      cases unnamed

/-- **Compatible files are saved**, and only entries that were there are written through. -/
theorem saveFiles_result (own : OwnEntries s items) (compatible : Compatible canLink s items) :
    ∃ t, saveFiles canLink s items = .ok t ∧ Saved canLink s items t := by
  refine foldlM_succeeds_along (P := Saved canLink s) Saved.start ?_
  rintro front item rest rfl t saved
  have member : item ∈ front ++ item :: rest := List.mem_append_right _ List.mem_cons_self
  cases found : firstNamed front item.name with
  | none =>
      exact saved.step_new own (fun earlier before => List.mem_append_left _ before) member found
  | some first =>
      obtain ⟨content, differ⟩ := compatible front item rest first rfl found
      exact saved.step_again own member found content differ

theorem Saved.holds (saved : Saved canLink s items t) (compatible : Compatible canLink s items)
    (member : item ∈ items) : Holds t s.content item := by
  obtain ⟨front, rest, rfl⟩ := List.append_of_mem member
  obtain ⟨ino, there, content, -⟩ := saved.saved _ _ (firstNamed_split front rest item)
  refine ⟨ino, there, content.trans ?_⟩
  cases found : firstNamed front item.name with
  | none => rfl
  | some first => exact (compatible front item rest first rfl found).1

/-- A name of one of the files has that file's content, where the names differ. -/
theorem Saved.holds_iff_of_mem (saved : Saved canLink s items t)
    (nodup : (items.map Saving.name).Nodup) (member : item ∈ items) (other : Saving α)
    (same : item.name = other.name) (content : ℕ → β) :
    Holds t content other ↔ s.content item.src = content other.src := by
  obtain ⟨ino, there, written, -⟩ := saved.saved _ _ (firstNamed_of_nodup nodup member)
  rw [same] at there
  constructor
  · rintro ⟨ino', there', holds⟩
    rw [there, Option.some.injEq] at there'
    rw [← written, there', holds]
  · exact fun equal => ⟨ino, there, written.trans equal⟩

/-- Any other name has what it had. -/
theorem Saved.holds_iff_of_unnamed (saved : Saved canLink s items t) {other : Saving α}
    (unnamed : ∀ item ∈ items, item.name ≠ other.name) (content : ℕ → β) :
    Holds t content other ↔ Holds s content other := by
  obtain ⟨dir, kept⟩ := saved.untouched other.name
    (List.find?_eq_none.mpr fun item member => by simpa using unnamed item member)
  constructor
  · rintro ⟨ino, there, holds⟩
    rw [dir] at there
    exact ⟨ino, there, (kept ino there).symm.trans holds⟩
  · rintro ⟨ino, there, holds⟩
    exact ⟨ino, dir.trans there, (kept ino there).trans holds⟩

/-! ## Saving incompatible files -/

/-- Entries are those that were there, links to the files, or new files. -/
structure Entries (s : Store α β) (items : List (Saving α)) (t : Store α β) : Prop where
  fresh_le : s.fresh ≤ t.fresh
  from_items : ∀ name ino, t.dir name = some ino → s.dir name = some ino ∨
    (∃ item ∈ items, item.src = ino) ∨ (s.fresh ≤ ino ∧ ino < t.fresh)

/-- What one step can do: link, copy to a new file, or copy through the entry. -/
theorem linkOrCopy_cases {t' : Store α β} (ok : linkOrCopy canLink t item = .ok t') :
    (t.dir item.name = none ∧ canLink item.src = true ∧
      t' = { t with dir := Function.update t.dir item.name (some item.src) }) ∨
    (t.dir item.name = none ∧ canLink item.src = false ∧
      t' = { content := Function.update t.content t.fresh (t.content item.src)
             dir := Function.update t.dir item.name (some t.fresh)
             fresh := t.fresh + 1 }) ∨
    (∃ dst, t.dir item.name = some dst ∧ dst ≠ item.src ∧
      t' = { t with content := Function.update t.content dst (t.content item.src) }) := by
  unfold linkOrCopy at ok
  split at ok
  · rename_i absent
    split at ok
    · rename_i links
      exact Or.inl ⟨absent, links, (Except.ok.inj ok).symm⟩
    · rename_i unlinked
      exact Or.inr (Or.inl ⟨absent, Bool.not_eq_true _ ▸ unlinked, (Except.ok.inj ok).symm⟩)
  · rename_i dst there
    split at ok
    · cases ok
    · rename_i other
      exact Or.inr (Or.inr ⟨dst, there, other, (Except.ok.inj ok).symm⟩)

theorem entry_update {dir : α → Option ℕ} {new ino : ℕ} {name other : α}
    (there : Function.update dir name (some new) other = some ino) :
    new = ino ∨ dir other = some ino := by
  by_cases same : other = name
  · subst same
    rw [Function.update_self, Option.some.injEq] at there
    exact Or.inl there
  · rw [Function.update_of_ne same] at there
    exact Or.inr there

theorem Entries.step {t' : Store α β} (entries : Entries s items t) (member : item ∈ items)
    (ok : linkOrCopy canLink t item = .ok t') : Entries s items t' := by
  obtain ⟨-, -, rfl⟩ | ⟨-, -, rfl⟩ | ⟨dst, -, -, rfl⟩ := linkOrCopy_cases ok
  · refine ⟨entries.fresh_le, fun name ino there => ?_⟩
    rcases entry_update there with rfl | before
    · exact Or.inr (Or.inl ⟨item, member, rfl⟩)
    · exact entries.from_items name ino before
  · refine ⟨entries.fresh_le.trans (Nat.le_succ _), fun name ino there => ?_⟩
    rcases entry_update there with rfl | before
    · exact Or.inr (Or.inr ⟨entries.fresh_le, Nat.lt_succ_self _⟩)
    · exact (entries.from_items name ino before).imp_right
        (.imp_right fun new => ⟨new.1, new.2.trans (Nat.lt_succ_self _)⟩)
  · exact ⟨entries.fresh_le, entries.from_items⟩

theorem saveFiles_entries (ok : saveFiles canLink s items = .ok t) : Entries s items t := by
  have start : Entries s items s := ⟨le_rfl, fun _ _ there => Or.inl there⟩
  exact foldlM_carries (P := fun _ t => Entries s items t) start
    (fun _ _ member _ _ entries saved => entries.step member saved) ok

/-- The entry of a name that was saved: there is one, and it is the first file if that was linked
to a new name. -/
structure Linked (canLink : ℕ → Bool) (s : Store α β) (done : List (Saving α)) (t : Store α β) :
    Prop where
  untouched : ∀ name, firstNamed done name = none → t.dir name = s.dir name
  linked : ∀ name first, firstNamed done name = some first → t.dir name ≠ none ∧
    (s.dir name = none → canLink first.src = true → t.dir name = some first.src)

theorem Linked.step (linked : Linked canLink s front t) {t' : Store α β}
    (ok : linkOrCopy canLink t item = .ok t') : Linked canLink s (front ++ [item]) t' := by
  have others : ∀ name, item.name ≠ name → t'.dir name = t.dir name := by
    intro name other
    obtain ⟨-, -, rfl⟩ | ⟨-, -, rfl⟩ | ⟨dst, -, -, rfl⟩ := linkOrCopy_cases ok
    · exact Function.update_of_ne other.symm _ _
    · exact Function.update_of_ne other.symm _ _
    · rfl
  have again : t.dir item.name ≠ none → t'.dir item.name = t.dir item.name := by
    intro there
    obtain ⟨absent, -⟩ | ⟨absent, -⟩ | ⟨dst, -, -, rfl⟩ := linkOrCopy_cases ok
    · exact absurd absent there
    · exact absurd absent there
    · rfl
  refine ⟨fun name unnamed => ?_, fun name first found => ?_⟩
  · obtain ⟨unnamed, other⟩ := firstNamed_append_none unnamed
    exact (others name other).trans (linked.untouched name unnamed)
  · rcases firstNamed_append_some found with earlier | ⟨unnamed, rfl, rfl⟩
    · have known := linked.linked name first earlier
      by_cases same : item.name = name
      · subst same
        rwa [again known.1]
      · rwa [others name same]
    · have entry := linked.untouched _ unnamed
      obtain ⟨-, -, rfl⟩ | ⟨-, unlinked, rfl⟩ | ⟨dst, there, -, rfl⟩ := linkOrCopy_cases ok
      · simp
      · simp [unlinked]
      · rw [entry] at there
        simp [entry, there]

/-- **Saving works exactly for compatible files.** -/
theorem saveFiles_iff (own : OwnEntries s items) :
    (∃ t, saveFiles canLink s items = .ok t ∧ ∀ item ∈ items, Holds t s.content item) ↔
      Compatible canLink s items := by
  constructor
  · rintro ⟨t, ok, holds⟩ front item rest first rfl found
    obtain ⟨before, named⟩ := mem_of_firstNamed found
    refine ⟨?_, fun absent links same => ?_⟩
    · obtain ⟨ino, there, content⟩ := holds item (List.mem_append_right _ List.mem_cons_self)
      obtain ⟨ino', there', content'⟩ := holds first (List.mem_append_left _ before)
      rw [named, there, Option.some.injEq] at there'
      rw [← content', ← there', content]
    · rw [saveFiles, List.foldlM_append] at ok
      obtain ⟨middle, front_ok, last⟩ := bind_eq_ok_iff.mp ok
      rw [List.foldlM_cons] at last
      obtain ⟨next, saved, -⟩ := bind_eq_ok_iff.mp last
      have linked : Linked canLink s front middle := foldlM_carries (P := Linked canLink s)
        ⟨fun _ _ => rfl, nofun⟩ (fun _ _ _ _ _ linked ok => linked.step ok) front_ok
      have entry := (linked.linked _ first found).2 absent links
      rw [linkOrCopy, entry] at saved
      simp only [if_pos same] at saved
      cases saved
  · intro compatible
    obtain ⟨t, ok, saved⟩ := saveFiles_result own compatible
    exact ⟨t, ok, fun item member => saved.holds compatible member⟩

end Saved

end GreenFuzz.Library
