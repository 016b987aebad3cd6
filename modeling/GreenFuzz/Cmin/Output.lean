import GreenFuzz.Cmin.Main
import GreenFuzz.Library.LinkedFiles
import GreenFuzz.Library.PaddedNumbers
import GreenFuzz.Library.Runs
import Mathlib.Data.List.DropRight
import Mathlib.Data.List.GetD

/-!
# The files that `afl-cmin.py` reads and writes

Before the workers, `main` drops input files with the SHA1 of an earlier one, and sorts the rest by
size; the list of hashes is sorted along. `save_file` names a selected file by its hash, or by its
base name with `--no-dedup`, and puts the number of the saved files in front with `--as_queue`. In
the end the files that crashed are saved in the crash directory by their hashes.

The hashes are those of the sorted files (`prepare_hashes`), and the names differ unless they are
bare base names (`fileName_ne`).
-/

set_option autoImplicit false

namespace GreenFuzz.Cmin

open Library

/-- An input file: its path, and the file behind it. -/
structure InputFile where
  path : List Char
  inode : ℕ
  deriving DecidableEq, Repr, Inhabited

/-! ## Dedup and sort -/

section Prepare

variable (hash : InputFile → List Byte)

/-- One round of the loop in `dedup`. The hashes that were seen are those in the list. -/
def dedupFile (s : List InputFile × List (List Byte)) (file : InputFile) :
    List InputFile × List (List Byte) :=
  if s.2.contains (hash file) then s else (s.1 ++ [file], s.2 ++ [hash file])

/-- `dedup`: the files with a new hash, and their hashes. -/
def dedup (files : List InputFile) : List InputFile × List (List Byte) :=
  files.foldl (dedupFile hash) ([], [])

/-- `[items[idx] for idx in idxes]`. -/
def reorder {α : Type} (idxes : List ℕ) (items : List α) : List α :=
  idxes.filterMap fun idx => items[idx]?

/-- The files of `main` and their hashes, sorted by size. Without `dedup` there are no hashes. -/
def prepare (size : InputFile → ℕ) (noDedup : Bool) (input : List InputFile) :
    List InputFile × List (List Byte) :=
  let deduped := if noDedup then (input, []) else dedup hash input
  let sizeList := deduped.1.map size
  let idxes := (List.range deduped.1.length).mergeSort fun a b =>
    sizeList.getD a 0 ≤ sizeList.getD b 0
  (reorder idxes deduped.1, reorder idxes deduped.2)

end Prepare

/-! ## Names -/

/-- `os.path.basename`. -/
def basename (path : List Char) : List Char := path.rtakeWhile fun c => c ≠ '/'

/-- The two digits of a byte. -/
def hexByte (b : Byte) : List Char :=
  [Nat.digitChar (b.toNat / 16), Nat.digitChar (b.toNat % 16)]

/-- `base64.b16encode` in lower case. -/
def hexName (digest : List Byte) : List Char := digest.flatMap hexByte

/-- `"id:%06d,orig:%s"` and `"id:%06d,hash:%s"`. -/
def queueName (count : ℕ) (kind fn : String) : List Char :=
  "id:".toList ++ (paddedDigits 6 count ++ ',' :: (kind ++ ":" ++ fn).toList)

/-- The name under which `save_file` saves a file, when `count` files were saved. -/
def fileName (noDedup asQueue : Bool) (hashList : List (List Byte)) (file : InputFile)
    (idx count : ℕ) : List Char :=
  let fn := if noDedup then basename file.path else hexName (hashList.getD idx [])
  if asQueue then queueName count (if noDedup then "orig" else "hash") (String.ofList fn) else fn

/-! ## Saving crashes -/

/-- A crashing file is linked or copied, and left alone where it is linked to itself. -/
def saveCrash {β : Type} (canLink : ℕ → Bool) (s : Store (List Char) β)
    (item : Saving (List Char)) : Store (List Char) β :=
  match linkOrCopy canLink s item with
  | .ok t => t
  | .error .sameFile => s

/-- The crashing files and their names: `hash_list` is indexed by the place in the list of the
crashing files. -/
def crashItems (crashFiles : List InputFile) (hashList : List (List Byte)) :
    List (Saving (List Char)) :=
  crashFiles.mapIdx fun idx file => ⟨file.inode, hexName (hashList.getD idx [])⟩

/-! ## Lemmas about `dedup` and `prepare` -/

section Prepared

variable {hash : InputFile → List Byte} {size : InputFile → ℕ}

theorem dedup_append (files : List InputFile) (file : InputFile) :
    dedup hash (files ++ [file]) = dedupFile hash (dedup hash files) file := by
  rw [dedup, List.foldl_append]
  rfl

/-- The hashes that `dedup` returns are those of its files. -/
theorem dedup_hashes (files : List InputFile) :
    (dedup hash files).2 = (dedup hash files).1.map hash := by
  refine foldl_invariant (P := fun s : List InputFile × List (List Byte) => s.2 = s.1.map hash)
    rfl fun file _ s hashes => ?_
  rw [dedupFile]
  split
  · exact hashes
  · rw [List.map_append, ← hashes]
    rfl

/-- The hashes differ. -/
theorem nodup_dedup (files : List InputFile) : (dedup hash files).2.Nodup := by
  refine foldl_invariant (P := fun s : List InputFile × List (List Byte) => s.2.Nodup)
    List.nodup_nil fun file _ s nodup => ?_
  rw [dedupFile]
  split
  · exact nodup
  · rename_i new
    rw [List.contains_iff_mem] at new
    simpa only [List.concat_eq_append] using nodup.concat new

theorem mem_of_mem_dedup {files : List InputFile} {file : InputFile}
    (member : file ∈ (dedup hash files).1) : file ∈ files := by
  refine foldl_invariant (P := fun s : List InputFile × List (List Byte) =>
    ∀ file ∈ s.1, file ∈ files) (by simp) (fun next listed s inside => ?_) file member
  rw [dedupFile]
  split
  · exact inside
  · intro file member
    rcases List.mem_append.mp member with before | last
    · exact inside file before
    · rwa [List.mem_singleton.mp last]

/-- Each file has the hash of one that is kept. -/
theorem exists_mem_dedup {files : List InputFile} {file : InputFile} (member : file ∈ files) :
    ∃ kept ∈ (dedup hash files).1, hash kept = hash file := by
  have listed : hash file ∈ (dedup hash files).2 := by
    induction files using List.reverseRecOn with
    | nil => cases member
    | append_singleton files last ih =>
        rw [dedup_append, dedupFile]
        rcases List.mem_append.mp member with before | now
        · split
          · exact ih before
          · exact List.mem_append_left _ (ih before)
        · rw [List.mem_singleton.mp now]
          split
          · exact List.contains_iff_mem.mp ‹_›
          · exact List.mem_append_right _ (List.mem_singleton.mpr rfl)
  rw [dedup_hashes] at listed
  exact List.mem_map.mp listed

/-- Reordering by a permutation of the indices. -/
theorem reorder_perm {α : Type} {idxes : List ℕ} {items : List α}
    (perm : idxes.Perm (List.range items.length)) : (reorder idxes items).Perm items := by
  have whole (items : List α) :
      (List.range items.length).filterMap (fun idx => items[idx]?) = items := by
    induction items using List.reverseRecOn with
    | nil => rfl
    | append_singleton items last ih =>
        have front : (List.range items.length).filterMap (fun idx => (items ++ [last])[idx]?) =
            (List.range items.length).filterMap fun idx => items[idx]? :=
          List.filterMap_congr fun idx member =>
            List.getElem?_append_left (List.mem_range.mp member)
        rw [List.length_append, List.length_singleton, List.range_succ, List.filterMap_append,
          front, ih]
        simp
  have reordered := perm.filterMap fun idx => items[idx]?
  rwa [whole] at reordered

theorem reorder_map {α γ : Type} (f : α → γ) (idxes : List ℕ) (items : List α) :
    reorder idxes (items.map f) = (reorder idxes items).map f := by
  simp [reorder, List.map_filterMap]

theorem prepare_perm (noDedup : Bool) (input : List InputFile) :
    (prepare hash size noDedup input).1.Perm
      (if noDedup then input else (dedup hash input).1) := by
  refine (reorder_perm (List.mergeSort_perm _ _)).trans (.of_eq ?_)
  cases noDedup <;> rfl

/-- Prepared files are input files. -/
theorem mem_of_mem_prepare {noDedup : Bool} {input : List InputFile} {file : InputFile}
    (member : file ∈ (prepare hash size noDedup input).1) : file ∈ input := by
  have kept := (prepare_perm noDedup input).mem_iff.mp member
  cases noDedup with
  | true => exact kept
  | false => exact mem_of_mem_dedup kept

/-- The hashes are sorted along with the files. -/
theorem prepare_hashes (input : List InputFile) :
    (prepare hash size false input).2 = (prepare hash size false input).1.map hash := by
  rw [prepare, if_neg Bool.false_ne_true]
  dsimp only
  rw [dedup_hashes, reorder_map]

/-- Different files have different hashes. -/
theorem nodup_prepare (input : List InputFile) : (prepare hash size false input).2.Nodup := by
  rw [prepare_hashes, ((prepare_perm false input).map hash).nodup_iff, if_neg Bool.false_ne_true,
    ← dedup_hashes]
  exact nodup_dedup input

end Prepared

/-! ## Lemmas about names -/

theorem digitChar_injective : ∀ i < 16, ∀ j < 16, Nat.digitChar i = Nat.digitChar j → i = j := by
  decide

theorem hexByte_injective {a b : Byte} (same : hexByte a = hexByte b) : a = b := by
  obtain ⟨high, low, -⟩ : _ ∧ _ ∧ True := by simpa [hexByte] using same
  have bound := a.isLt
  have bound' := b.isLt
  have highs := digitChar_injective _ (by omega) _ (by omega) high
  have lows := digitChar_injective _ (by omega) _ (by omega) low
  exact BitVec.eq_of_toNat_eq (by omega)

/-- Different hashes have different names. -/
theorem hexName_injective {d e : List Byte} (same : hexName d = hexName e) : d = e := by
  induction d generalizing e with
  | nil =>
      cases e with
      | nil => rfl
      | cons b e => cases same
  | cons a d ih =>
      cases e with
      | nil => cases same
      | cons b e =>
          obtain ⟨first, rest⟩ := List.append_inj (same : hexByte a ++ hexName d = _) rfl
          rw [hexByte_injective first, ih rest]

/-- Files saved at different times have different names in a queue. -/
theorem queueName_injective {m n : ℕ} {kind kind' fn fn' : String}
    (same : queueName m kind fn = queueName n kind' fn') : m = n := by
  rw [queueName, queueName, List.append_cancel_left_eq] at same
  exact paddedDigits_append_injective (by decide) (by decide) same

/-- Different files have different names, unless they are named by their base names alone. -/
theorem fileName_ne {noDedup asQueue : Bool} {hashList : List (List Byte)} {file file' : InputFile}
    {i j m n : ℕ} (named : noDedup = false ∨ asQueue = true)
    (nodup : noDedup = false → hashList.Nodup)
    (first : noDedup = false → i < hashList.length) (second : noDedup = false → j < hashList.length)
    (files : i ≠ j) (counts : m ≠ n) :
    fileName noDedup asQueue hashList file i m ≠ fileName noDedup asQueue hashList file' j n := by
  intro same
  cases asQueue with
  | true => exact counts (queueName_injective same)
  | false =>
      obtain rfl : noDedup = false := named.resolve_right Bool.false_ne_true
      have equal := hexName_injective
        (same : hexName (hashList.getD i []) = hexName (hashList.getD j []))
      rw [List.getD_eq_getElem _ _ (first rfl), List.getD_eq_getElem _ _ (second rfl)] at equal
      exact files ((nodup rfl).getElem_inj_iff.mp equal)

/-! ## Lemmas about saving crashes -/

/-- Where no file is copied to itself, every crashing file is linked or copied. -/
theorem foldl_saveCrash {β : Type} {canLink : ℕ → Bool} {s t : Store (List Char) β}
    {items : List (Saving (List Char))} (ok : saveFiles canLink s items = .ok t) :
    items.foldl (saveCrash canLink) s = t := by
  induction items generalizing s with
  | nil =>
      cases ok
      rfl
  | cons item items ih =>
      rw [saveFiles, List.foldlM_cons] at ok
      obtain ⟨next, saved, rest⟩ := bind_eq_ok_iff.mp ok
      rw [List.foldl_cons, saveCrash, saved]
      exact ih rest

/-- The crashing files get the first names. -/
theorem crashItems_names {files : List InputFile} {hashList : List (List Byte)}
    (enough : files.length ≤ hashList.length) :
    (crashItems files hashList).map Saving.name = (hashList.take files.length).map hexName := by
  refine List.ext_getElem ?_ fun k first second => ?_
  · simp [crashItems, enough]
  · have below : k < hashList.length := by
      simp only [crashItems, List.length_map, List.length_mapIdx] at first
      omega
    simp [crashItems, List.getElem?_eq_getElem below]

theorem nodup_crashItems {files : List InputFile} {hashList : List (List Byte)}
    (enough : files.length ≤ hashList.length) (nodup : hashList.Nodup) :
    ((crashItems files hashList).map Saving.name).Nodup := by
  rw [crashItems_names enough]
  exact (nodup.sublist (List.take_sublist _ _)).map fun _ _ => hexName_injective

end GreenFuzz.Cmin
