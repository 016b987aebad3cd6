import GreenFuzz.Library.Dict
import GreenFuzz.Library.RemovingLoop
import GreenFuzz.Library.Tally

/-!
# Collecting the input files

`collect_files` walks through the directories that are given and lists their regular files. Files
and directories whose names start with a dot should not count, and the files next to the
directories of a fuzzer's output do not either.

The hidden subdirectories are removed from `dirnames` in a loop over the same list. So of hidden
names that `os.walk` lists in a row every second one stays, and its files are collected. The list
is right exactly if no file is found below such a directory (`collectFiles_iff`).

A directory tree is finite, so links lead to no directory above them. Paths are lists of names.
-/

set_option autoImplicit false

namespace GreenFuzz.Cmin

open Library

/-! ## Directories -/

abbrev FileName := String

/-- `name.startswith(".")`. -/
def startsWithDot (name : FileName) : Bool := name.toList.head? == some '.'

/-- What `os.walk` finds in a directory, in its order: the other entries, each with whether it is a
regular file, and the subdirectories, which it also finds through links. -/
inductive Directory where
  | mk (files : List (FileName × Bool)) (dirs : List (FileName × Directory))

namespace Directory

def files : Directory → List (FileName × Bool)
  | mk files _ => files

def dirs : Directory → List (FileName × Directory)
  | mk _ dirs => dirs

def filenames (d : Directory) : List FileName := d.files.map Prod.fst

def dirnames (d : Directory) : List FileName := d.dirs.map Prod.fst

/-- In every directory of the tree the names differ. -/
inductive Distinct : Directory → Prop where
  | mk {files : List (FileName × Bool)} {dirs : List (FileName × Directory)}
      (filenames : (files.map Prod.fst).Nodup) (dirnames : (dirs.map Prod.fst).Nodup)
      (below : ∀ entry ∈ dirs, entry.2.Distinct) : Distinct (mk files dirs)

end Directory

/-- A path that is given or that a pattern matches, and the directory there. Where there is no
directory, `os.walk` finds nothing. -/
structure Root where
  path : List FileName
  tree : Directory
  distinct : tree.Distinct

/-! ## The code -/

/-- `is_afl_dir`. -/
def isAflDir (dirnames filenames : List FileName) : Bool :=
  dirnames.contains "queue" && dirnames.contains "hangs" &&
    dirnames.contains "crashes" && filenames.contains "fuzzer_setup"

/-- The loop that removes the hidden names from `dirnames`. -/
def prune (dirnames : List FileName) : List FileName := removeLoop startsWithDot dirnames

/-- The files that one round over `os.walk` appends. -/
def appendFiles (crashOnly : Bool) (root : List FileName) (dirnames : List FileName)
    (files : List (FileName × Bool)) : List (List FileName) :=
  if !crashOnly && isAflDir dirnames (files.map Prod.fst) then []
  else (files.filter fun file => !startsWithDot file.1 && file.2).map fun file => root ++ [file.1]

mutual

/-- The files that the loop over `os.walk` appends from a directory on. -/
def collectFrom (crashOnly : Bool) (d : Directory) (root : List FileName) : List (List FileName) :=
  match d with
  | .mk files dirs =>
      let dirnames := prune (dirs.map Prod.fst)
      appendFiles crashOnly root dirnames files ++
        dirnames.flatMap fun name => ((collectAll crashOnly dirs root).lookup name).getD []

/-- The files from each of the subdirectories on. Those that are not in `dirnames` are not
walked. -/
def collectAll (crashOnly : Bool) (dirs : List (FileName × Directory)) (root : List FileName) :
    List (FileName × List (List FileName)) :=
  match dirs with
  | [] => []
  | entry :: rest => collectEntry crashOnly entry root :: collectAll crashOnly rest root

def collectEntry (crashOnly : Bool) (entry : FileName × Directory) (root : List FileName) :
    FileName × List (List FileName) :=
  match entry with
  | (name, d) => (name, collectFrom crashOnly d (root ++ [name]))

end

/-- `collect_files`, where `glob` is `glob.glob`. -/
def collectFiles (crashOnly : Bool) (glob : List Char → List Root) (inputPaths : List (List Char)) :
    List (List FileName) :=
  (inputPaths.flatMap glob).flatMap fun root => collectFrom crashOnly root.tree root.path

/-! ## Files that should be collected -/

namespace Directory

/-- A regular file of the directory itself that should be collected. -/
def ownFile (crashOnly : Bool) (d : Directory) (name : FileName) : Bool :=
  (crashOnly || !isAflDir d.dirnames d.filenames) && !startsWithDot name &&
    d.files.contains (name, true)

/-- The path leads to a file that should be collected, through subdirectories that may be
entered. -/
def leadsToFile (mayEnter : List FileName → FileName → Bool) (crashOnly : Bool) :
    Directory → List FileName → Bool
  | _, [] => false
  | d, name :: path =>
      match path with
      | [] => d.ownFile crashOnly name
      | _ :: _ => mayEnter d.dirnames name &&
          (d.dirs.lookup name).any fun sub => sub.leadsToFile mayEnter crashOnly path

/-- No name on the path starts with a dot. -/
def collects (crashOnly : Bool) (d : Directory) (path : List FileName) : Bool :=
  d.leadsToFile (fun _ name => !startsWithDot name) crashOnly path

/-- A subdirectory that the walk enters: a visible one, or an overlooked one. -/
def entered (dirnames : List FileName) (name : FileName) : Bool :=
  !startsWithDot name || (overlooked startsWithDot dirnames).contains name

/-- The paths that the walk follows. -/
def walks (crashOnly : Bool) (d : Directory) (path : List FileName) : Bool :=
  d.leadsToFile entered crashOnly path

/-- **A file is found below an overlooked directory.** Down to this directory all names are
visible. -/
inductive Leaks (crashOnly : Bool) : Directory → Prop where
  | here {d sub : Directory} {name : FileName} {path : List FileName}
      (hidden : name ∈ overlooked startsWithDot d.dirnames) (member : (name, sub) ∈ d.dirs)
      (found : sub.leadsToFile entered crashOnly path = true) : Leaks crashOnly d
  | deeper {d sub : Directory} {name : FileName} (visible : startsWithDot name = false)
      (member : (name, sub) ∈ d.dirs) (leaks : Leaks crashOnly sub) : Leaks crashOnly d

end Directory

/-- The file should be collected from this root. -/
def Root.reaches (crashOnly : Bool) (root : Root) (file : List FileName) : Bool :=
  root.path.isPrefixOf file && root.tree.collects crashOnly (file.drop root.path.length)

/-! ## Pruning -/

variable {crashOnly : Bool} {d sub : Directory} {name : FileName} {root path file : List FileName}

theorem mem_prune_iff {dirnames : List FileName} (distinct : dirnames.Nodup) :
    name ∈ prune dirnames ↔ name ∈ dirnames ∧ Directory.entered dirnames name = true := by
  rw [prune, removeLoop_eq distinct, mem_leftOver_iff, Directory.entered, Bool.or_eq_true,
    Bool.not_eq_true', List.contains_iff_mem]
  constructor
  · rintro (⟨member, visible⟩ | hidden)
    · exact ⟨member, .inl visible⟩
    · exact ⟨(overlooked_sublist _ _).subset hidden, .inr hidden⟩
  · rintro ⟨member, visible | hidden⟩
    · exact .inl ⟨member, visible⟩
    · exact .inr hidden

/-- Pruning does not touch the names of an output directory. -/
theorem isAflDir_prune {dirnames : List FileName} (distinct : dirnames.Nodup)
    (filenames : List FileName) :
    isAflDir (prune dirnames) filenames = isAflDir dirnames filenames := by
  have same (name : FileName) (visible : startsWithDot name = false) :
      (prune dirnames).contains name = dirnames.contains name := by
    rw [Bool.eq_iff_iff, List.contains_iff_mem, List.contains_iff_mem, mem_prune_iff distinct,
      Directory.entered, visible]
    simp
  unfold isAflDir
  rw [same _ (by decide), same _ (by decide), same _ (by decide)]

/-! ## What the walk collects -/

theorem lookup_collectAll (crashOnly : Bool) (dirs : List (FileName × Directory))
    (root : List FileName) (name : FileName) :
    (collectAll crashOnly dirs root).lookup name =
      (dirs.lookup name).map fun sub => collectFrom crashOnly sub (root ++ [name]) := by
  induction dirs with
  | nil => rfl
  | cons entry dirs ih =>
      obtain ⟨other, sub⟩ := entry
      rw [collectAll, collectEntry, lookup_cons_eq_ite, lookup_cons_eq_ite]
      split
      · rename_i same
        rw [same]
        rfl
      · exact ih

theorem collectFrom_eq (crashOnly : Bool) (d : Directory) (root : List FileName) :
    collectFrom crashOnly d root = appendFiles crashOnly root (prune d.dirnames) d.files ++
      (prune d.dirnames).flatMap fun name =>
        ((d.dirs.lookup name).map fun sub =>
          collectFrom crashOnly sub (root ++ [name])).getD [] := by
  obtain ⟨files, dirs⟩ := d
  rw [collectFrom]
  simp only [lookup_collectAll]
  rfl

/-- The files of the directory itself. -/
theorem mem_appendFiles_iff (distinct : d.dirnames.Nodup) :
    file ∈ appendFiles crashOnly root (prune d.dirnames) d.files ↔
      ∃ name, file = root ++ [name] ∧ d.ownFile crashOnly name = true := by
  have own (name : FileName) : d.ownFile crashOnly name = true ↔
      ¬ (!crashOnly && isAflDir d.dirnames d.filenames) = true ∧ startsWithDot name = false ∧
        (name, true) ∈ d.files := by
    unfold Directory.ownFile
    simp only [Bool.and_eq_true, Bool.or_eq_true, Bool.not_eq_true', List.contains_iff_mem,
      and_assoc]
    refine and_congr_left fun _ => ?_
    cases crashOnly <;> simp
  unfold appendFiles
  rw [isAflDir_prune distinct]
  simp only [own]
  split
  · rename_i skipped
    refine iff_of_false List.not_mem_nil ?_
    rintro ⟨name, -, kept, -⟩
    exact kept skipped
  · rename_i kept
    rw [List.mem_map]
    constructor
    · rintro ⟨⟨name, regular⟩, member, rfl⟩
      rw [List.mem_filter, Bool.and_eq_true, Bool.not_eq_true'] at member
      obtain ⟨member, visible, rfl⟩ := member
      exact ⟨name, rfl, kept, visible, member⟩
    · rintro ⟨name, rfl, -, visible, member⟩
      refine ⟨(name, true), List.mem_filter.mpr ⟨member, ?_⟩, rfl⟩
      rw [visible]
      rfl

theorem leadsToFile_nil (mayEnter : List FileName → FileName → Bool) :
    d.leadsToFile mayEnter crashOnly [] = false := by
  rw [Directory.leadsToFile]

theorem leadsToFile_singleton (mayEnter : List FileName → FileName → Bool) :
    d.leadsToFile mayEnter crashOnly [name] = d.ownFile crashOnly name := by
  rw [Directory.leadsToFile]

/-- A longer path leads through a subdirectory. -/
theorem leadsToFile_cons (distinct : d.Distinct) (mayEnter : List FileName → FileName → Bool)
    (long : path ≠ []) : d.leadsToFile mayEnter crashOnly (name :: path) = true ↔
      mayEnter d.dirnames name = true ∧ ∃ sub, (name, sub) ∈ d.dirs ∧
        sub.leadsToFile mayEnter crashOnly path = true := by
  obtain ⟨next, path, rfl⟩ := List.exists_cons_of_ne_nil long
  obtain ⟨filenames, dirnames, below⟩ := distinct
  rw [Directory.leadsToFile]
  simp only [Bool.and_eq_true, Option.any_eq_true]
  refine and_congr_right fun _ => exists_congr fun sub => and_congr_left fun _ => ?_
  exact lookup_eq_some_iff_mem dirnames

theorem ne_nil_of_leadsToFile {mayEnter : List FileName → FileName → Bool}
    (found : d.leadsToFile mayEnter crashOnly path = true) : path ≠ [] := by
  rintro rfl
  rw [leadsToFile_nil] at found
  cases found

/-- A path leads to a file of the directory itself or through a subdirectory. -/
theorem leadsToFile_iff (distinct : d.Distinct) (mayEnter : List FileName → FileName → Bool) :
    d.leadsToFile mayEnter crashOnly path = true ↔
      (∃ name, path = [name] ∧ d.ownFile crashOnly name = true) ∨
        ∃ name sub rest, path = name :: rest ∧ mayEnter d.dirnames name = true ∧
          (name, sub) ∈ d.dirs ∧ sub.leadsToFile mayEnter crashOnly rest = true := by
  constructor
  · intro found
    obtain ⟨name, rest, rfl⟩ := List.exists_cons_of_ne_nil (ne_nil_of_leadsToFile found)
    rcases eq_or_ne rest [] with rfl | long
    · exact .inl ⟨name, rfl, (leadsToFile_singleton _).symm.trans found⟩
    · obtain ⟨enters, sub, inside, deeper⟩ := (leadsToFile_cons distinct _ long).mp found
      exact .inr ⟨name, sub, rest, rfl, enters, inside, deeper⟩
  · rintro (⟨name, rfl, own⟩ | ⟨name, sub, rest, rfl, enters, inside, found⟩)
    · exact (leadsToFile_singleton _).trans own
    · have long := ne_nil_of_leadsToFile found
      exact (leadsToFile_cons distinct _ long).mpr ⟨enters, sub, inside, found⟩

/-- **A file is collected exactly if the walk leads to it.** -/
theorem mem_collectFrom_iff (distinct : d.Distinct) :
    file ∈ collectFrom crashOnly d root ↔
      ∃ path, file = root ++ path ∧ d.walks crashOnly path = true := by
  induction distinct generalizing root file with
  | @mk files dirs filenames dirnames below ih =>
      have distinct : (Directory.mk files dirs).Distinct := .mk filenames dirnames below
      have names : (Directory.mk files dirs).dirnames.Nodup := dirnames
      rw [collectFrom_eq, List.mem_append, mem_appendFiles_iff names, List.mem_flatMap]
      constructor
      · rintro (⟨name, rfl, own⟩ | ⟨name, kept, member⟩)
        · exact ⟨[name], rfl, (leadsToFile_iff distinct _).mpr (.inl ⟨name, rfl, own⟩)⟩
        · obtain ⟨listed, mayEnter⟩ := (mem_prune_iff names).mp kept
          obtain ⟨⟨name, sub⟩, inside, rfl⟩ := List.mem_map.mp listed
          have there : (Directory.mk files dirs).dirs.lookup name = some sub :=
            (lookup_eq_some_iff_mem dirnames).mpr inside
          dsimp only at member mayEnter
          rw [there, Option.map_some, Option.getD_some] at member
          obtain ⟨path, rfl, found⟩ := (ih (name, sub) inside).mp member
          refine ⟨name :: path, by rw [List.append_assoc]; rfl, ?_⟩
          exact (leadsToFile_iff distinct _).mpr
            (.inr ⟨name, sub, path, rfl, mayEnter, inside, found⟩)
      · rintro ⟨path, rfl, found⟩
        rcases (leadsToFile_iff distinct _).mp found with
          ⟨name, rfl, own⟩ | ⟨name, sub, rest, rfl, mayEnter, inside, deeper⟩
        · exact .inl ⟨name, rfl, own⟩
        · have there : (Directory.mk files dirs).dirs.lookup name = some sub :=
            (lookup_eq_some_iff_mem dirnames).mpr inside
          refine .inr ⟨name, (mem_prune_iff names).mpr
            ⟨List.mem_map.mpr ⟨_, inside, rfl⟩, mayEnter⟩, ?_⟩
          rw [there, Option.map_some, Option.getD_some]
          exact (ih (name, sub) inside).mpr ⟨rest, by rw [List.append_assoc]; rfl, deeper⟩

/-- The files of a directory itself are different. -/
theorem nodup_appendFiles {files : List (FileName × Bool)} (distinct : (files.map Prod.fst).Nodup)
    (dirnames : List FileName) : (appendFiles crashOnly root dirnames files).Nodup := by
  unfold appendFiles
  split
  · exact List.nodup_nil
  · have names : ((files.filter fun file => !startsWithDot file.1 && file.2).map Prod.fst).Nodup :=
      distinct.sublist (List.filter_sublist.map _)
    have injective : Function.Injective fun name : FileName => root ++ [name] := fun a b same => by
      simpa using same
    have paths := names.map injective
    rwa [List.map_map] at paths

/-- A file from a subdirectory on has the name of this directory and another one in its path. -/
theorem path_of_mem_below (distinct : d.Distinct)
    (member : file ∈ ((d.dirs.lookup name).map fun sub =>
      collectFrom crashOnly sub (root ++ [name])).getD []) :
    ∃ next path, file = root ++ name :: next :: path := by
  obtain ⟨filenames, dirnames, below⟩ := distinct
  rename_i files dirs
  cases there : (Directory.mk files dirs).dirs.lookup name with
  | none =>
      rw [there] at member
      cases member
  | some sub =>
      rw [there, Option.map_some, Option.getD_some] at member
      have inside := (lookup_eq_some_iff_mem dirnames).mp there
      obtain ⟨path, rfl, found⟩ := (mem_collectFrom_iff (below (name, sub) inside)).mp member
      obtain ⟨next, path, rfl⟩ := List.exists_cons_of_ne_nil (ne_nil_of_leadsToFile found)
      exact ⟨next, path, by rw [List.append_assoc]; rfl⟩

/-- **No file is collected twice from one root.** -/
theorem nodup_collectFrom (distinct : d.Distinct) : (collectFrom crashOnly d root).Nodup := by
  induction distinct generalizing root with
  | @mk files dirs filenames dirnames below ih =>
      have distinct : (Directory.mk files dirs).Distinct := .mk filenames dirnames below
      have listed : (Directory.mk files dirs).dirnames.Nodup := dirnames
      have names : (prune (Directory.mk files dirs).dirnames).Nodup := by
        rw [prune, removeLoop_eq listed]
        exact listed.sublist (leftOver_sublist _ _)
      rw [collectFrom_eq, List.nodup_append', List.nodup_flatMap]
      refine ⟨nodup_appendFiles filenames _, ⟨fun name _ => ?_, ?_⟩, ?_⟩
      · cases there : (Directory.mk files dirs).dirs.lookup name with
        | none => exact List.nodup_nil
        | some sub => exact ih (name, sub) ((lookup_eq_some_iff_mem dirnames).mp there)
      · refine names.imp fun {a b} differ file first second => differ ?_
        obtain ⟨next, path, rfl⟩ := path_of_mem_below distinct first
        obtain ⟨next', path', same⟩ := path_of_mem_below distinct second
        exact (List.cons.inj (List.append_cancel_left same)).1
      · intro file own below
        obtain ⟨name, rfl, -⟩ := (mem_appendFiles_iff listed).mp own
        obtain ⟨name', -, deeper⟩ := List.mem_flatMap.mp below
        obtain ⟨next, path, same⟩ := path_of_mem_below distinct deeper
        cases (List.cons.inj (List.append_cancel_left same)).2

/-! ## Leaks -/

/-- What should be collected is found by the walk. -/
theorem walks_of_collects (distinct : d.Distinct) (collects : d.collects crashOnly path = true) :
    d.walks crashOnly path = true := by
  induction distinct generalizing path with
  | @mk files dirs filenames dirnames below ih =>
      have distinct : (Directory.mk files dirs).Distinct := .mk filenames dirnames below
      refine (leadsToFile_iff distinct _).mpr ?_
      rcases (leadsToFile_iff distinct _).mp collects with
        own | ⟨name, sub, rest, rfl, visible, inside, deeper⟩
      · exact .inl own
      · refine .inr ⟨name, sub, rest, rfl, ?_, inside, ih _ inside deeper⟩
        rw [Directory.entered, visible, Bool.true_or]

/-- **The walk finds a file that should not be collected exactly if the directory leaks.** -/
theorem leaks_iff (distinct : d.Distinct) : d.Leaks crashOnly ↔
    ∃ path, d.walks crashOnly path = true ∧ d.collects crashOnly path = false := by
  induction distinct with
  | @mk files dirs filenames dirnames below ih =>
      have distinct : (Directory.mk files dirs).Distinct := .mk filenames dirnames below
      constructor
      · intro leaks
        cases leaks with
        | @here _ sub name path hidden member found =>
            have long := ne_nil_of_leadsToFile found
            refine ⟨name :: path, (leadsToFile_cons distinct _ long).mpr
              ⟨?_, sub, member, found⟩, Bool.eq_false_iff.mpr fun collects => ?_⟩
            · rw [Directory.entered, List.contains_iff_mem.mpr hidden, Bool.or_true]
            · have visible := ((leadsToFile_cons distinct _ long).mp collects).1
              rw [of_mem_overlooked hidden] at visible
              cases visible
        | @deeper _ sub name visible member leaks =>
            obtain ⟨path, walks, missed⟩ := (ih (name, sub) member).mp leaks
            have long := ne_nil_of_leadsToFile walks
            refine ⟨name :: path, (leadsToFile_cons distinct _ long).mpr
              ⟨?_, sub, member, walks⟩, Bool.eq_false_iff.mpr fun collects => ?_⟩
            · rw [Directory.entered, visible]
              rfl
            · obtain ⟨-, other, inside, rest⟩ := (leadsToFile_cons distinct _ long).mp collects
              have same : other = sub := Option.some.inj
                (((lookup_eq_some_iff_mem dirnames).mpr inside).symm.trans
                  ((lookup_eq_some_iff_mem dirnames).mpr member))
              rw [same] at rest
              exact Bool.eq_false_iff.mp missed rest
      · rintro ⟨path, walks, missed⟩
        rcases (leadsToFile_iff distinct _).mp walks with
          own | ⟨name, sub, rest, rfl, mayEnter, inside, found⟩
        · refine absurd ?_ (Bool.eq_false_iff.mp missed)
          exact (leadsToFile_iff distinct _).mpr (.inl own)
        · cases visible : startsWithDot name with
          | false =>
              refine .deeper visible inside ((ih (name, sub) inside).mpr ⟨rest, found, ?_⟩)
              refine Bool.eq_false_iff.mpr fun collects => Bool.eq_false_iff.mp missed ?_
              exact (leadsToFile_iff distinct _).mpr
                (.inr ⟨name, sub, rest, rfl, by rw [visible]; rfl, inside, collects⟩)
          | true =>
              rw [Directory.entered, visible, Bool.not_true, Bool.false_or,
                List.contains_iff_mem] at mayEnter
              exact .here mayEnter inside found

/-! ## The list -/

/-- The walk finds the file from this root. -/
def Root.walks (crashOnly : Bool) (root : Root) (file : List FileName) : Bool :=
  root.path.isPrefixOf file && root.tree.walks crashOnly (file.drop root.path.length)

theorem below_iff {found : List FileName → Bool} :
    (∃ path, file = root ++ path ∧ found path = true) ↔
      (root.isPrefixOf file && found (file.drop root.length)) = true := by
  rw [Bool.and_eq_true, List.isPrefixOf_iff_prefix]
  constructor
  · rintro ⟨path, rfl, finds⟩
    rw [List.drop_left]
    exact ⟨List.prefix_append _ _, finds⟩
  · rintro ⟨⟨path, rfl⟩, finds⟩
    rw [List.drop_left] at finds
    exact ⟨path, rfl, finds⟩

/-- A file is listed once per root from which the walk finds it. -/
theorem count_collectFiles (crashOnly : Bool) (glob : List Char → List Root)
    (inputPaths : List (List Char)) (file : List FileName) :
    (collectFiles crashOnly glob inputPaths).count file =
      (inputPaths.flatMap glob).countP fun root => root.walks crashOnly file := by
  have once (root : Root) : (collectFrom crashOnly root.tree root.path).count file =
      if root.walks crashOnly file then 1 else 0 := by
    rw [(nodup_collectFrom root.distinct).count]
    exact if_congr ((mem_collectFrom_iff root.distinct).trans below_iff) rfl rfl
  rw [collectFiles]
  induction inputPaths.flatMap glob with
  | nil => rfl
  | cons root roots ih =>
      rw [List.flatMap_cons, List.count_append, once, ih, List.countP_cons, Nat.add_comm]

/-- **`collect_files` lists every file that should be collected once per root that reaches it, and
no others, exactly if none of the roots leaks.** -/
theorem collectFiles_iff (crashOnly : Bool) (glob : List Char → List Root)
    (inputPaths : List (List Char)) :
    (∀ file, (collectFiles crashOnly glob inputPaths).count file =
        (inputPaths.flatMap glob).countP fun root => root.reaches crashOnly file) ↔
      ∀ root ∈ inputPaths.flatMap glob, ¬ root.tree.Leaks crashOnly := by
  have weaker (file : List FileName) (root : Root) (reaches : root.reaches crashOnly file = true) :
      root.walks crashOnly file = true := by
    obtain ⟨path, rfl, collects⟩ := below_iff.mpr reaches
    exact below_iff.mp ⟨path, rfl, walks_of_collects root.distinct collects⟩
  simp only [count_collectFiles, countP_eq_countP_iff fun root _ => weaker _ root]
  constructor
  · intro right root member leaks
    obtain ⟨path, walks, missed⟩ := (leaks_iff root.distinct).mp leaks
    have reaches := right (root.path ++ path) root member (below_iff.mp ⟨path, rfl, walks⟩)
    rw [Root.reaches, List.drop_left, missed, Bool.and_false] at reaches
    cases reaches
  · intro tight file root member walks
    obtain ⟨path, rfl, finds⟩ := below_iff.mpr walks
    refine below_iff.mp ⟨path, rfl, ?_⟩
    by_contra missed
    exact tight root member ((leaks_iff root.distinct).mpr ⟨path, finds, by simpa using missed⟩)

/-- Two hidden directories next to each other, the second with a file. -/
def twoHidden : Directory := .mk [] [(".a", .mk [] []), (".b", .mk [("seed", true)] [])]

/-- The file of the second one is collected. -/
theorem hidden_collected : collectFrom false twoHidden ["in"] = [["in", ".b", "seed"]] ∧
    twoHidden.collects false [".b", "seed"] = false := by
  decide +kernel

end GreenFuzz.Cmin
