import CryptoScan.Python.Text
import Mathlib.Data.List.Nodup

/-!
# Directory trees, `os.path.join` and `os.walk`

A directory is its list of entries, in the order the file system lists them: regular files, and
sub-directories with entries of their own. Links are left out. `os.walk` visits the root and every
directory below it, top-down, and reports for each its path, its sub-directory names and its file
names.

The result the clients need is about *paths as text*: joining a directory's path with the file
names reported for it gives the path of every regular file of the tree, once
(`walk_paths`, `files_nodup`, `render_injective`). Two things could go wrong, and both are
excluded by what a name is (`Name`: not empty, no `/`) and by names being unique in a directory
(`Dir`): two files with one component list, and two component lists rendered to one text.
-/

namespace CryptoScan.Python

abbrev Path := Text

/-! ## Joining -/

/-- `os.path.join(a, b)`. -/
def join (a b : Path) : Path :=
  if b.head? = some '/' then b
  else if a = [] ∨ a.getLast? = some '/' then a ++ b
  else a ++ '/' :: b

/-- The name of a directory entry, as a file system allows it. -/
structure Name where
  text : Text
  ne_nil : text ≠ []
  no_slash : '/' ∉ text
  deriving DecidableEq

@[ext] theorem Name.ext {m n : Name} (h : m.text = n.text) : m = n := by
  cases m; cases n; cases h; rfl

/-- A directory's path with the separator that entries are appended behind. -/
def withSlash (a : Path) : Path :=
  if a = [] ∨ a.getLast? = some '/' then a else a ++ ['/']

theorem join_name (a : Path) (n : Name) : join a n.text = withSlash a ++ n.text := by
  have hhead : n.text.head? ≠ some '/' := fun h => n.no_slash (List.mem_of_mem_head? h)
  unfold join withSlash
  rw [if_neg hhead]
  split <;> simp

theorem withSlash_join (a : Path) (n : Name) :
    withSlash (join a n.text) = join a n.text ++ ['/'] := by
  have hlast : (join a n.text).getLast? ≠ some '/' := by
    rw [join_name, List.getLast?_append_of_ne_nil _ n.ne_nil]
    exact fun h => n.no_slash (List.mem_of_getLast? h)
  have hne : join a n.text ≠ [] := by
    rw [join_name]
    simp [n.ne_nil]
  simp [withSlash, hlast, hne]

/-- The path of the entry reached from `root` through the names `ns`. -/
def render (root : Path) (ns : List Name) : Path := ns.foldl (fun p n => join p n.text) root

@[simp] theorem render_cons (root : Path) (n : Name) (ns : List Name) :
    render root (n :: ns) = render (join root n.text) ns := rfl

/-- A rendered path is the root, then the names between slashes. -/
theorem render_eq (root : Path) (n : Name) (ns : List Name) :
    render root (n :: ns) = withSlash root ++ ['/'].intercalate ((n :: ns).map Name.text) := by
  induction ns generalizing root n with
  | nil => simpa [render] using join_name root n
  | cons m ms ih =>
      rw [render_cons, ih, withSlash_join, join_name]
      simp only [List.map_cons, List.intercalate_cons_cons]
      simp

/-- **Rendering loses nothing**: names without slashes can be read back from the path. -/
theorem render_injective {root : Path} {p q : List Name} (hp : p ≠ []) (hq : q ≠ [])
    (h : render root p = render root q) : p = q := by
  obtain ⟨m, ms, rfl⟩ := List.exists_cons_of_ne_nil hp
  obtain ⟨n, ns, rfl⟩ := List.exists_cons_of_ne_nil hq
  rw [render_eq, render_eq] at h
  have hsplit (k : Name) (ks : List Name) :
      (['/'].intercalate ((k :: ks).map Name.text)).splitOn '/' = (k :: ks).map Name.text := by
    apply List.splitOn_intercalate
    · intro l hl
      obtain ⟨x, -, rfl⟩ := List.mem_map.mp hl
      exact x.no_slash
    · simp
  have hmap := congrArg (List.splitOn '/') (List.append_cancel_left h)
  rw [hsplit, hsplit] at hmap
  exact List.map_injective_iff.mpr (fun _ _ => Name.ext) hmap

theorem slash_mem_render {root : Path} {p : List Name} (hroot : root ≠ []) (hp : p ≠ []) :
    '/' ∈ render root p := by
  obtain ⟨n, ns, rfl⟩ := List.exists_cons_of_ne_nil hp
  rw [render_eq]
  apply List.mem_append_left
  unfold withSlash
  split
  · next h =>
      rcases h with h | h
      · exact absurd h hroot
      · exact List.mem_of_getLast? h
  · simp

/-! ## Trees -/

/-- The entries of a directory, in listing order. -/
inductive Listing where
  | nil
  | file (name : Name) (rest : Listing)
  | dir (name : Name) (sub rest : Listing)

namespace Listing

def fileNames : Listing → List Name
  | .nil => []
  | .file n rest => n :: rest.fileNames
  | .dir _ _ rest => rest.fileNames

def dirNames : Listing → List Name
  | .nil => []
  | .file _ rest => rest.dirNames
  | .dir n _ rest => n :: rest.dirNames

def names : Listing → List Name
  | .nil => []
  | .file n rest => n :: rest.names
  | .dir n _ rest => n :: rest.names

/-- Names are unique in every directory of the tree. -/
def WellFormed : Listing → Prop
  | .nil => True
  | .file n rest => n ∉ rest.names ∧ rest.WellFormed
  | .dir n sub rest => n ∉ rest.names ∧ sub.WellFormed ∧ rest.WellFormed

instance decidableWellFormed : ∀ l : Listing, Decidable l.WellFormed
  | .nil => .isTrue trivial
  | .file n rest =>
      have := decidableWellFormed rest
      inferInstanceAs (Decidable (n ∉ rest.names ∧ rest.WellFormed))
  | .dir n sub rest =>
      have := decidableWellFormed sub
      have := decidableWellFormed rest
      inferInstanceAs (Decidable (n ∉ rest.names ∧ sub.WellFormed ∧ rest.WellFormed))

/-- The listing has a regular file below it, reached through the names `p`. -/
inductive HasFile : Listing → List Name → Prop
  | here {n rest} : HasFile (.file n rest) [n]
  | down {n sub rest p} : HasFile sub p → HasFile (.dir n sub rest) (n :: p)
  | skipFile {n rest p} : HasFile rest p → HasFile (.file n rest) p
  | skipDir {n sub rest p} : HasFile rest p → HasFile (.dir n sub rest) p

theorem HasFile.ne_nil {l : Listing} {p : List Name} (h : l.HasFile p) : p ≠ [] := by
  induction h with
  | here => simp
  | down _ _ => simp
  | skipFile _ ih => exact ih
  | skipDir _ ih => exact ih

/-- The files in the sub-directories of a listing. -/
def subFiles : Listing → List (List Name)
  | .nil => []
  | .file _ rest => rest.subFiles
  | .dir n sub rest =>
      (sub.fileNames.map ([·]) ++ sub.subFiles).map (n :: ·) ++ rest.subFiles

/-- Every regular file of the tree by its names, a directory's own files before those below. -/
def files (l : Listing) : List (List Name) := l.fileNames.map ([·]) ++ l.subFiles

/-- The sub-directories of a listing, with their entries. -/
def subs : Listing → List (Name × Listing)
  | .nil => []
  | .file _ rest => rest.subs
  | .dir n sub rest => (n, sub) :: rest.subs

theorem dirNames_eq_map_subs (l : Listing) : l.dirNames = l.subs.map Prod.fst := by
  induction l with
  | nil => rfl
  | file n rest ih => exact ih
  | dir n sub rest _ ih => exact congrArg (n :: ·) ih

theorem subFiles_eq_flatMap (l : Listing) :
    l.subFiles = l.subs.flatMap fun e => e.2.files.map (e.1 :: ·) := by
  induction l with
  | nil => rfl
  | file n rest ih => exact ih
  | dir n sub rest _ ih =>
      unfold subFiles subs
      rw [List.flatMap_cons, ih]
      rfl

theorem mem_files_nil (p : List Name) : p ∉ Listing.nil.files := by
  simp [files, fileNames, subFiles]

theorem mem_files_file {n : Name} {rest : Listing} {p : List Name} :
    p ∈ (Listing.file n rest).files ↔ p = [n] ∨ p ∈ rest.files := by
  simp only [files, fileNames, subFiles, List.map_cons, List.cons_append, List.mem_cons]

theorem mem_files_dir {n : Name} {sub rest : Listing} {p : List Name} :
    p ∈ (Listing.dir n sub rest).files ↔
      (∃ q ∈ sub.files, n :: q = p) ∨ p ∈ rest.files := by
  simp only [files, fileNames, subFiles, List.mem_append, List.mem_map]
  exact or_left_comm

/-- `files` lists exactly the regular files. -/
theorem mem_files_iff {l : Listing} {p : List Name} : p ∈ l.files ↔ l.HasFile p := by
  constructor
  · intro h
    induction l generalizing p with
    | nil => exact absurd h (mem_files_nil p)
    | file n rest ih =>
        rcases mem_files_file.mp h with rfl | h
        · exact .here
        · exact .skipFile (ih h)
    | dir n sub rest ihs ihr =>
        rcases mem_files_dir.mp h with ⟨q, hq, rfl⟩ | h
        · exact .down (ihs hq)
        · exact .skipDir (ihr h)
  · intro h
    induction h with
    | here => exact mem_files_file.mpr (Or.inl rfl)
    | down _ ih => exact mem_files_dir.mpr (Or.inl ⟨_, ih, rfl⟩)
    | skipFile _ ih => exact mem_files_file.mpr (Or.inr ih)
    | skipDir _ ih => exact mem_files_dir.mpr (Or.inr ih)

theorem mem_names_of_mem_fileNames {l : Listing} {n : Name} (h : n ∈ l.fileNames) :
    n ∈ l.names := by
  induction l with
  | nil => exact h
  | file m rest ih =>
      rcases List.mem_cons.mp h with rfl | h
      · exact List.mem_cons_self
      · exact List.mem_cons_of_mem _ (ih h)
  | dir m sub rest _ ih => exact List.mem_cons_of_mem _ (ih h)

/-- A file in a sub-directory has that directory's name in front, and more behind it. -/
theorem exists_of_mem_subFiles {l : Listing} {p : List Name} (h : p ∈ l.subFiles) :
    ∃ n q, p = n :: q ∧ q ≠ [] ∧ n ∈ l.names := by
  induction l generalizing p with
  | nil => simp [subFiles] at h
  | file m rest ih =>
      obtain ⟨n, q, rfl, hq, hn⟩ := ih h
      exact ⟨n, q, rfl, hq, List.mem_cons_of_mem _ hn⟩
  | dir m sub rest _ ih =>
      unfold subFiles at h
      rcases List.mem_append.mp h with h | h
      · obtain ⟨q, hq, rfl⟩ := List.mem_map.mp h
        exact ⟨m, q, rfl, (mem_files_iff.mp hq).ne_nil, List.mem_cons_self⟩
      · obtain ⟨n, q, rfl, hq, hn⟩ := ih h
        exact ⟨n, q, rfl, hq, List.mem_cons_of_mem _ hn⟩

theorem fileNames_nodup {l : Listing} (h : l.WellFormed) : l.fileNames.Nodup := by
  induction l with
  | nil => exact List.nodup_nil
  | file n rest ih =>
      exact List.nodup_cons.mpr ⟨fun hn => h.1 (mem_names_of_mem_fileNames hn), ih h.2⟩
  | dir n sub rest _ ih => exact ih h.2.2

/-- A directory's own files and those below it never share a component list. -/
theorem files_nodup_of {l : Listing} (h : l.WellFormed) (hsub : l.subFiles.Nodup) :
    l.files.Nodup := by
  apply List.Nodup.append
  · exact (fileNames_nodup h).map (fun _ _ heq => by simpa using heq)
  · exact hsub
  · intro p hp hp'
    obtain ⟨n, -, rfl⟩ := List.mem_map.mp hp
    obtain ⟨m, q, heq, hq, -⟩ := exists_of_mem_subFiles hp'
    cases heq
    exact hq rfl

theorem subFiles_nodup {l : Listing} (h : l.WellFormed) : l.subFiles.Nodup := by
  induction l with
  | nil => exact List.nodup_nil
  | file n rest ih => exact ih h.2
  | dir n sub rest ihs ihr =>
      have hsub : sub.files.Nodup := files_nodup_of h.2.1 (ihs h.2.1)
      apply List.Nodup.append
      · exact hsub.map (fun _ _ heq => (List.cons.inj heq).2)
      · exact ihr h.2.2
      · intro p hp hp'
        obtain ⟨q, -, rfl⟩ := List.mem_map.mp hp
        obtain ⟨m, q', heq, -, hm⟩ := exists_of_mem_subFiles hp'
        cases heq
        exact h.1 hm

/-- **No file is listed twice.** -/
theorem files_nodup {l : Listing} (h : l.WellFormed) : l.files.Nodup :=
  files_nodup_of h (subFiles_nodup h)

end Listing

/-- A directory tree: its listing, with unique names throughout. -/
structure Dir where
  listing : Listing
  wellFormed : listing.WellFormed

/-! ## `os.walk` -/

/-- One item of `os.walk`: the directory's path, its sub-directories, its files. -/
structure Visit where
  dir : Path
  dirNames : List Text
  fileNames : List Text

/-- The visit of the directory at `top` with entries `l`. -/
def visit (top : Path) (l : Listing) : Visit :=
  ⟨top, l.dirNames.map Name.text, l.fileNames.map Name.text⟩

/-- The visits below the directory at `top`: each sub-directory, then what is below that. -/
def walkSubs (top : Path) : Listing → List Visit
  | .nil => []
  | .file _ rest => walkSubs top rest
  | .dir n sub rest =>
      visit (join top n.text) sub :: walkSubs (join top n.text) sub ++ walkSubs top rest

/-- `os.walk(top)` over the tree `l` found at `top`. -/
def walk (top : Path) (l : Listing) : List Visit := visit top l :: walkSubs top l

/-- The paths of the files of one visit. -/
def Visit.paths (v : Visit) : List Path := v.fileNames.map (join v.dir)

theorem visit_paths (top : Path) (l : Listing) :
    (visit top l).paths = (l.fileNames.map ([·])).map (render top) := by
  simp only [Visit.paths, visit, List.map_map]
  rfl

theorem walkSubs_paths (top : Path) (l : Listing) :
    (walkSubs top l).flatMap Visit.paths = l.subFiles.map (render top) := by
  induction l generalizing top with
  | nil => rfl
  | file n rest ih => exact ih top
  | dir n sub rest ihs ihr =>
      have hsub : (visit (join top n.text) sub).paths ++
            (walkSubs (join top n.text) sub).flatMap Visit.paths =
          ((sub.fileNames.map ([·]) ++ sub.subFiles).map (n :: ·)).map (render top) := by
        rw [visit_paths, ihs, ← List.map_append, List.map_map]
        rfl
      unfold walkSubs Listing.subFiles
      rw [List.cons_append, List.flatMap_cons, List.flatMap_append, ihr, ← List.append_assoc,
        hsub, ← List.map_append]

/-- **The walk reaches every file**: the joined paths are the rendered files, in order. -/
theorem walk_paths (top : Path) (l : Listing) :
    (walk top l).flatMap Visit.paths = l.files.map (render top) := by
  rw [walk, List.flatMap_cons, visit_paths, walkSubs_paths, ← List.map_append]
  rfl

/-- In a well-formed tree no path comes up twice. -/
theorem rendered_nodup (top : Path) {l : Listing} (h : l.WellFormed) :
    (l.files.map (render top)).Nodup := by
  apply (Listing.files_nodup h).map_on
  intro p hp q hq heq
  exact render_injective (Listing.mem_files_iff.mp hp).ne_nil (Listing.mem_files_iff.mp hq).ne_nil
    heq

end CryptoScan.Python
