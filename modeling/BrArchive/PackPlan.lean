import BrArchive.OrderedMap
import BrArchive.TreeDir

/-! # The plan of the packer

`file_set_add_dirs` and `make_tree` of `bra_fs.cpp`, and the loop of `Bra::run_prog` that
writes the entries: the input files with all their directories are put into a map from
each directory to its files, and the order of the map is the order of the archive.  A path
is the sequence of its elements.
-/
namespace BrArchive

/-- Strings compare byte by byte. -/
instance : LinearOrder CStr where
  le a b := a.bytes ≤ b.bytes
  lt a b := a.bytes < b.bytes
  le_refl a := le_refl a.bytes
  le_trans _ _ _ h h' := le_trans (α := Bytes) h h'
  le_antisymm _ _ h h' := CStr.ext (le_antisymm h h')
  le_total a b := le_total a.bytes b.bytes
  lt_iff_le_not_ge a b := lt_iff_le_not_ge (a := a.bytes) (b := b.bytes)
  toDecidableLE a b := inferInstanceAs (Decidable (a.bytes ≤ b.bytes))
  toDecidableEq := inferInstance

/-- `std::filesystem::path`, which compares element by element. -/
abbrev FsPath := List CStr

/-- The path `"."`. -/
def dotPath : FsPath := [CStr.ofBuffer [46]]

/-- `path::parent_path` of a relative path. -/
def parentPath (f : FsPath) : FsPath := f.dropLast

/-- `path::filename`. -/
def filename (f : FsPath) : FsPath := f.getLast?.toList

section Packer
variable (trySanitize : FsPath → Option FsPath) (dirExists fileExists : FsPath → Bool)

/-! ## `file_set_add_dirs` -/

/-- The loop over the elements of a path, which inserts every prefix. -/
def insertPrefixes (files : OrderedSet FsPath) (p_ : FsPath) :
    List CStr → OrderedSet FsPath × FsPath
  | [] => (files, p_)
  | p :: f_ => insertPrefixes (OrderedSet.insert files (p_ ++ [p])) (p_ ++ [p]) f_

/-- The loop over the list of the files. -/
def addDirsLoop (files : OrderedSet FsPath) : List FsPath → Option (OrderedSet FsPath)
  | [] => some files
  | f :: listFiles =>
    if f = dotPath then addDirsLoop files listFiles
    else if !dirExists f && !fileExists f then none
    else
      match trySanitize f with
      | none => none
      | some f_ =>
        let (files, p_) := insertPrefixes files [] f_
        if p_ ≠ f_ then none else addDirsLoop files listFiles

/-- `file_set_add_dirs`. -/
def fileSetAddDirs (files : OrderedSet FsPath) : Option (OrderedSet FsPath) :=
  match addDirsLoop trySanitize dirExists fileExists .empty files.keys with
  | none => none
  | some files => if files.keys.length > 2 ^ 32 - 1 then none else some files

/-! ## `make_tree` -/

/-- The map from directories to their files. -/
abbrev PackTree := OrderedMap FsPath (OrderedSet FsPath)

/-- `tree.insert({f, {}})`: a directory that is there stays as it is. -/
def PackTree.addDir (tree : PackTree) (f : FsPath) : PackTree :=
  tree.alter f fun files => files.getD .empty

/-- `tree[d].insert(f)`. -/
def PackTree.addFile (tree : PackTree) (d f : FsPath) : PackTree :=
  tree.alter d fun files => OrderedSet.insert (files.getD .empty) f

/-- The loop of `make_tree`. -/
def makeTreeLoop (tree : PackTree) (outTreeSize : Nat) : List FsPath → Option (PackTree × Nat)
  | [] => some (tree, outTreeSize)
  | f :: setFiles =>
    if dirExists f then makeTreeLoop (tree.addDir f) (outTreeSize + 1) setFiles
    else if fileExists f then
      makeTreeLoop (tree.addFile (parentPath f) (filename f)) (outTreeSize + 1) setFiles
    else none

/-- `make_tree`. -/
def makeTree (setFiles : OrderedSet FsPath) : Option (PackTree × Nat) :=
  makeTreeLoop dirExists fileExists .empty 0 setFiles.keys

/-! ## Writing the entries -/

/-- `Bra::run_encode`: the path of the entry that is written, if that succeeds. -/
def runEncode (p : FsPath) : Option FsPath := trySanitize p

/-- The entry of a directory, unless it is the current one. -/
def runDir (dir : FsPath) : Option (List FsPath) :=
  if dir = [] then some [] else (runEncode trySanitize dir).map ([·])

/-- The loop over the files of a directory. -/
def runFiles (dir : FsPath) : List FsPath → Option (List FsPath)
  | [] => some []
  | fn :: files => do
    let p ← runEncode trySanitize (dir ++ fn)
    let written ← runFiles dir files
    return p :: written

/-- The loop over the directories of `Bra::run_prog`: first the directory, then its files. -/
def runDirs : List (FsPath × OrderedSet FsPath) → Option (List FsPath)
  | [] => some []
  | (dir, files) :: tree => do
    let first ← runDir trySanitize dir
    let written ← runFiles trySanitize dir files.keys
    let rest ← runDirs tree
    return first ++ written ++ rest

/-- The paths of the entries that `Bra::run_prog` writes, one after the other. -/
def runProg (tree : PackTree) : Option (List FsPath) := runDirs trySanitize tree.entries

/-! ## What the two passes compute -/

variable {trySanitize dirExists fileExists}

theorem insertPrefixes_spec (files : OrderedSet FsPath) (p_ : FsPath) (f_ : List CStr) :
    (insertPrefixes files p_ f_).2 = p_ ++ f_ ∧
      ∀ g, g ∈ (insertPrefixes files p_ f_).1.keys ↔
        g ∈ files.keys ∨ ∃ q, q ≠ [] ∧ q <+: f_ ∧ g = p_ ++ q := by
  induction f_ generalizing files p_ with
  | nil =>
    refine ⟨(List.append_nil p_).symm, fun g => ⟨.inl, ?_⟩⟩
    rintro (hg | ⟨q, hne, hq, -⟩)
    · exact hg
    · exact absurd (List.prefix_nil.mp hq) hne
  | cons p f_ ih =>
    obtain ⟨hpath, hmem⟩ := ih (OrderedSet.insert files (p_ ++ [p])) (p_ ++ [p])
    refine ⟨hpath.trans (List.append_assoc ..), fun g => ?_⟩
    rw [insertPrefixes, hmem, OrderedSet.mem_insert]
    constructor
    · rintro ((rfl | hg) | ⟨q, -, hq, rfl⟩)
      · exact .inr ⟨[p], by simp, by simp, rfl⟩
      · exact .inl hg
      · exact .inr ⟨p :: q, by simp, List.cons_prefix_cons.mpr ⟨rfl, hq⟩, by simp⟩
    · rintro (hg | ⟨q, hne, hq, rfl⟩)
      · exact .inl (.inr hg)
      · obtain ⟨p', q, rfl⟩ := List.exists_cons_of_ne_nil hne
        obtain ⟨rfl, hq'⟩ := List.cons_prefix_cons.mp hq
        -- a prefix of one component is the path inserted in this round
        by_cases hnil : q = []
        · subst hnil
          exact .inl (.inl rfl)
        · exact .inr ⟨q, hnil, hq', by simp⟩

/-- The paths that an input path stands for: its sanitized form and the directories on the
way to it. -/
def Implied (trySanitize : FsPath → Option FsPath) (files : List FsPath) (g : FsPath) : Prop :=
  ∃ f ∈ files, f ≠ dotPath ∧ ∃ f_, trySanitize f = some f_ ∧ g ≠ [] ∧ g <+: f_

theorem addDirsLoop_spec {files s : OrderedSet FsPath} {l : List FsPath}
    (h : addDirsLoop trySanitize dirExists fileExists files l = some s) (g : FsPath) :
    g ∈ s.keys ↔ g ∈ files.keys ∨ Implied trySanitize l g := by
  induction l generalizing files with
  | nil =>
    obtain rfl := Option.some.inj h
    simp [Implied]
  | cons f l ih =>
    -- a path implies all its ancestors and itself, except for "."
    have hcons : Implied trySanitize (f :: l) g ↔
        (f ≠ dotPath ∧ ∃ f_, trySanitize f = some f_ ∧ g ≠ [] ∧ g <+: f_) ∨
          Implied trySanitize l g := by
      simp only [Implied, List.mem_cons, or_and_right, exists_or, exists_eq_left]
    rw [addDirsLoop] at h
    rw [hcons]
    split at h
    · rename_i hdot
      rw [ih h]
      simp [hdot]
    · rename_i hdot
      split at h
      · cases h
      · split at h
        · cases h
        · rename_i f_ hf
          obtain ⟨-, hmem⟩ := insertPrefixes_spec files [] f_
          simp only at h
          split at h
          · cases h
          · rw [ih h, hmem, hf, or_assoc]
            simp [hdot]

/-- The set between the two passes: all paths that the input implies. -/
theorem fileSetAddDirs_spec {files s : OrderedSet FsPath}
    (h : fileSetAddDirs trySanitize dirExists fileExists files = some s) :
    s.keys.length < 2 ^ 32 ∧ ∀ g, g ∈ s.keys ↔ Implied trySanitize files.keys g := by
  rw [fileSetAddDirs] at h
  split at h
  · cases h
  · rename_i s' hloop
    split at h
    · cases h
    · obtain rfl := Option.some.inj h
      refine ⟨by omega, fun g => ?_⟩
      rw [addDirsLoop_spec hloop]
      simp

/-- The files of a directory in the tree. -/
def PackTree.files (tree : PackTree) (d : FsPath) : List FsPath :=
  ((tree.lookup d).getD .empty).keys

theorem PackTree.mem_files_addDir {tree : PackTree} {f d x : FsPath} :
    x ∈ (tree.addDir f).files d ↔ x ∈ tree.files d := by
  rw [files, addDir, OrderedMap.lookup_alter, files]
  split
  · rename_i h
    rw [h, Option.getD_some]
  · rfl

theorem PackTree.mem_files_addFile {tree : PackTree} {d d' f x : FsPath} :
    x ∈ (tree.addFile d f).files d' ↔ (d' = d ∧ x = f) ∨ x ∈ tree.files d' := by
  rw [files, addFile, OrderedMap.lookup_alter, files]
  split
  · rename_i h
    rw [Option.getD_some, OrderedSet.mem_insert, h]
    simp
  · rename_i h
    simp [h]

theorem makeTreeLoop_spec {tree tree' : PackTree} {n n' : Nat} {l : List FsPath}
    (h : makeTreeLoop dirExists fileExists tree n l = some (tree', n')) :
    n' = n + l.length ∧ (∀ f ∈ l, dirExists f ∨ fileExists f) ∧
      (∀ d, d ∈ tree'.keys ↔ d ∈ tree.keys ∨
        ∃ f ∈ l, if dirExists f then d = f else d = parentPath f) ∧
      ∀ d x, x ∈ tree'.files d ↔ x ∈ tree.files d ∨
        ∃ f ∈ l, ¬ dirExists f ∧ d = parentPath f ∧ x = filename f := by
  induction l generalizing tree n with
  | nil =>
    obtain ⟨rfl, rfl⟩ := Prod.mk.inj (Option.some.inj h)
    simp
  | cons f l ih =>
    rw [makeTreeLoop] at h
    split at h
    · rename_i hdir
      obtain ⟨rfl, hexist, hkeys, hfiles⟩ := ih h
      refine ⟨by rw [List.length_cons]; omega, by simpa [hdir] using hexist, fun d => ?_,
        fun d x => ?_⟩
      · rw [hkeys, PackTree.addDir, OrderedMap.mem_keys_alter, or_assoc, or_left_comm]
        simp [hdir]
      · rw [hfiles, PackTree.mem_files_addDir]
        simp [hdir]
    · split at h
      · rename_i hdir hfile
        obtain ⟨rfl, hexist, hkeys, hfiles⟩ := ih h
        refine ⟨by rw [List.length_cons]; omega, by simpa [hfile] using hexist, fun d => ?_,
          fun d x => ?_⟩
        · rw [hkeys, PackTree.addFile, OrderedMap.mem_keys_alter, or_assoc, or_left_comm]
          simp [hdir]
        · rw [hfiles, PackTree.mem_files_addFile, or_assoc, or_left_comm]
          simp [hdir]
      · cases h

/-! ## The order of the entries -/

/-- The paths the packer visits: each directory but the current one, then its files. -/
def entryPaths (entries : List (FsPath × OrderedSet FsPath)) : List FsPath :=
  entries.flatMap fun e => (if e.1 = [] then [] else [e.1]) ++ e.2.keys.map (e.1 ++ ·)

theorem runFiles_eq {dir : FsPath} {files : List FsPath}
    (h : ∀ x ∈ files, trySanitize (dir ++ x) = some (dir ++ x)) :
    runFiles trySanitize dir files = some (files.map (dir ++ ·)) := by
  induction files with
  | nil => rfl
  | cons x files ih =>
    obtain ⟨hx, hfiles⟩ := List.forall_mem_cons.mp h
    simp only [runFiles, runEncode, hx, ih hfiles, Option.bind_eq_bind, Option.bind_some,
      Option.pure_def, List.map_cons]

/-- Sanitizing the paths again changes nothing. -/
theorem runDirs_eq {entries : List (FsPath × OrderedSet FsPath)}
    (h : ∀ g ∈ entryPaths entries, trySanitize g = some g) :
    runDirs trySanitize entries = some (entryPaths entries) := by
  induction entries with
  | nil => rfl
  | cons e entries ih =>
    obtain ⟨dir, files⟩ := e
    have hcons : entryPaths ((dir, files) :: entries) =
        (if dir = [] then [] else [dir]) ++ files.keys.map (dir ++ ·) ++ entryPaths entries :=
      List.flatMap_cons
    rw [hcons] at h ⊢
    obtain ⟨hfirst, hrest⟩ := List.forall_mem_append.mp h
    obtain ⟨hdir, hfiles⟩ := List.forall_mem_append.mp hfirst
    have hwritten : runFiles trySanitize dir files.keys = some (files.keys.map (dir ++ ·)) :=
      runFiles_eq fun x hx => hfiles _ (List.mem_map_of_mem hx)
    have hhead : runDir trySanitize dir = some (if dir = [] then [] else [dir]) := by
      rw [runDir]
      split
      · rfl
      · rename_i hne
        rw [if_neg hne] at hdir
        rw [runEncode, hdir dir List.mem_cons_self]
        rfl
    simp only [runDirs, hhead, hwritten, ih hrest, Option.bind_eq_bind, Option.bind_some,
      Option.pure_def]

theorem parentPath_append_filename (f : FsPath) : parentPath f ++ filename f = f := by
  rcases List.eq_nil_or_concat' f with rfl | ⟨l, c, rfl⟩
  · rfl
  · simp [parentPath, filename]

theorem lt_of_prefix {a d : FsPath} (h : a <+: d) (hne : a ≠ d) : a < d := by
  obtain ⟨r, rfl⟩ := h
  induction a with
  | nil =>
    cases r with
    | nil => exact absurd rfl hne
    | cons c r => exact List.nil_lt_cons c r
  | cons c a ih =>
    refine List.cons_lt_cons_iff.mpr (.inr ⟨rfl, ih fun h => hne ?_⟩)
    rw [List.cons_append, ← h]

/-- The entries of an archive in an order in which they can be written and extracted: each
once, every directory after those it lies in, and every file after its own directory with
only files in between. -/
structure IsPlan (dirExists : FsPath → Bool) (planned : FsPath → Prop) (paths : List FsPath) :
    Prop where
  nodup : paths.Nodup
  mem_iff : ∀ g, g ∈ paths ↔ planned g
  ancestors_first : ∀ d ∈ paths, dirExists d → ∀ a, a ≠ [] → a <+: d → a ≠ d →
    ∃ xs ys zs, paths = xs ++ a :: ys ++ d :: zs
  parent_first : ∀ g ∈ paths, ¬ dirExists g → parentPath g ≠ [] →
    ∃ xs ys zs, paths = xs ++ parentPath g :: ys ++ g :: zs ∧ ∀ y ∈ ys, ¬ dirExists y
  files_first : ∀ g ∈ paths, ¬ dirExists g → parentPath g = [] →
    ∃ xs zs, paths = xs ++ g :: zs ∧ ∀ x ∈ xs, ¬ dirExists x

/-- A set of paths with every directory on the way to one of them. -/
structure IsClosed (dirExists : FsPath → Bool) (s : OrderedSet FsPath) : Prop where
  ne_nil : ∀ g ∈ s.keys, g ≠ []
  ancestors : ∀ g ∈ s.keys, ∀ a, a ≠ [] → a <+: g → a ≠ g → a ∈ s.keys ∧ dirExists a

section Tree
variable {s : OrderedSet FsPath} {tree : PackTree} {n : Nat}
  (hs : IsClosed dirExists s) (htree : makeTree dirExists fileExists s = some (tree, n))
include hs htree

/-- The keys are the directories of the set, and maybe the current directory. -/
theorem mem_keys_makeTree {d : FsPath} (hne : d ≠ []) :
    d ∈ tree.keys ↔ d ∈ s.keys ∧ dirExists d := by
  obtain ⟨-, -, hkeys, -⟩ := makeTreeLoop_spec htree
  rw [hkeys, or_iff_right OrderedMap.mem_keys_empty]
  constructor
  · rintro ⟨f, hf, hd⟩
    split at hd
    · rename_i hdir
      subst hd
      exact ⟨hf, hdir⟩
    · subst hd
      refine hs.ancestors f hf _ hne (List.dropLast_prefix f) fun heq => ?_
      have hlen := congrArg List.length heq
      have hpos := List.length_pos_iff.mpr (hs.ne_nil f hf)
      rw [parentPath, List.length_dropLast] at hlen
      omega
  · rintro ⟨hd, hdir⟩
    exact ⟨d, hd, by rw [if_pos hdir]⟩

omit hs in
/-- The files of a directory are those of the set. -/
theorem mem_files_makeTree {d x : FsPath} :
    x ∈ tree.files d ↔ ∃ f ∈ s.keys, ¬ dirExists f ∧ d = parentPath f ∧ x = filename f := by
  obtain ⟨-, -, -, hfiles⟩ := makeTreeLoop_spec htree
  rw [hfiles]
  simp [PackTree.files]

omit hs in
theorem file_of_mem_files {d x : FsPath} (h : x ∈ tree.files d) :
    d ++ x ∈ s.keys ∧ ¬ dirExists (d ++ x) ∧ parentPath (d ++ x) = d := by
  obtain ⟨f, hf, hfile, rfl, rfl⟩ := (mem_files_makeTree htree).mp h
  rw [parentPath_append_filename]
  exact ⟨hf, hfile, rfl⟩

omit hs htree in
/-- What is visited: the keys, but for the current directory, and all files of a key. -/
theorem mem_entryPaths {g : FsPath} :
    g ∈ entryPaths tree.entries ↔
      (g ∈ tree.keys ∧ g ≠ []) ∨ ∃ d ∈ tree.keys, ∃ x ∈ tree.files d, g = d ++ x := by
  simp only [entryPaths, List.mem_flatMap, List.mem_append, List.mem_map]
  constructor
  · rintro ⟨⟨d, files⟩, he, hg | ⟨x, hx, rfl⟩⟩
    · split at hg
      · cases hg
      · obtain rfl := List.mem_singleton.mp hg
        exact .inl ⟨List.mem_map_of_mem he, ‹_›⟩
    · have hfiles : tree.files d = files.keys := by
        rw [PackTree.files, OrderedMap.mem_entries_iff.mp he, Option.getD_some]
      exact .inr ⟨d, List.mem_map_of_mem he, x, hfiles ▸ hx, rfl⟩
  · rintro (⟨hg, hne⟩ | ⟨d, hd, x, hx, rfl⟩)
    · obtain ⟨files, hfiles⟩ := OrderedMap.mem_keys_iff.mp hg
      exact ⟨(g, files), OrderedMap.mem_entries_iff.mpr hfiles, .inl (by simp [hne])⟩
    · obtain ⟨files, hfiles⟩ := OrderedMap.mem_keys_iff.mp hd
      rw [PackTree.files, hfiles, Option.getD_some] at hx
      exact ⟨(d, files), OrderedMap.mem_entries_iff.mpr hfiles, .inr ⟨x, hx, rfl⟩⟩

/-- **Everything in the set is visited, and nothing else.** -/
theorem mem_entryPaths_makeTree {g : FsPath} : g ∈ entryPaths tree.entries ↔ g ∈ s.keys := by
  rw [mem_entryPaths]
  constructor
  · rintro (⟨hg, hne⟩ | ⟨d, -, x, hx, rfl⟩)
    · exact ((mem_keys_makeTree hs htree hne).mp hg).1
    · exact (file_of_mem_files htree hx).1
  · intro hg
    by_cases hdir : dirExists g = true
    · exact .inl ⟨(mem_keys_makeTree hs htree (hs.ne_nil g hg)).mpr ⟨hg, hdir⟩, hs.ne_nil g hg⟩
    · have hx : filename g ∈ tree.files (parentPath g) :=
        (mem_files_makeTree htree).mpr ⟨g, hg, hdir, rfl, rfl⟩
      obtain ⟨-, -, hkeys, -⟩ := makeTreeLoop_spec htree
      exact .inr ⟨parentPath g, (hkeys _).mpr (.inr ⟨g, hg, by rw [if_neg hdir]⟩), _, hx,
        (parentPath_append_filename g).symm⟩

/-- A directory is not among the files of one. -/
theorem ne_file_of_key {d d' x : FsPath} (hd : d ∈ tree.keys) (hne : d ≠ [])
    (hx : x ∈ tree.files d') : d ≠ d' ++ x := by
  rintro rfl
  exact (file_of_mem_files htree hx).2.1 ((mem_keys_makeTree hs htree hne).mp hd).2

/-- **Nothing is visited twice.** -/
theorem nodup_entryPaths : (entryPaths tree.entries).Nodup := by
  have hfiles : ∀ e ∈ tree.entries, e.1 ∈ tree.keys ∧ tree.files e.1 = e.2.keys := by
    intro e he
    refine ⟨List.mem_map_of_mem he, ?_⟩
    rw [PackTree.files, OrderedMap.mem_entries_iff.mp he, Option.getD_some]
  have hsorted : tree.entries.Pairwise fun e e' => e.1 < e'.1 := List.pairwise_map.mp tree.sorted
  refine List.nodup_flatMap.mpr ⟨fun e he => ?_, hsorted.imp_of_mem fun {e e'} he he' hlt => ?_⟩
  · obtain ⟨hkey, hkeys⟩ := hfiles e he
    refine List.nodup_append'.mpr ⟨by split <;> simp, ?_, fun g hg hg' => ?_⟩
    · exact e.2.nodup_keys.map fun x y h => List.append_cancel_left h
    · obtain ⟨x, hx, rfl⟩ := List.mem_map.mp hg'
      split at hg
      · cases hg
      · exact ne_file_of_key hs htree hkey ‹_› (hkeys ▸ hx) (List.mem_singleton.mp hg).symm
  · -- two keys share neither their directory nor a file
    obtain ⟨hkey, hkeys⟩ := hfiles e he
    obtain ⟨hkey', hkeys'⟩ := hfiles e' he'
    intro g hg hg'
    rcases List.mem_append.mp hg with hg | hg <;> rcases List.mem_append.mp hg' with hg' | hg'
    · split at hg
      · cases hg
      · split at hg'
        · cases hg'
        · exact hlt.ne ((List.mem_singleton.mp hg).symm.trans (List.mem_singleton.mp hg'))
    · obtain ⟨x, hx, rfl⟩ := List.mem_map.mp hg'
      split at hg
      · cases hg
      · exact ne_file_of_key hs htree hkey ‹_› (hkeys' ▸ hx) (List.mem_singleton.mp hg).symm
    · obtain ⟨x, hx, rfl⟩ := List.mem_map.mp hg
      split at hg'
      · cases hg'
      · exact ne_file_of_key hs htree hkey' ‹_› (hkeys ▸ hx) (List.mem_singleton.mp hg').symm
    · obtain ⟨x, hx, rfl⟩ := List.mem_map.mp hg
      obtain ⟨x', hx', heq⟩ := List.mem_map.mp hg'
      have hparent := (file_of_mem_files htree (hkeys ▸ hx)).2.2
      have hparent' := (file_of_mem_files htree (hkeys' ▸ hx')).2.2
      rw [heq, hparent] at hparent'
      exact hlt.ne hparent'

/-- The count of the tree is the number of entries. -/
theorem length_entryPaths : (entryPaths tree.entries).length = n := by
  obtain ⟨hlen, -⟩ := makeTreeLoop_spec htree
  have hperm : (entryPaths tree.entries).Perm s.keys :=
    (List.perm_ext_iff_of_nodup (nodup_entryPaths hs htree) s.nodup_keys).mpr fun g =>
      mem_entryPaths_makeTree hs htree
  rw [hperm.length_eq, hlen, Nat.zero_add]

omit hs htree in
/-- The walk around a key. -/
theorem entryPaths_split {l₁ l₂ : List (FsPath × OrderedSet FsPath)} {d : FsPath}
    {files : OrderedSet FsPath} :
    entryPaths (l₁ ++ (d, files) :: l₂) = entryPaths l₁ ++
      ((if d = [] then [] else [d]) ++ files.keys.map (d ++ ·) ++ entryPaths l₂) := by
  rw [entryPaths, List.flatMap_append, List.flatMap_cons]
  rfl

omit hs in
/-- The walk around a file: what comes after its directory are files. -/
theorem exists_split_file {g : FsPath} (hg : g ∈ s.keys) (hfile : ¬ dirExists g) :
    ∃ l₁ ys zs, entryPaths tree.entries = entryPaths l₁ ++
        ((if parentPath g = [] then [] else [parentPath g]) ++ ys ++ g :: zs) ∧
      (∀ y ∈ ys, ¬ dirExists y) ∧ ∀ k ∈ l₁.map Prod.fst, k < parentPath g := by
  have hx : filename g ∈ tree.files (parentPath g) :=
    (mem_files_makeTree htree).mpr ⟨g, hg, hfile, rfl, rfl⟩
  cases hlookup : tree.lookup (parentPath g) with
  | none =>
    rw [PackTree.files, hlookup] at hx
    cases hx
  | some files =>
    obtain ⟨l₁, l₂, hentries, hbefore⟩ := OrderedMap.exists_split hlookup
    have hkeys : tree.files (parentPath g) = files.keys := by
      rw [PackTree.files, hlookup, Option.getD_some]
    obtain ⟨xs, xs', hxs⟩ := List.append_of_mem (hkeys ▸ hx)
    refine ⟨l₁, xs.map (parentPath g ++ ·), xs'.map (parentPath g ++ ·) ++ entryPaths l₂, ?_, ?_,
      fun k hk => ((hbefore k).mp hk).2⟩
    · rw [hentries, entryPaths_split, hxs, List.map_append, List.map_cons,
        parentPath_append_filename]
      simp only [List.append_assoc, List.cons_append]
    · intro y hy
      obtain ⟨x, hx, rfl⟩ := List.mem_map.mp hy
      refine (file_of_mem_files htree (d := parentPath g) ?_).2.1
      rw [hkeys, hxs]
      exact List.mem_append_left _ hx

/-- **The order of the map is an order in which entries can be written.** -/
theorem entryPaths_isPlan : IsPlan dirExists (· ∈ s.keys) (entryPaths tree.entries) where
  nodup := nodup_entryPaths hs htree
  mem_iff _ := mem_entryPaths_makeTree hs htree
  ancestors_first d hd hdir a ha hpre hne := by
    have hds := (mem_entryPaths_makeTree hs htree).mp hd
    obtain ⟨has, hadir⟩ := hs.ancestors d hds a ha hpre hne
    have hdne := hs.ne_nil d hds
    have hakey := (mem_keys_makeTree hs htree ha).mpr ⟨has, hadir⟩
    obtain ⟨files, hlookup⟩ :=
      OrderedMap.mem_keys_iff.mp ((mem_keys_makeTree hs htree hdne).mpr ⟨hds, hdir⟩)
    obtain ⟨l₁, l₂, hentries, hbefore⟩ := OrderedMap.exists_split hlookup
    -- a prefix is smaller, so that its key comes earlier
    obtain ⟨⟨a', files'⟩, he, rfl⟩ := List.mem_map.mp ((hbefore a).mpr ⟨hakey, lt_of_prefix hpre hne⟩)
    obtain ⟨m₁, m₂, rfl⟩ := List.append_of_mem he
    refine ⟨entryPaths m₁, files'.keys.map (a' ++ ·) ++ entryPaths m₂,
      files.keys.map (d ++ ·) ++ entryPaths l₂, ?_⟩
    rw [hentries, entryPaths_split, entryPaths_split, if_neg ha, if_neg hdne]
    simp only [List.append_assoc, List.cons_append, List.nil_append]
  parent_first g hg hfile hparent := by
    obtain ⟨l₁, ys, zs, hsplit, hys, -⟩ :=
      exists_split_file htree ((mem_entryPaths_makeTree hs htree).mp hg) hfile
    refine ⟨entryPaths l₁, ys, zs, ?_, hys⟩
    rw [hsplit, if_neg hparent]
    simp only [List.append_assoc, List.cons_append, List.nil_append]
  files_first g hg hfile hparent := by
    obtain ⟨l₁, ys, zs, hsplit, hys, hbefore⟩ :=
      exists_split_file htree ((mem_entryPaths_makeTree hs htree).mp hg) hfile
    -- no key is smaller than that of the current directory
    have hnil : l₁ = [] := by
      refine List.eq_nil_iff_forall_not_mem.mpr fun e he => ?_
      have hlt := hbefore e.1 (List.mem_map_of_mem he)
      rw [hparent] at hlt
      exact List.not_lt_nil _ hlt
    refine ⟨ys, zs, ?_, hys⟩
    rw [hsplit, hnil, if_pos hparent]
    rfl

end Tree

/-! ## From the input to the archive -/

/-- The set without the files that `validateArgs` takes out. -/
def eraseFiles (s : OrderedSet FsPath) (removed : List FsPath) : OrderedSet FsPath :=
  removed.foldl OrderedMap.erase s

theorem mem_eraseFiles {s : OrderedSet FsPath} {removed : List FsPath} {g : FsPath} :
    g ∈ (eraseFiles s removed).keys ↔ g ∈ s.keys ∧ g ∉ removed := by
  induction removed generalizing s with
  | nil => simp [eraseFiles]
  | cons r removed ih =>
    have hcons : eraseFiles s (r :: removed) = eraseFiles (s.erase r) removed := rfl
    rw [hcons, ih, OrderedMap.mem_keys_erase, List.mem_cons, not_or, and_assoc]

theorem length_eraseFiles_le (s : OrderedSet FsPath) (removed : List FsPath) :
    (eraseFiles s removed).keys.length ≤ s.keys.length := by
  induction removed generalizing s with
  | nil => exact Nat.le_refl _
  | cons r removed ih => exact Nat.le_trans (ih (s.erase r)) (s.length_keys_erase_le r)

/-- A normal relative path: `"."`, or names other than `"."` and `".."`. -/
def IsNormal (g : FsPath) : Prop :=
  g = dotPath ∨ g ≠ [] ∧ ∀ c ∈ g, IsComponent c ∧ c.bytes ≠ [46] ∧ c.bytes ≠ [46, 46]

/-- What is assumed of `try_sanitize`: it returns the normal relative path, if it is asked about
one of the paths `asked`. -/
structure Sanitizes (trySanitize : FsPath → Option FsPath) (asked : FsPath → Prop) : Prop where
  normal : ∀ f, asked f → ∀ g, trySanitize f = some g → IsNormal g
  normal_self : ∀ g, IsNormal g → trySanitize g = some g

theorem IsNormal.ancestor {a g : FsPath} (hg : IsNormal g) (hne : a ≠ []) (h : a <+: g) :
    IsNormal a := by
  rcases hg with rfl | ⟨-, hnames⟩
  · obtain ⟨c, a, rfl⟩ := List.exists_cons_of_ne_nil hne
    obtain ⟨rfl, hnil⟩ := List.cons_prefix_cons.mp h
    rw [List.prefix_nil.mp hnil]
    exact .inl rfl
  · exact .inr ⟨hne, fun c hc => hnames c (h.subset hc)⟩

/-- What normal paths imply is normal. -/
theorem Implied.normal {files : List FsPath} (hsanitize : Sanitizes trySanitize (· ∈ files))
    {g : FsPath} (h : Implied trySanitize files g) : g ≠ [] ∧ IsNormal g := by
  obtain ⟨f, hf, -, f_, hf_, hne, hpre⟩ := h
  exact ⟨hne, (hsanitize.normal f hf f_ hf_).ancestor hne hpre⟩

/-- **The plan is complete, ordered and counted**: whatever files are taken out between the
two passes, all other paths that the input implies are written, each once, in an order in
which they can be extracted, and their number is the one in the header of the archive. -/
theorem packPlan_complete {files s : OrderedSet FsPath} {removed : List FsPath}
    {tree : PackTree} {n : Nat} (hsanitize : Sanitizes trySanitize (· ∈ files.keys))
    (hprefixes : ∀ g a, dirExists g ∨ fileExists g → a ≠ [] → a <+: g → a ≠ g → dirExists a)
    (hremoved : ∀ r ∈ removed, fileExists r ∧ ¬ dirExists r)
    (hadd : fileSetAddDirs trySanitize dirExists fileExists files = some s)
    (htree : makeTree dirExists fileExists (eraseFiles s removed) = some (tree, n)) :
    ∃ paths, runProg trySanitize tree = some paths ∧
      IsPlan dirExists (fun g => Implied trySanitize files.keys g ∧ g ∉ removed) paths ∧
      paths.length = n ∧ n < 2 ^ 32 := by
  obtain ⟨hlen, hmem⟩ := fileSetAddDirs_spec hadd
  obtain ⟨hcount, hexist, -, -⟩ := makeTreeLoop_spec htree
  have hplanned : ∀ g, g ∈ (eraseFiles s removed).keys ↔
      Implied trySanitize files.keys g ∧ g ∉ removed := by
    intro g
    rw [mem_eraseFiles, hmem]
  -- an ancestor is a directory, and so no removed file: every entry finds its parents
  have hclosed : IsClosed dirExists (eraseFiles s removed) := by
    constructor
    · intro g hg
      obtain ⟨⟨-, -, -, -, -, hne, -⟩, -⟩ := (hplanned g).mp hg
      exact hne
    · intro g hg a ha hpre hne
      obtain ⟨⟨f, hf, hdot, f_, hf_, -, hg_⟩, -⟩ := (hplanned g).mp hg
      have hdir := hprefixes g a (hexist g hg) ha hpre hne
      exact ⟨(hplanned a).mpr ⟨⟨f, hf, hdot, f_, hf_, ha, hpre.trans hg_⟩,
        fun hr => (hremoved a hr).2 hdir⟩, hdir⟩
  -- what is planned is normal already, so that sanitizing it again changes nothing
  have hself : ∀ g ∈ entryPaths tree.entries, trySanitize g = some g := by
    intro g hg
    obtain ⟨himplied, -⟩ := (hplanned g).mp ((mem_entryPaths_makeTree hclosed htree).mp hg)
    exact hsanitize.normal_self g (himplied.normal hsanitize).2
  have hplan := entryPaths_isPlan hclosed htree
  refine ⟨entryPaths tree.entries, runDirs_eq hself,
    { hplan with mem_iff := fun g => (hplan.mem_iff g).trans (hplanned g) },
    length_entryPaths hclosed htree, ?_⟩
  have hle := length_eraseFiles_le s removed
  omega

end Packer

instance (g : FsPath) : Decidable (IsNormal g) := inferInstanceAs (Decidable (_ ∨ _ ∧ _))

/-- A path that is normal already. -/
def sanitizeNormal (f : FsPath) : Option FsPath := if IsNormal f then some f else none

/-- The file `a/b` and the file `c`, which is the archive and taken out. -/
theorem packPlan_complete_two :
    let a := CStr.ofBuffer [97]
    let b := CStr.ofBuffer [98]
    let c := CStr.ofBuffer [99]
    let dirExists : FsPath → Bool := fun f => f = [a]
    let fileExists : FsPath → Bool := fun f => f = [a, b] ∨ f = [c]
    let files := OrderedSet.insert (OrderedSet.insert .empty [c]) [a, b]
    ∃ s tree n, fileSetAddDirs sanitizeNormal dirExists fileExists files = some s ∧
      makeTree dirExists fileExists (eraseFiles s [[c]]) = some (tree, n) ∧
      ∃ paths, runProg sanitizeNormal tree = some paths ∧
        IsPlan dirExists (fun g => Implied sanitizeNormal files.keys g ∧ g ∉ [[c]]) paths ∧
        paths.length = n ∧ n < 2 ^ 32 := by
  intro a b c dirExists fileExists files
  have hsanitize : Sanitizes sanitizeNormal (· ∈ files.keys) := by
    constructor
    · intro f _ g h
      rw [sanitizeNormal] at h
      split at h
      · exact Option.some.inj h ▸ ‹_›
      · cases h
    · exact fun g hg => if_pos hg
  have hprefixes : ∀ g x, dirExists g ∨ fileExists g → x ≠ [] → x <+: g → x ≠ g →
      dirExists x := by
    intro g x hg hne hpre hx
    obtain ⟨y, x, rfl⟩ := List.exists_cons_of_ne_nil hne
    simp only [dirExists, fileExists, decide_eq_true_eq] at hg ⊢
    rcases hg with rfl | rfl | rfl
    · obtain ⟨rfl, hnil⟩ := List.cons_prefix_cons.mp hpre
      rw [List.prefix_nil.mp hnil]
    · obtain ⟨rfl, hrest⟩ := List.cons_prefix_cons.mp hpre
      rcases List.prefix_cons_iff.mp hrest with rfl | ⟨x', rfl, hnil⟩
      · rfl
      · rw [List.prefix_nil.mp hnil] at hx
        exact absurd rfl hx
    · obtain ⟨rfl, hnil⟩ := List.cons_prefix_cons.mp hpre
      rw [List.prefix_nil.mp hnil] at hx
      exact absurd rfl hx
  have hremoved : ∀ r ∈ [[c]], fileExists r ∧ ¬ dirExists r := by decide +kernel
  obtain ⟨s, hadd⟩ := Option.isSome_iff_exists.mp
    (show (fileSetAddDirs sanitizeNormal dirExists fileExists files).isSome by decide +kernel)
  have hbind : ((fileSetAddDirs sanitizeNormal dirExists fileExists files).bind fun s =>
      makeTree dirExists fileExists (eraseFiles s [[c]])).isSome := by decide +kernel
  rw [hadd, Option.bind_some] at hbind
  obtain ⟨⟨tree, n⟩, htree⟩ := Option.isSome_iff_exists.mp hbind
  exact ⟨s, tree, n, hadd, htree,
    packPlan_complete hsanitize hprefixes hremoved hadd htree⟩

end BrArchive
