import BrArchive.PackPlan
import BrArchive.Extraction

/-! # From one disk to another

`bra` plans what to pack, in an order of its own, and writes it; `unbra` extracts it somewhere
else.  The order of the plan is one in which the archive can be written and read, so that
there, in the end, is what the input stood for.
-/
namespace BrArchive

/-! ## A disk as the planner sees it -/

/-- `bra::fs::dir_exists` on a disk. -/
def dirOn (view : DiskView) (g : FsPath) : Bool := view (joinPath g) = some .dir

/-- `bra::fs::file_exists` on a disk. -/
def fileOn (view : DiskView) (g : FsPath) : Bool :=
  match view (joinPath g) with
  | some (.file _) => true
  | _ => false

theorem fileOn_of_dirOn {view : DiskView} {g : FsPath} (h : dirOn view g) :
    fileOn view g = false := by
  rw [fileOn, of_decide_eq_true h]

/-- What a path stands for when it is packed. -/
def entryOn (view : DiskView) (g : FsPath) : PlanEntry :=
  match view (joinPath g) with
  | some (.file contents) => .file (parentPath g) (g.getLast?.getD (CStr.ofBuffer [])) contents
  | _ => .dir (parentPath g) (g.getLast?.getD (CStr.ofBuffer []))

/-- A path that can be packed and unpacked: there is something of the right size under it, the
names fit in a record, and the check of file names accepts it. -/
structure Packable (view : DiskView) (g : FsPath) : Prop where
  ne_nil : g ≠ []
  there : dirOn view g ∨ fileOn view g
  names : ∀ c ∈ g, IsEntryName c
  length_le : (joinPath g).bytes.length ≤ 65535
  accepted : braValidateFilename (joinPath g).bytes (joinPath g).bytes.length = true
  size_lt : (entryOn view g).dataSize < 2 ^ 64

section Entry
variable {view : DiskView} {g : FsPath}

theorem entryOn_path (h : g ≠ []) : (entryOn view g).path = g := by
  have hlast : parentPath g ++ [g.getLast?.getD (CStr.ofBuffer [])] = g := by
    rw [parentPath, List.getLast?_eq_some_getLast h, Option.getD_some, List.dropLast_append_getLast]
  rw [entryOn]
  split <;> exact hlast

theorem entryOn_fn (h : g ≠ []) : (entryOn view g).fn = joinPath g := by
  rw [PlanEntry.fn, entryOn_path h]

theorem entryOn_node (h : dirOn view g ∨ fileOn view g) :
    view (joinPath g) = some (entryOn view g).node := by
  rw [entryOn]
  split
  · assumption
  · rename_i hnot
    rcases h with h | h
    · exact of_decide_eq_true h
    · rw [fileOn] at h
      split at h
      · exact absurd ‹_› (hnot _)
      · cases h

theorem Packable.valid (h : Packable view g) : (entryOn view g).Valid where
  names c hc := h.names c (entryOn_path h.ne_nil ▸ hc)
  length_le := by
    rw [entryOn_fn h.ne_nil]
    exact h.length_le
  accepted := by
    rw [entryOn_fn h.ne_nil]
    exact h.accepted
  size_lt := h.size_lt

/-- The directories among the entries are those among the paths. -/
theorem directories_entryOn {l : List FsPath} (hne : ∀ g ∈ l, g ≠ [])
    (hthere : ∀ g ∈ l, dirOn view g ∨ fileOn view g) :
    directories (l.map (entryOn view)) = l.filter (dirOn view) := by
  induction l with
  | nil => rfl
  | cons g l ih =>
    rw [List.map_cons, List.filter_cons]
    have hrest := ih (fun g' hg' => hne g' (List.mem_cons_of_mem _ hg'))
      fun g' hg' => hthere g' (List.mem_cons_of_mem _ hg')
    have hpath := @entryOn_path view g (hne g List.mem_cons_self)
    have hnode := entryOn_node (hthere g List.mem_cons_self)
    have hdir : dirOn view g = decide ((entryOn view g).node = .dir) := by
      rw [dirOn, hnode]
      simp only [Option.some.injEq]
    rw [hdir]
    cases hentry : entryOn view g with
    | dir parent name =>
      rw [hentry] at hpath
      rw [directories, hrest]
      exact congrArg (· :: _) hpath
    | file parent name contents => exact hrest

end Entry

/-! ## The plan of the packer is a plan of entries -/

section Plan
variable {view : DiskView} {planned : FsPath → Prop} {paths l₁ l₂ : List FsPath} {g : FsPath}

theorem IsPlan.split_unique {dirExists : FsPath → Bool} (hplan : IsPlan dirExists planned paths)
    (hsplit : paths = l₁ ++ g :: l₂) {xs zs : List FsPath} (h : paths = xs ++ g :: zs) :
    l₁ = xs := by
  subst hsplit
  have hnodup := List.nodup_middle.mp hplan.nodup
  rw [List.nodup_cons, List.mem_append, not_or] at hnodup
  obtain ⟨⟨hbefore, hafter⟩, -⟩ := hnodup
  exact ((List.append_cons_inj_of_notMem hbefore hafter).mp h).1

/-- An entry has its place after those before it. -/
theorem IsPlan.follows (hplan : IsPlan (dirOn view) planned paths)
    (hpack : ∀ g ∈ paths, Packable view g)
    (hparents : ∀ g ∈ paths, parentPath g ≠ [] → dirOn view (parentPath g))
    (hsplit : paths = l₁ ++ g :: l₂) : Follows (l₁.map (entryOn view)) (entryOn view g) := by
  have hg : g ∈ paths := by simp [hsplit]
  have hne := (hpack g hg).ne_nil
  have hbefore : ∀ x ∈ l₁, x ∈ paths := fun x hx => by simp [hsplit, hx]
  have hdirs : directories (l₁.map (entryOn view)) = l₁.filter (dirOn view) :=
    directories_entryOn (fun x hx => (hpack x (hbefore x hx)).ne_nil)
      fun x hx => (hpack x (hbefore x hx)).there
  have hnode := entryOn_node (hpack g hg).there
  have hpath := @entryOn_path view g hne
  cases hentry : entryOn view g with
  | dir parent name =>
    rw [hentry] at hpath hnode
    change parent ++ [name] = g at hpath
    obtain rfl : parent = parentPath g := by rw [← hpath, parentPath, List.dropLast_concat]
    have hdir : dirOn view g := decide_eq_true hnode
    refine ⟨?_, ?_⟩
    · -- the directory it lies in is an ancestor
      by_cases hroot : parentPath g = []
      · exact .inl hroot
      · have hshort : parentPath g ≠ g := fun h => by
          have hlen := congrArg List.length h
          have hpos := List.length_pos_of_ne_nil hne
          rw [parentPath, List.length_dropLast] at hlen
          omega
        obtain ⟨xs, ys, zs, hfirst⟩ :=
          hplan.ancestors_first g hg hdir (parentPath g) hroot (List.dropLast_prefix g) hshort
        obtain rfl := hplan.split_unique hsplit hfirst
        rw [hdirs]
        exact .inr (List.mem_filter.mpr ⟨by simp, hparents g hg hroot⟩)
    · rw [hdirs, hpath]
      intro hmem
      have hnodup := hplan.nodup
      rw [hsplit, List.nodup_middle, List.nodup_cons, List.mem_append, not_or] at hnodup
      exact hnodup.1.1 (List.mem_filter.mp hmem).1
  | file parent name contents =>
    rw [hentry] at hpath hnode
    change parent ++ [name] = g at hpath
    obtain rfl : parent = parentPath g := by rw [← hpath, parentPath, List.dropLast_concat]
    have hfile : ¬ dirOn view g := fun hdir => by
      have hdir := of_decide_eq_true hdir
      rw [hnode] at hdir
      cases hdir
    change parentPath g = currentDir (l₁.map (entryOn view))
    rw [currentDir, hdirs]
    by_cases hroot : parentPath g = []
    · -- before a file of the current directory there are only files
      obtain ⟨xs, zs, hfirst, hfiles⟩ := hplan.files_first g hg hfile hroot
      obtain rfl := hplan.split_unique hsplit hfirst
      rw [List.filter_eq_nil_iff.mpr hfiles, hroot]
      rfl
    · obtain ⟨xs, ys, zs, hfirst, hfiles⟩ := hplan.parent_first g hg hfile hroot
      obtain rfl := hplan.split_unique hsplit hfirst
      rw [List.filter_append, List.filter_cons_of_pos (hparents g hg hroot),
        List.filter_eq_nil_iff.mpr hfiles, List.getLast?_concat]
      rfl

/-- **The plan of the packer** as a plan of entries. -/
def IsPlan.entryPlan (hplan : IsPlan (dirOn view) planned paths)
    (hpack : ∀ g ∈ paths, Packable view g)
    (hparents : ∀ g ∈ paths, parentPath g ≠ [] → dirOn view (parentPath g))
    (hlength : paths.length < 2 ^ 32) : EntryPlan where
  entries := paths.map (entryOn view)
  valid := List.forall_mem_map.mpr fun g hg => (hpack g hg).valid
  follows i hi := by
    rw [List.length_map] at hi
    have hsplit : paths = paths.take i ++ paths[i] :: paths.drop (i + 1) := by
      rw [← List.drop_eq_getElem_cons hi, List.take_append_drop]
    rw [List.getElem_map, ← List.map_take]
    exact hplan.follows hpack hparents hsplit
  length_lt := by rwa [List.length_map]

end Plan

/-! ## The disk is a tree -/

/-- Whatever there is lies in a directory. -/
def IsTree (view : DiskView) : Prop := ∀ path, view path ≠ none → DirThere view path

theorem there_ne_none {view : DiskView} {g : FsPath} (h : dirOn view g ∨ fileOn view g) :
    view (joinPath g) ≠ none := by
  rw [entryOn_node h]
  exact Option.some_ne_none _

theorem IsTree.parent {view : DiskView} (htree : IsTree view) {g : FsPath}
    (hcomps : ∀ c ∈ g, IsComponent c) (hg : dirOn view g ∨ fileOn view g)
    (hroot : parentPath g ≠ []) : dirOn view (parentPath g) := by
  obtain ⟨parent, c, rfl⟩ : ∃ parent c, g = parent ++ [c] :=
    (List.eq_nil_or_concat' g).resolve_left fun h => hroot (by rw [h]; rfl)
  rw [parentPath, List.dropLast_concat] at hroot ⊢
  have hthere := htree _ (there_ne_none hg)
  rw [DirThere, dirOf_joinPath parent (hcomps c (by simp))] at hthere
  refine decide_eq_true (hthere.resolve_left fun hnil => ?_)
  obtain ⟨first, d, rfl⟩ := (List.eq_nil_or_concat' parent).resolve_left hroot
  rw [joinPath_append_singleton, List.append_eq_nil_iff] at hnil
  exact (hcomps d (by simp)).ne_nil hnil.2

theorem IsTree.ancestor {view : DiskView} (htree : IsTree view) {g a : FsPath}
    (hcomps : ∀ c ∈ g, IsComponent c) (hg : dirOn view g ∨ fileOn view g) (ha : a ≠ [])
    (hpre : a <+: g) (hne : a ≠ g) : dirOn view a := by
  induction g using List.reverseRecOn with
  | nil => exact absurd (List.prefix_nil.mp hpre) ha
  | append_singleton g c ih =>
    have hpre' : a <+: g := (List.prefix_concat_iff.mp hpre).resolve_left hne
    have hroot : parentPath (g ++ [c]) ≠ [] := by
      rw [parentPath, List.dropLast_concat]
      rintro rfl
      exact ha (List.prefix_nil.mp hpre')
    have hdir := htree.parent hcomps hg hroot
    rw [parentPath, List.dropLast_concat] at hdir
    by_cases heq : a = g
    · rw [heq]
      exact hdir
    · exact ih (fun d hd => hcomps d (by simp [hd])) (.inl hdir) hpre' heq

/-! ## From disk to disk -/

section RoundTrip
variable {σ τ : Type} {fs : FileSystem σ} {view : σ → DiskView} {fs' : FileSystem τ}
  {view' : τ → DiskView} {s : σ} {trySanitize : FsPath → Option FsPath}

/-- One of these paths, as a string. -/
def PathOf (P : FsPath → Prop) (path : CStr) : Prop := ∃ g, P g ∧ joinPath g = path

theorem IsNormal.component {g : FsPath} (h : IsNormal g) : ∀ c ∈ g, IsComponent c := by
  rcases h with rfl | ⟨-, h⟩
  · decide
  · exact fun c hc => (h c hc).1

/-- **The plan of a disk**: what comes of the two passes over the input is a plan of what the
input stands for, whatever is taken out in between. -/
theorem runProg_isPlan {v : DiskView} {files set : OrderedSet FsPath}
    (hsanitize : Sanitizes trySanitize (· ∈ files.keys)) (hdisk : IsTree v)
    {removed : List FsPath} {tree : PackTree} {n : Nat}
    (hremoved : ∀ r ∈ removed, ¬ dirOn v r)
    (hadd : fileSetAddDirs trySanitize (dirOn v) (fileOn v) files = some set)
    (htree : makeTree (dirOn v) (fileOn v) (eraseFiles set removed) = some (tree, n)) :
    ∃ paths, runProg trySanitize tree = some paths ∧ paths.length = n ∧ n < 2 ^ 32 ∧
      IsPlan (dirOn v) (fun g => Implied trySanitize files.keys g ∧ g ∉ removed) paths ∧
      ∀ g ∈ paths, (∀ c ∈ g, IsComponent c) ∧ (dirOn v g ∨ fileOn v g) := by
  obtain ⟨hlen, hmem⟩ := fileSetAddDirs_spec hadd
  obtain ⟨-, hexist, -, -⟩ := makeTreeLoop_spec htree
  have hplanned : ∀ g, g ∈ (eraseFiles set removed).keys ↔
      Implied trySanitize files.keys g ∧ g ∉ removed := fun g => by
    rw [mem_eraseFiles, hmem]
  have hnormal : ∀ g ∈ (eraseFiles set removed).keys, g ≠ [] ∧ IsNormal g := fun g hg =>
    ((hplanned g).mp hg).1.normal hsanitize
  have hclosed : IsClosed (dirOn v) (eraseFiles set removed) := by
    refine ⟨fun g hg => (hnormal g hg).1, fun g hg a ha hpre hne => ?_⟩
    obtain ⟨⟨f, hf, hdot, f_, hf_, -, hg_⟩, -⟩ := (hplanned g).mp hg
    have hdir := hdisk.ancestor (hnormal g hg).2.component (hexist g hg) ha hpre hne
    -- a directory is none of the files that are taken out
    exact ⟨(hplanned a).mpr ⟨⟨f, hf, hdot, f_, hf_, ha, hpre.trans hg_⟩,
      fun hr => hremoved a hr hdir⟩, hdir⟩
  have hkeys : ∀ g, g ∈ entryPaths tree.entries ↔ g ∈ (eraseFiles set removed).keys :=
    fun _ => mem_entryPaths_makeTree hclosed htree
  have hself : ∀ g ∈ entryPaths tree.entries, trySanitize g = some g := fun g hg =>
    hsanitize.normal_self g (hnormal g ((hkeys g).mp hg)).2
  have hplan := entryPaths_isPlan hclosed htree
  have hle := length_eraseFiles_le set removed
  refine ⟨entryPaths tree.entries, runDirs_eq hself, length_entryPaths hclosed htree, ?_,
    { hplan with mem_iff := fun g => (hplan.mem_iff g).trans (hplanned g) }, fun g hg => ?_⟩
  · obtain ⟨hcount, -⟩ := makeTreeLoop_spec htree
    omega
  · exact ⟨(hnormal g ((hkeys g).mp hg)).2.component, hexist g ((hkeys g).mp hg)⟩

/-- The entries of a plan of the packer, on the disk they are taken from. -/
theorem IsPlan.exists_entryPlan {v : DiskView} {planned : FsPath → Prop} {paths : List FsPath}
    (hplan : IsPlan (dirOn v) planned paths) (hdisk : IsTree v)
    (hthere : ∀ g ∈ paths, (∀ c ∈ g, IsComponent c) ∧ (dirOn v g ∨ fileOn v g))
    (hpack : ∀ g, planned g → Packable v g) (hlength : paths.length < 2 ^ 32) :
    ∃ plan : EntryPlan, plan.entries = paths.map (entryOn v) ∧
      plan.entries.map PlanEntry.fn = paths.map joinPath ∧
      (∀ p, Planned plan.entries p → PathOf planned p) ∧
      ∀ e ∈ plan.entries, v e.fn = some e.node := by
  have hpack' : ∀ g ∈ paths, Packable v g := fun g hg => hpack g ((hplan.mem_iff g).mp hg)
  have hfns : (paths.map (entryOn v)).map PlanEntry.fn = paths.map joinPath := by
    refine List.map_map.trans (List.map_congr_left fun g hg => ?_)
    exact entryOn_fn (hpack' g hg).ne_nil
  refine ⟨hplan.entryPlan hpack' (fun g hg => hdisk.parent (hthere g hg).1 (hthere g hg).2) hlength,
    rfl, hfns, fun p hp => ?_, ?_⟩
  · obtain ⟨g, hg, rfl⟩ := List.mem_map.mp (hfns ▸ hp : p ∈ paths.map joinPath)
    exact ⟨g, (hplan.mem_iff g).mp hg, rfl⟩
  · refine List.forall_mem_map.mpr fun g hg => ?_
    rw [entryOn_fn (hpack' g hg).ne_nil]
    exact entryOn_node (hthere g hg).2

/-- From an archive of such entries an empty directory gets the planned paths, each with its
contents, and nothing else. -/
theorem Unpacks.emptyDisk_planned {v : DiskView} {ok : PlanEntry → Prop} [DecidablePred ok]
    {plan : EntryPlan} {sfx : Bool} {data : Bytes} {stop : IoFile} {planned : FsPath → Prop}
    {paths : List FsPath} (hunpacks : Unpacks fs' view' ok plan.entries sfx data stop)
    (hplan : IsPlan (dirOn v) planned paths)
    (hfns : plan.entries.map PlanEntry.fn = paths.map joinPath)
    (hsrc : ∀ e ∈ plan.entries, v e.fn = some e.node) (hok : ∀ e ∈ plan.entries, ok e)
    {t : τ} (hempty : ∀ p, view' t p = none) (user : User) :
    ∃ ctx user' t', unbraRunProg fs' sfx false false ⟨data, 0⟩ user t = some (ctx, user', t') ∧
      ctx.f = stop ∧ (∀ g, planned g → view' t' (joinPath g) = v (joinPath g)) ∧
      ∀ p, (∀ g, planned g → p ≠ joinPath g) → view' t' p = none := by
  have hsrc' : ∀ e ∈ plan.entries, id v e.fn = some e.node := hsrc
  obtain ⟨ctx, user', t', hextract, hstop, hview⟩ := hunpacks.emptyDisk hsrc' hok hempty user
  refine ⟨ctx, user', t', hextract, hstop, fun g hg => ?_, fun p hp => ?_⟩
  · rw [hview, planView_eq hsrc, hfns,
      if_pos (List.mem_map_of_mem ((hplan.mem_iff g).mpr hg))]
  · rw [hview, planView_eq hsrc, hfns, if_neg]
    intro hmap
    obtain ⟨g, hg, rfl⟩ := List.mem_map.mp hmap
    exact hp g ((hplan.mem_iff g).mp hg) rfl

/-- **From disk to disk**: `bra` writes what the input stands for, without the files that are
taken out, and `unbra` gets just that from the archive, into an empty directory and whatever it is
answered, if everything can be got back. -/
theorem disk_roundTrip (qsortR : QsortR) (compress : Bool) {files set : OrderedSet FsPath}
    (hfs : fs.Works (PathOf (Implied trySanitize files.keys)) view)
    (hfs' : fs'.Works (PathOf (Implied trySanitize files.keys)) view')
    (hfinds : fs'.FindsFiles (PathOf (Implied trySanitize files.keys)) view')
    (hsanitize : Sanitizes trySanitize (· ∈ files.keys))
    (hdisk : IsTree (view s)) {removed : List FsPath} {tree : PackTree} {n : Nat}
    (hremoved : ∀ r ∈ removed, fileOn (view s) r)
    (hadd : fileSetAddDirs trySanitize (dirOn (view s)) (fileOn (view s)) files = some set)
    (htree : makeTree (dirOn (view s)) (fileOn (view s)) (eraseFiles set removed) =
      some (tree, n))
    (hpack : ∀ g, Implied trySanitize files.keys g → g ∉ removed → Packable (view s) g)
    (hok : ∀ g, Implied trySanitize files.keys g → g ∉ removed →
      (entryOn (view s) g).CanBeRecovered qsortR compress) :
    ∃ paths data, runProg trySanitize tree = some paths ∧
      writeArchive fs qsortR s n (paths.map joinPath) compress = some data ∧
      (data.length < 2 ^ 63 → ∀ user t, (∀ p, view' t p = none) → ∃ ctx user' t',
        unbraRunProg fs' false false false ⟨data, 0⟩ user t = some (ctx, user', t') ∧
        ctx.f = ioAt data [] ∧
        (∀ g, Implied trySanitize files.keys g → g ∉ removed →
          view' t' (joinPath g) = view s (joinPath g)) ∧
        ∀ p, (∀ g, Implied trySanitize files.keys g → g ∉ removed → p ≠ joinPath g) →
          view' t' p = none) := by
  have hfiles : ∀ r ∈ removed, ¬ dirOn (view s) r := fun r hr hdir => by
    have hfile := hremoved r hr
    rw [fileOn_of_dirOn hdir] at hfile
    cases hfile
  obtain ⟨paths, hrun, rfl, hlength, hplan, hthere⟩ :=
    runProg_isPlan hsanitize hdisk hfiles hadd htree
  obtain ⟨plan, hentries, hfns, hplanned, hsrc⟩ :=
    hplan.exists_entryPlan hdisk hthere (fun g hg => hpack g hg.1 hg.2) hlength
  have hused : ∀ p, Planned plan.entries p → PathOf (Implied trySanitize files.keys) p :=
    fun p hp => (hplanned p hp).imp fun _ hg => hg.imp_left And.left
  have hok' : ∀ e ∈ plan.entries, e.CanBeRecovered qsortR compress := by
    rw [hentries]
    refine List.forall_mem_map.mpr fun g hg => ?_
    exact hok g ((hplan.mem_iff g).mp hg).1 ((hplan.mem_iff g).mp hg).2
  have hwrite := writeArchive_eq hfs qsortR compress plan hsrc
  rw [hfns, hentries, List.length_map] at hwrite
  refine ⟨paths, _, hrun, hwrite, fun hsize user t hempty => ?_⟩
  have hunpacks := archiveImage_unpacks qsortR compress plan (hfs'.mono hused)
    (hfinds.mono hused) hsrc (by rw [hentries]; exact hsize)
  obtain ⟨ctx, user', t', hextract, hstop, hplanned, hrest⟩ :=
    hunpacks.emptyDisk_planned hplan hfns hsrc hok' hempty user
  rw [hentries] at hextract hstop
  exact ⟨ctx, user', t', hextract, hstop, fun g himplied hkept => hplanned g ⟨himplied, hkept⟩,
    fun p hp => hrest p fun g hg => hp g hg.1 hg.2⟩

end RoundTrip

/-! ## An example -/

theorem sanitizeNormal_sanitizes (asked : FsPath → Prop) : Sanitizes sanitizeNormal asked where
  normal f _ g h := by
    rw [sanitizeNormal] at h
    split at h
    · rename_i hf
      exact Option.some.inj h ▸ hf
    · cases h
  normal_self g hg := if_pos hg

theorem letters_isTree : IsTree (planView lettersPlan.entries) := by
  have hthere : ∀ p ∈ lettersPlan.entries.map PlanEntry.fn, (dirOf p).bytes = [] ∨
      planView lettersPlan.entries (dirOf p) = some .dir := by
    decide +kernel
  intro path hpath
  rw [planView_eq letters_source] at hpath
  split at hpath
  · exact hthere path ‹_›
  · exact absurd rfl hpath

/-- The file `d/e/b` and the file `a`, which is the archive and taken out. -/
def lettersInput : OrderedSet FsPath :=
  OrderedSet.insert (OrderedSet.insert .empty [CStr.ofBuffer [97]])
    [CStr.ofBuffer [100], CStr.ofBuffer [101], CStr.ofBuffer [98]]

theorem letters_implied {g : FsPath} (h : Implied sanitizeNormal lettersInput.keys g) :
    Packable (planView lettersPlan.entries) g := by
  have hall : ∀ f ∈ lettersInput.keys, ∀ g ∈ f.inits, g ≠ [] →
      g ≠ [] ∧ (dirOn (planView lettersPlan.entries) g ∨ fileOn (planView lettersPlan.entries) g) ∧
        (∀ c ∈ g, IsEntryName c) ∧ (joinPath g).bytes.length ≤ 65535 ∧
        braValidateFilename (joinPath g).bytes (joinPath g).bytes.length = true ∧
        (entryOn (planView lettersPlan.entries) g).dataSize < 2 ^ 64 := by
    decide +kernel
  obtain ⟨f, hf, -, f_, hf_, hne, hpre⟩ := h
  obtain rfl : f = f_ := by
    rw [sanitizeNormal] at hf_
    split at hf_
    · exact Option.some.inj hf_
    · cases hf_
  obtain ⟨h₁, h₂, h₃, h₄, h₅, h₆⟩ := hall f hf g (List.mem_inits _ _ |>.mpr hpre) hne
  exact ⟨h₁, h₂, h₃, h₄, h₅, h₆⟩

theorem disk_roundTrip_letters :
    ∃ tree n paths data, runProg sanitizeNormal tree = some paths ∧
      writeArchive FileSystem.inMemory QsortR.mergeSort (planView lettersPlan.entries) n
        (paths.map joinPath) false = some data ∧
      (data.length < 2 ^ 63 → ∃ ctx user' t', unbraRunProg FileSystem.inMemory false false false
          ⟨data, 0⟩ ⟨.ask, []⟩ (fun _ => none) = some (ctx, user', t') ∧ ctx.f = ioAt data []) := by
  let view := planView lettersPlan.entries
  obtain ⟨set, hadd⟩ := Option.isSome_iff_exists.mp
    (show (fileSetAddDirs sanitizeNormal (dirOn view) (fileOn view) lettersInput).isSome by
      decide +kernel)
  have hbind : ((fileSetAddDirs sanitizeNormal (dirOn view) (fileOn view) lettersInput).bind
      fun set => makeTree (dirOn view) (fileOn view)
        (eraseFiles set [[CStr.ofBuffer [97]]])).isSome := by
    decide +kernel
  rw [hadd, Option.bind_some] at hbind
  obtain ⟨⟨tree, n⟩, htree⟩ := Option.isSome_iff_exists.mp hbind
  obtain ⟨paths, data, hrun, hwrite, hextract⟩ := disk_roundTrip QsortR.mergeSort false
    (FileSystem.inMemory_works _) (FileSystem.inMemory_works _) (FileSystem.inMemory_findsFiles _)
    (sanitizeNormal_sanitizes _) letters_isTree
    (show ∀ r ∈ [[CStr.ofBuffer [97]]], fileOn view r by decide +kernel) hadd htree
    (fun _ himplied _ => letters_implied himplied)
    (fun _ _ _ => canBeRecovered_of_small fun h => absurd h Bool.false_ne_true)
  refine ⟨tree, n, paths, data, hrun, hwrite, fun hsize => ?_⟩
  obtain ⟨ctx, user', t', hrun', hstop, -⟩ := hextract hsize ⟨.ask, []⟩ (fun _ => none) fun _ => rfl
  exact ⟨ctx, user', t', hrun', hstop⟩

end BrArchive
