import BrArchive.EntryRecords

/-! # Whole archives

An archive written entry by entry and read back.  Only the last component of a path and
the index of a parent directory are stored; writer and reader each keep a directory tree
and a current directory, and the two stay the same over the whole run.
-/
namespace BrArchive
open LinkedTree

/-! ## Plans -/

/-- An entry to be archived: the components of its directory and its name. -/
inductive PlanEntry where
  | dir (parent : List CStr) (name : CStr)
  | file (parent : List CStr) (name : CStr) (contents : Bytes)

namespace PlanEntry

/-- The components of the path of an entry. -/
def path : PlanEntry → List CStr
  | dir parent name => parent ++ [name]
  | file parent name _ => parent ++ [name]

/-- The path the archiver is given. -/
def fn (e : PlanEntry) : CStr := joinPath e.path

/-- What is to be found under the path. -/
def node : PlanEntry → DiskNode
  | dir _ _ => .dir
  | file _ _ contents => .file contents

/-- The size of the contents. -/
def dataSize : PlanEntry → Nat
  | dir _ _ => 0
  | file _ _ contents => contents.length

/-- The limits on a single entry; a size is a `uint64_t`. -/
structure Valid (e : PlanEntry) : Prop where
  names : ∀ c ∈ e.path, IsEntryName c
  length_le : e.fn.bytes.length ≤ 65535
  accepted : braValidateFilename e.fn.bytes e.fn.bytes.length = true
  size_lt : e.dataSize < 2 ^ 64

instance (e : PlanEntry) : Decidable e.Valid :=
  decidable_of_iff ((∀ c ∈ e.path, IsEntryName c) ∧ e.fn.bytes.length ≤ 65535 ∧
      braValidateFilename e.fn.bytes e.fn.bytes.length = true ∧ e.dataSize < 2 ^ 64)
    ⟨fun ⟨h₁, h₂, h₃, h₄⟩ => ⟨h₁, h₂, h₃, h₄⟩, fun ⟨h₁, h₂, h₃, h₄⟩ => ⟨h₁, h₂, h₃, h₄⟩⟩

end PlanEntry

/-- The directories among the entries. -/
def directories : List PlanEntry → List (List CStr)
  | [] => []
  | .dir parent name :: l => (parent ++ [name]) :: directories l
  | .file _ _ _ :: l => directories l

/-- The directory whose block the next file belongs to. -/
def currentDir (l : List PlanEntry) : List CStr := (directories l).getLast?.getD []

/-- The place of an entry after those before it: a directory is new and its parent is
there, a file is in the current directory. -/
def Follows (l : List PlanEntry) : PlanEntry → Prop
  | .dir parent name =>
    (parent = [] ∨ parent ∈ directories l) ∧ parent ++ [name] ∉ directories l
  | .file parent _ _ => parent = currentDir l

instance (l : List PlanEntry) (e : PlanEntry) : Decidable (Follows l e) := by
  cases e <;> unfold Follows <;> infer_instance

/-- **A plan**: entries in the order of `bra`, at most as many as the header can count. -/
structure EntryPlan where
  entries : List PlanEntry
  valid : ∀ e ∈ entries, e.Valid
  follows : ∀ i (h : i < entries.length), Follows (entries.take i) entries[i]
  length_lt : entries.length < 2 ^ 32

/-- A path of one of the entries. -/
def Planned (l : List PlanEntry) (path : CStr) : Prop := path ∈ l.map PlanEntry.fn

theorem planned_of_mem {l : List PlanEntry} {e : PlanEntry} (h : e ∈ l) : Planned l e.fn :=
  List.mem_map_of_mem h

/-- What is on the disk once these entries have been extracted to an empty directory. -/
def planView (l : List PlanEntry) : DiskView :=
  l.foldl (fun view e => Function.update view e.fn (some e.node)) fun _ => none

@[simp] theorem directories_append (l r : List PlanEntry) :
    directories (l ++ r) = directories l ++ directories r := by
  induction l with
  | nil => rfl
  | cons e l ih => cases e <;> simp [directories, ih]

theorem directories_length_le (l : List PlanEntry) : (directories l).length ≤ l.length := by
  induction l with
  | nil => exact Nat.le_refl _
  | cons e l ih => cases e <;> simp only [directories, List.length_cons] <;> omega

theorem mem_directories {l : List PlanEntry} {p : List CStr} :
    p ∈ directories l ↔ ∃ parent name, .dir parent name ∈ l ∧ p = parent ++ [name] := by
  induction l with
  | nil => simp [directories]
  | cons e l ih => cases e <;> simp [directories, ih, or_and_right, exists_or]

theorem currentDir_append_dir (l : List PlanEntry) (parent : List CStr) (name : CStr) :
    currentDir (l ++ [.dir parent name]) = parent ++ [name] := by
  simp [currentDir, directories]

theorem currentDir_append_file (l : List PlanEntry) (parent : List CStr) (name : CStr)
    (contents : Bytes) : currentDir (l ++ [.file parent name contents]) = currentDir l := by
  simp [currentDir, directories]

/-- The current directory is the top one, or one of those in the plan. -/
theorem currentDir_eq_nil_or_mem (l : List PlanEntry) :
    currentDir l = [] ∨ currentDir l ∈ directories l := by
  rw [currentDir]
  cases h : (directories l).getLast? with
  | none => exact .inl rfl
  | some p => exact .inr (List.mem_of_getLast? h)

/-! ## The disk -/

theorem planView_append_singleton (l : List PlanEntry) (e : PlanEntry) :
    planView (l ++ [e]) = Function.update (planView l) e.fn (some e.node) := by
  simp [planView]

/-- Where the entries come from a disk, they show what is on that disk. -/
theorem planView_eq {src : DiskView} {l : List PlanEntry}
    (hsrc : ∀ e ∈ l, src e.fn = some e.node) (p : CStr) :
    planView l p = if p ∈ l.map PlanEntry.fn then src p else none := by
  induction l using List.reverseRecOn with
  | nil => rfl
  | append_singleton l e ih =>
    have hl : ∀ e' ∈ l, src e'.fn = some e'.node := fun e' he' =>
      hsrc e' (List.mem_append_left _ he')
    rw [planView_append_singleton]
    by_cases hp : p = e.fn
    · subst hp
      rw [Function.update_self, if_pos (by simp), hsrc e (by simp)]
    · rw [Function.update_of_ne hp, ih hl]
      simp [hp]

/-- The directory part of a path that has been put together. -/
theorem dirOf_joinPath (parent : List CStr) {name : CStr} (hname : IsComponent name) :
    dirOf (joinPath (parent ++ [name])) = joinPath parent := by
  have hdrop : ∀ rest : Bytes, (name.bytes.reverse ++ rest).dropWhile (· ≠ braDirDelim) =
      rest.dropWhile (· ≠ braDirDelim) := by
    intro rest
    refine List.dropWhile_append_of_pos fun b hb => ?_
    have hne : b ≠ braDirDelim := by
      rintro rfl
      exact hname.delim_free (List.mem_reverse.mp hb)
    simpa using hne
  refine (congrArg CStr.ofBuffer ?_).trans (CStr.ofBuffer_bytes (joinPath parent))
  rw [joinPath_append_singleton, List.reverse_append, hdrop]
  by_cases hparent : parent = []
  · subst hparent
    rfl
  · rw [delimited_eq hparent, List.reverse_append]
    simp

/-- Once the entries before it are extracted, the directory of an entry is there. -/
theorem dirThere_planView {src : DiskView} {l : List PlanEntry}
    (hsrc : ∀ e ∈ l, src e.fn = some e.node) {parent : List CStr} {name : CStr}
    (hname : IsComponent name) (hparent : parent = [] ∨ parent ∈ directories l) :
    DirThere (planView l) (joinPath (parent ++ [name])) := by
  rw [DirThere, dirOf_joinPath parent hname]
  rcases hparent with rfl | hparent
  · exact .inl rfl
  · obtain ⟨parent', name', hmem, rfl⟩ := mem_directories.mp hparent
    have hfn : joinPath (parent' ++ [name']) ∈ l.map PlanEntry.fn := List.mem_map_of_mem hmem
    refine .inr ?_
    rw [planView_eq hsrc, if_pos hfn]
    exact hsrc _ hmem

/-- What is already under the path of an entry is what the entry has. -/
theorem node_of_planView {src : DiskView} {l : List PlanEntry} {e : PlanEntry}
    (hsrc : ∀ e' ∈ l ++ [e], src e'.fn = some e'.node) {node : DiskNode}
    (h : planView l e.fn = some node) : node = e.node := by
  rw [planView_eq fun e' he' => hsrc e' (List.mem_append_left _ he')] at h
  split at h
  · exact Option.some.inj (h.symm.trans (hsrc e (by simp)))
  · cases h

/-! ## What writer and reader keep -/

/-- The tree and the current node after these entries. -/
structure TreeAfter (l : List PlanEntry) (tree : TreeDir) (lastDirNode : TreeNode) : Prop where
  wellFormed : tree.WellFormed ((directories l).length + 1)
  paths : ∀ p, (∃ a ∈ tree.root.nodes, a.path = p) ↔ p = [] ∨ p ∈ directories l
  node_mem : lastDirNode ∈ tree.root.nodes
  node_path : lastDirNode.path = currentDir l

/-- The context of the writer after these entries. -/
structure WriterAfter (l : List PlanEntry) (bytes : Bytes) (ctx : IoFileCtx) : Prop where
  f_eq : ctx.f = ioAt bytes []
  lastDir_eq : ctx.lastDir = joinPath (currentDir l)
  lastDirSize_eq : ctx.lastDirSize = (joinPath (currentDir l)).bytes.length
  tree : TreeAfter l ctx.tree ctx.lastDirNode

namespace TreeAfter
variable {l : List PlanEntry} {tree : TreeDir} {lastDirNode : TreeNode}

theorem nil : TreeAfter [] braTreeDirCreate .root where
  wellFormed := braTreeDirCreate_wellFormed
  paths p := by simp [braTreeDirCreate, Links.nodes, TreeNode.path, directories, eq_comm]
  node_mem := braTreeDirCreate_wellFormed.root_mem
  node_path := rfl

/-- A file leaves the tree as it is. -/
theorem file (h : TreeAfter l tree lastDirNode) (parent : List CStr) (name : CStr)
    (contents : Bytes) : TreeAfter (l ++ [.file parent name contents]) tree lastDirNode where
  wellFormed := by simpa [directories] using h.wellFormed
  paths p := by simpa [directories] using h.paths p
  node_mem := h.node_mem
  node_path := (currentDir_append_file l parent name contents).symm ▸ h.node_path

/-- **A directory** gets the next index, in the tree of the writer, who goes by its path,
and in that of the reader, who goes by the index of its parent. -/
theorem dir (h : TreeAfter l tree lastDirNode) {parent : List CStr} {name : CStr}
    (hnames : ∀ c ∈ parent ++ [name], IsEntryName c) (hfollows : Follows l (.dir parent name))
    (hlength : l.length + 1 < 2 ^ 32) :
    ∃ p tree', p ∈ tree.root.nodes ∧ p.path = parent ∧
      braTreeDirAdd tree (joinPath (parent ++ [name])) =
        some (.dir ((directories l).length + 1) name p, tree') ∧
      braTreeDirInsertAtParent tree p.index name =
        some (.dir ((directories l).length + 1) name p, tree') ∧
      TreeAfter (l ++ [.dir parent name]) tree' (.dir ((directories l).length + 1) name p) := by
  obtain ⟨p, hp, rfl⟩ := (h.paths parent).mpr hfollows.1
  have hcomps : ∀ c ∈ p.path ++ [name], IsComponent c := fun c hc => (hnames c hc).toIsComponent
  have hname : IsComponent name := hcomps name (by simp)
  have hnew : ∀ a ∈ tree.root.nodes, a.path ≠ p.path ++ [name] := by
    intro a ha hpath
    rcases (h.paths _).mp ⟨a, ha, hpath⟩ with hnil | hmem
    · simp at hnil
    · exact hfollows.2 hmem
  have hcount : (directories l).length + 1 < 2 ^ 32 := by
    have hle := directories_length_le l
    omega
  obtain ⟨tree', hadd, hwellFormed, hperm⟩ := h.wellFormed.addChildNode_spec hcount hp hname hnew
  refine ⟨p, tree', hp, rfl, (h.wellFormed.braTreeDirAdd_eq hp hcomps hnew).trans hadd,
    (h.wellFormed.braTreeDirInsertAtParent_eq hp hname).trans hadd, ?_⟩
  constructor
  · simpa [directories] using hwellFormed
  · intro q
    have hmem : (∃ a ∈ tree'.root.nodes, a.path = q) ↔
        p.path ++ [name] = q ∨ ∃ a ∈ tree.root.nodes, a.path = q := by
      simp only [hperm.mem_iff, List.mem_cons, or_and_right, exists_or, exists_eq_left,
        TreeNode.path]
    rw [hmem, h.paths q]
    simp only [directories_append, directories, List.mem_append, List.mem_singleton]
    tauto
  · exact hperm.mem_iff.mpr List.mem_cons_self
  · exact (currentDir_append_dir l p.path name).symm

/-- The current directory as the reader puts it together. -/
theorem reconstructPath (h : TreeAfter l tree lastDirNode) :
    braTreeDirReconstructPath lastDirNode = joinPath (currentDir l) := by
  rw [h.wellFormed.reconstructPath_eq h.node_mem, h.node_path]

end TreeAfter

/-! ## One entry, and a run of them -/

/-- What a reader makes of `image`, which the writer has appended for the entries `r` on
its way from the context `w` to `w'`: after the entries `l` it extracts those of `r`, and
gets to the tree and the directory of the writer. -/
def ReadsBack {σ : Type} (fs : FileSystem σ) (view : σ → DiskView) (l r : List PlanEntry)
    (image : Bytes) (w w' : IoFileCtx) : Prop :=
  ∀ (ctx : IoFileCtx) (bytes rest : Bytes) (user : User) (t : σ),
    ctx.f = ioAt bytes (image ++ rest) → ctx.tree = w.tree → ctx.lastDirNode = w.lastDirNode →
    view t = planView l →
    ((l ++ r).map PlanEntry.fn).Nodup ∨ ctx.f.data.length < 2 ^ 63 →
    ∃ user' t', decodeEntries fs r.length ctx user t = some ({ ctx with
        f := ioAt (bytes ++ image) rest
        tree := w'.tree
        lastDirNode := w'.lastDirNode }, user', t') ∧
      view t' = planView (l ++ r)

section Run
variable {σ τ : Type} {fs : FileSystem σ} {view : σ → DiskView} {fs' : FileSystem τ}
  {view' : τ → DiskView} {used used' : CStr → Prop} {s : σ} {l : List PlanEntry} {bytes : Bytes}
  {w : IoFileCtx}

theorem decodeEntries_one (ctx : IoFileCtx) (user : User) (t : τ) :
    decodeEntries fs' 1 ctx user t = braIoFileCtxDecodeAndWriteToDisk fs' ctx user t :=
  Option.bind_fun_some _

theorem decodeEntries_add (m n : Nat) (ctx : IoFileCtx) (user : User) (t : τ) :
    decodeEntries fs' (m + n) ctx user t =
      (decodeEntries fs' m ctx user t).bind fun r => decodeEntries fs' n r.1 r.2.1 r.2.2 := by
  induction m generalizing ctx user t with
  | zero => rw [Nat.zero_add]; rfl
  | succ m ih =>
    rw [Nat.succ_add]
    simp only [decodeEntries, ih, Option.bind_eq_bind, Option.bind_assoc]

/-- The writer appends a file to its archive, and the reader takes it from there. -/
theorem file_step (hfs : fs.Works used view) (hfs' : fs'.Works used' view') (qsortR : QsortR)
    {parent : List CStr} {name : CStr} {contents : Bytes}
    (hused : used' (joinPath (parent ++ [name])))
    (hvalid : (PlanEntry.file parent name contents).Valid)
    (hfollows : Follows l (.file parent name contents))
    (hsrc : ∀ e ∈ l ++ [.file parent name contents], view s e.fn = some e.node)
    (h : WriterAfter l bytes w) (hbytes : 0 < bytes.length) :
    ∃ image w', braIoFileCtxEncodeAndWriteToDisk fs qsortR s w (joinPath (parent ++ [name])) false =
        some w' ∧
      WriterAfter (l ++ [.file parent name contents]) (bytes ++ image) w' ∧
      ReadsBack fs' view' l [.file parent name contents] image w w' := by
  -- a file goes to the directory that is current
  obtain rfl : parent = currentDir l := hfollows
  have hname := hvalid.names name (by simp [PlanEntry.path])
  have hcur : ∀ c ∈ currentDir l, IsEntryName c := fun c hc =>
    hvalid.names c (List.mem_append_left _ hc)
  have hsrc' : ∀ e ∈ l, view s e.fn = some e.node := fun e he => hsrc e (List.mem_append_left _ he)
  have hsource := hsrc (.file (currentDir l) name contents) (by simp)
  have hencode := encodeFile_ioAt hfs qsortR hname hsource hvalid.length_le h.f_eq hbytes
    h.lastDir_eq h.lastDirSize_eq
  refine ⟨fileImage (joinPath (currentDir l ++ [name])) name contents, _, hencode, ?_, ?_⟩
  · constructor
    · rfl
    · rw [currentDir_append_file]
      exact h.lastDir_eq
    · rw [currentDir_append_file]
      exact h.lastDirSize_eq
    · exact h.tree.file _ name contents
  · intro ctx pre rest user t hf htree hnode hview hoff
    have hthere := dirThere_planView hsrc' hname.toIsComponent (currentDir_eq_nil_or_mem l)
    -- a path that is not there yet raises no question
    have hoff' : view' t (joinPath (currentDir l ++ [name])) = none ∨
        ctx.f.data.length < 2 ^ 63 := by
      refine hoff.imp_left fun hnodup => ?_
      rw [List.map_append, List.nodup_append'] at hnodup
      rw [hview, planView_eq hsrc', if_neg]
      exact fun hmem => hnodup.2.2 hmem (by simp [PlanEntry.fn, PlanEntry.path])
    obtain ⟨user', t', hdecode, hview'⟩ := decodeFile_ioAt hfs' hused hcur hname
      hvalid.size_lt hvalid.length_le hvalid.accepted hf hoff'
      (hnode ▸ h.tree.reconstructPath) (hview ▸ hthere)
      (fun node hn => node_of_planView hsrc (hview ▸ hn)) user
    refine ⟨user', t', ?_, ?_⟩
    · rw [List.length_singleton, decodeEntries_one, hdecode, ← htree, ← hnode]
    · rw [hview', hview, planView_append_singleton]
      rfl

/-- The writer appends a directory to its archive, and the reader takes it from there. -/
theorem dir_step (hfs : fs.Works used view) (hfs' : fs'.Works used' view') (qsortR : QsortR)
    {parent : List CStr} {name : CStr} (hused : used' (joinPath (parent ++ [name])))
    (hvalid : (PlanEntry.dir parent name).Valid)
    (hfollows : Follows l (.dir parent name)) (hlength : l.length + 1 < 2 ^ 32)
    (hsrc : ∀ e ∈ l ++ [.dir parent name], view s e.fn = some e.node)
    (h : WriterAfter l bytes w) :
    ∃ image w', braIoFileCtxEncodeAndWriteToDisk fs qsortR s w (joinPath (parent ++ [name])) false =
        some w' ∧
      WriterAfter (l ++ [.dir parent name]) (bytes ++ image) w' ∧
      ReadsBack fs' view' l [.dir parent name] image w w' := by
  have hname := hvalid.names name (by simp [PlanEntry.path])
  have hpos := joinPath_length_pos parent hname
  have hsrc' : ∀ e ∈ l, view s e.fn = some e.node := fun e he => hsrc e (List.mem_append_left _ he)
  -- `p` is the node of the parent, whose index is what is written
  obtain ⟨p, tree', hp, rfl, hadd, hinsert, hafter⟩ := h.tree.dir hvalid.names hfollows hlength
  have hsource := hsrc (.dir p.path name) (by simp)
  have hencode := encodeDir_ioAt hfs qsortR hname hsource hpos hvalid.length_le h.f_eq hadd
  refine ⟨dirImage (joinPath (p.path ++ [name])) name p.index, _, hencode, ?_, ?_⟩
  · constructor
    · rfl
    · rw [currentDir_append_dir]
      rfl
    · rw [currentDir_append_dir]
      rfl
    · exact hafter
  · intro ctx pre rest user t hf htree hnode hview hoff
    have hthere := dirThere_planView hsrc' hname.toIsComponent hfollows.1
    have hindex : p.index < 2 ^ 32 := by
      have hlt := h.tree.wellFormed.index_lt hp
      have hle := directories_length_le l
      omega
    have hpath : braTreeDirReconstructPath (.dir ((directories l).length + 1) name p) =
        joinPath (p.path ++ [name]) := by
      rw [hafter.reconstructPath, currentDir_append_dir]
    obtain ⟨t', hdecode, hview'⟩ := decodeDir_ioAt hfs' hused hname hpos hvalid.length_le
      hvalid.accepted hf hindex (htree ▸ hinsert) hpath (hview ▸ hthere)
      (fun node hn => node_of_planView hsrc (hview ▸ hn)) user
    refine ⟨user, t', ?_, ?_⟩
    · rw [List.length_singleton, decodeEntries_one, hdecode]
    · rw [hview', hview, planView_append_singleton]
      rfl

theorem ReadsBack.append {r₁ r₂ : List PlanEntry} {image₁ image₂ : Bytes} {w₁ w₂ : IoFileCtx}
    (h₁ : ReadsBack fs' view' l r₁ image₁ w w₁)
    (h₂ : ReadsBack fs' view' (l ++ r₁) r₂ image₂ w₁ w₂) :
    ReadsBack fs' view' l (r₁ ++ r₂) (image₁ ++ image₂) w w₂ := by
  intro ctx pre rest user t hf htree hnode hview hoff
  rw [List.append_assoc] at hf
  rw [← List.append_assoc] at hoff
  have hoff₁ : ((l ++ r₁).map PlanEntry.fn).Nodup ∨ ctx.f.data.length < 2 ^ 63 := by
    refine hoff.imp_left fun hnodup => ?_
    rw [List.map_append] at hnodup
    exact hnodup.of_append_left
  obtain ⟨user₁, t₁, hdecode₁, hview₁⟩ := h₁ ctx pre _ user t hf htree hnode hview hoff₁
  have hdata : (ioAt (pre ++ image₁) (image₂ ++ rest)).data = ctx.f.data := by
    rw [hf, ioAt_data, ioAt_data, List.append_assoc]
  obtain ⟨user₂, t₂, hdecode₂, hview₂⟩ := h₂ { ctx with
    f := ioAt (pre ++ image₁) (image₂ ++ rest)
    tree := w₁.tree
    lastDirNode := w₁.lastDirNode } (pre ++ image₁) rest user₁ t₁ rfl rfl rfl hview₁ (hdata ▸ hoff)
  refine ⟨user₂, t₂, ?_, by rw [hview₂, List.append_assoc]⟩
  rw [List.length_append, decodeEntries_add, hdecode₁, Option.bind_some, hdecode₂,
    List.append_assoc]

theorem encodeEntries_append (qsortR : QsortR) (compress : Bool) (fns fns' : List CStr)
    (ctx : IoFileCtx) :
    encodeEntries fs qsortR s compress (fns ++ fns') ctx =
      (encodeEntries fs qsortR s compress fns ctx).bind
        (encodeEntries fs qsortR s compress fns') := by
  induction fns generalizing ctx with
  | nil => rfl
  | cons fn fns ih =>
    simp only [List.cons_append, encodeEntries, ih, Option.bind_eq_bind, Option.bind_assoc]

/-- **The run**: writer and reader go through a part of a plan in step. -/
theorem entries_run (qsortR : QsortR) (plan : EntryPlan) (hfs : fs.Works used view)
    (hfs' : fs'.Works (Planned plan.entries) view')
    (hsrc : ∀ e ∈ plan.entries, view s e.fn = some e.node)
    {r later : List PlanEntry} (hplan : plan.entries = l ++ r ++ later) (h : WriterAfter l bytes w)
    (hbytes : 0 < bytes.length) :
    ∃ image w', encodeEntries fs qsortR s false (r.map PlanEntry.fn) w = some w' ∧
      WriterAfter (l ++ r) (bytes ++ image) w' ∧ ReadsBack fs' view' l r image w w' := by
  induction r generalizing l bytes w with
  | nil =>
    refine ⟨[], w, rfl, by simpa using h, ?_⟩
    intro ctx pre rest user t hf htree hnode hview _
    refine ⟨user, t, ?_, by rw [hview, List.append_nil]⟩
    rw [List.length_nil, decodeEntries, List.append_nil, ← htree, ← hnode]
    rw [List.nil_append] at hf
    rw [← hf]
  | cons e r ih =>
    have hplan' : plan.entries = l ++ [e] ++ r ++ later := by
      rw [hplan, List.append_assoc l [e]]
      rfl
    have hmem : e ∈ plan.entries := by simp [hplan']
    have hvalid := plan.valid e hmem
    have hused : Planned plan.entries e.fn := planned_of_mem hmem
    have hfollows : Follows l e := by
      have h := plan.follows l.length (by simp [hplan'])
      simpa [hplan'] using h
    have hsrc' : ∀ e' ∈ l ++ [e], view s e'.fn = some e'.node := fun e' he' =>
      hsrc e' (hplan' ▸ List.mem_append_left _ (List.mem_append_left _ he'))
    have hlength : l.length + 1 < 2 ^ 32 := by
      have hlt := plan.length_lt
      rw [hplan', List.length_append, List.length_append, List.length_append,
        List.length_singleton] at hlt
      omega
    -- one step, by the kind of the entry; the rest is the induction hypothesis
    have hstep : ∃ image w', braIoFileCtxEncodeAndWriteToDisk fs qsortR s w e.fn false = some w' ∧
        WriterAfter (l ++ [e]) (bytes ++ image) w' ∧ ReadsBack fs' view' l [e] image w w' := by
      cases e with
      | dir parent name => exact dir_step hfs hfs' qsortR hused hvalid hfollows hlength hsrc' h
      | file parent name contents =>
        exact file_step hfs hfs' qsortR hused hvalid hfollows hsrc' h hbytes
    obtain ⟨image₁, w₁, hencode₁, h₁, hread₁⟩ := hstep
    obtain ⟨image₂, w₂, hencode₂, h₂, hread₂⟩ := ih hplan' h₁ (by
      rw [List.length_append]
      omega)
    refine ⟨image₁ ++ image₂, w₂, ?_, ?_, hread₁.append hread₂⟩
    · rw [List.map_cons, encodeEntries, hencode₁]
      exact hencode₂
    · rwa [List.append_assoc, List.append_assoc] at h₂

end Run

/-! ## The round trip -/

/-- The context in which the first entry is written. -/
def newArchive (numFiles : Nat) : IoFileCtx :=
  braIoFileCtxWriteHeader (braIoFileCtxOpen ⟨[], 0⟩) numFiles

theorem newArchive_writerAfter (numFiles : Nat) :
    WriterAfter [] (leBytes 4 braMagic ++ leBytes 4 numFiles) (newArchive numFiles) where
  f_eq := by
    change braIoFileWrite (ioAt [] []) (leBytes 4 braMagic ++ leBytes 4 numFiles) = _
    rw [braIoFileWrite_ioAt_nil, List.nil_append]
  lastDir_eq := rfl
  lastDirSize_eq := rfl
  tree := TreeAfter.nil

/-- A header that was written is read back. -/
theorem braIoFileCtxReadHeader_ioAt {numFiles : Nat} (h : numFiles < 2 ^ 32) (ctx : IoFileCtx)
    (pre rest : Bytes) :
    braIoFileCtxReadHeader
        { ctx with f := ioAt pre (leBytes 4 braMagic ++ leBytes 4 numFiles ++ rest) } =
      some { ctx with
        f := ioAt (pre ++ (leBytes 4 braMagic ++ leBytes 4 numFiles)) rest
        numFiles } := by
  have hlength : (leBytes 4 braMagic ++ leBytes 4 numFiles).length = sizeofHeader := by
    rw [List.length_append, leBytes_length, leBytes_length, sizeofHeader]
  have hread := braIoFileRead_ioAt pre (leBytes 4 braMagic ++ leBytes 4 numFiles) rest hlength
  have hmagic : leValue ((leBytes 4 braMagic ++ leBytes 4 numFiles).take 4) = braMagic := by
    rw [List.take_left' (leBytes_length 4 _), leValue_leBytes]
    rfl
  have hnum : leValue ((leBytes 4 braMagic ++ leBytes 4 numFiles).drop 4) = numFiles := by
    rw [List.drop_left' (leBytes_length 4 _), leValue_leBytes]
    exact Nat.mod_eq_of_lt h
  generalize leBytes 4 braMagic ++ leBytes 4 numFiles = header at *
  rw [braIoFileCtxReadHeader, hread]
  simp only [Option.bind_eq_bind, Option.bind_some]
  split
  · exact absurd hmagic ‹_›
  · rw [hnum]
    rfl

/-- The header of an archive gives the number of its entries. -/
theorem braIoFileCtxReadHeader_eq {numFiles : Nat} (h : numFiles < 2 ^ 32) (rest : Bytes) :
    braIoFileCtxReadHeader
        (braIoFileCtxOpen (ioAt [] (leBytes 4 braMagic ++ leBytes 4 numFiles ++ rest))) =
      some { braIoFileCtxOpen (ioAt (leBytes 4 braMagic ++ leBytes 4 numFiles) rest) with
        numFiles } := by
  have hheader := braIoFileCtxReadHeader_ioAt h (braIoFileCtxOpen ⟨[], 0⟩) [] rest
  rw [List.nil_append] at hheader
  exact hheader

/-- Reader and writer in step: the reader of an archive with the bytes `data` has the tree
and the directory of the writer, so that an index means the same directory to both, and is
at the position up to which the archive was written then. -/
structure InStep (data : Bytes) (w rd : IoFileCtx) : Prop where
  tree_eq : rd.tree = w.tree
  lastDirNode_eq : rd.lastDirNode = w.lastDirNode
  f_eq : rd.f = ⟨data, w.f.pos⟩

/-- **Whole archives come back.**  Any plan can be archived without compression.  Reading
the archive back into an empty directory succeeds on every entry: after each of them the
reader is in step with the writer, and the disk holds just the directories and files, with
their contents, of the entries so far.  Where a plan names a file twice, so that the second
one may be skipped, the archive has to be one whose positions fit in an `off_t`. -/
theorem archive_roundTrip {σ τ : Type} {fs : FileSystem σ} {view : σ → DiskView}
    {fs' : FileSystem τ} {view' : τ → DiskView} (qsortR : QsortR) (plan : EntryPlan)
    (hfs : fs.Works (Planned plan.entries) view) (hfs' : fs'.Works (Planned plan.entries) view')
    {s : σ} {t : τ} (hsrc : ∀ e ∈ plan.entries, view s e.fn = some e.node)
    (hempty : ∀ path, view' t path = none) (user : User) :
    ∃ written, encodeEntries fs qsortR s false (plan.entries.map PlanEntry.fn)
        (newArchive plan.entries.length) = some written ∧
      written.f.pos = written.f.data.length ∧
      ((plan.entries.map PlanEntry.fn).Nodup ∨ written.f.data.length < 2 ^ 63 →
        ∃ opened, braIoFileCtxReadHeader (braIoFileCtxOpen ⟨written.f.data, 0⟩) = some opened ∧
          opened.numFiles = plan.entries.length ∧
          ∀ l r, plan.entries = l ++ r → ∃ w rd user' t',
            encodeEntries fs qsortR s false (l.map PlanEntry.fn)
              (newArchive plan.entries.length) = some w ∧
            decodeEntries fs' l.length opened user t = some (rd, user', t') ∧
            InStep written.f.data w rd ∧ view' t' = planView l) := by
  have hstart := newArchive_writerAfter plan.entries.length
  have hpos : 0 < (leBytes 4 braMagic ++ leBytes 4 plan.entries.length).length := by simp
  have hall : plan.entries = [] ++ plan.entries ++ [] := (List.append_nil _).symm
  obtain ⟨image, written, hencode, hwritten, -⟩ :=
    entries_run qsortR plan hfs hfs' hsrc hall hstart hpos
  have hdata : written.f.data = leBytes 4 braMagic ++ leBytes 4 plan.entries.length ++ image := by
    rw [hwritten.f_eq, ioAt_data, List.append_nil]
  refine ⟨written, hencode, ?_, fun hsize => ?_⟩
  · rw [hdata, hwritten.f_eq, ioAt_pos]
  have hheader := braIoFileCtxReadHeader_eq plan.length_lt image
  rw [← hdata] at hheader
  refine ⟨_, hheader, rfl, fun l r hplan => ?_⟩
  -- the archive written for `l` goes on with what is written for `r`
  obtain ⟨image₁, w, hencode₁, hw, hread⟩ :=
    entries_run qsortR plan hfs hfs' hsrc (l := []) hplan hstart hpos
  obtain ⟨image₂, w', hencode₂, hw', -⟩ :=
    entries_run qsortR plan hfs hfs' hsrc (hplan.trans (List.append_nil _).symm) hw (by
      rw [List.length_append]
      omega)
  obtain rfl : written = w' := by
    have hfns : plan.entries.map PlanEntry.fn = l.map PlanEntry.fn ++ r.map PlanEntry.fn := by
      rw [hplan, List.map_append]
    rw [hfns, encodeEntries_append, hencode₁, Option.bind_some, hencode₂] at hencode
    exact (Option.some.inj hencode).symm
  have himage : image = image₁ ++ image₂ := by
    have h := hwritten.f_eq.symm.trans hw'.f_eq
    have h := congrArg IoFile.data h
    simpa using h
  subst himage
  have hoff : (([] ++ l).map PlanEntry.fn).Nodup ∨ written.f.data.length < 2 ^ 63 := by
    refine hsize.imp_left fun hnodup => ?_
    rw [hplan, List.map_append] at hnodup
    exact hnodup.of_append_left
  rw [hdata] at hoff
  obtain ⟨user', t', hdecode, hview⟩ := hread
    { braIoFileCtxOpen (ioAt (leBytes 4 braMagic ++ leBytes 4 plan.entries.length)
        (image₁ ++ image₂)) with
      numFiles := plan.entries.length }
    _ image₂ user t rfl rfl rfl (funext hempty) hoff
  refine ⟨w, _, user', t', hencode₁, hdecode, ⟨rfl, rfl, ?_⟩, hview⟩
  rw [hdata, hw.f_eq, ioAt_pos, ioAt, List.append_assoc _ image₁]

/-- A file `a`, and a directory `d` with a directory `e` and in that a file `b`. -/
def lettersPlan : EntryPlan where
  entries :=
    [.file [] (CStr.ofBuffer [97]) [104, 105], .dir [] (CStr.ofBuffer [100]),
      .dir [CStr.ofBuffer [100]] (CStr.ofBuffer [101]),
      .file [CStr.ofBuffer [100], CStr.ofBuffer [101]] (CStr.ofBuffer [98]) []]
  valid := by decide +kernel
  follows := by decide +kernel
  length_lt := by decide

theorem archive_roundTrip_letters :
    ∃ written, encodeEntries FileSystem.inMemory QsortR.mergeSort (planView lettersPlan.entries)
        false (lettersPlan.entries.map PlanEntry.fn) (newArchive lettersPlan.entries.length) = some written ∧
      written.f.pos = written.f.data.length ∧
      ((lettersPlan.entries.map PlanEntry.fn).Nodup ∨ written.f.data.length < 2 ^ 63 →
        ∃ opened, braIoFileCtxReadHeader (braIoFileCtxOpen ⟨written.f.data, 0⟩) = some opened ∧
          opened.numFiles = lettersPlan.entries.length ∧
          ∀ l r, lettersPlan.entries = l ++ r → ∃ w rd user' t',
            encodeEntries FileSystem.inMemory QsortR.mergeSort (planView lettersPlan.entries) false
              (l.map PlanEntry.fn) (newArchive lettersPlan.entries.length) = some w ∧
            decodeEntries FileSystem.inMemory l.length opened ⟨.ask, []⟩ (fun _ => none) =
              some (rd, user', t') ∧
            InStep written.f.data w rd ∧ id t' = planView l) :=
  archive_roundTrip QsortR.mergeSort lettersPlan (FileSystem.inMemory_works _)
    (FileSystem.inMemory_works _) (by decide +kernel) (fun _ => rfl) ⟨.ask, []⟩

end BrArchive
