import BrArchive.ArchiveFormat
import BrArchive.Unpacking

/-! # Extracting packed archives

What extracting an archive means, as a function on what is on the disk: entry by entry, a
directory is made, and a file is written unless one is there that the user wants to keep.  An
archive that was packed, with or without compression, does just that, over any disk and with
any answers; and it can be extracted, tested and listed to its end exactly if all its files can
be got back.
-/
namespace BrArchive

/-! ## What extracting means -/

/-- Whether a path leads to a directory. -/
def DiskNode.isDir : DiskNode → Bool
  | dir => true
  | file _ => false

/-- The question that comes up before a file is written where `node` is. -/
def askOver (node : Option DiskNode) (user : User) : Bool × User :=
  match node with
  | some (.file _) => fileExistsAskOverwrite user false
  | _ => (true, user)

/-- What comes of one entry, and of the user; `ok` says which files can be got back. -/
def extractEntry (ok : PlanEntry → Prop) [DecidablePred ok] (e : PlanEntry) (user : User)
    (view : DiskView) : Option (User × DiskView) :=
  match e.node with
  | .dir => some (user, Function.update view e.fn (some .dir))
  | .file contents =>
    if (askOver (view e.fn) user).1 = true then
      if ok e then
        some ((askOver (view e.fn) user).2, Function.update view e.fn (some (.file contents)))
      else none
    else some ((askOver (view e.fn) user).2, view)

/-- What comes of the entries, one after the other. -/
def extractPlan (ok : PlanEntry → Prop) [DecidablePred ok] :
    List PlanEntry → User → DiskView → Option (User × DiskView)
  | [], user, view => some (user, view)
  | e :: l, user, view => (extractEntry ok e user view).bind fun r => extractPlan ok l r.1 r.2

/-- What the disk has to be like for the entries: nothing of the other kind is under the path of
an entry. -/
def NoClash (l : List PlanEntry) (view : DiskView) : Prop :=
  ∀ e ∈ l, ∀ node, view e.fn = some node → node.isDir = e.node.isDir

/-- A disk without clashes on which the first entries `l` have been extracted. -/
structure DiskAfter (plan l : List PlanEntry) (view : DiskView) : Prop where
  noClash : NoClash plan view
  dirs : ∀ d ∈ directories l, view (joinPath d) = some .dir

section Model
variable {ok : PlanEntry → Prop} [DecidablePred ok] {src view view' : DiskView}
  {plan l : List PlanEntry} {e : PlanEntry} {user user' : User}

theorem extractPlan_append (r₁ r₂ : List PlanEntry) (user : User) (view : DiskView) :
    extractPlan ok (r₁ ++ r₂) user view =
      (extractPlan ok r₁ user view).bind fun r => extractPlan ok r₂ r.1 r.2 := by
  induction r₁ generalizing user view with
  | nil => rfl
  | cons e r₁ ih => simp only [List.cons_append, extractPlan, ih, Option.bind_assoc]

theorem extractEntry_dir (parent : List CStr) (name : CStr) (user : User) (view : DiskView) :
    extractEntry ok (.dir parent name) user view =
      some (user, Function.update view (joinPath (parent ++ [name])) (some .dir)) :=
  rfl

theorem extractEntry_file (parent : List CStr) (name : CStr) (contents : Bytes) (user : User)
    (view : DiskView) :
    extractEntry ok (.file parent name contents) user view =
      if (askOver (view (joinPath (parent ++ [name]))) user).1 = true then
        if ok (.file parent name contents) then
          some ((askOver (view (joinPath (parent ++ [name]))) user).2,
            Function.update view (joinPath (parent ++ [name])) (some (.file contents)))
        else none
      else some ((askOver (view (joinPath (parent ++ [name]))) user).2, view) :=
  rfl

/-- Only a file that is there is kept. -/
theorem askOver_declined {node : Option DiskNode} (h : ¬ (askOver node user).1 = true) :
    ∃ old, node = some (.file old) := by
  cases node with
  | none => exact absurd rfl h
  | some node =>
    cases node with
    | dir => exact absurd rfl h
    | file old => exact ⟨old, rfl⟩

theorem extractPlan_one (e : PlanEntry) (user : User) (view : DiskView) :
    extractPlan ok [e] user view = extractEntry ok e user view :=
  Option.bind_fun_some _

/-- An entry changes nothing, or puts what it has under its path. -/
theorem extractEntry_view (h : extractEntry ok e user view = some (user', view')) :
    view' = Function.update view e.fn (some e.node) ∨
      (view' = view ∧ ∃ contents old, e.node = .file contents ∧ view e.fn = some (.file old)) := by
  rw [extractEntry] at h
  split at h
  · rename_i hnode
    obtain ⟨-, rfl⟩ := Prod.mk.inj (Option.some.inj h)
    exact .inl (by rw [hnode])
  · rename_i contents hnode
    split at h
    · split at h
      · obtain ⟨-, rfl⟩ := Prod.mk.inj (Option.some.inj h)
        exact .inl (by rw [hnode])
      · cases h
    · rename_i hdecline
      obtain ⟨-, rfl⟩ := Prod.mk.inj (Option.some.inj h)
      obtain ⟨old, hold⟩ := askOver_declined hdecline
      exact .inr ⟨rfl, contents, old, hnode, hold⟩

/-- Where the entries come from a disk, extracting one leaves no clash. -/
theorem DiskAfter.step (hsrc : ∀ e ∈ plan, src e.fn = some e.node) (hl : ∀ e ∈ l, e ∈ plan)
    (he : e ∈ plan) (h : DiskAfter plan l view)
    (hstep : extractEntry ok e user view = some (user', view')) :
    DiskAfter plan (l ++ [e]) view' := by
  have hsame : ∀ e' ∈ plan, e'.fn = e.fn → e'.node = e.node := by
    intro e' he' hfn
    have h := hsrc e' he'
    rw [hfn, hsrc e he] at h
    exact (Option.some.inj h).symm
  have hdirs : ∀ d ∈ directories (l ++ [e]), d ∈ directories l ∨ (e.fn = joinPath d ∧ e.node = .dir) := by
    intro d hd
    rw [directories_append, List.mem_append] at hd
    refine hd.imp_right fun hd => ?_
    obtain ⟨parent, name, hmem, rfl⟩ := mem_directories.mp hd
    rw [← List.mem_singleton.mp hmem]
    exact ⟨rfl, rfl⟩
  rcases extractEntry_view hstep with rfl | ⟨rfl, contents, old, hnode, -⟩
  · refine ⟨fun e' he' node hview => ?_, fun d hd => ?_⟩
    · by_cases hfn : e'.fn = e.fn
      · rw [hfn, Function.update_self] at hview
        rw [← Option.some.inj hview, hsame e' he' hfn]
      · rw [Function.update_of_ne hfn] at hview
        exact h.noClash e' he' node hview
    · by_cases hfn : joinPath d = e.fn
      · rw [hfn, Function.update_self]
        rcases hdirs d hd with hd | ⟨-, hnode⟩
        · -- a directory of the same path is an entry of its own
          obtain ⟨parent, name, hmem, rfl⟩ := mem_directories.mp hd
          rw [← hsame (.dir parent name) (hl _ hmem) hfn]
          rfl
        · rw [hnode]
      · rw [Function.update_of_ne hfn]
        rcases hdirs d hd with hd | ⟨heq, -⟩
        · exact h.dirs d hd
        · exact absurd heq.symm hfn
  · refine ⟨h.noClash, fun d hd => ?_⟩
    rcases hdirs d hd with hd | ⟨-, hdir⟩
    · exact h.dirs d hd
    · rw [hnode] at hdir
      cases hdir

end Model

/-! ## One entry -/

/-- An entry that can be got back: a directory always. -/
def PlanEntry.CanBeRecovered (qsortR : QsortR) (compress : Bool) : PlanEntry → Prop
  | .dir _ _ => True
  | .file parent name contents =>
    Recoverable qsortR compress (joinPath (parent ++ [name])) contents

instance PlanEntry.decidableCanBeRecovered (qsortR : QsortR) (compress : Bool) :
    DecidablePred (PlanEntry.CanBeRecovered qsortR compress)
  | .dir _ _ => instDecidableTrue
  | .file parent name contents =>
    inferInstanceAs (Decidable (Recoverable qsortR compress (joinPath (parent ++ [name])) contents))

/-- A file system whose `fileExists` says what there is under the paths `used`. -/
def FileSystem.FindsFiles {τ : Type} (fs : FileSystem τ) (used : CStr → Prop)
    (view : τ → DiskView) : Prop :=
  ∀ t path, used path →
    (fs.fileExists t path = true ↔ ∃ contents, view t path = some (.file contents))

theorem FileSystem.FindsFiles.mono {τ : Type} {fs : FileSystem τ} {used used' : CStr → Prop}
    {view : τ → DiskView} (h : fs.FindsFiles used view) (hused : ∀ p, used' p → used p) :
    fs.FindsFiles used' view :=
  fun t path hpath => h t path (hused path hpath)

theorem FileSystem.FindsFiles.ask {τ : Type} {fs : FileSystem τ} {used : CStr → Prop}
    {view : τ → DiskView} (h : fs.FindsFiles used view) (t : τ) {path : CStr} (hused : used path)
    (user : User) :
    braFsFileExistsAskOverwrite fs t path user false = askOver (view t path) user := by
  rw [braFsFileExistsAskOverwrite]
  split
  · rename_i hexists
    obtain ⟨contents, hcontents⟩ := (h t path hused).mp hexists
    rw [hcontents]
    rfl
  · rename_i hexists
    cases hview : view t path with
    | none => rfl
    | some node =>
      cases node with
      | dir => rfl
      | file contents => exact absurd ((h t path hused).mpr ⟨contents, hview⟩) hexists

theorem FileSystem.inMemory_findsFiles (used : CStr → Prop) :
    FileSystem.inMemory.FindsFiles used id := by
  intro view path _
  change (match view path with
    | some (.file _) => true
    | _ => false) = true ↔ ∃ contents, view path = some (.file contents)
  cases view path with
  | none => exact iff_of_false Bool.false_ne_true fun ⟨_, h⟩ => by cases h
  | some node =>
    cases node with
    | dir => exact iff_of_false Bool.false_ne_true fun ⟨_, h⟩ => by cases h
    | file contents => exact iff_of_true rfl ⟨contents, rfl⟩

/-- **A reader passes over the entries `r`**, from `ctx` to `ctx'`: extracting them, after those of
`l`, means what `extractPlan` says, and testing finds out whether they can be got back. -/
structure PassesOver {τ : Type} (fs : FileSystem τ) (view : τ → DiskView) (ok : PlanEntry → Prop)
    [DecidablePred ok] (plan l r : List PlanEntry) (ctx ctx' : IoFileCtx) : Prop where
  extract : ctx.f.data.length < 2 ^ 63 → ∀ user t, DiskAfter plan l (view t) →
    (decodeEntries fs r.length ctx user t).map (fun x => (x.1, x.2.1, view x.2.2)) =
      (extractPlan ok r user (view t)).map fun x => (ctx', x.1, x.2)
  print : (∀ e ∈ r, ok e) → ∀ testMode, printEntries testMode r.length ctx = some ctx'
  test : (∃ e ∈ r, ¬ ok e) → printEntries true r.length ctx = none

theorem printEntries_add (testMode : Bool) (m n : Nat) (ctx : IoFileCtx) :
    printEntries testMode (m + n) ctx =
      (printEntries testMode m ctx).bind (printEntries testMode n) := by
  induction m generalizing ctx with
  | zero => rw [Nat.zero_add]; rfl
  | succ m ih =>
    rw [Nat.succ_add]
    simp only [printEntries, ih, Option.bind_eq_bind, Option.bind_assoc]

theorem printEntries_one (testMode : Bool) (ctx : IoFileCtx) :
    printEntries testMode 1 ctx = braIoFileCtxPrintMetaEntry ctx testMode :=
  Option.bind_fun_some _

section Passes
variable {τ : Type} {fs : FileSystem τ} {view : τ → DiskView} {ok : PlanEntry → Prop}
  [DecidablePred ok] {src : DiskView} {plan l r r₁ r₂ : List PlanEntry} {e : PlanEntry}
  {ctx ctx₁ ctx' : IoFileCtx}

theorem DiskAfter.run (hsrc : ∀ e ∈ plan, src e.fn = some e.node) {user user' : User}
    {v v' : DiskView} (hl : ∀ e ∈ l ++ r, e ∈ plan) (h : DiskAfter plan l v)
    (hrun : extractPlan ok r user v = some (user', v')) : DiskAfter plan (l ++ r) v' := by
  induction r generalizing l user v with
  | nil =>
    obtain ⟨-, rfl⟩ := Prod.mk.inj (Option.some.inj hrun)
    rwa [List.append_nil]
  | cons e r ih =>
    obtain ⟨⟨user₁, v₁⟩, hstep, hrun⟩ := Option.bind_eq_some_iff.mp hrun
    have hlist : l ++ e :: r = l ++ [e] ++ r := by rw [List.append_assoc]; rfl
    rw [hlist] at hl ⊢
    exact ih hl (h.step hsrc (fun e' he' => hl e' (by simp [he'])) (hl e (by simp)) hstep) hrun

theorem PassesOver.nil : PassesOver fs view ok plan l [] ctx ctx where
  extract _ _ _ _ := rfl
  print _ _ := rfl
  test := fun ⟨_, he, _⟩ => absurd he List.not_mem_nil

theorem PassesOver.append (hsrc : ∀ e ∈ plan, src e.fn = some e.node)
    (hl : ∀ e ∈ l ++ r₁, e ∈ plan) (hdata : ctx₁.f.data.length = ctx.f.data.length)
    (h₁ : PassesOver fs view ok plan l r₁ ctx ctx₁)
    (h₂ : PassesOver fs view ok plan (l ++ r₁) r₂ ctx₁ ctx') :
    PassesOver fs view ok plan l (r₁ ++ r₂) ctx ctx' where
  extract hoff user t hdisk := by
    have hfirst := h₁.extract hoff user t hdisk
    rw [List.length_append, decodeEntries_add, extractPlan_append]
    cases hmodel : extractPlan ok r₁ user (view t) with
    | none =>
      rw [hmodel, Option.map_none, Option.map_eq_none_iff] at hfirst
      rw [hfirst]
      rfl
    | some x =>
      rw [hmodel, Option.map_some, Option.map_eq_some_iff] at hfirst
      obtain ⟨⟨c, user₁, t₁⟩, hdecode, hx⟩ := hfirst
      obtain ⟨user₂, v⟩ := x
      simp only [Prod.mk.injEq] at hx
      obtain ⟨rfl, rfl, rfl⟩ := hx
      rw [hdecode, Option.bind_some, Option.bind_some]
      exact h₂.extract (hdata ▸ hoff) _ t₁ (hdisk.run hsrc hl hmodel)
  print hok testMode := by
    rw [List.length_append, printEntries_add,
      h₁.print (fun e he => hok e (List.mem_append_left _ he)), Option.bind_some]
    exact h₂.print (fun e he => hok e (List.mem_append_right _ he)) testMode
  test := by
    rintro ⟨e, he, hnot⟩
    rw [List.length_append, printEntries_add]
    by_cases hok : ∀ e ∈ r₁, ok e
    · have he₂ : e ∈ r₂ := (List.mem_append.mp he).resolve_left fun he₁ => hnot (hok e he₁)
      rw [h₁.print hok, Option.bind_some]
      exact h₂.test ⟨e, he₂, hnot⟩
    · simp only [not_forall] at hok
      obtain ⟨e', he', hnot'⟩ := hok
      rw [h₁.test ⟨e', he', hnot'⟩]
      rfl

end Passes

/-! ## One entry of each kind -/

/-- What a reader makes of `image`, which the writer has appended for the entries `r` on its way
from the context `w` to `w'`: it passes over them, and gets to the tree and the directory of the
writer. -/
def ReadsPacked {τ : Type} (fs : FileSystem τ) (view : τ → DiskView) (ok : PlanEntry → Prop)
    [DecidablePred ok] (plan l r : List PlanEntry) (image : Bytes) (w w' : IoFileCtx) : Prop :=
  ∀ (ctx : IoFileCtx) (bytes rest : Bytes), ctx.f = ioAt bytes (image ++ rest) →
    ctx.tree = w.tree → ctx.lastDirNode = w.lastDirNode →
    PassesOver fs view ok plan l r ctx { ctx with
      f := ioAt (bytes ++ image) rest
      tree := w'.tree
      lastDirNode := w'.lastDirNode }

/-- The context of the writer after the entries `l`, with the numbers of their directories. -/
structure WriterKeeps (l : List PlanEntry) (bytes : Bytes) (ctx : IoFileCtx) : Prop
    extends WriterAfter l bytes ctx where
  packerTree : PackerTree l ctx.tree ctx.lastDirNode

/-- The entries `r` behind `l`, with their image: the writer appends it, with the same result on
every disk that has the entries, and every reader passes over it. -/
structure Packs (qsortR : QsortR) (compress : Bool) (plan l r : List PlanEntry) (w w' : IoFileCtx) :
    Prop where
  writes : ∀ {σ : Type} {fs : FileSystem σ} {used : CStr → Prop} {view : σ → DiskView} {s : σ},
    fs.Works used view → (∀ e ∈ r, view s e.fn = some e.node) →
    encodeEntries fs qsortR s compress (r.map PlanEntry.fn) w = some w'
  reads : ∀ {τ : Type} {fs' : FileSystem τ} {view' : τ → DiskView},
    fs'.Works (Planned plan) view' → fs'.FindsFiles (Planned plan) view' →
    ReadsPacked fs' view' (PlanEntry.CanBeRecovered qsortR compress) plan l r
      (entriesImage qsortR compress l r) w w'

section Steps
variable {plan l : List PlanEntry} {bytes : Bytes} {w : IoFileCtx}

theorem encodeEntries_one {σ : Type} (fs : FileSystem σ) (qsortR : QsortR) (s : σ) (compress : Bool)
    (fn : CStr) (ctx : IoFileCtx) : encodeEntries fs qsortR s compress [fn] ctx =
      braIoFileCtxEncodeAndWriteToDisk fs qsortR s ctx fn compress :=
  Option.bind_fun_some _

/-- Once the entries before it are extracted, the directory of an entry is there. -/
theorem DiskAfter.dirThere {v : DiskView} (h : DiskAfter plan l v) {parent : List CStr}
    {name : CStr} (hname : IsComponent name) (hparent : parent = [] ∨ parent ∈ directories l) :
    DirThere v (joinPath (parent ++ [name])) := by
  rw [DirThere, dirOf_joinPath parent hname]
  rcases hparent with rfl | hparent
  · exact .inl rfl
  · exact .inr (h.dirs parent hparent)

/-- The writer appends a file to its archive, and the reader passes over it. -/
theorem packedFile_step (qsortR : QsortR) (compress : Bool) {parent : List CStr} {name : CStr}
    {contents : Bytes} (hvalid : (PlanEntry.file parent name contents).Valid)
    (hmem : .file parent name contents ∈ plan) (hfollows : Follows l (.file parent name contents))
    (h : WriterKeeps l bytes w) (hbytes : 0 < bytes.length) :
    ∃ w', WriterKeeps (l ++ [.file parent name contents])
        (bytes ++ entryImage qsortR compress l (.file parent name contents)) w' ∧
      Packs qsortR compress plan l [.file parent name contents] w w' := by
  -- a file goes to the directory that is current
  obtain rfl : parent = currentDir l := hfollows
  have hname := hvalid.names name (by simp [PlanEntry.path])
  have hcur : ∀ c ∈ currentDir l, IsEntryName c := fun c hc =>
    hvalid.names c (List.mem_append_left _ hc)
  refine ⟨{ w with f := ioAt (bytes ++
    packedFile qsortR compress (joinPath (currentDir l ++ [name])) name contents) [] }, ?_, ?_, ?_⟩
  · have htree := h.packerTree.file (currentDir l) name contents
    refine ⟨⟨rfl, ?_, ?_, htree.toTreeAfter⟩, htree⟩
    · rw [currentDir_append_file]
      exact h.lastDir_eq
    · rw [currentDir_append_file]
      exact h.lastDirSize_eq
  · intro σ fs used view s hfs hdisk
    rw [List.map_singleton, encodeEntries_one]
    exact encodePacked_ioAt hfs qsortR compress hname (hdisk _ List.mem_cons_self) hvalid.length_le
      h.f_eq hbytes h.lastDir_eq h.lastDirSize_eq
  · intro τ fs' view' hfs' hfinds ctx pre rest hf htree hnode
    rw [entriesImage_one] at hf ⊢
    have hdir : braTreeDirReconstructPath ctx.lastDirNode = joinPath (currentDir l) :=
      hnode ▸ h.tree.reconstructPath
    -- a file leaves the tree and the directory as they are
    have hctx' : ∀ f, ({ ctx with f } : IoFileCtx) =
        { ctx with f, tree := w.tree, lastDirNode := w.lastDirNode } := fun f => by
      rw [← htree, ← hnode]
    obtain ⟨hprint, htest⟩ :=
      printFile_packed hcur hname hvalid.size_lt hvalid.length_le hvalid.accepted hf hdir
    have hused : Planned plan (joinPath (currentDir l ++ [name])) := planned_of_mem hmem
    refine ⟨fun hoff user t hdisk => ?_, fun hok testMode => ?_, fun hok => ?_⟩
    · have hthere := hdisk.dirThere hname.toIsComponent (currentDir_eq_nil_or_mem l)
      have hdecode := @decodeFile_packed τ fs' t qsortR compress _ name contents ctx pre rest hcur
        hname hvalid.size_lt hvalid.length_le hvalid.accepted hf hdir hoff user
      have hclash : view' t (joinPath (currentDir l ++ [name])) ≠ some .dir := fun hview => by
        cases hdisk.noClash _ hmem _ hview
      obtain ⟨t₁, hopen, hview₁⟩ := hfs'.openWrite t _ hused hthere hclash
      rw [List.length_singleton, decodeEntries_one, hdecode, extractPlan_one, extractEntry_file, hctx',
        hfinds.ask t hused]
      dsimp only
      have hok : PlanEntry.CanBeRecovered qsortR compress (.file (currentDir l) name contents) ↔
          Recoverable qsortR compress (joinPath (currentDir l ++ [name])) contents := Iff.rfl
      by_cases hask : (askOver (view' t (joinPath (currentDir l ++ [name]))) user).1 = true
      · rw [if_pos hask, if_pos hask, hopen, Option.bind_some]
        by_cases hrecoverable : Recoverable qsortR compress (joinPath (currentDir l ++ [name]))
            contents
        · rw [if_pos hrecoverable, if_pos (hok.mpr hrecoverable), Option.map_some, Option.map_some,
            hfs'.closeWrite_update hused hview₁]
          rfl
        · rw [if_neg hrecoverable, if_neg (hok.not.mpr hrecoverable)]
          rfl
      · rw [if_neg hask, if_neg hask]
        rfl
    · rw [← hctx', List.length_singleton, printEntries_one]
      exact hprint (hok _ List.mem_cons_self) testMode
    · obtain ⟨e, he, hnot⟩ := hok
      obtain rfl := List.mem_singleton.mp he
      rw [List.length_singleton, printEntries_one]
      exact htest hnot

/-- For a directory it does not matter whether compression was asked for. -/
theorem encodeDir_compress {σ : Type} {fs : FileSystem σ} {used : CStr → Prop}
    {view : σ → DiskView} {s : σ} (hfs : fs.Works used view) (qsortR : QsortR) {path : CStr}
    (hnode : view s path = some .dir) (ctx : IoFileCtx) (compress : Bool) :
    braIoFileCtxEncodeAndWriteToDisk fs qsortR s ctx path compress =
      braIoFileCtxEncodeAndWriteToDisk fs qsortR s ctx path false := by
  have hset : ∀ attributes, attributes = AttrType.dir.bits ∨ attributes = AttrType.subdir.bits →
      fs.fileAttributes s path = some attributes →
      braIoFileCtxEncodeAndWriteToDisk fs qsortR s ctx path compress =
        braIoFileCtxEncodeAndWriteToDisk fs qsortR s ctx path false := by
    intro attributes hattr hread
    have htype : braAttrType attributes ≠ .file := by
      rcases hattr with rfl | rfl <;> decide
    rw [braIoFileCtxEncodeAndWriteToDisk, braIoFileCtxEncodeAndWriteToDisk, hread]
    simp only [Option.bind_eq_bind, Option.bind_some, setComp_of_ne_file htype]
  rcases hfs.fileAttributes_dir s path hnode with h | h
  · exact hset _ (.inl rfl) h
  · exact hset _ (.inr rfl) h

/-- The writer appends a directory to its archive, and the reader passes over it. -/
theorem packedDir_step (qsortR : QsortR) (compress : Bool) {parent : List CStr} {name : CStr}
    (hvalid : (PlanEntry.dir parent name).Valid) (hmem : .dir parent name ∈ plan)
    (hfollows : Follows l (.dir parent name)) (hlength : l.length + 1 < 2 ^ 32)
    (h : WriterKeeps l bytes w) :
    ∃ w', WriterKeeps (l ++ [.dir parent name])
        (bytes ++ entryImage qsortR compress l (.dir parent name)) w' ∧
      Packs qsortR compress plan l [.dir parent name] w w' := by
  have hname := hvalid.names name (by simp [PlanEntry.path])
  have hpos := joinPath_length_pos parent hname
  -- `p` is the node of the parent, whose index is what is written
  obtain ⟨p, tree', hp, rfl, hnumber, hadd, hinsert, hafter⟩ :=
    h.packerTree.dir hvalid.names hfollows hlength
  have himage : entryImage qsortR compress l (.dir p.path name) =
      dirImage (joinPath (p.path ++ [name])) name p.index := by
    rw [hnumber]
    rfl
  refine ⟨{ w with
    f := ioAt (bytes ++ dirImage (joinPath (p.path ++ [name])) name p.index) []
    lastDir := joinPath (p.path ++ [name])
    lastDirSize := (joinPath (p.path ++ [name])).bytes.length
    tree := tree'
    lastDirNode := .dir ((directories l).length + 1) name p }, ?_, ?_, ?_⟩
  · rw [himage]
    refine ⟨⟨rfl, ?_, ?_, hafter.toTreeAfter⟩, hafter⟩
    · rw [currentDir_append_dir]
    · rw [currentDir_append_dir]
  · intro σ fs used view s hfs hdisk
    have hsource := hdisk _ List.mem_cons_self
    rw [List.map_singleton, encodeEntries_one]
    exact (encodeDir_compress hfs qsortR hsource w compress).trans
      (encodeDir_ioAt hfs qsortR hname hsource hpos hvalid.length_le h.f_eq hadd)
  · intro τ fs' view' hfs' _ ctx pre rest hf htree hnode
    rw [entriesImage_one, himage] at hf ⊢
    have hindex : p.index < 2 ^ 32 := by
      have hlt := h.tree.wellFormed.index_lt hp
      have hle := directories_length_le l
      omega
    have hpath : braTreeDirReconstructPath (.dir ((directories l).length + 1) name p) =
        joinPath (p.path ++ [name]) := by
      rw [hafter.reconstructPath, currentDir_append_dir]
    obtain ⟨hdecode, hprint⟩ := @readDir_packed τ fs' _ name ctx pre rest p _ tree' hname hpos
      hvalid.length_le hvalid.accepted hf hindex (htree ▸ hinsert) hpath
    have hused : Planned plan (joinPath (p.path ++ [name])) := planned_of_mem hmem
    refine ⟨fun _ user t hdisk => ?_, fun _ testMode => ?_, fun hok => ?_⟩
    · have hthere := hdisk.dirThere hname.toIsComponent hfollows.1
      obtain ⟨t', hdir, hview'⟩ := extractDir_eq hfs' hused hthere fun node hn => by
        have hkind := hdisk.noClash _ hmem node hn
        cases node with
        | dir => rfl
        | file contents => cases hkind
      rw [List.length_singleton, decodeEntries_one, hdecode, hdir, extractPlan_one,
        extractEntry_dir, Option.map_some, Option.map_some, hview']
      rfl
    · rw [List.length_singleton, printEntries_one]
      exact hprint testMode
    · obtain ⟨e, he, hnot⟩ := hok
      obtain rfl := List.mem_singleton.mp he
      exact absurd trivial hnot

end Steps

/-! ## A run of entries -/

section Run
variable {l : List PlanEntry} {bytes : Bytes} {w : IoFileCtx}

theorem ReadsPacked.append {τ : Type} {fs' : FileSystem τ} {view' : τ → DiskView}
    {ok : PlanEntry → Prop} [DecidablePred ok] {src : DiskView}
    {plan r₁ r₂ : List PlanEntry} {image₁ image₂ : Bytes} {w₁ w₂ : IoFileCtx}
    (hsrc : ∀ e ∈ plan, src e.fn = some e.node) (hl : ∀ e ∈ l ++ r₁, e ∈ plan)
    (h₁ : ReadsPacked fs' view' ok plan l r₁ image₁ w w₁)
    (h₂ : ReadsPacked fs' view' ok plan (l ++ r₁) r₂ image₂ w₁ w₂) :
    ReadsPacked fs' view' ok plan l (r₁ ++ r₂) (image₁ ++ image₂) w w₂ := by
  intro ctx pre rest hf htree hnode
  rw [List.append_assoc] at hf
  have hdata : (ioAt (pre ++ image₁) (image₂ ++ rest)).data.length = ctx.f.data.length := by
    rw [hf, ioAt_data, ioAt_data, List.append_assoc]
  have hfirst := h₁ ctx pre (image₂ ++ rest) hf htree hnode
  have hsecond := h₂ { ctx with
    f := ioAt (pre ++ image₁) (image₂ ++ rest)
    tree := w₁.tree
    lastDirNode := w₁.lastDirNode } (pre ++ image₁) rest rfl rfl rfl
  rw [List.append_assoc] at hsecond
  exact hfirst.append hsrc hl hdata hsecond

/-- **The run**: the writer goes through a part of a plan, with the same result on every disk that
has the entries, and the reader passes over what it has written. -/
theorem packed_run (qsortR : QsortR) (compress : Bool) (plan : EntryPlan) {src : DiskView}
    (hsrc : ∀ e ∈ plan.entries, src e.fn = some e.node) {r later : List PlanEntry}
    (hplan : plan.entries = l ++ r ++ later) (h : WriterKeeps l bytes w)
    (hbytes : 0 < bytes.length) :
    ∃ w', WriterKeeps (l ++ r) (bytes ++ entriesImage qsortR compress l r) w' ∧
      Packs qsortR compress plan.entries l r w w' := by
  induction r generalizing l bytes w with
  | nil =>
    refine ⟨w, by simpa [entriesImage] using h, fun _ _ => rfl, fun _ _ ctx pre rest hf htree hnode => ?_⟩
    rw [entriesImage, List.append_nil, ← htree, ← hnode, ← show ctx.f = ioAt pre rest from hf]
    exact .nil
  | cons e r ih =>
    have hplan' : plan.entries = l ++ [e] ++ r ++ later := by
      rw [hplan, List.append_assoc l [e]]
      rfl
    have hmem : ∀ e' ∈ l ++ [e], e' ∈ plan.entries := fun e' he' =>
      hplan' ▸ List.mem_append_left _ (List.mem_append_left _ he')
    have hvalid := plan.valid e (hmem e (by simp))
    have hfollows : Follows l e := by
      have h := plan.follows l.length (by simp [hplan'])
      simpa [hplan'] using h
    have hlength : l.length + 1 < 2 ^ 32 := by
      have hlt := plan.length_lt
      rw [hplan', List.length_append, List.length_append, List.length_append,
        List.length_singleton] at hlt
      omega
    -- one step, by the kind of the entry; the rest is the induction hypothesis
    have hstep : ∃ w', WriterKeeps (l ++ [e]) (bytes ++ entryImage qsortR compress l e) w' ∧
        Packs qsortR compress plan.entries l [e] w w' := by
      cases e with
      | dir parent name =>
        exact packedDir_step qsortR compress hvalid (hmem _ (by simp)) hfollows hlength h
      | file parent name contents =>
        exact packedFile_step qsortR compress hvalid (hmem _ (by simp)) hfollows h hbytes
    obtain ⟨w₁, h₁, hpacks₁⟩ := hstep
    obtain ⟨w₂, h₂, hpacks₂⟩ := ih hplan' h₁ (by
      rw [List.length_append]
      omega)
    refine ⟨w₂, ?_, fun hfs hdisk => ?_, fun hfs' hfinds => ?_⟩
    · rwa [List.append_assoc, List.append_assoc] at h₂
    · obtain ⟨hfirst, hrest⟩ := List.forall_mem_cons.mp hdisk
      have hencode₁ := hpacks₁.writes hfs fun e' he' => List.mem_singleton.mp he' ▸ hfirst
      rw [List.map_singleton, encodeEntries_one] at hencode₁
      rw [List.map_cons, encodeEntries, hencode₁]
      exact hpacks₂.writes hfs hrest
    · have hread := (hpacks₁.reads hfs' hfinds).append hsrc hmem (hpacks₂.reads hfs' hfinds)
      rw [entriesImage_one] at hread
      exact hread

/-- **A packed archive**: the writer makes the same of the entries on every disk, and a reader
that has come to the end of the header passes over all of them. -/
theorem packedArchive_packs (qsortR : QsortR) (compress : Bool) (plan : EntryPlan) {src : DiskView}
    (hsrc : ∀ e ∈ plan.entries, src e.fn = some e.node) :
    ∃ w, WriterKeeps plan.entries (archiveImage qsortR compress plan.entries) w ∧
      Packs qsortR compress plan.entries [] plan.entries (newArchive plan.entries.length) w := by
  have hstart : WriterKeeps [] (leBytes 4 braMagic ++ leBytes 4 plan.entries.length)
      (newArchive plan.entries.length) :=
    ⟨newArchive_writerAfter plan.entries.length, .nil⟩
  have hpos : 0 < (leBytes 4 braMagic ++ leBytes 4 plan.entries.length).length := by simp
  exact packed_run qsortR compress plan hsrc (List.append_nil _).symm hstart hpos

/-- **What `bra` writes** depends on the entries alone. -/
theorem writeArchive_eq {σ : Type} {fs : FileSystem σ} {used : CStr → Prop}
    {view : σ → DiskView} {s : σ} (hfs : fs.Works used view) (qsortR : QsortR) (compress : Bool)
    (plan : EntryPlan) (hsrc : ∀ e ∈ plan.entries, view s e.fn = some e.node) :
    writeArchive fs qsortR s plan.entries.length (plan.entries.map PlanEntry.fn) compress =
      some (archiveImage qsortR compress plan.entries) := by
  obtain ⟨w, hw, hpacks⟩ := packedArchive_packs qsortR compress plan hsrc
  rw [writeArchive, hpacks.writes hfs hsrc, Option.map_some, hw.f_eq, ioAt_data, List.append_nil]

/-- What is written behind a module with room for a footer. -/
theorem writeSfxArchive_image {σ : Type} {fs : FileSystem σ} {used : CStr → Prop}
    {view : σ → DiskView} {s : σ} (hfs : fs.Works used view) (qsortR : QsortR) (compress : Bool)
    (plan : EntryPlan) (hsrc : ∀ e ∈ plan.entries, view s e.fn = some e.node)
    (hne : plan.entries ≠ []) {sfxModule : Bytes} (hmodule : sizeofFooter < sfxModule.length) :
    entriesImage qsortR compress [] plan.entries ≠ [] ∧
      writeSfxArchive fs qsortR s sfxModule plan.entries.length
        (plan.entries.map PlanEntry.fn) compress = some (sfxArchiveImage qsortR compress
          (sfxModule.take (sfxModule.length - sizeofFooter)) plan.entries) := by
  have hwrite := writeArchive_eq hfs qsortR compress plan hsrc
  obtain ⟨entries, hpayload, hplain, hsfx⟩ := writeSfxArchive_eq fs qsortR s hmodule
    plan.entries.length (fun h => hne (List.map_eq_nil_iff.mp h)) compress
  -- what is written for the entries is the same in both
  obtain ⟨payload, rfl, hsame⟩ := Option.map_eq_some_iff.mp (hplain.symm.trans hwrite)
  obtain rfl : payload = entriesImage qsortR compress [] plan.entries :=
    List.append_cancel_left hsame
  refine ⟨hpayload _ rfl, hsfx.trans ?_⟩
  rw [Option.map_some, sfxArchiveImage, List.length_take_of_le (Nat.sub_le _ _), archiveImage]
  simp only [List.append_assoc]

/-- **The format**: on every disk that shows the entries of a plan, `bra` writes the bytes that the
format gives them, each directory by the number of its parent, each file as the compressor or the
copier leaves it; and behind a module that has room for a footer, the same bytes between the
program and a footer. -/
theorem packed_format {σ : Type} {fs : FileSystem σ} {view : σ → DiskView} {s : σ}
    (qsortR : QsortR) (compress : Bool) (plan : EntryPlan)
    (hfs : fs.Works (Planned plan.entries) view)
    (hsrc : ∀ e ∈ plan.entries, view s e.fn = some e.node) :
    writeArchive fs qsortR s plan.entries.length (plan.entries.map PlanEntry.fn) compress =
        some (archiveImage qsortR compress plan.entries) ∧
      ∀ sfxModule : Bytes, sizeofFooter < sfxModule.length → plan.entries ≠ [] →
        writeSfxArchive fs qsortR s sfxModule plan.entries.length
          (plan.entries.map PlanEntry.fn) compress = some (sfxArchiveImage qsortR compress
            (sfxModule.take (sfxModule.length - sizeofFooter)) plan.entries) :=
  ⟨writeArchive_eq hfs qsortR compress plan hsrc, fun _ hmodule hne =>
    (writeSfxArchive_image hfs qsortR compress plan hsrc hne hmodule).2⟩

theorem letters_source : ∀ e ∈ lettersPlan.entries,
    planView lettersPlan.entries e.fn = some e.node := by
  decide +kernel

theorem packed_format_letters :
    writeArchive FileSystem.inMemory QsortR.mergeSort (planView lettersPlan.entries)
        lettersPlan.entries.length (lettersPlan.entries.map PlanEntry.fn) true =
          some (archiveImage QsortR.mergeSort true lettersPlan.entries) ∧
      writeSfxArchive FileSystem.inMemory QsortR.mergeSort (planView lettersPlan.entries)
        (77 :: List.replicate 12 0) lettersPlan.entries.length
        (lettersPlan.entries.map PlanEntry.fn) true =
          some (sfxArchiveImage QsortR.mergeSort true [77] lettersPlan.entries) := by
  obtain ⟨hplain, hsfx⟩ :=
    packed_format QsortR.mergeSort true lettersPlan (FileSystem.inMemory_works _) letters_source
  exact ⟨hplain, hsfx (77 :: List.replicate 12 0) (by decide) (by decide)⟩

end Run

end BrArchive
