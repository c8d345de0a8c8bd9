import BrArchive.PackCommand

/-! # A run of `bra`

`Bra::validateArgs` and `Bra::run_prog` of `bra.cpp`, from the command line to the disk with the
archive on it.  The disk is read three times over: for the arguments, for the plan, and for the
contents of the files, and in between the archive itself is created.  So what is packed is what
was there in the beginning only if the archive is none of the files, which is why its name is
taken out of the set.
-/
namespace BrArchive

/-! ## `bra` after its arguments -/

/-- `path::replace_extension`. -/
def StdPath.replaceExtension (p e : Bytes) : Bytes :=
  p.take (p.length - (StdPath.extension p).length) ++ e

/-- `BRA_SFX_FILENAME`, `"bra.sfx"`. -/
def sfxFilename : CStr := CStr.ofBuffer [98, 114, 97, 46, 115, 102, 120]

/-- The members of `Bra` that `validateArgs` sets. -/
structure BraJob where
  outFilename : CStr
  tree : PackTree
  totFiles : Nat

/-- The file that is written: a temporary one for a self-extracting archive. -/
def Bra.outFilename (st : BraArgs) : CStr :=
  CStr.ofBuffer (if st.sfx then StdPath.filenameSfxAdjust st.outFilename.bytes true
    else filenameArchiveAdjust st.outFilename.bytes)

/-- The archive that is left in the end. -/
def Bra.archivePath (sfx : Bool) (outFilename : CStr) : CStr :=
  if sfx then CStr.ofBuffer (StdPath.replaceExtension outFilename.bytes StdPath.braSfxFileExt)
  else outFilename

section Run
variable {σ : Type} (fs : FileSystem σ) (fileRename : σ → CStr → CStr → Option σ)
  (trySanitize : FsPath → Option FsPath) (directoryIterator : FsPath → Listing) (qsortR : QsortR)

/-- `bra::fs::dir_exists` on the elements of a path. -/
def FileSystem.dirAt (s : σ) (g : FsPath) : Bool := fs.dirExists s (joinPath g)

/-- `bra::fs::file_exists` on the elements of a path. -/
def FileSystem.fileAt (s : σ) (g : FsPath) : Bool := fs.fileExists s (joinPath g)

/-- `bra::fs::dir_make` of the directory of a path, if it has one. -/
def FileSystem.makeParent (s : σ) (path : CStr) : Option σ :=
  let parent := CStr.ofBuffer (StdPath.parentPath path.bytes)
  if parent.bytes = [] then some s
  else if fs.dirExists s parent then some s
  else fs.dirMake s parent

/-- The end of `Bra::validateArgs`: the tree of the files. -/
def Bra.planJob (outFilename : CStr) (files : OrderedSet FsPath) (user : User) (s : σ) :
    Option (BraJob × User × σ) :=
  match makeTree (fs.dirAt s) (fs.fileAt s) files with
  | none => none
  | some (tree, totFiles) =>
    if totFiles = 0 ∨ totFiles > 2 ^ 32 - 1 then none
    else some (⟨outFilename, tree, totFiles⟩, user, s)

/-- `Bra::validateArgs`.  An archive that exists is taken out of the files, and for one that does
not its directory is made. -/
def Bra.validateArgs (st : BraArgs) (user : User) (s : σ) : Option (BraJob × User × σ) :=
  if st.files.keys = [] then none
  else
    match fileSetAddDirs trySanitize (fs.dirAt s) (fs.fileAt s) st.files with
    | none => none
    | some files =>
      if st.outFilename.bytes = [] then none
      else if st.sfx && !fs.fileExists s sfxFilename then none
      else
        let outFilename := Bra.outFilename st
        let asked :=
          if st.sfx then braFsFileExistsAskOverwrite fs s outFilename user true else (true, user)
        if !asked.1 then none
        else
          let p := Bra.archivePath st.sfx outFilename
          if fs.fileExists s p then
            let asked := fileExistsAskOverwrite asked.2 true
            if !asked.1 then none
            else
              let files := files.erase (pathElements p)
              let files := if p ≠ outFilename then files.erase (pathElements outFilename) else files
              Bra.planJob fs outFilename files asked.2 s
          else
            match fs.makeParent s outFilename with
            | none => none
            | some s => Bra.planJob fs outFilename files asked.2 s

/-- `Bra::run_prog`: the disk afterwards. -/
def Bra.runProg (st : BraArgs) (job : BraJob) (s : σ) : Option σ :=
  if st.sfx then do
    -- `fs::copy_file` of the module
    let sfxModule ← fs.openRead s sfxFilename
    let s ← fs.openWrite s job.outFilename
    let s := fs.closeWrite s job.outFilename sfxModule
    let paths ← BrArchive.runProg trySanitize job.tree
    let data ← writeSfxArchive fs qsortR s sfxModule job.totFiles (paths.map joinPath) st.compress
    let s := fs.closeWrite s job.outFilename data
    fileRename s job.outFilename (Bra.archivePath true job.outFilename)
  else do
    let s ← fs.openWrite s job.outFilename
    let paths ← BrArchive.runProg trySanitize job.tree
    let data ← writeArchive fs qsortR s job.totFiles (paths.map joinPath) st.compress
    return fs.closeWrite s job.outFilename data

/-- `BraProgram::run` for `bra`: the archive and the disk with it, if the exit code is 0 and no help
was asked for. -/
def Bra.run (args : List CStr) (input : Bytes) (s : σ) : Option (CStr × σ) :=
  match parseArgs (bra trySanitize directoryIterator) trySanitize (fs.dirAt s) (fs.fileAt s)
    BraArgs.initial args with
  | .ok (policy, st) => do
    let (job, _, s) ← Bra.validateArgs fs trySanitize st ⟨policy, input⟩ s
    let s ← Bra.runProg fs fileRename trySanitize qsortR st job s
    return (Bra.archivePath st.sfx job.outFilename, s)
  | _ => none

/-! ## The plan that is made -/

variable {fs fileRename trySanitize directoryIterator qsortR}

/-- The files that `validateArgs` takes out of the set. -/
def Bra.takenOut (fs : FileSystem σ) (s : σ) (sfx : Bool) (outFilename : CStr) : List FsPath :=
  let p := Bra.archivePath sfx outFilename
  if fs.fileExists s p then
    if p ≠ outFilename then [pathElements p, pathElements outFilename] else [pathElements p]
  else []

theorem Bra.mem_takenOut {s : σ} {sfx : Bool} {outFilename : CStr} {g : FsPath} :
    g ∈ Bra.takenOut fs s sfx outFilename ↔
      fs.fileExists s (Bra.archivePath sfx outFilename) = true ∧
        (g = pathElements (Bra.archivePath sfx outFilename) ∨ g = pathElements outFilename) := by
  rw [takenOut]
  split
  · rename_i hexists
    rw [and_iff_right hexists]
    split
    · rw [List.mem_pair]
    · rename_i heq
      rw [not_not.mp heq, or_self, List.mem_singleton]
  · rename_i hnew
    exact iff_of_false List.not_mem_nil fun h => hnew h.1

theorem Bra.planJob_eq_some {outFilename : CStr} {files : OrderedSet FsPath} {user user' : User}
    {s s' : σ} {job : BraJob}
    (h : Bra.planJob fs outFilename files user s = some (job, user', s')) :
    s' = s ∧ job.outFilename = outFilename ∧
      makeTree (fs.dirAt s) (fs.fileAt s) files = some (job.tree, job.totFiles) ∧
      job.totFiles ≠ 0 := by
  rw [planJob] at h
  split at h
  · cases h
  · rename_i htree
    split at h
    · cases h
    · rename_i htot
      simp only [Option.some.injEq, Prod.mk.injEq] at h
      obtain ⟨rfl, -, rfl⟩ := h
      exact ⟨rfl, rfl, htree, fun h => htot (.inl h)⟩

/-- **What `validateArgs` leaves**: if the directory of the archive is there, the tree of the files
without those taken out. -/
theorem Bra.validateArgs_eq_some {st : BraArgs} {user user' : User} {s s' : σ} {job : BraJob}
    (hparent : fs.makeParent s (Bra.outFilename st) = some s)
    (h : Bra.validateArgs fs trySanitize st user s = some (job, user', s')) :
    s' = s ∧ job.outFilename = Bra.outFilename st ∧ job.totFiles ≠ 0 ∧
      (st.sfx = true → fs.fileExists s sfxFilename = true) ∧
      ∃ set, fileSetAddDirs trySanitize (fs.dirAt s) (fs.fileAt s) st.files = some set ∧
        makeTree (fs.dirAt s) (fs.fileAt s)
          (eraseFiles set (Bra.takenOut fs s st.sfx (Bra.outFilename st))) =
            some (job.tree, job.totFiles) := by
  rw [validateArgs] at h
  split at h
  · cases h
  · split at h
    · cases h
    · rename_i set hset
      split at h
      · cases h
      · split at h
        · cases h
        · rename_i hmodule
          have hmodule : st.sfx = true → fs.fileExists s sfxFilename = true := fun hsfx => by
            rw [hsfx, Bool.true_and, Bool.not_eq_true, Bool.not_eq_false'] at hmodule
            exact hmodule
          dsimp only at h
          generalize (if st.sfx then
            braFsFileExistsAskOverwrite fs s (Bra.outFilename st) user true else (true, user)) =
            asked at h
          split at h
          · cases h
          · rw [takenOut]
            split at h
            · rename_i hexists
              split at h
              · cases h
              · obtain ⟨rfl, hout, htree, htot⟩ := planJob_eq_some h
                refine ⟨rfl, hout, htot, hmodule, set, hset, ?_⟩
                rw [if_pos hexists]
                split at htree
                · rename_i hne
                  rw [if_pos hne]
                  exact htree
                · rename_i heq
                  rw [if_neg heq]
                  exact htree
            · rename_i hnew
              rw [hparent] at h
              obtain ⟨rfl, hout, htree, htot⟩ := planJob_eq_some h
              refine ⟨rfl, hout, htot, hmodule, set, hset, ?_⟩
              rw [if_neg hnew]
              exact htree

/-! ## The place of the archive -/

theorem pathElements_joinPath {g : FsPath} (hg : IsInner g) : pathElements (joinPath g) = g := by
  have hstrtok := strtok_joinPath hg.component hg.1
  have hhead : (joinPath g).bytes.head? ≠ some braDirDelim := by
    obtain ⟨c, rest, rfl⟩ := List.exists_cons_of_ne_nil hg.1
    have hc := hg.component c List.mem_cons_self
    have hsplit := joinPath_split [] c rest
    rw [List.nil_append] at hsplit
    rw [hsplit]
    change (c.bytes ++ _).head? ≠ _
    rw [List.head?_append_of_ne_nil _ hc.ne_nil]
    exact fun h => hc.delim_free (List.mem_of_mem_head? h)
  have hlast : (joinPath g).bytes.getLast? ≠ some braDirDelim := by
    obtain ⟨init, c, rfl⟩ := (List.eq_nil_or_concat' g).resolve_left hg.1
    have hc := hg.component c (by simp)
    rw [joinPath_append_singleton, List.getLast?_append_of_ne_nil _ hc.ne_nil]
    exact fun h => hc.delim_free (List.mem_of_getLast? h)
  rw [pathElements, hstrtok, if_neg hhead, if_neg fun h => hlast h.2, List.nil_append,
    List.append_nil]

theorem joinPath_inj {g g' : FsPath} (hg : IsInner g) (hg' : IsInner g')
    (h : joinPath g = joinPath g') : g = g' := by
  rw [← pathElements_joinPath hg, h, pathElements_joinPath hg']

/-- The archive can be written: its path is in the normal form, its directory is there, nothing
else has its name, and no temporary file is left of an earlier run. -/
structure ArchiveFits (view : DiskView) (sfx : Bool) (outFilename : CStr) : Prop where
  out : ∃ g, IsInner g ∧ joinPath g = outFilename
  archive : ∃ g, IsInner g ∧ joinPath g = Bra.archivePath sfx outFilename
  dirThere : DirThere view outFilename
  noDir : view outFilename ≠ some .dir
  noArchiveDir : view (Bra.archivePath sfx outFilename) ≠ some .dir
  noTemporary : sfx = true → view outFilename = none

theorem parentPath_joinPath {init : FsPath} {c : CStr} (h : ∀ d ∈ init ++ [c], IsComponent d) :
    StdPath.parentPath (joinPath (init ++ [c])).bytes = (joinPath init).bytes := by
  have hdir : StdPath.dirPart (joinPath (init ++ [c])).bytes = delimited init := by
    rw [joinPath_append_singleton, StdPath.dirPart_append (h c (by simp)).delim_free,
      dirPart_delimited]
  rw [StdPath.parentPath, hdir]
  obtain rfl | ⟨init, d, rfl⟩ := List.eq_nil_or_concat' init
  · rfl
  · have hd := h d (by simp)
    obtain ⟨b, hb⟩ := List.exists_mem_of_ne_nil d.bytes hd.ne_nil
    have hall : ¬ (delimited (init ++ [d])).all (· == braDirDelim) = true := by
      rw [List.all_eq_true]
      intro hall
      have hb' := hall b (List.mem_flatMap.mpr ⟨d, by simp, List.mem_append_left _ hb⟩)
      exact hd.delim_free (eq_of_beq hb' ▸ hb)
    rw [if_neg hall, delimited_eq (by simp),
      List.rdropWhile_concat_pos (· == braDirDelim) _ _ (beq_self_eq_true _),
      joinPath_append_singleton, List.rdropWhile_eq_self_iff]
    intro hne hlast
    have hget := List.getLast?_eq_some_getLast hne
    rw [eq_of_beq hlast, List.getLast?_append_of_ne_nil _ hd.ne_nil] at hget
    exact hd.delim_free (List.mem_of_getLast? hget)

theorem StdPath.delim_notMem_extension (p : Bytes) : braDirDelim ∉ StdPath.extension p := by
  rw [extension]
  split
  · exact List.not_mem_nil
  · split
    · exact List.not_mem_nil
    · rw [List.mem_cons, not_or]
      refine ⟨by decide, fun h => delim_notMem_filename p ?_⟩
      exact (List.rtakeWhile_suffix _ _).subset h

/-- Another extension does not change the directory. -/
theorem StdPath.dirPart_replaceExtension (p : Bytes) {e : Bytes} (he : braDirDelim ∉ e) :
    StdPath.dirPart (StdPath.replaceExtension p e) = StdPath.dirPart p := by
  obtain ⟨q, hq⟩ : ∃ q, p = q ++ extension p := by
    by_cases hnil : extension p = []
    · exact ⟨p, by rw [hnil, List.append_nil]⟩
    · obtain ⟨q, hq, -⟩ := exists_of_extension_ne_nil hnil
      exact ⟨q, hq⟩
  have hlen : q.length = p.length - (extension p).length := by
    have h := congrArg List.length hq
    rw [List.length_append] at h
    omega
  have htake : p.take (p.length - (extension p).length) = q := by
    conv => lhs; arg 2; rw [hq]
    exact List.take_left' hlen
  rw [replaceExtension, htake, dirPart_append he, hq]
  exact (dirPart_append (delim_notMem_extension _)).symm

theorem dirOf_congr {p q : CStr} (h : StdPath.dirPart p.bytes = StdPath.dirPart q.bytes) :
    dirOf p = dirOf q := by
  have hdir : ∀ p : CStr, dirOf p = CStr.ofBuffer (StdPath.dirPart p.bytes).dropLast := fun p => by
    rw [dirOf, StdPath.dirPart, List.rdropWhile, List.drop_one, List.dropLast_reverse]
  rw [hdir, hdir, h]

/-- The archive is in the directory of the file that is written. -/
theorem Bra.dirOf_archivePath (sfx : Bool) (outFilename : CStr) :
    dirOf (Bra.archivePath sfx outFilename) = dirOf outFilename := by
  cases sfx with
  | false => rfl
  | true =>
    refine dirOf_congr ?_
    have hfree : 0 ∉ StdPath.replaceExtension outFilename.bytes StdPath.braSfxFileExt :=
      List.not_mem_append (fun h => outFilename.nul_free (List.mem_of_mem_take h)) (by decide)
    have hbytes : (Bra.archivePath true outFilename).bytes =
        StdPath.replaceExtension outFilename.bytes StdPath.braSfxFileExt := cString_eq_self hfree
    rw [hbytes]
    exact StdPath.dirPart_replaceExtension _ (by decide)

section Disk
variable {view : σ → DiskView} {s : σ}

theorem makeParent_eq (hfs : fs.Works (PathOf IsNormal) view) {sfx : Bool} {outFilename : CStr}
    (hfits : ArchiveFits (view s) sfx outFilename) : fs.makeParent s outFilename = some s := by
  obtain ⟨g, hg, hout⟩ := hfits.out
  obtain ⟨init, c, rfl⟩ := (List.eq_nil_or_concat' g).resolve_left hg.1
  have hparent : CStr.ofBuffer (StdPath.parentPath outFilename.bytes) = joinPath init := by
    rw [← hout, parentPath_joinPath hg.component, CStr.ofBuffer_bytes]
  have hthere := hfits.dirThere
  rw [DirThere, ← hout, dirOf_joinPath init (hg.component c (by simp))] at hthere
  rw [FileSystem.makeParent, hparent]
  rcases hg.left with rfl | hinit
  · exact if_pos rfl
  · rcases hthere with hnil | hdir
    · exact if_pos hnil
    · rw [if_pos ((hfs.dirExists s _ ⟨init, hinit.normal, rfl⟩).mpr hdir), ite_self]

/-! ## The disk as `bra` sees it -/

theorem dirAt_eq (hfs : fs.Works (PathOf IsNormal) view) (s : σ) {g : FsPath} (hg : IsNormal g) :
    fs.dirAt s g = dirOn (view s) g := by
  rw [Bool.eq_iff_iff, dirOn, decide_eq_true_iff]
  exact hfs.dirExists s (joinPath g) ⟨g, hg, rfl⟩

theorem fileAt_eq (hfinds : fs.FindsFiles (PathOf IsNormal) view) (s : σ) {g : FsPath}
    (hg : IsNormal g) : fs.fileAt s g = fileOn (view s) g := by
  rw [Bool.eq_iff_iff]
  refine (hfinds s (joinPath g) ⟨g, hg, rfl⟩).trans ?_
  rw [fileOn]
  split
  · rename_i contents hview
    exact iff_of_true ⟨contents, hview⟩ rfl
  · rename_i hnot
    refine iff_of_false ?_ Bool.false_ne_true
    rintro ⟨contents, hview⟩
    exact hnot contents hview

section Queries
variable {dirExists fileExists dirExists' fileExists' : FsPath → Bool}

theorem addDirsLoop_congr {l : List FsPath} (hdir : ∀ g ∈ l, dirExists g = dirExists' g)
    (hfile : ∀ g ∈ l, fileExists g = fileExists' g) (files : OrderedSet FsPath) :
    addDirsLoop trySanitize dirExists fileExists files l =
      addDirsLoop trySanitize dirExists' fileExists' files l := by
  induction l generalizing files with
  | nil => rfl
  | cons f l ih =>
    have hl := ih (fun g hg => hdir g (List.mem_cons_of_mem f hg))
      fun g hg => hfile g (List.mem_cons_of_mem f hg)
    simp only [addDirsLoop, hdir f List.mem_cons_self, hfile f List.mem_cons_self, hl]

/-- The first pass asks about the files of the set. -/
theorem fileSetAddDirs_congr {files : OrderedSet FsPath}
    (hdir : ∀ g ∈ files.keys, dirExists g = dirExists' g)
    (hfile : ∀ g ∈ files.keys, fileExists g = fileExists' g) :
    fileSetAddDirs trySanitize dirExists fileExists files =
      fileSetAddDirs trySanitize dirExists' fileExists' files := by
  rw [fileSetAddDirs, fileSetAddDirs, addDirsLoop_congr hdir hfile]

theorem makeTreeLoop_congr {l : List FsPath} (hdir : ∀ g ∈ l, dirExists g = dirExists' g)
    (hfile : ∀ g ∈ l, fileExists g = fileExists' g) (tree : PackTree) (n : Nat) :
    makeTreeLoop dirExists fileExists tree n l = makeTreeLoop dirExists' fileExists' tree n l := by
  induction l generalizing tree n with
  | nil => rfl
  | cons f l ih =>
    have hl := ih (fun g hg => hdir g (List.mem_cons_of_mem f hg))
      fun g hg => hfile g (List.mem_cons_of_mem f hg)
    simp only [makeTreeLoop, hdir f List.mem_cons_self, hfile f List.mem_cons_self, hl]

/-- The operands are asked about in their normal form. -/
theorem gather_congr {o : Bool × CStr}
    (hdir : ∀ p, trySanitize (pathElements o.2) = some p → dirExists p = dirExists' p)
    (hfile : ∀ p, trySanitize (pathElements o.2) = some p → fileExists p = fileExists' p)
    (files : OrderedSet FsPath) :
    gather trySanitize dirExists fileExists directoryIterator files o =
      gather trySanitize dirExists' fileExists' directoryIterator files o := by
  rw [gather, gather]
  cases hp : trySanitize (pathElements o.2) with
  | none => rfl
  | some p => simp only [hdir p hp, hfile p hp]

theorem foldlM_gather_congr {ops : List (Bool × CStr)}
    (hdir : ∀ o ∈ ops, ∀ p, trySanitize (pathElements o.2) = some p → dirExists p = dirExists' p)
    (hfile : ∀ o ∈ ops, ∀ p, trySanitize (pathElements o.2) = some p →
      fileExists p = fileExists' p) (files : OrderedSet FsPath) :
    ops.foldlM (gather trySanitize dirExists fileExists directoryIterator) files =
      ops.foldlM (gather trySanitize dirExists' fileExists' directoryIterator) files := by
  induction ops generalizing files with
  | nil => rfl
  | cons o ops ih =>
    rw [List.foldlM_cons, List.foldlM_cons,
      gather_congr (hdir o List.mem_cons_self) (hfile o List.mem_cons_self)]
    exact congrArg (Option.bind _) (funext fun files => ih
      (fun o ho => hdir o (List.mem_cons_of_mem _ ho))
      (fun o ho => hfile o (List.mem_cons_of_mem _ ho)) files)

end Queries

/-- The arguments are taken as the disk has it. -/
theorem parseArgs_onDisk (hfs : fs.Works (PathOf IsNormal) view)
    (hfinds : fs.FindsFiles (PathOf IsNormal) view) {args : List CStr} {ws : List Word}
    (hws : readWords Bra.options.takesValue args = some ws)
    (hsanitize : Sanitizes trySanitize (OperandPath (operandsUnder false ws)))
    {policy : OverwritePolicy} {st : BraArgs}
    (h : parseArgs (bra trySanitize directoryIterator) trySanitize (fs.dirAt s) (fs.fileAt s)
      BraArgs.initial args = .ok (policy, st)) :
    parseArgs (bra trySanitize directoryIterator) trySanitize (dirOn (view s)) (fileOn (view s))
      BraArgs.initial args = .ok (policy, st) := by
  obtain ⟨hne, ws', hws', hpolicy, files, hfold, hst⟩ := bra_parseArgs_iff.mp h
  obtain rfl := Option.some.inj (hws.symm.trans hws')
  refine bra_parseArgs_iff.mpr ⟨hne, ws, hws, hpolicy, files, ?_, hst⟩
  have hnormal : ∀ o ∈ operandsUnder false ws, ∀ p, trySanitize (pathElements o.2) = some p →
      IsNormal p := fun o ho => hsanitize.normal _ ⟨o, ho, rfl⟩
  rw [← hfold]
  exact foldlM_gather_congr (fun o ho p hp => (dirAt_eq hfs s (hnormal o ho p hp)).symm)
    (fun o ho p hp => (fileAt_eq hfinds s (hnormal o ho p hp)).symm) _

/-- No directory is taken out. -/
theorem takenOut_noDir {sfx : Bool} {outFilename : CStr}
    (hfits : ArchiveFits (view s) sfx outFilename) :
    ∀ r ∈ Bra.takenOut fs s sfx outFilename, ¬ dirOn (view s) r := by
  obtain ⟨g, hg, hout⟩ := hfits.out
  obtain ⟨g', hg', harchive⟩ := hfits.archive
  intro r hr hdir
  have hview := of_decide_eq_true hdir
  rcases (Bra.mem_takenOut.mp hr).2 with rfl | rfl
  · rw [← harchive, pathElements_joinPath hg', harchive] at hview
    exact hfits.noArchiveDir hview
  · rw [← hout, pathElements_joinPath hg, hout] at hview
    exact hfits.noDir hview

/-- Of what is on the disk, just the archive is taken out. -/
theorem mem_takenOut_iff (hfinds : fs.FindsFiles (PathOf IsNormal) view) {sfx : Bool}
    {outFilename : CStr} (hfits : ArchiveFits (view s) sfx outFilename) {g : FsPath} (hg : IsInner g)
    (hthere : dirOn (view s) g ∨ fileOn (view s) g) :
    g ∈ Bra.takenOut fs s sfx outFilename ↔ joinPath g = Bra.archivePath sfx outFilename := by
  obtain ⟨o, ho, hout⟩ := hfits.out
  obtain ⟨a, ha, harchive⟩ := hfits.archive
  have hne := there_ne_none hthere
  rw [Bra.mem_takenOut, ← harchive, pathElements_joinPath ha, ← hout, pathElements_joinPath ho]
  constructor
  · rintro ⟨-, rfl | rfl⟩
    · rfl
    · -- an archive has its own name, and there is no temporary file
      cases sfx with
      | false => exact hout.trans harchive.symm
      | true =>
        rw [hout] at hne
        exact absurd (hfits.noTemporary rfl) hne
  · intro heq
    refine ⟨?_, .inl (joinPath_inj hg ha heq)⟩
    rw [hfinds s _ ⟨a, ha.normal, rfl⟩, ← heq]
    rcases hthere with hdir | hfile
    · exact absurd (heq ▸ of_decide_eq_true hdir) (harchive ▸ hfits.noArchiveDir)
    · rw [fileOn] at hfile
      split at hfile
      · exact ⟨_, ‹_›⟩
      · cases hfile

/-- The file that is written is none of those that are read. -/
theorem out_not_planned {sfx : Bool} {outFilename : CStr}
    (hfits : ArchiveFits (view s) sfx outFilename) {g : FsPath}
    (hthere : dirOn (view s) g ∨ fileOn (view s) g)
    (hne : joinPath g ≠ Bra.archivePath sfx outFilename) : joinPath g ≠ outFilename := by
  cases sfx with
  | false => exact hne
  | true =>
    intro heq
    exact there_ne_none hthere (heq ▸ hfits.noTemporary rfl)

/-! ## What goes into the archive -/

/-- What is selected, and the directories on the way to it. -/
def Reached (view : DiskView) (trySanitize : FsPath → Option FsPath) (ops : List (Bool × CStr))
    (g : FsPath) : Prop :=
  ∃ f, SelectedBy view trySanitize ops f ∧ f ≠ dotPath ∧ g ≠ [] ∧ g <+: f

theorem MatchedBy.there {v : DiskView} {recursive : Bool} {p f : FsPath} (hp : IsNormal p)
    (h : MatchedBy v recursive p f) : IsInner f ∧ (dirOn v f ∨ fileOn v f) := by
  obtain ⟨base, w, g, rfl, -, -, rfl, ⟨hg, hthere⟩, -⟩ := h
  have hbase : base = [] ∨ IsInner base := by
    rcases hp with hdot | hp
    · exact .inl (List.append_eq_singleton_iff.mp hdot |>.elim (·.1) fun h =>
        absurd h.2 (List.cons_ne_nil _ _))
    · exact IsInner.left hp
  refine ⟨hg.append hbase, ?_⟩
  split at hthere
  · exact hthere
  · exact .inr hthere.2

/-- Whatever is selected is on the disk. -/
theorem SelectedBy.there {v : DiskView} {ops : List (Bool × CStr)}
    (hsanitize : Sanitizes trySanitize (OperandPath ops)) {f : FsPath}
    (h : SelectedBy v trySanitize ops f) :
    IsNormal f ∧ (dirOn v f ∨ fileOn v f) := by
  obtain ⟨o, ho, p, hp, h⟩ := h
  have hnormal := hsanitize.normal _ ⟨o, ho, rfl⟩ p hp
  rw [Selected] at h
  split at h
  · rename_i hfile
    exact h ▸ ⟨hnormal, .inr hfile⟩
  · split at h
    · rename_i hdir
      rcases h.2 with rfl | h
      · exact ⟨hnormal, .inl hdir⟩
      · have hstar : IsNormal (innerPath p ++ [starName]) :=
          (IsInner.append hnormal.inner (by decide)).normal
        exact (h.there hstar).imp_left IsInner.normal
    · exact (h.there hnormal).imp_left IsInner.normal

/-- So are the directories on the way. -/
theorem Reached.there {v : DiskView} {ops : List (Bool × CStr)}
    (hsanitize : Sanitizes trySanitize (OperandPath ops)) (htree : IsTree v) {g : FsPath}
    (h : Reached v trySanitize ops g) :
    IsInner g ∧ (dirOn v g ∨ fileOn v g) := by
  obtain ⟨f, hf, hdot, hne, hpre⟩ := h
  obtain ⟨hnormal, hthere⟩ := hf.there hsanitize
  have hinner : IsInner f := hnormal.resolve_left hdot
  refine ⟨⟨hne, fun c hc => hinner.2 c (hpre.subset hc)⟩, ?_⟩
  by_cases heq : g = f
  · exact heq ▸ hthere
  · exact .inl (htree.ancestor hinner.component hthere hne hpre heq)

/-- The paths that the files imply are those that are reached. -/
theorem implied_iff_reached {v : DiskView} {ops : List (Bool × CStr)}
    (hsanitize : Sanitizes trySanitize (OperandPath ops)) {files : OrderedSet FsPath}
    (hfiles : ∀ f, f ∈ files.keys ↔ SelectedBy v trySanitize ops f) (g : FsPath) :
    Implied trySanitize files.keys g ↔ Reached v trySanitize ops g := by
  constructor
  · rintro ⟨f, hf, hdot, f_, hf_, hne, hpre⟩
    have hsel := (hfiles f).mp hf
    rw [hsanitize.normal_self f (hsel.there hsanitize).1] at hf_
    obtain rfl := Option.some.inj hf_
    exact ⟨f, hsel, hdot, hne, hpre⟩
  · rintro ⟨f, hsel, hdot, hne, hpre⟩
    exact ⟨f, (hfiles f).mpr hsel, hdot, f, hsanitize.normal_self f (hsel.there hsanitize).1, hne,
      hpre⟩

/-- Either kind of archive that is written can be unpacked. -/
theorem written_unpacks {τ : Type} {fs' : FileSystem τ} {view' : τ → DiskView}
    {used : CStr → Prop} (hfs : fs.Works used view) (qsortR : QsortR) (compress sfx : Bool)
    (plan : EntryPlan) (hfs' : fs'.Works (Planned plan.entries) view')
    (hfinds' : fs'.FindsFiles (Planned plan.entries) view')
    (hsrc : ∀ e ∈ plan.entries, view s e.fn = some e.node) (hne : plan.entries ≠ [])
    (sfxModule : Bytes) (hmodule : sfx = true → sizeofFooter < sfxModule.length) :
    ∃ data stop, (if sfx then writeSfxArchive fs qsortR s sfxModule plan.entries.length
          (plan.entries.map PlanEntry.fn) compress
        else writeArchive fs qsortR s plan.entries.length (plan.entries.map PlanEntry.fn)
          compress) = some data ∧
      (data.length < 2 ^ 63 → Unpacks fs' view' (PlanEntry.CanBeRecovered qsortR compress)
        plan.entries sfx data stop) := by
  cases sfx with
  | false =>
    exact ⟨_, _, writeArchive_eq hfs qsortR compress plan hsrc,
      archiveImage_unpacks qsortR compress plan hfs' hfinds' hsrc⟩
  | true =>
    have hlong := hmodule rfl
    obtain ⟨hpayload, hwrite⟩ := writeSfxArchive_image hfs qsortR compress plan hsrc hne hlong
    have hprogram : sfxModule.take (sfxModule.length - sizeofFooter) ≠ [] := by
      refine List.ne_nil_of_length_pos ?_
      rw [List.length_take]
      omega
    exact ⟨_, _, hwrite,
      sfxArchiveImage_unpacks qsortR compress plan hfs' hfinds' hsrc hprogram hpayload⟩

/-- What `rename` does to a file under the paths `used`, if its new name has a directory. -/
def Renames (used : CStr → Prop) (view : σ → DiskView)
    (fileRename : σ → CStr → CStr → Option σ) : Prop :=
  ∀ s old new contents, used old → used new → old ≠ new → view s old = some (.file contents) →
    DirThere (view s) new → view s new ≠ some .dir → ∃ s', fileRename s old new = some s' ∧
      view s' = Function.update (Function.update (view s) new (some (.file contents))) old none

theorem ArchiveFits.used {sfx : Bool} {outFilename : CStr}
    (hfits : ArchiveFits (view s) sfx outFilename) :
    PathOf IsNormal outFilename ∧ PathOf IsNormal (Bra.archivePath sfx outFilename) :=
  ⟨hfits.out.imp fun _ hg => hg.imp_left IsInner.normal,
    hfits.archive.imp fun _ hg => hg.imp_left IsInner.normal⟩

/-- **The run of the writing loop**, on a disk where the archive fits and is none of the entries. -/
theorem runProg_written {τ : Type} {fs' : FileSystem τ} {view' : τ → DiskView}
    (hfs : fs.Works (PathOf IsNormal) view) (hrename : Renames (PathOf IsNormal) view fileRename)
    {st : BraArgs} {job : BraJob} {paths : List FsPath}
    (hfits : ArchiveFits (view s) st.sfx job.outFilename)
    (hdiffer : st.sfx = true → Bra.archivePath true job.outFilename ≠ job.outFilename)
    (hmodule : st.sfx = true → ∃ sfxModule, view s sfxFilename = some (.file sfxModule) ∧
      sizeofFooter < sfxModule.length)
    (hpaths : BrArchive.runProg trySanitize job.tree = some paths) (plan : EntryPlan)
    (hfs' : fs'.Works (Planned plan.entries) view')
    (hfinds' : fs'.FindsFiles (Planned plan.entries) view')
    (hne : plan.entries ≠ []) (hsrc : ∀ e ∈ plan.entries, view s e.fn = some e.node)
    (hfns : plan.entries.map PlanEntry.fn = paths.map joinPath)
    (htot : plan.entries.length = job.totFiles)
    (hout : ∀ e ∈ plan.entries, e.fn ≠ job.outFilename) :
    ∃ s' data stop, Bra.runProg fs fileRename trySanitize qsortR st job s = some s' ∧
      view s' = Function.update (view s) (Bra.archivePath st.sfx job.outFilename)
        (some (.file data)) ∧
      (data.length < 2 ^ 63 → Unpacks fs' view' (PlanEntry.CanBeRecovered qsortR st.compress)
        plan.entries st.sfx data stop) := by
  obtain ⟨hused, husedArchive⟩ := hfits.used
  obtain ⟨s₁, hopen, hview₁⟩ := hfs.openWrite s job.outFilename hused hfits.dirThere hfits.noDir
  rw [Bra.runProg]
  cases hsfx : st.sfx with
  | false =>
    have hsrc₁ : ∀ e ∈ plan.entries, view s₁ e.fn = some e.node := fun e he => by
      rw [hview₁, Function.update_of_ne (hout e he)]
      exact hsrc e he
    obtain ⟨data, stop, hwrite, hunpacks⟩ := written_unpacks hfs qsortR st.compress
      false plan hfs' hfinds' hsrc₁ hne [] fun h => absurd h Bool.false_ne_true
    rw [if_neg Bool.false_ne_true, htot, hfns] at hwrite
    refine ⟨fs.closeWrite s₁ job.outFilename data, data, stop, ?_, ?_, hunpacks⟩
    · simp only [Bool.false_eq_true, if_false, hopen, hpaths, hwrite, Option.bind_eq_bind,
        Option.bind_some, Option.pure_def]
    · exact hfs.closeWrite_update hused hview₁ data
  | true =>
    obtain ⟨sfxModule, hfile, hlong⟩ := hmodule hsfx
    have hread := hfs.openRead s sfxFilename sfxModule hfile
    -- the module is copied, and its last bytes are written over
    let s₂ := fs.closeWrite s₁ job.outFilename sfxModule
    have hview₂ : view s₂ = Function.update (view s) job.outFilename (some (.file sfxModule)) :=
      hfs.closeWrite_update hused hview₁ sfxModule
    have hsrc₂ : ∀ e ∈ plan.entries, view s₂ e.fn = some e.node := fun e he => by
      rw [hview₂, Function.update_of_ne (hout e he)]
      exact hsrc e he
    obtain ⟨data, stop, hwrite, hunpacks⟩ := written_unpacks hfs qsortR st.compress
      true plan hfs' hfinds' hsrc₂ hne sfxModule fun _ => hlong
    rw [if_pos rfl, htot, hfns] at hwrite
    have hview₃ : view (fs.closeWrite s₂ job.outFilename data) =
        Function.update (view s) job.outFilename (some (.file data)) :=
      hfs.closeWrite_update hused hview₂ data
    -- nothing but the temporary file has changed
    have hdirThere : DirThere (view (fs.closeWrite s₂ job.outFilename data))
        (Bra.archivePath true job.outFilename) := by
      rw [DirThere, Bra.dirOf_archivePath, hview₃]
      refine hfits.dirThere.imp_right fun hdir => ?_
      rwa [Function.update_of_ne]
      intro heq
      rw [heq, hfits.noTemporary hsfx] at hdir
      cases hdir
    obtain ⟨s', hrun, hview'⟩ := hrename (fs.closeWrite s₂ job.outFilename data) job.outFilename
      (Bra.archivePath true job.outFilename) data hused (hsfx ▸ husedArchive) (hdiffer hsfx).symm
      (by rw [hview₃, Function.update_self]) hdirThere (by
        rw [hview₃, Function.update_of_ne (hdiffer hsfx)]
        exact hsfx ▸ hfits.noArchiveDir)
    refine ⟨s', data, stop, ?_, ?_, hunpacks⟩
    · simp only [if_true, hread, hopen, hpaths, Option.bind_eq_bind, Option.bind_some]
      change (writeSfxArchive fs qsortR s₂ sfxModule job.totFiles (paths.map joinPath)
        st.compress).bind _ = _
      rw [hwrite]
      exact hrun
    · -- the temporary file is gone, as before
      rw [hview', hview₃, Function.update_comm (hdiffer hsfx),
        Function.update_idem, ← hfits.noTemporary hsfx, Function.update_eq_self]

/-- A path before the extensions that are appended to it. -/
theorem filenameSfxAdjust_suffix (p : Bytes) (tmp : Bool) : ∃ q ext,
    StdPath.filenameSfxAdjust p tmp = q ++ ext ++ StdPath.sfxExt tmp ∧ q ⊆ p ∧
      ext ⊆ StdPath.braFileExt := by
  have hbase : (if StdPath.extension p = StdPath.braSfxFileExt then StdPath.stem p else p) ⊆ p := by
    split
    · exact fun b hb => (List.rtakeWhile_suffix _ _).subset (List.mem_of_mem_take hb)
    · exact List.Subset.refl p
  unfold StdPath.filenameSfxAdjust
  generalize (if StdPath.extension p = StdPath.braSfxFileExt then StdPath.stem p else p) = q at hbase ⊢
  dsimp only
  split
  · exact ⟨q, [], by rw [List.append_nil], hbase, List.nil_subset _⟩
  · exact ⟨q, StdPath.braFileExt, rfl, hbase, List.Subset.refl _⟩

/-- The temporary file has a name of its own. -/
theorem archivePath_ne {st : BraArgs} (hsfx : st.sfx = true) :
    Bra.archivePath true (Bra.outFilename st) ≠ Bra.outFilename st := by
  obtain ⟨q, ext, hadjust, hq, hext⟩ := filenameSfxAdjust_suffix st.outFilename.bytes true
  have hout : (Bra.outFilename st).bytes = q ++ ext ++ StdPath.braSfxTmpFileExt := by
    rw [Bra.outFilename, if_pos hsfx, hadjust]
    refine cString_eq_self (List.not_mem_append (List.not_mem_append ?_ ?_) (by decide))
    · exact fun h => st.outFilename.nul_free (hq h)
    · exact fun h => absurd (hext h) (by decide)
  have hlast : (Bra.outFilename st).bytes.getLast? = some 112 := by
    rw [hout]
    exact List.getLast?_append_of_ne_nil _ (List.cons_ne_nil _ _)
  have harchive : (Bra.archivePath true (Bra.outFilename st)).bytes =
      StdPath.replaceExtension (Bra.outFilename st).bytes StdPath.braSfxFileExt := by
    refine cString_eq_self (List.not_mem_append (fun h => ?_) (by decide))
    exact (Bra.outFilename st).nul_free (List.mem_of_mem_take h)
  have hlast' : (Bra.archivePath true (Bra.outFilename st)).bytes.getLast? = some 120 := by
    rw [harchive, StdPath.replaceExtension]
    exact List.getLast?_append_of_ne_nil _ (List.cons_ne_nil _ _)
  intro heq
  rw [heq, hlast] at hlast'
  exact absurd hlast' (by decide)

/-- **The plan of a run**: an accepted command line leaves the disk as it is, and what is planned is
what the operands reach, but for the archive. -/
theorem validateArgs_isPlan (hfs : fs.Works (PathOf IsNormal) view)
    (hfinds : fs.FindsFiles (PathOf IsNormal) view) (htree : IsTree (view s))
    (hdisk : ListsDisk (view s) directoryIterator) {args : List CStr} {ws : List Word}
    (hsanitize : SanitizesHere trySanitize (OperandPath (operandsUnder false ws)))
    {policy : OverwritePolicy} {st : BraArgs} {user user₁ : User} {job : BraJob} {s₁ : σ}
    (hws : readWords Bra.options.takesValue args = some ws)
    (hparse : parseArgs (bra trySanitize directoryIterator) trySanitize (fs.dirAt s) (fs.fileAt s)
      BraArgs.initial args = .ok (policy, st))
    (hfirst : DirectoriesFirst (view s) trySanitize (operandsUnder false ws))
    (hvalid : Bra.validateArgs fs trySanitize st user s = some (job, user₁, s₁))
    (hfits : ArchiveFits (view s) st.sfx (Bra.outFilename st)) :
    s₁ = s ∧ job.outFilename = Bra.outFilename st ∧ job.totFiles ≠ 0 ∧
      (st.sfx = true → fs.fileExists s sfxFilename = true) ∧
      ∃ paths, BrArchive.runProg trySanitize job.tree = some paths ∧
        paths.length = job.totFiles ∧ job.totFiles < 2 ^ 32 ∧
        IsPlan (dirOn (view s)) (fun g => Reached (view s) trySanitize (operandsUnder false ws) g ∧
          joinPath g ≠ Bra.archivePath st.sfx (Bra.outFilename st)) paths ∧
        ∀ g ∈ paths, (∀ c ∈ g, IsComponent c) ∧ (dirOn (view s) g ∨ fileOn (view s) g) := by
  have hargs := parseArgs_onDisk hfs hfinds hws hsanitize.toSanitizes hparse
  have hfiles := mem_files_iff hws hsanitize hdisk hargs hfirst
  -- what has been gathered is normal already
  have hnormal : ∀ f ∈ st.files.keys, IsNormal f := fun f hf =>
    (((hfiles f).mp hf).there hsanitize.toSanitizes).1
  have hagain : Sanitizes trySanitize (· ∈ st.files.keys) :=
    ⟨fun f hf g hg => by
      obtain rfl := Option.some.inj ((hsanitize.normal_self f (hnormal f hf)).symm.trans hg)
      exact hnormal f hf, hsanitize.normal_self⟩
  obtain ⟨rfl, hjob, htot, hmodule, set, hadd, hmake⟩ :=
    Bra.validateArgs_eq_some (makeParent_eq hfs hfits) hvalid
  -- the two passes ask about normal paths only
  rw [fileSetAddDirs_congr (fun f hf => dirAt_eq hfs s₁ (hnormal f hf))
    fun f hf => fileAt_eq hfinds s₁ (hnormal f hf)] at hadd
  have hnormal' : ∀ f ∈ (eraseFiles set (Bra.takenOut fs s₁ st.sfx (Bra.outFilename st))).keys,
      IsNormal f := fun f hf =>
    ((((fileSetAddDirs_spec hadd).2 f).mp (mem_eraseFiles.mp hf).1).normal hagain).2
  rw [makeTree, makeTreeLoop_congr (fun f hf => dirAt_eq hfs s₁ (hnormal' f hf))
    fun f hf => fileAt_eq hfinds s₁ (hnormal' f hf)] at hmake
  obtain ⟨paths, hpaths, hlength, hlt, hplan, hthere⟩ :=
    runProg_isPlan hagain htree (takenOut_noDir hfits) hadd hmake
  refine ⟨rfl, hjob, htot, hmodule, paths, hpaths, hlength, hlt,
    { hplan with mem_iff := fun g => ?_ }, hthere⟩
  rw [hplan.mem_iff, implied_iff_reached hsanitize.toSanitizes hfiles]
  refine and_congr_right fun hreached => ?_
  obtain ⟨hinner, hg⟩ := hreached.there hsanitize.toSanitizes htree
  rw [mem_takenOut_iff hfinds hfits hinner hg]

variable (qsortR) in
/-- **A run of `bra`, and one of `unbra`**, or of the self-extracting program: an accepted command
line leaves everything on the disk as it was, but for the archive; and from the archive an empty
directory gets what the operands reach, each with its contents, and nothing else, if everything
can be got back.  The archive itself is left out, whatever the operands are. -/
theorem bra_run {τ : Type} {fs' : FileSystem τ} {view' : τ → DiskView}
    (hfs : fs.Works (PathOf IsNormal) view) (hfinds : fs.FindsFiles (PathOf IsNormal) view)
    (hrename : Renames (PathOf IsNormal) view fileRename)
    (hfs' : fs'.Works (PathOf IsInner) view') (hfinds' : fs'.FindsFiles (PathOf IsInner) view')
    (htree : IsTree (view s)) (hdisk : ListsDisk (view s) directoryIterator) {args : List CStr}
    {ws : List Word} (hsanitize : SanitizesHere trySanitize (OperandPath (operandsUnder false ws)))
    {policy : OverwritePolicy} {st : BraArgs} {input : Bytes} {job : BraJob} {user₁ : User} {s₁ : σ}
    (hws : readWords Bra.options.takesValue args = some ws)
    (hparse : parseArgs (bra trySanitize directoryIterator) trySanitize (fs.dirAt s) (fs.fileAt s)
      BraArgs.initial args = .ok (policy, st))
    (hfirst : DirectoriesFirst (view s) trySanitize (operandsUnder false ws))
    (hvalid : Bra.validateArgs fs trySanitize st ⟨policy, input⟩ s = some (job, user₁, s₁))
    (hfits : ArchiveFits (view s) st.sfx (Bra.outFilename st))
    (hmodule : st.sfx = true → ∀ sfxModule, view s sfxFilename = some (.file sfxModule) →
      sizeofFooter < sfxModule.length)
    (hpack : ∀ g, Reached (view s) trySanitize (operandsUnder false ws) g →
      joinPath g ≠ Bra.archivePath st.sfx (Bra.outFilename st) → Packable (view s) g)
    (hok : ∀ g, Reached (view s) trySanitize (operandsUnder false ws) g →
      joinPath g ≠ Bra.archivePath st.sfx (Bra.outFilename st) →
      (entryOn (view s) g).CanBeRecovered qsortR st.compress) :
    ∃ s' data, Bra.run fs fileRename trySanitize directoryIterator qsortR args input s =
        some (Bra.archivePath st.sfx (Bra.outFilename st), s') ∧
      view s' = Function.update (view s) (Bra.archivePath st.sfx (Bra.outFilename st))
        (some (.file data)) ∧
      (data.length < 2 ^ 63 → ∀ user t, (∀ p, view' t p = none) → ∃ ctx user' t',
        unbraRunProg fs' st.sfx false false ⟨data, 0⟩ user t = some (ctx, user', t') ∧
        (∀ g, Reached (view s) trySanitize (operandsUnder false ws) g →
          joinPath g ≠ Bra.archivePath st.sfx (Bra.outFilename st) →
          view' t' (joinPath g) = view s (joinPath g)) ∧
        ∀ p, (∀ g, Reached (view s) trySanitize (operandsUnder false ws) g →
          joinPath g ≠ Bra.archivePath st.sfx (Bra.outFilename st) → p ≠ joinPath g) →
          view' t' p = none) := by
  obtain ⟨rfl, hjob, htot, hmoduleThere, paths, hpaths, hlength, hlt, hplan, hthere⟩ :=
    validateArgs_isPlan hfs hfinds htree hdisk hsanitize hws hparse hfirst hvalid hfits
  obtain ⟨plan, hentries, hfns, hplanned, hsrc⟩ :=
    hplan.exists_entryPlan htree hthere (fun g hg => hpack g hg.1 hg.2) (hlength ▸ hlt)
  have hused : ∀ p, Planned plan.entries p → PathOf IsInner p := fun p hp =>
    (hplanned p hp).imp fun _ hg =>
      hg.imp_left fun hreached => (hreached.1.there hsanitize.toSanitizes htree).1
  have hok' : ∀ e ∈ plan.entries, e.CanBeRecovered qsortR st.compress := by
    rw [hentries]
    refine List.forall_mem_map.mpr fun g hg => ?_
    obtain ⟨hreached, hkept⟩ := (hplan.mem_iff g).mp hg
    exact hok g hreached hkept
  have hcount : plan.entries.length = job.totFiles := by
    rw [hentries, List.length_map, hlength]
  have hne : plan.entries ≠ [] := fun h => htot (hcount.symm.trans (congrArg List.length h))
  have hout : ∀ e ∈ plan.entries, e.fn ≠ job.outFilename := by
    rw [hjob]
    refine fun e he hfn => ?_
    obtain ⟨g, hg, hgfn⟩ := List.mem_map.mp (hfns ▸ List.mem_map_of_mem he)
    exact out_not_planned hfits (hthere g hg).2 ((hplan.mem_iff g).mp hg).2
      (hgfn.trans hfn)
  have hmodule' : st.sfx = true → ∃ sfxModule, view s₁ sfxFilename = some (.file sfxModule) ∧
      sizeofFooter < sfxModule.length := fun hsfx => by
    obtain ⟨sfxModule, hfile⟩ := hfs.fileExists s₁ sfxFilename
      ⟨[sfxFilename], by decide, by decide⟩ (hmoduleThere hsfx)
    exact ⟨sfxModule, hfile, hmodule hsfx sfxModule hfile⟩
  rw [← hjob] at hfits
  obtain ⟨s', data, stop, hrun, hview, hunpacks⟩ := runProg_written hfs hrename hfits
    (fun hsfx => hjob ▸ archivePath_ne hsfx) hmodule' hpaths plan (hfs'.mono hused)
    (hfinds'.mono hused) hne hsrc hfns hcount hout
  rw [hjob] at hview
  refine ⟨s', data, ?_, hview, fun hsize user t hempty => ?_⟩
  · rw [Bra.run, hparse]
    change ((Bra.validateArgs fs trySanitize st ⟨policy, input⟩ s₁).bind fun r =>
      (Bra.runProg fs fileRename trySanitize qsortR st r.1 r.2.2).bind fun s =>
        some (Bra.archivePath st.sfx r.1.outFilename, s)) = _
    rw [hvalid, Option.bind_some, hrun, hjob]
    rfl
  · obtain ⟨ctx, user', t', hextract, -, hplanned, hrest⟩ :=
      (hunpacks hsize).emptyDisk_planned hplan hfns hsrc hok' hempty user
    exact ⟨ctx, user', t', hextract, fun g hreached hkept => hplanned g ⟨hreached, hkept⟩,
      fun p hp => hrest p fun g hg => hp g hg.1 hg.2⟩

end Disk

end Run

/-! ## An example -/

/-- `rename` in memory. -/
def renameInMemory (view : DiskView) (old new : CStr) : Option DiskView :=
  some (Function.update (Function.update view new (view old)) old none)

theorem renameInMemory_renames (used : CStr → Prop) : Renames used id renameInMemory := by
  intro view old new contents _ _ _ hold _ _
  refine ⟨_, rfl, ?_⟩
  rw [id, id, ← hold]
  rfl

/-- `x.BRa`. -/
def lettersOut : CStr := CStr.ofBuffer [120, 46, 66, 82, 97]

/-- The arguments are taken, and what they ask for can be done. -/
theorem letters_valid : ∃ policy st job, parseArgs (bra sanitizeHere lettersIterator) sanitizeHere
      (FileSystem.inMemory.dirAt (planView lettersPlan.entries))
      (FileSystem.inMemory.fileAt (planView lettersPlan.entries)) BraArgs.initial lettersArgs =
        .ok (policy, st) ∧
    Bra.validateArgs FileSystem.inMemory sanitizeHere st ⟨policy, []⟩
      (planView lettersPlan.entries) = some job ∧
    st.sfx = false ∧ st.compress = false ∧ Bra.outFilename st = lettersOut := by
  have h : (match parseArgs (bra sanitizeHere lettersIterator) sanitizeHere
      (FileSystem.inMemory.dirAt (planView lettersPlan.entries))
      (FileSystem.inMemory.fileAt (planView lettersPlan.entries)) BraArgs.initial lettersArgs with
    | .ok (policy, st) => (Bra.validateArgs FileSystem.inMemory sanitizeHere st ⟨policy, []⟩
        (planView lettersPlan.entries)).isSome && !st.sfx && !st.compress &&
          Bra.outFilename st == lettersOut
    | _ => false) = true := by
    decide +kernel
  split at h
  · rename_i policy st hparse
    simp only [Bool.and_eq_true, Bool.not_eq_true', beq_iff_eq] at h
    obtain ⟨⟨⟨hvalid, hsfx⟩, hcompress⟩, hout⟩ := h
    obtain ⟨job, hjob⟩ := Option.isSome_iff_exists.mp hvalid
    exact ⟨policy, st, job, hparse, hjob, hsfx, hcompress, hout⟩
  · cases h

theorem letters_packable {g : FsPath} (hg : g ∈ lettersPlan.entries.map PlanEntry.path) :
    Packable (planView lettersPlan.entries) g := by
  have hall : ∀ g ∈ lettersPlan.entries.map PlanEntry.path,
      g ≠ [] ∧ (dirOn (planView lettersPlan.entries) g ∨ fileOn (planView lettersPlan.entries) g) ∧
        (∀ c ∈ g, IsEntryName c) ∧ (joinPath g).bytes.length ≤ 65535 ∧
        braValidateFilename (joinPath g).bytes (joinPath g).bytes.length = true ∧
        (entryOn (planView lettersPlan.entries) g).dataSize < 2 ^ 64 := by
    decide +kernel
  obtain ⟨h₁, h₂, h₃, h₄, h₅, h₆⟩ := hall g hg
  exact ⟨h₁, h₂, h₃, h₄, h₅, h₆⟩

theorem letters_fits : ArchiveFits (planView lettersPlan.entries) false lettersOut where
  out := ⟨[lettersOut], by decide, by decide⟩
  archive := ⟨[lettersOut], by decide, by decide⟩
  dirThere := .inl (by decide)
  noDir := by decide +kernel
  noArchiveDir := by decide +kernel
  noTemporary h := absurd h Bool.false_ne_true

theorem bra_run_letters :
    ∃ s' data, Bra.run FileSystem.inMemory renameInMemory sanitizeHere lettersIterator
        QsortR.mergeSort lettersArgs [] (planView lettersPlan.entries) = some (lettersOut, s') ∧
      s' = Function.update (planView lettersPlan.entries) lettersOut (some (.file data)) ∧
      (data.length < 2 ^ 63 → ∃ ctx user' t', unbraRunProg FileSystem.inMemory false false false
        ⟨data, 0⟩ ⟨.ask, []⟩ (fun _ => none) = some (ctx, user', t')) := by
  obtain ⟨policy, st, ⟨job, user₁, s₁⟩, hparse, hvalid, hsfx, hcompress, hout⟩ := letters_valid
  have hreached : ∀ ops g, Reached (planView lettersPlan.entries) sanitizeHere ops g →
      Packable (planView lettersPlan.entries) g := fun ops g hg => by
    obtain ⟨hinner, hthere⟩ := hg.there (sanitizeHere_sanitizesHere _).toSanitizes letters_isTree
    exact letters_packable (letters_path hinner hthere)
  obtain ⟨s', data, hrun, hview, hextract⟩ := bra_run QsortR.mergeSort
    (FileSystem.inMemory_works _) (FileSystem.inMemory_findsFiles _) (renameInMemory_renames _)
    (FileSystem.inMemory_works _) (FileSystem.inMemory_findsFiles _) letters_isTree
    letters_listsDisk (sanitizeHere_sanitizesHere _) lettersArgs_words hparse (List.pairwise_singleton _ _) hvalid
    (by rw [hsfx, hout]; exact letters_fits) (fun h => absurd (hsfx ▸ h) Bool.false_ne_true)
    (fun g hg _ => hreached _ g hg)
    (fun _ _ _ => canBeRecovered_of_small fun h => absurd (hcompress ▸ h) Bool.false_ne_true)
  rw [hsfx, hout] at hrun hview
  rw [hsfx] at hextract
  refine ⟨s', data, hrun, hview, fun hsize => ?_⟩
  obtain ⟨ctx, user', t', hunbra, -⟩ := hextract hsize ⟨.ask, []⟩ (fun _ => none) fun _ => rfl
  exact ⟨ctx, user', t', hunbra⟩

end BrArchive
