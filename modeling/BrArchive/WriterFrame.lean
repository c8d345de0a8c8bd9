import BrArchive.EntryFields
import BrArchive.ContentsPassing

/-! # What is written does not depend on the archive

The writer looks at the archive only to know where it is.  So an entry is the same bytes
wherever it is written, in front of an empty end of the archive or over what stood there
before.
-/
namespace BrArchive

/-! ## Functions that write -/

/-- The function writes the same bytes at the position of any archive that is not at its start,
or fails on all of them. -/
def Writes {α : Type} (F : IoFile → Option (IoFile × α)) : Prop :=
  ∃ r : Option (Bytes × α), ∀ f : IoFile, 0 < f.pos → f.pos ≤ f.data.length →
    F f = r.map fun x => (braIoFileWrite f x.1, x.2)

section Rules
variable {α β : Type} {F F' : IoFile → Option (IoFile × α)}

theorem Writes.fail : Writes fun _ => (none : Option (IoFile × α)) := ⟨none, fun _ _ _ => rfl⟩

theorem Writes.write (buf : Bytes) (a : α) : Writes fun f => some (braIoFileWrite f buf, a) :=
  ⟨some (buf, a), fun _ _ _ => rfl⟩

theorem Writes.congr (h : Writes F) (hF : ∀ f, 0 < f.pos → F' f = F f) : Writes F' := by
  obtain ⟨r, hr⟩ := h
  exact ⟨r, fun f hpos hle => (hF f hpos).trans (hr f hpos hle)⟩

/-- What the function did when it succeeded. -/
theorem Writes.of_eq_some (h : Writes F) {f f' : IoFile} {a : α} (hpos : 0 < f.pos)
    (hle : f.pos ≤ f.data.length) (hF : F f = some (f', a)) :
    ∃ bytes, f' = braIoFileWrite f bytes := by
  obtain ⟨r, hr⟩ := h
  obtain ⟨x, -, hx⟩ := Option.map_eq_some_iff.mp ((hr f hpos hle).symm.trans hF)
  exact ⟨x.1, (congrArg Prod.fst hx).symm⟩

/-- One after the other. -/
theorem Writes.bind {G : α → IoFile → Option (IoFile × β)} (hF : Writes F)
    (hG : ∀ a, Writes (G a)) : Writes fun f => (F f).bind fun x => G x.2 x.1 := by
  obtain ⟨r, hr⟩ := hF
  choose s hs using hG
  refine ⟨r.bind fun x => (s x.2).map fun y => (x.1 ++ y.1, y.2), fun f hpos hle => ?_⟩
  dsimp only
  rw [hr f hpos hle]
  cases r with
  | none => rfl
  | some x =>
    have hpos' : 0 < (braIoFileWrite f x.1).pos := Nat.add_pos_left hpos _
    rw [Option.map_some, Option.bind_some, Option.bind_some,
      hs x.2 _ hpos' (pos_le_braIoFileWrite f x.1), Option.map_map]
    refine congrArg (Option.map · (s x.2)) (funext fun y => ?_)
    rw [braIoFileWrite_append]
    rfl

theorem Writes.map (h : Writes F) (g : α → β) : Writes fun f => (F f).map fun x => (x.1, g x.2) := by
  obtain ⟨r, hr⟩ := h
  refine ⟨r.map fun x => (x.1, g x.2), fun f hpos hle => ?_⟩
  dsimp only
  rw [hr f hpos hle, Option.map_map, Option.map_map]
  rfl

/-- Behind bytes that are written first. -/
theorem Writes.after (h : Writes F) (buf : Bytes) : Writes fun f => F (braIoFileWrite f buf) :=
  (Writes.write buf ()).bind fun _ => h

/-- Behind something that may fail and does not look at the archive. -/
theorem Writes.option {G : β → IoFile → Option (IoFile × α)} (o : Option β)
    (hG : ∀ b, Writes (G b)) : Writes fun f => o.bind fun b => G b f := by
  cases o with
  | none => exact .fail
  | some b => exact hG b

end Rules

/-! ## The contents of a file -/

/-- **Copying**: it fails if the source is too short, and writes what is there if not. -/
theorem braIoFileChunksCopyFile_eq {src : IoFile} (hsrc : src.pos ≤ src.data.length) {f : IoFile}
    (hf : f.pos ≤ f.data.length) (n : Nat) (me : MetaEntry) (computeCrc32 : Bool) :
    braIoFileChunksCopyFile (some f) src n me computeCrc32 =
      if src.pos + n ≤ src.data.length then
        some (some (braIoFileWrite f ((src.data.drop src.pos).take n)),
          { src with pos := src.pos + n },
          { me with crc32 :=
              if computeCrc32 then braCrc32c ((src.data.drop src.pos).take n) me.crc32
              else me.crc32 })
      else none := by
  by_cases hle : src.pos + n ≤ src.data.length
  · rw [if_pos hle]
    have hlen : ((src.data.drop src.pos).take n).length = n := by
      rw [List.length_take, List.length_drop]
      omega
    have hdst : ∀ g, some f = some g → g.pos ≤ g.data.length := fun g hg => Option.some.inj hg ▸ hf
    have hcopy := braIoFileChunksCopyFile_write hdst (src.data.take src.pos)
      ((src.data.drop src.pos).take n) ((src.data.drop src.pos).drop n) me computeCrc32
    rw [List.take_append_drop, ← src.eq_ioAt hsrc, hlen] at hcopy
    obtain ⟨-, hend⟩ := braIoFileChunksCopyFile_le hsrc hcopy
    rw [hcopy, ← hend]
    rfl
  · rw [if_neg hle, Option.eq_none_iff_forall_ne_some]
    intro r hr
    exact hle (braIoFileChunksCopyFile_le hsrc hr).1

section Compress
variable (qsortR : QsortR)

/-- **Compressing**: whether the compressed form is kept, and what it is, is decided before
anything is written. -/
theorem braIoFileChunksCompressFile_writes (src : IoFile) (n : Nat) (me : MetaEntry) :
    Writes fun f =>
      (braIoFileChunksCompressFile qsortR f src n me).map fun r => (r.dst, r.res, r.me) := by
  cases hrun : WhileLoop.run (fun st => st.i < n) (compressChunk qsortR n) n
      ⟨src, ⟨[], 0⟩, braCrc32cInit, 0⟩ with
  | none =>
    refine ⟨none, fun f _ _ => ?_⟩
    dsimp only
    rw [braIoFileChunksCompressFile, hrun]
    rfl
  | some st =>
    by_cases hge : braIoFileTell st.tmpfile ≥ n
    · -- not smaller: nothing is written, and the entry is turned into a stored one
      refine ⟨some ([], false,
        { me with attributes := braAttrSetComp me.attributes braAttrCompStored }),
        fun f _ hle => ?_⟩
      dsimp only
      rw [braIoFileChunksCompressFile, hrun, Option.map_some, braIoFileWrite_nil hle]
      simp only [Option.bind_eq_bind, Option.bind_some, if_pos hge]
      rfl
    · by_cases htype : braAttrType me.attributes = .file
      · have htmp : (braIoFileSeekSet st.tmpfile 0).pos ≤
            (braIoFileSeekSet st.tmpfile 0).data.length := Nat.zero_le _
        have hkept : ∀ f : IoFile, (braIoFileChunksCompressFile qsortR f src n me).map
            (fun r => (r.dst, r.res, r.me)) =
            if (braIoFileSeekSet st.tmpfile 0).pos + braIoFileTell st.tmpfile ≤
                (braIoFileSeekSet st.tmpfile 0).data.length then
              some (braIoFileWrite f (leBytes 8 (braIoFileTell st.tmpfile) ++
                  (st.tmpfile.data.drop 0).take (braIoFileTell st.tmpfile)), true,
                { me with
                  entryData := .file (braIoFileTell st.tmpfile)
                  crc32 := compressCrcFinish me.crc32 st.crc32 (braIoFileTell st.tmpfile) n })
            else none := by
          intro f
          rw [braIoFileChunksCompressFile, hrun]
          simp only [Option.bind_eq_bind, Option.bind_some, if_neg hge,
            braIoFileMetaEntryWriteFileEntry, htype, ne_eq, not_true_eq_false, if_false,
            braIoFileChunksCopyFile_eq htmp (pos_le_braIoFileWrite f _), MetaEntry.dataSize]
          split
          · rw [← braIoFileWrite_append]
            rfl
          · rfl
        by_cases hfits : (braIoFileSeekSet st.tmpfile 0).pos + braIoFileTell st.tmpfile ≤
            (braIoFileSeekSet st.tmpfile 0).data.length
        · exact ⟨some (_, _, _), fun f _ _ => (hkept f).trans (if_pos hfits)⟩
        · exact ⟨none, fun f _ _ => (hkept f).trans (if_neg hfits)⟩
      · refine ⟨none, fun f _ _ => ?_⟩
        dsimp only
        rw [braIoFileChunksCompressFile, hrun]
        simp only [Option.bind_eq_bind, Option.bind_some, if_neg hge,
          braIoFileMetaEntryWriteFileEntry, ne_eq, htype, not_false_eq_true, if_true,
          Option.bind_none, Option.map_none]

end Compress

/-! ## Entries -/

section Entry
variable {σ : Type} {fs : FileSystem σ} {qsortR : QsortR} {s : σ}

/-- The call after a fallback starts where this one did. -/
theorem flushEntryFile_rewound {filename : CStr} (depth : Nat) (f : IoFile) (me : MetaEntry)
    (attributes : UInt8) (crc32 crc32' : BitVec 32) :
    flushEntryFile fs qsortR s filename depth
        (braIoFileSeekSet (braIoFileMetaEntryWriteCommonHeader f
          { me with attributes, crc32 }) (braIoFileTell f)) { me with crc32 := crc32' } =
      flushEntryFile fs qsortR s filename depth f me := by
  cases depth with
  | zero => rfl
  | succ depth =>
    rw [flushEntryFile_succ, flushEntryFile_succ]
    exact flushEntryStep_rewound _ f me attributes crc32 crc32'

/-- A call that gets to the contents of the file. -/
theorem flushEntryFile_eq {filename : CStr} {me me₁ : MetaEntry} {data : Bytes} {f : IoFile}
    (depth : Nat) (htype : braAttrType me.attributes = .file)
    (hheader : braComputeHeaderCrc32 filename.bytes.length (filename.bytes ++ [0]) me = some me₁)
    (hread : fs.openRead s filename = some data) (hpos : 0 < f.pos) :
    flushEntryFile fs qsortR s filename (depth + 1) f me =
      if braAttrComp me₁.attributes = braAttrCompStored then
        (braIoFileMetaEntryWriteFileEntry (braIoFileWrite f me₁.commonHeader)
          me₁.addDataSize).bind fun f =>
            (braIoFileChunksCopyFile (some f) ⟨data, 0⟩ me₁.dataSize me₁.addDataSize true).bind
              fun r => some (r.1.getD f, r.2.2)
      else if braAttrComp me₁.attributes = braAttrCompCompressed then
        (braIoFileChunksCompressFile qsortR (braIoFileWrite f me₁.commonHeader) ⟨data, 0⟩
          me₁.dataSize me₁).bind fun r =>
            if r.res then some (r.dst, r.me)
            else if me₁.attributes ≠ r.me.attributes then
              flushEntryFile fs qsortR s filename depth
                (braIoFileSeekSet r.dst (braIoFileTell f)) r.me
            else none
      else none := by
  have htell : ¬ braIoFileTell f ≤ 0 := Nat.not_le.mpr hpos
  rw [flushEntryFile_succ, flushEntryStep, if_neg (not_not_intro htype), hheader,
    ← braIoFileMetaEntryWriteCommonHeader_eq]
  simp only [Option.bind_eq_bind, Option.bind_some, if_neg htell, hread]
  rfl

/-- The size and the contents of a stored file. -/
theorem storeContents_writes {me : MetaEntry} (htype : braAttrType me.attributes = .file)
    (data : Bytes) (n : Nat) : Writes fun f =>
      (braIoFileMetaEntryWriteFileEntry f me).bind fun f =>
        (braIoFileChunksCopyFile (some f) ⟨data, 0⟩ n me true).bind fun r =>
          some (r.1.getD f, r.2.2) := by
  have hwrite : ∀ f : IoFile, ((braIoFileMetaEntryWriteFileEntry f me).bind fun f =>
      (braIoFileChunksCopyFile (some f) ⟨data, 0⟩ n me true).bind fun r =>
        some (r.1.getD f, r.2.2)) =
      if 0 + n ≤ data.length then
        some (braIoFileWrite f (leBytes 8 me.dataSize ++ (data.drop 0).take n),
          { me with crc32 := braCrc32c ((data.drop 0).take n) me.crc32 })
      else none := by
    intro f
    rw [braIoFileMetaEntryWriteFileEntry, if_neg (not_not_intro htype), Option.bind_some,
      braIoFileChunksCopyFile_eq (Nat.zero_le _) (pos_le_braIoFileWrite _ _)]
    split
    · rw [Option.bind_some, ← braIoFileWrite_append]
      rfl
    · rfl
  by_cases hfits : 0 + n ≤ data.length
  · exact ⟨some (_, _), fun f _ _ => (hwrite f).trans (if_pos hfits)⟩
  · exact ⟨none, fun f _ _ => (hwrite f).trans (if_neg hfits)⟩

/-- The contents of a compressed file, or what the next call writes in its place. -/
theorem compressContents_writes (again : IoFile → MetaEntry → Option (IoFile × MetaEntry))
    {me : MetaEntry} {data : Bytes}
    (hagain : Writes fun f => again
      (braIoFileSeekSet (braIoFileWrite f me.commonHeader) (braIoFileTell f))
      { me with attributes := braAttrSetComp me.attributes braAttrCompStored }) :
    Writes fun f =>
      (braIoFileChunksCompressFile qsortR (braIoFileWrite f me.commonHeader) ⟨data, 0⟩
        me.dataSize me).bind fun r =>
          if r.res then some (r.dst, r.me)
          else if me.attributes ≠ r.me.attributes then
            again (braIoFileSeekSet r.dst (braIoFileTell f)) r.me
          else none := by
  obtain ⟨r, hcompress⟩ := (braIoFileChunksCompressFile_writes qsortR ⟨data, 0⟩ me.dataSize
    me).after me.commonHeader
  -- what is written is known before the file is, and so is whether it is kept
  cases r with
  | none =>
    refine ⟨none, fun f hpos hle => ?_⟩
    dsimp only
    rw [Option.map_eq_none_iff.mp (hcompress f hpos hle)]
    rfl
  | some r =>
    obtain ⟨bytes, res, me₂⟩ := r
    cases res with
    | true =>
      refine ⟨some (bytes, me₂), fun f hpos hle => ?_⟩
      obtain ⟨r, hr, heq⟩ := Option.map_eq_some_iff.mp (hcompress f hpos hle)
      obtain ⟨hdst, hres, hme⟩ := Prod.mk.inj heq |>.imp_right Prod.mk.inj
      dsimp only
      rw [hr, Option.bind_some, hres, if_pos rfl, hdst, hme]
      rfl
    | false =>
      obtain ⟨r', hretry⟩ := hagain
      by_cases hattr : me.attributes = braAttrSetComp me.attributes braAttrCompStored
      · refine ⟨none, fun f hpos hle => ?_⟩
        obtain ⟨r, hr, heq⟩ := Option.map_eq_some_iff.mp (hcompress f hpos hle)
        obtain ⟨-, hres, -⟩ := Prod.mk.inj heq |>.imp_right Prod.mk.inj
        obtain ⟨-, hme⟩ := braIoFileChunksCompressFile_givesUp hr hres
        dsimp only
        rw [hr, Option.bind_some, hres, if_neg Bool.false_ne_true,
          if_neg (not_not_intro (by rw [hme]; exact hattr))]
        rfl
      · refine ⟨r', fun f hpos hle => ?_⟩
        obtain ⟨r, hr, heq⟩ := Option.map_eq_some_iff.mp (hcompress f hpos hle)
        obtain ⟨-, hres, -⟩ := Prod.mk.inj heq |>.imp_right Prod.mk.inj
        obtain ⟨hdst, hme⟩ := braIoFileChunksCompressFile_givesUp hr hres
        dsimp only
        rw [hr, Option.bind_some, hres, if_neg Bool.false_ne_true,
          if_pos (by rw [hme]; exact hattr), hdst, hme]
        exact hretry f hpos hle

/-- A call that does not get to the contents of the file fails. -/
theorem flushEntryFile_refused {filename : CStr} {me : MetaEntry} (depth : Nat)
    (h : braAttrType me.attributes ≠ .file ∨
      braComputeHeaderCrc32 filename.bytes.length (filename.bytes ++ [0]) me = none ∨
      fs.openRead s filename = none) (f : IoFile) :
    flushEntryFile fs qsortR s filename (depth + 1) f me = none := by
  rw [flushEntryFile_succ, flushEntryStep]
  split
  · rfl
  · rename_i htype
    rcases h.resolve_left htype with hheader | hread
    · rw [hheader]
      rfl
    · cases braComputeHeaderCrc32 filename.bytes.length (filename.bytes ++ [0]) me with
      | none => rfl
      | some me₁ =>
        simp only [Option.bind_eq_bind, Option.bind_some, hread, Option.bind_none, ite_self]

/-- **Flushing a file** writes the same bytes everywhere. -/
theorem flushEntryFile_writes (filename : CStr) (depth : Nat) :
    ∀ me : MetaEntry, Writes fun f => flushEntryFile fs qsortR s filename depth f me := by
  induction depth with
  | zero => exact fun me => .fail
  | succ depth ih =>
    intro me
    by_cases htype : braAttrType me.attributes = .file
    swap
    · exact Writes.fail.congr fun f _ => flushEntryFile_refused depth (.inl htype) f
    cases hheader : braComputeHeaderCrc32 filename.bytes.length (filename.bytes ++ [0]) me with
    | none => exact Writes.fail.congr fun f _ => flushEntryFile_refused depth (.inr (.inl hheader)) f
    | some me₁ =>
      cases hread : fs.openRead s filename with
      | none => exact Writes.fail.congr fun f _ => flushEntryFile_refused depth (.inr (.inr hread)) f
      | some data =>
        have hstep : ∀ f : IoFile, 0 < f.pos →
            flushEntryFile fs qsortR s filename (depth + 1) f me = _ := fun f hpos =>
          flushEntryFile_eq depth htype hheader hread hpos
        have hfields := braComputeHeaderCrc32_fields hheader
        by_cases hstored : braAttrComp me₁.attributes = braAttrCompStored
        · have htype₁ : braAttrType me₁.addDataSize.attributes = .file := by
            rw [hfields]
            exact htype
          refine ((storeContents_writes htype₁ data me₁.dataSize).after me₁.commonHeader).congr
            fun f hpos => ?_
          rw [hstep f hpos, if_pos hstored]
        by_cases hcomp : braAttrComp me₁.attributes = braAttrCompCompressed
        swap
        · refine Writes.fail.congr fun f hpos => ?_
          rw [hstep f hpos, if_neg hstored, if_neg hcomp]
        refine (compressContents_writes (flushEntryFile fs qsortR s filename depth) ?_).congr
          fun f hpos => by rw [hstep f hpos, if_neg hstored, if_pos hcomp]
        -- the next call starts where this one did, with a stored entry
        refine (ih { me with
          attributes := braAttrSetComp me₁.attributes braAttrCompStored }).congr fun f _ => ?_
        rw [← braIoFileMetaEntryWriteCommonHeader_eq, hfields]
        exact flushEntryFile_rewound depth f { me with
          attributes := braAttrSetComp me.attributes braAttrCompStored } _ _ _

/-- A context without its archive. -/
def IoFileCtx.detached (ctx : IoFileCtx) : IoFileCtx := { ctx with f := ⟨[], 0⟩ }

/-- A directory is a header, and the index of its parent if that is not the root. -/
theorem flushDir_writes (me : MetaEntry) : Writes fun f =>
    (match braAttrType me.attributes with
      | .dir => braIoFileMetaEntryFlushEntryDir f me
      | .subdir => braIoFileMetaEntryFlushEntrySubdir f me
      | _ => none).map fun f => (f, ()) := by
  cases htype : braAttrType me.attributes with
  | file => exact .fail
  | sym => exact .fail
  | dir =>
    refine (Writes.write me.commonHeader ()).congr fun f _ => ?_
    dsimp only
    rw [braIoFileMetaEntryFlushEntryDir_eq (.inl htype), braIoFileMetaEntryWriteCommonHeader_eq]
    rfl
  | subdir =>
    refine ((Writes.write (leBytes 4 me.parentIndex) ()).after me.commonHeader).congr fun f _ => ?_
    dsimp only
    rw [braIoFileMetaEntryFlushEntrySubdir_eq htype, braIoFileMetaEntryWriteCommonHeader_eq]
    rfl

variable (fs qsortR s)

theorem writeMetaEntryFile_writes (ctx : IoFileCtx) {attributes : UInt8}
    (htype : braAttrType attributes = .file) (fn : CStr) : Writes fun f =>
      (braIoFileCtxWriteMetaEntryFile fs qsortR s { ctx with f } attributes fn).map
        fun r => (r.2.f, r.1, r.2.detached) := by
  have hflush : ∀ me : MetaEntry, Writes fun f =>
      (braIoFileMetaEntryFlushEntryFile fs qsortR s f me fn).map
        fun r => (r.1, r.2, ctx.detached) := fun me =>
    (flushEntryFile_writes fn 2 me).map fun me => (me, ctx.detached)
  refine (Writes.option (entryName ctx fn) fun name => Writes.option (fs.fileSize s fn) fun size =>
    hflush (fileEntry attributes name size)).congr fun f _ => ?_
  rw [writeMetaEntryFile_bind qsortR _ htype, Option.map_bind]
  refine congrArg (Option.bind _) (funext fun name => ?_)
  rw [Function.comp_apply, Option.map_bind]
  refine congrArg (Option.bind _) (funext fun size => ?_)
  rw [Function.comp_apply, Option.map_map]
  rfl

theorem writeMetaEntryDirSubdir_writes (ctx : IoFileCtx) (attributes : UInt8) (fn : CStr) :
    Writes fun f => (braIoFileCtxWriteMetaEntryDirSubdir { ctx with f } attributes fn).map
      fun r => (r.2.f, r.1, r.2.detached) := by
  by_cases htype : braAttrType attributes ≠ .subdir ∧ braAttrType attributes ≠ .dir
  · refine Writes.fail.congr fun f _ => ?_
    rw [braIoFileCtxWriteMetaEntryDirSubdir, if_pos htype]
    rfl
  simp only [braIoFileCtxWriteMetaEntryDirSubdir, if_neg htype, Option.bind_eq_bind,
    Option.map_bind, Function.comp_def]
  refine Writes.option _ fun r => Writes.option _ fun parent => ?_
  by_cases hlen : r.1.dirname.bytes.length > 255
  · simp only [if_pos hlen]
    exact .fail
  simp only [if_neg hlen, Option.map_bind, Function.comp_def]
  refine Writes.option _ fun me => ?_
  -- the two kinds of directories differ in what is flushed only
  have hflush : ∀ me : MetaEntry, Writes fun f => Option.map (fun r => (r.2.f, r.1, r.2.detached))
      (match braAttrType me.attributes with
        | .dir => (braIoFileMetaEntryFlushEntryDir f me).bind fun f =>
            some (me, ({ ctx with
              f, tree := r.2, lastDirNode := r.1, lastDir := fn, lastDirSize := fn.bytes.length } :
              IoFileCtx))
        | .subdir => (braIoFileMetaEntryFlushEntrySubdir f me).bind fun f =>
            some (me, { ctx with
              f, tree := r.2, lastDirNode := r.1, lastDir := fn, lastDirSize := fn.bytes.length })
        | _ => none) := by
    intro me
    refine ((flushDir_writes me).map fun _ => (me, { ctx.detached with
      tree := r.2
      lastDirNode := r.1
      lastDir := fn
      lastDirSize := fn.bytes.length })).congr fun f _ => ?_
    cases braAttrType me.attributes with
    | file => rfl
    | sym => rfl
    | dir => cases braIoFileMetaEntryFlushEntryDir f me <;> rfl
    | subdir => cases braIoFileMetaEntryFlushEntrySubdir f me <;> rfl
  by_cases hsubdir : braAttrType me.attributes = .subdir
  · simp only [if_pos hsubdir, Option.map_bind]
    exact Writes.option _ hflush
  · simp only [if_neg hsubdir]
    exact hflush me

/-- **The entry of a path** is the same bytes everywhere. -/
theorem packEntry_writes (ctx : IoFileCtx) (fn : CStr) (compress : Bool) :
    Writes fun f => (packEntry fs qsortR s { ctx with f } fn compress).map
      fun r => (r.2.f, r.1, r.2.detached) := by
  simp only [packEntry, Option.bind_eq_bind, Option.map_bind, Function.comp_def]
  refine Writes.option _ fun attributes => ?_
  generalize (if compress && braAttrType attributes == .file then _ else _) = attributes
  cases htype : braAttrType attributes with
  | file => exact writeMetaEntryFile_writes fs qsortR s ctx htype fn
  | dir => exact writeMetaEntryDirSubdir_writes ctx attributes fn
  | subdir => exact writeMetaEntryDirSubdir_writes ctx attributes fn
  | sym => exact .fail

/-- **Encoding a path**: behind its entry stands the checksum. -/
theorem braIoFileCtxEncodeAndWriteToDisk_writes (ctx : IoFileCtx) (fn : CStr)
    (compress : Bool) : Writes fun f =>
      (braIoFileCtxEncodeAndWriteToDisk fs qsortR s { ctx with f } fn compress).map
        fun c => (c.f, c.detached) := by
  have hcrc : ∀ r : MetaEntry × IoFileCtx, Writes fun f =>
      some (braIoFileWrite f (leBytes 4 r.1.crc32.toNat), r.2) := fun r => .write _ _
  refine ((packEntry_writes fs qsortR s ctx fn compress).bind hcrc).congr fun f _ => ?_
  rw [braIoFileCtxEncodeAndWriteToDisk_eq]
  cases packEntry fs qsortR s { ctx with f } fn compress <;> rfl

/-- **Encoding a list of paths** writes the same bytes everywhere. -/
theorem encodeEntries_writes (compress : Bool) (fns : List CStr) : ∀ ctx : IoFileCtx,
    Writes fun f => (encodeEntries fs qsortR s compress fns { ctx with f }).map
      fun c => (c.f, c.detached) := by
  induction fns with
  | nil =>
    refine fun ctx => ⟨some ([], ctx.detached), fun f _ hle => ?_⟩
    dsimp only
    rw [Option.map_some, braIoFileWrite_nil hle]
    rfl
  | cons fn fns ih =>
    intro ctx
    refine ((braIoFileCtxEncodeAndWriteToDisk_writes fs qsortR s ctx fn compress).bind
      ih).congr fun f _ => ?_
    rw [encodeEntries]
    cases braIoFileCtxEncodeAndWriteToDisk fs qsortR s { ctx with f } fn compress <;> rfl

variable {fs qsortR s}

/-- An entry has bytes of its own, at least those of its checksum. -/
theorem encode_pos_lt {ctx ctx' : IoFileCtx} {fn : CStr} {compress : Bool}
    (hpos : 0 < ctx.f.pos) (hle : ctx.f.pos ≤ ctx.f.data.length)
    (h : braIoFileCtxEncodeAndWriteToDisk fs qsortR s ctx fn compress = some ctx') :
    ctx.f.pos < ctx'.f.pos := by
  rw [braIoFileCtxEncodeAndWriteToDisk_eq] at h
  obtain ⟨⟨me, c⟩, hpack, rfl⟩ := Option.map_eq_some_iff.mp h
  obtain ⟨bytes, hbytes⟩ := (packEntry_writes fs qsortR s ctx fn compress).of_eq_some hpos hle
    (Option.map_eq_some_iff.mpr ⟨_, hpack, rfl⟩)
  change ctx.f.pos < c.f.pos + (leBytes 4 me.crc32.toNat).length
  rw [leBytes_length, hbytes]
  change ctx.f.pos < ctx.f.pos + bytes.length + 4
  omega

/-- So have the entries of a list that is not empty. -/
theorem encodeEntries_pos_lt {ctx ctx' : IoFileCtx} {fns : List CStr} {compress : Bool}
    (hfns : fns ≠ []) (hpos : 0 < ctx.f.pos) (hle : ctx.f.pos ≤ ctx.f.data.length)
    (h : encodeEntries fs qsortR s compress fns ctx = some ctx') : ctx.f.pos < ctx'.f.pos := by
  obtain ⟨fn, fns, rfl⟩ := List.exists_cons_of_ne_nil hfns
  obtain ⟨c, hencode, h⟩ := Option.bind_eq_some_iff.mp h
  have hlt := encode_pos_lt hpos hle hencode
  obtain ⟨bytes, hbytes⟩ :=
    (braIoFileCtxEncodeAndWriteToDisk_writes fs qsortR s ctx fn compress).of_eq_some hpos hle
      (Option.map_eq_some_iff.mpr ⟨_, hencode, rfl⟩)
  have hle' : c.f.pos ≤ c.f.data.length := hbytes ▸ pos_le_braIoFileWrite _ _
  obtain ⟨bytes', hbytes'⟩ := (encodeEntries_writes fs qsortR s compress fns c).of_eq_some
    (Nat.zero_lt_of_lt hlt) hle' (Option.map_eq_some_iff.mpr ⟨_, h, rfl⟩)
  rw [hbytes']
  exact lt_of_lt_of_le hlt (Nat.le_add_right _ _)

end Entry

end BrArchive
