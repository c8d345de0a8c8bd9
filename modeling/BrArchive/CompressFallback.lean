import BrArchive.CompressRoundTrip
import BrArchive.FileCtx

/-! # Falling back from compression

A file is written compressed first.  When that turns out not to be smaller, the header is
already in the archive and the entry has changed; the writer seeks back and calls itself.
What it writes then is what it would have written without trying: a header has the same
length whatever its attributes, and the checksum is started again.
-/
namespace BrArchive

/-! ## The header of an entry -/

/-- What `bra_io_file_meta_entry_write_common_header` writes. -/
def MetaEntry.commonHeader (me : MetaEntry) : Bytes :=
  [me.attributes] ++ [me.nameSize] ++ (me.name ++ [0]).take me.nameSize.toNat

theorem braIoFileMetaEntryWriteCommonHeader_eq (f : IoFile) (me : MetaEntry) :
    braIoFileMetaEntryWriteCommonHeader f me = braIoFileWrite f me.commonHeader := by
  rw [braIoFileMetaEntryWriteCommonHeader, braIoFileWrite_append, braIoFileWrite_append,
    MetaEntry.commonHeader, List.append_assoc]

/-- The length of a header is a matter of the name. -/
theorem MetaEntry.commonHeader_length {me me' : MetaEntry} (hname : me.name = me'.name)
    (hsize : me.nameSize = me'.nameSize) : me.commonHeader.length = me'.commonHeader.length := by
  simp [commonHeader, hname, hsize]

/-- A header written over a header. -/
theorem writeCommonHeader_rewound (f : IoFile) {me me' : MetaEntry} (hname : me.name = me'.name)
    (hsize : me.nameSize = me'.nameSize) :
    braIoFileMetaEntryWriteCommonHeader
        (braIoFileSeekSet (braIoFileMetaEntryWriteCommonHeader f me) (braIoFileTell f)) me' =
      braIoFileMetaEntryWriteCommonHeader f me' := by
  simp only [braIoFileMetaEntryWriteCommonHeader_eq, braIoFileTell]
  exact braIoFileWrite_seek f (Nat.le_of_eq (MetaEntry.commonHeader_length hname hsize))

/-- The checksum so far is forgotten when that of the header is computed. -/
theorem braComputeHeaderCrc32_restart (len : Nat) (filename : Bytes) (me : MetaEntry)
    (crc32 : BitVec 32) :
    braComputeHeaderCrc32 len filename { me with crc32 } = braComputeHeaderCrc32 len filename me :=
  rfl

theorem braComputeHeaderCrc32_fields {len : Nat} {filename : Bytes} {me me' : MetaEntry}
    (h : braComputeHeaderCrc32 len filename me = some me') :
    me' = { me with crc32 := me'.crc32 } := by
  rw [braComputeHeaderCrc32] at h
  split at h
  · cases h
  · split at h
    · cases h
    · exact Option.some.inj h ▸ rfl

/-- Whether it can be computed is a matter of the path. -/
theorem braComputeHeaderCrc32_eq_none {len : Nat} {filename : Bytes} {me : MetaEntry}
    (h : braComputeHeaderCrc32 len filename me = none) (me' : MetaEntry) :
    braComputeHeaderCrc32 len filename me' = none := by
  rw [braComputeHeaderCrc32] at h ⊢
  split at h
  · exact if_pos ‹_›
  · split at h
    · rename_i hlen hbuf
      rw [if_neg hlen, if_pos hbuf]
    · cases h

/-! ## The attributes -/

theorem UInt8.or_and_distrib (a b c : UInt8) : (a ||| b) &&& c = (a &&& c) ||| (b &&& c) := by
  apply UInt8.toNat_inj.mp
  rw [UInt8.toNat_and, UInt8.toNat_or, Nat.and_or_distrib_right, UInt8.toNat_or, UInt8.toNat_and,
    UInt8.toNat_and]

@[simp] theorem braAttrType_setComp (a comp : UInt8) :
    braAttrType (braAttrSetComp a comp) = braAttrType a := by
  have hkeep : ~~~(0x0C : UInt8) &&& 0x03 = 0x03 := by decide
  have hmask : (0x0C : UInt8) &&& 0x03 = 0 := by decide
  rw [braAttrType, braAttrSetComp, UInt8.or_and_distrib, UInt8.and_assoc, hkeep, UInt8.and_assoc,
    hmask, UInt8.and_zero, UInt8.or_zero, braAttrType]

@[simp] theorem braAttrComp_setComp (a comp : UInt8) :
    braAttrComp (braAttrSetComp a comp) = braAttrComp comp := by
  have hmask : ~~~(0x0C : UInt8) &&& 0x0C = 0 := by decide
  rw [braAttrComp, braAttrSetComp, UInt8.or_and_distrib, UInt8.and_assoc, hmask, UInt8.and_zero,
    UInt8.zero_or, UInt8.and_assoc, UInt8.and_self, braAttrComp]

theorem braAttrSetComp_setComp (a comp comp' : UInt8) :
    braAttrSetComp (braAttrSetComp a comp) comp' = braAttrSetComp a comp' := by
  have hmask : (0x0C : UInt8) &&& ~~~0x0C = 0 := by decide
  simp only [braAttrSetComp, UInt8.or_and_distrib, UInt8.and_assoc, UInt8.and_self, hmask,
    UInt8.and_zero, UInt8.or_zero]

theorem braAttrComp_setComp_stored (a : UInt8) :
    braAttrComp (braAttrSetComp a braAttrCompStored) = braAttrCompStored :=
  (braAttrComp_setComp a _).trans (by decide)

theorem braAttrComp_setComp_compressed (a : UInt8) :
    braAttrComp (braAttrSetComp a braAttrCompCompressed) = braAttrCompCompressed :=
  (braAttrComp_setComp a _).trans (by decide)

/-! ## One call -/

section Step
variable {σ : Type} (fs : FileSystem σ) (qsortR : QsortR) (s : σ) (filename : CStr)

/-- One call of `bra_io_file_meta_entry_flush_entry_file`, with `retry` for the call that it
makes of itself. -/
def flushEntryStep (retry : IoFile → MetaEntry → Option (IoFile × MetaEntry)) (f : IoFile)
    (me : MetaEntry) : Option (IoFile × MetaEntry) :=
  if braAttrType me.attributes ≠ .file then none
  else do
    let me ← braComputeHeaderCrc32 filename.bytes.length (filename.bytes ++ [0]) me
    let attrOrig := me.attributes
    let mePos := braIoFileTell f
    if mePos ≤ 0 then none
    else
      let f := braIoFileMetaEntryWriteCommonHeader f me
      let data ← fs.openRead s filename
      if braAttrComp me.attributes = braAttrCompStored then
        let me := me.addDataSize
        let f ← braIoFileMetaEntryWriteFileEntry f me
        let (dst, _, me) ← braIoFileChunksCopyFile (some f) ⟨data, 0⟩ me.dataSize me true
        return (dst.getD f, me)
      else if braAttrComp me.attributes = braAttrCompCompressed then
        let r ← braIoFileChunksCompressFile qsortR f ⟨data, 0⟩ me.dataSize me
        if r.res then return (r.dst, r.me)
        else if attrOrig ≠ r.me.attributes then retry (braIoFileSeekSet r.dst mePos) r.me
        else none
      else none

theorem flushEntryFile_succ (depth : Nat) (f : IoFile) (me : MetaEntry) :
    flushEntryFile fs qsortR s filename (depth + 1) f me =
      flushEntryStep fs qsortR s filename (flushEntryFile fs qsortR s filename depth) f me :=
  rfl

variable {fs qsortR s filename}

/-- A stored entry is written without another call. -/
theorem flushEntryStep_stored {me : MetaEntry}
    (hcomp : braAttrComp me.attributes = braAttrCompStored)
    (retry retry' : IoFile → MetaEntry → Option (IoFile × MetaEntry)) (f : IoFile) :
    flushEntryStep fs qsortR s filename retry f me =
      flushEntryStep fs qsortR s filename retry' f me := by
  rw [flushEntryStep, flushEntryStep]
  cases hheader : braComputeHeaderCrc32 filename.bytes.length (filename.bytes ++ [0]) me with
  | none => rfl
  | some me' =>
    have hcomp' : braAttrComp me'.attributes = braAttrCompStored := by
      rw [braComputeHeaderCrc32_fields hheader]
      exact hcomp
    simp only [Option.bind_eq_bind, Option.bind_some, if_pos hcomp']

/-- Nothing is written at the start of an archive. -/
theorem flushEntryStep_atStart {f : IoFile} (hpos : braIoFileTell f ≤ 0)
    (retry : IoFile → MetaEntry → Option (IoFile × MetaEntry)) (me : MetaEntry) :
    flushEntryStep fs qsortR s filename retry f me = none := by
  simp only [flushEntryStep, if_pos hpos, Option.bind_eq_bind, Option.bind_fun_none, ite_self]

/-- The compressor gives up by storing the entry. -/
theorem braIoFileChunksCompressFile_givesUp {dst src : IoFile} {dataSize : Nat} {me : MetaEntry}
    {r : CompressResult} (h : braIoFileChunksCompressFile qsortR dst src dataSize me = some r)
    (hres : r.res = false) :
    r.dst = dst ∧
      r.me = { me with attributes := braAttrSetComp me.attributes braAttrCompStored } := by
  rw [braIoFileChunksCompressFile] at h
  obtain ⟨st, -, h⟩ := Option.bind_eq_some_iff.mp h
  simp only at h
  split at h
  · obtain rfl := Option.some.inj h
    exact ⟨rfl, rfl⟩
  · obtain ⟨dst, -, h⟩ := Option.bind_eq_some_iff.mp h
    obtain ⟨⟨dst', src', me'⟩, -, h⟩ := Option.bind_eq_some_iff.mp h
    obtain rfl := Option.some.inj h
    cases hres

/-- What the compressor keeps goes to the end of the archive, its size first. -/
theorem braIoFileChunksCompressFile_appends {bytes : Bytes} {src : IoFile} {dataSize : Nat}
    {me : MetaEntry} {r : CompressResult}
    (h : braIoFileChunksCompressFile qsortR (ioAt bytes []) src dataSize me = some r)
    (hres : r.res = true) :
    ∃ n data, n < dataSize ∧ r.me = { me with entryData := .file n, crc32 := r.me.crc32 } ∧
      r.dst = ioAt (bytes ++ leBytes 8 n ++ data) [] := by
  rw [braIoFileChunksCompressFile] at h
  obtain ⟨st, -, h⟩ := Option.bind_eq_some_iff.mp h
  simp only at h
  split at h
  · obtain rfl := Option.some.inj h
    cases hres
  · rename_i hlt
    obtain ⟨dst, hsize, h⟩ := Option.bind_eq_some_iff.mp h
    obtain ⟨⟨dst', src', me'⟩, hcopy, h⟩ := Option.bind_eq_some_iff.mp h
    obtain rfl := Option.some.inj h
    rw [braIoFileMetaEntryWriteFileEntry] at hsize
    split at hsize
    · cases hsize
    · obtain rfl := Option.some.inj hsize
      rw [braIoFileWrite_ioAt_nil] at hcopy
      obtain ⟨⟨data, rfl⟩, hme⟩ := braIoFileChunksCopyFile_appends hcopy
      exact ⟨_, data, Nat.lt_of_not_le hlt, hme, rfl⟩

/-- Calls of itself are made on stored entries only. -/
theorem flushEntryStep_congr {retry retry' : IoFile → MetaEntry → Option (IoFile × MetaEntry)}
    (h : ∀ f me, braAttrComp me.attributes = braAttrCompStored → retry f me = retry' f me)
    (f : IoFile) (me : MetaEntry) :
    flushEntryStep fs qsortR s filename retry f me =
      flushEntryStep fs qsortR s filename retry' f me := by
  unfold flushEntryStep
  refine if_congr Iff.rfl rfl ?_
  refine congrArg (Option.bind _) (funext fun me' => ?_)
  refine if_congr Iff.rfl rfl ?_
  refine congrArg (Option.bind _) (funext fun data => ?_)
  refine if_congr Iff.rfl rfl (if_congr Iff.rfl ?_ rfl)
  cases hr : braIoFileChunksCompressFile qsortR
      (braIoFileMetaEntryWriteCommonHeader f me') ⟨data, 0⟩ me'.dataSize me' with
  | none => rfl
  | some r =>
    simp only [Option.bind_eq_bind, Option.bind_some]
    cases hres : r.res with
    | true => rfl
    | false =>
      have hstored : braAttrComp r.me.attributes = braAttrCompStored := by
        rw [(braIoFileChunksCompressFile_givesUp hr hres).2]
        exact braAttrComp_setComp_stored _
      rw [h _ r.me hstored]

/-- **The second call is the last**: whatever a third one would do, it is not made. -/
theorem flushEntryStep_twice (retry : IoFile → MetaEntry → Option (IoFile × MetaEntry))
    (f : IoFile) (me : MetaEntry) :
    flushEntryStep fs qsortR s filename (flushEntryStep fs qsortR s filename retry) f me =
      braIoFileMetaEntryFlushEntryFile fs qsortR s f me filename :=
  flushEntryStep_congr (fun _ _ hcomp => flushEntryStep_stored hcomp _ _ _) f me

end Step

/-! ## Falling back -/

section Fallback
variable {σ : Type} {fs : FileSystem σ} {qsortR : QsortR} {s : σ} {filename : CStr}
  {contents : Bytes}

/-- Writing an entry again, after its header has been written with other attributes and
another checksum, is writing it. -/
theorem flushEntryStep_rewound (retry : IoFile → MetaEntry → Option (IoFile × MetaEntry))
    (f : IoFile) (me : MetaEntry) (attributes : UInt8) (crc32 crc32' : BitVec 32) :
    flushEntryStep fs qsortR s filename retry
        (braIoFileSeekSet (braIoFileMetaEntryWriteCommonHeader f
          { me with attributes, crc32 }) (braIoFileTell f)) { me with crc32 := crc32' } =
      flushEntryStep fs qsortR s filename retry f me := by
  unfold flushEntryStep
  rw [braComputeHeaderCrc32_restart]
  refine if_congr Iff.rfl rfl ?_
  cases hheader : braComputeHeaderCrc32 filename.bytes.length (filename.bytes ++ [0]) me with
  | none => simp only [Option.bind_eq_bind, Option.bind_none]
  | some me' =>
    have hfields := braComputeHeaderCrc32_fields hheader
    have hwrite : braIoFileMetaEntryWriteCommonHeader
        (braIoFileSeekSet (braIoFileMetaEntryWriteCommonHeader f
          { me with attributes, crc32 }) (braIoFileTell f)) me' =
        braIoFileMetaEntryWriteCommonHeader f me' :=
      writeCommonHeader_rewound f (by rw [hfields]) (by rw [hfields])
    simp only [Option.bind_eq_bind, Option.bind_some, hwrite]
    rfl

/-- What flushing makes of the entry of a file: other attributes, a smaller size and another
checksum at most. -/
structure FlushedAs (me me' : MetaEntry) : Prop where
  type : braAttrType me'.attributes = .file
  name : me'.name = me.name
  nameSize : me'.nameSize = me.nameSize
  entryData : me'.entryData = me.entryData ∨ ∃ n < me.dataSize, me'.entryData = .file n

/-- **What a flushed file adds** to an archive: the header of the entry, its size, and whatever
follows. -/
theorem flushEntryFile_appends {bytes : Bytes} {me me' : MetaEntry} {f : IoFile} {depth : Nat}
    (h : flushEntryFile fs qsortR s filename depth (ioAt bytes []) me = some (f, me')) :
    FlushedAs me me' ∧
      ∃ data, f = ioAt (bytes ++ me'.commonHeader ++ leBytes 8 me'.dataSize ++ data) [] := by
  induction depth generalizing me with
  | zero => cases h
  | succ depth ih =>
    rw [flushEntryFile_succ, flushEntryStep] at h
    split at h
    · cases h
    · rename_i htype
      obtain ⟨me₁, hheader, h⟩ := Option.bind_eq_some_iff.mp h
      have hfields := braComputeHeaderCrc32_fields hheader
      generalize me₁.crc32 = crc32 at hfields
      subst hfields
      dsimp only at h
      split at h
      · cases h
      · obtain ⟨data, -, h⟩ := Option.bind_eq_some_iff.mp h
        rw [braIoFileMetaEntryWriteCommonHeader_eq, braIoFileWrite_ioAt_nil] at h
        have htype' : braAttrType me.attributes = .file := not_not.mp htype
        split at h
        · -- stored: the size is written, and the contents are copied
          obtain ⟨f₁, hsize, h⟩ := Option.bind_eq_some_iff.mp h
          obtain ⟨⟨dst, src, me₂⟩, hcopy, h⟩ := Option.bind_eq_some_iff.mp h
          obtain ⟨rfl, rfl⟩ := Prod.mk.inj (Option.some.inj h)
          rw [braIoFileMetaEntryWriteFileEntry] at hsize
          split at hsize
          · cases hsize
          · obtain rfl := Option.some.inj hsize
            rw [braIoFileWrite_ioAt_nil] at hcopy
            obtain ⟨⟨buf, rfl⟩, hme⟩ := braIoFileChunksCopyFile_appends hcopy
            generalize me₂.crc32 = crc32' at hme
            subst hme
            exact ⟨⟨htype', rfl, rfl, .inl rfl⟩, buf, rfl⟩
        · split at h
          · obtain ⟨r, hcompress, h⟩ := Option.bind_eq_some_iff.mp h
            cases hres : r.res with
            | true =>
              rw [hres, if_pos rfl] at h
              obtain ⟨rfl, rfl⟩ := Prod.mk.inj (Option.some.inj h)
              obtain ⟨n, buf, hlt, hme, hdst⟩ := braIoFileChunksCompressFile_appends hcompress hres
              generalize r.me.crc32 = crc32' at hme
              rw [hme, hdst]
              exact ⟨⟨htype', rfl, rfl, .inr ⟨n, hlt, rfl⟩⟩, buf, rfl⟩
            | false =>
              -- the next call starts where this one did, with a stored entry
              obtain ⟨hdst, hme⟩ := braIoFileChunksCompressFile_givesUp hcompress hres
              rw [hres, hdst, hme] at h
              simp only [Bool.false_eq_true, if_false] at h
              split at h
              · rw [← braIoFileWrite_ioAt_nil, ← braIoFileMetaEntryWriteCommonHeader_eq] at h
                have hstored : flushEntryFile fs qsortR s filename depth (ioAt bytes [])
                    { me with attributes := braAttrSetComp me.attributes braAttrCompStored } =
                      some (f, me') := by
                  cases depth with
                  | zero => cases h
                  | succ depth =>
                    rw [flushEntryFile_succ] at h ⊢
                    exact (flushEntryStep_rewound _ _ { me with
                      attributes := braAttrSetComp me.attributes braAttrCompStored } _ crc32
                        crc32).symm.trans h
                obtain ⟨⟨htype, hname, hsize, hdata⟩, hf⟩ := ih hstored
                exact ⟨⟨htype, hname, hsize, hdata⟩, hf⟩
              · cases h
          · cases h

/-- The entry as the writer leaves it when the compressed form of the file is kept. -/
def compressedEntry (qsortR : QsortR) (contents : Bytes) (me : MetaEntry) : MetaEntry :=
  { me with
    entryData := .file (compressedData qsortR contents).length
    crc32 := writerCrc me.crc32 (compressedData qsortR contents).length contents.length
      ((fileChunks contents).map (crcChunk qsortR)) }

/-- **Flushing a compressed entry**: either the file is written once more, stored, where it
would have been without the attempt, or its compressed form follows the header. -/
theorem flushEntryFile_compressed (hread : fs.openRead s filename = some contents)
    {me : MetaEntry} (htype : braAttrType me.attributes = .file)
    (hcomp : braAttrComp me.attributes = braAttrCompCompressed)
    (hsize : me.dataSize = contents.length) (f : IoFile) :
    braIoFileMetaEntryFlushEntryFile fs qsortR s f me filename =
      if (compressedData qsortR contents).length ≥ contents.length then
        braIoFileMetaEntryFlushEntryFile fs qsortR s f
          { me with attributes := braAttrSetComp me.attributes braAttrCompStored } filename
      else (braComputeHeaderCrc32 filename.bytes.length (filename.bytes ++ [0]) me).bind fun me =>
        if braIoFileTell f ≤ 0 then none
        else
          some (braIoFileWrite f (me.commonHeader ++
            (leBytes 8 (compressedData qsortR contents).length ++ compressedData qsortR contents)),
            compressedEntry qsortR contents me) := by
  have htype' : braAttrType (braAttrSetComp me.attributes braAttrCompStored) = .file :=
    (braAttrType_setComp _ _).trans htype
  have hne : ¬ braAttrCompCompressed = braAttrCompStored := by decide
  have hattr : me.attributes ≠ braAttrSetComp me.attributes braAttrCompStored := by
    intro h
    rw [h, braAttrComp_setComp_stored] at hcomp
    exact hne hcomp.symm
  have hstart : (⟨contents, 0⟩ : IoFile) = ioAt [] contents := rfl
  rw [braIoFileMetaEntryFlushEntryFile, flushEntryFile_succ, flushEntryStep,
    if_neg (not_not_intro htype)]
  cases hheader : braComputeHeaderCrc32 filename.bytes.length (filename.bytes ++ [0]) me with
  | none =>
    split
    · rw [braIoFileMetaEntryFlushEntryFile, flushEntryFile_succ, flushEntryStep,
        if_neg (not_not_intro htype'), braComputeHeaderCrc32_eq_none hheader]
    · rfl
  | some me' =>
    have hfields := braComputeHeaderCrc32_fields hheader
    generalize me'.crc32 = crc32 at hfields
    subst hfields
    have hsize' : ({ me with crc32 } : MetaEntry).dataSize = contents.length := hsize
    simp only [Option.bind_eq_bind, Option.bind_some, hread, hcomp, if_neg hne, if_true, hsize',
      hstart, braIoFileChunksCompressFile_write, ge_iff_le]
    -- the second call stores the file, at the position where the first one began
    by_cases hle : contents.length ≤ (compressedData qsortR contents).length
    · simp only [if_pos hle, Option.bind_some, Bool.false_eq_true, if_false, if_pos hattr]
      rw [flushEntryFile_succ, flushEntryStep_rewound _ f
        { me with attributes := braAttrSetComp me.attributes braAttrCompStored } me.attributes]
      split
      · exact (flushEntryStep_atStart ‹_› _ _).symm
      · exact flushEntryStep_stored (braAttrComp_setComp_stored _) _ _ f
    · simp only [if_neg hle, if_neg (not_not_intro htype), Option.bind_some, if_true,
        braIoFileMetaEntryWriteCommonHeader_eq, braIoFileWrite_append]
      rfl

end Fallback

/-! ## Writing an entry -/

/-- The checks of `_bra_io_file_ctx_write_meta_entry_file` on a path, and the name that it
finds behind the current directory. -/
def entryName (ctx : IoFileCtx) (filename : CStr) : Option Bytes :=
  let l := ctx.lastDirSize
  if l > filename.bytes.length then none
  else if l > 0 ∧ ctx.lastDir.bytes.take l ≠ filename.bytes.take l then none
  else if charAt filename.bytes l ≠ braDirDelim ∧ l > 0 then none
  else
    let l := if charAt filename.bytes l = braDirDelim then l + 1 else l
    if filename.bytes.length - l > 255 then none else some (filename.bytes.drop l)

/-- The entry of a file before it is written. -/
def fileEntry (attributes : UInt8) (name : Bytes) (dataSize : Nat) : MetaEntry :=
  { braMetaEntryInit attributes name (UInt8.ofNat name.length) with entryData := .file dataSize }

theorem fileEntry_setComp (a comp comp' : UInt8) (name : Bytes) (dataSize : Nat) :
    { fileEntry (braAttrSetComp a comp) name dataSize with
      attributes := braAttrSetComp (braAttrSetComp a comp) comp' } =
      fileEntry (braAttrSetComp a comp') name dataSize := by
  rw [braAttrSetComp_setComp]
  rfl

/-- The file system shows a file with these contents, whatever is asked. -/
structure FileSystem.HoldsFile {σ : Type} (fs : FileSystem σ) (s : σ) (filename : CStr)
    (contents : Bytes) : Prop where
  attributes : fs.fileAttributes s filename = some AttrType.file.bits
  size : fs.fileSize s filename = some contents.length
  read : fs.openRead s filename = some contents

theorem FileSystem.Works.holdsFile {σ : Type} {fs : FileSystem σ} {used : CStr → Prop}
    {view : σ → DiskView} (hfs : fs.Works used view) {s : σ} {filename : CStr} {contents : Bytes}
    (h : view s filename = some (.file contents)) : fs.HoldsFile s filename contents where
  attributes := hfs.fileAttributes_file s _ _ h
  size := hfs.fileSize s _ _ h
  read := hfs.openRead s _ _ h

section Write
variable {σ : Type} {fs : FileSystem σ} (qsortR : QsortR) {s : σ} {filename : CStr}
  {contents : Bytes}

/-- Writing a file: the checks on its path, its size, and the record. -/
theorem writeMetaEntryFile_bind (ctx : IoFileCtx) {attributes : UInt8}
    (htype : braAttrType attributes = .file) :
    braIoFileCtxWriteMetaEntryFile fs qsortR s ctx attributes filename =
      (entryName ctx filename).bind fun name => (fs.fileSize s filename).bind fun dataSize =>
        (braIoFileMetaEntryFlushEntryFile fs qsortR s ctx.f
          (fileEntry attributes name dataSize) filename).map
            fun r => (r.2, { ctx with f := r.1 }) := by
  have hset : ∀ (name : Bytes) (dataSize : Nat), braMetaEntryFileSet
      (braMetaEntryInit attributes name (UInt8.ofNat name.length)) dataSize =
        some (fileEntry attributes name dataSize) :=
    fun name dataSize => if_neg (not_not_intro htype)
  rw [braIoFileCtxWriteMetaEntryFile, entryName]
  simp only [← List.length_drop, Option.bind_eq_bind, Option.bind_some, hset, htype, ne_eq,
    not_true_eq_false, if_false]
  -- both sides make the same checks one after the other
  generalize (if charAt filename.bytes ctx.lastDirSize = braDirDelim then ctx.lastDirSize + 1
    else ctx.lastDirSize) = l
  repeat (split; · rfl)
  rw [Option.bind_some]
  refine congrArg (Option.bind _) (funext fun dataSize => ?_)
  cases braIoFileMetaEntryFlushEntryFile fs qsortR s ctx.f
    (fileEntry attributes (filename.bytes.drop l) dataSize) filename <;> rfl

/-- A file is written in the record that its attributes call for. -/
theorem encodeFile_eq (h : fs.HoldsFile s filename contents) (ctx : IoFileCtx)
    (compress : Bool) :
    braIoFileCtxEncodeAndWriteToDisk fs qsortR s ctx filename compress =
      (entryName ctx filename).bind fun name =>
        (braIoFileMetaEntryFlushEntryFile fs qsortR s ctx.f
          (fileEntry (braAttrSetComp AttrType.file.bits
            (if compress then braAttrCompCompressed else braAttrCompStored)) name
              contents.length) filename).map
            fun r => { ctx with f := braIoFileWrite r.1 (leBytes 4 r.2.crc32.toNat) } := by
  have hattr : (if compress && braAttrType AttrType.file.bits == .file then
      braAttrSetComp AttrType.file.bits braAttrCompCompressed
      else braAttrSetComp AttrType.file.bits braAttrCompStored) =
      braAttrSetComp AttrType.file.bits
        (if compress then braAttrCompCompressed else braAttrCompStored) := by
    cases compress <;> rfl
  -- the compression bits leave the type of the entry alone
  have htype : braAttrType (braAttrSetComp AttrType.file.bits
      (if compress then braAttrCompCompressed else braAttrCompStored)) = .file :=
    (braAttrType_setComp _ _).trans rfl
  simp only [braIoFileCtxEncodeAndWriteToDisk, h.attributes, Option.bind_eq_bind, Option.bind_some,
    hattr, braIoFileCtxWriteMetaEntry, htype, writeMetaEntryFile_bind qsortR ctx htype, h.size]
  cases entryName ctx filename with
  | none => rfl
  | some name =>
    rw [Option.bind_some, Option.bind_some, Option.bind_map, Option.map_eq_bind]
    rfl

theorem braAttrType_compressedFile (name : Bytes) (fileSize : Nat) :
    braAttrType (fileEntry (braAttrSetComp AttrType.file.bits braAttrCompCompressed) name
      fileSize).attributes = .file :=
  (braAttrType_setComp _ _).trans rfl

theorem braAttrComp_compressedFile (name : Bytes) (fileSize : Nat) :
    braAttrComp (fileEntry (braAttrSetComp AttrType.file.bits braAttrCompCompressed) name
      fileSize).attributes = braAttrCompCompressed :=
  braAttrComp_setComp_compressed _

/-- What a compressed entry adds to an archive, when it can be written at all. -/
theorem encodeFile_kept (h : fs.HoldsFile s filename contents)
    (hkept : (compressedData qsortR contents).length < contents.length) {ctx ctx' : IoFileCtx}
    (hctx : braIoFileCtxEncodeAndWriteToDisk fs qsortR s ctx filename true = some ctx') :
    ∃ me : MetaEntry, me.entryData = .file (compressedData qsortR contents).length ∧
      braAttrType me.attributes = .file ∧ braAttrComp me.attributes = braAttrCompCompressed ∧
      ctx' = { ctx with f := braIoFileWrite ctx.f (me.commonHeader ++
        leBytes 8 me.dataSize ++ compressedData qsortR contents ++ leBytes 4 me.crc32.toNat) } := by
  rw [encodeFile_eq qsortR h, if_pos rfl] at hctx
  obtain ⟨name, -, hname⟩ := Option.bind_eq_some_iff.mp hctx
  obtain ⟨⟨f, me⟩, hflush, rfl⟩ := Option.map_eq_some_iff.mp hname
  rw [flushEntryFile_compressed h.read (braAttrType_compressedFile name contents.length)
    (braAttrComp_compressedFile name contents.length) rfl, if_neg (Nat.not_le.mpr hkept)] at hflush
  obtain ⟨me₁, hheader, hflush⟩ := Option.bind_eq_some_iff.mp hflush
  have hfields := braComputeHeaderCrc32_fields hheader
  split at hflush
  · cases hflush
  · obtain ⟨rfl, rfl⟩ := Prod.mk.inj (Option.some.inj hflush)
    -- the header CRC is all that has been set in the entry
    have hattr : (compressedEntry qsortR contents me₁).attributes = braAttrCompCompressed := by
      change me₁.attributes = braAttrCompCompressed
      rw [hfields]
      rfl
    refine ⟨compressedEntry qsortR contents me₁, rfl, by rw [hattr]; rfl, by rw [hattr]; rfl, ?_⟩
    rw [braIoFileWrite_append, ← List.append_assoc]
    rfl

/-- **Falling back from compression leaves no trace**: a file whose compressed form is not
smaller is archived as if compression had not been asked for; the payload of any other is
smaller than the file; and no call is repeated more than once. -/
theorem compressFallback_noTrace (h : fs.HoldsFile s filename contents) (ctx : IoFileCtx) :
    ((compressedData qsortR contents).length ≥ contents.length →
      braIoFileCtxEncodeAndWriteToDisk fs qsortR s ctx filename true =
        braIoFileCtxEncodeAndWriteToDisk fs qsortR s ctx filename false) ∧
    ((compressedData qsortR contents).length < contents.length →
      ∀ ctx', braIoFileCtxEncodeAndWriteToDisk fs qsortR s ctx filename true = some ctx' →
        ∃ (me : MetaEntry) (payload : Bytes), braAttrType me.attributes = .file ∧
          braAttrComp me.attributes = braAttrCompCompressed ∧
          payload.length = me.dataSize ∧ me.dataSize < contents.length ∧
          ctx' = { ctx with f := braIoFileWrite ctx.f (me.commonHeader ++
            leBytes 8 me.dataSize ++ payload ++ leBytes 4 me.crc32.toNat) }) ∧
    ∀ retry f me,
      flushEntryStep fs qsortR s filename (flushEntryStep fs qsortR s filename retry) f me =
        braIoFileMetaEntryFlushEntryFile fs qsortR s f me filename := by
  refine ⟨fun hge => ?_, fun hlt ctx' hctx => ?_, flushEntryStep_twice⟩
  · rw [encodeFile_eq qsortR h, if_pos rfl, encodeFile_eq qsortR h]
    refine congrArg (Option.bind _) (funext fun name => ?_)
    rw [flushEntryFile_compressed h.read (braAttrType_compressedFile name contents.length)
      (braAttrComp_compressedFile name contents.length) rfl, if_pos hge]
    exact congrArg (fun me => Option.map _ (braIoFileMetaEntryFlushEntryFile fs qsortR s ctx.f me
      filename)) (fileEntry_setComp _ _ _ _ _)
  · obtain ⟨me, hdata, htype, hcomp, rfl⟩ := encodeFile_kept qsortR h hlt hctx
    have hsize : me.dataSize = (compressedData qsortR contents).length := by
      rw [MetaEntry.dataSize, hdata]
    exact ⟨me, compressedData qsortR contents, htype, hcomp, hsize.symm, hsize ▸ hlt, rfl⟩

end Write

/-- The file `a` with one byte, written with compression behind the header of an archive: it is
stored. -/
theorem compressFallback_noTrace_byte :
    (braIoFileCtxEncodeAndWriteToDisk FileSystem.inMemory QsortR.mergeSort
        (fun _ => some (.file [7])) (braIoFileCtxOpen ⟨leBytes 4 braMagic ++ leBytes 4 1, 8⟩)
        (CStr.ofBuffer [97]) true).map (fun ctx => ctx.f.data) =
      some (leBytes 4 braMagic ++ leBytes 4 1 ++ [0, 1, 97] ++ leBytes 8 1 ++ [7] ++
        [137, 215, 0, 69]) := by
  have hfile : FileSystem.inMemory.HoldsFile (fun _ => some (.file [7])) (CStr.ofBuffer [97]) [7] :=
    (FileSystem.inMemory_works (· = CStr.ofBuffer [97])).holdsFile rfl
  rw [(compressFallback_noTrace QsortR.mergeSort hfile _).1 ?_]
  · decide +kernel
  · have hchunks : fileChunks [7] = [[7]] := by decide +kernel
    rw [compressedData, hchunks, List.flatMap_singleton, chunkImage, List.length_append,
      ChunkHeader.diskImage_length]
    exact Nat.le_add_right_of_le (by decide)

end BrArchive
