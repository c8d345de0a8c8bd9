import BrArchive.ArchiveRoundTrip
import BrArchive.WriterFrame

/-! # The records of a packed archive

With compression asked for, a file is recorded in its compressed form if that is smaller, and
stored if not.  Reading an entry starts alike for all kinds of records, and whatever is to be
done with it; and the only thing that can go wrong with what the writer has recorded is that
the reader refuses the compressed form of a file.
-/
namespace BrArchive
open WhileLoop

/-! ## Files -/

section File
variable (qsortR : QsortR) (compress : Bool) (path name : CStr) (contents : Bytes)

/-- The compressed form of the file is kept. -/
def KeepsCompressed : Prop :=
  compress = true ∧ (compressedData qsortR contents).length < contents.length

instance : Decidable (KeepsCompressed qsortR compress contents) := by
  unfold KeepsCompressed
  infer_instance

/-- The attributes that are recorded with a file. -/
def packedAttributes : UInt8 :=
  if KeepsCompressed qsortR compress contents then
    braAttrSetComp AttrType.file.bits braAttrCompCompressed
  else braAttrSetComp AttrType.file.bits braAttrCompStored

/-- The contents as they are recorded. -/
def packedPayload : Bytes :=
  if KeepsCompressed qsortR compress contents then compressedData qsortR contents else contents

/-- The checksum that is recorded. -/
def packedCrc : BitVec 32 :=
  if KeepsCompressed qsortR compress contents then
    writerCrc (headerCrc (packedAttributes qsortR compress contents) path.bytes)
      (compressedData qsortR contents).length contents.length
      ((fileChunks contents).map (crcChunk qsortR))
  else fileCrc path contents

/-- The checksum that the reader computes. -/
def unpackedCrc : BitVec 32 :=
  if KeepsCompressed qsortR compress contents then
    readerCrc (headerCrc (packedAttributes qsortR compress contents) path.bytes)
      (compressedData qsortR contents).length ((fileChunks contents).map (crcChunk qsortR))
  else fileCrc path contents

/-- The record of a file. -/
def packedFile : Bytes :=
  headerImage (packedAttributes qsortR compress contents) name ++
    leBytes 8 (packedPayload qsortR compress contents).length ++
    packedPayload qsortR compress contents ++
    leBytes 4 (packedCrc qsortR compress path contents).toNat

/-- **A file that can be got back**: if its compressed form is kept, the run-length encoder
has made no chunk longer than the reader accepts, and writer and reader agree on the
checksum. -/
def Recoverable : Prop :=
  KeepsCompressed qsortR compress contents →
    (∀ c ∈ fileChunks contents, rleSize qsortR c ≤ braMaxChunkSize) ∧
      packedCrc qsortR compress path contents = unpackedCrc qsortR compress path contents

instance : Decidable (Recoverable qsortR compress path contents) := by
  unfold Recoverable
  infer_instance

theorem packedAttributes_type :
    braAttrType (packedAttributes qsortR compress contents) = .file := by
  rw [packedAttributes]
  split <;> rfl

variable {qsortR compress path name contents}

theorem recoverable_of_stored (h : ¬ KeepsCompressed qsortR compress contents) :
    Recoverable qsortR compress path contents :=
  fun hkeeps => absurd hkeeps h

/-- Without compression everything is as it is in a stored record. -/
theorem packedFile_of_stored (h : ¬ KeepsCompressed qsortR compress contents) :
    packedFile qsortR compress path name contents = fileImage path name contents := by
  rw [packedFile, packedAttributes, packedPayload, packedCrc, if_neg h, if_neg h, if_neg h]
  rfl

theorem packedPayload_length_le :
    (packedPayload qsortR compress contents).length ≤ contents.length := by
  rw [packedPayload]
  split
  · rename_i h
    exact h.2.le
  · exact Nat.le_refl _

end File

/-! ## Files that can always be got back -/

section Recover
variable {qsortR : QsortR} {compress : Bool} {path : CStr} {contents : Bytes}

/-- The checksum of a compressed file goes over the chunks it is cut into. -/
theorem IsSplit.isChunking {cs : List Bytes} (h : IsSplit cs) (qsortR : QsortR) :
    IsChunking cs.flatten.length (cs.map (crcChunk qsortR)) where
  header c hc := by
    obtain ⟨b, -, rfl⟩ := List.mem_map.mp hc
    exact (encodedChunk qsortR b).1.image_length
  bounds c hc := by
    obtain ⟨b, hb, rfl⟩ := List.mem_map.mp hc
    exact h.bounds b hb
  full c hc := by
    induction h with
    | nil => exact absurd hc List.not_mem_nil
    | last => exact absurd hc List.not_mem_nil
    | @cons b cs hfull tail ih =>
      cases cs with
      | nil => exact absurd hc List.not_mem_nil
      | cons b' cs =>
        rcases List.mem_cons.mp hc with rfl | hc
        · exact hfull
        · exact ih hc
  total := by
    rw [List.map_map, List.length_flatten]
    rfl

/-- A file shorter than four gigabytes, and of chunks that are not made too long, can be got
back. -/
theorem recoverable_of_chunks (hlen : crcLength contents.length < 2 ^ 32)
    (hchunks : ∀ c ∈ fileChunks contents, rleSize qsortR c ≤ braMaxChunkSize) :
    Recoverable qsortR compress path contents := by
  intro hkeeps
  refine ⟨hchunks, ?_⟩
  have hsplit := (fileChunks_isSplit contents).isChunking qsortR
  rw [fileChunks_flatten] at hsplit
  have hpos : 0 < crcLength contents.length := by
    have := hkeeps.2
    rw [crcLength]
    omega
  rw [packedCrc, unpackedCrc, if_pos hkeeps, if_pos hkeeps, writerCrc_eq_iff hsplit,
    Nat.mod_eq_of_lt hlen, if_neg (Nat.ne_of_gt hpos), Nat.div_eq_of_lt hlen]
  rfl

/-- **A file that leaves the run-length encoder room** can be got back, whatever it holds. -/
theorem recoverable_of_length
    (hlen : contents.length + (contents.length + 127) / 128 ≤ braMaxChunkSize) :
    Recoverable qsortR compress path contents := by
  refine recoverable_of_chunks ?_ fun c hc => ?_
  · rw [crcLength, numChunks, sizeofChunkHeader, sizeofHuffman]
    rw [braMaxChunkSize] at *
    split <;> omega
  · have hle : c.length ≤ contents.length := by
      rw [← fileChunks_flatten contents]
      exact (List.sublist_flatten_of_mem hc).length_le
    have hbound := (rleEncodeBlocks_length_le c.length
      (braMtfEncode2 (braBwtEncode2 qsortR c).1)).1
    rw [transformed_length] at hbound
    rw [← rleData_length, rleData]
    omega

end Recover

/-! ## Writing a file -/

section EncodeFile
variable {σ : Type} {fs : FileSystem σ} {used : CStr → Prop} {view : σ → DiskView} {s : σ}
  {cur : List CStr} {name : CStr} {contents : Bytes}

/-- The writer finds the name of a file behind its current directory. -/
theorem entryName_joinPath (hname : IsEntryName name) {ctx : IoFileCtx}
    (hdir : ctx.lastDir = joinPath cur) (hsize : ctx.lastDirSize = (joinPath cur).bytes.length) :
    entryName ctx (joinPath (cur ++ [name])) = some name.bytes := by
  have hle := hname.length_le
  have hchar := charAt_joinPath cur hname
  have hbytes := joinPath_append_singleton cur name
  have htake : (joinPath (cur ++ [name])).bytes.take (joinPath cur).bytes.length =
      (joinPath cur).bytes := by
    by_cases hcur : cur = []
    · subst hcur
      rfl
    · rw [hbytes, delimited_eq hcur, List.append_assoc, List.take_left]
  generalize joinPath (cur ++ [name]) = path at *
  have hlen : path.bytes.length = (delimited cur).length + name.bytes.length := by
    rw [hbytes, List.length_append]
  have hdrop : path.bytes.drop (delimited cur).length = name.bytes := by rw [hbytes, List.drop_left]
  rw [entryName, hsize, hdir]
  dsimp only
  rcases hchar with ⟨hdelim, hcut⟩ | ⟨hdelim, hzero, hcut⟩
  · rw [if_neg (by omega), if_neg (by rw [htake, List.take_length]; exact fun h => h.2 rfl),
      if_neg (fun h => h.1 hdelim), if_pos hdelim, if_neg (by omega), ← hcut, hdrop]
  · rw [if_neg (by omega), if_neg (fun h => absurd h.1 (by omega)),
      if_neg (fun h => absurd h.2 (by omega)), if_neg hdelim, if_neg (by omega), hzero, ← hcut,
      hdrop]

/-- A file whose compressed form is not smaller is archived as if compression had not been
asked for. -/
theorem encodeFile_fallback (qsortR : QsortR) {filename : CStr}
    (h : fs.HoldsFile s filename contents)
    (hge : (compressedData qsortR contents).length ≥ contents.length) (ctx : IoFileCtx) :
    braIoFileCtxEncodeAndWriteToDisk fs qsortR s ctx filename true =
      braIoFileCtxEncodeAndWriteToDisk fs qsortR s ctx filename false := by
  rw [encodeFile_eq qsortR h, if_pos rfl, encodeFile_eq qsortR h]
  refine congrArg (Option.bind _) (funext fun name => ?_)
  rw [flushEntryFile_compressed h.read (braAttrType_compressedFile name contents.length)
    (braAttrComp_compressedFile name contents.length) rfl, if_pos hge]
  exact congrArg (fun me => Option.map _ (braIoFileMetaEntryFlushEntryFile fs qsortR s ctx.f me
    filename)) (fileEntry_setComp _ _ _ _ _)

theorem commonHeader_fileEntry (hname : IsEntryName name) (attributes : UInt8) (dataSize : Nat)
    (path : Bytes) :
    ((fileEntry attributes name.bytes dataSize).withHeaderCrc path).commonHeader =
      headerImage attributes name := by
  have hbytes : ((fileEntry attributes name.bytes dataSize).withHeaderCrc path).name = name.bytes :=
    braMetaEntryInit_name attributes name
  have hsize : ((fileEntry attributes name.bytes dataSize).withHeaderCrc path).nameSize.toNat =
      name.bytes.length := hname.toNat_length
  rw [MetaEntry.commonHeader, hbytes, hsize, List.take_left]
  rfl

/-- **The writer appends the record of a file.** -/
theorem encodePacked_ioAt (hfs : fs.Works used view) (qsortR : QsortR) (compress : Bool)
    (hname : IsEntryName name) (hnode : view s (joinPath (cur ++ [name])) = some (.file contents))
    (hmax : (joinPath (cur ++ [name])).bytes.length ≤ 65535) {ctx : IoFileCtx} {bytes : Bytes}
    (hf : ctx.f = ioAt bytes []) (hbytes : 0 < bytes.length)
    (hdir : ctx.lastDir = joinPath cur) (hsize : ctx.lastDirSize = (joinPath cur).bytes.length) :
    braIoFileCtxEncodeAndWriteToDisk fs qsortR s ctx (joinPath (cur ++ [name])) compress =
      some { ctx with
        f := ioAt (bytes ++ packedFile qsortR compress (joinPath (cur ++ [name])) name contents)
          [] } := by
  have hstored := encodeFile_ioAt hfs qsortR hname hnode hmax hf hbytes hdir hsize
  have hholds := hfs.holdsFile hnode
  by_cases hkeeps : KeepsCompressed qsortR compress contents
  · obtain ⟨rfl, hlt⟩ := id hkeeps
    have htell : ¬ braIoFileTell (ioAt bytes []) ≤ 0 := Nat.not_le.mpr hbytes
    have hheader := braComputeHeaderCrc32_eq (joinPath_length_pos cur hname) hmax
      (fileEntry (braAttrSetComp AttrType.file.bits braAttrCompCompressed) name.bytes
        contents.length)
    rw [encodeFile_eq qsortR hholds, entryName_joinPath hname hdir hsize, Option.bind_some, if_pos rfl,
      flushEntryFile_compressed hholds.read (braAttrType_compressedFile _ _)
        (braAttrComp_compressedFile _ _) rfl, if_neg (Nat.not_le.mpr hlt), hheader,
      Option.bind_some, hf, if_neg htell, Option.map_some,
      commonHeader_fileEntry hname, braIoFileWrite_ioAt_nil, braIoFileWrite_ioAt_nil, packedFile,
      packedPayload, packedCrc, if_pos hkeeps, if_pos hkeeps, packedAttributes, if_pos hkeeps]
    simp only [List.append_assoc]
    rfl
  · rw [packedFile_of_stored hkeeps]
    cases compress with
    | false => exact hstored
    | true =>
      have hge : (compressedData qsortR contents).length ≥ contents.length :=
        Nat.not_lt.mp fun hlt => hkeeps ⟨rfl, hlt⟩
      rw [encodeFile_fallback qsortR hholds hge, hstored]

end EncodeFile

/-! ## Reading the head of an entry -/

/-- What all ways of reading the entry under `path` start with: the entry `me` is read, its path
is put together, and checked. -/
structure HeadRead (ctx ctx₁ : IoFileCtx) (me : MetaEntry) (path : CStr) : Prop where
  read : braIoFileCtxReadMetaEntry ctx = some (me, ctx₁)
  name : braIoFileCtxReconstructMetaEntryName ctx₁ me =
    some (path.bytes ++ [0], path.bytes.length)
  check : checkHeader (path.bytes ++ [0]) path.bytes.length me =
    some (me.withHeaderCrc path.bytes)

section Head
variable {σ : Type} {fs : FileSystem σ} {ctx ctx₁ : IoFileCtx} {me : MetaEntry} {path : CStr}

/-- The entry of a directory with its checksum. -/
def MetaEntry.withDirCrc (me : MetaEntry) (path : Bytes) : MetaEntry :=
  if braAttrType me.attributes = .subdir then (me.withHeaderCrc path).addParentIndex
  else me.withHeaderCrc path

theorem withDirCrc_dir (htype : braAttrType me.attributes = .dir) (path : Bytes) :
    me.withDirCrc path = me.withHeaderCrc path :=
  if_neg (by rw [htype]; decide)

theorem withDirCrc_subdir (htype : braAttrType me.attributes = .subdir) (path : Bytes) :
    me.withDirCrc path = (me.withHeaderCrc path).addParentIndex :=
  if_pos htype

/-- Extracting a directory. -/
theorem HeadRead.decode_dir (h : HeadRead ctx ctx₁ me path)
    (htype : braAttrType me.attributes = .dir ∨ braAttrType me.attributes = .subdir) (user : User)
    (s : σ) :
    braIoFileCtxDecodeAndWriteToDisk fs ctx user s =
      (extractDir fs s path).bind fun s =>
        (finishEntry ctx₁ (me.withDirCrc path.bytes) true).map fun ctx => (ctx, user, s) := by
  have hfn : CStr.ofBuffer (path.bytes ++ [0]) = path := CStr.ofBuffer_append_nul path []
  have hattr : (me.withHeaderCrc path.bytes).attributes = me.attributes := rfl
  simp only [braIoFileCtxDecodeAndWriteToDisk, h.read, h.name, hfn, h.check, Option.bind_eq_bind,
    Option.bind_some, hattr]
  rcases htype with htype | htype
  · rw [htype, withDirCrc_dir htype]
    exact congrArg (Option.bind _) (funext fun s => Option.map_eq_bind.symm)
  · rw [htype, withDirCrc_subdir htype]
    exact congrArg (Option.bind _) (funext fun s => Option.map_eq_bind.symm)

/-- Listing or testing a directory. -/
theorem HeadRead.print_dir (h : HeadRead ctx ctx₁ me path)
    (htype : braAttrType me.attributes = .dir ∨ braAttrType me.attributes = .subdir)
    (testMode : Bool) :
    braIoFileCtxPrintMetaEntry ctx testMode =
      finishEntry ctx₁ (if testMode then me.withDirCrc path.bytes else me) testMode := by
  have hattr : (me.withHeaderCrc path.bytes).attributes = me.attributes := rfl
  simp only [braIoFileCtxPrintMetaEntry, h.read, h.name, Option.bind_eq_bind, Option.bind_some]
  cases testMode with
  | false =>
    simp only [Bool.false_eq_true, if_false]
    rcases htype with htype | htype <;> rw [htype]
  | true =>
    simp only [if_true, h.check, Option.bind_some, hattr]
    rcases htype with htype | htype
    · rw [htype, withDirCrc_dir htype]
    · rw [htype, withDirCrc_subdir htype]

/-- Extracting a file. -/
theorem HeadRead.decode_file (h : HeadRead ctx ctx₁ me path)
    (htype : braAttrType me.attributes = .file) (user : User) (s : σ) :
    braIoFileCtxDecodeAndWriteToDisk fs ctx user s =
      if (braFsFileExistsAskOverwrite fs s path user false).1 = true then
        (fs.openWrite s path).bind fun s' =>
          (extractContents ⟨[], 0⟩ ctx₁.f (me.withHeaderCrc path.bytes).addDataSize).bind
            fun r => (finishEntry { ctx₁ with f := r.2.1 } r.2.2 true).map fun ctx =>
              (ctx, (braFsFileExistsAskOverwrite fs s path user false).2,
                fs.closeWrite s' path (r.1.elim [] IoFile.data))
      else
        (braIoFileSkipData ctx₁.f (me.dataSize + 4)).map fun f =>
          ({ ctx₁ with f }, (braFsFileExistsAskOverwrite fs s path user false).2, s) := by
  have hfn : CStr.ofBuffer (path.bytes ++ [0]) = path := CStr.ofBuffer_append_nul path []
  have hattr : (me.withHeaderCrc path.bytes).attributes = me.attributes := rfl
  simp only [braIoFileCtxDecodeAndWriteToDisk, h.read, h.name, hfn, h.check, Option.bind_eq_bind,
    Option.bind_some, hattr, htype]
  cases hask : braFsFileExistsAskOverwrite fs s path user false with
  | mk overwrite user' =>
    cases overwrite with
    | false => exact Option.map_eq_bind.symm
    | true =>
      simp only [Bool.not_true, Bool.false_eq_true, if_false, if_true]
      refine congrArg (Option.bind _) (funext fun s => ?_)
      exact congrArg (Option.bind _) (funext fun r => Option.map_eq_bind.symm)

/-- Listing or testing a file. -/
theorem HeadRead.print_file (h : HeadRead ctx ctx₁ me path)
    (htype : braAttrType me.attributes = .file) (testMode : Bool) :
    braIoFileCtxPrintMetaEntry ctx testMode =
      let me := if testMode then (me.withHeaderCrc path.bytes).addDataSize else me
      (braIoFileChunksReadFile ctx₁.f me.dataSize me testMode).bind fun r =>
        finishEntry { ctx₁ with f := r.2.1 } r.2.2 testMode := by
  have hattr : (me.withHeaderCrc path.bytes).attributes = me.attributes := rfl
  simp only [braIoFileCtxPrintMetaEntry, h.read, h.name, Option.bind_eq_bind, Option.bind_some]
  cases testMode with
  | false =>
    simp only [Bool.false_eq_true, if_false, htype]
  | true =>
    simp only [if_true, h.check, Option.bind_some, hattr, htype]

end Head

/-- **The checksum at the end of a record** is compared if it has been computed. -/
theorem finishEntry_record {ctx : IoFileCtx} {pre rest : Bytes} {crc32 : BitVec 32}
    (hf : ctx.f = ioAt pre (leBytes 4 crc32.toNat ++ rest)) (me : MetaEntry) (compare : Bool) :
    finishEntry ctx me compare =
      if compare = true ∧ crc32 ≠ me.crc32 then none
      else some { ctx with f := ioAt (pre ++ leBytes 4 crc32.toNat) rest } := by
  have hread := braIoFileRead_ioAt pre (leBytes 4 crc32.toNat) rest (leBytes_length 4 _)
  have hvalue : BitVec.ofNat 32 (leValue (leBytes 4 crc32.toNat)) = crc32 := by
    have hlt : crc32.toNat < 256 ^ 4 := crc32.isLt
    rw [leValue_leBytes, Nat.mod_eq_of_lt hlt, BitVec.ofNat_toNat, BitVec.setWidth_eq]
  simp only [finishEntry, readCrc32, hf, hread, Option.bind_eq_bind, Option.bind_some, hvalue,
    Option.pure_def, Bool.and_eq_true, bne_iff_ne]

/-! ## Reading a file -/

section Contents
variable {qsortR : QsortR} {compress : Bool} {path name : CStr} {contents : Bytes}

/-- The decompression loop fails at the first chunk whose header is refused. -/
theorem decompressLoop_none {enc : Bytes → ChunkHeader × Bytes} {cs : List Bytes}
    (h : ∀ c ∈ cs, ChunkDecodes (enc c) c)
    (hindex : ∀ c ∈ cs, (enc c).1.primaryIndex < 256 ^ braBwtIndexBytes)
    (hbad : ∃ c ∈ cs, braIoFileChunksHeaderValidate (enc c).1 = false) :
    ∀ (fuel dataSize i fileOrigSize : Nat) (pre post : Bytes) (dst : Option IoFile)
      (crc32 : BitVec 32), (cs.flatMap fun c => chunkImage (enc c)).length ≤ fuel →
      dataSize = i + (cs.flatMap fun c => chunkImage (enc c)).length →
      run (fun st => st.i < dataSize) (decompressChunk true) fuel
          ⟨dst, ioAt pre ((cs.flatMap fun c => chunkImage (enc c)) ++ post), crc32,
            fileOrigSize, i⟩ = none := by
  induction cs with
  | nil =>
    obtain ⟨c, hc, -⟩ := hbad
    exact absurd hc List.not_mem_nil
  | cons c cs ih =>
    intro fuel dataSize i fileOrigSize pre post dst crc32 hfuel hsize
    obtain ⟨hc, hcs⟩ := List.forall_mem_cons.mp h
    obtain ⟨hic, hics⟩ := List.forall_mem_cons.mp hindex
    have hpos : 0 < (chunkImage (enc c)).length := by
      rw [chunkImage_length hc.length, braIoChunkHeaderSize, sizeofHuffman]
      omega
    rw [List.flatMap_cons, List.length_append] at hsize hfuel
    obtain ⟨fuel, rfl⟩ : ∃ n, fuel = n + 1 := ⟨fuel - 1, by omega⟩
    rw [run_succ_of (by simp; omega), List.flatMap_cons, List.append_assoc]
    cases hvalid : braIoFileChunksHeaderValidate (enc c).1 with
    | false =>
      rw [chunkImage, List.append_assoc, decompressChunk]
      simp only [decompressRead, braIoFileChunksReadHeader_ioAt pre hic, Option.bind_eq_bind,
        Option.bind_some, hvalid, Bool.not_false, if_true, Option.bind_none]
    | true =>
      -- the bad one is further on
      have hbad' : ∃ c ∈ cs, braIoFileChunksHeaderValidate (enc c).1 = false := by
        obtain ⟨c', hc', hfalse⟩ := hbad
        rcases List.mem_cons.mp hc' with rfl | hmem
        · rw [hvalid] at hfalse
          cases hfalse
        · exact ⟨c', hmem, hfalse⟩
      rw [decompressChunk_ioAt hc hvalid, Option.bind_some]
      exact ih hcs hics hbad' fuel dataSize (i + (chunkImage (enc c)).length) _ _ post _ _ (by omega)
        (by omega)

/-- **The decompressor on a compressed file**: it fails exactly if the run-length encoder made a
chunk too long. -/
theorem decompress_packed (hx : contents.length < 2 ^ 64)
    (hkeeps : (compressedData qsortR contents).length < contents.length) (pre post : Bytes)
    (me : MetaEntry) :
    braIoFileChunksDecompressFile (some (ioAt [] []))
        (ioAt pre (compressedData qsortR contents ++ post))
        (compressedData qsortR contents).length me true =
      if ∀ c ∈ fileChunks contents, rleSize qsortR c ≤ braMaxChunkSize then
        some (some (ioAt contents []), ioAt (pre ++ compressedData qsortR contents) post,
          { me with
            crc32 := ((fileChunks contents).map (crcChunk qsortR)).foldl decompressCrcChunk
              me.crc32 })
      else none := by
  have hspec := fun c hc =>
    compressData_spec qsortR ((fileChunks_isSplit contents).bounds c hc).1
      ((fileChunks_isSplit contents).bounds c hc).2
  split
  · rename_i hsize
    exact decompress_compressedData qsortR hx hkeeps
      (fun c hc => (hspec c hc).2.2.2.1.mpr (hsize c hc)) pre post me
  · rename_i hsize
    simp only [not_forall] at hsize
    obtain ⟨c, hc, hlong⟩ := hsize
    have hbad : ∃ c ∈ fileChunks contents,
        braIoFileChunksHeaderValidate (encodedChunk qsortR c).1 = false :=
      ⟨c, hc, Bool.eq_false_iff.mpr fun h => hlong ((hspec c hc).2.2.2.1.mp h)⟩
    have hindex : ∀ c ∈ fileChunks contents,
        (encodedChunk qsortR c).1.primaryIndex < 256 ^ braBwtIndexBytes := fun c hc =>
      Nat.lt_of_lt_of_le (hspec c hc).2.2.1
        (Nat.le_trans ((fileChunks_isSplit contents).bounds c hc).2 (by decide))
    have hrun := decompressLoop_none (fun c hc => (hspec c hc).2.1) hindex hbad
      (compressedData qsortR contents).length (compressedData qsortR contents).length 0 0 pre post
      (some (ioAt [] [])) me.crc32 (Nat.le_refl _) (Nat.zero_add _).symm
    rw [← compressedData] at hrun
    simp only [braIoFileChunksDecompressFile, hrun, Option.bind_eq_bind, Option.bind_none]

/-- The entry of a file before its contents are read. -/
def packedEntry (qsortR : QsortR) (compress : Bool) (name : CStr) (contents : Bytes) : MetaEntry :=
  fileEntry (packedAttributes qsortR compress contents) name.bytes
    (packedPayload qsortR compress contents).length

/-- The chunks of a file are no longer than the reader accepts, if that matters. -/
def ChunksAccepted (qsortR : QsortR) (compress : Bool) (contents : Bytes) : Prop :=
  KeepsCompressed qsortR compress contents →
    ∀ c ∈ fileChunks contents, rleSize qsortR c ≤ braMaxChunkSize

/-- **What is extracted from a record.** -/
theorem extractContents_packed (hx : contents.length < 2 ^ 64) (pre post : Bytes) :
    (ChunksAccepted qsortR compress contents →
      extractContents ⟨[], 0⟩ (ioAt pre (packedPayload qsortR compress contents ++ post))
          ((packedEntry qsortR compress name contents).withHeaderCrc path.bytes).addDataSize =
        some (some (ioAt contents []), ioAt (pre ++ packedPayload qsortR compress contents) post,
          { ((packedEntry qsortR compress name contents).withHeaderCrc path.bytes).addDataSize with
            crc32 := unpackedCrc qsortR compress path contents })) ∧
    (¬ ChunksAccepted qsortR compress contents →
      extractContents ⟨[], 0⟩ (ioAt pre (packedPayload qsortR compress contents ++ post))
          ((packedEntry qsortR compress name contents).withHeaderCrc path.bytes).addDataSize =
        none) := by
  by_cases hkeeps : KeepsCompressed qsortR compress contents
  · have hpayload : packedPayload qsortR compress contents = compressedData qsortR contents :=
      if_pos hkeeps
    have hcomp : braAttrComp ((packedEntry qsortR compress name contents).withHeaderCrc
        path.bytes).addDataSize.attributes = braAttrCompCompressed := by
      change braAttrComp (packedAttributes qsortR compress contents) = _
      rw [packedAttributes, if_pos hkeeps]
      rfl
    have hsize : ((packedEntry qsortR compress name contents).withHeaderCrc
        path.bytes).addDataSize.dataSize = (compressedData qsortR contents).length :=
      congrArg List.length hpayload
    have hextract : ∀ f me, braAttrComp me.attributes = braAttrCompCompressed →
        extractContents ⟨[], 0⟩ f me =
          braIoFileChunksDecompressFile (some (ioAt [] [])) f me.dataSize me true := by
      intro f me hme
      rw [extractContents, hme, if_neg (by decide), if_pos rfl]
      rfl
    rw [hextract _ _ hcomp, hsize, hpayload, decompress_packed hx hkeeps.2]
    refine ⟨fun h => ?_, fun h => if_neg fun hall => h fun _ => hall⟩
    have hcrc : ((packedEntry qsortR compress name contents).withHeaderCrc
        path.bytes).addDataSize.crc32 = braCrc32c (leBytes 8 (compressedData qsortR contents).length)
          (headerCrc (packedAttributes qsortR compress contents) path.bytes) :=
      congrArg (fun payload : Bytes => braCrc32c (leBytes 8 payload.length) _) hpayload
    rw [if_pos (h hkeeps), hcrc, unpackedCrc, if_pos hkeeps, readerCrc]
  · have hpayload : packedPayload qsortR compress contents = contents := if_neg hkeeps
    refine ⟨fun _ => ?_, fun h => absurd (fun hk => absurd hk hkeeps) h⟩
    have hcomp : braAttrComp ((packedEntry qsortR compress name contents).withHeaderCrc
        path.bytes).addDataSize.attributes = braAttrCompStored := by
      change braAttrComp (packedAttributes qsortR compress contents) = _
      rw [packedAttributes, if_neg hkeeps]
      rfl
    have hcopy := braIoFileChunksCopyFile_ioAt (some []) pre contents post
      ((packedEntry qsortR compress name contents).withHeaderCrc path.bytes).addDataSize true
    have hsize : ((packedEntry qsortR compress name contents).withHeaderCrc
        path.bytes).addDataSize.dataSize = contents.length := congrArg List.length hpayload
    have hcrc : ((packedEntry qsortR compress name contents).withHeaderCrc
        path.bytes).addDataSize.crc32 = braCrc32c (leBytes 8 contents.length)
          (headerCrc AttrType.file.bits path.bytes) := by
      change braCrc32c (leBytes 8 (packedPayload qsortR compress contents).length)
        (headerCrc (packedAttributes qsortR compress contents) path.bytes) = _
      rw [hpayload, packedAttributes, if_neg hkeeps]
      rfl
    rw [extractContents, if_pos hcomp, unpackedCrc, if_neg hkeeps, hsize, hpayload, fileCrc, ← hcrc]
    exact hcopy

theorem recoverable_iff : Recoverable qsortR compress path contents ↔
    ChunksAccepted qsortR compress contents ∧
      packedCrc qsortR compress path contents = unpackedCrc qsortR compress path contents := by
  constructor
  · intro h
    refine ⟨fun hkeeps => (h hkeeps).1, ?_⟩
    by_cases hkeeps : KeepsCompressed qsortR compress contents
    · exact (h hkeeps).2
    · rw [packedCrc, unpackedCrc, if_neg hkeeps, if_neg hkeeps]
  · rintro ⟨hchunks, hcrc⟩ hkeeps
    exact ⟨hchunks hkeeps, hcrc⟩

end Contents

/-- Skipping bytes that are there moves the cut behind them. -/
theorem braIoFileSkipData_ioAt (pre buf rest : Bytes) {n : Nat} (hn : buf.length = n)
    (hlt : (pre ++ buf).length < 2 ^ 63) :
    braIoFileSkipData (ioAt pre (buf ++ rest)) n = some (ioAt (pre ++ buf) rest) := by
  rw [List.length_append, hn] at hlt
  rw [braIoFileSkipData_of_lt hlt, ioAt, ioAt, List.append_assoc, List.length_append, hn]

section DecodeFile
variable {σ : Type} {fs : FileSystem σ} {t : σ} {qsortR : QsortR} {compress : Bool}
  {cur : List CStr} {name : CStr} {contents : Bytes} {ctx : IoFileCtx} {bytes rest : Bytes}

/-- The reader gets the entry of a file that the writer started with. -/
theorem readMetaEntry_packed (hname : IsEntryName name) (hsize : contents.length < 2 ^ 64)
    (path : CStr)
    (hf : ctx.f = ioAt bytes (packedFile qsortR compress path name contents ++ rest)) :
    braIoFileCtxReadMetaEntry ctx = some (packedEntry qsortR compress name contents, { ctx with
      f := ioAt (bytes ++ headerImage (packedAttributes qsortR compress contents) name ++
          leBytes 8 (packedPayload qsortR compress contents).length)
        (packedPayload qsortR compress contents ++
          (leBytes 4 (packedCrc qsortR compress path contents).toNat ++ rest)) }) := by
  have htype := packedAttributes_type qsortR compress contents
  have hlt : (packedPayload qsortR compress contents).length < 256 ^ 8 :=
    Nat.lt_of_le_of_lt packedPayload_length_le hsize
  rw [packedFile] at hf
  rw [packedEntry]
  generalize packedAttributes qsortR compress contents = attributes at *
  generalize packedPayload qsortR compress contents = payload at *
  have hheader := braIoFileMetaEntryReadCommonHeader_ioAt hname attributes bytes
    (leBytes 8 payload.length ++ (payload ++
      (leBytes 4 (packedCrc qsortR compress path contents).toNat ++ rest)))
  have hdata := braIoFileRead_ioAt (bytes ++ headerImage attributes name)
    (leBytes 8 payload.length) (payload ++
      (leBytes 4 (packedCrc qsortR compress path contents).toNat ++ rest)) (leBytes_length 8 _)
  have hvalue : leValue (leBytes 8 payload.length) = payload.length := by
    rw [leValue_leBytes, Nat.mod_eq_of_lt hlt]
  simp only [braIoFileCtxReadMetaEntry, hf, List.append_assoc] at hheader hdata ⊢
  simp only [hheader, Option.bind_eq_bind, Option.bind_some, braMetaEntryInit, htype,
    braIoFileMetaEntryReadFileEntry, braMetaEntryFileSet, ne_eq, not_true_eq_false, if_false, hdata,
    hvalue, Option.pure_def, fileEntry]

/-- The path of a file is put together again. -/
theorem reconstructName_packed (hcur : ∀ c ∈ cur, IsEntryName c) (hname : IsEntryName name)
    (hdir : braTreeDirReconstructPath ctx.lastDirNode = joinPath cur) :
    braIoFileCtxReconstructMetaEntryName ctx (packedEntry qsortR compress name contents) =
      some ((joinPath (cur ++ [name])).bytes ++ [0], (joinPath (cur ++ [name])).bytes.length) := by
  have hstored := reconstructName_stored hcur hname hdir 0
  have htype : braAttrType (packedEntry qsortR compress name contents).attributes = .file :=
    packedAttributes_type qsortR compress contents
  rw [← hstored, braIoFileCtxReconstructMetaEntryName, braIoFileCtxReconstructMetaEntryName, htype,
    braAttrType_storedFile]
  rfl

/-- The head of a file. -/
theorem headRead_packedFile (hcur : ∀ c ∈ cur, IsEntryName c) (hname : IsEntryName name)
    (hsize : contents.length < 2 ^ 64) (hmax : (joinPath (cur ++ [name])).bytes.length ≤ 65535)
    (hvalid : braValidateFilename (joinPath (cur ++ [name])).bytes
      (joinPath (cur ++ [name])).bytes.length = true)
    (hf : ctx.f = ioAt bytes
      (packedFile qsortR compress (joinPath (cur ++ [name])) name contents ++ rest))
    (hdir : braTreeDirReconstructPath ctx.lastDirNode = joinPath cur) :
    HeadRead ctx { ctx with
        f := ioAt (bytes ++ headerImage (packedAttributes qsortR compress contents) name ++
            leBytes 8 (packedPayload qsortR compress contents).length)
          (packedPayload qsortR compress contents ++
            (leBytes 4 (packedCrc qsortR compress (joinPath (cur ++ [name])) contents).toNat ++
              rest)) }
      (packedEntry qsortR compress name contents) (joinPath (cur ++ [name])) where
  read := readMetaEntry_packed hname hsize _ hf
  name := reconstructName_packed hcur hname hdir
  check := checkHeader_path (joinPath_length_pos cur hname) hmax hvalid _

/-- **Extracting the record of a file** over any disk: if the file may be written, it is, or
it cannot be got back; if not, the record is skipped. -/
theorem decodeFile_packed (hcur : ∀ c ∈ cur, IsEntryName c) (hname : IsEntryName name)
    (hsize : contents.length < 2 ^ 64) (hmax : (joinPath (cur ++ [name])).bytes.length ≤ 65535)
    (hvalid : braValidateFilename (joinPath (cur ++ [name])).bytes
      (joinPath (cur ++ [name])).bytes.length = true)
    (hf : ctx.f = ioAt bytes
      (packedFile qsortR compress (joinPath (cur ++ [name])) name contents ++ rest))
    (hdir : braTreeDirReconstructPath ctx.lastDirNode = joinPath cur)
    (hoff : ctx.f.data.length < 2 ^ 63) (user : User) :
    braIoFileCtxDecodeAndWriteToDisk fs ctx user t =
      let asked := braFsFileExistsAskOverwrite fs t (joinPath (cur ++ [name])) user false
      let ctx' := { ctx with
        f := ioAt (bytes ++ packedFile qsortR compress (joinPath (cur ++ [name])) name contents)
          rest }
      if asked.1 = true then
        (fs.openWrite t (joinPath (cur ++ [name]))).bind fun t' =>
          if Recoverable qsortR compress (joinPath (cur ++ [name])) contents then
            some (ctx', asked.2, fs.closeWrite t' (joinPath (cur ++ [name])) contents)
          else none
      else some (ctx', asked.2, t) := by
  have hhead := headRead_packedFile hcur hname hsize hmax hvalid hf hdir
  have htype : braAttrType (packedEntry qsortR compress name contents).attributes = .file :=
    packedAttributes_type qsortR compress contents
  have himage : ∀ path, bytes ++ headerImage (packedAttributes qsortR compress contents) name ++
        leBytes 8 (packedPayload qsortR compress contents).length ++
        packedPayload qsortR compress contents ++
        leBytes 4 (packedCrc qsortR compress path contents).toNat =
      bytes ++ packedFile qsortR compress path name contents := fun path => by
    simp only [packedFile, List.append_assoc]
  rw [hhead.decode_file htype]
  generalize joinPath (cur ++ [name]) = path at *
  dsimp only
  split
  · refine congrArg (Option.bind _) (funext fun t' => ?_)
    have hextract := @extractContents_packed qsortR compress path name contents hsize
      (bytes ++ headerImage (packedAttributes qsortR compress contents) name ++
        leBytes 8 (packedPayload qsortR compress contents).length)
      (leBytes 4 (packedCrc qsortR compress path contents).toNat ++ rest)
    by_cases hchunks : ChunksAccepted qsortR compress contents
    · rw [hextract.1 hchunks, Option.bind_some, finishEntry_record rfl, himage]
      by_cases hcrc : packedCrc qsortR compress path contents =
          unpackedCrc qsortR compress path contents
      · rw [if_neg fun h => h.2 hcrc, if_pos (recoverable_iff.mpr ⟨hchunks, hcrc⟩)]
        have hdata : (some (ioAt contents [])).elim [] IoFile.data = contents :=
          List.append_nil contents
        rw [Option.map_some, hdata]
      · rw [if_pos ⟨rfl, hcrc⟩, if_neg fun h => hcrc (recoverable_iff.mp h).2]
        rfl
    · rw [hextract.2 hchunks, Option.bind_none, if_neg]
      exact fun h => hchunks (recoverable_iff.mp h).1
  · -- the recorded size is that of the payload, and the checksum follows it
    rw [hf, ioAt_data, ← List.append_assoc, List.length_append, ← himage] at hoff
    rw [← himage]
    generalize bytes ++ headerImage (packedAttributes qsortR compress contents) name ++
      leBytes 8 (packedPayload qsortR compress contents).length = pre at *
    have hskip := braIoFileSkipData_ioAt pre (packedPayload qsortR compress contents ++
      leBytes 4 (packedCrc qsortR compress path contents).toNat) rest
        (n := (packedPayload qsortR compress contents).length + 4) (by simp)
        (by rw [← List.append_assoc]; omega)
    rw [List.append_assoc, ← List.append_assoc pre] at hskip
    exact congrArg (Option.map _) hskip

/-- **Listing and testing the record of a file**: testing finds out whether the file can be got
back. -/
theorem printFile_packed (hcur : ∀ c ∈ cur, IsEntryName c) (hname : IsEntryName name)
    (hsize : contents.length < 2 ^ 64) (hmax : (joinPath (cur ++ [name])).bytes.length ≤ 65535)
    (hvalid : braValidateFilename (joinPath (cur ++ [name])).bytes
      (joinPath (cur ++ [name])).bytes.length = true)
    (hf : ctx.f = ioAt bytes
      (packedFile qsortR compress (joinPath (cur ++ [name])) name contents ++ rest))
    (hdir : braTreeDirReconstructPath ctx.lastDirNode = joinPath cur) :
    (Recoverable qsortR compress (joinPath (cur ++ [name])) contents → ∀ testMode,
      braIoFileCtxPrintMetaEntry ctx testMode = some { ctx with
        f := ioAt (bytes ++ packedFile qsortR compress (joinPath (cur ++ [name])) name contents)
          rest }) ∧
    (¬ Recoverable qsortR compress (joinPath (cur ++ [name])) contents →
      braIoFileCtxPrintMetaEntry ctx true = none) := by
  have hhead := headRead_packedFile hcur hname hsize hmax hvalid hf hdir
  have htype : braAttrType (packedEntry qsortR compress name contents).attributes = .file :=
    packedAttributes_type qsortR compress contents
  have hprint := hhead.print_file htype
  generalize joinPath (cur ++ [name]) = path at *
  generalize hpre : bytes ++ headerImage (packedAttributes qsortR compress contents) name ++
    leBytes 8 (packedPayload qsortR compress contents).length = pre at *
  have himage : pre ++ packedPayload qsortR compress contents ++
      leBytes 4 (packedCrc qsortR compress path contents).toNat =
        bytes ++ packedFile qsortR compress path name contents := by
    simp only [packedFile, ← hpre, List.append_assoc]
  have hextract := @extractContents_packed qsortR compress path name contents hsize pre
    (leBytes 4 (packedCrc qsortR compress path contents).toNat ++ rest)
  have htest := hprint true
  dsimp only at htest
  rw [if_pos rfl, braIoFileChunksReadFile_eq ⟨[], 0⟩] at htest
  constructor
  · intro hrecoverable
    obtain ⟨hchunks, hcrc⟩ := recoverable_iff.mp hrecoverable
    have hcontents := hextract.1 hchunks
    intro testMode
    cases testMode with
    | true =>
      rw [htest, hcontents, Option.map_some, Option.bind_some, finishEntry_record rfl, himage,
        if_neg fun h => h.2 hcrc]
    | false =>
      have hpos : (ioAt pre (packedPayload qsortR compress contents ++
          (leBytes 4 (packedCrc qsortR compress path contents).toNat ++ rest))).pos ≤
            (ioAt pre (packedPayload qsortR compress contents ++
          (leBytes 4 (packedCrc qsortR compress path contents).toNat ++ rest))).data.length :=
        (List.prefix_append _ _).length_le
      obtain ⟨me', hread, -⟩ := braIoFileChunksReadFile_agree hpos hcontents false
        (packedEntry qsortR compress name contents).crc32
      refine (hprint false).trans ((congrArg (Option.bind · _) hread).trans ?_)
      rw [Option.bind_some, finishEntry_record rfl, himage, if_neg fun h => by cases h.1]
  · intro hrecoverable
    rw [htest]
    by_cases hchunks : ChunksAccepted qsortR compress contents
    · rw [hextract.1 hchunks, Option.map_some, Option.bind_some, finishEntry_record rfl,
        if_pos ⟨rfl, fun hcrc => hrecoverable (recoverable_iff.mpr ⟨hchunks, hcrc⟩)⟩]
    · rw [hextract.2 hchunks]
      rfl

end DecodeFile

/-! ## Reading a directory -/

section Dir
variable {σ : Type} {fs : FileSystem σ} {path name : CStr} {ctx : IoFileCtx} {bytes rest : Bytes}
  {p : TreeNode} {count : Nat} {tree : TreeDir}

/-- The head of a directory, behind which its checksum is the last field. -/
theorem headRead_dir (hname : IsEntryName name) (hpos : 0 < path.bytes.length)
    (hmax : path.bytes.length ≤ 65535)
    (hvalid : braValidateFilename path.bytes path.bytes.length = true)
    (hf : ctx.f = ioAt bytes (dirImage path name p.index ++ rest)) (hindex : p.index < 2 ^ 32)
    (hinsert : braTreeDirInsertAtParent ctx.tree p.index name = some (.dir count name p, tree))
    (hpath : braTreeDirReconstructPath (.dir count name p) = path) :
    ∃ head me, (braAttrType me.attributes = .dir ∨ braAttrType me.attributes = .subdir) ∧
      dirImage path name p.index =
        head ++ leBytes 4 (me.withDirCrc path.bytes).crc32.toNat ∧
      HeadRead ctx { ctx with
        f := ioAt (bytes ++ head) (leBytes 4 (me.withDirCrc path.bytes).crc32.toNat ++ rest)
        tree
        lastDirNode := .dir count name p } me path := by
  have hcheck := fun me => checkHeader_path hpos hmax hvalid me
  rw [dirImage] at hf ⊢
  by_cases hzero : p.index = 0
  · rw [if_pos hzero] at hf ⊢
    have htype := braAttrType_newDir .dir name
    refine ⟨headerImage AttrType.dir.bits name, newDir .dir name, .inl htype, ?_, ?_⟩
    · rw [withDirCrc_dir htype]
      rfl
    · refine ⟨?_, ?_, hcheck _⟩
      · rw [withDirCrc_dir htype]
        exact readMetaEntry_rootDir hname hf (hzero ▸ hinsert)
      · simp only [braIoFileCtxReconstructMetaEntryName, htype, hpath]
  · rw [if_neg hzero] at hf ⊢
    have htype : braAttrType { newDir .subdir name with
        entryData := .subdir p.index }.attributes = .subdir := braAttrType_newDir .subdir name
    refine ⟨headerImage AttrType.subdir.bits name ++ leBytes 4 p.index,
      { newDir .subdir name with entryData := .subdir p.index }, .inr htype, ?_, ?_⟩
    · rw [withDirCrc_subdir htype]
      rfl
    · refine ⟨?_, ?_, hcheck _⟩
      · rw [withDirCrc_subdir htype, ← List.append_assoc]
        exact readMetaEntry_subdir hname hindex hf hinsert
      · simp only [braIoFileCtxReconstructMetaEntryName, htype, hpath]

/-- **The record of a directory** is taken from the archive in all three ways. -/
theorem readDir_packed (hname : IsEntryName name) (hpos : 0 < path.bytes.length)
    (hmax : path.bytes.length ≤ 65535)
    (hvalid : braValidateFilename path.bytes path.bytes.length = true)
    (hf : ctx.f = ioAt bytes (dirImage path name p.index ++ rest)) (hindex : p.index < 2 ^ 32)
    (hinsert : braTreeDirInsertAtParent ctx.tree p.index name = some (.dir count name p, tree))
    (hpath : braTreeDirReconstructPath (.dir count name p) = path) :
    let ctx' := { ctx with
      f := ioAt (bytes ++ dirImage path name p.index) rest
      tree
      lastDirNode := .dir count name p }
    (∀ user t, braIoFileCtxDecodeAndWriteToDisk fs ctx user t =
      (extractDir fs t path).map fun t' => (ctx', user, t')) ∧
    ∀ testMode, braIoFileCtxPrintMetaEntry ctx testMode = some ctx' := by
  obtain ⟨head, me, htype, himage, hhead⟩ :=
    headRead_dir hname hpos hmax hvalid hf hindex hinsert hpath
  refine ⟨fun user t => ?_, fun testMode => ?_⟩
  · rw [hhead.decode_dir htype, himage, ← List.append_assoc, Option.map_eq_bind]
    refine congrArg (Option.bind _) (funext fun t' => ?_)
    rw [finishEntry_record rfl, if_neg fun h => h.2 rfl]
    rfl
  · rw [hhead.print_dir htype, himage, ← List.append_assoc, finishEntry_record rfl]
    cases testMode with
    | true => exact if_neg fun h => h.2 rfl
    | false => exact if_neg fun h => absurd h.1 Bool.false_ne_true

end Dir

end BrArchive
