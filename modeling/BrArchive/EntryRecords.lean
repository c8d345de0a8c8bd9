import BrArchive.ChunkLoops
import BrArchive.EntryPath

/-! # The records of an archive

What the writer appends to an archive for one entry, and what the reader makes of it.  The
two go by the same directory tree and current directory; the reader takes the record from
any archive that goes on with it.
-/
namespace BrArchive

/-! ## The fields of a record -/

/-- Attributes, size of the name and name. -/
def headerImage (attributes : UInt8) (name : CStr) : Bytes :=
  [attributes, UInt8.ofNat name.bytes.length] ++ name.bytes

/-- A string that can be the name of an entry. -/
structure IsEntryName (c : CStr) : Prop extends IsComponent c where
  length_le : c.bytes.length ≤ 255

instance (c : CStr) : Decidable (IsEntryName c) :=
  decidable_of_iff (c.bytes ≠ [] ∧ braDirDelim ∉ c.bytes ∧ c.bytes.length ≤ 255)
    ⟨fun ⟨h₁, h₂, h₃⟩ => ⟨⟨h₁, h₂⟩, h₃⟩, fun ⟨⟨h₁, h₂⟩, h₃⟩ => ⟨h₁, h₂, h₃⟩⟩

theorem IsEntryName.toNat_length {c : CStr} (h : IsEntryName c) :
    (UInt8.ofNat c.bytes.length).toNat = c.bytes.length := by
  have hle := h.length_le
  rw [UInt8.toNat_ofNat']
  exact Nat.mod_eq_of_lt (by omega)

theorem IsEntryName.length_pos {c : CStr} (h : IsEntryName c) : 0 < c.bytes.length :=
  List.length_pos_of_ne_nil h.ne_nil

/-- A new entry with the given name. -/
theorem braMetaEntryInit_name (attributes : UInt8) (name : CStr) :
    (braMetaEntryInit attributes name.bytes (UInt8.ofNat name.bytes.length)).name = name.bytes :=
  cString_eq_self name.nul_free

/-- Writing the header appends its image. -/
theorem braIoFileMetaEntryWriteCommonHeader_ioAt {name : CStr} (hname : IsEntryName name)
    (pre : Bytes) {me : MetaEntry} (hme : me.name = name.bytes)
    (hsize : me.nameSize = UInt8.ofNat name.bytes.length) :
    braIoFileMetaEntryWriteCommonHeader (ioAt pre []) me =
      ioAt (pre ++ headerImage me.attributes name) [] := by
  have htake : (me.name ++ [0]).take me.nameSize.toNat = name.bytes := by
    rw [hsize, hname.toNat_length, hme, List.take_left]
  rw [braIoFileMetaEntryWriteCommonHeader, htake, hsize]
  simp only [braIoFileWrite_ioAt_nil, headerImage, List.append_assoc, List.cons_append,
    List.nil_append]

/-- Reading a header: attributes, the size of the name, and as many bytes. -/
theorem braIoFileMetaEntryReadCommonHeader_bytes {buf : Bytes} (hpos : 0 < buf.length)
    (hle : buf.length ≤ 255) (attributes : UInt8) (pre rest : Bytes) :
    braIoFileMetaEntryReadCommonHeader
        (ioAt pre ([attributes, UInt8.ofNat buf.length] ++ buf ++ rest)) =
      some (braMetaEntryInit attributes buf (UInt8.ofNat buf.length),
        ioAt (pre ++ ([attributes, UInt8.ofNat buf.length] ++ buf)) rest) := by
  have hattr := braIoFileRead_ioAt pre [attributes] (UInt8.ofNat buf.length :: buf ++ rest) rfl
  have hsize := braIoFileRead_ioAt (pre ++ [attributes]) [UInt8.ofNat buf.length] (buf ++ rest) rfl
  have hbuf := braIoFileRead_ioAt (pre ++ [attributes] ++ [UInt8.ofNat buf.length]) buf rest rfl
  have htoNat : (UInt8.ofNat buf.length).toNat = buf.length := by
    rw [UInt8.toNat_ofNat']
    exact Nat.mod_eq_of_lt (by omega)
  have hvalue : leValue [UInt8.ofNat buf.length] = buf.length := by
    rw [leValue, leValue, htoNat, Nat.mul_zero, Nat.add_zero]
  have hvalue' : leValue [attributes] = attributes.toNat := rfl
  simp only [List.cons_append, List.nil_append, List.append_assoc, List.length_cons,
    List.length_nil] at hattr hsize hbuf
  simp only [braIoFileMetaEntryReadCommonHeader, List.cons_append, List.nil_append,
    hattr, Option.bind_eq_bind, Option.bind_some, hsize, hvalue, if_neg (Nat.ne_of_gt hpos),
    hbuf, hvalue', UInt8.ofNat_toNat, Option.pure_def]

/-- Reading the header gives the entry the writer started with. -/
theorem braIoFileMetaEntryReadCommonHeader_ioAt {name : CStr} (hname : IsEntryName name)
    (attributes : UInt8) (pre rest : Bytes) :
    braIoFileMetaEntryReadCommonHeader (ioAt pre (headerImage attributes name ++ rest)) =
      some (braMetaEntryInit attributes name.bytes (UInt8.ofNat name.bytes.length),
        ioAt (pre ++ headerImage attributes name) rest) :=
  braIoFileMetaEntryReadCommonHeader_bytes hname.length_pos hname.length_le attributes pre rest

/-- The CRC32 at the end of a record that has been computed right. -/
theorem finishEntry_ioAt {ctx : IoFileCtx} {me : MetaEntry} {pre rest : Bytes}
    (hf : ctx.f = ioAt pre (leBytes 4 me.crc32.toNat ++ rest)) :
    finishEntry ctx me true =
      some { ctx with f := ioAt (pre ++ leBytes 4 me.crc32.toNat) rest } := by
  have hread := braIoFileRead_ioAt pre (leBytes 4 me.crc32.toNat) rest (leBytes_length 4 _)
  have hvalue : BitVec.ofNat 32 (leValue (leBytes 4 me.crc32.toNat)) = me.crc32 := by
    have hlt : me.crc32.toNat < 256 ^ 4 := me.crc32.isLt
    rw [leValue_leBytes, Nat.mod_eq_of_lt hlt, BitVec.ofNat_toNat, BitVec.setWidth_eq]
  refine finishEntry_eq_some_iff.mpr ⟨me.crc32, _, ?_, fun _ => rfl, rfl⟩
  rw [readCrc32, hf, hread]
  simp only [Option.bind_eq_bind, Option.bind_some, hvalue, Option.pure_def]

theorem joinPath_length_pos (comps : List CStr) {name : CStr} (hname : IsEntryName name) :
    0 < (joinPath (comps ++ [name])).bytes.length := by
  have hpos := hname.length_pos
  rw [joinPath_append_singleton, List.length_append]
  omega

/-- The checksum of the header of an entry with a path that is not too long. -/
theorem braComputeHeaderCrc32_eq {path : CStr} (hpos : 0 < path.bytes.length)
    (hmax : path.bytes.length ≤ 65535) (me : MetaEntry) :
    braComputeHeaderCrc32 path.bytes.length (path.bytes ++ [0]) me =
      some (me.withHeaderCrc path.bytes) := by
  rw [braComputeHeaderCrc32, if_neg (by omega), if_neg (by simp), List.take_left]
  rfl

/-! ## Files -/

/-- The checksum of a stored file. -/
def fileCrc (path : CStr) (contents : Bytes) : BitVec 32 :=
  braCrc32c contents (braCrc32c (leBytes 8 contents.length)
    (headerCrc AttrType.file.bits path.bytes))

/-- The record of a stored file. -/
def fileImage (path name : CStr) (contents : Bytes) : Bytes :=
  headerImage AttrType.file.bits name ++ leBytes 8 contents.length ++ contents ++
    leBytes 4 (fileCrc path contents).toNat

/-- A stored file before its contents are written or read. -/
def storedFile (name : CStr) (dataSize : Nat) : MetaEntry :=
  { braMetaEntryInit AttrType.file.bits name.bytes (UInt8.ofNat name.bytes.length) with
    entryData := .file dataSize }

theorem braAttrType_storedFile (name : CStr) (dataSize : Nat) :
    braAttrType (storedFile name dataSize).attributes = .file := by
  change braAttrType AttrType.file.bits = .file
  rfl

section EncodeFile
variable {σ : Type} {fs : FileSystem σ} {used : CStr → Prop} {view : σ → DiskView} {s : σ}
  {cur : List CStr} {name : CStr} {contents : Bytes}

/-- The byte behind the current directory is a delimiter, unless that directory is empty. -/
theorem charAt_joinPath (cur : List CStr) (hname : IsEntryName name) :
    (charAt (joinPath (cur ++ [name])).bytes (joinPath cur).bytes.length = braDirDelim ∧
        (delimited cur).length = (joinPath cur).bytes.length + 1) ∨
      (charAt (joinPath (cur ++ [name])).bytes (joinPath cur).bytes.length ≠ braDirDelim ∧
        (joinPath cur).bytes.length = 0 ∧ (delimited cur).length = 0) := by
  rw [joinPath_append_singleton, charAt]
  by_cases hcur : cur = []
  · subst hcur
    obtain ⟨b, rest, hbytes⟩ := List.exists_cons_of_ne_nil hname.ne_nil
    refine .inr ⟨?_, rfl, rfl⟩
    rw [hbytes]
    have hdelim := hname.delim_free
    rw [hbytes] at hdelim
    exact fun hb => hdelim (hb ▸ List.mem_cons_self)
  · refine .inl ⟨?_, ?_⟩
    · rw [delimited_eq hcur, List.append_assoc]
      simp
    · rw [delimited_eq hcur, List.length_append, List.length_singleton]

/-- The writer finds the name of a file behind its current directory. -/
theorem writeMetaEntryFile_eq (hfs : fs.Works used view) (qsortR : QsortR) (hname : IsEntryName name)
    (hnode : view s (joinPath (cur ++ [name])) = some (.file contents)) {ctx : IoFileCtx}
    (hdir : ctx.lastDir = joinPath cur) (hsize : ctx.lastDirSize = (joinPath cur).bytes.length) :
    braIoFileCtxWriteMetaEntryFile fs qsortR s ctx AttrType.file.bits (joinPath (cur ++ [name])) =
      (braIoFileMetaEntryFlushEntryFile fs qsortR s ctx.f (storedFile name contents.length)
        (joinPath (cur ++ [name]))).map fun r => (r.2, { ctx with f := r.1 }) := by
  have hle := hname.length_le
  have hfileSize := hfs.fileSize s _ _ hnode
  have hchar := charAt_joinPath cur hname
  have hbytes := joinPath_append_singleton cur name
  have htake : (joinPath (cur ++ [name])).bytes.take (joinPath cur).bytes.length =
      (joinPath cur).bytes := by
    by_cases hcur : cur = []
    · subst hcur
      rfl
    · rw [hbytes, delimited_eq hcur, List.append_assoc, List.take_left]
  generalize joinPath (cur ++ [name]) = path at *
  -- the delimiter behind the directory is skipped when there is one
  have hl : (if charAt path.bytes (joinPath cur).bytes.length = braDirDelim then
      (joinPath cur).bytes.length + 1 else (joinPath cur).bytes.length) = (delimited cur).length := by
    rcases hchar with ⟨h, hlen⟩ | ⟨h, hzero, hlen⟩
    · rw [if_pos h, hlen]
    · rw [if_neg h, hzero, hlen]
  have hlen : path.bytes.length = (delimited cur).length + name.bytes.length := by
    rw [hbytes, List.length_append]
  have hdrop : path.bytes.drop (delimited cur).length = name.bytes := by rw [hbytes, List.drop_left]
  have hsub : path.bytes.length - (delimited cur).length = name.bytes.length := by omega
  have htype : braAttrType AttrType.file.bits = .file := rfl
  -- neither of the two early returns is taken
  have hfit : ¬ (joinPath cur).bytes.length > path.bytes.length := by
    rcases hchar with ⟨-, h⟩ | ⟨-, h, -⟩ <;> omega
  have hdelim : ¬ (charAt path.bytes (joinPath cur).bytes.length ≠ braDirDelim ∧
      (joinPath cur).bytes.length > 0) := by
    rcases hchar with ⟨h, -⟩ | ⟨-, h, -⟩
    · exact fun hne => hne.1 h
    · exact fun hne => absurd hne.2 (by omega)
  have hset : braMetaEntryFileSet (braMetaEntryInit AttrType.file.bits name.bytes
      (UInt8.ofNat name.bytes.length)) contents.length = some (storedFile name contents.length) :=
    if_neg (not_not_intro htype)
  rw [braIoFileCtxWriteMetaEntryFile]
  simp only [hdir, hsize, htake, hl, hdrop, hsub, hfileSize, htype, ne_eq, not_true_eq_false,
    if_neg hfit, if_neg hdelim, if_neg (Nat.not_lt.mpr hle), List.take_length, and_false, if_false,
    Option.bind_eq_bind, Option.bind_some, hset]
  cases braIoFileMetaEntryFlushEntryFile fs qsortR s ctx.f (storedFile name contents.length) path <;>
    rfl

/-- A stored file is flushed in one call: its header, its size and its contents. -/
theorem flushEntryFile_ioAt (qsortR : QsortR) (hname : IsEntryName name) {path : CStr}
    (hpos : 0 < path.bytes.length) (hmax : path.bytes.length ≤ 65535)
    (hopen : fs.openRead s path = some contents) {bytes : Bytes} (hbytes : 0 < bytes.length) :
    ∃ me, braIoFileMetaEntryFlushEntryFile fs qsortR s (ioAt bytes [])
        (storedFile name contents.length) path =
      some (ioAt (bytes ++ headerImage AttrType.file.bits name ++ leBytes 8 contents.length ++
        contents) [], me) ∧ me.crc32 = fileCrc path contents := by
  have hheader := braComputeHeaderCrc32_eq hpos hmax (storedFile name contents.length)
  have hwrite : braIoFileMetaEntryWriteCommonHeader (ioAt bytes [])
      ((storedFile name contents.length).withHeaderCrc path.bytes) =
        ioAt (bytes ++ headerImage AttrType.file.bits name) [] :=
    braIoFileMetaEntryWriteCommonHeader_ioAt hname bytes
      (braMetaEntryInit_name AttrType.file.bits name) rfl
  -- the copy starts from the CRC of the header, with nothing but the header written
  have hcopy := braIoFileChunksCopyFile_ioAt
    (some (bytes ++ headerImage AttrType.file.bits name ++ leBytes 8 contents.length)) [] contents
    [] ((storedFile name contents.length).withHeaderCrc path.bytes).addDataSize true
  have htype := braAttrType_storedFile name contents.length
  have hcomp : braAttrComp ((storedFile name contents.length).withHeaderCrc path.bytes).attributes =
      braAttrCompStored := by
    change braAttrComp AttrType.file.bits = braAttrCompStored
    rfl
  have hsize : braIoFileMetaEntryWriteFileEntry
      (ioAt (bytes ++ headerImage AttrType.file.bits name) [])
      ((storedFile name contents.length).withHeaderCrc path.bytes).addDataSize =
        some (ioAt (bytes ++ headerImage AttrType.file.bits name ++ leBytes 8 contents.length) []) :=
    (if_neg (not_not_intro htype)).trans (congrArg some (braIoFileWrite_ioAt_nil _ _))
  rw [List.append_nil] at hcopy
  refine ⟨{ ((storedFile name contents.length).withHeaderCrc path.bytes).addDataSize with
    crc32 := fileCrc path contents }, ?_, rfl⟩
  rw [braIoFileMetaEntryFlushEntryFile, flushEntryFile, if_neg (not_not_intro htype), hheader]
  simp only [Option.bind_eq_bind, Option.bind_some, braIoFileTell, ioAt_pos,
    if_neg (Nat.not_le.mpr hbytes), hwrite, hopen, if_pos hcomp, hsize]
  exact congrArg (Option.bind · _) hcopy

/-- The writer appends the record of a file. -/
theorem encodeFile_ioAt (hfs : fs.Works used view) (qsortR : QsortR) (hname : IsEntryName name)
    (hnode : view s (joinPath (cur ++ [name])) = some (.file contents))
    (hmax : (joinPath (cur ++ [name])).bytes.length ≤ 65535) {ctx : IoFileCtx} {bytes : Bytes}
    (hf : ctx.f = ioAt bytes []) (hbytes : 0 < bytes.length)
    (hdir : ctx.lastDir = joinPath cur) (hsize : ctx.lastDirSize = (joinPath cur).bytes.length) :
    braIoFileCtxEncodeAndWriteToDisk fs qsortR s ctx (joinPath (cur ++ [name])) false =
      some { ctx with
        f := ioAt (bytes ++ fileImage (joinPath (cur ++ [name])) name contents) [] } := by
  have hpos := joinPath_length_pos cur hname
  have hwrite := writeMetaEntryFile_eq hfs qsortR hname hnode hdir hsize
  have hattr := hfs.fileAttributes_file s _ _ hnode
  obtain ⟨me, hflush, hcrc⟩ :=
    flushEntryFile_ioAt qsortR hname hpos hmax (hfs.openRead s _ _ hnode) hbytes
  have hcomp : braAttrSetComp AttrType.file.bits braAttrCompStored = AttrType.file.bits := rfl
  have htype : braAttrType AttrType.file.bits = .file := rfl
  simp only [braIoFileCtxEncodeAndWriteToDisk, hattr, Option.bind_eq_bind, Option.bind_some,
    Bool.false_and, Bool.false_eq_true, if_false, hcomp, braIoFileCtxWriteMetaEntry, htype, hwrite,
    hf, hflush, Option.map_some, Option.pure_def, braIoFileWrite_ioAt_nil, hcrc, fileImage,
    List.append_assoc]

end EncodeFile

section DecodeFile
variable {σ : Type} {fs : FileSystem σ} {used : CStr → Prop} {view : σ → DiskView} {t : σ}
  {cur : List CStr} {name : CStr} {contents : Bytes} {ctx : IoFileCtx} {bytes rest : Bytes}

/-- The reader gets the entry of a file that the writer started with. -/
theorem readMetaEntry_file (hname : IsEntryName name) (hsize : contents.length < 2 ^ 64)
    (path : CStr) (hf : ctx.f = ioAt bytes (fileImage path name contents ++ rest)) :
    braIoFileCtxReadMetaEntry ctx = some (storedFile name contents.length,
      { ctx with f := ioAt (bytes ++ headerImage AttrType.file.bits name ++
          leBytes 8 contents.length) (contents ++ (leBytes 4 (fileCrc path contents).toNat ++ rest)) }) := by
  have hheader := braIoFileMetaEntryReadCommonHeader_ioAt hname AttrType.file.bits bytes
    (leBytes 8 contents.length ++ (contents ++ (leBytes 4 (fileCrc path contents).toNat ++ rest)))
  have hdata := braIoFileRead_ioAt (bytes ++ headerImage AttrType.file.bits name)
    (leBytes 8 contents.length) (contents ++ (leBytes 4 (fileCrc path contents).toNat ++ rest))
    (leBytes_length 8 _)
  have hvalue : leValue (leBytes 8 contents.length) = contents.length := by
    rw [leValue_leBytes, Nat.mod_eq_of_lt (show contents.length < 256 ^ 8 from hsize)]
  have htype : braAttrType AttrType.file.bits = .file := rfl
  simp only [braIoFileCtxReadMetaEntry, hf, fileImage, List.append_assoc] at hheader hdata ⊢
  simp only [hheader, Option.bind_eq_bind, Option.bind_some, braMetaEntryInit, htype,
    braIoFileMetaEntryReadFileEntry, braMetaEntryFileSet, ne_eq, not_true_eq_false, if_false, hdata,
    hvalue, Option.pure_def, storedFile]

/-- The path of a file is put together again. -/
theorem reconstructName_stored (hcur : ∀ c ∈ cur, IsEntryName c) (hname : IsEntryName name)
    (hdir : braTreeDirReconstructPath ctx.lastDirNode = joinPath cur) (dataSize : Nat) :
    braIoFileCtxReconstructMetaEntryName ctx (storedFile name dataSize) =
      some ((joinPath (cur ++ [name])).bytes ++ [0], (joinPath (cur ++ [name])).bytes.length) := by
  have hsize : (storedFile name dataSize).nameSize.toNat = name.bytes.length := hname.toNat_length
  have hbytes : (storedFile name dataSize).name = name.bytes :=
    braMetaEntryInit_name AttrType.file.bits name
  simp only [braIoFileCtxReconstructMetaEntryName, braAttrType_storedFile, hdir, hsize, hbytes,
    joinPath_append_singleton, List.take_left]
  rcases List.eq_nil_or_concat' cur with rfl | ⟨init, c, rfl⟩
  · rfl
  · have hpos := joinPath_length_pos init (hcur c (by simp))
    rw [if_pos hpos, if_neg (by omega), delimited_eq (by simp), List.length_append,
      List.length_append, List.length_singleton, Nat.add_right_comm]

/-- The checks on a path that the writer has put into an entry. -/
theorem checkHeader_path {path : CStr} (hpos : 0 < path.bytes.length)
    (hmax : path.bytes.length ≤ 65535)
    (hvalid : braValidateFilename path.bytes path.bytes.length = true) (me : MetaEntry) :
    checkHeader (path.bytes ++ [0]) path.bytes.length me = some (me.withHeaderCrc path.bytes) := by
  refine checkHeader_eq_some_iff.mpr ⟨?_, hpos, hmax, by simp, ?_⟩
  · rwa [cString_append_nul path.nul_free]
  · rw [List.take_left]
    rfl

/-- The contents of a file and its checksum are skipped. -/
theorem skipData_storedFile (path : CStr) {pre contents : Bytes} (rest : Bytes)
    (hlt : pre.length + (contents.length + 4) < 2 ^ 63) :
    braIoFileSkipData (ioAt pre (contents ++ (leBytes 4 (fileCrc path contents).toNat ++ rest)))
        (contents.length + 4) =
      some (ioAt (pre ++ contents ++ leBytes 4 (fileCrc path contents).toNat) rest) := by
  rw [braIoFileSkipData_of_lt hlt]
  simp only [ioAt, List.append_assoc, List.length_append, leBytes_length]

/-- The contents of a stored file are copied. -/
theorem extractContents_storedFile (path name : CStr) (pre contents rest : Bytes) :
    extractContents ⟨[], 0⟩ (ioAt pre (contents ++ rest))
        ((storedFile name contents.length).withHeaderCrc path.bytes).addDataSize =
      some (some (ioAt contents []), ioAt (pre ++ contents) rest,
        { ((storedFile name contents.length).withHeaderCrc path.bytes).addDataSize with
          crc32 := fileCrc path contents }) := by
  have hcomp : braAttrComp AttrType.file.bits = braAttrCompStored := rfl
  rw [extractContents]
  exact (if_pos hcomp).trans (braIoFileChunksCopyFile_ioAt (some []) pre contents rest
    ((storedFile name contents.length).withHeaderCrc path.bytes).addDataSize true)

/-- The reader takes the record of a file from the archive, and the file is there then,
whether it was extracted or left as it was. -/
theorem decodeFile_ioAt (hfs : fs.Works used view) (hused : used (joinPath (cur ++ [name])))
    (hcur : ∀ c ∈ cur, IsEntryName c)
    (hname : IsEntryName name) (hsize : contents.length < 2 ^ 64)
    (hmax : (joinPath (cur ++ [name])).bytes.length ≤ 65535)
    (hvalid : braValidateFilename (joinPath (cur ++ [name])).bytes
      (joinPath (cur ++ [name])).bytes.length = true)
    (hf : ctx.f = ioAt bytes (fileImage (joinPath (cur ++ [name])) name contents ++ rest))
    (hoff : view t (joinPath (cur ++ [name])) = none ∨ ctx.f.data.length < 2 ^ 63)
    (hdir : braTreeDirReconstructPath ctx.lastDirNode = joinPath cur)
    (hthere : DirThere (view t) (joinPath (cur ++ [name])))
    (hview : ∀ node, view t (joinPath (cur ++ [name])) = some node → node = .file contents)
    (user : User) :
    ∃ user' t', braIoFileCtxDecodeAndWriteToDisk fs ctx user t =
        some ({ ctx with
          f := ioAt (bytes ++ fileImage (joinPath (cur ++ [name])) name contents) rest },
          user', t') ∧
      view t' = Function.update (view t) (joinPath (cur ++ [name])) (some (.file contents)) := by
  have hread := readMetaEntry_file hname hsize _ hf
  have hpath := reconstructName_stored hcur hname hdir contents.length
  have hcheck := checkHeader_path (joinPath_length_pos cur hname) hmax hvalid
    (storedFile name contents.length)
  have htype := braAttrType_storedFile name contents.length
  generalize joinPath (cur ++ [name]) = path at *
  have hfn : CStr.ofBuffer (path.bytes ++ [0]) = path := CStr.ofBuffer_append_nul path []
  have himage : bytes ++ headerImage AttrType.file.bits name ++ leBytes 8 contents.length ++
      contents ++ leBytes 4 (fileCrc path contents).toNat = bytes ++ fileImage path name contents := by
    simp only [fileImage, List.append_assoc]
  generalize hpre : bytes ++ headerImage AttrType.file.bits name ++ leBytes 8 contents.length = pre at *
  have hpath' : braIoFileCtxReconstructMetaEntryName
      { ctx with f := ioAt pre (contents ++ (leBytes 4 (fileCrc path contents).toNat ++ rest)) }
      (storedFile name contents.length) = some (path.bytes ++ [0], path.bytes.length) := hpath
  simp only [braIoFileCtxDecodeAndWriteToDisk, hread, hpath', hfn, hcheck, Option.bind_eq_bind,
    Option.bind_some]
  have htype' : braAttrType ((storedFile name contents.length).withHeaderCrc path.bytes).attributes =
    .file := htype
  simp only [htype']
  cases hask : braFsFileExistsAskOverwrite fs t path user false with
  | mk overwrite user' =>
    cases overwrite with
    | false =>
      -- the file is there already, and it is skipped
      obtain ⟨c, hc⟩ := hfs.fileExists t path hused (fileExists_of_declined (by rw [hask]))
      obtain rfl : c = contents := DiskNode.file.inj (hview _ hc)
      have hlt : pre.length + (c.length + 4) < 2 ^ 63 := by
        have hlen := congrArg (fun f => f.data.length) hf
        have hoff := hoff.resolve_left (by rw [hc]; exact Option.some_ne_none _)
        simp only [ioAt_data, ← List.append_assoc, ← himage, List.length_append,
          leBytes_length] at hlen
        omega
      have hskip := skipData_storedFile path rest hlt
      rw [himage] at hskip
      refine ⟨user', t, congrArg (Option.bind · _) hskip, ?_⟩
      rw [← hc, Function.update_eq_self]
    | true =>
      obtain ⟨t₁, hopen, hview₁⟩ := hfs.openWrite t path hused hthere (fun h => by cases hview _ h)
      have hextract := extractContents_storedFile path name pre contents
        (leBytes 4 (fileCrc path contents).toNat ++ rest)
      have hfinish : finishEntry
          { ctx with
            f := ioAt (pre ++ contents) (leBytes 4 (fileCrc path contents).toNat ++ rest) }
          { ((storedFile name contents.length).withHeaderCrc path.bytes).addDataSize with
            crc32 := fileCrc path contents } true =
            some { ctx with f := ioAt (bytes ++ fileImage path name contents) rest } := by
        rw [← himage]
        exact finishEntry_ioAt rfl
      have hdata : (some (ioAt contents [])).elim [] IoFile.data = contents :=
        List.append_nil contents
      refine ⟨user', fs.closeWrite t₁ path contents, ?_, hfs.closeWrite_update hused hview₁ contents⟩
      simp only [Bool.not_true, Bool.false_eq_true, if_false, hopen, Option.bind_some, hextract,
        hfinish, hdata, Option.pure_def]

end DecodeFile

/-! ## Directories -/

/-- The record of a directory in the current one: its parent is the root. -/
def rootDirImage (path name : CStr) : Bytes :=
  headerImage AttrType.dir.bits name ++ leBytes 4 (headerCrc AttrType.dir.bits path.bytes).toNat

/-- The checksum of a directory below another one. -/
def subdirCrc (path : CStr) (parentIndex : Nat) : BitVec 32 :=
  braCrc32c (leBytes 4 parentIndex) (headerCrc AttrType.subdir.bits path.bytes)

/-- The record of a directory below another one. -/
def subdirImage (path name : CStr) (parentIndex : Nat) : Bytes :=
  headerImage AttrType.subdir.bits name ++ leBytes 4 parentIndex ++
    leBytes 4 (subdirCrc path parentIndex).toNat

/-- The record of a directory. -/
def dirImage (path name : CStr) (parentIndex : Nat) : Bytes :=
  if parentIndex = 0 then rootDirImage path name else subdirImage path name parentIndex

/-- The entry of a directory before its checksum is computed. -/
def newDir (type : AttrType) (name : CStr) : MetaEntry :=
  braMetaEntryInit type.bits name.bytes (UInt8.ofNat name.bytes.length)

/-- The entry of a directory below another one, with its checksum. -/
def subdirEntry (path name : CStr) (parentIndex : Nat) : MetaEntry :=
  MetaEntry.addParentIndex { (newDir .subdir name).withHeaderCrc path.bytes with
    entryData := .subdir parentIndex }

theorem braAttrType_newDir (type : AttrType) (name : CStr) :
    braAttrType (newDir type name).attributes = type := by
  change braAttrType type.bits = type
  cases type <;> rfl

section EncodeDir
variable {σ : Type} {fs : FileSystem σ} {used : CStr → Prop} {view : σ → DiskView} {s : σ}
  {path name : CStr} {ctx : IoFileCtx} {bytes : Bytes} {p : TreeNode} {count : Nat} {tree : TreeDir}

theorem writeCommonHeader_newDir (hname : IsEntryName name) (type : AttrType) (path : CStr)
    (bytes : Bytes) :
    braIoFileMetaEntryWriteCommonHeader (ioAt bytes [])
      ((newDir type name).withHeaderCrc path.bytes) =
        ioAt (bytes ++ headerImage type.bits name) [] :=
  braIoFileMetaEntryWriteCommonHeader_ioAt hname bytes (braMetaEntryInit_name type.bits name) rfl

theorem flushEntryDir_newDir (hname : IsEntryName name) (path : CStr) (bytes : Bytes) :
    braIoFileMetaEntryFlushEntryDir (ioAt bytes []) ((newDir .dir name).withHeaderCrc path.bytes) =
      some (ioAt (bytes ++ headerImage AttrType.dir.bits name) []) := by
  have htype : braAttrType ((newDir .dir name).withHeaderCrc path.bytes).attributes = .dir :=
    braAttrType_newDir .dir name
  rw [braIoFileMetaEntryFlushEntryDir_eq (.inl htype), writeCommonHeader_newDir hname]

theorem flushEntrySubdir_subdirEntry (hname : IsEntryName name) (path : CStr) (parentIndex : Nat)
    (bytes : Bytes) :
    braIoFileMetaEntryFlushEntrySubdir (ioAt bytes []) (subdirEntry path name parentIndex) =
      some (ioAt (bytes ++ headerImage AttrType.subdir.bits name ++ leBytes 4 parentIndex) []) := by
  have htype : braAttrType (subdirEntry path name parentIndex).attributes = .subdir :=
    braAttrType_newDir .subdir name
  rw [braIoFileMetaEntryFlushEntrySubdir_eq htype, ← braIoFileWrite_ioAt_nil,
    ← writeCommonHeader_newDir hname .subdir path]
  rfl

/-- Whatever type the file system reports for a directory, the writer goes by its tree. -/
theorem writeMetaEntryDirSubdir_eq (hname : IsEntryName name) (hpos : 0 < path.bytes.length)
    (hmax : path.bytes.length ≤ 65535) (hf : ctx.f = ioAt bytes [])
    (hadd : braTreeDirAdd ctx.tree path = some (.dir count name p, tree)) {attributes : UInt8}
    (hattr : attributes = AttrType.dir.bits ∨ attributes = AttrType.subdir.bits) :
    ∃ me f, braIoFileCtxWriteMetaEntryDirSubdir ctx attributes path =
        some (me, { ctx with
          f
          tree
          lastDirNode := .dir count name p
          lastDir := path
          lastDirSize := path.bytes.length }) ∧
      braIoFileWrite f (leBytes 4 me.crc32.toNat) =
        ioAt (bytes ++ dirImage path name p.index) [] := by
  have htype : ¬ (braAttrType attributes ≠ .subdir ∧ braAttrType attributes ≠ .dir) := by
    rcases hattr with rfl | rfl
    · exact fun h => h.2 rfl
    · exact fun h => h.1 rfl
  have hset : ∀ type, braAttrSetType (braAttrSetComp attributes braAttrCompStored) type =
      type.bits := by
    rcases hattr with rfl | rfl <;> intro type <;> cases type <;> rfl
  have hle := hname.length_le
  simp only [braIoFileCtxWriteMetaEntryDirSubdir, if_neg htype, hadd, Option.bind_eq_bind,
    Option.bind_some, TreeNode.parent, hset, TreeNode.dirname, if_neg (Nat.not_lt.mpr hle)]
  rw [dirImage]
  by_cases hindex : p.index = 0
  · have hheader := braComputeHeaderCrc32_eq hpos hmax (newDir .dir name)
    have htype' : braAttrType ((newDir .dir name).withHeaderCrc path.bytes).attributes = .dir :=
      braAttrType_newDir .dir name
    have hflush := flushEntryDir_newDir hname path bytes
    rw [newDir] at hheader htype' hflush
    simp only [if_pos hindex, hheader, Option.bind_some, htype', hf, reduceCtorEq, if_false, hflush,
      Option.pure_def]
    refine ⟨_, _, rfl, ?_⟩
    rw [braIoFileWrite_ioAt_nil, rootDirImage, List.append_assoc]
    rfl
  · have hheader := braComputeHeaderCrc32_eq hpos hmax (newDir .subdir name)
    have htype' : braAttrType ((newDir .subdir name).withHeaderCrc path.bytes).attributes =
        .subdir := braAttrType_newDir .subdir name
    have hsubdir : (braMetaEntrySubdirSet ((newDir .subdir name).withHeaderCrc path.bytes)
        p.index).map MetaEntry.addParentIndex = some (subdirEntry path name p.index) :=
      congrArg (Option.map _) (if_neg (not_not_intro htype'))
    have htype₂ : braAttrType (subdirEntry path name p.index).attributes = .subdir := htype'
    have hflush := flushEntrySubdir_subdirEntry hname path p.index bytes
    rw [newDir] at hheader htype' hsubdir
    simp only [if_neg hindex, hheader, Option.bind_some, htype', hf, if_true, hsubdir, htype₂, hflush,
      Option.pure_def]
    refine ⟨_, _, rfl, ?_⟩
    rw [braIoFileWrite_ioAt_nil, subdirImage]
    simp only [List.append_assoc]
    rfl

/-- The writer appends the record of a directory and goes on in it. -/
theorem encodeDir_ioAt (hfs : fs.Works used view) (qsortR : QsortR) (hname : IsEntryName name)
    (hnode : view s path = some .dir) (hpos : 0 < path.bytes.length)
    (hmax : path.bytes.length ≤ 65535) (hf : ctx.f = ioAt bytes [])
    (hadd : braTreeDirAdd ctx.tree path = some (.dir count name p, tree)) :
    braIoFileCtxEncodeAndWriteToDisk fs qsortR s ctx path false = some { ctx with
      f := ioAt (bytes ++ dirImage path name p.index) []
      tree
      lastDirNode := .dir count name p
      lastDir := path
      lastDirSize := path.bytes.length } := by
  rcases hfs.fileAttributes_dir s path hnode with hattr | hattr
  · have hcomp : braAttrSetComp AttrType.dir.bits braAttrCompStored = AttrType.dir.bits := rfl
    have htype : braAttrType AttrType.dir.bits = .dir := rfl
    obtain ⟨me, f, hwrite, hf'⟩ := writeMetaEntryDirSubdir_eq hname hpos hmax hf hadd (.inl rfl)
    simp only [braIoFileCtxEncodeAndWriteToDisk, hattr, Option.bind_eq_bind, Option.bind_some,
      Bool.false_and, Bool.false_eq_true, if_false, hcomp, braIoFileCtxWriteMetaEntry, htype, hwrite,
      Option.pure_def, hf']
  · have hcomp : braAttrSetComp AttrType.subdir.bits braAttrCompStored = AttrType.subdir.bits := rfl
    have htype : braAttrType AttrType.subdir.bits = .subdir := rfl
    obtain ⟨me, f, hwrite, hf'⟩ := writeMetaEntryDirSubdir_eq hname hpos hmax hf hadd (.inr rfl)
    simp only [braIoFileCtxEncodeAndWriteToDisk, hattr, Option.bind_eq_bind, Option.bind_some,
      Bool.false_and, Bool.false_eq_true, if_false, hcomp, braIoFileCtxWriteMetaEntry, htype, hwrite,
      Option.pure_def, hf']

end EncodeDir

section DecodeDir
variable {σ : Type} {fs : FileSystem σ} {used : CStr → Prop} {view : σ → DiskView} {t : σ}
  {path name : CStr} {ctx : IoFileCtx} {bytes rest : Bytes} {p : TreeNode} {count : Nat}
  {tree : TreeDir}

/-- The directory of an entry is there once the entry is extracted. -/
theorem extractDir_eq (hfs : fs.Works used view) (hused : used path)
    (hthere : DirThere (view t) path) (hview : ∀ node, view t path = some node → node = .dir) :
    ∃ t', extractDir fs t path = some t' ∧
      view t' = Function.update (view t) path (some .dir) := by
  rw [extractDir]
  split
  · rename_i hexists
    refine ⟨t, rfl, ?_⟩
    rw [← (hfs.dirExists t path hused).mp hexists, Function.update_eq_self]
  · rename_i hexists
    refine hfs.dirMake t path hused hthere ?_
    rw [Option.eq_none_iff_forall_ne_some]
    intro node hnode
    obtain rfl := hview node hnode
    exact hexists ((hfs.dirExists t path hused).mpr hnode)

theorem ofBuffer_newDir_name (type : AttrType) (name : CStr) :
    CStr.ofBuffer (newDir type name).name = name := by
  rw [newDir, braMetaEntryInit_name, CStr.ofBuffer_bytes]

/-- The reader gets the entry of a directory that the writer started with. -/
theorem readMetaEntry_rootDir (hname : IsEntryName name)
    (hf : ctx.f = ioAt bytes (rootDirImage path name ++ rest))
    (hinsert : braTreeDirInsertAtParent ctx.tree 0 name = some (.dir count name p, tree)) :
    braIoFileCtxReadMetaEntry ctx = some (newDir .dir name, { ctx with
      f := ioAt (bytes ++ headerImage AttrType.dir.bits name)
        (leBytes 4 (headerCrc AttrType.dir.bits path.bytes).toNat ++ rest)
      tree
      lastDirNode := .dir count name p }) := by
  have hheader := braIoFileMetaEntryReadCommonHeader_ioAt hname AttrType.dir.bits bytes
    (leBytes 4 (headerCrc AttrType.dir.bits path.bytes).toNat ++ rest)
  rw [← newDir] at hheader
  simp only [braIoFileCtxReadMetaEntry, hf, rootDirImage, List.append_assoc, hheader,
    Option.bind_eq_bind, Option.bind_some, braAttrType_newDir, ofBuffer_newDir_name, hinsert,
    Option.pure_def]

/-- The reader gets the entry of a directory below another one, with the index of its
parent. -/
theorem readMetaEntry_subdir (hname : IsEntryName name) {parentIndex : Nat}
    (hindex : parentIndex < 2 ^ 32)
    (hf : ctx.f = ioAt bytes (subdirImage path name parentIndex ++ rest))
    (hinsert : braTreeDirInsertAtParent ctx.tree parentIndex name =
      some (.dir count name p, tree)) :
    braIoFileCtxReadMetaEntry ctx = some ({ newDir .subdir name with
      entryData := .subdir parentIndex }, { ctx with
      f := ioAt (bytes ++ headerImage AttrType.subdir.bits name ++ leBytes 4 parentIndex)
        (leBytes 4 (subdirCrc path parentIndex).toNat ++ rest)
      tree
      lastDirNode := .dir count name p }) := by
  have hheader := braIoFileMetaEntryReadCommonHeader_ioAt hname AttrType.subdir.bits bytes
    (leBytes 4 parentIndex ++ (leBytes 4 (subdirCrc path parentIndex).toNat ++ rest))
  have hdata := braIoFileRead_ioAt (bytes ++ headerImage AttrType.subdir.bits name)
    (leBytes 4 parentIndex) (leBytes 4 (subdirCrc path parentIndex).toNat ++ rest)
    (leBytes_length 4 _)
  have hvalue : leValue (leBytes 4 parentIndex) = parentIndex := by
    rw [leValue_leBytes, Nat.mod_eq_of_lt (show parentIndex < 256 ^ 4 from hindex)]
  rw [← newDir] at hheader
  have hset : ∀ n, braMetaEntrySubdirSet (newDir .subdir name) n =
      some { newDir .subdir name with entryData := .subdir n } := fun n =>
    if_neg (not_not_intro (braAttrType_newDir .subdir name))
  simp only [braIoFileCtxReadMetaEntry, hf, subdirImage, List.append_assoc] at hheader hdata ⊢
  simp only [hheader, Option.bind_eq_bind, Option.bind_some, braAttrType_newDir,
    braIoFileMetaEntryReadSubdirEntry, ne_eq, not_true_eq_false, if_false, hset, hdata, hvalue,
    Option.pure_def, MetaEntry.parentIndex, ofBuffer_newDir_name, hinsert]

/-- The reader takes the record of a directory from the archive and goes on in it. -/
theorem decodeDir_ioAt (hfs : fs.Works used view) (hused : used path) (hname : IsEntryName name)
    (hpos : 0 < path.bytes.length) (hmax : path.bytes.length ≤ 65535)
    (hvalid : braValidateFilename path.bytes path.bytes.length = true)
    (hf : ctx.f = ioAt bytes (dirImage path name p.index ++ rest)) (hindex : p.index < 2 ^ 32)
    (hinsert : braTreeDirInsertAtParent ctx.tree p.index name = some (.dir count name p, tree))
    (hpath : braTreeDirReconstructPath (.dir count name p) = path)
    (hthere : DirThere (view t) path) (hview : ∀ node, view t path = some node → node = .dir)
    (user : User) :
    ∃ t', braIoFileCtxDecodeAndWriteToDisk fs ctx user t = some ({ ctx with
        f := ioAt (bytes ++ dirImage path name p.index) rest
        tree
        lastDirNode := .dir count name p }, user, t') ∧
      view t' = Function.update (view t) path (some .dir) := by
  obtain ⟨t', hdir, hview'⟩ := extractDir_eq hfs hused hthere hview
  refine ⟨t', ?_, hview'⟩
  have hfn : CStr.ofBuffer (path.bytes ++ [0]) = path := CStr.ofBuffer_append_nul path []
  have hcheck := fun me => checkHeader_path hpos hmax hvalid me
  rw [dirImage] at hf ⊢
  -- index 0 is the root: the entry is a dir and not a subdir
  by_cases hzero : p.index = 0
  · rw [if_pos hzero] at hf ⊢
    have hread := readMetaEntry_rootDir hname hf (hzero ▸ hinsert)
    have htype : braAttrType ((newDir .dir name).withHeaderCrc path.bytes).attributes = .dir :=
      braAttrType_newDir .dir name
    have hfinish : finishEntry { ctx with
        f := ioAt (bytes ++ headerImage AttrType.dir.bits name)
          (leBytes 4 (headerCrc AttrType.dir.bits path.bytes).toNat ++ rest)
        tree
        lastDirNode := .dir count name p } ((newDir .dir name).withHeaderCrc path.bytes) true =
          some { ctx with
            f := ioAt (bytes ++ rootDirImage path name) rest
            tree
            lastDirNode := .dir count name p } := by
      rw [rootDirImage, ← List.append_assoc]
      exact finishEntry_ioAt rfl
    simp only [braIoFileCtxDecodeAndWriteToDisk, hread, Option.bind_eq_bind, Option.bind_some,
      braIoFileCtxReconstructMetaEntryName, braAttrType_newDir, hpath, hfn, hcheck, htype, hdir,
      hfinish, Option.pure_def]
  · rw [if_neg hzero] at hf ⊢
    have hread := readMetaEntry_subdir hname hindex hf hinsert
    have htype : braAttrType { newDir .subdir name with
        entryData := .subdir p.index }.attributes = .subdir := braAttrType_newDir .subdir name
    have htype' : braAttrType (MetaEntry.withHeaderCrc { newDir .subdir name with
        entryData := .subdir p.index } path.bytes).attributes = .subdir :=
      braAttrType_newDir .subdir name
    have hfinish : finishEntry { ctx with
        f := ioAt (bytes ++ headerImage AttrType.subdir.bits name ++ leBytes 4 p.index)
          (leBytes 4 (subdirCrc path p.index).toNat ++ rest)
        tree
        lastDirNode := .dir count name p } (subdirEntry path name p.index) true =
          some { ctx with
            f := ioAt (bytes ++ subdirImage path name p.index) rest
            tree
            lastDirNode := .dir count name p } := by
      rw [subdirImage, ← List.append_assoc, ← List.append_assoc]
      exact finishEntry_ioAt rfl
    simp only [braIoFileCtxDecodeAndWriteToDisk, hread, Option.bind_eq_bind, Option.bind_some,
      braIoFileCtxReconstructMetaEntryName, htype, hpath, hfn, hcheck, htype', hdir]
    exact congrArg (Option.bind · _) hfinish

end DecodeDir

end BrArchive
