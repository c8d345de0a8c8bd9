import BrArchive.Chunks
import BrArchive.FileSystem
import BrArchive.Filename
import BrArchive.TreeDir

/-! # The archive context

`lib_bra_io_file_ctx.c`, the `flush` functions of `lib_bra_io_file_meta_entries.c` and the
loop of `unbra.cpp`: an archive is written and read entry by entry.  A context carries
what one entry leaves for the next: the directory tree and the current directory.  What is
printed is left out, and with it the total of the uncompressed sizes.
-/
namespace BrArchive

/-- `bra_io_file_ctx_t`. -/
structure IoFileCtx where
  f : IoFile
  numFiles : Nat
  lastDir : CStr
  lastDirSize : Nat
  tree : TreeDir
  lastDirNode : TreeNode
  deriving DecidableEq

/-- `bra_io_file_ctx_open` on a file that could be opened. -/
def braIoFileCtxOpen (f : IoFile) : IoFileCtx where
  f
  numFiles := 0
  lastDir := CStr.ofBuffer []
  lastDirSize := 0
  tree := braTreeDirCreate
  lastDirNode := .root

/-- Size of a `bra_io_header_t`. -/
def sizeofHeader : Nat := 8

/-- `bra_io_file_ctx_read_header`. -/
def braIoFileCtxReadHeader (ctx : IoFileCtx) : Option IoFileCtx := do
  let (outBh, f) ← braIoFileRead ctx.f sizeofHeader
  if leValue (outBh.take 4) ≠ braMagic then none
  else return { ctx with f, numFiles := leValue (outBh.drop 4) }

/-- `bra_io_file_ctx_write_header`. -/
def braIoFileCtxWriteHeader (ctx : IoFileCtx) (numFiles : Nat) : IoFileCtx :=
  { ctx with f := braIoFileWrite ctx.f (leBytes 4 braMagic ++ leBytes 4 numFiles), numFiles }

/-! ## Reading entries -/

/-- `bra_io_file_ctx_read_meta_entry`. -/
def braIoFileCtxReadMetaEntry (ctx : IoFileCtx) : Option (MetaEntry × IoFileCtx) := do
  let (me, f) ← braIoFileMetaEntryReadCommonHeader ctx.f
  match braAttrType me.attributes with
  | .subdir =>
    let (me, f) ← braIoFileMetaEntryReadSubdirEntry f me
    let (lastDirNode, tree) ←
      braTreeDirInsertAtParent ctx.tree me.parentIndex (CStr.ofBuffer me.name)
    return (me, { ctx with f, tree, lastDirNode })
  | .dir =>
    let (lastDirNode, tree) ← braTreeDirInsertAtParent ctx.tree 0 (CStr.ofBuffer me.name)
    return (me, { ctx with f, tree, lastDirNode })
  | .file =>
    let (me, f) ← braIoFileMetaEntryReadFileEntry f me
    return (me, { ctx with f })
  | .sym => none

/-- `_bra_io_file_ctx_reconstruct_meta_entry_name`: the buffer with the path of an entry,
and the length of the path.  In a directory `name_size` bytes of the name are copied, and
copying past its NUL counts as a failure. -/
def braIoFileCtxReconstructMetaEntryName (ctx : IoFileCtx) (me : MetaEntry) :
    Option (Bytes × Nat) :=
  let dirname := (braTreeDirReconstructPath ctx.lastDirNode).bytes
  match braAttrType me.attributes with
  | .file =>
    if dirname.length > 0 then
      if me.nameSize.toNat > me.name.length + 1 then none
      else
        some (dirname ++ [braDirDelim] ++ (me.name ++ [0]).take me.nameSize.toNat ++ [0],
          dirname.length + me.nameSize.toNat + 1)
    else some (me.name ++ [0], me.nameSize.toNat)
  | .dir => some (dirname ++ [0], dirname.length)
  | .subdir => some (dirname ++ [0], dirname.length)
  | .sym => none

/-- The checks on the path in the buffer `fn`, taken to have `len` bytes, and the start of
the checksum. -/
def checkHeader (fn : Bytes) (len : Nat) (me : MetaEntry) : Option MetaEntry :=
  if !braValidateFilename (cString fn) len then none else braComputeHeaderCrc32 len fn me

/-- The CRC32 at the end of an entry. -/
def readCrc32 (f : IoFile) : Option (BitVec 32 × IoFile) := do
  let (crc32, f) ← braIoFileRead f 4
  return (BitVec.ofNat 32 (leValue crc32), f)

/-- `me.crc32 = bra_crc32c(&mef->data_size, sizeof(uint64_t), me.crc32)`. -/
def MetaEntry.addDataSize (me : MetaEntry) : MetaEntry :=
  { me with crc32 := braCrc32c (leBytes 8 me.dataSize) me.crc32 }

/-- `me.crc32 = bra_crc32c(&mes->parent_index, sizeof(uint32_t), me.crc32)`. -/
def MetaEntry.addParentIndex (me : MetaEntry) : MetaEntry :=
  { me with crc32 := braCrc32c (leBytes 4 me.parentIndex) me.crc32 }

/-- The contents of an entry that is extracted, by the way they are stored. -/
def extractContents (f2 f : IoFile) (me : MetaEntry) :
    Option (Option IoFile × IoFile × MetaEntry) :=
  if braAttrComp me.attributes = braAttrCompStored then
    braIoFileChunksCopyFile (some f2) f me.dataSize me true
  else if braAttrComp me.attributes = braAttrCompCompressed then
    braIoFileChunksDecompressFile (some f2) f me.dataSize me true
  else none

/-- The last step of an entry: its CRC32 is read, and compared if it has been computed. -/
def finishEntry (ctx : IoFileCtx) (me : MetaEntry) (compare : Bool) : Option IoFileCtx := do
  let (crc32, f) ← readCrc32 ctx.f
  if compare && crc32 != me.crc32 then none
  else return { ctx with f }

section Decode
variable {σ : Type} (fs : FileSystem σ)

/-- The directory of an entry that is extracted: it is made unless it is there. -/
def extractDir (s : σ) (fn : CStr) : Option σ :=
  if fs.dirExists s fn then some s else fs.dirMake s fn

/-- `bra_io_file_ctx_decode_and_write_to_disk`. -/
def braIoFileCtxDecodeAndWriteToDisk (ctx : IoFileCtx) (user : User) (s : σ) :
    Option (IoFileCtx × User × σ) := do
  let (me, ctx) ← braIoFileCtxReadMetaEntry ctx
  let (buf, _) ← braIoFileCtxReconstructMetaEntryName ctx me
  let fn := CStr.ofBuffer buf
  let me ← checkHeader buf fn.bytes.length me
  match braAttrType me.attributes with
  | .file =>
    let (overwrite, user) := braFsFileExistsAskOverwrite fs s fn user false
    if !overwrite then
      let f ← braIoFileSkipData ctx.f (me.dataSize + 4)
      return ({ ctx with f }, user, s)
    else
      let s ← fs.openWrite s fn
      let (f2, f, me) ← extractContents ⟨[], 0⟩ ctx.f me.addDataSize
      let s := fs.closeWrite s fn (f2.elim [] IoFile.data)
      let ctx ← finishEntry { ctx with f } me true
      return (ctx, user, s)
  | .subdir =>
    let s ← extractDir fs s fn
    let ctx ← finishEntry ctx me.addParentIndex true
    return (ctx, user, s)
  | .dir =>
    let s ← extractDir fs s fn
    let ctx ← finishEntry ctx me true
    return (ctx, user, s)
  | .sym => none

/-- The loop of `unbra` that extracts entries. -/
def decodeEntries : Nat → IoFileCtx → User → σ → Option (IoFileCtx × User × σ)
  | 0, ctx, user, s => some (ctx, user, s)
  | n + 1, ctx, user, s => do
    let (ctx, user, s) ← braIoFileCtxDecodeAndWriteToDisk fs ctx user s
    decodeEntries n ctx user s

end Decode

/-- `bra_io_file_ctx_print_meta_entry`. -/
def braIoFileCtxPrintMetaEntry (ctx : IoFileCtx) (testMode : Bool) : Option IoFileCtx := do
  let (me, ctx) ← braIoFileCtxReadMetaEntry ctx
  let (fn, len) ← braIoFileCtxReconstructMetaEntryName ctx me
  let me ← if testMode then checkHeader fn len me else some me
  match braAttrType me.attributes with
  | .file =>
    let me := if testMode then me.addDataSize else me
    let (_, f, me) ← braIoFileChunksReadFile ctx.f me.dataSize me testMode
    finishEntry { ctx with f } me testMode
  | .subdir => finishEntry ctx (if testMode then me.addParentIndex else me) testMode
  | .dir => finishEntry ctx me testMode
  | .sym => none

/-- The loop of `unbra` that lists or tests entries. -/
def printEntries (testMode : Bool) : Nat → IoFileCtx → Option IoFileCtx
  | 0, ctx => some ctx
  | n + 1, ctx => do
    let ctx ← braIoFileCtxPrintMetaEntry ctx testMode
    printEntries testMode n ctx

/-! ## Writing entries -/

section Encode
variable {σ : Type} (fs : FileSystem σ) (qsortR : QsortR) (s : σ)

/-- `bra_io_file_meta_entry_flush_entry_file`, with `depth` nested calls at most: a file
that does not get smaller is written once more, stored. -/
def flushEntryFile (filename : CStr) : Nat → IoFile → MetaEntry → Option (IoFile × MetaEntry)
  | 0, _, _ => none
  | depth + 1, f, me =>
    if braAttrType me.attributes ≠ .file then none
    else do
      let me ← braComputeHeaderCrc32 filename.bytes.length (filename.bytes ++ [0]) me
      let attrOrig := me.attributes
      let mePos := braIoFileTell f
      if mePos ≤ 0 then none
      else
        let f := braIoFileMetaEntryWriteCommonHeader f me
        let data ← fs.openRead s filename
        if braAttrComp me.attributes = braAttrCompStored then
          let me := me.addDataSize
          let f ← braIoFileMetaEntryWriteFileEntry f me
          let (dst, _, me) ← braIoFileChunksCopyFile (some f) ⟨data, 0⟩ me.dataSize me true
          return (dst.getD f, me)
        else if braAttrComp me.attributes = braAttrCompCompressed then
          let r ← braIoFileChunksCompressFile qsortR f ⟨data, 0⟩ me.dataSize me
          if r.res then return (r.dst, r.me)
          else if attrOrig ≠ r.me.attributes then
            flushEntryFile filename depth (braIoFileSeekSet r.dst mePos) r.me
          else none
        else none

/-- `bra_io_file_meta_entry_flush_entry_file`: the second call stores the file. -/
def braIoFileMetaEntryFlushEntryFile (f : IoFile) (me : MetaEntry) (filename : CStr) :
    Option (IoFile × MetaEntry) :=
  flushEntryFile fs qsortR s filename 2 f me

/-- `bra_io_file_meta_entry_flush_entry_dir`. -/
def braIoFileMetaEntryFlushEntryDir (f : IoFile) (me : MetaEntry) : Option IoFile :=
  if braAttrType me.attributes ≠ .dir ∧ braAttrType me.attributes ≠ .subdir then none
  else some (braIoFileMetaEntryWriteCommonHeader f me)

/-- `bra_io_file_meta_entry_flush_entry_subdir`. -/
def braIoFileMetaEntryFlushEntrySubdir (f : IoFile) (me : MetaEntry) : Option IoFile := do
  let f ← braIoFileMetaEntryFlushEntryDir f me
  braIoFileMetaEntryWriteSubdirEntry f me

theorem braIoFileMetaEntryFlushEntryDir_eq {me : MetaEntry}
    (htype : braAttrType me.attributes = .dir ∨ braAttrType me.attributes = .subdir) (f : IoFile) :
    braIoFileMetaEntryFlushEntryDir f me = some (braIoFileMetaEntryWriteCommonHeader f me) :=
  if_neg fun h => htype.elim h.1 h.2

theorem braIoFileMetaEntryFlushEntrySubdir_eq {me : MetaEntry}
    (htype : braAttrType me.attributes = .subdir) (f : IoFile) :
    braIoFileMetaEntryFlushEntrySubdir f me = some
      (braIoFileWrite (braIoFileMetaEntryWriteCommonHeader f me) (leBytes 4 me.parentIndex)) := by
  rw [braIoFileMetaEntryFlushEntrySubdir, braIoFileMetaEntryFlushEntryDir_eq (.inr htype)]
  exact if_neg (not_not_intro htype)

/-- `_bra_io_file_ctx_write_meta_entry_file`. -/
def braIoFileCtxWriteMetaEntryFile (ctx : IoFileCtx) (attributes : UInt8) (filename : CStr) :
    Option (MetaEntry × IoFileCtx) :=
  let filenameLen := filename.bytes.length
  let l := ctx.lastDirSize
  if braAttrType attributes ≠ .file then none
  else if l > filenameLen then none
  else if l > 0 ∧ ctx.lastDir.bytes.take l ≠ filename.bytes.take l then none
  else if charAt filename.bytes l ≠ braDirDelim ∧ l > 0 then none
  else
    let l := if charAt filename.bytes l = braDirDelim then l + 1 else l
    if filenameLen - l > 255 then none
    else do
      let me := braMetaEntryInit attributes (filename.bytes.drop l)
        (UInt8.ofNat (filenameLen - l))
      let ds ← fs.fileSize s filename
      let me ← braMetaEntryFileSet me ds
      let (f, me) ← braIoFileMetaEntryFlushEntryFile fs qsortR s ctx.f me filename
      return (me, { ctx with f })

/-- `_bra_io_file_ctx_write_meta_entry_dir_subdir`. -/
def braIoFileCtxWriteMetaEntryDirSubdir (ctx : IoFileCtx) (attributes : UInt8)
    (dirname : CStr) : Option (MetaEntry × IoFileCtx) :=
  if braAttrType attributes ≠ .subdir ∧ braAttrType attributes ≠ .dir then none
  else do
    let attributes := braAttrSetComp attributes braAttrCompStored
    let (node, tree) ← braTreeDirAdd ctx.tree dirname
    let parent ← node.parent
    let attributes := braAttrSetType attributes (if parent.index = 0 then .dir else .subdir)
    if node.dirname.bytes.length > 255 then none
    else
      let me := braMetaEntryInit attributes node.dirname.bytes
        (UInt8.ofNat node.dirname.bytes.length)
      let me ← braComputeHeaderCrc32 dirname.bytes.length (dirname.bytes ++ [0]) me
      let me ←
        if braAttrType me.attributes = .subdir then
          (braMetaEntrySubdirSet me parent.index).map MetaEntry.addParentIndex
        else some me
      let f ←
        match braAttrType me.attributes with
        | .dir => braIoFileMetaEntryFlushEntryDir ctx.f me
        | .subdir => braIoFileMetaEntryFlushEntrySubdir ctx.f me
        | _ => none
      return (me, { ctx with
        f
        tree
        lastDirNode := node
        lastDir := dirname
        lastDirSize := dirname.bytes.length })

/-- `bra_io_file_ctx_write_meta_entry`. -/
def braIoFileCtxWriteMetaEntry (ctx : IoFileCtx) (attributes : UInt8) (fn : CStr) :
    Option IoFileCtx := do
  let (me, ctx) ←
    match braAttrType attributes with
    | .file => braIoFileCtxWriteMetaEntryFile fs qsortR s ctx attributes fn
    | .dir => braIoFileCtxWriteMetaEntryDirSubdir ctx attributes fn
    | .subdir => braIoFileCtxWriteMetaEntryDirSubdir ctx attributes fn
    | .sym => none
  return { ctx with f := braIoFileWrite ctx.f (leBytes 4 me.crc32.toNat) }

/-- `bra_io_file_ctx_encode_and_write_to_disk`. -/
def braIoFileCtxEncodeAndWriteToDisk (ctx : IoFileCtx) (fn : CStr) (compress : Bool) :
    Option IoFileCtx := do
  let attributes ← fs.fileAttributes s fn
  let attributes :=
    if compress && braAttrType attributes == .file then
      braAttrSetComp attributes braAttrCompCompressed
    else braAttrSetComp attributes braAttrCompStored
  braIoFileCtxWriteMetaEntry fs qsortR s ctx attributes fn

/-- The loop of `bra` that writes the entries. -/
def encodeEntries (compress : Bool) : List CStr → IoFileCtx → Option IoFileCtx
  | [], ctx => some ctx
  | fn :: fns, ctx => do
    let ctx ← braIoFileCtxEncodeAndWriteToDisk fs qsortR s ctx fn compress
    encodeEntries compress fns ctx

end Encode
end BrArchive
