import BrArchive.FileHandles
import BrArchive.CompressFallback

/-! # The handles of an entry

`lib_bra_io_file_meta_entries.c` and the functions of `lib_bra_io_file_ctx.c` that encode and
decode an entry, as programs that hold handles.  After a failure only the file of a context
matters, and the rest of it is left as it was.
-/
namespace BrArchive.Stdio
open HandlePrograms

/-! ## `lib_bra_io_file_meta_entries.c` -/

/-- The error labels: the file is closed. -/
def closeFile {α : Type} (f : BraIoFile) : StdioM (Option α × BraIoFile) := do
  let f ← braIoFileClose f
  return (none, f)

/-- `bra_io_file_meta_entry_read_common_header`. -/
def braIoFileMetaEntryReadCommonHeader (f : BraIoFile) :
    StdioM (Option MetaEntry × BraIoFile) := do
  let (attr, f) ← braIoFileRead f 1
  match attr with
  | none => closeFile f
  | some attr =>
    let (bufSize, f) ← braIoFileRead f 1
    match bufSize with
    | none => closeFile f
    | some bufSize =>
      if leValue bufSize = 0 then closeFile f
      else
        let (buf, f) ← braIoFileRead f (leValue bufSize)
        match buf with
        | none => closeFile f
        | some buf =>
          let me := braMetaEntryInit (UInt8.ofNat (leValue attr)) buf
            (UInt8.ofNat (leValue bufSize))
          match ← allocating (some me) with
          | none => closeFile f
          | some me => return (some me, f)

/-- `bra_io_file_meta_entry_write_common_header`. -/
def braIoFileMetaEntryWriteCommonHeader (f : BraIoFile) (me : MetaEntry) :
    StdioM (Bool × BraIoFile) := do
  let (ok, f) ← braIoFileWrite f [me.attributes]
  if !ok then return (false, f)
  else
    let (ok, f) ← braIoFileWrite f [me.nameSize]
    if !ok then return (false, f)
    else braIoFileWrite f ((me.name ++ [0]).take me.nameSize.toNat)

/-- `bra_io_file_meta_entry_read_file_entry`. -/
def braIoFileMetaEntryReadFileEntry (f : BraIoFile) (me : MetaEntry) :
    StdioM (Option MetaEntry × BraIoFile) :=
  match braMetaEntryFileSet me 0 with
  | none => closeFile f
  | some me => do
    let (dataSize, f) ← braIoFileRead f 8
    return (dataSize.map fun dataSize => { me with entryData := .file (leValue dataSize) }, f)

/-- `bra_io_file_meta_entry_read_subdir_entry`. -/
def braIoFileMetaEntryReadSubdirEntry (f : BraIoFile) (me : MetaEntry) :
    StdioM (Option MetaEntry × BraIoFile) :=
  if braAttrType me.attributes ≠ .subdir then closeFile f
  else
    match braMetaEntrySubdirSet me 0 with
    | none => closeFile f
    | some me => do
      let (parentIndex, f) ← braIoFileRead f 4
      return (parentIndex.map fun parentIndex =>
        { me with entryData := .subdir (leValue parentIndex) }, f)

/-- `bra_io_file_meta_entry_write_subdir_entry`. -/
def braIoFileMetaEntryWriteSubdirEntry (f : BraIoFile) (me : MetaEntry) :
    StdioM (Bool × BraIoFile) :=
  if braAttrType me.attributes ≠ .subdir then do
    let f ← braIoFileClose f
    return (false, f)
  else braIoFileWrite f (leBytes 4 me.parentIndex)

/-- The second error label of `bra_io_file_meta_entry_flush_entry_file`. -/
def flushError (f f2 : BraIoFile) : StdioM (Option MetaEntry × BraIoFile) := do
  let f ← braIoFileClose f
  let _ ← braIoFileClose f2
  return (none, f)

/-- `bra_io_file_meta_entry_flush_entry_file`, with `depth` nested calls at most.  A call too
many is a use of no handle, so that a legal run makes none. -/
def flushEntryFile (qsortR : QsortR) (filename : CStr) :
    Nat → BraIoFile → MetaEntry → StdioM (Option MetaEntry × BraIoFile)
  | 0, f, _ => .use none .ftello fun _ => .pure (none, f)
  | depth + 1, f, me =>
    if braAttrType me.attributes ≠ .file then closeFile f
    else
      match braComputeHeaderCrc32 filename.bytes.length (filename.bytes ++ [0]) me with
      | none => closeFile f
      | some me => do
        let attrOrig := me.attributes
        let mePos ← braIoFileTell f
        if mePos ≤ 0 then closeFile f
        else
          let (ok, f) ← braIoFileMetaEntryWriteCommonHeader f me
          if !ok then return (none, f)
          else
            let (ok, f2) ← braIoFileOpen filename false
            if !ok then closeFile f
            else if braAttrComp me.attributes = braAttrCompStored then
              let me := me.addDataSize
              let (ok, f) ← braIoFileMetaEntryWriteFileEntry f me
              if !ok then flushError f f2
              else
                let r ← braIoFileChunksCopyFile f f2 me.dataSize me true
                if !r.res then return (none, r.dst)
                else
                  let _ ← braIoFileClose r.src
                  return (some r.me, r.dst)
            else if braAttrComp me.attributes = braAttrCompCompressed then
              let r ← braIoFileChunksCompressFile qsortR f f2 me.dataSize me
              if !r.res then
                if attrOrig ≠ r.me.attributes then
                  let ok ← braIoFileSeek r.dst mePos .set
                  if !ok then flushError r.dst r.src
                  else
                    let _ ← braIoFileClose r.src
                    flushEntryFile qsortR filename depth r.dst r.me
                else flushError r.dst r.src
              else
                let _ ← braIoFileClose r.src
                return (some r.me, r.dst)
            else flushError f f2

/-- `bra_io_file_meta_entry_flush_entry_file`. -/
def braIoFileMetaEntryFlushEntryFile (qsortR : QsortR) (f : BraIoFile) (me : MetaEntry)
    (filename : CStr) : StdioM (Option MetaEntry × BraIoFile) :=
  flushEntryFile qsortR filename 2 f me

/-- `bra_io_file_meta_entry_flush_entry_dir`. -/
def braIoFileMetaEntryFlushEntryDir (f : BraIoFile) (me : MetaEntry) :
    StdioM (Bool × BraIoFile) :=
  if braAttrType me.attributes ≠ .dir ∧ braAttrType me.attributes ≠ .subdir then do
    let f ← braIoFileClose f
    return (false, f)
  else braIoFileMetaEntryWriteCommonHeader f me

/-- `bra_io_file_meta_entry_flush_entry_subdir`. -/
def braIoFileMetaEntryFlushEntrySubdir (f : BraIoFile) (me : MetaEntry) :
    StdioM (Bool × BraIoFile) := do
  let (ok, f) ← braIoFileMetaEntryFlushEntryDir f me
  if !ok then return (false, f)
  else braIoFileMetaEntryWriteSubdirEntry f me

/-! ## `lib_bra_io_file_ctx.c` -/

/-- `bra_io_file_ctx_t`. -/
structure IoFileCtx where
  f : BraIoFile
  lastDir : CStr
  lastDirSize : Nat
  tree : TreeDir
  lastDirNode : TreeNode

/-- `_bra_io_file_ctx_reconstruct_meta_entry_name`, which looks at the last directory only. -/
def braIoFileCtxReconstructMetaEntryName (ctx : IoFileCtx) (me : MetaEntry) :
    Option (Bytes × Nat) :=
  BrArchive.braIoFileCtxReconstructMetaEntryName
    { braIoFileCtxOpen ⟨[], 0⟩ with lastDirNode := ctx.lastDirNode } me

/-! ### Reading -/

/-- `bra_io_file_ctx_read_meta_entry`. -/
def braIoFileCtxReadMetaEntry (ctx : IoFileCtx) : StdioM (Option MetaEntry × IoFileCtx) := do
  let (me, f) ← braIoFileMetaEntryReadCommonHeader ctx.f
  match me with
  | none => return (none, { ctx with f })
  | some me =>
    match braAttrType me.attributes with
    | .subdir =>
      let (me, f) ← braIoFileMetaEntryReadSubdirEntry f me
      match me with
      | none => return (none, { ctx with f })
      | some me =>
        match ← allocating
            (braTreeDirInsertAtParent ctx.tree me.parentIndex (CStr.ofBuffer me.name)) with
        | none =>
          let f ← braIoFileClose f
          return (none, { ctx with f })
        | some (lastDirNode, tree) => return (some me, { ctx with f, tree, lastDirNode })
    | .dir =>
      match ← allocating (braTreeDirInsertAtParent ctx.tree 0 (CStr.ofBuffer me.name)) with
      | none =>
        let f ← braIoFileClose f
        return (none, { ctx with f })
      | some (lastDirNode, tree) => return (some me, { ctx with f, tree, lastDirNode })
    | .file =>
      let (me, f) ← braIoFileMetaEntryReadFileEntry f me
      return (me, { ctx with f })
    | .sym => return (none, { ctx with f })

/-- The error label of `bra_io_file_ctx_decode_and_write_to_disk`. -/
def decodeError (ctx : IoFileCtx) : StdioM (Bool × IoFileCtx) := do
  let f ← braIoFileError ctx.f
  return (false, { ctx with f })

/-- The end of an entry that was not skipped: its checksum. -/
def finishEntry (ctx : IoFileCtx) (me : MetaEntry) : StdioM (Bool × IoFileCtx) := do
  let (crc32, f) ← braIoFileRead ctx.f 4
  match crc32 with
  | none => decodeError { ctx with f }
  | some crc32 =>
    if BitVec.ofNat 32 (leValue crc32) ≠ me.crc32 then decodeError { ctx with f }
    else return (true, { ctx with f })

/-- A file that may be overwritten. -/
def extractFile (ctx : IoFileCtx) (fn : CStr) (me : MetaEntry) : StdioM (Bool × IoFileCtx) := do
  let me := me.addDataSize
  let (ok, f2) ← braIoFileOpen fn true
  if !ok then decodeError ctx
  else if braAttrComp me.attributes = braAttrCompStored then
    let r ← braIoFileChunksCopyFile f2 ctx.f me.dataSize me true
    if !r.res then decodeError { ctx with f := r.src }
    else
      let _ ← braIoFileClose r.dst
      finishEntry { ctx with f := r.src } r.me
  else if braAttrComp me.attributes = braAttrCompCompressed then
    let r ← braIoFileChunksDecompressFile f2 ctx.f me.dataSize me true
    if !r.res then decodeError { ctx with f := r.src }
    else
      let _ ← braIoFileClose r.dst
      finishEntry { ctx with f := r.src } r.me
  else
    let _ ← braIoFileClose f2
    decodeError ctx

def fileExistsAskOverwrite (fn : CStr) : StdioM Bool := .query (.fileExistsAskOverwrite fn) .pure

def dirExists (fn : CStr) : StdioM Bool := .query (.dirExists fn) .pure

def dirMake (fn : CStr) : StdioM Bool := .query (.dirMake fn) .pure

/-- A directory. -/
def extractDir (ctx : IoFileCtx) (fn : CStr) (me : MetaEntry) : StdioM (Bool × IoFileCtx) := do
  if ← dirExists fn then finishEntry ctx me
  else if ← dirMake fn then finishEntry ctx me
  else decodeError ctx

/-- `bra_io_file_ctx_decode_and_write_to_disk`. -/
def braIoFileCtxDecodeAndWriteToDisk (ctx : IoFileCtx) : StdioM (Bool × IoFileCtx) := do
  let (me, ctx) ← braIoFileCtxReadMetaEntry ctx
  match me with
  | none => decodeError ctx
  | some me =>
    match ← allocating (braIoFileCtxReconstructMetaEntryName ctx me) with
    | none => decodeError ctx
    | some (buf, _) =>
      let fn := CStr.ofBuffer buf
      match checkHeader buf fn.bytes.length me with
      | none => decodeError ctx
      | some me =>
        match braAttrType me.attributes with
        | .file =>
          if ← fileExistsAskOverwrite fn then extractFile ctx fn me
          else
            let (ok, f) ← braIoFileSkipData ctx.f (me.dataSize + 4)
            if !ok then decodeError { ctx with f }
            else return (true, { ctx with f })
        | .subdir => extractDir ctx fn me.addParentIndex
        | .dir => extractDir ctx fn me
        | .sym => decodeError ctx

/-! ### Writing -/

def fileSize (fn : CStr) : StdioM (Option Nat) := .query (.fileSize fn) .pure

def fileAttributes (fn : CStr) : StdioM (Option UInt8) := .query (.fileAttributes fn) .pure

section Write
variable (qsortR : QsortR)

/-- `_bra_io_file_ctx_write_meta_entry_file`. -/
def braIoFileCtxWriteMetaEntryFile (ctx : IoFileCtx) (attributes : UInt8) (filename : CStr) :
    StdioM (Option MetaEntry × IoFileCtx) :=
  let filenameLen := filename.bytes.length
  let l := ctx.lastDirSize
  if braAttrType attributes ≠ .file then return (none, ctx)
  else if l > filenameLen then return (none, ctx)
  else if l > 0 ∧ ctx.lastDir.bytes.take l ≠ filename.bytes.take l then return (none, ctx)
  else if charAt filename.bytes l ≠ braDirDelim ∧ l > 0 then return (none, ctx)
  else
    let l := if charAt filename.bytes l = braDirDelim then l + 1 else l
    if filenameLen - l > 255 then return (none, ctx)
    else do
      let me := braMetaEntryInit attributes (filename.bytes.drop l)
        (UInt8.ofNat (filenameLen - l))
      match ← allocating (some me) with
      | none => return (none, ctx)
      | some me =>
        match ← fileSize filename with
        | none => return (none, ctx)
        | some ds =>
          match braMetaEntryFileSet me ds with
          | none => return (none, ctx)
          | some me =>
            let (me, f) ← braIoFileMetaEntryFlushEntryFile qsortR ctx.f me filename
            return (me, { ctx with f })

/-- `_bra_io_file_ctx_write_meta_entry_dir_subdir`. -/
def braIoFileCtxWriteMetaEntryDirSubdir (ctx : IoFileCtx) (attributes : UInt8)
    (dirname : CStr) : StdioM (Option MetaEntry × IoFileCtx) :=
  if braAttrType attributes ≠ .subdir ∧ braAttrType attributes ≠ .dir then return (none, ctx)
  else do
    let attributes := braAttrSetComp attributes braAttrCompStored
    match ← allocating (braTreeDirAdd ctx.tree dirname) with
    | none => return (none, ctx)
    | some (node, tree) =>
      match node.parent with
      | none => return (none, ctx)
      | some parent =>
        let attributes := braAttrSetType attributes (if parent.index = 0 then .dir else .subdir)
        if node.dirname.bytes.length > 255 then return (none, ctx)
        else
          let me := braMetaEntryInit attributes node.dirname.bytes
            (UInt8.ofNat node.dirname.bytes.length)
          match ← allocating (some me) with
          | none => return (none, ctx)
          | some me =>
            match braComputeHeaderCrc32 dirname.bytes.length (dirname.bytes ++ [0]) me with
            | none => return (none, ctx)
            | some me =>
              let me :=
                if braAttrType me.attributes = .subdir then
                  (braMetaEntrySubdirSet me parent.index).map MetaEntry.addParentIndex
                else some me
              match me with
              | none => return (none, ctx)
              | some me =>
                match ← allocating (some dirname) with
                | none => return (none, ctx)
                | some lastDir =>
                  let ctx := { ctx with
                    tree
                    lastDirNode := node
                    lastDir
                    lastDirSize := lastDir.bytes.length }
                  match braAttrType me.attributes with
                  | .dir =>
                    let (ok, f) ← braIoFileMetaEntryFlushEntryDir ctx.f me
                    return (if ok then some me else none, { ctx with f })
                  | .subdir =>
                    let (ok, f) ← braIoFileMetaEntryFlushEntrySubdir ctx.f me
                    return (if ok then some me else none, { ctx with f })
                  | _ => return (none, ctx)

/-- The error label of `bra_io_file_ctx_write_meta_entry`. -/
def writeError (ctx : IoFileCtx) : StdioM (Bool × IoFileCtx) := do
  let f ← braIoFileError ctx.f
  return (false, { ctx with f })

/-- The entry without its checksum. -/
def writeEntryData (ctx : IoFileCtx) (attributes : UInt8) (fn : CStr) :
    StdioM (Option MetaEntry × IoFileCtx) :=
  match braAttrType attributes with
  | .file => braIoFileCtxWriteMetaEntryFile qsortR ctx attributes fn
  | .dir => braIoFileCtxWriteMetaEntryDirSubdir ctx attributes fn
  | .subdir => braIoFileCtxWriteMetaEntryDirSubdir ctx attributes fn
  | .sym => return (none, ctx)

/-- `bra_io_file_ctx_write_meta_entry`. -/
def braIoFileCtxWriteMetaEntry (ctx : IoFileCtx) (attributes : UInt8) (fn : CStr) :
    StdioM (Bool × IoFileCtx) := do
  let (me, ctx) ← writeEntryData qsortR ctx attributes fn
  match me with
  | none => writeError ctx
  | some me =>
    let (ok, f) ← braIoFileWrite ctx.f (leBytes 4 me.crc32.toNat)
    if !ok then writeError { ctx with f }
    else return (true, { ctx with f })

/-- `bra_io_file_ctx_encode_and_write_to_disk`. -/
def braIoFileCtxEncodeAndWriteToDisk (ctx : IoFileCtx) (fn : CStr) (compress : Bool) :
    StdioM (Bool × IoFileCtx) := do
  match ← fileAttributes fn with
  | none =>
    let f ← braIoFileClose ctx.f
    return (false, { ctx with f })
  | some attributes =>
    let attributes :=
      if compress && braAttrType attributes == .file then
        braAttrSetComp attributes braAttrCompCompressed
      else braAttrSetComp attributes braAttrCompStored
    braIoFileCtxWriteMetaEntry qsortR ctx attributes fn

end Write

/-! ## What they own -/

section MetaEntries
variable {f : BraIoFile}

theorem closeFile_wp {α : Type} {f₀ : BraIoFile} (f : BraIoFile) :
    (closeFile f : StdioM (Option α × BraIoFile)).wp (fun r => Passed f₀ r.1.isSome r.2) f.held :=
  closing_wp _ ⟨rfl, nofun⟩

theorem braIoFileMetaEntryReadCommonHeader_wp (hf : f.IsOpen) :
    (braIoFileMetaEntryReadCommonHeader f).wp (fun r => Passed f r.1.isSome r.2) f.held := by
  refine Prog.wp_bind.mpr (Prog.wp_mono (braIoFileRead_wp hf _) ?_)
  rintro ⟨_ | attr, f₁⟩ own ⟨rfl, hf₁⟩
  · exact closeFile_wp f₁
  obtain rfl := hf₁ rfl
  refine Prog.wp_bind.mpr (Prog.wp_mono (braIoFileRead_wp hf _) ?_)
  rintro ⟨_ | bufSize, f₂⟩ own ⟨rfl, hf₂⟩
  · exact closeFile_wp f₂
  obtain rfl := hf₂ rfl
  dsimp only
  split
  · exact closeFile_wp f₂
  refine Prog.wp_bind.mpr (Prog.wp_mono (braIoFileRead_wp hf _) ?_)
  rintro ⟨_ | buf, f₃⟩ own ⟨rfl, hf₃⟩
  · exact closeFile_wp f₃
  obtain rfl := hf₃ rfl
  refine Prog.wp_bind.mpr (Prog.wp_mono (allocating_wp _ _) ?_)
  rintro (_ | me) _ rfl
  · exact closeFile_wp f₃
  · exact ⟨rfl, fun _ => rfl⟩

theorem braIoFileMetaEntryWriteCommonHeader_wp (hf : f.IsOpen) (me : MetaEntry) :
    (braIoFileMetaEntryWriteCommonHeader f me).wp (fun r => Passed f r.1 r.2) f.held := by
  refine Prog.wp_bind.mpr (Prog.wp_mono (braIoFileWrite_wp hf _) ?_)
  rintro ⟨_ | _, f₁⟩ own ⟨rfl, hf₁⟩
  · exact ⟨rfl, nofun⟩
  obtain rfl := hf₁ rfl
  refine Prog.wp_bind.mpr (Prog.wp_mono (braIoFileWrite_wp hf _) ?_)
  rintro ⟨_ | _, f₂⟩ own ⟨rfl, hf₂⟩
  · exact ⟨rfl, nofun⟩
  obtain rfl := hf₂ rfl
  exact braIoFileWrite_wp hf _

theorem braIoFileMetaEntryReadFileEntry_wp (hf : f.IsOpen) (me : MetaEntry) :
    (braIoFileMetaEntryReadFileEntry f me).wp (fun r => Passed f r.1.isSome r.2) f.held := by
  rw [braIoFileMetaEntryReadFileEntry]
  split
  · exact closeFile_wp f
  refine Prog.wp_bind.mpr (Prog.wp_mono (braIoFileRead_wp hf _) ?_)
  rintro ⟨_ | dataSize, f₁⟩ own ⟨rfl, hf₁⟩
  · exact ⟨rfl, nofun⟩
  · exact ⟨rfl, fun _ => hf₁ rfl⟩

theorem braIoFileMetaEntryReadSubdirEntry_wp (hf : f.IsOpen) (me : MetaEntry) :
    (braIoFileMetaEntryReadSubdirEntry f me).wp (fun r => Passed f r.1.isSome r.2) f.held := by
  rw [braIoFileMetaEntryReadSubdirEntry]
  split
  · exact closeFile_wp f
  split
  · exact closeFile_wp f
  refine Prog.wp_bind.mpr (Prog.wp_mono (braIoFileRead_wp hf _) ?_)
  rintro ⟨_ | parentIndex, f₁⟩ own ⟨rfl, hf₁⟩
  · exact ⟨rfl, nofun⟩
  · exact ⟨rfl, fun _ => hf₁ rfl⟩

theorem braIoFileMetaEntryWriteSubdirEntry_wp (hf : f.IsOpen) (me : MetaEntry) :
    (braIoFileMetaEntryWriteSubdirEntry f me).wp (fun r => Passed f r.1 r.2) f.held := by
  rw [braIoFileMetaEntryWriteSubdirEntry]
  split
  · exact closing_wp _ ⟨rfl, nofun⟩
  · exact braIoFileWrite_wp hf _

theorem braIoFileMetaEntryFlushEntryDir_wp (hf : f.IsOpen) (me : MetaEntry) :
    (braIoFileMetaEntryFlushEntryDir f me).wp (fun r => Passed f r.1 r.2) f.held := by
  rw [braIoFileMetaEntryFlushEntryDir]
  split
  · exact closing_wp _ ⟨rfl, nofun⟩
  · exact braIoFileMetaEntryWriteCommonHeader_wp hf me

theorem braIoFileMetaEntryFlushEntrySubdir_wp (hf : f.IsOpen) (me : MetaEntry) :
    (braIoFileMetaEntryFlushEntrySubdir f me).wp (fun r => Passed f r.1 r.2) f.held := by
  refine Prog.wp_bind.mpr (Prog.wp_mono (braIoFileMetaEntryFlushEntryDir_wp hf me) ?_)
  rintro ⟨_ | _, f₁⟩ own ⟨rfl, hf₁⟩
  · exact ⟨rfl, nofun⟩
  obtain rfl := hf₁ rfl
  exact braIoFileMetaEntryWriteSubdirEntry_wp hf me

/-! ### Flushing a file -/

theorem flushError_wp {f₀ f2 : BraIoFile} {own : Multiset Handle} (hown : own = f.held + f2.held) :
    (flushError f f2).wp (fun r => Passed f₀ r.1.isSome r.2) own := by
  refine Prog.wp_step f2.held (braIoFileClose_wp f) hown ?_
  rintro _ _ ⟨rfl, rfl⟩
  refine Prog.wp_step 0 (braIoFileClose_wp f2) (add_comm _ _) ?_
  rintro _ _ ⟨rfl, rfl⟩
  exact ⟨rfl, nofun⟩

/-- When the contents are written, the file they come from is closed. -/
theorem closeSource_wp (f f2 : BraIoFile) (me : MetaEntry) :
    (do
      let _ ← braIoFileClose f2
      return (some me, f) : StdioM (Option MetaEntry × BraIoFile)).wp
        (fun r => Passed f r.1.isSome r.2) (f.held + f2.held) := by
  refine Prog.wp_step f.held (braIoFileClose_wp f2) (add_comm _ _) ?_
  rintro _ _ ⟨rfl, rfl⟩
  exact ⟨zero_add _, fun _ => rfl⟩

/-- The contents of a stored file: its size, and a copy. -/
theorem storeContents_wp {f2 : BraIoFile} (hf : f.IsOpen) (hf2 : f2.IsOpen) (me : MetaEntry) :
    (do
      let written ← braIoFileMetaEntryWriteFileEntry f me
      if !written.1 then flushError written.2 f2
      else
        let r ← braIoFileChunksCopyFile written.2 f2 me.dataSize me true
        if !r.res then return (none, r.dst)
        else
          let _ ← braIoFileClose r.src
          return (some r.me, r.dst) : StdioM (Option MetaEntry × BraIoFile)).wp
        (fun r => Passed f r.1.isSome r.2) (f.held + f2.held) := by
  refine Prog.wp_step f2.held (braIoFileMetaEntryWriteFileEntry_wp hf _) rfl ?_
  rintro ⟨_ | _, f₂⟩ own ⟨rfl, hf₂⟩
  · exact flushError_wp rfl
  obtain rfl := hf₂ rfl
  refine Prog.wp_bind.mpr (Prog.wp_mono (braIoFileChunksCopyFile_wp hf hf2 _ _ _) ?_)
  rintro ⟨_ | _, f₃, f2', me'⟩ own ⟨rfl, hok, hclosed, -⟩
  · obtain ⟨rfl, rfl⟩ := hclosed rfl
    exact ⟨rfl, nofun⟩
  · obtain ⟨rfl, rfl⟩ := hok rfl
    exact closeSource_wp f₃ f2' me'

/-- The contents of a compressed file, or the call that stores it: of that call it is only assumed
that the file is not to be compressed again. -/
theorem compressContents_wp (qsortR : QsortR) {f2 : BraIoFile} (hf : f.IsOpen) (hf2 : f2.IsOpen)
    (mePos : Int) (me : MetaEntry)
    {again : BraIoFile → MetaEntry → StdioM (Option MetaEntry × BraIoFile)}
    (hagain : ∀ me', braAttrComp me'.attributes ≠ braAttrCompCompressed →
      (again f me').wp (fun r => Passed f r.1.isSome r.2) f.held) :
    (do
      let r ← braIoFileChunksCompressFile qsortR f f2 me.dataSize me
      if !r.res then
        if me.attributes ≠ r.me.attributes then
          let ok ← braIoFileSeek r.dst mePos .set
          if !ok then flushError r.dst r.src
          else
            let _ ← braIoFileClose r.src
            again r.dst r.me
        else flushError r.dst r.src
      else
        let _ ← braIoFileClose r.src
        return (some r.me, r.dst) : StdioM (Option MetaEntry × BraIoFile)).wp
          (fun r => Passed f r.1.isSome r.2) (f.held + f2.held) := by
  refine Prog.wp_bind.mpr (Prog.wp_mono (braIoFileChunksCompressFile_wp qsortR hf hf2 _ _) ?_)
  rintro ⟨_ | _, f₃, f2', me'⟩ own ⟨rfl, hok, hattr⟩
  · dsimp only
    rw [if_pos (by rfl)]
    split
    swap
    · exact flushError_wp rfl
    rename_i hne
    obtain ⟨rfl, rfl⟩ := hok (.inr (Ne.symm hne))
    refine Prog.wp_step f2'.held (braIoFileSeek_wp hf _ _) rfl ?_
    rintro (_ | _) _ rfl
    · exact flushError_wp rfl
    refine Prog.wp_step f₃.held (braIoFileClose_wp f2') (add_comm _ _) ?_
    rintro _ _ ⟨rfl, rfl⟩
    rw [zero_add]
    refine hagain me' ?_
    rw [hattr.resolve_left (Ne.symm hne), braAttrComp_setComp_stored]
    decide
  · obtain ⟨rfl, rfl⟩ := hok (.inl rfl)
    exact closeSource_wp f₃ f2' me'

/-- **Flushing a file**, with as many nested calls as are needed: two, or one if the file is not
to be compressed. -/
theorem flushEntryFile_wp {qsortR : QsortR} {filename : CStr} {depth : Nat} (hf : f.IsOpen)
    {me : MetaEntry} (hdepth : 1 < depth ∨
      0 < depth ∧ braAttrComp me.attributes ≠ braAttrCompCompressed) :
    (flushEntryFile qsortR filename depth f me).wp (fun r => Passed f r.1.isSome r.2) f.held := by
  induction depth generalizing f me with
  | zero => omega
  | succ depth ih =>
    rw [flushEntryFile]
    split
    · exact closeFile_wp f
    split
    · exact closeFile_wp f
    rename_i me₁ hheader
    refine Prog.wp_bind.mpr (Prog.wp_mono (braIoFileTell_wp hf) ?_)
    rintro mePos _ rfl
    dsimp only
    split
    · exact closeFile_wp f
    refine Prog.wp_bind.mpr (Prog.wp_mono (braIoFileMetaEntryWriteCommonHeader_wp hf me₁) ?_)
    rintro ⟨_ | _, f₁⟩ own ⟨rfl, hf₁⟩
    · exact ⟨rfl, nofun⟩
    obtain rfl := hf₁ rfl
    refine Prog.wp_step f₁.held (braIoFileOpen_wp filename false) (zero_add _).symm ?_
    rintro ⟨_ | _, f2⟩ own ⟨rfl, hopen, hfail⟩
    · obtain rfl := hfail rfl
      rw [BraIoFile.closed_held, zero_add]
      exact closeFile_wp f₁
    have hf2 : f2.IsOpen := hopen rfl
    rw [add_comm (BraIoFile.held _)]
    dsimp only
    rw [if_neg (by simp)]
    split
    · exact storeContents_wp hf hf2 _
    split
    · rename_i hcomp
      refine compressContents_wp qsortR hf hf2 _ me₁ fun me' hstored => ih hf (.inr ⟨?_, hstored⟩)
      -- this call was to compress the file, and the next one stores it
      have hcomp' : braAttrComp me.attributes = braAttrCompCompressed := by
        rw [← hcomp, braComputeHeaderCrc32_fields hheader]
      have hdepth' : 1 < depth + 1 := hdepth.resolve_right fun h => h.2 hcomp'
      exact Nat.lt_of_succ_lt_succ hdepth'
    · exact flushError_wp rfl

end MetaEntries

/-! ### Contexts -/

section Contexts
variable {ctx : IoFileCtx}

/-- An entry ends with the archive as it was, or with a closed one. -/
structure Ended (f : BraIoFile) (r : Bool × IoFileCtx) (own : Multiset Handle) : Prop where
  own_eq : own = r.2.f.held
  eq_of_ok : r.1 = true → r.2.f = f
  closed : r.1 = false → r.2.f = .closed

theorem decodeError_wp {f₀ : BraIoFile} (ctx : IoFileCtx) :
    (decodeError ctx).wp (Ended f₀) ctx.f.held :=
  closing_wp _ ⟨rfl, nofun, fun _ => rfl⟩

theorem braIoFileCtxReadMetaEntry_wp (hf : ctx.f.IsOpen) :
    (braIoFileCtxReadMetaEntry ctx).wp (fun r => Passed ctx.f r.1.isSome r.2.f) ctx.f.held := by
  refine Prog.wp_bind.mpr (Prog.wp_mono (braIoFileMetaEntryReadCommonHeader_wp hf) ?_)
  rintro ⟨_ | me, f⟩ own ⟨rfl, hf₁⟩
  · exact ⟨rfl, nofun⟩
  obtain rfl := hf₁ rfl
  dsimp only
  split
  · refine Prog.wp_bind.mpr (Prog.wp_mono (braIoFileMetaEntryReadSubdirEntry_wp hf me) ?_)
    rintro ⟨_ | me', f⟩ own ⟨rfl, hf₂⟩
    · exact ⟨rfl, nofun⟩
    obtain rfl := hf₂ rfl
    refine Prog.wp_bind.mpr (Prog.wp_mono (allocating_wp _ _) ?_)
    rintro (_ | ⟨node, tree⟩) _ rfl
    · exact closing_wp _ ⟨rfl, nofun⟩
    · exact ⟨rfl, fun _ => rfl⟩
  · refine Prog.wp_bind.mpr (Prog.wp_mono (allocating_wp _ _) ?_)
    rintro (_ | ⟨node, tree⟩) _ rfl
    · exact closing_wp _ ⟨rfl, nofun⟩
    · exact ⟨rfl, fun _ => rfl⟩
  · refine Prog.wp_bind.mpr (Prog.wp_mono (braIoFileMetaEntryReadFileEntry_wp hf me) ?_)
    rintro ⟨me', f⟩ own hpassed
    exact hpassed
  · exact ⟨rfl, nofun⟩

theorem finishEntry_wp (hf : ctx.f.IsOpen) (me : MetaEntry) :
    (finishEntry ctx me).wp (Ended ctx.f) ctx.f.held := by
  refine Prog.wp_bind.mpr (Prog.wp_mono (braIoFileRead_wp hf _) ?_)
  rintro ⟨_ | crc32, f⟩ own ⟨rfl, hf₁⟩
  · exact decodeError_wp { ctx with f }
  obtain rfl := hf₁ rfl
  dsimp only
  split
  · exact decodeError_wp ctx
  · exact ⟨rfl, fun _ => rfl, nofun⟩

theorem extractDir_wp (hf : ctx.f.IsOpen) (fn : CStr) (me : MetaEntry) :
    (extractDir ctx fn me).wp (Ended ctx.f) ctx.f.held := by
  refine Prog.wp_bind.mpr fun there => ?_
  cases there with
  | true => exact finishEntry_wp hf me
  | false =>
    refine Prog.wp_bind.mpr fun made => ?_
    cases made with
    | true => exact finishEntry_wp hf me
    | false => exact decodeError_wp ctx

/-- After the contents of a file: both files are closed, or only the one on disk. -/
theorem afterContents_wp {f2 : BraIoFile} {me : MetaEntry} {r : ChunksResult}
    {own : Multiset Handle} (hf : ctx.f.IsOpen) (hpassed : BothPassed f2 ctx.f me r own) :
    (if !r.res then decodeError { ctx with f := r.src }
      else do
        let _ ← braIoFileClose r.dst
        finishEntry { ctx with f := r.src } r.me).wp (Ended ctx.f) own := by
  obtain ⟨rfl, hok, hclosed, -⟩ := hpassed
  obtain ⟨_ | _, dst, src, me'⟩ := r
  · obtain ⟨rfl, rfl⟩ := hclosed rfl
    exact decodeError_wp { ctx with f := .closed }
  · obtain ⟨rfl, rfl⟩ := hok rfl
    refine Prog.wp_step ctx.f.held (braIoFileClose_wp dst) rfl ?_
    rintro _ _ ⟨rfl, rfl⟩
    rw [zero_add]
    exact finishEntry_wp hf me'

theorem extractFile_wp (hf : ctx.f.IsOpen) (fn : CStr) (me : MetaEntry) :
    (extractFile ctx fn me).wp (Ended ctx.f) ctx.f.held := by
  refine Prog.wp_step ctx.f.held (braIoFileOpen_wp fn true) (zero_add _).symm ?_
  rintro ⟨_ | _, f2⟩ own ⟨rfl, hopen, hfail⟩
  · obtain rfl := hfail rfl
    rw [BraIoFile.closed_held, zero_add]
    exact decodeError_wp ctx
  have hf2 : f2.IsOpen := hopen rfl
  dsimp only
  rw [if_neg (by simp)]
  split
  · refine Prog.wp_bind.mpr (Prog.wp_mono (braIoFileChunksCopyFile_wp hf2 hf _ _ _) ?_)
    exact fun r own hpassed => afterContents_wp hf hpassed
  split
  · refine Prog.wp_bind.mpr (Prog.wp_mono (braIoFileChunksDecompressFile_wp hf2 hf _ _ _) ?_)
    exact fun r own hpassed => afterContents_wp hf hpassed
  · refine Prog.wp_step ctx.f.held (braIoFileClose_wp f2) rfl ?_
    rintro _ _ ⟨rfl, rfl⟩
    rw [zero_add]
    exact decodeError_wp ctx

/-- **Decoding an entry** closes what it opens, and the archive if it fails. -/
theorem braIoFileCtxDecodeAndWriteToDisk_wp (hf : ctx.f.IsOpen) :
    (braIoFileCtxDecodeAndWriteToDisk ctx).wp (Ended ctx.f) ctx.f.held := by
  refine Prog.wp_bind.mpr (Prog.wp_mono (braIoFileCtxReadMetaEntry_wp hf) ?_)
  rintro ⟨_ | me, ctx'⟩ own ⟨rfl, hctx'⟩
  · exact decodeError_wp ctx'
  have hf' : ctx'.f = ctx.f := hctx' rfl
  rw [← hf'] at hf ⊢
  refine Prog.wp_bind.mpr (Prog.wp_mono (allocating_wp _ _) ?_)
  rintro (_ | ⟨buf, len⟩) _ rfl
  · exact decodeError_wp ctx'
  dsimp only
  split
  · exact decodeError_wp ctx'
  split
  · refine Prog.wp_bind.mpr fun overwrite => ?_
    cases overwrite with
    | true => exact extractFile_wp hf (CStr.ofBuffer buf) _
    | false =>
      refine Prog.wp_bind.mpr (Prog.wp_mono (braIoFileSkipData_wp hf _) ?_)
      rintro ⟨_ | _, f⟩ own ⟨rfl, hf₁⟩
      · exact decodeError_wp { ctx' with f }
      · exact ⟨rfl, hf₁, nofun⟩
  · exact extractDir_wp hf (CStr.ofBuffer buf) _
  · exact extractDir_wp hf (CStr.ofBuffer buf) _
  · exact decodeError_wp ctx'

theorem fileSize_wp (fn : CStr) (own : Multiset Handle) :
    (fileSize fn).wp (fun _ own' => own' = own) own := fun _ => rfl

theorem fileAttributes_wp (fn : CStr) (own : Multiset Handle) :
    (fileAttributes fn).wp (fun _ own' => own' = own) own := fun _ => rfl

theorem braIoFileCtxWriteMetaEntryFile_wp (qsortR : QsortR) (hf : ctx.f.IsOpen)
    (attributes : UInt8) (filename : CStr) :
    (braIoFileCtxWriteMetaEntryFile qsortR ctx attributes filename).wp
      (fun r => Passed ctx.f r.1.isSome r.2.f) ctx.f.held := by
  have hnone : (Pure.pure (none, ctx) : StdioM (Option MetaEntry × IoFileCtx)).wp
      (fun r => Passed ctx.f r.1.isSome r.2.f) ctx.f.held := ⟨rfl, nofun⟩
  rw [braIoFileCtxWriteMetaEntryFile]
  dsimp only
  split
  · exact hnone
  split
  · exact hnone
  split
  · exact hnone
  split
  · exact hnone
  generalize (if charAt filename.bytes ctx.lastDirSize = braDirDelim then ctx.lastDirSize + 1
    else ctx.lastDirSize) = l
  split
  · exact hnone
  refine Prog.wp_bind.mpr (Prog.wp_mono (allocating_wp _ _) ?_)
  rintro (_ | me) _ rfl
  · exact hnone
  refine Prog.wp_bind.mpr (Prog.wp_mono (fileSize_wp filename _) ?_)
  rintro (_ | ds) _ rfl
  · exact hnone
  dsimp only
  split
  · exact hnone
  refine Prog.wp_bind.mpr (Prog.wp_mono (flushEntryFile_wp hf (.inl one_lt_two)) ?_)
  rintro ⟨me', f⟩ own hpassed
  exact hpassed

theorem braIoFileCtxWriteMetaEntryDirSubdir_wp (hf : ctx.f.IsOpen) (attributes : UInt8)
    (dirname : CStr) :
    (braIoFileCtxWriteMetaEntryDirSubdir ctx attributes dirname).wp
      (fun r => Passed ctx.f r.1.isSome r.2.f) ctx.f.held := by
  have hnone : (Pure.pure (none, ctx) : StdioM (Option MetaEntry × IoFileCtx)).wp
      (fun r => Passed ctx.f r.1.isSome r.2.f) ctx.f.held := ⟨rfl, nofun⟩
  rw [braIoFileCtxWriteMetaEntryDirSubdir]
  split
  · exact hnone
  refine Prog.wp_bind.mpr (Prog.wp_mono (allocating_wp _ _) ?_)
  rintro (_ | ⟨node, tree⟩) _ rfl
  · exact hnone
  dsimp only
  split
  · exact hnone
  split
  · exact hnone
  refine Prog.wp_bind.mpr (Prog.wp_mono (allocating_wp _ _) ?_)
  rintro (_ | me) _ rfl
  · exact hnone
  dsimp only
  split
  · exact hnone
  rename_i me₁ _
  -- up to here no handle has been touched, whatever fails
  generalize (if braAttrType me₁.attributes = .subdir then _ else _ : Option MetaEntry) = me₂
  cases me₂ with
  | none => exact hnone
  | some me₂ =>
    refine Prog.wp_bind.mpr (Prog.wp_mono (allocating_wp _ _) ?_)
    rintro (_ | lastDir) _ rfl
    · exact hnone
    dsimp only
    split
    · refine Prog.wp_bind.mpr (Prog.wp_mono (braIoFileMetaEntryFlushEntryDir_wp hf me₂) ?_)
      rintro ⟨_ | _, f⟩ own ⟨rfl, hok⟩
      · exact ⟨rfl, nofun⟩
      · exact ⟨rfl, fun _ => hok rfl⟩
    · refine Prog.wp_bind.mpr (Prog.wp_mono (braIoFileMetaEntryFlushEntrySubdir_wp hf me₂) ?_)
      rintro ⟨_ | _, f⟩ own ⟨rfl, hok⟩
      · exact ⟨rfl, nofun⟩
      · exact ⟨rfl, fun _ => hok rfl⟩
    · exact ⟨rfl, nofun⟩

theorem writeEntryData_wp (qsortR : QsortR) (hf : ctx.f.IsOpen) (attributes : UInt8)
    (fn : CStr) : (writeEntryData qsortR ctx attributes fn).wp
      (fun r => Passed ctx.f r.1.isSome r.2.f) ctx.f.held := by
  rw [writeEntryData]
  split
  · exact braIoFileCtxWriteMetaEntryFile_wp qsortR hf attributes fn
  · exact braIoFileCtxWriteMetaEntryDirSubdir_wp hf attributes fn
  · exact braIoFileCtxWriteMetaEntryDirSubdir_wp hf attributes fn
  · exact ⟨rfl, nofun⟩

/-- **Encoding an entry** closes what it opens, and the archive if it fails. -/
theorem braIoFileCtxEncodeAndWriteToDisk_wp (qsortR : QsortR) (hf : ctx.f.IsOpen) (fn : CStr)
    (compress : Bool) :
    (braIoFileCtxEncodeAndWriteToDisk qsortR ctx fn compress).wp (Ended ctx.f) ctx.f.held := by
  refine Prog.wp_bind.mpr (Prog.wp_mono (fileAttributes_wp fn _) ?_)
  rintro (_ | attributes) _ rfl
  · exact decodeError_wp ctx
  dsimp only
  generalize (if compress && braAttrType attributes == .file then _ else _) = attributes
  refine Prog.wp_bind.mpr (Prog.wp_mono (writeEntryData_wp qsortR hf attributes fn) ?_)
  rintro ⟨_ | me, ctx'⟩ own ⟨rfl, hctx'⟩
  · exact decodeError_wp ctx'
  have hf' : ctx'.f = ctx.f := hctx' rfl
  rw [← hf'] at hf ⊢
  refine Prog.wp_bind.mpr (Prog.wp_mono (braIoFileWrite_wp hf _) ?_)
  rintro ⟨_ | _, f⟩ own ⟨rfl, hok⟩
  · exact decodeError_wp { ctx' with f }
  · exact ⟨rfl, hok, nofun⟩

end Contexts

/-! ## Whole runs -/

/-- The loop of `bra` that writes the entries. -/
def encodeEntries (qsortR : QsortR) (compress : Bool) :
    List CStr → IoFileCtx → StdioM (Bool × IoFileCtx)
  | [], ctx => return (true, ctx)
  | fn :: fns, ctx => do
    let (ok, ctx) ← braIoFileCtxEncodeAndWriteToDisk qsortR ctx fn compress
    if !ok then return (false, ctx)
    else encodeEntries qsortR compress fns ctx

/-- The loop of `unbra` that extracts entries. -/
def decodeEntries : Nat → IoFileCtx → StdioM (Bool × IoFileCtx)
  | 0, ctx => return (true, ctx)
  | n + 1, ctx => do
    let (ok, ctx) ← braIoFileCtxDecodeAndWriteToDisk ctx
    if !ok then return (false, ctx)
    else decodeEntries n ctx

theorem Ended.trans {f : BraIoFile} {p : StdioM (Bool × IoFileCtx)}
    {next : IoFileCtx → StdioM (Bool × IoFileCtx)} {own : Multiset Handle}
    (hp : p.wp (Ended f) own) (hnext : ∀ ctx, ctx.f = f → (next ctx).wp (Ended f) f.held) :
    (do
      let (ok, ctx) ← p
      if !ok then return (false, ctx)
      else next ctx).wp (Ended f) own := by
  refine Prog.wp_bind.mpr (Prog.wp_mono hp ?_)
  rintro ⟨_ | _, ctx⟩ own ⟨rfl, hok, hclosed⟩
  · exact ⟨rfl, nofun, hclosed⟩
  · have hf : ctx.f = f := hok rfl
    rw [hf]
    exact hnext ctx hf

theorem encodeEntries_wp (qsortR : QsortR) (compress : Bool) (fns : List CStr) :
    ∀ ctx : IoFileCtx, ctx.f.IsOpen →
      (encodeEntries qsortR compress fns ctx).wp (Ended ctx.f) ctx.f.held := by
  induction fns with
  | nil => exact fun ctx _ => ⟨rfl, fun _ => rfl, nofun⟩
  | cons fn fns ih =>
    intro ctx hf
    refine Ended.trans (braIoFileCtxEncodeAndWriteToDisk_wp qsortR hf fn compress) ?_
    intro ctx' hctx'
    exact hctx' ▸ ih ctx' (hctx'.symm ▸ hf)

theorem decodeEntries_wp (n : Nat) : ∀ ctx : IoFileCtx, ctx.f.IsOpen →
    (decodeEntries n ctx).wp (Ended ctx.f) ctx.f.held := by
  induction n with
  | zero => exact fun ctx _ => ⟨rfl, fun _ => rfl, nofun⟩
  | succ n ih =>
    intro ctx hf
    refine Ended.trans (braIoFileCtxDecodeAndWriteToDisk_wp hf) ?_
    intro ctx' hctx'
    exact hctx' ▸ ih ctx' (hctx'.symm ▸ hf)

section Run
variable {W : Type}

/-- What a call does to handles: it uses open ones only and closes none twice, it closes those
that it opens and no others, but for the archive, which is open if and only if it succeeds. -/
structure HandlesKept (st : State W) (archive : Handle) (r : (Bool × IoFileCtx) × State W) :
    Prop where
  legal : Legal r.2.log
  closed_once : ∀ h log log', r.2.log = log' ++ .closed h :: log → .closed h ∉ log
  suffix : st.log <:+ r.2.log
  others : ∀ h, h ≠ archive → (IsOpen r.2.log h ↔ IsOpen st.log h)
  archive_iff : IsOpen r.2.log archive ↔ r.1.1 = true

theorem handlesKept_of_wp {p : StdioM (Bool × IoFileCtx)} {f : BraIoFile} {archive : Handle}
    (hf : f.f = some archive) (hp : p.wp (Ended f) f.held) (env : Env stdio W) {st : State W}
    (hst : st.Valid) (hopen : IsOpen st.log archive) : HandlesKept st archive (p.run env st) := by
  have hheld : f.held = {archive} := by rw [BraIoFile.held, hf]
  -- the other open handles are the frame of the run
  obtain ⟨own, howns⟩ := hst.exists_owns
  obtain ⟨rest, hrest⟩ := Multiset.exists_cons_of_mem ((howns.isOpen_iff archive).mp hopen)
  rw [hrest, ← Multiset.singleton_add, ← hheld] at howns
  obtain ⟨_, howns', own', rfl, hended⟩ := howns.run (Prog.wp_frame hp rest) env
  have hnotin : archive ∉ rest := by
    have hnodup := howns.nodup
    rw [hheld, Multiset.singleton_add, Multiset.nodup_cons] at hnodup
    exact hnodup.1
  have hmem : ∀ h, IsOpen (p.run env st).2.log h ↔
      (h = archive ∧ (p.run env st).1.1 = true) ∨ h ∈ rest := by
    intro h
    rw [howns'.isOpen_iff, Multiset.mem_add, hended.own_eq]
    refine or_congr ?_ Iff.rfl
    cases hok : (p.run env st).1.1 with
    | true => rw [hended.eq_of_ok hok, hheld, Multiset.mem_singleton, and_iff_left rfl]
    | false =>
      rw [hended.closed hok]
      exact ⟨fun hmem => absurd hmem (Multiset.notMem_zero h), fun hmem => absurd hmem.2 Bool.false_ne_true⟩
  have honce : ∀ h log log', (p.run env st).2.log = log' ++ .closed h :: log →
      .closed h ∉ log := fun h log log' heq => Legal.closed_once (heq ▸ howns'.legal)
  refine ⟨howns'.legal, honce, p.suffix_run env st, fun h hne => ?_, ?_⟩
  · rw [hmem, howns.isOpen_iff, hheld, Multiset.singleton_add, Multiset.mem_cons]
    exact or_congr (by simp [hne]) Iff.rfl
  · rw [hmem]
    exact ⟨fun h => (h.resolve_right hnotin).2, fun h => .inl ⟨rfl, h⟩⟩

/-- **Handles are kept.**  Whatever fails and whatever an archive holds, encoding and decoding
an entry, or as many as there are, use no handle that is not open, close none twice and leave
none behind: only that of the archive is open in the end, if they succeed. -/
theorem handles_kept (env : Env stdio W) {st : State W} (hst : st.Valid) {ctx : IoFileCtx}
    {archive : Handle} (hf : ctx.f = ⟨some archive, true⟩) (hopen : IsOpen st.log archive) :
    (∀ qsortR fn compress, HandlesKept st archive
      ((braIoFileCtxEncodeAndWriteToDisk qsortR ctx fn compress).run env st)) ∧
    HandlesKept st archive ((braIoFileCtxDecodeAndWriteToDisk ctx).run env st) ∧
    (∀ qsortR compress fns, HandlesKept st archive
      ((encodeEntries qsortR compress fns ctx).run env st)) ∧
    ∀ n, HandlesKept st archive ((decodeEntries n ctx).run env st) := by
  have hisOpen : ctx.f.IsOpen := by
    rw [hf]
    exact ⟨rfl, rfl⟩
  have harchive : ctx.f.f = some archive := congrArg BraIoFile.f hf
  refine ⟨fun qsortR fn compress => ?_, ?_, fun qsortR compress fns => ?_, fun n => ?_⟩
  · exact handlesKept_of_wp harchive
      (braIoFileCtxEncodeAndWriteToDisk_wp qsortR hisOpen fn compress) env hst hopen
  · exact handlesKept_of_wp harchive (braIoFileCtxDecodeAndWriteToDisk_wp hisOpen) env hst hopen
  · exact handlesKept_of_wp harchive (encodeEntries_wp qsortR compress fns ctx hisOpen) env hst hopen
  · exact handlesKept_of_wp harchive (decodeEntries_wp n ctx hisOpen) env hst hopen

end Run

/-- The environment in which call number `n` fails.  All others succeed, and files are empty on
disk and full of zeros in an archive. -/
def failingAt (n : Nat) : Env stdio Nat where
  acquire i _ _ := (i ≠ n, i + 1)
  use i _
    | .fread m => (if i = n then none else some ⟨List.replicate m 0, List.length_replicate⟩, i + 1)
    | .fwrite _ => (decide (i ≠ n), i + 1)
    | .fseeko _ _ => (decide (i ≠ n), i + 1)
    | .ftello => ((if i = n then -1 else 8 : Int), i + 1)
  close i _ := i + 1
  query i
    | .alloc => (decide (i ≠ n), i + 1)
    | .fileAttributes _ => (if i = n then none else some AttrType.file.bits, i + 1)
    | .fileSize _ => (if i = n then none else some 0, i + 1)
    | .fileExistsAskOverwrite _ => (decide (i ≠ n), i + 1)
    | .dirExists _ => (decide (i ≠ n), i + 1)
    | .dirMake _ => (decide (i ≠ n), i + 1)

/-- An archive that has just been opened. -/
def openedState : State Nat := ⟨0, 1, [.opened 0]⟩

theorem openedState_valid : openedState.Valid where
  legal := ⟨List.not_mem_nil, trivial⟩
  opened_lt h hmem := by
    cases List.mem_singleton.mp hmem
    exact one_pos

/-- Its context. -/
def openedCtx : IoFileCtx := ⟨⟨some 0, true⟩, CStr.ofBuffer [], 0, braTreeDirCreate, .root⟩

/-- The file `a`, compressed, where seeking back to its header fails. -/
theorem handles_kept_letter :
    HandlesKept openedState 0
        ((braIoFileCtxEncodeAndWriteToDisk QsortR.mergeSort openedCtx (CStr.ofBuffer [97]) true).run
          (failingAt 13) openedState) ∧
      HandlesKept openedState 0 ((braIoFileCtxDecodeAndWriteToDisk openedCtx).run (failingAt 13)
        openedState) := by
  have hf : openedCtx.f = ⟨some 0, true⟩ := rfl
  have hkept := handles_kept (failingAt 13) openedState_valid hf ⟨List.mem_cons_self, by decide⟩
  exact ⟨hkept.1 _ _ _, hkept.2.1⟩

end BrArchive.Stdio
