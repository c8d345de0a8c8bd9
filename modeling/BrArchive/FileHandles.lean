import BrArchive.HandlePrograms
import BrArchive.Chunks

/-! # File handles

`lib_bra_io_file.c` and `lib_bra_io_file_chunks.c` once more, as programs that hold handles:
a `bra_io_file_t` is two pointers, and every call of `stdio` and every allocation may fail.
What is read from a file is up to the environment, and so may be anything.
-/
namespace BrArchive.Stdio
open HandlePrograms

/-! ## The calls -/

/-- Opening a file. -/
inductive OpenCall where
  /-- `fopen` with the mode `"wb"` or `"rb"`. -/
  | fopen (fn : CStr) (write : Bool)
  | tmpfile

/-- The origin of a seek. -/
inductive Origin where
  | set
  | cur

/-- Operations on a `FILE*`. -/
inductive FileCall where
  | fread (n : Nat)
  | fwrite (buf : Bytes)
  | fseeko (offs : Int) (origin : Origin)
  | ftello

/-- Whether all was read or written, or the position, negative on failure. -/
def FileCall.Answer : FileCall → Type
  | fread n => Option { buf : Bytes // buf.length = n }
  | fwrite _ => Bool
  | fseeko _ _ => Bool
  | ftello => Int

/-- Memory, and the functions of `bra_fs_c.cpp`. -/
inductive Question where
  /-- `_bra_strdup`, or another allocation. -/
  | alloc
  | fileAttributes (fn : CStr)
  | fileSize (fn : CStr)
  | fileExistsAskOverwrite (fn : CStr)
  | dirExists (fn : CStr)
  | dirMake (fn : CStr)

/-- What they return; no memory and no file is `false` or nothing. -/
def Question.Answer : Question → Type
  | alloc => Bool
  | fileAttributes _ => Option UInt8
  | fileSize _ => Option Nat
  | fileExistsAskOverwrite _ => Bool
  | dirExists _ => Bool
  | dirMake _ => Bool

/-- `stdio` and the file system. -/
def stdio : Interface where
  Open := OpenCall
  Use := FileCall
  UseAnswer := FileCall.Answer
  Query := Question
  QueryAnswer := Question.Answer

/-- Programs that call them. -/
abbrev StdioM := Prog stdio

/-- `bra_io_file_t`: a `FILE*`, and whether there is a copy of the name. -/
structure BraIoFile where
  f : Option Handle
  fn : Bool
  deriving DecidableEq, Repr

def fread (f : BraIoFile) (n : Nat) : StdioM (Option { buf : Bytes // buf.length = n }) :=
  .use f.f (.fread n) .pure

def fwrite (f : BraIoFile) (buf : Bytes) : StdioM Bool := .use f.f (.fwrite buf) .pure

def alloc : StdioM Bool := .query .alloc .pure

/-- A function that allocates memory. -/
def allocating {α : Type} (a : Option α) : StdioM (Option α) := do
  if ← alloc then return a
  else return none

/-! ## `lib_bra_io_file.c` -/

/-- `bra_io_file_close`. -/
def braIoFileClose (f : BraIoFile) : StdioM BraIoFile :=
  match f.f with
  | some h => .close h (.pure ⟨none, false⟩)
  | none => .pure ⟨none, false⟩

/-- `bra_io_file_error`, under any of its names. -/
def braIoFileError (f : BraIoFile) : StdioM BraIoFile := braIoFileClose f

/-- The end of `bra_io_file_open` and `bra_io_file_tmp_open`. -/
def finishOpen (f : Option Handle) : StdioM (Bool × BraIoFile) := do
  let fn ← alloc
  if f.isNone || !fn then
    let f ← braIoFileError ⟨f, fn⟩
    return (false, f)
  else return (true, ⟨f, fn⟩)

/-- `bra_io_file_open`. -/
def braIoFileOpen (fn : CStr) (write : Bool) : StdioM (Bool × BraIoFile) :=
  .acquire (.fopen fn write) finishOpen

/-- `bra_io_file_tmp_open`. -/
def braIoFileTmpOpen : StdioM (Bool × BraIoFile) := .acquire .tmpfile finishOpen

/-- `bra_io_file_seek`. -/
def braIoFileSeek (f : BraIoFile) (offs : Int) (origin : Origin) : StdioM Bool :=
  .use f.f (.fseeko offs origin) .pure

/-- `bra_io_file_tell`. -/
def braIoFileTell (f : BraIoFile) : StdioM Int := .use f.f .ftello .pure

/-- `bra_io_file_read`. -/
def braIoFileRead (src : BraIoFile) (bufSize : Nat) : StdioM (Option Bytes × BraIoFile) := do
  match ← fread src bufSize with
  | some buf => return (some buf.1, src)
  | none =>
    let src ← braIoFileError src
    return (none, src)

/-- `bra_io_file_write`. -/
def braIoFileWrite (dst : BraIoFile) (buf : Bytes) : StdioM (Bool × BraIoFile) := do
  if ← fwrite dst buf then return (true, dst)
  else
    let dst ← braIoFileError dst
    return (false, dst)

/-- `bra_io_file_skip_data`. -/
def braIoFileSkipData (f : BraIoFile) (dataSize : Nat) : StdioM (Bool × BraIoFile) := do
  if ← braIoFileSeek f (toInt64 dataSize) .cur then return (true, f)
  else
    let f ← braIoFileError f
    return (false, f)

/-! ## `lib_bra_io_file_chunks.c` -/

/-- `bra_io_file_chunks_read_header`. -/
def braIoFileChunksReadHeader (src : BraIoFile) : StdioM (Option ChunkHeader × BraIoFile) := do
  let (pi, src) ← braIoFileRead src braBwtIndexBytes
  match pi with
  | none => return (none, src)
  | some pi =>
    let (huffman, src) ← braIoFileRead src sizeofHuffman
    match huffman with
    | none => return (none, src)
    | some huffman => return (some ⟨leValue pi, BraHuffman.ofImage huffman⟩, src)

/-- `bra_io_file_chunks_write_header`. -/
def braIoFileChunksWriteHeader (dst : BraIoFile) (header : ChunkHeader) :
    StdioM (Bool × BraIoFile) := do
  let (ok, dst) ← braIoFileWrite dst (leBytes braBwtIndexBytes header.primaryIndex)
  if !ok then return (false, dst)
  else braIoFileWrite dst header.huffman.image

/-- What the functions on two files return: success, the files and the meta entry. -/
structure ChunksResult where
  res : Bool
  dst : BraIoFile
  src : BraIoFile
  me : MetaEntry

/-- The error label of the functions that copy and decompress. -/
def closeBoth (dst src : BraIoFile) (me : MetaEntry) : StdioM ChunksResult := do
  let dst ← braIoFileClose dst
  let src ← braIoFileClose src
  return ⟨false, dst, src, me⟩

/-- A chunk is not empty. -/
theorem sub_chunk_lt {dataSize i : Nat} (h : i < dataSize) :
    dataSize - (i + braMin braMaxChunkSize (dataSize - i)) < dataSize - i := by
  have hchunk : 0 < braMaxChunkSize := by decide
  rw [braMin]
  split <;> omega

/-- The loop of `bra_io_file_chunks_copy_file`, `i` bytes of the file being done. -/
def copyLoop (dataSize : Nat) (computeCrc32 : Bool) (dst src : BraIoFile) (me : MetaEntry)
    (i : Nat) : StdioM ChunksResult :=
  if _h : i < dataSize then do
    let s := braMin braMaxChunkSize (dataSize - i)
    let (gBuf, src) ← braIoFileRead src s
    match gBuf with
    | none => closeBoth dst src me
    | some gBuf =>
      let me := if computeCrc32 then { me with crc32 := braCrc32c gBuf me.crc32 } else me
      let (ok, dst) ← braIoFileWrite dst gBuf
      if !ok then closeBoth dst src me
      else copyLoop dataSize computeCrc32 dst src me (i + s)
  else return ⟨true, dst, src, me⟩
termination_by dataSize - i
decreasing_by exact sub_chunk_lt ‹_›

/-- `bra_io_file_chunks_copy_file` with a destination. -/
def braIoFileChunksCopyFile (dst src : BraIoFile) (dataSize : Nat) (me : MetaEntry)
    (computeCrc32 : Bool) : StdioM ChunksResult :=
  if dst.f.isNone || !dst.fn then closeBoth dst src me
  else copyLoop dataSize computeCrc32 dst src me 0

/-- `bra_io_file_meta_entry_write_file_entry`. -/
def braIoFileMetaEntryWriteFileEntry (f : BraIoFile) (me : MetaEntry) :
    StdioM (Bool × BraIoFile) :=
  if braAttrType me.attributes ≠ .file then do
    let f ← braIoFileClose f
    return (false, f)
  else braIoFileWrite f (leBytes 8 me.dataSize)

/-- The error label of `bra_io_file_chunks_compress_file`. -/
def compressError (dst src tmpfile : BraIoFile) (me : MetaEntry) : StdioM ChunksResult := do
  let _ ← braIoFileClose tmpfile
  let dst ← braIoFileClose dst
  let src ← braIoFileClose src
  return ⟨false, dst, src, me⟩

/-- `bra_io_file_chunks_compress_file` after its loop. -/
def compressFinish (dataSize : Nat) (dst src tmpfile : BraIoFile) (me : MetaEntry)
    (crc32 : BitVec 32) : StdioM ChunksResult := do
  let tmpfileSize ← braIoFileTell tmpfile
  if tmpfileSize < 0 then compressError dst src tmpfile me
  else if tmpfileSize.toNat ≥ dataSize then
    let _ ← braIoFileClose tmpfile
    return ⟨false, dst, src,
      { me with attributes := braAttrSetComp me.attributes braAttrCompStored }⟩
  else
    let ok ← braIoFileSeek tmpfile 0 .set
    if !ok then compressError dst src tmpfile me
    else
      let me := { me with
        entryData := .file tmpfileSize.toNat
        crc32 := compressCrcFinish me.crc32 crc32 tmpfileSize.toNat dataSize }
      let (ok, dst) ← braIoFileMetaEntryWriteFileEntry dst me
      if !ok then compressError dst src tmpfile me
      else
        let r ← braIoFileChunksCopyFile dst tmpfile tmpfileSize.toNat me false
        let _ ← braIoFileClose r.src
        return ⟨r.res, r.dst, src, r.me⟩

/-- The loop of `bra_io_file_chunks_compress_file`, and what comes after it. -/
def compressLoop (qsortR : QsortR) (dataSize : Nat) (dst src tmpfile : BraIoFile)
    (me : MetaEntry) (crc32 : BitVec 32) (i : Nat) : StdioM ChunksResult :=
  if _h : i < dataSize then do
    let s := braMin braMaxChunkSize (dataSize - i)
    let (gBuf, src) ← braIoFileRead src s
    match gBuf with
    | none =>
      let _ ← braIoFileClose tmpfile
      let dst ← braIoFileClose dst
      return ⟨false, dst, src, me⟩
    | some gBuf =>
      match ← allocating (compressData qsortR gBuf) with
      | none => compressError dst src tmpfile me
      | some (header, data) =>
        let (ok, tmpfile) ← braIoFileChunksWriteHeader tmpfile header
        if !ok then compressError dst src tmpfile me
        else
          let (ok, tmpfile) ← braIoFileWrite tmpfile data
          if !ok then compressError dst src tmpfile me
          else
            compressLoop qsortR dataSize dst src tmpfile me
              (compressCrcChunk crc32 ⟨header.image, gBuf⟩) (i + s)
  else compressFinish dataSize dst src tmpfile me crc32
termination_by dataSize - i
decreasing_by exact sub_chunk_lt ‹_›

/-- `bra_io_file_chunks_compress_file`. -/
def braIoFileChunksCompressFile (qsortR : QsortR) (dst src : BraIoFile) (dataSize : Nat)
    (me : MetaEntry) : StdioM ChunksResult := do
  let (ok, tmpfile) ← braIoFileTmpOpen
  if !ok then return ⟨false, dst, src, me⟩
  else compressLoop qsortR dataSize dst src tmpfile me braCrc32cInit 0

/-- A chunk behind its header, after the Huffman stage. -/
def decompressRead (src : BraIoFile) : StdioM (Option (ChunkHeader × Bytes) × BraIoFile) := do
  let (header, src) ← braIoFileChunksReadHeader src
  match header with
  | none => return (none, src)
  | some header =>
    if !braIoFileChunksHeaderValidate header then return (none, src)
    else
      let (gBuf, src) ← braIoFileRead src header.huffman.encodedSize.toNat
      match gBuf with
      | none => return (none, src)
      | some gBuf =>
        let huffman := braHuffmanDecode header.huffman gBuf
        let bufHuffman ← allocating huffman.decoded
        return (bufHuffman.map fun buf => (header, buf.take huffman.outSize), src)

/-- The loop of `bra_io_file_chunks_decompress_file`, and the check that comes after it. -/
def decompressLoop (dataSize : Nat) (decode : Bool) (dst src : BraIoFile) (me : MetaEntry)
    (fileOrigSize i : Nat) : StdioM ChunksResult :=
  if _h : i < dataSize then do
    let (chunk, src) ← decompressRead src
    match chunk with
    | none => closeBoth dst src me
    | some (header, bufHuffman) =>
      if !decode then
        decompressLoop dataSize decode dst src me
          ((fileOrigSize + braRleDecodeComputeSize bufHuffman) % 2 ^ 64)
          (i + (header.huffman.encodedSize.toNat + braIoChunkHeaderSize))
      else
        match ← allocating (decompressData header bufHuffman) with
        | none => closeBoth dst src me
        | some gBuf =>
          let me := { me with crc32 := decompressCrcChunk me.crc32 ⟨header.image, gBuf⟩ }
          let (ok, dst) ← braIoFileWrite dst gBuf
          if !ok then closeBoth dst src me
          else
            decompressLoop dataSize decode dst src me ((fileOrigSize + gBuf.length) % 2 ^ 64)
              (i + (header.huffman.encodedSize.toNat + braIoChunkHeaderSize))
  else if fileOrigSize ≤ dataSize then closeBoth dst src me
  else return ⟨true, dst, src, me⟩
termination_by dataSize - i
decreasing_by
  all_goals
    have hheader : 0 < braIoChunkHeaderSize := by decide
    omega

/-- `bra_io_file_chunks_decompress_file` with a destination. -/
def braIoFileChunksDecompressFile (dst src : BraIoFile) (dataSize : Nat) (me : MetaEntry)
    (decode : Bool) : StdioM ChunksResult :=
  if dst.f.isNone || !dst.fn then closeBoth dst src me
  else decompressLoop dataSize decode dst src me 0 0

/-! ### What they own -/

/-- The handle of a file that is open. -/
def BraIoFile.held (f : BraIoFile) : Multiset Handle :=
  match f.f with
  | some h => {h}
  | none => 0

/-- A file after `bra_io_file_close`. -/
def BraIoFile.closed : BraIoFile := ⟨none, false⟩

@[simp] theorem BraIoFile.closed_held : closed.held = 0 := rfl

/-- `assert_bra_io_file_t`. -/
def BraIoFile.IsOpen (f : BraIoFile) : Prop := f.f.isSome = true ∧ f.fn = true

theorem BraIoFile.IsOpen.mem {f : BraIoFile} (hf : f.IsOpen) : ∃ a ∈ f.held, f.f = some a := by
  obtain ⟨a, ha⟩ := Option.isSome_iff_exists.mp hf.1
  refine ⟨a, ?_, ha⟩
  rw [held, ha]
  exact Multiset.mem_singleton_self a

/-- A file that is passed to a function is the same if that succeeds, and keeps its handle if
that is not closed. -/
structure Passed (f : BraIoFile) (ok : Bool) (f' : BraIoFile) (own : Multiset Handle) : Prop where
  own_eq : own = f'.held
  eq_of_ok : ok = true → f' = f

section Files
variable {f : BraIoFile}

theorem braIoFileClose_wp (f : BraIoFile) :
    (braIoFileClose f).wp (fun f' own => f' = .closed ∧ own = 0) f.held := by
  obtain ⟨_ | h, fn⟩ := f
  · exact ⟨rfl, rfl⟩
  · exact ⟨Multiset.mem_singleton_self h, rfl, Multiset.erase_singleton h⟩

/-- Opening a file succeeds, or leaves nothing open. -/
def Opened (r : Bool × BraIoFile) (own : Multiset Handle) : Prop :=
  own = r.2.held ∧ (r.1 = true → r.2.IsOpen) ∧ (r.1 = false → r.2 = .closed)

theorem finishOpen_wp (h : Option Handle) :
    (finishOpen h).wp Opened (BraIoFile.held ⟨h, true⟩) := by
  refine Prog.wp_bind.mpr fun fn => ?_
  change Prog.wp (if h.isNone || !fn then _ else _) _ _
  split
  · refine Prog.wp_bind.mpr (Prog.wp_mono (braIoFileClose_wp ⟨h, fn⟩) ?_)
    rintro f' own ⟨rfl, rfl⟩
    exact ⟨rfl, nofun, fun _ => rfl⟩
  · rename_i hok
    cases h with
    | none => exact absurd rfl hok
    | some h =>
      cases fn with
      | false => exact absurd rfl hok
      | true => exact ⟨rfl, fun _ => ⟨rfl, rfl⟩, nofun⟩

theorem braIoFileOpen_wp (fn : CStr) (write : Bool) : (braIoFileOpen fn write).wp Opened 0 :=
  ⟨finishOpen_wp none, fun h => finishOpen_wp (some h)⟩

theorem braIoFileTmpOpen_wp : braIoFileTmpOpen.wp Opened 0 :=
  ⟨finishOpen_wp none, fun h => finishOpen_wp (some h)⟩

theorem braIoFileSeek_wp (hf : f.IsOpen) (offs : Int) (origin : Origin) :
    (braIoFileSeek f offs origin).wp (fun _ own => own = f.held) f.held :=
  ⟨hf.mem, fun _ => rfl⟩

theorem braIoFileTell_wp (hf : f.IsOpen) :
    (braIoFileTell f).wp (fun _ own => own = f.held) f.held :=
  ⟨hf.mem, fun _ => rfl⟩

/-- Closing a file after an error. -/
theorem closing_wp {α : Type} {Q : α → Multiset Handle → Prop} (g : BraIoFile → α)
    (hQ : Q (g .closed) 0) :
    (do let f ← braIoFileError f; return g f : StdioM α).wp Q f.held := by
  refine Prog.wp_bind.mpr (Prog.wp_mono (braIoFileClose_wp f) ?_)
  rintro f' own ⟨rfl, rfl⟩
  exact hQ

theorem braIoFileRead_wp (hf : f.IsOpen) (bufSize : Nat) :
    (braIoFileRead f bufSize).wp (fun r => Passed f r.1.isSome r.2) f.held := by
  refine Prog.wp_bind.mpr ⟨hf.mem, fun buf => ?_⟩
  cases buf with
  | some buf => exact ⟨rfl, fun _ => rfl⟩
  | none => exact closing_wp _ ⟨rfl, nofun⟩

theorem braIoFileWrite_wp (hf : f.IsOpen) (buf : Bytes) :
    (braIoFileWrite f buf).wp (fun r => Passed f r.1 r.2) f.held := by
  refine Prog.wp_bind.mpr ⟨hf.mem, fun ok => ?_⟩
  cases ok with
  | true => exact ⟨rfl, fun _ => rfl⟩
  | false => exact closing_wp _ ⟨rfl, nofun⟩

theorem braIoFileSkipData_wp (hf : f.IsOpen) (dataSize : Nat) :
    (braIoFileSkipData f dataSize).wp (fun r => Passed f r.1 r.2) f.held := by
  refine Prog.wp_bind.mpr ⟨hf.mem, fun ok => ?_⟩
  cases ok with
  | true => exact ⟨rfl, fun _ => rfl⟩
  | false => exact closing_wp _ ⟨rfl, nofun⟩

/-! ### Chunks -/

theorem braIoFileChunksReadHeader_wp (hf : f.IsOpen) :
    (braIoFileChunksReadHeader f).wp (fun r => Passed f r.1.isSome r.2) f.held := by
  refine Prog.wp_bind.mpr (Prog.wp_mono (braIoFileRead_wp hf _) ?_)
  rintro ⟨_ | pi, src⟩ own ⟨rfl, hsrc⟩
  · exact ⟨rfl, nofun⟩
  obtain rfl := hsrc rfl
  refine Prog.wp_bind.mpr (Prog.wp_mono (braIoFileRead_wp hf _) ?_)
  rintro ⟨_ | huffman, src⟩ own ⟨rfl, hsrc⟩
  · exact ⟨rfl, nofun⟩
  · exact ⟨rfl, fun _ => hsrc rfl⟩

theorem braIoFileChunksWriteHeader_wp (hf : f.IsOpen) (header : ChunkHeader) :
    (braIoFileChunksWriteHeader f header).wp (fun r => Passed f r.1 r.2) f.held := by
  refine Prog.wp_bind.mpr (Prog.wp_mono (braIoFileWrite_wp hf _) ?_)
  rintro ⟨_ | _, dst⟩ own ⟨rfl, hdst⟩
  · exact ⟨rfl, nofun⟩
  obtain rfl := hdst rfl
  exact braIoFileWrite_wp hf _

theorem braIoFileMetaEntryWriteFileEntry_wp (hf : f.IsOpen) (me : MetaEntry) :
    (braIoFileMetaEntryWriteFileEntry f me).wp (fun r => Passed f r.1 r.2) f.held := by
  rw [braIoFileMetaEntryWriteFileEntry]
  split
  · exact closing_wp _ ⟨rfl, nofun⟩
  · exact braIoFileWrite_wp hf _

end Files

section Both
variable {dst src tmpfile : BraIoFile}

/-- Copying and decompressing keep both files, or close both. -/
structure BothPassed (dst src : BraIoFile) (me : MetaEntry) (r : ChunksResult)
    (own : Multiset Handle) : Prop where
  own_eq : own = r.dst.held + r.src.held
  eq_of_ok : r.res = true → r.dst = dst ∧ r.src = src
  closed : r.res = false → r.dst = .closed ∧ r.src = .closed
  attributes_eq : r.me.attributes = me.attributes

theorem closeBoth_wp {dst₀ src₀ : BraIoFile} {me₀ me : MetaEntry} {own : Multiset Handle}
    (hme : me.attributes = me₀.attributes) (hown : own = dst.held + src.held) :
    (closeBoth dst src me).wp (BothPassed dst₀ src₀ me₀) own := by
  refine Prog.wp_step src.held (braIoFileClose_wp dst) hown ?_
  rintro _ _ ⟨rfl, rfl⟩
  refine Prog.wp_step 0 (braIoFileClose_wp src) (add_comm _ _) ?_
  rintro _ _ ⟨rfl, rfl⟩
  exact ⟨rfl, nofun, fun _ => ⟨rfl, rfl⟩, hme⟩

theorem copyLoop_wp (hdst : dst.IsOpen) (hsrc : src.IsOpen) {dataSize : Nat}
    {computeCrc32 : Bool} {me₀ me : MetaEntry} (i : Nat)
    (hme : me.attributes = me₀.attributes) :
    (copyLoop dataSize computeCrc32 dst src me i).wp (BothPassed dst src me₀)
      (dst.held + src.held) := by
  induction hn : dataSize - i using Nat.strong_induction_on generalizing me i with
  | _ n ih =>
    subst hn
    rw [copyLoop]
    split
    swap
    · exact ⟨rfl, fun _ => ⟨rfl, rfl⟩, nofun, hme⟩
    rename_i hi
    refine Prog.wp_step dst.held (braIoFileRead_wp hsrc _) (add_comm _ _) ?_
    rintro ⟨_ | gBuf, src'⟩ own ⟨rfl, hsrc'⟩
    · exact closeBoth_wp hme (add_comm _ _)
    obtain rfl := hsrc' rfl
    refine Prog.wp_step src'.held (braIoFileWrite_wp hdst _) (add_comm _ _) ?_
    rintro ⟨_ | _, dst'⟩ own ⟨rfl, hdst'⟩
    · exact closeBoth_wp (by split <;> exact hme) rfl
    obtain rfl := hdst' rfl
    exact ih _ (sub_chunk_lt hi) _ (by split <;> exact hme) rfl

/-- **Copying** closes both files or none. -/
theorem braIoFileChunksCopyFile_wp (hdst : dst.IsOpen) (hsrc : src.IsOpen) (dataSize : Nat)
    (me : MetaEntry) (computeCrc32 : Bool) :
    (braIoFileChunksCopyFile dst src dataSize me computeCrc32).wp (BothPassed dst src me)
      (dst.held + src.held) := by
  rw [braIoFileChunksCopyFile]
  split
  · exact closeBoth_wp rfl rfl
  · exact copyLoop_wp hdst hsrc 0 rfl

/-! ### Decompressing -/

theorem allocating_wp {α : Type} (a : Option α) (own : Multiset Handle) :
    (allocating a).wp (fun _ own' => own' = own) own := by
  refine Prog.wp_bind.mpr fun ok => ?_
  cases ok <;> rfl

theorem decompressRead_wp (hsrc : src.IsOpen) :
    (decompressRead src).wp (fun r => Passed src r.1.isSome r.2) src.held := by
  refine Prog.wp_bind.mpr (Prog.wp_mono (braIoFileChunksReadHeader_wp hsrc) ?_)
  rintro ⟨_ | header, src'⟩ own ⟨rfl, hsrc'⟩
  · exact ⟨rfl, nofun⟩
  obtain rfl := hsrc' rfl
  dsimp only
  split
  · exact ⟨rfl, nofun⟩
  refine Prog.wp_bind.mpr (Prog.wp_mono (braIoFileRead_wp hsrc _) ?_)
  rintro ⟨_ | gBuf, src''⟩ own ⟨rfl, hsrc''⟩
  · exact ⟨rfl, nofun⟩
  obtain rfl := hsrc'' rfl
  refine Prog.wp_bind.mpr (Prog.wp_mono (allocating_wp _ _) ?_)
  rintro bufHuffman _ rfl
  exact ⟨rfl, fun _ => rfl⟩

theorem decompressLoop_wp (hdst : dst.IsOpen) (hsrc : src.IsOpen) {dataSize : Nat}
    {decode : Bool} {me₀ me : MetaEntry} (fileOrigSize i : Nat)
    (hme : me.attributes = me₀.attributes) :
    (decompressLoop dataSize decode dst src me fileOrigSize i).wp (BothPassed dst src me₀)
      (dst.held + src.held) := by
  induction hn : dataSize - i using Nat.strong_induction_on generalizing me fileOrigSize i with
  | _ n ih =>
    subst hn
    rw [decompressLoop]
    split
    swap
    · split
      · exact closeBoth_wp hme rfl
      · exact ⟨rfl, fun _ => ⟨rfl, rfl⟩, nofun, hme⟩
    rename_i hi
    have hless : ∀ n, dataSize - (i + (n + braIoChunkHeaderSize)) < dataSize - i := fun n => by
      have hheader : 0 < braIoChunkHeaderSize := by decide
      omega
    -- a failed read has closed the source, a failed write the destination
    refine Prog.wp_step dst.held (decompressRead_wp hsrc) (add_comm _ _) ?_
    rintro ⟨_ | ⟨header, bufHuffman⟩, src'⟩ own ⟨rfl, hsrc'⟩
    · exact closeBoth_wp hme (add_comm _ _)
    obtain rfl := hsrc' rfl
    rw [add_comm]
    dsimp only
    split
    · exact ih _ (hless _) _ _ hme rfl
    refine Prog.wp_bind.mpr (Prog.wp_mono (allocating_wp _ _) ?_)
    rintro (_ | gBuf) _ rfl
    · exact closeBoth_wp hme rfl
    refine Prog.wp_step src'.held (braIoFileWrite_wp hdst _) rfl ?_
    rintro ⟨_ | _, dst'⟩ own ⟨rfl, hdst'⟩
    · exact closeBoth_wp hme rfl
    obtain rfl := hdst' rfl
    exact ih _ (hless _) _ _ hme rfl

/-- **Decompressing** closes both files or none. -/
theorem braIoFileChunksDecompressFile_wp (hdst : dst.IsOpen) (hsrc : src.IsOpen)
    (dataSize : Nat) (me : MetaEntry) (decode : Bool) :
    (braIoFileChunksDecompressFile dst src dataSize me decode).wp (BothPassed dst src me)
      (dst.held + src.held) := by
  rw [braIoFileChunksDecompressFile]
  split
  · exact closeBoth_wp rfl rfl
  · exact decompressLoop_wp hdst hsrc 0 0 rfl

/-! ### Compressing -/

/-- Compressing keeps both files if it succeeds, or asks for the file to be stored. -/
structure CompressPassed (dst src : BraIoFile) (me : MetaEntry) (r : ChunksResult)
    (own : Multiset Handle) : Prop where
  own_eq : own = r.dst.held + r.src.held
  eq_of_ok : r.res = true ∨ r.me.attributes ≠ me.attributes → r.dst = dst ∧ r.src = src
  attributes_eq : r.me.attributes = me.attributes ∨
    r.me.attributes = braAttrSetComp me.attributes braAttrCompStored

theorem compressError_wp {dst₀ src₀ : BraIoFile} {me₀ me : MetaEntry} {own : Multiset Handle}
    (hme : me.attributes = me₀.attributes) (hown : own = tmpfile.held + (dst.held + src.held)) :
    (compressError dst src tmpfile me).wp (CompressPassed dst₀ src₀ me₀) own := by
  refine Prog.wp_step (dst.held + src.held) (braIoFileClose_wp tmpfile) hown ?_
  rintro _ _ ⟨rfl, rfl⟩
  refine Prog.wp_step src.held (braIoFileClose_wp dst) (zero_add _) ?_
  rintro _ _ ⟨rfl, rfl⟩
  refine Prog.wp_step 0 (braIoFileClose_wp src) (add_comm _ _) ?_
  rintro _ _ ⟨rfl, rfl⟩
  exact ⟨rfl, fun h => absurd hme (h.resolve_left Bool.false_ne_true), .inl hme⟩

theorem compressFinish_wp (hdst : dst.IsOpen) (htmp : tmpfile.IsOpen) (dataSize : Nat)
    (me : MetaEntry) (crc32 : BitVec 32) :
    (compressFinish dataSize dst src tmpfile me crc32).wp (CompressPassed dst src me)
      (tmpfile.held + (dst.held + src.held)) := by
  refine Prog.wp_step _ (braIoFileTell_wp htmp) rfl ?_
  rintro tmpfileSize _ rfl
  dsimp only
  split
  · exact compressError_wp rfl rfl
  split
  · -- no gain: the temporary file is closed, and neither file has been touched
    refine Prog.wp_step _ (braIoFileClose_wp tmpfile) rfl ?_
    rintro _ _ ⟨rfl, rfl⟩
    exact ⟨zero_add _, fun _ => ⟨rfl, rfl⟩, .inr rfl⟩
  refine Prog.wp_step _ (braIoFileSeek_wp htmp _ _) rfl ?_
  rintro (_ | _) _ rfl
  · exact compressError_wp rfl rfl
  refine Prog.wp_step (tmpfile.held + src.held) (braIoFileMetaEntryWriteFileEntry_wp hdst _)
    (by abel) ?_
  rintro ⟨_ | _, dst'⟩ own ⟨rfl, hdst'⟩
  · exact compressError_wp rfl (by abel)
  obtain rfl := hdst' rfl
  refine Prog.wp_step src.held (braIoFileChunksCopyFile_wp hdst htmp _ _ _) (by abel) ?_
  rintro ⟨res, dst'', tmpfile', me'⟩ own hpassed
  refine Prog.wp_step (dst''.held + src.held) (braIoFileClose_wp tmpfile')
    (by rw [hpassed.own_eq]; abel) ?_
  rintro _ _ ⟨rfl, rfl⟩
  refine ⟨zero_add _, fun h => ?_, .inl hpassed.attributes_eq⟩
  -- the attributes still say compressed, which leaves the result of the copy
  have hok : res = true := h.resolve_right (not_not_intro hpassed.attributes_eq)
  exact ⟨(hpassed.eq_of_ok hok).1, rfl⟩

theorem compressLoop_wp {qsortR : QsortR} (hdst : dst.IsOpen) (hsrc : src.IsOpen)
    (htmp : tmpfile.IsOpen) {dataSize : Nat} (me : MetaEntry) (crc32 : BitVec 32) (i : Nat) :
    (compressLoop qsortR dataSize dst src tmpfile me crc32 i).wp (CompressPassed dst src me)
      (tmpfile.held + (dst.held + src.held)) := by
  induction hn : dataSize - i using Nat.strong_induction_on generalizing crc32 i with
  | _ n ih =>
    subst hn
    rw [compressLoop]
    split
    swap
    · exact compressFinish_wp hdst htmp dataSize me crc32
    rename_i hi
    refine Prog.wp_step (tmpfile.held + dst.held) (braIoFileRead_wp hsrc _) (by abel) ?_
    rintro ⟨_ | gBuf, src'⟩ own ⟨rfl, hsrc'⟩
    · -- `braIoFileRead` has closed the source
      refine Prog.wp_step (src'.held + dst.held) (braIoFileClose_wp tmpfile) (by abel) ?_
      rintro _ _ ⟨rfl, rfl⟩
      refine Prog.wp_step src'.held (braIoFileClose_wp dst) (by abel) ?_
      rintro _ _ ⟨rfl, rfl⟩
      exact ⟨rfl, fun h => absurd rfl (h.resolve_left Bool.false_ne_true), .inl rfl⟩
    obtain rfl := hsrc' rfl
    refine Prog.wp_bind.mpr (Prog.wp_mono (allocating_wp _ _) ?_)
    rintro (_ | ⟨header, data⟩) _ rfl
    · exact compressError_wp rfl (by abel)
    refine Prog.wp_step (dst.held + src'.held) (braIoFileChunksWriteHeader_wp htmp header)
      (by abel) ?_
    rintro ⟨_ | _, tmpfile'⟩ own ⟨rfl, htmp'⟩
    · exact compressError_wp rfl rfl
    obtain rfl := htmp' rfl
    refine Prog.wp_step (dst.held + src'.held) (braIoFileWrite_wp htmp data) rfl ?_
    rintro ⟨_ | _, tmpfile''⟩ own ⟨rfl, htmp''⟩
    · exact compressError_wp rfl rfl
    obtain rfl := htmp'' rfl
    exact ih _ (sub_chunk_lt hi) _ _ rfl

/-- **Compressing** closes its temporary file in any case. -/
theorem braIoFileChunksCompressFile_wp (qsortR : QsortR) (hdst : dst.IsOpen)
    (hsrc : src.IsOpen) (dataSize : Nat) (me : MetaEntry) :
    (braIoFileChunksCompressFile qsortR dst src dataSize me).wp (CompressPassed dst src me)
      (dst.held + src.held) := by
  refine Prog.wp_step (dst.held + src.held) braIoFileTmpOpen_wp (zero_add _).symm ?_
  rintro ⟨_ | _, tmpfile⟩ own ⟨rfl, hok, hfail⟩
  · obtain rfl := hfail rfl
    exact ⟨zero_add _, fun _ => ⟨rfl, rfl⟩, .inl rfl⟩
  · exact compressLoop_wp hdst hsrc (hok rfl) me braCrc32cInit 0

end Both

end BrArchive.Stdio
