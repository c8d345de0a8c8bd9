import BrArchive.Consuming
import BrArchive.SfxArchive
import BrArchive.TestPredicts

/-! # What a reader takes of an archive

The readers of an archive look at nothing but the bytes they take: not at what stands before
the position, and not at what follows the last entry.  Only an existing file that is kept is
different, as its contents are skipped, even beyond the end of the archive.
-/
namespace BrArchive
open Consuming

theorem ioAt_place (pre post pre' post' : Bytes) (h : ioAt pre post = ioAt pre' post') :
    pre = pre' ∧ post = post' :=
  ioAt_inj h

theorem braIoFileRead_consumes (n : Nat) :
    Consumes ioAt Prod.mk fun f => braIoFileRead f n := by
  refine ⟨fun buf mid => mid = buf ∧ buf.length = n, fun pre input d => ?_⟩
  constructor
  · intro h
    obtain ⟨buf, f⟩ := d
    obtain ⟨hlen, pre', post, hsrc, rfl⟩ := braIoFileRead_split h
    obtain ⟨rfl, rfl⟩ := ioAt_inj hsrc
    exact ⟨buf, buf, post, rfl, rfl, rfl, hlen⟩
  · rintro ⟨buf, mid, rest, rfl, rfl, rfl, hlen⟩
    exact braIoFileRead_ioAt pre mid rest hlen

/-! ## The fields of an entry -/

theorem braIoFileMetaEntryReadCommonHeader_consumes :
    Consumes ioAt Prod.mk braIoFileMetaEntryReadCommonHeader := by
  refine (braIoFileRead_consumes 1).bind fun attr => ?_
  refine (braIoFileRead_consumes 1).bind fun bufSize => ?_
  refine .ite .fail ?_
  exact (braIoFileRead_consumes _).bind fun buf => .pure _

theorem braIoFileMetaEntryReadFileEntry_consumes (me : MetaEntry) :
    Consumes ioAt Prod.mk fun f => braIoFileMetaEntryReadFileEntry f me := by
  refine .option _ fun me => ?_
  exact (braIoFileRead_consumes 8).bind fun dataSize => .pure _

theorem braIoFileMetaEntryReadSubdirEntry_consumes (me : MetaEntry) :
    Consumes ioAt Prod.mk fun f => braIoFileMetaEntryReadSubdirEntry f me := by
  refine .ite .fail ?_
  refine .option _ fun me => ?_
  exact (braIoFileRead_consumes 4).bind fun parentIndex => .pure _

theorem readCrc32_consumes : Consumes ioAt Prod.mk readCrc32 :=
  (braIoFileRead_consumes 4).bind fun _ => .pure _

/-- A context with its archive. -/
def IoFileCtx.attach (ctx : IoFileCtx) (f : IoFile) : IoFileCtx := { ctx with f }

theorem braIoFileCtxReadHeader_consumes (ctx : IoFileCtx) :
    Consumes ioAt IoFileCtx.attach fun f => braIoFileCtxReadHeader (ctx.attach f) := by
  dsimp only [braIoFileCtxReadHeader, IoFileCtx.attach]
  refine (braIoFileRead_consumes _).bind fun outBh => ?_
  dsimp only
  refine .ite .fail ?_
  exact .pure { ctx with numFiles := leValue (outBh.drop 4) }

theorem finishEntry_consumes (ctx : IoFileCtx) (me : MetaEntry) (compare : Bool) :
    Consumes ioAt IoFileCtx.attach fun f => finishEntry (ctx.attach f) me compare := by
  dsimp only [finishEntry, IoFileCtx.attach]
  refine readCrc32_consumes.bind fun crc32 => ?_
  dsimp only
  exact .ite .fail (.pure ctx)

/-- The entry, and the context with the archive. -/
def attachSnd {β : Type} (x : β × IoFileCtx) (f : IoFile) : β × IoFileCtx := (x.1, x.2.attach f)

theorem braIoFileCtxReadMetaEntry_consumes (ctx : IoFileCtx) :
    Consumes ioAt attachSnd fun f => braIoFileCtxReadMetaEntry (ctx.attach f) := by
  dsimp only [braIoFileCtxReadMetaEntry, IoFileCtx.attach]
  refine braIoFileMetaEntryReadCommonHeader_consumes.bind fun me => ?_
  dsimp only
  cases braAttrType me.attributes with
  | subdir =>
    refine (braIoFileMetaEntryReadSubdirEntry_consumes me).bind fun me => ?_
    dsimp only
    refine .option _ fun (node, tree) => ?_
    exact .pure (me, { ctx with lastDirNode := node, tree })
  | dir =>
    refine .option _ fun (node, tree) => ?_
    exact .pure (me, { ctx with lastDirNode := node, tree })
  | file => exact (braIoFileMetaEntryReadFileEntry_consumes me).bind fun me => .pure (me, ctx)
  | sym => exact .fail

/-! ## Contents -/

/-- A state of the copy loop with the file it reads. -/
def CopyState.attach (st : CopyState) (src : IoFile) : CopyState := { st with src }

theorem copyChunk_consumes (dataSize : Nat) (computeCrc32 : Bool) (st : CopyState) :
    Consumes ioAt CopyState.attach fun f => copyChunk dataSize computeCrc32 (st.attach f) := by
  dsimp only [copyChunk, CopyState.attach]
  refine (braIoFileRead_consumes _).bind fun gBuf => ?_
  exact .pure {
    st with
    dst := st.dst.map (braIoFileWrite · gBuf)
    crc32 := if computeCrc32 then braCrc32c gBuf st.crc32 else st.crc32
    i := st.i + braMin braMaxChunkSize (dataSize - st.i) }

/-- What a file is copied or decompressed to, and its entry, with the file that is read. -/
def attachMid (x : Option IoFile × MetaEntry) (f : IoFile) : Option IoFile × IoFile × MetaEntry :=
  (x.1, f, x.2)

theorem braIoFileChunksCopyFile_consumes (dst : Option IoFile) (dataSize : Nat) (me : MetaEntry)
    (computeCrc32 : Bool) : Consumes ioAt attachMid fun f =>
      braIoFileChunksCopyFile dst f dataSize me computeCrc32 := by
  have hrun : ∀ st : CopyState, Consumes ioAt CopyState.attach fun f =>
      WhileLoop.run (fun st => st.i < dataSize) (copyChunk dataSize computeCrc32) dataSize
        (st.attach f) :=
    Consumes.run (fun st => st.i < dataSize) (fun _ _ => rfl)
      (copyChunk_consumes dataSize computeCrc32) dataSize
  refine (hrun ⟨dst, ⟨[], 0⟩, me.crc32, 0⟩).bind fun st => ?_
  exact .pure (st.dst, { me with crc32 := st.crc32 })

theorem braIoFileChunksReadHeader_consumes :
    Consumes ioAt Prod.mk braIoFileChunksReadHeader := by
  refine (braIoFileRead_consumes _).bind fun pi => ?_
  exact (braIoFileRead_consumes _).bind fun huffman => .pure _

/-- A chunk with the file that is read. -/
def attachChunk (x : ChunkHeader × Bytes) (f : IoFile) : ChunkHeader × Bytes × IoFile :=
  (x.1, x.2, f)

theorem decompressRead_consumes : Consumes ioAt attachChunk decompressRead := by
  refine braIoFileChunksReadHeader_consumes.bind fun header => ?_
  dsimp only
  refine .ite .fail ?_
  refine (braIoFileRead_consumes _).bind fun gBuf => ?_
  dsimp only
  exact .option _ fun bufHuffman => .pure (header, bufHuffman.take _)

/-- A state of the decompression loop with the file it reads. -/
def DecompressState.attach (st : DecompressState) (src : IoFile) : DecompressState :=
  { st with src }

theorem decompressChunk_consumes (decode : Bool) (st : DecompressState) :
    Consumes ioAt DecompressState.attach fun f => decompressChunk decode (st.attach f) := by
  dsimp only [decompressChunk, DecompressState.attach]
  refine decompressRead_consumes.bind fun (header, bufHuffman) => ?_
  dsimp only [attachChunk]
  refine .ite ?_ ?_
  · exact .pure {
      st with
      i := st.i + (header.huffman.encodedSize.toNat + braIoChunkHeaderSize)
      fileOrigSize := (st.fileOrigSize + braRleDecodeComputeSize bufHuffman) % 2 ^ 64 }
  · refine .option _ fun gBuf => ?_
    exact .pure {
      st with
      dst := st.dst.map (braIoFileWrite · gBuf)
      crc32 := decompressCrcChunk st.crc32 ⟨header.image, gBuf⟩
      fileOrigSize := (st.fileOrigSize + gBuf.length) % 2 ^ 64
      i := st.i + (header.huffman.encodedSize.toNat + braIoChunkHeaderSize) }

theorem braIoFileChunksDecompressFile_consumes (dst : Option IoFile) (dataSize : Nat)
    (me : MetaEntry) (decode : Bool) : Consumes ioAt attachMid fun f =>
      braIoFileChunksDecompressFile dst f dataSize me decode := by
  have hrun : ∀ st : DecompressState, Consumes ioAt DecompressState.attach fun f =>
      WhileLoop.run (fun st => st.i < dataSize) (decompressChunk decode) dataSize (st.attach f) :=
    Consumes.run (fun st => st.i < dataSize) (fun _ _ => rfl) (decompressChunk_consumes decode)
      dataSize
  refine (hrun ⟨dst, ⟨[], 0⟩, me.crc32, 0, 0⟩).bind fun st => ?_
  dsimp only [DecompressState.attach]
  exact .ite .fail (.pure (st.dst, { me with crc32 := st.crc32 }))

theorem braIoFileChunksReadFile_consumes (dataSize : Nat) (me : MetaEntry) (decode : Bool) :
    Consumes ioAt attachMid fun f => braIoFileChunksReadFile f dataSize me decode := by
  refine .ite (braIoFileChunksCopyFile_consumes ..) ?_
  exact .ite (braIoFileChunksDecompressFile_consumes ..) .fail

theorem extractContents_consumes (f2 : IoFile) (me : MetaEntry) :
    Consumes ioAt attachMid fun f => extractContents f2 f me := by
  refine .ite (braIoFileChunksCopyFile_consumes ..) ?_
  exact .ite (braIoFileChunksDecompressFile_consumes ..) .fail

/-! ## Entries -/

theorem reconstructName_attach (ctx : IoFileCtx) (f : IoFile) (me : MetaEntry) :
    braIoFileCtxReconstructMetaEntryName (ctx.attach f) me =
      braIoFileCtxReconstructMetaEntryName ctx me :=
  rfl

theorem braIoFileCtxPrintMetaEntry_consumes (ctx : IoFileCtx) (testMode : Bool) :
    Consumes ioAt IoFileCtx.attach fun f =>
      braIoFileCtxPrintMetaEntry (ctx.attach f) testMode := by
  refine (braIoFileCtxReadMetaEntry_consumes ctx).bind fun (me, ctx) => ?_
  dsimp only [attachSnd]
  simp only [reconstructName_attach]
  refine .option _ fun (fn, len) => ?_
  refine .ite (.option _ fun me => ?_) (.option (some me) fun me => ?_)
  all_goals
    dsimp only [IoFileCtx.attach]
    cases braAttrType me.attributes with
    | file =>
      refine (braIoFileChunksReadFile_consumes ..).bind fun (dst, me) => ?_
      exact finishEntry_consumes ctx me testMode
    | subdir => exact finishEntry_consumes ctx _ testMode
    | dir => exact finishEntry_consumes ctx me testMode
    | sym => exact .fail

/-- **The loops** that list or test entries. -/
theorem printEntries_consumes (testMode : Bool) (n : Nat) (ctx : IoFileCtx) :
    Consumes ioAt IoFileCtx.attach fun f => printEntries testMode n (ctx.attach f) := by
  induction n generalizing ctx with
  | zero => exact .pure ctx
  | succ n ih => exact (braIoFileCtxPrintMetaEntry_consumes ctx testMode).bind ih

section Extract
variable {σ : Type} (fs : FileSystem σ) (input : Bytes)

/-- What an extraction returns under the policy to overwrite everything. -/
def attachDisk (input : Bytes) (x : IoFileCtx × σ) (f : IoFile) : IoFileCtx × User × σ :=
  (x.1.attach f, ⟨.alwaysYes, input⟩, x.2)

theorem braIoFileCtxDecodeAndWriteToDisk_consumes (ctx : IoFileCtx) (s : σ) :
    Consumes ioAt (attachDisk input) fun f =>
      braIoFileCtxDecodeAndWriteToDisk fs (ctx.attach f) ⟨.alwaysYes, input⟩ s := by
  refine (braIoFileCtxReadMetaEntry_consumes ctx).bind fun (me, ctx) => ?_
  dsimp only [attachSnd]
  simp only [reconstructName_attach]
  refine .option _ fun (buf, _) => ?_
  dsimp only
  refine .option _ fun me => ?_
  cases braAttrType me.attributes with
  | file =>
    simp only [askOverwrite_alwaysYes, Bool.not_true, Bool.false_eq_true, if_false]
    refine .option _ fun s => ?_
    dsimp only [IoFileCtx.attach]
    refine (extractContents_consumes ⟨[], 0⟩ me.addDataSize).bind fun (f2, me) => ?_
    dsimp only [attachMid]
    refine (finishEntry_consumes ctx me true).bind fun ctx => ?_
    exact .pure (ctx, fs.closeWrite s (CStr.ofBuffer buf) (f2.elim [] IoFile.data))
  | subdir =>
    refine .option _ fun s => ?_
    exact (finishEntry_consumes ctx _ true).bind fun ctx => .pure (ctx, s)
  | dir =>
    refine .option _ fun s => ?_
    exact (finishEntry_consumes ctx me true).bind fun ctx => .pure (ctx, s)
  | sym => exact .fail

/-- **The loop** that extracts entries. -/
theorem decodeEntries_consumes (n : Nat) (ctx : IoFileCtx) (s : σ) :
    Consumes ioAt (attachDisk input) fun f =>
      decodeEntries fs n (ctx.attach f) ⟨.alwaysYes, input⟩ s := by
  induction n generalizing ctx s with
  | zero => exact .pure (ctx, s)
  | succ n ih =>
    exact (braIoFileCtxDecodeAndWriteToDisk_consumes fs input ctx s).bind fun (ctx, s) => ih ctx s

end Extract

end BrArchive
