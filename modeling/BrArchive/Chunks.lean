import BrArchive.MetaEntry
import BrArchive.CompressCrc
import BrArchive.Bwt
import BrArchive.Mtf
import BrArchive.Rle
import BrArchive.Huffman
import BrArchive.WhileLoop

/-! # Chunks

`lib_bra_io_file_chunks.c`: file contents are copied, compressed and decompressed chunk
by chunk.  Each of the three loops counts the bytes it has done; a round takes at least
one, so the size to do bounds the number of rounds.  The destination of a copy may be
missing, as in list and test mode.
-/
namespace BrArchive
open WhileLoop

/-! ## Chunk headers -/

/-- The 264 bytes of a `bra_huffman_t`. -/
def BraHuffman.image (huffman : BraHuffman) : Bytes :=
  alphabet.map huffman.lengths ++ leBytes 4 huffman.origSize.toNat ++
    leBytes 4 huffman.encodedSize.toNat

/-- The `bra_huffman_t` with a given image. -/
def BraHuffman.ofImage (image : Bytes) : BraHuffman where
  lengths s := image.getD s.toNat 0
  origSize := UInt32.ofNat (leValue ((image.drop 256).take 4))
  encodedSize := UInt32.ofNat (leValue ((image.drop 260).take 4))

/-- `bra_io_chunk_header_t`. -/
structure ChunkHeader where
  primaryIndex : Nat
  huffman : BraHuffman

/-- The header in memory, as the checksum sees it. -/
def ChunkHeader.image (header : ChunkHeader) : Bytes :=
  leBytes 4 header.primaryIndex ++ header.huffman.image

/-- The header on disk: of the primary index three bytes are written. -/
def ChunkHeader.diskImage (header : ChunkHeader) : Bytes :=
  leBytes braBwtIndexBytes header.primaryIndex ++ header.huffman.image

/-- `bra_io_file_chunks_header_validate`. -/
def braIoFileChunksHeaderValidate (header : ChunkHeader) : Bool :=
  if header.primaryIndex ≥ braMaxChunkSize then false
  else if header.huffman.encodedSize.toNat > braMaxChunkSize then false
  else if header.huffman.origSize.toNat > braMaxChunkSize then false
  else if header.huffman.encodedSize.toNat = 0 then false
  else if header.huffman.origSize.toNat = 0 then false
  else true

/-- `bra_io_file_chunks_read_header`. -/
def braIoFileChunksReadHeader (src : IoFile) : Option (ChunkHeader × IoFile) := do
  let (pi, src) ← braIoFileRead src braBwtIndexBytes
  let (huffman, src) ← braIoFileRead src sizeofHuffman
  return (⟨leValue pi, BraHuffman.ofImage huffman⟩, src)

/-- `bra_io_file_chunks_write_header`. -/
def braIoFileChunksWriteHeader (dst : IoFile) (header : ChunkHeader) : IoFile :=
  braIoFileWrite (braIoFileWrite dst (leBytes braBwtIndexBytes header.primaryIndex))
    header.huffman.image

/-! ## Copying -/

/-- The state of the loop of `bra_io_file_chunks_copy_file`. -/
structure CopyState where
  dst : Option IoFile
  src : IoFile
  crc32 : BitVec 32
  i : Nat

/-- One round of the copy loop. -/
def copyChunk (dataSize : Nat) (computeCrc32 : Bool) (st : CopyState) : Option CopyState := do
  let s := braMin braMaxChunkSize (dataSize - st.i)
  let (gBuf, src) ← braIoFileRead st.src s
  return {
    dst := st.dst.map (braIoFileWrite · gBuf)
    src
    crc32 := if computeCrc32 then braCrc32c gBuf st.crc32 else st.crc32
    i := st.i + s }

/-- `bra_io_file_chunks_copy_file`. -/
def braIoFileChunksCopyFile (dst : Option IoFile) (src : IoFile) (dataSize : Nat)
    (me : MetaEntry) (computeCrc32 : Bool) : Option (Option IoFile × IoFile × MetaEntry) := do
  let st ← run (fun st => st.i < dataSize) (copyChunk dataSize computeCrc32) dataSize
    ⟨dst, src, me.crc32, 0⟩
  return (st.dst, st.src, { me with crc32 := st.crc32 })

/-! ## Compressing -/

/-- The four encoders on a chunk: its header and the bytes to store. -/
def compressData (qsortR : QsortR) (gBuf : Bytes) : Option (ChunkHeader × Bytes) := do
  let (gBuf2, primaryIndex) := braBwtEncode2 qsortR gBuf
  let bufRle ← braRleEncode (braMtfEncode2 gBuf2)
  let bufHuffman ← braHuffmanEncode bufRle
  return (⟨primaryIndex, bufHuffman.info⟩,
    bufHuffman.data.take bufHuffman.info.encodedSize.toNat)

/-- The state of the loop of `bra_io_file_chunks_compress_file`. -/
structure CompressState where
  src : IoFile
  tmpfile : IoFile
  crc32 : BitVec 32
  i : Nat

/-- One round of the compression loop. -/
def compressChunk (qsortR : QsortR) (dataSize : Nat) (st : CompressState) :
    Option CompressState := do
  let s := braMin braMaxChunkSize (dataSize - st.i)
  let (gBuf, src) ← braIoFileRead st.src s
  let (header, data) ← compressData qsortR gBuf
  return {
    src
    tmpfile := braIoFileWrite (braIoFileChunksWriteHeader st.tmpfile header) data
    crc32 := compressCrcChunk st.crc32 ⟨header.image, gBuf⟩
    i := st.i + s }

/-- What `bra_io_file_chunks_compress_file` leaves behind when no operation fails. -/
structure CompressResult where
  res : Bool
  dst : IoFile
  src : IoFile
  me : MetaEntry

/-- `bra_io_file_chunks_compress_file`.  A temporary file that is not smaller is thrown
away, and the attributes tell the caller to store the file. -/
def braIoFileChunksCompressFile (qsortR : QsortR) (dst src : IoFile) (dataSize : Nat)
    (me : MetaEntry) : Option CompressResult := do
  let st ← run (fun st => st.i < dataSize) (compressChunk qsortR dataSize) dataSize
    ⟨src, ⟨[], 0⟩, braCrc32cInit, 0⟩
  let tmpfileSize := braIoFileTell st.tmpfile
  if tmpfileSize ≥ dataSize then
    return ⟨false, dst, st.src,
      { me with attributes := braAttrSetComp me.attributes braAttrCompStored }⟩
  else
    let me : MetaEntry := { me with
      entryData := .file tmpfileSize
      crc32 := compressCrcFinish me.crc32 st.crc32 tmpfileSize dataSize }
    let dst ← braIoFileMetaEntryWriteFileEntry dst me
    let (dst', _, me) ← braIoFileChunksCopyFile (some dst) (braIoFileSeekSet st.tmpfile 0)
      tmpfileSize me false
    return ⟨true, dst'.getD dst, st.src, me⟩

/-! ## Decompressing -/

/-- The start of a round of the decompression loop: the header of a chunk and its payload
after the Huffman stage. -/
def decompressRead (src : IoFile) : Option (ChunkHeader × Bytes × IoFile) := do
  let (header, src) ← braIoFileChunksReadHeader src
  if !braIoFileChunksHeaderValidate header then none
  else
    let (gBuf, src) ← braIoFileRead src header.huffman.encodedSize.toNat
    let huffman := braHuffmanDecode header.huffman gBuf
    let bufHuffman ← huffman.decoded
    return (header, bufHuffman.take huffman.outSize, src)

/-- The other three decoders.  What `g_buf_trans` holds does not matter: every entry that
is read has been written before. -/
def decompressData (header : ChunkHeader) (bufHuffman : Bytes) : Option Bytes := do
  let bufRle ← braRleDecode bufHuffman
  if header.primaryIndex ≥ bufRle.length then none
  else
    return braBwtDecode2 (braMtfDecode2 bufRle) header.primaryIndex
      (List.replicate braMaxChunkSize 0)

/-- The state of the loop of `bra_io_file_chunks_decompress_file`. -/
structure DecompressState where
  dst : Option IoFile
  src : IoFile
  crc32 : BitVec 32
  fileOrigSize : Nat
  i : Nat

/-- One round of the decompression loop. -/
def decompressChunk (decode : Bool) (st : DecompressState) : Option DecompressState := do
  let (header, bufHuffman, src) ← decompressRead st.src
  let i := st.i + (header.huffman.encodedSize.toNat + braIoChunkHeaderSize)
  if !decode then
    let s := braRleDecodeComputeSize bufHuffman
    return { st with src, i, fileOrigSize := (st.fileOrigSize + s) % 2 ^ 64 }
  else
    let gBuf ← decompressData header bufHuffman
    return {
      dst := st.dst.map (braIoFileWrite · gBuf)
      src
      crc32 := decompressCrcChunk st.crc32 ⟨header.image, gBuf⟩
      fileOrigSize := (st.fileOrigSize + gBuf.length) % 2 ^ 64
      i }

/-- `bra_io_file_chunks_decompress_file`. -/
def braIoFileChunksDecompressFile (dst : Option IoFile) (src : IoFile) (dataSize : Nat)
    (me : MetaEntry) (decode : Bool) : Option (Option IoFile × IoFile × MetaEntry) := do
  let st ← run (fun st => st.i < dataSize) (decompressChunk decode) dataSize
    ⟨dst, src, me.crc32, 0, 0⟩
  if st.fileOrigSize ≤ dataSize then none
  else return (st.dst, st.src, { me with crc32 := st.crc32 })

/-- `bra_io_file_chunks_read_file`. -/
def braIoFileChunksReadFile (src : IoFile) (dataSize : Nat) (me : MetaEntry) (decode : Bool) :
    Option (Option IoFile × IoFile × MetaEntry) :=
  if braAttrComp me.attributes = braAttrCompStored then
    braIoFileChunksCopyFile none src dataSize me decode
  else if braAttrComp me.attributes = braAttrCompCompressed then
    braIoFileChunksDecompressFile none src dataSize me decode
  else none

/-! ## Reading back what was written -/

theorem BraHuffman.image_length (huffman : BraHuffman) : huffman.image.length = sizeofHuffman := by
  simp [BraHuffman.image, alphabet, sizeofHuffman]

theorem ChunkHeader.image_length (header : ChunkHeader) :
    header.image.length = sizeofChunkHeader := by
  rw [ChunkHeader.image, List.length_append, leBytes_length, BraHuffman.image_length,
    sizeofChunkHeader]

theorem ChunkHeader.diskImage_length (header : ChunkHeader) :
    header.diskImage.length = braIoChunkHeaderSize := by
  rw [ChunkHeader.diskImage, List.length_append, leBytes_length, BraHuffman.image_length,
    braIoChunkHeaderSize]

theorem ofNat_leValue_leBytes (n : UInt32) : UInt32.ofNat (leValue (leBytes 4 n.toNat)) = n := by
  rw [leValue_leBytes, Nat.mod_eq_of_lt (by have := n.toNat_lt; omega), UInt32.ofNat_toNat]

theorem BraHuffman.ofImage_image (huffman : BraHuffman) :
    BraHuffman.ofImage huffman.image = huffman := by
  have hlen : (alphabet.map huffman.lengths).length = 256 := by simp [alphabet]
  have hlengths : ∀ s : UInt8, huffman.image.getD s.toNat 0 = huffman.lengths s := by
    intro s
    have hs : s.toNat < 256 := s.toNat_lt
    rw [BraHuffman.image, List.append_assoc, List.getD_eq_getElem?_getD,
      List.getElem?_append_left (by omega), List.getElem?_map, alphabet, List.getElem?_map,
      List.getElem?_range hs]
    simp
  have horig : (huffman.image.drop 256).take 4 = leBytes 4 huffman.origSize.toNat := by
    rw [BraHuffman.image, List.append_assoc, List.drop_left' hlen, List.take_left' (by simp)]
  have henc : (huffman.image.drop 260).take 4 = leBytes 4 huffman.encodedSize.toNat := by
    rw [BraHuffman.image, List.drop_left' (by rw [List.length_append, hlen, leBytes_length]),
      List.take_of_length_le (by simp)]
  cases huffman with
  | mk lengths origSize encodedSize =>
    simp only [BraHuffman.ofImage, horig, henc, ofNat_leValue_leBytes]
    exact congrArg (BraHuffman.mk · origSize encodedSize) (funext hlengths)

/-- A header is read back, provided three bytes hold its primary index. -/
theorem braIoFileChunksReadHeader_ioAt (pre : Bytes) {header : ChunkHeader}
    (hindex : header.primaryIndex < 256 ^ braBwtIndexBytes) (post : Bytes) :
    braIoFileChunksReadHeader (ioAt pre (header.diskImage ++ post)) =
      some (header, ioAt (pre ++ header.diskImage) post) := by
  have hread := braIoFileRead_ioAt pre (leBytes braBwtIndexBytes header.primaryIndex)
    (header.huffman.image ++ post) (leBytes_length _ _)
  have hread' := braIoFileRead_ioAt (pre ++ leBytes braBwtIndexBytes header.primaryIndex)
    header.huffman.image post header.huffman.image_length
  rw [braIoFileChunksReadHeader, ChunkHeader.diskImage, List.append_assoc, hread]
  simp only [Option.bind_eq_bind, Option.bind_some, hread', Option.pure_def, leValue_leBytes,
    Nat.mod_eq_of_lt hindex, BraHuffman.ofImage_image, List.append_assoc]

theorem braIoFileChunksWriteHeader_ioAt_nil (pre : Bytes) (header : ChunkHeader) :
    braIoFileChunksWriteHeader (ioAt pre []) header = ioAt (pre ++ header.diskImage) [] := by
  rw [braIoFileChunksWriteHeader, braIoFileWrite_ioAt_nil, braIoFileWrite_ioAt_nil,
    ChunkHeader.diskImage, List.append_assoc]

theorem validate_eq_true_iff {header : ChunkHeader} :
    braIoFileChunksHeaderValidate header = true ↔
      header.primaryIndex < braMaxChunkSize ∧
        0 < header.huffman.encodedSize.toNat ∧
        header.huffman.encodedSize.toNat ≤ braMaxChunkSize ∧
        0 < header.huffman.origSize.toNat ∧ header.huffman.origSize.toNat ≤ braMaxChunkSize := by
  unfold braIoFileChunksHeaderValidate
  repeat' split
  all_goals
    simp only [reduceCtorEq, true_iff, false_iff]
    omega

/-- A chunk read to the end of its payload, if the payload is a Huffman code. -/
theorem decompressRead_ioAt (pre : Bytes) {header : ChunkHeader}
    (hvalid : braIoFileChunksHeaderValidate header = true) {data buf : Bytes}
    (hdata : data.length = header.huffman.encodedSize.toNat)
    (hdec : (braHuffmanDecode header.huffman data).decoded = some buf)
    (hout : (braHuffmanDecode header.huffman data).outSize = buf.length) (post : Bytes) :
    decompressRead (ioAt pre (header.diskImage ++ data ++ post)) =
      some (header, buf, ioAt (pre ++ (header.diskImage ++ data)) post) := by
  have hindex : header.primaryIndex < 256 ^ braBwtIndexBytes :=
    Nat.lt_trans (validate_eq_true_iff.mp hvalid).1 (by decide)
  have hread := braIoFileRead_ioAt (pre ++ header.diskImage) data post hdata
  rw [decompressRead, List.append_assoc, braIoFileChunksReadHeader_ioAt pre hindex]
  simp only [Option.bind_eq_bind, Option.bind_some, hvalid, Bool.not_true, Bool.false_eq_true,
    if_false, hread, hdec, hout, List.take_length, Option.pure_def, List.append_assoc]

end BrArchive
