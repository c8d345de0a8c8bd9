import BrArchive.ChunkLoops
import BrArchive.HuffmanSize

/-! # Compressing and decompressing a file

The four decoders undo the four encoders on every chunk.  What can go wrong is in
between: the run-length encoder may make a chunk longer than the header check of the
reader allows, and the writer, which looks only at the size of the whole file, keeps the
compressed form all the same.
-/
namespace BrArchive
open WhileLoop

section Chunk
variable (qsortR : QsortR)

/-- The size of a chunk after the run-length encoder, `buf_rle_s`. -/
def rleSize (c : Bytes) : Nat := rleEncodeComputeSize (braMtfEncode2 (braBwtEncode2 qsortR c).1)

/-- The chunk after the run-length encoder. -/
def rleData (c : Bytes) : Bytes :=
  (rleEncodeBlocks c.length (braMtfEncode2 (braBwtEncode2 qsortR c).1)).flatMap RleBlock.encode

theorem transformed_length (c : Bytes) :
    (braMtfEncode2 (braBwtEncode2 qsortR c).1).length = c.length := by
  rw [braMtfEncode2_length, braBwtEncode2_length]

theorem rleData_length (c : Bytes) : (rleData qsortR c).length = rleSize qsortR c := by
  rw [rleSize, rleEncodeComputeSize_eq, transformed_length, rleData]

variable {c : Bytes} (hpos : 0 < c.length)
include hpos

theorem transformed_ne_nil : braMtfEncode2 (braBwtEncode2 qsortR c).1 ≠ [] :=
  List.ne_nil_of_length_pos (by rwa [transformed_length])

theorem rleData_spec :
    braRleEncode (braMtfEncode2 (braBwtEncode2 qsortR c).1) = some (rleData qsortR c) ∧
      0 < (rleData qsortR c).length := by
  obtain ⟨henc, hne⟩ := braRleEncode_eq_some (transformed_ne_nil qsortR hpos)
  rw [transformed_length] at henc hne
  exact ⟨henc, List.length_pos_iff.mpr hne⟩

/-- What the reader's last three stages make of it. -/
theorem decompressData_rleData (hmax : c.length ≤ braMaxChunkSize) {header : ChunkHeader}
    (hindex : header.primaryIndex = (braBwtEncode2 qsortR c).2) :
    decompressData header (rleData qsortR c) = some c := by
  have hdec := braRleDecode_braRleEncode (transformed_ne_nil qsortR hpos)
    (rleData_spec qsortR hpos).1
  have hlt := (braBwtEncode2_primaryIndex qsortR c hpos).1
  rw [decompressData, hdec]
  simp only [Option.bind_eq_bind, Option.bind_some, transformed_length, hindex]
  rw [if_neg (Nat.not_le.mpr hlt), braMtfDecode2_braMtfEncode2,
    braBwtDecode2_braBwtEncode2 qsortR c hpos (by rwa [List.length_replicate])]
  rfl

/-- **One chunk.**  The encoders succeed, the decoders undo them, and the header passes
the reader's check exactly if the run-length encoder kept to the capacity. -/
theorem compressData_spec (hmax : c.length ≤ braMaxChunkSize) :
    compressData qsortR c = some (encodedChunk qsortR c) ∧
      ChunkDecodes (encodedChunk qsortR c) c ∧
      (encodedChunk qsortR c).1.primaryIndex < c.length ∧
      (braIoFileChunksHeaderValidate (encodedChunk qsortR c).1 = true ↔
        rleSize qsortR c ≤ braMaxChunkSize) ∧
      ∀ k, 1 ≤ k → (alphabet.filter (· ∈ rleData qsortR c)).length ≤ 2 ^ k →
        (encodedChunk qsortR c).2.length ≤ (k * rleSize qsortR c + 7) / 8 := by
  obtain ⟨hrle, hrlepos⟩ := rleData_spec qsortR hpos
  -- runs and literals make the data longer by one byte in 128 at most
  have hbound : (rleData qsortR c).length ≤ braMaxChunkSize + braMaxChunkSize / 128 := by
    have := (rleEncodeBlocks_length_le c.length (braMtfEncode2 (braBwtEncode2 qsortR c).1)).1
    rw [transformed_length] at this
    rw [rleData]
    simp only [braMaxChunkSize] at *
    omega
  obtain ⟨root, hroot⟩ := exists_bufferTree hrlepos
  have hheight := height_le_of_merges hbound hroot.run
  obtain ⟨chunk, hchunk, hlengths, henc⟩ := hroot.encode hrlepos hbound
  have htake : chunk.data.take chunk.info.encodedSize.toNat = chunk.data :=
    List.take_of_length_le (Nat.le_of_eq henc.length)
  have hdata : compressData qsortR c =
      some (⟨(braBwtEncode2 qsortR c).2, chunk.info⟩, chunk.data) := by
    simp only [compressData, hrle, Option.bind_eq_bind, Option.bind_some, hchunk, htake,
      Option.pure_def]
  have hget : encodedChunk qsortR c = (⟨(braBwtEncode2 qsortR c).2, chunk.info⟩, chunk.data) := by
    rw [encodedChunk, hdata, Option.getD_some]
  have hbits : ∀ k, 1 ≤ k → (alphabet.filter (· ∈ rleData qsortR c)).length ≤ 2 ^ k →
      chunk.info.encodedSize.toNat ≤ (k * (rleData qsortR c).length + 7) / 8 := by
    intro k hk hsyms
    have := hroot.codeBitCount_le_mul hheight hk (by rwa [minHeapLeaves_length])
    rw [henc.encodedSize, hlengths]
    omega
  -- some symbol has a code, and that has at least one bit
  have hencpos : 0 < chunk.info.encodedSize.toNat := by
    obtain ⟨b, hb⟩ := List.exists_mem_of_length_pos hrlepos
    have hlen := (hroot.length_pos_iff hheight b).mpr hb
    have hle : codeLength root.lengths b ≤ codeBitCount root.lengths (rleData qsortR c) :=
      List.single_le_sum (fun _ _ => Nat.zero_le _) _ (List.mem_map_of_mem hb)
    rw [henc.encodedSize, hlengths]
    omega
  rw [hget, ← rleData_length]
  refine ⟨hdata, ⟨henc.length, _, henc.decoded, henc.outSize,
    decompressData_rleData qsortR hpos hmax rfl⟩, (braBwtEncode2_primaryIndex qsortR c hpos).1, ?_,
    ?_⟩
  · have hindex := (braBwtEncode2_primaryIndex qsortR c hpos).1
    have hle := hbits 8 (by decide) (Nat.le_trans (List.length_filter_le _ _) (by simp [alphabet]))
    have horig := henc.origSize
    rw [validate_eq_true_iff]
    dsimp only
    omega
  · intro k hk hsyms
    dsimp only
    rw [henc.length]
    exact hbits k hk hsyms

end Chunk

section File
variable (qsortR : QsortR)

/-- What the compressor makes of a file. -/
def compressedData (x : Bytes) : Bytes :=
  (fileChunks x).flatMap fun c => chunkImage (encodedChunk qsortR c)

theorem compressData_fileChunks (x : Bytes) :
    ∀ c ∈ fileChunks x, compressData qsortR c = some (encodedChunk qsortR c) := by
  intro c hc
  obtain ⟨hpos, hmax⟩ := (fileChunks_isSplit x).bounds c hc
  exact (compressData_spec qsortR hpos hmax).1

/-- **The compressor on a file**: what it keeps, and what it records. -/
theorem braIoFileChunksCompressFile_write (dst : IoFile) (x : Bytes) (me : MetaEntry) :
    braIoFileChunksCompressFile qsortR dst (ioAt [] x) x.length me =
      if (compressedData qsortR x).length ≥ x.length then
        some ⟨false, dst, ioAt x [],
          { me with attributes := braAttrSetComp me.attributes braAttrCompStored }⟩
      else if braAttrType me.attributes ≠ .file then none
      else
        some ⟨true,
          braIoFileWrite dst (leBytes 8 (compressedData qsortR x).length ++
            compressedData qsortR x),
          ioAt x [],
          { me with
            entryData := .file (compressedData qsortR x).length
            crc32 := writerCrc me.crc32 (compressedData qsortR x).length x.length
              ((fileChunks x).map (crcChunk qsortR)) }⟩ := by
  -- the loop does not depend on what becomes of its result
  have hrun := compressLoop_run qsortR (fileChunks_isSplit x) (compressData_fileChunks qsortR x)
    x.length x.length 0 [] [] [] braCrc32cInit (by simp) (by simp)
  rw [fileChunks_flatten, List.append_nil, List.nil_append, List.nil_append, ← compressedData]
    at hrun
  have hstart : (⟨[], 0⟩ : IoFile) = ioAt [] [] := rfl
  have htell : braIoFileTell (ioAt (compressedData qsortR x) []) =
      (compressedData qsortR x).length := rfl
  have hseek : braIoFileSeekSet (ioAt (compressedData qsortR x) []) 0 =
      ioAt [] (compressedData qsortR x ++ []) := by
    simp [braIoFileSeekSet, ioAt]
  have hdst : ∀ f, some (braIoFileWrite dst (leBytes 8 (compressedData qsortR x).length)) =
      some f → f.pos ≤ f.data.length := fun f hf =>
    Option.some.inj hf ▸ pos_le_braIoFileWrite _ _
  have hcopy := fun me' => braIoFileChunksCopyFile_write hdst [] (compressedData qsortR x) []
    me' false
  simp only [braIoFileChunksCompressFile, hstart, hrun, Option.bind_eq_bind, Option.bind_some]
  by_cases hle : (compressedData qsortR x).length ≥ x.length
  · rw [if_pos (htell.symm ▸ hle), if_pos hle]
    rfl
  · rw [if_neg (htell.symm ▸ hle), if_neg hle, htell]
    simp only [braIoFileMetaEntryWriteFileEntry, MetaEntry.dataSize, hseek]
    by_cases htype : braAttrType me.attributes ≠ .file
    · rw [if_pos htype, if_pos htype]
      rfl
    · rw [if_neg htype, if_neg htype, Option.bind_some, hcopy, ← braIoFileWrite_append]
      rfl

/-- The compressor at the end of an archive. -/
theorem braIoFileChunksCompressFile_eq (dst x : Bytes) (me : MetaEntry) :
    braIoFileChunksCompressFile qsortR (ioAt dst []) (ioAt [] x) x.length me =
      if (compressedData qsortR x).length ≥ x.length then
        some ⟨false, ioAt dst [], ioAt x [],
          { me with attributes := braAttrSetComp me.attributes braAttrCompStored }⟩
      else if braAttrType me.attributes ≠ .file then none
      else
        some ⟨true,
          ioAt (dst ++ leBytes 8 (compressedData qsortR x).length ++ compressedData qsortR x) [],
          ioAt x [],
          { me with
            entryData := .file (compressedData qsortR x).length
            crc32 := writerCrc me.crc32 (compressedData qsortR x).length x.length
              ((fileChunks x).map (crcChunk qsortR)) }⟩ := by
  rw [braIoFileChunksCompressFile_write, braIoFileWrite_ioAt_nil, List.append_assoc]

/-- **The decompressor on a compressed file** whose chunk headers pass the check. -/
theorem decompress_compressedData {x : Bytes} (hx : x.length < 2 ^ 64)
    (hkept : (compressedData qsortR x).length < x.length)
    (hvalid : ∀ c ∈ fileChunks x,
      braIoFileChunksHeaderValidate (encodedChunk qsortR c).1 = true)
    (pre post : Bytes) (me : MetaEntry) :
    braIoFileChunksDecompressFile (some (ioAt [] []))
        (ioAt pre (compressedData qsortR x ++ post)) (compressedData qsortR x).length me true =
      some (some (ioAt x []), ioAt (pre ++ compressedData qsortR x) post,
        { me with
          crc32 := ((fileChunks x).map (crcChunk qsortR)).foldl decompressCrcChunk me.crc32 }) := by
  have hdecodes : ∀ c ∈ fileChunks x, ChunkDecodes (encodedChunk qsortR c) c := by
    intro c hc
    obtain ⟨hpos, hmax⟩ := (fileChunks_isSplit x).bounds c hc
    exact (compressData_spec qsortR hpos hmax).2.1
  have hrun := decompressLoop_run hdecodes hvalid (compressedData qsortR x).length
    (compressedData qsortR x).length 0 0 [] pre post (some (ioAt [] [])) me.crc32
    (Nat.le_refl _) (Nat.zero_add _).symm (by decide) (fun f hf => (Option.some.inj hf).symm)
  rw [fileChunks_flatten, List.nil_append, Nat.zero_add, Nat.mod_eq_of_lt hx,
    ← compressedData] at hrun
  simp only [braIoFileChunksDecompressFile, hrun, Option.bind_eq_bind, Option.bind_some]
  rw [if_neg (Nat.not_le.mpr hkept)]
  rfl

/-- **A file comes back**: the compressor appended to the archive the size it recorded and
that many bytes; wherever these stand in a file, the decompressor takes just them and
writes the original; and every chunk header is one the reader accepts. -/
structure RoundTrips (x dst : Bytes) (r : CompressResult) : Prop where
  decompress : ∃ payload,
    r.dst = ioAt (dst ++ leBytes 8 r.me.dataSize ++ payload) [] ∧
    payload.length = r.me.dataSize ∧
    ∀ pre post me, ∃ me',
      braIoFileChunksDecompressFile (some (ioAt [] [])) (ioAt pre (payload ++ post))
          r.me.dataSize me true =
        some (some (ioAt x []), ioAt (pre ++ payload) post, me')
  headers : ∀ c ∈ fileChunks x, ∀ header data, compressData qsortR c = some (header, data) →
    braIoFileChunksHeaderValidate header = true

/-- **When compression is lossless**: whenever the compressed form of a file is kept, it
comes back exactly if the run-length encoder made no chunk longer than the capacity. -/
theorem compress_roundTrips_iff {x dst : Bytes} {me : MetaEntry} {r : CompressResult}
    (hx : x.length < 2 ^ 64)
    (h : braIoFileChunksCompressFile qsortR (ioAt dst []) (ioAt [] x) x.length me = some r)
    (hkept : r.res = true) :
    RoundTrips qsortR x dst r ↔ ∀ c ∈ fileChunks x, rleSize qsortR c ≤ braMaxChunkSize := by
  -- a header is refused for its RLE size only
  have hiff : ∀ c ∈ fileChunks x,
      (braIoFileChunksHeaderValidate (encodedChunk qsortR c).1 = true ↔
        rleSize qsortR c ≤ braMaxChunkSize) := by
    intro c hc
    obtain ⟨hpos, hmax⟩ := (fileChunks_isSplit x).bounds c hc
    exact (compressData_spec qsortR hpos hmax).2.2.2.1
  constructor
  · intro hround c hc
    exact (hiff c hc).mp (hround.headers c hc _ _ (compressData_fileChunks qsortR x c hc))
  · intro hsize
    have hvalid := fun c hc => (hiff c hc).mpr (hsize c hc)
    rw [braIoFileChunksCompressFile_eq] at h
    split at h
    · obtain rfl := Option.some.inj h
      cases hkept
    · rename_i hlt
      split at h
      · cases h
      · obtain rfl := Option.some.inj h
        refine ⟨⟨compressedData qsortR x, rfl, rfl, fun pre post me' => ⟨_,
          decompress_compressedData qsortR hx (Nat.not_le.mp hlt) hvalid pre post me'⟩⟩, ?_⟩
        intro c hc header data hdata
        have henc := (compressData_fileChunks qsortR x c hc).symm.trans hdata
        have hheader : (encodedChunk qsortR c).1 = header := congrArg Prod.fst (Option.some.inj henc)
        exact hheader ▸ hvalid c hc

/-- A file of one repeated letter is its own transform. -/
theorem braBwtEncode2_replicate (n : Nat) (b : UInt8) :
    (braBwtEncode2 qsortR (List.replicate n b)).1 = List.replicate n b := by
  have hrows : (List.range (List.replicate n b).length).map (List.replicate n b).rotate =
      List.replicate n (List.replicate n b) := by
    rw [List.length_replicate]
    refine List.eq_replicate_iff.mpr ⟨by simp, fun row hrow => ?_⟩
    obtain ⟨i, -, rfl⟩ := List.mem_map.mp hrow
    exact List.rotate_replicate b n i
  have hperm : (List.replicate n (List.replicate n b)).Perm
      ((List.range (List.replicate n b).length).map (List.replicate n b).rotate) := by
    rw [hrows]
  rw [braBwtEncode2_of_sorted qsortR _ hperm (List.pairwise_replicate.mpr (Or.inr (le_refl _))),
    List.map_replicate]
  cases n with
  | zero => rfl
  | succ n => rw [List.getLastD_eq_getLast?, List.getLast?_replicate, if_neg (by omega)]; rfl

/-- 300 times the letter `A`. -/
theorem compress_roundTrips_iff_letters :
    ∃ r, braIoFileChunksCompressFile QsortR.mergeSort (ioAt [] [])
        (ioAt [] (List.replicate 300 65)) (List.replicate 300 (65 : UInt8)).length
        (braMetaEntryInit 4 [97] 1) = some r ∧ r.res = true ∧
      (RoundTrips QsortR.mergeSort (List.replicate 300 65) [] r ↔
        ∀ c ∈ fileChunks (List.replicate 300 65),
          rleSize QsortR.mergeSort c ≤ braMaxChunkSize) := by
  have hchunks : fileChunks (List.replicate 300 (65 : UInt8)) = [List.replicate 300 65] := by
    decide +kernel
  have hsize : rleSize QsortR.mergeSort (List.replicate 300 65) = 8 := by
    rw [rleSize, braBwtEncode2_replicate]
    decide +kernel
  have hlen : (List.replicate 300 (65 : UInt8)).length = 300 := List.length_replicate
  obtain ⟨-, -, -, -, hbits⟩ := compressData_spec QsortR.mergeSort
    (c := List.replicate 300 65) (by rw [hlen]; decide) (by rw [hlen]; decide)
  have hdata := hbits 8 (by decide)
    (Nat.le_trans (List.length_filter_le _ _) (by simp [alphabet]))
  rw [hsize] at hdata
  have hkept : ¬ (compressedData QsortR.mergeSort (List.replicate 300 65)).length ≥
      (List.replicate 300 (65 : UInt8)).length := by
    rw [compressedData, hchunks, List.flatMap_singleton, chunkImage, List.length_append,
      ChunkHeader.diskImage_length, hlen, braIoChunkHeaderSize, braBwtIndexBytes, sizeofHuffman]
    omega
  have hrun := braIoFileChunksCompressFile_eq QsortR.mergeSort [] (List.replicate 300 65)
    (braMetaEntryInit 4 [97] 1)
  rw [if_neg hkept, if_neg (by decide)] at hrun
  exact ⟨_, hrun, rfl, compress_roundTrips_iff QsortR.mergeSort (by rw [hlen]; decide) hrun rfl⟩

end File
end BrArchive
