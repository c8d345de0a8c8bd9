import BrArchive.Chunks
import BrArchive.HuffmanRoundTrip

/-! # The work buffers of the decompressor

`bra_init` gives each of the three work buffers `BRA_MAX_CHUNK_SIZE` bytes or entries.
The header of a chunk bounds what its payload is before run-length decoding; how much the
decoders write is only known after it, and nothing compares that with the capacity.
-/
namespace BrArchive
open CodeTree WhileLoop

/-- The bytes the decoders write to a work buffer for the chunk at the position of `src`:
`bra_mtf_decode2` to `g_buf2`, `bra_bwt_decode2` to `g_buf`, and as many entries to
`g_buf_trans`. -/
def ChunkWrites (src : IoFile) (s : Nat) : Prop :=
  ∃ header bufHuffman src' bufRle, decompressRead src = some (header, bufHuffman, src') ∧
    braRleDecode bufHuffman = some bufRle ∧ header.primaryIndex < bufRle.length ∧
    s = (braMtfDecode2 bufRle).length

/-- The loop of the decompressor, on a file at some position. -/
def DecompressReaches (dst : Option IoFile) (src : IoFile) (dataSize : Nat) (crc32 : BitVec 32)
    (st : DecompressState) : Prop :=
  Reaches (fun st => st.i < dataSize) (decompressChunk true) ⟨dst, src, crc32, 0, 0⟩ st

/-- The recorded size from which on a chunk may not fit: two bytes can stand for a run of 128. -/
def safeOrigSize : Nat := 4097

/-- The chunk at the position of `src`, if there is one, records a size of at most
`safeOrigSize`. -/
def RecordsSafeSize (src : IoFile) : Prop :=
  ∀ header src', braIoFileChunksReadHeader src = some (header, src') →
    header.huffman.origSize.toNat ≤ safeOrigSize

/-! ## What one chunk writes -/

/-- A block stands for 128 bytes at most for every two that it takes. -/
theorem RleBlock.count_le {block : RleBlock} (h : block.Valid) :
    block.count ≤ 128 * (block.encode.length / 2) := by
  cases block with
  | literal bytes =>
    have hpos := h.1
    simp only [encode, count, List.length_cons]
    omega
  | run count value =>
    have hmax : count ≤ 128 := h.2
    simp only [encode, RleBlock.count, List.length_cons, List.length_nil]
    omega
  | noop => exact Nat.zero_le _

/-- Sizes before and after run-length decoding. -/
theorem expand_length_le {blocks : List RleBlock} (h : ∀ block ∈ blocks, block.Valid) :
    (blocks.flatMap RleBlock.expand).length ≤
      128 * ((blocks.flatMap RleBlock.encode).length / 2) := by
  induction blocks with
  | nil => exact Nat.zero_le _
  | cons block blocks ih =>
    obtain ⟨hblock, hblocks⟩ := List.forall_mem_cons.mp h
    have hfirst := RleBlock.count_le hblock
    have hrest := ih hblocks
    rw [List.flatMap_cons, List.flatMap_cons, List.length_append, List.length_append,
      RleBlock.expand_length]
    omega

/-- A chunk that is read has a header, and a payload of the size recorded there. -/
theorem decompressRead_origSize {src src' : IoFile} {header : ChunkHeader} {bufHuffman : Bytes}
    (h : decompressRead src = some (header, bufHuffman, src')) :
    (∃ src₁, braIoFileChunksReadHeader src = some (header, src₁)) ∧
      bufHuffman.length = header.huffman.origSize.toNat := by
  rw [decompressRead] at h
  obtain ⟨⟨header', src₁⟩, hheader, h⟩ := Option.bind_eq_some_iff.mp h
  dsimp only at h
  split at h
  · cases h
  · obtain ⟨⟨gBuf, src₂⟩, -, h⟩ := Option.bind_eq_some_iff.mp h
    obtain ⟨buf, hbuf, h⟩ := Option.bind_eq_some_iff.mp h
    obtain ⟨rfl, rfl, -⟩ := Option.some.inj h
    exact ⟨⟨src₁, hheader⟩, huffmanDecode_length hbuf⟩

/-- **One chunk** stays inside the buffers if the size it records is a safe one. -/
theorem chunkWrites_le {src : IoFile} (hsafe : RecordsSafeSize src) {s : Nat}
    (h : ChunkWrites src s) : s ≤ braMaxChunkSize := by
  obtain ⟨header, bufHuffman, src', bufRle, hread, hdecode, -, rfl⟩ := h
  obtain ⟨-, blocks, hblocks, rfl, rfl⟩ := braRleDecode_eq_some_iff.mp hdecode
  obtain ⟨⟨src₁, hheader⟩, hlen⟩ := decompressRead_origSize hread
  have hle := expand_length_le hblocks
  have horig : header.huffman.origSize.toNat ≤ 4097 := hsafe header src₁ hheader
  rw [braMtfDecode2_length]
  change _ ≤ 262144
  omega

/-! ## Chunks that overrun the buffers -/

/-- Two symbols with a code of one bit: the control byte that announces nothing, and the one that
announces a run of 128. -/
def longRunLengths (s : UInt8) : UInt8 := if s = 0x80 ∨ s = 0x81 then 1 else 0

/-- Their codes. -/
def longRunCodes (s : UInt8) : List Bool := [s == 0x81]

theorem longRunLengths_tree : ∃ t, braHuffmanTreeBuildFromLengths longRunLengths = some t ∧
    ∀ s, s = 0x80 ∨ s = 0x81 → Codeword t (longRunCodes s) ⟨s, 0⟩ := by
  refine ⟨.node ⟨0, 0⟩ (leaf ⟨0x80, 0⟩) (leaf ⟨0x81, 0⟩), by decide +kernel, ?_⟩
  rintro s (rfl | rfl)
  · exact ⟨List.cons_ne_nil _ _, rfl⟩
  · exact ⟨List.cons_ne_nil _ _, rfl⟩

/-- `n` control bytes: runs of 128 bytes `0x81`, behind one that announces nothing if `n` is
odd. -/
def longRunBytes (n : Nat) : Bytes :=
  List.replicate (n % 2) 0x80 ++ List.replicate (n / 2 * 2) 0x81

theorem longRunBytes_length (n : Nat) : (longRunBytes n).length = n := by
  rw [longRunBytes, List.length_append, List.length_replicate, List.length_replicate]
  omega

theorem longRunBytes_decoded {n : Nat} (hn : 2 ≤ n) :
    braRleDecode (longRunBytes n) = some (List.replicate (n / 2 * 128) 0x81) := by
  refine braRleDecode_eq_some_iff.mpr ⟨List.ne_nil_of_length_pos ?_,
    List.replicate (n % 2) .noop ++ List.replicate (n / 2) (.run 128 0x81), fun b hb => ?_, ?_, ?_⟩
  · rw [List.length_replicate]
    omega
  · rcases List.mem_append.mp hb with hb | hb
    · rw [(List.mem_replicate.mp hb).2]
      trivial
    · rw [(List.mem_replicate.mp hb).2]
      exact ⟨by decide, by decide⟩
  · have hencode : (RleBlock.run 128 0x81).encode = List.replicate 2 0x81 := by decide
    rw [List.flatMap_append, List.flatMap_replicate, List.flatMap_replicate, hencode,
      List.flatten_replicate_replicate, RleBlock.encode, List.flatten_replicate_singleton]
    rfl
  · have hnoop : RleBlock.noop.expand = [] := rfl
    rw [List.flatMap_append, List.flatMap_replicate, List.flatMap_replicate, hnoop,
      List.flatten_replicate_nil, List.nil_append, RleBlock.expand,
      List.flatten_replicate_replicate]

/-- The codes of these bytes, and ones up to the end of the last byte. -/
def longRunData (n : Nat) : Bytes :=
  (if n % 2 = 1 then 0x7F else 0xFF) :: List.replicate ((n - 1) / 8) 0xFF

theorem longRunData_bits {n : Nat} (hn : 0 < n) :
    bitsOf (longRunData n) = codeBitsOf longRunCodes (longRunBytes n) ++
      List.replicate (8 * ((n - 1) / 8 + 1) - n) true := by
  have hones : ∀ m, bitsOf (List.replicate m 0xFF) = List.replicate (8 * m) true := by
    intro m
    induction m with
    | zero => rfl
    | succ m ih =>
      rw [List.replicate_succ, bitsOf_cons, ih, Nat.mul_succ, Nat.add_comm (8 * m),
        ← List.replicate_append_replicate]
      rfl
  have hfirst : byteBits (if n % 2 = 1 then 0x7F else 0xFF) =
      List.replicate (n % 2) false ++ List.replicate (8 - n % 2) true := by
    rcases Nat.mod_two_eq_zero_or_one n with h | h <;> rw [h] <;> decide
  rw [longRunData, bitsOf_cons, hfirst, hones, longRunBytes, codeBitsOf, List.flatMap_append,
    List.flatMap_replicate, List.flatMap_replicate]
  change _ = (List.replicate _ [false]).flatten ++ (List.replicate _ [true]).flatten ++ _
  rw [List.flatten_replicate_singleton, List.flatten_replicate_singleton, List.append_assoc,
    List.append_assoc, List.replicate_append_replicate, List.replicate_append_replicate]
  congr 2
  omega

/-- The header of a chunk of them. -/
def longRunHeader (n : Nat) : ChunkHeader :=
  ⟨0, longRunLengths, UInt32.ofNat n, UInt32.ofNat ((n - 1) / 8 + 1)⟩

section LongRuns
variable {n : Nat}

theorem longRunHeader_origSize (hmax : n ≤ braMaxChunkSize) :
    (longRunHeader n).huffman.origSize.toNat = n :=
  UInt32.toNat_ofNat_of_lt' (Nat.lt_of_le_of_lt hmax (by decide))

theorem longRunHeader_encodedSize (hmax : n ≤ braMaxChunkSize) :
    (longRunHeader n).huffman.encodedSize.toNat = (n - 1) / 8 + 1 := by
  refine UInt32.toNat_ofNat_of_lt' ?_
  have hmax : n ≤ 262144 := hmax
  change _ < 4294967296
  omega

theorem longRunHeader_valid (hn : 0 < n) (hmax : n ≤ braMaxChunkSize) :
    braIoFileChunksHeaderValidate (longRunHeader n) = true := by
  rw [validate_eq_true_iff, longRunHeader_origSize hmax, longRunHeader_encodedSize hmax]
  have hmax' : n ≤ 262144 := hmax
  refine ⟨Nat.zero_lt_of_lt (Nat.lt_of_lt_of_le hn hmax), by omega, ?_, hn, hmax⟩
  change _ ≤ 262144
  omega

theorem longRunData_length (hmax : n ≤ braMaxChunkSize) :
    (longRunData n).length = (longRunHeader n).huffman.encodedSize.toNat := by
  rw [longRunHeader_encodedSize hmax, longRunData, List.length_cons, List.length_replicate]

theorem longRunData_decoded (hn : 0 < n) (hmax : n ≤ braMaxChunkSize) :
    (braHuffmanDecode (longRunHeader n).huffman (longRunData n)).decoded =
        some (longRunBytes n) ∧
      (braHuffmanDecode (longRunHeader n).huffman (longRunData n)).outSize = n := by
  obtain ⟨t, ht, hcode⟩ := longRunLengths_tree
  have horig := longRunHeader_origSize hmax
  have hcodes : ∀ b ∈ longRunBytes n, Codeword t (longRunCodes b) ⟨b, 0⟩ := fun b hb =>
    hcode b ((List.mem_append.mp hb).imp (fun h => (List.mem_replicate.mp h).2)
      fun h => (List.mem_replicate.mp h).2)
  have hpad : (List.replicate (8 * ((n - 1) / 8 + 1) - n) true).length < 8 := by
    rw [List.length_replicate]
    omega
  obtain ⟨d, hrun, hdec, hidx⟩ := decodeFrom_codeBitsOf
    (longRunHeader n).huffman.origSize.toNat_lt (longRunBytes n) [] (longRunData n) ⟨t, [], 0, []⟩
    (List.ne_nil_of_length_pos (by rw [longRunBytes_length]; exact hn)) hcodes rfl (Nat.zero_le 8)
    hpad ((List.nil_append _).trans (longRunData_bits hn))
    (by rw [longRunBytes_length, horig]; exact Nat.zero_add n)
  have hlen : (longRunData n).length ≤ (longRunHeader n).huffman.encodedSize.toNat :=
    (longRunData_length hmax).le
  have hlengths : (longRunHeader n).huffman.lengths = longRunLengths := rfl
  rw [decodeFrom_nil, horig] at hrun
  rw [braHuffmanDecode, hlengths, ht, List.take_of_length_le hlen]
  simp only [horig, hrun, huffmanFinish, hidx, hdec, ne_eq, not_true_eq_false, if_false]
  exact ⟨rfl, trivial⟩

/-- The data of an entry of one such chunk. -/
def longRunFile (n : Nat) : IoFile :=
  ioAt [] ((longRunHeader n).diskImage ++ longRunData n ++ [])

theorem longRunFile_header (n : Nat) : ∃ src',
    braIoFileChunksReadHeader (longRunFile n) = some (longRunHeader n, src') := by
  have hindex : (longRunHeader n).primaryIndex < 256 ^ braBwtIndexBytes :=
    Nat.pow_pos (Nat.zero_lt_succ _)
  rw [longRunFile, List.append_assoc]
  exact ⟨_, braIoFileChunksReadHeader_ioAt [] hindex _⟩

/-- Every two of its bytes become 128. -/
theorem longRunFile_writes (hn : 2 ≤ n) (hmax : n ≤ braMaxChunkSize) :
    ChunkWrites (longRunFile n) (n / 2 * 128) := by
  have hpos : 0 < n := Nat.lt_of_lt_of_le Nat.zero_lt_two hn
  obtain ⟨hdec, hout⟩ := longRunData_decoded hpos hmax
  have hread := decompressRead_ioAt [] (longRunHeader_valid hpos hmax) (longRunData_length hmax)
    hdec (hout.trans (longRunBytes_length n).symm) []
  refine ⟨longRunHeader n, _, _, _, hread, longRunBytes_decoded hn, ?_, ?_⟩
  · rw [List.length_replicate]
    change 0 < _
    omega
  · rw [braMtfDecode2_length, List.length_replicate]

end LongRuns

/-- **When the decompressor stays inside its work buffers**: on every archive and for every
recorded size, as long as the chunks that the loop gets to record safe sizes; and with any other
size that the check of the header lets pass there is a chunk on which it does not. -/
theorem decompress_inBounds (dst : Option IoFile) (dataSize : Nat) (crc32 : BitVec 32) :
    (∀ src, (∀ st, DecompressReaches dst src dataSize crc32 st → st.i < dataSize →
        RecordsSafeSize st.src) →
      ∀ st, DecompressReaches dst src dataSize crc32 st → st.i < dataSize →
        ∀ s, ChunkWrites st.src s → s ≤ braMaxChunkSize) ∧
    (0 < dataSize → ∀ n, safeOrigSize < n → n ≤ braMaxChunkSize → ∃ src header src',
      braIoFileChunksReadHeader src = some (header, src') ∧ header.huffman.origSize.toNat = n ∧
      ¬ ∀ st, DecompressReaches dst src dataSize crc32 st → st.i < dataSize →
        ∀ s, ChunkWrites st.src s → s ≤ braMaxChunkSize) := by
  refine ⟨fun src hsafe st hreach hi s hwrites => chunkWrites_le (hsafe st hreach hi) hwrites,
    fun hsize n hn hmax => ?_⟩
  have hn : 4097 < n := hn
  obtain ⟨src', hheader⟩ := longRunFile_header n
  refine ⟨longRunFile n, longRunHeader n, src', hheader, longRunHeader_origSize hmax, fun h => ?_⟩
  -- the first chunk that the loop gets to is the one
  have hle : n / 2 * 128 ≤ 262144 :=
    h _ (.refl _) hsize _ (longRunFile_writes (by omega) hmax)
  omega

/-- **A chunk of 780 bytes makes the decoders write 262272 bytes** to buffers of 262144. -/
theorem longRunFile_overruns :
    ¬ ∀ st, DecompressReaches none (longRunFile 4098) 780 0 st → st.i < 780 →
      ∀ s, ChunkWrites st.src s → s ≤ braMaxChunkSize := by
  intro h
  have hle := h _ (.refl _) (by decide) _ (longRunFile_writes (n := 4098) (by decide) (by decide))
  exact absurd hle (by decide)

end BrArchive
