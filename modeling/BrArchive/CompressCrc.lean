import BrArchive.Crc32c

/-! # The checksum of a compressed entry

The writer computes the checksum of the chunks on its own, gluing each chunk's data to
its header with `bra_crc32c_combine`, and glues the result to the checksum of the entry
header in the end; the reader runs `bra_crc32c` over everything in order.  The two
agree as long as the number of bytes glued in the end survives the conversion to the
`uint32_t` parameter of `bra_crc32c_combine`.
-/
namespace BrArchive
open XorLinear

/-- What the checksum sees of a chunk: the image of its header in memory, and its
original bytes. -/
structure CrcChunk where
  header : Bytes
  data : Bytes

/-- The checksum lines in the loop of `bra_io_file_chunks_compress_file`. -/
def compressCrcChunk (crc32 : BitVec 32) (chunk : CrcChunk) : BitVec 32 :=
  let crcSourceChunk := braCrc32c chunk.data braCrc32cInit
  let crc32 := braCrc32c chunk.header crc32
  braCrc32cCombine crc32 crcSourceChunk chunk.data.length

/-- `num_chunks`. -/
def numChunks (dataSize : Nat) : Nat :=
  if dataSize % braMaxChunkSize > 0 then dataSize / braMaxChunkSize + 1
  else dataSize / braMaxChunkSize

/-- The checksum lines at the end of `bra_io_file_chunks_compress_file`. -/
def compressCrcFinish (meCrc32 crc32 : BitVec 32) (tmpfileSize dataSize : Nat) : BitVec 32 :=
  let meCrc32 := braCrc32c (leBytes 8 tmpfileSize) meCrc32
  braCrc32cCombine meCrc32 crc32
    ((dataSize + numChunks dataSize * sizeofChunkHeader) % 2 ^ 64)

/-- The checksum the writer leaves in `me->crc32`. -/
def writerCrc (meCrc32 : BitVec 32) (tmpfileSize dataSize : Nat) (chunks : List CrcChunk) :
    BitVec 32 :=
  compressCrcFinish meCrc32 (chunks.foldl compressCrcChunk braCrc32cInit) tmpfileSize dataSize

/-- The checksum lines in the loop of `bra_io_file_chunks_decompress_file`. -/
def decompressCrcChunk (crc32 : BitVec 32) (chunk : CrcChunk) : BitVec 32 :=
  braCrc32c chunk.data (braCrc32c chunk.header crc32)

/-- The checksum the reader computes, starting with the recorded size. -/
def readerCrc (meCrc32 : BitVec 32) (tmpfileSize : Nat) (chunks : List CrcChunk) : BitVec 32 :=
  chunks.foldl decompressCrcChunk (braCrc32c (leBytes 8 tmpfileSize) meCrc32)

/-- A file of `dataSize` bytes cut into chunks: all but the last are full. -/
structure IsChunking (dataSize : Nat) (chunks : List CrcChunk) : Prop where
  header : ∀ c ∈ chunks, c.header.length = sizeofChunkHeader
  bounds : ∀ c ∈ chunks, 0 < c.data.length ∧ c.data.length ≤ braMaxChunkSize
  full : ∀ c ∈ chunks.dropLast, c.data.length = braMaxChunkSize
  total : (chunks.map (fun c => c.data.length)).sum = dataSize

/-- Writer and reader agree on every file of a given size. -/
def CrcsAgree (dataSize : Nat) : Prop :=
  ∀ (meCrc32 : BitVec 32) (tmpfileSize : Nat) (chunks : List CrcChunk),
    IsChunking dataSize chunks →
      writerCrc meCrc32 tmpfileSize dataSize chunks = readerCrc meCrc32 tmpfileSize chunks

/-- The number of bytes the last checksum is glued over: the original bytes and one
header image for each chunk. -/
def crcLength (dataSize : Nat) : Nat := dataSize + numChunks dataSize * sizeofChunkHeader

/-! ## The bytes of the chunks -/

/-- The bytes of the chunks in order. -/
def chunkBytes (chunks : List CrcChunk) : Bytes := chunks.flatMap (fun c => c.header ++ c.data)

theorem foldl_decompressCrcChunk (chunks : List CrcChunk) (crc : BitVec 32) :
    chunks.foldl decompressCrcChunk crc = braCrc32c (chunkBytes chunks) crc := by
  induction chunks generalizing crc with
  | nil => exact (braCrc32c_nil crc).symm
  | cons c chunks ih =>
    rw [List.foldl_cons, ih, decompressCrcChunk, ← braCrc32c_append, ← braCrc32c_append,
      ← List.append_assoc]
    rfl

/-- Chunk by chunk the writer's glue is exact. -/
theorem foldl_compressCrcChunk {chunks : List CrcChunk}
    (h : ∀ c ∈ chunks, 0 < c.data.length ∧ c.data.length ≤ braMaxChunkSize) (crc : BitVec 32) :
    chunks.foldl compressCrcChunk crc = chunks.foldl decompressCrcChunk crc := by
  induction chunks generalizing crc with
  | nil => rfl
  | cons c chunks ih =>
    obtain ⟨hpos, hmax⟩ := h c List.mem_cons_self
    have hlt : c.data.length < 2 ^ 32 := Nat.lt_of_le_of_lt hmax (by decide)
    rw [List.foldl_cons, List.foldl_cons, compressCrcChunk, braCrc32cCombine_block hpos hlt,
      ih fun c' hc' => h c' (List.mem_cons_of_mem c hc')]
    rfl

section Chunking
variable {dataSize : Nat} {chunks : List CrcChunk}

theorem IsChunking.length_eq (h : IsChunking dataSize chunks) :
    chunks.length = numChunks dataSize := by
  rcases List.eq_nil_or_concat' chunks with rfl | ⟨l, c, rfl⟩
  · rw [← h.total]
    rfl
  · obtain ⟨hpos, hmax⟩ := h.bounds c (by simp)
    have hl : (l.map (fun c => c.data.length)).sum = l.length * braMaxChunkSize := by
      rw [List.map_congr_left (g := fun _ => braMaxChunkSize)
        fun c' hc' => h.full c' (by simpa using hc')]
      simp
    have htotal := h.total
    rw [List.map_append, List.sum_append, hl] at htotal
    simp only [List.map_cons, List.map_nil, List.sum_cons, List.sum_nil, Nat.add_zero] at htotal
    rw [List.length_append, List.length_singleton, numChunks]
    split <;> simp only [braMaxChunkSize] at * <;> omega

theorem IsChunking.chunkBytes_length (h : IsChunking dataSize chunks) :
    (chunkBytes chunks).length = crcLength dataSize := by
  have hsum : ∀ (l : List CrcChunk), (∀ c ∈ l, c.header.length = sizeofChunkHeader) →
      (chunkBytes l).length =
        (l.map (fun c => c.data.length)).sum + l.length * sizeofChunkHeader := by
    intro l hl
    induction l with
    | nil => rfl
    | cons c l ih =>
      have hc := hl c List.mem_cons_self
      have ih := ih fun c' hc' => hl c' (List.mem_cons_of_mem c hc')
      rw [chunkBytes] at ih ⊢
      rw [List.flatMap_cons, List.length_append, List.length_append, ih, hc, List.map_cons,
        List.sum_cons, List.length_cons, Nat.succ_mul]
      omega
  rw [hsum chunks h.header, h.total, h.length_eq, crcLength]

/-! ## When the last glue is exact -/

/-- Writer and reader side by side, on one file. -/
theorem writerCrc_eq_iff (h : IsChunking dataSize chunks) (meCrc32 : BitVec 32)
    (tmpfileSize : Nat) :
    writerCrc meCrc32 tmpfileSize dataSize chunks = readerCrc meCrc32 tmpfileSize chunks ↔
      if crcLength dataSize % 2 ^ 32 = 0 then
        braCrc32c (leBytes 8 tmpfileSize) meCrc32 =
          braCrc32c (chunkBytes chunks) (braCrc32c (leBytes 8 tmpfileSize) meCrc32)
      else
        crcBit^[8 * (2 ^ 32 * (crcLength dataSize / 2 ^ 32))]
            (braCrc32c (leBytes 8 tmpfileSize) meCrc32) =
          braCrc32c (leBytes 8 tmpfileSize) meCrc32 := by
  have hmod : crcLength dataSize % 2 ^ 64 % 2 ^ 32 = crcLength dataSize % 2 ^ 32 :=
    Nat.mod_mod_of_dvd _ (by decide)
  rw [writerCrc, readerCrc, compressCrcFinish, foldl_compressCrcChunk h.bounds,
    foldl_decompressCrcChunk, foldl_decompressCrcChunk, ← crcLength]
  generalize braCrc32c (leBytes 8 tmpfileSize) meCrc32 = a
  split
  · rename_i hzero
    -- combining with no bytes leaves the first checksum alone
    rw [braCrc32cCombine, if_pos (hmod.trans hzero)]
  · rename_i hne
    rw [braCrc32cCombine_eq (hmod ▸ hne), hmod, braCrc32c_eq (chunkBytes chunks) a,
      h.chunkBytes_length]
    constructor
    · intro heq
      rw [BitVec.xor_comm, BitVec.xor_comm _ (braCrc32c _ _)] at heq
      -- both sides end with the same steps, which can be undone
      have heq := xor_left_cancel heq
      conv at heq => rhs; rw [← Nat.mod_add_div (crcLength dataSize) (2 ^ 32), Nat.mul_add,
        Function.iterate_add_apply]
      exact (iterate_injective crcBit_iterate_order crcOrder_prime.pos _ heq).symm
    · intro heq
      congr 1
      conv => rhs; rw [← Nat.mod_add_div (crcLength dataSize) (2 ^ 32), Nat.mul_add,
        Function.iterate_add_apply, heq]

end Chunking

/-- Full chunks of zeros and a last chunk that ends in a given byte. -/
def zeroChunks (dataSize : Nat) (b : UInt8) : List CrcChunk :=
  List.replicate ((dataSize - 1) / braMaxChunkSize)
      ⟨List.replicate sizeofChunkHeader 0, List.replicate braMaxChunkSize 0⟩ ++
    [⟨List.replicate sizeofChunkHeader 0,
      List.replicate ((dataSize - 1) % braMaxChunkSize) 0 ++ [b]⟩]

theorem zeroChunks_isChunking {dataSize : Nat} (hpos : 0 < dataSize) (b : UInt8) :
    IsChunking dataSize (zeroChunks dataSize b) := by
  have hmax : 0 < braMaxChunkSize := by decide
  have hlast := Nat.mod_lt (dataSize - 1) hmax
  refine ⟨fun c hc => ?_, fun c hc => ?_, fun c hc => ?_, ?_⟩
  · rcases List.mem_append.mp hc with hc | hc
    · rw [(List.mem_replicate.mp hc).2, List.length_replicate]
    · rw [List.mem_singleton.mp hc, List.length_replicate]
  · rcases List.mem_append.mp hc with hc | hc
    · rw [(List.mem_replicate.mp hc).2, List.length_replicate]
      exact ⟨hmax, Nat.le_refl _⟩
    · rw [List.mem_singleton.mp hc, List.length_append, List.length_replicate,
        List.length_singleton]
      omega
  · rw [zeroChunks, List.dropLast_concat] at hc
    rw [(List.mem_replicate.mp hc).2, List.length_replicate]
  · simp only [zeroChunks, List.map_append, List.map_replicate, List.length_replicate,
      List.sum_append, List.map_cons, List.map_nil, List.length_append, List.length_singleton,
      List.sum_cons, List.sum_nil, List.sum_replicate, Nat.nsmul_eq_mul]
    have := Nat.div_add_mod (dataSize - 1) braMaxChunkSize
    rw [Nat.mul_comm] at this
    omega

theorem crcOrder_dvd_iff (q : Nat) : crcOrder ∣ 8 * (2 ^ 32 * q) ↔ crcOrder ∣ q := by
  have hcop : Nat.Coprime crcOrder (8 * 2 ^ 32) := by decide +kernel
  rw [← Nat.mul_assoc]
  exact hcop.dvd_mul_left

theorem zeroChunks_bytes (dataSize : Nat) :
    ∃ pre, ∀ b, chunkBytes (zeroChunks dataSize b) = pre ++ [b] := by
  refine ⟨chunkBytes (List.replicate ((dataSize - 1) / braMaxChunkSize)
      ⟨List.replicate sizeofChunkHeader 0, List.replicate braMaxChunkSize 0⟩) ++
    (List.replicate sizeofChunkHeader 0 ++
      List.replicate ((dataSize - 1) % braMaxChunkSize) 0), fun b => ?_⟩
  simp only [zeroChunks, chunkBytes, List.flatMap_append, List.flatMap_cons, List.flatMap_nil,
    List.append_nil, List.append_assoc]

theorem crcLength_zero : crcLength 0 = 0 := rfl

/-- If the length is lost whole, the last byte of the file makes a difference. -/
theorem not_crcsAgree_of_mod_zero {dataSize : Nat} (hpos : 0 < dataSize)
    (hzero : crcLength dataSize % 2 ^ 32 = 0) : ¬ CrcsAgree dataSize := by
  intro h
  obtain ⟨pre, hpre⟩ := zeroChunks_bytes dataSize
  have hb : ∀ b : UInt8, braCrc32c (leBytes 8 0) braCrc32cInit =
      braCrc32c (pre ++ [b]) (braCrc32c (leBytes 8 0) braCrc32cInit) := by
    intro b
    have hchunks := zeroChunks_isChunking hpos b
    have := (writerCrc_eq_iff hchunks braCrc32cInit 0).mp (h _ _ _ hchunks)
    rwa [if_pos hzero, hpre b] at this
  have := braCrc32c_last_injective pre _ ((hb 0).symm.trans (hb 1))
  exact absurd this (by decide)

/-- If part of the length is lost, agreement on every start makes the lost part an
identity of the shift register. -/
theorem crcOrder_dvd_of_crcsAgree {dataSize : Nat} (hpos : 0 < dataSize)
    (hne : crcLength dataSize % 2 ^ 32 ≠ 0) (h : CrcsAgree dataSize) :
    crcOrder ∣ crcLength dataSize / 2 ^ 32 := by
  rw [← crcOrder_dvd_iff, ← crcBit_iterate_eq_id_iff]
  funext x
  obtain ⟨crc, rfl⟩ := braCrc32c_surjective (leBytes 8 0) x
  have hchunks := zeroChunks_isChunking hpos 0
  have := (writerCrc_eq_iff hchunks crc 0).mp (h _ _ _ hchunks)
  rwa [if_neg hne] at this

/-- **When the checksums agree** on every file of a size: the glued length fits 32
bits, or it loses a multiple of the order of the shift register and is not lost whole. -/
theorem crcsAgree_iff (dataSize : Nat) :
    CrcsAgree dataSize ↔
      crcLength dataSize < 2 ^ 32 ∨
        (crcLength dataSize % 2 ^ 32 ≠ 0 ∧ crcOrder ∣ crcLength dataSize / 2 ^ 32) := by
  constructor
  · intro h
    by_cases hlt : crcLength dataSize < 2 ^ 32
    · exact Or.inl hlt
    · have hpos : 0 < dataSize := by
        rcases Nat.eq_zero_or_pos dataSize with rfl | hpos
        · exact absurd (by rw [crcLength_zero]; decide) hlt
        · exact hpos
      have hne : crcLength dataSize % 2 ^ 32 ≠ 0 := fun hzero =>
        not_crcsAgree_of_mod_zero hpos hzero h
      exact Or.inr ⟨hne, crcOrder_dvd_of_crcsAgree hpos hne h⟩
  · intro hcond meCrc32 tmpfileSize chunks hchunks
    rw [writerCrc_eq_iff hchunks]
    split
    · rename_i hzero
      have hlen : crcLength dataSize = 0 := by
        rcases hcond with hlt | ⟨hne, -⟩
        · rwa [Nat.mod_eq_of_lt hlt] at hzero
        · exact absurd hzero hne
      have hnil := List.eq_nil_of_length_eq_zero (hchunks.chunkBytes_length.trans hlen)
      rw [hnil, braCrc32c_nil]
    · -- the steps that the writer leaves out are none, or a multiple of the order
      have hid : crcBit^[8 * (2 ^ 32 * (crcLength dataSize / 2 ^ 32))] = id := by
        rw [crcBit_iterate_eq_id_iff, crcOrder_dvd_iff]
        rcases hcond with hlt | ⟨-, hdvd⟩
        · rw [Nat.div_eq_of_lt hlt]
          exact Nat.dvd_zero _
        · exact hdvd
      rw [hid]
      rfl

/-- A file of four gigabytes of zeros: the glue is 2^32 bytes short. -/
theorem crcs_differ :
    IsChunking (2 ^ 32) (zeroChunks (2 ^ 32) 0) ∧
      writerCrc braCrc32cInit 12763136 (2 ^ 32) (zeroChunks (2 ^ 32) 0) ≠
        readerCrc braCrc32cInit 12763136 (zeroChunks (2 ^ 32) 0) := by
  have hchunks : IsChunking (2 ^ 32) (zeroChunks (2 ^ 32) 0) :=
    zeroChunks_isChunking (by decide) 0
  refine ⟨hchunks, fun h => ?_⟩
  have h := (writerCrc_eq_iff hchunks _ _).mp h
  rw [if_neg (by decide)] at h
  -- 8 * 2^32 steps are 16 steps modulo the order
  rw [iterate_mod crcBit_iterate_order] at h
  revert h
  decide +kernel

end BrArchive
