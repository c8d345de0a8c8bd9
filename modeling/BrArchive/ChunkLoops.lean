import BrArchive.Chunks

/-! # The loops over the chunks of a file

What the three loops make of a file: each takes chunk after chunk off the bytes before it
and appends to the bytes behind it.
-/
namespace BrArchive
open WhileLoop

/-! ## The chunks of a file -/

/-- A list of chunks as the loops cut them: all but the last are full. -/
inductive IsSplit : List Bytes → Prop
  | nil : IsSplit []
  | last {c : Bytes} (pos : 0 < c.length) (le : c.length ≤ braMaxChunkSize) : IsSplit [c]
  | cons {c : Bytes} {cs : List Bytes} (full : c.length = braMaxChunkSize) (tail : IsSplit cs) :
      IsSplit (c :: cs)

/-- The chunks of a file, at most `fuel` of them. -/
def splitChunks : Nat → Bytes → List Bytes
  | 0, _ => []
  | _ + 1, [] => []
  | fuel + 1, b :: x =>
    (b :: x).take braMaxChunkSize :: splitChunks fuel ((b :: x).drop braMaxChunkSize)

/-- The chunks of a file. -/
def fileChunks (x : Bytes) : List Bytes := splitChunks x.length x

theorem braMaxChunkSize_pos : 0 < braMaxChunkSize := by decide

theorem splitChunks_spec (fuel : Nat) :
    ∀ {x : Bytes}, x.length ≤ fuel → IsSplit (splitChunks fuel x) ∧ (splitChunks fuel x).flatten = x := by
  induction fuel with
  | zero =>
    intro x hx
    rw [List.eq_nil_of_length_eq_zero (Nat.le_zero.mp hx)]
    exact ⟨.nil, rfl⟩
  | succ fuel ih =>
    intro x hx
    cases x with
    | nil => exact ⟨.nil, rfl⟩
    | cons b x =>
      have hpos := braMaxChunkSize_pos
      obtain ⟨hsplit, hflat⟩ := ih (x := (b :: x).drop braMaxChunkSize) (by
        rw [List.length_drop]
        omega)
      rw [splitChunks, List.flatten_cons, hflat, List.take_append_drop]
      refine ⟨?_, rfl⟩
      by_cases hfull : braMaxChunkSize ≤ (b :: x).length
      · exact .cons (List.length_take_of_le hfull) hsplit
      · rw [List.drop_eq_nil_of_le (by omega), List.take_of_length_le (by omega)]
        cases fuel <;> exact .last (Nat.succ_pos _) (by omega)

theorem fileChunks_isSplit (x : Bytes) : IsSplit (fileChunks x) :=
  (splitChunks_spec x.length (Nat.le_refl _)).1

@[simp] theorem fileChunks_flatten (x : Bytes) : (fileChunks x).flatten = x :=
  (splitChunks_spec x.length (Nat.le_refl _)).2

theorem IsSplit.tail {c : Bytes} {cs : List Bytes} (h : IsSplit (c :: cs)) : IsSplit cs := by
  cases h with
  | last => exact .nil
  | cons _ tail => exact tail

theorem IsSplit.bounds {cs : List Bytes} (h : IsSplit cs) :
    ∀ c ∈ cs, 0 < c.length ∧ c.length ≤ braMaxChunkSize := by
  induction h with
  | nil => exact fun c hc => absurd hc List.not_mem_nil
  | last pos le =>
    intro c hc
    obtain rfl := List.mem_singleton.mp hc
    exact ⟨pos, le⟩
  | cons full tail ih =>
    intro c hc
    rcases List.mem_cons.mp hc with rfl | hc
    · exact ⟨full ▸ braMaxChunkSize_pos, Nat.le_of_eq full⟩
    · exact ih c hc

/-- What a loop asks for is the next chunk. -/
theorem IsSplit.next_eq {c : Bytes} {cs : List Bytes} (h : IsSplit (c :: cs)) :
    braMin braMaxChunkSize (c :: cs).flatten.length = c.length := by
  rw [braMin_eq, List.flatten_cons, List.length_append]
  cases h with
  | last pos le => simpa using le
  | cons full tail => omega

/-! ## Copying -/

/-- **The copy loop**, in the middle of a file. -/
theorem copyLoop_run (computeCrc32 : Bool) {cs : List Bytes} (h : IsSplit cs) :
    ∀ (fuel dataSize i : Nat) (pre post : Bytes) (dst : Option IoFile) (crc32 : BitVec 32),
      cs.flatten.length ≤ fuel → dataSize = i + cs.flatten.length →
      (∀ f, dst = some f → f.pos ≤ f.data.length) →
      run (fun st => st.i < dataSize) (copyChunk dataSize computeCrc32) fuel
          ⟨dst, ioAt pre (cs.flatten ++ post), crc32, i⟩ =
        some ⟨dst.map (braIoFileWrite · cs.flatten), ioAt (pre ++ cs.flatten) post,
          if computeCrc32 then braCrc32c cs.flatten crc32 else crc32, dataSize⟩ := by
  induction cs with
  | nil =>
    intro fuel dataSize i pre post dst crc32 _ hsize hdst
    obtain rfl : dataSize = i := hsize
    rw [run_of_not (by simp)]
    have hmap : dst.map (braIoFileWrite · []) = dst := by
      cases dst with
      | none => rfl
      | some f => exact congrArg some (braIoFileWrite_nil (hdst f rfl))
    simp only [List.flatten_nil, hmap, List.nil_append, List.append_nil, braCrc32c_nil, ite_self]
  | cons c cs ih =>
    intro fuel dataSize i pre post dst crc32 hfuel hsize hdst
    have hpos := (h.bounds c List.mem_cons_self).1
    -- what is left begins with the next chunk of the splitting
    have hmin : braMin braMaxChunkSize (dataSize - i) = c.length := by
      rw [hsize, Nat.add_sub_cancel_left, h.next_eq]
    rw [List.flatten_cons, List.length_append] at hsize hfuel
    obtain ⟨fuel, rfl⟩ : ∃ n, fuel = n + 1 := ⟨fuel - 1, by omega⟩
    have hread := braIoFileRead_ioAt pre c (cs.flatten ++ post) rfl
    have hbody : copyChunk dataSize computeCrc32
        ⟨dst, ioAt pre ((c :: cs).flatten ++ post), crc32, i⟩ =
          some ⟨dst.map (braIoFileWrite · c), ioAt (pre ++ c) (cs.flatten ++ post),
            if computeCrc32 then braCrc32c c crc32 else crc32, i + c.length⟩ := by
      simp only [copyChunk, hmin, List.flatten_cons, List.append_assoc, hread,
        Option.bind_eq_bind, Option.bind_some, Option.pure_def]
    rw [run_succ_of (by simp; omega), hbody, Option.bind_some,
      ih h.tail fuel dataSize (i + c.length) (pre ++ c) post _ _ (by omega) (by omega)
        (fun f hf => ?_)]
    · -- the checksum and the writes of the round go before those of the rest
      have hcrc : (if computeCrc32 then
            braCrc32c cs.flatten (if computeCrc32 then braCrc32c c crc32 else crc32)
          else if computeCrc32 then braCrc32c c crc32 else crc32) =
          if computeCrc32 then braCrc32c (c :: cs).flatten crc32 else crc32 := by
        cases computeCrc32 with
        | true => simp only [if_true, List.flatten_cons, braCrc32c_append]
        | false => rfl
      have hdst' : (dst.map (braIoFileWrite · c)).map (braIoFileWrite · cs.flatten) =
          dst.map (braIoFileWrite · (c :: cs).flatten) := by
        rw [Option.map_map]
        exact congrArg (Option.map · dst) (funext fun f => braIoFileWrite_append f c cs.flatten)
      rw [hcrc, hdst', List.flatten_cons, List.append_assoc]
    · obtain ⟨g, -, rfl⟩ := Option.map_eq_some_iff.mp hf
      exact pos_le_braIoFileWrite g c

/-- **Copying** a piece of a file. -/
theorem braIoFileChunksCopyFile_write {dst : Option IoFile}
    (hdst : ∀ f, dst = some f → f.pos ≤ f.data.length) (pre x post : Bytes) (me : MetaEntry)
    (computeCrc32 : Bool) :
    braIoFileChunksCopyFile dst (ioAt pre (x ++ post)) x.length me computeCrc32 =
      some (dst.map (braIoFileWrite · x), ioAt (pre ++ x) post,
        { me with crc32 := if computeCrc32 then braCrc32c x me.crc32 else me.crc32 }) := by
  have hrun := copyLoop_run computeCrc32 (fileChunks_isSplit x) x.length x.length 0 pre post dst
    me.crc32 (by simp) (by simp) hdst
  rw [fileChunks_flatten] at hrun
  rw [braIoFileChunksCopyFile, hrun]
  rfl

/-- Copying a piece of a file to the end of another one. -/
theorem braIoFileChunksCopyFile_ioAt (dst : Option Bytes) (pre x post : Bytes) (me : MetaEntry)
    (computeCrc32 : Bool) :
    braIoFileChunksCopyFile (dst.map (ioAt · [])) (ioAt pre (x ++ post)) x.length me
        computeCrc32 =
      some (dst.map fun out => ioAt (out ++ x) [], ioAt (pre ++ x) post,
        { me with crc32 := if computeCrc32 then braCrc32c x me.crc32 else me.crc32 }) := by
  have hdst : ∀ f, dst.map (ioAt · []) = some f → f.pos ≤ f.data.length := by
    intro f hf
    obtain ⟨out, -, rfl⟩ := Option.map_eq_some_iff.mp hf
    exact (List.prefix_append out []).length_le
  rw [braIoFileChunksCopyFile_write hdst, Option.map_map]
  exact congrArg (fun d => some (d, _)) (congrArg (Option.map · dst)
    (funext fun out => braIoFileWrite_ioAt_nil out x))

/-- Whatever is copied goes to the end of the destination; of the entry only the checksum
changes. -/
theorem braIoFileChunksCopyFile_appends {bytes : Bytes} {src src' : IoFile} {dst : Option IoFile}
    {dataSize : Nat} {me me' : MetaEntry} {computeCrc32 : Bool}
    (h : braIoFileChunksCopyFile (some (ioAt bytes [])) src dataSize me computeCrc32 =
      some (dst, src', me')) :
    (∃ buf, dst = some (ioAt (bytes ++ buf) [])) ∧ me' = { me with crc32 := me'.crc32 } := by
  rw [braIoFileChunksCopyFile] at h
  obtain ⟨st, hrun, h⟩ := Option.bind_eq_some_iff.mp h
  obtain ⟨rfl, -, rfl⟩ := Prod.mk.inj (Option.some.inj h) |>.imp_right Prod.mk.inj
  refine ⟨?_, rfl⟩
  refine run_invariant (I := fun st => ∃ buf, st.dst = some (ioAt (bytes ++ buf) [])) ?_
    ⟨[], by rw [List.append_nil]⟩ hrun
  rintro st st' ⟨buf, hdst⟩ - hbody
  rw [copyChunk] at hbody
  obtain ⟨⟨gBuf, src⟩, -, hbody⟩ := Option.bind_eq_some_iff.mp hbody
  obtain rfl := Option.some.inj hbody
  refine ⟨buf ++ gBuf, ?_⟩
  rw [hdst, Option.map_some, braIoFileWrite_ioAt_nil, List.append_assoc]

/-! ## Compressing -/

/-- What the encoders make of a chunk. -/
def encodedChunk (qsortR : QsortR) (c : Bytes) : ChunkHeader × Bytes :=
  (compressData qsortR c).getD (⟨0, fun _ => 0, 0, 0⟩, [])

/-- A chunk in the archive. -/
def chunkImage (e : ChunkHeader × Bytes) : Bytes := e.1.diskImage ++ e.2

/-- The chunk as the checksum sees it. -/
def crcChunk (qsortR : QsortR) (c : Bytes) : CrcChunk := ⟨(encodedChunk qsortR c).1.image, c⟩

/-- **The compression loop**: the images of the chunks follow each other. -/
theorem compressLoop_run (qsortR : QsortR) {cs : List Bytes} (h : IsSplit cs)
    (hdata : ∀ c ∈ cs, compressData qsortR c = some (encodedChunk qsortR c)) :
    ∀ (fuel dataSize i : Nat) (pre post tmp : Bytes) (crc32 : BitVec 32),
      cs.flatten.length ≤ fuel → dataSize = i + cs.flatten.length →
      run (fun st => st.i < dataSize) (compressChunk qsortR dataSize) fuel
          ⟨ioAt pre (cs.flatten ++ post), ioAt tmp [], crc32, i⟩ =
        some ⟨ioAt (pre ++ cs.flatten) post,
          ioAt (tmp ++ cs.flatMap fun c => chunkImage (encodedChunk qsortR c)) [],
          (cs.map (crcChunk qsortR)).foldl compressCrcChunk crc32, dataSize⟩ := by
  induction cs with
  | nil =>
    intro fuel dataSize i pre post tmp crc32 _ hsize
    obtain rfl : dataSize = i := hsize
    rw [run_of_not (by simp)]
    simp only [List.flatten_nil, List.flatMap_nil, List.append_nil, List.nil_append, List.map_nil,
      List.foldl_nil]
  | cons c cs ih =>
    intro fuel dataSize i pre post tmp crc32 hfuel hsize
    obtain ⟨hc, hcs⟩ := List.forall_mem_cons.mp hdata
    have hpos := (h.bounds c List.mem_cons_self).1
    -- what is left begins with the next chunk of the splitting
    have hmin : braMin braMaxChunkSize (dataSize - i) = c.length := by
      rw [hsize, Nat.add_sub_cancel_left, h.next_eq]
    rw [List.flatten_cons, List.length_append] at hsize hfuel
    obtain ⟨fuel, rfl⟩ : ∃ n, fuel = n + 1 := ⟨fuel - 1, by omega⟩
    have hread := braIoFileRead_ioAt pre c (cs.flatten ++ post) rfl
    have hbody : compressChunk qsortR dataSize
        ⟨ioAt pre ((c :: cs).flatten ++ post), ioAt tmp [], crc32, i⟩ =
          some ⟨ioAt (pre ++ c) (cs.flatten ++ post),
            ioAt (tmp ++ chunkImage (encodedChunk qsortR c)) [],
            compressCrcChunk crc32 (crcChunk qsortR c), i + c.length⟩ := by
      simp only [compressChunk, hmin, List.flatten_cons, List.append_assoc, hread,
        Option.bind_eq_bind, Option.bind_some, Option.pure_def, hc,
        braIoFileChunksWriteHeader_ioAt_nil, braIoFileWrite_ioAt_nil, chunkImage, crcChunk]
    rw [run_succ_of (by simp; omega), hbody, Option.bind_some,
      ih h.tail hcs fuel dataSize (i + c.length) (pre ++ c) post _ _ (by omega) (by omega)]
    simp only [List.flatten_cons, List.flatMap_cons, List.append_assoc, List.map_cons,
      List.foldl_cons]

/-! ## Decompressing -/

/-- A chunk that the decoders turn back into its bytes. -/
structure ChunkDecodes (e : ChunkHeader × Bytes) (c : Bytes) : Prop where
  length : e.2.length = e.1.huffman.encodedSize.toNat
  decoded : ∃ buf, (braHuffmanDecode e.1.huffman e.2).decoded = some buf ∧
    (braHuffmanDecode e.1.huffman e.2).outSize = buf.length ∧ decompressData e.1 buf = some c

theorem chunkImage_length {e : ChunkHeader × Bytes}
    (h : e.2.length = e.1.huffman.encodedSize.toNat) :
    (chunkImage e).length = e.1.huffman.encodedSize.toNat + braIoChunkHeaderSize := by
  rw [chunkImage, List.length_append, ChunkHeader.diskImage_length, h, Nat.add_comm]

/-- One round of the loop on a chunk with a valid header. -/
theorem decompressChunk_ioAt {e : ChunkHeader × Bytes} {c : Bytes} (h : ChunkDecodes e c)
    (hvalid : braIoFileChunksHeaderValidate e.1 = true) (dst : Option IoFile) (pre post : Bytes)
    (crc32 : BitVec 32) (fileOrigSize i : Nat) :
    decompressChunk true ⟨dst, ioAt pre (chunkImage e ++ post), crc32, fileOrigSize, i⟩ =
      some ⟨dst.map (braIoFileWrite · c), ioAt (pre ++ chunkImage e) post,
        decompressCrcChunk crc32 ⟨e.1.image, c⟩, (fileOrigSize + c.length) % 2 ^ 64,
        i + (chunkImage e).length⟩ := by
  obtain ⟨buf, hdec, hout, hdata⟩ := h.decoded
  have hread := decompressRead_ioAt pre hvalid h.length hdec hout post
  rw [chunkImage_length h.length]
  simp only [decompressChunk, chunkImage, hread, Option.bind_eq_bind, Option.bind_some,
    Bool.not_true, Bool.false_eq_true, if_false, hdata, Option.pure_def]

/-- The decompressor fails on a file that starts with an invalid header. -/
theorem braIoFileChunksDecompressFile_invalid {header : ChunkHeader}
    (hindex : header.primaryIndex < 256 ^ braBwtIndexBytes)
    (hinvalid : braIoFileChunksHeaderValidate header = false) (dst : Option IoFile)
    (pre post : Bytes) {dataSize : Nat} (hpos : 0 < dataSize) (me : MetaEntry) (decode : Bool) :
    braIoFileChunksDecompressFile dst (ioAt pre (header.diskImage ++ post)) dataSize me decode =
      none := by
  obtain ⟨fuel, rfl⟩ : ∃ n, dataSize = n + 1 := ⟨dataSize - 1, by omega⟩
  have hread : decompressRead (ioAt pre (header.diskImage ++ post)) = none := by
    simp only [decompressRead, braIoFileChunksReadHeader_ioAt pre hindex, Option.bind_eq_bind,
      Option.bind_some, hinvalid, Bool.not_false, if_true]
  rw [braIoFileChunksDecompressFile, run_succ_of (by simp), decompressChunk]
  simp only [hread, Option.bind_eq_bind, Option.bind_none]

/-- **The decompression loop** on chunks with valid headers. -/
theorem decompressLoop_run {enc : Bytes → ChunkHeader × Bytes} {cs : List Bytes}
    (h : ∀ c ∈ cs, ChunkDecodes (enc c) c)
    (hvalid : ∀ c ∈ cs, braIoFileChunksHeaderValidate (enc c).1 = true) :
    ∀ (fuel dataSize i fileOrigSize : Nat) (out pre post : Bytes) (dst : Option IoFile)
      (crc32 : BitVec 32), (cs.flatMap fun c => chunkImage (enc c)).length ≤ fuel →
      dataSize = i + (cs.flatMap fun c => chunkImage (enc c)).length → fileOrigSize < 2 ^ 64 →
      (∀ f, dst = some f → f = ioAt out []) →
      run (fun st => st.i < dataSize) (decompressChunk true) fuel
          ⟨dst, ioAt pre ((cs.flatMap fun c => chunkImage (enc c)) ++ post), crc32,
            fileOrigSize, i⟩ =
        some ⟨dst.map fun _ => ioAt (out ++ cs.flatten) [],
          ioAt (pre ++ cs.flatMap fun c => chunkImage (enc c)) post,
          (cs.map fun c => ⟨(enc c).1.image, c⟩).foldl decompressCrcChunk crc32,
          (fileOrigSize + cs.flatten.length) % 2 ^ 64, dataSize⟩ := by
  induction cs with
  | nil =>
    intro fuel dataSize i fileOrigSize out pre post dst crc32 _ hsize horig hdst
    obtain rfl : dataSize = i := hsize
    rw [run_of_not (by simp)]
    have hmap : dst.map (fun _ => ioAt out []) = dst := by
      cases dst with
      | none => rfl
      | some f => rw [hdst f rfl]; rfl
    simp only [List.flatten_nil, List.flatMap_nil, hmap, List.nil_append, List.append_nil,
      List.map_nil, List.foldl_nil, List.length_nil, Nat.add_zero, Nat.mod_eq_of_lt horig]
  | cons c cs ih =>
    intro fuel dataSize i fileOrigSize out pre post dst crc32 hfuel hsize horig hdst
    obtain ⟨hc, hcs⟩ := List.forall_mem_cons.mp h
    obtain ⟨hvc, hvcs⟩ := List.forall_mem_cons.mp hvalid
    -- a chunk takes at least its header, so the round uses up fuel
    have hpos : 0 < (chunkImage (enc c)).length := by
      rw [chunkImage_length hc.length, braIoChunkHeaderSize, sizeofHuffman]
      omega
    rw [List.flatMap_cons, List.length_append] at hsize hfuel
    obtain ⟨fuel, rfl⟩ : ∃ n, fuel = n + 1 := ⟨fuel - 1, by omega⟩
    rw [run_succ_of (by simp; omega), List.flatMap_cons, List.append_assoc,
      decompressChunk_ioAt hc hvc, Option.bind_some,
      ih hcs hvcs fuel dataSize (i + (chunkImage (enc c)).length) _ (out ++ c)
        (pre ++ chunkImage (enc c)) post _ _ (by omega) (by omega) (Nat.mod_lt _ (by decide))
        (fun f hf => ?_)]
    · rw [Option.map_map, List.map_cons, List.foldl_cons, List.flatten_cons, List.append_assoc,
        List.append_assoc, List.length_append, Nat.mod_add_mod, Nat.add_assoc]
      rfl
    · obtain ⟨g, hg, rfl⟩ := Option.map_eq_some_iff.mp hf
      rw [hdst g hg, braIoFileWrite_ioAt_nil]

end BrArchive
