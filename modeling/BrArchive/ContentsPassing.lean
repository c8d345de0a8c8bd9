import BrArchive.ChunkLoops
import BrArchive.FileCtx

/-! # Passing over the contents of an entry

The contents of an entry are copied, decompressed, or only looked at.  Whatever is done
with the bytes, the loops move the position of the archive in the same way: a stored
entry takes the recorded size, a compressed one whatever its chunk headers announce.
-/
namespace BrArchive
open WhileLoop

/-! ## Stored entries -/

/-- The copy loop stays inside the file. -/
theorem copyLoop_reaches {f : IoFile} {n : Nat} {computeCrc32 : Bool} {st : CopyState}
    (hpos : f.pos ≤ f.data.length) {dst : Option IoFile} {crc32 : BitVec 32}
    (h : Reaches (fun st => st.i < n) (copyChunk n computeCrc32) ⟨dst, f, crc32, 0⟩ st) :
    st.src = { f with pos := f.pos + st.i } ∧ f.pos + st.i ≤ f.data.length ∧ st.i ≤ n := by
  refine h.invariant (I := fun st => st.src = { f with pos := f.pos + st.i } ∧
    f.pos + st.i ≤ f.data.length ∧ st.i ≤ n) ?_ ⟨rfl, hpos, Nat.zero_le n⟩
  rintro ⟨dst, src, crc32, i⟩ t ⟨hsrc, -, hi⟩ - hbody
  dsimp only at hsrc hi
  rw [copyChunk] at hbody
  obtain ⟨⟨gBuf, src'⟩, hread, ht⟩ := Option.bind_eq_some_iff.mp hbody
  obtain rfl := Option.some.inj ht
  obtain ⟨-, rfl, hle, -⟩ := braIoFileRead_eq_some hread
  subst hsrc
  dsimp only at hle ⊢
  have hmin : braMin braMaxChunkSize (n - i) ≤ n - i := braMin_eq _ _ ▸ Nat.min_le_right _ _
  exact ⟨by rw [Nat.add_assoc], by omega, by omega⟩

theorem copyLoop_decreases (n : Nat) (computeCrc32 : Bool) :
    Decreases (fun st => st.i < n) (copyChunk n computeCrc32) (fun st => n - st.i) := by
  intro s t hc hbody
  rw [copyChunk] at hbody
  obtain ⟨⟨gBuf, src'⟩, -, ht⟩ := Option.bind_eq_some_iff.mp hbody
  obtain rfl := Option.some.inj ht
  have hc : s.i < n := of_decide_eq_true hc
  have hmin := braMin_eq braMaxChunkSize (n - s.i)
  have hpos : 0 < braMaxChunkSize := by decide
  dsimp only
  omega

/-- A copy that succeeds finds all its bytes in the file. -/
theorem braIoFileChunksCopyFile_le {dst : Option IoFile} {f : IoFile} {n : Nat} {me : MetaEntry}
    {computeCrc32 : Bool} {r : Option IoFile × IoFile × MetaEntry} (hpos : f.pos ≤ f.data.length)
    (h : braIoFileChunksCopyFile dst f n me computeCrc32 = some r) :
    f.pos + n ≤ f.data.length ∧ r.2.1 = { f with pos := f.pos + n } := by
  rw [braIoFileChunksCopyFile] at h
  obtain ⟨st, hrun, hr⟩ := Option.bind_eq_some_iff.mp h
  obtain rfl := Option.some.inj hr
  obtain ⟨hreach, hend⟩ :=
    (run_eq_some_iff (copyLoop_decreases n computeCrc32) (Nat.sub_le n 0)).mp hrun
  obtain ⟨hsrc, hle, hi⟩ := copyLoop_reaches hpos hreach
  have hi' : st.i = n := by
    have hend : ¬ st.i < n := of_decide_eq_false hend
    omega
  rw [hi'] at hsrc hle
  exact ⟨hle, hsrc⟩

/-- Copying to nowhere, with or without a checksum, ends where a copy to a new file does. -/
theorem braIoFileChunksCopyFile_agree {f : IoFile} {n : Nat} {me : MetaEntry}
    {r : Option IoFile × IoFile × MetaEntry} (hpos : f.pos ≤ f.data.length)
    (h : braIoFileChunksCopyFile (some ⟨[], 0⟩) f n me true = some r) (decode : Bool)
    (crc32 : BitVec 32) :
    ∃ me', braIoFileChunksCopyFile none f n { me with crc32 } decode = some (none, r.2.1, me') ∧
      (decode = true → (me'.crc32 = r.2.2.crc32 ↔ crc32 = me.crc32)) := by
  obtain ⟨hle, -⟩ := braIoFileChunksCopyFile_le hpos h
  obtain ⟨x, hx, post, hf⟩ : ∃ x : Bytes, x.length = n ∧ ∃ pre_post : Bytes × Bytes,
      f = ioAt pre_post.1 (x ++ pre_post.2) := by
    refine ⟨(f.data.drop f.pos).take n, ?_, (f.data.take f.pos, (f.data.drop f.pos).drop n), ?_⟩
    · rw [List.length_take, List.length_drop]
      omega
    · rw [List.take_append_drop]
      exact IoFile.eq_ioAt hpos
  subst hf hx
  have hsome := braIoFileChunksCopyFile_ioAt (some []) post.1 x post.2 me true
  have hnone := braIoFileChunksCopyFile_ioAt none post.1 x post.2 { me with crc32 } decode
  obtain rfl := Option.some.inj (hsome.symm.trans h)
  refine ⟨_, hnone, ?_⟩
  rintro rfl
  exact (braCrc32c_injective x).eq_iff

/-! ## Compressed entries -/

/-- The bytes a chunk takes, by its header. -/
def chunkSize (header : ChunkHeader) : Nat :=
  header.huffman.encodedSize.toNat + braIoChunkHeaderSize

/-- The sizes the chunk headers announce, one after the other from the position of the
file, add up to `n`. -/
inductive ChunksFill : IoFile → Nat → Prop
  | nil (f : IoFile) : ChunksFill f 0
  | cons {f src : IoFile} {header : ChunkHeader} {n : Nat}
      (read : braIoFileChunksReadHeader f = some (header, src))
      (rest : ChunksFill { f with pos := f.pos + chunkSize header } n) :
      ChunksFill f (chunkSize header + n)

theorem chunkSize_pos (header : ChunkHeader) : 0 < chunkSize header := by
  rw [chunkSize, braIoChunkHeaderSize, sizeofHuffman]
  omega

/-- One chunk off. -/
theorem chunksFill_iff {f src : IoFile} {header : ChunkHeader} {n : Nat}
    (hread : braIoFileChunksReadHeader f = some (header, src)) (hn : 0 < n) :
    ChunksFill f n ↔ chunkSize header ≤ n ∧
      ChunksFill { f with pos := f.pos + chunkSize header } (n - chunkSize header) := by
  constructor
  · intro h
    cases h with
    | nil => exact absurd hn (Nat.lt_irrefl 0)
    | cons read rest =>
      obtain ⟨rfl, -⟩ := Prod.mk.inj (Option.some.inj (hread.symm.trans read))
      exact ⟨Nat.le_add_right _ _, by rwa [Nat.add_sub_cancel_left]⟩
  · rintro ⟨hle, hrest⟩
    have hcons := ChunksFill.cons hread hrest
    rwa [Nat.add_sub_cancel' hle] at hcons

/-- A chunk that is read takes the bytes its header announces. -/
theorem decompressRead_eq_some {src src' : IoFile} {header : ChunkHeader} {bufHuffman : Bytes}
    (h : decompressRead src = some (header, bufHuffman, src')) :
    (∃ src₁, braIoFileChunksReadHeader src = some (header, src₁)) ∧
      src' = { src with pos := src.pos + chunkSize header } ∧
      src.pos + chunkSize header ≤ src.data.length := by
  rw [decompressRead] at h
  obtain ⟨⟨header', src₁⟩, hheader, h⟩ := Option.bind_eq_some_iff.mp h
  dsimp only at h
  split at h
  · cases h
  · obtain ⟨⟨gBuf, src₂⟩, hread, h⟩ := Option.bind_eq_some_iff.mp h
    obtain ⟨buf, -, h⟩ := Option.bind_eq_some_iff.mp h
    obtain ⟨rfl, -, rfl⟩ := Option.some.inj h
    refine ⟨⟨src₁, hheader⟩, ?_⟩
    rw [braIoFileChunksReadHeader] at hheader
    obtain ⟨⟨pi, src₃⟩, hpi, hheader⟩ := Option.bind_eq_some_iff.mp hheader
    obtain ⟨⟨huffman, src₄⟩, hhuffman, hheader⟩ := Option.bind_eq_some_iff.mp hheader
    obtain ⟨-, rfl⟩ := Prod.mk.inj (Option.some.inj hheader)
    obtain ⟨-, rfl, -, -⟩ := braIoFileRead_eq_some hpi
    obtain ⟨-, rfl, -, -⟩ := braIoFileRead_eq_some hhuffman
    obtain ⟨-, rfl, hle, -⟩ := braIoFileRead_eq_some hread
    have hsize : src.pos + chunkSize header =
        src.pos + braBwtIndexBytes + sizeofHuffman + header.huffman.encodedSize.toNat := by
      rw [chunkSize, braIoChunkHeaderSize]
      omega
    exact ⟨by rw [hsize], hsize ▸ hle⟩

/-- What a round of the loop takes does not depend on what it does with the bytes. -/
theorem decompressChunk_eq_some {decode : Bool} {st st' : DecompressState}
    (h : decompressChunk decode st = some st') :
    ∃ header, (∃ src₁, braIoFileChunksReadHeader st.src = some (header, src₁)) ∧
      st'.src = { st.src with pos := st.src.pos + chunkSize header } ∧
      st.src.pos + chunkSize header ≤ st.src.data.length ∧ st'.i = st.i + chunkSize header := by
  rw [decompressChunk] at h
  obtain ⟨⟨header, bufHuffman, src⟩, hread, h⟩ := Option.bind_eq_some_iff.mp h
  obtain ⟨hheader, rfl, hle⟩ := decompressRead_eq_some hread
  refine ⟨header, hheader, ?_⟩
  cases decode with
  | false =>
    obtain rfl := Option.some.inj h
    exact ⟨rfl, hle, rfl⟩
  | true =>
    obtain ⟨gBuf, -, h⟩ := Option.bind_eq_some_iff.mp h
    obtain rfl := Option.some.inj h
    exact ⟨rfl, hle, rfl⟩

theorem decompressLoop_decreases (n : Nat) (decode : Bool) :
    Decreases (fun st => st.i < n) (decompressChunk decode) (fun st => n - st.i) := by
  intro s t hc hbody
  obtain ⟨header, -, -, -, hi⟩ := decompressChunk_eq_some hbody
  have hc : s.i < n := of_decide_eq_true hc
  have := chunkSize_pos header
  dsimp only
  omega

/-- **Where the decompression loop ends**: at the recorded size exactly if the chunks that
are left fill what is left of it. -/
theorem decompressLoop_fill {n : Nat} {decode : Bool} {st st' : DecompressState}
    (h : Reaches (fun st => st.i < n) (decompressChunk decode) st st') (hi : st.i ≤ n)
    (hend : n ≤ st'.i) : st'.i = n ↔ ChunksFill st.src (n - st.i) := by
  induction h with
  | refl s =>
    rw [Nat.sub_eq_zero_of_le hend]
    exact iff_of_true (by omega) (.nil _)
  | @step s t u hc hbody hrest ih =>
    have hc : s.i < n := of_decide_eq_true hc
    obtain ⟨header, ⟨src₁, hread⟩, hsrc, -, hti⟩ := decompressChunk_eq_some hbody
    rw [chunksFill_iff hread (by omega), ← hsrc]
    by_cases hle : chunkSize header ≤ n - s.i
    · rw [ih (by omega) hend, hti, and_iff_right hle, Nat.sub_add_eq]
    · -- the loop overshoots, and ends there
      cases hrest with
      | refl => exact iff_of_false (by omega) (fun h => hle h.1)
      | step hct => exact absurd (of_decide_eq_true hct) (by omega)

/-- The decompressor moves the position by at least the recorded size, and by no more
exactly if the chunks fill it. -/
theorem braIoFileChunksDecompressFile_pos {dst : Option IoFile} {f : IoFile} {n : Nat}
    {me : MetaEntry} {decode : Bool} {r : Option IoFile × IoFile × MetaEntry}
    (hpos : f.pos ≤ f.data.length)
    (h : braIoFileChunksDecompressFile dst f n me decode = some r) :
    ∃ k, r.2.1 = { f with pos := f.pos + k } ∧ f.pos + k ≤ f.data.length ∧
      (k = n ↔ ChunksFill f n) := by
  rw [braIoFileChunksDecompressFile] at h
  obtain ⟨st, hrun, hr⟩ := Option.bind_eq_some_iff.mp h
  split at hr
  · cases hr
  · obtain rfl := Option.some.inj hr
    obtain ⟨hreach, hend⟩ :=
      (run_eq_some_iff (decompressLoop_decreases n decode) (Nat.sub_le n 0)).mp hrun
    have hend : ¬ st.i < n := of_decide_eq_false hend
    obtain ⟨hsrc, hle⟩ := hreach.invariant (I := fun st =>
        st.src = { f with pos := f.pos + st.i } ∧ f.pos + st.i ≤ f.data.length)
      (by
        rintro s t ⟨hs, -⟩ - hbody
        obtain ⟨header, -, ht, hle, hi⟩ := decompressChunk_eq_some hbody
        rw [hs] at ht hle
        exact ⟨by rw [ht, hi, Nat.add_assoc], by rw [hi, ← Nat.add_assoc]; exact hle⟩)
      ⟨rfl, hpos⟩
    exact ⟨st.i, hsrc, hle, decompressLoop_fill hreach (Nat.zero_le n) (by omega)⟩

theorem decompressData_length {header : ChunkHeader} {bufHuffman gBuf : Bytes}
    (h : decompressData header bufHuffman = some gBuf) :
    gBuf.length = braRleDecodeComputeSize bufHuffman := by
  rw [decompressData] at h
  obtain ⟨bufRle, hrle, h⟩ := Option.bind_eq_some_iff.mp h
  split at h
  · cases h
  · obtain rfl := Option.some.inj h
    rw [braBwtDecode2_length, braMtfDecode2_length, braRleDecode_length hrle]

/-- Two runs of the loop side by side: the first writes a file; the second writes none,
and its checksum is the same exactly if `p` holds, should it compute one. -/
structure PassesAlong (decode : Bool) (p : Prop) (st t : DecompressState) : Prop where
  dst : t.dst = none
  src : t.src = st.src
  fileOrigSize : t.fileOrigSize = st.fileOrigSize
  i : t.i = st.i
  crc32 : decode = true → (t.crc32 = st.crc32 ↔ p)

/-- **One round** of a run that extracts is matched by one of a run that does not. -/
theorem decompressChunk_agree {decode : Bool} {p : Prop} {st t st' : DecompressState}
    (hR : PassesAlong decode p st t) (h : decompressChunk true st = some st') :
    ∃ t', decompressChunk decode t = some t' ∧ PassesAlong decode p st' t' := by
  obtain ⟨dst, src, crc32, fileOrigSize, i⟩ := t
  obtain ⟨rfl, rfl, rfl, rfl, hcrc⟩ := hR
  rw [decompressChunk] at h
  obtain ⟨⟨header, bufHuffman, src⟩, hread, h⟩ := Option.bind_eq_some_iff.mp h
  obtain ⟨gBuf, hdata, h⟩ := Option.bind_eq_some_iff.mp h
  obtain rfl := Option.some.inj h
  -- listing only adds up the sizes, testing decodes but writes nothing
  cases decode with
  | false =>
    refine ⟨⟨none, src, crc32,
      (st.fileOrigSize + braRleDecodeComputeSize bufHuffman) % 2 ^ 64, _⟩, ?_, rfl, rfl, ?_, rfl, ?_⟩
    · simp only [decompressChunk, hread, Option.bind_eq_bind, Option.bind_some, Bool.not_false,
        if_true, Option.pure_def]
    · rw [decompressData_length hdata]
    · exact fun h => absurd h (by decide)
  | true =>
    refine ⟨⟨none, src, decompressCrcChunk crc32 ⟨header.image, gBuf⟩,
      (st.fileOrigSize + gBuf.length) % 2 ^ 64, _⟩, ?_, rfl, rfl, rfl, rfl, fun h => ?_⟩
    · simp only [decompressChunk, hread, hdata, Option.bind_eq_bind, Option.bind_some,
        Bool.not_true, Bool.false_eq_true, if_false, Option.map_none, Option.pure_def]
    · rw [← hcrc h]
      exact ((braCrc32c_injective gBuf).comp (braCrc32c_injective header.image)).eq_iff

/-- Decompressing to nowhere, or only looking at the sizes, ends where extracting does. -/
theorem braIoFileChunksDecompressFile_agree {dst : Option IoFile} {f : IoFile} {n : Nat}
    {me : MetaEntry} {r : Option IoFile × IoFile × MetaEntry}
    (h : braIoFileChunksDecompressFile dst f n me true = some r) (decode : Bool)
    (crc32 : BitVec 32) :
    ∃ me', braIoFileChunksDecompressFile none f n { me with crc32 } decode =
        some (none, r.2.1, me') ∧
      (decode = true → (me'.crc32 = r.2.2.crc32 ↔ crc32 = me.crc32)) := by
  rw [braIoFileChunksDecompressFile] at h
  obtain ⟨st, hrun, hr⟩ := Option.bind_eq_some_iff.mp h
  have hcond : ∀ s t, PassesAlong decode (crc32 = me.crc32) s t →
      decide (s.i < n) = decide (t.i < n) := fun s t hR => by rw [hR.i]
  have hstart : PassesAlong decode (crc32 = me.crc32) ⟨dst, f, me.crc32, 0, 0⟩
      ⟨none, f, crc32, 0, 0⟩ := ⟨rfl, rfl, rfl, rfl, fun _ => Iff.rfl⟩
  obtain ⟨t, hrun', hR⟩ :=
    run_simulates hcond (fun s t s' hR _ hbody => decompressChunk_agree hR hbody) hstart hrun
  split at hr
  · cases hr
  · rename_i hsize
    obtain rfl := Option.some.inj hr
    refine ⟨{ me with crc32 := t.crc32 }, ?_, hR.crc32⟩
    rw [braIoFileChunksDecompressFile, hrun']
    simp only [Option.bind_eq_bind, Option.bind_some, hR.fileOrigSize, if_neg hsize, hR.dst,
      hR.src, Option.pure_def]

/-! ## Either kind of entry -/

/-- The recorded size is what the contents take: the entry is stored, or the sizes of its
chunks add up to it. -/
def ContentsFill (f : IoFile) (me : MetaEntry) : Prop :=
  braAttrComp me.attributes = braAttrCompStored ∨ ChunksFill f me.dataSize

/-- **Where extracting ends**, within the file. -/
theorem extractContents_pos {f : IoFile} {me : MetaEntry}
    {r : Option IoFile × IoFile × MetaEntry} (hpos : f.pos ≤ f.data.length)
    (h : extractContents ⟨[], 0⟩ f me = some r) :
    ∃ k, r.2.1 = { f with pos := f.pos + k } ∧ f.pos + k ≤ f.data.length ∧
      (k = me.dataSize ↔ ContentsFill f me) := by
  rw [extractContents] at h
  split at h
  · rename_i hstored
    obtain ⟨hle, hr⟩ := braIoFileChunksCopyFile_le hpos h
    exact ⟨me.dataSize, hr, hle, iff_of_true rfl (.inl hstored)⟩
  · rename_i hstored
    split at h
    · obtain ⟨k, hr, hle, hk⟩ := braIoFileChunksDecompressFile_pos hpos h
      exact ⟨k, hr, hle, hk.trans (or_iff_right hstored).symm⟩
    · cases h

/-- **Listing and testing** end where extracting does. -/
theorem braIoFileChunksReadFile_agree {f : IoFile} {me : MetaEntry}
    {r : Option IoFile × IoFile × MetaEntry} (hpos : f.pos ≤ f.data.length)
    (h : extractContents ⟨[], 0⟩ f me = some r) (decode : Bool) (crc32 : BitVec 32) :
    ∃ me', braIoFileChunksReadFile f me.dataSize { me with crc32 } decode =
        some (none, r.2.1, me') ∧
      (decode = true → (me'.crc32 = r.2.2.crc32 ↔ crc32 = me.crc32)) := by
  rw [extractContents] at h
  rw [braIoFileChunksReadFile]
  split at h
  · rw [if_pos ‹_›]
    exact braIoFileChunksCopyFile_agree hpos h decode crc32
  · rw [if_neg ‹_›]
    split at h
    · rw [if_pos ‹_›]
      exact braIoFileChunksDecompressFile_agree h decode crc32
    · cases h

/-! ## Extracting to nowhere

What an extraction reads does not depend on where it writes. -/

theorem copyChunk_none (n : Nat) (computeCrc32 : Bool) (st : CopyState) :
    copyChunk n computeCrc32 { st with dst := none } =
      (copyChunk n computeCrc32 st).map fun st => { st with dst := none } := by
  simp only [copyChunk]
  cases braIoFileRead st.src (braMin braMaxChunkSize (n - st.i)) <;> rfl

theorem braIoFileChunksCopyFile_none (dst : Option IoFile) (f : IoFile) (n : Nat)
    (me : MetaEntry) (computeCrc32 : Bool) :
    braIoFileChunksCopyFile none f n me computeCrc32 =
      (braIoFileChunksCopyFile dst f n me computeCrc32).map fun r => (none, r.2) := by
  have hrun : run (fun st => st.i < n) (copyChunk n computeCrc32) n ⟨none, f, me.crc32, 0⟩ =
      (run (fun st => st.i < n) (copyChunk n computeCrc32) n ⟨dst, f, me.crc32, 0⟩).map
        fun st => { st with dst := none } :=
    run_map (fun _ => rfl) (copyChunk_none n computeCrc32) n ⟨dst, f, me.crc32, 0⟩
  rw [braIoFileChunksCopyFile, braIoFileChunksCopyFile, hrun]
  cases run (fun st => st.i < n) (copyChunk n computeCrc32) n ⟨dst, f, me.crc32, 0⟩ <;> rfl

theorem decompressChunk_none (decode : Bool) (st : DecompressState) :
    decompressChunk decode { st with dst := none } =
      (decompressChunk decode st).map fun st => { st with dst := none } := by
  simp only [decompressChunk]
  cases decompressRead st.src with
  | none => rfl
  | some r =>
    obtain ⟨header, bufHuffman, src⟩ := r
    cases decode with
    | false => rfl
    | true =>
      simp only [Option.bind_eq_bind, Option.bind_some, Bool.not_true, Bool.false_eq_true, if_false]
      cases decompressData header bufHuffman <;> rfl

theorem braIoFileChunksDecompressFile_none (dst : Option IoFile) (f : IoFile) (n : Nat)
    (me : MetaEntry) (decode : Bool) :
    braIoFileChunksDecompressFile none f n me decode =
      (braIoFileChunksDecompressFile dst f n me decode).map fun r => (none, r.2) := by
  have hrun : run (fun st => st.i < n) (decompressChunk decode) n ⟨none, f, me.crc32, 0, 0⟩ =
      (run (fun st => st.i < n) (decompressChunk decode) n ⟨dst, f, me.crc32, 0, 0⟩).map
        fun st => { st with dst := none } :=
    run_map (fun _ => rfl) (decompressChunk_none decode) n ⟨dst, f, me.crc32, 0, 0⟩
  rw [braIoFileChunksDecompressFile, braIoFileChunksDecompressFile, hrun]
  cases run (fun st => st.i < n) (decompressChunk decode) n ⟨dst, f, me.crc32, 0, 0⟩ with
  | none => rfl
  | some st =>
    simp only [Option.map_some, Option.bind_eq_bind, Option.bind_some]
    split <;> rfl

/-- **Testing the contents** is extracting them to nowhere. -/
theorem braIoFileChunksReadFile_eq (f2 f : IoFile) (me : MetaEntry) :
    braIoFileChunksReadFile f me.dataSize me true =
      (extractContents f2 f me).map fun r => (none, r.2) := by
  rw [braIoFileChunksReadFile, extractContents, braIoFileChunksCopyFile_none (some f2),
    braIoFileChunksDecompressFile_none (some f2)]
  split
  · rfl
  · split <;> rfl

end BrArchive
