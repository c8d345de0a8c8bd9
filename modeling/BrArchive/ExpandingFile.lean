import BrArchive.CompressRoundTrip
import Mathlib.GroupTheory.OrderOfElement
import Mathlib.Data.ZMod.Basic

/-! # A file the compressor keeps and the decompressor rejects

The letters of the file are the carries of the generator `j ↦ 5 * j + 1` modulo `2 ^ 17`,
over two of its periods.  A rotation is larger the larger the state it starts with, so
the rows of the sorted table are the states in order, each twice, and the letter before
a state changes from each state to the next.  The transform is then a sequence of pairs
without two equal pairs in a row; move-to-front turns it into letters separated by
zeros, and the run-length encoder finds nothing to gain.
-/
namespace BrArchive
open StableRank

/-- The number of states of the generator. -/
def lcgSize : Nat := 2 ^ 17

/-- The next state. -/
def lcgNext (j : Nat) : Nat := (5 * j + 1) % lcgSize

/-- The carry, a letter below 5. -/
def lcgLetter (j : Nat) : UInt8 := UInt8.ofNat ((5 * j + 1) / lcgSize)

/-- The letters of the first states of the generator. -/
def lcgLetters : Nat → Nat → Bytes
  | 0, _ => []
  | n + 1, j => lcgLetter j :: lcgLetters n (lcgNext j)

/-- Two periods of the generator: one full chunk. -/
def expandingFile : Bytes := lcgLetters (2 * lcgSize) 0

@[simp] theorem lcgLetters_length (n j : Nat) : (lcgLetters n j).length = n := by
  induction n generalizing j with
  | zero => rfl
  | succ n ih => rw [lcgLetters, List.length_cons, ih]

theorem lcgLetters_add (m n j : Nat) :
    lcgLetters (m + n) j = lcgLetters m j ++ lcgLetters n (lcgNext^[m] j) := by
  induction m generalizing j with
  | zero => rw [Nat.zero_add]; rfl
  | succ m ih => rw [Nat.succ_add, lcgLetters, ih, lcgLetters, Function.iterate_succ_apply]; rfl

theorem lcgNext_lt (j : Nat) : lcgNext j < lcgSize := Nat.mod_lt _ (by decide)

/-- The larger state has the larger letters. -/
theorem lcgLetters_mono (n : Nat) {j k : Nat} (hjk : j ≤ k) (hk : k < lcgSize) :
    lcgLetters n j ≤ lcgLetters n k := by
  induction n generalizing j k with
  | zero => exact le_refl _
  | succ n ih =>
    rw [lcgLetters, lcgLetters, cons_le_cons_iff, UInt8.lt_iff_toNat_lt, ← UInt8.toNat_inj]
    simp only [lcgLetter, UInt8.toNat_ofNat']
    rw [Nat.mod_eq_of_lt, Nat.mod_eq_of_lt]
    · by_cases heq : (5 * j + 1) / lcgSize = (5 * k + 1) / lcgSize
      · refine Or.inr ⟨heq, ih ?_ (lcgNext_lt k)⟩
        have hj := Nat.div_add_mod (5 * j + 1) lcgSize
        have hk' := Nat.div_add_mod (5 * k + 1) lcgSize
        rw [heq] at hj
        rw [lcgNext, lcgNext]
        omega
      · have hle : (5 * j + 1) / lcgSize ≤ (5 * k + 1) / lcgSize :=
          Nat.div_le_div_right (by omega)
        exact Or.inl (by omega)
    · rw [lcgSize] at *; omega
    · rw [lcgSize] at *; omega

/-! ## The period -/

/-- The states from 0 are the powers of 5. -/
theorem lcgNext_iterate (t : Nat) : 4 * lcgNext^[t] 0 + 1 = 5 ^ t % (4 * lcgSize) := by
  induction t with
  | zero => decide
  | succ t ih =>
    rw [Function.iterate_succ_apply', Nat.pow_succ, Nat.mul_mod, ← ih, lcgNext]
    simp only [lcgSize]
    omega

theorem orderOf_five : orderOf (5 : ZMod (4 * lcgSize)) = lcgSize := by
  have hcast : ∀ k, (5 : ZMod (4 * lcgSize)) ^ k = 1 ↔ 5 ^ k % (4 * lcgSize) = 1 := by
    intro k
    have h := ZMod.natCast_eq_natCast_iff' (5 ^ k) 1 (4 * lcgSize)
    have hone : 1 % (4 * lcgSize) = 1 := by decide
    rw [hone] at h
    simpa using h
  have hnot : ¬ (5 : ZMod (4 * lcgSize)) ^ 2 ^ 16 = 1 := by
    rw [hcast]
    decide +kernel
  have hfin : (5 : ZMod (4 * lcgSize)) ^ 2 ^ (16 + 1) = 1 := by
    rw [hcast]
    decide +kernel
  exact orderOf_eq_prime_pow hnot hfin

/-- The first `2 ^ 17` states are different. -/
theorem lcgNext_iterate_injective {s t : Nat} (hs : s < lcgSize) (ht : t < lcgSize)
    (h : lcgNext^[s] 0 = lcgNext^[t] 0) : s = t := by
  have hs' := lcgNext_iterate s
  have ht' := lcgNext_iterate t
  have hpow : (5 : ZMod (4 * lcgSize)) ^ s = 5 ^ t := by
    have hmod : 5 ^ s % (4 * lcgSize) = 5 ^ t % (4 * lcgSize) := by rw [← hs', ← ht', h]
    have := (ZMod.natCast_eq_natCast_iff' (5 ^ s) (5 ^ t) (4 * lcgSize)).mpr hmod
    simpa using this
  refine pow_injOn_Iio_orderOf (x := (5 : ZMod (4 * lcgSize))) ?_ ?_ hpow
  · rw [orderOf_five]
    exact hs
  · rw [orderOf_five]
    exact ht

theorem lcgNext_period : lcgNext^[lcgSize] 0 = 0 := by
  have h := lcgNext_iterate lcgSize
  have hpow : 5 ^ lcgSize % (4 * lcgSize) = 1 := by decide +kernel
  omega

theorem lcgNext_iterate_lt (t : Nat) : lcgNext^[t] 0 < lcgSize := by
  cases t with
  | zero => decide
  | succ t =>
    rw [Function.iterate_succ_apply']
    exact lcgNext_lt _

/-- **The states of a period** are all states. -/
theorem lcgOrbit_perm :
    ((List.range lcgSize).map fun t => lcgNext^[t] 0).Perm (List.range lcgSize) := by
  have hnodup : ((List.range lcgSize).map fun t => lcgNext^[t] 0).Nodup :=
    List.Nodup.map_on (fun s hs t ht h => lcgNext_iterate_injective (List.mem_range.mp hs)
      (List.mem_range.mp ht) h) List.nodup_range
  have hsub : ((List.range lcgSize).map fun t => lcgNext^[t] 0) ⊆ List.range lcgSize := by
    intro j hj
    obtain ⟨t, -, rfl⟩ := List.mem_map.mp hj
    exact List.mem_range.mpr (lcgNext_iterate_lt t)
  exact (hnodup.subperm hsub).perm_of_length_le (by simp)

/-- Every state comes back after a period. -/
theorem lcgNext_iterate_period {j : Nat} (hj : j < lcgSize) (m : Nat) :
    lcgNext^[m * lcgSize] j = j := by
  obtain ⟨t, -, rfl⟩ := List.mem_map.mp (lcgOrbit_perm.mem_iff.mpr (List.mem_range.mpr hj))
  induction m with
  | zero => rw [Nat.zero_mul]; rfl
  | succ m ih =>
    rw [Nat.succ_mul, Function.iterate_add_apply, ← Function.iterate_add_apply _ lcgSize,
      Nat.add_comm lcgSize, Function.iterate_add_apply _ t, lcgNext_period, ih]

/-! ## The rotations -/

theorem expandingFile_length : expandingFile.length = 2 * lcgSize := lcgLetters_length _ _

/-- A rotation starts with the letters of the state it starts in. -/
theorem expandingFile_rotate {t : Nat} (ht : t ≤ 2 * lcgSize) :
    expandingFile.rotate t = lcgLetters (2 * lcgSize) (lcgNext^[t] 0) := by
  have hback : lcgNext^[2 * lcgSize - t] (lcgNext^[t] 0) = 0 := by
    rw [← Function.iterate_add_apply, Nat.sub_add_cancel ht,
      lcgNext_iterate_period (by decide) 2]
  have hsplit : expandingFile = lcgLetters t 0 ++ lcgLetters (2 * lcgSize - t) (lcgNext^[t] 0) := by
    rw [← lcgLetters_add, Nat.add_sub_cancel' ht, expandingFile]
  have hrows : lcgLetters (2 * lcgSize) (lcgNext^[t] 0) =
      lcgLetters (2 * lcgSize - t) (lcgNext^[t] 0) ++ lcgLetters t 0 := by
    conv => lhs; rw [← Nat.sub_add_cancel ht, lcgLetters_add, hback]
  have hrot := List.rotate_append_length_eq (lcgLetters t 0)
    (lcgLetters (2 * lcgSize - t) (lcgNext^[t] 0))
  rw [lcgLetters_length] at hrot
  rw [hrows, hsplit, hrot]

/-- The rows of the sorted table. -/
def lcgRows : List Bytes :=
  (List.range lcgSize).flatMap fun j => [lcgLetters (2 * lcgSize) j, lcgLetters (2 * lcgSize) j]

theorem flatMap_pair_perm {α : Type} (l : List Nat) (f : Nat → α) :
    (l.flatMap fun j => [f j, f j]).Perm (l.map f ++ l.map f) := by
  induction l with
  | nil => exact List.Perm.refl _
  | cons j l ih =>
    rw [List.flatMap_cons, List.map_cons, List.cons_append, List.cons_append, List.nil_append]
    exact (List.Perm.cons _ ((List.Perm.cons _ ih).trans List.perm_middle.symm))

theorem lcgRows_perm :
    lcgRows.Perm ((List.range expandingFile.length).map expandingFile.rotate) := by
  have hfirst : (List.range lcgSize).map expandingFile.rotate =
      ((List.range lcgSize).map fun t => lcgNext^[t] 0).map (lcgLetters (2 * lcgSize)) := by
    rw [List.map_map]
    refine List.map_congr_left fun t ht => ?_
    have := List.mem_range.mp ht
    exact expandingFile_rotate (by omega)
  have hsecond : ((List.range lcgSize).map (lcgSize + ·)).map expandingFile.rotate =
      (List.range lcgSize).map expandingFile.rotate := by
    rw [List.map_map]
    refine List.map_congr_left fun t ht => ?_
    have := List.mem_range.mp ht
    rw [Function.comp_apply, expandingFile_rotate (by omega), expandingFile_rotate (by omega),
      Nat.add_comm, Function.iterate_add_apply, lcgNext_period]
  rw [expandingFile_length, Nat.two_mul, List.range_add, List.map_append, hsecond, hfirst]
  have horbit := lcgOrbit_perm.symm.map (lcgLetters (2 * lcgSize))
  exact (flatMap_pair_perm _ _).trans (horbit.append horbit)

theorem lcgRows_sorted : lcgRows.Pairwise (· ≤ ·) := by
  rw [lcgRows, List.pairwise_flatMap]
  refine ⟨fun j _ => by simp, ?_⟩
  refine List.pairwise_lt_range.imp_of_mem fun {j k} _ hk hjk a ha b hb => ?_
  have hle := lcgLetters_mono (2 * lcgSize) (Nat.le_of_lt hjk) (List.mem_range.mp hk)
  simp only [List.mem_cons, List.not_mem_nil, or_false, or_self] at ha hb
  rwa [ha, hb]

/-- The letter before a state. -/
def lcgLast (j : Nat) : UInt8 := UInt8.ofNat ((3 + 2 * j) % 5)

theorem lcgLetters_getLast {j : Nat} (hj : j < lcgSize) :
    (lcgLetters (2 * lcgSize) j).getLastD 0 = lcgLast j := by
  obtain ⟨n, hn⟩ : ∃ n, 2 * lcgSize = n + 1 := ⟨2 * lcgSize - 1, by decide⟩
  have hperiod := lcgNext_iterate_period hj 2
  have hlt : lcgNext^[n] j < lcgSize := by
    obtain ⟨m, rfl⟩ : ∃ m, n = m + 1 := ⟨n - 1, by rw [lcgSize] at hn; omega⟩
    rw [Function.iterate_succ_apply']
    exact lcgNext_lt _
  rw [hn, lcgLetters_add, List.getLastD_eq_getLast?, lcgLetters, lcgLetters,
    List.getLast?_append_of_ne_nil _ (List.cons_ne_nil _ _)]
  rw [hn, Function.iterate_succ_apply'] at hperiod
  generalize lcgNext^[n] j = i at *
  refine congrArg UInt8.ofNat ?_
  rw [lcgNext] at hperiod
  simp only [lcgSize] at *
  omega

/-- **The transform**: the letters before the states in order, each twice. -/
theorem expandingFile_bwt (qsortR : QsortR) :
    (braBwtEncode2 qsortR expandingFile).1 =
      (List.range lcgSize).flatMap fun j => [lcgLast j, lcgLast j] := by
  rw [braBwtEncode2_of_sorted qsortR expandingFile lcgRows_perm lcgRows_sorted, lcgRows,
    List.map_flatMap]
  refine List.flatMap_congr fun j hj => ?_
  have hlast := lcgLetters_getLast (List.mem_range.mp hj)
  rw [List.map_cons, List.map_cons, List.map_nil, hlast]

/-! ## Move-to-front -/

/-- The letters before five states in a row, each twice. -/
def lcgBlock : Bytes := [3, 3, 0, 0, 2, 2, 4, 4, 1, 1]

theorem flatMap_lcgLast (m : Nat) :
    ((List.range (5 * m + 2)).flatMap fun j => [lcgLast j, lcgLast j]) =
      (List.replicate m lcgBlock).flatten ++ [3, 3, 0, 0] := by
  have hlast : ∀ m r, lcgLast (5 * m + r) = lcgLast r := by
    intro m r
    refine congrArg UInt8.ofNat ?_
    omega
  have hblocks : ((List.range (5 * m)).flatMap fun j => [lcgLast j, lcgLast j]) =
      (List.replicate m lcgBlock).flatten := by
    induction m with
    | zero => rfl
    | succ m ih =>
      rw [Nat.mul_succ, List.range_add, List.flatMap_append, ih, List.flatMap_map,
        List.replicate_succ', List.flatten_append]
      simp only [hlast]
      rfl
  rw [List.range_add, List.flatMap_append, hblocks, List.flatMap_map]
  simp only [hlast]
  rfl

/-- Codes separated by zeros. -/
def spaced (codes : Bytes) : Bytes := codes.flatMap fun c => [c, 0]

theorem spaced_noTriple {codes : Bytes} (h : ∀ c ∈ codes, c ≠ 0) : NoTriple (spaced codes) := by
  induction codes with
  | nil => rintro (_ | ⟨x, pre⟩) a rest <;> simp [spaced]
  | cons c codes ih =>
    obtain ⟨hc, hcodes⟩ := List.forall_mem_cons.mp h
    intro pre a rest heq
    rw [spaced, List.flatMap_cons] at heq
    match pre, heq with
    | [], heq =>
      obtain ⟨rfl, heq⟩ := List.cons.inj heq
      exact hc (List.cons.inj heq).1.symm
    | [x], heq =>
      obtain ⟨-, heq⟩ := List.cons.inj heq
      obtain ⟨rfl, heq⟩ := List.cons.inj heq
      cases codes with
      | nil => cases heq
      | cons c' codes => exact hcodes c' List.mem_cons_self (List.cons.inj heq).1
    | x :: y :: pre, heq =>
      obtain ⟨-, heq⟩ := List.cons.inj heq
      obtain ⟨-, heq⟩ := List.cons.inj heq
      exact ih hcodes pre a rest heq

/-- The table after the first block; every block leaves it as it is. -/
def lcgTable : Bytes := mtfTableAfter mtfInitTable lcgBlock

theorem mtfEncodeFrom_lcgBlocks (m : Nat) :
    mtfEncodeFrom lcgTable ((List.replicate m lcgBlock).flatten ++ [3, 3, 0, 0]) =
      spaced (List.replicate (m * 5 + 2) 4) := by
  induction m with
  | zero => decide +kernel
  | succ m ih =>
    have hcodes : mtfEncodeFrom lcgTable lcgBlock = spaced (List.replicate 5 4) := by
      decide +kernel
    have htable : mtfTableAfter lcgTable lcgBlock = lcgTable := by decide +kernel
    rw [List.replicate_succ, List.flatten_cons, List.append_assoc, mtfEncodeFrom_append, hcodes,
      htable, ih, spaced, spaced, ← List.flatMap_append, List.replicate_append_replicate]
    congr 2
    omega

/-- The codes of the file: after the first block every letter was last seen five letters
ago. -/
def lcgCodes : Bytes := [3, 1, 3, 4, 4] ++ List.replicate (26213 * 5 + 2) 4

theorem expandingFile_mtf (qsortR : QsortR) :
    braMtfEncode2 (braBwtEncode2 qsortR expandingFile).1 = spaced lcgCodes := by
  have hblocks := flatMap_lcgLast (26213 + 1)
  have hsize : 5 * (26213 + 1) + 2 = lcgSize := by decide
  have hcodes : mtfEncodeFrom mtfInitTable lcgBlock = spaced [3, 1, 3, 4, 4] := by decide +kernel
  rw [hsize, List.replicate_succ, List.flatten_cons, List.append_assoc] at hblocks
  rw [braMtfEncode2, expandingFile_bwt, hblocks, mtfEncodeFrom_append, hcodes, ← lcgTable,
    mtfEncodeFrom_lcgBlocks, lcgCodes, spaced, spaced, spaced, List.flatMap_append]

theorem lcgCodes_mem {c : UInt8} (hc : c ∈ lcgCodes) : c ∈ ([1, 3, 4] : Bytes) := by
  rcases List.mem_append.mp hc with hc | hc
  · simp only [List.mem_cons, List.not_mem_nil, or_false] at hc
    rcases hc with rfl | rfl | rfl | rfl | rfl <;> simp
  · rw [(List.mem_replicate.mp hc).2]
    simp

/-! ## The sizes -/

section Sizes
variable (qsortR : QsortR)

theorem expandingFile_noTriple :
    NoTriple (braMtfEncode2 (braBwtEncode2 qsortR expandingFile).1) := by
  rw [expandingFile_mtf]
  refine spaced_noTriple fun c hc h => ?_
  have := lcgCodes_mem hc
  rw [h] at this
  exact absurd this (by decide)

theorem expandingFile_rleSize : rleSize qsortR expandingFile = 264192 := by
  rw [rleSize, rleEncodeComputeSize_eq, (expandingFile_noTriple qsortR).rleEncodeBlocks_length
    (Nat.le_refl _), transformed_length, expandingFile_length]
  rfl

/-- Five different bytes are left for the Huffman encoder. -/
theorem expandingFile_symbols :
    (alphabet.filter (· ∈ rleData qsortR expandingFile)).length ≤ 2 ^ 3 := by
  have hsub : alphabet.filter (· ∈ rleData qsortR expandingFile) ⊆ [0, 1, 3, 4, 127] := by
    intro s hs
    have hs : s ∈ rleData qsortR expandingFile := by simpa using (List.mem_filter.mp hs).2
    have hdvd : braRleMaxRuns ∣ (braMtfEncode2 (braBwtEncode2 qsortR expandingFile).1).length := by
      rw [transformed_length, expandingFile_length]
      decide
    rcases (expandingFile_noTriple qsortR).mem_rleEncodeBlocks hdvd hs with rfl | hs
    · decide
    · rw [expandingFile_mtf, spaced] at hs
      obtain ⟨c, hc, hs⟩ := List.mem_flatMap.mp hs
      have hc := lcgCodes_mem hc
      simp only [List.mem_cons, List.not_mem_nil, or_false] at hs hc ⊢
      rcases hs with rfl | rfl
      · rcases hc with rfl | rfl | rfl <;> simp
      · simp
  have hle := ((alphabet_nodup.filter _).subperm hsub).length_le
  exact Nat.le_trans hle (by decide)

theorem expandingFile_chunks : fileChunks expandingFile = [expandingFile] := by
  have hlen : expandingFile.length = braMaxChunkSize := expandingFile_length
  obtain ⟨b, x, hx⟩ := List.exists_cons_of_length_pos (l := expandingFile) (by rw [hlen]; decide)
  rw [fileChunks, hx, List.length_cons, splitChunks, ← hx, List.take_of_length_le (by omega),
    List.drop_eq_nil_of_le (by omega)]
  cases x.length <;> rfl

/-- The compressed form is less than half the size. -/
theorem expandingFile_compressed : (compressedData qsortR expandingFile).length ≤ 99339 := by
  have hpos : 0 < expandingFile.length := by rw [expandingFile_length]; decide
  have hmax : expandingFile.length ≤ braMaxChunkSize := Nat.le_of_eq expandingFile_length
  obtain ⟨-, -, -, -, hbits⟩ := compressData_spec qsortR hpos hmax
  have hlen := hbits 3 (by decide) (expandingFile_symbols qsortR)
  rw [expandingFile_rleSize] at hlen
  rw [compressedData, expandingFile_chunks, List.flatMap_singleton, chunkImage, List.length_append,
    ChunkHeader.diskImage_length, braIoChunkHeaderSize, braBwtIndexBytes, sizeofHuffman]
  omega

/-- The one chunk header is rejected. -/
theorem expandingFile_invalid :
    braIoFileChunksHeaderValidate (encodedChunk qsortR expandingFile).1 = false := by
  have hpos : 0 < expandingFile.length := by rw [expandingFile_length]; decide
  have hmax : expandingFile.length ≤ braMaxChunkSize := Nat.le_of_eq expandingFile_length
  obtain ⟨-, -, -, hvalid, -⟩ := compressData_spec qsortR hpos hmax
  rw [expandingFile_rleSize] at hvalid
  rw [Bool.eq_false_iff, ne_eq, hvalid]
  decide

/-- **The decompressor fails** on the compressed form. -/
theorem expandingFile_rejected (dst : Option IoFile) (pre post : Bytes) (me : MetaEntry) :
    braIoFileChunksDecompressFile dst (ioAt pre (compressedData qsortR expandingFile ++ post))
      (compressedData qsortR expandingFile).length me true = none := by
  have hpos : 0 < expandingFile.length := by rw [expandingFile_length]; decide
  have hmax : expandingFile.length ≤ braMaxChunkSize := Nat.le_of_eq expandingFile_length
  obtain ⟨-, -, hindex, -⟩ := compressData_spec qsortR hpos hmax
  have hlt := Nat.lt_of_lt_of_le (Nat.lt_of_lt_of_le hindex hmax)
    (show braMaxChunkSize ≤ 256 ^ braBwtIndexBytes by decide)
  have himage : compressedData qsortR expandingFile =
      (encodedChunk qsortR expandingFile).1.diskImage ++ (encodedChunk qsortR expandingFile).2 := by
    rw [compressedData, expandingFile_chunks, List.flatMap_singleton, chunkImage]
  rw [himage, List.append_assoc]
  refine braIoFileChunksDecompressFile_invalid hlt (expandingFile_invalid qsortR) dst pre _ ?_ me
    true
  rw [List.length_append, ChunkHeader.diskImage_length]
  exact Nat.add_pos_left (by decide) _

end Sizes

/-- A file whose compressed form is kept but rejected does not come back. -/
theorem not_roundTrips_of_rejected {qsortR : QsortR} {x : Bytes} {me : MetaEntry}
    (hkept : (compressedData qsortR x).length < x.length)
    (htype : braAttrType me.attributes = .file)
    (hrejected : braIoFileChunksDecompressFile (some (ioAt [] []))
      (ioAt [] (compressedData qsortR x ++ [])) (compressedData qsortR x).length me true = none) :
    ∃ r, braIoFileChunksCompressFile qsortR (ioAt [] []) (ioAt [] x) x.length me = some r ∧
      r.res = true ∧ ¬ RoundTrips qsortR x [] r := by
  have hrun := braIoFileChunksCompressFile_eq qsortR [] x me
  rw [if_neg (Nat.not_le.mpr hkept), if_neg (not_not.mpr htype)] at hrun
  refine ⟨_, hrun, rfl, fun hround => ?_⟩
  obtain ⟨payload, hdst, -, hdec⟩ := hround.decompress
  have hpayload : payload = compressedData qsortR x := by
    have hdata := congrArg IoFile.data hdst
    simp only [ioAt_data, List.append_nil] at hdata
    exact (List.append_cancel_left hdata).symm
  obtain ⟨me', hme'⟩ := hdec [] [] me
  rw [hpayload] at hme'
  exact absurd (hrejected.symm.trans hme') (by simp)

/-- **A file of 262144 bytes that does not come back**: the compressed form is kept, and
the decompressor rejects it. -/
theorem expandingFile_not_roundTrips :
    ∃ r, braIoFileChunksCompressFile QsortR.mergeSort (ioAt [] []) (ioAt [] expandingFile)
        expandingFile.length (braMetaEntryInit 4 [97] 1) = some r ∧
      r.res = true ∧ ¬ RoundTrips QsortR.mergeSort expandingFile [] r := by
  have hlen := expandingFile_compressed QsortR.mergeSort
  have hsize : expandingFile.length = 262144 := expandingFile_length
  exact not_roundTrips_of_rejected (by omega) (by decide)
    (expandingFile_rejected QsortR.mergeSort _ _ _ _)

end BrArchive
