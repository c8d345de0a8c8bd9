import BrArchive.HuffmanOptimal

/-! # The widths of the Huffman coder

The greedy merge joins the two lightest trees, so a deep tree is heavy: its weight, which is
the length of the buffer, grows with its depth like the Fibonacci numbers.  For a buffer of the
size the encoder is given no code is longer than 25 bits, and the counters of 32 bits hold the
codes and the number of bits.
-/
namespace BrArchive
open CodeTree CanonicalCode

/-- The code lengths of a buffer, and what the encoder computes from them: the codes have the
numbers that counters without a bound would give them, and these fit their lengths; and so it is
with the number of bits, at any point of the buffer. -/
structure CodeArithmetic (buf : Bytes) (lengths : UInt8 → UInt8) : Prop where
  fib_le : ∀ s, Nat.fib ((lengths s).toNat + 2) ≤ buf.length
  length_le : ∀ s, (lengths s).toNat ≤ 25
  start_eq : ∀ s, lengths s ≠ 0 →
    canonicalStart (List.range' 1 256) 0 (Function.update (canonicalCount lengths) 0 0)
      (lengths s).toNat = first (codeCount lengths) (lengths s).toNat
  codes_eq : ∀ s, lengths s ≠ 0 → ∀ codes, braHuffmanComputeCanonicalCodes lengths codes s =
    codeBits (lengths s).toNat (code alphabet (codeLength lengths) s)
  code_lt : ∀ s, lengths s ≠ 0 →
    code alphabet (codeLength lengths) s < 2 ^ (lengths s).toNat
  bitCount_eq : ∀ pre, pre <+: buf →
    huffmanBitCount lengths pre = (pre.map fun b => (lengths b).toNat).sum
  bitCount_lt : (buf.map fun b => (lengths b).toNat).sum + 7 < 2 ^ 32

section Buffer
variable {buf : Bytes} {root : HuffmanTree}

/-- Below a root with two subtrees the stored lengths are the depths. -/
theorem BufferTree.lengths_eq_depth (h : BufferTree buf root) (hheight : root.height ≤ 26)
    (hroot : ∀ n, root ≠ leaf n) :
    ∀ p ∈ leafDepths root 0, (root.lengths p.1.symbol).toNat = p.2 := by
  intro p hp
  rw [(lengths_leaf h.codes (leaves_nodup _) hheight p hp).1,
    Nat.max_eq_right (h.depth_pos hroot p hp)]

theorem BufferTree.length_lt_height (h : BufferTree buf root) (hheight : root.height ≤ 26)
    (hroot : ∀ n, root ≠ leaf n) (s : UInt8) : (root.lengths s).toNat < root.height := by
  by_cases hs : s ∈ (huffmanLeaves (huffmanFreq buf)).map HuffmanNode.symbol
  · obtain ⟨p, hp, rfl⟩ := exists_leafDepth h.codes hs
    rw [h.lengths_eq_depth hheight hroot p hp]
    simpa using (h.codes.full.depth_bounds p hp).2
  · -- a byte that does not occur has length zero, and the tree is not empty
    obtain ⟨p, hp⟩ := List.exists_mem_of_ne_nil _ (h.codes.full.leafDepths_ne_nil 0)
    have hdepth := (h.codes.full.depth_bounds p hp).2
    rw [lengths_off h.codes hs]
    change 0 < root.height
    omega

/-- **The Fibonacci bound** on the lengths. -/
theorem BufferTree.fib_length_le (h : BufferTree buf root) (hheight : root.height ≤ 26)
    (hroot : ∀ n, root ≠ leaf n) (s : UInt8) :
    Nat.fib ((root.lengths s).toNat + 2) ≤ buf.length := by
  have hlt := h.length_lt_height hheight hroot s
  have hmono : Nat.fib ((root.lengths s).toNat + 2) ≤ Nat.fib (root.height + 1) :=
    Nat.fib_mono (by omega)
  exact Nat.le_trans hmono (fib_height_le_length h.run)

/-- The starting code of a length that is short enough does not wrap. -/
theorem canonicalStart_exact {lengths : UInt8 → UInt8} {D : Nat} (hD : D ≤ 32)
    (hk : kraftSum alphabet (codeLength lengths) D ≤ 2 ^ D) {s : UInt8} (hlen : lengths s ≠ 0)
    (hle : codeLength lengths s ≤ D) :
    canonicalStart (List.range' 1 256) 0 (Function.update (canonicalCount lengths) 0 0)
      (codeLength lengths s) = first (codeCount lengths) (codeLength lengths s) := by
  -- the code of the symbol is the starting code of its length or comes after it
  have hfirst : first (codeCount lengths) (codeLength lengths s) ≤
      code alphabet (codeLength lengths) s := Nat.le_add_right _ _
  have hcode := code_lt_counter lengths hD hk hlen hle
  rw [canonicalStart_mod lengths (codeLength_pos hlen) (Nat.le_of_lt (lengths s).toNat_lt),
    Nat.mod_eq_of_lt (Nat.lt_of_le_of_lt hfirst hcode)]

/-- The counter of the bits does not wrap on the way. -/
theorem huffmanBitCount_prefix {lengths : UInt8 → UInt8}
    (hlt : codeBitCount lengths buf < 2 ^ 32) {pre : Bytes} (hpre : pre <+: buf) :
    huffmanBitCount lengths pre = codeBitCount lengths pre := by
  obtain ⟨rest, rfl⟩ := hpre
  rw [codeBitCount, List.map_append, List.sum_append] at hlt
  exact huffmanBitCount_eq (Nat.lt_of_le_of_lt (Nat.le_add_right _ _) hlt)

theorem BufferTree.codeArithmetic (h : BufferTree buf root)
    (hmax : buf.length ≤ braMaxChunkSize + braMaxChunkSize / 128)
    (hroot : ∀ n, root ≠ leaf n) : CodeArithmetic buf root.lengths := by
  have hheight := height_le_of_merges hmax h.run
  have hkraft := kraftSum_lengths h.codes (leaves_nodup _) hheight
  have hsize : buf.length ≤ 264192 := hmax
  have hcount := h.codeBitCount_le hheight
  refine ⟨h.fib_length_le hheight hroot, h.length_le hheight, fun s hs => ?_, fun s hs codes => ?_,
    fun s hs => ?_, fun pre hpre => ?_, ?_⟩
  · exact canonicalStart_exact (by decide) hkraft hs (h.length_le hheight s)
  · exact computeCanonicalCodes_eq root.lengths (by decide) hkraft hs (h.length_le hheight s) codes
  · exact code_lt hkraft (mem_alphabet s) (codeLength_pos hs) (h.length_le hheight s)
  · exact huffmanBitCount_prefix (by omega) hpre
  · change codeBitCount root.lengths buf + 7 < 2 ^ 32
    omega

/-- **Code lengths fit 32 bits.**  For every buffer with two different bytes, of a size the
encoder may be given: the encoder stores the depths of the leaves of its tree, `fib (L + 2)` is
at most the length of the buffer for each of these lengths `L`, so that `L ≤ 25`, and neither
the codes nor the number of bits wrap. -/
theorem codeLengths_fit (hmax : buf.length ≤ braMaxChunkSize + braMaxChunkSize / 128)
    (hdistinct : ∃ a ∈ buf, ∃ b ∈ buf, a ≠ b) :
    ∃ root chunk, braHuffmanTreeBuild (huffmanFreq buf) = some root ∧
      (∀ p ∈ leafDepths root 0, (root.lengths p.1.symbol).toNat = p.2) ∧
      CodeArithmetic buf root.lengths ∧
      braHuffmanEncode buf = some chunk ∧ chunk.info.lengths = root.lengths := by
  obtain ⟨a, ha, b, hb, hab⟩ := hdistinct
  have hpos := List.length_pos_of_mem ha
  obtain ⟨root, hroot⟩ := exists_bufferTree hpos
  obtain ⟨chunk, hchunk, hlengths, -⟩ := hroot.encode hpos hmax
  have hne := hroot.ne_leaf ha hb hab
  exact ⟨root, chunk, hroot.build,
    hroot.lengths_eq_depth (height_le_of_merges hmax hroot.run) hne,
    hroot.codeArithmetic hmax hne, hchunk, hlengths⟩

/-- Five bytes with codes of one, two and two bits. -/
theorem codeLengths_fit_three :
    ∃ root chunk, braHuffmanTreeBuild (huffmanFreq [7, 9, 7, 8, 7]) = some root ∧
      (∀ p ∈ leafDepths root 0, (root.lengths p.1.symbol).toNat = p.2) ∧
      CodeArithmetic [7, 9, 7, 8, 7] root.lengths ∧
      braHuffmanEncode [7, 9, 7, 8, 7] = some chunk ∧ chunk.info.lengths = root.lengths :=
  codeLengths_fit (by decide) ⟨7, by decide, 9, by decide, by decide⟩

end Buffer
end BrArchive
