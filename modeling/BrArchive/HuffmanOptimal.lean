import BrArchive.HuffmanSize
import BrArchive.OptimalMerge

/-! # Huffman codes are optimal

The lengths that the encoder stores are the depths in the tree of the merge.  In a full tree
they satisfy Kraft's inequality with equality, and no other lengths that satisfy it give the
buffer fewer code bits.
-/
namespace BrArchive
open CodeTree GreedyMerge

section Buffer
variable {buf : Bytes} {root : HuffmanTree}

/-- The symbols of a buffer. -/
def bufferSymbols (buf : Bytes) : List UInt8 := alphabet.filter (fun s => 0 < huffmanFreq buf s)

theorem mem_bufferSymbols {s : UInt8} : s ∈ bufferSymbols buf ↔ s ∈ buf := by
  rw [bufferSymbols, huffmanFreq_eq, List.mem_filter, decide_eq_true_eq, List.count_pos_iff]
  exact and_iff_right (mem_alphabet s)

/-- Summing over the symbols of a buffer, in any order. -/
theorem sum_toFinset_eq {l : List UInt8} (hl : l.Perm (bufferSymbols buf)) (f : UInt8 → ℚ) :
    ∑ s ∈ buf.toFinset, f s = (l.map f).sum := by
  have hnodup : l.Nodup := hl.nodup_iff.mpr (alphabet_nodup.filter _)
  have hset : buf.toFinset = l.toFinset := Finset.ext fun s => by
    rw [List.mem_toFinset, List.mem_toFinset, hl.mem_iff, mem_bufferSymbols]
  rw [hset, List.sum_toFinset f hnodup]

/-- With two different bytes the root is not a leaf. -/
theorem BufferTree.ne_leaf (h : BufferTree buf root) {a b : UInt8} (ha : a ∈ buf) (hb : b ∈ buf)
    (hab : a ≠ b) (n : HuffmanNode) : root ≠ leaf n := by
  rintro rfl
  have hsyms : [n.symbol].Perm (bufferSymbols buf) := by
    have := h.codes.symbols_perm
    rwa [huffmanLeaves_symbols] at this
  have hn : ∀ c ∈ buf, c = n.symbol := fun c hc =>
    List.mem_singleton.mp (hsyms.mem_iff.mpr (mem_bufferSymbols.mpr hc))
  exact hab ((hn a ha).trans (hn b hb).symm)

/-- **Kraft's equality** for the stored lengths. -/
theorem BufferTree.kraft_eq (h : BufferTree buf root) (hheight : root.height ≤ 26)
    (hroot : ∀ n, root ≠ leaf n) :
    ∑ s ∈ buf.toFinset, (1 / 2 : ℚ) ^ (root.lengths s).toNat = 1 := by
  have hsyms : ((leafDepths root 0).map fun p => p.1.symbol).Perm (bufferSymbols buf) := by
    have := h.codes.symbols_perm
    rwa [huffmanLeaves_symbols, ← h.codes.full.map_fst_leafDepths 0, List.map_map] at this
  have hleaf := lengths_leaf h.codes (leaves_nodup _) hheight
  have hdepths : ((leafDepths root 0).map fun p => (1 / 2 : ℚ) ^ (root.lengths p.1.symbol).toNat) =
      ((leafDepths root 0).map Prod.snd).map fun l => (1 / 2 : ℚ) ^ l := by
    rw [List.map_map]
    refine List.map_congr_left fun p hp => ?_
    rw [(hleaf p hp).1, Nat.max_eq_right (h.depth_pos hroot p hp)]
    rfl
  have hle : ∀ l ∈ (leafDepths root 0).map Prod.snd, l ≤ 25 := by
    intro l hl
    obtain ⟨p, hp, rfl⟩ := List.mem_map.mp hl
    exact (hleaf p hp).2
  -- a full tree leaves no codeword unused
  have hkraft : ((leafDepths root 0).map fun p => 2 ^ (25 - p.2)).sum = 2 ^ (25 - 0) :=
    h.codes.full.kraft fun p hp => (hleaf p hp).2
  have hsum : (((leafDepths root 0).map Prod.snd).map fun l => 2 ^ (25 - l)).sum = 2 ^ 25 := by
    rw [List.map_map]
    exact hkraft
  rw [sum_toFinset_eq hsyms, List.map_map]
  refine (congrArg List.sum hdepths).trans ?_
  rw [← kraft, kraft_eq_div hle, hsum]
  norm_num

/-- **No lengths do better.** -/
theorem BufferTree.codeBitCount_le_of_kraft (h : BufferTree buf root)
    (hheight : root.height ≤ 26) (hroot : ∀ n, root ≠ leaf n) {l : UInt8 → Nat}
    (hl : ∑ s ∈ buf.toFinset, (1 / 2 : ℚ) ^ l s ≤ 1) :
    codeBitCount root.lengths buf ≤ (buf.map l).sum := by
  have hs := (minHeapLeaves_spec (huffmanFreq buf)).2
  have hkraft : kraft (((bufferSymbols buf).map fun s =>
      (braHuffmanCreateNode s (huffmanFreq buf s), l s)).map Prod.snd) ≤ 1 := by
    rw [kraft, List.map_map, List.map_map]
    rwa [sum_toFinset_eq (List.Perm.refl _)] at hl
  have hitems : (((bufferSymbols buf).map fun s =>
      (braHuffmanCreateNode s (huffmanFreq buf s), l s)).map Prod.fst).Perm
        (minHeapLeaves (huffmanFreq buf)) := by
    rw [List.map_map]
    exact (minHeapLeaves_spec _).1.symm
  have hcost := h.run.cost_le_lengthCost (fun _ _ => rfl) cost_huffmanJoin hs hitems hkraft
  rw [minHeapLeaves_cost, Nat.zero_add, lengthCost, List.map_map] at hcost
  have hcount : (alphabet.map fun s => buf.count s * l s).sum =
      ((bufferSymbols buf).map fun s => huffmanFreq buf s * l s).sum := by
    rw [huffmanFreq_eq]
    refine sum_alphabet (alphabet_nodup.filter _) fun s hs => ?_
    rw [List.count_eq_zero_of_not_mem (mt mem_bufferSymbols.mpr hs), Nat.zero_mul]
  rw [h.codeBitCount_eq_cost hheight hroot, sum_map_eq_sum_alphabet, hcount]
  exact hcost

/-- **Huffman codes are optimal.**  The stored lengths satisfy Kraft's equality over the symbols
of the buffer, and of all lengths that satisfy Kraft's inequality there they take the fewest
bits for it. -/
theorem huffman_optimal (hmax : buf.length ≤ braMaxChunkSize + braMaxChunkSize / 128)
    (hdistinct : ∃ a ∈ buf, ∃ b ∈ buf, a ≠ b) :
    ∃ chunk, braHuffmanEncode buf = some chunk ∧
      ∑ s ∈ buf.toFinset, (1 / 2 : ℚ) ^ (chunk.info.lengths s).toNat = 1 ∧
      ∀ l : UInt8 → Nat, ∑ s ∈ buf.toFinset, (1 / 2 : ℚ) ^ l s ≤ 1 →
        (buf.map fun b => (chunk.info.lengths b).toNat).sum ≤ (buf.map l).sum := by
  obtain ⟨a, ha, b, hb, hab⟩ := hdistinct
  have hpos := List.length_pos_of_mem ha
  obtain ⟨root, hroot⟩ := exists_bufferTree hpos
  obtain ⟨chunk, hchunk, hlengths, -⟩ := hroot.encode hpos hmax
  have hheight := height_le_of_merges hmax hroot.run
  have hne := hroot.ne_leaf ha hb hab
  refine ⟨chunk, hchunk, ?_, fun l hl => ?_⟩
  · rw [hlengths]
    exact hroot.kraft_eq hheight hne
  · rw [hlengths]
    exact hroot.codeBitCount_le_of_kraft hheight hne hl

/-- Two symbols, one bit for each. -/
theorem huffman_optimal_pair :
    ∃ chunk, braHuffmanEncode [7, 9, 7] = some chunk ∧
      ∑ s ∈ ([7, 9, 7] : Bytes).toFinset, (1 / 2 : ℚ) ^ (chunk.info.lengths s).toNat = 1 ∧
      ∀ l : UInt8 → Nat, ∑ s ∈ ([7, 9, 7] : Bytes).toFinset, (1 / 2 : ℚ) ^ l s ≤ 1 →
        (([7, 9, 7] : Bytes).map fun b => (chunk.info.lengths b).toNat).sum ≤
          (([7, 9, 7] : Bytes).map l).sum :=
  huffman_optimal (by decide) ⟨7, by decide, 9, by decide, by decide⟩

end Buffer
end BrArchive
