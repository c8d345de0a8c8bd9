import BrArchive.HuffmanRoundTrip

/-! # The size of a Huffman code

The code bits of a buffer are the weighted depths of the leaves of its tree, which is
what the joins of the greedy merge cost; so a buffer with at most `2 ^ k` different
bytes takes at most `k` bits for each.  With 256 bytes in all, no chunk grows.
-/
namespace BrArchive
open CodeTree GreedyMerge

/-- What the joins of a tree cost: the weights of all nodes below the root. -/
def HuffmanTree.cost : HuffmanTree → Nat
  | .nil => 0
  | .node _ l r =>
    HuffmanTree.cost l + HuffmanTree.cost r + (HuffmanTree.freq l + HuffmanTree.freq r)

/-- The weighted depths of the leaves, the root being at depth `d`. -/
def depthSum (t : HuffmanTree) (d : Nat) : Nat :=
  ((leafDepths t d).map fun p => p.1.freq * p.2).sum

theorem depthSum_join {l r : HuffmanTree} (hl : l ≠ .nil) (d : Nat) :
    depthSum (huffmanJoin l r) d = depthSum l (d + 1) + depthSum r (d + 1) := by
  rw [depthSum, huffmanJoin, leafDepths_node _ hl, List.map_append, List.sum_append]
  rfl

/-- **The cost of the merge** is the sum of the weighted depths. -/
theorem depthSum_of_merges {heap : List HuffmanTree} {root : HuffmanTree}
    (h : Merges HuffmanTree.freq huffmanJoin heap root) (hs : Sorted HuffmanTree.freq heap)
    (hleaf : ∀ t ∈ heap, ∃ n, t = leaf n ∧ 0 < n.freq) :
    depthSum root 0 = root.cost := by
  have hinit : ∀ t ∈ heap, t ≠ .nil ∧ ∀ d, depthSum t d = t.cost + d * t.freq := by
    intro t ht
    obtain ⟨n, rfl, -⟩ := hleaf t ht
    refine ⟨leaf_ne_null n, fun d => ?_⟩
    simp [depthSum, leaf, leafDepths, HuffmanTree.cost, HuffmanTree.freq, Nat.mul_comm]
  have hstep := h.preserves
    (P := fun heap => ∀ t ∈ heap, t ≠ .nil ∧ ∀ d, depthSum t d = t.cost + d * t.freq)
    (fun l r rest items _ hperm hP t ht => ?_) hs hinit
  · have := (hstep root List.mem_cons_self).2 0
    rwa [Nat.zero_mul, Nat.add_zero] at this
  · rcases List.mem_cons.mp (hperm.mem_iff.mp ht) with rfl | ht
    · obtain ⟨hl, hdl⟩ := hP l List.mem_cons_self
      obtain ⟨-, hdr⟩ := hP r (List.mem_cons_of_mem l List.mem_cons_self)
      refine ⟨by simp [huffmanJoin], fun d => ?_⟩
      rw [depthSum_join hl, hdl, hdr]
      simp only [huffmanJoin, HuffmanTree.cost, HuffmanTree.freq]
      ring
    · exact hP t (List.mem_cons_of_mem l (List.mem_cons_of_mem r ht))

/-- Summing over a buffer is summing over the alphabet, each symbol counted. -/
theorem sum_map_eq_sum_alphabet (buf : Bytes) (f : UInt8 → Nat) :
    (buf.map f).sum = (alphabet.map fun s => buf.count s * f s).sum := by
  have hzero : ∀ s, s ∉ buf.dedup → buf.count s * f s = 0 := fun s hs => by
    rw [List.count_eq_zero_of_not_mem (fun h => hs (List.mem_dedup.mpr h)), Nat.zero_mul]
  have hdedup : buf.dedup.toFinset = buf.toFinset := Finset.ext fun s => by simp
  rw [sum_alphabet (List.nodup_dedup buf) hzero, Finset.sum_list_map_count,
    ← List.sum_toFinset _ (List.nodup_dedup buf), hdedup]
  rfl

section Buffer
variable {buf : Bytes} {root : HuffmanTree}

/-- The code bits of a buffer, summed over the leaves of its tree. -/
theorem BufferTree.codeBitCount_eq (h : BufferTree buf root) (hheight : root.height ≤ 26) :
    codeBitCount root.lengths buf =
      ((leafDepths root 0).map fun p => p.1.freq * max 1 p.2).sum := by
  have hleaves : ((leafDepths root 0).map fun p => p.1.freq * max 1 p.2) =
      (labels root).map fun n => n.freq * (root.lengths n.symbol).toNat := by
    rw [← h.codes.full.map_fst_leafDepths 0, List.map_map]
    refine List.map_congr_left fun p hp => ?_
    rw [Function.comp_apply, (lengths_leaf h.codes (leaves_nodup _) hheight p hp).1]
  rw [hleaves, (h.codes.leaves.map _).sum_eq, huffmanLeaves, List.map_map, codeBitCount,
    sum_map_eq_sum_alphabet, sum_alphabet (alphabet_nodup.filter _)]
  · simp only [huffmanFreq_eq]
    rfl
  · intro s hs
    have hzero : buf.count s = 0 := by
      refine Nat.eq_zero_of_not_pos fun hpos => ?_
      exact hs (List.mem_filter.mpr ⟨mem_alphabet s, by simpa using hpos⟩)
    rw [hzero, Nat.zero_mul]

/-- Below a root with two subtrees no leaf is at depth zero. -/
theorem BufferTree.depth_pos (h : BufferTree buf root) (hroot : ∀ n, root ≠ leaf n) :
    ∀ p ∈ leafDepths root 0, 1 ≤ p.2 := by
  intro p hp
  cases h.codes.full with
  | leaf n => exact absurd rfl (hroot n)
  | node n hl hr =>
    rw [leafDepths_node n hl.ne_null] at hp
    rcases List.mem_append.mp hp with hp | hp
    · exact (hl.depth_bounds p hp).1
    · exact (hr.depth_bounds p hp).1

/-- The code bits of a buffer with different bytes are what the merge costs. -/
theorem BufferTree.codeBitCount_eq_cost (h : BufferTree buf root) (hheight : root.height ≤ 26)
    (hroot : ∀ n, root ≠ leaf n) : codeBitCount root.lengths buf = root.cost := by
  have hs := (minHeapLeaves_spec (huffmanFreq buf)).2
  rw [h.codeBitCount_eq hheight, ← depthSum_of_merges h.run hs (minHeapLeaves_leaf _), depthSum]
  refine congrArg List.sum (List.map_congr_left fun p hp => ?_)
  rw [Nat.max_eq_right (h.depth_pos hroot p hp)]

/-- Leaves have not cost anything yet. -/
theorem minHeapLeaves_cost (freq : UInt8 → Nat) :
    ((minHeapLeaves freq).map HuffmanTree.cost).sum = 0 := by
  refine List.sum_eq_zero fun c hc => ?_
  obtain ⟨t, ht, rfl⟩ := List.mem_map.mp hc
  obtain ⟨n, rfl, -⟩ := minHeapLeaves_leaf _ t ht
  rfl

theorem cost_huffmanJoin (l r : HuffmanTree) : HuffmanTree.cost (huffmanJoin l r) =
    HuffmanTree.cost l + HuffmanTree.cost r + (HuffmanTree.freq l + HuffmanTree.freq r) := rfl

/-- **Few symbols, few bits.** -/
theorem BufferTree.codeBitCount_le_mul (h : BufferTree buf root) (hheight : root.height ≤ 26)
    {k : Nat} (hk : 1 ≤ k) (hsyms : (minHeapLeaves (huffmanFreq buf)).length ≤ 2 ^ k) :
    codeBitCount root.lengths buf ≤ k * buf.length := by
  have hs := (minHeapLeaves_spec (huffmanFreq buf)).2
  have hfreq := freq_eq_length_of_merges h.run
  by_cases hroot : ∀ n, root ≠ leaf n
  · have hcost := h.run.cost_le (fun _ _ => rfl) cost_huffmanJoin hs hsyms
    rw [minHeapLeaves_cost, Nat.zero_add, minHeapLeaves_sum, huffmanFreq_eq,
      sum_alphabet_count] at hcost
    rw [h.codeBitCount_eq_cost hheight hroot]
    exact hcost
  · rw [not_forall_not] at hroot
    obtain ⟨n, rfl⟩ := hroot
    rw [h.codeBitCount_eq hheight]
    simp only [leafDepths_leaf, List.map_cons, List.map_nil, List.sum_cons, List.sum_nil]
    rw [show n.freq = buf.length from hfreq, Nat.max_eq_left (Nat.zero_le 1), Nat.mul_one,
      Nat.add_zero]
    exact Nat.le_mul_of_pos_left _ hk

/-- The leaves of the heap are the different bytes of the buffer. -/
theorem minHeapLeaves_length (buf : Bytes) :
    (minHeapLeaves (huffmanFreq buf)).length = (alphabet.filter (· ∈ buf)).length := by
  rw [(minHeapLeaves_spec _).1.length_eq, List.length_map, huffmanFreq_eq]
  refine congrArg List.length (List.filter_congr fun s _ => ?_)
  simp [List.count_pos_iff]

end Buffer
end BrArchive
