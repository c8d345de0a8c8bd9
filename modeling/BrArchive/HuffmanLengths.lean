import BrArchive.Huffman
import BrArchive.GreedyMerge

/-! # The code lengths of a buffer

The min-heap is a sorted list, so `bra_huffman_tree_build` is a greedy merge.  The tree
it returns is full, its leaves are the bytes that occur, each once, and it is shallow
for a buffer of the size the encoder is given.  The depths of its leaves are the code
lengths, and they satisfy Kraft's inequality.
-/
namespace BrArchive
open CodeTree GreedyMerge CanonicalCode

/-! ## The heap -/

theorem minHeapWalk_perm (node : HuffmanTree) (heap : List HuffmanTree) :
    (minHeapWalk node heap).Perm (node :: heap) := by
  induction heap with
  | nil => exact List.Perm.refl _
  | cons next heap ih =>
    rw [minHeapWalk]
    split
    · exact (ih.cons next).trans (List.Perm.swap node next heap)
    · exact List.Perm.refl _

theorem minHeapWalk_sorted (node : HuffmanTree) {heap : List HuffmanTree}
    (h : Sorted HuffmanTree.freq heap) : Sorted HuffmanTree.freq (minHeapWalk node heap) := by
  induction heap with
  | nil => exact List.pairwise_singleton _ _
  | cons next heap ih =>
    obtain ⟨hnext, hheap⟩ := List.pairwise_cons.mp h
    rw [minHeapWalk]
    split
    · rename_i hlt
      refine List.pairwise_cons.mpr ⟨fun c hc => ?_, ih hheap⟩
      rcases List.mem_cons.mp ((minHeapWalk_perm node heap).mem_iff.mp hc) with rfl | hc
      · exact Nat.le_of_lt hlt
      · exact hnext c hc
    · rename_i hge
      refine List.pairwise_cons.mpr ⟨fun c hc => ?_, h⟩
      rcases List.mem_cons.mp hc with rfl | hc
      · exact Nat.le_of_not_lt hge
      · exact Nat.le_trans (Nat.le_of_not_lt hge) (hnext c hc)

theorem braMinHeapInsert_perm (node : HuffmanTree) (heap : List HuffmanTree) :
    (braMinHeapInsert node heap).Perm (node :: heap) := by
  cases heap with
  | nil => exact List.Perm.refl _
  | cons head heap =>
    rw [braMinHeapInsert]
    split
    · exact List.Perm.refl _
    · exact ((minHeapWalk_perm node heap).cons head).trans (List.Perm.swap node head heap)

/-- Insertion keeps the heap sorted. -/
theorem braMinHeapInsert_sorted (node : HuffmanTree) {heap : List HuffmanTree}
    (h : Sorted HuffmanTree.freq heap) : Sorted HuffmanTree.freq (braMinHeapInsert node heap) := by
  cases heap with
  | nil => exact List.pairwise_singleton _ _
  | cons head heap =>
    obtain ⟨hhead, hheap⟩ := List.pairwise_cons.mp h
    rw [braMinHeapInsert]
    split
    · rename_i hgt
      refine List.pairwise_cons.mpr ⟨fun c hc => ?_, h⟩
      rcases List.mem_cons.mp hc with rfl | hc
      · exact Nat.le_of_lt hgt
      · exact Nat.le_trans (Nat.le_of_lt hgt) (hhead c hc)
    · rename_i hle
      refine List.pairwise_cons.mpr ⟨fun c hc => ?_, minHeapWalk_sorted node hheap⟩
      rcases List.mem_cons.mp ((minHeapWalk_perm node heap).mem_iff.mp hc) with rfl | hc
      · exact Nat.le_of_not_lt hle
      · exact hhead c hc

/-- The leaves are the symbols that occur, sorted by frequency. -/
theorem minHeapLeaves_spec (freq : UInt8 → Nat) :
    (minHeapLeaves freq).Perm
        ((alphabet.filter (fun s => 0 < freq s)).map (fun s => braHuffmanCreateNode s (freq s))) ∧
      Sorted HuffmanTree.freq (minHeapLeaves freq) := by
  -- the loop over the symbols keeps the heap sorted and adds one leaf at most
  suffices h : ∀ (syms : List UInt8) (heap : List HuffmanTree), Sorted HuffmanTree.freq heap →
      (syms.foldl (fun minHeap i =>
          if freq i > 0 then braMinHeapInsert (braHuffmanCreateNode i (freq i)) minHeap
          else minHeap) heap).Perm
        (heap ++ (syms.filter (fun s => 0 < freq s)).map
          (fun s => braHuffmanCreateNode s (freq s))) ∧
      Sorted HuffmanTree.freq (syms.foldl (fun minHeap i =>
          if freq i > 0 then braMinHeapInsert (braHuffmanCreateNode i (freq i)) minHeap
          else minHeap) heap) by
    exact h alphabet [] List.Pairwise.nil
  intro syms
  induction syms with
  | nil => intro heap h; simpa using h
  | cons s syms ih =>
    intro heap h
    rw [List.foldl_cons]
    by_cases hs : freq s > 0
    · obtain ⟨hperm, hsorted⟩ :=
        ih _ (braMinHeapInsert_sorted (braHuffmanCreateNode s (freq s)) h)
      simp only [if_pos hs]
      refine ⟨hperm.trans ?_, hsorted⟩
      rw [List.filter_cons_of_pos (by simpa using hs), List.map_cons]
      exact ((braMinHeapInsert_perm _ heap).append_right _).trans List.perm_middle.symm
    · simp only [if_neg hs]
      rw [List.filter_cons_of_neg (by simpa using hs)]
      exact ih heap h

/-- The loop is a greedy merge and ends with a tree. -/
theorem minHeapMerge_merges :
    ∀ (fuel : Nat) {heap : List HuffmanTree}, heap ≠ [] → heap.length ≤ fuel + 1 →
      Sorted HuffmanTree.freq heap →
      ∃ root, minHeapMerge fuel heap = some root ∧
        Merges HuffmanTree.freq huffmanJoin heap root := by
  intro fuel
  induction fuel with
  | zero =>
    intro heap hne hlen _
    obtain ⟨root, rfl⟩ := List.length_eq_one_iff.mp
      (Nat.le_antisymm hlen (List.length_pos_iff.mpr hne))
    exact ⟨root, rfl, .last root⟩
  | succ fuel ih =>
    intro heap hne hlen hs
    match heap, hne, hs with
    | [root], _, _ => exact ⟨root, rfl, .last root⟩
    | l :: r :: heap, _, hs =>
      have hperm := braMinHeapInsert_perm (huffmanJoin l r) heap
      have hsorted := braMinHeapInsert_sorted (huffmanJoin l r)
        (List.pairwise_cons.mp (List.pairwise_cons.mp hs).2).2
      obtain ⟨root, hroot, hrun⟩ := ih (fun h => by simpa [h] using hperm.length_eq)
        (by rw [hperm.length_eq]; simpa using hlen) hsorted
      exact ⟨root, hroot, .merge hperm hsorted hrun⟩

/-! ## The tree -/

/-- What the codes are made from: a full tree with the given leaves. -/
structure HuffmanTree.Codes (root : HuffmanTree) (leaves : List HuffmanNode) : Prop where
  full : Full root
  leaves : (labels root).Perm leaves

theorem codes_of_merges {heap : List HuffmanTree} {root : HuffmanTree} {leaves : List HuffmanNode}
    (h : Merges HuffmanTree.freq huffmanJoin heap root) (hs : Sorted HuffmanTree.freq heap)
    (hfull : ∀ t ∈ heap, Full t) (hleaves : (heap.flatMap labels).Perm leaves) :
    root.Codes leaves := by
  have := h.preserves
    (P := fun heap => (∀ t ∈ heap, Full t) ∧ (heap.flatMap labels).Perm leaves)
    (fun l r rest heap _ hperm ⟨hfull, hleaves⟩ => ?_) hs ⟨hfull, hleaves⟩
  · exact ⟨this.1 root List.mem_cons_self, by simpa using this.2⟩
  · have hl := hfull l List.mem_cons_self
    have hr := hfull r (List.mem_cons_of_mem l List.mem_cons_self)
    constructor
    · intro t ht
      rcases List.mem_cons.mp (hperm.mem_iff.mp ht) with rfl | ht
      · exact .node _ hl hr
      · exact hfull t (List.mem_cons_of_mem l (List.mem_cons_of_mem r ht))
    · refine (hperm.flatMap_right labels).trans ?_
      simpa [huffmanJoin, labels_node _ hl.ne_null] using hleaves

theorem freq_eq_of_merges {heap : List HuffmanTree} {root : HuffmanTree}
    (h : Merges HuffmanTree.freq huffmanJoin heap root) (hs : Sorted HuffmanTree.freq heap) :
    root.freq = (heap.map HuffmanTree.freq).sum := by
  have := h.preserves
    (P := fun l => (l.map HuffmanTree.freq).sum = (heap.map HuffmanTree.freq).sum)
    (fun l r rest l' _ hperm hP => by
      rw [(hperm.map HuffmanTree.freq).sum_eq, ← hP]
      simp [huffmanJoin, HuffmanTree.freq, Nat.add_assoc]) hs rfl
  simpa using this

/-- The two subtrees of a node. -/
def HuffmanTree.parts : HuffmanTree → List HuffmanTree
  | .nil => []
  | .node _ l r => [l, r]

/-- **A deep tree is heavy.** -/
theorem fib_height_le_freq {heap : List HuffmanTree} {root : HuffmanTree}
    (h : Merges HuffmanTree.freq huffmanJoin heap root) (hs : Sorted HuffmanTree.freq heap)
    (hleaf : ∀ t ∈ heap, ∃ n, t = leaf n ∧ 0 < n.freq) :
    Nat.fib (root.height + 1) ≤ root.freq := by
  refine Merges.fib_height_le HuffmanTree.parts (fun _ _ => rfl) (fun _ _ => rfl)
    (fun _ _ => rfl) h hs ⟨?_, ?_, ?_⟩
  · intro t ht p hp u _
    obtain ⟨n, rfl, -⟩ := hleaf t ht
    have hp : p = .nil := by simpa [HuffmanTree.parts, leaf] using hp
    rw [hp]
    exact Nat.zero_le _
  · intro t ht
    obtain ⟨n, rfl, hpos⟩ := hleaf t ht
    exact hpos
  · intro t ht
    obtain ⟨n, rfl, -⟩ := hleaf t ht
    exact Or.inl (Nat.le_refl 1)

/-- The leaves of a frequency table. -/
def huffmanLeaves (freq : UInt8 → Nat) : List HuffmanNode :=
  (alphabet.filter (fun s => 0 < freq s)).map (fun s => ⟨s, freq s⟩)

theorem huffmanLeaves_symbols (freq : UInt8 → Nat) :
    (huffmanLeaves freq).map HuffmanNode.symbol = alphabet.filter (fun s => 0 < freq s) := by
  rw [huffmanLeaves, List.map_map]
  exact List.map_id _

theorem minHeapLeaves_leaf (freq : UInt8 → Nat) :
    ∀ t ∈ minHeapLeaves freq, ∃ n, t = leaf n ∧ 0 < n.freq := by
  intro t ht
  obtain ⟨s, hs, rfl⟩ := List.mem_map.mp ((minHeapLeaves_spec freq).1.mem_iff.mp ht)
  exact ⟨⟨s, freq s⟩, rfl, by simpa using (List.mem_filter.mp hs).2⟩

theorem minHeapLeaves_sum (freq : UInt8 → Nat) :
    ((minHeapLeaves freq).map HuffmanTree.freq).sum = (alphabet.map freq).sum := by
  rw [((minHeapLeaves_spec freq).1.map HuffmanTree.freq).sum_eq, List.map_map,
    sum_alphabet (g := freq) (alphabet_nodup.filter (fun s => decide (0 < freq s)))]
  · rfl
  · intro s hs
    have := fun h => hs (List.mem_filter.mpr ⟨mem_alphabet s, h⟩)
    simpa using this

/-- **The tree of a frequency table**, with the run that made it. -/
theorem braHuffmanTreeBuild_spec {freq : UInt8 → Nat} (hne : ∃ s, 0 < freq s) :
    ∃ root, braHuffmanTreeBuild freq = some root ∧ root.Codes (huffmanLeaves freq) ∧
      Merges HuffmanTree.freq huffmanJoin (minHeapLeaves freq) root := by
  obtain ⟨hperm, hsorted⟩ := minHeapLeaves_spec freq
  have hnil : minHeapLeaves freq ≠ [] := by
    obtain ⟨s, hs⟩ := hne
    have hmem : braHuffmanCreateNode s (freq s) ∈ minHeapLeaves freq :=
      hperm.mem_iff.mpr (List.mem_map.mpr
        ⟨s, List.mem_filter.mpr ⟨mem_alphabet s, by simpa using hs⟩, rfl⟩)
    exact List.ne_nil_of_mem hmem
  obtain ⟨root, hroot, hrun⟩ := minHeapMerge_merges _ hnil (Nat.le_succ _) hsorted
  refine ⟨root, hroot, codes_of_merges hrun hsorted (fun t ht => ?_) ?_, hrun⟩
  · obtain ⟨n, rfl, -⟩ := minHeapLeaves_leaf freq t ht
    exact .leaf n
  · refine (hperm.flatMap_right labels).trans (List.Perm.of_eq ?_)
    rw [List.flatMap_map, huffmanLeaves, List.map_eq_flatMap]
    rfl

theorem huffmanFreq_eq (buf : Bytes) : huffmanFreq buf = fun b => buf.count b :=
  foldl_update_count buf

section Buffer
variable {buf : Bytes} {root : HuffmanTree}

/-- The tree of a buffer weighs as much as the buffer has bytes. -/
theorem freq_eq_length_of_merges
    (h : Merges HuffmanTree.freq huffmanJoin (minHeapLeaves (huffmanFreq buf)) root) :
    root.freq = buf.length := by
  rw [freq_eq_of_merges h (minHeapLeaves_spec (huffmanFreq buf)).2, minHeapLeaves_sum,
    huffmanFreq_eq, sum_alphabet_count]

/-- **A deep tree takes a long buffer.** -/
theorem fib_height_le_length
    (h : Merges HuffmanTree.freq huffmanJoin (minHeapLeaves (huffmanFreq buf)) root) :
    Nat.fib (root.height + 1) ≤ buf.length := by
  rw [← freq_eq_length_of_merges h]
  exact fib_height_le_freq h (minHeapLeaves_spec (huffmanFreq buf)).2 (minHeapLeaves_leaf _)

/-- The tree of a buffer has height at most 26. -/
theorem height_le_of_merges
    (hmax : buf.length ≤ braMaxChunkSize + braMaxChunkSize / 128)
    (h : Merges HuffmanTree.freq huffmanJoin (minHeapLeaves (huffmanFreq buf)) root) :
    root.height ≤ 26 := by
  have hfib := fib_height_le_length h
  apply Nat.le_of_not_lt
  intro hlt
  have hmono : Nat.fib 28 ≤ Nat.fib (root.height + 1) := Nat.fib_mono (by omega)
  have h28 : Nat.fib 28 = 317811 := by decide +kernel
  simp only [braMaxChunkSize] at hmax
  omega

end Buffer

/-! ## The lengths -/

theorem generateCodes_node {n : HuffmanNode} {l : HuffmanTree} (hl : l ≠ .nil) (r : HuffmanTree)
    (out : (UInt8 → List Bool) × (UInt8 → UInt8)) (code : List Bool) :
    braHuffmanGenerateCodes (.node n l r) out code =
      braHuffmanGenerateCodes r (braHuffmanGenerateCodes l out (code ++ [false]))
        (code ++ [true]) := by
  cases l with
  | nil => exact absurd rfl hl
  | node => rfl

/-- A symbol off the tree keeps its length. -/
theorem generateCodes_frame {t : HuffmanTree} (h : Full t) :
    ∀ {out : (UInt8 → List Bool) × (UInt8 → UInt8)} {code : List Bool} {s : UInt8},
      s ∉ (labels t).map HuffmanNode.symbol →
      (braHuffmanGenerateCodes t out code).2 s = out.2 s := by
  induction h with
  | leaf n =>
    intro out code s hs
    have hne : s ≠ n.symbol := by simpa using hs
    rw [leaf, braHuffmanGenerateCodes]
    split <;> exact Function.update_of_ne hne _ _
  | @node n l r hl hr ihl ihr =>
    intro out code s hs
    rw [labels_node n hl.ne_null, List.map_append, List.mem_append, not_or] at hs
    rw [generateCodes_node hl.ne_null, ihr hs.2, ihl hs.1]

/-- The length of a symbol is the depth of its leaf, or one if the root is a leaf. -/
theorem generateCodes_lengths {t : HuffmanTree} (h : Full t) :
    ∀ (out : (UInt8 → List Bool) × (UInt8 → UInt8)) (code : List Bool),
      ((labels t).map HuffmanNode.symbol).Nodup → ∀ p ∈ leafDepths t code.length,
      (braHuffmanGenerateCodes t out code).2 p.1.symbol =
        if p.2 = 0 then 1 else UInt8.ofNat p.2 := by
  induction h with
  | leaf n =>
    intro out code _ p hp
    obtain rfl := List.mem_singleton.mp hp
    rw [leaf, braHuffmanGenerateCodes]
    split <;> exact Function.update_self _ _ _
  | @node n l r hl hr ihl ihr =>
    intro out code hnodup p hp
    rw [labels_node n hl.ne_null, List.map_append] at hnodup
    obtain ⟨hnl, hnr, hdisj⟩ := List.nodup_append.mp hnodup
    rw [leafDepths_node n hl.ne_null] at hp
    rw [generateCodes_node hl.ne_null]
    rcases List.mem_append.mp hp with hp | hp
    · have hmem : p.1.symbol ∈ (labels l).map HuffmanNode.symbol := by
        rw [← hl.map_fst_leafDepths (code.length + 1), List.map_map]
        exact List.mem_map.mpr ⟨p, hp, rfl⟩
      -- the right subtree is walked after the left one and does not touch its symbols
      rw [generateCodes_frame hr (fun h => hdisj _ hmem _ h rfl)]
      exact ihl _ _ hnl p (by simpa using hp)
    · exact ihr _ _ hnr p (by simpa using hp)

/-- The lengths a tree gives to the symbols. -/
def HuffmanTree.lengths (root : HuffmanTree) : UInt8 → UInt8 :=
  (braHuffmanGenerateCodes root (fun _ => [], fun _ => 0) []).2

section Lengths
variable {root : HuffmanTree} {leaves : List HuffmanNode}

theorem HuffmanTree.Codes.symbols_perm (h : root.Codes leaves) :
    ((labels root).map HuffmanNode.symbol).Perm (leaves.map HuffmanNode.symbol) :=
  h.leaves.map _

/-- The length of a leaf's symbol is its depth, but at least one. -/
theorem lengths_leaf (h : root.Codes leaves) (hnodup : (leaves.map HuffmanNode.symbol).Nodup)
    (hheight : root.height ≤ 26) :
    ∀ p ∈ leafDepths root 0, (root.lengths p.1.symbol).toNat = max 1 p.2 ∧ p.2 ≤ 25 := by
  intro p hp
  have hdepth := (h.full.depth_bounds p hp).2
  have hlen := generateCodes_lengths h.full (fun _ => [], fun _ => 0) []
    (h.symbols_perm.nodup_iff.mpr hnodup) p hp
  refine ⟨?_, by omega⟩
  rw [HuffmanTree.lengths, hlen]
  split
  · rename_i hzero
    rw [hzero]
    rfl
  · rw [UInt8.toNat_ofNat', Nat.mod_eq_of_lt (by omega)]
    omega

theorem lengths_off (h : root.Codes leaves) {s : UInt8}
    (hs : s ∉ leaves.map HuffmanNode.symbol) : root.lengths s = 0 :=
  generateCodes_frame h.full (fun hmem => hs (h.symbols_perm.mem_iff.mp hmem))

theorem exists_leafDepth (h : root.Codes leaves) {s : UInt8}
    (hs : s ∈ leaves.map HuffmanNode.symbol) : ∃ p ∈ leafDepths root 0, p.1.symbol = s := by
  have hs := h.symbols_perm.mem_iff.mpr hs
  rw [← h.full.map_fst_leafDepths 0, List.map_map] at hs
  exact List.mem_map.mp hs

/-- Exactly the symbols of the leaves get a length, between 1 and 25. -/
theorem lengths_bounds (h : root.Codes leaves) (hnodup : (leaves.map HuffmanNode.symbol).Nodup)
    (hheight : root.height ≤ 26) (s : UInt8) :
    (root.lengths s).toNat ≤ 25 ∧
      (0 < (root.lengths s).toNat ↔ s ∈ leaves.map HuffmanNode.symbol) := by
  by_cases hs : s ∈ leaves.map HuffmanNode.symbol
  · obtain ⟨p, hp, rfl⟩ := exists_leafDepth h hs
    obtain ⟨hlen, hle⟩ := lengths_leaf h hnodup hheight p hp
    rw [hlen]
    exact ⟨by omega, iff_of_true (by omega) hs⟩
  · rw [lengths_off h hs]
    exact ⟨by decide, iff_of_false (by decide) hs⟩

/-- **Kraft's inequality** for the lengths of a tree. -/
theorem kraftSum_lengths (h : root.Codes leaves)
    (hnodup : (leaves.map HuffmanNode.symbol).Nodup) (hheight : root.height ≤ 26) :
    kraftSum alphabet (fun s => (root.lengths s).toNat) 25 ≤ 2 ^ 25 := by
  have hsym := h.symbols_perm
  rw [kraftSum, sum_alphabet (hsym.nodup_iff.mpr hnodup), ← h.full.map_fst_leafDepths 0,
    List.map_map, List.map_map]
  · rw [← Nat.sub_zero 25, ← h.full.kraft fun p hp => (lengths_leaf h hnodup hheight p hp).2]
    refine List.sum_le_sum fun p hp => ?_
    obtain ⟨hlen, hle⟩ := lengths_leaf h hnodup hheight p hp
    simp only [Function.comp_apply, hlen]
    split
    · exact Nat.pow_le_pow_right (by decide) (by omega)
    · exact Nat.zero_le _
  · intro s hs
    rw [lengths_off h (fun hmem => hs (hsym.mem_iff.mpr hmem))]
    rfl

end Lengths
end BrArchive
