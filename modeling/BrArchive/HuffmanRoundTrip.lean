import BrArchive.HuffmanDecoding
import BrArchive.HuffmanLengths

/-! # The Huffman round trip

Encoder and decoder compute the codes from the lengths alone, with the same loops.
For lengths that satisfy Kraft's inequality and stay below 32 bits the loops compute
the canonical code, nothing wraps, and the decoder's tree has exactly these codewords.
Packing writes the code bits followed by less than a byte of zeros, so the decoder
meets the symbols of the buffer and then the end of the data.
-/
namespace BrArchive
open CodeTree GreedyMerge CanonicalCode

/-! ## The canonical loops compute the canonical code -/

section Canonical
variable (lengths : UInt8 → UInt8)

/-- The lengths as numbers. -/
def codeLength (s : UInt8) : Nat := (lengths s).toNat

variable {lengths} in
theorem codeLength_pos {s : UInt8} (h : lengths s ≠ 0) : 0 < codeLength lengths s :=
  Nat.pos_of_ne_zero fun hzero => h (UInt8.toNat_inj.mp hzero)

/-- How many codes of each length there are. -/
def codeCount : Nat → Nat := lengthCount alphabet (codeLength lengths)

theorem canonicalCount_eq : Function.update (canonicalCount lengths) 0 0 = codeCount lengths := by
  -- count[0] is never read: the loop counts the other lengths only
  have h : ∀ (syms : List UInt8) (count : Nat → Nat) (n : Nat), 0 < n →
      syms.foldl (fun count i =>
        if lengths i > 0 then
          Function.update count (lengths i).toNat (count (lengths i).toNat + 1)
        else count) count n = count n + syms.countP (fun s => codeLength lengths s = n) := by
    intro syms
    induction syms with
    | nil => intro count n _; rfl
    | cons s syms ih =>
      intro count n hn
      rw [List.foldl_cons, ih _ n hn]
      have hpos : lengths s > 0 ↔ 0 < (lengths s).toNat := UInt8.lt_iff_toNat_lt
      by_cases hs : (lengths s).toNat = n
      · subst hs
        rw [List.countP_cons_of_pos (by simp [codeLength]), if_pos (hpos.mpr hn),
          Function.update_self]
        omega
      · rw [List.countP_cons_of_neg (by rw [decide_eq_true_eq]; exact hs)]
        split
        · rw [Function.update_of_ne (Ne.symm hs)]
        · rfl
  funext n
  by_cases hn : n = 0
  · subst hn
    rw [Function.update_self]
    rfl
  · rw [Function.update_of_ne hn, canonicalCount, h _ _ _ (by omega), codeCount, lengthCount,
      if_neg hn, Nat.zero_add]

theorem canonicalStart_frame {lens : List Nat} {n : Nat} (hn : n ∉ lens) :
    ∀ {code : Nat} {count : Nat → Nat}, canonicalStart lens code count n = count n := by
  induction lens with
  | nil => intro code count; rfl
  | cons len lens ih =>
    intro code count
    obtain ⟨hne, hn⟩ := List.ne_and_not_mem_of_not_mem_cons hn
    rw [canonicalStart, ih hn, Function.update_of_ne hne]

/-- The starting codes, modulo the width of the counter. -/
theorem canonicalStart_eq (m : Nat) :
    ∀ {k code : Nat} {count : Nat → Nat},
      code = (first (codeCount lengths) k + codeCount lengths k) % 2 ^ 32 →
      (∀ n, k < n → count n = codeCount lengths n) →
      ∀ n, k < n → n ≤ k + m →
        canonicalStart (List.range' (k + 1) m) code count n =
          first (codeCount lengths) n % 2 ^ 32 := by
  induction m with
  | zero => intro k code count _ _ n h1 h2; omega
  | succ m ih =>
    intro k code count hcode hcount n hkn hnm
    have hfirst : 2 * code % 2 ^ 32 = first (codeCount lengths) (k + 1) % 2 ^ 32 := by
      rw [hcode, first]
      omega
    rw [List.range'_succ, canonicalStart]
    by_cases hn : n = k + 1
    · subst hn
      rw [canonicalStart_frame (fun h => by have := List.mem_range'.mp h; omega),
        Function.update_self, hfirst]
    · refine ih (k := k + 1) ?_ (fun n' hn' => ?_) n (by omega) (by omega)
      · rw [hfirst, hcount (k + 1) (Nat.lt_succ_self k)]
        omega
      · rw [Function.update_of_ne (by omega)]
        exact hcount n' (by omega)

theorem canonicalAssign_frame {syms : List UInt8} {s : UInt8} (hs : s ∉ syms) :
    ∀ {count : Nat → Nat} {codes : UInt8 → List Bool},
      canonicalAssign lengths syms count codes s = codes s := by
  induction syms with
  | nil => intro count codes; rfl
  | cons i syms ih =>
    intro count codes
    obtain ⟨hne, hs⟩ := List.ne_and_not_mem_of_not_mem_cons hs
    rw [canonicalAssign]
    split
    · exact ih hs
    · rw [ih hs, Function.update_of_ne hne]

/-- The assigned codes, `pre` being the symbols that are done. -/
theorem canonicalAssign_eq (syms : List UInt8) :
    ∀ {pre : List UInt8} {count : Nat → Nat} {codes : UInt8 → List Bool},
      pre ++ syms = alphabet →
      (∀ n, 0 < n → n < 256 → count n = (first (codeCount lengths) n +
        pre.countP (fun s => codeLength lengths s = n)) % 2 ^ 32) →
      ∀ s ∈ syms, lengths s ≠ 0 →
        canonicalAssign lengths syms count codes s =
          codeBits (codeLength lengths s)
            (code alphabet (codeLength lengths) s % 2 ^ 32) := by
  induction syms with
  | nil => intro pre count codes _ _ s hs; cases hs
  | cons i syms ih =>
    intro pre count codes halph hcount s hs hlen
    -- `pre` are the symbols assigned so far, which `count` has been advanced by
    have halph' : pre ++ [i] ++ syms = alphabet := by simpa using halph
    have hnodup : (pre ++ i :: syms).Nodup := halph ▸ alphabet_nodup
    have hi : i ∉ pre := fun h => (List.nodup_append.mp hnodup).2.2 i h i List.mem_cons_self rfl
    rw [canonicalAssign]
    split
    · -- a symbol without a code is skipped
      rename_i hzero
      have hs : s ∈ syms := (List.mem_cons.mp hs).resolve_left (fun h => hlen (h ▸ hzero))
      refine ih halph' (fun n hn hn' => ?_) s hs hlen
      rw [hcount n hn hn', List.countP_append, List.countP_cons_of_neg, List.countP_nil,
        Nat.add_zero]
      simp only [codeLength, hzero, decide_eq_true_eq]
      exact Nat.ne_of_lt hn
    · rename_i hnonzero
      have hpos : 0 < (lengths i).toNat := codeLength_pos hnonzero
      by_cases hsi : s = i
      · subst hsi
        have hs : s ∉ syms := (List.nodup_cons.mp (List.nodup_append.mp hnodup).2.1).1
        -- later assignments leave the code of s alone
        have hplace : alphabet.takeWhile (· ≠ s) = pre := by
          rw [← halph, List.takeWhile_append_of_pos (fun a ha => ?_), List.takeWhile_cons_of_neg]
          · simp
          · simp
          · have hne : a ≠ s := fun h => hi (h ▸ ha)
            simpa using hne
        rw [canonicalAssign_frame lengths hs, Function.update_self,
          hcount _ hpos (lengths s).toNat_lt, code, place, hplace]
        rfl
      · have hs : s ∈ syms := (List.mem_cons.mp hs).resolve_left hsi
        refine ih halph' (fun n hn hn' => ?_) s hs hlen
        rw [List.countP_append]
        by_cases hni : (lengths i).toNat = n
        · subst hni
          rw [Function.update_self, hcount _ hn hn', List.countP_cons_of_pos (by simp [codeLength]),
            List.countP_nil]
          omega
        · rw [Function.update_of_ne (Ne.symm hni), hcount n hn hn',
            List.countP_cons_of_neg (by rw [decide_eq_true_eq]; exact hni), List.countP_nil,
            Nat.add_zero]

/-- The starting codes of any table. -/
theorem canonicalStart_mod {n : Nat} (hpos : 0 < n) (hle : n ≤ 256) :
    canonicalStart (List.range' 1 256) 0 (Function.update (canonicalCount lengths) 0 0) n =
      first (codeCount lengths) n % 2 ^ 32 := by
  rw [canonicalCount_eq]
  exact canonicalStart_eq lengths 256 (k := 0) (by simp [first, codeCount, lengthCount])
    (fun _ _ => rfl) n hpos (by omega)

/-- The codes of any table: the canonical ones, modulo the width of the counter. -/
theorem computeCanonicalCodes_mod {s : UInt8} (hlen : lengths s ≠ 0)
    (codes : UInt8 → List Bool) :
    braHuffmanComputeCanonicalCodes lengths codes s =
      codeBits (codeLength lengths s) (code alphabet (codeLength lengths) s % 2 ^ 32) := by
  rw [braHuffmanComputeCanonicalCodes]
  refine canonicalAssign_eq lengths alphabet (List.nil_append alphabet) (fun n hn hn' => ?_) s
    (mem_alphabet s) hlen
  rw [canonicalStart_mod lengths hn (Nat.le_of_lt hn')]
  rfl

/-- A code that is short enough fits the counter. -/
theorem code_lt_counter {D : Nat} (hD : D ≤ 32)
    (hk : kraftSum alphabet (codeLength lengths) D ≤ 2 ^ D) {s : UInt8} (hlen : lengths s ≠ 0)
    (hle : codeLength lengths s ≤ D) : code alphabet (codeLength lengths) s < 2 ^ 32 :=
  Nat.lt_of_lt_of_le (code_lt hk (mem_alphabet s) (codeLength_pos hlen) hle)
    (Nat.pow_le_pow_right (by decide) (Nat.le_trans hle hD))

/-- **The canonical code.**  For short lengths that satisfy Kraft's inequality the code
of every symbol is the canonical one. -/
theorem computeCanonicalCodes_eq {D : Nat} (hD : D ≤ 32)
    (hk : kraftSum alphabet (codeLength lengths) D ≤ 2 ^ D) {s : UInt8} (hlen : lengths s ≠ 0)
    (hle : codeLength lengths s ≤ D) (codes : UInt8 → List Bool) :
    braHuffmanComputeCanonicalCodes lengths codes s = codeword alphabet (codeLength lengths) s := by
  rw [computeCanonicalCodes_mod lengths hlen, codeword,
    Nat.mod_eq_of_lt (code_lt_counter lengths hD hk hlen hle)]

end Canonical

/-! ## Packing -/

theorem bit_eq_testBit (c k : UInt8) (hk : k.toNat < 8) :
    (c >>> k &&& 1 != 0) = c.toNat.testBit k.toNat := by
  have hne : (c >>> k &&& 1 != 0) = decide ((c >>> k &&& 1).toNat ≠ 0) := by
    rw [Bool.eq_iff_iff, bne_iff_ne, decide_eq_true_eq, Ne, ← UInt8.toNat_inj]
    rfl
  rw [hne, UInt8.toNat_and, UInt8.toNat_shiftRight, Nat.mod_eq_of_lt hk]
  simp [Nat.testBit, Nat.and_comm]

theorem byteBits_eq (c : UInt8) :
    byteBits c = [7, 6, 5, 4, 3, 2, 1, 0].map (fun k => c.toNat.testBit k) := by
  have h : byteBits c = ([7, 6, 5, 4, 3, 2, 1, 0] : List UInt8).map
      (fun k => c.toNat.testBit k.toNat) := by
    refine List.map_congr_left fun k hk => bit_eq_testBit c k ?_
    have : ∀ k ∈ ([7, 6, 5, 4, 3, 2, 1, 0] : List UInt8), k.toNat < 8 := by decide +kernel
    exact this k hk
  rw [h]
  rfl

theorem toNat_one_shiftLeft {q : Nat} (hq : q < 8) :
    ((1 : UInt8) <<< UInt8.ofNat q).toNat = 2 ^ q := by
  have h : ∀ q : Fin 8, ((1 : UInt8) <<< UInt8.ofNat q.val).toNat = 2 ^ q.val := by decide
  exact h ⟨q, hq⟩

/-- Setting bit `7 - p` sets the bit the decoder reads in place `p`. -/
theorem byteBits_setBit (c : UInt8) {p : Nat} (hp : p < 8) :
    byteBits (c ||| 1 <<< UInt8.ofNat (7 - p)) = (byteBits c).set p true := by
  rw [byteBits_eq, byteBits_eq]
  simp only [UInt8.toNat_or, toNat_one_shiftLeft (show 7 - p < 8 by omega), Nat.testBit_or,
    Nat.testBit_two_pow]
  have : p = 0 ∨ p = 1 ∨ p = 2 ∨ p = 3 ∨ p = 4 ∨ p = 5 ∨ p = 6 ∨ p = 7 := by omega
  rcases this with rfl | rfl | rfl | rfl | rfl | rfl | rfl | rfl <;> simp

/-- The packer holds exactly the given bits: whole bytes, and a byte whose free places
are zero. -/
structure BitPacker.Holds (p : BitPacker) (bits : List Bool) : Prop where
  free : p.bitPos < 8
  bits : ∃ pending, pending.length = p.bitPos ∧ bits = bitsOf p.data ++ pending ∧
    byteBits p.curByte = pending ++ List.replicate (8 - p.bitPos) false

theorem bitsOf_append (l l' : Bytes) : bitsOf (l ++ l') = bitsOf l ++ bitsOf l' :=
  List.flatMap_append

theorem BitPacker.Holds.pack {p : BitPacker} {bits : List Bool} (h : p.Holds bits) (bit : Bool) :
    (p.pack bit).Holds (bits ++ [bit]) := by
  obtain ⟨hfree, pending, hlen, rfl, hcur⟩ := h
  have hrep : List.replicate (8 - p.bitPos) false =
      false :: List.replicate (7 - p.bitPos) false := by
    rw [show 8 - p.bitPos = 7 - p.bitPos + 1 by omega, List.replicate_succ]
  -- the byte after the bit is written
  have hbyte : byteBits (if bit then p.curByte ||| 1 <<< UInt8.ofNat (7 - p.bitPos)
      else p.curByte) = pending ++ bit :: List.replicate (7 - p.bitPos) false := by
    cases bit with
    | false => rw [if_neg (by decide), hcur, hrep]
    | true =>
      rw [if_pos rfl, byteBits_setBit _ hfree, hcur, hrep, ← hlen, List.set_append_right _ _
        (Nat.le_refl _), Nat.sub_self, List.set_cons_zero]
  unfold BitPacker.pack
  by_cases hfull : p.bitPos + 1 = 8
  · simp only [if_pos hfull]
    refine ⟨Nat.zero_lt_succ 7, [], rfl, ?_, show byteBits 0 = List.replicate 8 false by decide⟩
    rw [bitsOf_append, bitsOf_cons, hbyte, show 7 - p.bitPos = 0 by omega]
    simp
  · simp only [if_neg hfull]
    refine ⟨by simp only; omega, pending ++ [bit], by simp [hlen], by simp, ?_⟩
    rw [hbyte]
    simp

theorem BitPacker.Holds.packAll {p : BitPacker} {bits : List Bool} (h : p.Holds bits)
    (code : List Bool) : (code.foldl BitPacker.pack p).Holds (bits ++ code) := by
  induction code generalizing p bits with
  | nil => simpa using h
  | cons b code ih => simpa using ih (h.pack b)

/-- **What is written**: the bits, and less than a byte of padding. -/
theorem BitPacker.Holds.finish {p : BitPacker} {bits : List Bool} (h : p.Holds bits) :
    ∃ pad, pad.length < 8 ∧ bitsOf p.finish = bits ++ pad := by
  obtain ⟨hfree, pending, hlen, rfl, hcur⟩ := h
  unfold BitPacker.finish
  by_cases hpos : p.bitPos > 0
  · refine ⟨List.replicate (8 - p.bitPos) false, by simp; omega, ?_⟩
    rw [if_pos hpos, bitsOf_append, bitsOf_cons, hcur]
    simp
  · obtain rfl : pending = [] := List.eq_nil_of_length_eq_zero (by omega)
    exact ⟨[], by decide, by rw [if_neg hpos]; simp⟩

theorem length_of_bitsOf {data : Bytes} {bits pad : List Bool} (h : bitsOf data = bits ++ pad)
    (hpad : pad.length < 8) : data.length = (bits.length + 7) / 8 := by
  have hlen := congrArg List.length h
  rw [bitsOf_length, List.length_append] at hlen
  omega

/-- The code bits of a buffer. -/
def codeBitsOf (codes : UInt8 → List Bool) (buf : Bytes) : List Bool := buf.flatMap codes

theorem pack_holds (codes : UInt8 → List Bool) (buf : Bytes) :
    (buf.foldl (fun p symbol => (codes symbol).foldl BitPacker.pack p) ⟨[], 0, 0⟩).Holds
      (codeBitsOf codes buf) := by
  have h : ∀ (buf : Bytes) {p : BitPacker} {bits : List Bool}, p.Holds bits →
      (buf.foldl (fun p symbol => (codes symbol).foldl BitPacker.pack p) p).Holds
        (bits ++ codeBitsOf codes buf) := by
    intro buf
    induction buf with
    | nil => intro p bits h; simpa [codeBitsOf] using h
    | cons b buf ih =>
      intro p bits h
      have := ih (h.packAll (codes b))
      simpa [codeBitsOf] using this
  exact h buf ⟨by decide, [], rfl, rfl, by decide⟩

/-! ## Decoding what was packed -/

/-- **The decoder's run** over the codewords of a buffer and some padding. -/
theorem decodeFrom_codeBitsOf {root : HuffmanTree} {origSize : Nat} (hsize : origSize < 2 ^ 32)
    {codes : UInt8 → List Bool} (buf : Bytes) :
    ∀ (bits : List Bool) (data : Bytes) (d : HuffmanDecoder) {pad : List Bool}, buf ≠ [] →
      (∀ b ∈ buf, Codeword root (codes b) ⟨b, 0⟩) → d.cur = root → bits.length ≤ 8 →
      pad.length < 8 → bits ++ bitsOf data = codeBitsOf codes buf ++ pad →
      d.decodedIdx + buf.length = origSize →
      ∃ d', decodeFrom root origSize bits data d = .ok d' ∧ d'.decoded = d.decoded ++ buf ∧
        d'.decodedIdx = origSize := by
  induction buf with
  | nil => intro _ _ _ _ h; exact absurd rfl h
  | cons b buf ih =>
    intro bits data d pad _ hcodes hcur hbits hpad hmore hroom
    rw [List.length_cons] at hroom
    have hb := hcodes b List.mem_cons_self
    have hmore : bits ++ bitsOf data = codes b ++ (codeBitsOf codes buf ++ pad) := by
      simpa [codeBitsOf] using hmore
    obtain ⟨d', hd', hrun⟩ := decodeFrom_emitted root origSize hb.1 bits data d hbits
      (hcur ▸ hb.2) hmore
    have hidx : d'.decodedIdx = d.decodedIdx + 1 :=
      hd'.decodedIdx.trans (Nat.mod_eq_of_lt (by omega))
    rw [← hd'.decodedIdx, hidx] at hrun
    cases buf with
    | nil =>
      -- the last symbol: what is left are the padding bits of the byte
      rw [if_pos (by simp at hroom; omega)] at hrun
      obtain ⟨data', hdata', hrun⟩ := hrun
      have hnil : data' = [] := by
        have hlen := congrArg List.length hdata'
        rw [bitsOf_length, List.length_drop] at hlen
        simp only [codeBitsOf, List.flatMap_nil, List.nil_append] at hlen
        exact List.eq_nil_of_length_eq_zero (by omega)
      rw [hrun, hnil]
      exact ⟨d', rfl, hd'.decoded, by simp at hroom; omega⟩
    | cons b' buf =>
      rw [if_neg (by simp at hroom; omega)] at hrun
      obtain ⟨bits', data', hbits', hrest, hrun⟩ := hrun
      obtain ⟨d'', hrun', hdec, hidx'⟩ := ih bits' data' d' (List.cons_ne_nil b' buf)
        (fun c hc => hcodes c (List.mem_cons_of_mem b hc)) hd'.cur hbits' hpad hrest (by omega)
      refine ⟨d'', hrun.trans hrun', ?_, hidx'⟩
      rw [hdec, hd'.decoded]
      simp

/-! ## The round trip -/

/-- The tree of a buffer, and how it was made. -/
structure BufferTree (buf : Bytes) (root : HuffmanTree) : Prop where
  build : braHuffmanTreeBuild (huffmanFreq buf) = some root
  codes : root.Codes (huffmanLeaves (huffmanFreq buf))
  run : Merges HuffmanTree.freq huffmanJoin (minHeapLeaves (huffmanFreq buf)) root

theorem exists_bufferTree {buf : Bytes} (hpos : 0 < buf.length) : ∃ root, BufferTree buf root := by
  obtain ⟨b, hb⟩ := List.exists_mem_of_length_pos hpos
  have hfreq : 0 < huffmanFreq buf b := by
    rw [huffmanFreq_eq]
    exact List.count_pos_iff.mpr hb
  obtain ⟨root, hbuild, hcodes, hrun⟩ := braHuffmanTreeBuild_spec ⟨b, hfreq⟩
  exact ⟨root, hbuild, hcodes, hrun⟩

/-- The codes both sides use. -/
def HuffmanTree.canonicalCode (root : HuffmanTree) : UInt8 → List Bool :=
  codeword alphabet (codeLength root.lengths)

section Buffer
variable {buf : Bytes} {root : HuffmanTree}

theorem leaves_nodup (freq : UInt8 → Nat) :
    ((huffmanLeaves freq).map HuffmanNode.symbol).Nodup := by
  rw [huffmanLeaves_symbols]
  exact alphabet_nodup.filter _

/-- A byte of the buffer has a length, and only those have. -/
theorem BufferTree.length_pos_iff (h : BufferTree buf root) (hheight : root.height ≤ 26)
    (s : UInt8) : 0 < codeLength root.lengths s ↔ s ∈ buf := by
  rw [codeLength, (lengths_bounds h.codes (leaves_nodup _) hheight s).2, huffmanLeaves_symbols,
    List.mem_filter, huffmanFreq_eq]
  simp [mem_alphabet]

theorem BufferTree.length_le (h : BufferTree buf root) (hheight : root.height ≤ 26) (s : UInt8) :
    codeLength root.lengths s ≤ 25 :=
  (lengths_bounds h.codes (leaves_nodup _) hheight s).1

theorem BufferTree.computeCodes (h : BufferTree buf root) (hheight : root.height ≤ 26)
    {s : UInt8} (hs : s ∈ buf) (codes : UInt8 → List Bool) :
    braHuffmanComputeCanonicalCodes root.lengths codes s = root.canonicalCode s := by
  refine computeCanonicalCodes_eq root.lengths (D := 25) (by decide)
    (kraftSum_lengths h.codes (leaves_nodup _) hheight) (fun hzero => ?_) (h.length_le hheight s)
    codes
  have := (h.length_pos_iff hheight s).mpr hs
  rw [codeLength, hzero] at this
  exact Nat.lt_irrefl 0 this

/-- **The decoder's tree** has the encoder's codes. -/
theorem BufferTree.decoderTree (h : BufferTree buf root) (hheight : root.height ≤ 26) :
    ∃ t, braHuffmanTreeBuildFromLengths root.lengths = some t ∧
      ∀ b ∈ buf, Codeword t (root.canonicalCode b) ⟨b, 0⟩ := by
  have hmem : ∀ {s}, s ∈ alphabet.filter (fun i => root.lengths i ≠ 0) ↔ s ∈ buf := by
    intro s
    rw [← h.length_pos_iff hheight, List.mem_filter, codeLength, Nat.pos_iff_ne_zero]
    simp [mem_alphabet, ← UInt8.toNat_inj]
  have hcode : ∀ s ∈ alphabet.filter (fun i => root.lengths i ≠ 0),
      braHuffmanComputeCanonicalCodes root.lengths (fun _ => []) s = root.canonicalCode s :=
    fun s hs => h.computeCodes hheight (hmem.mp hs) _
  have hne : ∀ s ∈ alphabet.filter (fun i => root.lengths i ≠ 0), root.canonicalCode s ≠ [] := by
    intro s hs
    have hpos := (h.length_pos_iff hheight s).mpr (hmem.mp hs)
    refine List.ne_nil_of_length_pos ?_
    simpa [HuffmanTree.canonicalCode, codeword] using hpos
  have hinc : (alphabet.filter (fun i => root.lengths i ≠ 0)).Pairwise
      (fun s s' => Incomparable (root.canonicalCode s) (root.canonicalCode s')) := by
    refine (alphabet_nodup.filter _).imp_of_mem fun {s s'} hs hs' hne => ?_
    exact codeword_incomparable (kraftSum_lengths h.codes (leaves_nodup _) hheight)
      (mem_alphabet s) (mem_alphabet s') ((h.length_pos_iff hheight s).mpr (hmem.mp hs))
      ((h.length_pos_iff hheight s').mpr (hmem.mp hs')) (h.length_le hheight s)
      (h.length_le hheight s') hne
  have hwords : ∀ p ∈ (alphabet.filter (fun i => root.lengths i ≠ 0)).map
      (fun i => (root.canonicalCode i, (⟨i, 0⟩ : HuffmanNode))), p.1 ≠ [] := by
    intro p hp
    obtain ⟨s, hs, rfl⟩ := List.mem_map.mp hp
    exact hne s hs
  -- codewords that are no prefixes of each other can all be inserted
  obtain ⟨t, ht, hgrown⟩ := insertAll_grown ⟨0, 0⟩ hwords (List.pairwise_map.mpr hinc)
  refine ⟨t, ?_, fun b hb => hgrown.codeword _ (List.mem_map.mpr ⟨b, hmem.mpr hb, rfl⟩)⟩
  rw [braHuffmanTreeBuildFromLengths, List.map_congr_left fun s hs => by rw [hcode s hs]]
  exact ht

/-- The number of code bits of a buffer. -/
def codeBitCount (lengths : UInt8 → UInt8) (buf : Bytes) : Nat :=
  (buf.map (codeLength lengths)).sum

theorem codeBitsOf_length (root : HuffmanTree) (buf : Bytes) :
    (codeBitsOf root.canonicalCode buf).length = codeBitCount root.lengths buf := by
  rw [codeBitsOf, List.length_flatMap, codeBitCount]
  simp [HuffmanTree.canonicalCode, codeword]

theorem BufferTree.codeBitCount_le (h : BufferTree buf root) (hheight : root.height ≤ 26) :
    codeBitCount root.lengths buf ≤ 25 * buf.length := by
  have hle := List.sum_le_card_nsmul (buf.map (codeLength root.lengths)) 25 (fun x hx => by
    obtain ⟨b, -, rfl⟩ := List.mem_map.mp hx
    exact h.length_le hheight b)
  rw [List.length_map, Nat.nsmul_eq_mul, Nat.mul_comm] at hle
  exact hle

theorem huffmanBitCount_eq {lengths : UInt8 → UInt8}
    (hlt : codeBitCount lengths buf < 2 ^ 32) :
    huffmanBitCount lengths buf = codeBitCount lengths buf := by
  have h : ∀ (buf : Bytes) (n : Nat), n + codeBitCount lengths buf < 2 ^ 32 →
      buf.foldl (fun bitCount b => (bitCount + (lengths b).toNat) % 2 ^ 32) n =
        n + codeBitCount lengths buf := by
    intro buf
    induction buf with
    | nil => intro n _; rfl
    | cons b buf ih =>
      intro n hn
      simp only [codeBitCount, List.map_cons, List.sum_cons, codeLength] at hn ih ⊢
      rw [List.foldl_cons, Nat.mod_eq_of_lt (by omega), ih _ (by omega), Nat.add_assoc]
  rw [huffmanBitCount, h buf 0 (by omega), Nat.zero_add]

/-- What an encoded chunk is to the buffer it was made from. -/
structure HuffmanEncoded (buf : Bytes) (chunk : BraHuffmanChunk) : Prop where
  origSize : chunk.info.origSize.toNat = buf.length
  encodedSize : chunk.info.encodedSize.toNat = (codeBitCount chunk.info.lengths buf + 7) / 8
  length : chunk.data.length = chunk.info.encodedSize.toNat
  decoded : (braHuffmanDecode chunk.info chunk.data).decoded = some buf
  outSize : (braHuffmanDecode chunk.info chunk.data).outSize = buf.length

/-- Decoding the packed codewords of a buffer gives the buffer. -/
theorem BufferTree.decode (h : BufferTree buf root) (hheight : root.height ≤ 26)
    (hpos : 0 < buf.length) (info : BraHuffman) (hlengths : info.lengths = root.lengths)
    (horig : info.origSize.toNat = buf.length) {data : Bytes} {pad : List Bool}
    (hpad : pad.length < 8) (hbits : bitsOf data = codeBitsOf root.canonicalCode buf ++ pad)
    (hdata : data.length = info.encodedSize.toNat) :
    (braHuffmanDecode info data).decoded = some buf ∧
      (braHuffmanDecode info data).outSize = buf.length := by
  obtain ⟨t, ht, hcodewords⟩ := h.decoderTree hheight
  obtain ⟨d', hrun, hdec, hidx⟩ := decodeFrom_codeBitsOf info.origSize.toNat_lt buf [] data
    ⟨t, [], 0, []⟩ (List.ne_nil_of_length_pos hpos) hcodewords rfl
    (Nat.zero_le 8) hpad hbits (by rw [horig]; exact Nat.zero_add _)
  rw [braHuffmanDecode, hlengths, ht, List.take_of_length_le (Nat.le_of_eq hdata)]
  rw [decodeFrom_nil] at hrun
  simp only [hrun, huffmanFinish, hidx, ne_eq, not_true_eq_false, if_false]
  exact ⟨by rw [hdec]; rfl, horig⟩

/-- The encoder packs the canonical codes of its tree. -/
theorem BufferTree.exists_codes (h : BufferTree buf root) (hheight : root.height ≤ 26) :
    ∃ codes : UInt8 → List Bool, braHuffmanEncode buf = some
        { info := ⟨root.lengths, UInt32.ofNat buf.length,
            (UInt32.ofNat (huffmanBitCount root.lengths buf) + 7) / 8⟩
          data := (buf.foldl (fun p symbol => (codes symbol).foldl BitPacker.pack p)
            ⟨[], 0, 0⟩).finish } ∧
      codeBitsOf codes buf = codeBitsOf root.canonicalCode buf := by
  refine ⟨braHuffmanComputeCanonicalCodes root.lengths
    (braHuffmanGenerateCodes root (fun _ => [], fun _ => 0) []).1, ?_, ?_⟩
  · rw [braHuffmanEncode, h.build]
    rfl
  · exact List.flatMap_congr fun b hb => h.computeCodes hheight hb _

/-- **Encoding** with the tree of the buffer. -/
theorem BufferTree.encode (h : BufferTree buf root) (hpos : 0 < buf.length)
    (hmax : buf.length ≤ braMaxChunkSize + braMaxChunkSize / 128) :
    ∃ chunk, braHuffmanEncode buf = some chunk ∧ chunk.info.lengths = root.lengths ∧
      HuffmanEncoded buf chunk := by
  have hheight := height_le_of_merges hmax h.run
  have hcount := h.codeBitCount_le hheight
  have hsize : buf.length ≤ 264192 := hmax
  obtain ⟨codes, hchunk, hcodes⟩ := h.exists_codes hheight
  obtain ⟨pad, hpad, hbits⟩ := (pack_holds codes buf).finish
  rw [hcodes] at hbits
  have horig : (UInt32.ofNat buf.length).toNat = buf.length := by
    rw [UInt32.toNat_ofNat', Nat.mod_eq_of_lt (by omega)]
  -- the bit count fits in 32 bits, so that the encoded size is not reduced
  have henc : ((UInt32.ofNat (huffmanBitCount root.lengths buf) + 7) / 8).toNat =
      (codeBitCount root.lengths buf + 7) / 8 := by
    rw [UInt32.toNat_div, UInt32.toNat_add, UInt32.toNat_ofNat', huffmanBitCount_eq (by omega),
      Nat.mod_eq_of_lt (show codeBitCount root.lengths buf < 2 ^ 32 by omega)]
    exact congrArg (· / 8)
      (Nat.mod_eq_of_lt (show codeBitCount root.lengths buf + 7 < 2 ^ 32 by omega))
  have hdata := length_of_bitsOf hbits hpad
  rw [codeBitsOf_length, ← henc] at hdata
  obtain ⟨hdec, hout⟩ := h.decode hheight hpos
    ⟨root.lengths, UInt32.ofNat buf.length, (UInt32.ofNat (huffmanBitCount root.lengths buf) + 7) / 8⟩
    rfl horig hpad hbits hdata
  exact ⟨_, hchunk, rfl, horig, henc, hdata, hdec, hout⟩

/-- **Huffman round trip.**  For every buffer of the size the run-length encoder hands
over: the chunk records its size, holds exactly the packed code bits, and decodes to
the buffer from its lengths alone. -/
theorem huffman_roundTrip (hpos : 0 < buf.length)
    (hmax : buf.length ≤ braMaxChunkSize + braMaxChunkSize / 128) :
    ∃ chunk, braHuffmanEncode buf = some chunk ∧ chunk.info.origSize.toNat = buf.length ∧
      chunk.data.length = chunk.info.encodedSize.toNat ∧
      chunk.info.encodedSize.toNat =
        ((buf.map (fun b => (chunk.info.lengths b).toNat)).sum + 7) / 8 ∧
      (braHuffmanDecode chunk.info chunk.data).decoded = some buf ∧
      (braHuffmanDecode chunk.info chunk.data).outSize = buf.length := by
  obtain ⟨root, hroot⟩ := exists_bufferTree hpos
  obtain ⟨chunk, hchunk, -, henc⟩ := hroot.encode hpos hmax
  exact ⟨chunk, hchunk, henc.origSize, henc.length, henc.encodedSize, henc.decoded, henc.outSize⟩

/-- The word `abracadabra`. -/
theorem huffman_roundTrip_letters :
    let buf : Bytes := [97, 98, 114, 97, 99, 97, 100, 97, 98, 114, 97]
    ∃ chunk, braHuffmanEncode buf = some chunk ∧ chunk.info.origSize.toNat = 11 ∧
      chunk.data.length = chunk.info.encodedSize.toNat ∧
      chunk.info.encodedSize.toNat =
        ((buf.map (fun b => (chunk.info.lengths b).toNat)).sum + 7) / 8 ∧
      (braHuffmanDecode chunk.info chunk.data).decoded = some buf ∧
      (braHuffmanDecode chunk.info chunk.data).outSize = 11 := by
  intro buf
  have hpos : 0 < buf.length := by decide
  exact huffman_roundTrip hpos (by decide)

end Buffer
end BrArchive
