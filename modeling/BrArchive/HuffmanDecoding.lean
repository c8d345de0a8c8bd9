import BrArchive.Huffman

/-! # The memory accesses of the Huffman decoder

`bra_huffman_decode` leaves the loop over the bits of a byte once it has stored
`orig_size` symbols, but not the loop over the bytes: from the next byte on it decodes
again, and the first codeword it completes there is stored behind the end of the
buffer.  Two facts about the nested loops carry everything: what happens when a
codeword lies ahead, and what happens when none does.
-/
namespace BrArchive
open CodeTree

/-- The bits of a buffer in the order the decoder reads them. -/
def bitsOf (data : Bytes) : List Bool := data.flatMap byteBits

@[simp] theorem byteBits_length (b : UInt8) : (byteBits b).length = 8 := by simp [byteBits]

@[simp] theorem bitsOf_nil : bitsOf [] = [] := rfl

@[simp] theorem bitsOf_cons (b : UInt8) (data : Bytes) :
    bitsOf (b :: data) = byteBits b ++ bitsOf data := rfl

theorem bitsOf_length (data : Bytes) : (bitsOf data).length = 8 * data.length := by
  induction data with
  | nil => rfl
  | cons b data ih => rw [bitsOf_cons, List.length_append, ih, byteBits_length, List.length_cons]; omega

/-- An access to a node that exists, or to a place inside the allocated buffer. -/
def HuffmanAccess.InBounds (origSize : Nat) : HuffmanAccess → Prop
  | .step cur => cur ≠ .nil
  | .store idx => idx < origSize

section Loops
variable {root : HuffmanTree} {origSize : Nat}

/-- The two loops from the middle of a byte. -/
def decodeFrom (root : HuffmanTree) (origSize : Nat) (bits : List Bool) (data : Bytes)
    (d : HuffmanDecoder) : Except HuffmanDecoder HuffmanDecoder :=
  match huffmanDecodeBits root origSize bits d with
  | .ok d => huffmanDecodeBytes root origSize data d
  | .error d => .error d

@[simp] theorem decodeFrom_nil (data : Bytes) (d : HuffmanDecoder) :
    decodeFrom root origSize [] data d = huffmanDecodeBytes root origSize data d := rfl

theorem huffmanDecodeBytes_cons (b : UInt8) (data : Bytes) (d : HuffmanDecoder) :
    huffmanDecodeBytes root origSize (b :: data) d =
      decodeFrom root origSize (byteBits b) data d := rfl

/-- The state after a step that reaches neither a leaf nor a null link. -/
def HuffmanDecoder.walk (d : HuffmanDecoder) (b : Bool) : HuffmanDecoder :=
  { d with cur := child d.cur b, accesses := d.accesses ++ [.step d.cur] }

/-- The state after a step that reaches a leaf. -/
def HuffmanDecoder.emit (root : HuffmanTree) (d : HuffmanDecoder) (n : HuffmanNode) :
    HuffmanDecoder where
  cur := root
  decoded := d.decoded ++ [n.symbol]
  decodedIdx := (d.decodedIdx + 1) % 2 ^ 32
  accesses := d.accesses ++ [.step d.cur] ++ [.store d.decodedIdx]

theorem huffmanDecodeBits_error {b : Bool} {d : HuffmanDecoder} (hnull : child d.cur b = .nil)
    (bits : List Bool) : huffmanDecodeBits root origSize (b :: bits) d =
      .error { d with cur := .nil, accesses := d.accesses ++ [.step d.cur] } := by
  rw [huffmanDecodeBits, hnull]

theorem huffmanDecodeBits_walk {b : Bool} {d : HuffmanDecoder} (hnull : child d.cur b ≠ .nil)
    (hleaf : ∀ n, child d.cur b ≠ leaf n) (bits : List Bool) :
    huffmanDecodeBits root origSize (b :: bits) d =
      huffmanDecodeBits root origSize bits (d.walk b) := by
  rw [huffmanDecodeBits]
  split
  · exact absurd ‹_› hnull
  · exact absurd ‹_› (hleaf _)
  · rfl

theorem huffmanDecodeBits_emit {b : Bool} {d : HuffmanDecoder} {n : HuffmanNode}
    (hleaf : child d.cur b = leaf n) (bits : List Bool) :
    huffmanDecodeBits root origSize (b :: bits) d =
      if (d.emit root n).decodedIdx ≥ origSize then .ok (d.emit root n)
      else huffmanDecodeBits root origSize bits (d.emit root n) := by
  rw [huffmanDecodeBits, hleaf]
  rfl

theorem decodeFrom_error {b : Bool} {d : HuffmanDecoder} (hnull : child d.cur b = .nil)
    (bits : List Bool) (data : Bytes) :
    decodeFrom root origSize (b :: bits) data d =
      .error { d with cur := .nil, accesses := d.accesses ++ [.step d.cur] } := by
  rw [decodeFrom, huffmanDecodeBits_error hnull]

theorem decodeFrom_walk {b : Bool} {d : HuffmanDecoder} (hnull : child d.cur b ≠ .nil)
    (hleaf : ∀ n, child d.cur b ≠ leaf n) (bits : List Bool) (data : Bytes) :
    decodeFrom root origSize (b :: bits) data d =
      decodeFrom root origSize bits data (d.walk b) := by
  rw [decodeFrom, huffmanDecodeBits_walk hnull hleaf]
  rfl

theorem decodeFrom_emit {b : Bool} {d : HuffmanDecoder} {n : HuffmanNode}
    (hleaf : child d.cur b = leaf n) (bits : List Bool) (data : Bytes) :
    decodeFrom root origSize (b :: bits) data d =
      if (d.emit root n).decodedIdx ≥ origSize then
        huffmanDecodeBytes root origSize data (d.emit root n)
      else decodeFrom root origSize bits data (d.emit root n) := by
  rw [decodeFrom, huffmanDecodeBits_emit hleaf]
  split_ifs <;> rfl

/-- The state differs from `d` by steps on existing nodes only. -/
structure Walked (d d' : HuffmanDecoder) : Prop where
  decoded : d'.decoded = d.decoded
  decodedIdx : d'.decodedIdx = d.decodedIdx
  accesses : ∃ steps, d'.accesses = d.accesses ++ steps ∧
    ∀ a ∈ steps, ∃ cur ≠ BinaryTree.nil, a = .step cur

theorem Walked.refl (d : HuffmanDecoder) : Walked d d :=
  ⟨rfl, rfl, [], by simp, fun _ h => absurd h List.not_mem_nil⟩

theorem Walked.cons {d d' : HuffmanDecoder} (d₁ : HuffmanDecoder) (hdec : d₁.decoded = d.decoded)
    (hidx : d₁.decodedIdx = d.decodedIdx) (hcur : d.cur ≠ .nil)
    (hacc : d₁.accesses = d.accesses ++ [.step d.cur]) (h : Walked d₁ d') : Walked d d' := by
  obtain ⟨steps, hsteps, hall⟩ := h.accesses
  refine ⟨h.decoded.trans hdec, h.decodedIdx.trans hidx, .step d.cur :: steps, ?_, ?_⟩
  · rw [hsteps, hacc, List.append_assoc]
    rfl
  · rintro a ha
    rcases List.mem_cons.mp ha with rfl | ha
    · exact ⟨d.cur, hcur, rfl⟩
    · exact hall a ha

variable (root origSize) in
/-- **No codeword ahead**: the loops run into the end or into a null link, without a store. -/
theorem decodeFrom_walked :
    ∀ (k : Nat) (bits : List Bool) (data : Bytes) (d : HuffmanDecoder),
      (bits ++ bitsOf data).length = k → d.cur ≠ .nil →
      (∀ w n, Codeword d.cur w n → ¬ w <+: bits ++ bitsOf data) →
      ∃ d', Walked d d' ∧ (decodeFrom root origSize bits data d = .ok d' ∨
        decodeFrom root origSize bits data d = .error d') := by
  intro k
  induction k with
  | zero =>
    intro bits data d hlen _ _
    rw [List.length_append, bitsOf_length] at hlen
    obtain rfl : bits = [] := List.eq_nil_of_length_eq_zero (by omega)
    obtain rfl : data = [] := List.eq_nil_of_length_eq_zero (by omega)
    exact ⟨d, Walked.refl d, Or.inl rfl⟩
  | succ k ih =>
    intro bits data d hlen hcur hno
    -- at a byte boundary the next byte is loaded
    obtain ⟨b, bits', data', hload, hbits⟩ : ∃ b bits' data',
        decodeFrom root origSize bits data d = decodeFrom root origSize (b :: bits') data' d ∧
          bits ++ bitsOf data = b :: bits' ++ bitsOf data' := by
      cases bits with
      | cons b bits => exact ⟨b, bits, data, rfl, rfl⟩
      | nil =>
        cases data with
        | nil => simp at hlen
        | cons byte data =>
          obtain ⟨b, bits', hb⟩ := List.exists_cons_of_length_eq_add_one (byteBits_length byte)
          exact ⟨b, bits', data, by rw [decodeFrom_nil, huffmanDecodeBytes_cons, hb],
            by rw [bitsOf_cons, hb]; rfl⟩
    rw [hload]
    rw [hbits] at hlen hno
    by_cases hnull : child d.cur b = .nil
    · rw [decodeFrom_error hnull]
      exact ⟨_, Walked.cons ⟨.nil, d.decoded, d.decodedIdx, d.accesses ++ [.step d.cur]⟩
        rfl rfl hcur rfl (Walked.refl _), Or.inr rfl⟩
    · have hleaf : ∀ n, child d.cur b ≠ leaf n := fun n hn =>
        hno [b] n ⟨List.cons_ne_nil b [], hn⟩ ⟨_, rfl⟩
      obtain ⟨d', hd', hrun⟩ := ih bits' data' (d.walk b) (by simpa using hlen) hnull
        (fun w n hw hp => hno (b :: w) n ⟨List.cons_ne_nil b w, hw.2⟩
          (List.cons_prefix_cons.mpr ⟨rfl, hp⟩))
      rw [decodeFrom_walk hnull hleaf]
      exact ⟨d', Walked.cons (d.walk b) rfl rfl hcur rfl hd', hrun⟩

/-- The state differs from `d` by one codeword: some steps on existing nodes and a store. -/
structure Emitted (root : HuffmanTree) (n : HuffmanNode) (d d' : HuffmanDecoder) : Prop where
  cur : d'.cur = root
  decoded : d'.decoded = d.decoded ++ [n.symbol]
  decodedIdx : d'.decodedIdx = (d.decodedIdx + 1) % 2 ^ 32
  accesses : ∃ steps, d'.accesses = d.accesses ++ steps ++ [.store d.decodedIdx] ∧
    ∀ a ∈ steps, ∃ cur ≠ BinaryTree.nil, a = .step cur

theorem Emitted.cons {n : HuffmanNode} {d d' : HuffmanDecoder} {b : Bool} (hcur : d.cur ≠ .nil)
    (h : Emitted root n (d.walk b) d') : Emitted root n d d' := by
  obtain ⟨steps, hsteps, hall⟩ := h.accesses
  refine ⟨h.cur, h.decoded, h.decodedIdx, .step d.cur :: steps, ?_, ?_⟩
  · rw [hsteps]
    simp [HuffmanDecoder.walk]
  · rintro a ha
    rcases List.mem_cons.mp ha with rfl | ha
    · exact ⟨d.cur, hcur, rfl⟩
    · exact hall a ha

variable (root origSize) in
/-- **A codeword ahead** is decoded and stored.  Below `orig_size` symbols the loops go
on with the next bit, from there on with the next byte. -/
theorem decodeFrom_emitted {n : HuffmanNode} {w : List Bool} (hw : w ≠ []) :
    ∀ (bits : List Bool) (data : Bytes) (d : HuffmanDecoder) {more : List Bool},
      bits.length ≤ 8 → follow d.cur w = leaf n → bits ++ bitsOf data = w ++ more →
      ∃ d', Emitted root n d d' ∧
        if origSize ≤ (d.decodedIdx + 1) % 2 ^ 32 then
          ∃ data', bitsOf data' = more.drop (more.length % 8) ∧
            decodeFrom root origSize bits data d = huffmanDecodeBytes root origSize data' d'
        else ∃ bits' data', bits'.length ≤ 8 ∧ bits' ++ bitsOf data' = more ∧
            decodeFrom root origSize bits data d = decodeFrom root origSize bits' data' d' := by
  induction w with
  | nil => exact absurd rfl hw
  | cons b w ih =>
    intro bits data d more hlen hfollow hbits
    have hcur : d.cur ≠ .nil := fun h => leaf_ne_null n (by rw [← hfollow, h, follow_null])
    -- at a byte boundary the next byte is loaded
    obtain ⟨bits', data', hload, hlen', hbits'⟩ : ∃ bits' data',
        decodeFrom root origSize bits data d = decodeFrom root origSize (b :: bits') data' d ∧
          bits'.length < 8 ∧ bits' ++ bitsOf data' = w ++ more := by
      cases bits with
      | cons b' bits =>
        obtain ⟨rfl, hrest⟩ := List.cons.inj hbits
        exact ⟨bits, data, rfl, Nat.lt_of_succ_le hlen, hrest⟩
      | nil =>
        cases data with
        | nil => simp at hbits
        | cons byte data =>
          obtain ⟨b', bits', hb⟩ := List.exists_cons_of_length_eq_add_one (byteBits_length byte)
          have hlen' := byteBits_length byte
          rw [bitsOf_cons, hb] at hbits
          rw [hb, List.length_cons] at hlen'
          obtain ⟨rfl, hrest⟩ := List.cons.inj hbits
          exact ⟨bits', data, by rw [decodeFrom_nil, huffmanDecodeBytes_cons, hb],
            by omega, hrest⟩
    rw [hload]
    cases w with
    | nil =>
      have hleaf : child d.cur b = leaf n := hfollow
      refine ⟨d.emit root n, ⟨rfl, rfl, rfl, [.step d.cur], by simp [HuffmanDecoder.emit], ?_⟩, ?_⟩
      · intro a ha
        exact ⟨d.cur, hcur, List.mem_singleton.mp ha⟩
      · rw [decodeFrom_emit hleaf]
        have hmod : more.length % 8 = bits'.length := by
          rw [← List.nil_append more, ← hbits', List.length_append, bitsOf_length]
          omega
        have hidx : (d.emit root n).decodedIdx = (d.decodedIdx + 1) % 2 ^ 32 := rfl
        by_cases hge : origSize ≤ (d.decodedIdx + 1) % 2 ^ 32
        · rw [if_pos hge, hidx, if_pos hge]
          refine ⟨data', ?_, rfl⟩
          rw [hmod, ← List.nil_append more, ← hbits', List.drop_left]
        · rw [if_neg hge, hidx, if_neg hge]
          exact ⟨bits', data', Nat.le_of_lt hlen', hbits', rfl⟩
    | cons c w =>
      have hnull : child d.cur b ≠ .nil := fun h =>
        leaf_ne_null n (by rw [← hfollow, follow_cons, h, follow_null])
      have hleaf : ∀ m, child d.cur b ≠ leaf m := fun m h =>
        leaf_ne_null n (by rw [← hfollow, follow_cons, h, follow_leaf (List.cons_ne_nil c w)])
      obtain ⟨d', hd', hrun⟩ := ih (List.cons_ne_nil c w) bits' data' (d.walk b) (Nat.le_of_lt hlen')
        hfollow hbits'
      rw [decodeFrom_walk hnull hleaf]
      exact ⟨d', hd'.cons hcur, hrun⟩

/-- The accesses of a run, whichever way it ends. -/
def runAccesses : Except HuffmanDecoder HuffmanDecoder → List HuffmanAccess
  | .ok d => d.accesses
  | .error d => d.accesses

theorem huffmanFinish_accesses (r : Except HuffmanDecoder HuffmanDecoder) :
    (huffmanFinish origSize r).accesses = runAccesses r := by
  cases r with
  | error d => rfl
  | ok d =>
    rw [huffmanFinish]
    split <;> rfl

variable (root origSize) in
/-- Accesses are only ever added. -/
theorem huffmanDecodeBits_accesses (bits : List Bool) (d : HuffmanDecoder) :
    d.accesses <+: runAccesses (huffmanDecodeBits root origSize bits d) := by
  induction bits generalizing d with
  | nil => exact List.prefix_rfl
  | cons b bits ih =>
    by_cases hnull : child d.cur b = .nil
    · rw [huffmanDecodeBits_error hnull]
      exact List.prefix_append _ _
    · by_cases hleaf : ∃ n, child d.cur b = leaf n
      · obtain ⟨n, hn⟩ := hleaf
        have hemit : d.accesses <+: (d.emit root n).accesses :=
          (List.prefix_append _ _).trans (List.prefix_append _ _)
        rw [huffmanDecodeBits_emit hn]
        split
        · exact hemit
        · exact hemit.trans (ih _)
      · rw [huffmanDecodeBits_walk hnull (fun n hn => hleaf ⟨n, hn⟩)]
        exact (List.prefix_append _ _).trans (ih (d.walk b))

theorem huffmanDecodeBytes_accesses (data : Bytes) (d : HuffmanDecoder) :
    d.accesses <+: runAccesses (huffmanDecodeBytes root origSize data d) := by
  induction data generalizing d with
  | nil => exact List.prefix_rfl
  | cons b data ih =>
    have hbits := huffmanDecodeBits_accesses root origSize (byteBits b) d
    rw [huffmanDecodeBytes]
    split
    · rename_i d' heq
      rw [heq] at hbits
      exact hbits.trans (ih d')
    · rename_i d' heq
      rw [heq] at hbits
      exact hbits

theorem decodeFrom_accesses (bits : List Bool) (data : Bytes) (d : HuffmanDecoder) :
    d.accesses <+: runAccesses (decodeFrom root origSize bits data d) := by
  have hbits := huffmanDecodeBits_accesses root origSize bits d
  rw [decodeFrom]
  split
  · rename_i d' heq
    rw [heq] at hbits
    exact hbits.trans (huffmanDecodeBytes_accesses data d')
  · rename_i d' heq
    rw [heq] at hbits
    exact hbits

/-- The counter counts the stored symbols, modulo `2 ^ 32`. -/
theorem huffmanDecodeBits_counts {bits : List Bool} {d d' : HuffmanDecoder}
    (hd : d.decodedIdx = d.decoded.length % 2 ^ 32)
    (h : huffmanDecodeBits root origSize bits d = .ok d') :
    d'.decodedIdx = d'.decoded.length % 2 ^ 32 := by
  induction bits generalizing d with
  | nil =>
    obtain rfl := Except.ok.inj h
    exact hd
  | cons b bits ih =>
    by_cases hnull : child d.cur b = .nil
    · rw [huffmanDecodeBits_error hnull] at h
      cases h
    · by_cases hleaf : ∃ n, child d.cur b = leaf n
      · obtain ⟨n, hn⟩ := hleaf
        have hemit : (d.emit root n).decodedIdx = (d.emit root n).decoded.length % 2 ^ 32 := by
          simp only [HuffmanDecoder.emit, hd, List.length_append, List.length_singleton]
          omega
        rw [huffmanDecodeBits_emit hn] at h
        split at h
        · obtain rfl := Except.ok.inj h
          exact hemit
        · exact ih hemit h
      · rw [huffmanDecodeBits_walk hnull (fun n hn => hleaf ⟨n, hn⟩)] at h
        exact ih (d := d.walk b) hd h

theorem huffmanDecodeBytes_counts {data : Bytes} {d d' : HuffmanDecoder}
    (hd : d.decodedIdx = d.decoded.length % 2 ^ 32)
    (h : huffmanDecodeBytes root origSize data d = .ok d') :
    d'.decodedIdx = d'.decoded.length % 2 ^ 32 := by
  induction data generalizing d with
  | nil =>
    obtain rfl := Except.ok.inj h
    exact hd
  | cons b data ih =>
    rw [huffmanDecodeBytes] at h
    split at h
    · rename_i d₁ heq
      exact ih (huffmanDecodeBits_counts hd heq) h
    · cases h

end Loops

/-- **A successful call** returns `orig_size` symbols. -/
theorem huffmanDecode_length {info : BraHuffman} {data buf : Bytes}
    (h : (braHuffmanDecode info data).decoded = some buf) :
    (buf.take (braHuffmanDecode info data).outSize).length = info.origSize.toNat := by
  unfold braHuffmanDecode at *
  cases hbuild : braHuffmanTreeBuildFromLengths info.lengths with
  | none => simp [hbuild] at h
  | some root =>
    simp only [hbuild] at h ⊢
    cases hrun : huffmanDecodeBytes root info.origSize.toNat
      (data.take info.encodedSize.toNat) ⟨root, [], 0, []⟩ with
    | error d => simp [hrun, huffmanFinish] at h
    | ok d =>
      have hcount := huffmanDecodeBytes_counts rfl hrun
      simp only [hrun, huffmanFinish] at h ⊢
      by_cases hidx : d.decodedIdx = info.origSize.toNat
      · rw [if_neg (not_not.mpr hidx)] at h ⊢
        obtain rfl := Option.some.inj h
        rw [List.length_take]
        dsimp only
        omega
      · rw [if_pos hidx] at h
        cases h

/-! ## When decoding is safe -/

/-- Every store is inside the buffer, every step is on a node, and the call returns
`orig_size` bytes or nothing. -/
structure HuffmanDecoding.Safe (origSize : Nat) (r : HuffmanDecoding) : Prop where
  accesses : ∀ a ∈ r.accesses, a.InBounds origSize
  result : (∃ buf, r.decoded = some buf ∧ buf.length = origSize ∧ r.outSize = origSize) ∨
    (r.decoded = none ∧ r.outSize = 0)

/-- A nonempty bit string that leads to a leaf. -/
def IsCodeword (root : HuffmanTree) (w : List Bool) : Prop := ∃ n, Codeword root w n

/-- Whenever the bits start with `k` codewords, no codeword lies ahead at the first
byte boundary after them.  The bits end at a byte boundary, so what is left modulo
eight says how far off the next one is. -/
def NoOverrun (root : HuffmanTree) (k : Nat) (bits : List Bool) : Prop :=
  ∀ (ws : List (List Bool)) (rest : List Bool), ws.length = k →
    (∀ w ∈ ws, IsCodeword root w) → bits = ws.flatten ++ rest →
    ∀ v, IsCodeword root v → ¬ v <+: rest.drop (rest.length % 8)

/-- With a codeword ahead, the condition passes to what follows it. -/
theorem noOverrun_append {root : HuffmanTree} {w : List Bool} (hw : IsCodeword root w) (k : Nat)
    (more : List Bool) : NoOverrun root (k + 1) (w ++ more) ↔ NoOverrun root k more := by
  constructor
  · intro h ws rest hlen hall hmore v hv
    refine h (w :: ws) rest (by simp [hlen]) ?_ (by simp [hmore]) v hv
    exact fun u hu => (List.mem_cons.mp hu).elim (fun he => he ▸ hw) (hall u)
  · intro h ws rest hlen hall hbits v hv
    cases ws with
    | nil => simp at hlen
    | cons u ws =>
      obtain ⟨n, hn⟩ := hw
      obtain ⟨m, hm⟩ := hall u List.mem_cons_self
      obtain ⟨rfl, -⟩ := hn.unique hm (List.prefix_append w more)
        (hbits ▸ by simp [List.append_assoc])
      exact h ws rest (by simpa using hlen) (fun u hu => hall u (List.mem_cons_of_mem _ hu))
        (by simpa using hbits) v hv

theorem noOverrun_zero {root : HuffmanTree} (bits : List Bool) :
    NoOverrun root 0 bits ↔
      ∀ v, IsCodeword root v → ¬ v <+: bits.drop (bits.length % 8) := by
  constructor
  · intro h
    exact h [] bits rfl (fun w hw => absurd hw List.not_mem_nil) rfl
  · intro h ws rest hlen _ hbits
    obtain rfl := List.eq_nil_of_length_eq_zero hlen
    rw [hbits] at h
    exact h

theorem noOverrun_of_none {root : HuffmanTree} {k : Nat} {bits : List Bool}
    (h : ∀ w, IsCodeword root w → ¬ w <+: bits) : NoOverrun root (k + 1) bits := by
  intro ws rest hlen hall hbits
  cases ws with
  | nil => simp at hlen
  | cons w ws =>
    exact absurd (hbits ▸ by simp [List.append_assoc]) (h w (hall w List.mem_cons_self))

section Safe
variable {root : HuffmanTree} {origSize : Nat}

/-- A run without a store ends well if it starts well. -/
theorem safe_of_walked {d d' : HuffmanDecoder} (h : Walked d d')
    {r : Except HuffmanDecoder HuffmanDecoder} (hr : r = .ok d' ∨ r = .error d')
    (hlen : d.decoded.length = d.decodedIdx) (hacc : ∀ a ∈ d.accesses, a.InBounds origSize) :
    (huffmanFinish origSize r).Safe origSize := by
  obtain ⟨steps, hsteps, hall⟩ := h.accesses
  have hacc' : ∀ a ∈ d'.accesses, a.InBounds origSize := by
    intro a ha
    rw [hsteps] at ha
    rcases List.mem_append.mp ha with ha | ha
    · exact hacc a ha
    · obtain ⟨cur, hcur, rfl⟩ := hall a ha
      exact hcur
  rcases hr with rfl | rfl
  · rw [huffmanFinish]
    split
    · exact ⟨hacc', Or.inr ⟨rfl, rfl⟩⟩
    · rename_i hidx
      have hidx := not_not.mp hidx
      exact ⟨hacc', Or.inl ⟨d'.decoded, rfl, by rw [h.decoded, hlen, ← h.decodedIdx, hidx], hidx⟩⟩
  · exact ⟨hacc', Or.inr ⟨rfl, rfl⟩⟩

/-- From a full buffer, the rest of the run is safe exactly if no codeword lies ahead. -/
theorem safe_full_iff (hroot : root ≠ .nil) {data : Bytes} {d : HuffmanDecoder}
    (hcur : d.cur = root) (hfull : d.decodedIdx = origSize)
    (hlen : d.decoded.length = d.decodedIdx) (hacc : ∀ a ∈ d.accesses, a.InBounds origSize) :
    (huffmanFinish origSize (huffmanDecodeBytes root origSize data d)).Safe origSize ↔
      ∀ v, IsCodeword root v → ¬ v <+: bitsOf data := by
  constructor
  · rintro hsafe v ⟨n, hv⟩ ⟨more, hmore⟩
    -- the codeword is stored at `orig_size`
    obtain ⟨d', hd', hrun⟩ := decodeFrom_emitted root origSize hv.1 [] data d (Nat.zero_le 8)
      (hcur ▸ hv.2) hmore.symm
    obtain ⟨steps, hsteps, -⟩ := hd'.accesses
    have hmem : HuffmanAccess.store origSize ∈ d'.accesses := by
      rw [hsteps, hfull]
      simp
    have hpre : d'.accesses <+: runAccesses (huffmanDecodeBytes root origSize data d) := by
      rw [← decodeFrom_nil]
      split at hrun
      · obtain ⟨data', -, heq⟩ := hrun
        rw [heq]
        exact huffmanDecodeBytes_accesses data' d'
      · obtain ⟨bits', data', -, -, heq⟩ := hrun
        rw [heq]
        exact decodeFrom_accesses bits' data' d'
    have := hsafe.accesses (.store origSize)
      (by rw [huffmanFinish_accesses]; exact hpre.subset hmem)
    exact Nat.lt_irrefl origSize this
  · intro hno
    obtain ⟨d', hd', hrun⟩ := decodeFrom_walked root origSize (bitsOf data).length [] data d rfl
      (hcur ▸ hroot) (fun w n hw => hno w ⟨n, hcur ▸ hw⟩)
    exact safe_of_walked hd' hrun hlen hacc

theorem inBounds_of_emitted {n : HuffmanNode} {d d' : HuffmanDecoder} (h : Emitted root n d d')
    (hroom : d.decodedIdx < origSize) (hacc : ∀ a ∈ d.accesses, a.InBounds origSize) :
    ∀ a ∈ d'.accesses, a.InBounds origSize := by
  obtain ⟨steps, hsteps, hall⟩ := h.accesses
  intro a ha
  rw [hsteps, List.mem_append, List.mem_append] at ha
  rcases ha with (ha | ha) | ha
  · exact hacc a ha
  · obtain ⟨cur, hcur, rfl⟩ := hall a ha
    exact hcur
  · obtain rfl := List.mem_singleton.mp ha
    exact hroom

/-- With no codeword ahead the run is safe, and nothing is asked of the bits. -/
theorem safe_iff_of_none_ahead (hroot : root ≠ .nil) {bits : List Bool} {data : Bytes}
    {d : HuffmanDecoder} {k : Nat} (hcur : d.cur = root)
    (hlen : d.decoded.length = d.decodedIdx) (hacc : ∀ a ∈ d.accesses, a.InBounds origSize)
    (hno : ∀ w n, Codeword root w n → ¬ w <+: bits ++ bitsOf data) :
    (huffmanFinish origSize (decodeFrom root origSize bits data d)).Safe origSize ↔
      NoOverrun root (k + 1) (bits ++ bitsOf data) := by
  obtain ⟨d', hd', hrun⟩ := decodeFrom_walked root origSize _ bits data d rfl (hcur ▸ hroot)
    (hcur ▸ hno)
  exact iff_of_true (safe_of_walked hd' hrun hlen hacc)
    (noOverrun_of_none fun w ⟨n, hw⟩ => hno w n hw)

/-- **The rest of a run** from the root, with room for `k + 1` more symbols. -/
theorem safe_iff_noOverrun (hroot : root ≠ .nil) (hsize : origSize < 2 ^ 32) (k : Nat) :
    ∀ (bits : List Bool) (data : Bytes) (d : HuffmanDecoder), bits.length ≤ 8 →
      d.cur = root → d.decodedIdx + (k + 1) = origSize → d.decoded.length = d.decodedIdx →
      (∀ a ∈ d.accesses, a.InBounds origSize) →
      ((huffmanFinish origSize (decodeFrom root origSize bits data d)).Safe origSize ↔
        NoOverrun root (k + 1) (bits ++ bitsOf data)) := by
  induction k with
  | zero =>
    intro bits data d hbits hcur hroom hlen hacc
    -- the last byte: after its codeword the loop returns
    by_cases hahead : ∃ w n more, Codeword root w n ∧ bits ++ bitsOf data = w ++ more
    · obtain ⟨w, n, more, hw, hmore⟩ := hahead
      obtain ⟨d', hd', hrun⟩ := decodeFrom_emitted root origSize hw.1 bits data d hbits
        (hcur ▸ hw.2) hmore
      have hmod : (d.decodedIdx + 1) % 2 ^ 32 = d.decodedIdx + 1 := Nat.mod_eq_of_lt (by omega)
      rw [hmod, if_pos (by omega)] at hrun
      obtain ⟨data', hdata', hrun⟩ := hrun
      have hidx : d'.decodedIdx = d.decodedIdx + 1 := hd'.decodedIdx.trans hmod
      rw [hrun, safe_full_iff hroot hd'.cur (by omega) (by rw [hd'.decoded, hidx]; simp [hlen])
        (inBounds_of_emitted hd' (by omega) hacc), hdata', hmore, noOverrun_append ⟨n, hw⟩,
        noOverrun_zero]
    · exact safe_iff_of_none_ahead hroot hcur hlen hacc
        fun w n hw ⟨more, hmore⟩ => hahead ⟨w, n, more, hw, hmore.symm⟩
  | succ k ih =>
    intro bits data d hbits hcur hroom hlen hacc
    -- after the codeword the loop goes on, in the same or in a later byte
    by_cases hahead : ∃ w n more, Codeword root w n ∧ bits ++ bitsOf data = w ++ more
    · obtain ⟨w, n, more, hw, hmore⟩ := hahead
      obtain ⟨d', hd', hrun⟩ := decodeFrom_emitted root origSize hw.1 bits data d hbits
        (hcur ▸ hw.2) hmore
      have hmod : (d.decodedIdx + 1) % 2 ^ 32 = d.decodedIdx + 1 := Nat.mod_eq_of_lt (by omega)
      rw [hmod, if_neg (by omega)] at hrun
      obtain ⟨bits', data', hbits', hrest, hrun⟩ := hrun
      have hidx : d'.decodedIdx = d.decodedIdx + 1 := hd'.decodedIdx.trans hmod
      rw [hrun, ih bits' data' d' hbits' hd'.cur (by omega) (by rw [hd'.decoded, hidx]; simp [hlen])
        (inBounds_of_emitted hd' (by omega) hacc), hrest, hmore, noOverrun_append ⟨n, hw⟩]
    · exact safe_iff_of_none_ahead hroot hcur hlen hacc
        fun w n hw ⟨more, hmore⟩ => hahead ⟨w, n, more, hw, hmore.symm⟩

theorem buildFromLengths_ne_null {lengths : UInt8 → UInt8}
    (h : braHuffmanTreeBuildFromLengths lengths = some root) : root ≠ .nil :=
  insertAll_ne_null (leaf_ne_null _) h

end Safe

/-- **When the decoder stays inside its buffer**: for every table of code lengths and
every payload, exactly if no codeword lies ahead at the first byte boundary after the
`orig_size` codewords the payload starts with. -/
theorem huffmanDecode_safe_iff {info : BraHuffman} (hpos : 0 < info.origSize.toNat) {data : Bytes}
    (hdata : data.length = info.encodedSize.toNat) :
    (braHuffmanDecode info data).Safe info.origSize.toNat ↔
      ∀ root, braHuffmanTreeBuildFromLengths info.lengths = some root →
        NoOverrun root info.origSize.toNat (bitsOf data) := by
  unfold braHuffmanDecode
  rw [List.take_of_length_le (Nat.le_of_eq hdata)]
  obtain ⟨k, hk⟩ : ∃ k, info.origSize.toNat = k + 1 := ⟨info.origSize.toNat - 1, by omega⟩
  cases hbuild : braHuffmanTreeBuildFromLengths info.lengths with
  | none =>
    refine iff_of_true ⟨fun a ha => absurd ha List.not_mem_nil, Or.inr ⟨rfl, rfl⟩⟩ ?_
    intro root hroot
    cases hroot
  | some root =>
    have hiff := safe_iff_noOverrun (buildFromLengths_ne_null hbuild) info.origSize.toNat_lt k
      [] data ⟨root, [], 0, []⟩ (Nat.zero_le 8) rfl (hk ▸ Nat.zero_add _) rfl
      (fun a ha => absurd ha List.not_mem_nil)
    rw [← hk, decodeFrom_nil, List.nil_append] at hiff
    refine hiff.trans ⟨?_, fun h => h root rfl⟩
    rintro h _ hroot
    obtain rfl := Option.some.inj hroot
    exact h

/-- One symbol with a code of one bit, one byte to decode, two bytes to decode it from. -/
def overrunInfo : BraHuffman where
  lengths s := if s = 0 then 1 else 0
  origSize := 1
  encodedSize := 2

/-- The second byte is decoded too: it stores at index 1 of a buffer of one byte. -/
theorem huffmanDecode_not_safe : ¬ (braHuffmanDecode overrunInfo [0, 0]).Safe 1 := by
  intro h
  have : HuffmanAccess.store 1 ∈ (braHuffmanDecode overrunInfo [0, 0]).accesses := by
    decide +kernel
  exact Nat.lt_irrefl 1 (h.accesses _ this)

/-- The condition at the payload that overruns. -/
theorem huffmanDecode_safe_iff_overrunInfo :
    (braHuffmanDecode overrunInfo [0, 0]).Safe 1 ↔
      ∀ root, braHuffmanTreeBuildFromLengths overrunInfo.lengths = some root →
        NoOverrun root 1 (bitsOf [0, 0]) :=
  have hpos : 0 < overrunInfo.origSize.toNat := by decide
  huffmanDecode_safe_iff hpos (by decide)

end BrArchive
