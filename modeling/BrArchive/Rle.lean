import BrArchive.Defs
import Mathlib.Data.List.TakeWhile

/-! # Run-length encoding

`bra_rle.c`: a buffer is written as blocks, each with a control byte.  A control byte
of 0 to 127 announces a literal block, one of -1 to -127 a run, and -128 nothing at
all.  The encoder makes runs of three and more equal bytes; what the decoder accepts is
stated as a grammar of blocks.
-/
namespace BrArchive

/-- `BRA_RLE_CTL_RUNS`, the lowest control value of a run block. -/
def braRleCtlRuns : Int := -127

/-- What a control byte announces. -/
inductive RleBlock where
  | literal (bytes : Bytes)
  | run (count : Nat) (value : UInt8)
  | noop
  deriving DecidableEq, Repr

/-- The bytes a block stands for. -/
def RleBlock.expand : RleBlock → Bytes
  | literal bytes => bytes
  | run count value => List.replicate count value
  | noop => []

/-- `count` of a block: what it adds to the decoded size. -/
def RleBlock.count : RleBlock → Nat
  | literal bytes => bytes.length
  | run count _ => count
  | noop => 0

/-- A block as the encoder writes it. -/
def RleBlock.encode : RleBlock → Bytes
  | literal bytes => UInt8.ofNat (bytes.length - 1) :: bytes
  | run count value => [UInt8.ofInt (-((count : Int) - 1)), value]
  | noop => [0x80]

/-! ## The encoder -/

/-- `_bra_rle_encoding_compute_size_detect_run`, on the buffer from position `i` on. -/
def rleDetectRun : Bytes → Nat
  | [] => 1
  | b :: buf => 1 + ((buf.take (braRleMaxRuns - 1)).takeWhile (· = b)).length

/-- The loop that extends a literal block of `lit_size` bytes. -/
def rleLiteralSize : Nat → Bytes → Nat
  | litSize, [] => litSize
  | litSize, b :: buf =>
    if rleDetectRun (b :: buf) ≥ braRleMinRuns then litSize
    else if litSize + 1 = braRleMaxRuns then litSize + 1
    else rleLiteralSize (litSize + 1) buf

/-- The block at the start of a buffer, and its length in the buffer. -/
def rleNextBlock (buf : Bytes) : RleBlock × Nat :=
  let run := rleDetectRun buf
  if run ≥ braRleMinRuns then (.run run (buf.headD 0), run)
  else
    let litSize := rleLiteralSize run (buf.drop run)
    (.literal (buf.take litSize), litSize)

/-- The loop of `_bra_rle_encode_compute_size` and of `bra_rle_encode`; every block
takes at least one byte, so `buf_size` rounds are enough. -/
def rleEncodeBlocks : Nat → Bytes → List RleBlock
  | 0, _ => []
  | _ + 1, [] => []
  | fuel + 1, b :: buf =>
    let (block, size) := rleNextBlock (b :: buf)
    block :: rleEncodeBlocks fuel ((b :: buf).drop size)

/-- `_bra_rle_encode_compute_size`. -/
def rleEncodeComputeSize (buf : Bytes) : Nat :=
  ((rleEncodeBlocks buf.length buf).map fun block => block.encode.length).sum

/-- `bra_rle_encode`. -/
def braRleEncode (buf : Bytes) : Option Bytes :=
  if rleEncodeComputeSize buf = 0 then none
  else some ((rleEncodeBlocks buf.length buf).flatMap RleBlock.encode)

/-! ## The decoder -/

/-- `int8_t control`. -/
def rleControl (b : UInt8) : Int := if b.toNat < 128 then b.toNat else (b.toNat : Int) - 256

/-- One round of the decoding loops, after the control byte: the block and what is left
of the buffer, none if the buffer ends early. -/
def rleReadBlock (b : UInt8) (buf : Bytes) : Option (RleBlock × Bytes) :=
  let control := rleControl b
  if 0 ≤ control then
    let count := (control + 1).toNat
    if count > buf.length then none
    else some (.literal (buf.take count), buf.drop count)
  else if control ≥ braRleCtlRuns then
    match buf with
    | [] => none
    | value :: buf => some (.run (1 - control).toNat value, buf)
  else some (.noop, buf)

/-- The loop of `bra_rle_decode_compute_size` and of `bra_rle_decode`. -/
def rleReadBlocks : Nat → Bytes → Option (List RleBlock)
  | _, [] => some []
  | 0, _ :: _ => none
  | fuel + 1, b :: buf =>
    match rleReadBlock b buf with
    | none => none
    | some (block, buf) => (rleReadBlocks fuel buf).map (block :: ·)

/-- `bra_rle_decode_compute_size`: 0 on error. -/
def braRleDecodeComputeSize (buf : Bytes) : Nat :=
  match rleReadBlocks buf.length buf with
  | none => 0
  | some blocks => (blocks.map RleBlock.count).sum

/-- `bra_rle_decode`. -/
def braRleDecode (buf : Bytes) : Option Bytes :=
  if braRleDecodeComputeSize buf = 0 then none
  else (rleReadBlocks buf.length buf).map fun blocks => blocks.flatMap RleBlock.expand

/-! ## Blocks -/

/-- A block a control byte can announce. -/
def RleBlock.Valid : RleBlock → Prop
  | literal bytes => 0 < bytes.length ∧ bytes.length ≤ braRleMaxRuns
  | run count _ => 2 ≤ count ∧ count ≤ braRleMaxRuns
  | noop => True

@[simp] theorem RleBlock.expand_length (block : RleBlock) :
    block.expand.length = block.count := by
  cases block <;> simp [RleBlock.expand, RleBlock.count]

theorem RleBlock.encode_ne_nil (block : RleBlock) : block.encode ≠ [] := by
  cases block <;> simp [RleBlock.encode]

/-- The sizes of the blocks add up. -/
theorem flatMap_expand_length (blocks : List RleBlock) :
    (blocks.flatMap RleBlock.expand).length = (blocks.map RleBlock.count).sum := by
  simp only [List.length_flatMap, RleBlock.expand_length]

theorem rleEncodeComputeSize_eq (buf : Bytes) :
    rleEncodeComputeSize buf =
      ((rleEncodeBlocks buf.length buf).flatMap RleBlock.encode).length := by
  rw [rleEncodeComputeSize, List.length_flatMap]

theorem rleControl_of_lt {b : UInt8} (h : b.toNat < 128) : rleControl b = b.toNat := if_pos h

theorem rleControl_of_ge {b : UInt8} (h : 128 ≤ b.toNat) : rleControl b = (b.toNat : Int) - 256 :=
  if_neg (Nat.not_lt.mpr h)

theorem toNat_ofNat_of_lt {n : Nat} (h : n < 256) : (UInt8.ofNat n).toNat = n := by
  rw [UInt8.toNat_ofNat', Nat.mod_eq_of_lt h]

theorem toNat_runControl {count : Nat} (h2 : 2 ≤ count) (hmax : count ≤ 128) :
    (UInt8.ofInt (-((count : Int) - 1))).toNat = 257 - count := by
  have hmod : -((count : Int) - 1) % 2 ^ 8 = (257 - count : Nat) := by omega
  rw [UInt8.ofInt, hmod, Int.toNat_natCast]
  exact toNat_ofNat_of_lt (by omega)

/-- What the encoder writes for a block is read back as the block. -/
theorem rleReadBlock_encode {block : RleBlock} (h : block.Valid) (rest : Bytes) :
    ∃ b tail, block.encode = b :: tail ∧ rleReadBlock b (tail ++ rest) = some (block, rest) := by
  cases block with
  | literal bytes =>
    obtain ⟨hpos, hmax⟩ := h
    rw [braRleMaxRuns] at hmax
    have hb := toNat_ofNat_of_lt (n := bytes.length - 1) (by omega)
    have hcontrol := rleControl_of_lt (b := UInt8.ofNat (bytes.length - 1)) (by omega)
    have hcount : (rleControl (UInt8.ofNat (bytes.length - 1)) + 1).toNat = bytes.length := by
      omega
    refine ⟨_, _, rfl, ?_⟩
    -- a control byte of at least 0 is followed by one literal byte more
    simp only [rleReadBlock]
    rw [if_pos (by omega), hcount, if_neg (by simp), List.take_left, List.drop_left]
  | run count value =>
    obtain ⟨h2, hmax⟩ := h
    rw [braRleMaxRuns] at hmax
    have hb := toNat_runControl h2 hmax
    have hcontrol := rleControl_of_ge (b := UInt8.ofInt (-((count : Int) - 1))) (by omega)
    have hcount : (1 - rleControl (UInt8.ofInt (-((count : Int) - 1)))).toNat = count := by omega
    refine ⟨_, _, rfl, ?_⟩
    -- a negative one by the value to be repeated, -128 apart
    simp only [rleReadBlock]
    rw [if_neg (by omega), if_pos (by rw [braRleCtlRuns]; omega)]
    simp only [List.cons_append, List.nil_append, hcount]
  | noop =>
    refine ⟨_, _, rfl, ?_⟩
    simp only [rleReadBlock]
    rw [if_neg (by decide), if_neg (by decide)]
    rfl

/-- What is read as a block was written as the block. -/
theorem encode_of_rleReadBlock {b : UInt8} {buf rest : Bytes} {block : RleBlock}
    (h : rleReadBlock b buf = some (block, rest)) :
    block.Valid ∧ b :: buf = block.encode ++ rest := by
  have hlt := b.toNat_lt
  simp only [rleReadBlock] at h
  by_cases hpos : b.toNat < 128
  · have hcontrol := rleControl_of_lt hpos
    rw [if_pos (by omega)] at h
    split at h
    · exact absurd h (by simp)
    · rename_i hcount
      obtain ⟨rfl, rfl⟩ := Prod.mk.inj (Option.some.inj h)
      have hlen : (buf.take (rleControl b + 1).toNat).length = b.toNat + 1 := by
        rw [List.length_take]
        omega
      refine ⟨⟨by omega, by rw [hlen, braRleMaxRuns]; omega⟩, ?_⟩
      rw [RleBlock.encode, hlen, Nat.add_sub_cancel, UInt8.ofNat_toNat, List.cons_append,
        List.take_append_drop]
  · have hcontrol := rleControl_of_ge (Nat.not_lt.mp hpos)
    rw [if_neg (by omega)] at h
    split at h
    · rename_i hrun
      rw [braRleCtlRuns] at hrun
      cases buf with
      | nil => exact absurd h (by simp)
      | cons value buf =>
        obtain ⟨rfl, rfl⟩ := Prod.mk.inj (Option.some.inj h)
        have hcount : (1 - rleControl b).toNat = 257 - b.toNat := by omega
        have hb : UInt8.ofInt (-(((257 - b.toNat : Nat) : Int) - 1)) = b :=
          UInt8.toNat_inj.mp ((toNat_runControl (by omega) (by omega)).trans (by omega))
        rw [hcount]
        refine ⟨⟨by omega, by rw [braRleMaxRuns]; omega⟩, ?_⟩
        rw [RleBlock.encode, hb]
        rfl
    · rename_i hrun
      rw [braRleCtlRuns] at hrun
      obtain ⟨rfl, rfl⟩ := Prod.mk.inj (Option.some.inj h)
      -- neither literal nor run: the control byte is -128
      have hb : b = 0x80 := UInt8.toNat_inj.mp (show b.toNat = 128 by omega)
      exact ⟨trivial, by rw [hb]; rfl⟩

theorem length_encode_append_lt (block : RleBlock) (rest : Bytes) :
    rest.length < (block.encode ++ rest).length := by
  have := List.length_pos_iff.mpr block.encode_ne_nil
  rw [List.length_append]
  omega

/-- **The decoder's grammar**: a buffer is read as the blocks it is the encoding of. -/
theorem rleReadBlocks_eq_some_iff {fuel : Nat} {buf : Bytes} (blocks : List RleBlock)
    (hfuel : buf.length ≤ fuel) :
    rleReadBlocks fuel buf = some blocks ↔
      (∀ block ∈ blocks, block.Valid) ∧ buf = blocks.flatMap RleBlock.encode := by
  induction fuel generalizing buf blocks with
  | zero =>
    obtain rfl := List.eq_nil_of_length_eq_zero (Nat.le_zero.mp hfuel)
    cases blocks with
    | nil => simp [rleReadBlocks]
    | cons block blocks => simp [rleReadBlocks, block.encode_ne_nil]
  | succ fuel ih =>
    cases buf with
    | nil =>
      cases blocks with
      | nil => simp [rleReadBlocks]
      | cons block blocks => simp [rleReadBlocks, block.encode_ne_nil]
    | cons b buf =>
      rw [rleReadBlocks]
      constructor
      · intro h
        split at h
        · exact absurd h (by simp)
        · rename_i block rest hread
          obtain ⟨hvalid, hbuf⟩ := encode_of_rleReadBlock hread
          obtain ⟨tail, htail, rfl⟩ := Option.map_eq_some_iff.mp h
          have hlt := length_encode_append_lt block rest
          rw [← hbuf] at hlt
          obtain ⟨hall, rfl⟩ := (ih _ (by omega)).mp htail
          exact ⟨List.forall_mem_cons.mpr ⟨hvalid, hall⟩, by rw [hbuf, List.flatMap_cons]⟩
      · rintro ⟨hall, hbuf⟩
        cases blocks with
        | nil => exact absurd hbuf (by simp)
        | cons block blocks =>
          obtain ⟨hvalid, hall⟩ := List.forall_mem_cons.mp hall
          rw [List.flatMap_cons] at hbuf
          obtain ⟨c, tail, hencode, hread⟩ := rleReadBlock_encode hvalid
            (blocks.flatMap RleBlock.encode)
          rw [hencode, List.cons_append] at hbuf
          obtain ⟨rfl, rfl⟩ := List.cons.inj hbuf
          simp only [hread]
          have hlen : (blocks.flatMap RleBlock.encode).length ≤ fuel := by
            simp only [List.length_cons, List.length_append] at hfuel
            omega
          rw [(ih _ hlen).mpr ⟨hall, rfl⟩]
          rfl

/-- **What the decoder accepts**: a sequence of blocks that stands for some bytes. -/
theorem braRleDecode_eq_some_iff {buf out : Bytes} :
    braRleDecode buf = some out ↔
      out ≠ [] ∧ ∃ blocks : List RleBlock, (∀ block ∈ blocks, block.Valid) ∧
        buf = blocks.flatMap RleBlock.encode ∧ out = blocks.flatMap RleBlock.expand := by
  have hread := fun blocks => rleReadBlocks_eq_some_iff blocks (Nat.le_refl buf.length)
  rw [braRleDecode, braRleDecodeComputeSize]
  constructor
  · intro h
    cases hblocks : rleReadBlocks buf.length buf with
    | none => exact absurd h (by simp [hblocks])
    | some blocks =>
      simp only [hblocks, ← flatMap_expand_length, List.length_eq_zero_iff] at h
      split at h
      · exact absurd h (by simp)
      · rename_i hne
        obtain rfl := Option.some.inj h
        obtain ⟨hall, hbuf⟩ := (hread blocks).mp hblocks
        exact ⟨hne, blocks, hall, hbuf, rfl⟩
  · rintro ⟨hne, blocks, hall, hbuf, rfl⟩
    simp only [(hread blocks).mpr ⟨hall, hbuf⟩, ← flatMap_expand_length, List.length_eq_zero_iff]
    rw [if_neg hne]
    rfl

/-- The size is known before the buffer is decoded. -/
theorem braRleDecode_length {buf out : Bytes} (h : braRleDecode buf = some out) :
    out.length = braRleDecodeComputeSize buf := by
  unfold braRleDecode braRleDecodeComputeSize at *
  cases hblocks : rleReadBlocks buf.length buf with
  | none => simp [hblocks] at h
  | some blocks =>
    simp only [hblocks] at h ⊢
    split at h
    · exact absurd h (by simp)
    · rw [← Option.some.inj h]
      exact flatMap_expand_length blocks

/-- Decoding fails exactly when the computed size is 0. -/
theorem braRleDecode_eq_none_iff {buf : Bytes} :
    braRleDecode buf = none ↔ braRleDecodeComputeSize buf = 0 := by
  unfold braRleDecode braRleDecodeComputeSize
  cases rleReadBlocks buf.length buf with
  | none => simp
  | some blocks => simp

/-! ## What the encoder emits -/

theorem rleDetectRun_pos (buf : Bytes) : 0 < rleDetectRun buf := by
  cases buf with
  | nil => exact Nat.one_pos
  | cons b buf => rw [rleDetectRun]; omega

theorem rleDetectRun_le_max (buf : Bytes) : rleDetectRun buf ≤ braRleMaxRuns := by
  cases buf with
  | nil => decide
  | cons b buf =>
    have h := (List.takeWhile_sublist (· = b) (l := buf.take (braRleMaxRuns - 1))).length_le
    rw [List.length_take] at h
    rw [rleDetectRun]
    simp only [braRleMaxRuns] at *
    omega

theorem rleDetectRun_le_length (b : UInt8) (buf : Bytes) :
    rleDetectRun (b :: buf) ≤ (b :: buf).length := by
  have h := (List.takeWhile_sublist (· = b) (l := buf.take (braRleMaxRuns - 1))).length_le
  rw [List.length_take] at h
  rw [rleDetectRun, List.length_cons]
  omega

/-- A detected run is a run. -/
theorem take_rleDetectRun (b : UInt8) (buf : Bytes) :
    (b :: buf).take (rleDetectRun (b :: buf)) = List.replicate (rleDetectRun (b :: buf)) b := by
  rw [List.eq_replicate_iff]
  refine ⟨List.length_take_of_le (rleDetectRun_le_length b buf), fun a ha => ?_⟩
  rw [rleDetectRun, Nat.add_comm, List.take_succ_cons] at ha
  rcases List.mem_cons.mp ha with rfl | ha
  · rfl
  · have hprefix : ((buf.take (braRleMaxRuns - 1)).takeWhile (· = b)) <+: buf :=
      (List.takeWhile_prefix _).trans (List.take_prefix _ _)
    rw [← List.prefix_iff_eq_take.mp hprefix] at ha
    simpa using List.mem_takeWhile_imp ha

theorem le_rleLiteralSize (litSize : Nat) (buf : Bytes) : litSize ≤ rleLiteralSize litSize buf := by
  induction buf generalizing litSize with
  | nil => exact Nat.le_refl _
  | cons b buf ih =>
    have := ih (litSize + 1)
    rw [rleLiteralSize]
    split <;> [skip; split] <;> omega

theorem rleLiteralSize_le_max {litSize : Nat} (h : litSize < braRleMaxRuns) (buf : Bytes) :
    rleLiteralSize litSize buf ≤ braRleMaxRuns := by
  induction buf generalizing litSize with
  | nil => exact Nat.le_of_lt h
  | cons b buf ih =>
    rw [rleLiteralSize]
    split
    · exact Nat.le_of_lt h
    · split
      · omega
      · exact ih (by omega)

theorem rleLiteralSize_le_length (litSize : Nat) (buf : Bytes) :
    rleLiteralSize litSize buf ≤ litSize + buf.length := by
  induction buf generalizing litSize with
  | nil => exact Nat.le_refl _
  | cons b buf ih =>
    have := ih (litSize + 1)
    rw [rleLiteralSize, List.length_cons]
    split <;> [skip; split] <;> omega

theorem rleNextBlock_of_run {b : UInt8} {buf : Bytes}
    (hrun : rleDetectRun (b :: buf) ≥ braRleMinRuns) :
    rleNextBlock (b :: buf) = (.run (rleDetectRun (b :: buf)) b, rleDetectRun (b :: buf)) := by
  simp only [rleNextBlock, if_pos hrun, List.headD_cons]

theorem rleNextBlock_of_literal {b : UInt8} {buf : Bytes}
    (hrun : ¬ rleDetectRun (b :: buf) ≥ braRleMinRuns) :
    rleNextBlock (b :: buf) =
      (.literal ((b :: buf).take (rleLiteralSize (rleDetectRun (b :: buf))
          ((b :: buf).drop (rleDetectRun (b :: buf))))),
        rleLiteralSize (rleDetectRun (b :: buf))
          ((b :: buf).drop (rleDetectRun (b :: buf)))) := by
  simp only [rleNextBlock, if_neg hrun]

/-- The size of a literal block at the start of a buffer. -/
theorem rleLiteral_bounds {b : UInt8} {buf : Bytes}
    (hrun : ¬ rleDetectRun (b :: buf) ≥ braRleMinRuns) :
    rleDetectRun (b :: buf) ≤ rleLiteralSize (rleDetectRun (b :: buf))
        ((b :: buf).drop (rleDetectRun (b :: buf))) ∧
      rleLiteralSize (rleDetectRun (b :: buf))
        ((b :: buf).drop (rleDetectRun (b :: buf))) ≤ (b :: buf).length ∧
      rleLiteralSize (rleDetectRun (b :: buf))
        ((b :: buf).drop (rleDetectRun (b :: buf))) ≤ braRleMaxRuns := by
  have hlen := rleDetectRun_le_length b buf
  have hend := rleLiteralSize_le_length (rleDetectRun (b :: buf))
    ((b :: buf).drop (rleDetectRun (b :: buf)))
  rw [List.length_drop] at hend
  have hlt : rleDetectRun (b :: buf) < braRleMaxRuns := by
    simp only [braRleMinRuns, braRleMaxRuns] at *
    omega
  exact ⟨le_rleLiteralSize _ _, by omega, rleLiteralSize_le_max hlt _⟩

/-- One round of the encoder: a valid block for a nonempty piece of the buffer. -/
theorem rleNextBlock_spec (b : UInt8) (buf : Bytes) :
    (rleNextBlock (b :: buf)).1.Valid ∧ 0 < (rleNextBlock (b :: buf)).2 ∧
      (rleNextBlock (b :: buf)).1.expand = (b :: buf).take (rleNextBlock (b :: buf)).2 := by
  have hpos := rleDetectRun_pos (b :: buf)
  by_cases hrun : rleDetectRun (b :: buf) ≥ braRleMinRuns
  · have hmax := rleDetectRun_le_max (b :: buf)
    rw [rleNextBlock_of_run hrun]
    rw [braRleMinRuns] at hrun
    exact ⟨⟨by omega, hmax⟩, hpos, (take_rleDetectRun b buf).symm⟩
  · obtain ⟨hle, hsize, hmax⟩ := rleLiteral_bounds hrun
    rw [rleNextBlock_of_literal hrun]
    refine ⟨⟨?_, ?_⟩, Nat.lt_of_lt_of_le hpos hle, rfl⟩
    · rw [List.length_take_of_le hsize]
      exact Nat.lt_of_lt_of_le hpos hle
    · rw [List.length_take_of_le hsize]
      exact hmax

theorem rleEncodeBlocks_valid (fuel : Nat) (buf : Bytes) :
    ∀ block ∈ rleEncodeBlocks fuel buf, block.Valid := by
  induction fuel generalizing buf with
  | zero => simp [rleEncodeBlocks]
  | succ fuel ih =>
    cases buf with
    | nil => simp [rleEncodeBlocks]
    | cons b buf =>
      exact List.forall_mem_cons.mpr ⟨(rleNextBlock_spec b buf).1, ih _⟩

theorem rleEncodeBlocks_expand {fuel : Nat} {buf : Bytes} (hfuel : buf.length ≤ fuel) :
    (rleEncodeBlocks fuel buf).flatMap RleBlock.expand = buf := by
  induction fuel generalizing buf with
  | zero =>
    rw [List.eq_nil_of_length_eq_zero (Nat.le_zero.mp hfuel)]
    rfl
  | succ fuel ih =>
    cases buf with
    | nil => rfl
    | cons b buf =>
      obtain ⟨-, hpos, hexpand⟩ := rleNextBlock_spec b buf
      have hlen : ((b :: buf).drop (rleNextBlock (b :: buf)).2).length ≤ fuel := by
        rw [List.length_drop]
        omega
      rw [rleEncodeBlocks, List.flatMap_cons, ih hlen, hexpand, List.take_append_drop]

/-- A literal block ends where it is full, at the end of the buffer or before a run. -/
theorem rleLiteralSize_stop (litSize : Nat) (buf : Bytes) :
    rleLiteralSize litSize buf = braRleMaxRuns ∨
      rleLiteralSize litSize buf = litSize + buf.length ∨
        rleDetectRun (buf.drop (rleLiteralSize litSize buf - litSize)) ≥ braRleMinRuns := by
  induction buf generalizing litSize with
  | nil => exact Or.inr (Or.inl rfl)
  | cons b buf ih =>
    rw [rleLiteralSize]
    split
    · rename_i hrun
      rw [Nat.sub_self]
      exact Or.inr (Or.inr hrun)
    · split
      · rename_i hfull
        exact Or.inl hfull
      · have hle := le_rleLiteralSize (litSize + 1) buf
        rcases ih (litSize + 1) with h | h | h
        · exact Or.inl h
        · exact Or.inr (Or.inl (by rw [h, List.length_cons]; omega))
        · refine Or.inr (Or.inr ?_)
          have hsub : rleLiteralSize (litSize + 1) buf - litSize =
              rleLiteralSize (litSize + 1) buf - (litSize + 1) + 1 := by omega
          rw [hsub, List.drop_succ_cons]
          exact h

/-- **Expansion is at most a byte in 128.**  A run saves the byte that the literal
block before it may have cost, which is why a buffer that starts with a run does better. -/
theorem rleEncodeBlocks_length_le (fuel : Nat) (buf : Bytes) :
    ((rleEncodeBlocks fuel buf).flatMap RleBlock.encode).length ≤
        buf.length + (buf.length + 127) / 128 ∧
      (braRleMinRuns ≤ rleDetectRun buf →
        ((rleEncodeBlocks fuel buf).flatMap RleBlock.encode).length ≤
          buf.length - 1 + (buf.length + 127) / 128) := by
  induction fuel generalizing buf with
  | zero => simp [rleEncodeBlocks]
  | succ fuel ih =>
    cases buf with
    | nil => simp [rleEncodeBlocks]
    | cons b buf =>
      have hmax := rleDetectRun_le_max (b :: buf)
      have hlen := rleDetectRun_le_length b buf
      rw [rleEncodeBlocks, List.flatMap_cons, List.length_append]
      by_cases hrun : rleDetectRun (b :: buf) ≥ braRleMinRuns
      · rw [rleNextBlock_of_run hrun]
        have hrest := (ih ((b :: buf).drop (rleDetectRun (b :: buf)))).1
        rw [List.length_drop] at hrest
        simp only [RleBlock.encode, List.length_cons, List.length_nil, braRleMinRuns,
          braRleMaxRuns] at *
        omega
      · rw [rleNextBlock_of_literal hrun]
        obtain ⟨hle, hsize, hmax⟩ := rleLiteral_bounds hrun
        have hstop := rleLiteralSize_stop (rleDetectRun (b :: buf))
          ((b :: buf).drop (rleDetectRun (b :: buf)))
        rw [List.drop_drop, List.length_drop] at hstop
        generalize rleLiteralSize (rleDetectRun (b :: buf))
          ((b :: buf).drop (rleDetectRun (b :: buf))) = litSize at *
        have hpos := rleDetectRun_pos (b :: buf)
        obtain ⟨hrest, hrest'⟩ := ih ((b :: buf).drop litSize)
        rw [List.length_drop] at hrest hrest'
        dsimp only
        rw [RleBlock.encode, List.length_cons, List.length_take_of_le hsize]
        refine ⟨?_, fun h => absurd h hrun⟩
        -- a literal block ends when it is full, at the end of the buffer or before a run
        rcases hstop with hfull | hend | hrun'
        · rw [braRleMaxRuns] at hfull
          omega
        · omega
        · rw [Nat.add_sub_cancel' hle] at hrun'
          have := hrest' hrun'
          omega

theorem rleEncodeBlocks_ne_nil {buf : Bytes} (hne : buf ≠ []) :
    rleEncodeBlocks buf.length buf ≠ [] := by
  obtain ⟨b, buf, rfl⟩ := List.exists_cons_of_ne_nil hne
  exact List.cons_ne_nil _ _

/-- Encoding a nonempty buffer succeeds, with a nonempty result. -/
theorem braRleEncode_eq_some {buf : Bytes} (hne : buf ≠ []) :
    braRleEncode buf = some ((rleEncodeBlocks buf.length buf).flatMap RleBlock.encode) ∧
      (rleEncodeBlocks buf.length buf).flatMap RleBlock.encode ≠ [] := by
  obtain ⟨block, blocks, hblocks⟩ :=
    List.exists_cons_of_ne_nil (rleEncodeBlocks_ne_nil hne)
  have hencode : (rleEncodeBlocks buf.length buf).flatMap RleBlock.encode ≠ [] := by
    rw [hblocks, List.flatMap_cons]
    exact List.append_ne_nil_of_left_ne_nil block.encode_ne_nil _
  refine ⟨?_, hencode⟩
  have hsize : ((rleEncodeBlocks buf.length buf).flatMap RleBlock.encode).length ≠ 0 :=
    fun h => hencode (List.eq_nil_of_length_eq_zero h)
  rw [braRleEncode, rleEncodeComputeSize_eq, if_neg hsize]

/-- **Run-length round trip.** -/
theorem braRleDecode_braRleEncode {buf : Bytes} (hne : buf ≠ []) {enc : Bytes}
    (h : braRleEncode buf = some enc) : braRleDecode enc = some buf := by
  rw [(braRleEncode_eq_some hne).1] at h
  obtain rfl := Option.some.inj h
  exact braRleDecode_eq_some_iff.mpr ⟨hne, _, rleEncodeBlocks_valid _ _, rfl,
    (rleEncodeBlocks_expand (Nat.le_refl _)).symm⟩

/-! ## Buffers without runs -/

/-- No three equal bytes in a row. -/
def NoTriple (buf : Bytes) : Prop := ∀ pre a rest, buf ≠ pre ++ a :: a :: a :: rest

theorem NoTriple.append_right (pre : Bytes) {buf : Bytes} (h : NoTriple (pre ++ buf)) : NoTriple buf := by
  rintro pre' a rest rfl
  exact h (pre ++ pre') a rest (List.append_assoc _ _ _).symm

theorem NoTriple.drop {buf : Bytes} (h : NoTriple buf) (n : Nat) : NoTriple (buf.drop n) :=
  NoTriple.append_right (buf.take n) ((List.take_append_drop n buf).symm ▸ h)

theorem NoTriple.rleDetectRun_lt {buf : Bytes} (h : NoTriple buf) :
    rleDetectRun buf < braRleMinRuns := by
  cases buf with
  | nil => decide
  | cons b buf =>
    rw [← Nat.not_le]
    intro hrun
    have htake := congrArg (List.take braRleMinRuns) (take_rleDetectRun b buf)
    rw [List.take_take, List.take_replicate, Nat.min_eq_left hrun] at htake
    refine h [] b ((b :: buf).drop braRleMinRuns) ?_
    conv => lhs; rw [← List.take_append_drop braRleMinRuns (b :: buf), htake]
    rfl

theorem NoTriple.rleLiteralSize_eq {buf : Bytes} (h : NoTriple buf) {litSize : Nat}
    (hlit : litSize < braRleMaxRuns) :
    rleLiteralSize litSize buf = min braRleMaxRuns (litSize + buf.length) := by
  induction buf generalizing litSize with
  | nil => rw [rleLiteralSize, List.length_nil]; omega
  | cons b buf ih =>
    rw [rleLiteralSize, if_neg (Nat.not_le.mpr h.rleDetectRun_lt), List.length_cons]
    split
    · omega
    · rw [ih (NoTriple.append_right [b] h) (by omega)]
      omega

/-- Without runs every round makes a literal block, which is full up to the last. -/
theorem NoTriple.rleNextBlock_eq {b : UInt8} {buf : Bytes} (h : NoTriple (b :: buf)) :
    rleNextBlock (b :: buf) =
      (.literal ((b :: buf).take (min braRleMaxRuns (b :: buf).length)),
        min braRleMaxRuns (b :: buf).length) := by
  have hrun := Nat.not_le.mpr h.rleDetectRun_lt
  have hle := rleDetectRun_le_length b buf
  have hlt : rleDetectRun (b :: buf) < braRleMaxRuns := by
    simp only [braRleMinRuns, braRleMaxRuns] at *
    omega
  have hnext := rleNextBlock_of_literal hrun
  rwa [(h.drop _).rleLiteralSize_eq hlt, List.length_drop, Nat.add_sub_cancel' hle] at hnext

/-- **Expansion.**  A buffer without three equal bytes in a row grows by a byte for
every 128 it has. -/
theorem NoTriple.rleEncodeBlocks_length {fuel : Nat} {buf : Bytes} (h : NoTriple buf)
    (hfuel : buf.length ≤ fuel) :
    ((rleEncodeBlocks fuel buf).flatMap RleBlock.encode).length =
      buf.length + (buf.length + 127) / 128 := by
  induction fuel generalizing buf with
  | zero =>
    rw [List.eq_nil_of_length_eq_zero (Nat.le_zero.mp hfuel)]
    rfl
  | succ fuel ih =>
    cases buf with
    | nil => rfl
    | cons b buf =>
      have hnext := h.rleNextBlock_eq
      have ih := ih (h.drop (min braRleMaxRuns (b :: buf).length))
      rw [List.length_drop] at ih
      simp only [rleEncodeBlocks, hnext, List.flatMap_cons, List.length_append]
      rw [RleBlock.encode, List.length_cons, List.length_take]
      simp only [braRleMaxRuns] at *
      have hcons : (b :: buf).length = buf.length + 1 := rfl
      rw [ih (by omega)]
      omega

/-- Cut into full literal blocks, a buffer gets only one kind of control byte. -/
theorem NoTriple.mem_rleEncodeBlocks {fuel : Nat} {buf : Bytes} (h : NoTriple buf)
    (hdvd : braRleMaxRuns ∣ buf.length) {s : UInt8}
    (hs : s ∈ (rleEncodeBlocks fuel buf).flatMap RleBlock.encode) : s = 127 ∨ s ∈ buf := by
  induction fuel generalizing buf with
  | zero => simp [rleEncodeBlocks] at hs
  | succ fuel ih =>
    cases buf with
    | nil => simp [rleEncodeBlocks] at hs
    | cons b buf =>
      have hmin : min braRleMaxRuns (b :: buf).length = braRleMaxRuns :=
        Nat.min_eq_left (Nat.le_of_dvd (Nat.succ_pos _) hdvd)
      have hnext := h.rleNextBlock_eq
      rw [hmin] at hnext
      simp only [rleEncodeBlocks, hnext, List.flatMap_cons, List.mem_append] at hs
      rcases hs with hs | hs
      · rw [RleBlock.encode, List.length_take, hmin] at hs
        rcases List.mem_cons.mp hs with rfl | hs
        · exact Or.inl rfl
        · exact Or.inr (List.mem_of_mem_take hs)
      · have hdvd' : braRleMaxRuns ∣ ((b :: buf).drop braRleMaxRuns).length := by
          rw [List.length_drop]
          exact Nat.dvd_sub hdvd (Nat.dvd_refl _)
        exact (ih (h.drop _) hdvd' hs).imp id List.mem_of_mem_drop

end BrArchive
