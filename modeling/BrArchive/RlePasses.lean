import BrArchive.Rle
import BrArchive.WhileLoop

/-! # The passes of the run-length coder

`bra_rle.c` goes over its input twice in either direction: the first pass computes how many
bytes there will be, the second one writes them to a buffer of that size.  Here each pass
is a loop of its own, with its own counters, and an access outside the input or the buffer
fails.  Both passes take block after block, so they never disagree and never fail.
-/
namespace BrArchive
open WhileLoop

/-- A read of `n` bytes at position `i`. -/
def readBytes (buf : Bytes) (i n : Nat) : Option Bytes :=
  if i + n ≤ buf.length then some ((buf.drop i).take n) else none

/-- A write behind what has been written to a buffer of `s` bytes. -/
def putBytes (s : Nat) (out bytes : Bytes) : Option Bytes :=
  if out.length + bytes.length ≤ s then some (out ++ bytes) else none

/-- What `bra_rle_encode` and `bra_rle_decode` return, and what they leave in `out_buf` and
`out_buf_size`. -/
structure RleResult where
  res : Bool
  outBuf : Option Bytes
  outBufSize : Nat
  deriving DecidableEq, Repr

/-! ## The passes of the encoder -/

/-- The loop of `_bra_rle_encode_compute_size` that extends a literal block: the bytes from
`i` on, `i` and `lit_size`. -/
def rleSizeLiteral : Bytes → Nat → Nat → Nat × Nat
  | [], i, litSize => (i, litSize)
  | b :: buf, i, litSize =>
    if rleDetectRun (b :: buf) ≥ braRleMinRuns then (i, litSize)
    else if litSize + 1 = braRleMaxRuns then (i + 1, litSize + 1)
    else rleSizeLiteral buf (i + 1) (litSize + 1)

/-- The same loop of `bra_rle_encode`, where `lit_length` is a `uint8_t`. -/
def rleWriteLiteral : Bytes → Nat → UInt8 → Nat × UInt8
  | [], i, litLength => (i, litLength)
  | b :: buf, i, litLength =>
    if rleDetectRun (b :: buf) ≥ braRleMinRuns then (i, litLength)
    else if (litLength + 1).toNat = braRleMaxRuns then (i + 1, litLength + 1)
    else rleWriteLiteral buf (i + 1) (litLength + 1)

/-- The state of a sizing pass. -/
structure RleSizing where
  i : Nat
  size : Nat

/-- One round of `_bra_rle_encode_compute_size`. -/
def rleEncodeSizeRound (buf : Bytes) (st : RleSizing) : Option RleSizing :=
  let run := rleDetectRun (buf.drop st.i)
  if run ≥ braRleMinRuns then some ⟨st.i + run, st.size + 2⟩
  else
    let (i, litSize) := rleSizeLiteral (buf.drop (st.i + run)) (st.i + run) run
    some ⟨i, st.size + (1 + litSize)⟩

/-- `_bra_rle_encode_compute_size`. -/
def rleEncodeSizePass (buf : Bytes) : Option Nat :=
  (run (fun st => st.i < buf.length) (rleEncodeSizeRound buf) buf.length ⟨0, 0⟩).map RleSizing.size

/-- The state of a writing pass: the position, and what has been written. -/
structure RleWriting where
  i : Nat
  out : Bytes

/-- One round of `bra_rle_encode`, writing to a buffer of `s` bytes. -/
def rleEncodeRound (buf : Bytes) (s : Nat) (st : RleWriting) : Option RleWriting :=
  let run := rleDetectRun (buf.drop st.i)
  if run ≥ braRleMinRuns then do
    let out ← putBytes s st.out [UInt8.ofInt (-((run : Int) - 1))]
    let value ← buf[st.i]?
    let out ← putBytes s out [value]
    return ⟨st.i + run, out⟩
  else do
    let (i, litLength) := rleWriteLiteral (buf.drop (st.i + run)) (st.i + run) (UInt8.ofNat run)
    let out ← putBytes s st.out [litLength - 1]
    let lit ← readBytes buf st.i litLength.toNat
    let out ← putBytes s out lit
    return ⟨i, out⟩

/-- `bra_rle_encode` with its passes. -/
def braRleEncodePasses (buf : Bytes) : Option RleResult := do
  let s ← rleEncodeSizePass buf
  if s = 0 then return ⟨false, none, 0⟩
  else
    let st ← run (fun st => st.i < buf.length) (rleEncodeRound buf s) buf.length ⟨0, []⟩
    return ⟨true, some st.out, s⟩

/-! ## The passes of the decoder -/

/-- The state of `bra_rle_decode_compute_size`; on an error it returns at once. -/
structure RleScanning where
  i : Nat
  size : Nat
  error : Bool

/-- One round of `bra_rle_decode_compute_size`. -/
def rleDecodeSizeRound (buf : Bytes) (st : RleScanning) : Option RleScanning := do
  let b ← buf[st.i]?
  let control := rleControl b
  let i := st.i + 1
  if 0 ≤ control then
    let count := (control + 1).toNat
    if i + count > buf.length then return { st with error := true }
    else return ⟨i + count, st.size + count, false⟩
  else if control ≥ braRleCtlRuns then
    let count := (1 - control).toNat
    if i ≥ buf.length then return { st with error := true }
    else return ⟨i + 1, st.size + count, false⟩
  else return { st with i }

/-- `bra_rle_decode_compute_size`: 0 on error. -/
def rleDecodeSizePass (buf : Bytes) : Option Nat :=
  (run (fun st => !st.error && decide (st.i < buf.length)) (rleDecodeSizeRound buf) buf.length
    ⟨0, 0, false⟩).map fun st => if st.error then 0 else st.size

/-- The state of the loop of `bra_rle_decode`. -/
structure RleReading where
  i : Nat
  out : Bytes
  error : Bool

/-- One round of `bra_rle_decode`, writing to a buffer of `s` bytes. -/
def rleDecodeRound (buf : Bytes) (s : Nat) (st : RleReading) : Option RleReading := do
  let b ← buf[st.i]?
  let control := rleControl b
  let i := st.i + 1
  if 0 ≤ control then
    let count := (control + 1).toNat
    if i + count > buf.length then return { st with error := true }
    else
      let lit ← readBytes buf i count
      let out ← putBytes s st.out lit
      return ⟨i + count, out, false⟩
  else if control ≥ braRleCtlRuns then
    let count := (1 - control).toNat
    if i ≥ buf.length then return { st with error := true }
    else
      let v ← buf[i]?
      let out ← putBytes s st.out (List.replicate count v)
      return ⟨i + 1, out, false⟩
  else return { st with i }

/-- `bra_rle_decode` with its passes. -/
def braRleDecodePasses (buf : Bytes) : Option RleResult := do
  let s ← rleDecodeSizePass buf
  if s = 0 then return ⟨false, none, 0⟩
  else
    let st ← run (fun st => !st.error && decide (st.i < buf.length)) (rleDecodeRound buf s)
      buf.length ⟨0, [], false⟩
    if st.error then return ⟨false, none, 0⟩ else return ⟨true, some st.out, s⟩

/-! ## A round of the encoder -/

theorem readBytes_eq {buf : Bytes} {i n : Nat} (h : i + n ≤ buf.length) :
    readBytes buf i n = some ((buf.drop i).take n) := if_pos h

theorem putBytes_eq {s : Nat} {out bytes : Bytes} (h : out.length + bytes.length ≤ s) :
    putBytes s out bytes = some (out ++ bytes) := if_pos h

theorem rleSizeLiteral_eq (buf : Bytes) (i litSize : Nat) :
    rleSizeLiteral buf i litSize =
      (i + (rleLiteralSize litSize buf - litSize), rleLiteralSize litSize buf) := by
  induction buf generalizing i litSize with
  | nil => simp [rleSizeLiteral, rleLiteralSize]
  | cons b buf ih =>
    have hle := le_rleLiteralSize (litSize + 1) buf
    rw [rleSizeLiteral, rleLiteralSize]
    split
    · rw [Nat.sub_self, Nat.add_zero]
    · split
      · rw [Nat.add_sub_cancel_left]
      · rw [ih]
        exact Prod.ext (by simp only; omega) rfl

/-- A literal block ends before its length can wrap. -/
theorem rleWriteLiteral_eq (buf : Bytes) (i : Nat) {litSize : Nat} (h : litSize < braRleMaxRuns) :
    rleWriteLiteral buf i (UInt8.ofNat litSize) =
      (i + (rleLiteralSize litSize buf - litSize), UInt8.ofNat (rleLiteralSize litSize buf)) := by
  induction buf generalizing i litSize with
  | nil => simp [rleWriteLiteral, rleLiteralSize]
  | cons b buf ih =>
    have hle := le_rleLiteralSize (litSize + 1) buf
    have hsucc : UInt8.ofNat litSize + 1 = UInt8.ofNat (litSize + 1) := (UInt8.ofNat_add litSize 1).symm
    have htoNat : (UInt8.ofNat (litSize + 1)).toNat = litSize + 1 :=
      toNat_ofNat_of_lt (by rw [braRleMaxRuns] at h; omega)
    rw [rleWriteLiteral, rleLiteralSize, hsucc, htoNat]
    split
    · rw [Nat.sub_self, Nat.add_zero]
    · split
      · rw [Nat.add_sub_cancel_left]
      · rw [ih _ (by omega)]
        exact Prod.ext (by simp only; omega) rfl

theorem exists_drop_eq_cons {buf : Bytes} {i : Nat} (h : i < buf.length) :
    ∃ b rest, buf.drop i = b :: rest ∧ buf[i]? = some b := by
  refine ⟨buf[i], buf.drop (i + 1), List.drop_eq_getElem_cons h, List.getElem?_eq_getElem h⟩

/-- **A round of the sizing pass** counts the block at its position. -/
theorem rleEncodeSizeRound_eq {buf : Bytes} (st : RleSizing) (h : st.i < buf.length) :
    rleEncodeSizeRound buf st = some ⟨st.i + (rleNextBlock (buf.drop st.i)).2,
      st.size + (rleNextBlock (buf.drop st.i)).1.encode.length⟩ := by
  obtain ⟨b, rest, hdrop, -⟩ := exists_drop_eq_cons h
  simp only [rleEncodeSizeRound, ← List.drop_drop, hdrop]
  by_cases hrun : rleDetectRun (b :: rest) ≥ braRleMinRuns
  · rw [if_pos hrun, rleNextBlock_of_run hrun]
    rfl
  · obtain ⟨hle, hlen, -⟩ := rleLiteral_bounds hrun
    rw [if_neg hrun, rleNextBlock_of_literal hrun, rleSizeLiteral_eq]
    simp only [RleBlock.encode, List.length_cons, List.length_take_of_le hlen, Option.some.injEq,
      RleSizing.mk.injEq]
    omega

/-- **A round of the writing pass** writes the block, if there is room for it. -/
theorem rleEncodeRound_eq {buf : Bytes} {s : Nat} (st : RleWriting) (h : st.i < buf.length)
    (hroom : st.out.length + (rleNextBlock (buf.drop st.i)).1.encode.length ≤ s) :
    rleEncodeRound buf s st = some ⟨st.i + (rleNextBlock (buf.drop st.i)).2,
      st.out ++ (rleNextBlock (buf.drop st.i)).1.encode⟩ := by
  obtain ⟨b, rest, hdrop, hb⟩ := exists_drop_eq_cons h
  have hrest := congrArg List.length hdrop
  rw [List.length_drop] at hrest
  rw [hdrop] at hroom
  simp only [rleEncodeRound, ← List.drop_drop, hdrop]
  by_cases hrun : rleDetectRun (b :: rest) ≥ braRleMinRuns
  · rw [rleNextBlock_of_run hrun] at hroom ⊢
    simp only [RleBlock.encode, List.length_cons, List.length_nil] at hroom
    -- a run: its control byte, then its value
    rw [if_pos hrun, putBytes_eq (by simp only [List.length_cons, List.length_nil]; omega), hb]
    simp only [Option.bind_eq_bind, Option.bind_some]
    rw [putBytes_eq (by simp only [List.length_append, List.length_cons, List.length_nil]; omega)]
    simp [RleBlock.encode]
  · obtain ⟨hle, hlen, hmax⟩ := rleLiteral_bounds hrun
    rw [rleNextBlock_of_literal hrun] at hroom ⊢
    have hlt : rleDetectRun (b :: rest) < braRleMaxRuns := by
      simp only [braRleMinRuns, braRleMaxRuns] at hrun ⊢
      omega
    rw [if_neg hrun, rleWriteLiteral_eq _ _ hlt]
    generalize rleLiteralSize (rleDetectRun (b :: rest))
      ((b :: rest).drop (rleDetectRun (b :: rest))) = litSize at *
    have hpos := rleDetectRun_pos (b :: rest)
    -- a literal block is at most 128 bytes, which its size in a uint8_t can hold
    have htoNat : (UInt8.ofNat litSize).toNat = litSize :=
      toNat_ofNat_of_lt (by rw [braRleMaxRuns] at hmax; omega)
    have hpred : UInt8.ofNat litSize - 1 = UInt8.ofNat (litSize - 1) := by
      rw [UInt8.ofNat_sub (by omega)]
      rfl
    simp only [RleBlock.encode, List.length_cons, List.length_take_of_le hlen] at hroom ⊢
    rw [putBytes_eq (by simp only [List.length_cons, List.length_nil]; omega)]
    simp only [Option.bind_eq_bind, Option.bind_some, htoNat]
    rw [readBytes_eq (by omega), Option.bind_some, putBytes_eq (by
      simp only [List.length_append, List.length_cons, List.length_nil, List.length_drop,
        List.length_take]
      omega)]
    simp only [Option.bind_some, Option.pure_def, Option.some.injEq, RleWriting.mk.injEq, hpred,
      hdrop, List.append_assoc, List.cons_append, List.nil_append, and_true]
    omega

/-! ## The passes of the encoder in step -/

theorem rleNextBlock_le (b : UInt8) (buf : Bytes) :
    (rleNextBlock (b :: buf)).2 ≤ (b :: buf).length := by
  by_cases hrun : rleDetectRun (b :: buf) ≥ braRleMinRuns
  · rw [rleNextBlock_of_run hrun]
    exact rleDetectRun_le_length b buf
  · rw [rleNextBlock_of_literal hrun]
    exact (rleLiteral_bounds hrun).2.1

theorem rleEncodeSizePass_run {buf : Bytes} (fuel : Nat) {i size : Nat}
    (hfuel : buf.length - i ≤ fuel) (hi : i ≤ buf.length) :
    run (fun st => st.i < buf.length) (rleEncodeSizeRound buf) fuel ⟨i, size⟩ =
      some ⟨buf.length, size + ((rleEncodeBlocks fuel (buf.drop i)).map
        fun block => block.encode.length).sum⟩ := by
  induction fuel generalizing i size with
  | zero =>
    obtain rfl : i = buf.length := by omega
    rw [run_of_not (by simp)]
    rfl
  | succ fuel ih =>
    rcases Nat.lt_or_ge i buf.length with hlt | hge
    · have hround := rleEncodeSizeRound_eq ⟨i, size⟩ hlt
      obtain ⟨b, rest, hdrop, -⟩ := exists_drop_eq_cons hlt
      have hrest := congrArg List.length hdrop
      rw [List.length_drop] at hrest
      obtain ⟨-, hpos, -⟩ := rleNextBlock_spec b rest
      have hle := rleNextBlock_le b rest
      rw [run_succ_of (by simpa using hlt), hround, hdrop, Option.bind_some,
        ih (by simp only; omega) (by simp only; omega)]
      simp only [rleEncodeBlocks, List.map_cons, List.sum_cons, ← List.drop_drop, hdrop,
        Nat.add_assoc]
    · obtain rfl : i = buf.length := by omega
      rw [run_of_not (by simp), List.drop_length]
      rfl

theorem rleEncodeLoop_run {buf : Bytes} {s : Nat} (fuel : Nat) {i : Nat} {out : Bytes}
    (hfuel : buf.length - i ≤ fuel) (hi : i ≤ buf.length)
    (hroom : out.length + ((rleEncodeBlocks fuel (buf.drop i)).flatMap RleBlock.encode).length ≤ s) :
    run (fun st => st.i < buf.length) (rleEncodeRound buf s) fuel ⟨i, out⟩ =
      some ⟨buf.length, out ++ (rleEncodeBlocks fuel (buf.drop i)).flatMap RleBlock.encode⟩ := by
  induction fuel generalizing i out with
  | zero =>
    obtain rfl : i = buf.length := by omega
    rw [run_of_not (by simp)]
    simp [rleEncodeBlocks]
  | succ fuel ih =>
    rcases Nat.lt_or_ge i buf.length with hlt | hge
    · obtain ⟨b, rest, hdrop, -⟩ := exists_drop_eq_cons hlt
      have hrest := congrArg List.length hdrop
      rw [List.length_drop] at hrest
      obtain ⟨-, hpos, -⟩ := rleNextBlock_spec b rest
      have hle := rleNextBlock_le b rest
      have hnext : buf.drop (i + (rleNextBlock (b :: rest)).2) =
          (b :: rest).drop (rleNextBlock (b :: rest)).2 := by rw [← List.drop_drop, hdrop]
      simp only [hdrop, rleEncodeBlocks, List.flatMap_cons, List.length_append] at hroom ⊢
      have hround := rleEncodeRound_eq (s := s) ⟨i, out⟩ hlt (by
        rw [hdrop]
        simp only
        omega)
      rw [run_succ_of (by simpa using hlt), hround, hdrop, Option.bind_some,
        ih (by simp only; omega) (by simp only; omega) (by
          rw [hnext]
          simp only [List.length_append]
          omega), hnext, List.append_assoc]
    · obtain rfl : i = buf.length := by omega
      rw [run_of_not (by simp), List.drop_length]
      simp [rleEncodeBlocks]

theorem rleEncodeSizePass_eq (buf : Bytes) :
    rleEncodeSizePass buf = some (rleEncodeComputeSize buf) := by
  rw [rleEncodeSizePass, rleEncodeSizePass_run buf.length (by omega) (Nat.zero_le _)]
  simp [rleEncodeComputeSize]

/-- **The encoder** writes what it has made room for, and nothing else. -/
theorem braRleEncodePasses_eq (buf : Bytes) :
    braRleEncodePasses buf = some ⟨(braRleEncode buf).isSome, braRleEncode buf,
      rleEncodeComputeSize buf⟩ := by
  have hroom : ([] : Bytes).length +
      ((rleEncodeBlocks buf.length (buf.drop 0)).flatMap RleBlock.encode).length ≤
        rleEncodeComputeSize buf := by
    rw [rleEncodeComputeSize_eq, List.drop_zero, List.length_nil, Nat.zero_add]
  have hrun := rleEncodeLoop_run buf.length (Nat.sub_le _ _) (Nat.zero_le _) hroom
  rw [braRleEncodePasses, rleEncodeSizePass_eq]
  simp only [Option.bind_eq_bind, Option.bind_some, hrun, braRleEncode, Option.pure_def,
    List.drop_zero, List.nil_append]
  split
  · rename_i hzero
    rw [hzero]
    rfl
  · rfl

/-! ## A round of the decoder -/

section Decoder
variable {buf : Bytes} {i : Nat} {b : UInt8} {rest : Bytes}

theorem rleReadBlock_suffix {block : RleBlock} {rest' : Bytes}
    (h : rleReadBlock b rest = some (block, rest')) : rest' <:+ rest := by
  simp only [rleReadBlock] at h
  split at h
  · split at h
    · cases h
    · obtain ⟨-, rfl⟩ := Prod.mk.inj (Option.some.inj h)
      exact List.drop_suffix _ _
  · split at h
    · cases rest with
      | nil => cases h
      | cons v rest =>
        obtain ⟨-, rfl⟩ := Prod.mk.inj (Option.some.inj h)
        exact List.suffix_cons _ _
    · obtain ⟨-, rfl⟩ := Prod.mk.inj (Option.some.inj h)
      exact List.suffix_refl _

/-- What is left after a block is the end of the buffer. -/
theorem drop_of_rleReadBlock {block : RleBlock} {rest' : Bytes} (hdrop : buf.drop i = b :: rest)
    (h : rleReadBlock b rest = some (block, rest')) :
    buf.drop (buf.length - rest'.length) = rest' := by
  have hrest : rest <:+ buf := by
    have hcons : b :: rest <:+ buf := hdrop ▸ List.drop_suffix i buf
    exact (List.suffix_cons b rest).trans hcons
  exact (List.suffix_iff_eq_drop.mp ((rleReadBlock_suffix h).trans hrest)).symm

/-- **A round of the sizing pass** reads one block. -/
theorem rleDecodeSizeRound_eq (size : Nat) (hdrop : buf.drop i = b :: rest) :
    rleDecodeSizeRound buf ⟨i, size, false⟩ =
      match rleReadBlock b rest with
      | none => some ⟨i, size, true⟩
      | some (block, rest') => some ⟨buf.length - rest'.length, size + block.count, false⟩ := by
  have hlt : i < buf.length := by
    rw [← Nat.not_le]
    intro hle
    rw [List.drop_eq_nil_of_le hle] at hdrop
    cases hdrop
  have hb : buf[i]? = some b := by
    rw [← Nat.add_zero i, ← List.getElem?_drop, hdrop]
    rfl
  have hlen := congrArg List.length hdrop
  rw [List.length_drop, List.length_cons] at hlen
  simp only [rleDecodeSizeRound, rleReadBlock, hb, Option.bind_eq_bind, Option.bind_some]
  by_cases hlit : 0 ≤ rleControl b
  · simp only [if_pos hlit]
    by_cases hcount : (rleControl b + 1).toNat > rest.length
    · rw [if_pos hcount, if_pos (by omega)]
      rfl
    · rw [if_neg hcount, if_neg (by omega)]
      simp only [Option.pure_def, RleBlock.count, List.length_drop, List.length_take,
        Option.some.injEq, RleScanning.mk.injEq, and_true]
      omega
  · simp only [if_neg hlit]
    by_cases hrun : rleControl b ≥ braRleCtlRuns
    · simp only [if_pos hrun]
      cases rest with
      | nil =>
        rw [List.length_nil] at hlen
        rw [if_pos (by omega)]
        rfl
      | cons v rest =>
        rw [List.length_cons] at hlen
        rw [if_neg (by omega)]
        simp only [Option.pure_def, RleBlock.count, Option.some.injEq, RleScanning.mk.injEq,
          and_true]
        omega
    · simp only [if_neg hrun, Option.pure_def, RleBlock.count, Option.some.injEq,
        RleScanning.mk.injEq, Nat.add_zero, and_true]
      omega

/-- **A round of the writing pass** writes what the block stands for. -/
theorem rleDecodeRound_eq {s : Nat} (out : Bytes) {rest' : Bytes} {block : RleBlock}
    (hdrop : buf.drop i = b :: rest) (hread : rleReadBlock b rest = some (block, rest'))
    (hroom : out.length + block.count ≤ s) :
    rleDecodeRound buf s ⟨i, out, false⟩ =
      some ⟨buf.length - rest'.length, out ++ block.expand, false⟩ := by
  have hlt : i < buf.length := by
    rw [← Nat.not_le]
    intro hle
    rw [List.drop_eq_nil_of_le hle] at hdrop
    cases hdrop
  have hb : buf[i]? = some b := by
    rw [← Nat.add_zero i, ← List.getElem?_drop, hdrop]
    rfl
  have hlen := congrArg List.length hdrop
  rw [List.length_drop, List.length_cons] at hlen
  have hnext : buf.drop (i + 1) = rest := by rw [← List.drop_drop, hdrop]; rfl
  simp only [rleReadBlock] at hread
  simp only [rleDecodeRound, hb, Option.bind_eq_bind, Option.bind_some]
  split at hread
  · -- a literal block
    rename_i hlit
    split at hread
    · cases hread
    · rename_i hcount
      obtain ⟨rfl, rfl⟩ := Prod.mk.inj (Option.some.inj hread)
      rw [if_pos hlit, if_neg (by omega), readBytes_eq (by omega), Option.bind_some, hnext,
        putBytes_eq hroom]
      simp only [Option.bind_some, Option.pure_def, RleBlock.expand, List.length_drop,
        Option.some.injEq, RleReading.mk.injEq, and_true]
      omega
  · rename_i hlit
    split at hread
    · -- a run, whose value is the next byte
      rename_i hrun
      cases rest with
      | nil => cases hread
      | cons v rest =>
        obtain ⟨rfl, rfl⟩ := Prod.mk.inj (Option.some.inj hread)
        have hv : buf[i + 1]? = some v := by
          rw [← Nat.add_zero (i + 1), ← List.getElem?_drop, hnext]
          rfl
        rw [List.length_cons] at hlen
        rw [if_neg hlit, if_pos hrun, if_neg (by omega), hv, Option.bind_some,
          putBytes_eq (by simpa [RleBlock.count] using hroom)]
        simp only [Option.bind_some, Option.pure_def, RleBlock.expand, Option.some.injEq,
          RleReading.mk.injEq, and_true]
        omega
    · -- the no-op writes nothing
      rename_i hrun
      obtain ⟨rfl, rfl⟩ := Prod.mk.inj (Option.some.inj hread)
      simp only [if_neg hlit, if_neg hrun, Option.pure_def, RleBlock.expand, List.append_nil,
        Option.some.injEq, RleReading.mk.injEq, and_true]
      omega

end Decoder

/-! ## The passes of the decoder in step -/

theorem rleDecodeSizePass_run (buf : Bytes) (fuel i size : Nat)
    (hfuel : buf.length - i ≤ fuel) (hi : i ≤ buf.length) :
    ∃ st, run (fun st => !st.error && decide (st.i < buf.length)) (rleDecodeSizeRound buf) fuel
        ⟨i, size, false⟩ = some st ∧
      match rleReadBlocks fuel (buf.drop i) with
      | none => st.error = true
      | some blocks => st = ⟨buf.length, size + (blocks.map RleBlock.count).sum, false⟩ := by
  induction fuel generalizing i size with
  | zero =>
    obtain rfl : i = buf.length := by omega
    refine ⟨_, run_of_not (by simp) 0, ?_⟩
    simp [rleReadBlocks]
  | succ fuel ih =>
    rcases Nat.lt_or_ge i buf.length with hlt | hge
    · obtain ⟨b, rest, hdrop, -⟩ := exists_drop_eq_cons hlt
      have hlen := congrArg List.length hdrop
      rw [List.length_drop, List.length_cons] at hlen
      have hround := rleDecodeSizeRound_eq size hdrop
      rw [run_succ_of (by simpa using hlt), hround, hdrop, rleReadBlocks]
      cases hread : rleReadBlock b rest with
      -- a block that is cut off sets the error and ends the loop
      | none => exact ⟨_, run_of_not (by simp) fuel, rfl⟩
      | some r =>
        obtain ⟨block, rest'⟩ := r
        have hle := (rleReadBlock_suffix hread).length_le
        have hnext := drop_of_rleReadBlock hdrop hread
        obtain ⟨st, hrun, hst⟩ := ih (buf.length - rest'.length)
          (size + block.count) (by omega) (by omega)
        refine ⟨st, hrun, ?_⟩
        rw [hnext] at hst
        simp only
        cases hblocks : rleReadBlocks fuel rest' with
        | none =>
          rw [hblocks] at hst
          exact hst
        | some blocks =>
          rw [hblocks] at hst
          simpa [Nat.add_assoc] using hst
    · obtain rfl : i = buf.length := by omega
      refine ⟨_, run_of_not (by simp) _, ?_⟩
      rw [List.drop_length]
      simp [rleReadBlocks]

theorem rleDecodeLoop_run {buf : Bytes} {s : Nat} (fuel i : Nat) (out : Bytes)
    {blocks : List RleBlock} (hblocks : rleReadBlocks fuel (buf.drop i) = some blocks)
    (hi : i ≤ buf.length) (hroom : out.length + (blocks.map RleBlock.count).sum ≤ s) :
    run (fun st => !st.error && decide (st.i < buf.length)) (rleDecodeRound buf s) fuel
        ⟨i, out, false⟩ =
      some ⟨buf.length, out ++ blocks.flatMap RleBlock.expand, false⟩ := by
  induction fuel generalizing i out blocks with
  | zero =>
    rcases Nat.lt_or_ge i buf.length with hlt | hge
    · obtain ⟨b, rest, hdrop, -⟩ := exists_drop_eq_cons hlt
      rw [hdrop, rleReadBlocks] at hblocks
      cases hblocks
    · obtain rfl : i = buf.length := by omega
      rw [List.drop_length, rleReadBlocks] at hblocks
      obtain rfl := Option.some.inj hblocks
      rw [run_of_not (by simp), List.flatMap_nil, List.append_nil]
  | succ fuel ih =>
    rcases Nat.lt_or_ge i buf.length with hlt | hge
    · obtain ⟨b, rest, hdrop, -⟩ := exists_drop_eq_cons hlt
      rw [hdrop, rleReadBlocks] at hblocks
      cases hread : rleReadBlock b rest with
      | none =>
        rw [hread] at hblocks
        cases hblocks
      | some r =>
        obtain ⟨block, rest'⟩ := r
        rw [hread] at hblocks
        obtain ⟨blocks, htail, rfl⟩ := Option.map_eq_some_iff.mp hblocks
        have hnext := drop_of_rleReadBlock hdrop hread
        rw [List.map_cons, List.sum_cons] at hroom
        have hround := rleDecodeRound_eq (s := s) out hdrop hread (by omega)
        rw [run_succ_of (by simpa using hlt), hround, Option.bind_some,
          ih _ _ (hnext.symm ▸ htail) (Nat.sub_le _ _) (by
            rw [List.length_append, RleBlock.expand_length]
            omega), List.flatMap_cons, List.append_assoc]
    · obtain rfl : i = buf.length := by omega
      rw [List.drop_length, rleReadBlocks] at hblocks
      obtain rfl := Option.some.inj hblocks
      rw [run_of_not (by simp), List.flatMap_nil, List.append_nil]

theorem rleDecodeSizePass_eq (buf : Bytes) :
    rleDecodeSizePass buf = some (braRleDecodeComputeSize buf) := by
  obtain ⟨st, hrun, hst⟩ := rleDecodeSizePass_run buf buf.length 0 0
    (Nat.sub_le _ 0) (Nat.zero_le _)
  rw [List.drop_zero] at hst
  rw [rleDecodeSizePass, hrun, braRleDecodeComputeSize]
  cases hblocks : rleReadBlocks buf.length buf with
  | none =>
    rw [hblocks] at hst
    simp only [Option.map_some, hst, if_true]
  | some blocks =>
    rw [hblocks] at hst
    obtain rfl := hst
    simp

/-- **The decoder** fits what it writes into what the first pass made room for. -/
theorem braRleDecodePasses_eq (buf : Bytes) :
    braRleDecodePasses buf = some ⟨(braRleDecode buf).isSome, braRleDecode buf,
      braRleDecodeComputeSize buf⟩ := by
  rw [braRleDecodePasses, rleDecodeSizePass_eq]
  simp only [Option.bind_eq_bind, Option.bind_some, braRleDecode]
  split
  · rename_i hzero
    rw [hzero]
    rfl
  · rename_i hzero
    cases hblocks : rleReadBlocks buf.length buf with
    | none => exact absurd (by rw [braRleDecodeComputeSize, hblocks]) hzero
    | some blocks =>
      have hsize : braRleDecodeComputeSize buf = (blocks.map RleBlock.count).sum := by
        rw [braRleDecodeComputeSize, hblocks]
      have hrun := rleDecodeLoop_run (s := braRleDecodeComputeSize buf) buf.length 0 []
        hblocks (Nat.zero_le _) (by rw [hsize, List.length_nil, Nat.zero_add])
      rw [hrun]
      rfl

/-! ## Control bytes -/

/-- The control byte of a block, as the `int8_t` it is read as. -/
def RleBlock.control (block : RleBlock) : Int := rleControl (block.encode.headD 0)

theorem RleBlock.control_literal {lit : Bytes} (h : (RleBlock.literal lit).Valid) :
    (RleBlock.literal lit).control = (lit.length : Int) - 1 := by
  obtain ⟨hpos, hmax⟩ := h
  rw [braRleMaxRuns] at hmax
  have hb := toNat_ofNat_of_lt (n := lit.length - 1) (by omega)
  rw [RleBlock.control, RleBlock.encode, List.headD_cons, rleControl_of_lt (by omega), hb]
  omega

theorem RleBlock.control_run {count : Nat} {v : UInt8} (h : (RleBlock.run count v).Valid) :
    (RleBlock.run count v).control = 1 - (count : Int) := by
  obtain ⟨h2, hmax⟩ := h
  rw [braRleMaxRuns] at hmax
  have hb := toNat_runControl h2 hmax
  rw [RleBlock.control, RleBlock.encode, List.headD_cons, rleControl_of_ge (by omega), hb]
  omega

/-- A block that the encoder may emit: a literal block with a control byte from 0 to 127, or
a run with one from -127 to -2. -/
def RleBlock.Emitted (block : RleBlock) : Prop :=
  match block with
  | literal lit => block.control = (lit.length : Int) - 1 ∧ 0 ≤ block.control ∧ block.control ≤ 127
  | run count _ => block.control = 1 - (count : Int) ∧ -127 ≤ block.control ∧ block.control ≤ -2
  | noop => False

theorem RleBlock.emitted_literal {lit : Bytes} (h : (RleBlock.literal lit).Valid) :
    (RleBlock.literal lit).Emitted := by
  have hcontrol := RleBlock.control_literal h
  obtain ⟨hpos, hmax⟩ := h
  rw [braRleMaxRuns] at hmax
  exact ⟨hcontrol, by omega, by omega⟩

theorem RleBlock.emitted_run {count : Nat} {v : UInt8} (h : (RleBlock.run count v).Valid)
    (hmin : braRleMinRuns ≤ count) : (RleBlock.run count v).Emitted := by
  have hcontrol := RleBlock.control_run h
  obtain ⟨-, hmax⟩ := h
  rw [braRleMaxRuns] at hmax
  rw [braRleMinRuns] at hmin
  exact ⟨hcontrol, by omega, by omega⟩

theorem rleNextBlock_emitted (b : UInt8) (buf : Bytes) : (rleNextBlock (b :: buf)).1.Emitted := by
  obtain ⟨hvalid, -, -⟩ := rleNextBlock_spec b buf
  by_cases hrun : rleDetectRun (b :: buf) ≥ braRleMinRuns
  · rw [rleNextBlock_of_run hrun] at hvalid ⊢
    exact RleBlock.emitted_run hvalid hrun
  · rw [rleNextBlock_of_literal hrun] at hvalid ⊢
    exact RleBlock.emitted_literal hvalid

theorem rleEncodeBlocks_emitted (fuel : Nat) (buf : Bytes) :
    ∀ block ∈ rleEncodeBlocks fuel buf, block.Emitted := by
  induction fuel generalizing buf with
  | zero => simp [rleEncodeBlocks]
  | succ fuel ih =>
    cases buf with
    | nil => simp [rleEncodeBlocks]
    | cons b buf => exact List.forall_mem_cons.mpr ⟨rleNextBlock_emitted b buf, ih _⟩

/-- Both passes agree on what a nonempty buffer is encoded as. -/
theorem rleEncodePasses_blocks {buf : Bytes} (hne : buf ≠ []) :
    rleEncodeSizePass buf =
        some ((rleEncodeBlocks buf.length buf).flatMap RleBlock.encode).length ∧
      braRleEncodePasses buf =
        some ⟨true, some ((rleEncodeBlocks buf.length buf).flatMap RleBlock.encode),
          ((rleEncodeBlocks buf.length buf).flatMap RleBlock.encode).length⟩ := by
  obtain ⟨hencode, -⟩ := braRleEncode_eq_some hne
  have hsize := rleEncodeComputeSize_eq buf
  constructor
  · rw [rleEncodeSizePass_eq, hsize]
  · rw [braRleEncodePasses_eq, hencode, hsize]
    rfl

/-- **The encoder is exact.**  It fills the buffer it has allocated after the sizing pass to
the last byte; it emits literal blocks with control bytes from 0 to 127 and runs with control
bytes from -127 to -2; and the decoder gives the input back. -/
theorem rleEncode_exact {buf : Bytes} (hne : buf ≠ []) :
    ∃ (enc : Bytes) (blocks : List RleBlock), rleEncodeSizePass buf = some enc.length ∧
      braRleEncodePasses buf = some ⟨true, some enc, enc.length⟩ ∧
      enc = blocks.flatMap RleBlock.encode ∧
      (∀ block ∈ blocks, block.Emitted) ∧
      braRleDecodePasses enc = some ⟨true, some buf, buf.length⟩ := by
  obtain ⟨hsize, hpasses⟩ := rleEncodePasses_blocks hne
  have hdecode := braRleDecode_braRleEncode hne (braRleEncode_eq_some hne).1
  refine ⟨_, _, hsize, hpasses, rfl, rleEncodeBlocks_emitted buf.length buf, ?_⟩
  rw [braRleDecodePasses_eq, hdecode, ← braRleDecode_length hdecode]
  rfl

theorem rleEncode_exact_run :
    ∃ (enc : Bytes) (blocks : List RleBlock), rleEncodeSizePass [7, 7, 7, 7, 9] = some enc.length ∧
      braRleEncodePasses [7, 7, 7, 7, 9] = some ⟨true, some enc, enc.length⟩ ∧
      enc = blocks.flatMap RleBlock.encode ∧
      (∀ block ∈ blocks, block.Emitted) ∧
      braRleDecodePasses enc = some ⟨true, some [7, 7, 7, 7, 9], 5⟩ :=
  rleEncode_exact (by decide)

/-! ## The worst case -/

/-- The bytes counted up from zero, `n` of them. -/
def countingUp (n : Nat) : Bytes := (List.range n).map UInt8.ofNat

@[simp] theorem countingUp_length (n : Nat) : (countingUp n).length = n := by simp [countingUp]

theorem eq_of_getElem?_countingUp {n i : Nat} {b : UInt8} (h : (countingUp n)[i]? = some b) :
    b = UInt8.ofNat i := by
  rw [countingUp, List.getElem?_map] at h
  obtain ⟨j, hj, rfl⟩ := Option.map_eq_some_iff.mp h
  obtain ⟨hlt, rfl⟩ := List.getElem?_eq_some_iff.mp hj
  rw [List.getElem_range]

theorem countingUp_noTriple (n : Nat) : NoTriple (countingUp n) := by
  intro pre a rest h
  have hget : ∀ k, (countingUp n)[pre.length + k]? = (a :: a :: a :: rest)[k]? := fun k => by
    rw [h, List.getElem?_append_right (Nat.le_add_right _ _), Nat.add_sub_cancel_left]
  have hfirst : a = UInt8.ofNat pre.length := eq_of_getElem?_countingUp (hget 0)
  have hsecond : a = UInt8.ofNat (pre.length + 1) := eq_of_getElem?_countingUp (hget 1)
  -- a byte differs from the next one, also where the count starts again at zero
  have hmod := congrArg UInt8.toNat (hfirst.symm.trans hsecond)
  rw [UInt8.toNat_ofNat', UInt8.toNat_ofNat'] at hmod
  omega

/-- **Worst-case expansion.**  Encoding makes a buffer longer by at most a byte for every 128
that it has or has begun; and for every length there is a buffer for which it is as many. -/
theorem rleEncode_expansion :
    (∀ buf : Bytes, buf ≠ [] → ∃ enc : Bytes, rleEncodeSizePass buf = some enc.length ∧
      braRleEncodePasses buf = some ⟨true, some enc, enc.length⟩ ∧
      enc.length ≤ buf.length + (buf.length + 127) / 128) ∧
    ∀ n, ∃ buf : Bytes, buf.length = n ∧ rleEncodeSizePass buf = some (n + (n + 127) / 128) := by
  refine ⟨fun buf hne => ?_, fun n => ⟨countingUp n, countingUp_length n, ?_⟩⟩
  · obtain ⟨hsize, hpasses⟩ := rleEncodePasses_blocks hne
    exact ⟨_, hsize, hpasses, (rleEncodeBlocks_length_le buf.length buf).1⟩
  · have hlength := (countingUp_noTriple n).rleEncodeBlocks_length (Nat.le_refl _)
    rw [countingUp_length] at hlength
    rw [rleEncodeSizePass_eq, rleEncodeComputeSize_eq, countingUp_length, hlength]

/-- Three bytes take at most four, and there are three that do. -/
theorem rleEncode_expansion_three :
    (∃ enc : Bytes, rleEncodeSizePass [7, 7, 9] = some enc.length ∧
      braRleEncodePasses [7, 7, 9] = some ⟨true, some enc, enc.length⟩ ∧
      enc.length ≤ 3 + (3 + 127) / 128) ∧
    ∃ buf : Bytes, buf.length = 3 ∧ rleEncodeSizePass buf = some (3 + (3 + 127) / 128) :=
  ⟨rleEncode_expansion.1 [7, 7, 9] (by decide), rleEncode_expansion.2 3⟩

/-! ## The grammar of the decoder -/

/-- The documented format: what is encoded, and what it stands for. -/
inductive RleGrammar : Bytes → Bytes → Prop
  | nil : RleGrammar [] []
  | literal {b : UInt8} {n : Nat} {lit rest out : Bytes} (control : rleControl b = n)
      (length : lit.length = n + 1) (tail : RleGrammar rest out) :
      RleGrammar (b :: (lit ++ rest)) (lit ++ out)
  | run {b v : UInt8} {n : Nat} {rest out : Bytes} (control : rleControl b = -(n : Int))
      (pos : 1 ≤ n) (le : n ≤ 127) (tail : RleGrammar rest out) :
      RleGrammar (b :: v :: rest) (List.replicate (n + 1) v ++ out)
  | noop {b : UInt8} {rest out : Bytes} (control : rleControl b = -128)
      (tail : RleGrammar rest out) : RleGrammar (b :: rest) out

/-- Every sequence of blocks follows the grammar. -/
theorem rleGrammar_of_blocks (blocks : List RleBlock) (h : ∀ block ∈ blocks, block.Valid) :
    RleGrammar (blocks.flatMap RleBlock.encode) (blocks.flatMap RleBlock.expand) := by
  induction blocks with
  | nil => exact .nil
  | cons block blocks ih =>
    obtain ⟨hvalid, hall⟩ := List.forall_mem_cons.mp h
    have htail := ih hall
    rw [List.flatMap_cons, List.flatMap_cons]
    cases block with
    | literal lit =>
      have hcontrol := RleBlock.control_literal hvalid
      rw [RleBlock.control, RleBlock.encode, List.headD_cons] at hcontrol
      obtain ⟨hpos, -⟩ := hvalid
      exact .literal (n := lit.length - 1) (by omega) (by omega) htail
    | run count v =>
      have hcontrol := RleBlock.control_run hvalid
      rw [RleBlock.control, RleBlock.encode, List.headD_cons] at hcontrol
      obtain ⟨h2, hmax⟩ := hvalid
      rw [braRleMaxRuns] at hmax
      obtain ⟨n, rfl⟩ : ∃ n, count = n + 1 := ⟨count - 1, by omega⟩
      exact .run (by omega) (by omega) (by omega) htail
    | noop => exact .noop (by decide) htail

/-- What follows the grammar is a sequence of blocks. -/
theorem RleGrammar.blocks {buf out : Bytes} (h : RleGrammar buf out) :
    ∃ blocks : List RleBlock, (∀ block ∈ blocks, block.Valid) ∧
      buf = blocks.flatMap RleBlock.encode ∧ out = blocks.flatMap RleBlock.expand := by
  induction h with
  | nil => exact ⟨[], by simp, rfl, rfl⟩
  | @literal b n lit rest out control length tail ih =>
    obtain ⟨blocks, hall, rfl, rfl⟩ := ih
    have hread : rleReadBlock b (lit ++ blocks.flatMap RleBlock.encode) =
        some (.literal lit, blocks.flatMap RleBlock.encode) := by
      have hcount : ((n : Int) + 1).toNat = lit.length := by omega
      simp only [rleReadBlock, control, hcount]
      rw [if_pos (by omega), if_neg (by rw [List.length_append]; omega), List.take_left,
        List.drop_left]
    obtain ⟨hvalid, hbuf⟩ := encode_of_rleReadBlock hread
    exact ⟨.literal lit :: blocks, List.forall_mem_cons.mpr ⟨hvalid, hall⟩, hbuf, rfl⟩
  | @run b v n rest out control pos le tail ih =>
    obtain ⟨blocks, hall, rfl, rfl⟩ := ih
    have hread : rleReadBlock b (v :: blocks.flatMap RleBlock.encode) =
        some (.run (n + 1) v, blocks.flatMap RleBlock.encode) := by
      have hcount : (1 - -(n : Int)).toNat = n + 1 := by omega
      simp only [rleReadBlock, control, hcount]
      rw [if_neg (by omega), if_pos (by rw [braRleCtlRuns]; omega)]
    obtain ⟨hvalid, hbuf⟩ := encode_of_rleReadBlock hread
    exact ⟨.run (n + 1) v :: blocks, List.forall_mem_cons.mpr ⟨hvalid, hall⟩, hbuf, rfl⟩
  | @noop b rest out control tail ih =>
    obtain ⟨blocks, hall, rfl, rfl⟩ := ih
    have hread : rleReadBlock b (blocks.flatMap RleBlock.encode) =
        some (.noop, blocks.flatMap RleBlock.encode) := by
      simp only [rleReadBlock, control]
      rw [if_neg (by decide), if_neg (by decide)]
    obtain ⟨hvalid, hbuf⟩ := encode_of_rleReadBlock hread
    exact ⟨.noop :: blocks, List.forall_mem_cons.mpr ⟨hvalid, hall⟩, hbuf, rfl⟩

theorem braRleDecode_eq_some_iff_grammar {buf out : Bytes} :
    braRleDecode buf = some out ↔ out ≠ [] ∧ RleGrammar buf out := by
  rw [braRleDecode_eq_some_iff]
  refine and_congr_right fun _ => ⟨?_, RleGrammar.blocks⟩
  rintro ⟨blocks, hall, rfl, rfl⟩
  exact rleGrammar_of_blocks blocks hall

/-- The sizing pass gives the size of what a buffer stands for. -/
theorem RleGrammar.sizePass {buf out : Bytes} (h : RleGrammar buf out) :
    rleDecodeSizePass buf = some out.length := by
  obtain ⟨blocks, hall, hbuf, rfl⟩ := h.blocks
  have hread := (rleReadBlocks_eq_some_iff blocks (Nat.le_refl buf.length)).mpr ⟨hall, hbuf⟩
  rw [rleDecodeSizePass_eq, braRleDecodeComputeSize, hread, flatMap_expand_length]

/-- **The decoder accepts exactly the documented format**, whatever it is given: both passes
stay inside the input and the buffer; it succeeds on a sequence of blocks that stands for at
least one byte, with those bytes, whose number is what the sizing pass has computed; on
anything else it fails and hands out nothing. -/
theorem rleDecode_accepts (buf : Bytes) :
    (∀ out, braRleDecodePasses buf = some ⟨true, some out, out.length⟩ ↔
        RleGrammar buf out ∧ out ≠ []) ∧
      (braRleDecodePasses buf = some ⟨false, none, 0⟩ ↔ ¬ ∃ out, RleGrammar buf out ∧ out ≠ []) ∧
      ∀ out, RleGrammar buf out → rleDecodeSizePass buf = some out.length := by
  rw [braRleDecodePasses_eq]
  refine ⟨fun out => ?_, ?_, fun out => RleGrammar.sizePass⟩
  · rw [and_comm, ← braRleDecode_eq_some_iff_grammar]
    constructor
    · intro h
      exact (RleResult.mk.inj (Option.some.inj h)).2.1
    · intro h
      rw [h, ← braRleDecode_length h]
      rfl
  · cases hdecode : braRleDecode buf with
    | none =>
      rw [braRleDecode_eq_none_iff.mp hdecode]
      refine iff_of_true rfl ?_
      rintro ⟨out, hgrammar, hne⟩
      rw [braRleDecode_eq_some_iff_grammar.mpr ⟨hne, hgrammar⟩] at hdecode
      cases hdecode
    | some out =>
      obtain ⟨hne, hgrammar⟩ := braRleDecode_eq_some_iff_grammar.mp hdecode
      refine iff_of_false (fun h => ?_) (not_not_intro ⟨out, hgrammar, hne⟩)
      cases (RleResult.mk.inj (Option.some.inj h)).1

end BrArchive
