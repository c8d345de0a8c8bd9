import BrArchive.Crc32c

/-! # CRC-32C with machine instructions

`bra_crc32c_sse42`, in the two forms the preprocessor makes of it.  Both begin with a loop
that goes on byte by byte up to an aligned address and end with steps of four, two and one
byte.  The one for x86-64 has a loop of eight-byte steps in between, which leaves less than
eight bytes for the end.  The other one has nothing in between, so it reads at most seven
bytes after the first aligned address.
-/
namespace BrArchive
open XorLinear

/-! ## The definition of the checksum -/

/-- One bit of the data goes into the register. -/
def crc32cBit (crc : BitVec 32) (bit : Bool) : BitVec 32 :=
  if (crc.getLsbD 0 != bit) = true then crc >>> 1 ^^^ braCrc32cPoly else crc >>> 1

/-- The bits of a byte, the lowest first. -/
def crc32cBits (byte : UInt8) : List Bool := (List.range 8).map byte.toBitVec.getLsbD

/-- The bytes of a block go into the register. -/
def crc32cFeed (crc : BitVec 32) (data : Bytes) : BitVec 32 :=
  (data.flatMap crc32cBits).foldl crc32cBit crc

/-- CRC-32C bit by bit: reflected, with inverted input and output. -/
def crc32cBitwise (data : Bytes) (previousCrc : BitVec 32) : BitVec 32 :=
  ~~~ crc32cFeed (~~~ previousCrc) data

theorem crc32cBit_eq (crc : BitVec 32) (bit : Bool) :
    crc32cBit crc bit = crcBit (crc ^^^ if bit then 1 else 0) := by
  cases bit with
  | false =>
    change crc32cBit crc false = crcBit (crc ^^^ 0#32)
    rw [BitVec.xor_zero, crc32cBit, crcBit, Bool.bne_false]
  | true =>
    have hlow : (crc ^^^ 1#32).getLsbD 0 = !crc.getLsbD 0 := by
      rw [BitVec.getLsbD_xor]
      cases crc.getLsbD 0 <;> rfl
    have hshift : (crc ^^^ 1#32) >>> 1 = crc >>> 1 := by
      rw [BitVec.ushiftRight_xor_distrib, show (1#32 : BitVec 32) >>> 1 = 0#32 by decide,
        BitVec.xor_zero]
    change crc32cBit crc true = crcBit (crc ^^^ 1#32)
    rw [crc32cBit, crcBit, hlow, hshift, Bool.bne_true]

/-- Bits act on the register as on zero, plus one step for each of them. -/
theorem foldl_crc32cBit_xor (bits : List Bool) (x y : BitVec 32) :
    bits.foldl crc32cBit (x ^^^ y) = bits.foldl crc32cBit x ^^^ crcBit^[bits.length] y := by
  induction bits generalizing x y with
  | nil => rfl
  | cons bit bits ih =>
    have hstep : crc32cBit (x ^^^ y) bit = crc32cBit x bit ^^^ crcBit y := by
      rw [crc32cBit_eq, crc32cBit_eq, ← crcBit_linear]
      congr 1
      ac_rfl
    rw [List.foldl_cons, List.foldl_cons, hstep, ih, List.length_cons,
      Function.iterate_succ_apply]

/-- On zero, the bits of a byte act as the byte does. -/
theorem foldl_crc32cBits_zero :
    ∀ i, i < 256 → (crc32cBits (UInt8.ofNat i)).foldl crc32cBit 0#32 =
      crcBit^[8] (BitVec.ofNat 32 i) := by
  decide +kernel

theorem foldl_crc32cBits (crc : BitVec 32) (byte : UInt8) :
    (crc32cBits byte).foldl crc32cBit crc = crc32cByte crc byte := by
  have hzero := foldl_crc32cBits_zero byte.toNat byte.toNat_lt
  have hbyte : byte.toBitVec.setWidth 32 = BitVec.ofNat 32 byte.toNat := by
    apply BitVec.eq_of_toNat_eq
    rw [BitVec.toNat_setWidth, BitVec.toNat_ofNat, UInt8.toNat_toBitVec]
  rw [UInt8.ofNat_toNat] at hzero
  rw [crc32cByte_eq, crcBit_linear.iterate 8, hbyte, ← hzero, ← BitVec.zero_xor (x := crc),
    foldl_crc32cBit_xor, BitVec.zero_xor, BitVec.xor_comm]
  rfl

/-- The bit by bit register is the register of the table. -/
theorem crc32cFeed_eq (crc : BitVec 32) (data : Bytes) :
    crc32cFeed crc data = data.foldl crc32cByte crc := by
  induction data generalizing crc with
  | nil => rfl
  | cons b data ih =>
    rw [crc32cFeed, List.flatMap_cons, List.foldl_append, foldl_crc32cBits, List.foldl_cons, ← ih]
    rfl

theorem crc32cFeed_append (crc : BitVec 32) (a b : Bytes) :
    crc32cFeed crc (a ++ b) = crc32cFeed (crc32cFeed crc a) b := by
  rw [crc32cFeed_eq, crc32cFeed_eq, crc32cFeed_eq, List.foldl_append]

/-- **The table** computes the checksum. -/
theorem braCrc32c_eq_bitwise (data : Bytes) (previousCrc : BitVec 32) :
    braCrc32c data previousCrc = crc32cBitwise data previousCrc := by
  rw [braCrc32c, crc32cBitwise, crc32cFeed_eq]

/-! ## The instructions -/

/-- The intrinsics of `nmmintrin.h`. -/
structure Crc32Intrinsics where
  mmCrc32U8 : BitVec 32 → BitVec 8 → BitVec 32
  mmCrc32U16 : BitVec 32 → BitVec 16 → BitVec 32
  mmCrc32U32 : BitVec 32 → BitVec 32 → BitVec 32
  mmCrc32U64 : BitVec 64 → BitVec 64 → BitVec 64

/-- The intrinsics feed the bytes of their operand to the register, the lowest first. -/
structure Crc32Intrinsics.Lawful (mm : Crc32Intrinsics) : Prop where
  u8 : ∀ crc (v : BitVec 8), mm.mmCrc32U8 crc v = crc32cFeed crc (leBytes 1 v.toNat)
  u16 : ∀ crc (v : BitVec 16), mm.mmCrc32U16 crc v = crc32cFeed crc (leBytes 2 v.toNat)
  u32 : ∀ crc (v : BitVec 32), mm.mmCrc32U32 crc v = crc32cFeed crc (leBytes 4 v.toNat)
  u64 : ∀ (crc : BitVec 32) (v : BitVec 64), mm.mmCrc32U64 (crc.setWidth 64) v =
    (crc32cFeed crc (leBytes 8 v.toNat)).setWidth 64

/-- Intrinsics that do so. -/
def Crc32Intrinsics.bitwise : Crc32Intrinsics where
  mmCrc32U8 crc v := crc32cFeed crc (leBytes 1 v.toNat)
  mmCrc32U16 crc v := crc32cFeed crc (leBytes 2 v.toNat)
  mmCrc32U32 crc v := crc32cFeed crc (leBytes 4 v.toNat)
  mmCrc32U64 crc v := (crc32cFeed (crc.setWidth 32) (leBytes 8 v.toNat)).setWidth 64

theorem Crc32Intrinsics.bitwise_lawful : Crc32Intrinsics.bitwise.Lawful where
  u8 _ _ := rfl
  u16 _ _ := rfl
  u32 _ _ := rfl
  u64 crc v := by
    have hcrc : (crc.setWidth 64).setWidth 32 = crc := by
      rw [BitVec.setWidth_setWidth_of_le _ (by decide), BitVec.setWidth_eq]
    exact congrArg (fun crc => (crc32cFeed crc (leBytes 8 v.toNat)).setWidth 64) hcrc

/-- The state of `bra_crc32c_sse42`: `crc`, and the `remaining` bytes from `bytes` on. -/
structure Sse42State where
  crc : BitVec 32
  bytes : Bytes
  deriving DecidableEq

/-- `*(const uintN_t*) bytes`. -/
def loadLe (w : Nat) (bytes : Bytes) : BitVec w := BitVec.ofNat w (leValue (bytes.take (w / 8)))

section Code
variable (mm : Crc32Intrinsics)

/-- The loop up to an aligned address; `mask` is 7 or 3. -/
def sse42Align (mask : Nat) : Nat → BitVec 32 → Bytes → Sse42State
  | _, crc, [] => ⟨crc, []⟩
  | addr, crc, b :: bytes =>
    if addr &&& mask ≠ 0 then sse42Align mask (addr + 1) (mm.mmCrc32U8 crc b.toBitVec) bytes
    else ⟨crc, b :: bytes⟩

/-- The loop of eight-byte steps, at most `fuel` of them. -/
def sse42Bulk : Nat → Sse42State → Sse42State
  | 0, st => st
  | fuel + 1, st =>
    if st.bytes.length ≥ 8 then
      sse42Bulk fuel ⟨(mm.mmCrc32U64 (st.crc.setWidth 64) (loadLe 64 st.bytes)).setWidth 32,
        st.bytes.drop 8⟩
    else st

/-- The four-byte step. -/
def sse42Step4 (st : Sse42State) : Sse42State :=
  if st.bytes.length ≥ 4 then ⟨mm.mmCrc32U32 st.crc (loadLe 32 st.bytes), st.bytes.drop 4⟩ else st

/-- The two-byte step. -/
def sse42Step2 (st : Sse42State) : Sse42State :=
  if st.bytes.length ≥ 2 then ⟨mm.mmCrc32U16 st.crc (loadLe 16 st.bytes), st.bytes.drop 2⟩ else st

/-- The final byte. -/
def sse42Step1 (st : Sse42State) : Sse42State :=
  if st.bytes.length = 1 then ⟨mm.mmCrc32U8 st.crc (loadLe 8 st.bytes), st.bytes.drop 1⟩ else st

/-- The end both forms share. -/
def sse42Tail (st : Sse42State) : Sse42State := sse42Step1 mm (sse42Step2 mm (sse42Step4 mm st))

/-- The state in which `bra_crc32c_sse42` for x86-64 returns, on bytes at the address `addr`. -/
def sse42Run64 (addr : Nat) (data : Bytes) (previousCrc : BitVec 32) : Sse42State :=
  sse42Tail mm (sse42Bulk mm data.length (sse42Align mm 7 addr (~~~ previousCrc) data))

/-- The state in which `bra_crc32c_sse42` returns when it is compiled for another target. -/
def sse42Run32 (addr : Nat) (data : Bytes) (previousCrc : BitVec 32) : Sse42State :=
  sse42Tail mm (sse42Align mm 3 addr (~~~ previousCrc) data)

/-- `bra_crc32c_sse42` for x86-64. -/
def braCrc32cSse42 (addr : Nat) (data : Bytes) (previousCrc : BitVec 32) : BitVec 32 :=
  ~~~ (sse42Run64 mm addr data previousCrc).crc

/-- `bra_crc32c_sse42` for another target. -/
def braCrc32cSse42On32 (addr : Nat) (data : Bytes) (previousCrc : BitVec 32) : BitVec 32 :=
  ~~~ (sse42Run32 mm addr data previousCrc).crc

end Code

/-! ## Bytes that have been fed -/

/-- On the way from `st` to `st'` the bytes that are gone have been fed to the register. -/
def Fed (st st' : Sse42State) : Prop :=
  ∃ done, st.bytes = done ++ st'.bytes ∧ st'.crc = crc32cFeed st.crc done

theorem Fed.refl (st : Sse42State) : Fed st st := ⟨[], rfl, rfl⟩

theorem Fed.trans {st st' st'' : Sse42State} (h : Fed st st') (h' : Fed st' st'') : Fed st st'' := by
  obtain ⟨done, hbytes, hcrc⟩ := h
  obtain ⟨done', hbytes', hcrc'⟩ := h'
  exact ⟨done ++ done', by rw [hbytes, hbytes', List.append_assoc],
    by rw [hcrc', hcrc, crc32cFeed_append]⟩

theorem leBytes_loadLe {k : Nat} {bytes : Bytes} (h : k ≤ bytes.length) :
    leBytes k (loadLe (8 * k) bytes).toNat = bytes.take k := by
  have hlen : (bytes.take k).length = k := List.length_take_of_le h
  have hlt := leValue_lt (bytes.take k)
  have hbytes := leBytes_leValue (bytes.take k)
  have hpow : (2 : Nat) ^ (8 * k) = 256 ^ k := by rw [Nat.pow_mul]
  rw [hlen] at hlt hbytes
  rw [loadLe, Nat.mul_div_cancel_left k (by decide), BitVec.toNat_ofNat, hpow, Nat.mod_eq_of_lt hlt,
    hbytes]

section Laws
variable {mm : Crc32Intrinsics} (hmm : mm.Lawful)
include hmm

theorem sse42Align_fed (mask addr : Nat) (crc : BitVec 32) (bytes : Bytes) :
    Fed ⟨crc, bytes⟩ (sse42Align mm mask addr crc bytes) := by
  induction bytes generalizing addr crc with
  | nil => exact Fed.refl _
  | cons b bytes ih =>
    rw [sse42Align]
    split
    · refine Fed.trans ⟨[b], rfl, ?_⟩ (ih _ _)
      have hb : leBytes 1 b.toNat = [b] := by
        have h := leBytes_leValue [b]
        simpa [leValue] using h
      rw [hmm.u8, UInt8.toNat_toBitVec, hb]
    · exact Fed.refl _

theorem sse42Bulk_fed (fuel : Nat) (st : Sse42State) : Fed st (sse42Bulk mm fuel st) := by
  induction fuel generalizing st with
  | zero => exact Fed.refl _
  | succ fuel ih =>
    rw [sse42Bulk]
    split
    · rename_i h
      refine Fed.trans ⟨st.bytes.take 8, (List.take_append_drop 8 st.bytes).symm, ?_⟩ (ih _)
      rw [hmm.u64, leBytes_loadLe (k := 8) h, BitVec.setWidth_setWidth_of_le _ (by decide),
        BitVec.setWidth_eq]
    · exact Fed.refl _

theorem sse42Step4_fed (st : Sse42State) : Fed st (sse42Step4 mm st) := by
  rw [sse42Step4]
  split
  · rename_i h
    refine ⟨st.bytes.take 4, (List.take_append_drop 4 st.bytes).symm, ?_⟩
    rw [hmm.u32, leBytes_loadLe (k := 4) h]
  · exact Fed.refl _

theorem sse42Step2_fed (st : Sse42State) : Fed st (sse42Step2 mm st) := by
  rw [sse42Step2]
  split
  · rename_i h
    refine ⟨st.bytes.take 2, (List.take_append_drop 2 st.bytes).symm, ?_⟩
    rw [hmm.u16, leBytes_loadLe (k := 2) h]
  · exact Fed.refl _

theorem sse42Step1_fed (st : Sse42State) : Fed st (sse42Step1 mm st) := by
  rw [sse42Step1]
  split
  · rename_i h
    refine ⟨st.bytes.take 1, (List.take_append_drop 1 st.bytes).symm, ?_⟩
    rw [hmm.u8, leBytes_loadLe (k := 1) (Nat.le_of_eq h.symm)]
  · exact Fed.refl _

theorem sse42Tail_fed (st : Sse42State) : Fed st (sse42Tail mm st) :=
  ((sse42Step4_fed hmm st).trans (sse42Step2_fed hmm _)).trans (sse42Step1_fed hmm _)

end Laws

/-! ## Bytes that are left -/

/-- How many of `n` bytes the end leaves. -/
def sse42TailLength (n : Nat) : Nat :=
  let n := if n ≥ 4 then n - 4 else n
  let n := if n ≥ 2 then n - 2 else n
  if n = 1 then 0 else n

theorem sse42TailLength_eq_zero_iff (n : Nat) : sse42TailLength n = 0 ↔ n < 8 := by
  simp only [sse42TailLength]
  split <;> split <;> split <;> omega

section Lengths
variable (mm : Crc32Intrinsics)

theorem sse42Tail_length (st : Sse42State) :
    (sse42Tail mm st).bytes.length = sse42TailLength st.bytes.length := by
  have h4 : (sse42Step4 mm st).bytes.length =
      if st.bytes.length ≥ 4 then st.bytes.length - 4 else st.bytes.length := by
    rw [sse42Step4]
    split <;> simp
  have h2 : ∀ st : Sse42State, (sse42Step2 mm st).bytes.length =
      if st.bytes.length ≥ 2 then st.bytes.length - 2 else st.bytes.length := by
    intro st
    rw [sse42Step2]
    split <;> simp
  have h1 : ∀ st : Sse42State, (sse42Step1 mm st).bytes.length =
      if st.bytes.length = 1 then 0 else st.bytes.length := by
    intro st
    rw [sse42Step1]
    split
    · rename_i h
      rw [List.length_drop, h]
    · rfl
  rw [sse42Tail, h1, h2, h4]
  rfl

/-- The loop of eight-byte steps leaves less than eight bytes. -/
theorem sse42Bulk_length (fuel : Nat) {st : Sse42State} (h : st.bytes.length ≤ fuel) :
    (sse42Bulk mm fuel st).bytes.length < 8 := by
  induction fuel generalizing st with
  | zero =>
    rw [sse42Bulk]
    omega
  | succ fuel ih =>
    rw [sse42Bulk]
    split
    · refine ih ?_
      rw [List.length_drop]
      omega
    · omega

theorem sse42Align_length_le (mask addr : Nat) (crc : BitVec 32) (bytes : Bytes) :
    (sse42Align mm mask addr crc bytes).bytes.length ≤ bytes.length := by
  induction bytes generalizing addr crc with
  | nil => exact Nat.le_refl _
  | cons b bytes ih =>
    rw [sse42Align]
    split
    · have h := ih (addr + 1) (mm.mmCrc32U8 crc b.toBitVec)
      rw [List.length_cons]
      omega
    · exact Nat.le_refl _

/-- The bytes in front of the first address that is a multiple of four. -/
def unaligned4 (addr : Nat) : Nat := (4 - addr % 4) % 4

theorem sse42Align_length (addr : Nat) (crc : BitVec 32) (bytes : Bytes) :
    (sse42Align mm 3 addr crc bytes).bytes.length = bytes.length - unaligned4 addr := by
  induction bytes generalizing addr crc with
  | nil => rw [sse42Align, List.length_nil, Nat.zero_sub]
  | cons b bytes ih =>
    have hmask : addr &&& 3 = addr % 4 := Nat.and_two_pow_sub_one_eq_mod addr 2
    rw [sse42Align, hmask]
    split
    · rename_i h
      rw [ih, List.length_cons, unaligned4, unaligned4]
      omega
    · rename_i h
      simp only [unaligned4]
      omega

theorem sse42Run32_length (addr : Nat) (data : Bytes) (previousCrc : BitVec 32) :
    (sse42Run32 mm addr data previousCrc).bytes.length =
      sse42TailLength (data.length - unaligned4 addr) := by
  rw [sse42Run32, sse42Tail_length, sse42Align_length]

theorem sse42Run64_bytes (addr : Nat) (data : Bytes) (previousCrc : BitVec 32) :
    (sse42Run64 mm addr data previousCrc).bytes = [] := by
  have hle := sse42Align_length_le mm 7 addr (~~~ previousCrc) data
  refine List.eq_nil_of_length_eq_zero ?_
  rw [sse42Run64, sse42Tail_length, sse42TailLength_eq_zero_iff]
  exact sse42Bulk_length mm data.length hle

end Lengths

/-! ## The x86-64 form -/

section Laws
variable {mm : Crc32Intrinsics} (hmm : mm.Lawful)
include hmm

theorem sse42Run64_fed (addr : Nat) (data : Bytes) (previousCrc : BitVec 32) :
    Fed ⟨~~~ previousCrc, data⟩ (sse42Run64 mm addr data previousCrc) :=
  ((sse42Align_fed hmm 7 addr _ data).trans (sse42Bulk_fed hmm _ _)).trans (sse42Tail_fed hmm _)

theorem sse42Run32_fed (addr : Nat) (data : Bytes) (previousCrc : BitVec 32) :
    Fed ⟨~~~ previousCrc, data⟩ (sse42Run32 mm addr data previousCrc) :=
  (sse42Align_fed hmm 3 addr _ data).trans (sse42Tail_fed hmm _)

theorem braCrc32cSse42_eq_bitwise (addr : Nat) (data : Bytes) (previousCrc : BitVec 32) :
    braCrc32cSse42 mm addr data previousCrc = crc32cBitwise data previousCrc := by
  obtain ⟨done, hbytes, hcrc⟩ := sse42Run64_fed hmm addr data previousCrc
  rw [sse42Run64_bytes, List.append_nil] at hbytes
  rw [braCrc32cSse42, hcrc, crc32cBitwise, ← hbytes]

end Laws

/-- The implementations there are on x86-64; the one with instructions gets its bytes at
some address. -/
inductive Crc32cImpl where
  | table
  | sse42 (addr : Nat)

/-- The checksum an implementation computes. -/
def Crc32cImpl.crc (mm : Crc32Intrinsics) : Crc32cImpl → Bytes → BitVec 32 → BitVec 32
  | table => braCrc32c
  | sse42 addr => braCrc32cSse42 mm addr

theorem Crc32cImpl.crc_eq {mm : Crc32Intrinsics} (hmm : mm.Lawful) (f : Crc32cImpl) (data : Bytes)
    (previousCrc : BitVec 32) : f.crc mm data previousCrc = crc32cBitwise data previousCrc := by
  cases f with
  | table => exact braCrc32c_eq_bitwise data previousCrc
  | sse42 addr => exact braCrc32cSse42_eq_bitwise hmm addr data previousCrc

/-- **All implementations agree** with the definition of CRC-32C, at any address, and may be
mixed across a split. -/
theorem crc32c_agree {mm : Crc32Intrinsics} (hmm : mm.Lawful) :
    (∀ data previousCrc, braCrc32c data previousCrc = crc32cBitwise data previousCrc) ∧
      (∀ addr data previousCrc,
        braCrc32cSse42 mm addr data previousCrc = crc32cBitwise data previousCrc) ∧
      ∀ (f g h : Crc32cImpl) (a b : Bytes) (previousCrc : BitVec 32),
        f.crc mm (a ++ b) previousCrc = g.crc mm b (h.crc mm a previousCrc) := by
  refine ⟨braCrc32c_eq_bitwise, braCrc32cSse42_eq_bitwise hmm, fun f g h a b previousCrc => ?_⟩
  rw [f.crc_eq hmm, g.crc_eq hmm, h.crc_eq hmm, ← braCrc32c_eq_bitwise, ← braCrc32c_eq_bitwise,
    ← braCrc32c_eq_bitwise, braCrc32c_append]

theorem crc32c_agree_bitwise :
    (∀ data previousCrc, braCrc32c data previousCrc = crc32cBitwise data previousCrc) ∧
      (∀ addr data previousCrc, braCrc32cSse42 Crc32Intrinsics.bitwise addr data previousCrc =
        crc32cBitwise data previousCrc) ∧
      ∀ (f g h : Crc32cImpl) (a b : Bytes) (previousCrc : BitVec 32),
        f.crc Crc32Intrinsics.bitwise (a ++ b) previousCrc =
          g.crc Crc32Intrinsics.bitwise b (h.crc Crc32Intrinsics.bitwise a previousCrc) :=
  crc32c_agree Crc32Intrinsics.bitwise_lawful

/-! ## The other form -/

/-- The form for other targets on bytes at an address: it folds every byte in, and agrees
with the table. -/
def Sse42On32Agrees (mm : Crc32Intrinsics) (addr : Nat) (data : Bytes)
    (previousCrc : BitVec 32) : Prop :=
  (sse42Run32 mm addr data previousCrc).bytes = [] ∧
    braCrc32cSse42On32 mm addr data previousCrc = braCrc32c data previousCrc

theorem sse42On32Agrees_iff {mm : Crc32Intrinsics} (hmm : mm.Lawful) (addr : Nat) (data : Bytes)
    (previousCrc : BitVec 32) :
    Sse42On32Agrees mm addr data previousCrc ↔ data.length < 8 + unaligned4 addr := by
  have hlength := sse42Run32_length mm addr data previousCrc
  have hzero := sse42TailLength_eq_zero_iff (data.length - unaligned4 addr)
  constructor
  · rintro ⟨hbytes, -⟩
    rw [hbytes, List.length_nil] at hlength
    have := hzero.mp hlength.symm
    omega
  · intro hlt
    have hbytes : (sse42Run32 mm addr data previousCrc).bytes = [] :=
      List.eq_nil_of_length_eq_zero (hlength.trans (hzero.mpr (by omega)))
    obtain ⟨done, hdata, hcrc⟩ := sse42Run32_fed hmm addr data previousCrc
    rw [hbytes, List.append_nil] at hdata
    refine ⟨hbytes, ?_⟩
    rw [braCrc32cSse42On32, hcrc, braCrc32c_eq_bitwise, crc32cBitwise, ← hdata]

/-- Bytes behind those that are read do not matter. -/
theorem braCrc32cSse42On32_ignores {mm : Crc32Intrinsics} (hmm : mm.Lawful) (addr : Nat)
    (data : Bytes) (h : 8 + unaligned4 addr ≤ data.length + 1) (b b' : UInt8)
    (previousCrc : BitVec 32) :
    braCrc32cSse42On32 mm addr (data ++ [b]) previousCrc =
      braCrc32cSse42On32 mm addr (data ++ [b']) previousCrc := by
  obtain ⟨done, hdata, hcrc⟩ := sse42Run32_fed hmm addr (data ++ [b]) previousCrc
  obtain ⟨done', hdata', hcrc'⟩ := sse42Run32_fed hmm addr (data ++ [b']) previousCrc
  have hlength := sse42Run32_length mm addr (data ++ [b]) previousCrc
  have hlength' := sse42Run32_length mm addr (data ++ [b']) previousCrc
  have hzero := sse42TailLength_eq_zero_iff ((data ++ [b]).length - unaligned4 addr)
  have hlen := congrArg List.length hdata
  have hlen' := congrArg List.length hdata'
  simp only [List.length_append, List.length_singleton] at hlength hlength' hzero hlen hlen'
  have hpos : (sse42Run32 mm addr (data ++ [b]) previousCrc).bytes.length ≠ 0 := by
    rw [hlength]
    omega
  have htake : done = data.take done.length := by
    have h := congrArg (List.take done.length) hdata
    rwa [List.take_append_of_le_length (by omega), List.take_left, eq_comm] at h
  have htake' : done' = data.take done'.length := by
    have h := congrArg (List.take done'.length) hdata'
    rwa [List.take_append_of_le_length (by omega), List.take_left, eq_comm] at h
  rw [braCrc32cSse42On32, braCrc32cSse42On32, hcrc, hcrc', htake, htake',
    show done.length = done'.length by omega]

/-- **Off x86-64** the instructions agree with the table on a block exactly if at most seven
bytes follow its first aligned address; for longer blocks at that address the results are
not even the same for all data. -/
theorem sse42On32_agrees_iff {mm : Crc32Intrinsics} (hmm : mm.Lawful) (addr : Nat) :
    (∀ data previousCrc, Sse42On32Agrees mm addr data previousCrc ↔
        data.length < 8 + unaligned4 addr) ∧
      ∀ n, (∀ data : Bytes, data.length = n → ∀ previousCrc,
          braCrc32cSse42On32 mm addr data previousCrc = braCrc32c data previousCrc) ↔
        n < 8 + unaligned4 addr := by
  refine ⟨sse42On32Agrees_iff hmm addr, fun n => ⟨fun h => ?_, fun hlt data hn previousCrc => ?_⟩⟩
  · by_contra hge
    obtain ⟨m, rfl⟩ : ∃ m, n = m + 1 := ⟨n - 1, by omega⟩
    -- two blocks that differ in the last byte only, which is not read
    have hsame := braCrc32cSse42On32_ignores hmm addr (List.replicate m 0)
      (by rw [List.length_replicate]; omega) 0 1 0
    rw [h _ (by simp), h _ (by simp)] at hsame
    exact absurd (braCrc32c_last_injective _ _ hsame) (by decide)
  · exact ((sse42On32Agrees_iff hmm addr data previousCrc).mpr (hn ▸ hlt)).2

theorem sse42On32_agrees_iff_bitwise :
    (∀ data previousCrc, Sse42On32Agrees Crc32Intrinsics.bitwise 1 data previousCrc ↔
        data.length < 8 + unaligned4 1) ∧
      ∀ n, (∀ data : Bytes, data.length = n → ∀ previousCrc,
          braCrc32cSse42On32 Crc32Intrinsics.bitwise 1 data previousCrc =
            braCrc32c data previousCrc) ↔ n < 8 + unaligned4 1 :=
  sse42On32_agrees_iff Crc32Intrinsics.bitwise_lawful 1

/-- Eight bytes at an aligned address: the last two are left out of the checksum. -/
theorem sse42On32_disagrees :
    ¬ ∀ (mm : Crc32Intrinsics), mm.Lawful → ∀ addr data previousCrc,
      Sse42On32Agrees mm addr data previousCrc := by
  intro h
  have hagrees := h _ Crc32Intrinsics.bitwise_lawful 0 [1, 2, 3, 4, 5, 6, 7, 8] 0
  have hcrc : braCrc32cSse42On32 Crc32Intrinsics.bitwise 0 [1, 2, 3, 4, 5, 6, 7, 8] 0 ≠
      braCrc32c [1, 2, 3, 4, 5, 6, 7, 8] 0 := by
    decide +kernel
  exact hcrc hagrees.2

end BrArchive
