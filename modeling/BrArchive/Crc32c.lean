import BrArchive.Defs
import BrArchive.XorLinear
import Mathlib.NumberTheory.LucasLehmer
import Mathlib.Tactic.Ring

/-! # CRC-32C

The table-driven checksum of `lib_bra_crc32c.c` and the operation that combines the
checksums of two blocks.  (The SSE 4.2 variant computes the same function with machine
instructions.)  One byte is eight steps of a shift register whose step is a linear map,
so the checksum of a block is the checksum that went in, moved on by as many steps,
plus the checksum of the block alone; `bra_crc32c_combine` does the moving with matrix
squares.
-/
namespace BrArchive
open XorLinear

/-- `BRA_CRC32C_INIT`. -/
def braCrc32cInit : BitVec 32 := 0

/-- `BRA_CRC32C_POLY`, reflected. -/
def braCrc32cPoly : BitVec 32 := 0x82F63B78

/-- `crc32c_table`. -/
def crc32cTable : List (BitVec 32) := [
  0x00000000, 0xF26B8303, 0xE13B70F7, 0x1350F3F4, 0xC79A971F, 0x35F1141C, 0x26A1E7E8, 0xD4CA64EB,
  0x8AD958CF, 0x78B2DBCC, 0x6BE22838, 0x9989AB3B, 0x4D43CFD0, 0xBF284CD3, 0xAC78BF27, 0x5E133C24,
  0x105EC76F, 0xE235446C, 0xF165B798, 0x030E349B, 0xD7C45070, 0x25AFD373, 0x36FF2087, 0xC494A384,
  0x9A879FA0, 0x68EC1CA3, 0x7BBCEF57, 0x89D76C54, 0x5D1D08BF, 0xAF768BBC, 0xBC267848, 0x4E4DFB4B,
  0x20BD8EDE, 0xD2D60DDD, 0xC186FE29, 0x33ED7D2A, 0xE72719C1, 0x154C9AC2, 0x061C6936, 0xF477EA35,
  0xAA64D611, 0x580F5512, 0x4B5FA6E6, 0xB93425E5, 0x6DFE410E, 0x9F95C20D, 0x8CC531F9, 0x7EAEB2FA,
  0x30E349B1, 0xC288CAB2, 0xD1D83946, 0x23B3BA45, 0xF779DEAE, 0x05125DAD, 0x1642AE59, 0xE4292D5A,
  0xBA3A117E, 0x4851927D, 0x5B016189, 0xA96AE28A, 0x7DA08661, 0x8FCB0562, 0x9C9BF696, 0x6EF07595,
  0x417B1DBC, 0xB3109EBF, 0xA0406D4B, 0x522BEE48, 0x86E18AA3, 0x748A09A0, 0x67DAFA54, 0x95B17957,
  0xCBA24573, 0x39C9C670, 0x2A993584, 0xD8F2B687, 0x0C38D26C, 0xFE53516F, 0xED03A29B, 0x1F682198,
  0x5125DAD3, 0xA34E59D0, 0xB01EAA24, 0x42752927, 0x96BF4DCC, 0x64D4CECF, 0x77843D3B, 0x85EFBE38,
  0xDBFC821C, 0x2997011F, 0x3AC7F2EB, 0xC8AC71E8, 0x1C661503, 0xEE0D9600, 0xFD5D65F4, 0x0F36E6F7,
  0x61C69362, 0x93AD1061, 0x80FDE395, 0x72966096, 0xA65C047D, 0x5437877E, 0x4767748A, 0xB50CF789,
  0xEB1FCBAD, 0x197448AE, 0x0A24BB5A, 0xF84F3859, 0x2C855CB2, 0xDEEEDFB1, 0xCDBE2C45, 0x3FD5AF46,
  0x7198540D, 0x83F3D70E, 0x90A324FA, 0x62C8A7F9, 0xB602C312, 0x44694011, 0x5739B3E5, 0xA55230E6,
  0xFB410CC2, 0x092A8FC1, 0x1A7A7C35, 0xE811FF36, 0x3CDB9BDD, 0xCEB018DE, 0xDDE0EB2A, 0x2F8B6829,
  0x82F63B78, 0x709DB87B, 0x63CD4B8F, 0x91A6C88C, 0x456CAC67, 0xB7072F64, 0xA457DC90, 0x563C5F93,
  0x082F63B7, 0xFA44E0B4, 0xE9141340, 0x1B7F9043, 0xCFB5F4A8, 0x3DDE77AB, 0x2E8E845F, 0xDCE5075C,
  0x92A8FC17, 0x60C37F14, 0x73938CE0, 0x81F80FE3, 0x55326B08, 0xA759E80B, 0xB4091BFF, 0x466298FC,
  0x1871A4D8, 0xEA1A27DB, 0xF94AD42F, 0x0B21572C, 0xDFEB33C7, 0x2D80B0C4, 0x3ED04330, 0xCCBBC033,
  0xA24BB5A6, 0x502036A5, 0x4370C551, 0xB11B4652, 0x65D122B9, 0x97BAA1BA, 0x84EA524E, 0x7681D14D,
  0x2892ED69, 0xDAF96E6A, 0xC9A99D9E, 0x3BC21E9D, 0xEF087A76, 0x1D63F975, 0x0E330A81, 0xFC588982,
  0xB21572C9, 0x407EF1CA, 0x532E023E, 0xA145813D, 0x758FE5D6, 0x87E466D5, 0x94B49521, 0x66DF1622,
  0x38CC2A06, 0xCAA7A905, 0xD9F75AF1, 0x2B9CD9F2, 0xFF56BD19, 0x0D3D3E1A, 0x1E6DCDEE, 0xEC064EED,
  0xC38D26C4, 0x31E6A5C7, 0x22B65633, 0xD0DDD530, 0x0417B1DB, 0xF67C32D8, 0xE52CC12C, 0x1747422F,
  0x49547E0B, 0xBB3FFD08, 0xA86F0EFC, 0x5A048DFF, 0x8ECEE914, 0x7CA56A17, 0x6FF599E3, 0x9D9E1AE0,
  0xD3D3E1AB, 0x21B862A8, 0x32E8915C, 0xC083125F, 0x144976B4, 0xE622F5B7, 0xF5720643, 0x07198540,
  0x590AB964, 0xAB613A67, 0xB831C993, 0x4A5A4A90, 0x9E902E7B, 0x6CFBAD78, 0x7FAB5E8C, 0x8DC0DD8F,
  0xE330A81A, 0x115B2B19, 0x020BD8ED, 0xF0605BEE, 0x24AA3F05, 0xD6C1BC06, 0xC5914FF2, 0x37FACCF1,
  0x69E9F0D5, 0x9B8273D6, 0x88D28022, 0x7AB90321, 0xAE7367CA, 0x5C18E4C9, 0x4F48173D, 0xBD23943E,
  0xF36E6F75, 0x0105EC76, 0x12551F82, 0xE03E9C81, 0x34F4F86A, 0xC69F7B69, 0xD5CF889D, 0x27A40B9E,
  0x79B737BA, 0x8BDCB4B9, 0x988C474D, 0x6AE7C44E, 0xBE2DA0A5, 0x4C4623A6, 0x5F16D052, 0xAD7D5351]

/-- One turn of the loop of `bra_crc32c_table`. -/
def crc32cByte (crc : BitVec 32) (byte : UInt8) : BitVec 32 :=
  crc32cTable.getD ((crc ^^^ byte.toBitVec.setWidth 32) &&& 0xFF#32).toNat 0 ^^^ crc >>> 8

/-- `bra_crc32c`. -/
def braCrc32c (data : Bytes) (previousCrc : BitVec 32) : BitVec 32 :=
  ~~~ data.foldl crc32cByte (~~~ previousCrc)

/-- `gf2_matrix_times`. -/
def gf2MatrixTimes (mat : List (BitVec 32)) (vec : BitVec 32) : BitVec 32 := times mat vec 0

/-- `gf2_matrix_square`. -/
def gf2MatrixSquare (mat : List (BitVec 32)) : List (BitVec 32) :=
  mat.map (fun row => gf2MatrixTimes mat row)

/-- The operator for one zero bit. -/
def crc32cOdd : List (BitVec 32) :=
  braCrc32cPoly :: (List.range 31).map (fun n => 1#32 <<< n)

/-- The loop of `bra_crc32c_combine`; each turn consumes two bits of `len_b`. -/
def crc32cCombineLoop : Nat → List (BitVec 32) → BitVec 32 → Nat → BitVec 32
  | 0, _, crc32a, _ => crc32a
  | fuel + 1, odd, crc32a, lenB =>
    let even := gf2MatrixSquare odd
    let crc32a := if lenB % 2 = 1 then gf2MatrixTimes even crc32a else crc32a
    if lenB / 2 = 0 then crc32a
    else
      let odd := gf2MatrixSquare even
      let crc32a := if lenB / 2 % 2 = 1 then gf2MatrixTimes odd crc32a else crc32a
      if lenB / 2 / 2 = 0 then crc32a else crc32cCombineLoop fuel odd crc32a (lenB / 2 / 2)

/-- `bra_crc32c_combine`.  The length is a `uint32_t` parameter, so the argument is
reduced on the way in. -/
def braCrc32cCombine (crc32a crc32b : BitVec 32) (lenB : Nat) : BitVec 32 :=
  if lenB % 2 ^ 32 = 0 then crc32a
  else
    crc32cCombineLoop 16 (gf2MatrixSquare (gf2MatrixSquare crc32cOdd)) crc32a (lenB % 2 ^ 32) ^^^
      crc32b

/-! ## One bit -/

/-- One step of the shift register. -/
def crcBit (x : BitVec 32) : BitVec 32 :=
  if x.getLsbD 0 then x >>> 1 ^^^ braCrc32cPoly else x >>> 1

theorem crcBit_linear : Linear crcBit := by
  intro x y
  unfold crcBit
  rw [BitVec.getLsbD_xor, BitVec.ushiftRight_xor_distrib]
  generalize x >>> 1 = a
  generalize y >>> 1 = b
  cases x.getLsbD 0 <;> cases y.getLsbD 0
  · rfl
  · exact BitVec.xor_assoc a b _
  · change a ^^^ b ^^^ braCrc32cPoly = a ^^^ braCrc32cPoly ^^^ b
    ac_rfl
  · change a ^^^ b = a ^^^ braCrc32cPoly ^^^ (b ^^^ braCrc32cPoly)
    rw [BitVec.xor_assoc, BitVec.xor_comm b, ← BitVec.xor_assoc braCrc32cPoly, BitVec.xor_self,
      BitVec.zero_xor]

/-- With zeros in the low places, steps are shifts. -/
theorem crcBit_iterate_of_low_zero (k : Nat) :
    ∀ {x : BitVec 32}, (∀ i, i < k → x.getLsbD i = false) → crcBit^[k] x = x >>> k := by
  induction k with
  | zero => intro x _; simp
  | succ k ih =>
    intro x hx
    have hstep : crcBit x = x >>> 1 := by
      unfold crcBit
      rw [hx 0 (Nat.zero_lt_succ k)]
      rfl
    rw [Function.iterate_succ_apply, hstep, ih fun i hi => ?_, ← BitVec.shiftRight_add,
      Nat.add_comm]
    rw [BitVec.getLsbD_ushiftRight]
    exact hx _ (by omega)

/-- The table holds eight steps for every byte. -/
theorem crc32cTable_eq :
    ∀ i, i < 256 → crc32cTable.getD i 0 = crcBit^[8] (BitVec.ofNat 32 i) := by
  decide +kernel

theorem getLsbD_ff (i : Nat) : (0xFF#32).getLsbD i = decide (i < 8) := by
  rw [show 0xFF#32 = (BitVec.allOnes 8).setWidth 32 by decide, BitVec.getLsbD_setWidth,
    BitVec.getLsbD_allOnes]
  by_cases h : i < 8
  · simp [h, show i < 32 by omega]
  · simp [h]

/-- The low byte, and the rest shifted back in place. -/
theorem eq_low_xor_high (x : BitVec 32) : x = (x &&& 0xFF#32) ^^^ (x >>> 8 <<< 8) := by
  apply BitVec.eq_of_getLsbD_eq
  intro i hi
  rw [BitVec.getLsbD_xor, BitVec.getLsbD_and, BitVec.getLsbD_shiftLeft,
    BitVec.getLsbD_ushiftRight, getLsbD_ff]
  by_cases h : i < 8
  · simp [h]
  · simp [h, hi, show 8 + (i - 8) = i by omega]

/-- **One byte** is eight steps. -/
theorem crc32cByte_eq (crc : BitVec 32) (byte : UInt8) :
    crc32cByte crc byte = crcBit^[8] (crc ^^^ byte.toBitVec.setWidth 32) := by
  generalize hx : crc ^^^ byte.toBitVec.setWidth 32 = x
  have hlow : (x &&& 0xFF#32).toNat < 256 := by
    rw [BitVec.toNat_and]
    exact Nat.lt_of_le_of_lt Nat.and_le_right (by decide)
  have hhigh : x >>> 8 = crc >>> 8 := by
    rw [← hx]
    apply BitVec.eq_of_getLsbD_eq
    intro i hi
    simp
  have hshift : crcBit^[8] (x >>> 8 <<< 8) = x >>> 8 := by
    rw [crcBit_iterate_of_low_zero 8 (fun i hi => by simp [hi])]
    apply BitVec.eq_of_getLsbD_eq
    intro i hi
    rw [BitVec.getLsbD_ushiftRight, BitVec.getLsbD_shiftLeft, BitVec.getLsbD_ushiftRight,
      BitVec.getLsbD_ushiftRight]
    by_cases h : 8 + i < 32
    · simp [h]
    · simp [BitVec.getLsbD_of_ge x (8 + i) (by omega)]
  conv => rhs; rw [eq_low_xor_high x]
  rw [crcBit_linear.iterate 8, hshift, hhigh, crc32cByte, hx, crc32cTable_eq _ hlow,
    BitVec.ofNat_toNat, BitVec.setWidth_eq]

/-! ## Blocks -/

/-- A block acts on the register as on zero, plus one step for each of its bits. -/
theorem foldl_crc32cByte_xor (data : Bytes) (x y : BitVec 32) :
    data.foldl crc32cByte (x ^^^ y) =
      data.foldl crc32cByte x ^^^ crcBit^[8 * data.length] y := by
  induction data generalizing x y with
  | nil => rfl
  | cons b data ih =>
    have hstep : crc32cByte (x ^^^ y) b = crc32cByte x b ^^^ crcBit^[8] y := by
      rw [crc32cByte_eq, crc32cByte_eq, ← crcBit_linear.iterate 8]
      congr 1
      ac_rfl
    rw [List.foldl_cons, List.foldl_cons, hstep, ih, ← Function.iterate_add_apply,
      List.length_cons, Nat.mul_succ]

/-- **The checksum of a block** from any start. -/
theorem braCrc32c_eq (data : Bytes) (crc : BitVec 32) :
    braCrc32c data crc = crcBit^[8 * data.length] crc ^^^ braCrc32c data braCrc32cInit := by
  have hnot : ~~~ crc = ~~~ braCrc32cInit ^^^ crc := by
    rw [← BitVec.not_xor_left, braCrc32cInit, show (0 : BitVec 32) = 0#32 from rfl,
      BitVec.zero_xor]
  rw [braCrc32c, hnot, foldl_crc32cByte_xor, BitVec.not_xor_left, BitVec.xor_comm]
  rfl

theorem braCrc32c_append (data data' : Bytes) (crc : BitVec 32) :
    braCrc32c (data ++ data') crc = braCrc32c data' (braCrc32c data crc) := by
  simp [braCrc32c]

@[simp] theorem braCrc32c_nil (crc : BitVec 32) : braCrc32c [] crc = crc := by
  simp [braCrc32c]

/-! ## Combining -/

theorem gf2MatrixTimes_columns {f : BitVec 32 → BitVec 32} (hf : Linear f) (v : BitVec 32) :
    gf2MatrixTimes (columns f) v = f v :=
  times_columns hf v

theorem gf2MatrixSquare_columns (n : Nat) :
    gf2MatrixSquare (columns crcBit^[n]) = columns crcBit^[2 * n] :=
  square_columns_iterate crcBit_linear n

theorem crc32cOdd_eq : crc32cOdd = columns crcBit^[1] := by
  decide +kernel

/-- The loop, from the operator for `n` steps, applies the operator for `2 * n * len_b`. -/
theorem crc32cCombineLoop_eq (fuel : Nat) :
    ∀ {n lenB : Nat} {crc32a : BitVec 32}, lenB < 4 ^ fuel →
      crc32cCombineLoop fuel (columns crcBit^[n]) crc32a lenB = crcBit^[2 * n * lenB] crc32a := by
  induction fuel with
  | zero =>
    intro n lenB crc32a h
    obtain rfl : lenB = 0 := by simpa using h
    rfl
  | succ fuel ih =>
    intro n lenB crc32a h
    -- a matrix is applied if and only if its bit of the length is set
    have hbit : ∀ (m l : Nat) (a : BitVec 32),
        (if l % 2 = 1 then gf2MatrixTimes (columns crcBit^[m]) a else a) =
          crcBit^[m * (l % 2)] a := by
      intro m l a
      rcases Nat.mod_two_eq_zero_or_one l with h0 | h1
      · rw [if_neg (by omega), h0]; rfl
      · rw [if_pos h1, h1, Nat.mul_one, gf2MatrixTimes_columns (crcBit_linear.iterate m)]
    rw [crc32cCombineLoop]
    simp only [gf2MatrixSquare_columns, hbit]
    rw [Nat.pow_succ] at h
    split
    · -- the loop may end after the first bit of a round, after the second, or not at all
      rename_i h2
      rw [show lenB % 2 = lenB by omega]
    · split
      · rename_i h4
        rw [← Function.iterate_add_apply]
        congr 2
        rw [show lenB / 2 % 2 = lenB / 2 by omega]
        conv => rhs; rw [← Nat.mod_add_div lenB 2]
        ring
      · rw [ih (by omega), ← Function.iterate_add_apply, ← Function.iterate_add_apply]
        congr 2
        conv => rhs; rw [← Nat.mod_add_div lenB 2, ← Nat.mod_add_div (lenB / 2) 2]
        ring

/-- **The combined checksum**, of a length that is not a multiple of `2 ^ 32`. -/
theorem braCrc32cCombine_eq {lenB : Nat} (h : lenB % 2 ^ 32 ≠ 0) (crc32a crc32b : BitVec 32) :
    braCrc32cCombine crc32a crc32b lenB =
      crcBit^[8 * (lenB % 2 ^ 32)] crc32a ^^^ crc32b := by
  have hlt : lenB % 2 ^ 32 < 4 ^ 16 := Nat.mod_lt _ (by decide)
  rw [braCrc32cCombine, if_neg h, crc32cOdd_eq, gf2MatrixSquare_columns, gf2MatrixSquare_columns,
    crc32cCombineLoop_eq 16 hlt]

/-- Combining appends a block of less than `2 ^ 32` bytes. -/
theorem braCrc32cCombine_block {data : Bytes} (hpos : 0 < data.length)
    (hlt : data.length < 2 ^ 32) (crc : BitVec 32) :
    braCrc32cCombine crc (braCrc32c data braCrc32cInit) data.length = braCrc32c data crc := by
  have hmod := Nat.mod_eq_of_lt hlt
  rw [braCrc32cCombine_eq (by omega), hmod, ← braCrc32c_eq]

/-- **The combine law**: the checksums of two blocks give the checksum of both in a row. -/
theorem braCrc32cCombine_append {a b : Bytes} (hb : b.length < 2 ^ 32) (p : BitVec 32) :
    braCrc32cCombine (braCrc32c a p) (braCrc32c b braCrc32cInit) b.length =
      braCrc32c (a ++ b) p := by
  rw [braCrc32c_append]
  rcases Nat.eq_zero_or_pos b.length with hzero | hpos
  · obtain rfl := List.eq_nil_of_length_eq_zero hzero
    rw [braCrc32c_nil, braCrc32c_nil]
    rfl
  · exact braCrc32cCombine_block hpos hb _

theorem braCrc32cCombine_append_letters :
    braCrc32cCombine (braCrc32c [97, 98] 5) (braCrc32c [99] braCrc32cInit) 1 =
      braCrc32c [97, 98, 99] 5 :=
  braCrc32cCombine_append (a := [97, 98]) (b := [99]) (by decide) 5

/-! ## The order of the step -/

/-- The exponent of the order of the step. -/
def crcOrder : Nat := 2 ^ 31 - 1

theorem crcOrder_prime : crcOrder.Prime :=
  lucas_lehmer_sufficiency 31 (by norm_num) (by norm_num)

/-- Thirty-one squarings lead back to one step. -/
theorem crcBit_iterate_two_pow : crcBit^[2 ^ 31] = crcBit := by
  have hcol : square^[31] (columns crcBit) = columns crcBit := by
    decide +kernel
  rw [iterate_square_columns crcBit_linear] at hcol
  funext x
  rw [← times_columns (crcBit_linear.iterate _), hcol, times_columns crcBit_linear]

theorem crcBit_eq_zero {x : BitVec 32} (h : crcBit x = 0#32) : x = 0#32 := by
  have hbit : ∀ i, (crcBit x).getLsbD i = false := by simp [h]
  unfold crcBit at hbit
  split at hbit
  · -- the polynomial sets the highest bit
    have := hbit 31
    rw [BitVec.getLsbD_xor, BitVec.getLsbD_ushiftRight, BitVec.getLsbD_of_ge x _ (by decide)] at this
    exact absurd this (by decide)
  · rename_i hlow
    apply BitVec.eq_of_getLsbD_eq
    intro i _
    rw [BitVec.getLsbD_zero]
    cases i with
    | zero => exact Bool.eq_false_iff.mpr hlow
    | succ i =>
      have := hbit i
      rwa [BitVec.getLsbD_ushiftRight, Nat.add_comm] at this

theorem crcBit_injective : Function.Injective crcBit := by
  intro x y h
  have hzero : crcBit (x ^^^ y) = 0#32 := by rw [crcBit_linear, h, BitVec.xor_self]
  have := crcBit_eq_zero hzero
  exact xor_left_cancel (a := y) (by rw [BitVec.xor_comm y x, this, BitVec.xor_self])

/-- **The order of the step** is the Mersenne prime `2 ^ 31 - 1`. -/
theorem crcBit_iterate_order : crcBit^[crcOrder] = id := by
  funext x
  apply crcBit_injective
  rw [← Function.iterate_succ_apply' crcBit]
  exact congrFun crcBit_iterate_two_pow x

theorem crcBit_ne_id : crcBit ≠ id := by
  intro h
  have : crcBit 1 = 1 := congrFun h 1
  exact absurd this (by decide)

theorem crcBit_iterate_eq_id_iff (n : Nat) : crcBit^[n] = id ↔ crcOrder ∣ n :=
  iterate_eq_id_iff crcOrder_prime crcBit_iterate_order crcBit_ne_id n

/-- Every checksum comes from some start. -/
theorem braCrc32c_surjective (data : Bytes) : Function.Surjective (braCrc32c data) := by
  intro y
  obtain ⟨crc, hcrc⟩ := iterate_surjective crcBit_iterate_order crcOrder_prime.pos
    (8 * data.length) (y ^^^ braCrc32c data braCrc32cInit)
  refine ⟨crc, ?_⟩
  rw [braCrc32c_eq, hcrc, BitVec.xor_assoc, BitVec.xor_self, BitVec.xor_zero]

/-- Different starts lead to different checksums. -/
theorem braCrc32c_injective (data : Bytes) : Function.Injective (braCrc32c data) := by
  intro x y h
  rw [braCrc32c_eq data x, braCrc32c_eq data y, BitVec.xor_left_inj] at h
  exact iterate_injective crcBit_iterate_order crcOrder_prime.pos _ h

/-- Two blocks that differ in the last byte only have different checksums. -/
theorem braCrc32c_last_injective (data : Bytes) (crc : BitVec 32) {b b' : UInt8}
    (h : braCrc32c (data ++ [b]) crc = braCrc32c (data ++ [b']) crc) : b = b' := by
  simp only [braCrc32c, List.foldl_append, List.foldl_cons, List.foldl_nil, crc32cByte_eq] at h
  have h := iterate_injective crcBit_iterate_order crcOrder_prime.pos 8 (BitVec.not_inj.mp h)
  have h := xor_left_cancel h
  have h := congrArg BitVec.toNat h
  rw [BitVec.toNat_setWidth, BitVec.toNat_setWidth] at h
  have hb := b.toNat_lt
  have hb' := b'.toNat_lt
  refine UInt8.toNat_inj.mp ?_
  rw [UInt8.toNat_toBitVec, UInt8.toNat_toBitVec] at h
  omega

end BrArchive
