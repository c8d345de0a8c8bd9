import Mathlib.Data.List.Nodup
import Mathlib.Order.Defs.LinearOrder
import Mathlib.Algebra.BigOperators.Group.Finset.Basic
import Mathlib.Algebra.Ring.Nat

/-! # Constants, attribute bits and small helpers

The definitions of `lib_bra_defs.h` and `lib_bra_types.h` that the modelled
functions use, and the helpers of `lib_bra_private.c` that everything else calls.
Bytes are `UInt8`; buffers and C strings are lists of bytes, a C string without
its terminating NUL.  Sizes and counters are `Nat`: a counter that the source
keeps in a `uint32_t` is reduced modulo `2 ^ 32` wherever it could wrap.
-/
namespace BrArchive

/-- A buffer, or a C string without its terminating NUL. -/
abbrev Bytes := List UInt8

/-- Bytes compare as unsigned integers. -/
instance instLinearOrderUInt8 : LinearOrder UInt8 where
  le_refl := UInt8.le_refl
  le_trans _ _ _ := UInt8.le_trans
  le_antisymm _ _ := UInt8.le_antisymm
  le_total := UInt8.le_total
  lt_iff_le_not_ge a b := by simp only [UInt8.lt_iff_toNat_lt, UInt8.le_iff_toNat_le]; omega
  toDecidableLE := inferInstance
  toDecidableEq := inferInstance
  toDecidableLT := inferInstance

/-- Equality of bytes is the one that is decided. -/
instance instLawfulBEqUInt8 : LawfulBEq UInt8 := inferInstance

/-- `'BR-a'`, the magic number of an archive header. -/
def braMagic : Nat := 0x612D5242

/-- Largest number of bytes of a file handled at once, and the capacity of each
of the work buffers `bra_init` allocates. -/
def braMaxChunkSize : Nat := 256 * 1024

/-- Bytes of a BWT primary index on disk. -/
def braBwtIndexBytes : Nat := 3

/-- Longest run, and longest literal block, of the run-length encoder. -/
def braRleMaxRuns : Nat := 128

/-- Shortest run that gets a run block. -/
def braRleMinRuns : Nat := 3

/-- Size of a `bra_huffman_t`: 256 code lengths and two 32-bit sizes. -/
def sizeofHuffman : Nat := 264

/-- Size of a chunk header on disk. -/
def braIoChunkHeaderSize : Nat := braBwtIndexBytes + sizeofHuffman

/-- `sizeof(bra_io_chunk_header_t)`: in memory the primary index takes four bytes. -/
def sizeofChunkHeader : Nat := 4 + sizeofHuffman

/-- The symbols of the alphabet in increasing order, as the `for` loops over
`BRA_ALPHABET_SIZE` visit them. -/
def alphabet : List UInt8 := (List.range 256).map UInt8.ofNat

/-- `'/'`, `BRA_DIR_DELIM`. -/
def braDirDelim : UInt8 := 47

/-! ## Attributes -/

/-- The type of an entry, the lower two attribute bits. -/
inductive AttrType where
  | file
  | dir
  | sym
  | subdir
  deriving DecidableEq, Repr

/-- The two bits that encode a type. -/
def AttrType.bits : AttrType → UInt8
  | .file => 0
  | .dir => 1
  | .sym => 2
  | .subdir => 3

/-- `BRA_ATTR_TYPE`. -/
def braAttrType (x : UInt8) : AttrType :=
  match (x &&& 0x03).toNat with
  | 0 => .file
  | 1 => .dir
  | 2 => .sym
  | _ => .subdir

/-- `BRA_ATTR_SET_TYPE`. -/
def braAttrSetType (x : UInt8) (type : AttrType) : UInt8 := (x &&& ~~~0x03) ||| type.bits

/-- `BRA_ATTR_COMP`, bits two and three. -/
def braAttrComp (x : UInt8) : UInt8 := x &&& 0x0C

/-- `BRA_ATTR_SET_COMP`. -/
def braAttrSetComp (x comp : UInt8) : UInt8 := (x &&& ~~~0x0C) ||| (comp &&& 0x0C)

/-- No compression, no chunk headers. -/
def braAttrCompStored : UInt8 := 0

/-- Compressed: every chunk starts with a chunk header. -/
def braAttrCompCompressed : UInt8 := 4

/-! ## Little-endian integers

The archive stores every integer as the little-endian image of a C integer. -/

/-- The `k` low bytes of `n`, least significant first. -/
def leBytes : Nat → Nat → Bytes
  | 0, _ => []
  | k + 1, n => UInt8.ofNat (n % 256) :: leBytes k (n / 256)

/-- The integer whose little-endian image is `bs`. -/
def leValue : Bytes → Nat
  | [] => 0
  | b :: bs => b.toNat + 256 * leValue bs

@[simp] theorem leBytes_length (k n : Nat) : (leBytes k n).length = k := by
  induction k generalizing n with
  | zero => rfl
  | succ k ih => simp [leBytes, ih]

theorem leValue_leBytes (k n : Nat) : leValue (leBytes k n) = n % 256 ^ k := by
  induction k generalizing n with
  | zero => simp [leBytes, leValue, Nat.mod_one]
  | succ k ih =>
    have hb : (UInt8.ofNat (n % 256)).toNat = n % 256 := by simp
    rw [leBytes, leValue, ih, hb, Nat.pow_succ, Nat.mul_comm (256 ^ k) 256, Nat.mod_mul]

theorem leValue_lt (bs : Bytes) : leValue bs < 256 ^ bs.length := by
  induction bs with
  | nil => simp [leValue]
  | cons b bs ih =>
    have hb := b.toNat_lt
    rw [leValue, List.length_cons, Nat.pow_succ]
    omega

theorem leBytes_leValue (bs : Bytes) : leBytes bs.length (leValue bs) = bs := by
  induction bs with
  | nil => rfl
  | cons b bs ih =>
    have hb := b.toNat_lt
    have hmod : (b.toNat + 256 * leValue bs) % 256 = b.toNat := by omega
    have hdiv : (b.toNat + 256 * leValue bs) / 256 = leValue bs := by omega
    rw [List.length_cons, leBytes, leValue, hmod, hdiv, ih, UInt8.ofNat_toNat]

/-! ## C strings -/

/-- The C string a buffer holds: everything before its first NUL. -/
def cString (buf : Bytes) : Bytes := buf.takeWhile (· ≠ 0)

@[simp] theorem cString_cons (b : UInt8) (buf : Bytes) :
    cString (b :: buf) = if b = 0 then [] else b :: cString buf := by
  unfold cString
  rw [List.takeWhile_cons]
  by_cases hb : b = 0 <;> simp [hb]

theorem cString_nul_free (buf : Bytes) : 0 ∉ cString buf := by
  induction buf with
  | nil => simp [cString]
  | cons b buf ih =>
    by_cases hb : b = 0
    · simp [hb]
    · simpa [hb, ih] using Ne.symm hb

theorem cString_append_nul {s : Bytes} (h : 0 ∉ s) (rest : Bytes) :
    cString (s ++ 0 :: rest) = s := by
  induction s with
  | nil => simp
  | cons b s ih =>
    obtain ⟨hb, hs⟩ := List.ne_and_not_mem_of_not_mem_cons h
    rw [List.cons_append, cString_cons, if_neg (Ne.symm hb), ih hs]

theorem cString_eq_self {s : Bytes} (h : 0 ∉ s) : cString s = s := by
  induction s with
  | nil => rfl
  | cons b s ih =>
    obtain ⟨hb, hs⟩ := List.ne_and_not_mem_of_not_mem_cons h
    rw [cString_cons, if_neg (Ne.symm hb), ih hs]

/-- A C string that a function is given: its bytes, none of which is a NUL. -/
@[ext] structure CStr where
  bytes : Bytes
  nul_free : 0 ∉ bytes
  deriving DecidableEq

/-- The C string a buffer holds. -/
def CStr.ofBuffer (buf : Bytes) : CStr := ⟨cString buf, cString_nul_free buf⟩

@[simp] theorem CStr.ofBuffer_bytes (s : CStr) : CStr.ofBuffer s.bytes = s :=
  CStr.ext (cString_eq_self s.nul_free)

@[simp] theorem CStr.ofBuffer_append_nul (s : CStr) (rest : Bytes) :
    CStr.ofBuffer (s.bytes ++ 0 :: rest) = s :=
  CStr.ext (cString_append_nul s.nul_free rest)

/-- `_bra_min`. -/
def braMin (a b : Nat) : Nat := if a < b then a else b

theorem braMin_eq (a b : Nat) : braMin a b = min a b := by
  unfold braMin
  split <;> omega

/-! ## Byte counts -/

/-- A table of counters, one of which is stepped for every byte, counts the bytes. -/
theorem foldl_update_count (buf : Bytes) :
    buf.foldl (fun count b => Function.update count b (count b + 1)) (fun _ => 0) =
      fun b => buf.count b := by
  suffices h : ∀ (l : Bytes) (f : UInt8 → Nat),
      l.foldl (fun count b => Function.update count b (count b + 1)) f =
        fun b => f b + l.count b by
    simpa using h buf (fun _ => 0)
  intro l
  induction l with
  | nil => intro f; simp
  | cons a l ih =>
    intro f
    rw [List.foldl_cons, ih]
    funext b
    by_cases hb : a = b
    · subst hb; simp; omega
    · simp [hb, Function.update_of_ne (Ne.symm hb)]

/-! ## The alphabet -/

theorem alphabet_nodup : alphabet.Nodup := by
  refine List.Nodup.map_on (fun a ha b hb h => ?_) List.nodup_range
  have h' : a % 256 = b % 256 := by simpa using congrArg UInt8.toNat h
  rwa [Nat.mod_eq_of_lt (List.mem_range.mp ha), Nat.mod_eq_of_lt (List.mem_range.mp hb)] at h'

theorem mem_alphabet (s : UInt8) : s ∈ alphabet :=
  List.mem_map.mpr ⟨s.toNat, List.mem_range.mpr s.toNat_lt, UInt8.ofNat_toNat⟩

/-- Summing over the alphabet is summing over the symbols that contribute. -/
theorem sum_alphabet {g : UInt8 → Nat} {syms : List UInt8} (hnodup : syms.Nodup)
    (hg : ∀ s, s ∉ syms → g s = 0) : (alphabet.map g).sum = (syms.map g).sum := by
  rw [← List.sum_toFinset g alphabet_nodup, ← List.sum_toFinset g hnodup]
  refine (Finset.sum_subset (fun s _ => List.mem_toFinset.mpr (mem_alphabet s)) ?_).symm
  intro s _ hs
  exact hg s (fun h => hs (List.mem_toFinset.mpr h))

/-- Every byte of a buffer is counted once. -/
theorem sum_alphabet_count (buf : Bytes) :
    (alphabet.map (fun s => buf.count s)).sum = buf.length := by
  rw [sum_alphabet (List.nodup_dedup buf)
    (fun s hs => List.count_eq_zero_of_not_mem (fun h => hs (List.mem_dedup.mpr h)))]
  exact List.sum_map_count_dedup_eq_length buf

end BrArchive
