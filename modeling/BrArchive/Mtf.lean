import BrArchive.Defs
import Mathlib.Data.List.GetD

/-! # The move-to-front transform

Encoder and decoder keep the same table, a permutation of the alphabet: the encoder
emits the position of a symbol, the decoder the symbol at a position, and both move it
to the front.
-/
namespace BrArchive

/-- `mtf_init_table`. -/
def mtfInitTable : Bytes := alphabet

/-- The entry at a position is shifted to the front. -/
def mtfMoveToFront (table : Bytes) (position : Nat) : Bytes :=
  table.getD position 0 :: table.eraseIdx position

/-- `mtf_encode_symbol`: the first position that holds the symbol, and the new table. -/
def mtfEncodeSymbol (table : Bytes) (symbol : UInt8) : UInt8 × Bytes :=
  let position := table.idxOf symbol
  (UInt8.ofNat position, mtfMoveToFront table position)

/-- `mtf_decode_symbol`. -/
def mtfDecodeSymbol (table : Bytes) (position : UInt8) : Bytes :=
  mtfMoveToFront table position.toNat

/-- The loop of `bra_mtf_encode2`. -/
def mtfEncodeFrom : Bytes → Bytes → Bytes
  | _, [] => []
  | table, symbol :: buf =>
    let (position, table) := mtfEncodeSymbol table symbol
    position :: mtfEncodeFrom table buf

/-- `bra_mtf_encode2`. -/
def braMtfEncode2 (buf : Bytes) : Bytes := mtfEncodeFrom mtfInitTable buf

/-- The loop of `bra_mtf_decode2`. -/
def mtfDecodeFrom : Bytes → Bytes → Bytes
  | _, [] => []
  | table, position :: buf =>
    table.getD position.toNat 0 :: mtfDecodeFrom (mtfDecodeSymbol table position) buf

/-- `bra_mtf_decode2`. -/
def braMtfDecode2 (buf : Bytes) : Bytes := mtfDecodeFrom mtfInitTable buf

@[simp] theorem mtfEncodeFrom_length (table buf : Bytes) :
    (mtfEncodeFrom table buf).length = buf.length := by
  induction buf generalizing table with
  | nil => rfl
  | cons b buf ih => simp [mtfEncodeFrom, mtfEncodeSymbol, ih]

@[simp] theorem mtfDecodeFrom_length (table buf : Bytes) :
    (mtfDecodeFrom table buf).length = buf.length := by
  induction buf generalizing table with
  | nil => rfl
  | cons b buf ih => simp [mtfDecodeFrom, ih]

theorem braMtfEncode2_length (buf : Bytes) : (braMtfEncode2 buf).length = buf.length :=
  mtfEncodeFrom_length _ _

theorem braMtfDecode2_length (buf : Bytes) : (braMtfDecode2 buf).length = buf.length :=
  mtfDecodeFrom_length _ _

/-- Moving an entry to the front permutes the table. -/
theorem mtfMoveToFront_perm {table : Bytes} {position : Nat} (h : position < table.length) :
    (mtfMoveToFront table position).Perm table := by
  rw [mtfMoveToFront, List.getD_eq_getElem _ _ h]
  exact List.getElem_cons_eraseIdx_perm h

/-- A table of all symbols. -/
def MtfTable (table : Bytes) : Prop := table.Perm alphabet

theorem MtfTable.idxOf_lt {table : Bytes} (h : MtfTable table) (s : UInt8) :
    table.idxOf s < table.length :=
  List.idxOf_lt_length_of_mem (h.mem_iff.mpr (mem_alphabet s))

theorem MtfTable.toNat_position {table : Bytes} (h : MtfTable table) (s : UInt8) :
    (UInt8.ofNat (table.idxOf s)).toNat = table.idxOf s := by
  have hlt := h.idxOf_lt s
  rw [h.length_eq, alphabet, List.length_map, List.length_range] at hlt
  rw [UInt8.toNat_ofNat', Nat.mod_eq_of_lt hlt]

theorem MtfTable.moveToFront {table : Bytes} (h : MtfTable table) {position : Nat}
    (hlt : position < table.length) : MtfTable (mtfMoveToFront table position) :=
  (mtfMoveToFront_perm hlt).trans h

/-- Both sides step to the same table. -/
theorem mtfDecodeFrom_mtfEncodeFrom (buf : Bytes) :
    ∀ {table : Bytes}, MtfTable table → mtfDecodeFrom table (mtfEncodeFrom table buf) = buf := by
  induction buf with
  | nil => intro table _; rfl
  | cons b buf ih =>
    intro table h
    have hlt := h.idxOf_lt b
    rw [mtfEncodeFrom, mtfEncodeSymbol, mtfDecodeFrom, mtfDecodeSymbol, h.toNat_position,
      ih (h.moveToFront hlt), List.getD_eq_getElem _ _ hlt, List.getElem_idxOf hlt]

/-- **Move-to-front round trip.** -/
theorem braMtfDecode2_braMtfEncode2 (buf : Bytes) : braMtfDecode2 (braMtfEncode2 buf) = buf :=
  mtfDecodeFrom_mtfEncodeFrom buf (List.Perm.refl _)

/-- The table after a buffer has been encoded. -/
def mtfTableAfter (table buf : Bytes) : Bytes :=
  buf.foldl (fun table symbol => (mtfEncodeSymbol table symbol).2) table

theorem mtfEncodeFrom_append (table buf buf' : Bytes) :
    mtfEncodeFrom table (buf ++ buf') =
      mtfEncodeFrom table buf ++ mtfEncodeFrom (mtfTableAfter table buf) buf' := by
  induction buf generalizing table with
  | nil => rfl
  | cons b buf ih =>
    rw [List.cons_append, mtfEncodeFrom, mtfEncodeFrom, mtfTableAfter, List.foldl_cons]
    exact congrArg _ (ih _)

end BrArchive
