import BrArchive.Mtf
import BrArchive.WhileLoop

/-! # The move-to-front loops

`bra_mtf.c` in place: a search that nothing bounds but the table, a shift entry by entry,
and positions that are `uint8_t`.  The table is a permutation of the alphabet in every
state of either run, so the search always ends at the entry it is for, before its index
could wrap, and each run undoes the other.
-/
namespace BrArchive
open WhileLoop

/-- The condition of the search loop of `mtf_encode_symbol`. -/
def mtfSearching (table : Bytes) (symbol position : UInt8) : Bool :=
  table.getD position.toNat 0 ≠ symbol

/-- The search loop of `mtf_encode_symbol`, given up after as many rounds as there are
positions. -/
def mtfSearch (table : Bytes) (symbol : UInt8) : Option UInt8 :=
  run (mtfSearching table symbol) (fun position => some (position + 1)) 256 0

/-- The shift loop: entries up to `i` move up one place. -/
def mtfShift : Nat → Bytes → Bytes
  | 0, table => table
  | i + 1, table => mtfShift i (table.set (i + 1) (table.getD i 0))

/-- `mtf_decode_symbol`, and the second half of `mtf_encode_symbol`. -/
def mtfDecodeSymbolInPlace (table : Bytes) (position : UInt8) : Bytes :=
  let temp := table.getD position.toNat 0
  (mtfShift position.toNat table).set 0 temp

/-- `mtf_encode_symbol`. -/
def mtfEncodeSymbolInPlace (table : Bytes) (symbol : UInt8) : Option (UInt8 × Bytes) := do
  let position ← mtfSearch table symbol
  return (position, mtfDecodeSymbolInPlace table position)

/-- The state of the loops over a buffer: the table, the index, and what has been written. -/
structure MtfState where
  table : Bytes
  i : Nat
  out : Bytes

/-- One round of `bra_mtf_encode2`. -/
def mtfEncodeRound (buf : Bytes) (st : MtfState) : Option MtfState := do
  let symbol ← buf[st.i]?
  let (position, table) ← mtfEncodeSymbolInPlace st.table symbol
  return ⟨table, st.i + 1, st.out ++ [position]⟩

/-- `bra_mtf_encode2`. -/
def braMtfEncode2InPlace (buf : Bytes) : Option Bytes :=
  (run (fun st => st.i < buf.length) (mtfEncodeRound buf) buf.length ⟨mtfInitTable, 0, []⟩).map
    MtfState.out

/-- One round of `bra_mtf_decode2`. -/
def mtfDecodeRound (buf : Bytes) (st : MtfState) : Option MtfState := do
  let position ← buf[st.i]?
  let symbol := st.table.getD position.toNat 0
  return ⟨mtfDecodeSymbolInPlace st.table position, st.i + 1, st.out ++ [symbol]⟩

/-- `bra_mtf_decode2`. -/
def braMtfDecode2InPlace (buf : Bytes) : Option Bytes :=
  (run (fun st => st.i < buf.length) (mtfDecodeRound buf) buf.length ⟨mtfInitTable, 0, []⟩).map
    MtfState.out

/-! ## One symbol -/

/-- The shift closes the gap at `p` and leaves the first entry doubled. -/
theorem mtfShift_eq (p : Nat) {table : Bytes} (hp : p < table.length) :
    mtfShift p table = table.getD 0 0 :: (table.take p ++ table.drop (p + 1)) := by
  induction p generalizing table with
  | zero =>
    obtain ⟨b, table, rfl⟩ := List.exists_cons_of_length_pos hp
    rfl
  | succ p ih =>
    have htake : (table.set (p + 1) (table.getD p 0)).take p = table.take p := by
      rw [List.take_set, List.set_eq_of_length_le]
      rw [List.length_take]
      omega
    have hdrop : (table.set (p + 1) (table.getD p 0)).drop (p + 1) =
        table.getD p 0 :: table.drop (p + 2) := by
      rw [List.drop_eq_getElem_cons (by rwa [List.length_set]), List.getElem_set_self,
        List.drop_set_of_lt (by omega)]
    have hhead : (table.set (p + 1) (table.getD p 0)).getD 0 0 = table.getD 0 0 := by
      obtain ⟨b, table, rfl⟩ := List.exists_cons_of_length_pos (Nat.lt_of_le_of_lt (Nat.zero_le _) hp)
      rfl
    have hp' : p < table.length := by omega
    rw [mtfShift, ih (by rw [List.length_set]; omega), htake, hdrop, hhead,
      List.take_succ_eq_append_getElem hp', List.getD_eq_getElem _ _ hp', List.append_assoc]
    rfl

theorem mtfDecodeSymbolInPlace_eq {table : Bytes} {position : UInt8}
    (h : position.toNat < table.length) :
    mtfDecodeSymbolInPlace table position = mtfDecodeSymbol table position := by
  rw [mtfDecodeSymbolInPlace, mtfShift_eq _ h, List.set_cons_zero, mtfDecodeSymbol, mtfMoveToFront,
    List.eraseIdx_eq_take_drop_succ]

theorem MtfTable.length {table : Bytes} (h : MtfTable table) : table.length = 256 := by
  rw [h.length_eq, alphabet, List.length_map, List.length_range]

theorem MtfTable.nodup {table : Bytes} (h : MtfTable table) : table.Nodup :=
  h.nodup_iff.mpr alphabet_nodup

/-- The search goes on exactly below the position of the symbol. -/
theorem MtfTable.searching_iff {table : Bytes} (h : MtfTable table) {symbol position : UInt8} :
    mtfSearching table symbol position = true ↔ position.toNat ≠ table.idxOf symbol := by
  have hlt : position.toNat < table.length := h.length ▸ position.toNat_lt
  have hidx := h.idxOf_lt symbol
  rw [mtfSearching, decide_eq_true_iff, List.getD_eq_getElem _ _ hlt, not_iff_not]
  constructor
  · rintro rfl
    exact (h.nodup.idxOf_getElem _ hlt).symm
  · intro heq
    simp only [heq, List.getElem_idxOf hidx]

/-- The search has not passed the position of the symbol. -/
theorem MtfTable.search_le {table : Bytes} (h : MtfTable table) {symbol position : UInt8}
    (hreach : Reaches (mtfSearching table symbol) (fun position => some (position + 1)) 0 position) :
    position.toNat ≤ table.idxOf symbol := by
  refine hreach.invariant (I := fun position => position.toNat ≤ table.idxOf symbol) ?_
    (Nat.zero_le _)
  intro p q hle hcond hnext
  obtain rfl := Option.some.inj hnext
  have hne := h.searching_iff.mp hcond
  have hidx := h.idxOf_lt symbol
  rw [h.length] at hidx
  rw [UInt8.toNat_add, UInt8.toNat_one, Nat.mod_eq_of_lt (by omega)]
  omega

/-- **The search stops**, at the symbol. -/
theorem MtfTable.search_eq {table : Bytes} (h : MtfTable table) (symbol : UInt8) :
    mtfSearch table symbol = some (UInt8.ofNat (table.idxOf symbol)) := by
  have hidx := h.idxOf_lt symbol
  rw [h.length] at hidx
  -- as long as the index is not reached, another step stays within the 256 of them
  have hrun : ∀ (fuel : Nat) (position : UInt8), position.toNat ≤ table.idxOf symbol →
      table.idxOf symbol - position.toNat ≤ fuel →
      run (mtfSearching table symbol) (fun position => some (position + 1)) fuel position =
        some (UInt8.ofNat (table.idxOf symbol)) := by
    intro fuel
    induction fuel with
    | zero =>
      intro position hle hfuel
      have heq : position.toNat = table.idxOf symbol := by omega
      rw [run_of_not, ← heq, UInt8.ofNat_toNat]
      exact Bool.eq_false_iff.mpr fun hcond => h.searching_iff.mp hcond heq
    | succ fuel ih =>
      intro position hle hfuel
      cases hcond : mtfSearching table symbol position with
      | false =>
        have heq : position.toNat = table.idxOf symbol := by
          by_contra hne
          rw [h.searching_iff.mpr hne] at hcond
          cases hcond
        rw [run_of_not hcond, ← heq, UInt8.ofNat_toNat]
      | true =>
        have hne := h.searching_iff.mp hcond
        have hsucc : (position + 1).toNat = position.toNat + 1 := by
          rw [UInt8.toNat_add, UInt8.toNat_one, Nat.mod_eq_of_lt (by omega)]
        rw [run_succ_of hcond, Option.bind_some, ih _ (by omega) (by omega)]
  exact hrun 256 0 (Nat.zero_le _) (by omega)

theorem MtfTable.encodeSymbol_eq {table : Bytes} (h : MtfTable table) (symbol : UInt8) :
    mtfEncodeSymbolInPlace table symbol = some (mtfEncodeSymbol table symbol) := by
  have hpos := h.toNat_position symbol
  have hlt := h.idxOf_lt symbol
  rw [mtfEncodeSymbolInPlace, h.search_eq]
  simp only [Option.bind_eq_bind, Option.bind_some, Option.pure_def, mtfEncodeSymbol]
  rw [mtfDecodeSymbolInPlace_eq (hpos.symm ▸ hlt), mtfDecodeSymbol, hpos]

theorem MtfTable.decodeSymbol_eq {table : Bytes} (h : MtfTable table) (position : UInt8) :
    mtfDecodeSymbolInPlace table position = mtfDecodeSymbol table position :=
  mtfDecodeSymbolInPlace_eq (h.length ▸ position.toNat_lt)

theorem MtfTable.encodeSymbol {table : Bytes} (h : MtfTable table) (symbol : UInt8) :
    MtfTable (mtfEncodeSymbol table symbol).2 :=
  h.moveToFront (h.idxOf_lt symbol)

theorem MtfTable.decodeSymbol {table : Bytes} (h : MtfTable table) (position : UInt8) :
    MtfTable (mtfDecodeSymbol table position) :=
  h.moveToFront (h.length ▸ position.toNat_lt)

theorem mtfInitTable_isTable : MtfTable mtfInitTable := List.Perm.refl _

/-! ## Whole buffers -/

theorem mtfEncodeRound_eq {buf : Bytes} {st : MtfState} (htable : MtfTable st.table)
    (h : st.i < buf.length) :
    mtfEncodeRound buf st = some ⟨(mtfEncodeSymbol st.table buf[st.i]).2, st.i + 1,
      st.out ++ [(mtfEncodeSymbol st.table buf[st.i]).1]⟩ := by
  simp only [mtfEncodeRound, List.getElem?_eq_getElem h, htable.encodeSymbol_eq,
    Option.bind_eq_bind, Option.bind_some, Option.pure_def]

theorem mtfDecodeRound_eq {buf : Bytes} {st : MtfState} (htable : MtfTable st.table)
    (h : st.i < buf.length) :
    mtfDecodeRound buf st = some ⟨mtfDecodeSymbol st.table buf[st.i], st.i + 1,
      st.out ++ [st.table.getD buf[st.i].toNat 0]⟩ := by
  simp only [mtfDecodeRound, List.getElem?_eq_getElem h, htable.decodeSymbol_eq,
    Option.bind_eq_bind, Option.bind_some, Option.pure_def]

theorem mtfEncodeLoop_run {buf : Bytes} (fuel : Nat) (st : MtfState) (htable : MtfTable st.table)
    (hfuel : buf.length - st.i ≤ fuel) :
    (run (fun st => st.i < buf.length) (mtfEncodeRound buf) fuel st).map MtfState.out =
      some (st.out ++ mtfEncodeFrom st.table (buf.drop st.i)) := by
  induction fuel generalizing st with
  | zero =>
    rw [run_of_not (by simp; omega), List.drop_eq_nil_of_le (by omega)]
    simp [mtfEncodeFrom]
  | succ fuel ih =>
    rcases Nat.lt_or_ge st.i buf.length with hlt | hge
    · have hround := mtfEncodeRound_eq htable hlt
      rw [run_succ_of (by simpa using hlt), hround, Option.bind_some,
        ih _ (htable.encodeSymbol _) (by simp only; omega), List.drop_eq_getElem_cons hlt,
        mtfEncodeFrom, List.append_assoc]
      rfl
    · rw [run_of_not (by simp; omega), List.drop_eq_nil_of_le (by omega)]
      simp [mtfEncodeFrom]

theorem mtfDecodeLoop_run {buf : Bytes} (fuel : Nat) (st : MtfState) (htable : MtfTable st.table)
    (hfuel : buf.length - st.i ≤ fuel) :
    (run (fun st => st.i < buf.length) (mtfDecodeRound buf) fuel st).map MtfState.out =
      some (st.out ++ mtfDecodeFrom st.table (buf.drop st.i)) := by
  induction fuel generalizing st with
  | zero =>
    rw [run_of_not (by simp; omega), List.drop_eq_nil_of_le (by omega)]
    simp [mtfDecodeFrom]
  | succ fuel ih =>
    rcases Nat.lt_or_ge st.i buf.length with hlt | hge
    · have hround := mtfDecodeRound_eq htable hlt
      rw [run_succ_of (by simpa using hlt), hround, Option.bind_some,
        ih _ (htable.decodeSymbol _) (by simp only; omega), List.drop_eq_getElem_cons hlt,
        mtfDecodeFrom, List.append_assoc]
      rfl
    · rw [run_of_not (by simp; omega), List.drop_eq_nil_of_le (by omega)]
      simp [mtfDecodeFrom]

/-- The encoder in place is the transform. -/
theorem braMtfEncode2InPlace_eq (buf : Bytes) :
    braMtfEncode2InPlace buf = some (braMtfEncode2 buf) :=
  mtfEncodeLoop_run buf.length ⟨mtfInitTable, 0, []⟩ mtfInitTable_isTable (Nat.sub_le _ _)

/-- The decoder in place is the inverse transform. -/
theorem braMtfDecode2InPlace_eq (buf : Bytes) :
    braMtfDecode2InPlace buf = some (braMtfDecode2 buf) :=
  mtfDecodeLoop_run buf.length ⟨mtfInitTable, 0, []⟩ mtfInitTable_isTable (Nat.sub_le _ _)

/-- Every byte string is the code of a byte string. -/
theorem mtfEncodeFrom_mtfDecodeFrom (buf : Bytes) :
    ∀ {table : Bytes}, MtfTable table → mtfEncodeFrom table (mtfDecodeFrom table buf) = buf := by
  induction buf with
  | nil => intro table _; rfl
  | cons p buf ih =>
    intro table h
    have hlt : p.toNat < table.length := h.length ▸ p.toNat_lt
    have hidx : table.idxOf (table.getD p.toNat 0) = p.toNat := by
      rw [List.getD_eq_getElem _ _ hlt]
      exact h.nodup.idxOf_getElem _ hlt
    have ih := ih (h.decodeSymbol p)
    rw [mtfDecodeSymbol] at ih
    rw [mtfDecodeFrom, mtfEncodeFrom, mtfEncodeSymbol, hidx, mtfDecodeSymbol]
    simp only [ih, UInt8.ofNat_toNat]

theorem braMtfEncode2_braMtfDecode2 (buf : Bytes) : braMtfEncode2 (braMtfDecode2 buf) = buf :=
  mtfEncodeFrom_mtfDecodeFrom buf mtfInitTable_isTable

/-- In every state of the encoder the table is a permutation of the alphabet. -/
theorem mtfEncode_table {buf : Bytes} {st : MtfState}
    (h : Reaches (fun st => st.i < buf.length) (mtfEncodeRound buf) ⟨mtfInitTable, 0, []⟩ st) :
    MtfTable st.table := by
  refine h.invariant (I := fun st => MtfTable st.table) ?_ mtfInitTable_isTable
  intro st st' htable hcond hround
  rw [mtfEncodeRound_eq htable (of_decide_eq_true hcond)] at hround
  obtain rfl := Option.some.inj hround
  exact htable.encodeSymbol _

/-- In every state of the decoder the table is a permutation of the alphabet. -/
theorem mtfDecode_table {buf : Bytes} {st : MtfState}
    (h : Reaches (fun st => st.i < buf.length) (mtfDecodeRound buf) ⟨mtfInitTable, 0, []⟩ st) :
    MtfTable st.table := by
  refine h.invariant (I := fun st => MtfTable st.table) ?_ mtfInitTable_isTable
  intro st st' htable hcond hround
  rw [mtfDecodeRound_eq htable (of_decide_eq_true hcond)] at hround
  obtain rfl := Option.some.inj hround
  exact htable.decodeSymbol _

/-- The search for a symbol stops at a position that holds it, and its index never wraps:
wherever the search goes on, there is a position after it. -/
structure MtfSearchStops (table : Bytes) (symbol : UInt8) : Prop where
  stops : ∃ position, mtfSearch table symbol = some position ∧
    table[position.toNat]? = some symbol
  no_wrap : ∀ position, Reaches (mtfSearching table symbol) (fun position => some (position + 1))
    0 position → mtfSearching table symbol position = true → position.toNat + 1 ≤ 255

theorem MtfTable.searchStops {table : Bytes} (h : MtfTable table) (symbol : UInt8) :
    MtfSearchStops table symbol where
  stops := by
    refine ⟨_, h.search_eq symbol, ?_⟩
    rw [h.toNat_position, List.getElem?_eq_getElem (h.idxOf_lt symbol), List.getElem_idxOf]
  no_wrap position hreach hcond := by
    have hle := h.search_le hreach
    have hne := h.searching_iff.mp hcond
    have hidx := h.idxOf_lt symbol
    rw [h.length] at hidx
    omega

/-- **Move-to-front is a bijection** on byte strings, and the table stays a permutation of
the alphabet throughout both runs, so every search of the encoder stops. -/
theorem mtf_bijective :
    (∀ x : Bytes, ∃ y, braMtfEncode2InPlace x = some y ∧ braMtfDecode2InPlace y = some x) ∧
      (∀ y : Bytes, ∃ x, braMtfDecode2InPlace y = some x ∧ braMtfEncode2InPlace x = some y) ∧
      (∀ (x : Bytes) (st : MtfState),
        Reaches (fun st => st.i < x.length) (mtfEncodeRound x) ⟨mtfInitTable, 0, []⟩ st →
          st.table.Perm alphabet ∧ ∀ symbol, MtfSearchStops st.table symbol) ∧
      ∀ (y : Bytes) (st : MtfState),
        Reaches (fun st => st.i < y.length) (mtfDecodeRound y) ⟨mtfInitTable, 0, []⟩ st →
          st.table.Perm alphabet := by
  refine ⟨fun x => ?_, fun y => ?_, fun x st hreach => ?_, fun y st => mtfDecode_table⟩
  · refine ⟨_, braMtfEncode2InPlace_eq x, ?_⟩
    rw [braMtfDecode2InPlace_eq, braMtfDecode2_braMtfEncode2]
  · refine ⟨_, braMtfDecode2InPlace_eq y, ?_⟩
    rw [braMtfEncode2InPlace_eq, braMtfEncode2_braMtfDecode2]
  · exact ⟨mtfEncode_table hreach, (mtfEncode_table hreach).searchStops⟩

end BrArchive
