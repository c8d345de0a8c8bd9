import BrArchive.Bwt

/-! # The inverse BWT on arbitrary data

`bra_bwt_decode2` gets its buffer from an archive: it need not be the transform of anything.
Here its loops run on memory that is checked.  A slot of `transform` is `none` until it is
written, and every access that leaves its bounds, writes a slot for the second time or reads
one that has not been written fails.  None does: the loops are a counting sort, and the chain
that is followed stays among the slots that it fills.
-/
namespace BrArchive
open StableRank

/-- `c`'s cursor is in its range: behind the bytes below `c`, before those above it. -/
def CursorInRange (buf : Bytes) (c : UInt8) (cursor : Nat) : Prop :=
  firstOccurrence (bwtCount buf) c.toNat ≤ cursor ∧
    cursor < firstOccurrence (bwtCount buf) (c.toNat + 1)

instance (buf : Bytes) (c : UInt8) (cursor : Nat) : Decidable (CursorInRange buf c cursor) := by
  unfold CursorInRange
  infer_instance

section Checked
variable (buf : Bytes)

/-- The loop that fills `transform`, on slots that have to be unwritten. -/
def fillSlots : Bytes → Nat → (UInt8 → Nat) → List (Option Nat) → Option (List (Option Nat))
  | [], _, _, slots => some slots
  | c :: bs, i, tempFirst, slots =>
    if CursorInRange buf c (tempFirst c) ∧ slots[tempFirst c]? = some none then
      fillSlots bs (i + 1) (Function.update tempFirst c (tempFirst c + 1))
        (slots.set (tempFirst c) (some i))
    else none

/-- The loop that follows the chain, through slots that have to be written. -/
def followSlots (slots : List (Option Nat)) : Nat → Nat → Option Bytes
  | 0, _ => some []
  | k + 1, index => do
    let index ← slots[index]?.join
    let b ← buf[index]?
    let out ← followSlots slots k index
    return b :: out

/-- The slots that `bra_bwt_decode2` fills, the buffer `transform` having as many as there are
bytes. -/
def bwtSlots : Option (List (Option Nat)) :=
  fillSlots buf buf 0 (fun b => firstOccurrence (bwtCount buf) b.toNat)
    (List.replicate buf.length none)

/-- The loop has filled the slots of the indices below `i`. -/
structure SlotsFilled (i : Nat) (tempFirst : UInt8 → Nat) (slots : List (Option Nat)) : Prop where
  length : slots.length = buf.length
  first : ∀ c, tempFirst c = firstOccurrence (bwtCount buf) c.toNat + (buf.take i).count c
  slot : ∀ k, k < buf.length →
    slots[rank (bwtKey buf) buf.length k]? = some (if k < i then some k else none)

theorem bwtKey_eq {i : Nat} (hi : i < buf.length) : bwtKey buf i = buf[i] := by
  simp [bwtKey, hi]

/-- The byte at the index is still to be counted, so that its cursor has room. -/
theorem SlotsFilled.cursorInRange {i : Nat} {tempFirst : UInt8 → Nat}
    {slots : List (Option Nat)} (h : SlotsFilled buf i tempFirst slots) (hi : i < buf.length) :
    CursorInRange buf (bwtKey buf i) (tempFirst (bwtKey buf i)) := by
  have hcount : (buf.take (i + 1)).count (bwtKey buf i) ≤ buf.count (bwtKey buf i) :=
    (List.take_sublist _ _).count_le _
  rw [List.take_add_one, List.getElem?_eq_getElem hi, List.count_append, bwtKey_eq buf hi] at hcount
  simp only [Option.toList_some, List.count_singleton_self] at hcount
  rw [CursorInRange, h.first, firstOccurrence, UInt8.ofNat_toNat, bwtCount_eq, bwtKey_eq buf hi]
  exact ⟨Nat.le_add_right _ _, Nat.add_lt_add_left hcount _⟩

theorem SlotsFilled.step {i : Nat} {tempFirst : UInt8 → Nat} {slots : List (Option Nat)}
    (h : SlotsFilled buf i tempFirst slots) (hi : i < buf.length) :
    slots[tempFirst (bwtKey buf i)]? = some none ∧
      SlotsFilled buf (i + 1)
        (Function.update tempFirst (bwtKey buf i) (tempFirst (bwtKey buf i) + 1))
        (slots.set (tempFirst (bwtKey buf i)) (some i)) := by
  -- the cursor of a symbol is at the rank of its next occurrence
  have hrank : tempFirst (bwtKey buf i) = rank (bwtKey buf) buf.length i := by
    rw [h.first, rank_bwtKey buf hi]
  have htake : buf.take (i + 1) = buf.take i ++ [bwtKey buf i] := by
    rw [List.take_add_one, List.getElem?_eq_getElem hi, bwtKey_eq buf hi]
    rfl
  rw [hrank]
  refine ⟨?_, by rw [List.length_set, h.length], fun c => ?_, fun k hk => ?_⟩
  · rw [h.slot i hi, if_neg (Nat.lt_irrefl i)]
  · rw [← hrank, htake, List.count_append]
    by_cases hc : c = bwtKey buf i
    · rw [hc, Function.update_self, h.first, List.count_singleton_self, Nat.add_assoc]
    · rw [Function.update_of_ne hc, h.first, List.count_singleton, if_neg, Nat.add_zero]
      rw [beq_iff_eq]
      exact Ne.symm hc
  · by_cases hki : k = i
    · subst hki
      have hlt : rank (bwtKey buf) buf.length k < slots.length := by
        rw [h.length]
        exact rank_lt hi
      rw [List.getElem?_set_self hlt, if_pos (Nat.lt_succ_self k)]
    · -- ranks are distinct, so no slot is written a second time
      have hne : rank (bwtKey buf) buf.length i ≠ rank (bwtKey buf) buf.length k :=
        fun he => hki (rank_injective hk hi he.symm)
      rw [List.getElem?_set_ne hne, h.slot k hk]
      by_cases hlt : k < i
      · rw [if_pos hlt, if_pos (Nat.lt_succ_of_lt hlt)]
      · rw [if_neg hlt, if_neg (by omega)]

/-- **The fill loop never fails**, and has filled all slots in the end. -/
theorem SlotsFilled.run {bs : Bytes} {i : Nat} {tempFirst : UInt8 → Nat}
    {slots : List (Option Nat)} (h : SlotsFilled buf i tempFirst slots) (hi : i ≤ buf.length)
    (hbs : buf.drop i = bs) :
    ∃ tempFirst' slots', fillSlots buf bs i tempFirst slots = some slots' ∧
      SlotsFilled buf buf.length tempFirst' slots' := by
  induction bs generalizing i tempFirst slots with
  | nil =>
    obtain rfl := Nat.le_antisymm hi (List.drop_eq_nil_iff.mp hbs)
    exact ⟨tempFirst, slots, rfl, h⟩
  | cons c bs ih =>
    have hlt : i < buf.length := by
      by_contra hge
      rw [List.drop_eq_nil_of_le (Nat.not_lt.mp hge)] at hbs
      cases hbs
    rw [List.drop_eq_getElem_cons hlt] at hbs
    obtain ⟨hc, hrest⟩ := List.cons.inj hbs
    rw [← bwtKey_eq buf hlt] at hc
    subst hc
    obtain ⟨hfree, hstep⟩ := h.step buf hlt
    rw [fillSlots, if_pos ⟨h.cursorInRange buf hlt, hfree⟩]
    exact ih hstep hlt hrest

theorem fillTransform_length (bs : Bytes) (i : Nat) (tempFirst : UInt8 → Nat)
    (transform : List Nat) :
    (fillTransform bs i tempFirst transform).length = transform.length := by
  induction bs generalizing i tempFirst transform with
  | nil => rfl
  | cons c bs ih => rw [fillTransform, ih, List.length_set]

/-- The mapping in the part of the caller's buffer that is in use. -/
def bwtMapping (transform : List Nat) : List Nat := (bwtTransform buf transform).take buf.length

section Mapping
variable {buf} {transform : List Nat} (hcap : buf.length ≤ transform.length)
include hcap

theorem bwtMapping_length : (bwtMapping buf transform).length = buf.length := by
  refine List.length_take_of_le ?_
  rw [bwtTransform, fillTransform_length]
  exact hcap

/-- Slot for slot the mapping is the transform. -/
theorem bwtMapping_getElem? {j : Nat} (hj : j < buf.length) :
    (bwtMapping buf transform)[j]? = some ((bwtTransform buf transform).getD j 0) := by
  have hlt : j < (bwtTransform buf transform).length := by
    rw [bwtTransform, fillTransform_length]
    omega
  rw [bwtMapping, List.getElem?_take_of_lt hj, List.getD_eq_getElem _ _ hlt,
    List.getElem?_eq_getElem hlt]

/-- **The mapping is a permutation.** -/
theorem bwtMapping_perm : (bwtMapping buf transform).Perm (List.range buf.length) := by
  have hmap : (List.range buf.length).map (fun j => (bwtTransform buf transform).getD j 0) =
      bwtMapping buf transform := by
    refine List.ext_getElem? fun j => ?_
    by_cases hj : j < buf.length
    · rw [bwtMapping_getElem? hcap hj, List.getElem?_map, List.getElem?_range hj]
      rfl
    · rw [List.getElem?_eq_none (by rw [List.length_map, List.length_range]; omega),
        List.getElem?_eq_none (by rw [bwtMapping_length hcap]; omega)]
  rw [← hmap]
  exact inverse_perm fun k hk => bwtTransform_rank buf hcap hk

/-- The checked loop leaves this mapping, whatever was in the caller's buffer. -/
theorem bwtSlots_eq : bwtSlots buf = some ((bwtMapping buf transform).map some) := by
  have hstart : SlotsFilled buf 0 (fun b => firstOccurrence (bwtCount buf) b.toNat)
      (List.replicate buf.length none) := by
    refine ⟨List.length_replicate, fun c => ?_, fun k hk => ?_⟩
    · rw [List.take_zero, List.count_nil, Nat.add_zero]
    · rw [List.getElem?_replicate_of_lt (rank_lt hk), if_neg (Nat.not_lt_zero k)]
  obtain ⟨tempFirst, slots, hrun, hfilled⟩ :=
    hstart.run buf (Nat.zero_le _) (List.drop_zero : buf.drop 0 = buf)
  rw [bwtSlots, hrun]
  refine congrArg some (List.ext_getElem? fun j => ?_)
  rw [List.getElem?_map]
  by_cases hj : j < buf.length
  · obtain ⟨k, hk, rfl⟩ := rank_surjective (bwtKey buf) hj
    rw [hfilled.slot k hk, if_pos hk, bwtMapping_getElem? hcap hj, bwtTransform_rank buf hcap hk]
    rfl
  · rw [List.getElem?_eq_none (by rw [hfilled.length]; omega),
      List.getElem?_eq_none (by rw [bwtMapping_length hcap]; omega)]
    rfl

/-- **Following the chain never fails** from an index in range. -/
theorem followSlots_eq (k : Nat) {index : Nat} (hindex : index < buf.length) :
    followSlots buf ((bwtMapping buf transform).map some) k index =
      some (followTransform buf (bwtTransform buf transform) k index) := by
  induction k generalizing index with
  | zero => rfl
  | succ k ih =>
    have hnext : (bwtTransform buf transform).getD index 0 < buf.length :=
      inverse_lt (T := fun j => (bwtTransform buf transform).getD j 0)
        (fun i hi => bwtTransform_rank buf hcap hi) hindex
    have hbyte : buf[(bwtTransform buf transform).getD index 0]? =
        some (buf.getD ((bwtTransform buf transform).getD index 0) 0) := by
      rw [List.getD_eq_getElem buf 0 hnext, List.getElem?_eq_getElem hnext]
    rw [followSlots, followTransform, List.getElem?_map, bwtMapping_getElem? hcap hindex]
    simp only [Option.map_some, Option.join_some, Option.bind_eq_bind, Option.bind_some, hbyte,
      ih hnext, Option.pure_def]

end Mapping

theorem mem_of_followSlots {slots : List (Option Nat)} {k index : Nat} {out : Bytes}
    (h : followSlots buf slots k index = some out) : ∀ b ∈ out, b ∈ buf := by
  induction k generalizing index out with
  | zero =>
    obtain rfl := Option.some.inj h
    exact fun b hb => absurd hb List.not_mem_nil
  | succ k ih =>
    obtain ⟨next, -, h⟩ := Option.bind_eq_some_iff.mp h
    obtain ⟨a, ha, h⟩ := Option.bind_eq_some_iff.mp h
    obtain ⟨rest, hrest, h⟩ := Option.bind_eq_some_iff.mp h
    obtain rfl := Option.some.inj h
    intro b hb
    rcases List.mem_cons.mp hb with rfl | hb
    · exact List.mem_of_getElem? ha
    · exact ih hrest b hb

/-- **The inverse BWT is safe on any data.**  For every buffer of one chunk and every primary
index in range: the checked loop that fills `transform` succeeds, what it leaves is a
permutation of the indices, following the chain through these slots succeeds with the bytes that
`bra_bwt_decode2` emits, and these are as many bytes as the buffer has, all of them taken from
it. -/
theorem bwtDecode2_safe (_hmax : buf.length ≤ braMaxChunkSize) {primaryIndex : Nat}
    (hindex : primaryIndex < buf.length) {transform : List Nat}
    (hcap : buf.length ≤ transform.length) :
    bwtSlots buf = some ((bwtMapping buf transform).map some) ∧
      (bwtMapping buf transform).Perm (List.range buf.length) ∧
      followSlots buf ((bwtMapping buf transform).map some) buf.length primaryIndex =
        some (braBwtDecode2 buf primaryIndex transform) ∧
      (braBwtDecode2 buf primaryIndex transform).length = buf.length ∧
      ∀ b ∈ braBwtDecode2 buf primaryIndex transform, b ∈ buf :=
  have hfollow := followSlots_eq hcap buf.length hindex
  ⟨bwtSlots_eq hcap, bwtMapping_perm hcap, hfollow, braBwtDecode2_length buf primaryIndex transform,
    mem_of_followSlots buf hfollow⟩

/-- Bytes that are the transform of no buffer: the chain stays where it starts. -/
theorem bwtDecode2_safe_abc :
    bwtSlots [97, 98, 99] = some ((bwtMapping [97, 98, 99] [7, 7, 7]).map some) ∧
      (bwtMapping [97, 98, 99] [7, 7, 7]).Perm (List.range 3) ∧
      followSlots [97, 98, 99] ((bwtMapping [97, 98, 99] [7, 7, 7]).map some) 3 1 =
        some (braBwtDecode2 [97, 98, 99] 1 [7, 7, 7]) ∧
      (braBwtDecode2 [97, 98, 99] 1 [7, 7, 7]).length = 3 ∧
      ∀ b ∈ braBwtDecode2 [97, 98, 99] 1 [7, 7, 7], b ∈ ([97, 98, 99] : Bytes) :=
  bwtDecode2_safe [97, 98, 99] (by decide) (by decide) (by decide)

end Checked
end BrArchive
