import BrArchive.Defs
import BrArchive.StableRank
import Mathlib.Data.List.GetD

/-! # The Burrows–Wheeler transform

`bra_bwt_encode2` sorts the start indices of all rotations of a buffer with
`qsort_r` and emits the last byte of each row; the primary index is the row that
starts at index 0.  `bra_bwt_decode2` counts the bytes, gives each byte the slot
counting sort puts it in, and follows the resulting chain from the primary index.
-/
namespace BrArchive
open StableRank

/-- `qsort_r`, as far as its documentation goes: it permutes the array, and if the
comparator orders the elements the result is sorted.  Where equal elements end up
is left open. -/
structure QsortR where
  sort : (Nat → Nat → Int) → List Nat → List Nat
  perm : ∀ compare l, (sort compare l).Perm l
  sorted : ∀ compare l, (∀ a b, compare a b ≤ 0 ∨ compare b a ≤ 0) →
    (∀ a b c, compare a b ≤ 0 → compare b c ≤ 0 → compare a c ≤ 0) →
    (sort compare l).Pairwise (fun a b => compare a b ≤ 0)

/-- A stable sort is one such `qsort_r`. -/
def QsortR.mergeSort : QsortR where
  sort compare l := l.mergeSort (fun a b => decide (compare a b ≤ 0))
  perm _ l := List.mergeSort_perm l _
  sorted compare l htot htrans := by
    have h : (l.mergeSort (fun a b => decide (compare a b ≤ 0))).Pairwise
        (fun a b => decide (compare a b ≤ 0) = true) :=
      List.pairwise_mergeSort (fun a b c h1 h2 => by simp at *; exact htrans a b c h1 h2)
        (fun a b => by simpa using htot a b) l
    exact h.imp (fun h => of_decide_eq_true h)

/-- The loop of `bwt_suffix_context_compare`, with `fuel` iterations left at `i`. -/
def bwtCompareFrom (data : Bytes) (sa sb : Nat) : Nat → Nat → Int
  | 0, _ => 0
  | fuel + 1, i =>
    let byteA := data.getD ((sa + i) % data.length) 0
    let byteB := data.getD ((sb + i) % data.length) 0
    if byteA < byteB then -1
    else if byteA > byteB then 1
    else bwtCompareFrom data sa sb fuel (i + 1)

/-- `bwt_suffix_context_compare`: the rotations starting at `sa` and at `sb`. -/
def bwtSuffixContextCompare (data : Bytes) (sa sb : Nat) : Int :=
  bwtCompareFrom data sa sb data.length 0

/-- The output loop of `bra_bwt_encode2` over the rest of the sorted indices: the
last byte of each row, and the row that starts at index 0. -/
def bwtGather (buf : Bytes) : List Nat → Nat → Nat → Bytes × Nat
  | [], _, primaryIndex => ([], primaryIndex)
  | start :: index, i, primaryIndex =>
    let lastPos := (start + buf.length - 1) % buf.length
    let (outBuf, primaryIndex) :=
      bwtGather buf index (i + 1) (if start = 0 then i else primaryIndex)
    (buf.getD lastPos 0 :: outBuf, primaryIndex)

/-- `bra_bwt_encode2`: the transformed buffer and the primary index. -/
def braBwtEncode2 (qsortR : QsortR) (buf : Bytes) : Bytes × Nat :=
  let index := qsortR.sort (bwtSuffixContextCompare buf) (List.range buf.length)
  bwtGather buf index 0 0

/-- Byte frequencies. -/
def bwtCount (buf : Bytes) : UInt8 → Nat :=
  buf.foldl (fun count b => Function.update count b (count b + 1)) (fun _ => 0)

/-- `first_occurrence[i]`, the cumulative count of the bytes below `i`. -/
def firstOccurrence (count : UInt8 → Nat) : Nat → Nat
  | 0 => 0
  | i + 1 => firstOccurrence count i + count (UInt8.ofNat i)

/-- The loop that fills `transform`: `transform[temp_first[c]++] = i`. -/
def fillTransform : Bytes → Nat → (UInt8 → Nat) → List Nat → List Nat
  | [], _, _, transform => transform
  | c :: bs, i, tempFirst, transform =>
    fillTransform bs (i + 1) (Function.update tempFirst c (tempFirst c + 1))
      (transform.set (tempFirst c) i)

/-- The loop that follows the chain for the given number of bytes. -/
def followTransform (buf : Bytes) (transform : List Nat) : Nat → Nat → Bytes
  | 0, _ => []
  | k + 1, index =>
    let index := transform.getD index 0
    buf.getD index 0 :: followTransform buf transform k index

/-- The mapping `bra_bwt_decode2` leaves in the caller's buffer `transform`. -/
def bwtTransform (buf : Bytes) (transform : List Nat) : List Nat :=
  let count := bwtCount buf
  fillTransform buf 0 (fun b => firstOccurrence count b.toNat) transform

/-- `bra_bwt_decode2`.  `transform` is the caller's buffer, with whatever it
happens to hold. -/
def braBwtDecode2 (buf : Bytes) (primaryIndex : Nat) (transform : List Nat) : Bytes :=
  followTransform buf (bwtTransform buf transform) buf.length primaryIndex

theorem followTransform_length (buf : Bytes) (transform : List Nat) (k index : Nat) :
    (followTransform buf transform k index).length = k := by
  induction k generalizing index with
  | zero => rfl
  | succ k ih => rw [followTransform, List.length_cons, ih]

@[simp] theorem braBwtDecode2_length (buf : Bytes) (primaryIndex : Nat) (transform : List Nat) :
    (braBwtDecode2 buf primaryIndex transform).length = buf.length :=
  followTransform_length buf _ _ _

/-! ## The comparator orders the rotations -/

theorem bwtCompareFrom_le_iff (data : Bytes) (sa sb : Nat) :
    ∀ fuel i, i + fuel = data.length →
      (bwtCompareFrom data sa sb fuel i ≤ 0 ↔
        (data.rotate sa).drop i ≤ (data.rotate sb).drop i)
  | 0, i, h => by
    have hi : data.length ≤ i := by omega
    rw [List.drop_eq_nil_of_le (by simpa using hi), List.drop_eq_nil_of_le (by simpa using hi)]
    simp [bwtCompareFrom]
  | fuel + 1, i, h => by
    have hi : i < data.length := by omega
    have hbyte : ∀ s, (data.rotate s).drop i =
        data.getD ((s + i) % data.length) 0 :: (data.rotate s).drop (i + 1) := by
      intro s
      rw [List.drop_eq_getElem_cons (by simpa using hi), List.getElem_rotate,
        List.getD_eq_getElem _ _ (Nat.mod_lt _ (by omega))]
      simp only [Nat.add_comm i s]
    rw [hbyte sa, hbyte sb, cons_le_cons_iff, bwtCompareFrom]
    -- only equal bytes go on to the next position
    rcases lt_trichotomy (data.getD ((sa + i) % data.length) 0)
      (data.getD ((sb + i) % data.length) 0) with hlt | heq | hgt
    · rw [if_pos hlt]
      exact iff_of_true (by decide) (Or.inl hlt)
    · simp only [heq, lt_irrefl, if_false, false_or, true_and]
      simpa [heq] using bwtCompareFrom_le_iff data sa sb fuel (i + 1) (by omega)
    · rw [if_neg (not_lt_of_gt hgt), if_pos hgt]
      refine iff_of_false (by decide) ?_
      rintro (h | ⟨h, -⟩)
      · exact not_lt_of_gt hgt h
      · exact ne_of_gt hgt h

theorem bwtSuffixContextCompare_le_iff (data : Bytes) (sa sb : Nat) :
    bwtSuffixContextCompare data sa sb ≤ 0 ↔ data.rotate sa ≤ data.rotate sb := by
  simpa [bwtSuffixContextCompare] using
    bwtCompareFrom_le_iff data sa sb data.length 0 (Nat.zero_add _)

/-! ## The sorted rows -/

/-- The start index of row `i`. -/
def bwtRowStart (qsortR : QsortR) (buf : Bytes) (i : Nat) : Nat :=
  (qsortR.sort (bwtSuffixContextCompare buf) (List.range buf.length)).getD i 0

section Rows
variable (qsortR : QsortR) (buf : Bytes)

theorem bwtIndex_length :
    (qsortR.sort (bwtSuffixContextCompare buf) (List.range buf.length)).length = buf.length := by
  rw [(qsortR.perm _ _).length_eq, List.length_range]

theorem map_getD_range {α : Type} (l : List α) (d : α) :
    (List.range l.length).map (fun i => l.getD i d) = l := by
  refine List.ext_getElem (by simp) fun i hi _ => ?_
  simp at hi
  simp [hi]

theorem bwtRowStart_perm :
    ((List.range buf.length).map (bwtRowStart qsortR buf)).Perm (List.range buf.length) := by
  have h := map_getD_range
    (qsortR.sort (bwtSuffixContextCompare buf) (List.range buf.length)) 0
  rw [bwtIndex_length] at h
  unfold bwtRowStart
  rw [h]
  exact qsortR.perm _ _

theorem bwtRowStart_sorted {i j : Nat} (hij : i < j) (hj : j < buf.length) :
    buf.rotate (bwtRowStart qsortR buf i) ≤ buf.rotate (bwtRowStart qsortR buf j) := by
  have hs := qsortR.sorted (bwtSuffixContextCompare buf) (List.range buf.length)
    (fun a b => by
      rw [bwtSuffixContextCompare_le_iff, bwtSuffixContextCompare_le_iff]; exact le_total _ _)
    (fun a b c => by
      rw [bwtSuffixContextCompare_le_iff, bwtSuffixContextCompare_le_iff,
        bwtSuffixContextCompare_le_iff]
      exact le_trans)
  have hj' := hj
  rw [← bwtIndex_length qsortR buf] at hj'
  have h := List.pairwise_iff_getElem.mp hs i j (Nat.lt_trans hij hj') hj' hij
  rw [bwtSuffixContextCompare_le_iff] at h
  simpa [bwtRowStart, Nat.lt_trans hij hj', hj'] using h

theorem bwtGather_fst (index : List Nat) (i primaryIndex : Nat) :
    (bwtGather buf index i primaryIndex).1 =
      index.map (fun start => buf.getD ((start + buf.length - 1) % buf.length) 0) := by
  induction index generalizing i primaryIndex with
  | nil => rfl
  | cons start index ih => simp [bwtGather, ih]

/-- The primary index is a row that starts at 0, if there is one. -/
theorem bwtGather_snd (index : List Nat) (i primaryIndex : Nat) :
    ((bwtGather buf index i primaryIndex).2 = primaryIndex ∧ 0 ∉ index) ∨
      ∃ k, (bwtGather buf index i primaryIndex).2 = i + k ∧ index[k]? = some 0 := by
  induction index generalizing i primaryIndex with
  | nil => exact Or.inl ⟨rfl, List.not_mem_nil⟩
  | cons start index ih =>
    rw [bwtGather]
    rcases ih (i + 1) (if start = 0 then i else primaryIndex) with ⟨h, hmem⟩ | ⟨k, h, hk⟩
    · by_cases hstart : start = 0
      · exact Or.inr ⟨0, by simpa [hstart] using h, by simp [hstart]⟩
      · exact Or.inl ⟨by simpa [hstart] using h, by simp [hmem, Ne.symm hstart]⟩
    · exact Or.inr ⟨k + 1, by simp only [h]; omega, by simpa using hk⟩

theorem braBwtEncode2_length : (braBwtEncode2 qsortR buf).1.length = buf.length := by
  rw [braBwtEncode2, bwtGather_fst, List.length_map, bwtIndex_length]

/-- Output byte `i` is the byte before the start of row `i`. -/
theorem braBwtEncode2_getD {i : Nat} (hi : i < buf.length) :
    (braBwtEncode2 qsortR buf).1.getD i 0 =
      buf.getD ((bwtRowStart qsortR buf i + (buf.length - 1)) % buf.length) 0 := by
  have hi' : i < (qsortR.sort (bwtSuffixContextCompare buf) (List.range buf.length)).length := by
    rwa [bwtIndex_length]
  have hsub : ∀ s, s + buf.length - 1 = s + (buf.length - 1) := fun s => by omega
  simp [braBwtEncode2, bwtGather_fst, bwtRowStart, hi', hsub]

/-- **The output is that of any sorted list of the rotations.** -/
theorem braBwtEncode2_of_sorted {rows : List Bytes}
    (hperm : rows.Perm ((List.range buf.length).map buf.rotate))
    (hsorted : rows.Pairwise (· ≤ ·)) :
    (braBwtEncode2 qsortR buf).1 = rows.map fun row => row.getLastD 0 := by
  have hrows : rows = (List.range buf.length).map fun i => buf.rotate (bwtRowStart qsortR buf i) := by
    have hp := (bwtRowStart_perm qsortR buf).map buf.rotate
    rw [List.map_map] at hp
    refine List.Perm.eq_of_pairwise (fun a b _ _ => le_antisymm) hsorted ?_ (hperm.trans hp.symm)
    rw [List.pairwise_map]
    refine List.pairwise_lt_range.imp_of_mem fun {i j} _ hj hij => ?_
    exact bwtRowStart_sorted qsortR buf hij (List.mem_range.mp hj)
  rw [hrows, List.map_map]
  refine List.ext_getElem (by simp [braBwtEncode2_length]) fun i hi hi' => ?_
  have hlt : i < buf.length := by rwa [braBwtEncode2_length] at hi
  have hmod := Nat.mod_lt (bwtRowStart qsortR buf i + (buf.length - 1)) (Nat.zero_lt_of_lt hlt)
  have hget := braBwtEncode2_getD qsortR buf hlt
  rw [List.getD_eq_getElem _ _ hi] at hget
  rw [hget, List.getElem_map, List.getElem_range, Function.comp_apply, List.getLastD_eq_getLast?,
    List.getLast?_eq_getElem?, List.length_rotate, List.getElem?_rotate (by omega),
    List.getD_eq_getElem?_getD, Nat.add_comm (buf.length - 1)]

/-- **The primary index** is in range and is a row that starts at 0. -/
theorem braBwtEncode2_primaryIndex (hpos : 0 < buf.length) :
    (braBwtEncode2 qsortR buf).2 < buf.length ∧
      bwtRowStart qsortR buf (braBwtEncode2 qsortR buf).2 = 0 := by
  have hmem : 0 ∈ qsortR.sort (bwtSuffixContextCompare buf) (List.range buf.length) :=
    (qsortR.perm _ _).mem_iff.mpr (List.mem_range.mpr hpos)
  rcases bwtGather_snd buf
    (qsortR.sort (bwtSuffixContextCompare buf) (List.range buf.length)) 0 0 with
    ⟨-, hnot⟩ | ⟨k, hk, hget⟩
  · exact absurd hmem hnot
  · obtain ⟨hlt, hval⟩ := List.getElem?_eq_some_iff.mp hget
    rw [braBwtEncode2, hk, Nat.zero_add]
    rw [bwtIndex_length] at hlt
    refine ⟨hlt, ?_⟩
    unfold bwtRowStart
    rw [List.getD_eq_getElem?_getD, hget]
    rfl

end Rows

/-! ## The transform is the inverse of the stable rank -/

section Transform
variable (buf : Bytes)

theorem bwtCount_eq : bwtCount buf = fun b => buf.count b := foldl_update_count buf

theorem countP_toNat_lt_succ {i : Nat} (hi : i < 256) :
    buf.countP (fun b => b.toNat < i + 1) =
      buf.countP (fun b => b.toNat < i) + buf.count (UInt8.ofNat i) := by
  induction buf with
  | nil => rfl
  | cons a buf ih =>
    have hiff : a = UInt8.ofNat i ↔ a.toNat = i := by
      rw [← UInt8.toNat_inj, UInt8.toNat_ofNat', Nat.mod_eq_of_lt hi]
    rw [List.countP_cons, List.countP_cons, List.count_cons, ih]
    simp only [beq_iff_eq, hiff, decide_eq_true_eq]
    split_ifs <;> omega

/-- Cumulative counts count the smaller bytes. -/
theorem firstOccurrence_eq {i : Nat} (hi : i ≤ 256) :
    firstOccurrence (fun b => buf.count b) i = buf.countP (fun b => b.toNat < i) := by
  induction i with
  | zero => simp [firstOccurrence]
  | succ i ih => rw [firstOccurrence, ih (by omega), countP_toNat_lt_succ buf (by omega)]

/-- The key of index `i` is the byte there. -/
def bwtKey (i : Nat) : UInt8 := buf.getD i 0

theorem take_eq_map_bwtKey {m : Nat} (hm : m ≤ buf.length) :
    buf.take m = (List.range m).map (bwtKey buf) := by
  refine List.ext_getElem (by simp [hm]) fun i hi _ => ?_
  simp at hi
  simp [bwtKey, hi]

/-- Counting sort's slot for index `k`. -/
theorem rank_bwtKey {k : Nat} (hk : k < buf.length) :
    rank (bwtKey buf) buf.length k =
      firstOccurrence (bwtCount buf) (bwtKey buf k).toNat + (buf.take k).count (bwtKey buf k) := by
  have hbuf : buf = (List.range buf.length).map (bwtKey buf) := by
    conv => lhs; rw [← List.take_length (l := buf)]
    exact take_eq_map_bwtKey buf (Nat.le_refl _)
  rw [rank_eq_countP hk, bwtCount_eq, firstOccurrence_eq buf (Nat.le_of_lt (UInt8.toNat_lt _)),
    take_eq_map_bwtKey buf (Nat.le_of_lt hk)]
  congr 1
  · refine Eq.trans ?_ (congrArg (List.countP _) hbuf).symm
    rw [List.countP_map]
    exact List.countP_congr fun j _ => by simp [UInt8.lt_iff_toNat_lt]
  · rw [List.count_eq_countP, List.countP_map]
    refine List.countP_congr fun j _ => ?_
    simp

/-- The fill loop at index `i`: every index below `i` is in its slot. -/
structure Filled (i : Nat) (tempFirst : UInt8 → Nat) (transform : List Nat) : Prop where
  cap : buf.length ≤ transform.length
  first : ∀ c, tempFirst c = firstOccurrence (bwtCount buf) c.toNat + (buf.take i).count c
  slot : ∀ k, k < i → transform.getD (rank (bwtKey buf) buf.length k) 0 = k

theorem Filled.step {i : Nat} {tempFirst : UInt8 → Nat} {transform : List Nat}
    (h : Filled buf i tempFirst transform) (hi : i < buf.length) :
    Filled buf (i + 1)
      (Function.update tempFirst (bwtKey buf i) (tempFirst (bwtKey buf i) + 1))
      (transform.set (tempFirst (bwtKey buf i)) i) := by
  -- the cursor of a symbol is at the rank of its next occurrence
  have hrank : tempFirst (bwtKey buf i) = rank (bwtKey buf) buf.length i := by
    rw [h.first, rank_bwtKey buf hi]
  have htake : buf.take (i + 1) = buf.take i ++ [bwtKey buf i] := by
    rw [List.take_add_one, List.getElem?_eq_getElem hi]
    simp [bwtKey, hi]
  refine ⟨by simpa using h.cap, fun c => ?_, fun k hk => ?_⟩
  · rw [htake, List.count_append]
    by_cases hc : c = bwtKey buf i
    · subst hc
      rw [Function.update_self, h.first]
      simp
      omega
    · rw [Function.update_of_ne hc, h.first]
      simp [Ne.symm hc]
  · rw [hrank]
    by_cases hki : k = i
    · subst hki
      have hlt : rank (bwtKey buf) buf.length k < transform.length :=
        Nat.lt_of_lt_of_le (rank_lt hi) h.cap
      simp [List.getD_eq_getElem?_getD, hlt]
    · -- ranks are distinct, so no slot is written a second time
      have hne : rank (bwtKey buf) buf.length i ≠ rank (bwtKey buf) buf.length k :=
        fun he => hki (rank_injective (by omega) hi he.symm)
      rw [List.getD_eq_getElem?_getD, List.getElem?_set_ne hne, ← List.getD_eq_getElem?_getD]
      exact h.slot k (by omega)

theorem Filled.run {bs : Bytes} {i : Nat} {tempFirst : UInt8 → Nat} {transform : List Nat}
    (h : Filled buf i tempFirst transform) (hbs : buf.drop i = bs) :
    ∀ k, k < buf.length →
      (fillTransform bs i tempFirst transform).getD (rank (bwtKey buf) buf.length k) 0 = k := by
  induction bs generalizing i tempFirst transform with
  | nil =>
    intro k hk
    exact h.slot k (Nat.lt_of_lt_of_le hk (List.drop_eq_nil_iff.mp hbs))
  | cons c bs ih =>
    have hi : i < buf.length := by
      apply Classical.byContradiction
      intro hn
      rw [List.drop_eq_nil_of_le (by omega)] at hbs
      cases hbs
    rw [List.drop_eq_getElem_cons hi] at hbs
    obtain ⟨rfl, hrest⟩ := List.cons.inj hbs
    have hkey : bwtKey buf i = buf[i] := by simp [bwtKey, hi]
    have hstep := h.step buf hi
    rw [hkey] at hstep
    exact ih hstep hrest

/-- **The transform inverts the stable rank** of the bytes, whatever the caller's
buffer held before. -/
theorem bwtTransform_rank {transform : List Nat} (hcap : buf.length ≤ transform.length)
    {k : Nat} (hk : k < buf.length) :
    (bwtTransform buf transform).getD (rank (bwtKey buf) buf.length k) 0 = k :=
  Filled.run buf ⟨hcap, fun c => by simp, fun k hk => absurd hk (Nat.not_lt_zero k)⟩
    List.drop_zero k hk

end Transform

/-! ## The round trip -/

section RoundTrip
variable (qsortR : QsortR) (buf : Bytes)

/-- One step of the chain: the row reached from row `j` is row `j` rotated by one. -/
theorem rotate_bwtTransform {transform : List Nat} (hcap : buf.length ≤ transform.length)
    {j : Nat} (hj : j < buf.length) :
    (bwtTransform (braBwtEncode2 qsortR buf).1 transform).getD j 0 < buf.length ∧
      buf.rotate (bwtRowStart qsortR buf
          ((bwtTransform (braBwtEncode2 qsortR buf).1 transform).getD j 0)) =
        buf.rotate (bwtRowStart qsortR buf j + 1) := by
  have hpos : 0 < buf.length := Nat.lt_of_le_of_lt (Nat.zero_le j) hj
  have hlen := braBwtEncode2_length qsortR buf
  have hT : ∀ i, i < buf.length →
      (bwtTransform (braBwtEncode2 qsortR buf).1 transform).getD
        (rank (bwtKey (braBwtEncode2 qsortR buf).1) buf.length i) 0 = i := by
    intro i hi
    have := bwtTransform_rank (braBwtEncode2 qsortR buf).1 (hlen.symm ▸ hcap) (hlen.symm ▸ hi)
    rwa [hlen] at this
  refine ⟨inverse_lt (T := fun j => (bwtTransform _ transform).getD j 0) hT hj, ?_⟩
  refine rotate_lastToFirst (T := fun j => (bwtTransform _ transform).getD j 0)
    (bwtRowStart_perm qsortR buf) (fun i j hij hj => bwtRowStart_sorted qsortR buf hij hj)
    (fun i hi => ?_) hT hj
  rw [← List.rotate_mod, List.head?_rotate (Nat.mod_lt _ hpos), bwtKey,
    braBwtEncode2_getD qsortR buf hi]
  have := Nat.mod_lt (bwtRowStart qsortR buf i + (buf.length - 1)) hpos
  rw [List.getD_eq_getElem _ _ this, List.getElem?_eq_getElem this]

/-- Following the chain from a row that starts with the rest of the buffer emits
that rest. -/
theorem followTransform_eq_drop {transform : List Nat} (hcap : buf.length ≤ transform.length) :
    ∀ k t index, t + k = buf.length → index < buf.length →
      buf.rotate (bwtRowStart qsortR buf index) = buf.rotate t →
      followTransform (braBwtEncode2 qsortR buf).1
        (bwtTransform (braBwtEncode2 qsortR buf).1 transform) k index = buf.drop t
  | 0, t, _, ht, _, _ => by
    rw [List.drop_eq_nil_of_le (by omega)]
    rfl
  | k + 1, t, index, ht, hindex, hrow => by
    obtain ⟨hlt, hstep⟩ := rotate_bwtTransform qsortR buf hcap hindex
    have htlt : t < buf.length := by omega
    have hnext : buf.rotate (bwtRowStart qsortR buf
        ((bwtTransform (braBwtEncode2 qsortR buf).1 transform).getD index 0)) =
          buf.rotate (t + 1) := by
      rw [hstep, ← List.rotate_rotate, hrow, List.rotate_rotate]
    rw [followTransform, followTransform_eq_drop hcap k (t + 1) _ (by omega) hlt hnext,
      List.drop_eq_getElem_cons htlt]
    congr 1
    -- the byte emitted is the last of row `t + 1`, which is byte `t`
    have hlast := congrArg (fun l => (l.rotate (buf.length - 1)).head?) hnext
    simp only [List.rotate_rotate] at hlast
    rw [show t + 1 + (buf.length - 1) = t + buf.length by omega, ← List.rotate_mod buf (t + _),
      Nat.add_mod_right, Nat.mod_eq_of_lt htlt, List.head?_rotate htlt, ← List.rotate_mod buf
      (bwtRowStart qsortR buf _ + _), List.head?_rotate (Nat.mod_lt _ (by omega)),
      List.getElem?_eq_getElem htlt] at hlast
    rw [braBwtEncode2_getD qsortR buf hlt, List.getD_eq_getElem?_getD, hlast]
    rfl

/-- Decoding inverts encoding, for every `qsort_r` and every scratch buffer. -/
theorem braBwtDecode2_braBwtEncode2 (hpos : 0 < buf.length) {transform : List Nat}
    (hcap : buf.length ≤ transform.length) :
    braBwtDecode2 (braBwtEncode2 qsortR buf).1 (braBwtEncode2 qsortR buf).2 transform = buf := by
  obtain ⟨hlt, hstart⟩ := braBwtEncode2_primaryIndex qsortR buf hpos
  rw [braBwtDecode2, braBwtEncode2_length,
    followTransform_eq_drop qsortR buf hcap buf.length 0 _ (Nat.zero_add _) hlt (by rw [hstart]),
    List.drop_zero]

/-- **BWT round trip.**  For every buffer of one chunk, whatever order `qsort_r`
leaves equal rotations in: the primary index is in range, and decoding the output
from it gives the buffer back. -/
theorem bwt_roundTrip (hpos : 0 < buf.length) (_hmax : buf.length ≤ braMaxChunkSize)
    {transform : List Nat} (hcap : buf.length ≤ transform.length) :
    (braBwtEncode2 qsortR buf).2 < buf.length ∧
      braBwtDecode2 (braBwtEncode2 qsortR buf).1 (braBwtEncode2 qsortR buf).2 transform = buf :=
  ⟨(braBwtEncode2_primaryIndex qsortR buf hpos).1,
    braBwtDecode2_braBwtEncode2 qsortR buf hpos hcap⟩

/-- The periodic buffer `abab`, whose rotations coincide in pairs. -/
theorem bwt_roundTrip_abab :
    (braBwtEncode2 QsortR.mergeSort [97, 98, 97, 98]).2 < 4 ∧
      braBwtDecode2 (braBwtEncode2 QsortR.mergeSort [97, 98, 97, 98]).1
        (braBwtEncode2 QsortR.mergeSort [97, 98, 97, 98]).2 [7, 7, 7, 7] = [97, 98, 97, 98] :=
  bwt_roundTrip QsortR.mergeSort [97, 98, 97, 98] (by decide) (by decide) (by decide)

end RoundTrip
end BrArchive
