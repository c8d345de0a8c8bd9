import Mathlib.Data.Finset.Card
import Mathlib.Data.List.Lex
import Mathlib.Data.List.Rotate
import Mathlib.Data.List.Perm.Basic
import Mathlib.Data.Finset.Range
import Mathlib.Data.Fintype.EquivFin

/-! # Stable ranks and sorted rotations

`key` gives every index below `n` a key in a linear order.  The *stable rank* of an
index is the number of indices that come before it when the indices are sorted by
key and, among equal keys, by position: the slot counting sort puts it in.

The second half applies this to the rotations of a list.  Sort all rotations,
equal ones in any order, and give each row its last element as key.  Then the
inverse of the stable rank sends a row to the row that is its rotation by one
(`rotate_lastToFirst`).  Nothing is assumed about repeated rotations: the argument
compares the two sorted sequences of rotations as lists, so it does not matter
which of several equal rows is which.
-/
namespace StableRank

variable {α : Type} [LinearOrder α]

/-- `i` comes before `j` in the stable order. -/
def Before (key : Nat → α) (i j : Nat) : Prop := key i < key j ∨ (key i = key j ∧ i < j)

instance (key : Nat → α) (i j : Nat) : Decidable (Before key i j) := by
  unfold Before; infer_instance

section Rank
variable {key : Nat → α} {n i j : Nat}

theorem Before.irrefl (key : Nat → α) (i : Nat) : ¬ Before key i i := by
  simp [Before]

theorem Before.trans {k : Nat} (h : Before key i j) (h' : Before key j k) : Before key i k := by
  rcases h with h | ⟨he, h⟩ <;> rcases h' with h' | ⟨he', h'⟩
  · exact Or.inl (lt_trans h h')
  · exact Or.inl (he' ▸ h)
  · exact Or.inl (he ▸ h')
  · exact Or.inr ⟨he.trans he', Nat.lt_trans h h'⟩

variable (key) in
theorem Before.total (hne : i ≠ j) : Before key i j ∨ Before key j i := by
  rcases lt_trichotomy (key i) (key j) with h | h | h
  · exact Or.inl (Or.inl h)
  · rcases Nat.lt_or_gt_of_ne hne with hlt | hlt
    · exact Or.inl (Or.inr ⟨h, hlt⟩)
    · exact Or.inr (Or.inr ⟨h.symm, hlt⟩)
  · exact Or.inr (Or.inl h)

/-- The number of indices below `n` that come before `i`. -/
def rank (key : Nat → α) (n i : Nat) : Nat :=
  ((Finset.range n).filter (fun j => Before key j i)).card

theorem rank_lt (hi : i < n) : rank key n i < n := by
  have hss : (Finset.range n).filter (fun j => Before key j i) ⊂ Finset.range n := by
    refine (Finset.filter_ssubset).mpr ⟨i, Finset.mem_range.mpr hi, Before.irrefl key i⟩
  calc rank key n i < (Finset.range n).card := Finset.card_lt_card hss
    _ = n := Finset.card_range n

theorem rank_strictMono (hi : i < n) (h : Before key i j) : rank key n i < rank key n j := by
  refine Finset.card_lt_card (Finset.ssubset_iff_subset_ne.mpr ⟨?_, ?_⟩)
  · intro k hk
    obtain ⟨hkn, hki⟩ := Finset.mem_filter.mp hk
    exact Finset.mem_filter.mpr ⟨hkn, hki.trans h⟩
  · intro heq
    have hmem : i ∈ (Finset.range n).filter (fun k => Before key k j) :=
      Finset.mem_filter.mpr ⟨Finset.mem_range.mpr hi, h⟩
    rw [← heq] at hmem
    exact Before.irrefl key i (Finset.mem_filter.mp hmem).2

theorem rank_injective (hi : i < n) (hj : j < n) (h : rank key n i = rank key n j) : i = j := by
  apply Classical.byContradiction
  intro hne
  rcases Before.total key hne with hb | hb
  · exact absurd h (Nat.ne_of_lt (rank_strictMono hi hb))
  · exact absurd h.symm (Nat.ne_of_lt (rank_strictMono hj hb))

variable (key) in
theorem rank_surjective (hj : j < n) : ∃ i, i < n ∧ rank key n i = j := by
  have hinj : Function.Injective (fun i : Fin n => (⟨rank key n i, rank_lt i.isLt⟩ : Fin n)) :=
    fun a b hab => Fin.ext (rank_injective a.isLt b.isLt (congrArg Fin.val hab))
  obtain ⟨i, hi⟩ := (Finite.injective_iff_surjective.mp hinj) ⟨j, hj⟩
  exact ⟨i, i.isLt, congrArg Fin.val hi⟩

/-- The rank as counting sort computes it: all smaller keys, then the equal keys
seen so far. -/
theorem rank_eq_countP (hi : i < n) :
    rank key n i = (List.range n).countP (fun j => key j < key i) +
      (List.range i).countP (fun j => key j = key i) := by
  -- what comes before i has a smaller key, or the same key and a smaller index
  have hsplit : (Finset.range n).filter (fun j => Before key j i) =
      (Finset.range n).filter (fun j => key j < key i) ∪
        (Finset.range i).filter (fun j => key j = key i) := by
    refine Finset.ext fun k => ?_
    rw [Finset.mem_union, Finset.mem_filter, Finset.mem_filter, Finset.mem_filter,
      Finset.mem_range, Finset.mem_range]
    constructor
    · rintro ⟨hk, h | ⟨he, hlt⟩⟩
      · exact Or.inl ⟨hk, h⟩
      · exact Or.inr ⟨hlt, he⟩
    · rintro (⟨hk, h⟩ | ⟨hlt, he⟩)
      · exact ⟨hk, Or.inl h⟩
      · exact ⟨Nat.lt_trans hlt hi, Or.inr ⟨he, hlt⟩⟩
  have hdisj : Disjoint ((Finset.range n).filter (fun j => key j < key i))
      ((Finset.range i).filter (fun j => key j = key i)) := by
    refine Finset.disjoint_left.mpr fun k hk hk' => ?_
    exact absurd (Finset.mem_filter.mp hk').2 (ne_of_lt (Finset.mem_filter.mp hk).2)
  have hcard : ∀ (m : Nat) (p : Nat → Bool),
      ((Finset.range m).filter (fun j => p j)).card = (List.range m).countP p := by
    intro m p
    rw [List.countP_eq_length_filter]
    have : (Finset.range m).filter (fun j => p j) = ((List.range m).filter p).toFinset := by
      ext k; simp
    rw [this, List.toFinset_card_of_nodup (List.nodup_range.filter _)]
  rw [rank, hsplit, Finset.card_union_of_disjoint hdisj]
  have h1 := hcard n (fun j => key j < key i)
  have h2 := hcard i (fun j => key j = key i)
  simp only [decide_eq_true_eq] at h1 h2
  rw [h1, h2]

end Rank

/-! ## The inverse of the rank -/

section Inverse
variable {key : Nat → α} {n : Nat} {T : Nat → Nat} (hT : ∀ i, i < n → T (rank key n i) = i)
include hT

theorem inverse_lt {j : Nat} (hj : j < n) : T j < n := by
  obtain ⟨i, hi, rfl⟩ := rank_surjective key hj
  rw [hT i hi]
  exact hi

theorem inverse_before {j j' : Nat} (hlt : j < j') (hj' : j' < n) : Before key (T j) (T j') := by
  obtain ⟨i, hi, rfl⟩ := rank_surjective key (Nat.lt_trans hlt hj')
  obtain ⟨i', hi', rfl⟩ := rank_surjective key hj'
  rw [hT i hi, hT i' hi']
  have hne : i ≠ i' := by rintro rfl; exact Nat.lt_irrefl _ hlt
  rcases Before.total key hne with h | h
  · exact h
  · exact absurd (rank_strictMono hi' h) (Nat.not_lt_of_lt hlt)

theorem inverse_perm : ((List.range n).map T).Perm (List.range n) := by
  refine (List.perm_ext_iff_of_nodup ?_ List.nodup_range).mpr fun k => ?_
  · refine List.Nodup.map_on (fun a ha b hb hab => ?_) List.nodup_range
    obtain ⟨i, hi, rfl⟩ := rank_surjective key (List.mem_range.mp ha)
    obtain ⟨j, hj, rfl⟩ := rank_surjective key (List.mem_range.mp hb)
    rw [hT i hi, hT j hj] at hab
    rw [hab]
  · rw [List.mem_map, List.mem_range]
    constructor
    · rintro ⟨j, hj, rfl⟩
      exact inverse_lt hT (List.mem_range.mp hj)
    · intro hk
      exact ⟨rank key n k, List.mem_range.mpr (rank_lt hk), hT k hk⟩

end Inverse

/-! ## Rotations -/

theorem cons_le_cons_iff {a b : α} {l m : List α} :
    a :: l ≤ b :: m ↔ a < b ∨ (a = b ∧ l ≤ m) := by
  rw [le_iff_lt_or_eq, le_iff_lt_or_eq, List.cons.injEq]
  constructor
  · rintro (h | ⟨rfl, rfl⟩)
    · cases h with
      | rel h => exact Or.inl h
      | cons h => exact Or.inr ⟨rfl, Or.inl h⟩
    · exact Or.inr ⟨rfl, Or.inr rfl⟩
  · rintro (h | ⟨rfl, h | rfl⟩)
    · exact Or.inl (List.Lex.rel h)
    · exact Or.inl (List.Lex.cons h)
    · exact Or.inr ⟨rfl, rfl⟩

theorem nil_le (l : List α) : [] ≤ l := by
  cases l with
  | nil => exact le_rfl
  | cons a l => exact le_of_lt List.Lex.nil

theorem le_of_append_le {a b s t : List α} (hlen : a.length = b.length)
    (h : a ++ s ≤ b ++ t) : a ≤ b := by
  induction a generalizing b with
  | nil => exact nil_le b
  | cons x a ih =>
    cases b with
    | nil => simp at hlen
    | cons y b =>
      rw [List.cons_append, List.cons_append, cons_le_cons_iff] at h
      rcases h with h | ⟨rfl, h⟩
      · exact cons_le_cons_iff.mpr (Or.inl h)
      · exact cons_le_cons_iff.mpr (Or.inr ⟨rfl, ih (by simpa using hlen) h⟩)

omit [LinearOrder α] in
/-- The rotations of a list, whichever index each starts from, are the same rows. -/
theorem map_rotate_perm (x : List α) (d : Nat) :
    ((List.range x.length).map (fun k => x.rotate (k + d))).Perm
      ((List.range x.length).map x.rotate) := by
  have hshift : (List.range x.length).map (fun k => x.rotate (k + d)) =
      ((List.range x.length).rotate d).map x.rotate := by
    refine List.ext_getElem (by simp) fun k hk _ => ?_
    rw [List.getElem_map, List.getElem_map, List.getElem_rotate, List.getElem_range,
      List.getElem_range, List.length_range, List.rotate_mod]
  rw [hshift]
  exact (List.rotate_perm _ _).map _

omit [LinearOrder α] in
/-- A row and its last element, against the row rotated back by one. -/
theorem exists_rotate_pred (x : List α) (k : Nat) (hx : 0 < x.length) :
    ∃ init a, x.rotate k = init ++ [a] ∧ x.rotate (k + (x.length - 1)) = a :: init := by
  have hne : x.rotate k ≠ [] := by
    intro h
    have := congrArg List.length h
    rw [List.length_rotate, List.length_nil] at this
    omega
  obtain ⟨init, a, hrow⟩ : ∃ init a, x.rotate k = init ++ [a] :=
    ⟨_, _, (List.dropLast_append_getLast hne).symm⟩
  have hlen : init.length = x.length - 1 := by
    have := congrArg List.length hrow
    simp at this
    omega
  refine ⟨init, a, hrow, ?_⟩
  rw [← List.rotate_rotate, hrow, ← hlen, List.rotate_append_length_eq]
  rfl

/-- **The last-to-first mapping.**  `p` lists the start indices of the sorted
rotations of `x`, `key i` is the last element of row `i`, and `T` is the inverse of
the stable rank of the keys.  Row `T j` is row `j` rotated by one. -/
theorem rotate_lastToFirst {x : List α} {p T key : Nat → _}
    (hp : ((List.range x.length).map p).Perm (List.range x.length))
    (hsorted : ∀ i j, i < j → j < x.length → x.rotate (p i) ≤ x.rotate (p j))
    (hkey : ∀ i, i < x.length → (x.rotate (p i + (x.length - 1))).head? = some (key i))
    (hT : ∀ i, i < x.length → T (rank key x.length i) = i) {j : Nat} (hj : j < x.length) :
    x.rotate (p (T j)) = x.rotate (p j + 1) := by
  have hpos : 0 < x.length := Nat.lt_of_le_of_lt (Nat.zero_le j) hj
  let back : Nat → List α := fun i => x.rotate (p i + (x.length - 1))
  -- rows in the order of `T`, each rotated back by one: sorted, since the key comes first
  have hA : ((List.range x.length).map (fun j => back (T j))).Pairwise (· ≤ ·) := by
    refine List.pairwise_map.mpr (List.pairwise_iff_getElem.mpr fun a b ha hb hab => ?_)
    rw [List.length_range] at ha hb
    rw [List.getElem_range, List.getElem_range]
    have hTa := inverse_lt hT ha
    have hTb := inverse_lt hT hb
    obtain ⟨ia, ca, hrowa, hbacka⟩ := exists_rotate_pred x (p (T a)) hpos
    obtain ⟨ib, cb, hrowb, hbackb⟩ := exists_rotate_pred x (p (T b)) hpos
    have hka : key (T a) = ca := by simpa [hbacka] using (hkey _ hTa).symm
    have hkb : key (T b) = cb := by simpa [hbackb] using (hkey _ hTb).symm
    simp only [back, hbacka, hbackb]
    refine cons_le_cons_iff.mpr ?_
    rcases inverse_before hT hab hb with h | ⟨he, hlt⟩
    · exact Or.inl (by rwa [hka, hkb] at h)
    · refine Or.inr ⟨by rw [← hka, ← hkb, he], ?_⟩
      have hle := hsorted _ _ hlt hTb
      rw [hrowa, hrowb] at hle
      refine le_of_append_le ?_ hle
      have h1 := congrArg List.length hrowa
      have h2 := congrArg List.length hrowb
      simp at h1 h2
      omega
  have hB : ((List.range x.length).map (fun j => x.rotate (p j))).Pairwise (· ≤ ·) := by
    refine List.pairwise_map.mpr (List.pairwise_iff_getElem.mpr fun a b ha hb hab => ?_)
    rw [List.length_range] at hb
    rw [List.getElem_range, List.getElem_range]
    exact hsorted a b hab hb
  have hperm : ((List.range x.length).map (fun j => back (T j))).Perm
      ((List.range x.length).map (fun j => x.rotate (p j))) := by
    have h1 := (inverse_perm hT).map back
    have h2 := hp.map (fun k => x.rotate (k + (x.length - 1)))
    have h3 := hp.map x.rotate
    rw [List.map_map] at h1 h2 h3
    exact (h1.trans h2).trans ((map_rotate_perm x _).trans h3.symm)
  have heq := List.Perm.eq_of_pairwise (fun a b _ _ => le_antisymm) hA hB hperm
  have hrow : back (T j) = x.rotate (p j) := by
    have := congrArg (fun l => l[j]?) heq
    simpa [hj] using this
  calc x.rotate (p (T j)) = (back (T j)).rotate 1 := by
        simp only [back]
        rw [List.rotate_rotate, show p (T j) + (x.length - 1) + 1 = p (T j) + x.length by omega,
          ← List.rotate_mod x (p (T j) + x.length), Nat.add_mod_right, List.rotate_mod]
    _ = x.rotate (p j + 1) := by rw [hrow, List.rotate_rotate]

end StableRank
