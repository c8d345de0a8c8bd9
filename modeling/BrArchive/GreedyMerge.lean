import Mathlib.Algebra.BigOperators.Group.List.Lemmas
import Mathlib.Data.List.Perm.Subperm
import Mathlib.Data.Nat.Fib.Basic

/-! # Greedy merging

A list of items is kept sorted by weight.  As long as there are two, the two
lightest are joined and the result is put back in its place; where it goes among
items of its own weight is left open.  The rules below say what such a run makes of
the items: an invariant rule, a bound on the total weight joined, and a bound on how
deep the joins nest.
-/
namespace GreedyMerge

variable {τ : Type} (weight : τ → Nat) (join : τ → τ → τ)

/-- The lightest items come first. -/
def Sorted (items : List τ) : Prop := items.Pairwise (fun a b => weight a ≤ weight b)

/-- The run from a list of items to the single item that is left. -/
inductive Merges : List τ → τ → Prop
  | last (t : τ) : Merges [t] t
  | merge {a b : τ} {rest items : List τ} {t : τ} (perm : items.Perm (join a b :: rest))
      (sorted : Sorted weight items) (run : Merges items t) : Merges (a :: b :: rest) t

section Rules
variable {weight join}

/-- **Invariant rule.** -/
theorem Merges.preserves {P : List τ → Prop}
    (step : ∀ a b rest items, Sorted weight (a :: b :: rest) → items.Perm (join a b :: rest) →
      P (a :: b :: rest) → P items)
    {items : List τ} {t : τ} (h : Merges weight join items t) (hs : Sorted weight items)
    (hP : P items) : P [t] := by
  induction h with
  | last t => exact hP
  | merge perm sorted run ih => exact ih sorted (step _ _ _ _ hs perm hP)

/-! ## The total weight joined -/

/-- The first elements of a sorted list have the least sum. -/
theorem sum_take_le_of_subperm {l : List Nat} (hl : l.Pairwise (· ≤ ·)) :
    ∀ {s : List Nat}, s.Subperm l → (l.take s.length).sum ≤ s.sum := by
  induction l with
  | nil =>
    intro s hs
    obtain rfl := List.subperm_nil.mp hs
    rfl
  | cons a l ih =>
    intro s hs
    obtain ⟨hal, hl⟩ := List.pairwise_cons.mp hl
    cases s with
    | nil => exact Nat.le_refl 0
    | cons x s =>
      -- the member to give up for a: a itself when it is there, else any
      obtain ⟨y, hy, hay, hsub⟩ :
          ∃ y ∈ x :: s, a ≤ y ∧ ((x :: s).erase y).Subperm l := by
        have herase : ((x :: s).erase a).Subperm l := by simpa using hs.erase a
        by_cases ha : a ∈ x :: s
        · exact ⟨a, ha, Nat.le_refl a, herase⟩
        · rw [List.erase_of_not_mem ha] at herase
          exact ⟨x, List.mem_cons_self, hal x (herase.subset List.mem_cons_self),
            (List.erase_sublist.subperm).trans herase⟩
      have hlen : ((x :: s).erase y).length = s.length := by
        rw [List.length_erase_of_mem hy]; rfl
      calc ((a :: l).take (x :: s).length).sum = a + (l.take s.length).sum := by simp
        _ ≤ y + ((x :: s).erase y).sum := Nat.add_le_add hay (hlen ▸ ih hl hsub)
        _ = (x :: s).sum := by
          rw [← List.sum_cons]
          exact (List.perm_cons_erase hy).sum_eq.symm

variable {cost : τ → Nat}

/-- With `2 ^ k + j` items the cost of the result exceeds theirs by at most `k` times
the total weight and the weight of the `2 * j` lightest. -/
theorem Merges.cost_le_of_length (hweight : ∀ a b, weight (join a b) = weight a + weight b)
    (hcost : ∀ a b, cost (join a b) = cost a + cost b + (weight a + weight b))
    {items : List τ} {t : τ} (h : Merges weight join items t) (hs : Sorted weight items) :
    ∀ {k j : Nat}, j ≤ 2 ^ k → items.length = 2 ^ k + j →
      cost t ≤ (items.map cost).sum + k * (items.map weight).sum +
        ((items.map weight).take (2 * j)).sum := by
  induction h with
  | last t =>
    intro k j _ _
    simp only [List.map_cons, List.map_nil, List.sum_cons, List.sum_nil]
    omega
  | @merge a b rest items t perm sorted run ih =>
    have step : ∀ {k j : Nat}, j + 1 ≤ 2 ^ k → rest.length + 1 = 2 ^ k + j →
        cost t ≤ ((a :: b :: rest).map cost).sum + k * ((a :: b :: rest).map weight).sum +
          (((a :: b :: rest).map weight).take (2 * (j + 1))).sum := by
      intro k j hj hlen
      have hih := ih sorted (k := k) (j := j) (by omega) (by rw [perm.length_eq]; simpa using hlen)
      have hc := (perm.map cost).sum_eq
      have hw := (perm.map weight).sum_eq
      have htake : ((items.map weight).take (2 * j)).sum ≤
          ((rest.map weight).take (2 * j)).sum := by
        have hl : ((rest.map weight).take (2 * j)).length = 2 * j := by
          rw [List.length_take, List.length_map]; omega
        have hsub : ((rest.map weight).take (2 * j)).Subperm (items.map weight) :=
          ((List.take_sublist _ _).subperm).trans
            (((List.sublist_cons_self _ _).subperm).trans (perm.map weight).symm.subperm)
        simpa [hl] using sum_take_le_of_subperm (List.pairwise_map.mpr sorted) hsub
      simp only [List.map_cons, List.sum_cons, hcost, hweight] at hc hw ⊢
      rw [hc, hw] at hih
      have h2 : 2 * (j + 1) = 2 * j + 1 + 1 := by omega
      rw [h2, List.take_succ_cons, List.take_succ_cons, List.sum_cons, List.sum_cons]
      have hassoc : weight a + weight b + (rest.map weight).sum =
          weight a + (weight b + (rest.map weight).sum) := by omega
      rw [hassoc] at hih
      omega
    intro k j hj hlen
    simp only [List.length_cons] at hlen
    cases j with
    | succ j => exact step hj (by omega)
    | zero =>
      -- a full power of two is the other half of the power below
      obtain ⟨k', rfl⟩ : ∃ k', k = k' + 1 := by
        cases k with
        | zero => simp at hlen
        | succ k' => exact ⟨k', rfl⟩
      have hpos : 0 < 2 ^ k' := Nat.two_pow_pos k'
      rw [Nat.pow_succ] at hlen
      have hstep := step (k := k') (j := 2 ^ k' - 1) (by omega) (by omega)
      have hall : ((a :: b :: rest).map weight).take (2 * (2 ^ k' - 1 + 1)) =
          (a :: b :: rest).map weight := List.take_of_length_le (by simp; omega)
      rw [hall] at hstep
      rw [Nat.succ_mul]
      omega

/-- **Cost rule.**  At most `2 ^ k` items are merged at a cost of at most `k` times
their total weight. -/
theorem Merges.cost_le (hweight : ∀ a b, weight (join a b) = weight a + weight b)
    (hcost : ∀ a b, cost (join a b) = cost a + cost b + (weight a + weight b))
    {items : List τ} {t : τ} (h : Merges weight join items t) (hs : Sorted weight items)
    {k : Nat} (hlen : items.length ≤ 2 ^ k) :
    cost t ≤ (items.map cost).sum + k * (items.map weight).sum := by
  induction k with
  | zero =>
    have hone : items.length = 1 := by
      cases h with
      | last => rfl
      | merge => simp at hlen
    simpa using h.cost_le_of_length hweight hcost hs (k := 0) (j := 0) (by simp) (by simpa)
  | succ k ih =>
    by_cases hk : items.length ≤ 2 ^ k
    · have := ih hk
      rw [Nat.succ_mul]
      omega
    · rw [Nat.pow_succ] at hlen
      -- more than 2 ^ k items: only the lightest ones go one level deeper
      have hcl := h.cost_le_of_length hweight hcost hs (k := k) (j := items.length - 2 ^ k)
        (by omega) (by omega)
      have htake : ((items.map weight).take (2 * (items.length - 2 ^ k))).sum ≤
          (items.map weight).sum := by
        rw [← List.sum_take_add_sum_drop (items.map weight) (2 * (items.length - 2 ^ k))]
        exact Nat.le_add_right _ _
      rw [Nat.succ_mul]
      omega

/-! ## The nesting depth -/

variable {height : τ → Nat} {parts : τ → List τ}

/-- No part of an item outweighs an item, and items and parts weigh at least as much
as the Fibonacci numbers of their heights. -/
structure Balanced (weight height : τ → Nat) (parts : τ → List τ) (items : List τ) : Prop where
  part_le : ∀ a ∈ items, ∀ p ∈ parts a, ∀ b ∈ items, weight p ≤ weight b
  item : ∀ a ∈ items, Nat.fib (height a + 1) ≤ weight a
  part : ∀ a ∈ items, height a ≤ 1 ∨ ∃ p ∈ parts a, Nat.fib (height a) ≤ weight p

theorem Balanced.of_perm {l l' : List τ} (h : Balanced weight height parts l)
    (hp : l'.Perm l) : Balanced weight height parts l' where
  part_le a ha p hpa b hb := h.part_le a (hp.mem_iff.mp ha) p hpa b (hp.mem_iff.mp hb)
  item a ha := h.item a (hp.mem_iff.mp ha)
  part a ha := h.part a (hp.mem_iff.mp ha)

/-- Every item outweighs the heaviest part of every other. -/
theorem Balanced.fib_height_le {items : List τ} (h : Balanced weight height parts items)
    {a b : τ} (ha : a ∈ items) (hb : b ∈ items) : Nat.fib (height a) ≤ weight b := by
  rcases h.part a ha with hle | ⟨p, hp, hfib⟩
  · have hone : Nat.fib (height a) ≤ 1 := Nat.fib_mono hle
    have hpos : 0 < Nat.fib (height b + 1) := Nat.fib_pos.mpr (Nat.succ_pos _)
    have := h.item b hb
    omega
  · exact Nat.le_trans hfib (h.part_le a ha p hp b hb)

theorem Balanced.merged (hweight : ∀ a b, weight (join a b) = weight a + weight b)
    (hheight : ∀ a b, height (join a b) = max (height a) (height b) + 1)
    (hparts : ∀ a b, parts (join a b) = [a, b])
    {a b : τ} {rest : List τ} (h : Balanced weight height parts (a :: b :: rest))
    (hs : Sorted weight (a :: b :: rest)) :
    Balanced weight height parts (join a b :: rest) := by
  obtain ⟨ha, hs⟩ := List.pairwise_cons.mp hs
  obtain ⟨hb, -⟩ := List.pairwise_cons.mp hs
  have hab := ha b List.mem_cons_self
  have hmema : a ∈ a :: b :: rest := List.mem_cons_self
  have hmemb : b ∈ a :: b :: rest := List.mem_cons_of_mem a List.mem_cons_self
  have hmem : ∀ c ∈ rest, c ∈ a :: b :: rest := fun c hc =>
    List.mem_cons_of_mem a (List.mem_cons_of_mem b hc)
  have hia := h.item a hmema
  have hib := h.item b hmemb
  refine ⟨?_, ?_, ?_⟩
  · intro c hc p hp d hd
    rcases List.mem_cons.mp hc with rfl | hc
    · -- the parts of the new item are the two lightest
      have hpab : weight p ≤ weight b := by
        rw [hparts] at hp
        rcases List.mem_cons.mp hp with rfl | hp
        · exact hab
        · exact Nat.le_of_eq (congrArg weight (List.mem_singleton.mp hp))
      rcases List.mem_cons.mp hd with rfl | hd
      · rw [hweight]; omega
      · exact Nat.le_trans hpab (hb d hd)
    · rcases List.mem_cons.mp hd with rfl | hd
      · have := h.part_le c (hmem c hc) p hp a hmema
        rw [hweight]; omega
      · exact h.part_le c (hmem c hc) p hp d (hmem d hd)
  · intro c hc
    rcases List.mem_cons.mp hc with rfl | hc
    · have hpa := h.fib_height_le hmema hmemb
      have hpb := h.fib_height_le hmemb hmema
      rw [hweight, hheight, Nat.fib_add_two]
      rcases Nat.le_total (height a) (height b) with hle | hle
      · rw [Nat.max_eq_right hle]; omega
      · rw [Nat.max_eq_left hle]; omega
    · exact h.item c (hmem c hc)
  · intro c hc
    rcases List.mem_cons.mp hc with rfl | hc
    · right
      rw [hparts, hheight]
      rcases Nat.le_total (height a) (height b) with hle | hle
      · exact ⟨b, by simp, by rw [Nat.max_eq_right hle]; exact hib⟩
      · exact ⟨a, by simp, by rw [Nat.max_eq_left hle]; exact hia⟩
    · exact h.part c (hmem c hc)

variable (parts) in
/-- **Depth rule.**  An item of height `h` weighs at least `fib (h + 1)`. -/
theorem Merges.fib_height_le (hweight : ∀ a b, weight (join a b) = weight a + weight b)
    (hheight : ∀ a b, height (join a b) = max (height a) (height b) + 1)
    (hparts : ∀ a b, parts (join a b) = [a, b])
    {items : List τ} {t : τ} (h : Merges weight join items t) (hs : Sorted weight items)
    (hb : Balanced weight height parts items) : Nat.fib (height t + 1) ≤ weight t := by
  have := h.preserves (P := Balanced weight height parts)
    (fun a b rest l hs hl hP => (hP.merged hweight hheight hparts hs).of_perm hl) hs hb
  exact this.item t List.mem_cons_self

end Rules
end GreedyMerge
