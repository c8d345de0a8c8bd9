import BrArchive.GreedyMerge
import Mathlib.Algebra.Order.Field.Rat
import Mathlib.Algebra.Order.Field.Basic
import Mathlib.Tactic.FieldSimp
import Mathlib.Tactic.Linarith
import Mathlib.Tactic.Ring

/-! # Greedy merging is optimal

If every item is given a length, such that the lengths satisfy Kraft's inequality, then the
weights times the lengths add up to at least what greedy merging costs.  The argument goes by
exchange: the two lightest items may take over the two greatest lengths, and then they can be
merged into one item with a length that is one less.
-/
namespace GreedyMerge

/-- The left side of Kraft's inequality. -/
def kraft (ls : List Nat) : ℚ := (ls.map fun l => (1 / 2 : ℚ) ^ l).sum

theorem kraft_cons (l : Nat) (ls : List Nat) : kraft (l :: ls) = (1 / 2) ^ l + kraft ls := by
  simp [kraft]

theorem kraft_perm {ls ls' : List Nat} (h : ls.Perm ls') : kraft ls = kraft ls' :=
  (h.map _).sum_eq

/-- In units of the greatest length the sum is a whole number. -/
theorem kraft_eq_div {n : Nat} {ls : List Nat} (h : ∀ l ∈ ls, l ≤ n) :
    kraft ls = ((ls.map fun l => 2 ^ (n - l)).sum : Nat) / 2 ^ n := by
  induction ls with
  | nil => simp [kraft]
  | cons l ls ih =>
    have hl : (1 / 2 : ℚ) ^ l = 2 ^ (n - l) / 2 ^ n := by
      rw [div_pow, one_pow, div_eq_div_iff (by positivity) (by positivity), one_mul, ← pow_add]
      congr 1
      have := h l List.mem_cons_self
      omega
    rw [kraft_cons, ih fun l' hl' => h l' (List.mem_cons_of_mem l hl'), hl, List.map_cons,
      List.sum_cons, ← add_div]
    push_cast
    rfl

/-- Of two greatest lengths the lesser can stand for both, one less. -/
theorem kraft_merge {a b : Nat} {ls : List Nat} (hab : b ≤ a) (hle : ∀ l ∈ ls, l ≤ b)
    (h : kraft (a :: b :: ls) ≤ 1) : ∃ m, b = m + 1 ∧ kraft (m :: ls) ≤ 1 := by
  have hpow : (0 : ℚ) < 2 ^ b := by positivity
  have hpos : (0 : ℚ) < (1 / 2) ^ a := by positivity
  rw [kraft_cons, kraft_cons, kraft_eq_div hle] at h
  generalize hN : (ls.map fun l => 2 ^ (b - l)).sum = N at h
  have hunit : (1 / 2 : ℚ) ^ b + N / 2 ^ b = (N + 1) / 2 ^ b := by
    rw [div_pow, one_pow, ← add_div, add_comm]
  have hlt : (N + 1 : ℚ) < 2 ^ b := by
    rw [← div_lt_one hpow, ← hunit]
    linarith
  have hN2 : N + 2 ≤ 2 ^ b := by exact_mod_cast hlt
  cases b with
  | zero => simp at hN2
  | succ m =>
    refine ⟨m, rfl, ?_⟩
    have hm : (1 / 2 : ℚ) ^ m = 2 / 2 ^ (m + 1) := by
      rw [div_pow, one_pow, pow_succ]
      field_simp
    rw [kraft_cons, kraft_eq_div hle, hN, hm, ← add_div, div_le_one hpow, add_comm]
    exact_mod_cast hN2

section Optimal
variable {τ : Type} {weight : τ → Nat} {join : τ → τ → τ} {cost : τ → Nat}

/-- The weights, each times its length. -/
def lengthCost (weight : τ → Nat) (ps : List (τ × Nat)) : Nat :=
  (ps.map fun p => weight p.1 * p.2).sum

@[simp] theorem lengthCost_cons (p : τ × Nat) (ps : List (τ × Nat)) :
    lengthCost weight (p :: ps) = weight p.1 * p.2 + lengthCost weight ps := rfl

variable (weight) in
theorem lengthCost_perm {ps qs : List (τ × Nat)} (h : ps.Perm qs) :
    lengthCost weight ps = lengthCost weight qs := (h.map _).sum_eq

/-- The length of a given item. -/
theorem exists_perm_cons {a : τ} {l : List τ} {ps : List (τ × Nat)}
    (h : (ps.map Prod.fst).Perm (a :: l)) :
    ∃ n qs, ps.Perm ((a, n) :: qs) ∧ (qs.map Prod.fst).Perm l := by
  obtain ⟨⟨x, n⟩, hp, rfl⟩ := List.mem_map.mp (h.mem_iff.mpr List.mem_cons_self)
  obtain ⟨s, t, rfl⟩ := List.append_of_mem hp
  have hperm : (s ++ (x, n) :: t).Perm ((x, n) :: (s ++ t)) := List.perm_middle
  exact ⟨n, s ++ t, hperm, ((hperm.map Prod.fst).symm.trans h).cons_inv⟩

/-- **Exchange.**  The lightest item takes over the greatest length. -/
theorem exists_longest_first {a : τ} (qs : List (τ × Nat)) (n : Nat)
    (ha : ∀ q ∈ qs, weight a ≤ weight q.1) :
    ∃ n' qs', qs'.map Prod.fst = qs.map Prod.fst ∧
      (n' :: qs'.map Prod.snd).Perm (n :: qs.map Prod.snd) ∧ (∀ q ∈ qs', q.2 ≤ n') ∧
      lengthCost weight ((a, n') :: qs') ≤ lengthCost weight ((a, n) :: qs) := by
  induction qs with
  | nil => exact ⟨n, [], rfl, List.Perm.refl _, by simp, Nat.le_refl _⟩
  | cons q qs ih =>
    obtain ⟨x, m⟩ := q
    obtain ⟨k, qs', hfst, hsnd, hle, hcost⟩ := ih fun q hq => ha q (List.mem_cons_of_mem _ hq)
    have hx : weight a ≤ weight x := ha (x, m) List.mem_cons_self
    have hfst' : ∀ j, ((x, j) :: qs').map Prod.fst = ((x, m) :: qs).map Prod.fst := fun j => by
      rw [List.map_cons, List.map_cons, hfst]
    simp only [lengthCost_cons] at hcost ⊢
    have hswap : (k :: m :: qs'.map Prod.snd).Perm (n :: m :: qs.map Prod.snd) :=
      (List.Perm.swap m k _).trans ((hsnd.cons m).trans (List.Perm.swap n m _))
    -- the longest length seen so far stays in front, or is exchanged with m
    by_cases hmk : m ≤ k
    · refine ⟨k, (x, m) :: qs', hfst' m, hswap, ?_, ?_⟩
      · intro q hq
        rcases List.mem_cons.mp hq with rfl | hq
        · exact hmk
        · exact hle q hq
      · simp only [lengthCost_cons]
        omega
    · refine ⟨m, (x, k) :: qs', hfst' k, (List.Perm.swap k m _).trans hswap, ?_, ?_⟩
      · intro q hq
        rcases List.mem_cons.mp hq with rfl | hq
        · exact Nat.le_of_not_le hmk
        · exact Nat.le_trans (hle q hq) (Nat.le_of_not_le hmk)
      · have hexchange : weight a * m + weight x * k ≤ weight a * k + weight x * m := by
          have := mul_add_mul_le_mul_add_mul hx (Nat.le_of_not_le hmk)
          omega
        simp only [lengthCost_cons]
        omega

/-- **Merging step.**  Lengths for the items before a merge yield lengths for the items after
it, which cost less by the weight that is merged. -/
theorem exists_merged_lengths {a b : τ} {rest : List τ}
    (hweight : ∀ a b, weight (join a b) = weight a + weight b)
    (hs : Sorted weight (a :: b :: rest)) {ps : List (τ × Nat)}
    (hps : (ps.map Prod.fst).Perm (a :: b :: rest)) (hkraft : kraft (ps.map Prod.snd) ≤ 1) :
    ∃ qs : List (τ × Nat), (qs.map Prod.fst).Perm (join a b :: rest) ∧
      kraft (qs.map Prod.snd) ≤ 1 ∧
      lengthCost weight qs + (weight a + weight b) ≤ lengthCost weight ps := by
  obtain ⟨n, ps₁, hperm, hps₁⟩ := exists_perm_cons hps
  obtain ⟨hab, hs₁⟩ := List.pairwise_cons.mp hs
  obtain ⟨hb, -⟩ := List.pairwise_cons.mp hs₁
  -- the lightest item gets the greatest length
  obtain ⟨na, ps₂, hfst₂, hsnd₂, hle₂, hcost₂⟩ := exists_longest_first (a := a) ps₁ n
    fun q hq => hab q.1 (hps₁.mem_iff.mp (List.mem_map_of_mem hq))
  obtain ⟨n', ps₃, hperm₃, hps₃⟩ := exists_perm_cons (hfst₂ ▸ hps₁)
  -- and the second the greatest that is left
  obtain ⟨nb, ps₄, hfst₄, hsnd₄, hle₄, hcost₄⟩ := exists_longest_first (a := b) ps₃ n'
    fun q hq => hb q.1 (hps₃.mem_iff.mp (List.mem_map_of_mem hq))
  have hlengths : (ps.map Prod.snd).Perm (na :: nb :: ps₄.map Prod.snd) := by
    refine (hperm.map Prod.snd).trans (hsnd₂.symm.trans (List.Perm.cons na ?_))
    exact (hperm₃.map Prod.snd).trans hsnd₄.symm
  have hnb : nb ≤ na := by
    have hmem : nb ∈ ps₂.map Prod.snd :=
      ((hperm₃.map Prod.snd).trans hsnd₄.symm).mem_iff.mpr List.mem_cons_self
    obtain ⟨q, hq, rfl⟩ := List.mem_map.mp hmem
    exact hle₂ q hq
  have hle : ∀ l ∈ ps₄.map Prod.snd, l ≤ nb := by
    intro l hl
    obtain ⟨q, hq, rfl⟩ := List.mem_map.mp hl
    exact hle₄ q hq
  rw [kraft_perm hlengths] at hkraft
  obtain ⟨m, rfl, hkraft'⟩ := kraft_merge hnb hle hkraft
  refine ⟨(join a b, m) :: ps₄, List.Perm.cons _ (hfst₄ ▸ hps₃), hkraft', ?_⟩
  have hcost := lengthCost_perm weight hperm
  have hcost₃ := lengthCost_perm weight hperm₃
  have hna : weight a * (m + 1) ≤ weight a * na := Nat.mul_le_mul_left _ hnb
  simp only [lengthCost_cons, hweight] at hcost hcost₂ hcost₃ hcost₄ ⊢
  rw [Nat.mul_add, Nat.mul_one] at hcost₄ hna
  rw [Nat.add_mul]
  omega

/-- **Optimality rule.**  Whatever lengths the items are given, merging costs no more. -/
theorem Merges.cost_le_lengthCost (hweight : ∀ a b, weight (join a b) = weight a + weight b)
    (hcost : ∀ a b, cost (join a b) = cost a + cost b + (weight a + weight b))
    {items : List τ} {t : τ} (h : Merges weight join items t) (hs : Sorted weight items)
    {ps : List (τ × Nat)} (hps : (ps.map Prod.fst).Perm items)
    (hkraft : kraft (ps.map Prod.snd) ≤ 1) :
    cost t ≤ (items.map cost).sum + lengthCost weight ps := by
  induction h generalizing ps with
  | last t => simp
  | @merge a b rest items t perm sorted run ih =>
    obtain ⟨qs, hqs, hkraft', hle⟩ := exists_merged_lengths hweight hs hps hkraft
    have hih := ih sorted (hqs.trans perm.symm) hkraft'
    rw [(perm.map cost).sum_eq] at hih
    simp only [List.map_cons, List.sum_cons, hcost] at hih ⊢
    omega

end Optimal
end GreedyMerge
