import BrArchive.CodeTree
import Mathlib.Algebra.BigOperators.Group.List.Lemmas

/-! # Canonical codes

Given only the code length of each symbol, a canonical code numbers the codewords of
one length consecutively, in the order of the symbols, and starts each length after
the last codeword of the length before, extended by a zero.  If the lengths satisfy
Kraft's inequality the numbers fit their lengths and the codewords are prefix-free.
-/
namespace CanonicalCode
open CodeTree

/-- The first code of each length, `count` being the number of codewords of each
length. -/
def first (count : Nat → Nat) : Nat → Nat
  | 0 => 0
  | n + 1 => 2 * (first count n + count n)

/-- The low `n` bits of `c`, the last one being the least significant. -/
def codeBits : Nat → Nat → List Bool
  | 0, _ => []
  | n + 1, c => codeBits n (c / 2) ++ [decide (c % 2 = 1)]

@[simp] theorem codeBits_length (n c : Nat) : (codeBits n c).length = n := by
  induction n generalizing c with
  | zero => rfl
  | succ n ih => simp [codeBits, ih]

theorem codeBits_take (n k c : Nat) : (codeBits (n + k) c).take n = codeBits n (c / 2 ^ k) := by
  induction k generalizing c with
  | zero =>
    rw [Nat.pow_zero, Nat.div_one]
    exact List.take_of_length_le (by simp)
  | succ k ih =>
    rw [← Nat.add_assoc, codeBits, List.take_append_of_le_length (by simp), ih,
      Nat.div_div_eq_div_mul, Nat.pow_succ']

theorem codeBits_injective {n c c' : Nat} (hc : c < 2 ^ n) (hc' : c' < 2 ^ n)
    (h : codeBits n c = codeBits n c') : c = c' := by
  induction n generalizing c c' with
  | zero => simp at hc hc'; omega
  | succ n ih =>
    rw [Nat.pow_succ] at hc hc'
    obtain ⟨h1, h2⟩ := List.append_inj h (by simp)
    have hdiv := ih (by omega) (by omega) h1
    have hmod : c % 2 = 1 ↔ c' % 2 = 1 := by simpa using h2
    omega

/-- A shorter code is a prefix of a longer one only if it is its leading part. -/
theorem eq_div_of_codeBits_prefix {n k c c' : Nat} (hc : c < 2 ^ n) (hc' : c' < 2 ^ (n + k))
    (h : codeBits n c <+: codeBits (n + k) c') : c = c' / 2 ^ k := by
  have htake := List.prefix_iff_eq_take.mp h
  rw [codeBits_length, codeBits_take] at htake
  refine codeBits_injective hc ?_ htake
  rw [Nat.div_lt_iff_lt_mul (Nat.two_pow_pos k), ← Nat.pow_add]
  exact hc'

section Codes
variable {σ : Type} (syms : List σ) (len : σ → Nat)

/-- The number of symbols whose codewords have a given length; length zero stands for
no codeword. -/
def lengthCount (n : Nat) : Nat := if n = 0 then 0 else syms.countP (fun s => len s = n)

/-- The left side of Kraft's inequality up to length `n`, in units of `2 ^ -n`. -/
def kraftSum (n : Nat) : Nat :=
  (syms.map (fun s => if 0 < len s ∧ len s ≤ n then 2 ^ (n - len s) else 0)).sum

theorem kraftSum_zero : kraftSum syms len 0 = 0 := by
  refine List.sum_eq_zero fun x hx => ?_
  obtain ⟨s, -, rfl⟩ := List.mem_map.mp hx
  rw [if_neg (by omega)]

/-- One length further, every codeword counts double and the new length is added. -/
theorem kraftSum_succ (n : Nat) :
    kraftSum syms len (n + 1) = 2 * kraftSum syms len n + lengthCount syms len (n + 1) := by
  rw [lengthCount, if_neg (Nat.succ_ne_zero n)]
  unfold kraftSum
  induction syms with
  | nil => rfl
  | cons s syms ih =>
    rw [List.map_cons, List.map_cons, List.sum_cons, List.sum_cons, List.countP_cons, ih]
    rcases Nat.lt_trichotomy (len s) (n + 1) with hlt | heq | hgt
    · by_cases hpos : 0 < len s
      · have hsub : n + 1 - len s = n - len s + 1 := by omega
        rw [if_pos ⟨hpos, by omega⟩, if_pos ⟨hpos, by omega⟩, hsub, Nat.pow_succ,
          if_neg (by simp; omega)]
        omega
      · rw [if_neg (fun h => hpos h.1), if_neg (fun h => hpos h.1), if_neg (by simp; omega)]
        omega
    · rw [if_pos ⟨by omega, by omega⟩, if_neg (by omega), if_pos (by simp [heq]), heq,
        Nat.sub_self]
      omega
    · rw [if_neg (by omega), if_neg (by omega), if_neg (by simp; omega)]
      omega

/-- **The next free code** of each length is the Kraft sum up to it. -/
theorem first_add_lengthCount (n : Nat) :
    first (lengthCount syms len) n + lengthCount syms len n = kraftSum syms len n := by
  induction n with
  | zero => simp [first, lengthCount, kraftSum_zero]
  | succ n ih => rw [first, ih, kraftSum_succ]

/-- Kraft's inequality for the longest length implies it for the shorter ones. -/
theorem kraftSum_le {D : Nat} (h : kraftSum syms len D ≤ 2 ^ D) {n : Nat} (hn : n ≤ D) :
    kraftSum syms len n ≤ 2 ^ n := by
  induction hn using Nat.decreasingInduction with
  | self => exact h
  | of_succ n hn ih =>
    rw [kraftSum_succ, Nat.pow_succ] at ih
    omega

variable {syms len} in
/-- Extending a free code by zeros leads to the first code of a longer length, or before it. -/
theorem kraftSum_mul_le_first {n k : Nat} (hk : 0 < k) :
    kraftSum syms len n * 2 ^ k ≤ first (lengthCount syms len) (n + k) := by
  induction k with
  | zero => omega
  | succ k ih =>
    rw [← Nat.add_assoc, first, Nat.pow_succ]
    rcases Nat.eq_zero_or_pos k with rfl | hpos
    · rw [Nat.add_zero, first_add_lengthCount]
      omega
    · have := ih hpos
      rw [← Nat.mul_assoc]
      omega

variable [DecidableEq σ]

/-- The symbols of the same length that come before `s`. -/
def place (s : σ) : Nat := (syms.takeWhile (· ≠ s)).countP (fun s' => len s' = len s)

/-- The number of the codeword of `s`. -/
def code (s : σ) : Nat := first (lengthCount syms len) (len s) + place syms len s

/-- The codeword of `s`. -/
def codeword (s : σ) : List Bool := codeBits (len s) (code syms len s)

variable {syms len}

theorem place_cons (x : σ) (syms : List σ) (s : σ) : place (x :: syms) len s =
    if x = s then 0 else (if len x = len s then 1 else 0) + place syms len s := by
  unfold place
  by_cases hx : x = s
  · simp [hx]
  · rw [List.takeWhile_cons_of_pos (by simpa using hx), List.countP_cons, if_neg hx, Nat.add_comm]
    simp

theorem place_lt {s : σ} (hs : s ∈ syms) (hpos : 0 < len s) :
    place syms len s < lengthCount syms len (len s) := by
  rw [lengthCount, if_neg (by omega)]
  induction syms with
  | nil => cases hs
  | cons x syms ih =>
    rw [place_cons, List.countP_cons]
    by_cases hx : x = s
    · rw [if_pos hx, if_pos (by simp [hx])]
      omega
    · have := ih ((List.mem_cons.mp hs).resolve_left (Ne.symm hx))
      simp only [if_neg hx, decide_eq_true_eq]
      omega

theorem place_injective {s s' : σ} (hs : s ∈ syms) (hs' : s' ∈ syms) (hlen : len s = len s')
    (h : place syms len s = place syms len s') : s = s' := by
  induction syms with
  | nil => cases hs
  | cons x syms ih =>
    rw [place_cons, place_cons] at h
    by_cases hx : x = s <;> by_cases hx' : x = s'
    · exact hx.symm.trans hx'
    · rw [if_pos hx, if_neg hx', if_pos (by rw [hx, hlen])] at h
      omega
    · rw [if_neg hx, if_pos hx', if_pos (by rw [hx', hlen])] at h
      omega
    · rw [if_neg hx, if_neg hx', hlen] at h
      exact ih ((List.mem_cons.mp hs).resolve_left (Ne.symm hx))
        ((List.mem_cons.mp hs').resolve_left (Ne.symm hx')) (by omega)

/-- The codes of one length stay below the next free code. -/
theorem code_lt_kraftSum {s : σ} (hs : s ∈ syms) (hpos : 0 < len s) :
    code syms len s < kraftSum syms len (len s) := by
  rw [code, ← first_add_lengthCount]
  exact Nat.add_lt_add_left (place_lt hs hpos) _

/-- Every code fits its length. -/
theorem code_lt {D : Nat} (hk : kraftSum syms len D ≤ 2 ^ D) {s : σ} (hs : s ∈ syms)
    (hpos : 0 < len s) (hD : len s ≤ D) : code syms len s < 2 ^ len s :=
  Nat.lt_of_lt_of_le (code_lt_kraftSum hs hpos) (kraftSum_le syms len hk hD)

/-- No codeword is a prefix of one that is at least as long. -/
theorem codeword_not_initial {D : Nat} (hk : kraftSum syms len D ≤ 2 ^ D) {s s' : σ}
    (hs : s ∈ syms) (hs' : s' ∈ syms) (hpos : 0 < len s) (hpos' : 0 < len s')
    (hD : len s ≤ D) (hD' : len s' ≤ D) (hne : s ≠ s') :
    ¬ codeword syms len s <+: codeword syms len s' := by
  intro hp
  obtain ⟨k, hlen⟩ : ∃ k, len s' = len s + k := by
    have := hp.length_le
    simp only [codeword, codeBits_length] at this
    exact ⟨len s' - len s, by omega⟩
  have hlt := code_lt hk hs hpos hD
  have hlt' := code_lt hk hs' hpos' hD'
  rw [hlen] at hlt'
  rw [codeword, codeword, hlen] at hp
  have hdiv := eq_div_of_codeBits_prefix hlt hlt' hp
  rcases Nat.eq_zero_or_pos k with rfl | hkpos
  · refine hne (place_injective hs hs' hlen.symm ?_)
    rw [Nat.pow_zero, Nat.div_one, code, code, hlen, Nat.add_zero] at hdiv
    omega
  · -- the longer code lies beyond every extension of the shorter one
    have hge : kraftSum syms len (len s) * 2 ^ k ≤ code syms len s' := by
      rw [code, hlen]
      exact Nat.le_trans (kraftSum_mul_le_first hkpos) (Nat.le_add_right _ _)
    have hle : kraftSum syms len (len s) ≤ code syms len s' / 2 ^ k :=
      (Nat.le_div_iff_mul_le (Nat.two_pow_pos k)).mpr hge
    have := code_lt_kraftSum hs hpos
    omega

/-- **Canonical codes are prefix-free** if the lengths satisfy Kraft's inequality. -/
theorem codeword_incomparable {D : Nat} (hk : kraftSum syms len D ≤ 2 ^ D) {s s' : σ}
    (hs : s ∈ syms) (hs' : s' ∈ syms) (hpos : 0 < len s) (hpos' : 0 < len s')
    (hD : len s ≤ D) (hD' : len s' ≤ D) (hne : s ≠ s') :
    Incomparable (codeword syms len s) (codeword syms len s') :=
  ⟨codeword_not_initial hk hs hs' hpos hpos' hD hD' hne,
    codeword_not_initial hk hs' hs hpos' hpos hD' hD (Ne.symm hne)⟩

end Codes
end CanonicalCode
