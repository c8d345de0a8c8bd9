import Mathlib.Logic.Function.Iterate
import Mathlib.Data.Int.GCD
import Mathlib.Data.Nat.Prime.Basic

/-! # Linear maps on bit vectors

A map of bit vectors that commutes with exclusive or is given by its columns, the
images of the single bits.  Multiplying a vector by the columns, and a matrix by
itself, compute the map and its square.  The last section is about maps one of whose
iterates of prime order is the identity.
-/
namespace XorLinear

variable {w : Nat}

/-- The map commutes with exclusive or. -/
def Linear (f : BitVec w → BitVec w) : Prop := ∀ x y, f (x ^^^ y) = f x ^^^ f y

section Linear
variable {f g : BitVec w → BitVec w}

theorem Linear.zero (hf : Linear f) : f 0#w = 0#w := by
  have h := hf 0#w 0#w
  rwa [BitVec.xor_self, BitVec.xor_self] at h

theorem Linear.comp (hf : Linear f) (hg : Linear g) : Linear (f ∘ g) := by
  intro x y
  rw [Function.comp_apply, hg, hf]
  rfl

theorem Linear.iterate (hf : Linear f) (n : Nat) : Linear f^[n] := by
  induction n with
  | zero => intro x y; rfl
  | succ n ih =>
    rw [Function.iterate_succ']
    exact hf.comp ih

theorem xor_left_cancel {a b c : BitVec w} (h : a ^^^ b = a ^^^ c) : b = c := by
  have h' := congrArg (a ^^^ ·) h
  simpa [← BitVec.xor_assoc] using h'

end Linear

/-! ## Matrices -/

/-- The images of the single bits. -/
def columns (f : BitVec w → BitVec w) : List (BitVec w) :=
  (List.range' 0 w).map (fun i => f (BitVec.twoPow w i))

/-- Add the columns selected by the bits of a vector, until no bit is left. -/
def times : List (BitVec w) → BitVec w → BitVec w → BitVec w
  | [], _, sum => sum
  | col :: mat, vec, sum =>
    if vec = 0 then sum
    else times mat (vec >>> 1) (if vec.getLsbD 0 then sum ^^^ col else sum)

/-- The matrix applied to each of its own columns. -/
def square (mat : List (BitVec w)) : List (BitVec w) := mat.map (fun col => times mat col 0)

theorem shiftLeft_shiftRight_succ (v : BitVec w) (k : Nat) :
    v >>> k <<< k =
      (if v.getLsbD k then BitVec.twoPow w k else 0) ^^^ v >>> (k + 1) <<< (k + 1) := by
  apply BitVec.eq_of_getLsbD_eq
  intro i hi
  have hbit : (if v.getLsbD k then BitVec.twoPow w k else 0).getLsbD i =
      (v.getLsbD k && decide (i = k)) := by
    split
    · rename_i h
      rw [h, BitVec.getLsbD_twoPow]
      by_cases hik : i = k
      · simp [hik, hik ▸ hi]
      · simp [hik, Ne.symm hik]
    · rename_i h
      simp [h]
  rw [BitVec.getLsbD_xor, hbit]
  simp only [BitVec.getLsbD_shiftLeft, BitVec.getLsbD_ushiftRight, hi]
  rcases Nat.lt_trichotomy i k with hlt | rfl | hgt
  · simp [hlt, Nat.ne_of_lt hlt, show i < k + 1 by omega]
  · simp
  · simp [Nat.not_lt_of_gt hgt, Nat.ne_of_gt hgt, show ¬ i < k + 1 by omega,
      show k + (i - k) = i by omega, show k + 1 + (i - (k + 1)) = i by omega]

/-- **A matrix computes its map.** -/
theorem times_columns {f : BitVec w → BitVec w} (hf : Linear f) (v : BitVec w) :
    times (columns f) v 0 = f v := by
  -- after k rounds the vector has been shifted by k and its low bits are in the sum
  suffices h : ∀ m k (sum : BitVec w), k + m = w →
      times ((List.range' k m).map (fun i => f (BitVec.twoPow w i))) (v >>> k) sum =
        sum ^^^ f (v >>> k <<< k) by
    have := h w 0 0 (Nat.zero_add w)
    simpa [columns] using this
  intro m
  induction m with
  | zero =>
    intro k sum hk
    have hzero : v >>> k <<< k = 0#w := by
      apply BitVec.eq_of_getLsbD_eq
      intro i hi
      simp [show i < k by omega]
    rw [hzero, hf.zero, BitVec.xor_zero]
    rfl
  | succ m ih =>
    intro k sum hk
    rw [List.range'_succ, List.map_cons, times]
    by_cases hv : v >>> k = 0
    · rw [if_pos hv, hv]
      simp [hf.zero]
    · rw [if_neg hv, ← BitVec.shiftRight_add, ih (k + 1) _ (by omega),
        shiftLeft_shiftRight_succ v k, hf, ← BitVec.xor_assoc]
      congr 1
      have hbit : (v >>> k).getLsbD 0 = v.getLsbD k := by simp
      rw [hbit]
      split
      · rfl
      · rw [show (0 : BitVec w) = 0#w from rfl, hf.zero, BitVec.xor_zero]

/-- Squaring a matrix squares its map. -/
theorem square_columns {f : BitVec w → BitVec w} (hf : Linear f) :
    square (columns f) = columns (f ∘ f) := by
  rw [square, columns, List.map_map]
  exact List.map_congr_left fun i _ => times_columns hf _

theorem square_columns_iterate {f : BitVec w → BitVec w} (hf : Linear f) (n : Nat) :
    square (columns f^[n]) = columns f^[2 * n] := by
  rw [square_columns (hf.iterate n), ← Function.iterate_add, Nat.two_mul]

/-- Squaring `n` times gives the power `2 ^ n`. -/
theorem iterate_square_columns {f : BitVec w → BitVec w} (hf : Linear f) (n : Nat) :
    square^[n] (columns f) = columns f^[2 ^ n] := by
  induction n with
  | zero => rfl
  | succ n ih =>
    rw [Function.iterate_succ_apply', ih, square_columns_iterate hf, Nat.pow_succ']

/-! ## Maps of prime order -/

section Order
variable {α : Type} {f : α → α} {p : Nat}

theorem iterate_mul_eq_id (h : f^[p] = id) (k : Nat) : f^[p * k] = id := by
  rw [Function.iterate_mul, h, Function.iterate_id]

/-- Only the exponent modulo the order matters. -/
theorem iterate_mod (h : f^[p] = id) (n : Nat) : f^[n] = f^[n % p] := by
  conv => lhs; rw [← Nat.mod_add_div n p]
  rw [Function.iterate_add, iterate_mul_eq_id h, Function.comp_id]

/-- The exponents that give the identity are the multiples of the order. -/
theorem iterate_eq_id_iff (hp : p.Prime) (h : f^[p] = id) (hne : f ≠ id) (n : Nat) :
    f^[n] = id ↔ p ∣ n := by
  constructor
  · intro hn
    apply Classical.byContradiction
    intro hdvd
    have hcop : Nat.Coprime n p := ((Nat.Prime.coprime_iff_not_dvd hp).mpr hdvd).symm
    obtain ⟨m, -, hm⟩ := Nat.exists_mul_mod_eq_one_of_coprime hcop hp.one_lt
    refine hne ?_
    calc f = f^[n * m % p] := by rw [hm, Function.iterate_one]
      _ = f^[n * m] := (iterate_mod h _).symm
      _ = id := iterate_mul_eq_id hn m
  · rintro ⟨k, rfl⟩
    exact iterate_mul_eq_id h k

theorem iterate_injective (h : f^[p] = id) (hp : 0 < p) (n : Nat) : Function.Injective f^[n] := by
  intro x y hxy
  have hinv : f^[p * n - n] ∘ f^[n] = id := by
    rw [← Function.iterate_add, Nat.sub_add_cancel (Nat.le_mul_of_pos_left n hp),
      iterate_mul_eq_id h]
  calc x = (f^[p * n - n] ∘ f^[n]) x := by rw [hinv]; rfl
    _ = (f^[p * n - n] ∘ f^[n]) y := congrArg f^[p * n - n] hxy
    _ = y := by rw [hinv]; rfl

theorem iterate_surjective (h : f^[p] = id) (hp : 0 < p) (n : Nat) :
    Function.Surjective f^[n] := by
  intro y
  refine ⟨f^[p * n - n] y, ?_⟩
  rw [← Function.iterate_add_apply, Nat.add_sub_cancel' (Nat.le_mul_of_pos_left n hp),
    iterate_mul_eq_id h]
  rfl

end Order
end XorLinear
