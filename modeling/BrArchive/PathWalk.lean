import Mathlib.Data.List.Basic

/-! # Walks over the components of a path

A path is a string over an arbitrary alphabet, cut into components at every
separator (`List.splitOnP`).  Reading the components from left to right walks up
and down a tree: a component goes up one level, stays, or goes down one level.
`StaysBelow` says that a walk never leaves the subtree it started in, and
`staysBelow_iff` reduces that to a count before each step up.  `splitOnP_cut`
turns a position in the component list back into a position in the string.
-/
namespace PathWalk

/-- What one component does to the depth. -/
inductive Move where
  | up
  | stay
  | down
  deriving DecidableEq

variable {α C : Type} (move : C → Move)

/-- The walk over the components, begun `d` levels below the root, never goes
above the root. -/
def StaysBelow : Nat → List C → Prop
  | _, [] => True
  | d, c :: cs =>
    match move c with
    | .up => 0 < d ∧ StaysBelow (d - 1) cs
    | .stay => StaysBelow d cs
    | .down => StaysBelow (d + 1) cs

/-- The number of components that go up. -/
def ups (cs : List C) : Nat := cs.countP (move · = .up)

/-- The number of components that go down. -/
def downs (cs : List C) : Nat := cs.countP (move · = .down)

theorem StaysBelow.split {d : Nat} {pre post : List C}
    (h : StaysBelow move d (pre ++ post)) :
    ups move pre ≤ d + downs move pre ∧
      StaysBelow move (d + downs move pre - ups move pre) post := by
  induction pre generalizing d with
  | nil => simpa [ups, downs] using h
  | cons c cs ih =>
    rw [List.cons_append, StaysBelow] at h
    cases hm : move c with
    | up =>
      rw [hm] at h
      obtain ⟨hd, hcs⟩ := h
      obtain ⟨hle, hpost⟩ := ih hcs
      simp only [ups, downs] at hle hpost ⊢
      simp only [List.countP_cons, hm]
      refine ⟨by simp; omega, ?_⟩
      convert hpost using 1
      simp
      omega
    | stay =>
      rw [hm] at h
      simpa [ups, downs, hm] using ih h
    | down =>
      rw [hm] at h
      obtain ⟨hle, hpost⟩ := ih h
      simp only [ups, downs] at hle hpost ⊢
      simp only [List.countP_cons, hm]
      refine ⟨by simp; omega, ?_⟩
      convert hpost using 1
      simp
      omega

/-- **A walk stays below its start** iff, at every step up, the steps down before
it outnumber the steps up before it. -/
theorem staysBelow_iff (d : Nat) (cs : List C) :
    StaysBelow move d cs ↔
      ∀ pre c post, cs = pre ++ c :: post → move c = .up →
        ups move pre < d + downs move pre := by
  constructor
  · rintro h pre c post rfl hc
    obtain ⟨hle, hpost⟩ := StaysBelow.split move h
    rw [StaysBelow, hc] at hpost
    have := hpost.1
    omega
  · induction cs generalizing d with
    | nil => intro _; trivial
    | cons c cs ih =>
      intro h
      -- the condition on c :: cs, read at the ".." of cs
      have tail : ∀ pre x post, cs = pre ++ x :: post → move x = .up →
          ups move (c :: pre) < d + downs move (c :: pre) := fun pre x post he hx =>
        h (c :: pre) x post (by rw [he, List.cons_append]) hx
      rw [StaysBelow]
      cases hm : move c with
      | up =>
        have hd : 0 < d := by simpa [ups, downs] using h [] c cs rfl hm
        refine ⟨hd, ih (d - 1) fun pre x post he hx => ?_⟩
        have := tail pre x post he hx
        simp only [ups, downs, List.countP_cons, hm] at this ⊢
        simp at this
        omega
      | stay =>
        refine ih d fun pre x post he hx => ?_
        simpa [ups, downs, hm] using tail pre x post he hx
      | down =>
        refine ih (d + 1) fun pre x post he hx => ?_
        have := tail pre x post he hx
        simp only [ups, downs, List.countP_cons, hm] at this ⊢
        simp at this
        omega

/-! ## From components back to the string -/

variable (sep : α → Bool)

/-- A string either has no separator or is cut at its first one. -/
theorem splitOnP_cases (s : List α) :
    (s.splitOnP sep = [s] ∧ ∀ x ∈ s, sep x = false) ∨
      ∃ x a t, s = x ++ a :: t ∧ sep a = true ∧ (∀ y ∈ x, sep y = false) ∧
        s.splitOnP sep = x :: t.splitOnP sep := by
  induction s with
  | nil => exact Or.inl ⟨rfl, by simp⟩
  | cons b s ih =>
    cases hb : sep b with
    | true =>
      exact Or.inr ⟨[], b, s, rfl, hb, by simp,
        by rw [List.splitOnP_cons_eq_if_modifyHead, if_pos hb]⟩
    | false =>
      rcases ih with ⟨hs, hfree⟩ | ⟨x, a, t, rfl, ha, hx, hs⟩
      · left
        refine ⟨?_, by simpa [hb] using hfree⟩
        rw [List.splitOnP_cons_eq_if_modifyHead, hs, hb]
        rfl
      · right
        refine ⟨b :: x, a, t, rfl, ha, by simpa [hb] using hx, ?_⟩
        rw [List.splitOnP_cons_eq_if_modifyHead, hs, hb]
        rfl

/-- A component is a piece of the string, and free of separators. -/
theorem of_mem_splitOnP {s c : List α} (h : c ∈ s.splitOnP sep) :
    c ⊆ s ∧ ∀ x ∈ c, sep x = false := by
  generalize hl : s.splitOnP sep = l at h
  induction l generalizing s with
  | nil => cases h
  | cons d l ih =>
    rcases splitOnP_cases sep s with ⟨hs, hfree⟩ | ⟨x, a, t, rfl, -, hx, hs⟩
    · rw [hs] at hl
      obtain ⟨rfl, rfl⟩ := List.cons.inj hl
      obtain rfl := List.mem_singleton.mp h
      exact ⟨List.Subset.refl c, hfree⟩
    · rw [hs] at hl
      obtain ⟨rfl, ht⟩ := List.cons.inj hl
      rcases List.mem_cons.mp h with rfl | h
      · exact ⟨List.subset_append_left c _, hx⟩
      · obtain ⟨hsub, hfree⟩ := ih ht h
        exact ⟨fun b hb => List.mem_append_right _ (List.mem_cons_of_mem a (hsub hb)), hfree⟩

/-- **A component's place in the string.**  The component `c` with `pre` before it
and `post` after it stands between a separator, or the start, and a separator, or
the end. -/
theorem splitOnP_cut {s c : List α} {pre post : List (List α)}
    (h : s.splitOnP sep = pre ++ c :: post) :
    ∃ l r, s = l ++ (c ++ r) ∧
      ((pre = [] ∧ l = []) ∨ ∃ l₀ a, sep a = true ∧ l = l₀ ++ [a] ∧ l₀.splitOnP sep = pre) ∧
      (r = [] ∨ ∃ a r₀, sep a = true ∧ r = a :: r₀) := by
  induction pre generalizing s with
  | nil =>
    rcases splitOnP_cases sep s with ⟨hs, -⟩ | ⟨x, a, t, rfl, ha, -, hs⟩
    · rw [hs] at h
      obtain ⟨rfl, -⟩ := List.cons.inj h
      exact ⟨[], [], by simp, Or.inl ⟨rfl, rfl⟩, Or.inl rfl⟩
    · rw [hs] at h
      obtain ⟨rfl, -⟩ := List.cons.inj h
      exact ⟨[], a :: t, by simp, Or.inl ⟨rfl, rfl⟩, Or.inr ⟨a, t, ha, rfl⟩⟩
  | cons d pre ih =>
    rcases splitOnP_cases sep s with ⟨hs, -⟩ | ⟨x, a, t, rfl, ha, hx, hs⟩
    · rw [hs] at h
      have := congrArg List.length h
      simp at this
    · rw [hs, List.cons_append] at h
      obtain ⟨rfl, ht⟩ := List.cons.inj h
      obtain ⟨l, r, rfl, hl, hr⟩ := ih ht
      refine ⟨x ++ a :: l, r, by simp, Or.inr ?_, hr⟩
      rcases hl with ⟨rfl, rfl⟩ | ⟨l₀, b, hb, rfl, hl₀⟩
      · exact ⟨x, a, ha, rfl, List.splitOnP_eq_singleton hx⟩
      · exact ⟨x ++ a :: l₀, b, hb, by simp, by
          rw [List.splitOnP_append_cons_of_forall_mem hx a ha, hl₀]⟩

end PathWalk
