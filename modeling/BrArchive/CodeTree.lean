import Mathlib.Data.Tree.Basic
import Mathlib.Data.List.Infix
import Mathlib.Algebra.Order.BigOperators.Group.List
import Mathlib.Algebra.Ring.Nat

/-! # Binary code trees

A bit string leads from the root of a binary tree to a subtree, `false` to the left
and `true` to the right.  The *codewords* of a tree are the nonempty strings that
lead to a leaf; no codeword is a prefix of another.  `insert` hangs a leaf at the
end of a given string and creates the nodes on the way to it.  Inserting the strings
of a prefix-free list one by one always succeeds, and turns all of them into codewords.

The last section is Kraft's equality for full trees.
-/
namespace CodeTree

variable {α : Type}

/-- The subtree a bit leads to. -/
def child : BinaryTree α → Bool → BinaryTree α
  | .nil, _ => .nil
  | .node _ l r, b => if b then r else l

/-- The same node with another subtree behind the bit. -/
def setChild : BinaryTree α → Bool → BinaryTree α → BinaryTree α
  | .nil, _, _ => .nil
  | .node a l r, b, t => if b then .node a l t else .node a t r

/-- The subtree a bit string leads to. -/
def follow (t : BinaryTree α) : List Bool → BinaryTree α
  | [] => t
  | b :: w => follow (child t b) w

/-- The leaf labelled `a`. -/
def leaf (a : α) : BinaryTree α := .node a .nil .nil

/-- Both links are null. -/
def isLeaf : BinaryTree α → Bool
  | .node _ .nil .nil => true
  | _ => false

/-- A nonempty string that leads to the leaf labelled `a`. -/
def Codeword (t : BinaryTree α) (w : List Bool) (a : α) : Prop :=
  w ≠ [] ∧ follow t w = leaf a

@[simp] theorem follow_nil (t : BinaryTree α) : follow t [] = t := rfl

@[simp] theorem follow_cons (t : BinaryTree α) (b : Bool) (w : List Bool) :
    follow t (b :: w) = follow (child t b) w := rfl

@[simp] theorem child_leaf (a : α) (b : Bool) : child (leaf a) b = .nil := by
  cases b <;> rfl

@[simp] theorem follow_null (w : List Bool) : follow (.nil : BinaryTree α) w = .nil := by
  induction w with
  | nil => rfl
  | cons b w ih => exact ih

theorem follow_append (t : BinaryTree α) (u v : List Bool) :
    follow t (u ++ v) = follow (follow t u) v := by
  induction u generalizing t with
  | nil => rfl
  | cons b u ih => exact ih (child t b)

theorem follow_leaf {v : List Bool} (hv : v ≠ []) (a : α) : follow (leaf a) v = .nil := by
  cases v with
  | nil => exact absurd rfl hv
  | cons b v => rw [follow_cons, child_leaf, follow_null]

theorem leaf_ne_null (a : α) : leaf a ≠ .nil := by
  intro h
  cases h

@[simp] theorem isLeaf_leaf (a : α) : isLeaf (leaf a) = true := rfl

/-- A codeword that is a prefix of another is the same codeword. -/
theorem Codeword.eq_of_prefix {t : BinaryTree α} {w w' : List Bool} {a a' : α}
    (h : Codeword t w a) (h' : Codeword t w' a') (hp : w <+: w') : w = w' ∧ a = a' := by
  obtain ⟨v, rfl⟩ := hp
  have hv : v = [] := by
    apply Classical.byContradiction
    intro hv
    have := h'.2
    rw [follow_append, h.2, follow_leaf hv] at this
    exact leaf_ne_null a' this.symm
  subst hv
  have := h'.2
  rw [List.append_nil, h.2] at this
  exact ⟨by simp, by injection this⟩

/-- A string that starts with two codewords starts with one of them only. -/
theorem Codeword.unique {t : BinaryTree α} {w w' bits : List Bool} {a a' : α}
    (h : Codeword t w a) (h' : Codeword t w' a') (hp : w <+: bits) (hp' : w' <+: bits) :
    w = w' ∧ a = a' := by
  rcases List.prefix_or_prefix_of_prefix hp hp' with hww | hww
  · exact h.eq_of_prefix h' hww
  · obtain ⟨rfl, rfl⟩ := h'.eq_of_prefix h hww
    exact ⟨rfl, rfl⟩

/-! ## Building a tree from codewords -/

section Insert
variable (blank : α)

/-- The subtree behind a bit, or a fresh blank node where there is none. -/
def childOrBlank (t : BinaryTree α) (b : Bool) : BinaryTree α :=
  match child t b with
  | .nil => leaf blank
  | t' => t'

/-- Hang a leaf at the end of a string, creating blank nodes on the way; fail if the
place is taken. -/
def insert (a : α) (t : BinaryTree α) : List Bool → Option (BinaryTree α)
  | [] => none
  | b :: w =>
    match w with
    | [] =>
      match child t b with
      | .nil => some (setChild t b (leaf a))
      | _ => none
    | _ :: _ => (insert a (childOrBlank blank t b) w).map (setChild t b)

/-- Insert a list of strings with their labels. -/
def insertAll (t : BinaryTree α) : List (List Bool × α) → Option (BinaryTree α)
  | [] => some t
  | (w, a) :: ws => (insert blank a t w).bind (insertAll · ws)

variable {blank}

theorem child_setChild_self {t : BinaryTree α} (ht : t ≠ .nil) (b : Bool) (s : BinaryTree α) :
    child (setChild t b s) b = s := by
  cases t with
  | nil => exact absurd rfl ht
  | node x l r => cases b <;> rfl

theorem child_setChild_ne {t : BinaryTree α} {b c : Bool} (hbc : c ≠ b) (s : BinaryTree α) :
    child (setChild t b s) c = child t c := by
  cases t with
  | nil => rfl
  | node x l r => cases b <;> cases c <;> first | rfl | exact absurd rfl hbc

theorem setChild_ne_null {t : BinaryTree α} (ht : t ≠ .nil) (b : Bool) (s : BinaryTree α) :
    setChild t b s ≠ .nil := by
  cases t with
  | nil => exact absurd rfl ht
  | node x l r => cases b <;> simp [setChild]

theorem childOrBlank_ne_null (t : BinaryTree α) (b : Bool) : childOrBlank blank t b ≠ .nil := by
  unfold childOrBlank
  split
  · exact leaf_ne_null blank
  · rename_i h
    exact fun he => h he

theorem follow_childOrBlank {v : List Bool} (hv : v ≠ []) (t : BinaryTree α) (b : Bool) :
    follow (childOrBlank blank t b) v = follow (child t b) v := by
  unfold childOrBlank
  split
  · rename_i h
    rw [h, follow_leaf hv, follow_null]
  · rfl

/-- Insertion succeeds wherever the place is free. -/
theorem insert_isSome {a : α} {w : List Bool} (hw : w ≠ []) :
    ∀ {t : BinaryTree α}, follow t w = .nil → ∃ t', insert blank a t w = some t' := by
  induction w with
  | nil => exact absurd rfl hw
  | cons b w ih =>
    intro t hfree
    cases w with
    | nil =>
      refine ⟨setChild t b (leaf a), ?_⟩
      rw [follow_cons, follow_nil] at hfree
      simp [insert, hfree]
    | cons c w =>
      have hfree' : follow (childOrBlank blank t b) (c :: w) = .nil := by
        rwa [follow_childOrBlank (List.cons_ne_nil c w)]
      obtain ⟨t', ht'⟩ := ih (List.cons_ne_nil c w) hfree'
      exact ⟨setChild t b t', by rw [insert, ht']; rfl⟩

/-- What an insertion does: the new leaf, and nothing off the way to it. -/
structure Inserted (a : α) (w : List Bool) (t t' : BinaryTree α) : Prop where
  ne_null : t' ≠ .nil
  self : follow t' w = leaf a
  frame : ∀ v, ¬ v <+: w → follow t' v = follow t v

theorem insert_spec {a : α} {w : List Bool} :
    ∀ {t t' : BinaryTree α}, t ≠ .nil → insert blank a t w = some t' → Inserted a w t t' := by
  induction w with
  | nil => intro t t' _ h; cases h
  | cons b w ih =>
    intro t t' ht h
    cases w with
    | nil =>
      -- the last position: it has to be free
      simp only [insert] at h
      split at h
      · rename_i hnull
        obtain rfl := Option.some.inj h
        refine ⟨setChild_ne_null ht b _, by simp [child_setChild_self ht], ?_⟩
        rintro (_ | ⟨c, v⟩) hv
        · exact absurd List.nil_prefix hv
        · by_cases hc : c = b
          · subst hc
            have hne : v ≠ [] := fun he => hv (by simp [he])
            rw [follow_cons, child_setChild_self ht, follow_leaf hne, follow_cons, hnull,
              follow_null]
          · rw [follow_cons, child_setChild_ne hc, follow_cons]
      · cases h
    | cons d w =>
      -- on the way: the child is made if it is not there
      rw [insert] at h
      obtain ⟨s, hs, rfl⟩ := Option.map_eq_some_iff.mp h
      obtain ⟨-, hself, hframe⟩ := ih (childOrBlank_ne_null t b) hs
      refine ⟨setChild_ne_null ht b _, by rw [follow_cons, child_setChild_self ht, hself], ?_⟩
      rintro (_ | ⟨c, v⟩) hv
      · exact absurd List.nil_prefix hv
      · by_cases hc : c = b
        · subst hc
          have hv' : ¬ v <+: d :: w := fun hp => hv (List.cons_prefix_cons.mpr ⟨rfl, hp⟩)
          have hne : v ≠ [] := fun he => hv' (he ▸ List.nil_prefix)
          rw [follow_cons, child_setChild_self ht, hframe v hv', follow_childOrBlank hne,
            follow_cons]
        · rw [follow_cons, child_setChild_ne hc, follow_cons]

theorem insertAll_ne_null {ws : List (List Bool × α)} :
    ∀ {t t' : BinaryTree α}, t ≠ .nil → insertAll blank t ws = some t' → t' ≠ .nil := by
  induction ws with
  | nil => intro t t' ht h; exact Option.some.inj h ▸ ht
  | cons p ws ih =>
    intro t t' ht h
    obtain ⟨t₁, h₁, h⟩ := Option.bind_eq_some_iff.mp h
    exact ih (insert_spec ht h₁).ne_null h

/-- The tree grown from some insertions: they are its codewords, and every place in
it lies on the way to one of them. -/
structure Grown (done : List (List Bool × α)) (t : BinaryTree α) : Prop where
  ne_null : t ≠ .nil
  codeword : ∀ p ∈ done, Codeword t p.1 p.2
  covered : ∀ v, v ≠ [] → follow t v ≠ .nil → ∃ p ∈ done, v <+: p.1

theorem Grown.start : Grown [] (leaf blank) :=
  ⟨leaf_ne_null blank, fun _ h => absurd h List.not_mem_nil,
    fun _ hv h => absurd (follow_leaf hv blank) h⟩

/-- Two strings of which neither is a prefix of the other. -/
def Incomparable (u v : List Bool) : Prop := ¬ u <+: v ∧ ¬ v <+: u

theorem Grown.step {done : List (List Bool × α)} {t : BinaryTree α} (h : Grown done t)
    {w : List Bool} {a : α} (hw : w ≠ []) (hinc : ∀ p ∈ done, Incomparable p.1 w) :
    ∃ t', insert blank a t w = some t' ∧ Grown (done ++ [(w, a)]) t' := by
  have hfree : follow t w = .nil := by
    apply Classical.byContradiction
    intro hne
    obtain ⟨p, hp, hpre⟩ := h.covered w hw hne
    exact (hinc p hp).2 hpre
  obtain ⟨t', ht'⟩ : ∃ t', insert blank a t w = some t' := insert_isSome hw hfree
  obtain ⟨hne, hself, hframe⟩ := insert_spec h.ne_null ht'
  refine ⟨t', ht', hne, ?_, ?_⟩
  · intro p hp
    rcases List.mem_append.mp hp with hp | hp
    · obtain ⟨hpw, hleaf⟩ := h.codeword p hp
      exact ⟨hpw, by rw [hframe p.1 (hinc p hp).1, hleaf]⟩
    · obtain rfl := List.mem_singleton.mp hp
      exact ⟨hw, hself⟩
  · intro v hv hne
    by_cases hvw : v <+: w
    · exact ⟨(w, a), by simp, hvw⟩
    · rw [hframe v hvw] at hne
      obtain ⟨p, hp, hpre⟩ := h.covered v hv hne
      exact ⟨p, List.mem_append_left _ hp, hpre⟩

/-- **Growing a prefix-free tree** never fails. -/
theorem Grown.insertAll {ws : List (List Bool × α)} :
    ∀ {done : List (List Bool × α)} {t : BinaryTree α}, Grown done t →
      (∀ p ∈ ws, p.1 ≠ []) → (done ++ ws).Pairwise (fun p q => Incomparable p.1 q.1) →
      ∃ t', insertAll blank t ws = some t' ∧ Grown (done ++ ws) t' := by
  induction ws with
  | nil => intro done t h _ _; exact ⟨t, rfl, by simpa using h⟩
  | cons p ws ih =>
    intro done t h hne hpw
    have hinc : ∀ q ∈ done, Incomparable q.1 p.1 := fun q hq =>
      (List.pairwise_append.mp hpw).2.2 q hq p List.mem_cons_self
    obtain ⟨t₁, ht₁, h₁⟩ : ∃ t', insert blank p.2 t p.1 = some t' ∧ Grown (done ++ [p]) t' :=
      h.step (hne p List.mem_cons_self) hinc
    obtain ⟨t₂, ht₂, h₂⟩ := ih h₁ (fun q hq => hne q (List.mem_cons_of_mem p hq))
      (by simpa using hpw)
    refine ⟨t₂, ?_, by simpa using h₂⟩
    rw [CodeTree.insertAll, ht₁]
    exact ht₂

variable (blank) in
/-- The tree built from a prefix-free list has just its strings as codewords. -/
theorem insertAll_grown {ws : List (List Bool × α)} (hne : ∀ p ∈ ws, p.1 ≠ [])
    (hpw : ws.Pairwise (fun p q => Incomparable p.1 q.1)) :
    ∃ t, CodeTree.insertAll blank (leaf blank) ws = some t ∧ Grown ws t := by
  obtain ⟨t, ht, hgrown⟩ : ∃ t', CodeTree.insertAll blank (leaf blank) ws = some t' ∧
      Grown ([] ++ ws) t' := Grown.start.insertAll hne hpw
  exact ⟨t, ht, hgrown⟩

/-- The only leaves of a grown tree are those that were inserted. -/
theorem Grown.eq_of_follow {done : List (List Bool × α)} {t : BinaryTree α} (h : Grown done t)
    (hne : done ≠ []) {v : List Bool} {a : α} (hv : follow t v = leaf a) :
    ∃ p ∈ done, v = p.1 ∧ a = p.2 := by
  have hnil : v ≠ [] := by
    rintro rfl
    obtain ⟨p, hp⟩ := List.exists_mem_of_ne_nil done hne
    obtain ⟨hpos, hleaf⟩ := h.codeword p hp
    rw [follow_nil] at hv
    rw [hv, follow_leaf hpos] at hleaf
    exact leaf_ne_null _ hleaf.symm
  obtain ⟨p, hp, hpre⟩ := h.covered v hnil (hv ▸ leaf_ne_null a)
  exact ⟨p, hp, Codeword.eq_of_prefix ⟨hnil, hv⟩ (h.codeword p hp) hpre⟩

/-! ### Strings that are not prefix-free

Insertion only looks at the end of the way.  A leaf on the way becomes an inner node. -/

/-- The places that some insertions have taken up. -/
structure Occupied (done : List (List Bool × α)) (t : BinaryTree α) : Prop where
  ne_null : t ≠ .nil
  taken : ∀ v, v ≠ [] → (follow t v ≠ .nil ↔ ∃ p ∈ done, v <+: p.1)

theorem Occupied.start : Occupied [] (leaf blank) :=
  ⟨leaf_ne_null blank, fun v hv => iff_of_false (fun h => h (follow_leaf hv blank)) (by simp)⟩

/-- Where an insertion succeeds, the place is free. -/
theorem insert_free {a : α} {w : List Bool} :
    ∀ {t t' : BinaryTree α}, insert blank a t w = some t' → follow t w = .nil := by
  induction w with
  | nil => intro t t' h; cases h
  | cons b w ih =>
    intro t t' h
    cases w with
    | nil =>
      simp only [insert] at h
      split at h
      · assumption
      · cases h
    | cons c w =>
      rw [insert] at h
      obtain ⟨s, hs, -⟩ := Option.map_eq_some_iff.mp h
      rw [follow_cons, ← follow_childOrBlank (List.cons_ne_nil c w)]
      exact ih hs

theorem Occupied.step {done : List (List Bool × α)} {t t' : BinaryTree α} (h : Occupied done t)
    {w : List Bool} {a : α} (ht' : insert blank a t w = some t') :
    Occupied (done ++ [(w, a)]) t' := by
  obtain ⟨hne, hself, hframe⟩ := insert_spec h.ne_null ht'
  refine ⟨hne, fun v hv => ?_⟩
  by_cases hvw : v <+: w
  · refine iff_of_true (fun hnull => ?_) ⟨(w, a), by simp, hvw⟩
    obtain ⟨u, rfl⟩ := hvw
    rw [follow_append, hnull, follow_null] at hself
    exact leaf_ne_null a hself.symm
  · rw [hframe v hvw, h.taken v hv]
    simp [or_and_right, exists_or, hvw]

/-- **Insertion fails just where a string is a prefix of an earlier one.** -/
theorem Occupied.insertAll_isSome {ws : List (List Bool × α)} :
    ∀ {done : List (List Bool × α)} {t : BinaryTree α}, Occupied done t →
      (∀ p ∈ ws, p.1 ≠ []) → done.Pairwise (fun p q => ¬ q.1 <+: p.1) →
      ((CodeTree.insertAll blank t ws).isSome ↔
        (done ++ ws).Pairwise (fun p q => ¬ q.1 <+: p.1)) := by
  induction ws with
  | nil =>
    intro done t _ _ hdone
    rw [List.append_nil]
    exact iff_of_true rfl hdone
  | cons p ws ih =>
    intro done t h hne hdone
    have hp : p.1 ≠ [] := hne p List.mem_cons_self
    rw [CodeTree.insertAll]
    cases hinsert : insert blank p.2 t p.1 with
    | none =>
      -- the position is taken, so a codeword before this one goes through it
      refine iff_of_false (by simp) fun hpw => ?_
      have htaken : follow t p.1 ≠ .nil := by
        intro hfree
        obtain ⟨t', ht'⟩ : ∃ t', insert blank p.2 t p.1 = some t' := insert_isSome hp hfree
        rw [hinsert] at ht'
        cases ht'
      obtain ⟨q, hq, hpre⟩ := (h.taken p.1 hp).mp htaken
      exact (List.pairwise_append.mp hpw).2.2 q hq p List.mem_cons_self hpre
    | some t' =>
      -- the position was free, so no codeword before this one goes through it
      have hfree := insert_free hinsert
      have hdone' : (done ++ [p]).Pairwise (fun p q => ¬ q.1 <+: p.1) := by
        refine List.pairwise_append.mpr ⟨hdone, List.pairwise_singleton _ _, fun q hq p' hp' => ?_⟩
        obtain rfl := List.mem_singleton.mp hp'
        exact fun hpre => (h.taken p'.1 hp).mpr ⟨q, hq, hpre⟩ hfree
      rw [Option.bind_some, ih (h.step hinsert)
        (fun q hq => hne q (List.mem_cons_of_mem p hq)) hdone', List.append_assoc]
      rfl

variable (blank) in
theorem insertAll_isSome_iff {ws : List (List Bool × α)} (hne : ∀ p ∈ ws, p.1 ≠ []) :
    (CodeTree.insertAll blank (leaf blank) ws).isSome ↔
      ws.Pairwise (fun p q => ¬ q.1 <+: p.1) :=
  Occupied.start.insertAll_isSome hne List.Pairwise.nil

end Insert

/-! ## Full trees and Kraft's equality -/

/-- Every node has two subtrees or none. -/
inductive Full : BinaryTree α → Prop
  | leaf (a : α) : Full (leaf a)
  | node (a : α) {l r : BinaryTree α} (hl : Full l) (hr : Full r) : Full (.node a l r)

/-- The labels of the leaves with their depths, the root being at depth `d`. -/
def leafDepths : BinaryTree α → Nat → List (α × Nat)
  | .nil, _ => []
  | .node a .nil .nil, d => [(a, d)]
  | .node _ l r, d => leafDepths l (d + 1) ++ leafDepths r (d + 1)

/-- The labels of the leaves. -/
def labels : BinaryTree α → List α
  | .nil => []
  | .node a .nil .nil => [a]
  | .node _ l r => labels l ++ labels r

@[simp] theorem labels_leaf (a : α) : labels (leaf a) = [a] := rfl

theorem labels_node (a : α) {l r : BinaryTree α} (hl : l ≠ .nil) :
    labels (.node a l r) = labels l ++ labels r := by
  cases l with
  | nil => exact absurd rfl hl
  | node => rfl

theorem Full.ne_null {t : BinaryTree α} (h : Full t) : t ≠ .nil := by
  cases h with
  | leaf a => exact leaf_ne_null a
  | node a hl hr => intro he; cases he

@[simp] theorem leafDepths_leaf (a : α) (d : Nat) : leafDepths (leaf a) d = [(a, d)] := rfl

theorem leafDepths_node (a : α) {l r : BinaryTree α} (hl : l ≠ .nil) (d : Nat) :
    leafDepths (.node a l r) d = leafDepths l (d + 1) ++ leafDepths r (d + 1) := by
  cases l with
  | nil => exact absurd rfl hl
  | node => rfl

theorem Full.map_fst_leafDepths {t : BinaryTree α} (h : Full t) (d : Nat) :
    (leafDepths t d).map Prod.fst = labels t := by
  induction h generalizing d with
  | leaf a => rfl
  | node a hl hr ihl ihr =>
    rw [leafDepths_node a hl.ne_null, labels_node a hl.ne_null, List.map_append, ihl, ihr]

/-- Leaves are at least as deep as the root and at most `height - 1` below it. -/
theorem Full.depth_bounds {t : BinaryTree α} (h : Full t) :
    ∀ {d : Nat}, ∀ p ∈ leafDepths t d, d ≤ p.2 ∧ p.2 < d + t.height := by
  induction h with
  | leaf a =>
    intro d p hp
    obtain rfl := List.mem_singleton.mp hp
    simp [CodeTree.leaf]
  | node a hl hr ihl ihr =>
    intro d p hp
    rw [leafDepths_node a hl.ne_null, List.mem_append] at hp
    simp only [BinaryTree.height]
    rcases hp with hp | hp
    · have := ihl p hp
      omega
    · have := ihr p hp
      omega

theorem Full.leafDepths_ne_nil {t : BinaryTree α} (h : Full t) (d : Nat) :
    leafDepths t d ≠ [] := by
  induction h generalizing d with
  | leaf a => simp
  | node a hl hr ihl ihr =>
    rw [leafDepths_node a hl.ne_null]
    simp [ihl]

/-- **Kraft's equality.** -/
theorem Full.kraft {t : BinaryTree α} (h : Full t) :
    ∀ {d D : Nat}, (∀ p ∈ leafDepths t d, p.2 ≤ D) →
      ((leafDepths t d).map (fun p => 2 ^ (D - p.2))).sum = 2 ^ (D - d) := by
  induction h with
  | leaf a => intro d D _; simp
  | @node a l r hl hr ihl ihr =>
    intro d D hD
    rw [leafDepths_node a hl.ne_null] at hD ⊢
    have hlt : d < D := by
      obtain ⟨p, hp⟩ := List.exists_mem_of_ne_nil _ (hl.leafDepths_ne_nil (d + 1))
      have := (hl.depth_bounds p hp).1
      have := hD p (List.mem_append_left _ hp)
      omega
    rw [List.map_append, List.sum_append, ihl fun p hp => hD p (List.mem_append_left _ hp),
      ihr fun p hp => hD p (List.mem_append_right _ hp), ← Nat.two_mul, ← Nat.pow_succ']
    congr 1
    omega

end CodeTree
