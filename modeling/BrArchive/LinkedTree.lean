import Mathlib.Data.List.Perm.Basic
import Mathlib.Data.List.Nodup

/-! # Trees as chains of linked nodes

A tree whose nodes hold a link to their first child and a link to their next sibling.
What a node holds never changes and tells nodes apart, so that the value of a node stands
for a pointer to it; only the links are updated.  A node may know its parent: a tree is
linked if it agrees with the chains, and if siblings have different names.
-/
namespace LinkedTree

/-- A chain of siblings: the value of the first, its children, the siblings after it. -/
inductive Links (α : Type) where
  | null
  | node (val : α) (firstChild next : Links α)
  deriving DecidableEq

namespace Links
variable {α β : Type}

/-- The nodes in the order a depth-first search meets them. -/
def nodes : Links α → List α
  | null => []
  | node a c n => a :: (nodes c ++ nodes n)

/-- The siblings of a chain. -/
def chain : Links α → List α
  | null => []
  | node a _ n => a :: chain n

/-- The depth-first search for a node. -/
def search (found : α → Bool) : Links α → Option α
  | null => none
  | node a c n =>
    if found a then some a
    else
      match search found c with
      | some r => some r
      | none => search found n

/-- A new node at the end of a chain. -/
def appendNode (x : α) : Links α → Links α
  | null => node x null null
  | node a c n => node a c (appendNode x n)

section Pointers
variable [DecidableEq α]

/-- The `firstChild` link of the node `p`. -/
def childrenOf (p : α) : Links α → Option (Links α)
  | null => none
  | node a c n => if a = p then some c else (childrenOf p c).or (childrenOf p n)

/-- A new node at the end of the children of `p`. -/
def appendChild (p x : α) : Links α → Links α
  | null => null
  | node a c n =>
    if a = p then node a (appendNode x c) n else node a (appendChild p x c) (appendChild p x n)

end Pointers

theorem search_eq_find? (found : α → Bool) (t : Links α) :
    t.search found = t.nodes.find? found := by
  induction t with
  | null => rfl
  | node a c n ihc ihn =>
    rw [search, nodes, List.find?_cons, List.find?_append, ihc, ihn]
    cases found a with
    | true => rfl
    | false => cases c.nodes.find? found <;> rfl

theorem chain_subset_nodes (t : Links α) : t.chain ⊆ t.nodes := by
  induction t with
  | null => exact List.Subset.refl _
  | node a c n _ ihn =>
    intro b hb
    rcases List.mem_cons.mp hb with rfl | hb
    · exact List.mem_cons_self
    · exact List.mem_cons_of_mem _ (List.mem_append_right _ (ihn hb))

theorem nodes_appendNode (x : α) (t : Links α) : (t.appendNode x).nodes = t.nodes ++ [x] := by
  induction t with
  | null => rfl
  | node a c n _ ihn => rw [appendNode, nodes, nodes, ihn, List.cons_append, List.append_assoc]

theorem chain_appendNode (x : α) (t : Links α) : (t.appendNode x).chain = t.chain ++ [x] := by
  induction t with
  | null => rfl
  | node a c n _ ihn => rw [appendNode, chain, chain, ihn, List.cons_append]

section Pointers
variable [DecidableEq α]

@[simp] theorem chain_appendChild (p x : α) (t : Links α) :
    (t.appendChild p x).chain = t.chain := by
  induction t with
  | null => rfl
  | node a c n _ ihn =>
    rw [appendChild]
    split
    · rfl
    · rw [chain, chain, ihn]

theorem appendChild_of_not_mem {p : α} (x : α) {t : Links α} (hp : p ∉ t.nodes) :
    t.appendChild p x = t := by
  induction t with
  | null => rfl
  | node a c n ihc ihn =>
    rw [nodes, List.mem_cons, List.mem_append, not_or, not_or] at hp
    obtain ⟨ha, hc, hn⟩ := hp
    rw [appendChild, if_neg (Ne.symm ha), ihc hc, ihn hn]

/-- A new child is one more node. -/
theorem nodes_appendChild_perm {p : α} (x : α) {t : Links α} (hp : p ∈ t.nodes)
    (hnodup : t.nodes.Nodup) : (t.appendChild p x).nodes.Perm (x :: t.nodes) := by
  induction t with
  | null => cases hp
  | node a c n ihc ihn =>
    rw [nodes, List.nodup_cons, List.nodup_append'] at hnodup
    obtain ⟨ha, hc, hn, hdisj⟩ := hnodup
    rw [appendChild]
    split
    · rw [nodes, nodes_appendNode, nodes, List.append_assoc]
      exact (List.Perm.cons a List.perm_middle).trans (List.Perm.swap x a _)
    · rename_i hap
      rw [nodes, List.mem_cons, List.mem_append] at hp
      -- `p` is on one side only, and the other side stays as it is
      rcases hp with rfl | hpc | hpn
      · exact absurd rfl hap
      · rw [appendChild_of_not_mem x (fun hpn => hdisj hpc hpn), nodes, nodes]
        exact (((ihc hpc hc).append_right n.nodes).cons a).trans (List.Perm.swap x a _)
      · rw [appendChild_of_not_mem x (fun hpc => hdisj hpc hpn), nodes, nodes]
        exact ((((ihn hpn hn).append_left c.nodes).trans List.perm_middle).cons a).trans
          (List.Perm.swap x a _)

theorem nodes_length_le_appendChild (p x : α) (t : Links α) :
    t.nodes.length ≤ (t.appendChild p x).nodes.length := by
  induction t with
  | null => exact Nat.le_refl _
  | node a c n ihc ihn =>
    rw [appendChild]
    split
    · simp only [nodes, nodes_appendNode, List.length_cons, List.length_append]
      omega
    · simp only [nodes, List.length_cons, List.length_append]
      omega

theorem mem_of_childrenOf {p : α} {t c : Links α} (h : t.childrenOf p = some c) : p ∈ t.nodes := by
  induction t with
  | null => cases h
  | node a d n ihd ihn =>
    rw [childrenOf] at h
    rw [nodes, List.mem_cons, List.mem_append]
    split at h
    · rename_i hap
      exact .inl hap.symm
    · rcases Option.or_eq_some_iff.mp h with h | ⟨-, h⟩
      · exact .inr (.inl (ihd h))
      · exact .inr (.inr (ihn h))

end Pointers

/-! ## Nodes that know their parent -/

section Parents
variable (parent : α → Option α) (name : α → β)

/-- The chain holds children of `q` with different names, and their children are linked. -/
def Linked : α → Links α → Prop
  | _, null => True
  | q, node a c n =>
    parent a = some q ∧ name a ∉ n.chain.map name ∧ Linked a c ∧ Linked q n

variable {parent name}

theorem Linked.parent_of_mem_chain {q : α} {t : Links α} (h : t.Linked parent name q) {a : α}
    (ha : a ∈ t.chain) : parent a = some q := by
  induction t with
  | null => cases ha
  | node b c n _ ihn =>
    obtain ⟨hb, -, -, hn⟩ := h
    rcases List.mem_cons.mp ha with rfl | ha
    · exact hb
    · exact ihn hn ha

theorem Linked.nodup_chain {q : α} {t : Links α} (h : t.Linked parent name q) :
    (t.chain.map name).Nodup := by
  induction t with
  | null => exact List.nodup_nil
  | node b c n _ ihn =>
    obtain ⟨-, hfresh, -, hn⟩ := h
    exact List.nodup_cons.mpr ⟨hfresh, ihn hn⟩

/-- The parent of a node is `q` or a node. -/
theorem Linked.parent_mem {q : α} {t : Links α} (h : t.Linked parent name q) {a : α}
    (ha : a ∈ t.nodes) : ∃ b ∈ q :: t.nodes, parent a = some b := by
  induction t generalizing q with
  | null => cases ha
  | node b c n ihc ihn =>
    obtain ⟨hb, -, hc, hn⟩ := h
    rw [nodes, List.mem_cons, List.mem_append] at ha
    rcases ha with rfl | ha | ha
    · exact ⟨q, List.mem_cons_self, hb⟩
    · obtain ⟨p, hp, hpa⟩ := ihc hc ha
      refine ⟨p, List.mem_cons_of_mem _ ?_, hpa⟩
      rcases List.mem_cons.mp hp with rfl | hp
      · exact List.mem_cons_self
      · exact List.mem_cons_of_mem _ (List.mem_append_left _ hp)
    · obtain ⟨p, hp, hpa⟩ := ihn hn ha
      refine ⟨p, ?_, hpa⟩
      rcases List.mem_cons.mp hp with rfl | hp
      · exact List.mem_cons_self
      · exact List.mem_cons_of_mem _ (List.mem_cons_of_mem _ (List.mem_append_right _ hp))

theorem Linked.appendNode {q x : α} {t : Links α} (h : t.Linked parent name q)
    (hx : parent x = some q) (hname : ∀ a ∈ t.chain, name a ≠ name x) :
    (t.appendNode x).Linked parent name q := by
  induction t with
  | null => exact ⟨hx, by simp [chain], trivial, trivial⟩
  | node b c n _ ihn =>
    obtain ⟨hb, hfresh, hc, hn⟩ := h
    obtain ⟨hbx, hnx⟩ := List.forall_mem_cons.mp hname
    refine ⟨hb, ?_, hc, ihn hn hnx⟩
    rw [chain_appendNode, List.map_append, List.mem_append, not_or]
    exact ⟨hfresh, by simpa using hbx⟩

section Pointers
variable [DecidableEq α]

/-- A tree stays linked if the name of a new child is new among its siblings. -/
theorem Linked.appendChild {p q x : α} {t : Links α} (h : t.Linked parent name q)
    (hx : parent x = some p)
    (hname : ∀ a ∈ t.nodes, parent a = some p → name a ≠ name x) :
    (t.appendChild p x).Linked parent name q := by
  induction t generalizing q with
  | null => trivial
  | node b c n ihc ihn =>
    obtain ⟨hb, hfresh, hc, hn⟩ := h
    obtain ⟨-, hname⟩ := List.forall_mem_cons.mp hname
    obtain ⟨hnamec, hnamen⟩ := List.forall_mem_append.mp hname
    rw [Links.appendChild]
    split
    · rename_i hbp
      subst hbp
      refine ⟨hb, hfresh, hc.appendNode hx fun a ha => ?_, hn⟩
      exact hnamec a (chain_subset_nodes c ha) (hc.parent_of_mem_chain ha)
    · exact ⟨hb, by rwa [chain_appendChild], ihc hc hnamec, ihn hn hnamen⟩

/-- The children of a node are linked to it. -/
theorem Linked.linked_childrenOf {p q : α} {t c : Links α} (h : t.Linked parent name q)
    (hc : t.childrenOf p = some c) : c.Linked parent name p ∧ c.nodes ⊆ t.nodes := by
  induction t generalizing q with
  | null => cases hc
  | node b d n ihd ihn =>
    obtain ⟨-, -, hd, hn⟩ := h
    rw [Links.childrenOf] at hc
    rw [nodes]
    split at hc
    · rename_i hbp
      subst hbp
      obtain rfl := Option.some.inj hc
      exact ⟨hd, fun a ha => List.mem_cons_of_mem _ (List.mem_append_left _ ha)⟩
    · rcases Option.or_eq_some_iff.mp hc with hc | ⟨-, hc⟩
      · obtain ⟨hlinked, hsub⟩ := ihd hd hc
        exact ⟨hlinked, fun a ha => List.mem_cons_of_mem _ (List.mem_append_left _ (hsub ha))⟩
      · obtain ⟨hlinked, hsub⟩ := ihn hn hc
        exact ⟨hlinked, fun a ha => List.mem_cons_of_mem _ (List.mem_append_right _ (hsub ha))⟩

/-- **A node stands in the child list of its parent.** -/
theorem Linked.mem_childrenOf {p q a : α} {t : Links α} (h : t.Linked parent name q)
    (hnodup : t.nodes.Nodup) (ha : a ∈ t.nodes) (hp : parent a = some p) :
    (p = q ∧ a ∈ t.chain) ∨ ∃ c, t.childrenOf p = some c ∧ a ∈ c.chain := by
  induction t generalizing q with
  | null => cases ha
  | node b d n ihd ihn =>
    obtain ⟨hb, -, hd, hn⟩ := h
    rw [nodes, List.nodup_cons, List.mem_append, not_or, List.nodup_append'] at hnodup
    obtain ⟨⟨hbd, hbn⟩, hdnodup, hnnodup, hdisj⟩ := hnodup
    rw [nodes, List.mem_cons, List.mem_append] at ha
    rw [chain, Links.childrenOf]
    -- a is the head of the chain, below the head, or in the rest
    rcases ha with rfl | ha | ha
    · exact .inl ⟨Option.some.inj (hp.symm.trans hb), List.mem_cons_self⟩
    · right
      rcases ihd hd hdnodup ha with ⟨rfl, hchain⟩ | ⟨c, hc, hchain⟩
      · exact ⟨d, if_pos rfl, hchain⟩
      · refine ⟨c, ?_, hchain⟩
        rw [if_neg fun hbp : b = p => hbd (hbp ▸ mem_of_childrenOf hc), hc, Option.some_or]
    · rcases ihn hn hnnodup ha with ⟨rfl, hchain⟩ | ⟨c, hc, hchain⟩
      · exact .inl ⟨rfl, List.mem_cons_of_mem _ hchain⟩
      · right
        have hpn := mem_of_childrenOf hc
        have hnone : d.childrenOf p = none := by
          cases hd' : d.childrenOf p with
          | none => rfl
          | some c' => exact absurd hpn (hdisj (mem_of_childrenOf hd'))
        refine ⟨c, ?_, hchain⟩
        rw [if_neg fun hbp : b = p => hbn (hbp ▸ hpn), hnone, Option.none_or, hc]

end Pointers
end Parents
end Links
end LinkedTree
