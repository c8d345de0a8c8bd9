import BrArchive.TreeDir

/-! # Runs on the directory tree

A tree is created and then changed by any sequence of additions and insertions, with any
strings and indices.  What one call does is read off the spec of adding a child; a run
keeps the invariant as long as the 32-bit count of the nodes does not wrap.
-/
namespace BrArchive
open LinkedTree

/-! ## Calls -/

/-- A call that may change the tree. -/
inductive TreeCall where
  | add (dirname : CStr)
  | insertAtParent (parentIndex : Nat) (dirname : CStr)
  deriving DecidableEq

/-- The loop over the tokens, with the tree that is left when a step fails. -/
def addPartsKept (tree : TreeDir) (parent : TreeNode) (part : CStr) :
    List CStr → Option TreeNode × TreeDir
  | [] =>
    match braTreeDirAddChildNode tree parent part with
    | none => (none, tree)
    | some (node, tree) => (some node, tree)
  | part' :: parts =>
    match braTreeDirAddChildNode tree parent part with
    | none => (none, tree)
    | some (node, tree) => addPartsKept tree node part' parts

/-- What a call returns, and the tree it leaves behind. -/
def TreeCall.exec (tree : TreeDir) : TreeCall → Option TreeNode × TreeDir
  | .add dirname =>
    if dirname.bytes = [] then (none, tree)
    else
      match strtok dirname with
      | [] => (none, tree)
      | part :: parts =>
        match walkParts .root tree.firstChild part parts with
        | none => (none, tree)
        | some (parent, part, parts) => addPartsKept tree parent part parts
  | .insertAtParent parentIndex dirname =>
    if dirname.bytes = [] then (none, tree)
    else
      match braTreeDirParentIndexSearch tree parentIndex with
      | none => (none, tree)
      | some parent =>
        match strtok dirname with
        | [] => addPartsKept tree parent dirname []
        | part :: parts => addPartsKept tree parent part parts

/-- The tree after a sequence of calls. -/
def treeAfter (calls : List TreeCall) : TreeDir :=
  calls.foldl (fun tree call => (call.exec tree).2) braTreeDirCreate

theorem treeAfter_append (calls : List TreeCall) (call : TreeCall) :
    treeAfter (calls ++ [call]) = (call.exec (treeAfter calls)).2 := by
  rw [treeAfter, List.foldl_append]
  rfl

/-- The outcome of a function of the tree that leaves the tree alone when it fails. -/
def kept (tree : TreeDir) : Option (TreeNode × TreeDir) → Option TreeNode × TreeDir
  | none => (none, tree)
  | some (node, tree') => (some node, tree')

theorem addChildNode_ne_none (tree : TreeDir) (parent : TreeNode) {part : CStr}
    (hne : part.bytes ≠ []) : ∃ r, braTreeDirAddChildNode tree parent part = some r := by
  rw [braTreeDirAddChildNode, if_neg hne]
  split <;> exact ⟨_, rfl⟩

/-- Tokens are never empty, so that the loop cannot fail half way. -/
theorem addPartsKept_eq (tree : TreeDir) (parent : TreeNode) (part : CStr) (parts : List CStr)
    (hparts : ∀ c ∈ part :: parts, c.bytes ≠ []) :
    ∃ r, addParts tree parent part parts = some r ∧
      addPartsKept tree parent part parts = kept tree (some r) := by
  induction parts generalizing tree parent part with
  | nil =>
    obtain ⟨r, hr⟩ := addChildNode_ne_none tree parent (hparts part List.mem_cons_self)
    exact ⟨r, by rw [addParts, hr], by rw [addPartsKept, hr]; rfl⟩
  | cons part' parts ih =>
    obtain ⟨hpart, hparts⟩ := List.forall_mem_cons.mp hparts
    obtain ⟨⟨node, tree'⟩, hr⟩ := addChildNode_ne_none tree parent hpart
    obtain ⟨r, hadd, hkept⟩ := ih tree' node part' hparts
    refine ⟨r, ?_, ?_⟩
    · rw [addParts, hr]
      exact hadd
    · rw [addPartsKept, hr]
      exact hkept

theorem strtok_parts_ne_nil {dirname part : CStr} {parts : List CStr}
    (h : strtok dirname = part :: parts) : ∀ c ∈ part :: parts, c.bytes ≠ [] :=
  fun _ hc => (isComponent_of_mem_strtok (h ▸ hc)).ne_nil

theorem walkParts_parts_subset {q p : TreeNode} {t : Links TreeNode} {part part' : CStr}
    {parts parts' : List CStr} (h : walkParts q t part parts = some (p, part', parts')) :
    part' :: parts' ⊆ part :: parts := by
  induction t generalizing q part parts with
  | null =>
    rw [walkParts] at h
    cases h
    exact List.Subset.refl _
  | node b d n ihd ihn =>
    by_cases hpart : b.dirname = part
    · cases parts with
      | nil =>
        rw [walkParts, if_pos hpart] at h
        cases h
      | cons part'' parts =>
        subst hpart
        rw [walkParts_down] at h
        exact List.subset_cons_of_subset _ (ihd h)
    · rw [walkParts_next hpart] at h
      exact ihn h

/-- A failing addition leaves the tree as it is. -/
theorem exec_add (tree : TreeDir) (dirname : CStr) :
    (TreeCall.add dirname).exec tree = kept tree (braTreeDirAdd tree dirname) := by
  rw [TreeCall.exec, braTreeDirAdd]
  split
  · rfl
  · cases htok : strtok dirname with
    | nil => rfl
    | cons part parts =>
      simp only
      cases hwalk : walkParts .root tree.firstChild part parts with
      | none => rfl
      | some r =>
        obtain ⟨p, part', parts'⟩ := r
        obtain ⟨r, hadd, hkept⟩ := addPartsKept_eq tree p part' parts' fun c hc =>
          strtok_parts_ne_nil htok c (walkParts_parts_subset hwalk hc)
        simp only [Option.bind_eq_bind, Option.bind_some, hadd, hkept]

/-- A failing insertion leaves the tree as it is. -/
theorem exec_insertAtParent (tree : TreeDir) (parentIndex : Nat) (dirname : CStr) :
    (TreeCall.insertAtParent parentIndex dirname).exec tree =
      kept tree (braTreeDirInsertAtParent tree parentIndex dirname) := by
  rw [TreeCall.exec, braTreeDirInsertAtParent]
  split
  · rfl
  · rename_i hne
    cases hsearch : braTreeDirParentIndexSearch tree parentIndex with
    | none => rfl
    | some p =>
      simp only [Option.bind_eq_bind, Option.bind_some]
      cases htok : strtok dirname with
      | nil =>
        obtain ⟨r, hadd, hkept⟩ := addPartsKept_eq tree p dirname [] (by simpa using hne)
        simp only [hadd, hkept]
      | cons part parts =>
        obtain ⟨r, hadd, hkept⟩ := addPartsKept_eq tree p part parts (strtok_parts_ne_nil htok)
        simp only [hadd, hkept]

/-! ## The invariant -/

/-- The loop of `_bra_tree_node_destroy_subtree` over the children of a node. -/
def destroyChildren (count : Nat) : Links TreeNode → Nat
  | .null => count
  | .node _ firstChild next =>
    destroyChildren ((count + (destroyChildren 0 firstChild + 1) % 2 ^ 32) % 2 ^ 32) next

/-- `_bra_tree_node_destroy_subtree`: the number of nodes that are freed. -/
def braTreeNodeDestroySubtree : Links TreeNode → Nat
  | .null => 0
  | .node _ firstChild _ => (destroyChildren 0 firstChild + 1) % 2 ^ 32

theorem destroyChildren_eq (count : Nat) (t : Links TreeNode) :
    destroyChildren count t % 2 ^ 32 = (count + t.nodes.length) % 2 ^ 32 := by
  induction t generalizing count with
  | null => rfl
  | node a c n ihc ihn =>
    have hc := ihc 0
    rw [destroyChildren, ihn]
    simp only [Links.nodes, List.length_cons, List.length_append]
    omega

/-- What holds of a tree of fewer than `2 ^ 32` nodes: the indices are those below
`num_nodes`, each node is in the child list of its parent, where all names are different
and not empty, the search by index finds what is there, and freeing counts every node. -/
structure TreeDir.Consistent (tree : TreeDir) : Prop where
  root : tree.root.chain = [.root]
  indices : (tree.root.nodes.map TreeNode.index).Perm (List.range tree.numNodes)
  siblings : ∀ p children, tree.root.childrenOf p = some children →
    (children.chain.map TreeNode.dirname).Nodup ∧
      ∀ a ∈ children.chain, a.dirname.bytes ≠ [] ∧ a.parent = some p
  parents : ∀ a ∈ tree.root.nodes, a = .root ∨ ∃ p children, a.parent = some p ∧
    tree.root.childrenOf p = some children ∧ a ∈ children.chain
  search_lt : ∀ i < tree.numNodes, ∃ node ∈ tree.root.nodes, node.index = i ∧
    braTreeDirParentIndexSearch tree i = some node
  search_ge : ∀ i ≥ tree.numNodes, braTreeDirParentIndexSearch tree i = none
  destroyed : braTreeNodeDestroySubtree tree.root = tree.numNodes

/-- The invariant behind it: the tree is well formed, and every node but the root has a
name. -/
structure TreeDir.Sound (tree : TreeDir) : Prop where
  wellFormed : tree.WellFormed tree.root.nodes.length
  named : ∀ a ∈ tree.root.nodes, a = .root ∨ a.dirname.bytes ≠ []

theorem braTreeDirCreate_sound : braTreeDirCreate.Sound where
  wellFormed := braTreeDirCreate_wellFormed
  named _ ha := .inl (List.mem_singleton.mp ha)

namespace TreeDir.Sound
variable {tree : TreeDir}

theorem numNodes_eq (h : tree.Sound) (hfit : tree.root.nodes.length < 2 ^ 32) :
    tree.numNodes = tree.root.nodes.length :=
  h.wellFormed.numNodes_eq.trans (Nat.mod_eq_of_lt hfit)

theorem consistent (h : tree.Sound) (hfit : tree.root.nodes.length < 2 ^ 32) :
    tree.Consistent where
  root := by
    rw [h.wellFormed.root_eq]
    rfl
  indices := by
    rw [h.numNodes_eq hfit]
    exact h.wellFormed.indices
  siblings p children hchildren := by
    refine ⟨(h.wellFormed.linked_childrenOf hchildren).nodup_chain, fun a ha => ?_⟩
    obtain ⟨hmem, hparent⟩ := h.wellFormed.childrenOf_parent hchildren ha
    refine ⟨(h.named a hmem).resolve_left ?_, hparent⟩
    rintro rfl
    cases hparent
  parents a ha := by
    cases hparent : a.parent with
    | none =>
      cases a with
      | root => exact .inl rfl
      | dir => cases hparent
    | some p =>
      obtain ⟨children, hchildren, hchain⟩ := h.wellFormed.mem_childrenOf ha hparent
      exact .inr ⟨p, children, rfl, hchildren, hchain⟩
  search_lt i hi := by
    rw [h.numNodes_eq hfit] at hi
    obtain ⟨node, hnode, rfl⟩ :=
      List.mem_map.mp (h.wellFormed.indices.symm.subset (List.mem_range.mpr hi))
    exact ⟨node, hnode, rfl, h.wellFormed.parentIndexSearch_eq hnode⟩
  search_ge i hi := by
    rw [h.numNodes_eq hfit] at hi
    have hpos := h.wellFormed.index_lt h.wellFormed.root_mem
    rw [braTreeDirParentIndexSearch, if_neg (by omega), Links.search_eq_find?, List.find?_eq_none]
    intro a ha hindex
    have hlt := h.wellFormed.index_lt ha
    rw [of_decide_eq_true hindex] at hlt
    omega
  destroyed := by
    have hcount := destroyChildren_eq 0 tree.firstChild
    rw [h.numNodes_eq hfit, h.wellFormed.nodes_eq, h.wellFormed.root_eq,
      braTreeNodeDestroySubtree, List.length_cons]
    rw [h.wellFormed.nodes_eq, List.length_cons] at hfit
    omega

end TreeDir.Sound

/-! ## One call -/

theorem mem_of_parentIndexSearch {tree : TreeDir} {count i : Nat} (h : tree.WellFormed count)
    {p : TreeNode} (hp : braTreeDirParentIndexSearch tree i = some p) : p ∈ tree.root.nodes := by
  rw [braTreeDirParentIndexSearch] at hp
  split at hp
  · exact Option.some.inj hp ▸ h.root_mem
  · rw [Links.search_eq_find?] at hp
    exact List.mem_of_find?_eq_some hp

theorem addChildNode_length_le {tree tree' : TreeDir} {p node : TreeNode} {c : CStr}
    (h : braTreeDirAddChildNode tree p c = some (node, tree')) :
    tree.root.nodes.length ≤ tree'.root.nodes.length := by
  rw [braTreeDirAddChildNode] at h
  split at h
  · cases h
  · split at h
    · cases h
      exact Nat.le_refl _
    · cases h
      exact Links.nodes_length_le_appendChild p _ _

theorem addPartsKept_length_le (tree : TreeDir) (p : TreeNode) (part : CStr)
    (parts : List CStr) :
    tree.root.nodes.length ≤ (addPartsKept tree p part parts).2.root.nodes.length := by
  induction parts generalizing tree p part with
  | nil =>
    rw [addPartsKept]
    split
    · exact Nat.le_refl _
    · exact addChildNode_length_le ‹_›
  | cons part' parts ih =>
    rw [addPartsKept]
    split
    · exact Nat.le_refl _
    · exact Nat.le_trans (addChildNode_length_le ‹_›) (ih _ _ _)

/-- No call removes a node. -/
theorem exec_length_le (tree : TreeDir) (call : TreeCall) :
    tree.root.nodes.length ≤ (call.exec tree).2.root.nodes.length := by
  cases call with
  | add dirname =>
    rw [TreeCall.exec]
    split
    · exact Nat.le_refl _
    · split
      · exact Nat.le_refl _
      · split
        · exact Nat.le_refl _
        · exact addPartsKept_length_le _ _ _ _
  | insertAtParent parentIndex dirname =>
    rw [TreeCall.exec]
    split
    · exact Nat.le_refl _
    · split
      · exact Nat.le_refl _
      · split <;> exact addPartsKept_length_le _ _ _ _

namespace TreeDir.Sound
variable {tree : TreeDir}

/-- A named node more. -/
theorem of_perm (h : tree.Sound) {tree' : TreeDir} {node : TreeNode}
    (hwellFormed : tree'.WellFormed (tree.root.nodes.length + 1))
    (hperm : tree'.root.nodes.Perm (node :: tree.root.nodes)) (hne : node.dirname.bytes ≠ []) :
    tree'.Sound where
  wellFormed := by
    rw [hwellFormed.length_nodes]
    exact hwellFormed
  named a ha := by
    rcases List.mem_cons.mp (hperm.subset ha) with rfl | ha
    · exact .inr hne
    · exact h.named a ha

/-- **One child**: the node of the name is there afterwards, and all nodes that were. -/
theorem addChildNode (h : tree.Sound) (hfit : tree.root.nodes.length < 2 ^ 32) {p : TreeNode}
    (hp : p ∈ tree.root.nodes) {c : CStr} (hne : c.bytes ≠ []) :
    ∃ node tree', braTreeDirAddChildNode tree p c = some (node, tree') ∧ tree'.Sound ∧
      node ∈ tree'.root.nodes ∧ tree.root.nodes ⊆ tree'.root.nodes := by
  by_cases htaken : ∃ a ∈ tree.root.nodes, a.parent = some p ∧ a.dirname = c
  · obtain ⟨a, ha, hparent, rfl⟩ := htaken
    exact ⟨a, tree, h.wellFormed.addChildNode_taken ha hparent hne, h, ha, List.Subset.refl _⟩
  · obtain ⟨tree', hadd, hwellFormed, hperm⟩ := h.wellFormed.addChildNode_new hfit hp hne
      fun a ha hparent hname => htaken ⟨a, ha, hparent, hname⟩
    exact ⟨_, tree', hadd, h.of_perm hwellFormed hperm hne,
      hperm.symm.subset List.mem_cons_self,
      fun a ha => hperm.symm.subset (List.mem_cons_of_mem _ ha)⟩

/-- **The loop over the tokens.** -/
theorem parts_kept (h : tree.Sound) {p : TreeNode} (hp : p ∈ tree.root.nodes) {part : CStr}
    {parts : List CStr} (hparts : ∀ c ∈ part :: parts, c.bytes ≠ [])
    (hfit : (addPartsKept tree p part parts).2.root.nodes.length < 2 ^ 32) :
    (addPartsKept tree p part parts).2.Sound ∧
      tree.root.nodes ⊆ (addPartsKept tree p part parts).2.root.nodes := by
  induction parts generalizing tree p part with
  | nil =>
    have hfit' := Nat.lt_of_le_of_lt (addPartsKept_length_le tree p part []) hfit
    obtain ⟨node, tree', hadd, hsound, -, hsub⟩ :=
      h.addChildNode hfit' hp (hparts part List.mem_cons_self)
    rw [addPartsKept, hadd]
    exact ⟨hsound, hsub⟩
  | cons part' parts ih =>
    have hfit' := Nat.lt_of_le_of_lt (addPartsKept_length_le tree p part (part' :: parts)) hfit
    obtain ⟨hpart, hparts⟩ := List.forall_mem_cons.mp hparts
    obtain ⟨node, tree', hadd, hsound, hnode, hsub⟩ := h.addChildNode hfit' hp hpart
    rw [addPartsKept, hadd] at hfit ⊢
    exact (ih hsound hnode hparts hfit).imp_right (List.Subset.trans hsub)

/-- **One call** keeps the invariant and every node. -/
theorem exec (h : tree.Sound) (call : TreeCall)
    (hfit : (call.exec tree).2.root.nodes.length < 2 ^ 32) :
    (call.exec tree).2.Sound ∧ tree.root.nodes ⊆ (call.exec tree).2.root.nodes := by
  cases call with
  | add dirname =>
    rw [TreeCall.exec] at hfit ⊢
    split
    · exact ⟨h, List.Subset.refl _⟩
    · rename_i hne
      rw [if_neg hne] at hfit
      cases htok : strtok dirname with
      | nil => exact ⟨h, List.Subset.refl _⟩
      | cons part parts =>
        rw [htok] at hfit
        simp only at hfit ⊢
        rcases walkParts_spec part parts h.wellFormed.linked with
          ⟨hwalk, -⟩ | ⟨p, part', parts', hwalk, hp, -⟩
        · rw [hwalk]
          exact ⟨h, List.Subset.refl _⟩
        · rw [hwalk] at hfit ⊢
          exact h.parts_kept (h.wellFormed.nodes_eq ▸ hp)
            (fun c hc => strtok_parts_ne_nil htok c (walkParts_parts_subset hwalk hc)) hfit
  | insertAtParent parentIndex dirname =>
    rw [TreeCall.exec] at hfit ⊢
    split
    · exact ⟨h, List.Subset.refl _⟩
    · rename_i hne
      rw [if_neg hne] at hfit
      cases hsearch : braTreeDirParentIndexSearch tree parentIndex with
      | none => exact ⟨h, List.Subset.refl _⟩
      | some p =>
        have hp := mem_of_parentIndexSearch h.wellFormed hsearch
        rw [hsearch] at hfit
        simp only at hfit ⊢
        cases htok : strtok dirname with
        | nil =>
          rw [htok] at hfit
          exact h.parts_kept hp (by simpa using hne) hfit
        | cons part parts =>
          rw [htok] at hfit
          exact h.parts_kept hp (strtok_parts_ne_nil htok) hfit

end TreeDir.Sound

/-! ## Adding a path -/

/-- A chain of new nodes, each the child of the one before it. -/
def newNodes : Nat → TreeNode → List CStr → List TreeNode
  | _, _, [] => []
  | index, parent, part :: parts =>
    .dir index part parent :: newNodes (index + 1) (.dir index part parent) parts

/-- The nodes of the missing end of a path are new, with the indices that come next, and
`node` is the last of them. -/
structure AddsMissing (tree : TreeDir) (path : List CStr) (node : TreeNode) (tree' : TreeDir) :
    Prop where
  missing : ∃ p ∈ tree.root.nodes, ∃ part parts, path = p.path ++ part :: parts ∧
    (∀ a ∈ tree.root.nodes, a.path ≠ p.path ++ [part]) ∧
    tree'.root.nodes.Perm (newNodes tree.numNodes p (part :: parts) ++ tree.root.nodes) ∧
    tree'.numNodes = tree.numNodes + (part :: parts).length ∧
    (newNodes tree.numNodes p (part :: parts)).getLast? = some node
  path_eq : node.path = path
  reconstructed : braTreeDirReconstructPath node = joinPath path

/-- A child with a new name is the next node. -/
theorem TreeDir.Sound.newChild {tree : TreeDir} (h : tree.Sound)
    (hfit : tree.root.nodes.length < 2 ^ 32) {p : TreeNode} (hp : p ∈ tree.root.nodes)
    {part : CStr} (hne : part.bytes ≠ [])
    (hnew : ∀ a ∈ tree.root.nodes, ¬ p.path ++ [part] <+: a.path) :
    ∃ tree', braTreeDirAddChildNode tree p part = some (.dir tree.numNodes part p, tree') ∧
      tree'.Sound ∧ tree'.root.nodes.Perm (.dir tree.numNodes part p :: tree.root.nodes) := by
  have hname : ∀ a ∈ tree.root.nodes, a.parent = some p → a.dirname ≠ part := by
    rintro a ha hparent rfl
    exact hnew a ha (TreeNode.path_of_parent hparent ▸ List.prefix_rfl)
  obtain ⟨tree', hadd, hwellFormed, hperm⟩ := h.wellFormed.addChildNode_new hfit hp hne hname
  rw [h.numNodes_eq hfit]
  exact ⟨tree', hadd, h.of_perm hwellFormed hperm hne, hperm⟩

/-- The loop over the tokens below a node that has no child by the name of the first. -/
theorem TreeDir.Sound.parts_new {tree : TreeDir} (h : tree.Sound) {p : TreeNode}
    (hp : p ∈ tree.root.nodes) {part : CStr} {parts : List CStr}
    (hparts : ∀ c ∈ part :: parts, c.bytes ≠ [])
    (hnew : ∀ a ∈ tree.root.nodes, ¬ p.path ++ [part] <+: a.path)
    (hfit : (addPartsKept tree p part parts).2.root.nodes.length < 2 ^ 32) :
    ∃ node tree', addPartsKept tree p part parts = (some node, tree') ∧
      node ∈ tree'.root.nodes ∧ node.path = p.path ++ part :: parts ∧
      tree'.root.nodes.Perm (newNodes tree.numNodes p (part :: parts) ++ tree.root.nodes) ∧
      tree'.numNodes = tree.numNodes + (part :: parts).length ∧
      (newNodes tree.numNodes p (part :: parts)).getLast? = some node := by
  induction parts generalizing tree p part with
  | nil =>
    have hfit₀ := Nat.lt_of_le_of_lt (addPartsKept_length_le tree p part []) hfit
    obtain ⟨tree₁, hadd, hsound, hperm⟩ :=
      h.newChild hfit₀ hp (hparts part List.mem_cons_self) hnew
    rw [addPartsKept, hadd] at hfit ⊢
    have hnum : tree₁.numNodes = tree.numNodes + 1 := by
      rw [hsound.numNodes_eq hfit, hperm.length_eq, List.length_cons, h.numNodes_eq hfit₀]
    exact ⟨_, tree₁, rfl, hperm.symm.subset List.mem_cons_self, rfl, hperm, hnum, rfl⟩
  | cons part' parts ih =>
    have hfit₀ := Nat.lt_of_le_of_lt (addPartsKept_length_le tree p part (part' :: parts)) hfit
    obtain ⟨hpart, hparts⟩ := List.forall_mem_cons.mp hparts
    obtain ⟨tree₁, hadd, hsound, hperm⟩ := h.newChild hfit₀ hp hpart hnew
    rw [addPartsKept, hadd] at hfit ⊢
    have hfit₁ := Nat.lt_of_le_of_lt (addPartsKept_length_le tree₁ _ part' parts) hfit
    have hnum : tree₁.numNodes = tree.numNodes + 1 := by
      rw [hsound.numNodes_eq hfit₁, hperm.length_eq, List.length_cons, h.numNodes_eq hfit₀]
    -- nothing is below the node that has just been made
    have hnew₁ : ∀ a ∈ tree₁.root.nodes, ¬ (p.path ++ [part]) ++ [part'] <+: a.path := by
      intro a ha hpre
      rcases List.mem_cons.mp (hperm.subset ha) with rfl | ha
      · have hlen := hpre.length_le
        simp [TreeNode.path] at hlen
      · exact hnew a ha ((List.prefix_append _ _).trans hpre)
    obtain ⟨node, tree', hkept, hnode, hpath, hperm', hnum', hlast⟩ :=
      ih hsound (hperm.symm.subset List.mem_cons_self) hparts hnew₁ hfit
    rw [hnum] at hperm' hnum' hlast
    refine ⟨node, tree', hkept, hnode, ?_, ?_, ?_, ?_⟩
    · rw [hpath, TreeNode.path, List.append_assoc, List.singleton_append]
    · exact hperm'.trans (((hperm.append_left _).trans List.perm_middle))
    · simp only [hnum', List.length_cons]
      omega
    · rw [newNodes, List.getLast?_cons, hlast]
      rfl

/-- The path is empty, has no components, or is that of a node. -/
def NothingToAdd (tree : TreeDir) (dirname : CStr) : Prop :=
  dirname.bytes = [] ∨ strtok dirname = [] ∨ ∃ a ∈ tree.root.nodes, a.path = strtok dirname

/-- **`bra_tree_dir_add`** adds what is missing, or does nothing. -/
theorem TreeDir.Sound.add_spec {tree : TreeDir} (h : tree.Sound) (dirname : CStr)
    (hfit : ((TreeCall.add dirname).exec tree).2.root.nodes.length < 2 ^ 32) :
    (NothingToAdd tree dirname ∧ (TreeCall.add dirname).exec tree = (none, tree)) ∨
      (¬ NothingToAdd tree dirname ∧ ∃ node tree',
        (TreeCall.add dirname).exec tree = (some node, tree') ∧
          AddsMissing tree (strtok dirname) node tree') := by
  by_cases hnil : dirname.bytes = []
  · exact .inl ⟨.inl hnil, by rw [TreeCall.exec, if_pos hnil]⟩
  · by_cases htok : strtok dirname = []
    · exact .inl ⟨.inr (.inl htok), by rw [TreeCall.exec, if_neg hnil, htok]⟩
    · have hsound := (h.exec _ hfit).1
      rw [exec_add] at hfit hsound ⊢
      rcases h.wellFormed.braTreeDirAdd_cases dirname htok with
        ⟨hnone, hpresent⟩ | ⟨p, hp, part, parts, hpath, hno, hadd⟩
      · exact .inl ⟨.inr (.inr hpresent), by rw [hnone]; rfl⟩
      · -- strtok gives no empty component
        have hparts : ∀ c ∈ part :: parts, c.bytes ≠ [] := fun c hc =>
          (isComponent_of_mem_strtok (hpath ▸ List.mem_append_right _ hc)).ne_nil
        obtain ⟨r, hr, hkept⟩ := addPartsKept_eq tree p part parts hparts
        rw [hadd, hr, ← hkept] at hfit hsound ⊢
        obtain ⟨node, tree', hexec, hnode, hnodePath, hperm, hnum, hlast⟩ :=
          h.parts_new hp hparts hno hfit
        rw [hexec] at hsound ⊢
        refine .inr ⟨?_, node, tree', rfl, ⟨p, hp, part, parts, hpath, ?_, hperm, hnum, hlast⟩,
          hnodePath.trans hpath.symm, ?_⟩
        · rintro (h | h | ⟨a, ha, h⟩)
          · exact hnil h
          · exact htok h
          · refine hno a ha ⟨parts, ?_⟩
            rw [h, hpath, List.append_assoc, List.singleton_append]
        · exact fun a ha h => hno a ha (h ▸ List.prefix_rfl)
        · rw [hsound.wellFormed.reconstructPath_eq hnode, hnodePath, hpath]

/-! ## Runs -/

theorem treeAfter_length_le (before after : List TreeCall) :
    (treeAfter before).root.nodes.length ≤ (treeAfter (before ++ after)).root.nodes.length := by
  induction after using List.reverseRecOn with
  | nil => rw [List.append_nil]
  | append_singleton after call ih =>
    rw [← List.append_assoc, treeAfter_append]
    exact Nat.le_trans ih (exec_length_le _ call)

/-- **A run** keeps the invariant. -/
theorem treeAfter_sound (calls : List TreeCall)
    (hfit : (treeAfter calls).root.nodes.length < 2 ^ 32) : (treeAfter calls).Sound := by
  induction calls using List.reverseRecOn with
  | nil => exact braTreeDirCreate_sound
  | append_singleton calls call ih =>
    have hlen := treeAfter_length_le calls [call]
    rw [treeAfter_append] at hfit hlen ⊢
    exact ((ih (Nat.lt_of_le_of_lt hlen hfit)).exec call hfit).1

/-- A run keeps every node there is. -/
theorem treeAfter_subset (before after : List TreeCall)
    (hfit : (treeAfter (before ++ after)).root.nodes.length < 2 ^ 32) :
    (treeAfter before).root.nodes ⊆ (treeAfter (before ++ after)).root.nodes := by
  induction after using List.reverseRecOn with
  | nil => rw [List.append_nil]; exact List.Subset.refl _
  | append_singleton after call ih =>
    have hlen := treeAfter_length_le (before ++ after) [call]
    rw [← List.append_assoc] at hfit ⊢
    rw [treeAfter_append] at hfit hlen ⊢
    have hfit' := Nat.lt_of_le_of_lt hlen hfit
    exact List.Subset.trans (ih hfit') ((treeAfter_sound _ hfit').exec call hfit).2

/-- **The directory tree over any run** of additions and insertions that makes fewer than
`2 ^ 32` nodes. -/
theorem treeDir_run (calls : List TreeCall)
    (hfit : (treeAfter calls).root.nodes.length < 2 ^ 32) :
    (treeAfter calls).Consistent ∧
      (∀ before after, calls = before ++ after →
        (treeAfter before).root.nodes ⊆ (treeAfter calls).root.nodes) ∧
      ∀ before dirname after, calls = before ++ .add dirname :: after →
        ((TreeCall.add dirname).exec (treeAfter before) = (none, treeAfter before) ↔
          NothingToAdd (treeAfter before) dirname) ∧
        (¬ NothingToAdd (treeAfter before) dirname → ∃ node tree',
          (TreeCall.add dirname).exec (treeAfter before) = (some node, tree') ∧
            AddsMissing (treeAfter before) (strtok dirname) node tree') := by
  refine ⟨(treeAfter_sound calls hfit).consistent hfit, ?_, ?_⟩
  · rintro before after rfl
    exact treeAfter_subset before after hfit
  · rintro before dirname after rfl
    -- no call takes a node away, so that the bound holds for the earlier trees as well
    have hlen := treeAfter_length_le (before ++ [.add dirname]) after
    rw [List.append_assoc, List.singleton_append] at hlen
    have hfit' := Nat.lt_of_le_of_lt hlen hfit
    rw [treeAfter_append] at hfit'
    have hsound := treeAfter_sound before
      (Nat.lt_of_le_of_lt (exec_length_le _ _) hfit')
    rcases hsound.add_spec dirname hfit' with ⟨hnothing, hexec⟩ | ⟨hsome, node, tree', hexec, hadds⟩
    · exact ⟨iff_of_true hexec hnothing, fun hsome => absurd hnothing hsome⟩
    · refine ⟨iff_of_false ?_ hsome, fun _ => ⟨node, tree', hexec, hadds⟩⟩
      rw [hexec]
      rintro ⟨⟩

/-- Three calls that meet below one directory. -/
theorem treeDir_run_three :
    (treeAfter [.add (CStr.ofBuffer [97, 47, 98]), .insertAtParent 1 (CStr.ofBuffer [99]),
      .add (CStr.ofBuffer [97, 47, 99, 47, 100])]).Consistent :=
  (treeDir_run _ (by decide +kernel)).1

/-! ## When the count wraps -/

/-- The name of `n + 1` times the letter `a`. -/
def letters (n : Nat) : CStr := ⟨List.replicate (n + 1) 97, by simp [List.mem_replicate]⟩

theorem letters_length (n : Nat) : (letters n).bytes.length = n + 1 := List.length_replicate

theorem letters_isComponent (n : Nat) : IsComponent (letters n) where
  ne_nil := List.ne_nil_of_length_pos (by rw [letters_length]; exact Nat.succ_pos n)
  delim_free := by simp [letters, braDirDelim, List.mem_replicate]

/-- The calls that insert `n` directories of different names in the current one. -/
def manyDirs (n : Nat) : List TreeCall :=
  (List.range n).map fun i => .insertAtParent 0 (letters i)

theorem treeAfter_manyDirs (n : Nat) (hn : n < 2 ^ 32) :
    (treeAfter (manyDirs n)).WellFormed (n + 1) ∧
      ∀ a ∈ (treeAfter (manyDirs n)).root.nodes, a.dirname.bytes.length ≤ n := by
  induction n with
  | zero =>
    refine ⟨braTreeDirCreate_wellFormed, fun a ha => ?_⟩
    obtain rfl := List.mem_singleton.mp ha
    exact Nat.le_refl 0
  | succ n ih =>
    obtain ⟨hwellFormed, hshort⟩ := ih (by omega)
    have hcalls : manyDirs (n + 1) = manyDirs n ++ [.insertAtParent 0 (letters n)] := by
      rw [manyDirs, List.range_succ, List.map_append]
      rfl
    have hname : ∀ a ∈ (treeAfter (manyDirs n)).root.nodes, a.parent = some .root →
        a.dirname ≠ letters n := by
      rintro a ha - heq
      have hlen := hshort a ha
      rw [heq, letters_length] at hlen
      omega
    obtain ⟨tree', hadd, hwellFormed', hperm⟩ := hwellFormed.addChildNode_new hn
      hwellFormed.root_mem (letters_isComponent n).ne_nil hname
    have hinsert := hwellFormed.braTreeDirInsertAtParent_eq hwellFormed.root_mem
      (letters_isComponent n)
    have htree : treeAfter (manyDirs (n + 1)) = tree' := by
      rw [hcalls, treeAfter_append, exec_insertAtParent]
      exact congrArg (fun r => (kept _ r).2) (hinsert.trans hadd)
    rw [htree]
    refine ⟨hwellFormed', fun a ha => ?_⟩
    rcases List.mem_cons.mp (hperm.subset ha) with rfl | ha
    · exact Nat.le_of_eq (letters_length n)
    · exact Nat.le_succ_of_le (hshort a ha)

/-- After `2 ^ 32 - 1` directories the count of the nodes is 0. -/
theorem treeAfter_manyDirs_not_consistent :
    ¬ (treeAfter (manyDirs (2 ^ 32 - 1))).Consistent := by
  intro h
  obtain ⟨hwellFormed, -⟩ := treeAfter_manyDirs (2 ^ 32 - 1) (by omega)
  have hnum : (treeAfter (manyDirs (2 ^ 32 - 1))).numNodes = 0 :=
    hwellFormed.numNodes_eq.trans (by omega)
  have hlen := h.indices.length_eq
  rw [List.length_map, hwellFormed.length_nodes, List.length_range, hnum] at hlen
  omega

end BrArchive
