import BrArchive.Defs
import BrArchive.LinkedTree
import BrArchive.PathWalk

/-! # The directory tree

`bra_tree_dir.c`: writer and reader each keep a tree of the directories met so far.  The
writer adds a directory by its path, the reader by the index of its parent and its last
component.  A node holds what never changes after it is made: its index, its name and its
parent; the links to children and siblings are those of the tree.
-/
namespace BrArchive
open LinkedTree

/-- `bra_tree_node_t` without `firstChild` and `next`. -/
inductive TreeNode where
  | root
  | dir (index : Nat) (dirname : CStr) (parent : TreeNode)
  deriving DecidableEq

/-- `node->index`; that of the root is `BRA_TREE_NODE_ROOT_INDEX`. -/
def TreeNode.index : TreeNode → Nat
  | root => 0
  | dir index _ _ => index

/-- `node->dirname`; the root has none, and no one asks for it. -/
def TreeNode.dirname : TreeNode → CStr
  | root => CStr.ofBuffer []
  | dir _ dirname _ => dirname

/-- `node->parent`. -/
def TreeNode.parent : TreeNode → Option TreeNode
  | root => none
  | dir _ _ parent => some parent

/-- `bra_tree_dir_t`. -/
structure TreeDir where
  root : Links TreeNode
  numNodes : Nat
  deriving DecidableEq

/-- `bra_tree_dir_create`. -/
def braTreeDirCreate : TreeDir := ⟨.node .root .null .null, 1⟩

/-- `tree->root->firstChild`. -/
def TreeDir.firstChild (tree : TreeDir) : Links TreeNode :=
  (tree.root.childrenOf .root).getD .null

/-- The tokens `strtok` finds with the delimiter `'/'`. -/
def strtok (s : CStr) : List CStr :=
  ((s.bytes.splitOn braDirDelim).filter (· ≠ [])).map CStr.ofBuffer

/-- `_bra_tree_dir_add_child_node`. -/
def braTreeDirAddChildNode (tree : TreeDir) (parent : TreeNode) (dirname : CStr) :
    Option (TreeNode × TreeDir) :=
  if dirname.bytes = [] then none
  else
    match ((tree.root.childrenOf parent).getD .null).chain.find? (·.dirname = dirname) with
    | some sibling => some (sibling, tree)
    | none =>
      let newNode := .dir tree.numNodes dirname parent
      some (newNode, ⟨tree.root.appendChild parent newNode, (tree.numNodes + 1) % 2 ^ 32⟩)

/-- The loop that adds the tokens that are left, each below the one before it. -/
def addParts (tree : TreeDir) (parent : TreeNode) (part : CStr) :
    List CStr → Option (TreeNode × TreeDir)
  | [] => braTreeDirAddChildNode tree parent part
  | part' :: parts => do
    let (parent, tree) ← braTreeDirAddChildNode tree parent part
    addParts tree parent part' parts

/-- The loop of `bra_tree_dir_add` that walks down the tree as far as it goes, in the
state `parent`, `cur`, `part` and the tokens after it.  It fails if no token is left. -/
def walkParts (parent : TreeNode) :
    Links TreeNode → CStr → List CStr → Option (TreeNode × CStr × List CStr)
  | .null, part, parts => some (parent, part, parts)
  | .node cur firstChild next, part, parts =>
    if cur.dirname = part then
      match parts with
      | [] => none
      | part' :: parts => walkParts cur firstChild part' parts
    else walkParts parent next part parts

/-- `bra_tree_dir_add`. -/
def braTreeDirAdd (tree : TreeDir) (dirname : CStr) : Option (TreeNode × TreeDir) :=
  if dirname.bytes = [] then none
  else
    match strtok dirname with
    | [] => none
    | part :: parts => do
      let (parent, part, parts) ← walkParts .root tree.firstChild part parts
      addParts tree parent part parts

/-- `bra_tree_dir_parent_index_search`. -/
def braTreeDirParentIndexSearch (tree : TreeDir) (parentIndex : Nat) : Option TreeNode :=
  if parentIndex = 0 then some .root else tree.root.search (·.index = parentIndex)

/-- `bra_tree_dir_insert_at_parent`. -/
def braTreeDirInsertAtParent (tree : TreeDir) (parentIndex : Nat) (dirname : CStr) :
    Option (TreeNode × TreeDir) :=
  if dirname.bytes = [] then none
  else do
    let parent ← braTreeDirParentIndexSearch tree parentIndex
    match strtok dirname with
    | [] => addParts tree parent dirname []
    | part :: parts => addParts tree parent part parts

/-- The bytes `bra_tree_dir_reconstruct_path` writes: each name with a delimiter after it.
The loop stops at the index 0. -/
def TreeNode.delimitedPath : TreeNode → Bytes
  | root => []
  | dir index dirname parent =>
    if index = 0 then [] else delimitedPath parent ++ dirname.bytes ++ [braDirDelim]

theorem TreeNode.delimitedPath_nul_free (node : TreeNode) : 0 ∉ node.delimitedPath := by
  induction node with
  | root => exact List.not_mem_nil
  | dir index dirname parent ih =>
    rw [delimitedPath]
    split
    · exact List.not_mem_nil
    · simp [ih, dirname.nul_free, braDirDelim]

/-- `bra_tree_dir_reconstruct_path`: the last delimiter becomes the NUL. -/
def braTreeDirReconstructPath (node : TreeNode) : CStr where
  bytes := node.delimitedPath.dropLast
  nul_free h := node.delimitedPath_nul_free (List.mem_of_mem_dropLast h)

/-! ## Paths -/

/-- The components of the path of a node. -/
def TreeNode.path : TreeNode → List CStr
  | root => []
  | dir _ dirname parent => parent.path ++ [dirname]

theorem TreeNode.path_of_parent {node p : TreeNode} (h : node.parent = some p) :
    node.path = p.path ++ [node.dirname] := by
  cases node with
  | root => cases h
  | dir index dirname parent =>
    obtain rfl := Option.some.inj h
    rfl

/-- A string that names one directory: not empty, without a delimiter. -/
structure IsComponent (s : CStr) : Prop where
  ne_nil : s.bytes ≠ []
  delim_free : braDirDelim ∉ s.bytes

instance (s : CStr) : Decidable (IsComponent s) :=
  decidable_of_iff (s.bytes ≠ [] ∧ braDirDelim ∉ s.bytes)
    ⟨fun h => ⟨h.1, h.2⟩, fun h => ⟨h.1, h.2⟩⟩

/-- Components with a delimiter after each of them. -/
def delimited (comps : List CStr) : Bytes := comps.flatMap fun c => c.bytes ++ [braDirDelim]

theorem delimited_cons (c : CStr) (comps : List CStr) :
    delimited (c :: comps) = c.bytes ++ [braDirDelim] ++ delimited comps := List.flatMap_cons

theorem delimited_append_singleton (comps : List CStr) (c : CStr) :
    delimited (comps ++ [c]) = delimited comps ++ c.bytes ++ [braDirDelim] := by
  rw [delimited, List.flatMap_append, List.flatMap_singleton, List.append_assoc]
  rfl

theorem delimited_nul_free (comps : List CStr) : 0 ∉ delimited comps := by
  intro h
  obtain ⟨c, -, h⟩ := List.mem_flatMap.mp h
  simp [c.nul_free, braDirDelim] at h

/-- Cutting off the last delimiter leaves one between any two components. -/
theorem delimited_dropLast (comps : List CStr) :
    (delimited comps).dropLast = [braDirDelim].intercalate (comps.map CStr.bytes) := by
  induction comps with
  | nil => rfl
  | cons c comps ih =>
    cases comps with
    | nil => simp [delimited]
    | cons c' comps =>
      have hne : delimited (c' :: comps) ≠ [] := by simp [delimited]
      rw [delimited_cons, List.dropLast_append_of_ne_nil hne, ih]
      simp only [List.map_cons, List.intercalate_cons_cons]

/-- A path: the components with a delimiter between them. -/
def joinPath (comps : List CStr) : CStr where
  bytes := [braDirDelim].intercalate (comps.map CStr.bytes)
  nul_free h := delimited_nul_free comps (List.mem_of_mem_dropLast (delimited_dropLast comps ▸ h))

theorem joinPath_append_singleton (comps : List CStr) (c : CStr) :
    (joinPath (comps ++ [c])).bytes = delimited comps ++ c.bytes := by
  have h := delimited_dropLast (comps ++ [c])
  rw [delimited_append_singleton, List.dropLast_concat] at h
  exact h.symm

/-- What stands before the last component. -/
theorem delimited_eq {comps : List CStr} (hne : comps ≠ []) :
    delimited comps = (joinPath comps).bytes ++ [braDirDelim] := by
  obtain ⟨init, c, rfl⟩ := (List.eq_nil_or_concat' comps).resolve_left hne
  rw [joinPath_append_singleton, delimited_append_singleton]

/-- `strtok` finds components. -/
theorem isComponent_of_mem_strtok {s c : CStr} (h : c ∈ strtok s) : IsComponent c := by
  obtain ⟨l, hl, rfl⟩ := List.mem_map.mp h
  obtain ⟨hmem, hne⟩ := List.mem_filter.mp hl
  rw [List.splitOn_eq_splitOnP] at hmem
  obtain ⟨hsub, hfree⟩ := PathWalk.of_mem_splitOnP _ hmem
  have hbytes : (CStr.ofBuffer l).bytes = l := cString_eq_self fun h => s.nul_free (hsub h)
  constructor
  · rw [hbytes]
    exact of_decide_eq_true hne
  · rw [hbytes]
    intro hdelim
    simpa using hfree braDirDelim hdelim

theorem splitOn_append_delim (l r : Bytes) :
    (l ++ braDirDelim :: r).splitOn braDirDelim = l.splitOn braDirDelim ++ r.splitOn braDirDelim := by
  rw [List.splitOn_eq_splitOnP, List.splitOn_eq_splitOnP, List.splitOn_eq_splitOnP,
    List.splitOnP_append_cons (p := (· == braDirDelim)) _ _ (beq_self_eq_true braDirDelim)]

/-- Cutting a path at the delimiters gives its components. -/
theorem splitOn_joinPath {comps : List CStr} (hcomps : ∀ c ∈ comps, IsComponent c)
    (hne : comps ≠ []) : (joinPath comps).bytes.splitOn braDirDelim = comps.map CStr.bytes := by
  refine List.splitOn_intercalate braDirDelim ?_ (by simpa using hne)
  intro l hl
  obtain ⟨c, hc, rfl⟩ := List.mem_map.mp hl
  exact (hcomps c hc).delim_free

theorem filter_map_bytes {comps : List CStr} (hcomps : ∀ c ∈ comps, IsComponent c) :
    (comps.map CStr.bytes).filter (· ≠ []) = comps.map CStr.bytes := by
  refine List.filter_eq_self.mpr fun l hl => ?_
  obtain ⟨c, hc, rfl⟩ := List.mem_map.mp hl
  exact decide_eq_true (hcomps c hc).ne_nil

/-- `strtok` cuts a path into its components. -/
theorem strtok_joinPath {comps : List CStr} (hcomps : ∀ c ∈ comps, IsComponent c) (hne : comps ≠ []) :
    strtok (joinPath comps) = comps := by
  rw [strtok, splitOn_joinPath hcomps hne, filter_map_bytes hcomps, List.map_map]
  exact List.map_id'' CStr.ofBuffer_bytes comps

/-- A delimiter behind the path makes no difference. -/
theorem strtok_delimited {comps : List CStr} (hcomps : ∀ c ∈ comps, IsComponent c)
    (hne : comps ≠ []) {s : CStr} (hs : s.bytes = delimited comps) : strtok s = comps := by
  have hsplit : (delimited comps).splitOn braDirDelim = comps.map CStr.bytes ++ [[]] := by
    rw [← splitOn_joinPath hcomps hne, delimited_eq hne, splitOn_append_delim]
    rfl
  rw [strtok, hs, hsplit, List.filter_append, filter_map_bytes hcomps]
  refine (congrArg (List.map _) (List.append_nil _)).trans ?_
  rw [List.map_map]
  exact List.map_id'' CStr.ofBuffer_bytes comps

/-! ## The invariant -/

/-- A tree of `count` nodes: it hangs together, and its indices are those below `count`. -/
structure TreeDir.WellFormed (tree : TreeDir) (count : Nat) : Prop where
  root_eq : tree.root = .node .root tree.firstChild .null
  linked : tree.firstChild.Linked TreeNode.parent TreeNode.dirname .root
  indices : (tree.root.nodes.map TreeNode.index).Perm (List.range count)
  numNodes_eq : tree.numNodes = count % 2 ^ 32

theorem braTreeDirCreate_wellFormed : braTreeDirCreate.WellFormed 1 where
  root_eq := rfl
  linked := trivial
  indices := List.Perm.refl _
  numNodes_eq := rfl

namespace TreeDir.WellFormed
variable {tree : TreeDir} {count : Nat}

theorem nodes_eq (h : tree.WellFormed count) :
    tree.root.nodes = .root :: tree.firstChild.nodes := by
  rw [h.root_eq, Links.nodes, Links.nodes, List.append_nil]

theorem nodup_nodes (h : tree.WellFormed count) : tree.root.nodes.Nodup :=
  List.Nodup.of_map _ (h.indices.nodup_iff.mpr List.nodup_range)

/-- The tree has as many nodes as indices. -/
theorem length_nodes (h : tree.WellFormed count) : tree.root.nodes.length = count := by
  simpa using h.indices.length_eq

theorem root_mem (h : tree.WellFormed count) : TreeNode.root ∈ tree.root.nodes :=
  h.nodes_eq ▸ List.mem_cons_self

theorem index_inj (h : tree.WellFormed count) {a b : TreeNode} (ha : a ∈ tree.root.nodes)
    (hb : b ∈ tree.root.nodes) (hab : a.index = b.index) : a = b :=
  List.inj_on_of_nodup_map (h.indices.nodup_iff.mpr List.nodup_range) ha hb hab

theorem index_lt (h : tree.WellFormed count) {a : TreeNode} (ha : a ∈ tree.root.nodes) :
    a.index < count :=
  List.mem_range.mp (h.indices.subset (List.mem_map_of_mem ha))

theorem parent_mem (h : tree.WellFormed count) {a p : TreeNode} (ha : a ∈ tree.root.nodes)
    (hp : a.parent = some p) : p ∈ tree.root.nodes := by
  rw [h.nodes_eq] at ha ⊢
  rcases List.mem_cons.mp ha with rfl | ha
  · cases hp
  · obtain ⟨b, hb, hab⟩ := h.linked.parent_mem ha
    rwa [Option.some.inj (hp.symm.trans hab)]

/-- The path of a node is written out in full: only the root has the index 0. -/
theorem delimitedPath_eq (h : tree.WellFormed count) {node : TreeNode}
    (hnode : node ∈ tree.root.nodes) : node.delimitedPath = delimited node.path := by
  induction node with
  | root => rfl
  | dir index dirname parent ih =>
    have hindex : index ≠ 0 := by
      rintro rfl
      cases h.index_inj hnode h.root_mem rfl
    rw [TreeNode.delimitedPath, if_neg hindex, ih (h.parent_mem hnode rfl), TreeNode.path,
      delimited_append_singleton]

theorem reconstructPath_eq (h : tree.WellFormed count) {node : TreeNode}
    (hnode : node ∈ tree.root.nodes) : braTreeDirReconstructPath node = joinPath node.path := by
  refine CStr.ext ?_
  calc node.delimitedPath.dropLast
      = (delimited node.path).dropLast := by rw [h.delimitedPath_eq hnode]
    _ = (joinPath node.path).bytes := delimited_dropLast node.path

/-- A node is found by its index. -/
theorem parentIndexSearch_eq (h : tree.WellFormed count) {node : TreeNode}
    (hnode : node ∈ tree.root.nodes) :
    braTreeDirParentIndexSearch tree node.index = some node := by
  rw [braTreeDirParentIndexSearch]
  split
  · rename_i hzero
    rw [h.index_inj hnode h.root_mem hzero]
  · rw [Links.search_eq_find?]
    cases hfind : tree.root.nodes.find? (·.index = node.index) with
    | none => exact absurd (decide_eq_true rfl) (List.find?_eq_none.mp hfind node hnode)
    | some found =>
      have hindex : found.index = node.index := by simpa using List.find?_some hfind
      rw [h.index_inj (List.mem_of_find?_eq_some hfind) hnode hindex]

end TreeDir.WellFormed

/-! ## Adding a directory -/

/-- Below a node the paths go on with the name of one of its children. -/
theorem path_of_mem_nodes {q : TreeNode} {t : Links TreeNode}
    (h : t.Linked TreeNode.parent TreeNode.dirname q) {a : TreeNode} (ha : a ∈ t.nodes) :
    ∃ name ∈ t.chain.map TreeNode.dirname, ∃ rest, a.path = q.path ++ name :: rest := by
  induction t generalizing q with
  | null => cases ha
  | node b c n ihc ihn =>
    obtain ⟨hb, -, hc, hn⟩ := h
    have hbpath := TreeNode.path_of_parent hb
    rw [Links.nodes, List.mem_cons, List.mem_append] at ha
    rcases ha with rfl | ha | ha
    · exact ⟨a.dirname, List.mem_cons_self, [], hbpath⟩
    · obtain ⟨name, -, rest, hrest⟩ := ihc hc ha
      exact ⟨b.dirname, List.mem_cons_self, name :: rest, by
        rw [hrest, hbpath, List.append_assoc, List.singleton_append]⟩
    · obtain ⟨name, hname, rest, hrest⟩ := ihn hn ha
      exact ⟨name, List.mem_cons_of_mem _ hname, rest, hrest⟩

theorem walkParts_down {b parent : TreeNode} {d n : Links TreeNode} (part' : CStr)
    (parts : List CStr) :
    walkParts parent (.node b d n) b.dirname (part' :: parts) = walkParts b d part' parts := by
  rw [walkParts, if_pos rfl]

theorem walkParts_next {b parent : TreeNode} {d n : Links TreeNode} {part : CStr}
    (h : b.dirname ≠ part) (parts : List CStr) :
    walkParts parent (.node b d n) part parts = walkParts parent n part parts := by
  cases parts <;> rw [walkParts, if_neg h]

/-- **The walk** goes down as far as there are nodes: either to the node that the tokens
name, or to a node with nothing below it by the name of the next token. -/
theorem walkParts_spec {q : TreeNode} {t : Links TreeNode} (part : CStr) (parts : List CStr)
    (h : t.Linked TreeNode.parent TreeNode.dirname q) :
    (walkParts q t part parts = none ∧ ∃ a ∈ t.nodes, a.path = q.path ++ part :: parts) ∨
      ∃ p part' parts', walkParts q t part parts = some (p, part', parts') ∧ p ∈ q :: t.nodes ∧
        q.path ++ part :: parts = p.path ++ part' :: parts' ∧
        q.path ++ [part] <+: p.path ++ [part'] ∧
        ∀ a ∈ t.nodes, ¬ p.path ++ [part'] <+: a.path := by
  induction t generalizing q part parts with
  | null =>
    exact .inr ⟨q, part, parts, by rw [walkParts], List.mem_cons_self, rfl, List.prefix_rfl,
      fun a ha => absurd ha List.not_mem_nil⟩
  | node b d n ihd ihn =>
    obtain ⟨hb, hfresh, hd, hn⟩ := h
    have hbpath := TreeNode.path_of_parent hb
    have hsub : n.nodes ⊆ (Links.node b d n).nodes := fun a ha =>
      List.mem_cons_of_mem _ (List.mem_append_right _ ha)
    by_cases hpart : b.dirname = part
    · subst hpart
      cases parts with
      | nil => exact .inl ⟨by rw [walkParts, if_pos rfl], b, List.mem_cons_self, hbpath⟩
      | cons part' parts =>
        rw [walkParts_down]
        have hcons : q.path ++ b.dirname :: part' :: parts = b.path ++ part' :: parts := by
          rw [hbpath, List.append_assoc, List.singleton_append]
        rw [hcons]
        rcases ihd part' parts hd with ⟨hnone, a, ha, hpath⟩ | ⟨p, last, rest, hwalk, hp, heq, hpre, hno⟩
        · exact .inl ⟨hnone, a, List.mem_cons_of_mem _ (List.mem_append_left _ ha), hpath⟩
        · refine .inr ⟨p, last, rest, hwalk, List.mem_cons_of_mem _ ?_, heq, ?_, ?_⟩
          · rcases List.mem_cons.mp hp with rfl | hp
            · exact List.mem_cons_self
            · exact List.mem_cons_of_mem _ (List.mem_append_left _ hp)
          · exact hbpath ▸ (List.prefix_append b.path [part']).trans hpre
          · -- `b` is too short, and the siblings after it have other names
            refine List.forall_mem_cons.mpr ⟨fun hab => ?_, List.forall_mem_append.mpr ⟨hno, ?_⟩⟩
            · have hlen := (hpre.trans hab).length_le
              rw [List.length_append, List.length_singleton] at hlen
              omega
            · intro a ha hpa
              obtain ⟨name, hname, rest, hrest⟩ := path_of_mem_nodes hn ha
              have hpre' := (hbpath ▸ (List.prefix_append b.path [part']).trans hpre).trans hpa
              rw [hrest, List.prefix_append_right_inj, List.singleton_prefix_cons_iff] at hpre'
              exact hfresh (hpre' ▸ hname)
    · rw [walkParts_next hpart]
      rcases ihn part parts hn with ⟨hnone, a, ha, hpath⟩ | ⟨p, last, rest, hwalk, hp, heq, hpre, hno⟩
      · exact .inl ⟨hnone, a, hsub ha, hpath⟩
      · refine .inr ⟨p, last, rest, hwalk, ?_, heq, hpre, ?_⟩
        · exact List.mem_cons.mpr ((List.mem_cons.mp hp).imp_right fun hp => hsub hp)
        · -- `b` and what is below it have another name
          have hother : ∀ rest, ¬ p.path ++ [last] <+: q.path ++ b.dirname :: rest := by
            intro rest hpa
            have hpre' := hpre.trans hpa
            rw [List.prefix_append_right_inj, List.singleton_prefix_cons_iff] at hpre'
            exact hpart hpre'.symm
          refine List.forall_mem_cons.mpr ⟨hbpath ▸ hother [], List.forall_mem_append.mpr ⟨?_, hno⟩⟩
          intro a ha
          obtain ⟨name, -, rest, hrest⟩ := path_of_mem_nodes hd ha
          rw [hrest, hbpath, List.append_assoc]
          exact hother _

theorem strtok_component {c : CStr} (hc : IsComponent c) : strtok c = [c] := by
  have hjoin : joinPath [c] = c := CStr.ext (by simp [joinPath])
  have hstrtok : strtok (joinPath [c]) = [c] := strtok_joinPath (by simpa using hc) (by simp)
  rwa [hjoin] at hstrtok

namespace TreeDir.WellFormed
variable {tree : TreeDir} {count : Nat}

/-- The children of a node are linked to it. -/
theorem linked_childrenOf (h : tree.WellFormed count) {p : TreeNode} {c : Links TreeNode}
    (hc : tree.root.childrenOf p = some c) :
    c.Linked TreeNode.parent TreeNode.dirname p := by
  rw [h.root_eq, Links.childrenOf] at hc
  split at hc
  · rename_i hroot
    obtain rfl := Option.some.inj hc
    exact hroot ▸ h.linked
  · rw [Links.childrenOf, Option.or_none] at hc
    exact (h.linked.linked_childrenOf hc).1

/-- The children of a node are nodes that know it as their parent. -/
theorem childrenOf_parent (h : tree.WellFormed count) {p a : TreeNode} {c : Links TreeNode}
    (hc : tree.root.childrenOf p = some c) (ha : a ∈ c.chain) :
    a ∈ tree.root.nodes ∧ a.parent = some p := by
  refine ⟨?_, (h.linked_childrenOf hc).parent_of_mem_chain ha⟩
  rw [h.root_eq, Links.childrenOf] at hc
  rw [h.nodes_eq]
  split at hc
  · obtain rfl := Option.some.inj hc
    exact List.mem_cons_of_mem _ (Links.chain_subset_nodes _ ha)
  · rw [Links.childrenOf, Option.or_none] at hc
    exact List.mem_cons_of_mem _ ((h.linked.linked_childrenOf hc).2
      (Links.chain_subset_nodes c ha))

/-- A new child leaves the root on top, and a linked tree below it. -/
theorem appendChild_root (h : tree.WellFormed count) {p x : TreeNode} (hx : x.parent = some p)
    (hname : ∀ a ∈ tree.root.nodes, a.parent = some p → a.dirname ≠ x.dirname) :
    ∃ firstChild, tree.root.appendChild p x = .node .root firstChild .null ∧
      firstChild.Linked TreeNode.parent TreeNode.dirname .root := by
  have hname' : ∀ a ∈ tree.firstChild.nodes, a.parent = some p → a.dirname ≠ x.dirname :=
    fun a ha => hname a (h.nodes_eq ▸ List.mem_cons_of_mem _ ha)
  rw [h.root_eq, Links.appendChild]
  split
  · rename_i hroot
    subst hroot
    refine ⟨_, rfl, h.linked.appendNode hx fun a ha => ?_⟩
    exact hname' a (Links.chain_subset_nodes _ ha) (h.linked.parent_of_mem_chain ha)
  · exact ⟨_, rfl, h.linked.appendChild hx hname'⟩

/-- A node stands in the child list of its parent. -/
theorem mem_childrenOf (h : tree.WellFormed count) {p a : TreeNode} (ha : a ∈ tree.root.nodes)
    (hp : a.parent = some p) : ∃ c, tree.root.childrenOf p = some c ∧ a ∈ c.chain := by
  have hnodup := h.nodup_nodes
  rw [h.nodes_eq, List.nodup_cons] at hnodup
  rw [h.nodes_eq, List.mem_cons] at ha
  rw [h.root_eq, Links.childrenOf]
  rcases ha with rfl | ha
  · cases hp
  · rcases h.linked.mem_childrenOf hnodup.2 ha hp with ⟨rfl, hchain⟩ | ⟨c, hc, hchain⟩
    · exact ⟨_, if_pos rfl, hchain⟩
    · refine ⟨c, ?_, hchain⟩
      rw [if_neg fun hroot : TreeNode.root = p => hnodup.1 (hroot ▸ Links.mem_of_childrenOf hc), hc,
        Option.some_or]

/-- A child of a name that is taken is the one that has it. -/
theorem addChildNode_taken (h : tree.WellFormed count) {p a : TreeNode} (ha : a ∈ tree.root.nodes)
    (hp : a.parent = some p) (hne : a.dirname.bytes ≠ []) :
    braTreeDirAddChildNode tree p a.dirname = some (a, tree) := by
  obtain ⟨c, hc, hchain⟩ := h.mem_childrenOf ha hp
  have hnodup := (h.linked_childrenOf hc).nodup_chain
  have hfind : c.chain.find? (·.dirname = a.dirname) = some a := by
    cases hfind : c.chain.find? (·.dirname = a.dirname) with
    | none => exact absurd (decide_eq_true rfl) (List.find?_eq_none.mp hfind a hchain)
    | some b =>
      have hb : b.dirname = a.dirname := by simpa using List.find?_some hfind
      rw [List.inj_on_of_nodup_map hnodup (List.mem_of_find?_eq_some hfind) hchain hb]
  rw [braTreeDirAddChildNode, if_neg hne, hc, Option.getD_some, hfind]

/-- **A new directory**: one node more, and the tree stays well formed. -/
theorem addChildNode_new (h : tree.WellFormed count) (hcount : count < 2 ^ 32) {p : TreeNode}
    (hp : p ∈ tree.root.nodes) {c : CStr} (hne : c.bytes ≠ [])
    (hname : ∀ a ∈ tree.root.nodes, a.parent = some p → a.dirname ≠ c) :
    ∃ tree', braTreeDirAddChildNode tree p c = some (.dir count c p, tree') ∧
      tree'.WellFormed (count + 1) ∧
      tree'.root.nodes.Perm (.dir count c p :: tree.root.nodes) := by
  have hnum : tree.numNodes = count := h.numNodes_eq.trans (Nat.mod_eq_of_lt hcount)
  have hperm := Links.nodes_appendChild_perm (.dir count c p) hp h.nodup_nodes
  obtain ⟨firstChild, hroot, hlinked⟩ := h.appendChild_root (x := .dir count c p) rfl hname
  refine ⟨⟨tree.root.appendChild p (.dir count c p), (count + 1) % 2 ^ 32⟩, ?_, ?_, hperm⟩
  · -- no child of p has the name: the node is appended and not found
    have hfind : ((tree.root.childrenOf p).getD .null).chain.find? (·.dirname = c) = none := by
      rw [List.find?_eq_none]
      intro a ha
      cases hchildren : tree.root.childrenOf p with
      | none =>
        rw [hchildren] at ha
        cases ha
      | some children =>
        rw [hchildren, Option.getD_some] at ha
        obtain ⟨hmem, hparent⟩ := h.childrenOf_parent hchildren ha
        simpa using hname a hmem hparent
    rw [braTreeDirAddChildNode, if_neg hne, hfind, hnum]
  · have hindices : ((tree.root.appendChild p (.dir count c p)).nodes.map TreeNode.index).Perm
        (List.range (count + 1)) := by
      rw [List.range_succ]
      exact (hperm.map _).trans ((h.indices.cons count).trans
        (List.perm_append_singleton count _).symm)
    rw [hroot] at hindices ⊢
    have hfirst : TreeDir.firstChild ⟨.node .root firstChild .null, (count + 1) % 2 ^ 32⟩ =
        firstChild := by
      simp [TreeDir.firstChild, Links.childrenOf]
    exact ⟨by rw [hfirst], by rwa [hfirst], hindices, rfl⟩

/-- A directory with a new path is a new one. -/
theorem addChildNode_spec (h : tree.WellFormed count) (hcount : count < 2 ^ 32) {p : TreeNode}
    (hp : p ∈ tree.root.nodes) {c : CStr} (hc : IsComponent c)
    (hnew : ∀ a ∈ tree.root.nodes, a.path ≠ p.path ++ [c]) :
    ∃ tree', braTreeDirAddChildNode tree p c = some (.dir count c p, tree') ∧
      tree'.WellFormed (count + 1) ∧
      tree'.root.nodes.Perm (.dir count c p :: tree.root.nodes) := by
  refine h.addChildNode_new hcount hp hc.ne_nil ?_
  rintro a ha hap rfl
  exact hnew a ha (TreeNode.path_of_parent hap)

/-- Different nodes have different paths. -/
theorem path_inj (h : tree.WellFormed count) {a b : TreeNode} (ha : a ∈ tree.root.nodes)
    (hb : b ∈ tree.root.nodes) (hpath : a.path = b.path) : a = b := by
  induction a generalizing b with
  | root =>
    cases b with
    | root => rfl
    | dir index dirname parent => simp [TreeNode.path] at hpath
  | dir index dirname parent ih =>
    cases b with
    | root => simp [TreeNode.path] at hpath
    | dir index' dirname' parent' =>
      obtain ⟨hparents, hnames⟩ := List.append_inj' hpath rfl
      obtain rfl := ih (h.parent_mem ha rfl) (h.parent_mem hb rfl) hparents
      obtain ⟨c, hc, hca⟩ := h.mem_childrenOf ha rfl
      obtain ⟨c', hc', hcb⟩ := h.mem_childrenOf hb rfl
      obtain rfl := Option.some.inj (hc.symm.trans hc')
      exact List.inj_on_of_nodup_map (h.linked_childrenOf hc).nodup_chain hca hcb
        (List.cons.inj hnames).1

/-- What the writer does with a path that has components: nothing, if it is in the tree;
otherwise it adds what is missing to the last of its ancestors that is there. -/
theorem braTreeDirAdd_cases (h : tree.WellFormed count) (dirname : CStr)
    (hne : strtok dirname ≠ []) :
    (braTreeDirAdd tree dirname = none ∧ ∃ a ∈ tree.root.nodes, a.path = strtok dirname) ∨
      ∃ p ∈ tree.root.nodes, ∃ part parts, strtok dirname = p.path ++ part :: parts ∧
        (∀ a ∈ tree.root.nodes, ¬ p.path ++ [part] <+: a.path) ∧
        braTreeDirAdd tree dirname = addParts tree p part parts := by
  obtain ⟨part, parts, hparts⟩ := List.exists_cons_of_ne_nil hne
  have hbytes : dirname.bytes ≠ [] := by
    intro hnil
    rw [strtok, hnil] at hne
    simp at hne
  rw [braTreeDirAdd, if_neg hbytes, hparts, h.nodes_eq]
  rcases walkParts_spec part parts h.linked with
    ⟨hwalk, a, ha, hpath⟩ | ⟨p, part', parts', hwalk, hp, heq, -, hno⟩
  · exact .inl ⟨by simp only [hwalk, Option.bind_eq_bind, Option.bind_none], a,
      List.mem_cons_of_mem _ ha, hpath⟩
  · refine .inr ⟨p, hp, part', parts', heq, List.forall_mem_cons.mpr ⟨fun hroot => ?_, hno⟩, ?_⟩
    · have hlen := hroot.length_le
      simp [TreeNode.path] at hlen
    · simp only [hwalk, Option.bind_eq_bind, Option.bind_some]

/-- The writer adds a directory to the node of its parent, unless it is there. -/
theorem braTreeDirAdd_below (h : tree.WellFormed count) {p : TreeNode} (hp : p ∈ tree.root.nodes)
    {dirname c : CStr} (hstrtok : strtok dirname = p.path ++ [c]) :
    (braTreeDirAdd tree dirname = none ∧ ∃ a ∈ tree.root.nodes, a.path = p.path ++ [c]) ∨
      (∀ a ∈ tree.root.nodes, a.path ≠ p.path ++ [c]) ∧
        braTreeDirAdd tree dirname = braTreeDirAddChildNode tree p c := by
  rcases h.braTreeDirAdd_cases dirname (by simp [hstrtok]) with
    ⟨hnone, hthere⟩ | ⟨q, hq, part, parts, heq, hno, hadd⟩
  · exact .inl ⟨hnone, hstrtok ▸ hthere⟩
  · rw [hstrtok] at heq
    rcases List.eq_nil_or_concat' parts with rfl | ⟨init, last, rfl⟩
    · obtain ⟨hpaths, hlast⟩ := List.append_inj' heq rfl
      obtain rfl := h.path_inj hp hq hpaths
      obtain ⟨rfl, -⟩ := List.cons.inj hlast
      exact .inr ⟨fun a ha hpath => hno a ha (hpath ▸ List.prefix_rfl), hadd⟩
    · -- otherwise `p` is below the node where the walk ends
      have heq' : p.path ++ [c] = (q.path ++ part :: init) ++ [last] := by simpa using heq
      obtain ⟨hpaths, -⟩ := List.append_inj' heq' rfl
      exact absurd (hpaths ▸ ⟨init, by simp⟩) (hno p hp)

theorem braTreeDirAdd_eq (h : tree.WellFormed count) {p : TreeNode} (hp : p ∈ tree.root.nodes)
    {c : CStr} (hcomps : ∀ d ∈ p.path ++ [c], IsComponent d)
    (hnew : ∀ a ∈ tree.root.nodes, a.path ≠ p.path ++ [c]) :
    braTreeDirAdd tree (joinPath (p.path ++ [c])) = braTreeDirAddChildNode tree p c := by
  rcases h.braTreeDirAdd_below hp (strtok_joinPath hcomps (by simp)) with
    ⟨-, a, ha, hpath⟩ | ⟨-, hadd⟩
  · exact absurd hpath (hnew a ha)
  · exact hadd

/-- The reader adds a directory to the node with the index of its parent. -/
theorem braTreeDirInsertAtParent_eq (h : tree.WellFormed count) {p : TreeNode}
    (hp : p ∈ tree.root.nodes) {c : CStr} (hc : IsComponent c) :
    braTreeDirInsertAtParent tree p.index c = braTreeDirAddChildNode tree p c := by
  rw [braTreeDirInsertAtParent, if_neg hc.ne_nil, h.parentIndexSearch_eq hp, strtok_component hc]
  simp only [Option.bind_eq_bind, Option.bind_some, addParts]

end TreeDir.WellFormed

end BrArchive
