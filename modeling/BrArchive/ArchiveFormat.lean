import BrArchive.PackedRecords
import BrArchive.SfxArchive

/-! # The format of an archive

What an archive of some entries is, byte for byte, as a function of the entries alone: a header
that counts them, and a record for each.  The record of a directory names its parent by the
number of the parent among the directories before it, and that of a file names no directory, as
it is in the last one before it.
-/
namespace BrArchive
open LinkedTree

/-- The number of a directory: those of the entries are counted from 1, and the current one
is 0. -/
def dirIndex (l : List PlanEntry) (p : List CStr) : Nat :=
  if p = [] then 0 else (directories l).idxOf p + 1

section Format
variable (qsortR : QsortR) (compress : Bool)

/-- The record of an entry behind the entries `l`. -/
def entryImage (l : List PlanEntry) : PlanEntry → Bytes
  | .dir parent name => dirImage (joinPath (parent ++ [name])) name (dirIndex l parent)
  | .file parent name contents =>
    packedFile qsortR compress (joinPath (parent ++ [name])) name contents

/-- The records of some entries behind the entries `l`. -/
def entriesImage (l : List PlanEntry) : List PlanEntry → Bytes
  | [] => []
  | e :: r => entryImage qsortR compress l e ++ entriesImage (l ++ [e]) r

/-- **The archive** of some entries. -/
def archiveImage (entries : List PlanEntry) : Bytes :=
  leBytes 4 braMagic ++ leBytes 4 entries.length ++ entriesImage qsortR compress [] entries

/-- A self-extracting archive: the program before it, and a footer with the length of the
program. -/
def sfxArchiveImage (program : Bytes) (entries : List PlanEntry) : Bytes :=
  program ++ archiveImage qsortR compress entries ++
    (leBytes 4 braFooterMagic ++ leBytes 8 program.length)

theorem entriesImage_one (l : List PlanEntry) (e : PlanEntry) :
    entriesImage qsortR compress l [e] = entryImage qsortR compress l e :=
  List.append_nil _

end Format

/-! ## Numbers of directories -/

theorem dirIndex_file (l : List PlanEntry) (parent : List CStr) (name : CStr) (contents : Bytes)
    (p : List CStr) : dirIndex (l ++ [.file parent name contents]) p = dirIndex l p := by
  simp [dirIndex, directories]

theorem dirIndex_append {l r : List PlanEntry} {p : List CStr}
    (hp : p = [] ∨ p ∈ directories l) : dirIndex (l ++ r) p = dirIndex l p := by
  rcases hp with rfl | hp
  · rfl
  · rw [dirIndex, dirIndex, directories_append, List.idxOf_append_of_mem hp]

theorem dirIndex_new {l : List PlanEntry} {parent : List CStr} {name : CStr}
    (hnew : parent ++ [name] ∉ directories l) :
    dirIndex (l ++ [.dir parent name]) (parent ++ [name]) = (directories l).length + 1 := by
  have hne : parent ++ [name] ≠ [] := List.append_ne_nil_of_right_ne_nil _ (List.cons_ne_nil _ _)
  rw [dirIndex, if_neg hne, directories_append, directories, directories,
    List.idxOf_append_of_notMem hnew, List.idxOf_cons_self, Nat.add_zero]

/-! ## What the writer keeps -/

/-- The writer after the entries `l`: its tree has their directories, under their numbers. -/
structure PackerTree (l : List PlanEntry) (tree : TreeDir) (lastDirNode : TreeNode) : Prop
    extends TreeAfter l tree lastDirNode where
  index_eq : ∀ a ∈ tree.root.nodes, a.index = dirIndex l a.path

theorem PackerTree.nil : PackerTree [] braTreeDirCreate .root where
  toTreeAfter := .nil
  index_eq a ha := by
    obtain rfl : a = .root := by simpa [braTreeDirCreate, Links.nodes] using ha
    rfl

theorem PackerTree.file {l : List PlanEntry} {tree : TreeDir} {lastDirNode : TreeNode}
    (h : PackerTree l tree lastDirNode) (parent : List CStr) (name : CStr) (contents : Bytes) :
    PackerTree (l ++ [.file parent name contents]) tree lastDirNode where
  toTreeAfter := h.toTreeAfter.file parent name contents
  index_eq a ha := by rw [dirIndex_file, h.index_eq a ha]

/-- A directory gets its number, and the others keep theirs. -/
theorem PackerTree.dir {l : List PlanEntry} {tree : TreeDir} {lastDirNode : TreeNode}
    (h : PackerTree l tree lastDirNode) {parent : List CStr} {name : CStr}
    (hnames : ∀ c ∈ parent ++ [name], IsEntryName c) (hfollows : Follows l (.dir parent name))
    (hlength : l.length + 1 < 2 ^ 32) :
    ∃ p tree', p ∈ tree.root.nodes ∧ p.path = parent ∧ p.index = dirIndex l parent ∧
      braTreeDirAdd tree (joinPath (parent ++ [name])) =
        some (.dir ((directories l).length + 1) name p, tree') ∧
      braTreeDirInsertAtParent tree p.index name =
        some (.dir ((directories l).length + 1) name p, tree') ∧
      PackerTree (l ++ [.dir parent name]) tree' (.dir ((directories l).length + 1) name p) := by
  obtain ⟨p, tree', hp, rfl, hadd, hinsert, hafter⟩ := h.toTreeAfter.dir hnames hfollows hlength
  have hcomps : ∀ c ∈ p.path ++ [name], IsComponent c := fun c hc => (hnames c hc).toIsComponent
  have hnew : ∀ a ∈ tree.root.nodes, a.path ≠ p.path ++ [name] := fun a ha hpath => by
    rcases (h.paths _).mp ⟨a, ha, hpath⟩ with hnil | hmem
    · simp at hnil
    · exact hfollows.2 hmem
  have hcount : (directories l).length + 1 < 2 ^ 32 := by
    have hle := directories_length_le l
    omega
  -- the nodes are those of before and the new one
  obtain ⟨tree'', hchild, -, hperm⟩ :=
    h.wellFormed.addChildNode_spec hcount hp (hcomps name (by simp)) hnew
  have hsame := hadd.symm.trans ((h.wellFormed.braTreeDirAdd_eq hp hcomps hnew).trans hchild)
  obtain rfl := (Prod.mk.inj (Option.some.inj hsame)).2
  refine ⟨p, tree', hp, rfl, h.index_eq p hp, hadd, hinsert, hafter, fun a ha => ?_⟩
  rcases List.mem_cons.mp (hperm.mem_iff.mp ha) with rfl | hold
  · exact (dirIndex_new hfollows.2).symm
  · rw [dirIndex_append ((h.paths _).mp ⟨a, hold, rfl⟩), h.index_eq a hold]

end BrArchive
