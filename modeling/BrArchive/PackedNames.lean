import BrArchive.ArchiveRoundTrip
import BrArchive.EntryFields
import BrArchive.PackPlan

/-! # The names the packer accepts

`try_sanitize` lets in what is a normal relative path to the file system, and
`_bra_validate_filename` lets out what is one on every system.  On POSIX a backslash and a
colon are characters like any other, so that some names get into an archive and not out of
it again.
-/
namespace BrArchive
open PathWalk

/-! ## Accepted paths -/

/-- A path that `try_sanitize` has accepted, and its `generic_string`: the elements with a
delimiter between them, and maybe one behind the last. -/
structure PackedPath where
  elements : FsPath
  fn : CStr
  normal : IsNormal elements
  generic : fn = joinPath elements ∨ elements ≠ dotPath ∧ fn.bytes = delimited elements

/-- What the file name check takes for a path of another system: a leading backslash, a drive
letter, or `..` with a backslash. -/
def IsForeign (fn : Bytes) : Prop :=
  [92] <+: fn ∨
    (∃ b, ((65 ≤ b ∧ b ≤ 90) ∨ (97 ≤ b ∧ b ≤ 122)) ∧ [b, 58] <+: fn) ∨
    [46, 46, 92] <+: fn ∨ [92, 46, 46, 92] <:+: fn

/-- What it takes for a path out of the current directory. -/
def IsOutside (fn : Bytes) : Prop :=
  [47] <+: fn ∨ [46, 46, 47] <+: fn ∨ [47, 46, 46, 47] <:+: fn

theorem isDriveLetter_iff (fn : Bytes) :
    (decide (2 ≤ fn.length) && (charAt fn 1 == 58 &&
        ((decide (65 ≤ charAt fn 0) && decide (charAt fn 0 ≤ 90)) ||
          (decide (97 ≤ charAt fn 0) && decide (charAt fn 0 ≤ 122))))) = true ↔
      ∃ b, ((65 ≤ b ∧ b ≤ 90) ∨ (97 ≤ b ∧ b ≤ 122)) ∧ [b, 58] <+: fn := by
  match fn with
  | [] => simp
  | [b] => simp
  | b :: c :: r =>
    simp only [charAt, List.length_cons, List.getD_cons_zero, List.getD_cons_succ,
      Bool.and_eq_true, Bool.or_eq_true, decide_eq_true_eq, beq_iff_eq, List.cons_prefix_cons]
    constructor
    · rintro ⟨-, rfl, hletter⟩
      exact ⟨b, hletter, rfl, rfl, List.nil_prefix⟩
    · rintro ⟨_, hletter, rfl, rfl, -⟩
      exact ⟨by omega, rfl, hletter⟩

/-- **What the file name check accepts.** -/
theorem braValidateFilename_iff (fn : Bytes) :
    braValidateFilename fn fn.length = true ↔ ¬ IsForeign fn ∧ ¬ IsOutside fn := by
  have hslash : (charAt fn 0 == braDirDelim) = true ↔ [47] <+: fn :=
    charAt_zero_iff (by decide) fn
  have hbackslash : (charAt fn 0 == 92) = true ↔ [92] <+: fn := charAt_zero_iff (by decide) fn
  rw [braValidateFilename, IsForeign, IsOutside]
  split
  · -- the first check: an absolute path, in one of the three notations
    rename_i habsolute
    rw [Bool.or_eq_true, Bool.or_eq_true, hslash, hbackslash, isDriveLetter_iff] at habsolute
    refine iff_of_false Bool.false_ne_true ?_
    rintro ⟨hforeign, houtside⟩
    rcases habsolute with (h | h) | h
    · exact houtside (.inl h)
    · exact hforeign (.inl h)
    · exact hforeign (.inr (.inl h))
  · rename_i habsolute
    rw [Bool.or_eq_true, Bool.or_eq_true, hslash, hbackslash, isDriveLetter_iff, not_or, not_or]
      at habsolute
    obtain ⟨⟨hslash, hbackslash⟩, hdrive⟩ := habsolute
    split
    · -- the second check: a name that goes up, with either of the two delimiters
      rename_i htraversal
      simp only [Bool.or_eq_true, strstr_iff, List.isPrefixOf_iff_prefix] at htraversal
      refine iff_of_false Bool.false_ne_true ?_
      rintro ⟨hforeign, houtside⟩
      rcases htraversal with ((h | h) | h) | h
      · exact houtside (.inr (.inr h))
      · exact hforeign (.inr (.inr (.inr h)))
      · exact houtside (.inr (.inl h))
      · exact hforeign (.inr (.inr (.inl h)))
    · rename_i htraversal
      simp only [Bool.or_eq_true, strstr_iff, List.isPrefixOf_iff_prefix, not_or] at htraversal
      obtain ⟨⟨⟨hup, hup'⟩, hdots⟩, hdots'⟩ := htraversal
      refine iff_of_true rfl ⟨?_, ?_⟩
      · rintro (h | h | h | h)
        · exact hbackslash h
        · exact hdrive h
        · exact hdots' h
        · exact hup' h
      · rintro (h | h | h)
        · exact hslash h
        · exact hdots h
        · exact hup h

/-- A delimiter behind a path does not make it foreign. -/
theorem isForeign_append_delim (x : Bytes) : IsForeign (x ++ [47]) ↔ IsForeign x := by
  have hprefix : ∀ {needle : Bytes}, 47 ∉ needle → (needle <+: x ++ [47] ↔ needle <+: x) := by
    intro needle hneedle
    rw [List.prefix_concat_iff, or_iff_right]
    rintro rfl
    simp at hneedle
  have hinfix : [92, 46, 46, 92] <:+: x ++ [47] ↔ [92, 46, 46, 92] <:+: x := by
    rw [List.infix_concat_iff, or_iff_right]
    rintro ⟨l, hl⟩
    have hlast := congrArg List.getLast? hl
    simp at hlast
  have hdrive : ∀ b : UInt8, ((65 ≤ b ∧ b ≤ 90) ∨ (97 ≤ b ∧ b ≤ 122)) → 47 ∉ [b, 58] := by
    intro b hb hmem
    rcases List.mem_cons.mp hmem with rfl | hmem
    · exact absurd hb (by decide)
    · exact absurd hmem (by decide)
  rw [IsForeign, IsForeign, hprefix (by decide), hprefix (by decide), hinfix]
  refine or_congr_right (or_congr_left (exists_congr fun b => and_congr_right fun hb => ?_))
  exact hprefix (hdrive b hb)

namespace PackedPath
variable (p : PackedPath)

theorem ne_nil : p.elements ≠ [] := by
  rcases p.normal with h | ⟨h, -⟩
  · rw [h]
    exact List.cons_ne_nil _ _
  · exact h

theorem isComponent {c : CStr} (hc : c ∈ p.elements) : IsComponent c := by
  rcases p.normal with h | ⟨-, h⟩
  · rw [h] at hc
    obtain rfl := List.mem_singleton.mp hc
    decide
  · exact (h c hc).1

/-- No element is `..`. -/
theorem ne_dotDot {c : CStr} (hc : c ∈ p.elements) : c.bytes ≠ [46, 46] := by
  rcases p.normal with h | ⟨-, h⟩
  · rw [h] at hc
    obtain rfl := List.mem_singleton.mp hc
    decide
  · exact (h c hc).2.2

/-- The path without a delimiter behind it. -/
def path : CStr := joinPath p.elements

theorem splitOn_path : p.path.bytes.splitOn braDirDelim = p.elements.map CStr.bytes :=
  splitOn_joinPath (fun _ => p.isComponent) p.ne_nil

/-- The path stays as it is, or loses its last delimiter. -/
theorem fn_cases : p.fn = p.path ∨ p.fn.bytes = p.path.bytes ++ [braDirDelim] := by
  rcases p.generic with h | ⟨-, h⟩
  · exact .inl h
  · exact .inr (h.trans (delimited_eq p.ne_nil))

theorem strtok_fn : strtok p.fn = p.elements := by
  rcases p.generic with h | ⟨-, h⟩
  · rw [h, strtok_joinPath (fun _ => p.isComponent) p.ne_nil]
  · exact strtok_delimited (fun _ => p.isComponent) p.ne_nil h

theorem isForeign_iff : IsForeign p.path.bytes ↔ IsForeign p.fn.bytes := by
  rcases p.fn_cases with h | h
  · rw [h]
  · rw [h]
    exact (isForeign_append_delim _).symm

/-- Between two delimiters there is an element. -/
theorem nil_not_mem_splitOn : [] ∉ p.path.bytes.splitOn braDirDelim := by
  rw [splitOn_path]
  intro h
  obtain ⟨c, hc, hnil⟩ := List.mem_map.mp h
  exact (p.isComponent hc).ne_nil hnil

theorem dotDot_not_mem_splitOn : [46, 46] ∉ p.path.bytes.splitOn braDirDelim := by
  rw [splitOn_path]
  intro h
  obtain ⟨c, hc, hdots⟩ := List.mem_map.mp h
  exact p.ne_dotDot hc hdots

theorem not_prefix_delim : ¬ [47] <+: p.path.bytes := by
  rintro ⟨r, hr⟩
  have hsplit := splitOn_append_delim [] r
  refine p.nil_not_mem_splitOn ?_
  rw [← hr]
  exact hsplit ▸ List.mem_cons_self

theorem path_ne_nil : p.path.bytes ≠ [] := by
  intro hnil
  have hmem := p.nil_not_mem_splitOn
  rw [hnil] at hmem
  exact hmem List.mem_cons_self

theorem fn_ne_nil : p.fn.bytes ≠ [] := by
  rcases p.fn_cases with h | h
  · exact h ▸ p.path_ne_nil
  · simp [h]

/-- The path is relative. -/
theorem relative : ¬ [47] <+: p.fn.bytes := by
  rcases p.fn_cases with h | h
  · rw [h]
    exact p.not_prefix_delim
  · rw [h, List.prefix_concat_iff]
    rintro (hpath | hpath)
    · exact p.path_ne_nil (List.append_cancel_right (show [] ++ [braDirDelim] = _ from hpath)).symm
    · exact p.not_prefix_delim hpath

theorem not_isOutside : ¬ IsOutside p.path.bytes := by
  rintro (h | ⟨r, hr⟩ | ⟨l, r, hr⟩)
  · exact p.not_prefix_delim h
  · have hsplit := splitOn_append_delim [46, 46] r
    refine p.dotDot_not_mem_splitOn ?_
    rw [← hr]
    exact hsplit ▸ List.mem_cons_self
  · have hsplit := (splitOn_append_delim l ([46, 46] ++ braDirDelim :: r)).trans
      (congrArg _ (splitOn_append_delim [46, 46] r))
    refine p.dotDot_not_mem_splitOn ?_
    rw [← hr, List.append_assoc]
    exact hsplit ▸ List.mem_append_right _ List.mem_cons_self

/-- **What of the accepted paths the extractor accepts.** -/
theorem braValidateFilename_path :
    braValidateFilename p.path.bytes p.path.bytes.length = true ↔ ¬ IsForeign p.fn.bytes := by
  rw [braValidateFilename_iff, and_iff_left p.not_isOutside, p.isForeign_iff]

/-- There are no two delimiters in a row. -/
theorem not_infix_delims : ¬ [47, 47] <:+: p.fn.bytes := by
  have hpath : ¬ [47, 47] <:+: p.path.bytes := by
    rintro ⟨l, r, hr⟩
    have hsplit := (splitOn_append_delim l ([] ++ braDirDelim :: r)).trans
      (congrArg _ (splitOn_append_delim [] r))
    refine p.nil_not_mem_splitOn ?_
    rw [← hr, List.append_assoc]
    exact hsplit ▸ List.mem_append_right _ List.mem_cons_self
  rcases p.fn_cases with h | h
  · rwa [h]
  · rw [h]
    intro hinfix
    rcases List.infix_concat_iff.mp hinfix with ⟨l, hl⟩ | hinfix
    · -- then the path itself ends with a delimiter
      have hl' : (l ++ [47]) ++ [47] = p.path.bytes ++ [braDirDelim] := by rw [← hl]; simp
      obtain ⟨hl, -⟩ := List.append_inj' hl' rfl
      have hsplit := splitOn_append_delim l []
      refine p.nil_not_mem_splitOn ?_
      rw [← hl]
      exact hsplit ▸ List.mem_append_right _ List.mem_cons_self
    · exact hpath hinfix

end PackedPath

/-! ## What the reader makes of it -/

/-- The path under which the next entry of an archive is to be extracted. -/
def readPath (ctx : IoFileCtx) : Option CStr := do
  let (me, ctx) ← braIoFileCtxReadMetaEntry ctx
  let (buf, _) ← braIoFileCtxReconstructMetaEntryName ctx me
  return CStr.ofBuffer buf

/-- The reader takes an entry with this path from the archive, and gets to the tree and the
directory that the writer had after it. -/
def ReadsEntry (rd w' : IoFileCtx) (path : CStr) : Prop :=
  ∃ me rd' buf len, braIoFileCtxReadMetaEntry rd = some (me, rd') ∧ rd'.tree = w'.tree ∧
    rd'.lastDirNode = w'.lastDirNode ∧
    braIoFileCtxReconstructMetaEntryName rd' me = some (buf, len) ∧ CStr.ofBuffer buf = path

theorem ReadsEntry.readPath_eq {rd w' : IoFileCtx} {path : CStr} (h : ReadsEntry rd w' path) :
    readPath rd = some path := by
  obtain ⟨me, rd', buf, len, hread, -, -, hname, rfl⟩ := h
  rw [readPath, hread]
  simp only [Option.bind_eq_bind, Option.bind_some, hname, Option.pure_def]

/-- An entry with a path that is not accepted is not extracted, nor is any after it. -/
theorem ReadsEntry.decode_eq_none {rd w' : IoFileCtx} {path : CStr} (h : ReadsEntry rd w' path)
    (hinvalid : braValidateFilename path.bytes path.bytes.length = false) {τ : Type}
    (fs : FileSystem τ) (user : User) (t : τ) :
    braIoFileCtxDecodeAndWriteToDisk fs rd user t = none := by
  obtain ⟨me, rd', buf, len, hread, -, -, hname, rfl⟩ := h
  have hcheck : checkHeader buf (CStr.ofBuffer buf).bytes.length me = none := by
    rw [checkHeader]
    exact if_pos (congrArg _ hinvalid)
  rw [braIoFileCtxDecodeAndWriteToDisk, hread]
  simp only [Option.bind_eq_bind, Option.bind_some, hname, hcheck, Option.bind_none]

/-- The reader takes this entry from the archive, with this path. -/
def ReadsAs (rd w' : IoFileCtx) (me : MetaEntry) (path : CStr) : Prop :=
  ∃ rd' buf len, braIoFileCtxReadMetaEntry rd = some (me, rd') ∧ rd'.tree = w'.tree ∧
    rd'.lastDirNode = w'.lastDirNode ∧
    braIoFileCtxReconstructMetaEntryName rd' me = some (buf, len) ∧ CStr.ofBuffer buf = path

theorem ReadsAs.readsEntry {rd w' : IoFileCtx} {me : MetaEntry} {path : CStr}
    (h : ReadsAs rd w' me path) : ReadsEntry rd w' path := ⟨me, h⟩

section Read
variable {rd : IoFileCtx} {bytes rest : Bytes} {me : MetaEntry}

/-- The entry of a file. -/
theorem readFile_fieldsImage (hme : me.IsStorable) (htype : braAttrType me.attributes = .file)
    (hf : rd.f = ioAt bytes (me.fieldsImage ++ rest)) {dir path : CStr}
    (hdir : braTreeDirReconstructPath rd.lastDirNode = dir)
    (hpath : path.bytes = if dir.bytes = [] then me.name else dir.bytes ++ braDirDelim :: me.name) :
    ReadsAs rd rd me.asRead path := by
  have htype' : braAttrType me.asRead.attributes = .file := htype
  have hread : braIoFileCtxReadMetaEntry rd =
      some (me.asRead, { rd with f := ioAt (bytes ++ me.fieldsImage) rest }) := by
    rw [braIoFileCtxReadMetaEntry_eq, hf, hme.readFields_eq, Option.bind_some, enterEntry, htype']
    rfl
  have hname : me.asRead.name = me.name := rfl
  have hlen : me.asRead.nameSize.toNat = me.name.length :=
    (congrArg UInt8.toNat hme.nameSize_eq).trans (toNat_length hme.length_le)
  by_cases hempty : dir.bytes = []
  · rw [if_pos hempty] at hpath
    refine ⟨_, me.name ++ [0], me.name.length, hread, rfl, rfl, ?_, ?_⟩
    · simp only [braIoFileCtxReconstructMetaEntryName, htype', hdir, hempty, List.length_nil,
        gt_iff_lt, lt_self_iff_false, if_false, hname, hlen]
    · rw [← hpath, CStr.ofBuffer_append_nul]
  · rw [if_neg hempty] at hpath
    refine ⟨_, dir.bytes ++ [braDirDelim] ++ me.name ++ [0],
      dir.bytes.length + me.name.length + 1, hread, rfl, rfl, ?_, ?_⟩
    · simp only [braIoFileCtxReconstructMetaEntryName, htype', hdir, gt_iff_lt,
        List.length_pos_of_ne_nil hempty, if_true, hname, hlen, List.take_left]
      exact if_neg (by omega)
    · have hbytes : dir.bytes ++ [braDirDelim] ++ me.name = path.bytes := by simp [hpath]
      rw [hbytes, CStr.ofBuffer_append_nul]

/-- The entry of a directory. -/
theorem readDir_fieldsImage (hme : me.IsStorable) {name : CStr} (hname : me.name = name.bytes)
    {index : Nat} (hindex : index < 2 ^ 32)
    (htype : braAttrType me.attributes = if index = 0 then .dir else .subdir)
    (hdata : me.entryData = if index = 0 then .none else .subdir index)
    (hf : rd.f = ioAt bytes (me.fieldsImage ++ rest)) {node : TreeNode} {tree : TreeDir}
    (hinsert : braTreeDirInsertAtParent rd.tree index name = some (node, tree)) :
    ReadsAs rd { rd with tree, lastDirNode := node } me.asRead
      (braTreeDirReconstructPath node) := by
  have hstr : CStr.ofBuffer me.asRead.name = name := by
    rw [show me.asRead.name = name.bytes from hname, CStr.ofBuffer_bytes]
  have hbuf : CStr.ofBuffer ((braTreeDirReconstructPath node).bytes ++ [0]) =
      braTreeDirReconstructPath node := CStr.ofBuffer_append_nul _ []
  -- the tree grows as the packer grew it, below the root or below the parent index
  have henter : enterEntry { rd with f := ioAt (bytes ++ me.fieldsImage) rest } me.asRead =
      some { rd with
        f := ioAt (bytes ++ me.fieldsImage) rest
        tree
        lastDirNode := node } := by
    have htype' : braAttrType me.asRead.attributes = if index = 0 then .dir else .subdir := htype
    by_cases hroot : index = 0
    · rw [if_pos hroot] at htype'
      rw [hroot] at hinsert
      simp only [enterEntry, htype', enterDir, hstr, hinsert, Option.bind_eq_bind, Option.bind_some,
        Option.pure_def]
    · have hparent : me.asRead.parentIndex = index := by
        rw [if_neg hroot] at hdata
        rw [MetaEntry.parentIndex, MetaEntry.asRead, hdata]
        exact Nat.mod_eq_of_lt hindex
      rw [if_neg hroot] at htype'
      simp only [enterEntry, htype', enterDir, hstr, hparent, hinsert, Option.bind_eq_bind,
        Option.bind_some, Option.pure_def]
  refine ⟨{ rd with
      f := ioAt (bytes ++ me.fieldsImage) rest
      tree
      lastDirNode := node }, (braTreeDirReconstructPath node).bytes ++ [0],
    (braTreeDirReconstructPath node).bytes.length, ?_, rfl, rfl, ?_, hbuf⟩
  · rw [braIoFileCtxReadMetaEntry_eq, hf, hme.readFields_eq, Option.bind_some, henter]
    rfl
  · have htype' : braAttrType me.asRead.attributes = .dir ∨
        braAttrType me.asRead.attributes = .subdir := by
      rw [show me.asRead.attributes = me.attributes from rfl, htype]
      split
      · exact .inl rfl
      · exact .inr rfl
    rcases htype' with htype' | htype' <;>
      simp only [braIoFileCtxReconstructMetaEntryName, htype']

end Read

/-! ## The run of the writer -/

section Run
variable {σ : Type} (fs : FileSystem σ) (s : σ)

/-- The file system reports a directory. -/
def IsDir (fn : CStr) : Prop :=
  ∃ attributes, fs.fileAttributes s fn = some attributes ∧
    (braAttrType attributes = .dir ∨ braAttrType attributes = .subdir)

/-- The order in which the packer writes its entries: a directory after the one it lies in. -/
def ParentsFirst (l : List PackedPath) : Prop :=
  ∀ l₁ p l₂, l = l₁ ++ p :: l₂ → IsDir fs s p.fn →
    parentPath p.elements = [] ∨ ∃ q ∈ l₁, IsDir fs s q.fn ∧ q.elements = parentPath p.elements

/-- A path with a delimiter behind it does not lead to a regular file. -/
def NoDelimitedFile : Prop :=
  ∀ fn attributes, fs.fileAttributes s fn = some attributes → braAttrType attributes = .file →
    fn.bytes.getLast? ≠ some braDirDelim

/-- The writer after these entries: its tree has all directories among them, and the current
one is the last of them. -/
structure PackerAfter (l : List PackedPath) (bytes : Bytes) (w : IoFileCtx) : Prop where
  f_eq : w.f = ioAt bytes []
  wellFormed : ∃ count, count ≤ l.length + 1 ∧ w.tree.WellFormed count
  dirs : ∀ q ∈ l, IsDir fs s q.fn → ∃ a ∈ w.tree.root.nodes, a.path = q.elements
  node_mem : w.lastDirNode ∈ w.tree.root.nodes
  lastDir : (w.lastDir.bytes = [] ∧ w.lastDirNode.path = []) ∨
    ∃ q : PackedPath, w.lastDir = q.fn ∧ w.lastDirNode.path = q.elements
  lastDirSize_eq : w.lastDirSize = w.lastDir.bytes.length

/-- The sizes that the file system reports are those of a `uint64_t`. -/
def SizesFit : Prop := ∀ fn n, fs.fileSize s fn = some n → n < 2 ^ 64

variable {fs s} {qsortR : QsortR} {compress : Bool} {l : List PackedPath} {bytes image : Bytes}
  {w w' : IoFileCtx} {p : PackedPath} {me : MetaEntry}

theorem ParentsFirst.of_append {l' : List PackedPath} (h : ParentsFirst fs s (l ++ l')) :
    ParentsFirst fs s l := by
  rintro l₁ p l₂ rfl hdir
  exact h l₁ p (l₂ ++ l') (by rw [List.append_assoc, List.cons_append]) hdir

variable (fs s l bytes image w w' p me) in
/-- An entry has been built and appended, and the reader that is in step with the writer takes
it from any archive that has these bytes. -/
structure Packed : Prop where
  after : PackerAfter fs s (l ++ [p]) (bytes ++ image) w'
  wrap_eq : SizesFit fs s → me.entryData.wrap = me.entryData
  reads : ∀ rd pre rest, rd.tree = w.tree → rd.lastDirNode = w.lastDirNode →
    rd.f = ioAt pre (image ++ rest) → ReadsAs rd w' me.asRead p.path

/-- The context behind the checksum of an entry. -/
def IoFileCtx.writeCrc32 (ctx : IoFileCtx) (me : MetaEntry) : IoFileCtx :=
  { ctx with f := braIoFileWrite ctx.f (leBytes 4 me.crc32.toNat) }

/-- The writer appends a file, and the reader finds it under its path. -/
theorem PackerAfter.file (hfiles : NoDelimitedFile fs s) (h : PackerAfter fs s l bytes w)
    {attributes : UInt8} (hattr : fs.fileAttributes s p.fn = some attributes)
    (htype : braAttrType attributes = .file)
    (hpack : packEntry fs qsortR s w p.fn compress = some (me, w')) :
    ∃ image, Packed fs s l bytes image w (w'.writeCrc32 me) p me := by
  have hdelim := hfiles p.fn attributes hattr htype
  have hfn : p.fn = p.path := by
    refine p.fn_cases.resolve_right fun hbytes => hdelim ?_
    rw [hbytes, List.getLast?_concat]
  obtain ⟨name, n, fileSize, data, hentry, hname, hnameSize, htype', hdata, hsize, hle, rfl⟩ :=
    packFile_appends hattr htype h.f_eq hpack
  obtain ⟨hlength, hbytes⟩ := entryName_eq_some h.lastDirSize_eq p.relative hentry
  obtain ⟨count, hcount, hwellFormed⟩ := h.wellFormed
  have hnotDir : ¬ IsDir fs s p.fn := by
    rintro ⟨a, ha, hdir⟩
    obtain rfl := Option.some.inj (hattr.symm.trans ha)
    rw [htype] at hdir
    simp at hdir
  have hfree : 0 ∉ name := by
    intro hzero
    refine p.fn.nul_free ?_
    rcases hbytes with ⟨-, hbytes⟩ | ⟨-, hbytes⟩
    · exact hbytes ▸ hzero
    · exact hbytes ▸ List.mem_append_right _ (List.mem_cons_of_mem _ hzero)
  have hpos : 0 < name.length := by
    refine List.length_pos_of_ne_nil ?_
    rintro rfl
    rcases hbytes with ⟨-, hbytes⟩ | ⟨-, hbytes⟩
    · exact p.path_ne_nil (hfn ▸ hbytes)
    · exact hdelim (by rw [hbytes, List.getLast?_concat])
  rw [cString_eq_self hfree] at hname
  subst hname
  have hstorable : me.IsStorable := ⟨hfree, hpos, hlength, hnameSize, by rw [hdata]; exact htype'⟩
  have himage : me.commonHeader ++ me.entryData.image = me.fieldsImage := by
    rw [MetaEntry.fieldsImage, commonHeader_eq hlength rfl hnameSize]
  refine ⟨me.fieldsImage ++ data ++ leBytes 4 me.crc32.toNat, ?_, ?_, ?_⟩
  · refine ⟨?_, ⟨count, ?_, hwellFormed⟩, ?_, h.node_mem, h.lastDir, h.lastDirSize_eq⟩
    · rw [IoFileCtx.writeCrc32, himage, braIoFileWrite_ioAt_nil, List.append_assoc]
    · rw [List.length_append]
      omega
    · intro q hq hqdir
      rcases List.mem_append.mp hq with hq | hq
      · exact h.dirs q hq hqdir
      · exact absurd (List.mem_singleton.mp hq ▸ hqdir) hnotDir
  · intro hfit
    have hlt := hfit _ _ hsize
    rw [hdata, EntryData.wrap, Nat.mod_eq_of_lt (by omega)]
  · intro rd pre rest htree hnode hf
    have hdir : braTreeDirReconstructPath rd.lastDirNode = joinPath w.lastDirNode.path := by
      rw [hnode, hwellFormed.reconstructPath_eq h.node_mem]
    have hpath : p.path.bytes = if (joinPath w.lastDirNode.path).bytes = [] then me.name
        else (joinPath w.lastDirNode.path).bytes ++ braDirDelim :: me.name := by
      rw [← hfn]
      rcases hbytes with ⟨hempty, hbytes⟩ | ⟨hne, hbytes⟩
      · rcases h.lastDir with ⟨-, hroot⟩ | ⟨q, hq, -⟩
        · rw [hroot]
          exact hbytes
        · exact absurd (hq ▸ hempty) q.fn_ne_nil
      · rcases h.lastDir with ⟨hempty, -⟩ | ⟨q, hq, hnode⟩
        · exact absurd hempty hne
        · have hjoin : joinPath w.lastDirNode.path = q.path := by rw [hnode, PackedPath.path]
          rw [hjoin, if_neg q.path_ne_nil, hbytes, hq]
          rcases q.fn_cases with hfn | hfn
          · rw [hfn]
          · -- a delimiter more would be the second one in a row
            refine absurd ⟨q.path.bytes, me.name, ?_⟩ p.not_infix_delims
            rw [hbytes, hq, hfn]
            simp [braDirDelim]
    rw [List.append_assoc, List.append_assoc] at hf
    obtain ⟨rd', buf, len, hread, htree', hnode', hrest⟩ :=
      readFile_fieldsImage hstorable htype' hf hdir hpath
    exact ⟨rd', buf, len, hread, htree'.trans htree, hnode'.trans hnode, hrest⟩

/-- The writer appends a directory, and the reader finds it under its path. -/
theorem PackerAfter.dir (h : PackerAfter fs s l bytes w) (hlength : l.length + 1 < 2 ^ 32)
    (hdir : IsDir fs s p.fn) (hparent : parentPath p.elements = [] ∨
      ∃ q ∈ l, IsDir fs s q.fn ∧ q.elements = parentPath p.elements)
    (hpack : packEntry fs qsortR s w p.fn compress = some (me, w')) :
    ∃ image, Packed fs s l bytes image w (w'.writeCrc32 me) p me := by
  obtain ⟨count, hcount, hwellFormed⟩ := h.wellFormed
  obtain ⟨init, c, helements⟩ := (List.eq_nil_or_concat' p.elements).resolve_left p.ne_nil
  have hinit : parentPath p.elements = init := by rw [helements, parentPath, List.dropLast_concat]
  rw [hinit] at hparent
  have hc : IsComponent c := p.isComponent (helements ▸ List.mem_append_right _ List.mem_cons_self)
  obtain ⟨a, ha, rfl⟩ : ∃ a ∈ w.tree.root.nodes, a.path = init := by
    rcases hparent with rfl | ⟨q, hq, hqdir, rfl⟩
    · exact ⟨.root, hwellFormed.root_mem, rfl⟩
    · exact h.dirs q hq hqdir
  obtain ⟨attributes, hattr, htype⟩ := id hdir
  rw [packEntry_of_ne_file hattr (by rcases htype with h | h <;> simp [h]),
    if_neg (by rcases htype with h | h <;> simp [h])] at hpack
  obtain ⟨node, parent, tree, hadd, hnode, hle, hname, hnameSize, htype', hdata, rfl⟩ :=
    writeDirSubdir_appends h.f_eq hpack
  have hstrtok : strtok p.fn = a.path ++ [c] := p.strtok_fn.trans helements
  -- a directory that is there already is not added twice: the packer stops
  rcases hwellFormed.braTreeDirAdd_below ha hstrtok with ⟨hnone, -⟩ | ⟨hnew, heq⟩
  · rw [hnone] at hadd
    cases hadd
  · have hcount' : count < 2 ^ 32 := by omega
    obtain ⟨tree', hchild, hwellFormed', hperm⟩ := hwellFormed.addChildNode_spec hcount' ha hc hnew
    obtain ⟨rfl, rfl⟩ := Prod.mk.inj (Option.some.inj ((heq.trans hchild).symm.trans hadd))
    obtain rfl := Option.some.inj hnode
    have hname : me.name = c.bytes := hname
    have hnameSize : me.nameSize = UInt8.ofNat me.name.length := by
      rw [hname]
      exact hnameSize
    have hlength : me.name.length ≤ 255 := by
      rw [hname]
      exact hle
    have hindex : a.index < 2 ^ 32 := Nat.lt_trans (hwellFormed.index_lt ha) hcount'
    have hstorable : me.IsStorable := by
      refine ⟨hname ▸ c.nul_free, ?_, hlength, hnameSize, ?_⟩
      · rw [hname]
        exact List.length_pos_of_ne_nil hc.ne_nil
      · rw [hdata]
        split at htype'
        · rwa [if_pos ‹_›]
        · rwa [if_neg ‹_›]
    -- what is written, and that it is what readDir reads back
    have himage : me.commonHeader ++ me.entryData.image = me.fieldsImage := by
      rw [MetaEntry.fieldsImage, commonHeader_eq hlength rfl hnameSize]
    have hpath : braTreeDirReconstructPath (.dir count c a) = p.path := by
      have hmem : TreeNode.dir count c a ∈ tree'.root.nodes :=
        hperm.mem_iff.mpr List.mem_cons_self
      rw [hwellFormed'.reconstructPath_eq hmem, PackedPath.path, helements, TreeNode.path]
    refine ⟨me.fieldsImage ++ leBytes 4 me.crc32.toNat, ?_, fun _ => ?_, ?_⟩
    · refine ⟨?_, ⟨count + 1, ?_, hwellFormed'⟩, ?_, hperm.mem_iff.mpr List.mem_cons_self,
        .inr ⟨p, rfl, helements.symm⟩, rfl⟩
      · rw [IoFileCtx.writeCrc32, himage, braIoFileWrite_ioAt_nil, List.append_assoc]
      · rw [List.length_append, List.length_singleton]
        omega
      · intro q hq hqdir
        rcases List.mem_append.mp hq with hq | hq
        · obtain ⟨b, hb, hpath⟩ := h.dirs q hq hqdir
          exact ⟨b, hperm.mem_iff.mpr (List.mem_cons_of_mem _ hb), hpath⟩
        · obtain rfl := List.mem_singleton.mp hq
          exact ⟨_, hperm.mem_iff.mpr List.mem_cons_self, helements.symm⟩
    · rw [hdata]
      split
      · rfl
      · rw [EntryData.wrap, Nat.mod_eq_of_lt hindex]
    · intro rd pre rest htree hlast hf
      have hinsert : braTreeDirInsertAtParent rd.tree a.index c =
          some (.dir count c a, tree') := by
        rw [htree, hwellFormed.braTreeDirInsertAtParent_eq ha hc, hchild]
      rw [List.append_assoc] at hf
      rw [← hpath]
      exact readDir_fieldsImage hstorable hname hindex htype' hdata hf hinsert

/-- **One entry**: whatever the writer appends, the reader that is in step with it gets to the
entry that was built, under the path the packer has accepted. -/
theorem PackerAfter.step (hfiles : NoDelimitedFile fs s) (h : PackerAfter fs s l bytes w)
    (hfirst : ParentsFirst fs s (l ++ [p])) (hlength : l.length + 1 < 2 ^ 32)
    (hpack : packEntry fs qsortR s w p.fn compress = some (me, w')) :
    ∃ image, Packed fs s l bytes image w (w'.writeCrc32 me) p me := by
  have hdirCase : IsDir fs s p.fn →
      ∃ image, Packed fs s l bytes image w (w'.writeCrc32 me) p me := fun hdir =>
    h.dir hlength hdir (hfirst l p [] rfl hdir) hpack
  obtain ⟨attributes, hattr, -⟩ := Option.bind_eq_some_iff.mp hpack
  cases htype : braAttrType attributes with
  | file => exact h.file hfiles hattr htype hpack
  | dir => exact hdirCase ⟨attributes, hattr, .inl htype⟩
  | subdir => exact hdirCase ⟨attributes, hattr, .inr htype⟩
  | sym =>
    rw [packEntry_of_ne_file hattr (by simp [htype]), if_pos htype] at hpack
    cases hpack

/-- The same for a path that has been encoded. -/
theorem PackerAfter.encode (hfiles : NoDelimitedFile fs s) (h : PackerAfter fs s l bytes w)
    (hfirst : ParentsFirst fs s (l ++ [p])) (hlength : l.length + 1 < 2 ^ 32)
    (hencode : braIoFileCtxEncodeAndWriteToDisk fs qsortR s w p.fn compress = some w') :
    ∃ me image, Packed fs s l bytes image w w' p me := by
  rw [braIoFileCtxEncodeAndWriteToDisk_eq] at hencode
  obtain ⟨⟨me, w₁⟩, hpack, rfl⟩ := Option.map_eq_some_iff.mp hencode
  exact ⟨me, h.step hfiles hfirst hlength hpack⟩

/-- The context in which the first entry is written, behind the module of an SFX if there is
one. -/
def openedArchive (sfx : Bytes) (numFiles : Nat) : IoFileCtx :=
  braIoFileCtxWriteHeader (braIoFileCtxOpen (ioAt sfx [])) numFiles

/-- **The run**: what holds of the writer after any number of entries. -/
theorem packer_run (hfiles : NoDelimitedFile fs s) (hfirst : ParentsFirst fs s l)
    (hlength : l.length < 2 ^ 32) (sfx : Bytes) (numFiles : Nat)
    (hw : encodeEntries fs qsortR s compress (l.map PackedPath.fn) (openedArchive sfx numFiles) =
      some w) : ∃ bytes, PackerAfter fs s l bytes w := by
  induction l using List.reverseRecOn generalizing w with
  | nil =>
    obtain rfl := Option.some.inj hw
    refine ⟨sfx ++ (leBytes 4 braMagic ++ leBytes 4 numFiles), braIoFileWrite_ioAt_nil _ _,
      ⟨1, Nat.le_refl _, braTreeDirCreate_wellFormed⟩, fun q hq => absurd hq List.not_mem_nil,
      braTreeDirCreate_wellFormed.root_mem, .inl ⟨rfl, rfl⟩, rfl⟩
  | append_singleton l p ih =>
    rw [List.length_append, List.length_singleton] at hlength
    rw [List.map_append, encodeEntries_append] at hw
    obtain ⟨w₁, hw₁, hencode⟩ := Option.bind_eq_some_iff.mp hw
    obtain ⟨bytes, h⟩ := ih hfirst.of_append (by omega) hw₁
    have hencode' : braIoFileCtxEncodeAndWriteToDisk fs qsortR s w₁ p.fn compress = some w :=
      (Option.bind_fun_some _).symm.trans hencode
    obtain ⟨me, image, hpacked⟩ := h.encode hfiles hfirst hlength hencode'
    exact ⟨bytes ++ image, hpacked.after⟩

/-- What the writer has appended is what stands behind the position of the reader. -/
theorem InStep.readsAt {image rest : Bytes} {w w' rd : IoFileCtx}
    (h : InStep (w'.f.data ++ rest) w rd) (hf' : w'.f = ioAt (bytes ++ image) [])
    (hf : w.f = ioAt bytes []) : rd.f = ioAt bytes (image ++ rest) := by
  rw [h.f_eq, hf', hf, ioAt_data, ioAt_pos, ioAt, List.append_nil, List.append_assoc]

/-- The reader that has followed a run of the packer up to an entry gets to the path that
entry was written under. -/
theorem readsEntry_of_run (hfiles : NoDelimitedFile fs s)
    (hfirst : ParentsFirst fs s (l ++ [p])) (hlength : l.length + 1 < 2 ^ 32) {sfx : Bytes}
    {numFiles : Nat}
    (hw : encodeEntries fs qsortR s compress (l.map PackedPath.fn) (openedArchive sfx numFiles) =
      some w)
    (hencode : braIoFileCtxEncodeAndWriteToDisk fs qsortR s w p.fn compress = some w')
    {rest : Bytes} {rd : IoFileCtx} (hrd : InStep (w'.f.data ++ rest) w rd) :
    ReadsEntry rd w' p.path := by
  obtain ⟨bytes, h⟩ := packer_run hfiles hfirst.of_append (by omega) sfx numFiles hw
  obtain ⟨me, image, hpacked⟩ := h.encode hfiles hfirst hlength hencode
  have hf := hrd.readsAt hpacked.after.f_eq h.f_eq
  exact (hpacked.reads rd bytes rest hrd.tree_eq hrd.lastDirNode_eq hf).readsEntry

/-- What the packer has built is what the reader makes of it. -/
theorem readMetaEntry_of_run (hfiles : NoDelimitedFile fs s) (hfit : SizesFit fs s)
    (hfirst : ParentsFirst fs s (l ++ [p])) (hlength : l.length + 1 < 2 ^ 32) {sfx : Bytes}
    {numFiles : Nat}
    (hw : encodeEntries fs qsortR s compress (l.map PackedPath.fn) (openedArchive sfx numFiles) =
      some w)
    (hpack : packEntry fs qsortR s w p.fn compress = some (me, w'))
    {rest : Bytes} {rd : IoFileCtx} (hrd : InStep ((w'.writeCrc32 me).f.data ++ rest) w rd) :
    ∃ rd', braIoFileCtxReadMetaEntry rd = some ({ me with crc32 := braCrc32cInit }, rd') := by
  obtain ⟨bytes, h⟩ := packer_run hfiles hfirst.of_append (by omega) sfx numFiles hw
  obtain ⟨image, hpacked⟩ := h.step hfiles hfirst hlength hpack
  have hf := hrd.readsAt hpacked.after.f_eq h.f_eq
  obtain ⟨rd', buf, len, hread, -⟩ := hpacked.reads rd bytes rest hrd.tree_eq hrd.lastDirNode_eq hf
  rw [MetaEntry.asRead, hpacked.wrap_eq hfit] at hread
  exact ⟨rd', hread⟩

/-- **Of the names the packer accepts, the extractor accepts those that are not foreign.**  In
any run of the packer, the reader that has followed it up to an entry takes the path it was
written under from the archive; that path passes the check unless it looks like one of another
system, and then the entry is not extracted. -/
theorem packedName_accepted_iff (hfiles : NoDelimitedFile fs s)
    (hfirst : ParentsFirst fs s (l ++ [p])) (hlength : l.length + 1 < 2 ^ 32) {sfx : Bytes}
    {numFiles : Nat}
    (hw : encodeEntries fs qsortR s compress (l.map PackedPath.fn) (openedArchive sfx numFiles) =
      some w)
    (hencode : braIoFileCtxEncodeAndWriteToDisk fs qsortR s w p.fn compress = some w')
    {rest : Bytes} {rd : IoFileCtx} (hrd : InStep (w'.f.data ++ rest) w rd) :
    ((∃ path, readPath rd = some path ∧
        braValidateFilename path.bytes path.bytes.length = true) ↔ ¬ IsForeign p.fn.bytes) ∧
      (IsForeign p.fn.bytes → ∀ {τ : Type} (fs' : FileSystem τ) (user : User) (t : τ),
        braIoFileCtxDecodeAndWriteToDisk fs' rd user t = none) := by
  have hread := readsEntry_of_run hfiles hfirst hlength hw hencode hrd
  refine ⟨?_, fun hforeign => ?_⟩
  · rw [hread.readPath_eq, ← p.braValidateFilename_path]
    simp
  · refine hread.decode_eq_none ?_
    rw [← Bool.not_eq_true, p.braValidateFilename_path]
    exact not_not_intro hforeign

end Run

/-- **The fields of an entry.**  An entry that has been read meets the contract just if there is
no NUL among the bytes of its name.  Whatever entry the packer builds in any of its runs is
read back as it is: the checksum is the only field that the reader computes anew. -/
theorem fieldContract_iff (ctx : IoFileCtx) {σ : Type} (fs : FileSystem σ) (qsortR : QsortR)
    (s : σ) (compress : Bool) :
    (∀ me ctx', braIoFileCtxReadMetaEntry ctx = some (me, ctx') →
      (FieldContract ctx.f ctx'.f me ↔ 0 ∉ storedName ctx.f)) ∧
    ∀ (l : List PackedPath) (p : PackedPath) (sfx : Bytes) (numFiles : Nat)
      (w w' rd : IoFileCtx) (me : MetaEntry) (rest : Bytes),
      NoDelimitedFile fs s → SizesFit fs s → ParentsFirst fs s (l ++ [p]) →
      l.length + 1 < 2 ^ 32 →
      encodeEntries fs qsortR s compress (l.map PackedPath.fn) (openedArchive sfx numFiles) =
        some w →
      packEntry fs qsortR s w p.fn compress = some (me, w') →
      InStep ((w'.writeCrc32 me).f.data ++ rest) w rd →
      ∃ rd', braIoFileCtxReadMetaEntry rd = some ({ me with crc32 := braCrc32cInit }, rd') := by
  refine ⟨fun me ctx' hread => ?_, ?_⟩
  · rw [braIoFileCtxReadMetaEntry_eq] at hread
    obtain ⟨⟨me₁, f⟩, hfields, hread⟩ := Option.bind_eq_some_iff.mp hread
    obtain ⟨ctx₁, henter, hread⟩ := Option.map_eq_some_iff.mp hread
    obtain ⟨rfl, rfl⟩ := Prod.mk.inj hread
    rw [enterEntry_f henter]
    exact readFields_contract hfields
  · intro l p sfx numFiles w w' rd me rest hfiles hfit hfirst hlength hw hpack hrd
    exact readMetaEntry_of_run hfiles hfit hfirst hlength hw hpack hrd

/-- The order of the plan is one in which parents come first. -/
theorem IsPlan.parentsFirst {σ : Type} {fs : FileSystem σ} {s : σ} {dirExists : FsPath → Bool}
    {planned : FsPath → Prop} {l : List PackedPath}
    (hplan : IsPlan dirExists planned (l.map PackedPath.elements))
    (hdirs : ∀ p ∈ l, IsDir fs s p.fn ↔ dirExists p.elements)
    (hprefixes : ∀ d a, dirExists d → a ≠ [] → a <+: d → a ≠ d → dirExists a) :
    ParentsFirst fs s l := by
  rintro l₁ p l₂ rfl hdir
  rw [List.map_append, List.map_cons] at hplan
  by_cases hroot : parentPath p.elements = []
  · exact .inl hroot
  · have hexists : dirExists p.elements := (hdirs p (by simp)).mp hdir
    have hpre : parentPath p.elements <+: p.elements := List.dropLast_prefix _
    have hne : parentPath p.elements ≠ p.elements := by
      intro heq
      have hlen := congrArg List.length heq
      have hpos := List.length_pos_of_ne_nil p.ne_nil
      rw [parentPath, List.length_dropLast] at hlen
      omega
    obtain ⟨xs, ys, zs, hsplit⟩ := hplan.ancestors_first _ (by simp) hexists _ hroot hpre hne
    -- the directory is in the plan once, so that its parent is among the entries before it
    have hnodup := List.nodup_middle.mp hplan.nodup
    rw [List.nodup_cons, List.mem_append, not_or] at hnodup
    obtain ⟨⟨hbefore, hafter⟩, -⟩ := hnodup
    obtain ⟨heq, -⟩ := (List.append_cons_inj_of_notMem hbefore hafter).mp hsplit
    have hmem : parentPath p.elements ∈ l₁.map PackedPath.elements := by simp [heq]
    obtain ⟨q, hq, hparent⟩ := List.mem_map.mp hmem
    refine .inr ⟨q, hq, (hdirs q (by simp [hq])).mpr ?_, hparent⟩
    rw [hparent]
    exact hprefixes _ _ hexists hroot hpre hne

/-! ## One file -/

/-- The path of a file in the current directory. -/
def namedFile (c : CStr) (h : IsNormal [c]) : PackedPath := ⟨[c], joinPath [c], h, .inl rfl⟩

/-- A disk with an empty file and nothing else. -/
def onlyFile (p : PackedPath) : DiskView := Function.update (fun _ => none) p.fn (some (.file []))

theorem onlyFile_noDelimitedFile {c : CStr} (hc : IsComponent c) (h : IsNormal [c]) :
    NoDelimitedFile FileSystem.inMemory (onlyFile (namedFile c h)) := by
  intro fn attributes hattr htype
  by_cases hfn : fn = joinPath [c]
  · have hbytes : fn.bytes = c.bytes := by
      rw [hfn]
      exact joinPath_append_singleton [] c
    rw [hbytes]
    exact fun hlast => hc.delim_free (List.mem_of_getLast? hlast)
  · have hnone : onlyFile (namedFile c h) fn = none := Function.update_of_ne hfn _ _
    simp only [FileSystem.inMemory, hnone, reduceCtorEq] at hattr

/-- The file can be archived. -/
theorem encode_onlyFile {c : CStr} (hc : IsEntryName c) (h : IsNormal [c]) :
    ∃ w', braIoFileCtxEncodeAndWriteToDisk FileSystem.inMemory QsortR.mergeSort
      (onlyFile (namedFile c h)) (openedArchive [] 1) (namedFile c h).fn false = some w' := by
  have hlen : (joinPath ([] ++ [c])).bytes.length ≤ 65535 := by
    have hle := hc.length_le
    rw [joinPath_append_singleton, List.length_append]
    simp only [delimited, List.flatMap_nil, List.length_nil]
    omega
  have hf : (openedArchive [] 1).f = ioAt (leBytes 4 braMagic ++ leBytes 4 1) [] :=
    braIoFileWrite_ioAt_nil _ _
  have hnode : id (onlyFile (namedFile c h)) (joinPath ([] ++ [c])) = some (.file []) := by
    rw [id, onlyFile]
    exact Function.update_self _ _ _
  have hdir : (openedArchive [] 1).lastDir = joinPath [] := rfl
  exact ⟨_, encodeFile_ioAt (FileSystem.inMemory_works fun _ => True) QsortR.mergeSort hc hnode hlen
    hf (by simp) hdir rfl⟩

theorem parentsFirst_single {σ : Type} {fs : FileSystem σ} {s : σ} {c : CStr} (h : IsNormal [c]) :
    ParentsFirst fs s [namedFile c h] := by
  intro l₁ p l₂ hl _
  obtain ⟨rfl, hp⟩ := List.append_eq_singleton_iff.mp hl.symm |>.resolve_right (by simp)
  obtain ⟨rfl, -⟩ := List.cons.inj hp
  exact .inl rfl

theorem namedFile_bytes {c : CStr} (h : IsNormal [c]) : (namedFile c h).fn.bytes = c.bytes :=
  joinPath_append_singleton [] c

/-- The reader of an archive with one entry, at that entry. -/
def atFirstEntry (data : Bytes) : IoFileCtx :=
  { openedArchive [] 1 with f := ⟨data, (openedArchive [] 1).f.pos⟩ }

/-! ## Files in directories -/

/-- The directories `d` and `d/e`. -/
def letterDirs : List PackedPath :=
  [⟨[CStr.ofBuffer [100]], _, by decide, .inl rfl⟩,
    ⟨[CStr.ofBuffer [100], CStr.ofBuffer [101]], _, by decide, .inl rfl⟩]

/-- The file `d/e/b` in them. -/
def letterFile : PackedPath :=
  ⟨[CStr.ofBuffer [100], CStr.ofBuffer [101], CStr.ofBuffer [98]], _, by decide, .inl rfl⟩

/-- The reader in step with `w`, of an archive with these bytes. -/
def inStepWith (w : IoFileCtx) (data : Bytes) : IoFileCtx := { w with f := ⟨data, w.f.pos⟩ }

theorem inStepWith_inStep (w : IoFileCtx) (data : Bytes) :
    InStep (data ++ []) w (inStepWith w data) :=
  ⟨rfl, rfl, by rw [List.append_nil]; rfl⟩

/-- What is shown of a disk of letters is one of the entries. -/
theorem letters_shown {fn : CStr} {node : DiskNode}
    (h : planView lettersPlan.entries fn = some node) :
    ∃ e ∈ lettersPlan.entries, e.fn = fn ∧ e.node = node := by
  have hsrc : ∀ e ∈ lettersPlan.entries, planView lettersPlan.entries e.fn = some e.node := by
    decide +kernel
  rw [planView_eq hsrc] at h
  split at h
  · rename_i hfn
    obtain ⟨e, he, rfl⟩ := List.mem_map.mp hfn
    exact ⟨e, he, rfl, Option.some.inj ((hsrc e he).symm.trans h)⟩
  · cases h

theorem letters_noDelimitedFile :
    NoDelimitedFile FileSystem.inMemory (planView lettersPlan.entries) := by
  intro fn attributes hattr _
  have hall : ∀ e ∈ lettersPlan.entries, e.fn.bytes.getLast? ≠ some braDirDelim := by
    decide +kernel
  cases hview : planView lettersPlan.entries fn with
  | none => simp only [FileSystem.inMemory, hview, reduceCtorEq] at hattr
  | some node =>
    obtain ⟨e, he, rfl, -⟩ := letters_shown hview
    exact hall e he

theorem letters_sizesFit : SizesFit FileSystem.inMemory (planView lettersPlan.entries) := by
  intro fn n hsize
  have hall : ∀ e ∈ lettersPlan.entries, ∀ contents, e.node = .file contents →
      contents.length < 2 ^ 64 := by
    simp [lettersPlan, PlanEntry.node]
  cases hview : planView lettersPlan.entries fn with
  | none => simp only [FileSystem.inMemory, hview, reduceCtorEq] at hsize
  | some node =>
    obtain ⟨e, he, rfl, hnode⟩ := letters_shown hview
    cases node with
    | dir => simp only [FileSystem.inMemory, hview, reduceCtorEq] at hsize
    | file contents =>
      simp only [FileSystem.inMemory, hview] at hsize
      rw [← Option.some.inj hsize]
      exact hall e he contents hnode

theorem letters_parentsFirst : ParentsFirst FileSystem.inMemory (planView lettersPlan.entries)
    (letterDirs ++ [letterFile]) := by
  have hdirs : ∀ q ∈ letterDirs, IsDir FileSystem.inMemory (planView lettersPlan.entries) q.fn := by
    have hattr : ∀ q ∈ letterDirs, FileSystem.inMemory.fileAttributes
        (planView lettersPlan.entries) q.fn = some AttrType.dir.bits := by
      decide +kernel
    exact fun q hq => ⟨_, hattr q hq, .inl (by decide)⟩
  have hparents : ∀ i < 3, ∀ p, (letterDirs ++ [letterFile])[i]? = some p →
      parentPath p.elements = [] ∨ ∃ q ∈ letterDirs.take i, q.elements = parentPath p.elements := by
    intro i hi p hp
    interval_cases i <;> obtain rfl := Option.some.inj hp <;> decide
  intro l₁ p l₂ heq _
  have hlen : l₁.length < 3 := by
    have hlen := congrArg List.length heq
    change 3 = _ at hlen
    rw [List.length_append, List.length_cons] at hlen
    omega
  have hp : (letterDirs ++ [letterFile])[l₁.length]? = some p := by
    rw [heq]
    simp
  have hbefore : l₁ = letterDirs.take l₁.length := by
    rw [← List.take_append_of_le_length (Nat.le_of_lt_succ hlen), heq,
      List.take_left]
  refine (hparents _ hlen p hp).imp_right fun h => ?_
  obtain ⟨q, hq, hparent⟩ := h
  exact ⟨q, hbefore ▸ hq, hdirs q (List.mem_of_mem_take hq), hparent⟩

/-- The file `d/e/b`, behind its directories. -/
theorem packedName_accepted_iff_letters :
    ∃ w w', encodeEntries FileSystem.inMemory QsortR.mergeSort (planView lettersPlan.entries) false
        (letterDirs.map PackedPath.fn) (openedArchive [] 3) = some w ∧
      braIoFileCtxEncodeAndWriteToDisk FileSystem.inMemory QsortR.mergeSort
        (planView lettersPlan.entries) w letterFile.fn false = some w' ∧
      ∃ path, readPath (inStepWith w w'.f.data) = some path ∧
        braValidateFilename path.bytes path.bytes.length = true := by
  have hruns : ((encodeEntries FileSystem.inMemory QsortR.mergeSort (planView lettersPlan.entries)
      false (letterDirs.map PackedPath.fn) (openedArchive [] 3)).bind fun w =>
        braIoFileCtxEncodeAndWriteToDisk FileSystem.inMemory QsortR.mergeSort
          (planView lettersPlan.entries) w letterFile.fn false).isSome := by
    decide +kernel
  obtain ⟨w', hw'⟩ := Option.isSome_iff_exists.mp hruns
  obtain ⟨w, hw, hencode⟩ := Option.bind_eq_some_iff.mp hw'
  have hbytes : letterFile.fn.bytes = [100, 47, 101, 47, 98] := by decide
  refine ⟨w, w', hw, hencode, (packedName_accepted_iff letters_noDelimitedFile letters_parentsFirst
    (by decide) hw hencode (inStepWith_inStep w w'.f.data)).1.mpr ?_⟩
  rw [hbytes]
  exact ((braValidateFilename_iff [100, 47, 101, 47, 98]).mp (by decide)).1

/-- The file `c:x`, which is archived and cannot be extracted. -/
theorem driveLetter_archived_not_accepted :
    ∃ w', braIoFileCtxEncodeAndWriteToDisk FileSystem.inMemory QsortR.mergeSort
        (onlyFile (namedFile (CStr.ofBuffer [99, 58, 120]) (by decide))) (openedArchive [] 1)
        (namedFile (CStr.ofBuffer [99, 58, 120]) (by decide)).fn false = some w' ∧
      ∃ path, readPath (atFirstEntry w'.f.data) = some path ∧
        braValidateFilename path.bytes path.bytes.length = false := by
  have hnormal : IsNormal [CStr.ofBuffer [99, 58, 120]] := by decide
  obtain ⟨w', hencode⟩ := encode_onlyFile (by decide) hnormal
  have hstep : InStep (w'.f.data ++ []) (openedArchive [] 1) (atFirstEntry w'.f.data) :=
    ⟨rfl, rfl, by rw [List.append_nil]; rfl⟩
  have hread := readsEntry_of_run (l := []) (onlyFile_noDelimitedFile (by decide) hnormal)
    (parentsFirst_single hnormal) (by decide) rfl hencode hstep
  refine ⟨w', hencode, _, hread.readPath_eq, ?_⟩
  have hbytes : (namedFile _ hnormal).path.bytes = [99, 58, 120] := namedFile_bytes hnormal
  rw [hbytes]
  decide

/-- An archive at the entry of an empty file that has these bytes as its name. -/
def atEmptyFile (name : Bytes) : IoFileCtx :=
  braIoFileCtxOpen (ioAt [] (recordHead AttrType.file.bits name ++ leBytes 8 0))

/-- The file `d/e/b`, as it is packed behind its directories and as it stands in the archive. -/
theorem fieldContract_iff_letters :
    ∃ w me w', encodeEntries FileSystem.inMemory QsortR.mergeSort (planView lettersPlan.entries)
        false (letterDirs.map PackedPath.fn) (openedArchive [] 3) = some w ∧
      packEntry FileSystem.inMemory QsortR.mergeSort (planView lettersPlan.entries) w letterFile.fn
        false = some (me, w') ∧
      ∃ rd', braIoFileCtxReadMetaEntry (inStepWith w (w'.writeCrc32 me).f.data) =
          some ({ me with crc32 := braCrc32cInit }, rd') ∧
        FieldContract (inStepWith w (w'.writeCrc32 me).f.data).f rd'.f
          { me with crc32 := braCrc32cInit } := by
  have hruns : ((encodeEntries FileSystem.inMemory QsortR.mergeSort (planView lettersPlan.entries)
      false (letterDirs.map PackedPath.fn) (openedArchive [] 3)).bind fun w =>
        (packEntry FileSystem.inMemory QsortR.mergeSort (planView lettersPlan.entries) w
          letterFile.fn false).map fun r =>
            (storedName (inStepWith w (r.2.writeCrc32 r.1).f.data).f).contains 0) =
      some false := by
    decide +kernel
  obtain ⟨w, hw, hmap⟩ := Option.bind_eq_some_iff.mp hruns
  obtain ⟨r, hpack, hname⟩ := Option.map_eq_some_iff.mp hmap
  have hiff := fieldContract_iff (inStepWith w (r.2.writeCrc32 r.1).f.data) FileSystem.inMemory
    QsortR.mergeSort (planView lettersPlan.entries) false
  obtain ⟨rd', hread⟩ := hiff.2 letterDirs letterFile [] 3 w r.2 _ r.1 [] letters_noDelimitedFile
    letters_sizesFit letters_parentsFirst (by decide) hw hpack (inStepWith_inStep w _)
  refine ⟨w, r.1, r.2, hw, hpack, rd', hread, (hiff.1 _ _ hread).mpr fun hmem => ?_⟩
  rw [List.contains_iff_mem.mpr hmem] at hname
  cases hname

/-- The name `a`, NUL, `b`: what is left of it is shorter than the size that goes with it. -/
theorem nul_in_name_breaks_contract :
    ∃ me ctx', braIoFileCtxReadMetaEntry (atEmptyFile [97, 0, 98]) = some (me, ctx') ∧
      me.name = [97] ∧ me.nameSize = 3 ∧
      ¬ FieldContract (atEmptyFile [97, 0, 98]).f ctx'.f me := by
  refine ⟨_, _, rfl, by decide, by decide, fun hcontract => ?_⟩
  exact absurd hcontract.name_length (by decide)

end BrArchive
