import BrArchive.CompressFallback
import BrArchive.EntryRecords

/-! # The fields of an entry

What stands in an archive for an entry besides the contents of a file: a header, and behind
it the size of a file or the index of a parent directory.  The reader turns these bytes into
a `bra_meta_entry_t`, and the functions that write one turn it back into bytes.  The size of
the name is carried along with the name, which is a C string: the two agree unless there is
a NUL among the bytes of the name.
-/
namespace BrArchive

/-! ## Reading and writing the fields -/

/-- The part of `bra_io_file_ctx_read_meta_entry` that reads the archive. -/
def readFields (f : IoFile) : Option (MetaEntry × IoFile) := do
  let (me, f) ← braIoFileMetaEntryReadCommonHeader f
  match braAttrType me.attributes with
  | .file => braIoFileMetaEntryReadFileEntry f me
  | .dir => return (me, f)
  | .subdir => braIoFileMetaEntryReadSubdirEntry f me
  | .sym => none

/-- A directory is put into the tree. -/
def enterDir (ctx : IoFileCtx) (parentIndex : Nat) (name : CStr) : Option IoFileCtx := do
  let (lastDirNode, tree) ← braTreeDirInsertAtParent ctx.tree parentIndex name
  return { ctx with tree, lastDirNode }

/-- The part that changes the tree. -/
def enterEntry (ctx : IoFileCtx) (me : MetaEntry) : Option IoFileCtx :=
  match braAttrType me.attributes with
  | .file => some ctx
  | .dir => enterDir ctx 0 (CStr.ofBuffer me.name)
  | .subdir => enterDir ctx me.parentIndex (CStr.ofBuffer me.name)
  | .sym => none

theorem enterEntry_f {ctx ctx' : IoFileCtx} {me : MetaEntry} (h : enterEntry ctx me = some ctx') :
    ctx'.f = ctx.f := by
  have henter : ∀ {parentIndex name}, enterDir ctx parentIndex name = some ctx' →
      ctx'.f = ctx.f := by
    intro parentIndex name h
    obtain ⟨r, -, h⟩ := Option.bind_eq_some_iff.mp h
    rw [← Option.some.inj h]
  rw [enterEntry] at h
  split at h
  · rw [Option.some.inj h]
  · exact henter h
  · exact henter h
  · cases h

/-- The functions that write an entry, one after the other. -/
def writeFields (f : IoFile) (me : MetaEntry) : Option IoFile :=
  let f := braIoFileMetaEntryWriteCommonHeader f me
  match braAttrType me.attributes with
  | .file => braIoFileMetaEntryWriteFileEntry f me
  | .dir => some f
  | .subdir => braIoFileMetaEntryWriteSubdirEntry f me
  | .sym => none

/-- Reading an entry is reading its fields and then, for a directory, changing the tree. -/
theorem braIoFileCtxReadMetaEntry_eq (ctx : IoFileCtx) :
    braIoFileCtxReadMetaEntry ctx =
      (readFields ctx.f).bind fun r => (enterEntry { ctx with f := r.2 } r.1).map (r.1, ·) := by
  rw [braIoFileCtxReadMetaEntry, readFields]
  cases hheader : braIoFileMetaEntryReadCommonHeader ctx.f with
  | none => rfl
  | some r =>
    obtain ⟨me, f⟩ := r
    simp only [Option.bind_eq_bind, Option.bind_some]
    cases htype : braAttrType me.attributes with
    | file =>
      simp only [braIoFileMetaEntryReadFileEntry, braMetaEntryFileSet, htype, ne_eq,
        not_true_eq_false, if_false, Option.bind_eq_bind, Option.bind_some]
      cases braIoFileRead f 8 with
      | none => rfl
      | some r => simp only [Option.bind_some, Option.pure_def, enterEntry, htype, Option.map_some]
    | dir =>
      simp only [Option.pure_def, Option.bind_some, enterEntry, htype, enterDir]
      cases braTreeDirInsertAtParent ctx.tree 0 (CStr.ofBuffer me.name) <;> rfl
    | subdir =>
      simp only [braIoFileMetaEntryReadSubdirEntry, braMetaEntrySubdirSet, htype, ne_eq,
        not_true_eq_false, if_false, Option.bind_eq_bind, Option.bind_some]
      cases braIoFileRead f 4 with
      | none => rfl
      | some r =>
        simp only [Option.bind_some, Option.pure_def, enterEntry, htype, enterDir,
          MetaEntry.parentIndex]
        cases braTreeDirInsertAtParent ctx.tree (leValue r.1) (CStr.ofBuffer me.name) <;> rfl
    | sym => rfl

/-- The size of a file, or the index of a parent. -/
def EntryData.image : EntryData → Bytes
  | none => []
  | file dataSize => leBytes 8 dataSize
  | subdir parentIndex => leBytes 4 parentIndex

/-- The data that an entry of this type comes with. -/
def EntryData.Fits : EntryData → AttrType → Prop
  | none, type => type = .dir
  | file _, type => type = .file
  | subdir _, type => type = .subdir

/-- The data in the integers of eight and of four bytes that hold them. -/
def EntryData.wrap : EntryData → EntryData
  | none => none
  | file dataSize => file (dataSize % 2 ^ 64)
  | subdir parentIndex => subdir (parentIndex % 2 ^ 32)

@[simp] theorem braAttrType_setType (a : UInt8) (type : AttrType) :
    braAttrType (braAttrSetType a type) = type := by
  have hmask : ~~~(0x03 : UInt8) &&& 0x03 = 0 := by decide
  have hbits : type.bits &&& 0x03 = type.bits := by cases type <;> decide
  rw [braAttrType, braAttrSetType, UInt8.or_and_distrib, UInt8.and_assoc, hmask, UInt8.and_zero,
    UInt8.zero_or, hbits]
  cases type <;> rfl

/-- The start of a record: attributes, the size of a name and the name. -/
def recordHead (attributes : UInt8) (name : Bytes) : Bytes :=
  [attributes, UInt8.ofNat name.length] ++ name

theorem toNat_length {name : Bytes} (hle : name.length ≤ 255) :
    (UInt8.ofNat name.length).toNat = name.length := by
  rw [UInt8.toNat_ofNat']
  exact Nat.mod_eq_of_lt (by omega)

theorem commonHeader_eq {me : MetaEntry} {name : Bytes} (hle : name.length ≤ 255)
    (hname : me.name = name) (hsize : me.nameSize = UInt8.ofNat name.length) :
    me.commonHeader = recordHead me.attributes name := by
  rw [MetaEntry.commonHeader, hsize, toNat_length hle, hname, List.take_left, recordHead]
  rfl

/-! ## What has been read -/

/-- A header that has been read stands behind the position, and its name is what the C string
in its bytes is. -/
theorem readCommonHeader_split {f f' : IoFile} {me : MetaEntry}
    (h : braIoFileMetaEntryReadCommonHeader f = some (me, f')) :
    ∃ pre attr buf post, 0 < buf.length ∧ buf.length ≤ 255 ∧
      f = ioAt pre (recordHead attr buf ++ post) ∧ f' = ioAt (pre ++ recordHead attr buf) post ∧
      me = braMetaEntryInit attr buf (UInt8.ofNat buf.length) := by
  rw [braIoFileMetaEntryReadCommonHeader] at h
  obtain ⟨⟨attr, f₁⟩, hattr, h⟩ := Option.bind_eq_some_iff.mp h
  obtain ⟨⟨bufSize, f₂⟩, hsize, h⟩ := Option.bind_eq_some_iff.mp h
  dsimp only at h
  split at h
  · cases h
  · rename_i hzero
    obtain ⟨⟨buf, f₃⟩, hbuf, h⟩ := Option.bind_eq_some_iff.mp h
    obtain ⟨rfl, rfl⟩ := Prod.mk.inj (Option.some.inj h)
    obtain ⟨hattrLen, pre, post, rfl, rfl⟩ := braIoFileRead_split hattr
    obtain ⟨hsizeLen, pre₁, post₁, hf₁, rfl⟩ := braIoFileRead_split hsize
    obtain ⟨hbufLen, pre₂, post₂, hf₂, rfl⟩ := braIoFileRead_split hbuf
    obtain ⟨rfl, rfl⟩ := ioAt_inj hf₁
    obtain ⟨rfl, rfl⟩ := ioAt_inj hf₂
    obtain ⟨a, rfl⟩ := List.length_eq_one_iff.mp hattrLen
    obtain ⟨b, rfl⟩ := List.length_eq_one_iff.mp hsizeLen
    have hb : ∀ c : UInt8, leValue [c] = c.toNat := fun c => Nat.add_zero _
    rw [hb] at hbufLen hzero
    have hsize : UInt8.ofNat buf.length = b := by rw [hbufLen, UInt8.ofNat_toNat]
    have hlt := b.toNat_lt
    refine ⟨pre, a, buf, post₂, by omega, by omega, ?_, ?_, ?_⟩
    · rw [recordHead, hsize]
      rfl
    · rw [recordHead, hsize]
      simp only [List.append_assoc, List.cons_append, List.nil_append]
    · rw [hb, hb, UInt8.ofNat_toNat, UInt8.ofNat_toNat, hsize]

/-- **What `readFields` has read**: a header and the data that its type calls for. -/
theorem readFields_split {f f' : IoFile} {me : MetaEntry} (h : readFields f = some (me, f')) :
    ∃ pre buf post, 0 < buf.length ∧ buf.length ≤ 255 ∧
      f = ioAt pre (recordHead me.attributes buf ++ me.entryData.image ++ post) ∧
      f' = ioAt (pre ++ (recordHead me.attributes buf ++ me.entryData.image)) post ∧
      me = { braMetaEntryInit me.attributes buf (UInt8.ofNat buf.length) with
        entryData := me.entryData } ∧
      me.entryData.Fits (braAttrType me.attributes) := by
  rw [readFields] at h
  obtain ⟨⟨me₀, f₀⟩, hheader, h⟩ := Option.bind_eq_some_iff.mp h
  obtain ⟨pre, attr, buf, post, hpos, hle, rfl, rfl, rfl⟩ := readCommonHeader_split hheader
  dsimp only at h
  split at h
  · -- a file: eight bytes with its size
    rename_i htype
    have htype' : braAttrType attr = .file := htype
    rw [braIoFileMetaEntryReadFileEntry, braMetaEntryFileSet, if_neg (not_not_intro htype)] at h
    simp only [Option.bind_eq_bind, Option.bind_some] at h
    obtain ⟨⟨dataSize, f₁⟩, hread, h⟩ := Option.bind_eq_some_iff.mp h
    obtain ⟨rfl, rfl⟩ := Prod.mk.inj (Option.some.inj h)
    obtain ⟨hlen, pre₁, post₁, hf, rfl⟩ := braIoFileRead_split hread
    obtain ⟨rfl, rfl⟩ := ioAt_inj hf
    have himage : leBytes 8 (leValue dataSize) = dataSize := hlen ▸ leBytes_leValue dataSize
    refine ⟨pre, buf, post₁, hpos, hle, ?_, ?_, rfl, htype'⟩
    · simp only [EntryData.image, himage, List.append_assoc, braMetaEntryInit]
    · simp only [EntryData.image, himage, List.append_assoc, braMetaEntryInit]
  · -- a directory below the root: nothing
    rename_i htype
    have htype' : braAttrType attr = .dir := htype
    obtain ⟨rfl, rfl⟩ := Prod.mk.inj (Option.some.inj h)
    have hdata : (braMetaEntryInit attr buf (UInt8.ofNat buf.length)).entryData = .none := by
      rw [braMetaEntryInit, htype']
    refine ⟨pre, buf, post, hpos, hle, ?_, ?_, rfl, ?_⟩
    · rw [hdata, EntryData.image, List.append_nil]
      rfl
    · rw [hdata, EntryData.image, List.append_nil]
      rfl
    · rw [hdata]
      exact htype'
  · -- a directory below another one: four bytes with the index of that one
    rename_i htype
    have htype' : braAttrType attr = .subdir := htype
    rw [braIoFileMetaEntryReadSubdirEntry, if_neg (not_not_intro htype), braMetaEntrySubdirSet,
      if_neg (not_not_intro htype)] at h
    simp only [Option.bind_eq_bind, Option.bind_some] at h
    obtain ⟨⟨parentIndex, f₁⟩, hread, h⟩ := Option.bind_eq_some_iff.mp h
    obtain ⟨rfl, rfl⟩ := Prod.mk.inj (Option.some.inj h)
    obtain ⟨hlen, pre₁, post₁, hf, rfl⟩ := braIoFileRead_split hread
    obtain ⟨rfl, rfl⟩ := ioAt_inj hf
    have himage : leBytes 4 (leValue parentIndex) = parentIndex :=
      hlen ▸ leBytes_leValue parentIndex
    refine ⟨pre, buf, post₁, hpos, hle, ?_, ?_, rfl, htype'⟩
    · simp only [EntryData.image, himage, List.append_assoc, braMetaEntryInit]
    · simp only [EntryData.image, himage, List.append_assoc, braMetaEntryInit]
  · cases h

/-- The bytes that the archive holds as the name of the next entry. -/
def storedName (f : IoFile) : Bytes :=
  (f.data.drop (f.pos + 2)).take (f.data.getD (f.pos + 1) 0).toNat

theorem storedName_recordHead (pre : Bytes) (attributes : UInt8) {buf : Bytes}
    (hle : buf.length ≤ 255) (rest : Bytes) :
    storedName (ioAt pre (recordHead attributes buf ++ rest)) = buf := by
  have hsize : (pre ++ (recordHead attributes buf ++ rest)).getD (pre.length + 1) 0 =
      UInt8.ofNat buf.length := by
    rw [List.getD_append_right _ _ _ _ (Nat.le_add_right _ _), Nat.add_sub_cancel_left]
    rfl
  rw [storedName, ioAt_data, ioAt_pos, hsize, toNat_length hle, List.drop_append,
    List.drop_eq_nil_of_le (Nat.le_add_right _ _), Nat.add_sub_cancel_left]
  exact List.take_left

/-- **Reading fields** that stand behind the position, whatever comes after them. -/
theorem readFields_bytes {attributes : UInt8} {buf : Bytes} {data : EntryData}
    (hpos : 0 < buf.length) (hle : buf.length ≤ 255)
    (hfits : data.Fits (braAttrType attributes)) (pre rest : Bytes) :
    readFields (ioAt pre (recordHead attributes buf ++ data.image ++ rest)) =
      some ({ braMetaEntryInit attributes buf (UInt8.ofNat buf.length) with
          entryData := data.wrap },
        ioAt (pre ++ (recordHead attributes buf ++ data.image)) rest) := by
  have hheader := braIoFileMetaEntryReadCommonHeader_bytes hpos hle attributes pre
    (data.image ++ rest)
  rw [← recordHead, ← List.append_assoc] at hheader
  rw [readFields, hheader]
  simp only [Option.bind_eq_bind, Option.bind_some, braMetaEntryInit]
  generalize recordHead attributes buf = head
  cases data with
  | none =>
    have htype : braAttrType attributes = .dir := hfits
    simp only [htype, EntryData.image, EntryData.wrap, List.append_nil, List.nil_append,
      Option.pure_def]
  | file dataSize =>
    have htype : braAttrType attributes = .file := hfits
    have hread := braIoFileRead_ioAt (pre ++ head) (leBytes 8 dataSize) rest (leBytes_length 8 _)
    simp only [htype, braIoFileMetaEntryReadFileEntry, braMetaEntryFileSet, ne_eq,
      not_true_eq_false, if_false, Option.bind_eq_bind, Option.bind_some, EntryData.image, hread,
      leValue_leBytes, List.append_assoc, Option.pure_def]
    rfl
  | subdir parentIndex =>
    have htype : braAttrType attributes = .subdir := hfits
    have hread := braIoFileRead_ioAt (pre ++ head) (leBytes 4 parentIndex) rest
      (leBytes_length 4 _)
    simp only [htype, braIoFileMetaEntryReadSubdirEntry, braMetaEntrySubdirSet, ne_eq,
      not_true_eq_false, if_false, Option.bind_eq_bind, Option.bind_some, EntryData.image, hread,
      leValue_leBytes, List.append_assoc, Option.pure_def]
    rfl

/-- What has been read does not depend on what comes after it. -/
theorem readFields_rest {f f' : IoFile} {me : MetaEntry} (h : readFields f = some (me, f')) :
    ∃ pre head post, f = ioAt pre (head ++ post) ∧ f' = ioAt (pre ++ head) post ∧
      ∀ rest, readFields (ioAt pre (head ++ rest)) = some (me, ioAt (pre ++ head) rest) := by
  obtain ⟨pre, buf, post, hpos, hle, rfl, rfl, -, hfits⟩ := readFields_split h
  have hbytes := readFields_bytes hpos hle hfits pre
  obtain ⟨hme, -⟩ := Prod.mk.inj (Option.some.inj (h.symm.trans (hbytes post)))
  refine ⟨pre, _, post, rfl, rfl, fun rest => ?_⟩
  rw [hbytes rest, ← hme]

/-! ## Entries that are written and read alike -/

/-- An entry with a name that a C string holds, and with the data that its type comes with. -/
structure MetaEntry.IsStorable (me : MetaEntry) : Prop where
  nul_free : 0 ∉ me.name
  length_pos : 0 < me.name.length
  length_le : me.name.length ≤ 255
  nameSize_eq : me.nameSize = UInt8.ofNat me.name.length
  fits : me.entryData.Fits (braAttrType me.attributes)

/-- The entry that reading this one gives.  Its checksum is yet to be computed. -/
def MetaEntry.asRead (me : MetaEntry) : MetaEntry :=
  { me with entryData := me.entryData.wrap, crc32 := braCrc32cInit }

/-- Header and data of an entry. -/
def MetaEntry.fieldsImage (me : MetaEntry) : Bytes :=
  recordHead me.attributes me.name ++ me.entryData.image

section Storable
variable {me : MetaEntry} (hme : me.IsStorable)
include hme

/-- Writing an entry adds its image. -/
theorem MetaEntry.IsStorable.writeFields_eq (dst : IoFile) :
    writeFields dst me = some (braIoFileWrite dst me.fieldsImage) := by
  have hheader := commonHeader_eq hme.length_le rfl hme.nameSize_eq
  have hfits := hme.fits
  rw [writeFields, MetaEntry.fieldsImage]
  simp only [braIoFileMetaEntryWriteCommonHeader_eq, hheader]
  cases hdata : me.entryData with
  | none =>
    have htype : braAttrType me.attributes = .dir := by rwa [hdata] at hfits
    simp only [htype, EntryData.image, List.append_nil]
  | file dataSize =>
    have htype : braAttrType me.attributes = .file := by rwa [hdata] at hfits
    simp only [htype, braIoFileMetaEntryWriteFileEntry, ne_eq, not_true_eq_false, if_false,
      MetaEntry.dataSize, hdata, EntryData.image, braIoFileWrite_append]
  | subdir parentIndex =>
    have htype : braAttrType me.attributes = .subdir := by rwa [hdata] at hfits
    simp only [htype, braIoFileMetaEntryWriteSubdirEntry, ne_eq, not_true_eq_false, if_false,
      MetaEntry.parentIndex, hdata, EntryData.image, braIoFileWrite_append]

/-- Reading this image gives the entry back. -/
theorem MetaEntry.IsStorable.readFields_eq (pre rest : Bytes) :
    readFields (ioAt pre (me.fieldsImage ++ rest)) =
      some (me.asRead, ioAt (pre ++ me.fieldsImage) rest) := by
  rw [MetaEntry.fieldsImage, readFields_bytes hme.length_pos hme.length_le hme.fits,
    MetaEntry.asRead, braMetaEntryInit, cString_eq_self hme.nul_free, ← hme.nameSize_eq]

end Storable

/-! ## The contract -/

/-- What the rest of the code relies on in an entry that has been read from `f`, the next bytes
being at `f'`. -/
structure FieldContract (f f' : IoFile) (me : MetaEntry) : Prop where
  /-- `name_size` bytes of the name are all of it, and no more. -/
  name_length : me.name.length = me.nameSize.toNat
  nul_free : 0 ∉ me.name
  nameSize_pos : 0 < me.nameSize.toNat
  /-- Written back, it is the bytes that were read. -/
  writeFields_eq : ∀ dst,
    writeFields dst me = some (braIoFileWrite dst ((f.data.drop f.pos).take (f'.pos - f.pos)))

theorem cString_length_eq_iff {buf : Bytes} : (cString buf).length = buf.length ↔ 0 ∉ buf := by
  refine ⟨fun h h0 => ?_, fun h => by rw [cString_eq_self h]⟩
  have heq : cString buf = buf := (List.takeWhile_prefix _).eq_of_length h
  exact cString_nul_free buf (heq.symm ▸ h0)

/-- The contract holds of what has been read unless there is a NUL in the name. -/
theorem readFields_contract {f f' : IoFile} {me : MetaEntry} (h : readFields f = some (me, f')) :
    FieldContract f f' me ↔ 0 ∉ storedName f := by
  obtain ⟨pre, buf, post, hpos, hle, rfl, rfl, hme, hfits⟩ := readFields_split h
  have hsize : me.nameSize = UInt8.ofNat buf.length := congrArg MetaEntry.nameSize hme
  have hname : me.name = cString buf := congrArg MetaEntry.name hme
  rw [List.append_assoc, storedName_recordHead pre me.attributes hle]
  refine ⟨fun hcontract => ?_, fun hfree => ?_⟩
  · have hlen := hcontract.name_length
    rw [hsize, toNat_length hle, hname] at hlen
    exact cString_length_eq_iff.mp hlen
  · rw [cString_eq_self hfree] at hname
    have hstorable : me.IsStorable := by
      refine ⟨hname ▸ hfree, hname ▸ hpos, hname ▸ hle, ?_, hfits⟩
      rw [hname, hsize]
    refine ⟨?_, hstorable.nul_free, ?_, fun dst => ?_⟩
    · rw [hsize, toNat_length hle, hname]
    · rw [hsize, toNat_length hle]
      exact hpos
    · rw [hstorable.writeFields_eq, MetaEntry.fieldsImage, hname, ioAt_data, ioAt_pos, ioAt_pos,
        List.drop_left, List.length_append, Nat.add_sub_cancel_left, ← List.append_assoc,
        List.take_left]

/-! ## What the packer builds -/

theorem drop_eq_charAt_cons {fn : Bytes} {i : Nat} (h : charAt fn i ≠ 0) :
    fn.drop i = charAt fn i :: fn.drop (i + 1) := by
  have hlt : i < fn.length := by
    by_contra hge
    rw [charAt, List.getD_eq_default fn 0 (not_lt.mp hge)] at h
    exact h rfl
  rw [charAt, List.getD_eq_getElem fn 0 hlt]
  exact List.drop_eq_getElem_cons hlt

/-- The name of a file is what stands behind the current directory. -/
theorem entryName_eq_some {ctx : IoFileCtx} {fn : CStr} {name : Bytes}
    (hsize : ctx.lastDirSize = ctx.lastDir.bytes.length) (hrelative : ¬ [47] <+: fn.bytes)
    (h : entryName ctx fn = some name) :
    name.length ≤ 255 ∧ ((ctx.lastDir.bytes = [] ∧ fn.bytes = name) ∨
      (ctx.lastDir.bytes ≠ [] ∧ fn.bytes = ctx.lastDir.bytes ++ braDirDelim :: name)) := by
  rw [entryName, hsize] at h
  dsimp only at h
  split at h
  · cases h
  · split at h
    · cases h
    · rename_i hfit hprefix
      split at h
      · cases h
      · rename_i hdelim
        rw [not_and, not_lt, Nat.le_zero, List.length_eq_zero_iff] at hdelim
        split at h
        · -- behind a directory there is a delimiter, which does not belong to the name
          rename_i hchar
          split at h
          · cases h
          · rename_i hle
            obtain rfl := Option.some.inj h
            rw [← List.length_drop, not_lt] at hle
            refine ⟨hle, ?_⟩
            by_cases hdir : ctx.lastDir.bytes = []
            · rw [hdir] at hchar
              exact absurd ((charAt_zero_iff (by decide) _).mp (beq_iff_eq.mpr hchar)) hrelative
            · refine .inr ⟨hdir, ?_⟩
              have hpos : 0 < ctx.lastDir.bytes.length := List.length_pos_of_ne_nil hdir
              have htake : ctx.lastDir.bytes = fn.bytes.take ctx.lastDir.bytes.length := by
                by_contra hne
                exact hprefix ⟨hpos, by rwa [List.take_length]⟩
              have hdrop : fn.bytes.drop ctx.lastDir.bytes.length = braDirDelim ::
                  fn.bytes.drop (ctx.lastDir.bytes.length + 1) := by
                rw [← hchar]
                exact drop_eq_charAt_cons (by rw [hchar]; decide)
              calc fn.bytes
                  = fn.bytes.take ctx.lastDir.bytes.length ++
                      fn.bytes.drop ctx.lastDir.bytes.length := (List.take_append_drop _ _).symm
                _ = _ := by rw [← htake, hdrop]
        · -- without a delimiter there is no directory
          rename_i hchar
          split at h
          · cases h
          · rename_i hle
            obtain rfl := Option.some.inj h
            rw [← List.length_drop, not_lt] at hle
            have hdir := hdelim hchar
            refine ⟨hle, .inl ⟨hdir, ?_⟩⟩
            rw [hdir, List.length_nil, List.drop_zero]

/-- Only files are compressed. -/
theorem setComp_of_ne_file {attributes : UInt8} (h : braAttrType attributes ≠ .file)
    (compress : Bool) :
    (if compress && braAttrType attributes == .file then
      braAttrSetComp attributes braAttrCompCompressed
      else braAttrSetComp attributes braAttrCompStored) =
      braAttrSetComp attributes braAttrCompStored := by
  rw [beq_eq_false_iff_ne.mpr h, Bool.and_false]
  exact if_neg Bool.false_ne_true

section Pack
variable {σ : Type} (fs : FileSystem σ) (qsortR : QsortR) (s : σ)

/-- The entry that the packer builds for a path, and the archive without the checksum that goes
behind it. -/
def packEntry (ctx : IoFileCtx) (fn : CStr) (compress : Bool) :
    Option (MetaEntry × IoFileCtx) := do
  let attributes ← fs.fileAttributes s fn
  let attributes :=
    if compress && braAttrType attributes == .file then
      braAttrSetComp attributes braAttrCompCompressed
    else braAttrSetComp attributes braAttrCompStored
  match braAttrType attributes with
  | .file => braIoFileCtxWriteMetaEntryFile fs qsortR s ctx attributes fn
  | .dir => braIoFileCtxWriteMetaEntryDirSubdir ctx attributes fn
  | .subdir => braIoFileCtxWriteMetaEntryDirSubdir ctx attributes fn
  | .sym => none

/-- Encoding a path is building its entry and writing the checksum. -/
theorem braIoFileCtxEncodeAndWriteToDisk_eq (ctx : IoFileCtx) (fn : CStr) (compress : Bool) :
    braIoFileCtxEncodeAndWriteToDisk fs qsortR s ctx fn compress =
      (packEntry fs qsortR s ctx fn compress).map fun r =>
        { r.2 with f := braIoFileWrite r.2.f (leBytes 4 r.1.crc32.toNat) } := by
  rw [braIoFileCtxEncodeAndWriteToDisk, packEntry]
  cases fs.fileAttributes s fn with
  | none => rfl
  | some attributes =>
    simp only [Option.bind_eq_bind, Option.bind_some, braIoFileCtxWriteMetaEntry,
      Option.map_eq_bind]
    generalize (if compress && braAttrType attributes == .file then _ else _) = attributes
    cases braAttrType attributes <;> rfl

variable {fs qsortR s} {ctx ctx' : IoFileCtx} {fn : CStr} {compress : Bool} {bytes : Bytes}
  {attributes : UInt8} {me : MetaEntry}

/-- **What a file adds** to an archive: the name behind the current directory, a size, and
whatever follows. -/
theorem packFile_appends (hattr : fs.fileAttributes s fn = some attributes)
    (htype : braAttrType attributes = .file) (hf : ctx.f = ioAt bytes [])
    (h : packEntry fs qsortR s ctx fn compress = some (me, ctx')) :
    ∃ name n fileSize data, entryName ctx fn = some name ∧ me.name = cString name ∧
      me.nameSize = UInt8.ofNat name.length ∧ braAttrType me.attributes = .file ∧
      me.entryData = .file n ∧ fs.fileSize s fn = some fileSize ∧ n ≤ fileSize ∧
      ctx' = { ctx with f := ioAt (bytes ++ (me.commonHeader ++ me.entryData.image ++ data)) [] } := by
  rw [packEntry, hattr] at h
  simp only [Option.bind_eq_bind, Option.bind_some] at h
  have htype' : ∀ comp, braAttrType (braAttrSetComp attributes comp) = .file := fun comp =>
    (braAttrType_setComp attributes comp).trans htype
  -- which of the two forms is asked for does not matter
  have hcomp : ∃ comp, (if compress && braAttrType attributes == .file then
      braAttrSetComp attributes braAttrCompCompressed
      else braAttrSetComp attributes braAttrCompStored) = braAttrSetComp attributes comp := by
    split
    · exact ⟨_, rfl⟩
    · exact ⟨_, rfl⟩
  obtain ⟨comp, hcomp⟩ := hcomp
  simp only [hcomp, htype', writeMetaEntryFile_bind qsortR ctx (htype' comp)] at h
  obtain ⟨name, hname, h⟩ := Option.bind_eq_some_iff.mp h
  obtain ⟨fileSize, hsize, h⟩ := Option.bind_eq_some_iff.mp h
  obtain ⟨⟨f, me₁⟩, hflush, h⟩ := Option.map_eq_some_iff.mp h
  obtain ⟨rfl, rfl⟩ := Prod.mk.inj h
  rw [hf] at hflush
  obtain ⟨hflushed, data, rfl⟩ := flushEntryFile_appends hflush
  have hdata : ∃ n, me₁.entryData = .file n ∧ n ≤ fileSize := by
    rcases hflushed.entryData with hdata | ⟨n, hlt, hdata⟩
    · exact ⟨fileSize, hdata, Nat.le_refl _⟩
    · exact ⟨n, hdata, Nat.le_of_lt hlt⟩
  obtain ⟨n, hdata, hle⟩ := hdata
  refine ⟨name, n, fileSize, data, hname, hflushed.name, hflushed.nameSize, hflushed.type, hdata,
    hsize, hle, ?_⟩
  simp only [MetaEntry.dataSize, hdata, EntryData.image, List.append_assoc]

/-- What is not a file is packed as a directory, or it is a link. -/
theorem packEntry_of_ne_file (hattr : fs.fileAttributes s fn = some attributes)
    (htype : braAttrType attributes ≠ .file) :
    packEntry fs qsortR s ctx fn compress =
      if braAttrType attributes = .sym then none
      else braIoFileCtxWriteMetaEntryDirSubdir ctx
        (braAttrSetComp attributes braAttrCompStored) fn := by
  rw [packEntry, hattr]
  simp only [Option.bind_eq_bind, Option.bind_some, setComp_of_ne_file htype, braAttrType_setComp]
  cases htype' : braAttrType attributes with
  | file => exact absurd htype' htype
  | dir => rfl
  | subdir => rfl
  | sym => rfl

/-- **What a directory adds** to an archive: its last component, and the index of its parent if
that is not the root. -/
theorem writeDirSubdir_appends (hf : ctx.f = ioAt bytes [])
    (h : braIoFileCtxWriteMetaEntryDirSubdir ctx attributes fn = some (me, ctx')) :
    ∃ node parent tree, braTreeDirAdd ctx.tree fn = some (node, tree) ∧
      node.parent = some parent ∧ node.dirname.bytes.length ≤ 255 ∧
      me.name = node.dirname.bytes ∧ me.nameSize = UInt8.ofNat node.dirname.bytes.length ∧
      braAttrType me.attributes = (if parent.index = 0 then .dir else .subdir) ∧
      me.entryData = (if parent.index = 0 then .none else .subdir parent.index) ∧
      ctx' = { ctx with
        f := ioAt (bytes ++ (me.commonHeader ++ me.entryData.image)) []
        tree
        lastDirNode := node
        lastDir := fn
        lastDirSize := fn.bytes.length } := by
  rw [braIoFileCtxWriteMetaEntryDirSubdir] at h
  split at h
  · cases h
  · obtain ⟨⟨node, tree⟩, hadd, h⟩ := Option.bind_eq_some_iff.mp h
    obtain ⟨parent, hparent, h⟩ := Option.bind_eq_some_iff.mp h
    dsimp only at h
    split at h
    · cases h
    · rename_i hle
      obtain ⟨me₁, hheader, h⟩ := Option.bind_eq_some_iff.mp h
      have hfields := braComputeHeaderCrc32_fields hheader
      generalize me₁.crc32 = crc32 at hfields
      subst hfields
      have hname : cString node.dirname.bytes = node.dirname.bytes :=
        cString_eq_self node.dirname.nul_free
      refine ⟨node, parent, tree, hadd, hparent, not_lt.mp hle, ?_⟩
      by_cases hindex : parent.index = 0
      · -- in the root: nothing behind the header
        simp only [hindex, if_true, braMetaEntryInit, braAttrType_setType, reduceCtorEq, if_false,
          Option.bind_eq_bind, Option.bind_some, braIoFileMetaEntryFlushEntryDir_eq, true_or,
          Option.pure_def, Option.some_inj, Prod.mk.injEq] at h ⊢
        obtain ⟨rfl, rfl⟩ := h
        refine ⟨hname, rfl, braAttrType_setType _ _, rfl, ?_⟩
        rw [braIoFileMetaEntryWriteCommonHeader_eq, hf, braIoFileWrite_ioAt_nil, EntryData.image,
          List.append_nil]
      · simp only [hindex, if_false, braMetaEntryInit, braAttrType_setType, if_true,
          Option.bind_eq_bind, Option.bind_some, braMetaEntrySubdirSet, ne_eq, not_true_eq_false,
          Option.map_some, MetaEntry.addParentIndex, braIoFileMetaEntryFlushEntrySubdir_eq,
          MetaEntry.parentIndex, Option.pure_def, Option.some_inj, Prod.mk.injEq] at h ⊢
        obtain ⟨rfl, rfl⟩ := h
        refine ⟨hname, rfl, braAttrType_setType _ _, rfl, ?_⟩
        rw [braIoFileMetaEntryWriteCommonHeader_eq, hf, braIoFileWrite_ioAt_nil,
          braIoFileWrite_ioAt_nil, List.append_assoc, EntryData.image]

end Pack

end BrArchive
