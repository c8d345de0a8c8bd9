import BrArchive.FileCtx

/-! # The path of an entry

What all ways of reading an entry share: its header, the path it gets, the checks on the
path and the CRC32 at its end.  Extracting takes the path up to its first NUL; testing
takes it to have the recorded size.  The two differ for a file whose name has a NUL among
its bytes.
-/
namespace BrArchive

/-- The path of an entry: the current directory, and the name of a file below it. -/
def entryPath (ctx : IoFileCtx) (me : MetaEntry) : Bytes :=
  let dirname := (braTreeDirReconstructPath ctx.lastDirNode).bytes
  match braAttrType me.attributes with
  | .file => if dirname.length > 0 then dirname ++ [braDirDelim] ++ me.name else me.name
  | _ => dirname

/-- The path of an entry as it is handed to the file system. -/
def entryFn (ctx : IoFileCtx) (me : MetaEntry) : CStr := CStr.ofBuffer (entryPath ctx me)

/-- The checksum of an entry header with the given path. -/
def headerCrc (attributes : UInt8) (path : Bytes) : BitVec 32 :=
  braCrc32c path (braCrc32c (leBytes 2 path.length) (braCrc32c [attributes] braCrc32cInit))

/-- The entry with the checksum of its header. -/
def MetaEntry.withHeaderCrc (me : MetaEntry) (path : Bytes) : MetaEntry :=
  { me with crc32 := headerCrc me.attributes path }

/-- The name of an entry as it is read: a C string that is no longer than the bytes it
was read from. -/
structure NameRead (me : MetaEntry) : Prop where
  nul_free : 0 ∉ me.name
  le : me.name.length ≤ me.nameSize.toNat

/-! ## Reading the header -/

theorem cString_length_le (buf : Bytes) : (cString buf).length ≤ buf.length :=
  (List.takeWhile_sublist _).length_le

/-- Reading the header moves the position, and reads a name. -/
theorem braIoFileMetaEntryReadCommonHeader_eq_some {f f' : IoFile} {me : MetaEntry}
    (h : braIoFileMetaEntryReadCommonHeader f = some (me, f')) :
    f'.data = f.data ∧ f'.pos ≤ f'.data.length ∧ NameRead me := by
  rw [braIoFileMetaEntryReadCommonHeader] at h
  obtain ⟨⟨attr, f₁⟩, hattr, h⟩ := Option.bind_eq_some_iff.mp h
  obtain ⟨⟨bufSize, f₂⟩, hsize, h⟩ := Option.bind_eq_some_iff.mp h
  dsimp only at h
  split at h
  · cases h
  · obtain ⟨⟨buf, f₃⟩, hbuf, h⟩ := Option.bind_eq_some_iff.mp h
    obtain ⟨rfl, rfl⟩ := Prod.mk.inj (Option.some.inj h)
    obtain ⟨-, rfl, -, -⟩ := braIoFileRead_eq_some hattr
    obtain ⟨hlen, rfl, -, -⟩ := braIoFileRead_eq_some hsize
    obtain ⟨hlen', rfl, hle, -⟩ := braIoFileRead_eq_some hbuf
    have hlt := leValue_lt bufSize
    rw [hlen, Nat.pow_one] at hlt
    refine ⟨rfl, hle, cString_nul_free buf, ?_⟩
    have hnat : (UInt8.ofNat (leValue bufSize)).toNat = leValue bufSize := by
      rw [UInt8.toNat_ofNat']
      exact Nat.mod_eq_of_lt hlt
    have hname := cString_length_le buf
    simp only [braMetaEntryInit, hnat]
    omega

/-- Reading an entry leaves the position inside the archive. -/
theorem braIoFileCtxReadMetaEntry_eq_some {ctx ctx₁ : IoFileCtx} {me : MetaEntry}
    (h : braIoFileCtxReadMetaEntry ctx = some (me, ctx₁)) :
    ctx₁.f.data = ctx.f.data ∧ ctx₁.f.pos ≤ ctx₁.f.data.length ∧ NameRead me := by
  rw [braIoFileCtxReadMetaEntry] at h
  obtain ⟨⟨me₀, f⟩, hheader, h⟩ := Option.bind_eq_some_iff.mp h
  obtain ⟨hdata, hpos, hname⟩ := braIoFileMetaEntryReadCommonHeader_eq_some hheader
  dsimp only at h
  split at h
  · obtain ⟨⟨me₁, f₁⟩, hsubdir, h⟩ := Option.bind_eq_some_iff.mp h
    obtain ⟨⟨node, tree⟩, -, h⟩ := Option.bind_eq_some_iff.mp h
    obtain ⟨rfl, rfl⟩ := Prod.mk.inj (Option.some.inj h)
    rw [braIoFileMetaEntryReadSubdirEntry] at hsubdir
    split at hsubdir
    · cases hsubdir
    · obtain ⟨me₂, hset, hsubdir⟩ := Option.bind_eq_some_iff.mp hsubdir
      obtain ⟨⟨parentIndex, f₂⟩, hread, hsubdir⟩ := Option.bind_eq_some_iff.mp hsubdir
      obtain ⟨rfl, rfl⟩ := Prod.mk.inj (Option.some.inj hsubdir)
      obtain ⟨-, rfl, hle, -⟩ := braIoFileRead_eq_some hread
      rw [braMetaEntrySubdirSet] at hset
      split at hset
      · cases hset
      · obtain rfl := Option.some.inj hset
        exact ⟨hdata, hle, hname.nul_free, hname.le⟩
  · obtain ⟨⟨node, tree⟩, -, h⟩ := Option.bind_eq_some_iff.mp h
    obtain ⟨rfl, rfl⟩ := Prod.mk.inj (Option.some.inj h)
    exact ⟨hdata, hpos, hname⟩
  · obtain ⟨⟨me₁, f₁⟩, hfile, h⟩ := Option.bind_eq_some_iff.mp h
    obtain ⟨rfl, rfl⟩ := Prod.mk.inj (Option.some.inj h)
    rw [braIoFileMetaEntryReadFileEntry] at hfile
    obtain ⟨me₂, hset, hfile⟩ := Option.bind_eq_some_iff.mp hfile
    obtain ⟨⟨dataSize, f₂⟩, hread, hfile⟩ := Option.bind_eq_some_iff.mp hfile
    obtain ⟨rfl, rfl⟩ := Prod.mk.inj (Option.some.inj hfile)
    obtain ⟨-, rfl, hle, -⟩ := braIoFileRead_eq_some hread
    rw [braMetaEntryFileSet] at hset
    split at hset
    · cases hset
    · obtain rfl := Option.some.inj hset
      exact ⟨hdata, hle, hname.nul_free, hname.le⟩
  · cases h

/-! ## The path -/

theorem entryPath_nul_free (ctx : IoFileCtx) {me : MetaEntry} (hname : NameRead me) :
    0 ∉ entryPath ctx me := by
  have hdir := (braTreeDirReconstructPath ctx.lastDirNode).nul_free
  rw [entryPath]
  split
  · split
    · simp [hdir, hname.nul_free, braDirDelim]
    · exact hname.nul_free
  · exact hdir

section EntryFn
variable {ctx : IoFileCtx} {me : MetaEntry}

theorem entryFn_bytes (hname : NameRead me) : (entryFn ctx me).bytes = entryPath ctx me :=
  cString_eq_self (entryPath_nul_free ctx hname)

theorem ofBuffer_entryPath (hname : NameRead me) (rest : Bytes) :
    CStr.ofBuffer (entryPath ctx me ++ 0 :: rest) = entryFn ctx me := by
  refine CStr.ext ?_
  rw [entryFn_bytes hname]
  exact cString_append_nul (entryPath_nul_free ctx hname) rest

end EntryFn

/-- The buffer of the path of a file.  `len` counts the bytes of the name that are there
beyond its first NUL; that NUL is in the buffer, what comes after it is not. -/
theorem reconstructName_file {ctx : IoFileCtx} {me : MetaEntry} {buf : Bytes} {len : Nat}
    (hname : NameRead me) (hfile : braAttrType me.attributes = .file)
    (h : braIoFileCtxReconstructMetaEntryName ctx me = some (buf, len)) :
    (∃ rest, buf = entryPath ctx me ++ 0 :: rest) ∧
      len + me.name.length = (entryPath ctx me).length + me.nameSize.toNat ∧
      (me.name.length + 2 ≤ me.nameSize.toNat → buf.length < len) := by
  have hle := hname.le
  simp only [braIoFileCtxReconstructMetaEntryName, hfile] at h
  simp only [entryPath, hfile]
  split at h
  · -- a directory was read last: its path, a delimiter and nameSize bytes
    rename_i hdir
    rw [if_pos hdir]
    split at h
    · cases h
    · obtain ⟨rfl, rfl⟩ := Prod.mk.inj (Option.some.inj h)
      refine ⟨?_, ?_, fun hlong => by omega⟩
      · -- a name shorter than nameSize leaves a NUL of its own in the buffer
        rcases Nat.lt_or_ge me.name.length me.nameSize.toNat with hlt | hge
        · refine ⟨[0], ?_⟩
          rw [List.take_of_length_le (by rw [List.length_append, List.length_singleton]; omega)]
          simp
        · refine ⟨[], ?_⟩
          rw [List.take_append_of_le_length hge, List.take_of_length_le hle]
      · simp only [List.length_append, List.length_singleton]
        omega
  · -- no directory was read: the path is the name
    rename_i hdir
    rw [if_neg hdir]
    obtain ⟨rfl, rfl⟩ := Prod.mk.inj (Option.some.inj h)
    refine ⟨⟨[], rfl⟩, Nat.add_comm _ _, fun hlong => ?_⟩
    rw [List.length_append, List.length_singleton]
    omega

/-- The buffer of the path of a directory. -/
theorem reconstructName_dir {ctx : IoFileCtx} {me : MetaEntry} {buf : Bytes} {len : Nat}
    (hfile : braAttrType me.attributes ≠ .file)
    (h : braIoFileCtxReconstructMetaEntryName ctx me = some (buf, len)) :
    buf = entryPath ctx me ++ [0] ∧ len = (entryPath ctx me).length := by
  simp only [braIoFileCtxReconstructMetaEntryName] at h
  simp only [entryPath]
  cases htype : braAttrType me.attributes with
  | file => exact absurd htype hfile
  | sym =>
    rw [htype] at h
    cases h
  | dir =>
    rw [htype] at h
    obtain ⟨rfl, rfl⟩ := Prod.mk.inj (Option.some.inj h)
    exact ⟨rfl, rfl⟩
  | subdir =>
    rw [htype] at h
    obtain ⟨rfl, rfl⟩ := Prod.mk.inj (Option.some.inj h)
    exact ⟨rfl, rfl⟩

/-! ## The checks -/

/-- A size past the end of the string changes nothing for the file name check. -/
theorem braValidateFilename_of_le {fn : Bytes} {n : Nat} (h : fn.length ≤ n) :
    braValidateFilename fn n = braValidateFilename fn fn.length := by
  rcases Nat.lt_or_ge fn.length 2 with hlt | hge
  · have hnul : charAt fn 1 = 0 := by
      rw [charAt, List.getD_eq_getElem?_getD, List.getElem?_eq_none (by omega), Option.getD_none]
    have hcolon : (charAt fn 1 == 58) = false := by rw [hnul]; rfl
    simp only [braValidateFilename, hcolon, Bool.false_and, Bool.and_false]
  · have hn : decide (2 ≤ n) = true := decide_eq_true (by omega)
    have hlen : decide (2 ≤ fn.length) = true := decide_eq_true hge
    simp only [braValidateFilename, hn, hlen]

theorem checkHeader_eq_some_iff {fn : Bytes} {len : Nat} {me me' : MetaEntry} :
    checkHeader fn len me = some me' ↔
      braValidateFilename (cString fn) len = true ∧ 0 < len ∧ len ≤ 65535 ∧ len ≤ fn.length ∧
        me' = { me with crc32 := headerCrc me.attributes (fn.take len) } := by
  rw [checkHeader, braComputeHeaderCrc32]
  cases hvalid : braValidateFilename (cString fn) len with
  | false => simp
  | true =>
    simp only [Bool.not_true, Bool.false_eq_true, if_false, true_and]
    split
    · exact iff_of_false (by simp) (by omega)
    · split
      · exact iff_of_false (by simp) (by omega)
      · have hlen : (fn.take len).length = len := List.length_take_of_le (by omega)
        rw [Option.some_inj, headerCrc, hlen, eq_comm (a := me')]
        exact ⟨fun h => ⟨by omega, by omega, by omega, h⟩, fun h => h.2.2.2⟩

/-! ## The end of an entry -/

theorem finishEntry_eq_some_iff {ctx ctx' : IoFileCtx} {me : MetaEntry} {compare : Bool} :
    finishEntry ctx me compare = some ctx' ↔
      ∃ crc32 f, readCrc32 ctx.f = some (crc32, f) ∧ (compare = true → crc32 = me.crc32) ∧
        ctx' = { ctx with f } := by
  rw [finishEntry]
  cases hread : readCrc32 ctx.f with
  | none => simp
  | some r =>
    obtain ⟨crc32, f⟩ := r
    cases compare with
    | false => simp [eq_comm]
    | true =>
      simp only [Option.bind_eq_bind, Option.bind_some, Bool.true_and, bne_iff_ne, ne_eq,
        ite_not, Option.pure_def, Option.some_inj, Prod.mk.injEq, forall_const]
      split
      · rename_i hcrc
        constructor
        · intro h
          exact ⟨crc32, f, ⟨rfl, rfl⟩, hcrc, (Option.some.inj h).symm⟩
        · rintro ⟨_, _, ⟨rfl, rfl⟩, -, rfl⟩
          rfl
      · rename_i hcrc
        refine iff_of_false (by simp) ?_
        rintro ⟨_, _, ⟨rfl, -⟩, hcrc', -⟩
        exact hcrc hcrc'

theorem readCrc32_eq_some {f f' : IoFile} {crc32 : BitVec 32}
    (h : readCrc32 f = some (crc32, f')) :
    f' = { f with pos := f.pos + 4 } ∧ f.pos + 4 ≤ f.data.length := by
  rw [readCrc32] at h
  obtain ⟨⟨crc, f₁⟩, hread, h⟩ := Option.bind_eq_some_iff.mp h
  obtain ⟨-, rfl⟩ := Prod.mk.inj (Option.some.inj h)
  obtain ⟨-, rfl, hle, -⟩ := braIoFileRead_eq_some hread
  exact ⟨rfl, hle⟩

end BrArchive
