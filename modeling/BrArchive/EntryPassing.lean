import BrArchive.ContentsPassing
import BrArchive.EntryPath

/-! # Passing over a file entry

A file entry can be extracted, listed, tested or skipped.  All four start by reading its
header, and end behind its CRC32; in between extracting, listing and testing follow the
contents, and skipping trusts the recorded size.
-/
namespace BrArchive

/-- From the state `ctx`, the file entry `me`, whose contents start where `ctx₁` stands, is
extracted, and the context is `ctx'` then. -/
structure Extracts {σ : Type} (fs : FileSystem σ) (user : User) (s : σ)
    (ctx ctx₁ ctx' : IoFileCtx) (me : MetaEntry) : Prop where
  read : braIoFileCtxReadMetaEntry ctx = some (me, ctx₁)
  file : braAttrType me.attributes = .file
  overwrite : (braFsFileExistsAskOverwrite fs s (entryFn ctx₁ me) user false).1 = true
  decode : ∃ user' s', braIoFileCtxDecodeAndWriteToDisk fs ctx user s = some (ctx', user', s')

/-- All other ways of passing over the entry end where extracting does, and the contents
have taken the recorded size. -/
structure PassedAlike (ctx ctx₁ ctx' : IoFileCtx) (me : MetaEntry) : Prop where
  consumed : ctx'.f.pos = ctx₁.f.pos + me.dataSize + 4
  list : ∃ c, braIoFileCtxPrintMetaEntry ctx false = some c ∧ c.f.pos = ctx'.f.pos
  test : ∃ c, braIoFileCtxPrintMetaEntry ctx true = some c ∧ c.f.pos = ctx'.f.pos
  skip : ∀ (σ : Type) (fs : FileSystem σ) (user : User) (s : σ),
    (braFsFileExistsAskOverwrite fs s (entryFn ctx₁ me) user false).1 = false →
      ∃ c user' s', braIoFileCtxDecodeAndWriteToDisk fs ctx user s = some (c, user', s') ∧
        c.f.pos = ctx'.f.pos

/-- The name is read alike with its recorded size and up to its first NUL: there is no NUL
in it; or the last byte is the only one, and the two headers collide. -/
def NameReadAlike (ctx₁ : IoFileCtx) (me : MetaEntry) : Prop :=
  me.nameSize.toNat = me.name.length ∨
    (me.nameSize.toNat = me.name.length + 1 ∧ (entryPath ctx₁ me).length < 65535 ∧
      headerCrc me.attributes (entryPath ctx₁ me ++ [0]) =
        headerCrc me.attributes (entryPath ctx₁ me))

/-! ## The header in test mode -/

section Name
variable {ctx₁ : IoFileCtx} {me : MetaEntry} {buf : Bytes} {len : Nat}

/-- **Test mode** gets the header checksum that extracting gets exactly if the name is read
alike. -/
theorem checkHeader_test_iff (hname : NameRead me) (hfile : braAttrType me.attributes = .file)
    (hbuf : braIoFileCtxReconstructMetaEntryName ctx₁ me = some (buf, len))
    (hdecode : checkHeader buf (entryPath ctx₁ me).length me =
      some (me.withHeaderCrc (entryPath ctx₁ me))) :
    checkHeader buf len me = some (me.withHeaderCrc (entryPath ctx₁ me)) ↔
      NameReadAlike ctx₁ me := by
  obtain ⟨⟨rest, rfl⟩, hlen, hlong⟩ := reconstructName_file hname hfile hbuf
  have hnul := entryPath_nul_free ctx₁ hname
  have hle := hname.le
  generalize hp : entryPath ctx₁ me = path at *
  obtain ⟨hvalid, hpos, hmax, -, -⟩ := checkHeader_eq_some_iff.mp hdecode
  rw [NameReadAlike, hp]
  rcases Nat.lt_trichotomy me.nameSize.toNat (me.name.length + 1) with hsize | hsize | hsize
  · -- no NUL in the name
    obtain rfl : len = path.length := by omega
    exact iff_of_true hdecode (.inl (by omega))
  · -- the last byte is the only NUL
    obtain rfl : len = path.length + 1 := by omega
    have htake : (path ++ 0 :: rest).take (path.length + 1) = path ++ [0] := by
      rw [List.take_length_add_append]
      rfl
    have hvalid' : braValidateFilename (cString (path ++ 0 :: rest)) (path.length + 1) = true := by
      rw [cString_append_nul hnul] at hvalid ⊢
      rwa [braValidateFilename_of_le (Nat.le_succ _)]
    rw [checkHeader_eq_some_iff, htake]
    constructor
    · rintro ⟨-, -, hmax', -, hcrc⟩
      exact .inr ⟨hsize, by omega, (congrArg MetaEntry.crc32 hcrc).symm⟩
    · rintro (hno | ⟨-, hmax', hcrc⟩)
      · omega
      · refine ⟨hvalid', by omega, by omega, by simp, ?_⟩
        rw [MetaEntry.withHeaderCrc, hcrc]
  · -- more than that is not in the buffer
    refine iff_of_false (fun h => ?_) (by omega)
    obtain ⟨-, -, -, hbound, -⟩ := checkHeader_eq_some_iff.mp h
    exact absurd hbound (Nat.not_le.mpr (hlong hsize))

end Name

/-! ## What extracting a file does -/

section Extracting
variable {σ : Type} {fs : FileSystem σ} {user : User} {s : σ} {ctx ctx₁ ctx' : IoFileCtx}
  {me : MetaEntry}

/-- The steps of an extraction that succeeds. -/
theorem Extracts.steps (h : Extracts fs user s ctx ctx₁ ctx' me) :
    ∃ buf len r, braIoFileCtxReconstructMetaEntryName ctx₁ me = some (buf, len) ∧
      checkHeader buf (entryPath ctx₁ me).length me =
        some (me.withHeaderCrc (entryPath ctx₁ me)) ∧
      extractContents ⟨[], 0⟩ ctx₁.f (me.withHeaderCrc (entryPath ctx₁ me)).addDataSize =
        some r ∧
      finishEntry { ctx₁ with f := r.2.1 } r.2.2 true = some ctx' := by
  obtain ⟨hread, hfile, hoverwrite, user', s', hdecode⟩ := h
  obtain ⟨-, -, hname⟩ := braIoFileCtxReadMetaEntry_eq_some hread
  simp only [braIoFileCtxDecodeAndWriteToDisk, hread, Option.bind_eq_bind, Option.bind_some]
    at hdecode
  obtain ⟨⟨buf, len⟩, hbuf, hdecode⟩ := Option.bind_eq_some_iff.mp hdecode
  obtain ⟨⟨rest, rfl⟩, -, -⟩ := reconstructName_file hname hfile hbuf
  dsimp only at hdecode
  -- the C string of the buffer is the path: what stands behind the NUL is not read
  rw [ofBuffer_entryPath hname, entryFn_bytes hname] at hdecode
  obtain ⟨me₁, hcheck, hdecode⟩ := Option.bind_eq_some_iff.mp hdecode
  -- the entry that goes on is the one read, with the CRC of its path and header
  obtain ⟨-, -, -, -, hme₁⟩ := checkHeader_eq_some_iff.mp hcheck
  rw [List.take_left] at hme₁
  subst hme₁
  dsimp only at hdecode
  rw [hfile] at hdecode
  dsimp only at hdecode
  rw [hoverwrite] at hdecode
  obtain ⟨s₁, -, hdecode⟩ := Option.bind_eq_some_iff.mp hdecode
  obtain ⟨r, hcontents, hdecode⟩ := Option.bind_eq_some_iff.mp hdecode
  obtain ⟨ctx₂, hfinish, hdecode⟩ := Option.bind_eq_some_iff.mp hdecode
  obtain ⟨rfl, -⟩ := Prod.mk.inj (Option.some.inj hdecode)
  exact ⟨_, len, r, hbuf, hcheck, hcontents, hfinish⟩

/-- **The position after an extraction**: behind the CRC32 that follows as many bytes as
the contents took, which is the recorded size exactly if the contents fill it. -/
theorem Extracts.pos (h : Extracts fs user s ctx ctx₁ ctx' me) :
    ∃ k, ctx'.f.pos = ctx₁.f.pos + k + 4 ∧ ctx'.f.pos ≤ ctx.f.data.length ∧
      (k = me.dataSize ↔ ContentsFill ctx₁.f me) := by
  obtain ⟨hdata, hpos, -⟩ := braIoFileCtxReadMetaEntry_eq_some h.read
  obtain ⟨buf, len, r, -, -, hcontents, hfinish⟩ := h.steps
  obtain ⟨k, hr, -, hk⟩ := extractContents_pos hpos hcontents
  obtain ⟨crc32, f, hcrc, -, rfl⟩ := finishEntry_eq_some_iff.mp hfinish
  obtain ⟨rfl, hle⟩ := readCrc32_eq_some hcrc
  dsimp only at hle ⊢
  rw [hr] at hle ⊢
  dsimp only at hle ⊢
  rw [hdata] at hle
  exact ⟨k, rfl, hle, hk⟩

/-- **Listing** ends where extracting does. -/
theorem Extracts.list (h : Extracts fs user s ctx ctx₁ ctx' me) :
    braIoFileCtxPrintMetaEntry ctx false = some ctx' := by
  obtain ⟨-, hpos, -⟩ := braIoFileCtxReadMetaEntry_eq_some h.read
  obtain ⟨buf, len, r, hbuf, -, hcontents, hfinish⟩ := h.steps
  obtain ⟨me', hfile, -⟩ := braIoFileChunksReadFile_agree hpos hcontents false me.crc32
  obtain ⟨crc32, f, hcrc, -, hctx'⟩ := finishEntry_eq_some_iff.mp hfinish
  have hlast : finishEntry { ctx₁ with f := r.2.1 } me' false = some ctx' :=
    finishEntry_eq_some_iff.mpr ⟨crc32, f, hcrc, fun h => absurd h (by decide), hctx'⟩
  simp only [braIoFileCtxPrintMetaEntry, h.read, hbuf, h.file, Option.bind_eq_bind,
    Option.bind_some, Bool.false_eq_true, if_false]
  exact (congrArg (Option.bind · _) hfile).trans hlast

/-- Test mode after the header: the checksums differ at the end exactly if they do now. -/
theorem Extracts.test_contents (h : Extracts fs user s ctx ctx₁ ctx' me) {me₁ : MetaEntry}
    {buf : Bytes} {len : Nat} (hbuf : braIoFileCtxReconstructMetaEntryName ctx₁ me = some (buf, len))
    (hcheck : checkHeader buf len me = some me₁) :
    braIoFileCtxPrintMetaEntry ctx true =
      if me₁ = me.withHeaderCrc (entryPath ctx₁ me) then some ctx' else none := by
  obtain ⟨-, hpos, -⟩ := braIoFileCtxReadMetaEntry_eq_some h.read
  obtain ⟨-, -, r, -, -, hcontents, hfinish⟩ := h.steps
  obtain ⟨-, -, -, -, hme₁⟩ := checkHeader_eq_some_iff.mp hcheck
  obtain ⟨crc32, f, hcrc, hsame, hctx'⟩ := finishEntry_eq_some_iff.mp hfinish
  obtain ⟨me', hfile, hagree⟩ := braIoFileChunksReadFile_agree hpos hcontents true
    (braCrc32c (leBytes 8 me.dataSize) me₁.crc32)
  have hprint : braIoFileCtxPrintMetaEntry ctx true =
      finishEntry { ctx₁ with f := r.2.1 } me' true := by
    have hadd : me₁.addDataSize =
        { me with crc32 := braCrc32c (leBytes 8 me.dataSize) me₁.crc32 } := by
      rw [hme₁]
      rfl
    have htype : braAttrType me₁.attributes = .file := by
      rw [hme₁]
      exact h.file
    simp only [braIoFileCtxPrintMetaEntry, h.read, hbuf, hcheck, htype, hadd,
      MetaEntry.dataSize_withCrc, Option.bind_eq_bind, Option.bind_some, if_true]
    exact (congrArg (Option.bind · _) hfile).trans (Option.bind_some _ _)
  have hcrc₁ : crc32 = me'.crc32 ↔ me₁ = me.withHeaderCrc (entryPath ctx₁ me) := by
    rw [hsame rfl, eq_comm, hagree rfl]
    subst hme₁
    refine (braCrc32c_injective _).eq_iff.trans ⟨fun heq => ?_, congrArg MetaEntry.crc32⟩
    exact congrArg (fun crc32 => { me with crc32 := crc32 }) heq
  rw [hprint]
  split
  · rename_i heq
    exact finishEntry_eq_some_iff.mpr ⟨crc32, f, hcrc, fun _ => hcrc₁.mpr heq, hctx'⟩
  · rename_i hne
    rw [Option.eq_none_iff_forall_ne_some]
    intro c hc
    obtain ⟨crc32', f', hcrc', hsame', -⟩ := finishEntry_eq_some_iff.mp hc
    obtain ⟨rfl, -⟩ := Prod.mk.inj (Option.some.inj (hcrc.symm.trans hcrc'))
    exact hne (hcrc₁.mp (hsame' rfl))

/-- **Testing** ends where extracting does if the name is read alike, and fails if not. -/
theorem Extracts.test_iff (h : Extracts fs user s ctx ctx₁ ctx' me) (c : IoFileCtx) :
    braIoFileCtxPrintMetaEntry ctx true = some c ↔ NameReadAlike ctx₁ me ∧ c = ctx' := by
  obtain ⟨-, -, hname⟩ := braIoFileCtxReadMetaEntry_eq_some h.read
  obtain ⟨buf, len, r, hbuf, hdecode, -, -⟩ := h.steps
  rw [← checkHeader_test_iff hname h.file hbuf hdecode]
  cases hcheck : checkHeader buf len me with
  | none =>
    refine iff_of_false (fun hc => ?_) (by simp)
    simp only [braIoFileCtxPrintMetaEntry, h.read, hbuf, hcheck, Option.bind_eq_bind,
      Option.bind_some, if_true, Option.bind_none] at hc
    cases hc
  | some me₁ =>
    rw [h.test_contents hbuf hcheck, Option.ite_none_right_eq_some, Option.some_inj,
      Option.some_inj, eq_comm (a := ctx')]

/-- **Skipping** ends where extracting does if the contents fill the recorded size. -/
theorem Extracts.skip (h : Extracts fs user s ctx ctx₁ ctx' me)
    (hoff : ctx.f.data.length < 2 ^ 63) (hpos : ctx'.f.pos = ctx₁.f.pos + me.dataSize + 4)
    {τ : Type} (fs' : FileSystem τ) (user' : User) (s' : τ)
    (hdecline : (braFsFileExistsAskOverwrite fs' s' (entryFn ctx₁ me) user' false).1 = false) :
    ∃ c user'', braIoFileCtxDecodeAndWriteToDisk fs' ctx user' s' = some (c, user'', s') ∧
      c.f.pos = ctx'.f.pos := by
  obtain ⟨-, -, hname⟩ := braIoFileCtxReadMetaEntry_eq_some h.read
  obtain ⟨buf, len, r, hbuf, hcheck, -, -⟩ := h.steps
  obtain ⟨hdata, -, -⟩ := braIoFileCtxReadMetaEntry_eq_some h.read
  obtain ⟨-, -, hle, -⟩ := h.pos
  obtain ⟨⟨rest, rfl⟩, -, -⟩ := reconstructName_file hname h.file hbuf
  have hskip : braIoFileSkipData ctx₁.f (me.dataSize + 4) =
      some { ctx₁.f with pos := ctx₁.f.pos + (me.dataSize + 4) } :=
    braIoFileSkipData_of_lt (by omega)
  refine ⟨{ ctx₁ with f := { ctx₁.f with pos := ctx₁.f.pos + (me.dataSize + 4) } },
    (braFsFileExistsAskOverwrite fs' s' (entryFn ctx₁ me) user' false).2, ?_, ?_⟩
  · simp only [braIoFileCtxDecodeAndWriteToDisk, h.read, hbuf, ofBuffer_entryPath hname,
      entryFn_bytes hname, hcheck, MetaEntry.withHeaderCrc, h.file, hdecline, Option.bind_eq_bind,
      Option.bind_some, Bool.not_false, if_true]
    exact congrArg (Option.bind · _) hskip
  · rw [hpos, Nat.add_assoc]

end Extracting

/-- **Passing over a file entry.**  For every archive and state of the reader: after an
extraction that succeeds, the contents have taken the recorded size and listing, testing
and skipping succeed and end at the same place, exactly if the contents fill the recorded
size and the name is read alike.  (No file is longer than an `off_t` can say.) -/
theorem fileEntry_passedAlike_iff {σ : Type} {fs : FileSystem σ} {user : User} {s : σ}
    {ctx ctx₁ ctx' : IoFileCtx} {me : MetaEntry} (hoff : ctx.f.data.length < 2 ^ 63)
    (h : Extracts fs user s ctx ctx₁ ctx' me) :
    PassedAlike ctx ctx₁ ctx' me ↔ ContentsFill ctx₁.f me ∧ NameReadAlike ctx₁ me := by
  obtain ⟨k, hk, -, hfill⟩ := h.pos
  constructor
  · intro hpassed
    have hconsumed := hpassed.consumed
    obtain ⟨c, hc, -⟩ := hpassed.test
    exact ⟨hfill.mp (by omega), ((h.test_iff c).mp hc).1⟩
  · rintro ⟨hcontents, hname⟩
    have hsize := hfill.mpr hcontents
    subst hsize
    refine ⟨hk, ⟨ctx', h.list, rfl⟩, ⟨ctx', (h.test_iff ctx').mpr ⟨hname, rfl⟩, rfl⟩, ?_⟩
    intro τ fs' user' s' hdecline
    obtain ⟨c, user'', hc, hpos⟩ := h.skip hoff hk fs' user' s' hdecline
    exact ⟨c, user'', s', hc, hpos⟩

/-! ## Two archives -/

/-- An archive of the stored file `a` with the contents `b`. -/
def storedArchive : Bytes :=
  leBytes 4 braMagic ++ leBytes 4 1 ++ [0, 1, 97] ++ leBytes 8 1 ++ [98] ++ leBytes 4 288837879

/-- The reader of an archive of one entry, at a position. -/
def readerAt (archive : Bytes) (pos : Nat) : IoFileCtx :=
  { braIoFileCtxOpen ⟨archive, pos⟩ with numFiles := 1 }

/-- The entry of that archive. -/
def storedEntry : MetaEntry := ⟨0, 1, [97], .file 1, braCrc32cInit⟩

theorem storedEntry_extracts : Extracts FileSystem.permissive ⟨.alwaysYes, []⟩ ()
    (readerAt storedArchive 8) (readerAt storedArchive 19) (readerAt storedArchive 24)
    storedEntry :=
  ⟨by decide +kernel, rfl, rfl, ⟨.alwaysYes, []⟩, (), by decide +kernel⟩

theorem fileEntry_passedAlike_iff_stored :
    PassedAlike (readerAt storedArchive 8) (readerAt storedArchive 19) (readerAt storedArchive 24)
        storedEntry ↔
      ContentsFill ⟨storedArchive, 19⟩ storedEntry ∧
        NameReadAlike (readerAt storedArchive 19) storedEntry :=
  fileEntry_passedAlike_iff (by decide +kernel) storedEntry_extracts

/-- Symbols of one bit for the run of two that the chunk below consists of. -/
def twoSymbolLengths (s : UInt8) : UInt8 := if s = 0x41 ∨ s = 0xFF then 1 else 0

/-- An archive of a compressed file with the recorded size 1: its only chunk takes 268
bytes, and the loop takes the chunk as a whole. -/
def overshootingArchive : Bytes :=
  leBytes 4 braMagic ++ leBytes 4 1 ++ [4, 1, 97] ++ leBytes 8 1 ++
    (ChunkHeader.diskImage ⟨0, twoSymbolLengths, 2, 1⟩ ++ [0x80]) ++ leBytes 4 1585141827

/-- The entry of that archive. -/
def overshootingEntry : MetaEntry := ⟨4, 1, [97], .file 1, braCrc32cInit⟩

/-- Extracting the entry succeeds, 267 bytes behind where skipping would end. -/
theorem overshootingEntry_not_passedAlike :
    braIoFileCtxReadHeader (braIoFileCtxOpen ⟨overshootingArchive, 0⟩) =
        some (readerAt overshootingArchive 8) ∧
      Extracts FileSystem.permissive ⟨.alwaysYes, []⟩ () (readerAt overshootingArchive 8)
        (readerAt overshootingArchive 19) (readerAt overshootingArchive 291) overshootingEntry ∧
      ¬ PassedAlike (readerAt overshootingArchive 8) (readerAt overshootingArchive 19)
        (readerAt overshootingArchive 291) overshootingEntry := by
  refine ⟨by decide +kernel, ⟨by decide +kernel, rfl, rfl, ⟨.alwaysYes, []⟩, (), ?_⟩, fun h => ?_⟩
  · decide +kernel
  · have hconsumed : (291 : Nat) = 19 + 1 + 4 := h.consumed
    omega

end BrArchive
