import BrArchive.EntryFields
import BrArchive.TestPredicts

/-! # Altered contents

The contents of a stored file change within four consecutive bytes, and nothing else in the
archive does.  The checksum of what comes before the change is as it was, and what comes
behind it keeps different checksums different; in between stand four bytes, no more than
the checksum has.
-/
namespace BrArchive
open XorLinear

/-! ## The checksum of four bytes -/

/-- The first byte, and the rest shifted by it. -/
theorem ofNat_leValue_cons (b : UInt8) (w : Bytes) :
    BitVec.ofNat 32 (leValue (b :: w)) =
      b.toBitVec.setWidth 32 ^^^ BitVec.ofNat 32 (2 ^ 8 * leValue w) := by
  have hb : b.toNat < 2 ^ 8 := b.toNat_lt
  have hvalue : leValue (b :: w) = 2 ^ 8 * leValue w + b.toNat := Nat.add_comm _ _
  apply BitVec.eq_of_getLsbD_eq
  intro i hi
  rw [BitVec.getLsbD_xor, BitVec.getLsbD_setWidth, BitVec.getLsbD_ofNat, BitVec.getLsbD_ofNat,
    hvalue, Nat.testBit_two_pow_mul_add _ hb, Nat.testBit_two_pow_mul]
  have hbit : b.toBitVec.getLsbD i = b.toNat.testBit i := rfl
  rw [hbit]
  by_cases hlow : i < 8
  · simp [hi, hlow, Nat.not_le.mpr hlow]
  · have hle : 2 ^ 8 ≤ 2 ^ i := Nat.pow_le_pow_right (by decide) (Nat.not_lt.mp hlow)
    simp [hi, hlow, Nat.not_lt.mp hlow, Nat.testBit_lt_two_pow (Nat.lt_of_lt_of_le hb hle)]

/-- Eight steps take a value of at most three bytes back to its place. -/
theorem crcBit_iterate_shifted {v : Nat} (hv : v < 2 ^ 24) :
    crcBit^[8] (BitVec.ofNat 32 (2 ^ 8 * v)) = BitVec.ofNat 32 v := by
  rw [crcBit_iterate_of_low_zero 8]
  · apply BitVec.eq_of_toNat_eq
    rw [BitVec.toNat_ushiftRight, BitVec.toNat_ofNat, BitVec.toNat_ofNat, Nat.shiftRight_eq_div_pow]
    omega
  · intro i hi
    rw [BitVec.getLsbD_ofNat, Nat.testBit_two_pow_mul]
    simp [hi]

/-- **Up to four bytes** act on the register as their value does. -/
theorem foldl_crc32cByte_eq {w : Bytes} (hw : w.length ≤ 4) (crc : BitVec 32) :
    w.foldl crc32cByte crc =
      crcBit^[8 * w.length] (crc ^^^ BitVec.ofNat 32 (leValue w)) := by
  induction w generalizing crc with
  | nil => exact (BitVec.xor_zero).symm
  | cons b w ih =>
    rw [List.length_cons] at hw
    have hvalue : leValue w < 2 ^ 24 := by
      refine Nat.lt_of_lt_of_le (leValue_lt w) ?_
      exact Nat.pow_le_pow_right (by decide) (Nat.le_of_succ_le_succ hw)
    rw [List.foldl_cons, ih (Nat.le_of_succ_le hw), crc32cByte_eq, List.length_cons, Nat.mul_succ,
      Function.iterate_add_apply, ofNat_leValue_cons, ← BitVec.xor_assoc,
      crcBit_linear.iterate 8 (crc ^^^ _), crcBit_iterate_shifted hvalue]

theorem leValue_injective {w w' : Bytes} (hlen : w.length = w'.length)
    (h : leValue w = leValue w') : w = w' := by
  rw [← leBytes_leValue w, ← leBytes_leValue w', hlen, h]

/-- Two blocks of up to four bytes have different checksums. -/
theorem braCrc32c_window_injective {w w' : Bytes} (hw : w.length ≤ 4)
    (hlen : w.length = w'.length) (crc : BitVec 32) (h : braCrc32c w crc = braCrc32c w' crc) :
    w = w' := by
  have hlt : ∀ v : Bytes, v.length ≤ 4 → leValue v < 2 ^ 32 := fun v hv =>
    Nat.lt_of_lt_of_le (leValue_lt v) (Nat.pow_le_pow_right (n := 256) (by decide) hv)
  rw [braCrc32c, braCrc32c, BitVec.not_inj, foldl_crc32cByte_eq hw,
    foldl_crc32cByte_eq (hlen ▸ hw), hlen] at h
  have h := xor_left_cancel (iterate_injective crcBit_iterate_order crcOrder_prime.pos _ h)
  have h := congrArg BitVec.toNat h
  rw [BitVec.toNat_ofNat, BitVec.toNat_ofNat, Nat.mod_eq_of_lt (hlt w hw),
    Nat.mod_eq_of_lt (hlt w' (hlen ▸ hw))] at h
  exact leValue_injective hlen h

/-! ## Contents that differ within four bytes -/

/-- `x'` is `x` with changes, all of them within four consecutive bytes. -/
structure Alters (x x' : Bytes) : Prop where
  length_eq : x'.length = x.length
  ne : x' ≠ x
  window : ∃ o, ∀ i, x'[i]? ≠ x[i]? → o ≤ i ∧ i < o + 4

/-- What is before the change, the change, and what is behind it. -/
theorem Alters.split {x x' : Bytes} (h : Alters x x') :
    ∃ a w w' b, x = a ++ (w ++ b) ∧ x' = a ++ (w' ++ b) ∧ w.length ≤ 4 ∧ w.length = w'.length ∧
      w ≠ w' := by
  obtain ⟨o, ho⟩ := h.window
  -- outside the window the two agree, in front of it and behind it
  have htake : x'.take o = x.take o := by
    apply List.ext_getElem?
    intro i
    rw [List.getElem?_take, List.getElem?_take]
    by_cases hi : i < o
    · rw [if_pos hi, if_pos hi]
      by_contra hne
      have := ho i hne
      omega
    · rw [if_neg hi, if_neg hi]
  have hdrop : x'.drop (o + 4) = x.drop (o + 4) := by
    apply List.ext_getElem?
    intro i
    rw [List.getElem?_drop, List.getElem?_drop]
    by_contra hne
    have := ho (o + 4 + i) hne
    omega
  have hcut : ∀ y : Bytes, y = y.take o ++ ((y.drop o).take 4 ++ y.drop (o + 4)) := by
    intro y
    rw [← List.drop_drop, List.take_append_drop, List.take_append_drop]
  refine ⟨x.take o, (x.drop o).take 4, (x'.drop o).take 4, x.drop (o + 4), hcut x, ?_, ?_, ?_, ?_⟩
  · rw [← htake, ← hdrop]
    exact hcut x'
  · exact List.length_take_le 4 _
  · rw [List.length_take, List.length_take, List.length_drop, List.length_drop, h.length_eq]
  · intro heq
    refine h.ne ?_
    rw [hcut x', hcut x, htake, hdrop, heq]

/-- **The checksum tells them apart**, from whatever start. -/
theorem Alters.braCrc32c_ne {x x' : Bytes} (h : Alters x x') (crc : BitVec 32) :
    braCrc32c x' crc ≠ braCrc32c x crc := by
  obtain ⟨a, w, w', b, rfl, rfl, hw, hlen, hne⟩ := h.split
  intro heq
  simp only [braCrc32c_append] at heq
  exact hne (braCrc32c_window_injective hw hlen _ (braCrc32c_injective b heq.symm))

/-! ## Up to the comparison -/

/-- `bra_io_file_ctx_print_meta_entry` in test mode, up to the CRC32 at the end of the entry. -/
def testUntilCheck (ctx : IoFileCtx) : Option (IoFileCtx × MetaEntry) := do
  let (me, ctx) ← braIoFileCtxReadMetaEntry ctx
  let (fn, len) ← braIoFileCtxReconstructMetaEntryName ctx me
  let me ← checkHeader fn len me
  match braAttrType me.attributes with
  | .file =>
    let me := me.addDataSize
    let (_, f, me) ← braIoFileChunksReadFile ctx.f me.dataSize me true
    return ({ ctx with f }, me)
  | .subdir => return (ctx, me.addParentIndex)
  | .dir => return (ctx, me)
  | .sym => none

/-- `bra_io_file_ctx_decode_and_write_to_disk` on a file that is written, up to the CRC32 at
the end of the entry. -/
def extractUntilCheck {σ : Type} (fs : FileSystem σ) (ctx : IoFileCtx) (user : User) (s : σ) :
    Option (IoFileCtx × MetaEntry × User × σ) := do
  let (me, ctx) ← braIoFileCtxReadMetaEntry ctx
  let (buf, _) ← braIoFileCtxReconstructMetaEntryName ctx me
  let fn := CStr.ofBuffer buf
  let me ← checkHeader buf fn.bytes.length me
  match braAttrType me.attributes with
  | .file =>
    let (overwrite, user) := braFsFileExistsAskOverwrite fs s fn user false
    if !overwrite then none
    else
      let s ← fs.openWrite s fn
      let (f2, f, me) ← extractContents ⟨[], 0⟩ ctx.f me.addDataSize
      return ({ ctx with f }, me, user, fs.closeWrite s fn (f2.elim [] IoFile.data))
  | _ => none

/-- The CRC32 at the end of the entry is there, and is not the one that has been computed. -/
def ChecksumFails (ctx : IoFileCtx) (me : MetaEntry) : Prop :=
  ∃ crc32 f, readCrc32 ctx.f = some (crc32, f) ∧ crc32 ≠ me.crc32

/-- Test mode gets to the comparison of the checksums, and fails there. -/
def TestReportsChecksum (ctx : IoFileCtx) : Prop :=
  (∃ c me, testUntilCheck ctx = some (c, me) ∧ ChecksumFails c me) ∧
    braIoFileCtxPrintMetaEntry ctx true = none

/-- Extracting gets to the comparison of the checksums, and fails there. -/
def ExtractReportsChecksum {σ : Type} (fs : FileSystem σ) (ctx : IoFileCtx) (user : User)
    (s : σ) : Prop :=
  (∃ c me user' s', extractUntilCheck fs ctx user s = some (c, me, user', s') ∧
    ChecksumFails c me) ∧
    braIoFileCtxDecodeAndWriteToDisk fs ctx user s = none

theorem ChecksumFails.finishEntry_eq_none {ctx : IoFileCtx} {me : MetaEntry}
    (h : ChecksumFails ctx me) : finishEntry ctx me true = none := by
  obtain ⟨crc32, f, hread, hne⟩ := h
  simp only [finishEntry, hread, Option.bind_eq_bind, Option.bind_some, Bool.true_and,
    bne_iff_ne.mpr hne, if_true]

/-- **Test mode** is these steps and the last one. -/
theorem braIoFileCtxPrintMetaEntry_eq (ctx : IoFileCtx) :
    braIoFileCtxPrintMetaEntry ctx true =
      (testUntilCheck ctx).bind fun r => finishEntry r.1 r.2 true := by
  simp only [braIoFileCtxPrintMetaEntry, testUntilCheck, if_true, Option.bind_eq_bind,
    Option.bind_assoc, Option.pure_def]
  congr 1
  funext r
  congr 1
  funext p
  congr 1
  funext me
  cases braAttrType me.attributes with
  | file =>
    dsimp only
    rw [Option.bind_assoc]
    rfl
  | dir => rfl
  | subdir => rfl
  | sym => rfl

/-- **Extracting** a file that is written is these steps and the last one. -/
theorem decode_of_extractUntilCheck {σ : Type} {fs : FileSystem σ} {ctx c : IoFileCtx}
    {user user' : User} {s s' : σ} {me : MetaEntry}
    (h : extractUntilCheck fs ctx user s = some (c, me, user', s')) :
    braIoFileCtxDecodeAndWriteToDisk fs ctx user s =
      (finishEntry c me true).map fun c => (c, user', s') := by
  rw [extractUntilCheck] at h
  obtain ⟨⟨me₁, ctx₁⟩, hread, h⟩ := Option.bind_eq_some_iff.mp h
  obtain ⟨⟨buf, len⟩, hbuf, h⟩ := Option.bind_eq_some_iff.mp h
  obtain ⟨me₂, hcheck, h⟩ := Option.bind_eq_some_iff.mp h
  dsimp only at h
  split at h
  · rename_i htype
    split at h
    · cases h
    · rename_i hoverwrite
      obtain ⟨s₁, hopen, h⟩ := Option.bind_eq_some_iff.mp h
      obtain ⟨⟨f2, f, me₃⟩, hcontents, h⟩ := Option.bind_eq_some_iff.mp h
      obtain ⟨rfl, rfl, rfl, rfl⟩ := Option.some.inj h
      simp only [braIoFileCtxDecodeAndWriteToDisk, hread, hbuf, hcheck, htype, hoverwrite, hopen,
        hcontents, Option.bind_eq_bind, Option.bind_some]
      cases finishEntry { ctx₁ with f } me₃ true <;> rfl
  · cases h

/-! ## A stored file -/

/-- The next entry is the stored file `me` with the contents `x`, which start where `ctx₁`
stands. -/
structure StoredFile (ctx ctx₁ : IoFileCtx) (me : MetaEntry) (pre x post : Bytes) : Prop where
  read : braIoFileCtxReadMetaEntry ctx = some (me, ctx₁)
  file : braAttrType me.attributes = .file
  stored : braAttrComp me.attributes = braAttrCompStored
  contents : ctx₁.f = ioAt pre (x ++ post)
  size : x.length = me.dataSize

/-- The reader stands at the same place of an archive with other bytes in it. -/
def IoFileCtx.withData (ctx : IoFileCtx) (data : Bytes) : IoFileCtx :=
  { ctx with f := ⟨data, ctx.f.pos⟩ }

section Stored
variable {ctx ctx₁ : IoFileCtx} {me : MetaEntry} {pre x x' post : Bytes}

/-- Contents of the same length make the same entry. -/
theorem StoredFile.withData (h : StoredFile ctx ctx₁ me pre x post)
    (hlen : x'.length = x.length) :
    StoredFile (ctx.withData (pre ++ (x' ++ post))) { ctx₁ with f := ioAt pre (x' ++ post) } me
      pre x' post := by
  obtain ⟨hread, hfile, hstored, hcontents, hsize⟩ := h
  rw [braIoFileCtxReadMetaEntry_eq] at hread
  obtain ⟨⟨me₁, f⟩, hfields, hread⟩ := Option.bind_eq_some_iff.mp hread
  obtain ⟨c, henter, hread⟩ := Option.map_eq_some_iff.mp hread
  obtain ⟨rfl, rfl⟩ := Prod.mk.inj hread
  have hsame : ∀ c : IoFileCtx, enterEntry c me₁ = some c := fun c => by
    rw [enterEntry, hfile]
  obtain rfl := Option.some.inj ((hsame _).symm.trans henter)
  obtain ⟨pre₁, head, post₁, hf, rfl, hrest⟩ := readFields_rest hfields
  obtain ⟨rfl, rfl⟩ := ioAt_inj hcontents
  refine ⟨?_, hfile, hstored, rfl, hlen.trans hsize⟩
  have hdata : (ctx.withData (pre₁ ++ head ++ (x' ++ post))).f =
      ioAt pre₁ (head ++ (x' ++ post)) := by
    rw [IoFileCtx.withData, List.append_assoc]
    dsimp only
    rw [hf, ioAt_pos, ioAt]
  rw [braIoFileCtxReadMetaEntry_eq, hdata, hrest, Option.bind_some, hsame]
  rfl

/-- What is compared at the end: the checksum has gone on over the contents. -/
def atCheck (ctx₁ : IoFileCtx) (me : MetaEntry) (pre x post : Bytes) : IoFileCtx × MetaEntry :=
  ({ ctx₁ with f := ioAt (pre ++ x) post }, { me with crc32 := braCrc32c x me.addDataSize.crc32 })

theorem extractContents_stored (hstored : braAttrComp me.attributes = braAttrCompStored)
    (hcontents : ctx₁.f = ioAt pre (x ++ post)) (hsize : x.length = me.dataSize) :
    extractContents ⟨[], 0⟩ ctx₁.f me.addDataSize =
      some (some (ioAt x []), (atCheck ctx₁ me pre x post).1.f,
        (atCheck ctx₁ me pre x post).2) := by
  have hcopy := braIoFileChunksCopyFile_ioAt (some []) pre x post me.addDataSize true
  have hcomp : braAttrComp me.addDataSize.attributes = braAttrCompStored := hstored
  have hdataSize : me.addDataSize.dataSize = x.length := hsize.symm
  rw [extractContents, if_pos hcomp, hdataSize, hcontents]
  exact hcopy

/-- **Test mode** gets to the comparison if the header is right. -/
theorem StoredFile.testUntilCheck_eq (h : StoredFile ctx ctx₁ me pre x post) {buf : Bytes}
    {len : Nat} {me₁ : MetaEntry}
    (hbuf : braIoFileCtxReconstructMetaEntryName ctx₁ me = some (buf, len))
    (hcheck : checkHeader buf len me = some me₁) :
    testUntilCheck ctx = some (atCheck ctx₁ me₁ pre x post) := by
  obtain ⟨-, -, -, -, hme₁⟩ := checkHeader_eq_some_iff.mp hcheck
  have hstored : braAttrComp me₁.attributes = braAttrCompStored := by rw [hme₁]; exact h.stored
  have hsize : x.length = me₁.dataSize := by rw [hme₁]; exact h.size
  have htype : braAttrType me₁.attributes = .file := by rw [hme₁]; exact h.file
  have hread := braIoFileChunksReadFile_eq ⟨[], 0⟩ ctx₁.f me₁.addDataSize
  rw [extractContents_stored hstored h.contents hsize] at hread
  simp only [testUntilCheck, h.read, hbuf, hcheck, htype, hread, Option.bind_eq_bind,
    Option.bind_some, Option.map_some, Option.pure_def]
  rfl

/-- **Extracting** gets to the comparison if the header is right and the file can be written. -/
theorem StoredFile.extractUntilCheck_eq {σ : Type} {fs : FileSystem σ} {user : User} {s s₁ : σ}
    (h : StoredFile ctx ctx₁ me pre x post) {buf : Bytes} {len : Nat} {me₁ : MetaEntry}
    (hbuf : braIoFileCtxReconstructMetaEntryName ctx₁ me = some (buf, len))
    (hcheck : checkHeader buf (CStr.ofBuffer buf).bytes.length me = some me₁)
    (hoverwrite : (braFsFileExistsAskOverwrite fs s (CStr.ofBuffer buf) user false).1 = true)
    (hopen : fs.openWrite s (CStr.ofBuffer buf) = some s₁) :
    ∃ user' s', extractUntilCheck fs ctx user s =
      some ((atCheck ctx₁ me₁ pre x post).1, (atCheck ctx₁ me₁ pre x post).2, user', s') := by
  obtain ⟨-, -, -, -, hme₁⟩ := checkHeader_eq_some_iff.mp hcheck
  have hstored : braAttrComp me₁.attributes = braAttrCompStored := by rw [hme₁]; exact h.stored
  have hsize : x.length = me₁.dataSize := by rw [hme₁]; exact h.size
  have htype : braAttrType me₁.attributes = .file := by rw [hme₁]; exact h.file
  have hcontents := extractContents_stored hstored h.contents hsize
  refine ⟨(braFsFileExistsAskOverwrite fs s (CStr.ofBuffer buf) user false).2,
    fs.closeWrite s₁ (CStr.ofBuffer buf) (x ++ []), ?_⟩
  simp only [extractUntilCheck, h.read, hbuf, hcheck, htype, hoverwrite, hopen, hcontents,
    Option.bind_eq_bind, Option.bind_some, Bool.not_true, Bool.false_eq_true, if_false,
    Option.pure_def]
  rfl

/-- The CRC32 behind the contents does not move when they are altered. -/
theorem readCrc32_ioAt {pre post : Bytes} {crc32 : BitVec 32} {f : IoFile}
    (h : readCrc32 (ioAt pre post) = some (crc32, f)) (pre' : Bytes) :
    ∃ f', readCrc32 (ioAt pre' post) = some (crc32, f') := by
  obtain ⟨⟨buf, f₁⟩, hread, h⟩ := Option.bind_eq_some_iff.mp h
  obtain ⟨rfl, rfl⟩ := Prod.mk.inj (Option.some.inj h)
  obtain ⟨hlen, pre₁, post₁, hf, -⟩ := braIoFileRead_split hread
  obtain ⟨rfl, rfl⟩ := ioAt_inj hf
  rw [readCrc32, braIoFileRead_ioAt pre' buf post₁ hlen]
  exact ⟨_, rfl⟩

/-- **The comparison** that succeeds for the contents fails for altered ones. -/
theorem Alters.checksumFails (h : Alters x x') {c : IoFileCtx}
    (hfinish : finishEntry (atCheck ctx₁ me pre x post).1 (atCheck ctx₁ me pre x post).2 true =
      some c) {f : IoFile} :
    ChecksumFails (atCheck { ctx₁ with f } me pre x' post).1
      (atCheck { ctx₁ with f } me pre x' post).2 := by
  obtain ⟨crc32, f, hread, hsame, -⟩ := finishEntry_eq_some_iff.mp hfinish
  obtain ⟨f', hread'⟩ := readCrc32_ioAt hread (pre ++ x')
  refine ⟨crc32, f', hread', ?_⟩
  rw [hsame rfl]
  exact (h.braCrc32c_ne _).symm

end Stored

/-! ## Both ways of reading the contents -/

section Detected
variable {ctx ctx₁ : IoFileCtx} {me : MetaEntry} {pre x x' post : Bytes}

/-- The entry is right: it is extracted, or it passes the test and there is no NUL in its name. -/
def EntryRight (ctx ctx₁ : IoFileCtx) (me : MetaEntry) : Prop :=
  (∃ c, braIoFileCtxPrintMetaEntry ctx true = some c ∧ NameIntact ctx) ∨
    ∃ (σ : Type) (fs : FileSystem σ) (user : User) (s : σ) (c : IoFileCtx),
      Extracts fs user s ctx ctx₁ c me

/-- What it takes for a stored file to pass the test. -/
theorem StoredFile.of_test (h : StoredFile ctx ctx₁ me pre x post) {c : IoFileCtx}
    (htest : braIoFileCtxPrintMetaEntry ctx true = some c) :
    ∃ buf len me₁, braIoFileCtxReconstructMetaEntryName ctx₁ me = some (buf, len) ∧
      checkHeader buf len me = some me₁ ∧
      finishEntry (atCheck ctx₁ me₁ pre x post).1 (atCheck ctx₁ me₁ pre x post).2 true =
        some c := by
  rw [braIoFileCtxPrintMetaEntry_eq] at htest
  obtain ⟨r, huntil, hfinish⟩ := Option.bind_eq_some_iff.mp htest
  have hsteps := huntil
  simp only [testUntilCheck, h.read, Option.bind_eq_bind, Option.bind_some] at hsteps
  obtain ⟨⟨buf, len⟩, hbuf, hsteps⟩ := Option.bind_eq_some_iff.mp hsteps
  obtain ⟨me₁, hcheck, -⟩ := Option.bind_eq_some_iff.mp hsteps
  obtain rfl := Option.some.inj (huntil.symm.trans (h.testUntilCheck_eq hbuf hcheck))
  exact ⟨buf, len, me₁, hbuf, hcheck, hfinish⟩

/-- What it takes for a stored file to be extracted. -/
theorem StoredFile.of_right (h : StoredFile ctx ctx₁ me pre x post)
    (hright : EntryRight ctx ctx₁ me) :
    ∃ buf len me₁ c, braIoFileCtxReconstructMetaEntryName ctx₁ me = some (buf, len) ∧
      CStr.ofBuffer buf = entryFn ctx₁ me ∧
      checkHeader buf (CStr.ofBuffer buf).bytes.length me = some me₁ ∧
      finishEntry (atCheck ctx₁ me₁ pre x post).1 (atCheck ctx₁ me₁ pre x post).2 true =
        some c := by
  obtain ⟨-, -, hname⟩ := braIoFileCtxReadMetaEntry_eq_some h.read
  have hfn : ∀ {buf len}, braIoFileCtxReconstructMetaEntryName ctx₁ me = some (buf, len) →
      CStr.ofBuffer buf = entryFn ctx₁ me := by
    intro buf len hbuf
    obtain ⟨⟨rest, rfl⟩, -⟩ := reconstructName_file hname h.file hbuf
    exact ofBuffer_entryPath hname rest
  rcases hright with ⟨c, htest, hintact⟩ | ⟨σ, fs, user, s, c, hextracts⟩
  · obtain ⟨buf, len, me₁, hbuf, hcheck, hfinish⟩ := h.of_test htest
    rw [← path_length_eq hintact h.read hbuf] at hcheck
    exact ⟨buf, len, me₁, c, hbuf, hfn hbuf, hcheck, hfinish⟩
  · obtain ⟨buf, len, r, hbuf, hcheck, hcontents, hfinish⟩ := hextracts.steps
    have hstored : braAttrComp (me.withHeaderCrc (entryPath ctx₁ me)).attributes =
        braAttrCompStored := h.stored
    rw [extractContents_stored hstored h.contents h.size] at hcontents
    obtain rfl := Option.some.inj hcontents
    refine ⟨buf, len, me.withHeaderCrc (entryPath ctx₁ me), c, hbuf, hfn hbuf, ?_, hfinish⟩
    rw [hfn hbuf, entryFn_bytes hname]
    exact hcheck

/-- **Altered contents are detected.**  For every stored file and every alteration of its
contents within four consecutive bytes: if the file passed the test, the test fails now at the
checksum; and if it was right, extracting it, wherever it is written, fails at the checksum. -/
theorem alteredContents_detected (h : StoredFile ctx ctx₁ me pre x post) (halters : Alters x x') :
    (∀ c, braIoFileCtxPrintMetaEntry ctx true = some c →
      TestReportsChecksum (ctx.withData (pre ++ (x' ++ post)))) ∧
    (EntryRight ctx ctx₁ me → ∀ (σ : Type) (fs : FileSystem σ) (user : User) (s s₁ : σ),
      (braFsFileExistsAskOverwrite fs s (entryFn ctx₁ me) user false).1 = true →
      fs.openWrite s (entryFn ctx₁ me) = some s₁ →
        ExtractReportsChecksum fs (ctx.withData (pre ++ (x' ++ post))) user s) := by
  have h' := h.withData halters.length_eq
  constructor
  · intro c htest
    obtain ⟨buf, len, me₁, hbuf, hcheck, hfinish⟩ := h.of_test htest
    have huntil := h'.testUntilCheck_eq hbuf hcheck
    have hfails := halters.checksumFails hfinish (f := ioAt pre (x' ++ post))
    refine ⟨⟨_, _, huntil, hfails⟩, ?_⟩
    rw [braIoFileCtxPrintMetaEntry_eq, huntil, Option.bind_some]
    exact hfails.finishEntry_eq_none
  · intro hright σ fs user s s₁ hoverwrite hopen
    obtain ⟨buf, len, me₁, c, hbuf, hfn, hcheck, hfinish⟩ := h.of_right hright
    rw [← hfn] at hoverwrite hopen
    obtain ⟨user', s', huntil⟩ := h'.extractUntilCheck_eq hbuf hcheck hoverwrite hopen
    have hfails := halters.checksumFails hfinish (f := ioAt pre (x' ++ post))
    refine ⟨⟨_, _, user', s', huntil, hfails⟩, ?_⟩
    rw [decode_of_extractUntilCheck huntil, hfails.finishEntry_eq_none]
    rfl

end Detected

/-- An archive of the stored file `a` with the contents `bcdefghijk`. -/
def textArchive : Bytes :=
  leBytes 4 braMagic ++ leBytes 4 1 ++ [0, 1, 97] ++ leBytes 8 10 ++
    [98, 99, 100, 101, 102, 103, 104, 105, 106, 107] ++ leBytes 4 4168425520

/-- The entry of that archive. -/
def textEntry : MetaEntry := ⟨0, 1, [97], .file 10, braCrc32cInit⟩

/-- The contents change from `fghi` to `fGhI` in the middle. -/
theorem alteredContents_detected_letters :
    TestReportsChecksum ((readerAt textArchive 8).withData (textArchive.take 19 ++
        ([98, 99, 100, 101, 102, 71, 104, 73, 106, 107] ++ textArchive.drop 29))) ∧
      ExtractReportsChecksum FileSystem.permissive
        ((readerAt textArchive 8).withData (textArchive.take 19 ++
          ([98, 99, 100, 101, 102, 71, 104, 73, 106, 107] ++ textArchive.drop 29)))
        ⟨.alwaysYes, []⟩ () := by
  have hextracts : Extracts FileSystem.permissive ⟨.alwaysYes, []⟩ () (readerAt textArchive 8)
      (readerAt textArchive 19) (readerAt textArchive 33) textEntry :=
    ⟨by decide +kernel, rfl, rfl, ⟨.alwaysYes, []⟩, (), by decide +kernel⟩
  have hstored : StoredFile (readerAt textArchive 8) (readerAt textArchive 19) textEntry
      (textArchive.take 19) [98, 99, 100, 101, 102, 103, 104, 105, 106, 107]
      (textArchive.drop 29) :=
    ⟨hextracts.read, rfl, rfl, by decide +kernel, rfl⟩
  have halters : Alters [98, 99, 100, 101, 102, 103, 104, 105, 106, 107]
      [98, 99, 100, 101, 102, 71, 104, 73, 106, 107] := by
    refine ⟨rfl, by decide, 4, fun i hi => ?_⟩
    by_cases hlt : i < 10
    · interval_cases i <;> revert hi <;> decide
    · exact absurd (by rw [List.getElem?_eq_none (by simp; omega),
        List.getElem?_eq_none (by simp; omega)]) hi
  obtain ⟨htest, hextract⟩ := alteredContents_detected hstored halters
  exact ⟨htest (readerAt textArchive 33) (by decide +kernel),
    hextract (.inr ⟨_, _, _, _, _, hextracts⟩) _ _ _ _ () rfl rfl⟩

end BrArchive
