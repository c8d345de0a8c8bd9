import BrArchive.EntryPassing

/-! # Testing predicts extracting

Testing an archive and extracting it do the same with every entry, as long as no file has
a NUL in its name: then the length test mode goes by is that of the string extracting goes
by.
-/
namespace BrArchive

/-- The next entry, if it is a file, has no NUL in its name: the recorded size of the name
is the length of the string. -/
def NameIntact (ctx : IoFileCtx) : Prop :=
  ∀ me ctx₁, braIoFileCtxReadMetaEntry ctx = some (me, ctx₁) →
    braAttrType me.attributes = .file → me.nameSize.toNat = me.name.length

/-- Every create, open and write succeeds. -/
structure FileSystem.NeverFails {σ : Type} (fs : FileSystem σ) : Prop where
  dirMake : ∀ s path, ∃ s', fs.dirMake s path = some s'
  openWrite : ∀ s path, ∃ s', fs.openWrite s path = some s'

/-- Testing the next entry predicts extracting it: both take the path to have the same
length; and both fail, or both succeed and leave the same context, with the same position,
directory tree and current directory. -/
structure TestPredicts {σ : Type} (fs : FileSystem σ) (ctx : IoFileCtx) (input : Bytes) (s : σ) :
    Prop where
  path : ∀ me ctx₁ buf len, braIoFileCtxReadMetaEntry ctx = some (me, ctx₁) →
    braIoFileCtxReconstructMetaEntryName ctx₁ me = some (buf, len) →
      (CStr.ofBuffer buf).bytes.length = len
  result : (braIoFileCtxDecodeAndWriteToDisk fs ctx ⟨.alwaysYes, input⟩ s).map Prod.fst =
    braIoFileCtxPrintMetaEntry ctx true

/-- The reader goes over the next entry: it lists, tests, extracts or skips it. -/
inductive ReaderStep (ctx ctx' : IoFileCtx) : Prop
  | print (testMode : Bool) (h : braIoFileCtxPrintMetaEntry ctx testMode = some ctx')
  | decode {σ : Type} (fs : FileSystem σ) (user user' : User) (s s' : σ)
      (h : braIoFileCtxDecodeAndWriteToDisk fs ctx user s = some (ctx', user', s'))

/-- The states the reader gets to over entries without a NUL in the name of a file. -/
inductive ReaderRun : IoFileCtx → IoFileCtx → Prop
  | refl (ctx : IoFileCtx) : ReaderRun ctx ctx
  | step {ctx₀ ctx ctx' : IoFileCtx} (run : ReaderRun ctx₀ ctx) (intact : NameIntact ctx)
      (next : ReaderStep ctx ctx') : ReaderRun ctx₀ ctx'

/-! ## One entry -/

section Step
variable {σ : Type} {fs : FileSystem σ} {ctx ctx₁ : IoFileCtx} {me : MetaEntry}

/-- Both take the path to have the same length. -/
theorem path_length_eq (hintact : NameIntact ctx)
    (hread : braIoFileCtxReadMetaEntry ctx = some (me, ctx₁)) {buf : Bytes} {len : Nat}
    (hbuf : braIoFileCtxReconstructMetaEntryName ctx₁ me = some (buf, len)) :
    (CStr.ofBuffer buf).bytes.length = len := by
  obtain ⟨-, -, hname⟩ := braIoFileCtxReadMetaEntry_eq_some hread
  by_cases hfile : braAttrType me.attributes = .file
  · have hsize := hintact me ctx₁ hread hfile
    obtain ⟨⟨rest, rfl⟩, hlen, -⟩ := reconstructName_file hname hfile hbuf
    rw [ofBuffer_entryPath hname, entryFn_bytes hname]
    omega
  · obtain ⟨rfl, rfl⟩ := reconstructName_dir hfile hbuf
    rw [ofBuffer_entryPath hname, entryFn_bytes hname]

/-- A directory that is not there is made. -/
theorem FileSystem.NeverFails.dir (hfs : fs.NeverFails) (s : σ) (path : CStr) :
    ∃ s', extractDir fs s path = some s' := by
  rw [extractDir]
  split
  · exact ⟨s, rfl⟩
  · exact hfs.dirMake s path

/-- **One entry**: testing it predicts extracting it. -/
theorem testPredicts_of_intact (hfs : fs.NeverFails) (hintact : NameIntact ctx) (input : Bytes)
    (s : σ) : TestPredicts fs ctx input s where
  path _ _ _ _ hread hbuf := path_length_eq hintact hread hbuf
  result := by
    cases hread : braIoFileCtxReadMetaEntry ctx with
    | none =>
      simp only [braIoFileCtxDecodeAndWriteToDisk, braIoFileCtxPrintMetaEntry, hread,
        Option.bind_eq_bind, Option.bind_none, Option.map_none]
    | some r =>
      obtain ⟨me, ctx₁⟩ := r
      cases hbuf : braIoFileCtxReconstructMetaEntryName ctx₁ me with
      | none =>
        simp only [braIoFileCtxDecodeAndWriteToDisk, braIoFileCtxPrintMetaEntry, hread, hbuf,
          Option.bind_eq_bind, Option.bind_some, Option.bind_none, Option.map_none]
      | some r =>
        obtain ⟨buf, len⟩ := r
        have hlen := path_length_eq hintact hread hbuf
        simp only [braIoFileCtxDecodeAndWriteToDisk, braIoFileCtxPrintMetaEntry, hread, hbuf,
          hlen, Option.bind_eq_bind, Option.bind_some, if_true]
        cases hcheck : checkHeader buf len me with
        | none => rfl
        | some me =>
          simp only [Option.bind_some]
          cases htype : braAttrType me.attributes with
          | file =>
            -- the chunks are decoded in the same way, with the output written or without
            obtain ⟨s', hs'⟩ := hfs.openWrite s (CStr.ofBuffer buf)
            simp only [askOverwrite_alwaysYes, Bool.not_true, Bool.false_eq_true, if_false, hs',
              Option.bind_some, braIoFileChunksReadFile_eq ⟨[], 0⟩]
            cases extractContents ⟨[], 0⟩ ctx₁.f me.addDataSize with
            | none => rfl
            | some r =>
              simp only [Option.bind_some, Option.map_some]
              cases finishEntry { ctx₁ with f := r.2.1 } r.2.2 true <;> rfl
          | dir =>
            obtain ⟨s', hs'⟩ := hfs.dir s (CStr.ofBuffer buf)
            simp only [hs', Option.bind_some]
            cases finishEntry ctx₁ me true <;> rfl
          | subdir =>
            obtain ⟨s', hs'⟩ := hfs.dir s (CStr.ofBuffer buf)
            simp only [hs', Option.bind_some]
            cases finishEntry ctx₁ me.addParentIndex true <;> rfl
          | sym => rfl

/-- An entry that is extracted does not change the policy. -/
theorem decode_alwaysYes {input : Bytes} {s s' : σ} {ctx' : IoFileCtx} {user' : User}
    (h : braIoFileCtxDecodeAndWriteToDisk fs ctx ⟨.alwaysYes, input⟩ s = some (ctx', user', s')) :
    user' = ⟨.alwaysYes, input⟩ := by
  rw [braIoFileCtxDecodeAndWriteToDisk] at h
  obtain ⟨⟨me, ctx₁⟩, -, h⟩ := Option.bind_eq_some_iff.mp h
  obtain ⟨⟨buf, len⟩, -, h⟩ := Option.bind_eq_some_iff.mp h
  obtain ⟨me₁, -, h⟩ := Option.bind_eq_some_iff.mp h
  dsimp only at h
  split at h
  · rw [askOverwrite_alwaysYes] at h
    obtain ⟨s₁, -, h⟩ := Option.bind_eq_some_iff.mp h
    obtain ⟨r, -, h⟩ := Option.bind_eq_some_iff.mp h
    obtain ⟨ctx₂, -, h⟩ := Option.bind_eq_some_iff.mp h
    exact (Prod.mk.inj (Prod.mk.inj (Option.some.inj h)).2).1.symm
  · obtain ⟨s₁, -, h⟩ := Option.bind_eq_some_iff.mp h
    obtain ⟨ctx₂, -, h⟩ := Option.bind_eq_some_iff.mp h
    exact (Prod.mk.inj (Prod.mk.inj (Option.some.inj h)).2).1.symm
  · obtain ⟨s₁, -, h⟩ := Option.bind_eq_some_iff.mp h
    obtain ⟨ctx₂, -, h⟩ := Option.bind_eq_some_iff.mp h
    exact (Prod.mk.inj (Prod.mk.inj (Option.some.inj h)).2).1.symm
  · cases h

/-! ## A whole archive -/

/-- **The loops** of `unbra`: testing the entries predicts extracting them. -/
theorem decodeEntries_map_fst (hfs : fs.NeverFails) (input : Bytes) (n : Nat) :
    ∀ (ctx : IoFileCtx) (s : σ),
      (∀ k c, k < n → printEntries true k ctx = some c → NameIntact c) →
      (decodeEntries fs n ctx ⟨.alwaysYes, input⟩ s).map Prod.fst = printEntries true n ctx := by
  induction n with
  | zero => exact fun _ _ _ => rfl
  | succ n ih =>
    intro ctx s hintact
    have hstep := (testPredicts_of_intact hfs (hintact 0 ctx (Nat.succ_pos n) rfl) input s).result
    rw [decodeEntries, printEntries]
    cases hdecode : braIoFileCtxDecodeAndWriteToDisk fs ctx ⟨.alwaysYes, input⟩ s with
    | none =>
      rw [hdecode] at hstep
      rw [← hstep]
      rfl
    | some r =>
      obtain ⟨ctx', user', s'⟩ := r
      rw [hdecode] at hstep
      have hprint : braIoFileCtxPrintMetaEntry ctx true = some ctx' := hstep.symm
      obtain rfl := decode_alwaysYes hdecode
      rw [hprint]
      refine ih ctx' s' fun k c hk hc => hintact (k + 1) c (Nat.succ_lt_succ hk) ?_
      rw [printEntries, hprint]
      exact hc

end Step

/-- **Testing an archive predicts extracting it.**  Let the reader start anywhere, such as
behind the header of an archive, and let every create, open and write succeed.  In every
state it gets to over entries without a NUL in the name of a file, testing the next entry
predicts extracting it if that entry has none either.  If no entry that is tested has one,
testing the whole archive passes exactly if all its entries are extracted, and ends in the
same state. -/
theorem testing_predicts_extracting {σ : Type} {fs : FileSystem σ} (hfs : fs.NeverFails)
    (ctx₀ : IoFileCtx) (input : Bytes) (s : σ) :
    (∀ ctx, ReaderRun ctx₀ ctx → NameIntact ctx → TestPredicts fs ctx input s) ∧
    ((∀ k c, k < ctx₀.numFiles → printEntries true k ctx₀ = some c → NameIntact c) →
      (decodeEntries fs ctx₀.numFiles ctx₀ ⟨.alwaysYes, input⟩ s).map Prod.fst =
        printEntries true ctx₀.numFiles ctx₀) :=
  ⟨fun _ _ hintact => testPredicts_of_intact hfs hintact input s,
    decodeEntries_map_fst hfs input ctx₀.numFiles ctx₀ s⟩

theorem permissive_neverFails : FileSystem.permissive.NeverFails where
  dirMake _ _ := ⟨(), rfl⟩
  openWrite _ _ := ⟨(), rfl⟩

theorem storedArchive_nameIntact : NameIntact (readerAt storedArchive 8) := by
  intro me ctx₁ hread _
  obtain ⟨rfl, -⟩ := Prod.mk.inj (Option.some.inj (hread.symm.trans storedEntry_extracts.read))
  rfl

theorem testing_predicts_extracting_stored :
    TestPredicts FileSystem.permissive (readerAt storedArchive 8) [] () ∧
      (decodeEntries FileSystem.permissive 1 (readerAt storedArchive 8) ⟨.alwaysYes, []⟩ ()).map
          Prod.fst = printEntries true 1 (readerAt storedArchive 8) := by
  obtain ⟨hrun, hloop⟩ :=
    testing_predicts_extracting permissive_neverFails (readerAt storedArchive 8) [] ()
  refine ⟨hrun _ (.refl _) storedArchive_nameIntact, hloop fun k c hk hc => ?_⟩
  obtain rfl : k = 0 := Nat.lt_one_iff.mp hk
  obtain rfl := Option.some.inj hc
  exact storedArchive_nameIntact

/-- An archive of the stored file `a`, whose name is recorded with its NUL. -/
def nulArchive : Bytes :=
  leBytes 4 braMagic ++ leBytes 4 1 ++ [0, 2, 97, 0] ++ leBytes 8 1 ++ [98] ++
    leBytes 4 288837879

/-- The entry is extracted, but does not pass the test: there the NUL is part of the path. -/
theorem nulArchive_not_predicted :
    braIoFileCtxReadHeader (braIoFileCtxOpen ⟨nulArchive, 0⟩) = some (readerAt nulArchive 8) ∧
      braIoFileCtxDecodeAndWriteToDisk FileSystem.permissive (readerAt nulArchive 8)
          ⟨.alwaysYes, []⟩ () = some (readerAt nulArchive 25, ⟨.alwaysYes, []⟩, ()) ∧
      braIoFileCtxPrintMetaEntry (readerAt nulArchive 8) true = none ∧
      ¬ TestPredicts FileSystem.permissive (readerAt nulArchive 8) [] () := by
  have hdecode : braIoFileCtxDecodeAndWriteToDisk FileSystem.permissive (readerAt nulArchive 8)
      ⟨.alwaysYes, []⟩ () = some (readerAt nulArchive 25, ⟨.alwaysYes, []⟩, ()) := by
    decide +kernel
  have hprint : braIoFileCtxPrintMetaEntry (readerAt nulArchive 8) true = none := by
    decide +kernel
  refine ⟨by decide +kernel, hdecode, hprint, fun h => ?_⟩
  have hresult := h.result
  rw [hdecode, hprint] at hresult
  cases hresult

end BrArchive
