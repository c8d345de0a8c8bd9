import BrArchive.ReadersConsume

/-! # Unpacking

`run_prog` of `unbra.cpp` and of `bra_sfx.cpp`: an archive is opened, and its entries are
listed, tested or extracted, one after the other, to the output directory, which is the
current one then.
-/
namespace BrArchive
open Consuming

/-- The start of `run_prog`: the archive, or the self-extracting one, is opened and its
header read. -/
def unbraOpen (sfx : Bool) (f : IoFile) : Option IoFileCtx :=
  if sfx then braIoFileCtxSfxOpenAndReadFooterHeader f
  else braIoFileCtxReadHeader (braIoFileCtxOpen f)

section Programs
variable {σ : Type} (fs : FileSystem σ)

/-- `run_prog` of `unbra.cpp`.  That of `bra_sfx.cpp` does the same with `sfx`, and never
lists. -/
def unbraRunProg (sfx listContent testContent : Bool) (f : IoFile) (user : User) (s : σ) :
    Option (IoFileCtx × User × σ) := do
  let ctx ← unbraOpen sfx f
  if listContent || testContent then do
    let ctx ← printEntries testContent ctx.numFiles ctx
    return (ctx, user, s)
  else decodeEntries fs ctx.numFiles ctx user s

theorem entries_consume (listContent testContent : Bool) (input : Bytes) (s : σ) (n : Nat)
    (ctx : IoFileCtx) : Consumes ioAt (attachDisk input) fun f =>
      if listContent || testContent then
        (printEntries testContent n (ctx.attach f)).bind fun ctx =>
          some (ctx, (⟨.alwaysYes, input⟩ : User), s)
      else decodeEntries fs n (ctx.attach f) ⟨.alwaysYes, input⟩ s := by
  refine .ite ?_ (decodeEntries_consumes fs input n ctx s)
  exact (printEntries_consumes testContent n ctx).bind fun ctx => .pure (ctx, s)

theorem unbraRunProg_consumes (listContent testContent : Bool) (input : Bytes) (s : σ) :
    Consumes ioAt (attachDisk input) fun f =>
      unbraRunProg fs false listContent testContent f ⟨.alwaysYes, input⟩ s :=
  (braIoFileCtxReadHeader_consumes (braIoFileCtxOpen ⟨[], 0⟩)).bind fun ctx =>
    entries_consume fs listContent testContent input s ctx.numFiles ctx

variable {fs}

/-- What the program has read is all that it depends on. -/
theorem unbraRunProg_readsExactly {listContent testContent : Bool} {input data : Bytes} {s s' : σ}
    {ctx : IoFileCtx} {user' : User}
    (h : unbraRunProg fs false listContent testContent ⟨data, 0⟩ ⟨.alwaysYes, input⟩ s =
      some (ctx, user', s')) :
    ∃ archive rest, data = archive ++ rest ∧ ctx.f = ioAt archive rest ∧
      user' = ⟨.alwaysYes, input⟩ ∧ ReadsExactly ioAt (attachDisk input)
        (fun f => unbraRunProg fs false listContent testContent f ⟨.alwaysYes, input⟩ s) (ctx, s')
        archive := by
  have h : unbraRunProg fs false listContent testContent (ioAt [] data) ⟨.alwaysYes, input⟩ s =
    some (ctx, user', s') := h
  obtain ⟨⟨c, s₁⟩, archive, rest, hdata, hd, hreads⟩ :=
    (unbraRunProg_consumes fs listContent testContent input s).readsExactly ioAt_place
      (fun _ _ _ _ hput => congrArg (fun r => r.1.f) hput) h
  obtain ⟨rfl, hrest⟩ := Prod.mk.inj hd
  obtain ⟨rfl, rfl⟩ := Prod.mk.inj hrest
  exact ⟨archive, rest, hdata, rfl, rfl, hreads.anywhere, hreads.short⟩

/-- **An archive is read to its end and no further.**  If `unbra`, told to overwrite
everything, succeeds on a file, then that file begins with an archive at whose end it stops:
what follows it changes nothing about the result, and of the archive nothing can be missing,
or `unbra` fails.  So it is when entries are listed, tested or extracted. -/
theorem archive_readExactly {listContent testContent : Bool} {input data : Bytes} {s s' : σ}
    {ctx : IoFileCtx} {user' : User}
    (h : unbraRunProg fs false listContent testContent ⟨data, 0⟩ ⟨.alwaysYes, input⟩ s =
      some (ctx, user', s')) :
    ∃ archive rest, data = archive ++ rest ∧ ctx.f = ioAt archive rest ∧
      (∀ rest', unbraRunProg fs false listContent testContent ⟨archive ++ rest', 0⟩
        ⟨.alwaysYes, input⟩ s = some ({ ctx with f := ioAt archive rest' }, user', s')) ∧
      ∀ part, part <+: archive → part ≠ archive →
        unbraRunProg fs false listContent testContent ⟨part, 0⟩ ⟨.alwaysYes, input⟩ s = none := by
  obtain ⟨archive, rest, hdata, hf, rfl, hreads⟩ := unbraRunProg_readsExactly h
  exact ⟨archive, rest, hdata, hf, hreads.anywhere [], hreads.short []⟩

theorem unbraOpen_sfx (image : SfxImage) (hsize : image.bytes.length < 2 ^ 63) :
    unbraOpen true ⟨image.bytes, 0⟩ =
      some (({ braIoFileCtxOpen ⟨[], 0⟩ with numFiles := image.numFiles } : IoFileCtx).attach
        (ioAt (image.program ++ image.header) (image.payload ++ image.footer))) := by
  rw [unbraOpen, if_pos rfl, image.opens hsize, image.ioAt_payload]
  rfl

/-- The archive of a self-extracting one, with its footer behind it. -/
theorem unbraOpen_embedded (image : SfxImage) (rest : Bytes) :
    unbraOpen false ⟨image.header ++ rest, 0⟩ =
      some (({ braIoFileCtxOpen ⟨[], 0⟩ with numFiles := image.numFiles } : IoFileCtx).attach
        (ioAt image.header rest)) :=
  braIoFileCtxReadHeader_eq image.numFiles_lt rest

/-- **A self-extracting archive is read like the archive in it.**  Told to overwrite
everything, the reader that finds the archive behind a program by its footer gets the same
from it as `unbra` from the archive alone, if that succeeds; and with the footer's bytes behind
the archive the two succeed or fail together. -/
theorem sfxArchive_readAlike (fs : FileSystem σ) {image : SfxImage} (hsize : image.bytes.length < 2 ^ 63)
    (listContent testContent : Bool) (input : Bytes) (s : σ) :
    (unbraRunProg fs true listContent testContent ⟨image.bytes, 0⟩ ⟨.alwaysYes, input⟩ s).map
        Prod.snd =
      (unbraRunProg fs false listContent testContent
        ⟨image.header ++ (image.payload ++ image.footer), 0⟩ ⟨.alwaysYes, input⟩ s).map
        Prod.snd ∧
    ∀ r, unbraRunProg fs false listContent testContent ⟨image.header ++ image.payload, 0⟩
        ⟨.alwaysYes, input⟩ s = some r →
      (unbraRunProg fs true listContent testContent ⟨image.bytes, 0⟩ ⟨.alwaysYes, input⟩ s).map
        Prod.snd = some r.2 := by
  have halike : (unbraRunProg fs true listContent testContent ⟨image.bytes, 0⟩
        ⟨.alwaysYes, input⟩ s).map Prod.snd =
      (unbraRunProg fs false listContent testContent
        ⟨image.header ++ (image.payload ++ image.footer), 0⟩ ⟨.alwaysYes, input⟩ s).map
        Prod.snd := by
    rw [unbraRunProg, unbraRunProg, unbraOpen_sfx image hsize, unbraOpen_embedded]
    exact (entries_consume fs listContent testContent input s image.numFiles _).map_relocate
      (fun _ _ => rfl) _ _ _
  refine ⟨halike, fun r hr => ?_⟩
  obtain ⟨ctx, user', s'⟩ := r
  obtain ⟨archive, rest, hdata, -, rfl, hreads⟩ := unbraRunProg_readsExactly hr
  have hanywhere : ∀ rest', unbraRunProg fs false listContent testContent ⟨archive ++ rest', 0⟩
      ⟨.alwaysYes, input⟩ s =
        some ({ ctx with f := ioAt archive rest' }, ⟨.alwaysYes, input⟩, s') := hreads.anywhere []
  rw [halike, ← List.append_assoc, hdata, List.append_assoc, hanywhere]
  rfl

end Programs

/-- An archive with bytes behind it, which are not looked at. -/
theorem archive_readExactly_stored :
    ∃ archive rest, storedArchive ++ [1, 2, 3] = archive ++ rest ∧
      ∀ part, part <+: archive → part ≠ archive →
        unbraRunProg FileSystem.permissive false false false ⟨part, 0⟩ ⟨.alwaysYes, []⟩ () =
          none := by
  obtain ⟨archive, rest, hdata, -, -, hshort⟩ := archive_readExactly
    (show unbraRunProg FileSystem.permissive false false false
        ⟨storedArchive ++ [1, 2, 3], 0⟩ ⟨.alwaysYes, []⟩ () =
      some (readerAt (storedArchive ++ [1, 2, 3]) storedArchive.length, ⟨.alwaysYes, []⟩, ()) by
        decide +kernel)
  exact ⟨archive, rest, hdata, hshort⟩

/-- The archive of a stored file behind one byte of a program. -/
def storedImage : SfxImage where
  program := [77]
  numFiles := 1
  payload := storedArchive.drop sizeofHeader
  program_ne := by decide
  numFiles_lt := by decide
  payload_ne := by decide +kernel

theorem sfxArchive_readAlike_stored :
    (unbraRunProg FileSystem.permissive true false false ⟨storedImage.bytes, 0⟩
      ⟨.alwaysYes, []⟩ ()).map Prod.snd = some (⟨.alwaysYes, []⟩, ()) :=
  have hsize : storedImage.bytes.length < 2 ^ 63 := by decide +kernel
  (sfxArchive_readAlike FileSystem.permissive hsize false false [] ()).2
    (readerAt storedArchive storedArchive.length, ⟨.alwaysYes, []⟩, ()) (by decide +kernel)

end BrArchive
