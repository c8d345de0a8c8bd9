import BrArchive.ArchiveRoundTrip
import BrArchive.WriterFrame

/-! # Self-extracting archives

An archive is put behind a program, over the last bytes of the program's file, which are kept
free for this.  A footer at the end of the file says where the archive begins.
-/
namespace BrArchive

/-- `BRA_FOOTER_MAGIC`. -/
def braFooterMagic : Nat := 0x782D5242

/-- Size of a `bra_io_footer_t`. -/
def sizeofFooter : Nat := 12

/-- `bra_io_file_seek` with `SEEK_END`: no position is negative. -/
def braIoFileSeekEnd (f : IoFile) (offs : Int) : Option IoFile :=
  if (f.data.length : Int) + offs < 0 then none
  else some { f with pos := ((f.data.length : Int) + offs).toNat }

/-- `bra_io_file_read_footer`: the offset of the header. -/
def braIoFileReadFooter (f : IoFile) : Option (Int × IoFile) := do
  let (bf, f) ← braIoFileRead f sizeofFooter
  let headerOffset := toInt64 (leValue (bf.drop 4))
  if leValue (bf.take 4) ≠ braFooterMagic ∨ headerOffset ≤ 0 then none
  else return (headerOffset, f)

/-- `bra_io_file_write_footer`. -/
def braIoFileWriteFooter (f : IoFile) (headerOffset : Nat) : IoFile :=
  braIoFileWrite f (leBytes 4 braFooterMagic ++ leBytes 8 headerOffset)

/-- `bra_io_file_ctx_sfx_open` on a file that could be opened. -/
def braIoFileCtxSfxOpen (f : IoFile) : Option IoFileCtx := do
  let ctx := braIoFileCtxOpen f
  let f ← braIoFileSeekEnd ctx.f 0
  if braIoFileTell f < sizeofFooter then none
  else
    let f ← braIoFileSeekEnd f (-1 * sizeofFooter)
    return { ctx with f }

/-- `bra_io_file_ctx_sfx_open_and_read_footer_header` on a file that could be opened. -/
def braIoFileCtxSfxOpenAndReadFooterHeader (f : IoFile) : Option IoFileCtx := do
  let ctx ← braIoFileCtxSfxOpen f
  let (headerOffset, f) ← braIoFileReadFooter ctx.f
  let footerStart : Int := braIoFileTell f - sizeofFooter
  if footerStart ≤ 0 ∨ headerOffset ≤ 0 ∨ headerOffset ≥ footerStart - sizeofHeader then none
  else braIoFileCtxReadHeader { ctx with f := braIoFileSeekSet f headerOffset.toNat }

section Write
variable {σ : Type} (fs : FileSystem σ) (qsortR : QsortR) (s : σ)

/-- What `run_prog` of `bra.cpp` writes to an archive. -/
def writeArchive (numFiles : Nat) (fns : List CStr) (compress : Bool) : Option Bytes :=
  (encodeEntries fs qsortR s compress fns (newArchive numFiles)).map fun ctx => ctx.f.data

/-- What it makes of a copy of the SFX module. -/
def writeSfxArchive (sfxModule : Bytes) (numFiles : Nat) (fns : List CStr) (compress : Bool) :
    Option Bytes := do
  let ctx ← braIoFileCtxSfxOpen ⟨sfxModule, 0⟩
  let headerOffset := braIoFileTell ctx.f
  (encodeEntries fs qsortR s compress fns (braIoFileCtxWriteHeader ctx numFiles)).map fun ctx =>
    (braIoFileWriteFooter ctx.f headerOffset).data

end Write

/-! ## The layout -/

/-- A self-extracting archive: a program, a header, the bytes of at least one entry, and a
footer with the offset of the header. -/
structure SfxImage where
  program : Bytes
  numFiles : Nat
  payload : Bytes
  program_ne : program ≠ []
  numFiles_lt : numFiles < 2 ^ 32
  payload_ne : payload ≠ []

namespace SfxImage

/-- The header of an archive. -/
def header (image : SfxImage) : Bytes := leBytes 4 braMagic ++ leBytes 4 image.numFiles

/-- The footer gives the length of the program. -/
def footer (image : SfxImage) : Bytes :=
  leBytes 4 braFooterMagic ++ leBytes 8 image.program.length

/-- The file. -/
def bytes (image : SfxImage) : Bytes :=
  image.program ++ image.header ++ image.payload ++ image.footer

variable (image : SfxImage)

theorem header_length : image.header.length = sizeofHeader := by
  rw [header, List.length_append, leBytes_length, leBytes_length, sizeofHeader]

theorem footer_length : image.footer.length = sizeofFooter := by
  rw [footer, List.length_append, leBytes_length, leBytes_length, sizeofFooter]

theorem bytes_length : image.bytes.length =
    image.program.length + sizeofHeader + image.payload.length + sizeofFooter := by
  rw [bytes, List.length_append, List.length_append, List.length_append, header_length,
    footer_length]

end SfxImage

/-! ## Finding the archive -/

/-- **Opening at the footer**: there have to be as many bytes. -/
theorem braIoFileCtxSfxOpen_eq (data : Bytes) (pos : Nat) :
    braIoFileCtxSfxOpen ⟨data, pos⟩ =
      if data.length < sizeofFooter then none
      else some (braIoFileCtxOpen ⟨data, data.length - sizeofFooter⟩) := by
  have hend : braIoFileSeekEnd ⟨data, pos⟩ 0 = some ⟨data, data.length⟩ := by
    rw [braIoFileSeekEnd, Int.add_zero, if_neg (by omega)]
    rfl
  by_cases hlen : data.length < sizeofFooter
  · rw [if_pos hlen, braIoFileCtxSfxOpen, braIoFileCtxOpen, hend]
    exact if_pos hlen
  · have hsub : braIoFileSeekEnd ⟨data, data.length⟩ (-1 * sizeofFooter) =
        some ⟨data, data.length - sizeofFooter⟩ := by
      rw [braIoFileSeekEnd, if_neg (by dsimp only; omega)]
      congr 2
      dsimp only
      omega
    rw [if_neg hlen, braIoFileCtxSfxOpen, braIoFileCtxOpen, hend]
    refine (if_neg hlen).trans ?_
    rw [hsub]
    rfl

/-- What is taken for a footer. -/
theorem braIoFileReadFooter_eq_some {f f' : IoFile} {headerOffset : Int}
    (h : braIoFileReadFooter f = some (headerOffset, f')) :
    0 < headerOffset ∧ headerOffset < 2 ^ 63 ∧
      braIoFileRead f sizeofFooter =
        some (leBytes 4 braFooterMagic ++ leBytes 8 headerOffset.toNat, f') := by
  obtain ⟨⟨bf, f₁⟩, hread, h⟩ := Option.bind_eq_some_iff.mp h
  dsimp only at h
  split at h
  · cases h
  · rename_i hbf
    obtain ⟨hmagic, hpos⟩ := not_or.mp hbf
    obtain ⟨rfl, rfl⟩ := Prod.mk.inj (Option.some.inj h)
    have hlen : bf.length = 12 := (braIoFileRead_eq_some hread).1
    have hdrop : (bf.drop 4).length = 8 := by rw [List.length_drop, hlen]
    have htake : (bf.take 4).length = 4 := by rw [List.length_take, hlen]; rfl
    have hoffset : leValue (bf.drop 4) < 2 ^ 64 := by
      have := leValue_lt (bf.drop 4)
      rw [hdrop] at this
      exact this
    -- a positive int64_t is the value its eight bytes have without a sign
    have hsigned : toInt64 (leValue (bf.drop 4)) < 2 ^ 63 ∧
        (toInt64 (leValue (bf.drop 4))).toNat = leValue (bf.drop 4) := by
      rw [toInt64, Nat.mod_eq_of_lt hoffset] at hpos ⊢
      split at hpos <;> rename_i hlt
      · rw [if_pos hlt]
        omega
      · omega
    refine ⟨by omega, hsigned.1, hread.trans ?_⟩
    have hmagic' := leBytes_leValue (bf.take 4)
    have hoffset' := leBytes_leValue (bf.drop 4)
    rw [htake, not_not.mp hmagic] at hmagic'
    rw [hdrop] at hoffset'
    rw [hsigned.2, hmagic', hoffset', List.take_append_drop]

/-- A footer that was written is read back. -/
theorem braIoFileReadFooter_ioAt (pre : Bytes) {headerOffset : Nat} (hpos : 0 < headerOffset)
    (hlt : headerOffset < 2 ^ 63) :
    braIoFileReadFooter (ioAt pre (leBytes 4 braFooterMagic ++ leBytes 8 headerOffset)) =
      some ((headerOffset : Int),
        ioAt (pre ++ (leBytes 4 braFooterMagic ++ leBytes 8 headerOffset)) []) := by
  have hlen : (leBytes 4 braFooterMagic ++ leBytes 8 headerOffset).length = sizeofFooter := by
    rw [List.length_append, leBytes_length, leBytes_length, sizeofFooter]
  have hread := braIoFileRead_ioAt pre _ [] hlen
  rw [List.append_nil] at hread
  have hoffset : toInt64 (leValue (leBytes 8 headerOffset)) = headerOffset := by
    rw [leValue_leBytes, Nat.mod_eq_of_lt (by omega), toInt64, Nat.mod_eq_of_lt (by omega),
      if_pos hlt]
  rw [braIoFileReadFooter, hread, Option.bind_eq_bind, Option.bind_some]
  dsimp only
  rw [List.take_left' (leBytes_length 4 _), List.drop_left' (leBytes_length 4 _), hoffset,
    leValue_leBytes, if_neg]
  · rfl
  · rw [not_or, not_not]
    exact ⟨rfl, by omega⟩

/-- What is taken for a header. -/
theorem braIoFileCtxReadHeader_eq_some {ctx ctx' : IoFileCtx}
    (h : braIoFileCtxReadHeader ctx = some ctx') :
    ∃ numFiles f', numFiles < 2 ^ 32 ∧ ctx' = { ctx with f := f', numFiles } ∧
      braIoFileRead ctx.f sizeofHeader = some (leBytes 4 braMagic ++ leBytes 4 numFiles, f') := by
  obtain ⟨⟨outBh, f'⟩, hread, h⟩ := Option.bind_eq_some_iff.mp h
  dsimp only at h
  split at h
  · cases h
  · rename_i hmagic
    have hlen : outBh.length = 8 := (braIoFileRead_eq_some hread).1
    have hdrop : (outBh.drop 4).length = 4 := by rw [List.length_drop, hlen]
    have htake : (outBh.take 4).length = 4 := by rw [List.length_take, hlen]; rfl
    have hlt := leValue_lt (outBh.drop 4)
    have hmagic' := leBytes_leValue (outBh.take 4)
    have hnum := leBytes_leValue (outBh.drop 4)
    rw [htake, not_not.mp hmagic] at hmagic'
    rw [hdrop] at hlt hnum
    refine ⟨leValue (outBh.drop 4), f', hlt, (Option.some.inj h).symm, hread.trans ?_⟩
    rw [hmagic', hnum, List.take_append_drop]

namespace SfxImage

/-- Where the footer begins. -/
theorem ioAt_footer (image : SfxImage) :
    (⟨image.bytes, image.bytes.length - sizeofFooter⟩ : IoFile) =
      ioAt (image.program ++ image.header ++ image.payload) image.footer := by
  rw [ioAt, bytes, List.length_append, image.footer_length, Nat.add_sub_cancel]

/-- Where the header begins. -/
theorem ioAt_header (image : SfxImage) :
    (⟨image.bytes, image.program.length⟩ : IoFile) =
      ioAt image.program (image.header ++ (image.payload ++ image.footer)) := by
  rw [ioAt, bytes, List.append_assoc, List.append_assoc]

/-- Where the header ends. -/
theorem ioAt_payload (image : SfxImage) :
    (⟨image.bytes, image.program.length + sizeofHeader⟩ : IoFile) =
      ioAt (image.program ++ image.header) (image.payload ++ image.footer) := by
  rw [ioAt, bytes, List.append_assoc _ image.payload, List.length_append, header_length]

/-- **A self-extracting archive is found**: the reader stands behind the header. -/
theorem opens (image : SfxImage) (hsize : image.bytes.length < 2 ^ 63) :
    braIoFileCtxSfxOpenAndReadFooterHeader ⟨image.bytes, 0⟩ =
      some { braIoFileCtxOpen ⟨image.bytes, image.program.length + sizeofHeader⟩ with
        numFiles := image.numFiles } := by
  have hlen := image.bytes_length
  have hprogram := List.length_pos_of_ne_nil image.program_ne
  have hpayload := List.length_pos_of_ne_nil image.payload_ne
  have hfooter : braIoFileReadFooter ⟨image.bytes, image.bytes.length - sizeofFooter⟩ =
      some ((image.program.length : Int), ⟨image.bytes, image.bytes.length⟩) := by
    rw [ioAt_footer, footer, braIoFileReadFooter_ioAt _ hprogram (by omega), ioAt,
      List.append_nil]
    rfl
  have hheader := braIoFileCtxReadHeader_ioAt image.numFiles_lt
    (braIoFileCtxOpen ⟨image.bytes, image.bytes.length - sizeofFooter⟩) image.program
    (image.payload ++ image.footer)
  have hbounds : ¬ ((image.bytes.length : Int) - sizeofFooter ≤ 0 ∨
      (image.program.length : Int) ≤ 0 ∨
      (image.program.length : Int) ≥ (image.bytes.length : Int) - sizeofFooter - sizeofHeader) := by
    omega
  rw [braIoFileCtxSfxOpenAndReadFooterHeader, braIoFileCtxSfxOpen_eq, if_neg (by omega),
    Option.bind_eq_bind, Option.bind_some, Option.bind_eq_bind, braIoFileCtxOpen, hfooter,
    Option.bind_some]
  refine (if_neg hbounds).trans ?_
  rw [braIoFileSeekSet, Int.toNat_natCast, ioAt_header]
  rw [ioAt_payload]
  exact hheader

/-- **And nothing else is**: what is accepted is such an archive. -/
theorem of_opens {data : Bytes} {ctx : IoFileCtx}
    (h : braIoFileCtxSfxOpenAndReadFooterHeader ⟨data, 0⟩ = some ctx) :
    ∃ image : SfxImage, data = image.bytes ∧
      ctx = { braIoFileCtxOpen ⟨data, image.program.length + sizeofHeader⟩ with
        numFiles := image.numFiles } := by
  rw [braIoFileCtxSfxOpenAndReadFooterHeader, braIoFileCtxSfxOpen_eq] at h
  split at h
  · cases h
  rename_i hlen
  rw [Option.bind_eq_bind, Option.bind_some] at h
  obtain ⟨⟨headerOffset, f⟩, hfooter, h⟩ := Option.bind_eq_some_iff.mp h
  obtain ⟨hpos, -, hread⟩ := braIoFileReadFooter_eq_some hfooter
  obtain ⟨-, rfl, -, hbuf⟩ := braIoFileRead_eq_some hread
  dsimp only [braIoFileTell, braIoFileCtxOpen] at h hbuf
  split at h
  · cases h
  rename_i hbounds
  obtain ⟨numFiles, f', hnum, rfl, hread'⟩ := braIoFileCtxReadHeader_eq_some h
  obtain ⟨-, rfl, -, hbuf'⟩ := braIoFileRead_eq_some hread'
  dsimp only [braIoFileSeekSet] at hbuf'
  -- the header ends in front of the footer, with a gap in between
  have hgap : headerOffset.toNat + sizeofHeader < data.length - sizeofFooter := by omega
  generalize hoffset : headerOffset.toNat = offset at *
  have hprogram : (data.take offset).length = offset := List.length_take_of_le (by omega)
  have hdata : data = data.take offset ++ (data.drop offset).take sizeofHeader ++
      ((data.drop (offset + sizeofHeader)).take
        (data.length - sizeofFooter - (offset + sizeofHeader))) ++
      data.drop (data.length - sizeofFooter) := by
    have hdrop : data.drop (data.length - sizeofFooter) = (data.drop (offset + sizeofHeader)).drop
        (data.length - sizeofFooter - (offset + sizeofHeader)) := by
      rw [List.drop_drop, Nat.add_sub_cancel' hgap.le]
    rw [hdrop, List.append_assoc, List.take_append_drop, ← List.take_add, List.take_append_drop]
  have hfooter' : (data.drop (data.length - sizeofFooter)).take sizeofFooter =
      data.drop (data.length - sizeofFooter) :=
    List.take_of_length_le (by rw [List.length_drop]; omega)
  rw [hfooter'] at hbuf
  have hprogram_ne : data.take offset ≠ [] := List.ne_nil_of_length_pos (by omega)
  have hpayload_ne : (data.drop (offset + sizeofHeader)).take
      (data.length - sizeofFooter - (offset + sizeofHeader)) ≠ [] := by
    refine List.ne_nil_of_length_pos ?_
    rw [List.length_take, List.length_drop]
    omega
  refine ⟨⟨data.take offset, numFiles, _, hprogram_ne, hnum, hpayload_ne⟩, ?_, ?_⟩
  · rw [bytes, header, footer]
    dsimp only
    rw [hprogram, hbuf', hbuf]
    exact hdata
  · dsimp only
    rw [hprogram]
    rfl

end SfxImage

section Run
variable {σ : Type} (fs : FileSystem σ) (qsortR : QsortR) (s : σ)

/-- An archive is its header and the bytes of its entries, and a self-extracting one is the same
bytes between the program and a footer. -/
theorem writeSfxArchive_eq {sfxModule : Bytes} (hmodule : sizeofFooter < sfxModule.length)
    (numFiles : Nat) {fns : List CStr} (hfns : fns ≠ []) (compress : Bool) :
    ∃ entries : Option Bytes, (∀ payload ∈ entries, payload ≠ []) ∧
      writeArchive fs qsortR s numFiles fns compress =
        entries.map (leBytes 4 braMagic ++ leBytes 4 numFiles ++ ·) ∧
      writeSfxArchive fs qsortR s sfxModule numFiles fns compress =
        entries.map fun payload => sfxModule.take (sfxModule.length - sizeofFooter) ++
          (leBytes 4 braMagic ++ leBytes 4 numFiles) ++ payload ++
          (leBytes 4 braFooterMagic ++ leBytes 8 (sfxModule.length - sizeofFooter)) := by
  obtain ⟨r, hr⟩ := encodeEntries_writes fs qsortR s compress fns (newArchive numFiles)
  have hwrite : ∀ f : IoFile, 0 < f.pos → f.pos ≤ f.data.length →
      (encodeEntries fs qsortR s compress fns { newArchive numFiles with f }).map IoFileCtx.f =
        (r.map Prod.fst).map (braIoFileWrite f) := fun f hpos hle => by
    have hfst := congrArg (Option.map Prod.fst) (hr f hpos hle)
    rw [Option.map_map, Option.map_map] at hfst
    rw [Option.map_map]
    exact hfst
  have hnew : (newArchive numFiles).f = ioAt (leBytes 4 braMagic ++ leBytes 4 numFiles) [] := by
    change braIoFileWrite (ioAt [] []) (leBytes 4 braMagic ++ leBytes 4 numFiles) = _
    rw [braIoFileWrite_ioAt_nil, List.nil_append]
  have hlen : (leBytes 4 braMagic ++ leBytes 4 numFiles).length = 8 := by
    rw [List.length_append, leBytes_length, leBytes_length]
  have hpos : 0 < (newArchive numFiles).f.pos := by rw [hnew, ioAt_pos, hlen]; omega
  have hle : (newArchive numFiles).f.pos ≤ (newArchive numFiles).f.data.length := by
    rw [hnew, ioAt_pos, ioAt_data, List.append_nil]
  refine ⟨r.map Prod.fst, ?_, ?_, ?_⟩
  · intro payload hpayload
    have hplain := hwrite _ hpos hle
    rw [Option.mem_def.mp hpayload] at hplain
    obtain ⟨ctx, hencode, hctx⟩ := Option.map_eq_some_iff.mp hplain
    have hlt := encodeEntries_pos_lt hfns hpos hle hencode
    rw [hctx] at hlt
    exact List.ne_nil_of_length_pos (Nat.lt_add_right_iff_pos.mp hlt)
  · have hdata := congrArg (Option.map IoFile.data) (hwrite _ hpos hle)
    rw [Option.map_map, Option.map_map] at hdata
    refine hdata.trans (congrArg (Option.map · _) (funext fun payload => ?_))
    rw [Function.comp_apply, hnew, braIoFileWrite_ioAt_nil, ioAt_data, List.append_nil]
  · have hopen := braIoFileCtxSfxOpen_eq sfxModule 0
    rw [if_neg (by omega)] at hopen
    rw [writeSfxArchive, hopen, Option.bind_eq_bind, Option.bind_some]
    have hcut : (⟨sfxModule, sfxModule.length - sizeofFooter⟩ : IoFile) =
        ioAt (sfxModule.take (sfxModule.length - sizeofFooter))
          (sfxModule.drop (sfxModule.length - sizeofFooter)) :=
      IoFile.eq_ioAt (Nat.sub_le _ _)
    have hdata := congrArg
      (Option.map fun f => (braIoFileWriteFooter f (sfxModule.length - sizeofFooter)).data)
      (hwrite (braIoFileWrite ⟨sfxModule, sfxModule.length - sizeofFooter⟩
        (leBytes 4 braMagic ++ leBytes 4 numFiles)) (Nat.add_pos_right _ (by rw [hlen]; omega))
        (pos_le_braIoFileWrite _ _))
    rw [Option.map_map, Option.map_map] at hdata
    refine hdata.trans (congrArg (Option.map · _) (funext fun payload => ?_))
    -- the program's last bytes are not as many as those written over them
    have hover : (sfxModule.drop (sfxModule.length - sizeofFooter)).drop
        (leBytes 4 braMagic ++ leBytes 4 numFiles ++ (payload ++ (leBytes 4 braFooterMagic ++
          leBytes 8 (sfxModule.length - sizeofFooter)))).length = [] := by
      refine List.drop_eq_nil_of_le ?_
      simp only [List.length_append, leBytes_length, List.length_drop, sizeofFooter]
      omega
    rw [Function.comp_apply, braIoFileWriteFooter, braIoFileWrite_append, braIoFileWrite_append,
      hcut, braIoFileWrite_ioAt, hover, ioAt_data, List.append_nil]
    simp only [List.append_assoc]

/-- **Self-extracting archives are found again.**  From a module with more than a place for the
footer, and at least one path, there comes the program without that place, the same bytes as in
any archive of those paths, and a footer, with nothing behind it; the reader finds it, with the
number of entries that was given, at the first byte behind the header.  The other way round, a
file that the reader accepts has a header and a footer, with their magics, and at least one byte
in front of the header and between the two. -/
theorem sfxArchive_found :
    (∀ (sfxModule : Bytes) (numFiles : Nat) (fns : List CStr) (compress : Bool) (data : Bytes),
      sizeofFooter < sfxModule.length → numFiles < 2 ^ 32 → fns ≠ [] →
      writeSfxArchive fs qsortR s sfxModule numFiles fns compress = some data →
      data.length < 2 ^ 63 →
      ∃ image : SfxImage, data = image.bytes ∧ image.numFiles = numFiles ∧
        image.program = sfxModule.take (sfxModule.length - sizeofFooter) ∧
        writeArchive fs qsortR s numFiles fns compress = some (image.header ++ image.payload) ∧
        ∃ ctx, braIoFileCtxSfxOpenAndReadFooterHeader ⟨data, 0⟩ = some ctx ∧
          ctx.numFiles = numFiles ∧
          ctx.f = ioAt (image.program ++ image.header) (image.payload ++ image.footer)) ∧
    ∀ (data : Bytes) (ctx : IoFileCtx),
      braIoFileCtxSfxOpenAndReadFooterHeader ⟨data, 0⟩ = some ctx →
      ∃ image : SfxImage, data = image.bytes ∧ ctx.numFiles = image.numFiles ∧
        ctx.f = ioAt (image.program ++ image.header) (image.payload ++ image.footer) := by
  refine ⟨fun sfxModule numFiles fns compress data hmodule hnum hfns hwrite hsize => ?_,
    fun data ctx hopen => ?_⟩
  · obtain ⟨entries, hne, hplain, hsfx⟩ :=
      writeSfxArchive_eq fs qsortR s hmodule numFiles hfns compress
    rw [hsfx] at hwrite
    obtain ⟨payload, hpayload, rfl⟩ := Option.map_eq_some_iff.mp hwrite
    have hlen : (sfxModule.take (sfxModule.length - sizeofFooter)).length =
        sfxModule.length - sizeofFooter := List.length_take_of_le (Nat.sub_le _ _)
    have hprogram : sfxModule.take (sfxModule.length - sizeofFooter) ≠ [] :=
      List.ne_nil_of_length_pos (by omega)
    -- the module loses as many bytes as a footer has: the rest is the program
    let image : SfxImage := ⟨_, numFiles, payload, hprogram, hnum, hne payload hpayload⟩
    have hbytes : image.bytes = _ := congrArg (fun n => sfxModule.take _ ++
      (leBytes 4 braMagic ++ leBytes 4 numFiles) ++ payload ++
        (leBytes 4 braFooterMagic ++ leBytes 8 n)) hlen
    rw [← hbytes] at hsize ⊢
    refine ⟨image, rfl, rfl, rfl, ?_, _, image.opens hsize, rfl, image.ioAt_payload⟩
    rw [hplain, hpayload]
    rfl
  · obtain ⟨image, rfl, rfl⟩ := SfxImage.of_opens hopen
    exact ⟨image, rfl, rfl, image.ioAt_payload⟩

end Run

/-- The archive of the directory `a`, behind a module of which one byte is left. -/
theorem sfxArchive_found_directory :
    ∃ data ctx, writeSfxArchive FileSystem.inMemory QsortR.mergeSort (fun _ => some .dir)
        (77 :: List.replicate 12 0) 1 [CStr.ofBuffer [97]] false = some data ∧
      braIoFileCtxSfxOpenAndReadFooterHeader ⟨data, 0⟩ = some ctx ∧ ctx.numFiles = 1 ∧
      ctx.f.pos = 9 ∧ ∃ image : SfxImage, data = image.bytes := by
  have hfound := sfxArchive_found FileSystem.inMemory QsortR.mergeSort fun _ => some .dir
  obtain ⟨image, hdata, -, hprogram, -, ctx, hopen, hnum, hf⟩ :=
    hfound.1 (77 :: List.replicate 12 0) 1 [CStr.ofBuffer [97]] false _ (by decide) (by decide)
      (by decide) rfl (by decide +kernel)
  obtain ⟨image', hdata', -⟩ := hfound.2 _ _ hopen
  refine ⟨_, ctx, rfl, hopen, hnum, ?_, image', hdata'⟩
  rw [hf, ioAt_pos, List.length_append, image.header_length, hprogram]
  rfl

end BrArchive
