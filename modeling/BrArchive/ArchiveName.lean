import BrArchive.BraRun

/-! # The name of an archive

`bra` makes the name of the archive from the one after `-o`, by way of a temporary file if it is a
self-extracting one, and `unbra` looks for an archive under the name it is given.  So the same name
should do for both; but a plain archive of that name is found first.
-/
namespace BrArchive

/-! ## Extensions of paths -/

namespace StdPath
variable {p q e : Bytes}

/-- The name of a self-extracting archive is that of the plain one with an extension more. -/
theorem filenameSfxAdjust_append_ext (h : extension p ≠ braSfxFileExt) (tmp : Bool) :
    filenameSfxAdjust p tmp = filenameArchiveAdjust p ++ sfxExt tmp := by
  rw [filenameSfxAdjust, if_neg h, filenameArchiveAdjust]
  by_cases hext : extension p = braFileExt
  · rw [if_pos hext, if_neg (not_not.mpr hext)]
  · rw [if_neg hext, if_pos hext]

theorem replaceExtension_append (he : IsExtension e) (hq : filename q ≠ []) (e' : Bytes) :
    replaceExtension (q ++ e) e' = q ++ e' := by
  rw [replaceExtension, extension_append he hq, List.length_append, Nat.add_sub_cancel,
    List.take_left]

theorem filename_filenameArchiveAdjust (hp : filename p ≠ []) :
    filename (filenameArchiveAdjust p) ≠ [] := by
  rw [filenameArchiveAdjust]
  split
  · rw [filename_append isExtension_file.delim_free]
    exact List.append_ne_nil_of_left_ne_nil hp _
  · exact hp

/-- A plain archive has the extension of one. -/
theorem extension_filenameArchiveAdjust (hp : filename p ≠ []) :
    extension (filenameArchiveAdjust p) = braFileExt := by
  rw [filenameArchiveAdjust]
  split
  · exact extension_append isExtension_file hp
  · rename_i hext
    exact not_not.mp hext

end StdPath

/-! ## Names of archives -/

/-- A name with more behind it. -/
def CStr.append (c : CStr) (e : Bytes) : CStr := CStr.ofBuffer (c.bytes ++ e)

theorem CStr.append_bytes (c : CStr) {e : Bytes} (he : 0 ∉ e) :
    (c.append e).bytes = c.bytes ++ e :=
  cString_eq_self (List.not_mem_append c.nul_free he)

/-- The plain archive of a name. -/
def plainArchive (out : CStr) : CStr := CStr.ofBuffer (filenameArchiveAdjust out.bytes)

theorem plainArchive_bytes (out : CStr) :
    (plainArchive out).bytes = filenameArchiveAdjust out.bytes := by
  refine cString_eq_self ?_
  rw [filenameArchiveAdjust]
  split
  · exact List.not_mem_append out.nul_free (by decide)
  · exact out.nul_free

/-- An extension stays in the last name. -/
theorem joinPath_append_ext (init : FsPath) (c : CStr) {e : Bytes} (he : 0 ∉ e) :
    (joinPath (init ++ [c])).append e = joinPath (init ++ [c.append e]) := by
  ext1
  rw [CStr.append_bytes _ he, joinPath_append_singleton, joinPath_append_singleton,
    CStr.append_bytes _ he, List.append_assoc]

/-- A path with an extension more is a path in the normal form. -/
theorem IsInner.append_ext {g : FsPath} (hg : IsInner g) {e : Bytes} (he : StdPath.IsExtension e)
    (hnul : 0 ∉ e) : ∃ g', IsInner g' ∧ joinPath g' = (joinPath g).append e := by
  obtain ⟨init, c, rfl⟩ := (List.eq_nil_or_concat' g).resolve_left hg.1
  refine ⟨init ++ [c.append e], ⟨by simp, fun d hd => ?_⟩, (joinPath_append_ext init c hnul).symm⟩
  rcases List.mem_append.mp hd with hd | hd
  · exact hg.2 d (List.mem_append_left _ hd)
  · obtain rfl := List.mem_singleton.mp hd
    have hc := hg.component c (by simp)
    have hbytes := c.append_bytes hnul
    -- it is longer than `"."` and `".."`
    have hlen : 2 < (c.append e).bytes.length := by
      obtain ⟨⟨t, rfl, ht, -⟩, -⟩ := he
      have hcpos := List.length_pos_of_ne_nil hc.ne_nil
      have htpos := List.length_pos_of_ne_nil ht
      rw [hbytes, List.length_append, List.length_cons]
      omega
    refine ⟨⟨List.ne_nil_of_length_pos (by omega), ?_⟩, fun h => ?_, fun h => ?_⟩
    · rw [hbytes]
      exact List.not_mem_append hc.delim_free he.delim_free
    · rw [h] at hlen
      exact absurd hlen (by decide)
    · rw [h] at hlen
      exact absurd hlen (by decide)

theorem filename_joinPath {g : FsPath} (hg : IsInner g) :
    StdPath.filename (joinPath g).bytes ≠ [] := by
  obtain ⟨init, c, rfl⟩ := (List.eq_nil_or_concat' g).resolve_left hg.1
  have hc := hg.component c (by simp)
  rw [joinPath_append_singleton, StdPath.filename_append hc.delim_free]
  exact List.append_ne_nil_of_right_ne_nil _ hc.ne_nil

/-- The path of the plain archive is in the normal form. -/
theorem IsInner.plainArchive {g : FsPath} (hg : IsInner g) :
    ∃ g', IsInner g' ∧ joinPath g' = BrArchive.plainArchive (joinPath g) := by
  rw [BrArchive.plainArchive, filenameArchiveAdjust]
  split
  · exact hg.append_ext StdPath.isExtension_file (by decide)
  · exact ⟨g, hg, (CStr.ofBuffer_bytes _).symm⟩

/-- **What `bra` leaves** under a name that is not that of a self-extracting archive. -/
theorem archivePath_outFilename {st : BraArgs} (hname : StdPath.filename st.outFilename.bytes ≠ [])
    (hext : st.sfx = true → StdPath.extension st.outFilename.bytes ≠ StdPath.braSfxFileExt) :
    Bra.archivePath st.sfx (Bra.outFilename st) =
      if st.sfx then (plainArchive st.outFilename).append StdPath.braSfxFileExt
      else plainArchive st.outFilename := by
  cases hsfx : st.sfx with
  | false =>
    rw [Bra.outFilename, hsfx]
    rfl
  | true =>
    have hplain := StdPath.filename_filenameArchiveAdjust hname
    have hout : (Bra.outFilename st).bytes =
        (plainArchive st.outFilename).bytes ++ StdPath.braSfxTmpFileExt := by
      rw [Bra.outFilename, hsfx, if_pos rfl, StdPath.filenameSfxAdjust_append_ext (hext hsfx),
        ← plainArchive_bytes]
      exact CStr.append_bytes _ (by decide)
    rw [Bra.archivePath, if_pos rfl, if_pos rfl, hout, StdPath.replaceExtension_append
      StdPath.isExtension_tmp (by rwa [plainArchive_bytes])]
    rfl

/-! ## The same name for both programs -/

section Unbra
variable {trySanitize : FsPath → Option FsPath} {dirExists fileExists : FsPath → Bool}

/-- An archive that `unbra` finds under its operand is taken. -/
theorem unbra_takes {asked : FsPath → Prop} (hsanitize : Sanitizes trySanitize asked) {out : CStr}
    {g : FsPath} (hg : IsInner g)
    (hfound : Unbra.parseArgsAdjustFilename fileExists out = joinPath g) (hexists : fileExists g)
    {args : List CStr} {ws : List Word} {policy : OverwritePolicy}
    (hws : readWords Unbra.options.takesValue args = some ws)
    (hpolicy : policies ws = [] ∧ policy = .ask ∨ policies ws = [policy])
    (hoperand : operands ws = [out]) :
    ∃ st, parseArgs (unbra fileExists) trySanitize dirExists fileExists UnbraArgs.initial args =
        .ok (policy, st) ∧ st.braFile = g ∧ st.sfx = hasSfxExtension g := by
  have hpath : Unbra.operandPath trySanitize fileExists out = some g := by
    rw [Unbra.operandPath, hfound, pathElements_joinPath hg, hsanitize.normal_self g hg.normal]
  have harchives : Unbra.archives trySanitize fileExists ws = [g] := by
    rw [Unbra.archives, hoperand, List.filterMap_cons, hpath, Option.filter_some_pos hexists]
    rfl
  have hargs : args ≠ [] := by
    rintro rfl
    obtain rfl := Option.some.inj hws
    cases hoperand
  have hmin : ¬ args.length + 1 < (unbra fileExists).parseArgsMinArgc := by
    have hpos := List.length_pos_of_ne_nil hargs
    change ¬ args.length + 1 < 2
    omega
  refine ⟨Unbra.meaning trySanitize fileExists UnbraArgs.initial ws, ?_, ?_, ?_⟩
  · rw [parseArgs, if_neg hmin, parseArgsLoop_eq_ok_iff (unbra_readsBy fileExists)]
    refine ⟨ws, hws, foldlM_policies.mpr hpolicy, unbra_foldlM_iff.mpr ⟨fun s hs => ?_, rfl⟩⟩
    obtain rfl := List.mem_singleton.mp (hoperand ▸ hs)
    exact ⟨g, hpath, .inl hexists⟩
  · rw [Unbra.meaning, harchives]
    rfl
  · rw [Unbra.meaning, harchives]
    simp [UnbraArgs.initial]

/-- **One name for both programs**: given the name that `bra` was given after `-o`, `unbra` opens
the archive that `bra` has left, as what it is, unless a plain archive of that name lies beside a
self-extracting one. -/
theorem unbra_opens {asked : FsPath → Prop} (hsanitize : Sanitizes trySanitize asked)
    {st : BraArgs} {g : FsPath} (hg : IsInner g) (hout : joinPath g = st.outFilename)
    (hext : st.sfx = true → StdPath.extension st.outFilename.bytes ≠ StdPath.braSfxFileExt)
    (hthere : fileExists (pathElements (Bra.archivePath st.sfx (Bra.outFilename st))))
    {args : List CStr} {ws : List Word} {policy : OverwritePolicy}
    (hws : readWords Unbra.options.takesValue args = some ws)
    (hpolicy : policies ws = [] ∧ policy = .ask ∨ policies ws = [policy])
    (hoperand : operands ws = [st.outFilename]) :
    ∃ st', parseArgs (unbra fileExists) trySanitize dirExists fileExists UnbraArgs.initial args =
        .ok (policy, st') ∧
      (joinPath st'.braFile = Bra.archivePath st.sfx (Bra.outFilename st) ∧ st'.sfx = st.sfx ↔
        (st.sfx = true → ¬ fileExists (pathElements (plainArchive st.outFilename)))) := by
  have hname : StdPath.filename st.outFilename.bytes ≠ [] := hout ▸ filename_joinPath hg
  have harchive := archivePath_outFilename hname hext
  obtain ⟨plain, hplain, hplainPath⟩ := hg.plainArchive
  rw [hout] at hplainPath
  have hplainExt : hasSfxExtension plain = false := by
    rw [hasSfxExtension, hplainPath, plainArchive_bytes,
      StdPath.extension_filenameArchiveAdjust hname]
    decide
  by_cases hfile : fileExists (pathElements (plainArchive st.outFilename))
  · -- the plain archive is found first
    have hfound : Unbra.parseArgsAdjustFilename fileExists st.outFilename = joinPath plain := by
      rw [hplainPath]
      exact if_pos hfile
    rw [← hplainPath, pathElements_joinPath hplain] at hfile
    obtain ⟨st', hparse, hbra, hsfx'⟩ :=
      unbra_takes hsanitize hplain hfound hfile hws hpolicy hoperand
    refine ⟨st', hparse, ?_⟩
    rw [hbra, hsfx', hplainExt, harchive, ← hplainPath, pathElements_joinPath hplain]
    cases st.sfx with
    | false => simp
    | true => simp [hfile]
  · have hsfx : st.sfx = true := by
      by_contra hsfx
      rw [harchive, if_neg hsfx] at hthere
      exact hfile hthere
    rw [harchive, hsfx, if_pos rfl] at hthere ⊢
    obtain ⟨lin, hlin, hlinPath⟩ := hplain.append_ext StdPath.isExtension_sfx (by decide)
    rw [hplainPath] at hlinPath
    have hfound : Unbra.parseArgsAdjustFilename fileExists st.outFilename = joinPath lin := by
      rw [hlinPath]
      exact (if_neg hfile).trans (if_pos hthere)
    have hlinExt : hasSfxExtension lin = true := by
      have hbytes : (joinPath lin).bytes =
          filenameArchiveAdjust st.outFilename.bytes ++ StdPath.braSfxFileExt := by
        rw [hlinPath, CStr.append_bytes _ (by decide), plainArchive_bytes]
      rw [hasSfxExtension, hbytes, StdPath.extension_append StdPath.isExtension_sfx
        (StdPath.filename_filenameArchiveAdjust hname)]
      rfl
    rw [← hlinPath, pathElements_joinPath hlin] at hthere
    obtain ⟨st', hparse, hbra, hsfx'⟩ :=
      unbra_takes hsanitize hlin hfound hthere hws hpolicy hoperand
    refine ⟨st', hparse, iff_of_true ?_ fun _ => hfile⟩
    rw [hbra, hsfx', hlinExt]
    exact ⟨hlinPath, rfl⟩

end Unbra

/-- `bra -s -o x`, and `unbra -t x` where `x.BRa.brx` is the only file. -/
theorem unbra_opens_letters :
    let st : BraArgs := ⟨.empty, CStr.ofBuffer [120], true, false, false⟩
    let fileExists (p : FsPath) : Bool := p = [CStr.ofBuffer [120, 46, 66, 82, 97, 46, 98, 114, 120]]
    ∃ st', parseArgs (unbra fileExists) sanitizeHere (fun _ => false) fileExists UnbraArgs.initial
        [CStr.ofBuffer [45, 116], CStr.ofBuffer [120]] = .ok (.ask, st') ∧
      (joinPath st'.braFile = Bra.archivePath st.sfx (Bra.outFilename st) ∧ st'.sfx = st.sfx ↔
        (st.sfx = true → ¬ fileExists (pathElements (plainArchive st.outFilename)))) := by
  intro st fileExists
  have hws : readWords Unbra.options.takesValue [CStr.ofBuffer [45, 116], CStr.ofBuffer [120]] =
      some [.flag (CStr.ofBuffer [45, 116]), .operand (CStr.ofBuffer [120])] := by
    decide
  exact unbra_opens (sanitizeHere_sanitizesHere fun _ => False).toSanitizes
    (show IsInner [CStr.ofBuffer [120]] by decide) (by decide) (by decide) (by decide) hws
    (.inl (by decide)) (by decide)

end BrArchive
