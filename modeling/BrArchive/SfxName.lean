import BrArchive.Filename
import Mathlib.Data.List.DropRight

/-! # The name of a self-extracting archive

`filename_sfx_adjust` of `bra_fs.cpp`, on paths as `std::filesystem` has them on a POSIX
system: strings in which `/` delimits, whose file name ends in an extension from its last dot
on, unless that is its first character.
-/
namespace BrArchive.StdPath
open List

/-! ## Paths -/

/-- What is behind the last delimiter: `path::filename`. -/
def filename (p : Bytes) : Bytes := p.rtakeWhile (· ≠ braDirDelim)

/-- What is before the file name, the last delimiter included. -/
def dirPart (p : Bytes) : Bytes := p.rdropWhile (· ≠ braDirDelim)

/-- `path::parent_path`: of a root directory all delimiters are kept. -/
def parentPath (p : Bytes) : Bytes :=
  if (dirPart p).all (· == braDirDelim) then dirPart p
  else (dirPart p).rdropWhile (· == braDirDelim)

/-- The dot of an extension. -/
def extensionDot : UInt8 := 46

/-- `path::extension`. -/
def extension (p : Bytes) : Bytes :=
  let name := filename p
  if name = [extensionDot] ∨ name = dotDot then []
  else if (name.rdropWhile (· ≠ extensionDot)).length ≤ 1 then []
  else extensionDot :: name.rtakeWhile (· ≠ extensionDot)

/-- `path::stem`. -/
def stem (p : Bytes) : Bytes := (filename p).take ((filename p).length - (extension p).length)

/-- `BRA_FILE_EXT`, `".BRa"`. -/
def braFileExt : Bytes := [46, 66, 82, 97]

/-- `BRA_SFX_FILE_EXT`, `".brx"`. -/
def braSfxFileExt : Bytes := [46, 98, 114, 120]

/-- `BRA_SFX_TMP_FILE_EXT`, `".tmp"`. -/
def braSfxTmpFileExt : Bytes := [46, 116, 109, 112]

/-- The extension that `filename_sfx_adjust` appends. -/
def sfxExt (tmp : Bool) : Bytes := if tmp then braSfxTmpFileExt else braSfxFileExt

/-- `bra::fs::filename_sfx_adjust`. -/
def filenameSfxAdjust (path : Bytes) (tmp : Bool) : Bytes :=
  let p := if extension path = braSfxFileExt then stem path else path
  if extension p = braFileExt then p ++ sfxExt tmp
  else p ++ braFileExt ++ sfxExt tmp

example : filenameSfxAdjust [97, 47, 98, 46, 66, 82, 97] true =
    [97, 47, 98, 46, 66, 82, 97, 46, 116, 109, 112] := by decide

/-! ## What is appended to a path -/

section Append
variable {q e : Bytes}

theorem dirPart_append_filename (p : Bytes) : dirPart p ++ filename p = p :=
  rdropWhile_append_rtakeWhile

theorem filename_append (he : braDirDelim ∉ e) : filename (q ++ e) = filename q ++ e := by
  rw [filename, rtakeWhile, reverse_append, takeWhile_append_of_pos, reverse_append,
    reverse_reverse, filename, rtakeWhile]
  intro b hb
  exact decide_eq_true fun h => he (h ▸ mem_reverse.mp hb)

theorem dirPart_append (he : braDirDelim ∉ e) : dirPart (q ++ e) = dirPart q := by
  rw [dirPart, rdropWhile, reverse_append, dropWhile_append_of_pos, dirPart, rdropWhile]
  intro b hb
  exact decide_eq_true fun h => he (h ▸ mem_reverse.mp hb)

theorem parentPath_append (he : braDirDelim ∉ e) : parentPath (q ++ e) = parentPath q := by
  rw [parentPath, dirPart_append he, parentPath]

/-- A file name is its own file name. -/
theorem filename_of_delim_free (he : braDirDelim ∉ e) : filename e = e :=
  filename_append (q := []) he

theorem dirPart_of_delim_free (he : braDirDelim ∉ e) : dirPart e = [] :=
  dirPart_append (q := []) he

theorem delim_notMem_filename (p : Bytes) : braDirDelim ∉ filename p := fun h => by
  have := mem_rtakeWhile_imp h
  exact of_decide_eq_true this rfl

theorem filename_dirPart (p : Bytes) : filename (dirPart p) = [] := by
  rw [filename, rtakeWhile_eq_nil_iff]
  exact fun hne => rdropWhile_last_not _ _ hne

/-- A path with a directory part has a parent path. -/
theorem parentPath_eq_nil_iff (p : Bytes) : parentPath p = [] ↔ dirPart p = [] := by
  rw [parentPath]
  split
  · rfl
  · rename_i hall
    have hne : dirPart p ≠ [] := fun h => hall (by rw [h]; rfl)
    refine iff_of_false (fun h => hall ?_) hne
    rw [all_eq_true]
    exact rdropWhile_eq_nil_iff.mp h

end Append

/-! ## Extensions -/

/-- A dot, and something behind it that has neither dots nor delimiters. -/
structure IsExtension (e : Bytes) : Prop where
  head : ∃ t, e = extensionDot :: t ∧ t ≠ [] ∧ extensionDot ∉ t
  delim_free : braDirDelim ∉ e

theorem IsExtension.ne_nil {e : Bytes} (he : IsExtension e) : e ≠ [] := by
  obtain ⟨⟨t, rfl, -⟩, -⟩ := he
  exact cons_ne_nil _ t

theorem isExtension_file : IsExtension braFileExt :=
  ⟨⟨_, rfl, by decide, by decide⟩, by decide⟩

theorem isExtension_sfx : IsExtension braSfxFileExt :=
  ⟨⟨_, rfl, by decide, by decide⟩, by decide⟩

theorem isExtension_tmp : IsExtension braSfxTmpFileExt :=
  ⟨⟨_, rfl, by decide, by decide⟩, by decide⟩

theorem isExtension_sfxExt (tmp : Bool) : IsExtension (sfxExt tmp) := by
  cases tmp with
  | false => exact isExtension_sfx
  | true => exact isExtension_tmp

section Extension
variable {p q e : Bytes}

/-- **An appended extension** is the extension. -/
theorem extension_append (he : IsExtension e) (hq : filename q ≠ []) :
    extension (q ++ e) = e := by
  obtain ⟨⟨t, rfl, ht, hdot⟩, hdelim⟩ := he
  have hpos := length_pos_of_ne_nil hq
  have htpos := length_pos_of_ne_nil ht
  have hall : ∀ b ∈ t.reverse, decide (b ≠ extensionDot) = true := fun b hb =>
    decide_eq_true fun h => hdot (h ▸ mem_reverse.mp hb)
  have hlong : ∀ l : Bytes, l.length ≤ 2 → filename q ++ extensionDot :: t ≠ l := by
    rintro l hl rfl
    rw [length_append, length_cons] at hl
    omega
  have hdrop : (filename q ++ extensionDot :: t).rdropWhile (· ≠ extensionDot) =
      filename q ++ [extensionDot] := by
    rw [append_cons, rdropWhile, reverse_append, dropWhile_append_of_pos hall, ← rdropWhile,
      rdropWhile_concat_neg _ _ _ (by simp)]
  have htake : (filename q ++ extensionDot :: t).rtakeWhile (· ≠ extensionDot) = t := by
    rw [append_cons, rtakeWhile, reverse_append, takeWhile_append_of_pos hall, reverse_append,
      reverse_reverse, ← rtakeWhile, rtakeWhile_concat_neg _ _ _ (by simp), nil_append]
  rw [extension, filename_append hdelim, if_neg, hdrop, htake, if_neg]
  · rw [length_append, length_singleton]
    omega
  · rintro (h | h)
    · exact hlong _ (by decide) h
    · exact hlong _ (by decide) h

theorem stem_append (he : IsExtension e) (hq : filename q ≠ []) :
    stem (q ++ e) = filename q := by
  rw [stem, extension_append he hq, filename_append he.delim_free, length_append,
    Nat.add_sub_cancel, take_left]

/-- **A path with an extension** is what is before it, followed by it. -/
theorem exists_of_extension_ne_nil (h : extension p ≠ []) :
    ∃ q, p = q ++ extension p ∧ filename q = stem p ∧ stem p ≠ [] := by
  obtain ⟨s, hs, hname⟩ : ∃ s, s ≠ [] ∧ filename p = s ++ extension p := by
    rw [extension] at h ⊢
    split at h
    · exact absurd rfl h
    · rename_i hdots
      split at h
      · exact absurd rfl h
      · rename_i hlen
        have hne : (filename p).rdropWhile (· ≠ extensionDot) ≠ [] := by
          intro hnil
          rw [hnil] at hlen
          exact hlen (Nat.zero_le 1)
        have hlast : ((filename p).rdropWhile (· ≠ extensionDot)).getLast hne = extensionDot := by
          by_contra hother
          exact rdropWhile_last_not _ _ hne (decide_eq_true hother)
        -- the name is cut at its last dot, which is not its first byte
        have hcut := dropLast_append_getLast hne
        rw [hlast] at hcut
        refine ⟨((filename p).rdropWhile (· ≠ extensionDot)).dropLast, ?_, ?_⟩
        · intro hnil
          rw [← hcut, hnil] at hlen
          exact hlen (Nat.le_refl 1)
        · rw [if_neg hdots, if_neg hlen]
          conv => lhs; rw [← rdropWhile_append_rtakeWhile (p := (· ≠ extensionDot))
            (l := filename p), ← hcut, append_assoc, singleton_append]
  have hstem : stem p = s := by
    rw [stem, hname, length_append, Nat.add_sub_cancel, take_left]
  refine ⟨dirPart p ++ s, ?_, ?_, hstem ▸ hs⟩
  · rw [append_assoc, ← hname, dirPart_append_filename]
  · have hfree : braDirDelim ∉ s := fun hmem =>
      delim_notMem_filename p (hname ▸ mem_append_left _ hmem)
    rw [filename_append hfree, filename_dirPart, nil_append, hstem]

theorem delim_notMem_stem (p : Bytes) : braDirDelim ∉ stem p := fun h =>
  delim_notMem_filename p (mem_of_mem_take h)

end Extension

/-! ## Adjusting a name -/

/-- A file name without the extensions of an archive. -/
structure IsBase (base : Bytes) : Prop where
  ne_nil : base ≠ []
  delim_free : braDirDelim ∉ base
  not_archive : extension base ≠ braFileExt
  not_sfx : extension base ≠ braSfxFileExt

/-- The adjusted names of `p` stay in its directory, end in each extension once, and are
adjusted already. -/
structure NameKept (p : Bytes) : Prop where
  parent : ∀ tmp, parentPath (filenameSfxAdjust p tmp) = parentPath p
  name : ∀ tmp, ∃ base, base ≠ [] ∧
    filename (filenameSfxAdjust p tmp) = base ++ braFileExt ++ sfxExt tmp
  alike : ∀ base, IsBase base →
    (filename p = base ∨ filename p = base ++ braFileExt ∨
      filename p = base ++ braFileExt ++ braSfxFileExt) →
    ∀ tmp, filename (filenameSfxAdjust p tmp) = base ++ braFileExt ++ sfxExt tmp
  stable : ∀ tmp, filenameSfxAdjust (filenameSfxAdjust p false) tmp = filenameSfxAdjust p tmp

section Adjust
variable {p : Bytes}

/-- Paths with the same file name have the same extension. -/
theorem extension_congr {p q : Bytes} (h : filename p = filename q) : extension p = extension q := by
  rw [extension, extension, h]

theorem stem_congr {p q : Bytes} (h : filename p = filename q) : stem p = stem q := by
  rw [stem, stem, extension_congr h, h]

/-- **What the function appends to.**  If the extension of a self-extracting archive is taken
off, the directory part goes with it. -/
theorem filenameSfxAdjust_eq (hp : filename p ≠ []) :
    ∃ q, filename q ≠ [] ∧ (∀ tmp, filenameSfxAdjust p tmp = q ++ braFileExt ++ sfxExt tmp) ∧
      dirPart q = if extension p = braSfxFileExt then [] else dirPart p := by
  -- the part after ".sfx" has been taken off: ".BRa" is added unless it is there
  have hfile : ∀ r : Bytes, filename r ≠ [] → ∃ q, filename q ≠ [] ∧
      (∀ tmp, (if extension r = braFileExt then r ++ sfxExt tmp
        else r ++ braFileExt ++ sfxExt tmp) = q ++ braFileExt ++ sfxExt tmp) ∧
      dirPart q = dirPart r := by
    intro r hr
    by_cases hext : extension r = braFileExt
    · obtain ⟨q, hq, hname, hstem⟩ := exists_of_extension_ne_nil (hext ▸ isExtension_file.ne_nil)
      rw [hext] at hq
      refine ⟨q, hname ▸ hstem, fun tmp => ?_, ?_⟩
      · rw [if_pos hext, ← hq]
      · rw [hq, dirPart_append isExtension_file.delim_free]
    · exact ⟨r, hr, fun tmp => by rw [if_neg hext], rfl⟩
  by_cases hsfx : extension p = braSfxFileExt
  · -- with ".sfx" only the stem is kept, and the directory is lost
    obtain ⟨-, -, -, hstem⟩ := exists_of_extension_ne_nil (hsfx ▸ isExtension_sfx.ne_nil)
    have hfree := delim_notMem_stem p
    obtain ⟨q, hq, hadjust, hdir⟩ := hfile (stem p) (by rwa [filename_of_delim_free hfree])
    refine ⟨q, hq, fun tmp => ?_, ?_⟩
    · rw [filenameSfxAdjust, if_pos hsfx]
      exact hadjust tmp
    · rw [if_pos hsfx, hdir, dirPart_of_delim_free hfree]
  · obtain ⟨q, hq, hadjust, hdir⟩ := hfile p hp
    refine ⟨q, hq, fun tmp => ?_, ?_⟩
    · rw [filenameSfxAdjust, if_neg hsfx]
      exact hadjust tmp
    · rw [if_neg hsfx, hdir]

/-- Adjusting what ends in both extensions takes them off together with the directory part. -/
theorem filenameSfxAdjust_append {q : Bytes} (hq : filename q ≠ []) (tmp : Bool) :
    filenameSfxAdjust (q ++ braFileExt ++ braSfxFileExt) tmp =
      filename q ++ braFileExt ++ sfxExt tmp := by
  have hfile := isExtension_file.delim_free
  have hname : filename (q ++ braFileExt) ≠ [] := by
    rw [filename_append hfile]
    exact append_ne_nil_of_left_ne_nil hq _
  have hbase : filename (filename q) ≠ [] := by
    rwa [filename_of_delim_free (delim_notMem_filename q)]
  rw [filenameSfxAdjust, if_pos (extension_append isExtension_sfx hname),
    stem_append isExtension_sfx hname, filename_append hfile,
    if_pos (extension_append isExtension_file hbase)]

/-- All the ways to give a name lead to the same one. -/
theorem filename_filenameSfxAdjust {base : Bytes} (hbase : IsBase base)
    (hp : filename p = base ∨ filename p = base ++ braFileExt ∨
      filename p = base ++ braFileExt ++ braSfxFileExt) (tmp : Bool) :
    filename (filenameSfxAdjust p tmp) = base ++ braFileExt ++ sfxExt tmp := by
  have hsfx := (isExtension_sfxExt tmp).delim_free
  have hfile := isExtension_file.delim_free
  have hname : filename base = base := filename_of_delim_free hbase.delim_free
  have hne : filename base ≠ [] := hname.symm ▸ hbase.ne_nil
  have hname₁ : filename (base ++ braFileExt) = base ++ braFileExt := by
    rw [filename_append hfile, hname]
  have hne₁ : filename (base ++ braFileExt) ≠ [] :=
    hname₁.symm ▸ append_ne_nil_of_left_ne_nil hbase.ne_nil _
  -- the three forms a user may give: base, base.BRa and base.BRa.sfx
  rcases hp with hp | hp | hp
  · have hext : extension p = extension base := extension_congr (hp.trans hname.symm)
    have hkeep : (if extension p = braSfxFileExt then stem p else p) = p :=
      if_neg (hext ▸ hbase.not_sfx)
    rw [filenameSfxAdjust, hkeep, if_neg (hext ▸ hbase.not_archive), filename_append hsfx,
      filename_append hfile, hp]
  · have hext : extension p = braFileExt :=
      (extension_congr (hp.trans hname₁.symm)).trans (extension_append isExtension_file hne)
    have hkeep : (if extension p = braSfxFileExt then stem p else p) = p :=
      if_neg (by rw [hext]; decide)
    rw [filenameSfxAdjust, hkeep, if_pos hext, filename_append hsfx, hp]
  · have hname₂ : filename p = filename (base ++ braFileExt ++ braSfxFileExt) := by
      rw [hp, filename_append isExtension_sfx.delim_free, hname₁]
    have hext : extension p = braSfxFileExt :=
      (extension_congr hname₂).trans (extension_append isExtension_sfx hne₁)
    have hstem : stem p = base ++ braFileExt := by
      rw [stem_congr hname₂, stem_append isExtension_sfx hne₁, hname₁]
    rw [filenameSfxAdjust, if_pos hext, hstem, if_pos (extension_append isExtension_file hne),
      filename_append hsfx, hname₁]

/-- **The name of a self-extracting archive.**  For every path with a file name, the adjusted
names are as they should be exactly if it has no parent path. -/
theorem nameKept_iff (hp : filename p ≠ []) : NameKept p ↔ parentPath p = [] := by
  obtain ⟨q, hq, hadjust, hdir⟩ := filenameSfxAdjust_eq hp
  have hfile := isExtension_file.delim_free
  have hsfx : ∀ tmp, braDirDelim ∉ sfxExt tmp := fun tmp => (isExtension_sfxExt tmp).delim_free
  have hstable : ∀ tmp, filenameSfxAdjust (filenameSfxAdjust p false) tmp =
      filename q ++ braFileExt ++ sfxExt tmp := by
    intro tmp
    rw [hadjust false]
    exact filenameSfxAdjust_append hq tmp
  rw [parentPath_eq_nil_iff]
  constructor
  · intro h
    by_cases hext : extension p = braSfxFileExt
    · -- the extension is taken off, and the result has no parent path
      have hparent := h.parent false
      rw [hadjust false, parentPath_append (hsfx false), parentPath_append hfile] at hparent
      rw [if_pos hext] at hdir
      rwa [← parentPath_eq_nil_iff, ← hparent, parentPath_eq_nil_iff]
    · -- it has one, but its own adjusted name has not
      have hname := h.stable false
      rw [hstable false, hadjust false, append_left_inj, append_left_inj] at hname
      rw [if_neg hext] at hdir
      rw [← hdir, ← hname, dirPart_of_delim_free (delim_notMem_filename q)]
  · intro hnil
    have hq_dir : dirPart q = [] := by
      rw [hdir, hnil, ite_self]
    have hq_name : filename q = q := by
      rw [← nil_append (filename q), ← hq_dir, dirPart_append_filename]
    refine ⟨fun tmp => ?_, fun tmp => ⟨filename q, hq, ?_⟩, fun base hbase hcases => ?_,
      fun tmp => ?_⟩
    · rw [hadjust tmp, parentPath_append (hsfx tmp), parentPath_append hfile,
        (parentPath_eq_nil_iff q).mpr hq_dir, (parentPath_eq_nil_iff p).mpr hnil]
    · rw [hadjust tmp, filename_append (hsfx tmp), filename_append hfile]
    · exact filename_filenameSfxAdjust hbase hcases
    · rw [hstable tmp, hadjust tmp, hq_name]

end Adjust

/-- `a`. -/
theorem nameKept_iff_letter : NameKept [97] ↔ parentPath [97] = [] := nameKept_iff (by decide)

/-- `a/b.BRa.brx` becomes `b.BRa.tmp`. -/
theorem parent_path_lost :
    filename [97, 47, 98, 46, 66, 82, 97, 46, 98, 114, 120] ≠ [] ∧
      filenameSfxAdjust [97, 47, 98, 46, 66, 82, 97, 46, 98, 114, 120] true =
        [98, 46, 66, 82, 97, 46, 116, 109, 112] ∧
      ¬ NameKept [97, 47, 98, 46, 66, 82, 97, 46, 98, 114, 120] := by
  refine ⟨by decide, by decide, fun h => ?_⟩
  exact absurd (h.parent true) (by decide)

end BrArchive.StdPath
