import BrArchive.BraRun

/-! # A self-extracting archive runs

`bra_sfx.cpp`: the program looks at its own file, goes on only if that is an executable, and extracts
the archive in it.  What makes a file an executable stands in its beginning, so that the archive
behind it changes nothing about that.
-/
namespace BrArchive

/-! ## Executables -/

/-- `_bra_io_file_magic_is_elf`, with nothing for `-1`. -/
def braIoFileMagicIsElf (f : IoFile) : Option (Bool × IoFile) := do
  let (magic, f) ← braIoFileRead f 4
  return (magic == [0x7F, 69, 76, 70], f)

/-- `_bra_io_file_magic_is_pe_exe`, with nothing for `-1`. -/
def braIoFileMagicIsPeExe (f : IoFile) : Option Bool := do
  let (magic, f) ← braIoFileRead f 2
  if magic ≠ [77, 90] then return false
  else
    -- the offset of the PE header in the DOS header
    let (peOffset, f) ← braIoFileRead (braIoFileSeekSet f 0x3C) 4
    if leValue peOffset < 0x40 then return false
    else
      let (peMagic, _) ← braIoFileRead (braIoFileSeekSet f (leValue peOffset)) 4
      return peMagic == [80, 69, 0, 0]

/-- `bra_io_file_is_elf` of a file that could be opened. -/
def braIoFileIsElf (data : Bytes) : Bool :=
  match braIoFileMagicIsElf ⟨data, 0⟩ with
  | none => false
  | some (res, _) => res

/-- `bra_io_file_is_pe_exe` of a file that could be opened. -/
def braIoFileIsPeExe (data : Bytes) : Bool := (braIoFileMagicIsPeExe ⟨data, 0⟩).getD false

/-- `bra_io_file_can_be_sfx` of a file that could be opened. -/
def braIoFileCanBeSfx (data : Bytes) : Bool :=
  match braIoFileMagicIsElf ⟨data, 0⟩ with
  | none => false
  | some (true, _) => true
  | some (false, f) => (braIoFileMagicIsPeExe (braIoFileSeekSet f 0)).getD false

/-- What is read from the beginning of a file is read with more behind it as well. -/
theorem braIoFileRead_append {data buf : Bytes} {pos n : Nat} {f : IoFile}
    (h : braIoFileRead ⟨data, pos⟩ n = some (buf, f)) (rest : Bytes) :
    f = ⟨data, pos + n⟩ ∧
      braIoFileRead ⟨data ++ rest, pos⟩ n = some (buf, ⟨data ++ rest, pos + n⟩) := by
  obtain ⟨-, rfl, hle, rfl⟩ := braIoFileRead_eq_some h
  refine ⟨rfl, ?_⟩
  rw [braIoFileRead]
  dsimp only at hle ⊢
  rw [if_pos (by rw [List.length_append]; omega), List.drop_append_of_le_length (by omega),
    List.take_append_of_le_length (by rw [List.length_drop]; omega)]

theorem braIoFileMagicIsElf_append {data : Bytes} {r : Bool × IoFile}
    (h : braIoFileMagicIsElf ⟨data, 0⟩ = some r) (rest : Bytes) :
    r.2 = ⟨data, 4⟩ ∧ braIoFileMagicIsElf ⟨data ++ rest, 0⟩ = some (r.1, ⟨data ++ rest, 4⟩) := by
  obtain ⟨⟨magic, f⟩, hread, h⟩ := Option.bind_eq_some_iff.mp h
  obtain ⟨rfl, hread'⟩ := braIoFileRead_append hread rest
  obtain rfl := Option.some.inj h
  refine ⟨rfl, ?_⟩
  rw [braIoFileMagicIsElf, hread']
  rfl

theorem braIoFileMagicIsPeExe_append {data : Bytes} {res : Bool}
    (h : braIoFileMagicIsPeExe ⟨data, 0⟩ = some res) (rest : Bytes) :
    braIoFileMagicIsPeExe ⟨data ++ rest, 0⟩ = some res := by
  obtain ⟨⟨magic, f⟩, hmagic, h⟩ := Option.bind_eq_some_iff.mp h
  obtain ⟨rfl, hmagic'⟩ := braIoFileRead_append hmagic rest
  rw [braIoFileMagicIsPeExe, hmagic', Option.bind_eq_bind, Option.bind_some]
  dsimp only at h ⊢
  split at h
  · rename_i hne
    rw [if_pos hne]
    exact h
  · rename_i hmz
    rw [if_neg hmz]
    obtain ⟨⟨peOffset, f⟩, hoffset, h⟩ := Option.bind_eq_some_iff.mp h
    obtain ⟨rfl, hoffset'⟩ := braIoFileRead_append hoffset rest
    rw [braIoFileSeekSet, hoffset', Option.bind_some]
    dsimp only at h ⊢
    split at h
    · rename_i hlow
      rw [if_pos hlow]
      exact h
    · rename_i hhigh
      rw [if_neg hhigh]
      obtain ⟨⟨peMagic, f⟩, hpe, h⟩ := Option.bind_eq_some_iff.mp h
      rw [braIoFileSeekSet, (braIoFileRead_append hpe rest).2]
      exact h

/-- In a file without room for the one signature there is none for the other. -/
theorem braIoFileIsPeExe_of_short {data : Bytes} (h : data.length < 4) :
    braIoFileIsPeExe data = false := by
  rw [braIoFileIsPeExe, braIoFileMagicIsPeExe]
  cases hmagic : braIoFileRead ⟨data, 0⟩ 2 with
  | none => rfl
  | some r =>
    obtain ⟨magic, f⟩ := r
    obtain ⟨-, rfl, -⟩ := braIoFileRead_eq_some hmagic
    have hoffset : braIoFileRead (braIoFileSeekSet ⟨data, 0 + 2⟩ 0x3C) 4 = none :=
      if_neg (by change ¬ 0x3C + 4 ≤ data.length; omega)
    rw [Option.bind_eq_bind, Option.bind_some]
    dsimp only
    rw [hoffset]
    split <;> rfl

/-- **Both signatures at once**: looking for them one after the other gives the same. -/
theorem braIoFileCanBeSfx_eq (data : Bytes) :
    braIoFileCanBeSfx data = (braIoFileIsElf data || braIoFileIsPeExe data) := by
  rw [braIoFileCanBeSfx, braIoFileIsElf]
  cases helf : braIoFileMagicIsElf ⟨data, 0⟩ with
  | none =>
    have hshort : data.length < 4 := by
      by_contra hlong
      rw [braIoFileMagicIsElf, braIoFileRead, if_pos (by dsimp only; omega)] at helf
      cases helf
    rw [braIoFileIsPeExe_of_short hshort]
    rfl
  | some r =>
    obtain ⟨res, f⟩ := r
    obtain rfl : f = ⟨data, 4⟩ := (braIoFileMagicIsElf_append helf []).1
    cases res <;> rfl

/-- **An executable stays one** with an archive behind it. -/
theorem braIoFileCanBeSfx_append {program : Bytes} (h : braIoFileCanBeSfx program = true)
    (rest : Bytes) : braIoFileCanBeSfx (program ++ rest) = true := by
  rw [braIoFileCanBeSfx_eq, Bool.or_eq_true] at h ⊢
  rcases h with h | h
  · left
    rw [braIoFileIsElf] at h
    split at h
    · cases h
    · rename_i res f helf
      rw [braIoFileIsElf, (braIoFileMagicIsElf_append helf rest).2]
      exact h
  · right
    obtain ⟨res, hpe⟩ : ∃ res, braIoFileMagicIsPeExe ⟨program, 0⟩ = some res := by
      rw [← Option.isSome_iff_exists]
      by_contra hnone
      rw [braIoFileIsPeExe, Option.not_isSome_iff_eq_none.mp hnone] at h
      cases h
    rw [braIoFileIsPeExe, hpe] at h
    rw [braIoFileIsPeExe, braIoFileMagicIsPeExe_append hpe rest]
    exact h

/-! ## The output directory -/

section Output
variable {τ : Type} (fs : FileSystem τ) (trySanitize : FsPath → Option FsPath)
  (currentPath : τ → Option FsPath) (chdir : τ → FsPath → Option τ)

/-- `BraProgramOutputArgTrait::validateArgs`: the output path in the normal form, the current one
if none was given. -/
def outputValidateArgs (outputPath : CStr) (t : τ) : Option FsPath :=
  if outputPath.bytes = [] then (currentPath t).bind trySanitize
  else
    match trySanitize (pathElements outputPath) with
    | none => none
    | some p => if p = [] then none else some p

/-- `BraProgramOutputArgTrait::run_prog`: the output directory is made, if it is not there, and
entered.  The directory that is left is remembered. -/
def outputRunProg (outputPath : FsPath) (t : τ) : Option (FsPath × τ) := do
  let t ← if fs.dirAt t outputPath then some t else fs.dirMake t (joinPath outputPath)
  let curPath ← currentPath t
  let t ← chdir t outputPath
  return (curPath, t)

/-- `BraProgramOutputArgTrait::run_prog_end`: failing to go back is no error. -/
def outputRunProgEnd (curPath : FsPath) (t : τ) : τ := (chdir t curPath).getD t

end Output

/-! ## The program on its own file -/

section Run
variable {τ : Type} (fs : FileSystem τ) (trySanitize : FsPath → Option FsPath)
  (currentPath : τ → Option FsPath) (chdir : τ → FsPath → Option τ)

/-- `BraSfx::run_prog`: the entries are extracted to the output directory. -/
def BraSfx.runProg (f : IoFile) (user : User) (outputPath : FsPath) (t : τ) :
    Option (IoFileCtx × User × τ) := do
  let ctx ← braIoFileCtxSfxOpenAndReadFooterHeader f
  let (curPath, t) ← outputRunProg fs currentPath chdir outputPath t
  let (ctx, user, t) ← decodeEntries fs ctx.numFiles ctx user t
  return (ctx, user, outputRunProgEnd chdir curPath t)

/-- `BraProgram::run` for `BraSfx`, whose own file has the bytes `data`. -/
def BraSfx.run (data : Bytes) (args : List CStr) (input : Bytes) (t : τ) :
    Option (IoFileCtx × User × τ) :=
  match parseArgs braSfx trySanitize (fs.dirAt t) (fs.fileAt t) (CStr.ofBuffer []) args with
  | .ok (policy, outputPath) =>
    -- `BraSfx::validateArgs`
    if !braIoFileCanBeSfx data then none
    else
      match outputValidateArgs trySanitize currentPath outputPath t with
      | none => none
      | some outputPath => BraSfx.runProg fs currentPath chdir ⟨data, 0⟩ ⟨policy, input⟩ outputPath t
  | _ => none

variable {fs trySanitize currentPath chdir}

/-- Opening the archive and entering the output directory do not depend on each other: in that
directory the program does what `unbra` does. -/
theorem BraSfx.runProg_eq (f : IoFile) (user : User) (outputPath : FsPath) (t : τ) :
    BraSfx.runProg fs currentPath chdir f user outputPath t =
      (outputRunProg fs currentPath chdir outputPath t).bind fun r =>
        (unbraRunProg fs true false false f user r.2).map fun r' =>
          (r'.1, r'.2.1, outputRunProgEnd chdir r.1 r'.2.2) := by
  cases hopen : braIoFileCtxSfxOpenAndReadFooterHeader f with
  | none =>
    have hunbra : ∀ t, unbraRunProg fs true false false f user t = none := fun t => by
      rw [unbraRunProg, unbraOpen, if_pos rfl, hopen]
      rfl
    simp only [runProg, hopen, hunbra, Option.bind_eq_bind, Option.bind_none, Option.map_none,
      Option.bind_fun_none]
  | some ctx =>
    have hunbra : ∀ t, unbraRunProg fs true false false f user t =
        decodeEntries fs ctx.numFiles ctx user t := fun t => by
      rw [unbraRunProg, unbraOpen, if_pos rfl, hopen]
      rfl
    rw [runProg, hopen, Option.bind_eq_bind, Option.bind_some]
    refine congrArg _ (funext fun r => ?_)
    rw [hunbra]
    exact Option.map_eq_bind.symm

/-- The program on an executable, from the output path on. -/
theorem BraSfx.run_eq {data : Bytes} (hexecutable : braIoFileCanBeSfx data = true)
    {args : List CStr} {policy : OverwritePolicy} {outputPath : CStr} {t : τ}
    (hparse : parseArgs braSfx trySanitize (fs.dirAt t) (fs.fileAt t) (CStr.ofBuffer []) args =
      .ok (policy, outputPath)) (input : Bytes) :
    BraSfx.run fs trySanitize currentPath chdir data args input t =
      ((outputValidateArgs trySanitize currentPath outputPath t).bind
        (outputRunProg fs currentPath chdir · t)).bind fun r =>
          (unbraRunProg fs true false false ⟨data, 0⟩ ⟨policy, input⟩ r.2).map fun r' =>
            (r'.1, r'.2.1, outputRunProgEnd chdir r.1 r'.2.2) := by
  rw [run, hparse]
  dsimp only
  rw [hexecutable, Bool.not_true, if_neg Bool.false_ne_true]
  cases outputValidateArgs trySanitize currentPath outputPath t with
  | none => rfl
  | some outputPath => exact runProg_eq ⟨data, 0⟩ ⟨policy, input⟩ outputPath t

variable (trySanitize currentPath chdir) in
/-- **A self-extracting archive extracts itself**: behind an executable, over the placeholder
for the footer, `bra` writes a file that, run with any command line that is taken, does what the
entries say, under the policy of the command line, to the output directory it has entered.  It
fails before that just if the output path is refused, or if that directory cannot be made or
entered. -/
theorem selfExtracting_runs {σ : Type} {fs₀ : FileSystem σ} {view₀ : σ → DiskView} {s : σ}
    {view : τ → DiskView} (qsortR : QsortR) (compress : Bool) (plan : EntryPlan)
    (hfs₀ : fs₀.Works (Planned plan.entries) view₀) (hfs : fs.Works (Planned plan.entries) view)
    (hfinds : fs.FindsFiles (Planned plan.entries) view)
    (hsrc : ∀ e ∈ plan.entries, view₀ s e.fn = some e.node) (hne : plan.entries ≠ [])
    {program placeholder : Bytes} (hprogram : braIoFileCanBeSfx program = true)
    (hplaceholder : placeholder.length = sizeofFooter) :
    ∃ data, writeSfxArchive fs₀ qsortR s (program ++ placeholder) plan.entries.length
        (plan.entries.map PlanEntry.fn) compress = some data ∧
      (data.length < 2 ^ 63 → ∀ args input t policy outputPath,
        parseArgs braSfx trySanitize (fs.dirAt t) (fs.fileAt t) (CStr.ofBuffer []) args =
          .ok (policy, outputPath) →
        ((outputValidateArgs trySanitize currentPath outputPath t).bind
            (outputRunProg fs currentPath chdir · t) = none →
          BraSfx.run fs trySanitize currentPath chdir data args input t = none) ∧
        ∀ curPath t', (outputValidateArgs trySanitize currentPath outputPath t).bind
            (outputRunProg fs currentPath chdir · t) = some (curPath, t') →
          NoClash plan.entries (view t') → ∃ extracted : Option (IoFileCtx × User × τ),
            BraSfx.run fs trySanitize currentPath chdir data args input t =
              extracted.map (fun r => (r.1, r.2.1, outputRunProgEnd chdir curPath r.2.2)) ∧
            extracted.map (fun r => (r.2.1, view r.2.2)) =
              extractPlan (PlanEntry.CanBeRecovered qsortR compress) plan.entries ⟨policy, input⟩
                (view t')) := by
  have hne' : program ≠ [] := by
    rintro rfl
    cases hprogram
  have hlong : sizeofFooter < (program ++ placeholder).length := by
    rw [List.length_append, hplaceholder]
    have hpos := List.length_pos_of_ne_nil hne'
    omega
  obtain ⟨hpayload, hwrite⟩ := writeSfxArchive_image hfs₀ qsortR compress plan hsrc hne hlong
  rw [List.take_left' (by rw [List.length_append, hplaceholder, Nat.add_sub_cancel])] at hwrite
  refine ⟨_, hwrite, fun hsize args input t policy outputPath hparse => ?_⟩
  have hexecutable :
      braIoFileCanBeSfx (sfxArchiveImage qsortR compress program plan.entries) = true := by
    rw [sfxArchiveImage, List.append_assoc]
    exact braIoFileCanBeSfx_append hprogram _
  have hunpacks := sfxArchiveImage_unpacks qsortR compress plan hfs hfinds hsrc hne' hpayload hsize
  rw [BraSfx.run_eq hexecutable hparse]
  refine ⟨fun hnone => ?_, fun curPath t' hthere hclash => ?_⟩
  · rw [hnone, Option.bind_none]
  · rw [hthere, Option.bind_some]
    refine ⟨_, rfl, ?_⟩
    have hextract := congrArg (Option.map Prod.snd) (hunpacks.extract ⟨policy, input⟩ t' hclash)
    rw [Option.map_map, Option.map_map] at hextract
    exact hextract.trans Option.map_id'

end Run

/-- `/home`, where the program is run. -/
def letterHome : FsPath := [CStr.ofBuffer [47], CStr.ofBuffer [104, 111, 109, 101]]

/-- The path of the current directory stands for it as well. -/
def sanitizeHome (f : FsPath) : Option FsPath :=
  if f = letterHome then some dotPath else sanitizeHere f

/-- The only directory is the current one. -/
def chdirHome (view : DiskView) (dir : FsPath) : Option DiskView :=
  if dir = dotPath ∨ dir = letterHome then some view else none

/-- An empty directory. -/
def emptyHome : DiskView :=
  Function.update (fun _ => none) (joinPath dotPath) (some .dir)

/-- The archive of letters behind the first four bytes of a program, without arguments: it is
extracted to the current directory. -/
theorem selfExtracting_runs_letters :
    ∃ data, writeSfxArchive FileSystem.inMemory QsortR.mergeSort (planView lettersPlan.entries)
        ([0x7F, 69, 76, 70] ++ List.replicate 12 0) 4 (lettersPlan.entries.map PlanEntry.fn) true =
          some data ∧
      (data.length < 2 ^ 63 → ∃ extracted : Option (IoFileCtx × User × DiskView),
        BraSfx.run FileSystem.inMemory sanitizeHome (fun _ => some letterHome) chdirHome data [] []
            emptyHome =
          extracted.map (fun r => (r.1, r.2.1, outputRunProgEnd chdirHome letterHome r.2.2)) ∧
        extracted.map (fun r => (r.2.1, id r.2.2)) =
          extractPlan (PlanEntry.CanBeRecovered QsortR.mergeSort true) lettersPlan.entries
            ⟨.ask, []⟩ emptyHome) := by
  obtain ⟨data, hwrite, hruns⟩ := selfExtracting_runs sanitizeHome (fun _ => some letterHome)
    chdirHome QsortR.mergeSort true lettersPlan (FileSystem.inMemory_works _)
    (FileSystem.inMemory_works _) (FileSystem.inMemory_findsFiles _) letters_source (by decide)
    (show braIoFileCanBeSfx [0x7F, 69, 76, 70] = true by decide)
    (show (List.replicate 12 0).length = sizeofFooter by decide)
  refine ⟨data, hwrite, fun hsize => ?_⟩
  obtain ⟨-, hextracts⟩ := hruns hsize [] [] emptyHome .ask _ rfl
  refine hextracts letterHome emptyHome rfl ?_
  have hfree : ∀ e ∈ lettersPlan.entries, emptyHome e.fn = none := by decide +kernel
  intro e he node hnode
  rw [id, hfree e he] at hnode
  cases hnode

end BrArchive
