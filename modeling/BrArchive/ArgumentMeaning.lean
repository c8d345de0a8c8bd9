import BrArchive.ProgramArgs

/-! # What the arguments mean

The command lines that `bra`, `unbra` and the self-extracting program take, and what they set.  The
order of the words matters in two places: for `bra`, the option for recursion is about the operands
behind it, and what they stand for goes into one set; for `unbra`, the last archive is opened, but
as a self-extracting one if any of them was.
-/
namespace BrArchive

theorem getLastD_append {α : Type} (l l' : List α) (a : α) :
    (l ++ l').getLastD a = l'.getLastD (l.getLastD a) := by
  simp only [List.getLastD_eq_getLast?, List.getLast?_append]
  cases l'.getLast? <;> rfl

/-- One of these flags is among the words. -/
def flagGiven (f : CStr → Bool) (ws : List Word) : Bool :=
  ws.any fun
    | .flag s => f s
    | _ => false

/-- The values of options. -/
def valuesGiven (ws : List Word) : List CStr :=
  ws.filterMap fun
    | .value _ v => some v
    | _ => none

/-- The operands. -/
def operands (ws : List Word) : List CStr :=
  ws.filterMap fun
    | .operand s => some s
    | _ => none

section Meaning
variable {trySanitize : FsPath → Option FsPath} {dirExists fileExists : FsPath → Bool}

/-- What a program makes of its words, if the operands do not depend on each other and every word
has a meaning of its own. -/
theorem foldlM_runWord_iff {σ : Type} {prog : BraProgram σ} {table : OptionTable σ}
    {accepts : CStr → Prop} (meaning : σ → List Word → σ) (hnil : ∀ st, meaning st [] = st)
    (happend : ∀ st ws ws', meaning st (ws ++ ws') = meaning (meaning st ws) ws')
    (hpolicy : ∀ st yes, meaning st [.policy yes] = st)
    (hflag : ∀ st s, meaning st [.flag s] = table.setFlag st s)
    (hvalue : ∀ st s v, meaning st [.value s v] = table.setValue st s v)
    (hoperand : ∀ st st' s, parseOperand prog trySanitize dirExists fileExists st s = some st' ↔
      accepts s ∧ st' = meaning st [.operand s]) {ws : List Word} {st st' : σ} :
    ws.foldlM (runWord prog trySanitize dirExists fileExists table) st = some st' ↔
      (∀ s ∈ operands ws, accepts s) ∧ st' = meaning st ws := by
  induction ws generalizing st with
  | nil =>
    rw [hnil]
    exact ⟨fun h => ⟨fun s hs => absurd hs List.not_mem_nil, (Option.some.inj h).symm⟩,
      fun h => congrArg some h.2.symm⟩
  | cons w ws ih =>
    rw [List.foldlM_cons, ← List.singleton_append, happend]
    cases w with
    | policy yes =>
      rw [hpolicy]
      exact ih
    | flag s =>
      rw [hflag]
      exact ih
    | value s v =>
      rw [hvalue]
      exact ih
    | operand s =>
      have hs : operands ([.operand s] ++ ws) = s :: operands ws := rfl
      rw [hs, List.forall_mem_cons]
      constructor
      · intro h
        obtain ⟨st₁, hst₁, h⟩ := Option.bind_eq_some_iff.mp h
        obtain ⟨hfirst, rfl⟩ := (hoperand st st₁ s).mp hst₁
        obtain ⟨hrest, hst'⟩ := ih.mp h
        exact ⟨⟨hfirst, hrest⟩, hst'⟩
      · rintro ⟨⟨hfirst, hrest⟩, hst'⟩
        exact Option.bind_eq_some_iff.mpr ⟨_, (hoperand st _ s).mpr ⟨hfirst, rfl⟩, ih.mpr ⟨hrest, hst'⟩⟩

/-! ### `unbra` -/

variable (trySanitize fileExists) in
/-- The path that an operand of `unbra` stands for. -/
def Unbra.operandPath (s : CStr) : Option FsPath :=
  trySanitize (pathElements (Unbra.parseArgsAdjustFilename fileExists s))

variable (trySanitize dirExists fileExists) in
/-- `unbra` takes an operand that is there in some way, or a wildcard. -/
def Unbra.Accepts (s : CStr) : Prop :=
  ∃ p, Unbra.operandPath trySanitize fileExists s = some p ∧
    (fileExists p ∨ dirExists p ∨ isWildcard p)

variable (trySanitize fileExists) in
/-- The archives among the operands of `unbra`. -/
def Unbra.archives (ws : List Word) : List FsPath :=
  (operands ws).filterMap fun s => (Unbra.operandPath trySanitize fileExists s).filter fileExists

variable (trySanitize fileExists) in
/-- What the words set in `unbra`.  The archive is the last one among them, but a self-extracting
one anywhere counts. -/
def Unbra.meaning (st : UnbraArgs) (ws : List Word) : UnbraArgs where
  outputPath := (valuesGiven ws).getLastD st.outputPath
  braFile := (Unbra.archives trySanitize fileExists ws).getLastD st.braFile
  listContent := st.listContent || flagGiven (fun s => isList s || isTest s) ws
  testContent := st.testContent || flagGiven isTest ws
  sfx := st.sfx || (Unbra.archives trySanitize fileExists ws).any hasSfxExtension

theorem Unbra.meaning_append (st : UnbraArgs) (ws ws' : List Word) :
    Unbra.meaning trySanitize fileExists st (ws ++ ws') =
      Unbra.meaning trySanitize fileExists (Unbra.meaning trySanitize fileExists st ws) ws' := by
  simp only [meaning, valuesGiven, archives, operands, flagGiven, List.filterMap_append,
    List.any_append, getLastD_append, Bool.or_assoc]

theorem unbra_parseOperand_iff (st st' : UnbraArgs) (s : CStr) :
    parseOperand (unbra fileExists) trySanitize dirExists fileExists st s = some st' ↔
      Unbra.Accepts trySanitize dirExists fileExists s ∧
        st' = Unbra.meaning trySanitize fileExists st [.operand s] := by
  have hpath : trySanitize (pathElements ((unbra fileExists).parseArgsAdjustFilename s)) =
      Unbra.operandPath trySanitize fileExists s := rfl
  have harchives : Unbra.archives trySanitize fileExists [.operand s] =
      ((Unbra.operandPath trySanitize fileExists s).filter fileExists).toList := by
    change [s].filterMap _ = _
    rw [List.filterMap_cons]
    cases (Unbra.operandPath trySanitize fileExists s).filter fileExists <;> rfl
  have hmeaning : Unbra.meaning trySanitize fileExists st [.operand s] =
      { st with
        braFile := ((Unbra.operandPath trySanitize fileExists s).filter fileExists).getD st.braFile
        sfx := st.sfx ||
          ((Unbra.operandPath trySanitize fileExists s).filter fileExists).any hasSfxExtension } := by
    rw [Unbra.meaning, harchives]
    cases (Unbra.operandPath trySanitize fileExists s).filter fileExists <;>
      simp [valuesGiven, flagGiven]
  rw [parseOperand, hpath, Unbra.Accepts, hmeaning]
  cases Unbra.operandPath trySanitize fileExists s with
  | none => simp
  | some p =>
    have hany : (∃ p', some p = some p' ∧ (fileExists p' ∨ dirExists p' ∨ isWildcard p')) ↔
        fileExists p ∨ dirExists p ∨ isWildcard p := by
      simp only [Option.some_inj, exists_eq_left']
    rw [hany]
    dsimp only
    by_cases hfile : fileExists p
    · rw [if_pos hfile, Option.filter_some_pos hfile, and_iff_right (.inl hfile),
        eq_comm (a := st')]
      exact Option.some_inj
    · have hsame : { st with braFile := st.braFile, sfx := st.sfx || false } = st := by
        rw [Bool.or_false]
      rw [if_neg hfile, Option.filter_some_neg (Bool.eq_false_of_not_eq_true hfile),
        or_iff_right hfile, eq_comm (a := st')]
      change _ ↔ _ ∧ { st with braFile := st.braFile, sfx := st.sfx || false } = st'
      rw [hsame]
      by_cases hdir : dirExists p
      · rw [if_pos hdir, and_iff_right (.inl hdir)]
        exact Option.some_inj
      · rw [if_neg hdir, or_iff_right hdir]
        by_cases hwild : isWildcard p
        · rw [if_pos hwild, and_iff_right hwild]
          exact Option.some_inj
        · rw [if_neg hwild]
          exact iff_of_false (Option.some_ne_none st').symm fun h => hwild h.1

theorem unbra_foldlM_iff {ws : List Word} {st st' : UnbraArgs} :
    ws.foldlM (runWord (unbra fileExists) trySanitize dirExists fileExists Unbra.options) st =
        some st' ↔
      (∀ s ∈ operands ws, Unbra.Accepts trySanitize dirExists fileExists s) ∧
        st' = Unbra.meaning trySanitize fileExists st ws := by
  refine foldlM_runWord_iff (Unbra.meaning trySanitize fileExists) (fun st => ?_)
    Unbra.meaning_append (fun st yes => ?_) (fun st s => ?_) (fun st s v => ?_)
    unbra_parseOperand_iff
  · simp [Unbra.meaning, valuesGiven, flagGiven, Unbra.archives, operands]
  · simp [Unbra.meaning, valuesGiven, flagGiven, Unbra.archives, operands]
  · simp [Unbra.meaning, Unbra.options, valuesGiven, flagGiven, Unbra.archives, operands,
      Bool.or_assoc]
  · simp [Unbra.meaning, Unbra.options, valuesGiven, flagGiven, Unbra.archives, operands]

/-- **The command line of `unbra`**: it is taken exactly if it can be read as words, asks for one
policy at most and has operands that are there; and then the words say what is done. -/
theorem unbra_parseArgs_iff {args : List CStr} {policy : OverwritePolicy} {st : UnbraArgs} :
    parseArgs (unbra fileExists) trySanitize dirExists fileExists UnbraArgs.initial args =
        .ok (policy, st) ↔
      args ≠ [] ∧ ∃ ws, readWords Unbra.options.takesValue args = some ws ∧
        (policies ws = [] ∧ policy = .ask ∨ policies ws = [policy]) ∧
        (∀ s ∈ operands ws, Unbra.Accepts trySanitize dirExists fileExists s) ∧
        st = Unbra.meaning trySanitize fileExists UnbraArgs.initial ws := by
  have hmin : args.length + 1 < (unbra fileExists).parseArgsMinArgc ↔ args = [] := by
    change args.length + 1 < 2 ↔ _
    rw [← List.length_eq_zero_iff]
    omega
  rw [parseArgs, if_congr hmin rfl rfl]
  by_cases hnil : args = []
  · rw [if_pos hnil]
    exact iff_of_false nofun fun h => h.1 hnil
  · rw [if_neg hnil, and_iff_right hnil, parseArgsLoop_eq_ok_iff (unbra_readsBy fileExists)]
    simp only [foldlM_policies, unbra_foldlM_iff]

/-! ### The self-extracting program -/

variable (trySanitize dirExists fileExists) in
/-- The self-extracting program takes an operand only if it makes nothing of it. -/
def BraSfx.Accepts (s : CStr) : Prop :=
  ∃ p, trySanitize (pathElements s) = some p ∧ ¬ fileExists p ∧ (dirExists p ∨ isWildcard p)

theorem braSfx_parseOperand_iff (st st' : CStr) (s : CStr) :
    parseOperand braSfx trySanitize dirExists fileExists st s = some st' ↔
      BraSfx.Accepts trySanitize dirExists fileExists s ∧ st' = st := by
  have hpath : trySanitize (pathElements (braSfx.parseArgsAdjustFilename s)) =
      trySanitize (pathElements s) := rfl
  rw [parseOperand, hpath, BraSfx.Accepts, eq_comm (a := st')]
  cases trySanitize (pathElements s) with
  | none => simp
  | some p =>
    have hany : (∃ p', some p = some p' ∧ ¬ fileExists p' ∧ (dirExists p' ∨ isWildcard p')) ↔
        ¬ fileExists p ∧ (dirExists p ∨ isWildcard p) := by
      simp only [Option.some_inj, exists_eq_left']
    rw [hany]
    dsimp only
    by_cases hfile : fileExists p
    · rw [if_pos hfile]
      exact iff_of_false (Option.some_ne_none st').symm fun h => h.1.1 hfile
    · rw [if_neg hfile, and_iff_right hfile]
      by_cases hdir : dirExists p
      · rw [if_pos hdir, and_iff_right (.inl hdir)]
        exact Option.some_inj
      · rw [if_neg hdir, or_iff_right hdir]
        by_cases hwild : isWildcard p
        · rw [if_pos hwild, and_iff_right hwild]
          exact Option.some_inj
        · rw [if_neg hwild]
          exact iff_of_false (Option.some_ne_none st').symm fun h => hwild h.1

/-- **The command line of the self-extracting program**: no operand may be a file. -/
theorem braSfx_parseArgs_iff {args : List CStr} {policy : OverwritePolicy} {outputPath : CStr} :
    parseArgs braSfx trySanitize dirExists fileExists (CStr.ofBuffer []) args =
        .ok (policy, outputPath) ↔
      ∃ ws, readWords BraSfx.options.takesValue args = some ws ∧
        (policies ws = [] ∧ policy = .ask ∨ policies ws = [policy]) ∧
        (∀ s ∈ operands ws, BraSfx.Accepts trySanitize dirExists fileExists s) ∧
        outputPath = (valuesGiven ws).getLastD (CStr.ofBuffer []) := by
  have hmeaning : ∀ {ws : List Word} {st st' : CStr},
      ws.foldlM (runWord braSfx trySanitize dirExists fileExists BraSfx.options) st = some st' ↔
        (∀ s ∈ operands ws, BraSfx.Accepts trySanitize dirExists fileExists s) ∧
          st' = (valuesGiven ws).getLastD st := by
    intro ws st st'
    refine foldlM_runWord_iff (fun st ws => (valuesGiven ws).getLastD st) (fun _ => rfl)
      (fun st ws ws' => ?_) (fun _ _ => rfl) (fun _ _ => rfl) (fun _ _ _ => rfl)
      braSfx_parseOperand_iff
    rw [valuesGiven, List.filterMap_append, getLastD_append]
    rfl
  have hmin : ¬ args.length + 1 < braSfx.parseArgsMinArgc := by
    change ¬ args.length + 1 < 1
    omega
  rw [parseArgs, if_neg hmin, parseArgsLoop_eq_ok_iff braSfx_readsBy]
  simp only [foldlM_policies, hmeaning]

/-! ### `bra` -/

section Gather
variable (trySanitize dirExists fileExists) (directoryIterator : FsPath → Listing)

/-- The operands of `bra`, each with the option for recursion as it stands there. -/
def operandsUnder (recursive : Bool) : List Word → List (Bool × CStr)
  | [] => []
  | .flag s :: ws => operandsUnder (recursive || isRecursive s) ws
  | .operand s :: ws => (recursive, s) :: operandsUnder recursive ws
  | _ :: ws => operandsUnder recursive ws

/-- What one operand adds to the files of `bra`. -/
def gather (files : OrderedSet FsPath) (o : Bool × CStr) : Option (OrderedSet FsPath) :=
  match trySanitize (pathElements o.2) with
  | none => none
  | some p =>
    if fileExists p then some (OrderedSet.insert files p)
    else if dirExists p then
      if o.1 ∧ ¬ OrderedSet.contains files p then
        searchWildcard trySanitize directoryIterator (p ++ [starName])
          (OrderedSet.insert files p) true
      else some files
    else if isWildcard p then searchWildcard trySanitize directoryIterator p files o.1
    else none

variable {trySanitize dirExists fileExists directoryIterator}

theorem bra_parseOperand (st : BraArgs) (s : CStr) :
    parseOperand (bra trySanitize directoryIterator) trySanitize dirExists fileExists st s =
      (gather trySanitize dirExists fileExists directoryIterator st.files (st.recursive, s)).map
        fun files => { st with files } := by
  have hpath : trySanitize (pathElements
      ((bra trySanitize directoryIterator).parseArgsAdjustFilename s)) =
        trySanitize (pathElements s) := rfl
  rw [parseOperand, hpath, gather]
  cases trySanitize (pathElements s) with
  | none => rfl
  | some p =>
    dsimp only
    by_cases hfile : fileExists p
    · rw [if_pos hfile, if_pos hfile]
      rfl
    · rw [if_neg hfile, if_neg hfile]
      by_cases hdir : dirExists p
      · rw [if_pos hdir, if_pos hdir, bra]
        dsimp only
        by_cases hr : st.recursive
        · by_cases hmem : OrderedSet.contains st.files p
          · rw [if_pos hr, if_pos hmem, if_neg fun h => h.2 hmem]
            rfl
          · rw [if_pos hr, if_neg hmem, if_pos ⟨hr, hmem⟩, hr]
            cases searchWildcard trySanitize directoryIterator (p ++ [starName])
              (OrderedSet.insert st.files p) true <;> rfl
        · rw [if_neg hr, if_neg fun h => hr h.1]
          rfl
      · rw [if_neg hdir, if_neg hdir]
        by_cases hwild : isWildcard p
        · rw [if_pos hwild, if_pos hwild, bra]
          dsimp only
          cases searchWildcard trySanitize directoryIterator p st.files st.recursive <;> rfl
        · rw [if_neg hwild, if_neg hwild]
          rfl

/-- What the words set in `bra`, with the files that the operands add. -/
def Bra.meaning (st : BraArgs) (ws : List Word) (files : OrderedSet FsPath) : BraArgs where
  files := files
  outFilename := (valuesGiven ws).getLastD st.outFilename
  sfx := st.sfx || flagGiven isSfx ws
  recursive := st.recursive || flagGiven isRecursive ws
  compress := st.compress || flagGiven isCompress ws

theorem Bra.meaning_cons (st : BraArgs) (w : Word) (ws : List Word) (files : OrderedSet FsPath) :
    Bra.meaning st (w :: ws) files = Bra.meaning (Bra.meaning st [w] st.files) ws files := by
  rw [← List.singleton_append]
  simp only [meaning, valuesGiven, flagGiven, List.filterMap_append, List.any_append,
    getLastD_append, Bool.or_assoc]

/-- What the words of `bra` do: the options are independent of each other, and the operands fill
the set of files one after the other. -/
theorem bra_foldlM_iff {ws : List Word} {st st' : BraArgs} :
    ws.foldlM (runWord (bra trySanitize directoryIterator) trySanitize dirExists fileExists
        Bra.options) st = some st' ↔
      ∃ files, (operandsUnder st.recursive ws).foldlM
          (gather trySanitize dirExists fileExists directoryIterator) st.files = some files ∧
        st' = Bra.meaning st ws files := by
  induction ws generalizing st with
  | nil =>
    have hnil : ∀ files, Bra.meaning st [] files = { st with files } := fun files => by
      simp [Bra.meaning, valuesGiven, flagGiven]
    rw [List.foldlM_nil, operandsUnder, List.foldlM_nil]
    constructor
    · intro h
      exact ⟨st.files, rfl, (Option.some.inj h).symm.trans (hnil st.files).symm⟩
    · rintro ⟨files, hfiles, rfl⟩
      obtain rfl := Option.some.inj hfiles
      exact congrArg some (hnil st.files).symm
  | cons w ws ih =>
    rw [List.foldlM_cons]
    simp only [Bra.meaning_cons st w ws]
    cases w with
    | policy yes =>
      have hw : Bra.meaning st [.policy yes] st.files = st := by
        simp [Bra.meaning, valuesGiven, flagGiven]
      rw [hw]
      exact ih
    | flag s =>
      have hw : Bra.meaning st [.flag s] st.files = Bra.options.setFlag st s := by
        simp [Bra.meaning, Bra.options, valuesGiven, flagGiven]
      rw [hw]
      exact ih
    | value s v =>
      have hw : Bra.meaning st [.value s v] st.files = Bra.options.setValue st s v := by
        simp [Bra.meaning, Bra.options, valuesGiven, flagGiven]
      rw [hw]
      exact ih
    | operand s =>
      have hw : Bra.meaning st [.operand s] st.files = st := by
        simp [Bra.meaning, valuesGiven, flagGiven]
      rw [hw, runWord, bra_parseOperand, operandsUnder, List.foldlM_cons]
      cases gather trySanitize dirExists fileExists directoryIterator st.files
        (st.recursive, s) with
      | none => simp
      | some files => exact @ih { st with files }

/-- **The command line of `bra`**: the options are independent of each other and of the operands,
except that a directory is gone through only behind the option for it. -/
theorem bra_parseArgs_iff {args : List CStr} {policy : OverwritePolicy} {st : BraArgs} :
    parseArgs (bra trySanitize directoryIterator) trySanitize dirExists fileExists
        BraArgs.initial args = .ok (policy, st) ↔
      args ≠ [] ∧ ∃ ws, readWords Bra.options.takesValue args = some ws ∧
        (policies ws = [] ∧ policy = .ask ∨ policies ws = [policy]) ∧
        ∃ files, (operandsUnder false ws).foldlM
            (gather trySanitize dirExists fileExists directoryIterator) .empty = some files ∧
          st = Bra.meaning BraArgs.initial ws files := by
  have hmin : args.length + 1 < (bra trySanitize directoryIterator).parseArgsMinArgc ↔
      args = [] := by
    change args.length + 1 < 2 ↔ _
    rw [← List.length_eq_zero_iff]
    omega
  rw [parseArgs, if_congr hmin rfl rfl]
  by_cases hnil : args = []
  · rw [if_pos hnil]
    exact iff_of_false nofun fun h => h.1 hnil
  · rw [if_neg hnil, and_iff_right hnil,
      parseArgsLoop_eq_ok_iff (bra_readsBy trySanitize directoryIterator)]
    simp only [foldlM_policies, bra_foldlM_iff]
    rfl

end Gather

end Meaning

end BrArchive
