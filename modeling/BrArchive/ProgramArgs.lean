import BrArchive.FileSearch
import BrArchive.FileSystem

/-! # The arguments of the programs

`BraProgram::parseArgs` of `BraProgram.cpp`, which `bra`, `unbra` and the self-extracting program
share, with the functions that each of them has for its own options and for its operands.

The loop reads and acts at the same time: an option may take the next argument, and an operand is
looked up on the disk at once, under the options before it.  Reading the arguments as words comes
first in the proofs, so that what a program gathers is a fold over them.
-/
namespace BrArchive

/-! ## The loop -/

/-- The elements of a path: the root directory, the names, and an empty one behind a last
delimiter. -/
def pathElements (s : CStr) : FsPath :=
  let root := if s.bytes.head? = some braDirDelim then [CStr.ofBuffer [braDirDelim]] else []
  let last :=
    if strtok s ≠ [] ∧ s.bytes.getLast? = some braDirDelim then [CStr.ofBuffer []] else []
  root ++ strtok s ++ last

/-- `std::optional<bool>`, with what there is after `true`. -/
inductive Parsed (α : Type) where
  | nullopt
  | error
  | ok (a : α)
  deriving DecidableEq

/-- The virtual functions of `BraProgram`.  An option that takes the next argument says so. -/
structure BraProgram (σ : Type) where
  parseArgsMinArgc : Nat
  parseArgsOption : σ → CStr → List CStr → Parsed (σ × Bool)
  parseArgsAdjustFilename : CStr → CStr
  parseArgsFile : σ → FsPath → Option σ
  parseArgsDir : σ → FsPath → Parsed σ
  parseArgsWildcards : σ → FsPath → Parsed σ

/-- One of the two spellings of an option. -/
def isOption (long short : Bytes) (s : CStr) : Bool := s.bytes == long || s.bytes == short

/-- `"--help"`, `"-h"`. -/
def isHelp : CStr → Bool := isOption [45, 45, 104, 101, 108, 112] [45, 104]

/-- `"--yes"`, `"-y"`. -/
def isYes : CStr → Bool := isOption [45, 45, 121, 101, 115] [45, 121]

/-- `"--no"`, `"-n"`. -/
def isNo : CStr → Bool := isOption [45, 45, 110, 111] [45, 110]

/-- `BraProgram::set_overwrite_policy`: the options exclude each other. -/
def setOverwritePolicy (policy op : OverwritePolicy) : Option OverwritePolicy :=
  if policy ≠ .ask then none else some op

section Parse
variable {σ : Type} (prog : BraProgram σ) (trySanitize : FsPath → Option FsPath)
  (dirExists fileExists : FsPath → Bool)

/-- What is left when an operand is not a valid input: a warning. -/
def Parsed.orWarn (st : σ) : Parsed σ → Option σ
  | .nullopt => some st
  | .error => none
  | .ok st => some st

/-- The part of the loop about the file system. -/
def parseOperand (st : σ) (s : CStr) : Option σ :=
  match trySanitize (pathElements (prog.parseArgsAdjustFilename s)) with
  | none => none
  | some p =>
    if fileExists p then prog.parseArgsFile st p
    else if dirExists p then (prog.parseArgsDir st p).orWarn st
    else if isWildcard p then (prog.parseArgsWildcards st p).orWarn st
    else none

/-- The loop of `BraProgram::parseArgs`. -/
def parseArgsLoop (policy : OverwritePolicy) (st : σ) :
    List CStr → Parsed (OverwritePolicy × σ)
  | [] => .ok (policy, st)
  | s :: args =>
    if isHelp s then .nullopt
    else if isYes s then
      match setOverwritePolicy policy .alwaysYes with
      | none => .error
      | some policy => parseArgsLoop policy st args
    else if isNo s then
      match setOverwritePolicy policy .alwaysNo with
      | none => .error
      | some policy => parseArgsLoop policy st args
    else
      match prog.parseArgsOption st s args with
      | .error => .error
      | .ok (st, false) => parseArgsLoop policy st args
      | .ok (st, true) =>
        match args with
        | [] => .error
        | _ :: args => parseArgsLoop policy st args
      | .nullopt =>
        if s.bytes.head? = some 45 then .error
        else
          match parseOperand prog trySanitize dirExists fileExists st s with
          | none => .error
          | some st => parseArgsLoop policy st args

/-- `BraProgram::parseArgs`, of the arguments behind the name of the program. -/
def parseArgs (st : σ) (args : List CStr) : Parsed (OverwritePolicy × σ) :=
  if args.length + 1 < prog.parseArgsMinArgc then .error
  else parseArgsLoop prog trySanitize dirExists fileExists .ask st args

end Parse

/-! ## `bra` -/

/-- The members of `Bra` that the arguments set. -/
structure BraArgs where
  files : OrderedSet FsPath
  outFilename : CStr
  sfx : Bool
  recursive : Bool
  compress : Bool
  deriving DecidableEq

/-- Before any argument. -/
def BraArgs.initial : BraArgs := ⟨.empty, CStr.ofBuffer [], false, false, false⟩

/-- `"--out"`, `"-o"`. -/
def isOut : CStr → Bool := isOption [45, 45, 111, 117, 116] [45, 111]

/-- `"--sfx"`, `"-s"`. -/
def isSfx : CStr → Bool := isOption [45, 45, 115, 102, 120] [45, 115]

/-- `"--recursive"`, `"-r"`. -/
def isRecursive : CStr → Bool :=
  isOption [45, 45, 114, 101, 99, 117, 114, 115, 105, 118, 101] [45, 114]

/-- `"-c"`. -/
def isCompress : CStr → Bool := isOption [45, 99] [45, 99]

/-- `Bra::parseArgs_option`. -/
def Bra.parseArgsOption (st : BraArgs) (s : CStr) (args : List CStr) : Parsed (BraArgs × Bool) :=
  if isOut s then
    match args with
    | [] => .error
    | out :: _ => .ok ({ st with outFilename := out }, true)
  else if isSfx s then .ok ({ st with sfx := true }, false)
  else if isRecursive s then .ok ({ st with recursive := true }, false)
  else if isCompress s then .ok ({ st with compress := true }, false)
  else .nullopt

/-- The name `"*"`. -/
def starName : CStr := CStr.ofBuffer [42]

/-- `Bra`. -/
def bra (trySanitize : FsPath → Option FsPath) (directoryIterator : FsPath → Listing) :
    BraProgram BraArgs where
  parseArgsMinArgc := 2
  parseArgsOption := Bra.parseArgsOption
  parseArgsAdjustFilename := id
  parseArgsFile st p := some { st with files := OrderedSet.insert st.files p }
  parseArgsDir st p :=
    if st.recursive then
      -- a directory that is in the set is not searched again
      if OrderedSet.contains st.files p then .ok st
      else
        match searchWildcard trySanitize directoryIterator (p ++ [starName])
            (OrderedSet.insert st.files p) st.recursive with
        | none => .error
        | some files => .ok { st with files }
    else .ok st
  parseArgsWildcards st p :=
    match searchWildcard trySanitize directoryIterator p st.files st.recursive with
    | none => .error
    | some files => .ok { st with files }

/-! ## `unbra` and the self-extracting program -/

/-- `"--output"`, `"-o"`. -/
def isOutput : CStr → Bool := isOption [45, 45, 111, 117, 116, 112, 117, 116] [45, 111]

/-- `BraProgramOutputArgTrait::parseArgs_option`. -/
def outputParseArgsOption (s : CStr) (args : List CStr) : Parsed (CStr × Bool) :=
  if isOutput s then
    match args with
    | [] => .error
    | outputPath :: _ => .ok (outputPath, true)
  else .nullopt

/-- The members of `Unbra` that the arguments set. -/
structure UnbraArgs where
  outputPath : CStr
  braFile : FsPath
  listContent : Bool
  testContent : Bool
  sfx : Bool
  deriving DecidableEq

/-- Before any argument. -/
def UnbraArgs.initial : UnbraArgs := ⟨CStr.ofBuffer [], [], false, false, false⟩

/-- `"--list"`, `"-l"`. -/
def isList : CStr → Bool := isOption [45, 45, 108, 105, 115, 116] [45, 108]

/-- `"--test"`, `"-t"`. -/
def isTest : CStr → Bool := isOption [45, 45, 116, 101, 115, 116] [45, 116]

/-- `Unbra::parseArgs_option`. -/
def Unbra.parseArgsOption (st : UnbraArgs) (s : CStr) (args : List CStr) :
    Parsed (UnbraArgs × Bool) :=
  if isList s then .ok ({ st with listContent := true }, false)
  else if isTest s then .ok ({ st with testContent := true, listContent := true }, false)
  else
    match outputParseArgsOption s args with
    | .nullopt => .nullopt
    | .error => .error
    | .ok (outputPath, taken) => .ok ({ st with outputPath }, taken)

/-- `bra::fs::filename_archive_adjust`. -/
def filenameArchiveAdjust (path : Bytes) : Bytes :=
  if StdPath.extension path ≠ StdPath.braFileExt then path ++ StdPath.braFileExt else path

/-- `BRA_SFX_FILE_EXT_WIN`, `".exe"`. -/
def braSfxFileExtWin : Bytes := [46, 101, 120, 101]

/-- `Unbra::parseArgs_adjustFilename`: the archive of that name, if there is one. -/
def Unbra.parseArgsAdjustFilename (fileExists : FsPath → Bool) (p : CStr) : CStr :=
  let p_ := CStr.ofBuffer (filenameArchiveAdjust p.bytes)
  let lin := CStr.ofBuffer (p_.bytes ++ StdPath.braSfxFileExt)
  let win := CStr.ofBuffer (p_.bytes ++ braSfxFileExtWin)
  if fileExists (pathElements p_) then p_
  else if fileExists (pathElements lin) then lin
  else if fileExists (pathElements win) then win
  else p

/-- A path ends in an extension of self-extracting archives. -/
def hasSfxExtension (p : FsPath) : Bool :=
  StdPath.extension (joinPath p).bytes == StdPath.braSfxFileExt ||
    StdPath.extension (joinPath p).bytes == braSfxFileExtWin

/-- `Unbra`. -/
def unbra (fileExists : FsPath → Bool) : BraProgram UnbraArgs where
  parseArgsMinArgc := 2
  parseArgsOption := Unbra.parseArgsOption
  parseArgsAdjustFilename := Unbra.parseArgsAdjustFilename fileExists
  parseArgsFile st p := some { st with sfx := st.sfx || hasSfxExtension p, braFile := p }
  parseArgsDir _ _ := .nullopt
  parseArgsWildcards _ _ := .nullopt

/-- `BraSfx`, whose only member is the output path. -/
def braSfx : BraProgram CStr where
  parseArgsMinArgc := 1
  parseArgsOption _ := outputParseArgsOption
  parseArgsAdjustFilename := id
  parseArgsFile _ _ := none
  parseArgsDir _ _ := .nullopt
  parseArgsWildcards _ _ := .nullopt

/-! ## The arguments as words -/

/-- The words of a command line. -/
inductive Word where
  | policy (yes : Bool)
  | flag (s : CStr)
  | value (s v : CStr)
  | operand (s : CStr)
  deriving DecidableEq

/-- The policy of one of the two options for it. -/
def alwaysPolicy (yes : Bool) : OverwritePolicy := if yes then .alwaysYes else .alwaysNo

theorem alwaysPolicy_ne_ask (yes : Bool) : alwaysPolicy yes ≠ .ask := by
  cases yes <;> decide

/-- The options of a program: whether an option takes a value, and what it sets. -/
structure OptionTable (σ : Type) where
  takesValue : CStr → Option Bool
  setFlag : σ → CStr → σ
  setValue : σ → CStr → CStr → σ

/-- The words that the arguments are, if no option is unknown or lacks its value, and no help is
asked for. -/
def readWords (takesValue : CStr → Option Bool) : List CStr → Option (List Word)
  | [] => some []
  | s :: args =>
    if isHelp s then none
    else if isYes s then (readWords takesValue args).map (.policy true :: ·)
    else if isNo s then (readWords takesValue args).map (.policy false :: ·)
    else
      match takesValue s with
      | some false => (readWords takesValue args).map (.flag s :: ·)
      | some true =>
        match args with
        | [] => none
        | v :: args => (readWords takesValue args).map (.value s v :: ·)
      | none =>
        if s.bytes.head? = some 45 then none
        else (readWords takesValue args).map (.operand s :: ·)

theorem readWords_cons (takesValue : CStr → Option Bool) (s : CStr) (args : List CStr) :
    readWords takesValue (s :: args) =
      if isHelp s then none
      else if isYes s then (readWords takesValue args).map (.policy true :: ·)
      else if isNo s then (readWords takesValue args).map (.policy false :: ·)
      else
        match takesValue s with
        | some false => (readWords takesValue args).map (.flag s :: ·)
        | some true =>
          match args with
          | [] => none
          | v :: args => (readWords takesValue args).map (.value s v :: ·)
        | none =>
          if s.bytes.head? = some 45 then none
          else (readWords takesValue args).map (.operand s :: ·) := by
  rw [readWords.eq_def]

section Words
variable {σ : Type} {prog : BraProgram σ} {trySanitize : FsPath → Option FsPath}
  {dirExists fileExists : FsPath → Bool} {table : OptionTable σ}

/-- The program reads its options by the table. -/
def BraProgram.ReadsBy (prog : BraProgram σ) (table : OptionTable σ) : Prop :=
  ∀ st s args, prog.parseArgsOption st s args =
    match table.takesValue s with
    | none => .nullopt
    | some false => .ok (table.setFlag st s, false)
    | some true =>
      match args with
      | [] => .error
      | v :: _ => .ok (table.setValue st s v, true)

/-- The policies that a command line asks for. -/
def policies (ws : List Word) : List OverwritePolicy :=
  ws.filterMap fun
    | .policy yes => some (alwaysPolicy yes)
    | _ => none

variable (prog trySanitize dirExists fileExists table) in
/-- What one word does to the members of the program. -/
def runWord (st : σ) : Word → Option σ
  | .policy _ => some st
  | .flag s => some (table.setFlag st s)
  | .value s v => some (table.setValue st s v)
  | .operand s => parseOperand prog trySanitize dirExists fileExists st s

theorem exists_words_cons {words : Option (List Word)} {w : Word} {P : List Word → Prop} :
    (∃ ws, words.map (w :: ·) = some ws ∧ P ws) ↔ ∃ ws, words = some ws ∧ P (w :: ws) := by
  constructor
  · rintro ⟨ws, hws, h⟩
    obtain ⟨ws, hwords, rfl⟩ := Option.map_eq_some_iff.mp hws
    exact ⟨ws, hwords, h⟩
  · rintro ⟨ws, hwords, h⟩
    exact ⟨w :: ws, congrArg (Option.map (w :: ·)) hwords, h⟩

/-- **The loop** reads the arguments as words and does what they say, one after the other. -/
theorem parseArgsLoop_eq_ok_iff (hprog : prog.ReadsBy table) (args : List CStr)
    (policy policy' : OverwritePolicy) (st st' : σ) :
    parseArgsLoop prog trySanitize dirExists fileExists policy st args = .ok (policy', st') ↔
      ∃ ws, readWords table.takesValue args = some ws ∧
        (policies ws).foldlM setOverwritePolicy policy = some policy' ∧
        ws.foldlM (runWord prog trySanitize dirExists fileExists table) st = some st' := by
  induction args using readWords.induct table.takesValue generalizing policy st with
  | case1 => simp [parseArgsLoop, readWords, policies]
  | case2 s args hhelp => simp [parseArgsLoop, readWords_cons, hhelp]
  | case3 s args hhelp hyes ih =>
    rw [parseArgsLoop, if_neg hhelp, if_pos hyes, readWords_cons, if_neg hhelp, if_pos hyes,
      exists_words_cons]
    change _ ↔ ∃ ws, _ ∧ (setOverwritePolicy policy .alwaysYes).bind _ = _ ∧ _
    cases setOverwritePolicy policy .alwaysYes with
    | none => simp
    | some policy => exact ih policy st
  | case4 s args hhelp hyes hno ih =>
    rw [parseArgsLoop, if_neg hhelp, if_neg hyes, if_pos hno, readWords_cons, if_neg hhelp,
      if_neg hyes, if_pos hno, exists_words_cons]
    change _ ↔ ∃ ws, _ ∧ (setOverwritePolicy policy .alwaysNo).bind _ = _ ∧ _
    cases setOverwritePolicy policy .alwaysNo with
    | none => simp
    | some policy => exact ih policy st
  | case5 s args hhelp hyes hno hflag ih =>
    rw [parseArgsLoop, if_neg hhelp, if_neg hyes, if_neg hno, hprog, hflag, readWords_cons,
      if_neg hhelp, if_neg hyes, if_neg hno, hflag, exists_words_cons]
    exact ih policy (table.setFlag st s)
  | case6 s hhelp hyes hno hvalue =>
    rw [parseArgsLoop, if_neg hhelp, if_neg hyes, if_neg hno, hprog, hvalue, readWords_cons,
      if_neg hhelp, if_neg hyes, if_neg hno, hvalue]
    simp
  | case7 s hhelp hyes hno hvalue v args ih =>
    rw [parseArgsLoop, if_neg hhelp, if_neg hyes, if_neg hno, hprog, hvalue, readWords_cons,
      if_neg hhelp, if_neg hyes, if_neg hno, hvalue, exists_words_cons]
    exact ih policy (table.setValue st s v)
  | case8 s args hhelp hyes hno hnone hdash =>
    rw [parseArgsLoop, if_neg hhelp, if_neg hyes, if_neg hno, hprog, hnone, readWords_cons,
      if_neg hhelp, if_neg hyes, if_neg hno, hnone]
    simp [hdash]
  | case9 s args hhelp hyes hno hnone hdash ih =>
    rw [parseArgsLoop, if_neg hhelp, if_neg hyes, if_neg hno, hprog, hnone, readWords_cons,
      if_neg hhelp, if_neg hyes, if_neg hno, hnone]
    simp only [if_neg hdash]
    rw [exists_words_cons]
    change _ ↔ ∃ ws, _ ∧ _ ∧ (parseOperand prog trySanitize dirExists fileExists st s).bind _ = _
    cases parseOperand prog trySanitize dirExists fileExists st s with
    | none => simp
    | some st => exact ih policy st

/-- **The policy**: an option for it is given once at most, and without one the user is asked. -/
theorem foldlM_policies {ws : List Word} {policy : OverwritePolicy} :
    (policies ws).foldlM setOverwritePolicy .ask = some policy ↔
      policies ws = [] ∧ policy = .ask ∨ policies ws = [policy] := by
  have hne : ∀ op ∈ policies ws, op ≠ .ask := by
    intro op hop
    obtain ⟨w, -, hw⟩ := List.mem_filterMap.mp hop
    cases w with
    | policy yes => exact Option.some.inj hw ▸ alwaysPolicy_ne_ask yes
    | flag s | value s v | operand s => cases hw
  generalize policies ws = ops at hne
  match ops with
  | [] => simp [eq_comm]
  | [op] => simp [setOverwritePolicy]
  | op :: op' :: ops =>
    have hop : op ≠ .ask := hne op List.mem_cons_self
    simp [setOverwritePolicy, hop]

end Words

/-! ## The options of the three programs -/

/-- An argument is one option at most. -/
theorem isOption_eq_false {long short long' short' : Bytes} {s : CStr}
    (h : isOption long short s = true)
    (hne : (long ≠ long' ∧ long ≠ short') ∧ short ≠ long' ∧ short ≠ short') :
    isOption long' short' s = false := by
  rw [isOption, Bool.or_eq_true, beq_iff_eq, beq_iff_eq] at h
  obtain ⟨⟨h₁, h₂⟩, h₃, h₄⟩ := hne
  rw [isOption, Bool.or_eq_false_iff, beq_eq_false_iff_ne, beq_eq_false_iff_ne]
  rcases h with h | h
  · rw [h]
    exact ⟨h₁, h₂⟩
  · rw [h]
    exact ⟨h₃, h₄⟩

/-- The options of `bra`. -/
def Bra.options : OptionTable BraArgs where
  takesValue s :=
    if isOut s then some true
    else if isSfx s || isRecursive s || isCompress s then some false
    else none
  setFlag st s :=
    { st with
      sfx := st.sfx || isSfx s
      recursive := st.recursive || isRecursive s
      compress := st.compress || isCompress s }
  setValue st _ v := { st with outFilename := v }

theorem bra_readsBy (trySanitize : FsPath → Option FsPath)
    (directoryIterator : FsPath → Listing) :
    (bra trySanitize directoryIterator).ReadsBy Bra.options := by
  intro st s args
  change Bra.parseArgsOption st s args = _
  unfold Bra.parseArgsOption Bra.options
  by_cases hout : isOut s
  · simp only [hout, if_true]
  · simp only [Bool.eq_false_of_not_eq_true hout, Bool.false_eq_true, if_false]
    by_cases hsfx : isSfx s
    · have hr : isRecursive s = false := isOption_eq_false hsfx (by decide)
      have hc : isCompress s = false := isOption_eq_false hsfx (by decide)
      simp [hsfx, hr, hc]
    · by_cases hr : isRecursive s
      · have hc : isCompress s = false := isOption_eq_false hr (by decide)
        simp [hsfx, hr, hc]
      · by_cases hc : isCompress s
        · simp [hsfx, hr, hc]
        · simp [hsfx, hr, hc]

/-- The options of `unbra`. -/
def Unbra.options : OptionTable UnbraArgs where
  takesValue s :=
    if isList s || isTest s then some false else if isOutput s then some true else none
  setFlag st s :=
    { st with
      listContent := st.listContent || isList s || isTest s
      testContent := st.testContent || isTest s }
  setValue st _ v := { st with outputPath := v }

theorem unbra_readsBy (fileExists : FsPath → Bool) : (unbra fileExists).ReadsBy Unbra.options := by
  intro st s args
  change Unbra.parseArgsOption st s args = _
  unfold Unbra.parseArgsOption Unbra.options
  by_cases hlist : isList s
  · have ht : isTest s = false := isOption_eq_false hlist (by decide)
    simp [hlist, ht]
  · by_cases ht : isTest s
    · simp [hlist, ht]
    · unfold outputParseArgsOption
      by_cases hout : isOutput s
      · cases args <;> simp [hlist, ht, hout]
      · simp [hlist, ht, hout]

/-- The option of the self-extracting program. -/
def BraSfx.options : OptionTable CStr where
  takesValue s := if isOutput s then some true else none
  setFlag st _ := st
  setValue _ _ v := v

theorem braSfx_readsBy : braSfx.ReadsBy BraSfx.options := by
  intro st s args
  change outputParseArgsOption s args = _
  unfold outputParseArgsOption BraSfx.options
  by_cases hout : isOutput s
  · cases args <;> simp [hout]
  · simp [hout]

end BrArchive
