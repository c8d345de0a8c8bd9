import BrArchive.Defs
import Mathlib.Logic.Function.Basic

/-! # The file system

What the archiver asks of the file system, through `bra_fs_c.cpp` and `fopen`, and the
question whether an existing file may be overwritten.
-/
namespace BrArchive

/-- A file system with states `σ`.  A query or an operation that fails returns nothing. -/
structure FileSystem (σ : Type) where
  /-- `bra_fs_file_attributes` with the base `"./"`. -/
  fileAttributes : σ → CStr → Option UInt8
  /-- `bra_fs_file_size`. -/
  fileSize : σ → CStr → Option Nat
  /-- The contents of a file opened with `"rb"`. -/
  openRead : σ → CStr → Option Bytes
  /-- `bra_fs_file_exists`. -/
  fileExists : σ → CStr → Bool
  /-- `bra_fs_dir_exists`. -/
  dirExists : σ → CStr → Bool
  /-- `bra_fs_dir_make`. -/
  dirMake : σ → CStr → Option σ
  /-- Opening a file with `"wb"`: it is there and empty. -/
  openWrite : σ → CStr → Option σ
  /-- Closing a file opened with `"wb"`, which has got these contents. -/
  closeWrite : σ → CStr → Bytes → σ

/-! ## A working file system -/

/-- What a path leads to. -/
inductive DiskNode where
  | dir
  | file (contents : Bytes)
  deriving DecidableEq, Repr

/-- What each path leads to, if anything. -/
abbrev DiskView := CStr → Option DiskNode

/-- The directory part of a path: everything before its last delimiter. -/
def dirOf (path : CStr) : CStr :=
  CStr.ofBuffer ((path.bytes.reverse.dropWhile (· ≠ braDirDelim)).drop 1).reverse

/-- The directory of a path is there, or it is the current one. -/
def DirThere (view : DiskView) (path : CStr) : Prop :=
  (dirOf path).bytes = [] ∨ view (dirOf path) = some .dir

/-- A file system that works under the paths `used`: its files and directories there are those that
`view` shows.  What is under other paths, or under other spellings of these, need not be shown. -/
structure FileSystem.Works {σ : Type} (fs : FileSystem σ) (used : CStr → Prop)
    (view : σ → DiskView) : Prop where
  fileAttributes_file : ∀ s path contents, view s path = some (.file contents) →
    fs.fileAttributes s path = some AttrType.file.bits
  fileAttributes_dir : ∀ s path, view s path = some .dir →
    fs.fileAttributes s path = some AttrType.dir.bits ∨
      fs.fileAttributes s path = some AttrType.subdir.bits
  fileSize : ∀ s path contents, view s path = some (.file contents) →
    fs.fileSize s path = some contents.length
  openRead : ∀ s path contents, view s path = some (.file contents) →
    fs.openRead s path = some contents
  fileExists : ∀ s path, used path → fs.fileExists s path = true →
    ∃ contents, view s path = some (.file contents)
  dirExists : ∀ s path, used path → (fs.dirExists s path = true ↔ view s path = some .dir)
  dirMake : ∀ s path, used path → DirThere (view s) path → view s path = none →
    ∃ s', fs.dirMake s path = some s' ∧ view s' = Function.update (view s) path (some .dir)
  openWrite : ∀ s path, used path → DirThere (view s) path → view s path ≠ some .dir →
    ∃ s', fs.openWrite s path = some s' ∧
      view s' = Function.update (view s) path (some (.file []))
  closeWrite : ∀ s path contents old, used path → view s path = some (.file old) →
    view (fs.closeWrite s path contents) = Function.update (view s) path (some (.file contents))

theorem FileSystem.Works.mono {σ : Type} {fs : FileSystem σ} {used used' : CStr → Prop}
    {view : σ → DiskView} (h : fs.Works used view) (hused : ∀ p, used' p → used p) :
    fs.Works used' view where
  fileAttributes_file := h.fileAttributes_file
  fileAttributes_dir := h.fileAttributes_dir
  fileSize := h.fileSize
  openRead := h.openRead
  fileExists s p hp := h.fileExists s p (hused p hp)
  dirExists s p hp := h.dirExists s p (hused p hp)
  dirMake s p hp := h.dirMake s p (hused p hp)
  openWrite s p hp := h.openWrite s p (hused p hp)
  closeWrite s p contents old hp := h.closeWrite s p contents old (hused p hp)

/-- Closing a file that has been opened for writing leaves its contents in it. -/
theorem FileSystem.Works.closeWrite_update {σ : Type} {fs : FileSystem σ} {used : CStr → Prop}
    {view : σ → DiskView} (h : fs.Works used view) {s s' : σ} {path : CStr} (hused : used path)
    {old : Bytes} (hview : view s' = Function.update (view s) path (some (.file old)))
    (contents : Bytes) :
    view (fs.closeWrite s' path contents) =
      Function.update (view s) path (some (.file contents)) := by
  have hopen : view s' path = some (.file old) := by rw [hview, Function.update_self]
  rw [h.closeWrite s' path contents old hused hopen, hview, Function.update_idem]

/-- The file system whose states are what there is under each path. -/
def FileSystem.inMemory : FileSystem DiskView where
  fileAttributes view path :=
    match view path with
    | some .dir => some AttrType.dir.bits
    | some (.file _) => some AttrType.file.bits
    | none => none
  fileSize view path :=
    match view path with
    | some (.file contents) => some contents.length
    | _ => none
  openRead view path :=
    match view path with
    | some (.file contents) => some contents
    | _ => none
  fileExists view path :=
    match view path with
    | some (.file _) => true
    | _ => false
  dirExists view path := view path = some .dir
  dirMake view path :=
    if view path = none then some (Function.update view path (some .dir)) else none
  openWrite view path :=
    if view path = some .dir then none
    else some (Function.update view path (some (.file [])))
  closeWrite view path contents := Function.update view path (some (.file contents))

theorem FileSystem.inMemory_works (used : CStr → Prop) : FileSystem.inMemory.Works used id where
  fileAttributes_file view path contents h := by
    rw [id] at h
    simp only [inMemory, h]
  fileAttributes_dir view path h := by
    rw [id] at h
    simp only [inMemory, h, true_or]
  fileSize view path contents h := by
    rw [id] at h
    simp only [inMemory, h]
  openRead view path contents h := by
    rw [id] at h
    simp only [inMemory, h]
  fileExists view path _ h := by
    simp only [inMemory] at h
    split at h
    · exact ⟨_, ‹_›⟩
    · cases h
  dirExists view path _ := decide_eq_true_iff
  dirMake view path _ _ h := ⟨_, if_pos h, rfl⟩
  openWrite view path _ _ h := ⟨_, if_neg h, rfl⟩
  closeWrite _ _ _ _ _ _ := rfl

/-- A file system that holds nothing and refuses nothing. -/
def FileSystem.permissive : FileSystem Unit where
  fileAttributes _ _ := none
  fileSize _ _ := none
  openRead _ _ := none
  fileExists _ _ := false
  dirExists _ _ := false
  dirMake _ _ := some ()
  openWrite _ _ := some ()
  closeWrite _ _ _ := ()

/-- `bra_fs_overwrite_policy_e`. -/
inductive OverwritePolicy where
  | ask
  | alwaysYes
  | alwaysNo
  deriving DecidableEq, Repr

/-- The user: the policy so far, and what is left of the standard input. -/
structure User where
  overwritePolicy : OverwritePolicy
  input : Bytes
  deriving DecidableEq, Repr

/-- The characters `cin >> c` skips. -/
def isSpace (c : UInt8) : Bool := (9 ≤ c && c ≤ 13) || c == 32

/-- `tolower`. -/
def toLower (c : UInt8) : UInt8 := if 65 ≤ c ∧ c ≤ 90 then c + 32 else c

/-- The loop that reads an answer: `'y'`, `'n'`, or `'a'` and `'o'` for all files.  The
end of the input counts as `'n'`. -/
def readAnswer (singleOverwrite : Bool) : Bytes → UInt8 × Bytes
  | [] => (110, [])
  | c :: input =>
    if isSpace c then readAnswer singleOverwrite input
    else if !singleOverwrite && (toLower c == 97 || toLower c == 111) then (toLower c, input)
    else if toLower c == 121 || toLower c == 110 then (toLower c, input)
    else readAnswer singleOverwrite input

/-- `bra::fs::file_exists_ask_overwrite` on a file that exists. -/
def fileExistsAskOverwrite (user : User) (singleOverwrite : Bool) : Bool × User :=
  match user.overwritePolicy with
  | .alwaysYes => (true, user)
  | .alwaysNo => (false, user)
  | .ask =>
    let (c, input) := readAnswer singleOverwrite user.input
    if !singleOverwrite && c == 97 then (true, ⟨.alwaysYes, input⟩)
    else if !singleOverwrite && c == 111 then (false, ⟨.alwaysNo, input⟩)
    else (c == 121, { user with input })

/-- `bra_fs_file_exists_ask_overwrite`: a file that does not exist may be written. -/
def braFsFileExistsAskOverwrite {σ : Type} (fs : FileSystem σ) (s : σ) (path : CStr)
    (user : User) (singleOverwrite : Bool) : Bool × User :=
  if fs.fileExists s path then fileExistsAskOverwrite user singleOverwrite else (true, user)

/-- Only a file that exists is kept. -/
theorem fileExists_of_declined {σ : Type} {fs : FileSystem σ} {s : σ} {path : CStr}
    {user : User} {singleOverwrite : Bool}
    (h : (braFsFileExistsAskOverwrite fs s path user singleOverwrite).1 = false) :
    fs.fileExists s path = true := by
  rw [braFsFileExistsAskOverwrite] at h
  split at h
  · assumption
  · cases h

/-- With the policy to overwrite everything no one is asked. -/
theorem askOverwrite_alwaysYes {σ : Type} (fs : FileSystem σ) (s : σ) (path : CStr)
    (input : Bytes) (singleOverwrite : Bool) :
    braFsFileExistsAskOverwrite fs s path ⟨.alwaysYes, input⟩ singleOverwrite =
      (true, ⟨.alwaysYes, input⟩) := by
  rw [braFsFileExistsAskOverwrite]
  split <;> rfl

end BrArchive
