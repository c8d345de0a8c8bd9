import BrArchive.IoFile
import BrArchive.Crc32c

/-! # Meta entries

The `bra_meta_entry_*` functions of `lib_bra.c`, and the parts of
`lib_bra_io_file_meta_entries.c` that read and write the fields of an entry.  An entry's
name is a C string: what `strdup` copies of the bytes read, up to their first NUL.
-/
namespace BrArchive

/-- `entry_data`, by the type it is allocated for. -/
inductive EntryData where
  | none
  | file (dataSize : Nat)
  | subdir (parentIndex : Nat)
  deriving DecidableEq, Repr

/-- `bra_meta_entry_t`.  The compression ratio is only printed and left out. -/
structure MetaEntry where
  attributes : UInt8
  nameSize : UInt8
  name : Bytes
  entryData : EntryData
  crc32 : BitVec 32
  deriving DecidableEq, Repr

/-- `bra_meta_entry_init` with the buffer `filename`. -/
def braMetaEntryInit (attr : UInt8) (filename : Bytes) (filenameSize : UInt8) : MetaEntry where
  attributes := attr
  nameSize := filenameSize
  name := cString filename
  entryData :=
    match braAttrType attr with
    | .file => .file 0
    | .subdir => .subdir 0
    | .dir => .none
    | .sym => .none
  crc32 := braCrc32cInit

/-- `bra_meta_entry_file_set`. -/
def braMetaEntryFileSet (me : MetaEntry) (dataSize : Nat) : Option MetaEntry :=
  if braAttrType me.attributes ≠ .file then none
  else some { me with entryData := .file dataSize }

/-- `bra_meta_entry_subdir_set`. -/
def braMetaEntrySubdirSet (me : MetaEntry) (parentIndex : Nat) : Option MetaEntry :=
  if braAttrType me.attributes ≠ .subdir then none
  else some { me with entryData := .subdir parentIndex }

/-- `((bra_meta_entry_file_t*) me->entry_data)->data_size`. -/
def MetaEntry.dataSize (me : MetaEntry) : Nat :=
  match me.entryData with
  | .file dataSize => dataSize
  | _ => 0

theorem MetaEntry.dataSize_withCrc (me : MetaEntry) (crc32 : BitVec 32) :
    ({ me with crc32 } : MetaEntry).dataSize = me.dataSize :=
  rfl

/-- `((bra_meta_entry_subdir_t*) me->entry_data)->parent_index`. -/
def MetaEntry.parentIndex (me : MetaEntry) : Nat :=
  match me.entryData with
  | .subdir parentIndex => parentIndex
  | _ => 0

/-- `bra_io_file_meta_entry_read_common_header`: attributes, size of the name, name. -/
def braIoFileMetaEntryReadCommonHeader (f : IoFile) : Option (MetaEntry × IoFile) := do
  let (attr, f) ← braIoFileRead f 1
  let (bufSize, f) ← braIoFileRead f 1
  if leValue bufSize = 0 then none
  else
    let (buf, f) ← braIoFileRead f (leValue bufSize)
    return (braMetaEntryInit (UInt8.ofNat (leValue attr)) buf (UInt8.ofNat (leValue bufSize)), f)

/-- `bra_io_file_meta_entry_write_common_header`. -/
def braIoFileMetaEntryWriteCommonHeader (f : IoFile) (me : MetaEntry) : IoFile :=
  let f := braIoFileWrite f [me.attributes]
  let f := braIoFileWrite f [me.nameSize]
  braIoFileWrite f ((me.name ++ [0]).take me.nameSize.toNat)

/-- `bra_io_file_meta_entry_read_file_entry`. -/
def braIoFileMetaEntryReadFileEntry (f : IoFile) (me : MetaEntry) :
    Option (MetaEntry × IoFile) := do
  let me ← braMetaEntryFileSet me 0
  let (dataSize, f) ← braIoFileRead f 8
  return ({ me with entryData := .file (leValue dataSize) }, f)

/-- `bra_io_file_meta_entry_write_file_entry`. -/
def braIoFileMetaEntryWriteFileEntry (f : IoFile) (me : MetaEntry) : Option IoFile :=
  if braAttrType me.attributes ≠ .file then none
  else some (braIoFileWrite f (leBytes 8 me.dataSize))

/-- `bra_io_file_meta_entry_read_subdir_entry`. -/
def braIoFileMetaEntryReadSubdirEntry (f : IoFile) (me : MetaEntry) :
    Option (MetaEntry × IoFile) :=
  if braAttrType me.attributes ≠ .subdir then none
  else do
    let me ← braMetaEntrySubdirSet me 0
    let (parentIndex, f) ← braIoFileRead f 4
    return ({ me with entryData := .subdir (leValue parentIndex) }, f)

/-- `bra_io_file_meta_entry_write_subdir_entry`. -/
def braIoFileMetaEntryWriteSubdirEntry (f : IoFile) (me : MetaEntry) : Option IoFile :=
  if braAttrType me.attributes ≠ .subdir then none
  else some (braIoFileWrite f (leBytes 4 me.parentIndex))

/-- `_bra_compute_header_crc32` over the first `filenameLen` bytes of the buffer
`filename`, its NUL included.  Reading past the buffer counts as a failure. -/
def braComputeHeaderCrc32 (filenameLen : Nat) (filename : Bytes) (me : MetaEntry) :
    Option MetaEntry :=
  if filenameLen > 65535 ∨ filenameLen = 0 then none
  else if filenameLen > filename.length then none
  else
    let crc32 := braCrc32c [me.attributes] braCrc32cInit
    let crc32 := braCrc32c (leBytes 2 filenameLen) crc32
    let crc32 := braCrc32c (filename.take filenameLen) crc32
    some { me with crc32 }

end BrArchive
