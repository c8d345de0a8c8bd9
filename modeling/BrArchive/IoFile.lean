import BrArchive.Defs

/-! # Files

`lib_bra_io_file.c`: a file is its contents and a position.  Reading fails at the end
of the file, writing and seeking forward succeed; a function that fails closes the file,
which is modelled by returning nothing.
-/
namespace BrArchive

/-- An open `bra_io_file_t`. -/
structure IoFile where
  data : Bytes
  pos : Nat
  deriving DecidableEq, Repr

/-- `bra_io_file_read` of `bufSize` bytes. -/
def braIoFileRead (src : IoFile) (bufSize : Nat) : Option (Bytes × IoFile) :=
  if src.pos + bufSize ≤ src.data.length then
    some ((src.data.drop src.pos).take bufSize, { src with pos := src.pos + bufSize })
  else none

/-- `bra_io_file_write`: bytes at the position are overwritten, a gap is filled with zeros. -/
def braIoFileWrite (dst : IoFile) (buf : Bytes) : IoFile where
  data := dst.data.take dst.pos ++ List.replicate (dst.pos - dst.data.length) 0 ++ buf ++
    dst.data.drop (dst.pos + buf.length)
  pos := dst.pos + buf.length

/-- `bra_io_file_tell`. -/
def braIoFileTell (f : IoFile) : Nat := f.pos

/-- `bra_io_file_seek` with `SEEK_SET` and an offset that is not negative. -/
def braIoFileSeekSet (f : IoFile) (offs : Nat) : IoFile := { f with pos := offs }

/-- The conversion of a `uint64_t` to `int64_t`. -/
def toInt64 (n : Nat) : Int :=
  if n % 2 ^ 64 < 2 ^ 63 then (n % 2 ^ 64 : Nat) else ((n % 2 ^ 64 : Nat) : Int) - 2 ^ 64

/-- `bra_io_file_skip_data`: a seek from the current position, which fails if the new
position is negative or no `off_t`. -/
def braIoFileSkipData (f : IoFile) (dataSize : Nat) : Option IoFile :=
  let pos : Int := f.pos + toInt64 dataSize
  if 0 ≤ pos ∧ pos < 2 ^ 63 then some { f with pos := pos.toNat } else none

/-! ## A file cut at its position -/

/-- The file that holds `pre` before its position and `post` after it. -/
def ioAt (pre post : Bytes) : IoFile := ⟨pre ++ post, pre.length⟩

@[simp] theorem ioAt_pos (pre post : Bytes) : (ioAt pre post).pos = pre.length := rfl

@[simp] theorem ioAt_data (pre post : Bytes) : (ioAt pre post).data = pre ++ post := rfl

/-- Any file whose position is inside it can be cut there. -/
theorem IoFile.eq_ioAt {f : IoFile} (h : f.pos ≤ f.data.length) :
    f = ioAt (f.data.take f.pos) (f.data.drop f.pos) := by
  cases f with
  | mk data pos => simp only [ioAt, List.take_append_drop, List.length_take_of_le h]

theorem ioAt_inj {pre pre' post post' : Bytes} (h : ioAt pre post = ioAt pre' post') :
    pre = pre' ∧ post = post' :=
  List.append_inj (congrArg IoFile.data h) (congrArg IoFile.pos h)

/-- Reading moves the cut behind the bytes read. -/
theorem braIoFileRead_ioAt (pre buf post : Bytes) {n : Nat} (hn : buf.length = n) :
    braIoFileRead (ioAt pre (buf ++ post)) n = some (buf, ioAt (pre ++ buf) post) := by
  subst hn
  rw [braIoFileRead, if_pos (by simp only [ioAt_pos, ioAt_data, List.length_append]; omega),
    ioAt_data, ioAt_pos, List.drop_left, List.take_left]
  simp [ioAt]

/-! ## Writing -/

/-- What is in front of the position when something is written there: a gap is filled. -/
def IoFile.before (f : IoFile) : Bytes :=
  f.data.take f.pos ++ List.replicate (f.pos - f.data.length) 0

theorem IoFile.before_length (f : IoFile) : f.before.length = f.pos := by
  rw [before, List.length_append, List.length_take, List.length_replicate]
  omega

/-- Writing cuts the file behind the bytes written. -/
theorem braIoFileWrite_eq (f : IoFile) (buf : Bytes) :
    braIoFileWrite f buf = ioAt (f.before ++ buf) (f.data.drop (f.pos + buf.length)) := by
  rw [ioAt, List.length_append, f.before_length]
  rfl

theorem braIoFileWrite_ioAt (pre post buf : Bytes) :
    braIoFileWrite (ioAt pre post) buf = ioAt (pre ++ buf) (post.drop buf.length) := by
  have hbefore : (ioAt pre post).before = pre := by simp [IoFile.before]
  rw [braIoFileWrite_eq, hbefore, ioAt_data, ioAt_pos, ← List.drop_drop, List.drop_left]

/-- Writing at the end of a file appends. -/
theorem braIoFileWrite_ioAt_nil (pre buf : Bytes) :
    braIoFileWrite (ioAt pre []) buf = ioAt (pre ++ buf) [] := by
  rw [braIoFileWrite_ioAt, List.drop_nil]

theorem braIoFileWrite_nil {f : IoFile} (h : f.pos ≤ f.data.length) :
    braIoFileWrite f [] = f := by
  rw [f.eq_ioAt h, braIoFileWrite_ioAt, List.append_nil, List.length_nil, List.drop_zero]

/-- Two writes one after the other are one. -/
theorem braIoFileWrite_append (f : IoFile) (buf buf' : Bytes) :
    braIoFileWrite (braIoFileWrite f buf) buf' = braIoFileWrite f (buf ++ buf') := by
  rw [braIoFileWrite_eq f buf, braIoFileWrite_ioAt, braIoFileWrite_eq, List.drop_drop,
    List.append_assoc, List.length_append, Nat.add_assoc]

/-- Writing again where the last write began undoes that write, if it was not longer. -/
theorem braIoFileWrite_seek (f : IoFile) {buf buf' : Bytes} (h : buf.length ≤ buf'.length) :
    braIoFileWrite (braIoFileSeekSet (braIoFileWrite f buf) f.pos) buf' =
      braIoFileWrite f buf' := by
  have hseek : braIoFileSeekSet (braIoFileWrite f buf) f.pos =
      ioAt f.before (buf ++ f.data.drop (f.pos + buf.length)) := by
    rw [braIoFileWrite_eq, braIoFileSeekSet, ← f.before_length, ioAt, ioAt, List.append_assoc]
  have hdrop : (buf ++ f.data.drop (f.pos + buf.length)).drop buf'.length =
      f.data.drop (f.pos + buf'.length) := by
    rw [List.drop_append, List.drop_eq_nil_of_le h, List.nil_append, List.drop_drop]
    congr 1
    omega
  rw [hseek, braIoFileWrite_ioAt, hdrop, braIoFileWrite_eq]

theorem pos_le_braIoFileWrite (f : IoFile) (buf : Bytes) :
    (braIoFileWrite f buf).pos ≤ (braIoFileWrite f buf).data.length := by
  rw [braIoFileWrite_eq, ioAt_pos, ioAt_data]
  exact (List.prefix_append _ _).length_le

/-! ## Reading and skipping -/

/-- What a successful read says. -/
theorem braIoFileRead_eq_some {src src' : IoFile} {n : Nat} {buf : Bytes}
    (h : braIoFileRead src n = some (buf, src')) :
    buf.length = n ∧ src' = { src with pos := src.pos + n } ∧ src.pos + n ≤ src.data.length ∧
      buf = (src.data.drop src.pos).take n := by
  rw [braIoFileRead] at h
  split at h
  · rename_i hle
    obtain ⟨rfl, rfl⟩ := Prod.mk.inj (Option.some.inj h)
    refine ⟨?_, rfl, hle, rfl⟩
    rw [List.length_take, List.length_drop]
    omega
  · cases h

/-- Bytes that could be read stand behind the cut. -/
theorem braIoFileRead_split {src src' : IoFile} {n : Nat} {buf : Bytes}
    (h : braIoFileRead src n = some (buf, src')) :
    buf.length = n ∧ ∃ pre post, src = ioAt pre (buf ++ post) ∧ src' = ioAt (pre ++ buf) post := by
  obtain ⟨hlen, rfl, hle, hbuf⟩ := braIoFileRead_eq_some h
  refine ⟨hlen, src.data.take src.pos, src.data.drop (src.pos + n), ?_, ?_⟩
  · have hdrop : buf ++ src.data.drop (src.pos + n) = src.data.drop src.pos := by
      rw [hbuf, ← List.drop_drop, List.take_append_drop]
    rw [hdrop]
    exact src.eq_ioAt (by omega)
  · have hpos : (src.data.take src.pos ++ buf).length = src.pos + n := by
      rw [List.length_append, List.length_take_of_le (by omega), hlen]
    have htake : src.data.take src.pos ++ buf = src.data.take (src.pos + n) := by
      rw [hbuf, ← List.take_add]
    rw [ioAt, hpos, htake, List.take_append_drop]

/-- Skipping what is in the file moves the position. -/
theorem braIoFileSkipData_of_lt {f : IoFile} {n : Nat} (h : f.pos + n < 2 ^ 63) :
    braIoFileSkipData f n = some { f with pos := f.pos + n } := by
  have hint : toInt64 n = n := by
    rw [toInt64, Nat.mod_eq_of_lt (by omega), if_pos (by omega)]
  have hpos : ((f.pos : Int) + n).toNat = f.pos + n := by omega
  simp only [braIoFileSkipData, hint, hpos]
  rw [if_pos (by omega)]

end BrArchive
