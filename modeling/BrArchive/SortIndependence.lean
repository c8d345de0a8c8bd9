import BrArchive.PackedRuns

/-! # Archives from different sorts

`qsort_r` and `qsort_s` may be any sorting algorithms, and what they do with equal rotations is
up to them.  The last column of the sorted rotations is the same all the same, and so is all
that is made of it: the sizes, whether a file is kept compressed, and every byte of a chunk but
those of the primary index.  That one can differ only where a chunk is a repetition.
-/
namespace BrArchive

/-! ## The transform -/

/-- A buffer that is not a repetition of a shorter one: its rotations are all different. -/
def Aperiodic (c : Bytes) : Prop := ∀ k, 0 < k → k < c.length → c.rotate k ≠ c

section Transform
variable (qsortR qsortR' : QsortR) (c : Bytes)

/-- **The last column** does not depend on the sort. -/
theorem bwtColumn_eq : (braBwtEncode2 qsortR c).1 = (braBwtEncode2 qsortR' c).1 := by
  have hperm : ((List.range c.length).map fun i => c.rotate (bwtRowStart qsortR c i)).Perm
      ((List.range c.length).map c.rotate) := by
    have h := (bwtRowStart_perm qsortR c).map c.rotate
    rwa [List.map_map] at h
  have hsorted : ((List.range c.length).map fun i => c.rotate (bwtRowStart qsortR c i)).Pairwise
      (· ≤ ·) := by
    rw [List.pairwise_map]
    refine List.pairwise_lt_range.imp_of_mem fun _ hj hij => ?_
    exact bwtRowStart_sorted qsortR c hij (List.mem_range.mp hj)
  rw [braBwtEncode2_of_sorted qsortR c hperm hsorted, braBwtEncode2_of_sorted qsortR' c hperm hsorted]

variable {qsortR qsortR' c}

theorem Aperiodic.rotate_inj (h : Aperiodic c) {a b : Nat} (ha : a < c.length) (hb : b < c.length)
    (hab : c.rotate a = c.rotate b) : a = b := by
  wlog hle : a ≤ b generalizing a b with hwlog
  · exact (hwlog hb ha hab.symm (Nat.le_of_not_le hle)).symm
  by_contra hne
  -- the later rotation is the earlier one, moved by what is between them
  have hmoved : c.rotate b = (c.rotate (b - a)).rotate a := by
    rw [List.rotate_rotate, Nat.sub_add_cancel hle]
  have hsame := List.rotate_injective a (hab.trans hmoved)
  exact h (b - a) (by omega) (by omega) hsame.symm

/-- If no two rotations are equal, there is only one way to sort them. -/
theorem Aperiodic.braBwtEncode2_eq (h : Aperiodic c) :
    braBwtEncode2 qsortR c = braBwtEncode2 qsortR' c := by
  have hsorted : ∀ q : QsortR, (q.sort (bwtSuffixContextCompare c) (List.range c.length)).Pairwise
      fun a b => bwtSuffixContextCompare c a b ≤ 0 := fun q => by
    refine q.sorted _ _ (fun a b => ?_) fun a b d => ?_
    · rw [bwtSuffixContextCompare_le_iff, bwtSuffixContextCompare_le_iff]
      exact le_total _ _
    · rw [bwtSuffixContextCompare_le_iff, bwtSuffixContextCompare_le_iff,
        bwtSuffixContextCompare_le_iff]
      exact le_trans
  have hmem : ∀ (q : QsortR) {a}, a ∈ q.sort (bwtSuffixContextCompare c) (List.range c.length) →
      a < c.length := fun q a ha => List.mem_range.mp ((q.perm _ _).mem_iff.mp ha)
  have hindex : qsortR.sort (bwtSuffixContextCompare c) (List.range c.length) =
      qsortR'.sort (bwtSuffixContextCompare c) (List.range c.length) := by
    refine List.Perm.eq_of_pairwise (fun a b ha hb hab hba => ?_) (hsorted qsortR) (hsorted qsortR')
      ((qsortR.perm _ _).trans (qsortR'.perm _ _).symm)
    rw [bwtSuffixContextCompare_le_iff] at hab hba
    exact h.rotate_inj (hmem qsortR ha) (hmem qsortR' hb) (le_antisymm hab hba)
  rw [braBwtEncode2, braBwtEncode2, hindex]

end Transform

/-! ## Chunks and files -/

section Chunks
variable (qsortR qsortR' : QsortR)

/-- **A chunk**: only the primary index may differ. -/
theorem compressData_sort (c : Bytes) :
    compressData qsortR c = (compressData qsortR' c).map fun e =>
      ({ e.1 with primaryIndex := (braBwtEncode2 qsortR c).2 }, e.2) := by
  have hcolumn := bwtColumn_eq qsortR qsortR' c
  rw [compressData, compressData]
  generalize braBwtEncode2 qsortR c = encoded at *
  generalize braBwtEncode2 qsortR' c = encoded' at *
  obtain ⟨column, primaryIndex⟩ := encoded
  obtain ⟨column', primaryIndex'⟩ := encoded'
  obtain rfl : column = column' := hcolumn
  dsimp only [Option.bind_eq_bind]
  cases hrle : braRleEncode (braMtfEncode2 column) with
  | none => rfl
  | some bufRle =>
    rw [Option.bind_some, Option.bind_some]
    cases hhuffman : braHuffmanEncode bufRle with
    | none => rfl
    | some bufHuffman => rfl

theorem chunkImage_length_sort (c : Bytes) :
    (chunkImage (encodedChunk qsortR c)).length = (chunkImage (encodedChunk qsortR' c)).length := by
  rw [encodedChunk, encodedChunk, compressData_sort qsortR qsortR' c]
  cases compressData qsortR' c with
  | none => rfl
  | some e => simp [chunkImage, ChunkHeader.diskImage]

theorem compressedData_length_sort (x : Bytes) :
    (compressedData qsortR x).length = (compressedData qsortR' x).length := by
  rw [compressedData, compressedData, List.length_flatMap, List.length_flatMap]
  exact congrArg List.sum (List.map_congr_left fun c _ => chunkImage_length_sort qsortR qsortR' c)

variable (compress : Bool) (path name : CStr) (contents : Bytes)

/-- Whether a file is kept compressed does not depend on the sort. -/
theorem keepsCompressed_sort :
    KeepsCompressed qsortR compress contents ↔ KeepsCompressed qsortR' compress contents := by
  rw [KeepsCompressed, KeepsCompressed, compressedData_length_sort qsortR qsortR']

theorem packedPayload_length_sort :
    (packedPayload qsortR compress contents).length =
      (packedPayload qsortR' compress contents).length := by
  have hkeeps := keepsCompressed_sort qsortR qsortR' compress contents
  rw [packedPayload, packedPayload]
  by_cases h : KeepsCompressed qsortR' compress contents
  · rw [if_pos h, if_pos (hkeeps.mpr h), compressedData_length_sort qsortR qsortR']
  · rw [if_neg h, if_neg (hkeeps.not.mpr h)]

theorem packedFile_length_sort :
    (packedFile qsortR compress path name contents).length =
      (packedFile qsortR' compress path name contents).length := by
  simp [packedFile, headerImage, packedPayload_length_sort qsortR qsortR']

/-- The record of a file whose chunks are no repetitions does not depend on the sort at all. -/
theorem packedFile_sort (h : compress = true → ∀ c ∈ fileChunks contents, Aperiodic c) :
    packedFile qsortR compress path name contents =
      packedFile qsortR' compress path name contents := by
  cases compress with
  | false =>
    rw [packedFile_of_stored fun hkeeps => Bool.false_ne_true hkeeps.1,
      packedFile_of_stored fun hkeeps => Bool.false_ne_true hkeeps.1]
  | true =>
  have h := h rfl
  have hchunk : ∀ c ∈ fileChunks contents, encodedChunk qsortR c = encodedChunk qsortR' c := by
    intro c hc
    rw [encodedChunk, encodedChunk, compressData, compressData,
      @Aperiodic.braBwtEncode2_eq qsortR qsortR' c (h c hc)]
  have hdata : compressedData qsortR contents = compressedData qsortR' contents :=
    List.flatMap_congr fun c hc => by rw [hchunk c hc]
  have hcrc : (fileChunks contents).map (crcChunk qsortR) =
      (fileChunks contents).map (crcChunk qsortR') :=
    List.map_congr_left fun c hc => by rw [crcChunk, crcChunk, hchunk c hc]
  have hkeeps : ∀ q : QsortR, KeepsCompressed q true contents ↔
      true = true ∧ (compressedData q contents).length < contents.length := fun _ => Iff.rfl
  simp only [packedFile, packedPayload, packedCrc, packedAttributes, hkeeps, hdata, hcrc]

end Chunks

/-! ## Archives -/

section Archives
variable (qsortR qsortR' : QsortR) (compress : Bool)

theorem entryImage_length_sort (l : List PlanEntry) (e : PlanEntry) :
    (entryImage qsortR compress l e).length = (entryImage qsortR' compress l e).length := by
  cases e with
  | dir parent name => rfl
  | file parent name contents => exact packedFile_length_sort qsortR qsortR' compress _ name contents

theorem entriesImage_length_sort (l r : List PlanEntry) :
    (entriesImage qsortR compress l r).length = (entriesImage qsortR' compress l r).length := by
  induction r generalizing l with
  | nil => rfl
  | cons e r ih =>
    rw [entriesImage, entriesImage, List.length_append, List.length_append, ih,
      entryImage_length_sort qsortR qsortR']

/-- The entries whose chunks are no repetitions. -/
def NoRepetitions (l : List PlanEntry) : Prop :=
  ∀ parent name contents, .file parent name contents ∈ l → ∀ c ∈ fileChunks contents, Aperiodic c

theorem entriesImage_sort {l r : List PlanEntry} (h : compress = true → NoRepetitions r) :
    entriesImage qsortR compress l r = entriesImage qsortR' compress l r := by
  induction r generalizing l with
  | nil => rfl
  | cons e r ih =>
    have hfirst : entryImage qsortR compress l e = entryImage qsortR' compress l e := by
      cases e with
      | dir parent name => rfl
      | file parent name contents =>
        exact packedFile_sort qsortR qsortR' compress _ name contents fun hcompress =>
          h hcompress parent name contents List.mem_cons_self
    have hrest : compress = true → NoRepetitions r := fun hcompress parent name contents hmem =>
      h hcompress parent name contents (List.mem_cons_of_mem _ hmem)
    rw [entriesImage, entriesImage, hfirst, ih hrest]

/-- **Archives of different machines**: packed from disks that show the same, with different
sorts, two archives have the same size, and keep the same files compressed; and they are equal
unless some chunk of a file is a repetition. -/
theorem archive_sortIndependent {σ σ' : Type} {fs : FileSystem σ} {view : σ → DiskView} {s : σ}
    {fs' : FileSystem σ'} {view' : σ' → DiskView} {s' : σ'} (plan : EntryPlan)
    (hfs : fs.Works (Planned plan.entries) view) (hfs' : fs'.Works (Planned plan.entries) view')
    (hsrc : ∀ e ∈ plan.entries, view s e.fn = some e.node)
    (hsrc' : ∀ e ∈ plan.entries, view' s' e.fn = some e.node) :
    ∃ archive archive', writeArchive fs qsortR s plan.entries.length
        (plan.entries.map PlanEntry.fn) compress = some archive ∧
      writeArchive fs' qsortR' s' plan.entries.length (plan.entries.map PlanEntry.fn) compress =
        some archive' ∧
      archive.length = archive'.length ∧
      (∀ contents, KeepsCompressed qsortR compress contents ↔
        KeepsCompressed qsortR' compress contents) ∧
      ((compress = true → NoRepetitions plan.entries) → archive = archive') := by
  refine ⟨_, _, writeArchive_eq hfs qsortR compress plan hsrc,
    writeArchive_eq hfs' qsortR' compress plan hsrc', ?_,
    keepsCompressed_sort qsortR qsortR' compress, fun h => ?_⟩
  · rw [archiveImage, archiveImage, List.length_append, entriesImage_length_sort qsortR qsortR',
      ← List.length_append]
  · rw [archiveImage, archiveImage, entriesImage_sort qsortR qsortR' compress h]

end Archives

/-- A sort that leaves equal elements in the opposite order. -/
def QsortR.reversed : QsortR where
  sort compare l := QsortR.mergeSort.sort compare l.reverse
  perm compare l := (QsortR.mergeSort.perm compare l.reverse).trans l.reverse_perm
  sorted compare l := QsortR.mergeSort.sorted compare l.reverse

theorem archive_sortIndependent_letters :
    ∃ archive archive', writeArchive FileSystem.inMemory QsortR.mergeSort
        (planView lettersPlan.entries) lettersPlan.entries.length
        (lettersPlan.entries.map PlanEntry.fn) true = some archive ∧
      writeArchive FileSystem.inMemory QsortR.reversed (planView lettersPlan.entries)
        lettersPlan.entries.length (lettersPlan.entries.map PlanEntry.fn) true = some archive' ∧
      archive.length = archive'.length := by
  obtain ⟨archive, archive', hwrite, hwrite', hlength, -⟩ := archive_sortIndependent
    QsortR.mergeSort QsortR.reversed true lettersPlan (FileSystem.inMemory_works _)
    (FileSystem.inMemory_works _) letters_source letters_source
  exact ⟨archive, archive', hwrite, hwrite', hlength⟩

end BrArchive
