import BrArchive.PackedRuns

/-! # What unpacking a packed archive does

The programs that list, test and extract, on archives that `bra` has packed, plain or
self-extracting ones.
-/
namespace BrArchive

/-! ## On the disk -/

section Model
variable {ok : PlanEntry → Prop} [DecidablePred ok] {src view view' : DiskView}
  {l : List PlanEntry} {e : PlanEntry} {user user' : User}

/-- **Extraction, path by path**: only the paths of the entries change, and each has what its
entry has then, unless there was a file already. -/
theorem extractPlan_places (hsrc : ∀ e ∈ l, src e.fn = some e.node)
    (h : extractPlan ok l user view = some (user', view')) :
    (∀ p ∉ l.map PlanEntry.fn, view' p = view p) ∧
      ∀ p ∈ l.map PlanEntry.fn,
        view' p = src p ∨ (view' p = view p ∧ ∃ old, view p = some (.file old)) := by
  induction l generalizing user view with
  | nil =>
    obtain ⟨-, rfl⟩ := Prod.mk.inj (Option.some.inj h)
    exact ⟨fun _ _ => rfl, fun _ hp => absurd hp List.not_mem_nil⟩
  | cons e l ih =>
    obtain ⟨⟨user₁, view₁⟩, hstep, hrun⟩ := Option.bind_eq_some_iff.mp h
    dsimp only at hrun
    obtain ⟨hother, hplace⟩ := ih (fun e' he' => hsrc e' (List.mem_cons_of_mem _ he')) hrun
    have he := hsrc e List.mem_cons_self
    -- what the first entry does to a path
    have hfirst : ∀ p, view₁ p = view p ∧ (p = e.fn → ∃ old, view p = some (.file old)) ∨
        p = e.fn ∧ view₁ p = src p := by
      intro p
      rcases extractEntry_view hstep with rfl | ⟨rfl, contents, old, -, hold⟩
      · by_cases hp : p = e.fn
        · subst hp
          exact .inr ⟨rfl, by rw [Function.update_self, he]⟩
        · exact .inl ⟨Function.update_of_ne hp _ _, fun h => absurd h hp⟩
      · exact .inl ⟨rfl, fun hp => ⟨old, hp ▸ hold⟩⟩
    refine ⟨fun p hp => ?_, fun p hp => ?_⟩
    · rw [List.map_cons, List.mem_cons, not_or] at hp
      rcases hfirst p with ⟨hview, -⟩ | ⟨heq, -⟩
      · rw [hother p hp.2, hview]
      · exact absurd heq hp.1
    · by_cases hl : p ∈ l.map PlanEntry.fn
      · rcases hplace p hl with hview | ⟨hview, old, hold⟩
        · exact .inl hview
        · rcases hfirst p with ⟨hview₁, -⟩ | ⟨-, hview₁⟩
          · exact .inr ⟨hview.trans hview₁, old, hview₁ ▸ hold⟩
          · exact .inl (hview.trans hview₁)
      · have hpe : p = e.fn := by
          rw [List.map_cons, List.mem_cons] at hp
          exact hp.resolve_right hl
        rcases hfirst p with ⟨hview₁, hold⟩ | ⟨-, hview₁⟩
        · exact .inr ⟨(hother p hl).trans hview₁, hold hpe⟩
        · exact .inl ((hother p hl).trans hview₁)

/-- Without a question, all the entries are written, up to the first that cannot be got back. -/
theorem extractPlan_alwaysYes (hdir : ∀ e, e.node = .dir → ok e)
    (hsrc : ∀ e ∈ l, src e.fn = some e.node) (input : Bytes) (view : DiskView) :
    extractPlan ok l ⟨.alwaysYes, input⟩ view =
      if ∀ e ∈ l, ok e then
        some (⟨.alwaysYes, input⟩, fun p => if p ∈ l.map PlanEntry.fn then src p else view p)
      else none := by
  have hask : ∀ node, askOver node ⟨.alwaysYes, input⟩ = (true, ⟨.alwaysYes, input⟩) := by
    intro node
    cases node with
    | none => rfl
    | some node => cases node <;> rfl
  induction l generalizing view with
  | nil => simp [extractPlan]
  | cons e l ih =>
    have he := hsrc e List.mem_cons_self
    have hl := fun e' he' => hsrc e' (List.mem_cons_of_mem e he')
    have hstep : extractEntry ok e ⟨.alwaysYes, input⟩ view =
        if ok e then some (⟨.alwaysYes, input⟩, Function.update view e.fn (src e.fn))
        else none := by
      rw [he]
      cases e with
      | dir parent name => exact (if_pos (hdir _ rfl)).symm
      | file parent name contents =>
        rw [extractEntry_file, hask, if_pos rfl]
        rfl
    rw [extractPlan, hstep]
    by_cases hok : ok e
    · rw [if_pos hok, Option.bind_some, ih hl]
      have hview : (fun p => if p ∈ l.map PlanEntry.fn then src p
            else Function.update view e.fn (src e.fn) p) =
          fun p => if p ∈ (e :: l).map PlanEntry.fn then src p else view p := by
        funext p
        by_cases hp : p = e.fn
        · subst hp
          simp
        · simp [hp]
      simp only [List.forall_mem_cons, hok, true_and, hview]
    · rw [if_neg hok, if_neg fun h => hok (h e List.mem_cons_self)]
      rfl

/-- If everything can be got back, extraction succeeds, whatever the answers are. -/
theorem extractPlan_isSome (hok : ∀ e ∈ l, ok e) (user : User) (view : DiskView) :
    (extractPlan ok l user view).isSome := by
  induction l generalizing user view with
  | nil => rfl
  | cons e l ih =>
    have hstep : (extractEntry ok e user view).isSome := by
      cases e with
      | dir parent name => rfl
      | file parent name contents =>
        rw [extractEntry_file, if_pos (hok _ List.mem_cons_self)]
        split <;> rfl
    obtain ⟨r, hr⟩ := Option.isSome_iff_exists.mp hstep
    rw [extractPlan, hr]
    exact ih (fun e' he' => hok e' (List.mem_cons_of_mem _ he')) r.1 r.2

end Model

/-! ## By the programs -/

/-- **What the programs do with a file**: extracting means what `extractPlan` says of the
entries `l`, listing gets through if they can all be got back, and testing finds out whether they
can.  All stop at `stop`. -/
structure Unpacks {τ : Type} (fs : FileSystem τ) (view : τ → DiskView) (ok : PlanEntry → Prop)
    [DecidablePred ok] (l : List PlanEntry) (sfx : Bool) (data : Bytes) (stop : IoFile) : Prop where
  extract : ∀ user t, NoClash l (view t) →
    (unbraRunProg fs sfx false false ⟨data, 0⟩ user t).map (fun r => (r.1.f, r.2.1, view r.2.2)) =
      (extractPlan ok l user (view t)).map fun r => (stop, r.1, r.2)
  pass : (∀ e ∈ l, ok e) → ∀ {listContent testContent : Bool},
    (listContent || testContent) = true → ∀ user t,
      ∃ ctx, unbraRunProg fs sfx listContent testContent ⟨data, 0⟩ user t = some (ctx, user, t) ∧
        ctx.f = stop
  test : ∀ user t, (unbraRunProg fs sfx false true ⟨data, 0⟩ user t).isSome ↔ ∀ e ∈ l, ok e

section Programs
variable {σ τ : Type} {fs : FileSystem σ} {view : σ → DiskView} {fs' : FileSystem τ}
  {view' : τ → DiskView} {s : σ}

/-- A reader that opens the file and passes over the entries. -/
theorem PassesOver.unpacks {ok : PlanEntry → Prop} [DecidablePred ok] {l : List PlanEntry}
    {sfx : Bool} {data : Bytes} {opened ctx' : IoFileCtx}
    (hopen : unbraOpen sfx ⟨data, 0⟩ = some opened) (hnum : opened.numFiles = l.length)
    (hsize : opened.f.data.length < 2 ^ 63) (h : PassesOver fs' view' ok l [] l opened ctx') :
    Unpacks fs' view' ok l sfx data ctx'.f where
  extract user t hclash := by
    have hextract := h.extract hsize user t ⟨hclash, fun d hd => absurd hd List.not_mem_nil⟩
    have hrun : unbraRunProg fs' sfx false false ⟨data, 0⟩ user t =
        decodeEntries fs' l.length opened user t := by
      rw [unbraRunProg, hopen, ← hnum]
      rfl
    have hmap := congrArg (Option.map fun r : IoFileCtx × User × DiskView => (r.1.f, r.2)) hextract
    rw [Option.map_map, Option.map_map] at hmap
    rw [hrun]
    exact hmap
  pass hok _ _ hpass user t := by
    refine ⟨ctx', ?_, rfl⟩
    rw [unbraRunProg, hopen, Option.bind_eq_bind, Option.bind_some, if_pos hpass, hnum,
      h.print hok]
    rfl
  test user t := by
    have hrun : unbraRunProg fs' sfx false true ⟨data, 0⟩ user t =
        (printEntries true l.length opened).map fun ctx => (ctx, user, t) := by
      rw [unbraRunProg, hopen, ← hnum, Option.map_eq_bind]
      rfl
    rw [hrun, Option.isSome_map]
    by_cases hok : ∀ e ∈ l, ok e
    · exact ⟨fun _ => hok, fun _ => by rw [h.print hok]; rfl⟩
    · refine ⟨fun hsome => ?_, fun hall => absurd hall hok⟩
      rw [h.test (by simpa using hok)] at hsome
      cases hsome

/-- **Unpacking an archive**: what the programs do with the archive of a plan is what they
should. -/
theorem archiveImage_unpacks (qsortR : QsortR) (compress : Bool) (plan : EntryPlan)
    (hfs' : fs'.Works (Planned plan.entries) view')
    (hfinds : fs'.FindsFiles (Planned plan.entries) view') {src : DiskView}
    (hsrc : ∀ e ∈ plan.entries, src e.fn = some e.node)
    (hsize : (archiveImage qsortR compress plan.entries).length < 2 ^ 63) :
    Unpacks fs' view' (PlanEntry.CanBeRecovered qsortR compress) plan.entries false
      (archiveImage qsortR compress plan.entries)
      (ioAt (archiveImage qsortR compress plan.entries) []) := by
  obtain ⟨w, -, hpacks⟩ := packedArchive_packs qsortR compress plan hsrc
  have hpasses := hpacks.reads hfs' hfinds { braIoFileCtxOpen (ioAt (leBytes 4 braMagic ++
    leBytes 4 plan.entries.length) (entriesImage qsortR compress [] plan.entries)) with
      numFiles := plan.entries.length } _ []
    (by rw [List.append_nil]; rfl) rfl rfl
  have hopen : unbraOpen false ⟨archiveImage qsortR compress plan.entries, 0⟩ = some _ :=
    braIoFileCtxReadHeader_eq plan.length_lt _
  exact hpasses.unpacks hopen rfl hsize

/-- **Unpacking a self-extracting archive**: behind a program, with a footer behind them, the
same bytes mean the same. -/
theorem sfxArchiveImage_unpacks (qsortR : QsortR) (compress : Bool) (plan : EntryPlan)
    (hfs' : fs'.Works (Planned plan.entries) view')
    (hfinds : fs'.FindsFiles (Planned plan.entries) view') {src : DiskView}
    (hsrc : ∀ e ∈ plan.entries, src e.fn = some e.node) {program : Bytes} (hprogram : program ≠ [])
    (hpayload : entriesImage qsortR compress [] plan.entries ≠ [])
    (hsize : (sfxArchiveImage qsortR compress program plan.entries).length < 2 ^ 63) :
    Unpacks fs' view' (PlanEntry.CanBeRecovered qsortR compress) plan.entries true
      (sfxArchiveImage qsortR compress program plan.entries)
      (ioAt (program ++ archiveImage qsortR compress plan.entries)
        (leBytes 4 braFooterMagic ++ leBytes 8 program.length)) := by
  obtain ⟨w, -, hpacks⟩ := packedArchive_packs qsortR compress plan hsrc
  let image : SfxImage := ⟨program, plan.entries.length, _, hprogram, plan.length_lt, hpayload⟩
  have hbytes : sfxArchiveImage qsortR compress program plan.entries = image.bytes := by
    rw [SfxImage.bytes, List.append_assoc image.program]
    rfl
  have hdata : image.bytes = image.program ++ image.header ++ (image.payload ++ image.footer) :=
    List.append_assoc _ _ _
  rw [hbytes] at hsize ⊢
  have hpasses := hpacks.reads hfs' hfinds (({ braIoFileCtxOpen ⟨[], 0⟩ with
      numFiles := image.numFiles } : IoFileCtx).attach
    (ioAt (image.program ++ image.header) (image.payload ++ image.footer))) _ image.footer rfl rfl rfl
  rw [archiveImage, ← List.append_assoc]
  exact hpasses.unpacks (unbraOpen_sfx image hsize) rfl
    (lt_of_eq_of_lt (congrArg List.length hdata).symm hsize)

/-- **What is packed can be unpacked**, as an archive and as a self-extracting one, by any of the
programs: listing and testing go through all the entries, and extracting does to any disk, with
any answers, what the entries say, up to the first file that cannot be got back. -/
theorem packed_refines (qsortR : QsortR) (compress : Bool) (plan : EntryPlan)
    (hfs : fs.Works (Planned plan.entries) view) (hfs' : fs'.Works (Planned plan.entries) view')
    (hfinds : fs'.FindsFiles (Planned plan.entries) view')
    (hsrc : ∀ e ∈ plan.entries, view s e.fn = some e.node) :
    (∃ archive, writeArchive fs qsortR s plan.entries.length (plan.entries.map PlanEntry.fn)
        compress = some archive ∧
      (archive.length < 2 ^ 63 → Unpacks fs' view' (PlanEntry.CanBeRecovered qsortR compress)
        plan.entries false archive (ioAt archive []))) ∧
    ∀ sfxModule : Bytes, sizeofFooter < sfxModule.length → plan.entries ≠ [] →
      ∃ data, writeSfxArchive fs qsortR s sfxModule plan.entries.length
          (plan.entries.map PlanEntry.fn) compress = some data ∧
        (data.length < 2 ^ 63 → ∃ archive footer, data = archive ++ footer ∧
          footer.length = sizeofFooter ∧
          Unpacks fs' view' (PlanEntry.CanBeRecovered qsortR compress) plan.entries true data
            (ioAt archive footer)) := by
  refine ⟨⟨_, writeArchive_eq hfs qsortR compress plan hsrc,
    archiveImage_unpacks qsortR compress plan hfs' hfinds hsrc⟩, fun sfxModule hmodule hne => ?_⟩
  obtain ⟨hpayload, hwrite⟩ := writeSfxArchive_image hfs qsortR compress plan hsrc hne hmodule
  have hprogram : sfxModule.take (sfxModule.length - sizeofFooter) ≠ [] := by
    refine List.ne_nil_of_length_pos ?_
    rw [List.length_take]
    omega
  refine ⟨_, hwrite, fun hsize => ⟨_, _, rfl, ?_, sfxArchiveImage_unpacks qsortR compress
    plan hfs' hfinds hsrc hprogram hpayload hsize⟩⟩
  rw [List.length_append, leBytes_length, leBytes_length, sizeofFooter]

theorem packed_refines_letters :
    (∃ archive, writeArchive FileSystem.inMemory QsortR.mergeSort (planView lettersPlan.entries) 4
        (lettersPlan.entries.map PlanEntry.fn) true = some archive ∧
      (archive.length < 2 ^ 63 → Unpacks FileSystem.inMemory id
        (PlanEntry.CanBeRecovered QsortR.mergeSort true) lettersPlan.entries false archive
          (ioAt archive []))) ∧
      ∃ data, writeSfxArchive FileSystem.inMemory QsortR.mergeSort
          (planView lettersPlan.entries) (77 :: List.replicate 12 0) 4
          (lettersPlan.entries.map PlanEntry.fn) true = some data := by
  obtain ⟨hplain, hsfx⟩ := packed_refines QsortR.mergeSort true lettersPlan
    (FileSystem.inMemory_works _) (FileSystem.inMemory_works _)
    (FileSystem.inMemory_findsFiles _) letters_source
  obtain ⟨data, hdata, -⟩ := hsfx (77 :: List.replicate 12 0) (by decide) (by decide)
  exact ⟨hplain, data, hdata⟩

/-! ## The disk afterwards -/

theorem canBeRecovered_of_dir {qsortR : QsortR} {compress : Bool} {e : PlanEntry}
    (h : e.node = .dir) : e.CanBeRecovered qsortR compress := by
  cases e with
  | dir parent name => trivial
  | file parent name contents => cases h

/-- Without compression, and with it if no file is too large, everything can be got back. -/
theorem canBeRecovered_of_small {qsortR : QsortR} {compress : Bool} {e : PlanEntry}
    (h : compress = true → e.dataSize + (e.dataSize + 127) / 128 ≤ braMaxChunkSize) :
    e.CanBeRecovered qsortR compress := by
  cases e with
  | dir parent name => trivial
  | file parent name contents =>
    cases compress with
    | false => exact recoverable_of_stored fun hkeeps => Bool.false_ne_true hkeeps.1
    | true => exact recoverable_of_length (h rfl)

section Packed
variable {qsortR : QsortR} {compress : Bool} {plan : EntryPlan} {data : Bytes}
  (hfs : fs.Works (Planned plan.entries) view) (hfs' : fs'.Works (Planned plan.entries) view')
  (hfinds : fs'.FindsFiles (Planned plan.entries) view')
  (hsrc : ∀ e ∈ plan.entries, view s e.fn = some e.node)
  (hwrite : writeArchive fs qsortR s plan.entries.length (plan.entries.map PlanEntry.fn)
    compress = some data) (hsize : data.length < 2 ^ 63)
include hfs hfs' hfinds hsrc hwrite hsize

theorem unpacks_of_write : Unpacks fs' view' (PlanEntry.CanBeRecovered qsortR compress)
    plan.entries false data (ioAt data []) := by
  obtain rfl := Option.some.inj ((writeArchive_eq hfs qsortR compress plan hsrc).symm.trans hwrite)
  exact archiveImage_unpacks qsortR compress plan hfs' hfinds hsrc hsize

omit hfs hfs' hfinds hwrite hsize in
/-- In an empty directory there is what was packed, if everything can be got back. -/
theorem Unpacks.emptyDisk {ok : PlanEntry → Prop} [DecidablePred ok] {sfx : Bool} {stop : IoFile}
    (hunpacks : Unpacks fs' view' ok plan.entries sfx data stop) (hok : ∀ e ∈ plan.entries, ok e)
    {t : τ} (hempty : ∀ p, view' t p = none) (user : User) :
    ∃ ctx user' t', unbraRunProg fs' sfx false false ⟨data, 0⟩ user t = some (ctx, user', t') ∧
      ctx.f = stop ∧ view' t' = planView plan.entries := by
  have hclash : NoClash plan.entries (view' t) := fun e _ node hnode => by
    rw [hempty] at hnode
    cases hnode
  have hextract := hunpacks.extract user t hclash
  obtain ⟨⟨user₁, v⟩, hmodel⟩ := Option.isSome_iff_exists.mp (extractPlan_isSome hok user (view' t))
  rw [hmodel, Option.map_some, Option.map_eq_some_iff] at hextract
  obtain ⟨⟨ctx, user', t'⟩, hrun, heq⟩ := hextract
  simp only [Prod.mk.injEq] at heq
  obtain ⟨hstop, -, rfl⟩ := heq
  refine ⟨ctx, user', t', hrun, hstop, funext fun p => ?_⟩
  obtain ⟨hother, hplace⟩ := extractPlan_places hsrc hmodel
  rw [planView_eq hsrc]
  split
  · rename_i hp
    rcases hplace p hp with hview | ⟨-, old, hold⟩
    · exact hview
    · rw [hempty] at hold
      cases hold
  · rename_i hp
    rw [hother p hp, hempty]

/-- **What is on the disk**: told to overwrite everything, `unbra` extracts an archive if and
only if all its files can be got back, and then the disk is what it was, with what was packed over
it. -/
theorem packedArchive_overwrites (input : Bytes) {t : τ} (hclash : NoClash plan.entries (view' t)) :
    (unbraRunProg fs' false false false ⟨data, 0⟩ ⟨.alwaysYes, input⟩ t).map
        (fun r => view' r.2.2) =
      if ∀ e ∈ plan.entries, e.CanBeRecovered qsortR compress then
        some fun p => if p ∈ plan.entries.map PlanEntry.fn then view s p else view' t p
      else none := by
  have hextract := (unpacks_of_write hfs hfs' hfinds hsrc hwrite hsize).extract
    ⟨.alwaysYes, input⟩ t hclash
  have hview := congrArg (Option.map fun r : IoFile × User × DiskView => r.2.2) hextract
  rw [Option.map_map, Option.map_map,
    extractPlan_alwaysYes (fun _ => canBeRecovered_of_dir) hsrc] at hview
  refine hview.trans ?_
  split <;> rfl

/-- **Whoever is asked**: only the paths of the entries change, and each has what was packed then,
or it is a file that was there and has been kept. -/
theorem packedArchive_places {user user' : User} {t t' : τ} {ctx : IoFileCtx}
    (hclash : NoClash plan.entries (view' t))
    (hrun : unbraRunProg fs' false false false ⟨data, 0⟩ user t = some (ctx, user', t')) :
    (∀ p ∉ plan.entries.map PlanEntry.fn, view' t' p = view' t p) ∧
      ∀ p ∈ plan.entries.map PlanEntry.fn, view' t' p = view s p ∨
        (view' t' p = view' t p ∧ ∃ old, view' t p = some (.file old)) := by
  have hextract := (unpacks_of_write hfs hfs' hfinds hsrc hwrite hsize).extract user t hclash
  rw [hrun, Option.map_some] at hextract
  obtain ⟨⟨user₁, v⟩, hmodel, heq⟩ := Option.map_eq_some_iff.mp hextract.symm
  simp only [Prod.mk.injEq] at heq
  obtain ⟨-, rfl, rfl⟩ := heq
  exact extractPlan_places hsrc hmodel

/-- **A test tells the truth**: on any disk, testing an archive that was packed succeeds if and
only if extracting it does, whatever the user answers. -/
theorem packedArchive_tested {t : τ} (hclash : NoClash plan.entries (view' t)) (tester : User) :
    (unbraRunProg fs' false false true ⟨data, 0⟩ tester t).isSome ↔
      ∀ user, (unbraRunProg fs' false false false ⟨data, 0⟩ user t).isSome := by
  have hunpacks := unpacks_of_write hfs hfs' hfinds hsrc hwrite hsize
  have hextract : ∀ user, (unbraRunProg fs' false false false ⟨data, 0⟩ user t).isSome =
      (extractPlan (PlanEntry.CanBeRecovered qsortR compress) plan.entries user (view' t)).isSome :=
    fun user => by
      rw [← Option.isSome_map (f := fun r => (r.1.f, r.2.1, view' r.2.2)),
        hunpacks.extract user t hclash, Option.isSome_map]
  rw [hunpacks.test]
  refine ⟨fun hok user => ?_, fun h => ?_⟩
  · rw [hextract]
    exact extractPlan_isSome hok user _
  · have hyes := h ⟨.alwaysYes, []⟩
    rw [hextract, extractPlan_alwaysYes (fun _ => canBeRecovered_of_dir) hsrc] at hyes
    split at hyes
    · assumption
    · cases hyes

/-- **Packing again gives the same archive**: on the disk to which an archive has been extracted,
with whatever else was there, the same paths make the same bytes. -/
theorem repacked_same (hok : ∀ e ∈ plan.entries, e.CanBeRecovered qsortR compress) (input : Bytes)
    {t : τ} (hclash : NoClash plan.entries (view' t)) :
    ∃ ctx user' t', unbraRunProg fs' false false false ⟨data, 0⟩ ⟨.alwaysYes, input⟩ t =
        some (ctx, user', t') ∧
      writeArchive fs' qsortR t' plan.entries.length (plan.entries.map PlanEntry.fn) compress =
        some data := by
  have hextract := (unpacks_of_write hfs hfs' hfinds hsrc hwrite hsize).extract
    ⟨.alwaysYes, input⟩ t hclash
  rw [extractPlan_alwaysYes (fun _ => canBeRecovered_of_dir) hsrc, if_pos hok, Option.map_some,
    Option.map_eq_some_iff] at hextract
  obtain ⟨⟨ctx, user', t'⟩, hrun, heq⟩ := hextract
  simp only [Prod.mk.injEq] at heq
  obtain ⟨-, -, hview⟩ := heq
  have hsrc' : ∀ e ∈ plan.entries, view' t' e.fn = some e.node := fun e he => by
    rw [hview]
    exact (if_pos (List.mem_map_of_mem he)).trans (hsrc e he)
  -- the bytes do not depend on the disk
  refine ⟨ctx, user', t', hrun, ?_⟩
  rw [writeArchive_eq hfs' qsortR compress plan hsrc',
    ← writeArchive_eq hfs qsortR compress plan hsrc, hwrite]

/-- **Nothing may be missing**: cut off anywhere, the archive of a plan whose files can all be got
back is refused, by whatever reads it. -/
theorem packedArchive_truncated
    (hok : ∀ e ∈ plan.entries, e.CanBeRecovered qsortR compress) {part : Bytes}
    (hpart : part <+: data) (hne : part ≠ data) (listContent testContent : Bool) (input : Bytes)
    {t : τ} (hclash : NoClash plan.entries (view' t)) :
    unbraRunProg fs' false listContent testContent ⟨part, 0⟩ ⟨.alwaysYes, input⟩ t = none := by
  have hunpacks := unpacks_of_write hfs hfs' hfinds hsrc hwrite hsize
  -- the whole archive is read to its end
  have hwhole : ∃ ctx user' t', unbraRunProg fs' false listContent testContent ⟨data, 0⟩
      ⟨.alwaysYes, input⟩ t = some (ctx, user', t') ∧ ctx.f = ioAt data [] := by
    by_cases hpass : (listContent || testContent) = true
    · obtain ⟨ctx, hrun, hf⟩ := hunpacks.pass hok hpass ⟨.alwaysYes, input⟩ t
      exact ⟨ctx, _, _, hrun, hf⟩
    · obtain ⟨rfl, rfl⟩ : listContent = false ∧ testContent = false := by simpa using hpass
      have hextract := hunpacks.extract ⟨.alwaysYes, input⟩ t hclash
      rw [extractPlan_alwaysYes (fun _ => canBeRecovered_of_dir) hsrc, if_pos hok, Option.map_some,
        Option.map_eq_some_iff] at hextract
      obtain ⟨⟨ctx, user', t'⟩, hrun, heq⟩ := hextract
      exact ⟨ctx, user', t', hrun, congrArg Prod.fst heq⟩
  obtain ⟨ctx, user', t', hrun, hf⟩ := hwhole
  obtain ⟨archive, rest, hdata, hstop, -, hreads⟩ := unbraRunProg_readsExactly hrun
  obtain rfl : archive = data := by
    have hpos := congrArg IoFile.pos (hstop.symm.trans hf)
    rw [ioAt_pos, ioAt_pos] at hpos
    have hprefix : archive <+: data := ⟨rest, hdata.symm⟩
    exact hprefix.eq_of_length hpos
  exact hreads.short [] part hpart hne

end Packed

/-! ## An example -/

/-- A disk with a file of the same path as one of the plan. -/
def lettersDisk : DiskView := fun p => if p = CStr.ofBuffer [97] then some (.file [33]) else none

theorem lettersDisk_noClash : NoClash lettersPlan.entries lettersDisk := by
  have h : ∀ e ∈ lettersPlan.entries,
      lettersDisk e.fn = none ∨ (lettersDisk e.fn = some (.file [33]) ∧ e.node ≠ .dir) := by
    decide +kernel
  intro e he node hnode
  rcases h e he with hnone | ⟨hfile, hne⟩
  · rw [hnone] at hnode
    cases hnode
  · obtain rfl := Option.some.inj (hfile.symm.trans hnode)
    cases e with
    | dir parent name => exact absurd rfl hne
    | file parent name contents => rfl

/-- The archive of the letters. -/
def lettersArchive : Bytes :=
  (writeArchive FileSystem.inMemory QsortR.mergeSort (planView lettersPlan.entries) 4
    (lettersPlan.entries.map PlanEntry.fn) false).getD []

theorem lettersArchive_written :
    writeArchive FileSystem.inMemory QsortR.mergeSort (planView lettersPlan.entries) 4
      (lettersPlan.entries.map PlanEntry.fn) false = some lettersArchive :=
  rfl

theorem lettersArchive_size : lettersArchive.length < 2 ^ 63 := by
  decide +kernel

theorem letters_recoverable :
    ∀ e ∈ lettersPlan.entries, e.CanBeRecovered QsortR.mergeSort false := fun _ _ =>
  canBeRecovered_of_small fun h => absurd h Bool.false_ne_true

theorem packedArchive_overwrites_letters :
    (unbraRunProg FileSystem.inMemory false false false ⟨lettersArchive, 0⟩ ⟨.alwaysYes, []⟩
        lettersDisk).map (fun r => id r.2.2) =
      if ∀ e ∈ lettersPlan.entries, e.CanBeRecovered QsortR.mergeSort false then
        some fun p => if p ∈ lettersPlan.entries.map PlanEntry.fn then
          id (planView lettersPlan.entries) p else id lettersDisk p
      else none :=
  packedArchive_overwrites (FileSystem.inMemory_works _) (FileSystem.inMemory_works _)
    (FileSystem.inMemory_findsFiles _) letters_source lettersArchive_written
    lettersArchive_size [] lettersDisk_noClash

/-- The file that is there is not overwritten. -/
theorem packedArchive_places_letters :
    ∃ ctx user' t', unbraRunProg FileSystem.inMemory false false false ⟨lettersArchive, 0⟩
        ⟨.ask, [110]⟩ lettersDisk = some (ctx, user', t') ∧
      (∀ p ∉ lettersPlan.entries.map PlanEntry.fn, id t' p = id lettersDisk p) ∧
        ∀ p ∈ lettersPlan.entries.map PlanEntry.fn, id t' p = id (planView lettersPlan.entries) p ∨
          (id t' p = id lettersDisk p ∧ ∃ old, id lettersDisk p = some (.file old)) := by
  have hsome : (unbraRunProg FileSystem.inMemory false false false ⟨lettersArchive, 0⟩
      ⟨.ask, [110]⟩ lettersDisk).isSome := by
    decide +kernel
  obtain ⟨⟨ctx, user', t'⟩, hrun⟩ := Option.isSome_iff_exists.mp hsome
  exact ⟨ctx, user', t', hrun, packedArchive_places (FileSystem.inMemory_works _)
    (FileSystem.inMemory_works _) (FileSystem.inMemory_findsFiles _) letters_source
    lettersArchive_written lettersArchive_size lettersDisk_noClash hrun⟩

theorem packedArchive_tested_letters :
    (unbraRunProg FileSystem.inMemory false false true ⟨lettersArchive, 0⟩ ⟨.ask, []⟩
        lettersDisk).isSome ↔
      ∀ user, (unbraRunProg FileSystem.inMemory false false false ⟨lettersArchive, 0⟩ user
        lettersDisk).isSome :=
  packedArchive_tested (FileSystem.inMemory_works _) (FileSystem.inMemory_works _)
    (FileSystem.inMemory_findsFiles _) letters_source lettersArchive_written lettersArchive_size
    lettersDisk_noClash ⟨.ask, []⟩

theorem repacked_same_letters :
    ∃ ctx user' t', unbraRunProg FileSystem.inMemory false false false ⟨lettersArchive, 0⟩
        ⟨.alwaysYes, []⟩ lettersDisk = some (ctx, user', t') ∧
      writeArchive FileSystem.inMemory QsortR.mergeSort t' 4
        (lettersPlan.entries.map PlanEntry.fn) false = some lettersArchive :=
  repacked_same (FileSystem.inMemory_works _) (FileSystem.inMemory_works _)
    (FileSystem.inMemory_findsFiles _) letters_source lettersArchive_written lettersArchive_size
    letters_recoverable [] lettersDisk_noClash

/-- The archive without its last byte. -/
theorem packedArchive_truncated_letters :
    unbraRunProg FileSystem.inMemory false true false ⟨lettersArchive.dropLast, 0⟩
      ⟨.alwaysYes, []⟩ lettersDisk = none :=
  packedArchive_truncated (FileSystem.inMemory_works _) (FileSystem.inMemory_works _)
    (FileSystem.inMemory_findsFiles _) letters_source lettersArchive_written lettersArchive_size
    letters_recoverable (List.dropLast_prefix _) (by decide +kernel) true false []
    lettersDisk_noClash

end Programs

end BrArchive
