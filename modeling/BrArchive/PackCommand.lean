import BrArchive.PackUnpack
import BrArchive.ArgumentMeaning

/-! # From the command line to the disk

What `bra` gathers from the operands of its command line, on a disk whose directories can all be
read.  A file stands for itself, a directory for everything below it, and a wildcard for what it
matches; a name with a line terminator in it is matched by no `*`, and nothing is found below a
path with a wildcard character in it.

The loop skips a directory that is in the set already.  That loses nothing as long as the set is
closed, which means that with a directory it has all that the directory stands for, and only a
wildcard can leave it otherwise.
-/
namespace BrArchive

/-! ## Directories of a disk -/

/-- A path of names other than `"."` and `".."`. -/
def IsInner (g : FsPath) : Prop :=
  g ≠ [] ∧ ∀ c ∈ g, IsComponent c ∧ c.bytes ≠ [46] ∧ c.bytes ≠ [46, 46]

instance (g : FsPath) : Decidable (IsInner g) := inferInstanceAs (Decidable (_ ∧ _))

theorem IsInner.normal {g : FsPath} (h : IsInner g) : IsNormal g := .inr h

theorem IsInner.component {g : FsPath} (h : IsInner g) : ∀ c ∈ g, IsComponent c :=
  fun c hc => (h.2 c hc).1

theorem IsInner.ne_dotPath {g : FsPath} (h : IsInner g) : g ≠ dotPath := by
  rintro rfl
  exact (h.2 _ (List.mem_singleton.mpr rfl)).2.1 (by decide)

theorem IsInner.append {g g' : FsPath} (h : g = [] ∨ IsInner g) (h' : IsInner g') :
    IsInner (g ++ g') := by
  rcases h with rfl | h
  · exact h'
  · refine ⟨fun hnil => h.1 (List.append_eq_nil_iff.mp hnil).1, fun c hc => ?_⟩
    exact (List.mem_append.mp hc).elim (h.2 c) (h'.2 c)

theorem IsInner.left {g g' : FsPath} (h : IsInner (g ++ g')) : g = [] ∨ IsInner g :=
  (em (g = [])).imp_right fun hne => ⟨hne, fun c hc => h.2 c (List.mem_append_left g' hc)⟩

theorem IsInner.right {g g' : FsPath} (h : IsInner (g ++ g')) (hne : g' ≠ []) : IsInner g' :=
  ⟨hne, fun c hc => h.2 c (List.mem_append_right g hc)⟩

/-- The names of a normal path, which are none for `"."`. -/
def innerPath (p : FsPath) : FsPath := if p = dotPath then [] else p

theorem IsNormal.inner {p : FsPath} (h : IsNormal p) : innerPath p = [] ∨ IsInner (innerPath p) := by
  rw [innerPath]
  split
  · exact .inl rfl
  · exact .inr (h.resolve_left ‹_›)

theorem startDir_innerPath {p : FsPath} (h : IsNormal p) : startDir (innerPath p) = p := by
  rw [innerPath, startDir]
  split
  · rename_i hdot
    rw [if_pos rfl, hdot]
  · rename_i hdot
    rw [if_neg (h.resolve_left hdot).1]

/-- What is assumed of `try_sanitize` besides: a leading `"."` is taken away. -/
structure SanitizesHere (trySanitize : FsPath → Option FsPath) (asked : FsPath → Prop) : Prop
    extends Sanitizes trySanitize asked where
  dot : ∀ g, IsInner g → trySanitize (dotPath ++ g) = some g

theorem SanitizesHere.startDir_append {trySanitize : FsPath → Option FsPath}
    {asked : FsPath → Prop} (h : SanitizesHere trySanitize asked) {base g : FsPath}
    (hbase : base = [] ∨ IsInner base) (hg : IsInner g) : trySanitize (startDir base ++ g) = some (base ++ g) := by
  rw [startDir]
  split
  · rename_i hnil
    rw [hnil]
    exact h.dot g hg
  · exact h.normal_self _ (hg.append hbase).normal

/-- A listing shows what there is in a directory of the disk, and below it. -/
structure Listing.Shows (view : DiskView) (base : FsPath) (l : Listing) : Prop where
  readable : l.readable true = true
  visited : ∀ g, g ∈ l.visited true ↔
    IsInner g ∧ (dirOn view (base ++ g) ∨ fileOn view (base ++ g))
  files : ∀ g, g ∈ l.visited false ↔ g.length = 1 ∧ IsInner g ∧ fileOn view (base ++ g)

/-- The directories of the disk, and nothing else, can be gone through. -/
structure ListsDisk (view : DiskView) (directoryIterator : FsPath → Listing) : Prop where
  here : (directoryIterator dotPath).Shows view []
  dir : ∀ base, IsInner base → dirOn view base → (directoryIterator base).Shows view base
  noDir : ∀ base, IsInner base → ¬ dirOn view base →
    ∀ recursive, (directoryIterator base).readable recursive = false

theorem Listing.readable_of_recursive {l : Listing} (h : l.readable true) (recursive : Bool) :
    l.readable recursive := by
  induction l with
  | nil => rfl
  | unreadable => cases h
  | file name entries ih | other name entries ih => exact ih h
  | dir name sub entries ihsub ih =>
    rw [readable, Bool.and_eq_true, Bool.not_true, Bool.false_or] at h
    rw [readable, Bool.and_eq_true]
    exact ⟨Bool.or_eq_true_iff.mpr (.inr (ihsub h.1)), ih h.2⟩

/-- What a search looks at below a directory of the disk. -/
def VisitedOn (view : DiskView) (recursive : Bool) (base g : FsPath) : Prop :=
  IsInner g ∧ if recursive then dirOn view (base ++ g) ∨ fileOn view (base ++ g)
    else g.length = 1 ∧ fileOn view (base ++ g)

theorem Listing.Shows.mem_visited {view : DiskView} {base g : FsPath} {l : Listing}
    (h : l.Shows view base) {recursive : Bool} :
    g ∈ l.visited recursive ↔ VisitedOn view recursive base g := by
  cases recursive with
  | true => exact h.visited g
  | false => exact (h.files g).trans and_left_comm

section Disk
variable {view : DiskView} {directoryIterator : FsPath → Listing}
  {trySanitize : FsPath → Option FsPath} {asked : FsPath → Prop}

/-- Whatever is gone through is a directory, and what is looked at there is on the disk. -/
theorem ListsDisk.mem_visited (hdisk : ListsDisk view directoryIterator) {base : FsPath}
    (hbase : base = [] ∨ IsInner base) {recursive : Bool}
    (hreadable : (directoryIterator (startDir base)).readable recursive) (g : FsPath) :
    g ∈ (directoryIterator (startDir base)).visited recursive ↔
      VisitedOn view recursive base g := by
  rcases hbase with rfl | hbase
  · exact hdisk.here.mem_visited
  · rw [startDir, if_neg hbase.1] at hreadable ⊢
    by_cases hdir : dirOn view base
    · exact (hdisk.dir base hbase hdir).mem_visited
    · rw [hdisk.noDir base hbase hdir] at hreadable
      cases hreadable

/-! ## Wildcards -/

/-- What a wildcard finds: something below its directory whose name matches.  Only the last name
of a wildcard may have wildcard characters. -/
def MatchedBy (view : DiskView) (recursive : Bool) (p f : FsPath) : Prop :=
  ∃ base w g, p = base ++ [w] ∧ (∀ c ∈ base, c.bytes.any isWildcardChar = false) ∧
    w.bytes.any isWildcardChar ∧ f = base ++ g ∧ VisitedOn view recursive base g ∧
    NameMatches w.bytes g

/-- A path around its first name with a wildcard character. -/
theorem exists_first_wildcard (p : FsPath) :
    (∀ c ∈ p, c.bytes.any isWildcardChar = false) ∨
      ∃ base w rest, p = base ++ w :: rest ∧
        (∀ c ∈ base, c.bytes.any isWildcardChar = false) ∧ w.bytes.any isWildcardChar := by
  induction p with
  | nil => exact .inl fun c hc => absurd hc List.not_mem_nil
  | cons c p ih =>
    by_cases hc : c.bytes.any isWildcardChar
    · exact .inr ⟨[], c, p, rfl, fun c hc => absurd hc List.not_mem_nil, hc⟩
    · have hc := Bool.eq_false_of_not_eq_true hc
      rcases ih with hp | ⟨base, w, rest, rfl, hbase, hw⟩
      · exact .inl (List.forall_mem_cons.mpr ⟨hc, hp⟩)
      · exact .inr ⟨c :: base, w, rest, rfl, List.forall_mem_cons.mpr ⟨hc, hbase⟩, hw⟩

/-- A path without wildcard characters matches nothing. -/
theorem wildcard_of_plain {base : FsPath} {c : CStr} (hcomps : ∀ d ∈ base ++ [c], IsComponent d)
    (hplain : ∀ d ∈ base ++ [c], d.bytes.any isWildcardChar = false) :
    wildcardDir (base ++ [c]) = startDir base ∧ wildcardName (base ++ [c]) = [] := by
  have hany : (joinPath (base ++ [c])).bytes.any isWildcardChar = false := by
    change isWildcard (base ++ [c]) = false
    rw [any_isWildcardChar_joinPath, List.any_eq_false]
    exact fun d hd => Bool.eq_false_iff.mp (hplain d hd)
  have hwhole : (joinPath (base ++ [c])).bytes.takeWhile (!isWildcardChar ·) =
      (joinPath (base ++ [c])).bytes := by
    refine List.takeWhile_eq_self_iff.mpr fun b hb => ?_
    rw [Bool.not_eq_true']
    exact Bool.eq_false_of_not_eq_true (List.any_eq_false.mp hany b hb)
  have hdir : StdPath.dirPart (joinPath (base ++ [c])).bytes = delimited base := by
    rw [joinPath_append_singleton, StdPath.dirPart_append (hcomps c (by simp)).delim_free,
      dirPart_delimited]
  constructor
  · rw [wildcardDir, wildcardExtractDir, hwhole, hdir, startDir]
    obtain rfl | hne := em (base = [])
    · change strtok (CStr.ofBuffer hereDir) = dotPath
      decide
    · have hnil : delimited base ≠ [] := by
        rw [delimited_eq hne]
        simp
      rw [if_neg hnil, if_neg hne]
      exact strtok_delimited (fun d hd => hcomps d (List.mem_append_left _ hd)) hne
        (cString_eq_self (delimited_nul_free base))
  · rw [wildcardName, wildcardExtractDir, hany]
    rfl

/-- The directory that is searched is one of the path. -/
theorem wildcardDir_of_inner {p : FsPath} (hp : IsNormal p) :
    ∃ base, (base = [] ∨ IsInner base) ∧ wildcardDir p = startDir base ∧
      ((∀ c ∈ p, c.bytes.any isWildcardChar = false) ∧ wildcardName p = [] ∨
        ∃ w rest, p = base ++ w :: rest ∧ (∀ c ∈ base, c.bytes.any isWildcardChar = false) ∧
          w.bytes.any isWildcardChar ∧
          wildcardName p =
            w.bytes ++ if rest = [] then [] else [braDirDelim] ++ (joinPath rest).bytes) := by
  rcases exists_first_wildcard p with hplain | ⟨base, w, rest, rfl, hbase, hw⟩
  · obtain ⟨base, c, rfl⟩ : ∃ base c, p = base ++ [c] := by
      refine (List.eq_nil_or_concat' p).resolve_left ?_
      rcases hp with rfl | hp
      · exact List.cons_ne_nil _ _
      · exact hp.1
    obtain ⟨hdir, hname⟩ := wildcard_of_plain hp.component hplain
    refine ⟨base, ?_, hdir, .inl ⟨hplain, hname⟩⟩
    rcases hp with hdot | hp
    · exact .inl (List.append_eq_singleton_iff.mp hdot |>.elim (·.1) fun h =>
        absurd h.2 (List.cons_ne_nil _ _))
    · exact IsInner.left hp
  · have hcomps := hp.component
    have hwcomp := hcomps w (by simp)
    refine ⟨base, ?_, wildcardDir_eq (fun c hc => hcomps c (by simp [hc])) hbase hwcomp hw rest,
      .inr ⟨w, rest, rfl, hbase, hw, wildcardName_eq hbase hwcomp hw rest⟩⟩
    rcases hp with hdot | hp
    · -- there is no wildcard character in `"."`
      have hmem : w ∈ dotPath := hdot ▸ List.mem_append_right base List.mem_cons_self
      rw [List.mem_singleton.mp hmem] at hw
      exact absurd hw (by decide)
    · exact IsInner.left hp

/-- The names that the wildcard matches are those of its last name. -/
theorem matchedBy_iff {recursive : Bool} {base : FsPath} {w : CStr} {rest : List CStr} {f : FsPath}
    (hbase : ∀ c ∈ base, c.bytes.any isWildcardChar = false) (hw : w.bytes.any isWildcardChar) :
    MatchedBy view recursive (base ++ w :: rest) f ↔
      rest = [] ∧ ∃ g, f = base ++ g ∧ VisitedOn view recursive base g ∧ NameMatches w.bytes g := by
  constructor
  · rintro ⟨base', w', g, hsplit, hbase', hw', rfl, hvisited, hname⟩
    obtain rfl | ⟨rest, c, rfl⟩ := List.eq_nil_or_concat' rest
    · obtain ⟨rfl, hcons⟩ := List.append_inj' hsplit rfl
      obtain rfl := List.head_eq_of_cons_eq hcons
      exact ⟨rfl, g, rfl, hvisited, hname⟩
    · -- otherwise the first name with a wildcard character is not the last one
      have hassoc : base ++ w :: (rest ++ [c]) = (base ++ w :: rest) ++ [c] := by simp
      rw [hassoc] at hsplit
      obtain ⟨rfl, -⟩ := List.append_inj' hsplit rfl
      rw [hbase' w (by simp)] at hw
      exact absurd hw Bool.false_ne_true
  · rintro ⟨rfl, g, rfl, hvisited, hname⟩
    exact ⟨base, w, g, rfl, hbase, hw, rfl, hvisited, hname⟩

/-- **What a search finds on a disk.** -/
theorem mem_searchWildcard_onDisk (hsanitize : SanitizesHere trySanitize asked)
    (hdisk : ListsDisk view directoryIterator) {path p : FsPath} (hp : trySanitize path = some p)
    (hnormal : IsNormal p)
    {outFiles files : OrderedSet FsPath} {recursive : Bool}
    (h : searchWildcard trySanitize directoryIterator path outFiles recursive = some files)
    (f : FsPath) : f ∈ files.keys ↔ f ∈ outFiles.keys ∨ MatchedBy view recursive p f := by
  have hwild : isWildcard path := by
    by_contra hnot
    rw [searchWildcard, Bool.eq_false_of_not_eq_true hnot] at h
    cases h
  obtain ⟨base, hbase, hdir, hcases⟩ := wildcardDir_of_inner hnormal
  have hreadable : (directoryIterator (startDir base)).readable recursive := by
    have hsome : (searchWildcard trySanitize directoryIterator path outFiles recursive).isSome :=
      h ▸ rfl
    exact hdir ▸ ((searchWildcard_isSome_iff hwild hp outFiles recursive).mp hsome).1
  have hvisited := hdisk.mem_visited hbase hreadable
  have hfound : ∀ g, VisitedOn view recursive base g →
      (trySanitize (startDir base ++ g) = some f ↔ f = base ++ g) := fun g hg => by
    rw [hsanitize.startDir_append hbase hg.1, Option.some_inj, eq_comm]
  rw [mem_searchWildcard hp h, hdir]
  refine or_congr_right ?_
  rcases hcases with ⟨hplain, hname⟩ | ⟨w, rest, rfl, hplain, hw, hname⟩
  · rw [hname]
    refine iff_of_false ?_ ?_
    · rintro ⟨g, hg, ⟨name, hlast, hmatch, -⟩, -⟩
      -- the empty wildcard matches the empty name only
      exact (((hvisited g).mp hg).1.component name (List.mem_of_getLast? hlast)).ne_nil hmatch
    · rintro ⟨base', w, g, rfl, -, hw, -⟩
      rw [hplain w (by simp)] at hw
      exact absurd hw Bool.false_ne_true
  · rw [matchedBy_iff hplain hw, hname]
    by_cases hrest : rest = []
    · rw [if_pos hrest, List.append_nil, and_iff_right hrest]
      constructor
      · rintro ⟨g, hg, hmatch, hf⟩
        have hg := (hvisited g).mp hg
        exact ⟨g, (hfound g hg).mp hf, hg, hmatch⟩
      · rintro ⟨g, hf, hg, hmatch⟩
        exact ⟨g, (hvisited g).mpr hg, hmatch, (hfound g hg).mpr hf⟩
    · rw [if_neg hrest]
      refine iff_of_false ?_ fun h => hrest h.1
      rintro ⟨g, hg, hmatch, -⟩
      exact not_nameMatches_of_delim (by simp) ((hvisited g).mp hg).1.component hmatch

/-- **When and what a wildcard finds**: the search succeeds if the directory of the wildcard is
there, and then it adds what has a name that matches. -/
theorem searchWildcard_finds {path p : FsPath} (hsanitize : SanitizesHere trySanitize (· = path))
    (hdisk : ListsDisk view directoryIterator) (hwild : isWildcard path)
    (hp : trySanitize path = some p) (outFiles : OrderedSet FsPath) (recursive : Bool) :
    ((searchWildcard trySanitize directoryIterator path outFiles recursive).isSome ↔
        wildcardDir p = dotPath ∨ dirOn view (wildcardDir p)) ∧
      ∀ files, searchWildcard trySanitize directoryIterator path outFiles recursive = some files →
        ∀ f, f ∈ files.keys ↔ f ∈ outFiles.keys ∨ MatchedBy view recursive p f := by
  have hnormal := hsanitize.normal path rfl p hp
  refine ⟨?_, fun files h => mem_searchWildcard_onDisk hsanitize hdisk hp hnormal h⟩
  obtain ⟨base, hbase, hdir, -⟩ := wildcardDir_of_inner hnormal
  rw [searchWildcard_isSome_iff hwild hp, hdir]
  constructor
  · rintro ⟨hreadable, -⟩
    rcases hbase with rfl | hbase
    · exact .inl rfl
    · rw [startDir, if_neg hbase.1] at hreadable ⊢
      by_contra hnot
      rw [hdisk.noDir base hbase fun h => hnot (.inr h)] at hreadable
      cases hreadable
  · intro hthere
    have hreadable : (directoryIterator (startDir base)).readable recursive := by
      refine Listing.readable_of_recursive ?_ recursive
      rcases hbase with rfl | hbase
      · exact hdisk.here.readable
      · rw [startDir, if_neg hbase.1] at hthere ⊢
        exact (hdisk.dir base hbase (hthere.resolve_left hbase.ne_dotPath)).readable
    refine ⟨hreadable, fun g hg _ => ?_⟩
    rw [hsanitize.startDir_append hbase ((hdisk.mem_visited hbase hreadable g).mp hg).1]
    rfl

/-! ## Operands -/

/-- What an operand stands for. -/
def Selected (view : DiskView) (recursive : Bool) (p f : FsPath) : Prop :=
  if fileOn view p then f = p
  else if dirOn view p then
    recursive = true ∧ (f = p ∨ MatchedBy view true (innerPath p ++ [starName]) f)
  else MatchedBy view recursive p f

theorem selected_file {recursive : Bool} {p f : FsPath} (h : fileOn view p) :
    Selected view recursive p f ↔ f = p := by
  rw [Selected, if_pos h]

theorem selected_dir {recursive : Bool} {p f : FsPath} (h : dirOn view p) :
    Selected view recursive p f ↔
      recursive = true ∧ (f = p ∨ MatchedBy view true (innerPath p ++ [starName]) f) := by
  rw [Selected, fileOn_of_dirOn h, if_neg Bool.false_ne_true, if_pos h]

/-- **What an operand adds**: all that it stands for, unless it is a directory that is there
already. -/
theorem mem_gather (hsanitize : SanitizesHere trySanitize asked)
    (hdisk : ListsDisk view directoryIterator) {files files' : OrderedSet FsPath}
    {o : Bool × CStr} {p : FsPath} (hp : trySanitize (pathElements o.2) = some p)
    (hnormal : IsNormal p)
    (h : gather trySanitize (dirOn view) (fileOn view) directoryIterator files o = some files')
    (f : FsPath) :
    f ∈ files'.keys ↔
      f ∈ files.keys ∨ (Selected view o.1 p f ∧ ¬ (dirOn view p ∧ p ∈ files.keys)) := by
  rw [gather, hp] at h
  dsimp only at h
  split at h
  · rename_i hfile
    obtain rfl := Option.some.inj h
    have hdir : ¬ (dirOn view p ∧ p ∈ files.keys) := fun h => by
      rw [fileOn_of_dirOn h.1] at hfile
      cases hfile
    rw [OrderedSet.mem_insert, selected_file hfile, and_iff_left hdir]
    exact or_comm
  · rename_i hfile
    split at h
    · rename_i hdir
      rw [selected_dir hdir]
      split at h
      · rename_i hnew
        rw [OrderedSet.contains_iff] at hnew
        have hstar : trySanitize (p ++ [starName]) = some (innerPath p ++ [starName]) := by
          have hself := hsanitize.startDir_append hnormal.inner
            (show IsInner [starName] by decide)
          rwa [startDir_innerPath hnormal] at hself
        have hstarNormal := (IsInner.append hnormal.inner (show IsInner [starName] by decide)).normal
        rw [mem_searchWildcard_onDisk hsanitize hdisk hstar hstarNormal h, OrderedSet.mem_insert,
          and_iff_right hnew.1, and_iff_left fun h => hnew.2 h.2]
        exact or_assoc.trans or_left_comm
      · rename_i hold
        rw [OrderedSet.contains_iff] at hold
        obtain rfl := Option.some.inj h
        refine (or_iff_left ?_).symm
        rintro ⟨⟨hrecursive, -⟩, hnew⟩
        exact hold ⟨hrecursive, fun hmem => hnew ⟨hdir, hmem⟩⟩
    · rename_i hdir
      split at h
      · have hself := hsanitize.normal_self p hnormal
        rw [mem_searchWildcard_onDisk hsanitize hdisk hself hnormal h, Selected, if_neg hfile,
          if_neg hdir, and_iff_left fun h => hdir h.1]
      · cases h

/-- With every directory there is all that it stands for. -/
def Closed (view : DiskView) (files : OrderedSet FsPath) : Prop :=
  ∀ p ∈ files.keys, dirOn view p → ∀ f, Selected view true p f → f ∈ files.keys

/-- What a directory stands for does so itself. -/
theorem selected_trans {p q f : FsPath} (hnormal : IsNormal p) (hp : dirOn view p)
    (hq : dirOn view q) (hpq : Selected view true p q) (hqf : Selected view true q f) :
    Selected view true p f := by
  obtain ⟨-, hpq⟩ := (selected_dir hp).mp hpq
  obtain ⟨-, hqf⟩ := (selected_dir hq).mp hqf
  rcases hpq with rfl | hpq
  · exact (selected_dir hp).mpr ⟨rfl, hqf⟩
  · refine (selected_dir hp).mpr ⟨rfl, .inr ?_⟩
    rcases hqf with rfl | hqf
    · exact hpq
    · obtain ⟨base, w, g, hsplit, hplain, hw, rfl, ⟨hg, -⟩, -⟩ := hpq
      obtain ⟨hbase, hstar⟩ := List.append_inj' hsplit rfl
      obtain rfl := List.head_eq_of_cons_eq hstar
      have hinner : IsInner (base ++ g) := hg.append (hbase ▸ hnormal.inner)
      rw [innerPath, if_neg hinner.ne_dotPath] at hqf
      obtain ⟨base', w', g', hsplit', -, -, rfl, ⟨hg', hthere⟩, name, hlast, hmatch⟩ := hqf
      obtain ⟨rfl, hstar'⟩ := List.append_inj' hsplit' rfl
      obtain rfl := List.head_eq_of_cons_eq hstar'
      refine ⟨base, starName, g ++ g', hsplit, hplain, hw, List.append_assoc .., ⟨?_, ?_⟩,
        name, ?_, hmatch⟩
      · exact hg'.append (.inr hg)
      · rwa [← List.append_assoc]
      · rw [List.getLast?_append_of_ne_nil g hg'.1]
        exact hlast

/-- **The set stays closed** under operands that are there. -/
theorem closed_gather (hsanitize : SanitizesHere trySanitize asked)
    (hdisk : ListsDisk view directoryIterator) {files files' : OrderedSet FsPath}
    {o : Bool × CStr} {p : FsPath} (hp : trySanitize (pathElements o.2) = some p)
    (hnormal : IsNormal p) (hthere : dirOn view p ∨ fileOn view p)
    (h : gather trySanitize (dirOn view) (fileOn view) directoryIterator files o = some files')
    (hclosed : Closed view files) : Closed view files' := by
  have hmem := mem_gather hsanitize hdisk hp hnormal h
  intro q hq hqdir f hf
  rw [hmem] at hq ⊢
  rcases hq with hq | ⟨hq, hnew⟩
  · exact .inl (hclosed q hq hqdir f hf)
  · refine .inr ⟨?_, hnew⟩
    by_cases hfile : fileOn view p
    · -- a file stands for itself only
      obtain rfl := (selected_file hfile).mp hq
      rw [fileOn_of_dirOn hqdir] at hfile
      cases hfile
    · have hdir := hthere.resolve_right hfile
      obtain ⟨hrecursive, -⟩ := (selected_dir hdir).mp hq
      rw [hrecursive] at hq ⊢
      exact selected_trans hnormal hdir hqdir hq hf

/-- The paths that the operands are. -/
def OperandPath (ops : List (Bool × CStr)) (f : FsPath) : Prop := ∃ o ∈ ops, pathElements o.2 = f

/-- An operand that is a directory. -/
def IsDirOperand (view : DiskView) (trySanitize : FsPath → Option FsPath) (s : CStr) : Prop :=
  ∃ p, trySanitize (pathElements s) = some p ∧ dirOn view p

/-- An operand that is there, and so no wildcard. -/
def IsThere (view : DiskView) (trySanitize : FsPath → Option FsPath) (s : CStr) : Prop :=
  ∃ p, trySanitize (pathElements s) = some p ∧ (dirOn view p ∨ fileOn view p)

/-- No directory comes after a wildcard, which might have found it. -/
def DirectoriesFirst (view : DiskView) (trySanitize : FsPath → Option FsPath)
    (ops : List (Bool × CStr)) : Prop :=
  ops.Pairwise fun o o' => IsThere view trySanitize o.2 ∨ ¬ IsDirOperand view trySanitize o'.2

/-- What the operands stand for, each with the option for recursion as it stands there. -/
def SelectedBy (view : DiskView) (trySanitize : FsPath → Option FsPath)
    (ops : List (Bool × CStr)) (f : FsPath) : Prop :=
  ∃ o ∈ ops, ∃ p, trySanitize (pathElements o.2) = some p ∧ Selected view o.1 p f

/-- **What the operands add**: all that they stand for, in whatever order they are given, if the
directories among them come before the wildcards. -/
theorem mem_gather_all (hsanitize : SanitizesHere trySanitize asked)
    (hdisk : ListsDisk view directoryIterator) {ops : List (Bool × CStr)}
    (hasked : ∀ o ∈ ops, asked (pathElements o.2))
    (hops : DirectoriesFirst view trySanitize ops) {files files' : OrderedSet FsPath}
    (hclosed : Closed view files ∨ ∀ o ∈ ops, ¬ IsDirOperand view trySanitize o.2)
    (h : ops.foldlM (gather trySanitize (dirOn view) (fileOn view) directoryIterator) files =
      some files') (f : FsPath) :
    f ∈ files'.keys ↔ f ∈ files.keys ∨ SelectedBy view trySanitize ops f := by
  induction ops generalizing files with
  | nil =>
    obtain rfl := Option.some.inj h
    simp [SelectedBy]
  | cons o ops ih =>
    rw [List.foldlM_cons] at h
    obtain ⟨files₁, hfirst, h⟩ := Option.bind_eq_some_iff.mp h
    obtain ⟨p, hp⟩ : ∃ p, trySanitize (pathElements o.2) = some p := by
      rw [← Option.isSome_iff_exists]
      by_contra hnot
      rw [gather, Option.not_isSome_iff_eq_none.mp hnot] at hfirst
      cases hfirst
    have hnormal := hsanitize.normal _ (hasked o List.mem_cons_self) p hp
    obtain ⟨hafter, hops⟩ := List.pairwise_cons.mp hops
    -- with a directory that is skipped, all it stands for is there
    have hmem : f ∈ files₁.keys ↔ f ∈ files.keys ∨ Selected view o.1 p f := by
      rw [mem_gather hsanitize hdisk hp hnormal hfirst]
      constructor
      · exact Or.imp_right And.left
      · rintro (hf | hf)
        · exact .inl hf
        · by_cases hskip : dirOn view p ∧ p ∈ files.keys
          · refine .inl ?_
            rcases hclosed with hclosed | hnodir
            · obtain ⟨hrecursive, -⟩ := (selected_dir hskip.1).mp hf
              exact hclosed p hskip.2 hskip.1 f (hrecursive ▸ hf)
            · exact absurd ⟨p, hp, hskip.1⟩ (hnodir o List.mem_cons_self)
          · exact .inr ⟨hf, hskip⟩
    have hclosed₁ : Closed view files₁ ∨ ∀ o ∈ ops, ¬ IsDirOperand view trySanitize o.2 := by
      rcases hclosed with hclosed | hnodir
      · by_cases hthere : IsThere view trySanitize o.2
        · obtain ⟨p', hp', hthere⟩ := hthere
          obtain rfl := Option.some.inj (hp.symm.trans hp')
          exact .inl (closed_gather hsanitize hdisk hp hnormal hthere hfirst hclosed)
        · exact .inr fun o' ho' => (hafter o' ho').resolve_left hthere
      · exact .inr fun o' ho' => hnodir o' (List.mem_cons_of_mem o ho')
    have hcons : SelectedBy view trySanitize (o :: ops) f ↔
        Selected view o.1 p f ∨ SelectedBy view trySanitize ops f := by
      simp only [SelectedBy, List.exists_mem_cons_iff, hp, Option.some_inj, exists_eq_left']
    rw [ih (fun o ho => hasked o (List.mem_cons_of_mem _ ho)) hops hclosed₁ h, hmem, hcons,
      or_assoc]

theorem closed_empty : Closed view .empty := fun _ hp => absurd hp OrderedMap.mem_keys_empty

/-- **What `bra` gathers**: the files of the set are what the operands stand for. -/
theorem mem_files_iff {args : List CStr} {ws : List Word}
    (hws : readWords Bra.options.takesValue args = some ws)
    (hsanitize : SanitizesHere trySanitize (OperandPath (operandsUnder false ws)))
    (hdisk : ListsDisk view directoryIterator) {policy : OverwritePolicy} {st : BraArgs}
    (h : parseArgs (bra trySanitize directoryIterator) trySanitize (dirOn view) (fileOn view)
      BraArgs.initial args = .ok (policy, st))
    (hops : DirectoriesFirst view trySanitize (operandsUnder false ws)) (f : FsPath) :
    f ∈ st.files.keys ↔ SelectedBy view trySanitize (operandsUnder false ws) f := by
  obtain ⟨-, ws', hws', -, files, hfold, rfl⟩ := bra_parseArgs_iff.mp h
  obtain rfl := Option.some.inj (hws.symm.trans hws')
  have hmem := mem_gather_all hsanitize hdisk (fun o ho => ⟨o, ho, rfl⟩) hops (.inl closed_empty)
    hfold f
  rwa [or_iff_right OrderedMap.mem_keys_empty] at hmem

/-- **The order of the operands makes no difference** if they are files and directories: the same
operands, each under the same option for recursion, give the same set of files, and it is what they
stand for. -/
theorem bra_gathers {args args' : List CStr} {policy policy' : OverwritePolicy}
    {st st' : BraArgs} {ws ws' : List Word}
    (hsanitize : SanitizesHere trySanitize (OperandPath (operandsUnder false ws)))
    (hdisk : ListsDisk view directoryIterator)
    (hws : readWords Bra.options.takesValue args = some ws)
    (hws' : readWords Bra.options.takesValue args' = some ws')
    (hparse : parseArgs (bra trySanitize directoryIterator) trySanitize (dirOn view) (fileOn view)
      BraArgs.initial args = .ok (policy, st))
    (hparse' : parseArgs (bra trySanitize directoryIterator) trySanitize (dirOn view) (fileOn view)
      BraArgs.initial args' = .ok (policy', st'))
    (hthere : ∀ o ∈ operandsUnder false ws, IsThere view trySanitize o.2)
    (hperm : (operandsUnder false ws).Perm (operandsUnder false ws')) :
    st.files = st'.files ∧
      ∀ f, f ∈ st.files.keys ↔ SelectedBy view trySanitize (operandsUnder false ws) f := by
  have hasked : OperandPath (operandsUnder false ws') = OperandPath (operandsUnder false ws) := by
    funext f
    simp only [OperandPath, hperm.mem_iff]
  have hfiles := mem_files_iff hws hsanitize hdisk hparse
    (List.pairwise_of_forall_mem_list fun o ho _ _ => .inl (hthere o ho))
  have hfiles' := mem_files_iff hws' (hasked ▸ hsanitize) hdisk hparse'
    (List.pairwise_of_forall_mem_list fun o ho _ _ => .inl (hthere o (hperm.mem_iff.mpr ho)))
  refine ⟨OrderedSet.eq_of_mem_iff fun f => ?_, hfiles⟩
  rw [hfiles, hfiles', SelectedBy, SelectedBy]
  simp only [hperm.mem_iff]

end Disk

/-! ## An example -/

/-- A path that is normal but perhaps for a leading `"."`. -/
def sanitizeHere (f : FsPath) : Option FsPath :=
  if IsNormal f then some f
  else if [f.headD (CStr.ofBuffer [])] = dotPath ∧ IsInner f.tail then some f.tail
  else none

theorem sanitizeHere_sanitizesHere (asked : FsPath → Prop) : SanitizesHere sanitizeHere asked where
  normal f _ g h := by
    rw [sanitizeHere] at h
    split at h
    · rename_i hf
      exact Option.some.inj h ▸ hf
    · split at h
      · rename_i hf
        exact Option.some.inj h ▸ hf.2.normal
      · cases h
  normal_self g hg := if_pos hg
  dot g hg := by
    have hnot : ¬ IsNormal (dotPath ++ g) := by
      rintro (hdot | hinner)
      · exact hg.1 (List.append_right_eq_self.mp hdot)
      · exact absurd rfl (hinner.2 (CStr.ofBuffer [46]) List.mem_cons_self).2.1
    rw [sanitizeHere, if_neg hnot]
    exact if_pos ⟨rfl, hg⟩

/-- The directories of the disk with the files `a` and `d/e/b`. -/
def lettersIterator (dir : FsPath) : Listing :=
  let inner := Listing.dir (CStr.ofBuffer [101]) (.file (CStr.ofBuffer [98]) .nil) .nil
  if dir = dotPath then .file (CStr.ofBuffer [97]) (.dir (CStr.ofBuffer [100]) inner .nil)
  else if dir = [CStr.ofBuffer [100]] then inner
  else if dir = [CStr.ofBuffer [100], CStr.ofBuffer [101]] then .file (CStr.ofBuffer [98]) .nil
  else .unreadable

/-- What is there is in the plan. -/
theorem letters_path {g : FsPath} (hg : IsInner g)
    (h : dirOn (planView lettersPlan.entries) g ∨ fileOn (planView lettersPlan.entries) g) :
    g ∈ lettersPlan.entries.map PlanEntry.path := by
  have hthere := there_ne_none h
  rw [planView_eq letters_source] at hthere
  split at hthere
  · rename_i hmem
    obtain ⟨e, he, hfn⟩ := List.mem_map.mp hmem
    have hnames : ∀ e ∈ lettersPlan.entries, IsInner e.path := by decide +kernel
    have hpath := congrArg strtok hfn
    rw [PlanEntry.fn, strtok_joinPath (hnames e he).component (hnames e he).1,
      strtok_joinPath hg.component hg.1] at hpath
    exact hpath ▸ List.mem_map_of_mem he
  · exact absurd rfl hthere

/-- What the listing of each directory has, and that it has it all. -/
theorem letters_listings :
    ∀ base ∈ [] :: (lettersPlan.entries.map PlanEntry.path).filter
        (dirOn (planView lettersPlan.entries)),
      (lettersIterator (startDir base)).readable true ∧
        (∀ g ∈ (lettersIterator (startDir base)).visited true, IsInner g ∧
          (dirOn (planView lettersPlan.entries) (base ++ g) ∨
            fileOn (planView lettersPlan.entries) (base ++ g))) ∧
        (∀ g ∈ (lettersIterator (startDir base)).visited false,
          g.length = 1 ∧ IsInner g ∧ fileOn (planView lettersPlan.entries) (base ++ g)) ∧
        ∀ p ∈ lettersPlan.entries.map PlanEntry.path, base <+: p → p ≠ base →
          p.drop base.length ∈ (lettersIterator (startDir base)).visited true ∧
            ((p.drop base.length).length = 1 → fileOn (planView lettersPlan.entries) p →
              p.drop base.length ∈ (lettersIterator (startDir base)).visited false) := by
  decide +kernel

theorem letters_shows {base : FsPath} (hbase : base = [] ∨ IsInner base)
    (hdir : base = [] ∨ dirOn (planView lettersPlan.entries) base) :
    (lettersIterator (startDir base)).Shows (planView lettersPlan.entries) base := by
  have hmem : base ∈ [] :: (lettersPlan.entries.map PlanEntry.path).filter
      (dirOn (planView lettersPlan.entries)) := by
    by_cases hnil : base = []
    · exact hnil ▸ List.mem_cons_self
    · have hdir := hdir.resolve_left hnil
      exact List.mem_cons_of_mem _
        (List.mem_filter.mpr ⟨letters_path (hbase.resolve_left hnil) (.inl hdir), hdir⟩)
  obtain ⟨hreadable, hvisited, hfiles, hall⟩ := letters_listings base hmem
  have hlisted : ∀ {g}, IsInner g → dirOn (planView lettersPlan.entries) (base ++ g) ∨
      fileOn (planView lettersPlan.entries) (base ++ g) →
      base <+: base ++ g ∧ base ++ g ≠ base ∧ base ++ g ∈ lettersPlan.entries.map PlanEntry.path :=
    fun hg hthere => ⟨List.prefix_append .., fun h => hg.1 (List.append_right_eq_self.mp h),
      letters_path (hg.append hbase) hthere⟩
  refine ⟨hreadable, fun g => ⟨hvisited g, fun ⟨hg, hthere⟩ => ?_⟩,
    fun g => ⟨hfiles g, fun ⟨hlen, hg, hfile⟩ => ?_⟩⟩
  · obtain ⟨hpre, hne, hpath⟩ := hlisted hg hthere
    have h := (hall _ hpath hpre hne).1
    rwa [List.drop_left] at h
  · obtain ⟨hpre, hne, hpath⟩ := hlisted hg (.inr hfile)
    have h := (hall _ hpath hpre hne).2
    rw [List.drop_left] at h
    exact h hlen hfile

theorem letters_listsDisk : ListsDisk (planView lettersPlan.entries) lettersIterator where
  here := letters_shows (.inl rfl) (.inl rfl)
  dir base hbase hdir := by
    have h := letters_shows (.inr hbase) (.inr hdir)
    rwa [startDir, if_neg hbase.1] at h
  noDir base hbase hnot recursive := by
    have hdirs : dirOn (planView lettersPlan.entries) [CStr.ofBuffer [100]] ∧
        dirOn (planView lettersPlan.entries) [CStr.ofBuffer [100], CStr.ofBuffer [101]] := by
      decide +kernel
    have hne : base ≠ [CStr.ofBuffer [100]] := fun h => hnot (h ▸ hdirs.1)
    have hne' : base ≠ [CStr.ofBuffer [100], CStr.ofBuffer [101]] := fun h => hnot (h ▸ hdirs.2)
    rw [lettersIterator, if_neg hbase.ne_dotPath, if_neg hne, if_neg hne']
    rfl

/-- All that is below a directory of the disk. -/
theorem searchWildcard_finds_letters :
    ((searchWildcard sanitizeHere lettersIterator [CStr.ofBuffer [100], starName] .empty
        true).isSome ↔
      wildcardDir [CStr.ofBuffer [100], starName] = dotPath ∨
        dirOn (planView lettersPlan.entries) (wildcardDir [CStr.ofBuffer [100], starName])) ∧
      ∀ files, searchWildcard sanitizeHere lettersIterator [CStr.ofBuffer [100], starName] .empty
          true = some files →
        ∀ f, f ∈ files.keys ↔ f ∈ (OrderedMap.empty : OrderedSet FsPath).keys ∨
          MatchedBy (planView lettersPlan.entries) true [CStr.ofBuffer [100], starName] f :=
  searchWildcard_finds (sanitizeHere_sanitizesHere _) letters_listsDisk (by decide) (by decide) _ _

theorem letters_parsed (args : List CStr)
    (h : (match parseArgs (bra sanitizeHere lettersIterator) sanitizeHere
        (dirOn (planView lettersPlan.entries)) (fileOn (planView lettersPlan.entries))
        BraArgs.initial args with
      | .ok _ => true
      | _ => false) = true) :
    ∃ r, parseArgs (bra sanitizeHere lettersIterator) sanitizeHere
      (dirOn (planView lettersPlan.entries)) (fileOn (planView lettersPlan.entries))
      BraArgs.initial args = .ok r := by
  split at h
  · exact ⟨_, ‹_›⟩
  · cases h

/-- `-o x -r d`. -/
def lettersArgs : List CStr :=
  [CStr.ofBuffer [45, 111], CStr.ofBuffer [120], CStr.ofBuffer [45, 114], CStr.ofBuffer [100]]

theorem lettersArgs_words : readWords Bra.options.takesValue lettersArgs =
    some [.value (CStr.ofBuffer [45, 111]) (CStr.ofBuffer [120]), .flag (CStr.ofBuffer [45, 114]),
      .operand (CStr.ofBuffer [100])] := by
  decide

/-- `-o x -r d a` and `-r a -o x d`. -/
theorem bra_gathers_letters :
    ∃ r r', parseArgs (bra sanitizeHere lettersIterator) sanitizeHere
        (dirOn (planView lettersPlan.entries)) (fileOn (planView lettersPlan.entries))
        BraArgs.initial (lettersArgs ++ [CStr.ofBuffer [97]]) = .ok r ∧
      parseArgs (bra sanitizeHere lettersIterator) sanitizeHere
        (dirOn (planView lettersPlan.entries)) (fileOn (planView lettersPlan.entries))
        BraArgs.initial [CStr.ofBuffer [45, 114], CStr.ofBuffer [97], CStr.ofBuffer [45, 111],
          CStr.ofBuffer [120], CStr.ofBuffer [100]] = .ok r' ∧
      r.2.files = r'.2.files ∧
      ∀ f, f ∈ r.2.files.keys ↔ SelectedBy (planView lettersPlan.entries) sanitizeHere
        [(true, CStr.ofBuffer [100]), (true, CStr.ofBuffer [97])] f := by
  obtain ⟨⟨policy, st⟩, hparse⟩ := letters_parsed (lettersArgs ++ [CStr.ofBuffer [97]])
    (by decide +kernel)
  obtain ⟨⟨policy', st'⟩, hparse'⟩ := letters_parsed [CStr.ofBuffer [45, 114],
    CStr.ofBuffer [97], CStr.ofBuffer [45, 111], CStr.ofBuffer [120], CStr.ofBuffer [100]]
    (by decide +kernel)
  have hws : readWords Bra.options.takesValue (lettersArgs ++ [CStr.ofBuffer [97]]) =
      some [.value (CStr.ofBuffer [45, 111]) (CStr.ofBuffer [120]), .flag (CStr.ofBuffer [45, 114]),
        .operand (CStr.ofBuffer [100]), .operand (CStr.ofBuffer [97])] := by
    decide
  have hws' : readWords Bra.options.takesValue [CStr.ofBuffer [45, 114], CStr.ofBuffer [97],
      CStr.ofBuffer [45, 111], CStr.ofBuffer [120], CStr.ofBuffer [100]] =
      some [.flag (CStr.ofBuffer [45, 114]), .operand (CStr.ofBuffer [97]),
        .value (CStr.ofBuffer [45, 111]) (CStr.ofBuffer [120]), .operand (CStr.ofBuffer [100])] := by
    decide
  have hthere : ∀ o ∈ [(true, CStr.ofBuffer [100]), (true, CStr.ofBuffer [97])],
      IsThere (planView lettersPlan.entries) sanitizeHere o.2 := by
    refine List.forall_mem_cons.mpr ⟨⟨_, rfl, by decide +kernel⟩, List.forall_mem_singleton.mpr ?_⟩
    exact ⟨_, rfl, by decide +kernel⟩
  exact ⟨_, _, hparse, hparse', bra_gathers (sanitizeHere_sanitizesHere _) letters_listsDisk hws hws'
    hparse hparse' hthere (List.Perm.swap _ _ _)⟩

end BrArchive
