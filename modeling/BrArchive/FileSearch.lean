import BrArchive.PackPlan
import BrArchive.SfxName
import BrArchive.Wildcards

/-! # Searching for files

`search` and `search_wildcard` of `bra_fs.cpp`, with `wildcard_extract_dir` of
`bra_wildcards.cpp`: the packer takes a wildcard apart into a directory and a pattern, walks
the directory, and those below it if it is told to, and takes what has a name that matches.

The walk is a loop with a recursive call and an accumulator.  What it finds is a filter of a
flat list, the entries that are looked at, and this list is all that the rest needs of it.
-/
namespace BrArchive

/-! ## Directories -/

/-- What `std::filesystem::directory_iterator` goes through: regular files, directories with what
the iterator of each of them goes through, and other things.  It throws an error where a directory
is unreadable. -/
inductive Listing where
  | nil
  | unreadable
  | file (name : CStr) (entries : Listing)
  | dir (name : CStr) (sub entries : Listing)
  | other (name : CStr) (entries : Listing)
  deriving DecidableEq

namespace Listing

/-- The entries that a search looks at, as paths from its directory: what is in a directory comes
before the directory itself, and directories are left alone without `recursive`. -/
def visited (recursive : Bool) : Listing → List FsPath
  | nil | unreadable => []
  | file name entries => [name] :: visited recursive entries
  | dir name sub entries =>
    if recursive then (visited recursive sub).map (name :: ·) ++ [name] :: visited recursive entries
    else visited recursive entries
  | other _ entries => visited recursive entries

/-- No directory that a search goes through is unreadable. -/
def readable (recursive : Bool) : Listing → Bool
  | nil => true
  | unreadable => false
  | file _ entries | other _ entries => readable recursive entries
  | dir _ sub entries => (!recursive || readable recursive sub) && readable recursive entries

theorem ne_nil_of_mem_visited {recursive : Bool} {l : Listing} {g : FsPath}
    (h : g ∈ l.visited recursive) : g ≠ [] := by
  induction l generalizing g with
  | nil | unreadable => cases h
  | file name entries ih =>
    rcases List.mem_cons.mp h with rfl | h
    · exact List.cons_ne_nil name []
    · exact ih h
  | dir name sub entries _ ih =>
    rw [visited] at h
    split at h
    · rcases List.mem_append.mp h with h | h
      · obtain ⟨g, -, rfl⟩ := List.mem_map.mp h
        exact List.cons_ne_nil name g
      · rcases List.mem_cons.mp h with rfl | h
        · exact List.cons_ne_nil name []
        · exact ih h
    · exact ih h
  | other name entries ih => exact ih h

end Listing

/-! ## Wildcards -/

/-- The wildcard characters: `'?'` and `'*'`. -/
def isWildcardChar (c : UInt8) : Bool := c == 63 || c == 42

/-- `bra::wildcards::is_wildcard`. -/
def isWildcard (path : FsPath) : Bool := (joinPath path).bytes.any isWildcardChar

/-- The directory `"./"`. -/
def hereDir : Bytes := [46, 47]

/-- `bra::wildcards::wildcard_extract_dir`: the directory and what is left of the wildcard.  The
directory ends in the last delimiter before the first wildcard character. -/
def wildcardExtractDir (pathWildcard : Bytes) : Bytes × Bytes :=
  let dir := StdPath.dirPart (pathWildcard.takeWhile (!isWildcardChar ·))
  let wildcard := if pathWildcard.any isWildcardChar then pathWildcard.drop dir.length else []
  (if dir = [] then hereDir else dir, wildcard)

section Search
variable (trySanitize : FsPath → Option FsPath) (directoryIterator : FsPath → Listing)

/-- An entry whose name matches is put at the end of the list. -/
def addMatched (r : RegularExpression UInt8) (dir : FsPath) (name : CStr)
    (outFiles : List FsPath) : Option (List FsPath) :=
  if r.rmatch name.bytes then (trySanitize (dir ++ [name])).map (outFiles ++ [·])
  else some outFiles

/-- The loop of `bra::fs::search`.  A directory is searched before its own name is looked at; the
pattern is compiled again there, to the same regular expression. -/
def searchLoop (r : RegularExpression UInt8) (recursive : Bool) (dir : FsPath)
    (outFiles : List FsPath) : Listing → Option (List FsPath)
  | .nil => some outFiles
  | .unreadable => none
  | .file name entries => do
    let outFiles ← addMatched trySanitize r dir name outFiles
    searchLoop r recursive dir outFiles entries
  | .dir name sub entries =>
    if recursive then do
      let outFiles ← searchLoop r recursive (dir ++ [name]) outFiles sub
      let outFiles ← addMatched trySanitize r dir name outFiles
      searchLoop r recursive dir outFiles entries
    else searchLoop r recursive dir outFiles entries
  | .other _ entries => searchLoop r recursive dir outFiles entries

/-- `bra::fs::search`, into an empty list. -/
def search (dir : FsPath) (pattern : Bytes) (recursive : Bool) : Option (List FsPath) :=
  match (regexTokens pattern).bind parseTokens with
  | none => none
  | some r => searchLoop trySanitize r recursive dir [] (directoryIterator dir)

/-- `bra::fs::search_wildcard`. -/
def searchWildcard (wildcardPath : FsPath) (outFiles : OrderedSet FsPath) (recursive : Bool) :
    Option (OrderedSet FsPath) :=
  if !isWildcard wildcardPath then none
  else
    match trySanitize wildcardPath with
    | none => none
    | some p =>
      let (dir, wildcard) := wildcardExtractDir (joinPath p).bytes
      match search trySanitize directoryIterator (strtok (CStr.ofBuffer dir))
          (wildcardToRegexp wildcard) recursive with
      | none => none
      | some files => some (files.foldl OrderedSet.insert outFiles)

/-! ## What the loop finds -/

/-- The name of an entry matches. -/
def nameMatches (r : RegularExpression UInt8) (g : FsPath) : Bool :=
  g.getLast?.any fun name => r.rmatch name.bytes

variable {trySanitize directoryIterator}

theorem nameMatches_concat (r : RegularExpression UInt8) (g : FsPath) (name : CStr) :
    nameMatches r (g ++ [name]) = r.rmatch name.bytes := by
  rw [nameMatches, List.getLast?_concat]
  rfl

/-- What is found under these names, if all of it can be sanitized. -/
def foundAmong (trySanitize : FsPath → Option FsPath) (r : RegularExpression UInt8) (dir : FsPath)
    (gs : List FsPath) : Option (List FsPath) :=
  (gs.filter (nameMatches r)).mapM fun g => trySanitize (dir ++ g)

theorem foundAmong_append (r : RegularExpression UInt8) (dir : FsPath) (gs gs' : List FsPath) :
    foundAmong trySanitize r dir (gs ++ gs') =
      (foundAmong trySanitize r dir gs).bind fun found =>
        (foundAmong trySanitize r dir gs').map (found ++ ·) := by
  rw [foundAmong, List.filter_append, List.mapM_append]
  simp only [foundAmong, Option.bind_eq_bind, Option.pure_def, Option.map_eq_bind]
  rfl

theorem addMatched_eq (r : RegularExpression UInt8) (dir : FsPath) (name : CStr)
    (outFiles : List FsPath) :
    addMatched trySanitize r dir name outFiles =
      (foundAmong trySanitize r dir [[name]]).map (outFiles ++ ·) := by
  have hname : nameMatches r [name] = r.rmatch name.bytes := nameMatches_concat r [] name
  rw [addMatched, foundAmong]
  split
  · rename_i h
    rw [List.filter_cons_of_pos (hname.trans h), List.filter_nil, List.mapM_cons, List.mapM_nil]
    cases trySanitize (dir ++ [name]) <;> rfl
  · rename_i h
    rw [List.filter_cons_of_neg (fun h' => h (hname.symm.trans h')), List.filter_nil,
      List.mapM_nil]
    exact congrArg some (List.append_nil outFiles).symm

/-- What is found in a directory of the directory. -/
theorem foundAmong_sub (r : RegularExpression UInt8) (dir : FsPath) (name : CStr)
    {gs : List FsPath} (hgs : ∀ g ∈ gs, g ≠ []) :
    foundAmong trySanitize r dir (gs.map (name :: ·)) =
      foundAmong trySanitize r (dir ++ [name]) gs := by
  have hmatches : ∀ g ∈ gs, nameMatches r (name :: g) = nameMatches r g := fun g hg => by
    rw [nameMatches, List.getLast?_cons_of_ne_nil (hgs g hg), nameMatches]
  have hfilter : (gs.map (name :: ·)).filter (nameMatches r) =
      (gs.filter (nameMatches r)).map (name :: ·) := by
    rw [List.filter_map]
    exact congrArg _ (List.filter_congr hmatches)
  rw [foundAmong, hfilter, List.mapM_map, foundAmong]
  refine congrArg (fun f => List.mapM f _) (funext fun g => congrArg trySanitize ?_)
  exact (List.append_assoc dir [name] g).symm

/-- **The loop** goes through what is readable, and puts what it finds behind what was there. -/
theorem searchLoop_eq (r : RegularExpression UInt8) (recursive : Bool) (dir : FsPath)
    (outFiles : List FsPath) (l : Listing) :
    searchLoop trySanitize r recursive dir outFiles l =
      if l.readable recursive then
        (foundAmong trySanitize r dir (l.visited recursive)).map (outFiles ++ ·)
      else none := by
  induction l generalizing dir outFiles with
  | nil => exact congrArg some (List.append_nil outFiles).symm
  | unreadable => rfl
  | other name entries ih => exact ih dir outFiles
  | file name entries ih =>
    have hvisited : (Listing.file name entries).visited recursive =
        [[name]] ++ entries.visited recursive := rfl
    rw [searchLoop, addMatched_eq, hvisited, foundAmong_append]
    cases foundAmong trySanitize r dir [[name]] with
    | none => exact (ite_self none).symm
    | some found =>
      change searchLoop trySanitize r recursive dir (outFiles ++ found) entries = _
      rw [ih]
      cases foundAmong trySanitize r dir (entries.visited recursive) with
      | none => rfl
      | some found' =>
        simp only [Option.map_some, List.append_assoc, Listing.readable, Option.bind_some]
  | dir name sub entries ihsub ih =>
    cases recursive with
    | false => exact ih dir outFiles
    | true =>
      have hvisited : (Listing.dir name sub entries).visited true =
          (sub.visited true).map (name :: ·) ++ ([[name]] ++ entries.visited true) := rfl
      rw [searchLoop, if_pos rfl, ihsub, hvisited, foundAmong_append, foundAmong_append,
        foundAmong_sub r dir name fun g => Listing.ne_nil_of_mem_visited]
      by_cases hsub : sub.readable true
      · rw [if_pos hsub]
        cases foundAmong trySanitize r (dir ++ [name]) (sub.visited true) with
        | none => exact (ite_self none).symm
        | some inside =>
          change (addMatched trySanitize r dir name (outFiles ++ inside)).bind _ = _
          rw [addMatched_eq]
          cases foundAmong trySanitize r dir [[name]] with
          | none => exact (ite_self none).symm
          | some found =>
            change searchLoop trySanitize r true dir (outFiles ++ inside ++ found) entries = _
            rw [ih, Listing.readable, hsub]
            cases foundAmong trySanitize r dir (entries.visited true) with
            | none => rfl
            | some found' =>
              simp only [Option.map_some, List.append_assoc, Option.bind_some, Bool.true_and,
                Bool.or_true]
      · rw [if_neg hsub, Listing.readable, Bool.eq_false_of_not_eq_true hsub]
        rfl

/-! ## What a wildcard finds -/

/-- What a map that may fail makes of a list. -/
theorem mapM_eq_some {α β : Type} {f : α → Option β} {l : List α} {bs : List β}
    (h : l.mapM f = some bs) :
    (∀ a ∈ l, (f a).isSome) ∧ ∀ b, b ∈ bs ↔ ∃ a ∈ l, f a = some b := by
  induction l generalizing bs with
  | nil =>
    obtain rfl := Option.some.inj (List.mapM_nil.symm.trans h)
    simp
  | cons a l ih =>
    rw [List.mapM_cons] at h
    obtain ⟨b, hb, h⟩ := Option.bind_eq_some_iff.mp h
    obtain ⟨bs', hbs, h⟩ := Option.bind_eq_some_iff.mp h
    obtain rfl := Option.some.inj h
    obtain ⟨hsome, hmem⟩ := ih hbs
    refine ⟨List.forall_mem_cons.mpr ⟨hb ▸ rfl, hsome⟩, fun b' => ?_⟩
    rw [List.mem_cons, hmem, List.exists_mem_cons_iff, hb, Option.some.injEq, eq_comm]

/-- It fails only where the map does. -/
theorem mapM_isSome {α β : Type} {f : α → Option β} {l : List α} (h : ∀ a ∈ l, (f a).isSome) :
    (l.mapM f).isSome := by
  induction l with
  | nil => rfl
  | cons a l ih =>
    obtain ⟨ha, hl⟩ := List.forall_mem_cons.mp h
    obtain ⟨b, hb⟩ := Option.isSome_iff_exists.mp ha
    obtain ⟨bs, hbs⟩ := Option.isSome_iff_exists.mp (ih hl)
    rw [List.mapM_cons, hb, hbs]
    rfl

theorem mem_foldl_insert {α : Type} [LinearOrder α] {s : OrderedSet α} {l : List α} {b : α} :
    b ∈ (l.foldl OrderedSet.insert s).keys ↔ b ∈ s.keys ∨ b ∈ l := by
  induction l generalizing s with
  | nil => simp
  | cons a l ih =>
    rw [List.foldl_cons, ih, OrderedSet.mem_insert, List.mem_cons, or_assoc, or_left_comm]

/-- The name of an entry matches a wildcard as a shell pattern, with no line terminators but those
of the wildcard. -/
def NameMatches (w : Bytes) (g : FsPath) : Prop :=
  ∃ name ∈ g.getLast?, ShellMatch w name.bytes ∧ lineTerminators name.bytes = lineTerminators w

theorem nameMatches_wildcardRegex {w : Bytes} {g : FsPath} :
    nameMatches (wildcardRegex w) g = true ↔ NameMatches w g := by
  rw [nameMatches, Option.any_eq_true, NameMatches]
  refine exists_congr fun name => and_congr_right fun _ => ?_
  rw [RegularExpression.rmatch_iff_matches', mem_wildcardRegex, wildcardMatch_iff_shellMatch]

/-- A wildcard with a delimiter matches no name. -/
theorem not_nameMatches_of_delim {w : Bytes} (hw : braDirDelim ∈ w) {g : FsPath}
    (hg : ∀ c ∈ g, IsComponent c) : ¬ NameMatches w g := by
  rintro ⟨name, hname, hmatch, -⟩
  refine (hg name (List.mem_of_getLast? hname)).delim_free ?_
  -- every character of a wildcard but `*` and `?` is in what matches
  clear hname
  generalize name.bytes = s at hmatch
  rw [ShellMatch] at hmatch
  induction w generalizing s with
  | nil => cases hw
  | cons c w ih =>
    rw [WildcardMatch] at hmatch
    have hrest : c ≠ braDirDelim → braDirDelim ∈ w := fun hne =>
      (List.mem_cons.mp hw).resolve_left hne.symm
    split at hmatch
    · obtain ⟨covered, rest, rfl, -, hmatch⟩ := hmatch
      exact List.mem_append_right _ (ih (hrest (by rintro rfl; contradiction)) rest hmatch)
    · split at hmatch
      · obtain ⟨b, rest, rfl, -, hmatch⟩ := hmatch
        exact List.mem_cons_of_mem b (ih (hrest (by rintro rfl; contradiction)) rest hmatch)
      · obtain ⟨rest, rfl, hmatch⟩ := hmatch
        by_cases hc : c = braDirDelim
        · exact hc ▸ List.mem_cons_self
        · exact List.mem_cons_of_mem c (ih (hrest hc) rest hmatch)

theorem search_wildcardToRegexp (dir : FsPath) (w : Bytes) (recursive : Bool) :
    search trySanitize directoryIterator dir (wildcardToRegexp w) recursive =
      if (directoryIterator dir).readable recursive then
        foundAmong trySanitize (wildcardRegex w) dir ((directoryIterator dir).visited recursive)
      else none := by
  rw [search, regexTokens_wildcardToRegexp, Option.bind_some, parseTokens_charTokens]
  refine (searchLoop_eq (wildcardRegex w) recursive dir [] (directoryIterator dir)).trans ?_
  cases foundAmong trySanitize (wildcardRegex w) dir
    ((directoryIterator dir).visited recursive) <;> rfl

/-- The directory that a wildcard is searched in. -/
def wildcardDir (p : FsPath) : FsPath :=
  strtok (CStr.ofBuffer (wildcardExtractDir (joinPath p).bytes).1)

/-- What is left of a wildcard without its directory. -/
def wildcardName (p : FsPath) : Bytes := (wildcardExtractDir (joinPath p).bytes).2

theorem searchWildcard_eq {path p : FsPath} (hwild : isWildcard path)
    (hp : trySanitize path = some p) (outFiles : OrderedSet FsPath) (recursive : Bool) :
    searchWildcard trySanitize directoryIterator path outFiles recursive =
      (if (directoryIterator (wildcardDir p)).readable recursive then
        foundAmong trySanitize (wildcardRegex (wildcardName p)) (wildcardDir p)
          ((directoryIterator (wildcardDir p)).visited recursive)
      else none).map (List.foldl OrderedSet.insert outFiles) := by
  rw [searchWildcard, hwild, hp]
  change (match search trySanitize directoryIterator (wildcardDir p)
    (wildcardToRegexp (wildcardName p)) recursive with
      | none => none
      | some files => some (files.foldl OrderedSet.insert outFiles)) = _
  rw [search_wildcardToRegexp]
  split
  · rename_i h
    rw [h]
    rfl
  · rename_i h
    rw [h]
    rfl

/-- **What a search finds**: of the entries it looks at, those whose names match the wildcard. -/
theorem mem_searchWildcard {path p : FsPath} (hp : trySanitize path = some p)
    {outFiles files : OrderedSet FsPath} {recursive : Bool}
    (h : searchWildcard trySanitize directoryIterator path outFiles recursive = some files)
    (f : FsPath) :
    f ∈ files.keys ↔ f ∈ outFiles.keys ∨
      ∃ g ∈ (directoryIterator (wildcardDir p)).visited recursive,
        NameMatches (wildcardName p) g ∧ trySanitize (wildcardDir p ++ g) = some f := by
  have hwild : isWildcard path := by
    by_contra hnot
    rw [searchWildcard, Bool.eq_false_of_not_eq_true hnot] at h
    cases h
  rw [searchWildcard_eq hwild hp] at h
  obtain ⟨found, hfound, rfl⟩ := Option.map_eq_some_iff.mp h
  split at hfound
  · rw [mem_foldl_insert, (mapM_eq_some hfound).2]
    simp only [List.mem_filter, nameMatches_wildcardRegex, and_assoc]
  · cases hfound

/-- **When a search succeeds**: nothing it goes through is unreadable, and everything it finds can
be sanitized. -/
theorem searchWildcard_isSome_iff {path p : FsPath} (hwild : isWildcard path)
    (hp : trySanitize path = some p) (outFiles : OrderedSet FsPath) (recursive : Bool) :
    (searchWildcard trySanitize directoryIterator path outFiles recursive).isSome ↔
      (directoryIterator (wildcardDir p)).readable recursive ∧
        ∀ g ∈ (directoryIterator (wildcardDir p)).visited recursive,
          NameMatches (wildcardName p) g → (trySanitize (wildcardDir p ++ g)).isSome := by
  rw [searchWildcard_eq hwild hp, Option.isSome_map]
  split
  · rename_i hreadable
    rw [and_iff_right hreadable]
    constructor
    · intro hsome g hg hname
      obtain ⟨found, hfound⟩ := Option.isSome_iff_exists.mp hsome
      exact (mapM_eq_some hfound).1 g
        (List.mem_filter.mpr ⟨hg, nameMatches_wildcardRegex.mpr hname⟩)
    · intro hall
      refine mapM_isSome fun g hg => ?_
      obtain ⟨hg, hname⟩ := List.mem_filter.mp hg
      exact hall g hg (nameMatches_wildcardRegex.mp hname)
  · rename_i hreadable
    exact iff_of_false Bool.false_ne_true fun h => hreadable h.1

/-! ## Taking a wildcard apart -/

section Wildcard
variable {base : FsPath} {w : CStr}

/-- The path of a directory where a search starts. -/
def startDir (base : FsPath) : FsPath := if base = [] then dotPath else base

theorem any_isWildcardChar_joinPath (p : FsPath) :
    isWildcard p = p.any fun c => c.bytes.any isWildcardChar := by
  rw [isWildcard]
  induction p with
  | nil => rfl
  | cons c p ih =>
    cases p with
    | nil => simp [joinPath]
    | cons c' p =>
      have hbytes : (joinPath (c :: c' :: p)).bytes =
          c.bytes ++ [braDirDelim] ++ (joinPath (c' :: p)).bytes := by
        simp only [joinPath, List.map_cons, List.intercalate_cons_cons]
      rw [hbytes, List.any_append, ih, List.any_append, List.any_cons]
      simp [isWildcardChar, braDirDelim]

theorem takeWhile_delimited (hbase : ∀ c ∈ base, c.bytes.any isWildcardChar = false) (s : Bytes) :
    (delimited base ++ s).takeWhile (!isWildcardChar ·) =
      delimited base ++ s.takeWhile (!isWildcardChar ·) := by
  refine List.takeWhile_append_of_pos fun b hb => ?_
  obtain ⟨c, hc, hb⟩ := List.mem_flatMap.mp hb
  rcases List.mem_append.mp hb with hb | hb
  · exact congrArg (!·) (Bool.eq_false_of_not_eq_true (List.any_eq_false.mp (hbase c hc) b hb))
  · obtain rfl := List.mem_singleton.mp hb
    rfl

theorem dirPart_delimited (base : FsPath) : StdPath.dirPart (delimited base) = delimited base := by
  obtain rfl | ⟨init, c, rfl⟩ := List.eq_nil_or_concat' base
  · rfl
  · rw [delimited_append_singleton, StdPath.dirPart, List.rdropWhile_concat_neg]
    simp

/-- Before the first wildcard character of a name there is nothing but the name. -/
theorem takeWhile_name (hwild : w.bytes.any isWildcardChar) (rest : Bytes) :
    (w.bytes ++ rest).takeWhile (!isWildcardChar ·) = w.bytes.takeWhile (!isWildcardChar ·) := by
  rw [List.takeWhile_append, if_neg]
  intro hlen
  have hall := List.takeWhile_eq_self_iff.mp ((List.takeWhile_prefix _).eq_of_length hlen)
  obtain ⟨b, hb, hbw⟩ := List.any_eq_true.mp hwild
  exact absurd (hall b hb) (by rw [hbw]; exact Bool.false_ne_true)

/-- **The directory** is what comes before the first name with a wildcard character. -/
theorem wildcardExtractDir_eq (hbase : ∀ c ∈ base, c.bytes.any isWildcardChar = false)
    (hw : braDirDelim ∉ w.bytes) (hwild : w.bytes.any isWildcardChar) (rest : Bytes) :
    wildcardExtractDir (delimited base ++ (w.bytes ++ rest)) =
      (if base = [] then hereDir else delimited base, w.bytes ++ rest) := by
  have hdir : StdPath.dirPart
      ((delimited base ++ (w.bytes ++ rest)).takeWhile (!isWildcardChar ·)) = delimited base := by
    rw [takeWhile_delimited hbase, takeWhile_name hwild, StdPath.dirPart_append, dirPart_delimited]
    exact fun hmem => hw ((List.takeWhile_prefix _).subset hmem)
  have hany : (delimited base ++ (w.bytes ++ rest)).any isWildcardChar = true := by
    rw [List.any_append, List.any_append, hwild, Bool.true_or, Bool.or_true]
  have hnil : delimited base = [] ↔ base = [] := by
    cases base with
    | nil => exact iff_of_true rfl rfl
    | cons c base => simp [delimited]
  rw [wildcardExtractDir, hdir, if_pos hany, List.drop_left]
  exact congrArg (·, w.bytes ++ rest) (if_congr hnil rfl rfl)

/-- The bytes of a path around one of its names. -/
theorem joinPath_split (base : FsPath) (w : CStr) (rest : List CStr) :
    (joinPath (base ++ w :: rest)).bytes = delimited base ++ (w.bytes ++
      if rest = [] then [] else [braDirDelim] ++ (joinPath rest).bytes) := by
  obtain rfl | ⟨init, c, rfl⟩ := List.eq_nil_or_concat' rest
  · rw [joinPath_append_singleton, if_pos rfl, List.append_nil]
  · have hassoc : base ++ w :: (init ++ [c]) = (base ++ w :: init) ++ [c] := by simp
    rw [hassoc, joinPath_append_singleton, if_neg (by simp), joinPath_append_singleton]
    simp [delimited]

theorem wildcardDir_eq (hcomps : ∀ c ∈ base, IsComponent c)
    (hbase : ∀ c ∈ base, c.bytes.any isWildcardChar = false) (hw : IsComponent w)
    (hwild : w.bytes.any isWildcardChar) (rest : List CStr) :
    wildcardDir (base ++ w :: rest) = startDir base := by
  rw [wildcardDir, joinPath_split, wildcardExtractDir_eq hbase hw.delim_free hwild, startDir]
  split
  · change strtok (CStr.ofBuffer hereDir) = dotPath
    decide
  · exact strtok_delimited hcomps ‹_› (cString_eq_self (delimited_nul_free base))

theorem wildcardName_eq (hbase : ∀ c ∈ base, c.bytes.any isWildcardChar = false)
    (hw : IsComponent w) (hwild : w.bytes.any isWildcardChar) (rest : List CStr) :
    wildcardName (base ++ w :: rest) =
      w.bytes ++ if rest = [] then [] else [braDirDelim] ++ (joinPath rest).bytes := by
  rw [wildcardName, joinPath_split, wildcardExtractDir_eq hbase hw.delim_free hwild]

end Wildcard

end Search

end BrArchive
