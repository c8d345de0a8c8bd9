import BrArchive.Defs
import Mathlib.Computability.RegularExpressions

/-! # Wildcards

`wildcard_to_regexp` of `bra_wildcards.cpp` turns a wildcard into a regular expression, which
`std::regex` reads in the ECMAScript grammar.  The regular expression matches what the wildcard
matches as a shell pattern, except that `.` matches no line terminator.
-/
namespace BrArchive
open RegularExpression

/-- `bra::wildcards::wildcard_to_regexp`, one character. -/
def charToRegexp (c : UInt8) : Bytes :=
  if c = 42 then [46, 42]
  else if c = 63 then [46]
  else if c ∈ [46, 94, 36, 40, 41, 91, 93, 123, 125, 124, 43, 92] then [92, c]
  else [c]

/-- `bra::wildcards::wildcard_to_regexp`. -/
def wildcardToRegexp (wildcard : Bytes) : Bytes :=
  wildcard.foldl (fun regex c => regex ++ charToRegexp c) []

/-! ## Regular expressions of the ECMAScript grammar -/

/-- What a regular expression is made of, without groups, brackets, alternatives, anchors, and
counted or lazy repetitions. -/
inductive RegexToken where
  | any
  | lit (c : UInt8)
  | star
  | plus
  | opt
  deriving DecidableEq, Repr

/-- `SyntaxCharacter`: those that stand for themselves only behind a backslash. -/
def syntaxCharacters : Bytes := [94, 36, 92, 46, 42, 43, 63, 40, 41, 91, 93, 123, 125, 124]

/-- The tokens of a regular expression. -/
def regexTokens : Bytes → Option (List RegexToken)
  | [] => some []
  | c :: s =>
    if c = 92 then
      match s with
      | [] => none
      | d :: s => if d ∈ syntaxCharacters then (regexTokens s).map (.lit d :: ·) else none
    else if c = 46 then (regexTokens s).map (.any :: ·)
    else if c = 42 then (regexTokens s).map (.star :: ·)
    else if c = 43 then (regexTokens s).map (.plus :: ·)
    else if c = 63 then (regexTokens s).map (.opt :: ·)
    else if c ∈ syntaxCharacters then none
    else (regexTokens s).map (.lit c :: ·)

/-- The line terminators among the bytes: line feed and carriage return. -/
def isLineTerminator (b : UInt8) : Bool := b == 10 || b == 13

/-- One of these characters. -/
def oneOf (chars : Bytes) : RegularExpression UInt8 := (chars.map char).foldr (· + ·) 0

/-- `.`: any character except line terminators. -/
def dotRegex : RegularExpression UInt8 := oneOf (alphabet.filter (!isLineTerminator ·))

/-- What a token stands for that can be repeated. -/
def RegexToken.atom : RegexToken → Option (RegularExpression UInt8)
  | any => some dotRegex
  | lit c => some (char c)
  | _ => none

/-- One atom after the other, each perhaps with a quantifier. -/
def parseTokens : List RegexToken → Option (RegularExpression UInt8)
  | [] => some 1
  | t :: ts =>
    t.atom.bind fun a =>
      match ts with
      | .star :: ts => (parseTokens ts).map (a.star * ·)
      | .plus :: ts => (parseTokens ts).map (a * a.star * ·)
      | .opt :: ts => (parseTokens ts).map ((1 + a) * ·)
      | ts => (parseTokens ts).map (a * ·)

/-- `std::regex_match` of a string and a regular expression; there is none outside of this
part of the grammar. -/
def regexMatch (s regex : Bytes) : Option Bool :=
  ((regexTokens regex).bind parseTokens).map (·.rmatch s)

/-! ## Shell patterns -/

/-- The wildcard matches the string, where `'*'` and `'?'` only stand for bytes in `P`. -/
def WildcardMatch (P : UInt8 → Prop) : Bytes → Bytes → Prop
  | [], s => s = []
  | c :: w, s =>
    if c = 42 then ∃ covered rest, s = covered ++ rest ∧ (∀ b ∈ covered, P b) ∧ WildcardMatch P w rest
    else if c = 63 then ∃ b rest, s = b :: rest ∧ P b ∧ WildcardMatch P w rest
    else ∃ rest, s = c :: rest ∧ WildcardMatch P w rest

/-- The string matches the wildcard as a shell pattern. -/
def ShellMatch (w s : Bytes) : Prop := WildcardMatch (fun _ => True) w s

/-- How many line terminators there are. -/
def lineTerminators (s : Bytes) : Nat := s.countP isLineTerminator

theorem lineTerminators_cons (b : UInt8) (s : Bytes) :
    lineTerminators (b :: s) = lineTerminators s + if isLineTerminator b then 1 else 0 :=
  List.countP_cons

theorem lineTerminators_append (s s' : Bytes) :
    lineTerminators (s ++ s') = lineTerminators s + lineTerminators s' := List.countP_append

/-- Characters that are none do not count. -/
theorem lineTerminators_cons_of_not {b : UInt8} (h : isLineTerminator b = false) (s : Bytes) :
    lineTerminators (b :: s) = lineTerminators s := by
  rw [lineTerminators_cons, h]
  rfl

theorem lineTerminators_eq_zero_iff (s : Bytes) :
    lineTerminators s = 0 ↔ ∀ b ∈ s, isLineTerminator b = false := by
  simp [lineTerminators]

/-- A string that matches has the line terminators of the wildcard, and those that its wildcard
characters stand for. -/
theorem WildcardMatch.lineTerminators_le {P : UInt8 → Prop} {w s : Bytes}
    (h : WildcardMatch P w s) : lineTerminators w ≤ lineTerminators s := by
  induction w generalizing s with
  | nil => exact Nat.zero_le _
  | cons c w ih =>
    rw [WildcardMatch] at h
    split at h
    · rename_i hc
      obtain ⟨covered, rest, rfl, -, hrest⟩ := h
      rw [lineTerminators_cons_of_not (hc ▸ rfl), lineTerminators_append]
      exact Nat.le_add_left_of_le (ih hrest)
    · split at h
      · rename_i hc
        obtain ⟨b, rest, rfl, -, hrest⟩ := h
        rw [lineTerminators_cons_of_not (hc ▸ rfl), lineTerminators_cons]
        exact Nat.le_add_right_of_le (ih hrest)
      · obtain ⟨rest, rfl, hrest⟩ := h
        rw [lineTerminators_cons, lineTerminators_cons]
        exact Nat.add_le_add_right (ih hrest) _

/-- **Wildcards that stand for no line terminator**: that is how a string matches if it has
just the line terminators of the wildcard. -/
theorem wildcardMatch_iff_shellMatch (w s : Bytes) :
    WildcardMatch (fun b => isLineTerminator b = false) w s ↔
      ShellMatch w s ∧ lineTerminators s = lineTerminators w := by
  rw [ShellMatch]
  induction w generalizing s with
  | nil =>
    rw [WildcardMatch, WildcardMatch]
    exact ⟨fun h => ⟨h, by rw [h]⟩, fun h => h.1⟩
  | cons c w ih =>
    rw [WildcardMatch, WildcardMatch]
    by_cases hstar : c = 42
    · rw [if_pos hstar, if_pos hstar, lineTerminators_cons_of_not (hstar ▸ rfl)]
      constructor
      · rintro ⟨covered, rest, rfl, hcovered, hrest⟩
        obtain ⟨hmatch, heq⟩ := (ih rest).mp hrest
        refine ⟨⟨covered, rest, rfl, fun _ _ => trivial, hmatch⟩, ?_⟩
        rw [lineTerminators_append, (lineTerminators_eq_zero_iff covered).mpr hcovered, heq,
          Nat.zero_add]
      · rintro ⟨⟨covered, rest, rfl, -, hmatch⟩, heq⟩
        -- what is left of the string has all the line terminators there are
        have hle := hmatch.lineTerminators_le
        rw [lineTerminators_append] at heq
        have hnone : lineTerminators covered = 0 := by omega
        exact ⟨covered, rest, rfl, (lineTerminators_eq_zero_iff covered).mp hnone,
          (ih rest).mpr ⟨hmatch, by omega⟩⟩
    · rw [if_neg hstar, if_neg hstar]
      by_cases hany : c = 63
      · rw [if_pos hany, if_pos hany, lineTerminators_cons_of_not (hany ▸ rfl)]
        constructor
        · rintro ⟨b, rest, rfl, hb, hrest⟩
          obtain ⟨hmatch, heq⟩ := (ih rest).mp hrest
          exact ⟨⟨b, rest, rfl, trivial, hmatch⟩,
            (lineTerminators_cons_of_not hb rest).trans heq⟩
        · rintro ⟨⟨b, rest, rfl, -, hmatch⟩, heq⟩
          have hle := hmatch.lineTerminators_le
          rw [lineTerminators_cons] at heq
          cases hb : isLineTerminator b with
          | true =>
            rw [hb, if_pos rfl] at heq
            omega
          | false =>
            rw [hb, if_neg Bool.false_ne_true] at heq
            exact ⟨b, rest, rfl, hb, (ih rest).mpr ⟨hmatch, heq⟩⟩
      · rw [if_neg hany, if_neg hany]
        constructor
        · rintro ⟨rest, rfl, hrest⟩
          obtain ⟨hmatch, heq⟩ := (ih rest).mp hrest
          exact ⟨⟨rest, rfl, hmatch⟩, by rw [lineTerminators_cons, lineTerminators_cons, heq]⟩
        · rintro ⟨⟨rest, rfl, hmatch⟩, heq⟩
          rw [lineTerminators_cons, lineTerminators_cons] at heq
          exact ⟨rest, rfl, (ih rest).mpr ⟨hmatch, Nat.add_right_cancel heq⟩⟩

/-! ## The regular expression of a wildcard -/

/-- The tokens that a character of a wildcard becomes. -/
def charTokens (c : UInt8) : List RegexToken :=
  if c = 42 then [.any, .star] else if c = 63 then [.any] else [.lit c]

/-- The regular expression that a wildcard becomes. -/
def wildcardRegex : Bytes → RegularExpression UInt8
  | [] => 1
  | c :: w =>
    if c = 42 then dotRegex.star * wildcardRegex w
    else if c = 63 then dotRegex * wildcardRegex w
    else char c * wildcardRegex w

theorem wildcardToRegexp_eq (w : Bytes) : wildcardToRegexp w = w.flatMap charToRegexp := by
  have hloop : ∀ regex : Bytes, w.foldl (fun regex c => regex ++ charToRegexp c) regex =
      regex ++ w.flatMap charToRegexp := by
    induction w with
    | nil => exact fun regex => (List.append_nil regex).symm
    | cons c w ih =>
      intro regex
      rw [List.foldl_cons, ih, List.append_assoc, List.flatMap_cons]
  exact hloop []

/-- A character that is not behind a backslash. -/
theorem regexTokens_cons {c : UInt8} (h : c ≠ 92) (s : Bytes) :
    regexTokens (c :: s) =
      if c = 46 then (regexTokens s).map (.any :: ·)
      else if c = 42 then (regexTokens s).map (.star :: ·)
      else if c = 43 then (regexTokens s).map (.plus :: ·)
      else if c = 63 then (regexTokens s).map (.opt :: ·)
      else if c ∈ syntaxCharacters then none
      else (regexTokens s).map (.lit c :: ·) := by
  rw [regexTokens.eq_def]
  exact if_neg h

/-- **One character** is read as its tokens, whatever comes after it. -/
theorem regexTokens_charToRegexp (c : UInt8) (s : Bytes) :
    regexTokens (charToRegexp c ++ s) = (regexTokens s).map (charTokens c ++ ·) := by
  rw [charToRegexp, charTokens]
  split
  · change regexTokens (46 :: 42 :: s) = _
    rw [regexTokens_cons (by decide), if_pos rfl, regexTokens_cons (by decide),
      if_neg (by decide), if_pos rfl, Option.map_map]
    rfl
  · rename_i hstar
    split
    · change regexTokens (46 :: s) = _
      rw [regexTokens_cons (by decide), if_pos rfl]
      rfl
    · rename_i hany
      split
      · -- an escaped character
        rename_i hspecial
        have hsyntax : c ∈ syntaxCharacters := by
          revert hspecial
          simp only [syntaxCharacters, List.mem_cons, List.not_mem_nil]
          tauto
        change regexTokens (92 :: c :: s) = _
        rw [regexTokens, if_pos rfl, if_pos hsyntax]
        rfl
      · -- what is not escaped means nothing to the regular expression
        rename_i hplain
        have hplain' : c ∉ syntaxCharacters := by
          revert hplain
          simp only [syntaxCharacters, List.mem_cons, List.not_mem_nil]
          tauto
        have hne : ∀ d ∈ syntaxCharacters, c ≠ d := fun d hd h => hplain' (h ▸ hd)
        change regexTokens (c :: s) = _
        rw [regexTokens_cons (hne _ (by decide)), if_neg (hne _ (by decide)), if_neg hstar,
          if_neg (hne _ (by decide)), if_neg hany, if_neg hplain']
        rfl

theorem regexTokens_wildcardToRegexp (w : Bytes) :
    regexTokens (wildcardToRegexp w) = some (w.flatMap charTokens) := by
  rw [wildcardToRegexp_eq]
  induction w with
  | nil => rfl
  | cons c w ih =>
    rw [List.flatMap_cons, regexTokens_charToRegexp, ih, Option.map_some, List.flatMap_cons]

/-- An atom without a quantifier behind it. -/
theorem parseTokens_atom {t : RegexToken} {a : RegularExpression UInt8} (ht : t.atom = some a)
    {ts : List RegexToken} (hts : ∀ q ∈ ts.head?, q.atom ≠ none) :
    parseTokens (t :: ts) = (parseTokens ts).map (a * ·) := by
  rw [parseTokens.eq_def]
  dsimp only
  rw [ht, Option.bind_some]
  cases ts with
  | nil => rfl
  | cons q ts =>
    cases q with
    | any => rfl
    | lit c => rfl
    | star => exact absurd rfl (hts .star rfl)
    | plus => exact absurd rfl (hts .plus rfl)
    | opt => exact absurd rfl (hts .opt rfl)

/-- No character of a wildcard becomes a quantifier of what is before it. -/
theorem head_charTokens (w : Bytes) : ∀ q ∈ (w.flatMap charTokens).head?, q.atom ≠ none := by
  intro q hq
  cases w with
  | nil => cases hq
  | cons c w =>
    rw [List.flatMap_cons, charTokens] at hq
    split at hq
    · obtain rfl := Option.some.inj hq
      exact Option.some_ne_none _
    · split at hq
      · obtain rfl := Option.some.inj hq
        exact Option.some_ne_none _
      · obtain rfl := Option.some.inj hq
        exact Option.some_ne_none _

theorem parseTokens_charTokens (w : Bytes) :
    parseTokens (w.flatMap charTokens) = some (wildcardRegex w) := by
  induction w with
  | nil => rfl
  | cons c w ih =>
    rw [List.flatMap_cons, charTokens, wildcardRegex]
    split
    · change parseTokens (.any :: .star :: w.flatMap charTokens) = _
      rw [parseTokens.eq_def]
      change (parseTokens (w.flatMap charTokens)).map _ = _
      rw [ih]
      rfl
    · split
      · refine (parseTokens_atom (t := .any) rfl (head_charTokens w)).trans ?_
        rw [ih]
        rfl
      · refine (parseTokens_atom (t := .lit c) rfl (head_charTokens w)).trans ?_
        rw [ih]
        rfl

/-! ## What it matches -/

theorem mem_oneOf {chars s : Bytes} :
    s ∈ (oneOf chars).matches' ↔ ∃ c ∈ chars, s = [c] := by
  induction chars with
  | nil => simp [oneOf]
  | cons c chars ih =>
    rw [oneOf] at ih
    rw [oneOf, List.map_cons, List.foldr_cons, matches'_add, Language.mem_add, ih, matches'_char,
      List.exists_mem_cons_iff]
    rfl

/-- `.` -/
theorem mem_dotRegex {s : Bytes} :
    s ∈ dotRegex.matches' ↔ ∃ b, isLineTerminator b = false ∧ s = [b] := by
  rw [dotRegex, mem_oneOf]
  simp only [List.mem_filter, mem_alphabet, true_and, Bool.not_eq_true']

/-- `.*` -/
theorem mem_dotRegex_star {s : Bytes} :
    s ∈ dotRegex.star.matches' ↔ ∀ b ∈ s, isLineTerminator b = false := by
  rw [matches'_star, Language.mem_kstar]
  constructor
  · rintro ⟨parts, rfl, hparts⟩ b hb
    obtain ⟨part, hpart, hb⟩ := List.mem_flatten.mp hb
    obtain ⟨c, hc, rfl⟩ := mem_dotRegex.mp (hparts part hpart)
    rwa [List.mem_singleton.mp hb]
  · intro hs
    refine ⟨s.map fun b => [b], ?_, fun part hpart => ?_⟩
    · induction s with
      | nil => rfl
      | cons b s ih =>
        rw [List.map_cons, List.flatten_cons, ← ih fun c hc => hs c (List.mem_cons_of_mem b hc)]
        rfl
    · obtain ⟨b, hb, rfl⟩ := List.mem_map.mp hpart
      exact mem_dotRegex.mpr ⟨b, hs b hb, rfl⟩

/-- **The regular expression** matches what the wildcard does without line terminators. -/
theorem mem_wildcardRegex {w s : Bytes} :
    s ∈ (wildcardRegex w).matches' ↔
      WildcardMatch (fun b => isLineTerminator b = false) w s := by
  induction w generalizing s with
  | nil =>
    rw [wildcardRegex, WildcardMatch, matches'_epsilon]
    exact Language.mem_one s
  | cons c w ih =>
    rw [wildcardRegex, WildcardMatch]
    split
    · rw [matches'_mul, Language.mem_mul]
      constructor
      · rintro ⟨covered, hcovered, rest, hrest, rfl⟩
        exact ⟨covered, rest, rfl, mem_dotRegex_star.mp hcovered, ih.mp hrest⟩
      · rintro ⟨covered, rest, rfl, hcovered, hrest⟩
        exact ⟨covered, mem_dotRegex_star.mpr hcovered, rest, ih.mpr hrest, rfl⟩
    · split
      · rw [matches'_mul, Language.mem_mul]
        constructor
        · rintro ⟨one, hone, rest, hrest, rfl⟩
          obtain ⟨b, hb, rfl⟩ := mem_dotRegex.mp hone
          exact ⟨b, rest, rfl, hb, ih.mp hrest⟩
        · rintro ⟨b, rest, rfl, hb, hrest⟩
          exact ⟨[b], mem_dotRegex.mpr ⟨b, hb, rfl⟩, rest, ih.mpr hrest, rfl⟩
      · rw [matches'_mul, Language.mem_mul, matches'_char]
        constructor
        · rintro ⟨one, rfl, rest, hrest, rfl⟩
          exact ⟨rest, rfl, ih.mp hrest⟩
        · rintro ⟨rest, rfl, hrest⟩
          exact ⟨[c], rfl, rest, ih.mpr hrest, rfl⟩

/-- **The translation**: reading the regular expression never fails, and it matches what the
wildcard does without line terminators. -/
theorem regexMatch_wildcardToRegexp (w s : Bytes) :
    (regexMatch s (wildcardToRegexp w)).isSome = true ∧
      (regexMatch s (wildcardToRegexp w) = some true ↔
        WildcardMatch (fun b => isLineTerminator b = false) w s) := by
  rw [regexMatch, regexTokens_wildcardToRegexp, Option.bind_some, parseTokens_charTokens,
    Option.map_some, Option.some_inj, rmatch_iff_matches', mem_wildcardRegex]
  exact ⟨rfl, Iff.rfl⟩

/-- **Wildcard translation.**  For every wildcard and every string: the regular expression
matches as the wildcard does as a shell pattern, exactly if the string, should it match, has no
line terminators but those of the wildcard. -/
theorem regexMatch_iff_shellMatch (w s : Bytes) :
    (regexMatch s (wildcardToRegexp w) = some true ↔ ShellMatch w s) ↔
      (ShellMatch w s → lineTerminators s = lineTerminators w) := by
  rw [(regexMatch_wildcardToRegexp w s).2, wildcardMatch_iff_shellMatch]
  tauto

/-- `*` and the file name `a`, line feed, `b`. -/
theorem line_feed_not_matched :
    ShellMatch [42] [97, 10, 98] ∧
      regexMatch [97, 10, 98] (wildcardToRegexp [42]) ≠ some true := by
  refine ⟨⟨[97, 10, 98], [], rfl, fun _ _ => trivial, rfl⟩, ?_⟩
  rw [ne_eq, (regexMatch_wildcardToRegexp _ _).2, wildcardMatch_iff_shellMatch]
  exact fun h => absurd h.2 (by decide)

end BrArchive
