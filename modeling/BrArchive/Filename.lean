import BrArchive.Defs
import BrArchive.PathWalk

/-! # The file name check

`_bra_validate_filename` is the only gate between the names of an archive and the
file system.  It tests the whole string: a leading separator or drive letter, the
substrings `/../` and `\..\`, and the prefixes `../` and `..\`.  Whether a name
stays inside the output directory is a matter of its components, `..` going up one
level.  The two agree except at the `..` components the tests miss: the only one,
the last one, and one between two different separators.
-/
namespace BrArchive
open PathWalk

/-- `strstr(hay, needle) != NULL`. -/
def strstr : Bytes → Bytes → Bool
  | [], needle => needle.isPrefixOf []
  | b :: hay, needle => needle.isPrefixOf (b :: hay) || strstr hay needle

/-- `fn[i]`, the terminating NUL included. -/
def charAt (fn : Bytes) (i : Nat) : UInt8 := fn.getD i 0

/-- `_bra_validate_filename` on the C string `fn`. -/
def braValidateFilename (fn : Bytes) (fnSize : Nat) : Bool :=
  if charAt fn 0 == braDirDelim || charAt fn 0 == 92 ||
      (decide (2 ≤ fnSize) && (charAt fn 1 == 58 &&
        ((decide (65 ≤ charAt fn 0) && decide (charAt fn 0 ≤ 90)) ||
          (decide (97 ≤ charAt fn 0) && decide (charAt fn 0 ≤ 122))))) then
    false
  else if strstr fn [47, 46, 46, 47] || strstr fn [92, 46, 46, 92] ||
      [46, 46, 47].isPrefixOf fn || [46, 46, 92].isPrefixOf fn then
    false
  else
    true

/-! ## Paths -/

/-- `'/'` and `'\\'`, the separators the check knows. -/
def isSeparator (b : UInt8) : Bool := b == 47 || b == 92

/-- The component `..`. -/
def dotDot : Bytes := [46, 46]

/-- The components of a path, cut at every separator. -/
def pathComponents (fn : Bytes) : List Bytes := fn.splitOnP isSeparator

/-- `..` goes up one level, `.` and the empty component stay, any other component
goes down one. -/
def pathMove (c : Bytes) : Move :=
  if c = dotDot then .up else if c = [] ∨ c = [46] then .stay else .down

/-- Absolute on POSIX, or on Windows: a leading separator or a drive letter. -/
def IsAbsolute (fn : Bytes) : Prop :=
  (∃ b r, fn = b :: r ∧ isSeparator b = true) ∨
    ∃ b r, fn = b :: 58 :: r ∧ ((65 ≤ b ∧ b ≤ 90) ∨ (97 ≤ b ∧ b ≤ 122))

/-- Walking the components from the output directory never goes above it. -/
def Confined (fn : Bytes) : Prop := StaysBelow pathMove 0 (pathComponents fn)

/-- What the check is for: the name is relative and confined. -/
def Safe (fn : Bytes) : Prop := ¬ IsAbsolute fn ∧ Confined fn

/-- The `..` components that none of the tests matches do no harm: the name is not
`..` itself, and before each `..` that ends the name or stands between two
different separators the components going down outnumber those going up. -/
def MissedDotDotsCovered (fn : Bytes) : Prop :=
  fn ≠ dotDot ∧
    ∀ l s r, isSeparator s = true → fn = l ++ s :: (dotDot ++ r) →
      (r = [] ∨ ∃ s' r', r = s' :: r' ∧ isSeparator s' = true ∧ s' ≠ s) →
        ups pathMove (pathComponents l) < downs pathMove (pathComponents l)

/-! ## What the tests say -/

theorem strstr_iff (hay needle : Bytes) : strstr hay needle = true ↔ needle <:+: hay := by
  induction hay with
  | nil => simp [strstr, List.isPrefixOf_iff_prefix]
  | cons b hay ih =>
    rw [strstr, Bool.or_eq_true, ih, List.isPrefixOf_iff_prefix, List.infix_cons_iff]

theorem isSeparator_iff (b : UInt8) : isSeparator b = true ↔ b = 47 ∨ b = 92 := by
  simp [isSeparator]

theorem pathMove_eq_up_iff (c : Bytes) : pathMove c = .up ↔ c = dotDot := by
  unfold pathMove
  split
  · simpa
  · split <;> simp [*]

theorem charAt_zero_iff {b : UInt8} (hb : b ≠ 0) (fn : Bytes) :
    (charAt fn 0 == b) = true ↔ [b] <+: fn := by
  rw [beq_iff_eq, charAt]
  cases fn with
  | nil => exact iff_of_false hb.symm (fun h => by simpa using h.length_le)
  | cons c r => exact ⟨fun h => ⟨r, h ▸ rfl⟩, fun h => (List.cons_prefix_cons.mp h).1.symm⟩

/-- A name the check accepts is not absolute. -/
theorem not_isAbsolute_of_accepted {fn : Bytes}
    (h : braValidateFilename fn fn.length = true) : ¬ IsAbsolute fn := by
  unfold braValidateFilename at h
  rintro (⟨b, r, rfl, hb⟩ | ⟨b, r, rfl, hb⟩)
  · rcases (isSeparator_iff b).mp hb with rfl | rfl <;> simp [charAt, braDirDelim] at h
  · rcases hb with ⟨h1, h2⟩ | ⟨h1, h2⟩ <;> simp [charAt, h1, h2] at h

/-- A name the check accepts has no `..` with the same separator on both sides. -/
theorem not_infix_of_accepted {fn : Bytes} (h : braValidateFilename fn fn.length = true)
    {s : UInt8} (hs : isSeparator s = true) : ¬ s :: (dotDot ++ [s]) <:+: fn := by
  intro hin
  unfold braValidateFilename at h
  split at h
  · cases h
  · rcases (isSeparator_iff s).mp hs with rfl | rfl
    · simp [(strstr_iff fn [47, 46, 46, 47]).mpr hin] at h
    · simp [(strstr_iff fn [92, 46, 46, 92]).mpr hin] at h

/-- A name the check accepts does not begin with `..` and a separator. -/
theorem not_prefix_of_accepted {fn : Bytes} (h : braValidateFilename fn fn.length = true)
    {s : UInt8} (hs : isSeparator s = true) : ¬ dotDot ++ [s] <+: fn := by
  intro hin
  unfold braValidateFilename at h
  split at h
  · cases h
  · rcases (isSeparator_iff s).mp hs with rfl | rfl
    · simp [List.isPrefixOf_iff_prefix.mpr (show [46, 46, 47] <+: fn from hin)] at h
    · simp [List.isPrefixOf_iff_prefix.mpr (show [46, 46, 92] <+: fn from hin)] at h

/-! ## Accepted and confined -/

/-- In an accepted name, every `..` component is one that `MissedDotDotsCovered`
speaks of. -/
theorem confined_of_covered {fn : Bytes} (hacc : braValidateFilename fn fn.length = true)
    (hcov : MissedDotDotsCovered fn) : Confined fn := by
  obtain ⟨hne, hcov⟩ := hcov
  refine (staysBelow_iff pathMove 0 _).mpr fun pre c post hcomp hup => ?_
  obtain rfl := (pathMove_eq_up_iff c).mp hup
  obtain ⟨l, r, rfl, hl, hr⟩ := splitOnP_cut isSeparator hcomp
  rcases hl with ⟨rfl, rfl⟩ | ⟨l₀, s, hs, rfl, rfl⟩
  · -- the first component: alone, or followed by a separator and rejected
    exfalso
    rcases hr with rfl | ⟨a, r₀, ha, rfl⟩
    · exact hne (by simp)
    · exact not_prefix_of_accepted hacc ha ⟨r₀, by simp⟩
  · have hcov := hcov l₀ s r hs (by simp)
    rw [Nat.zero_add]
    rcases hr with rfl | ⟨a, r₀, ha, rfl⟩
    · exact hcov (Or.inl rfl)
    · refine hcov (Or.inr ⟨a, r₀, rfl, ha, ?_⟩)
      rintro rfl
      exact not_infix_of_accepted hacc hs ⟨l₀, r₀, by simp [dotDot]⟩

theorem covered_of_confined {fn : Bytes} (h : Confined fn) : MissedDotDotsCovered fn := by
  constructor
  · rintro rfl
    exact absurd h (by simp [Confined, pathComponents, StaysBelow, pathMove, dotDot, isSeparator,
      List.splitOnP_cons_eq_if_modifyHead])
  · rintro l s r hs rfl hr
    obtain ⟨post, hpost⟩ : ∃ post, pathComponents (dotDot ++ r) = dotDot :: post := by
      rcases hr with rfl | ⟨s', r', rfl, hs', -⟩
      · exact ⟨[], by rw [List.append_nil]; exact List.splitOnP_eq_singleton (by decide +kernel)⟩
      · exact ⟨_, List.splitOnP_append_cons_of_forall_mem (by decide +kernel) s' hs' r'⟩
    have hcomp : pathComponents (l ++ s :: (dotDot ++ r)) =
        pathComponents l ++ dotDot :: post := by
      rw [pathComponents, List.splitOnP_append_cons _ _ hs, ← pathComponents, ← pathComponents,
        hpost]
    have := (staysBelow_iff pathMove 0 _).mp h _ dotDot post hcomp
      ((pathMove_eq_up_iff dotDot).mpr rfl)
    simpa using this

/-- **When the check keeps its promise**: an accepted name is safe exactly when the
`..` components the check misses are covered by components going down. -/
theorem safe_iff_covered {fn : Bytes} (hacc : braValidateFilename fn fn.length = true) :
    Safe fn ↔ MissedDotDotsCovered fn := by
  constructor
  · rintro ⟨-, hconf⟩
    exact covered_of_confined hconf
  · intro hcov
    exact ⟨not_isAbsolute_of_accepted hacc, confined_of_covered hacc hcov⟩

/-- `a/..` is accepted, and its last component is one the tests miss. -/
theorem safe_iff_covered_parent :
    Safe [97, 47, 46, 46] ↔ MissedDotDotsCovered [97, 47, 46, 46] :=
  safe_iff_covered (by decide)

/-- The name `..` is accepted and leads out of the output directory. -/
theorem dotDot_accepted_not_safe :
    braValidateFilename dotDot dotDot.length = true ∧ ¬ Safe dotDot := by
  refine ⟨by decide, fun h => ?_⟩
  exact (covered_of_confined h.2).1 rfl

end BrArchive
