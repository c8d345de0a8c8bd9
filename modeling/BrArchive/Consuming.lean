import BrArchive.WhileLoop
import Mathlib.Tactic.Choose

/-! # Readers that consume a prefix

A file is placed around a position: some symbols before it, the others after it.  A reader
consumes when all it does is to take a prefix of what follows the position, and what it
makes of that prefix depends on nothing else.  Such readers are closed under the ways of
putting readers together, loops included.  As a reader is a function, no prefix that it takes
begins with a shorter one, so that a file cut off inside what it takes makes it fail.

What a reader returns contains the file it goes on with: `put b f` is the result `b` with the
file `f` in it.
-/
namespace Consuming
open WhileLoop

section Readers
variable {α β γ δ ε F : Type} {place : List α → List α → F} {put : β → F → δ} {put' : γ → F → ε}

/-- The reader takes a prefix of what follows the position, by a relation of its own. -/
def Consumes (place : List α → List α → F) (put : β → F → δ) (g : F → Option δ) : Prop :=
  ∃ P : β → List α → Prop, ∀ (pre input : List α) (d : δ),
    g (place pre input) = some d ↔
      ∃ b mid rest, input = mid ++ rest ∧ d = put b (place (pre ++ mid) rest) ∧ P b mid

/-- The reader makes `b` of just the symbols `mid`: wherever they stand and whatever follows
them, and of no shorter part of them it makes anything. -/
structure ReadsExactly (place : List α → List α → F) (put : β → F → δ) (g : F → Option δ) (b : β)
    (mid : List α) : Prop where
  anywhere : ∀ pre rest, g (place pre (mid ++ rest)) = some (put b (place (pre ++ mid) rest))
  short : ∀ pre part, part <+: mid → part ≠ mid → g (place pre part) = none

/-! ## How readers are put together -/

theorem Consumes.pure (b : β) : Consumes place put fun f => some (put b f) := by
  refine ⟨fun b' mid => b' = b ∧ mid = [], fun pre input d => ?_⟩
  constructor
  · intro h
    exact ⟨b, [], input, rfl, by rw [List.append_nil, Option.some.inj h], rfl, rfl⟩
  · rintro ⟨-, -, rest, rfl, rfl, rfl, rfl⟩
    rw [List.append_nil, List.nil_append]

theorem Consumes.fail : Consumes place put fun _ => none :=
  ⟨fun _ _ => False, fun _ _ _ => ⟨fun h => absurd h (Option.some_ne_none _).symm,
    fun ⟨_, _, _, _, _, h⟩ => h.elim⟩⟩

variable {g g' : F → Option δ}

theorem Consumes.congr (h : Consumes place put g)
    (hg : ∀ pre input, g' (place pre input) = g (place pre input)) : Consumes place put g' := by
  obtain ⟨P, hP⟩ := h
  exact ⟨P, fun pre input d => by rw [hg]; exact hP pre input d⟩

/-- One after the other. -/
theorem Consumes.bind {k : δ → Option ε} (hg : Consumes place put g)
    (hk : ∀ b, Consumes place put' fun f => k (put b f)) :
    Consumes place put' fun f => (g f).bind k := by
  obtain ⟨P, hP⟩ := hg
  choose Q hQ using hk
  refine ⟨fun c mid => ∃ b m₁ m₂, mid = m₁ ++ m₂ ∧ P b m₁ ∧ Q b c m₂, fun pre input e => ?_⟩
  constructor
  · intro hbind
    obtain ⟨d, hfirst, hsecond⟩ := Option.bind_eq_some_iff.mp hbind
    obtain ⟨b, m₁, rest₁, rfl, rfl, hb⟩ := (hP pre input d).mp hfirst
    obtain ⟨c, m₂, rest, rfl, rfl, hc⟩ := (hQ b (pre ++ m₁) rest₁ e).mp hsecond
    exact ⟨c, m₁ ++ m₂, rest, by rw [List.append_assoc], by rw [List.append_assoc], b, m₁, m₂, rfl,
      hb, hc⟩
  · rintro ⟨c, -, rest, rfl, rfl, b, m₁, m₂, rfl, hb, hc⟩
    rw [Option.bind_eq_some_iff]
    refine ⟨put b (place (pre ++ m₁) (m₂ ++ rest)), ?_, ?_⟩
    · exact (hP _ _ _).mpr ⟨b, m₁, m₂ ++ rest, by rw [List.append_assoc], rfl, hb⟩
    · exact (hQ _ _ _ _).mpr ⟨c, m₂, rest, rfl, by rw [List.append_assoc], hc⟩

/-- Behind something that may fail and does not look at the file. -/
theorem Consumes.option {h : γ → F → Option δ} (o : Option γ)
    (hh : ∀ c, Consumes place put (h c)) : Consumes place put fun f => o.bind fun c => h c f := by
  cases o with
  | none => exact .fail
  | some c => exact hh c

theorem Consumes.ite {p : Prop} {inst : F → Decidable p} (hg : Consumes place put g)
    (hg' : Consumes place put g') :
    Consumes place put fun f => @ite (Option δ) p (inst f) (g f) (g' f) := by
  by_cases hp : p
  · exact hg.congr fun _ _ => if_pos hp
  · exact hg'.congr fun _ _ => if_neg hp

/-- **Loop rule.**  A loop whose rounds consume, and whose condition does not look at the
file. -/
theorem Consumes.run {cond : δ → Bool} {body : δ → Option δ} (c : β → Bool)
    (hcond : ∀ b f, cond (put b f) = c b) (hbody : ∀ b, Consumes place put fun f => body (put b f))
    (fuel : Nat) (b : β) : Consumes place put fun f => run cond body fuel (put b f) := by
  induction fuel generalizing b with
  | zero =>
    cases hc : c b with
    | false => exact (Consumes.pure b).congr fun _ _ => run_of_not ((hcond b _).trans hc) _
    | true =>
      refine Consumes.fail.congr fun pre input => ?_
      rw [WhileLoop.run, hcond, hc, if_pos rfl]
  | succ fuel ih =>
    cases hc : c b with
    | false => exact (Consumes.pure b).congr fun _ _ => run_of_not ((hcond b _).trans hc) _
    | true =>
      exact ((hbody b).bind ih).congr fun _ _ => run_succ_of ((hcond b _).trans hc) _

/-! ## What follows for a reader that consumes -/

/-- What stands before the position does not matter. -/
theorem Consumes.map_relocate (hg : Consumes place put g) {p : δ → γ} {q : β → γ}
    (hp : ∀ b f, p (put b f) = q b) (pre pre' input : List α) :
    (g (place pre input)).map p = (g (place pre' input)).map p := by
  obtain ⟨P, hP⟩ := hg
  refine Option.ext fun c => ?_
  -- the two sides are the same statement about the input
  have hside : ∀ pre, (g (place pre input)).map p = some c ↔
      ∃ b mid rest, input = mid ++ rest ∧ P b mid ∧ q b = c := by
    intro pre
    rw [Option.map_eq_some_iff]
    constructor
    · rintro ⟨d, hd, rfl⟩
      obtain ⟨b, mid, rest, hinput, rfl, hb⟩ := (hP pre input d).mp hd
      exact ⟨b, mid, rest, hinput, hb, (hp b _).symm⟩
    · rintro ⟨b, mid, rest, hinput, hb, rfl⟩
      exact ⟨_, (hP pre input _).mpr ⟨b, mid, rest, hinput, rfl, hb⟩, hp b _⟩
  rw [hside pre, hside pre']

/-- **What a reader takes** is all that it goes by. -/
theorem Consumes.readsExactly (hg : Consumes place put g)
    (hplace : ∀ pre post pre' post', place pre post = place pre' post' → pre = pre' ∧ post = post')
    (hput : ∀ b b' f f', put b f = put b' f' → f = f') {pre input : List α} {d : δ}
    (h : g (place pre input) = some d) :
    ∃ b mid rest, input = mid ++ rest ∧ d = put b (place (pre ++ mid) rest) ∧
      ReadsExactly place put g b mid := by
  obtain ⟨P, hP⟩ := hg
  obtain ⟨b, mid, rest, rfl, rfl, hb⟩ := (hP pre input d).mp h
  have hanywhere : ∀ pre rest, g (place pre (mid ++ rest)) = some (put b (place (pre ++ mid) rest)) :=
    fun pre rest => (hP _ _ _).mpr ⟨b, mid, rest, rfl, rfl, hb⟩
  refine ⟨b, mid, rest, rfl, rfl, hanywhere, ?_⟩
  rintro pre part ⟨more, rfl⟩ hne
  rw [Option.eq_none_iff_forall_ne_some]
  intro d' hpart
  -- what the reader took of the part it also takes of the whole
  obtain ⟨b', m, r, rfl, -, hb'⟩ := (hP _ _ _).mp hpart
  have hwhole : g (place pre (m ++ r ++ more)) = some (put b' (place (pre ++ m) (r ++ more))) :=
    (hP _ _ _).mpr ⟨b', m, r ++ more, by rw [List.append_assoc], rfl, hb'⟩
  have hall := hanywhere pre []
  rw [List.append_nil, hwhole] at hall
  have hrest := (hplace _ _ _ _ (hput _ _ _ _ (Option.some.inj hall))).2
  obtain ⟨-, rfl⟩ := List.append_eq_nil_iff.mp hrest
  exact hne (by rw [List.append_nil])

end Readers
end Consuming
