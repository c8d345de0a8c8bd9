import Mathlib.Algebra.Order.Group.Multiset
import Mathlib.Data.Multiset.Range
import Mathlib.Tactic.Abel

/-! # Programs that hold handles

A program opens handles, uses them and closes them again, and asks other questions.  All
answers are its environment's, so that any operation may fail at any time.  A log of what
happened to the handles says whether a program used one that was not open, or closed one
twice; a predicate transformer on the handles that a program owns shows that it never does.
-/
namespace HandlePrograms

/-- What programs may ask for. -/
structure Interface where
  /-- The ways to open a handle. -/
  Open : Type
  /-- The operations on a handle. -/
  Use : Type
  UseAnswer : Use → Type
  /-- Everything that is not about a handle. -/
  Query : Type
  QueryAnswer : Query → Type

/-- Handles are told apart by numbers; a number is not given out twice. -/
abbrev Handle := Nat

variable {I : Interface} {α β W : Type}

/-- A program that returns an `α`.  What it uses may be no handle at all. -/
inductive Prog (I : Interface) (α : Type) where
  | pure (a : α)
  | acquire (o : I.Open) (k : Option Handle → Prog I α)
  | use (h : Option Handle) (u : I.Use) (k : I.UseAnswer u → Prog I α)
  | close (h : Handle) (k : Prog I α)
  | query (q : I.Query) (k : I.QueryAnswer q → Prog I α)

namespace Prog

/-- One after the other. -/
def bind : Prog I α → (α → Prog I β) → Prog I β
  | .pure a, f => f a
  | .acquire o k, f => .acquire o fun h => (k h).bind f
  | .use h u k, f => .use h u fun a => (k a).bind f
  | .close h k, f => .close h (k.bind f)
  | .query q k, f => .query q fun a => (k a).bind f

instance : Monad (Prog I) where
  pure := .pure
  bind := .bind

end Prog

/-! ## Runs -/

/-- An environment with states `W`: it gives or refuses new handles, and answers. -/
structure Env (I : Interface) (W : Type) where
  acquire : W → Handle → I.Open → Bool × W
  use : W → Option Handle → (u : I.Use) → I.UseAnswer u × W
  close : W → Handle → W
  query : W → (q : I.Query) → I.QueryAnswer q × W

/-- What happens to handles. -/
inductive Event where
  | opened (h : Handle)
  | used (h : Option Handle)
  | closed (h : Handle)
  deriving DecidableEq, Repr

/-- The state of a run: the number of the next handle, and the events so far, the last one
first. -/
structure State (W : Type) where
  world : W
  next : Handle
  log : List Event

/-- A program in an environment. -/
def Prog.run (env : Env I W) : Prog I α → State W → α × State W
  | .pure a, st => (a, st)
  | .acquire o k, st =>
    match env.acquire st.world st.next o with
    | (true, world) => (k (some st.next)).run env ⟨world, st.next + 1, .opened st.next :: st.log⟩
    | (false, world) => (k none).run env { st with world }
  | .use h u k, st =>
    let (a, world) := env.use st.world h u
    (k a).run env { st with world, log := .used h :: st.log }
  | .close h k, st =>
    k.run env { st with world := env.close st.world h, log := .closed h :: st.log }
  | .query q k, st =>
    let (a, world) := env.query st.world q
    (k a).run env { st with world }

/-- A run adds to the log. -/
theorem Prog.suffix_run (env : Env I W) (p : Prog I α) (st : State W) :
    st.log <:+ (p.run env st).2.log := by
  induction p generalizing st with
  | pure a => exact List.suffix_refl _
  | acquire o k ih =>
    rw [run]
    split
    · rename_i world _
      exact (List.suffix_cons _ _).trans
        (ih (some st.next) ⟨world, st.next + 1, .opened st.next :: st.log⟩)
    · rename_i world _
      exact ih none { st with world }
  | use h u k ih =>
    exact (List.suffix_cons _ _).trans
      (ih _ { st with world := (env.use st.world h u).2, log := .used h :: st.log })
  | close h k ih =>
    exact (List.suffix_cons _ _).trans
      (ih { st with world := env.close st.world h, log := .closed h :: st.log })
  | query q k ih => exact ih _ { st with world := (env.query st.world q).2 }

/-- The handle has been opened and not been closed. -/
def IsOpen (log : List Event) (h : Handle) : Prop :=
  .opened h ∈ log ∧ .closed h ∉ log

/-- Only open handles are used and closed, and a handle that is opened is a new one. -/
def Legal : List Event → Prop
  | [] => True
  | .opened h :: log => .opened h ∉ log ∧ Legal log
  | .used h :: log => (∃ a, h = some a ∧ IsOpen log a) ∧ Legal log
  | .closed h :: log => IsOpen log h ∧ Legal log

/-- A legal log closes no handle twice. -/
theorem Legal.closed_once {log log' : List Event} {h : Handle}
    (hlegal : Legal (log' ++ .closed h :: log)) : .closed h ∉ log := by
  induction log' with
  | nil => exact hlegal.1.2
  | cons e log' ih =>
    cases e with
    | opened => exact ih hlegal.2
    | used => exact ih hlegal.2
    | closed => exact ih hlegal.2

/-- Only what was opened is closed. -/
theorem Legal.opened_of_closed {log : List Event} {h : Handle} (hlegal : Legal log)
    (hclosed : .closed h ∈ log) : .opened h ∈ log := by
  induction log with
  | nil => exact absurd hclosed List.not_mem_nil
  | cons e log ih =>
    refine List.mem_cons_of_mem _ ?_
    rcases List.mem_cons.mp hclosed with rfl | htail
    · exact hlegal.1.1
    · cases e with
      | opened => exact ih hlegal.2 htail
      | used => exact ih hlegal.2 htail
      | closed => exact ih hlegal.2 htail

/-! ## Ownership -/

namespace Prog

/-- Where the program owns the handles `own`, it uses and closes no others, and ends with a
result and handles of its own as `Q` says, whatever the answers are. -/
def wp : Prog I α → (α → Multiset Handle → Prop) → Multiset Handle → Prop
  | .pure a, Q, own => Q a own
  | .acquire _ k, Q, own => (k none).wp Q own ∧ ∀ h, (k (some h)).wp Q (h ::ₘ own)
  | .use h _ k, Q, own => (∃ a ∈ own, h = some a) ∧ ∀ a, (k a).wp Q own
  | .close h k, Q, own => h ∈ own ∧ k.wp Q (own.erase h)
  | .query _ k, Q, own => ∀ a, (k a).wp Q own

variable {p : Prog I α} {f : α → Prog I β} {Q Q' : α → Multiset Handle → Prop}
  {R : β → Multiset Handle → Prop} {own own' rest : Multiset Handle}

theorem wp_mono (h : p.wp Q own) (hQ : ∀ a own, Q a own → Q' a own) : p.wp Q' own := by
  induction p generalizing own with
  | pure a => exact hQ _ _ h
  | acquire o k ih => exact ⟨ih _ h.1, fun a => ih _ (h.2 a)⟩
  | use a u k ih => exact ⟨h.1, fun a => ih _ (h.2 a)⟩
  | close a k ih => exact ⟨h.1, ih h.2⟩
  | query q k ih => exact fun a => ih _ (h a)

@[simp] theorem wp_pure (a : α) : (Pure.pure a : Prog I α).wp Q own ↔ Q a own := Iff.rfl

theorem wp_bind : (p >>= f).wp R own ↔ p.wp (fun a own => (f a).wp R own) own := by
  change (p.bind f).wp R own ↔ _
  induction p generalizing own with
  | pure a => exact Iff.rfl
  | acquire o k ih => exact and_congr (ih _) (forall_congr' fun a => ih _)
  | use a u k ih => exact and_congr Iff.rfl (forall_congr' fun a => ih _)
  | close a k ih => exact and_congr Iff.rfl ih
  | query q k ih => exact forall_congr' fun a => ih _

/-- **Frame rule.**  What is owned besides is not touched. -/
theorem wp_frame (h : p.wp Q own) (rest : Multiset Handle) :
    p.wp (fun a own => ∃ own', own = own' + rest ∧ Q a own') (own + rest) := by
  induction p generalizing own with
  | pure a => exact ⟨own, rfl, h⟩
  | acquire o k ih =>
    refine ⟨ih _ h.1, fun a => ?_⟩
    rw [← Multiset.cons_add]
    exact ih _ (h.2 a)
  | use a u k ih =>
    obtain ⟨⟨b, hb, rfl⟩, hk⟩ := h
    exact ⟨⟨b, Multiset.mem_add.mpr (.inl hb), rfl⟩, fun a => ih _ (hk a)⟩
  | close a k ih =>
    refine ⟨Multiset.mem_add.mpr (.inl h.1), ?_⟩
    rw [Multiset.erase_add_left_pos _ h.1]
    exact ih h.2
  | query q k ih => exact fun a => ih _ (h a)

/-- A step that owns a part of what is there, and the rest. -/
theorem wp_step (rest : Multiset Handle) (h : p.wp Q own) (hown : own' = own + rest)
    (hf : ∀ a own, Q a own → (f a).wp R (own + rest)) : (p >>= f).wp R own' := by
  subst hown
  refine wp_bind.mpr (wp_mono (wp_frame h rest) ?_)
  rintro a _ ⟨own', rfl, hQ⟩
  exact hf a own' hQ

end Prog

/-! ## Soundness -/

variable {env : Env I W} {st : State W} {own : Multiset Handle}

/-- The log is legal, and the next handle is a new one. -/
structure State.Valid (st : State W) : Prop where
  legal : Legal st.log
  opened_lt : ∀ h, .opened h ∈ st.log → h < st.next

/-- The handles that are open are those in `own`. -/
structure Owns (st : State W) (own : Multiset Handle) : Prop extends st.Valid where
  nodup : own.Nodup
  isOpen_iff : ∀ h, IsOpen st.log h ↔ h ∈ own

instance (log : List Event) (h : Handle) : Decidable (IsOpen log h) :=
  inferInstanceAs (Decidable (_ ∧ _))

/-- All that are open are owned by somebody. -/
theorem State.Valid.exists_owns (hst : st.Valid) : ∃ own, Owns st own :=
  ⟨(Multiset.range st.next).filter (IsOpen st.log), hst, (Multiset.nodup_range _).filter _,
    fun h => by
      rw [Multiset.mem_filter, Multiset.mem_range]
      exact ⟨fun hopen => ⟨hst.opened_lt h hopen.1, hopen⟩, And.right⟩⟩

namespace Owns

theorem world (h : Owns st own) (world : W) : Owns { st with world } own :=
  ⟨⟨h.legal, h.opened_lt⟩, h.nodup, h.isOpen_iff⟩

theorem acquire (h : Owns st own) (world : W) :
    Owns ⟨world, st.next + 1, .opened st.next :: st.log⟩ (st.next ::ₘ own) where
  legal := ⟨fun hmem => (h.opened_lt _ hmem).false, h.legal⟩
  opened_lt a ha := by
    rcases List.mem_cons.mp ha with ha | ha
    · cases ha
      exact Nat.lt_succ_self _
    · exact Nat.lt_succ_of_lt (h.opened_lt a ha)
  nodup := Multiset.nodup_cons.mpr
    ⟨fun hmem => (h.opened_lt _ ((h.isOpen_iff _).mpr hmem).1).false, h.nodup⟩
  isOpen_iff a := by
    have hnew : .closed st.next ∉ st.log := fun hmem =>
      (h.opened_lt _ (h.legal.opened_of_closed hmem)).false
    rw [Multiset.mem_cons, ← h.isOpen_iff, IsOpen, IsOpen, List.mem_cons, List.mem_cons,
      Event.opened.injEq]
    by_cases ha : a = st.next
    · simp [ha, hnew]
    · simp [ha]

theorem use (h : Owns st own) (world : W) {a : Handle} (ha : a ∈ own) :
    Owns { st with world, log := .used (some a) :: st.log } own where
  legal := ⟨⟨a, rfl, (h.isOpen_iff a).mpr ha⟩, h.legal⟩
  opened_lt b hb := by
    rcases List.mem_cons.mp hb with hb | hb
    · cases hb
    · exact h.opened_lt b hb
  nodup := h.nodup
  isOpen_iff b := by
    rw [← h.isOpen_iff, IsOpen, IsOpen]
    simp

theorem close (h : Owns st own) (world : W) {a : Handle} (ha : a ∈ own) :
    Owns { st with world, log := .closed a :: st.log } (own.erase a) where
  legal := ⟨(h.isOpen_iff a).mpr ha, h.legal⟩
  opened_lt b hb := by
    rcases List.mem_cons.mp hb with hb | hb
    · cases hb
    · exact h.opened_lt b hb
  nodup := h.nodup.erase a
  isOpen_iff b := by
    rw [h.nodup.mem_erase_iff, ← h.isOpen_iff, IsOpen, IsOpen, List.mem_cons, List.mem_cons,
      Event.closed.injEq]
    simp only [reduceCtorEq, false_or, not_or, ne_eq]
    exact and_left_comm

/-- **Soundness.**  Every run of the program is legal, and leaves open what it says. -/
theorem run {p : Prog I α} {Q : α → Multiset Handle → Prop} (hst : Owns st own)
    (h : p.wp Q own) (env : Env I W) :
    ∃ own', Owns (p.run env st).2 own' ∧ Q (p.run env st).1 own' := by
  induction p generalizing st own with
  | pure a => exact ⟨own, hst, h⟩
  | acquire o k ih =>
    rw [Prog.run]
    split
    · exact ih _ (hst.acquire _) (h.2 _)
    · exact ih _ (hst.world _) h.1
  | use a u k ih =>
    obtain ⟨⟨b, hb, rfl⟩, hk⟩ := h
    exact ih _ (hst.use _ hb) (hk _)
  | close a k ih => exact ih (hst.close _ h.1) h.2
  | query q k ih => exact ih _ (hst.world _) (h _)

end Owns

end HandlePrograms
