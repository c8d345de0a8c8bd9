import Mathlib.Order.Basic

/-! # Loops that may fail

A loop is given by the condition at its head and by a body that may fail.  It is run
with a bound on the number of rounds; where a measure of the state decreases in every
round, any bound that is at least the measure of the start gives the same result, and
what the loop does is a matter of the states it reaches.
-/
namespace WhileLoop

section Loop
variable {σ : Type} (cond : σ → Bool) (body : σ → Option σ)

/-- At most `fuel` rounds of the loop. -/
def run : Nat → σ → Option σ
  | 0, s => if cond s then none else some s
  | fuel + 1, s => if cond s then (body s).bind (run fuel) else some s

/-- The loop that starts at its head in the first state gets there in the second. -/
inductive Reaches : σ → σ → Prop
  | refl (s : σ) : Reaches s s
  | step {s t u : σ} : cond s = true → body s = some t → Reaches t u → Reaches s u

/-- Every round makes `μ` smaller. -/
def Decreases (μ : σ → Nat) : Prop :=
  ∀ s t, cond s = true → body s = some t → μ t < μ s

variable {cond body}

theorem run_of_not {s : σ} (hc : cond s = false) (fuel : Nat) :
    run cond body fuel s = some s := by
  cases fuel <;> simp [run, hc]

theorem run_succ_of {s : σ} (hc : cond s = true) (fuel : Nat) :
    run cond body (fuel + 1) s = (body s).bind (run cond body fuel) := by
  rw [run, if_pos hc]

/-- **Invariant rule.** -/
theorem Reaches.invariant {I : σ → Prop}
    (hI : ∀ s t, I s → cond s = true → body s = some t → I t) {s t : σ}
    (h : Reaches cond body s t) (hs : I s) : I t := by
  induction h with
  | refl => exact hs
  | step hc hb _ ih => exact ih (hI _ _ hs hc hb)

/-- **Partial correctness.**  What every round keeps holds at the end, whatever the fuel. -/
theorem run_invariant {I : σ → Prop}
    (hI : ∀ s t, I s → cond s = true → body s = some t → I t) {fuel : Nat} {s t : σ} (hs : I s)
    (h : run cond body fuel s = some t) : I t := by
  induction fuel generalizing s with
  | zero =>
    rw [run] at h
    split at h
    · cases h
    · exact Option.some.inj h ▸ hs
  | succ fuel ih =>
    rw [run] at h
    split at h
    · rename_i hc
      obtain ⟨u, hu, hrun⟩ := Option.bind_eq_some_iff.mp h
      exact ih (hI s u hs hc hu) hrun
    · exact Option.some.inj h ▸ hs

/-- **Termination rule.**  With enough fuel the loop ends in the state it reaches with
its condition false. -/
theorem run_eq_some_iff {μ : σ → Nat} (hμ : Decreases cond body μ) {fuel : Nat} {s t : σ}
    (hs : μ s ≤ fuel) :
    run cond body fuel s = some t ↔ Reaches cond body s t ∧ cond t = false := by
  constructor
  · intro h
    clear hs
    induction fuel generalizing s with
    | zero =>
      cases hc : cond s with
      | false =>
        rw [run_of_not hc] at h
        obtain rfl := Option.some.inj h
        exact ⟨.refl s, hc⟩
      | true => simp [run, hc] at h
    | succ fuel ih =>
      cases hc : cond s with
      | false =>
        rw [run_of_not hc] at h
        obtain rfl := Option.some.inj h
        exact ⟨.refl s, hc⟩
      | true =>
        rw [run_succ_of hc] at h
        obtain ⟨u, hu, hrun⟩ := Option.bind_eq_some_iff.mp h
        obtain ⟨hreach, ht⟩ := ih hrun
        exact ⟨.step hc hu hreach, ht⟩
  · rintro ⟨hreach, ht⟩
    induction hreach generalizing fuel with
    | refl => exact run_of_not ht fuel
    | step hc hb _ ih =>
      have hlt := hμ _ _ hc hb
      obtain ⟨fuel, rfl⟩ := Nat.exists_eq_succ_of_ne_zero (n := fuel) (by omega)
      rw [Nat.succ_eq_add_one, run_succ_of hc, hb]
      exact ih (by omega) ht

end Loop

/-! ## Two loops side by side -/

section Simulation
variable {σ τ : Type} {cond : σ → Bool} {body : σ → Option σ} {cond' : τ → Bool}
  {body' : τ → Option τ} {R : σ → τ → Prop}

/-- **Simulation rule.**  If every round of the first loop is matched by the second,
so is every run that succeeds. -/
theorem run_simulates (hcond : ∀ s t, R s t → cond s = cond' t)
    (hbody : ∀ s t s', R s t → cond s = true → body s = some s' →
      ∃ t', body' t = some t' ∧ R s' t') {fuel : Nat} {s s' : σ} {t : τ} (hR : R s t)
    (h : run cond body fuel s = some s') :
    ∃ t', run cond' body' fuel t = some t' ∧ R s' t' := by
  induction fuel generalizing s t with
  | zero =>
    rw [run] at h ⊢
    rw [← hcond s t hR]
    split at h
    · cases h
    · obtain rfl := Option.some.inj h
      rename_i hc
      exact ⟨t, if_neg hc, hR⟩
  | succ fuel ih =>
    rw [run] at h ⊢
    rw [← hcond s t hR]
    split at h
    · rename_i hc
      obtain ⟨u, hu, hrun⟩ := Option.bind_eq_some_iff.mp h
      obtain ⟨v, hv, hRv⟩ := hbody s t u hR hc hu
      obtain ⟨t', ht', hRt'⟩ := ih hRv hrun
      exact ⟨t', by rw [if_pos hc, hv]; exact ht', hRt'⟩
    · obtain rfl := Option.some.inj h
      rename_i hc
      exact ⟨t, if_neg hc, hR⟩

/-- **Projection rule.**  A loop that is another one seen through `g`. -/
theorem run_map {g : σ → τ} (hcond : ∀ s, cond' (g s) = cond s)
    (hbody : ∀ s, body' (g s) = (body s).map g) (fuel : Nat) (s : σ) :
    run cond' body' fuel (g s) = (run cond body fuel s).map g := by
  induction fuel generalizing s with
  | zero =>
    rw [run, run, hcond]
    split <;> rfl
  | succ fuel ih =>
    rw [run, run, hcond]
    split
    · rw [hbody]
      cases body s with
      | none => rfl
      | some t => exact ih t
    · rfl

end Simulation
end WhileLoop
