import Mathlib.Tactic

/-!
# Machines

A machine takes steps: a step goes on, stops with a result or is a fault. `run` is the machine
with a bound on its steps, and `Stops` says that some bound is enough to come to a result, so
that neither a fault nor an endless run stops.
-/

namespace Machine

/-- Where a step leads. -/
inductive Next (σ ρ ε : Type) where
  | again (s : σ)
  | stop (r : ρ)
  | fault (e : ε)
  deriving DecidableEq

section

variable {σ ρ ε : Type} (step : σ → Next σ ρ ε)

/-- At most `n` steps: `none` is a run that has not come to its end. -/
def run : Nat → σ → Option (Except ε ρ)
  | 0, _ => none
  | n + 1, s =>
    match step s with
    | .again s => run n s
    | .stop r => some (.ok r)
    | .fault e => some (.error e)

/-- The machine comes from `s` to the result `r`. -/
def Stops (s : σ) (r : ρ) : Prop := ∃ n, run step n s = some (.ok r)

variable {step} {s s' : σ} {r r' : ρ} {e : ε}

theorem run_succ_again (h : step s = .again s') (n : Nat) : run step (n + 1) s = run step n s' := by
  rw [run, h]

theorem run_succ_stop (h : step s = .stop r) (n : Nat) :
    run step (n + 1) s = some (.ok r) := by
  rw [run, h]

theorem run_succ_fault (h : step s = .fault e) (n : Nat) :
    run step (n + 1) s = some (.error e) := by
  rw [run, h]

theorem stops_again (h : step s = .again s') : Stops step s r ↔ Stops step s' r := by
  constructor
  · rintro ⟨n, hn⟩
    cases n with
    | zero => cases hn
    | succ n => exact ⟨n, by rwa [run_succ_again h] at hn⟩
  · rintro ⟨n, hn⟩
    exact ⟨n + 1, by rwa [run_succ_again h]⟩

theorem stops_stop (h : step s = .stop r') : Stops step s r ↔ r = r' := by
  constructor
  · rintro ⟨n, hn⟩
    cases n with
    | zero => cases hn
    | succ n =>
      rw [run_succ_stop h] at hn
      injection hn with hn
      injection hn with hn
      exact hn.symm
  · rintro rfl
    exact ⟨1, run_succ_stop h 0⟩

theorem not_stops_fault (h : step s = .fault e) : ¬ Stops step s r := by
  rintro ⟨n, hn⟩
  cases n with
  | zero => cases hn
  | succ n =>
    rw [run_succ_fault h] at hn
    injection hn with hn
    cases hn

/-- A step that leads back to its own state is an endless run. -/
theorem not_stops_self (h : step s = .again s) : ¬ Stops step s r := by
  rintro ⟨n, hn⟩
  induction n with
  | zero => cases hn
  | succ n ih =>
    rw [run_succ_again h] at hn
    exact ih hn

/-- Steps that stay in `E` are an endless run. -/
theorem not_stops_of_forever {E : σ → Prop} (h : ∀ s, E s → ∃ s', step s = .again s' ∧ E s')
    (hs : E s) : ¬ Stops step s r := by
  rintro ⟨n, hn⟩
  induction n generalizing s with
  | zero => cases hn
  | succ n ih =>
    obtain ⟨s', hstep, hs'⟩ := h s hs
    rw [run_succ_again hstep] at hn
    exact ih hs' hn

/-- There is one result at most. -/
theorem stops_unique (h : Stops step s r) (h' : Stops step s r') : r = r' := by
  obtain ⟨n, hn⟩ := h
  induction n generalizing s with
  | zero => cases hn
  | succ n ih =>
    cases hstep : step s with
    | again s1 =>
      rw [run_succ_again hstep] at hn
      exact ih ((stops_again hstep).mp h') hn
    | stop r1 =>
      rw [(stops_stop hstep).mp h', ← (stops_stop hstep).mp ⟨n + 1, hn⟩]
    | fault e => exact absurd h' (not_stops_fault hstep)

/-- If a measure goes down with every step, a run with so many steps comes to its end. -/
theorem stops_iff_run {f : σ → Nat} (hf : ∀ s s', step s = .again s' → f s' < f s) {n : Nat}
    (hn : f s < n) : Stops step s r ↔ run step n s = some (.ok r) := by
  refine ⟨fun h => ?_, fun h => ⟨n, h⟩⟩
  induction n generalizing s with
  | zero => exact absurd hn (Nat.not_lt_zero _)
  | succ n ih =>
    cases hstep : step s with
    | again s1 =>
      rw [run_succ_again hstep]
      exact ih (by have := hf s s1 hstep; omega) ((stops_again hstep).mp h)
    | stop r1 => rw [run_succ_stop hstep, (stops_stop hstep).mp h]
    | fault e => exact absurd h (not_stops_fault hstep)

/-- The machine comes from one state to another. -/
inductive Meets (step : σ → Next σ ρ ε) : σ → σ → Prop where
  | refl (s : σ) : Meets step s s
  | step {s s' s'' : σ} (h : step s = .again s') (h' : Meets step s' s'') : Meets step s s''

theorem Meets.trans {s'' : σ} (h : Meets step s s') (h' : Meets step s' s'') :
    Meets step s s'' := by
  induction h with
  | refl => exact h'
  | step hstep _ ih => exact .step hstep (ih h')

theorem Meets.stops (h : Meets step s s') : Stops step s r ↔ Stops step s' r := by
  induction h with
  | refl => exact Iff.rfl
  | step hstep _ ih => exact (stops_again hstep).trans ih

theorem Meets.invariant {I : σ → Prop} (hI : ∀ s s', I s → step s = .again s' → I s')
    (h : Meets step s s') (hs : I s) : I s' := by
  induction h with
  | refl => exact hs
  | step hstep _ ih => exact ih (hI _ _ hs hstep)

/-- A run keeps an invariant up to the step that stops it. -/
theorem Stops.last {I : σ → Prop} (hI : ∀ s s', I s → step s = .again s' → I s')
    (h : Stops step s r) (hs : I s) : ∃ s', I s' ∧ step s' = .stop r := by
  obtain ⟨n, hn⟩ := h
  induction n generalizing s with
  | zero => cases hn
  | succ n ih =>
    cases hstep : step s with
    | again s1 =>
      rw [run_succ_again hstep] at hn
      exact ih (hI s s1 hs hstep) hn
    | stop r1 => exact ⟨s, hs, by rw [hstep, (stops_stop hstep).mp ⟨n + 1, hn⟩]⟩
    | fault e => exact absurd ⟨n + 1, hn⟩ (not_stops_fault hstep)

/-- The state behind `n` steps. -/
def after (step : σ → Next σ ρ ε) : Nat → σ → Option σ
  | 0, s => some s
  | n + 1, s =>
    match step s with
    | .again s => after step n s
    | _ => none

theorem meets_after {n : Nat} {s s' : σ} (h : after step n s = some s') : Meets step s s' := by
  induction n generalizing s with
  | zero =>
    cases h
    exact .refl _
  | succ n ih =>
    rw [after] at h
    split at h
    · rename_i hstep
      exact .step hstep (ih h)
    · cases h

/-- A machine whose steps go down in a well-founded order, except from states that are stuck,
comes to its end exactly if it meets no state that is stuck. -/
theorem stops_iff_not_stuck {I stuck : σ → Prop} {lt : σ → σ → Prop} (hwf : WellFounded lt)
    (hI : ∀ s s', I s → step s = .again s' → I s')
    (hgo : ∀ s, I s → ¬ stuck s → (∃ r, step s = .stop r) ∨ ∃ s', step s = .again s' ∧ lt s' s)
    (hstuck : ∀ s, I s → stuck s → ∀ r, ¬ Stops step s r) (hs : I s) :
    (∃ r, Stops step s r) ↔ ∀ s', Meets step s s' → ¬ stuck s' := by
  constructor
  · rintro ⟨r, hr⟩ s' hmeets hst
    exact hstuck s' (hmeets.invariant hI hs) hst r (hmeets.stops.mp hr)
  · intro h
    induction s using hwf.induction with
    | _ s ih =>
      rcases hgo s hs (h s (.refl s)) with ⟨r, hr⟩ | ⟨s', hstep, hlt⟩
      · exact ⟨r, (stops_stop hr).mpr rfl⟩
      · obtain ⟨r, hr⟩ := ih s' hlt (hI s s' hs hstep) fun s'' hm => h s'' (.step hstep hm)
        exact ⟨r, (stops_again hstep).mpr hr⟩

end

end Machine
