import Mathlib.Data.List.Basic

/-!
# Refinement by an invariant and a view

A system is given by its labelled steps. `Refines` says that a system follows another one
through a view of its states: as long as an invariant holds, every step keeps the invariant
and is, in the view, a step with the same label. Then every run of the first system is, in
the view, a run of the second with the same labels.
-/

namespace Refinement

variable {σ τ ε : Type*}

/-- A run from `s₀` to `s` with the labels of the list. -/
inductive Run (step : σ → ε → σ → Prop) (s₀ : σ) : List ε → σ → Prop
  | start : Run step s₀ [] s₀
  | next {es : List ε} {e : ε} {s s' : σ} : Run step s₀ es s → step s e s' →
      Run step s₀ (es ++ [e]) s'

/-- Every step from a state with the invariant keeps it and is a step of the view. -/
structure Refines (step : σ → ε → σ → Prop) (abstract : τ → ε → τ → Prop) (inv : σ → Prop)
    (view : σ → τ) : Prop where
  keeps : ∀ s e s', inv s → step s e s' → inv s'
  follows : ∀ s e s', inv s → step s e s' → abstract (view s) e (view s')

variable {step : σ → ε → σ → Prop} {abstract : τ → ε → τ → Prop} {inv : σ → Prop} {view : σ → τ}
  {s₀ s : σ} {es es' : List ε}

theorem Run.invariant (hkeeps : ∀ s e s', inv s → step s e s' → inv s') (hstart : inv s₀)
    (hrun : Run step s₀ es s) : inv s := by
  induction hrun with
  | start => exact hstart
  | next _ hstep ih => exact hkeeps _ _ _ ih hstep

theorem Refines.run (h : Refines step abstract inv view) (hstart : inv s₀)
    (hrun : Run step s₀ es s) : Run abstract (view s₀) es (view s) := by
  induction hrun with
  | start => exact .start
  | next hrun hstep ih => exact .next ih (h.follows _ _ _ (hrun.invariant h.keeps hstart) hstep)

theorem Run.append {s' : σ} (h : Run step s₀ es s) (h' : Run step s es' s') :
    Run step s₀ (es ++ es') s' := by
  induction h' with
  | start =>
      rw [List.append_nil]
      exact h
  | next _ hstep ih =>
      rw [← List.append_assoc]
      exact .next ih hstep

theorem Run.single {e : ε} {s' : σ} (h : step s e s') : Run step s [e] s' := .next .start h

theorem Run.of_foldlM {f : σ → ε → Option σ} {s' : σ} (h : es.foldlM f s = some s') :
    Run (fun s e s' => f s e = some s') s es s' := by
  induction es generalizing s with
  | nil =>
      cases h
      exact .start
  | cons e es ih =>
      rw [List.foldlM_cons] at h
      cases he : f s e with
      | none =>
          rw [he] at h
          cases h
      | some t =>
          rw [he] at h
          have hrun : Run (fun s e s' => f s e = some s') s [e] t := .single he
          exact hrun.append (ih h)

theorem Run.exists_of_any (f : σ → ε → Option σ) (s : σ) (es : List ε) (p : σ → Bool)
    (h : (es.foldlM f s).any p = true) :
    ∃ s', Run (fun s e s' => f s e = some s') s es s' ∧ p s' = true := by
  obtain ⟨s', hs', hp⟩ := (Option.any_eq_true _ _).mp h
  exact ⟨s', .of_foldlM hs', hp⟩

end Refinement
