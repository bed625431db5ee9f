import Mathlib.Data.List.Basic

/-!
# Runs of a system that emits events

A system is given by a partial function `step`: from a state and an action it
yields, if the action is possible, the next state and the events of the step.
`Run step ok s₀ trace s` says that the system can get from `s₀` to `s` with the
events of `trace`, by actions that satisfy `ok` where they are taken; `ok` may
speak of the trace so far, so that it can say what the environment never does.

`Run.invariant` is the induction over a run, for invariants that relate the trace
and the state. `exec` runs a list of actions.
-/

namespace EventRun

variable {σ α ε : Type*}

/-- A run from `s₀` to `s` with the events of `trace`. -/
inductive Run (step : σ → α → Option (σ × List ε)) (ok : List ε → σ → α → Prop) (s₀ : σ) :
    List ε → σ → Prop
  | start : Run step ok s₀ [] s₀
  | next {trace events : List ε} {s s' : σ} {a : α} : Run step ok s₀ trace s → ok trace s a →
      step s a = some (s', events) → Run step ok s₀ (trace ++ events) s'

variable {step : σ → α → Option (σ × List ε)} {ok ok' : List ε → σ → α → Prop} {s₀ s s' : σ}
  {trace trace' : List ε}

/-- What holds at the start and is kept by every step holds in every state of a run. -/
theorem Run.invariant {I : List ε → σ → Prop} (hstart : I [] s₀)
    (hstep : ∀ trace s a s' events, I trace s → ok trace s a → step s a = some (s', events) →
      I (trace ++ events) s')
    (h : Run step ok s₀ trace s) : I trace s := by
  induction h with
  | start => exact hstart
  | next _ hok hs ih => exact hstep _ _ _ _ _ ih hok hs

theorem Run.mono (hok : ∀ trace s a, ok trace s a → ok' trace s a)
    (h : Run step ok s₀ trace s) : Run step ok' s₀ trace s := by
  induction h with
  | start => exact .start
  | next _ ha hs ih => exact .next ih (hok _ _ _ ha) hs

/-- Take the actions of a list in order, as long as they are possible and satisfy `ok`. -/
def exec (step : σ → α → Option (σ × List ε)) (ok : List ε → σ → α → Prop)
    [∀ trace s a, Decidable (ok trace s a)] : List α → List ε → σ → Option (List ε × σ)
  | [], trace, s => some (trace, s)
  | a :: actions, trace, s =>
      if ok trace s a then
        match step s a with
        | some (s', events) => exec step ok actions (trace ++ events) s'
        | none => none
      else
        none

theorem Run.exec [∀ trace s a, Decidable (ok trace s a)] {actions : List α}
    (h : Run step ok s₀ trace s)
    (hexec : EventRun.exec step ok actions trace s = some (trace', s')) :
    Run step ok s₀ trace' s' := by
  induction actions generalizing trace s with
  | nil =>
      cases hexec
      exact h
  | cons a actions ih =>
      rw [EventRun.exec] at hexec
      split_ifs at hexec with hok
      cases hs : step s a with
      | none =>
          rw [hs] at hexec
          cases hexec
      | some r =>
          rw [hs] at hexec
          exact ih (h.next hok hs) hexec

/-- A run found by a test: its actions are possible, and what it ends in passes `p`. -/
theorem exists_run [∀ trace s a, Decidable (ok trace s a)] {actions : List α}
    {p : List ε × σ → Bool} (h : (exec step ok actions [] s₀).any p = true) :
    ∃ trace s, Run step ok s₀ trace s ∧ p (trace, s) = true := by
  obtain ⟨⟨trace, s⟩, hexec, hp⟩ := (Option.any_eq_true _ _).mp h
  exact ⟨trace, s, Run.start.exec hexec, hp⟩

end EventRun
