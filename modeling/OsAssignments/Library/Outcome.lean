import Mathlib.Logic.Basic

/-!
# Outcomes of fallible runs

`Yields allowed r Q` reads the result `r` of a run that may stop with an error:
either the run stops and its error is one of `allowed`, or it returns and the
value it returns satisfies `Q`. A run that returns is therefore never excused,
and a run that stops is excused for the listed errors only.

The rules below follow the way such runs are put together: `Yields.bind` for one
run after another, `Yields.ite` for a branch and `Yields.foldlM` for a loop whose
invariant speaks of the entries still to be visited.
-/

namespace Outcome

universe u

variable {ε : Type*} {α β : Type u} {allowed : ε → Prop}

/-- The run stops with an allowed error or returns a value that satisfies `Q`. -/
def Yields (allowed : ε → Prop) (r : Except ε α) (Q : α → Prop) : Prop :=
  match r with
  | .ok a => Q a
  | .error e => allowed e

@[simp] theorem yields_ok (a : α) (Q : α → Prop) :
    Yields allowed (.ok a) Q ↔ Q a := Iff.rfl

@[simp] theorem yields_pure (a : α) (Q : α → Prop) :
    Yields allowed (pure a : Except ε α) Q ↔ Q a := Iff.rfl

@[simp] theorem yields_error (e : ε) (Q : α → Prop) :
    Yields allowed (.error e) Q ↔ allowed e := Iff.rfl

@[simp] theorem yields_throw (e : ε) (Q : α → Prop) :
    Yields allowed (throw e : Except ε α) Q ↔ allowed e := Iff.rfl

@[simp] theorem yields_ok_bind (a : α) (f : α → Except ε β) (Q : β → Prop) :
    Yields allowed (Except.ok a >>= f) Q ↔ Yields allowed (f a) Q := Iff.rfl

@[simp] theorem yields_error_bind (e : ε) (f : α → Except ε β) (Q : β → Prop) :
    Yields allowed (Except.error e >>= f) Q ↔ allowed e := Iff.rfl

@[simp] theorem yields_pure_bind (a : α) (f : α → Except ε β) (Q : β → Prop) :
    Yields allowed ((pure a : Except ε α) >>= f) Q ↔ Yields allowed (f a) Q := Iff.rfl

theorem yields_true (r : Except ε α) : Yields (fun _ => True) r fun _ => True := by
  cases r with
  | ok a => trivial
  | error e => trivial

theorem Yields.mono {r : Except ε α} {Q Q' : α → Prop}
    (h : Yields allowed r Q) (hQ : ∀ a, Q a → Q' a) : Yields allowed r Q' := by
  cases r with
  | ok a => exact hQ a h
  | error e => exact h

theorem Yields.weaken {allowed' : ε → Prop} {r : Except ε α} {Q : α → Prop}
    (h : Yields allowed r Q) (herr : ∀ e, allowed e → allowed' e) : Yields allowed' r Q := by
  cases r with
  | ok a => exact h
  | error e => exact herr e h

/-- What is known of the value if the run returns holds of a run that stops with allowed
errors only. -/
theorem Yields.and {r : Except ε α} {Q Q' : α → Prop} (h : Yields allowed r Q)
    (h' : Yields (fun _ => True) r Q') : Yields allowed r fun a => Q a ∧ Q' a := by
  cases r with
  | ok a => exact ⟨h, h'⟩
  | error e => exact h

theorem Yields.bind {r : Except ε α} {f : α → Except ε β} {Q : α → Prop}
    {Q' : β → Prop} (h : Yields allowed r Q) (hf : ∀ a, Q a → Yields allowed (f a) Q') :
    Yields allowed (r >>= f) Q' := by
  cases r with
  | ok a => exact hf a h
  | error e => exact h

theorem Yields.map {r : Except ε α} {f : α → β} {Q : β → Prop}
    (h : Yields allowed r fun a => Q (f a)) : Yields allowed (f <$> r) Q := by
  cases r with
  | ok a => exact h
  | error e => exact h

theorem Yields.mapError {ε' : Type*} {allowed' : ε' → Prop} {f : ε → ε'} {r : Except ε α}
    {Q : α → Prop} (h : Yields allowed r Q) (hf : ∀ e, allowed e → allowed' (f e)) :
    Yields allowed' (r.mapError f) Q := by
  cases r with
  | ok a => exact h
  | error e => exact hf e h

theorem Yields.ite {c : Prop} [Decidable c] {r r' : Except ε α} {Q : α → Prop}
    (h : c → Yields allowed r Q) (h' : ¬ c → Yields allowed r' Q) :
    Yields allowed (if c then r else r') Q := by
  by_cases hc : c
  · rw [if_pos hc]
    exact h hc
  · rw [if_neg hc]
    exact h' hc

theorem yields_of_eq_ok {r : Except ε α} {a : α} {Q : α → Prop} (hr : r = .ok a) (h : Q a) :
    Yields allowed r Q := by
  rw [hr]
  exact h

theorem Yields.of_eq_ok {r : Except ε α} {a : α} {Q : α → Prop}
    (h : Yields allowed r Q) (hr : r = .ok a) : Q a := by
  rw [hr] at h
  exact h

theorem Yields.eq_error {r : Except ε α} {e : ε} (h : Yields (fun e' => e' = e) r fun _ => False) :
    r = .error e := by
  cases r with
  | ok a => exact absurd h id
  | error e' => exact congrArg Except.error h

theorem Yields.exists_eq_ok {r : Except ε α} {Q : α → Prop} (h : Yields (fun _ => False) r Q) :
    ∃ a, r = .ok a ∧ Q a := by
  cases r with
  | ok a => exact ⟨a, rfl, h⟩
  | error e => exact absurd h id

/-- A run that stops when `P` fails, and only then, returns if and only if `P` holds. -/
theorem Yields.returns_iff {P : Prop} {r : Except ε α} (h : Yields (fun _ => ¬ P) r fun _ => P) :
    (∃ a, r = .ok a) ↔ P := by
  cases r with
  | ok a => exact ⟨fun _ => h, fun _ => ⟨a, rfl⟩⟩
  | error e =>
      refine ⟨fun hret => ?_, fun hP => absurd hP h⟩
      obtain ⟨a, ha⟩ := hret
      cases ha

instance {r : Except ε α} {Q : α → Prop} [DecidablePred allowed] [DecidablePred Q] :
    Decidable (Yields allowed r Q) :=
  match r with
  | .ok a => inferInstanceAs (Decidable (Q a))
  | .error e => inferInstanceAs (Decidable (allowed e))

theorem Yields.of_eq_error {r : Except ε α} {e : ε} {Q : α → Prop}
    (h : Yields allowed r Q) (hr : r = .error e) : allowed e := by
  rw [hr] at h
  exact h

/-- The loop rule: the invariant `I xs b` speaks of the entries `xs` still to be
visited and of the loop's current value `b`. -/
theorem Yields.foldlM {γ : Type*} {f : β → γ → Except ε β} {I : List γ → β → Prop}
    (step : ∀ x xs b, I (x :: xs) b → Yields allowed (f b x) (I xs)) (xs : List γ) (b : β)
    (h : I xs b) : Yields allowed (xs.foldlM f b) (I []) := by
  induction xs generalizing b with
  | nil => exact h
  | cons x xs ih =>
      rw [List.foldlM_cons]
      exact (step x xs b h).bind ih

/-! ## What a run needs in order to return -/

variable {P P' : Prop} {r : Except ε α} {f : α → Except ε β}

/-- The run returns only if `P` holds. -/
def Needs (r : Except ε α) (P : Prop) : Prop := ∀ a, r = .ok a → P

theorem needs_of (h : P) : Needs r P := fun _ _ => h

@[simp] theorem needs_error (e : ε) : Needs (.error e : Except ε α) P := fun _ h => nomatch h

@[simp] theorem needs_throw (e : ε) : Needs (throw e : Except ε α) P := fun _ h => nomatch h

theorem Needs.mono (h : Needs r P) (hP : P → P') : Needs r P' := fun a ha => hP (h a ha)

theorem Needs.bind_left (h : Needs r P) : Needs (r >>= f) P := by
  cases r with
  | ok a => exact needs_of (h a rfl)
  | error e => exact needs_error e

theorem Needs.bind (h : ∀ a, r = .ok a → Needs (f a) P) : Needs (r >>= f) P := by
  cases r with
  | ok a => exact h a rfl
  | error e => exact needs_error e

theorem Needs.ite {c : Prop} [Decidable c] {r' : Except ε α} (h : c → Needs r P)
    (h' : ¬ c → Needs r' P) : Needs (if c then r else r') P := by
  by_cases hc : c
  · rw [if_pos hc]
    exact h hc
  · rw [if_neg hc]
    exact h' hc

end Outcome
