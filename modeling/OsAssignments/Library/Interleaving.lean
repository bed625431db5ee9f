import Mathlib.Algebra.BigOperators.Group.Finset.Piecewise
import Mathlib.Algebra.Order.BigOperators.Group.Finset
import Mathlib.Logic.Relation

/-!
# Interleaved programs

Several parties run over one shared state. `step i` is the next step of party `i`: from
the shared state and the party's own state it gives the two states after the step, or
nothing while the party is blocked and once it has finished. In a run the parties take
their steps in any order; `ok` may say which party may move in which state.

`Runs.invariant` is the induction over a run. Invariants that count parties are written
with `total`, the sum of a weight over the parties: a step changes one term of the sum,
and `total_update` says by how much.
-/

open scoped BigOperators

namespace Interleaving

variable {ι σ κ : Type*}

/-- The shared state and the state of each party. -/
structure State (ι σ κ : Type*) where
  shared : σ
  party : ι → κ

section Runs

variable [DecidableEq ι] {step : ι → σ → κ → Option (σ × κ)}
  {ok : State ι σ κ → ι → Prop} {s s' s₀ : State ι σ κ} {i : ι} {x : σ} {k : κ}

/-- The state after party `i` has moved. -/
def State.move (s : State ι σ κ) (i : ι) (x : σ) (k : κ) : State ι σ κ :=
  ⟨x, Function.update s.party i k⟩

@[simp] theorem State.move_shared : (s.move i x k).shared = x := rfl

@[simp] theorem State.move_party : (s.move i x k).party = Function.update s.party i k := rfl

/-- What holds of the party that moves, and of the others as they are, holds of all. -/
theorem State.forall_move {P : σ → ι → κ → Prop} (hself : P x i k)
    (hother : ∀ j, j ≠ i → P x j (s.party j)) :
    ∀ j, P (s.move i x k).shared j ((s.move i x k).party j) := by
  intro j
  by_cases hj : j = i
  · rw [hj, State.move_party, Function.update_self]
    exact hself
  · rw [State.move_party, Function.update_of_ne hj]
    exact hother j hj

/-- One party that may move takes its next step. -/
inductive Steps (step : ι → σ → κ → Option (σ × κ)) (ok : State ι σ κ → ι → Prop)
    (s : State ι σ κ) : State ι σ κ → Prop
  | move {i : ι} {x : σ} {k : κ} : ok s i → step i s.shared (s.party i) = some (x, k) →
      Steps step ok s (s.move i x k)

/-- Any number of steps, by any parties that may move, in any order. -/
abbrev Runs (step : ι → σ → κ → Option (σ × κ)) (ok : State ι σ κ → ι → Prop) :
    State ι σ κ → State ι σ κ → Prop :=
  Relation.ReflTransGen (Steps step ok)

def Anyone (_ : State ι σ κ) (_ : ι) : Prop := True

/-- What holds at the start and is kept by the step of every party holds in every state
of a run. -/
theorem Runs.invariant {I : State ι σ κ → Prop} (hstart : I s₀)
    (hstep : ∀ s i x k, I s → ok s i → step i s.shared (s.party i) = some (x, k) →
      I (s.move i x k))
    (h : Runs step ok s₀ s) : I s := by
  induction h with
  | refl => exact hstart
  | tail _ hs ih =>
      cases hs with
      | move hok hk => exact hstep _ _ _ _ ih hok hk

/-- Some party has not finished, and every party that has not finished is blocked. -/
def Deadlocked (step : ι → σ → κ → Option (σ × κ)) (finished : κ → Prop)
    (s : State ι σ κ) : Prop :=
  (∃ i, ¬ finished (s.party i)) ∧
    ∀ i, ¬ finished (s.party i) → step i s.shared (s.party i) = none

/-! ## Runs by a schedule -/

instance (s : State ι σ κ) (i : ι) : Decidable (Anyone s i) := inferInstanceAs (Decidable True)

def exec (step : ι → σ → κ → Option (σ × κ)) (ok : State ι σ κ → ι → Prop)
    [∀ s i, Decidable (ok s i)] (s : State ι σ κ) : List ι → Option (State ι σ κ)
  | [] => some s
  | i :: schedule =>
      if ok s i then
        match step i s.shared (s.party i) with
        | some (x, k) => exec step ok (s.move i x k) schedule
        | none => none
      else
        none

theorem runs_of_exec [∀ s i, Decidable (ok s i)] {schedule : List ι}
    (h : exec step ok s schedule = some s') : Runs step ok s s' := by
  induction schedule generalizing s with
  | nil =>
      cases h
      exact .refl
  | cons i schedule ih =>
      rw [exec] at h
      split_ifs at h with hok
      cases hs : step i s.shared (s.party i) with
      | none =>
          rw [hs] at h
          cases h
      | some r =>
          rw [hs] at h
          exact .head (.move hok hs) (ih h)

/-- A run found by a test: the schedule is possible, and the last state passes `p`. -/
theorem exists_run [∀ s i, Decidable (ok s i)] {schedule : List ι} {p : State ι σ κ → Bool}
    (h : (exec step ok s schedule).any p = true) : ∃ s', Runs step ok s s' ∧ p s' = true := by
  obtain ⟨s', hexec, hp⟩ := (Option.any_eq_true _ _).mp h
  exact ⟨s', runs_of_exec hexec, hp⟩

end Runs

/-! ## Sums over the parties -/

section Total

variable [Fintype ι] {w : ι → κ → ℕ} {party : ι → κ} {i j : ι}

def total (w : ι → κ → ℕ) (party : ι → κ) : ℕ := ∑ i, w i (party i)

theorem le_total (w : ι → κ → ℕ) (party : ι → κ) (i : ι) : w i (party i) ≤ total w party :=
  Finset.single_le_sum (f := fun i => w i (party i)) (fun _ _ => Nat.zero_le _) (Finset.mem_univ i)

theorem total_eq_zero (h : ∀ i, w i (party i) = 0) : total w party = 0 :=
  Finset.sum_eq_zero fun i _ => h i

variable [DecidableEq ι]

theorem add_le_total (w : ι → κ → ℕ) (party : ι → κ) (h : i ≠ j) :
    w i (party i) + w j (party j) ≤ total w party := by
  have hpair := Finset.sum_pair (f := fun i => w i (party i)) h
  rw [← hpair]
  exact Finset.sum_le_sum_of_subset (Finset.subset_univ _)

theorem total_update (w : ι → κ → ℕ) (party : ι → κ) (i : ι) (k : κ) :
    total w (Function.update party i k) + w i (party i) = total w party + w i k := by
  have hsplit : ∀ f : ι → κ, total w f = w i (f i) + ∑ j ∈ Finset.univ.erase i, w j (f j) :=
    fun f => (Finset.add_sum_erase Finset.univ (fun j => w j (f j)) (Finset.mem_univ i)).symm
  have hrest : ∑ j ∈ Finset.univ.erase i, w j (Function.update party i k j) =
      ∑ j ∈ Finset.univ.erase i, w j (party j) := by
    apply Finset.sum_congr rfl
    intro j hj
    rw [Function.update_of_ne (Finset.ne_of_mem_erase hj)]
  rw [hsplit, hsplit party, hrest, Function.update_self]
  omega

/-- Of parties that weigh no more than one together, only one has any weight. -/
theorem eq_of_total_le_one (h : total w party ≤ 1) (hi : 0 < w i (party i))
    (hj : 0 < w j (party j)) : i = j := by
  by_contra hij
  have hle := add_le_total w party hij
  omega

end Total

/-! ## Counting semaphores -/

/-- `down` on a semaphore with the value `n`: it waits until `n` is positive. -/
def down : ℕ → Option ℕ
  | 0 => none
  | n + 1 => some n

@[simp] theorem down_eq_none {n : ℕ} : down n = none ↔ n = 0 := by
  cases n with
  | zero => simp [down]
  | succ n => simp [down]

@[simp] theorem down_eq_some {n m : ℕ} : down n = some m ↔ n = m + 1 := by
  cases n with
  | zero => simp [down]
  | succ n => simp [down]

end Interleaving
