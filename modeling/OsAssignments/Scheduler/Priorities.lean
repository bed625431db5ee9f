import OsAssignments.Scheduler.OneCpu

/-!
# Priorities

A priority is always between 1 and 20, and a process has waited for less than 30 ticks
since its priority was last set. So it is below the 21 with which a round starts.
-/

namespace Scheduler

open EventRun State

variable {ncpu nproc : ℕ} {s s' : State ncpu nproc} {c : Fin ncpu} {p q : Fin nproc}
  {a : Action ncpu nproc} {events trace : List (Event ncpu nproc)}

structure Prioritised (s : State ncpu nproc) : Prop where
  priority : ∀ p, 1 ≤ s.priority p ∧ s.priority p ≤ 20
  ticks : ∀ p, 0 ≤ s.waitTicks p ∧ s.waitTicks p < 30
  setting : ∀ p pid priority k, s.setting p = some (.loop pid priority k) →
    1 ≤ priority ∧ priority ≤ 20

theorem Prioritised.keep (h : Prioritised s) (hpriority : s'.priority = s.priority)
    (hticks : s'.waitTicks = s.waitTicks) (hsetting : s'.setting = s.setting) :
    Prioritised s' := by
  constructor
  · rw [hpriority]
    exact h.priority
  · rw [hticks]
    exact h.ticks
  · rw [hsetting]
    exact h.setting

theorem Prioritised.setPriority {x t : ℤ} (h : Prioritised s) (hx : 1 ≤ x ∧ x ≤ 20)
    (ht : 0 ≤ t ∧ t < 30) : Prioritised (s.setPriority p x t) := by
  refine ⟨fun j => ?_, fun j => ?_, h.setting⟩
  · rw [setPriority_priority]
    by_cases hj : j = p
    · rwa [hj, Function.update_self]
    · rw [Function.update_of_ne hj]
      exact h.priority j
  · rw [setPriority_waitTicks]
    by_cases hj : j = p
    · rwa [hj, Function.update_self]
    · rw [Function.update_of_ne hj]
      exact h.ticks j

theorem Prioritised.setSetting {x : Option Setting} (h : Prioritised s)
    (hx : ∀ pid priority k, x = some (.loop pid priority k) → 1 ≤ priority ∧ priority ≤ 20) :
    Prioritised (s.setSetting p x) := by
  refine ⟨h.priority, h.ticks, fun j pid priority k hj => ?_⟩
  rw [setSetting_setting] at hj
  by_cases hjp : j = p
  · rw [hjp, Function.update_self] at hj
    exact hx pid priority k hj
  · rw [Function.update_of_ne hjp] at hj
    exact h.setting j pid priority k hj

/-- A slot that is filled or cleared is not that of a process that waits for a CPU. -/
theorem ne_runnable_of_allocates {t : Process.State nproc} {i k : Fin nproc}
    (h : allocates t i = some k) : (t.proc k).state ≠ .runnable := by
  unfold allocates at h
  split at h
  · obtain ⟨_, hunused⟩ := Option.filter_eq_some_iff.mp h
    exact Process.ne_of_state (of_decide_eq_true hunused) (by decide)
  · cases h

theorem ne_runnable_of_frees {t : Process.State nproc} {i k : Fin nproc} {ok : Bool}
    (h : frees t i ok = some k) : (t.proc k).state ≠ .runnable := by
  unfold frees at h
  split at h
  · split_ifs at h
    obtain ⟨_, hunused⟩ := Option.filter_eq_some_iff.mp h
    exact Process.ne_of_state (of_decide_eq_true hunused) (by decide)
  · obtain ⟨_, hp⟩ := Option.filter_eq_some_iff.mp h
    rw [Bool.and_eq_true, Bool.and_eq_true, decide_eq_true_eq] at hp
    exact Process.ne_of_state hp.1.2 (by decide)
  · cases h

theorem reset_cases (s : State ncpu nproc) (p : Fin nproc) (ok : Bool) :
    reset s p ok = s ∨
      ∃ k, reset s p ok = s.setPriority k 10 0 ∧ (s.table.proc k).state ≠ .runnable := by
  unfold reset
  cases halloc : allocates s.table p with
  | some k => exact Or.inr ⟨k, rfl, ne_runnable_of_allocates halloc⟩
  | none =>
      cases hfree : frees s.table p ok with
      | some k => exact Or.inr ⟨k, rfl, ne_runnable_of_frees hfree⟩
      | none => exact Or.inl rfl

theorem Prioritised.ageProcess (h : Prioritised s) (k : Fin nproc) :
    Prioritised (ageProcess s k) := by
  have hpriority := h.priority k
  have hticks := h.ticks k
  unfold Scheduler.ageProcess
  split_ifs
  · exact h.setPriority (by omega) (by omega)
  · exact h.setPriority hpriority (by omega)
  · exact h.setPriority hpriority (by omega)
  · exact h.setPriority hpriority (by omega)

theorem Stepped.prioritised (hstep : Stepped s a s' events) (h : Prioritised s) :
    Prioritised s' := by
  cases hstep with
  | @dispatch c ok best _ _ _ _ =>
      refine (h.setPriority (p := best) (h.priority best) ?_).keep rfl rfl rfl
      exact ⟨le_refl 0, by decide⟩
  | @kernel c ok p t _ _ _ _ _ _ _ =>
      rcases reset_cases s p ok with heq | ⟨k, heq, _⟩
      · rw [heq]
        exact h.keep rfl rfl rfl
      · rw [heq]
        refine (h.setPriority (p := k) (x := 10) (t := 0) ?_ ?_).keep rfl rfl rfl <;> decide
  | @stop c ok p t _ _ _ _ _ _ _ =>
      rcases reset_cases s p ok with heq | ⟨k, heq, _⟩
      · rw [heq]
        exact h.keep rfl rfl rfl
      · rw [heq]
        refine (h.setPriority (p := k) (x := 10) (t := 0) ?_ ?_).keep rfl rfl rfl <;> decide
  | @setting c a p x _ _ _ hx =>
      refine h.setSetting fun pid priority k hk => ?_
      rcases hx pid priority k hk with hrange | ⟨k', hk'⟩
      · exact hrange
      · exact h.setting p pid priority k' hk'
  | @set c ok p k pid priority _ _ hset =>
      have hpriority := h.setting p pid priority k hset
      refine (h.setPriority hpriority ?_).setSetting fun _ _ _ hx => (nomatch hx)
      exact ⟨le_refl 0, by decide⟩
  | killed _ _ _ _ =>
      refine Prioritised.setSetting (h.keep rfl rfl rfl) fun _ _ _ hx => (nomatch hx)
  | @ageProcess c ok k _ => exact (h.ageProcess k).keep rfl rfl rfl
  | _ => exact h.keep rfl rfl rfl

theorem prioritised_of_run
    {ok : List (Event ncpu nproc) → State ncpu nproc → Action ncpu nproc → Prop}
    {initproc : Fin nproc} (h : Run step ok (boot ncpu initproc) trace s) : Prioritised s := by
  refine h.invariant (I := fun _ s => Prioritised s) ?_ ?_
  · refine ⟨fun p => ?_, fun p => ?_, fun _ _ _ _ hx => (nomatch hx)⟩
    · change (1 : ℤ) ≤ 10 ∧ (10 : ℤ) ≤ 20
      decide
    · change (0 : ℤ) ≤ 0 ∧ (0 : ℤ) < 30
      decide
  · exact fun _ _ _ _ _ hs _ hstep => (stepped_of_step hstep).prioritised hs

end Scheduler
