import OsAssignments.Scheduler.Priorities
import OsAssignments.Scheduler.Turns

/-!
# An idle CPU

A round ends in `wfi` either because its loop found nothing, and then no process was
`RUNNABLE` all the time, or because the candidate it found is no longer `RUNNABLE` when it
is looked at again. In the second case other processes may be waiting: another CPU has
taken the candidate, and this one does not look for the next best.
-/

namespace Scheduler

open Cyclic EventRun State

variable {ncpu nproc : ℕ} {s₀ s s' : State ncpu nproc} {c : Fin ncpu} {q : Fin nproc}
  {a : Action ncpu nproc} {x : Cpu nproc} {events trace trace₀ : List (Event ncpu nproc)}

/-- If the CPU looks at its candidate again in this step, that is still `RUNNABLE`. -/
def Stands (s : State ncpu nproc) (c : Fin ncpu) (a : Action ncpu nproc) : Prop :=
  ∀ best, Rechecks s c a best → (s.table.proc best).state = .runnable

/-- A round that has scanned a `RUNNABLE` process does not end in `wfi` while its candidate
stands. -/
theorem Stepped.not_wfi (h : Stepped s a s' events) (hcursor : (s.cpu c).cursor < nproc)
    (hunfound : Unfound (s.cpu c)) (hscanned : Scanned (s.cpu c) q 20) (hstands : Stands s c a) :
    .wfi c ∉ events := by
  intro hc
  rcases h.rechecks_of_wfi hc with ⟨off, hpc, hoff, hbest⟩ | ⟨best, hagain, hstate⟩
  · have hpast := (ahead_lt hcursor q.is_lt).trans_le hoff
    exact hscanned.best_ne_none hunfound hpc hpast (le_refl 20) hbest
  · exact hstate (hstands best hagain)

/-- A CPU that starts a round while some process is `RUNNABLE`, and stays so, does not go
idle, unless the candidate of a round is no longer `RUNNABLE` when it is looked at again. -/
theorem work_conserving {initproc : Fin nproc}
    (h₀ : Run step (fun _ _ _ => True) (boot ncpu initproc) trace₀ s₀)
    (hpc : (s₀.cpu c).pc = .scan 0)
    (h : Run step (fun _ s a => (s.table.proc q).state = .runnable ∧ Stands s c a) s₀ trace s) :
    .wfi c ∉ trace := by
  obtain ⟨hcursor, hunfound⟩ := cpu_of_run h₀ c
  have hstart : Scanned (s₀.cpu c) q 20 := by
    intro off hoff hpast
    cases hpc.symm.trans hoff
    exact absurd hpast (Nat.not_lt_zero _)
  suffices hinv : ((s.cpu c).cursor < nproc ∧ Unfound (s.cpu c) ∧ Prioritised s) ∧
      Scanned (s.cpu c) q 20 ∧ .wfi c ∉ trace from hinv.2.2
  refine h.invariant (I := fun trace s => ((s.cpu c).cursor < nproc ∧ Unfound (s.cpu c) ∧
    Prioritised s) ∧ Scanned (s.cpu c) q 20 ∧ .wfi c ∉ trace) ?_ ?_
  · exact ⟨⟨hcursor, hunfound, prioritised_of_run h₀⟩, hstart, List.not_mem_nil⟩
  · rintro trace s a s' events ⟨⟨hcursor, hunfound, hprior⟩, hscanned, hquiet⟩ ⟨hq, hstands⟩ hs
    have hstep := stepped_of_step hs
    have hturn := hstep.turn c
    refine ⟨⟨hturn.cursor_lt hcursor, hturn.unfound hunfound, hstep.prioritised hprior⟩,
      hturn.scanned hcursor hq (hprior.priority q).2 hscanned, ?_⟩
    rw [List.mem_append, not_or]
    exact ⟨hquiet, hstep.not_wfi hcursor hunfound hscanned hstands⟩

/-! ## Two CPUs with one candidate -/

instance (s : State ncpu nproc) (c : Fin ncpu) (a : Action ncpu nproc) :
    Decidable (Stands s c a) :=
  inferInstanceAs (Decidable (∀ _ : Fin nproc, _))

/-- The first process forks twice on CPU 0, and CPU 1 starts a round. -/
def forkTwice : List (Action 2 3) :=
  steps 0 7 ++ [.trap 0 .fork] ++ steps 0 5 ++ [.trap 0 .fork] ++ steps 0 6 ++ steps 1 1

/-- CPU 1 chooses its candidate. If `taken`, CPU 0 preempts the first process then and
dispatches that candidate. Then CPU 1 goes on. -/
def chooseSame (taken : Bool) : List (Action 2 3) :=
  steps 1 4 ++ (if taken then [.timer 0] ++ steps 0 13 else []) ++ steps 1 1

theorem work_conserving_forkTwice : ∃ trace₀ s₀ trace s,
    Run step (fun _ _ _ => True) (boot 2 (0 : Fin 3)) trace₀ s₀ ∧ (s₀.cpu 1).pc = .scan 0 ∧
      Run step (fun _ s a => (s.table.proc 2).state = .runnable ∧ Stands s 1 a) s₀ trace s ∧
      .dispatch 1 1 ∈ trace ∧ .wfi 1 ∉ trace := by
  have htest : (exec step (fun _ _ _ => True) forkTwice [] (boot 2 (0 : Fin 3))).any
      (fun r => decide ((r.2.cpu 1).pc = .scan 0) &&
        (exec step (fun _ s a => (s.table.proc 2).state = .runnable ∧ Stands s 1 a)
          (chooseSame false) [] r.2).any fun r => decide (.dispatch 1 1 ∈ r.1)) = true := by
    decide +kernel
  obtain ⟨trace₀, s₀, hrun₀, hs₀⟩ := exists_run htest
  rw [Bool.and_eq_true, decide_eq_true_eq] at hs₀
  obtain ⟨trace, s, hrun, hs⟩ := exists_run hs₀.2
  exact ⟨trace₀, s₀, trace, s, hrun₀, hs₀.1, hrun, of_decide_eq_true hs,
    work_conserving hrun₀ hs₀.1 hrun⟩

/-- CPU 1 goes idle while the process in slot 2 is `RUNNABLE` from the start of its round. -/
theorem idle_while_runnable : ∃ trace₀ s₀ trace s,
    Run step (fun _ _ _ => True) (boot 2 (0 : Fin 3)) trace₀ s₀ ∧ (s₀.cpu 1).pc = .scan 0 ∧
      Run step (fun _ s _ => (s.table.proc 2).state = .runnable) s₀ trace s ∧
      (s.table.proc 2).state = .runnable ∧ (∀ c, .dispatch c 2 ∉ trace) ∧ .wfi 1 ∈ trace := by
  have htest : (exec step (fun _ _ _ => True) forkTwice [] (boot 2 (0 : Fin 3))).any
      (fun r => decide ((r.2.cpu 1).pc = .scan 0) &&
        (exec step (fun _ s _ => (s.table.proc 2).state = .runnable) (chooseSame true) []
          r.2).any fun r => decide ((r.2.table.proc 2).state = .runnable ∧
            (∀ c, .dispatch c 2 ∉ r.1) ∧ .wfi 1 ∈ r.1)) = true := by
    decide +kernel
  obtain ⟨trace₀, s₀, hrun₀, hs₀⟩ := exists_run htest
  rw [Bool.and_eq_true, decide_eq_true_eq] at hs₀
  obtain ⟨trace, s, hrun, hs⟩ := exists_run hs₀.2
  exact ⟨trace₀, s₀, trace, s, hrun₀, hs₀.1, hrun, of_decide_eq_true hs⟩

end Scheduler
