import OsAssignments.Scheduler.Turns

/-!
# Processes of one priority

From one dispatch of a process to the next, another process of the same priority that
waits is dispatched, as the cursor comes to it first. But there is one cursor for all
priorities. The dispatch of a third process may move it past the one that waits.
-/

namespace Scheduler

open Cyclic EventRun State

variable {ncpu nproc : ℕ} {s₀ s₁ s₂ s₃ s : State ncpu nproc} {c : Fin ncpu} {p q : Fin nproc}
  {a a' : Action ncpu nproc} {x : Cpu nproc} {m : ℤ}
  {events events' trace trace₀ : List (Event ncpu nproc)}

/-- The process `q` is `RUNNABLE` and both are of priority `m`. -/
def Level (p q : Fin nproc) (m : ℤ) (s : State ncpu nproc) : Prop :=
  (s.table.proc q).state = .runnable ∧ s.priority q = m ∧ s.priority p = m

/-- The step does not dispatch a process in one of the slots after `q` and before `p`. -/
def Aside (c : Fin ncpu) (p q : Fin nproc) (s : State ncpu nproc) (a : Action ncpu nproc) :
    Prop :=
  ∀ best : Fin nproc, Rechecks s c a best → (s.table.proc best).state = .runnable → best ≠ q →
    ¬ ahead nproc q best < ahead nproc q p

/-- The round has not chosen the process `p`. -/
def Unchosen (x : Cpu nproc) (p : Fin nproc) : Prop := x.pc.choosing = true → x.best ≠ some p

theorem unchosen_of_not_choosing (h : x.pc.choosing = false) : Unchosen x p := by
  intro hc
  cases h.symm.trans hc

theorem Turn.unchosen (h : Turn s c x events) (hcursor : (s.cpu c).cursor < nproc)
    (hfirst : ahead nproc (s.cpu c).cursor q < ahead nproc (s.cpu c).cursor p)
    (hp : s.priority p = m) (hscanned : Scanned (s.cpu c) q m) (hun : Unchosen (s.cpu c) p) :
    Unchosen x p := by
  cases h with
  | away hx _ _ =>
      rcases hx with rfl | ⟨hx, _⟩
      · exact hun
      · exact unchosen_of_not_choosing hx
  | round _ => exact fun _ hbest => (nomatch hbest)
  | @look off hoff hpc =>
      rcases look_cases (s := s) (s.cpu c) (index (s.cpu c).cursor hoff) off with
        ⟨_, hless, heq⟩ | ⟨_, heq⟩
      · rw [heq]
        intro _ hbest
        have hindex : index (s.cpu c).cursor hoff = p := Option.some.inj hbest
        have hahead : ahead nproc (s.cpu c).cursor p = off := by
          rw [← hindex, ahead_index hcursor hoff]
        have hfound := hscanned off hpc (hahead ▸ hfirst)
        rw [hindex, hp] at hless
        omega
      · rw [heq]
        exact fun _ hbest => hun (by rw [hpc]; rfl) hbest
  | chosen hpc _ => exact fun _ hbest => hun (by rw [hpc]; rfl) hbest
  | idle _ _ _ => exact unchosen_of_not_choosing rfl
  | dispatch _ _ _ => exact unchosen_of_not_choosing rfl
  | missed _ _ _ => exact unchosen_of_not_choosing rfl

theorem Turn.dispatched (h : Turn s c x events) (hp : .dispatch c p ∈ events) :
    (s.cpu c).pc = .dispatch ∧ (s.cpu c).best = some p ∧ x.pc.choosing = false ∧
      x.cursor = (p + 1) % nproc := by
  cases h with
  | away _ _ hquiet => exact absurd hp (hquiet.1 p)
  | dispatch hpc hbest _ =>
      cases List.mem_singleton.mp hp
      exact ⟨hpc, hbest, rfl, rfl⟩
  | _ => simp at hp

/-- The cursor meets `q` before `p`, and the round has not chosen `p`. -/
structure First (x : Cpu nproc) (p q : Fin nproc) (m : ℤ) : Prop where
  first : ahead nproc x.cursor q < ahead nproc x.cursor p
  scanned : Scanned x q m
  unchosen : Unchosen x p

theorem Turn.first (h : Turn s c x events) (hcursor : (s.cpu c).cursor < nproc)
    (hq : (s.table.proc q).state = .runnable) (hqm : s.priority q = m) (hpm : s.priority p = m)
    (haside : ∀ best : Fin nproc, .dispatch c best ∈ events →
      ¬ ahead nproc q best < ahead nproc q p)
    (hfirst : First (s.cpu c) p q m) :
    First x p q m := by
  refine ⟨?_, h.scanned hcursor hq hqm.le hfirst.scanned,
    h.unchosen hcursor hfirst.first hpm hfirst.scanned hfirst.unchosen⟩
  cases h with
  | away _ hkeep _ =>
      rw [hkeep]
      exact hfirst.first
  | look _ _ =>
      rw [(look_eq _ _ _).2.2]
      exact hfirst.first
  | @dispatch best hpc hbest _ =>
      exact ahead_lt_ahead_succ hcursor q.is_lt p.is_lt best.is_lt hfirst.first
        (haside best (List.mem_singleton.mpr rfl))
  | _ => exact hfirst.first

/-- If `q` waits with the priority of `p` from one dispatch of `p` by a CPU to the next, then
it is dispatched in between, unless first a process in a slot after `q` and before `p` is. -/
theorem round_robin {initproc : Fin nproc}
    (h₀ : Run step (fun _ _ _ => True) (boot ncpu initproc) trace₀ s₀) (hpq : q ≠ p)
    (hs₀ : step s₀ a = some (s₁, events)) (hfirst : .dispatch c p ∈ events)
    (h : Run step (fun trace s a => .dispatch c q ∈ trace ∨ Level p q m s ∧ Aside c p q s a)
      s₁ trace s₂)
    (hs₂ : step s₂ a' = some (s₃, events'))
    (hnext : .dispatch c p ∈ events') : .dispatch c q ∈ trace := by
  have hturn₀ := (stepped_of_step hs₀).turn c
  obtain ⟨_, _, hchoosing, hcursor⟩ := hturn₀.dispatched hfirst
  have hstart : First (s₁.cpu c) p q m := by
    refine ⟨?_, scanned_of_not_choosing hchoosing, unchosen_of_not_choosing hchoosing⟩
    have hlt := ahead_succ_lt q.is_lt p.is_lt (Fin.val_ne_of_ne hpq)
    rw [hcursor, ahead_succ_self p.is_lt]
    omega
  have hinv : (s₂.cpu c).cursor < nproc ∧ (.dispatch c q ∈ trace ∨ First (s₂.cpu c) p q m) := by
    refine h.invariant (I := fun trace s => (s.cpu c).cursor < nproc ∧
      (.dispatch c q ∈ trace ∨ First (s.cpu c) p q m)) ?_ ?_
    · exact ⟨hturn₀.cursor_lt (cpu_of_run h₀ c).1, Or.inr hstart⟩
    · rintro trace s a s' events ⟨hcursor, hor⟩ hok hs
      have hturn := (stepped_of_step hs).turn c
      refine ⟨hturn.cursor_lt hcursor, ?_⟩
      rw [List.mem_append]
      by_cases hdone : .dispatch c q ∈ trace ∨ .dispatch c q ∈ events
      · exact Or.inl hdone
      · rw [not_or] at hdone
        obtain ⟨⟨hq, hqm, hpm⟩, haside⟩ := hok.resolve_left hdone.1
        refine Or.inr (hturn.first hcursor hq hqm hpm ?_ (hor.resolve_left hdone.1))
        intro best hbest
        obtain ⟨hagain, hstate⟩ := (stepped_of_step hs).rechecks_of_dispatch hbest
        refine haside best hagain hstate ?_
        rintro rfl
        exact hdone.2 hbest
  obtain ⟨hpc, hbest, _, _⟩ := ((stepped_of_step hs₂).turn c).dispatched hnext
  refine hinv.2.resolve_right fun hfirst₂ => ?_
  exact hfirst₂.unchosen (by rw [hpc]; rfl) hbest

/-! ## A third process -/

instance (p q : Fin nproc) (m : ℤ) (s : State ncpu nproc) : Decidable (Level p q m s) :=
  inferInstanceAs (Decidable (_ ∧ _))

instance (c : Fin ncpu) (p q : Fin nproc) (s : State ncpu nproc) (a : Action ncpu nproc) :
    Decidable (Aside c p q s a) :=
  inferInstanceAs (Decidable (∀ _ : Fin nproc, _))

/-- The first process forks twice and is preempted. Its first child is about to be
dispatched. -/
def forkTwins : List (Action 1 3) :=
  steps 0 7 ++ [.trap 0 .fork] ++ steps 0 5 ++ [.trap 0 .fork] ++ steps 0 6 ++ [.timer 0] ++
    steps 0 11

/-- Each of the three is preempted in turn, until the first child is about to be dispatched
again. -/
def takeTurns : List (Action 1 3) :=
  steps 0 1 ++ [.timer 0] ++ steps 0 13 ++ [.timer 0] ++ steps 0 13 ++ [.timer 0] ++ steps 0 11

theorem round_robin_takeTurns : ∃ trace₀ s₀ s₁ trace s₂,
    Run step (fun _ _ _ => True) (boot 1 (0 : Fin 3)) trace₀ s₀ ∧
      step s₀ (.go 0 true) = some (s₁, [.dispatch 0 1]) ∧
      Run step (fun trace s a => .dispatch 0 2 ∈ trace ∨ Level 1 2 10 s ∧ Aside 0 1 2 s a)
        s₁ trace s₂ ∧ .dispatch 0 0 ∈ trace ∧
      (∃ s₃, step s₂ (.go 0 true) = some (s₃, [.dispatch 0 1])) ∧ .dispatch 0 2 ∈ trace := by
  have htest : (exec step (fun _ _ _ => True) forkTwins [] (boot 1 (0 : Fin 3))).any
      (fun r => (step r.2 (.go 0 true)).any fun r => decide (r.2 = [.dispatch 0 1]) &&
        (exec step (fun trace s a => .dispatch 0 2 ∈ trace ∨ Level 1 2 10 s ∧ Aside 0 1 2 s a)
          takeTurns [] r.1).any fun r => decide (.dispatch 0 0 ∈ r.1) &&
            (step r.2 (.go 0 true)).any fun r => decide (r.2 = [.dispatch 0 1])) = true := by
    decide +kernel
  obtain ⟨trace₀, s₀, hrun₀, hs₀⟩ := exists_run htest
  obtain ⟨⟨s₁, events⟩, hstep, hs₁⟩ := (Option.any_eq_true _ _).mp hs₀
  rw [Bool.and_eq_true, decide_eq_true_eq] at hs₁
  obtain ⟨trace, s₂, hrun, hs₂⟩ := exists_run hs₁.2
  rw [Bool.and_eq_true, decide_eq_true_eq] at hs₂
  obtain ⟨⟨s₃, events'⟩, hstep', hs₃⟩ := (Option.any_eq_true _ _).mp hs₂.2
  obtain rfl : events = [.dispatch 0 1] := hs₁.1
  obtain rfl : events' = [.dispatch 0 1] := of_decide_eq_true hs₃
  have hmem : (.dispatch 0 1 : Event 1 3) ∈ [(.dispatch 0 1 : Event 1 3)] :=
    List.mem_singleton.mpr rfl
  exact ⟨trace₀, s₀, s₁, trace, s₂, hrun₀, hstep, hrun, hs₂.1, ⟨s₃, hstep'⟩,
    round_robin hrun₀ (by decide) hstep hmem hrun hstep' hmem⟩

/-- The first process forks twice and gives its first child priority 5. It is preempted, and
that child runs and sleeps. Then the other child is about to be dispatched. -/
def sleepUrgent : List (Action 1 3) :=
  steps 0 7 ++ [.trap 0 .fork] ++ steps 0 5 ++ [.trap 0 .fork] ++ steps 0 6 ++
    [.setPriority 0 2 5] ++ steps 0 3 ++ [.timer 0] ++ steps 0 13 ++ [.trap 0 (.other 7)] ++
    steps 0 9

/-- The first child is woken and the second preempted. The first child is dispatched and goes
back to sleep, and the second is about to be dispatched again. -/
def wakeUrgent : List (Action 1 3) :=
  [.wakeOther 1 7] ++ steps 0 1 ++ [.timer 0] ++ steps 0 13 ++ [.go 0 false] ++ steps 0 9

/-- The process in slot 2 is dispatched twice on the only CPU, and in between the one in slot
0 is `RUNNABLE` all the time, with the same priority. -/
theorem skipped_in_turn : ∃ trace₀ s₀ s₁ trace s₂,
    Run step (fun _ _ _ => True) (boot 1 (0 : Fin 3)) trace₀ s₀ ∧
      step s₀ (.go 0 true) = some (s₁, [.dispatch 0 2]) ∧
      Run step (fun _ s _ => (s.table.proc 0).state = .runnable ∧ s.priority 0 = 10 ∧
        s.priority 2 = 10) s₁ trace s₂ ∧ (s₂.table.proc 0).state = .runnable ∧
      s₂.priority 0 = 10 ∧ s₂.priority 2 = 10 ∧
      (∃ s₃, step s₂ (.go 0 true) = some (s₃, [.dispatch 0 2])) ∧ .dispatch 0 0 ∉ trace := by
  have htest : (exec step (fun _ _ _ => True) sleepUrgent [] (boot 1 (0 : Fin 3))).any
      (fun r => (step r.2 (.go 0 true)).any fun r => decide (r.2 = [.dispatch 0 2]) &&
        (exec step (fun _ s _ => (s.table.proc 0).state = .runnable ∧ s.priority 0 = 10 ∧
          s.priority 2 = 10) wakeUrgent [] r.1).any fun r =>
            decide ((r.2.table.proc 0).state = .runnable ∧ r.2.priority 0 = 10 ∧
              r.2.priority 2 = 10 ∧ .dispatch 0 0 ∉ r.1) &&
            (step r.2 (.go 0 true)).any fun r => decide (r.2 = [.dispatch 0 2])) = true := by
    decide +kernel
  obtain ⟨trace₀, s₀, hrun₀, hs₀⟩ := exists_run htest
  obtain ⟨⟨s₁, events⟩, hstep, hs₁⟩ := (Option.any_eq_true _ _).mp hs₀
  rw [Bool.and_eq_true, decide_eq_true_eq] at hs₁
  obtain ⟨trace, s₂, hrun, hs₂⟩ := exists_run hs₁.2
  rw [Bool.and_eq_true, decide_eq_true_eq] at hs₂
  obtain ⟨⟨s₃, events'⟩, hstep', hs₃⟩ := (Option.any_eq_true _ _).mp hs₂.2
  obtain rfl : events = [.dispatch 0 2] := hs₁.1
  obtain rfl : events' = [.dispatch 0 2] := of_decide_eq_true hs₃
  obtain ⟨hq, hqm, hpm, hnot⟩ := hs₂.1
  exact ⟨trace₀, s₀, s₁, trace, s₂, hrun₀, hstep, hrun, hq, hqm, hpm, ⟨s₃, hstep'⟩, hnot⟩

end Scheduler
