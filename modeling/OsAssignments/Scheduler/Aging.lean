import Mathlib.Algebra.BigOperators.Fin
import OsAssignments.Scheduler.Priorities
import OsAssignments.Scheduler.Turns

/-!
# Aging

What `age_processes` does to a process that waits, and what the scheduler does once it has
priority 1. `passed` counts the calls under way that have already come past its slot: with
them, the number of calls is the number of times the process has aged. A round cannot
choose a process that its loop meets after one of priority 1, so each dispatch of another
process brings the cursor nearer.
-/

namespace Scheduler

open Cyclic EventRun State

variable {ncpu nproc : ℕ} {s₀ s s' : State ncpu nproc} {c : Fin ncpu} {p q : Fin nproc}
  {a : Action ncpu nproc} {x : Cpu nproc} {events trace trace₀ : List (Event ncpu nproc)}

/-! ## The calls of age_processes -/

/-- The CPU is in `age_processes`, and past the slot `q`. -/
def CpuPc.passed (q : Fin nproc) : CpuPc → ℕ
  | age k => if q < k then 1 else 0
  | _ => 0

/-- The calls of `age_processes` under way that are past the slot `q`. -/
def passed (s : State ncpu nproc) (q : Fin nproc) : ℕ := ∑ c, (s.cpu c).pc.passed q

theorem passed_update (hcpu : s'.cpu = Function.update s.cpu c x) :
    passed s' q + (s.cpu c).pc.passed q = passed s q + x.pc.passed q := by
  have hrest : ∑ d ∈ Finset.univ.erase c, (s'.cpu d).pc.passed q =
      ∑ d ∈ Finset.univ.erase c, (s.cpu d).pc.passed q := by
    refine Finset.sum_congr rfl fun d hd => ?_
    rw [hcpu, Function.update_of_ne (Finset.ne_of_mem_erase hd)]
  have hself : (s'.cpu c).pc.passed q = x.pc.passed q := by rw [hcpu, Function.update_self]
  have hs := Finset.add_sum_erase Finset.univ (fun d => (s.cpu d).pc.passed q) (Finset.mem_univ c)
  have hs' := Finset.add_sum_erase Finset.univ (fun d => (s'.cpu d).pc.passed q) (Finset.mem_univ c)
  unfold passed
  omega

/-- What a step does to a process that waits: nothing, or what one tick does to it. -/
inductive Waited (s s' : State ncpu nproc) (q : Fin nproc) (events : List (Event ncpu nproc)) : Prop
  | keep : s'.priority q = s.priority q → s'.waitTicks q = s.waitTicks q →
      events.count .aged + passed s' q = passed s q → Waited s s' q events
  | age : s'.priority q = (ageProcess s q).priority q →
      s'.waitTicks q = (ageProcess s q).waitTicks q →
      events.count .aged + passed s' q = passed s q + 1 → Waited s s' q events

theorem Waited.move (hcpu : s'.cpu = Function.update s.cpu c x) (hx : x.pc.passed q = 0)
    (hc : (s.cpu c).pc.passed q = 0)
    (hrating : s'.priority q = s.priority q ∧ s'.waitTicks q = s.waitTicks q)
    (hcount : events.count .aged = 0) : Waited s s' q events := by
  have hupdate := passed_update (q := q) hcpu
  exact .keep hrating.1 hrating.2 (by omega)

theorem Waited.stay (hcpu : s'.cpu = s.cpu)
    (hrating : s'.priority q = s.priority q ∧ s'.waitTicks q = s.waitTicks q)
    (hcount : events.count .aged = 0) : Waited s s' q events := by
  refine .keep hrating.1 hrating.2 ?_
  unfold passed
  rw [hcount, hcpu, Nat.zero_add]

theorem count_aged_calls (l : List Process.Event) (o : Option (Fin nproc)) :
    (l.map .call ++ o.toList.map .freeproc : List (Event ncpu nproc)).count .aged = 0 := by
  simp [List.count_eq_zero]

theorem passed_of_interruptible (h : interruptible s c = true) : (s.cpu c).pc.passed q = 0 := by
  rcases interruptible_iff.mp h with hpc | ⟨hpc, _⟩ <;> rw [hpc] <;> rfl

theorem preempt_cpu : ∃ pc, (preempt s c).cpu = Function.update s.cpu c { s.cpu c with pc := pc } ∧
    pc.passed q = 0 := by
  refine ⟨_, rfl, ?_⟩
  split_ifs <;> rfl

theorem setPriority_of_ne {y t : ℤ} (h : q ≠ p) : (s.setPriority p y t).priority q = s.priority q ∧
    (s.setPriority p y t).waitTicks q = s.waitTicks q := by
  simp [h]

theorem ageProcess_of_ne (h : q ≠ p) : (ageProcess s p).priority q = s.priority q ∧
    (ageProcess s p).waitTicks q = s.waitTicks q := by
  obtain ⟨priority, ticks, heq⟩ := ageProcess_eq (s := s) p
  rw [heq]
  exact setPriority_of_ne h

theorem reset_of_runnable {ok : Bool} (hq : (s.table.proc q).state = .runnable) :
    (reset s p ok).priority q = s.priority q ∧ (reset s p ok).waitTicks q = s.waitTicks q := by
  rcases reset_cases s p ok with heq | ⟨k, heq, hk⟩
  · rw [heq]
    exact ⟨rfl, rfl⟩
  · rw [heq]
    exact setPriority_of_ne fun heq => hk (heq ▸ hq)

theorem Stepped.waited (hstep : Stepped s a s' events) (hq : (s.table.proc q).state = .runnable)
    (hq' : (s'.table.proc q).state = .runnable) (hset : .setPriority q ∉ events) :
    Waited s s' q events := by
  have hsame : s.priority q = s.priority q ∧ s.waitTicks q = s.waitTicks q := ⟨rfl, rfl⟩
  cases hstep with
  | round hpc => exact .move rfl rfl (by rw [hpc]; rfl) hsame rfl
  | look _ hpc _ =>
      refine .move rfl ?_ (by rw [hpc]; rfl) hsame rfl
      rw [(look_eq _ _ _).2.1]
      rfl
  | chosen hpc _ _ => exact .move rfl rfl (by rw [hpc]; rfl) hsame rfl
  | idle hpc _ _ => exact .move rfl rfl (by rw [hpc]; rfl) hsame rfl
  | @dispatch d ok best hpc _ _ _ =>
      have hne : q ≠ best := by
        rintro rfl
        simp at hq'
      exact .move rfl rfl (by rw [hpc]; rfl) (setPriority_of_ne hne) rfl
  | missed hpc _ _ => exact .move rfl rfl (by rw [hpc]; rfl) hsame rfl
  | wake hpc => exact .move rfl rfl (by rw [hpc]; rfl) hsame rfl
  | back hpc _ => exact .move rfl rfl (by rw [hpc]; rfl) hsame rfl
  | switched hpc _ => exact .move rfl rfl (by rw [hpc]; rfl) hsame rfl
  | @kernel d ok p t _ _ _ _ _ _ _ =>
      exact .stay (reset_cpu ok) (reset_of_runnable hq) (count_aged_calls _ _)
  | @stop d ok p t _ hpc _ _ _ _ _ =>
      refine .move (c := d) (x := { s.cpu d with pc := .back }) ?_ rfl (by rw [hpc]; rfl)
        (reset_of_runnable hq) (count_aged_calls _ _)
      change Function.update (reset s p ok).cpu d { (reset s p ok).cpu d with pc := .back } = _
      rw [reset_cpu]
  | @set d ok p k pid priority _ _ _ =>
      have hne : q ≠ k := by
        rintro rfl
        exact hset (List.mem_singleton.mpr rfl)
      exact .stay rfl (setPriority_of_ne hne) rfl
  | trap _ _ _ _ => exact .stay rfl hsame (by simp [List.count_eq_zero])
  | tick hint =>
      refine .move rfl ?_ (passed_of_interruptible hint) hsame rfl
      simp [CpuPc.passed]
  | preempt hint =>
      obtain ⟨pc, hcpu, hpc⟩ := preempt_cpu (s := s) (q := q)
      exact .move hcpu hpc (passed_of_interruptible hint) hsame rfl
  | @ageProcess d ok k hpc =>
      have hcpu : ((Scheduler.ageProcess s k).goto d (.age (k + 1))).cpu =
          Function.update s.cpu d { s.cpu d with pc := .age (k + 1) } := by
        obtain ⟨priority, ticks, heq⟩ := ageProcess_eq (s := s) k
        rw [heq]
        rfl
      have hupdate := passed_update (q := q) hcpu
      rw [hpc] at hupdate
      simp only [CpuPc.passed] at hupdate
      by_cases hne : q = k
      · subst hne
        rw [if_neg (lt_irrefl _), if_pos (Nat.lt_succ_self _)] at hupdate
        exact .age rfl rfl (by simpa using hupdate)
      · refine .keep (ageProcess_of_ne hne).1 (ageProcess_of_ne hne).2 ?_
        have hne' : q.val ≠ k.val := fun heq => hne (Fin.ext heq)
        split_ifs at hupdate <;> simp <;> omega
  | @aged d ok k hpc hk =>
      obtain ⟨pc, hcpu, hpassed⟩ := preempt_cpu (s := s) (c := d) (q := q)
      have hupdate := passed_update (q := q) hcpu
      rw [hpassed, hpc] at hupdate
      simp only [CpuPc.passed, if_pos (q.is_lt.trans_le hk)] at hupdate
      exact .keep rfl rfl (by simp; omega)
  | interruptedKilled hpc _ _ _ _ => exact .move rfl rfl (by rw [hpc]; rfl) hsame rfl
  | yield hpc _ _ => exact .move rfl rfl (by rw [hpc]; rfl) hsame rfl
  | _ => exact .stay rfl hsame rfl

/-- What `k` calls of `age_processes` have made of the priority and the waiting time. -/
def Aged (s₀ s : State ncpu nproc) (q : Fin nproc) (k : ℕ) : Prop :=
  s.priority q = max 1 (s₀.priority q - (s₀.waitTicks q + k) / 30) ∧
    s.waitTicks q = (s₀.waitTicks q + k) % 30

theorem Aged.succ {k : ℕ} (h : Aged s₀ s q k) (hq : (s.table.proc q).state = .runnable)
    (hpriority : s'.priority q = (ageProcess s q).priority q)
    (hticks : s'.waitTicks q = (ageProcess s q).waitTicks q) : Aged s₀ s' q (k + 1) := by
  obtain ⟨hp, ht⟩ := h
  unfold ageProcess at hpriority hticks
  rw [if_pos hq] at hpriority hticks
  unfold Aged
  split_ifs at hpriority hticks with hthirty hone <;>
    simp only [setPriority_priority, setPriority_waitTicks, Function.update_self]
      at hpriority hticks <;>
    push_cast <;> omega

/-- A process that waits has aged with each call of `age_processes` that came past it. -/
theorem aged_of_run (hprior : Prioritised s₀)
    (h : Run step (fun _ s _ => (s.table.proc q).state = .runnable) s₀ trace s)
    (hq : (s.table.proc q).state = .runnable) (hset : .setPriority q ∉ trace) :
    ∃ k, k + passed s₀ q = trace.count .aged + passed s q ∧ Aged s₀ s q k := by
  induction h with
  | start =>
      have hp := hprior.priority q
      have ht := hprior.ticks q
      exact ⟨0, rfl, by omega, by omega⟩
  | @next trace events s s' a _ hwait hs ih =>
      rw [List.mem_append, not_or] at hset
      obtain ⟨k, hk, haged⟩ := ih hwait hset.1
      rw [List.count_append]
      cases (stepped_of_step hs).waited hwait hq hset.2 with
      | keep hpriority hticks hcount =>
          refine ⟨k, by omega, ?_⟩
          unfold Aged
          rw [hpriority, hticks]
          exact haged
      | age hpriority hticks hcount =>
          exact ⟨k + 1, by omega, haged.succ hwait hpriority hticks⟩

theorem Aged.one {k : ℕ} (h : Aged s₀ s q k) (hprior : Prioritised s₀) (hk : 570 ≤ k) :
    s.priority q = 1 := by
  have hp := hprior.priority q
  have ht := hprior.ticks q
  obtain ⟨hp', _⟩ := h
  omega

theorem Aged.stay {k : ℕ} (h : Aged s₀ s q k) (hprior : Prioritised s₀)
    (hone : s₀.priority q = 1) : s.priority q = 1 := by
  have ht := hprior.ticks q
  obtain ⟨hp', _⟩ := h
  omega

/-! ## The dispatches of other processes -/

/-- The candidate of a round is not behind the slot `q`, as seen from the cursor. -/
def Near (x : Cpu nproc) (q : Fin nproc) : Prop :=
  x.pc.choosing = true → ∀ best ∈ x.best, ahead nproc x.cursor best ≤ ahead nproc x.cursor q

theorem near_of_not_choosing (h : x.pc.choosing = false) : Near x q := by
  intro hc
  cases h.symm.trans hc

theorem Turn.near (h : Turn s c x events) (hcursor : (s.cpu c).cursor < nproc)
    (hprior : Prioritised s) (hscanned : Scanned (s.cpu c) q 1) (hnear : Near (s.cpu c) q) :
    Near x q := by
  cases h with
  | away hx _ _ =>
      rcases hx with rfl | ⟨hx, _⟩
      · exact hnear
      · exact near_of_not_choosing hx
  | round _ => exact fun _ _ hbest => (nomatch hbest)
  | @look off hoff hpc =>
      rcases look_cases (s := s) (s.cpu c) (index (s.cpu c).cursor hoff) off with
        ⟨_, hless, heq⟩ | ⟨_, heq⟩
      · rw [heq]
        rintro _ _ ⟨⟩
        change ahead nproc (s.cpu c).cursor (index (s.cpu c).cursor hoff) ≤ _
        rw [ahead_index hcursor hoff]
        refine not_lt.mp fun hpast => ?_
        have hbest := hscanned off hpc hpast
        have hone := (hprior.priority (index (s.cpu c).cursor hoff)).1
        omega
      · rw [heq]
        exact fun _ best hbest => hnear (by rw [hpc]; rfl) best hbest
  | chosen hpc _ => exact fun _ best hbest => hnear (by rw [hpc]; rfl) best hbest
  | idle _ _ _ => exact near_of_not_choosing rfl
  | dispatch _ _ _ => exact near_of_not_choosing rfl
  | missed _ _ _ => exact near_of_not_choosing rfl

/-- After `n` dispatches a CPU is in the round in which it was found, or each dispatch has
brought its cursor nearer to the slot `q`. -/
def Nearing (x : Cpu nproc) (q : Fin nproc) (n : ℕ) : Prop :=
  x.pc.choosing = true ∧ n = 0 ∨
    Scanned x q 1 ∧ Near x q ∧ n + ahead nproc x.cursor q < nproc

theorem nearing_of_not_choosing {n : ℕ} (hx : x.pc.choosing = false)
    (h : n + ahead nproc x.cursor q < nproc) : Nearing x q n :=
  Or.inr ⟨scanned_of_not_choosing hx, near_of_not_choosing hx, h⟩

theorem Turn.nearing {n : ℕ} (h : Turn s c x events) (hcursor : (s.cpu c).cursor < nproc)
    (hprior : Prioritised s) (hq : (s.table.proc q).state = .runnable)
    (hone : s.priority q = 1) (hnot : .dispatch c q ∉ events) (hn : Nearing (s.cpu c) q n) :
    Nearing x q (n + (dispatches c events).length) := by
  rcases hn with ⟨hchoosing, rfl⟩ | ⟨hscanned, hnear, hlt⟩
  · -- the first round, which may have begun before `q` was waiting
    rw [Nat.zero_add]
    cases h with
    | away hx _ hquiet =>
        rcases hx with rfl | ⟨_, hc⟩
        · exact Or.inl ⟨hchoosing, by rw [hquiet.dispatches]; rfl⟩
        · cases hc.symm.trans hchoosing
    | round hpc => cases hpc ▸ hchoosing
    | look _ _ =>
        refine Or.inl ⟨?_, rfl⟩
        rw [(look_eq _ _ _).2.1]
        rfl
    | chosen _ _ => exact Or.inl ⟨rfl, rfl⟩
    | idle _ _ _ =>
        refine nearing_of_not_choosing rfl ?_
        simpa [dispatches] using ahead_lt hcursor q.is_lt
    | @dispatch best _ _ _ =>
        have hne : q ≠ best := by
          rintro rfl
          exact hnot (List.mem_singleton.mpr rfl)
        refine nearing_of_not_choosing rfl ?_
        have hbehind := ahead_succ_lt q.is_lt best.is_lt (Fin.val_ne_of_ne hne)
        simpa [dispatches, Nat.add_comm] using hbehind
    | missed _ _ _ =>
        refine nearing_of_not_choosing rfl ?_
        simpa [dispatches] using ahead_lt hcursor q.is_lt
  · have hscanned' := h.scanned hcursor hq hone.le hscanned
    have hnear' := h.near hcursor hprior hscanned hnear
    refine Or.inr ⟨hscanned', hnear', ?_⟩
    cases h with
    | away _ hkeep hquiet =>
        rw [hquiet.dispatches, hkeep]
        exact hlt
    | look _ _ =>
        rw [(look_eq _ _ _).2.2]
        exact hlt
    | @dispatch best hpc hbest _ =>
        have hne : q ≠ best := by
          rintro rfl
          exact hnot (List.mem_singleton.mpr rfl)
        have hle := hnear (by rw [hpc]; rfl) best hbest
        have hahead : ahead nproc (s.cpu c).cursor best < ahead nproc (s.cpu c).cursor q := by
          refine lt_of_le_of_ne hle fun heq => hne (Fin.ext ?_)
          exact (eq_of_ahead_eq hcursor best.is_lt q.is_lt heq).symm
        have hsucc := ahead_succ hcursor q.is_lt best.is_lt hahead
        have hlength : (dispatches c [(.dispatch c best : Event ncpu nproc)]).length = 1 := by
          simp [dispatches]
        dsimp only
        omega
    | _ => simpa [dispatches] using hlt

theorem Stepped.running_of_dispatch (hstep : Stepped s a s' events)
    (h : .dispatch c p ∈ events) : (s'.table.proc p).state = .running := by
  cases hstep with
  | dispatch _ _ _ _ =>
      cases List.mem_singleton.mp h
      simp
  | _ => simp at h

theorem nearing_of_run (hprior : Prioritised s₀) (hcursor : (s₀.cpu c).cursor < nproc)
    (hone : s₀.priority q = 1)
    (h : Run step (fun _ s _ => (s.table.proc q).state = .runnable) s₀ trace s)
    (hq : (s.table.proc q).state = .runnable) (hset : .setPriority q ∉ trace) :
    Prioritised s ∧ (s.cpu c).cursor < nproc ∧ Nearing (s.cpu c) q (dispatches c trace).length := by
  induction h with
  | start =>
      refine ⟨hprior, hcursor, ?_⟩
      by_cases hchoosing : (s₀.cpu c).pc.choosing = true
      · exact Or.inl ⟨hchoosing, rfl⟩
      · refine nearing_of_not_choosing (Bool.eq_false_of_not_eq_true hchoosing) ?_
        simpa [dispatches] using ahead_lt hcursor q.is_lt
  | @next trace events s s' a hrun hwait hs ih =>
      rw [List.mem_append, not_or] at hset
      obtain ⟨hprior', hcursor', hn⟩ := ih hwait hset.1
      obtain ⟨k, _, haged⟩ := aged_of_run hprior hrun hwait hset.1
      have hstep := stepped_of_step hs
      have hturn := hstep.turn c
      have hnot : .dispatch c q ∉ events := by
        intro hdispatch
        cases hq.symm.trans (hstep.running_of_dispatch hdispatch)
      refine ⟨hstep.prioritised hprior', hturn.cursor_lt hcursor', ?_⟩
      rw [dispatches_append, List.length_append]
      exact hturn.nearing hcursor' hprior' hwait (haged.stay hprior hone) hnot hn

/-- A process that waits for a CPU has aged with each of the calls of `age_processes`, and
is of priority 1 after 570 of them. Once it is, no CPU dispatches as many other processes
as the table has slots while it waits. -/
theorem no_starvation {initproc : Fin nproc}
    (h₀ : Run step (fun _ _ _ => True) (boot ncpu initproc) trace₀ s₀)
    (h : Run step (fun _ s _ => (s.table.proc q).state = .runnable) s₀ trace s)
    (hq : (s.table.proc q).state = .runnable) (hset : .setPriority q ∉ trace) :
    (∃ k, k + passed s₀ q = trace.count .aged + passed s q ∧
      s.priority q = max 1 (s₀.priority q - (s₀.waitTicks q + k) / 30) ∧
      (570 ≤ k → s.priority q = 1)) ∧
    (s₀.priority q = 1 → ∀ c, (dispatches c trace).length < nproc) := by
  have hprior := prioritised_of_run h₀
  constructor
  · obtain ⟨k, hk, haged⟩ := aged_of_run hprior h hq hset
    exact ⟨k, hk, haged.1, haged.one hprior⟩
  · intro hone c
    obtain ⟨_, _, hnearing⟩ := nearing_of_run hprior (cpu_of_run h₀ c).1 hone h hq hset
    rcases hnearing with ⟨_, hzero⟩ | ⟨_, _, hlt⟩
    · rw [hzero]
      exact q.pos
    · omega

/-- The first process forks twice on CPU 0 and gives both children priority 1. -/
def forkUrgent : List (Action 2 3) :=
  steps 0 7 ++ [.trap 0 .fork] ++ steps 0 5 ++ [.trap 0 .fork] ++ steps 0 6 ++
    [.setPriority 0 2 1] ++ steps 0 3 ++ [.setPriority 0 3 1] ++ steps 0 4

theorem no_starvation_forkUrgent : ∃ trace₀ s₀ trace s,
    Run step (fun _ _ _ => True) (boot 2 (0 : Fin 3)) trace₀ s₀ ∧ s₀.priority 2 = 1 ∧
      Run step (fun _ s _ => (s.table.proc 2).state = .runnable) s₀ trace s ∧
      .dispatch 1 1 ∈ trace ∧ trace.count .aged = 1 ∧
      (∃ k, k + passed s₀ 2 = trace.count .aged + passed s 2 ∧
        s.priority 2 = max 1 (s₀.priority 2 - (s₀.waitTicks 2 + k) / 30)) ∧
      ∀ c, (dispatches c trace).length < 3 := by
  have htest : (exec step (fun _ _ _ => True) forkUrgent [] (boot 2 (0 : Fin 3))).any
      (fun r => decide (r.2.priority 2 = 1) &&
        (exec step (fun _ s _ => (s.table.proc 2).state = .runnable)
          (steps 1 7 ++ [.timer 0] ++ steps 0 4) [] r.2).any fun r =>
            decide ((r.2.table.proc 2).state = .runnable ∧ .dispatch 1 1 ∈ r.1 ∧
              r.1.count .aged = 1 ∧ .setPriority 2 ∉ r.1)) = true := by
    decide +kernel
  obtain ⟨trace₀, s₀, hrun₀, hs₀⟩ := exists_run htest
  rw [Bool.and_eq_true, decide_eq_true_eq] at hs₀
  obtain ⟨trace, s, hrun, hs⟩ := exists_run hs₀.2
  obtain ⟨hq, hdispatch, hcount, hset⟩ := of_decide_eq_true hs
  obtain ⟨⟨k, hk, hpriority, _⟩, hfew⟩ := no_starvation hrun₀ hrun hq hset
  exact ⟨trace₀, s₀, trace, s, hrun₀, hs₀.1, hrun, hdispatch, hcount, ⟨k, hk, hpriority⟩,
    hfew hs₀.1⟩

end Scheduler
