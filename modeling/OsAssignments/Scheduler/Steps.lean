import OsAssignments.Process.Steps
import OsAssignments.Scheduler.Cpus

/-!
# What a step of a CPU does

`Stepped s a s' events` lists the steps of the CPUs, with what is known where each of
them is taken. It is all that the proofs about runs use of `step`.
-/

namespace Scheduler

open Process (usertrap advance)
open State

variable {ncpu nproc : ℕ}

inductive Stepped (s : State ncpu nproc) :
    Action ncpu nproc → State ncpu nproc → List (Event ncpu nproc) → Prop
  | round {c : Fin ncpu} {ok : Bool} : (s.cpu c).pc = .round → Stepped s (.go c ok) (round s c) []
  | look {c : Fin ncpu} {ok : Bool} {off : ℕ} (h : off < nproc) : (s.cpu c).pc = .scan off →
      s.lock (index (s.cpu c).cursor h) = none →
      Stepped s (.go c ok)
        (s.setCpu c (look s (s.cpu c) (index (s.cpu c).cursor h) off)) []
  | chosen {c : Fin ncpu} {ok : Bool} {off : ℕ} {best : Fin nproc} : (s.cpu c).pc = .scan off →
      nproc ≤ off → (s.cpu c).best = some best → Stepped s (.go c ok) (s.goto c .dispatch) []
  | idle {c : Fin ncpu} {ok : Bool} {off : ℕ} : (s.cpu c).pc = .scan off → nproc ≤ off →
      (s.cpu c).best = none → Stepped s (.go c ok) (s.goto c .wfi) [.wfi c]
  | dispatch {c : Fin ncpu} {ok : Bool} {best : Fin nproc} : (s.cpu c).pc = .dispatch →
      (s.cpu c).best = some best → s.lock best = none → (s.table.proc best).state = .runnable →
      Stepped s (.go c ok)
        ((((s.setPriority best (s.priority best) 0).setTable
          (s.table.setProc best { s.table.proc best with state := .running })).setLock best
            (some c)).setCpu c
              { s.cpu c with proc := some best, cursor := (best + 1) % nproc, pc := .switched })
        [.dispatch c best]
  | missed {c : Fin ncpu} {ok : Bool} {best : Fin nproc} : (s.cpu c).pc = .dispatch →
      (s.cpu c).best = some best → (s.table.proc best).state ≠ .runnable →
      Stepped s (.go c ok) (s.goto c .wfi) [.wfi c]
  | wake {c : Fin ncpu} {ok : Bool} : (s.cpu c).pc = .wfi → Stepped s (.go c ok) (s.goto c .round) []
  | back {c : Fin ncpu} {ok : Bool} {best : Fin nproc} : (s.cpu c).pc = .back →
      (s.cpu c).best = some best →
      Stepped s (.go c ok) ((s.setLock best none).setCpu c
        { s.cpu c with proc := none, pc := .round }) []
  | switched {c : Fin ncpu} {ok : Bool} {p : Fin nproc} : (s.cpu c).pc = .switched →
      (s.cpu c).proc = some p → Stepped s (.go c ok) ((s.setLock p none).goto c .process) []
  | kernel {c : Fin ncpu} {ok : Bool} {p : Fin nproc} {t : Process.State nproc}
      {events : List Process.Event} : (s.cpu c).pc = .process → (s.cpu c).proc = some p →
      s.setting p = none → (∀ k, acquires s.table p = some k → s.lock k = none) →
      advance s.table p ok = some (t, events) → schedules s.table p = false →
      Stepped s (.go c ok) ((reset s p ok).setTable t)
        (events.map .call ++ (frees s.table p ok).toList.map .freeproc)
  | stop {c : Fin ncpu} {ok : Bool} {p : Fin nproc} {t : Process.State nproc}
      {events : List Process.Event} : (s.cpu c).pc = .process → (s.cpu c).proc = some p →
      s.setting p = none → (∀ k, acquires s.table p = some k → s.lock k = none) →
      advance s.table p ok = some (t, events) → schedules s.table p = true →
      Stepped s (.go c ok) ((((reset s p ok).setTable t).setLock p (some c)).goto c .back)
        (events.map .call ++ (frees s.table p ok).toList.map .freeproc)
  | setting {c : Fin ncpu} {a : Action ncpu nproc} {p : Fin nproc} {x : Option Setting} :
      (s.cpu c).pc = .process → (s.cpu c).proc = some p →
      s.table.pc p = .user ∨ s.setting p ≠ none →
      (∀ pid priority k, x = some (.loop pid priority k) → (1 ≤ priority ∧ priority ≤ 20) ∨
        ∃ k', s.setting p = some (.loop pid priority k')) → Stepped s a (s.setSetting p x) []
  | set {c : Fin ncpu} {ok : Bool} {p k : Fin nproc} {pid priority : ℤ} :
      (s.cpu c).pc = .process → (s.cpu c).proc = some p →
      s.setting p = some (.loop pid priority k) →
      Stepped s (.go c ok) ((s.setPriority k priority 0).setSetting p (some .done))
        [.setPriority k]
  | killed {c : Fin ncpu} {a : Action ncpu nproc} {p : Fin nproc} :
      (s.cpu c).pc = .process → (s.cpu c).proc = some p →
      s.table.pc p = .user ∨ s.setting p ≠ none → (s.table.proc p).killed = true →
      Stepped s a ((s.setTable (s.table.setPc p .kexit)).setSetting p none) []
  | trap {c : Fin ncpu} {p : Fin nproc} {call : Process.Syscall} : (s.cpu c).pc = .process →
      (s.cpu c).proc = some p → s.setting p = none → s.table.pc p = .user →
      Stepped s (.trap c call) (s.setTable (usertrap s.table p call).1)
        ((usertrap s.table p call).2.map .call)
  | fault {c : Fin ncpu} {p : Fin nproc} : (s.cpu c).pc = .process → (s.cpu c).proc = some p →
      s.setting p = none → s.table.pc p = .user →
      Stepped s (.fault c) (s.setTable ((s.table.setProc p
        { s.table.proc p with killed := true }).setPc p .kexit)) []
  | tick {c : Fin ncpu} : interruptible s c = true → Stepped s (.timer c) (s.goto c (.age 0)) []
  | preempt {c : Fin ncpu} : interruptible s c = true → Stepped s (.timer c) (preempt s c) []
  | ageProcess {c : Fin ncpu} {ok : Bool} {k : Fin nproc} : (s.cpu c).pc = .age k →
      Stepped s (.go c ok) ((ageProcess s k).goto c (.age (k + 1))) []
  | aged {c : Fin ncpu} {ok : Bool} {k : ℕ} : (s.cpu c).pc = .age k → nproc ≤ k →
      Stepped s (.go c ok) (preempt s c) [.aged]
  | interruptedKilled {c : Fin ncpu} {ok : Bool} {p : Fin nproc} : (s.cpu c).pc = .interrupted →
      (s.cpu c).proc = some p → s.setting p = none → s.table.pc p = .user →
      (s.table.proc p).killed = true →
      Stepped s (.go c ok) ((s.setTable (s.table.setPc p .kexit)).goto c .process) []
  | yield {c : Fin ncpu} {ok : Bool} {p : Fin nproc} : (s.cpu c).pc = .interrupted →
      (s.cpu c).proc = some p → s.lock p = none →
      Stepped s (.go c ok) (((s.setTable (s.table.setProc p
        { s.table.proc p with state := .runnable })).setLock p (some c)).goto c .back) []
  | wakeOther {i : Fin nproc} {ch : ℕ} :
      Stepped s (.wakeOther i ch) (s.setTable (s.table.setProc i
        ((s.table.proc i).wakeup (some (.other ch))))) []

variable {s s' : State ncpu nproc} {c : Fin ncpu} {p : Fin nproc} {ok : Bool}
  {events : List (Event ncpu nproc)}

/-! ## The steps are these -/

theorem inUser_iff : inUser s p = true ↔ s.table.pc p = .user ∧ s.setting p = none := by
  simp [inUser]

theorem userProcess_eq_some (h : userProcess s c = some p) :
    (s.cpu c).pc = .process ∧ (s.cpu c).proc = some p ∧ s.table.pc p = .user ∧
      s.setting p = none := by
  unfold userProcess at h
  split_ifs at h with hpc
  obtain ⟨hproc, huser⟩ := Option.filter_eq_some_iff.mp h
  exact ⟨hpc, hproc, inUser_iff.mp huser⟩

theorem stepped_of_scan {off : ℕ} (hpc : (s.cpu c).pc = .scan off)
    (h : scan s c off = some (s', events)) : Stepped s (.go c ok) s' events := by
  unfold scan at h
  split_ifs at h with hoff hlock hbest
  · cases h
    exact .look hoff hpc hlock
  · cases h
    obtain ⟨best, hbest⟩ := Option.isSome_iff_exists.mp hbest
    exact .chosen hpc (Nat.not_lt.mp hoff) hbest
  · cases h
    exact .idle hpc (Nat.not_lt.mp hoff) (Option.not_isSome_iff_eq_none.mp hbest)

theorem stepped_of_dispatch (hpc : (s.cpu c).pc = .dispatch)
    (h : dispatch s c = some (s', events)) : Stepped s (.go c ok) s' events := by
  unfold dispatch at h
  cases hbest : (s.cpu c).best with
  | none =>
      rw [hbest] at h
      cases h
  | some best =>
      rw [hbest] at h
      dsimp only at h
      split_ifs at h with hlock hstate
      · cases h
        exact .dispatch hpc hbest hlock hstate
      · cases h
        exact .missed hpc hbest hstate

theorem stepped_of_kernel (hpc : (s.cpu c).pc = .process) (hproc : (s.cpu c).proc = some p)
    (hnone : s.setting p = none) (h : kernel s c p ok = some (s', events)) :
    Stepped s (.go c ok) s' events := by
  unfold kernel at h
  split_ifs at h with hlock hschedules
  · cases hadvance : advance s.table p ok with
    | none =>
        rw [hadvance] at h
        cases h
    | some r =>
        rw [hadvance] at h
        cases h
        exact .stop hpc hproc hnone hlock hadvance hschedules
  · cases hadvance : advance s.table p ok with
    | none =>
        rw [hadvance] at h
        cases h
    | some r =>
        rw [hadvance] at h
        cases h
        exact .kernel hpc hproc hnone hlock hadvance (Bool.eq_false_of_not_eq_true hschedules)

theorem stepped_of_set {x : Setting} (hpc : (s.cpu c).pc = .process)
    (hproc : (s.cpu c).proc = some p) (hsetting : s.setting p = some x)
    (h : set s p x = some (s', events)) : Stepped s (.go c ok) s' events := by
  have hin : s.table.pc p = .user ∨ s.setting p ≠ none :=
    Or.inr fun hnone => (nomatch hsetting.symm.trans hnone)
  cases x with
  | loop pid priority k =>
      rw [set] at h
      split_ifs at h with hk hlock hpid
      · cases h
        exact .set (k := ⟨k, hk⟩) hpc hproc hsetting
      · cases h
        refine .setting hpc hproc hin fun _ _ _ hx => ?_
        cases hx
        exact Or.inr ⟨k, hsetting⟩
      · cases h
        exact .setting hpc hproc hin fun _ _ _ hx => (nomatch hx)
  | done =>
      rw [set] at h
      split_ifs at h with hkilled
      · cases h
        exact .killed hpc hproc hin hkilled
      · cases h
        exact .setting hpc hproc hin fun _ _ _ hx => (nomatch hx)

theorem stepped_of_age {k : ℕ} (hpc : (s.cpu c).pc = .age k)
    (h : age s c k = some (s', events)) : Stepped s (.go c ok) s' events := by
  unfold age at h
  split_ifs at h with hk hlock
  · cases h
    exact .ageProcess (k := ⟨k, hk⟩) hpc
  · cases h
    exact .aged hpc (Nat.not_lt.mp hk)

theorem stepped_of_interrupted (hpc : (s.cpu c).pc = .interrupted)
    (hproc : (s.cpu c).proc = some p) (h : interrupted s c p = some (s', events)) :
    Stepped s (.go c ok) s' events := by
  unfold interrupted at h
  split_ifs at h with hkilled
  · cases h
    rw [Bool.and_eq_true] at hkilled
    obtain ⟨huser, hnone⟩ := inUser_iff.mp hkilled.1
    exact .interruptedKilled hpc hproc hnone huser hkilled.2
  · unfold yield at h
    split_ifs at h with hlock
    cases h
    exact .yield hpc hproc hlock

theorem stepped_of_go (h : go s c ok = some (s', events)) : Stepped s (.go c ok) s' events := by
  unfold go at h
  cases hpc : (s.cpu c).pc with
  | round =>
      rw [hpc] at h
      cases h
      exact .round hpc
  | scan off =>
      rw [hpc] at h
      exact stepped_of_scan hpc h
  | dispatch =>
      rw [hpc] at h
      exact stepped_of_dispatch hpc h
  | wfi =>
      rw [hpc] at h
      cases h
      exact .wake hpc
  | back =>
      rw [hpc] at h
      dsimp only at h
      unfold back at h
      cases hbest : (s.cpu c).best with
      | none =>
          rw [hbest] at h
          cases h
      | some best =>
          rw [hbest] at h
          cases h
          exact .back hpc hbest
  | age k =>
      rw [hpc] at h
      exact stepped_of_age hpc h
  | switched =>
      cases hproc : (s.cpu c).proc with
      | none =>
          rw [hpc, hproc] at h
          cases h
      | some p =>
          rw [hpc, hproc] at h
          cases h
          exact .switched hpc hproc
  | process =>
      cases hproc : (s.cpu c).proc with
      | none =>
          rw [hpc, hproc] at h
          cases h
      | some p =>
          rw [hpc, hproc] at h
          dsimp only at h
          cases hsetting : s.setting p with
          | none =>
              rw [hsetting] at h
              exact stepped_of_kernel hpc hproc hsetting h
          | some x =>
              rw [hsetting] at h
              exact stepped_of_set hpc hproc hsetting h
  | interrupted =>
      cases hproc : (s.cpu c).proc with
      | none =>
          rw [hpc, hproc] at h
          cases h
      | some p =>
          rw [hpc, hproc] at h
          exact stepped_of_interrupted hpc hproc h

theorem stepped_of_step {a : Action ncpu nproc} (h : step s a = some (s', events)) :
    Stepped s a s' events := by
  cases a with
  | go c ok => exact stepped_of_go h
  | trap c call =>
      obtain ⟨p, hp, heq⟩ := Option.map_eq_some_iff.mp h
      cases heq
      obtain ⟨hpc, hproc, huser, hnone⟩ := userProcess_eq_some hp
      exact .trap hpc hproc hnone huser
  | fault c =>
      obtain ⟨p, hp, heq⟩ := Option.map_eq_some_iff.mp h
      cases heq
      obtain ⟨hpc, hproc, huser, hnone⟩ := userProcess_eq_some hp
      exact .fault hpc hproc hnone huser
  | setPriority c pid priority =>
      obtain ⟨p, hp, heq⟩ := Option.map_eq_some_iff.mp h
      cases heq
      obtain ⟨hpc, hproc, huser, hnone⟩ := userProcess_eq_some hp
      unfold sysSetPriority
      split_ifs with hkilled hrange
      · have hself : s.setTable (s.table.setPc p .kexit) =
            (s.setTable (s.table.setPc p .kexit)).setSetting p none := by
          rw [← hnone]
          exact (congrArg (fun x => { s.setTable (s.table.setPc p .kexit) with setting := x })
            (Function.update_eq_self p s.setting)).symm
        rw [hself]
        exact .killed hpc hproc (Or.inl huser) hkilled
      · exact .setting hpc hproc (Or.inl huser) fun _ _ _ hx => (nomatch hx)
      · refine .setting hpc hproc (Or.inl huser) fun _ _ _ hx => ?_
        cases hx
        exact Or.inl ⟨Int.not_lt.mp fun h => hrange (Or.inl h),
          Int.not_lt.mp fun h => hrange (Or.inr h)⟩
  | timer c =>
      rw [step] at h
      split_ifs at h with hint hc
      · cases h
        exact .tick hint
      · cases h
        exact .preempt hint
  | wakeOther i ch =>
      rw [step] at h
      split_ifs at h with hlock
      cases h
      exact .wakeOther

end Scheduler
