import OsAssignments.Process.Locks
import OsAssignments.Scheduler.Steps

/-!
# A process runs on one CPU

`OnCpus` relates the CPUs to the process table: which process a CPU runs, where it holds
the `p->lock` of that process across a `swtch`, and that the processes that are `RUNNING`
are those that some CPU runs and has not yet left. It is kept together with a simulation:
what the CPUs do to the process table are steps of the process table, so that what is
shown of its runs holds of theirs.
-/

namespace Scheduler

open Process (ProcState usertrap advance isChild ne_of_state)
open EventRun State

variable {ncpu nproc : ℕ}

/-! ## What the kernel does to the processes that run -/

section Table

variable {t t' : Process.State nproc} {i j k : Fin nproc} {ok : Bool}
  {events : List Process.Event}

theorem running_update {q : Process.Proc nproc}
    (hq : q.state = .running ↔ (t.proc k).state = .running) (j : Fin nproc) :
    (Function.update t.proc k q j).state = .running ↔ (t.proc j).state = .running := by
  by_cases hj : j = k
  · rw [hj, Function.update_self]
    exact hq
  · rw [Function.update_of_ne hj]

theorem running_wakeup (ch : Option (Process.Chan nproc)) (p : Process.Proc nproc) :
    (p.wakeup ch).state = .running ↔ p.state = .running := by
  unfold Process.Proc.wakeup
  split_ifs with _ hsleeping
  · exact iff_of_false (fun hc => (nomatch hc)) (ne_of_state hsleeping (by decide))
  · exact Iff.rfl
  · exact Iff.rfl

theorem running_kill (p : Process.Proc nproc) : p.kill.state = .running ↔ p.state = .running := by
  unfold Process.Proc.kill
  split_ifs with hsleeping
  · exact iff_of_false (fun hc => (nomatch hc)) (ne_of_state hsleeping (by decide))
  · exact Iff.rfl

theorem stops_of_schedules (hsched : schedules t i = true)
    (h : advance t i ok = some (t', events)) :
    (∀ j, j ≠ i → t'.proc j = t.proc j ∧ t'.pc j = t.pc j) ∧ (t'.proc i).state ≠ .running := by
  cases hpc : t.pc i with
  | sleep w =>
      rw [schedules, hpc] at hsched
      obtain ⟨ch, hchan⟩ := Option.isSome_iff_exists.mp hsched
      rw [advance, hpc] at h
      cases h
      refine ⟨fun j hj => ⟨?_, ?_⟩, ?_⟩
      · rw [Process.State.setPc_proc, Process.State.setProc_proc, Function.update_of_ne hj]
      · rw [Process.State.setPc_pc, Function.update_of_ne hj, Process.State.setProc_pc]
      · rw [Process.State.setPc_proc, Process.State.setProc_proc, Function.update_self,
          Process.Proc.sleep, if_neg (by simp [hchan])]
        exact fun hc => (nomatch hc)
  | setZombie =>
      rw [advance, hpc] at h
      cases h
      refine ⟨fun j hj => ⟨?_, ?_⟩, ?_⟩
      · rw [Process.State.setPc_proc, Process.State.setWaitLock_proc, Process.State.setProc_proc,
          Function.update_of_ne hj]
      · rw [Process.State.setPc_pc, Function.update_of_ne hj]
        rfl
      · rw [Process.State.setPc_proc, Process.State.setWaitLock_proc, Process.State.setProc_proc,
          Function.update_self]
        exact fun hc => (nomatch hc)
  | _ =>
      rw [schedules, hpc] at hsched
      cases hsched

theorem running_of_advance (hmaking : t.family.Making) (hrun : (t.proc i).state = .running)
    (hsched : schedules t i = false) (h : advance t i ok = some (t', events)) (j : Fin nproc) :
    (t'.proc j).state = .running ↔ (t.proc j).state = .running := by
  cases Process.stepped_of_advance hrun h with
  | allocFails _ _ hunused =>
      refine running_update (t := t) ?_ j
      exact iff_of_false (fun hc => (nomatch hc)) (ne_of_state hunused (by decide))
  | alloc _ _ hunused =>
      refine running_update (t := t) ?_ j
      exact iff_of_false (fun hc => by cases hc) (ne_of_state hunused (by decide))
  | @setRunnable _ np _ thread _ hpc =>
      have hused : (t.proc np).state.phase = .used :=
        hmaking.used i np (congrArg (fun c => (Process.Pc.duty c).child) hpc)
      refine running_update (t := t) (iff_of_false ?_ ?_) j
      · exact fun hc => (nomatch hc)
      · intro hrunning
        rw [hrunning] at hused
        cases hused
  | setZombie _ hpc =>
      rw [schedules, hpc] at hsched
      cases hsched
  | reap _ _ _ hzombie _ =>
      refine running_update (t := t) ?_ j
      exact iff_of_false (fun hc => (nomatch hc)) (ne_of_state hzombie (by decide))
  | @sleep _ _ w _ hpc =>
      refine running_update (t := t) ?_ j
      rw [schedules, hpc] at hsched
      have hchan : (t.proc i).chan = none :=
        Option.isNone_iff_eq_none.mp (Option.isSome_eq_false_iff.mp hsched)
      rw [Process.Proc.sleep, if_pos hchan]
  | setParent _ _ _ =>
      refine running_update (t := t) ?_ j
      exact Iff.rfl
  | reparent _ _ _ =>
      refine running_update (t := t) ?_ j
      exact Iff.rfl
  | wakeup _ _ => exact running_update (t := t) (running_wakeup _ _) j
  | sleepPrepare _ _ =>
      refine running_update (t := t) ?_ j
      exact Iff.rfl
  | kill _ _ _ => exact running_update (t := t) (running_kill _) j
  | _ => exact Iff.rfl

/-- A step of the kernel in one process moves no other one, but a new process starts on its
way to user space. -/
theorem pc_of_advance (h : advance t i ok = some (t', events)) (hji : j ≠ i) :
    t'.pc j = t.pc j ∨ (t.proc j).state = .unused ∧ t'.pc j = .user := by
  cases hpc : t.pc i with
  | allocproc thread k =>
      rw [advance, hpc] at h
      simp only [Process.allocproc, Option.some.injEq] at h
      split_ifs at h with hk hunused hok
      · cases h
        by_cases hjk : j = ⟨k, hk⟩
        · subst hjk
          exact Or.inr ⟨hunused, by simp [hji]⟩
        · exact Or.inl (by simp [hji, hjk])
      · cases h
        exact Or.inl (by simp [hji])
      · cases h
        exact Or.inl (by simp [hji])
      · cases h
        exact Or.inl (by simp [hji])
  | release w =>
      rw [advance, hpc] at h
      cases w <;> cases h <;> simp [hji]
  | _ =>
      rw [advance, hpc] at h
      simp only [Process.setParent, Process.kexit, Process.reparent, Process.wakeup,
        Process.kwait, Process.scan, Process.kkill, Process.sysSemInit, Process.sysSemWait,
        Process.semTest, Process.semWoken, Process.semKilled, Process.sysSemSignal] at h
      repeat' split at h
      all_goals cases h <;> simp [hji]

theorem pc_of_advance_of_running (h : advance t i ok = some (t', events)) (hji : j ≠ i)
    (hj : (t.proc j).state = .running) : t'.pc j = t.pc j :=
  (pc_of_advance h hji).resolve_right fun hu => ne_of_state hj (by decide) hu.1

theorem pc_of_advance_of_user (h : advance t i ok = some (t', events)) (hji : j ≠ i)
    (hj : t.pc j = .user) : t'.pc j = .user := by
  rcases pc_of_advance h hji with heq | ⟨_, huser⟩
  · rw [heq, hj]
  · exact huser

/-- The slot that a step frees is locked by it, and no process is in it or a dead one. -/
theorem acquires_of_frees (h : frees t i ok = some k) :
    acquires t i = some k ∧ (t.proc k).state ≠ .running := by
  unfold frees at h
  unfold acquires
  cases hpc : t.pc i with
  | allocproc thread n =>
      rw [hpc] at h
      dsimp only at h ⊢
      split_ifs at h with hok
      obtain ⟨hslot, hunused⟩ := Option.filter_eq_some_iff.mp h
      exact ⟨hslot, ne_of_state (of_decide_eq_true hunused) (by decide)⟩
  | scan thread n havekids =>
      rw [hpc] at h
      dsimp only at h ⊢
      obtain ⟨hslot, hp⟩ := Option.filter_eq_some_iff.mp h
      rw [Bool.and_eq_true, Bool.and_eq_true, decide_eq_true_eq] at hp
      rw [hslot]
      dsimp only
      rw [if_pos hp.1.1]
      exact ⟨rfl, ne_of_state hp.1.2 (by decide)⟩
  | _ =>
      rw [hpc] at h
      cases h

end Table

/-! ## CPUs and processes -/

/-- The CPU holds the lock of its process: it has just switched to it or away from it. -/
def CpuPc.holds : CpuPc → Bool
  | switched => true
  | back => true
  | _ => false

/-- The points of `scheduler()` at which `c->proc` is 0. -/
def CpuPc.inScheduler : CpuPc → Bool
  | round => true
  | scan _ => true
  | dispatch => true
  | wfi => true
  | _ => false

def CpuPc.inProcess : CpuPc → Bool
  | switched => true
  | process => true
  | interrupted => true
  | back => true
  | _ => false

def CpuPc.inInterrupt : CpuPc → Bool
  | age _ => true
  | interrupted => true
  | _ => false

/-- How the CPUs and the processes belong together. -/
structure OnCpus (s : State ncpu nproc) : Prop where
  best : ∀ c p, (s.cpu c).proc = some p → (s.cpu c).best = some p
  idle : ∀ c, (s.cpu c).pc.inScheduler = true → (s.cpu c).proc = none
  busy : ∀ c, (s.cpu c).pc.inProcess = true → (s.cpu c).proc ≠ none
  lock : ∀ p c, s.lock p = some c ↔ (s.cpu c).proc = some p ∧ (s.cpu c).pc.holds = true
  running : ∀ p, (s.table.proc p).state = .running ↔
    ∃ c, (s.cpu c).proc = some p ∧ (s.cpu c).pc ≠ .back
  unique : ∀ p c c', (s.cpu c).proc = some p → (s.cpu c').proc = some p → c = c'
  interrupt : ∀ c p, (s.cpu c).proc = some p → (s.cpu c).pc.inInterrupt = true →
    (s.table.pc p).preemptible = true
  setting : ∀ p, s.setting p ≠ none → s.table.pc p = .user

variable {s s' : State ncpu nproc} {c c' : Fin ncpu} {p q : Fin nproc} {a : Action ncpu nproc}
  {events trace : List (Event ncpu nproc)}

theorem OnCpus.not_on (h : OnCpus s) (hlock : s.lock p = none)
    (hstate : (s.table.proc p).state ≠ .running) (c : Fin ncpu) : (s.cpu c).proc ≠ some p := by
  intro hc
  by_cases hback : (s.cpu c).pc = .back
  · have hheld := (h.lock p c).mpr ⟨hc, by rw [hback]; rfl⟩
    cases hlock.symm.trans hheld
  · exact hstate ((h.running p).mpr ⟨c, hc, hback⟩)

theorem OnCpus.state (h : OnCpus s) (hc : (s.cpu c).proc = some p) (hpc : (s.cpu c).pc ≠ .back) :
    (s.table.proc p).state = .running :=
  (h.running p).mpr ⟨c, hc, hpc⟩

/-- One CPU moves with its process and holds the same lock, and the same processes run. -/
theorem OnCpus.move {x : Cpu nproc} (h : OnCpus s) (hcpu : s'.cpu = Function.update s.cpu c x)
    (hlock : s'.lock = s.lock)
    (hrunning : ∀ p, (s'.table.proc p).state = .running ↔ (s.table.proc p).state = .running)
    (hproc : x.proc = (s.cpu c).proc) (hbest : x.proc ≠ none → x.best = (s.cpu c).best)
    (hholds : x.pc.holds = (s.cpu c).pc.holds) (hback : x.pc = .back ↔ (s.cpu c).pc = .back)
    (hidle : x.pc.inScheduler = true → x.proc = none)
    (hbusy : x.pc.inProcess = true → x.proc ≠ none)
    (hself : ∀ p, x.proc = some p → x.pc.inInterrupt = true →
      (s'.table.pc p).preemptible = true)
    (hpc : ∀ c' p, c' ≠ c → (s.cpu c').proc = some p → (s.cpu c').pc.inInterrupt = true →
      s'.table.pc p = s.table.pc p)
    (hsetting : ∀ p, s'.setting p ≠ none → s'.table.pc p = .user) : OnCpus s' := by
  have hsame : ∀ c', (s'.cpu c').proc = (s.cpu c').proc ∧
      (s'.cpu c').pc.holds = (s.cpu c').pc.holds ∧
      ((s'.cpu c').pc = .back ↔ (s.cpu c').pc = .back) := by
    intro c'
    rw [hcpu]
    by_cases hc : c' = c
    · rw [hc, Function.update_self]
      exact ⟨hproc, hholds, hback⟩
    · rw [Function.update_of_ne hc]
      exact ⟨rfl, rfl, Iff.rfl⟩
  constructor
  · intro c' p hp
    rw [(hsame c').1] at hp
    rw [hcpu]
    by_cases hc : c' = c
    · subst hc
      rw [Function.update_self, hbest (by rw [hproc, hp]; exact fun hn => (nomatch hn))]
      exact h.best c' p hp
    · rw [Function.update_of_ne hc]
      exact h.best c' p hp
  · intro c' hc'
    rw [hcpu] at hc' ⊢
    by_cases hc : c' = c
    · rw [hc, Function.update_self] at hc' ⊢
      exact hidle hc'
    · rw [Function.update_of_ne hc] at hc' ⊢
      exact h.idle c' hc'
  · intro c' hc'
    rw [hcpu] at hc' ⊢
    by_cases hc : c' = c
    · rw [hc, Function.update_self] at hc' ⊢
      exact hbusy hc'
    · rw [Function.update_of_ne hc] at hc' ⊢
      exact h.busy c' hc'
  · intro p c'
    rw [hlock, (hsame c').1, (hsame c').2.1]
    exact h.lock p c'
  · intro p
    rw [hrunning p, h.running p]
    exact exists_congr fun c' => by rw [(hsame c').1, ne_eq, ne_eq, (hsame c').2.2]
  · intro p c₁ c₂ h₁ h₂
    rw [(hsame c₁).1] at h₁
    rw [(hsame c₂).1] at h₂
    exact h.unique p c₁ c₂ h₁ h₂
  · intro c' p hp hint
    by_cases hc : c' = c
    · rw [hc, hcpu, Function.update_self] at hp hint
      exact hself p hp hint
    · rw [hcpu, Function.update_of_ne hc] at hp hint
      rw [hpc c' p hc hp hint]
      exact h.interrupt c' p hp hint
  · exact hsetting

theorem OnCpus.goto {pc : CpuPc} (h : OnCpus s) (hholds : pc.holds = (s.cpu c).pc.holds)
    (hback : pc = .back ↔ (s.cpu c).pc = .back)
    (hidle : pc.inScheduler = true → (s.cpu c).proc = none)
    (hbusy : pc.inProcess = true → (s.cpu c).proc ≠ none)
    (hself : ∀ p, (s.cpu c).proc = some p → pc.inInterrupt = true →
      (s.table.pc p).preemptible = true) : OnCpus (s.goto c pc) :=
  h.move rfl rfl (fun _ => Iff.rfl) rfl (fun _ => rfl) hholds hback hidle hbusy hself
    (fun _ _ _ _ _ => rfl) h.setting

theorem CpuPc.of_inScheduler {pc : CpuPc} (h : pc.inScheduler = true) :
    pc.holds = false ∧ pc ≠ .back ∧ pc.inProcess = false ∧ pc.inInterrupt = false := by
  cases pc with
  | round => decide
  | scan off => exact ⟨rfl, nofun, rfl, rfl⟩
  | dispatch => decide
  | wfi => decide
  | _ => cases h

theorem OnCpus.move_idle {x : Cpu nproc} (h : OnCpus s) (hpc : (s.cpu c).pc.inScheduler = true)
    (hx : x.pc.inScheduler = true) (hproc : x.proc = (s.cpu c).proc) : OnCpus (s.setCpu c x) := by
  have hnone := h.idle c hpc
  obtain ⟨hholds, hback, _, _⟩ := CpuPc.of_inScheduler hpc
  obtain ⟨hholds', hback', hbusy, hint⟩ := CpuPc.of_inScheduler hx
  refine h.move rfl rfl (fun _ => Iff.rfl) hproc ?_ (hholds'.trans hholds.symm)
    (iff_of_false hback' hback) (fun _ => hproc.trans hnone) ?_ ?_ (fun _ _ _ _ _ => rfl) h.setting
  · rw [hproc]
    exact fun hc => absurd hnone hc
  · rw [hbusy]
    exact fun hc => (nomatch hc)
  · rw [hint]
    exact fun _ _ hc => (nomatch hc)

theorem OnCpus.goto_of_idle {pc : CpuPc} (h : OnCpus s)
    (hpc : (s.cpu c).pc.inScheduler = true) (hpc' : pc.inScheduler = true) :
    OnCpus (s.goto c pc) :=
  h.move_idle hpc hpc' rfl

theorem OnCpus.leave (h : OnCpus s) (hproc : (s.cpu c).proc = some p)
    (hcpu : s'.cpu = Function.update s.cpu c { s.cpu c with pc := .back })
    (hlock : s'.lock = Function.update s.lock p (some c))
    (hholds : (s.cpu c).pc.holds = false) (hstop : (s'.table.proc p).state ≠ .running)
    (hrunning : ∀ j, j ≠ p →
      ((s'.table.proc j).state = .running ↔ (s.table.proc j).state = .running))
    (hpc : ∀ j, j ≠ p → (s.table.proc j).state = .running → s'.table.pc j = s.table.pc j)
    (hsetting : ∀ j, s'.setting j ≠ none → s'.table.pc j = .user) : OnCpus s' := by
  have hsame : ∀ c', (s'.cpu c').proc = (s.cpu c').proc := by
    intro c'
    rw [hcpu]
    by_cases hc : c' = c
    · rw [hc, Function.update_self]
    · rw [Function.update_of_ne hc]
  have hself : s'.cpu c = { s.cpu c with pc := .back } := by rw [hcpu, Function.update_self]
  have hother : ∀ c', c' ≠ c → s'.cpu c' = s.cpu c' := fun c' hc => by
    rw [hcpu, Function.update_of_ne hc]
  have honly : ∀ c', (s.cpu c').proc = some p → c' = c := fun c' hc' => h.unique p c' c hc' hproc
  constructor
  · intro c' j hj
    by_cases hc : c' = c
    · subst hc
      rw [hself] at hj ⊢
      exact h.best c' j hj
    · rw [hother c' hc] at hj ⊢
      exact h.best c' j hj
  · intro c' hc'
    by_cases hc : c' = c
    · rw [hc, hself] at hc'
      cases hc'
    · rw [hother c' hc] at hc' ⊢
      exact h.idle c' hc'
  · intro c' hc'
    by_cases hc : c' = c
    · rw [hc, hself, hproc]
      exact fun hn => (nomatch hn)
    · rw [hother c' hc] at hc' ⊢
      exact h.busy c' hc'
  · intro j c'
    rw [hlock]
    by_cases hj : j = p
    · rw [hj, Function.update_self]
      constructor
      · rintro ⟨⟩
        rw [hself]
        exact ⟨hproc, rfl⟩
      · rintro ⟨hp, _⟩
        rw [hsame] at hp
        rw [honly c' hp]
    · rw [Function.update_of_ne hj]
      by_cases hc : c' = c
      · rw [hc, hself, h.lock j c]
        refine iff_of_false (fun hl => ?_) fun hl => ?_
        · rw [hholds] at hl
          cases hl.2
        · exact hj (Option.some.inj (hl.1.symm.trans hproc))
      · rw [hother c' hc]
        exact h.lock j c'
  · intro j
    by_cases hj : j = p
    · rw [hj]
      refine iff_of_false hstop ?_
      rintro ⟨c', hc', hback⟩
      rw [hsame] at hc'
      rw [honly c' hc', hself] at hback
      exact hback rfl
    · rw [hrunning j hj, h.running j]
      refine exists_congr fun c' => ?_
      by_cases hc : c' = c
      · rw [hc, hself]
        exact iff_of_false (fun hl => hj (Option.some.inj (hl.1.symm.trans hproc)))
          (fun hl => hj (Option.some.inj (hl.1.symm.trans hproc)))
      · rw [hother c' hc]
  · intro j c₁ c₂ h₁ h₂
    rw [hsame] at h₁ h₂
    exact h.unique j c₁ c₂ h₁ h₂
  · intro c' j hj hint
    by_cases hc : c' = c
    · rw [hc, hself] at hint
      cases hint
    · rw [hother c' hc] at hj hint
      have hjp : j ≠ p := by
        rintro rfl
        exact hc (honly c' hj)
      have hback : (s.cpu c').pc ≠ .back := by
        intro hb
        rw [hb] at hint
        cases hint
      rw [hpc j hjp (h.state hj hback)]
      exact h.interrupt c' j hj hint
  · exact hsetting

theorem OnCpus.dispatch (h : OnCpus s) (hpc : (s.cpu c).pc = .dispatch)
    (hbest : (s.cpu c).best = some p) (hlock : s.lock p = none)
    (hstate : (s.table.proc p).state = .runnable) :
    OnCpus ((((s.setPriority p (s.priority p) 0).setTable
      (s.table.setProc p { s.table.proc p with state := .running })).setLock p (some c)).setCpu c
        { s.cpu c with proc := some p, cursor := (p + 1) % nproc, pc := .switched }) := by
  have hnone : (s.cpu c).proc = none := h.idle c (by rw [hpc]; rfl)
  have hfree := h.not_on hlock (ne_of_state hstate (by decide))
  constructor
  · intro c' j hj
    rw [setCpu_cpu] at hj ⊢
    by_cases hc : c' = c
    · rw [hc, Function.update_self] at hj ⊢
      exact hbest.trans hj
    · rw [Function.update_of_ne hc] at hj ⊢
      exact h.best c' j hj
  · intro c' hc'
    rw [setCpu_cpu] at hc' ⊢
    by_cases hc : c' = c
    · rw [hc, Function.update_self] at hc'
      cases hc'
    · rw [Function.update_of_ne hc] at hc' ⊢
      exact h.idle c' hc'
  · intro c' hc'
    rw [setCpu_cpu] at hc' ⊢
    by_cases hc : c' = c
    · rw [hc, Function.update_self]
      exact fun hn => (nomatch hn)
    · rw [Function.update_of_ne hc] at hc' ⊢
      exact h.busy c' hc'
  · intro j c'
    rw [setCpu_lock, setLock_lock, setCpu_cpu]
    by_cases hj : j = p
    · subst hj
      rw [Function.update_self]
      by_cases hc : c' = c
      · rw [hc, Function.update_self]
        exact iff_of_true rfl ⟨rfl, rfl⟩
      · rw [Function.update_of_ne hc]
        exact iff_of_false (fun heq => hc (Option.some.inj heq).symm) fun hl => hfree c' hl.1
    · rw [Function.update_of_ne hj]
      by_cases hc : c' = c
      · rw [hc, Function.update_self]
        refine iff_of_false (fun hl => ?_) fun hl => hj (Option.some.inj hl.1).symm
        exact (nomatch hnone.symm.trans ((h.lock j c).mp hl).1)
      · rw [Function.update_of_ne hc]
        exact h.lock j c'
  · intro j
    simp only [setCpu_table, setLock_table, setTable_table, Process.State.setProc_proc,
      setCpu_cpu]
    by_cases hj : j = p
    · subst hj
      rw [Function.update_self]
      refine iff_of_true rfl ⟨c, ?_⟩
      rw [Function.update_self]
      exact ⟨rfl, fun hb => (nomatch hb)⟩
    · rw [Function.update_of_ne hj]
      refine (h.running j).trans (exists_congr fun c' => ?_)
      by_cases hc : c' = c
      · rw [hc, Function.update_self]
        exact iff_of_false (fun hl => (nomatch hnone.symm.trans hl.1))
          fun hl => hj (Option.some.inj hl.1).symm
      · rw [Function.update_of_ne hc]
        exact Iff.rfl
  · intro j c₁ c₂ h₁ h₂
    rw [setCpu_cpu] at h₁ h₂
    by_cases hc₁ : c₁ = c <;> by_cases hc₂ : c₂ = c
    · rw [hc₁, hc₂]
    · rw [hc₁, Function.update_self] at h₁
      rw [Function.update_of_ne hc₂, ← Option.some.inj h₁] at h₂
      exact absurd h₂ (hfree c₂)
    · rw [hc₂, Function.update_self] at h₂
      rw [Function.update_of_ne hc₁, ← Option.some.inj h₂] at h₁
      exact absurd h₁ (hfree c₁)
    · rw [Function.update_of_ne hc₁] at h₁
      rw [Function.update_of_ne hc₂] at h₂
      exact h.unique j c₁ c₂ h₁ h₂
  · intro c' j hj hint
    rw [setCpu_cpu] at hj hint
    by_cases hc : c' = c
    · rw [hc, Function.update_self] at hint
      cases hint
    · rw [Function.update_of_ne hc] at hj hint
      exact h.interrupt c' j hj hint
  · exact h.setting

/-- A CPU leaves the `swtch` on one side or the other, and gives back the lock. -/
theorem OnCpus.unlock {x : Cpu nproc} (h : OnCpus s) (hproc : (s.cpu c).proc = some p)
    (hpc : x.pc.holds = false) (hint : x.pc.inInterrupt = false) (hback : x.pc ≠ .back)
    (hx : x.proc = none ∧ x.pc.inProcess = false ∧ (s.cpu c).pc = .back ∨
      x.proc = some p ∧ x.best = (s.cpu c).best ∧ x.pc.inScheduler = false ∧
        (s.cpu c).pc ≠ .back) : OnCpus ((s.setLock p none).setCpu c x) := by
  have honly : ∀ c', (s.cpu c').proc = some p → c' = c := fun c' hc' => h.unique p c' c hc' hproc
  constructor
  · intro c' j hj
    rw [setCpu_cpu] at hj ⊢
    by_cases hc : c' = c
    · rw [hc, Function.update_self] at hj ⊢
      rcases hx with ⟨hnone, _⟩ | ⟨hsome, hbest, _⟩
      · exact (nomatch hnone.symm.trans hj)
      · rw [hbest, ← hsome.symm.trans hj]
        exact h.best c p hproc
    · rw [Function.update_of_ne hc] at hj ⊢
      exact h.best c' j hj
  · intro c' hc'
    rw [setCpu_cpu] at hc' ⊢
    by_cases hc : c' = c
    · rw [hc, Function.update_self] at hc' ⊢
      rcases hx with ⟨hnone, _⟩ | ⟨_, _, hsched, _⟩
      · exact hnone
      · exact (nomatch hsched.symm.trans hc')
    · rw [Function.update_of_ne hc] at hc' ⊢
      exact h.idle c' hc'
  · intro c' hc'
    rw [setCpu_cpu] at hc' ⊢
    by_cases hc : c' = c
    · rw [hc, Function.update_self] at hc' ⊢
      rcases hx with ⟨_, hin, _⟩ | ⟨hsome, _⟩
      · exact (nomatch hin.symm.trans hc')
      · rw [hsome]
        exact fun hn => (nomatch hn)
    · rw [Function.update_of_ne hc] at hc' ⊢
      exact h.busy c' hc'
  · intro j c'
    rw [setCpu_lock, setLock_lock, setCpu_cpu]
    by_cases hc : c' = c
    · rw [hc, Function.update_self]
      refine iff_of_false (fun hl => ?_) fun hl => (nomatch hpc.symm.trans hl.2)
      by_cases hj : j = p
      · rw [hj, Function.update_self] at hl
        cases hl
      · rw [Function.update_of_ne hj] at hl
        exact hj (Option.some.inj (((h.lock j c).mp hl).1.symm.trans hproc))
    · rw [Function.update_of_ne hc]
      by_cases hj : j = p
      · rw [hj, Function.update_self]
        exact iff_of_false (fun hl => (nomatch hl)) fun hl => hc (honly c' hl.1)
      · rw [Function.update_of_ne hj]
        exact h.lock j c'
  · intro j
    simp only [setCpu_table, setLock_table, setCpu_cpu]
    refine (h.running j).trans (exists_congr fun c' => ?_)
    by_cases hc : c' = c
    · rw [hc, Function.update_self]
      rcases hx with ⟨hnone, _, hb⟩ | ⟨hsome, _, _, hb⟩
      · exact iff_of_false (fun hl => hl.2 hb) fun hl => (nomatch hnone.symm.trans hl.1)
      · rw [hsome, hproc]
        exact and_congr_right fun _ => iff_of_true hb hback
    · rw [Function.update_of_ne hc]
      exact Iff.rfl
  · intro j c₁ c₂ h₁ h₂
    have hold : ∀ c', ((Function.update s.cpu c x) c').proc = some j →
        (s.cpu c').proc = some j := by
      intro c' hc'
      by_cases hc : c' = c
      · rw [hc, Function.update_self] at hc'
        rcases hx with ⟨hnone, _⟩ | ⟨hsome, _⟩
        · exact (nomatch hnone.symm.trans hc')
        · rw [hc, hproc, ← hsome, hc']
      · rwa [Function.update_of_ne hc] at hc'
    exact h.unique j c₁ c₂ (hold c₁ h₁) (hold c₂ h₂)
  · intro c' j hj hin
    rw [setCpu_cpu] at hj hin
    by_cases hc : c' = c
    · rw [hc, Function.update_self] at hin
      exact (nomatch hint.symm.trans hin)
    · rw [Function.update_of_ne hc] at hj hin
      exact h.interrupt c' j hj hin
  · exact h.setting

theorem OnCpus.table (h : OnCpus s) (hcpu : s'.cpu = s.cpu) (hlock : s'.lock = s.lock)
    (hrunning : ∀ p, (s'.table.proc p).state = .running ↔ (s.table.proc p).state = .running)
    (hpc : ∀ c p, (s.cpu c).proc = some p → (s.cpu c).pc.inInterrupt = true →
      s'.table.pc p = s.table.pc p)
    (hsetting : ∀ p, s'.setting p ≠ none → s'.table.pc p = .user) : OnCpus s' := by
  constructor
  · rw [hcpu]
    exact h.best
  · rw [hcpu]
    exact h.idle
  · rw [hcpu]
    exact h.busy
  · rw [hcpu, hlock]
    exact h.lock
  · intro p
    rw [hrunning p, hcpu]
    exact h.running p
  · rw [hcpu]
    exact h.unique
  · rw [hcpu]
    intro c p hp hint
    rw [hpc c p hp hint]
    exact h.interrupt c p hp hint
  · exact hsetting

/-- A CPU whose process makes a step is not in an interrupt, so nobody who is moves. -/
theorem OnCpus.pc_of_interrupt {j : Fin nproc} (h : OnCpus s) (hproc : (s.cpu c).proc = some p)
    (hpc : (s.cpu c).pc = .process) (hj : (s.cpu c').proc = some j)
    (hint : (s.cpu c').pc.inInterrupt = true) : j ≠ p ∧ (s.table.proc j).state = .running := by
  constructor
  · rintro rfl
    rw [h.unique j c' c hj hproc, hpc] at hint
    cases hint
  · refine h.state hj fun hb => ?_
    rw [hb] at hint
    cases hint

/-! ## The steps -/

@[simp] theorem reset_table (ok : Bool) : (reset s p ok).table = s.table := by
  unfold reset
  split <;> rfl

@[simp] theorem reset_lock (ok : Bool) : (reset s p ok).lock = s.lock := by
  unfold reset
  split <;> rfl

@[simp] theorem reset_cpu (ok : Bool) : (reset s p ok).cpu = s.cpu := by
  unfold reset
  split <;> rfl

@[simp] theorem reset_setting (ok : Bool) : (reset s p ok).setting = s.setting := by
  unfold reset
  split <;> rfl

theorem ageProcess_eq (k : Fin nproc) :
    ∃ priority ticks, ageProcess s k = s.setPriority k priority ticks := by
  unfold ageProcess
  split_ifs <;> exact ⟨_, _, rfl⟩

theorem running_usertrap {t : Process.State nproc} {i : Fin nproc} (call : Process.Syscall)
    (j : Fin nproc) : (usertrap t i call).1.proc j = t.proc j ∧
      (j ≠ i → (usertrap t i call).1.pc j = t.pc j) := by
  unfold usertrap
  split_ifs
  · exact ⟨rfl, fun hj => by rw [Process.State.setPc_pc, Function.update_of_ne hj]⟩
  · split
    · exact ⟨rfl, fun hj => by rw [Process.State.setPc_pc, Function.update_of_ne hj]⟩
    · exact ⟨rfl, fun hj => by rw [Process.ret, Process.State.setPc_pc, Function.update_of_ne hj]⟩

theorem interruptible_iff : interruptible s c = true ↔ (s.cpu c).pc = .round ∨
    (s.cpu c).pc = .process ∧ ∃ p, (s.cpu c).proc = some p ∧ (s.table.pc p).preemptible = true := by
  unfold interruptible
  cases hpc : (s.cpu c).pc <;> cases hproc : (s.cpu c).proc <;> simp

theorem OnCpus.of_interruptible (h : OnCpus s) (hint : interruptible s c = true) :
    (s.cpu c).pc ≠ .back ∧ (s.cpu c).pc.holds = false ∧
      ∀ p, (s.cpu c).proc = some p → (s.table.pc p).preemptible = true := by
  rcases interruptible_iff.mp hint with hpc | ⟨hpc, p, hproc, hpre⟩
  · have hnone := h.idle c (by rw [hpc]; rfl)
    rw [hpc]
    exact ⟨by decide, rfl, fun p hp => (nomatch hnone.symm.trans hp)⟩
  · rw [hpc]
    refine ⟨by decide, rfl, fun q hq => ?_⟩
    cases hproc.symm.trans hq
    exact hpre

theorem OnCpus.preempt (h : OnCpus s) (hback : (s.cpu c).pc ≠ .back)
    (hholds : (s.cpu c).pc.holds = false)
    (hself : ∀ p, (s.cpu c).proc = some p → (s.table.pc p).preemptible = true) :
    OnCpus (preempt s c) := by
  unfold Scheduler.preempt
  cases hproc : (s.cpu c).proc with
  | none =>
      refine h.goto ?_ ?_ (fun _ => hproc) (fun hc => (nomatch hc)) fun _ _ hc => (nomatch hc)
      · rw [hholds]
        rfl
      · exact iff_of_false (fun hc => (nomatch hc)) hback
  | some p =>
      refine h.goto ?_ ?_ (fun hc => (nomatch hc)) (fun _ hc => ?_) fun q hq _ => hself q hq
      · rw [hholds]
        rfl
      · exact iff_of_false (fun hc => (nomatch hc)) hback
      · cases hproc.symm.trans hc

theorem OnCpus.setting_of_advance {t : Process.State nproc} {ok : Bool}
    {events : List Process.Event} (h : OnCpus s) (hnone : s.setting p = none)
    (hadvance : advance s.table p ok = some (t, events)) (hsetting : s'.setting = s.setting)
    (j : Fin nproc) (hj : s'.setting j ≠ none) : t.pc j = .user := by
  rw [hsetting] at hj
  have hjp : j ≠ p := fun heq => hj (heq ▸ hnone)
  exact pc_of_advance_of_user hadvance hjp (h.setting j hj)

theorem look_eq (x : Cpu nproc) (p : Fin nproc) (off : ℕ) :
    (look s x p off).proc = x.proc ∧ (look s x p off).pc = .scan (off + 1) ∧
      (look s x p off).cursor = x.cursor := by
  unfold look
  split_ifs <;> exact ⟨rfl, rfl, rfl⟩

theorem OnCpus.kernel {t : Process.State nproc} {ok : Bool} {events : List Process.Event}
    (h : OnCpus s) (hmaking : s.table.family.Making) (hpc : (s.cpu c).pc = .process)
    (hproc : (s.cpu c).proc = some p) (hnone : s.setting p = none)
    (hadvance : advance s.table p ok = some (t, events)) (hsched : schedules s.table p = false) :
    OnCpus ((reset s p ok).setTable t) := by
  have hrun := h.state hproc (by rw [hpc]; decide)
  refine h.table (reset_cpu ok) (reset_lock ok)
    (running_of_advance hmaking hrun hsched hadvance) ?_ ?_
  · intro c' j hj hint
    obtain ⟨hjp, hjrun⟩ := h.pc_of_interrupt hproc hpc hj hint
    exact pc_of_advance_of_running hadvance hjp hjrun
  · exact h.setting_of_advance hnone hadvance (reset_setting ok)

theorem OnCpus.stop {t : Process.State nproc} {ok : Bool} {events : List Process.Event}
    (h : OnCpus s) (hpc : (s.cpu c).pc = .process) (hproc : (s.cpu c).proc = some p)
    (hnone : s.setting p = none) (hadvance : advance s.table p ok = some (t, events))
    (hsched : schedules s.table p = true) :
    OnCpus ((((reset s p ok).setTable t).setLock p (some c)).goto c .back) := by
  obtain ⟨hother, hstop⟩ := stops_of_schedules hsched hadvance
  refine h.leave hproc ?_ ?_ (by rw [hpc]; rfl) hstop ?_ ?_ ?_
  · change Function.update (reset s p ok).cpu c { (reset s p ok).cpu c with pc := .back } = _
    rw [reset_cpu]
  · change Function.update (reset s p ok).lock p (some c) = _
    rw [reset_lock]
  · intro j hj
    exact iff_of_eq (congrArg (fun q => q.state = .running) (hother j hj).1)
  · intro j hj _
    exact (hother j hj).2
  · exact h.setting_of_advance hnone hadvance (reset_setting ok)

theorem OnCpus.setSetting {x : Option Setting} (h : OnCpus s)
    (hin : s.table.pc p = .user ∨ s.setting p ≠ none) : OnCpus (s.setSetting p x) := by
  refine h.table rfl rfl (fun _ => Iff.rfl) (fun _ _ _ _ => rfl) ?_
  intro j hj
  by_cases hjp : j = p
  · rw [hjp]
    exact hin.elim id (h.setting p)
  · rw [setSetting_setting, Function.update_of_ne hjp] at hj
    exact h.setting j hj

/-- The process of a CPU leaves the user program, or `ksetpriority`, for the kernel. -/
theorem OnCpus.enter (h : OnCpus s) (hpc : (s.cpu c).pc = .process)
    (hproc : (s.cpu c).proc = some p) (hcpu : s'.cpu = s.cpu) (hlock : s'.lock = s.lock)
    (hsetting : ∀ j, s'.setting j ≠ none → j ≠ p ∧ s.setting j ≠ none)
    (hrunning : ∀ j, (s'.table.proc j).state = .running ↔ (s.table.proc j).state = .running)
    (hother : ∀ j, j ≠ p → s'.table.pc j = s.table.pc j) : OnCpus s' := by
  refine h.table hcpu hlock hrunning ?_ ?_
  · intro c' j hj hint
    obtain ⟨hjp, _⟩ := h.pc_of_interrupt hproc hpc hj hint
    exact hother j hjp
  · intro j hj
    obtain ⟨hjp, hold⟩ := hsetting j hj
    rw [hother j hjp]
    exact h.setting j hold

theorem OnCpus.age {k : Fin nproc} (h : OnCpus s) (hpc : (s.cpu c).pc = .age k) :
    OnCpus ((ageProcess s k).goto c (.age (k + 1))) := by
  obtain ⟨priority, ticks, heq⟩ := ageProcess_eq (s := s) k
  rw [heq]
  have hset : OnCpus (s.setPriority k priority ticks) :=
    h.table rfl rfl (fun _ => Iff.rfl) (fun _ _ _ _ => rfl) h.setting
  have hpc' : ((s.setPriority k priority ticks).cpu c).pc = .age k := hpc
  refine hset.goto (by rw [hpc']; rfl) ?_ (fun hc => (nomatch hc)) (fun hc => (nomatch hc)) ?_
  · rw [hpc']
    exact iff_of_false (fun hc => (nomatch hc)) (fun hc => (nomatch hc))
  · intro p hp _
    exact h.interrupt c p hp (by rw [hpc]; rfl)

/-- A killed process that was interrupted in its user program is sent to `kexit`. -/
theorem OnCpus.interruptedKilled (h : OnCpus s) (hpc : (s.cpu c).pc = .interrupted)
    (hproc : (s.cpu c).proc = some p) (hnone : s.setting p = none) :
    OnCpus ((s.setTable (s.table.setPc p .kexit)).goto c .process) := by
  refine h.move (x := { s.cpu c with pc := .process }) rfl rfl (fun _ => Iff.rfl) rfl
    (fun _ => rfl) ?_ ?_ (fun hc => (nomatch hc)) ?_ (fun _ _ hc => (nomatch hc)) ?_ ?_
  · rw [hpc]
    rfl
  · rw [hpc]
    exact iff_of_false (fun hc => (nomatch hc)) (fun hc => (nomatch hc))
  · intro _ hn
    cases hproc.symm.trans hn
  · intro c' j hc hj _
    have hjp : j ≠ p := fun heq => hc (h.unique p c' c (heq ▸ hj) hproc)
    exact Function.update_of_ne hjp _ _
  · intro j hj
    have hjp : j ≠ p := fun heq => hj (heq ▸ hnone)
    exact (Function.update_of_ne hjp _ _).trans (h.setting j hj)

theorem OnCpus.yield (h : OnCpus s) (hpc : (s.cpu c).pc = .interrupted)
    (hproc : (s.cpu c).proc = some p) : OnCpus (((s.setTable (s.table.setProc p
      { s.table.proc p with state := .runnable })).setLock p (some c)).goto c .back) := by
  refine h.leave hproc rfl rfl (by rw [hpc]; rfl) ?_ ?_ (fun _ _ _ => rfl) h.setting
  · change (Function.update s.table.proc p _ p).state ≠ .running
    rw [Function.update_self]
    exact fun hc => (nomatch hc)
  · intro j hj
    change (Function.update s.table.proc p _ j).state = .running ↔ _
    rw [Function.update_of_ne hj]

theorem Stepped.onCpus (hstep : Stepped s a s' events) (hmaking : s.table.family.Making)
    (h : OnCpus s) : OnCpus s' := by
  cases hstep with
  | round hpc => exact h.move_idle (by rw [hpc]; rfl) rfl rfl
  | @look c _ off hoff hpc _ =>
      obtain ⟨hproc, hpc', _⟩ := look_eq (s := s) (s.cpu c) (index (s.cpu c).cursor hoff) off
      exact h.move_idle (by rw [hpc]; rfl) (by rw [hpc']; rfl) hproc
  | chosen hpc _ _ => exact h.goto_of_idle (by rw [hpc]; rfl) rfl
  | idle hpc _ _ => exact h.goto_of_idle (by rw [hpc]; rfl) rfl
  | dispatch hpc hbest hlock hstate => exact h.dispatch hpc hbest hlock hstate
  | missed hpc _ _ => exact h.goto_of_idle (by rw [hpc]; rfl) rfl
  | wake hpc => exact h.goto_of_idle (by rw [hpc]; rfl) rfl
  | @back c _ best hpc hbest =>
      have hproc : (s.cpu c).proc = some best := by
        obtain ⟨p, hp⟩ := Option.ne_none_iff_exists'.mp (h.busy c (by rw [hpc]; rfl))
        rw [hp, ← hbest, h.best c p hp]
      exact h.unlock hproc rfl rfl (fun hc => (nomatch hc)) (Or.inl ⟨rfl, rfl, hpc⟩)
  | switched hpc hproc =>
      refine h.unlock hproc rfl rfl (fun hc => (nomatch hc)) (Or.inr ⟨hproc, rfl, rfl, ?_⟩)
      rw [hpc]
      exact fun hc => (nomatch hc)
  | kernel hpc hproc hnone _ hadvance hsched =>
      exact h.kernel hmaking hpc hproc hnone hadvance hsched
  | stop hpc hproc hnone _ hadvance hsched => exact h.stop hpc hproc hnone hadvance hsched
  | setting _ _ hin _ => exact h.setSetting hin
  | @set c ok p k pid priority hpc hproc hset =>
      have hpriority : OnCpus (s.setPriority k priority 0) :=
        h.table rfl rfl (fun _ => Iff.rfl) (fun _ _ _ _ => rfl) h.setting
      refine hpriority.setSetting (Or.inr ?_)
      change s.setting p ≠ none
      rw [hset]
      exact fun hn => (nomatch hn)
  | @killed c a p hpc hproc _ _ =>
      refine h.enter hpc hproc rfl rfl (fun j hj => ?_) (fun _ => Iff.rfl)
        fun j hjp => Function.update_of_ne hjp _ _
      have hjp : j ≠ p := by
        rintro rfl
        rw [setSetting_setting, Function.update_self] at hj
        exact hj rfl
      rw [setSetting_setting, Function.update_of_ne hjp] at hj
      exact ⟨hjp, hj⟩
  | @trap c p call hpc hproc hnone _ =>
      have hother := running_usertrap (t := s.table) (i := p) call
      exact h.enter hpc hproc rfl rfl (fun j hj => ⟨fun heq => hj (heq ▸ hnone), hj⟩)
        (fun j => by rw [setTable_table, (hother j).1]) fun j => (hother j).2
  | @fault c p hpc hproc hnone _ =>
      refine h.enter hpc hproc rfl rfl (fun j hj => ⟨fun heq => hj (heq ▸ hnone), hj⟩)
        (fun j => ?_) fun j hjp => Function.update_of_ne hjp _ _
      refine running_update (t := s.table) (k := p) ?_ j
      exact Iff.rfl
  | tick hint =>
      obtain ⟨hback, hholds, hself⟩ := h.of_interruptible hint
      exact h.goto (hholds ▸ rfl) (iff_of_false (fun hc => (nomatch hc)) hback)
        (fun hc => (nomatch hc)) (fun hc => (nomatch hc)) fun p hp _ => hself p hp
  | preempt hint =>
      obtain ⟨hback, hholds, hself⟩ := h.of_interruptible hint
      exact h.preempt hback hholds hself
  | ageProcess hpc => exact h.age hpc
  | @aged c ok k hpc _ =>
      refine h.preempt (by rw [hpc]; exact fun hc => (nomatch hc)) (by rw [hpc]; rfl) fun p hp => ?_
      exact h.interrupt c p hp (by rw [hpc]; rfl)
  | interruptedKilled hpc hproc hnone _ _ => exact h.interruptedKilled hpc hproc hnone
  | yield hpc hproc _ => exact h.yield hpc hproc
  | wakeOther =>
      refine h.table rfl rfl ?_ (fun _ _ _ _ => rfl) h.setting
      exact running_update (t := s.table) (running_wakeup _ _)

/-! ## The process table -/

def calls (trace : List (Event ncpu nproc)) : List Process.Event :=
  trace.filterMap fun e => match e with
    | .call e => some e
    | _ => none

@[simp] theorem calls_append (l m : List (Event ncpu nproc)) :
    calls (l ++ m) = calls l ++ calls m :=
  List.filterMap_append

@[simp] theorem calls_map (l : List Process.Event) :
    calls (l.map .call : List (Event ncpu nproc)) = l := by
  induction l with
  | nil => rfl
  | cons e l ih => exact congrArg (e :: ·) ih

@[simp] theorem calls_freeproc (o : Option (Fin nproc)) :
    calls (o.toList.map .freeproc : List (Event ncpu nproc)) = [] := by
  cases o <;> rfl

theorem Stepped.table (hstep : Stepped s a s' events) (h : OnCpus s) :
    (s'.table = s.table ∧ calls events = []) ∨
      ∃ a', Process.step s.table a' = some (s'.table, calls events) := by
  cases hstep with
  | dispatch _ _ _ hstate => exact Or.inr ⟨.dispatch _, if_pos hstate⟩
  | @kernel c ok p t events hpc hproc _ _ hadvance _ =>
      have hrun := h.state hproc (by rw [hpc]; decide)
      refine Or.inr ⟨.advance p ok, (if_pos hrun).trans ?_⟩
      simpa using hadvance
  | @stop c ok p t events hpc hproc _ _ hadvance _ =>
      have hrun := h.state hproc (by rw [hpc]; decide)
      refine Or.inr ⟨.advance p ok, (if_pos hrun).trans ?_⟩
      simpa [State.goto] using hadvance
  | @killed c a p hpc hproc hin hkilled =>
      have hrun := h.state hproc (by rw [hpc]; decide)
      refine Or.inr ⟨.trap p .exit, (if_pos ⟨hrun, hin.elim id (h.setting p)⟩).trans ?_⟩
      rw [usertrap, if_pos hkilled]
      rfl
  | @trap c p call hpc hproc _ huser =>
      have hrun := h.state hproc (by rw [hpc]; decide)
      refine Or.inr ⟨.trap p call, (if_pos ⟨hrun, huser⟩).trans ?_⟩
      rw [calls_map]
      rfl
  | @fault c p hpc hproc _ huser =>
      exact Or.inr ⟨.fault p, if_pos ⟨h.state hproc (by rw [hpc]; decide), huser⟩⟩
  | preempt _ => exact Or.inl ⟨rfl, rfl⟩
  | @ageProcess c ok k _ =>
      obtain ⟨priority, ticks, heq⟩ := ageProcess_eq (s := s) k
      rw [heq]
      exact Or.inl ⟨rfl, rfl⟩
  | @interruptedKilled c ok p hpc hproc _ huser hkilled =>
      have hrun := h.state hproc (by rw [hpc]; decide)
      refine Or.inr ⟨.trap p .exit, (if_pos ⟨hrun, huser⟩).trans ?_⟩
      rw [usertrap, if_pos hkilled]
      rfl
  | @yield c ok p hpc hproc _ =>
      have hrun := h.state hproc (by rw [hpc]; decide)
      exact Or.inr ⟨.yield p, if_pos ⟨hrun, h.interrupt c p hproc (by rw [hpc]; rfl)⟩⟩
  | @wakeOther i ch => exact Or.inr ⟨.wakeOther i ch, rfl⟩
  | _ => exact Or.inl ⟨rfl, rfl⟩

theorem boot_onCpus (initproc : Fin nproc) : OnCpus (boot ncpu initproc) := by
  refine ⟨fun _ _ hc => (nomatch hc), fun _ _ => rfl, fun _ hc => (nomatch hc), fun p c => ?_,
    fun p => ?_, fun _ _ _ hc => (nomatch hc), fun _ _ hc => (nomatch hc), fun _ hn => absurd rfl hn⟩
  · exact iff_of_false (fun hc => (nomatch hc)) fun hc => (nomatch hc.1)
  · refine iff_of_false ?_ (fun ⟨_, hc, _⟩ => (nomatch hc))
    change (if p = initproc then _ else _ : Process.Proc nproc).state ≠ .running
    split_ifs <;> exact fun hc => (nomatch hc)

/-- In every run the CPUs and the processes belong together, and what happens to the
process table is a run of its own. -/
theorem onCpus_of_run {ok : List (Event ncpu nproc) → State ncpu nproc → Action ncpu nproc → Prop}
    {initproc : Fin nproc} (h : Run step ok (boot ncpu initproc) trace s) :
    OnCpus s ∧
      Run Process.step (fun _ _ _ => True) (Process.boot initproc) (calls trace) s.table := by
  induction h with
  | start => exact ⟨boot_onCpus initproc, .start⟩
  | @next trace events s s' a _ _ hs ih =>
      obtain ⟨hon, hrun⟩ := ih
      have hstep := stepped_of_step hs
      refine ⟨hstep.onCpus (Process.ordered_of_run hrun).making hon, ?_⟩
      rw [calls_append]
      rcases hstep.table hon with ⟨htable, hcalls⟩ | ⟨a', hs'⟩
      · rwa [htable, hcalls, List.append_nil]
      · exact hrun.next trivial hs'

/-! ## One CPU for a process -/

theorem Stepped.not_on_of_freeproc (hstep : Stepped s a s' events) (h : OnCpus s)
    (hfree : .freeproc p ∈ events) (c : Fin ncpu) : (s.cpu c).proc ≠ some p := by
  have hfrees : ∀ {q : Fin nproc} {ok : Bool} {calls : List Process.Event},
      (∀ k, acquires s.table q = some k → s.lock k = none) →
      (.freeproc p : Event ncpu nproc) ∈
        calls.map .call ++ (frees s.table q ok).toList.map .freeproc →
      (s.cpu c).proc ≠ some p := by
    intro q ok calls hlock hmem
    rcases List.mem_append.mp hmem with hmem | hmem
    · obtain ⟨e, _, he⟩ := List.mem_map.mp hmem
      cases he
    · obtain ⟨k, hk, he⟩ := List.mem_map.mp hmem
      cases he
      obtain ⟨hacq, hstate⟩ := acquires_of_frees (Option.mem_toList.mp hk)
      exact h.not_on (hlock _ hacq) hstate c
  cases hstep with
  | kernel _ _ _ hlock _ _ => exact hfrees hlock hfree
  | stop _ _ _ hlock _ _ => exact hfrees hlock hfree
  | trap _ _ _ _ =>
      obtain ⟨e, _, he⟩ := List.mem_map.mp hfree
      cases he
  | _ => simp at hfree

/-- No process runs on two CPUs: it is `c->proc` of at most one; while its lock is free it
is `RUNNING` exactly when it is `c->proc` of one; and no slot is freed that is still the
`c->proc` of a CPU. -/
theorem one_cpu {initproc : Fin nproc}
    (h : Run step (fun _ _ _ => True) (boot ncpu initproc) trace s) :
    (∀ p c c', (s.cpu c).proc = some p → (s.cpu c').proc = some p → c = c') ∧
    (∀ p, s.lock p = none →
      ((s.table.proc p).state = .running ↔ ∃! c, (s.cpu c).proc = some p)) ∧
    ∀ a s' events p, step s a = some (s', events) → .freeproc p ∈ events →
      ∀ c, (s.cpu c).proc ≠ some p := by
  obtain ⟨hon, _⟩ := onCpus_of_run h
  refine ⟨hon.unique, ?_, ?_⟩
  · intro p hlock
    constructor
    · intro hrunning
      obtain ⟨c, hc, _⟩ := (hon.running p).mp hrunning
      exact ⟨c, hc, fun c' hc' => hon.unique p c' c hc' hc⟩
    · rintro ⟨c, hc, _⟩
      refine hon.state hc fun hback => ?_
      have hheld := (hon.lock p c).mpr ⟨hc, by rw [hback]; rfl⟩
      cases hlock.symm.trans hheld
  · intro a s' events p hs hfree
    exact (stepped_of_step hs).not_on_of_freeproc hon hfree

/-- CPU `c` makes `k` steps, and whatever it needs succeeds. -/
def steps (c : Fin ncpu) (k : ℕ) : List (Action ncpu nproc) := List.replicate k (.go c true)

/-- The first process forks on CPU 0, its child runs on CPU 1 and exits, and the first
process waits for it. -/
def forkAndWait : List (Action 2 3) :=
  steps 0 7 ++ [.trap 0 .fork] ++ steps 0 5 ++ steps 1 7 ++ [.trap 1 .exit] ++ steps 1 11 ++
    [.trap 0 .wait] ++ steps 0 2

theorem one_cpu_forkAndWait : ∃ trace s,
    Run step (fun _ _ _ => True) (boot 2 (0 : Fin 3)) trace s ∧ .dispatch 1 1 ∈ trace ∧
      (∃! c, (s.cpu c).proc = some 0) ∧ (∀ c, (s.cpu c).proc = some 0 → c = 0) ∧
      (step s (.go 0 true)).any (fun r => decide (.freeproc 1 ∈ r.2)) = true ∧
      ∀ c, (s.cpu c).proc ≠ some 1 := by
  have htest : (exec step (fun _ _ _ => True) forkAndWait [] (boot 2 (0 : Fin 3))).any
      (fun r => decide (.dispatch 1 1 ∈ r.1) && decide (r.2.lock 0 = none) &&
        decide ((r.2.table.proc 0).state = .running) && decide ((r.2.cpu 0).proc = some 0) &&
        (step r.2 (.go 0 true)).any fun r => decide (.freeproc 1 ∈ r.2)) = true := by
    decide +kernel
  obtain ⟨trace, s, hrun, hs⟩ := exists_run htest
  simp only [Bool.and_eq_true, decide_eq_true_eq] at hs
  obtain ⟨⟨⟨⟨hdispatched, hlock⟩, hrunning⟩, hproc⟩, hfree⟩ := hs
  obtain ⟨honce, hrunning_iff, hfreed⟩ := one_cpu hrun
  refine ⟨trace, s, hrun, hdispatched, (hrunning_iff 0 hlock).mp hrunning,
    fun c hc => honce 0 c 0 hc hproc, hfree, ?_⟩
  obtain ⟨⟨s', events⟩, hs, hmem⟩ := (Option.any_eq_true _ _).mp hfree
  exact hfreed (.go 0 true) s' events 1 hs (of_decide_eq_true hmem)

end Scheduler
