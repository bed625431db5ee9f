import OsAssignments.Process.Kill
import OsAssignments.Process.Semaphore

/-!
# Semaphores that are initialised again

`sys_sem_init` sets the value of a semaphore under its lock and wakes nobody. While no
process waits for the semaphore it does no harm; a process that waits when a positive
value is set sleeps on, or goes to sleep, at a positive value, until somebody signals.
-/

namespace Process

open EventRun Mutex State

variable {nproc : ℕ}

/-- Nobody waits for the semaphore at a positive value, unless `sys_sem_signal` is about to
wake him; who is about to register has found the value 0. -/
structure Served (id : Fin 10) (s : State nproc) : Prop where
  empty : ∀ i, (s.pc i).prepares = some id → (s.sem id).value = 0
  woken : (s.sem id).value ≠ 0 → ∀ j : Fin nproc, Waits s j (.sem id) →
    ∃ (i : Fin nproc) (k : ℕ), s.pc i = .wakeup (some (.sem id)) k (.semSignal id) ∧ k ≤ j

/-- The point at which `sys_sem_init` sets the semaphore to a value other than 0. -/
def Pc.raises (id : Fin 10) : Pc nproc → Bool
  | semInit n v => n = id && v ≠ 0
  | _ => false

/-- The action does not initialise the semaphore with a value other than 0 while a process
waits for it. -/
def InitAlone (id : Fin 10) (s : State nproc) : Action nproc → Prop :=
  Action.OnAdvance fun i _ => (s.pc i).raises id = true → ∀ j, ¬ Waits s j (.sem id)

variable {id : Fin 10} {s s' : State nproc} {i j k : Fin nproc} {a : Action nproc}
  {events trace : List Event} {initproc : Fin nproc}

theorem Locked.not_prepares (h : Locked s) (hlk : (s.sem id).lk = none) (j : Fin nproc) :
    (s.pc j).prepares ≠ some id := fun hj =>
  (hlk ▸ h.sem id).not_inside (Pc.holdsSem_of_prepares hj)

/-- The value stays, and the process that moves is in no signal on the semaphore. -/
theorem Served.move {c : Pc nproc} (h : Served id s) (hback : WaitsBack s s')
    (hpc : s'.pc = Function.update s.pc i c) (hvalue : (s'.sem id).value = (s.sem id).value)
    (hold : ∀ ch k, s.pc i ≠ .wakeup ch k (.semSignal id))
    (hnew : c.prepares = some id → (s.sem id).value = 0) : Served id s' := by
  constructor
  · intro j hj
    rw [hvalue]
    rw [hpc] at hj
    by_cases hji : j = i
    · rw [hji, Function.update_self] at hj
      exact hnew hj
    · rw [Function.update_of_ne hji] at hj
      exact h.empty j hj
  · intro hne j hj
    rw [hvalue] at hne
    rcases hback j _ hj with hwaits | hprepare
    · obtain ⟨i', k, hi', hk⟩ := h.woken hne j hwaits
      have hii : i' ≠ i := by
        rintro rfl
        exact hold _ _ hi'
      refine ⟨i', k, ?_, hk⟩
      rw [hpc, Function.update_of_ne hii]
      exact hi'
    · exact absurd (h.empty j (by rw [hprepare]; rfl)) hne

theorem Served.quiet {c : Pc nproc} (h : Served id s) (hback : WaitsBack s s')
    (hpc : s'.pc = Function.update s.pc i c) (hvalue : (s'.sem id).value = (s.sem id).value)
    (hold : ∀ ch k, s.pc i ≠ .wakeup ch k (.semSignal id)) (hnew : c.prepares ≠ some id) :
    Served id s' :=
  h.move hback hpc hvalue hold fun hc => absurd hc hnew

theorem Served.still {p : Proc nproc} (h : Served id s) (hback : WaitsBack s (s.setProc k p)) :
    Served id (s.setProc k p) := by
  refine ⟨h.empty, ?_⟩
  intro hne j hj
  rcases hback j _ hj with hwaits | hprepare
  · exact h.woken hne j hwaits
  · exact absurd (h.empty j (by rw [hprepare]; rfl)) hne

/-- A step under the lock after which nobody waits at a value other than 0. -/
theorem served_of_nobody {c : Pc nproc} (hlocked : Locked s) (hback : WaitsBack s s')
    (hpc : s'.pc = Function.update s.pc i c) (hc : c.prepares ≠ some id)
    (hi : (s.pc i).prepares ≠ some id)
    (hlk : (s.sem id).lk = none ∨ (s.pc i).holdsSem = some id)
    (hnobody : (s'.sem id).value ≠ 0 → ∀ j, ¬ Waits s j (.sem id)) : Served id s' := by
  have hprepares : ∀ j, (s.pc j).prepares ≠ some id := by
    intro j hj
    rcases hlk with hlk | hholds
    · exact hlocked.not_prepares hlk j hj
    · exact hi (hlocked.eq_of_prepares hholds hj ▸ hj)
  refine ⟨?_, ?_⟩
  · intro j hj
    rw [hpc] at hj
    by_cases hji : j = i
    · rw [hji, Function.update_self] at hj
      exact absurd hj hc
    · rw [Function.update_of_ne hji] at hj
      exact absurd hj (hprepares j)
  · intro hne j hj
    rcases hback j _ hj with hwaits | hprepare
    · exact absurd hwaits (hnobody hne j)
    · exact absurd (by rw [hprepare]; rfl) (hprepares j)

theorem Served.nobody (h : Served id s) (hlocked : Locked s) (hpc : s.pc i = .semTest id)
    (hvalue : (s.sem id).value ≠ 0) (j : Fin nproc) : ¬ Waits s j (.sem id) := by
  intro hj
  obtain ⟨i', k, hi', _⟩ := h.woken hvalue j hj
  obtain rfl := (hlocked.sem id).eq (congrArg Pc.holdsSem hi') (congrArg Pc.holdsSem hpc)
  cases hi'.symm.trans hpc

/-! ## The steps -/

theorem Entry.prepares {call : Syscall} {c : Pc nproc} (h : Entry call c) :
    c.prepares ≠ some id := by
  cases h <;> exact fun hc => (nomatch hc)

theorem Returns.not_signal {c : Pc nproc} {call : Syscall} {r : ℤ} (h : Returns s i c call r)
    (ch : Option (Chan nproc)) (k : ℕ) : c ≠ .wakeup ch k (.semSignal id) := by
  cases h <;> exact fun hc => (nomatch hc)

/-- The steps that only move a process. -/
theorem Served.goto {c : Pc nproc} (h : Served id s) (hback : WaitsBack s (s.setPc i c))
    (hgoto : Goto s i (s.pc i) c) : Served id (s.setPc i c) := by
  cases hpc : s.pc i with
  | wakeup ch n caller =>
      rw [hpc] at hgoto
      cases hgoto with
      | wokenUp hn =>
          refine ⟨?_, ?_⟩
          · intro j hj
            by_cases hji : j = i
            · rw [hji, setPc_pc, Function.update_self] at hj
              cases caller <;> cases hj
            · rw [setPc_pc, Function.update_of_ne hji] at hj
              exact h.empty j hj
          · intro hne j hj
            rcases hback j _ hj with hwaits | hprepare
            · obtain ⟨i', k, hi', hk⟩ := h.woken hne j hwaits
              have hii : i' ≠ i := by
                rintro rfl
                cases hpc.symm.trans hi'
                exact absurd j.isLt (Nat.not_lt.mpr (hn.trans hk))
              refine ⟨i', k, ?_, hk⟩
              rw [setPc_pc, Function.update_of_ne hii]
              exact hi'
            · exact absurd (h.empty j (by rw [hprepare]; rfl)) hne
  | semTest n =>
      rw [hpc] at hgoto
      cases hgoto with
      | semEmpty hvalue =>
          refine h.move hback rfl rfl (fun _ _ hc => by cases hpc.symm.trans hc) ?_
          rintro ⟨⟩
          exact hvalue
  | _ =>
      rw [hpc] at hgoto
      refine h.quiet hback rfl rfl (fun _ _ hc => by cases hpc.symm.trans hc) ?_
      cases hgoto <;> exact fun hc => (nomatch hc)

theorem Served.wakeup {ch : Option (Chan nproc)} {caller : WakeupCaller} (h : Served id s)
    (hpc : s.pc i = .wakeup ch k caller)
    (hback : WaitsBack s ((s.setProc k ((s.proc k).wakeup ch)).setPc i
      (.wakeup ch (k + 1) caller))) :
    Served id ((s.setProc k ((s.proc k).wakeup ch)).setPc i (.wakeup ch (k + 1) caller)) := by
  refine ⟨?_, ?_⟩
  · intro j hj
    by_cases hji : j = i
    · rw [hji, setPc_pc, Function.update_self] at hj
      cases hj
    · rw [setPc_pc, Function.update_of_ne hji] at hj
      exact h.empty j hj
  · intro hne j hj
    rcases hback j _ hj with hwaits | hprepare
    · obtain ⟨i', n, hi', hn⟩ := h.woken hne j hwaits
      by_cases hii : i' = i
      · subst hii
        cases hpc.symm.trans hi'
        have hkj : k.val ≠ j.val := by
          intro heq
          obtain rfl := Fin.ext heq
          refine not_waits_of_wakeup (w := .sem id) (s := s) ?_ hj
          rw [setPc_proc, setProc_proc, Function.update_self]
          rfl
        refine ⟨i', k + 1, ?_, Nat.lt_of_le_of_ne hn hkj⟩
        rw [setPc_pc, Function.update_self]
      · refine ⟨i', n, ?_, hn⟩
        rw [setPc_pc, Function.update_of_ne hii]
        exact hi'
    · exact absurd (h.empty j (by rw [hprepare]; rfl)) hne

theorem value_of_ne {n : Fin 10} {x : Semaphore nproc} (hn : n ≠ id) :
    (Function.update s.sem n x id).value = (s.sem id).value := by
  rw [Function.update_of_ne hn.symm]

theorem value_of_eq {n : Fin 10} {x : Semaphore nproc} (hx : x.value = (s.sem n).value) :
    (Function.update s.sem n x id).value = (s.sem id).value := by
  by_cases hn : n = id
  · rw [← hn, Function.update_self, hx]
  · exact value_of_ne hn

/-- A slot without a process is in no signal, and at no point before its sleep. -/
theorem Served.alloc {n : ℕ} {t u : Bool} (h : Served id s) (hpc : s.pc i = .allocproc t n)
    (hk : s.pc k = .user ∨ s.pc k = .exited)
    (hback : WaitsBack s (((s.nextPid.setProc k (.fresh s.nextpid t)).setPc k .user).setPc i
      (.setParent u k))) :
    Served id (((s.nextPid.setProc k (.fresh s.nextpid t)).setPc k .user).setPc i
      (.setParent u k)) := by
  refine ⟨?_, ?_⟩
  · intro j hj
    by_cases hji : j = i
    · rw [hji, setPc_pc, Function.update_self] at hj
      cases hj
    · rw [setPc_pc, Function.update_of_ne hji, setPc_pc] at hj
      by_cases hjk : j = k
      · rw [hjk, Function.update_self] at hj
        cases hj
      · rw [Function.update_of_ne hjk] at hj
        exact h.empty j hj
  · intro hne j hj
    rcases hback j _ hj with hwaits | hprepare
    · obtain ⟨i', m, hi', hm⟩ := h.woken hne j hwaits
      have hii : i' ≠ i := by
        rintro rfl
        cases hpc.symm.trans hi'
      have hik : i' ≠ k := by
        rintro rfl
        rcases hk with hk | hk <;> cases hk.symm.trans hi'
      refine ⟨i', m, ?_, hm⟩
      rw [setPc_pc, Function.update_of_ne hii, setPc_pc, Function.update_of_ne hik]
      exact hi'
    · exact absurd (h.empty j (by rw [hprepare]; rfl)) hne

theorem Stepped.served (hstep : Stepped s a s' events) (hlocked : Locked s) (hplaced : Placed s)
    (hregistered : ∀ j, Registered s j) (hok : InitAlone id s a) (h : Served id s) :
    Served id s' := by
  have hback := hstep.waitsBack hregistered
  have hnot : ∀ {c : Pc nproc}, c.prepares = none → c.prepares ≠ some id :=
    fun hc hsome => (nomatch hc.symm.trans hsome)
  cases hstep with
  | dispatch _ => exact h.still hback
  | yield _ _ => exact h.still hback
  | wakeOther => exact h.still hback
  | fault _ hpc =>
      exact h.quiet hback rfl rfl (fun _ _ hc => by cases hpc.symm.trans hc) (hnot rfl)
  | trap _ hpc _ hentry =>
      exact h.quiet hback rfl rfl (fun _ _ hc => by cases hpc.symm.trans hc) hentry.prepares
  | goto _ hgoto => exact h.goto hback hgoto
  | returns _ hret => exact h.quiet hback rfl rfl hret.not_signal (hnot rfl)
  | allocFails _ hpc _ =>
      exact h.quiet hback rfl rfl (fun _ _ hc => by cases hpc.symm.trans hc) (hnot rfl)
  | alloc _ hpc hunused =>
      exact h.alloc hpc (hplaced _ (ne_live_of_state hunused (by decide))) hback
  | setParent _ hpc _ =>
      exact h.quiet hback rfl rfl (fun _ _ hc => by cases hpc.symm.trans hc) (hnot rfl)
  | setRunnable _ hpc =>
      exact h.quiet hback rfl rfl (fun _ _ hc => by cases hpc.symm.trans hc) (hnot rfl)
  | kexit _ hpc _ _ =>
      exact h.quiet hback rfl rfl (fun _ _ hc => by cases hpc.symm.trans hc) (hnot rfl)
  | reparent _ hpc _ =>
      exact h.quiet hback rfl rfl (fun _ _ hc => by cases hpc.symm.trans hc) (hnot rfl)
  | wakeup _ hpc => exact h.wakeup hpc hback
  | setZombie _ hpc =>
      exact h.quiet hback rfl rfl (fun _ _ hc => by cases hpc.symm.trans hc) (hnot rfl)
  | kwait _ hpc _ =>
      exact h.quiet hback rfl rfl (fun _ _ hc => by cases hpc.symm.trans hc) (hnot rfl)
  | scanFails _ hpc =>
      exact h.quiet hback rfl rfl (fun _ _ hc => by cases hpc.symm.trans hc) (hnot rfl)
  | reap _ hpc _ _ _ =>
      exact h.quiet hback rfl rfl (fun _ _ hc => by cases hpc.symm.trans hc) (hnot rfl)
  | @sleepPrepare i _ w _ hpc =>
      refine h.move hback rfl rfl (fun _ _ hc => by cases hpc.symm.trans hc) fun hc => ?_
      refine h.empty i ?_
      rw [hpc]
      cases w <;> exact hc
  | releaseWait _ hpc =>
      exact h.quiet hback rfl rfl (fun _ _ hc => by cases hpc.symm.trans hc) (hnot rfl)
  | releaseSem _ hpc =>
      refine h.quiet hback rfl (value_of_eq ?_) (fun _ _ hc => by cases hpc.symm.trans hc)
        (hnot rfl)
      rfl
  | @sleep i _ w _ hpc =>
      refine h.quiet hback rfl rfl (fun _ _ hc => by cases hpc.symm.trans hc) ?_
      cases w <;> exact hnot rfl
  | kill _ hpc _ =>
      exact h.quiet hback rfl rfl (fun _ _ hc => by cases hpc.symm.trans hc) (hnot rfl)
  | @semInit i _ n v _ hpc hlk =>
      by_cases hn : n = id
      · subst hn
        refine served_of_nobody hlocked hback rfl (hnot rfl) (by rw [hpc]; exact hnot rfl)
          (Or.inl hlk) fun hne j => ?_
        rw [setPc_sem, setSem_sem, Function.update_self] at hne
        exact hok (by simp [hpc, Pc.raises, hne]) j
      · exact h.quiet hback rfl (value_of_ne hn) (fun _ _ hc => by cases hpc.symm.trans hc)
          (hnot rfl)
  | semWait _ hpc _ _ =>
      refine h.quiet hback rfl (value_of_eq ?_) (fun _ _ hc => by cases hpc.symm.trans hc)
        (hnot rfl)
      rfl
  | @semTake i _ n _ hpc hvalue =>
      by_cases hn : n = id
      · subst hn
        exact served_of_nobody hlocked hback rfl (hnot rfl) (by rw [hpc]; exact hnot rfl)
          (Or.inr (by rw [hpc]; rfl)) fun _ => h.nobody hlocked hpc hvalue
      · exact h.quiet hback rfl (value_of_ne hn) (fun _ _ hc => by cases hpc.symm.trans hc)
          (hnot rfl)
  | semWoken _ hpc _ =>
      refine h.quiet hback rfl (value_of_eq ?_) (fun _ _ hc => by cases hpc.symm.trans hc)
        (hnot rfl)
      rfl
  | semKilled _ hpc _ =>
      refine h.quiet hback rfl (value_of_eq ?_) (fun _ _ hc => by cases hpc.symm.trans hc)
        (hnot rfl)
      rfl
  | @semSignal i _ n _ hpc hlk _ =>
      by_cases hn : n = id
      · subst hn
        refine ⟨?_, fun _ j _ => ⟨i, 0, ?_, Nat.zero_le _⟩⟩
        · intro j hj
          obtain ⟨_, hj⟩ := other_of_setPc (P := fun c => c.prepares = some n) hj nofun
          exact absurd hj (hlocked.not_prepares hlk j)
        · rw [setPc_pc, Function.update_self]
      · exact h.quiet hback rfl (value_of_ne hn) (fun _ _ hc => by cases hpc.symm.trans hc)
          (hnot rfl)
  | semSignaled _ hpc =>
      refine h.quiet hback rfl (value_of_eq ?_) (fun _ _ hc => by cases hpc.symm.trans hc)
        (hnot rfl)
      rfl

/-! ## Runs -/

variable {ok : List Event → State nproc → Action nproc → Prop}

theorem boot_served (initproc : Fin nproc) : Served id (boot initproc) :=
  ⟨fun _ hj => (nomatch hj), fun hne => absurd rfl hne⟩

theorem served_of_run (h : Run step (fun _ s a => InitAlone id s a) (boot initproc) trace s) :
    Served id s := by
  refine (invariant_of_run (I := fun _ s => Locked s ∧ Placed s ∧ (∀ i, Registered s i) ∧ Served id s)
    ⟨boot_locked initproc, fun _ _ => Or.inl rfl, boot_registered initproc, boot_served initproc⟩
    ?_ h).2.2.2.2
  rintro _ s a s' events ho ⟨hlocked, hplaced, hregistered, hserved⟩ hok hstep
  exact ⟨hstep.locked ho.making hlocked, hstep.placed ho.making hplaced,
    fun i => (hstep.attends hregistered i).registered,
    hstep.served hlocked hplaced hregistered hok hserved⟩

theorem Registered.waits_of_chan (h : Registered s j) (hsleeping : (s.proc j).state = .sleeping)
    (hchan : (s.proc j).chan = some (.sem id)) : Waits s j (.sem id) := by
  obtain ⟨w, _, hwaits⟩ := h.waits hsleeping
  obtain rfl : w = .sem id := by
    cases w <;> cases hchan.symm.trans hwaits.1
    rfl
  exact hwaits

/-- As long as the semaphore is initialised with a positive value only when nobody waits for
it, nobody sleeps on it while its lock is free and its value is positive. -/
theorem nobody_stranded (h : Run step (fun _ s a => InitAlone id s a) (boot initproc) trace s)
    (hlk : (s.sem id).lk = none) (hvalue : 0 < (s.sem id).value) (j : Fin nproc) :
    ¬ ((s.proc j).state = .sleeping ∧ (s.proc j).chan = some (.sem id)) := by
  rintro ⟨hsleeping, hchan⟩
  obtain ⟨i, k, hi, _⟩ := (served_of_run h).woken (ne_of_gt hvalue) j
    ((registered_of_run h j).waits_of_chan hsleeping hchan)
  exact (hlk ▸ (locked_of_run h).sem id).not_inside (congrArg Pc.holdsSem hi)

theorem run_sleep {w : Waiter} (h : Run step (fun _ _ _ => True) s' trace s)
    (hrun : (s.proc j).state = .running) (hpc : s.pc j = .sleep w)
    (hchan : (s.proc j).chan = some (w.chan j)) : Run step (fun _ _ _ => True) s' (trace ++ [])
      ((s.setProc j { s.proc j with state := .sleeping }).setPc j w.woken) := by
  have hsleep : (s.proc j).sleep = { s.proc j with state := .sleeping } := by
    rw [Proc.sleep, if_neg (by rw [hchan]; exact Option.some_ne_none _)]
  refine h.next (a := .advance j true) trivial ?_
  rw [step, if_pos hrun, advance, hpc]
  simp only [sleep, hsleep]

/-- Conversely, when the value is set while a process waits, that process sleeps at once or
can be made to, with the lock free and the value as it was set. -/
theorem stranded_of_waits {v : ℤ} (h : Run step ok (boot initproc) trace s)
    (hpc : s.pc i = .semInit id v) (hlk : (s.sem id).lk = none) (hj : Waits s j (.sem id)) :
    ∃ trace' t, Run step (fun _ _ _ => True)
        ((s.setSem id ⟨v, true, none⟩).setPc i .trapReturn) trace' t ∧
      (t.sem id).lk = none ∧ (t.sem id).value = v ∧ (t.proc j).state = .sleeping ∧
        (t.proc j).chan = some (.sem id) := by
  have hchan : (s.proc j).chan = some (.sem id) := hj.1
  have hji : j ≠ i := by
    rintro rfl
    rcases hj.2 with hw | ⟨hw, _⟩
    · rw [hpc] at hw
      cases hw
    · cases hpc.symm.trans hw
  generalize hs' : (s.setSem id ⟨v, true, none⟩).setPc i .trapReturn = s'
  have hproc : s'.proc = s.proc := by rw [← hs']; rfl
  have hsem : s'.sem id = ⟨v, true, none⟩ := by
    rw [← hs', setPc_sem, setSem_sem, Function.update_self]
  have hpcj : s'.pc j = s.pc j := by
    rw [← hs', setPc_pc, Function.update_of_ne hji, setSem_pc]
  rcases hj.2 with hw | ⟨_, hsleeping⟩
  · have hsleep : s.pc j = .sleep (.sem id) := by
      cases hc : s.pc j with
      | release w =>
          rw [hc] at hw
          cases hw
          exact absurd (by rw [hc]; rfl) ((locked_of_run h).not_prepares hlk j)
      | sleep w =>
          rw [hc] at hw
          cases hw
          rfl
      | _ =>
          rw [hc] at hw
          cases hw
    have hpc' : s'.pc j = .sleep (.sem id) := hpcj.trans hsleep
    by_cases hsleeping : (s.proc j).state = .sleeping
    · exact ⟨[], s', .start, by rw [hsem], by rw [hsem], by rw [hproc, hsleeping],
        by rw [hproc]; exact hj.1⟩
    rcases (placed_of_run h).awake (by rw [hsleep]; rfl) hsleeping with hrun | hrunnable
    · refine ⟨_, _, run_sleep .start (by rw [hproc, hrun]) hpc' (by rw [hproc]; exact hj.1), ?_⟩
      simpa [hsem, hproc] using hchan
    · have hdispatch : Run step (fun _ _ _ => True) s' ([] ++ [])
          (s'.setProc j { s'.proc j with state := .running }) := by
        refine Run.start.next (a := .dispatch j) trivial ?_
        rw [step, if_pos (by rw [hproc, hrunnable])]
      refine ⟨_, _, run_sleep hdispatch ?_ hpc' ?_, ?_⟩
      · rw [setProc_proc, Function.update_self]
      · rw [setProc_proc, Function.update_self, hproc]
        exact hj.1
      · simpa [hsem, hproc] using hchan
  · exact ⟨[], s', .start, by rw [hsem], by rw [hsem], by rw [hproc, hsleeping],
      by rw [hproc]; exact hj.1⟩

/-! ## A second initialisation -/

instance (s : State nproc) (i : Fin nproc) (w : Waiter) : Decidable (Waits s i w) :=
  inferInstanceAs (Decidable (_ ∧ (_ ∨ _ ∧ _)))

instance (id : Fin 10) (s : State nproc) : DecidablePred (InitAlone id s) :=
  inferInstanceAs (DecidablePred (Action.OnAdvance _))

/-- The first process initialises a semaphore to 0 and forks, and its child waits for the
semaphore and sleeps. If `wake`, the first process signals and the child returns. Then the
first process initialises the semaphore to 1. -/
def initAgain (wake : Bool) : List (Action 3) :=
  [.dispatch 0, .trap 0 (.semInit 0 0)] ++ go 0 2 ++ [.trap 0 .fork] ++ go 0 5 ++
    [.dispatch 1, .trap 1 (.semWait 0)] ++ go 1 5 ++
    (if wake then [.trap 0 (.semSignal 0)] ++ go 0 7 ++ [.dispatch 1] ++ go 1 3 else []) ++
    [.trap 0 (.semInit 0 1)] ++ go 0 1

theorem nobody_stranded_woken : ∃ trace s,
    Run step (fun _ s a => InitAlone 0 s a) (boot (0 : Fin 3)) trace s ∧
      (s.sem 0).value = 1 ∧ ¬ ((s.proc 1).state = .sleeping ∧ (s.proc 1).chan = some (.sem 0)) := by
  have htest : (exec step (fun _ s a => InitAlone 0 s a) (initAgain true) []
      (boot (0 : Fin 3))).any (fun r => decide ((r.2.sem 0).lk = none) &&
        decide ((r.2.sem 0).value = 1)) = true := by decide +kernel
  obtain ⟨trace, s, hrun, hs⟩ := exists_run htest
  simp only [Bool.and_eq_true, decide_eq_true_eq] at hs
  exact ⟨trace, s, hrun, hs.2, nobody_stranded hrun hs.1 (by rw [hs.2]; decide) 1⟩

/-- A process sleeps on a semaphore whose value has been set to 1. -/
theorem sleeper_stranded : ∃ trace s, Run step (fun _ _ _ => True) (boot (0 : Fin 3)) trace s ∧
    s.pc 0 = .trapReturn ∧ trace.getLast? = some ⟨1, .semInit 0 1, 0⟩ ∧ (s.sem 0).lk = none ∧
      (s.sem 0).value = 1 ∧ (s.proc 1).state = .sleeping ∧ (s.proc 1).chan = some (.sem 0) := by
  have htest : (exec step (fun _ _ _ => True) (initAgain false) [] (boot (0 : Fin 3))).any
      (fun r => decide (r.2.pc 0 = .trapReturn) &&
        decide (r.1.getLast? = some ⟨1, .semInit 0 1, 0⟩) && decide ((r.2.sem 0).lk = none) &&
        decide ((r.2.sem 0).value = 1) && decide ((r.2.proc 1).state = .sleeping) &&
        decide ((r.2.proc 1).chan = some (.sem 0))) = true := by decide +kernel
  obtain ⟨trace, s, hrun, hs⟩ := exists_run htest
  simp only [Bool.and_eq_true, decide_eq_true_eq] at hs
  obtain ⟨⟨⟨⟨⟨hpc, hlast⟩, hlk⟩, hvalue⟩, hsleeping⟩, hchan⟩ := hs
  exact ⟨trace, s, hrun, hpc, hlast, hlk, hvalue, hsleeping, hchan⟩

end Process
