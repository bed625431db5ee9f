import OsAssignments.Library.Mutex
import OsAssignments.Process.Simulation

/-!
# The locks

`wait_lock` and the lock of each semaphore are held by the process that stands at one
of the points between their acquisition and their release, and a process that does not
run holds none of them. That needs the children in the making: a slot is `USED`, so not
already running, when it is made `RUNNABLE`.
-/

namespace Process

open EventRun Mutex State

variable {nproc : ℕ} {s s' : State nproc} {i : Fin nproc} {a : Action nproc}
  {events trace : List Event}

/-- A call of `wakeup` or `kkill` changes the state of a process only if it sleeps. -/
theorem Proc.wakeup_state (ch : Option (Chan nproc)) (p : Proc nproc) :
    (p.wakeup ch).state = p.state ∨ p.state = .sleeping ∧ (p.wakeup ch).state = .runnable := by
  unfold Proc.wakeup
  split_ifs with _ hsleeping
  · exact Or.inr ⟨hsleeping, rfl⟩
  · exact Or.inl rfl
  · exact Or.inl rfl

theorem Proc.kill_state (p : Proc nproc) :
    p.kill.state = p.state ∨ p.state = .sleeping ∧ p.kill.state = .runnable := by
  unfold Proc.kill
  split_ifs with hsleeping
  · exact Or.inr ⟨hsleeping, rfl⟩
  · exact Or.inl rfl

theorem ne_of_state {p : Proc nproc} {x y : ProcState} (h : p.state = x) (hxy : x ≠ y) :
    p.state ≠ y := by
  rwa [h]

/-! ## The locks -/

/-- The locks are held where the code holds them. -/
structure Locked (s : State nproc) : Prop where
  wait : Guards s.waitLock s.pc fun c => c.holdsWaitLock = true
  sem : ∀ id, Guards (s.sem id).lk s.pc fun c => c.holdsSem = some id
  idle : ∀ i, (s.proc i).state ≠ .running → (s.pc i).preemptible = true

theorem preemptible_iff {c : Pc nproc} :
    c.preemptible = true ↔ c.holdsWaitLock = false ∧ c.holdsSem = none := by
  simp [Pc.preemptible]

theorem Goto.holds {c c' : Pc nproc} (h : Goto s i c c') :
    c'.holdsWaitLock = c.holdsWaitLock ∧ c'.holdsSem = c.holdsSem := by
  cases h with
  | @wokenUp ch k caller _ =>
      cases caller with
      | reparent k => exact ⟨rfl, rfl⟩
      | kexit => exact ⟨rfl, rfl⟩
      | semSignal id => exact ⟨rfl, rfl⟩
  | _ => exact ⟨rfl, rfl⟩

theorem Entry.preemptible {call : Syscall} {c : Pc nproc} (h : Entry call c) :
    c.preemptible = true := by
  cases h <;> rfl

theorem Returns.preemptible {c : Pc nproc} {call : Syscall} {r : ℤ} (h : Returns s i c call r) :
    c.preemptible = true := by
  cases h <;> rfl

theorem Waiter.woken_preemptible (w : Waiter) : (w.woken : Pc nproc).preemptible = true := by
  cases w <;> rfl

/-- A process that runs on after its step, and another slot that does not stop running. -/
theorem Locked.idle_setProc {k : Fin nproc} {q : Proc nproc} {c : Pc nproc} (h : Locked s)
    (hrun : (s.proc i).state = .running) (hq : q.state = (s.proc k).state ∨
      (s.proc k).state ≠ .running) (hproc : s'.proc = Function.update s.proc k q)
    (hpc : s'.pc = Function.update s.pc i c) (j : Fin nproc)
    (hj : (s'.proc j).state ≠ .running) : (s'.pc j).preemptible = true := by
  have hold : (s.proc j).state ≠ .running := by
    rw [hproc] at hj
    by_cases hjk : j = k
    · rw [hjk, Function.update_self] at hj
      rw [hjk]
      rcases hq with hq | hq
      · rwa [hq] at hj
      · exact hq
    · rwa [Function.update_of_ne hjk] at hj
  have hne : j ≠ i := fun heq => hold (heq ▸ hrun)
  rw [hpc, Function.update_of_ne hne]
  exact h.idle j hold

theorem Locked.idle_self {q : Proc nproc} {c : Pc nproc} (h : Locked s)
    (hc : c.preemptible = true) (hproc : s'.proc = Function.update s.proc i q)
    (hpc : s'.pc = Function.update s.pc i c) (j : Fin nproc)
    (hj : (s'.proc j).state ≠ .running) : (s'.pc j).preemptible = true := by
  rw [hpc]
  by_cases hij : j = i
  · rw [hij, Function.update_self]
    exact hc
  · rw [hproc, Function.update_of_ne hij] at hj
    rw [Function.update_of_ne hij]
    exact h.idle j hj

theorem Locked.idle_setPc {c : Pc nproc} (h : Locked s) (hrun : (s.proc i).state = .running)
    (hproc : s'.proc = s.proc) (hpc : s'.pc = Function.update s.pc i c) (j : Fin nproc)
    (hj : (s'.proc j).state ≠ .running) : (s'.pc j).preemptible = true := by
  rw [hproc] at hj
  have hne : j ≠ i := fun heq => hj (heq ▸ hrun)
  rw [hpc, Function.update_of_ne hne]
  exact h.idle j hj

theorem Locked.keep {c : Pc nproc} (h : Locked s) (hwait : s'.waitLock = s.waitLock)
    (hsem : s'.sem = s.sem) (hpc : s'.pc = Function.update s.pc i c)
    (hc : c.holdsWaitLock = (s.pc i).holdsWaitLock ∧ c.holdsSem = (s.pc i).holdsSem)
    (hidle : ∀ j, (s'.proc j).state ≠ .running → (s'.pc j).preemptible = true) : Locked s' := by
  constructor
  · rw [hwait, hpc]
    exact h.wait.keep (by rw [hc.1])
  · intro id
    rw [hsem, hpc]
    exact (h.sem id).keep (by rw [hc.2])
  · exact hidle

theorem Locked.reschedule {q : Proc nproc} (h : Locked s)
    (hq : q.state ≠ .running → (s.pc i).preemptible = true) : Locked (s.setProc i q) := by
  refine ⟨h.wait, h.sem, ?_⟩
  intro j hj
  by_cases hij : j = i
  · rw [hij]
    rw [hij, setProc_proc, Function.update_self] at hj
    exact hq hj
  · rw [setProc_proc, Function.update_of_ne hij] at hj
    exact h.idle j hj

theorem Locked.change {k : Fin nproc} {q : Proc nproc} {c : Pc nproc} (h : Locked s)
    (hrun : (s.proc i).state = .running)
    (hq : q.state = (s.proc k).state ∨ (s.proc k).state ≠ .running)
    (hc : c.holdsWaitLock = (s.pc i).holdsWaitLock ∧ c.holdsSem = (s.pc i).holdsSem) :
    Locked ((s.setProc k q).setPc i c) :=
  h.keep rfl rfl rfl hc (h.idle_setProc hrun hq rfl rfl)

/-- A slot is given to a new process, which starts at a point like the one the slot stood at. -/
theorem Locked.fork {k : Fin nproc} {thread : Bool} {c : Pc nproc} (h : Locked s)
    (hrun : (s.proc i).state = .running) (hunused : (s.proc k).state = .unused)
    (hc : c.holdsWaitLock = (s.pc i).holdsWaitLock ∧ c.holdsSem = (s.pc i).holdsSem) :
    Locked (((s.nextPid.setProc k (.fresh s.nextpid thread)).setPc k .user).setPc i c) := by
  have hidle := preemptible_iff.mp (h.idle k (ne_of_state hunused (by decide)))
  have hne : i ≠ k := by
    rintro rfl
    rw [hunused] at hrun
    cases hrun
  have hnew : Locked ((s.nextPid.setProc k (.fresh s.nextpid thread)).setPc k .user) :=
    h.keep rfl rfl rfl ⟨hidle.1.symm, hidle.2.symm⟩ (h.idle_self rfl rfl rfl)
  refine hnew.keep rfl rfl rfl ?_ (hnew.idle_setPc ?_ rfl rfl)
  · rw [setPc_pc, Function.update_of_ne hne]
    exact hc
  · rw [setPc_proc, setProc_proc, Function.update_of_ne hne]
    exact hrun

/-! ### wait_lock -/

theorem Locked.wait_moves {c : Pc nproc} (h : Locked s)
    (hwait : Guards s'.waitLock s'.pc fun c => c.holdsWaitLock = true)
    (hsem : s'.sem = s.sem) (hpc : s'.pc = Function.update s.pc i c)
    (hc : c.holdsSem = (s.pc i).holdsSem)
    (hidle : ∀ j, (s'.proc j).state ≠ .running → (s'.pc j).preemptible = true) : Locked s' := by
  refine ⟨hwait, ?_, hidle⟩
  intro id
  rw [hsem, hpc]
  exact (h.sem id).keep (by rw [hc])

theorem Locked.acquire_wait {c : Pc nproc} (h : Locked s) (hrun : (s.proc i).state = .running)
    (hlock : s.waitLock = none) (hc : c.holdsWaitLock = true)
    (hsem : c.holdsSem = (s.pc i).holdsSem) : Locked ((s.setWaitLock (some i)).setPc i c) :=
  h.wait_moves ((hlock ▸ h.wait).acquire hc) rfl rfl hsem (h.idle_setPc hrun rfl rfl)

theorem Locked.release_wait {c : Pc nproc} (h : Locked s)
    (hi : (s.pc i).holdsWaitLock = true) (hc : c.holdsWaitLock = false)
    (hholds : c.holdsSem = (s.pc i).holdsSem) (hwait : s'.waitLock = none) (hsem : s'.sem = s.sem)
    (hpc : s'.pc = Function.update s.pc i c)
    (hidle : ∀ j, (s'.proc j).state ≠ .running → (s'.pc j).preemptible = true) : Locked s' := by
  refine h.wait_moves ?_ hsem hpc hholds hidle
  rw [hwait, hpc]
  exact h.wait.release hi (by rw [hc]; exact Bool.false_ne_true)

/-! ### The locks of the semaphores -/

theorem Locked.sem_moves {c : Pc nproc} {k : Fin 10} {x : Semaphore nproc} (h : Locked s)
    (hrun : (s.proc i).state = .running) (hk : Guards x.lk (Function.update s.pc i c)
      fun c => c.holdsSem = some k)
    (hwait : c.holdsWaitLock = (s.pc i).holdsWaitLock)
    (hother : ∀ id, id ≠ k → (c.holdsSem = some id ↔ (s.pc i).holdsSem = some id)) :
    Locked ((s.setSem k x).setPc i c) := by
  refine ⟨h.wait.keep (by rw [hwait]), ?_, h.idle_setPc hrun rfl rfl⟩
  intro id
  change Guards (Function.update s.sem k x id).lk (Function.update s.pc i c) _
  by_cases hid : id = k
  · rw [hid, Function.update_self]
    exact hk
  · rw [Function.update_of_ne hid]
    exact (h.sem id).keep (hother id hid)

theorem Locked.acquire_sem {c : Pc nproc} {k : Fin 10} {x : Semaphore nproc} (h : Locked s)
    (hrun : (s.proc i).state = .running) (hlk : (s.sem k).lk = none) (hx : x.lk = some i)
    (hi : (s.pc i).preemptible = true) (hc : c.holdsWaitLock = false ∧ c.holdsSem = some k) :
    Locked ((s.setSem k x).setPc i c) := by
  obtain ⟨hwait, hsem⟩ := preemptible_iff.mp hi
  refine h.sem_moves hrun ?_ (hc.1.trans hwait.symm) fun id hid => ?_
  · rw [hx]
    exact (hlk ▸ h.sem k).acquire hc.2
  · rw [hc.2, hsem]
    simp [hid.symm]

theorem Locked.release_sem {c : Pc nproc} {k : Fin 10} {x : Semaphore nproc} (h : Locked s)
    (hrun : (s.proc i).state = .running) (hx : x.lk = none)
    (hi : (s.pc i).holdsWaitLock = false ∧ (s.pc i).holdsSem = some k)
    (hc : c.preemptible = true) : Locked ((s.setSem k x).setPc i c) := by
  obtain ⟨hwait, hsem⟩ := preemptible_iff.mp hc
  refine h.sem_moves hrun ?_ (hwait.trans hi.1.symm) fun id hid => ?_
  · rw [hx]
    exact (h.sem k).release hi.2 (by rw [hsem]; exact Option.not_mem_none k)
  · rw [hi.2, hsem]
    simp [hid.symm]

theorem Locked.hold_sem {c : Pc nproc} {k : Fin 10} {x : Semaphore nproc} (h : Locked s)
    (hrun : (s.proc i).state = .running) (hlk : (s.sem k).lk = none) (hx : x.lk = none)
    (hc : c.holdsWaitLock = (s.pc i).holdsWaitLock ∧ c.holdsSem = (s.pc i).holdsSem) :
    Locked ((s.setSem k x).setPc i c) := by
  refine h.sem_moves hrun ?_ hc.1 fun id _ => by rw [hc.2]
  rw [hx]
  exact (hlk ▸ h.sem k).keep (by rw [hc.2])

/-! ### The steps -/

theorem Stepped.locked (hstep : Stepped s a s' events) (hmaking : s.family.Making) (h : Locked s) :
    Locked s' := by
  cases hstep with
  | dispatch => exact h.reschedule fun hne => absurd rfl hne
  | yield _ hpre => exact h.reschedule fun _ => hpre
  | @wakeOther i c =>
      refine h.reschedule fun hne => h.idle i ?_
      rcases (s.proc i).wakeup_state (some (.other c)) with hw | hw
      · rwa [hw] at hne
      · exact ne_of_state hw.1 (by decide)
  | fault hrun hpc => exact h.change hrun (Or.inl rfl) (by rw [hpc]; exact ⟨rfl, rfl⟩)
  | trap hrun hpc _ hentry =>
      refine h.keep rfl rfl rfl ?_ (h.idle_setPc hrun rfl rfl)
      rw [hpc]
      exact preemptible_iff.mp hentry.preemptible
  | goto hrun hgoto => exact h.keep rfl rfl rfl hgoto.holds (h.idle_setPc hrun rfl rfl)
  | returns hrun hret =>
      have hpre := preemptible_iff.mp hret.preemptible
      exact h.keep rfl rfl rfl ⟨hpre.1.symm, hpre.2.symm⟩ (h.idle_setPc hrun rfl rfl)
  | allocFails hrun hpc hunused =>
      refine h.keep rfl rfl rfl (by rw [hpc]; exact ⟨rfl, rfl⟩) ?_
      exact h.idle_setProc hrun (Or.inr (ne_of_state hunused (by decide))) rfl rfl
  | alloc hrun hpc hunused => exact h.fork hrun hunused (by rw [hpc]; exact ⟨rfl, rfl⟩)
  | setParent hrun hpc _ => exact h.change hrun (Or.inl rfl) (by rw [hpc]; exact ⟨rfl, rfl⟩)
  | @setRunnable i np _ thread hrun hpc =>
      have hused : (s.proc np).state.phase = .used :=
        hmaking.used i np (congrArg (fun c => (Pc.duty c).child) hpc)
      refine h.change hrun (Or.inr fun hrunning => ?_) (by rw [hpc]; exact ⟨rfl, rfl⟩)
      rw [hrunning] at hused
      cases hused
  | kexit hrun hpc _ hlock => exact h.acquire_wait hrun hlock rfl (by rw [hpc]; rfl)
  | reparent hrun hpc _ => exact h.change hrun (Or.inl rfl) (by rw [hpc]; exact ⟨rfl, rfl⟩)
  | @wakeup i k ok ch caller hrun hpc =>
      refine h.change hrun ?_ ?_
      · exact (Proc.wakeup_state ch _).imp_right fun hw => ne_of_state hw.1 (by decide)
      · rw [hpc]
        cases caller <;> exact ⟨rfl, rfl⟩
  | setZombie hrun hpc =>
      exact h.release_wait (by rw [hpc]; rfl) rfl (by rw [hpc]; rfl) rfl rfl rfl
        (h.idle_self rfl rfl rfl)
  | kwait hrun hpc hlock => exact h.acquire_wait hrun hlock rfl (by rw [hpc]; rfl)
  | scanFails hrun hpc =>
      exact h.release_wait (by rw [hpc]; rfl) rfl (by rw [hpc]; rfl) rfl rfl rfl
        (h.idle_setPc hrun rfl rfl)
  | reap hrun hpc _ hzombie _ =>
      refine h.release_wait (by rw [hpc]; rfl) rfl (by rw [hpc]; rfl) rfl rfl rfl ?_
      exact h.idle_setProc hrun (Or.inr (ne_of_state hzombie (by decide))) rfl rfl
  | @sleepPrepare i _ w hrun hpc =>
      refine h.change hrun (Or.inl rfl) ?_
      rw [hpc]
      cases w <;> exact ⟨rfl, rfl⟩
  | releaseWait hrun hpc =>
      exact h.release_wait (by rw [hpc]; rfl) rfl (by rw [hpc]; rfl) rfl rfl rfl
        (h.idle_setPc hrun rfl rfl)
  | releaseSem hrun hpc => exact h.release_sem hrun rfl (by rw [hpc]; exact ⟨rfl, rfl⟩) rfl
  | @sleep i _ w hrun hpc =>
      refine h.keep rfl rfl rfl ?_ (h.idle_self w.woken_preemptible rfl rfl)
      rw [hpc]
      exact preemptible_iff.mp w.woken_preemptible
  | kill hrun hpc _ =>
      refine h.change hrun ?_ (by rw [hpc]; exact ⟨rfl, rfl⟩)
      exact (Proc.kill_state _).imp_right fun hw => ne_of_state hw.1 (by decide)
  | semInit hrun hpc hlk => exact h.hold_sem hrun hlk rfl (by rw [hpc]; exact ⟨rfl, rfl⟩)
  | semWait hrun hpc hlk _ => exact h.acquire_sem hrun hlk rfl (by rw [hpc]; rfl) ⟨rfl, rfl⟩
  | semTake hrun hpc _ => exact h.release_sem hrun rfl (by rw [hpc]; exact ⟨rfl, rfl⟩) rfl
  | semWoken hrun hpc hlk => exact h.acquire_sem hrun hlk rfl (by rw [hpc]; rfl) ⟨rfl, rfl⟩
  | semKilled hrun hpc _ => exact h.release_sem hrun rfl (by rw [hpc]; exact ⟨rfl, rfl⟩) rfl
  | semSignal hrun hpc hlk _ => exact h.acquire_sem hrun hlk rfl (by rw [hpc]; rfl) ⟨rfl, rfl⟩
  | semSignaled hrun hpc => exact h.release_sem hrun rfl (by rw [hpc]; exact ⟨rfl, rfl⟩) rfl

theorem boot_locked (initproc : Fin nproc) : Locked (boot initproc) := by
  constructor
  · intro i
    exact iff_of_false (fun h => (nomatch h)) Bool.false_ne_true
  · intro id i
    exact iff_of_false (fun h => (nomatch h)) fun h => (nomatch h)
  · intro i _
    rfl

theorem locked_of_run {ok : List Event → State nproc → Action nproc → Prop} {initproc : Fin nproc}
    (h : Run step ok (boot initproc) trace s) : Locked s :=
  (invariant_of_run (I := fun _ s => Locked s) (boot_locked initproc)
    (fun _ _ _ _ _ ho hs _ hstep => hstep.locked ho.making hs) h).2

end Process
