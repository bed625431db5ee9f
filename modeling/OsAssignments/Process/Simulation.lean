import OsAssignments.Process.Family
import OsAssignments.Process.Steps

/-!
# The process table is a family

`State.family` forgets of a state all but the family of processes: of a slot its phase,
its pid and its place in the tree, of a program counter the duty it stands for. Every
step of the process table is a step of the family, most of them a quiet one; so what is
shown of the steps of a family holds of the process table.
-/

namespace Process

open EventRun State Family

variable {nproc : ℕ}

def ProcState.phase : ProcState → Phase
  | unused => .unused
  | used => .used
  | sleeping => .live
  | runnable => .live
  | running => .live
  | zombie => .zombie

def Proc.member (p : Proc nproc) : Member nproc :=
  ⟨p.state.phase, p.pid, p.isThread, p.detached, p.parent⟩

def Pc.duty : Pc nproc → Duty nproc
  | setParent thread np => .adopt thread np
  | setRunnable thread np => .start thread np
  | reparent k => .sweep k
  | wakeup _ _ (.reparent k) => .sweep (k + 1)
  | wakeup _ _ .kexit => .bury
  | setZombie => .bury
  | _ => .idle

@[simps] def State.family (s : State nproc) : Family nproc where
  member i := (s.proc i).member
  duty i := (s.pc i).duty
  nextpid := s.nextpid
  initproc := s.initproc

variable {s s' : State nproc} {i k : Fin nproc} {a : Action nproc} {events trace : List Event}

@[simp] theorem family_setPc (c : Pc nproc) :
    (s.setPc i c).family = s.family.setDuty i c.duty := by
  simp only [State.family, Family.setDuty, setPc_proc, setPc_pc, setPc_nextpid, setPc_initproc,
    Family.mk.injEq, true_and, and_true]
  exact Function.comp_update Pc.duty s.pc i c

@[simp] theorem family_setProc (p : Proc nproc) :
    (s.setProc k p).family = s.family.setMember k p.member := by
  simp only [State.family, Family.setMember, setProc_proc, setProc_pc, setProc_nextpid,
    setProc_initproc, Family.mk.injEq, and_true]
  exact Function.comp_update Proc.member s.proc k p

@[simp] theorem family_setWaitLock (l : Option (Fin nproc)) :
    (s.setWaitLock l).family = s.family := rfl

@[simp] theorem family_setSem (id : Fin 10) (x : Semaphore nproc) :
    (s.setSem id x).family = s.family := rfl

@[simp] theorem family_nextPid : s.nextPid.family = s.family.nextPid := rfl

theorem family_setPc_of_duty {c : Pc nproc} (h : c.duty = (s.pc i).duty) :
    (s.setPc i c).family = s.family := by
  rw [family_setPc, Family.setDuty, h]
  exact congrArg (fun d => { s.family with duty := d }) (Function.update_eq_self i s.family.duty)

theorem family_setProc_of_member {p : Proc nproc} (h : p.member = (s.proc k).member) :
    (s.setProc k p).family = s.family := by
  rw [family_setProc, Family.setMember, h]
  exact congrArg (fun m => { s.family with member := m })
    (Function.update_eq_self k s.family.member)

theorem Proc.wakeup_member (ch : Option (Chan nproc)) (p : Proc nproc) :
    (p.wakeup ch).member = p.member := by
  unfold Proc.wakeup
  split_ifs with _ hsleeping
  · simp [Proc.member, hsleeping, ProcState.phase]
  · rfl
  · rfl

theorem Proc.kill_member (p : Proc nproc) : p.kill.member = p.member := by
  unfold Proc.kill
  split_ifs with hsleeping
  · simp [Proc.member, hsleeping, ProcState.phase]
  · rfl

theorem Proc.sleep_member {p : Proc nproc} (h : p.state = .running) :
    p.sleep.member = p.member := by
  unfold Proc.sleep
  split_ifs
  · rfl
  · simp [Proc.member, h, ProcState.phase]

theorem Waiter.woken_duty (w : Waiter) : (w.woken : Pc nproc).duty = .idle := by
  cases w <;> rfl

theorem Entry.duty {call : Syscall} {c : Pc nproc} (h : Entry call c) : c.duty = .idle := by
  cases h <;> rfl

theorem Returns.duty {c : Pc nproc} {call : Syscall} {r : ℤ} (h : Returns s i c call r) :
    c.duty = .idle := by
  cases h <;> rfl

theorem Returns.ret_eq {c : Pc nproc} {call : Syscall} {r : ℤ} (h : Returns s i c call r)
    (hkin : call.isKin = true) : r = -1 := by
  cases h with
  | otherWoken => cases hkin
  | _ => rfl

/-! ## Phases -/

/-- The process has been made `RUNNABLE` and not yet been reaped. -/
def Proc.Exists (p : Proc nproc) : Prop := p.state ≠ .unused ∧ p.state ≠ .used

def Proc.Alive (p : Proc nproc) : Prop := p.Exists ∧ p.state ≠ .zombie

instance (p : Proc nproc) : Decidable p.Exists :=
  inferInstanceAs (Decidable (p.state ≠ .unused ∧ p.state ≠ .used))

theorem phase_unused {p : Proc nproc} : p.member.phase = .unused ↔ p.state = .unused := by
  unfold Proc.member
  cases p.state <;> simp [ProcState.phase]

theorem phase_alive {p : Proc nproc} : p.member.phase = .live ↔ p.Alive := by
  unfold Proc.member Proc.Alive Proc.Exists
  cases p.state <;> simp [ProcState.phase]

theorem phase_exists {p : Proc nproc} :
    p.member.phase = .live ∨ p.member.phase = .zombie ↔ p.Exists := by
  unfold Proc.member Proc.Exists
  cases p.state <;> simp [ProcState.phase]

theorem phase_zombie {p : Proc nproc} : p.member.phase = .zombie ↔ p.state = .zombie := by
  unfold Proc.member
  cases p.state <;> simp [ProcState.phase]

/-! ## The steps -/

/-- What the exits and the reaping of a family are in the process table. -/
def Deed.By (s : State nproc) (a : Action nproc) : Deed nproc → Prop
  | other => True
  | exit i => ∃ ok, a = .advance i ok ∧ s.pc i = .kexit
  | reap i thread k => ∃ ok havekids, a = .advance i ok ∧ s.pc i = .scan thread k havekids ∧
      (thread || ok) = true

theorem abandoned_iff {t : Fin nproc} : abandoned s i t = true ↔ s.family.Abandoned i t := by
  simp [abandoned, Family.Abandoned, Proc.member]

theorem isChild_iff {thread : Bool} {t : Fin nproc} :
    isChild s i thread t = true ↔ s.family.Child i thread t := by
  cases thread <;> simp [isChild, Family.Child, Proc.member]

theorem quiet_of_eq (hfamily : s'.family = s.family)
    (hevents : ∀ e ∈ events, (∃ i, (s.proc i).state = .running ∧ e.pid = (s.proc i).pid) ∧
      (e.call.isKin = true → e.ret = -1)) :
    ∃ d, s.family.Step d s'.family events ∧ d.By s a := by
  refine ⟨.other, ?_, trivial⟩
  rw [hfamily]
  refine .quiet fun e he => ⟨?_, (hevents e he).2⟩
  obtain ⟨i, hrun, hpid⟩ := (hevents e he).1
  exact ⟨i, congrArg ProcState.phase hrun, hpid⟩

theorem quiet_of_nil (hfamily : s'.family = s.family) :
    ∃ d, s.family.Step d s'.family [] ∧ d.By s a :=
  quiet_of_eq hfamily fun _ he => (nomatch he)

theorem quiet_of_ret {call : Syscall} {r : ℤ} (hrun : (s.proc i).state = .running)
    (hfamily : s'.family = s.family) (hret : call.isKin = true → r = -1) :
    ∃ d, s.family.Step d s'.family [⟨(s.proc i).pid, call, r⟩] ∧ d.By s a := by
  refine quiet_of_eq hfamily ?_
  intro e he
  rw [List.mem_singleton.mp he]
  exact ⟨⟨i, hrun, rfl⟩, hret⟩

theorem Goto.family {c : Pc nproc} (h : Goto s i (s.pc i) c) :
    ∃ d, s.family.Step d (s.setPc i c).family [] ∧ d.By s a := by
  generalize hpc : s.pc i = c₀ at h
  have hduty : s.family.duty i = c₀.duty := congrArg Pc.duty hpc
  cases h with
  | @reparent k hnot =>
      refine ⟨.other, ?_, trivial⟩
      rw [family_setPc]
      refine .skip hduty fun habandoned => ?_
      rw [abandoned_iff.mpr habandoned] at hnot
      cases hnot
  | @reparented k hk =>
      refine ⟨.other, ?_, trivial⟩
      rw [family_setPc]
      exact .swept hduty hk
  | @wokenUp ch k caller _ =>
      refine quiet_of_nil (family_setPc_of_duty ?_)
      rw [hpc]
      cases caller <;> rfl
  | _ =>
      refine quiet_of_nil (family_setPc_of_duty ?_)
      rw [hpc]
      rfl

theorem Stepped.family (h : Stepped s a s' events) :
    ∃ d, s.family.Step d s'.family events ∧ d.By s a := by
  cases h with
  | dispatch hstate =>
      refine quiet_of_nil (family_setProc_of_member ?_)
      simp [Proc.member, hstate, ProcState.phase]
  | yield hstate _ =>
      refine quiet_of_nil (family_setProc_of_member ?_)
      simp [Proc.member, hstate, ProcState.phase]
  | wakeOther => exact quiet_of_nil (family_setProc_of_member (Proc.wakeup_member _ _))
  | @fault i _ hpc =>
      refine quiet_of_nil ((family_setPc_of_duty ?_).trans (family_setProc_of_member rfl))
      rw [setProc_pc, hpc]
      rfl
  | trap _ hpc _ hentry =>
      refine quiet_of_nil (family_setPc_of_duty ?_)
      rw [hpc, hentry.duty]
      rfl
  | goto _ hgoto => exact hgoto.family
  | returns hrun hret =>
      refine quiet_of_ret hrun (family_setPc_of_duty ?_) hret.ret_eq
      rw [hret.duty]
      rfl
  | @allocFails i k _ thread hrun hpc hunused =>
      refine ⟨.other, ?_, trivial⟩
      have hduty : (Pc.trapReturn : Pc nproc).duty = (s.pc i).duty := by
        rw [hpc]
        rfl
      rw [family_setPc_of_duty (s := s.nextPid.setProc k .free) hduty, family_setProc,
        family_nextPid]
      exact .allocFails (F := s.family) (congrArg ProcState.phase hrun)
        (congrArg ProcState.phase hunused)
  | @alloc i k _ thread hrun hpc hunused =>
      refine ⟨.other, ?_, trivial⟩
      rw [family_setPc, family_setPc, family_setProc, family_nextPid]
      exact .alloc (F := s.family) (congrArg ProcState.phase hrun) (congrArg Pc.duty hpc)
        (congrArg ProcState.phase hunused)
  | @setParent i np _ thread hrun hpc _ =>
      refine ⟨.other, ?_, trivial⟩
      rw [family_setPc, family_setProc]
      exact .adopt (F := s.family) (congrArg ProcState.phase hrun) (congrArg Pc.duty hpc)
  | @setRunnable i np _ thread hrun hpc =>
      refine ⟨.other, ?_, trivial⟩
      rw [family_setPc, family_setProc]
      exact .start (F := s.family) (congrArg ProcState.phase hrun) (congrArg Pc.duty hpc)
  | @kexit i ok hrun hpc hinit _ =>
      refine ⟨.exit i, ?_, ok, rfl, hpc⟩
      rw [family_setPc, family_setWaitLock]
      exact .exit (F := s.family) (congrArg ProcState.phase hrun) (congrArg Pc.duty hpc) hinit
  | @reparent i k _ hrun hpc habandoned =>
      refine ⟨.other, ?_, trivial⟩
      rw [family_setPc, family_setProc]
      exact .pass (F := s.family) (congrArg Pc.duty hpc) (abandoned_iff.mp habandoned)
  | @wakeup i k _ ch caller _ hpc =>
      refine quiet_of_nil ((family_setPc_of_duty ?_).trans
        (family_setProc_of_member (Proc.wakeup_member _ _)))
      rw [setProc_pc, hpc]
      cases caller <;> rfl
  | @setZombie i _ hrun hpc =>
      refine ⟨.other, ?_, trivial⟩
      rw [family_setPc, family_setWaitLock, family_setProc]
      exact .die (F := s.family) (congrArg ProcState.phase hrun) (congrArg Pc.duty hpc)
  | kwait _ hpc _ =>
      refine quiet_of_nil (family_setPc_of_duty ?_)
      rw [setWaitLock_pc, hpc]
      rfl
  | @scanFails i _ thread _ _ hrun hpc =>
      refine quiet_of_ret hrun (family_setPc_of_duty ?_) fun _ => rfl
      rw [setWaitLock_pc, hpc]
      rfl
  | @reap i k ok thread havekids hrun hpc hchild hzombie hcopy =>
      refine ⟨.reap i thread k, ?_, ok, havekids, rfl, hpc, hcopy⟩
      have hduty : (Pc.trapReturn : Pc nproc).duty = (s.pc i).duty := by
        rw [hpc]
        rfl
      rw [family_setPc_of_duty (s := (s.setProc k .free).setWaitLock none) hduty,
        family_setWaitLock, family_setProc]
      exact .reap (F := s.family) (congrArg ProcState.phase hrun) (congrArg Pc.duty hpc)
        (isChild_iff.mp hchild) (congrArg ProcState.phase hzombie)
  | @sleepPrepare i _ w _ hpc =>
      refine quiet_of_nil ((family_setPc_of_duty ?_).trans (family_setProc_of_member rfl))
      rw [setProc_pc, hpc]
      cases w <;> rfl
  | releaseWait _ hpc =>
      refine quiet_of_nil (family_setPc_of_duty ?_)
      rw [setWaitLock_pc, hpc]
      rfl
  | releaseSem _ hpc =>
      refine quiet_of_nil (family_setPc_of_duty ?_)
      rw [setSem_pc, hpc]
      rfl
  | @sleep i _ w hrun hpc =>
      refine quiet_of_nil ((family_setPc_of_duty ?_).trans
        (family_setProc_of_member (Proc.sleep_member hrun)))
      rw [setProc_pc, hpc, w.woken_duty]
      rfl
  | @kill i k _ pid hrun hpc _ =>
      refine quiet_of_ret hrun ((family_setPc_of_duty ?_).trans
        (family_setProc_of_member (Proc.kill_member _))) fun hkin => (nomatch hkin)
      rw [setProc_pc, hpc]
      rfl
  | semWait _ hpc _ _ =>
      refine quiet_of_nil (family_setPc_of_duty ?_)
      rw [setSem_pc, hpc]
      rfl
  | semWoken _ hpc _ =>
      refine quiet_of_nil (family_setPc_of_duty ?_)
      rw [setSem_pc, hpc]
      rfl
  | semSignal _ hpc _ _ =>
      refine quiet_of_nil (family_setPc_of_duty ?_)
      rw [setSem_pc, hpc]
      rfl
  | semInit hrun hpc _ =>
      refine quiet_of_ret hrun (family_setPc_of_duty ?_) fun hkin => (nomatch hkin)
      rw [setSem_pc, hpc]
      rfl
  | semTake hrun hpc _ =>
      refine quiet_of_ret hrun (family_setPc_of_duty ?_) fun hkin => (nomatch hkin)
      rw [setSem_pc, hpc]
      rfl
  | semKilled hrun hpc _ =>
      refine quiet_of_ret hrun (family_setPc_of_duty ?_) fun hkin => (nomatch hkin)
      rw [setSem_pc, hpc]
      rfl
  | semSignaled hrun hpc =>
      refine quiet_of_ret hrun (family_setPc_of_duty ?_) fun hkin => (nomatch hkin)
      rw [setSem_pc, hpc]
      rfl

/-! ## Runs -/

variable {ok : List Event → State nproc → Action nproc → Prop} {initproc : Fin nproc}

/-- What holds of a family in every run. -/
structure Ordered (trace : List Event) (F : Family nproc) : Prop where
  making : F.Making
  rooted : F.Rooted
  numbered : Numbered trace F

theorem boot_member (i : Fin nproc) : (boot initproc).family.member i =
    if i = initproc then ⟨.live, 1, false, false, none⟩ else .free := by
  by_cases hi : i = initproc <;>
    simp [boot, State.family, hi, Proc.member, Proc.fresh, Proc.free, ProcState.phase, Member.free]

theorem boot_making : (boot initproc).family.Making := by
  constructor
  · intro i np hi
    cases hi
  · intro i j np hi
    cases hi
  · intro i np thread hi
    rcases hi with hi | hi <;> cases hi
  · intro i np thread hi
    cases hi

theorem boot_numbered : Numbered [] (boot initproc).family := by
  have hinit : ∀ i, ((boot initproc).family.member i).phase ≠ .unused → i = initproc := by
    intro i hi
    by_contra hne
    rw [boot_member, if_neg hne] at hi
    exact hi rfl
  constructor
  · intro i hi
    rw [boot_member, if_pos (hinit i hi)]
    exact ⟨Int.one_pos, (by decide : (1 : ℤ) < 2)⟩
  · intro i j hi hj _
    rw [hinit i hi, hinit j hj]
  · exact ⟨(by decide : (0 : ℤ) < 2), fun _ he => (nomatch he)⟩
  · exact fun _ _ _ hc => (nomatch hc.1)
  · exact fun _ _ _ _ hc => (nomatch hc.1)
  · exact fun _ _ _ _ _ hc => (nomatch hc.1)

theorem boot_rooted : (boot initproc).family.Rooted := by
  have hroot : (boot initproc).family.member (boot initproc).family.initproc =
      ⟨.live, 1, false, false, none⟩ := (boot_member initproc).trans (if_pos rfl)
  refine ⟨?_, ?_, fun _ _ hm => (nomatch hm)⟩
  · rw [hroot]
  · rw [hroot]

theorem Ordered.step {F F' : Family nproc} {d : Deed nproc} (h : Ordered trace F)
    (hstep : F.Step d F' events) : Ordered (trace ++ events) F' :=
  ⟨h.making.step hstep, h.rooted.step hstep, h.numbered.step h.making hstep⟩

/-- What the steps keep in a family in order holds in every state of a run. -/
theorem invariant_of_run {I : List Event → State nproc → Prop} (hboot : I [] (boot initproc))
    (hstep : ∀ trace s a s' events, Ordered trace s.family → I trace s → ok trace s a →
      Stepped s a s' events → I (trace ++ events) s')
    (h : Run step ok (boot initproc) trace s) : Ordered trace s.family ∧ I trace s := by
  refine h.invariant (I := fun trace s => Ordered trace s.family ∧ I trace s)
    ⟨⟨boot_making, boot_rooted, boot_numbered⟩, hboot⟩ ?_
  rintro trace s a s' events ⟨ho, hI⟩ hok hs
  have hstepped := stepped_of_step hs
  obtain ⟨d, hd, _⟩ := hstepped.family (a := a)
  exact ⟨ho.step hd, hstep trace s a s' events ho hI hok hstepped⟩

theorem ordered_of_run (h : Run step ok (boot initproc) trace s) : Ordered trace s.family :=
  (invariant_of_run (I := fun _ _ => True) trivial (fun _ _ _ _ _ _ _ _ _ => trivial) h).1

/-- What the steps of a family keep, when their deeds satisfy `P`, holds in a run whose
actions see to it. -/
theorem family_of_run {I : List Event → Family nproc → Prop} {P : Family nproc → Deed nproc → Prop}
    (hboot : I [] (boot initproc).family)
    (hok : ∀ trace s a d, ok trace s a → d.By s a → P s.family d)
    (hstep : ∀ trace F d F' events, Ordered trace F → I trace F → P F d → F.Step d F' events →
      I (trace ++ events) F')
    (h : Run step ok (boot initproc) trace s) : I trace s.family := by
  refine (invariant_of_run (I := fun trace s => I trace s.family) hboot ?_ h).2
  intro trace s a s' events ho hI ha hs
  obtain ⟨d, hd, hby⟩ := hs.family
  exact hstep trace s.family d s'.family events ho hI (hok trace s a d ha hby) hd

/-! ## Where a process stands -/

/-- A slot without a live process is at a point where the kernel does nothing for it. -/
def Placed (s : State nproc) : Prop :=
  ∀ i, (s.proc i).state.phase ≠ .live → s.pc i = .user ∨ s.pc i = .exited

/-- The process in slot `i` moves, and no slot loses its live process but to a point where
the kernel does nothing for it. -/
theorem Placed.keep {c : Pc nproc} (h : Placed s) (hrun : (s.proc i).state = .running)
    (hpc : s'.pc = Function.update s.pc i c)
    (hproc : ∀ j, (s'.proc j).state.phase ≠ .live → (s.proc j).state.phase ≠ .live) :
    Placed s' := by
  intro j hj
  have hold := hproc j hj
  have hne : j ≠ i := by
    rintro rfl
    exact hold (congrArg ProcState.phase hrun)
  rw [hpc, Function.update_of_ne hne]
  exact h j hold

theorem phase_update {q : Proc nproc} (hq : q.state.phase = (s.proc k).state.phase ∨
    (s.proc k).state.phase ≠ .live) (j : Fin nproc)
    (hj : (Function.update s.proc k q j).state.phase ≠ .live) : (s.proc j).state.phase ≠ .live := by
  by_cases hjk : j = k
  · subst hjk
    rw [Function.update_self] at hj
    rcases hq with hq | hq
    · rwa [hq] at hj
    · exact hq
  · rwa [Function.update_of_ne hjk] at hj

theorem ne_live_of_state {p : Proc nproc} {x : ProcState} (h : p.state = x)
    (hx : x.phase ≠ .live) : p.state.phase ≠ .live := by
  rwa [h]

theorem Stepped.placed (hstep : Stepped s a s' events) (hmaking : s.family.Making)
    (h : Placed s) : Placed s' := by
  have hstill : ∀ {j : Fin nproc} {q : Proc nproc}, q.member = (s.proc j).member →
      Placed (s.setProc j q) := by
    intro j q hq k hk
    refine h k (phase_update (Or.inl ?_) k hk)
    exact congrArg Member.phase hq
  cases hstep with
  | dispatch hstate =>
      refine hstill ?_
      simp [Proc.member, hstate, ProcState.phase]
  | yield hstate _ =>
      refine hstill ?_
      simp [Proc.member, hstate, ProcState.phase]
  | wakeOther => exact hstill (Proc.wakeup_member _ _)
  | fault hrun _ => exact h.keep hrun rfl (phase_update (Or.inl rfl))
  | allocFails hrun _ hunused =>
      exact h.keep hrun rfl (phase_update (Or.inr (ne_live_of_state hunused (by decide))))
  | @alloc i k _ thread hrun _ hunused =>
      have hnew : Placed (s.setPc k .user) := by
        intro j hj
        by_cases hjk : j = k
        · rw [hjk, setPc_pc, Function.update_self]
          exact Or.inl rfl
        · rw [setPc_pc, Function.update_of_ne hjk]
          exact h j hj
      refine hnew.keep (s := s.setPc k .user) hrun rfl ?_
      exact phase_update (Or.inr (ne_live_of_state hunused (by decide)))
  | setParent hrun _ _ => exact h.keep hrun rfl (phase_update (Or.inl rfl))
  | @setRunnable i np _ thread hrun hpc =>
      refine h.keep hrun rfl (phase_update (Or.inr ?_))
      exact ne_of_phase (hmaking.used i np (congrArg (fun c => (Pc.duty c).child) hpc)) (by decide)
  | reparent hrun _ _ => exact h.keep hrun rfl (phase_update (Or.inl rfl))
  | wakeup hrun _ =>
      refine h.keep hrun rfl (phase_update (Or.inl ?_))
      exact congrArg Member.phase (Proc.wakeup_member _ _)
  | @setZombie i _ hrun _ =>
      intro j hj
      rw [setPc_pc]
      by_cases hij : j = i
      · rw [hij, Function.update_self]
        exact Or.inr rfl
      · rw [setPc_proc, setWaitLock_proc, setProc_proc, Function.update_of_ne hij] at hj
        rw [Function.update_of_ne hij]
        exact h j hj
  | reap hrun _ _ hzombie _ =>
      exact h.keep hrun rfl (phase_update (Or.inr (ne_live_of_state hzombie (by decide))))
  | sleepPrepare hrun _ => exact h.keep hrun rfl (phase_update (Or.inl rfl))
  | sleep hrun _ =>
      refine h.keep hrun rfl (phase_update (Or.inl ?_))
      exact congrArg Member.phase (Proc.sleep_member hrun)
  | kill hrun _ _ =>
      refine h.keep hrun rfl (phase_update (Or.inl ?_))
      exact congrArg Member.phase (Proc.kill_member _)
  | trap hrun _ _ _ => exact h.keep hrun rfl fun _ hj => hj
  | goto hrun _ => exact h.keep hrun rfl fun _ hj => hj
  | returns hrun _ => exact h.keep hrun rfl fun _ hj => hj
  | kexit hrun _ _ _ => exact h.keep hrun rfl fun _ hj => hj
  | kwait hrun _ _ => exact h.keep hrun rfl fun _ hj => hj
  | scanFails hrun _ => exact h.keep hrun rfl fun _ hj => hj
  | releaseWait hrun _ => exact h.keep hrun rfl fun _ hj => hj
  | releaseSem hrun _ => exact h.keep hrun rfl fun _ hj => hj
  | semInit hrun _ _ => exact h.keep hrun rfl fun _ hj => hj
  | semWait hrun _ _ _ => exact h.keep hrun rfl fun _ hj => hj
  | semTake hrun _ _ => exact h.keep hrun rfl fun _ hj => hj
  | semWoken hrun _ _ => exact h.keep hrun rfl fun _ hj => hj
  | semKilled hrun _ _ => exact h.keep hrun rfl fun _ hj => hj
  | semSignal hrun _ _ _ => exact h.keep hrun rfl fun _ hj => hj
  | semSignaled hrun _ => exact h.keep hrun rfl fun _ hj => hj

theorem placed_of_run (h : Run step ok (boot initproc) trace s) : Placed s :=
  (invariant_of_run (I := fun _ s => Placed s) (fun _ _ => Or.inl rfl)
    (fun _ _ _ _ _ ho hs _ hstep => hstep.placed ho.making hs) h).2

end Process
