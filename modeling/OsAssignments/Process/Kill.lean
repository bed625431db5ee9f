import Mathlib.Data.Fintype.Basic
import OsAssignments.Process.Locks

/-!
# Kills and sleeping processes

`kkill` sets `killed` and wakes the process if it sleeps; nothing wakes a process that
goes to sleep afterwards. `sys_sem_wait` tests `killed` after its sleep and not before
it, `kwait` and `kjoin` before the call of `sleep_prepare`. A process is `committed` where
it can get to `sleep()` without another test. A killed process is never found asleep in
one of the three calls as long as no kill hits a committed process and none is made to
wait by the value it finds in `sys_sem_wait`. Each of its own steps then brings it closer
to the return of the call.
-/

namespace Process

open EventRun Mutex State

variable {nproc : ℕ}

/-- The waiters of `sys_sem_wait`, `kwait` and `kjoin`. -/
def Waiter.inWait : Waiter → Bool
  | other _ => false
  | _ => true

/-- The points of `sys_sem_wait`, `kwait` and `kjoin`. -/
def Pc.inWait : Pc nproc → Bool
  | kwait _ => true
  | scan _ _ _ => true
  | sleepPrepare w => w.inWait
  | release w => w.inWait
  | sleep w => w.inWait
  | semWait _ => true
  | semTest _ => true
  | semWoken _ => true
  | semKilled _ => true
  | _ => false

/-- In one of the three calls, the point at which a process may go to sleep without another
test of `killed`, given its channel and the values of the semaphores. -/
def Pc.commits (chan : Option (Chan nproc)) (value : Fin 10 → ℤ) : Pc nproc → Bool
  | semTest id => value id = 0
  | sleepPrepare w => w.inWait
  | release w => w.inWait
  | sleep w => w.inWait && chan.isSome
  | _ => false

/-- The process in slot `i` may go to sleep in one of the three calls without another test
of `killed`. -/
def committed (s : State nproc) (i : Fin nproc) : Bool :=
  (s.pc i).commits (s.proc i).chan fun id => (s.sem id).value

/-- The action is not a kill that hits a committed process, nor does a killed process find
the value 0 when it acquires the lock in `sys_sem_wait`. -/
def Noticed (s : State nproc) : Action nproc → Prop :=
  Action.OnAdvance fun i _ =>
    (∀ k : Fin nproc, s.pc i = .kkill (s.proc k).pid k → committed s k = false) ∧
      ∀ id, s.pc i = .semWait id → (s.proc i).killed = true → (s.sem id).initialized = true →
        (s.sem id).value ≠ 0

instance (s : State nproc) : DecidablePred (Noticed s) :=
  inferInstanceAs (DecidablePred (Action.OnAdvance _))

variable {s s' : State nproc} {i j k : Fin nproc} {a : Action nproc} {events trace : List Event}
  {initproc : Fin nproc}

/-! ## The invariant -/

/-- A killed process is not committed, and a sleeping one has gone through `sleep()`, killed
only in the rest of the kernel. -/
structure Watched (s : State nproc) (i : Fin nproc) : Prop where
  awake : (s.proc i).killed = true → committed s i = false
  asleep : (s.proc i).state = .sleeping → ∃ w : Waiter, s.pc i = w.woken ∧
    ((s.proc i).killed = true → w.inWait = false)

/-- What one process may do to the slot of another one, other than to kill it. -/
structure Proc.Calm (p p' : Proc nproc) : Prop where
  killed : p'.killed = true → p.killed = true
  state : p'.state = .sleeping → p.state = .sleeping
  chan : p'.chan = p.chan ∨ p'.chan = none

namespace Proc.Calm

theorem refl (p : Proc nproc) : p.Calm p := ⟨id, id, Or.inl rfl⟩

theorem update {q : Proc nproc} (h : (s.proc k).Calm q) (j : Fin nproc) :
    (s.proc j).Calm (Function.update s.proc k q j) := by
  by_cases hj : j = k
  · rw [hj, Function.update_self]
    exact h
  · rw [Function.update_of_ne hj]
    exact refl _

theorem free (p : Proc nproc) : p.Calm Proc.free :=
  ⟨fun h => (nomatch h), fun h => (nomatch h), Or.inr rfl⟩

theorem fresh {pid : ℤ} {thread : Bool} (p : Proc nproc) : p.Calm (Proc.fresh pid thread) :=
  ⟨fun h => (nomatch h), fun h => (nomatch h), Or.inr rfl⟩

theorem setState {x : ProcState} (p : Proc nproc) (hx : x ≠ .sleeping) :
    p.Calm { p with state := x } :=
  ⟨id, fun h => absurd h hx, Or.inl rfl⟩

theorem wakeup (ch : Option (Chan nproc)) (p : Proc nproc) : p.Calm (p.wakeup ch) := by
  unfold Proc.wakeup
  split_ifs with _ hsleeping
  · exact ⟨id, fun h => (nomatch h), Or.inr rfl⟩
  · exact ⟨id, id, Or.inr rfl⟩
  · exact refl p

end Proc.Calm

/-- Other code that only does calm things leaves a process as it was. -/
theorem committed_of_calm (hpc : s'.pc j = s.pc j) (hcalm : (s.proc j).Calm (s'.proc j))
    (hsem : ∀ id, s.pc j = .semTest id → (s'.sem id).value = (s.sem id).value)
    (h : committed s j = false) : committed s' j = false := by
  unfold committed at h ⊢
  rw [hpc]
  cases hc : s.pc j with
  | semTest id =>
      rw [hc] at h
      simpa only [Pc.commits, hsem id hc] using h
  | sleep w =>
      rw [hc] at h
      rcases hcalm.chan with heq | heq
      · simpa only [Pc.commits, heq] using h
      · simp [Pc.commits, heq]
  | _ =>
      rw [hc] at h
      exact h

theorem Watched.other (h : Watched s j) (hpc : s'.pc j = s.pc j)
    (hcalm : (s.proc j).Calm (s'.proc j))
    (hsem : ∀ id, s.pc j = .semTest id → (s'.sem id).value = (s.sem id).value) : Watched s' j := by
  constructor
  · intro hkilled
    exact committed_of_calm hpc hcalm hsem (h.awake (hcalm.killed hkilled))
  · intro hsleeping
    obtain ⟨w, hw, hother⟩ := h.asleep (hcalm.state hsleeping)
    exact ⟨w, hpc.trans hw, fun hkilled => hother (hcalm.killed hkilled)⟩

theorem Watched.move {c : Pc nproc} (h : ∀ j, Watched s j)
    (hpc : s'.pc = Function.update s.pc i c)
    (hcalm : ∀ j, j ≠ i → (s.proc j).Calm (s'.proc j))
    (hsem : ∀ j, j ≠ i → ∀ id, s.pc j = .semTest id → (s'.sem id).value = (s.sem id).value)
    (hself : Watched s' i) (j : Fin nproc) : Watched s' j := by
  by_cases hj : j = i
  · rw [hj]
    exact hself
  · refine (h j).other ?_ (hcalm j hj) (hsem j hj)
    rw [hpc, Function.update_of_ne hj]

/-- A point that is not committed, whatever the channel and the semaphores. -/
def Pc.Free (c : Pc nproc) : Prop := ∀ chan value, c.commits chan value = false

theorem Watched.move_on {c : Pc nproc} (h : ∀ j, Watched s j) (hrun : (s.proc i).state = .running)
    (hpc : s'.pc = Function.update s.pc i c) (hcalm : ∀ j, (s.proc j).Calm (s'.proc j))
    (hsem : ∀ j, j ≠ i → ∀ id, s.pc j = .semTest id → (s'.sem id).value = (s.sem id).value)
    (hself : c.Free ∨ (s.proc i).killed = false) : ∀ j, Watched s' j := by
  refine Watched.move h hpc (fun j _ => hcalm j) hsem ?_
  constructor
  · intro hkilled
    rcases hself with hfree | halive
    · unfold committed
      rw [hpc, Function.update_self]
      exact hfree _ _
    · rw [(hcalm i).killed hkilled] at halive
      cases halive
  · intro hsleeping
    rw [(hcalm i).state hsleeping] at hrun
    cases hrun

/-- A process that goes on within the kernel is not committed afterwards, has seen that it
is not killed, or was committed. -/
theorem Goto.free {c c' : Pc nproc} (h : Goto s i c c') (hpc : s.pc i = c) :
    c'.Free ∨ (s.proc i).killed = false ∨ committed s i = true := by
  cases h with
  | scanned _ halive => exact Or.inr (Or.inl halive)
  | semAlive halive => exact Or.inr (Or.inl halive)
  | @semEmpty id hvalue =>
      refine Or.inr (Or.inr ?_)
      simp [committed, hpc, Pc.commits, hvalue]
  | @wokenUp ch k caller _ => cases caller <;> exact Or.inl fun _ _ => rfl
  | _ => exact Or.inl fun _ _ => rfl

theorem Waiter.woken_free (w : Waiter) : (w.woken : Pc nproc).Free := by
  cases w <;> exact fun _ _ => rfl

theorem Watched.alive_or {P : Prop} (h : Watched s i)
    (hor : (s.proc i).killed = false ∨ committed s i = true) : P ∨ (s.proc i).killed = false := by
  refine Or.inr (hor.elim id fun hcommitted => ?_)
  cases hkilled : (s.proc i).killed with
  | false => rfl
  | true =>
      rw [h.awake hkilled] at hcommitted
      cases hcommitted

theorem Watched.still {p : Proc nproc} (h : ∀ j, Watched s j) (hcalm : (s.proc k).Calm p) :
    ∀ j, Watched (s.setProc k p) j :=
  fun j => (h j).other rfl (hcalm.update j) fun _ _ => rfl

/-- A process that runs goes to `c`, and its own slot changes. -/
theorem Watched.here {c : Pc nproc} {p : Proc nproc} (h : ∀ j, Watched s j)
    (hstate : p.state = (s.proc i).state) (hrun : (s.proc i).state = .running)
    (hc : p.killed = true → c.commits p.chan (fun id => (s.sem id).value) = false) :
    ∀ j, Watched ((s.setProc i p).setPc i c) j := by
  refine Watched.move h rfl ?_ (fun _ _ _ _ => rfl) ⟨fun hkilled => ?_, fun hsleeping => ?_⟩
  · intro j hj
    rw [setPc_proc, setProc_proc, Function.update_of_ne hj]
    exact .refl _
  · rw [setPc_proc, setProc_proc, Function.update_self] at hkilled
    unfold committed
    rw [setPc_pc, Function.update_self, setPc_proc, setProc_proc, Function.update_self]
    exact hc hkilled
  · rw [setPc_proc, setProc_proc, Function.update_self, hstate, hrun] at hsleeping
    cases hsleeping

theorem Watched.alloc {t u : Bool} (h : ∀ j, Watched s j) (hrun : (s.proc i).state = .running)
    (hunused : (s.proc k).state = .unused) :
    ∀ j, Watched (((s.nextPid.setProc k (.fresh s.nextpid t)).setPc k .user).setPc i
      (.setParent u k)) j := by
  have hne : i ≠ k := by
    rintro rfl
    rw [hunused] at hrun
    cases hrun
  have hnew : ∀ j, Watched ((s.nextPid.setProc k (.fresh s.nextpid t)).setPc k .user) j := by
    refine Watched.move h rfl (fun j _ => (Proc.Calm.fresh _).update j) (fun _ _ _ _ => rfl)
      ⟨fun _ => ?_, fun hsleeping => ?_⟩
    · unfold committed
      rw [setPc_pc, Function.update_self]
      rfl
    · rw [setPc_proc, setProc_proc, Function.update_self] at hsleeping
      cases hsleeping
  refine Watched.move_on hnew ?_ rfl (fun _ => .refl _) (fun _ _ _ _ => rfl)
    (Or.inl fun _ _ => rfl)
  rw [setPc_proc, setProc_proc, Function.update_of_ne hne]
  exact hrun

/-- The value of a semaphore changes only when no other process tests it. -/
theorem value_update {id : Fin 10} {x : Semaphore nproc}
    (hx : x.value = (s.sem id).value ∨ ∀ j, j ≠ i → s.pc j ≠ .semTest id) (j : Fin nproc)
    (hj : j ≠ i) (k : Fin 10) (hk : s.pc j = .semTest k) :
    (Function.update s.sem id x k).value = (s.sem k).value := by
  by_cases hid : k = id
  · subst hid
    rw [Function.update_self]
    exact hx.resolve_right fun hnot => hnot j hj hk
  · rw [Function.update_of_ne hid]

theorem Locked.no_tester {id : Fin 10} (h : Locked s) (hlk : (s.sem id).lk = none)
    (j : Fin nproc) : s.pc j ≠ .semTest id := by
  intro hj
  apply (hlk ▸ h.sem id).not_inside
  rw [hj]
  rfl

theorem Locked.one_tester {id : Fin 10} (h : Locked s) (hi : s.pc i = .semTest id)
    (j : Fin nproc) (hj : j ≠ i) : s.pc j ≠ .semTest id := by
  intro hpc
  exact hj ((h.sem id).eq (congrArg Pc.holdsSem hpc) (congrArg Pc.holdsSem hi))

theorem Watched.alive_of_commits {P : Prop} {c : Pc nproc} (h : Watched s i) (hpc : s.pc i = c)
    (hc : c.commits (s.proc i).chan (fun id => (s.sem id).value) = true) :
    P ∨ (s.proc i).killed = false := by
  refine h.alive_or (Or.inr ?_)
  unfold committed
  rw [hpc, hc]

theorem Watched.sleep {w : Waiter} (h : Watched s i) (hpc : s.pc i = .sleep w) :
    Watched ((s.setProc i (s.proc i).sleep).setPc i w.woken) i := by
  have hkilled_eq : (s.proc i).sleep.killed = (s.proc i).killed := by
    unfold Proc.sleep
    split_ifs <;> rfl
  constructor
  · intro _
    unfold committed
    rw [setPc_pc, Function.update_self]
    exact w.woken_free _ _
  · intro hsleeping
    refine ⟨w, by rw [setPc_pc, Function.update_self], fun hkilled => ?_⟩
    rw [setPc_proc, setProc_proc, Function.update_self] at hsleeping hkilled
    rw [hkilled_eq] at hkilled
    have hcommitted := h.awake hkilled
    unfold committed at hcommitted
    rw [hpc] at hcommitted
    -- the channel is set, since it does go to sleep
    cases hchan : (s.proc i).chan with
    | none =>
        have := h.asleep (by rwa [Proc.sleep, if_pos hchan] at hsleeping)
        obtain ⟨w', hw', _⟩ := this
        rw [hpc] at hw'
        cases w' <;> cases hw'
    | some ch =>
        rw [hchan] at hcommitted
        simpa [Pc.commits] using hcommitted

theorem Watched.kill (h : ∀ j, Watched s j) (hk : committed s k = false) (j : Fin nproc) :
    Watched (s.setProc k (s.proc k).kill) j := by
  by_cases hj : j = k
  · subst hj
    constructor
    · intro _
      unfold committed at hk ⊢
      rw [setProc_proc, Function.update_self]
      exact hk
    · intro hsleeping
      rw [setProc_proc, Function.update_self, Proc.kill] at hsleeping
      split_ifs at hsleeping with hstate
      exact absurd hsleeping hstate
  · refine (h j).other rfl ?_ fun _ _ => rfl
    rw [setProc_proc, Function.update_of_ne hj]
    exact .refl _

theorem Stepped.watched (hstep : Stepped s a s' events) (hlocked : Locked s)
    (hok : Noticed s a) (h : ∀ j, Watched s j) : ∀ j, Watched s' j := by
  have hsame : ∀ j : Fin nproc, (s.proc j).Calm (s.proc j) := fun _ => .refl _
  cases hstep with
  | dispatch _ => exact Watched.still h (.setState _ (by decide))
  | yield _ _ => exact Watched.still h (.setState _ (by decide))
  | wakeOther => exact Watched.still h (.wakeup _ _)
  | fault hrun _ => exact Watched.here h rfl hrun fun _ => rfl
  | trap hrun _ halive _ =>
      exact Watched.move_on h hrun rfl hsame (fun _ _ _ _ => rfl) (Or.inr halive)
  | @goto i _ _ hrun hgoto =>
      refine Watched.move_on h hrun rfl hsame (fun _ _ _ _ => rfl) ?_
      exact (hgoto.free rfl).elim Or.inl (h i).alive_or
  | returns hrun _ =>
      exact Watched.move_on h hrun rfl hsame (fun _ _ _ _ => rfl) (Or.inl fun _ _ => rfl)
  | allocFails hrun _ _ =>
      exact Watched.move_on h hrun rfl (Proc.Calm.free _).update (fun _ _ _ _ => rfl)
        (Or.inl fun _ _ => rfl)
  | alloc hrun _ hunused => exact Watched.alloc h hrun hunused
  | setParent hrun _ _ =>
      refine Watched.move_on h hrun rfl ?_ (fun _ _ _ _ => rfl) (Or.inl fun _ _ => rfl)
      exact Proc.Calm.update ⟨id, id, Or.inl rfl⟩
  | setRunnable hrun _ =>
      exact Watched.move_on h hrun rfl (Proc.Calm.setState _ (by decide)).update
        (fun _ _ _ _ => rfl) (Or.inl fun _ _ => rfl)
  | kexit hrun _ _ _ =>
      exact Watched.move_on h hrun rfl hsame (fun _ _ _ _ => rfl) (Or.inl fun _ _ => rfl)
  | reparent hrun _ _ =>
      refine Watched.move_on h hrun rfl ?_ (fun _ _ _ _ => rfl) (Or.inl fun _ _ => rfl)
      exact Proc.Calm.update ⟨id, id, Or.inl rfl⟩
  | wakeup hrun _ =>
      exact Watched.move_on h hrun rfl (Proc.Calm.wakeup _ _).update (fun _ _ _ _ => rfl)
        (Or.inl fun _ _ => rfl)
  | setZombie hrun _ =>
      exact Watched.move_on h hrun rfl (Proc.Calm.setState _ (by decide)).update
        (fun _ _ _ _ => rfl) (Or.inl fun _ _ => rfl)
  | kwait hrun _ _ =>
      exact Watched.move_on h hrun rfl hsame (fun _ _ _ _ => rfl) (Or.inl fun _ _ => rfl)
  | scanFails hrun _ =>
      exact Watched.move_on h hrun rfl hsame (fun _ _ _ _ => rfl) (Or.inl fun _ _ => rfl)
  | reap hrun _ _ _ _ =>
      exact Watched.move_on h hrun rfl (Proc.Calm.free _).update (fun _ _ _ _ => rfl)
        (Or.inl fun _ _ => rfl)
  | @sleepPrepare i _ w hrun hpc =>
      refine Watched.here h rfl hrun fun hkilled => ?_
      have hcommitted := (h i).awake hkilled
      unfold committed at hcommitted
      rw [hpc] at hcommitted
      exact hcommitted
  | @releaseWait i _ thread hrun hpc =>
      exact Watched.move_on h hrun rfl hsame (fun _ _ _ _ => rfl) ((h i).alive_of_commits hpc rfl)
  | @releaseSem i _ id hrun hpc =>
      exact Watched.move_on h hrun rfl hsame (value_update (Or.inl rfl))
        ((h i).alive_of_commits hpc rfl)
  | @sleep i _ w hrun hpc =>
      refine Watched.move h rfl ?_ (fun _ _ _ _ => rfl) ((h i).sleep hpc)
      intro j hj
      rw [setPc_proc, setProc_proc, Function.update_of_ne hj]
      exact .refl _
  | @kill i k _ pid hrun hpc hpid =>
      have hk : committed s k = false := hok.1 k (hpid ▸ hpc)
      refine Watched.move_on (Watched.kill h hk) ?_ rfl (fun _ => .refl _) (fun _ _ _ _ => rfl)
        (Or.inl fun _ _ => rfl)
      rw [setProc_proc]
      by_cases hik : i = k
      · subst hik
        rw [Function.update_self, Proc.kill, if_neg (ne_of_state hrun (by decide))]
        exact hrun
      · rwa [Function.update_of_ne hik]
  | semInit hrun _ hlk =>
      exact Watched.move_on h hrun rfl hsame
        (value_update (Or.inr fun j _ => hlocked.no_tester hlk j))
        (Or.inl fun _ _ => rfl)
  | @semWait i _ id hrun hpc _ hinit =>
      refine Watched.move h rfl (fun _ _ => .refl _) (value_update (Or.inl rfl)) ⟨?_, ?_⟩
      · intro hkilled
        unfold committed
        rw [setPc_pc, Function.update_self]
        simpa [Pc.commits] using hok.2 id hpc hkilled hinit
      · intro hsleeping
        exact absurd hsleeping (ne_of_state hrun (by decide))
  | semTake hrun hpc _ =>
      exact Watched.move_on h hrun rfl hsame (value_update (Or.inr (hlocked.one_tester hpc)))
        (Or.inl fun _ _ => rfl)
  | semWoken hrun _ _ =>
      exact Watched.move_on h hrun rfl hsame (value_update (Or.inl rfl)) (Or.inl fun _ _ => rfl)
  | semKilled hrun _ _ =>
      exact Watched.move_on h hrun rfl hsame (value_update (Or.inl rfl)) (Or.inl fun _ _ => rfl)
  | semSignal hrun _ hlk _ =>
      exact Watched.move_on h hrun rfl hsame
        (value_update (Or.inr fun j _ => hlocked.no_tester hlk j))
        (Or.inl fun _ _ => rfl)
  | semSignaled hrun _ =>
      exact Watched.move_on h hrun rfl hsame (value_update (Or.inl rfl)) (Or.inl fun _ _ => rfl)

/-! ## Runs -/

/-- A run in which no kill hits a committed process. -/
abbrev NoticedRun (initproc : Fin nproc) : List Event → State nproc → Prop :=
  Run step (fun _ s a => Noticed s a) (boot initproc)

theorem watched_of_run (h : NoticedRun initproc trace s) : Locked s ∧ ∀ i, Watched s i := by
  refine (invariant_of_run (I := fun _ s => Locked s ∧ ∀ i, Watched s i)
    ⟨boot_locked initproc, ?_⟩ ?_ h).2
  · intro i
    constructor
    · intro _
      rfl
    · intro hsleeping
      by_cases hi : i = initproc <;> simp [boot, hi, Proc.fresh, Proc.free] at hsleeping
  · intro _ s a s' events ho hs hok hstep
    exact ⟨hstep.locked ho.making hs.1, hstep.watched hs.1 hok hs.2⟩

/-- How many steps of its own a killed process needs at most to the end of its call. -/
def Pc.remaining : Pc nproc → ℕ
  | sleep (.wait _) => nproc + 3
  | kwait _ => nproc + 2
  | scan _ k _ => nproc + 1 - k
  | sleep (.sem _) => 3
  | semWoken _ => 2
  | semWait _ => 2
  | _ => 1

/-- The process in slot `i` runs on after a step of its own, and has left its call or come
closer to its end. -/
def Leaves (s : State nproc) (i : Fin nproc) (s' : State nproc) : Prop :=
  (s'.proc i).state = .running ∧ (s'.pc i = .trapReturn ∨
    (s'.pc i).inWait = true ∧ (s'.pc i).remaining < (s.pc i).remaining)

theorem leaves_of_ret {t : State nproc} {call : Syscall} {r : ℤ}
    (hrun : (t.proc i).state = .running) (h : ret s i t call r = (s', events)) :
    Leaves s i s' := by
  cases h
  refine ⟨hrun, Or.inl ?_⟩
  rw [setPc_pc, Function.update_self]

theorem leaves_of_setPc {t : State nproc} {c : Pc nproc} (hrun : (t.proc i).state = .running)
    (hc : c.inWait = true ∧ c.remaining < (s.pc i).remaining) : Leaves s i (t.setPc i c) := by
  refine ⟨hrun, Or.inr ?_⟩
  rw [setPc_pc, Function.update_self]
  exact hc

theorem leaves_of_scan {thread havekids ok : Bool} {k : ℕ} (hrun : (s.proc i).state = .running)
    (hkilled : (s.proc i).killed = true) (hpc : s.pc i = .scan thread k havekids)
    (h : scan s i thread k havekids ok = (s', events)) : Leaves s i s' := by
  have hnext : k < nproc → ∀ b, (Pc.scan thread (k + 1) b : Pc nproc).inWait = true ∧
      (Pc.scan thread (k + 1) b : Pc nproc).remaining < (s.pc i).remaining := by
    intro hk b
    refine ⟨rfl, ?_⟩
    rw [hpc]
    simp only [Pc.remaining]
    omega
  unfold scan at h
  split_ifs at h with hk hchild hzombie _ hstop
  · refine leaves_of_ret ?_ h
    have hne : i ≠ ⟨k, hk⟩ := by
      rintro rfl
      rw [hzombie] at hrun
      cases hrun
    rwa [setWaitLock_proc, setProc_proc, Function.update_of_ne hne]
  · exact leaves_of_ret (t := s.setWaitLock none) hrun h
  · cases h
    exact leaves_of_setPc hrun (hnext hk _)
  · cases h
    exact leaves_of_setPc hrun (hnext hk _)
  · exact leaves_of_ret (t := s.setWaitLock none) hrun h
  · rw [hkilled, Bool.or_true] at hstop
    exact absurd rfl hstop

theorem leaves_of_sleep {w : Waiter} (hrun : (s.proc i).state = .running)
    (hpc : s.pc i = .sleep w) (hw : w.inWait = true) (hcommitted : committed s i = false)
    (h : sleep s i w = (s', events)) : Leaves s i s' := by
  have hchan : (s.proc i).chan = none := by simpa [committed, hpc, Pc.commits, hw] using hcommitted
  cases h
  rw [Proc.sleep, if_pos hchan]
  refine leaves_of_setPc ?_ ?_
  · rwa [setProc_proc, Function.update_self]
  · rw [hpc]
    cases w with
    | wait thread => exact ⟨rfl, Nat.lt_succ_self _⟩
    | sem id => exact ⟨rfl, Nat.lt_succ_self _⟩
    | other c => cases hw

/-- The steps of a killed process in one of the three calls lead out of it. -/
theorem Watched.leaves {ok : Bool} (h : Watched s i) (hkilled : (s.proc i).killed = true)
    (hwait : (s.pc i).inWait = true) (hstep : step s (.advance i ok) = some (s', events)) :
    Leaves s i s' := by
  have hcommitted := h.awake hkilled
  rw [step] at hstep
  split_ifs at hstep with hrun
  unfold advance at hstep
  cases hpc : s.pc i with
  | kwait thread =>
      rw [hpc] at hstep
      dsimp only at hstep
      unfold kwait at hstep
      split_ifs at hstep with hlock
      cases hstep
      refine leaves_of_setPc hrun ⟨rfl, ?_⟩
      rw [hpc]
      exact Nat.lt_succ_self _
  | scan thread k havekids =>
      rw [hpc] at hstep
      exact leaves_of_scan hrun hkilled hpc (Option.some.inj hstep)
  | sleep w =>
      rw [hpc] at hstep hwait
      exact leaves_of_sleep hrun hpc hwait hcommitted (Option.some.inj hstep)
  | semTest id =>
      rw [hpc] at hstep
      have hvalue : (s.sem id).value ≠ 0 := by
        simpa [committed, hpc, Pc.commits] using hcommitted
      have h' := Option.some.inj hstep
      rw [semTest, if_neg hvalue] at h'
      exact leaves_of_ret (t := s.setSem id _) hrun h'
  | semWoken id =>
      rw [hpc] at hstep
      dsimp only at hstep
      unfold semWoken at hstep
      split_ifs at hstep with hlk
      cases hstep
      refine leaves_of_setPc hrun ⟨rfl, ?_⟩
      rw [hpc]
      exact Nat.lt_succ_self _
  | semKilled id =>
      rw [hpc] at hstep
      have h' := Option.some.inj hstep
      rw [semKilled, if_pos hkilled] at h'
      exact leaves_of_ret (t := s.setSem id _) hrun h'
  | sleepPrepare w =>
      rw [hpc] at hwait
      rw [committed, hpc] at hcommitted
      exact absurd (hcommitted.symm.trans hwait) Bool.false_ne_true
  | release w =>
      rw [hpc] at hwait
      rw [committed, hpc] at hcommitted
      exact absurd (hcommitted.symm.trans hwait) Bool.false_ne_true
  | semWait id =>
      rw [hpc] at hstep
      dsimp only at hstep
      unfold sysSemWait at hstep
      split_ifs at hstep with hlk hinit
      · cases hstep
        refine leaves_of_setPc hrun ⟨rfl, ?_⟩
        rw [hpc]
        exact Nat.lt_succ_self _
      · exact leaves_of_ret hrun (Option.some.inj hstep)
  | _ =>
      rw [hpc] at hwait
      cases hwait

/-- A process found at a point of the three calls, and not asleep there, runs or can be
dispatched. -/
theorem Placed.awake (h : Placed s) (hwait : (s.pc i).inWait = true)
    (hnot : (s.proc i).state ≠ .sleeping) :
    (s.proc i).state = .running ∨ (s.proc i).state = .runnable := by
  have hlive : (s.proc i).state.phase = .live := by
    by_contra hphase
    rcases h i hphase with hpc | hpc <;> rw [hpc] at hwait <;> cases hwait
  cases hstate : (s.proc i).state with
  | running => exact Or.inl rfl
  | runnable => exact Or.inr rfl
  | sleeping => exact absurd hstate hnot
  | _ =>
      rw [hstate] at hlive
      cases hlive

/-- As long as no kill hits a committed process, a killed process in `sys_sem_wait`, `kwait`
or `kjoin` does not sleep, and each of its own steps leads it towards its return. -/
theorem killed_not_sleeping (h : NoticedRun initproc trace s) (i : Fin nproc)
    (hkilled : (s.proc i).killed = true) (hwait : (s.pc i).inWait = true) :
    ((s.proc i).state = .running ∨ (s.proc i).state = .runnable) ∧
      ∀ ok s' events, step s (.advance i ok) = some (s', events) → Leaves s i s' := by
  have hwatched := (watched_of_run h).2 i
  refine ⟨(placed_of_run h).awake hwait ?_, fun ok s' events hstep =>
    hwatched.leaves hkilled hwait hstep⟩
  intro hsleeping
  obtain ⟨w, hw, hother⟩ := hwatched.asleep hsleeping
  have hinwait := hother hkilled
  rw [hw] at hwait
  cases w with
  | other c => cases hwait
  | _ => cases hinwait

/-! ## A kill that is slept through -/

/-- The first process initialises a semaphore to 0 and forks. Its child waits for the
semaphore, up to `sleep_prepare` or, if `asleep`, through `sleep()`; it is killed there,
and goes on. -/
def killWaiter (asleep : Bool) : List (Action 3) :=
  [.dispatch 0, .trap 0 (.semInit 0 0)] ++ go 0 2 ++ [.trap 0 .fork] ++ go 0 5 ++
    [.dispatch 1, .trap 1 (.semWait 0)] ++ go 1 (if asleep then 5 else 4) ++
    [.trap 0 (.kill 2)] ++ go 0 2 ++ if asleep then [] else go 1 1

theorem killed_not_sleeping_asleep : ∃ trace s, NoticedRun (0 : Fin 3) trace s ∧
    (s.pc 1).inWait = true ∧ (s.proc 1).state = .runnable := by
  have htest : (exec step (fun _ s a => Noticed s a) (killWaiter true) [] (boot 0)).any
      (fun r => (r.2.proc 1).killed && (r.2.pc 1).inWait &&
        decide ((r.2.proc 1).state ≠ .running)) = true := by decide +kernel
  obtain ⟨trace, s, hrun, hs⟩ := exists_run htest
  simp only [Bool.and_eq_true, decide_eq_true_eq] at hs
  obtain ⟨⟨hkilled, hwait⟩, hnot⟩ := hs
  exact ⟨trace, s, hrun, hwait, (killed_not_sleeping hrun 1 hkilled hwait).1.resolve_left hnot⟩

/-- A kill between the test of the value and `sleep()` is slept through. -/
theorem kill_slept_through : ∃ trace s, Run step (fun _ _ _ => True) (boot (0 : Fin 3)) trace s ∧
    (s.proc 1).killed = true ∧ (s.proc 1).state = .sleeping ∧ s.pc 1 = .semWoken 0 := by
  have htest : (exec step (fun _ _ _ => True) (killWaiter false) [] (boot (0 : Fin 3))).any
      (fun r => (r.2.proc 1).killed && decide ((r.2.proc 1).state = .sleeping) &&
        decide (r.2.pc 1 = .semWoken 0)) = true := by decide +kernel
  obtain ⟨trace, s, hrun, hs⟩ := exists_run htest
  simp only [Bool.and_eq_true, decide_eq_true_eq] at hs
  exact ⟨trace, s, hrun, hs.1.1, hs.1.2, hs.2⟩

end Process
