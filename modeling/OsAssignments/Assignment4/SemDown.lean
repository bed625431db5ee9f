import OsAssignments.Assignment4.Steps

/-!
# A kill and the wait in `sys_sem_down`

`kkill` makes its victim `RUNNABLE`, and the victim goes on in the loop of `sys_sem_down`,
which tests `sem_count[id]` and not `killed(myproc())`. If the count is positive whenever
the victim comes to the test, it leaves the call without going to sleep again; if the count
is not, its next steps put it to sleep.
-/

namespace Assignment4

open EventRun State

variable {nproc : ℕ} {s s' s₀ s₁ : State nproc} {i j k : Fin nproc} {a : Action nproc}
  {trace events : List (Event nproc)} {id : Fin 10} {pid : ℤ}

/-- The points of `sys_sem_down(id)`. -/
def Pc.inDown (id : Fin 10) : Pc nproc → Prop
  | semDown n => n = id
  | semTest n => n = id
  | sleepPrepare w => w = .sem id
  | release w => w = .sem id
  | sleep w => w = .sem id
  | _ => False

instance (id : Fin 10) (c : Pc nproc) : Decidable (c.inDown id) := by
  cases c <;> unfold Pc.inDown <;> infer_instance

/-- The process sleeps in `sys_sem_down(id)`. -/
def Blocked (s : State nproc) (i : Fin nproc) (id : Fin 10) : Prop :=
  (s.proc i).state = .sleeping ∧ s.pc i = .semDown id

/-- If the action is the process's test of `sem_count[id]`, the count is positive. -/
def Passes (i : Fin nproc) (id : Fin 10) (s : State nproc) : Action nproc → Prop :=
  Action.OnAdvance fun j _ => j = i → s.pc i = .semTest id → 0 < s.semCount id

instance (i : Fin nproc) (id : Fin 10) (s : State nproc) : DecidablePred (Passes i id s) :=
  inferInstanceAs (DecidablePred (Action.OnAdvance _))

def Awake (s : State nproc) (i : Fin nproc) : Prop :=
  (s.proc i).state = .runnable ∨ (s.proc i).state = .running

/-- The process has been woken in `sys_sem_down(id)` and has not got beyond the test, or it
has left the call. -/
structure Woken (i : Fin nproc) (id : Fin 10) (s : State nproc) : Prop where
  awake : Awake s i
  at_test : (s.pc i).inDown id → s.pc i = .semDown id ∨ s.pc i = .semTest id

theorem Awake.ne (h : Awake s i) {x : ProcState} (hx : x ≠ .runnable) (hx' : x ≠ .running) :
    (s.proc i).state ≠ x := by
  rcases h with h | h <;> rw [h]
  · exact hx.symm
  · exact hx'.symm

theorem awake_update {p : Proc nproc} (h : Awake s i)
    (hp : k = i → p.state = .runnable ∨ p.state = .running)
    (hproc : s'.proc = Function.update s.proc k p) : Awake s' i := by
  rw [Awake, hproc]
  by_cases hk : i = k
  · rw [hk, Function.update_self]
    exact hp hk.symm
  · rw [Function.update_of_ne hk]
    exact h

theorem Proc.wakeup_awake {ch : Option (Chan nproc)} {p : Proc nproc}
    (h : p.state = .runnable ∨ p.state = .running) :
    (p.wakeup ch).state = .runnable ∨ (p.wakeup ch).state = .running := by
  rw [Proc.wakeup]
  split_ifs with _ hsleeping
  · exact Or.inl rfl
  · exact h
  · exact h

theorem Stepped.other (hstep : Stepped s a s' events) (hactor : a.actor ≠ some i)
    (h : Awake s i) : s'.pc i = s.pc i ∧ Awake s' i := by
  have hmoved : ∀ {f : Fin nproc → Pc nproc} {j : Fin nproc} {b : Bool} (c : Pc nproc),
      (Action.advance j b).actor ≠ some i → Function.update f j c i = f i :=
    fun c hj => Function.update_of_ne (fun hi => hj (congrArg some hi.symm)) _ _
  have hunused : (s.proc i).state ≠ .unused := h.ne (by decide) (by decide)
  cases hstep with
  | dispatch _ => exact ⟨rfl, awake_update h (fun _ => Or.inr rfl) rfl⟩
  | yield _ => exact ⟨rfl, awake_update h (fun _ => Or.inl rfl) rfl⟩
  | @setkilled n _ => exact ⟨rfl, awake_update (k := n) h (fun hn => hn ▸ h) rfl⟩
  | @wakeOther n _ =>
      exact ⟨rfl, awake_update (k := n) h (fun hn => Proc.wakeup_awake (hn ▸ h)) rfl⟩
  | quiet _ ha hproc hpc _ _ =>
      refine ⟨?_, ?_⟩
      · rw [hpc, Function.update_of_ne]
        rintro rfl
        exact hactor ha
      · rw [Awake, hproc]
        exact h
  | @create n k _ _ _ hfree =>
      have hk : i ≠ k := fun hi => hunused (hi ▸ hfree)
      refine ⟨(hmoved _ hactor).trans (Function.update_of_ne hk _ _), ?_⟩
      exact awake_update (k := k) h (fun hki => absurd hki.symm hk) rfl
  | @createFails n k _ _ _ hfree =>
      exact ⟨hmoved _ hactor, awake_update (k := k) h (fun hk => absurd (hk ▸ hfree) hunused) rfl⟩
  | @setParent n np _ _ _ =>
      exact ⟨hmoved _ hactor, awake_update (k := np) h (fun hn => hn ▸ h) rfl⟩
  | setRunnable _ _ => exact ⟨hmoved _ hactor, awake_update h (fun _ => Or.inl rfl) rfl⟩
  | @reparent n k _ _ _ _ =>
      exact ⟨hmoved _ hactor, awake_update (k := k) h (fun hn => hn ▸ h) rfl⟩
  | @wakeup n k _ _ _ _ _ =>
      exact ⟨hmoved _ hactor,
        awake_update (k := k) h (fun hn => Proc.wakeup_awake (hn ▸ h)) rfl⟩
  | @setZombie n _ _ =>
      exact ⟨hmoved _ hactor, awake_update (k := n) h
        (fun hn => absurd (congrArg some hn) hactor) rfl⟩
  | @reap n k _ _ hzombie =>
      refine ⟨hmoved _ hactor, awake_update (k := k) h (fun hk => ?_) rfl⟩
      exact absurd (hk ▸ hzombie) (h.ne (by decide) (by decide))
  | @sleepPrepare n _ _ _ _ =>
      exact ⟨hmoved _ hactor, awake_update (k := n) h (fun hn => hn ▸ h) rfl⟩
  | @sleep n _ _ _ _ =>
      exact ⟨hmoved _ hactor, awake_update (k := n) h
        (fun hn => absurd (congrArg some hn) hactor) rfl⟩
  | @kill n k _ _ _ _ _ =>
      refine ⟨hmoved _ hactor, awake_update (k := k) h (fun hk => ?_) rfl⟩
      subst hk
      rw [Proc.kill]
      dsimp only
      rw [if_neg (h.ne (by decide) (by decide))]
      exact h

/-! ## The victim's own steps -/

/-- The victim's own step leads from `acquire` to the test, and from a test that it passes
out of the call. -/
theorem advance_down {ok : Bool} (hat : s.pc i = .semDown id ∨ s.pc i = .semTest id)
    (hpass : Passes i id s (.advance i ok)) (hstep : step s (.advance i ok) = some (s', events)) :
    (s'.proc i).state = .running ∧ (s'.pc i = .semTest id ∧ events = [] ∨
      s'.pc i = .user ∧ events = [.ret (s.proc i).pid (.semDown id) 0]) := by
  rw [step] at hstep
  split_ifs at hstep with hrun
  rw [advance] at hstep
  rcases hat with hpc | hpc
  · rw [hpc] at hstep
    dsimp only at hstep
    rw [sysSemDown] at hstep
    split_ifs at hstep
    cases hstep
    refine ⟨hrun, Or.inl ⟨?_, rfl⟩⟩
    rw [setPc_pc, Function.update_self]
  · rw [hpc] at hstep
    dsimp only at hstep
    rw [semTest, if_neg (Int.not_le.mpr (hpass rfl hpc))] at hstep
    split_ifs at hstep
    cases hstep
    refine ⟨hrun, Or.inr ⟨?_, rfl⟩⟩
    rw [setPc_pc, Function.update_self]

theorem Woken.step (h : Woken i id s) (hin : (s.pc i).inDown id) (hpass : Passes i id s a)
    (hstep : step s a = some (s', events)) : Woken i id s' := by
  have hat := h.at_test hin
  by_cases hactor : a.actor = some i
  · cases a with
    | advance j ok =>
        cases hactor
        obtain ⟨hrun, hnext⟩ := advance_down hat hpass hstep
        refine ⟨Or.inr hrun, fun hin' => ?_⟩
        rcases hnext with ⟨hpc, _⟩ | ⟨hpc, _⟩
        · exact Or.inr hpc
        · rw [hpc] at hin'
          exact hin'.elim
    | trap j call =>
        -- a process in a call does not make another one
        cases hactor
        rw [Assignment4.step] at hstep
        split_ifs at hstep with huser
        rw [huser.2] at hat
        rcases hat with hat | hat <;> cases hat
    | _ => cases hactor
  · obtain ⟨hpc, hawake⟩ := (stepped_of_step hstep).other hactor h.awake
    refine ⟨hawake, ?_⟩
    rw [hpc]
    exact fun _ => hat

theorem woken_of_kill (hblocked : Blocked s₀ i id) (hkill : step s₀ a = some (s₁, events))
    (hit : .kill i pid ∈ events) : Woken i id s₁ := by
  obtain ⟨hsleeping, hpc⟩ := hblocked
  have hstep := stepped_of_step hkill
  cases hstep with
  | @kill n k _ q hrun hpcn _ =>
      rcases List.mem_cons.mp hit with he | he
      · cases he
        have hne : i ≠ n := by
          rintro rfl
          rw [hsleeping] at hrun
          cases hrun
        have hpc' : (((s₀.setProc i (s₀.proc i).kill).setPc n .user).pc i) = .semDown id := by
          rw [setPc_pc, Function.update_of_ne hne]
          exact hpc
        refine ⟨Or.inl ?_, fun _ => Or.inl hpc'⟩
        rw [setPc_proc, setProc_proc, Function.update_self, Proc.kill]
        exact if_pos hsleeping
      · cases List.mem_singleton.mp he
  | quiet _ _ _ _ _ hevents =>
      obtain ⟨_, _, _, he⟩ := hevents _ hit
      cases he
  | setkilled _ => cases List.mem_singleton.mp hit
  | create _ _ _ => cases List.mem_singleton.mp hit
  | createFails _ _ _ => cases List.mem_singleton.mp hit
  | setRunnable _ _ => cases List.mem_singleton.mp hit
  | reap _ _ => cases List.mem_singleton.mp hit
  | _ => cases hit

/-! ## A test that fails -/

/-- The process in slot `i` has set its channel on the way to sleep. -/
def Prepared (s : State nproc) (i : Fin nproc) : Prop :=
  (s.proc i).state = .running ∧ (s.proc i).chan ≠ none

theorem semTest_fails (hrun : (s.proc i).state = .running) (hpc : s.pc i = .semTest id)
    (hlock : s.semLock id = some i) (hcount : s.semCount id ≤ 0) :
    ∃ t, step s (.advance i true) = some (t, []) ∧ (t.proc i).state = .running ∧
      t.pc i = .sleepPrepare (.sem id) ∧ t.semLock id = some i := by
  refine ⟨s.setPc i (.sleepPrepare (.sem id)), ?_, hrun, ?_, hlock⟩
  · rw [step, if_pos hrun, advance, hpc]
    exact if_pos hcount
  · rw [setPc_pc, Function.update_self]

theorem sleepPrepare_prepares (hrun : (s.proc i).state = .running)
    (hpc : s.pc i = .sleepPrepare (.sem id)) (hlock : s.semLock id = some i) :
    ∃ t, step s (.advance i true) = some (t, []) ∧ Prepared t i ∧
      t.pc i = .release (.sem id) ∧ t.semLock id = some i := by
  refine ⟨(sleepPrepare s i (.sem id)).1, ?_, ⟨?_, ?_⟩, ?_, hlock⟩
  · rw [step, if_pos hrun, advance, hpc]
    rfl
  · rw [sleepPrepare, setPc_proc, setProc_proc, Function.update_self]
    exact hrun
  · rw [sleepPrepare, setPc_proc, setProc_proc, Function.update_self]
    exact Option.some_ne_none _
  · rw [sleepPrepare, setPc_pc, Function.update_self]

theorem release_releases (hprepared : Prepared s i) (hpc : s.pc i = .release (.sem id))
    (hlock : s.semLock id = some i) :
    ∃ t, step s (.advance i true) = some (t, []) ∧ Prepared t i ∧ t.pc i = .sleep (.sem id) := by
  refine ⟨(s.setSemLock id none).setPc i (.sleep (.sem id)), ?_, hprepared, ?_⟩
  · rw [step, if_pos hprepared.1, advance, hpc]
    exact if_pos hlock
  · rw [setPc_pc, Function.update_self]

theorem sleep_blocks (hprepared : Prepared s i) (hpc : s.pc i = .sleep (.sem id)) :
    ∃ t, step s (.advance i true) = some (t, []) ∧ Blocked t i id := by
  refine ⟨(sleep s i (.sem id)).1, ?_, ?_, ?_⟩
  · rw [step, if_pos hprepared.1, advance, hpc]
    rfl
  · rw [sleep, setPc_proc, setProc_proc, Function.update_self, Proc.sleep, if_neg hprepared.2]
  · rw [sleep, setPc_pc, Function.update_self]
    rfl

/-- At a test that fails, the next steps of the process put it to sleep in the same call. -/
theorem sleeps_again (hrun : (s.proc i).state = .running) (hpc : s.pc i = .semTest id)
    (hlock : s.semLock id = some i) (hcount : s.semCount id ≤ 0) :
    ∃ t, Run step (fun _ s _ => (s.pc i).inDown id) s [] t ∧ Blocked t i id := by
  obtain ⟨s₁, hstep₁, hrun₁, hpc₁, hlock₁⟩ := semTest_fails hrun hpc hlock hcount
  obtain ⟨s₂, hstep₂, hprepared₂, hpc₂, hlock₂⟩ := sleepPrepare_prepares hrun₁ hpc₁ hlock₁
  obtain ⟨s₃, hstep₃, hprepared₃, hpc₃⟩ := release_releases hprepared₂ hpc₂ hlock₂
  obtain ⟨s₄, hstep₄, hblocked⟩ := sleep_blocks hprepared₃ hpc₃
  have hin : ∀ {t : State nproc} {c : Pc nproc}, t.pc i = c → c.inDown id → (t.pc i).inDown id :=
    fun h hc => h ▸ hc
  exact ⟨s₄, (((Run.start.next (hin hpc rfl) hstep₁).next (hin hpc₁ rfl) hstep₂).next
    (hin hpc₂ rfl) hstep₃).next (hin hpc₃ rfl) hstep₄, hblocked⟩

/-! ## The runs -/

/-- A process that sleeps in `sys_sem_down` is killed. Over any run from there on in which it
is in that call and finds the count positive whenever it comes to the test: it does not sleep,
and each of its own steps leads to the test or out of the call. A test that finds the count
not positive, with the lock in the process's hands, leads back to sleep. -/
theorem killed_leaves_down (hblocked : Blocked s₀ i id)
    (hkill : step s₀ a = some (s₁, events)) (hit : .kill i pid ∈ events)
    (h : Run step (fun _ s a => (s.pc i).inDown id ∧ Passes i id s a) s₁ trace s) :
    (s.proc i).state ≠ .sleeping ∧
    (∀ ok s' events, (s.pc i).inDown id → Passes i id s (.advance i ok) →
      step s (.advance i ok) = some (s', events) → s'.pc i = .semTest id ∧ events = [] ∨
        s'.pc i = .user ∧ events = [.ret (s.proc i).pid (.semDown id) 0]) ∧
    ((s.proc i).state = .running → s.pc i = .semTest id → s.semLock id = some i →
      s.semCount id ≤ 0 →
      ∃ t, Run step (fun _ s _ => (s.pc i).inDown id) s [] t ∧ Blocked t i id) := by
  have hwoken : Woken i id s := by
    refine h.invariant (I := fun _ s => Woken i id s) (woken_of_kill hblocked hkill hit) ?_
    exact fun _ s a s' _ hwoken hok hstep => hwoken.step hok.1 hok.2 hstep
  exact ⟨hwoken.awake.ne (by decide) (by decide),
    fun _ _ _ hin hpass hstep => (advance_down (hwoken.at_test hin) hpass hstep).2, sleeps_again⟩

instance (s : State nproc) (i : Fin nproc) (id : Fin 10) : Decidable (Blocked s i id) :=
  inferInstanceAs (Decidable (_ ∧ _))

/-- The first process forks, its child goes to sleep in `sem_down(0)`, and the first process
calls `kill(2)` and comes to the child's slot. -/
def killSleeper : List (Action 3) :=
  [.dispatch 0] ++ forkFirst ++ [.dispatch 1, .trap 1 (.semDown 0)] ++ go 1 5 ++
    [.trap 0 (.kill 2)] ++ go 0 1

theorem killed_leaves_down_upped : ∃ s₀ s₁ trace₀ events trace s,
    Run step (fun _ _ _ => True) (boot (0 : Fin 3)) trace₀ s₀ ∧ Blocked s₀ 1 0 ∧
      step s₀ (.advance 0 true) = some (s₁, events) ∧ .kill 1 2 ∈ events ∧
      Run step (fun _ s a => (s.pc 1).inDown 0 ∧ Passes 1 0 s a) s₁ trace s ∧
      s.pc 1 = .semTest 0 ∧ (s.proc 1).state ≠ .sleeping := by
  have htest : (exec step (fun _ _ _ => True) killSleeper [] (boot (0 : Fin 3))).any (fun r =>
      decide (Blocked r.2 1 0) && (step r.2 (.advance 0 true)).any (fun q =>
        decide (.kill 1 2 ∈ q.2) && (exec step (fun _ s a => (s.pc 1).inDown 0 ∧ Passes 1 0 s a)
          ([.trap 0 (.semUp 0)] ++ go 0 6 ++ [.dispatch 1] ++ go 1 1) [] q.1).any fun x =>
            decide (x.2.pc 1 = .semTest 0))) = true := by decide +kernel
  obtain ⟨trace₀, s₀, hrun₀, hs₀⟩ := exists_run htest
  simp only [Bool.and_eq_true, decide_eq_true_eq, Option.any_eq_true] at hs₀
  obtain ⟨hblocked, ⟨s₁, events⟩, hkill, hit, ⟨trace, s⟩, hexec, hpc⟩ := hs₀
  have hrun := Run.start.exec hexec
  exact ⟨s₀, s₁, trace₀, events, trace, s, hrun₀, hblocked, hkill, hit, hrun, hpc,
    (killed_leaves_down hblocked hkill hit hrun).1⟩

/-- Nobody signals, and the victim goes back to sleep in the same call. -/
theorem killed_sleeps_again : ∃ s₀ s₁ trace₀ events trace s,
    Run step (fun _ _ _ => True) (boot (0 : Fin 3)) trace₀ s₀ ∧ Blocked s₀ 1 0 ∧
      step s₀ (.advance 0 true) = some (s₁, events) ∧ .kill 1 2 ∈ events ∧
      Run step (fun _ s _ => (s.pc 1).inDown 0) s₁ trace s ∧
      (s.proc 1).killed = true ∧ Blocked s 1 0 := by
  have htest : (exec step (fun _ _ _ => True) killSleeper [] (boot (0 : Fin 3))).any (fun r =>
      decide (Blocked r.2 1 0) && (step r.2 (.advance 0 true)).any (fun q =>
        decide (.kill 1 2 ∈ q.2) && (exec step (fun _ s _ => (s.pc 1).inDown 0)
          ([.dispatch 1] ++ go 1 5) [] q.1).any fun x =>
            (x.2.proc 1).killed && decide (Blocked x.2 1 0))) = true := by decide +kernel
  obtain ⟨trace₀, s₀, hrun₀, hs₀⟩ := exists_run htest
  simp only [Bool.and_eq_true, decide_eq_true_eq, Option.any_eq_true] at hs₀
  obtain ⟨hblocked, ⟨s₁, events⟩, hkill, hit, ⟨trace, s⟩, hexec, hkilled, hagain⟩ := hs₀
  exact ⟨s₀, s₁, trace₀, events, trace, s, hrun₀, hblocked, hkill, hit, Run.start.exec hexec,
    hkilled, hagain⟩

end Assignment4
