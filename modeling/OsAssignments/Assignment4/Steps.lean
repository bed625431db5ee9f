import OsAssignments.Assignment4.Table

/-!
# What a step does to the process table

`Stepped s a s' events` lists the steps: `quiet` for those that only move a process, and
change locks or semaphores, and one constructor for each way of writing to a slot of the
table. A slot that `kfork` is at work on stays `USED` (`Making`).
-/

namespace Assignment4

open EventRun State

variable {nproc : ℕ}

def Action.actor : Action nproc → Option (Fin nproc)
  | trap i _ => some i
  | advance i _ => some i
  | _ => none

/-- The new process that `kfork` is at work on. -/
def Pc.makes : Pc nproc → Option (Fin nproc)
  | setParent np => some np
  | setRunnable np => some np
  | _ => none

/-- The event is the return of a system call. -/
def Event.IsRet (e : Event nproc) : Prop := ∃ pid call r, e = .ret pid call r

/-- The steps of the process table. -/
inductive Stepped (s : State nproc) : Action nproc → State nproc → List (Event nproc) → Prop
  | dispatch {i : Fin nproc} : (s.proc i).state = .runnable →
      Stepped s (.dispatch i) (s.setProc i { s.proc i with state := .running }) []
  | yield {i : Fin nproc} : (s.proc i).state = .running →
      Stepped s (.yield i) (s.setProc i { s.proc i with state := .runnable }) []
  | setkilled {i : Fin nproc} : (s.proc i).state = .running →
      Stepped s (.setkilled i) (s.setProc i { s.proc i with killed := true }) [.setkilled i]
  | wakeOther {i : Fin nproc} {c : ℕ} :
      Stepped s (.wakeOther i c) (s.setProc i ((s.proc i).wakeup (some (.other c)))) []
  | quiet {i : Fin nproc} {a : Action nproc} {c : Pc nproc} {s' : State nproc}
      {events : List (Event nproc)} : (s.proc i).state = .running → a.actor = some i →
      s'.proc = s.proc → s'.pc = Function.update s.pc i c → c.makes = none →
      (∀ e ∈ events, e.IsRet) → Stepped s a s' events
  | create {i k : Fin nproc} {ok : Bool} : (s.proc i).state = .running →
      s.pc i = .allocproc k → (s.proc k).state = .unused →
      Stepped s (.advance i ok) (((s.nextPid.setProc k ((s.proc k).found s.nextpid)).setPc k
        .user).setPc i (.setParent k)) [.created k s.nextpid]
  | createFails {i k : Fin nproc} {ok : Bool} : (s.proc i).state = .running →
      s.pc i = .allocproc k → (s.proc k).state = .unused →
      Stepped s (.advance i ok)
        ((s.nextPid.setProc k ((s.proc k).found s.nextpid).freeproc).setPc i .user)
        [.ret (s.proc i).pid .fork (-1)]
  | setParent {i np : Fin nproc} {ok : Bool} : (s.proc i).state = .running →
      s.pc i = .setParent np →
      Stepped s (.advance i ok) ((s.setProc np { s.proc np with parent := some i }).setPc i
        (.setRunnable np)) []
  | setRunnable {i np : Fin nproc} {ok : Bool} : (s.proc i).state = .running →
      s.pc i = .setRunnable np →
      Stepped s (.advance i ok) ((s.setProc np { s.proc np with state := .runnable }).setPc i
        .user) [.ret (s.proc i).pid .fork (s.proc np).pid]
  | reparent {i k : Fin nproc} {ok : Bool} {c : Pc nproc} : (s.proc i).state = .running →
      c.makes = none →
      Stepped s (.advance i ok) ((s.setProc k { s.proc k with
        parent := some s.initproc }).setPc i c) []
  | wakeup {i k : Fin nproc} {ok : Bool} {ch : Option (Chan nproc)} {c : Pc nproc} :
      (s.proc i).state = .running → c.makes = none →
      Stepped s (.advance i ok) ((s.setProc k ((s.proc k).wakeup ch)).setPc i c) []
  | setZombie {i : Fin nproc} {ok : Bool} : (s.proc i).state = .running →
      Stepped s (.advance i ok) (((s.setProc i { s.proc i with state := .zombie }).setWaitLock
        none).setPc i .exited) []
  | reap {i k : Fin nproc} {ok : Bool} : (s.proc i).state = .running →
      (s.proc k).state = .zombie →
      Stepped s (.advance i ok) (((s.setProc k { (s.proc k).freeproc with
        parent := none }).setWaitLock none).setPc i .user)
        [.ret (s.proc i).pid .wait (s.proc k).pid]
  | sleepPrepare {i : Fin nproc} {ok : Bool} {w : Waiter} : (s.proc i).state = .running →
      s.pc i = .sleepPrepare w →
      Stepped s (.advance i ok) ((s.setProc i { s.proc i with chan := some (w.chan i) }).setPc i
        (.release w)) []
  | sleep {i : Fin nproc} {ok : Bool} {w : Waiter} : (s.proc i).state = .running →
      s.pc i = .sleep w →
      Stepped s (.advance i ok) ((s.setProc i (s.proc i).sleep).setPc i w.woken) []
  | kill {i k : Fin nproc} {ok : Bool} {pid : ℤ} : (s.proc i).state = .running →
      s.pc i = .kkill pid k → (s.proc k).pid = pid →
      Stepped s (.advance i ok) ((s.setProc k (s.proc k).kill).setPc i .user)
        [.kill k pid, .ret (s.proc i).pid (.kill pid) 0]

variable {s s' : State nproc} {i k : Fin nproc} {a : Action nproc} {events : List (Event nproc)}

/-! ## The steps are these -/

theorem stepped_setPc {c : Pc nproc} (hrun : (s.proc i).state = .running)
    (ha : a.actor = some i) (hc : c.makes = none) : Stepped s a (s.setPc i c) [] :=
  .quiet hrun ha rfl rfl hc fun _ he => nomatch he

theorem stepped_ret {t : State nproc} {call : Syscall} {r : ℤ} (hrun : (s.proc i).state = .running)
    (ha : a.actor = some i) (hproc : t.proc = s.proc) (hpc : t.pc = s.pc)
    (h : ret s i t call r = (s', events)) : Stepped s a s' events := by
  cases h
  refine .quiet (c := .user) hrun ha hproc ?_ rfl fun e he => ?_
  · exact congrArg (Function.update · i Pc.user) hpc
  · exact ⟨_, _, _, List.mem_singleton.mp he⟩

theorem stepped_quiet {t : State nproc} {c : Pc nproc} (hrun : (s.proc i).state = .running)
    (ha : a.actor = some i) (hproc : t.proc = s.proc) (hpc : t.pc = s.pc) (hc : c.makes = none) :
    Stepped s a (t.setPc i c) [] := by
  refine .quiet hrun ha hproc ?_ hc fun _ he => nomatch he
  exact congrArg (Function.update · i c) hpc

theorem Waiter.woken_makes (w : Waiter) : (w.woken : Pc nproc).makes = none := by
  cases w <;> rfl

theorem WakeupCaller.next_makes (w : WakeupCaller) : (w.next : Pc nproc).makes = none := by
  cases w <;> rfl

theorem Syscall.entry_makes {call : Syscall} {c : Pc nproc} (h : call.entry = some c) :
    c.makes = none := by
  cases call with
  | semInit id val =>
      obtain ⟨k, _, rfl⟩ := Option.map_eq_some_iff.mp h
      rfl
  | semDown id =>
      obtain ⟨k, _, rfl⟩ := Option.map_eq_some_iff.mp h
      rfl
  | semUp id =>
      obtain ⟨k, _, rfl⟩ := Option.map_eq_some_iff.mp h
      rfl
  | _ =>
      cases h
      rfl

theorem stepped_of_allocproc {ok : Bool} {n : ℕ} (hrun : (s.proc i).state = .running)
    (hpc : s.pc i = .allocproc n) (h : allocproc s i n ok = (s', events)) :
    Stepped s (.advance i ok) s' events := by
  unfold allocproc at h
  dsimp only at h
  split_ifs at h with hn hunused
  · cases h
    exact .create (k := ⟨n, hn⟩) hrun hpc hunused
  · cases h
    exact .createFails (k := ⟨n, hn⟩) hrun hpc hunused
  · cases h
    exact stepped_setPc hrun rfl rfl
  · exact stepped_ret hrun rfl rfl rfl h

theorem stepped_of_reparent {ok : Bool} {n : ℕ} (hrun : (s.proc i).state = .running)
    (h : reparent s i n = (s', events)) : Stepped s (.advance i ok) s' events := by
  unfold reparent at h
  split_ifs at h with hn hparent
  · cases h
    exact .reparent hrun rfl
  · cases h
    exact stepped_setPc hrun rfl rfl
  · cases h
    exact stepped_setPc hrun rfl rfl

theorem stepped_of_wakeup {ok : Bool} {ch : Option (Chan nproc)} {n : ℕ} {caller : WakeupCaller}
    (hrun : (s.proc i).state = .running) (h : wakeup s i ch n caller = (s', events)) :
    Stepped s (.advance i ok) s' events := by
  unfold wakeup at h
  split_ifs at h with hn
  · cases h
    exact .wakeup hrun rfl
  · cases h
    exact stepped_setPc hrun rfl caller.next_makes

theorem stepped_of_scan {havekids ok : Bool} {n : ℕ} (hrun : (s.proc i).state = .running)
    (h : scan s i n havekids ok = (s', events)) : Stepped s (.advance i ok) s' events := by
  unfold scan at h
  dsimp only at h
  split_ifs at h with hn hchild hzombie hcopy hstop
  · cases h
    exact .reap (k := ⟨n, hn⟩) hrun hzombie
  · exact stepped_ret (t := s.setWaitLock none) hrun rfl rfl rfl h
  · cases h
    exact stepped_setPc hrun rfl rfl
  · cases h
    exact stepped_setPc hrun rfl rfl
  · exact stepped_ret (t := s.setWaitLock none) hrun rfl rfl rfl h
  · cases h
    exact stepped_setPc hrun rfl rfl

theorem stepped_of_kkill {ok : Bool} {pid : ℤ} {n : ℕ} (hrun : (s.proc i).state = .running)
    (hpc : s.pc i = .kkill pid n) (h : kkill s i pid n = (s', events)) :
    Stepped s (.advance i ok) s' events := by
  unfold kkill at h
  split_ifs at h with hn hpid
  · cases h
    exact .kill (k := ⟨n, hn⟩) hrun hpc hpid
  · cases h
    exact stepped_setPc hrun rfl rfl
  · exact stepped_ret hrun rfl rfl rfl h

theorem stepped_of_release {ok : Bool} {w : Waiter} (hrun : (s.proc i).state = .running)
    (h : release s i w = some (s', events)) : Stepped s (.advance i ok) s' events := by
  cases w with
  | wait =>
      cases h
      exact stepped_quiet (t := s.setWaitLock none) hrun rfl rfl rfl rfl
  | sem id =>
      rw [release] at h
      split_ifs at h
      cases h
      exact stepped_quiet (t := s.setSemLock id none) hrun rfl rfl rfl rfl
  | other c =>
      cases h
      exact stepped_setPc hrun rfl rfl

theorem stepped_of_advance {ok : Bool} (hrun : (s.proc i).state = .running)
    (h : advance s i ok = some (s', events)) : Stepped s (.advance i ok) s' events := by
  unfold advance at h
  cases hpc : s.pc i <;> rw [hpc] at h <;> dsimp only at h
  case user => cases h
  case exited => cases h
  case allocproc n => exact stepped_of_allocproc hrun hpc (Option.some.inj h)
  case setParent np =>
    unfold setParent at h
    split_ifs at h
    cases h
    exact .setParent hrun hpc
  case setRunnable np =>
    cases h
    exact .setRunnable hrun hpc
  case kexit =>
    unfold kexit at h
    split_ifs at h
    cases h
    exact stepped_quiet (t := s.setWaitLock (some i)) hrun rfl rfl rfl rfl
  case reparent n => exact stepped_of_reparent hrun (Option.some.inj h)
  case wakeup ch n caller => exact stepped_of_wakeup hrun (Option.some.inj h)
  case setZombie =>
    cases h
    exact .setZombie hrun
  case kwait =>
    unfold kwait at h
    split_ifs at h
    cases h
    exact stepped_quiet (t := s.setWaitLock (some i)) hrun rfl rfl rfl rfl
  case scan n havekids => exact stepped_of_scan hrun (Option.some.inj h)
  case sleepPrepare w =>
    cases h
    exact .sleepPrepare hrun hpc
  case release w => exact stepped_of_release hrun h
  case sleep w =>
    cases h
    exact .sleep hrun hpc
  case kkill pid n => exact stepped_of_kkill hrun hpc (Option.some.inj h)
  case semInit id val =>
    cases h
    exact stepped_setPc hrun rfl (by split_ifs <;> rfl)
  case initlock n id val =>
    cases h
    exact stepped_quiet (t := s.setSemLock n none) hrun rfl rfl rfl (by split_ifs <;> rfl)
  case setInitialized id val =>
    cases h
    exact stepped_quiet (t := s.setSemInitialized) hrun rfl rfl rfl rfl
  case setCount id val =>
    unfold setCount at h
    split_ifs at h
    exact stepped_ret (t := s.setSemCount id val) hrun rfl rfl rfl (Option.some.inj h)
  case semDown id =>
    unfold sysSemDown at h
    split_ifs at h
    cases h
    exact stepped_quiet (t := s.setSemLock id (some i)) hrun rfl rfl rfl rfl
  case semTest id =>
    unfold semTest at h
    split_ifs at h
    · cases h
      exact stepped_setPc hrun rfl rfl
    · exact stepped_ret (t := (s.setSemCount id _).setSemLock id none) hrun rfl rfl rfl
        (Option.some.inj h)
  case semUp id =>
    unfold sysSemUp at h
    split_ifs at h
    cases h
    exact stepped_quiet (t := (s.setSemCount id _).setSemLock id (some i)) hrun rfl rfl rfl rfl
  case semUpped id =>
    unfold semUpped at h
    split_ifs at h
    exact stepped_ret (t := s.setSemLock id none) hrun rfl rfl rfl (Option.some.inj h)
  case otherWoken c =>
    split_ifs at h
    · exact stepped_ret hrun rfl rfl rfl (Option.some.inj h)
    · cases h
      exact stepped_setPc hrun rfl rfl

theorem stepped_of_step (h : step s a = some (s', events)) : Stepped s a s' events := by
  cases a with
  | dispatch i =>
      rw [step] at h
      split_ifs at h with hstate
      cases h
      exact .dispatch hstate
  | yield i =>
      rw [step] at h
      split_ifs at h with hstate
      cases h
      exact .yield hstate.1
  | trap i call =>
      rw [step] at h
      split_ifs at h with hstate
      cases hentry : (call.entry : Option (Pc nproc)) with
      | some c =>
          rw [hentry] at h
          cases h
          exact stepped_setPc hstate.1 rfl (Syscall.entry_makes hentry)
      | none =>
          rw [hentry] at h
          exact stepped_ret hstate.1 rfl rfl rfl (Option.some.inj h)
  | setkilled i =>
      rw [step] at h
      split_ifs at h with hstate
      cases h
      exact .setkilled hstate
  | advance i ok =>
      rw [step] at h
      split_ifs at h with hrun
      exact stepped_of_advance hrun h
  | wakeOther i c =>
      cases h
      exact .wakeOther

/-! ## Processes in the making -/

/-- A slot that `kfork` is at work on is `USED`, and only one process is at work on it. -/
structure Making (s : State nproc) : Prop where
  used : ∀ i np, (s.pc i).makes = some np → (s.proc np).state = .used
  unique : ∀ i j np, (s.pc i).makes = some np → (s.pc j).makes = some np → i = j

theorem makes_update {c : Pc nproc} {j np : Fin nproc} (hc : c.makes = none)
    (h : (Function.update s.pc i c j).makes = some np) : j ≠ i ∧ (s.pc j).makes = some np := by
  by_cases hji : j = i
  · rw [hji, Function.update_self, hc] at h
    cases h
  · rw [Function.update_of_ne hji] at h
    exact ⟨hji, h⟩

/-- A slot keeps being `USED` when what is written to it, or its neighbour, is. -/
theorem used_update {p : Proc nproc} (hp : (s.proc k).state = .used → p.state = .used)
    (np : Fin nproc) (h : (s.proc np).state = .used) :
    (Function.update s.proc k p np).state = .used := by
  by_cases hk : np = k
  · rw [hk, Function.update_self]
    exact hp (hk ▸ h)
  · rwa [Function.update_of_ne hk]

theorem Making.move {c : Pc nproc} (h : Making s) (hpc : s'.pc = Function.update s.pc i c)
    (hc : c.makes = none) (hused : ∀ np, (s.proc np).state = .used → (s'.proc np).state = .used) :
    Making s' := by
  constructor
  · intro j np hj
    rw [hpc] at hj
    exact hused np (h.used j np (makes_update hc hj).2)
  · intro j j' np hj hj'
    rw [hpc] at hj hj'
    exact h.unique j j' np (makes_update hc hj).2 (makes_update hc hj').2

theorem Making.still (h : Making s) (hpc : s'.pc = s.pc)
    (hused : ∀ np, (s.proc np).state = .used → (s'.proc np).state = .used) : Making s' :=
  ⟨fun j np hj => hused np (h.used j np (hpc ▸ hj)), hpc ▸ h.unique⟩

theorem Making.create (h : Making s) (hrun : (s.proc i).state = .running)
    (hunused : (s.proc k).state = .unused) {p : Proc nproc} (hp : p.state = .used)
    {t : State nproc} (hproc : t.proc = Function.update s.proc k p)
    (hpc : t.pc = Function.update (Function.update s.pc k .user) i (.setParent k)) : Making t := by
  have hnobody : ∀ j, (s.pc j).makes ≠ some k := by
    intro j hj
    rw [h.used j k hj] at hunused
    cases hunused
  have hother : ∀ j np, j ≠ i → (t.pc j).makes = some np → np ≠ k ∧ (s.pc j).makes = some np := by
    intro j np hji hj
    rw [hpc, Function.update_of_ne hji] at hj
    obtain ⟨_, hj⟩ := makes_update rfl hj
    exact ⟨fun hnp => hnobody j (hnp ▸ hj), hj⟩
  have hself : ∀ np, (t.pc i).makes = some np → np = k := by
    intro np hi
    rw [hpc, Function.update_self] at hi
    exact (Option.some.inj hi).symm
  constructor
  · intro j np hj
    rw [hproc]
    by_cases hji : j = i
    · subst hji
      rw [hself np hj, Function.update_self, hp]
    · obtain ⟨hnp, hj⟩ := hother j np hji hj
      rw [Function.update_of_ne hnp]
      exact h.used j np hj
  · intro j j' np hj hj'
    by_cases hji : j = i
    · subst hji
      by_contra hne
      exact (hother j' np (Ne.symm hne) hj').1 (hself np hj)
    · by_cases hji' : j' = i
      · subst hji'
        exact absurd (hself np hj') (hother j np hji hj).1
      · exact h.unique j j' np (hother j np hji hj).2 (hother j' np hji' hj').2

theorem Proc.wakeup_state_of_used {ch : Option (Chan nproc)} {p : Proc nproc}
    (h : p.state = .used) : (p.wakeup ch).state = .used := by
  rw [Proc.wakeup]
  split_ifs with hch hsleeping
  · rw [h] at hsleeping
    cases hsleeping
  · exact h
  · exact h

theorem Stepped.making (hstep : Stepped s a s' events) (h : Making s) : Making s' := by
  cases hstep with
  | @dispatch i hstate =>
      exact h.still rfl (used_update fun hused => by rw [hstate] at hused; cases hused)
  | @yield i hstate =>
      exact h.still rfl (used_update fun hused => by rw [hstate] at hused; cases hused)
  | setkilled _ => exact h.still rfl (used_update id)
  | wakeOther => exact h.still rfl (used_update Proc.wakeup_state_of_used)
  | quiet _ _ hproc hpc hc _ =>
      refine h.move hpc hc fun np hused => ?_
      rwa [hproc]
  | create hrun _ hunused => exact h.create hrun hunused rfl rfl rfl
  | createFails _ _ hunused =>
      exact h.move rfl rfl (used_update fun hused => by rw [hunused] at hused; cases hused)
  | @setParent i np _ hrun hpc =>
      have hmakes : (s.pc i).makes = some np := congrArg Pc.makes hpc
      have hsame : ∀ j, ((Function.update s.pc i (.setRunnable np)) j).makes = (s.pc j).makes := by
        intro j
        by_cases hji : j = i
        · rw [hji, Function.update_self, hmakes]
          rfl
        · rw [Function.update_of_ne hji]
      constructor
      · intro j n hj
        exact used_update (p := { s.proc np with parent := some i }) id n
          (h.used j n ((hsame j).symm.trans hj))
      · intro j j' n hj hj'
        exact h.unique j j' n ((hsame j).symm.trans hj) ((hsame j').symm.trans hj')
  | @setRunnable i np _ hrun hpc =>
      have hmakes : (s.pc i).makes = some np := congrArg Pc.makes hpc
      constructor
      · intro j n hj
        obtain ⟨hji, hj⟩ := makes_update (c := .user) rfl hj
        have hn : n ≠ np := fun hn => hji (h.unique j i np (hn ▸ hj) hmakes)
        change (Function.update s.proc np _ n).state = .used
        rw [Function.update_of_ne hn]
        exact h.used j n hj
      · intro j j' n hj hj'
        exact h.unique j j' n (makes_update (c := .user) rfl hj).2
          (makes_update (c := .user) rfl hj').2
  | reparent _ hc => exact h.move rfl hc (used_update id)
  | wakeup _ hc => exact h.move rfl hc (used_update Proc.wakeup_state_of_used)
  | setZombie hrun =>
      exact h.move rfl rfl (used_update fun hused => by rw [hrun] at hused; cases hused)
  | reap _ hzombie =>
      exact h.move rfl rfl (used_update fun hused => by rw [hzombie] at hused; cases hused)
  | sleepPrepare _ _ => exact h.move rfl rfl (used_update id)
  | @sleep i _ w hrun _ =>
      exact h.move rfl w.woken_makes (used_update fun hused => by rw [hrun] at hused; cases hused)
  | @kill i k _ _ _ _ _ =>
      refine h.move rfl rfl (used_update fun hused => ?_)
      rw [Proc.kill]
      exact (if_neg (by rw [hused]; decide)).trans hused

theorem boot_making (initproc : Fin nproc) : Making (boot initproc) :=
  ⟨fun _ _ hj => (nomatch hj), fun _ _ _ hj => (nomatch hj)⟩

variable {ok : List (Event nproc) → State nproc → Action nproc → Prop} {initproc : Fin nproc}
  {trace : List (Event nproc)}

/-- What the steps keep in a table with processes in the making holds in every state of a
run. -/
theorem invariant_of_run {I : List (Event nproc) → State nproc → Prop}
    (hboot : I [] (boot initproc))
    (hstep : ∀ trace s a s' events, Making s → I trace s → ok trace s a → Stepped s a s' events →
      I (trace ++ events) s')
    (h : Run step ok (boot initproc) trace s) : Making s ∧ I trace s := by
  refine h.invariant (I := fun trace s => Making s ∧ I trace s) ⟨boot_making initproc, hboot⟩ ?_
  rintro trace s a s' events ⟨hmaking, hI⟩ hok hs
  have hstepped := stepped_of_step hs
  exact ⟨hstepped.making hmaking, hstep trace s a s' events hmaking hI hok hstepped⟩

end Assignment4
