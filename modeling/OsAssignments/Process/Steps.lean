import OsAssignments.Process.Table

/-!
# What a step does

`Stepped s a s' events` lists the steps of the process table: `Goto` the ones that
only move a process from one point to the next, `Returns` those that only return from
a system call, and then one constructor for each way of changing more. It is all that
the proofs about runs use of `step`.
-/

namespace Process

open State

variable {nproc : ℕ}

/-- Where a system call begins. -/
inductive Entry : Syscall → Pc nproc → Prop
  | fork : Entry .fork (.allocproc false 0)
  | clone : Entry .clone .kclone
  | exit : Entry .exit .kexit
  | wait : Entry .wait (.kwait false)
  | join : Entry .join (.kwait true)
  | kill {pid : ℤ} : Entry (.kill pid) (.kkill pid 0)
  | semInit {id value : ℤ} {k : Fin 10} : 0 ≤ value → semIndex id = some k →
      Entry (.semInit id value) (.semInit k value)
  | semWait {id : ℤ} {k : Fin 10} : semIndex id = some k → Entry (.semWait id) (.semWait k)
  | semSignal {id : ℤ} {k : Fin 10} : semIndex id = some k → Entry (.semSignal id) (.semSignal k)
  | other {c : ℕ} : Entry (.other c) (.sleepPrepare (.other c))

theorem entry_of_eq_some {call : Syscall} {c : Pc nproc} (h : call.entry = some c) :
    Entry call c := by
  cases call with
  | semInit id value =>
      rw [Syscall.entry] at h
      split_ifs at h with hvalue
      obtain ⟨k, hk, rfl⟩ := Option.map_eq_some_iff.mp h
      exact .semInit (Int.not_lt.mp hvalue) hk
  | semWait id =>
      obtain ⟨k, hk, rfl⟩ := Option.map_eq_some_iff.mp h
      exact .semWait hk
  | semSignal id =>
      obtain ⟨k, hk, rfl⟩ := Option.map_eq_some_iff.mp h
      exact .semSignal hk
  | _ =>
      cases h
      constructor

/-- The process in slot `i` goes from one point to another, and nothing else changes. -/
inductive Goto (s : State nproc) (i : Fin nproc) : Pc nproc → Pc nproc → Prop
  | killedTrap : (s.proc i).killed = true → Goto s i .user .kexit
  | killedReturn : (s.proc i).killed = true → Goto s i .trapReturn .kexit
  | toUser : (s.proc i).killed = false → Goto s i .trapReturn .user
  | kclone : Goto s i .kclone (.allocproc true 0)
  | allocproc {thread : Bool} {k : Fin nproc} : (s.proc k).state ≠ .unused →
      Goto s i (.allocproc thread k) (.allocproc thread (k + 1))
  | reparent {k : Fin nproc} : abandoned s i k = false → Goto s i (.reparent k) (.reparent (k + 1))
  | reparented {k : ℕ} : nproc ≤ k →
      Goto s i (.reparent k) (.wakeup ((s.proc i).parent.map .proc) 0 .kexit)
  | wokenUp {ch : Option (Chan nproc)} {k : ℕ} {caller : WakeupCaller} : nproc ≤ k →
      Goto s i (.wakeup ch k caller) caller.next
  | scan {thread havekids : Bool} {k : Fin nproc} : isChild s i thread k = false →
      Goto s i (.scan thread k havekids) (.scan thread (k + 1) havekids)
  | scanChild {thread havekids : Bool} {k : Fin nproc} : isChild s i thread k = true →
      (s.proc k).state ≠ .zombie →
      Goto s i (.scan thread k havekids) (.scan thread (k + 1) true)
  | scanned {thread : Bool} {k : ℕ} : nproc ≤ k → (s.proc i).killed = false →
      Goto s i (.scan thread k true) (.sleepPrepare (.wait thread))
  | releaseOther {c : ℕ} : Goto s i (.release (.other c)) (.sleep (.other c))
  | kkill {pid : ℤ} {k : Fin nproc} : Goto s i (.kkill pid k) (.kkill pid (k + 1))
  | semEmpty {id : Fin 10} : (s.sem id).value = 0 → Goto s i (.semTest id) (.sleepPrepare (.sem id))
  | semAlive {id : Fin 10} : (s.proc i).killed = false → Goto s i (.semKilled id) (.semTest id)
  | otherAgain {c : ℕ} : Goto s i (.otherWoken c) (.sleepPrepare (.other c))

/-- The process in slot `i` returns `r` from the system call `call`, and nothing else
changes. -/
inductive Returns (s : State nproc) (i : Fin nproc) : Pc nproc → Syscall → ℤ → Prop
  | entry {call : Syscall} : (call.entry : Option (Pc nproc)) = none → Returns s i .user call (-1)
  | kclone : Returns s i .kclone .clone (-1)
  | allocproc {thread : Bool} {k : ℕ} : nproc ≤ k →
      Returns s i (.allocproc thread k) (forkCall thread) (-1)
  | kkill {pid : ℤ} {k : ℕ} : nproc ≤ k → Returns s i (.kkill pid k) (.kill pid) (-1)
  | semWait {id : Fin 10} : (s.sem id).initialized = false →
      Returns s i (.semWait id) (.semWait id) (-1)
  | semSignal {id : Fin 10} : (s.sem id).initialized = false →
      Returns s i (.semSignal id) (.semSignal id) (-1)
  | otherWoken {c : ℕ} : Returns s i (.otherWoken c) (.other c) 0

/-- The steps of the process table. -/
inductive Stepped (s : State nproc) : Action nproc → State nproc → List Event → Prop
  | dispatch {i : Fin nproc} : (s.proc i).state = .runnable →
      Stepped s (.dispatch i) (s.setProc i { s.proc i with state := .running }) []
  | yield {i : Fin nproc} : (s.proc i).state = .running → (s.pc i).preemptible = true →
      Stepped s (.yield i) (s.setProc i { s.proc i with state := .runnable }) []
  | wakeOther {i : Fin nproc} {c : ℕ} :
      Stepped s (.wakeOther i c) (s.setProc i ((s.proc i).wakeup (some (.other c)))) []
  | fault {i : Fin nproc} : (s.proc i).state = .running → s.pc i = .user →
      Stepped s (.fault i) ((s.setProc i { s.proc i with killed := true }).setPc i .kexit) []
  | trap {i : Fin nproc} {call : Syscall} {c : Pc nproc} : (s.proc i).state = .running →
      s.pc i = .user → (s.proc i).killed = false → Entry call c →
      Stepped s (.trap i call) (s.setPc i c) []
  | goto {i : Fin nproc} {a : Action nproc} {c : Pc nproc} : (s.proc i).state = .running →
      Goto s i (s.pc i) c → Stepped s a (s.setPc i c) []
  | returns {i : Fin nproc} {a : Action nproc} {call : Syscall} {r : ℤ} :
      (s.proc i).state = .running → Returns s i (s.pc i) call r →
      Stepped s a (s.setPc i .trapReturn) [⟨(s.proc i).pid, call, r⟩]
  | allocFails {i k : Fin nproc} {ok thread : Bool} : (s.proc i).state = .running →
      s.pc i = .allocproc thread k → (s.proc k).state = .unused →
      Stepped s (.advance i ok) ((s.nextPid.setProc k .free).setPc i .trapReturn)
        [⟨(s.proc i).pid, forkCall thread, -1⟩]
  | alloc {i k : Fin nproc} {ok thread : Bool} : (s.proc i).state = .running →
      s.pc i = .allocproc thread k → (s.proc k).state = .unused →
      Stepped s (.advance i ok) (((s.nextPid.setProc k (.fresh s.nextpid thread)).setPc k
        .user).setPc i (.setParent thread k)) []
  | setParent {i np : Fin nproc} {ok thread : Bool} : (s.proc i).state = .running →
      s.pc i = .setParent thread np → s.waitLock = none →
      Stepped s (.advance i ok) ((s.setProc np { s.proc np with parent := some i }).setPc i
        (.setRunnable thread np)) []
  | setRunnable {i np : Fin nproc} {ok thread : Bool} : (s.proc i).state = .running →
      s.pc i = .setRunnable thread np →
      Stepped s (.advance i ok)
        ((s.setProc np { s.proc np with state := .runnable }).setPc i .trapReturn)
        [⟨(s.proc i).pid, forkCall thread, (s.proc np).pid⟩]
  | kexit {i : Fin nproc} {ok : Bool} : (s.proc i).state = .running → s.pc i = .kexit →
      i ≠ s.initproc → s.waitLock = none →
      Stepped s (.advance i ok) ((s.setWaitLock (some i)).setPc i (.reparent 0)) []
  | reparent {i k : Fin nproc} {ok : Bool} : (s.proc i).state = .running →
      s.pc i = .reparent k → abandoned s i k = true →
      Stepped s (.advance i ok) ((s.setProc k { s.proc k with
        parent := some s.initproc
        detached := (s.proc k).isThread || (s.proc k).detached }).setPc i
          (.wakeup (some (.proc s.initproc)) 0 (.reparent k))) []
  | wakeup {i k : Fin nproc} {ok : Bool} {ch : Option (Chan nproc)} {caller : WakeupCaller} :
      (s.proc i).state = .running → s.pc i = .wakeup ch k caller →
      Stepped s (.advance i ok) ((s.setProc k ((s.proc k).wakeup ch)).setPc i
        (.wakeup ch (k + 1) caller)) []
  | setZombie {i : Fin nproc} {ok : Bool} : (s.proc i).state = .running → s.pc i = .setZombie →
      Stepped s (.advance i ok) (((s.setProc i { s.proc i with state := .zombie }).setWaitLock
        none).setPc i .exited) []
  | kwait {i : Fin nproc} {ok thread : Bool} : (s.proc i).state = .running →
      s.pc i = .kwait thread → s.waitLock = none →
      Stepped s (.advance i ok) ((s.setWaitLock (some i)).setPc i (.scan thread 0 false)) []
  | scanFails {i : Fin nproc} {ok thread havekids : Bool} {k : ℕ} : (s.proc i).state = .running →
      s.pc i = .scan thread k havekids →
      Stepped s (.advance i ok) ((s.setWaitLock none).setPc i .trapReturn)
        [⟨(s.proc i).pid, waitCall thread, -1⟩]
  | reap {i k : Fin nproc} {ok thread havekids : Bool} : (s.proc i).state = .running →
      s.pc i = .scan thread k havekids → isChild s i thread k = true →
      (s.proc k).state = .zombie → (thread || ok) = true →
      Stepped s (.advance i ok) (((s.setProc k .free).setWaitLock none).setPc i .trapReturn)
        [⟨(s.proc i).pid, waitCall thread, (s.proc k).pid⟩]
  | sleepPrepare {i : Fin nproc} {ok : Bool} {w : Waiter} : (s.proc i).state = .running →
      s.pc i = .sleepPrepare w →
      Stepped s (.advance i ok) ((s.setProc i { s.proc i with chan := some (w.chan i) }).setPc i
        (.release w)) []
  | releaseWait {i : Fin nproc} {ok thread : Bool} : (s.proc i).state = .running →
      s.pc i = .release (.wait thread) →
      Stepped s (.advance i ok) ((s.setWaitLock none).setPc i (.sleep (.wait thread))) []
  | releaseSem {i : Fin nproc} {ok : Bool} {id : Fin 10} : (s.proc i).state = .running →
      s.pc i = .release (.sem id) →
      Stepped s (.advance i ok) ((s.setSem id { s.sem id with lk := none }).setPc i
        (.sleep (.sem id))) []
  | sleep {i : Fin nproc} {ok : Bool} {w : Waiter} : (s.proc i).state = .running →
      s.pc i = .sleep w →
      Stepped s (.advance i ok) ((s.setProc i (s.proc i).sleep).setPc i w.woken) []
  | kill {i k : Fin nproc} {ok : Bool} {pid : ℤ} : (s.proc i).state = .running →
      s.pc i = .kkill pid k → (s.proc k).pid = pid →
      Stepped s (.advance i ok) ((s.setProc k (s.proc k).kill).setPc i .trapReturn)
        [⟨(s.proc i).pid, .kill pid, 0⟩]
  | semInit {i : Fin nproc} {ok : Bool} {id : Fin 10} {value : ℤ} : (s.proc i).state = .running →
      s.pc i = .semInit id value → (s.sem id).lk = none →
      Stepped s (.advance i ok) ((s.setSem id ⟨value, true, none⟩).setPc i .trapReturn)
        [⟨(s.proc i).pid, .semInit id value, 0⟩]
  | semWait {i : Fin nproc} {ok : Bool} {id : Fin 10} : (s.proc i).state = .running →
      s.pc i = .semWait id → (s.sem id).lk = none → (s.sem id).initialized = true →
      Stepped s (.advance i ok) ((s.setSem id { s.sem id with lk := some i }).setPc i
        (.semTest id)) []
  | semTake {i : Fin nproc} {ok : Bool} {id : Fin 10} : (s.proc i).state = .running →
      s.pc i = .semTest id → (s.sem id).value ≠ 0 →
      Stepped s (.advance i ok) ((s.setSem id { s.sem id with
        value := (s.sem id).value - 1, lk := none }).setPc i .trapReturn)
        [⟨(s.proc i).pid, .semWait id, 0⟩]
  | semWoken {i : Fin nproc} {ok : Bool} {id : Fin 10} : (s.proc i).state = .running →
      s.pc i = .semWoken id → (s.sem id).lk = none →
      Stepped s (.advance i ok) ((s.setSem id { s.sem id with lk := some i }).setPc i
        (.semKilled id)) []
  | semKilled {i : Fin nproc} {ok : Bool} {id : Fin 10} : (s.proc i).state = .running →
      s.pc i = .semKilled id → (s.proc i).killed = true →
      Stepped s (.advance i ok) ((s.setSem id { s.sem id with lk := none }).setPc i .trapReturn)
        [⟨(s.proc i).pid, .semWait id, -1⟩]
  | semSignal {i : Fin nproc} {ok : Bool} {id : Fin 10} : (s.proc i).state = .running →
      s.pc i = .semSignal id → (s.sem id).lk = none → (s.sem id).initialized = true →
      Stepped s (.advance i ok) ((s.setSem id { s.sem id with
        value := (s.sem id).value + 1, lk := some i }).setPc i
          (.wakeup (some (.sem id)) 0 (.semSignal id))) []
  | semSignaled {i : Fin nproc} {ok : Bool} {id : Fin 10} : (s.proc i).state = .running →
      s.pc i = .semSignaled id →
      Stepped s (.advance i ok) ((s.setSem id { s.sem id with lk := none }).setPc i .trapReturn)
        [⟨(s.proc i).pid, .semSignal id, 0⟩]

variable {s s' : State nproc} {i : Fin nproc} {events : List Event}

/-! ## The steps are these -/

theorem stepped_of_allocproc {thread ok : Bool} {k : ℕ} (hrun : (s.proc i).state = .running)
    (hpc : s.pc i = .allocproc thread k) (h : allocproc s i thread k ok = (s', events)) :
    Stepped s (.advance i ok) s' events := by
  unfold allocproc at h
  split_ifs at h with hk hunused
  · cases h
    exact .alloc (k := ⟨k, hk⟩) hrun hpc hunused
  · cases h
    exact .allocFails (k := ⟨k, hk⟩) hrun hpc hunused
  · cases h
    apply Stepped.goto hrun
    rw [hpc]
    exact .allocproc (k := ⟨k, hk⟩) hunused
  · cases h
    apply Stepped.returns hrun
    rw [hpc]
    exact .allocproc (Nat.not_lt.mp hk)

theorem stepped_of_reparent {ok : Bool} {k : ℕ} (hrun : (s.proc i).state = .running)
    (hpc : s.pc i = .reparent k) (h : reparent s i k = (s', events)) :
    Stepped s (.advance i ok) s' events := by
  unfold reparent at h
  split_ifs at h with hk habandoned
  · cases h
    exact .reparent (k := ⟨k, hk⟩) hrun hpc habandoned
  · cases h
    apply Stepped.goto hrun
    rw [hpc]
    exact .reparent (k := ⟨k, hk⟩) (Bool.eq_false_of_not_eq_true habandoned)
  · cases h
    apply Stepped.goto hrun
    rw [hpc]
    exact .reparented (Nat.not_lt.mp hk)

theorem stepped_of_wakeup {ok : Bool} {ch : Option (Chan nproc)} {k : ℕ} {caller : WakeupCaller}
    (hrun : (s.proc i).state = .running) (hpc : s.pc i = .wakeup ch k caller)
    (h : wakeup s i ch k caller = (s', events)) : Stepped s (.advance i ok) s' events := by
  unfold wakeup at h
  split_ifs at h with hk
  · cases h
    exact .wakeup (k := ⟨k, hk⟩) hrun hpc
  · cases h
    apply Stepped.goto hrun
    rw [hpc]
    exact .wokenUp (Nat.not_lt.mp hk)

theorem stepped_of_scan {thread havekids ok : Bool} {k : ℕ} (hrun : (s.proc i).state = .running)
    (hpc : s.pc i = .scan thread k havekids) (h : scan s i thread k havekids ok = (s', events)) :
    Stepped s (.advance i ok) s' events := by
  unfold scan at h
  split_ifs at h with hk hchild hzombie hcopy hstop
  · cases h
    exact .reap (k := ⟨k, hk⟩) hrun hpc hchild hzombie hcopy
  · cases h
    exact .scanFails hrun hpc
  · cases h
    apply Stepped.goto hrun
    rw [hpc]
    exact .scanChild (k := ⟨k, hk⟩) hchild hzombie
  · cases h
    apply Stepped.goto hrun
    rw [hpc]
    exact .scan (k := ⟨k, hk⟩) (Bool.eq_false_of_not_eq_true hchild)
  · cases h
    exact .scanFails hrun hpc
  · cases h
    rw [Bool.or_eq_true, not_or] at hstop
    have hkids : havekids = true := by simpa using hstop.1
    apply Stepped.goto hrun
    rw [hpc, hkids]
    exact .scanned (Nat.not_lt.mp hk) (Bool.eq_false_of_not_eq_true hstop.2)

theorem stepped_of_kkill {ok : Bool} {pid : ℤ} {k : ℕ} (hrun : (s.proc i).state = .running)
    (hpc : s.pc i = .kkill pid k) (h : kkill s i pid k = (s', events)) :
    Stepped s (.advance i ok) s' events := by
  unfold kkill at h
  split_ifs at h with hk hpid
  · cases h
    exact .kill (k := ⟨k, hk⟩) hrun hpc hpid
  · cases h
    apply Stepped.goto hrun
    rw [hpc]
    exact .kkill (k := ⟨k, hk⟩)
  · cases h
    apply Stepped.returns hrun
    rw [hpc]
    exact .kkill (Nat.not_lt.mp hk)

theorem stepped_of_release {ok : Bool} {w : Waiter} (hrun : (s.proc i).state = .running)
    (hpc : s.pc i = .release w) (h : release s i w = (s', events)) :
    Stepped s (.advance i ok) s' events := by
  cases w with
  | wait thread =>
      cases h
      exact .releaseWait hrun hpc
  | sem id =>
      cases h
      exact .releaseSem hrun hpc
  | other c =>
      cases h
      apply Stepped.goto hrun
      rw [hpc]
      exact .releaseOther

theorem stepped_of_semWait {ok : Bool} {id : Fin 10} (hrun : (s.proc i).state = .running)
    (hpc : s.pc i = .semWait id) (h : sysSemWait s i id = some (s', events)) :
    Stepped s (.advance i ok) s' events := by
  unfold sysSemWait at h
  split_ifs at h with hlk hinit
  · cases h
    exact .semWait hrun hpc hlk hinit
  · cases h
    apply Stepped.returns hrun
    rw [hpc]
    exact .semWait (Bool.eq_false_of_not_eq_true hinit)

theorem stepped_of_semTest {ok : Bool} {id : Fin 10} (hrun : (s.proc i).state = .running)
    (hpc : s.pc i = .semTest id) (h : semTest s i id = (s', events)) :
    Stepped s (.advance i ok) s' events := by
  unfold semTest at h
  split_ifs at h with hvalue
  · cases h
    apply Stepped.goto hrun
    rw [hpc]
    exact .semEmpty hvalue
  · cases h
    exact .semTake hrun hpc hvalue

theorem stepped_of_semKilled {ok : Bool} {id : Fin 10} (hrun : (s.proc i).state = .running)
    (hpc : s.pc i = .semKilled id) (h : semKilled s i id = (s', events)) :
    Stepped s (.advance i ok) s' events := by
  unfold semKilled at h
  split_ifs at h with hkilled
  · cases h
    exact .semKilled hrun hpc hkilled
  · cases h
    apply Stepped.goto hrun
    rw [hpc]
    exact .semAlive (Bool.eq_false_of_not_eq_true hkilled)

theorem stepped_of_semSignal {ok : Bool} {id : Fin 10} (hrun : (s.proc i).state = .running)
    (hpc : s.pc i = .semSignal id) (h : sysSemSignal s i id = some (s', events)) :
    Stepped s (.advance i ok) s' events := by
  unfold sysSemSignal at h
  split_ifs at h with hlk hinit
  · cases h
    exact .semSignal hrun hpc hlk hinit
  · cases h
    apply Stepped.returns hrun
    rw [hpc]
    exact .semSignal (Bool.eq_false_of_not_eq_true hinit)

theorem stepped_of_advance {ok : Bool} (hrun : (s.proc i).state = .running)
    (h : advance s i ok = some (s', events)) : Stepped s (.advance i ok) s' events := by
  unfold advance at h
  cases hpc : s.pc i with
  | user =>
      rw [hpc] at h
      cases h
  | trapReturn =>
      rw [hpc] at h
      cases h
      apply Stepped.goto hrun
      rw [hpc]
      cases hkilled : (s.proc i).killed with
      | true => exact .killedReturn hkilled
      | false => exact .toUser hkilled
  | kclone =>
      rw [hpc] at h
      cases ok with
      | true =>
          cases h
          apply Stepped.goto hrun
          rw [hpc]
          exact .kclone
      | false =>
          cases h
          apply Stepped.returns hrun
          rw [hpc]
          exact .kclone
  | allocproc thread k =>
      rw [hpc] at h
      exact stepped_of_allocproc hrun hpc (Option.some.inj h)
  | setParent thread np =>
      rw [hpc] at h
      dsimp only at h
      unfold setParent at h
      split_ifs at h with hlock
      cases h
      exact .setParent hrun hpc hlock
  | setRunnable thread np =>
      rw [hpc] at h
      cases h
      exact .setRunnable hrun hpc
  | kexit =>
      rw [hpc] at h
      dsimp only at h
      unfold kexit at h
      split_ifs at h with hinit hlock
      cases h
      exact .kexit hrun hpc hinit hlock
  | reparent k =>
      rw [hpc] at h
      exact stepped_of_reparent hrun hpc (Option.some.inj h)
  | wakeup ch k caller =>
      rw [hpc] at h
      exact stepped_of_wakeup hrun hpc (Option.some.inj h)
  | setZombie =>
      rw [hpc] at h
      cases h
      exact .setZombie hrun hpc
  | exited =>
      rw [hpc] at h
      cases h
  | kwait thread =>
      rw [hpc] at h
      dsimp only at h
      unfold kwait at h
      split_ifs at h with hlock
      cases h
      exact .kwait hrun hpc hlock
  | scan thread k havekids =>
      rw [hpc] at h
      exact stepped_of_scan hrun hpc (Option.some.inj h)
  | sleepPrepare w =>
      rw [hpc] at h
      cases h
      exact .sleepPrepare hrun hpc
  | release w =>
      rw [hpc] at h
      exact stepped_of_release hrun hpc (Option.some.inj h)
  | sleep w =>
      rw [hpc] at h
      cases h
      exact .sleep hrun hpc
  | kkill pid k =>
      rw [hpc] at h
      exact stepped_of_kkill hrun hpc (Option.some.inj h)
  | semInit id value =>
      rw [hpc] at h
      dsimp only at h
      unfold sysSemInit at h
      split_ifs at h with hlk
      cases h
      exact .semInit hrun hpc hlk
  | semWait id =>
      rw [hpc] at h
      exact stepped_of_semWait hrun hpc h
  | semTest id =>
      rw [hpc] at h
      exact stepped_of_semTest hrun hpc (Option.some.inj h)
  | semWoken id =>
      rw [hpc] at h
      dsimp only at h
      unfold semWoken at h
      split_ifs at h with hlk
      cases h
      exact .semWoken hrun hpc hlk
  | semKilled id =>
      rw [hpc] at h
      exact stepped_of_semKilled hrun hpc (Option.some.inj h)
  | semSignal id =>
      rw [hpc] at h
      exact stepped_of_semSignal hrun hpc h
  | semSignaled id =>
      rw [hpc] at h
      cases h
      exact .semSignaled hrun hpc
  | otherWoken c =>
      rw [hpc] at h
      cases ok with
      | true =>
          cases h
          apply Stepped.returns hrun
          rw [hpc]
          exact .otherWoken
      | false =>
          cases h
          apply Stepped.goto hrun
          rw [hpc]
          exact .otherAgain

theorem stepped_of_usertrap {call : Syscall} (hrun : (s.proc i).state = .running)
    (hpc : s.pc i = .user) (h : usertrap s i call = (s', events)) :
    Stepped s (.trap i call) s' events := by
  unfold usertrap at h
  cases hkilled : (s.proc i).killed with
  | true =>
      rw [hkilled, if_pos rfl] at h
      cases h
      apply Stepped.goto hrun
      rw [hpc]
      exact .killedTrap hkilled
  | false =>
      rw [hkilled, if_neg (by decide)] at h
      cases hentry : (call.entry : Option (Pc nproc)) with
      | some c =>
          rw [hentry] at h
          cases h
          exact .trap hrun hpc hkilled (entry_of_eq_some hentry)
      | none =>
          rw [hentry] at h
          cases h
          apply Stepped.returns hrun
          rw [hpc]
          exact .entry hentry

theorem stepped_of_step {a : Action nproc} (h : step s a = some (s', events)) :
    Stepped s a s' events := by
  cases a with
  | dispatch i =>
      rw [step] at h
      split_ifs at h with hstate
      cases h
      exact .dispatch hstate
  | yield i =>
      rw [step] at h
      split_ifs at h with hstate
      cases h
      exact .yield hstate.1 hstate.2
  | trap i call =>
      rw [step] at h
      split_ifs at h with hstate
      exact stepped_of_usertrap hstate.1 hstate.2 (Option.some.inj h)
  | fault i =>
      rw [step] at h
      split_ifs at h with hstate
      cases h
      exact .fault hstate.1 hstate.2
  | advance i ok =>
      rw [step] at h
      split_ifs at h with hstate
      exact stepped_of_advance hstate h
  | wakeOther i c =>
      cases h
      exact .wakeOther

end Process
