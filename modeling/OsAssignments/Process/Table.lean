import Mathlib.Algebra.GroupWithZero.Nat
import Mathlib.Data.Fin.Basic
import Mathlib.Logic.Function.Basic
import Mathlib.Tactic.Simps.Basic
import OsAssignments.Library.EventRun
import OsAssignments.Library.TableIndex

/-!
# The process table under concurrency

The Assignment 7 kernel's processes with the calls that create, end, wait, kill and
synchronise them. Each process in the kernel has a program counter `Pc`, and a step
takes it from one point to the next. The points lie between the critical sections:
what the source does while it holds a `p->lock` is a part of one step, and the longer
sections under `wait_lock` and under the lock of a semaphore are several steps, with
the lock's holder in the state. A step that needs a lock another process holds is not
possible. The scheduler appears as `dispatch`, which may pick any `RUNNABLE` process,
and a timer interrupt as `yield`, which can come wherever no lock is held.

Memory, files and the exit status are not part of this model. Whether `allocproc` and
the copying of memory succeed, and whether `copyout` does, is left to the environment,
and so is the rest of the kernel, as far as it sleeps on channels of its own.
-/

namespace Process

inductive ProcState
  | unused
  | used
  | sleeping
  | runnable
  | running
  | zombie
  deriving DecidableEq

/-- What `p->chan` points to: a process, a semaphore, or anything else. -/
inductive Chan (nproc : ℕ)
  | proc (i : Fin nproc)
  | sem (id : Fin 10)
  | other (c : ℕ)
  deriving DecidableEq

structure Proc (nproc : ℕ) where
  state : ProcState
  chan : Option (Chan nproc)
  killed : Bool
  pid : ℤ
  isThread : Bool
  detached : Bool
  parent : Option (Fin nproc)
  deriving DecidableEq

/-- `struct semaphore`, with the process that holds `lk`. -/
structure Semaphore (nproc : ℕ) where
  value : ℤ
  initialized : Bool
  lk : Option (Fin nproc)
  deriving DecidableEq

/-- A system call with its arguments; `other c` stands for any that sleeps on the
channel `c`. -/
inductive Syscall
  | fork
  | clone
  | exit
  | wait
  | join
  | kill (pid : ℤ)
  | semInit (id value : ℤ)
  | semWait (id : ℤ)
  | semSignal (id : ℤ)
  | other (c : ℕ)
  deriving DecidableEq

/-- The process `pid` returns from a system call with the value `ret`. -/
structure Event where
  pid : ℤ
  call : Syscall
  ret : ℤ
  deriving DecidableEq

/-- The callers of `sleep_prepare` and `sleep`: `kwait` and `kjoin`, `sys_sem_wait`, and
the rest of the kernel. -/
inductive Waiter
  | wait (thread : Bool)
  | sem (id : Fin 10)
  | other (c : ℕ)
  deriving DecidableEq

/-- Where a call of `wakeup` returns to: the loop of `reparent`, `kexit`, or
`sys_sem_signal`. -/
inductive WakeupCaller
  | reparent (k : ℕ)
  | kexit
  | semSignal (id : Fin 10)
  deriving DecidableEq

/-- The point a process has reached. A flag `thread` tells `kclone` from `kfork` and
`kjoin` from `kwait`; `k` is the index of the loop over the process table. -/
inductive Pc (nproc : ℕ)
  | user
  | trapReturn
  | kclone
  | allocproc (thread : Bool) (k : ℕ)
  | setParent (thread : Bool) (np : Fin nproc)
  | setRunnable (thread : Bool) (np : Fin nproc)
  | kexit
  | reparent (k : ℕ)
  | wakeup (ch : Option (Chan nproc)) (k : ℕ) (caller : WakeupCaller)
  | setZombie
  | exited
  | kwait (thread : Bool)
  | scan (thread : Bool) (k : ℕ) (havekids : Bool)
  | sleepPrepare (w : Waiter)
  | release (w : Waiter)
  | sleep (w : Waiter)
  | kkill (pid : ℤ) (k : ℕ)
  | semInit (id : Fin 10) (value : ℤ)
  | semWait (id : Fin 10)
  | semTest (id : Fin 10)
  | semWoken (id : Fin 10)
  | semKilled (id : Fin 10)
  | semSignal (id : Fin 10)
  | semSignaled (id : Fin 10)
  | otherWoken (c : ℕ)
  deriving DecidableEq

/-- The process table, the kernel's point in each process, and the locks. -/
structure State (nproc : ℕ) where
  proc : Fin nproc → Proc nproc
  pc : Fin nproc → Pc nproc
  waitLock : Option (Fin nproc)
  sem : Fin 10 → Semaphore nproc
  nextpid : ℤ
  initproc : Fin nproc

variable {nproc : ℕ}

/-! ## One process -/

namespace Proc

/-- A slot after `procinit` or `freeproc`. -/
def free : Proc nproc := ⟨.unused, none, false, 0, false, false, none⟩

/-- A slot after `allocproc`, and after `kclone` has set `is_thread`. -/
def fresh (pid : ℤ) (thread : Bool) : Proc nproc := ⟨.used, none, false, pid, thread, false, none⟩

/-- The body of the loop of `wakeup(chan)`. -/
def wakeup (ch : Option (Chan nproc)) (p : Proc nproc) : Proc nproc :=
  if p.chan = ch then
    { p with chan := none, state := if p.state = .sleeping then .runnable else p.state }
  else
    p

def sleep (p : Proc nproc) : Proc nproc :=
  if p.chan = none then p else { p with state := .sleeping }

/-- What `kkill` does to the process it names. -/
def kill (p : Proc nproc) : Proc nproc :=
  { p with killed := true, state := if p.state = .sleeping then .runnable else p.state }

end Proc

/-- The channel of a waiter in slot `i`. -/
def Waiter.chan (w : Waiter) (i : Fin nproc) : Chan nproc :=
  match w with
  | .wait _ => .proc i
  | .sem id => .sem id
  | .other c => .other c

/-- Where a waiter goes on after `sleep`. -/
def Waiter.woken : Waiter → Pc nproc
  | .wait thread => .kwait thread
  | .sem id => .semWoken id
  | .other c => .otherWoken c

/-- Where the caller of `wakeup` goes on. -/
def WakeupCaller.next : WakeupCaller → Pc nproc
  | .reparent k => .reparent (k + 1)
  | .kexit => .setZombie
  | .semSignal id => .semSignaled id

/-- The call that `kfork` and `kclone` serve. -/
def forkCall (thread : Bool) : Syscall := if thread then .clone else .fork

/-- The call that `kwait` and `kjoin` serve. -/
def waitCall (thread : Bool) : Syscall := if thread then .join else .wait

def semIndex (id : ℤ) : Option (Fin 10) :=
  if h : 0 ≤ id ∧ id < 10 then some ⟨id.toNat, TableIndex.toNat_lt_ten h⟩ else none

/-- Where a system call begins; `none` when it rejects its arguments. -/
def Syscall.entry : Syscall → Option (Pc nproc)
  | .fork => some (.allocproc false 0)
  | .clone => some .kclone
  | .exit => some .kexit
  | .wait => some (.kwait false)
  | .join => some (.kwait true)
  | .kill pid => some (.kkill pid 0)
  | .semInit id value => if value < 0 then none else (semIndex id).map fun id => .semInit id value
  | .semWait id => (semIndex id).map .semWait
  | .semSignal id => (semIndex id).map .semSignal
  | .other c => some (.sleepPrepare (.other c))

namespace Pc

/-- The points at which the process holds `wait_lock`. -/
def holdsWaitLock : Pc nproc → Bool
  | reparent _ => true
  | wakeup _ _ (.reparent _) => true
  | wakeup _ _ .kexit => true
  | setZombie => true
  | scan _ _ _ => true
  | sleepPrepare (.wait _) => true
  | release (.wait _) => true
  | _ => false

def holdsSem : Pc nproc → Option (Fin 10)
  | wakeup _ _ (.semSignal id) => some id
  | sleepPrepare (.sem id) => some id
  | release (.sem id) => some id
  | semTest id => some id
  | semKilled id => some id
  | semSignaled id => some id
  | _ => none

/-- A timer interrupt can come: the process holds none of the locks. -/
def preemptible (c : Pc nproc) : Bool := !c.holdsWaitLock && c.holdsSem.isNone

end Pc

/-! ## The table -/

namespace State

@[simps] def setPc (s : State nproc) (i : Fin nproc) (c : Pc nproc) : State nproc :=
  { s with pc := Function.update s.pc i c }

/-- A process at a point that the new one is not like is another one, and was there before. -/
theorem other_of_setPc {P : Pc nproc → Prop} {s : State nproc} {i j : Fin nproc} {c : Pc nproc}
    (hj : P ((s.setPc i c).pc j)) (hc : ¬ P c) : j ≠ i ∧ P (s.pc j) := by
  rw [setPc_pc] at hj
  by_cases hji : j = i
  · rw [hji, Function.update_self] at hj
    exact absurd hj hc
  · rw [Function.update_of_ne hji] at hj
    exact ⟨hji, hj⟩

@[simps] def setProc (s : State nproc) (i : Fin nproc) (p : Proc nproc) : State nproc :=
  { s with proc := Function.update s.proc i p }

@[simps] def setWaitLock (s : State nproc) (l : Option (Fin nproc)) : State nproc :=
  { s with waitLock := l }

@[simps] def setSem (s : State nproc) (id : Fin 10) (x : Semaphore nproc) : State nproc :=
  { s with sem := Function.update s.sem id x }

/-- `allocpid()`. -/
@[simps] def nextPid (s : State nproc) : State nproc := { s with nextpid := s.nextpid + 1 }

end State

/-! ## proc.c, sysproc.c and trap.c -/

section Code

variable (s : State nproc) (i : Fin nproc)

/-- The process in slot `i` returns `r` from the system call `call`, and leaves the state
`s'`. -/
def ret (s' : State nproc) (call : Syscall) (r : ℤ) : State nproc × List Event :=
  (s'.setPc i .trapReturn, [⟨(s.proc i).pid, call, r⟩])

/-- `usertrap()` for a system call. -/
def usertrap (call : Syscall) : State nproc × List Event :=
  if (s.proc i).killed then
    (s.setPc i .kexit, [])
  else
    match call.entry with
    | some c => (s.setPc i c, [])
    | none => ret s i s call (-1)

/-- The end of `usertrap()`. -/
def trapReturn : State nproc × List Event :=
  (s.setPc i (if (s.proc i).killed then .kexit else .user), [])

/-- The loop of `allocproc()` at index `k`, called by `kfork` or `kclone`; `ok` tells
whether the memory of the new process can be allocated, and copied or shared. A new
process starts in `forkret`, on its way to user space. -/
def allocproc (thread : Bool) (k : ℕ) (ok : Bool) : State nproc × List Event :=
  if h : k < nproc then
    if (s.proc ⟨k, h⟩).state = .unused then
      if ok then
        (((s.nextPid.setProc ⟨k, h⟩ (.fresh s.nextpid thread)).setPc ⟨k, h⟩ .user).setPc i
          (.setParent thread ⟨k, h⟩), [])
      else
        ret s i (s.nextPid.setProc ⟨k, h⟩ .free) (forkCall thread) (-1)
    else
      (s.setPc i (.allocproc thread (k + 1)), [])
  else
    ret s i s (forkCall thread) (-1)

/-- `np->parent = p` under `wait_lock`. -/
def setParent (thread : Bool) (np : Fin nproc) : Option (State nproc × List Event) :=
  if s.waitLock = none then
    some ((s.setProc np { s.proc np with parent := some i }).setPc i (.setRunnable thread np), [])
  else
    none

/-- `np->state = RUNNABLE`, and the return of `kfork` or `kclone`. -/
def setRunnable (thread : Bool) (np : Fin nproc) : State nproc × List Event :=
  ret s i (s.setProc np { s.proc np with state := .runnable }) (forkCall thread) (s.proc np).pid

/-- `kexit()` up to the call of `reparent`. -/
def kexit : Option (State nproc × List Event) :=
  if i = s.initproc then
    none
  else if s.waitLock = none then
    some ((s.setWaitLock (some i)).setPc i (.reparent 0), [])
  else
    none

/-- The test of `reparent(p)` for the slot `pp`. -/
def abandoned (pp : Fin nproc) : Bool :=
  (s.proc pp).parent = some i && (!(s.proc pp).isThread || (s.proc pp).detached)

/-- The loop of `reparent(p)` at index `k`, and after it the call `wakeup(p->parent)`. -/
def reparent (k : ℕ) : State nproc × List Event :=
  if h : k < nproc then
    if abandoned s i ⟨k, h⟩ then
      ((s.setProc ⟨k, h⟩ { s.proc ⟨k, h⟩ with
          parent := some s.initproc
          detached := (s.proc ⟨k, h⟩).isThread || (s.proc ⟨k, h⟩).detached }).setPc i
        (.wakeup (some (.proc s.initproc)) 0 (.reparent k)), [])
    else
      (s.setPc i (.reparent (k + 1)), [])
  else
    (s.setPc i (.wakeup ((s.proc i).parent.map .proc) 0 .kexit), [])

/-- The loop of `wakeup(chan)` at index `k`. -/
def wakeup (ch : Option (Chan nproc)) (k : ℕ) (caller : WakeupCaller) :
    State nproc × List Event :=
  if h : k < nproc then
    ((s.setProc ⟨k, h⟩ ((s.proc ⟨k, h⟩).wakeup ch)).setPc i (.wakeup ch (k + 1) caller), [])
  else
    (s.setPc i caller.next, [])

/-- The end of `kexit()`. -/
def setZombie : State nproc × List Event :=
  (((s.setProc i { s.proc i with state := .zombie }).setWaitLock none).setPc i .exited, [])

/-- `acquire(&wait_lock)` in `kwait` and `kjoin`. -/
def kwait (thread : Bool) : Option (State nproc × List Event) :=
  if s.waitLock = none then
    some ((s.setWaitLock (some i)).setPc i (.scan thread 0 false), [])
  else
    none

/-- The test of `kwait` or `kjoin` for the slot `pp`. -/
def isChild (thread : Bool) (pp : Fin nproc) : Bool :=
  (s.proc pp).parent = some i && (!thread || (s.proc pp).isThread)

/-- The loop of `kwait` or `kjoin` over the process table at index `k`, and the test
after it; `ok` tells whether the `copyout` of `kwait` succeeds. -/
def scan (thread : Bool) (k : ℕ) (havekids ok : Bool) : State nproc × List Event :=
  if h : k < nproc then
    if isChild s i thread ⟨k, h⟩ then
      if (s.proc ⟨k, h⟩).state = .zombie then
        if thread || ok then
          ret s i ((s.setProc ⟨k, h⟩ .free).setWaitLock none) (waitCall thread) (s.proc ⟨k, h⟩).pid
        else
          ret s i (s.setWaitLock none) (waitCall thread) (-1)
      else
        (s.setPc i (.scan thread (k + 1) true), [])
    else
      (s.setPc i (.scan thread (k + 1) havekids), [])
  else if !havekids || (s.proc i).killed then
    ret s i (s.setWaitLock none) (waitCall thread) (-1)
  else
    (s.setPc i (.sleepPrepare (.wait thread)), [])

def sleepPrepare (w : Waiter) : State nproc × List Event :=
  ((s.setProc i { s.proc i with chan := some (w.chan i) }).setPc i (.release w), [])

/-- The release of the waiter's lock between `sleep_prepare` and `sleep`. -/
def release (w : Waiter) : State nproc × List Event :=
  match w with
  | .wait thread => ((s.setWaitLock none).setPc i (.sleep (.wait thread)), [])
  | .sem id => ((s.setSem id { s.sem id with lk := none }).setPc i (.sleep (.sem id)), [])
  | .other c => (s.setPc i (.sleep (.other c)), [])

def sleep (w : Waiter) : State nproc × List Event :=
  ((s.setProc i (s.proc i).sleep).setPc i w.woken, [])

/-- The loop of `kkill(pid)` at index `k`. -/
def kkill (pid : ℤ) (k : ℕ) : State nproc × List Event :=
  if h : k < nproc then
    if (s.proc ⟨k, h⟩).pid = pid then
      ret s i (s.setProc ⟨k, h⟩ (s.proc ⟨k, h⟩).kill) (.kill pid) 0
    else
      (s.setPc i (.kkill pid (k + 1)), [])
  else
    ret s i s (.kill pid) (-1)

/-- `sys_sem_init()` after the test of its arguments. -/
def sysSemInit (id : Fin 10) (value : ℤ) : Option (State nproc × List Event) :=
  if (s.sem id).lk = none then
    some (ret s i (s.setSem id ⟨value, true, none⟩) (.semInit id value) 0)
  else
    none

/-- `sys_sem_wait()` up to its loop. -/
def sysSemWait (id : Fin 10) : Option (State nproc × List Event) :=
  if (s.sem id).lk = none then
    if (s.sem id).initialized then
      some ((s.setSem id { s.sem id with lk := some i }).setPc i (.semTest id), [])
    else
      some (ret s i s (.semWait id) (-1))
  else
    none

/-- The condition of the loop of `sys_sem_wait()`, and what follows the loop. -/
def semTest (id : Fin 10) : State nproc × List Event :=
  if (s.sem id).value = 0 then
    (s.setPc i (.sleepPrepare (.sem id)), [])
  else
    ret s i (s.setSem id { s.sem id with value := (s.sem id).value - 1, lk := none })
      (.semWait id) 0

/-- `acquire(&semaphores[id].lk)` after `sleep()`. -/
def semWoken (id : Fin 10) : Option (State nproc × List Event) :=
  if (s.sem id).lk = none then
    some ((s.setSem id { s.sem id with lk := some i }).setPc i (.semKilled id), [])
  else
    none

/-- The test of `killed(myproc())` in the loop of `sys_sem_wait()`. -/
def semKilled (id : Fin 10) : State nproc × List Event :=
  if (s.proc i).killed then
    ret s i (s.setSem id { s.sem id with lk := none }) (.semWait id) (-1)
  else
    (s.setPc i (.semTest id), [])

/-- `sys_sem_signal()` up to the call of `wakeup`. -/
def sysSemSignal (id : Fin 10) : Option (State nproc × List Event) :=
  if (s.sem id).lk = none then
    if (s.sem id).initialized then
      some ((s.setSem id { s.sem id with value := (s.sem id).value + 1, lk := some i }).setPc i
        (.wakeup (some (.sem id)) 0 (.semSignal id)), [])
    else
      some (ret s i s (.semSignal id) (-1))
  else
    none

/-- The end of `sys_sem_signal()`. -/
def semSignaled (id : Fin 10) : State nproc × List Event :=
  ret s i (s.setSem id { s.sem id with lk := none }) (.semSignal id) 0

/-- The next step of the process in slot `i`. `ok` is what the environment decides: the
success of an allocation or a copy, and whether other kernel code sleeps again. -/
def advance (ok : Bool) : Option (State nproc × List Event) :=
  match s.pc i with
  | .user => none
  | .trapReturn => some (trapReturn s i)
  | .kclone => some (if ok then (s.setPc i (.allocproc true 0), []) else ret s i s .clone (-1))
  | .allocproc thread k => some (allocproc s i thread k ok)
  | .setParent thread np => setParent s i thread np
  | .setRunnable thread np => some (setRunnable s i thread np)
  | .kexit => kexit s i
  | .reparent k => some (reparent s i k)
  | .wakeup ch k caller => some (wakeup s i ch k caller)
  | .setZombie => some (setZombie s i)
  | .exited => none
  | .kwait thread => kwait s i thread
  | .scan thread k havekids => some (scan s i thread k havekids ok)
  | .sleepPrepare w => some (sleepPrepare s i w)
  | .release w => some (release s i w)
  | .sleep w => some (sleep s i w)
  | .kkill pid k => some (kkill s i pid k)
  | .semInit id value => sysSemInit s i id value
  | .semWait id => sysSemWait s i id
  | .semTest id => some (semTest s i id)
  | .semWoken id => semWoken s i id
  | .semKilled id => some (semKilled s i id)
  | .semSignal id => sysSemSignal s i id
  | .semSignaled id => some (semSignaled s i id)
  | .otherWoken c =>
      some (if ok then ret s i s (.other c) 0 else (s.setPc i (.sleepPrepare (.other c)), []))

end Code

/-! ## Steps -/

/-- What can happen next: a CPU dispatches a process, a timer interrupt takes the CPU
from one, a user program makes a system call or an access that `vmfault` cannot serve,
a process goes on in the kernel, and other code wakes one slot of a channel. -/
inductive Action (nproc : ℕ)
  | dispatch (i : Fin nproc)
  | yield (i : Fin nproc)
  | trap (i : Fin nproc) (call : Syscall)
  | fault (i : Fin nproc)
  | advance (i : Fin nproc) (ok : Bool)
  | wakeOther (i : Fin nproc) (c : ℕ)
  deriving DecidableEq

/-- If the action is a step of a process in the kernel, it satisfies `P`. -/
def Action.OnAdvance (P : Fin nproc → Bool → Prop) : Action nproc → Prop
  | .advance i ok => P i ok
  | _ => True

instance Action.decidableOnAdvance (P : Fin nproc → Bool → Prop) [∀ i ok, Decidable (P i ok)] :
    DecidablePred (Action.OnAdvance P)
  | .advance i ok => inferInstanceAs (Decidable (P i ok))
  | .dispatch _ | .yield _ | .trap _ _ | .fault _ | .wakeOther _ _ => .isTrue trivial

def step (s : State nproc) : Action nproc → Option (State nproc × List Event)
  | .dispatch i =>
      if (s.proc i).state = .runnable then
        some (s.setProc i { s.proc i with state := .running }, [])
      else
        none
  | .yield i =>
      if (s.proc i).state = .running ∧ (s.pc i).preemptible then
        some (s.setProc i { s.proc i with state := .runnable }, [])
      else
        none
  | .trap i call =>
      if (s.proc i).state = .running ∧ s.pc i = .user then some (usertrap s i call) else none
  | .fault i =>
      if (s.proc i).state = .running ∧ s.pc i = .user then
        some ((s.setProc i { s.proc i with killed := true }).setPc i .kexit, [])
      else
        none
  | .advance i ok => if (s.proc i).state = .running then advance s i ok else none
  | .wakeOther i c => some (s.setProc i ((s.proc i).wakeup (some (.other c))), [])

/-- The state after `userinit()`. -/
def boot (initproc : Fin nproc) : State nproc where
  proc i := if i = initproc then { Proc.fresh 1 false with state := .runnable } else .free
  pc _ := .user
  waitLock := none
  sem _ := ⟨0, false, none⟩
  nextpid := 2
  initproc := initproc

/-- The process in slot `i` makes `k` steps in the kernel, and whatever it needs succeeds. -/
def go (i : Fin nproc) (k : ℕ) : List (Action nproc) := List.replicate k (.advance i true)

/-- In a table of three slots, the first process forks and its child is dispatched. -/
def forkFirst : List (Action 3) := [.dispatch 0, .trap 0 .fork] ++ go 0 5 ++ [.dispatch 1]

end Process
