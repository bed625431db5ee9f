import Mathlib.Algebra.GroupWithZero.Nat
import Mathlib.Data.Fin.Basic
import Mathlib.Logic.Function.Basic
import Mathlib.Tactic.Simps.Basic
import OsAssignments.Library.EventRun
import OsAssignments.Library.MachineInt
import OsAssignments.Library.TableIndex

/-!
# The process table of the Assignment 4 kernel

The calls of proc.c and sysproc.c that create, end, wait for and kill processes, and those
on semaphores. Each process in the kernel has a program counter `Pc`. What the source does
while it holds a `p->lock` is a part of one step; the sections under `wait_lock` and under
the lock of a semaphore are several steps. `found:` of `allocproc` does not write
`p->killed`, and `kkill` compares `p->pid` in every slot, whatever its state.

The success of an allocation or a copy is left to the environment, and so is the rest of
the kernel: other code may sleep on channels of its own, and may call `setkilled` on the
process that runs. The step of a process that would `panic` is not possible.
-/

namespace Assignment4

open MachineInt

inductive ProcState
  | unused
  | used
  | sleeping
  | runnable
  | running
  | zombie
  deriving DecidableEq

/-- What `p->chan` points to: a process, an entry of `sem_count`, or anything else. -/
inductive Chan (nproc : ℕ)
  | proc (i : Fin nproc)
  | sem (id : Fin 10)
  | other (c : ℕ)
  deriving DecidableEq

structure Proc (nproc : ℕ) where
  state : ProcState
  chan : Option (Chan nproc)
  killed : Bool
  pid : ℤ
  parent : Option (Fin nproc)
  deriving DecidableEq

/-- A system call with its arguments; `other c` stands for any that sleeps on the
channel `c`. -/
inductive Syscall
  | fork
  | exit
  | wait
  | kill (pid : ℤ)
  | semInit (id val : ℤ)
  | semDown (id : ℤ)
  | semUp (id : ℤ)
  | other (c : ℕ)
  deriving DecidableEq

/-- What a run tells: a process `pid` begins in the slot `k`, a `kkill(pid)` or a `setkilled`
hits the slot `k`, and the process `pid` returns `r` from a system call. -/
inductive Event (nproc : ℕ)
  | created (k : Fin nproc) (pid : ℤ)
  | kill (k : Fin nproc) (pid : ℤ)
  | setkilled (k : Fin nproc)
  | ret (pid : ℤ) (call : Syscall) (r : ℤ)
  deriving DecidableEq

/-- The callers of `sleep_prepare` and `sleep`: `kwait`, `sys_sem_down`, and the rest of the
kernel. -/
inductive Waiter
  | wait
  | sem (id : Fin 10)
  | other (c : ℕ)
  deriving DecidableEq

/-- Where a call of `wakeup` returns to: the loop of `reparent`, `kexit`, or `sys_sem_up`. -/
inductive WakeupCaller
  | reparent (k : ℕ)
  | kexit
  | semUp (id : Fin 10)
  deriving DecidableEq

/-- The point a process has reached; `k` is the index of a loop over the process table, or
over the semaphores. -/
inductive Pc (nproc : ℕ)
  | user
  | allocproc (k : ℕ)
  | setParent (np : Fin nproc)
  | setRunnable (np : Fin nproc)
  | kexit
  | reparent (k : ℕ)
  | wakeup (ch : Option (Chan nproc)) (k : ℕ) (caller : WakeupCaller)
  | setZombie
  | exited
  | kwait
  | scan (k : ℕ) (havekids : Bool)
  | sleepPrepare (w : Waiter)
  | release (w : Waiter)
  | sleep (w : Waiter)
  | kkill (pid : ℤ) (k : ℕ)
  | semInit (id : Fin 10) (val : ℤ)
  | initlock (k id : Fin 10) (val : ℤ)
  | setInitialized (id : Fin 10) (val : ℤ)
  | setCount (id : Fin 10) (val : ℤ)
  | semDown (id : Fin 10)
  | semTest (id : Fin 10)
  | semUp (id : Fin 10)
  | semUpped (id : Fin 10)
  | otherWoken (c : ℕ)
  deriving DecidableEq

/-- The process table, the kernel's point in each process, `sem_lock` with the process that
holds each lock, `sem_count` and `sem_initialized`. -/
structure State (nproc : ℕ) where
  proc : Fin nproc → Proc nproc
  pc : Fin nproc → Pc nproc
  waitLock : Option (Fin nproc)
  semLock : Fin 10 → Option (Fin nproc)
  semCount : Fin 10 → ℤ
  semInitialized : Bool
  nextpid : ℤ
  initproc : Fin nproc

variable {nproc : ℕ}

/-! ## One process -/

namespace Proc

def zero : Proc nproc := ⟨.unused, none, false, 0, none⟩

def freeproc (p : Proc nproc) : Proc nproc :=
  { p with pid := 0, chan := none, killed := false, state := .unused }

/-- `allocproc()` from `found:` on. -/
def found (p : Proc nproc) (pid : ℤ) : Proc nproc := { p with pid := pid, state := .used }

/-- The body of the loop of `wakeup(chan)`. -/
def wakeup (ch : Option (Chan nproc)) (p : Proc nproc) : Proc nproc :=
  if p.chan = ch then
    { p with chan := none, state := if p.state = .sleeping then .runnable else p.state }
  else
    p

def sleep (p : Proc nproc) : Proc nproc :=
  if p.chan = none then p else { p with state := .sleeping }

/-- What `kkill` does in the slot it stops at. -/
def kill (p : Proc nproc) : Proc nproc :=
  { p with killed := true, state := if p.state = .sleeping then .runnable else p.state }

end Proc

/-- The channel of a waiter in slot `i`. -/
def Waiter.chan (w : Waiter) (i : Fin nproc) : Chan nproc :=
  match w with
  | .wait => .proc i
  | .sem id => .sem id
  | .other c => .other c

/-- Where a waiter goes on after `sleep`. In `sys_sem_down` this is
`acquire(&sem_lock[id])`, and then the condition of the loop. -/
def Waiter.woken : Waiter → Pc nproc
  | .wait => .kwait
  | .sem id => .semDown id
  | .other c => .otherWoken c

/-- Where the caller of `wakeup` goes on. -/
def WakeupCaller.next : WakeupCaller → Pc nproc
  | .reparent k => .reparent (k + 1)
  | .kexit => .setZombie
  | .semUp id => .semUpped id

/-- The test of `id` in the calls on semaphores. -/
def semIndex (id : ℤ) : Option (Fin 10) :=
  if h : 0 ≤ id ∧ id < 10 then some ⟨id.toNat, TableIndex.toNat_lt_ten h⟩ else none

/-- Where a system call begins; `none` when it rejects its arguments. -/
def Syscall.entry : Syscall → Option (Pc nproc)
  | .fork => some (.allocproc 0)
  | .exit => some .kexit
  | .wait => some .kwait
  | .kill pid => some (.kkill pid 0)
  | .semInit id val => (semIndex id).map fun id => .semInit id val
  | .semDown id => (semIndex id).map .semDown
  | .semUp id => (semIndex id).map .semUp
  | .other c => some (.sleepPrepare (.other c))

namespace Pc

/-- The points at which the process holds `wait_lock`. -/
def holdsWaitLock : Pc nproc → Bool
  | reparent _ => true
  | wakeup _ _ (.reparent _) => true
  | wakeup _ _ .kexit => true
  | setZombie => true
  | scan _ _ => true
  | sleepPrepare .wait => true
  | release .wait => true
  | _ => false

/-- The points at which the process is between acquire and release of a semaphore's lock. -/
def holdsSem : Pc nproc → Bool
  | wakeup _ _ (.semUp _) => true
  | sleepPrepare (.sem _) => true
  | release (.sem _) => true
  | semTest _ => true
  | semUpped _ => true
  | _ => false

/-- A timer interrupt can come: the process holds none of the locks. -/
def preemptible (c : Pc nproc) : Bool := !c.holdsWaitLock && !c.holdsSem

end Pc

/-! ## The table -/

namespace State

@[simps] def setPc (s : State nproc) (i : Fin nproc) (c : Pc nproc) : State nproc :=
  { s with pc := Function.update s.pc i c }

@[simps] def setProc (s : State nproc) (i : Fin nproc) (p : Proc nproc) : State nproc :=
  { s with proc := Function.update s.proc i p }

@[simps] def setWaitLock (s : State nproc) (l : Option (Fin nproc)) : State nproc :=
  { s with waitLock := l }

@[simps] def setSemLock (s : State nproc) (id : Fin 10) (l : Option (Fin nproc)) : State nproc :=
  { s with semLock := Function.update s.semLock id l }

@[simps] def setSemCount (s : State nproc) (id : Fin 10) (v : ℤ) : State nproc :=
  { s with semCount := Function.update s.semCount id v }

@[simps] def setSemInitialized (s : State nproc) : State nproc := { s with semInitialized := true }

/-- `allocpid()`. -/
@[simps] def nextPid (s : State nproc) : State nproc :=
  { s with nextpid := wrap 32 (s.nextpid + 1) }

end State

/-! ## proc.c and sysproc.c -/

section Code

variable (s : State nproc) (i : Fin nproc)

/-- The process in slot `i` returns `r` from the system call `call`, and leaves the state
`s'`. -/
def ret (s' : State nproc) (call : Syscall) (r : ℤ) : State nproc × List (Event nproc) :=
  (s'.setPc i .user, [.ret (s.proc i).pid call r])

/-- The loop of `allocproc()` at index `k`, called by `kfork`; `ok` tells whether the memory
of the new process can be allocated and copied. A new process starts in `forkret`, on its
way to user space. -/
def allocproc (k : ℕ) (ok : Bool) : State nproc × List (Event nproc) :=
  if h : k < nproc then
    let p := s.proc ⟨k, h⟩
    if p.state = .unused then
      if ok then
        (((s.nextPid.setProc ⟨k, h⟩ (p.found s.nextpid)).setPc ⟨k, h⟩ .user).setPc i
          (.setParent ⟨k, h⟩), [.created ⟨k, h⟩ s.nextpid])
      else
        ret s i (s.nextPid.setProc ⟨k, h⟩ (p.found s.nextpid).freeproc) .fork (-1)
    else
      (s.setPc i (.allocproc (k + 1)), [])
  else
    ret s i s .fork (-1)

/-- `np->parent = p` under `wait_lock`. -/
def setParent (np : Fin nproc) : Option (State nproc × List (Event nproc)) :=
  if s.waitLock = none then
    some ((s.setProc np { s.proc np with parent := some i }).setPc i (.setRunnable np), [])
  else
    none

/-- `np->state = RUNNABLE`, and the return of `kfork`. -/
def setRunnable (np : Fin nproc) : State nproc × List (Event nproc) :=
  ret s i (s.setProc np { s.proc np with state := .runnable }) .fork (s.proc np).pid

/-- `kexit()` up to the call of `reparent`; it panics in `initproc`. -/
def kexit : Option (State nproc × List (Event nproc)) :=
  if i = s.initproc then
    none
  else if s.waitLock = none then
    some ((s.setWaitLock (some i)).setPc i (.reparent 0), [])
  else
    none

/-- The loop of `reparent(p)` at index `k`, and after it the call `wakeup(p->parent)`. -/
def reparent (k : ℕ) : State nproc × List (Event nproc) :=
  if h : k < nproc then
    if (s.proc ⟨k, h⟩).parent = some i then
      ((s.setProc ⟨k, h⟩ { s.proc ⟨k, h⟩ with parent := some s.initproc }).setPc i
        (.wakeup (some (.proc s.initproc)) 0 (.reparent k)), [])
    else
      (s.setPc i (.reparent (k + 1)), [])
  else
    (s.setPc i (.wakeup ((s.proc i).parent.map .proc) 0 .kexit), [])

/-- The loop of `wakeup(chan)` at index `k`. -/
def wakeup (ch : Option (Chan nproc)) (k : ℕ) (caller : WakeupCaller) :
    State nproc × List (Event nproc) :=
  if h : k < nproc then
    ((s.setProc ⟨k, h⟩ ((s.proc ⟨k, h⟩).wakeup ch)).setPc i (.wakeup ch (k + 1) caller), [])
  else
    (s.setPc i caller.next, [])

/-- The end of `kexit()`. -/
def setZombie : State nproc × List (Event nproc) :=
  (((s.setProc i { s.proc i with state := .zombie }).setWaitLock none).setPc i .exited, [])

/-- `acquire(&wait_lock)` in `kwait`. -/
def kwait : Option (State nproc × List (Event nproc)) :=
  if s.waitLock = none then
    some ((s.setWaitLock (some i)).setPc i (.scan 0 false), [])
  else
    none

/-- The loop of `kwait` over the process table at index `k`, and the test after it; `ok`
tells whether the `copyout` succeeds. -/
def scan (k : ℕ) (havekids ok : Bool) : State nproc × List (Event nproc) :=
  if h : k < nproc then
    let pp := s.proc ⟨k, h⟩
    if pp.parent = some i then
      if pp.state = .zombie then
        if ok then
          ret s i ((s.setProc ⟨k, h⟩ { pp.freeproc with parent := none }).setWaitLock none)
            .wait pp.pid
        else
          ret s i (s.setWaitLock none) .wait (-1)
      else
        (s.setPc i (.scan (k + 1) true), [])
    else
      (s.setPc i (.scan (k + 1) havekids), [])
  else if !havekids || (s.proc i).killed then
    ret s i (s.setWaitLock none) .wait (-1)
  else
    (s.setPc i (.sleepPrepare .wait), [])

def sleepPrepare (w : Waiter) : State nproc × List (Event nproc) :=
  ((s.setProc i { s.proc i with chan := some (w.chan i) }).setPc i (.release w), [])

/-- The release of the waiter's lock between `sleep_prepare` and `sleep`; `release` panics
on a lock of a semaphore that the process does not hold. -/
def release (w : Waiter) : Option (State nproc × List (Event nproc)) :=
  match w with
  | .wait => some ((s.setWaitLock none).setPc i (.sleep .wait), [])
  | .sem id =>
      if s.semLock id = some i then
        some ((s.setSemLock id none).setPc i (.sleep (.sem id)), [])
      else
        none
  | .other c => some (s.setPc i (.sleep (.other c)), [])

def sleep (w : Waiter) : State nproc × List (Event nproc) :=
  ((s.setProc i (s.proc i).sleep).setPc i w.woken, [])

/-- The loop of `kkill(pid)` at index `k`. -/
def kkill (pid : ℤ) (k : ℕ) : State nproc × List (Event nproc) :=
  if h : k < nproc then
    if (s.proc ⟨k, h⟩).pid = pid then
      ((s.setProc ⟨k, h⟩ (s.proc ⟨k, h⟩).kill).setPc i .user,
        [.kill ⟨k, h⟩ pid, .ret (s.proc i).pid (.kill pid) 0])
    else
      (s.setPc i (.kkill pid (k + 1)), [])
  else
    ret s i s (.kill pid) (-1)

/-- The test of `sem_initialized` in `sys_sem_init()`. -/
def sysSemInit (id : Fin 10) (val : ℤ) : State nproc × List (Event nproc) :=
  (s.setPc i (if s.semInitialized then .setCount id val else .initlock 0 id val), [])

/-- `initlock(&sem_lock[k])` in the loop of `sys_sem_init()`. -/
def initlock (k id : Fin 10) (val : ℤ) : State nproc × List (Event nproc) :=
  ((s.setSemLock k none).setPc i
    (if h : k.val + 1 < 10 then .initlock ⟨k.val + 1, h⟩ id val else .setInitialized id val), [])

/-- The section of `sys_sem_init()` under `sem_lock[id]`. -/
def setCount (id : Fin 10) (val : ℤ) : Option (State nproc × List (Event nproc)) :=
  if s.semLock id = none then
    some (ret s i (s.setSemCount id val) (.semInit id val) 0)
  else
    none

/-- `acquire(&sem_lock[id])` in `sys_sem_down()`, before the loop and at its end. -/
def sysSemDown (id : Fin 10) : Option (State nproc × List (Event nproc)) :=
  if s.semLock id = none then
    some ((s.setSemLock id (some i)).setPc i (.semTest id), [])
  else
    none

/-- The condition of the loop of `sys_sem_down()`, and what follows the loop. -/
def semTest (id : Fin 10) : Option (State nproc × List (Event nproc)) :=
  if s.semCount id ≤ 0 then
    some (s.setPc i (.sleepPrepare (.sem id)), [])
  else if s.semLock id = some i then
    some (ret s i ((s.setSemCount id (wrap 32 (s.semCount id - 1))).setSemLock id none)
      (.semDown id) 0)
  else
    none

/-- `sys_sem_up()` up to the call of `wakeup`. -/
def sysSemUp (id : Fin 10) : Option (State nproc × List (Event nproc)) :=
  if s.semLock id = none then
    some (((s.setSemCount id (wrap 32 (s.semCount id + 1))).setSemLock id (some i)).setPc i
      (.wakeup (some (.sem id)) 0 (.semUp id)), [])
  else
    none

/-- The end of `sys_sem_up()`. -/
def semUpped (id : Fin 10) : Option (State nproc × List (Event nproc)) :=
  if s.semLock id = some i then
    some (ret s i (s.setSemLock id none) (.semUp id) 0)
  else
    none

/-- The next step of the process in slot `i`. `ok` is what the environment decides: the
success of an allocation or a copy, and whether other kernel code sleeps again. -/
def advance (ok : Bool) : Option (State nproc × List (Event nproc)) :=
  match s.pc i with
  | .user => none
  | .allocproc k => some (allocproc s i k ok)
  | .setParent np => setParent s i np
  | .setRunnable np => some (setRunnable s i np)
  | .kexit => kexit s i
  | .reparent k => some (reparent s i k)
  | .wakeup ch k caller => some (wakeup s i ch k caller)
  | .setZombie => some (setZombie s i)
  | .exited => none
  | .kwait => kwait s i
  | .scan k havekids => some (scan s i k havekids ok)
  | .sleepPrepare w => some (sleepPrepare s i w)
  | .release w => release s i w
  | .sleep w => some (sleep s i w)
  | .kkill pid k => some (kkill s i pid k)
  | .semInit id val => some (sysSemInit s i id val)
  | .initlock k id val => some (initlock s i k id val)
  | .setInitialized id val => some (s.setSemInitialized.setPc i (.setCount id val), [])
  | .setCount id val => setCount s i id val
  | .semDown id => sysSemDown s i id
  | .semTest id => semTest s i id
  | .semUp id => sysSemUp s i id
  | .semUpped id => semUpped s i id
  | .otherWoken c =>
      some (if ok then ret s i s (.other c) 0 else (s.setPc i (.sleepPrepare (.other c)), []))

end Code

/-! ## Steps -/

/-- What can happen next: a CPU dispatches a process, a timer interrupt takes the CPU from
one, a user program makes a system call, `setkilled` hits the process that runs, a process
goes on in the kernel, and other code wakes one slot of a channel. -/
inductive Action (nproc : ℕ)
  | dispatch (i : Fin nproc)
  | yield (i : Fin nproc)
  | trap (i : Fin nproc) (call : Syscall)
  | setkilled (i : Fin nproc)
  | advance (i : Fin nproc) (ok : Bool)
  | wakeOther (i : Fin nproc) (c : ℕ)
  deriving DecidableEq

/-- If the action is a step of a process in the kernel, it satisfies `P`. -/
def Action.OnAdvance (P : Fin nproc → Bool → Prop) : Action nproc → Prop
  | .advance i ok => P i ok
  | _ => True

instance Action.decidableOnAdvance (P : Fin nproc → Bool → Prop) [∀ i ok, Decidable (P i ok)] :
    DecidablePred (Action.OnAdvance P)
  | .advance i ok => inferInstanceAs (Decidable (P i ok))
  | .dispatch _ | .yield _ | .trap _ _ | .setkilled _ | .wakeOther _ _ => .isTrue trivial

def step (s : State nproc) : Action nproc → Option (State nproc × List (Event nproc))
  | .dispatch i =>
      if (s.proc i).state = .runnable then
        some (s.setProc i { s.proc i with state := .running }, [])
      else
        none
  | .yield i =>
      if (s.proc i).state = .running ∧ (s.pc i).preemptible then
        some (s.setProc i { s.proc i with state := .runnable }, [])
      else
        none
  | .trap i call =>
      if (s.proc i).state = .running ∧ s.pc i = .user then
        match call.entry with
        | some c => some (s.setPc i c, [])
        | none => some (ret s i s call (-1))
      else
        none
  | .setkilled i =>
      if (s.proc i).state = .running then
        some (s.setProc i { s.proc i with killed := true }, [.setkilled i])
      else
        none
  | .advance i ok => if (s.proc i).state = .running then advance s i ok else none
  | .wakeOther i c => some (s.setProc i ((s.proc i).wakeup (some (.other c))), [])

/-- The state after `userinit()`. -/
def boot (initproc : Fin nproc) : State nproc where
  proc i := if i = initproc then { Proc.zero.found 1 with state := .runnable } else .zero
  pc _ := .user
  waitLock := none
  semLock _ := none
  semCount _ := 0
  semInitialized := false
  nextpid := 2
  initproc := initproc

/-- The process in slot `i` makes `k` steps in the kernel, and whatever it needs succeeds. -/
def go (i : Fin nproc) (k : ℕ) : List (Action nproc) := List.replicate k (.advance i true)

/-- In a table of three slots, the process that runs first forks. -/
def forkFirst : List (Action 3) := [.trap 0 .fork] ++ go 0 4

end Assignment4
