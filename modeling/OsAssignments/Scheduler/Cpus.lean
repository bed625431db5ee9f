import Mathlib.Algebra.BigOperators.Fin
import OsAssignments.Process.Table

/-!
# CPUs and the scheduler

The CPUs of the Assignment 7 kernel, each of which runs `scheduler()` and the process it
has picked, over the process table. A critical section under a `p->lock` is one step,
except where it spans a `swtch`: the lock is taken on one side and given back on the
other, so the model has its holder. A CPU that runs a process makes the steps of the
kernel in that process, which are those of the process table; a step that takes a
`p->lock` is possible only while the lock is free. A timer interrupt comes where
interrupts are on: between `intr_on()` and `intr_off()` in the scheduler, and in a process
that holds no lock; CPU 0 then calls `age_processes`, and a process gives up its CPU.

`struct proc`'s `priority` and `wait_ticks` are here and not in the process table, since
nothing else reads them, and so is a process's place in `ksetpriority`.
-/

namespace Scheduler

open Process (usertrap advance isChild)

/-- What can be seen of a step: a process returns from a system call, a CPU dispatches a
process or goes idle, `age_processes` returns, a priority is set, and a slot is freed. -/
inductive Event (ncpu nproc : ℕ)
  | call (e : Process.Event)
  | dispatch (c : Fin ncpu) (p : Fin nproc)
  | wfi (c : Fin ncpu)
  | aged
  | setPriority (p : Fin nproc)
  | freeproc (p : Fin nproc)
  deriving DecidableEq

/-- Where a CPU is. In `scheduler()`: at the top of its loop, in the loop over the table,
at the `if (best)` with a candidate, at the `wfi`, and back from `swtch`. In the process it
runs: back from `swtch` and about to release `p->lock`, or anywhere in its code. In the
timer interrupt: in the loop of `age_processes`, and after it with a process to preempt. -/
inductive CpuPc
  | round
  | scan (off : ℕ)
  | dispatch
  | wfi
  | back
  | switched
  | process
  | age (k : ℕ)
  | interrupted
  deriving DecidableEq

/-- A CPU with `c->proc` and the variables of `scheduler()`. -/
structure Cpu (nproc : ℕ) where
  proc : Option (Fin nproc)
  cursor : ℕ
  best : Option (Fin nproc)
  bestPriority : ℤ
  pc : CpuPc

/-- A process in `sys_set_priority`: in the loop of `ksetpriority(pid, priority)` at index
`k`, or on its way back to user space. -/
inductive Setting
  | loop (pid priority : ℤ) (k : ℕ)
  | done
  deriving DecidableEq

structure State (ncpu nproc : ℕ) where
  table : Process.State nproc
  priority : Fin nproc → ℤ
  waitTicks : Fin nproc → ℤ
  setting : Fin nproc → Option Setting
  lock : Fin nproc → Option (Fin ncpu)
  cpu : Fin ncpu → Cpu nproc

variable {ncpu nproc : ℕ}

namespace State

@[simps] def setTable (s : State ncpu nproc) (t : Process.State nproc) : State ncpu nproc :=
  { s with table := t }

@[simps] def setPriority (s : State ncpu nproc) (p : Fin nproc) (priority ticks : ℤ) :
    State ncpu nproc :=
  { s with
    priority := Function.update s.priority p priority
    waitTicks := Function.update s.waitTicks p ticks }

@[simps] def setSetting (s : State ncpu nproc) (p : Fin nproc) (x : Option Setting) :
    State ncpu nproc :=
  { s with setting := Function.update s.setting p x }

@[simps] def setLock (s : State ncpu nproc) (p : Fin nproc) (l : Option (Fin ncpu)) :
    State ncpu nproc :=
  { s with lock := Function.update s.lock p l }

@[simps] def setCpu (s : State ncpu nproc) (c : Fin ncpu) (x : Cpu nproc) : State ncpu nproc :=
  { s with cpu := Function.update s.cpu c x }

def goto (s : State ncpu nproc) (c : Fin ncpu) (pc : CpuPc) : State ncpu nproc :=
  s.setCpu c { s.cpu c with pc := pc }

end State

/-! ## The process table as a CPU sees it -/

section Table

variable (t : Process.State nproc) (i : Fin nproc)

def slot (nproc k : ℕ) : Option (Fin nproc) := if h : k < nproc then some ⟨k, h⟩ else none

/-- The slot whose `p->lock` the next step of the process in slot `i` takes. -/
def acquires : Option (Fin nproc) :=
  match t.pc i with
  | .trapReturn => some i
  | .allocproc _ k => slot nproc k
  | .setRunnable _ np => some np
  | .wakeup _ k _ => slot nproc k
  | .setZombie => some i
  | .scan thread k _ =>
      match slot nproc k with
      | some pp => if isChild t i thread pp then some pp else none
      | none => some i
  | .sleepPrepare _ => some i
  | .sleep _ => some i
  | .kkill _ k => slot nproc k
  | .semKilled _ => some i
  | _ => none

/-- The slot for which the next step of the process in slot `i` calls `allocproc`. -/
def allocates : Option (Fin nproc) :=
  match t.pc i with
  | .allocproc _ k => (slot nproc k).filter fun p => (t.proc p).state = .unused
  | _ => none

/-- The slot for which the next step of the process in slot `i` calls `freeproc`. -/
def frees (ok : Bool) : Option (Fin nproc) :=
  match t.pc i with
  | .allocproc _ k =>
      if ok then none else (slot nproc k).filter fun p => (t.proc p).state = .unused
  | .scan thread k _ =>
      (slot nproc k).filter fun p =>
        isChild t i thread p && decide ((t.proc p).state = .zombie) && (thread || ok)
  | _ => none

/-- The next step of the process in slot `i` ends in `sched()`. -/
def schedules : Bool :=
  match t.pc i with
  | .sleep _ => (t.proc i).chan.isSome
  | .setZombie => true
  | _ => false

end Table

/-! ## scheduler() -/

section Code

variable (s : State ncpu nproc) (c : Fin ncpu)

/-- The slot at offset `off` from the cursor. -/
def index (cursor : ℕ) {off : ℕ} (h : off < nproc) : Fin nproc :=
  ⟨(cursor + off) % nproc, Nat.mod_lt _ (Nat.zero_lt_of_lt h)⟩

def round : State ncpu nproc :=
  s.setCpu c { s.cpu c with best := none, bestPriority := 21, pc := .scan 0 }

/-- The test of the loop over the table for the slot `p`, and the step to the next offset. -/
def look (x : Cpu nproc) (p : Fin nproc) (off : ℕ) : Cpu nproc :=
  if (s.table.proc p).state = .runnable ∧ s.priority p < x.bestPriority then
    { x with best := some p, bestPriority := s.priority p, pc := .scan (off + 1) }
  else
    { x with pc := .scan (off + 1) }

/-- The loop over the table at offset `off`, and the test of `best` after it. -/
def scan (off : ℕ) : Option (State ncpu nproc × List (Event ncpu nproc)) :=
  if h : off < nproc then
    if s.lock (index (s.cpu c).cursor h) = none then
      some (s.setCpu c (look s (s.cpu c) (index (s.cpu c).cursor h) off), [])
    else
      none
  else if (s.cpu c).best.isSome then
    some (s.goto c .dispatch, [])
  else
    some (s.goto c .wfi, [.wfi c])

/-- `if (best)`, up to the `swtch`. -/
def dispatch : Option (State ncpu nproc × List (Event ncpu nproc)) :=
  match (s.cpu c).best with
  | some best =>
      if s.lock best = none then
        if (s.table.proc best).state = .runnable then
          some ((((s.setPriority best (s.priority best) 0).setTable
              (s.table.setProc best { s.table.proc best with state := .running })).setLock best
            (some c)).setCpu c
              { s.cpu c with proc := some best, cursor := (best + 1) % nproc, pc := .switched },
            [.dispatch c best])
        else
          some (s.goto c .wfi, [.wfi c])
      else
        none
  | none => none

/-- What follows the `swtch`: `c->proc = 0`, and the release of the lock of `best`. -/
def back : Option (State ncpu nproc × List (Event ncpu nproc)) :=
  match (s.cpu c).best with
  | some best => some ((s.setLock best none).setCpu c { s.cpu c with proc := none, pc := .round }, [])
  | none => none

/-! ## The process of a CPU -/

/-- The release of `p->lock` in `yield`, `sleep` or `forkret`, after the `swtch`. -/
def switched (p : Fin nproc) : State ncpu nproc := (s.setLock p none).goto c .process

/-- The slots that `allocproc` and `freeproc` fill or clear get the default priority. -/
def reset (p : Fin nproc) (ok : Bool) : State ncpu nproc :=
  match allocates s.table p <|> frees s.table p ok with
  | some k => s.setPriority k 10 0
  | none => s

/-- The next step of the kernel in the process `p`. When it ends in `sched()`, the process
keeps its lock, and the CPU is back in `scheduler()`. -/
def kernel (p : Fin nproc) (ok : Bool) : Option (State ncpu nproc × List (Event ncpu nproc)) :=
  if ∀ k, acquires s.table p = some k → s.lock k = none then
    match advance s.table p ok with
    | some (t, events) =>
        some (if schedules s.table p then
            (((reset s p ok).setTable t).setLock p (some c)).goto c .back
          else
            (reset s p ok).setTable t,
          events.map .call ++ (frees s.table p ok).toList.map .freeproc)
    | none => none
  else
    none

/-- `sys_set_priority()` in the process `p`. -/
def set (p : Fin nproc) : Setting → Option (State ncpu nproc × List (Event ncpu nproc))
  | .loop pid priority k =>
      if h : k < nproc then
        if s.lock ⟨k, h⟩ = none then
          if (s.table.proc ⟨k, h⟩).pid = pid ∧ (s.table.proc ⟨k, h⟩).state ≠ .unused then
            some ((s.setPriority ⟨k, h⟩ priority 0).setSetting p (some .done),
              [.setPriority ⟨k, h⟩])
          else
            some (s.setSetting p (some (.loop pid priority (k + 1))), [])
        else
          none
      else
        some (s.setSetting p (some .done), [])
  | .done =>
      some (if (s.table.proc p).killed then
          (s.setTable (s.table.setPc p .kexit)).setSetting p none
        else
          s.setSetting p none, [])

/-- `yield()` up to the `swtch`, in the process `p`. -/
def yield (p : Fin nproc) : Option (State ncpu nproc × List (Event ncpu nproc)) :=
  if s.lock p = none then
    some (((s.setTable (s.table.setProc p { s.table.proc p with state := .runnable })).setLock p
      (some c)).goto c .back, [])
  else
    none

/-- The process `p` is in user space. -/
def inUser (p : Fin nproc) : Bool := s.table.pc p = .user && (s.setting p).isNone

/-! ## The timer interrupt -/

/-- The body of the loop of `age_processes()`. -/
def ageProcess (k : Fin nproc) : State ncpu nproc :=
  if (s.table.proc k).state = .runnable then
    if s.waitTicks k + 1 ≥ 30 then
      s.setPriority k (if s.priority k > 1 then s.priority k - 1 else s.priority k) 0
    else
      s.setPriority k (s.priority k) (s.waitTicks k + 1)
  else
    s.setPriority k (s.priority k) 0

/-- Where a timer interrupt leads once `clockintr()` is done: a process is preempted, and
the scheduler goes on. -/
def preempt : State ncpu nproc :=
  s.goto c (if (s.cpu c).proc.isSome then .interrupted else .round)

/-- The loop of `age_processes()` at index `k`. -/
def age (k : ℕ) : Option (State ncpu nproc × List (Event ncpu nproc)) :=
  if h : k < nproc then
    if s.lock ⟨k, h⟩ = none then
      some ((ageProcess s ⟨k, h⟩).goto c (.age (k + 1)), [])
    else
      none
  else
    some (preempt s c, [.aged])

/-- What `usertrap()` and `kerneltrap()` do after a timer interrupt. -/
def interrupted (p : Fin nproc) : Option (State ncpu nproc × List (Event ncpu nproc)) :=
  if inUser s p && (s.table.proc p).killed then
    some ((s.setTable (s.table.setPc p .kexit)).goto c .process, [])
  else
    yield s c p

/-- The next step of CPU `c`. `ok` is what the environment decides. -/
def go (ok : Bool) : Option (State ncpu nproc × List (Event ncpu nproc)) :=
  match (s.cpu c).pc, (s.cpu c).proc with
  | .round, _ => some (round s c, [])
  | .scan off, _ => scan s c off
  | .dispatch, _ => dispatch s c
  | .wfi, _ => some (s.goto c .round, [])
  | .back, _ => back s c
  | .age k, _ => age s c k
  | .switched, some p => some (switched s c p, [])
  | .process, some p =>
      match s.setting p with
      | some x => set s p x
      | none => kernel s c p ok
  | .interrupted, some p => interrupted s c p
  | _, none => none

end Code

/-! ## Steps -/

/-- What can happen next: a CPU goes on, a user program makes a system call or a bad
access, a timer interrupt comes, and other code wakes one slot of a channel. -/
inductive Action (ncpu nproc : ℕ)
  | go (c : Fin ncpu) (ok : Bool)
  | trap (c : Fin ncpu) (call : Process.Syscall)
  | fault (c : Fin ncpu)
  | setPriority (c : Fin ncpu) (pid priority : ℤ)
  | timer (c : Fin ncpu)
  | wakeOther (i : Fin nproc) (ch : ℕ)
  deriving DecidableEq

def userProcess (s : State ncpu nproc) (c : Fin ncpu) : Option (Fin nproc) :=
  if (s.cpu c).pc = .process then (s.cpu c).proc.filter (inUser s) else none

def interruptible (s : State ncpu nproc) (c : Fin ncpu) : Bool :=
  match (s.cpu c).pc, (s.cpu c).proc with
  | .round, _ => true
  | .process, some p => (s.table.pc p).preemptible
  | _, _ => false

/-- `sys_set_priority()` up to the loop of `ksetpriority()`. -/
def sysSetPriority (s : State ncpu nproc) (p : Fin nproc) (pid priority : ℤ) : State ncpu nproc :=
  if (s.table.proc p).killed then
    s.setTable (s.table.setPc p .kexit)
  else if priority < 1 ∨ priority > 20 then
    s.setSetting p (some .done)
  else
    s.setSetting p (some (.loop pid priority 0))

def step (s : State ncpu nproc) :
    Action ncpu nproc → Option (State ncpu nproc × List (Event ncpu nproc))
  | .go c ok => go s c ok
  | .trap c call =>
      (userProcess s c).map fun p =>
        (s.setTable (usertrap s.table p call).1, (usertrap s.table p call).2.map .call)
  | .fault c =>
      (userProcess s c).map fun p =>
        (s.setTable ((s.table.setProc p { s.table.proc p with killed := true }).setPc p .kexit), [])
  | .setPriority c pid priority =>
      (userProcess s c).map fun p => (sysSetPriority s p pid priority, [])
  | .timer c =>
      if interruptible s c then
        some (if c.val = 0 then s.goto c (.age 0) else preempt s c, [])
      else
        none
  | .wakeOther i ch =>
      if s.lock i = none then
        some (s.setTable (s.table.setProc i ((s.table.proc i).wakeup (some (.other ch)))), [])
      else
        none

/-- The state after `userinit()`, with every CPU at the start of `scheduler()`. -/
def boot (ncpu : ℕ) (initproc : Fin nproc) : State ncpu nproc where
  table := Process.boot initproc
  priority _ := 10
  waitTicks _ := 0
  setting _ := none
  lock _ := none
  cpu _ := ⟨none, 0, none, 21, .round⟩

end Scheduler
