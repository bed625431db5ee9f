import Mathlib.Algebra.GroupWithZero.Nat
import Mathlib.Data.Fin.Basic
import OsAssignments.Library.Interleaving
import OsAssignments.Library.MachineInt
import OsAssignments.Library.Mutex
import OsAssignments.Library.TableIndex

/-!
# The semaphore locks of the Assignment 4 kernel

The locks of the ten semaphores are initialised by the first calls of `sem_init`,
behind the flag `sem_initialized`, which no lock protects; `sem_down` and `sem_up` do
not look at it. `initlock` frees a lock whoever holds it. As long as no `initlock`
comes while its lock is held, each lock keeps its section exclusive. Two first calls
of `sem_init` that overlap are enough for it to fail.
-/

namespace LazyInit

open Interleaving MachineInt Mutex

/-! ## sysproc.c -/

/-- A call from user space with its arguments. -/
inductive Call
  | semInit (id val : ℤ)
  | semDown (id : ℤ)
  | semUp (id : ℤ)
  deriving DecidableEq

/-- The point a process has come to: `user` outside the kernel, and otherwise the next
step of the call it is in. -/
inductive Pc
  | user
  -- sys_sem_init
  | testInitialized (id : Fin 10) (val : ℤ)
  | initlock (k id : Fin 10) (val : ℤ)
  | setInitialized (id : Fin 10) (val : ℤ)
  | acquireInit (id : Fin 10) (val : ℤ)
  | setCount (id : Fin 10) (val : ℤ)
  -- sys_sem_down
  | acquireDown (id : Fin 10)
  | testCount (id : Fin 10)
  | sleepPrepare (id : Fin 10)
  | releaseToSleep (id : Fin 10)
  | sleep (id : Fin 10)
  | sleeping (id : Fin 10)
  | decrement (id : Fin 10)
  -- sys_sem_up
  | acquireUp (id : Fin 10)
  | increment (id : Fin 10)
  | wakeup (id : Fin 10)
  -- the last step of each
  | releaseAndReturn (id : Fin 10)
  deriving DecidableEq

/-- A process: the calls it is still going to make, and its point. -/
structure Local where
  calls : List Call
  pc : Pc
  deriving DecidableEq

/-- `sem_lock`, with the process that holds each lock, `sem_count`, `sem_initialized`,
and of each process `p->chan` and whether it is `SLEEPING`. -/
structure Kernel (ι : Type) where
  lock : Fin 10 → Option ι
  count : Fin 10 → ℤ
  initialized : Bool
  chan : ι → Option (Fin 10)
  asleep : ι → Bool

/-- The test of `id`, which every call makes first; it returns at once if it fails. -/
def checkId (id : ℤ) (f : Fin 10 → Pc) : Pc :=
  if h : 0 ≤ id ∧ id < 10 then f ⟨id.toNat, TableIndex.toNat_lt_ten h⟩ else .user

def Call.entry : Call → Pc
  | semInit id val => checkId id fun id => .testInitialized id val
  | semDown id => checkId id .acquireDown
  | semUp id => checkId id .acquireUp

/-- The point after `initlock(&sem_lock[k])` in the loop of `sys_sem_init`. -/
def afterInitlock (k id : Fin 10) (val : ℤ) : Pc :=
  if h : k.val + 1 < 10 then .initlock ⟨k.val + 1, h⟩ id val else .setInitialized id val

section Code

variable {ι : Type} [DecidableEq ι]

namespace Kernel

/-- `initlock(&sem_lock[k])`. -/
def initlock (k : Fin 10) (s : Kernel ι) : Kernel ι :=
  { s with lock := Function.update s.lock k none }

/-- `acquire(&sem_lock[id])` by process `i`; it spins while the lock is held. -/
def acquire (id : Fin 10) (i : ι) (s : Kernel ι) : Option (Kernel ι) :=
  if s.lock id = none then some { s with lock := Function.update s.lock id (some i) } else none

/-- `release(&sem_lock[id])` by process `i`; it panics unless `i` holds the lock. -/
def release (id : Fin 10) (i : ι) (s : Kernel ι) : Option (Kernel ι) :=
  if s.lock id = some i then some { s with lock := Function.update s.lock id none } else none

/-- `sem_count[id] = val`, an `int`. -/
def setCount (id : Fin 10) (val : ℤ) (s : Kernel ι) : Kernel ι :=
  { s with count := Function.update s.count id (wrap 32 val) }

/-- `sleep_prepare(&sem_count[id])` by process `i`. -/
def sleepPrepare (id : Fin 10) (i : ι) (s : Kernel ι) : Kernel ι :=
  { s with chan := Function.update s.chan i (some id) }

/-- `wakeup(&sem_count[id])`. -/
def wakeup (id : Fin 10) (s : Kernel ι) : Kernel ι :=
  { s with
    chan := fun j => if s.chan j = some id then none else s.chan j
    asleep := fun j => if s.chan j = some id then false else s.asleep j }

end Kernel

/-- The step of process `i` at each point: the state of the kernel and the next point. -/
def stepAt (i : ι) (s : Kernel ι) : Pc → Option (Kernel ι × Pc)
  | .user => none
  | .testInitialized id val =>
      some (s, if s.initialized = false then .initlock 0 id val else .acquireInit id val)
  | .initlock k id val => some (s.initlock k, afterInitlock k id val)
  | .setInitialized id val => some ({ s with initialized := true }, .acquireInit id val)
  | .acquireInit id val => (s.acquire id i).map fun s => (s, .setCount id val)
  | .setCount id val => some (s.setCount id val, .releaseAndReturn id)
  | .acquireDown id => (s.acquire id i).map fun s => (s, .testCount id)
  | .testCount id => some (s, if s.count id ≤ 0 then .sleepPrepare id else .decrement id)
  | .sleepPrepare id => some (s.sleepPrepare id i, .releaseToSleep id)
  | .releaseToSleep id => (s.release id i).map fun s => (s, .sleep id)
  | .sleep id =>
      if s.chan i = none then
        some (s, .acquireDown id)
      else
        some ({ s with asleep := Function.update s.asleep i true }, .sleeping id)
  | .sleeping id => if s.asleep i then none else some (s, .acquireDown id)
  | .decrement id => some (s.setCount id (s.count id - 1), .releaseAndReturn id)
  | .acquireUp id => (s.acquire id i).map fun s => (s, .increment id)
  | .increment id => some (s.setCount id (s.count id + 1), .wakeup id)
  | .wakeup id => some (s.wakeup id, .releaseAndReturn id)
  | .releaseAndReturn id => (s.release id i).map fun s => (s, .user)

/-- The next step of process `i`: in user space it makes its next call. -/
def step (i : ι) (s : Kernel ι) (l : Local) : Option (Kernel ι × Local) :=
  match l.pc, l.calls with
  | .user, [] => none
  | .user, c :: calls => some (s, ⟨calls, c.entry⟩)
  | pc, calls => (stepAt i s pc).map fun r => (r.1, ⟨calls, r.2⟩)

end Code

abbrev System (ι : Type) := State ι (Kernel ι) Local

/-- The state after boot, with the calls that the processes are going to make. -/
def boot {ι : Type} (calls : ι → List Call) : System ι where
  shared := ⟨fun _ => none, fun _ => 0, false, fun _ => none, fun _ => false⟩
  party := fun i => ⟨calls i, .user⟩

/-! ## Between acquire and release -/

namespace Pc

/-- The semaphore whose lock a process has acquired and not yet released. -/
def inside : Pc → Option (Fin 10)
  | setCount id _ => some id
  | testCount id => some id
  | sleepPrepare id => some id
  | releaseToSleep id => some id
  | decrement id => some id
  | increment id => some id
  | wakeup id => some id
  | releaseAndReturn id => some id
  | _ => none

def releases : Pc → Option (Fin 10)
  | releaseToSleep id => some id
  | releaseAndReturn id => some id
  | _ => none

def initializes : Pc → Option (Fin 10)
  | initlock k _ _ => some k
  | _ => none

theorem inside_of_releases {c : Pc} {id : Fin 10} (h : c.releases = some id) :
    c.inside = some id := by
  cases c with
  | releaseToSleep k => exact h
  | releaseAndReturn k => exact h
  | _ => cases h

end Pc

theorem checkId_of {P : Pc → Prop} {f : Fin 10 → Pc} (id : ℤ) (hf : ∀ k, P (f k))
    (huser : P .user) : P (checkId id f) := by
  unfold checkId
  split_ifs
  · exact hf _
  · exact huser

theorem Call.entry_inside (c : Call) : c.entry.inside = none := by
  cases c with
  | semInit id val =>
      exact checkId_of (P := fun c => c.inside = none) (f := fun k => .testInitialized k val) id
        (fun _ => rfl) rfl
  | semDown id => exact checkId_of (P := fun c => c.inside = none) id (fun _ => rfl) rfl
  | semUp id => exact checkId_of (P := fun c => c.inside = none) id (fun _ => rfl) rfl

theorem afterInitlock_inside (k id : Fin 10) (val : ℤ) :
    (afterInitlock k id val).inside = none := by
  unfold afterInitlock
  split_ifs
  · rfl
  · rfl

section Results

variable {ι : Type} {i : ι} {s : System ι} {x x' : Kernel ι} {c c' : Pc}
  {l l' : Local} {c'' : Pc} {id k : Fin 10}

/-- At most one process is between acquire and release of each lock, and a process that
is about to release a lock holds it. -/
structure Exclusive (s : System ι) : Prop where
  eq_of_inside : ∀ id i j, (s.party i).pc.inside = some id → (s.party j).pc.inside = some id →
    i = j
  held_of_releases : ∀ id i, (s.party i).pc.releases = some id → s.shared.lock id = some i

/-- Nobody is between acquire and release of the lock that process `i` is about to
initialise. -/
def Undisturbed (s : System ι) (i : ι) : Prop :=
  ∀ k, (s.party i).pc.initializes = some k → ∀ j, (s.party j).pc.inside ≠ some k

/-- Each lock is held by the process that is between acquire and release of it. -/
def Locked (s : System ι) : Prop :=
  ∀ id, Guards (s.shared.lock id) (fun i => (s.party i).pc) fun c => c.inside = some id

theorem boot_locked (calls : ι → List Call) : Locked (boot calls) :=
  fun _ _ => iff_of_false (fun h => nomatch h) (fun h => nomatch h)

theorem Locked.exclusive (h : Locked s) : Exclusive s where
  eq_of_inside id _ _ hi hj := (h id).eq hi hj
  held_of_releases id i hi := (h id i).mpr (Pc.inside_of_releases hi)

/-- What a step does to the locks, and where the process is before and after it. -/
inductive Moves (i : ι) (x : Kernel ι) (c : Pc) (x' : Kernel ι) (c' : Pc) : Prop
  | keep : x'.lock = x.lock → c'.inside = c.inside → Moves i x c x' c'
  | acquire (id : Fin 10) : x.lock id = none → x'.lock = Function.update x.lock id (some i) →
      c.inside = none → c'.inside = some id → Moves i x c x' c'
  | release (id : Fin 10) : x'.lock = Function.update x.lock id none →
      c.inside = some id → c'.inside = none → Moves i x c x' c'
  | initlock (k : Fin 10) : c.initializes = some k → x'.lock = Function.update x.lock k none →
      c.inside = none → c'.inside = none → Moves i x c x' c'

theorem stepAt_of_acquire (hc : c.inside = none) (hc' : c'.inside = some id)
    (h : (x.acquire id i).map (fun y => (y, c')) = some (x', c'')) : Moves i x c x' c'' := by
  unfold Kernel.acquire at h
  split_ifs at h with hfree
  · cases h
    exact .acquire id hfree rfl hc hc'
  · cases h

variable [DecidableEq ι]

theorem stepAt_of_release (hc : c.inside = some id) (hc' : c'.inside = none)
    (h : (x.release id i).map (fun y => (y, c')) = some (x', c'')) : Moves i x c x' c'' := by
  unfold Kernel.release at h
  split_ifs at h
  · cases h
    exact .release id rfl hc hc'
  · cases h

theorem stepAt_cases (h : stepAt i x c = some (x', c')) : Moves i x c x' c' := by
  cases c with
  | user => cases h
  | testInitialized id val =>
      cases h
      refine .keep rfl ?_
      split_ifs
      · rfl
      · rfl
  | initlock k id val =>
      cases h
      exact .initlock k rfl rfl rfl (afterInitlock_inside k id val)
  | setInitialized id val =>
      cases h
      exact .keep rfl rfl
  | acquireInit id val => exact stepAt_of_acquire rfl rfl h
  | setCount id val =>
      cases h
      exact .keep rfl rfl
  | acquireDown id => exact stepAt_of_acquire rfl rfl h
  | testCount id =>
      cases h
      split_ifs
      · exact .keep rfl rfl
      · exact .keep rfl rfl
  | sleepPrepare id =>
      cases h
      exact .keep rfl rfl
  | releaseToSleep id => exact stepAt_of_release rfl rfl h
  | sleep id =>
      rw [stepAt] at h
      split_ifs at h
      · cases h
        exact .keep rfl rfl
      · cases h
        exact .keep rfl rfl
  | sleeping id =>
      rw [stepAt] at h
      split_ifs at h
      cases h
      exact .keep rfl rfl
  | decrement id =>
      cases h
      exact .keep rfl rfl
  | acquireUp id => exact stepAt_of_acquire rfl rfl h
  | increment id =>
      cases h
      exact .keep rfl rfl
  | wakeup id =>
      cases h
      exact .keep rfl rfl
  | releaseAndReturn id => exact stepAt_of_release rfl rfl h

theorem step_of_ne_user (hc : l.pc ≠ .user) :
    step i x l = (stepAt i x l.pc).map fun r => (r.1, ⟨l.calls, r.2⟩) := by
  obtain ⟨calls, pc⟩ := l
  cases pc with
  | user => exact (hc rfl).elim
  | _ => rfl

theorem step_cases (h : step i x l = some (x', l')) : Moves i x l.pc x' l'.pc := by
  obtain ⟨calls, c⟩ := l
  by_cases hc : c = .user
  · subst hc
    cases calls with
    | nil => cases h
    | cons call calls =>
        cases h
        exact .keep rfl call.entry_inside
  · rw [step_of_ne_user hc, Option.map_eq_some_iff] at h
    obtain ⟨r, hr, heq⟩ := h
    cases heq
    exact stepAt_cases hr

/-! ## The locks over a run -/

theorem pc_move : (fun j => ((s.move i x l).party j).pc) =
    Function.update (fun j => (s.party j).pc) i l.pc := by
  funext j
  by_cases hj : j = i
  · simp [hj]
  · simp [hj]

/-- One step keeps the locks exclusive, unless it initialises a lock that is held. -/
theorem Locked.step (h : Locked s) (hok : Undisturbed s i)
    (hs : LazyInit.step i s.shared (s.party i) = some (x, l)) : Locked (s.move i x l) := by
  intro id
  rw [pc_move, State.move_shared]
  cases step_cases hs with
  | keep hlock hc =>
      rw [hlock]
      exact (h id).keep (by rw [hc])
  | acquire k hfree hlock hc hc' =>
      rw [hlock]
      by_cases hk : id = k
      · rw [hk, Function.update_self]
        have hg := h k
        rw [hfree] at hg
        exact hg.acquire hc'
      · rw [Function.update_of_ne hk]
        refine (h id).keep ?_
        rw [hc, hc']
        simp [Ne.symm hk]
  | release k hlock hc hc' =>
      rw [hlock]
      by_cases hk : id = k
      · rw [hk, Function.update_self]
        exact (h k).release hc (by simp [hc'])
      · rw [Function.update_of_ne hk]
        refine (h id).keep ?_
        rw [hc, hc']
        simp [Ne.symm hk]
  | initlock k hk hlock hc hc' =>
      rw [hlock]
      by_cases hid : id = k
      · -- the lock is free before the step as well, since nobody is inside
        have hfree : s.shared.lock k = none := by
          refine Option.eq_none_iff_forall_ne_some.mpr ?_
          intro j hj
          exact hok k hk j ((h k j).mp hj)
        rw [hid, Function.update_self, ← hfree]
        exact (h k).keep (by rw [hc, hc'])
      · rw [Function.update_of_ne hid]
        exact (h id).keep (by rw [hc, hc'])

theorem locked_of_run {calls : ι → List Call} (h : Runs LazyInit.step Undisturbed (boot calls) s) :
    Locked s :=
  Runs.invariant (boot_locked calls) (fun _ _ _ _ hl hok hs => hl.step hok hs) h

/-- From boot on, in every run in which no `initlock` comes while its lock is held, the
locks are exclusive and released only by their holders. -/
theorem exclusive_of_undisturbed (calls : ι → List Call) (s : System ι)
    (h : Runs LazyInit.step Undisturbed (boot calls) s) : Exclusive s :=
  (locked_of_run h).exclusive

/-! ## A lock initialised while it is held -/

def Pc.distance : Pc → ℕ
  | testCount _ => 2
  | increment _ => 2
  | setCount _ _ => 1
  | sleepPrepare _ => 1
  | decrement _ => 1
  | wakeup _ => 1
  | _ => 0

/-- Inside its section a process comes to the release without having to wait. -/
theorem stepAt_of_inside (i : ι) (x : Kernel ι) (hc : c.inside = some k) :
    c.releases = some k ∨ ∃ x' c', stepAt i x c = some (x', c') ∧ x'.lock = x.lock ∧
      c'.inside = some k ∧ c'.distance < c.distance := by
  cases c with
  | setCount id val => exact Or.inr ⟨_, _, rfl, rfl, hc, Nat.zero_lt_one⟩
  | testCount id =>
      refine Or.inr ⟨_, _, rfl, rfl, ?_, ?_⟩
      · split_ifs
        · exact hc
        · exact hc
      · split_ifs
        · exact Nat.one_lt_two
        · exact Nat.one_lt_two
  | sleepPrepare id => exact Or.inr ⟨_, _, rfl, rfl, hc, Nat.zero_lt_one⟩
  | releaseToSleep id => exact Or.inl hc
  | decrement id => exact Or.inr ⟨_, _, rfl, rfl, hc, Nat.zero_lt_one⟩
  | increment id => exact Or.inr ⟨_, _, rfl, rfl, hc, Nat.one_lt_two⟩
  | wakeup id => exact Or.inr ⟨_, _, rfl, rfl, hc, Nat.zero_lt_one⟩
  | releaseAndReturn id => exact Or.inl hc
  | _ => cases hc

/-- A process inside the section of a lock that is free comes to release it. -/
theorem not_exclusive_of_free {j : ι} (n : ℕ) (hn : (s.party j).pc.distance = n)
    (hj : (s.party j).pc.inside = some k) (hfree : s.shared.lock k = none) :
    ∃ s', Runs LazyInit.step Anyone s s' ∧ ¬ Exclusive s' := by
  induction n using Nat.strong_induction_on generalizing s with
  | _ n ih =>
      rcases stepAt_of_inside j s.shared hj with hrel | ⟨x', c', hs, hlock, hc', hlt⟩
      · refine ⟨s, .refl, ?_⟩
        intro hexcl
        have hheld := hexcl.held_of_releases k j hrel
        rw [hfree] at hheld
        cases hheld
      · have huser : (s.party j).pc ≠ .user := by
          intro huser
          rw [huser] at hj
          cases hj
        have hstep : LazyInit.step j s.shared (s.party j) =
            some (x', ⟨(s.party j).calls, c'⟩) := by
          rw [step_of_ne_user huser, hs]
          rfl
        have hself : (s.move j x' ⟨(s.party j).calls, c'⟩).party j =
            ⟨(s.party j).calls, c'⟩ := Function.update_self ..
        obtain ⟨s', hrun, hnot⟩ := ih c'.distance (hn ▸ hlt)
          (s := s.move j x' ⟨(s.party j).calls, c'⟩) (by rw [hself]) (by rw [hself]; exact hc')
          (by rw [State.move_shared, hlock]; exact hfree)
        exact ⟨s', .head (.move trivial hstep) hrun, hnot⟩

/-- Whenever an `initlock` comes while its lock is held, the run can go on to a state in
which the locks are not exclusive. -/
theorem not_exclusive_of_disturbed {j : ι} (hi : (s.party i).pc.initializes = some k)
    (hj : (s.party j).pc.inside = some k) :
    ∃ s', Runs LazyInit.step Anyone s s' ∧ ¬ Exclusive s' := by
  have hij : j ≠ i := by
    rintro rfl
    cases hc : (s.party j).pc with
    | initlock k' id val =>
        rw [hc] at hj
        cases hj
    | _ =>
        rw [hc] at hi
        cases hi
  cases hc : (s.party i).pc with
  | initlock k id val =>
      rw [hc] at hi
      cases hi
      have hstep : LazyInit.step i s.shared (s.party i) =
          some (s.shared.initlock k, ⟨(s.party i).calls, afterInitlock k id val⟩) := by
        rw [step_of_ne_user (by rw [hc]; exact Pc.noConfusion), hc]
        rfl
      have hparty : (s.move i (s.shared.initlock k)
          ⟨(s.party i).calls, afterInitlock k id val⟩).party j = s.party j :=
        Function.update_of_ne hij ..
      obtain ⟨s', hrun, hnot⟩ := not_exclusive_of_free (k := k)
        (s := s.move i (s.shared.initlock k) ⟨(s.party i).calls, afterInitlock k id val⟩)
        _ rfl (by rw [hparty]; exact hj) (Function.update_self ..)
      exact ⟨s', .head (.move trivial hstep) hrun, hnot⟩
  | _ =>
      rw [hc] at hi
      cases hi

end Results

/-! ## Two processes -/

instance {nproc : ℕ} (s : System (Fin nproc)) (i : Fin nproc) : Decidable (Undisturbed s i) :=
  inferInstanceAs (Decidable (∀ k, (s.party i).pc.initializes = some k →
    ∀ j, (s.party j).pc.inside ≠ some k))

/-- Both processes initialise semaphore 0, and one then takes it. -/
def twoInits (i : Fin 2) : List Call :=
  if i = 0 then [.semInit 0 1, .semDown 0] else [.semInit 0 1]

def oneAfterTheOther : List (Fin 2) := List.replicate 18 0 ++ [1, 1]

def overlapping : List (Fin 2) :=
  [0, 1, 0, 1] ++ List.replicate 12 0 ++ List.replicate 12 1 ++ [0]

theorem exec_oneAfterTheOther :
    (exec LazyInit.step Undisturbed (boot twoInits) oneAfterTheOther).any (fun s =>
      (s.party 0).pc = .testCount 0 ∧ (s.party 1).pc = .acquireInit 0 1) = true := by
  decide +kernel

/-- The second process waits at the lock that the first one holds. -/
theorem exclusive_of_undisturbed_twoInits : ∃ s, Runs LazyInit.step Undisturbed (boot twoInits) s ∧
    (s.party 0).pc = .testCount 0 ∧ (s.party 1).pc = .acquireInit 0 1 ∧ Exclusive s := by
  obtain ⟨s, hrun, hs⟩ := exists_run exec_oneAfterTheOther
  have hpcs := of_decide_eq_true hs
  exact ⟨s, hrun, hpcs.1, hpcs.2, exclusive_of_undisturbed twoInits s hrun⟩

theorem exec_overlapping :
    (exec LazyInit.step Anyone (boot twoInits) overlapping).any (fun s =>
      (s.party 0).pc = .releaseAndReturn 0 ∧ (s.party 1).pc = .setCount 0 1 ∧
        s.shared.lock 0 = some 1) = true := by
  decide +kernel

/-- Two first calls overlap: both processes are between acquire and release of the same
lock, and one of them is about to release it while the other holds it. -/
theorem overlap_not_exclusive : ∃ s, Runs LazyInit.step Anyone (boot twoInits) s ∧
    (s.party 0).pc.inside = some 0 ∧ (s.party 1).pc.inside = some 0 ∧
      (s.party 0).pc.releases = some 0 ∧ s.shared.lock 0 ≠ some 0 ∧ ¬ Exclusive s := by
  obtain ⟨s, hrun, hs⟩ := exists_run exec_overlapping
  obtain ⟨h0, h1, hlock⟩ := of_decide_eq_true hs
  refine ⟨s, hrun, by rw [h0]; rfl, by rw [h1]; rfl, by rw [h0]; rfl, by rw [hlock]; decide, ?_⟩
  intro hexcl
  have heq := hexcl.eq_of_inside 0 0 1 (by rw [h0]; rfl) (by rw [h1]; rfl)
  cases heq

end LazyInit
