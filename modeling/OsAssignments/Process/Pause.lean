import Mathlib.Data.Fintype.Basic
import OsAssignments.Library.Refinement
import OsAssignments.Library.TableIndex

/-!
# Pauses

`sys_pause` of sysproc.c, and what wakes it up: `clockintr` of trap.c, which counts a tick and
calls `wakeup(&ticks)`, slot by slot, and `kkill`. The two kernels do the same here. `ticks` is
read and counted up with `tickslock` held; the flags of a process change with its `p->lock`
held. So a step is what happens between two of these locks, and a process that holds `tickslock`
can still be killed. `ticks` is a `uint` and goes round.

A pause does not end early, no tick is slept through, and a process that is killed sleeps
through at most one.
-/

namespace Pause

/-- The point a process has reached in `sys_pause(n)`, with `ticks0`; or the value that the last
call has returned. -/
inductive Pc
  | user (r : ℤ)
  | start (n : UInt32)
  | test (n ticks0 : UInt32)
  | killed (n ticks0 : UInt32)
  | prepare (n ticks0 : UInt32)
  | release (n ticks0 : UInt32)
  | sleep (n ticks0 : UInt32)
  | acquire (n ticks0 : UInt32)
  deriving DecidableEq

/-- A process: `chan` says that `p->chan` is `&ticks`, and `asleep` that it is `SLEEPING`. -/
structure Local where
  pc : Pc
  chan : Bool
  asleep : Bool
  killed : Bool
  deriving DecidableEq

/-- Who holds `tickslock`. -/
inductive Holder (nproc : ℕ)
  | clock
  | proc (i : Fin nproc)
  deriving DecidableEq

/-- `wake` is the slot that `wakeup(&ticks)` has come to, in `clockintr`. -/
structure State (nproc : ℕ) where
  ticks : UInt32
  lock : Option (Holder nproc)
  wake : Option ℕ
  party : Fin nproc → Local

/-- A process calls `pause(n)`, or goes on with its call; the timer interrupts, or its `wakeup`
goes on; or a process is killed. -/
inductive Act (nproc : ℕ)
  | call (i : Fin nproc) (n : Int32)
  | next (i : Fin nproc)
  | tick
  | wake
  | kill (i : Fin nproc)
  deriving DecidableEq

variable {nproc : ℕ}

namespace State

def setParty (s : State nproc) (i : Fin nproc) (l : Local) : State nproc :=
  { s with party := Function.update s.party i l }

def goto (s : State nproc) (i : Fin nproc) (c : Pc) : State nproc :=
  s.setParty i { s.party i with pc := c }

/-- `i` acquires `tickslock` and goes on to `c`, or waits for it. -/
def acquire (s : State nproc) (i : Fin nproc) (c : Pc) : Option (State nproc) :=
  if s.lock = none then some { s.goto i c with lock := some (.proc i) } else none

/-- `i` releases `tickslock` and goes on to `c`. -/
def release (s : State nproc) (i : Fin nproc) (c : Pc) : State nproc :=
  { s.goto i c with lock := none }

end State

/-- The next step of `sys_pause`. -/
def next (s : State nproc) (i : Fin nproc) : Option (State nproc) :=
  if (s.party i).asleep then
    none
  else
    match (s.party i).pc with
    | .user _ => none
    | .start n => s.acquire i (.test n s.ticks)
    | .test n ticks0 =>
        if s.ticks - ticks0 < n then
          some (s.goto i (.killed n ticks0))
        else
          some (s.release i (.user 0))
    | .killed n ticks0 =>
        if (s.party i).killed then
          some (s.release i (.user (-1)))
        else
          some (s.goto i (.prepare n ticks0))
    | .prepare n ticks0 =>
        some (s.setParty i { s.party i with pc := .release n ticks0, chan := true })
    | .release n ticks0 => some (s.release i (.sleep n ticks0))
    | .sleep n ticks0 =>
        some (s.setParty i
          { s.party i with pc := .acquire n ticks0, asleep := (s.party i).chan })
    | .acquire n ticks0 => s.acquire i (.test n ticks0)

/-- One slot of `wakeup(&ticks)`. -/
def Local.wakeup (l : Local) : Local :=
  if l.chan then { l with chan := false, asleep := false } else l

/-- The next step of `wakeup(&ticks)` and the `release` behind it. -/
def wake (s : State nproc) : Option (State nproc) :=
  match s.wake with
  | none => none
  | some k =>
      if h : k < nproc then
        some { s.setParty ⟨k, h⟩ (s.party ⟨k, h⟩).wakeup with wake := some (k + 1) }
      else
        some { s with lock := none, wake := none }

def step (s : State nproc) : Act nproc → Option (State nproc)
  | .call i n =>
      match (s.party i).pc with
      | .user _ => some (s.goto i (.start (if n < 0 then 0 else n.toUInt32)))
      | _ => none
  | .next i => next s i
  | .tick =>
      if s.lock = none then
        some { s with lock := some .clock, ticks := s.ticks + 1, wake := some 0 }
      else
        none
  | .wake => wake s
  | .kill i => some (s.setParty i { s.party i with killed := true, asleep := false })

/-- Any number of steps, in any order. -/
abbrev Run (s : State nproc) (acts : List (Act nproc)) (s' : State nproc) : Prop :=
  Refinement.Run (fun s a s' => step s a = some s') s acts s'

/-- Nobody pauses. -/
structure Boot (s : State nproc) : Prop where
  lock : s.lock = none
  wake : s.wake = none
  user : ∀ i, ∃ r, (s.party i).pc = .user r
  awake : ∀ i, (s.party i).asleep = false

/-! ## The steps -/

inductive Step (s : State nproc) : Act nproc → State nproc → Prop
  | call {i : Fin nproc} {n : Int32} {r : ℤ} : (s.party i).pc = .user r →
      Step s (.call i n) (s.goto i (.start (if n < 0 then 0 else n.toUInt32)))
  | start {i : Fin nproc} {n : UInt32} : (s.party i).asleep = false → (s.party i).pc = .start n →
      s.lock = none →
      Step s (.next i) { s.goto i (.test n s.ticks) with lock := some (.proc i) }
  | early {i : Fin nproc} {n ticks0 : UInt32} : (s.party i).asleep = false →
      (s.party i).pc = .test n ticks0 → s.ticks - ticks0 < n →
      Step s (.next i) (s.goto i (.killed n ticks0))
  | elapsed {i : Fin nproc} {n ticks0 : UInt32} : (s.party i).asleep = false →
      (s.party i).pc = .test n ticks0 → ¬ s.ticks - ticks0 < n →
      Step s (.next i) (s.release i (.user 0))
  | killed {i : Fin nproc} {n ticks0 : UInt32} : (s.party i).asleep = false →
      (s.party i).pc = .killed n ticks0 → (s.party i).killed = true →
      Step s (.next i) (s.release i (.user (-1)))
  | alive {i : Fin nproc} {n ticks0 : UInt32} : (s.party i).asleep = false →
      (s.party i).pc = .killed n ticks0 → (s.party i).killed = false →
      Step s (.next i) (s.goto i (.prepare n ticks0))
  | prepare {i : Fin nproc} {n ticks0 : UInt32} : (s.party i).asleep = false →
      (s.party i).pc = .prepare n ticks0 → Step s (.next i)
        (s.setParty i { s.party i with pc := .release n ticks0, chan := true })
  | release {i : Fin nproc} {n ticks0 : UInt32} : (s.party i).asleep = false →
      (s.party i).pc = .release n ticks0 → Step s (.next i) (s.release i (.sleep n ticks0))
  | sleep {i : Fin nproc} {n ticks0 : UInt32} : (s.party i).asleep = false →
      (s.party i).pc = .sleep n ticks0 → Step s (.next i) (s.setParty i
        { s.party i with pc := .acquire n ticks0, asleep := (s.party i).chan })
  | acquire {i : Fin nproc} {n ticks0 : UInt32} : (s.party i).asleep = false →
      (s.party i).pc = .acquire n ticks0 → s.lock = none →
      Step s (.next i) { s.goto i (.test n ticks0) with lock := some (.proc i) }
  | tick : s.lock = none →
      Step s .tick { s with lock := some .clock, ticks := s.ticks + 1, wake := some 0 }
  | slot {k : Fin nproc} : s.wake = some k.val →
      Step s .wake { s.setParty k (s.party k).wakeup with wake := some (k + 1) }
  | woken {k : ℕ} : s.wake = some k → nproc ≤ k →
      Step s .wake { s with lock := none, wake := none }
  | kill {i : Fin nproc} :
      Step s (.kill i) (s.setParty i { s.party i with killed := true, asleep := false })

variable {s s' : State nproc} {a : Act nproc} {i j : Fin nproc} {l : Local}

theorem acquire_eq_some {c : Pc} (h : s.acquire i c = some s') :
    s.lock = none ∧ { s.goto i c with lock := some (.proc i) } = s' := by
  unfold State.acquire at h
  split_ifs at h with hlock
  exact ⟨hlock, Option.some_inj.mp h⟩

theorem step_of_next (h : next s i = some s') : Step s (.next i) s' := by
  have hasleep : (s.party i).asleep = false := by
    by_contra hasleep
    unfold next at h
    rw [if_pos (Bool.eq_true_of_not_eq_false hasleep)] at h
    cases h
  unfold next at h
  rw [if_neg (Bool.eq_false_iff.mp hasleep)] at h
  cases hpc : (s.party i).pc with
  | user r =>
      rw [hpc] at h
      cases h
  | start n =>
      rw [hpc] at h
      obtain ⟨hlock, rfl⟩ := acquire_eq_some h
      exact .start hasleep hpc hlock
  | test n ticks0 =>
      rw [hpc] at h
      dsimp only at h
      split_ifs at h with hearly
      · cases h
        exact .early hasleep hpc hearly
      · cases h
        exact .elapsed hasleep hpc hearly
  | killed n ticks0 =>
      rw [hpc] at h
      dsimp only at h
      split_ifs at h with hkilled
      · cases h
        exact .killed hasleep hpc hkilled
      · cases h
        exact .alive hasleep hpc (Bool.eq_false_of_not_eq_true hkilled)
  | prepare n ticks0 =>
      rw [hpc] at h
      cases h
      exact .prepare hasleep hpc
  | release n ticks0 =>
      rw [hpc] at h
      cases h
      exact .release hasleep hpc
  | sleep n ticks0 =>
      rw [hpc] at h
      cases h
      exact .sleep hasleep hpc
  | acquire n ticks0 =>
      rw [hpc] at h
      obtain ⟨hlock, rfl⟩ := acquire_eq_some h
      exact .acquire hasleep hpc hlock

theorem step_cases (h : step s a = some s') : Step s a s' := by
  cases a with
  | call i n =>
      unfold step at h
      dsimp only at h
      split at h
      · next r hpc =>
          cases h
          exact .call hpc
      · cases h
  | next i => exact step_of_next h
  | tick =>
      unfold step at h
      dsimp only at h
      split_ifs at h with hlock
      cases h
      exact .tick hlock
  | wake =>
      change wake s = some s' at h
      unfold wake at h
      split at h
      · cases h
      · next k hk =>
          split_ifs at h with hlt
          · cases h
            exact .slot (k := ⟨k, hlt⟩) hk
          · cases h
            exact .woken hk (Nat.not_lt.mp hlt)
  | kill i =>
      cases h
      exact .kill

/-! ## No pause ends early -/

/-- Of a call `pause(n)` that is `c` ticks old: it has seen at most these ticks; and where it
has returned, the pause is over. -/
def Pc.Counted (ticks n : UInt32) (c : ℕ) : Pc → Prop
  | .user r => r = 0 → n.toNat ≤ c
  | .start n' => n' = n
  | .test n' ticks0 | .killed n' ticks0 | .prepare n' ticks0 | .release n' ticks0
  | .sleep n' ticks0 | .acquire n' ticks0 => n' = n ∧ ∃ d ≤ c, ticks = ticks0 + .ofNat d

theorem Pc.Counted.tick {ticks n : UInt32} {c : ℕ} {pc : Pc} (h : pc.Counted ticks n c) :
    pc.Counted (ticks + 1) n (c + 1) := by
  have hmore : ∀ {n' ticks0 : UInt32}, (n' = n ∧ ∃ d ≤ c, ticks = ticks0 + .ofNat d) →
      n' = n ∧ ∃ d ≤ c + 1, ticks + 1 = ticks0 + .ofNat d := by
    rintro n' ticks0 ⟨hn, d, hd, rfl⟩
    refine ⟨hn, d + 1, Nat.succ_le_succ hd, ?_⟩
    rw [UInt32.ofNat_add, UInt32.add_assoc]
    rfl
  cases pc with
  | user r => exact fun hr => (h hr).trans (Nat.le_succ c)
  | start n' => exact h
  | test n' ticks0 | killed n' ticks0 | prepare n' ticks0 | release n' ticks0 | sleep n' ticks0
  | acquire n' ticks0 => exact hmore h

theorem le_of_not_early {ticks ticks0 n : UInt32} {d : ℕ} (hd : ticks = ticks0 + .ofNat d)
    (h : ¬ ticks - ticks0 < n) : n.toNat ≤ d := by
  rw [hd, UInt32.add_comm, UInt32.add_sub_cancel, UInt32.lt_iff_toNat_lt, Nat.not_lt,
    UInt32.toNat_ofNat'] at h
  exact h.trans (Nat.mod_le d _)

theorem Step.counted {n : UInt32} {c : ℕ} (h : Step s a s') (hcall : ∀ m, a ≠ .call i m)
    (hc : (s.party i).pc.Counted s.ticks n c) :
    (s'.party i).pc.Counted s'.ticks n (c + if a = .tick then 1 else 0) := by
  have hmove : ∀ {j : Fin nproc} {l : Local}, (j = i → l.pc.Counted s.ticks n c) →
      (Function.update s.party j l i).pc.Counted s.ticks n c := by
    intro j l hl
    by_cases hj : i = j
    · rw [hj, Function.update_self]
      exact hl hj.symm
    · rw [Function.update_of_ne hj]
      exact hc
  cases h with
  | @call j m r hpc =>
      refine hmove fun hj => ?_
      subst hj
      exact absurd rfl (hcall m)
  | @start j m _ hpc _ =>
      refine hmove fun hj => ?_
      subst hj
      rw [hpc] at hc
      exact ⟨hc, 0, Nat.zero_le c, (UInt32.add_zero _).symm⟩
  | @elapsed j m ticks0 _ hpc hover =>
      refine hmove fun hj => ?_
      subst hj
      rw [hpc] at hc
      obtain ⟨rfl, d, hd, hticks⟩ := hc
      exact fun _ => (le_of_not_early hticks hover).trans hd
  | @killed j m ticks0 _ hpc _ =>
      refine hmove fun hj => ?_
      intro hr
      cases hr
  | early _ hpc _ | alive _ hpc _ | prepare _ hpc | release _ hpc | sleep _ hpc
  | acquire _ hpc _ =>
      refine hmove fun hj => ?_
      subst hj
      rw [hpc] at hc
      exact hc
  | tick _ => exact hc.tick
  | @slot k hk =>
      refine hmove fun hj => ?_
      subst hj
      unfold Local.wakeup
      split_ifs
      · exact hc
      · exact hc
  | woken _ _ => exact hc
  | @kill j =>
      refine hmove fun hj => ?_
      subst hj
      exact hc

theorem Run.counted {n : UInt32} {acts : List (Act nproc)} (hrun : Run s acts s')
    (hcall : ∀ m, .call i m ∉ acts) (hc : (s.party i).pc.Counted s.ticks n 0) :
    (s'.party i).pc.Counted s'.ticks n (acts.count .tick) := by
  induction hrun with
  | start => exact hc
  | @next es e t t' _ hstep ih =>
      have hes : ∀ m, .call i m ∉ es := fun m hm => hcall m (List.mem_append_left _ hm)
      have he : ∀ m, e ≠ .call i m := by
        rintro m rfl
        exact hcall m (List.mem_append_right _ List.mem_cons_self)
      have hcount : (es ++ [e]).count .tick = es.count .tick + if e = .tick then 1 else 0 := by
        rw [List.count_append, List.count_singleton]
        simp only [beq_iff_eq]
      rw [hcount]
      exact (step_cases hstep).counted he (ih hes)

/-- Two processes, just before `ticks` goes round. -/
def boot : State 2 where
  ticks := 4294967295
  lock := none
  wake := none
  party _ := ⟨.user 0, false, false, false⟩

theorem boot_boot : Boot boot := ⟨rfl, rfl, fun _ => ⟨0, rfl⟩, fun _ => rfl⟩

/-- The process `i` comes to `sleep_prepare` in a call. -/
def pausing (i : Fin nproc) : List (Act nproc) := [.next i, .next i, .next i]

/-- It goes to sleep, is woken up by a tick of a kernel of two processes, and tests again. -/
def ticking (i : Fin nproc) : List (Act nproc) :=
  [.next i, .next i, .next i, .tick, .wake, .wake, .wake, .next i, .next i]

/-- `pause(n)` returns `0` only when `n` ticks have passed since the call, whatever the other
processes and the timer do, and although `ticks` goes round. -/
theorem pause_not_early {s₀ s₁ s : State nproc} {i : Fin nproc} {n : Int32}
    {acts : List (Act nproc)} (hcall : step s₀ (.call i n) = some s₁) (hrun : Run s₁ acts s)
    (honce : ∀ m, .call i m ∉ acts) (hret : (s.party i).pc = .user 0) :
    n.toInt ≤ acts.count .tick := by
  have hstart : (s₁.party i).pc = .start (if n < 0 then 0 else n.toUInt32) := by
    cases step_cases hcall with
    | call _ =>
        change (Function.update s₀.party i _ i).pc = _
        rw [Function.update_self]
  have hcounted := Run.counted (n := if n < 0 then 0 else n.toUInt32) hrun honce (by
    rw [hstart]
    rfl)
  rw [hret] at hcounted
  have hle := hcounted rfl
  by_cases hneg : n < 0
  · have hlt := Int32.lt_iff_toInt_lt.mp hneg
    rw [Int32.toInt_zero] at hlt
    omega
  · rw [if_neg hneg, Int32.toNat_toUInt32_of_le (Int32.not_lt.mp hneg), ← Int32.toNat_toInt] at hle
    omega

theorem pause_not_early_round : ∃ s : State 2, s.ticks = 0 ∧ (s.party 0).pc = .user 0 ∧
    (1 : Int32).toInt ≤ (pausing (0 : Fin 2) ++ ticking 0).count Act.tick := by
  have hcall : step boot (.call 0 1) = some (boot.goto 0 (.start 1)) := rfl
  obtain ⟨s, hrun, hp⟩ := Refinement.Run.exists_of_any step (boot.goto 0 (.start 1) : State 2)
    (pausing 0 ++ ticking 0) (fun s => s.ticks = 0 ∧ (s.party 0).pc = .user 0) (by decide)
  obtain ⟨hticks, hpc⟩ := of_decide_eq_true hp
  refine ⟨s, hticks, hpc, pause_not_early hcall hrun (fun m hm => ?_) hpc⟩
  rcases List.mem_append.mp hm with hm | hm
  · simp [pausing] at hm
  · simp [ticking] at hm

/-! ## No tick is slept through -/

/-- The points of `sys_pause` at which the process holds `tickslock`. -/
def Pc.Holds : Pc → Prop
  | .test _ _ | .killed _ _ | .prepare _ _ | .release _ _ => True
  | _ => False

/-- The points from `sleep_prepare` on to the next test. -/
def Pc.Waits (n ticks0 : UInt32) : Pc → Prop
  | .release n' t | .sleep n' t | .acquire n' t => n' = n ∧ t = ticks0
  | _ => False

/-- What is known of the process in slot `i`: between the test and `sleep_prepare` its time is
not over; then it is not over as long as the channel has not been woken up, but for a `wakeup`
that has not come to its slot yet; and what sleeps can be woken up. -/
structure Local.Ok (ticks : UInt32) (wake : Option ℕ) (i : ℕ) (l : Local) : Prop where
  early : ∀ n ticks0, l.pc = .killed n ticks0 ∨ l.pc = .prepare n ticks0 → ticks - ticks0 < n
  waits : ∀ n ticks0, l.pc.Waits n ticks0 → l.chan = true →
    ticks - ticks0 < n ∨ ∃ k ≤ i, wake = some k
  asleep : l.asleep = true → l.chan = true ∧ ∃ n ticks0, l.pc = .acquire n ticks0

structure Inv (s : State nproc) : Prop where
  holder : ∀ i, s.lock = some (.proc i) ↔ (s.party i).pc.Holds
  clock : s.lock = some .clock ↔ s.wake ≠ none
  ok : ∀ i, (s.party i).Ok s.ticks s.wake i

theorem Local.Ok.goto {ticks : UInt32} {wake : Option ℕ} {i : ℕ} {c : Pc}
    (hearly : ∀ n ticks0, c = .killed n ticks0 ∨ c = .prepare n ticks0 → ticks - ticks0 < n)
    (hwaits : ∀ n ticks0, c.Waits n ticks0 → l.chan = true →
      ticks - ticks0 < n ∨ ∃ k ≤ i, wake = some k) (hawake : l.asleep = false) :
    ({ l with pc := c } : Local).Ok ticks wake i :=
  ⟨hearly, hwaits, fun h => absurd (hawake.symm.trans h) Bool.false_ne_true⟩

theorem Local.Ok.free {ticks : UInt32} {wake : Option ℕ} {i : ℕ} {c : Pc}
    (hearly : ∀ n ticks0, c ≠ .killed n ticks0 ∧ c ≠ .prepare n ticks0)
    (hwaits : ∀ n ticks0, ¬ c.Waits n ticks0) (hawake : l.asleep = false) :
    ({ l with pc := c } : Local).Ok ticks wake i := by
  refine Local.Ok.goto (fun n ticks0 h => ?_) (fun n ticks0 h => absurd h (hwaits n ticks0)) hawake
  rcases h with h | h
  · exact absurd h (hearly n ticks0).1
  · exact absurd h (hearly n ticks0).2

theorem Inv.update (h : Inv s) {lock : Option (Holder nproc)} (hok : l.Ok s.ticks s.wake i)
    (hself : lock = some (.proc i) ↔ l.pc.Holds)
    (hothers : ∀ j ≠ i, lock = some (.proc j) ↔ s.lock = some (.proc j))
    (hclock : lock = some .clock ↔ s.lock = some .clock) :
    Inv ⟨s.ticks, lock, s.wake, Function.update s.party i l⟩ := by
  refine ⟨fun j => ?_, hclock.trans h.clock, fun j => ?_⟩
  · dsimp only
    by_cases hj : j = i
    · rw [hj, Function.update_self]
      exact hself
    · rw [Function.update_of_ne hj]
      exact (hothers j hj).trans (h.holder j)
  · dsimp only
    by_cases hj : j = i
    · rw [hj, Function.update_self]
      exact hok
    · rw [Function.update_of_ne hj]
      exact h.ok j

theorem Inv.stay (h : Inv s) (hholds : l.pc.Holds ↔ (s.party i).pc.Holds)
    (hok : l.Ok s.ticks s.wake i) : Inv (s.setParty i l) :=
  h.update hok ((h.holder i).trans hholds.symm) (fun _ _ => Iff.rfl) Iff.rfl

theorem Inv.acquire (h : Inv s) (hlock : s.lock = none) {c : Pc} (hholds : c.Holds)
    (hok : ({ s.party i with pc := c } : Local).Ok s.ticks s.wake i) :
    Inv { s.goto i c with lock := some (.proc i) } := by
  refine h.update hok (iff_of_true rfl hholds) (fun j hj => ?_) ?_
  · rw [hlock]
    refine iff_of_false (fun heq => ?_) fun heq => ?_
    · cases heq
      exact hj rfl
    · cases heq
  · rw [hlock]
    refine iff_of_false (fun heq => ?_) fun heq => ?_
    · cases heq
    · cases heq

theorem Inv.release (h : Inv s) (hold : (s.party i).pc.Holds) {c : Pc} (hfree : ¬ c.Holds)
    (hok : ({ s.party i with pc := c } : Local).Ok s.ticks s.wake i) : Inv (s.release i c) := by
  have hlock := (h.holder i).mpr hold
  refine h.update hok (iff_of_false (fun heq => ?_) hfree) (fun j hj => ?_) ?_
  · cases heq
  · rw [hlock]
    refine iff_of_false (fun heq => ?_) fun heq => ?_
    · cases heq
    · cases heq
      exact hj rfl
  · rw [hlock]
    refine iff_of_false (fun heq => ?_) fun heq => ?_
    · cases heq
    · cases heq

theorem Inv.tick (h : Inv s) (hlock : s.lock = none) :
    Inv { s with lock := some .clock, ticks := s.ticks + 1, wake := some 0 } := by
  have hfree : ∀ i, ¬ (s.party i).pc.Holds := fun i hi => by
    have hheld := (h.holder i).mpr hi
    rw [hlock] at hheld
    cases hheld
  refine ⟨fun i => iff_of_false (fun hc => ?_) (hfree i), iff_of_true rfl (Option.some_ne_none 0),
    fun i => ⟨fun n t hc => ?_, fun _ _ _ _ => Or.inr ⟨0, Nat.zero_le _, rfl⟩,
      (h.ok i).asleep⟩⟩
  · cases hc
  · refine absurd ?_ (hfree i)
    rcases hc with hc | hc
    · rw [hc]
      trivial
    · rw [hc]
      trivial

theorem Inv.slot (h : Inv s) {k : Fin nproc} (hk : s.wake = some k.val) :
    Inv { s.setParty k (s.party k).wakeup with wake := some (k + 1) } := by
  have hpc : (s.party k).wakeup.pc = (s.party k).pc := by
    unfold Local.wakeup
    split_ifs
    · rfl
    · rfl
  refine ⟨fun i => ?_, ?_, fun i => ?_⟩
  · change s.lock = _ ↔ (Function.update s.party k _ i).pc.Holds
    by_cases hi : i = k
    · rw [hi, Function.update_self, hpc]
      exact h.holder k
    · rw [Function.update_of_ne hi]
      exact h.holder i
  · refine iff_of_true (h.clock.mpr ?_) (Option.some_ne_none _)
    rw [hk]
    exact Option.some_ne_none _
  · change (Function.update s.party k _ i).Ok s.ticks (some (k.val + 1)) i
    by_cases hi : i = k
    · rw [hi, Function.update_self]
      have hchan : (s.party k).wakeup.chan = false := by
        unfold Local.wakeup
        split_ifs with hchan
        · rfl
        · exact Bool.eq_false_of_not_eq_true hchan
      refine ⟨fun n t hc => (h.ok k).early n t (hpc ▸ hc), fun n t _ hc => ?_, fun hc => ?_⟩
      · exact absurd (hchan.symm.trans hc) Bool.false_ne_true
      · unfold Local.wakeup at hc
        split_ifs at hc with hcase
        exact absurd ((h.ok k).asleep hc).1 hcase
    · rw [Function.update_of_ne hi]
      refine ⟨(h.ok i).early, fun n t hc hchan => ?_, (h.ok i).asleep⟩
      refine ((h.ok i).waits n t hc hchan).imp_right fun ⟨k', hle, hk'⟩ => ⟨k + 1, ?_, rfl⟩
      have heq : k.val = k' := Option.some_inj.mp (hk.symm.trans hk')
      have hne : k.val ≠ i.val := fun hval => hi (Fin.ext hval).symm
      omega

theorem Inv.woken (h : Inv s) {k : ℕ} (hk : s.wake = some k) (hall : nproc ≤ k) :
    Inv { s with lock := none, wake := none } := by
  refine ⟨fun i => iff_of_false (fun hc => ?_) fun hc => ?_, iff_of_false (fun hc => ?_)
    fun hc => hc rfl, fun i => ⟨(h.ok i).early, fun n t hc hchan => ?_, (h.ok i).asleep⟩⟩
  · cases hc
  · have hheld := (h.holder i).mpr hc
    rw [h.clock.mpr (by rw [hk]; exact Option.some_ne_none _)] at hheld
    cases hheld
  · cases hc
  · refine ((h.ok i).waits n t hc hchan).imp_right fun ⟨k', hle, hk'⟩ => ?_
    have heq : k = k' := Option.some_inj.mp (hk.symm.trans hk')
    have hlt := i.isLt
    omega

theorem Step.inv (hstep : Step s a s') (h : Inv s) : Inv s' := by
  cases hstep with
  | @call i n r hpc =>
      have hok := h.ok i
      have hawake : (s.party i).asleep = false := by
        by_contra hasleep
        obtain ⟨_, n, ticks0, hc⟩ := hok.asleep (Bool.eq_true_of_not_eq_false hasleep)
        cases hpc.symm.trans hc
      refine h.stay (by rw [hpc]; exact Iff.rfl) (.free (fun _ _ => ⟨?_, ?_⟩) (fun _ _ => id) hawake)
      · exact fun hc => by cases hc
      · exact fun hc => by cases hc
  | @start i n hawake hpc hlock =>
      refine h.acquire hlock trivial (.free (fun _ _ => ⟨?_, ?_⟩) (fun _ _ => id) hawake)
      · exact fun hc => by cases hc
      · exact fun hc => by cases hc
  | @early i n ticks0 hawake hpc hearly =>
      refine h.stay (by rw [hpc]; exact Iff.rfl) (.goto (fun m t hc => ?_)
        (fun _ _ hc => hc.elim) hawake)
      rcases hc with hc | hc
      · cases hc
        exact hearly
      · cases hc
  | @elapsed i n ticks0 hawake hpc _ | @killed i n ticks0 hawake hpc _ =>
      refine h.release (by rw [hpc]; trivial) id
        (.free (fun _ _ => ⟨?_, ?_⟩) (fun _ _ => id) hawake)
      · exact fun hc => by cases hc
      · exact fun hc => by cases hc
  | @alive i n ticks0 hawake hpc _ =>
      refine h.stay (by rw [hpc]; exact Iff.rfl) (.goto (fun m t hc => ?_)
        (fun _ _ hc => hc.elim) hawake)
      rcases hc with hc | hc
      · cases hc
      · cases hc
        exact (h.ok i).early n ticks0 (Or.inl hpc)
  | @prepare i n ticks0 hawake hpc =>
      refine h.stay (by rw [hpc]; exact Iff.rfl) ⟨fun _ _ hc => ?_, fun m t hc _ => ?_, fun hc => ?_⟩
      · rcases hc with hc | hc
        · cases hc
        · cases hc
      · obtain ⟨rfl, rfl⟩ := hc
        exact Or.inl ((h.ok i).early n ticks0 (Or.inr hpc))
      · exact absurd (hawake.symm.trans hc) Bool.false_ne_true
  | @release i n ticks0 hawake hpc =>
      refine h.release (by rw [hpc]; trivial) id (.goto (fun _ _ hc => ?_) (fun m t hc hchan => ?_)
        hawake)
      · rcases hc with hc | hc
        · cases hc
        · cases hc
      · exact (h.ok i).waits m t (hpc ▸ hc) hchan
  | @sleep i n ticks0 hawake hpc =>
      refine h.stay (by rw [hpc]; exact Iff.rfl) ⟨fun _ _ hc => ?_, fun m t hc hchan => ?_,
        fun hc => ⟨hc, n, ticks0, rfl⟩⟩
      · rcases hc with hc | hc
        · cases hc
        · cases hc
      · exact (h.ok i).waits m t (hpc ▸ hc) hchan
  | @acquire i n ticks0 hawake hpc hlock =>
      refine h.acquire hlock trivial (.free (fun _ _ => ⟨?_, ?_⟩) (fun _ _ => id) hawake)
      · exact fun hc => by cases hc
      · exact fun hc => by cases hc
  | tick hlock => exact h.tick hlock
  | @slot k hk => exact h.slot hk
  | @woken k hk hall => exact h.woken hk hall
  | @kill i =>
      refine h.stay Iff.rfl ⟨(h.ok i).early, (h.ok i).waits, fun hc => ?_⟩
      exact absurd hc Bool.false_ne_true

theorem Boot.inv (h : Boot s) : Inv s := by
  obtain ⟨hlock, hwake, huser, hawake⟩ := h
  refine ⟨fun i => ?_, ?_, fun i => ?_⟩
  · obtain ⟨r, hr⟩ := huser i
    rw [hlock, hr]
    refine iff_of_false (fun hc => ?_) id
    cases hc
  · rw [hlock, hwake]
    refine iff_of_false (fun hc => ?_) fun hc => hc rfl
    cases hc
  · obtain ⟨r, hr⟩ := huser i
    refine ⟨fun n t hc => ?_, fun n t hc => ?_, fun hc => ?_⟩
    · rw [hr] at hc
      rcases hc with hc | hc
      · cases hc
      · cases hc
    · rw [hr] at hc
      exact hc.elim
    · exact absurd ((hawake i).symm.trans hc) Bool.false_ne_true

theorem Boot.inv_of_run (h : Boot s) {acts : List (Act nproc)} (hrun : Run s acts s') : Inv s' :=
  hrun.invariant (fun _ _ _ hinv hstep => (step_cases hstep).inv hinv) h.inv

/-- In every state of every run, outside of `clockintr`: a process that sleeps in `sys_pause`
still has ticks to wait for. No tick has passed by a process that went to sleep. -/
theorem pause_misses_no_tick (hboot : Boot s) {acts : List (Act nproc)} (hrun : Run s acts s')
    (hwake : s'.wake = none) (hasleep : (s'.party i).asleep = true) :
    ∃ n ticks0, (s'.party i).pc = .acquire n ticks0 ∧ s'.ticks - ticks0 < n := by
  have hok := (hboot.inv_of_run hrun).ok i
  obtain ⟨hchan, n, ticks0, hpc⟩ := hok.asleep hasleep
  refine ⟨n, ticks0, hpc, (hok.waits n ticks0 ?_ hchan).resolve_right ?_⟩
  · rw [hpc]
    exact ⟨rfl, rfl⟩
  · rintro ⟨k, _, hk⟩
    cases hwake.symm.trans hk

/-- After one of two ticks the process sleeps again. -/
theorem pause_misses_no_tick_again : ∃ s : State 2, s.ticks = 0 ∧
    ∃ n ticks0, (s.party 0).pc = .acquire n ticks0 ∧ s.ticks - ticks0 < n := by
  obtain ⟨s, hrun, hp⟩ := Refinement.Run.exists_of_any step (boot : State 2)
    (.call 0 2 :: pausing 0 ++ ticking 0 ++ [.next 0, .next 0, .next 0, .next 0])
    (fun s => s.ticks = 0 ∧ s.wake = none ∧ (s.party 0).asleep = true) (by decide)
  obtain ⟨hticks, hwake, hasleep⟩ := of_decide_eq_true hp
  exact ⟨s, hticks, pause_misses_no_tick boot_boot hrun hwake hasleep⟩

/-! ## Kills -/

/-- A killed process that will not sleep in `sys_pause` any more. -/
structure Local.Doomed (l : Local) : Prop where
  killed : l.killed = true
  awake : l.asleep = false
  free : ∀ n ticks0, l.pc ≠ .prepare n ticks0
  woken : ∀ n ticks0, l.pc = .release n ticks0 ∨ l.pc = .sleep n ticks0 → l.chan = false

/-- A doomed process moves to a point from which it does not go to sleep without a test. -/
theorem Local.Doomed.goto (h : l.Doomed) {c : Pc} (hfree : ∀ n ticks0, c ≠ .prepare n ticks0)
    (hwoken : ∀ n ticks0, c = .release n ticks0 ∨ c = .sleep n ticks0 → l.chan = false) :
    ({ l with pc := c } : Local).Doomed :=
  ⟨h.killed, h.awake, hfree, hwoken⟩

theorem Step.doomed (hstep : Step s a s') (h : (s.party i).Doomed) : (s'.party i).Doomed := by
  have hmove : ∀ {j : Fin nproc} {l : Local}, (j = i → l.Doomed) →
      (Function.update s.party j l i).Doomed := by
    intro j l hl
    by_cases hj : i = j
    · rw [hj, Function.update_self]
      exact hl hj.symm
    · rw [Function.update_of_ne hj]
      exact h
  have hno : ∀ {c : Pc} (_ : ∀ n t, c ≠ .release n t ∧ c ≠ .sleep n t) (n t : UInt32),
      c = .release n t ∨ c = .sleep n t → (s.party i).chan = false := by
    rintro c hc n t (hr | hr)
    · exact absurd hr (hc n t).1
    · exact absurd hr (hc n t).2
  cases hstep with
  | call hpc | start _ hpc _ | early _ hpc _ | elapsed _ hpc _ | killed _ hpc _ | acquire _ hpc _ =>
      refine hmove fun hj => ?_
      subst hj
      refine h.goto (fun _ _ hc => by cases hc) (hno fun _ _ => ⟨fun hc => ?_, fun hc => ?_⟩)
      · cases hc
      · cases hc
  | @alive j n ticks0 _ hpc halive =>
      refine hmove fun hj => ?_
      subst hj
      exact absurd (halive.symm.trans h.killed) Bool.false_ne_true
  | @prepare j n ticks0 _ hpc =>
      refine hmove fun hj => ?_
      subst hj
      exact absurd hpc (h.free n ticks0)
  | @release j n ticks0 _ hpc =>
      refine hmove fun hj => ?_
      subst hj
      exact h.goto (fun _ _ hc => by cases hc) fun _ _ _ => h.woken n ticks0 (Or.inl hpc)
  | @sleep j n ticks0 _ hpc =>
      refine hmove fun hj => ?_
      subst hj
      refine ⟨h.killed, h.woken n ticks0 (Or.inr hpc), fun _ _ hc => (by cases hc),
        hno fun _ _ => ⟨fun hc => ?_, fun hc => ?_⟩⟩
      · cases hc
      · cases hc
  | tick _ | woken _ _ => exact h
  | @slot k _ =>
      refine hmove fun hj => ?_
      subst hj
      unfold Local.wakeup
      split_ifs
      · exact ⟨h.killed, rfl, h.free, fun _ _ _ => rfl⟩
      · exact h
  | kill =>
      refine hmove fun hj => ?_
      subst hj
      exact ⟨rfl, rfl, h.free, h.woken⟩

/-- What has become of a killed process in slot `i`: it is doomed; or no tick has begun yet, or
its `wakeup` has not come to the slot. -/
structure Sentenced (ticked : Prop) (i : Fin nproc) (s : State nproc) : Prop where
  killed : (s.party i).killed = true
  doomed : (s.party i).Doomed ∨ (¬ ticked ∧ s.wake = none) ∨ ∃ k ≤ i.val, s.wake = some k

theorem Step.stays_killed (hstep : Step s a s') (h : (s.party i).killed = true) :
    (s'.party i).killed = true := by
  have hmove : ∀ {j : Fin nproc} {l : Local}, (j = i → l.killed = true) →
      (Function.update s.party j l i).killed = true := by
    intro j l hl
    by_cases hj : i = j
    · rw [hj, Function.update_self]
      exact hl hj.symm
    · rw [Function.update_of_ne hj]
      exact h
  cases hstep with
  | tick _ | woken _ _ => exact h
  | @slot k _ =>
      refine hmove fun hj => ?_
      subst hj
      unfold Local.wakeup
      split_ifs
      · exact h
      · exact h
  | kill => exact hmove fun _ => rfl
  | _ =>
      refine hmove fun hj => ?_
      subst hj
      exact h

theorem Step.sentenced {ticked ticked' : Prop} (hstep : Step s a s') (hinv : Inv s)
    (h : Sentenced ticked i s) (hticked : ticked' → ticked ∨ a = .tick) :
    Sentenced ticked' i s' := by
  refine ⟨hstep.stays_killed h.killed, ?_⟩
  rcases h.doomed with hdoomed | hwait
  · exact Or.inl (hstep.doomed hdoomed)
  · have hstay : s'.wake = s.wake → a ≠ .tick → (s'.party i).Doomed ∨
        (¬ ticked' ∧ s'.wake = none) ∨ ∃ k ≤ i.val, s'.wake = some k := by
      intro hwake ha
      rw [hwake]
      exact Or.inr (hwait.imp_left fun hno => ⟨fun hc => (hticked hc).elim hno.1 ha, hno.2⟩)
    cases hstep with
    | tick _ => exact Or.inr (Or.inr ⟨0, Nat.zero_le _, rfl⟩)
    | @slot k hk =>
        rcases hwait with ⟨_, hnone⟩ | ⟨k', hle, hk'⟩
        · cases hnone.symm.trans hk
        · have heq : k.val = k' := Option.some_inj.mp (hk.symm.trans hk')
          by_cases hi : k = i
          · subst hi
            refine Or.inl ?_
            have hfree : ¬ (s.party k).pc.Holds := fun hholds => by
              have hheld := (hinv.holder k).mpr hholds
              rw [hinv.clock.mpr (by rw [hk]; exact Option.some_ne_none _)] at hheld
              cases hheld
            have hprepare : ∀ n t, (s.party k).pc ≠ .prepare n t := fun n t hc => by
              rw [hc] at hfree
              exact hfree trivial
            change (Function.update s.party k _ k).Doomed
            rw [Function.update_self]
            unfold Local.wakeup
            split_ifs with hchan
            · exact ⟨h.killed, rfl, hprepare, fun _ _ _ => rfl⟩
            · refine ⟨h.killed, ?_, hprepare, fun _ _ _ => Bool.eq_false_of_not_eq_true hchan⟩
              by_contra hasleep
              exact hchan ((hinv.ok k).asleep (Bool.eq_true_of_not_eq_false hasleep)).1
          · have hne : k.val ≠ i.val := fun hval => hi (Fin.ext hval)
            exact Or.inr (Or.inr ⟨k + 1, by omega, rfl⟩)
    | @woken k hk hall =>
        rcases hwait with ⟨_, hnone⟩ | ⟨k', hle, hk'⟩
        · cases hnone.symm.trans hk
        · have heq : k = k' := Option.some_inj.mp (hk.symm.trans hk')
          have hlt := i.isLt
          omega
    | _ => exact hstay rfl fun ha => by cases ha

/-- A killed process sleeps through one tick of the timer at most: after it, the process is
awake, and stays so. -/
theorem killed_pause_one_tick (hboot : Boot s) {acts acts' : List (Act nproc)}
    (hreach : Run s acts s') (hkilled : (s'.party i).killed = true) (hwake : s'.wake = none)
    {s'' : State nproc} (hrun : Run s' acts' s'') (htick : .tick ∈ acts')
    (hwake' : s''.wake = none) : (s''.party i).asleep = false := by
  have hsentenced : Sentenced (.tick ∈ acts') i s'' := by
    clear htick hwake'
    induction hrun with
    | start => exact ⟨hkilled, Or.inr (Or.inl ⟨List.not_mem_nil, hwake⟩)⟩
    | @next es e t t' hes hstep ih =>
        refine (step_cases hstep).sentenced (hboot.inv_of_run (hreach.append hes)) ih fun hc => ?_
        rcases List.mem_append.mp hc with hc | hc
        · exact Or.inl hc
        · exact Or.inr (List.mem_singleton.mp hc).symm
  rcases hsentenced.doomed with hdoomed | ⟨hno, _⟩ | ⟨k, _, hk⟩
  · exact hdoomed.awake
  · exact absurd htick hno
  · cases hwake'.symm.trans hk

/-- The process is killed after its test and before `sleep_prepare`, and goes to sleep. -/
theorem killed_pause_one_tick_late : ∃ s s' : State 2, (s.party 0).asleep = true ∧
    (s.party 0).killed = true ∧ (s'.party 0).asleep = false := by
  obtain ⟨s, hrun, hp⟩ := Refinement.Run.exists_of_any step (boot : State 2)
    (.call 0 1 :: pausing 0 ++ [.kill 0, .next 0, .next 0, .next 0])
    (fun s => ((s.party 0).asleep = true ∧ (s.party 0).killed = true ∧ s.wake = none) ∧
      ([.tick, .wake, .wake, .wake].foldlM step s).any (fun s' => s'.wake = none)) (by decide)
  obtain ⟨⟨hasleep, hkilled, hwake⟩, hany⟩ := of_decide_eq_true hp
  obtain ⟨s', hrun', hwake'⟩ := Refinement.Run.exists_of_any step s [.tick, .wake, .wake, .wake] _ hany
  exact ⟨s, s', hasleep, hkilled, killed_pause_one_tick boot_boot hrun hkilled hwake hrun'
    List.mem_cons_self (of_decide_eq_true hwake')⟩

end Pause
