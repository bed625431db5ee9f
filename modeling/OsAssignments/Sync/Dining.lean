import OsAssignments.Sync.LockPair

/-!
# Dining philosophers

The philosophers of `dining.c` around a ring of any size from two on. Each takes the fork
with the lower index first, so the last one of the ring takes its forks in the opposite
order to all others.

`sem_down` and `sem_up` return at once when there is no semaphore with the given index;
`semCount` is the size of the kernel's array. While every fork has a semaphore, a
philosopher is a party of `LockPair`: `philosopher_eq`.
-/

namespace Dining

open Interleaving LockPair

section Ring

variable {n : ℕ}

def leftFork (id : Fin n) : Fin n := id

theorem succ_mod_lt (id : Fin n) : (id.val + 1) % n < n :=
  Nat.mod_lt _ (Nat.zero_lt_of_lt id.isLt)

def rightFork (id : Fin n) : Fin n := ⟨(id.val + 1) % n, succ_mod_lt id⟩

def firstFork (id : Fin n) : Fin n :=
  if leftFork id < rightFork id then leftFork id else rightFork id

def secondFork (id : Fin n) : Fin n :=
  if leftFork id < rightFork id then rightFork id else leftFork id

/-- `sem_down(id)`, which does nothing when there is no semaphore `id`. -/
def semDown (semCount : ℕ) (id : Fin n) (sems : Fin n → ℕ) : Option (Fin n → ℕ) :=
  if semCount ≤ id then some sems
  else (down (sems id)).map fun v => Function.update sems id v

/-- `sem_up(id)`, likewise. -/
def semUp (semCount : ℕ) (id : Fin n) (sems : Fin n → ℕ) : Fin n → ℕ :=
  if semCount ≤ id then sems
  else Function.update sems id (sems id + 1)

/-- The next step of the philosopher `id`; it thinks before its first wait, and eats
between its second wait and its first post. -/
def philosopher (semCount cycles : ℕ) (id : Fin n) (s : Shared (Fin n) Unit) (l : Local) :
    Option (Shared (Fin n) Unit × Local) :=
  match l.pc with
  | .waitFirst => (semDown semCount (firstFork id) s.sems).map fun sems =>
      ({ s with sems := sems }, { l with pc := .waitSecond })
  | .waitSecond => (semDown semCount (secondFork id) s.sems).map fun sems =>
      ({ s with sems := sems }, { l with pc := .work })
  | .work => some (s, { l with pc := .postSecond })
  | .postSecond =>
      some ({ s with sems := semUp semCount (secondFork id) s.sems }, { l with pc := .postFirst })
  | .postFirst =>
      some ({ s with sems := semUp semCount (firstFork id) s.sems }, loop cycles (l.cycle + 1))
  | .complete => some (s, { l with pc := .finished })
  | .finished => none

def start (n cycles : ℕ) : System (Fin n) (Fin n) Unit where
  shared := ⟨fun _ => 1, ()⟩
  party := fun _ => loop cycles 0

abbrev Run (semCount cycles : ℕ) : System (Fin n) (Fin n) Unit → Prop :=
  Runs (philosopher semCount cycles) Anyone (start n cycles)

/-! ## A philosopher as a party -/

/-- What a philosopher does with the forks, and that it stores nothing. -/
def task (cycles : ℕ) (id : Fin n) : Task (Fin n) Unit where
  first := firstFork id
  second := secondFork id
  cycles := cycles
  store := fun mem => mem

theorem leftFork_ne_rightFork (hn : 2 ≤ n) (id : Fin n) : leftFork id ≠ rightFork id := by
  intro h
  have hval : id.val = (id.val + 1) % n := congrArg Fin.val h
  have hid := id.isLt
  rcases Nat.lt_or_ge (id.val + 1) n with hlt | hge
  · rw [Nat.mod_eq_of_lt hlt] at hval
    omega
  · have hlast : id.val + 1 = n := by omega
    rw [hlast, Nat.mod_self] at hval
    omega

theorem firstFork_lt_secondFork (hn : 2 ≤ n) (id : Fin n) : firstFork id < secondFork id := by
  unfold firstFork secondFork
  by_cases h : leftFork id < rightFork id
  · rw [if_pos h, if_pos h]
    exact h
  · rw [if_neg h, if_neg h]
    exact lt_of_le_of_ne (not_lt.mp h) (leftFork_ne_rightFork hn id).symm

theorem mem_forks (id f : Fin n) :
    (f = firstFork id ∨ f = secondFork id) ↔ (f = leftFork id ∨ f = rightFork id) := by
  unfold firstFork secondFork
  by_cases h : leftFork id < rightFork id
  · rw [if_pos h, if_pos h]
  · rw [if_neg h, if_neg h]
    exact or_comm

variable {semCount cycles : ℕ}

theorem semDown_eq (hforks : n ≤ semCount) (id : Fin n) (sems : Fin n → ℕ) :
    semDown semCount id sems = (down (sems id)).map fun v => Function.update sems id v :=
  if_neg (not_le.mpr (id.isLt.trans_le hforks))

theorem semUp_eq (hforks : n ≤ semCount) (id : Fin n) (sems : Fin n → ℕ) :
    semUp semCount id sems = Function.update sems id (sems id + 1) :=
  if_neg (not_le.mpr (id.isLt.trans_le hforks))

/-- While every fork has a semaphore, the philosopher is a party of `LockPair`. -/
theorem philosopher_eq (hforks : n ≤ semCount) :
    philosopher (n := n) semCount cycles = LockPair.step (task cycles) := by
  funext id s l
  obtain ⟨pc, cycle⟩ := l
  cases pc with
  | waitFirst => simp [philosopher, LockPair.step, advance, task, semDown_eq hforks, Function.comp_def]
  | waitSecond => simp [philosopher, LockPair.step, advance, task, semDown_eq hforks, Function.comp_def]
  | postSecond => simp [philosopher, LockPair.step, advance, task, semUp_eq hforks]
  | postFirst => simp [philosopher, LockPair.step, advance, task, semUp_eq hforks]
  | _ => rfl

/-- The philosopher is between its second wait and its first post. -/
def Eating (l : Local) : Prop := l.pc = .work ∨ l.pc = .postSecond

theorem holds_of_eating {id f : Fin n} {l : Local} (h : Eating l)
    (hf : f = leftFork id ∨ f = rightFork id) : Holds (task cycles id) l f := by
  have hpc : l.pc.holdsFirst = true ∧ l.pc.holdsSecond = true := by
    rcases h with hpc | hpc
    · simp [hpc, Pc.holdsFirst, Pc.holdsSecond]
    · simp [hpc, Pc.holdsFirst, Pc.holdsSecond]
  rcases (mem_forks id f).mpr hf with hfirst | hsecond
  · exact Or.inl ⟨hfirst, hpc.1⟩
  · exact Or.inr ⟨hsecond, hpc.2⟩

/-! ## Runs -/

variable {s : System (Fin n) (Fin n) Unit}

theorem balanced_of_run (hn : 2 ≤ n) (hforks : n ≤ semCount) (h : Run semCount cycles s) :
    BalancedBy (task cycles) (fun _ => 1) s := by
  rw [Run, philosopher_eq hforks] at h
  exact LockPair.balanced_of_run (fun id => (firstFork_lt_secondFork hn id).ne) h

/-- In every state of every run, for every size of the ring and any number of cycles:
philosophers that share a fork are not both eating, a fork is 0 or 1, and 0 exactly when
some philosopher holds it, and the philosophers are not deadlocked. -/
theorem dining (n semCount cycles : ℕ) (hn : 2 ≤ n) (hforks : n ≤ semCount)
    (s : System (Fin n) (Fin n) Unit) (hrun : Run semCount cycles s) :
    (∀ id other : Fin n, id ≠ other →
      (∃ f, (f = leftFork id ∨ f = rightFork id) ∧ (f = leftFork other ∨ f = rightFork other)) →
      ¬ (Eating (s.party id) ∧ Eating (s.party other))) ∧
    (∀ f, (s.shared.sems f = 0 ∨ s.shared.sems f = 1) ∧
      (s.shared.sems f = 0 ↔ ∃ id, Holds (task cycles id) (s.party id) f)) ∧
    ¬ Deadlocked (philosopher semCount cycles) (fun l => l.pc = .finished) s := by
  have hbalanced := balanced_of_run hn hforks hrun
  refine ⟨?_, fun f => ⟨?_, ?_, ?_⟩, ?_⟩
  · rintro id other hne ⟨f, hid, hother⟩ ⟨heat, heat'⟩
    exact hne (hbalanced.eq_of_holds rfl (holds_of_eating heat hid) (holds_of_eating heat' hother))
  · have hle : s.shared.sems f ≤ 1 := hbalanced.value_le f
    omega
  · exact fun hzero => hbalanced.exists_holds hzero Nat.one_pos
  · rintro ⟨id, hid⟩
    exact hbalanced.value_eq_zero rfl hid
  · rw [philosopher_eq hforks]
    exact not_deadlocked_of_balanced (firstFork_lt_secondFork hn) (fun _ => le_rfl) hbalanced

end Ring

/-! ## The first round -/

/-- Philosopher 0 eats while philosopher 4 waits for fork 0, which the two share. -/
theorem exec_neighbours : (exec (philosopher 10 5) Anyone (start 5 5) [0, 0, 3]).any
    (fun s => s.shared.sems 0 = 0 ∧ (s.party 0).pc = .work ∧ (s.party 4).pc = .waitFirst) =
      true := by
  decide +kernel

theorem dining_neighbours : ∃ s : System (Fin 5) (Fin 5) Unit, Run 10 5 s ∧
    (s.party 0).pc = .work ∧ s.shared.sems 0 = 0 ∧
      (∃ id, Holds (task 5 id) (s.party id) 0) ∧
      ¬ Deadlocked (philosopher 10 5) (fun l => l.pc = .finished) s := by
  obtain ⟨s, hrun, hs⟩ := exists_run exec_neighbours
  obtain ⟨hfork, heats, -⟩ := of_decide_eq_true hs
  obtain ⟨-, hforks, hfree⟩ := dining 5 10 5 (by decide) (by decide) s hrun
  exact ⟨s, hrun, heats, hfork, (hforks 0).2.mp hfork, hfree⟩

end Dining
