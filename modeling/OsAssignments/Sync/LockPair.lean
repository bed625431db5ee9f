import OsAssignments.Library.OrderedLocks

/-!
# Two resources taken one after the other

The worker of `syncdeadlock.c` takes one unit of each of its two resources, works, and
gives them back, for a number of cycles. `fixed_process` of `resourceorder.c` does this
once, and the philosopher of `dining.c` does it with two forks. A `Task` is what they
differ in: the two resources, the number of cycles, and what is stored at the end.

`balanced_of_run` says that in every state of every run the units of each resource are in
its semaphore or held. When each task takes its lower resource first, nobody can be in a
circular wait: `not_deadlocked_of_run`.
-/

namespace LockPair

open Interleaving

/-! ## The common loop -/

inductive Pc
  | waitFirst
  | waitSecond
  | work
  | postSecond
  | postFirst
  | complete
  | finished
  deriving DecidableEq

/-- A party: its next step, and its loop counter, counted from 0. -/
structure Local where
  pc : Pc
  cycle : ℕ
  deriving DecidableEq

/-- The semaphores, one for each resource, and the shared memory. -/
structure Shared (R μ : Type) where
  sems : R → ℕ
  mem : μ

/-- What a party is to do: its resources in the order in which it takes them, its number
of cycles, and its last store. -/
structure Task (R μ : Type) where
  first : R
  second : R
  cycles : ℕ
  store : μ → μ

/-- The test of the loop before cycle `cycle` of `cycles`. -/
def loop (cycles cycle : ℕ) : Local :=
  ⟨if cycle < cycles then .waitFirst else .complete, cycle⟩

section Code

variable {ι R μ : Type} [DecidableEq R]

def advance (task : Task R μ) (s : Shared R μ) (l : Local) : Option (Shared R μ × Local) :=
  match l.pc with
  | .waitFirst => (down (s.sems task.first)).map fun v =>
      ({ s with sems := Function.update s.sems task.first v }, { l with pc := .waitSecond })
  | .waitSecond => (down (s.sems task.second)).map fun v =>
      ({ s with sems := Function.update s.sems task.second v }, { l with pc := .work })
  | .work => some (s, { l with pc := .postSecond })
  | .postSecond =>
      some ({ s with sems := Function.update s.sems task.second (s.sems task.second + 1) },
        { l with pc := .postFirst })
  | .postFirst =>
      some ({ s with sems := Function.update s.sems task.first (s.sems task.first + 1) },
        loop task.cycles (l.cycle + 1))
  | .complete => some ({ s with mem := task.store s.mem }, { l with pc := .finished })
  | .finished => none

def step (tasks : ι → Task R μ) (i : ι) : Shared R μ → Local → Option (Shared R μ × Local) :=
  advance (tasks i)

abbrev System (ι R μ : Type) := State ι (Shared R μ) Local

/-- All parties begin, with the semaphores at their capacities and `mem` in memory. -/
def start (tasks : ι → Task R μ) (capacities : R → ℕ) (mem : μ) : System ι R μ where
  shared := ⟨capacities, mem⟩
  party := fun i => loop (tasks i).cycles 0

end Code

/-! ## What a party holds -/

/-- Whether the party has taken its first resource and not given it back. -/
def Pc.holdsFirst : Pc → Bool
  | waitSecond => true
  | work => true
  | postSecond => true
  | postFirst => true
  | _ => false

def Pc.holdsSecond : Pc → Bool
  | work => true
  | postSecond => true
  | _ => false

section Holds

variable {R μ : Type} {task : Task R μ} {l l' : Local} {s s' : Shared R μ} {r : R}

/-- The party holds a unit of `r`. -/
def Holds (task : Task R μ) (l : Local) (r : R) : Prop :=
  r = task.first ∧ l.pc.holdsFirst = true ∨ r = task.second ∧ l.pc.holdsSecond = true

instance [DecidableEq R] : Decidable (Holds task l r) :=
  inferInstanceAs (Decidable (_ ∨ _))

@[simp] theorem loop_holdsFirst (cycles cycle : ℕ) :
    (loop cycles cycle).pc.holdsFirst = false := by
  unfold loop
  split <;> rfl

@[simp] theorem loop_holdsSecond (cycles cycle : ℕ) :
    (loop cycles cycle).pc.holdsSecond = false := by
  unfold loop
  split <;> rfl

theorem loop_ne_finished (cycles cycle : ℕ) : (loop cycles cycle).pc ≠ .finished := by
  unfold loop
  split <;> simp

theorem not_holds_loop (task : Task R μ) (cycles cycle : ℕ) (r : R) :
    ¬ Holds task (loop cycles cycle) r := by
  simp [Holds]

theorem not_holds_of_finished (h : l.pc = .finished) (r : R) : ¬ Holds task l r := by
  simp [Holds, h, Pc.holdsFirst, Pc.holdsSecond]

variable [DecidableEq R]

/-- A step takes from the semaphores what the party then holds, and gives to them what it
no longer holds. -/
theorem advance_moves (hne : task.first ≠ task.second)
    (h : advance task s l = some (s', l')) (r : R) :
    s'.sems r + (if Holds task l' r then 1 else 0) =
      s.sems r + if Holds task l r then 1 else 0 := by
  obtain ⟨pc, cycle⟩ := l
  cases pc with
  | waitFirst =>
      obtain ⟨v, hv, heq⟩ := Option.map_eq_some_iff.mp h
      cases heq
      rw [down_eq_some] at hv
      by_cases hr : r = task.first
      · simp [Holds, Pc.holdsFirst, Pc.holdsSecond, hr, hv]
      · simp [Holds, Pc.holdsFirst, Pc.holdsSecond, hr]
  | waitSecond =>
      obtain ⟨v, hv, heq⟩ := Option.map_eq_some_iff.mp h
      cases heq
      rw [down_eq_some] at hv
      by_cases hr : r = task.second
      · simp [Holds, Pc.holdsFirst, Pc.holdsSecond, hr, hv, hne.symm]
      · simp [Holds, Pc.holdsFirst, Pc.holdsSecond, hr]
  | work =>
      cases h
      simp [Holds, Pc.holdsFirst, Pc.holdsSecond]
  | postSecond =>
      cases h
      by_cases hr : r = task.second
      · simp [Holds, Pc.holdsFirst, Pc.holdsSecond, hr, hne.symm]
      · simp [Holds, Pc.holdsFirst, Pc.holdsSecond, hr]
  | postFirst =>
      cases h
      rw [if_neg (not_holds_loop task _ _ r)]
      by_cases hr : r = task.first
      · simp [Holds, Pc.holdsFirst, Pc.holdsSecond, hr]
      · simp [Holds, Pc.holdsFirst, Pc.holdsSecond, hr]
  | complete =>
      cases h
      simp [Holds, Pc.holdsFirst, Pc.holdsSecond]
  | finished => cases h

theorem advance_stores (h : advance task s l = some (s', l')) :
    s'.mem = s.mem ∧ l'.pc ≠ .finished ∨ s'.mem = task.store s.mem := by
  obtain ⟨pc, cycle⟩ := l
  cases pc with
  | waitFirst =>
      obtain ⟨v, _, heq⟩ := Option.map_eq_some_iff.mp h
      cases heq
      exact Or.inl ⟨rfl, by simp⟩
  | waitSecond =>
      obtain ⟨v, _, heq⟩ := Option.map_eq_some_iff.mp h
      cases heq
      exact Or.inl ⟨rfl, by simp⟩
  | work =>
      cases h
      exact Or.inl ⟨rfl, by simp⟩
  | postSecond =>
      cases h
      exact Or.inl ⟨rfl, by simp⟩
  | postFirst =>
      cases h
      exact Or.inl ⟨rfl, loop_ne_finished _ _⟩
  | complete =>
      cases h
      exact Or.inr rfl
  | finished => cases h

/-- A blocked party waits for one of its resources, which is exhausted, and holds only
what comes before it. -/
theorem blocked_waits [LinearOrder R] (hlt : task.first < task.second)
    (h : advance task s l = none) (hpc : l.pc ≠ .finished) :
    ∃ r, s.sems r = 0 ∧ ∀ q, Holds task l q → q < r := by
  obtain ⟨pc, cycle⟩ := l
  cases pc with
  | waitFirst =>
      refine ⟨task.first, down_eq_none.mp (Option.map_eq_none_iff.mp h), fun q hq => ?_⟩
      simp [Holds, Pc.holdsFirst, Pc.holdsSecond] at hq
  | waitSecond =>
      refine ⟨task.second, down_eq_none.mp (Option.map_eq_none_iff.mp h), fun q hq => ?_⟩
      simp only [Holds, Pc.holdsFirst, Pc.holdsSecond, and_true, Bool.false_eq_true, and_false,
        or_false] at hq
      rw [hq]
      exact hlt
  | finished => exact absurd rfl hpc
  | _ => cases h

end Holds

/-! ## Runs -/

section Runs

variable {ι R μ : Type} [DecidableEq R] {tasks : ι → Task R μ} {capacities : R → ℕ} {mem : μ}
  {s : System ι R μ}

abbrev Run [DecidableEq ι] (tasks : ι → Task R μ) (capacities : R → ℕ) (mem : μ) :
    System ι R μ → Prop :=
  Runs (step tasks) Anyone (start tasks capacities mem)

variable [Fintype ι]

/-- The parties that hold a unit of `r`. -/
def holdersOf (tasks : ι → Task R μ) (s : System ι R μ) (r : R) : Finset ι :=
  holders (fun i => Holds (tasks i)) s.party r

@[simp] theorem mem_holdersOf {i : ι} {r : R} :
    i ∈ holdersOf tasks s r ↔ Holds (tasks i) (s.party i) r :=
  mem_holders

abbrev BalancedBy (tasks : ι → Task R μ) (capacities : R → ℕ) (s : System ι R μ) : Prop :=
  Balanced (fun i => Holds (tasks i)) Shared.sems capacities s

theorem balanced_of_run [DecidableEq ι] (hne : ∀ i, (tasks i).first ≠ (tasks i).second)
    (h : Run tasks capacities mem s) : BalancedBy tasks capacities s := by
  refine Runs.invariant ?_ ?_ h
  · exact Balanced.start (fun i r => not_holds_loop (tasks i) _ _ r) fun _ => rfl
  · intro s i x k hbalanced _ hs
    exact hbalanced.move (advance_moves (hne i) hs)

omit [Fintype ι] in
/-- What each party's own store brings about, and the stores of the others keep, holds of
every party that has finished. -/
theorem stored_of_run [DecidableEq ι] {P : ι → μ → Prop}
    (hown : ∀ i mem, P i ((tasks i).store mem))
    (hothers : ∀ i j mem, i ≠ j → P i mem → P i ((tasks j).store mem))
    (h : Run tasks capacities mem s) :
    ∀ i, (s.party i).pc = .finished → P i s.shared.mem := by
  refine Runs.invariant
    (I := fun s => ∀ i, (s.party i).pc = .finished → P i s.shared.mem) ?_ ?_ h
  · exact fun i hi => absurd hi (loop_ne_finished _ _)
  · intro s i x k hstored _ hs
    refine State.forall_move
      (P := fun (x : Shared R μ) i (k : Local) => k.pc = .finished → P i x.mem) ?_ ?_
    · intro hk
      rcases advance_stores hs with ⟨_, hne⟩ | hmem
      · exact absurd hk hne
      · rw [hmem]
        exact hown i s.shared.mem
    · intro j hj hfinished
      have hP := hstored j hfinished
      rcases advance_stores hs with ⟨hmem, _⟩ | hmem
      · rwa [hmem]
      · rw [hmem]
        exact hothers j i s.shared.mem hj hP

theorem not_deadlocked_of_balanced [LinearOrder R]
    (hlt : ∀ i, (tasks i).first < (tasks i).second) (hcap : ∀ r, 1 ≤ capacities r)
    (h : BalancedBy tasks capacities s) :
    ¬ Deadlocked (step tasks) (fun l => l.pc = .finished) s := by
  refine h.not_deadlocked (fun i hi r => not_holds_of_finished hi r) fun i hi hs => ?_
  obtain ⟨r, hzero, habove⟩ := blocked_waits (hlt i) hs hi
  exact ⟨r, hzero, hcap r, habove⟩

end Runs

end LockPair
