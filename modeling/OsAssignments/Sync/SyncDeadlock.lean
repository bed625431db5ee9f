import Mathlib.Algebra.GroupWithZero.Nat
import Mathlib.Data.Fin.VecNotation
import OsAssignments.Library.TableIndex
import OsAssignments.Sync.LockPair

/-!
# Ordered acquisition

The workers of `syncdeadlock.c`, for any number of workers, of resources and of cycles,
any capacities and any table of needs. They are parties of `LockPair`; the order in which they
take their resources is what excludes a deadlock. `sem_wait` and `sem_post` are taken to be
atomic operations of counting semaphores.
-/

namespace SyncDeadlock

open Interleaving LockPair

variable {n m : ℕ}

/-- The worker `id`, with the row `needs[id]`; the memory is the array `completed`. -/
def worker (needs : Fin n → Fin m × Fin m) (cycles : ℕ) (id : Fin n) :
    Task (Fin m) (Fin n → ℕ) where
  first := (needs id).1
  second := (needs id).2
  cycles := cycles
  store := fun completed => Function.update completed id cycles

/-- In every state of every run a resource has no more holders than units and the workers
are not deadlocked; once all have finished, `completed` counts the cycles of each and the
semaphores are back at their capacities. -/
theorem ordered_acquisition (needs : Fin n → Fin m × Fin m) (capacities : Fin m → ℕ)
    (cycles : ℕ) (hneeds : ∀ id, (needs id).1 < (needs id).2)
    (hcapacities : ∀ r, 1 ≤ capacities r)
    (s : System (Fin n) (Fin m) (Fin n → ℕ))
    (hrun : Run (worker needs cycles) capacities (fun _ => 0) s) :
    (∀ r, (holdersOf (worker needs cycles) s r).card ≤ capacities r) ∧
    ¬ Deadlocked (step (worker needs cycles)) (fun l => l.pc = .finished) s ∧
    ((∀ id, (s.party id).pc = .finished) →
      (∀ id, s.shared.mem id = cycles) ∧ ∀ r, s.shared.sems r = capacities r) := by
  have hbalanced : BalancedBy (worker needs cycles) capacities s :=
    balanced_of_run (fun id => (hneeds id).ne) hrun
  refine ⟨hbalanced.card_le, not_deadlocked_of_balanced hneeds hcapacities hbalanced, ?_⟩
  intro hfinished
  constructor
  · intro id
    refine stored_of_run (P := fun id completed => completed id = cycles) ?_ ?_ hrun id
      (hfinished id)
    · intro id completed
      exact Function.update_self id cycles completed
    · intro id other completed hne hid
      change Function.update completed other cycles id = cycles
      rw [Function.update_of_ne hne, hid]
  · intro r
    exact hbalanced.value_eq fun id => not_holds_of_finished (hfinished id) r

/-- `needs` and `capacities` of the program. -/
def needsTable : Fin 5 → Fin 3 × Fin 3 := ![(0, 1), (0, 2), (1, 2), (0, 1), (1, 2)]

def capacityTable : Fin 3 → ℕ := ![2, 1, 2]

theorem exec_printers : (exec (step (worker needsTable 3)) Anyone
    (start (worker needsTable 3) capacityTable fun _ => 0) [0, 1, 0]).any
      (fun s => s.shared.sems 0 = 0 ∧ s.shared.sems 1 = 0) = true := by
  decide +kernel

theorem ordered_acquisition_printers :
    ∃ s : System (Fin 5) (Fin 3) (Fin 5 → ℕ),
      Run (worker needsTable 3) capacityTable (fun _ => 0) s ∧
      s.shared.sems 0 = 0 ∧ s.shared.sems 1 = 0 ∧
      (∀ r, (holdersOf (worker needsTable 3) s r).card ≤ capacityTable r) ∧
      ¬ Deadlocked (step (worker needsTable 3)) (fun l => l.pc = .finished) s := by
  obtain ⟨s, hrun, hs⟩ := exists_run exec_printers
  obtain ⟨hprinters, hscanner⟩ := of_decide_eq_true hs
  obtain ⟨hholders, hfree, -⟩ := ordered_acquisition needsTable capacityTable 3 (by decide)
    (by decide) s hrun
  exact ⟨s, hrun, hprinters, hscanner, hholders, hfree⟩

end SyncDeadlock
