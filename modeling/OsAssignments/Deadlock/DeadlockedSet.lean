import OsAssignments.Deadlock.Detection
import Mathlib.Data.Finset.BooleanAlgebra
import Mathlib.Order.Bounds.Basic

/-!
# The set a detector reports

A set of processes is `Unserved` when each of them holds something and has a
request that exceeds the pool and everything the processes outside the set hold.
The detector writes the greatest such set: its complement is where the
reduction gets stuck, and the complement of any unserved set is stuck.

A greatest set is unique, so the report does not depend on the numbering of the
processes. The totals must fit in an `int`; otherwise the processes that finish first
can make `work` overflow and block the others.
-/

namespace Deadlock

open Reduction (System)

variable {n m : ℕ}

/-- Each process of `D` holds something, and even if everybody outside `D`
finished, some resource it requests would not suffice. -/
def Unserved (allocation request : Table n m) (available : Fin m → Int32)
    (D : Finset (Fin n)) : Prop :=
  ∀ p ∈ D, (∃ r, allocation p r ≠ 0) ∧
    ∃ r, (request p r).toInt > (available r).toInt + ∑ q ∈ Dᶜ, (allocation q r).toInt

theorem not_le_work_iff (allocation request : Table n m) (available : Fin m → Int32)
    (S : Finset (Fin n)) (p : Fin n) :
    (¬ (system request allocation available).need p ≤
        (system request allocation available).work S) ↔
      ∃ r, (request p r).toInt > (available r).toInt + ∑ q ∈ S, (allocation q r).toInt := by
  rw [Pi.le_def, not_forall]
  apply exists_congr
  intro r
  rw [system_work_apply, not_le]
  rfl

/-- A set is unserved exactly when the rest contains the idle processes and is
stuck. -/
theorem unserved_iff_stuck (allocation request : Table n m)
    (available : Fin m → Int32) (D : Finset (Fin n)) :
    Unserved allocation request available D ↔
      idle allocation ⊆ Dᶜ ∧ (system request allocation available).Stuck Dᶜ := by
  constructor
  · intro h
    refine ⟨fun p hp => ?_, fun p hp => ?_⟩
    · rw [Finset.mem_compl]
      intro hpD
      obtain ⟨⟨r, hr⟩, -⟩ := h p hpD
      exact hr ((mem_idle allocation p).1 hp r)
    · rw [Finset.notMem_compl] at hp
      exact (not_le_work_iff allocation request available Dᶜ p).2 (h p hp).2
  · rintro ⟨hidle, hstuck⟩ p hp
    have hpc : p ∉ Dᶜ := Finset.notMem_compl.2 hp
    refine ⟨?_, (not_le_work_iff allocation request available Dᶜ p).1 (hstuck p hpc)⟩
    by_contra hnone
    push Not at hnone
    exact hpc (hidle ((mem_idle allocation p).2 hnone))

theorem Unserved.renumber {allocation request : Table n m} {available : Fin m → Int32}
    {D : Finset (Fin n)} (e : Equiv.Perm (Fin n))
    (h : Unserved (fun p => allocation (e p)) (fun p => request (e p)) available D) :
    Unserved allocation request available (D.map e.toEmbedding) := by
  intro p hp
  obtain ⟨q, hq, rfl⟩ := Finset.mem_map.1 hp
  obtain ⟨hholds, r, hr⟩ := h q hq
  refine ⟨hholds, r, ?_⟩
  have hsum : ∑ q ∈ Dᶜ, (allocation (e q) r).toInt =
      ∑ q ∈ (D.map e.toEmbedding)ᶜ, (allocation q r).toInt := by
    refine Finset.sum_equiv e (fun q => ?_) fun _ _ => rfl
    simp
  rw [← hsum]
  exact hr

theorem TotalFits.renumber {allocation : Table n m} {available : Fin m → Int32}
    (h : TotalFits allocation available) (e : Equiv.Perm (Fin n)) :
    TotalFits (fun p => allocation (e p)) available := by
  intro r
  rw [Equiv.sum_comp e fun p => (allocation p r).toInt]
  exact h r

/-- The detector returns, writes its report in ascending order and without repetition, and
reports every unserved set; unless `work` overflows, it reports the greatest one. -/
theorem detectDeadlock_isGreatest (allocation request : Table n m)
    (available : Fin m → Int32) (hallocation : ∀ p, 0 ≤ ints (allocation p)) :
    ∃ deadlocked, detectDeadlock allocation request available = some deadlocked ∧
      deadlocked.Pairwise (· < ·) ∧
      deadlocked.toFinset ∈ upperBounds {D | Unserved allocation request available D} ∧
      (TotalFits allocation available →
        Unserved allocation request available deadlocked.toFinset) := by
  obtain ⟨s, hs, hcompletes, hstuck⟩ :=
    detectLoop_spec allocation request available hallocation
  set deadlocked := (List.finRange n).filter fun p => !s.finished p with hd
  have hcompl : deadlocked.toFinsetᶜ = s.finishedSet := by
    ext p
    simp [hd]
  refine ⟨deadlocked, congrArg (Option.map _) hs, ?_, ?_, ?_⟩
  · exact (List.pairwise_lt_finRange n).filter _
  · intro D hD
    rw [Set.mem_ofPred_eq, unserved_iff_stuck] at hD
    have hsub : s.finishedSet ⊆ Dᶜ :=
      hcompletes.subset_of_stuck hallocation rfl rfl (fun _ => le_rfl) hD.1 hD.2
    rwa [← hcompl, Finset.compl_subset_compl] at hsub
  · intro htotal
    rw [unserved_iff_stuck, hcompl]
    exact ⟨hcompletes.subset, hstuck htotal⟩

/-- What is reported is in ascending order and without repetition, and contains every
unserved set. As long as the totals fit in an `int`, it is the greatest of them; with the
processes numbered by `e`, the same processes are reported. -/
theorem detectDeadlock_reports_deadlocked_set (allocation request : Table n m)
    (available : Fin m → Int32) (hallocation : ∀ p r, 0 ≤ allocation p r) :
    ∃ deadlocked, detectDeadlock allocation request available = some deadlocked ∧
      deadlocked.Pairwise (· < ·) ∧
      deadlocked.toFinset ∈ upperBounds {D | Unserved allocation request available D} ∧
      (TotalFits allocation available →
        IsGreatest {D | Unserved allocation request available D} deadlocked.toFinset ∧
        ∀ e : Equiv.Perm (Fin n), ∃ renumbered,
          detectDeadlock (fun p => allocation (e p)) (fun p => request (e p))
            available = some renumbered ∧
          ∀ p, p ∈ renumbered ↔ e p ∈ deadlocked) := by
  have hgain : ∀ p, 0 ≤ ints (allocation p) := fun p => ints_nonneg_iff.2 (hallocation p)
  obtain ⟨deadlocked, hd, hsorted, hupper, hmem⟩ :=
    detectDeadlock_isGreatest allocation request available hgain
  refine ⟨deadlocked, hd, hsorted, hupper, fun htotal => ?_⟩
  refine ⟨⟨hmem htotal, hupper⟩, fun e => ?_⟩
  obtain ⟨renumbered, hr, -, hupper', hmem'⟩ :=
    detectDeadlock_isGreatest (fun p => allocation (e p)) (fun p => request (e p))
      available fun p => hgain (e p)
  refine ⟨renumbered, hr, fun p => ⟨fun hp => ?_, fun hp => ?_⟩⟩
  · have hsub := hupper (Unserved.renumber e (hmem' (htotal.renumber e)))
    have hep : e p ∈ renumbered.toFinset.map e.toEmbedding :=
      Finset.mem_map_of_mem _ (List.mem_toFinset.2 hp)
    exact List.mem_toFinset.1 (hsub hep)
  · have hback : Unserved (fun p => allocation (e p)) (fun p => request (e p))
        available (deadlocked.toFinset.map e.symm.toEmbedding) :=
      Unserved.renumber e.symm (by simpa using hmem htotal)
    have hpe : p ∈ deadlocked.toFinset.map e.symm.toEmbedding := by
      simpa using hp
    exact List.mem_toFinset.1 (hupper' hback hpe)

/-- Case 1 of `main`: a circular wait. -/
theorem detectDeadlock_reports_deadlocked_set_case1 :
    ∃ deadlocked, detectDeadlock ![![1, 0], ![0, 1]] ![![0, 1], ![1, 0]] ![0, 0] =
        some deadlocked ∧
      deadlocked.Pairwise (· < ·) ∧
      IsGreatest {D | Unserved ![![1, 0], ![0, 1]] ![![0, 1], ![1, 0]] ![0, 0] D}
        deadlocked.toFinset ∧
      ∀ e : Equiv.Perm (Fin 2), ∃ renumbered,
        detectDeadlock (fun p => (![![1, 0], ![0, 1]] : Table 2 2) (e p))
          (fun p => (![![0, 1], ![1, 0]] : Table 2 2) (e p)) ![0, 0] =
            some renumbered ∧
        ∀ p, p ∈ renumbered ↔ e p ∈ deadlocked := by
  obtain ⟨deadlocked, hd, hsorted, -, hexact⟩ := detectDeadlock_reports_deadlocked_set
    ![![1, 0], ![0, 1]] ![![0, 1], ![1, 0]] ![0, 0] (by decide)
  exact ⟨deadlocked, hd, hsorted, hexact (by decide)⟩

/-- Process 0 finishes and `work` overflows, so process 1 is reported, though what it
requests is there. -/
theorem detectDeadlock_overflow :
    (∀ p r, 0 ≤ (![![1], ![1]] : Table 2 1) p r ∧ 0 ≤ (![![0], ![1]] : Table 2 1) p r) ∧
    detectDeadlock (![![1], ![1]] : Table 2 1) ![![0], ![1]] ![2147483647] = some [1] ∧
    ¬ Unserved (![![1], ![1]] : Table 2 1) ![![0], ![1]] ![2147483647] {1} := by
  refine ⟨by decide, by decide +kernel, fun h => ?_⟩
  obtain ⟨-, r, hr⟩ := h 1 (Finset.mem_singleton_self 1)
  revert hr
  revert r
  decide

end Deadlock
