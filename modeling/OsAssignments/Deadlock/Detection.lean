import OsAssignments.Deadlock.Sweep
import Mathlib.Data.Fin.VecNotation

/-!
# Deadlock detection and avoidance

`deadlock.c` holds a deadlock detector and a banker's safety check. The
detector counts a process that holds nothing as finished from the start and
scans the pending requests; the safety check starts with nobody finished and
scans `maximum - allocation`. Both complete processes greedily, so by the
order independence of `Reduction.System` the sets they leave unfinished can be
compared without following the two loops step by step. That takes totals which an
`int` can hold: `work` may overflow in one loop and not in the other.
-/

namespace Deadlock

open MachineInt
open Reduction (System)

variable {n m : ℕ}

/-- The initial finish flag of the detector: the process holds nothing. -/
def holdsNothing (allocation : Table n m) (p : Fin n) : Bool :=
  !(List.finRange m).any fun r => decide (allocation p r ≠ 0)

/-- The detector's loop, with the values its variables have when it stops. -/
def detectLoop (allocation request : Table n m) (available : Fin m → Int32) :
    Option (Sweep n m) :=
  Sweep.sweepLoop (fits request) allocation (n + 1) (.enter available (holdsNothing allocation))

/-- The processes written to `deadlocked`, in order; `count` is the length. -/
def detectDeadlock (allocation request : Table n m) (available : Fin m → Int32) :
    Option (List (Fin n)) :=
  (detectLoop allocation request available).map fun s =>
    (List.finRange n).filter fun p => !s.finished p

/-- The matrix `need` of `is_safe_state`. -/
def needMatrix (allocation maximum : Table n m) : Table n m :=
  fun p r => maximum p r - allocation p r

/-- The return value of `is_safe_state`, and its loop variables at the return;
`sequence` is the array it writes. -/
def isSafeState (allocation maximum : Table n m) (available : Fin m → Int32) :
    Option (Bool × Sweep n m) :=
  Sweep.safeLoop (fits (needMatrix allocation maximum)) allocation (n + 1)
    (.enter available fun _ => false)

/-- `banker_request` works on copies: the answer is 1 when the request passes
both tests at every resource and the hypothetical state is safe. -/
def bankerRequest (pid : Fin n) (request : Fin m → Int32)
    (allocation maximum : Table n m) (available : Fin m → Int32) : Option Bool :=
  if (List.finRange m).any fun r =>
      decide (request r > maximum pid r - allocation pid r) ||
        decide (request r > available r) then some false
  else
    let nextAllocation : Table n m :=
      Function.update allocation pid fun r => allocation pid r + request r
    let nextAvailable : Fin m → Int32 := fun r => available r - request r
    (isSafeState nextAllocation maximum nextAvailable).map (·.1)

def idle (allocation : Table n m) : Finset (Fin n) :=
  Finset.univ.filter fun p => ∀ r, allocation p r = 0

@[simp] theorem mem_idle (allocation : Table n m) (p : Fin n) :
    p ∈ idle allocation ↔ ∀ r, allocation p r = 0 := by
  simp [idle]

theorem ints_eq_zero_of_mem_idle {allocation : Table n m} {p : Fin n}
    (h : p ∈ idle allocation) : ints (allocation p) = 0 := by
  funext r
  rw [ints_apply, (mem_idle allocation p).1 h r, Int32.toInt_zero]
  rfl

@[simp] theorem holdsNothing_iff (allocation : Table n m) (p : Fin n) :
    holdsNothing allocation p = true ↔ ∀ r, allocation p r = 0 := by
  simp [holdsNothing]

theorem exact_enter_idle (allocation request : Table n m) (available : Fin m → Int32) :
    Sweep.Exact (system request allocation available) (idle allocation)
      (.enter available (holdsNothing allocation)) := by
  set σ := system request allocation available with hσ
  have hwork : σ.work (idle allocation) = ints available := by
    have hidle : ∀ p ∈ idle allocation, σ.gain p = 0 := fun p hp => ints_eq_zero_of_mem_idle hp
    have hunion := σ.work_union_of_gain_eq_zero ∅ (idle allocation) hidle
    rw [Finset.empty_union, System.work_empty] at hunion
    exact hunion
  refine ⟨⟨⟨?_, ?_, ?_⟩, ?_, ?_⟩, ?_⟩ <;> simp [System.RunsFrom, hwork, Sweep.enter]

/-- The detector returns; its reduction starts from the idle processes and, unless `work`
overflows, ends where nobody else can finish. -/
theorem detectLoop_spec (allocation request : Table n m) (available : Fin m → Int32)
    (hallocation : ∀ p, 0 ≤ ints (allocation p)) :
    ∃ s, detectLoop allocation request available = some s ∧
      (system request allocation available).Completes (idle allocation) s.finishedSet ∧
      (TotalFits allocation available →
        (system request allocation available).Stuck s.finishedSet) := by
  have hstart := exact_enter_idle allocation request available
  obtain ⟨s, hs, hhalted⟩ := hstart.1.tracked.sweepLoop (n + 1) (by simp [Sweep.enter])
  refine ⟨s, hs, ((Sweep.keeps_valid hallocation).sweepLoop hstart.1 hs).completes, ?_⟩
  exact fun htotal => ((Sweep.keeps_exact hallocation htotal).sweepLoop hstart hs).stuck hhalted

/-- The safety loop returns 1 exactly when its reduction completes everybody. Unless `work`
overflows, it otherwise stops where nobody else can finish. -/
theorem safeLoop_spec (need allocation : Table n m) (available : Fin m → Int32)
    (hallocation : ∀ p, 0 ≤ ints (allocation p)) :
    ∃ ret s, Sweep.safeLoop (fits need) allocation (n + 1) (.enter available fun _ => false) =
        some (ret, s) ∧
      (system need allocation available).Completes ∅ s.finishedSet ∧
      (ret = true ↔ s.finishedSet = Finset.univ) ∧
      (ret = true → (system need allocation available).IsOrder s.sequence) ∧
      (TotalFits allocation available →
        (system need allocation available).Stuck s.finishedSet) := by
  obtain ⟨ret, s, hs, htracked, htrue, hfalse, hvalid⟩ :=
    Sweep.safeLoop_enter need allocation available
  obtain ⟨hvalid, hexact⟩ := hvalid hallocation
  refine ⟨ret, s, hs, hvalid.completes, ?_⟩
  cases ret with
  | true =>
      have huniv : s.finishedSet = Finset.univ := by
        ext p
        simp [(htracked.finished_iff p).2 (Or.inr (htracked.mem_sequence (htrue rfl) p))]
      refine ⟨by simp [huniv], fun _ => hvalid.isOrder (htrue rfl), fun _ p hp => ?_⟩
      rw [huniv] at hp
      exact absurd (Finset.mem_univ p) hp
  | false =>
      obtain ⟨hlt, hhalted⟩ := hfalse rfl
      refine ⟨⟨by simp, fun huniv => ?_⟩, by simp, fun htotal => (hexact htotal).stuck hhalted⟩
      have hset : s.sequence.toFinset = Finset.univ := by
        rw [← huniv, htracked.finishedSet_eq, Finset.empty_union]
      have hcard : s.sequence.length = n := by
        rw [← List.toFinset_card_of_nodup htracked.nodup, hset, Finset.card_univ,
          Fintype.card_fin]
      omega

/-- The same of `is_safe_state`, with what each process lacks of its maximum. -/
theorem isSafeState_spec (allocation maximum : Table n m) (available : Fin m → Int32)
    (hallocation : ∀ p, 0 ≤ ints (allocation p))
    (hneed : ∀ p r, Fits 32 ((maximum p r).toInt - (allocation p r).toInt)) :
    ∃ ret s, isSafeState allocation maximum available = some (ret, s) ∧
      (claimSystem allocation maximum available).Completes ∅ s.finishedSet ∧
      (ret = true ↔ s.finishedSet = Finset.univ) ∧
      (TotalFits allocation available →
        (claimSystem allocation maximum available).Stuck s.finishedSet) := by
  obtain ⟨ret, s, hs, hcompletes, hret, -, hstuck⟩ :=
    safeLoop_spec (needMatrix allocation maximum) allocation available hallocation
  rw [← system_eq_claimSystem available hneed]
  exact ⟨ret, s, hs, hcompletes, hret, hstuck⟩

/-- The detector writes exactly the processes outside the set in which the
reduction from the idle processes gets stuck. -/
theorem detectDeadlock_spec (allocation request : Table n m) (available : Fin m → Int32)
    (hallocation : ∀ p, 0 ≤ ints (allocation p)) (htotal : TotalFits allocation available) :
    ∃ deadlocked U, detectDeadlock allocation request available = some deadlocked ∧
      (system request allocation available).Completes (idle allocation) U ∧
      (system request allocation available).Stuck U ∧
      ∀ p, p ∈ deadlocked ↔ p ∉ U := by
  obtain ⟨s, hs, hcompletes, hstuck⟩ :=
    detectLoop_spec allocation request available hallocation
  refine ⟨_, s.finishedSet, congrArg (Option.map _) hs, hcompletes, hstuck htotal, ?_⟩
  simp

/-- When every process can complete on its need, the detector reports nobody,
whatever part of the need is requested. -/
theorem detectDeadlock_eq_nil {allocation maximum request : Table n m}
    {available : Fin m → Int32} (hallocation : ∀ p, 0 ≤ ints (allocation p))
    (htotal : TotalFits allocation available)
    (hcompletes : (claimSystem allocation maximum available).Completes ∅ Finset.univ)
    (hrequest : ∀ p, ints (request p) ≤ ints (maximum p) - ints (allocation p)) :
    detectDeadlock allocation request available = some [] := by
  obtain ⟨deadlocked, U, hd, -, hstuck, hmem⟩ :=
    detectDeadlock_spec allocation request available hallocation htotal
  have hsub : Finset.univ ⊆ U :=
    System.Completes.subset_of_stuck (τ := system request allocation available)
      hcompletes hallocation rfl rfl hrequest (Finset.empty_subset U) hstuck
  have hnil : deadlocked = [] := by
    rw [List.eq_nil_iff_forall_not_mem]
    exact fun p hp => (hmem p).1 hp (hsub (Finset.mem_univ p))
  rw [hd, hnil]

/-- If only idle processes are left unfinished, the pool is the whole total;
when no maximum exceeds it, an idle process fits, so nobody is left. -/
theorem eq_univ_of_union_idle {allocation maximum : Table n m}
    {available : Fin m → Int32} (hallocation : ∀ p, 0 ≤ ints (allocation p))
    (hmax : ∀ p r, (maximum p r).toInt ≤ (available r).toInt + ∑ q, (allocation q r).toInt)
    {S : Finset (Fin n)} (hstuck : (claimSystem allocation maximum available).Stuck S)
    (hunion : S ∪ idle allocation = Finset.univ) : S = Finset.univ := by
  set σ := claimSystem allocation maximum available with hσ
  have hidle : ∀ p ∈ idle allocation, σ.gain p = 0 := fun p hp => ints_eq_zero_of_mem_idle hp
  have hwork : ∀ r, σ.work S r = (available r).toInt + ∑ q, (allocation q r).toInt := by
    intro r
    rw [← σ.work_union_of_gain_eq_zero S (idle allocation) hidle, hunion]
    exact system_work_apply allocation allocation available Finset.univ r
  rw [Finset.eq_univ_iff_forall]
  intro p
  by_contra hp
  refine hstuck p hp fun r => ?_
  calc σ.need p r = (maximum p r).toInt - (allocation p r).toInt := rfl
    _ ≤ (maximum p r).toInt := sub_le_self _ (hallocation p r)
    _ ≤ (available r).toInt + ∑ q, (allocation q r).toInt := hmax p r
    _ = σ.work S r := (hwork r).symm

/-- As long as the totals fit in an `int`: a state that the safety check accepts is free of
deadlock under every request within the declared needs. Under the largest such request the
detector reports exactly the processes that hold something and that the safety check
leaves unfinished; when no declared maximum exceeds the total of its resource,
it reports one if and only if the safety check returns 0. -/
theorem isSafeState_agrees_detectDeadlock (allocation maximum : Table n m)
    (available : Fin m → Int32) (hallocation : ∀ p r, 0 ≤ allocation p r)
    (hmaximum : ∀ p r, allocation p r ≤ maximum p r) (htotal : TotalFits allocation available) :
    ∃ ret s, isSafeState allocation maximum available = some (ret, s) ∧
      (ret = true → ∀ request : Table n m,
        (∀ p r, 0 ≤ request p r ∧
          (request p r).toInt ≤ (maximum p r).toInt - (allocation p r).toInt) →
          detectDeadlock allocation request available = some []) ∧
      ∃ deadlocked,
        detectDeadlock allocation (fun p r => maximum p r - allocation p r) available =
          some deadlocked ∧
        (∀ p, p ∈ deadlocked ↔ (∃ r, allocation p r ≠ 0) ∧ s.finished p = false) ∧
        ((∀ p r, (maximum p r).toInt ≤ (available r).toInt + ∑ q, (allocation q r).toInt) →
          (ret = false ↔ 0 < deadlocked.length)) := by
  have hgain : ∀ p, 0 ≤ ints (allocation p) := fun p => ints_nonneg_iff.2 (hallocation p)
  have hneed : ∀ p r, Fits 32 ((maximum p r).toInt - (allocation p r).toInt) := fun p r =>
    fits_toInt_sub (hgain p r) (hmaximum p r)
  obtain ⟨ret, s, hs, hcompletes, hret, hstuck⟩ :=
    isSafeState_spec allocation maximum available hgain hneed
  obtain ⟨deadlocked, U, hd, hcU, hsU, hmem⟩ :=
    detectDeadlock_spec allocation (fun p r => maximum p r - allocation p r) available hgain htotal
  rw [system_eq_claimSystem available hneed] at hcU hsU
  have hU : U = s.finishedSet ∪ idle allocation :=
    System.Completes.union_of_gain_eq_zero hgain
      (fun p hp => ints_eq_zero_of_mem_idle hp) hcompletes (hstuck htotal) hcU hsU
  have hreport : ∀ p, p ∈ deadlocked ↔
      (∃ r, allocation p r ≠ 0) ∧ s.finished p = false := by
    intro p
    rw [hmem p, hU, Finset.mem_union, not_or, Sweep.mem_finishedSet, mem_idle,
      not_forall, Bool.not_eq_true, and_comm]
  refine ⟨ret, s, hs, ?_, deadlocked, hd, hreport, ?_⟩
  · intro htrue request hrequest
    rw [hret.1 htrue] at hcompletes
    exact detectDeadlock_eq_nil hgain htotal hcompletes fun p r => (hrequest p r).2
  · intro hmax
    rw [List.length_pos_iff_exists_mem, ← Bool.not_eq_true, hret]
    constructor
    · intro hunfinished
      by_contra hnone
      have huniv : U = Finset.univ := by
        ext p
        have hp := mt (hmem p).2 fun hp => hnone ⟨p, hp⟩
        simpa using hp
      rw [hU] at huniv
      exact hunfinished (eq_univ_of_union_idle hgain hmax (hstuck htotal) huniv)
    · rintro ⟨p, hp⟩ huniv
      have hfinished : p ∈ s.finishedSet := huniv ▸ Finset.mem_univ p
      rw [Sweep.mem_finishedSet, ((hreport p).1 hp).2] at hfinished
      cases hfinished

/-- The state of case 3 in `main`: safe, and without a deadlock. -/
theorem isSafeState_agrees_detectDeadlock_case3 :
    ∃ ret s, isSafeState ![![0, 0], ![1, 0]] ![![2, 0], ![2, 1]] ![1, 1] =
        some (ret, s) ∧ ret = true ∧
      ∀ request : Table 2 2, (∀ p r, 0 ≤ request p r ∧ (request p r).toInt ≤
          ((![![2, 0], ![2, 1]] : Table 2 2) p r).toInt -
            ((![![0, 0], ![1, 0]] : Table 2 2) p r).toInt) →
        detectDeadlock ![![0, 0], ![1, 0]] request ![1, 1] = some [] := by
  obtain ⟨ret, s, hs, hsafe, -⟩ := isSafeState_agrees_detectDeadlock
    ![![0, 0], ![1, 0]] ![![2, 0], ![2, 1]] ![1, 1] (by decide) (by decide) (by decide)
  have htrue : ret = true := by
    have h : (isSafeState (![![0, 0], ![1, 0]] : Table 2 2) ![![2, 0], ![2, 1]] ![1, 1]).all
        (fun r => r.1) = true := by
      decide +kernel
    rwa [hs] at h
  exact ⟨ret, s, hs, htrue, hsafe htrue⟩

/-- Process 0 gets nothing of resource 1 before process 1 has finished, so the safety check
lets `work` overflow last. Without a request process 0 finishes first and the overflow stops
process 1. -/
theorem isSafeState_overflow :
    (∀ p r, 0 ≤ (![![1, 0], ![0, 1]] : Table 2 2) p r ∧
      (![![1, 0], ![0, 1]] : Table 2 2) p r ≤ (![![1, 1], ![0, 1]] : Table 2 2) p r) ∧
    (∃ s, isSafeState (![![1, 0], ![0, 1]] : Table 2 2) ![![1, 1], ![0, 1]] ![2147483647, 0] =
      some (true, s)) ∧
    detectDeadlock (![![1, 0], ![0, 1]] : Table 2 2) (fun _ _ => 0) ![2147483647, 0] =
      some [1] := by
  refine ⟨by decide, ?_, by decide +kernel⟩
  have h : (isSafeState (![![1, 0], ![0, 1]] : Table 2 2) ![![1, 1], ![0, 1]]
      ![2147483647, 0]).any (fun r => r.1) = true := by
    decide +kernel
  obtain ⟨⟨ret, s⟩, hs, hret⟩ := (Option.any_eq_true _ _).mp h
  cases hret
  exact ⟨s, hs⟩

end Deadlock
