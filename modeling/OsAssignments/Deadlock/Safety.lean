import OsAssignments.Deadlock.Bankers
import OsAssignments.Deadlock.Detection

/-!
# What the safety checks decide

`check_safe_state` of `bankers.c` and `is_safe_state` of `deadlock.c` are the
same loop over the same need matrix. When they return 1 the sequence they write is
an order of all processes; as long as the needs and the totals fit in an `int`, they
return 1 whenever there is one. `process_request` and `banker_request` therefore
give the same answers.
-/

namespace Deadlock

open MachineInt
open Reduction (System)

variable {n m : ℕ}

/-- The processes finish in the order `s`: the need of each one is covered by
the pool and by what those before it give back. -/
def SafeSequence (allocation maximum : Table n m) (available : Fin m → Int32)
    (s : Equiv.Perm (Fin n)) : Prop :=
  ∀ i r, (maximum (s i) r).toInt - (allocation (s i) r).toInt ≤
    (available r).toInt + ∑ j with j < i, (allocation (s j) r).toInt

theorem isOrder_ofFn_iff_safeSequence (allocation maximum : Table n m)
    (available : Fin m → Int32) (s : Equiv.Perm (Fin n)) :
    (claimSystem allocation maximum available).IsOrder
        (List.ofFn s) ↔
      SafeSequence allocation maximum available s := by
  rw [System.isOrder_ofFn]
  apply forall_congr'
  intro i
  rw [Pi.le_def]
  apply forall_congr'
  intro r
  simp [claimSystem, Finset.sum_apply]

theorem exists_safeSequence_of_isOrder {allocation maximum : Table n m}
    {available : Fin m → Int32} {l : List (Fin n)}
    (h : (claimSystem allocation maximum available).IsOrder l) :
    ∃ s : Equiv.Perm (Fin n), l = List.ofFn s ∧
      SafeSequence allocation maximum available s := by
  obtain ⟨s, hs⟩ := h.exists_equiv
  set e : Fin n ≃ Fin (Fintype.card (Fin n)) := finCongr (Fintype.card_fin n).symm
  have hl : l = List.ofFn (e.trans s) := by
    rw [← hs]
    exact List.ofFn_congr (Fintype.card_fin n) s
  refine ⟨e.trans s, hl, ?_⟩
  rw [hl] at h
  exact (isOrder_ofFn_iff_safeSequence allocation maximum available _).1 h

theorem safe_iff_exists_safeSequence (allocation maximum : Table n m)
    (available : Fin m → Int32) :
    (claimSystem allocation maximum available).Safe ↔
      ∃ s, SafeSequence allocation maximum available s := by
  constructor
  · rintro ⟨l, hl⟩
    obtain ⟨s, -, hs⟩ := exists_safeSequence_of_isOrder hl
    exact ⟨s, hs⟩
  · rintro ⟨s, hs⟩
    exact ⟨List.ofFn s,
      (isOrder_ofFn_iff_safeSequence allocation maximum available s).2 hs⟩

/-- `is_safe_state` accepts safe systems only, and all of them unless something overflows. -/
theorem isSafeState_accepts (allocation maximum : Table n m) (available : Fin m → Int32)
    (hallocation : ∀ p, 0 ≤ ints (allocation p)) :
    ∃ ret s, isSafeState allocation maximum available = some (ret, s) ∧
      (ret = true → (claimSystem allocation maximum available).IsOrder s.sequence) ∧
      ((∀ p r, Fits 32 ((maximum p r).toInt - (allocation p r).toInt)) →
        TotalFits allocation available →
        (claimSystem allocation maximum available).Safe → ret = true) := by
  obtain ⟨ret, s, hs, hcompletes, hret, horder, hstuck⟩ :=
    safeLoop_spec (needMatrix allocation maximum) allocation available hallocation
  refine ⟨ret, s, hs, fun h => isOrder_claimSystem hallocation (horder h), ?_⟩
  intro hneed htotal hsafe
  rw [← system_eq_claimSystem available hneed] at hsafe
  exact hret.2 ((hcompletes.safe_iff hallocation (hstuck htotal)).1 hsafe)

theorem checkSafeState_eq_isSafeState (t : Tables n m) :
    checkSafeState t = (isSafeState t.allocTable t.maxDemand t.currentAvail).map
      fun r => (r.1, r.2.sequence) := rfl

/-- Both safety checks return. When they return 1, the sequence they have written is an order
in which the processes can all finish; as long as the needs and the totals fit in an `int`,
they return 1 whenever there is one. -/
theorem safety_checks_sound_complete (allocation maximum : Table n m)
    (available : Fin m → Int32) (hallocation : ∀ p r, 0 ≤ allocation p r) :
    (∃ ret execOrder,
      checkSafeState ⟨allocation, maximum, available⟩ = some (ret, execOrder) ∧
      (ret = true → ∃ s : Equiv.Perm (Fin n), execOrder = List.ofFn s ∧
        SafeSequence allocation maximum available s) ∧
      ((∀ p r, Fits 32 ((maximum p r).toInt - (allocation p r).toInt)) →
        TotalFits allocation available →
        (∃ s, SafeSequence allocation maximum available s) → ret = true)) ∧
    ∃ ret v, isSafeState allocation maximum available = some (ret, v) ∧
      (ret = true → ∃ s : Equiv.Perm (Fin n), v.sequence = List.ofFn s ∧
        SafeSequence allocation maximum available s) ∧
      ((∀ p r, Fits 32 ((maximum p r).toInt - (allocation p r).toInt)) →
        TotalFits allocation available →
        (∃ s, SafeSequence allocation maximum available s) → ret = true) := by
  obtain ⟨ret, v, hv, horder, haccepts⟩ := isSafeState_accepts allocation maximum available
    fun p => ints_nonneg_iff.2 (hallocation p)
  rw [safe_iff_exists_safeSequence] at haccepts
  have hwritten : ret = true → ∃ s : Equiv.Perm (Fin n),
      v.sequence = List.ofFn s ∧ SafeSequence allocation maximum available s :=
    fun h => exists_safeSequence_of_isOrder (horder h)
  refine ⟨⟨ret, v.sequence, ?_, hwritten, haccepts⟩, ret, v, hv, hwritten, haccepts⟩
  rw [checkSafeState_eq_isSafeState, hv, Option.map_some]

/-- The state `bankers.c` starts with is accepted. -/
theorem safety_checks_sound_complete_bankers :
    ∃ execOrder, checkSafeState bankersTables = some (true, execOrder) ∧
      ∃ s : Equiv.Perm (Fin 5), execOrder = List.ofFn s ∧
        SafeSequence bankersTables.allocTable bankersTables.maxDemand
          bankersTables.currentAvail s := by
  obtain ⟨⟨ret, execOrder, hcheck, hwritten, -⟩, -⟩ :=
    safety_checks_sound_complete bankersTables.allocTable bankersTables.maxDemand
      bankersTables.currentAvail (by decide)
  have htrue : ret = true := by
    have h : (checkSafeState bankersTables).all (fun r => r.1) = true := by
      decide +kernel
    rwa [show checkSafeState bankersTables = some (ret, execOrder) from hcheck] at h
  exact ⟨execOrder, htrue ▸ hcheck, hwritten htrue⟩

/-- Nobody needs anything more, but `work` overflows when the first process finishes, and
both checks call the state unsafe. So they do when a declared maximum is so far below zero
that the need overflows. -/
theorem safety_checks_overflow :
    (∀ p r, 0 ≤ (![![1], ![1]] : Table 2 1) p r) ∧
    checkSafeState (⟨![![1], ![1]], ![![1], ![1]], ![2147483647]⟩ : Tables 2 1) =
      some (false, [0]) ∧
    (isSafeState (![![1], ![1]] : Table 2 1) ![![1], ![1]] ![2147483647]).map (·.1) =
      some false ∧
    SafeSequence (![![1], ![1]] : Table 2 1) ![![1], ![1]] ![2147483647] (Equiv.refl _) ∧
    checkSafeState (⟨![![1]], ![![-2147483648]], ![0]⟩ : Tables 1 1) = some (false, []) ∧
    (isSafeState (![![1]] : Table 1 1) ![![-2147483648]] ![0]).map (·.1) = some false ∧
    SafeSequence (![![1]] : Table 1 1) ![![-2147483648]] ![0] (Equiv.refl _) := by
  refine ⟨by decide, by decide +kernel, by decide +kernel, ?_, by decide +kernel,
    by decide +kernel, ?_⟩
  · unfold SafeSequence
    decide
  · unfold SafeSequence
    decide

theorem exceeds_eq_false_iff (t : Tables n m) (p : Fin n) (req : Fin m → Int32) :
    ((List.finRange m).any fun r =>
        decide (req r > t.maxDemand p r - t.allocTable p r) ||
          decide (req r > t.currentAvail r)) = false ↔
      validate (n := n) (buildNeedMatrix t p) t.currentAvail req = none := by
  rw [validate_eq_none_iff, List.any_eq_false]
  simp [buildNeedMatrix, Int32.not_lt]

/-- The answers of `process_request` and `banker_request` are the same, whatever the tables
hold. -/
theorem processRequest_agrees_bankerRequest (t : Tables n m) (p : Fin n)
    (req : Fin m → Int32) :
    (processRequest t p req).map (fun r => r.1.granted) =
      bankerRequest p req t.allocTable t.maxDemand t.currentAvail := by
  have htests := exceeds_eq_false_iff t p req
  unfold bankerRequest processRequest
  cases hv : validate (n := n) (buildNeedMatrix t p) t.currentAvail req with
  | some reply =>
      rw [hv, iff_false_right (Option.some_ne_none reply), Bool.not_eq_false] at htests
      rw [if_pos htests, Option.map_some, validate_not_granted hv]
  | none =>
      rw [hv, iff_true_right rfl] at htests
      rw [if_neg (Bool.eq_false_iff.1 htests)]
      have hcheck : checkSafeState (t.allocate p req) = (isSafeState _ _ _).map _ :=
        checkSafeState_eq_isSafeState (t.allocate p req)
      obtain ⟨b, execOrder, hreturns⟩ := checkSafeState_returns (t.allocate p req)
      have hanswer : (isSafeState (t.allocate p req).allocTable t.maxDemand
          (t.allocate p req).currentAvail).map (·.1) = some b := by
        have h := congrArg (Option.map (·.1)) (hcheck.symm.trans hreturns)
        rwa [Option.map_map] at h
      dsimp only
      rw [hreturns]
      refine Eq.trans ?_ hanswer.symm
      cases b <;> rfl

end Deadlock
