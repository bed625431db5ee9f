import OsAssignments.Deadlock.Sweep
import Mathlib.Data.Fin.VecNotation
import Mathlib.Tactic.Ring

/-!
# The banker's request algorithm

`bankers.c` keeps the allocation, the declared maximum and the free pool in
global tables. `processRequest` validates a request, allocates it on trial,
runs the safety check on the trial tables and rolls the trial back when they
are unsafe. A run is a sequence of requests, `processRequests`.

The run invariant of the tables is `Tables.Invariant`. The validation compares
the request with the need and with the pool only, so an entry below zero that
exceeds the allocation in size is granted and leaves a negative allocation:
`processRequests_invariant_iff` says that these requests, and no others, break
the invariant. No sum of a request that is granted otherwise overflows: a pool
that has come out negative stops the safety check.
-/

namespace Deadlock

open MachineInt
open Reduction (System)

/-- The global tables of `bankers.c`. -/
structure Tables (n m : ℕ) where
  allocTable : Table n m
  maxDemand : Table n m
  currentAvail : Fin m → Int32

/-- The answer of `process_request`: one constructor for each of its exits. -/
inductive Reply (n : ℕ)
  | exceedsNeed
  | notAvailable
  | success (execOrder : List (Fin n))
  | rejected

/-- The return value of `process_request`. -/
def Reply.granted {n : ℕ} : Reply n → Bool
  | .success _ => true
  | _ => false

variable {n m : ℕ}

def buildNeedMatrix (t : Tables n m) : Table n m :=
  fun p r => t.maxDemand p r - t.allocTable p r

def canExecute (p : Fin n) (runningWork : Fin m → Int32) (needMat : Table n m) : Bool :=
  fits needMat p runningWork

/-- Dijkstra's safety check: the return value and the `exec_order` written. -/
def checkSafeState (t : Tables n m) : Option (Bool × List (Fin n)) :=
  let needMat := buildNeedMatrix t
  (Sweep.safeLoop (fun p runningWork => canExecute p runningWork needMat) t.allocTable (n + 1)
    (.enter t.currentAvail fun _ => false)).map fun r => (r.1, r.2.sequence)

/-- The validation loop: the first resource that fails one of the two tests
decides the answer. -/
def validate (need avail req : Fin m → Int32) : Option (Reply n) :=
  (List.finRange m).findSome? fun r =>
    if req r > need r then some .exceedsNeed
    else if req r > avail r then some .notAvailable
    else none

/-- The trial allocation of `req` to `p`. -/
def Tables.allocate (t : Tables n m) (p : Fin n) (req : Fin m → Int32) : Tables n m :=
  { t with
    allocTable := Function.update t.allocTable p fun r => t.allocTable p r + req r
    currentAvail := fun r => t.currentAvail r - req r }

def Tables.rollback (t : Tables n m) (p : Fin n) (req : Fin m → Int32) : Tables n m :=
  { t with
    allocTable := Function.update t.allocTable p fun r => t.allocTable p r - req r
    currentAvail := fun r => t.currentAvail r + req r }

def processRequest (t : Tables n m) (p : Fin n) (req : Fin m → Int32) :
    Option (Reply n × Tables n m) :=
  match validate (n := n) (buildNeedMatrix t p) t.currentAvail req with
  | some reply => some (reply, t)
  | none =>
      let trial := t.allocate p req
      match checkSafeState trial with
      | none => none
      | some (true, execOrder) => some (.success execOrder, trial)
      | some (false, _) => some (.rejected, trial.rollback p req)

def processRequests (t : Tables n m) (calls : List (Fin n × (Fin m → Int32))) :
    Option (Tables n m) :=
  calls.foldlM (fun t call => (processRequest t call.1 call.2).map (·.2)) t

@[simp] theorem processRequests_nil (t : Tables n m) :
    processRequests t [] = some t := rfl

theorem processRequests_append_singleton (t : Tables n m)
    (calls : List (Fin n × (Fin m → Int32))) (call : Fin n × (Fin m → Int32)) :
    processRequests t (calls ++ [call]) =
      (processRequests t calls).bind fun u =>
        (processRequest u call.1 call.2).map (·.2) := by
  simp [processRequests, List.foldlM_append]

@[simp] theorem Tables.rollback_allocate (t : Tables n m) (p : Fin n)
    (req : Fin m → Int32) : (t.allocate p req).rollback p req = t := by
  cases t
  simp [Tables.rollback, Tables.allocate, Int32.add_sub_cancel, Int32.sub_add_cancel]

@[simp] theorem Tables.allocate_allocTable_self (t : Tables n m) (p : Fin n)
    (req : Fin m → Int32) (r : Fin m) :
    (t.allocate p req).allocTable p r = t.allocTable p r + req r := by
  simp [Tables.allocate]

theorem Tables.allocate_allocTable_of_ne (t : Tables n m) {p q : Fin n}
    (req : Fin m → Int32) (h : q ≠ p) :
    (t.allocate p req).allocTable q = t.allocTable q := by
  simp [Tables.allocate, h]

@[simp] theorem Tables.allocate_currentAvail (t : Tables n m) (p : Fin n)
    (req : Fin m → Int32) (r : Fin m) :
    (t.allocate p req).currentAvail r = t.currentAvail r - req r := rfl

@[simp] theorem Tables.allocate_maxDemand (t : Tables n m) (p : Fin n)
    (req : Fin m → Int32) : (t.allocate p req).maxDemand = t.maxDemand := rfl

def Tables.total (t : Tables n m) (r : Fin m) : ℤ :=
  (t.currentAvail r).toInt + ∑ p, (t.allocTable p r).toInt

/-- Moving `req` from the pool to `p` overflows nowhere. -/
structure Tables.Moves (t : Tables n m) (p : Fin n) (req : Fin m → Int32) : Prop where
  alloc : ∀ r, Fits 32 ((t.allocTable p r).toInt + (req r).toInt)
  avail : ∀ r, Fits 32 ((t.currentAvail r).toInt - (req r).toInt)

theorem Tables.Moves.ints_allocTable {t : Tables n m} {p : Fin n} {req : Fin m → Int32}
    (h : t.Moves p req) :
    ints ((t.allocate p req).allocTable p) = ints (t.allocTable p) + ints req := by
  funext r
  rw [ints_apply, t.allocate_allocTable_self, toInt_add_of_fits (h.alloc r)]
  rfl

theorem Tables.Moves.ints_currentAvail {t : Tables n m} {p : Fin n} {req : Fin m → Int32}
    (h : t.Moves p req) :
    ints (t.allocate p req).currentAvail = ints t.currentAvail - ints req :=
  funext fun r => toInt_sub_of_fits (h.avail r)

theorem Tables.Moves.total {t : Tables n m} {p : Fin n} {req : Fin m → Int32}
    (h : t.Moves p req) (r : Fin m) : (t.allocate p req).total r = t.total r := by
  have hpool : ((t.allocate p req).currentAvail r).toInt =
      (t.currentAvail r).toInt - (req r).toInt := congrFun h.ints_currentAvail r
  have hself : ((t.allocate p req).allocTable p r).toInt =
      (t.allocTable p r).toInt + (req r).toInt := congrFun h.ints_allocTable r
  have hrest : ∑ q ∈ Finset.univ.erase p, ((t.allocate p req).allocTable q r).toInt =
      ∑ q ∈ Finset.univ.erase p, (t.allocTable q r).toInt := by
    apply Finset.sum_congr rfl
    intro q hq
    rw [t.allocate_allocTable_of_ne req (Finset.ne_of_mem_erase hq)]
  rw [Tables.total, Tables.total, hpool, ← Finset.add_sum_erase _ _ (Finset.mem_univ p), hself,
    hrest, ← Finset.add_sum_erase _ (fun q => (t.allocTable q r).toInt) (Finset.mem_univ p)]
  ring

def Tables.system (t : Tables n m) : System (Fin n) (Fin m → ℤ) :=
  claimSystem t.allocTable t.maxDemand t.currentAvail

/-- An order exists in which every process can reach its maximum and finish. -/
def Tables.Safe (t : Tables n m) : Prop := t.system.Safe

def Tables.NeedFits (t : Tables n m) : Prop :=
  ∀ p r, Fits 32 ((t.maxDemand p r).toInt - (t.allocTable p r).toInt)

theorem Tables.NeedFits.ints_needMatrix {t : Tables n m} (h : t.NeedFits) (p : Fin n) :
    ints (buildNeedMatrix t p) = ints (t.maxDemand p) - ints (t.allocTable p) :=
  funext fun r => toInt_sub_of_fits (h p r)

theorem Tables.NeedFits.system_eq {t : Tables n m} (h : t.NeedFits) :
    Deadlock.system (buildNeedMatrix t) t.allocTable t.currentAvail = t.system :=
  system_eq_claimSystem t.currentAvail h

theorem checkSafeState_returns (t : Tables n m) :
    ∃ b execOrder, checkSafeState t = some (b, execOrder) := by
  obtain ⟨b, s, hs, -⟩ := Sweep.safeLoop_enter (buildNeedMatrix t) t.allocTable t.currentAvail
  exact ⟨b, s.sequence, congrArg (Option.map fun r : Bool × Sweep n m => (r.1, r.2.sequence)) hs⟩

theorem isOrder_of_checkSafeState {t : Tables n m} (halloc : ∀ p r, 0 ≤ t.allocTable p r)
    {execOrder : List (Fin n)} (h : checkSafeState t = some (true, execOrder)) :
    t.system.IsOrder execOrder := by
  have hgain : ∀ p, 0 ≤ ints (t.allocTable p) := fun p => ints_nonneg_iff.2 (halloc p)
  obtain ⟨b, s, hs, -, htrue, -, hvalid⟩ :=
    Sweep.safeLoop_enter (buildNeedMatrix t) t.allocTable t.currentAvail
  have hcheck : checkSafeState t = some (b, s.sequence) :=
    congrArg (Option.map fun r : Bool × Sweep n m => (r.1, r.2.sequence)) hs
  rw [hcheck] at h
  cases h
  exact isOrder_claimSystem hgain ((hvalid hgain).1.isOrder (htrue rfl))

/-- The process that such an order begins with can complete on the pool as it is. -/
theorem exists_need_le_of_isOrder {σ : System (Fin n) (Fin m → ℤ)} {l : List (Fin n)}
    (h : σ.IsOrder l) (p : Fin n) : ∃ q, σ.need q ≤ σ.pool := by
  obtain ⟨-, hmem, hruns⟩ := h
  cases l with
  | nil => exact absurd (hmem p) List.not_mem_nil
  | cons q l => exact ⟨q, hruns.1⟩

theorem validate_eq_none_iff (need avail req : Fin m → Int32) :
    validate (n := n) need avail req = none ↔
      ∀ r, req r ≤ need r ∧ req r ≤ avail r := by
  rw [validate, List.findSome?_eq_none_iff]
  constructor
  · intro h r
    have hr := h r (List.mem_finRange r)
    by_cases hneed : req r > need r
    · simp [hneed] at hr
    · by_cases havail : req r > avail r
      · simp [hneed, havail] at hr
      · exact ⟨Int32.not_lt.1 hneed, Int32.not_lt.1 havail⟩
  · intro h r _
    rw [if_neg (Int32.not_lt.2 (h r).1), if_neg (Int32.not_lt.2 (h r).2)]

theorem validate_not_granted {need avail req : Fin m → Int32} {reply : Reply n}
    (h : validate need avail req = some reply) : reply.granted = false := by
  obtain ⟨r, -, hr⟩ := List.exists_of_findSome?_eq_some h
  split_ifs at hr <;> cases hr <;> rfl

/-- Whether the code grants `req` to `p`: it passes the validation and the
safety check accepts the trial tables. -/
def Grants (t : Tables n m) (p : Fin n) (req : Fin m → Int32) : Prop :=
  (∀ r, req r ≤ buildNeedMatrix t p r ∧ req r ≤ t.currentAvail r) ∧
    ∃ execOrder, checkSafeState (t.allocate p req) = some (true, execOrder)

/-- A call either grants the request, and the tables are the trial tables, or
refuses it, and the tables are what they were. -/
theorem processRequest_cases (t : Tables n m) (p : Fin n) (req : Fin m → Int32) :
    ∃ reply u, processRequest t p req = some (reply, u) ∧
      ((Grants t p req ∧ reply.granted = true ∧ u = t.allocate p req) ∨
        (¬ Grants t p req ∧ reply.granted = false ∧ u = t)) := by
  cases hv : validate (n := n) (buildNeedMatrix t p) t.currentAvail req with
  | some reply =>
      refine ⟨reply, t, by simp [processRequest, hv], Or.inr ⟨?_, ?_, rfl⟩⟩
      · intro hgrant
        rw [(validate_eq_none_iff _ _ _).2 hgrant.1] at hv
        cases hv
      · exact validate_not_granted hv
  | none =>
      have hbounds := (validate_eq_none_iff _ _ _).1 hv
      obtain ⟨b, execOrder, hcheck⟩ := checkSafeState_returns (t.allocate p req)
      cases b with
      | true =>
          refine ⟨.success execOrder, t.allocate p req,
            by simp [processRequest, hv, hcheck], Or.inl ⟨?_, rfl, rfl⟩⟩
          exact ⟨hbounds, execOrder, hcheck⟩
      | false =>
          refine ⟨.rejected, t, by simp [processRequest, hv, hcheck],
            Or.inr ⟨?_, rfl, rfl⟩⟩
          rintro ⟨-, order, horder⟩
          rw [hcheck] at horder
          cases horder

/-- Tables a run may start from: allocations between zero and the declared
maximum, a non-negative pool, and a safe state. -/
structure Tables.WellFormed (t : Tables n m) : Prop where
  alloc_nonneg : ∀ p r, 0 ≤ t.allocTable p r
  alloc_le : ∀ p r, t.allocTable p r ≤ t.maxDemand p r
  avail_nonneg : ∀ r, 0 ≤ t.currentAvail r
  safe : t.Safe

theorem Tables.WellFormed.needFits {t : Tables n m} (h : t.WellFormed) : t.NeedFits :=
  fun p r => fits_toInt_sub (Int32.le_iff_toInt_le.1 (h.alloc_nonneg p r)) (h.alloc_le p r)

/-- The run invariant: the tables are well formed and each resource still has
the total it had in `t₀`. -/
structure Tables.Invariant (t₀ t : Tables n m) : Prop where
  wellFormed : t.WellFormed
  total : ∀ r, t.total r = t₀.total r

/-- The condition on a call: the request takes no allocation of `p` below zero,
or it fails the validation, or the safety check refuses the trial tables. -/
def Admissible (t : Tables n m) (p : Fin n) (req : Fin m → Int32) : Prop :=
  (∀ r, 0 ≤ (t.allocTable p r).toInt + (req r).toInt) ∨
    (∃ r, buildNeedMatrix t p r < req r ∨ t.currentAvail r < req r) ∨
    ∃ execOrder, checkSafeState (t.allocate p req) = some (false, execOrder)

theorem Admissible.nonneg_of_grants {t : Tables n m} {p : Fin n} {req : Fin m → Int32}
    (h : Admissible t p req) (hgrant : Grants t p req) (r : Fin m) :
    0 ≤ (t.allocTable p r).toInt + (req r).toInt := by
  obtain ⟨hbounds, execOrder, hcheck⟩ := hgrant
  rcases h with hnonneg | ⟨r', hneed | havail⟩ | ⟨order, hrefused⟩
  · exact hnonneg r
  · exact absurd (hbounds r').1 (Int32.not_le.2 hneed)
  · exact absurd (hbounds r').2 (Int32.not_le.2 havail)
  · rw [hcheck] at hrefused
    cases hrefused

theorem admissible_of_not_grants {t : Tables n m} {p : Fin n} {req : Fin m → Int32}
    (h : ¬ Grants t p req) : Admissible t p req := by
  obtain ⟨b, execOrder, hcheck⟩ := checkSafeState_returns (t.allocate p req)
  cases b with
  | false => exact Or.inr (Or.inr ⟨execOrder, hcheck⟩)
  | true =>
      right; left
      by_contra hno
      rw [not_exists] at hno
      refine h ⟨fun r => ?_, execOrder, hcheck⟩
      have hr := not_or.1 (hno r)
      exact ⟨Int32.not_lt.1 hr.1, Int32.not_lt.1 hr.2⟩

/-- What `p` holds after a request within its need is not more than its maximum. -/
theorem Grants.alloc_le {t : Tables n m} (h : t.WellFormed) {p : Fin n} {req : Fin m → Int32}
    (hgrant : Grants t p req) (r : Fin m) :
    (t.allocTable p r).toInt + (req r).toInt ≤ (t.maxDemand p r).toInt := by
  have hneed := ints_le_iff.2 (fun r => (hgrant.1 r).1) r
  rw [h.needFits.ints_needMatrix] at hneed
  simp only [Pi.sub_apply, ints_apply] at hneed
  omega

theorem Grants.alloc_fits {t : Tables n m} (h : t.WellFormed) {p : Fin n} {req : Fin m → Int32}
    (hgrant : Grants t p req) (r : Fin m) :
    Fits 32 ((t.allocTable p r).toInt + (req r).toInt) := by
  have halloc := ints_nonneg_iff.2 (h.alloc_nonneg p) r
  have hle := hgrant.alloc_le h r
  have hreq := (fits_toInt (req r)).1
  have hmax := (fits_toInt (t.maxDemand p r)).2
  simp only [Pi.zero_apply, ints_apply] at halloc
  exact ⟨by omega, by omega⟩

theorem Grants.alloc_bounds {t : Tables n m} (h : t.WellFormed) {p : Fin n}
    {req : Fin m → Int32} (hgrant : Grants t p req)
    (hnonneg : ∀ r, 0 ≤ (t.allocTable p r).toInt + (req r).toInt) (q : Fin n) (r : Fin m) :
    0 ≤ (t.allocate p req).allocTable q r ∧
      (t.allocate p req).allocTable q r ≤ (t.allocate p req).maxDemand q r := by
  by_cases hq : q = p
  · have hsum := toInt_add_of_fits (hgrant.alloc_fits h r)
    rw [hq, t.allocate_allocTable_self, t.allocate_maxDemand, Int32.le_iff_toInt_le,
      Int32.le_iff_toInt_le, hsum]
    exact ⟨hnonneg r, hgrant.alloc_le h r⟩
  · rw [t.allocate_allocTable_of_ne req hq, t.allocate_maxDemand]
    exact ⟨h.alloc_nonneg q r, h.alloc_le q r⟩

theorem avail_nonneg_of_checkSafeState {t : Tables n m}
    (h : ∀ p r, 0 ≤ t.allocTable p r ∧ t.allocTable p r ≤ t.maxDemand p r)
    {execOrder : List (Fin n)} (hcheck : checkSafeState t = some (true, execOrder)) (p : Fin n)
    (r : Fin m) : 0 ≤ (t.currentAvail r).toInt := by
  obtain ⟨q, hq⟩ := exists_need_le_of_isOrder
    (isOrder_of_checkSafeState (fun p r => (h p r).1) hcheck) p
  have hle := ints_le_iff.2 (fun r => (h q r).2) r
  have hqr : (t.maxDemand q r).toInt - (t.allocTable q r).toInt ≤ (t.currentAvail r).toInt := hq r
  simp only [ints_apply] at hle
  omega

/-- A request that is granted and takes no allocation below zero overflows nowhere. -/
theorem Grants.moves {t : Tables n m} (h : t.WellFormed) {p : Fin n} {req : Fin m → Int32}
    (hgrant : Grants t p req)
    (hnonneg : ∀ r, 0 ≤ (t.allocTable p r).toInt + (req r).toInt) : t.Moves p req := by
  refine ⟨hgrant.alloc_fits h, fun r => ?_⟩
  obtain ⟨execOrder, hcheck⟩ := hgrant.2
  have hpool := avail_nonneg_of_checkSafeState (hgrant.alloc_bounds h hnonneg) hcheck p r
  have hle := Int32.le_iff_toInt_le.1 (hgrant.1 r).2
  have hsum := hnonneg r
  have halloc := (fits_toInt (t.allocTable p r)).2
  have havail := (fits_toInt (t.currentAvail r)).2
  refine ⟨by omega, ?_⟩
  by_contra hover
  rw [t.allocate_currentAvail, toInt_sub_eq_wrap,
    wrap_of_over (by decide) (not_lt.1 hover) (by omega)] at hpool
  omega

/-- A granted request keeps the invariant when no allocation goes below zero. -/
theorem Tables.Invariant.allocate {t₀ t : Tables n m} (h : t₀.Invariant t)
    {p : Fin n} {req : Fin m → Int32} (hgrant : Grants t p req)
    (hnonneg : ∀ r, 0 ≤ (t.allocTable p r).toInt + (req r).toInt) :
    t₀.Invariant (t.allocate p req) := by
  have hbounds := hgrant.alloc_bounds h.wellFormed hnonneg
  have hmoves := hgrant.moves h.wellFormed hnonneg
  obtain ⟨execOrder, hcheck⟩ := hgrant.2
  refine ⟨⟨fun q r => (hbounds q r).1, fun q r => (hbounds q r).2, ?_, ?_⟩, ?_⟩
  · intro r
    rw [Int32.le_iff_toInt_le]
    exact avail_nonneg_of_checkSafeState hbounds hcheck p r
  · exact ⟨execOrder,
      isOrder_of_checkSafeState (fun q r => (hbounds q r).1) hcheck⟩
  · intro r
    rw [hmoves.total]
    exact h.total r

/-- One call keeps the invariant exactly when it is admissible. -/
theorem processRequest_invariant_iff {t₀ t : Tables n m} (h : t₀.Invariant t)
    (p : Fin n) (req : Fin m → Int32) :
    (∃ u, (processRequest t p req).map (·.2) = some u ∧ t₀.Invariant u) ↔
      Admissible t p req := by
  obtain ⟨reply, u, hcall, ⟨hgrant, -, rfl⟩ | ⟨hrefuse, -, rfl⟩⟩ :=
    processRequest_cases t p req
  · constructor
    · rintro ⟨v, hv, hinv⟩
      rw [hcall, Option.map_some, Option.some.injEq] at hv
      left
      intro r
      have hr := hinv.wellFormed.alloc_nonneg p r
      rwa [← hv, t.allocate_allocTable_self, Int32.le_iff_toInt_le,
        toInt_add_of_fits (hgrant.alloc_fits h.wellFormed r)] at hr
    · intro hadm
      exact ⟨_, by rw [hcall]; rfl, h.allocate hgrant (hadm.nonneg_of_grants hgrant)⟩
  · constructor
    · exact fun _ => admissible_of_not_grants hrefuse
    · exact fun _ => ⟨u, by rw [hcall]; rfl, h⟩

/-- In every run from well-formed tables the invariant holds after every call
if and only if every call is admissible in the state it meets. -/
theorem processRequests_invariant_iff {t₀ : Tables n m} (h₀ : t₀.WellFormed)
    (calls : List (Fin n × (Fin m → Int32))) :
    (∀ done, done <+: calls →
        ∃ t, processRequests t₀ done = some t ∧ t₀.Invariant t) ↔
      ∀ done call, done ++ [call] <+: calls →
        ∀ t, processRequests t₀ done = some t → Admissible t call.1 call.2 := by
  constructor
  · intro hall done call hpre t ht
    obtain ⟨t', ht', hinv⟩ := hall done ((List.prefix_append done [call]).trans hpre)
    obtain ⟨u, hu, hinv'⟩ := hall (done ++ [call]) hpre
    rw [ht, Option.some.injEq] at ht'
    subst ht'
    rw [processRequests_append_singleton, ht, Option.bind_some] at hu
    exact (processRequest_invariant_iff hinv call.1 call.2).1 ⟨u, hu, hinv'⟩
  · intro hadm done
    -- Induction over the calls made so far, taking the last one off.
    induction done using List.reverseRecOn with
    | nil => exact fun _ => ⟨t₀, rfl, h₀, fun _ => rfl⟩
    | append_singleton done call ih =>
        intro hpre
        obtain ⟨t, ht, hinv⟩ := ih ((List.prefix_append done [call]).trans hpre)
        obtain ⟨u, hu, hinv'⟩ := (processRequest_invariant_iff hinv call.1 call.2).2
          (hadm done call hpre t ht)
        exact ⟨u, by rw [processRequests_append_singleton, ht]; exact hu, hinv'⟩

/-- The tables `bankers.c` starts with. -/
def bankersTables : Tables 5 3 :=
  { allocTable := ![![0, 1, 0], ![2, 0, 0], ![3, 0, 2], ![2, 1, 1], ![0, 0, 2]]
    maxDemand := ![![7, 5, 3], ![3, 2, 2], ![9, 0, 2], ![2, 2, 2], ![4, 3, 3]]
    currentAvail := ![3, 3, 2] }

theorem bankersTables_wellFormed : bankersTables.WellFormed := by
  have hcheck : checkSafeState bankersTables = some (true, [1, 3, 4, 0, 2]) := by
    decide +kernel
  have hbounds : ∀ p r, 0 ≤ bankersTables.allocTable p r ∧
      bankersTables.allocTable p r ≤ bankersTables.maxDemand p r := by
    decide
  exact ⟨fun p r => (hbounds p r).1, fun p r => (hbounds p r).2, by decide, _,
    isOrder_of_checkSafeState (fun p r => (hbounds p r).1) hcheck⟩

/-- The two requests of `main`. -/
def mainRequests : List (Fin 5 × (Fin 3 → Int32)) := [(1, ![1, 0, 2]), (4, ![2, 3, 0])]

/-- Both are admissible, the one that is granted and the one that is rejected, and
both keep the invariant. -/
theorem processRequests_invariant_iff_main :
    bankersTables.WellFormed ∧
      (∀ done call, done ++ [call] <+: mainRequests → ∀ t,
        processRequests bankersTables done = some t → Admissible t call.1 call.2) ∧
      ∀ done, done <+: mainRequests →
        ∃ t, processRequests bankersTables done = some t ∧ bankersTables.Invariant t := by
  suffices hadm : ∀ done call, done ++ [call] <+: mainRequests → ∀ t,
      processRequests bankersTables done = some t → Admissible t call.1 call.2 from
    ⟨bankersTables_wellFormed, hadm,
      (processRequests_invariant_iff bankersTables_wellFormed mainRequests).2 hadm⟩
  have hfirst : ∀ r, 0 ≤ (bankersTables.allocTable 1 r).toInt +
      ((![1, 0, 2] : Fin 3 → Int32) r).toInt := by
    decide
  have hsecond : ∀ t ∈ processRequests bankersTables [(1, ![1, 0, 2])],
      ∀ r, 0 ≤ (t.allocTable 4 r).toInt + ((![2, 3, 0] : Fin 3 → Int32) r).toInt := by
    decide +kernel
  intro done call hpre t ht
  rw [← List.mem_inits] at hpre
  rcases done with _ | ⟨x, _ | ⟨y, done⟩⟩
  · cases ht
    obtain rfl : call = (1, ![1, 0, 2]) := by simpa [mainRequests] using hpre
    exact Or.inl hfirst
  · obtain ⟨rfl, rfl⟩ : x = (1, ![1, 0, 2]) ∧ call = (4, ![2, 3, 0]) := by
      simpa [mainRequests] using hpre
    exact Or.inl (hsecond t ht)
  · simp [mainRequests] at hpre

/-- Process 0 holds none of resource 0; asking for minus one unit of it is
granted and leaves it with minus one. -/
theorem processRequests_negative_alloc :
    bankersTables.WellFormed ∧
      ∃ t, processRequests bankersTables [(0, ![-1, 0, 0])] = some t ∧
        t.allocTable 0 0 = -1 ∧ ¬ bankersTables.Invariant t := by
  refine ⟨bankersTables_wellFormed, bankersTables.allocate 0 ![-1, 0, 0], ?_, by decide, ?_⟩
  · rfl
  · intro hinv
    have h := hinv.wellFormed.alloc_nonneg 0 0
    revert h
    decide

end Deadlock
