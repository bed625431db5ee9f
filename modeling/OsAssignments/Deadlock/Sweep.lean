import OsAssignments.Library.MachineInt
import OsAssignments.Library.Reduction
import Mathlib.Algebra.BigOperators.Pi
import Mathlib.Algebra.Order.Group.Int
import Mathlib.Algebra.Order.Pi
import Mathlib.Algebra.Ring.Int.Defs
import Mathlib.Data.Int.ConditionallyCompleteOrder
import Mathlib.Data.List.FinRange
import Mathlib.Order.ConditionallyCompleteLattice.Basic

/-!
# The completion sweep

The banker's safety check, its twin in `deadlock.c` and the deadlock detector
run the same loop: scan the processes in index order, let every unfinished one
whose row fits in `work` finish and hand back its allocation, and scan again
as long as the last pass made progress. The loops differ in the matrix they
scan, in which processes count as finished at the start, and in their exit
test. `visit` and `pass` are the common body; the two exit tests are
`sweepLoop` and `safeLoop`.

The tables hold values of type `int`, and a sum that leaves its range wraps. What
the loop finishes could have finished all the same, since an overflow only makes
`work` smaller: that is `Valid`. With the totals in the range of an `int` the
values of `work` are those of the exact sums: that is `Exact`.
-/

namespace Deadlock

open MachineInt

/-- One row of `m` resource counts for each of `n` processes. -/
abbrev Table (n m : ℕ) := Fin n → Fin m → Int32

def ints {m : ℕ} (row : Fin m → Int32) : Fin m → ℤ := fun r => (row r).toInt

@[simp] theorem ints_apply {m : ℕ} (row : Fin m → Int32) (r : Fin m) :
    ints row r = (row r).toInt := rfl

theorem ints_le_iff {m : ℕ} {a b : Fin m → Int32} : ints a ≤ ints b ↔ ∀ r, a r ≤ b r := by
  simp [Pi.le_def, Int32.le_iff_toInt_le]

theorem ints_nonneg_iff {m : ℕ} {a : Fin m → Int32} : 0 ≤ ints a ↔ ∀ r, 0 ≤ a r := by
  simp [Pi.le_def, Int32.le_iff_toInt_le]

/-- Whether row `p` of `need` fits in `work`; the C loop returns at the first
resource that does not. -/
def fits {n m : ℕ} (need : Table n m) (p : Fin n) (work : Fin m → Int32) : Bool :=
  !(List.finRange m).any fun r => decide (need p r > work r)

@[simp] theorem fits_iff {n m : ℕ} (need : Table n m) (p : Fin n)
    (work : Fin m → Int32) : fits need p work = true ↔ ints (need p) ≤ ints work := by
  simp [fits, ints_le_iff]

/-- The variables of the loop: the pool, the finish flags, the processes the
loop has finished in the order it finished them, and the flag that this pass
finished one. -/
structure Sweep (n m : ℕ) where
  work : Fin m → Int32
  finished : Fin n → Bool
  sequence : List (Fin n)
  progress : Bool

namespace Sweep

variable {n m : ℕ}

def enter (work : Fin m → Int32) (finished : Fin n → Bool) : Sweep n m :=
  { work := work, finished := finished, sequence := [], progress := false }

/-- The loop body at process `p`; `test` is what the code asks of an unfinished one. -/
def visit (test : Fin n → (Fin m → Int32) → Bool) (allocation : Table n m) (s : Sweep n m)
    (p : Fin n) : Sweep n m :=
  if !s.finished p && test p s.work then
    { work := fun r => s.work r + allocation p r
      finished := Function.update s.finished p true
      sequence := s.sequence ++ [p]
      progress := true }
  else s

/-- One pass over all processes, with the progress flag cleared first. -/
def pass (test : Fin n → (Fin m → Int32) → Bool) (allocation : Table n m) (s : Sweep n m) :
    Sweep n m :=
  (List.finRange n).foldl (visit test allocation) { s with progress := false }

def sweepLoop (test : Fin n → (Fin m → Int32) → Bool) (allocation : Table n m) :
    ℕ → Sweep n m → Option (Sweep n m)
  | 0, _ => none
  | fuel + 1, s =>
      let t := pass test allocation s
      if t.progress then sweepLoop test allocation fuel t else some t

/-- Pass while some process is unfinished, giving up after a pass without
progress; the flag is the return value of the C function. -/
def safeLoop (test : Fin n → (Fin m → Int32) → Bool) (allocation : Table n m) :
    ℕ → Sweep n m → Option (Bool × Sweep n m)
  | 0, _ => none
  | fuel + 1, s =>
      if s.sequence.length < n then
        let t := pass test allocation s
        if t.progress then safeLoop test allocation fuel t else some (false, t)
      else some (true, s)

def finishedSet (s : Sweep n m) : Finset (Fin n) :=
  Finset.univ.filter fun p => s.finished p = true

@[simp] theorem mem_finishedSet (s : Sweep n m) (p : Fin n) :
    p ∈ s.finishedSet ↔ s.finished p = true := by
  simp [finishedSet]

end Sweep

/-- The resource system of a need matrix, an allocation and a pool. -/
def system {n m : ℕ} (need allocation : Table n m) (pool : Fin m → Int32) :
    Reduction.System (Fin n) (Fin m → ℤ) :=
  { pool := ints pool, need := fun p => ints (need p), gain := fun p => ints (allocation p) }

/-- The resource system of the declared maxima: a process needs what it lacks of its maximum. -/
def claimSystem {n m : ℕ} (allocation maximum : Table n m) (pool : Fin m → Int32) :
    Reduction.System (Fin n) (Fin m → ℤ) :=
  { pool := ints pool, need := fun p => ints (maximum p) - ints (allocation p),
    gain := fun p => ints (allocation p) }

theorem system_eq_claimSystem {n m : ℕ} {allocation maximum : Table n m} (pool : Fin m → Int32)
    (h : ∀ p r, Fits 32 ((maximum p r).toInt - (allocation p r).toInt)) :
    system (fun p r => maximum p r - allocation p r) allocation pool =
      claimSystem allocation maximum pool := by
  have hneed : ∀ p, ints (fun r => maximum p r - allocation p r) =
      ints (maximum p) - ints (allocation p) := fun p => funext fun r => toInt_sub_of_fits (h p r)
  simp only [system, claimSystem, hneed]

/-- An underflow in the differences only raises a need, so an order of the tables is one of
the declared maxima. -/
theorem isOrder_claimSystem {n m : ℕ} {allocation maximum : Table n m} {pool : Fin m → Int32}
    (hallocation : ∀ p, 0 ≤ ints (allocation p)) {l : List (Fin n)}
    (h : (system (fun p r => maximum p r - allocation p r) allocation pool).IsOrder l) :
    (claimSystem allocation maximum pool).IsOrder l := by
  obtain ⟨hnodup, hmem, hruns⟩ := h
  have hneed : ∀ p, (claimSystem allocation maximum pool).need p ≤
      (system (fun p r => maximum p r - allocation p r) allocation pool).need p :=
    fun p r => le_toInt_sub (hallocation p r)
  exact ⟨hnodup, hmem, hruns.of_need_le hneed rfl⟩

theorem system_work_apply {n m : ℕ} (need allocation : Table n m) (pool : Fin m → Int32)
    (S : Finset (Fin n)) (r : Fin m) :
    (system need allocation pool).work S r = (pool r).toInt + ∑ p ∈ S, (allocation p r).toInt := by
  simp [Reduction.System.work, system, Finset.sum_apply]

/-- An `int` can count the units of each resource, free and held. -/
def TotalFits {n m : ℕ} (allocation : Table n m) (pool : Fin m → Int32) : Prop :=
  ∀ r, (pool r).toInt + ∑ p, (allocation p r).toInt < 2 ^ 31

instance {n m : ℕ} (allocation : Table n m) (pool : Fin m → Int32) :
    Decidable (TotalFits allocation pool) :=
  inferInstanceAs (Decidable (∀ _, _))

open Reduction (System)

/-- Starting with `Z` finished, the loop has finished the processes of `sequence`. -/
structure Sweep.Tracked {n m : ℕ} (Z : Finset (Fin n)) (s : Sweep n m) : Prop where
  finished_iff : ∀ p, s.finished p = true ↔ p ∈ Z ∨ p ∈ s.sequence
  nodup : s.sequence.Nodup
  notMem : ∀ p ∈ s.sequence, p ∉ Z

/-- The loop state is a run of the resource system: the processes of `sequence` can
complete in that order, and `work` does not exceed the pool they leave. -/
structure Sweep.Valid {n m : ℕ} (σ : System (Fin n) (Fin m → ℤ))
    (Z : Finset (Fin n)) (s : Sweep n m) : Prop where
  tracked : s.Tracked Z
  work_le : ints s.work ≤ σ.work Z + (s.sequence.map σ.gain).sum
  runs : σ.RunsFrom (σ.work Z) s.sequence

def Sweep.Exact {n m : ℕ} (σ : System (Fin n) (Fin m → ℤ)) (Z : Finset (Fin n))
    (s : Sweep n m) : Prop :=
  s.Valid σ Z ∧ ints s.work = σ.work Z + (s.sequence.map σ.gain).sum

namespace Sweep

variable {n m : ℕ} {σ : System (Fin n) (Fin m → ℤ)} {Z : Finset (Fin n)}
  {s t : Sweep n m} {need allocation : Table n m} {pool : Fin m → Int32}
  {test : Fin n → (Fin m → Int32) → Bool}

/-! ## What the loops keep -/

/-- `P` does not speak of the progress flag, and every visit keeps it. -/
structure Keeps (test : Fin n → (Fin m → Int32) → Bool) (allocation : Table n m)
    (P : Sweep n m → Prop) : Prop where
  flag : ∀ s b, P s → P { s with progress := b }
  visit : ∀ s p, P s → P (s.visit test allocation p)

section Keeps

variable {P : Sweep n m → Prop}

theorem Keeps.foldl_visit (h : Keeps test allocation P) (hs : P s) (l : List (Fin n)) :
    P (l.foldl (Sweep.visit test allocation) s) := by
  induction l generalizing s with
  | nil => exact hs
  | cons p l ih => exact ih (h.visit s p hs)

theorem Keeps.pass (h : Keeps test allocation P) (hs : P s) : P (s.pass test allocation) :=
  h.foldl_visit (h.flag s false hs) _

theorem Keeps.sweepLoop (h : Keeps test allocation P) (hs : P s) {fuel : ℕ}
    (ht : s.sweepLoop test allocation fuel = some t) : P t := by
  induction fuel generalizing s with
  | zero => cases ht
  | succ fuel ih =>
      rw [Sweep.sweepLoop] at ht
      split_ifs at ht
      · exact ih (h.pass hs) ht
      · cases ht
        exact h.pass hs

theorem Keeps.safeLoop (h : Keeps test allocation P) (hs : P s) {fuel : ℕ} {b : Bool}
    (ht : s.safeLoop test allocation fuel = some (b, t)) : P t := by
  induction fuel generalizing s with
  | zero => cases ht
  | succ fuel ih =>
      rw [Sweep.safeLoop] at ht
      split_ifs at ht with hcount
      · dsimp only at ht
        split_ifs at ht
        · exact ih (h.pass hs) ht
        · cases ht
          exact h.pass hs
      · cases ht
        exact hs

end Keeps

/-- A visit either leaves the state alone because the process is finished or
fails the test, or appends the process and raises the flag. -/
theorem visit_cases (test : Fin n → (Fin m → Int32) → Bool) (allocation : Table n m)
    (s : Sweep n m) (p : Fin n) :
    (s.visit test allocation p = s ∧ (s.finished p = true ∨ test p s.work = false)) ∨
      (s.finished p = false ∧ test p s.work = true ∧
        s.visit test allocation p =
          { work := fun r => s.work r + allocation p r
            finished := Function.update s.finished p true
            sequence := s.sequence ++ [p]
            progress := true }) := by
  by_cases h : (!s.finished p && test p s.work) = true
  · right
    have hvisit : s.visit test allocation p = _ := if_pos h
    rw [Bool.and_eq_true, Bool.not_eq_true'] at h
    exact ⟨h.1, h.2, hvisit⟩
  · left
    have hvisit : s.visit test allocation p = s := if_neg h
    rw [Bool.and_eq_true, Bool.not_eq_true', not_and_or, Bool.not_eq_false,
      Bool.not_eq_true] at h
    exact ⟨hvisit, h⟩

/-! ## The sequence -/

theorem Tracked.finishedSet_eq (h : s.Tracked Z) :
    s.finishedSet = Z ∪ s.sequence.toFinset := by
  ext p
  simp [h.finished_iff p]

theorem Tracked.length_le (h : s.Tracked Z) : s.sequence.length ≤ n := by
  simpa using h.nodup.length_le_card

theorem Tracked.work_finishedSet (h : s.Tracked Z) (σ : System (Fin n) (Fin m → ℤ)) :
    σ.work Z + (s.sequence.map σ.gain).sum = σ.work s.finishedSet := by
  have hdisj : Disjoint Z s.sequence.toFinset := by
    rw [Finset.disjoint_right]
    intro p hp
    exact h.notMem p (List.mem_toFinset.1 hp)
  rw [h.finishedSet_eq, System.work, System.work,
    Finset.sum_union hdisj, List.sum_toFinset _ h.nodup, add_assoc]

theorem keeps_tracked (test : Fin n → (Fin m → Int32) → Bool) (allocation : Table n m)
    (Z : Finset (Fin n)) : Keeps test allocation (Tracked Z) := by
  constructor
  · intro s b h
    exact ⟨h.finished_iff, h.nodup, h.notMem⟩
  · intro s p h
    rcases visit_cases test allocation s p with ⟨heq, -⟩ | ⟨hfin, -, heq⟩
    · rwa [heq]
    · rw [heq]
      have hnew : ¬ (p ∈ Z ∨ p ∈ s.sequence) := by
        rw [← h.finished_iff p, hfin]
        simp
      rw [not_or] at hnew
      refine ⟨?_, ?_, ?_⟩
      · intro q
        by_cases hq : q = p
        · simp [hq]
        · simp [h.finished_iff q, hq]
      · rw [List.nodup_append]
        refine ⟨h.nodup, List.nodup_singleton p, ?_⟩
        rintro q hq _ hp rfl
        rw [List.mem_singleton] at hp
        exact hnew.2 (hp ▸ hq)
      · intro q hq
        rcases List.mem_append.1 hq with hq | hq
        · exact h.notMem q hq
        · rw [List.mem_singleton] at hq
          exact hq ▸ hnew.1

theorem Tracked.mem_sequence (h : s.Tracked ∅) (hlen : s.sequence.length = n)
    (p : Fin n) : p ∈ s.sequence := by
  have hcard : s.sequence.toFinset.card = Fintype.card (Fin n) := by
    rw [List.toFinset_card_of_nodup h.nodup, hlen, Fintype.card_fin]
  rw [← List.mem_toFinset, (Finset.card_eq_iff_eq_univ _).1 hcard]
  exact Finset.mem_univ p

section Progress

variable (test : Fin n → (Fin m → Int32) → Bool) (allocation : Table n m)

theorem length_le_foldl_visit (s : Sweep n m) (l : List (Fin n)) :
    s.sequence.length ≤
      (l.foldl (visit test allocation) s).sequence.length := by
  induction l generalizing s with
  | nil => exact le_rfl
  | cons p l ih =>
      refine le_trans ?_ (ih (s.visit test allocation p))
      rcases visit_cases test allocation s p with ⟨heq, -⟩ | ⟨-, -, heq⟩
      · rw [heq]
      · simp [heq]

theorem foldl_visit_flag (s : Sweep n m) (l : List (Fin n))
    (hs : s.progress = true) :
    (l.foldl (visit test allocation) s).progress = true := by
  induction l generalizing s with
  | nil => exact hs
  | cons p l ih =>
      rw [List.foldl_cons]
      apply ih
      rcases visit_cases test allocation s p with ⟨heq, -⟩ | ⟨-, -, heq⟩
      · rw [heq, hs]
      · rw [heq]

/-- Until a visit raises the flag nothing changes; from the first one on the
flag is up and the sequence is longer than it was. -/
theorem foldl_visit_cases (s : Sweep n m) (l : List (Fin n)) :
    (l.foldl (visit test allocation) s = s ∧
        ∀ p ∈ l, s.finished p = true ∨ test p s.work = false) ∨
      ((l.foldl (visit test allocation) s).progress = true ∧
        s.sequence.length <
          (l.foldl (visit test allocation) s).sequence.length) := by
  induction l with
  | nil => exact Or.inl ⟨rfl, by simp⟩
  | cons p l ih =>
      rw [List.foldl_cons]
      rcases visit_cases test allocation s p with ⟨heq, hp⟩ | ⟨-, -, heq⟩
      · rw [heq]
        rcases ih with ⟨hl, hall⟩ | hgrow
        · exact Or.inl ⟨hl, List.forall_mem_cons.2 ⟨hp, hall⟩⟩
        · exact Or.inr hgrow
      · right
        refine ⟨foldl_visit_flag test allocation _ l (by rw [heq]), ?_⟩
        refine lt_of_lt_of_le ?_ (length_le_foldl_visit test allocation _ l)
        simp [heq]

/-- A pass that reports no progress changed nothing and left every unfinished
process unable to finish; a pass that reports progress lengthened the sequence. -/
theorem pass_cases (s : Sweep n m) :
    ((s.pass test allocation).progress = false ∧
        s.pass test allocation = { s with progress := false } ∧
        ∀ p, s.finished p = true ∨ test p s.work = false) ∨
      ((s.pass test allocation).progress = true ∧
        s.sequence.length < (s.pass test allocation).sequence.length) := by
  rcases foldl_visit_cases test allocation { s with progress := false }
      (List.finRange n) with ⟨heq, hall⟩ | hgrow
  · left
    refine ⟨by rw [pass, heq], heq, fun p => hall p (List.mem_finRange p)⟩
  · exact Or.inr hgrow

end Progress

def Halted (test : Fin n → (Fin m → Int32) → Bool) (s : Sweep n m) : Prop :=
  ∀ p, s.finished p = true ∨ test p s.work = false

/-- The detector's loop ends, whatever the tables hold. -/
theorem Tracked.sweepLoop (h : s.Tracked Z) (fuel : ℕ) (hfuel : n < fuel + s.sequence.length) :
    ∃ t, s.sweepLoop test allocation fuel = some t ∧ t.Halted test := by
  induction fuel generalizing s with
  | zero =>
      have hle := h.length_le
      omega
  | succ fuel ih =>
      rcases pass_cases test allocation s with ⟨hflag, heq, hall⟩ | ⟨hflag, hlt⟩
      · refine ⟨s.pass test allocation, by simp [Sweep.sweepLoop, hflag], ?_⟩
        rw [heq]
        exact hall
      · obtain ⟨t, ht, hhalted⟩ := ih ((keeps_tracked test allocation Z).pass h) (by omega)
        exact ⟨t, by simp [Sweep.sweepLoop, hflag, ht], hhalted⟩

/-- The safety loop ends, whatever the tables hold, and returns 1 exactly when
everybody has finished. -/
theorem Tracked.safeLoop (h : s.Tracked Z) (fuel : ℕ) (hfuel : n < fuel + s.sequence.length) :
    ∃ b t, s.safeLoop test allocation fuel = some (b, t) ∧
      (b = true → t.sequence.length = n) ∧
      (b = false → t.sequence.length < n ∧ t.Halted test) := by
  induction fuel generalizing s with
  | zero =>
      have hle := h.length_le
      omega
  | succ fuel ih =>
      by_cases hcount : s.sequence.length < n
      · rcases pass_cases test allocation s with ⟨hflag, heq, hall⟩ | ⟨hflag, hlt⟩
        · refine ⟨false, s.pass test allocation,
            by simp [Sweep.safeLoop, hcount, hflag], by simp, fun _ => ?_⟩
          rw [heq]
          exact ⟨hcount, hall⟩
        · obtain ⟨b, t, ht, hrest⟩ := ih ((keeps_tracked test allocation Z).pass h) (by omega)
          exact ⟨b, t, by simp [Sweep.safeLoop, hcount, hflag, ht], hrest⟩
      · refine ⟨true, s, by simp [Sweep.safeLoop, hcount], fun _ => ?_, by simp⟩
        have hle := h.length_le
        omega

/-! ## The pool -/

theorem exact_enter (need allocation : Table n m) (pool : Fin m → Int32) :
    Exact (system need allocation pool) ∅ (enter pool fun _ => false) := by
  refine ⟨⟨⟨?_, ?_, ?_⟩, ?_, ?_⟩, ?_⟩ <;> simp [System.RunsFrom, system, enter]

theorem Valid.completes (h : s.Valid σ Z) : σ.Completes Z s.finishedSet := by
  rw [h.tracked.finishedSet_eq]
  exact h.runs.completes h.tracked.nodup h.tracked.notMem

theorem Valid.isOrder (h : s.Valid σ ∅) (hlen : s.sequence.length = n) :
    σ.IsOrder s.sequence :=
  ⟨h.tracked.nodup, h.tracked.mem_sequence hlen, by simpa using h.runs⟩

theorem Exact.work_finishedSet (h : s.Exact σ Z) : ints s.work = σ.work s.finishedSet :=
  h.2.trans (h.1.tracked.work_finishedSet σ)

theorem keeps_valid (hallocation : ∀ p, 0 ≤ ints (allocation p)) :
    Keeps (fits need) allocation (Valid (system need allocation pool) Z) := by
  constructor
  · intro s b h
    exact ⟨(keeps_tracked (fits need) allocation Z).flag s b h.tracked, h.work_le, h.runs⟩
  · intro s p h
    have htracked := (keeps_tracked (fits need) allocation Z).visit s p h.tracked
    rcases visit_cases (fits need) allocation s p with ⟨heq, -⟩ | ⟨-, hfit, heq⟩
    · rwa [heq]
    · rw [heq] at htracked ⊢
      rw [fits_iff] at hfit
      refine ⟨htracked, fun r => ?_, ?_⟩
      · have hadd := toInt_add_le (x := s.work r) (hallocation p r)
        have hle := h.work_le r
        rw [List.map_append, List.sum_append, ← add_assoc]
        simp only [Pi.add_apply, List.map_singleton, List.sum_singleton, ints_apply] at hle ⊢
        exact hadd.trans (add_le_add_left hle _)
      · rw [System.runsFrom_append_singleton]
        exact ⟨h.runs, hfit.trans h.work_le⟩

theorem keeps_exact (hallocation : ∀ p, 0 ≤ ints (allocation p))
    (htotal : TotalFits allocation pool) :
    Keeps (fits need) allocation (Exact (system need allocation pool) Z) := by
  constructor
  · intro s b h
    exact ⟨(keeps_valid hallocation).flag s b h.1, h.2⟩
  · intro s p h
    have hvalid := (keeps_valid hallocation).visit s p h.1
    rcases visit_cases (fits need) allocation s p with ⟨heq, -⟩ | ⟨-, -, heq⟩
    · rwa [heq]
    · rw [heq] at hvalid ⊢
      refine ⟨hvalid, ?_⟩
      have hsum := hvalid.tracked.work_finishedSet (system need allocation pool)
      rw [List.map_append, List.sum_append, ← add_assoc, ← h.2] at hsum ⊢
      rw [List.map_singleton, List.sum_singleton] at hsum ⊢
      funext r
      have hle := (hsum.le.trans (System.work_mono _ hallocation (Finset.subset_univ _))) r
      rw [system_work_apply] at hle
      refine toInt_add_of_fits ⟨?_, hle.trans_lt (htotal r)⟩
      have hwork := (fits_toInt (s.work r)).1
      have hpos : 0 ≤ (allocation p r).toInt := hallocation p r
      omega

/-- The loop of the safety checks, whatever the tables hold. If no allocation is negative, a
sequence of everybody is an order; if no sum overflows either, the loop stops where nobody
else can finish. -/
theorem safeLoop_enter (need allocation : Table n m) (pool : Fin m → Int32) :
    ∃ b s, safeLoop (fits need) allocation (n + 1) (enter pool fun _ => false) = some (b, s) ∧
      s.Tracked ∅ ∧ (b = true → s.sequence.length = n) ∧
      (b = false → s.sequence.length < n ∧ s.Halted (fits need)) ∧
      ((∀ p, 0 ≤ ints (allocation p)) → s.Valid (system need allocation pool) ∅ ∧
        (TotalFits allocation pool → s.Exact (system need allocation pool) ∅)) := by
  have hexact := exact_enter need allocation pool
  obtain ⟨b, s, hs, htrue, hfalse⟩ :=
    hexact.1.tracked.safeLoop (n + 1)
      (by simp [enter])
  refine ⟨b, s, hs, (keeps_tracked _ _ _).safeLoop hexact.1.tracked hs, htrue, hfalse, ?_⟩
  intro hallocation
  exact ⟨(keeps_valid hallocation).safeLoop hexact.1 hs,
    fun htotal => (keeps_exact hallocation htotal).safeLoop hexact hs⟩

theorem Exact.stuck (h : s.Exact (system need allocation pool) Z)
    (hhalted : s.Halted (fits need)) : (system need allocation pool).Stuck s.finishedSet := by
  intro p hp hfit
  rw [mem_finishedSet] at hp
  rw [← h.work_finishedSet] at hfit
  rcases hhalted p with hfin | hno
  · exact hp hfin
  · rw [(fits_iff need p s.work).2 hfit] at hno
    cases hno

end Sweep

end Deadlock
