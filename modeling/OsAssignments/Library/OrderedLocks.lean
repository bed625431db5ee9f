import Mathlib.Data.Fintype.EquivFin
import Mathlib.Data.Fintype.Lattice
import OsAssignments.Library.Interleaving

/-!
# Counting semaphores taken in order

The parties of an interleaved program hold units of some resources, at most one unit of
each. A resource is `Balanced` when the value of its semaphore and the number of its
holders add up to its capacity; a step that keeps the two in step keeps the balance.

When every blocked party waits for a resource beyond all those it holds, there is no
circular wait: the party that waits for the last of these resources would wait for a
holder that waits for a later one.
-/

open scoped BigOperators

namespace Interleaving

variable {ι σ κ R : Type*} [Fintype ι]

section Holders

variable {holds : ι → κ → R → Prop} [∀ i k r, Decidable (holds i k r)]
  {party : ι → κ} {i : ι} {r : R}

/-- The parties that hold a unit of `r`. -/
def holders (holds : ι → κ → R → Prop) [∀ i k r, Decidable (holds i k r)]
    (party : ι → κ) (r : R) : Finset ι :=
  Finset.univ.filter fun i => holds i (party i) r

@[simp] theorem mem_holders : i ∈ holders holds party r ↔ holds i (party i) r := by
  simp [holders]

theorem card_holders (holds : ι → κ → R → Prop) [∀ i k r, Decidable (holds i k r)]
    (party : ι → κ) (r : R) : (holders holds party r).card =
      total (fun i k => if holds i k r then 1 else 0) party :=
  Finset.card_filter _ _

/-- When one party moves, only its own share changes. -/
theorem card_holders_update [DecidableEq ι] (holds : ι → κ → R → Prop)
    [∀ i k r, Decidable (holds i k r)] (party : ι → κ) (i : ι) (k : κ) (r : R) :
    (holders holds (Function.update party i k) r).card +
        (if holds i (party i) r then 1 else 0) =
      (holders holds party r).card + if holds i k r then 1 else 0 := by
  rw [card_holders, card_holders]
  exact total_update (fun i k => if holds i k r then 1 else 0) party i k

end Holders

/-- The units of each resource are in its semaphore or with the holders. -/
def Balanced (holds : ι → κ → R → Prop) [∀ i k r, Decidable (holds i k r)]
    (value : σ → R → ℕ) (capacity : R → ℕ) (s : State ι σ κ) : Prop :=
  ∀ r, value s.shared r + (holders holds s.party r).card = capacity r

namespace Balanced

variable {holds : ι → κ → R → Prop} [∀ i k r, Decidable (holds i k r)]
  {value : σ → R → ℕ} {capacity : R → ℕ} {s : State ι σ κ} {r : R}

theorem card_le (h : Balanced holds value capacity s) (r : R) :
    (holders holds s.party r).card ≤ capacity r := by
  rw [← h r]
  exact Nat.le_add_left _ _

theorem value_le (h : Balanced holds value capacity s) (r : R) :
    value s.shared r ≤ capacity r := by
  rw [← h r]
  exact Nat.le_add_right _ _

/-- A step that gives to or takes from the semaphores what the party no longer or now
holds. -/
theorem move [DecidableEq ι] (h : Balanced holds value capacity s) {i : ι} {x : σ} {k : κ}
    (hstep : ∀ r, value x r + (if holds i k r then 1 else 0) =
      value s.shared r + if holds i (s.party i) r then 1 else 0) :
    Balanced holds value capacity (s.move i x k) := by
  intro r
  have hr := h r
  have hcard := card_holders_update holds s.party i k r
  have hvalue := hstep r
  rw [State.move_shared, State.move_party]
  omega

theorem start (hnone : ∀ i r, ¬ holds i (s.party i) r)
    (hvalue : ∀ r, value s.shared r = capacity r) : Balanced holds value capacity s := by
  intro r
  have hempty : holders holds s.party r = ∅ := by
    ext i
    simp [hnone i r]
  rw [hempty, Finset.card_empty, Nat.add_zero, hvalue r]

theorem value_eq (h : Balanced holds value capacity s) (hnone : ∀ i, ¬ holds i (s.party i) r) :
    value s.shared r = capacity r := by
  have hempty : holders holds s.party r = ∅ := by
    ext i
    simp [hnone i]
  have hr := h r
  rwa [hempty, Finset.card_empty, Nat.add_zero] at hr

theorem exists_holds (h : Balanced holds value capacity s) (hvalue : value s.shared r = 0)
    (hcapacity : 0 < capacity r) : ∃ i, holds i (s.party i) r := by
  have hr := h r
  rw [hvalue, Nat.zero_add] at hr
  have hpos : 0 < (holders holds s.party r).card := by rwa [hr]
  obtain ⟨i, hi⟩ := Finset.card_pos.mp hpos
  exact ⟨i, mem_holders.mp hi⟩

theorem eq_of_holds (h : Balanced holds value capacity s) (hcapacity : capacity r = 1)
    {i j : ι} (hi : holds i (s.party i) r) (hj : holds j (s.party j) r) : i = j := by
  have hle := h.card_le r
  rw [hcapacity] at hle
  exact Finset.card_le_one.mp hle i (mem_holders.mpr hi) j (mem_holders.mpr hj)

theorem value_eq_zero (h : Balanced holds value capacity s) (hcapacity : capacity r = 1) {i : ι}
    (hi : holds i (s.party i) r) : value s.shared r = 0 := by
  have hr := h r
  have hpos : 0 < (holders holds s.party r).card :=
    Finset.card_pos.mpr ⟨i, mem_holders.mpr hi⟩
  omega

theorem not_deadlocked [LinearOrder R] {step : ι → σ → κ → Option (σ × κ)}
    {finished : κ → Prop} (h : Balanced holds value capacity s)
    (hfinished : ∀ i, finished (s.party i) → ∀ r, ¬ holds i (s.party i) r)
    (hblocked : ∀ i, ¬ finished (s.party i) → step i s.shared (s.party i) = none →
      ∃ r, value s.shared r = 0 ∧ 0 < capacity r ∧ ∀ q, holds i (s.party i) q → q < r) :
    ¬ Deadlocked step finished s := by
  rintro ⟨⟨i, hi⟩, hall⟩
  have hwaits : ∀ i : {i // ¬ finished (s.party i)}, ∃ r, value s.shared r = 0 ∧
      0 < capacity r ∧ ∀ q, holds i (s.party i) q → q < r := fun i =>
    hblocked i i.2 (hall i i.2)
  choose wanted hzero hpos habove using hwaits
  have hne : Nonempty {i // ¬ finished (s.party i)} := ⟨⟨i, hi⟩⟩
  -- A party whose resource is the last of all that are waited for.
  obtain ⟨last, hlast⟩ := Finite.exists_max wanted
  obtain ⟨j, hj⟩ := h.exists_holds (hzero last) (hpos last)
  have hjfinished : ¬ finished (s.party j) := fun hfin => hfinished j hfin _ hj
  have hlt : wanted last < wanted ⟨j, hjfinished⟩ := habove ⟨j, hjfinished⟩ _ hj
  exact absurd hlt (not_lt.mpr (hlast ⟨j, hjfinished⟩))

end Balanced

end Interleaving
