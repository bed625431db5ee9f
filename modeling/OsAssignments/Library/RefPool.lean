import Mathlib.Algebra.Group.Pi.Basic
import Mathlib.Algebra.BigOperators.Pi
import Mathlib.Algebra.GroupWithZero.Nat

/-!
# Reference counted pools

A pool hands out pieces of a resource: `free` lists the pieces nobody holds and
`count` is the number of references the pool keeps for each piece. The users of
the pool hold pieces in two ways. A piece may be shared, and then `user p` is the
number of its holders; or it has one owner who keeps it for itself, and then
`owned p` is `1` and nobody shares it.

`Accounts valid s user owned` says that the books balance: the pool counts
exactly the references its users hold, and the free list has every unheld piece
once and no other. The rules say how the books change when a piece is taken,
shared, released, or passed from its owner to the shared pieces. They ask for the
counts of the valid pieces only, so a pool may keep junk for the others.
-/

open scoped BigOperators

namespace RefPool

variable {P : Type*} [DecidableEq P]

/-- The free list of a pool and its reference counts. -/
structure Pool (P : Type*) where
  free : List P
  count : P → ℕ

/-- The pool counts the references that `user` and `owned` say are held. -/
structure Accounts (valid : P → Prop) (s : Pool P) (user owned : P → ℕ) : Prop where
  count_eq : ∀ p, valid p → s.count p = user p + owned p
  valid_of_held : ∀ p, 0 < user p + owned p → valid p
  exclusive : ∀ p, 0 < owned p → owned p = 1 ∧ user p = 0
  nodup : s.free.Nodup
  mem_free : ∀ p, p ∈ s.free ↔ valid p ∧ user p + owned p = 0

/-- One reference to `p`. -/
def one (p : P) : P → ℕ := Pi.single p 1

@[simp] theorem one_self (p : P) : one p p = 1 := Pi.single_eq_same p 1

@[simp] theorem one_of_ne {p q : P} (h : q ≠ p) : one p q = 0 := Pi.single_eq_of_ne h 1

theorem one_apply (p q : P) : one p q = if q = p then 1 else 0 := by
  by_cases h : q = p
  · rw [h, one_self, if_pos rfl]
  · rw [one_of_ne h, if_neg h]

def tally : Option P → P → ℕ
  | none => 0
  | some p => one p

@[simp] theorem tally_none : tally (none : Option P) = 0 := rfl

@[simp] theorem tally_some (p : P) : tally (some p) = one p := rfl

theorem sum_add_eq_of_agree {ι M : Type*} [DecidableEq ι] [AddCommMonoid M] {s : Finset ι}
    {f g : ι → M} {i : ι} (hi : i ∈ s) (h : ∀ j ∈ s, j ≠ i → g j = f j) :
    ∑ j ∈ s, g j + f i = ∑ j ∈ s, f j + g i := by
  have hrest : ∑ j ∈ s.erase i, g j = ∑ j ∈ s.erase i, f j :=
    Finset.sum_congr rfl fun j hj => h j (Finset.mem_of_mem_erase hj) (Finset.ne_of_mem_erase hj)
  rw [← Finset.add_sum_erase s g hi, ← Finset.add_sum_erase s f hi, hrest,
    add_right_comm, add_comm (g i), add_right_comm]

namespace Accounts

variable {valid : P → Prop} {s s' : Pool P} {user owned : P → ℕ} {p : P}

theorem take {rest : List P} (h : Accounts valid s user owned) (hfree : s.free = p :: rest)
    (hfree' : s'.free = rest) (hp : s'.count p = 1)
    (hne : ∀ q, valid q → q ≠ p → s'.count q = s.count q) :
    Accounts valid s' user (owned + one p) := by
  have hmem : p ∈ s.free := by rw [hfree]; exact List.mem_cons_self
  obtain ⟨hvalid, hzero⟩ := (h.mem_free p).mp hmem
  have hnodup := h.nodup
  rw [hfree, List.nodup_cons] at hnodup
  constructor
  · intro q hq
    by_cases hqp : q = p
    · rw [hqp, hp, Pi.add_apply, one_self]
      omega
    · rw [hne q hq hqp, h.count_eq q hq, Pi.add_apply, one_of_ne hqp, add_zero]
  · intro q hq
    by_cases hqp : q = p
    · rw [hqp]
      exact hvalid
    · rw [Pi.add_apply, one_of_ne hqp, add_zero] at hq
      exact h.valid_of_held q hq
  · intro q hq
    by_cases hqp : q = p
    · rw [hqp, Pi.add_apply, one_self]
      omega
    · rw [Pi.add_apply, one_of_ne hqp, add_zero] at hq ⊢
      exact h.exclusive q hq
  · rw [hfree']
    exact hnodup.2
  · intro q
    rw [hfree']
    by_cases hqp : q = p
    · rw [hqp, Pi.add_apply, one_self]
      constructor
      · intro hm
        exact absurd hm hnodup.1
      · intro hm
        omega
    · rw [Pi.add_apply, one_of_ne hqp, add_zero, ← h.mem_free q, hfree, List.mem_cons]
      constructor
      · exact Or.inr
      · intro hm
        exact hm.resolve_left hqp

theorem convert (h : Accounts valid s user (owned + one p)) :
    Accounts valid s (user + one p) owned := by
  have hp := h.exclusive p (by rw [Pi.add_apply, one_self]; omega)
  rw [Pi.add_apply, one_self] at hp
  have hsum : ∀ q, (user + one p) q + owned q = user q + (owned + one p) q := by
    intro q
    rw [Pi.add_apply, Pi.add_apply]
    omega
  constructor
  · intro q hq
    rw [hsum q]
    exact h.count_eq q hq
  · intro q hq
    rw [hsum q] at hq
    exact h.valid_of_held q hq
  · intro q hq
    by_cases hqp : q = p
    · rw [hqp] at hq
      omega
    · have := h.exclusive q (by rw [Pi.add_apply]; omega)
      rw [Pi.add_apply, one_of_ne hqp, add_zero] at this
      rw [Pi.add_apply, one_of_ne hqp, add_zero]
      exact this
  · exact h.nodup
  · intro q
    rw [hsum q]
    exact h.mem_free q

theorem retain (h : Accounts valid s user owned) (hu : 0 < user p) (hfree : s'.free = s.free)
    (hp : s'.count p = s.count p + 1)
    (hne : ∀ q, valid q → q ≠ p → s'.count q = s.count q) :
    Accounts valid s' (user + one p) owned := by
  constructor
  · intro q hq
    by_cases hqp : q = p
    · rw [hqp, hp, h.count_eq p (hqp ▸ hq), Pi.add_apply, one_self]
      omega
    · rw [hne q hq hqp, h.count_eq q hq, Pi.add_apply, one_of_ne hqp, add_zero]
  · intro q hq
    by_cases hqp : q = p
    · rw [hqp]
      exact h.valid_of_held p (by omega)
    · rw [Pi.add_apply, one_of_ne hqp, add_zero] at hq
      exact h.valid_of_held q hq
  · intro q hq
    by_cases hqp : q = p
    · have := h.exclusive p (hqp ▸ hq)
      omega
    · rw [Pi.add_apply, one_of_ne hqp, add_zero]
      exact h.exclusive q hq
  · rw [hfree]
    exact h.nodup
  · intro q
    rw [hfree, h.mem_free q, Pi.add_apply]
    by_cases hqp : q = p
    · rw [hqp, one_self]
      omega
    · rw [one_of_ne hqp, add_zero]

theorem release_shared (h : Accounts valid s (user + one p) owned) (hlt : 1 < s.count p)
    (hfree : s'.free = s.free) (hp : s'.count p = s.count p - 1)
    (hne : ∀ q, valid q → q ≠ p → s'.count q = s.count q) :
    Accounts valid s' user owned := by
  have hvalid := h.valid_of_held p (by rw [Pi.add_apply, one_self]; omega)
  have hcount := h.count_eq p hvalid
  rw [Pi.add_apply, one_self] at hcount
  constructor
  · intro q hq
    by_cases hqp : q = p
    · rw [hqp, hp, hcount]
      omega
    · rw [hne q hq hqp, h.count_eq q hq, Pi.add_apply, one_of_ne hqp, add_zero]
  · intro q hq
    exact h.valid_of_held q (by rw [Pi.add_apply]; omega)
  · intro q hq
    have := h.exclusive q hq
    rw [Pi.add_apply] at this
    omega
  · rw [hfree]
    exact h.nodup
  · intro q
    rw [hfree, h.mem_free q, Pi.add_apply]
    by_cases hqp : q = p
    · rw [hqp, one_self]
      omega
    · rw [one_of_ne hqp, add_zero]

theorem release_last (h : Accounts valid s (user + one p) owned) (hle : ¬ 1 < s.count p)
    (hfree : s'.free = p :: s.free) (hp : s'.count p = 0)
    (hne : ∀ q, valid q → q ≠ p → s'.count q = s.count q) :
    Accounts valid s' user owned := by
  have hvalid := h.valid_of_held p (by rw [Pi.add_apply, one_self]; omega)
  have hcount := h.count_eq p hvalid
  rw [Pi.add_apply, one_self] at hcount
  constructor
  · intro q hq
    by_cases hqp : q = p
    · rw [hqp, hp]
      omega
    · rw [hne q hq hqp, h.count_eq q hq, Pi.add_apply, one_of_ne hqp, add_zero]
  · intro q hq
    exact h.valid_of_held q (by rw [Pi.add_apply]; omega)
  · intro q hq
    have := h.exclusive q hq
    rw [Pi.add_apply] at this
    omega
  · rw [hfree, List.nodup_cons]
    constructor
    · intro hm
      have := ((h.mem_free p).mp hm).2
      rw [Pi.add_apply, one_self] at this
      omega
    · exact h.nodup
  · intro q
    rw [hfree, List.mem_cons, h.mem_free q, Pi.add_apply]
    by_cases hqp : q = p
    · constructor
      · intro _
        rw [hqp]
        exact ⟨hvalid, by omega⟩
      · intro _
        exact Or.inl hqp
    · rw [one_of_ne hqp, add_zero]
      constructor
      · intro hm
        exact hm.resolve_left hqp
      · exact Or.inr

/-- A free piece is on the free list exactly once. -/
theorem count_free_eq_one (h : Accounts valid s user owned) (hv : valid p)
    (hu : user p + owned p = 0) : s.free.count p = 1 :=
  List.count_eq_one_of_mem h.nodup ((h.mem_free p).mpr ⟨hv, hu⟩)

end Accounts

end RefPool
