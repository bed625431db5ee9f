import Mathlib.Algebra.GroupWithZero.Nat

/-!
# Indices of tables

The entries of a table of `n` are `Fin n`. `toNat_lt_ten` makes an integer that has passed the
test of its bounds an index of a table of ten. The instances let numerals stand for the entries
of small tables.
-/

namespace TableIndex

instance neZero_two : NeZero 2 := ⟨Nat.succ_ne_zero 1⟩

instance neZero_three : NeZero 3 := ⟨Nat.succ_ne_zero 2⟩

instance neZero_ten : NeZero 10 := ⟨Nat.succ_ne_zero 9⟩

theorem toNat_lt_ten {k : ℤ} (h : 0 ≤ k ∧ k < 10) : k.toNat < 10 := by omega

end TableIndex
