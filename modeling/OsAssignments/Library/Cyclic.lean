import Mathlib.Data.Nat.Basic
import Mathlib.Tactic.SplitIfs

/-!
# Positions on a ring

The `n` positions of a ring are numbered from 0, and `(a + off) % n` is the position
`off` places ahead of `a`. `ahead n a b` tells how far `b` is ahead of `a`. A walk that
starts at `a` and goes once around meets every `b` at the offset `ahead n a b`.
-/

namespace Cyclic

variable {n a b r off : ℕ}

/-- How many places the position `b` is ahead of `a`. -/
def ahead (n a b : ℕ) : ℕ := if a ≤ b then b - a else b + n - a

theorem ahead_lt (ha : a < n) (hb : b < n) : ahead n a b < n := by
  unfold ahead
  split_ifs <;> omega

@[simp] theorem ahead_self (n a : ℕ) : ahead n a a = 0 := by
  simp [ahead]

theorem add_mod (ha : a < n) (hoff : off < n) :
    (a + off) % n = if a + off < n then a + off else a + off - n := by
  split_ifs with h
  · exact Nat.mod_eq_of_lt h
  · rw [Nat.mod_eq_sub_mod (Nat.not_lt.mp h), Nat.mod_eq_of_lt (by omega)]

theorem ahead_add_mod (ha : a < n) (hoff : off < n) : ahead n a ((a + off) % n) = off := by
  rw [add_mod ha hoff]
  unfold ahead
  split_ifs <;> omega

theorem add_ahead_mod (ha : a < n) (hb : b < n) : (a + ahead n a b) % n = b := by
  rw [add_mod ha (ahead_lt ha hb)]
  unfold ahead
  split_ifs <;> omega

theorem eq_of_ahead_eq (ha : a < n) (hb : b < n) (hr : r < n) (h : ahead n a b = ahead n a r) :
    b = r := by
  rw [← add_ahead_mod ha hb, h, add_ahead_mod ha hr]

theorem succ_mod (hr : r < n) : (r + 1) % n = if r + 1 < n then r + 1 else 0 := by
  split_ifs with h
  · exact Nat.mod_eq_of_lt h
  · rw [show r + 1 = n by omega, Nat.mod_self]

theorem ahead_succ (ha : a < n) (hb : b < n) (hr : r < n) (h : ahead n a r < ahead n a b) :
    ahead n ((r + 1) % n) b = ahead n a b - ahead n a r - 1 := by
  rw [succ_mod hr]
  unfold ahead at h ⊢
  split_ifs at h ⊢ <;> omega

/-- Seen from just behind `r`, everything but `r` itself is less than a round ahead. -/
theorem ahead_succ_lt (hb : b < n) (hr : r < n) (h : b ≠ r) :
    ahead n ((r + 1) % n) b + 1 < n := by
  have hpos : ahead n r r < ahead n r b := by
    rw [ahead_self]
    refine Nat.pos_of_ne_zero fun hzero => h ?_
    exact eq_of_ahead_eq hr hb hr (hzero.trans (ahead_self n r).symm)
  rw [ahead_succ hr hb hr hpos, ahead_self]
  have hlt := ahead_lt hr hb
  omega

theorem ahead_succ_self (hr : r < n) : ahead n ((r + 1) % n) r = n - 1 := by
  rw [succ_mod hr]
  unfold ahead
  split_ifs <;> omega

/-- A walk that is to meet `b` before `d` still is from just behind any position but those
between `b` and `d`. -/
theorem ahead_lt_ahead_succ {d : ℕ} (ha : a < n) (hb : b < n) (hd : d < n) (hr : r < n)
    (h : ahead n a b < ahead n a d) (hout : ¬ ahead n b r < ahead n b d) :
    ahead n ((r + 1) % n) b < ahead n ((r + 1) % n) d := by
  rw [succ_mod hr]
  unfold ahead at h hout ⊢
  split_ifs at h hout ⊢ <;> omega

end Cyclic
