import Mathlib.Algebra.Ring.Int.Defs
import Mathlib.Tactic.Positivity.Basic
import Mathlib.Tactic.Ring

/-!
# Machine integers

The signed integers of `w` bits, as a part of the integers: `Fits w v` says that `v` is
one of them, and `wrap w v` is what a register of `w` bits keeps of an integer `v`. The sums
and differences of `Int32` are exact where these fit.
-/

namespace MachineInt

variable {w : ℕ} {v : ℤ}

/-- The value is a signed integer of `w` bits. -/
def Fits (w : ℕ) (v : ℤ) : Prop := -2 ^ (w - 1) ≤ v ∧ v < 2 ^ (w - 1)

instance (w : ℕ) (v : ℤ) : Decidable (Fits w v) :=
  inferInstanceAs (Decidable (-2 ^ (w - 1) ≤ v ∧ v < 2 ^ (w - 1)))

/-- What a register of `w` bits keeps of a value, in two's complement. -/
def wrap (w : ℕ) (v : ℤ) : ℤ := v.bmod (2 ^ w)

theorem two_mul_half (hw : 0 < w) : 2 * (2 : ℤ) ^ (w - 1) = 2 ^ w := by
  obtain ⟨n, rfl⟩ : ∃ n, w = n + 1 := ⟨w - 1, by omega⟩
  rw [Nat.add_sub_cancel, pow_succ]
  ring

theorem wrap_of_fits (hw : 0 < w) (h : Fits w v) : wrap w v = v := by
  have hhalf := two_mul_half hw
  obtain ⟨hl, hu⟩ := h
  apply Int.bmod_eq_of_le_mul_two
  · push_cast
    omega
  · push_cast
    omega

theorem wrap_of_over (hw : 0 < w) (h : 2 ^ (w - 1) ≤ v) (h' : v < 2 ^ w) :
    wrap w v = v - 2 ^ w := by
  have hhalf := two_mul_half hw
  have hpos : (0 : ℤ) < 2 ^ (w - 1) := Int.pow_pos (by decide)
  have hfits : Fits w (v - 2 ^ w) := ⟨by omega, by omega⟩
  have hsum : v = v - 2 ^ w + (2 ^ w : ℕ) := by
    push_cast
    omega
  conv_lhs => rw [wrap, hsum, Int.add_bmod_right]
  exact wrap_of_fits hw hfits

theorem wrap_half (hw : 0 < w) : wrap w (2 ^ (w - 1)) = -2 ^ (w - 1) := by
  have hhalf := two_mul_half hw
  have hpos : (0 : ℤ) < 2 ^ (w - 1) := Int.pow_pos (by decide)
  rw [wrap_of_over hw le_rfl (by omega)]
  omega

theorem wrap_lt (hw : 0 < w) (v : ℤ) : wrap w v < 2 ^ (w - 1) := by
  have hhalf := two_mul_half hw
  have hlt : wrap w v < ((2 ^ w : ℕ) + 1) / 2 := Int.bmod_lt (by positivity)
  push_cast at hlt
  omega

theorem wrap_le (hw : 0 < w) (h : -2 ^ (w - 1) ≤ v) : wrap w v ≤ v := by
  by_cases hv : v < 2 ^ (w - 1)
  · exact (wrap_of_fits hw ⟨h, hv⟩).le
  · exact (wrap_lt hw v).le.trans (not_lt.mp hv)

theorem half_le_wrap (hw : 0 < w) (v : ℤ) : -2 ^ (w - 1) ≤ wrap w v := by
  have hhalf := two_mul_half hw
  have hle : -((2 ^ w : ℕ) / 2 : ℤ) ≤ wrap w v := Int.le_bmod (by positivity)
  push_cast at hle
  omega

theorem le_wrap (hw : 0 < w) (h : v < 2 ^ (w - 1)) : v ≤ wrap w v := by
  by_cases hv : -2 ^ (w - 1) ≤ v
  · exact (wrap_of_fits hw ⟨hv, h⟩).ge
  · exact (not_le.mp hv).le.trans (half_le_wrap hw v)

/-! ## The type `Int32` -/

section Int32

variable {x y : Int32}

theorem fits_toInt (x : Int32) : Fits 32 x.toInt := ⟨x.le_toInt, x.toInt_lt⟩

theorem toInt_add_eq_wrap (x y : Int32) : (x + y).toInt = wrap 32 (x.toInt + y.toInt) :=
  Int32.toInt_add x y

theorem toInt_sub_eq_wrap (x y : Int32) : (x - y).toInt = wrap 32 (x.toInt - y.toInt) :=
  Int32.toInt_sub x y

theorem toInt_add_of_fits (h : Fits 32 (x.toInt + y.toInt)) :
    (x + y).toInt = x.toInt + y.toInt := by
  rw [toInt_add_eq_wrap, wrap_of_fits (by decide) h]

theorem toInt_sub_of_fits (h : Fits 32 (x.toInt - y.toInt)) :
    (x - y).toInt = x.toInt - y.toInt := by
  rw [toInt_sub_eq_wrap, wrap_of_fits (by decide) h]

theorem toInt_add_le (h : 0 ≤ y.toInt) : (x + y).toInt ≤ x.toInt + y.toInt := by
  rw [toInt_add_eq_wrap]
  refine wrap_le (by decide) ?_
  have hx := (fits_toInt x).1
  omega

theorem le_toInt_sub (h : 0 ≤ y.toInt) : x.toInt - y.toInt ≤ (x - y).toInt := by
  rw [toInt_sub_eq_wrap]
  refine le_wrap (by decide) ?_
  have hx := (fits_toInt x).2
  omega

theorem fits_toInt_sub (h : 0 ≤ y.toInt) (hle : y ≤ x) : Fits 32 (x.toInt - y.toInt) := by
  have hxy := Int32.le_iff_toInt_le.1 hle
  have hx := (fits_toInt x).2
  exact ⟨by omega, by omega⟩

/-! ### Counters -/

theorem ofNat_eq_ofNat {a b : ℕ} (ha : a < 2 ^ 32) (hb : b < 2 ^ 32) :
    Int32.ofNat a = Int32.ofNat b ↔ a = b := by
  refine ⟨fun h => ?_, congrArg _⟩
  have hnat := congrArg (fun x : Int32 => x.toUInt32.toNat) h
  simp only [Int32.toUInt32_ofNat', UInt32.toNat_ofNat', Nat.mod_eq_of_lt ha,
    Nat.mod_eq_of_lt hb] at hnat
  exact hnat

theorem eq_ofNat_of_add {a b t t' : ℕ} (h : x + .ofNat a = y + .ofNat b) (hy : y = .ofNat t)
    (ht : t' + a = t + b) : x = .ofNat t' := by
  have hsum : x + .ofNat a = .ofNat t' + .ofNat a := by
    rw [h, hy, ← Int32.ofNat_add, ← Int32.ofNat_add, ht]
  rw [← Int32.add_sub_cancel x (.ofNat a), hsum, Int32.add_sub_cancel]

end Int32

end MachineInt
