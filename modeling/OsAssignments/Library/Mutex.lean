import Mathlib.Logic.Function.Basic

/-!
# A lock and the points that hold it

Parties move from point to point. `Guards holder point inside` says that the lock
whose holder is recorded in `holder` is held by exactly the party that stands at a
point of `inside`. When a party moves, it keeps the lock, acquires it or releases it,
and there is one rule for each.
-/

namespace Mutex

variable {ι κ : Type*} {holder : Option ι} {point : ι → κ} {inside : κ → Prop}

/-- The holder of the lock is the party at a point inside the critical section. -/
def Guards (holder : Option ι) (point : ι → κ) (inside : κ → Prop) : Prop :=
  ∀ i, holder = some i ↔ inside (point i)

theorem Guards.eq {i j : ι} (h : Guards holder point inside) (hi : inside (point i))
    (hj : inside (point j)) : i = j :=
  Option.some.inj (((h i).mpr hi).symm.trans ((h j).mpr hj))

theorem Guards.not_inside {i : ι} (h : Guards none point inside) : ¬ inside (point i) := by
  intro hi
  cases (h i).mpr hi

variable [DecidableEq ι] {i : ι} {c : κ}

theorem Guards.keep (h : Guards holder point inside) (hc : inside c ↔ inside (point i)) :
    Guards holder (Function.update point i c) inside := by
  intro j
  by_cases hj : j = i
  · rw [hj, Function.update_self, hc]
    exact h i
  · rw [Function.update_of_ne hj]
    exact h j

theorem Guards.acquire (h : Guards none point inside) (hc : inside c) :
    Guards (some i) (Function.update point i c) inside := by
  intro j
  by_cases hj : j = i
  · rw [hj, Function.update_self]
    exact iff_of_true rfl hc
  · rw [Function.update_of_ne hj]
    exact iff_of_false (fun heq => hj (Option.some.inj heq).symm) h.not_inside

theorem Guards.release (h : Guards holder point inside) (hi : inside (point i))
    (hc : ¬ inside c) : Guards none (Function.update point i c) inside := by
  intro j
  by_cases hj : j = i
  · rw [hj, Function.update_self]
    exact iff_of_false (fun heq => (nomatch heq)) hc
  · rw [Function.update_of_ne hj]
    exact iff_of_false (fun heq => (nomatch heq)) fun hin => hj (h.eq hin hi)

end Mutex
