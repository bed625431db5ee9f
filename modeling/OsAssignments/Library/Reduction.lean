import Mathlib.Algebra.BigOperators.Fin
import Mathlib.Algebra.Order.BigOperators.Group.Finset
import Mathlib.Data.Fintype.Card

/-!
# Reduction of a resource pool

A family of parties shares one pool. A party whose need fits in the pool can
complete, and when it does it gives its gain back. `Completes S T` says that
the completed set can be extended from `S` to `T` one party at a time, and a
set is `Stuck` when no further party fits.

The gains are non-negative, so completing a party early never blocks another
one. Every order of completion that runs until it is stuck therefore ends in
the same set: `Completes.subset_of_stuck` is the comparison the rest of the
development uses, also between two systems with different needs. A system is
safe exactly when that set is everybody, `Completes.safe_iff`.
-/

namespace Reduction

/-- A pool, what each party needs to complete, and what it then gives back. -/
structure System (P W : Type*) where
  pool : W
  need : P → W
  gain : P → W

namespace System

variable {P W : Type*} [AddCommMonoid W]

/-- The pool once the parties of `S` have completed. -/
def work (σ : System P W) (S : Finset P) : W := σ.pool + ∑ p ∈ S, σ.gain p

@[simp] theorem work_empty (σ : System P W) : σ.work ∅ = σ.pool := by
  simp [work]

theorem work_insert [DecidableEq P] (σ : System P W) {S : Finset P} {p : P}
    (hp : p ∉ S) : σ.work (insert p S) = σ.work S + σ.gain p := by
  rw [work, work, Finset.sum_insert hp, add_comm (σ.gain p), add_assoc]

theorem work_union_of_gain_eq_zero [DecidableEq P] (σ : System P W)
    (S Z : Finset P) (hZ : ∀ p ∈ Z, σ.gain p = 0) :
    σ.work (S ∪ Z) = σ.work S := by
  have hsum : ∑ p ∈ S ∪ Z, σ.gain p = ∑ p ∈ S, σ.gain p := by
    refine (Finset.sum_subset Finset.subset_union_left ?_).symm
    intro p hp hpS
    exact hZ p ((Finset.mem_union.1 hp).resolve_left hpS)
  rw [work, work, hsum]

variable [PartialOrder W]

/-- The parties of `l` complete in this order, each with the pool its
predecessors leave. -/
def RunsFrom (σ : System P W) (w : W) : List P → Prop
  | [] => True
  | p :: l => σ.need p ≤ w ∧ RunsFrom σ (w + σ.gain p) l

theorem runsFrom_append_singleton (σ : System P W) (w : W) (l : List P) (p : P) :
    σ.RunsFrom w (l ++ [p]) ↔
      σ.RunsFrom w l ∧ σ.need p ≤ w + (l.map σ.gain).sum := by
  induction l generalizing w with
  | nil => simp [RunsFrom]
  | cons q l ih =>
      rw [List.cons_append, RunsFrom, RunsFrom, ih, List.map_cons,
        List.sum_cons, add_assoc, and_assoc]

theorem RunsFrom.of_need_le {σ τ : System P W} {w : W} {l : List P} (h : σ.RunsFrom w l)
    (hneed : ∀ p, τ.need p ≤ σ.need p) (hgains : τ.gain = σ.gain) : τ.RunsFrom w l := by
  induction l generalizing w with
  | nil => trivial
  | cons p l ih =>
      refine ⟨(hneed p).trans h.1, ?_⟩
      rw [hgains]
      exact ih h.2

def IsOrder (σ : System P W) (l : List P) : Prop :=
  l.Nodup ∧ (∀ p, p ∈ l) ∧ σ.RunsFrom σ.pool l

/-- The parties of `l` complete in order when the need of each one is covered
by the pool and the gains of those before it. -/
theorem runsFrom_iff_forall_fin (σ : System P W) (w : W) (l : List P) :
    σ.RunsFrom w l ↔
      ∀ i : Fin l.length, σ.need l[i] ≤ w + ((l.take i).map σ.gain).sum := by
  induction l generalizing w with
  | nil =>
      constructor
      · intro _ i
        exact i.elim0
      · intro _
        trivial
  | cons p l ih =>
      change (σ.need p ≤ w ∧ σ.RunsFrom (w + σ.gain p) l) ↔
        ∀ i : Fin (l.length + 1),
          σ.need (p :: l)[i] ≤ w + (((p :: l).take i).map σ.gain).sum
      rw [Fin.forall_fin_succ]
      refine and_congr ?_ ?_
      · simp
      · rw [ih]
        apply forall_congr'
        intro i
        simp [add_assoc]

/-- An enumeration of the parties is an order exactly when each position has
what it needs. -/
theorem isOrder_ofFn (σ : System P W) {n : ℕ} (s : Fin n ≃ P) :
    σ.IsOrder (List.ofFn s) ↔
      ∀ i, σ.need (s i) ≤ σ.pool + ∑ j with j < i, σ.gain (s j) := by
  have hprefix : ∀ i : Fin n, (((List.ofFn s).take i).map σ.gain).sum =
      ∑ j with j < i, σ.gain (s j) := by
    intro i
    rw [List.map_take, List.map_ofFn, List.sum_take_ofFn]
    rfl
  have hruns : σ.RunsFrom σ.pool (List.ofFn s) ↔
      ∀ i, σ.need (s i) ≤ σ.pool + ∑ j with j < i, σ.gain (s j) := by
    rw [runsFrom_iff_forall_fin]
    have hlen : (List.ofFn s).length = n := List.length_ofFn
    have hget : ∀ i : Fin (List.ofFn s).length,
        (List.ofFn s)[i] = s (Fin.cast hlen i) := fun i =>
      List.getElem_ofFn i.isLt
    constructor
    · intro h i
      have hi := h (Fin.cast hlen.symm i)
      rw [hget] at hi
      rw [← hprefix i]
      exact hi
    · intro h i
      have hi := h (Fin.cast hlen i)
      rw [← hprefix] at hi
      rw [hget]
      exact hi
  have hnodup : (List.ofFn s).Nodup := List.nodup_ofFn.2 s.injective
  have hmem : ∀ p, p ∈ List.ofFn s := fun p =>
    List.mem_ofFn.2 (s.surjective p)
  rw [IsOrder, hruns]
  exact ⟨fun h => h.2.2, fun h => ⟨hnodup, hmem, h⟩⟩

theorem IsOrder.exists_equiv [Fintype P] {σ : System P W} {l : List P}
    (h : σ.IsOrder l) : ∃ s : Fin (Fintype.card P) ≃ P, List.ofFn s = l := by
  classical
  have hlen : l.length = Fintype.card P := by
    have huniv : l.toFinset = Finset.univ :=
      Finset.eq_univ_iff_forall.2 fun p => List.mem_toFinset.2 (h.2.1 p)
    rw [← List.toFinset_card_of_nodup h.1, huniv, Finset.card_univ]
  rw [← hlen]
  exact ⟨h.1.getEquivOfForallMemList l h.2.1, List.ofFn_getElem⟩

def Safe (σ : System P W) : Prop := ∃ l, σ.IsOrder l

theorem work_mono [IsOrderedAddMonoid W] (σ : System P W)
    (hgain : ∀ p, 0 ≤ σ.gain p) {S T : Finset P} (h : S ⊆ T) :
    σ.work S ≤ σ.work T :=
  add_le_add le_rfl (Finset.sum_le_sum_of_subset_of_nonneg h fun p _ _ => hgain p)

/-- No party outside `S` fits in the pool that `S` leaves. -/
def Stuck (σ : System P W) (S : Finset P) : Prop :=
  ∀ p, p ∉ S → ¬ σ.need p ≤ σ.work S

/-- The completed set can be extended from `S` one fitting party at a time. -/
inductive Completes [DecidableEq P] (σ : System P W) (S : Finset P) :
    Finset P → Prop
  | refl : Completes σ S S
  | insert {T : Finset P} {p : P} : Completes σ S T → p ∉ T →
      σ.need p ≤ σ.work T → Completes σ S (insert p T)

variable [DecidableEq P]

theorem Completes.subset {σ : System P W} {S T : Finset P}
    (h : σ.Completes S T) : S ⊆ T := by
  induction h with
  | refl => exact Finset.Subset.refl S
  | insert _ _ _ ih => exact ih.trans (Finset.subset_insert _ _)

theorem Completes.trans {σ : System P W} {S T U : Finset P}
    (h : σ.Completes S T) (h' : σ.Completes T U) : σ.Completes S U := by
  induction h' with
  | refl => exact h
  | insert _ hp hfit ih => exact .insert ih hp hfit

section Comparison

variable [IsOrderedAddMonoid W]

/-- What one system completes from `S`, a system with the same pool and gains
and smaller needs has completed by the time it is stuck, wherever it started. -/
theorem Completes.subset_of_stuck {σ τ : System P W} {S T U : Finset P}
    (h : σ.Completes S T) (hgain : ∀ p, 0 ≤ σ.gain p)
    (hpool : τ.pool = σ.pool) (hgains : τ.gain = σ.gain)
    (hneed : ∀ p, τ.need p ≤ σ.need p)
    (hSU : S ⊆ U) (hU : τ.Stuck U) : T ⊆ U := by
  have hwork : ∀ V, τ.work V = σ.work V := fun V => by
    rw [work, work, hpool, hgains]
  induction h with
  | refl => exact hSU
  | @insert T p _ hp hfit ih =>
      refine Finset.insert_subset ?_ ih
      by_contra hpU
      have hle : τ.need p ≤ τ.work U := by
        calc τ.need p ≤ σ.need p := hneed p
          _ ≤ σ.work T := hfit
          _ ≤ σ.work U := σ.work_mono hgain ih
          _ = τ.work U := (hwork U).symm
      exact hU p hpU hle

theorem Completes.unique {σ : System P W} {S T U : Finset P}
    (hgain : ∀ p, 0 ≤ σ.gain p) (h : σ.Completes S T) (hT : σ.Stuck T)
    (h' : σ.Completes S U) (hU : σ.Stuck U) : T = U :=
  Finset.Subset.antisymm
    (h.subset_of_stuck hgain rfl rfl (fun _ => le_rfl) h'.subset hU)
    (h'.subset_of_stuck hgain rfl rfl (fun _ => le_rfl) h.subset hT)

/-- Starting with parties that give nothing back already completed only adds
those parties to the outcome. -/
theorem Completes.union_of_gain_eq_zero {σ : System P W} {T U Z : Finset P}
    (hgain : ∀ p, 0 ≤ σ.gain p) (hZ : ∀ p ∈ Z, σ.gain p = 0)
    (h : σ.Completes ∅ T) (hT : σ.Stuck T)
    (h' : σ.Completes Z U) (hU : σ.Stuck U) : U = T ∪ Z := by
  have hstuck : σ.Stuck (T ∪ Z) := by
    intro p hp hfit
    rw [σ.work_union_of_gain_eq_zero T Z hZ] at hfit
    exact hT p (fun hpT => hp (Finset.mem_union_left Z hpT)) hfit
  refine Finset.Subset.antisymm ?_ (Finset.union_subset ?_ h'.subset)
  · exact h'.subset_of_stuck hgain rfl rfl (fun _ => le_rfl)
      Finset.subset_union_right hstuck
  · exact h.subset_of_stuck hgain rfl rfl (fun _ => le_rfl)
      (Finset.empty_subset U) hU

end Comparison

theorem Completes.exists_runsFrom {σ : System P W} {T : Finset P}
    (h : σ.Completes ∅ T) :
    ∃ l : List P, l.Nodup ∧ l.toFinset = T ∧ σ.RunsFrom σ.pool l := by
  induction h with
  | refl => exact ⟨[], List.nodup_nil, rfl, trivial⟩
  | @insert T p _ hp hfit ih =>
      obtain ⟨l, hl, rfl, hruns⟩ := ih
      have hpl : p ∉ l := fun hmem => hp (List.mem_toFinset.2 hmem)
      rw [work, List.sum_toFinset _ hl] at hfit
      refine ⟨l ++ [p], hl.append (List.nodup_singleton p) ?_, ?_, ?_⟩
      · simpa using hpl
      · ext q
        simp
      · exact (σ.runsFrom_append_singleton σ.pool l p).2 ⟨hruns, hfit⟩

theorem RunsFrom.completes {σ : System P W} {l : List P} {S : Finset P}
    (h : σ.RunsFrom (σ.work S) l) (hl : l.Nodup) (hS : ∀ p ∈ l, p ∉ S) :
    σ.Completes S (S ∪ l.toFinset) := by
  induction l generalizing S with
  | nil => simpa using Completes.refl (σ := σ) (S := S)
  | cons p l ih =>
      obtain ⟨hfit, hrest⟩ := h
      obtain ⟨hpl, hl⟩ := List.nodup_cons.1 hl
      have hpS : p ∉ S := hS p List.mem_cons_self
      rw [← σ.work_insert hpS] at hrest
      have hdisj : ∀ q ∈ l, q ∉ insert p S := by
        intro q hq hmem
        rcases Finset.mem_insert.1 hmem with rfl | hqS
        · exact hpl hq
        · exact hS q (List.mem_cons_of_mem p hq) hqS
      have hone : σ.Completes S (insert p S) := .insert .refl hpS hfit
      have hall := hone.trans (ih hrest hl hdisj)
      rwa [List.toFinset_cons, Finset.union_insert, ← Finset.insert_union]

section Safe

variable [Fintype P]

theorem safe_iff_completes (σ : System P W) :
    σ.Safe ↔ σ.Completes ∅ Finset.univ := by
  constructor
  · rintro ⟨l, hl, hmem, hruns⟩
    rw [← σ.work_empty] at hruns
    have h := hruns.completes hl (by simp)
    have huniv : ∅ ∪ l.toFinset = Finset.univ := by
      ext p
      simp [hmem p]
    rwa [huniv] at h
  · intro h
    obtain ⟨l, hl, huniv, hruns⟩ := h.exists_runsFrom
    refine ⟨l, hl, fun p => ?_, hruns⟩
    rw [← List.mem_toFinset, huniv]
    exact Finset.mem_univ p

variable [IsOrderedAddMonoid W]

/-- Any completion that is run until it is stuck decides safety. -/
theorem Completes.safe_iff {σ : System P W} {T : Finset P}
    (hgain : ∀ p, 0 ≤ σ.gain p) (h : σ.Completes ∅ T) (hT : σ.Stuck T) :
    σ.Safe ↔ T = Finset.univ := by
  rw [safe_iff_completes]
  constructor
  · intro hall
    refine Finset.Subset.antisymm (Finset.subset_univ T) ?_
    exact hall.subset_of_stuck hgain rfl rfl (fun _ => le_rfl)
      (Finset.empty_subset T) hT
  · rintro rfl
    exact h

/-- Moving `a` from the pool to what `p` gives back, with `p` needing that much
less, makes nothing safe that was not safe before. -/
theorem Safe.of_move {σ τ : System P W} {p : P} {a : W} (ha : 0 ≤ a)
    (hpool : σ.pool = τ.pool + a) (hgain : τ.gain p = σ.gain p + a)
    (hneed : σ.need p ≤ τ.need p + a)
    (hgains : ∀ q, q ≠ p → τ.gain q = σ.gain q)
    (hneeds : ∀ q, q ≠ p → σ.need q ≤ τ.need q) (h : τ.Safe) : σ.Safe := by
  have hbefore : ∀ T, p ∉ T → σ.work T = τ.work T + a := by
    intro T hp
    have hsum : ∑ q ∈ T, τ.gain q = ∑ q ∈ T, σ.gain q :=
      Finset.sum_congr rfl fun q hq =>
        hgains q fun heq => hp (heq ▸ hq)
    rw [work, work, hpool, hsum, add_right_comm]
  have hafter : ∀ T, p ∈ T → σ.work T = τ.work T := by
    intro T hp
    rw [← Finset.insert_erase hp, work_insert _ (Finset.notMem_erase p T),
      work_insert _ (Finset.notMem_erase p T), hgain,
      hbefore _ (Finset.notMem_erase p T), add_assoc, add_comm a]
  have hle : ∀ T, τ.work T ≤ σ.work T := by
    intro T
    by_cases hp : p ∈ T
    · rw [hafter T hp]
    · rw [hbefore T hp]
      exact le_add_of_nonneg_right ha
  -- The same order completes everybody: until `p` is done the pool is larger
  -- by `a`, which is what `p` lacks.
  have hcompletes : ∀ T, τ.Completes ∅ T → σ.Completes ∅ T := by
    intro T hT
    induction hT with
    | refl => exact .refl
    | @insert T q _ hq hfit ih =>
        refine .insert ih hq ?_
        by_cases hqp : q = p
        · subst hqp
          calc σ.need q ≤ τ.need q + a := hneed
            _ ≤ τ.work T + a := add_le_add hfit le_rfl
            _ = σ.work T := (hbefore T hq).symm
        · exact (hneeds q hqp).trans (hfit.trans (hle T))
  rw [safe_iff_completes] at h ⊢
  exact hcompletes Finset.univ h

end Safe

end System

end Reduction
