import Mathlib.Algebra.BigOperators.Group.Finset.Basic
import OsAssignments.Library.RadixTree

/-!
# Pruning radix trees

A table without entries is bare, and a tree is tidy when no entry names a bare table.
`prune` takes away the tables from which no leaf can be reached: what is left is tidy and
has the same leaves. A tree that extends another one by tables alone is pruned to the same
tree, so that tables which come and go leave no trace.
-/

open scoped BigOperators

namespace RadixTree

open RefPool

variable {ι P α : Type}

def Bare : (k : ℕ) → Node ι P α k → Prop
  | 0, n => ∀ i, leafAt n i = none
  | _ + 1, n => ∀ i, entryAt n i = none

def Tidy : (k : ℕ) → Node ι P α k → Prop
  | 0, _ => True
  | k + 1, n => ∀ i e, entryAt n i = some e → ¬ Bare k e.2 ∧ Tidy k e.2

open Classical in
noncomputable def prune : (k : ℕ) → Node ι P α k → Node ι P α k
  | 0, n => n
  | k + 1, n => fun i => (entryAt n i).bind fun e =>
      if Bare k (prune k e.2) then none else some (e.1, prune k e.2)

open Classical in
noncomputable def pruneEntry (k : ℕ) (e : Option (P × Node ι P α k)) :
    Option (P × Node ι P α k) :=
  e.bind fun e => if Bare k (prune k e.2) then none else some (e.1, prune k e.2)

variable {k : ℕ} {n n' : Node ι P α (k + 1)} {e e' : P × Node ι P α k} {i : ι} {p : ℕ → ι}

@[simp] theorem prune_zero (n : Node ι P α 0) : prune 0 n = n := rfl

@[simp] theorem entryAt_prune (n : Node ι P α (k + 1)) (i : ι) :
    entryAt (prune (k + 1) n) i = pruneEntry k (entryAt n i) := rfl

@[simp] theorem pruneEntry_none : pruneEntry k (none : Option (P × Node ι P α k)) = none := rfl

theorem pruneEntry_of_bare (h : Bare k (prune k e.2)) : pruneEntry k (some e) = none :=
  if_pos h

theorem pruneEntry_of_not_bare (h : ¬ Bare k (prune k e.2)) :
    pruneEntry k (some e) = some (e.1, prune k e.2) :=
  if_neg h

theorem ext_entryAt (h : ∀ i, entryAt n i = entryAt n' i) : n = n' := funext h

/-! ## The leaves -/

theorem bare_zero_iff (n : Node ι P α 0) : Bare 0 n ↔ ∀ p, lookup 0 n p = none := by
  constructor
  · intro h p
    exact h (p 0)
  · intro h i
    exact h fun _ => i

theorem lookup_succ_eq_none_iff (n : Node ι P α (k + 1)) :
    (∀ p, lookup (k + 1) n p = none) ↔
      ∀ i e, entryAt n i = some e → ∀ p, lookup k e.2 p = none := by
  constructor
  · intro h i e he p
    rw [lookup_child he p]
    exact h _
  · intro h p
    cases he : entryAt n (p (k + 1)) with
    | none =>
        rw [lookup, find_succ_of_none he]
        rfl
    | some e =>
        rw [lookup, find_succ_of_some he]
        exact h _ e he p

theorem bare_prune_iff (k : ℕ) (n : Node ι P α k) :
    Bare k (prune k n) ↔ ∀ p, lookup k n p = none := by
  induction k with
  | zero => exact bare_zero_iff n
  | succ k ih =>
      rw [lookup_succ_eq_none_iff]
      constructor
      · intro h i e he
        by_contra hne
        have hentry := h i
        rw [entryAt_prune, he, pruneEntry_of_not_bare (mt (ih e.2).mp hne)] at hentry
        cases hentry
      · intro h i
        rw [entryAt_prune]
        cases he : entryAt n i with
        | none => rfl
        | some e => exact pruneEntry_of_bare ((ih e.2).mpr (h i e he))

theorem lookup_prune (k : ℕ) (n : Node ι P α k) (p : ℕ → ι) :
    lookup k (prune k n) p = lookup k n p := by
  induction k with
  | zero => rfl
  | succ k ih =>
      cases he : entryAt n (p (k + 1)) with
      | none =>
          have he' : entryAt (prune (k + 1) n) (p (k + 1)) = none := by
            rw [entryAt_prune, he, pruneEntry_none]
          rw [lookup, lookup, find_succ_of_none he, find_succ_of_none he']
      | some e =>
          by_cases hb : Bare k (prune k e.2)
          · have he' : entryAt (prune (k + 1) n) (p (k + 1)) = none := by
              rw [entryAt_prune, he, pruneEntry_of_bare hb]
            rw [lookup, lookup, find_succ_of_none he', find_succ_of_some he]
            exact ((bare_prune_iff k e.2).mp hb p).symm
          · have he' : entryAt (prune (k + 1) n) (p (k + 1)) = some (e.1, prune k e.2) := by
              rw [entryAt_prune, he, pruneEntry_of_not_bare hb]
            rw [lookup, lookup, find_succ_of_some he', find_succ_of_some he]
            exact ih e.2

/-! ## Tidy trees -/

theorem tidy_prune (k : ℕ) (n : Node ι P α k) : Tidy k (prune k n) := by
  induction k with
  | zero => trivial
  | succ k ih =>
      intro i e he
      rw [entryAt_prune] at he
      cases hn : entryAt n i with
      | none =>
          rw [hn] at he
          cases he
      | some e₀ =>
          rw [hn] at he
          by_cases hb : Bare k (prune k e₀.2)
          · rw [pruneEntry_of_bare hb] at he
            cases he
          · rw [pruneEntry_of_not_bare hb] at he
            cases he
            exact ⟨hb, ih e₀.2⟩

theorem prune_of_tidy (k : ℕ) (n : Node ι P α k) (h : Tidy k n) : prune k n = n := by
  induction k with
  | zero => rfl
  | succ k ih =>
      refine ext_entryAt fun i => ?_
      rw [entryAt_prune]
      cases he : entryAt n i with
      | none => rfl
      | some e =>
          obtain ⟨hbare, htidy⟩ := h i e he
          have hsame := ih e.2 htidy
          rw [pruneEntry_of_not_bare (hsame.symm ▸ hbare), hsame]

/-! ## Tables that come and go -/

/-- Every table of the first tree is in the second one, in the same place and on the same
page. -/
def Extends : (k : ℕ) → Node ι P α k → Node ι P α k → Prop
  | 0, _, _ => True
  | k + 1, n, n' => ∀ i e, entryAt n i = some e →
      ∃ e', entryAt n' i = some e' ∧ e'.1 = e.1 ∧ Extends k e.2 e'.2

theorem Extends.refl (k : ℕ) (n : Node ι P α k) : Extends k n n := by
  induction k with
  | zero => trivial
  | succ k ih => exact fun i e he => ⟨e, he, rfl, ih e.2⟩

theorem Extends.trans {k : ℕ} {a b c : Node ι P α k} (h : Extends k a b) (h' : Extends k b c) :
    Extends k a c := by
  induction k with
  | zero => trivial
  | succ k ih =>
      intro i e he
      obtain ⟨e', he', hpage, hsub⟩ := h i e he
      obtain ⟨e'', he'', hpage', hsub'⟩ := h' i e' he'
      exact ⟨e'', he'', hpage'.trans hpage, ih hsub hsub'⟩

/-- A tree that extends another one and has the same leaves is pruned to the same tree. -/
theorem prune_of_extends (k : ℕ) (n n' : Node ι P α k) (h : Extends k n n')
    (hlookup : ∀ p, lookup k n' p = lookup k n p) : prune k n' = prune k n := by
  induction k with
  | zero =>
      funext i
      exact hlookup fun _ => i
  | succ k ih =>
      refine ext_entryAt fun i => ?_
      rw [entryAt_prune, entryAt_prune]
      cases he : entryAt n i with
      | some e =>
          obtain ⟨e', he', hpage, hsub⟩ := h i e he
          have hsame := ih e.2 e'.2 hsub fun p => by
            rw [lookup_child he' p, lookup_child he p, hlookup]
          rw [he']
          by_cases hb : Bare k (prune k e.2)
          · rw [pruneEntry_of_bare hb, pruneEntry_of_bare (hsame.symm ▸ hb)]
          · rw [pruneEntry_of_not_bare hb, pruneEntry_of_not_bare (hsame.symm ▸ hb), hpage, hsame]
      | none =>
          cases he' : entryAt n' i with
          | none => rfl
          | some e' =>
              refine pruneEntry_of_bare ((bare_prune_iff k e'.2).mpr fun p => ?_)
              have hi : Function.update p (k + 1) i (k + 1) = i := Function.update_self ..
              rw [lookup_child he' p, hlookup, lookup, find_succ_of_none (hi.symm ▸ he)]
              rfl

section Store

variable [DecidableEq ι]

theorem Extends.setEntry (n : Node ι P α (k + 1)) (i : ι) (e' : P × Node ι P α k)
    (h : ∀ e, entryAt n i = some e → e'.1 = e.1 ∧ Extends k e.2 e'.2) :
    Extends (k + 1) n (setEntry n i (some e')) := by
  intro j e he
  by_cases hj : j = i
  · rw [hj] at he ⊢
    exact ⟨e', entryAt_setEntry_self n i _, h e he⟩
  · exact ⟨e, (entryAt_setEntry_of_ne n _ hj).trans he, rfl, .refl k e.2⟩

theorem Extends.store (k : ℕ) (n : Node ι P α k) (p : ℕ → ι) (a : Option α) :
    Extends k n (store k n p a) := by
  induction k with
  | zero => trivial
  | succ k ih =>
      cases he : entryAt n (p (k + 1)) with
      | none =>
          rw [store_succ_of_none a he]
          exact .refl (k + 1) n
      | some e =>
          rw [store_succ_of_some a he]
          refine .setEntry n _ _ fun e' he' => ?_
          cases he.symm.trans he'
          exact ⟨rfl, ih e.2⟩

end Store

/-! ## The pages of the tables -/

theorem pages_of_bare [DecidableEq P] [Fintype ι] {k : ℕ} {n : Node ι P α k} (h : Bare k n) :
    pages k n = 0 := by
  cases k with
  | zero => rfl
  | succ k => exact pages_of_entryAt_none h

section Pages

open Classical in
/-- The pages of the tables that are taken away, the lower ones first, when the entries of a
table are visited in the order of `is`. -/
noncomputable def pruned (is : List ι) : (k : ℕ) → Node ι P α k → List P
  | 0, _ => []
  | k + 1, n => is.flatMap fun i => (entryAt n i).elim [] fun e =>
      pruned is k e.2 ++ if Bare k (prune k e.2) then [e.1] else []

open Classical in
noncomputable def prunedEntry (is : List ι) (k : ℕ) (e : Option (P × Node ι P α k)) : List P :=
  e.elim [] fun e => pruned is k e.2 ++ if Bare k (prune k e.2) then [e.1] else []

variable {is : List ι}

theorem pruned_succ (is : List ι) (n : Node ι P α (k + 1)) :
    pruned is (k + 1) n = is.flatMap fun i => prunedEntry is k (entryAt n i) := rfl

@[simp] theorem prunedEntry_none : prunedEntry is k (none : Option (P × Node ι P α k)) = [] := rfl

theorem prunedEntry_of_bare (h : Bare k (prune k e.2)) :
    prunedEntry is k (some e) = pruned is k e.2 ++ [e.1] :=
  congrArg (pruned is k e.2 ++ ·) (if_pos h)

theorem prunedEntry_of_not_bare (h : ¬ Bare k (prune k e.2)) :
    prunedEntry is k (some e) = pruned is k e.2 :=
  (congrArg (pruned is k e.2 ++ ·) (if_neg h)).trans (List.append_nil _)

theorem tidy_of_pruned_eq_nil (hall : ∀ i, i ∈ is) (k : ℕ) (n : Node ι P α k)
    (h : pruned is k n = []) : Tidy k n := by
  induction k with
  | zero => trivial
  | succ k ih =>
      intro i e he
      rw [pruned_succ, List.flatMap_eq_nil_iff] at h
      have hi := h i (hall i)
      rw [he] at hi
      by_cases hb : Bare k (prune k e.2)
      · rw [prunedEntry_of_bare hb] at hi
        exact absurd (List.append_eq_nil_iff.mp hi).2 (List.cons_ne_nil _ _)
      · rw [prunedEntry_of_not_bare hb] at hi
        have htidy := ih e.2 hi
        exact ⟨prune_of_tidy k e.2 htidy ▸ hb, htidy⟩

variable [DecidableEq P]

theorem count_singleton (p q : P) : [p].count q = one p q := by
  by_cases hq : q = p
  · rw [hq, one_self, List.count_singleton_self]
  · rw [one_of_ne hq, List.count_eq_zero]
    exact fun hin => hq (List.mem_singleton.mp hin)

/-- The tables that are taken away and those that are left are the tables of the tree. -/
theorem count_pruned [Fintype ι] [DecidableEq ι] (hnodup : is.Nodup) (hall : ∀ i, i ∈ is) (k : ℕ)
    (n : Node ι P α k) (q : P) :
    (pruned is k n).count q + pages k (prune k n) q = pages k n q := by
  induction k with
  | zero => rfl
  | succ k ih =>
      have huniv : is.toFinset = Finset.univ :=
        Finset.eq_univ_of_forall fun i => List.mem_toFinset.mpr (hall i)
      have hcount : (pruned is (k + 1) n).count q =
          ∑ i, (prunedEntry is k (entryAt n i)).count q := by
        rw [pruned_succ, List.count_flatMap, ← huniv, List.sum_toFinset _ hnodup]
        rfl
      rw [hcount, pages_succ, pages_succ, Finset.sum_apply, Finset.sum_apply,
        ← Finset.sum_add_distrib]
      refine Finset.sum_congr rfl fun i _ => ?_
      rw [entryAt_prune]
      cases he : entryAt n i with
      | none => rfl
      | some e =>
          have hsub := ih e.2
          by_cases hb : Bare k (prune k e.2)
          · have hzero : pages k (prune k e.2) = 0 := pages_of_bare hb
            rw [hzero, Pi.zero_apply] at hsub
            rw [prunedEntry_of_bare hb, pruneEntry_of_bare hb, entryPages_none, entryPages_some,
              List.count_append, count_singleton, Pi.zero_apply, Pi.add_apply]
            omega
          · rw [prunedEntry_of_not_bare hb, pruneEntry_of_not_bare hb, entryPages_some,
              entryPages_some]
            change _ + (one e.1 q + pages k (prune k e.2) q) = one e.1 q + pages k e.2 q
            omega

/-- Pruning takes no page away exactly from the tidy trees. -/
theorem pages_prune_eq_iff [Fintype ι] [DecidableEq ι] (k : ℕ) (n : Node ι P α k) :
    pages k (prune k n) = pages k n ↔ Tidy k n := by
  have hall : ∀ i : ι, i ∈ (Finset.univ : Finset ι).toList := fun i =>
    Finset.mem_toList.mpr (Finset.mem_univ i)
  constructor
  · intro h
    apply tidy_of_pruned_eq_nil hall
    rw [List.eq_nil_iff_forall_not_mem]
    intro q
    have hcount := count_pruned (Finset.nodup_toList Finset.univ) hall k n q
    rw [h] at hcount
    exact List.count_eq_zero.mp (by omega)
  · intro h
    rw [prune_of_tidy k n h]

end Pages

end RadixTree
