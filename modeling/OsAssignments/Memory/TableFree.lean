import OsAssignments.Memory.PageTable

/-!
# Giving table pages back

`free_empty_tables` and `freewalk` go through a page table from the root and give
table pages back to the allocator. Both loops work on the table they run over, so
their invariants speak of the table as it is, and of the entries already passed:
`free_empty_tables` has kept every leaf, and has found no entry as long as its
flag is set; `freewalk` has cleared every entry.
-/

namespace Memory

open Outcome RefPool RadixTree

variable {σ : Type} [PageAllocator σ] {allowed : Panic → Prop} {shm : ℕ}
  {R : σ → (ℕ → ℕ) → (ℕ → ℕ) → Prop}

theorem lookup_of_entryAt_none {k : ℕ} {t : Table (k + 1)} (h : ∀ i, entryAt t i = none)
    (q : ℕ → Fin 512) : lookup (k + 1) t q = none := by
  rw [lookup, find_succ_of_none (h _)]
  rfl

theorem all_isNone_iff (t : Table 0) :
    (indices.all fun i => (leafAt t i).isNone) = true ↔
      ∀ q, lookup 0 t q = none := by
  rw [List.all_eq_true]
  constructor
  · intro h q
    exact Option.isNone_iff_eq_none.mp (h (q 0) (mem_indices _))
  · intro h i _
    exact Option.isNone_iff_eq_none.mpr (h fun _ => i)

/-- What a run of `free_empty_tables` on the table `t` has done when it has reached
the table `t'` with the flag `empty`, and the entries of `xs` are still to come. -/
structure Pruned (R : σ → (ℕ → ℕ) → (ℕ → ℕ) → Prop) (user owned : ℕ → ℕ) (k : ℕ)
    (t : Table (k + 1)) (xs : List (Fin 512)) (acc : σ × Table (k + 1) × Bool) : Prop where
  holds : R acc.1 user (owned + pages (k + 1) acc.2.1)
  keeps : ∀ q, lookup (k + 1) acc.2.1 q = lookup (k + 1) t q
  vacant : acc.2.2 = true → ∀ i ∉ xs, entryAt acc.2.1 i = none

/-- `free_empty_tables` keeps every leaf and frees tables of its own only. A table
it calls empty has no leaf and no table below it. -/
theorem freeEmptyTables_spec (B : Books allowed shm R) (k : ℕ) (s : σ) (t : Table k)
    (user owned : ℕ → ℕ) (h : R s user (owned + pages k t)) :
    Yields allowed (freeEmptyTables k s t) fun r =>
      R r.1 user (owned + pages k r.2.1) ∧ (∀ q, lookup k r.2.1 q = lookup k t q) ∧
        (r.2.2 = true → pages k r.2.1 = 0 ∧ ∀ q, lookup k r.2.1 q = none) := by
  induction k generalizing s owned with
  | zero =>
      rw [freeEmptyTables, yields_pure]
      exact ⟨h, fun _ => rfl, fun hall => ⟨rfl, (all_isNone_iff t).mp hall⟩⟩
  | succ k ih =>
      rw [freeEmptyTables]
      have hstart : Pruned R user owned k t indices (s, t, true) :=
        ⟨h, fun _ => rfl, fun _ i hi => absurd (mem_indices i) hi⟩
      apply Yields.mono (Q := Pruned R user owned k t [])
      · apply Yields.foldlM (I := Pruned R user owned k t)
        · intro i xs acc hacc
          cases he : entryAt acc.2.1 i with
          | none =>
              refine ⟨hacc.holds, hacc.keeps, ?_⟩
              intro hempty j hj
              by_cases hji : j = i
              · rw [hji]
                exact he
              · exact hacc.vacant hempty j (by simp [hji, hj])
          | some e =>
              have hR := hacc.holds
              rw [pages_eq_otherPages acc.2.1 i, he, entryPages_some, ← add_assoc,
                ← add_assoc] at hR
              apply (ih acc.1 e.2 _ hR).bind
              intro r hr
              obtain ⟨hR', hkeep, hdrop⟩ := hr
              -- a child that stays keeps its leaves, a child that goes had none
              have hchild : ∀ e' : Option (ℕ × Table k),
                  (∀ q : ℕ → Fin 512, q (k + 1) = i →
                    lookup (k + 1) (setEntry acc.2.1 i e') q = lookup k r.2.1 q) →
                  ∀ q, lookup (k + 1) (setEntry acc.2.1 i e') q = lookup (k + 1) t q := by
                intro e' he' q
                rw [← hacc.keeps q]
                by_cases hq : q (k + 1) = i
                · rw [he' q hq, hkeep q, lookup, lookup, find_succ_of_some (hq ▸ he)]
                · cases e' with
                  | none => rw [lookup, lookup, find_setEntry_none, if_neg hq]
                  | some e' => rw [lookup, lookup, find_setEntry_some, if_neg hq]
              cases hflag : r.2.2 with
              | true =>
                  rw [if_pos rfl]
                  obtain ⟨hzero, hnone⟩ := hdrop hflag
                  rw [hzero, add_zero] at hR'
                  apply (B.kfree_owned hR').bind
                  intro s' hs'
                  rw [yields_pure]
                  constructor
                  · rw [pages_setEntry, entryPages_none, add_zero]
                    exact hs'
                  · apply hchild
                    intro q hq
                    rw [lookup, find_setEntry_none, if_pos hq, hnone q]
                    rfl
                  · intro hempty j hj
                    by_cases hji : j = i
                    · rw [hji, entryAt_setEntry_self]
                    · rw [entryAt_setEntry_of_ne _ _ hji]
                      exact hacc.vacant hempty j (by simp [hji, hj])
              | false =>
                  rw [if_neg (by decide), yields_pure]
                  constructor
                  · rw [pages_setEntry, entryPages_some, ← add_assoc, ← add_assoc]
                    exact hR'
                  · apply hchild
                    intro q hq
                    rw [lookup, find_setEntry_some, if_pos hq]
                    rfl
                  · intro hempty
                    cases hempty
        · exact hstart
      · intro r hr
        refine ⟨hr.holds, hr.keeps, ?_⟩
        intro hempty
        have hnone : ∀ i, entryAt r.2.1 i = none := fun i =>
          hr.vacant hempty i List.not_mem_nil
        exact ⟨pages_of_entryAt_none hnone, lookup_of_entryAt_none hnone⟩

/-- What a run of `freewalk` on the table in the page `page` has done when it has
cleared that table up to `acc.2`, and the entries of `xs` are still to come. -/
structure Cleared (R : σ → (ℕ → ℕ) → (ℕ → ℕ) → Prop) (user owned : ℕ → ℕ) (k page : ℕ)
    (xs : List (Fin 512)) (acc : σ × Table (k + 1)) : Prop where
  holds : R acc.1 user (owned + one page + pages (k + 1) acc.2)
  leafless : ∀ q, lookup (k + 1) acc.2 q = none
  vacant : ∀ i ∉ xs, entryAt acc.2 i = none

theorem freewalk_spec (B : Books allowed shm R) (k : ℕ) (s : σ) (page : ℕ) (t : Table k)
    (user owned : ℕ → ℕ) (hnone : ∀ q, lookup k t q = none)
    (h : R s user (owned + one page + pages k t)) :
    Yields allowed (freewalk k s page t) fun s' => R s' user owned := by
  induction k generalizing s page owned with
  | zero =>
      rw [pages_zero, add_zero] at h
      rw [freewalk, if_pos ((all_isNone_iff t).mpr hnone)]
      exact B.kfree_owned h
  | succ k ih =>
      rw [freewalk]
      apply Yields.bind (Q := Cleared R user owned k page [])
      · apply Yields.foldlM (I := Cleared R user owned k page)
        · intro i xs acc hacc
          obtain ⟨hR, hleaf, hdone⟩ := hacc
          cases he : entryAt acc.2 i with
          | none =>
              refine ⟨hR, hleaf, ?_⟩
              intro j hj
              by_cases hji : j = i
              · rw [hji]
                exact he
              · exact hdone j (by simp [hji, hj])
          | some e =>
              rw [pages_eq_otherPages acc.2 i, he, entryPages_some, ← add_assoc,
                ← add_assoc] at hR
              have hchild : ∀ q, lookup k e.2 q = none := by
                intro q
                rw [lookup_child he q]
                exact hleaf _
              apply (ih acc.1 e.1 e.2 _ hchild hR).bind
              intro s' hs'
              rw [yields_pure]
              refine ⟨?_, ?_, ?_⟩
              · rw [pages_setEntry, entryPages_none, add_zero]
                exact hs'
              · intro q
                rw [lookup, find_setEntry_none]
                by_cases hq : q (k + 1) = i
                · rw [if_pos hq]
                  rfl
                · rw [if_neg hq]
                  exact hleaf q
              · intro j hj
                by_cases hji : j = i
                · rw [hji, entryAt_setEntry_self]
                · rw [entryAt_setEntry_of_ne _ _ hji]
                  exact hdone j (by simp [hji, hj])
        · exact ⟨h, hnone, fun i hi => absurd (mem_indices i) hi⟩
      · intro r hr
        have hR := hr.holds
        rw [pages_of_entryAt_none fun i => hr.vacant i List.not_mem_nil, add_zero] at hR
        exact B.kfree_owned hR

end Memory
