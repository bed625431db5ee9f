import OsAssignments.Library.RefPool

/-!
# Radix trees

A `Node ι P α k` is a table of height `k`: it has an entry for each index in `ι`.
The entries of a table of height `0` are the leaves of the tree and hold values;
an entry of a higher table names the page of the table below it and holds that
table. Each table has its own page, so no two entries share a table by
construction; that the pages differ is a matter of counting them (`pages`).

A path gives an index for each height. `find` follows a path down to the slot of
its leaf and `store` writes that slot; neither changes which tables exist. Two
paths that differ at some height lead to different slots. `missing` counts the
tables that a path still needs.
-/

open scoped BigOperators

namespace RadixTree

open RefPool

variable {ι P α : Type}

/-- A table of height `k`. -/
def Node (ι P α : Type) : ℕ → Type
  | 0 => ι → Option α
  | k + 1 => ι → Option (P × Node ι P α k)

def leafAt (n : Node ι P α 0) (i : ι) : Option α := n i

def entryAt {k : ℕ} (n : Node ι P α (k + 1)) (i : ι) : Option (P × Node ι P α k) := n i

def empty : (k : ℕ) → Node ι P α k
  | 0 => fun _ => none
  | _ + 1 => fun _ => none

/-- The slot at the end of a path, or `none` where a table on the way is missing. -/
def find : (k : ℕ) → Node ι P α k → (ℕ → ι) → Option (Option α)
  | 0, n, p => some (leafAt n (p 0))
  | k + 1, n, p =>
      match entryAt n (p (k + 1)) with
      | none => none
      | some e => find k e.2 p

def lookup (k : ℕ) (n : Node ι P α k) (p : ℕ → ι) : Option α := (find k n p).join

/-- Two paths that lead to different slots of a table of height `k`. -/
def Apart (k : ℕ) (p q : ℕ → ι) : Prop := ∃ j ≤ k, p j ≠ q j

@[simp] theorem leafAt_empty (i : ι) : leafAt (empty 0 : Node ι P α 0) i = none := rfl

@[simp] theorem entryAt_empty (k : ℕ) (i : ι) :
    entryAt (empty (k + 1) : Node ι P α (k + 1)) i = none := rfl

@[simp] theorem find_zero (n : Node ι P α 0) (p : ℕ → ι) :
    find 0 n p = some (leafAt n (p 0)) := rfl

theorem find_succ_of_none {k : ℕ} {n : Node ι P α (k + 1)} {p : ℕ → ι}
    (h : entryAt n (p (k + 1)) = none) : find (k + 1) n p = none := by
  rw [find, h]

theorem find_succ_of_some {k : ℕ} {n : Node ι P α (k + 1)} {p : ℕ → ι} {e : P × Node ι P α k}
    (h : entryAt n (p (k + 1)) = some e) : find (k + 1) n p = find k e.2 p := by
  rw [find, h]

theorem find_congr (k : ℕ) (n : Node ι P α k) {p q : ℕ → ι} (h : ∀ j ≤ k, p j = q j) :
    find k n p = find k n q := by
  induction k with
  | zero => rw [find_zero, find_zero, h 0 le_rfl]
  | succ k ih =>
      have hk := h (k + 1) le_rfl
      cases he : entryAt n (p (k + 1)) with
      | none => rw [find_succ_of_none he, find_succ_of_none (hk ▸ he)]
      | some e =>
          rw [find_succ_of_some he, find_succ_of_some (hk ▸ he)]
          exact ih e.2 fun j hj => h j (Nat.le_succ_of_le hj)

@[simp] theorem lookup_empty (k : ℕ) (p : ℕ → ι) : lookup k (empty k : Node ι P α k) p = none := by
  cases k with
  | zero => rfl
  | succ k => rfl

theorem lookup_child {k : ℕ} {n : Node ι P α (k + 1)} {i : ι} {e : P × Node ι P α k}
    (h : entryAt n i = some e) (p : ℕ → ι) :
    lookup k e.2 p = lookup (k + 1) n (Function.update p (k + 1) i) := by
  have hi : Function.update p (k + 1) i (k + 1) = i := Function.update_self ..
  unfold lookup
  rw [find_succ_of_some (hi.symm ▸ h)]
  congr 1
  apply find_congr
  intro j hj
  rw [Function.update_of_ne (Nat.ne_of_lt (Nat.lt_succ_of_le hj))]

section Store

variable [DecidableEq ι]

def setLeaf (n : Node ι P α 0) (i : ι) (a : Option α) : Node ι P α 0 :=
  fun j => if j = i then a else n j

def setEntry {k : ℕ} (n : Node ι P α (k + 1)) (i : ι) (e : Option (P × Node ι P α k)) :
    Node ι P α (k + 1) :=
  fun j => if j = i then e else n j

def store : (k : ℕ) → Node ι P α k → (ℕ → ι) → Option α → Node ι P α k
  | 0, n, p, a => setLeaf n (p 0) a
  | k + 1, n, p, a =>
      match entryAt n (p (k + 1)) with
      | none => n
      | some e => setEntry n (p (k + 1)) (some (e.1, store k e.2 p a))

@[simp] theorem leafAt_setLeaf_self (n : Node ι P α 0) (i : ι) (a : Option α) :
    leafAt (setLeaf n i a) i = a := if_pos rfl

@[simp] theorem leafAt_setLeaf_of_ne (n : Node ι P α 0) {i j : ι} (a : Option α) (h : j ≠ i) :
    leafAt (setLeaf n i a) j = leafAt n j := if_neg h

@[simp] theorem entryAt_setEntry_self {k : ℕ} (n : Node ι P α (k + 1)) (i : ι)
    (e : Option (P × Node ι P α k)) : entryAt (setEntry n i e) i = e := if_pos rfl

@[simp] theorem entryAt_setEntry_of_ne {k : ℕ} (n : Node ι P α (k + 1)) {i j : ι}
    (e : Option (P × Node ι P α k)) (h : j ≠ i) :
    entryAt (setEntry n i e) j = entryAt n j := if_neg h

theorem store_succ_of_none {k : ℕ} {n : Node ι P α (k + 1)} {p : ℕ → ι} (a : Option α)
    (h : entryAt n (p (k + 1)) = none) : store (k + 1) n p a = n := by
  rw [store, h]

theorem store_succ_of_some {k : ℕ} {n : Node ι P α (k + 1)} {p : ℕ → ι} (a : Option α)
    {e : P × Node ι P α k} (h : entryAt n (p (k + 1)) = some e) :
    store (k + 1) n p a = setEntry n (p (k + 1)) (some (e.1, store k e.2 p a)) := by
  rw [store, h]

/-- The slots of a table whose entry at `i` has been replaced by the table `e`. -/
theorem find_setEntry_some {k : ℕ} (n : Node ι P α (k + 1)) (i : ι) (e : P × Node ι P α k)
    (p : ℕ → ι) :
    find (k + 1) (setEntry n i (some e)) p =
      if p (k + 1) = i then find k e.2 p else find (k + 1) n p := by
  by_cases h : p (k + 1) = i
  · rw [if_pos h]
    exact find_succ_of_some (by rw [h, entryAt_setEntry_self])
  · rw [if_neg h, find, find, entryAt_setEntry_of_ne n (some e) h]

theorem find_setEntry_none {k : ℕ} (n : Node ι P α (k + 1)) (i : ι) (p : ℕ → ι) :
    find (k + 1) (setEntry n i none) p =
      if p (k + 1) = i then none else find (k + 1) n p := by
  by_cases h : p (k + 1) = i
  · rw [if_pos h]
    exact find_succ_of_none (by rw [h, entryAt_setEntry_self])
  · rw [if_neg h, find, find, entryAt_setEntry_of_ne n none h]

theorem lookup_store_self (k : ℕ) (n : Node ι P α k) (p : ℕ → ι) (a : Option α)
    (h : (find k n p).isSome) : lookup k (store k n p a) p = a := by
  induction k with
  | zero =>
      unfold lookup store
      rw [find_zero, leafAt_setLeaf_self]
      rfl
  | succ k ih =>
      cases he : entryAt n (p (k + 1)) with
      | none =>
          rw [find_succ_of_none he] at h
          cases h
      | some e =>
          rw [find_succ_of_some he] at h
          have := ih e.2 h
          unfold lookup at this ⊢
          rw [store_succ_of_some a he, find_setEntry_some, if_pos rfl, this]

theorem lookup_store_of_apart (k : ℕ) (n : Node ι P α k) {p q : ℕ → ι} (a : Option α)
    (h : Apart k p q) : lookup k (store k n p a) q = lookup k n q := by
  induction k with
  | zero =>
      obtain ⟨j, hj, hne⟩ := h
      rw [Nat.le_zero.mp hj] at hne
      unfold lookup store
      rw [find_zero, find_zero, leafAt_setLeaf_of_ne n a (Ne.symm hne)]
  | succ k ih =>
      cases he : entryAt n (p (k + 1)) with
      | none => rw [store_succ_of_none a he]
      | some e =>
          unfold lookup
          rw [store_succ_of_some a he, find_setEntry_some]
          by_cases hq : q (k + 1) = p (k + 1)
          · have happ : Apart k p q := by
              obtain ⟨j, hj, hne⟩ := h
              rcases Nat.lt_or_eq_of_le hj with hlt | heq
              · exact ⟨j, Nat.le_of_lt_succ hlt, hne⟩
              · rw [heq] at hne
                exact absurd hq.symm hne
            rw [if_pos hq, find_succ_of_some (hq ▸ he)]
            exact ih e.2 happ
          · rw [if_neg hq]

end Store

/-! ## Tables that are missing -/

section Missing

def missing : (k : ℕ) → Node ι P α k → (ℕ → ι) → ℕ
  | 0, _, _ => 0
  | k + 1, n, p =>
      match entryAt n (p (k + 1)) with
      | none => k + 1
      | some e => missing k e.2 p

@[simp] theorem missing_zero (n : Node ι P α 0) (p : ℕ → ι) : missing 0 n p = 0 := rfl

theorem missing_succ_of_none {k : ℕ} {n : Node ι P α (k + 1)} {p : ℕ → ι}
    (h : entryAt n (p (k + 1)) = none) : missing (k + 1) n p = k + 1 := by
  rw [missing, h]

theorem missing_succ_of_some {k : ℕ} {n : Node ι P α (k + 1)} {p : ℕ → ι}
    {e : P × Node ι P α k} (h : entryAt n (p (k + 1)) = some e) :
    missing (k + 1) n p = missing k e.2 p := by
  rw [missing, h]

theorem missing_le (k : ℕ) (n : Node ι P α k) (p : ℕ → ι) : missing k n p ≤ k := by
  induction k with
  | zero => exact le_rfl
  | succ k ih =>
      cases he : entryAt n (p (k + 1)) with
      | none => rw [missing_succ_of_none he]
      | some e =>
          rw [missing_succ_of_some he]
          exact Nat.le_succ_of_le (ih e.2)

theorem missing_congr (k : ℕ) (n : Node ι P α k) {p q : ℕ → ι}
    (h : ∀ j, 0 < j → j ≤ k → p j = q j) : missing k n p = missing k n q := by
  induction k with
  | zero => rfl
  | succ k ih =>
      have hk := h (k + 1) (Nat.succ_pos k) le_rfl
      cases he : entryAt n (p (k + 1)) with
      | none => rw [missing_succ_of_none he, missing_succ_of_none (hk ▸ he)]
      | some e =>
          rw [missing_succ_of_some he, missing_succ_of_some (hk ▸ he)]
          exact ih e.2 fun j hj hj' => h j hj (Nat.le_succ_of_le hj')

theorem missing_of_find (k : ℕ) (n : Node ι P α k) {p : ℕ → ι} (h : (find k n p).isSome) :
    missing k n p = 0 := by
  induction k with
  | zero => rfl
  | succ k ih =>
      cases he : entryAt n (p (k + 1)) with
      | none =>
          rw [find_succ_of_none he] at h
          cases h
      | some e =>
          rw [find_succ_of_some he] at h
          rw [missing_succ_of_some he]
          exact ih e.2 h

@[simp] theorem missing_empty (k : ℕ) (p : ℕ → ι) : missing k (empty k : Node ι P α k) p = k := by
  cases k with
  | zero => rfl
  | succ k => rfl

variable [DecidableEq ι]

/-- How many tables on the path `q` are not on the path `p`. -/
def unshared : ℕ → (ℕ → ι) → (ℕ → ι) → ℕ
  | 0, _, _ => 0
  | k + 1, p, q => if q (k + 1) = p (k + 1) then unshared k p q else k + 1

theorem unshared_le (k : ℕ) (p q : ℕ → ι) : unshared k p q ≤ k := by
  induction k with
  | zero => exact le_rfl
  | succ k ih =>
      rw [unshared]
      split_ifs
      · exact Nat.le_succ_of_le ih
      · exact le_rfl

/-- The tables that are missing when the entry at `i` has become the table `e`. -/
theorem missing_setEntry_some {k : ℕ} (n : Node ι P α (k + 1)) (i : ι) (e : P × Node ι P α k)
    (p : ℕ → ι) :
    missing (k + 1) (setEntry n i (some e)) p =
      if p (k + 1) = i then missing k e.2 p else missing (k + 1) n p := by
  by_cases h : p (k + 1) = i
  · rw [if_pos h]
    exact missing_succ_of_some (by rw [h, entryAt_setEntry_self])
  · rw [if_neg h, missing, missing, entryAt_setEntry_of_ne n (some e) h]

/-- When a path has all its tables, another path misses those it does not share with it
and missed before. -/
theorem missing_setEntry_min {k : ℕ} {n : Node ι P α (k + 1)} {p : ℕ → ι} {e : P × Node ι P α k}
    (h : ∀ q, q (k + 1) = p (k + 1) →
      missing k e.2 q = min (missing (k + 1) n q) (unshared k p q)) (q : ℕ → ι) :
    missing (k + 1) (setEntry n (p (k + 1)) (some e)) q =
      min (missing (k + 1) n q) (unshared (k + 1) p q) := by
  rw [missing_setEntry_some, unshared]
  by_cases hq : q (k + 1) = p (k + 1)
  · rw [if_pos hq, if_pos hq]
    exact h q hq
  · rw [if_neg hq, if_neg hq, min_eq_left (missing_le (k + 1) n q)]

@[simp] theorem missing_store (k : ℕ) (n : Node ι P α k) (p q : ℕ → ι) (a : Option α) :
    missing k (store k n p a) q = missing k n q := by
  induction k with
  | zero => rfl
  | succ k ih =>
      cases he : entryAt n (p (k + 1)) with
      | none => rw [store_succ_of_none a he]
      | some e =>
          rw [store_succ_of_some a he, missing_setEntry_some]
          by_cases hq : q (k + 1) = p (k + 1)
          · rw [if_pos hq, ih, missing_succ_of_some (hq ▸ he)]
          · rw [if_neg hq]

end Missing

section Pages

variable [DecidableEq P] [Fintype ι]

def pages : (k : ℕ) → Node ι P α k → P → ℕ
  | 0, _ => 0
  | k + 1, n => ∑ i, (entryAt n i).elim 0 fun e => one e.1 + pages k e.2

/-- The pages an entry stands for: the table it names and those below it. -/
def entryPages (k : ℕ) (e : Option (P × Node ι P α k)) : P → ℕ :=
  e.elim 0 fun e => one e.1 + pages k e.2

@[simp] theorem entryPages_none (k : ℕ) :
    entryPages k (none : Option (P × Node ι P α k)) = 0 := rfl

@[simp] theorem entryPages_some (k : ℕ) (e : P × Node ι P α k) :
    entryPages k (some e) = one e.1 + pages k e.2 := rfl

@[simp] theorem pages_zero (n : Node ι P α 0) : pages 0 n = 0 := rfl

theorem pages_succ (k : ℕ) (n : Node ι P α (k + 1)) :
    pages (k + 1) n = ∑ i, entryPages k (entryAt n i) := rfl

@[simp] theorem pages_empty (k : ℕ) : pages k (empty k : Node ι P α k) = 0 := by
  cases k with
  | zero => rfl
  | succ k => exact Finset.sum_const_zero

theorem pages_of_entryAt_none {k : ℕ} {n : Node ι P α (k + 1)} (h : ∀ i, entryAt n i = none) :
    pages (k + 1) n = 0 := by
  rw [pages_succ]
  apply Finset.sum_eq_zero
  intro i _
  rw [h i, entryPages_none]

variable [DecidableEq ι]

/-- The pages of the entries of a table other than the one at `i`. -/
def otherPages {k : ℕ} (n : Node ι P α (k + 1)) (i : ι) : P → ℕ :=
  ∑ j ∈ Finset.univ.erase i, entryPages k (entryAt n j)

theorem pages_eq_otherPages {k : ℕ} (n : Node ι P α (k + 1)) (i : ι) :
    pages (k + 1) n = otherPages n i + entryPages k (entryAt n i) :=
  (Finset.sum_erase_add _ (fun j => entryPages k (entryAt n j)) (Finset.mem_univ i)).symm

theorem pages_setEntry {k : ℕ} (n : Node ι P α (k + 1)) (i : ι)
    (e : Option (P × Node ι P α k)) :
    pages (k + 1) (setEntry n i e) = otherPages n i + entryPages k e := by
  have hother : otherPages (setEntry n i e) i = otherPages n i := by
    apply Finset.sum_congr rfl
    intro j hj
    rw [entryAt_setEntry_of_ne n e (Finset.ne_of_mem_erase hj)]
  rw [pages_eq_otherPages (setEntry n i e) i, hother, entryAt_setEntry_self]

@[simp] theorem pages_store (k : ℕ) (n : Node ι P α k) (p : ℕ → ι) (a : Option α) :
    pages k (store k n p a) = pages k n := by
  induction k with
  | zero => rfl
  | succ k ih =>
      cases he : entryAt n (p (k + 1)) with
      | none => rw [store_succ_of_none a he]
      | some e =>
          rw [store_succ_of_some a he, pages_setEntry, pages_eq_otherPages n (p (k + 1)), he,
            entryPages_some, entryPages_some, ih e.2]

end Pages

end RadixTree
