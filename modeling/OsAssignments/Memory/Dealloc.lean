import OsAssignments.Library.Pruning
import OsAssignments.Memory.Vm

/-!
# What `uvmdealloc` frees

`uvmdealloc` of the Assignment 7 kernel is a list of calls of `kfree` and a page table: the
user pages of the range, in the order of their addresses, and then the tables that
`free_empty_tables` finds empty, each after those below it. The page table that is left is
the old one with the range cleared, pruned. So it is known what is freed, how often and in
what order, whatever the allocator does.
-/

namespace Memory

open Outcome RefPool RadixTree

section Frees

variable {σ : Type} [PageAllocator σ]

/-- `kfree` of the pages of a list, one after the other. -/
def freeAll (pages : List ℕ) (s : σ) : Except Panic σ := pages.foldlM (fun s pa => kfree pa s) s

@[simp] theorem freeAll_nil (s : σ) : freeAll [] s = pure s := rfl

theorem freeAll_append (xs ys : List ℕ) (s : σ) :
    freeAll (xs ++ ys) s = freeAll xs s >>= freeAll ys := List.foldlM_append

theorem freeAll_singleton (pa : ℕ) (s : σ) : freeAll [pa] s = kfree pa s := bind_pure _

theorem nodup_indices : indices.Nodup := by
  unfold indices
  exact List.nodup_finRange 512

/-! ## free_empty_tables -/

/-- The entries of `xs` have been pruned. -/
noncomputable def prunedAt {k : ℕ} (xs : List (Fin 512)) (t : Table (k + 1)) : Table (k + 1) :=
  fun i => if i ∈ xs then pruneEntry k (entryAt t i) else entryAt t i

theorem entryAt_prunedAt {k : ℕ} (xs : List (Fin 512)) (t : Table (k + 1)) (i : Fin 512) :
    entryAt (prunedAt xs t) i = if i ∈ xs then pruneEntry k (entryAt t i) else entryAt t i := rfl

theorem foldlM_prune {k : ℕ} {f : σ × Table (k + 1) × Bool → Fin 512 →
      Except Panic (σ × Table (k + 1) × Bool)}
    (hf : ∀ acc i, f acc i = (fun s => (s, setEntry acc.2.1 i (pruneEntry k (entryAt acc.2.1 i)),
      acc.2.2 && (pruneEntry k (entryAt acc.2.1 i)).isNone)) <$>
        freeAll (prunedEntry indices k (entryAt acc.2.1 i)) acc.1)
    (xs : List (Fin 512)) (hxs : xs.Nodup) (s : σ) (t : Table (k + 1)) (empty : Bool) :
    xs.foldlM f (s, t, empty) = (fun s => (s, prunedAt xs t,
      empty && xs.all fun i => (pruneEntry k (entryAt t i)).isNone)) <$>
        freeAll (xs.flatMap fun i => prunedEntry indices k (entryAt t i)) s := by
  induction xs generalizing s t empty with
  | nil =>
      rw [List.foldlM_nil, List.flatMap_nil, freeAll_nil, List.all_nil, Bool.and_true]
      rfl
  | cons i xs ih =>
      obtain ⟨hi, hxs⟩ := List.nodup_cons.mp hxs
      have hne : ∀ j ∈ xs, entryAt (setEntry t i (pruneEntry k (entryAt t i))) j =
          entryAt t j := fun j hj =>
        entryAt_setEntry_of_ne t _ fun heq => hi (heq ▸ hj)
      have htable : prunedAt xs (setEntry t i (pruneEntry k (entryAt t i))) =
          prunedAt (i :: xs) t := by
        refine ext_entryAt fun j => ?_
        rw [entryAt_prunedAt, entryAt_prunedAt]
        by_cases hj : j = i
        · rw [hj, if_neg hi, if_pos List.mem_cons_self, entryAt_setEntry_self]
        · rw [entryAt_setEntry_of_ne t _ hj]
          simp only [List.mem_cons, hj, false_or]
      have hfreed : (xs.flatMap fun j => prunedEntry indices k
            (entryAt (setEntry t i (pruneEntry k (entryAt t i))) j)) =
          xs.flatMap fun j => prunedEntry indices k (entryAt t j) := by
        unfold List.flatMap
        congr 1
        exact List.map_congr_left fun j hj => by rw [hne j hj]
      have hall : (xs.all fun j => (pruneEntry k
            (entryAt (setEntry t i (pruneEntry k (entryAt t i))) j)).isNone) =
          xs.all fun j => (pruneEntry k (entryAt t j)).isNone := by
        rw [Bool.eq_iff_iff, List.all_eq_true, List.all_eq_true]
        exact forall₂_congr fun j hj => by rw [hne j hj]
      rw [List.foldlM_cons, hf, List.flatMap_cons, freeAll_append, List.all_cons,
        ← Bool.and_assoc]
      simp only [map_eq_pure_bind, bind_assoc, pure_bind]
      congr 1
      funext s'
      rw [ih hxs, htable, hfreed, hall, map_eq_pure_bind]

theorem prunedAt_indices {k : ℕ} (t : Table (k + 1)) : prunedAt indices t = prune (k + 1) t :=
  ext_entryAt fun i => if_pos (mem_indices i)

/-- The loop of `free_empty_tables` has found no entry exactly when none is left. -/
theorem all_isNone_eq_bare {k : ℕ} (t : Table (k + 1))
    [Decidable (Bare (k + 1) (prune (k + 1) t))] :
    (indices.all fun i => (pruneEntry k (entryAt t i)).isNone) =
      decide (Bare (k + 1) (prune (k + 1) t)) := by
  rw [Bool.eq_iff_iff, List.all_eq_true, decide_eq_true_iff]
  constructor
  · intro h i
    exact Option.isNone_iff_eq_none.mp (h i (mem_indices i))
  · intro h i _
    exact Option.isNone_iff_eq_none.mpr (h i)

open Classical in
/-- `free_empty_tables` prunes the table, and says whether it has become bare. -/
theorem freeEmptyTables_eq (k : ℕ) (s : σ) (t : Table k) :
    freeEmptyTables k s t = (fun s => (s, prune k t, decide (Bare k (prune k t)))) <$>
      freeAll (pruned indices k t) s := by
  induction k generalizing s with
  | zero =>
      have hall : (indices.all fun i => (leafAt t i).isNone) = decide (Bare 0 (prune 0 t)) := by
        rw [Bool.eq_iff_iff, decide_eq_true_iff, bare_prune_iff, all_isNone_iff]
      rw [freeEmptyTables, hall]
      rfl
  | succ k ih =>
      rw [freeEmptyTables, foldlM_prune _ indices nodup_indices, prunedAt_indices,
        all_isNone_eq_bare, Bool.true_and, pruned_succ]
      rintro ⟨s, u, empty⟩ i
      dsimp only
      cases he : entryAt u i with
      | none =>
          have hself : setEntry u i none = u := by
            refine ext_entryAt fun j => ?_
            by_cases hj : j = i
            · rw [hj, entryAt_setEntry_self, he]
            · exact entryAt_setEntry_of_ne u none hj
          rw [pruneEntry_none, prunedEntry_none, freeAll_nil, hself, Option.isNone_none,
            Bool.and_true]
          rfl
      | some e =>
          dsimp only
          rw [ih]
          by_cases hb : Bare k (prune k e.2)
          · rw [pruneEntry_of_bare hb, prunedEntry_of_bare hb, freeAll_append,
              Option.isNone_none, Bool.and_true]
            simp only [map_eq_pure_bind, bind_assoc, pure_bind, decide_eq_true hb, if_true,
              freeAll_singleton]
          · rw [pruneEntry_of_not_bare hb, prunedEntry_of_not_bare hb, Option.isNone_some,
              Bool.and_false]
            simp only [map_eq_pure_bind, bind_assoc, pure_bind, decide_eq_false hb,
              Bool.false_eq_true, if_false]

/-! ## uvmunmap_sparse -/

/-- The pages that `uvmunmap_sparse` frees on its way from page `v` over `n` pages: those of
the leaves it meets, but for the shared one. -/
def unmapped (shm : ℕ) (f : ℕ → Option Pte) (v n : ℕ) : List ℕ :=
  (List.range' v n).flatMap fun i =>
    (f i).elim [] fun e => if e.pa = shm then [] else [e.pa]

theorem unmapped_succ (shm : ℕ) (f : ℕ → Option Pte) (v n : ℕ) :
    unmapped shm f v (n + 1) =
      ((f v).elim [] fun e => if e.pa = shm then [] else [e.pa]) ++ unmapped shm f (v + 1) n := rfl

theorem unmapped_congr {shm v n : ℕ} {f g : ℕ → Option Pte}
    (h : ∀ i, v ≤ i → i < v + n → f i = g i) : unmapped shm f v n = unmapped shm g v n := by
  unfold unmapped List.flatMap
  congr 1
  refine List.map_congr_left fun i hi => ?_
  rw [List.mem_range'_1] at hi
  rw [h i hi.1 hi.2]

theorem uvmunmap_page_eq {shm v : ℕ} {pt : PageTable} {e : Pte} (hv : v < maxPage)
    (he : pt.leaf v = some e) (s : σ) :
    uvmunmap shm s pt (v * pgSize) 1 true = (fun s => (s, pt.setPte (v * pgSize) none)) <$>
      freeAll (if e.pa = shm then [] else [e.pa]) s := by
  rw [uvmunmap, if_neg (not_not.mpr (Nat.mul_mod_left v pgSize)), uvmunmapLoop,
    walk_of_leaf hv he]
  change (if e.perm.isLeaf = false then _ else _) = _
  rw [if_neg (by rw [Perm.isLeaf_eq_true]; decide)]
  by_cases hshm : e.pa = shm
  · rw [if_neg (by simp [hshm]), if_pos hshm]
    rfl
  · rw [if_pos ⟨rfl, hshm⟩, if_neg hshm, freeAll_singleton, map_eq_pure_bind]
    rfl

/-- What `uvmunmap_sparse` leaves of a page table whose pages from `v` up to page `w` it has
unmapped: no table has gone. -/
structure Swept (pt : PageTable) (v w : ℕ) (pt' : PageTable) : Prop where
  root : pt'.root = pt.root
  leaf : pt'.leaf = clearRange pt.leaf v w
  pages : RadixTree.pages 2 pt'.table = RadixTree.pages 2 pt.table
  extends_table : Extends 2 pt.table pt'.table

theorem uvmunmapSparseLoop_eq (shm n : ℕ) (pt : PageTable) (v : ℕ) (hv : v + n ≤ maxPage) :
    ∃ pt', Swept pt v (v + n) pt' ∧ ∀ {σ : Type} [PageAllocator σ] (s : σ),
      uvmunmapSparseLoop shm n s pt (v * pgSize) =
        (fun s => (s, pt')) <$> freeAll (unmapped shm pt.leaf v n) s := by
  induction n generalizing pt v with
  | zero => exact ⟨pt, ⟨rfl, (clearRange_self _ v).symm, rfl, .refl 2 _⟩, fun s => rfl⟩
  | succ n ih =>
      have hmax : v < maxPage := by omega
      cases he : pt.leaf v with
      | none =>
          obtain ⟨pt', hswept, hrun⟩ := ih pt (v + 1) (by omega)
          refine ⟨pt', ⟨hswept.root, ?_, hswept.pages, hswept.extends_table⟩, fun s => ?_⟩
          · rw [hswept.leaf, clearRange_hole n he]
          · rw [uvmunmapSparseLoop_skip hmax he, hrun, unmapped_succ, he]
            rfl
      | some e =>
          have hleaf := leaf_clear hmax he
          obtain ⟨pt', hswept, hrun⟩ := ih (pt.setPte (v * pgSize) none) (v + 1) (by omega)
          refine ⟨pt', ⟨hswept.root, ?_, ?_, ?_⟩, fun s => ?_⟩
          · rw [hswept.leaf, hleaf, clearRange_update]
          · rw [hswept.pages]
            exact pages_store 2 pt.table _ none
          · exact (Extends.store 2 pt.table _ none).trans hswept.extends_table
          · have hrest : unmapped shm (pt.setPte (v * pgSize) none).leaf (v + 1) n =
                unmapped shm pt.leaf (v + 1) n := by
              refine unmapped_congr fun i hi _ => ?_
              rw [hleaf, Function.update_of_ne (by omega)]
            rw [uvmunmapSparseLoop, walk_of_leaf hmax he]
            change (if e.perm.isLeaf = true then _ else _) = _
            rw [if_pos e.perm.isLeaf_eq_true, uvmunmap_page_eq hmax he, unmapped_succ, he,
              Option.elim_some, freeAll_append]
            simp only [map_eq_pure_bind, bind_assoc, pure_bind]
            congr 1
            funext s'
            rw [← Nat.succ_mul, hrun, hrest, map_eq_pure_bind]

/-! ## uvmdealloc -/

/-- What `uvmdealloc` makes of the page table `pt` when it unmaps the pages from `v` up to
page `w`, and the pages of the tables that it frees. -/
structure Deallocated (pt : PageTable) (v w : ℕ) (tables : List ℕ) (pt' : PageTable) : Prop where
  root : pt'.root = pt.root
  leaf : pt'.leaf = clearRange pt.leaf v w
  pruned_table : ∃ t, Extends 2 pt.table t ∧ pt'.table = prune 2 t
  count : ∀ pa, tables.count pa + pt'.pages pa = pt.pages pa

theorem Swept.deallocated {pt pt₁ : PageTable} {v w : ℕ} (h : Swept pt v w pt₁) :
    Deallocated pt v w (pruned indices 2 pt₁.table)
      { pt₁ with table := prune 2 pt₁.table } := by
  have hcount : ∀ pa, (pruned indices 2 pt₁.table).count pa +
      ({ pt₁ with table := prune 2 pt₁.table } : PageTable).pages pa = pt.pages pa := by
    intro pa
    have hc := count_pruned nodup_indices mem_indices 2 pt₁.table pa
    rw [h.pages] at hc
    change _ + (one pt₁.root pa + RadixTree.pages 2 (prune 2 pt₁.table) pa) =
      one pt.root pa + RadixTree.pages 2 pt.table pa
    rw [h.root]
    omega
  refine ⟨h.root, ?_, ⟨pt₁.table, h.extends_table, rfl⟩, hcount⟩
  rw [← h.leaf]
  exact PageTable.leaf_congr fun p => lookup_prune 2 pt₁.table p

/-- `uvmdealloc` frees the user pages of the range and then the tables that have become
empty. -/
theorem uvmdealloc_eq (shm : ℕ) (pt : PageTable) {oldsz newsz : ℕ}
    (hlt : pageCount newsz < pageCount oldsz) (htop : pageCount oldsz ≤ maxPage) :
    ∃ tables pt', Deallocated pt (pageCount newsz) (pageCount oldsz) tables pt' ∧
      ∀ {σ : Type} [PageAllocator σ] (s : σ), uvmdealloc .assignment7 shm s pt oldsz newsz =
        (fun s => (s, pt', newsz)) <$> freeAll (unmapped shm pt.leaf (pageCount newsz)
          (pageCount oldsz - pageCount newsz) ++ tables) s := by
  obtain ⟨pt₁, hswept, hrun⟩ := uvmunmapSparseLoop_eq shm (pageCount oldsz - pageCount newsz) pt
    (pageCount newsz) (by omega)
  rw [Nat.add_sub_cancel' hlt.le] at hswept
  refine ⟨_, _, hswept.deallocated, fun s => ?_⟩
  have hsize : ¬ newsz ≥ oldsz := fun hge => Nat.not_lt.mpr (pageCount_mono hge) hlt
  have hround : pgRoundUp newsz < pgRoundUp oldsz := by
    rw [pgRoundUp_eq, pgRoundUp_eq]
    exact Nat.mul_lt_mul_of_pos_right hlt (by decide)
  have hcount : (pgRoundUp oldsz - pgRoundUp newsz) / pgSize =
      pageCount oldsz - pageCount newsz := by
    rw [pgRoundUp_eq, pgRoundUp_eq, ← Nat.sub_mul, Nat.mul_div_cancel _ (by decide)]
  rw [uvmdealloc, if_neg hsize, if_pos hround, unmapUser, uvmunmapSparse,
    if_neg (by simp [pgRoundUp_aligned]), hcount, pgRoundUp_eq newsz, hrun, freeAll_append]
  simp only [map_eq_pure_bind, bind_assoc, pure_bind, freeEmptyTables_eq]

end Frees

/-! ## Trees without shared tables -/

/-- `PGROUNDUP(sz)` in `uint64` arithmetic. -/
def pgRoundUp64 (sz : ℕ) : ℕ := (sz + pgSize - 1) % 2 ^ 64 / pgSize * pgSize

/-- What `uvmdealloc` does to the page table `pt` when it unmaps the addresses from `start` up
to `stop`: they are unmapped, the others are as before, no entry is left that points to an
empty table; and `kfree` has been called once for each table that has gone, and for no other
and not for the root. -/
structure Tidied (pt : PageTable) (start stop : ℕ) (tables : List ℕ) (pt' : PageTable) : Prop where
  unmapped : ∀ a, start ≤ a → a < stop → pt'.leaf (a / pgSize) = none
  kept : ∀ a, a < start ∨ stop ≤ a → pt'.leaf (a / pgSize) = pt.leaf (a / pgSize)
  tidy : Tidy 2 pt'.table
  pages_le : ∀ pa, pt'.pages pa ≤ pt.pages pa
  count : ∀ pa, tables.count pa = if pt.pages pa = 1 ∧ pt'.pages pa = 0 then 1 else 0
  root : pt'.root = pt.root
  root_kept : pt.root ∉ tables

theorem pages_root_pos (pt : PageTable) : 0 < pt.pages pt.root := by
  rw [PageTable.pages, Pi.add_apply, one_self]
  omega

theorem Deallocated.tidied {pt pt' : PageTable} {v w : ℕ} {tables : List ℕ}
    (h : Deallocated pt v w tables pt') (hunshared : ∀ pa, pt.pages pa ≤ 1) :
    Tidied pt (v * pgSize) (w * pgSize) tables pt' := by
  have hpos : 0 < pgSize := by decide
  have hin : ∀ a, v ≤ a / pgSize ∧ a / pgSize < w ↔ v * pgSize ≤ a ∧ a < w * pgSize := fun a =>
    and_congr (Nat.le_div_iff_mul_le hpos) (Nat.div_lt_iff_lt_mul hpos)
  refine ⟨fun a hv hw => ?_, fun a ha => ?_, ?_, fun pa => ?_, fun pa => ?_, h.root,
    fun hroot => ?_⟩
  · rw [h.leaf]
    exact if_pos ((hin a).mpr ⟨hv, hw⟩)
  · rw [h.leaf]
    refine if_neg fun hmem => ?_
    have hrange := (hin a).mp hmem
    omega
  · obtain ⟨t, _, ht⟩ := h.pruned_table
    rw [ht]
    exact tidy_prune 2 t
  · have hcount := h.count pa
    omega
  · have hcount := h.count pa
    have hone := hunshared pa
    split_ifs
    · omega
    · omega
  · have hcount := h.count pt.root
    have hone := hunshared pt.root
    have hleft := pages_root_pos pt'
    rw [h.root] at hleft
    have hzero : tables.count pt.root = 0 := by omega
    exact List.count_eq_zero.mp hzero hroot

theorem freeAll_returns (pages : List ℕ) (s : Kmem) (h : ∀ pa ∈ pages, Frame s.kernelEnd pa) :
    ∃ s', freeAll pages s = .ok s' := by
  induction pages generalizing s with
  | nil => exact ⟨s, rfl⟩
  | cons pa pages ih =>
      have hframe := h pa List.mem_cons_self
      obtain ⟨s₁, hs₁, hend⟩ : ∃ s₁, Kmem.kfree pa s = .ok s₁ ∧ s₁.kernelEnd = s.kernelEnd := by
        unfold Kmem.kfree
        rw [if_neg (not_not.mpr hframe)]
        split_ifs
        · exact ⟨_, rfl, rfl⟩
        · exact ⟨_, rfl, rfl⟩
      obtain ⟨s', hs'⟩ := ih s₁ fun q hq => hend ▸ h q (List.mem_cons_of_mem pa hq)
      refine ⟨s', ?_⟩
      rw [freeAll, List.foldlM_cons, kfree_eq_ok hs₁]
      exact hs'

/-- `uvmdealloc` on a tree without shared tables: it is the calls of `kfree` for the user
pages of the range and then for the tables that have become empty, and these are the tables
that the tree has lost. With `kalloc.c` it returns if these are pages of the allocator. -/
theorem uvmdealloc_tidies (shm : ℕ) (pt : PageTable) (oldsz newsz : ℕ)
    (hunshared : ∀ pa, pt.pages pa ≤ 1) (hlt : newsz < oldsz)
    (hround : pgRoundUp64 newsz < pgRoundUp64 oldsz) (htop : pgRoundUp64 oldsz ≤ shmVa)
    (hold : oldsz < 2 ^ 64) :
    ∃ users tables pt', Tidied pt (pgRoundUp64 newsz) (pgRoundUp64 oldsz) tables pt' ∧
      users = unmapped shm pt.leaf (pgRoundUp64 newsz / pgSize)
        ((pgRoundUp64 oldsz - pgRoundUp64 newsz) / pgSize) ∧
      (∀ {σ : Type} [PageAllocator σ] (s : σ), uvmdealloc .assignment7 shm s pt oldsz newsz =
        (fun s => (s, pt', newsz)) <$> freeAll (users ++ tables) s) ∧
      ∀ s : Kmem, (∀ pa ∈ users ++ tables, Frame s.kernelEnd pa) →
        ∃ s', uvmdealloc .assignment7 shm s pt oldsz newsz = .ok (s', pt', newsz) := by
  -- no sum wraps around, for the old size would be rounded to zero
  have hbound : oldsz + pgSize ≤ 2 ^ 64 := by
    unfold pgRoundUp64 at hround
    unfold pgSize at hround ⊢
    omega
  have hround64 : ∀ sz ≤ oldsz, pgRoundUp64 sz = pageCount sz * pgSize := by
    intro sz hsz
    unfold pgRoundUp64 pageCount
    rw [Nat.mod_eq_of_lt]
    have hpos : 0 < pgSize := by decide
    omega
  have hpos : 0 < pgSize := by decide
  rw [hround64 _ le_rfl, hround64 _ hlt.le] at *
  have hcount := Nat.lt_of_mul_lt_mul_right hround
  have hshm : pageCount oldsz ≤ shmPage := Nat.le_of_mul_le_mul_right htop hpos
  have hlay := layout
  obtain ⟨tables, pt', hdealloc, hrun⟩ := uvmdealloc_eq shm pt hcount (by omega)
  rw [← Nat.sub_mul, Nat.mul_div_cancel _ hpos, Nat.mul_div_cancel _ hpos]
  refine ⟨_, tables, pt', hdealloc.tidied hunshared, rfl, hrun, fun s hs => ?_⟩
  obtain ⟨s', hs'⟩ := freeAll_returns _ s hs
  refine ⟨s', ?_⟩
  rw [hrun, hs']
  rfl

/-! ## A tree with one page -/

def onePage : PageTable where
  root := kernBase
  table := setEntry (empty 2) 0 (some (kernBase + pgSize,
    setEntry (empty 1) 0 (some (kernBase + 2 * pgSize,
      setLeaf (empty 0) 0 (some ⟨kernBase + 3 * pgSize, userPerm true false⟩)))))

theorem onePage_pages (pa : ℕ) : onePage.pages pa =
    one kernBase pa + (one (kernBase + pgSize) pa + one (kernBase + 2 * pgSize) pa) := by
  have hother : ∀ k, otherPages (empty (k + 1) : Table (k + 1)) 0 = 0 := fun k =>
    Finset.sum_eq_zero fun i _ => rfl
  rw [PageTable.pages, onePage, pages_setEntry, hother, entryPages_some, pages_setEntry, hother,
    entryPages_some, pages_zero]
  simp only [Pi.add_apply, Pi.zero_apply, Nat.zero_add, Nat.add_zero]

theorem onePage_unshared (pa : ℕ) : onePage.pages pa ≤ 1 := by
  rw [onePage_pages, one_apply, one_apply, one_apply]
  have hpos : 0 < pgSize := by decide
  split_ifs <;> omega

/-- The page goes, and with it the two tables above it; the root stays. -/
theorem uvmdealloc_tidies_onePage : ∃ users tables pt',
    Tidied onePage (pgRoundUp64 0) (pgRoundUp64 pgSize) tables pt' ∧
      users = unmapped 0 onePage.leaf 0 1 := by
  obtain ⟨users, tables, pt', htidied, husers, _⟩ := uvmdealloc_tidies 0 onePage pgSize 0
    onePage_unshared (by decide) (by decide) (by decide) (by decide)
  exact ⟨users, tables, pt', htidied, husers⟩

/-- `PGROUNDUP` of a size in the last page of the address space is 0, and the page 0 stays
mapped: `uvmdealloc` finds that the new size is not below the old one. -/
theorem uvmdealloc_keeps : (∀ pa, onePage.pages pa ≤ 1) ∧
    pgRoundUp64 (2 ^ 64 - 1) < pgRoundUp64 pgSize ∧ pgRoundUp64 pgSize ≤ shmVa ∧
      ∀ s : Kmem, uvmdealloc .assignment7 0 s onePage pgSize (2 ^ 64 - 1) =
          .ok (s, onePage, pgSize) ∧
        ∃ a, pgRoundUp64 (2 ^ 64 - 1) ≤ a ∧ a < pgRoundUp64 pgSize ∧
          onePage.leaf (a / pgSize) ≠ none := by
  refine ⟨onePage_unshared, by decide, by decide, fun s => ⟨if_pos (by decide), 0, by decide,
    by decide, ?_⟩⟩
  have hleaf : onePage.leaf 0 = some ⟨kernBase + 3 * pgSize, userPerm true false⟩ := rfl
  rw [Nat.zero_div, hleaf]
  exact Option.some_ne_none _

end Memory
