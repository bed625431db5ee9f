import Mathlib.Algebra.BigOperators.Intervals
import OsAssignments.Library.MachineInt
import OsAssignments.Memory.Boot
import OsAssignments.Memory.Dealloc
import OsAssignments.Memory.Fresh
import OsAssignments.Memory.Supply

/-!
# When `growproc` does all or nothing

A growth that runs out of pages unmaps what it has mapped, and `uvmdealloc` then prunes the
page table. So the tables that the growth has added go again, but so do tables that were
empty before it; and if the first page fails, `uvmdealloc` is called on an empty range and
prunes nothing, and a table that the walk has added stays. How many pages a growth takes is
known from the page table before it, and with the supply of `kalloc` so is the end it comes
to.
-/

open scoped BigOperators

namespace Memory

open Outcome RefPool RadixTree

/-! ## The tables that a walk adds -/

section Walk

variable {σ : Type} [PageAllocator σ] {supply : σ → ℕ}

/-- `walk` with `alloc` keeps every table and takes as many new ones as it can of those that
are missing. -/
theorem walkLevels_expands (S : Supplied supply) (k : ℕ) (s : σ) (t : Table k) (p : ℕ → Fin 512) :
    ∃ fresh : List ℕ, fresh.length = min (missing k t p) (supply s) ∧
      Extends k t (walkLevels k s t p).2.1 ∧
      ∀ pa, pages k (walkLevels k s t p).2.1 pa = pages k t pa + fresh.count pa := by
  induction k generalizing s with
  | zero => exact ⟨[], (Nat.zero_min _).symm, trivial, fun _ => rfl⟩
  | succ k ih =>
      have hsplit : ∀ pa, pages (k + 1) t pa = otherPages t (p (k + 1)) pa +
          entryPages k (entryAt t (p (k + 1))) pa := fun pa => by
        rw [pages_eq_otherPages t (p (k + 1)), Pi.add_apply]
      cases he : entryAt t (p (k + 1)) with
      | some e =>
          obtain ⟨fresh, hlength, hext, hpages⟩ := ih s e.2
          refine ⟨fresh, ?_, ?_, fun pa => ?_⟩
          · rw [missing_succ_of_some he, hlength]
          · simp only [walkLevels, he]
            refine .setEntry t _ _ fun e' he' => ?_
            cases he.symm.trans he'
            exact ⟨rfl, hext⟩
          · simp only [walkLevels, he]
            rw [hsplit, he, pages_setEntry, Pi.add_apply, entryPages_some, entryPages_some,
              Pi.add_apply, Pi.add_apply, hpages, Nat.add_assoc, Nat.add_assoc]
      | none =>
          rw [missing_succ_of_none he]
          cases hk : kalloc s with
          | mk r s' =>
              cases r with
              | none =>
                  simp only [walkLevels, he, hk]
                  rw [S.kalloc_none hk]
                  refine ⟨[], (Nat.min_zero _).symm, .refl (k + 1) t, fun pa => ?_⟩
                  exact (Nat.add_zero (pages (k + 1) t pa)).symm
              | some page =>
                  simp only [walkLevels, he, hk]
                  obtain ⟨fresh, hlength, _, hpages⟩ := ih (memset page 0 s') (empty k)
                  rw [missing_empty, S.memset] at hlength
                  have hs := S.kalloc_some hk
                  refine ⟨[page] ++ fresh, ?_, ?_, fun pa => ?_⟩
                  · rw [List.singleton_append, List.length_cons]
                    omega
                  · refine .setEntry t _ _ fun e' he' => ?_
                    cases he.symm.trans he'
                  · rw [hsplit, he, entryPages_none, pages_setEntry, Pi.add_apply,
                      entryPages_some, Pi.add_apply, hpages, pages_empty, List.count_append,
                      count_singleton, Pi.zero_apply, zero_add, add_zero]

/-- The page table `pt'` has the tables of `pt` and new ones on the pages `fresh`. -/
structure Expanded (pt : PageTable) (fresh : List ℕ) (pt' : PageTable) : Prop where
  root : pt'.root = pt.root
  extends_table : Extends 2 pt.table pt'.table
  pages : ∀ pa, pt'.pages pa = pt.pages pa + fresh.count pa

theorem Expanded.refl (pt : PageTable) : Expanded pt [] pt :=
  ⟨rfl, .refl 2 _, fun _ => (Nat.add_zero _).symm⟩

theorem mappages_expands (S : Supplied supply) {s : σ} {pt : PageTable} {v pa : ℕ} {perm : Perm}
    (hv : v < maxPage) :
    Yields (fun _ => True) (mappages s pt (v * pgSize) pgSize pa perm) fun r =>
      ∃ fresh : List ℕ, fresh.length = min (missing 2 pt.table (px (v * pgSize))) (supply s) ∧
        Expanded pt fresh r.2.1 := by
  obtain ⟨fresh, hlength, hext, hpages⟩ := walkLevels_expands S 2 s pt.table (px (v * pgSize))
  have hcount : ∀ pa, one pt.root pa + RadixTree.pages 2
      (walkLevels 2 s pt.table (px (v * pgSize))).2.1 pa = pt.pages pa + fresh.count pa := by
    intro pa
    rw [hpages, PageTable.pages, Pi.add_apply, Nat.add_assoc]
  rw [mappages, if_neg (not_not.mpr (Nat.mul_mod_left v pgSize)), if_neg (by decide),
    if_neg (by decide), show pgSize / pgSize = 1 from rfl, mappagesLoop, walkAlloc,
    if_neg (Nat.not_le.mpr (page_lt_maxVa hv)), yields_pure_bind]
  dsimp only
  apply Yields.ite
  · intro _
    exact ⟨fresh, hlength, rfl, hext, hcount⟩
  · intro _
    apply Yields.ite
    · intro _
      trivial
    · intro _
      rw [mappagesLoop, yields_pure]
      refine ⟨fresh, hlength, rfl, hext.trans (.store 2 _ _ _), fun pa => ?_⟩
      rw [PageTable.pages_setPte]
      exact hcount pa

end Walk

/-! ## The pages that a growth takes -/

/-- The tables on the way to the page `w` that are missing when the pages of `pt` from `v₀` up
to `v` have just been mapped, in this order. -/
def stillMissing (pt : PageTable) (v₀ v w : ℕ) : ℕ :=
  if v = v₀ then missing 2 pt.table (px (w * pgSize))
  else min (missing 2 pt.table (px (w * pgSize)))
    (unshared 2 (px ((v - 1) * pgSize)) (px (w * pgSize)))

/-- The pages of memory and of tables that a growth which started at page `v₀` takes from page
`v` on up to page `w`. -/
def growthPages (pt : PageTable) (v₀ v w : ℕ) : ℕ :=
  ∑ u ∈ Finset.Ico v w, (1 + stillMissing pt v₀ u u)

theorem growthPages_of_le (pt : PageTable) (v₀ : ℕ) {v w : ℕ} (h : w ≤ v) :
    growthPages pt v₀ v w = 0 := by
  rw [growthPages, Finset.Ico_eq_empty (Nat.not_lt.mpr h), Finset.sum_empty]

theorem growthPages_step (pt : PageTable) (v₀ : ℕ) {v w : ℕ} (h : v < w) :
    growthPages pt v₀ v w = 1 + stillMissing pt v₀ v v + growthPages pt v₀ (v + 1) w :=
  Finset.sum_eq_sum_Ico_succ_bot h _

theorem unshared_anti {u v w : ℕ} (huv : u ≤ v) (hvw : v ≤ w) (hw : w < 2 ^ 27) :
    unshared 2 (px (v * pgSize)) (px (w * pgSize)) ≤
      unshared 2 (px (u * pgSize)) (px (w * pgSize)) := by
  rw [unshared_px (by omega) hw, unshared_px (by omega) hw]
  split_ifs <;> omega

/-- The page table `pt` of a growth that started with `pt₀` and has mapped the pages from `v₀`
up to `v`. -/
structure Growing (pt₀ : PageTable) (v₀ v : ℕ) (pt : PageTable) : Prop where
  start : v = v₀ → pt = pt₀
  root : pt.root = pt₀.root
  extends_table : Extends 2 pt₀.table pt.table
  outside : ∀ i, i < v₀ ∨ v ≤ i → pt.leaf i = pt₀.leaf i
  missing_eq : ∀ w, v ≤ w → w < 2 ^ 27 →
    missing 2 pt.table (px (w * pgSize)) = stillMissing pt₀ v₀ v w

theorem Growing.refl (pt : PageTable) (v : ℕ) : Growing pt v v pt :=
  ⟨fun _ => rfl, rfl, .refl 2 _, fun _ _ => rfl, fun _ _ _ => (if_pos rfl).symm⟩

variable {σ : Type} {supply : σ → ℕ} {pt₀ pt pt' : PageTable} {v₀ v : ℕ}

theorem Growing.step (h : Growing pt₀ v₀ v pt) (hv : v₀ ≤ v) {n : ℕ} {e : Pte} {s' : σ}
    {fresh : List ℕ} (hmounts : Mounts supply v n e pt s' pt') (hexp : Expanded pt fresh pt') :
    Growing pt₀ v₀ (v + 1) pt' where
  start heq := absurd heq (by omega)
  root := hexp.root.trans h.root
  extends_table := h.extends_table.trans hexp.extends_table
  outside i hi := by
    rw [hmounts.leaf, Function.update_of_ne (by omega)]
    exact h.outside i (by omega)
  missing_eq w hw hlt := by
    rw [hmounts.missing_eq, h.missing_eq w (by omega) hlt, stillMissing, stillMissing,
      if_neg (show ¬ v + 1 = v₀ by omega), Nat.add_sub_cancel]
    by_cases heq : v = v₀
    · rw [if_pos heq]
    · -- the last page shares more tables with `w` than the one before it
      rw [if_neg heq, min_assoc, min_eq_right (unshared_anti (by omega) (by omega) hlt)]

noncomputable def prunedTable (pt : PageTable) : PageTable := { pt with table := prune 2 pt.table }

/-- The roll-back of a growth leaves the page table that it started with, pruned. -/
theorem Growing.rollback [PageAllocator σ] (shm : ℕ) (h : Growing pt₀ v₀ v pt) (hv : v₀ < v)
    (htop : v ≤ maxPage) (hhole : ∀ i, v₀ ≤ i → i < v → pt₀.leaf i = none)
    (hroot : pt'.root = pt.root)
    (hext : Extends 2 pt.table pt'.table) (hleaf : pt'.leaf = pt.leaf) (s : σ) :
    Yields (fun _ => True) (do
      let r ← uvmdealloc .assignment7 shm s pt' (v * pgSize) (v₀ * pgSize)
      pure (r.1, r.2.1, false)) fun r => r.2.2 = false ∧ r.2.1 = prunedTable pt₀ := by
  have hcount := pageCount_mul v
  have hcount₀ := pageCount_mul v₀
  have hlt : pageCount (v₀ * pgSize) < pageCount (v * pgSize) := by omega
  obtain ⟨tables, pt'', hdealloc, hrun⟩ := uvmdealloc_eq shm pt' hlt (by omega)
  rw [hcount, hcount₀] at hdealloc
  obtain ⟨t, hextends, htable⟩ := hdealloc.pruned_table
  have hleaves : pt''.leaf = pt₀.leaf := by
    rw [hdealloc.leaf, hleaf]
    funext i
    unfold clearRange
    split_ifs with hi
    · exact (hhole i hi.1 hi.2).symm
    · exact h.outside i (by omega)
  have hsame : prune 2 t = prune 2 pt₀.table := by
    refine prune_of_extends 2 pt₀.table t ((h.extends_table.trans hext).trans hextends) fun p => ?_
    rw [← lookup_prune, ← htable]
    exact PageTable.lookup_congr hleaves p
  have heq : pt'' = prunedTable pt₀ := by
    have hroot' : pt''.root = pt₀.root := (hdealloc.root.trans hroot).trans h.root
    have htable' : pt''.table = prune 2 pt₀.table := htable.trans hsame
    obtain ⟨root, table⟩ := pt''
    cases hroot'
    cases htable'
    rfl
  rw [hrun, map_eq_pure_bind, bind_assoc]
  exact (yields_true _).bind fun _ _ => ⟨rfl, heq⟩

/-- What the loop of `uvmalloc` from page `v` up to page `w` has made of the page table when it
returns; `n` is the supply it found. If the first page of the growth fails, the tables that the
walk has added stay; if a later one fails, the page table is pruned. -/
structure GrowthOutcome (pt₀ : PageTable) (v₀ v w n : ℕ) (pt' : PageTable) (ok : Bool) : Prop where
  ok_iff : ok = true ↔ growthPages pt₀ v₀ v w ≤ n
  first : ok = false → v = v₀ → n ≤ stillMissing pt₀ v₀ v₀ v₀ →
    ∃ fresh : List ℕ, fresh.length = n - 1 ∧ ∀ pa, pt'.pages pa = pt₀.pages pa + fresh.count pa
  later : ok = false → v₀ < v ∨ stillMissing pt₀ v₀ v₀ v₀ < n → pt' = prunedTable pt₀

theorem Growing.fail [PageAllocator σ] (shm : ℕ) (h : Growing pt₀ v₀ v pt) (hv : v₀ ≤ v) {w n : ℕ}
    (hw : v < w) (htop : w ≤ maxPage) (hhole : ∀ i, v₀ ≤ i → i < w → pt₀.leaf i = none)
    (hn : n ≤ stillMissing pt₀ v₀ v v) {fresh : List ℕ} (hlength : fresh.length = n - 1)
    (hexp : Expanded pt fresh pt') (hleaf : pt'.leaf = pt.leaf) (s : σ) :
    Yields (fun _ => True) (do
      let r ← uvmdealloc .assignment7 shm s pt' (v * pgSize) (v₀ * pgSize)
      pure (r.1, r.2.1, false)) fun r => GrowthOutcome pt₀ v₀ v w n r.2.1 r.2.2 := by
  have hshort : ¬ growthPages pt₀ v₀ v w ≤ n := by
    rw [growthPages_step pt₀ v₀ hw]
    omega
  by_cases heq : v = v₀
  · -- nothing has been mapped, and `uvmdealloc` returns at once
    subst heq
    rw [uvmdealloc, if_pos le_rfl, yields_pure_bind, yields_pure]
    refine ⟨⟨fun hok => absurd hok Bool.false_ne_true, fun hle => absurd hle hshort⟩,
      fun _ _ _ => ?_, ?_⟩
    · refine ⟨fresh, hlength, fun pa => ?_⟩
      rw [hexp.pages, h.start rfl]
    · intro _ hlater
      omega
  · have hlt : v₀ < v := by omega
    apply (h.rollback shm hlt (by omega) (fun i hi hi' => hhole i hi (by omega)) hexp.root
      hexp.extends_table hleaf s).mono
    rintro r ⟨hok, hpt⟩
    rw [hok]
    exact ⟨⟨fun hok => absurd hok Bool.false_ne_true, fun hle => absurd hle hshort⟩,
      fun _ hfirst => absurd hfirst heq, fun _ _ => hpt⟩

theorem uvmallocLoop_grows [PageAllocator σ] (S : Supplied supply) (shm : ℕ) (perm : Perm)
    (n : ℕ) (s : σ) (pt : PageTable) (v : ℕ) (hv : v₀ ≤ v) (htop : v + n ≤ maxPage)
    (hhole : ∀ i, v₀ ≤ i → i < v + n → pt₀.leaf i = none) (h : Growing pt₀ v₀ v pt) :
    Yields (fun _ => True)
      (uvmallocLoop .assignment7 shm perm (v₀ * pgSize) n s pt (v * pgSize)) fun r =>
        GrowthOutcome pt₀ v₀ v (v + n) (supply s) r.2.1 r.2.2 := by
  induction n generalizing s pt v with
  | zero =>
      rw [uvmallocLoop, yields_pure]
      refine ⟨⟨fun _ => ?_, fun _ => rfl⟩, fun hfail => absurd hfail.symm Bool.false_ne_true,
        fun hfail => absurd hfail.symm Bool.false_ne_true⟩
      rw [growthPages_of_le pt₀ v₀ (Nat.le_of_eq (Nat.add_zero v))]
      exact Nat.zero_le _
  | succ n ih =>
      have hmax : v < maxPage := by omega
      have hlt : v < 2 ^ 27 := lt_of_lt_of_le hmax maxPage_le
      have hmissing := h.missing_eq v le_rfl hlt
      cases hk : kalloc s with
      | mk r s' =>
          cases r with
          | none =>
              simp only [uvmallocLoop, hk]
              rw [S.kalloc_none hk]
              have hlength : ([] : List ℕ).length = 0 - 1 := rfl
              exact h.fail shm hv (by omega) htop hhole (Nat.zero_le _) hlength (.refl pt) rfl s'
          | some mem =>
              simp only [uvmallocLoop, hk]
              have hs := S.kalloc_some hk
              have hspec := @mappages_spec σ _ (fun _ => True) 0 (fun _ _ _ => True)
                (Books.trivial _ 0 fun _ => trivial) (memset mem 0 s') pt v mem perm 0 0 hmax
                (fun _ => trivial) trivial
              apply ((hspec.and (mappages_missing S hmax)).and (mappages_expands S hmax)).bind
              rintro r ⟨⟨⟨_, hleaf⟩, hiff, hok⟩, fresh, hlength, hexp⟩
              rw [hmissing, S.memset] at hiff hlength
              cases hmap : r.2.2 with
              | true =>
                  have hmounts := hok hmap
                  have hsupply := hmounts.supply_eq
                  rw [hmissing, S.memset] at hsupply
                  rw [if_pos rfl, ← Nat.succ_mul]
                  apply (ih r.1 r.2.1 (v + 1) (by omega) (by omega)
                    (fun i hi hi' => hhole i hi (by omega)) (h.step hv hmounts hexp)).mono
                  intro r' hr'
                  have hrange : v + 1 + n = v + (n + 1) := by omega
                  rw [hrange] at hr'
                  refine ⟨?_, fun _ heq hle => ?_, fun hfail _ => ?_⟩
                  · rw [hr'.ok_iff, growthPages_step pt₀ v₀ (by omega : v < v + (n + 1))]
                    omega
                  · rw [heq] at hsupply
                    omega
                  · exact hr'.later hfail (Or.inl (by omega))
              | false =>
                  rw [hmap] at hiff hleaf
                  have hshort : supply s' < stillMissing pt₀ v₀ v v :=
                    Nat.not_le.mp fun hle => Bool.false_ne_true (hiff.mpr hle)
                  rw [if_neg Bool.false_ne_true] at hleaf ⊢
                  apply (yields_true _).bind
                  intro s'' _
                  exact h.fail shm hv (by omega) htop hhole (by omega) (by omega) hexp hleaf s''

/-! ## The free pages after a failure -/

/-- A growth from page `v₀` that fails leaves no trace when `n` is the supply: either it fails
before the walk to its first page has added a table, or no table of the page table is empty. -/
def Traceless (n : ℕ) (pt : PageTable) (v₀ : ℕ) : Prop :=
  if n ≤ missing 2 pt.table (px (v₀ * pgSize)) then n ≤ 1 else Tidy 2 pt.table

theorem prunedTable_pages_iff (pt : PageTable) :
    (prunedTable pt).pages = pt.pages ↔ Tidy 2 pt.table := by
  rw [← pages_prune_eq_iff]
  exact add_right_inj (one pt.root)

theorem GrowthOutcome.pages_eq_iff {w n : ℕ} (h : GrowthOutcome pt v v w n pt' false) :
    pt'.pages = pt.pages ↔ Traceless n pt v := by
  have hself : stillMissing pt v v v = missing 2 pt.table (px (v * pgSize)) := if_pos rfl
  obtain ⟨_, hfirst, hlater⟩ := h
  rw [hself] at hfirst hlater
  unfold Traceless
  split_ifs with hn
  · obtain ⟨fresh, hlength, hpages⟩ := hfirst rfl rfl hn
    have hnil : n ≤ 1 ↔ fresh = [] := by
      rw [← List.length_eq_zero_iff]
      omega
    rw [hnil, List.eq_nil_iff_forall_not_mem, funext_iff]
    refine forall_congr' fun pa => ?_
    rw [hpages, ← List.count_eq_zero]
    omega
  · rw [hlater rfl (Or.inr (by omega))]
    exact prunedTable_pages_iff pt

/-- Books that differ in the tables of one page table differ in the free pages. -/
theorem Kmem.Balanced.perm_iff {kernelEnd : ℕ} {reserved user owned tables tables' : ℕ → ℕ}
    {s s' : Kmem} (h : Kmem.Balanced kernelEnd reserved s user (owned + tables))
    (h' : Kmem.Balanced kernelEnd reserved s' user (owned + tables')) :
    s'.freelist.Perm s.freelist ↔ tables' = tables := by
  constructor
  · intro hperm
    funext pa
    have hfree : _ ↔ _ := (h'.2.mem_free pa).symm.trans (hperm.mem_iff.trans (h.2.mem_free pa))
    have hexcl := h.2.exclusive pa
    have hexcl' := h'.2.exclusive pa
    have hheld := h.2.valid_of_held pa
    have hheld' := h'.2.valid_of_held pa
    simp only [Pi.add_apply] at hfree hexcl hexcl' hheld hheld'
    -- a page of a table is in no other place, so it is free without the table
    by_contra hne
    by_cases hzero : tables pa = 0
    · have := hexcl' (by omega)
      have := hfree.mpr ⟨hheld' (by omega), by omega⟩
      omega
    · have := hexcl (by omega)
      have := hfree.mp ⟨hheld (by omega), by omega⟩
      omega
  · rintro rfl
    exact h.freelist_perm h'

/-! ## growproc -/

open Machine

section Growproc

variable {nproc : ℕ} {g : Globals} {m : Machine Kmem nproc} {i : Fin nproc} {p : Space} {n : ℤ}
  {kernelEnd : ℕ} {reserved user owned : ℕ → ℕ}

/-- What `growproc` finds of the process or thread `p`: it is well mapped, and the books count
its user pages and its tables beside what others hold. -/
structure Holder (kernelEnd : ℕ) (reserved user owned : ℕ → ℕ) (g : Globals)
    (m : Machine Kmem nproc) (p : Space) : Prop where
  kernBase_le : kernBase ≤ kernelEnd
  shm_reserved : 0 < reserved g.shmPagePa
  wellMapped : p.WellMapped g
  books : Kmem.Balanced kernelEnd reserved m.mem (user + userCount p.pagetable.leaf)
    (owned + p.pagetable.pages)

theorem Holder.of_inv (hend : kernBase ≤ kernelEnd) (hshm : 0 < reserved g.shmPagePa)
    (h : Inv (Kmem.Balanced kernelEnd reserved) g m) (hp : m.proc i = some p) :
    Holder kernelEnd reserved (m.userOff i) (m.ownedOff i + one p.trapframe) g m p :=
  ⟨hend, hshm, h.spaces i p hp, books_off h.books hp⟩

/-- `uvmalloc` from the size of `p` on: the pages are mapped if the supply covers them, and
otherwise the leaves are as before, and the free pages are if the failure is traceless. -/
theorem uvmalloc_supply (hc : Holder kernelEnd reserved user owned g m p) {perm : Perm} {newsz : ℕ}
    (hle : p.sz ≤ newsz) (hnew : newsz ≤ shmVa) :
    Yields (fun _ => False)
      (uvmalloc .assignment7 g.shmPagePa m.mem p.pagetable p.sz newsz perm) fun r =>
        if growthPages p.pagetable (pageCount p.sz) (pageCount p.sz) (pageCount newsz) ≤
            m.mem.supply then
          r.2.2 = newsz ∧
            Grown perm p.pagetable.leaf r.2.1.leaf (pageCount p.sz) (pageCount newsz) ∧
            Fills (fun _ => Kmem.Zeroed) m.mem r.1 r.2.1.leaf
              {v | pageCount p.sz ≤ v ∧ v < pageCount newsz}
        else
          r.2.2 = 0 ∧ r.2.1.leaf = p.pagetable.leaf ∧
            (r.1.freelist.Perm m.mem.freelist ↔
              Traceless m.mem.supply p.pagetable (pageCount p.sz)) := by
  have B : Books (fun _ => False) g.shmPagePa (Kmem.Balanced kernelEnd reserved) :=
    Kmem.books _ hc.kernBase_le hc.shm_reserved
  have hcount : pageCount p.sz + (pageCount newsz - pageCount p.sz) = pageCount newsz :=
    Nat.add_sub_cancel' (pageCount_mono hle)
  have hold := pageCount_le_shmPage hc.wellMapped.sz_le
  have htop := pageCount_le_shmPage hnew
  have hlay := layout
  have hhole := hc.wellMapped.shape.hole
  have hspec : Yields (fun _ => False) (uvmallocLoop .assignment7 g.shmPagePa perm
      (pageCount p.sz * pgSize) (pageCount newsz - pageCount p.sz) m.mem p.pagetable
      (pageCount p.sz * pgSize)) _ :=
    uvmallocLoop_spec B perm (pageCount p.sz) (pageCount newsz - pageCount p.sz) m.mem p.pagetable
      (pageCount p.sz) le_rfl (fun i hi hi' => absurd hi' (Nat.not_lt.mpr hi)) (by omega)
      (Or.inl (by omega)) hhole hc.books
  have hfills := uvmallocLoop_fills .assignment7 g.shmPagePa perm (pageCount p.sz * pgSize)
    (pageCount newsz - pageCount p.sz) m.mem p.pagetable (pageCount p.sz) (by omega) hc.books.sound
  have hgrows := uvmallocLoop_grows Kmem.supplied g.shmPagePa perm
    (pageCount newsz - pageCount p.sz) m.mem p.pagetable (pageCount p.sz) le_rfl (by omega)
    (fun i hi hi' => hhole i hi (by omega)) (.refl p.pagetable (pageCount p.sz))
  rw [uvmalloc, if_neg (Nat.not_lt.mpr hle), pgRoundUp_eq]
  apply ((hspec.and hfills).and hgrows).bind
  rintro r ⟨⟨⟨hfail, hok⟩, hfills⟩, hout⟩
  rw [hcount] at hok hfills hout
  rw [yields_pure]
  dsimp only
  cases hr : r.2.2 with
  | true =>
      rw [if_pos (hout.ok_iff.mp hr)]
      exact ⟨rfl, (hok hr htop).2, (hfills hr).2⟩
  | false =>
      obtain ⟨hR, hleaf⟩ := hfail hr
      have hleaf' : r.2.1.leaf = p.pagetable.leaf := hleaf.trans (hhole.clearRange hold)
      rw [hleaf'] at hR
      rw [hr] at hout
      rw [if_neg fun hle => Bool.false_ne_true (hout.ok_iff.mpr hle)]
      exact ⟨rfl, hleaf', (hc.books.perm_iff hR).trans hout.pages_eq_iff⟩

/-- `uvmdealloc` to a smaller size; it returns if the size of `p` is at most `SHM_VA`. -/
theorem uvmdealloc_shrinks (hc : p.sz ≤ shmVa → Holder kernelEnd reserved user owned g m p)
    (htop : p.sz ≤ trapframeVa) {newsz : ℕ} (hlt : newsz < p.sz) :
    Yields (fun _ => shmVa < p.sz)
      (uvmdealloc .assignment7 g.shmPagePa m.mem p.pagetable p.sz newsz) fun r =>
        r.2.2 = newsz ∧
          r.2.1.leaf = clearRange p.pagetable.leaf (pageCount newsz) (pageCount p.sz) := by
  have hreturns : Yields (fun _ => shmVa < p.sz)
      (uvmdealloc .assignment7 g.shmPagePa m.mem p.pagetable p.sz newsz) fun _ => True := by
    by_cases hfit : p.sz ≤ shmVa
    · have hc := hc hfit
      have B : Books (fun _ => shmVa < p.sz) g.shmPagePa (Kmem.Balanced kernelEnd reserved) :=
        Kmem.books _ hc.kernBase_le hc.shm_reserved
      have K : Kernel.assignment7.Spares (fun _ => shmVa < p.sz)
          (NoHole p.pagetable.leaf (pageCount newsz) (pageCount p.sz)) := fun hk => nomatch hk
      exact (uvmdealloc_spec B K (pageCount_le_shmPage hfit) hc.books).mono fun _ _ => trivial
    · exact (yields_true _).weaken fun _ _ => Nat.not_le.mp hfit
  have hresult : Yields (fun _ => True)
      (uvmdealloc .assignment7 g.shmPagePa m.mem p.pagetable p.sz newsz) fun r =>
        r.2.2 = newsz ∧
          r.2.1.leaf = clearRange p.pagetable.leaf (pageCount newsz) (pageCount p.sz) := by
    by_cases hcount : pageCount newsz < pageCount p.sz
    · have hmax : pageCount p.sz ≤ maxPage := by
        have hlay := layout
        have hpages : pageCount p.sz ≤ trapframePage := pageCount_le_iff.mpr htop
        omega
      obtain ⟨tables, pt', hdealloc, hrun⟩ := uvmdealloc_eq g.shmPagePa p.pagetable hcount hmax
      rw [hrun]
      apply Yields.map
      exact (yields_true _).mono fun _ _ => ⟨rfl, hdealloc.leaf⟩
    · have hround : ¬ pgRoundUp newsz < pgRoundUp p.sz := by
        rw [pgRoundUp_eq, pgRoundUp_eq]
        exact fun hround => hcount (Nat.lt_of_mul_lt_mul_right hround)
      rw [uvmdealloc, if_neg (Nat.not_le.mpr hlt), if_neg hround, yields_pure]
      exact ⟨rfl, (clearRange_of_le _ (Nat.not_lt.mp hcount)).symm⟩
  exact (hreturns.and hresult).mono fun _ hr => hr.2

/-- The size has become `p.sz + n`: a growth has mapped fresh zeroed pages between the two
sizes, each of them once, and a shrinking has unmapped the pages there. -/
structure ResizedBy (p : Space) (n : ℤ) (s s' : Kmem) (pt : PageTable) (sz : ℕ) : Prop where
  sz_eq : (sz : ℤ) = p.sz + n
  grown : 0 ≤ n →
    Grown (userPerm true false) p.pagetable.leaf pt.leaf (pageCount p.sz) (pageCount sz)
  fresh : 0 ≤ n →
    Fills (fun _ => Kmem.Zeroed) s s' pt.leaf {v | pageCount p.sz ≤ v ∧ v < pageCount sz}
  shrunk : n ≤ 0 → pt.leaf = clearRange p.pagetable.leaf (pageCount sz) (pageCount p.sz)

/-- The size, the leaves and the set of free pages are as they were. -/
structure LeftAlone (p : Space) (s s' : Kmem) (pt : PageTable) (sz : ℕ) : Prop where
  sz_eq : sz = p.sz
  leaf : pt.leaf = p.pagetable.leaf
  freelist : s'.freelist.Perm s.freelist

/-- `growproc(n)` by the process `p` in slot `i` has returned `r`, and has changed no other
slot: it has resized `p`, or it has failed and left everything alone. -/
def AllOrNothing (m : Machine Kmem nproc) (i : Fin nproc) (p : Space) (n : ℤ)
    (r : Machine Kmem nproc × Bool) : Prop :=
  ∃ pt sz, r.1.proc = Function.update m.proc i (some { p with pagetable := pt, sz := sz }) ∧
    if r.2 then ResizedBy p n m.mem r.1.mem pt sz else LeftAlone p m.mem r.1.mem pt sz

theorem allOrNothing_put_iff {s : Kmem} {pt : PageTable} {sz : ℕ} {ok : Bool} :
    AllOrNothing m i p n (m.put s i (some { p with pagetable := pt, sz := sz }), ok) ↔
      if ok then ResizedBy p n m.mem s pt sz else LeftAlone p m.mem s pt sz := by
  constructor
  · rintro ⟨pt', sz', hproc, h⟩
    have hi := congrFun hproc i
    rw [Function.update_self, put_proc_self] at hi
    cases hi
    exact h
  · exact fun h => ⟨pt, sz, rfl, h⟩

/-- The new size is not negative, and a growth has the pages it needs or fails without a
trace. -/
def Whole (s : Kmem) (p : Space) (n : ℤ) : Prop :=
  0 ≤ (p.sz : ℤ) + n ∧
    (growthPages p.pagetable (pageCount p.sz) (pageCount p.sz) (pageCount (addSz p.sz n)) ≤
        s.supply ∨
      Traceless s.supply p.pagetable (pageCount p.sz))

theorem growproc_grows_iff (hc : Holder kernelEnd reserved user owned g m p) (hpos : 0 < n)
    (hto : (p.sz : ℤ) + n ≤ shmVa) :
    Yields (fun _ => False) (growproc .assignment7 g m i p n) fun r =>
      AllOrNothing m i p n r ↔ Whole m.mem p n := by
  have hnew : (addSz p.sz n : ℤ) = p.sz + n := by
    have hshm : shmVa < 2 ^ 64 := by decide
    unfold addSz
    omega
  have hle : addSz p.sz n ≤ shmVa := by omega
  have htop : ¬ addSz p.sz n > trapframeVa := by
    have hshm : shmVa ≤ trapframeVa := by decide
    omega
  have hne : addSz p.sz n ≠ 0 := by omega
  rw [growproc, if_pos hpos, if_neg htop]
  apply (uvmalloc_supply hc (by omega) hle).bind
  intro r hr
  by_cases hsupply : growthPages p.pagetable (pageCount p.sz) (pageCount p.sz)
      (pageCount (addSz p.sz n)) ≤ m.mem.supply
  · rw [if_pos hsupply] at hr
    obtain ⟨hsz, hgrown, hfills⟩ := hr
    rw [hsz, if_neg hne, yields_pure, allOrNothing_put_iff]
    refine iff_of_true ⟨hnew, fun _ => hgrown, fun _ => hfills, fun hle => ?_⟩
      ⟨by omega, Or.inl hsupply⟩
    omega
  · rw [if_neg hsupply] at hr
    obtain ⟨hzero, hleaf, hperm⟩ := hr
    have hput : AllOrNothing m i p n (m.put r.1 i (some { p with pagetable := r.2.1 }), false) ↔
        LeftAlone p m.mem r.1 r.2.1 p.sz := allOrNothing_put_iff
    rw [if_pos hzero, yields_pure, hput]
    refine ⟨fun h => ?_, fun h => ?_⟩
    · exact ⟨by omega, Or.inr (hperm.mp h.freelist)⟩
    · exact ⟨rfl, hleaf, hperm.mpr (h.2.resolve_left hsupply)⟩

theorem growproc_shrinks_iff (hc : p.sz ≤ shmVa → Holder kernelEnd reserved user owned g m p)
    (hn : MachineInt.Fits 32 n) (hneg : n < 0) (htop : p.sz ≤ trapframeVa) :
    Yields (fun _ => shmVa < p.sz) (growproc .assignment7 g m i p n) fun r =>
      AllOrNothing m i p n r ↔ Whole m.mem p n := by
  have hfits : -2 ^ 31 ≤ n := hn.1
  have htrap : trapframeVa < 2 ^ 63 := by decide
  rw [growproc, if_neg (by omega), if_pos hneg]
  by_cases hzero : 0 ≤ (p.sz : ℤ) + n
  · have hnew : (addSz p.sz n : ℤ) = p.sz + n := by
      unfold addSz
      omega
    apply (uvmdealloc_shrinks hc htop (by omega)).bind
    rintro r ⟨hsz, hleaf⟩
    rw [yields_pure, allOrNothing_put_iff, hsz]
    refine iff_of_true ⟨hnew, fun hle => ?_, fun hle => ?_, fun _ => hleaf⟩ ⟨hzero, Or.inl ?_⟩
    · omega
    · omega
    · rw [growthPages_of_le _ _ (pageCount_mono (by omega))]
      exact Nat.zero_le _
  · -- the sum has wrapped, and `uvmdealloc` returns the old size
    have hwrap : addSz p.sz n ≥ p.sz := by
      unfold addSz
      omega
    rw [uvmdealloc, if_pos hwrap, yields_pure_bind, yields_pure, allOrNothing_put_iff]
    refine iff_of_false (fun h => ?_) fun h => hzero h.1
    have hsz := h.sz_eq
    omega

/-- `growproc(n)`, for every `n` that takes the size no further than `SHM_VA` and wherever
`kalloc` fails, does all or nothing exactly when the new size is not negative and a growth
that fails is traceless. It returns if the size has not passed `SHM_VA` already. -/
theorem growproc_allOrNothing_iff
    (hc : p.sz ≤ shmVa → Holder kernelEnd reserved user owned g m p) (hp : m.proc i = some p)
    (htop : p.sz ≤ trapframeVa) (hn : MachineInt.Fits 32 n) (hto : (p.sz : ℤ) + n ≤ shmVa) :
    Yields (fun _ => shmVa < p.sz) (growproc .assignment7 g m i p n) fun r =>
      AllOrNothing m i p n r ↔ Whole m.mem p n := by
  rcases lt_trichotomy n 0 with hneg | rfl | hpos
  · exact growproc_shrinks_iff hc hn hneg htop
  · have hnew : addSz p.sz 0 = p.sz := by
      have htrap : trapframeVa < 2 ^ 64 := by decide
      unfold addSz
      omega
    rw [growproc, if_neg (lt_irrefl 0), if_neg (lt_irrefl 0), yields_pure]
    refine iff_of_true ⟨p.pagetable, p.sz, ?_, ?_⟩ ⟨by omega, Or.inl ?_⟩
    · exact (Function.update_eq_self_iff.mpr hp.symm).symm
    · refine ⟨(add_zero _).symm, fun _ => ⟨fun _ _ => rfl, fun v hv hv' => absurd hv' (by omega)⟩,
        fun _ => .nil _ _ fun v hv => ?_, fun _ => (clearRange_self _ _).symm⟩
      have := hv.1
      have := hv.2
      omega
    · rw [hnew, growthPages_of_le _ _ le_rfl]
      exact Nat.zero_le _
  · exact (growproc_grows_iff (hc (by omega)) hpos hto).weaken fun _ h => h.elim

end Growproc

/-! ## The first process grows -/

theorem bootImage_grows : Yields (fun _ => False)
    (bootImage (physTop - 20 * pgSize) kernBase []) fun r => ∃ x ∈ r, ∃ p ∈ x.2.proc 0,
      (p.sz : ℤ) + pgSize ≤ shmVa ∧
        growthPages p.pagetable (pageCount p.sz) (pageCount p.sz) (pageCount (addSz p.sz pgSize)) ≤
          x.2.mem.supply ∧
        Yields (fun _ => False) (growproc .assignment7 x.1 x.2 0 p pgSize) fun r =>
          r.2 = true := by
  decide +kernel

/-- The growth of the first process by a page does all of it. -/
theorem growproc_allOrNothing_first : ∃ (g : Globals) (m m' : Machine Kmem 2) (p : Space),
    Boot g {g.shmPagePa} m ∧ m.proc 0 = some p ∧
      growproc .assignment7 g m 0 p pgSize = .ok (m', true) ∧
      AllOrNothing m 0 p pgSize (m', true) := by
  obtain ⟨x, hb, p, hp, hrun⟩ := exists_boot bootImage_grows
  obtain ⟨n, hn⟩ : ∃ n : ℤ, n = pgSize := ⟨_, rfl⟩
  have hfits : MachineInt.Fits 32 n := hn ▸ by decide
  rw [← hn] at hrun ⊢
  obtain ⟨hto, hsupply, hgrow⟩ := hrun
  obtain ⟨⟨m', ok⟩, hr, hok⟩ := hgrow.exists_eq_ok
  cases hok
  have hc := Holder.of_inv hb.kernBase_le (reservedCount_pos hb.shm_mem) hb.inv hp
  have htop : p.sz ≤ trapframeVa := hc.wellMapped.sz_le.trans (by decide)
  have hiff := growproc_allOrNothing_iff (fun _ => hc) hp htop hfits hto
  exact ⟨x.1, x.2, m', p, hb, hp, hr, (hiff.of_eq_ok hr).mpr ⟨by omega, Or.inl hsupply⟩⟩

/-- The first process moves its size to the next gigabyte, without pages, and then grows by one
page while the supply is two: the page and one of the two tables on the way to it. -/
theorem bootImage_runsOut : Yields (fun _ => False)
    (bootImage (physTop - 20 * pgSize) kernBase (List.replicate 10 false ++ [true])) fun r =>
      ∃ x ∈ r, ∃ p ∈ x.2.proc 0,
        Yields (fun _ => False) (sysSbrk .assignment7 x.1 x.2 0 p (2 ^ 30 - pgSize) true) fun r₁ =>
          r₁.2 = some pgSize ∧ ∃ q ∈ r₁.1.proc 0, q.sz = 2 ^ 30 ∧
            Yields (fun _ => False) (growproc .assignment7 x.1 r₁.1 0 q pgSize) fun r₂ =>
              r₂.2 = false ∧ r₂.1.mem.freelist.length + 1 = r₁.1.mem.freelist.length := by
  decide +kernel

/-- The growth returns `-1`, and a page that was free is a table now. -/
theorem growproc_leaves_table : ∃ (g : Globals) (m m₁ m₂ : Machine Kmem 2) (p q : Space),
    Boot g {g.shmPagePa} m ∧ m.proc 0 = some p ∧
      sysSbrk .assignment7 g m 0 p (2 ^ 30 - pgSize) true = .ok (m₁, some pgSize) ∧
      m₁.proc 0 = some q ∧ (q.sz : ℤ) + pgSize ≤ shmVa ∧
      growproc .assignment7 g m₁ 0 q pgSize = .ok (m₂, false) ∧
      ¬ AllOrNothing m₁ 0 q pgSize (m₂, false) := by
  obtain ⟨x, hb, p, hp, hrun⟩ := exists_boot bootImage_runsOut
  have hto : ((2 ^ 30 : ℕ) : ℤ) + pgSize ≤ shmVa := by decide
  generalize (2 ^ 30 - pgSize : ℤ) = k at hrun ⊢
  generalize (pgSize : ℤ) = n at hrun hto ⊢
  obtain ⟨⟨m₁, o⟩, hr₁, ho, q, hq, hsz, hgrow⟩ := hrun.exists_eq_ok
  obtain ⟨⟨m₂, ok⟩, hr₂, hok, hlength⟩ := hgrow.exists_eq_ok
  cases ho
  cases hok
  refine ⟨x.1, x.2, m₁, m₂, p, q, hb, hp, hr₁, hq, hsz ▸ hto, hr₂, ?_⟩
  rintro ⟨pt, sz, _, hleft⟩
  have hperm : m₂.mem.freelist.Perm m₁.mem.freelist := LeftAlone.freelist hleft
  have hequal := hperm.length_eq
  change m₂.mem.freelist.length + 1 = m₁.mem.freelist.length at hlength
  omega

end Memory
