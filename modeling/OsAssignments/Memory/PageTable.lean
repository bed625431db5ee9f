import Mathlib.Data.List.FinRange
import OsAssignments.Library.RadixTree
import OsAssignments.Memory.Kalloc

/-!
# Page tables

The three-level page tables of `vm.c`. A page table is the page of its root and
the radix tree below it; a leaf holds the page it maps and its permission bits. A
virtual address is cut into three indices by `px`, and the leaf of the page
numbered `v`, which starts at the address `v * PGSIZE`, is `pt.leaf v`.

The functions keep the source's names and take the allocator's state `s` along.
Each of the specifications says what the function does to `leaf`, and that the
books stay balanced while it trades table pages with the allocator.
-/

open scoped BigOperators

namespace Memory

open Outcome RefPool RadixTree

/-- The permission bits of a leaf. A valid entry without `PTE_R`, `PTE_W` and
`PTE_X` is a pointer to a table, so a leaf has one of them. -/
structure Perm where
  r : Bool
  w : Bool
  x : Bool
  u : Bool
  leaf : (r || w || x) = true
  deriving DecidableEq

/-- `(*pte & (PTE_R | PTE_W | PTE_X)) != 0`. -/
def Perm.isLeaf (p : Perm) : Bool := p.r || p.w || p.x

@[simp] theorem Perm.isLeaf_eq_true (p : Perm) : p.isLeaf = true := p.leaf

/-- A valid leaf entry: `PTE2PA` and the permission bits. -/
structure Pte where
  pa : ℕ
  perm : Perm
  deriving DecidableEq

/-- A table of height `k`. -/
abbrev Table : ℕ → Type := Node (Fin 512) ℕ Pte

/-- A page table: the page of its root, and the root table. -/
structure PageTable where
  root : ℕ
  table : Table 2

/-- The indices of a table in the order the loops of `vm.c` visit them. -/
@[irreducible] def indices : List (Fin 512) := List.finRange 512

theorem mem_indices (i : Fin 512) : i ∈ indices := by
  unfold indices
  exact List.mem_finRange i

def maxVa : ℕ := 2 ^ 38

/-- `MAXVA / PGSIZE`: the number of pages that can be mapped. -/
def maxPage : ℕ := 2 ^ 26

/-- The page number of `TRAMPOLINE`. -/
def trampolinePage : ℕ := maxPage - 1

/-- The page number of `TRAPFRAME`. -/
def trapframePage : ℕ := maxPage - 2

/-- The page number of `SHM_VA`. -/
def shmPage : ℕ := maxPage - 3

/-- `TRAMPOLINE`. -/
def trampolineVa : ℕ := trampolinePage * pgSize

/-- `TRAPFRAME`. -/
def trapframeVa : ℕ := trapframePage * pgSize

def shmVa : ℕ := shmPage * pgSize

def px (va level : ℕ) : Fin 512 := ⟨va / pgSize / 512 ^ level % 512, Nat.mod_lt _ (by decide)⟩

namespace PageTable

/-- The leaf of the page numbered `v`. -/
def leaf (pt : PageTable) (v : ℕ) : Option Pte :=
  if v < 2 ^ 27 then lookup 2 pt.table (px (v * pgSize)) else none

/-- The slot that `walk` returns a pointer to exists. -/
def HasSlot (pt : PageTable) (v : ℕ) : Prop := (find 2 pt.table (px (v * pgSize))).isSome

def pages (pt : PageTable) : ℕ → ℕ := one pt.root + RadixTree.pages 2 pt.table

/-- Write the entry that `walk` points to. -/
def setPte (pt : PageTable) (va : ℕ) (e : Option Pte) : PageTable :=
  { pt with table := store 2 pt.table (px va) e }

end PageTable

/-! ## vm.c -/

section Code

variable {σ : Type} [PageAllocator σ]

/-- `walk(pagetable, va, 0)`: `none` when a table is missing, otherwise the entry
pointed to, which is `none` when `PTE_V` is clear. -/
def walk (pt : PageTable) (va : ℕ) : Except Panic (Option (Option Pte)) :=
  if va ≥ maxVa then throw .walk else pure (find 2 pt.table (px va))

/-- The loop of `walk(pagetable, va, 1)` over the levels; `false` when `kalloc`
fails. -/
def walkLevels : (k : ℕ) → σ → Table k → (ℕ → Fin 512) → σ × Table k × Bool
  | 0, s, t, _ => (s, t, true)
  | k + 1, s, t, p =>
      match entryAt t (p (k + 1)) with
      | some e =>
          let r := walkLevels k s e.2 p
          (r.1, setEntry t (p (k + 1)) (some (e.1, r.2.1)), r.2.2)
      | none =>
          match kalloc s with
          | (none, s) => (s, t, false)
          | (some page, s) =>
              let r := walkLevels k (memset page 0 s) (empty k) p
              (r.1, setEntry t (p (k + 1)) (some (page, r.2.1)), r.2.2)

/-- `walk(pagetable, va, 1)`. -/
def walkAlloc (s : σ) (pt : PageTable) (va : ℕ) : Except Panic (σ × PageTable × Bool) :=
  if va ≥ maxVa then
    throw .walk
  else
    let r := walkLevels 2 s pt.table (px va)
    pure (r.1, { pt with table := r.2.1 }, r.2.2)

/-- `walkaddr(pagetable, va)`; `none` stands for `0`. -/
def walkaddr (pt : PageTable) (va : ℕ) : Except Panic (Option ℕ) :=
  if va ≥ maxVa then
    pure none
  else do
    match ← walk pt va with
    | some (some pte) => pure (if pte.perm.u then some pte.pa else none)
    | _ => pure none

/-- The loop of `mappages`, with `n` pages to go. -/
def mappagesLoop : ℕ → σ → PageTable → ℕ → ℕ → Perm → Except Panic (σ × PageTable × Bool)
  | 0, s, pt, _, _, _ => pure (s, pt, true)
  | n + 1, s, pt, a, pa, perm => do
      let r ← walkAlloc s pt a
      if r.2.2 = false then
        pure (r.1, r.2.1, false)
      else if (lookup 2 r.2.1.table (px a)).isSome then
        throw .mappagesRemap
      else
        mappagesLoop n r.1 (r.2.1.setPte a (some ⟨pa, perm⟩)) (a + pgSize) (pa + pgSize) perm

/-- `mappages(pagetable, va, size, pa, perm)`; `false` stands for `-1`. -/
def mappages (s : σ) (pt : PageTable) (va size pa : ℕ) (perm : Perm) :
    Except Panic (σ × PageTable × Bool) :=
  if va % pgSize ≠ 0 then
    throw .mappagesVaNotAligned
  else if size % pgSize ≠ 0 then
    throw .mappagesSizeNotAligned
  else if size = 0 then
    throw .mappagesSize
  else
    mappagesLoop (size / pgSize) s pt va pa perm

/-- The loop of `uvmunmap`, with `n` pages to go. `shm` is `shm_page_pa`. -/
def uvmunmapLoop (shm : ℕ) (doFree : Bool) : ℕ → σ → PageTable → ℕ → Except Panic (σ × PageTable)
  | 0, s, pt, _ => pure (s, pt)
  | n + 1, s, pt, a => do
      match ← walk pt a with
      | none => throw .uvmunmapWalk
      | some none => throw .uvmunmapNotMapped
      | some (some pte) =>
          if pte.perm.isLeaf = false then
            throw .uvmunmapNotALeaf
          else if doFree ∧ pte.pa ≠ shm then do
            let s ← kfree pte.pa s
            uvmunmapLoop shm doFree n s (pt.setPte a none) (a + pgSize)
          else
            uvmunmapLoop shm doFree n s (pt.setPte a none) (a + pgSize)

def uvmunmap (shm : ℕ) (s : σ) (pt : PageTable) (va npages : ℕ) (doFree : Bool) :
    Except Panic (σ × PageTable) :=
  if va % pgSize ≠ 0 then
    throw .uvmunmapNotAligned
  else
    uvmunmapLoop shm doFree npages s pt va

/-- The loop of `uvmunmap_sparse`, with `n` pages to go. -/
def uvmunmapSparseLoop (shm : ℕ) : ℕ → σ → PageTable → ℕ → Except Panic (σ × PageTable)
  | 0, s, pt, _ => pure (s, pt)
  | n + 1, s, pt, i => do
      match ← walk pt i with
      | some (some pte) =>
          if pte.perm.isLeaf then do
            let r ← uvmunmap shm s pt i 1 true
            uvmunmapSparseLoop shm n r.1 r.2 (i + pgSize)
          else
            uvmunmapSparseLoop shm n s pt (i + pgSize)
      | _ => uvmunmapSparseLoop shm n s pt (i + pgSize)

def uvmunmapSparse (shm : ℕ) (s : σ) (pt : PageTable) (start stop : ℕ) :
    Except Panic (σ × PageTable) :=
  if start % pgSize ≠ 0 ∨ stop % pgSize ≠ 0 then
    throw .uvmunmapSparseAlignment
  else
    uvmunmapSparseLoop shm ((stop - start) / pgSize) s pt start

/-- `free_empty_tables(pagetable)`; the flag is the value it returns. -/
def freeEmptyTables : (k : ℕ) → σ → Table k → Except Panic (σ × Table k × Bool)
  | 0, s, t => pure (s, t, indices.all fun i => (leafAt t i).isNone)
  | k + 1, s, t =>
      indices.foldlM
        (fun acc i =>
          match entryAt acc.2.1 i with
          | none => pure acc
          | some e => do
              let r ← freeEmptyTables k acc.1 e.2
              if r.2.2 then do
                let s ← kfree e.1 r.1
                pure (s, setEntry acc.2.1 i none, acc.2.2)
              else
                pure (r.1, setEntry acc.2.1 i (some (e.1, r.2.1)), false))
        (s, t, true)

/-- `freewalk(pagetable)` on the table `t` in the page `page`. -/
def freewalk : (k : ℕ) → σ → ℕ → Table k → Except Panic σ
  | 0, s, page, t =>
      if indices.all fun i => (leafAt t i).isNone then
        kfree page s
      else
        throw .freewalkLeaf
  | k + 1, s, page, t => do
      let r ← indices.foldlM
        (fun acc i =>
          match entryAt acc.2 i with
          | none => pure acc
          | some e => do
              let s ← freewalk k acc.1 e.1 e.2
              pure (s, setEntry acc.2 i none))
        (s, t)
      kfree page r.1

end Code

/-! ## Addresses -/

theorem layout : shmPage + 1 = trapframePage ∧ trapframePage + 1 = trampolinePage ∧
    trampolinePage + 1 = maxPage := by decide

theorem shmPage_lt : shmPage < maxPage := by decide

theorem maxPage_le : maxPage ≤ 2 ^ 27 := by decide

theorem page_lt_maxVa {v : ℕ} (h : v < maxPage) : v * pgSize < maxVa := by
  have hmax : maxVa = maxPage * pgSize := by decide
  rw [hmax]
  exact Nat.mul_lt_mul_of_pos_right h (by decide)

theorem px_mul_pgSize (v level : ℕ) : (px (v * pgSize) level : ℕ) = v / 512 ^ level % 512 := by
  change v * pgSize / pgSize / 512 ^ level % 512 = v / 512 ^ level % 512
  rw [Nat.mul_div_cancel v (by decide)]

theorem px_apart {v w : ℕ} (hv : v < 2 ^ 27) (hw : w < 2 ^ 27) (hne : v ≠ w) :
    Apart 2 (px (v * pgSize)) (px (w * pgSize)) := by
  by_contra hsame
  have hdigit : ∀ j ≤ 2, v / 512 ^ j % 512 = w / 512 ^ j % 512 := by
    intro j hj
    by_contra hj'
    apply hsame
    refine ⟨j, hj, ?_⟩
    intro heq
    have := congrArg Fin.val heq
    rw [px_mul_pgSize, px_mul_pgSize] at this
    exact hj' this
  have h0 := hdigit 0 (by decide)
  have h1 := hdigit 1 (by decide)
  have h2 := hdigit 2 (by decide)
  apply hne
  omega

theorem exists_px_eq (p : ℕ → Fin 512) : ∃ v < 2 ^ 27, ∀ j ≤ 2, px (v * pgSize) j = p j := by
  have h0 := (p 0).isLt
  have h1 := (p 1).isLt
  have h2 := (p 2).isLt
  refine ⟨p 0 + 512 * p 1 + 512 ^ 2 * p 2, by omega, ?_⟩
  intro j hj
  apply Fin.ext
  rw [px_mul_pgSize]
  have hcases : j = 0 ∨ j = 1 ∨ j = 2 := by omega
  rcases hcases with rfl | rfl | rfl
  · omega
  · omega
  · omega

namespace PageTable

theorem leaf_eq_lookup {pt : PageTable} {v : ℕ} (h : v < 2 ^ 27) :
    pt.leaf v = lookup 2 pt.table (px (v * pgSize)) := if_pos h

theorem leaf_of_le {pt : PageTable} {v : ℕ} (h : 2 ^ 27 ≤ v) : pt.leaf v = none :=
  if_neg (Nat.not_lt.mpr h)

theorem leaf_congr {pt pt' : PageTable} (h : ∀ p, lookup 2 pt'.table p = lookup 2 pt.table p) :
    pt'.leaf = pt.leaf := by
  funext v
  unfold leaf
  rw [h]

theorem lookup_eq_none {pt : PageTable} (h : ∀ v, pt.leaf v = none) (p : ℕ → Fin 512) :
    lookup 2 pt.table p = none := by
  obtain ⟨v, hv, hp⟩ := exists_px_eq p
  have := h v
  rw [leaf_eq_lookup hv] at this
  rw [lookup, ← find_congr 2 pt.table hp]
  exact this

theorem lookup_congr {pt pt' : PageTable} (h : pt'.leaf = pt.leaf) (p : ℕ → Fin 512) :
    lookup 2 pt'.table p = lookup 2 pt.table p := by
  obtain ⟨v, hv, hp⟩ := exists_px_eq p
  have hleaf : pt'.leaf v = pt.leaf v := by rw [h]
  rw [leaf_eq_lookup hv, leaf_eq_lookup hv] at hleaf
  rw [lookup, lookup, ← find_congr 2 pt.table hp, ← find_congr 2 pt'.table hp]
  exact hleaf

theorem HasSlot.of_leaf {pt : PageTable} {v : ℕ} {e : Pte} (h : pt.leaf v = some e) :
    pt.HasSlot v := by
  unfold leaf at h
  unfold HasSlot
  split at h
  · unfold lookup at h
    cases hf : find 2 pt.table (px (v * pgSize)) with
    | none =>
        rw [hf] at h
        cases h
    | some a => rfl
  · cases h

@[simp] theorem pages_setPte (pt : PageTable) (va : ℕ) (e : Option Pte) :
    (pt.setPte va e).pages = pt.pages := by
  unfold pages setPte
  rw [pages_store]

@[simp] theorem root_setPte (pt : PageTable) (va : ℕ) (e : Option Pte) :
    (pt.setPte va e).root = pt.root := rfl

theorem leaf_setPte {pt : PageTable} {v : ℕ} (e : Option Pte) (hv : v < 2 ^ 27)
    (h : pt.HasSlot v) : (pt.setPte (v * pgSize) e).leaf = Function.update pt.leaf v e := by
  funext w
  by_cases hw : w < 2 ^ 27
  · rw [leaf_eq_lookup hw]
    by_cases hwv : w = v
    · rw [hwv, Function.update_self]
      exact lookup_store_self 2 pt.table _ e h
    · rw [Function.update_of_ne hwv, leaf_eq_lookup hw]
      exact lookup_store_of_apart 2 pt.table e (px_apart hv hw (Ne.symm hwv))
  · have hwv : w ≠ v := fun heq => hw (heq ▸ hv)
    rw [Function.update_of_ne hwv, leaf_of_le (Nat.not_lt.mp hw), leaf_of_le (Nat.not_lt.mp hw)]

end PageTable

/-! ## Looking up -/

theorem walk_eq_ok {pt : PageTable} {v : ℕ} (h : v < maxPage) :
    walk pt (v * pgSize) = .ok (find 2 pt.table (px (v * pgSize))) :=
  if_neg (Nat.not_le.mpr (page_lt_maxVa h))

theorem join_find (pt : PageTable) {v : ℕ} (h : v < maxPage) :
    (find 2 pt.table (px (v * pgSize))).join = pt.leaf v :=
  (PageTable.leaf_eq_lookup (lt_of_lt_of_le h maxPage_le)).symm

theorem walk_of_leaf {pt : PageTable} {v : ℕ} {e : Pte} (h : v < maxPage)
    (he : pt.leaf v = some e) : walk pt (v * pgSize) = .ok (some (some e)) := by
  rw [walk_eq_ok h, ← Option.join_eq_some_iff.mp ((join_find pt h).trans he)]

/-! ## The leaves that count -/

/-- How often the leaves below `SHM_VA` map each page. -/
def userCount (f : ℕ → Option Pte) : ℕ → ℕ :=
  ∑ v ∈ Finset.range shmPage, tally ((f v).map Pte.pa)

theorem userCount_zero : userCount (fun _ => none) = 0 := by
  unfold userCount
  apply Finset.sum_eq_zero
  intro v _
  rfl

theorem userCount_fill {f : ℕ → Option Pte} {v : ℕ} {e : Pte} (hv : v < shmPage)
    (h : f v = none) : userCount (Function.update f v (some e)) = userCount f + one e.pa := by
  have hsum := sum_add_eq_of_agree (f := fun w => tally ((f w).map Pte.pa))
    (g := fun w => tally ((Function.update f v (some e) w).map Pte.pa))
    (Finset.mem_range.mpr hv) fun w _ hw => by rw [Function.update_of_ne hw]
  rw [h, Function.update_self, Option.map_none, Option.map_some, tally_none, tally_some,
    add_zero] at hsum
  exact hsum

theorem userCount_clear {f : ℕ → Option Pte} {v : ℕ} {e : Pte} (hv : v < shmPage)
    (h : f v = some e) : userCount (Function.update f v none) + one e.pa = userCount f := by
  have hsum := sum_add_eq_of_agree (f := fun w => tally ((f w).map Pte.pa))
    (g := fun w => tally ((Function.update f v none w).map Pte.pa))
    (Finset.mem_range.mpr hv) fun w _ hw => by rw [Function.update_of_ne hw]
  rw [h, Function.update_self, Option.map_none, Option.map_some, tally_none, tally_some,
    add_zero] at hsum
  exact hsum

theorem userCount_above {f g : ℕ → Option Pte} (h : ∀ v < shmPage, g v = f v) :
    userCount g = userCount f := by
  apply Finset.sum_congr rfl
  intro v hv
  rw [h v (Finset.mem_range.mp hv)]

/-! ## Tables come and go -/

section Specs

variable {σ : Type} [PageAllocator σ] {allowed : Panic → Prop} {shm : ℕ}
  {R : σ → (ℕ → ℕ) → (ℕ → ℕ) → Prop}

/-- `walk` with `alloc` adds tables, never a leaf, and finds the slot unless
`kalloc` fails. -/
theorem walkLevels_spec (B : Books allowed shm R) (k : ℕ) (s : σ) (t : Table k)
    (p : ℕ → Fin 512) (user owned : ℕ → ℕ) (h : R s user (owned + pages k t)) :
    R (walkLevels k s t p).1 user (owned + pages k (walkLevels k s t p).2.1) ∧
      (∀ q, lookup k (walkLevels k s t p).2.1 q = lookup k t q) ∧
      ((walkLevels k s t p).2.2 = true → (find k (walkLevels k s t p).2.1 p).isSome) := by
  induction k generalizing s owned with
  | zero => exact ⟨h, fun _ => rfl, fun _ => rfl⟩
  | succ k ih =>
      cases he : entryAt t (p (k + 1)) with
      | some e =>
          simp only [walkLevels, he]
          rw [pages_eq_otherPages t (p (k + 1)), he, entryPages_some, ← add_assoc,
            ← add_assoc] at h
          obtain ⟨hR, hlookup, hfound⟩ := ih s e.2 _ h
          refine ⟨?_, ?_, ?_⟩
          · rw [pages_setEntry, entryPages_some, ← add_assoc, ← add_assoc]
            exact hR
          · intro q
            unfold lookup
            rw [find_setEntry_some]
            by_cases hq : q (k + 1) = p (k + 1)
            · rw [if_pos hq, find_succ_of_some (hq ▸ he)]
              exact hlookup q
            · rw [if_neg hq]
          · intro hr
            rw [find_setEntry_some, if_pos rfl]
            exact hfound hr
      | none =>
          cases hk : kalloc s with
          | mk r s' =>
              cases r with
              | none =>
                  have hw : walkLevels (k + 1) s t p = (s', t, false) := by
                    simp only [walkLevels, he, hk]
                  rw [hw]
                  exact ⟨B.kalloc_none h hk, fun _ => rfl, fun hf => (nomatch hf)⟩
              | some page =>
                  simp only [walkLevels, he, hk]
                  have hempty : pages k (empty k : Table k) = 0 := pages_empty k
                  have h' : R (memset page 0 s') user
                      (owned + pages (k + 1) t + one page + pages k (empty k : Table k)) := by
                    rw [hempty, add_zero]
                    exact B.memset page 0 (B.kalloc_some h hk)
                  obtain ⟨hR, hlookup, hfound⟩ := ih (memset page 0 s') (empty k) _ h'
                  have hmiss : ∀ q : ℕ → Fin 512, q (k + 1) = p (k + 1) →
                      find (k + 1) t q = none := fun q hq => find_succ_of_none (hq ▸ he)
                  refine ⟨?_, ?_, ?_⟩
                  · rw [pages_eq_otherPages t (p (k + 1)), he, entryPages_none, add_zero] at hR
                    rw [pages_setEntry, entryPages_some, ← add_assoc, ← add_assoc]
                    exact hR
                  · intro q
                    unfold lookup
                    rw [find_setEntry_some]
                    by_cases hq : q (k + 1) = p (k + 1)
                    · rw [if_pos hq, hmiss q hq]
                      exact (hlookup q).trans (lookup_empty k q)
                    · rw [if_neg hq]
                  · intro hr
                    rw [find_setEntry_some, if_pos rfl]
                    exact hfound hr

theorem walkAlloc_spec (B : Books allowed shm R) {s : σ} {pt : PageTable} {v : ℕ}
    {user owned : ℕ → ℕ} (hv : v < maxPage) (h : R s user (owned + pt.pages)) :
    Yields allowed (walkAlloc s pt (v * pgSize)) fun r =>
      R r.1 user (owned + r.2.1.pages) ∧ r.2.1.leaf = pt.leaf ∧
        (r.2.2 = true → r.2.1.HasSlot v) := by
  rw [PageTable.pages, ← add_assoc] at h
  obtain ⟨hR, hlookup, hfound⟩ :=
    walkLevels_spec B 2 s pt.table (px (v * pgSize)) user (owned + one pt.root) h
  rw [walkAlloc, if_neg (Nat.not_le.mpr (page_lt_maxVa hv))]
  refine ⟨?_, PageTable.leaf_congr hlookup, hfound⟩
  rw [PageTable.pages, ← add_assoc]
  exact hR

/-- `mappages` of one page: it fills the hole at that page, or `kalloc` has failed
and no leaf has changed. On a page that is mapped it panics. -/
theorem mappages_spec (B : Books allowed shm R) {s : σ} {pt : PageTable} {v pa : ℕ} {perm : Perm}
    {user owned : ℕ → ℕ} (hv : v < maxPage)
    (hmapped : pt.leaf v ≠ none → allowed .mappagesRemap) (h : R s user (owned + pt.pages)) :
    Yields allowed (mappages s pt (v * pgSize) pgSize pa perm) fun r =>
      R r.1 user (owned + r.2.1.pages) ∧
        r.2.1.leaf = if r.2.2 then Function.update pt.leaf v (some ⟨pa, perm⟩) else pt.leaf := by
  have haligned : v * pgSize % pgSize = 0 := Nat.mul_mod_left v pgSize
  rw [mappages, if_neg (not_not.mpr haligned), if_neg (by decide), if_neg (by decide),
    show pgSize / pgSize = 1 from rfl, mappagesLoop]
  apply (walkAlloc_spec B hv h).bind
  intro r hr
  obtain ⟨hR, hleaf, hfound⟩ := hr
  cases hok : r.2.2 with
  | false =>
      rw [if_pos rfl, yields_pure]
      exact ⟨hR, hleaf⟩
  | true =>
      have hv' : v < 2 ^ 27 := lt_of_lt_of_le hv maxPage_le
      rw [if_neg (by decide), ← PageTable.leaf_eq_lookup hv', hleaf]
      cases he : pt.leaf v with
      | some e =>
          rw [if_pos Option.isSome_some]
          exact hmapped (by rw [he]; simp)
      | none =>
          rw [if_neg (by decide), mappagesLoop, yields_pure]
          constructor
          · rw [PageTable.pages_setPte]
            exact hR
          · rw [PageTable.leaf_setPte _ hv' (hfound hok), hleaf]
            rfl

theorem uvmunmap_page {s : σ} {pt : PageTable} {v : ℕ} {e : Pte} (hv : v < maxPage)
    (he : pt.leaf v = some e) :
    uvmunmap shm s pt (v * pgSize) 1 false = .ok (s, pt.setPte (v * pgSize) none) := by
  rw [uvmunmap, if_neg (not_not.mpr (Nat.mul_mod_left v pgSize)), uvmunmapLoop,
    walk_of_leaf hv he]
  change (if e.perm.isLeaf = false then _ else _) = _
  rw [if_neg (by rw [Perm.isLeaf_eq_true]; decide), if_neg (by simp)]
  rfl

theorem leaf_clear {pt : PageTable} {v : ℕ} {e : Pte} (hv : v < maxPage)
    (he : pt.leaf v = some e) :
    (pt.setPte (v * pgSize) none).leaf = Function.update pt.leaf v none :=
  PageTable.leaf_setPte none (lt_of_lt_of_le hv maxPage_le) (.of_leaf he)

/-- One round of `uvmunmap` with `do_free` on a mapped user page: the leaf goes and
the page loses one reference. -/
theorem uvmunmapLoop_step (B : Books allowed shm R) {s : σ} {pt : PageTable} {v n : ℕ} {e : Pte}
    {user owned : ℕ → ℕ} {Q : σ × PageTable → Prop} (hv : v < shmPage)
    (he : pt.leaf v = some e) (h : R s (user + userCount pt.leaf) (owned + pt.pages))
    (hnext : ∀ s' pt', R s' (user + userCount pt'.leaf) (owned + pt'.pages) →
      pt'.leaf = Function.update pt.leaf v none →
      Yields allowed (uvmunmapLoop shm true n s' pt' ((v + 1) * pgSize)) Q) :
    Yields allowed (uvmunmapLoop shm true (n + 1) s pt (v * pgSize)) Q := by
  have hmax : v < maxPage := by
    have := layout
    omega
  have hleaf := leaf_clear hmax he
  have hnext' : ∀ s', R s' (user + userCount (Function.update pt.leaf v none))
      (owned + pt.pages) →
      Yields allowed (uvmunmapLoop shm true n s' (pt.setPte (v * pgSize) none)
        (v * pgSize + pgSize)) Q := by
    intro s' hs'
    rw [← Nat.succ_mul]
    apply hnext
    · rw [hleaf, PageTable.pages_setPte]
      exact hs'
    · exact hleaf
  rw [← userCount_clear hv he, ← add_assoc] at h
  rw [uvmunmapLoop, walk_of_leaf hmax he, yields_ok_bind]
  change Yields allowed (if e.perm.isLeaf = false then _ else _) Q
  rw [if_neg (by rw [Perm.isLeaf_eq_true]; decide)]
  by_cases hshm : e.pa = shm
  · rw [if_neg (by simp [hshm])]
    rw [hshm] at h
    exact hnext' s (B.shm_unshared h)
  · rw [if_pos ⟨rfl, hshm⟩]
    exact (B.kfree h).bind hnext'

/-- A page table with the leaves from page `v` up to page `w` cleared. -/
def clearRange (f : ℕ → Option Pte) (v w : ℕ) : ℕ → Option Pte :=
  fun i => if v ≤ i ∧ i < w then none else f i

theorem clearRange_self (f : ℕ → Option Pte) (v : ℕ) : clearRange f v v = f := by
  funext i
  exact if_neg (by omega)

theorem clearRange_update (f : ℕ → Option Pte) (v n : ℕ) :
    clearRange (Function.update f v none) (v + 1) (v + 1 + n) = clearRange f v (v + (n + 1)) := by
  funext i
  unfold clearRange
  by_cases hi : i = v
  · rw [hi, Function.update_self, if_neg (by omega), if_pos (by omega)]
  · rw [Function.update_of_ne hi]
    by_cases hin : v + 1 ≤ i ∧ i < v + 1 + n
    · rw [if_pos hin, if_pos (by omega)]
    · rw [if_neg hin, if_neg (by omega)]

theorem clearRange_hole {f : ℕ → Option Pte} {v : ℕ} (n : ℕ) (h : f v = none) :
    clearRange f (v + 1) (v + 1 + n) = clearRange f v (v + (n + 1)) := by
  rw [← clearRange_update, Function.update_eq_self_iff.mpr h.symm]

/-- All pages from `v` up to page `w` are mapped. -/
def NoHole (f : ℕ → Option Pte) (v w : ℕ) : Prop := ∀ i, v ≤ i → i < w → f i ≠ none

/-- `uvmunmap` with `do_free` over pages below `SHM_VA`. It stops at a hole. -/
theorem uvmunmapLoop_spec (B : Books allowed shm R) (n : ℕ) (s : σ) (pt : PageTable) (v : ℕ)
    {user owned : ℕ → ℕ} (hv : v + n ≤ shmPage)
    (hhole : allowed .uvmunmapWalk ∧ allowed .uvmunmapNotMapped ∨ NoHole pt.leaf v (v + n))
    (h : R s (user + userCount pt.leaf) (owned + pt.pages)) :
    Yields allowed (uvmunmapLoop shm true n s pt (v * pgSize)) fun r =>
      R r.1 (user + userCount r.2.leaf) (owned + r.2.pages) ∧
        r.2.leaf = clearRange pt.leaf v (v + n) := by
  induction n generalizing s pt v with
  | zero =>
      rw [uvmunmapLoop, yields_pure, add_zero, clearRange_self]
      exact ⟨h, rfl⟩
  | succ n ih =>
      have hmax : v < maxPage := by
        have := layout
        omega
      cases he : pt.leaf v with
      | some e =>
          apply uvmunmapLoop_step B (by omega) he h
          intro s' pt' h' hleaf'
          rw [← clearRange_update, ← hleaf']
          refine ih s' pt' (v + 1) (by omega) (hhole.imp_right fun hall i hi hi' => ?_) h'
          rw [hleaf', Function.update_of_ne (by omega)]
          exact hall i (by omega) (by omega)
      | none =>
          obtain ⟨hwalk, hmap⟩ := hhole.resolve_right fun hall => hall v le_rfl (by omega) he
          rw [uvmunmapLoop, walk_eq_ok hmax, yields_ok_bind]
          have hjoin := (join_find pt hmax).trans he
          cases hf : find 2 pt.table (px (v * pgSize)) with
          | none => exact hwalk
          | some slot =>
              rw [hf] at hjoin
              cases slot with
              | none => exact hmap
              | some e => cases hjoin

theorem uvmunmapSparseLoop_skip {pt : PageTable} {v : ℕ} (hv : v < maxPage)
    (he : pt.leaf v = none) (n : ℕ) (s : σ) :
    uvmunmapSparseLoop shm (n + 1) s pt (v * pgSize) =
      uvmunmapSparseLoop shm n s pt ((v + 1) * pgSize) := by
  rw [uvmunmapSparseLoop, walk_eq_ok hv, Nat.succ_mul]
  have hjoin := (join_find pt hv).trans he
  cases hf : find 2 pt.table (px (v * pgSize)) with
  | none => rfl
  | some slot =>
      rw [hf] at hjoin
      cases slot with
      | none => rfl
      | some e => cases hjoin

theorem uvmunmapSparseLoop_spec (B : Books allowed shm R) (n : ℕ) (s : σ) (pt : PageTable)
    (v : ℕ) {user owned : ℕ → ℕ} (hv : v + n ≤ shmPage)
    (h : R s (user + userCount pt.leaf) (owned + pt.pages)) :
    Yields allowed (uvmunmapSparseLoop shm n s pt (v * pgSize)) fun r =>
      R r.1 (user + userCount r.2.leaf) (owned + r.2.pages) ∧
        r.2.leaf = clearRange pt.leaf v (v + n) := by
  induction n generalizing s pt v with
  | zero =>
      rw [uvmunmapSparseLoop, yields_pure, add_zero, clearRange_self]
      exact ⟨h, rfl⟩
  | succ n ih =>
      have hmax : v < maxPage := by
        have := layout
        omega
      cases he : pt.leaf v with
      | some e =>
          rw [uvmunmapSparseLoop, walk_of_leaf hmax he, yields_ok_bind]
          change Yields allowed (if e.perm.isLeaf = true then _ else _) _
          rw [if_pos e.perm.isLeaf_eq_true, uvmunmap,
            if_neg (not_not.mpr (Nat.mul_mod_left v pgSize))]
          have hone : Yields allowed (uvmunmapLoop shm true 1 s pt (v * pgSize)) fun r =>
              R r.1 (user + userCount r.2.leaf) (owned + r.2.pages) ∧
                r.2.leaf = Function.update pt.leaf v none := by
            apply uvmunmapLoop_step B (by omega) he h
            intro s' pt' h' hleaf'
            rw [uvmunmapLoop, yields_pure]
            exact ⟨h', hleaf'⟩
          apply hone.bind
          intro r hr
          obtain ⟨hR, hleaf⟩ := hr
          rw [← clearRange_update, ← hleaf, ← Nat.succ_mul]
          exact ih r.1 r.2 (v + 1) (by omega) hR
      | none =>
          rw [uvmunmapSparseLoop_skip hmax he, ← clearRange_hole n he]
          exact ih s pt (v + 1) (by omega) h

theorem uvmunmapSparse_spec (B : Books allowed shm R) {s : σ} {pt : PageTable} {v w : ℕ}
    {user owned : ℕ → ℕ} (hvw : v ≤ w) (hw : w ≤ shmPage)
    (h : R s (user + userCount pt.leaf) (owned + pt.pages)) :
    Yields allowed (uvmunmapSparse shm s pt (v * pgSize) (w * pgSize)) fun r =>
      R r.1 (user + userCount r.2.leaf) (owned + r.2.pages) ∧
        r.2.leaf = clearRange pt.leaf v w := by
  have hcount : (w * pgSize - v * pgSize) / pgSize = w - v := by
    rw [← Nat.sub_mul, Nat.mul_div_cancel _ (by decide)]
  rw [uvmunmapSparse, if_neg (by simp), hcount]
  have hspec := uvmunmapSparseLoop_spec B (w - v) s pt v (by omega) h
  rw [Nat.add_sub_cancel' hvw] at hspec
  exact hspec

end Specs

end Memory
