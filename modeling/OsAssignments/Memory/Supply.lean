import OsAssignments.Memory.Space

/-!
# When the allocations succeed

`Supplied supply` says that `supply s` calls of `kalloc` in a row return a page in
the state `s`, and that the other entry points which a new address space needs leave
that number as it is. A page table whose tables are just those on the way to the
pages `V` spans `V`, and one more page costs it `newTables V v` tables. So a loop of
`mappages` succeeds exactly when the supply covers the tables that the pages need,
which depends on their numbers alone.

The rules below speak of runs that return; whether a run panics is the business of
the specifications.
-/

namespace Memory

open Outcome RefPool RadixTree

/-! ## The supply of kalloc.c -/

/-- How many calls of `kalloc` in a row return a page, when `free` pages are free and the
list says which calls are to fail. -/
def Kmem.supplyOf : List Bool → ℕ → ℕ
  | [], free => free
  | true :: _, _ => 0
  | false :: _, 0 => 0
  | false :: rest, free + 1 => supplyOf rest free + 1

/-- How many calls of `kalloc` in a row return a page in the state `m`. -/
def Kmem.supply (m : Kmem) : ℕ := supplyOf m.faults m.freelist.length

/-- Each page that `kalloc` returns lowers the supply by one, and it fails only when
there is none left. -/
structure Supplied {σ : Type} [PageAllocator σ] (supply : σ → ℕ) : Prop where
  kalloc_some : ∀ {s s' : σ} {pa : ℕ}, kalloc s = (some pa, s') → supply s' + 1 = supply s
  kalloc_none : ∀ {s s' : σ}, kalloc s = (none, s') → supply s = 0
  kaddref : ∀ {s s' : σ} {pa : ℕ}, kaddref pa s = .ok s' → supply s' = supply s
  memset : ∀ (pa : ℕ) (c : UInt8) (s : σ), supply (memset pa c s) = supply s

namespace Kmem

variable {m m' : Kmem} {pa : ℕ}

theorem takeFree_some (h : m.takeFree = (some pa, m')) :
    m'.faults = m.faults ∧ m.freelist.length = m'.freelist.length + 1 := by
  unfold takeFree at h
  cases hf : m.freelist with
  | nil =>
      rw [hf] at h
      cases h
  | cons r rest =>
      rw [hf] at h
      cases h
      exact ⟨rfl, rfl⟩

theorem takeFree_none (h : m.takeFree = (none, m')) : m.freelist.length = 0 := by
  unfold takeFree at h
  cases hf : m.freelist with
  | nil => rfl
  | cons r rest =>
      rw [hf] at h
      cases h

theorem supply_kalloc_some (h : m.kalloc = (some pa, m')) : m'.supply + 1 = m.supply := by
  unfold kalloc at h
  unfold supply
  cases hf : m.faults with
  | nil =>
      rw [hf] at h
      obtain ⟨hfaults, hlength⟩ := takeFree_some h
      rw [hfaults, hf, hlength, supplyOf, supplyOf]
  | cons f rest =>
      rw [hf] at h
      cases f with
      | true => cases h
      | false =>
          obtain ⟨hfaults, hlength⟩ := takeFree_some (m := { m with faults := rest }) h
          have hlength' : m.freelist.length = m'.freelist.length + 1 := hlength
          rw [hfaults, hlength', supplyOf]

theorem supply_kalloc_none (h : m.kalloc = (none, m')) : m.supply = 0 := by
  unfold kalloc at h
  unfold supply
  cases hf : m.faults with
  | nil =>
      rw [hf] at h
      rw [takeFree_none h, supplyOf]
  | cons f rest =>
      rw [hf] at h
      cases f with
      | true => rw [supplyOf]
      | false =>
          have hlength : m.freelist.length = 0 :=
            takeFree_none (m := { m with faults := rest }) h
          rw [hlength, supplyOf]

theorem supply_kaddref (h : Memory.kaddref pa m = .ok m') : m'.supply = m.supply := by
  have hk : Memory.kaddref pa m = (Kmem.kaddref pa m).mapError .kalloc := rfl
  rw [hk] at h
  unfold Kmem.kaddref at h
  by_cases hframe : Frame m.kernelEnd pa
  · rw [if_neg (not_not.mpr hframe)] at h
    by_cases hcount : m.references (pageIndex pa) < 1
    · rw [if_pos hcount] at h
      cases h
    · rw [if_neg hcount] at h
      cases h
      rfl
  · rw [if_pos hframe] at h
    cases h

theorem supplied : Supplied supply where
  kalloc_some h := supply_kalloc_some h
  kalloc_none h := supply_kalloc_none h
  kaddref h := supply_kaddref h
  memset _ _ _ := rfl

end Kmem

/-! ## The tables of a set of pages -/

/-- The number of tables below the root on the ways to the pages `V`. -/
def tableCount (V : Finset ℕ) : ℕ :=
  (V.image fun v => v / 512 ^ 2).card + (V.image fun v => v / 512).card

/-- The tables on the way to the page `v` that are on the way to no page of `V`. -/
def newTables (V : Finset ℕ) (v : ℕ) : ℕ :=
  (if v / 512 ^ 2 ∈ V.image fun w => w / 512 ^ 2 then 0 else 1) +
    if v / 512 ∈ V.image fun w => w / 512 then 0 else 1

theorem tableCount_insert (V : Finset ℕ) (v : ℕ) :
    tableCount (insert v V) = tableCount V + newTables V v := by
  unfold tableCount newTables
  rw [Finset.image_insert, Finset.image_insert, Finset.card_insert_eq_ite,
    Finset.card_insert_eq_ite]
  split_ifs
  · rfl
  · omega
  · omega
  · omega

theorem tableCount_mono {V W : Finset ℕ} (h : V ⊆ W) : tableCount V ≤ tableCount W :=
  Nat.add_le_add (Finset.card_le_card (Finset.image_subset_image h))
    (Finset.card_le_card (Finset.image_subset_image h))

/-- Two pages of the 39-bit address space share the tables that their numbers say. -/
theorem unshared_px {v w : ℕ} (hv : v < 2 ^ 27) (hw : w < 2 ^ 27) :
    unshared 2 (px (v * pgSize)) (px (w * pgSize)) =
      (if w / 512 ^ 2 = v / 512 ^ 2 then 0 else 1) + if w / 512 = v / 512 then 0 else 1 := by
  have hval : ∀ j, px (w * pgSize) j = px (v * pgSize) j ↔
      w / 512 ^ j % 512 = v / 512 ^ j % 512 := by
    intro j
    rw [Fin.ext_iff, px_mul_pgSize, px_mul_pgSize]
  have h2 := hval 2
  have h1 := hval 1
  simp only [unshared]
  rw [if_congr h2 rfl rfl, if_congr h1 rfl rfl]
  split_ifs <;> omega

/-- One more page in the set saves another page the tables that the two share. -/
theorem newTables_insert (V : Finset ℕ) {v w : ℕ} (hv : v < 2 ^ 27) (hw : w < 2 ^ 27) :
    newTables (insert v V) w =
      min (newTables V w) (unshared 2 (px (v * pgSize)) (px (w * pgSize))) := by
  have hup : w / 512 ∈ V.image (fun v => v / 512) →
      w / 512 ^ 2 ∈ V.image fun v => v / 512 ^ 2 := by
    intro hmem
    obtain ⟨u, hu, huw⟩ := Finset.mem_image.mp hmem
    exact Finset.mem_image.mpr ⟨u, hu, by omega⟩
  have hup' : w / 512 = v / 512 → w / 512 ^ 2 = v / 512 ^ 2 := by
    intro heq
    omega
  rw [unshared_px hv hw]
  unfold newTables
  simp only [Finset.image_insert, Finset.mem_insert]
  -- a lower table that is there has the table above it, both in `V` and on the way to `v`
  split_ifs <;> grind

/-- The tables of a page table are those on the ways to the pages `V`. -/
def Spans (pt : PageTable) (V : Finset ℕ) : Prop :=
  ∀ v < 2 ^ 27, missing 2 pt.table (px (v * pgSize)) = newTables V v

theorem spans_empty (page : ℕ) : Spans ⟨page, empty 2⟩ ∅ := by
  intro v _
  rw [missing_empty]
  simp [newTables]

/-! ## Mapping one page -/

section Specs

variable {σ : Type} [PageAllocator σ] {supply : σ → ℕ}

/-- `walk` with `alloc` succeeds when the supply covers the tables it misses, and then
the path has all its tables. -/
theorem walkLevels_supply (S : Supplied supply) (k : ℕ) (s : σ) (t : Table k) (p : ℕ → Fin 512) :
    ((walkLevels k s t p).2.2 = true ↔ missing k t p ≤ supply s) ∧
      ((walkLevels k s t p).2.2 = true →
        supply (walkLevels k s t p).1 + missing k t p = supply s ∧
        ∀ q, missing k (walkLevels k s t p).2.1 q = min (missing k t q) (unshared k p q)) := by
  induction k generalizing s with
  | zero =>
      refine ⟨⟨fun _ => Nat.zero_le _, fun _ => rfl⟩, fun _ => ⟨rfl, fun q => ?_⟩⟩
      exact (Nat.zero_min _).symm
  | succ k ih =>
      cases he : entryAt t (p (k + 1)) with
      | some e =>
          simp only [walkLevels, he]
          obtain ⟨hiff, hok⟩ := ih s e.2
          rw [missing_succ_of_some he]
          refine ⟨hiff, fun hr => ⟨(hok hr).1, ?_⟩⟩
          apply missing_setEntry_min
          intro q hq
          rw [missing_succ_of_some (hq ▸ he)]
          exact (hok hr).2 q
      | none =>
          rw [missing_succ_of_none he]
          cases hk : kalloc s with
          | mk r s' =>
              cases r with
              | none =>
                  have hw : walkLevels (k + 1) s t p = (s', t, false) := by
                    simp only [walkLevels, he, hk]
                  rw [hw, S.kalloc_none hk]
                  simp
              | some page =>
                  simp only [walkLevels, he, hk]
                  obtain ⟨hiff, hok⟩ := ih (memset page 0 s') (empty k)
                  rw [missing_empty, S.memset] at hiff hok
                  have hs := S.kalloc_some hk
                  refine ⟨?_, fun hr => ⟨?_, ?_⟩⟩
                  · rw [hiff]
                    omega
                  · have := (hok hr).1
                    omega
                  · apply missing_setEntry_min
                    intro q hq
                    rw [missing_succ_of_none (hq ▸ he), (hok hr).2 q, missing_empty,
                      min_eq_right (unshared_le k p q),
                      min_eq_right (Nat.le_succ_of_le (unshared_le k p q))]

/-- The page table `pt` with the supply `n` has got the leaf `e` at the hole `v`, and with
it the tables that were missing. -/
structure Mounts (supply : σ → ℕ) (v n : ℕ) (e : Pte) (pt : PageTable) (s' : σ)
    (pt' : PageTable) : Prop where
  hole : pt.leaf v = none
  leaf : pt'.leaf = Function.update pt.leaf v (some e)
  supply_eq : supply s' + missing 2 pt.table (px (v * pgSize)) = n
  missing_eq : ∀ q, missing 2 pt'.table q =
    min (missing 2 pt.table q) (unshared 2 (px (v * pgSize)) q)

/-- `mappages` of one page succeeds when the supply covers the tables that are missing. -/
theorem mappages_missing (S : Supplied supply) {s : σ} {pt : PageTable} {v pa : ℕ} {perm : Perm}
    (hv : v < maxPage) :
    Yields (fun _ => True) (mappages s pt (v * pgSize) pgSize pa perm) fun r =>
      (r.2.2 = true ↔ missing 2 pt.table (px (v * pgSize)) ≤ supply s) ∧
        (r.2.2 = true → Mounts supply v (supply s) ⟨pa, perm⟩ pt r.1 r.2.1) := by
  have hv' : v < 2 ^ 27 := lt_of_lt_of_le hv maxPage_le
  have haligned : v * pgSize % pgSize = 0 := Nat.mul_mod_left v pgSize
  obtain ⟨hiff, hok⟩ := walkLevels_supply S 2 s pt.table (px (v * pgSize))
  have hspec := @walkAlloc_spec σ _ (fun _ => True) 0 (fun _ _ _ => True)
    (Books.trivial _ 0 fun _ => trivial) s pt v 0 0 hv trivial
  rw [mappages, if_neg (not_not.mpr haligned), if_neg (by decide), if_neg (by decide),
    show pgSize / pgSize = 1 from rfl, mappagesLoop]
  rw [walkAlloc, if_neg (Nat.not_le.mpr (page_lt_maxVa hv))] at hspec ⊢
  obtain ⟨_, hleaf, hslot⟩ := hspec
  rw [yields_pure_bind]
  dsimp only at hleaf hslot ⊢
  cases hr : (walkLevels 2 s pt.table (px (v * pgSize))).2.2 with
  | false =>
      rw [if_pos rfl, yields_pure, ← hiff, hr]
      exact ⟨Iff.rfl, fun hfalse => absurd hfalse Bool.false_ne_true⟩
  | true =>
      obtain ⟨hsupply, hmissing⟩ := hok hr
      rw [if_neg (by decide)]
      apply Yields.ite
      · intro _
        trivial
      · intro hnone
        rw [mappagesLoop, yields_pure]
        refine ⟨⟨fun _ => hiff.mp hr, fun _ => rfl⟩, fun _ => ⟨?_, ?_, hsupply, ?_⟩⟩
        · rw [← hleaf, PageTable.leaf_eq_lookup hv']
          exact Option.not_isSome_iff_eq_none.mp hnone
        · rw [PageTable.leaf_setPte _ hv' (hslot hr), hleaf]
        · intro q
          rw [← hmissing q]
          exact missing_store 2 _ _ _ _

/-- The page table `pt` with the supply `n`, which spans `V`, has got the leaf `e` at the
hole `v`, and with it the tables that were missing. -/
structure MapsAt (supply : σ → ℕ) (V : Finset ℕ) (v n : ℕ) (e : Pte) (pt : PageTable)
    (s' : σ) (pt' : PageTable) : Prop where
  hole : pt.leaf v = none
  leaf : pt'.leaf = Function.update pt.leaf v (some e)
  supply_eq : supply s' + newTables V v = n
  spans : Spans pt' (insert v V)

/-- The tables that are missing on the way to a page are those it needs beside `V`. -/
theorem mappages_supply (S : Supplied supply) {s : σ} {pt : PageTable} {V : Finset ℕ}
    {v pa : ℕ} {perm : Perm} (hv : v < maxPage) (hspans : Spans pt V) :
    Yields (fun _ => True) (mappages s pt (v * pgSize) pgSize pa perm) fun r =>
      (r.2.2 = true ↔ newTables V v ≤ supply s) ∧
        (r.2.2 = true → MapsAt supply V v (supply s) ⟨pa, perm⟩ pt r.1 r.2.1) := by
  have hv' : v < 2 ^ 27 := lt_of_lt_of_le hv maxPage_le
  apply (mappages_missing S hv).mono
  intro r hr
  rw [hspans v hv'] at hr
  refine ⟨hr.1, fun hok => ?_⟩
  obtain ⟨hhole, hleaf, hsupply, hmissing⟩ := hr.2 hok
  rw [hspans v hv'] at hsupply
  refine ⟨hhole, hleaf, hsupply, fun w hw => ?_⟩
  rw [newTables_insert V hv' hw, ← hspans w hw]
  exact hmissing _

/-! ## A new address space -/

def fixedPages : Finset ℕ := {trapframePage, trampolinePage}

theorem procPagetable_supply {kv : Kernel} {g : Globals} (S : Supplied supply) (s : σ) (tf : ℕ) :
    Yields (fun _ => True) (procPagetable kv g s tf) fun r =>
      (r.2 ≠ none ↔ 3 ≤ supply s) ∧
        ∀ pt, r.2 = some pt → supply r.1 + 3 = supply s ∧ Spans pt fixedPages := by
  have hlay := layout
  have htramp : newTables ∅ trampolinePage = 2 := by simp [newTables]
  have htrap : newTables {trampolinePage} trapframePage = 0 := by decide
  unfold procPagetable uvmcreate
  cases hk : kalloc s with
  | mk r s' =>
      cases r with
      | none =>
          rw [S.kalloc_none hk]
          exact ⟨by simp, fun pt hpt => nomatch hpt⟩
      | some page =>
          dsimp only
          have hs := S.kalloc_some hk
          rw [trampolineVa]
          apply (mappages_supply S (by omega) (spans_empty page)).bind
          intro r hr
          obtain ⟨hiff, hok⟩ := hr
          rw [htramp, S.memset] at hiff
          cases hmap : r.2.2 with
          | false =>
              rw [if_pos rfl]
              apply (yields_true _).bind
              intro s'' _
              rw [hmap] at hiff
              refine ⟨⟨fun hne => absurd rfl hne, fun hle => ?_⟩, fun pt hpt => nomatch hpt⟩
              exact absurd (hiff.mpr (by omega)) Bool.false_ne_true
          | true =>
              have hfirst := hok hmap
              have hsupply := hfirst.supply_eq
              rw [htramp, S.memset] at hsupply
              rw [if_neg (by decide), trapframeVa]
              apply (mappages_supply S (by omega) hfirst.spans).bind
              intro r' hr'
              obtain ⟨hiff', hok'⟩ := hr'
              rw [insert_empty_eq, htrap] at hiff'
              have hmap' := hiff'.mpr (Nat.zero_le _)
              have hsecond := hok' hmap'
              have hsupply' := hsecond.supply_eq
              rw [insert_empty_eq, htrap] at hsupply'
              rw [hmap', if_neg (by decide), yields_pure]
              refine ⟨⟨fun _ => by omega, fun _ => Option.some_ne_none _⟩, ?_⟩
              intro pt hpt
              cases hpt
              dsimp only
              exact ⟨by omega, hsecond.spans⟩

/-- `allocproc` takes the trapframe, the root of the page table and two tables below it. -/
theorem allocproc_supply {kv : Kernel} {g : Globals} (S : Supplied supply) (s : σ) :
    Yields (fun _ => True) (allocproc kv g s) fun r =>
      (r.2 ≠ none ↔ 4 ≤ supply s) ∧
        ∀ np, r.2 = some np → supply r.1 + 4 = supply s ∧ Spans np.2 fixedPages := by
  unfold allocproc
  cases hk : kalloc s with
  | mk r s' =>
      cases r with
      | none =>
          rw [S.kalloc_none hk]
          apply (yields_true _).bind
          intro s'' _
          exact ⟨by simp, fun np hnp => nomatch hnp⟩
      | some tf =>
          dsimp only
          have hs := S.kalloc_some hk
          apply (procPagetable_supply S s' tf).bind
          intro r hr
          obtain ⟨hiff, hok⟩ := hr
          cases hpt : r.2 with
          | none =>
              dsimp only
              apply (yields_true _).bind
              intro s'' _
              rw [hpt] at hiff
              refine ⟨⟨fun hne => absurd rfl hne, fun hle => ?_⟩, fun np hnp => nomatch hnp⟩
              exact absurd rfl (hiff.mpr (by omega))
          | some pt =>
              obtain ⟨hsupply, hspans⟩ := hok pt hpt
              refine ⟨⟨fun _ => by omega, fun _ => Option.some_ne_none _⟩, ?_⟩
              intro np hnp
              cases hnp
              dsimp only
              exact ⟨by omega, hspans⟩

end Specs

/-! ## Sharing -/

section Outcomes

variable {σ : Type} {supply : σ → ℕ}

/-- The pages from `v` up to page `w` that are mapped. -/
def mappedPages (f : ℕ → Option Pte) (v w : ℕ) : Finset ℕ :=
  (Finset.range w).filter fun i => v ≤ i ∧ (f i).isSome

theorem mem_mappedPages {f : ℕ → Option Pte} {v w i : ℕ} :
    i ∈ mappedPages f v w ↔ (v ≤ i ∧ i < w) ∧ f i ≠ none := by
  rw [mappedPages, Finset.mem_filter, Finset.mem_range, Option.isSome_iff_ne_none, ← and_assoc,
    and_comm (a := i < w)]

theorem mappedPages_self (f : ℕ → Option Pte) (v : ℕ) : mappedPages f v v = ∅ := by
  apply Finset.eq_empty_of_forall_notMem
  intro i hi
  have := (mem_mappedPages.mp hi).1
  omega

theorem mappedPages_union (f : ℕ → Option Pte) {v u w : ℕ} (hvu : v ≤ u) (huw : u ≤ w) :
    mappedPages f v w = mappedPages f v u ∪ mappedPages f u w := by
  ext i
  rw [Finset.mem_union, mem_mappedPages, mem_mappedPages, mem_mappedPages, ← or_and_right]
  apply and_congr_left
  intro _
  omega

theorem mappedPages_page_some {f : ℕ → Option Pte} {v : ℕ} {e : Pte} (he : f v = some e) :
    mappedPages f v (v + 1) = {v} := by
  ext i
  rw [mem_mappedPages, Finset.mem_singleton]
  constructor
  · rintro ⟨hi, _⟩
    omega
  · rintro rfl
    exact ⟨by omega, by rw [he]; exact Option.some_ne_none e⟩

theorem mappedPages_page_none {f : ℕ → Option Pte} {v : ℕ} (he : f v = none) :
    mappedPages f v (v + 1) = ∅ := by
  apply Finset.eq_empty_of_forall_notMem
  intro i hi
  obtain ⟨hi, hne⟩ := mem_mappedPages.mp hi
  have heq : i = v := by omega
  exact hne (heq ▸ he)

/-- The loops of `mappages` over the pages `M` have succeeded: the supply has paid for
their tables, and they are mapped along with what was mapped before. -/
structure MapsAll (supply : σ → ℕ) (V M : Finset ℕ) (n : ℕ) (pt : PageTable) (s' : σ)
    (pt' : PageTable) : Prop where
  supply_eq : supply s' + tableCount (V ∪ M) = n + tableCount V
  spans : Spans pt' (V ∪ M)
  kept : ∀ v, pt.leaf v ≠ none → pt'.leaf v ≠ none
  mapped : ∀ v ∈ M, pt'.leaf v ≠ none

theorem MapsAt.mapsAll {V M : Finset ℕ} {v n : ℕ} {e : Pte} {pt pt₁ pt' : PageTable} {s₁ s' : σ}
    (hat : MapsAt supply V v n e pt s₁ pt₁)
    (h : MapsAll supply (insert v V) M (supply s₁) pt₁ s' pt') :
    MapsAll supply V (insert v M) n pt s' pt' := by
  have hunion : V ∪ insert v M = insert v V ∪ M := by
    rw [Finset.union_insert, Finset.insert_union]
  have hv : pt₁.leaf v ≠ none := by
    rw [hat.leaf, Function.update_self]
    exact Option.some_ne_none e
  constructor
  · have hfirst := hat.supply_eq
    have hrest := h.supply_eq
    rw [tableCount_insert] at hrest
    rw [hunion]
    omega
  · rw [hunion]
    exact h.spans
  · intro w hw
    apply h.kept
    by_cases hwv : w = v
    · rw [hwv]
      exact hv
    · rw [hat.leaf, Function.update_of_ne hwv]
      exact hw
  · intro w hw
    rcases Finset.mem_insert.mp hw with rfl | hw
    · exact h.kept w hv
    · exact h.mapped w hw

/-- What a loop of `mappages` over the pages `M` has done when it returns: it succeeds
exactly when the supply `n` covers their tables. -/
def MapsOutcome (supply : σ → ℕ) (V M : Finset ℕ) (n : ℕ) (pt : PageTable)
    (r : σ × PageTable × Bool) : Prop :=
  (r.2.2 = true ↔ tableCount (V ∪ M) ≤ n + tableCount V) ∧
    (r.2.2 = true → MapsAll supply V M n pt r.1 r.2.1)

theorem MapsOutcome.done {V : Finset ℕ} {s : σ} {pt : PageTable} (hspans : Spans pt V) :
    MapsOutcome supply V ∅ (supply s) pt (s, pt, true) := by
  unfold MapsOutcome
  rw [Finset.union_empty]
  refine ⟨⟨fun _ => Nat.le_add_left _ _, fun _ => rfl⟩, fun _ => ⟨?_, ?_, fun _ h => h, ?_⟩⟩
  · rw [Finset.union_empty]
  · rw [Finset.union_empty]
    exact hspans
  · exact fun v hv => absurd hv (Finset.notMem_empty v)

theorem MapsOutcome.short {V M : Finset ℕ} {v n : ℕ} {s' : σ} {pt pt' : PageTable}
    (h : n < newTables V v) : MapsOutcome supply V (insert v M) n pt (s', pt', false) := by
  have hmono : tableCount (insert v V) ≤ tableCount (V ∪ insert v M) := by
    apply tableCount_mono
    rw [Finset.union_insert]
    exact Finset.insert_subset_insert v Finset.subset_union_left
  rw [tableCount_insert] at hmono
  unfold MapsOutcome
  simp only [Bool.false_eq_true, false_iff, false_implies, and_true]
  omega

theorem MapsOutcome.fill {V M : Finset ℕ} {v n : ℕ} {e : Pte} {pt pt₁ : PageTable} {s₁ : σ}
    {r : σ × PageTable × Bool} (hat : MapsAt supply V v n e pt s₁ pt₁)
    (h : MapsOutcome supply (insert v V) M (supply s₁) pt₁ r) :
    MapsOutcome supply V (insert v M) n pt r := by
  have hfirst := hat.supply_eq
  refine ⟨?_, fun hr => hat.mapsAll (h.2 hr)⟩
  rw [h.1, tableCount_insert, Finset.union_insert, Finset.insert_union]
  omega

end Outcomes

/-- `uvmshare` succeeds when the supply covers the tables that the mapped pages of the
range need. -/
theorem uvmshareLoop_supply {σ : Type} [PageAllocator σ] {supply : σ → ℕ}
    (S : Supplied supply) (shm : ℕ) (old : PageTable) (n : ℕ) (s : σ) (new : PageTable) (v : ℕ)
    {V : Finset ℕ} (htop : v + n ≤ maxPage) (hspans : Spans new V) :
    Yields (fun _ => True) (uvmshareLoop shm old n s new (v * pgSize))
      (MapsOutcome supply V (mappedPages old.leaf v (v + n)) (supply s) new) := by
  induction n generalizing s new v V with
  | zero =>
      rw [uvmshareLoop, yields_pure, add_zero, mappedPages_self]
      exact .done hspans
  | succ n ih =>
      have hmax : v < maxPage := by omega
      have hrange : v + (n + 1) = v + 1 + n := by omega
      rw [mappedPages_union _ (Nat.le_succ v) (by omega), hrange]
      cases he : old.leaf v with
      | none =>
          rw [uvmshareLoop_skip hmax he, mappedPages_page_none he, Finset.empty_union]
          exact ih s new (v + 1) (by omega) hspans
      | some e =>
          rw [uvmshareLoop_leaf hmax he, mappedPages_page_some he, ← Finset.insert_eq]
          apply (mappages_supply S hmax hspans).bind
          intro r hr
          obtain ⟨hiff, hok⟩ := hr
          cases hmap : r.2.2 with
          | false =>
              rw [if_neg (by decide)]
              apply (yields_true _).bind
              intro r' _
              rw [hmap] at hiff
              exact .short (Nat.not_le.mp fun hle => Bool.false_ne_true (hiff.mpr hle))
          | true =>
              rw [if_pos rfl]
              cases hk : kaddref e.pa r.1 with
              | error x => trivial
              | ok s' =>
                  have hat := hok hmap
                  rw [yields_ok_bind]
                  apply (ih s' r.2.1 (v + 1) (by omega) hat.spans).mono
                  intro r' hr'
                  rw [S.kaddref hk] at hr'
                  exact .fill hat hr'

theorem uvmshare_supply {σ : Type} [PageAllocator σ] {supply : σ → ℕ} (S : Supplied supply)
    (shm : ℕ) (old : PageTable) {sz : ℕ} (s : σ) (new : PageTable) {V : Finset ℕ}
    (hsz : pageCount sz ≤ maxPage) (hspans : Spans new V) :
    Yields (fun _ => True) (uvmshare shm s old new sz)
      (MapsOutcome supply V (mappedPages old.leaf 0 (pageCount sz)) (supply s) new) := by
  have hloop := uvmshareLoop_supply S shm old (pageCount sz) s new 0 (by omega) hspans
  rw [Nat.zero_mul, Nat.zero_add] at hloop
  exact hloop

end Memory
