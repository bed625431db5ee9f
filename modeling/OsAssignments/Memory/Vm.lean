import OsAssignments.Memory.TableFree

/-!
# User address spaces

The functions of `vm.c` that build, copy, share and take down the user part of an
address space, the pages below its size. The two kernels differ in how they take
pages down: the Assignment 4 kernel calls `uvmunmap`, which panics at a hole, and
the Assignment 7 kernel `uvmunmap_sparse`, which passes over it, and then
`free_empty_tables`. `Kernel` names the one that runs.

Every specification is over books that balance with the leaves below `SHM_VA` as
user memory and the tables as the kernel's own pages. A function that returns
failure has left the leaves as it found them.
-/

namespace Memory

open Outcome RefPool RadixTree

/-- The two kernels of the repository. -/
inductive Kernel
  | assignment4
  | assignment7
  deriving DecidableEq

/-- `PTE_R | PTE_U`, with `PTE_W` or `PTE_X` added. -/
def userPerm (w x : Bool) : Perm := ⟨true, w, x, true, rfl⟩

/-- The number of pages below `sz`, the last one perhaps in part. -/
def pageCount (sz : ℕ) : ℕ := (sz + pgSize - 1) / pgSize

/-! ## vm.c -/

section Code

variable {σ : Type} [PageAllocator σ] (kv : Kernel) (shm : ℕ)

def uvmcreate (s : σ) : Option PageTable × σ :=
  match kalloc s with
  | (none, s) => (none, s)
  | (some page, s) => (some ⟨page, empty 2⟩, memset page 0 s)

/-- Unmap and free the user pages from `start` up to `stop`: `uvmunmap` in the
Assignment 4 kernel, `uvmunmap_sparse` in the Assignment 7 kernel. -/
def unmapUser (s : σ) (pt : PageTable) (start stop : ℕ) : Except Panic (σ × PageTable) :=
  match kv with
  | .assignment4 => uvmunmap shm s pt start ((stop - start) / pgSize) true
  | .assignment7 => uvmunmapSparse shm s pt start stop

def uvmdealloc (s : σ) (pt : PageTable) (oldsz newsz : ℕ) : Except Panic (σ × PageTable × ℕ) :=
  if newsz ≥ oldsz then
    pure (s, pt, oldsz)
  else if pgRoundUp newsz < pgRoundUp oldsz then do
    let r ← unmapUser kv shm s pt (pgRoundUp newsz) (pgRoundUp oldsz)
    match kv with
    | .assignment4 => pure (r.1, r.2, newsz)
    | .assignment7 => do
        let t ← freeEmptyTables 2 r.1 r.2.table
        pure (t.1, { r.2 with table := t.2.1 }, newsz)
  else
    pure (s, pt, newsz)

/-- The loop of `uvmalloc` at address `a`, with `n` pages to go; `oldsz` is rounded
up, and `false` stands for the returns of `0`. -/
def uvmallocLoop (perm : Perm) (oldsz : ℕ) :
    ℕ → σ → PageTable → ℕ → Except Panic (σ × PageTable × Bool)
  | 0, s, pt, _ => pure (s, pt, true)
  | n + 1, s, pt, a =>
      match kalloc s with
      | (none, s) => do
          let r ← uvmdealloc kv shm s pt a oldsz
          pure (r.1, r.2.1, false)
      | (some mem, s) => do
          let r ← mappages (memset mem 0 s) pt a pgSize mem perm
          if r.2.2 then
            uvmallocLoop perm oldsz n r.1 r.2.1 (a + pgSize)
          else do
            let s ← kfree mem r.1
            let r ← uvmdealloc kv shm s r.2.1 a oldsz
            pure (r.1, r.2.1, false)

/-- `uvmalloc(pagetable, oldsz, newsz, xperm)`; `perm` is `PTE_R | PTE_U | xperm`. -/
def uvmalloc (s : σ) (pt : PageTable) (oldsz newsz : ℕ) (perm : Perm) :
    Except Panic (σ × PageTable × ℕ) :=
  if newsz < oldsz then
    pure (s, pt, oldsz)
  else do
    let r ← uvmallocLoop kv shm perm (pgRoundUp oldsz) (pageCount newsz - pageCount oldsz) s pt
      (pgRoundUp oldsz)
    pure (r.1, r.2.1, if r.2.2 then newsz else 0)

def uvmfree (s : σ) (pt : PageTable) (sz : ℕ) : Except Panic σ :=
  (if sz > 0 then unmapUser kv shm s pt 0 (pgRoundUp sz) else pure (s, pt)) >>= fun r =>
    freewalk 2 r.1 r.2.root r.2.table

/-- The loop of `uvmcopy` at address `i`, with `n` pages to go. -/
def uvmcopyLoop (old : PageTable) : ℕ → σ → PageTable → ℕ → Except Panic (σ × PageTable × Bool)
  | 0, s, new, _ => pure (s, new, true)
  | n + 1, s, new, i => do
      match ← walk old i with
      | some (some pte) =>
          match kalloc s with
          | (none, s) => do
              let r ← unmapUser kv shm s new 0 i
              pure (r.1, r.2, false)
          | (some mem, s) => do
              let r ← mappages (memmove mem pte.pa s) new i pgSize mem pte.perm
              if r.2.2 then
                uvmcopyLoop old n r.1 r.2.1 (i + pgSize)
              else do
                let s ← kfree mem r.1
                let r ← unmapUser kv shm s r.2.1 0 i
                pure (r.1, r.2, false)
      | _ => uvmcopyLoop old n s new (i + pgSize)

/-- `uvmcopy(old, new, sz)`; `false` stands for `-1`. -/
def uvmcopy (s : σ) (old new : PageTable) (sz : ℕ) : Except Panic (σ × PageTable × Bool) :=
  uvmcopyLoop kv shm old (pageCount sz) s new 0

/-- The loop of `uvmshare` at address `i`, with `n` pages to go. -/
def uvmshareLoop (old : PageTable) : ℕ → σ → PageTable → ℕ → Except Panic (σ × PageTable × Bool)
  | 0, s, new, _ => pure (s, new, true)
  | n + 1, s, new, i => do
      match ← walk old i with
      | some (some pte) =>
          if pte.perm.isLeaf = false then do
            let r ← uvmunmapSparse shm s new 0 i
            pure (r.1, r.2, false)
          else do
            let r ← mappages s new i pgSize pte.pa pte.perm
            if r.2.2 then do
              let s ← kaddref pte.pa r.1
              uvmshareLoop old n s r.2.1 (i + pgSize)
            else do
              let r ← uvmunmapSparse shm r.1 r.2.1 0 i
              pure (r.1, r.2, false)
      | _ => uvmshareLoop old n s new (i + pgSize)

/-- `uvmshare(old, new, sz)`; `false` stands for `-1`. -/
def uvmshare (s : σ) (old new : PageTable) (sz : ℕ) : Except Panic (σ × PageTable × Bool) :=
  uvmshareLoop shm old (pageCount sz) s new 0

def ismapped (pt : PageTable) (va : ℕ) : Except Panic Bool := do
  match ← walk pt va with
  | some (some _) => pure true
  | _ => pure false

/-- `vmfault(pagetable, psz, va, read)`; `none` stands for `0`. -/
def vmfault (s : σ) (pt : PageTable) (psz va : ℕ) : Except Panic (σ × PageTable × Option ℕ) :=
  if va ≥ psz then
    pure (s, pt, none)
  else do
    let va := pgRoundDown va
    let mapped ← ismapped pt va
    if mapped then
      pure (s, pt, none)
    else
      match kalloc s with
      | (none, s) => pure (s, pt, none)
      | (some mem, s) => do
          let r ← mappages (memset mem 0 s) pt va pgSize mem (userPerm true false)
          if r.2.2 then
            pure (r.1, r.2.1, some mem)
          else do
            let s ← kfree mem r.1
            pure (s, r.2.1, none)

end Code

/-! ## Sizes -/

theorem pgRoundUp_eq (sz : ℕ) : pgRoundUp sz = pageCount sz * pgSize := rfl

theorem pageCount_mul (v : ℕ) : pageCount (v * pgSize) = v := by
  unfold pageCount pgSize
  omega

theorem pageCount_mono {sz sz' : ℕ} (h : sz ≤ sz') : pageCount sz ≤ pageCount sz' := by
  unfold pageCount pgSize
  omega

theorem lt_pageCount_iff {v sz : ℕ} : v < pageCount sz ↔ v * pgSize < sz := by
  unfold pageCount pgSize
  omega

theorem pageCount_le_iff {v sz : ℕ} : pageCount sz ≤ v ↔ sz ≤ v * pgSize := by
  unfold pageCount pgSize
  omega

/-! ## Specifications -/

section Specs

variable {σ : Type} [PageAllocator σ] {allowed : Panic → Prop} {shm : ℕ}
  {R : σ → (ℕ → ℕ) → (ℕ → ℕ) → Prop} {kv : Kernel}

/-- The Assignment 4 kernel may stop where `uvmunmap` meets a hole. -/
def Kernel.Tolerates (kv : Kernel) (allowed : Panic → Prop) : Prop :=
  kv = .assignment4 → allowed .uvmunmapWalk ∧ allowed .uvmunmapNotMapped

/-- It does not stop there if `P` holds. -/
def Kernel.Spares (kv : Kernel) (allowed : Panic → Prop) (P : Prop) : Prop :=
  kv = .assignment4 → allowed .uvmunmapWalk ∧ allowed .uvmunmapNotMapped ∨ P

theorem Kernel.Tolerates.spares {P : Prop} (K : kv.Tolerates allowed) : kv.Spares allowed P :=
  fun hk => Or.inl (K hk)

theorem Kernel.Spares.imp {P Q : Prop} (K : kv.Spares allowed P) (hPQ : P → Q) :
    kv.Spares allowed Q :=
  fun hk => (K hk).imp_right hPQ

theorem Kernel.spares_of {P : Prop} (hP : P) : kv.Spares allowed P := fun _ => Or.inr hP

theorem unmapUser_spec (B : Books allowed shm R) {s : σ} {pt : PageTable} {v w : ℕ}
    {user owned : ℕ → ℕ} (K : kv.Spares allowed (NoHole pt.leaf v w)) (hvw : v ≤ w)
    (hw : w ≤ shmPage)
    (h : R s (user + userCount pt.leaf) (owned + pt.pages)) :
    Yields allowed (unmapUser kv shm s pt (v * pgSize) (w * pgSize)) fun r =>
      R r.1 (user + userCount r.2.leaf) (owned + r.2.pages) ∧
        r.2.leaf = clearRange pt.leaf v w := by
  cases kv with
  | assignment4 =>
      have hcount : (w * pgSize - v * pgSize) / pgSize = w - v := by
        rw [← Nat.sub_mul, Nat.mul_div_cancel _ (by decide)]
      rw [unmapUser, uvmunmap, if_neg (not_not.mpr (Nat.mul_mod_left v pgSize)), hcount]
      have hspec := uvmunmapLoop_spec B (w - v) s pt v (by omega)
        (by rw [Nat.add_sub_cancel' hvw]; exact K rfl) h
      rw [Nat.add_sub_cancel' hvw] at hspec
      exact hspec
  | assignment7 => exact uvmunmapSparse_spec B hvw hw h

theorem freeEmptyTables_root (B : Books allowed shm R) {s : σ} {pt : PageTable}
    {user owned : ℕ → ℕ} (h : R s user (owned + pt.pages)) :
    Yields allowed (freeEmptyTables 2 s pt.table) fun r =>
      R r.1 user (owned + ({ pt with table := r.2.1 } : PageTable).pages) ∧
        ({ pt with table := r.2.1 } : PageTable).leaf = pt.leaf := by
  rw [PageTable.pages, ← add_assoc] at h
  apply (freeEmptyTables_spec B 2 s pt.table user _ h).mono
  intro r hr
  constructor
  · rw [PageTable.pages, ← add_assoc]
    exact hr.1
  · exact PageTable.leaf_congr hr.2.1

theorem clearRange_of_le (f : ℕ → Option Pte) {v w : ℕ} (h : w ≤ v) : clearRange f v w = f := by
  funext i
  exact if_neg (by omega)

theorem uvmdealloc_spec (B : Books allowed shm R) {s : σ} {pt : PageTable} {oldsz newsz : ℕ}
    {user owned : ℕ → ℕ} (K : kv.Spares allowed (NoHole pt.leaf (pageCount newsz) (pageCount oldsz)))
    (hold : pageCount oldsz ≤ shmPage)
    (h : R s (user + userCount pt.leaf) (owned + pt.pages)) :
    Yields allowed (uvmdealloc kv shm s pt oldsz newsz) fun r =>
      R r.1 (user + userCount r.2.1.leaf) (owned + r.2.1.pages) ∧
        r.2.1.leaf = clearRange pt.leaf (pageCount newsz) (pageCount oldsz) ∧
        r.2.2 = min oldsz newsz := by
  unfold uvmdealloc
  apply Yields.ite
  · intro hge
    rw [yields_pure]
    exact ⟨h, (clearRange_of_le _ (pageCount_mono hge)).symm, (min_eq_left hge).symm⟩
  · intro hlt
    have hmin : newsz = min oldsz newsz := (min_eq_right (Nat.le_of_not_ge hlt)).symm
    apply Yields.ite
    · intro hround
      have hcount : pageCount newsz < pageCount oldsz := by
        rw [pgRoundUp_eq, pgRoundUp_eq] at hround
        exact Nat.lt_of_mul_lt_mul_right hround
      rw [pgRoundUp_eq, pgRoundUp_eq]
      apply (unmapUser_spec B K hcount.le hold h).bind
      intro r hr
      cases kv with
      | assignment4 =>
          rw [yields_pure]
          exact ⟨hr.1, hr.2, hmin⟩
      | assignment7 =>
          apply (freeEmptyTables_root B hr.1).bind
          intro t ht
          rw [yields_pure]
          refine ⟨?_, ht.2.trans hr.2, hmin⟩
          rw [ht.2]
          exact ht.1
    · intro hround
      have hcount : pageCount oldsz ≤ pageCount newsz := by
        rw [pgRoundUp_eq, pgRoundUp_eq] at hround
        exact Nat.le_of_mul_le_mul_right (Nat.not_lt.mp hround) (by decide)
      rw [yields_pure]
      exact ⟨h, (clearRange_of_le _ hcount).symm, hmin⟩

theorem clearRange_fill {f : ℕ → Option Pte} {v₀ v : ℕ} (e : Pte) (hle : v₀ ≤ v)
    (hnone : f v = none) :
    clearRange (Function.update f v (some e)) v₀ (v + 1) = clearRange f v₀ v := by
  funext i
  unfold clearRange
  by_cases hi : i = v
  · rw [hi, if_pos (by omega), if_neg (by omega), hnone]
  · rw [Function.update_of_ne hi]
    by_cases hlt : v₀ ≤ i ∧ i < v
    · rw [if_pos hlt, if_pos (by omega)]
    · rw [if_neg hlt, if_neg (by omega)]

/-- A fresh page mapped as user memory: the kernel's own page becomes a shared one. -/
theorem share_fresh (B : Books allowed shm R) {s : σ} {f g : ℕ → Option Pte} {v mem : ℕ}
    {perm : Perm} {user owned tables : ℕ → ℕ} (hv : v < shmPage) (hnone : f v = none)
    (hg : g = Function.update f v (some ⟨mem, perm⟩))
    (h : R s (user + userCount f) (owned + one mem + tables)) :
    R s (user + userCount g) (owned + tables) := by
  rw [hg, userCount_fill hv hnone, ← add_assoc]
  rw [add_right_comm] at h
  exact B.share h

/-- The leaves from page `v` up to page `w` have been filled with permission `perm`. -/
structure Grown (perm : Perm) (f g : ℕ → Option Pte) (v w : ℕ) : Prop where
  outside : ∀ i, i < v ∨ w ≤ i → g i = f i
  inside : ∀ i, v ≤ i → i < w → ∃ pa, g i = some ⟨pa, perm⟩

theorem Grown.cons {perm : Perm} {f g : ℕ → Option Pte} {v w pa : ℕ}
    (h : Grown perm (Function.update f v (some ⟨pa, perm⟩)) g (v + 1) w) (hvw : v < w) :
    Grown perm f g v w := by
  constructor
  · intro i hi
    rw [h.outside i (by omega), Function.update_of_ne (by omega)]
  · intro i hv hw
    by_cases hi : i = v
    · refine ⟨pa, ?_⟩
      rw [hi, h.outside v (by omega), Function.update_self]
    · exact h.inside i (by omega) hw

/-- What the loop of `uvmalloc` has done when it returns: on failure all pages from
`v₀` on are gone again, on success the pages from `v` up to `w` are mapped. -/
def AllocOutcome (R : σ → (ℕ → ℕ) → (ℕ → ℕ) → Prop) (user owned : ℕ → ℕ) (perm : Perm)
    (f : ℕ → Option Pte) (v₀ v w : ℕ) (r : σ × PageTable × Bool) : Prop :=
  (r.2.2 = false → R r.1 (user + userCount r.2.1.leaf) (owned + r.2.1.pages) ∧
    r.2.1.leaf = clearRange f v₀ v) ∧
  (r.2.2 = true → w ≤ shmPage → R r.1 (user + userCount r.2.1.leaf) (owned + r.2.1.pages) ∧
    Grown perm f r.2.1.leaf v w)

theorem uvmalloc_rollback (B : Books allowed shm R) {s : σ} {pt : PageTable} {perm : Perm}
    {v₀ v w : ℕ} {user owned : ℕ → ℕ} (hfull : NoHole pt.leaf v₀ v) (hv : v ≤ shmPage)
    (h : R s (user + userCount pt.leaf) (owned + pt.pages)) :
    Yields allowed (do
      let r ← uvmdealloc kv shm s pt (v * pgSize) (v₀ * pgSize)
      pure (r.1, r.2.1, false)) (AllocOutcome R user owned perm pt.leaf v₀ v w) := by
  have K : kv.Spares allowed
      (NoHole pt.leaf (pageCount (v₀ * pgSize)) (pageCount (v * pgSize))) := by
    rw [pageCount_mul, pageCount_mul]
    exact Kernel.spares_of hfull
  apply (uvmdealloc_spec B K (by rw [pageCount_mul]; exact hv) h).bind
  intro r hr
  rw [yields_pure]
  constructor
  · intro _
    rw [pageCount_mul, pageCount_mul] at hr
    exact ⟨hr.1, hr.2.1⟩
  · intro hfalse
    cases hfalse

/-- The loop of `uvmalloc` from page `v` on, with `n` pages to go. It may go up to
the page at `SHM_VA`, where it can meet a mapping. -/
theorem uvmallocLoop_spec (B : Books allowed shm R) (perm : Perm) (v₀ n : ℕ) (s : σ)
    (pt : PageTable) (v : ℕ) {user owned : ℕ → ℕ} (hv₀ : v₀ ≤ v) (hfull : NoHole pt.leaf v₀ v)
    (htop : v + n ≤ shmPage + 1) (hremap : v + n ≤ shmPage ∨ allowed .mappagesRemap)
    (hhole : ∀ i, v ≤ i → i < shmPage → pt.leaf i = none)
    (h : R s (user + userCount pt.leaf) (owned + pt.pages)) :
    Yields allowed (uvmallocLoop kv shm perm (v₀ * pgSize) n s pt (v * pgSize))
      (AllocOutcome R user owned perm pt.leaf v₀ v (v + n)) := by
  induction n generalizing s pt v with
  | zero =>
      rw [uvmallocLoop, yields_pure]
      constructor
      · intro hfalse
        cases hfalse
      · intro _ _
        exact ⟨h, fun _ _ => rfl, fun i hi hi' => absurd hi' (by omega)⟩
  | succ n ih =>
      have hv : v ≤ shmPage := by omega
      have hmax : v < maxPage := by
        have := layout
        omega
      cases hk : kalloc s with
      | mk r s' =>
          cases r with
          | none =>
              simp only [uvmallocLoop, hk]
              exact uvmalloc_rollback B hfull hv (B.kalloc_none h hk)
          | some mem =>
              simp only [uvmallocLoop, hk]
              have h' := B.memset mem 0 (B.kalloc_some h hk)
              rw [add_right_comm owned] at h'
              have hmapped : pt.leaf v ≠ none → allowed .mappagesRemap := by
                intro hne
                rcases hremap with hle | hallowed
                · exact absurd (hhole v le_rfl (by omega)) hne
                · exact hallowed
              apply (mappages_spec B hmax hmapped h').bind
              intro r hr
              obtain ⟨hR, hleaf⟩ := hr
              cases hok : r.2.2 with
              | true =>
                  rw [if_pos rfl, ← Nat.succ_mul]
                  rw [hok, if_pos rfl] at hleaf
                  by_cases hlt : v < shmPage
                  · have hnone := hhole v le_rfl hlt
                    have hR' := share_fresh B hlt hnone hleaf hR
                    have hhole' : ∀ i, v + 1 ≤ i → i < shmPage → r.2.1.leaf i = none := by
                      intro i hi hi'
                      rw [hleaf, Function.update_of_ne (by omega)]
                      exact hhole i (by omega) hi'
                    have hremap' : v + 1 + n ≤ shmPage ∨ allowed .mappagesRemap :=
                      hremap.imp_left fun hle => by omega
                    have hfull' : NoHole r.2.1.leaf v₀ (v + 1) := by
                      intro i hi hi'
                      rw [hleaf]
                      by_cases hiv : i = v
                      · rw [hiv, Function.update_self]
                        exact fun hn => (nomatch hn)
                      · rw [Function.update_of_ne hiv]
                        exact hfull i hi (by omega)
                    apply (ih r.1 r.2.1 (v + 1) (by omega) hfull' (by omega) hremap' hhole'
                      hR').mono
                    intro r' hr'
                    constructor
                    · intro hfalse
                      obtain ⟨hR'', hclear⟩ := hr'.1 hfalse
                      refine ⟨hR'', ?_⟩
                      rw [hclear, hleaf, clearRange_fill _ hv₀ hnone]
                    · intro htrue hle
                      obtain ⟨hR'', hgrown⟩ := hr'.2 htrue (by omega)
                      rw [hleaf, show v + 1 + n = v + (n + 1) by omega] at hgrown
                      exact ⟨hR'', hgrown.cons (by omega)⟩
                  · have hn : n = 0 := by omega
                    rw [hn, uvmallocLoop, yields_pure]
                    constructor
                    · intro hfalse
                      cases hfalse
                    · intro _ hle
                      omega
              | false =>
                  rw [if_neg (by decide)]
                  rw [hok, if_neg (by decide)] at hleaf
                  rw [add_right_comm owned] at hR
                  apply (B.kfree_owned hR).bind
                  intro s'' hs''
                  rw [← hleaf] at hs'' hfull
                  rw [← hleaf]
                  exact uvmalloc_rollback B hfull hv hs''

/-- The pages `uvmalloc` may use: from the old size up to `SHM_VA`. -/
def HoleAbove (f : ℕ → Option Pte) (sz : ℕ) : Prop :=
  ∀ i, pageCount sz ≤ i → i < shmPage → f i = none

theorem HoleAbove.clearRange {f : ℕ → Option Pte} {sz w : ℕ} (h : HoleAbove f sz)
    (hw : w ≤ shmPage) : clearRange f (pageCount sz) w = f := by
  funext i
  unfold Memory.clearRange
  split_ifs with hi
  · exact (h i hi.1 (by omega)).symm
  · rfl

/-- `uvmalloc` maps the pages between the two sizes, or fails and changes no leaf.
It may meet a mapping only at `SHM_VA`. -/
theorem uvmalloc_spec (B : Books allowed shm R) {s : σ} {pt : PageTable} {oldsz newsz : ℕ}
    {perm : Perm} {user owned : ℕ → ℕ} (hlt : oldsz ≤ newsz)
    (htop : pageCount newsz ≤ shmPage + 1)
    (hremap : pageCount newsz ≤ shmPage ∨ allowed .mappagesRemap)
    (hold : pageCount oldsz ≤ shmPage) (hhole : HoleAbove pt.leaf oldsz)
    (h : R s (user + userCount pt.leaf) (owned + pt.pages)) :
    Yields allowed (uvmalloc kv shm s pt oldsz newsz perm) fun r =>
      (r.2.2 = 0 ∨ r.2.2 = newsz) ∧
      (r.2.2 = 0 → R r.1 (user + userCount r.2.1.leaf) (owned + r.2.1.pages) ∧
        r.2.1.leaf = pt.leaf) ∧
      (r.2.2 ≠ 0 → pageCount newsz ≤ shmPage →
        R r.1 (user + userCount r.2.1.leaf) (owned + r.2.1.pages) ∧
        Grown perm pt.leaf r.2.1.leaf (pageCount oldsz) (pageCount newsz)) := by
  have hcount : pageCount oldsz + (pageCount newsz - pageCount oldsz) = pageCount newsz :=
    Nat.add_sub_cancel' (pageCount_mono hlt)
  rw [uvmalloc, if_neg (Nat.not_lt.mpr hlt), pgRoundUp_eq]
  have hfull : NoHole pt.leaf (pageCount oldsz) (pageCount oldsz) :=
    fun i hi hi' => absurd hi' (Nat.not_lt.mpr hi)
  have hloop : Yields allowed (uvmallocLoop kv shm perm (pageCount oldsz * pgSize)
      (pageCount newsz - pageCount oldsz) s pt (pageCount oldsz * pgSize)) _ :=
    uvmallocLoop_spec B perm (pageCount oldsz) (pageCount newsz - pageCount oldsz) s pt
      (pageCount oldsz) le_rfl hfull (by omega) (by rw [hcount]; exact hremap) hhole h
  apply hloop.bind
  intro r hr
  rw [hcount] at hr
  rw [yields_pure]
  cases hok : r.2.2 with
  | true =>
      refine ⟨Or.inr rfl, ?_, ?_⟩
      · intro hzero
        -- a growth to size zero, which is no growth
        have hnew : newsz = 0 := hzero
        obtain ⟨hR, hgrown⟩ := hr.2 hok (by rw [hnew]; decide)
        refine ⟨hR, ?_⟩
        funext i
        apply hgrown.outside
        right
        rw [hnew]
        exact Nat.zero_le i
      · intro _ hle
        exact hr.2 hok hle
  | false =>
      refine ⟨Or.inl rfl, ?_, ?_⟩
      · intro _
        obtain ⟨hR, hclear⟩ := hr.1 hok
        exact ⟨hR, hclear.trans (hhole.clearRange hold)⟩
      · intro hne
        exact absurd rfl hne

theorem freewalk_root (B : Books allowed shm R) {s : σ} {pt : PageTable} {user owned : ℕ → ℕ}
    (hnone : ∀ v, pt.leaf v = none)
    (h : R s (user + userCount pt.leaf) (owned + pt.pages)) :
    Yields allowed (freewalk 2 s pt.root pt.table) fun s' => R s' user owned := by
  have hzero : userCount pt.leaf = 0 := by
    rw [← userCount_zero]
    exact userCount_above fun v _ => hnone v
  rw [hzero, add_zero, PageTable.pages, ← add_assoc] at h
  exact freewalk_spec B 2 s pt.root pt.table user owned (PageTable.lookup_eq_none hnone) h

/-- `uvmfree` of an address space whose only leaves are below its size. -/
theorem uvmfree_spec (B : Books allowed shm R) {s : σ} {pt : PageTable} {sz : ℕ}
    {user owned : ℕ → ℕ} (K : kv.Spares allowed (NoHole pt.leaf 0 (pageCount sz)))
    (hsz : pageCount sz ≤ shmPage)
    (hleaf : ∀ v, pageCount sz ≤ v → pt.leaf v = none)
    (h : R s (user + userCount pt.leaf) (owned + pt.pages)) :
    Yields allowed (uvmfree kv shm s pt sz) fun s' => R s' user owned := by
  rw [uvmfree]
  apply Yields.bind (Q := fun r : σ × PageTable =>
    R r.1 (user + userCount r.2.leaf) (owned + r.2.pages) ∧ ∀ v, r.2.leaf v = none)
  · apply Yields.ite
    · intro _
      have hspec := unmapUser_spec B K (Nat.zero_le (pageCount sz)) hsz h
      rw [Nat.zero_mul, ← pgRoundUp_eq] at hspec
      apply hspec.mono
      intro r hr
      refine ⟨hr.1, ?_⟩
      intro v
      rw [hr.2]
      unfold clearRange
      split_ifs with hv
      · rfl
      · exact hleaf v (by omega)
    · intro hzero
      have hcount : pageCount sz = 0 := by
        rw [Nat.not_lt.mp hzero |> Nat.le_zero.mp]
        decide
      exact ⟨h, fun v => hleaf v (by omega)⟩
  · intro r hr
    exact freewalk_root B hr.2 hr.1

end Specs

/-! ## Copying and sharing -/

section Outcomes

variable {σ : Type} {R : σ → (ℕ → ℕ) → (ℕ → ℕ) → Prop}

/-- How the pages from `v` up to `w` of a new address space follow those of an old
one: holes stay holes, and the leaves are related by `like`. -/
structure Follows (like : Pte → Pte → Prop) (old f g : ℕ → Option Pte) (v w : ℕ) : Prop where
  outside : ∀ i, i < v ∨ w ≤ i → g i = f i
  hole : ∀ i, v ≤ i → i < w → old i = none → g i = none
  leaf : ∀ i, v ≤ i → i < w → ∀ e, old i = some e → ∃ e', g i = some e' ∧ like e e'

/-- `uvmcopy` gives the copy a page of its own and the flags of the original. -/
def SamePerm (e e' : Pte) : Prop := e'.perm = e.perm

theorem Follows.refl (like : Pte → Pte → Prop) (old f : ℕ → Option Pte) (v : ℕ) :
    Follows like old f f v v :=
  ⟨fun _ _ => rfl, fun i hi hi' => absurd hi' (by omega), fun i hi hi' => absurd hi' (by omega)⟩

/-- The old address space has a leaf at `v`, and the new one has got one like it. -/
theorem Follows.fill {like : Pte → Pte → Prop} {old f g : ℕ → Option Pte} {v w : ℕ} {e e' : Pte}
    (h : Follows like old (Function.update f v (some e')) g (v + 1) w) (hvw : v < w)
    (he : old v = some e) (hlike : like e e') : Follows like old f g v w := by
  constructor
  · intro i hi
    rw [h.outside i (by omega), Function.update_of_ne (by omega)]
  · intro i hv hw hnone
    by_cases hi : i = v
    · rw [hi, he] at hnone
      cases hnone
    · exact h.hole i (by omega) hw hnone
  · intro i hv hw x hx
    by_cases hi : i = v
    · rw [hi, he] at hx
      cases hx
      refine ⟨e', ?_, hlike⟩
      rw [hi, h.outside v (by omega), Function.update_self]
    · exact h.leaf i (by omega) hw x hx

theorem Follows.skip {like : Pte → Pte → Prop} {old f g : ℕ → Option Pte} {v w : ℕ}
    (h : Follows like old f g (v + 1) w) (hold : old v = none) (hf : f v = none) :
    Follows like old f g v w := by
  constructor
  · intro i hi
    exact h.outside i (by omega)
  · intro i hv hw hnone
    by_cases hi : i = v
    · rw [hi, h.outside v (by omega), hf]
    · exact h.hole i (by omega) hw hnone
  · intro i hv hw x hx
    by_cases hi : i = v
    · rw [hi, hold] at hx
      cases hx
    · exact h.leaf i (by omega) hw x hx

/-- What the loops of `uvmcopy` and `uvmshare` have done when they return: on failure
the new address space has lost all pages below `v`, on success its pages from `v` up
to `w` follow the old ones. -/
def CopyOutcome (R : σ → (ℕ → ℕ) → (ℕ → ℕ) → Prop) (user owned : ℕ → ℕ)
    (like : Pte → Pte → Prop) (old f : ℕ → Option Pte) (v w : ℕ)
    (r : σ × PageTable × Bool) : Prop :=
  R r.1 (user + userCount r.2.1.leaf) (owned + r.2.1.pages) ∧
  (r.2.2 = false → r.2.1.leaf = clearRange f 0 v) ∧
  (r.2.2 = true → Follows like old f r.2.1.leaf v w)

theorem CopyOutcome.done {user owned : ℕ → ℕ} (like : Pte → Pte → Prop) (old : ℕ → Option Pte)
    (v : ℕ) {s : σ} {new : PageTable}
    (h : R s (user + userCount new.leaf) (owned + new.pages)) :
    CopyOutcome R user owned like old new.leaf v (v + 0) (s, new, true) := by
  refine ⟨h, ?_, ?_⟩
  · intro hfalse
    cases hfalse
  · intro _
    exact Follows.refl like old new.leaf v

/-- The loops go on with the next page after one that both address spaces map. -/
theorem CopyOutcome.fill {user owned : ℕ → ℕ} {like : Pte → Pte → Prop} {old f : ℕ → Option Pte}
    {v n : ℕ} {e e' : Pte} {r : σ × PageTable × Bool}
    (h : CopyOutcome R user owned like old (Function.update f v (some e')) (v + 1) (v + 1 + n) r)
    (he : old v = some e) (hf : f v = none) (hlike : like e e') :
    CopyOutcome R user owned like old f v (v + (n + 1)) r := by
  obtain ⟨hR, hfail, hok⟩ := h
  refine ⟨hR, ?_, ?_⟩
  · intro hr
    rw [hfail hr, clearRange_fill e' (Nat.zero_le v) hf]
  · intro hr
    have hfollows := hok hr
    rw [show v + 1 + n = v + (n + 1) by omega] at hfollows
    exact hfollows.fill (by omega) he hlike

theorem CopyOutcome.skip {user owned : ℕ → ℕ} {like : Pte → Pte → Prop} {old f : ℕ → Option Pte}
    {v n : ℕ} {r : σ × PageTable × Bool}
    (h : CopyOutcome R user owned like old f (v + 1) (v + 1 + n) r)
    (hold : old v = none) (hf : f v = none) :
    CopyOutcome R user owned like old f v (v + (n + 1)) r := by
  obtain ⟨hR, hfail, hok⟩ := h
  refine ⟨hR, ?_, ?_⟩
  · intro hr
    rw [hfail hr]
    funext i
    unfold clearRange
    by_cases hi : i = v
    · rw [hi, if_pos (by omega), if_neg (by omega), hf]
    · by_cases hlt : 0 ≤ i ∧ i < v
      · rw [if_pos hlt, if_pos (by omega)]
      · rw [if_neg hlt, if_neg (by omega)]
  · intro hr
    have hfollows := hok hr
    rw [show v + 1 + n = v + (n + 1) by omega] at hfollows
    exact hfollows.skip hold hf

end Outcomes

section CopySpecs

variable {σ : Type} [PageAllocator σ] {allowed : Panic → Prop} {shm : ℕ}
  {R : σ → (ℕ → ℕ) → (ℕ → ℕ) → Prop} {kv : Kernel}

theorem copy_rollback (B : Books allowed shm R) {s : σ} {new : PageTable}
    {like : Pte → Pte → Prop} {old : ℕ → Option Pte} {v w : ℕ} {user owned : ℕ → ℕ}
    (K : kv.Spares allowed (NoHole new.leaf 0 v)) (hv : v ≤ shmPage)
    (h : R s (user + userCount new.leaf) (owned + new.pages)) :
    Yields allowed (do
      let r ← unmapUser kv shm s new 0 (v * pgSize)
      pure (r.1, r.2, false)) (CopyOutcome R user owned like old new.leaf v w) := by
  have hspec := unmapUser_spec B K (Nat.zero_le v) hv h
  rw [Nat.zero_mul] at hspec
  apply hspec.bind
  intro r hr
  rw [yields_pure]
  refine ⟨hr.1, fun _ => hr.2, ?_⟩
  intro hfalse
  cases hfalse

/-- A page table has a hole where `walk` finds no table or an invalid entry. -/
theorem walk_of_hole {pt : PageTable} {v : ℕ} (hv : v < maxPage) (h : pt.leaf v = none) :
    walk pt (v * pgSize) = .ok none ∨ walk pt (v * pgSize) = .ok (some none) := by
  have hjoin := (join_find pt hv).trans h
  rw [walk_eq_ok hv]
  cases hf : find 2 pt.table (px (v * pgSize)) with
  | none => exact Or.inl rfl
  | some slot =>
      rw [hf] at hjoin
      cases slot with
      | none => exact Or.inr rfl
      | some e => cases hjoin

/-- The page at which the loop of `uvmcopy` goes to `err`, if it does. -/
def uvmcopyErr (old : PageTable) : ℕ → σ → PageTable → ℕ → Option ℕ
  | 0, _, _, _ => none
  | n + 1, s, new, i =>
      match walk old i with
      | .ok (some (some pte)) =>
          match kalloc s with
          | (none, _) => some (i / pgSize)
          | (some mem, s) =>
              match mappages (memmove mem pte.pa s) new i pgSize mem pte.perm with
              | .ok r =>
                  if r.2.2 then uvmcopyErr old n r.1 r.2.1 (i + pgSize) else some (i / pgSize)
              | .error _ => none
      | _ => uvmcopyErr old n s new (i + pgSize)

theorem uvmcopyLoop_skip {old : PageTable} {v : ℕ} (hv : v < maxPage) (he : old.leaf v = none)
    (n : ℕ) (s : σ) (new : PageTable) :
    uvmcopyLoop kv shm old (n + 1) s new (v * pgSize) =
      uvmcopyLoop kv shm old n s new ((v + 1) * pgSize) := by
  rw [Nat.succ_mul]
  rcases walk_of_hole hv he with hw | hw
  · rw [uvmcopyLoop, hw]
    rfl
  · rw [uvmcopyLoop, hw]
    rfl

theorem uvmcopyErr_skip {old : PageTable} {v : ℕ} (hv : v < maxPage) (he : old.leaf v = none)
    (n : ℕ) (s : σ) (new : PageTable) :
    uvmcopyErr old (n + 1) s new (v * pgSize) = uvmcopyErr old n s new ((v + 1) * pgSize) := by
  rw [Nat.succ_mul]
  rcases walk_of_hole hv he with hw | hw
  · rw [uvmcopyErr, hw]
  · rw [uvmcopyErr, hw]

theorem noHole_of_err {old new : ℕ → Option Pte} {v : ℕ}
    (hcopied : ∀ i < v, old i ≠ none → new i ≠ none) {o : Option ℕ} (ho : o = some v)
    (herr : ∀ i ∈ o, NoHole old 0 i) : NoHole new 0 v :=
  fun i _ hi => hcopied i hi (herr v ho i (Nat.zero_le i) hi)

theorem uvmcopyLoop_spec (B : Books allowed shm R) (old : PageTable) (n : ℕ) (s : σ)
    (new : PageTable) (v : ℕ) {user owned : ℕ → ℕ} (htop : v + n ≤ shmPage)
    (K : kv.Spares allowed (∀ i ∈ uvmcopyErr old n s new (v * pgSize), NoHole old.leaf 0 i))
    (hcopied : ∀ i < v, old.leaf i ≠ none → new.leaf i ≠ none)
    (hhole : ∀ i, v ≤ i → i < shmPage → new.leaf i = none)
    (h : R s (user + userCount new.leaf) (owned + new.pages)) :
    Yields allowed (uvmcopyLoop kv shm old n s new (v * pgSize))
      (CopyOutcome R user owned SamePerm old.leaf new.leaf v (v + n)) := by
  induction n generalizing s new v with
  | zero =>
      rw [uvmcopyLoop, yields_pure]
      exact CopyOutcome.done _ _ v h
  | succ n ih =>
      have hmax : v < maxPage := by
        have := layout
        omega
      have hnone := hhole v le_rfl (by omega)
      have hpage : v * pgSize / pgSize = v := Nat.mul_div_cancel v (by decide)
      cases he : old.leaf v with
      | none =>
          rw [uvmcopyLoop_skip hmax he]
          rw [uvmcopyErr_skip hmax he] at K
          have hcopied' : ∀ i < v + 1, old.leaf i ≠ none → new.leaf i ≠ none := by
            intro i hi hne
            by_cases hiv : i = v
            · rw [hiv, he] at hne
              exact absurd rfl hne
            · exact hcopied i (by omega) hne
          apply (ih s new (v + 1) (by omega) K hcopied' (fun i hi hi' => hhole i (by omega) hi')
            h).mono
          intro r hr
          exact hr.skip he hnone
      | some e =>
          rw [uvmcopyErr, walk_of_leaf hmax he] at K
          rw [uvmcopyLoop, walk_of_leaf hmax he, yields_ok_bind]
          cases hk : kalloc s with
          | mk r s' =>
              rw [hk] at K
              cases r with
              | none =>
                  refine copy_rollback B (K.imp ?_) (by omega) (B.kalloc_none h hk)
                  exact noHole_of_err hcopied (congrArg some hpage)
              | some mem =>
                  dsimp only at K ⊢
                  have h' := B.memmove mem e.pa (B.kalloc_some h hk)
                  rw [add_right_comm owned] at h'
                  have hmapped : new.leaf v ≠ none → allowed .mappagesRemap :=
                    fun hne => absurd hnone hne
                  have hmap : Yields allowed
                      (mappages (memmove mem e.pa s') new (v * pgSize) pgSize mem e.perm) _ :=
                    mappages_spec B hmax hmapped h'
                  cases hm : mappages (memmove mem e.pa s') new (v * pgSize) pgSize mem e.perm with
                  | error x =>
                      rw [hm, yields_error] at hmap
                      rw [yields_error_bind]
                      exact hmap
                  | ok r =>
                      rw [hm] at hmap K
                      obtain ⟨hR, hleaf⟩ := hmap
                      rw [yields_ok_bind]
                      dsimp only at K
                      cases hok : r.2.2 with
                      | true =>
                          rw [hok, if_pos rfl, ← Nat.succ_mul] at K
                          rw [if_pos rfl, ← Nat.succ_mul]
                          rw [hok, if_pos rfl] at hleaf
                          have hR' := share_fresh B (by omega) hnone hleaf hR
                          have hcopied' : ∀ i < v + 1, old.leaf i ≠ none → r.2.1.leaf i ≠ none := by
                            intro i hi hne
                            rw [hleaf]
                            by_cases hiv : i = v
                            · rw [hiv, Function.update_self]
                              exact fun hn => (nomatch hn)
                            · rw [Function.update_of_ne hiv]
                              exact hcopied i (by omega) hne
                          have hhole' : ∀ i, v + 1 ≤ i → i < shmPage → r.2.1.leaf i = none := by
                            intro i hi hi'
                            rw [hleaf, Function.update_of_ne (by omega)]
                            exact hhole i (by omega) hi'
                          apply (ih r.1 r.2.1 (v + 1) (by omega) K hcopied' hhole' hR').mono
                          intro r' hr'
                          rw [hleaf] at hr'
                          exact hr'.fill he hnone rfl
                      | false =>
                          rw [hok, if_neg (by decide)] at K
                          rw [if_neg (by decide)]
                          rw [hok, if_neg (by decide)] at hleaf
                          rw [add_right_comm owned] at hR
                          apply (B.kfree_owned hR).bind
                          intro s'' hs''
                          rw [← hleaf] at hs'' hcopied
                          rw [← hleaf]
                          refine copy_rollback B (K.imp ?_) (by omega) hs''
                          exact noHole_of_err hcopied (congrArg some hpage)

theorem uvmcopy_spec (B : Books allowed shm R) {s : σ} {old new : PageTable} {sz : ℕ}
    {user owned : ℕ → ℕ}
    (K : kv.Spares allowed (∀ i ∈ uvmcopyErr old (pageCount sz) s new 0, NoHole old.leaf 0 i))
    (hsz : pageCount sz ≤ shmPage) (hhole : ∀ i < shmPage, new.leaf i = none)
    (h : R s (user + userCount new.leaf) (owned + new.pages)) :
    Yields allowed (uvmcopy kv shm s old new sz)
      (CopyOutcome R user owned SamePerm old.leaf new.leaf 0 (pageCount sz)) := by
  have hspec : Yields allowed (uvmcopyLoop kv shm old (pageCount sz) s new (0 * pgSize)) _ :=
    uvmcopyLoop_spec B old (pageCount sz) s new 0 (by omega) (by rw [Nat.zero_mul]; exact K)
      (fun i hi => absurd hi (Nat.not_lt_zero i)) (fun i _ hi => hhole i hi) h
  rw [Nat.zero_mul, Nat.zero_add] at hspec
  exact hspec

theorem uvmshareLoop_skip {old : PageTable} {v : ℕ} (hv : v < maxPage) (he : old.leaf v = none)
    (n : ℕ) (s : σ) (new : PageTable) :
    uvmshareLoop shm old (n + 1) s new (v * pgSize) =
      uvmshareLoop shm old n s new ((v + 1) * pgSize) := by
  rw [Nat.succ_mul]
  rcases walk_of_hole hv he with hw | hw
  · rw [uvmshareLoop, hw]
    rfl
  · rw [uvmshareLoop, hw]
    rfl

/-- The loop of `uvmshare` at a mapped page: it maps the page and counts the reference, or
undoes what it has mapped so far. -/
theorem uvmshareLoop_leaf {old : PageTable} {v : ℕ} {e : Pte} (hv : v < maxPage)
    (he : old.leaf v = some e) (n : ℕ) (s : σ) (new : PageTable) :
    uvmshareLoop shm old (n + 1) s new (v * pgSize) =
      mappages s new (v * pgSize) pgSize e.pa e.perm >>= fun r =>
        if r.2.2 then kaddref e.pa r.1 >>= fun s =>
          uvmshareLoop shm old n s r.2.1 ((v + 1) * pgSize)
        else uvmunmapSparse shm r.1 r.2.1 0 (v * pgSize) >>= fun r => pure (r.1, r.2, false) := by
  rw [Nat.succ_mul, uvmshareLoop, walk_of_leaf hv he]
  change (if e.perm.isLeaf = false then _ else _) = _
  rw [if_neg (by rw [Perm.isLeaf_eq_true]; decide)]

/-- The loop of `uvmshare` from page `v` on, with `n` pages to go. The pages of the
old address space are held by someone other than the new one. -/
theorem uvmshareLoop_spec (B : Books allowed shm R) (old : PageTable)
    (n : ℕ) (s : σ) (new : PageTable) (v : ℕ) {user owned : ℕ → ℕ} (htop : v + n ≤ shmPage)
    (hheld : ∀ i < shmPage, ∀ e, old.leaf i = some e → 0 < user e.pa)
    (hhole : ∀ i, v ≤ i → i < shmPage → new.leaf i = none)
    (h : R s (user + userCount new.leaf) (owned + new.pages)) :
    Yields allowed (uvmshareLoop shm old n s new (v * pgSize))
      (CopyOutcome R user owned Eq old.leaf new.leaf v (v + n)) := by
  induction n generalizing s new v with
  | zero =>
      rw [uvmshareLoop, yields_pure]
      exact CopyOutcome.done _ _ v h
  | succ n ih =>
      have hmax : v < maxPage := by
        have := layout
        omega
      have K : Kernel.assignment7.Tolerates allowed := fun hk => nomatch hk
      have hnone := hhole v le_rfl (by omega)
      cases he : old.leaf v with
      | none =>
          rw [uvmshareLoop_skip hmax he]
          apply (ih s new (v + 1) (by omega) (fun i hi hi' => hhole i (by omega) hi') h).mono
          intro r hr
          exact hr.skip he hnone
      | some e =>
          rw [uvmshareLoop_leaf hmax he]
          have hmapped : new.leaf v ≠ none → allowed .mappagesRemap :=
            fun hne => absurd hnone hne
          apply (mappages_spec B hmax hmapped h).bind
          intro r hr
          obtain ⟨hR, hleaf⟩ := hr
          cases hok : r.2.2 with
          | true =>
              rw [if_pos rfl]
              rw [hok, if_pos rfl] at hleaf
              have hpos : 0 < (user + userCount new.leaf) e.pa := by
                have := hheld v (by omega) e he
                rw [Pi.add_apply]
                omega
              apply (B.kaddref hR hpos).bind
              intro s' hs'
              rw [add_assoc, ← userCount_fill (e := e) (by omega) hnone] at hs'
              have hs'' : R s' (user + userCount r.2.1.leaf) (owned + r.2.1.pages) := by
                rw [hleaf]
                exact hs'
              have hhole' : ∀ i, v + 1 ≤ i → i < shmPage → r.2.1.leaf i = none := by
                intro i hi hi'
                rw [hleaf, Function.update_of_ne (by omega)]
                exact hhole i (by omega) hi'
              apply (ih s' r.2.1 (v + 1) (by omega) hhole' hs'').mono
              intro r' hr'
              rw [hleaf] at hr'
              exact hr'.fill he hnone rfl
          | false =>
              rw [if_neg (by decide)]
              rw [hok, if_neg (by decide)] at hleaf
              rw [← hleaf] at hR
              rw [← hleaf]
              exact copy_rollback B K.spares (by omega) hR

theorem uvmshare_spec (B : Books allowed shm R) {s : σ} {old new : PageTable} {sz : ℕ}
    {user owned : ℕ → ℕ} (hsz : pageCount sz ≤ shmPage)
    (hheld : ∀ i < shmPage, ∀ e, old.leaf i = some e → 0 < user e.pa)
    (hhole : ∀ i < shmPage, new.leaf i = none)
    (h : R s (user + userCount new.leaf) (owned + new.pages)) :
    Yields allowed (uvmshare shm s old new sz)
      (CopyOutcome R user owned Eq old.leaf new.leaf 0 (pageCount sz)) := by
  have hspec := uvmshareLoop_spec B old (pageCount sz) s new 0 (by omega) hheld
    (fun i _ hi => hhole i hi) h
  rw [Nat.zero_mul, Nat.zero_add] at hspec
  exact hspec

/-! ### Faults -/

theorem ismapped_of_hole {pt : PageTable} {v : ℕ} (hv : v < maxPage) (he : pt.leaf v = none) :
    ismapped pt (v * pgSize) = .ok false := by
  rcases walk_of_hole hv he with hw | hw
  · rw [ismapped, hw]
    rfl
  · rw [ismapped, hw]
    rfl

theorem ismapped_of_leaf {pt : PageTable} {v : ℕ} {e : Pte} (hv : v < maxPage)
    (he : pt.leaf v = some e) : ismapped pt (v * pgSize) = .ok true := by
  rw [ismapped, walk_of_leaf hv he]
  rfl

/-- `vmfault` below a size that ends at `SHM_VA` or before: nothing changes, or the
page of the address was a hole and gets a fresh page. -/
theorem vmfault_spec (B : Books allowed shm R) {s : σ} {pt : PageTable} {psz va : ℕ}
    {user owned : ℕ → ℕ} (hsz : pageCount psz ≤ shmPage)
    (h : R s (user + userCount pt.leaf) (owned + pt.pages)) :
    Yields allowed (vmfault s pt psz va) fun r =>
      R r.1 (user + userCount r.2.1.leaf) (owned + r.2.1.pages) ∧
        (r.2.1.leaf = pt.leaf ∨ va < psz ∧ pt.leaf (va / pgSize) = none ∧
          ∃ pa, r.2.1.leaf =
            Function.update pt.leaf (va / pgSize) (some ⟨pa, userPerm true false⟩)) := by
  unfold vmfault
  apply Yields.ite
  · intro _
    rw [yields_pure]
    exact ⟨h, Or.inl rfl⟩
  · intro hlt
    have hva : va < psz := Nat.not_le.mp hlt
    have hv : va / pgSize < shmPage := by
      apply lt_of_lt_of_le _ hsz
      rw [lt_pageCount_iff]
      exact lt_of_le_of_lt (Nat.div_mul_le_self va pgSize) hva
    have hmax : va / pgSize < maxPage := by
      have := layout
      omega
    by_cases he : pt.leaf (va / pgSize) = none
    · simp only [pgRoundDown, ismapped_of_hole hmax he, yields_ok_bind]
      cases hk : kalloc s with
      | mk r s' =>
          cases r with
          | none => exact ⟨B.kalloc_none h hk, Or.inl rfl⟩
          | some mem =>
              have h' := B.memset mem 0 (B.kalloc_some h hk)
              rw [add_right_comm owned] at h'
              have hmapped : pt.leaf (va / pgSize) ≠ none → allowed .mappagesRemap :=
                fun hne => absurd he hne
              apply (mappages_spec B hmax hmapped h').bind
              intro r hr
              obtain ⟨hR, hleaf⟩ := hr
              cases hok : r.2.2 with
              | true =>
                  rw [if_pos rfl, yields_pure]
                  rw [hok, if_pos rfl] at hleaf
                  exact ⟨share_fresh B hv he hleaf hR, Or.inr ⟨hva, he, mem, hleaf⟩⟩
              | false =>
                  rw [if_neg (by decide)]
                  rw [hok, if_neg (by decide)] at hleaf
                  rw [add_right_comm owned] at hR
                  apply (B.kfree_owned hR).bind
                  intro s'' hs''
                  rw [yields_pure]
                  rw [← hleaf] at hs''
                  exact ⟨hs'', Or.inl hleaf⟩
    · obtain ⟨e, he'⟩ := Option.ne_none_iff_exists'.mp he
      simp only [pgRoundDown, ismapped_of_leaf hmax he', yields_ok_bind]
      exact ⟨h, Or.inl rfl⟩

end CopySpecs

end Memory
