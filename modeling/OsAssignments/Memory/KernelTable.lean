import Mathlib.Order.Interval.Finset.Nat
import OsAssignments.Library.Pruning
import OsAssignments.Memory.Supply

/-!
# The kernel's page table

`kvmmake` of `vm.c` with `kvmmap` and `proc_mapstacks`: the devices, the kernel's text and
the rest of memory at their own addresses, the trampoline, and one stack for each process
between guard pages. Whatever pages `kalloc` returns, the table maps just that, and how many
pages it takes is known beforehand.
-/

namespace Memory

open Outcome RefPool RadixTree

/-! ## memlayout.h -/

/-- The page number of `UART0`. -/
def uartPage : ℕ := 0x10000

/-- The page number of `VIRTIO0`. -/
def virtioPage : ℕ := 0x10001

/-- The page number of `PLIC`. -/
def plicPage : ℕ := 0xc000

/-- The size that `kvmmake` maps of the PLIC, in pages. -/
def plicPages : ℕ := 0x4000

/-- The page number of `KERNBASE`. -/
def kernPage : ℕ := 0x80000

/-- The page number of `PHYSTOP`. -/
def physPage : ℕ := 0x88000

/-- The page number of `KSTACK(p)`. -/
def kstackPage (p : ℕ) : ℕ := trampolinePage - (p + 1) * 2

theorem kernelLayout : uartPage = 65536 ∧ virtioPage = 65537 ∧ plicPage = 49152 ∧
    plicPages = 16384 ∧ kernPage = 524288 ∧ physPage = 557056 ∧ trampolinePage = 67108863 := by
  decide

/-- The symbols of `kernel.ld`, the first two in pages: the kernel's text starts at `KERNBASE`,
has the trampoline in it and ends at `etext`, and the data ends at `end`, below `PHYSTOP`. -/
structure Image where
  etextPage : ℕ
  trampoline : ℕ
  kernelEnd : ℕ
  text : kernPage ≤ trampoline ∧ trampoline < etextPage
  data : etextPage * pgSize ≤ kernelEnd
  ram : etextPage < physPage
  fits : kernelEnd ≤ physTop

/-! ## vm.c -/

/-- The panics of `kvmmap` and `proc_mapstacks` and those below them, and the fault of a
`memset` of the page `0`. -/
inductive BootPanic
  | memory (p : Panic)
  | kvmmap
  | kalloc
  | nullPage
  deriving DecidableEq

/-- `PTE_R | PTE_W`, as for a trapframe. -/
def dataPerm : Perm := trapframePerm

/-- `PTE_R | PTE_X`, as for the trampoline. -/
def textPerm : Perm := trampolinePerm

section Code

variable {σ : Type} [PageAllocator σ]

def kvmmap (s : σ) (pt : PageTable) (va pa sz : ℕ) (perm : Perm) :
    Except BootPanic (σ × PageTable) := do
  let r ← (mappages s pt va sz pa perm).mapError .memory
  if r.2.2 = false then
    throw .kvmmap
  else
    pure (r.1, r.2.1)

/-- The loop of `proc_mapstacks` from the process `p` on, with `n` processes to go. -/
def procMapstacksLoop : ℕ → ℕ → σ → PageTable → Except BootPanic (σ × PageTable)
  | 0, _, s, pt => pure (s, pt)
  | n + 1, p, s, pt =>
      match kalloc s with
      | (none, _) => throw .kalloc
      | (some pa, s) => do
          let r ← kvmmap s pt (kstackPage p * pgSize) pa pgSize dataPerm
          procMapstacksLoop n (p + 1) r.1 r.2

/-- `proc_mapstacks(kpgtbl)`; `nproc` is `NPROC`. -/
def procMapstacks (nproc : ℕ) (s : σ) (pt : PageTable) : Except BootPanic (σ × PageTable) :=
  procMapstacksLoop nproc 0 s pt

/-- `kvmmake()`, which does not look whether `kalloc` has returned a page. -/
def kvmmake (img : Image) (nproc : ℕ) (s : σ) : Except BootPanic (σ × PageTable) :=
  match kalloc s with
  | (none, _) => throw .nullPage
  | (some root, s) => do
      let va := uartPage * pgSize
      let r ← kvmmap (memset root 0 s) ⟨root, empty 2⟩ va va pgSize dataPerm
      let va := virtioPage * pgSize
      let r ← kvmmap r.1 r.2 va va pgSize dataPerm
      let va := plicPage * pgSize
      let r ← kvmmap r.1 r.2 va va 0x4000000 dataPerm
      let etext := img.etextPage * pgSize
      let r ← kvmmap r.1 r.2 kernBase kernBase (etext - kernBase) textPerm
      let r ← kvmmap r.1 r.2 etext etext (physTop - etext) dataPerm
      let r ← kvmmap r.1 r.2 trampolineVa (img.trampoline * pgSize) pgSize textPerm
      procMapstacks nproc r.1 r.2

end Code

/-! ## Mapping a range -/

/-- The pages from `v` on, `n` of them, are mapped in order to those from `pa` on. -/
def direct (f : ℕ → Option Pte) (v n pa : ℕ) (perm : Perm) : ℕ → Option Pte := fun w =>
  if v ≤ w ∧ w < v + n then some ⟨pa + (w - v) * pgSize, perm⟩ else f w

theorem direct_of_outside {f : ℕ → Option Pte} {v n pa w : ℕ} {perm : Perm}
    (h : w < v ∨ v + n ≤ w) : direct f v n pa perm w = f w :=
  if_neg (by omega)

theorem direct_of_inside {f : ℕ → Option Pte} {v n w : ℕ} {perm : Perm} (h : v ≤ w)
    (h' : w < v + n) : direct f v n (v * pgSize) perm w = some ⟨w * pgSize, perm⟩ := by
  have hpa : v * pgSize + (w - v) * pgSize = w * pgSize := by
    rw [← Nat.add_mul, Nat.add_sub_cancel' h]
  rw [direct, if_pos ⟨h, h'⟩, hpa]

theorem direct_zero (f : ℕ → Option Pte) (v pa : ℕ) (perm : Perm) : direct f v 0 pa perm = f := by
  funext w
  exact direct_of_outside (by omega)

theorem direct_one (f : ℕ → Option Pte) (v pa : ℕ) (perm : Perm) :
    direct f v 1 pa perm = Function.update f v (some ⟨pa, perm⟩) := by
  funext w
  by_cases hw : w = v
  · rw [hw, direct, if_pos (by omega), Function.update_self, Nat.sub_self, Nat.zero_mul, add_zero]
  · rw [direct_of_outside (by omega), Function.update_of_ne hw]

theorem direct_succ (f : ℕ → Option Pte) (v n pa : ℕ) (perm : Perm) :
    direct (Function.update f v (some ⟨pa, perm⟩)) (v + 1) n (pa + pgSize) perm =
      direct f v (n + 1) pa perm := by
  funext w
  by_cases hw : w = v
  · rw [hw, direct_of_outside (by omega), Function.update_self, direct, if_pos (by omega),
      Nat.sub_self, Nat.zero_mul, add_zero]
  · by_cases hin : v + 1 ≤ w ∧ w < v + 1 + n
    · have hpa : pa + pgSize + (w - (v + 1)) * pgSize = pa + (w - v) * pgSize := by
        have hsub : w - v = w - (v + 1) + 1 := by omega
        rw [hsub, Nat.add_mul, Nat.one_mul]
        omega
      rw [direct, if_pos hin, direct, if_pos (by omega), hpa]
    · rw [direct_of_outside (by omega), Function.update_of_ne hw, direct_of_outside (by omega)]

section Mapping

variable {σ : Type} [PageAllocator σ]

theorem mappagesLoop_succ (n : ℕ) (s : σ) (pt : PageTable) (v pa : ℕ) (perm : Perm) :
    mappagesLoop (n + 1) s pt (v * pgSize) pa perm = (do
      let r ← mappages s pt (v * pgSize) pgSize pa perm
      if r.2.2 = false then
        pure r
      else
        mappagesLoop n r.1 r.2.1 ((v + 1) * pgSize) (pa + pgSize) perm) := by
  rw [mappages, if_neg (not_not.mpr (Nat.mul_mod_left v pgSize)), if_neg (by decide),
    if_neg (by decide), show pgSize / pgSize = 1 from rfl, mappagesLoop, mappagesLoop]
  cases walkAlloc s pt (v * pgSize) with
  | error e => rfl
  | ok r =>
      obtain ⟨s', pt', ok⟩ := r
      cases ok with
      | false => rfl
      | true =>
          change (if _ then _ else _) = (if _ then _ else _) >>= _
          by_cases he : (lookup 2 pt'.table (px (v * pgSize))).isSome = true
          · rw [if_pos he, if_pos he]
            rfl
          · rw [if_neg he, if_neg he, mappagesLoop, Nat.add_mul, Nat.one_mul]
            rfl

theorem mappages_eq_loop {n : ℕ} (hn : 0 < n) (s : σ) (pt : PageTable) (v pa : ℕ) (perm : Perm) :
    mappages s pt (v * pgSize) (n * pgSize) pa perm =
      mappagesLoop n s pt (v * pgSize) pa perm := by
  have hsize : n * pgSize ≠ 0 := Nat.mul_ne_zero hn.ne' (by decide)
  rw [mappages, if_neg (not_not.mpr (Nat.mul_mod_left v pgSize)),
    if_neg (not_not.mpr (Nat.mul_mod_left n pgSize)), if_neg hsize,
    Nat.mul_div_cancel n (by decide)]

variable {allowed : Panic → Prop} {shm : ℕ} {R : σ → (ℕ → ℕ) → (ℕ → ℕ) → Prop}
  {supply : σ → ℕ} {owned : ℕ → ℕ} {n budget : ℕ} {V : Finset ℕ} {f : ℕ → Option Pte}

/-- The table `pt` is being built: it maps `f`, its tables are those on the ways to `V`, and
of `budget` pages the supply and the tables are left. -/
structure Building (R : σ → (ℕ → ℕ) → (ℕ → ℕ) → Prop) (supply : σ → ℕ) (owned : ℕ → ℕ)
    (budget : ℕ) (V : Finset ℕ) (f : ℕ → Option Pte) (s : σ) (pt : PageTable) : Prop where
  books : R s 0 (owned + pt.pages)
  leaf : pt.leaf = f
  spans : Spans pt V
  supply_eq : supply s + tableCount V = budget

/-- The next range is mapped, unless its tables go beyond the budget. -/
theorem Building.mappagesLoop (B : Books (fun _ => False) shm R) (S : Supplied supply) (n : ℕ)
    {s : σ} {pt : PageTable} {v pa : ℕ} {perm : Perm} (hmax : v + n ≤ maxPage)
    (hhole : ∀ w, v ≤ w → w < v + n → f w = none) (h : Building R supply owned budget V f s pt) :
    Yields (fun _ => False) (mappagesLoop n s pt (v * pgSize) pa perm) fun r =>
      (r.2.2 = true → Building R supply owned budget (V ∪ Finset.Ico v (v + n))
        (direct f v n pa perm) r.1 r.2.1) ∧
      (r.2.2 = false → budget < tableCount (V ∪ Finset.Ico v (v + n))) := by
  induction n generalizing s pt v pa V f with
  | zero =>
      rw [Memory.mappagesLoop, yields_pure, add_zero, Finset.Ico_self, Finset.union_empty,
        direct_zero]
      exact ⟨fun _ => h, fun hfalse => absurd hfalse.symm Bool.false_ne_true⟩
  | succ n ih =>
      have hv : v < maxPage := by omega
      have hnone : f v = none := hhole v le_rfl (by omega)
      have hcount := tableCount_insert V v
      have hpages : V ∪ Finset.Ico v (v + (n + 1)) =
          insert v V ∪ Finset.Ico (v + 1) (v + 1 + n) := by
        ext w
        rw [Finset.mem_union, Finset.mem_union, Finset.mem_insert, Finset.mem_Ico, Finset.mem_Ico,
          or_comm (a := w = v), or_assoc]
        exact or_congr Iff.rfl (by omega)
      have hspec : Yields (fun _ => False) (mappages s pt (v * pgSize) pgSize pa perm) _ :=
        (mappages_spec B hv (fun hne => hne (h.leaf ▸ hnone)) h.books).and
          (mappages_supply S hv h.spans)
      rw [mappagesLoop_succ]
      apply hspec.bind
      rintro ⟨s', pt', ok⟩ ⟨⟨hbooks, _⟩, hiff, hok⟩
      cases ok with
      | false =>
          rw [if_pos rfl, yields_pure]
          refine ⟨fun hfalse => absurd hfalse Bool.false_ne_true, fun _ => ?_⟩
          have hshort : ¬ newTables V v ≤ supply s := fun hle =>
            Bool.false_ne_true (hiff.mpr hle)
          have hmono : tableCount (insert v V) ≤
              tableCount (insert v V ∪ Finset.Ico (v + 1) (v + 1 + n)) :=
            tableCount_mono Finset.subset_union_left
          have hsupply := h.supply_eq
          rw [hpages]
          omega
      | true =>
          have hmaps := hok rfl
          have hsupply : supply s' + newTables V v = supply s := hmaps.supply_eq
          rw [if_neg (fun hfalse => absurd hfalse.symm Bool.false_ne_true), hpages, ← direct_succ]
          refine ih (by omega) (fun w hw hw' => ?_) ⟨hbooks, ?_, hmaps.spans, ?_⟩
          · rw [Function.update_of_ne (by omega)]
            exact hhole w (by omega) (by omega)
          · exact h.leaf ▸ hmaps.leaf
          · have htotal := h.supply_eq
            change supply s' + _ = _
            omega

theorem Building.kvmmap (B : Books (fun _ => False) shm R) (S : Supplied supply)
    {s : σ} {pt : PageTable} {v : ℕ} (h : Building R supply owned budget V f s pt) (pa : ℕ)
    (perm : Perm) (hn : 0 < n) (hmax : v + n ≤ maxPage) (hhole : ∀ w, v ≤ w → w < v + n → f w = none) :
    Yields (fun e => e = .kvmmap ∧ budget < tableCount (V ∪ Finset.Ico v (v + n)))
      (kvmmap s pt (v * pgSize) pa (n * pgSize) perm)
      fun r => Building R supply owned budget (V ∪ Finset.Ico v (v + n))
        (direct f v n pa perm) r.1 r.2 := by
  unfold Memory.kvmmap
  rw [mappages_eq_loop hn]
  apply ((h.mappagesLoop B S n hmax hhole).mapError fun _ hfalse => hfalse.elim).bind
  intro r hr
  cases hok : r.2.2 with
  | false =>
      rw [if_pos rfl, yields_throw]
      exact ⟨rfl, hr.2 hok⟩
  | true =>
      rw [if_neg (by decide), yields_pure]
      exact hr.1 hok

end Mapping

/-! ## The pages that kvmmake maps -/

def Device (v : ℕ) : Prop :=
  v = uartPage ∨ v = virtioPage ∨ plicPage ≤ v ∧ v < plicPage + plicPages

/-- The pages that `kvmmake` maps before it comes to the stacks. -/
def kernelSpan : Finset ℕ :=
  Finset.Ico uartPage (virtioPage + 1) ∪ Finset.Ico plicPage (plicPage + plicPages) ∪
    Finset.Ico kernPage physPage ∪ Finset.Ico trampolinePage (trampolinePage + 1)

theorem mem_kernelSpan {v : ℕ} : v ∈ kernelSpan ↔
    Device v ∨ kernPage ≤ v ∧ v < physPage ∨ v = trampolinePage := by
  have hnext : virtioPage = uartPage + 1 := by decide
  unfold kernelSpan Device
  simp only [Finset.mem_union, Finset.mem_Ico]
  omega

theorem image_div_Ico {a b k : ℕ} (hk : 0 < k) (hab : a ≤ b) :
    (Finset.Ico a (b + 1)).image (fun v => v / k) = Finset.Ico (a / k) (b / k + 1) := by
  ext x
  rw [Finset.mem_image, Finset.mem_Ico]
  constructor
  · rintro ⟨v, hv, rfl⟩
    rw [Finset.mem_Ico] at hv
    exact ⟨Nat.div_le_div_right hv.1,
      Nat.lt_succ_of_le (Nat.div_le_div_right (Nat.le_of_lt_succ hv.2))⟩
  · rintro ⟨hlo, hhi⟩
    have hmul : x * k ≤ b := (Nat.le_div_iff_mul_le hk).mp (Nat.le_of_lt_succ hhi)
    by_cases ha : a ≤ x * k
    · exact ⟨x * k, Finset.mem_Ico.mpr ⟨ha, Nat.lt_succ_of_le hmul⟩, Nat.mul_div_cancel x hk⟩
    · have hx : x ≤ a / k := (Nat.le_div_iff_mul_le hk).mpr (Nat.le_of_not_le ha)
      exact ⟨a, Finset.mem_Ico.mpr ⟨le_rfl, Nat.lt_succ_of_le hab⟩, le_antisymm hlo hx⟩

theorem tableCount_kernelSpan : tableCount kernelSpan = 101 := by
  have htramp : trampolinePage = 67108863 := by decide
  have hplic : plicPage + plicPages = 65535 + 1 := by decide
  have hphys : physPage = 557055 + 1 := by decide
  have himage : ∀ {k : ℕ}, 0 < k → kernelSpan.image (fun v => v / k) =
      Finset.Ico (uartPage / k) (virtioPage / k + 1) ∪
        Finset.Ico (plicPage / k) (65535 / k + 1) ∪
        Finset.Ico (kernPage / k) (557055 / k + 1) ∪
        Finset.Ico (67108863 / k) (67108863 / k + 1) := by
    intro k hk
    unfold kernelSpan
    rw [htramp, hplic, hphys, Finset.image_union, Finset.image_union, Finset.image_union,
      image_div_Ico hk (by decide), image_div_Ico hk (by decide), image_div_Ico hk (by decide),
      image_div_Ico hk le_rfl]
  have hlow : (Finset.Ico 128 129 ∪ Finset.Ico 96 128 ∪ Finset.Ico 1024 1088 ∪
      Finset.Ico 131071 131072 : Finset ℕ).card = 98 := by
    rw [Finset.card_union_of_disjoint, Finset.card_union_of_disjoint,
      Finset.card_union_of_disjoint, Nat.card_Ico, Nat.card_Ico, Nat.card_Ico, Nat.card_Ico]
    · simp
    · simp [Finset.disjoint_left]
      omega
    · simp [Finset.disjoint_left]
      omega
  rw [tableCount, himage (by decide), himage (by decide)]
  simp only [uartPage, virtioPage, plicPage, kernPage, Nat.reducePow, Nat.reduceDiv,
    Nat.reduceAdd]
  rw [hlow]
  rfl

/-! ## The ranges one after another -/

section Kvmmake

variable {σ : Type} [PageAllocator σ] {shm : ℕ} {R : σ → (ℕ → ℕ) → (ℕ → ℕ) → Prop}
  {supply : σ → ℕ} {owned : ℕ → ℕ} {n budget : ℕ} {V : Finset ℕ} {f g : ℕ → Option Pte}

/-- The pages `V` of the kernel have been mapped and no others. -/
structure Covers (V : Finset ℕ) (f : ℕ → Option Pte) : Prop where
  within : V ⊆ kernelSpan
  outside : ∀ v, v ∉ V → f v = none

theorem Covers.empty : Covers ∅ fun _ => none := ⟨Finset.empty_subset _, fun _ _ => rfl⟩

theorem Covers.direct {v : ℕ} (h : Covers V f) (pa : ℕ) (perm : Perm)
    (hin : Finset.Ico v (v + n) ⊆ kernelSpan) :
    Covers (V ∪ Finset.Ico v (v + n)) (direct f v n pa perm) := by
  refine ⟨Finset.union_subset h.within hin, fun w hw => ?_⟩
  rw [Finset.mem_union, Finset.mem_Ico, not_or] at hw
  rw [direct_of_outside (by omega)]
  exact h.outside w hw.1

theorem kernelSpan_lt {v : ℕ} (hv : v ∈ kernelSpan) : v < maxPage := by
  obtain ⟨huart, hvirtio, hplic, hplics, hkern, hphys, htramp⟩ := kernelLayout
  have hmax : maxPage = trampolinePage + 1 := by decide
  rw [mem_kernelSpan] at hv
  unfold Device at hv
  omega

theorem Building.kvmmap_span (B : Books (fun _ => False) shm R) (S : Supplied supply)
    {allowed : BootPanic → Prop} {Q : σ × PageTable → Prop}
    {next : σ × PageTable → Except BootPanic (σ × PageTable)}
    {s : σ} {pt : PageTable} {v va pa size : ℕ} {perm : Perm}
    (h : Building R supply owned budget V f s pt) (hf : Covers V f)
    (hshort : budget < tableCount kernelSpan → allowed .kvmmap) (hva : va = v * pgSize)
    (hsize : size = n * pgSize) (hn : 0 < n)
    (hin : ∀ w, v ≤ w → w < v + n → w ∈ kernelSpan ∧ w ∉ V)
    (hnext : ∀ r : σ × PageTable, Covers (V ∪ Finset.Ico v (v + n)) (Memory.direct f v n pa perm) →
      Building R supply owned budget (V ∪ Finset.Ico v (v + n)) (Memory.direct f v n pa perm)
        r.1 r.2 → Yields allowed (next r) Q) :
    Yields allowed (Memory.kvmmap s pt va pa size perm >>= next) Q := by
  have hlast : v + n - 1 < maxPage := kernelSpan_lt (hin _ (by omega) (by omega)).1
  have hcovers := hf.direct (n := n) pa perm fun w hw =>
    (hin w (Finset.mem_Ico.mp hw).1 (Finset.mem_Ico.mp hw).2).1
  have hmap := h.kvmmap B S pa perm hn (by omega) fun w hlo hhi =>
    hf.outside w (hin w hlo hhi).2
  rw [hva, hsize]
  apply (hmap.weaken fun e he => ?_).bind
  · exact fun r hr => hnext r hcovers hr
  · rw [he.1]
    exact hshort (he.2.trans_le (tableCount_mono hcovers.within))

/-! ## The stacks -/

/-- The leaves `g` are those of `f` and the stacks of the first processes. -/
structure Stacked (f g : ℕ → Option Pte) (kstacks : List ℕ) : Prop where
  stack : ∀ p pa, kstacks[p]? = some pa → g (kstackPage p) = some ⟨pa, dataPerm⟩
  other : ∀ v, (∀ p < kstacks.length, v ≠ kstackPage p) → g v = f v

theorem kstackPage_inj {p q : ℕ} (hp : p < 255) (hq : q < 255)
    (h : kstackPage p = kstackPage q) : p = q := by
  have htramp : trampolinePage = 67108863 := by decide
  unfold kstackPage at h
  omega

theorem kstackPage_lt (p : ℕ) : kstackPage p + 1 ≤ maxPage := by
  have hmax : maxPage = trampolinePage + 1 := by decide
  unfold kstackPage
  omega

theorem Stacked.nil (f : ℕ → Option Pte) : Stacked f f [] where
  stack p pa h := by
    rw [List.getElem?_nil] at h
    cases h
  other _ _ := rfl

theorem Stacked.push {kstacks : List ℕ} (h : Stacked f g kstacks) (hlt : kstacks.length < 255)
    (pa : ℕ) : Stacked f (Function.update g (kstackPage kstacks.length) (some ⟨pa, dataPerm⟩))
      (kstacks ++ [pa]) where
  stack p pa' hp := by
    rcases Nat.lt_or_ge p kstacks.length with hold | hnew
    · have hne : kstackPage p ≠ kstackPage kstacks.length := fun heq =>
        hold.ne (kstackPage_inj (by omega) hlt heq)
      rw [List.getElem?_append_left hold] at hp
      rw [Function.update_of_ne hne]
      exact h.stack p pa' hp
    · rw [List.getElem?_append_right hnew] at hp
      have hlast : p - kstacks.length = 0 := by
        have hbound := (List.getElem?_eq_some_iff.mp hp).1
        rw [List.length_singleton] at hbound
        omega
      rw [hlast, List.getElem?_cons_zero] at hp
      cases hp
      have hp : p = kstacks.length := by omega
      rw [hp, Function.update_self]
  other v hv := by
    rw [List.length_append, List.length_singleton] at hv
    rw [Function.update_of_ne (hv _ (Nat.lt_succ_self _))]
    exact h.other v fun p hp => hv p (Nat.lt_succ_of_lt hp)

theorem newTables_kstackPage {p : ℕ} (hp : p < 255) (hV : trampolinePage ∈ V) :
    newTables V (kstackPage p) = 0 := by
  have htramp : trampolinePage = 67108863 := by decide
  have hlow : kstackPage p / 512 = trampolinePage / 512 := by
    unfold kstackPage
    omega
  have hroot : kstackPage p / 512 ^ 2 = trampolinePage / 512 ^ 2 := by
    unfold kstackPage
    omega
  unfold newTables
  rw [if_pos (Finset.mem_image.mpr ⟨_, hV, hroot.symm⟩),
    if_pos (Finset.mem_image.mpr ⟨_, hV, hlow.symm⟩)]

theorem Building.procMapstacksLoop (B : Books (fun _ => False) shm R) (S : Supplied supply) (n : ℕ)
    {s : σ} {pt : PageTable} {kstacks : List ℕ}
    (h : Building R supply (fun pa => kstacks.count pa) budget V g s pt) (hV : trampolinePage ∈ V)
    (hg : Stacked f g kstacks) (hn : kstacks.length + n ≤ 255)
    (hhole : ∀ p < 255, f (kstackPage p) = none) :
    Yields (fun e => e = .kalloc ∧ budget < tableCount V + n)
      (Memory.procMapstacksLoop n kstacks.length s pt) fun r =>
      ∃ (kstacks' : List ℕ) (V' : Finset ℕ) (g' : ℕ → Option Pte) (left : ℕ),
        kstacks'.length = kstacks.length + n ∧ left + n = budget ∧ tableCount V' = tableCount V ∧
        Stacked f g' kstacks' ∧
        Building R supply (fun pa => kstacks'.count pa) left V' g' r.1 r.2 := by
  induction n generalizing s pt kstacks V g budget with
  | zero => exact ⟨kstacks, V, g, budget, rfl, rfl, rfl, hg, h⟩
  | succ n ih =>
      rw [Memory.procMapstacksLoop]
      have hbudget := h.supply_eq
      cases hk : kalloc s with
      | mk r s' =>
          cases r with
          | none =>
              rw [S.kalloc_none hk] at hbudget
              exact ⟨rfl, by omega⟩
          | some pa =>
              have hs := S.kalloc_some hk
              have hlt : kstacks.length < 255 := by omega
              have hstack : Building R supply (fun q => (kstacks ++ [pa]).count q) (budget - 1) V g
                  s' pt := by
                refine ⟨?_, h.leaf, h.spans, by omega⟩
                have hcount : (fun q => (kstacks ++ [pa]).count q) + pt.pages =
                    (fun q => kstacks.count q) + pt.pages + one pa := by
                  funext q
                  rw [Pi.add_apply, Pi.add_apply, Pi.add_apply, List.count_append, count_singleton]
                  omega
                rw [hcount]
                exact B.kalloc_some h.books hk
              have hnone : g (kstackPage kstacks.length) = none := by
                rw [hg.other _ fun p hp heq => hp.ne (kstackPage_inj (by omega) hlt heq.symm)]
                exact hhole _ hlt
              have htables := tableCount_insert V (kstackPage kstacks.length)
              rw [newTables_kstackPage hlt hV, add_zero] at htables
              have hpage : V ∪ Finset.Ico (kstackPage kstacks.length)
                  (kstackPage kstacks.length + 1) = insert (kstackPage kstacks.length) V := by
                rw [Nat.Ico_succ_singleton, Finset.union_comm, ← Finset.insert_eq]
              have hmap := hstack.kvmmap B S (v := kstackPage kstacks.length) pa dataPerm Nat.one_pos
                (kstackPage_lt _) fun w hlo hhi => by
                  rw [Nat.le_antisymm (Nat.le_of_lt_succ hhi) hlo]
                  exact hnone
              rw [hpage, direct_one, htables, Nat.one_mul] at hmap
              apply (hmap.weaken fun e he => ?_).bind
              · rintro ⟨s'', pt'⟩ hr
                have hlength : (kstacks ++ [pa]).length = kstacks.length + 1 :=
                  List.length_append
                have hnext := ih hr (Finset.mem_insert_of_mem hV) (hg.push hlt pa) (by omega)
                rw [hlength, htables] at hnext
                apply (hnext.weaken fun e he => ⟨he.1, by omega⟩).mono
                rintro ⟨s₃, pt₃⟩ ⟨kstacks', V', g', left, hlen, hleft, hcount, hstacked, hbuild⟩
                exact ⟨kstacks', V', g', left, by omega, by omega, hcount, hstacked, hbuild⟩
              · -- the budget still covers the tables, so no `kvmmap` fails
                exact absurd he.2 (by omega)

/-! ## The whole table -/

/-- What the kernel's page table maps: the devices, the text and the rest of memory at their
own addresses, the trampoline, a stack for each process, and nothing else. -/
structure KernelMap (img : Image) (kstacks : List ℕ) (f : ℕ → Option Pte) : Prop where
  device : ∀ v, Device v → f v = some ⟨v * pgSize, dataPerm⟩
  text : ∀ v, kernPage ≤ v → v < img.etextPage → f v = some ⟨v * pgSize, textPerm⟩
  ram : ∀ v, img.etextPage ≤ v → v < physPage → f v = some ⟨v * pgSize, dataPerm⟩
  trampoline : f trampolinePage = some ⟨img.trampoline * pgSize, textPerm⟩
  stack : ∀ p pa, kstacks[p]? = some pa → f (kstackPage p) = some ⟨pa, dataPerm⟩
  other : ∀ v, v ∉ kernelSpan → (∀ p < kstacks.length, v ≠ kstackPage p) → f v = none

/-- What `kvmmake` maps before it comes to the stacks. -/
structure DirectMap (img : Image) (f : ℕ → Option Pte) : Prop where
  device : ∀ v, Device v → f v = some ⟨v * pgSize, dataPerm⟩
  text : ∀ v, kernPage ≤ v → v < img.etextPage → f v = some ⟨v * pgSize, textPerm⟩
  ram : ∀ v, img.etextPage ≤ v → v < physPage → f v = some ⟨v * pgSize, dataPerm⟩
  trampoline : f trampolinePage = some ⟨img.trampoline * pgSize, textPerm⟩
  other : ∀ v, v ∉ kernelSpan → f v = none

theorem kstackPage_outside {p : ℕ} (hp : p < 255) : kstackPage p ∉ kernelSpan := by
  obtain ⟨huart, hvirtio, hplic, hplics, hkern, hphys, htramp⟩ := kernelLayout
  rw [mem_kernelSpan]
  unfold Device kstackPage
  omega

theorem DirectMap.stacked {img : Image} {kstacks : List ℕ} (h : DirectMap img f)
    (hlength : kstacks.length ≤ 255) (hg : Stacked f g kstacks) : KernelMap img kstacks g := by
  have hsame : ∀ v ∈ kernelSpan, g v = f v := fun v hv => hg.other v fun p hp heq =>
    kstackPage_outside (by omega) (heq ▸ hv)
  refine ⟨fun v hv => ?_, fun v hlo hhi => ?_, fun v hlo hhi => ?_, ?_, hg.stack, fun v hv hp => ?_⟩
  · rw [hsame v (mem_kernelSpan.mpr (Or.inl hv))]
    exact h.device v hv
  · rw [hsame v (mem_kernelSpan.mpr (Or.inr (Or.inl ⟨hlo, hhi.trans img.ram⟩)))]
    exact h.text v hlo hhi
  · rw [hsame v (mem_kernelSpan.mpr (Or.inr (Or.inl
      ⟨(img.text.1.trans img.text.2.le).trans hlo, hhi⟩)))]
    exact h.ram v hlo hhi
  · rw [hsame _ (mem_kernelSpan.mpr (Or.inr (Or.inr rfl)))]
    exact h.trampoline
  · rw [hg.other v hp]
    exact h.other v hv

/-- The ranges in the order in which `kvmmake` maps them. -/
def kernelLeaves (img : Image) : ℕ → Option Pte :=
  let f := direct (fun _ => none) uartPage 1 (uartPage * pgSize) dataPerm
  let f := direct f virtioPage 1 (virtioPage * pgSize) dataPerm
  let f := direct f plicPage plicPages (plicPage * pgSize) dataPerm
  let f := direct f kernPage (img.etextPage - kernPage) (kernPage * pgSize) textPerm
  let f := direct f img.etextPage (physPage - img.etextPage) (img.etextPage * pgSize) dataPerm
  direct f trampolinePage 1 (img.trampoline * pgSize) textPerm

theorem directMap_kernelLeaves (img : Image) : DirectMap img (kernelLeaves img) := by
  obtain ⟨huart, hvirtio, hplic, hplics, hkern, hphys, htramp⟩ := kernelLayout
  have htext := img.text
  have hram := img.ram
  constructor
  · unfold kernelLeaves
    rintro v (rfl | rfl | hv)
    · rw [direct_of_outside (by omega), direct_of_outside (by omega), direct_of_outside (by omega),
        direct_of_outside (by omega), direct_of_outside (by omega),
        direct_of_inside (by omega) (by omega)]
    · rw [direct_of_outside (by omega), direct_of_outside (by omega), direct_of_outside (by omega),
        direct_of_outside (by omega), direct_of_inside (by omega) (by omega)]
    · rw [direct_of_outside (by omega), direct_of_outside (by omega), direct_of_outside (by omega),
        direct_of_inside (by omega) (by omega)]
  · intro v hlo hhi
    unfold kernelLeaves
    rw [direct_of_outside (by omega), direct_of_outside (by omega),
      direct_of_inside hlo (by omega)]
  · intro v hlo hhi
    unfold kernelLeaves
    rw [direct_of_outside (by omega), direct_of_inside hlo (by omega)]
  · unfold kernelLeaves
    rw [direct_one, Function.update_self]
  · intro v hv
    rw [mem_kernelSpan] at hv
    unfold Device at hv
    unfold kernelLeaves
    rw [direct_of_outside (by omega), direct_of_outside (by omega), direct_of_outside (by omega),
      direct_of_outside (by omega), direct_of_outside (by omega), direct_of_outside (by omega)]

/-- `kvmmake` takes the root, 101 tables and a stack for each process. If there are as many
pages it returns a table that maps what it is to map, and otherwise it panics or writes to the
page `0`. -/
theorem kvmmake_spec (B : Books (fun _ => False) shm R) (S : Supplied supply) (img : Image)
    {nproc : ℕ} (hn : nproc ≤ 255) {s : σ} (hfree : R s 0 0) :
    Yields (fun e => (e = .nullPage ∨ e = .kvmmap ∨ e = .kalloc) ∧ supply s < 102 + nproc)
      (kvmmake img nproc s) fun r =>
      supply r.1 + (102 + nproc) = supply s ∧ ∃ kstacks : List ℕ, kstacks.length = nproc ∧
        KernelMap img kstacks r.2.leaf ∧ R r.1 0 ((fun pa => kstacks.count pa) + r.2.pages) := by
  obtain ⟨huart, hvirtio, hplic, hplics, hkern, hphys, htramp⟩ := kernelLayout
  have htext := img.text
  have hram := img.ram
  unfold kvmmake
  cases hk : kalloc s with
  | mk r s₁ =>
      cases r with
      | none => exact ⟨Or.inl rfl, by rw [S.kalloc_none hk]; omega⟩
      | some root =>
          have hsupply := S.kalloc_some hk
          have hempty : pages 2 (empty 2 : Table 2) = 0 := pages_empty 2
          have hstart : Building R supply (fun pa => ([] : List ℕ).count pa) (supply s₁) ∅
              (fun _ => none) (memset root 0 s₁) ⟨root, empty 2⟩ := by
            refine ⟨?_, leaf_empty root, spans_empty root, S.memset root 0 s₁⟩
            have hpages : (fun pa => ([] : List ℕ).count pa) +
                (⟨root, empty 2⟩ : PageTable).pages = 0 + one root := by
              rw [PageTable.pages, hempty, add_zero]
              rfl
            rw [hpages]
            exact B.memset root 0 (B.kalloc_some hfree hk)
          have hshort : supply s₁ < tableCount kernelSpan →
              (BootPanic.kvmmap = .nullPage ∨ BootPanic.kvmmap = .kvmmap ∨
                BootPanic.kvmmap = .kalloc) ∧ supply s < 102 + nproc := by
            rw [tableCount_kernelSpan]
            exact fun hlt => ⟨Or.inr (Or.inl rfl), by omega⟩
          dsimp only
          have hbase : kernBase = kernPage * pgSize := by decide
          have htop : physTop = physPage * pgSize := by decide
          generalize htextSize : img.etextPage * pgSize - kernBase = textSize
          generalize hdataSize : physTop - img.etextPage * pgSize = dataSize
          rw [hbase, ← Nat.sub_mul] at htextSize
          rw [htop, ← Nat.sub_mul] at hdataSize
          refine hstart.kvmmap_span B S .empty hshort (v := uartPage) (n := 1) rfl
            (Nat.one_mul _).symm Nat.one_pos (fun w hlo hhi => ?_) fun r₁ hc₁ h₁ => ?_
          · exact ⟨mem_kernelSpan.mpr (Or.inl (Or.inl (by omega))), Finset.notMem_empty w⟩
          refine h₁.kvmmap_span B S hc₁ hshort (v := virtioPage) (n := 1) rfl
            (Nat.one_mul _).symm Nat.one_pos (fun w hlo hhi => ?_) fun r₂ hc₂ h₂ => ?_
          · rw [mem_kernelSpan]
            simp only [Finset.mem_union, Finset.mem_Ico, Finset.notMem_empty, false_or]
            unfold Device
            omega
          refine h₂.kvmmap_span B S hc₂ hshort (v := plicPage) (n := plicPages) rfl
            (by decide) (by decide) (fun w hlo hhi => ?_) fun r₃ hc₃ h₃ => ?_
          · rw [mem_kernelSpan]
            simp only [Finset.mem_union, Finset.mem_Ico, Finset.notMem_empty, false_or]
            unfold Device
            omega
          refine h₃.kvmmap_span B S hc₃ hshort (v := kernPage) (n := img.etextPage - kernPage)
            hbase htextSize.symm (by omega) (fun w hlo hhi => ?_) fun r₄ hc₄ h₄ => ?_
          · rw [mem_kernelSpan]
            simp only [Finset.mem_union, Finset.mem_Ico, Finset.notMem_empty, false_or]
            unfold Device
            omega
          refine h₄.kvmmap_span B S hc₄ hshort (v := img.etextPage) (n := physPage - img.etextPage)
            rfl hdataSize.symm (by omega) (fun w hlo hhi => ?_) fun r₅ hc₅ h₅ => ?_
          · rw [mem_kernelSpan]
            simp only [Finset.mem_union, Finset.mem_Ico, Finset.notMem_empty, false_or]
            unfold Device
            omega
          refine h₅.kvmmap_span B S hc₅ hshort (v := trampolinePage) (n := 1) rfl
            (Nat.one_mul _).symm Nat.one_pos (fun w hlo hhi => ?_) fun r₆ hc₆ h₆ => ?_
          · rw [mem_kernelSpan]
            simp only [Finset.mem_union, Finset.mem_Ico, Finset.notMem_empty, false_or]
            unfold Device
            omega
          have hall : ∅ ∪ Finset.Ico uartPage (uartPage + 1) ∪
              Finset.Ico virtioPage (virtioPage + 1) ∪ Finset.Ico plicPage (plicPage + plicPages) ∪
              Finset.Ico kernPage (kernPage + (img.etextPage - kernPage)) ∪
              Finset.Ico img.etextPage (img.etextPage + (physPage - img.etextPage)) ∪
              Finset.Ico trampolinePage (trampolinePage + 1) = kernelSpan := by
            ext w
            rw [mem_kernelSpan]
            simp only [Finset.mem_union, Finset.mem_Ico, Finset.notMem_empty, false_or]
            unfold Device
            omega
          have hdirect := directMap_kernelLeaves img
          rw [hall, hbase] at h₆
          have hstacks := h₆.procMapstacksLoop B S nproc
            (mem_kernelSpan.mpr (Or.inr (Or.inr rfl))) (.nil _) (by simpa using hn)
            fun p hp => hdirect.other _ (kstackPage_outside hp)
          rw [tableCount_kernelSpan] at hstacks
          apply (hstacks.weaken ?_).mono
          · rintro r ⟨kstacks, V', g', left, hlength, hleft, hcount, hstacked, hbuild⟩
            have hlast := hbuild.supply_eq
            rw [List.length_nil, zero_add] at hlength
            refine ⟨by omega, kstacks, hlength, ?_, hbuild.books⟩
            rw [hbuild.leaf]
            exact hdirect.stacked (by omega) hstacked
          · rintro e ⟨he, hlt⟩
            exact ⟨Or.inr (Or.inr he), by omega⟩

end Kvmmake

end Memory
