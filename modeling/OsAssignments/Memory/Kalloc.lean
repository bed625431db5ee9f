import OsAssignments.Library.Outcome
import OsAssignments.Library.RefPool

/-!
# The page allocator

`Kmem` is the state of the Assignment 7 kernel's `kalloc.c`, and stands in for that of the
Assignment 4 kernel, which is not part of the sources: the free list, the table
`references` of reference counts, and the bytes of physical memory that the
allocator and the rest of the kernel write. The free list is the chain of
`struct run` read as a list of page addresses. `faults` is not in the source: it says, for the calls of
`kalloc` to come, which of them are to fail although a page is free.

`PageAllocator` is what `vm.c` and `proc.c` call, so that they can be modelled
over any allocator; `Books` is what their proofs use of it. The books of `Kmem`
are the balanced accounts of its pool: a page is shared when it is mapped as user
memory, once for each leaf that maps it, and owned when the kernel keeps it for
itself.
-/

namespace Memory

open Outcome RefPool

def pgSize : ℕ := 4096

def kernBase : ℕ := 0x80000000

/-- `PHYSTOP`: the end of the RAM the kernel uses. -/
def physTop : ℕ := kernBase + 128 * 1024 * 1024

def pgRoundUp (sz : ℕ) : ℕ := (sz + pgSize - 1) / pgSize * pgSize

def pgRoundDown (a : ℕ) : ℕ := a / pgSize * pgSize

/-- The texts of the panics of `kalloc.c`. -/
inductive KallocPanic
  | kfree
  | kaddref
  | kaddrefFreedPage
  deriving DecidableEq

/-- The panics a memory operation of the kernel can reach: those of the allocator,
and the texts of `vm.c` and `proc.c`. -/
inductive Panic
  | kalloc (p : KallocPanic)
  | walk
  | mappagesVaNotAligned
  | mappagesSizeNotAligned
  | mappagesSize
  | mappagesRemap
  | uvmunmapNotAligned
  | uvmunmapWalk
  | uvmunmapNotMapped
  | uvmunmapNotALeaf
  | uvmunmapSparseAlignment
  | freewalkLeaf
  | initExiting
  deriving DecidableEq

/-- What `vm.c` and `proc.c` ask of physical memory. `kalloc` returns the address
of a page, or `none` for a null pointer. -/
class PageAllocator (σ : Type) where
  kalloc : σ → Option ℕ × σ
  kfree : ℕ → σ → Except KallocPanic σ
  kaddref : ℕ → σ → Except KallocPanic σ
  memset : ℕ → UInt8 → σ → σ
  memmove : ℕ → ℕ → σ → σ

export PageAllocator (kalloc memset memmove)

/-- A call of `kfree` from outside `kalloc.c`. -/
def kfree {σ : Type} [PageAllocator σ] (pa : ℕ) (s : σ) : Except Panic σ :=
  (PageAllocator.kfree pa s).mapError .kalloc

/-- A call of `kaddref` from outside `kalloc.c`. -/
def kaddref {σ : Type} [PageAllocator σ] (pa : ℕ) (s : σ) : Except Panic σ :=
  (PageAllocator.kaddref pa s).mapError .kalloc

theorem kfree_eq_ok {σ : Type} [PageAllocator σ] {pa : ℕ} {s s' : σ}
    (h : PageAllocator.kfree pa s = .ok s') : kfree pa s = .ok s' := by
  rw [kfree, h]
  rfl

theorem kaddref_eq_ok {σ : Type} [PageAllocator σ] {pa : ℕ} {s s' : σ}
    (h : PageAllocator.kaddref pa s = .ok s') : kaddref pa s = .ok s' := by
  rw [kaddref, h]
  rfl

/-! ## kalloc.c -/

/-- The allocator of `kalloc.c`. `kernelEnd` is the linker's symbol `end`. -/
structure Kmem where
  kernelEnd : ℕ
  freelist : List ℕ
  references : ℕ → ℕ
  bytes : ℕ → UInt8
  faults : List Bool

def pageIndex (pa : ℕ) : ℕ := (pa - kernBase) / pgSize

/-- A page address the allocator may hand out: what `kfree` and `kaddref` test. -/
def Frame (kernelEnd pa : ℕ) : Prop := pa % pgSize = 0 ∧ kernelEnd ≤ pa ∧ pa < physTop

instance (kernelEnd pa : ℕ) : Decidable (Frame kernelEnd pa) :=
  inferInstanceAs (Decidable (_ ∧ _ ∧ _))

namespace Kmem

/-- Write `references[page_index(pa)]`. -/
def setRef (m : Kmem) (pa count : ℕ) : Kmem :=
  { m with references := fun i => if i = pageIndex pa then count else m.references i }

/-- `memset` over the page at `pa`. -/
def memset (pa : ℕ) (c : UInt8) (m : Kmem) : Kmem :=
  { m with bytes := fun x => if pa ≤ x ∧ x < pa + pgSize then c else m.bytes x }

/-- `memmove` of one page. -/
def memmove (dst src : ℕ) (m : Kmem) : Kmem :=
  { m with bytes := fun x =>
      if dst ≤ x ∧ x < dst + pgSize then m.bytes (src + (x - dst)) else m.bytes x }

def push (m : Kmem) (pa : ℕ) : Kmem := { m with freelist := pa :: m.freelist }

def kfree (pa : ℕ) (m : Kmem) : Except KallocPanic Kmem :=
  if ¬ Frame m.kernelEnd pa then
    throw .kfree
  else if m.references (pageIndex pa) > 1 then
    pure (m.setRef pa (m.references (pageIndex pa) - 1))
  else
    pure (((m.setRef pa 0).memset pa 1).push pa)

/-- `kalloc()` with a page at the head of the free list. -/
def takeFree (m : Kmem) : Option ℕ × Kmem :=
  match m.freelist with
  | [] => (none, m)
  | r :: rest => (some r, ((({ m with freelist := rest } : Kmem).setRef r 1).memset r 5))

def kalloc (m : Kmem) : Option ℕ × Kmem :=
  match m.faults with
  | true :: rest => (none, { m with faults := rest })
  | false :: rest => { m with faults := rest }.takeFree
  | [] => m.takeFree

def kaddref (pa : ℕ) (m : Kmem) : Except KallocPanic Kmem :=
  if ¬ Frame m.kernelEnd pa then
    throw .kaddref
  else if m.references (pageIndex pa) < 1 then
    throw .kaddrefFreedPage
  else
    pure (m.setRef pa (m.references (pageIndex pa) + 1))

/-- The loop of `freerange` at address `p`, with `n` pages to go. -/
def freerange : ℕ → ℕ → Kmem → Except KallocPanic Kmem
  | 0, _, m => pure m
  | n + 1, p, m => do
      let m ← Kmem.kfree p m
      freerange n (p + pgSize) m

def kinit (m : Kmem) : Except KallocPanic Kmem :=
  freerange ((physTop - pgRoundUp m.kernelEnd) / pgSize) (pgRoundUp m.kernelEnd) m

def pool (m : Kmem) : Pool ℕ := ⟨m.freelist, fun pa => m.references (pageIndex pa)⟩

end Kmem

instance : PageAllocator Kmem where
  kalloc := Kmem.kalloc
  kfree := Kmem.kfree
  kaddref := Kmem.kaddref
  memset := Kmem.memset
  memmove := Kmem.memmove

/-! ## The books of an allocator -/

/-- `R s user owned` is kept by the allocator's entry points, where `user` counts
the leaves that map a page as user memory and `owned` the kernel's own uses of it.
`shm` is the page that unmapping never frees. -/
structure Books {σ : Type} [PageAllocator σ] (allowed : Panic → Prop) (shm : ℕ)
    (R : σ → (ℕ → ℕ) → (ℕ → ℕ) → Prop) : Prop where
  kalloc_some : ∀ {s s' : σ} {user owned : ℕ → ℕ} {pa : ℕ}, R s user owned →
    kalloc s = (some pa, s') → R s' user (owned + one pa)
  kalloc_none : ∀ {s s' : σ} {user owned : ℕ → ℕ}, R s user owned →
    kalloc s = (none, s') → R s' user owned
  share : ∀ {s : σ} {user owned : ℕ → ℕ} {pa : ℕ}, R s user (owned + one pa) →
    R s (user + one pa) owned
  kfree : ∀ {s : σ} {user owned : ℕ → ℕ} {pa : ℕ}, R s (user + one pa) owned →
    Yields allowed (Memory.kfree pa s) fun s' => R s' user owned
  kaddref : ∀ {s : σ} {user owned : ℕ → ℕ} {pa : ℕ}, R s user owned → 0 < user pa →
    Yields allowed (Memory.kaddref pa s) fun s' => R s' (user + one pa) owned
  shm_unshared : ∀ {s : σ} {user owned : ℕ → ℕ}, R s (user + one shm) owned → R s user owned
  memset : ∀ {s : σ} {user owned : ℕ → ℕ} (pa : ℕ) (c : UInt8), R s user owned →
    R (Memory.memset pa c s) user owned
  memmove : ∀ {s : σ} {user owned : ℕ → ℕ} (dst src : ℕ), R s user owned →
    R (Memory.memmove dst src s) user owned

theorem Books.kfree_owned {σ : Type} [PageAllocator σ] {allowed : Panic → Prop} {shm : ℕ}
    {R : σ → (ℕ → ℕ) → (ℕ → ℕ) → Prop} (B : Books allowed shm R) {s : σ}
    {user owned : ℕ → ℕ} {pa : ℕ} (h : R s user (owned + one pa)) :
    Yields allowed (Memory.kfree pa s) fun s' => R s' user owned :=
  B.kfree (B.share h)

theorem Books.mono {σ : Type} [PageAllocator σ] {allowed allowed' : Panic → Prop} {shm : ℕ}
    {R : σ → (ℕ → ℕ) → (ℕ → ℕ) → Prop} (B : Books allowed shm R)
    (h : ∀ e, allowed e → allowed' e) : Books allowed' shm R :=
  { B with
    kfree := fun hR => (B.kfree hR).weaken h
    kaddref := fun hR hpos => (B.kaddref hR hpos).weaken h }

/-- An allocator that nothing is asked of keeps the empty books: its own panics are
then among those allowed. -/
theorem Books.trivial {σ : Type} [PageAllocator σ] (allowed : Panic → Prop) (shm : ℕ)
    (h : ∀ p, allowed (.kalloc p)) :
    Books (σ := σ) allowed shm fun _ _ _ => True where
  kalloc_some _ _ := True.intro
  kalloc_none _ _ := True.intro
  share _ := True.intro
  kfree {s _ _ pa} _ := by
    unfold Memory.kfree
    cases PageAllocator.kfree pa s with
    | ok s' => exact True.intro
    | error p => exact h p
  kaddref {s _ _ pa} _ _ := by
    unfold Memory.kaddref
    cases PageAllocator.kaddref pa s with
    | ok s' => exact True.intro
    | error p => exact h p
  shm_unshared _ := True.intro
  memset _ _ _ := True.intro
  memmove _ _ _ := True.intro

/-! ## The books of kalloc.c -/

namespace Kmem

@[simp] theorem setRef_kernelEnd (m : Kmem) (pa c : ℕ) : (m.setRef pa c).kernelEnd = m.kernelEnd :=
  rfl

@[simp] theorem memset_kernelEnd (m : Kmem) (pa : ℕ) (c : UInt8) :
    (m.memset pa c).kernelEnd = m.kernelEnd := rfl

@[simp] theorem memset_pool (m : Kmem) (pa : ℕ) (c : UInt8) : (m.memset pa c).pool = m.pool := rfl

@[simp] theorem memmove_kernelEnd (m : Kmem) (dst src : ℕ) :
    (m.memmove dst src).kernelEnd = m.kernelEnd := rfl

@[simp] theorem memmove_pool (m : Kmem) (dst src : ℕ) : (m.memmove dst src).pool = m.pool := rfl

@[simp] theorem push_kernelEnd (m : Kmem) (pa : ℕ) : (m.push pa).kernelEnd = m.kernelEnd := rfl

@[simp] theorem push_pool_free (m : Kmem) (pa : ℕ) : (m.push pa).pool.free = pa :: m.pool.free :=
  rfl

@[simp] theorem push_pool_count (m : Kmem) (pa : ℕ) : (m.push pa).pool.count = m.pool.count := rfl

@[simp] theorem setRef_pool_free (m : Kmem) (pa c : ℕ) : (m.setRef pa c).pool.free = m.pool.free :=
  rfl

@[simp] theorem setRef_pool_count_self (m : Kmem) (pa c : ℕ) :
    (m.setRef pa c).pool.count pa = c := if_pos rfl

end Kmem

theorem pgRoundUp_aligned (a : ℕ) : pgRoundUp a % pgSize = 0 := Nat.mul_mod_left _ _

theorem le_pgRoundUp (a : ℕ) : a ≤ pgRoundUp a := by
  unfold pgRoundUp pgSize
  omega

theorem pageIndex_injective {pa pa' : ℕ} (ha : pa % pgSize = 0) (ha' : pa' % pgSize = 0)
    (hb : kernBase ≤ pa) (hb' : kernBase ≤ pa') (h : pageIndex pa = pageIndex pa') :
    pa = pa' := by
  unfold pageIndex pgSize kernBase at h
  unfold pgSize at ha ha'
  unfold kernBase at hb hb'
  omega

namespace Kmem

theorem setRef_pool_count_of_ne {m : Kmem} {pa pa' : ℕ} (c : ℕ) (hend : kernBase ≤ m.kernelEnd)
    (hf : Frame m.kernelEnd pa) (hf' : Frame m.kernelEnd pa') (hne : pa' ≠ pa) :
    (m.setRef pa c).pool.count pa' = m.pool.count pa' := by
  apply if_neg
  intro h
  exact hne (pageIndex_injective hf'.1 hf.1 (hend.trans hf'.2.1) (hend.trans hf.2.1) h)

/-- The books of `kalloc.c`: `reserved` are the pages the kernel has taken at boot
and never gives back. -/
def Balanced (kernelEnd : ℕ) (reserved : ℕ → ℕ) (m : Kmem) (user owned : ℕ → ℕ) : Prop :=
  m.kernelEnd = kernelEnd ∧ Accounts (Frame kernelEnd) m.pool user (owned + reserved)

section

variable {kernelEnd : ℕ} {reserved user owned : ℕ → ℕ} {m m' : Kmem} {pa : ℕ}

theorem Balanced.takeFree_some (hend : kernBase ≤ kernelEnd)
    (h : Balanced kernelEnd reserved m user owned) (hk : m.takeFree = (some pa, m')) :
    Balanced kernelEnd reserved m' user (owned + one pa) := by
  obtain ⟨rfl, hacc⟩ := h
  unfold takeFree at hk
  cases hf : m.freelist with
  | nil =>
      rw [hf] at hk
      cases hk
  | cons r rest =>
      rw [hf] at hk
      cases hk
      have hmem : pa ∈ m.freelist := by
        rw [hf]
        exact List.mem_cons_self
      have hframe : Frame m.kernelEnd pa := ((hacc.mem_free pa).mp hmem).1
      refine ⟨rfl, ?_⟩
      rw [add_right_comm]
      apply hacc.take hf
      · rfl
      · exact setRef_pool_count_self _ pa 1
      · intro q hq hne
        exact setRef_pool_count_of_ne (m := { m with freelist := rest }) 1 hend hframe hq hne

theorem Balanced.takeFree_none (h : Balanced kernelEnd reserved m user owned)
    (hk : m.takeFree = (none, m')) : Balanced kernelEnd reserved m' user owned := by
  unfold takeFree at hk
  cases hf : m.freelist with
  | nil =>
      rw [hf] at hk
      cases hk
      exact h
  | cons r rest =>
      rw [hf] at hk
      cases hk

theorem Balanced.withFaults (h : Balanced kernelEnd reserved m user owned) (fs : List Bool) :
    Balanced kernelEnd reserved { m with faults := fs } user owned := h

theorem Balanced.kalloc_some (hend : kernBase ≤ kernelEnd)
    (h : Balanced kernelEnd reserved m user owned) (hk : m.kalloc = (some pa, m')) :
    Balanced kernelEnd reserved m' user (owned + one pa) := by
  unfold kalloc at hk
  cases hf : m.faults with
  | nil =>
      rw [hf] at hk
      exact h.takeFree_some hend hk
  | cons f rest =>
      rw [hf] at hk
      cases f with
      | true => cases hk
      | false => exact (h.withFaults rest).takeFree_some hend hk

theorem Balanced.kalloc_none (h : Balanced kernelEnd reserved m user owned)
    (hk : m.kalloc = (none, m')) : Balanced kernelEnd reserved m' user owned := by
  unfold kalloc at hk
  cases hf : m.faults with
  | nil =>
      rw [hf] at hk
      exact h.takeFree_none hk
  | cons f rest =>
      rw [hf] at hk
      cases f with
      | true =>
          cases hk
          exact h.withFaults rest
      | false => exact (h.withFaults rest).takeFree_none hk

/-- A reference to a shared page can be given back: `kfree` does not panic, and
the page is free again when it was the last one. -/
theorem Balanced.kfree (hend : kernBase ≤ kernelEnd)
    (h : Balanced kernelEnd reserved m (user + one pa) owned) :
    ∃ m', Kmem.kfree pa m = .ok m' ∧ Balanced kernelEnd reserved m' user owned := by
  obtain ⟨rfl, hacc⟩ := h
  have hframe : Frame m.kernelEnd pa :=
    hacc.valid_of_held pa (by rw [Pi.add_apply, one_self]; omega)
  have hne : ∀ c q, Frame m.kernelEnd q → q ≠ pa →
      (m.setRef pa c).pool.count q = m.pool.count q :=
    fun c q hq hqp => setRef_pool_count_of_ne c hend hframe hq hqp
  unfold Kmem.kfree
  rw [if_neg (not_not.mpr hframe)]
  by_cases hlt : m.references (pageIndex pa) > 1
  · rw [if_pos hlt]
    refine ⟨_, rfl, rfl, ?_⟩
    exact hacc.release_shared hlt rfl (setRef_pool_count_self m pa _) (hne _)
  · rw [if_neg hlt]
    refine ⟨_, rfl, rfl, ?_⟩
    exact hacc.release_last hlt rfl (setRef_pool_count_self m pa 0) (hne 0)

theorem Balanced.share (h : Balanced kernelEnd reserved m user (owned + one pa)) :
    Balanced kernelEnd reserved m (user + one pa) owned := by
  refine ⟨h.1, ?_⟩
  have hacc := h.2
  rw [add_right_comm] at hacc
  exact hacc.convert

theorem Balanced.freelist_perm (h : Balanced kernelEnd reserved m user owned)
    (h' : Balanced kernelEnd reserved m' user owned) : m'.freelist.Perm m.freelist := by
  refine (List.perm_ext_iff_of_nodup h'.2.nodup h.2.nodup).mpr fun pa => ?_
  exact (h'.2.mem_free pa).trans (h.2.mem_free pa).symm

theorem Balanced.kaddref (hend : kernBase ≤ kernelEnd)
    (h : Balanced kernelEnd reserved m user owned) (hu : 0 < user pa) :
    ∃ m', Kmem.kaddref pa m = .ok m' ∧ Balanced kernelEnd reserved m' (user + one pa) owned := by
  obtain ⟨rfl, hacc⟩ := h
  have hframe : Frame m.kernelEnd pa := hacc.valid_of_held pa (by omega)
  have hcount : m.references (pageIndex pa) = user pa + (owned + reserved) pa :=
    hacc.count_eq pa hframe
  unfold Kmem.kaddref
  rw [if_neg (not_not.mpr hframe), if_neg (by omega)]
  refine ⟨_, rfl, rfl, ?_⟩
  exact hacc.retain hu rfl (setRef_pool_count_self m pa _)
    fun q hq hqp => setRef_pool_count_of_ne _ hend hframe hq hqp

theorem Balanced.unshared_of_reserved (h : Balanced kernelEnd reserved m user owned)
    (hr : 0 < reserved pa) : user pa = 0 :=
  (h.2.exclusive pa (by rw [Pi.add_apply]; omega)).2

end

/-- The accounts of `kalloc.c` are books that no entry point breaks, and the entry
points do not panic. -/
theorem books {kernelEnd shm : ℕ} {reserved : ℕ → ℕ} (allowed : Panic → Prop)
    (hend : kernBase ≤ kernelEnd) (hshm : 0 < reserved shm) :
    Books (σ := Kmem) allowed shm (Balanced kernelEnd reserved) where
  kalloc_some h hk := h.kalloc_some hend hk
  kalloc_none h hk := h.kalloc_none hk
  share h := h.share
  kfree h := by
    obtain ⟨m', hm', hb⟩ := h.kfree hend
    exact yields_of_eq_ok (kfree_eq_ok hm') hb
  kaddref h hu := by
    obtain ⟨m', hm', hb⟩ := h.kaddref hend hu
    exact yields_of_eq_ok (kaddref_eq_ok hm') hb
  shm_unshared h := by
    have := h.unshared_of_reserved hshm
    rw [Pi.add_apply, one_self] at this
    omega
  memset _ _ h := h
  memmove _ _ h := h

/-! ## kinit -/

/-- `freerange` has freed the pages below `p`. -/
structure FreedBelow (kernelEnd p : ℕ) (m : Kmem) : Prop where
  kernelEnd_eq : m.kernelEnd = kernelEnd
  nodup : m.freelist.Nodup
  mem_freelist : ∀ pa, pa ∈ m.freelist ↔ Frame kernelEnd pa ∧ pa < p
  references : ∀ i, m.references i = 0

theorem frame_lt_add_iff {kernelEnd p pa : ℕ} (hp : Frame kernelEnd p) :
    Frame kernelEnd pa ∧ pa < p + pgSize ↔ pa = p ∨ Frame kernelEnd pa ∧ pa < p := by
  constructor
  · intro h
    obtain ⟨hframe, hlt⟩ := h
    have h1 := hframe.1
    have h2 := hp.1
    unfold pgSize at h1 h2 hlt
    by_cases hpa : pa = p
    · exact Or.inl hpa
    · exact Or.inr ⟨hframe, by omega⟩
  · intro h
    rcases h with rfl | ⟨hframe, hlt⟩
    · exact ⟨hp, Nat.lt_add_of_pos_right (by decide)⟩
    · exact ⟨hframe, hlt.trans (Nat.lt_add_of_pos_right (by decide))⟩

theorem FreedBelow.kfree {kernelEnd p : ℕ} {m : Kmem} (h : FreedBelow kernelEnd p m)
    (hp : Frame kernelEnd p) :
    ∃ m', Kmem.kfree p m = .ok m' ∧ FreedBelow kernelEnd (p + pgSize) m' := by
  obtain ⟨rfl, hnodup, hmem, href⟩ := h
  unfold Kmem.kfree
  rw [if_neg (not_not.mpr hp), if_neg (by rw [href]; decide)]
  refine ⟨_, rfl, rfl, ?_, ?_, ?_⟩
  · apply List.nodup_cons.mpr
    refine ⟨?_, hnodup⟩
    intro hin
    exact Nat.lt_irrefl p ((hmem p).mp hin).2
  · intro pa
    rw [frame_lt_add_iff hp, ← hmem pa]
    exact List.mem_cons
  · intro i
    change (if i = pageIndex p then 0 else m.references i) = 0
    rw [href, ite_self]

theorem freerange_spec {kernelEnd : ℕ} (n p : ℕ) (m : Kmem) (h : FreedBelow kernelEnd p m)
    (hp : p % pgSize = 0) (hlo : kernelEnd ≤ p) (hhi : p + n * pgSize ≤ physTop) :
    ∃ m', freerange n p m = .ok m' ∧ FreedBelow kernelEnd (p + n * pgSize) m' := by
  induction n generalizing p m with
  | zero =>
      rw [Nat.zero_mul, Nat.add_zero]
      exact ⟨m, rfl, h⟩
  | succ n ih =>
      rw [Nat.succ_mul] at hhi ⊢
      have hpos : 0 < pgSize := by decide
      obtain ⟨m₁, hk, h₁⟩ := h.kfree ⟨hp, hlo, by omega⟩
      have hp' : (p + pgSize) % pgSize = 0 := by rw [Nat.add_mod_right, hp]
      obtain ⟨m₂, hf, h₂⟩ := ih (p + pgSize) m₁ h₁ hp' (by omega) (by omega)
      refine ⟨m₂, ?_, ?_⟩
      · rw [freerange, hk]
        exact hf
      · rw [show p + (n * pgSize + pgSize) = p + pgSize + n * pgSize by omega]
        exact h₂

theorem kinit_end {kernelEnd : ℕ} (hend : kernelEnd ≤ physTop) :
    pgRoundUp kernelEnd + (physTop - pgRoundUp kernelEnd) / pgSize * pgSize = physTop := by
  have htop : physTop = 557056 * pgSize := by decide
  rw [htop] at hend ⊢
  unfold pgRoundUp
  unfold pgSize at hend ⊢
  omega

theorem FreedBelow.start {m : Kmem} (hfree : m.freelist = []) (href : ∀ i, m.references i = 0) :
    FreedBelow m.kernelEnd (pgRoundUp m.kernelEnd) m := by
  refine ⟨rfl, ?_, ?_, href⟩
  · rw [hfree]
    exact List.nodup_nil
  · intro pa
    rw [hfree]
    constructor
    · intro hin
      cases hin
    · intro hin
      obtain ⟨⟨halign, hle, _⟩, hlt⟩ := hin
      unfold pgRoundUp at hlt
      unfold pgSize at halign hlt
      omega

/-- `kinit` puts every page from `end` up to `PHYSTOP` on the free list, and no
page is in use. -/
theorem kinit_spec {m : Kmem} (hend : m.kernelEnd ≤ physTop) (hfree : m.freelist = [])
    (href : ∀ i, m.references i = 0) :
    ∃ m', kinit m = .ok m' ∧ Balanced m.kernelEnd 0 m' 0 0 := by
  have htop := kinit_end hend
  obtain ⟨m', hm', hfreed⟩ := freerange_spec _ _ m (FreedBelow.start hfree href)
    (pgRoundUp_aligned _) (le_pgRoundUp _) htop.le
  rw [htop] at hfreed
  refine ⟨m', hm', hfreed.kernelEnd_eq, ?_⟩
  have hzero : ∀ pa, (0 : ℕ → ℕ) pa + ((0 : ℕ → ℕ) + 0) pa = 0 := fun _ => rfl
  constructor
  · intro pa _
    rw [hzero]
    exact hfreed.references _
  · intro pa hpa
    rw [hzero] at hpa
    cases hpa
  · intro pa hpa
    cases hpa
  · exact hfreed.nodup
  · intro pa
    rw [hzero]
    constructor
    · intro hin
      exact ⟨((hfreed.mem_freelist pa).mp hin).1, rfl⟩
    · intro hin
      exact (hfreed.mem_freelist pa).mpr ⟨hin.1, hin.1.2.2⟩

end Kmem

end Memory
