import OsAssignments.Memory.Boot

/-!
# The reference counts of the Assignment 7 kernel

`references` counts mappings. In every state that a run reaches from the state after
boot, the count of a page that is mapped as user memory is the number of leaves
below the sizes that map it, over all processes and threads. The free list holds
each page that nothing maps and the kernel does not keep, once, and no other; and
the exit and reaping of the processes and threads that share a page puts it there,
in whatever order they go.
-/

open scoped BigOperators

namespace Memory

open Outcome RefPool RadixTree Machine

variable {nproc : ℕ} {g : Globals} {m m' : Machine Kmem nproc}

/-- The runs in which every size stays at `SHM_VA` or below. -/
abbrev FitRun (g : Globals) (m m' : Machine Kmem nproc) : Prop :=
  Relation.ReflTransGen (Step .assignment7 g fun _ _ m' => m'.Fits) m m'

theorem Boot.inv_of_fitRun {kernelPages : Finset ℕ} (h : Boot g kernelPages m)
    (hrun : FitRun g m m') : Inv (BootBooks kernelPages m) g m' :=
  inv_of_run h.books (permits_all _) (fun _ _ _ hfits => Or.inr ⟨trivial, hfits⟩) h.inv hrun

/-! ## Counting the mappings -/

/-- The leaves below `PGROUNDUP(sz)` that map the page `pa`. -/
def Space.mapped (p : Space) (pa : ℕ) : ℕ :=
  ((Finset.range (pageCount p.sz)).filter fun v =>
    (p.pagetable.leaf v).map Pte.pa = some pa).card

/-- The leaves below `PGROUNDUP(sz)` that map the page `pa`, over the page tables of
all processes and threads. -/
def mapped (m : Machine Kmem nproc) (pa : ℕ) : ℕ :=
  ∑ i, (m.proc i).elim 0 fun p => p.mapped pa

theorem tally_apply (o : Option ℕ) (pa : ℕ) : tally o pa = if o = some pa then 1 else 0 := by
  cases o with
  | none => rfl
  | some q =>
      rw [tally_some, one_apply]
      by_cases h : pa = q
      · rw [if_pos h, if_pos (by rw [h])]
      · rw [if_neg h, if_neg fun heq => h (Option.some.inj heq).symm]

theorem Space.WellMapped.mapped_eq {p : Space} (h : p.WellMapped g) (pa : ℕ) :
    p.mapped pa = userCount p.pagetable.leaf pa := by
  unfold Space.mapped userCount
  rw [Finset.sum_apply, Finset.card_filter]
  simp only [tally_apply]
  apply Finset.sum_subset
  · intro v hv
    rw [Finset.mem_range] at hv ⊢
    exact hv.trans_le (pageCount_le_shmPage h.sz_le)
  · intro v hv hv'
    rw [Finset.mem_range] at hv hv'
    rw [h.shape.hole v (Nat.not_lt.mp hv') hv]
    rfl

theorem mapped_eq_user (h : ∀ i p, m.proc i = some p → p.WellMapped g) (pa : ℕ) :
    mapped m pa = m.user pa := by
  unfold mapped Machine.user
  rw [Finset.sum_apply]
  apply Finset.sum_congr rfl
  intro i _
  cases hp : m.proc i with
  | none => rfl
  | some p => exact (h i p hp).mapped_eq pa

/-! ## What the invariant says -/

section Reading

variable {kernelEnd : ℕ} {reserved : ℕ → ℕ}

theorem references_of_inv (h : Inv (Kmem.Balanced kernelEnd reserved) g m) {pa : ℕ}
    (hpa : 0 < mapped m pa) : m.mem.references (pageIndex pa) = mapped m pa := by
  rw [mapped_eq_user h.spaces] at hpa ⊢
  have hacc := h.books.2
  have hframe := hacc.valid_of_held pa (by omega)
  have hcount : m.mem.references (pageIndex pa) = m.user pa + (m.owned + reserved) pa :=
    hacc.count_eq pa hframe
  have hzero : (m.owned + reserved) pa = 0 := by
    by_contra hne
    have := (hacc.exclusive pa (Nat.pos_of_ne_zero hne)).2
    omega
  rw [hcount, hzero, add_zero]

theorem spaceOwned_le (i : Fin nproc) (pa : ℕ) : spaceOwned (m.proc i) pa ≤ m.owned pa := by
  rw [owned_eq m i, Pi.add_apply]
  omega

theorem not_free_of_inv (h : Inv (Kmem.Balanced kernelEnd reserved) g m)
    (htramp : g.trampoline < kernelEnd) (hshm : 0 < reserved g.shmPagePa) {pa : ℕ}
    (hfree : pa ∈ m.mem.freelist) {i : Fin nproc} {p : Space} (hp : m.proc i = some p) :
    p.pagetable.pages pa = 0 ∧ ∀ v e, p.pagetable.leaf v = some e → e.pa ≠ pa := by
  have hwell := h.spaces i p hp
  obtain ⟨hframe, hzero⟩ := (h.books.2.mem_free pa).mp hfree
  rw [Pi.add_apply] at hzero
  have howned := spaceOwned_le (m := m) i pa
  rw [hp, spaceOwned, Pi.add_apply] at howned
  constructor
  · omega
  · intro v e he hpa
    by_cases hv : v < shmPage
    · have := user_pos hp hv he
      rw [hpa] at this
      omega
    · rcases shmPage_le_cases (Nat.not_lt.mp hv) with hv | hv | hv | hv
      · rw [hv] at he
        rw [hwell.shape.shm e he] at hpa
        rw [hpa] at hshm
        omega
      · rw [hv, hwell.shape.trapframe] at he
        have hself : p.trapframe = pa := (congrArg Pte.pa (Option.some.inj he)).trans hpa
        rw [hself, one_self] at howned
        omega
      · rw [hv, hwell.shape.trampoline] at he
        have hself : g.trampoline = pa := (congrArg Pte.pa (Option.some.inj he)).trans hpa
        have := hframe.2.1
        omega
      · rw [hwell.shape.above v hv] at he
        cases he

theorem count_freelist_of_inv (h : Inv (Kmem.Balanced kernelEnd reserved) g m) {pa : ℕ}
    (hframe : Frame kernelEnd pa) (hmapped : mapped m pa = 0)
    (howned : m.owned pa + reserved pa = 0) : m.mem.freelist.count pa = 1 := by
  rw [mapped_eq_user h.spaces] at hmapped
  apply h.books.2.count_free_eq_one hframe
  rw [hmapped, Pi.add_apply, howned]

end Reading

/-! ## Exits and reaps -/

def Action.Ends : Action nproc → Prop
  | .exit _ => True
  | .reap _ => True
  | _ => False

abbrev EndRun (g : Globals) (m m' : Machine Kmem nproc) : Prop :=
  Relation.ReflTransGen (Step .assignment7 g fun _ a _ => a.Ends) m m'

/-- A slot that is emptied, or that changes nothing of its memory, holds no more than
before. -/
theorem owned_put_le {s : Kmem} {i : Fin nproc} {o : Option Space}
    (h : ∀ pa, spaceOwned o pa ≤ spaceOwned (m.proc i) pa) (pa : ℕ) :
    (m.put s i o).owned pa ≤ m.owned pa := by
  rw [owned_put, owned_eq m i, Pi.add_apply, Pi.add_apply]
  have := h pa
  omega

theorem end_spec {kernelPages : Finset ℕ} {m₀ : Machine Kmem nproc} (hb : Boot g kernelPages m₀)
    (hm : Inv (BootBooks kernelPages m₀) g m) {a : Action nproc} (ha : a.Ends)
    (hperform : perform .assignment7 g m a = .ok m') :
    Inv (BootBooks kernelPages m₀) g m' ∧ ∀ pa, m'.owned pa ≤ m.owned pa := by
  have hperf := (hm.perform hb.books (permits_all _) (Or.inr trivial)).of_eq_ok hperform
  cases hperf with
  | idle => exact ⟨hm, fun _ => le_rfl⟩
  | exit hp _ hrep =>
      have hwell := hm.spaces _ _ hp
      refine ⟨hrep.inv hm ⟨hwell.sz_le, hwell.shape⟩, ?_⟩
      obtain ⟨s, rfl, _⟩ := hrep
      apply owned_put_le
      intro pa
      rw [hp]
      exact le_rfl
  | reap s _ _ hR =>
      refine ⟨hm.put hR fun q hq => (nomatch hq), ?_⟩
      apply owned_put_le
      intro pa
      exact Nat.zero_le _
  | sbrk => exact absurd ha id
  | fault => exact absurd ha id
  | fork => exact absurd ha id
  | clone => exact absurd ha id
  | shmGet => exact absurd ha id

theorem endRun_spec {kernelPages : Finset ℕ} {m₀ : Machine Kmem nproc} (hb : Boot g kernelPages m₀)
    (hm : Inv (BootBooks kernelPages m₀) g m) (hrun : EndRun g m m') :
    Inv (BootBooks kernelPages m₀) g m' ∧ ∀ pa, m'.owned pa ≤ m.owned pa := by
  induction hrun with
  | refl => exact ⟨hm, fun _ => le_rfl⟩
  | tail _ hstep ih =>
      obtain ⟨a, hperform, hends⟩ := hstep
      obtain ⟨hinv, hle⟩ := end_spec hb ih.1 hends hperform
      exact ⟨hinv, fun pa => (hle pa).trans (ih.2 pa)⟩

/-! ## The reference counts -/

/-- From the state after boot, in every run of the Assignment 7 kernel with its sizes
at `SHM_VA` or below and `kalloc` failing as it may: the count of a page mapped as
user memory is the number of leaves that map it; no page on the free list is mapped
by a page table or is part of one; every page that is neither mapped nor kept by the
kernel is on the free list once; and so is every mapped page once the exits and reaps
of its holders, in any order, have left it unmapped. -/
theorem references_eq_mapped (kernelPages : Finset ℕ) (m₀ m : Machine Kmem nproc)
    (hboot : Boot g kernelPages m₀) (hrun : FitRun g m₀ m) :
    (∀ pa, 0 < mapped m pa → m.mem.references (pageIndex pa) = mapped m pa) ∧
    (∀ pa ∈ m.mem.freelist, ∀ i p, m.proc i = some p →
      p.pagetable.pages pa = 0 ∧ ∀ v e, p.pagetable.leaf v = some e → e.pa ≠ pa) ∧
    (∀ pa, Frame m₀.mem.kernelEnd pa → mapped m pa = 0 →
      m.owned pa + reservedCount kernelPages pa = 0 → m.mem.freelist.count pa = 1) ∧
    (∀ m', EndRun g m m' → ∀ pa, 0 < mapped m pa → mapped m' pa = 0 →
      m'.mem.freelist.count pa = 1) := by
  have hinv := hboot.inv_of_fitRun hrun
  refine ⟨?_, ?_, ?_, ?_⟩
  · intro pa hpa
    exact references_of_inv hinv hpa
  · intro pa hfree i p hp
    exact not_free_of_inv hinv hboot.trampoline_lt (reservedCount_pos hboot.shm_mem) hfree hp
  · intro pa hframe hmapped howned
    exact count_freelist_of_inv hinv hframe hmapped howned
  · intro m' hend pa hpa hpa'
    obtain ⟨hinv', hle⟩ := endRun_spec hboot hinv hend
    have hacc := hinv.books.2
    rw [mapped_eq_user hinv.spaces] at hpa
    have hframe := hacc.valid_of_held pa (by omega)
    -- a page mapped as user memory is not one the kernel keeps
    have hzero : m.owned pa + reservedCount kernelPages pa = 0 := by
      by_contra hne
      have := (hacc.exclusive pa (by rw [Pi.add_apply]; omega)).2
      omega
    have := hle pa
    exact count_freelist_of_inv hinv' hframe hpa' (by omega)

/-- The first page that `kalloc` gives for user memory, and the next one. -/
def imagePage : ℕ := physTop - 6 * pgSize

def grownPage : ℕ := physTop - 15 * pgSize

/-- The first process creates a thread, which grows its memory by a page, exits and is
reaped. -/
theorem bootImage_clone : Yields (fun _ => False) (bootImage (physTop - 20 * pgSize) kernBase [])
    fun r => ∃ x ∈ r,
      Yields (fun _ => False) (perform .assignment7 x.1 x.2 (.clone 0 0 0 pgSize 0)) fun m₁ =>
        m₁.Fits ∧ Yields (fun _ => False) (perform .assignment7 x.1 m₁ (.sbrk 1 pgSize false)) fun m₂ =>
          m₂.Fits ∧ mapped m₂ imagePage = 2 ∧ mapped m₂ grownPage = 1 ∧
          Yields (fun _ => False) (perform .assignment7 x.1 m₂ (.exit 1)) fun m₃ =>
            Yields (fun _ => False) (perform .assignment7 x.1 m₃ (.reap 1)) fun m₄ =>
              mapped m₄ grownPage = 0 := by
  decide +kernel

/-- After the call of `clone` and the growth, the page of the image counts two leaves;
once the thread is reaped, the page it had added is back on the free list. -/
theorem references_eq_mapped_clone : ∃ (g : Globals) (m₀ m m' : Machine Kmem 2),
    Boot g {g.shmPagePa} m₀ ∧ FitRun g m₀ m ∧ EndRun g m m' ∧
      m.mem.references (pageIndex imagePage) = 2 ∧ m'.mem.freelist.count grownPage = 1 := by
  obtain ⟨x, hb, h⟩ := exists_boot bootImage_clone
  obtain ⟨m₁, hclone, hfits₁, h⟩ := h.exists_eq_ok
  obtain ⟨m₂, hsbrk, hfits₂, himage, hgrown, h⟩ := h.exists_eq_ok
  obtain ⟨m₃, hexit, h⟩ := h.exists_eq_ok
  obtain ⟨m₄, hreap, hgone⟩ := h.exists_eq_ok
  have hrun : FitRun x.1 x.2 m₂ := by
    apply Relation.ReflTransGen.tail (.single ⟨_, hclone, hfits₁⟩)
    exact ⟨_, hsbrk, hfits₂⟩
  have hend : EndRun x.1 m₂ m₄ := by
    apply Relation.ReflTransGen.tail (.single ⟨_, hexit, trivial⟩)
    exact ⟨_, hreap, trivial⟩
  obtain ⟨hcount, _, _, hfree⟩ := references_eq_mapped _ x.2 m₂ hb hrun
  refine ⟨x.1, x.2, m₂, m₄, hb, hrun, hend, ?_, ?_⟩
  · rw [hcount imagePage (by rw [himage]; decide), himage]
  · exact hfree m₄ hend grownPage (by rw [hgrown]; decide) hgone

end Memory
