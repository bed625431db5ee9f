import OsAssignments.Memory.Boot

/-!
# The page at `SHM_VA`

`growproc` and `sys_sbrk` let a size grow up to `TRAPFRAME`, one page past `SHM_VA`.
As long as no `sbrk` asks for that page, the page at `SHM_VA` is the shared page in
every process that has one, `shm_get` returns an address of it, and `mappages`
never finds a mapped page; this holds for both kernels and over any allocator. One
`sbrk` that asks for it is enough for all of this to fail.
-/

namespace Memory

open Outcome RefPool RadixTree Machine

section Runs

variable {σ : Type} [PageAllocator σ] {nproc : ℕ} {kv : Kernel} {g : Globals}
  {m m' : Machine σ nproc}

/-- Any panic but that of `mappages` for a page that is mapped. -/
def NotRemap (p : Panic) : Prop := p ≠ .mappagesRemap

theorem books_notRemap (shm : ℕ) : Books (σ := σ) NotRemap shm fun _ _ _ => True := by
  apply Books.trivial
  intro p
  simp [NotRemap]

theorem permits_notRemap (kv : Kernel) : Permits kv NotRemap := by
  constructor
  · intro _
    simp [NotRemap]
  · simp [NotRemap]
  · simp [NotRemap]

/-- The runs in which no `sbrk` asks for the page at `SHM_VA`. -/
abbrev WithinRun (kv : Kernel) (g : Globals) (m m' : Machine σ nproc) : Prop :=
  Relation.ReflTransGen (Step kv g fun m a _ => a.Within m) m m'

theorem wellMapped_of_withinRun (hm : ∀ i p, m.proc i = some p → p.WellMapped g)
    (hrun : WithinRun kv g m m') : Inv (fun _ _ _ => True) g m' :=
  inv_of_run (books_notRemap _) (permits_notRemap kv) (fun _ _ _ hw => Or.inl hw)
    ⟨trivial, hm⟩ hrun

theorem sysShmGet_shared {i : Fin nproc} {p : Space} {va : ℕ} (hwell : p.WellMapped g)
    (hp : m.proc i = some p) (hget : sysShmGet g m i p = .ok (m', some va)) :
    va = shmVa ∧ ∃ q e, m'.proc i = some q ∧ q.pagetable.leaf shmPage = some e ∧
      e.pa = g.shmPagePa := by
  have hspec := (sysShmGet_spec (R := fun _ _ _ => True) (books_notRemap _) trivial hp).of_eq_ok hget
  obtain ⟨q, hgot, hrep⟩ := hspec
  have hq := hgot.wellMapped hwell
  cases hgot with
  | mapped hne =>
      obtain ⟨e, he⟩ := Option.ne_none_iff_exists'.mp hne
      exact ⟨rfl, p, e, hrep.proc_self, he, hwell.shape.shm e he⟩
  | maps pt _ hleaf =>
      have he : pt.leaf shmPage = some ⟨g.shmPagePa, userPerm true false⟩ := by
        rw [hleaf, Function.update_self]
      exact ⟨rfl, _, _, hrep.proc_self, he, rfl⟩

/-- In every state of a run in which no `sbrk` asks for the page at `SHM_VA`: what is
mapped there is the shared page; no action ends in the panic of `mappages` for a
mapped page, unless it is again such an `sbrk`; and `sys_shm_get` returns the address
of the shared page. -/
theorem shmVa_maps_shmPagePa (m₀ m : Machine σ nproc)
    (hstart : ∀ i p, m₀.proc i = some p → p.WellMapped g) (hrun : WithinRun kv g m₀ m) :
    (∀ i p, m.proc i = some p → ∀ e, p.pagetable.leaf shmPage = some e → e.pa = g.shmPagePa) ∧
    (∀ a : Action nproc, a.Within m → perform kv g m a ≠ .error .mappagesRemap) ∧
    (∀ i p m' va, m.proc i = some p → sysShmGet g m i p = .ok (m', some va) →
      va = shmVa ∧ ∃ q e, m'.proc i = some q ∧ q.pagetable.leaf shmPage = some e ∧
        e.pa = g.shmPagePa) := by
  have hinv := wellMapped_of_withinRun hstart hrun
  refine ⟨?_, ?_, ?_⟩
  · intro i p hp e he
    exact (hinv.spaces i p hp).shape.shm e he
  · intro a hw herror
    have hyields := hinv.perform (books_notRemap _) (permits_notRemap kv) (Or.inl hw)
    exact hyields.of_eq_error herror rfl
  · intro i p m' va hp hget
    exact sysShmGet_shared (hinv.spaces i p hp) hp hget

end Runs

/-! ## Runs from boot -/

theorem bootImage_fork : Yields (fun _ => False) (bootImage (physTop - 20 * pgSize) kernBase [])
    fun r => ∃ x ∈ r,
      Yields (fun _ => False) ([.shmGet 0, .fork 0].foldlM (perform .assignment7 x.1) x.2)
        fun m => ∃ p ∈ m.proc 1, (p.pagetable.leaf shmPage).isSome := by
  decide +kernel

/-- The child has the shared page at `SHM_VA`. -/
theorem shmVa_maps_shmPagePa_fork : ∃ (g : Globals) (m₀ m : Machine Kmem 2),
    Boot g {g.shmPagePa} m₀ ∧ WithinRun .assignment7 g m₀ m ∧
      ∃ p e, m.proc 1 = some p ∧ p.pagetable.leaf shmPage = some e ∧ e.pa = g.shmPagePa := by
  obtain ⟨x, hb, h⟩ := exists_boot bootImage_fork
  obtain ⟨m, hactions, p, hp, hmapped⟩ := h.exists_eq_ok
  obtain ⟨e, he⟩ := Option.isSome_iff_exists.mp hmapped
  have hrun : WithinRun .assignment7 x.1 x.2 m := by
    apply run_of_foldlM _ hactions
    intro a ha
    simp only [List.mem_cons, List.not_mem_nil, or_false] at ha
    rcases ha with rfl | rfl
    · intro _ _
      trivial
    · intro _ _
      trivial
  have hpa := (shmVa_maps_shmPagePa x.2 m hb.spaces hrun).1 1 p hp e he
  exact ⟨x.1, x.2, m, hb, hrun, p, e, hp, he, hpa⟩

/-- What an `int` argument of `sbrk` can be. -/
def Action.IsInt {nproc : ℕ} : Action nproc → Prop
  | .sbrk _ n _ => -2 ^ 31 ≤ n ∧ n < 2 ^ 31
  | _ => True

/-- Lazy growth of the first process from one page up to `SHM_VA`. -/
def growToShm : List (Action 2) :=
  List.replicate 128 (.sbrk 0 (2 ^ 31 - pgSize) true) ++ [.sbrk 0 (124 * pgSize) true]

theorem growToShm_isInt {a : Action 2} (ha : a ∈ growToShm) : a.IsInt := by
  unfold growToShm at ha
  rw [List.mem_append, List.mem_replicate, List.mem_singleton] at ha
  rcases ha with ⟨_, rfl⟩ | rfl
  · exact ⟨by decide, by decide⟩
  · exact ⟨by decide, by decide⟩

theorem bootImage_growToShm : Yields (fun _ => False)
    (bootImage (physTop - 20 * pgSize) kernBase []) fun r => ∃ x ∈ r,
      Yields (fun _ => False) (growToShm.foldlM (perform .assignment7 x.1) x.2) fun m =>
        Yields (fun _ => False) (perform .assignment7 x.1 m (.sbrk 0 pgSize false))
          (fun m' => ∃ p ∈ m'.proc 0, (∃ e ∈ p.pagetable.leaf shmPage, e.pa ≠ x.1.shmPagePa) ∧
            Yields (fun _ => False) (sysShmGet x.1 m' 0 p) fun r => r.2 = some shmVa) ∧
        Yields (fun _ => False) (perform .assignment7 x.1 m (.shmGet 0)) fun m' =>
          Yields (fun e => e = .mappagesRemap) (perform .assignment7 x.1 m' (.sbrk 0 pgSize false))
            fun _ => False := by
  decide +kernel

/-- From boot, by calls of `sbrk` with arguments an `int` can hold, a process grows to
`SHM_VA`. One more page is then a page of the heap at `SHM_VA`, whose address
`sys_shm_get` returns; and after a call of `shm_get` the same growth ends in the panic
of `mappages`. -/
theorem shmVa_collides : ∃ (g : Globals) (m₀ m : Machine Kmem 2), Boot g {g.shmPagePa} m₀ ∧
    Relation.ReflTransGen (Step .assignment7 g fun _ a _ => a.IsInt) m₀ m ∧
    (∃ m' p e r, perform .assignment7 g m (.sbrk 0 pgSize false) = .ok m' ∧ m'.proc 0 = some p ∧
      p.pagetable.leaf shmPage = some e ∧ e.pa ≠ g.shmPagePa ∧
      sysShmGet g m' 0 p = .ok r ∧ r.2 = some shmVa) ∧
    ∃ m', perform .assignment7 g m (.shmGet 0) = .ok m' ∧
      perform .assignment7 g m' (.sbrk 0 pgSize false) = .error .mappagesRemap := by
  obtain ⟨x, hb, h⟩ := exists_boot bootImage_growToShm
  obtain ⟨m, hactions, hheap, hremap⟩ := h.exists_eq_ok
  refine ⟨x.1, x.2, m, hb, run_of_foldlM (fun a ha _ _ => growToShm_isInt ha) hactions, ?_, ?_⟩
  · obtain ⟨m', hsbrk, p, hp, ⟨e, he, hne⟩, hget⟩ := hheap.exists_eq_ok
    obtain ⟨r, hr, hva⟩ := hget.exists_eq_ok
    exact ⟨m', p, e, r, hsbrk, hp, he, hne, hr, hva⟩
  · obtain ⟨m', hshm, h⟩ := hremap.exists_eq_ok
    exact ⟨m', hshm, h.eq_error⟩

end Memory
