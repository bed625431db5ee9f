import OsAssignments.Library.TableIndex
import OsAssignments.Memory.Perform

/-!
# The state after boot

`Boot` describes the memory of the Assignment 7 kernel once `kinit` has filled the
free list and the first processes have their images: every page in use is used
once. `bootImage` computes such a state, with a free list of a chosen length.
-/

open scoped BigOperators

namespace Memory

open Outcome RefPool RadixTree Machine

variable {nproc : ℕ} {g : Globals} {m m' : Machine Kmem nproc}

/-- The pages the kernel takes at boot and keeps: the shared page, its own page table
and its stacks. -/
def reservedCount (kernelPages : Finset ℕ) (pa : ℕ) : ℕ := if pa ∈ kernelPages then 1 else 0

theorem reservedCount_pos {kernelPages : Finset ℕ} {pa : ℕ} (h : pa ∈ kernelPages) :
    0 < reservedCount kernelPages pa := by
  rw [reservedCount, if_pos h]
  exact Nat.one_pos

/-- The uses of a page: as user memory, as a table or a trapframe, or by the kernel. -/
def uses (kernelPages : Finset ℕ) (m : Machine Kmem nproc) (pa : ℕ) : ℕ :=
  m.user pa + (m.owned pa + reservedCount kernelPages pa)

/-- The state after boot, with the images of the first processes in place: every page
in use is used once, its count is `1`, and the other pages are on the free list. -/
structure Boot (g : Globals) (kernelPages : Finset ℕ) (m : Machine Kmem nproc) : Prop where
  kernBase_le : kernBase ≤ m.mem.kernelEnd
  trampoline_lt : g.trampoline < m.mem.kernelEnd
  shm_mem : g.shmPagePa ∈ kernelPages
  spaces : ∀ i p, m.proc i = some p → p.WellMapped g
  once : ∀ pa, uses kernelPages m pa ≤ 1
  frame : ∀ pa, 0 < uses kernelPages m pa → Frame m.mem.kernelEnd pa
  references : ∀ pa, Frame m.mem.kernelEnd pa →
    m.mem.references (pageIndex pa) = uses kernelPages m pa
  nodup : m.mem.freelist.Nodup
  mem_freelist : ∀ pa, pa ∈ m.mem.freelist ↔
    Frame m.mem.kernelEnd pa ∧ uses kernelPages m pa = 0

/-- The books of a run that starts in the state `m`. -/
def BootBooks (kernelPages : Finset ℕ) (m : Machine Kmem nproc) :
    Kmem → (ℕ → ℕ) → (ℕ → ℕ) → Prop :=
  Kmem.Balanced m.mem.kernelEnd (reservedCount kernelPages)

theorem Boot.inv {kernelPages : Finset ℕ} (h : Boot g kernelPages m) :
    Inv (BootBooks kernelPages m) g m := by
  refine ⟨⟨rfl, ?_⟩, h.spaces⟩
  constructor
  · exact h.references
  · exact h.frame
  · intro pa hpa
    have := h.once pa
    unfold uses at this
    rw [Pi.add_apply] at hpa ⊢
    omega
  · exact h.nodup
  · exact h.mem_freelist

theorem Boot.books {kernelPages : Finset ℕ} (h : Boot g kernelPages m) :
    Books (fun _ => True) g.shmPagePa (BootBooks kernelPages m) :=
  Kmem.books _ h.kernBase_le (reservedCount_pos h.shm_mem)

theorem permits_all (kv : Kernel) : Permits kv fun _ => True :=
  ⟨fun _ => ⟨trivial, trivial⟩, trivial, trivial⟩

/-! ## A first process -/

def imagePerm : Perm := ⟨true, true, true, true, rfl⟩

/-- The kernel's memory before `kinit`, with the pages from `kernelEnd` on unused. -/
def rawKmem (kernelEnd : ℕ) (faults : List Bool) : Kmem where
  kernelEnd := kernelEnd
  freelist := []
  references := fun _ => 0
  bytes := fun _ => 0
  faults := faults

/-- Two slots after `kinit`, the allocation of the shared page in `procinit`, and
`allocproc` for the first process, whose image is a single page. -/
def bootImage (kernelEnd trampoline : ℕ) (faults : List Bool) :
    Except Panic (Option (Globals × Machine Kmem 2)) := do
  let s ← (Kmem.kinit (rawKmem kernelEnd faults)).mapError .kalloc
  match kalloc s with
  | (none, _) => pure none
  | (some shm, s) => do
      let g : Globals := ⟨trampoline, shm⟩
      let r ← allocproc .assignment7 g s
      match r.2 with
      | none => pure none
      | some np => do
          let u ← uvmalloc .assignment7 shm r.1 np.2 0 pgSize imagePerm
          if u.2.2 = 0 then
            pure none
          else
            pure (some (g, (⟨u.1, fun _ => none, 0⟩ : Machine Kmem 2).put u.1 0
              (some ⟨u.2.1, u.2.2, np.1, ⟨0, 0, 0, 0⟩, false, false⟩)))

/-- A machine with one process satisfies the invariant if that process does. -/
theorem inv_single {R : Kmem → (ℕ → ℕ) → (ℕ → ℕ) → Prop} {s : Kmem} {p : Space} {i j : Fin nproc}
    (hR : R s (0 + userCount p.pagetable.leaf) (0 + one p.trapframe + p.pagetable.pages))
    (hp : p.WellMapped g) :
    Inv R g ((⟨s, fun _ => none, j⟩ : Machine Kmem nproc).put s i (some p)) := by
  constructor
  · rw [user_put, owned_put]
    rw [add_assoc] at hR
    have huser : userOff (⟨s, fun _ => none, j⟩ : Machine Kmem nproc) i = 0 :=
      Finset.sum_eq_zero fun _ _ => rfl
    have howned : ownedOff (⟨s, fun _ => none, j⟩ : Machine Kmem nproc) i = 0 :=
      Finset.sum_eq_zero fun _ _ => rfl
    rw [huser, howned]
    exact hR
  · intro k q hq
    by_cases hk : k = i
    · rw [hk, put_proc_self] at hq
      cases hq
      exact hp
    · rw [put_proc_of_ne _ _ _ hk] at hq
      cases hq

/-- Balanced books in which no page is mapped twice are those of a state after boot. -/
theorem boot_of_inv {kernelEnd : ℕ} {kernelPages : Finset ℕ}
    (hinv : Inv (Kmem.Balanced kernelEnd (reservedCount kernelPages)) g m)
    (hlo : kernBase ≤ kernelEnd) (htramp : g.trampoline < kernelEnd)
    (hshm : g.shmPagePa ∈ kernelPages) (huser : ∀ pa, m.user pa ≤ 1) : Boot g kernelPages m := by
  obtain ⟨⟨rfl, hacc⟩, hspaces⟩ := hinv
  constructor
  · exact hlo
  · exact htramp
  · exact hshm
  · exact hspaces
  · intro pa
    have := huser pa
    unfold uses
    by_cases hpos : 0 < (m.owned + reservedCount kernelPages) pa
    · have := hacc.exclusive pa hpos
      rw [Pi.add_apply] at this
      omega
    · rw [Pi.add_apply] at hpos
      omega
  · exact hacc.valid_of_held
  · exact hacc.count_eq
  · exact hacc.nodup
  · exact hacc.mem_free

theorem bootImage_boot {kernelEnd trampoline : ℕ} (faults : List Bool)
    (hlo : kernBase ≤ kernelEnd) (hhi : kernelEnd ≤ physTop) (htramp : trampoline < kernelEnd) :
    Yields (fun _ => True) (bootImage kernelEnd trampoline faults) fun r =>
      ∀ x, r = some x → Boot x.1 {x.1.shmPagePa} x.2 := by
  obtain ⟨s, hs, hR⟩ := Kmem.kinit_spec (m := rawKmem kernelEnd faults) hhi rfl fun _ => rfl
  change Kmem.Balanced kernelEnd 0 s 0 0 at hR
  rw [bootImage, hs]
  change Yields _ (match kalloc s with | (none, _) => _ | (some shm, s) => _) _
  cases hk : kalloc s with
  | mk r s' =>
      cases r with
      | none => exact fun x hx => (nomatch hx)
      | some shm =>
          dsimp only
          have hshm : Kmem.Balanced kernelEnd (reservedCount {shm}) s' 0 0 := by
            have hres : reservedCount {shm} = one shm := by
              funext pa
              rw [one_apply, reservedCount]
              simp only [Finset.mem_singleton]
            have := hR.kalloc_some hlo hk
            rw [hres]
            refine ⟨this.1, ?_⟩
            have hacc := this.2
            rw [add_zero] at hacc
            exact hacc
          have B : Books (fun _ => True) shm (Kmem.Balanced kernelEnd (reservedCount {shm})) :=
            Kmem.books _ hlo (reservedCount_pos (Finset.mem_singleton_self shm))
          apply (allocproc_spec (g := ⟨trampoline, shm⟩) B hshm).bind
          intro r hr
          cases hnp : r.2 with
          | none => exact fun x hx => (nomatch hx)
          | some np =>
              dsimp only
              obtain ⟨hR', hfixed⟩ := hr.2 np hnp
              have hlay := layout
              have hhole : HoleAbove np.2.leaf 0 := by
                intro v _ hv
                rw [hfixed]
                exact fixedLeaves_of_lt _ np.1 (by omega)
              apply (uvmalloc_spec B (Nat.zero_le pgSize) (by decide) (Or.inr trivial)
                (by decide) hhole hR').bind
              intro u hu
              obtain ⟨hret, _, hok⟩ := hu
              apply Yields.ite
              · intro _
                exact fun x hx => (nomatch hx)
              · intro hne x hx
                cases hx
                obtain ⟨hR'', hgrown⟩ := hok hne (by decide)
                have hsz := hret.resolve_left hne
                obtain ⟨pa, hpa⟩ := hgrown.inside 0 (by decide) (by decide)
                have hleaf : u.2.1.leaf = Function.update np.2.leaf 0 (some ⟨pa, imagePerm⟩) := by
                  funext v
                  by_cases hv : v = 0
                  · rw [hv, hpa, Function.update_self]
                  · rw [Function.update_of_ne hv]
                    exact hgrown.outside v (Or.inr (Nat.one_le_iff_ne_zero.mpr hv))
                have hcount : userCount u.2.1.leaf = one pa := by
                  rw [hleaf, userCount_fill (by decide) (hhole 0 (by decide) (by decide)), hfixed,
                    userCount_fixedLeaves, zero_add]
                have hshape : Shape ⟨trampoline, shm⟩ np.1 pgSize u.2.1.leaf := by
                  rw [hleaf, hfixed]
                  apply (fixedLeaves_shape _ np.1).congr
                  · intro v hv hv'
                    have hne : v ≠ 0 := Nat.one_le_iff_ne_zero.mp hv
                    rw [Function.update_of_ne hne]
                    exact fixedLeaves_of_lt _ np.1 (by omega)
                  · intro v hv
                    have hne : v ≠ 0 := by
                      have : 0 < shmPage := by decide
                      omega
                    rw [Function.update_of_ne hne]
                have hfit : pgSize ≤ shmVa := by decide
                have hinv := inv_single (g := ⟨trampoline, shm⟩) (i := (0 : Fin 2)) (j := 0)
                  (p := ⟨u.2.1, u.2.2, np.1, ⟨0, 0, 0, 0⟩, false, false⟩) hR''
                  ⟨le_of_eq_of_le hsz hfit, hsz.symm ▸ hshape⟩
                apply boot_of_inv hinv hlo htramp (Finset.mem_singleton_self shm)
                intro q
                rw [user_eq _ 0, put_proc_self]
                have huser : userOff ((⟨u.1, fun _ => none, 0⟩ : Machine Kmem 2).put u.1 0
                    (some ⟨u.2.1, u.2.2, np.1, ⟨0, 0, 0, 0⟩, false, false⟩)) 0 = 0 := by
                  apply Finset.sum_eq_zero
                  intro k hk
                  rw [put_proc_of_ne _ _ _ (Finset.ne_of_mem_erase hk)]
                  rfl
                rw [huser, zero_add, spaceUser, hcount, one_apply]
                split_ifs
                · exact le_rfl
                · exact Nat.zero_le 1

theorem exists_boot {faults : List Bool} {Q : Globals × Machine Kmem 2 → Prop}
    (h : Yields (fun _ => False) (bootImage (physTop - 20 * pgSize) kernBase faults)
      fun r => ∃ x ∈ r, Q x) : ∃ x, Boot x.1 {x.1.shmPagePa} x.2 ∧ Q x := by
  obtain ⟨r, hboot, x, hx, hQ⟩ := h.exists_eq_ok
  have hb : Boot x.1 {x.1.shmPagePa} x.2 :=
    (bootImage_boot faults (by decide) (by decide) (by decide)).of_eq_ok hboot x hx
  exact ⟨x, hb, hQ⟩

end Memory
