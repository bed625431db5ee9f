import Mathlib.Algebra.Order.BigOperators.Group.Finset
import OsAssignments.Library.Refinement
import OsAssignments.Memory.Copy

/-!
# What user programs see

The runs of a kernel in which user programs load and store, system calls and page faults
change address spaces, and the kernel copies to and from user memory, in any order and
wherever `kalloc` fails. A run keeps the size of every process at or below `SHM_VA`, so that the
shared page has its place to itself. Without threads such a run is, step by step, one of flat
memories: `paging_refines_flat`. What a run does not show is how long the traps of one access go on;
`access` runs them to the end.
-/

namespace Memory

open Outcome RefPool RadixTree Machine Kmem FlatMemory Refinement

/-! ## Runs -/

/-- What happens to user memory. `ok` says whether a copy returns `0`, and `dst` is what it
has written to the kernel's buffer. -/
inductive Event (nproc : ℕ)
  | act (a : Action nproc)
  | load (i : Fin nproc) (va : ℕ) (b : UInt8)
  | store (i : Fin nproc) (va : ℕ) (b : UInt8)
  | copyout (i : Fin nproc) (va : ℕ) (src : List UInt8) (ok : Bool)
  | copyin (i : Fin nproc) (va len : ℕ) (dst : List UInt8) (ok : Bool)
  | copyinstr (i : Fin nproc) (va max : ℕ) (dst : List UInt8) (ok : Bool)

section Runs

variable {nproc : ℕ} {kv : Kernel} {g : Globals} {m m' : Machine Kmem nproc} {i : Fin nproc}
  {p : Space} {kernelEnd : ℕ} {reserved : ℕ → ℕ} {kernelPages : Finset ℕ}

/-- The process in slot `i` has got the page table and the memory that a copy returns. -/
def Machine.afterCopy {α : Type} (m : Machine Kmem nproc) (i : Fin nproc) (p : Space)
    (r : Kmem × PageTable × α) : Machine Kmem nproc :=
  m.put r.1 i (some { p with pagetable := r.2.1 })

/-- One step of the kernel: an action that creates no thread, after which all sizes fit, or an
access by a process that is not a zombie, or a copy on behalf of one. -/
inductive Exec (kv : Kernel) (g : Globals) (m : Machine Kmem nproc) :
    Event nproc → Machine Kmem nproc → Prop
  | act {a : Action nproc} {m' : Machine Kmem nproc} : a.Unthreaded →
      perform kv g m a = .ok m' → m'.Fits → Exec kv g m (.act a) m'
  | load {i : Fin nproc} {p : Space} {va : ℕ} {b : UInt8} : m.proc i = some p →
      p.zombie = false → load m.mem p.pagetable va = some b → Exec kv g m (.load i va b) m
  | store {i : Fin nproc} {p : Space} {va : ℕ} {b : UInt8} {s : Kmem} : m.proc i = some p →
      p.zombie = false → store m.mem p.pagetable va b = some s →
      Exec kv g m (.store i va b) (m.withMem s)
  | copyout {i : Fin nproc} {p : Space} {va : ℕ} {src : List UInt8} {r : Kmem × PageTable × Bool} :
      m.proc i = some p → copyout m.mem p.pagetable p.sz va src = .ok r →
      Exec kv g m (.copyout i va src r.2.2) (m.afterCopy i p r)
  | copyin {i : Fin nproc} {p : Space} {va len : ℕ} {r : Kmem × PageTable × List UInt8 × Bool} :
      m.proc i = some p → copyin m.mem p.pagetable p.sz va len = .ok r →
      Exec kv g m (.copyin i va len r.2.2.1 r.2.2.2) (m.afterCopy i p r)
  | copyinstr {i : Fin nproc} {p : Space} {va max : ℕ} {r : Kmem × PageTable × List UInt8 × Bool} :
      m.proc i = some p → copyinstr m.mem p.pagetable p.sz va max = .ok r →
      Exec kv g m (.copyinstr i va max r.2.2.1 r.2.2.2) (m.afterCopy i p r)

/-- One step of flat memories. A copy that fails has handled a part of the range. -/
inductive FlatStep (F : UserMemory nproc) : Event nproc → UserMemory nproc → Prop
  | act {a : Action nproc} {F' : UserMemory nproc} : Seen F a F' → FlatStep F (.act a) F'
  | load {i : Fin nproc} {va : ℕ} : Grants F i Perm.r va →
      FlatStep F (.load i va (F.read pgSize shmPage i va)) F
  | store {i : Fin nproc} {va : ℕ} {b : UInt8} : Grants F i Perm.w va →
      FlatStep F (.store i va b) (F.write pgSize shmPage i va b)
  | copyout {i : Fin nproc} {va supply : ℕ} {hole : ℕ → Prop} {src : List UInt8} {k : ℕ}
      {ok : Bool} : CopyResult F supply hole i Perm.w va src.length k ok →
      FlatStep F (.copyout i va src ok) (F.writes pgSize shmPage i va (src.take k))
  | copyin {i : Fin nproc} {va len supply : ℕ} {hole : ℕ → Prop} {k : ℕ} {ok : Bool} :
      CopyResult F supply hole i Perm.u va len k ok →
      FlatStep F (.copyin i va len (F.reads pgSize shmPage i va k) ok) F
  | copyinstr {i : Fin nproc} {va max supply : ℕ} {dst : List UInt8} {ok : Bool} :
      StringResult F supply i va max dst ok → FlatStep F (.copyinstr i va max dst ok) F

theorem mod_pgSize_lt (a : ℕ) : a % pgSize < pgSize := Nat.mod_lt a (by decide)

/-- The hardware lets a process load at an address through a leaf with `PTE_U` and `PTE_R`. -/
theorem load_eq_some {s : Kmem} {pt : PageTable} {va : ℕ} {b : UInt8} :
    load s pt va = some b ↔ ∃ e, pt.leaf (va / pgSize) = some e ∧ e.perm.u = true ∧
      e.perm.r = true ∧ b = s.bytes (e.pa + va % pgSize) := by
  unfold load
  cases pt.leaf (va / pgSize) with
  | none => exact ⟨fun h => absurd h.symm (Option.some_ne_none b), fun ⟨e, he, _⟩ => by cases he⟩
  | some e =>
      dsimp only
      constructor
      · intro h
        split_ifs at h with hperm
        cases h
        exact ⟨e, rfl, hperm.1, hperm.2, rfl⟩
      · rintro ⟨e', he, hu, hr, rfl⟩
        cases he
        rw [if_pos ⟨hu, hr⟩]

theorem store_eq_some {s s' : Kmem} {pt : PageTable} {va : ℕ} {b : UInt8} :
    store s pt va b = some s' ↔ ∃ e, pt.leaf (va / pgSize) = some e ∧ e.perm.u = true ∧
      e.perm.w = true ∧ s' = s.setByte (e.pa + va % pgSize) b := by
  unfold store
  cases pt.leaf (va / pgSize) with
  | none => exact ⟨fun h => absurd h.symm (Option.some_ne_none s'), fun ⟨e, he, _⟩ => by cases he⟩
  | some e =>
      dsimp only
      constructor
      · intro h
        split_ifs at h with hperm
        cases h
        exact ⟨e, rfl, hperm.1, hperm.2, rfl⟩
      · rintro ⟨e', he, hu, hr, rfl⟩
        cases he
        rw [if_pos ⟨hu, hr⟩]
        rfl

theorem grants_of_leaf (hm : Private kernelEnd reserved g m) (hp : m.proc i = some p) {a : ℕ}
    {e : Pte} {bit : Perm → Bool} (he : p.pagetable.leaf (a / pgSize) = some e)
    (hu : e.perm.u = true) (hbit : bit e.perm = true) :
    a / pgSize ≤ shmPage ∧ Grants (flat g m) i bit a := by
  obtain ⟨hv, hacc⟩ := (accessible_of_leaf hm hp he).resolve_right (by rw [hu]; decide)
  have hmode : (flat g m).mode i (a / pgSize) = e.perm := by
    rw [flat_mode_of_leaf hp hv, he]
    rfl
  refine ⟨hv, hacc, ?_, ?_⟩
  · rw [hmode, hu]
  · rw [hmode, hbit]

theorem flat_load (hm : Private kernelEnd reserved g m) (hp : m.proc i = some p) {va : ℕ}
    {b : UInt8} (h : load m.mem p.pagetable va = some b) :
    Grants (flat g m) i Perm.r va ∧ b = (flat g m).read pgSize shmPage i va := by
  obtain ⟨e, he, hu, hr, rfl⟩ := load_eq_some.mp h
  obtain ⟨hv, hgrants⟩ := grants_of_leaf hm hp he hu hr
  refine ⟨hgrants, ?_⟩
  rw [← flat_read hm hp hv he (mod_pgSize_lt va), Nat.div_add_mod']

theorem flat_store (hm : Private kernelEnd reserved g m) (hp : m.proc i = some p) {va : ℕ}
    {b : UInt8} {s : Kmem} (h : store m.mem p.pagetable va b = some s) :
    Grants (flat g m) i Perm.w va ∧ Private kernelEnd reserved g (m.withMem s) ∧
      flat g (m.withMem s) = (flat g m).write pgSize shmPage i va b := by
  obtain ⟨e, he, hu, hw, rfl⟩ := store_eq_some.mp h
  obtain ⟨hv, hgrants⟩ := grants_of_leaf hm hp he hu hw
  have hset := flat_setByte hm hp hv he (mod_pgSize_lt va) b
  rw [Nat.div_add_mod'] at hset
  exact ⟨hgrants, hset⟩

/-- Every step of the kernel keeps pages private, and is a step of flat memories. -/
theorem exec_refines (kv : Kernel) (g : Globals) (kernelEnd : ℕ) (reserved : ℕ → ℕ) :
    Refinement.Refines (@Exec nproc kv g) FlatStep (Private kernelEnd reserved g) (flat g) := by
  have hstep : ∀ (m : Machine Kmem nproc) e m', Private kernelEnd reserved g m →
      Exec kv g m e m' → Private kernelEnd reserved g m' ∧ FlatStep (flat g m) e (flat g m') := by
    intro m e m' hm hexec
    cases hexec with
    | act ha hperform hfits =>
        obtain ⟨hm', hseen⟩ := perform_flat hm ha hperform hfits
        exact ⟨hm', .act hseen⟩
    | load hp _ hload =>
        obtain ⟨hgrants, rfl⟩ := flat_load hm hp hload
        exact ⟨hm, .load hgrants⟩
    | store hp _ hstore =>
        obtain ⟨hgrants, hm', hflat⟩ := flat_store hm hp hstore
        rw [hflat]
        exact ⟨hm', .store hgrants⟩
    | copyout hp hcopy =>
        obtain ⟨hm', k, hresult, _, _, hflat⟩ :=
          (copyoutLoop_flat _ m _ _ _ le_rfl hm hp).of_eq_ok hcopy
        refine ⟨hm', ?_⟩
        unfold afterCopy
        rw [hflat]
        exact .copyout hresult
    | copyin hp hcopy =>
        obtain ⟨⟨hm', hflat⟩, _, k, hresult, hdst⟩ :=
          (copyinLoop_flat _ m _ _ _ le_rfl hm hp).of_eq_ok hcopy
        refine ⟨hm', ?_⟩
        unfold afterCopy
        rw [hflat, hdst]
        exact .copyin hresult
    | copyinstr hp hcopy =>
        obtain ⟨⟨hm', hflat⟩, _, hresult⟩ :=
          (copyinstrLoop_flat _ m _ _ _ le_rfl hm hp).of_eq_ok hcopy
        refine ⟨hm', ?_⟩
        unfold afterCopy
        rw [hflat]
        exact .copyinstr hresult
  exact ⟨fun m e m' hm h => (hstep m e m' hm h).1, fun m e m' hm h => (hstep m e m' hm h).2⟩

/-! ## The state after boot -/

theorem eq_of_sum_le_one {α : Type} [DecidableEq α] {t : Finset α} {f : α → ℕ} {a b : α}
    (h : ∑ c ∈ t, f c ≤ 1) (ha : a ∈ t) (hb : b ∈ t) (hfa : 0 < f a) (hfb : 0 < f b) : a = b := by
  by_contra hne
  have hsum := Finset.add_sum_erase t f ha
  have hle : f b ≤ ∑ c ∈ t.erase a, f c :=
    Finset.single_le_sum (fun _ _ => Nat.zero_le _) (Finset.mem_erase.mpr ⟨Ne.symm hne, hb⟩)
  omega

theorem unaliased_of_user_le_one (h : ∀ pa, m.user pa ≤ 1) : Unaliased m := by
  intro j v e k w x he hx hpa
  obtain ⟨hv, p, hp, he'⟩ := userLeaf_eq_some.mp he
  obtain ⟨hw, q, hq, hx'⟩ := userLeaf_eq_some.mp hx
  have hsum : ∑ c, spaceUser (m.proc c) e.pa ≤ 1 := by
    have hone := h e.pa
    rw [user, Finset.sum_apply] at hone
    exact hone
  have hposj : 0 < spaceUser (m.proc j) e.pa := by
    rw [hp]
    exact userCount_pos hv he'
  have hposk : 0 < spaceUser (m.proc k) e.pa := by
    rw [hq, ← hpa]
    exact userCount_pos hw hx'
  have hkj := eq_of_sum_le_one hsum (Finset.mem_univ k) (Finset.mem_univ j) hposk hposj
  subst hkj
  cases hp.symm.trans hq
  refine ⟨rfl, ?_⟩
  have hleaves : ∑ c ∈ Finset.range shmPage, tally ((p.pagetable.leaf c).map Pte.pa) e.pa ≤ 1 := by
    have hle : spaceUser (m.proc k) e.pa ≤ 1 :=
      (Finset.single_le_sum (f := fun c => spaceUser (m.proc c) e.pa) (fun _ _ => Nat.zero_le _)
        (Finset.mem_univ k)).trans hsum
    rw [hp, spaceUser, userCount, Finset.sum_apply] at hle
    exact hle
  refine eq_of_sum_le_one hleaves (Finset.mem_range.mpr hw) (Finset.mem_range.mpr hv) ?_ ?_
  · rw [hx', Option.map_some, tally_some, hpa, one_self]
    exact Nat.one_pos
  · rw [he', Option.map_some, tally_some, one_self]
    exact Nat.one_pos

theorem Boot.isPrivate (h : Boot g kernelPages m) :
    Private m.mem.kernelEnd (reservedCount kernelPages) g m where
  kernBase_le := h.kernBase_le
  trampoline_lt := h.trampoline_lt
  shm_reserved := reservedCount_pos h.shm_mem
  inv := h.inv
  unaliased := unaliased_of_user_le_one fun pa => (Nat.le_add_right _ _).trans (h.once pa)

/-- A run of the kernel without threads is, with the same events, a run of flat memories. -/
theorem paging_refines_flat (m₀ : Machine Kmem nproc) (events : List (Event nproc))
    (hboot : Boot g kernelPages m₀) (hrun : Run (Exec kv g) m₀ events m) :
    Run FlatStep (flat g m₀) events (flat g m) :=
  (exec_refines kv g m₀.mem.kernelEnd (reservedCount kernelPages)).run hboot.isPrivate hrun

/-- What the kernel and the process find after a copy that ends with `r`. -/
def Found (sz : ℕ) (r : Kmem × PageTable × Bool) : Prop :=
  r.2.2 = true ∧ load r.1 r.2.1 pgSize = some 3 ∧
    Yields (fun _ => False) (fetchaddr r.1 r.2.1 sz (pgSize - 2)) (fun t => t.2.2 = some 197121) ∧
    Yields (fun _ => False) (fetchstr r.1 r.2.1 sz (pgSize - 2) 16) fun t => t.2.2.2 = some 3

instance (sz : ℕ) (r : Kmem × PageTable × Bool) : Decidable (Found sz r) :=
  inferInstanceAs (Decidable (_ ∧ _))

set_option synthInstance.maxSize 512 in
/-- The first process grows by a page that it does not get yet. Then the kernel copies eight
bytes to it across the end of its first page. -/
theorem bootImage_copies : Yields (fun _ => False)
    (bootImage (physTop - 20 * pgSize) kernBase []) fun r => ∃ x ∈ r,
      Yields (fun _ => False) (perform .assignment7 x.1 x.2 (.sbrk 0 pgSize true)) fun m₁ =>
        m₁.Fits ∧ ∃ p ∈ m₁.proc 0, p.zombie = false ∧
          Yields (fun _ => False)
            (copyout m₁.mem p.pagetable p.sz (pgSize - 2) [1, 2, 3, 0, 0, 0, 0, 0]) (Found p.sz) := by
  decide +kernel

theorem exists_grown : ∃ (g : Globals) (m₀ m : Machine Kmem 2) (p : Space)
    (r : Kmem × PageTable × Bool), Boot g {g.shmPagePa} m₀ ∧
      Run (Exec .assignment7 g) m₀ [.act (.sbrk 0 pgSize true)] m ∧ m.proc 0 = some p ∧
      p.zombie = false ∧
      copyout m.mem p.pagetable p.sz (pgSize - 2) [1, 2, 3, 0, 0, 0, 0, 0] = .ok r ∧
      Found p.sz r := by
  obtain ⟨x, hb, h⟩ := exists_boot bootImage_copies
  obtain ⟨m₁, hsbrk, hfits, p, hp, hz, h⟩ := h.exists_eq_ok
  obtain ⟨r, hcopy, hfound⟩ := h.exists_eq_ok
  exact ⟨x.1, x.2, m₁, p, r, hb, .single (.act trivial hsbrk hfits), hp, hz, hcopy, hfound⟩

theorem exists_copied : ∃ (g : Globals) (m₀ m : Machine Kmem 2) (p : Space),
    Boot g {g.shmPagePa} m₀ ∧ Run (Exec .assignment7 g) m₀ [.act (.sbrk 0 pgSize true),
      .copyout 0 (pgSize - 2) [1, 2, 3, 0, 0, 0, 0, 0] true] m ∧ m.proc 0 = some p ∧
      p.zombie = false ∧ Found p.sz (m.mem, p.pagetable, true) := by
  obtain ⟨g, m₀, m, p, ⟨s, pt, ok⟩, hb, hrun, hp, hz, hcopy, hfound⟩ := exists_grown
  have hok : ok = true := hfound.1
  subst hok
  exact ⟨g, m₀, _, _, hb, hrun.next (.copyout hp hcopy), put_proc_self .., hz, hfound⟩

theorem paging_refines_flat_copy : ∃ (g : Globals) (m₀ m : Machine Kmem 2),
    Boot g {g.shmPagePa} m₀ ∧ Run FlatStep (flat g m₀) [.act (.sbrk 0 pgSize true),
      .copyout 0 (pgSize - 2) [1, 2, 3, 0, 0, 0, 0, 0] true, .load 0 pgSize 3] (flat g m) := by
  obtain ⟨g, m₀, m, p, hb, hrun, hp, hz, _, hload, _⟩ := exists_copied
  exact ⟨g, m₀, _, hb, paging_refines_flat m₀ _ hb (.next hrun (.load hp hz hload))⟩

theorem Boot.private_of_run {m₀ : Machine Kmem nproc} {events : List (Event nproc)}
    (hboot : Boot g kernelPages m₀) (hrun : Run (Exec kv g) m₀ events m) :
    Private m₀.mem.kernelEnd (reservedCount kernelPages) g m :=
  hrun.invariant (exec_refines kv g m₀.mem.kernelEnd (reservedCount kernelPages)).keeps
    hboot.isPrivate

/-! ## Others -/

def Event.slot : Event nproc → Fin nproc
  | .act a => a.slot
  | .load i _ _ => i
  | .store i _ _ => i
  | .copyout i _ _ _ => i
  | .copyin i _ _ _ _ => i
  | .copyinstr i _ _ _ _ => i

/-- The process `i` sees the same memory in `F'` as in `F`, but for the page at `SHM_VA`. -/
structure SameView (i : Fin nproc) (F F' : UserMemory nproc) : Prop where
  size : F'.size i = F.size i
  attached : F'.attached i = F.attached i
  mode : F'.mode i = F.mode i
  read : ∀ a, a / pgSize ≠ shmPage → F'.read pgSize shmPage i a = F.read pgSize shmPage i a

theorem SameView.refl (F : UserMemory nproc) : SameView i F F := ⟨rfl, rfl, rfl, fun _ _ => rfl⟩

theorem SameView.trans {F F' F'' : UserMemory nproc} (h : SameView i F F') (h' : SameView i F' F'') :
    SameView i F F'' :=
  ⟨h'.size.trans h.size, h'.attached.trans h.attached, h'.mode.trans h.mode,
    fun a ha => (h'.read a ha).trans (h.read a ha)⟩

theorem SameView.of_own {F F' : UserMemory nproc} (hsize : F'.size i = F.size i)
    (hattached : F'.attached i = F.attached i) (hmode : F'.mode i = F.mode i)
    (hown : ∀ a, F'.content (.own i a) = F.content (.own i a)) : SameView i F F' := by
  refine ⟨hsize, hattached, hmode, fun a ha => ?_⟩
  unfold Flat.read cellOf
  rw [if_neg ha]
  exact hown a

/-- What one process does to its memory, no other one sees; a fork takes a slot that is not
in use. -/
theorem Seen.sameView {F F' : UserMemory nproc} {a : Action nproc} (h : Seen F a F')
    (hi : F.size i ≠ none) (ha : i ≠ a.slot) : SameView i F F' := by
  cases h with
  | nothing => exact .refl F
  | sbrk j n lazy sz sz' _ _ =>
      refine .of_own (Function.update_of_ne ha ..) rfl (Flat.resize_mode_of_ne ha) fun c => ?_
      rw [Flat.resize_content_own, if_neg fun hc => ha hc.1]
  | fork j k _ hk =>
      have hik : i ≠ k := fun hik => hi (hik ▸ hk)
      refine .of_own ?_ ?_ ?_ fun c => ?_
      · rw [Flat.fork_size, Function.update_of_ne hik]
      · rw [Flat.fork_attached, Function.update_of_ne hik]
      · rw [Flat.fork_mode, Function.update_of_ne hik]
      · rw [Flat.fork_own, if_neg hik]
  | attach j _ =>
      have hij : i ≠ j := ha
      refine .of_own rfl ?_ ?_ fun _ => rfl
      · rw [Flat.attach_attached, Function.update_of_ne hij]
      · rw [Flat.attach_mode, Function.update_of_ne hij]
  | remove j _ =>
      have hij : i ≠ j := ha
      refine .of_own ?_ ?_ ?_ fun c => ?_
      · rw [Flat.remove_size, Function.update_of_ne hij]
      · rw [Flat.remove_attached, Function.update_of_ne hij]
      · rw [Flat.remove_mode, Function.update_of_ne hij]
      · rw [Flat.remove_own, if_neg hij]

theorem SameView.writes {F : UserMemory nproc} {j : Fin nproc} (hij : i ≠ j) (a : ℕ)
    (bs : List UInt8) : SameView i F (F.writes pgSize shmPage j a bs) :=
  ⟨by rw [Flat.writes_size], by rw [Flat.writes_attached], by rw [Flat.writes_mode],
    fun _ hc => Flat.read_writes_of_other hij hc⟩

theorem FlatStep.sameView {F F' : UserMemory nproc} {e : Event nproc} (h : FlatStep F e F')
    (hi : F.size i ≠ none) (he : i ≠ e.slot) : SameView i F F' := by
  cases h with
  | act hseen => exact hseen.sameView hi he
  | load _ => exact .refl F
  | store _ => exact .writes he _ [_]
  | copyout _ => exact .writes he _ _
  | copyin _ => exact .refl F
  | copyinstr _ => exact .refl F

/-- In every state that a kernel without threads reaches: whatever the other processes and the
kernel on their behalf do from then on, in any order, a process keeps its size, its
permissions and every byte of its memory outside of the shared page. -/
theorem others_keep_memory (m₀ : Machine Kmem nproc) (events : List (Event nproc))
    (others : List (Event nproc)) (hboot : Boot g kernelPages m₀)
    (hreach : Run (Exec kv g) m₀ events m) (hp : m.proc i = some p)
    (hrun : Run (Exec kv g) m others m') (hothers : ∀ e ∈ others, i ≠ e.slot) :
    SameView i (flat g m) (flat g m') := by
  have hm := hboot.private_of_run hreach
  have hview := (exec_refines kv g m₀.mem.kernelEnd (reservedCount kernelPages)).run hm hrun
  have hsize := flat_size_ne_none g hp
  generalize flat g m' = F' at hview
  clear hrun
  induction hview with
  | start => exact .refl _
  | next _ hstep ih =>
      have hkept := ih fun e he => hothers e (List.mem_append_left _ he)
      refine hkept.trans (hstep.sameView ?_ (hothers _ (List.mem_append_right _ (.head _))))
      rw [hkept.size]
      exact hsize

set_option synthInstance.maxSize 512 in
/-- The first process has a child, to which the kernel copies a byte, and which exits. -/
theorem bootImage_child : Yields (fun _ => False)
    (bootImage (physTop - 20 * pgSize) kernBase []) fun r => ∃ x ∈ r,
      Yields (fun _ => False) (perform .assignment7 x.1 x.2 (.fork 0)) fun m₁ =>
        m₁.Fits ∧ (m₁.proc 0).isSome ∧ ∃ q ∈ m₁.proc 1,
          Yields (fun _ => False) (copyout m₁.mem q.pagetable q.sz 8 [7]) fun r => r.2.2 = true ∧
            Yields (fun _ => False) (perform .assignment7 x.1 (m₁.afterCopy 1 q r) (.exit 1))
              Machine.Fits := by
  decide +kernel

theorem others_keep_memory_child : ∃ (g : Globals) (m₀ m m' : Machine Kmem 2),
    Boot g {g.shmPagePa} m₀ ∧ (m.proc 0).isSome ∧
      Run (Exec .assignment7 g) m [.copyout 1 8 [7] true, .act (.exit 1)] m' ∧
      SameView 0 (flat g m) (flat g m') := by
  obtain ⟨x, hb, h⟩ := exists_boot bootImage_child
  obtain ⟨m₁, hfork, hfits, hsome, q, hq, h⟩ := h.exists_eq_ok
  obtain ⟨⟨s, pt, ok⟩, hcopy, hok, h⟩ := h.exists_eq_ok
  obtain ⟨m₂, hexit, hfits₂⟩ := h.exists_eq_ok
  obtain ⟨p, hp⟩ := Option.isSome_iff_exists.mp hsome
  have hok' : ok = true := hok
  subst hok'
  have hreach : Run (Exec .assignment7 x.1) x.2 [.act (.fork 0)] m₁ :=
    .single (.act trivial hfork hfits)
  have hrun : Run (Exec .assignment7 x.1) m₁ [.copyout 1 8 [7] true, .act (.exit 1)] m₂ :=
    .next (.single (.copyout hq hcopy)) (.act trivial hexit hfits₂)
  exact ⟨x.1, x.2, m₁, m₂, hb, hsome, hrun,
    others_keep_memory x.2 _ _ hb hreach hp hrun (by decide)⟩

/-! ## One copy -/

section OneCopy

variable {m₀ : Machine Kmem nproc} {events : List (Event nproc)}

/-- In every state that a kernel without threads reaches, `copyout` neither panics nor follows
a null pointer. It writes the bytes up to the first one that the process may not write, and
returns `0` if it has written them all; it stops before that only in a hole of the range, when
there are fewer free pages than three for each page of the range. -/
theorem copyout_exact (hboot : Boot g kernelPages m₀) (hreach : Run (Exec kv g) m₀ events m)
    (hp : m.proc i = some p) (dstva : ℕ) (src : List UInt8) :
    ∃ r k, copyout m.mem p.pagetable p.sz dstva src = .ok r ∧
      CopyResult (flat g m) m.mem.supply (fun v => p.pagetable.leaf v = none) i Perm.w dstva
        src.length k r.2.2 ∧
      flat g (m.afterCopy i p r) = (flat g m).writes pgSize shmPage i dstva (src.take k) := by
  have hm := hboot.private_of_run hreach
  obtain ⟨r, hr, _, k, hresult, _, _, hflat⟩ :=
    (copyoutLoop_flat _ m p dstva src le_rfl hm hp).exists_eq_ok
  exact ⟨r, k, hr, hresult, hflat⟩

theorem copyout_exact_grown : ∃ (g : Globals) (m : Machine Kmem 2) (p : Space)
    (r : Kmem × PageTable × Bool), m.proc 0 = some p ∧ flat g (m.afterCopy 0 p r) =
      (flat g m).writes pgSize shmPage 0 (pgSize - 2) [1, 2, 3, 0, 0, 0, 0, 0] := by
  obtain ⟨g, m₀, m, p, r, hb, hrun, hp, _, hcopy, hok, _⟩ := exists_grown
  obtain ⟨r', k, hcopy', hresult, hflat⟩ :=
    copyout_exact hb hrun hp (pgSize - 2) [1, 2, 3, 0, 0, 0, 0, 0]
  cases hcopy.symm.trans hcopy'
  have hk : k = 8 := hresult.ok_iff.mp hok
  subst hk
  exact ⟨g, m, p, r, hp, hflat⟩

/-- What `copyout` has written, `copyin` reads back, with no free page at all: every page of
the range is mapped by now. -/
theorem copyin_copyout (hboot : Boot g kernelPages m₀) (hreach : Run (Exec kv g) m₀ events m)
    (hp : m.proc i = some p) (va : ℕ) (src : List UInt8) {s : Kmem} {pt : PageTable}
    (hcopy : copyout m.mem p.pagetable p.sz va src = .ok (s, pt, true)) :
    ∃ s' pt', copyin s pt p.sz va src.length = .ok (s', pt', src, true) := by
  have hm := hboot.private_of_run hreach
  obtain ⟨hm', k, hresult, _, hmapped, hflat⟩ :=
    (copyoutLoop_flat _ m p va src le_rfl hm hp).of_eq_ok hcopy
  have hk : k = src.length := hresult.ok_iff.mp rfl
  subst hk
  rw [List.take_length] at hflat
  obtain ⟨⟨s', pt', dst, ok⟩, hr, _, _, k, hin, hdst⟩ :=
    (copyinLoop_flat _ _ _ va src.length le_rfl hm' (put_proc_self ..)).exists_eq_ok
  rw [hflat] at hin hdst
  have hok : ok = true := by
    by_contra hfail
    have hfail := Bool.eq_false_of_not_eq_true hfail
    have hlt : k < src.length :=
      lt_of_le_of_ne hin.le fun heq => Bool.false_ne_true (hfail.symm.trans (hin.ok_iff.mpr heq))
    rcases hin.refused hfail with hno | ⟨_, hhole⟩
    · have hgrants := hresult.granted k hlt
      exact hno (grants_writes.mpr ⟨hgrants.1, hgrants.2.1, hgrants.2.1⟩)
    · exact hmapped k hlt hhole
  have hk : k = src.length := hin.ok_iff.mp hok
  subst hok
  rw [hk, Flat.reads_writes] at hdst
  dsimp only at hdst
  subst hdst
  exact ⟨s', pt', hr⟩

theorem copyin_copyout_grown : ∃ (m : Machine Kmem 2) (p : Space) (s s' : Kmem)
    (pt pt' : PageTable),
    copyout m.mem p.pagetable p.sz (pgSize - 2) [1, 2, 3, 0, 0, 0, 0, 0] = .ok (s, pt, true) ∧
      copyin s pt p.sz (pgSize - 2) 8 = .ok (s', pt', [1, 2, 3, 0, 0, 0, 0, 0], true) := by
  obtain ⟨g, m₀, m, p, ⟨s, pt, ok⟩, hb, hrun, hp, _, hcopy, hfound⟩ := exists_grown
  have hok : ok = true := hfound.1
  subst hok
  obtain ⟨s', pt', hcopyin⟩ := copyin_copyout hb hrun hp _ _ hcopy
  exact ⟨m, p, s, s', pt, pt', hcopy, hcopyin⟩

/-- What `fetchaddr` returns: the number in the eight bytes at `addr`, the lowest first, if they
lie below the size, in pages that the process may use; memory for the holes among them can be
short. -/
theorem fetchaddr_flat (hm : Private kernelEnd reserved g m) (hp : m.proc i = some p) (addr : ℕ) :
    ∃ s pt x, fetchaddr m.mem p.pagetable p.sz addr = .ok (s, pt, x) ∧
      (Private kernelEnd reserved g (m.put s i (some { p with pagetable := pt })) ∧
        flat g (m.put s i (some { p with pagetable := pt })) = flat g m) ∧
      Footprint reserved m.mem s 2 x.isSome ∧
      (∀ n, x = some n → addr + 8 ≤ p.sz ∧ (∀ k < 8, Grants (flat g m) i Perm.u (addr + k)) ∧
        n = uint64Of ((flat g m).reads pgSize shmPage i addr 8)) ∧
      (x = none → p.sz < addr + 8 ∨ ∃ k < 8, ¬ Grants (flat g m) i Perm.u (addr + k) ∨
        m.mem.supply < 6 ∧ p.pagetable.leaf ((addr + k) / pgSize) = none) := by
  have hsz : p.sz ≤ shmVa := (hm.wellMapped hp).sz_le
  have hva : shmVa < 2 ^ 63 := by decide
  unfold fetchaddr
  by_cases hout : addr ≥ p.sz ∨ (addr + 8) % 2 ^ 64 > p.sz
  · rw [if_pos hout]
    have hself : m.put m.mem i (some p) = m := put_self hp
    refine ⟨m.mem, p.pagetable, none, rfl, ⟨?_, congrArg (flat g) hself⟩, .refl reserved m.mem 2 _,
      fun n hn => ?_, fun _ => Or.inl ?_⟩
    · change Private kernelEnd reserved g (m.put m.mem i (some p))
      rw [hself]
      exact hm
    · cases hn
    · rcases hout with hge | hgt
      · omega
      · exact hgt.trans_le (Nat.mod_le _ _)
  · rw [if_neg hout]
    obtain ⟨hlt, hle⟩ := not_or.mp hout
    have hmod : (addr + 8) % 2 ^ 64 = addr + 8 := Nat.mod_eq_of_lt (by omega)
    have hspan : pageSpan addr 8 ≤ 2 := by
      unfold pageSpan pageCount pgSize
      omega
    rw [hmod] at hle
    obtain ⟨⟨s, pt, dst, ok⟩, hr, hsame, hprint, k, hresult, hdst⟩ :=
      (copyinLoop_flat _ m p addr 8 le_rfl hm hp).exists_eq_ok
    refine ⟨s, pt, if ok then some (uint64Of dst) else none, ?_, hsame, ⟨hprint.kept, fun hok => ?_⟩,
      fun n hn => ?_, fun hn => ?_⟩
    · rw [copyin, hr]
      rfl
    · cases ok with
      | false => cases hok
      | true => exact (hprint.supply_le rfl).trans (by dsimp only; omega)
    · cases ok with
      | false => cases hn
      | true =>
          cases hn
          have hk : k = 8 := hresult.ok_iff.mp rfl
          subst hk
          exact ⟨Nat.not_lt.mp hle, hresult.granted, congrArg uint64Of hdst⟩
    · cases ok with
      | true => cases hn
      | false =>
          have hne : k ≠ 8 := fun heq => Bool.false_ne_true (hresult.ok_iff.mpr heq)
          exact Or.inr ⟨k, lt_of_le_of_ne hresult.le hne, (hresult.refused rfl).imp_right
            fun hshort => ⟨by omega, hshort.2⟩⟩

/-- In every state that a kernel without threads reaches, `fetchaddr` returns the number in the
eight bytes at `addr`, the lowest first, exactly if they lie below the size, in pages that the
process may use; memory for the holes among them can be short. -/
theorem fetchaddr_exact (hboot : Boot g kernelPages m₀) (hreach : Run (Exec kv g) m₀ events m)
    (hp : m.proc i = some p) (addr : ℕ) :
    ∃ s pt x, fetchaddr m.mem p.pagetable p.sz addr = .ok (s, pt, x) ∧
      flat g (m.put s i (some { p with pagetable := pt })) = flat g m ∧
      (∀ n, x = some n → addr + 8 ≤ p.sz ∧ (∀ k < 8, Grants (flat g m) i Perm.u (addr + k)) ∧
        n = uint64Of ((flat g m).reads pgSize shmPage i addr 8)) ∧
      (x = none → p.sz < addr + 8 ∨ ∃ k < 8, ¬ Grants (flat g m) i Perm.u (addr + k) ∨
        m.mem.supply < 6 ∧ p.pagetable.leaf ((addr + k) / pgSize) = none) := by
  obtain ⟨s, pt, x, hr, ⟨_, hflat⟩, _, hsome, hnone⟩ :=
    fetchaddr_flat (hboot.private_of_run hreach) hp addr
  exact ⟨s, pt, x, hr, hflat, hsome, hnone⟩

theorem fetchaddr_exact_copied : ∃ (g : Globals) (m : Machine Kmem 2),
    Grants (flat g m) 0 Perm.u (pgSize + 5) ∧
      uint64Of ((flat g m).reads pgSize shmPage 0 (pgSize - 2) 8) = 197121 := by
  obtain ⟨g, m₀, m, p, hb, hrun, hp, _, _, _, hfetch, _⟩ := exists_copied
  obtain ⟨s, pt, x, hr, _, hsome, _⟩ := fetchaddr_exact hb hrun hp (pgSize - 2)
  have hx : x = some 197121 := hfetch.of_eq_ok hr
  obtain ⟨_, hgrants, hvalue⟩ := hsome _ hx
  exact ⟨g, m, hgrants 7 (by decide), hvalue.symm⟩

/-- How an access by a user program ends; `trapping` stands for one that has not ended. -/
inductive AccessResult (α : Type)
  | done (a : α)
  | killed
  | trapping
  deriving DecidableEq

def AccessResult.isDone {α : Type} : AccessResult α → Bool
  | .done _ => true
  | .killed => false
  | .trapping => false

/-- The instruction `instr` of the process `p` in slot `i`, which accesses `va`: when the
hardware refuses, `usertrap` of the Assignment 7 kernel calls `vmfault` and kills the process if
that fails, and otherwise the hardware tries again, at most `fuel` times. -/
def access {α : Type} (instr : Kmem → PageTable → Option α) (i : Fin nproc) (va : ℕ) :
    ℕ → Machine Kmem nproc → Space → Except Panic (Machine Kmem nproc × AccessResult α)
  | 0, m, _ => pure (m, .trapping)
  | fuel + 1, m, p =>
      match instr m.mem p.pagetable with
      | some a => pure (m, .done a)
      | none => do
          let r ← vmfault m.mem p.pagetable p.sz va
          let p' := { p with pagetable := r.2.1 }
          match r.2.2 with
          | none => pure (m.put r.1 i (some p'), .killed)
          | some _ => access instr i va fuel (m.put r.1 i (some p')) p'

/-- Why `usertrap` kills a process for an access at `va`: it may not do that, or the page is a
hole, and the address is not below the size or memory is short. -/
def Denied (g : Globals) (m : Machine Kmem nproc) (i : Fin nproc) (p : Space)
    (bit : Perm → Bool) (va : ℕ) : Prop :=
  ¬ Grants (flat g m) i bit va ∨
    p.pagetable.leaf (va / pgSize) = none ∧ (p.sz ≤ va ∨ m.mem.supply < 3)

/-- An access is done after one page fault at most, or the process is killed. -/
theorem access_flat {α : Type} {instr : Kmem → PageTable → Option α} {bit : Perm → Bool} {va : ℕ}
    (hinstr : ∀ s (pt : PageTable) e, pt.leaf (va / pgSize) = some e → e.perm.u = true →
      bit e.perm = true → (instr s pt).isSome)
    (hfresh : bit freshPerm = true) (fuel : ℕ) (hm : Private kernelEnd reserved g m)
    (hp : m.proc i = some p) :
    Yields (fun _ => False) (access instr i va (fuel + 2) m p) fun r =>
      Private kernelEnd reserved g r.1 ∧ flat g r.1 = flat g m ∧
        ((∃ a q, r.2 = .done a ∧ r.1.proc i = some q ∧ instr r.1.mem q.pagetable = some a) ∨
          r.2 = .killed ∧ Denied g m i p bit va) := by
  rw [access]
  cases hfirst : instr m.mem p.pagetable with
  | some a => exact ⟨hm, rfl, Or.inl ⟨a, p, rfl, hp, hfirst⟩⟩
  | none =>
      apply (vmfault_flat hm hp va).bind
      rintro r ⟨⟨hm', hflat⟩, hfault⟩
      cases hfault with
      | refused s pt _ hcause =>
          refine ⟨hm', hflat, Or.inr ⟨rfl, ?_⟩⟩
          by_cases hhole : p.pagetable.leaf (va / pgSize) = none
          · exact Or.inr ⟨hhole, hcause.imp_right fun h => h.resolve_left (not_not.mpr hhole)⟩
          · refine Or.inl fun hgrants => ?_
            obtain ⟨hv, hcases⟩ := grants_cases hm hp hgrants
            obtain ⟨e, he, hu⟩ := hcases.resolve_left fun h => hhole h.2
            have hbit := hgrants.2.2
            rw [flat_mode_of_leaf hp hv, he] at hbit
            have hsome := hinstr m.mem _ e he hu hbit
            rw [hfirst] at hsome
            exact Bool.false_ne_true hsome
      | filled s pt pa _ _ hleaf _ _ _ =>
          have hpage : pt.leaf (va / pgSize) = some ⟨pa, freshPerm⟩ := by
            rw [hleaf, Function.update_self]
          obtain ⟨a, ha⟩ := Option.isSome_iff_exists.mp (hinstr s pt _ hpage rfl hfresh)
          dsimp only
          rw [access, put_mem]
          dsimp only
          rw [ha]
          exact ⟨hm', hflat, Or.inl ⟨a, _, rfl, put_proc_self .., ha⟩⟩

/-- In every state that a kernel without threads reaches, a load by a user program ends after
at most one page fault: with the byte of its memory, or the process is killed for a reason. -/
theorem user_load_exact (hboot : Boot g kernelPages m₀) (hreach : Run (Exec kv g) m₀ events m)
    (hp : m.proc i = some p) (va fuel : ℕ) :
    ∃ m' x, access (fun s pt => load s pt va) i va (fuel + 2) m p = .ok (m', x) ∧
      flat g m' = flat g m ∧
      (Grants (flat g m) i Perm.r va ∧ x = .done ((flat g m).read pgSize shmPage i va) ∨
        x = .killed ∧ Denied g m i p Perm.r va) := by
  have hm := hboot.private_of_run hreach
  have hinstr : ∀ s (pt : PageTable) e, pt.leaf (va / pgSize) = some e → e.perm.u = true →
      e.perm.r = true → (load s pt va).isSome := fun s pt e he hu hr =>
    Option.isSome_iff_exists.mpr ⟨_, load_eq_some.mpr ⟨e, he, hu, hr, rfl⟩⟩
  obtain ⟨⟨m', x⟩, hr, hm', hflat, hcases⟩ := (access_flat hinstr rfl fuel hm hp).exists_eq_ok
  refine ⟨m', x, hr, hflat, hcases.imp_left ?_⟩
  rintro ⟨b, q, hx, hq, hload⟩
  obtain ⟨hgrants, rfl⟩ := flat_load hm' hq hload
  rw [hflat] at hgrants hx
  exact ⟨hgrants, hx⟩

theorem bootImage_accesses : Yields (fun _ => False)
    (bootImage (physTop - 20 * pgSize) kernBase []) fun r => ∃ x ∈ r,
      Yields (fun _ => False) (perform .assignment7 x.1 x.2 (.sbrk 0 pgSize true)) fun m₁ =>
        m₁.Fits ∧ ∃ p ∈ m₁.proc 0,
          Yields (fun _ => False) (access (fun s pt => load s pt pgSize) 0 pgSize 2 m₁ p)
            (fun r => r.2 = .done 0) ∧
          Yields (fun _ => False) (access (fun s pt => store s pt pgSize 9) 0 pgSize 2 m₁ p)
            fun r => r.2.isDone := by
  decide +kernel

theorem user_load_exact_grown : ∃ (g : Globals) (m : Machine Kmem 2),
    Grants (flat g m) 0 Perm.r pgSize ∧ (flat g m).read pgSize shmPage 0 pgSize = 0 := by
  obtain ⟨x, hb, h⟩ := exists_boot bootImage_accesses
  obtain ⟨m₁, hsbrk, hfits, p, hp, hload, _⟩ := h.exists_eq_ok
  have hrun : Run (Exec .assignment7 x.1) x.2 [.act (.sbrk 0 pgSize true)] m₁ :=
    .single (.act trivial hsbrk hfits)
  obtain ⟨m', y, hr, _, hcases⟩ := user_load_exact hb hrun hp pgSize 0
  have hy : y = .done 0 := hload.of_eq_ok hr
  subst hy
  rcases hcases with ⟨hgrants, hread⟩ | ⟨hkilled, _⟩
  · injection hread with hread
    exact ⟨x.1, m₁, hgrants, hread.symm⟩
  · cases hkilled

/-- In every state that a kernel without threads reaches, a store by a user program ends after
at most one page fault: it changes one byte of its memory and nothing else that a process can
see, or the process is killed for a reason. -/
theorem user_store_exact (hboot : Boot g kernelPages m₀) (hreach : Run (Exec kv g) m₀ events m)
    (hp : m.proc i = some p) (va fuel : ℕ) (b : UInt8) :
    ∃ m' x, access (fun s pt => store s pt va b) i va (fuel + 2) m p = .ok (m', x) ∧
      flat g m' = flat g m ∧
      (Grants (flat g m) i Perm.w va ∧ (∃ s, x = .done s ∧
          flat g (m'.withMem s) = (flat g m).write pgSize shmPage i va b) ∨
        x = .killed ∧ Denied g m i p Perm.w va) := by
  have hm := hboot.private_of_run hreach
  have hinstr : ∀ s (pt : PageTable) e, pt.leaf (va / pgSize) = some e → e.perm.u = true →
      e.perm.w = true → (store s pt va b).isSome := fun s pt e he hu hw =>
    Option.isSome_iff_exists.mpr ⟨_, store_eq_some.mpr ⟨e, he, hu, hw, rfl⟩⟩
  obtain ⟨⟨m', x⟩, hr, hm', hflat, hcases⟩ := (access_flat hinstr rfl fuel hm hp).exists_eq_ok
  refine ⟨m', x, hr, hflat, hcases.imp_left ?_⟩
  rintro ⟨s, q, hx, hq, hstore⟩
  obtain ⟨hgrants, _, hwrite⟩ := flat_store hm' hq hstore
  rw [hflat] at hgrants hwrite
  exact ⟨hgrants, s, hx, hwrite⟩

theorem user_store_exact_grown : ∃ (g : Globals) (m m' : Machine Kmem 2) (s : Kmem),
    flat g (m'.withMem s) = (flat g m).write pgSize shmPage 0 pgSize 9 := by
  obtain ⟨x, hb, h⟩ := exists_boot bootImage_accesses
  obtain ⟨m₁, hsbrk, hfits, p, hp, _, hstore⟩ := h.exists_eq_ok
  have hrun : Run (Exec .assignment7 x.1) x.2 [.act (.sbrk 0 pgSize true)] m₁ :=
    .single (.act trivial hsbrk hfits)
  obtain ⟨m', y, hr, _, hcases⟩ := user_store_exact hb hrun hp pgSize 0 9
  have hdone : y.isDone = true := hstore.of_eq_ok hr
  rcases hcases with ⟨_, s, _, hwrite⟩ | ⟨hkilled, _⟩
  · exact ⟨x.1, m₁, m', s, hwrite⟩
  · rw [hkilled] at hdone
    exact absurd hdone Bool.false_ne_true

end OneCopy

end Runs

end Memory
