import OsAssignments.Memory.Clone
import OsAssignments.Memory.Fresh
import OsAssignments.Memory.References

/-!
# `kclone` and `kfork` do all or nothing

Either the calls make a thread or child, whose page table maps what it should and nothing
else, or the process table, the reference counts and the set of free pages are as before,
wherever `kalloc` fails. The books of the allocator say this of the pages it hands out;
`Pinned` are the books that say it of the whole array `references`. That the copied pages
are fresh and have the contents of the caller's pages is read off the runs that succeed.
-/

namespace Memory

open Outcome RefPool RadixTree Machine

/-! ## The whole array -/

namespace Kmem

variable {kernelEnd : ℕ} {reserved user owned : ℕ → ℕ} {m m' : Kmem} {pa : ℕ} {counts : ℕ → ℕ}

/-- The books balance, and the array has the values `counts` at the indices that belong to
no page of the allocator. -/
def Pinned (kernelEnd : ℕ) (reserved counts : ℕ → ℕ) (m : Kmem) (user owned : ℕ → ℕ) : Prop :=
  Balanced kernelEnd reserved m user owned ∧
    ∀ i, (∀ pa, Frame kernelEnd pa → pageIndex pa ≠ i) → m.references i = counts i

theorem takeFree_references (h : m.takeFree = (some pa, m')) {i : ℕ} (hi : pageIndex pa ≠ i) :
    m'.references i = m.references i := by
  unfold takeFree at h
  cases hf : m.freelist with
  | nil =>
      rw [hf] at h
      cases h
  | cons r rest =>
      rw [hf] at h
      cases h
      exact if_neg (Ne.symm hi)

theorem kalloc_references (h : m.kalloc = (some pa, m')) {i : ℕ} (hi : pageIndex pa ≠ i) :
    m'.references i = m.references i := by
  unfold kalloc at h
  split at h
  · cases h
  · exact takeFree_references h hi
  · exact takeFree_references h hi

theorem kalloc_none_references (h : m.kalloc = (none, m')) : m'.references = m.references := by
  unfold kalloc at h
  split at h
  · cases h
    rfl
  · rw [takeFree_empty h]
  · rw [takeFree_empty h]

theorem kfree_references (h : Kmem.kfree pa m = .ok m') :
    Frame m.kernelEnd pa ∧ ∀ i, pageIndex pa ≠ i → m'.references i = m.references i := by
  unfold Kmem.kfree at h
  split_ifs at h with hframe hcount
  · cases h
    exact ⟨hframe, fun i hi => if_neg (Ne.symm hi)⟩
  · cases h
    exact ⟨hframe, fun i hi => if_neg (Ne.symm hi)⟩

theorem kaddref_references (h : Kmem.kaddref pa m = .ok m') :
    Frame m.kernelEnd pa ∧ ∀ i, pageIndex pa ≠ i → m'.references i = m.references i := by
  unfold Kmem.kaddref at h
  split_ifs at h with hframe hcount
  cases h
  exact ⟨hframe, fun i hi => if_neg (Ne.symm hi)⟩

theorem pinnedBooks {shm : ℕ} (allowed : Panic → Prop) (hend : kernBase ≤ kernelEnd)
    (hshm : 0 < reserved shm) :
    Books (σ := Kmem) allowed shm (Pinned kernelEnd reserved counts) where
  kalloc_some {s s' user owned pa} h hk := by
    have hframe : Frame kernelEnd pa :=
      ((h.1.2.mem_free pa).mp (h.1.sound.kalloc hk).1).1
    refine ⟨h.1.kalloc_some hend hk, fun i hi => ?_⟩
    rw [kalloc_references hk (hi pa hframe)]
    exact h.2 i hi
  kalloc_none h hk := by
    refine ⟨h.1.kalloc_none hk, fun i hi => ?_⟩
    rw [kalloc_none_references hk]
    exact h.2 i hi
  share h := ⟨h.1.share, h.2⟩
  kfree {s user owned pa} h := by
    obtain ⟨s', hs', hb⟩ := h.1.kfree hend
    obtain ⟨hframe, href⟩ := kfree_references hs'
    refine yields_of_eq_ok (kfree_eq_ok hs') ⟨hb, fun i hi => ?_⟩
    rw [href i (hi pa (h.1.1 ▸ hframe))]
    exact h.2 i hi
  kaddref {s user owned pa} h hu := by
    obtain ⟨s', hs', hb⟩ := h.1.kaddref hend hu
    obtain ⟨hframe, href⟩ := kaddref_references hs'
    refine yields_of_eq_ok (kaddref_eq_ok hs') ⟨hb, fun i hi => ?_⟩
    rw [href i (hi pa (h.1.1 ▸ hframe))]
    exact h.2 i hi
  shm_unshared h := ⟨(books (fun _ => False) hend hshm).shm_unshared h.1, h.2⟩
  memset pa c h := h
  memmove dst src h := h

/-- The same books with the same holders are the same counts and the same free pages. -/
theorem Pinned.references_eq (h : Pinned kernelEnd reserved m.references m' user owned)
    (hb : Balanced kernelEnd reserved m user owned) : m'.references = m.references := by
  funext i
  by_cases hi : ∃ pa, Frame kernelEnd pa ∧ pageIndex pa = i
  · obtain ⟨pa, hframe, rfl⟩ := hi
    exact (h.1.2.count_eq pa hframe).trans (hb.2.count_eq pa hframe).symm
  · exact h.2 i fun pa hframe heq => hi ⟨pa, hframe, heq⟩

end Kmem

/-! ## The caller -/

variable {nproc : ℕ} {g : Globals} {m m' : Machine Kmem nproc} {i j : Fin nproc} {p q : Space}
  {kernelEnd : ℕ} {reserved user owned : ℕ → ℕ}

/-- What `kclone` and `kfork` find when the process or thread `p` in slot `i` calls them: the
books of the allocator balance and count the user pages of `p`, which is well mapped; and no
page table maps a page that is free. -/
structure Client (kernelEnd : ℕ) (reserved user owned : ℕ → ℕ) (g : Globals)
    (m : Machine Kmem nproc) (i : Fin nproc) (p : Space) : Prop where
  kernBase_le : kernBase ≤ kernelEnd
  shm_reserved : 0 < reserved g.shmPagePa
  books : Kmem.Balanced kernelEnd reserved m.mem user owned
  proc : m.proc i = some p
  wellMapped : p.WellMapped g
  held : ∀ v < shmPage, ∀ e, p.pagetable.leaf v = some e → 0 < user e.pa
  mapped : ∀ k r, m.proc k = some r → ∀ v e, r.pagetable.leaf v = some e →
    e.pa ∉ m.mem.freelist

theorem Client.of_inv (hend : kernBase ≤ kernelEnd) (hshm : 0 < reserved g.shmPagePa)
    (htramp : g.trampoline < kernelEnd) (h : Inv (Kmem.Balanced kernelEnd reserved) g m)
    (hp : m.proc i = some p) : Client kernelEnd reserved m.user m.owned g m i p where
  kernBase_le := hend
  shm_reserved := hshm
  books := h.books
  proc := hp
  wellMapped := h.spaces i p hp
  held _ hv _ he := user_pos hp hv he
  mapped _ _ hr v e he hfree := (not_free_of_inv h htramp hshm hfree hr).2 v e he rfl

/-- The process table, every reference count and the set of free pages are the same. -/
structure Unchanged (m m' : Machine Kmem nproc) : Prop where
  proc : m'.proc = m.proc
  references : m'.mem.references = m.mem.references
  freelist : m'.mem.freelist.Perm m.mem.freelist

/-- The page `pa` has one reference, and the leaf `v` of the slot `j` is the only one that
maps it. -/
structure OnlyAt (m : Machine Kmem nproc) (j : Fin nproc) (v pa : ℕ) : Prop where
  references : m.mem.references (pageIndex pa) = 1
  leaf : ∀ k r, m.proc k = some r → ∀ w e, r.pagetable.leaf w = some e → e.pa = pa →
    k = j ∧ w = v

/-- The slot `j`, which was unused, has got the space `q`; the counts of the pages in use
have risen by `more`. -/
structure Added (kernelEnd : ℕ) (m m' : Machine Kmem nproc) (j : Fin nproc) (q : Space)
    (more : ℕ → ℕ) : Prop where
  unused : m.proc j = none
  proc : m'.proc = Function.update m.proc j (some q)
  references : ∀ pa, Frame kernelEnd pa → pa ∉ m.mem.freelist →
    m'.mem.references (pageIndex pa) = m.mem.references (pageIndex pa) + more pa
  elsewhere : ∀ n, (∀ pa, Frame kernelEnd pa → pageIndex pa ≠ n) →
    m'.mem.references n = m.mem.references n

theorem Unchanged.of_pinned (hc : Client kernelEnd reserved user owned g m i p) {s : Kmem}
    (h : Kmem.Pinned kernelEnd reserved m.mem.references s user owned) :
    Unchanged m (m.withMem s) :=
  ⟨rfl, h.references_eq hc.books, hc.books.freelist_perm h.1⟩

/-- A page that is not free and is not the kernel's gets a reference for each new leaf. -/
theorem Added.of_pinned (hc : Client kernelEnd reserved user owned g m i p) {s : Kmem}
    (hj : m.proc j = none)
    (h : Kmem.Pinned kernelEnd reserved m.mem.references s (user + userCount q.pagetable.leaf)
      (owned + one q.trapframe + q.pagetable.pages)) :
    Added kernelEnd m (m.put s j (some q)) j q (userCount q.pagetable.leaf) := by
  refine ⟨hj, rfl, fun pa hframe hfree => ?_, h.2⟩
  have hbefore : m.mem.references (pageIndex pa) = user pa + (owned + reserved) pa :=
    hc.books.2.count_eq pa hframe
  have hafter : s.references (pageIndex pa) = (user + userCount q.pagetable.leaf) pa +
      (owned + one q.trapframe + q.pagetable.pages + reserved) pa := h.1.2.count_eq pa hframe
  have hused : user pa + (owned + reserved) pa ≠ 0 := fun hzero =>
    hfree ((hc.books.2.mem_free pa).mpr ⟨hframe, hzero⟩)
  change s.references (pageIndex pa) = _
  rw [hbefore, hafter]
  simp only [Pi.add_apply] at hused ⊢
  have hnew : one q.trapframe pa + q.pagetable.pages pa = 0 := by
    by_contra hne
    have hexcl := h.1.2.exclusive pa (by simp only [Pi.add_apply]; omega)
    simp only [Pi.add_apply] at hexcl
    omega
  omega

/-- A page that nothing mapped before is mapped by the leaves of the new space alone. -/
theorem OnlyAt.of_fresh {s : Kmem} {v pa : ℕ} (hc : Client kernelEnd reserved user owned g m i p)
    (hfree : pa ∈ m.mem.freelist) (href : s.references (pageIndex pa) = 1)
    (hleaf : ∀ w e, q.pagetable.leaf w = some e → e.pa = pa → w = v) :
    OnlyAt (m.put s j (some q)) j v pa := by
  refine ⟨href, fun k r hr w e he hpa => ?_⟩
  by_cases hk : k = j
  · rw [hk, put_proc_self] at hr
    cases hr
    exact ⟨hk, hleaf w e he hpa⟩
  · rw [put_proc_of_ne _ _ _ hk] at hr
    exact absurd (hpa ▸ hfree) (hc.mapped k r hr w e he)

theorem userCount_eq_zero {f : ℕ → Option Pte} {pa : ℕ}
    (h : ∀ v < shmPage, ∀ e, f v = some e → e.pa ≠ pa) : userCount f pa = 0 := by
  unfold userCount
  rw [Finset.sum_apply]
  refine Finset.sum_eq_zero fun v hv => ?_
  cases he : f v with
  | none => rfl
  | some e =>
      rw [Option.map_some, tally_some]
      exact one_of_ne (Ne.symm (h v (Finset.mem_range.mp hv) e he))

theorem userCount_pos {f : ℕ → Option Pte} {v : ℕ} {e : Pte} (hv : v < shmPage)
    (he : f v = some e) : 0 < userCount f e.pa := by
  rw [← userCount_clear hv he, Pi.add_apply, one_self]
  omega

/-! ## kclone -/

/-- The thread `q` in slot `j` shares the pages of `p`: it maps what `p` maps, its trapframe
is a page of its own, and each page has a reference more for each leaf that maps it. -/
structure SharesPages (kernelEnd : ℕ) (m m' : Machine Kmem nproc) (p : Space) (j : Fin nproc)
    (q : Space) : Prop where
  added : Added kernelEnd m m' j q p.mapped
  sz_eq : q.sz = p.sz
  leaf : ∀ v < shmPage, q.pagetable.leaf v = p.pagetable.leaf v
  shm : q.pagetable.leaf shmPage = p.pagetable.leaf shmPage
  trapframe : q.pagetable.leaf trapframePage = some ⟨q.trapframe, trapframePerm⟩
  trapframe_fresh : q.trapframe ∈ m.mem.freelist
  trapframe_only : OnlyAt m' j trapframePage q.trapframe

theorem trapframe_fresh (hc : Client kernelEnd reserved user owned g m i p) {s : Kmem}
    (h : Kmem.Balanced kernelEnd reserved s (user + userCount q.pagetable.leaf)
      (owned + one q.trapframe + q.pagetable.pages)) :
    q.trapframe ∈ m.mem.freelist ∧ s.references (pageIndex q.trapframe) = 1 ∧
      ∀ v < shmPage, ∀ e, q.pagetable.leaf v = some e → e.pa ≠ q.trapframe := by
  have hexcl := h.2.exclusive q.trapframe (by simp only [Pi.add_apply, one_self]; omega)
  have hframe := h.2.valid_of_held q.trapframe (by simp only [Pi.add_apply, one_self]; omega)
  have hcount : s.references (pageIndex q.trapframe) = _ := h.2.count_eq q.trapframe hframe
  simp only [Pi.add_apply, one_self] at hexcl hcount
  refine ⟨(hc.books.2.mem_free _).mpr ⟨hframe, ?_⟩, by omega, fun v hv e he hpa => ?_⟩
  · simp only [Pi.add_apply]
    omega
  · have hpos := userCount_pos hv he
    rw [hpa] at hpos
    omega

theorem Client.above_not_fresh (hc : Client kernelEnd reserved user owned g m i p)
    (hwell : q.WellMapped g) {v pa : ℕ} {e : Pte} (hv : shmPage ≤ v) (hne : v ≠ trapframePage)
    (he : q.pagetable.leaf v = some e) (hfree : pa ∈ m.mem.freelist) : e.pa ≠ pa := by
  rcases shmPage_le_cases hv with rfl | hv | rfl | hv
  · intro hpa
    have hzero := ((hc.books.2.mem_free pa).mp hfree).2
    have hpos := hc.shm_reserved
    rw [← hwell.shape.shm e he, hpa] at hpos
    simp only [Pi.add_apply] at hzero
    omega
  · exact absurd hv hne
  · intro hpa
    rw [hwell.shape.trampoline] at he
    cases he
    exact hc.mapped i p hc.proc _ _ hc.wellMapped.shape.trampoline (hpa ▸ hfree)
  · rw [hwell.shape.above v hv] at he
    cases he

theorem ThreadOf.leaf_eq (h : ThreadOf p q) {v : ℕ} (hv : v < shmPage) :
    q.pagetable.leaf v = p.pagetable.leaf v := by
  cases he : p.pagetable.leaf v with
  | none => exact h.hole v hv he
  | some e =>
      obtain ⟨e', he', rfl⟩ := h.leaf v hv e he
      exact he'

/-- `kclone`, with arguments that pass its tests and wherever `kalloc` fails: it returns, and
it has made a thread that shares the pages of its creator, or has changed nothing. -/
theorem kclone_shares_or_unchanged {fcn arg stack returnaddr : ℕ}
    (hc : Client kernelEnd reserved user owned g m i p)
    (hargs : kcloneArgs p fcn stack returnaddr = .ok true) :
    Yields (fun _ => False) (kclone .assignment7 g m p fcn arg stack returnaddr) fun r =>
      (r.2 = none → Unchanged m r.1) ∧
        ∀ j, r.2 = some j → ∃ q, SharesPages kernelEnd m r.1 p j q := by
  have B : Books (fun _ => False) g.shmPagePa
      (Kmem.Pinned kernelEnd reserved m.mem.references) :=
    Kmem.pinnedBooks _ hc.kernBase_le hc.shm_reserved
  apply (kclone_spec_of_books B (yields_of_eq_ok hargs trivial) ⟨hc.books, fun _ _ => rfl⟩
    hc.wellMapped hc.held).mono
  intro r hr
  cases hr with
  | fails s hR => exact ⟨fun _ => .of_pinned hc hR, fun j hj => nomatch hj⟩
  | creates s j q hj hR hwell hthread =>
      refine ⟨fun hnone => (nomatch hnone), ?_⟩
      rintro _ ⟨⟩
      obtain ⟨hfresh, hone, huser⟩ := trapframe_fresh hc hR.1
      have hmore : userCount q.pagetable.leaf = p.mapped := by
        funext pa
        rw [hc.wellMapped.mapped_eq, userCount_above fun v hv => hthread.leaf_eq hv]
      refine ⟨q, ?_, hthread.sz_eq, fun v hv => hthread.leaf_eq hv, hthread.shm,
        hwell.shape.trapframe, hfresh, .of_fresh hc hfresh hone fun w e he hpa => ?_⟩
      · rw [← hmore]
        exact .of_pinned hc hj hR
      · by_contra hne
        by_cases hw : w < shmPage
        · exact huser w hw e he hpa
        · exact hc.above_not_fresh hwell (Nat.not_lt.mp hw) hne he hfresh hpa

/-! ## kfork -/

/-- The tables on the way to the trapframe are those on the way to the page at `SHM_VA`. -/
theorem missing_shmPage {pt : PageTable} (h : pt.leaf trapframePage ≠ none) :
    missing 2 pt.table (px (shmPage * pgSize)) = 0 := by
  obtain ⟨e, he⟩ := Option.ne_none_iff_exists'.mp h
  have hsame : ∀ j, 0 < j → j ≤ 2 →
      px (shmPage * pgSize) j = px (trapframePage * pgSize) j := by
    intro j hj hj'
    apply Fin.ext
    rw [px_mul_pgSize, px_mul_pgSize]
    have hcases : j = 1 ∨ j = 2 := by omega
    rcases hcases with rfl | rfl
    · decide
    · decide
  rw [missing_congr 2 pt.table hsame]
  exact missing_of_find 2 pt.table (PageTable.HasSlot.of_leaf he)

/-- The page at `SHM_VA` is mapped in a new address space if it is in the caller's: no table
is missing, so that `mappages` does not fail. -/
theorem forkShm_taken {s : Kmem} {parent child : PageTable} (hs : s.Sound)
    (htf : child.leaf trapframePage ≠ none) :
    Yields (fun _ => True) (forkShm g s parent child) fun r => Kmem.Taken s r.1 ∧
      r.2.leaf = if parent.leaf shmPage = none then child.leaf else
        Function.update child.leaf shmPage (some ⟨g.shmPagePa, userPerm true false⟩) := by
  have hmax := shmPage_lt
  cases he : parent.leaf shmPage with
  | none =>
      have hr : forkShm g s parent child = .ok (s, child) := by
        rcases walk_of_hole hmax he with hw | hw
        · rw [forkShm, shmVa, hw]
          rfl
        · rw [forkShm, shmVa, hw]
          rfl
      rw [hr, if_pos rfl]
      exact ⟨.refl s, rfl⟩
  | some e =>
      rw [if_neg (Option.some_ne_none e), forkShm, shmVa, walk_of_leaf hmax he, yields_ok_bind]
      apply ((mappages_taken hs child _ _ _ _).and (mappages_missing Kmem.supplied hmax)).bind
      rintro r ⟨htaken, hiff, hok⟩
      rw [missing_shmPage htf] at hiff
      exact ⟨htaken, (hok (hiff.mpr (Nat.zero_le _))).leaf⟩

theorem Fills.extend {c : ℕ → Kmem → ℕ → Prop} (hc : Lasting c) {s s₁ s₂ s' : Kmem}
    {f f' : ℕ → Option Pte} {V : Set ℕ} (hs : s.Sound) (h : Fills c s₁ s₂ f V)
    (hbefore : Kmem.Taken s s₁) (hafter : Kmem.Taken s₂ s') (hf : ∀ v ∈ V, f' v = f v) :
    Fills c s s' f' V := by
  have hsound := h.taken.sound (hbefore.sound hs)
  refine ⟨(hbefore.trans h.taken).trans hafter, fun v hv => ?_, fun v hv w hw heq => ?_⟩
  · obtain ⟨e, he, hfree, hnot, hcv⟩ := h.leaf v hv
    have hal := hs.aligned e.pa (hbefore.mem hfree)
    exact ⟨e, (hf v hv).trans he, hbefore.mem hfree, fun hin => hnot (hafter.mem hin),
      hc v s₂ s' e.pa hsound hafter hal hnot hcv⟩
  · rw [hf v hv, hf w hw] at heq
    exact h.apart v hv w hw heq

/-- The pages that `p` maps below its size. -/
def userPages (p : Space) : Set ℕ := {v | v < pageCount p.sz ∧ p.pagetable.leaf v ≠ none}

/-- The run of `kfork`, if it succeeds: each page that the child maps below its size was free
and has got the contents of the caller's page. -/
theorem copied_fills (kv : Kernel) (hs : m.mem.Sound) (hwell : p.WellMapped g)
    (hold : ∀ v e, p.pagetable.leaf v = some e → v < pageCount p.sz →
      e.pa % pgSize = 0 ∧ e.pa ∉ m.mem.freelist) :
    Yields (fun _ => True) (kfork kv g m p) fun r => ∀ j, r.2 = some j →
      ∃ q, r.1.proc j = some q ∧
        Fills (CopyOf m.mem p.pagetable.leaf) m.mem r.1.mem q.pagetable.leaf (userPages p) ∧
        q.pagetable.leaf shmPage = if p.pagetable.leaf shmPage = none then none else
          some ⟨g.shmPagePa, userPerm true false⟩ := by
  have hpages := pageCount_le_shmPage hwell.sz_le
  have hlay := layout
  have B : Books (σ := Kmem) (fun _ => True) g.shmPagePa fun _ _ _ => True :=
    .trivial _ _ fun _ => trivial
  unfold kfork
  cases hj : findUnused m with
  | none => exact fun j hj => nomatch hj
  | some j =>
      dsimp only
      have hfixed : Yields (fun _ => True) (allocproc kv g m.mem) _ :=
        @allocproc_spec Kmem _ _ g _ kv m.mem 0 0 B trivial
      apply (hfixed.and (allocproc_taken kv g hs)).bind
      rintro r ⟨⟨_, hfixed⟩, htaken⟩
      cases hnp : r.2 with
      | none =>
          intro j hj
          cases hj
      | some np =>
          obtain ⟨htaken, _, _⟩ := htaken np hnp
          have hleaf := (hfixed np hnp).2
          have hhole : ∀ v < shmPage, np.2.leaf v = none := by
            intro v hv
            rw [hleaf]
            exact fixedLeaves_of_lt g np.1 (by omega)
          have hcopy := uvmcopyLoop_fills kv g.shmPagePa p.pagetable (pageCount p.sz)
            r.1 np.2 0 (by omega) hs htaken (by rw [Nat.zero_add]; exact hold)
          rw [Nat.zero_mul, Nat.zero_add] at hcopy
          have K : kv.Spares (fun _ => True) (∀ i ∈ uvmcopyErr p.pagetable
              (pageCount p.sz) r.1 np.2 0, NoHole p.pagetable.leaf 0 i) :=
            fun _ => Or.inl ⟨trivial, trivial⟩
          have hfollows := @uvmcopy_spec Kmem _ _ _ _ kv B r.1 p.pagetable np.2 p.sz 0 0 K
            hpages hhole trivial
          apply (hfollows.and hcopy).bind
          rintro c ⟨⟨_, _, hfollows⟩, hfills⟩
          cases hok : c.2.2 with
          | false =>
              rw [if_pos rfl]
              exact (yields_true _).bind fun _ _ j hj => nomatch hj
          | true =>
              rw [if_neg (by decide)]
              obtain ⟨_, hfills⟩ := hfills hok
              have hout := (hfollows hok).outside
              have hshm : c.2.1.leaf shmPage = none := by
                rw [hout shmPage (Or.inr hpages), hleaf]
                exact fixedLeaves_of_lt g np.1 (by omega)
              have htf : c.2.1.leaf trapframePage ≠ none := by
                rw [hout trapframePage (Or.inr (by omega)), hleaf,
                  (fixedLeaves_shape g np.1).trapframe]
                exact Option.some_ne_none _
              apply (forkShm_taken (hfills.taken.sound (htaken.sound hs)) htf).bind
              rintro f ⟨htaken', hfleaf⟩
              rw [yields_pure]
              rintro _ ⟨⟩
              refine ⟨_, put_proc_self .., ?_, ?_⟩
              · have hV : userPages p = {i | 0 ≤ i ∧ i < pageCount p.sz ∧
                    p.pagetable.leaf i ≠ none} := by
                  ext i
                  exact ⟨fun hi => ⟨Nat.zero_le i, hi⟩, fun hi => hi.2⟩
                rw [hV]
                refine hfills.extend (lasting_copyOf _ _) hs htaken htaken' fun v hv => ?_
                have hlt : v < shmPage := hv.2.1.trans_le hpages
                dsimp only
                rw [hfleaf]
                split_ifs
                · rfl
                · rw [Function.update_of_ne (by omega)]
              · dsimp only
                rw [hfleaf]
                split_ifs
                · exact hshm
                · rw [Function.update_self]

theorem kfork_fills (hs : m.mem.Sound) (hwell : p.WellMapped g)
    (hold : ∀ v e, p.pagetable.leaf v = some e → v < pageCount p.sz →
      e.pa % pgSize = 0 ∧ e.pa ∉ m.mem.freelist) :
    Yields (fun _ => True) (kfork .assignment7 g m p) fun r => ∀ j, r.2 = some j →
      ∃ q, r.1.proc j = some q ∧
        Fills (CopyOf m.mem p.pagetable.leaf) m.mem r.1.mem q.pagetable.leaf (userPages p) ∧
        q.pagetable.leaf shmPage = if p.pagetable.leaf shmPage = none then none else
          some ⟨g.shmPagePa, userPerm true false⟩ :=
  copied_fills .assignment7 hs hwell hold

/-- The child `q` in slot `j` is a copy of `p`: it maps the pages that `p` maps, with the same
flags, each to a page of its own with the same contents, and the shared page if `p` does; the
caller's pages and the counts of all pages in use are as before. -/
structure Copies (kernelEnd : ℕ) (g : Globals) (m m' : Machine Kmem nproc) (p : Space)
    (j : Fin nproc) (q : Space) : Prop where
  added : Added kernelEnd m m' j q 0
  sz_eq : q.sz = p.sz
  hole : ∀ v < shmPage, p.pagetable.leaf v = none → q.pagetable.leaf v = none
  leaf : ∀ v < shmPage, ∀ e, p.pagetable.leaf v = some e → ∃ e',
    q.pagetable.leaf v = some e' ∧ e'.perm = e.perm ∧ e'.pa ∈ m.mem.freelist ∧
      Kmem.SameBytes m.mem e.pa m'.mem e'.pa ∧ OnlyAt m' j v e'.pa
  kept : ∀ v < shmPage, ∀ e, p.pagetable.leaf v = some e → Kmem.SameBytes m.mem e.pa m'.mem e.pa
  shm : q.pagetable.leaf shmPage = if p.pagetable.leaf shmPage = none then none else
    some ⟨g.shmPagePa, userPerm true false⟩

theorem userCount_eq_one {f : ℕ → Option Pte} {v : ℕ} {e : Pte} (hv : v < shmPage)
    (he : f v = some e) (honly : ∀ w < shmPage, ∀ e', f w = some e' → e'.pa = e.pa → w = v) :
    userCount f e.pa = 1 := by
  rw [← userCount_clear hv he, Pi.add_apply, one_self, userCount_eq_zero]
  intro w hw e' he' hpa
  by_cases hwv : w = v
  · rw [hwv, Function.update_self] at he'
    cases he'
  · rw [Function.update_of_ne hwv] at he'
    exact hwv (honly w hw e' he' hpa)

/-- A page that was free, and that one leaf of the new space below `SHM_VA` maps. -/
theorem OnlyAt.of_page (hc : Client kernelEnd reserved user owned g m i p) {s : Kmem} {v : ℕ}
    {e : Pte} (hb : Kmem.Balanced kernelEnd reserved s (user + userCount q.pagetable.leaf)
      (owned + one q.trapframe + q.pagetable.pages))
    (hwell : q.WellMapped g) (hv : v < shmPage) (he : q.pagetable.leaf v = some e)
    (hfree : e.pa ∈ m.mem.freelist)
    (honly : ∀ w < shmPage, ∀ x, q.pagetable.leaf w = some x → x.pa = e.pa → w = v) :
    OnlyAt (m.put s j (some q)) j v e.pa := by
  obtain ⟨_, _, htf⟩ := trapframe_fresh hc hb
  refine .of_fresh hc hfree ?_ fun w x hx hpa => ?_
  · obtain ⟨hframe, hzero⟩ := (hc.books.2.mem_free e.pa).mp hfree
    have hcount : s.references (pageIndex e.pa) = _ := hb.2.count_eq e.pa hframe
    have hexcl := hb.2.exclusive e.pa
    have hone := userCount_eq_one hv he honly
    simp only [Pi.add_apply] at hcount hexcl hzero
    omega
  · by_cases hw : w < shmPage
    · exact honly w hw x hx hpa
    · by_cases hwtf : w = trapframePage
      · rw [hwtf, hwell.shape.trapframe] at hx
        cases hx
        exact absurd hpa.symm (htf v hv e he)
      · exact absurd hpa (hc.above_not_fresh hwell (Nat.not_lt.mp hw) hwtf hx hfree)

/-- `kfork`, wherever `kalloc` fails: it returns, and it has made a child that is a copy of
the caller, or has changed nothing. -/
theorem kfork_copies_or_unchanged (hc : Client kernelEnd reserved user owned g m i p) :
    Yields (fun _ => False) (kfork .assignment7 g m p) fun r =>
      (r.2 = none → Unchanged m r.1) ∧
        ∀ j, r.2 = some j → ∃ q, Copies kernelEnd g m r.1 p j q := by
  have B : Books (fun _ => False) g.shmPagePa
      (Kmem.Pinned kernelEnd reserved m.mem.references) :=
    Kmem.pinnedBooks _ hc.kernBase_le hc.shm_reserved
  have hsound := hc.books.sound
  have hlt : ∀ v < shmPage, p.pagetable.leaf v ≠ none → v < pageCount p.sz := fun v hv hne =>
    Nat.lt_of_not_le fun hle => hne (hc.wellMapped.shape.hole v hle hv)
  -- the caller's pages are held, so they are pages of the allocator and not free
  have hold : ∀ v < shmPage, ∀ e, p.pagetable.leaf v = some e →
      e.pa % pgSize = 0 ∧ e.pa ∉ m.mem.freelist := by
    intro v hv e he
    have hpos := hc.held v hv e he
    refine ⟨(hc.books.2.valid_of_held e.pa (by omega)).1, hc.mapped i p hc.proc v e he⟩
  have hfills := kfork_fills hsound hc.wellMapped fun v e he hv =>
    hold v (hv.trans_le (pageCount_le_shmPage hc.wellMapped.sz_le)) e he
  have K : Kernel.assignment7.Spares (fun _ => False) (ForkWhole .assignment7 g m p) :=
    fun hk => nomatch hk
  have hbooks := kfork_spec_of_books B K ⟨hc.books, fun _ _ => rfl⟩ hc.wellMapped
  apply (hbooks.and hfills).mono
  rintro r ⟨hr, hfills⟩
  cases hr with
  | fails s hR => exact ⟨fun _ => .of_pinned hc hR, fun j hj => nomatch hj⟩
  | creates s j q hj hR hwell hchild =>
      refine ⟨fun hnone => (nomatch hnone), ?_⟩
      rintro _ ⟨⟩
      obtain ⟨q', hq', hfills, hshm⟩ := hfills j rfl
      rw [put_proc_self] at hq'
      cases hq'
      have hpage : ∀ w < shmPage, ∀ e, q.pagetable.leaf w = some e → w ∈ userPages p := by
        intro w hw e he
        have hne : p.pagetable.leaf w ≠ none := by
          intro hnone
          rw [hchild.hole w hw hnone] at he
          cases he
        exact ⟨hlt w hw hne, hne⟩
      have hfree : ∀ w < shmPage, ∀ e, q.pagetable.leaf w = some e → e.pa ∈ m.mem.freelist := by
        intro w hw e he
        obtain ⟨e', he', hfree, _⟩ := hfills.leaf w (hpage w hw e he)
        cases he.symm.trans he'
        exact hfree
      have hadded := Added.of_pinned hc hj hR
      refine ⟨q, ⟨⟨hj, rfl, fun pa hframe hnot => ?_, hadded.elsewhere⟩, hchild.sz_eq, hchild.hole,
        fun v hv e he => ?_, fun v hv e he => ?_, hshm⟩⟩
      · rw [hadded.references pa hframe hnot, userCount_eq_zero]
        · rfl
        · intro w hw e he hpa
          exact hnot (hpa ▸ hfree w hw e he)
      · have hne : p.pagetable.leaf v ≠ none := by
          rw [he]
          exact Option.some_ne_none e
        obtain ⟨e', he', hin, _, hcopy⟩ := hfills.leaf v ⟨hlt v hv hne, hne⟩
        have honly : ∀ w < shmPage, ∀ x, q.pagetable.leaf w = some x → x.pa = e'.pa → w = v := by
          intro w hw x hx hpa
          apply hfills.apart w (hpage w hw x hx) v (hpage v hv e' he')
          rw [hx, he', Option.map_some, Option.map_some, hpa]
        have hperm : e'.perm = e.perm := by
          obtain ⟨x, hx, hlike⟩ := hchild.leaf v hv e he
          cases he'.symm.trans hx
          exact hlike
        exact ⟨e', he', hperm, hin, hcopy e he, .of_page hc hR.1 hwell hv he' hin honly⟩
      · obtain ⟨hal, hnot⟩ := hold v hv e he
        exact hfills.taken.sameBytes hsound hal hnot

/-! ## Calls of the first process -/

theorem Client.of_boot {kernelPages : Finset ℕ} (hb : Boot g kernelPages m)
    (hp : m.proc i = some p) :
    Client m.mem.kernelEnd (reservedCount kernelPages) m.user m.owned g m i p :=
  .of_inv hb.kernBase_le (reservedCount_pos hb.shm_mem) hb.trampoline_lt hb.inv hp

theorem bootImage_spawns : Yields (fun _ => False)
    (bootImage (physTop - 20 * pgSize) kernBase []) fun r => ∃ x ∈ r, ∃ p ∈ x.2.proc 0,
      Yields (fun _ => False) (kcloneArgs p 0 pgSize 0) (fun b => b = true) ∧
      Yields (fun _ => False) (kclone .assignment7 x.1 x.2 p 0 0 pgSize 0)
        (fun r => r.2 = some 1) ∧
      Yields (fun _ => False) (kfork .assignment7 x.1 x.2 p) fun r => r.2 = some 1 := by
  decide +kernel

/-- The thread of the first process shares its pages. -/
theorem kclone_shares_first : ∃ (g : Globals) (m m' : Machine Kmem 2) (p q : Space),
    Boot g {g.shmPagePa} m ∧ m.proc 0 = some p ∧
      kclone .assignment7 g m p 0 0 pgSize 0 = .ok (m', some 1) ∧
      SharesPages m.mem.kernelEnd m m' p 1 q := by
  obtain ⟨x, hb, p, hp, hargs, hclone, _⟩ := exists_boot bootImage_spawns
  obtain ⟨b, hargs, rfl⟩ := hargs.exists_eq_ok
  obtain ⟨⟨m', j⟩, hr, hj⟩ := hclone.exists_eq_ok
  cases hj
  have hshares : Yields _ (kclone .assignment7 x.1 x.2 p 0 0 pgSize 0) _ :=
    kclone_shares_or_unchanged (Client.of_boot hb hp) hargs
  obtain ⟨q, hq⟩ := (hshares.of_eq_ok hr).2 1 rfl
  exact ⟨x.1, x.2, m', p, q, hb, hp, hr, hq⟩

/-- The child of the first process is a copy of it. -/
theorem kfork_copies_first : ∃ (g : Globals) (m m' : Machine Kmem 2) (p q : Space),
    Boot g {g.shmPagePa} m ∧ m.proc 0 = some p ∧
      kfork .assignment7 g m p = .ok (m', some 1) ∧ Copies m.mem.kernelEnd g m m' p 1 q := by
  obtain ⟨x, hb, p, hp, _, _, hfork⟩ := exists_boot bootImage_spawns
  obtain ⟨⟨m', j⟩, hr, hj⟩ := hfork.exists_eq_ok
  cases hj
  obtain ⟨q, hq⟩ := ((kfork_copies_or_unchanged (Client.of_boot hb hp)).of_eq_ok hr).2 1 rfl
  exact ⟨x.1, x.2, m', p, q, hb, hp, hr, hq⟩

end Memory
