import OsAssignments.Memory.Machine

/-!
# Address spaces come and go

An address space is well mapped when its size ends at `SHM_VA` or before, its user
pages lie below its size, and above them there are the trapframe, the trampoline
and perhaps the shared page. `allocproc` builds one without user pages, and
`freeproc` takes a well mapped one down and gives back all it holds.
-/

namespace Memory

open Outcome RefPool RadixTree

/-- The leaves of an address space of size `sz` with its trapframe in `tf`. -/
structure Shape (g : Globals) (tf sz : ℕ) (f : ℕ → Option Pte) : Prop where
  hole : HoleAbove f sz
  shm : ∀ e, f shmPage = some e → e.pa = g.shmPagePa
  trapframe : f trapframePage = some ⟨tf, trapframePerm⟩
  trampoline : f trampolinePage = some ⟨g.trampoline, trampolinePerm⟩
  above : ∀ v, maxPage ≤ v → f v = none

/-- The size of an address space is at most `SHM_VA` and its leaves are in place. -/
structure Space.WellMapped (g : Globals) (p : Space) : Prop where
  sz_le : p.sz ≤ shmVa
  shape : Shape g p.trapframe p.sz p.pagetable.leaf

def fixedLeaves (g : Globals) (tf : ℕ) : ℕ → Option Pte := fun v =>
  if v = trampolinePage then some ⟨g.trampoline, trampolinePerm⟩
  else if v = trapframePage then some ⟨tf, trapframePerm⟩
  else none

/-- The pages above the user part are those three and the ones that cannot be mapped. -/
theorem shmPage_le_cases {v : ℕ} (h : shmPage ≤ v) :
    v = shmPage ∨ v = trapframePage ∨ v = trampolinePage ∨ maxPage ≤ v := by
  have := layout
  omega

theorem fixedLeaves_of_lt (g : Globals) (tf : ℕ) {v : ℕ} (h : v < trapframePage) :
    fixedLeaves g tf v = none := by
  have := layout
  rw [fixedLeaves, if_neg (by omega), if_neg (by omega)]

theorem fixedLeaves_shape (g : Globals) (tf : ℕ) : Shape g tf 0 (fixedLeaves g tf) := by
  have hlay := layout
  constructor
  · intro v _ hv
    exact fixedLeaves_of_lt g tf (by omega)
  · intro e he
    rw [fixedLeaves_of_lt g tf (by omega)] at he
    cases he
  · rw [fixedLeaves, if_neg (by omega), if_pos rfl]
  · rw [fixedLeaves, if_pos rfl]
  · intro v hv
    rw [fixedLeaves, if_neg (by omega), if_neg (by omega)]

theorem userCount_fixedLeaves (g : Globals) (tf : ℕ) : userCount (fixedLeaves g tf) = 0 := by
  rw [← userCount_zero]
  apply userCount_above
  intro v hv
  have := layout
  exact fixedLeaves_of_lt g tf (by omega)

theorem Shape.congr {g : Globals} {tf sz sz' : ℕ} {f f' : ℕ → Option Pte}
    (h : Shape g tf sz f) (hhole : HoleAbove f' sz') (heq : ∀ v, shmPage ≤ v → f' v = f v) :
    Shape g tf sz' f' := by
  have hlay := layout
  constructor
  · exact hhole
  · intro e he
    rw [heq _ le_rfl] at he
    exact h.shm e he
  · rw [heq _ (by omega)]
    exact h.trapframe
  · rw [heq _ (by omega)]
    exact h.trampoline
  · intro v hv
    rw [heq v (by omega)]
    exact h.above v hv

theorem pageCount_le_shmPage {sz : ℕ} (h : sz ≤ shmVa) : pageCount sz ≤ shmPage :=
  pageCount_le_iff.mpr h

section Spaces

variable {σ : Type} [PageAllocator σ] {allowed : Panic → Prop} {g : Globals}
  {R : σ → (ℕ → ℕ) → (ℕ → ℕ) → Prop} {kv : Kernel} {s : σ} {pt : PageTable} {tf sz : ℕ}
  {user owned : ℕ → ℕ}

theorem unmapShm_spec (h : R s (user + userCount pt.leaf) (owned + pt.pages)) :
    Yields allowed (unmapShm g s pt) fun r =>
      R r.1 (user + userCount r.2.leaf) (owned + r.2.pages) ∧
        r.2.leaf = Function.update pt.leaf shmPage none := by
  have hmax := shmPage_lt
  cases he : pt.leaf shmPage with
  | none =>
      have hr : unmapShm g s pt = .ok (s, pt) := by
        rcases walk_of_hole hmax he with hw | hw
        · rw [unmapShm, shmVa, hw]
          rfl
        · rw [unmapShm, shmVa, hw]
          rfl
      rw [hr, yields_ok]
      exact ⟨h, (Function.update_eq_self_iff.mpr he.symm).symm⟩
  | some e =>
      have hr : unmapShm g s pt = .ok (s, pt.setPte (shmPage * pgSize) none) := by
        rw [unmapShm, shmVa, walk_of_leaf hmax he]
        exact uvmunmap_page hmax he
      have hleaf := leaf_clear hmax he
      rw [hr, yields_ok]
      refine ⟨?_, hleaf⟩
      rw [hleaf, PageTable.pages_setPte, userCount_above (f := pt.leaf)]
      · exact h
      · intro v hv
        exact Function.update_of_ne (Nat.ne_of_lt hv) ..

theorem unmapFixed_spec (hs : Shape g tf sz pt.leaf)
    (h : R s (user + userCount pt.leaf) (owned + pt.pages)) :
    Yields allowed (unmapFixed g s pt) fun r =>
      R r.1 (user + userCount r.2.leaf) (owned + r.2.pages) ∧
        (∀ v < shmPage, r.2.leaf v = pt.leaf v) ∧ ∀ v, shmPage ≤ v → r.2.leaf v = none := by
  have hlay := layout
  have htramp : trampolinePage < maxPage := by omega
  have htrap : trapframePage < maxPage := by omega
  have hleaf := leaf_clear htramp hs.trampoline
  have htf : (pt.setPte (trampolinePage * pgSize) none).leaf trapframePage =
      some ⟨tf, trapframePerm⟩ := by
    rw [hleaf, Function.update_of_ne (by omega)]
    exact hs.trapframe
  have hleaf' := leaf_clear htrap htf
  rw [unmapFixed, trampolineVa, uvmunmap_page htramp hs.trampoline, yields_ok_bind,
    trapframeVa, uvmunmap_page htrap htf, yields_ok_bind]
  have hbelow : ∀ v < shmPage, ((pt.setPte (trampolinePage * pgSize) none).setPte
      (trapframePage * pgSize) none).leaf v = pt.leaf v := by
    intro v hv
    rw [hleaf', Function.update_of_ne (by omega), hleaf, Function.update_of_ne (by omega)]
  have h' : R s (user + userCount ((pt.setPte (trampolinePage * pgSize) none).setPte
      (trapframePage * pgSize) none).leaf) (owned + ((pt.setPte (trampolinePage * pgSize)
        none).setPte (trapframePage * pgSize) none).pages) := by
    rw [userCount_above hbelow, PageTable.pages_setPte, PageTable.pages_setPte]
    exact h
  apply (unmapShm_spec h').mono
  intro r hr
  obtain ⟨hR, hshm⟩ := hr
  refine ⟨hR, ?_, ?_⟩
  · intro v hv
    rw [hshm, Function.update_of_ne (by omega)]
    exact hbelow v hv
  · intro v hv
    rw [hshm]
    rcases shmPage_le_cases hv with hv | hv | hv | hv
    · rw [hv, Function.update_self]
    · rw [hv, Function.update_of_ne (by omega), hleaf', Function.update_self]
    · rw [hv, Function.update_of_ne (by omega), hleaf', Function.update_of_ne (by omega), hleaf,
        Function.update_self]
    · rw [Function.update_of_ne (by omega), hleaf', Function.update_of_ne (by omega), hleaf,
        Function.update_of_ne (by omega)]
      exact hs.above v hv

theorem procFreepagetable_spec (B : Books allowed g.shmPagePa R)
    (K : kv.Spares allowed (NoHole pt.leaf 0 (pageCount sz)))
    (hsz : pageCount sz ≤ shmPage) (hs : Shape g tf sz pt.leaf)
    (h : R s (user + userCount pt.leaf) (owned + pt.pages)) :
    Yields allowed (procFreepagetable kv g s pt sz) fun s' => R s' user owned := by
  rw [procFreepagetable]
  apply (unmapFixed_spec hs h).bind
  intro r hr
  obtain ⟨hR, hbelow, habove⟩ := hr
  have K' : kv.Spares allowed (NoHole r.2.leaf 0 (pageCount sz)) := by
    refine K.imp fun hall v hv hv' => ?_
    rw [hbelow v (by omega)]
    exact hall v hv hv'
  apply uvmfree_spec B K' hsz _ hR
  intro v hv
  by_cases hlt : v < shmPage
  · rw [hbelow v hlt]
    exact hs.hole v hv hlt
  · exact habove v (Nat.not_lt.mp hlt)

/-- The thread's branch of `freeproc` does what `proc_freepagetable` does; it leaves
out the test for an empty address space, where `uvmunmap_sparse` has nothing to do. -/
theorem threadFreepagetable_eq (g : Globals) (s : σ) (pt : PageTable) (sz : ℕ) :
    threadFreepagetable g s pt sz = procFreepagetable .assignment7 g s pt sz := by
  unfold threadFreepagetable procFreepagetable
  congr 1
  funext r
  unfold uvmfree
  by_cases hsz : sz > 0
  · rw [if_pos hsz]
    rfl
  · rw [if_neg hsz, Nat.le_zero.mp (Nat.not_lt.mp hsz)]
    rfl

/-- `freeproc` gives back all that an address space holds. A thread's branch is
taken in the Assignment 7 kernel only. -/
theorem freeproc_spec (B : Books allowed g.shmPagePa R) (isThread : Bool)
    (K : isThread = false → kv.Spares allowed (NoHole pt.leaf 0 (pageCount sz)))
    (hsz : pageCount sz ≤ shmPage) (hs : Shape g tf sz pt.leaf)
    (h : R s (user + userCount pt.leaf) (owned + one tf + pt.pages)) :
    Yields allowed (freeproc kv g s (some tf) (some pt) sz isThread) fun s' => R s' user owned := by
  rw [add_right_comm] at h
  rw [freeproc]
  apply (B.kfree_owned h).bind
  intro s' hs'
  cases isThread with
  | true =>
      have K7 : Kernel.assignment7.Tolerates allowed := fun hk => nomatch hk
      dsimp only
      rw [if_pos rfl, threadFreepagetable_eq]
      exact procFreepagetable_spec B K7.spares hsz hs hs'
  | false =>
      dsimp only
      rw [if_neg (by decide)]
      exact procFreepagetable_spec B (K rfl) hsz hs hs'

theorem userCount_of_hole {f : ℕ → Option Pte} (h : ∀ v < shmPage, f v = none) :
    userCount f = 0 := by
  rw [← userCount_zero]
  exact userCount_above h

theorem leaf_empty (page : ℕ) : (PageTable.mk page (empty 2)).leaf = fun _ => none := by
  funext v
  unfold PageTable.leaf
  split_ifs
  · exact lookup_empty 2 _
  · rfl

theorem procPagetable_spec (B : Books allowed g.shmPagePa R) (h : R s user owned) :
    Yields allowed (procPagetable kv g s tf) fun r =>
      (r.2 = none → R r.1 user owned) ∧ ∀ pt, r.2 = some pt →
        R r.1 (user + userCount pt.leaf) (owned + pt.pages) ∧ pt.leaf = fixedLeaves g tf := by
  have hlay := layout
  have htramp : trampolinePage < maxPage := by omega
  have htrap : trapframePage < maxPage := by omega
  have hfree : ∀ (s' : σ) (pt' : PageTable), (∀ v, pt'.leaf v = none) →
      R s' user (owned + pt'.pages) →
      Yields allowed (uvmfree kv g.shmPagePa s' pt' 0) fun s'' => R s'' user owned := by
    intro s' pt' hnone hR
    have K : kv.Spares allowed (NoHole pt'.leaf 0 (pageCount 0)) :=
      Kernel.spares_of fun v _ hv => absurd hv (Nat.not_lt_zero v)
    apply uvmfree_spec B K (by decide) fun v _ => hnone v
    rw [userCount_of_hole fun v _ => hnone v, add_zero]
    exact hR
  unfold procPagetable uvmcreate
  cases hk : kalloc s with
  | mk r s' =>
      cases r with
      | none => exact ⟨fun _ => B.kalloc_none h hk, fun pt hpt => absurd hpt (Option.some_ne_none pt).symm⟩
      | some page =>
          dsimp only
          have hleaf₀ := leaf_empty page
          have hpages : (PageTable.mk page (empty 2)).pages = one page := by
            rw [PageTable.pages, pages_empty, add_zero]
          have h₀ : R (memset page 0 s') user (owned + (PageTable.mk page (empty 2)).pages) := by
            rw [hpages]
            exact B.memset page 0 (B.kalloc_some h hk)
          rw [trampolineVa]
          apply (mappages_spec B htramp (fun hne => absurd (congrFun hleaf₀ _) hne) h₀).bind
          intro r hr
          obtain ⟨hR, hleaf⟩ := hr
          rw [hleaf₀] at hleaf
          cases hok : r.2.2 with
          | false =>
              rw [if_pos rfl]
              rw [hok, if_neg (by decide)] at hleaf
              apply (hfree r.1 r.2.1 (fun v => congrFun hleaf v) hR).bind
              intro s'' hs''
              rw [yields_pure]
              exact ⟨fun _ => hs'', fun pt hpt => absurd hpt (Option.some_ne_none pt).symm⟩
          | true =>
              rw [if_neg (by decide), trapframeVa]
              rw [hok, if_pos rfl] at hleaf
              have hnone : r.2.1.leaf trapframePage = none := by
                rw [hleaf, Function.update_of_ne (by omega)]
              apply (mappages_spec B htrap (fun hne => absurd hnone hne) hR).bind
              intro r' hr'
              obtain ⟨hR', hleaf'⟩ := hr'
              rw [hleaf] at hleaf'
              cases hok' : r'.2.2 with
              | false =>
                  rw [if_pos rfl]
                  rw [hok', if_neg (by decide)] at hleaf'
                  have hmapped : r'.2.1.leaf trampolinePage =
                      some ⟨g.trampoline, trampolinePerm⟩ := by
                    rw [hleaf', Function.update_self]
                  rw [uvmunmap_page htramp hmapped, yields_ok_bind]
                  have hnone' : ∀ v, (r'.2.1.setPte (trampolinePage * pgSize) none).leaf v =
                      none := by
                    intro v
                    rw [leaf_clear htramp hmapped, hleaf', Function.update_idem]
                    by_cases hv : v = trampolinePage
                    · rw [hv, Function.update_self]
                    · rw [Function.update_of_ne hv]
                  rw [← PageTable.pages_setPte r'.2.1 (trampolinePage * pgSize) none] at hR'
                  apply (hfree r'.1 _ hnone' hR').bind
                  intro s'' hs''
                  rw [yields_pure]
                  exact ⟨fun _ => hs'', fun pt hpt => absurd hpt (Option.some_ne_none pt).symm⟩
              | true =>
                  rw [if_neg (by decide), yields_pure]
                  rw [hok', if_pos rfl] at hleaf'
                  refine ⟨fun hnone => absurd hnone (Option.some_ne_none _), ?_⟩
                  intro pt hpt
                  cases hpt
                  have hfix : r'.2.1.leaf = fixedLeaves g tf := by
                    rw [hleaf']
                    funext v
                    unfold fixedLeaves
                    by_cases hv : v = trapframePage
                    · rw [hv, Function.update_self, if_neg (by omega), if_pos rfl]
                    · rw [Function.update_of_ne hv, if_neg hv]
                      by_cases hv' : v = trampolinePage
                      · rw [hv', Function.update_self, if_pos rfl]
                      · rw [Function.update_of_ne hv', if_neg hv']
                  rw [hfix, userCount_fixedLeaves, add_zero]
                  exact ⟨hR', rfl⟩

theorem allocproc_spec (B : Books allowed g.shmPagePa R) (h : R s user owned) :
    Yields allowed (allocproc kv g s) fun r =>
      (r.2 = none → R r.1 user owned) ∧ ∀ np, r.2 = some np →
        R r.1 (user + userCount np.2.leaf) (owned + one np.1 + np.2.pages) ∧
          np.2.leaf = fixedLeaves g np.1 := by
  unfold allocproc
  cases hk : kalloc s with
  | mk r s' =>
      cases r with
      | none => exact ⟨fun _ => B.kalloc_none h hk, fun np hnp => nomatch hnp⟩
      | some tf =>
          dsimp only
          apply (procPagetable_spec B (B.kalloc_some h hk)).bind
          intro r hr
          obtain ⟨hfail, hok⟩ := hr
          cases hpt : r.2 with
          | none =>
              dsimp only
              rw [freeproc]
              have hfree : Yields allowed (kfree tf r.1 >>= fun s => pure s)
                  fun s'' => R s'' user owned :=
                (B.kfree_owned (hfail hpt)).bind fun s'' hs'' => hs''
              apply hfree.bind
              intro s'' hs''
              rw [yields_pure]
              exact ⟨fun _ => hs'', fun np hnp => nomatch hnp⟩
          | some pt =>
              refine ⟨fun hnone => (nomatch hnone), ?_⟩
              intro np hnp
              cases hnp
              exact hok pt hpt

end Spaces

end Memory
