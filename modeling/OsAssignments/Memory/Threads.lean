import OsAssignments.Memory.Growth

/-!
# Threads and the memory of their creator

`kclone` gives a thread its own page table, filled by `uvmshare` with the pages of
its creator, and its own size. Nothing keeps the two in step later. They agree as
long as neither side maps a page below its size or unmaps one that the other still
counts as its own; the other processes may do what they like.
-/

namespace Memory

open Outcome RefPool RadixTree Machine

/-! ## The slots an action leaves alone -/

section Frame

variable {σ : Type} {nproc : ℕ} {m m' : Machine σ nproc} {i j : Fin nproc} {p q : Space}

/-- Every slot in use but `i` holds what it held. -/
def KeepsOthers (m : Machine σ nproc) (i : Fin nproc) (m' : Machine σ nproc) : Prop :=
  ∀ j q, j ≠ i → m.proc j = some q → m'.proc j = some q

theorem keepsOthers_refl (m : Machine σ nproc) (i : Fin nproc) : KeepsOthers m i m :=
  fun _ _ _ h => h

theorem keepsOthers_put (m : Machine σ nproc) (s : σ) (i : Fin nproc) (o : Option Space) :
    KeepsOthers m i (m.put s i o) := by
  intro j q hne hq
  rw [put_proc_of_ne _ _ _ hne]
  exact hq

theorem proc_put_unused (m : Machine σ nproc) (s : σ) {k : Fin nproc} (o : Option Space)
    (hk : m.proc k = none) (hq : m.proc j = some q) : (m.put s k o).proc j = some q := by
  have hne : j ≠ k := by
    rintro rfl
    rw [hk] at hq
    cases hq
  rw [put_proc_of_ne _ _ _ hne]
  exact hq

variable [PageAllocator σ] {kv : Kernel} {g : Globals}

theorem growproc_keepsOthers (n : ℤ) :
    Yields (fun _ => True) (growproc kv g m i p n) fun r => KeepsOthers m i r.1 := by
  unfold growproc
  apply Yields.ite
  · intro _
    apply Yields.ite
    · intro _
      exact keepsOthers_refl m i
    · intro _
      apply (yields_true _).bind
      intro r _
      apply Yields.ite
      · intro _
        exact keepsOthers_put m _ _ _
      · intro _
        exact keepsOthers_put m _ _ _
  · intro _
    apply Yields.ite
    · intro _
      apply (yields_true _).bind
      intro r _
      exact keepsOthers_put m _ _ _
    · intro _
      exact keepsOthers_refl m i

theorem sysSbrk_keepsOthers (n : ℤ) (lazy : Bool) :
    Yields (fun _ => True) (sysSbrk kv g m i p n lazy) fun r => KeepsOthers m i r.1 := by
  unfold sysSbrk
  apply Yields.ite
  · intro _
    exact (growproc_keepsOthers n).bind fun r hr => hr
  · intro _
    apply Yields.ite
    · intro _
      exact keepsOthers_refl m i
    · intro _
      exact keepsOthers_put m _ _ _

theorem kfork_keepsOthers :
    Yields (fun _ => True) (kfork kv g m p) fun r => KeepsOthers m i r.1 := by
  unfold kfork
  cases hj : findUnused m with
  | none => exact keepsOthers_refl m i
  | some j =>
      apply (yields_true _).bind
      intro r _
      cases r.2 with
      | none => exact keepsOthers_refl m i
      | some np =>
          apply (yields_true _).bind
          intro c _
          apply Yields.ite
          · intro _
            apply (yields_true _).bind
            intro s _
            exact keepsOthers_refl m i
          · intro _
            apply (yields_true _).bind
            intro f _
            exact fun _ _ _ hq => proc_put_unused m _ _ (proc_of_findUnused hj) hq

theorem kclone_keepsOthers (fcn arg stack returnaddr : ℕ) :
    Yields (fun _ => True) (kclone kv g m p fcn arg stack returnaddr)
      fun r => KeepsOthers m i r.1 := by
  unfold kclone
  apply (yields_true _).bind
  intro args _
  apply Yields.ite
  · intro _
    exact keepsOthers_refl m i
  · intro _
    cases hj : findUnused m with
    | none => exact keepsOthers_refl m i
    | some j =>
        apply (yields_true _).bind
        intro r _
        cases r.2 with
        | none => exact keepsOthers_refl m i
        | some np =>
            apply (yields_true _).bind
            intro c _
            apply Yields.ite
            · intro _
              apply (yields_true _).bind
              intro s _
              exact keepsOthers_refl m i
            · intro _
              apply (yields_true _).bind
              intro f _
              apply Yields.ite
              · intro _
                apply (yields_true _).bind
                intro s _
                exact keepsOthers_refl m i
              · intro _
                exact fun _ _ _ hq => proc_put_unused m _ _ (proc_of_findUnused hj) hq

theorem sysShmGet_keepsOthers :
    Yields (fun _ => True) (sysShmGet g m i p) fun r => KeepsOthers m i r.1 := by
  unfold sysShmGet
  apply (yields_true _).bind
  intro e _
  split
  · exact keepsOthers_refl m i
  · apply (yields_true _).bind
    intro r _
    exact keepsOthers_put m _ _ _

/-- An action changes no other slot that is in use, whatever it does to its own. -/
theorem perform_keepsOthers (a : Action nproc) :
    Yields (fun _ => True) (perform kv g m a) (KeepsOthers m a.slot) := by
  cases hp : m.proc a.slot with
  | none =>
      rw [perform_unused hp]
      exact keepsOthers_refl m _
  | some p =>
      cases hz : p.zombie with
      | true =>
          rw [perform_zombie hp hz]
          cases a with
          | reap i => exact (yields_true _).bind fun s _ => keepsOthers_put m _ _ _
          | sbrk i n lazy => exact keepsOthers_refl m i
          | fault i va => exact keepsOthers_refl m i
          | fork i => exact keepsOthers_refl m i
          | clone i fcn arg stack returnaddr => exact keepsOthers_refl m i
          | shmGet i => exact keepsOthers_refl m i
          | exit i => exact keepsOthers_refl m i
      | false =>
          rw [perform_live hp hz]
          cases a with
          | sbrk i n lazy => exact (sysSbrk_keepsOthers n lazy).map
          | fault i va => exact (yields_true _).bind fun r _ => keepsOthers_put m _ _ _
          | fork i => exact kfork_keepsOthers.map
          | clone i fcn arg stack returnaddr =>
              cases kv with
              | assignment4 => exact keepsOthers_refl m i
              | assignment7 => exact (kclone_keepsOthers fcn arg stack returnaddr).map
          | shmGet i => exact sysShmGet_keepsOthers.map
          | exit i =>
              apply Yields.ite
              · intro _
                trivial
              · intro _
                exact keepsOthers_put m _ _ _
          | reap i => exact keepsOthers_refl m i

end Frame

/-! ## Where `kalloc` runs out -/

section Short

variable {nproc : ℕ} {g : Globals} {s : Kmem} {p : Space}

/-- The supply does not cover the pages, and the tables on the way to them, that mapping the
pages of `p` from `v` up to `w` takes. -/
def Short (s : Kmem) (p : Space) (v w : ℕ) : Prop := s.supply < growthPages p.pagetable v v w

theorem page_lt_shmPage {p : Space} (hp : p.WellMapped g) {va : ℕ} (hva : va < p.sz) :
    va / pgSize < shmPage := by
  have hpages := pageCount_le_shmPage hp.sz_le
  have : va / pgSize < pageCount p.sz := by
    rw [lt_pageCount_iff]
    exact lt_of_le_of_lt (Nat.div_mul_le_self va pgSize) hva
  omega

theorem trivialBooks (shm : ℕ) : Books (σ := Kmem) (fun _ => True) shm fun _ _ _ => True :=
  Books.trivial _ _ fun _ => trivial

theorem uvmalloc_short (hp : p.WellMapped g) {perm : Perm} {newsz : ℕ} (hle : p.sz ≤ newsz)
    (hnew : newsz ≤ shmVa) (hshort : Short s p (pageCount p.sz) (pageCount newsz)) :
    Yields (fun _ => True) (uvmalloc .assignment7 g.shmPagePa s p.pagetable p.sz newsz perm)
      fun r => r.2.2 = 0 ∧ r.2.1.leaf = p.pagetable.leaf := by
  have hcount : pageCount p.sz + (pageCount newsz - pageCount p.sz) = pageCount newsz :=
    Nat.add_sub_cancel' (pageCount_mono hle)
  have htop := pageCount_le_shmPage hnew
  have hlay := layout
  have hhole := hp.shape.hole
  have hspec := @uvmallocLoop_spec Kmem _ (fun _ => True) g.shmPagePa (fun _ _ _ => True)
    .assignment7 (trivialBooks g.shmPagePa) perm (pageCount p.sz)
    (pageCount newsz - pageCount p.sz) s p.pagetable (pageCount p.sz) 0 0 le_rfl
    (fun i hi hi' => absurd hi' (Nat.not_lt.mpr hi)) (by omega) (Or.inr trivial) hhole trivial
  have hgrows := uvmallocLoop_grows Kmem.supplied g.shmPagePa perm
    (pageCount newsz - pageCount p.sz) s p.pagetable (pageCount p.sz) le_rfl (by omega)
    (fun i hi hi' => hhole i hi (by omega)) (.refl p.pagetable (pageCount p.sz))
  rw [uvmalloc, if_neg (Nat.not_lt.mpr hle), pgRoundUp_eq]
  apply (hspec.and hgrows).bind
  rintro r ⟨⟨hfail, _⟩, hout⟩
  rw [hcount] at hout
  rw [yields_pure]
  cases hr : r.2.2 with
  | true => exact absurd (hout.ok_iff.mp hr) (Nat.not_le.mpr hshort)
  | false => exact ⟨rfl, (hfail hr).2.trans (clearRange_self _ _)⟩

theorem vmfault_short (hp : p.WellMapped g) {va : ℕ} (hva : va < p.sz)
    (hshort : Short s p (va / pgSize) (va / pgSize + 1)) :
    Yields (fun _ => True) (vmfault s p.pagetable p.sz va)
      fun r => r.2.1.leaf = p.pagetable.leaf := by
  have hv := page_lt_shmPage hp hva
  have hmax : va / pgSize < maxPage := by
    have := layout
    omega
  unfold vmfault
  rw [if_neg (Nat.not_le.mpr hva)]
  cases he : p.pagetable.leaf (va / pgSize) with
  | some e =>
      simp only [pgRoundDown, ismapped_of_leaf hmax he, yields_ok_bind]
      rfl
  | none =>
      simp only [pgRoundDown, ismapped_of_hole hmax he, yields_ok_bind]
      cases hk : kalloc s with
      | mk r s' =>
          cases r with
          | none => rfl
          | some mem =>
              have hs := Kmem.supplied.kalloc_some hk
              have hspec := @mappages_spec Kmem _ (fun _ => True) g.shmPagePa (fun _ _ _ => True)
                (trivialBooks g.shmPagePa) (memset mem 0 s') p.pagetable (va / pgSize) mem
                (userPerm true false) 0 0 hmax (fun _ => trivial) trivial
              apply (hspec.and (mappages_missing Kmem.supplied hmax)).bind
              rintro r ⟨⟨_, hleaf⟩, hiff, _⟩
              rw [Kmem.supplied.memset] at hiff
              have hfail : r.2.2 = false := by
                rw [Bool.eq_false_iff]
                intro hok
                have hle := hiff.mp hok
                rw [Short, growthPages_step _ _ (Nat.lt_succ_self _), growthPages_of_le _ _ le_rfl,
                  stillMissing, if_pos rfl] at hshort
                omega
              rw [hfail, if_neg Bool.false_ne_true] at hleaf ⊢
              exact (yields_true _).bind fun _ _ => hleaf

/-- An eager growth or a first touch that the supply does not cover. -/
def Action.RunsShort (s : Kmem) (p : Space) : Action nproc → Prop
  | .sbrk _ n lazy => 0 < n ∧ lazy = false ∧ addSz p.sz n ≤ shmVa ∧
      Short s p (pageCount p.sz) (pageCount (addSz p.sz n))
  | .fault _ va => va < p.sz ∧ Short s p (va / pgSize) (va / pgSize + 1)
  | _ => False

theorem perform_short {m : Machine Kmem nproc} {a : Action nproc} (hproc : m.proc a.slot = some p)
    (hlive : p.zombie = false) (hp : p.WellMapped g) (hshort : a.RunsShort m.mem p) :
    Yields (fun _ => True) (perform .assignment7 g m a) fun m' =>
      ∃ pt, m'.proc a.slot = some { p with pagetable := pt } ∧ pt.leaf = p.pagetable.leaf := by
  rw [perform_live hproc hlive]
  cases a with
  | sbrk i n lazy =>
      obtain ⟨hpos, hlazy, hnew, hshort⟩ := hshort
      have hle : p.sz ≤ addSz p.sz n := by
        by_contra hlt
        rw [Short, growthPages_of_le _ _ (pageCount_mono (by omega))] at hshort
        exact Nat.not_lt_zero _ hshort
      have htop : ¬ addSz p.sz n > trapframeVa := by
        have hshm : shmVa ≤ trapframeVa := by decide
        omega
      rw [performLive, sysSbrk, if_pos (Or.inl hlazy), growproc, if_pos hpos, if_neg htop]
      refine Yields.map (Yields.bind ((uvmalloc_short hp hle hnew hshort).bind ?_) fun r hr => hr)
      rintro r ⟨hzero, hleaf⟩
      rw [if_pos hzero, yields_pure]
      exact ⟨r.2.1, put_proc_self .., hleaf⟩
  | fault i va =>
      obtain ⟨hva, hshort⟩ := hshort
      apply (vmfault_short hp hva hshort).bind
      intro r hleaf
      rw [yields_pure]
      exact ⟨r.2.1, put_proc_self .., hleaf⟩
  | _ => exact absurd hshort id

end Short

/-! ## The actions that keep the user pages -/

/-- An action by the process `p` that has no user page to map or unmap, and is no exit: a
page fault is refused or finds a mapped page; eager growth stays within the last page or is
rejected; and a shrink takes down no mapped page. -/
def Action.KeepsPages (p : Space) {nproc : ℕ} : Action nproc → Prop
  | .sbrk _ n lazy => Memory.Within p.sz n ∧
      (0 < n → lazy = false →
        pageCount (addSz p.sz n) = pageCount p.sz ∨ trapframeVa < addSz p.sz n) ∧
      (n < 0 → ∀ v, pageCount (addSz p.sz n) ≤ v → v < pageCount p.sz →
        p.pagetable.leaf v = none)
  | .fault _ va => va < p.sz → p.pagetable.leaf (va / pgSize) ≠ none
  | .exit _ => False
  | _ => True

/-- A live process with the user pages of `p`. -/
structure Kept (g : Globals) (p p' : Space) : Prop where
  live : p'.zombie = false
  wellMapped : p'.WellMapped g
  leaf_eq : ∀ v < shmPage, p'.pagetable.leaf v = p.pagetable.leaf v

section Keeping

variable {g : Globals} {p p' : Space}

theorem Kept.withTable {pt : PageTable} (h : Kept g p p) (hleaf : pt.leaf = p.pagetable.leaf) :
    Kept g p { p with pagetable := pt } := by
  refine ⟨h.live, ⟨h.wellMapped.sz_le, ?_⟩, fun v _ => congrFun hleaf v⟩
  rw [hleaf]
  exact h.wellMapped.shape

theorem Resized.kept {nproc : ℕ} {i : Fin nproc} {n : ℤ} {lazy : Bool}
    (h : Resized p n lazy p') (hp : Kept g p p)
    (hkeeps : (Action.sbrk i n lazy).KeepsPages p) : Kept g p p' := by
  obtain ⟨hwithin, hgrow, hshrink⟩ := hkeeps
  have hsz := h.sz_le hp.wellMapped.sz_le hwithin
  have hwell := h.wellMapped hp.wellMapped hsz
  cases h with
  | same pt hleaf => exact ⟨hp.live, hwell, fun v _ => congrFun hleaf v⟩
  | grown pt hn hlazy htop _ hgrown =>
      refine ⟨hp.live, hwell, ?_⟩
      intro v _
      have hcount := (hgrow hn hlazy).resolve_right (Nat.not_lt.mpr htop)
      exact (hgrown hsz).outside v (by omega)
  | shrunk pt hn hleaf =>
      refine ⟨hp.live, hwell, ?_⟩
      intro v _
      dsimp only
      rw [hleaf]
      unfold clearRange
      by_cases hv : pageCount (addSz p.sz n) ≤ v ∧ v < pageCount p.sz
      · rw [if_pos hv, hshrink hn v hv.1 hv.2]
      · rw [if_neg hv]
  | untouched _ _ _ => exact ⟨hp.live, hwell, fun _ _ => rfl⟩

theorem Faulted.kept {nproc : ℕ} {i : Fin nproc} {va : ℕ} (h : Faulted p va p')
    (hp : Kept g p p) (hkeeps : (Action.fault i va).KeepsPages p) : Kept g p p' := by
  have hwell := h.wellMapped hp.wellMapped
  cases h with
  | same pt hleaf => exact ⟨hp.live, hwell, fun v _ => congrFun hleaf v⟩
  | filled pt pa hva hnone _ => exact absurd hnone (hkeeps hva)

theorem GotShm.kept {ret : Option ℕ} (h : GotShm g p p' ret) (hp : Kept g p p) :
    Kept g p p' := by
  have hwell := h.wellMapped hp.wellMapped
  cases h with
  | mapped _ => exact hp
  | maps pt _ hleaf =>
      refine ⟨hp.live, hwell, ?_⟩
      intro v hv
      dsimp only
      rw [hleaf, Function.update_of_ne (Nat.ne_of_lt hv)]
  | fails pt _ hleaf => exact ⟨hp.live, hwell, fun v _ => congrFun hleaf v⟩

variable {σ : Type} {nproc : ℕ} {R : σ → (ℕ → ℕ) → (ℕ → ℕ) → Prop} {m m' : Machine σ nproc}

theorem Spawned.proc_eq {Child : Space → Prop} {r : Machine σ nproc × Option (Fin nproc)}
    {i : Fin nproc} (h : Spawned R g m Child r) (hp : m.proc i = some p) :
    r.1.proc i = some p := by
  cases h with
  | fails s _ => exact hp
  | creates s j q hj _ _ _ => exact proc_put_unused m s _ hj hp

theorem Performed.kept {a : Action nproc} (h : Performed R g m a m')
    (hp : m.proc a.slot = some p) (hkept : Kept g p p) (hkeeps : a.KeepsPages p) :
    ∃ p', m'.proc a.slot = some p' ∧ Kept g p p' := by
  cases h with
  | idle => exact ⟨p, hp, hkept⟩
  | sbrk hp' hres hrep =>
      cases hp.symm.trans hp'
      exact ⟨_, hrep.proc_self, hres.kept hkept hkeeps⟩
  | fault hp' hfault hrep =>
      cases hp.symm.trans hp'
      exact ⟨_, hrep.proc_self, hfault.kept hkept hkeeps⟩
  | fork _ hspawn => exact ⟨p, hspawn.proc_eq hp, hkept⟩
  | clone _ hspawn => exact ⟨p, hspawn.proc_eq hp, hkept⟩
  | shmGet hp' hgot hrep =>
      cases hp.symm.trans hp'
      exact ⟨_, hrep.proc_self, hgot.kept hkept⟩
  | exit _ _ _ => exact absurd hkeeps id
  | reap s hp' hz _ =>
      cases hp.symm.trans hp'
      rw [hkept.live] at hz
      cases hz

end Keeping

/-! ## A thread and its creator -/

section Sharing

variable {g : Globals} {nproc : ℕ} {m m' : Machine Kmem nproc} {i j : Fin nproc}

/-- Both slots hold live processes whose page tables have the same user pages. -/
def Shares (g : Globals) (i j : Fin nproc) (m : Machine Kmem nproc) : Prop :=
  ∃ p q, m.proc i = some p ∧ m.proc j = some q ∧ Kept g p p ∧ Kept g p q

/-- If the action is by the process in slot `i`, it keeps the user pages or finds too few
pages free. -/
def Action.KeepsPagesOf (i : Fin nproc) (m : Machine Kmem nproc) (a : Action nproc) : Prop :=
  a.slot = i → ∀ p, m.proc i = some p → a.RunsShort m.mem p ∨ a.KeepsPages p

theorem Kept.trans {p q r : Space} (h : Kept g p q) (h' : Kept g q r) : Kept g p r :=
  ⟨h'.live, h'.wellMapped, fun v hv => (h'.leaf_eq v hv).trans (h.leaf_eq v hv)⟩

theorem Kept.symm {p q : Space} (hp : Kept g p p) (h : Kept g p q) : Kept g q p :=
  ⟨hp.live, hp.wellMapped, fun v hv => (h.leaf_eq v hv).symm⟩

theorem Kept.self {p q : Space} (h : Kept g p q) : Kept g q q :=
  ⟨h.live, h.wellMapped, fun _ _ => rfl⟩

/-- The process in slot `i` keeps its user pages over an action that is not its own, that
keeps them or that finds too few pages free. -/
theorem kept_of_perform {a : Action nproc} {p : Space} (hp : m.proc i = some p)
    (hkept : Kept g p p) (hkeeps : a.KeepsPagesOf i m)
    (hperform : perform .assignment7 g m a = .ok m') :
    ∃ p', m'.proc i = some p' ∧ Kept g p p' := by
  by_cases hslot : a.slot = i
  · subst hslot
    rcases hkeeps rfl p hp with hshort | hkeeps
    · obtain ⟨pt, hp', hleaf⟩ :=
        (perform_short hp hkept.live hkept.wellMapped hshort).of_eq_ok hperform
      exact ⟨_, hp', hkept.withTable hleaf⟩
    · have hwell : ∀ q, m.proc a.slot = some q → q.WellMapped g := by
        intro q hq
        cases hp.symm.trans hq
        exact hkept.wellMapped
      have hperf := (perform_spec (trivialBooks g.shmPagePa) (permits_all .assignment7) trivial a
        hwell (Or.inr trivial)).of_eq_ok hperform
      exact hperf.kept hp hkept hkeeps
  · have hothers : Yields (fun _ => True) (perform .assignment7 g m a) (KeepsOthers m a.slot) :=
      perform_keepsOthers a
    exact ⟨p, hothers.of_eq_ok hperform i p (Ne.symm hslot) hp, hkept⟩

/-- The runs of all processes in which the two sides keep their user pages. -/
abbrev SharingRun (g : Globals) (i j : Fin nproc) (m m' : Machine Kmem nproc) : Prop :=
  Relation.ReflTransGen
    (Step .assignment7 g fun m a _ => a.KeepsPagesOf i m ∧ a.KeepsPagesOf j m) m m'

theorem Shares.of_run (h : Shares g i j m) (hrun : SharingRun g i j m m') : Shares g i j m' := by
  induction hrun with
  | refl => exact h
  | tail _ hstep ih =>
      obtain ⟨a, hperform, hi, hj⟩ := hstep
      obtain ⟨p, q, hp, hq, hpp, hpq⟩ := ih
      obtain ⟨p', hp', hkp⟩ := kept_of_perform hp hpp hi hperform
      obtain ⟨q', hq', hkq⟩ := kept_of_perform hq hpq.self hj hperform
      exact ⟨p', q', hp', hq', hkp.self, ((hpp.symm hkp).trans hpq).trans hkq⟩

theorem shares_of_kclone {p : Space} {fcn arg stack returnaddr : ℕ} (hp : m.proc i = some p)
    (hlive : p.zombie = false) (hwell : p.WellMapped g)
    (hclone : kclone .assignment7 g m p fcn arg stack returnaddr = .ok (m', some j)) :
    Shares g i j m' := by
  have hspawn : Spawned (fun _ _ _ => True) g m (ThreadOf p) (m', some j) :=
    (kclone_spec (trivialBooks g.shmPagePa) trivial fcn arg stack returnaddr trivial
      hwell hp).of_eq_ok hclone
  have hpp : Kept g p p := ⟨hlive, hwell, fun _ _ => rfl⟩
  have hi := hspawn.proc_eq hp
  cases hspawn with
  | creates s j q hj _ hq hthread =>
      refine ⟨p, q, hi, put_proc_self .., hpp, hthread.live, hq, ?_⟩
      intro v hv
      cases he : p.pagetable.leaf v with
      | none => exact hthread.hole v hv he
      | some e =>
          obtain ⟨e', he', rfl⟩ := hthread.leaf v hv e he
          exact he'

/-- The byte that a user program reads at `va`. -/
def load (s : Kmem) (pt : PageTable) (va : ℕ) : Option UInt8 :=
  match pt.leaf (va / pgSize) with
  | some pte => if pte.perm.u ∧ pte.perm.r then some (s.bytes (pte.pa + va % pgSize)) else none
  | none => none

/-- A user program writes the byte `b` at `va`. -/
def store (s : Kmem) (pt : PageTable) (va : ℕ) (b : UInt8) : Option Kmem :=
  match pt.leaf (va / pgSize) with
  | some pte =>
      if pte.perm.u ∧ pte.perm.w then
        some { s with bytes := Function.update s.bytes (pte.pa + va % pgSize) b }
      else
        none
  | none => none

/-- A byte that has been stored is the byte that is read at the same address through any
page table with the same leaf. -/
theorem load_of_store {s s' : Kmem} {pt pt' : PageTable} {va : ℕ} {b c : UInt8}
    (hleaf : pt'.leaf (va / pgSize) = pt.leaf (va / pgSize)) (hstore : store s pt va b = some s')
    (hload : load s' pt' va = some c) : c = b := by
  unfold store at hstore
  unfold load at hload
  rw [hleaf] at hload
  cases he : pt.leaf (va / pgSize) with
  | none =>
      rw [he] at hload
      cases hload
  | some e =>
      rw [he] at hstore hload
      dsimp only at hstore hload
      split_ifs at hstore hload
      cases hstore
      cases hload
      exact Function.update_self ..

/-- After a call of `kclone` that succeeds, in every run in which the creator and the
thread neither map nor unmap a user page, for want of one or because there is no page to
map or unmap, do not ask for a size past `SHM_VA` and do not exit: their page tables agree
at every address below either size, and what one stores there the other reads. -/
theorem thread_agrees (m₀ m₁ m : Machine Kmem nproc) (p : Space) (fcn arg stack returnaddr : ℕ)
    (hp : m₀.proc i = some p) (hlive : p.zombie = false) (hwell : p.WellMapped g)
    (hclone : kclone .assignment7 g m₀ p fcn arg stack returnaddr = .ok (m₁, some j))
    (hrun : SharingRun g i j m₁ m) :
    ∃ p q, m.proc i = some p ∧ m.proc j = some q ∧ ∀ va, va < p.sz ∨ va < q.sz →
      (p.pagetable.leaf (va / pgSize)).map Pte.pa = (q.pagetable.leaf (va / pgSize)).map Pte.pa ∧
      (∀ b c s, store m.mem p.pagetable va b = some s → load s q.pagetable va = some c → c = b) ∧
      ∀ b c s, store m.mem q.pagetable va b = some s → load s p.pagetable va = some c → c = b := by
  obtain ⟨p, q, hp, hq, hpp, hpq⟩ := (shares_of_kclone hp hlive hwell hclone).of_run hrun
  refine ⟨p, q, hp, hq, ?_⟩
  intro va hva
  have hv : va / pgSize < shmPage := by
    rcases hva with hva | hva
    · exact page_lt_shmPage hpp.wellMapped hva
    · exact page_lt_shmPage hpq.wellMapped hva
  have hleaf := hpq.leaf_eq _ hv
  refine ⟨?_, ?_, ?_⟩
  · rw [hleaf]
  · intro b c s hstore hload
    exact load_of_store hleaf hstore hload
  · intro b c s hstore hload
    exact load_of_store hleaf.symm hstore hload

end Sharing

/-! ## Runs from boot -/

/-- The call of `clone` in the runs below: code in page `0`, and a stack that ends with
that page. -/
def cloneFirst (g : Globals) (m : Machine Kmem 2) (p : Space) :
    Except Panic (Machine Kmem 2 × Option (Fin 2)) :=
  kclone .assignment7 g m p 0 0 pgSize 0

/-- The first process creates a thread and asks for a page that it does not touch. -/
theorem bootImage_thread : Yields (fun _ => False)
    (bootImage (physTop - 20 * pgSize) kernBase []) fun r => ∃ x ∈ r, ∃ p ∈ x.2.proc 0,
      p.zombie = false ∧ Yields (fun _ => False) (cloneFirst x.1 x.2 p) fun r =>
        r.2 = some 1 ∧ ∃ q ∈ r.1.proc 0, Within q.sz pgSize ∧
          Yields (fun _ => False) (perform .assignment7 x.1 r.1 (.sbrk 0 pgSize true))
            fun m => ∃ q ∈ m.proc 0, q.sz = 2 * pgSize := by
  decide +kernel

/-- A growth nobody touches leaves the two page tables in agreement. -/
theorem thread_agrees_untouched : ∃ (g : Globals) (m₀ m : Machine Kmem 2),
    Boot g {g.shmPagePa} m₀ ∧ ∃ p q, m.proc 0 = some p ∧ m.proc 1 = some q ∧ p.sz = 2 * pgSize ∧
      ∀ va < p.sz, (p.pagetable.leaf (va / pgSize)).map Pte.pa =
        (q.pagetable.leaf (va / pgSize)).map Pte.pa := by
  obtain ⟨x, hb, p, hp, hlive, h⟩ := exists_boot bootImage_thread
  obtain ⟨⟨m₁, j⟩, hclone, hj, q, hq, hwithin, h⟩ := h.exists_eq_ok
  obtain ⟨m, hsbrk, p', hp', hsz⟩ := h.exists_eq_ok
  dsimp only at hj hq hsbrk
  subst hj
  have hrun : SharingRun x.1 0 1 m₁ m := by
    refine .single ⟨_, hsbrk, ?_, fun hslot => absurd hslot (by decide)⟩
    intro _ q' hq'
    cases (show m₁.proc 0 = some q from hq).symm.trans hq'
    exact Or.inr
      ⟨hwithin, fun _ hfalse => (nomatch hfalse), fun hneg => absurd hneg (by decide)⟩
  obtain ⟨p₁, q₁, hp₁, hq₁, hagree⟩ := thread_agrees (g := x.1) x.2 m₁ m p 0 0 pgSize 0 hp hlive
    (hb.spaces 0 p hp) hclone hrun
  cases (show m.proc 0 = some p' from hp').symm.trans hp₁
  exact ⟨x.1, x.2, m, hb, p', q₁, hp', hq₁, hsz, fun va hva => (hagree va (Or.inl hva)).1⟩

/-- The page tables of the two slots differ at the page `v`, which is below one of the
sizes. -/
def Differ (m : Machine Kmem 2) (v : ℕ) : Prop :=
  ∃ p ∈ m.proc 0, ∃ q ∈ m.proc 1, (v * pgSize < p.sz ∨ v * pgSize < q.sz) ∧
    (p.pagetable.leaf v).map Pte.pa ≠ (q.pagetable.leaf v).map Pte.pa

instance (m : Machine Kmem 2) (v : ℕ) : Decidable (Differ m v) :=
  inferInstanceAs (Decidable (∃ p ∈ _, ∃ q ∈ _, _ ∧ _))

/-- After boot and a call of `kclone` that succeeds, the actions of the list bring the two
page tables out of step at the page `v`. -/
def Diverges (actions : List (Action 2)) (v : ℕ) : Prop :=
  ∃ (g : Globals) (m₀ m₁ m : Machine Kmem 2) (p : Space), Boot g {g.shmPagePa} m₀ ∧
    m₀.proc 0 = some p ∧ p.zombie = false ∧ cloneFirst g m₀ p = .ok (m₁, some 1) ∧
    actions.foldlM (perform .assignment7 g) m₁ = .ok m ∧ Differ m v

theorem diverges_of_yields {actions : List (Action 2)} {v : ℕ} (h : Yields (fun _ => False)
    (bootImage (physTop - 20 * pgSize) kernBase []) fun r => ∃ x ∈ r, ∃ p ∈ x.2.proc 0,
      p.zombie = false ∧ Yields (fun _ => False) (cloneFirst x.1 x.2 p) fun r => r.2 = some 1 ∧
        Yields (fun _ => False) (actions.foldlM (perform .assignment7 x.1) r.1) fun m =>
          Differ m v) : Diverges actions v := by
  obtain ⟨x, hb, p, hp, hlive, h⟩ := exists_boot h
  obtain ⟨⟨m₁, j⟩, hclone, hj, h⟩ := h.exists_eq_ok
  obtain ⟨m, hactions, hdiffer⟩ := h.exists_eq_ok
  dsimp only at hj hactions
  subst hj
  exact ⟨x.1, x.2, m₁, m, p, hb, hp, hlive, hclone, hactions, hdiffer⟩

/-- The creator alone brings the page tables out of step: by the first touch of a page
it has grown by, by an eager growth, and by a shrink. -/
theorem thread_diverges : Diverges [.sbrk 0 pgSize true, .fault 0 pgSize] 1 ∧
    Diverges [.sbrk 0 pgSize false] 1 ∧ Diverges [.sbrk 0 (-pgSize) false] 0 := by
  refine ⟨?_, ?_, ?_⟩
  · apply diverges_of_yields
    decide +kernel
  · apply diverges_of_yields
    decide +kernel
  · apply diverges_of_yields
    decide +kernel

end Memory
