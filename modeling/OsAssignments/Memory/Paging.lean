import OsAssignments.Memory.Flat

/-!
# System calls on flat memories

What `vmfault` does, in full: it fails without a trace in the leaves, or it maps a blank page
at a hole below the size. Then each action is followed through the view of the processes:
`perform_flat` says that it is nothing, a new size, a copy, the window or the end of a
process, and that no page is mapped twice afterwards.
-/

namespace Memory

open Outcome RefPool RadixTree Machine Kmem FlatMemory

/-! ## vmfault -/

/-- What `vmfault` has done: it returns `0` because the address is not below the size, or is
mapped, or because memory is short; or it has mapped a page of zeros. -/
inductive Faulting (s : Kmem) (pt : PageTable) (psz va : ℕ) : Kmem × PageTable × Option ℕ → Prop
  | refused (s' : Kmem) (pt' : PageTable) : pt'.leaf = pt.leaf →
      psz ≤ va ∨ pt.leaf (va / pgSize) ≠ none ∨ s.supply < 3 → Faulting s pt psz va (s', pt', none)
  | filled (s' : Kmem) (pt' : PageTable) (pa : ℕ) : va < psz → pt.leaf (va / pgSize) = none →
      pt'.leaf = Function.update pt.leaf (va / pgSize) (some ⟨pa, freshPerm⟩) →
      pa ∈ s.freelist → s'.Zeroed pa → s.supply ≤ s'.supply + 3 →
      Faulting s pt psz va (s', pt', some pa)

theorem vmfault_faulting {s : Kmem} (hs : s.Sound) {pt : PageTable} {psz va : ℕ}
    (hsz : pageCount psz ≤ shmPage) :
    Yields (fun _ => True) (vmfault s pt psz va) (Faulting s pt psz va) := by
  have hsupplied := Kmem.supplied
  unfold vmfault
  apply Yields.ite
  · intro hle
    exact .refused s pt rfl (Or.inl hle)
  · intro hlt
    have hva : va < psz := Nat.not_le.mp hlt
    have hmax : va / pgSize < maxPage := by
      have hv : va / pgSize < pageCount psz := by
        rw [lt_pageCount_iff]
        exact lt_of_le_of_lt (Nat.div_mul_le_self va pgSize) hva
      have := layout
      omega
    by_cases he : pt.leaf (va / pgSize) = none
    · simp only [pgRoundDown, ismapped_of_hole hmax he, yields_ok_bind]
      cases hk : kalloc s with
      | mk r s' =>
          cases r with
          | none =>
              have hzero := hsupplied.kalloc_none hk
              exact .refused s' pt rfl (Or.inr (Or.inr (by omega)))
          | some mem =>
              obtain ⟨hmem, hnot, htaken⟩ := hs.kalloc hk
              have hless := hsupplied.kalloc_some hk
              have hset := hsupplied.memset mem 0 s'
              have hmissing := missing_le 2 pt.table (px (va / pgSize * pgSize))
              have hmap := @mappages_spec Kmem _ (fun _ => True) 0 (fun _ _ _ => True)
                (Books.trivial _ 0 fun _ => trivial) (memset mem 0 s') pt (va / pgSize) mem
                (userPerm true false) 0 0 hmax (fun _ => trivial) trivial
              apply ((hmap.and (mappages_fills lasting_zeroed hs hmax (htaken.memset hmem hnot 0)
                hmem hnot (zeroed_memset s' mem))).and (mappages_missing hsupplied hmax)).bind
              rintro r ⟨⟨⟨_, hleaf⟩, _, _, hzero, _⟩, hiff, hok⟩
              cases hr : r.2.2 with
              | true =>
                  rw [hr, if_pos rfl] at hleaf
                  rw [if_pos rfl, yields_pure]
                  have hcost := (hok hr).supply_eq
                  exact .filled r.1 r.2.1 mem hva he hleaf hmem hzero (by omega)
              | false =>
                  rw [hr, if_neg (by decide)] at hleaf
                  rw [if_neg (by decide)]
                  have hshort : ¬ missing 2 pt.table (px (va / pgSize * pgSize)) ≤
                      Kmem.supply (memset mem 0 s') := by
                    rw [← hiff, hr]
                    exact Bool.false_ne_true
                  apply (yields_true _).bind
                  intro s'' _
                  exact .refused s'' r.2.1 hleaf (Or.inr (Or.inr (by omega)))
    · obtain ⟨e, he'⟩ := Option.ne_none_iff_exists'.mp he
      simp only [pgRoundDown, ismapped_of_leaf hmax he', yields_ok_bind]
      exact .refused s pt rfl (Or.inr (Or.inl he))

theorem Faulting.refills {s : Kmem} {pt : PageTable} {psz va : ℕ} {r : Kmem × PageTable × Option ℕ}
    (h : Faulting s pt psz va r) (hsz : pageCount psz ≤ shmPage)
    (hfree : ∀ v e, below pt.leaf v = some e → e.pa ∉ s.freelist) :
    Refills Blank s r.1 (below pt.leaf) (below r.2.1.leaf) ∧
      (∀ v, below pt.leaf v ≠ none → below r.2.1.leaf v ≠ none) ∧
      r.2.1.leaf shmPage = pt.leaf shmPage := by
  cases h with
  | refused s' pt' hleaf _ =>
      rw [hleaf]
      exact ⟨.of_subset (fun _ _ he => he) hfree, fun _ hne => hne, rfl⟩
  | filled s' pt' pa hva hnone hleaf hmem hzero _ =>
      have hv : va / pgSize < shmPage := by
        apply lt_of_lt_of_le _ hsz
        rw [lt_pageCount_iff]
        exact lt_of_le_of_lt (Nat.div_mul_le_self va pgSize) hva
      have hself : below pt'.leaf (va / pgSize) = some ⟨pa, freshPerm⟩ := by
        rw [below_of_lt _ hv, hleaf, Function.update_self]
      have hother : ∀ v, v ≠ va / pgSize → below pt'.leaf v = below pt.leaf v := by
        intro v hne
        unfold below
        rw [hleaf, Function.update_of_ne hne]
      have hhole : below pt.leaf (va / pgSize) = none := (below_of_lt _ hv).trans hnone
      refine ⟨⟨fun v e he => ?_, fun v w e x he hx hpa hfresh => ?_⟩, fun v hne => ?_, ?_⟩
      · by_cases hvv : v = va / pgSize
        · subst hvv
          cases hself.symm.trans he
          exact Or.inr ⟨hhole, hmem, hzero, rfl⟩
        · exact Or.inl ((hother v hvv).symm.trans he)
      · -- the only leaf whose page was free is the new one
        have hnew : ∀ v e, below pt'.leaf v = some e → e.pa ∈ s.freelist → v = va / pgSize := by
          intro v e he hin
          by_contra hne
          exact hfree v e ((hother v hne).symm.trans he) hin
        rw [hnew v e he hfresh, hnew w x hx (hpa ▸ hfresh)]
      · by_cases hvv : v = va / pgSize
        · rw [hvv, hself]
          exact Option.some_ne_none _
        · rw [hother v hvv]
          exact hne
      · dsimp only
        rw [hleaf, Function.update_of_ne (Nat.ne_of_gt hv)]

section Actions

variable {nproc : ℕ} {kernelEnd : ℕ} {reserved : ℕ → ℕ} {kv : Kernel} {g : Globals}
  {m m' : Machine Kmem nproc} {i : Fin nproc} {p q : Space} {s : Kmem}

theorem Private.books (hm : Private kernelEnd reserved g m) (allowed : Panic → Prop) :
    Books allowed g.shmPagePa (Kmem.Balanced kernelEnd reserved) :=
  Kmem.books allowed hm.kernBase_le hm.shm_reserved

theorem Private.wellMapped (hm : Private kernelEnd reserved g m) (hp : m.proc i = some p) :
    p.WellMapped g := hm.inv.spaces i p hp

theorem Private.sound (hm : Private kernelEnd reserved g m) : m.mem.Sound := hm.inv.books.sound

/-- A page that the kernel keeps for itself lies on a page boundary, is not free, and nobody else
has it. -/
theorem Private.reserved_page (hm : Private kernelEnd reserved g m) {pa : ℕ}
    (hpa : 0 < reserved pa) :
    pa % pgSize = 0 ∧ pa ∉ m.mem.freelist ∧ m.user pa = 0 ∧ reserved pa = 1 := by
  have hacc := hm.inv.books.2
  have howned : 0 < (m.owned + reserved) pa := Nat.add_pos_right _ hpa
  have hframe := hacc.valid_of_held pa (Nat.add_pos_right _ howned)
  obtain ⟨hone, huser⟩ := hacc.exclusive pa howned
  rw [Pi.add_apply] at hone
  refine ⟨hframe.1, fun hfree => ?_, huser, by omega⟩
  have hzero := ((hacc.mem_free pa).mp hfree).2
  omega

/-- The kernel's own pages keep their bytes while others are taken and given back. -/
theorem Private.kept {reserved' : ℕ → ℕ} (hm : Private kernelEnd reserved g m)
    (hm' : Private kernelEnd reserved' g m') (hcycles : Cycles m.mem m'.mem) {pa : ℕ}
    (hpa : 0 < reserved pa) (hpa' : 0 < reserved' pa) : SameBytes m.mem pa m'.mem pa :=
  hcycles.sameBytes hm.sound hm'.sound (hm.reserved_page hpa).1 (hm.reserved_page hpa).2.1
    (hm'.reserved_page hpa').2.1

theorem Private.not_free (hm : Private kernelEnd reserved g m) (hp : m.proc i = some p) :
    ∀ v e, below p.pagetable.leaf v = some e → e.pa ∉ m.mem.freelist := by
  intro v e he
  have he' : userLeaf (m.proc i) v = some e := by
    rw [hp]
    exact he
  exact (hm.page he').2.1

theorem Private.refills_same (hm : Private kernelEnd reserved g m) (hp : m.proc i = some p)
    {f : ℕ → Option Pte} (hf : ∀ v < shmPage, f v = p.pagetable.leaf v) :
    Refills Blank m.mem s (below p.pagetable.leaf) (below f) := by
  rw [below_congr hf]
  exact .of_subset (fun _ _ he => he) (hm.not_free hp)

/-- The slot of `p` has got `q`, which has the size of `p` and at most more blank pages: nobody
sees the difference. -/
theorem flat_same (hm : Private kernelEnd reserved g m) (hp : m.proc i = some p)
    (hinv : Inv (Kmem.Balanced kernelEnd reserved) g (m.put s i (some q)))
    (hcycles : Cycles m.mem s)
    (h : Refills Blank m.mem s (below p.pagetable.leaf) (below q.pagetable.leaf))
    (hkept : ∀ v, below p.pagetable.leaf v ≠ none → below q.pagetable.leaf v ≠ none)
    (hshm : q.pagetable.leaf shmPage = p.pagetable.leaf shmPage) (hsz : q.sz = p.sz) :
    Private kernelEnd reserved g (m.put s i (some q)) ∧ flat g (m.put s i (some q)) = flat g m := by
  have hm' : Private kernelEnd reserved g (m.put s i (some q)) :=
    hm.put hinv (by rw [hp]; exact h)
  have hsame := resize_same hm hp
  rw [← hsz] at hsame
  exact ⟨hm', (flat_resize hm hp hm' hcycles h hshm fun v _ => hkept v).trans hsame⟩

/-- Memory that only the kernel uses has changed. -/
theorem flat_withMem {reserved' : ℕ → ℕ} (hm : Private kernelEnd reserved g m)
    (hR : Kmem.Balanced kernelEnd reserved' s m.user m.owned)
    (hshm : 0 < reserved' g.shmPagePa) (hcycles : Cycles m.mem s) :
    Private kernelEnd reserved' g (m.withMem s) ∧ flat g (m.withMem s) = flat g m := by
  have hm' : Private kernelEnd reserved' g (m.withMem s) :=
    ⟨hm.kernBase_le, hm.trampoline_lt, hshm, ⟨hR, hm.inv.spaces⟩, hm.unaliased⟩
  refine ⟨hm', ?_⟩
  ext1
  · rfl
  · rfl
  · rfl
  · funext x
    cases x with
    | shared k => exact shared_frame hm hm' hcycles k
    | own k a => exact cell_frame hm hm' hcycles rfl a

theorem vmfault_flat (hm : Private kernelEnd reserved g m) (hp : m.proc i = some p) (va : ℕ) :
    Yields (fun _ => False) (vmfault m.mem p.pagetable p.sz va) fun r =>
      (Private kernelEnd reserved g (m.put r.1 i (some { p with pagetable := r.2.1 })) ∧
        flat g (m.put r.1 i (some { p with pagetable := r.2.1 })) = flat g m) ∧
      Faulting m.mem p.pagetable p.sz va r := by
  have hwell := hm.wellMapped hp
  have hsz := pageCount_le_shmPage hwell.sz_le
  apply (((vmfault_spec (hm.books _) hsz (books_off hm.inv.books hp)).and
    (vmfault_faulting hm.sound hsz)).and (vmfault_cycles hm.sound p.pagetable p.sz va)).mono
  rintro r ⟨⟨⟨hR, hleaf⟩, hfault⟩, hcycles⟩
  obtain ⟨hrefills, hkept, hshm⟩ := hfault.refills hsz (hm.not_free hp)
  refine ⟨flat_same hm hp (hm.inv.put ?_ fun q hq => ?_) hcycles hrefills hkept hshm rfl, hfault⟩
  · rw [add_assoc] at hR
    exact hR
  · cases hq
    have hfaulted : Faulted p va { p with pagetable := r.2.1 } := by
      rcases hleaf with hsame | ⟨hva, hnone, pa, hfill⟩
      · exact .same r.2.1 hsame
      · exact .filled r.2.1 pa hva hnone hfill
    exact hfaulted.wellMapped hwell

/-! ## sbrk -/

theorem uvmalloc_refills (hs : s.Sound) {shm : ℕ} {pt : PageTable} {oldsz newsz : ℕ}
    (hle : oldsz ≤ newsz) (htop : pageCount newsz ≤ shmPage + 1) (hold : pageCount oldsz ≤ shmPage)
    (hhole : HoleAbove pt.leaf oldsz) (hfree : ∀ v e, below pt.leaf v = some e → e.pa ∉ s.freelist) :
    Yields (fun _ => True) (uvmalloc kv shm s pt oldsz newsz freshPerm) fun r =>
      r.2.2 = 0 ∨ pageCount newsz ≤ shmPage →
        Refills Blank s r.1 (below pt.leaf) (below r.2.1.leaf) := by
  have hlay := layout
  have hcount : pageCount oldsz + (pageCount newsz - pageCount oldsz) = pageCount newsz :=
    Nat.add_sub_cancel' (pageCount_mono hle)
  have hfills := uvmallocLoop_fills kv shm freshPerm (pageCount oldsz * pgSize)
    (pageCount newsz - pageCount oldsz) s pt (pageCount oldsz) (by omega) hs
  have hspec : Yields (fun _ => True) (uvmallocLoop kv shm freshPerm (pageCount oldsz * pgSize)
      (pageCount newsz - pageCount oldsz) s pt (pageCount oldsz * pgSize)) _ :=
    @uvmallocLoop_spec Kmem _ (fun _ => True) shm (fun _ _ _ => True) kv
      (Books.trivial _ shm fun _ => trivial) freshPerm (pageCount oldsz)
      (pageCount newsz - pageCount oldsz) s pt (pageCount oldsz) 0 0 le_rfl
      (fun i hi hi' => absurd hi' (Nat.not_lt.mpr hi)) (by omega) (Or.inr trivial) hhole trivial
  rw [uvmalloc, if_neg (Nat.not_lt.mpr hle), pgRoundUp_eq]
  apply (hspec.and hfills).bind
  rintro r ⟨⟨hfail, hok⟩, hfills⟩
  rw [hcount] at hok hfills
  rw [yields_pure]
  intro hcase
  cases hr : r.2.2 with
  | false =>
      have hleaf := (hfail hr).2.trans (hhole.clearRange hold)
      rw [hleaf]
      exact .of_subset (fun _ _ he => he) hfree
  | true =>
      obtain ⟨_, hfills⟩ := hfills hr
      dsimp only at hcase
      rw [hr, if_pos rfl] at hcase
      have hnew : pageCount newsz ≤ shmPage := by
        rcases hcase with hzero | hnew
        · rw [hzero]
          exact Nat.zero_le _
        · exact hnew
      have hgrown := (hok hr hnew).2
      refine .of_fills hfills (fun v hv => ?_) (fun v hv e he => ?_) (fun v hv e he hzero => ?_) hfree
      · rw [below_of_lt _ (hv.2.trans_le hnew)]
        exact hhole v hv.1 (hv.2.trans_le hnew)
      · have hout : v < pageCount oldsz ∨ pageCount newsz ≤ v := by
          by_contra hin
          exact hv ⟨by omega, by omega⟩
        obtain ⟨hlt, he⟩ := below_eq_some.mp he
        rw [below_of_lt _ hlt, ← hgrown.outside v hout]
        exact he
      · obtain ⟨pa, hpa⟩ := hgrown.inside v hv.1 hv.2
        cases hpa.symm.trans he
        exact ⟨hzero, rfl⟩

theorem growproc_refills (hm : Private kernelEnd reserved g m) (hp : m.proc i = some p) (n : ℤ) :
    Yields (fun _ => True) (growproc kv g m i p n) fun r => ∀ q, r.1.proc i = some q →
      q.sz ≤ shmVa → Refills Blank m.mem r.1.mem (below p.pagetable.leaf) (below q.pagetable.leaf) := by
  have hwell := hm.wellMapped hp
  have hold := pageCount_le_shmPage hwell.sz_le
  have hfree := hm.not_free hp
  have hsame : ∀ q, m.proc i = some q → q.sz ≤ shmVa →
      Refills Blank m.mem m.mem (below p.pagetable.leaf) (below q.pagetable.leaf) := by
    intro q hq _
    cases hp.symm.trans hq
    exact .of_subset (fun _ _ he => he) hfree
  unfold growproc
  apply Yields.ite
  · intro _
    apply Yields.ite
    · intro _
      exact hsame
    · intro htop
      by_cases hlt : addSz p.sz n < p.sz
      · -- the sum has wrapped, and `uvmalloc` does nothing
        have hput : ∀ sz q, (m.put m.mem i (some { p with sz := sz })).proc i = some q →
            q.sz ≤ shmVa →
            Refills Blank m.mem m.mem (below p.pagetable.leaf) (below q.pagetable.leaf) := by
          intro sz q hq _
          rw [put_proc_self] at hq
          cases hq
          exact .of_subset (fun _ _ he => he) hfree
        rw [uvmalloc, if_pos hlt, yields_pure_bind]
        apply Yields.ite
        · intro _
          exact hput p.sz
        · intro _
          exact hput p.sz
      · have htop' : pageCount (addSz p.sz n) ≤ shmPage + 1 := by
          rw [layout.1, pageCount_le_iff]
          exact Nat.not_lt.mp htop
        have hrefills : Yields _ (uvmalloc kv g.shmPagePa m.mem p.pagetable p.sz _ freshPerm) _ :=
          uvmalloc_refills hm.sound (Nat.not_lt.mp hlt) htop' hold hwell.shape.hole hfree
        have hspec := @uvmalloc_spec Kmem _ (fun _ => True) g.shmPagePa (fun _ _ _ => True) kv
          (Books.trivial _ _ fun _ => trivial) m.mem p.pagetable p.sz (addSz p.sz n) freshPerm 0 0
          (Nat.not_lt.mp hlt) htop' (Or.inr trivial) hold hwell.shape.hole trivial
        apply (hspec.and hrefills).bind
        rintro r ⟨⟨hret, _⟩, hrefills⟩
        apply Yields.ite
        · intro hzero q hq _
          rw [put_proc_self] at hq
          cases hq
          exact hrefills (Or.inl hzero)
        · intro hne q hq hsz
          rw [put_proc_self] at hq
          cases hq
          rw [hret.resolve_left hne] at hsz
          exact hrefills (Or.inr (pageCount_le_shmPage hsz))
  · intro _
    apply Yields.ite
    · intro _
      have K : kv.Spares (fun _ => True) (NoHole p.pagetable.leaf (pageCount (addSz p.sz n))
          (pageCount p.sz)) := fun _ => Or.inl ⟨trivial, trivial⟩
      apply (@uvmdealloc_spec Kmem _ (fun _ => True) g.shmPagePa (fun _ _ _ => True) kv
        (Books.trivial _ _ fun _ => trivial) m.mem p.pagetable p.sz (addSz p.sz n) 0 0 K hold
        trivial).bind
      rintro r ⟨_, hleaf, _⟩ q hq _
      rw [put_proc_self] at hq
      cases hq
      refine .of_subset (fun v e he => ?_) hfree
      obtain ⟨hv, he⟩ := below_eq_some.mp he
      dsimp only at he
      rw [hleaf] at he
      unfold clearRange at he
      split_ifs at he
      exact (below_of_lt _ hv).trans he
    · intro _
      exact hsame

theorem sysSbrk_refills (hm : Private kernelEnd reserved g m) (hp : m.proc i = some p) (n : ℤ)
    (lazy : Bool) :
    Yields (fun _ => True) (sysSbrk kv g m i p n lazy) fun r => ∀ q, r.1.proc i = some q →
      q.sz ≤ shmVa → Refills Blank m.mem r.1.mem (below p.pagetable.leaf) (below q.pagetable.leaf) := by
  unfold sysSbrk
  apply Yields.ite
  · intro _
    exact (growproc_refills hm hp n).bind fun r hr => hr
  · intro _
    apply Yields.ite
    · intro _ q hq _
      cases hp.symm.trans hq
      exact .of_subset (fun _ _ he => he) (hm.not_free hp)
    · intro _ q hq _
      rw [put_proc_self] at hq
      cases hq
      exact .of_subset (fun _ _ he => he) (hm.not_free hp)

/-! ## The actions -/

def Action.Unthreaded : Action nproc → Prop
  | .clone _ _ _ _ _ => False
  | _ => True

instance : DecidablePred (@Action.Unthreaded nproc) := fun a => by
  cases a with
  | clone i fcn arg stack returnaddr => exact isFalse id
  | sbrk i n lazy => exact isTrue trivial
  | fault i va => exact isTrue trivial
  | fork i => exact isTrue trivial
  | shmGet i => exact isTrue trivial
  | exit i => exact isTrue trivial
  | reap i => exact isTrue trivial

/-- The size after a call of `sbrk(n)` that succeeds. -/
def Resizes (n : ℤ) (sz sz' : ℕ) : Prop :=
  0 ≤ n ∧ sz ≤ sz' ∧ sz' = addSz sz n ∨ n < 0 ∧ sz' = min sz (addSz sz n)

/-- What an action looks like to the processes: it fails, or concerns none of them, or it is a
resize, a copy, the window, or the end of a process. -/
inductive Seen (F : UserMemory nproc) : Action nproc → UserMemory nproc → Prop
  | nothing (a : Action nproc) : Seen F a F
  | sbrk (i : Fin nproc) (n : ℤ) (lazy : Bool) (sz sz' : ℕ) : F.size i = some sz →
      Resizes n sz sz' → Seen F (.sbrk i n lazy) (F.resize pgSize shmPage freshPerm 0 i sz')
  | fork (i j : Fin nproc) : F.size i ≠ none → F.size j = none →
      Seen F (.fork i) (F.fork shmPage freshPerm i j)
  | attach (i : Fin nproc) : F.size i ≠ none → Seen F (.shmGet i) (F.attach shmPage freshPerm i)
  | remove (i : Fin nproc) : F.size i ≠ none → Seen F (.reap i) (F.remove pgSize freshPerm 0 i)

theorem flat_size_of_proc (g : Globals) (hp : m.proc i = some p) :
    (flat g m).size i = some p.sz := by
  rw [flat_size, hp]
  rfl

theorem flat_size_ne_none (g : Globals) (hp : m.proc i = some p) : (flat g m).size i ≠ none := by
  rw [flat_size_of_proc g hp]
  exact Option.some_ne_none _

theorem Resized.seen (hm : Private kernelEnd reserved g m) (hp : m.proc i = some p) {n : ℤ}
    {lazy : Bool} (hres : Resized p n lazy q)
    (hinv : Inv (Kmem.Balanced kernelEnd reserved) g (m.put s i (some q)))
    (hcycles : Cycles m.mem s)
    (h : Refills Blank m.mem s (below p.pagetable.leaf) (below q.pagetable.leaf)) :
    Private kernelEnd reserved g (m.put s i (some q)) ∧
      Seen (flat g m) (.sbrk i n lazy) (flat g (m.put s i (some q))) := by
  have hpages := pageCount_le_shmPage (hm.wellMapped hp).sz_le
  have hwell : q.WellMapped g := hinv.spaces i q (put_proc_self ..)
  have hpages' := pageCount_le_shmPage hwell.sz_le
  have hm' : Private kernelEnd reserved g (m.put s i (some q)) :=
    hm.put hinv (by rw [hp]; exact h)
  refine ⟨hm', ?_⟩
  have hseen : q.pagetable.leaf shmPage = p.pagetable.leaf shmPage →
      (∀ v < pageCount q.sz, p.pagetable.leaf v ≠ none → q.pagetable.leaf v ≠ none) →
      Resizes n p.sz q.sz → Seen (flat g m) (.sbrk i n lazy) (flat g (m.put s i (some q))) := by
    intro hshm hkept hsize
    rw [flat_resize hm hp hm' hcycles h hshm fun v hv hne => ?_]
    · exact .sbrk i n lazy p.sz q.sz (flat_size_of_proc g hp) hsize
    · have hlt : v < shmPage := hv.trans_le hpages'
      change below p.pagetable.leaf v ≠ none at hne
      change below q.pagetable.leaf v ≠ none
      rw [below_of_lt _ hlt] at hne ⊢
      exact hkept v hv hne
  cases hres with
  | same pt hleaf =>
      rw [(flat_same hm hp hinv hcycles h (fun v hne => by rw [hleaf]; exact hne)
        (congrFun hleaf _) rfl).2]
      exact .nothing _
  | grown pt hn _ _ hle hgrown =>
      have hg := hgrown hwell.sz_le
      refine hseen (hg.outside _ (Or.inr hpages')) (fun v hv hne => ?_) (Or.inl ⟨hn.le, hle, rfl⟩)
      by_cases hold : v < pageCount p.sz
      · rw [hg.outside v (Or.inl hold)]
        exact hne
      · obtain ⟨pa, hpa⟩ := hg.inside v (Nat.not_lt.mp hold) hv
        rw [hpa]
        exact Option.some_ne_none _
  | shrunk pt hn hleaf =>
      refine hseen ?_ (fun v hv hne => ?_) (Or.inr ⟨hn, rfl⟩)
      · dsimp only
        rw [hleaf]
        exact if_neg (by omega)
      · dsimp only at hv ⊢
        rw [hleaf, clearRange, if_neg]
        · exact hne
        · rintro ⟨hge, hlt⟩
          have hmin : pageCount (min p.sz (addSz p.sz n)) ≤ pageCount (addSz p.sz n) :=
            pageCount_mono (min_le_right _ _)
          omega
  | untouched hn _ hle => exact hseen rfl (fun _ _ hne => hne) (Or.inl ⟨hn, hle, rfl⟩)

theorem perform_sbrk_refills (hm : Private kernelEnd reserved g m) (hp : m.proc i = some p) (n : ℤ)
    (lazy : Bool) :
    Yields (fun _ => True) (perform kv g m (.sbrk i n lazy)) fun m' => ∀ q, m'.proc i = some q →
      q.sz ≤ shmVa → Refills Blank m.mem m'.mem (below p.pagetable.leaf) (below q.pagetable.leaf) := by
  cases hz : p.zombie with
  | true =>
      rw [perform_zombie hp hz]
      intro q hq _
      cases hp.symm.trans hq
      exact hm.refills_same hp fun _ _ => rfl
  | false =>
      rw [perform_live hp hz]
      exact Yields.map (f := Prod.fst) (sysSbrk_refills hm hp n lazy)

/-- The pages of the child `q` are copies of those of `p`. -/
structure Forked (g : Globals) (s s' : Kmem) (p q : Space) : Prop where
  refills : Refills (Copied s (userLeaf (some p))) s s' (fun _ => none) (userLeaf (some q))
  shm : q.pagetable.leaf shmPage = if p.pagetable.leaf shmPage = none then none else
    some ⟨g.shmPagePa, freshPerm⟩

theorem kfork_forked (hm : Private kernelEnd reserved g m) (hp : m.proc i = some p) :
    Yields (fun _ => True) (kfork kv g m p) fun r => ∀ j q, m.proc j = none →
      r.1.proc j = some q → Forked g m.mem r.1.mem p q := by
  have hwell := hm.wellMapped hp
  have hpages := pageCount_le_shmPage hwell.sz_le
  have hold : ∀ v e, p.pagetable.leaf v = some e → v < pageCount p.sz →
      e.pa % pgSize = 0 ∧ e.pa ∉ m.mem.freelist := by
    intro v e he hv
    have he' : userLeaf (m.proc i) v = some e := by
      rw [hp]
      exact below_eq_some.mpr ⟨hv.trans_le hpages, he⟩
    exact ⟨(hm.page he').1, (hm.page he').2.1⟩
  have hspec : Yields (fun _ => True) (kfork kv g m p) _ := kfork_spec
    (R := Kmem.Balanced kernelEnd reserved) (hm.books _) (fun _ => Or.inl ⟨trivial, trivial⟩)
    hm.inv.books hwell
  apply (hspec.and (copied_fills kv hm.sound hwell hold)).mono
  rintro r ⟨hspawn, hfills⟩ j q hj hq
  cases hspawn with
  | fails s _ =>
      rw [show (m.withMem s).proc j = none from hj] at hq
      cases hq
  | creates s k q' _ _ _ hchild =>
      have hjk : j = k := by
        by_contra hne
        rw [put_proc_of_ne _ _ _ hne, hj] at hq
        cases hq
      subst hjk
      obtain ⟨q'', hq'', hfills, hshm⟩ := hfills j rfl
      cases hq.symm.trans hq''
      cases hq.symm.trans (put_proc_self ..)
      have hpage : ∀ v e, userLeaf (some q) v = some e →
          q.pagetable.leaf v = some e ∧ v ∈ userPages p := by
        intro v e he
        obtain ⟨hv, he⟩ := below_eq_some.mp he
        have hne : p.pagetable.leaf v ≠ none := fun hnone => by
          rw [hchild.hole v hv hnone] at he
          cases he
        refine ⟨he, ?_, hne⟩
        by_contra hge
        exact hne (hwell.shape.hole v (Nat.not_lt.mp hge) hv)
      refine ⟨⟨fun v e he => ?_, fun v w e x he hx hpa _ => ?_⟩, hshm⟩
      · obtain ⟨he, hv⟩ := hpage v e he
        obtain ⟨e', he', hmem, _, hcopy⟩ := hfills.leaf v hv
        cases he.symm.trans he'
        refine Or.inr ⟨rfl, hmem, fun x hx => ?_⟩
        obtain ⟨hlt, hx⟩ := below_eq_some.mp hx
        obtain ⟨e', he', hperm⟩ := hchild.leaf v hlt x hx
        cases he.symm.trans he'
        exact ⟨hcopy x hx, hperm⟩
      · obtain ⟨he, hv⟩ := hpage v e he
        obtain ⟨hx, hw⟩ := hpage w x hx
        refine hfills.apart w hw v hv ?_
        rw [he, hx]
        exact congrArg some hpa

theorem Spawned.seen (hm : Private kernelEnd reserved g m) (hp : m.proc i = some p)
    {R : Kmem → (ℕ → ℕ) → (ℕ → ℕ) → Prop} {r : Machine Kmem nproc × Option (Fin nproc)}
    (hspawn : Spawned R g m (Offspring SamePerm p) r)
    (hinv : Inv (Kmem.Balanced kernelEnd reserved) g r.1) (hcycles : Cycles m.mem r.1.mem)
    (hforked : ∀ j q, m.proc j = none → r.1.proc j = some q → Forked g m.mem r.1.mem p q) :
    Private kernelEnd reserved g r.1 ∧ Seen (flat g m) (.fork i) (flat g r.1) := by
  cases hspawn with
  | fails s _ =>
      obtain ⟨hm', hflat⟩ := flat_withMem hm (s := s) hinv.books hm.shm_reserved hcycles
      dsimp only
      rw [hflat]
      exact ⟨hm', .nothing _⟩
  | creates s j q hj _ _ hchild =>
      obtain ⟨hrefills, hshm⟩ := hforked j q hj (put_proc_self ..)
      have hm' : Private kernelEnd reserved g (m.put s j (some q)) :=
        hm.put hinv (by rw [hj]; exact hrefills)
      have hmapped : ∀ v, userLeaf (some q) v = none ↔ userLeaf (some p) v = none := by
        intro v
        by_cases hv : v < shmPage
        · change below q.pagetable.leaf v = none ↔ below p.pagetable.leaf v = none
          rw [below_of_lt _ hv, below_of_lt _ hv]
          refine ⟨fun hq => ?_, hchild.hole v hv⟩
          by_contra hne
          obtain ⟨e, he⟩ := Option.ne_none_iff_exists'.mp hne
          obtain ⟨e', he', _⟩ := hchild.leaf v hv e he
          rw [hq] at he'
          cases he'
        · rw [userLeaf_of_le _ (Nat.not_lt.mp hv), userLeaf_of_le _ (Nat.not_lt.mp hv)]
      refine ⟨hm', ?_⟩
      dsimp only
      rw [flat_fork hm hp hm' hcycles hrefills hchild.sz_eq hmapped hshm]
      refine .fork i j (flat_size_ne_none g hp) ?_
      rw [flat_size, hj]
      rfl

theorem pageFault_flat (hm : Private kernelEnd reserved g m) (hp : m.proc i = some p) (va : ℕ) :
    Yields (fun _ => False) (pageFault m i p va) fun m' =>
      Private kernelEnd reserved g m' ∧ flat g m' = flat g m :=
  (vmfault_flat hm hp va).bind fun _ hr => hr.1

theorem perform_flat (hm : Private kernelEnd reserved g m) {a : Action nproc} (ha : a.Unthreaded)
    (hperform : perform kv g m a = .ok m') (hfits : m'.Fits) :
    Private kernelEnd reserved g m' ∧ Seen (flat g m) a (flat g m') := by
  have hpermits : Yields (fun _ => True) (perform kv g m a) _ :=
    hm.inv.perform (hm.books fun _ => True) (permits_all kv) (Or.inr trivial)
  have hperf := hpermits.of_eq_ok hperform
  have hinv := hperf.inv hm.inv (Or.inr hfits)
  have hcyclesY : Yields (fun _ => True) (perform kv g m a) fun m' => Cycles m.mem m'.mem :=
    perform_cycles hm.sound a
  have hcycles := hcyclesY.of_eq_ok hperform
  cases hperf with
  | idle => exact ⟨hm, .nothing _⟩
  | @sbrk i p q n lazy _ hp hres hrep =>
      have hrefills := (perform_sbrk_refills hm hp n lazy).of_eq_ok hperform q hrep.proc_self
        (hfits i q hrep.proc_self)
      obtain ⟨s, rfl, _⟩ := hrep
      exact hres.seen hm hp hinv hcycles hrefills
  | @fault i p q va _ hp _ _ =>
      cases hz : p.zombie with
      | true =>
          rw [perform_zombie hp hz] at hperform
          cases hperform
          exact ⟨hm, .nothing _⟩
      | false =>
          rw [perform_live hp hz] at hperform
          obtain ⟨hm', hflat⟩ := (pageFault_flat hm hp va).of_eq_ok hperform
          rw [hflat]
          exact ⟨hm', .nothing _⟩
  | @fork i p r hp hspawn =>
      cases hz : p.zombie with
      | true =>
          rw [perform_zombie hp hz] at hperform
          have hsame : r.1 = m := (Except.ok.inj hperform).symm
          rw [hsame]
          exact ⟨hm, .nothing _⟩
      | false =>
          rw [perform_live hp hz] at hperform
          have hforked : Yields (fun _ => True) (Prod.fst <$> kfork kv g m p) fun m' =>
              ∀ j q, m.proc j = none → m'.proc j = some q → Forked g m.mem m'.mem p q :=
            (kfork_forked hm hp).map
          exact hspawn.seen hm hp hinv hcycles (hforked.of_eq_ok hperform)
  | clone hp hspawn => exact absurd ha id
  | @shmGet i p q ret _ hp hgot hrep =>
      obtain ⟨s, rfl, _⟩ := hrep
      cases hgot with
      | mapped _ =>
          obtain ⟨hm', hflat⟩ := flat_same hm hp hinv hcycles (hm.refills_same hp fun _ _ => rfl)
            (fun _ hne => hne) rfl rfl
          rw [hflat]
          exact ⟨hm', .nothing _⟩
      | fails pt _ hleaf =>
          obtain ⟨hm', hflat⟩ := flat_same hm hp hinv hcycles
            (hm.refills_same hp fun v _ => congrFun hleaf v) (fun v hne => by rw [hleaf]; exact hne)
            (congrFun hleaf _) rfl
          rw [hflat]
          exact ⟨hm', .nothing _⟩
      | maps pt hnone hleaf =>
          have hbelow : ∀ v < shmPage, pt.leaf v = p.pagetable.leaf v := fun v hv => by
            rw [hleaf, Function.update_of_ne (Nat.ne_of_lt hv)]
          have hm' := hm.put hinv (by rw [hp]; exact hm.refills_same hp hbelow)
          rw [flat_attach hm hm' hp hcycles hleaf rfl]
          exact ⟨hm', .attach i (flat_size_ne_none g hp)⟩
  | @exit i p _ hp hz hrep =>
      obtain ⟨s, rfl, _⟩ := hrep
      obtain ⟨hm', hflat⟩ := flat_same hm hp hinv hcycles (hm.refills_same hp fun _ _ => rfl)
        (fun _ hne => hne) rfl rfl
      rw [hflat]
      exact ⟨hm', .nothing _⟩
  | @reap i p s hp hz hR =>
      have hm' : Private kernelEnd reserved g (m.put s i none) :=
        { hm with
          inv := hinv
          unaliased := hm.unaliased.remove }
      rw [flat_remove hm hm' hcycles]
      exact ⟨hm', .remove i (flat_size_ne_none g hp)⟩

end Actions

end Memory
