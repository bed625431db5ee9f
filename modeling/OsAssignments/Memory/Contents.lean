import OsAssignments.Memory.Boot
import OsAssignments.Memory.Fresh
import OsAssignments.Memory.References

/-!
# Which pages the kernel writes

Every action takes pages from the free list and writes to them, and then gives pages back,
which writes to those. So a page that is neither free before the action nor after it keeps
its bytes, whoever maps it, and the kernel never writes to memory that a process goes on
using. `Cycles` is the relation between the states of `kalloc.c` before and after: first
`Taken`, then `Frees`.
-/

namespace Memory

open Outcome RefPool RadixTree Machine

namespace Kmem

variable {s s' s₁ s₂ : Kmem} {pa : ℕ}

/-- Calls of `kfree`, one after another. -/
def Frees : Kmem → Kmem → Prop :=
  Relation.ReflTransGen fun s s' => ∃ pa, Memory.kfree pa s = .ok s'

theorem Frees.refl (s : Kmem) : Frees s s := Relation.ReflTransGen.refl

theorem Frees.trans (h : Frees s s₁) (h' : Frees s₁ s₂) : Frees s s₂ :=
  Relation.ReflTransGen.trans h h'

theorem frees_kfree (pa : ℕ) (s : Kmem) :
    Yields (fun _ => True) (Memory.kfree pa s) fun s' => Frees s s' := by
  cases h : Memory.kfree pa s with
  | ok s' => exact Relation.ReflTransGen.single ⟨pa, h⟩
  | error e => trivial

/-- A call of `kfree` drops a reference, or puts the page on the free list and fills it. -/
theorem kfree_cases (h : Memory.kfree pa s = .ok s') :
    (s'.freelist = s.freelist ∧ s'.bytes = s.bytes) ∨
      (s'.freelist = pa :: s.freelist ∧
        ∀ x, ¬ (pa ≤ x ∧ x < pa + pgSize) → s'.bytes x = s.bytes x) := by
  change (Kmem.kfree pa s).mapError Panic.kalloc = .ok s' at h
  unfold Kmem.kfree at h
  split_ifs at h with hframe hcount
  · cases h
    exact Or.inl ⟨rfl, rfl⟩
  · cases h
    exact Or.inr ⟨rfl, fun x hx => if_neg hx⟩
  · cases h

/-- Seen from the end, the pages that have been freed are those that have been taken. -/
theorem Frees.taken (h : Frees s s') (hs' : s'.freelist.Nodup) : Taken s' s := by
  induction h with
  | refl => exact .refl s
  | @tail s₁ s' _ hstep ih =>
      obtain ⟨pa, hk⟩ := hstep
      rcases kfree_cases hk with ⟨hfree, hbytes⟩ | ⟨hfree, hbytes⟩
      · have htaken : Taken s' s₁ := ⟨hfree ▸ List.suffix_rfl, fun x _ => by rw [hbytes]⟩
        exact htaken.trans (ih (hfree ▸ hs'))
      · rw [hfree, List.nodup_cons] at hs'
        have htaken : Taken s' s₁ := by
          refine ⟨hfree ▸ List.suffix_cons pa s₁.freelist, fun x hx => ?_⟩
          exact (hbytes x (hx pa (hfree ▸ List.mem_cons_self) hs'.1)).symm
        exact htaken.trans (ih hs'.2)

def Cycles (s s' : Kmem) : Prop := ∃ s₁, Taken s s₁ ∧ Frees s₁ s'

theorem Taken.cycles (h : Taken s s') : Cycles s s' := ⟨s', h, .refl s'⟩

theorem Frees.cycles (h : Frees s s') : Cycles s s' := ⟨s, .refl s, h⟩

theorem Cycles.refl (s : Kmem) : Cycles s s := (Taken.refl s).cycles

theorem Taken.trans_cycles (h : Taken s s₁) (h' : Cycles s₁ s₂) : Cycles s s₂ := by
  obtain ⟨s', htaken, hfrees⟩ := h'
  exact ⟨s', h.trans htaken, hfrees⟩

theorem Cycles.trans_frees (h : Cycles s s₁) (h' : Frees s₁ s₂) : Cycles s s₂ := by
  obtain ⟨s', htaken, hfrees⟩ := h
  exact ⟨s', htaken, hfrees.trans h'⟩

theorem Cycles.sameBytes (h : Cycles s s') (hs : s.Sound) (hs' : s'.Sound)
    (hpa : pa % pgSize = 0) (hnot : pa ∉ s.freelist) (hnot' : pa ∉ s'.freelist) :
    SameBytes s pa s' pa := by
  obtain ⟨s₁, htaken, hfrees⟩ := h
  intro k hk
  have hbefore := htaken.sameBytes hs hpa hnot k hk
  have hafter := (hfrees.taken hs'.nodup).sameBytes hs' hpa hnot' k hk
  exact hafter.symm.trans hbefore

end Kmem

open Kmem

/-! ## Giving pages back -/

section Freeing

variable {kv : Kernel} {g : Globals} {shm : ℕ}

theorem uvmunmapLoop_frees (doFree : Bool) (n : ℕ) (s : Kmem) (pt : PageTable) (a : ℕ) :
    Yields (fun _ => True) (uvmunmapLoop shm doFree n s pt a) fun r => Frees s r.1 := by
  induction n generalizing s pt a with
  | zero => exact .refl s
  | succ n ih =>
      rw [uvmunmapLoop]
      refine (yields_true _).bind fun e _ => ?_
      rcases e with _ | _ | pte
      · trivial
      · trivial
      · apply Yields.ite
        · intro _
          trivial
        · intro _
          apply Yields.ite
          · intro _
            refine (frees_kfree pte.pa s).bind fun s₁ hs₁ => ?_
            exact (ih s₁ _ _).mono fun r hr => hs₁.trans hr
          · intro _
            exact ih s _ _

theorem uvmunmap_frees (s : Kmem) (pt : PageTable) (va npages : ℕ) (doFree : Bool) :
    Yields (fun _ => True) (uvmunmap shm s pt va npages doFree) fun r => Frees s r.1 := by
  unfold uvmunmap
  apply Yields.ite
  · intro _
    trivial
  · intro _
    exact uvmunmapLoop_frees doFree npages s pt va

theorem uvmunmapSparseLoop_frees (n : ℕ) (s : Kmem) (pt : PageTable) (i : ℕ) :
    Yields (fun _ => True) (uvmunmapSparseLoop shm n s pt i) fun r => Frees s r.1 := by
  induction n generalizing s pt i with
  | zero => exact .refl s
  | succ n ih =>
      rw [uvmunmapSparseLoop]
      refine (yields_true _).bind fun e _ => ?_
      rcases e with _ | _ | pte
      · exact ih s pt _
      · exact ih s pt _
      · apply Yields.ite
        · intro _
          refine (uvmunmap_frees s pt i 1 true).bind fun r hr => ?_
          exact (ih r.1 r.2 _).mono fun r' hr' => hr.trans hr'
        · intro _
          exact ih s pt _

theorem uvmunmapSparse_frees (s : Kmem) (pt : PageTable) (start stop : ℕ) :
    Yields (fun _ => True) (uvmunmapSparse shm s pt start stop) fun r => Frees s r.1 := by
  unfold uvmunmapSparse
  apply Yields.ite
  · intro _
    trivial
  · intro _
    exact uvmunmapSparseLoop_frees _ s pt start

theorem unmapUser_frees (s : Kmem) (pt : PageTable) (start stop : ℕ) :
    Yields (fun _ => True) (unmapUser kv shm s pt start stop) fun r => Frees s r.1 := by
  cases kv with
  | assignment4 => exact uvmunmap_frees s pt start _ true
  | assignment7 => exact uvmunmapSparse_frees s pt start stop

theorem freeEmptyTables_frees (k : ℕ) (s : Kmem) (t : Table k) :
    Yields (fun _ => True) (freeEmptyTables k s t) fun r => Frees s r.1 := by
  induction k generalizing s with
  | zero => exact .refl s
  | succ k ih =>
      rw [freeEmptyTables]
      apply Yields.foldlM (I := fun (_ : List (Fin 512)) (acc : Kmem × Table (k + 1) × Bool) =>
        Frees s acc.1)
      · intro i _ acc hacc
        cases entryAt acc.2.1 i with
        | none => exact hacc
        | some e =>
            refine (ih acc.1 e.2).bind fun r hr => ?_
            apply Yields.ite
            · intro _
              refine (frees_kfree e.1 r.1).bind fun s₁ hs₁ => ?_
              exact (hacc.trans hr).trans hs₁
            · intro _
              exact hacc.trans hr
      · exact .refl s

theorem freewalk_frees (k : ℕ) (s : Kmem) (page : ℕ) (t : Table k) :
    Yields (fun _ => True) (freewalk k s page t) fun s' => Frees s s' := by
  induction k generalizing s page with
  | zero =>
      rw [freewalk]
      apply Yields.ite
      · intro _
        exact frees_kfree page s
      · intro _
        trivial
  | succ k ih =>
      rw [freewalk]
      refine Yields.bind (Q := fun r : Kmem × Table (k + 1) => Frees s r.1) ?_ fun r hr => ?_
      · apply Yields.foldlM (I := fun (_ : List (Fin 512)) (acc : Kmem × Table (k + 1)) =>
          Frees s acc.1)
        · intro i _ acc hacc
          cases entryAt acc.2 i with
          | none => exact hacc
          | some e =>
              refine (ih acc.1 e.1 e.2).bind fun s₁ hs₁ => ?_
              exact hacc.trans hs₁
        · exact .refl s
      · exact (frees_kfree page r.1).mono fun s' hs' => hr.trans hs'

theorem uvmdealloc_frees (s : Kmem) (pt : PageTable) (oldsz newsz : ℕ) :
    Yields (fun _ => True) (uvmdealloc kv shm s pt oldsz newsz) fun r => Frees s r.1 := by
  unfold uvmdealloc
  apply Yields.ite
  · intro _
    exact .refl s
  · intro _
    apply Yields.ite
    · intro _
      refine (unmapUser_frees s pt _ _).bind fun r hr => ?_
      cases kv with
      | assignment4 => exact hr
      | assignment7 =>
          refine (freeEmptyTables_frees 2 r.1 r.2.table).bind fun t ht => ?_
          exact hr.trans ht
    · intro _
      exact .refl s

theorem uvmfree_frees (s : Kmem) (pt : PageTable) (sz : ℕ) :
    Yields (fun _ => True) (uvmfree kv shm s pt sz) fun s' => Frees s s' := by
  unfold uvmfree
  refine Yields.bind (Q := fun r : Kmem × PageTable => Frees s r.1) ?_ fun r hr => ?_
  · apply Yields.ite
    · intro _
      exact unmapUser_frees s pt _ _
    · intro _
      exact .refl s
  · exact (freewalk_frees 2 r.1 r.2.root r.2.table).mono fun s' hs' => hr.trans hs'

theorem unmapFixed_frees (s : Kmem) (pt : PageTable) :
    Yields (fun _ => True) (unmapFixed g s pt) fun r => Frees s r.1 := by
  unfold unmapFixed
  refine (uvmunmap_frees s pt _ _ _).bind fun r hr => ?_
  refine (uvmunmap_frees r.1 r.2 _ _ _).bind fun r' hr' => ?_
  unfold unmapShm
  refine (yields_true _).bind fun e _ => ?_
  have hrest := hr.trans hr'
  rcases e with _ | _ | pte
  · exact hrest
  · exact hrest
  · exact (uvmunmap_frees r'.1 r'.2 _ _ _).mono fun r'' hr'' => hrest.trans hr''

theorem freeproc_frees (s : Kmem) (trapframe : Option ℕ) (pagetable : Option PageTable) (sz : ℕ)
    (isThread : Bool) :
    Yields (fun _ => True) (freeproc kv g s trapframe pagetable sz isThread)
      fun s' => Frees s s' := by
  unfold freeproc
  refine Yields.bind (Q := fun s' => Frees s s') ?_ fun s₁ hs₁ => ?_
  · cases trapframe with
    | none => exact .refl s
    | some pa => exact frees_kfree pa s
  · cases pagetable with
    | none => exact hs₁
    | some pt =>
        apply Yields.ite
        · intro _
          unfold threadFreepagetable
          refine (unmapFixed_frees s₁ pt).bind fun r hr => ?_
          refine (uvmunmapSparse_frees r.1 r.2 _ _).bind fun r' hr' => ?_
          refine (freewalk_frees 2 r'.1 r'.2.root r'.2.table).mono fun s' hs' => ?_
          exact ((hs₁.trans hr).trans hr').trans hs'
        · intro _
          unfold procFreepagetable
          refine (unmapFixed_frees s₁ pt).bind fun r hr => ?_
          exact (uvmfree_frees r.1 r.2 sz).mono fun s' hs' => (hs₁.trans hr).trans hs'

end Freeing

/-! ## Taking pages, and giving them back on failure -/

section Taking

variable {kv : Kernel} {g : Globals} {shm : ℕ} {s₀ s : Kmem}

/-- What a function that builds something does to the pages: if it succeeds it takes pages,
and if it fails it gives some back. -/
def Builds (s s' : Kmem) (ok : Bool) : Prop := Cycles s s' ∧ (ok = true → Taken s s')

theorem Kmem.Taken.builds {s' : Kmem} (h : Taken s s') (ok : Bool) : Builds s s' ok :=
  ⟨h.cycles, fun _ => h⟩

theorem Kmem.Cycles.fails {s' : Kmem} (h : Cycles s s') : Builds s s' false :=
  ⟨h, fun hok => absurd hok Bool.false_ne_true⟩

theorem Kmem.Taken.kalloc (h : Taken s₀ s) (hs : s₀.Sound) {s' : Kmem} {pa : ℕ}
    (hk : Memory.kalloc s = (some pa, s')) : Taken s₀ s' ∧
      (∀ c, Taken s₀ (Memory.memset pa c s')) ∧ ∀ src, Taken s₀ (Memory.memmove pa src s') := by
  obtain ⟨hmem, hnot, htaken⟩ := (h.sound hs).kalloc hk
  have hfirst := h.trans htaken
  exact ⟨hfirst, fun c => hfirst.memset (h.mem hmem) hnot c,
    fun src => hfirst.memmove (h.mem hmem) hnot src⟩

theorem mappages_after (h : Taken s₀ s) (hs : s₀.Sound) (pt : PageTable) (va size pa : ℕ)
    (perm : Perm) :
    Yields (fun _ => True) (mappages s pt va size pa perm) fun r => Taken s₀ r.1 :=
  (mappages_taken (h.sound hs) pt va size pa perm).mono fun _ hr => h.trans hr

theorem uvmallocLoop_builds (perm : Perm) (oldsz n : ℕ) (s : Kmem) (pt : PageTable) (a : ℕ)
    (h : Taken s₀ s) (hs : s₀.Sound) :
    Yields (fun _ => True) (uvmallocLoop kv shm perm oldsz n s pt a)
      fun r => Builds s₀ r.1 r.2.2 := by
  induction n generalizing s pt a with
  | zero => exact h.builds true
  | succ n ih =>
      rw [uvmallocLoop]
      cases hk : kalloc s with
      | mk r s' =>
          cases r with
          | none =>
              have h' := h.trans (.of_kalloc_none hk)
              refine (uvmdealloc_frees s' pt a oldsz).bind fun r hr => ?_
              exact (h'.cycles.trans_frees hr).fails
          | some mem =>
              obtain ⟨_, hset, _⟩ := h.kalloc hs hk
              refine (mappages_after (hset 0) hs pt a pgSize mem perm).bind fun r hr => ?_
              apply Yields.ite
              · intro _
                exact ih r.1 r.2.1 _ hr
              · intro _
                refine (frees_kfree mem r.1).bind fun s₁ hs₁ => ?_
                refine (uvmdealloc_frees s₁ r.2.1 a oldsz).bind fun r' hr' => ?_
                exact ((hr.cycles.trans_frees hs₁).trans_frees hr').fails

theorem uvmalloc_cycles (hs : s.Sound) (pt : PageTable) (oldsz newsz : ℕ) (perm : Perm) :
    Yields (fun _ => True) (uvmalloc kv shm s pt oldsz newsz perm) fun r => Cycles s r.1 := by
  unfold uvmalloc
  apply Yields.ite
  · intro _
    exact .refl s
  · intro _
    refine (uvmallocLoop_builds perm _ _ s pt _ (.refl s) hs).bind fun r hr => ?_
    exact hr.1

theorem uvmcopyLoop_builds (old : PageTable) (n : ℕ) (s : Kmem) (new : PageTable) (i : ℕ)
    (h : Taken s₀ s) (hs : s₀.Sound) :
    Yields (fun _ => True) (uvmcopyLoop kv shm old n s new i) fun r => Builds s₀ r.1 r.2.2 := by
  induction n generalizing s new i with
  | zero => exact h.builds true
  | succ n ih =>
      rw [uvmcopyLoop]
      refine (yields_true _).bind fun e _ => ?_
      rcases e with _ | _ | pte
      · exact ih s new _ h
      · exact ih s new _ h
      · cases hk : kalloc s with
        | mk r s' =>
            cases r with
            | none =>
                have h' := h.trans (.of_kalloc_none hk)
                refine (unmapUser_frees s' new 0 i).bind fun r hr => ?_
                exact (h'.cycles.trans_frees hr).fails
            | some mem =>
                obtain ⟨_, _, hmove⟩ := h.kalloc hs hk
                refine (mappages_after (hmove pte.pa) hs new i pgSize mem pte.perm).bind
                  fun r hr => ?_
                apply Yields.ite
                · intro _
                  exact ih r.1 r.2.1 _ hr
                · intro _
                  refine (frees_kfree mem r.1).bind fun s₁ hs₁ => ?_
                  refine (unmapUser_frees s₁ r.2.1 0 i).bind fun r' hr' => ?_
                  exact ((hr.cycles.trans_frees hs₁).trans_frees hr').fails

theorem kaddref_taken (pa : ℕ) (s : Kmem) :
    Yields (fun _ => True) (kaddref pa s) fun s' => Taken s s' := by
  change Yields (fun _ => True) ((Kmem.kaddref pa s).mapError Panic.kalloc) _
  unfold Kmem.kaddref
  split_ifs
  · trivial
  · exact ⟨List.suffix_rfl, fun _ _ => rfl⟩
  · trivial

theorem uvmshareLoop_builds (old : PageTable) (n : ℕ) (s : Kmem) (new : PageTable) (i : ℕ)
    (h : Taken s₀ s) (hs : s₀.Sound) :
    Yields (fun _ => True) (uvmshareLoop shm old n s new i) fun r => Builds s₀ r.1 r.2.2 := by
  induction n generalizing s new i with
  | zero => exact h.builds true
  | succ n ih =>
      rw [uvmshareLoop]
      refine (yields_true _).bind fun e _ => ?_
      rcases e with _ | _ | pte
      · exact ih s new _ h
      · exact ih s new _ h
      · apply Yields.ite
        · intro _
          refine (uvmunmapSparse_frees s new 0 i).bind fun r hr => ?_
          exact (h.cycles.trans_frees hr).fails
        · intro _
          refine (mappages_after h hs new i pgSize pte.pa pte.perm).bind fun r hr => ?_
          apply Yields.ite
          · intro _
            refine (kaddref_taken pte.pa r.1).bind fun s₁ hs₁ => ?_
            exact ih s₁ r.2.1 _ (hr.trans hs₁)
          · intro _
            refine (uvmunmapSparse_frees r.1 r.2.1 0 i).bind fun r' hr' => ?_
            exact (hr.cycles.trans_frees hr').fails

theorem procPagetable_cycles (hs : s.Sound) (tf : ℕ) :
    Yields (fun _ => True) (procPagetable kv g s tf) fun r => Cycles s r.1 := by
  unfold procPagetable uvmcreate
  cases hk : kalloc s with
  | mk r s' =>
      cases r with
      | none => exact (Taken.of_kalloc_none hk).cycles
      | some page =>
          obtain ⟨_, hset, _⟩ := (Taken.refl s).kalloc hs hk
          refine (mappages_after (hset 0) hs _ _ _ _ _).bind fun r hr => ?_
          apply Yields.ite
          · intro _
            refine (uvmfree_frees r.1 r.2.1 0).bind fun s₁ hs₁ => ?_
            exact hr.cycles.trans_frees hs₁
          · intro _
            refine (mappages_after hr hs r.2.1 _ _ _ _).bind fun r' hr' => ?_
            apply Yields.ite
            · intro _
              refine (uvmunmap_frees r'.1 r'.2.1 _ _ _).bind fun u hu => ?_
              refine (uvmfree_frees u.1 u.2 0).bind fun s₁ hs₁ => ?_
              exact (hr'.cycles.trans_frees hu).trans_frees hs₁
            · intro _
              exact hr'.cycles

theorem allocproc_cycles (hs : s.Sound) :
    Yields (fun _ => True) (allocproc kv g s) fun r => Cycles s r.1 := by
  unfold allocproc
  cases hk : kalloc s with
  | mk r s' =>
      cases r with
      | none =>
          refine (freeproc_frees s' none none 0 false).bind fun s₁ hs₁ => ?_
          exact (Taken.of_kalloc_none hk).cycles.trans_frees hs₁
      | some tf =>
          obtain ⟨htaken, _, _⟩ := (Taken.refl s).kalloc hs hk
          refine (procPagetable_cycles (htaken.sound hs) tf).bind fun r hr => ?_
          have hr' := htaken.trans_cycles hr
          cases r.2 with
          | none =>
              refine (freeproc_frees r.1 (some tf) none 0 false).bind fun s₁ hs₁ => ?_
              exact hr'.trans_frees hs₁
          | some pt => exact hr'

theorem vmfault_cycles (hs : s.Sound) (pt : PageTable) (psz va : ℕ) :
    Yields (fun _ => True) (vmfault s pt psz va) fun r => Cycles s r.1 := by
  unfold vmfault
  apply Yields.ite
  · intro _
    exact .refl s
  · intro _
    refine (yields_true _).bind fun mapped _ => ?_
    apply Yields.ite
    · intro _
      exact .refl s
    · intro _
      cases hk : kalloc s with
      | mk r s' =>
          cases r with
          | none => exact (Taken.of_kalloc_none hk).cycles
          | some mem =>
              obtain ⟨_, hset, _⟩ := (Taken.refl s).kalloc hs hk
              refine (mappages_after (hset 0) hs pt _ _ _ _).bind fun r hr => ?_
              apply Yields.ite
              · intro _
                exact hr.cycles
              · intro _
                exact (frees_kfree mem r.1).bind fun s₁ hs₁ => hr.cycles.trans_frees hs₁

end Taking

/-! ## The actions -/

section Actions

variable {kv : Kernel} {g : Globals} {nproc : ℕ} {m m' : Machine Kmem nproc} {i : Fin nproc}
  {p : Space}

theorem growproc_cycles (hs : m.mem.Sound) (n : ℤ) :
    Yields (fun _ => True) (growproc kv g m i p n) fun r => Cycles m.mem r.1.mem := by
  unfold growproc
  apply Yields.ite
  · intro _
    apply Yields.ite
    · intro _
      exact .refl _
    · intro _
      refine (uvmalloc_cycles hs p.pagetable p.sz _ _).bind fun r hr => ?_
      apply Yields.ite
      · intro _
        exact hr
      · intro _
        exact hr
  · intro _
    apply Yields.ite
    · intro _
      exact (uvmdealloc_frees m.mem p.pagetable p.sz _).bind fun r hr => hr.cycles
    · intro _
      exact .refl _

theorem sysSbrk_cycles (hs : m.mem.Sound) (n : ℤ) (lazy : Bool) :
    Yields (fun _ => True) (sysSbrk kv g m i p n lazy) fun r => Cycles m.mem r.1.mem := by
  unfold sysSbrk
  apply Yields.ite
  · intro _
    exact (growproc_cycles hs n).bind fun r hr => hr
  · intro _
    apply Yields.ite
    · intro _
      exact .refl _
    · intro _
      exact .refl _

theorem forkShm_after {s₀ s : Kmem} (h : Taken s₀ s) (hs : s₀.Sound) (parent child : PageTable) :
    Yields (fun _ => True) (forkShm g s parent child) fun r => Taken s₀ r.1 := by
  unfold forkShm
  refine (yields_true _).bind fun e _ => ?_
  rcases e with _ | _ | pte
  · exact h
  · exact h
  · exact (mappages_after h hs child _ _ _ _).bind fun r hr => hr

theorem cloneShm_after {s₀ s : Kmem} (h : Taken s₀ s) (hs : s₀.Sound) (parent child : PageTable) :
    Yields (fun _ => True) (cloneShm s parent child) fun r => Taken s₀ r.1 := by
  unfold cloneShm
  refine (yields_true _).bind fun e _ => ?_
  rcases e with _ | _ | pte
  · exact h
  · exact h
  · exact mappages_after h hs child _ _ _ _

theorem kfork_cycles (hs : m.mem.Sound) :
    Yields (fun _ => True) (kfork kv g m p) fun r => Cycles m.mem r.1.mem := by
  unfold kfork
  cases findUnused m with
  | none => exact .refl _
  | some j =>
      refine ((allocproc_cycles hs).and (allocproc_taken kv g hs)).bind ?_
      rintro r ⟨hr, htaken⟩
      cases hnp : r.2 with
      | none => exact hr
      | some np =>
          obtain ⟨htaken, _⟩ := htaken np hnp
          refine (uvmcopyLoop_builds p.pagetable _ r.1 np.2 0 htaken hs).bind fun c hc => ?_
          cases hok : c.2.2 with
          | false =>
              rw [if_pos rfl]
              refine (freeproc_frees c.1 _ _ 0 false).bind fun s hfrees => ?_
              exact hc.1.trans_frees hfrees
          | true =>
              rw [if_neg (by decide)]
              refine (forkShm_after (hc.2 hok) hs p.pagetable c.2.1).bind fun f hf => ?_
              exact hf.cycles

theorem kclone_cycles (hs : m.mem.Sound) (fcn arg stack returnaddr : ℕ) :
    Yields (fun _ => True) (kclone kv g m p fcn arg stack returnaddr)
      fun r => Cycles m.mem r.1.mem := by
  unfold kclone
  refine (yields_true _).bind fun args _ => ?_
  apply Yields.ite
  · intro _
    exact .refl _
  · intro _
    cases findUnused m with
    | none => exact .refl _
    | some j =>
        refine ((allocproc_cycles hs).and (allocproc_taken kv g hs)).bind ?_
        rintro r ⟨hr, htaken⟩
        cases hnp : r.2 with
        | none => exact hr
        | some np =>
            obtain ⟨htaken, _⟩ := htaken np hnp
            refine (uvmshareLoop_builds p.pagetable _ r.1 np.2 0 htaken hs).bind fun c hc => ?_
            cases hok : c.2.2 with
            | false =>
                rw [if_pos rfl]
                refine (freeproc_frees c.1 _ _ p.sz true).bind fun s hfrees => ?_
                exact hc.1.trans_frees hfrees
            | true =>
                rw [if_neg (by decide)]
                refine (cloneShm_after (hc.2 hok) hs p.pagetable c.2.1).bind fun f hf => ?_
                apply Yields.ite
                · intro _
                  refine (freeproc_frees f.1 _ _ p.sz true).bind fun s hfrees => ?_
                  exact hf.cycles.trans_frees hfrees
                · intro _
                  exact hf.cycles

theorem sysShmGet_cycles (hs : m.mem.Sound) :
    Yields (fun _ => True) (sysShmGet g m i p) fun r => Cycles m.mem r.1.mem := by
  unfold sysShmGet
  refine (yields_true _).bind fun e _ => ?_
  have hmap : Yields (fun _ => True) (mappages m.mem p.pagetable shmVa pgSize g.shmPagePa
      (userPerm true false)) fun r => Taken m.mem r.1 := mappages_taken hs _ _ _ _ _
  rcases e with _ | _ | pte
  · exact hmap.bind fun r hr => hr.cycles
  · exact hmap.bind fun r hr => hr.cycles
  · exact .refl _

theorem perform_cycles (hs : m.mem.Sound) (a : Action nproc) :
    Yields (fun _ => True) (perform kv g m a) fun m' => Cycles m.mem m'.mem := by
  cases hp : m.proc a.slot with
  | none =>
      rw [perform_unused hp]
      exact .refl _
  | some p =>
      cases hz : p.zombie with
      | true =>
          rw [perform_zombie hp hz]
          cases a with
          | reap i =>
              refine (freeproc_frees m.mem _ _ p.sz p.isThread).bind fun s hs' => ?_
              exact hs'.cycles
          | sbrk i n lazy => exact .refl _
          | fault i va => exact .refl _
          | fork i => exact .refl _
          | clone i fcn arg stack returnaddr => exact .refl _
          | shmGet i => exact .refl _
          | exit i => exact .refl _
      | false =>
          rw [perform_live hp hz]
          cases a with
          | sbrk i n lazy => exact Yields.map (f := Prod.fst) (sysSbrk_cycles hs n lazy)
          | fault i va =>
              exact (vmfault_cycles hs p.pagetable p.sz va).bind fun r hr => hr
          | fork i => exact Yields.map (f := Prod.fst) (kfork_cycles hs)
          | clone i fcn arg stack returnaddr =>
              cases kv with
              | assignment4 => exact .refl _
              | assignment7 => exact Yields.map (f := Prod.fst) (kclone_cycles hs fcn arg stack returnaddr)
          | shmGet i => exact Yields.map (f := Prod.fst) (sysShmGet_cycles hs)
          | exit i =>
              apply Yields.ite
              · intro _
                trivial
              · intro _
                exact .refl _
          | reap i => exact .refl _

end Actions

/-! ## Pages in use -/

section InUse

variable {kv : Kernel} {g : Globals} {nproc : ℕ} {m m' : Machine Kmem nproc}
  {kernelEnd : ℕ} {kernelPages : Finset ℕ} {pa : ℕ}

/-- Some process maps the page as user memory, or the kernel has kept it since boot. -/
def InUse (kernelPages : Finset ℕ) (m : Machine Kmem nproc) (pa : ℕ) : Prop :=
  0 < mapped m pa ∨ pa ∈ kernelPages

theorem InUse.not_free (h : InUse kernelPages m pa)
    (hm : Inv (Kmem.Balanced kernelEnd (reservedCount kernelPages)) g m) :
    pa % pgSize = 0 ∧ pa ∉ m.mem.freelist := by
  have hpos : 0 < m.user pa + (m.owned + reservedCount kernelPages) pa := by
    rw [Pi.add_apply]
    rcases h with h | h
    · rw [mapped_eq_user hm.spaces] at h
      omega
    · have := reservedCount_pos h
      omega
  refine ⟨(hm.books.2.valid_of_held pa hpos).1, fun hfree => ?_⟩
  have := ((hm.books.2.mem_free pa).mp hfree).2
  omega

theorem perform_sameBytes (hm : Inv (Kmem.Balanced kernelEnd (reservedCount kernelPages)) g m)
    (hm' : Inv (Kmem.Balanced kernelEnd (reservedCount kernelPages)) g m') {a : Action nproc}
    (hperform : perform kv g m a = .ok m') (hpa : InUse kernelPages m pa)
    (hpa' : InUse kernelPages m' pa) : SameBytes m.mem pa m'.mem pa := by
  obtain ⟨hal, hnot⟩ := hpa.not_free hm
  have hcycles : Yields (fun _ => True) (perform kv g m a) fun m' => Cycles m.mem m'.mem :=
    perform_cycles hm.books.sound a
  exact (hcycles.of_eq_ok hperform).sameBytes hm.books.sound hm'.books.sound hal hnot
    (hpa'.not_free hm').2

/-- The runs of a kernel in which every size stays at `SHM_VA` or below, and in which the
page `pa` is in use after every action. -/
abbrev UseRun (kv : Kernel) (g : Globals) (kernelPages : Finset ℕ) (pa : ℕ)
    (m m' : Machine Kmem nproc) : Prop :=
  Relation.ReflTransGen (Step kv g fun _ _ m' => m'.Fits ∧ InUse kernelPages m' pa) m m'

theorem Boot.inv_of_step (hboot : Boot g kernelPages m)
    {ok : Machine Kmem nproc → Action nproc → Machine Kmem nproc → Prop}
    (hok : ∀ m a m', ok m a m' → m'.Fits) {m₁ m₂ : Machine Kmem nproc}
    (hm : Inv (BootBooks kernelPages m) g m₁)
    (hrun : Relation.ReflTransGen (Step kv g ok) m₁ m₂) :
    Inv (BootBooks kernelPages m) g m₂ :=
  inv_of_run hboot.books (permits_all kv) (fun m a m' h => Or.inr ⟨trivial, hok m a m' h⟩) hm hrun

/-- In both kernels and in every state a run from boot reaches: over any further run, in which
processes and threads grow, shrink, fault, fork, clone, fail to do so, exit and are reaped, with
no size above `SHM_VA`, a page that stays in use (mapped by someone, no matter by whom, or kept by the kernel like the
shared page) keeps every byte. The kernel writes to no page that is in use. -/
theorem page_in_use_keeps_bytes (m₀ m m' : Machine Kmem nproc) (hboot : Boot g kernelPages m₀)
    (hreach : Relation.ReflTransGen (Step kv g fun _ _ m' => m'.Fits) m₀ m)
    (hpa : InUse kernelPages m pa) (hrun : UseRun kv g kernelPages pa m m') :
    SameBytes m.mem pa m'.mem pa := by
  have hm : Inv (BootBooks kernelPages m₀) g m :=
    hboot.inv_of_step (fun _ _ _ hfits => hfits) hboot.inv hreach
  induction hrun with
  | refl => exact fun _ _ => rfl
  | @tail m₁ m₂ hrun hstep ih =>
      have hm₁ : Inv (BootBooks kernelPages m₀) g m₁ :=
        hboot.inv_of_step (fun _ _ _ hok => hok.1) hm hrun
      have hm₂ : Inv (BootBooks kernelPages m₀) g m₂ :=
        hboot.inv_of_step (fun _ _ _ hok => hok.1) hm₁ (.single hstep)
      have huse₁ : InUse kernelPages m₁ pa := by
        cases hrun with
        | refl => exact hpa
        | tail _ hlast =>
            obtain ⟨_, _, _, huse⟩ := hlast
            exact huse
      obtain ⟨a, hperform, _, huse₂⟩ := hstep
      exact ih.trans (perform_sameBytes hm₁ hm₂ hperform huse₁ huse₂)

def FitsAndMaps (pa : ℕ) (m : Machine Kmem 2) : Prop := m.Fits ∧ 0 < mapped m pa

instance (pa : ℕ) (m : Machine Kmem 2) : Decidable (FitsAndMaps pa m) :=
  inferInstanceAs (Decidable (_ ∧ _))

set_option synthInstance.maxSize 512 in
/-- The first process has a child that exits and is reaped; its own page stays mapped. -/
theorem bootImage_reaps : Yields (fun _ => False)
    (bootImage (physTop - 20 * pgSize) kernBase []) fun r => ∃ x ∈ r, ∃ p ∈ x.2.proc 0,
      ∃ e ∈ p.pagetable.leaf 0, 0 < mapped x.2 e.pa ∧
        Yields (fun _ => False) (perform .assignment7 x.1 x.2 (.fork 0)) fun m₁ =>
          FitsAndMaps e.pa m₁ ∧
          Yields (fun _ => False) (perform .assignment7 x.1 m₁ (.exit 1)) fun m₂ =>
            FitsAndMaps e.pa m₂ ∧
            Yields (fun _ => False) (perform .assignment7 x.1 m₂ (.reap 1)) fun m₃ =>
              FitsAndMaps e.pa m₃ ∧ (m₃.proc 1).isNone := by
  decide +kernel

theorem page_in_use_keeps_bytes_reap : ∃ (g : Globals) (m₀ m : Machine Kmem 2) (p : Space)
    (e : Pte), Boot g {g.shmPagePa} m₀ ∧ m₀.proc 0 = some p ∧ p.pagetable.leaf 0 = some e ∧
      m.proc 1 = none ∧ SameBytes m₀.mem e.pa m.mem e.pa := by
  obtain ⟨x, hb, p, hp, e, he, hmap, h⟩ := exists_boot bootImage_reaps
  obtain ⟨m₁, hfork, ⟨hfits₁, hmap₁⟩, h⟩ := h.exists_eq_ok
  obtain ⟨m₂, hexit, ⟨hfits₂, hmap₂⟩, h⟩ := h.exists_eq_ok
  obtain ⟨m₃, hreap, ⟨hfits₃, hmap₃⟩, hnone⟩ := h.exists_eq_ok
  have hrun : UseRun .assignment7 x.1 {x.1.shmPagePa} e.pa x.2 m₃ :=
    .tail (.tail (.single ⟨_, hfork, hfits₁, Or.inl hmap₁⟩) ⟨_, hexit, hfits₂, Or.inl hmap₂⟩)
      ⟨_, hreap, hfits₃, Or.inl hmap₃⟩
  exact ⟨x.1, x.2, m₃, p, e, hb, hp, he, Option.isNone_iff_eq_none.mp hnone,
    page_in_use_keeps_bytes x.2 x.2 m₃ hb .refl (Or.inl hmap) hrun⟩

end InUse

end Memory
