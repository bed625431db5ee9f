import OsAssignments.Memory.Boot

/-!
# Holes in the Assignment 4 kernel

The Assignment 4 kernel takes user pages down with `uvmunmap`, whose comment says that
the mappages need not exist, and which panics where one does not. `sbrk` grows an
address space lazily, so a process has holes below its size until it touches them.
A shrink that meets one, the end of a process that has one, and a fork that fails
above one all stop the kernel. Without holes in the range none of the panics of
`uvmunmap` and `freewalk` is reached, whatever the allocator does: the kernel's
`kalloc.c` is a parameter here.
-/

namespace Memory

open Outcome RefPool RadixTree Machine

section Runs

variable {σ : Type} [PageAllocator σ] {nproc : ℕ} {g : Globals} {m₀ m : Machine σ nproc}

def TeardownPanic (e : Panic) : Prop :=
  e = .uvmunmapWalk ∨ e = .uvmunmapNotMapped ∨ e = .uvmunmapNotALeaf ∨ e = .freewalkLeaf

instance (e : Panic) : Decidable (TeardownPanic e) :=
  inferInstanceAs (Decidable (_ ∨ _ ∨ _ ∨ _))

/-- Runs of the Assignment 4 kernel in which no size is taken past `SHM_VA`. -/
abbrev SparseRun (g : Globals) (m m' : Machine σ nproc) : Prop :=
  Relation.ReflTransGen (Step .assignment4 g fun _ _ m' => m'.Fits) m m'

theorem inv_of_sparseRun (hm : ∀ i p, m₀.proc i = some p → p.WellMapped g)
    (hrun : SparseRun g m₀ m) : Inv (fun _ _ _ => True) g m :=
  inv_of_run (Books.trivial _ _ fun _ => trivial) (permits_all .assignment4)
    (fun _ _ _ hfits => Or.inr ⟨trivial, hfits⟩) ⟨trivial, hm⟩ hrun

theorem books_notTeardown (shm : ℕ) :
    Books (σ := σ) (fun e => ¬ TeardownPanic e) shm fun _ _ _ => True := by
  apply Books.trivial
  intro p
  simp [TeardownPanic]

def Survives {α : Type} (r : Except Panic α) : Prop :=
  ∀ e, TeardownPanic e → r ≠ .error e

theorem survives_of_yields {α : Type} {r : Except Panic α} {Q : α → Prop}
    (h : Yields (fun e => ¬ TeardownPanic e) r Q) : Survives r :=
  fun _ he hr => h.of_eq_error hr he

/-- In every state of a run, an action that unmaps no hole reaches none of the panics
of `uvmunmap` and `freewalk`. -/
theorem survives_of_whole (m₀ m : Machine σ nproc)
    (hstart : ∀ i p, m₀.proc i = some p → p.WellMapped g) (hrun : SparseRun g m₀ m)
    (a : Action nproc) (hwhole : a.Whole .assignment4 g m) :
    Survives (perform .assignment4 g m a) := by
  have hinv := inv_of_sparseRun hstart hrun
  apply survives_of_yields
  apply perform_spec_of_spares (books_notTeardown _) _ _ trivial a (Kernel.spares_of hwhole)
    (hinv.spaces a.slot)
  · right
    simp [TeardownPanic]
  · simp [TeardownPanic]
  · simp [TeardownPanic]

end Runs

/-! ## What returns has met no hole -/

section Needs

variable {σ : Type} [PageAllocator σ] {nproc : ℕ} {shm : ℕ} {g : Globals} {m : Machine σ nproc}
  {p : Space}

theorem uvmunmapLoop_needs (doFree : Bool) (n : ℕ) (s : σ) (pt : PageTable) (v : ℕ)
    (hv : v + n ≤ maxPage) :
    Needs (uvmunmapLoop shm doFree n s pt (v * pgSize)) (NoHole pt.leaf v (v + n)) := by
  induction n generalizing s pt v with
  | zero =>
      apply needs_of
      intro i hi hi'
      omega
  | succ n ih =>
      have hmax : v < maxPage := by omega
      cases he : pt.leaf v with
      | none =>
          rcases walk_of_hole hmax he with hw | hw
          · rw [uvmunmapLoop, hw]
            exact needs_throw _
          · rw [uvmunmapLoop, hw]
            exact needs_throw _
      | some e =>
          have hrest : ∀ s' : σ, Needs (uvmunmapLoop shm doFree n s' (pt.setPte (v * pgSize) none)
              (v * pgSize + pgSize)) (NoHole pt.leaf v (v + (n + 1))) := by
            intro s'
            rw [← Nat.succ_mul]
            refine (ih s' (pt.setPte (v * pgSize) none) (v + 1) (by omega)).mono ?_
            intro hall i hi hi'
            by_cases hiv : i = v
            · rw [hiv, he]
              exact Option.some_ne_none e
            · have hne := hall i (by omega) (by omega)
              rw [leaf_clear hmax he, Function.update_of_ne hiv] at hne
              exact hne
          rw [uvmunmapLoop, walk_of_leaf hmax he]
          change Needs (if e.perm.isLeaf = false then _ else _) _
          rw [if_neg (by rw [Perm.isLeaf_eq_true]; decide)]
          apply Needs.ite
          · intro _
            exact Needs.bind fun s' _ => hrest s'
          · intro _
            exact hrest s

theorem unmapUser_needs (s : σ) (pt : PageTable) {v w : ℕ} (hvw : v ≤ w) (hw : w ≤ maxPage) :
    Needs (unmapUser .assignment4 shm s pt (v * pgSize) (w * pgSize)) (NoHole pt.leaf v w) := by
  have hcount : (w * pgSize - v * pgSize) / pgSize = w - v := by
    rw [← Nat.sub_mul, Nat.mul_div_cancel _ (by decide)]
  rw [unmapUser, uvmunmap, if_neg (not_not.mpr (Nat.mul_mod_left v pgSize)), hcount]
  have hneeds : Needs (uvmunmapLoop shm true (w - v) s pt (v * pgSize)) _ :=
    uvmunmapLoop_needs true (w - v) s pt v (by omega)
  rw [Nat.add_sub_cancel' hvw] at hneeds
  exact hneeds

theorem noHole_of_le (f : ℕ → Option Pte) {v w : ℕ} (h : w ≤ v) : NoHole f v w := by
  intro i hi hi'
  omega

theorem uvmdealloc_needs (s : σ) (pt : PageTable) (oldsz newsz : ℕ)
    (hold : pageCount oldsz ≤ maxPage) :
    Needs (uvmdealloc .assignment4 shm s pt oldsz newsz)
      (NoHole pt.leaf (pageCount newsz) (pageCount oldsz)) := by
  unfold uvmdealloc
  apply Needs.ite
  · intro hge
    exact needs_of (noHole_of_le _ (pageCount_mono hge))
  · intro _
    apply Needs.ite
    · intro hround
      rw [pgRoundUp_eq, pgRoundUp_eq] at hround ⊢
      have hcount : pageCount newsz < pageCount oldsz := Nat.lt_of_mul_lt_mul_right hround
      exact (unmapUser_needs s pt hcount.le hold).bind_left
    · intro hround
      rw [pgRoundUp_eq, pgRoundUp_eq] at hround
      exact needs_of (noHole_of_le _ (Nat.le_of_mul_le_mul_right (Nat.not_lt.mp hround) (by decide)))

theorem uvmfree_needs (s : σ) (pt : PageTable) (sz : ℕ) (hsz : pageCount sz ≤ maxPage) :
    Needs (uvmfree .assignment4 shm s pt sz) (NoHole pt.leaf 0 (pageCount sz)) := by
  refine Needs.bind_left (Needs.ite ?_ ?_)
  · intro _
    have hneeds : Needs (unmapUser .assignment4 shm s pt (0 * pgSize) (pageCount sz * pgSize)) _ :=
      unmapUser_needs s pt (Nat.zero_le _) hsz
    rw [Nat.zero_mul, ← pgRoundUp_eq] at hneeds
    exact hneeds
  · intro hzero
    apply needs_of
    rw [Nat.le_zero.mp (Nat.not_lt.mp hzero)]
    exact noHole_of_le _ (by decide)

theorem reap_needs {i : Fin nproc} (hthread : p.isThread = false) (hwell : p.WellMapped g) :
    Needs (reap .assignment4 g m i p) (NoHole p.pagetable.leaf 0 (pageCount p.sz)) := by
  have hpages := pageCount_le_shmPage hwell.sz_le
  have hlay := layout
  refine Needs.bind_left (Needs.bind fun s _ => ?_)
  dsimp only
  rw [hthread, if_neg (by decide)]
  refine Needs.bind fun r hr => ?_
  -- the leaves below `SHM_VA` are still there when `uvmfree` comes
  have hfixed : Yields (fun _ => True) (unmapFixed g s p.pagetable) fun r =>
      ∀ v < shmPage, r.2.leaf v = p.pagetable.leaf v := by
    apply (unmapFixed_spec (R := fun _ _ _ => True) hwell.shape trivial).mono
    · intro r hr
      exact hr.2.1
    · exact 0
    · exact 0
  have hbelow := hfixed.of_eq_ok hr
  refine (uvmfree_needs r.1 r.2 p.sz (by omega)).mono ?_
  intro hall v hv hv'
  rw [← hbelow v (by omega)]
  exact hall v hv hv'

theorem growproc_needs {i : Fin nproc} {n : ℤ} (hneg : n < 0) (hwell : p.WellMapped g) :
    Needs (growproc .assignment4 g m i p n)
      (NoHole p.pagetable.leaf (pageCount (addSz p.sz n)) (pageCount p.sz)) := by
  have hpages := pageCount_le_shmPage hwell.sz_le
  have hlay := layout
  unfold growproc
  rw [if_neg (Int.not_lt.mpr (Int.le_of_lt hneg)), if_pos hneg]
  exact (uvmdealloc_needs m.mem p.pagetable p.sz (addSz p.sz n) (by omega)).bind_left

theorem sysSbrk_needs {i : Fin nproc} {n : ℤ} {lazy : Bool} (hneg : n < 0)
    (hwell : p.WellMapped g) :
    Needs (sysSbrk .assignment4 g m i p n lazy)
      (NoHole p.pagetable.leaf (pageCount (addSz p.sz n)) (pageCount p.sz)) := by
  unfold sysSbrk
  rw [if_pos (Or.inr hneg)]
  exact (growproc_needs hneg hwell).bind_left

/-- The error exit of `uvmcopy` at page `v` does not get past a hole of the copy. -/
theorem rollback_needs (s : σ) (new : PageTable) {v : ℕ} (hv : v ≤ maxPage) :
    Needs (do
      let r ← unmapUser .assignment4 shm s new 0 (v * pgSize)
      pure (r.1, r.2, false)) (NoHole new.leaf 0 v) := by
  have hneeds : Needs (unmapUser .assignment4 shm s new (0 * pgSize) (v * pgSize)) _ :=
    unmapUser_needs s new (Nat.zero_le v) hv
  rw [Nat.zero_mul] at hneeds
  exact hneeds.bind_left

/-- Where the copy has a hole only below a hole of the original, the error exit does not
get past a hole of the original. -/
theorem noHole_of_rollback {old new : ℕ → Option Pte} {v : ℕ}
    (hcopied : ∀ i < v, old i = none → new i = none) (h : NoHole new 0 v) :
    ∀ i ∈ some (v * pgSize / pgSize), NoHole old 0 i := by
  intro i hi j hj hji hnone
  rw [Nat.mul_div_cancel v (by decide)] at hi
  cases hi
  exact h j hj hji (hcopied j hji hnone)

theorem uvmcopyLoop_needs (old : PageTable) (n : ℕ) (s : σ) (new : PageTable) (v : ℕ)
    (htop : v + n ≤ shmPage) (hcopied : ∀ i < v, old.leaf i = none → new.leaf i = none)
    (hhole : ∀ i, v ≤ i → i < shmPage → new.leaf i = none) :
    Needs (uvmcopyLoop .assignment4 shm old n s new (v * pgSize))
      (∀ i ∈ uvmcopyErr old n s new (v * pgSize), NoHole old.leaf 0 i) := by
  induction n generalizing s new v with
  | zero => exact needs_of fun i hi => nomatch hi
  | succ n ih =>
      have hlay := layout
      have hmax : v < maxPage := by omega
      have hnone := hhole v le_rfl (by omega)
      cases he : old.leaf v with
      | none =>
          rw [uvmcopyLoop_skip hmax he, uvmcopyErr_skip hmax he]
          apply ih s new (v + 1) (by omega)
          · intro i hi hold
            by_cases hiv : i = v
            · rw [hiv, hnone]
            · exact hcopied i (by omega) hold
          · intro i hi hi'
            exact hhole i (by omega) hi'
      | some e =>
          rw [uvmcopyLoop, uvmcopyErr, walk_of_leaf hmax he]
          cases hk : kalloc s with
          | mk r s' =>
              cases r with
              | none =>
                  have hneeds : Needs (do
                      let r ← unmapUser .assignment4 shm s' new 0 (v * pgSize)
                      pure (r.1, r.2, false)) _ := rollback_needs s' new (by omega)
                  exact hneeds.mono (noHole_of_rollback hcopied)
              | some mem =>
                  have hmap : Yields (fun _ => True)
                      (mappages (memmove mem e.pa s') new (v * pgSize) pgSize mem e.perm)
                      fun r => r.2.1.leaf =
                        if r.2.2 then Function.update new.leaf v (some ⟨mem, e.perm⟩)
                        else new.leaf := by
                    apply (mappages_spec (Books.trivial (fun _ => True) shm fun _ => trivial) hmax
                      (fun _ => trivial) trivial).mono
                    · intro r hr
                      exact hr.2
                    · exact 0
                    · exact 0
                  change Needs (mappages (memmove mem e.pa s') new (v * pgSize) pgSize mem e.perm >>=
                    _) _
                  refine Needs.bind fun r hr => ?_
                  have hleaf := hmap.of_eq_ok hr
                  dsimp only
                  rw [hr]
                  dsimp only
                  cases hok : r.2.2 with
                  | true =>
                      rw [if_pos rfl, if_pos rfl, ← Nat.succ_mul]
                      rw [hok, if_pos rfl] at hleaf
                      apply ih r.1 r.2.1 (v + 1) (by omega)
                      · intro i hi hold
                        have hiv : i ≠ v := by
                          rintro rfl
                          rw [he] at hold
                          cases hold
                        rw [hleaf, Function.update_of_ne hiv]
                        exact hcopied i (by omega) hold
                      · intro i hi hi'
                        rw [hleaf, Function.update_of_ne (by omega)]
                        exact hhole i (by omega) hi'
                  | false =>
                      rw [if_neg (by decide), if_neg (by decide)]
                      rw [hok, if_neg (by decide)] at hleaf
                      rw [← hleaf] at hcopied
                      refine Needs.bind fun s'' _ => ?_
                      have hneeds : Needs (do
                          let r ← unmapUser .assignment4 shm s'' r.2.1 0 (v * pgSize)
                          pure (r.1, r.2, false)) _ := rollback_needs s'' r.2.1 (by omega)
                      exact hneeds.mono (noHole_of_rollback hcopied)

theorem kfork_needs (hwell : p.WellMapped g) :
    Needs (kfork .assignment4 g m p) (ForkWhole .assignment4 g m p) := by
  have hpages := pageCount_le_shmPage hwell.sz_le
  have hlay := layout
  unfold kfork
  cases hj : findUnused m with
  | none => exact needs_of fun hunused => absurd hj hunused
  | some j =>
      dsimp only
      refine Needs.bind fun r hr => ?_
      have halloc : Yields (fun _ => True) (allocproc .assignment4 g m.mem) fun r =>
          ∀ np, r.2 = some np → np.2.leaf = fixedLeaves g np.1 := by
        apply (allocproc_spec (Books.trivial (fun _ => True) g.shmPagePa fun _ => trivial)
          trivial).mono
        · intro r hr np hnp
          exact (hr.2 np hnp).2
        · exact 0
        · exact 0
      have hfixed := halloc.of_eq_ok hr
      obtain ⟨s, np⟩ := r
      cases np with
      | none =>
          apply needs_of
          intro _ s' np hok
          rw [hr] at hok
          cases hok
      | some np =>
          have hhole : ∀ v < shmPage, np.2.leaf v = none := by
            intro v hv
            rw [hfixed np rfl]
            exact fixedLeaves_of_lt g np.1 (by omega)
          have hneeds : Needs (uvmcopyLoop .assignment4 g.shmPagePa p.pagetable (pageCount p.sz) s
              np.2 (0 * pgSize)) _ :=
            uvmcopyLoop_needs p.pagetable (pageCount p.sz) s np.2 0 (by omega)
              (fun i hi => absurd hi (Nat.not_lt_zero i)) fun i _ hi => hhole i hi
          rw [Nat.zero_mul] at hneeds
          refine (Needs.bind_left hneeds).mono ?_
          intro hall _ s' np' hok
          rw [hr] at hok
          cases hok
          exact hall

end Needs

/-! ## The condition is exact -/

section Exact

variable {σ : Type} [PageAllocator σ] {nproc : ℕ} {g : Globals} {m₀ m : Machine σ nproc}
  {R : σ → (ℕ → ℕ) → (ℕ → ℕ) → Prop}

/-- The panics of `uvmunmap` at a hole. -/
def HolePanic (e : Panic) : Prop := e = .uvmunmapWalk ∨ e = .uvmunmapNotMapped

theorem HolePanic.teardown {e : Panic} (h : HolePanic e) : TeardownPanic e := by
  rcases h with rfl | rfl
  · exact Or.inl rfl
  · exact Or.inr (Or.inl rfl)

theorem tolerates_holePanic : Kernel.assignment4.Tolerates HolePanic :=
  fun _ => ⟨Or.inl rfl, Or.inr rfl⟩

/-- What can stop only at a hole and does not, returns, and so has what it needs. -/
theorem Survives.of_needs {α : Type} {r : Except Panic α} {Q : α → Prop} {P : Prop}
    (h : Survives r) (hyields : Yields HolePanic r Q) (hneeds : Needs r P) : P := by
  cases r with
  | ok a => exact hneeds a rfl
  | error e => exact absurd rfl (h e (HolePanic.teardown hyields))

theorem Survives.of_map {α β : Type} {f : α → β} {r : Except Panic α} (h : Survives (f <$> r)) :
    Survives r := by
  rintro e he rfl
  exact h e he rfl

theorem whole_of_survives (B : Books HolePanic g.shmPagePa R) (hm : Inv R g m) (a : Action nproc)
    (hs : Survives (perform .assignment4 g m a)) : a.Whole .assignment4 g m := by
  cases a with
  | sbrk i n lazy =>
      intro p hp hz hneg
      rw [perform_live hp hz] at hs
      have hwell := hm.spaces i p hp
      have hwithin : Within p.sz n := fun hpos => absurd hpos (by omega)
      exact hs.of_map.of_needs
        (sysSbrk_spec B n tolerates_holePanic.spares lazy hm.books hwell hp (Or.inl hwithin))
        (sysSbrk_needs hneg hwell)
  | fork i =>
      intro p hp hz
      rw [perform_live hp hz] at hs
      have hwell := hm.spaces i p hp
      exact hs.of_map.of_needs (kfork_spec B tolerates_holePanic.spares hm.books hwell)
        (kfork_needs hwell)
  | reap i =>
      intro p hp hz hthread
      rw [perform_zombie hp hz] at hs
      have hwell := hm.spaces i p hp
      exact hs.of_needs
        (reap_spec B (fun _ => tolerates_holePanic.spares) hm.books hwell hp)
        (reap_needs hthread hwell)
  | fault i va => trivial
  | clone i fcn arg stack returnaddr => trivial
  | shmGet i => trivial
  | exit i => trivial

/-- Over an allocator that keeps its books, the kernel stops at an action if and only if
the action unmaps a hole. -/
theorem survives_iff_whole (B : Books HolePanic g.shmPagePa R) (hstart : Inv R g m₀)
    (hrun : SparseRun g m₀ m) (a : Action nproc) :
    Survives (perform .assignment4 g m a) ↔ a.Whole .assignment4 g m := by
  have hm : Inv R g m := inv_of_run (B.mono fun _ _ => trivial) (permits_all .assignment4)
    (fun _ _ _ hfits => Or.inr ⟨trivial, hfits⟩) hstart hrun
  constructor
  · exact whole_of_survives B hm a
  · intro hwhole
    apply survives_of_yields
    apply perform_spec_of_spares (books_notTeardown _) _ _ trivial a (Kernel.spares_of hwhole)
      (hm.spaces a.slot)
    · right
      simp [TeardownPanic]
    · simp [TeardownPanic]
    · simp [TeardownPanic]

end Exact

/-! ## Runs that meet holes -/

section Leads

variable {σ : Type} [PageAllocator σ] {nproc : ℕ} {g : Globals} {m : Machine σ nproc}
  {Q : Machine σ nproc → Prop}

/-- The actions are possible one after the other, no size is taken past `SHM_VA`, and
the last state satisfies `Q`. -/
def Leads (g : Globals) (Q : Machine σ nproc → Prop) :
    List (Action nproc) → Machine σ nproc → Prop
  | [], m => Q m
  | a :: actions, m =>
      Yields (fun _ => False) (perform .assignment4 g m a) fun m' => m'.Fits ∧ Leads g Q actions m'

def Leads.decidable [DecidablePred Q] : (actions : List (Action nproc)) →
    (m : Machine σ nproc) → Decidable (Leads g Q actions m)
  | [], m => inferInstanceAs (Decidable (Q m))
  | a :: actions, m =>
      have : DecidablePred (Leads g Q actions) := Leads.decidable actions
      inferInstanceAs (Decidable (Yields (fun _ => False) (perform .assignment4 g m a)
        fun m' => m'.Fits ∧ Leads g Q actions m'))

instance [DecidablePred Q] (actions : List (Action nproc)) (m : Machine σ nproc) :
    Decidable (Leads g Q actions m) := Leads.decidable actions m

theorem Leads.exists_run {actions : List (Action nproc)} (h : Leads g Q actions m) :
    ∃ m', SparseRun g m m' ∧ Q m' := by
  induction actions generalizing m with
  | nil => exact ⟨m, .refl, h⟩
  | cons a actions ih =>
      obtain ⟨m₁, ha, hfits, hrest⟩ := Yields.exists_eq_ok h
      obtain ⟨m', hrun, hQ⟩ := ih hrest
      exact ⟨m', .head ⟨a, ha, hfits⟩ hrun, hQ⟩

end Leads

/-- The last action stops the kernel with the panic `e`. -/
def Stops (g : Globals) (a : Action 2) (e : Panic) (m : Machine Kmem 2) : Prop :=
  Yields (fun e' => e' = e) (perform .assignment4 g m a) fun _ => False

instance (g : Globals) (a : Action 2) (e : Panic) : DecidablePred (Stops g a e) :=
  fun _ => inferInstanceAs (Decidable (Yields _ _ _))

/-- From the first process, the actions lead to a state that satisfies `Q`. The elements
of `faults` say which calls of `kalloc` fail. -/
def BootLeads (faults : List Bool) (actions : List (Action 2))
    (Q : Globals → Machine Kmem 2 → Prop) : Prop :=
  Yields (fun _ => False) (bootImage (physTop - 20 * pgSize) kernBase faults) fun r =>
    ∃ x ∈ r, Leads x.1 (Q x.1) actions x.2

theorem BootLeads.exists_run {faults : List Bool} {actions : List (Action 2)}
    {Q : Globals → Machine Kmem 2 → Prop} (h : BootLeads faults actions Q) :
    ∃ (g : Globals) (m₀ m : Machine Kmem 2),
      Boot g {g.shmPagePa} m₀ ∧ SparseRun g m₀ m ∧ Q g m := by
  obtain ⟨x, hb, h⟩ := exists_boot h
  obtain ⟨m, hrun, hQ⟩ := h.exists_run
  exact ⟨x.1, x.2, m, hb, hrun, hQ⟩

instance (faults : List Bool) (actions : List (Action 2)) (Q : Globals → Machine Kmem 2 → Prop)
    [∀ g, DecidablePred (Q g)] : Decidable (BootLeads faults actions Q) :=
  inferInstanceAs (Decidable (Yields _ _ _))

theorem shrink_stops : BootLeads [] [.sbrk 0 pgSize true]
    fun g => Stops g (.sbrk 0 (-pgSize) false) .uvmunmapNotMapped := by
  decide +kernel

/-- The last page added lazily is in a part of the address space that has no tables. -/
theorem shrink_stops_walk : BootLeads [] [.sbrk 0 (2 ^ 22) true]
    fun g => Stops g (.sbrk 0 (-pgSize) false) .uvmunmapWalk := by
  decide +kernel

theorem reap_stops : BootLeads [] [.fork 0, .sbrk 1 pgSize true, .exit 1]
    fun g => Stops g (.reap 1) .uvmunmapNotMapped := by
  decide +kernel

/-- Of two pages added lazily the second is touched, and `kalloc` fails when a fork has
come to it. -/
theorem fork_stops : BootLeads (List.replicate 16 false ++ [true])
    [.sbrk 0 (2 * pgSize) true, .fault 0 (2 * pgSize)]
    fun g => Stops g (.fork 0) .uvmunmapNotMapped := by
  decide +kernel

theorem Stops.not_survives {g : Globals} {a : Action 2} {e : Panic} {m : Machine Kmem 2}
    (h : Stops g a e m) (he : TeardownPanic e) : ¬ Survives (perform .assignment4 g m a) :=
  fun hsurvives => hsurvives e he h.eq_error

/-- From boot there are runs after which a shrink, the `wait` for a child and a fork
that fails stop the kernel, a shrink with either panic. -/
theorem not_survives_of_hole :
    (∃ (g : Globals) (m₀ m : Machine Kmem 2), Boot g {g.shmPagePa} m₀ ∧ SparseRun g m₀ m ∧
      ¬ Survives (perform .assignment4 g m (.sbrk 0 (-pgSize) false))) ∧
    (∃ (g : Globals) (m₀ m : Machine Kmem 2), Boot g {g.shmPagePa} m₀ ∧ SparseRun g m₀ m ∧
      perform .assignment4 g m (.sbrk 0 (-pgSize) false) = .error .uvmunmapWalk) ∧
    (∃ (g : Globals) (m₀ m : Machine Kmem 2), Boot g {g.shmPagePa} m₀ ∧ SparseRun g m₀ m ∧
      ¬ Survives (perform .assignment4 g m (.reap 1))) ∧
    ∃ (g : Globals) (m₀ m : Machine Kmem 2), Boot g {g.shmPagePa} m₀ ∧ SparseRun g m₀ m ∧
      ¬ Survives (perform .assignment4 g m (.fork 0)) := by
  refine ⟨?_, ?_, ?_, ?_⟩
  · obtain ⟨g, m₀, m, hboot, hrun, hstops⟩ := shrink_stops.exists_run
    exact ⟨g, m₀, m, hboot, hrun, hstops.not_survives (by decide)⟩
  · obtain ⟨g, m₀, m, hboot, hrun, hstops⟩ := shrink_stops_walk.exists_run
    exact ⟨g, m₀, m, hboot, hrun, hstops.eq_error⟩
  · obtain ⟨g, m₀, m, hboot, hrun, hstops⟩ := reap_stops.exists_run
    exact ⟨g, m₀, m, hboot, hrun, hstops.not_survives (by decide)⟩
  · obtain ⟨g, m₀, m, hboot, hrun, hstops⟩ := fork_stops.exists_run
    exact ⟨g, m₀, m, hboot, hrun, hstops.not_survives (by decide)⟩

theorem bootLeads_holeBelowTop : BootLeads [] [.sbrk 0 (2 * pgSize) true, .fault 0 (2 * pgSize)]
    fun _ m => ∃ p ∈ m.proc 0, p.sz = 3 * pgSize ∧ p.zombie = false ∧
      p.pagetable.leaf 1 = none ∧ (p.pagetable.leaf 2).isSome := by
  decide +kernel

/-- The hole at page 1 does not stop a shrink by one page from page 3. -/
theorem survives_of_whole_holeBelowTop : ∃ (g : Globals) (m₀ m : Machine Kmem 2),
    Boot g {g.shmPagePa} m₀ ∧ SparseRun g m₀ m ∧
      (∃ p, m.proc 0 = some p ∧ p.pagetable.leaf 1 = none) ∧
      Survives (perform .assignment4 g m (.sbrk 0 (-pgSize) false)) := by
  obtain ⟨g, m₀, m, hboot, hrun, p, hp, hsz, hz, hhole, hsome⟩ :=
    bootLeads_holeBelowTop.exists_run
  refine ⟨g, m₀, m, hboot, hrun, ⟨p, hp, hhole⟩, survives_of_whole m₀ m hboot.spaces hrun _ ?_⟩
  intro q hq _ _ v hv hv'
  have hqp : q = p := Option.some_injective _ (hq.symm.trans hp)
  rw [hqp, hsz] at hv hv'
  have hv2 : v = 2 := by
    have : pageCount (3 * pgSize) = 3 := by decide
    have : pageCount (addSz (3 * pgSize) (-pgSize)) = 2 := by decide
    omega
  rw [hqp, hv2]
  exact Option.isSome_iff_ne_none.mp hsome

end Memory
