import OsAssignments.Memory.Boot
import OsAssignments.Memory.Supply

/-!
# What `kclone` lets through

`kclone` tests `fcn` and the byte below `stack` with `walkaddr`, and `returnaddr` with
`walk`, which panics from `MAXVA` on and does not look at `PTE_U`; and it rounds
`stack` down after the test. The arguments that pass its tests although the thread
cannot run on them are described exactly, together with the state in which such a
thread is made: there is an unused slot, and the supply of pages covers its trapframe
and its page table. A size that has grown past `SHM_VA` is covered too.
-/

namespace Memory

open Outcome RefPool RadixTree Machine

/-! ## Looking up an address -/

/-- The page of the address `va` is mapped for the user with the bit `bit`. -/
def UserPage (pt : PageTable) (va : ℕ) (bit : Perm → Bool) : Prop :=
  va < maxVa ∧ ∃ e ∈ pt.leaf (va / pgSize), e.perm.u = true ∧ bit e.perm = true

instance (pt : PageTable) (va : ℕ) (bit : Perm → Bool) : Decidable (UserPage pt va bit) :=
  inferInstanceAs (Decidable (_ ∧ ∃ e ∈ _, _))

theorem px_page (va : ℕ) : px (va / pgSize * pgSize) = px va := by
  funext level
  apply Fin.ext
  rw [px_mul_pgSize]
  rfl

theorem div_lt_maxPage {va : ℕ} (h : va < maxVa) : va / pgSize < maxPage := by
  have hmax : maxVa = maxPage * pgSize := by decide
  rw [hmax] at h
  exact Nat.div_lt_of_lt_mul (by rwa [Nat.mul_comm] at h)

theorem exists_walk {va : ℕ} (pt : PageTable) (h : va < maxVa) :
    ∃ slot, walk pt va = .ok slot ∧ slot.join = pt.leaf (va / pgSize) := by
  refine ⟨find 2 pt.table (px va), if_neg (Nat.not_le.mpr h), ?_⟩
  rw [← px_page, join_find pt (div_lt_maxPage h)]

theorem hasBit_eq {pt : PageTable} {va : ℕ} (bit : Perm → Bool) (h : va < maxVa) :
    hasBit pt va bit = .ok ((pt.leaf (va / pgSize)).elim false fun e => bit e.perm) := by
  obtain ⟨slot, hw, hjoin⟩ := exists_walk pt h
  rw [hasBit, hw, ← hjoin]
  cases slot with
  | none => rfl
  | some o =>
      cases o with
      | none => rfl
      | some e => rfl

/-- `walk` panics on an address that `walkaddr` would only reject. -/
theorem hasBit_panics {pt : PageTable} {va : ℕ} (bit : Perm → Bool) (h : maxVa ≤ va) :
    hasBit pt va bit = .error .walk := by
  rw [hasBit, walk, if_pos h]
  rfl

theorem walkaddr_none {pt : PageTable} {va : ℕ} (h : ∀ e, va < maxVa →
    pt.leaf (va / pgSize) = some e → e.perm.u = false) :
    walkaddr pt va = .ok none ∧ ∀ bit, ¬ UserPage pt va bit := by
  constructor
  · by_cases hva : va < maxVa
    · obtain ⟨slot, hw, hjoin⟩ := exists_walk pt hva
      rw [walkaddr, if_neg (Nat.not_le.mpr hva), hw]
      cases slot with
      | none => rfl
      | some o =>
          cases o with
          | none => rfl
          | some e =>
              change (pure (if e.perm.u then some e.pa else none) : Except Panic (Option ℕ)) = _
              rw [h e hva hjoin.symm]
              rfl
    · rw [walkaddr, if_pos (Nat.not_lt.mp hva)]
      rfl
  · rintro bit ⟨hva, e, he, hu, _⟩
    rw [h e hva he] at hu
    cases hu

/-- An address that `walkaddr` accepts is on a user page, and there `walk` does not panic. -/
theorem walkaddr_some {pt : PageTable} {va : ℕ} {e : Pte} (hva : va < maxVa)
    (he : pt.leaf (va / pgSize) = some e) (hu : e.perm.u = true) :
    walkaddr pt va = .ok (some e.pa) ∧ ∀ bit, hasBit pt va bit = .ok (bit e.perm) ∧
      (UserPage pt va bit ↔ bit e.perm = true) := by
  refine ⟨?_, fun bit => ⟨?_, ?_⟩⟩
  · obtain ⟨slot, hw, hjoin⟩ := exists_walk pt hva
    rw [he] at hjoin
    rw [walkaddr, if_neg (Nat.not_le.mpr hva), hw, Option.join_eq_some_iff.mp hjoin]
    change (pure (if e.perm.u then some e.pa else none) : Except Panic (Option ℕ)) = _
    rw [hu]
    rfl
  · rw [hasBit_eq bit hva, he]
    rfl
  · constructor
    · rintro ⟨_, e', he', _, hbit⟩
      cases he.symm.trans he'
      exact hbit
    · intro hbit
      exact ⟨hva, e, he, hu, hbit⟩

theorem walkaddr_cases (pt : PageTable) (va : ℕ) :
    (walkaddr pt va = .ok none ∧ ∀ bit, ¬ UserPage pt va bit) ∨
      ∃ e : Pte, walkaddr pt va = .ok (some e.pa) ∧
        ∀ bit, hasBit pt va bit = .ok (bit e.perm) ∧ (UserPage pt va bit ↔ bit e.perm = true) := by
  by_cases h : ∃ e, va < maxVa ∧ pt.leaf (va / pgSize) = some e ∧ e.perm.u = true
  · obtain ⟨e, hva, he, hu⟩ := h
    exact Or.inr ⟨e, walkaddr_some hva he hu⟩
  · left
    apply walkaddr_none
    intro e hva he
    by_contra hu
    exact h ⟨e, hva, he, Bool.eq_true_of_not_eq_false hu⟩

/-! ## The tests -/

/-- `fcn` and `stack` pass the tests of `kclone`. -/
structure Tested (p : Space) (fcn stack : ℕ) : Prop where
  fcn_lt : fcn < p.sz
  stack_ne : stack ≠ 0
  stack_le : stack ≤ p.sz
  fcn_page : UserPage p.pagetable fcn Perm.x
  stack_page : UserPage p.pagetable (stack - 1) Perm.w

/-- `returnaddr` is looked at only when the other tests have passed. -/
theorem kcloneArgs_cases (p : Space) (fcn stack returnaddr : ℕ) :
    (Tested p fcn stack ∧
        kcloneArgs p fcn stack returnaddr = hasBit p.pagetable returnaddr Perm.x) ∨
      (¬ Tested p fcn stack ∧ kcloneArgs p fcn stack returnaddr = .ok false) := by
  unfold kcloneArgs
  by_cases hsz : fcn ≥ p.sz ∨ stack = 0 ∨ stack > p.sz
  · right
    refine ⟨?_, if_pos hsz⟩
    rintro ⟨hfcn, hne, hle, _, _⟩
    omega
  · rw [if_neg hsz]
    rcases walkaddr_cases p.pagetable fcn with ⟨hw, hno⟩ | ⟨e, hw, hbit⟩
    · right
      rw [hw]
      exact ⟨fun h => hno _ h.fcn_page, rfl⟩
    · rcases walkaddr_cases p.pagetable (stack - 1) with ⟨hw', hno⟩ | ⟨e', hw', hbit'⟩
      · right
        rw [hw, hw']
        exact ⟨fun h => hno _ h.stack_page, rfl⟩
      · obtain ⟨hx, hux⟩ := hbit Perm.x
        obtain ⟨hy, huw⟩ := hbit' Perm.w
        rw [hw, hw', hx, hy]
        cases hxe : e.perm.x with
        | false =>
            right
            refine ⟨fun h => ?_, rfl⟩
            rw [hux.mp h.fcn_page] at hxe
            cases hxe
        | true =>
            cases hwe : e'.perm.w with
            | false =>
                right
                refine ⟨fun h => ?_, rfl⟩
                rw [huw.mp h.stack_page] at hwe
                cases hwe
            | true =>
                left
                exact ⟨⟨by omega, by omega, by omega, hux.mpr hxe, huw.mpr hwe⟩, rfl⟩

/-! ## Sizes up to `TRAPFRAME` -/

section Tall

variable {σ : Type} [PageAllocator σ] {allowed : Panic → Prop} {g : Globals} {shm : ℕ}
  {R : σ → (ℕ → ℕ) → (ℕ → ℕ) → Prop} {supply : σ → ℕ} {user owned : ℕ → ℕ}

theorem uvmshareLoop_last (old : PageTable) (n : ℕ) (s : σ) (new : PageTable) (v : ℕ)
    (hv : v + n < maxPage) :
    uvmshareLoop shm old (n + 1) s new (v * pgSize) =
      uvmshareLoop shm old n s new (v * pgSize) >>= fun r =>
        if r.2.2 then uvmshareLoop shm old 1 r.1 r.2.1 ((v + n) * pgSize) else pure r := by
  induction n generalizing s new v with
  | zero => rfl
  | succ n ih =>
      have hnext : v + (n + 1) = v + 1 + n := by omega
      cases he : old.leaf v with
      | none =>
          rw [uvmshareLoop_skip (by omega) he, uvmshareLoop_skip (by omega) he, hnext]
          exact ih s new (v + 1) (by omega)
      | some e =>
          rw [uvmshareLoop_leaf (by omega) he, uvmshareLoop_leaf (by omega) he, hnext]
          cases mappages s new (v * pgSize) pgSize e.pa e.perm with
          | error x => rfl
          | ok r =>
              obtain ⟨s₁, new₁, ok⟩ := r
              cases ok with
              | true =>
                  change kaddref e.pa s₁ >>= _ = (kaddref e.pa s₁ >>= _) >>= _
                  cases kaddref e.pa s₁ with
                  | error x => rfl
                  | ok s₂ => exact ih s₂ new₁ (v + 1) (by omega)
              | false =>
                  change uvmunmapSparse shm s₁ new₁ 0 (v * pgSize) >>= _ =
                    (uvmunmapSparse shm s₁ new₁ 0 (v * pgSize) >>= _) >>= _
                  cases uvmunmapSparse shm s₁ new₁ 0 (v * pgSize) with
                  | error x => rfl
                  | ok r' => rfl

theorem uvmunmapSparseLoop_hole (shm n : ℕ) (s : σ) (pt : PageTable) (v : ℕ) (hv : v + n ≤ maxPage)
    (h : ∀ i, v ≤ i → i < v + n → pt.leaf i = none) :
    uvmunmapSparseLoop shm n s pt (v * pgSize) = .ok (s, pt) := by
  induction n generalizing v with
  | zero => rfl
  | succ n ih =>
      rw [uvmunmapSparseLoop_skip (by omega) (h v le_rfl (by omega))]
      exact ih (v + 1) (by omega) fun i hi hi' => h i (by omega) (by omega)

/-- `freeproc` of a thread that has no user page yet, whatever its size. -/
theorem freeproc_fixed (B : Books allowed g.shmPagePa R) {kv : Kernel} {s : σ} {pt : PageTable}
    {tf sz : ℕ} (hsz : pageCount sz ≤ maxPage) (hleaf : pt.leaf = fixedLeaves g tf)
    (h : R s (user + userCount pt.leaf) (owned + one tf + pt.pages)) :
    Yields allowed (freeproc kv g s (some tf) (some pt) sz true) fun s' => R s' user owned := by
  rw [add_right_comm] at h
  rw [freeproc]
  apply (B.kfree_owned h).bind
  intro s' hs'
  dsimp only
  rw [if_pos rfl, threadFreepagetable]
  apply (unmapFixed_spec (hleaf ▸ fixedLeaves_shape g tf) hs').bind
  intro r hr
  obtain ⟨hR, hbelow, habove⟩ := hr
  have hlay := layout
  have hnone : ∀ v, r.2.leaf v = none := by
    intro v
    by_cases hv : v < shmPage
    · rw [hbelow v hv, hleaf]
      exact fixedLeaves_of_lt g tf (by omega)
    · exact habove v (Nat.not_lt.mp hv)
  have hsparse : uvmunmapSparse g.shmPagePa r.1 r.2 0 (pgRoundUp sz) = .ok (r.1, r.2) := by
    have hloop := uvmunmapSparseLoop_hole g.shmPagePa (pageCount sz) r.1 r.2 0
      (by omega) fun v _ _ => hnone v
    rw [Nat.zero_mul] at hloop
    rw [uvmunmapSparse, pgRoundUp_eq, if_neg (by simp), Nat.sub_zero,
      Nat.mul_div_cancel _ (by decide), hloop]
  rw [hsparse, yields_ok_bind]
  exact freewalk_root B hnone hR

theorem newTables_shmPage {V : Finset ℕ} (h : fixedPages ⊆ V) : newTables V shmPage = 0 := by
  have hmem : trampolinePage ∈ V := h (by simp [fixedPages])
  have h2 : shmPage / 512 ^ 2 = trampolinePage / 512 ^ 2 := by decide
  have h1 : shmPage / 512 = trampolinePage / 512 := by decide
  unfold newTables
  rw [if_pos (Finset.mem_image.mpr ⟨_, hmem, h2.symm⟩),
    if_pos (Finset.mem_image.mpr ⟨_, hmem, h1.symm⟩)]

theorem tableCount_shmPage (f : ℕ → Option Pte) :
    tableCount (fixedPages ∪ mappedPages f 0 (shmPage + 1)) =
      tableCount (fixedPages ∪ mappedPages f 0 shmPage) := by
  rw [mappedPages_union f (Nat.zero_le shmPage) (Nat.le_succ shmPage)]
  cases he : f shmPage with
  | none => rw [mappedPages_page_none he, Finset.union_empty]
  | some e =>
      rw [mappedPages_page_some he, Finset.union_comm (mappedPages f 0 shmPage), ← Finset.insert_eq,
        Finset.union_insert, tableCount_insert, newTables_shmPage Finset.subset_union_left, add_zero]

/-- `uvmshare` up to `TRAPFRAME` into a new address space, unless it would share a page at
`SHM_VA`. -/
theorem uvmshare_fixed (B : Books allowed shm R) (S : Supplied supply) {s : σ}
    {old new : PageTable} {tf sz : ℕ} (hsz : pageCount sz ≤ shmPage + 1)
    (hclear : pageCount sz ≤ shmPage ∨ old.leaf shmPage = none ∨
      supply s + tableCount fixedPages <
        tableCount (fixedPages ∪ mappedPages old.leaf 0 (pageCount sz)))
    (hheld : ∀ v < shmPage, ∀ e, old.leaf v = some e → 0 < user e.pa)
    (hleaf : new.leaf = fixedLeaves g tf) (hspans : Spans new fixedPages)
    (h : R s (user + userCount new.leaf) (owned + new.pages)) :
    Yields allowed (uvmshare shm s old new sz) fun r =>
      R r.1 (user + userCount r.2.1.leaf) (owned + r.2.1.pages) ∧
        (r.2.2 = false → r.2.1.leaf = fixedLeaves g tf) ∧ r.2.1.leaf shmPage = none := by
  have hlay := layout
  have hhole : ∀ v ≤ shmPage, new.leaf v = none := by
    intro v hv
    rw [hleaf]
    exact fixedLeaves_of_lt g tf (by omega)
  have hout : ∀ w ≤ shmPage, ∀ r : σ × PageTable × Bool,
      CopyOutcome R user owned Eq old.leaf new.leaf 0 w r →
      R r.1 (user + userCount r.2.1.leaf) (owned + r.2.1.pages) ∧
        (r.2.2 = false → r.2.1.leaf = fixedLeaves g tf) ∧ r.2.1.leaf shmPage = none := by
    rintro w hw r ⟨hR, hfail, hok⟩
    rw [clearRange_self] at hfail
    refine ⟨hR, fun hr => (hfail hr).trans hleaf, ?_⟩
    cases hr : r.2.2 with
    | false =>
        rw [hfail hr]
        exact hhole shmPage le_rfl
    | true =>
        rw [(hok hr).outside shmPage (Or.inr hw)]
        exact hhole shmPage le_rfl
  by_cases hle : pageCount sz ≤ shmPage
  · exact (uvmshare_spec B hle hheld (fun v hv => hhole v (Nat.le_of_lt hv)) h).mono (hout _ hle)
  · have hcount : pageCount sz = shmPage + 1 := by omega
    rw [hcount, tableCount_shmPage] at hclear
    rw [uvmshare, hcount, ← Nat.zero_mul pgSize,
      uvmshareLoop_last old shmPage s new 0 (by omega)]
    have hspec := uvmshareLoop_spec B old shmPage s new 0 (by omega) hheld
      (fun v _ hv => hhole v (Nat.le_of_lt hv)) h
    have hsupply := uvmshareLoop_supply S shm old shmPage s new 0 (by omega) hspans
    rw [Nat.zero_add] at hspec hsupply
    apply (hspec.and hsupply).bind
    intro r hr
    obtain ⟨hcopy, hiff, _⟩ := hr
    have hr' := hout shmPage le_rfl r hcopy
    apply Yields.ite
    · intro htrue
      have hpaid := hiff.mp htrue
      have hnone : old.leaf shmPage = none := by
        rcases hclear with hfits | hnone | hshort
        · omega
        · exact hnone
        · omega
      rw [Nat.zero_add, uvmshareLoop_skip (by omega) hnone, uvmshareLoop, yields_pure]
      exact ⟨hr'.1, fun hfalse => absurd hfalse.symm Bool.false_ne_true, hr'.2.2⟩
    · intro _
      exact hr'

end Tall

/-! ## When a thread is made -/

section Made

variable {σ : Type} [PageAllocator σ] {nproc : ℕ} {allowed : Panic → Prop} {kv : Kernel}
  {g : Globals} {R : σ → (ℕ → ℕ) → (ℕ → ℕ) → Prop} {supply : σ → ℕ} {user owned : ℕ → ℕ}
  {m : Machine σ nproc} {p : Space}

/-- The pages that a thread of `p` takes: its trapframe, the root of its page table, and
the tables that its mapped pages need. -/
def threadPages (p : Space) : ℕ :=
  2 + tableCount (fixedPages ∪ mappedPages p.pagetable.leaf 0 (pageCount p.sz))

/-- There is an unused slot, and enough pages for a thread of `p`. -/
def Room (supply : σ → ℕ) (m : Machine σ nproc) (p : Space) : Prop :=
  (∃ j, m.proc j = none) ∧ threadPages p ≤ supply m.mem

/-- The size ends at `SHM_VA` or before, or nothing is mapped there. -/
def ShmApart (p : Space) : Prop := p.sz ≤ shmVa ∨ p.pagetable.leaf shmPage = none

theorem tableCount_fixedPages : tableCount fixedPages = 2 := by decide

/-- Where the new page table has a hole at `SHM_VA`, the creator's page there is mapped
without a panic. -/
theorem cloneShm_returns (B : Books allowed g.shmPagePa R) {s : σ} {parent child : PageTable}
    (hnone : child.leaf shmPage = none)
    (h : R s (user + userCount child.leaf) (owned + child.pages)) :
    Yields allowed (cloneShm s parent child) fun _ => True := by
  cases he : parent.leaf shmPage with
  | none =>
      rw [cloneShm_hole he]
      trivial
  | some e =>
      rw [cloneShm_leaf he]
      exact (mappages_shm B hnone h).mono fun _ _ => trivial

/-- A page of the creator at `SHM_VA` finds its tables in place; it must not have been
shared as a page below the size. -/
theorem cloneShm_supply (S : Supplied supply) {s : σ} {parent child : PageTable} {V : Finset ℕ}
    (hspans : Spans child V) (hV : fixedPages ⊆ V) :
    Yields (fun _ => True) (cloneShm s parent child) fun r =>
      r.2.2 = true ∧ (parent.leaf shmPage ≠ none → child.leaf shmPage = none) := by
  cases he : parent.leaf shmPage with
  | none =>
      rw [cloneShm_hole he, yields_ok]
      exact ⟨rfl, fun hne => absurd rfl hne⟩
  | some e =>
      rw [cloneShm_leaf he]
      apply (mappages_supply S shmPage_lt hspans).mono
      intro r hr
      obtain ⟨hiff, hok⟩ := hr
      have htrue : r.2.2 = true := hiff.mpr (by rw [newTables_shmPage hV]; exact Nat.zero_le _)
      exact ⟨htrue, fun _ => (hok htrue).hole⟩

omit [PageAllocator σ] in
theorem findUnused_eq_none_iff : findUnused m = none ↔ ¬ ∃ j, m.proc j = none := by
  unfold findUnused
  rw [List.find?_eq_none]
  constructor
  · rintro h ⟨j, hj⟩
    exact h j (List.mem_finRange j) (by rw [hj]; rfl)
  · intro h j _ hj
    exact h ⟨j, Option.isNone_iff_eq_none.mp hj⟩

omit [PageAllocator σ] in
/-- A page at `SHM_VA` below the size would have been shared along with the others. -/
theorem shmApart_of_mapsAll {V : Finset ℕ} {n : ℕ} {s : σ} {pt pt' : PageTable}
    (h : MapsAll supply V (mappedPages p.pagetable.leaf 0 (pageCount p.sz)) n pt s pt')
    (hhole : p.pagetable.leaf shmPage ≠ none → pt'.leaf shmPage = none) : ShmApart p := by
  by_contra hboth
  unfold ShmApart at hboth
  rw [not_or] at hboth
  obtain ⟨htall, hne⟩ := hboth
  apply h.mapped shmPage _ (hhole hne)
  rw [mem_mappedPages, lt_pageCount_iff]
  exact ⟨⟨Nat.zero_le _, Nat.not_le.mp htall⟩, hne⟩

theorem pageCount_le_of_sz_le {sz : ℕ} (h : sz ≤ trapframeVa) : pageCount sz ≤ shmPage + 1 := by
  rw [layout.1, pageCount_le_iff]
  exact h

/-- With arguments that pass the tests, `kclone` makes a thread if there is room. The
thread starts with the registers that the arguments say. -/
theorem kclone_made (kv : Kernel) (g : Globals) (m : Machine σ nproc) (S : Supplied supply)
    {fcn stack returnaddr : ℕ} (arg : ℕ)
    (hargs : kcloneArgs p fcn stack returnaddr = .ok true) (hsz : p.sz ≤ trapframeVa) :
    Yields (fun _ => True) (kclone kv g m p fcn arg stack returnaddr) fun r =>
      (r.2 ≠ none ↔ Room supply m p) ∧ ∀ j, r.2 = some j → ShmApart p ∧
        ∃ np, r.1.proc j = some np ∧ np.regs = ⟨fcn, returnaddr, stack / 16 * 16, arg⟩ := by
  have hlay := layout
  have hpages := pageCount_le_of_sz_le hsz
  rw [kclone, hargs, yields_ok_bind, if_neg (by decide)]
  cases hj : findUnused m with
  | none =>
      refine ⟨⟨fun hne => absurd rfl hne, fun hroom => ?_⟩, fun j hj => nomatch hj⟩
      exact absurd hroom.1 (findUnused_eq_none_iff.mp hj)
  | some j =>
      dsimp only
      have hslot : ∃ j, m.proc j = none := ⟨j, proc_of_findUnused hj⟩
      apply (allocproc_supply S m.mem).bind
      intro r hr
      obtain ⟨hiff, hok⟩ := hr
      cases hnp : r.2 with
      | none =>
          rw [hnp] at hiff
          refine ⟨⟨fun hne => absurd rfl hne, fun hroom => ?_⟩, fun j hj => nomatch hj⟩
          have hmono : tableCount fixedPages ≤
              tableCount (fixedPages ∪ mappedPages p.pagetable.leaf 0 (pageCount p.sz)) :=
            tableCount_mono Finset.subset_union_left
          have henough := hroom.2
          rw [tableCount_fixedPages] at hmono
          unfold threadPages at henough
          exact absurd rfl (hiff.mpr (by omega))
      | some np =>
          obtain ⟨hsupply, hspans⟩ := hok np hnp
          apply (uvmshare_supply S g.shmPagePa p.pagetable r.1 np.2 (by omega) hspans).bind
          intro c hc
          obtain ⟨hshares, hall⟩ := hc
          have hcovers : c.2.2 = true ↔ threadPages p ≤ supply m.mem := by
            rw [hshares, tableCount_fixedPages]
            unfold threadPages
            omega
          cases hshare : c.2.2 with
          | false =>
              rw [if_pos rfl]
              apply (yields_true _).bind
              intro s' _
              refine ⟨⟨fun hne => absurd rfl hne, fun hroom => ?_⟩, fun j hj => nomatch hj⟩
              rw [hcovers.mpr hroom.2] at hshare
              cases hshare
          | true =>
              rw [if_neg (by decide)]
              apply (cloneShm_supply S (hall hshare).spans Finset.subset_union_left).bind
              intro f hf
              obtain ⟨htrue, hhole⟩ := hf
              rw [htrue, if_neg (by decide), yields_pure]
              refine ⟨⟨fun _ => ⟨hslot, hcovers.mp hshare⟩, fun _ => Option.some_ne_none _⟩, ?_⟩
              intro i hi
              cases hi
              exact ⟨shmApart_of_mapsAll (hall hshare) hhole, _, put_proc_self .., rfl⟩

/-- With arguments that pass the tests, `kclone` returns, unless there is room and a page
below the size lies at `SHM_VA`. -/
theorem kclone_returns (kv : Kernel) (B : Books allowed g.shmPagePa R) (S : Supplied supply)
    {fcn stack returnaddr : ℕ} (arg : ℕ)
    (hargs : kcloneArgs p fcn stack returnaddr = .ok true)
    (hsz : p.sz ≤ trapframeVa)
    (hheld : ∀ v < shmPage, ∀ e, p.pagetable.leaf v = some e → 0 < user e.pa)
    (hb : R m.mem user owned) (hclear : Room supply m p → ShmApart p) :
    Yields allowed (kclone kv g m p fcn arg stack returnaddr) fun _ => True := by
  have hlay := layout
  have hpages := pageCount_le_of_sz_le hsz
  rw [kclone, hargs, yields_ok_bind, if_neg (by decide)]
  cases hj : findUnused m with
  | none => trivial
  | some j =>
      dsimp only
      have hslot : ∃ j, m.proc j = none := ⟨j, proc_of_findUnused hj⟩
      apply ((allocproc_spec B hb).and (allocproc_supply S m.mem)).bind
      intro r hr
      obtain ⟨⟨_, hok⟩, _, hpaid⟩ := hr
      cases hnp : r.2 with
      | none => trivial
      | some np =>
          obtain ⟨hR, hfixed⟩ := hok np hnp
          obtain ⟨hsupply, hspans⟩ := hpaid np hnp
          have hclear' : pageCount p.sz ≤ shmPage ∨ p.pagetable.leaf shmPage = none ∨
              supply r.1 + tableCount fixedPages <
                tableCount (fixedPages ∪ mappedPages p.pagetable.leaf 0 (pageCount p.sz)) := by
            by_cases henough : threadPages p ≤ supply m.mem
            · rcases hclear ⟨hslot, henough⟩ with hfits | hnone
              · exact Or.inl (pageCount_le_shmPage hfits)
              · exact Or.inr (Or.inl hnone)
            · right
              right
              unfold threadPages at henough
              rw [tableCount_fixedPages]
              omega
          apply ((uvmshare_fixed B S hpages hclear' hheld hfixed hspans hR).and
            (uvmshare_supply S g.shmPagePa p.pagetable r.1 np.2 (by omega) hspans)).bind
          intro c hc
          obtain ⟨⟨hR', hfail, hhole⟩, _, hall⟩ := hc
          cases hshare : c.2.2 with
          | false =>
              rw [if_pos rfl]
              apply (freeproc_fixed B (by omega) (hfail hshare) hR').bind
              intro s' _
              trivial
          | true =>
              rw [if_neg (by decide)]
              apply ((cloneShm_returns B hhole hR').and
                (cloneShm_supply S (hall hshare).spans Finset.subset_union_left)).bind
              intro f hf
              rw [hf.2.1, if_neg (by decide)]
              trivial

end Made

/-! ## What the tests let through -/

section Validates

variable {nproc : ℕ} {g : Globals} {m : Machine Kmem nproc} {p : Space} {kernelEnd : ℕ}
  {reserved user owned : ℕ → ℕ} {fcn arg stack returnaddr : ℕ}

/-- `sp - 1` in `uint64` arithmetic. -/
def byteBelow (sp : ℕ) : ℕ := (sp + 2 ^ 64 - 1) % 2 ^ 64

/-- `kclone` has returned, and if it has made a thread, then `fcn` and `returnaddr` are on
executable user pages of `p`, and the byte below the thread's stack pointer is on a
writable one. -/
def Validates (p : Space) (fcn returnaddr : ℕ)
    (r : Except Panic (Machine Kmem nproc × Option (Fin nproc))) : Prop :=
  Yields (fun _ => False) r fun r => ∀ j ∈ r.2,
    UserPage p.pagetable fcn Perm.x ∧ UserPage p.pagetable returnaddr Perm.x ∧
      ∃ np ∈ r.1.proc j, UserPage p.pagetable (byteBelow np.regs.sp) Perm.w

instance (p : Space) (fcn returnaddr : ℕ)
    (r : Except Panic (Machine Kmem nproc × Option (Fin nproc))) :
    Decidable (Validates p fcn returnaddr r) :=
  inferInstanceAs (Decidable (Yields _ _ fun _ => ∀ _ ∈ _, _))

/-- Rounding `stack` down leaves the page of the byte below it, or it leads to a user page
that is writable too. -/
def StackKept (pt : PageTable) (stack : ℕ) : Prop :=
  16 ≤ stack ∧ (stack % pgSize = 0 ∨ 16 ≤ stack % pgSize ∨
    UserPage pt (stack / pgSize * pgSize - 1) Perm.w)

/-- What `kclone` finds when `p` calls it: the books of the allocator balance and count the
user pages of `p`, and the size ends at `TRAPFRAME` or before, which `growproc` and
`sys_sbrk` see to. -/
structure Caller (kernelEnd : ℕ) (reserved user owned : ℕ → ℕ) (g : Globals)
    (m : Machine Kmem nproc) (p : Space) : Prop where
  kernBase_le : kernBase ≤ kernelEnd
  shm_reserved : 0 < reserved g.shmPagePa
  books : Kmem.Balanced kernelEnd reserved m.mem user owned
  sz_le : p.sz ≤ trapframeVa
  held : ∀ v < shmPage, ∀ e, p.pagetable.leaf v = some e → 0 < user e.pa

theorem Caller.of_inv {i : Fin nproc} (hend : kernBase ≤ kernelEnd)
    (hshm : 0 < reserved g.shmPagePa) (h : Inv (Kmem.Balanced kernelEnd reserved) g m)
    (hp : m.proc i = some p) : Caller kernelEnd reserved m.user m.owned g m p := by
  refine ⟨hend, hshm, h.books, ?_, fun v hv e he => user_pos hp hv he⟩
  exact ((h.spaces i p hp).sz_le).trans (by decide)

theorem lt_maxVa_iff {va : ℕ} : va < maxVa ↔ va / pgSize < maxPage := by
  constructor
  · exact div_lt_maxPage
  · intro h
    have hmax : maxVa = maxPage * pgSize := by decide
    rw [hmax, ← Nat.div_lt_iff_lt_mul (by decide)]
    exact h

theorem userPage_congr {pt : PageTable} {va va' : ℕ} {bit : Perm → Bool}
    (h : va / pgSize = va' / pgSize) : UserPage pt va bit ↔ UserPage pt va' bit := by
  unfold UserPage
  rw [lt_maxVa_iff, lt_maxVa_iff, h]

theorem stackKept_iff (h : Tested p fcn stack) :
    UserPage p.pagetable (byteBelow (stack / 16 * 16)) Perm.w ↔ StackKept p.pagetable stack := by
  have hne := h.stack_ne
  have hmax : stack - 1 < 2 ^ 38 := h.stack_page.1
  unfold StackKept
  by_cases hlow : 16 ≤ stack
  · have hbelow : byteBelow (stack / 16 * 16) = stack / 16 * 16 - 1 := by
      unfold byteBelow
      omega
    rw [hbelow, and_iff_right hlow]
    by_cases hin : stack % pgSize = 0 ∨ 16 ≤ stack % pgSize
    · have hpage : (stack / 16 * 16 - 1) / pgSize = (stack - 1) / pgSize := by
        unfold pgSize at hin ⊢
        omega
      rw [userPage_congr hpage]
      constructor
      · intro _
        exact hin.elim Or.inl fun hle => Or.inr (Or.inl hle)
      · intro _
        exact h.stack_page
    · rw [not_or] at hin
      have hpage : (stack / 16 * 16 - 1) / pgSize = (stack / pgSize * pgSize - 1) / pgSize := by
        unfold pgSize at hin ⊢
        omega
      rw [userPage_congr hpage, or_iff_right hin.1, or_iff_right hin.2]
  · -- the stack pointer is `0`, and the byte below it is the last of the address space
    have hzero : stack / 16 * 16 = 0 := by omega
    rw [hzero]
    constructor
    · intro hpage
      exact absurd hpage.1 (by decide)
    · intro hkept
      exact absurd hkept.1 hlow

theorem kclone_rejects (hargs : kcloneArgs p fcn stack returnaddr = .ok false) :
    Validates p fcn returnaddr (kclone .assignment7 g m p fcn arg stack returnaddr) := by
  have hr : kclone .assignment7 g m p fcn arg stack returnaddr = .ok (m, none) := by
    rw [kclone, hargs]
    rfl
  rw [hr]
  exact fun j hj => nomatch hj

/-- When all tests have passed, the rest is up to the page of `returnaddr`, the rounding of
`stack` and the page at `SHM_VA`, if there is room for the thread. -/
theorem validates_of_accepted (hc : Caller kernelEnd reserved user owned g m p)
    (htested : Tested p fcn stack)
    (hargs : kcloneArgs p fcn stack returnaddr = .ok true) :
    Validates p fcn returnaddr (kclone .assignment7 g m p fcn arg stack returnaddr) ↔
      (Room Kmem.supply m p → UserPage p.pagetable returnaddr Perm.x ∧
        StackKept p.pagetable stack ∧ ShmApart p) := by
  have hmade := kclone_made .assignment7 g m Kmem.supplied arg hargs hc.sz_le
  by_cases hclear : Room Kmem.supply m p → ShmApart p
  · have B : Books (fun _ => False) g.shmPagePa (Kmem.Balanced kernelEnd reserved) :=
      Kmem.books _ hc.kernBase_le hc.shm_reserved
    obtain ⟨r, hr, _, hiff, hthread⟩ := ((kclone_returns .assignment7 B Kmem.supplied arg hargs
      hc.sz_le hc.held hc.books hclear).and hmade).exists_eq_ok
    rw [hr, Validates, yields_ok, ← hiff, Option.ne_none_iff_exists']
    constructor
    · rintro h ⟨j, hj⟩
      obtain ⟨_, hret, np, hnp, hsp⟩ := h j hj
      obtain ⟨hapart, np', hnp', hregs⟩ := hthread j hj
      cases hnp.symm.trans hnp'
      rw [hregs] at hsp
      exact ⟨hret, (stackKept_iff htested).mp hsp, hapart⟩
    · intro h j hj
      obtain ⟨hret, hkept, _⟩ := h ⟨j, hj⟩
      obtain ⟨_, np, hnp, hregs⟩ := hthread j hj
      refine ⟨htested.fcn_page, hret, np, hnp, ?_⟩
      rw [hregs]
      exact (stackKept_iff htested).mpr hkept
  · rw [Classical.not_imp] at hclear
    obtain ⟨hroom, hmapped⟩ := hclear
    constructor
    · intro h
      obtain ⟨r, hr, _⟩ := h.exists_eq_ok
      rw [hr] at hmade
      obtain ⟨j, hj⟩ := Option.ne_none_iff_exists'.mp (hmade.1.mpr hroom)
      exact absurd (hmade.2 j hj).1 hmapped
    · intro h
      exact absurd (h hroom).2.2 hmapped

/-- `kclone` returns and lets only good arguments through if and only if, for arguments
whose `fcn` and `stack` pass its tests: `returnaddr` is below `MAXVA`; and if it is on an
executable page and there is room for the thread, then that page is a user page, rounding
`stack` down does not leave the writable user pages, and no page of the caller below its
size is at `SHM_VA`. -/
theorem kclone_validates_iff (hc : Caller kernelEnd reserved user owned g m p) :
    Validates p fcn returnaddr (kclone .assignment7 g m p fcn arg stack returnaddr) ↔
      (Tested p fcn stack → returnaddr < maxVa ∧
        ∀ e ∈ p.pagetable.leaf (returnaddr / pgSize), e.perm.x = true → Room Kmem.supply m p →
          e.perm.u = true ∧ StackKept p.pagetable stack ∧ ShmApart p) := by
  rcases kcloneArgs_cases p fcn stack returnaddr with ⟨htested, hargs⟩ | ⟨htested, hargs⟩
  · rw [imp_iff_right htested]
    by_cases hva : returnaddr < maxVa
    · rw [hasBit_eq _ hva] at hargs
      rw [and_iff_right hva]
      cases he : p.pagetable.leaf (returnaddr / pgSize) with
      | none =>
          rw [he] at hargs
          exact iff_of_true (kclone_rejects hargs) fun e hmem => nomatch hmem
      | some e =>
          rw [he] at hargs
          cases hx : e.perm.x with
          | false =>
              rw [Option.elim_some, hx] at hargs
              refine iff_of_true (kclone_rejects hargs) ?_
              intro e' hmem hx'
              cases hmem
              rw [hx] at hx'
              cases hx'
          | true =>
              rw [Option.elim_some, hx] at hargs
              rw [validates_of_accepted hc htested hargs]
              have hpage : UserPage p.pagetable returnaddr Perm.x ↔ e.perm.u = true := by
                constructor
                · rintro ⟨_, e', hmem, hu, _⟩
                  cases he.symm.trans hmem
                  exact hu
                · intro hu
                  exact ⟨hva, e, he, hu, hx⟩
              rw [hpage]
              constructor
              · intro h e' hmem _
                cases hmem
                exact h
              · intro h
                exact h e rfl hx
    · have hr : kclone .assignment7 g m p fcn arg stack returnaddr = .error .walk := by
        rw [kclone, hargs, hasBit_panics _ (Nat.not_lt.mp hva)]
        rfl
      rw [hr]
      exact iff_of_false (fun h => h) fun h => hva h.1
  · exact iff_of_true (kclone_rejects hargs) fun h => absurd h htested

end Validates

/-! ## Calls of the first process -/

/-- The first process has one page, for code, data and stack. It calls `kclone` with
`returnaddr` at `MAXVA` and on the trampoline, and with a stack of eight bytes. -/
theorem bootImage_badClones : Yields (fun _ => False)
    (bootImage (physTop - 20 * pgSize) kernBase []) fun r => ∃ x ∈ r, ∃ p ∈ x.2.proc 0,
      Yields (fun e => e = .walk) (kclone .assignment7 x.1 x.2 p 0 0 pgSize maxVa)
        (fun _ => False) ∧
      ¬ Validates p 0 trampolineVa (kclone .assignment7 x.1 x.2 p 0 0 pgSize trampolineVa) ∧
      ¬ Validates p 0 0 (kclone .assignment7 x.1 x.2 p 0 0 8 0) := by
  decide +kernel

/-- From boot, a call of `kclone` panics, one makes a thread that returns to the trampoline,
and one makes a thread whose stack pointer is `0`. -/
theorem kclone_not_validates : ∃ (g : Globals) (m : Machine Kmem 2) (p : Space),
    Boot g {g.shmPagePa} m ∧ m.proc 0 = some p ∧
      kclone .assignment7 g m p 0 0 pgSize maxVa = .error .walk ∧
      ¬ Validates p 0 maxVa (kclone .assignment7 g m p 0 0 pgSize maxVa) ∧
      ¬ Validates p 0 trampolineVa (kclone .assignment7 g m p 0 0 pgSize trampolineVa) ∧
      ¬ Validates p 0 0 (kclone .assignment7 g m p 0 0 8 0) := by
  obtain ⟨x, hb, p, hp, hpanic, htramp, hlow⟩ := exists_boot bootImage_badClones
  have herror := hpanic.eq_error
  refine ⟨x.1, x.2, p, hb, hp, herror, ?_, htramp, hlow⟩
  rw [herror]
  exact fun h => h

/-- The same process calls `kclone` with `fcn` and `returnaddr` on its page and the end of the
page as the stack. -/
theorem bootImage_goodClone : Yields (fun _ => False)
    (bootImage (physTop - 20 * pgSize) kernBase []) fun r => ∃ x ∈ r, ∃ p ∈ x.2.proc 0,
      (∀ e ∈ p.pagetable.leaf 0, e.perm.u = true) ∧
      Yields (fun _ => False) (kclone .assignment7 x.1 x.2 p 0 0 pgSize 0)
        fun r => r.2 = some 1 := by
  decide +kernel

/-- Its thread has a stack on a writable user page. -/
theorem kclone_validates_onePage : ∃ (g : Globals) (m m' : Machine Kmem 2) (p np : Space),
    Boot g {g.shmPagePa} m ∧ m.proc 0 = some p ∧
      kclone .assignment7 g m p 0 0 pgSize 0 = .ok (m', some 1) ∧ m'.proc 1 = some np ∧
      UserPage p.pagetable (byteBelow np.regs.sp) Perm.w := by
  obtain ⟨x, hb, p, hp, huser, hclone⟩ := exists_boot bootImage_goodClone
  have hc := Caller.of_inv hb.kernBase_le (by simp [reservedCount]) hb.inv hp
  have hvalid : Validates p 0 0 (kclone .assignment7 x.1 x.2 p 0 0 pgSize 0) := by
    apply (kclone_validates_iff hc).mpr
    intro _
    refine ⟨by decide, fun e he _ _ => ⟨huser e he, ⟨by decide, Or.inl (by decide)⟩, ?_⟩⟩
    exact Or.inl (hb.spaces 0 p hp).sz_le
  obtain ⟨⟨m', j⟩, hr, hj⟩ := hclone.exists_eq_ok
  cases hj
  obtain ⟨_, _, np, hnp, hsp⟩ := hvalid.of_eq_ok hr 1 rfl
  exact ⟨x.1, x.2, m', p, np, hb, hp, hr, hnp, hsp⟩

end Memory
