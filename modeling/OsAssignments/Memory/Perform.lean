import OsAssignments.Memory.Invariant

/-!
# The system calls keep the invariant

The specification of each system call and of the page fault names the new contents
of the slot it works on; `perform_spec` puts them together, and says with
`Performed` all that an action can do. What it needs of the machine is that the
books balance and that the slot of the action is well mapped. The panics a call may
end in are listed by `Permits`; `mappages` may meet a mapped page only when `sbrk`
asks for the page at `SHM_VA`.
-/

namespace Memory

open Outcome RefPool RadixTree

theorem kexit_spec {σ : Type} {nproc : ℕ} {allowed : Panic → Prop}
    {R : σ → (ℕ → ℕ) → (ℕ → ℕ) → Prop} {m : Machine σ nproc} {i : Fin nproc} {p : Space}
    (hinit : allowed .initExiting)
    (hb : R m.mem m.user m.owned) (hp : m.proc i = some p) :
    Yields allowed (kexit m i p) (Replaced R m i { p with zombie := true }) := by
  have hbooks := Machine.books_off hb hp
  unfold kexit
  apply Yields.ite
  · intro _
    exact hinit
  · intro _
    exact ⟨m.mem, rfl, fun _ => hbooks⟩

section Steps

open Machine

variable {σ : Type} [PageAllocator σ] {nproc : ℕ} {allowed : Panic → Prop} {g : Globals}
  {R : σ → (ℕ → ℕ) → (ℕ → ℕ) → Prop} {kv : Kernel} {m : Machine σ nproc} {i : Fin nproc}
  {p : Space}

theorem growproc_spec (B : Books allowed g.shmPagePa R) (n : ℤ)
    (K : kv.Spares allowed (n < 0 →
      NoHole p.pagetable.leaf (pageCount (addSz p.sz n)) (pageCount p.sz)))
    (lazy : Bool) (hlazy : lazy = false ∨ n < 0) (hb : R m.mem m.user m.owned)
    (hwell : p.WellMapped g) (hp : m.proc i = some p)
    (hremap : Within p.sz n ∨ allowed .mappagesRemap) :
    Yields allowed (growproc kv g m i p n) fun r =>
      ∃ q, Resized p n lazy q ∧ Replaced R m i q r.1 := by
  have hpages := pageCount_le_shmPage hwell.sz_le
  have hbooks := Machine.books_off hb hp
  have hsame : ∃ q, Resized p n lazy q ∧ Replaced R m i q m :=
    ⟨p, .same p.pagetable rfl, .refl hb hp⟩
  unfold growproc
  apply Yields.ite
  · intro hpos
    apply Yields.ite
    · intro _
      exact hsame
    · intro htop
      by_cases hlt : addSz p.sz n < p.sz
      · -- the sum has wrapped, and `uvmalloc` returns the old size
        rw [uvmalloc, if_pos hlt, yields_pure_bind]
        apply Yields.ite
        · intro _
          exact ⟨_, .same p.pagetable rfl, m.mem, rfl, fun _ => hbooks⟩
        · intro _
          exact ⟨_, .same p.pagetable rfl, m.mem, rfl, fun _ => hbooks⟩
      · have hle := Nat.not_lt.mp hlt
        have htop' : pageCount (addSz p.sz n) ≤ shmPage + 1 := by
          rw [layout.1, pageCount_le_iff]
          exact Nat.not_lt.mp htop
        have hremap' : pageCount (addSz p.sz n) ≤ shmPage ∨ allowed .mappagesRemap := by
          rcases hremap with hwithin | hallowed
          · exact Or.inl (pageCount_le_shmPage ((hwithin hpos).resolve_right htop))
          · exact Or.inr hallowed
        apply (uvmalloc_spec B hle htop' hremap' hpages hwell.shape.hole hbooks).bind
        intro r hr
        obtain ⟨hret, hfail, hok⟩ := hr
        apply Yields.ite
        · intro hzero
          obtain ⟨hR, hleaf⟩ := hfail hzero
          exact ⟨_, .same r.2.1 hleaf, r.1, rfl, fun _ => hR⟩
        · intro hne
          have hsz := hret.resolve_left hne
          rw [hsz]
          have heager : lazy = false := hlazy.resolve_right (by omega)
          refine ⟨_, .grown r.2.1 hpos heager (Nat.not_lt.mp htop) hle ?_, r.1, rfl, ?_⟩
          · intro hfit
            exact (hok hne (pageCount_le_shmPage hfit)).2
          · intro hfit
            exact (hok hne (pageCount_le_shmPage hfit)).1
  · intro _
    apply Yields.ite
    · intro hneg
      apply (uvmdealloc_spec B (K.imp fun hall => hall hneg) hpages hbooks).bind
      intro r hr
      obtain ⟨hR, hleaf, hsz⟩ := hr
      rw [yields_pure, hsz]
      exact ⟨_, .shrunk r.2.1 hneg hleaf, r.1, rfl, fun _ => hR⟩
    · intro _
      exact hsame

theorem sysSbrk_spec (B : Books allowed g.shmPagePa R) (n : ℤ)
    (K : kv.Spares allowed (n < 0 →
      NoHole p.pagetable.leaf (pageCount (addSz p.sz n)) (pageCount p.sz)))
    (lazy : Bool) (hb : R m.mem m.user m.owned) (hwell : p.WellMapped g)
    (hp : m.proc i = some p) (hremap : Within p.sz n ∨ allowed .mappagesRemap) :
    Yields allowed (sysSbrk kv g m i p n lazy) fun r =>
      ∃ q, Resized p n lazy q ∧ Replaced R m i q r.1 := by
  unfold sysSbrk
  apply Yields.ite
  · intro heager
    apply (growproc_spec B n K lazy heager hb hwell hp hremap).bind
    intro r hr
    exact hr
  · intro hlazy
    apply Yields.ite
    · intro _
      exact ⟨p, .same p.pagetable rfl, .refl hb hp⟩
    · intro hok
      have hn : 0 ≤ n := Int.not_lt.mp fun hneg => hlazy (Or.inr hneg)
      have hle : p.sz ≤ addSz p.sz n := by omega
      have htop : addSz p.sz n ≤ trapframeVa := by omega
      have hbooks := books_off hb hp
      exact ⟨_, .untouched hn htop hle, m.mem, rfl, fun _ => hbooks⟩

theorem pageFault_spec (B : Books allowed g.shmPagePa R) (va : ℕ) (hb : R m.mem m.user m.owned)
    (hwell : p.WellMapped g) (hp : m.proc i = some p) :
    Yields allowed (pageFault m i p va) fun m' => ∃ q, Faulted p va q ∧ Replaced R m i q m' := by
  have hpages := pageCount_le_shmPage hwell.sz_le
  unfold pageFault
  apply (vmfault_spec B hpages (books_off hb hp)).bind
  intro r hr
  obtain ⟨hR, hleaf⟩ := hr
  rw [yields_pure]
  rcases hleaf with hleaf | ⟨hva, hnone, pa, hleaf⟩
  · exact ⟨_, .same r.2.1 hleaf, r.1, rfl, fun _ => hR⟩
  · exact ⟨_, .filled r.2.1 pa hva hnone hleaf, r.1, rfl, fun _ => hR⟩

/-- `mappages` at `SHM_VA` where nothing is mapped: the user pages stay, and the
shared page is mapped unless `kalloc` fails. -/
theorem mappages_shm (B : Books allowed g.shmPagePa R) {s : σ} {pt : PageTable} {pa : ℕ}
    {perm : Perm} {user owned : ℕ → ℕ} (hnone : pt.leaf shmPage = none)
    (h : R s (user + userCount pt.leaf) (owned + pt.pages)) :
    Yields allowed (mappages s pt shmVa pgSize pa perm) fun r =>
      R r.1 (user + userCount r.2.1.leaf) (owned + r.2.1.pages) ∧
        r.2.1.leaf = if r.2.2 then Function.update pt.leaf shmPage (some ⟨pa, perm⟩)
          else pt.leaf := by
  have hmax := shmPage_lt
  apply (mappages_spec B hmax (fun hne => absurd hnone hne) h).mono
  intro r hr
  obtain ⟨hR, hleaf⟩ := hr
  refine ⟨?_, hleaf⟩
  rw [userCount_above (f := pt.leaf)]
  · exact hR
  · intro v hv
    rw [hleaf]
    split_ifs
    · exact Function.update_of_ne (Nat.ne_of_lt hv) ..
    · rfl

theorem sysShmGet_spec (B : Books allowed g.shmPagePa R) (hb : R m.mem m.user m.owned)
    (hp : m.proc i = some p) :
    Yields allowed (sysShmGet g m i p) fun r =>
      ∃ q, GotShm g p q r.2 ∧ Replaced R m i q r.1 := by
  have hmax := shmPage_lt
  cases he : p.pagetable.leaf shmPage with
  | some e =>
      rw [sysShmGet, shmVa, walk_of_leaf hmax he, yields_ok_bind]
      exact ⟨p, .mapped (by rw [he]; simp), .refl hb hp⟩
  | none =>
      have hmap : sysShmGet g m i p = mappages m.mem p.pagetable shmVa pgSize g.shmPagePa
          (userPerm true false) >>= fun r =>
            pure (m.put r.1 i (some { p with pagetable := r.2.1 }),
              if r.2.2 then some shmVa else none) := by
        rcases walk_of_hole hmax he with hw | hw
        · rw [sysShmGet, shmVa, hw]
          rfl
        · rw [sysShmGet, shmVa, hw]
          rfl
      rw [hmap]
      apply (mappages_shm B he (books_off hb hp)).bind
      intro r hr
      obtain ⟨hR, hleaf⟩ := hr
      rw [yields_pure]
      cases hok : r.2.2 with
      | true =>
          rw [hok, if_pos rfl] at hleaf
          exact ⟨_, .maps r.2.1 he hleaf, r.1, rfl, fun _ => hR⟩
      | false =>
          rw [hok, if_neg (by decide)] at hleaf
          exact ⟨_, .fails r.2.1 he hleaf, r.1, rfl, fun _ => hR⟩

/-! ## New processes and threads -/

theorem forkShm_spec (B : Books allowed g.shmPagePa R) {s : σ} {parent child : PageTable}
    {tf sz : ℕ} {user owned : ℕ → ℕ} (hs : Shape g tf sz child.leaf)
    (hnone : child.leaf shmPage = none)
    (h : R s (user + userCount child.leaf) (owned + child.pages)) :
    Yields allowed (forkShm g s parent child) fun r =>
      R r.1 (user + userCount r.2.leaf) (owned + r.2.pages) ∧ Shape g tf sz r.2.leaf ∧
        ∀ v < shmPage, r.2.leaf v = child.leaf v := by
  have hmax := shmPage_lt
  cases he : parent.leaf shmPage with
  | none =>
      have hr : forkShm g s parent child = .ok (s, child) := by
        rcases walk_of_hole hmax he with hw | hw
        · rw [forkShm, shmVa, hw]
          rfl
        · rw [forkShm, shmVa, hw]
          rfl
      rw [hr, yields_ok]
      exact ⟨h, hs, fun _ _ => rfl⟩
  | some e =>
      rw [forkShm, shmVa, walk_of_leaf hmax he, yields_ok_bind]
      apply (mappages_shm B hnone h).bind
      intro r hr
      obtain ⟨hR, hleaf⟩ := hr
      rw [yields_pure]
      cases hok : r.2.2 with
      | true =>
          rw [hok, if_pos rfl] at hleaf
          refine ⟨hR, hs.withShm rfl hleaf, ?_⟩
          intro v hv
          rw [hleaf, Function.update_of_ne (Nat.ne_of_lt hv)]
      | false =>
          rw [hok, if_neg (by decide)] at hleaf
          rw [hleaf]
          rw [hleaf] at hR
          exact ⟨hR, hs, fun _ _ => rfl⟩

/-- In a fork of the process `p`, `uvmcopy` fails at no page above one of its holes. -/
def ForkWhole (kv : Kernel) (g : Globals) (m : Machine σ nproc) (p : Space) : Prop :=
  findUnused m ≠ none → ∀ s' np, allocproc kv g m.mem = .ok (s', some np) →
    ∀ i ∈ uvmcopyErr p.pagetable (pageCount p.sz) s' np.2 0, NoHole p.pagetable.leaf 0 i

theorem kfork_spec_of_books (B : Books allowed g.shmPagePa R) {user owned : ℕ → ℕ}
    (K : kv.Spares allowed (ForkWhole kv g m p)) (hb : R m.mem user owned)
    (hwell : p.WellMapped g) :
    Yields allowed (kfork kv g m p) (SpawnedOver R user owned g m (Offspring SamePerm p)) := by
  have hpages := pageCount_le_shmPage hwell.sz_le
  have hlay := layout
  unfold kfork
  cases hj : findUnused m with
  | none => exact .fails m.mem hb
  | some j =>
      dsimp only
      have halloc : Yields allowed (allocproc kv g m.mem) _ := allocproc_spec B hb
      cases ha : allocproc kv g m.mem with
      | error x =>
          rw [ha] at halloc
          exact halloc
      | ok r =>
          rw [ha] at halloc
          obtain ⟨hfail, hok⟩ := halloc
          rw [yields_ok_bind]
          cases hnp : r.2 with
          | none => exact .fails r.1 (hfail hnp)
          | some np =>
              obtain ⟨hR, hfixed⟩ := hok np hnp
              have hhole : ∀ v < shmPage, np.2.leaf v = none := by
                intro v hv
                rw [hfixed]
                exact fixedLeaves_of_lt g np.1 (by omega)
              have hr : allocproc kv g m.mem = .ok (r.1, some np) := by rw [ha, ← hnp]
              have hunused : findUnused m ≠ none := by
                rw [hj]
                exact Option.some_ne_none j
              apply (uvmcopy_spec B (K.imp fun hall => hall hunused r.1 np hr) hpages hhole hR).bind
              intro c hc
              obtain ⟨hR', hclear, hfollows⟩ := hc
              cases hcok : c.2.2 with
              | false =>
                  rw [if_pos rfl]
                  have hleaf := hclear hcok
                  rw [clearRange_self, hfixed] at hleaf
                  have hempty : kv.Spares allowed (NoHole c.2.1.leaf 0 (pageCount 0)) :=
                    Kernel.spares_of fun v _ hv => absurd hv (Nat.not_lt_zero v)
                  apply (freeproc_spec B false (fun _ => hempty) (by decide)
                    (hleaf ▸ fixedLeaves_shape g np.1) hR').bind
                  intro s' hs'
                  exact .fails s' hs'
              | true =>
                  rw [if_neg (by decide)]
                  have hf := hfollows hcok
                  rw [hfixed] at hf
                  have hnone : c.2.1.leaf shmPage = none := by
                    rw [hf.outside shmPage (Or.inr hpages)]
                    exact fixedLeaves_of_lt g np.1 (by omega)
                  apply (forkShm_spec B (hf.shape hpages) hnone hR').bind
                  intro f hfs
                  obtain ⟨hR'', hshape, hbelow⟩ := hfs
                  rw [yields_pure]
                  exact .creates f.1 j _ (proc_of_findUnused hj) hR'' ⟨hwell.sz_le, hshape⟩
                    (hf.offspring hwell rfl rfl hbelow)

theorem kfork_spec (B : Books allowed g.shmPagePa R)
    (K : kv.Spares allowed (ForkWhole kv g m p)) (hb : R m.mem m.user m.owned)
    (hwell : p.WellMapped g) :
    Yields allowed (kfork kv g m p) (Spawned R g m (Offspring SamePerm p)) :=
  (kfork_spec_of_books B K hb hwell).mono fun _ hr => hr.spawned

theorem walkaddr_yields (pt : PageTable) (va : ℕ) :
    Yields allowed (walkaddr pt va) fun _ => True := by
  unfold walkaddr walk
  by_cases hva : va ≥ maxVa
  · rw [if_pos hva]
    trivial
  · rw [if_neg hva, if_neg hva, yields_pure_bind]
    split
    · trivial
    · trivial

theorem hasBit_yields (hwalk : allowed .walk) (pt : PageTable) (va : ℕ) (bit : Perm → Bool) :
    Yields allowed (hasBit pt va bit) fun _ => True := by
  unfold hasBit walk
  by_cases hva : va ≥ maxVa
  · rw [if_pos hva]
    exact hwalk
  · rw [if_neg hva, yields_pure_bind]
    split
    · trivial
    · trivial

/-- The tests of `kclone` may panic only in `walk`. -/
theorem kcloneArgs_yields (hwalk : allowed .walk) (p : Space) (fcn stack returnaddr : ℕ) :
    Yields allowed (kcloneArgs p fcn stack returnaddr) fun _ => True := by
  unfold kcloneArgs
  apply Yields.ite
  · intro _
    trivial
  · intro _
    apply (walkaddr_yields _ _).bind
    intro a _
    apply Yields.ite
    · intro _
      trivial
    · intro _
      apply (walkaddr_yields _ _).bind
      intro b _
      apply Yields.ite
      · intro _
        trivial
      · intro _
        apply (hasBit_yields hwalk _ _ _).bind
        intro x _
        apply Yields.ite
        · intro _
          trivial
        · intro _
          apply (hasBit_yields hwalk _ _ _).bind
          intro w _
          apply Yields.ite
          · intro _
            trivial
          · intro _
            exact hasBit_yields hwalk _ _ _

theorem cloneShm_hole {parent : PageTable} (he : parent.leaf shmPage = none) (s : σ)
    (child : PageTable) : cloneShm s parent child = .ok (s, child, true) := by
  rcases walk_of_hole shmPage_lt he with hw | hw
  · rw [cloneShm, shmVa, hw]
    rfl
  · rw [cloneShm, shmVa, hw]
    rfl

theorem cloneShm_leaf {parent : PageTable} {e : Pte} (he : parent.leaf shmPage = some e) (s : σ)
    (child : PageTable) :
    cloneShm s parent child = mappages s child shmVa pgSize e.pa e.perm := by
  rw [cloneShm, shmVa, walk_of_leaf shmPage_lt he]
  rfl

theorem cloneShm_spec (B : Books allowed g.shmPagePa R) {s : σ} {parent child : PageTable}
    {tf sz : ℕ} {user owned : ℕ → ℕ} (hs : Shape g tf sz child.leaf)
    (hnone : child.leaf shmPage = none)
    (hparent : ∀ e, parent.leaf shmPage = some e → e.pa = g.shmPagePa)
    (h : R s (user + userCount child.leaf) (owned + child.pages)) :
    Yields allowed (cloneShm s parent child) fun r =>
      R r.1 (user + userCount r.2.1.leaf) (owned + r.2.1.pages) ∧ Shape g tf sz r.2.1.leaf ∧
        (∀ v < shmPage, r.2.1.leaf v = child.leaf v) ∧
        (r.2.2 = true → r.2.1.leaf shmPage = parent.leaf shmPage) := by
  cases he : parent.leaf shmPage with
  | none =>
      rw [cloneShm_hole he, yields_ok]
      exact ⟨h, hs, fun _ _ => rfl, fun _ => hnone⟩
  | some e =>
      rw [cloneShm_leaf he]
      apply (mappages_shm B hnone h).mono
      intro r hr
      obtain ⟨hR, hleaf⟩ := hr
      cases hok : r.2.2 with
      | true =>
          rw [hok, if_pos rfl] at hleaf
          refine ⟨hR, hs.withShm (hparent e he) hleaf, ?_, ?_⟩
          · intro v hv
            rw [hleaf, Function.update_of_ne (Nat.ne_of_lt hv)]
          · intro _
            rw [hleaf, Function.update_self]
      | false =>
          rw [hok, if_neg (by decide)] at hleaf
          rw [hleaf]
          rw [hleaf] at hR
          exact ⟨hR, hs, fun _ _ => rfl, fun hfalse => absurd hfalse Bool.false_ne_true⟩

theorem kclone_spec_of_books (B : Books allowed g.shmPagePa R) {user owned : ℕ → ℕ}
    {fcn arg stack returnaddr : ℕ}
    (hargs : Yields allowed (kcloneArgs p fcn stack returnaddr) fun _ => True)
    (hb : R m.mem user owned) (hwell : p.WellMapped g)
    (hheld : ∀ v < shmPage, ∀ e, p.pagetable.leaf v = some e → 0 < user e.pa) :
    Yields allowed (kclone kv g m p fcn arg stack returnaddr)
      (SpawnedOver R user owned g m (ThreadOf p)) := by
  have hpages := pageCount_le_shmPage hwell.sz_le
  have hlay := layout
  unfold kclone
  apply hargs.bind
  intro args _
  apply Yields.ite
  · intro _
    exact .fails m.mem hb
  · intro _
    cases hj : findUnused m with
    | none => exact .fails m.mem hb
    | some j =>
        dsimp only
        apply (allocproc_spec B hb).bind
        intro r hr
        obtain ⟨hfail, hok⟩ := hr
        cases hnp : r.2 with
        | none => exact .fails r.1 (hfail hnp)
        | some np =>
            obtain ⟨hR, hfixed⟩ := hok np hnp
            have hhole : ∀ v < shmPage, np.2.leaf v = none := by
              intro v hv
              rw [hfixed]
              exact fixedLeaves_of_lt g np.1 (by omega)
            apply (uvmshare_spec B hpages hheld hhole hR).bind
            intro c hc
            obtain ⟨hR', hclear, hfollows⟩ := hc
            cases hcok : c.2.2 with
            | false =>
                rw [if_pos rfl]
                have hleaf := hclear hcok
                rw [clearRange_self, hfixed] at hleaf
                have hshape : Shape g np.1 p.sz c.2.1.leaf := by
                  rw [hleaf]
                  apply (fixedLeaves_shape g np.1).congr
                  · intro v _ hv
                    exact fixedLeaves_of_lt g np.1 (by omega)
                  · intro v _
                    rfl
                apply (freeproc_spec B true (fun h => nomatch h) hpages hshape hR').bind
                intro s' hs'
                exact .fails s' hs'
            | true =>
                rw [if_neg (by decide)]
                have hf := hfollows hcok
                rw [hfixed] at hf
                have hnone : c.2.1.leaf shmPage = none := by
                  rw [hf.outside shmPage (Or.inr hpages)]
                  exact fixedLeaves_of_lt g np.1 (by omega)
                apply (cloneShm_spec B (hf.shape hpages) hnone hwell.shape.shm hR').bind
                intro f hfs
                obtain ⟨hR'', hshape, hbelow, hshm⟩ := hfs
                apply Yields.ite
                · intro _
                  apply (freeproc_spec B true (fun h => nomatch h) hpages hshape hR'').bind
                  intro s' hs'
                  exact .fails s' hs'
                · intro hok'
                  rw [yields_pure]
                  exact .creates f.1 j _ (proc_of_findUnused hj) hR'' ⟨hwell.sz_le, hshape⟩
                    ⟨hf.offspring hwell rfl rfl hbelow, hshm (Bool.eq_true_of_not_eq_false hok')⟩

theorem kclone_spec (B : Books allowed g.shmPagePa R)
    (hwalk : allowed .walk) (fcn arg stack returnaddr : ℕ) (hb : R m.mem m.user m.owned)
    (hwell : p.WellMapped g) (hp : m.proc i = some p) :
    Yields allowed (kclone kv g m p fcn arg stack returnaddr) (Spawned R g m (ThreadOf p)) :=
  (kclone_spec_of_books B (kcloneArgs_yields hwalk p fcn stack returnaddr) hb hwell
    fun _ hv _ he => user_pos hp hv he).mono fun _ hr => hr.spawned

/-! ## One action -/

theorem reap_spec (B : Books allowed g.shmPagePa R)
    (K : p.isThread = false → kv.Spares allowed (NoHole p.pagetable.leaf 0 (pageCount p.sz)))
    (hb : R m.mem m.user m.owned) (hwell : p.WellMapped g) (hp : m.proc i = some p) :
    Yields allowed (reap kv g m i p) fun m' =>
      ∃ s, m' = m.put s i none ∧ R s (m.userOff i) (m.ownedOff i) := by
  unfold reap
  apply (freeproc_spec B p.isThread K (pageCount_le_shmPage hwell.sz_le) hwell.shape
    (books_off hb hp)).bind
  intro s hs
  exact ⟨s, rfl, hs⟩

/-- The panics of a single action: `kclone` walks an unchecked return address, `init`
may not exit, and the Assignment 4 kernel unmaps holes. -/
structure Permits (kv : Kernel) (allowed : Panic → Prop) : Prop where
  tolerates : kv.Tolerates allowed
  walk : allowed .walk
  initExiting : allowed .initExiting

/-- An action unmaps no hole: a shrink and the end of an address space meet none, and a
fork fails at no page above one. -/
def Action.Whole (kv : Kernel) (g : Globals) (m : Machine σ nproc) : Action nproc → Prop
  | .sbrk i n _ => ∀ p ∈ m.proc i, p.zombie = false → n < 0 →
      NoHole p.pagetable.leaf (pageCount (addSz p.sz n)) (pageCount p.sz)
  | .fork i => ∀ p ∈ m.proc i, p.zombie = false → ForkWhole kv g m p
  | .reap i => ∀ p ∈ m.proc i, p.zombie = true → p.isThread = false →
      NoHole p.pagetable.leaf 0 (pageCount p.sz)
  | _ => True

theorem perform_spec_of_spares (B : Books allowed g.shmPagePa R) (hwalk : allowed .walk)
    (hinit : allowed .initExiting) (hb : R m.mem m.user m.owned) (a : Action nproc)
    (K : kv.Spares allowed (a.Whole kv g m))
    (hwell : ∀ p, m.proc a.slot = some p → p.WellMapped g)
    (hremap : a.Within m ∨ allowed .mappagesRemap) :
    Yields allowed (perform kv g m a) (Performed R g m a) := by
  cases hp : m.proc a.slot with
  | none =>
      rw [perform_unused hp]
      exact .idle a
  | some p =>
      have hwellp := hwell p hp
      cases hz : p.zombie with
      | true =>
          rw [perform_zombie hp hz]
          cases a with
          | reap i =>
              have K' := fun hthread => K.imp fun hall => hall p hp hz hthread
              apply (reap_spec B K' hb hwellp hp).mono
              intro m' hm'
              obtain ⟨s, rfl, hR⟩ := hm'
              exact .reap s hp hz hR
          | sbrk i n lazy => exact .idle _
          | fault i va => exact .idle _
          | fork i => exact .idle _
          | clone i fcn arg stack returnaddr => exact .idle _
          | shmGet i => exact .idle _
          | exit i => exact .idle _
      | false =>
          rw [perform_live hp hz]
          cases a with
          | reap i => exact .idle _
          | sbrk i n lazy =>
              have hremap' : Within p.sz n ∨ allowed .mappagesRemap :=
                hremap.imp_left fun hw => hw p hp
              apply ((sysSbrk_spec B n (K.imp fun hall => hall p hp hz) lazy hb hwellp hp
                hremap').mono _).map
              intro r hr
              obtain ⟨q, hq, hrep⟩ := hr
              exact .sbrk hp hq hrep
          | fault i va =>
              apply (pageFault_spec B va hb hwellp hp).mono
              intro m' hm'
              obtain ⟨q, hq, hrep⟩ := hm'
              exact .fault hp hq hrep
          | fork i =>
              apply ((kfork_spec B (K.imp fun hall => hall p hp hz) hb hwellp).mono _).map
              intro r hr
              exact .fork hp hr
          | clone i fcn arg stack returnaddr =>
              cases kv with
              | assignment4 => exact .idle _
              | assignment7 =>
                  apply ((kclone_spec B hwalk fcn arg stack returnaddr hb hwellp hp).mono _).map
                  intro r hr
                  exact .clone hp hr
          | shmGet i =>
              apply ((sysShmGet_spec B hb hp).mono _).map
              intro r hr
              obtain ⟨q, hq, hrep⟩ := hr
              exact .shmGet hp hq hrep
          | exit i =>
              apply (kexit_spec hinit hb hp).mono
              intro m' hrep
              exact .exit hp hz hrep

theorem perform_spec (B : Books allowed g.shmPagePa R) (K : Permits kv allowed)
    (hb : R m.mem m.user m.owned) (a : Action nproc)
    (hwell : ∀ p, m.proc a.slot = some p → p.WellMapped g)
    (hremap : a.Within m ∨ allowed .mappagesRemap) :
    Yields allowed (perform kv g m a) (Performed R g m a) :=
  perform_spec_of_spares B K.walk K.initExiting hb a K.tolerates.spares hwell hremap

/-! ## Runs -/

/-- One action that does not panic, where `ok` speaks of the state before it, of the
action and of the state after it. -/
def Step (kv : Kernel) (g : Globals)
    (ok : Machine σ nproc → Action nproc → Machine σ nproc → Prop)
    (m m' : Machine σ nproc) : Prop :=
  ∃ a, perform kv g m a = .ok m' ∧ ok m a m'

theorem run_of_foldlM {ok : Machine σ nproc → Action nproc → Machine σ nproc → Prop}
    {actions : List (Action nproc)} {m' : Machine σ nproc} (hok : ∀ a ∈ actions, ∀ m m', ok m a m')
    (h : actions.foldlM (perform kv g) m = .ok m') :
    Relation.ReflTransGen (Step kv g ok) m m' := by
  induction actions generalizing m with
  | nil =>
      cases h
      exact .refl
  | cons a actions ih =>
      rw [List.foldlM_cons] at h
      cases ha : perform kv g m a with
      | error e =>
          rw [ha] at h
          cases h
      | ok m₁ =>
          rw [ha] at h
          have hfirst : Step kv g ok m m₁ := ⟨a, ha, hok a List.mem_cons_self m m₁⟩
          exact .head hfirst (ih (fun b hb => hok b (List.mem_cons_of_mem a hb)) h)

theorem Machine.Inv.perform (B : Books allowed g.shmPagePa R) (K : Permits kv allowed)
    (hm : Inv R g m)
    {a : Action nproc} (hremap : a.Within m ∨ allowed .mappagesRemap) :
    Yields allowed (perform kv g m a) (Performed R g m a) :=
  perform_spec B K hm.books a (hm.spaces a.slot) hremap

theorem inv_of_run (B : Books allowed g.shmPagePa R) (K : Permits kv allowed)
    {ok : Machine σ nproc → Action nproc → Machine σ nproc → Prop}
    (hok : ∀ m a m', ok m a m' →
      a.Within m ∨ allowed .mappagesRemap ∧ m'.Fits)
    {m' : Machine σ nproc} (hm : Inv R g m)
    (hrun : Relation.ReflTransGen (Step kv g ok) m m') : Inv R g m' := by
  induction hrun with
  | refl => exact hm
  | tail _ hstep ih =>
      obtain ⟨a, ha, hstep⟩ := hstep
      have hcase := hok _ _ _ hstep
      have hperf := (ih.perform B K (hcase.imp_right And.left)).of_eq_ok ha
      exact hperf.inv ih (hcase.imp_right And.right)

end Steps

end Memory
