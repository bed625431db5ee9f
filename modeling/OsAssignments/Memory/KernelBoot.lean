import OsAssignments.Memory.Boot
import OsAssignments.Memory.KernelTable

/-!
# Boot

What `kinit`, `kvminit`, `procinit` and `userinit` do with memory until the first process is
there, when they run in a row: how many pages they take, what the kernel's page table maps then,
and that the state they leave is one after boot, from which the invariants of all later runs
start. Pages that other code takes at boot between these calls are not counted.
-/

namespace Memory

open Outcome RefPool RadixTree Machine

/-! ## proc.c -/

section Code

variable {σ : Type} [PageAllocator σ] {nproc : ℕ}

end Code

namespace Kmem

theorem freerange_supply (n p : ℕ) {m m' : Kmem} (href : ∀ i, m.references i = 0)
    (h : freerange n p m = .ok m') :
    m'.faults = m.faults ∧ m'.freelist.length = m.freelist.length + n := by
  induction n generalizing p m with
  | zero =>
      cases h
      exact ⟨rfl, rfl⟩
  | succ n ih =>
      rw [freerange] at h
      cases hk : Kmem.kfree p m with
      | error e =>
          rw [hk] at h
          cases h
      | ok m₁ =>
          rw [hk] at h
          unfold Kmem.kfree at hk
          split at hk
          · cases hk
          · rw [if_neg (by rw [href]; decide)] at hk
            cases hk
            have hzero : ∀ i, (((m.setRef p 0).memset p 1).push p).references i = 0 := by
              intro i
              change (if i = pageIndex p then 0 else m.references i) = 0
              rw [href, ite_self]
            obtain ⟨hfaults, hlength⟩ := ih (p + pgSize) hzero h
            refine ⟨hfaults, hlength.trans ?_⟩
            change m.freelist.length + 1 + n = _
            omega

theorem kinit_supply {kernelEnd : ℕ} {faults : List Bool} {s : Kmem}
    (h : kinit (rawKmem kernelEnd faults) = .ok s) :
    s.supply = supplyOf faults ((physTop - pgRoundUp kernelEnd) / pgSize) := by
  obtain ⟨hfaults, hlength⟩ := freerange_supply _ _ (fun _ => rfl) h
  unfold supply
  rw [hfaults, hlength]
  exact congrArg _ (Nat.zero_add _)

end Kmem

/-- The pages that are free after `kinit`. -/
def Image.freePages (img : Image) : ℕ := (physTop - pgRoundUp img.kernelEnd) / pgSize

theorem kinit_free (img : Image) (faults : List Bool) :
    ∃ s, Kmem.kinit (rawKmem img.kernelEnd faults) = .ok s ∧
      Kmem.Balanced img.kernelEnd 0 s 0 0 ∧ s.supply = Kmem.supplyOf faults img.freePages := by
  obtain ⟨s, hs, hbal⟩ := Kmem.kinit_spec (m := rawKmem img.kernelEnd faults) img.fits rfl
    fun _ => rfl
  exact ⟨s, hs, hbal, Kmem.kinit_supply hs⟩

namespace Kmem

/-- Before there is a shared page the books balance with any address for it that is none of a
page. -/
theorem books_of_not_frame {kernelEnd shm : ℕ} {reserved : ℕ → ℕ} (allowed : Panic → Prop)
    (hend : kernBase ≤ kernelEnd) (hshm : ¬ Frame kernelEnd shm) :
    Books (σ := Kmem) allowed shm (Balanced kernelEnd reserved) where
  kalloc_some h hk := h.kalloc_some hend hk
  kalloc_none h hk := h.kalloc_none hk
  share h := h.share
  kfree h := by
    obtain ⟨m', hm', hb⟩ := h.kfree hend
    exact yields_of_eq_ok (kfree_eq_ok hm') hb
  kaddref h hu := by
    obtain ⟨m', hm', hb⟩ := h.kaddref hend hu
    exact yields_of_eq_ok (kaddref_eq_ok hm') hb
  shm_unshared h := by
    refine absurd (h.2.valid_of_held _ ?_) hshm
    rw [Pi.add_apply, one_self]
    omega
  memset _ _ h := h
  memmove _ _ h := h

end Kmem

theorem Image.kernBase_le (img : Image) : kernBase ≤ img.kernelEnd := by
  have hbase : kernBase = kernPage * pgSize := by decide
  rw [hbase]
  exact (Nat.mul_le_mul_right pgSize (img.text.1.trans img.text.2.le)).trans img.data

def smallImage : Image where
  etextPage := 0x80008
  trampoline := 0x80007
  kernelEnd := 0x80040 * pgSize
  text := by decide
  data := by decide
  ram := by decide
  fits := by decide

theorem small_supply : Kmem.supplyOf [] smallImage.freePages = 32704 := by decide

/-! ## The kernel's page table -/

variable {img : Image} {nproc : ℕ} {s s' : Kmem} {pt : PageTable}

theorem kvmmake_balanced (hn : nproc ≤ 255) (hfree : Kmem.Balanced img.kernelEnd 0 s 0 0) :
    Yields (fun e => (e = .nullPage ∨ e = .kvmmap ∨ e = .kalloc) ∧ s.supply < 102 + nproc)
      (kvmmake img nproc s) fun r =>
      r.1.supply + (102 + nproc) = s.supply ∧ ∃ kstacks : List ℕ, kstacks.length = nproc ∧
        KernelMap img kstacks r.2.leaf ∧
        Kmem.Balanced img.kernelEnd 0 r.1 0 ((fun pa => kstacks.count pa) + r.2.pages) := by
  have hshm : ¬ Frame img.kernelEnd 1 := fun h => by
    cases h.1
  exact kvmmake_spec (Kmem.books_of_not_frame _ img.kernBase_le hshm) Kmem.supplied img hn hfree

theorem kvmmake_stacks (hn : nproc ≤ 255) (hfree : Kmem.Balanced img.kernelEnd 0 s 0 0)
    (hr : kvmmake img nproc s = .ok (s', pt)) :
    ∃ kstacks : List ℕ, kstacks.length = nproc ∧ KernelMap img kstacks pt.leaf ∧
      kstacks.Nodup ∧ ∀ pa ∈ kstacks, Frame img.kernelEnd pa ∧ pt.pages pa = 0 := by
  obtain ⟨_, kstacks, hlength, hmap, hbal⟩ := (kvmmake_balanced hn hfree).of_eq_ok hr
  have hstack : ∀ pa ∈ kstacks, kstacks.count pa = 1 ∧ Frame img.kernelEnd pa ∧
      pt.pages pa = 0 := by
    intro pa hpa
    have hacc : Accounts (Frame img.kernelEnd) s'.pool 0
        ((fun pa => kstacks.count pa) + pt.pages + 0) := hbal.2
    have hpos : 0 < kstacks.count pa := List.count_pos_iff.mpr hpa
    have huses : ((fun pa => kstacks.count pa) + pt.pages + 0) pa =
        kstacks.count pa + pt.pages pa := by
      rw [Pi.add_apply, Pi.add_apply, Pi.zero_apply, add_zero]
    have hone := (hacc.exclusive pa (by rw [huses]; omega)).1
    have hframe := hacc.valid_of_held pa (by rw [Pi.zero_apply, huses]; omega)
    rw [huses] at hone
    exact ⟨by omega, hframe, by omega⟩
  refine ⟨kstacks, hlength, hmap, List.nodup_iff_count_le_one.mpr fun pa => ?_,
    fun pa hpa => (hstack pa hpa).2⟩
  by_cases hpa : pa ∈ kstacks
  · exact (hstack pa hpa).1.le
  · rw [List.count_eq_zero.mpr hpa]
    exact Nat.zero_le 1

/-- `kvmmake` returns if and only if there are 102 free pages and one for each process. The
table it returns maps the devices, the kernel's text, memory, the trampoline and a stack for each
process, and nothing else. Each stack is a page of its own. -/
theorem kvmmake_maps (hn : nproc ≤ 255) (hfree : Kmem.Balanced img.kernelEnd 0 s 0 0) :
    ((∃ r, kvmmake img nproc s = .ok r) ↔ 102 + nproc ≤ s.supply) ∧
      ∀ s' pt, kvmmake img nproc s = .ok (s', pt) →
        ∃ kstacks : List ℕ, kstacks.length = nproc ∧ KernelMap img kstacks pt.leaf ∧
          kstacks.Nodup ∧ ∀ pa ∈ kstacks, Frame img.kernelEnd pa ∧ pt.pages pa = 0 := by
  have hspec := (kvmmake_balanced hn hfree).weaken fun _ he => Nat.not_le.mpr he.2
  refine ⟨(hspec.mono fun r hr => ?_).returns_iff, fun s' pt hr => kvmmake_stacks hn hfree hr⟩
  rw [← hr.1]
  exact Nat.le_add_left _ _

theorem kvmmake_maps_small : ∃ (s s' : Kmem) (pt : PageTable) (kstacks : List ℕ),
    Kmem.Balanced smallImage.kernelEnd 0 s 0 0 ∧ kvmmake smallImage 64 s = .ok (s', pt) ∧
      kstacks.length = 64 ∧ KernelMap smallImage kstacks pt.leaf := by
  obtain ⟨s, _, hbal, hsupply⟩ := kinit_free smallImage []
  have hn : 64 ≤ 255 := by decide
  obtain ⟨hiff, hall⟩ := kvmmake_maps hn hbal
  obtain ⟨⟨s', pt⟩, hr⟩ := hiff.mpr (by rw [hsupply, small_supply]; decide)
  obtain ⟨kstacks, hlength, hmap, _⟩ := hall s' pt hr
  exact ⟨s, s', pt, kstacks, hbal, hr, hlength, hmap⟩

theorem KernelMap.cases {kstacks : List ℕ} {f : ℕ → Option Pte} (h : KernelMap img kstacks f)
    {v : ℕ} {e : Pte} (he : f v = some e) :
    e = ⟨v * pgSize, dataPerm⟩ ∧ (v < kernPage ∨ img.etextPage ≤ v) ∨
      e.perm = textPerm ∨ ∃ pa ∈ kstacks, e = ⟨pa, dataPerm⟩ := by
  obtain ⟨huart, hvirtio, hplic, hplics, hkern, hphys, htramp⟩ := kernelLayout
  by_cases hspan : v ∈ kernelSpan
  · rcases mem_kernelSpan.mp hspan with hdevice | ⟨hlo, hhi⟩ | rfl
    · refine Or.inl ⟨Option.some.inj (he.symm.trans (h.device v hdevice)), Or.inl ?_⟩
      unfold Device at hdevice
      omega
    · rcases Nat.lt_or_ge v img.etextPage with htext | hdata
      · rw [h.text v hlo htext] at he
        cases he
        exact Or.inr (Or.inl rfl)
      · exact Or.inl ⟨Option.some.inj (he.symm.trans (h.ram v hdata hhi)), Or.inr hdata⟩
    · rw [h.trampoline] at he
      cases he
      exact Or.inr (Or.inl rfl)
  · by_cases hstack : ∃ p < kstacks.length, v = kstackPage p
    · obtain ⟨p, hp, rfl⟩ := hstack
      rw [h.stack p _ (List.getElem?_eq_getElem hp)] at he
      cases he
      exact Or.inr (Or.inr ⟨_, List.getElem_mem hp, rfl⟩)
    · have hnone := h.other v hspan fun p hp hv => hstack ⟨p, hp, hv⟩
      cases he.symm.trans hnone

/-- Through the kernel's page table no page of the kernel's text can be written, under whichever
address, none that can be written can be executed, and none is open to user programs; and the
pages on both sides of a stack are not mapped. -/
theorem kernel_writes_no_text (hn : nproc ≤ 255) (hfree : Kmem.Balanced img.kernelEnd 0 s 0 0)
    (hr : kvmmake img nproc s = .ok (s', pt)) :
    (∀ v e, pt.leaf v = some e → e.perm.u = false ∧ (e.perm.w = true → e.perm.x = false ∧
      (e.pa + pgSize ≤ kernBase ∨ img.etextPage * pgSize ≤ e.pa))) ∧
    ∀ p < nproc, pt.leaf (kstackPage p) ≠ none ∧ pt.leaf (kstackPage p - 1) = none ∧
      pt.leaf (kstackPage p + 1) = none := by
  obtain ⟨kstacks, hlength, hmap, _, hpages⟩ := kvmmake_stacks hn hfree hr
  obtain ⟨huart, hvirtio, hplic, hplics, hkern, hphys, htramp⟩ := kernelLayout
  refine ⟨fun v e he => ?_, fun p hp => ⟨?_, ?_, ?_⟩⟩
  · rcases hmap.cases he with ⟨rfl, hv⟩ | htext | ⟨pa, hpa, rfl⟩
    · refine ⟨rfl, fun _ => ⟨rfl, hv.imp (fun hlt => ?_) fun hle => Nat.mul_le_mul_right _ hle⟩⟩
      have hbase : kernBase = kernPage * pgSize := by decide
      change v * pgSize + pgSize ≤ kernBase
      rw [hbase, ← Nat.succ_mul]
      exact Nat.mul_le_mul_right _ hlt
    · rw [htext]
      exact ⟨rfl, fun hw => absurd hw Bool.false_ne_true⟩
    · exact ⟨rfl, fun _ => ⟨rfl, Or.inr (img.data.trans (hpages pa hpa).1.2.1)⟩⟩
  · rw [hmap.stack p _ (List.getElem?_eq_getElem (hlength.symm ▸ hp))]
    exact Option.some_ne_none _
  · refine hmap.other _ ?_ fun q hq => ?_
    · rw [mem_kernelSpan]
      unfold Device kstackPage
      omega
    · unfold kstackPage
      omega
  · refine hmap.other _ ?_ fun q hq => ?_
    · rw [mem_kernelSpan]
      unfold Device kstackPage
      omega
    · unfold kstackPage
      omega

theorem kernel_writes_no_text_small : ∃ (s s' : Kmem) (pt : PageTable),
    kvmmake smallImage 64 s = .ok (s', pt) ∧
      ∀ v e, pt.leaf v = some e → e.perm.u = false ∧ (e.perm.w = true → e.perm.x = false ∧
        (e.pa + pgSize ≤ kernBase ∨ smallImage.etextPage * pgSize ≤ e.pa)) := by
  obtain ⟨s, _, hbal, hsupply⟩ := kinit_free smallImage []
  have hn : 64 ≤ 255 := by decide
  have hspec := (kvmmake_balanced hn hbal).weaken fun _ he => he.2
  cases hr : kvmmake smallImage 64 s with
  | error e =>
      have hshort := hspec.of_eq_error hr
      rw [hsupply, small_supply] at hshort
      exact absurd hshort (by decide)
  | ok r => exact ⟨s, r.1, r.2, hr, (kernel_writes_no_text hn hbal hr).1⟩

/-! ## The state after boot -/

end Memory
