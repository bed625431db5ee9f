import Mathlib.Data.List.Infix
import OsAssignments.Memory.Space

/-!
# Fresh pages and their contents

As long as the functions that build an address space succeed, they take pages from the
free list and write to the pages they have taken, and to no others. `Taken s s'` says so
of two states of `kalloc.c`. So a page that was not free keeps its bytes, and a page that
has been filled once keeps what it was filled with.
-/

namespace Memory

open Outcome RefPool RadixTree

namespace Kmem

variable {s s' s₀ s₁ s₂ : Kmem} {pa : ℕ}

/-- The free list is a list of page addresses, each of them once. -/
structure Sound (s : Kmem) : Prop where
  nodup : s.freelist.Nodup
  aligned : ∀ pa ∈ s.freelist, pa % pgSize = 0

/-- The bytes of the page at `pa` in the state `s'` are those of the page at `pb` in `s`. -/
def SameBytes (s : Kmem) (pb : ℕ) (s' : Kmem) (pa : ℕ) : Prop :=
  ∀ k < pgSize, s'.bytes (pa + k) = s.bytes (pb + k)

/-- Every byte of the page at `pa` is zero. -/
def Zeroed (s : Kmem) (pa : ℕ) : Prop := ∀ k < pgSize, s.bytes (pa + k) = 0

/-- From `s` to `s'` pages are taken from the free list, and only those are written. -/
structure Taken (s s' : Kmem) : Prop where
  suffix : s'.freelist <:+ s.freelist
  bytes : ∀ x, (∀ pa ∈ s.freelist, pa ∉ s'.freelist → ¬ (pa ≤ x ∧ x < pa + pgSize)) →
    s'.bytes x = s.bytes x

theorem Balanced.sound {kernelEnd : ℕ} {reserved user owned : ℕ → ℕ}
    (h : Balanced kernelEnd reserved s user owned) : s.Sound :=
  ⟨h.2.nodup, fun pa hpa => ((h.2.mem_free pa).mp hpa).1.1⟩

theorem Taken.refl (s : Kmem) : Taken s s := ⟨List.suffix_rfl, fun _ _ => rfl⟩

theorem Taken.mem (h : Taken s s') (hpa : pa ∈ s'.freelist) : pa ∈ s.freelist :=
  h.suffix.subset hpa

theorem Taken.sound (h : Taken s s') (hs : s.Sound) : s'.Sound :=
  ⟨hs.nodup.sublist h.suffix.sublist, fun pa hpa => hs.aligned pa (h.mem hpa)⟩

theorem Taken.trans (h : Taken s s₁) (h' : Taken s₁ s₂) : Taken s s₂ := by
  refine ⟨h'.suffix.trans h.suffix, fun x hx => ?_⟩
  rw [h'.bytes x fun pa hpa hnot => hx pa (h.mem hpa) hnot,
    h.bytes x fun pa hpa hnot => hx pa hpa fun hmem => hnot (h'.mem hmem)]

theorem Taken.write (h : Taken s s₁) (hpa : pa ∈ s.freelist) (hnot : pa ∉ s₁.freelist)
    (hfree : s'.freelist = s₁.freelist)
    (hbytes : ∀ x, ¬ (pa ≤ x ∧ x < pa + pgSize) → s'.bytes x = s₁.bytes x) : Taken s s' := by
  refine ⟨hfree ▸ h.suffix, fun x hx => ?_⟩
  rw [hfree] at hx
  rw [hbytes x (hx pa hpa hnot), h.bytes x hx]

theorem Taken.memset (h : Taken s s₁) (hpa : pa ∈ s.freelist) (hnot : pa ∉ s₁.freelist)
    (c : UInt8) : Taken s (Memory.memset pa c s₁) :=
  h.write hpa hnot rfl fun _ hx => if_neg hx

theorem Taken.memmove (h : Taken s s₁) (hpa : pa ∈ s.freelist) (hnot : pa ∉ s₁.freelist)
    (src : ℕ) : Taken s (Memory.memmove pa src s₁) :=
  h.write hpa hnot rfl fun _ hx => if_neg hx

theorem Taken.sameBytes (h : Taken s s') (hs : s.Sound) (hpa : pa % pgSize = 0)
    (hnot : pa ∉ s.freelist) : SameBytes s pa s' pa := by
  intro k hk
  refine h.bytes _ fun pb hpb _ hin => ?_
  have hne : pb ≠ pa := fun heq => hnot (heq ▸ hpb)
  have hal := hs.aligned pb hpb
  unfold pgSize at hpa hal hk hin
  omega

theorem Taken.zeroed (h : Taken s s') (hs : s.Sound) (hpa : pa % pgSize = 0)
    (hnot : pa ∉ s.freelist) (hz : s.Zeroed pa) : s'.Zeroed pa :=
  fun k hk => (h.sameBytes hs hpa hnot k hk).trans (hz k hk)

theorem zeroed_memset (s : Kmem) (pa : ℕ) : (Memory.memset pa 0 s).Zeroed pa :=
  fun _ hk => if_pos ⟨Nat.le_add_right _ _, Nat.add_lt_add_left hk pa⟩

theorem sameBytes_memmove (s : Kmem) (dst src : ℕ) :
    SameBytes s src (Memory.memmove dst src s) dst := by
  intro k hk
  change (if dst ≤ dst + k ∧ dst + k < dst + pgSize then s.bytes (src + (dst + k - dst))
    else s.bytes (dst + k)) = _
  rw [if_pos ⟨Nat.le_add_right _ _, Nat.add_lt_add_left hk dst⟩, Nat.add_sub_cancel_left]

theorem SameBytes.trans {pb pc : ℕ} (h : SameBytes s pb s₁ pa) (h' : SameBytes s₁ pa s₂ pc) :
    SameBytes s pb s₂ pc :=
  fun k hk => (h' k hk).trans (h k hk)

/-! ## kalloc -/

theorem takeFree_head (h : s.takeFree = (some pa, s')) :
    s.freelist = pa :: s'.freelist ∧
      ∀ x, ¬ (pa ≤ x ∧ x < pa + pgSize) → s'.bytes x = s.bytes x := by
  unfold takeFree at h
  cases hf : s.freelist with
  | nil =>
      rw [hf] at h
      cases h
  | cons r rest =>
      rw [hf] at h
      cases h
      exact ⟨rfl, fun x hx => if_neg hx⟩

theorem kalloc_head (h : Memory.kalloc s = (some pa, s')) :
    s.freelist = pa :: s'.freelist ∧
      ∀ x, ¬ (pa ≤ x ∧ x < pa + pgSize) → s'.bytes x = s.bytes x := by
  change s.kalloc = (some pa, s') at h
  unfold Kmem.kalloc at h
  split at h
  · cases h
  · obtain ⟨hfree, hbytes⟩ := takeFree_head h
    exact ⟨hfree, hbytes⟩
  · exact takeFree_head h

theorem Sound.kalloc (hs : s.Sound) (h : Memory.kalloc s = (some pa, s')) :
    pa ∈ s.freelist ∧ pa ∉ s'.freelist ∧ Taken s s' := by
  obtain ⟨hfree, hbytes⟩ := kalloc_head h
  have hnodup := hs.nodup
  rw [hfree, List.nodup_cons] at hnodup
  have hmem : pa ∈ s.freelist := hfree ▸ List.mem_cons_self
  refine ⟨hmem, hnodup.1, ⟨hfree ▸ List.suffix_cons _ _, fun x hx => ?_⟩⟩
  exact hbytes x (hx pa hmem hnodup.1)

theorem takeFree_empty (h : s.takeFree = (none, s')) : s' = s := by
  unfold takeFree at h
  cases hf : s.freelist with
  | nil =>
      rw [hf] at h
      cases h
      rfl
  | cons r rest =>
      rw [hf] at h
      cases h

theorem Taken.of_kalloc_none (h : Memory.kalloc s = (none, s')) : Taken s s' := by
  change s.kalloc = (none, s') at h
  unfold Kmem.kalloc at h
  split at h
  · cases h
    exact ⟨List.suffix_rfl, fun _ _ => rfl⟩
  · rw [takeFree_empty h]
    exact ⟨List.suffix_rfl, fun _ _ => rfl⟩
  · rw [takeFree_empty h]
    exact refl s

end Kmem

open Kmem

/-! ## Page tables -/

variable {s : Kmem}

theorem walkLevels_taken (k : ℕ) (s : Kmem) (hs : s.Sound) (t : Table k) (p : ℕ → Fin 512) :
    Taken s (walkLevels k s t p).1 := by
  induction k generalizing s with
  | zero => exact .refl s
  | succ k ih =>
      cases he : entryAt t (p (k + 1)) with
      | some e =>
          simp only [walkLevels, he]
          exact ih s hs e.2
      | none =>
          cases hk : kalloc s with
          | mk r s' =>
              cases r with
              | none =>
                  simp only [walkLevels, he, hk]
                  exact .of_kalloc_none hk
              | some page =>
                  simp only [walkLevels, he, hk]
                  obtain ⟨hmem, hnot, htaken⟩ := hs.kalloc hk
                  have hset := htaken.memset hmem hnot 0
                  exact hset.trans (ih _ (hset.sound hs) _)

theorem mappagesLoop_taken (n : ℕ) (s : Kmem) (hs : s.Sound) (pt : PageTable) (a pa : ℕ)
    (perm : Perm) :
    Yields (fun _ => True) (mappagesLoop n s pt a pa perm) fun r => Taken s r.1 := by
  induction n generalizing s pt a pa with
  | zero => exact .refl s
  | succ n ih =>
      rw [mappagesLoop]
      refine Yields.bind (Q := fun r => Taken s r.1) ?_ fun r hr => ?_
      · unfold walkAlloc
        apply Yields.ite
        · intro _
          trivial
        · intro _
          exact walkLevels_taken 2 s hs pt.table (px a)
      · apply Yields.ite
        · intro _
          exact hr
        · intro _
          apply Yields.ite
          · intro _
            trivial
          · intro _
            exact (ih r.1 (hr.sound hs) _ _ _).mono fun r' hr' => hr.trans hr'

theorem mappages_taken (hs : s.Sound) (pt : PageTable) (va size pa : ℕ) (perm : Perm) :
    Yields (fun _ => True) (mappages s pt va size pa perm) fun r => Taken s r.1 := by
  unfold mappages
  split_ifs
  · trivial
  · trivial
  · trivial
  · exact mappagesLoop_taken _ s hs pt va pa perm

theorem procPagetable_taken (kv : Kernel) (g : Globals) (hs : s.Sound) (tf : ℕ) :
    Yields (fun _ => True) (procPagetable kv g s tf) fun r => r.2 ≠ none → Taken s r.1 := by
  unfold procPagetable uvmcreate
  cases hk : kalloc s with
  | mk r s' =>
      cases r with
      | none => exact fun hne => absurd rfl hne
      | some page =>
          dsimp only
          obtain ⟨hmem, hnot, htaken⟩ := hs.kalloc hk
          have hset := htaken.memset hmem hnot 0
          apply (mappages_taken (hset.sound hs) _ _ _ _ _).bind
          intro r hr
          have htaken₁ := hset.trans hr
          apply Yields.ite
          · intro _
            apply (yields_true _).bind
            intro _ _ hne
            exact absurd rfl hne
          · intro _
            apply (mappages_taken (htaken₁.sound hs) _ _ _ _ _).bind
            intro r' hr'
            apply Yields.ite
            · intro _
              apply (yields_true _).bind
              intro _ _
              apply (yields_true _).bind
              intro _ _ hne
              exact absurd rfl hne
            · intro _ _
              exact htaken₁.trans hr'

theorem allocproc_taken (kv : Kernel) (g : Globals) (hs : s.Sound) :
    Yields (fun _ => True) (allocproc kv g s) fun r => ∀ np, r.2 = some np →
      Taken s r.1 ∧ np.1 ∈ s.freelist ∧ np.1 ∉ r.1.freelist := by
  unfold allocproc
  cases hk : kalloc s with
  | mk r s' =>
      cases r with
      | none => exact (yields_true _).bind fun _ _ _ hnp => nomatch hnp
      | some tf =>
          dsimp only
          obtain ⟨hmem, hnot, htaken⟩ := hs.kalloc hk
          apply (procPagetable_taken kv g (htaken.sound hs) tf).bind
          intro r hr
          cases hpt : r.2 with
          | none => exact (yields_true _).bind fun _ _ _ hnp => nomatch hnp
          | some pt =>
              intro np hnp
              cases hnp
              have htaken₁ := hr (by rw [hpt]; exact Option.some_ne_none pt)
              exact ⟨htaken.trans htaken₁, hmem, fun hin => hnot (htaken₁.mem hin)⟩

/-! ## Loops that fill pages -/

/-- What a page has been filled with stays as long as the page is not free. -/
def Lasting (c : ℕ → Kmem → ℕ → Prop) : Prop :=
  ∀ i s s' pa, s.Sound → Taken s s' → pa % pgSize = 0 → pa ∉ s.freelist → c i s pa → c i s' pa

/-- The pages of `V` are mapped by `g`, each to a page of its own that was free in `s`; the
page for `i` has the contents `c i`. -/
structure Fills (c : ℕ → Kmem → ℕ → Prop) (s s' : Kmem) (g : ℕ → Option Pte) (V : Set ℕ) :
    Prop where
  taken : Taken s s'
  leaf : ∀ i ∈ V, ∃ e, g i = some e ∧ e.pa ∈ s.freelist ∧ e.pa ∉ s'.freelist ∧ c i s' e.pa
  apart : ∀ i ∈ V, ∀ j ∈ V, (g i).map Pte.pa = (g j).map Pte.pa → i = j

theorem Fills.nil {c : ℕ → Kmem → ℕ → Prop} (s : Kmem) (g : ℕ → Option Pte) {V : Set ℕ}
    (hV : ∀ i, i ∉ V) : Fills c s s g V :=
  ⟨.refl s, fun i hi => absurd hi (hV i), fun i hi => absurd hi (hV i)⟩

theorem Fills.cons {c : ℕ → Kmem → ℕ → Prop} (hc : Lasting c) {s s₁ s' : Kmem}
    {g : ℕ → Option Pte} {V W : Set ℕ} {v : ℕ} {e : Pte} (hs : s.Sound) (htaken : Taken s s₁)
    (hmem : e.pa ∈ s.freelist) (hnot : e.pa ∉ s₁.freelist) (hcv : c v s₁ e.pa)
    (he : g v = some e) (h : Fills c s₁ s' g V) (hW : ∀ i ∈ W, i = v ∨ i ∈ V) :
    Fills c s s' g W := by
  have happ : ∀ j ∈ V, (g j).map Pte.pa ≠ (g v).map Pte.pa := by
    intro j hj heq
    obtain ⟨e', he', hmem', _⟩ := h.leaf j hj
    rw [he', he] at heq
    exact hnot (Option.some.inj heq ▸ hmem')
  refine ⟨htaken.trans h.taken, fun i hi => ?_, fun i hi j hj heq => ?_⟩
  · rcases hW i hi with rfl | hiV
    · have hc' := hc i s₁ s' e.pa (htaken.sound hs) h.taken (hs.aligned _ hmem) hnot hcv
      exact ⟨e, he, hmem, fun hin => hnot (h.taken.mem hin), hc'⟩
    · obtain ⟨e', he', hmem', hnot', hc'⟩ := h.leaf i hiV
      exact ⟨e', he', htaken.mem hmem', hnot', hc'⟩
  · rcases hW i hi with rfl | hiV
    · rcases hW j hj with rfl | hjV
      · rfl
      · exact absurd heq.symm (happ j hjV)
    · rcases hW j hj with rfl | hjV
      · exact absurd heq (happ i hiV)
      · exact h.apart i hiV j hjV heq

theorem lasting_zeroed : Lasting fun _ => Zeroed :=
  fun _ _ _ _ hs htaken hal hnot hz => htaken.zeroed hs hal hnot hz

/-- The page for `i` is a copy of the page that `old` maps there in the state `s₀`. -/
def CopyOf (s₀ : Kmem) (old : ℕ → Option Pte) (i : ℕ) (s : Kmem) (pa : ℕ) : Prop :=
  ∀ e, old i = some e → SameBytes s₀ e.pa s pa

theorem lasting_copyOf (s₀ : Kmem) (old : ℕ → Option Pte) : Lasting (CopyOf s₀ old) :=
  fun _ _ _ _ hs htaken hal hnot hc e he => (hc e he).trans (htaken.sameBytes hs hal hnot)

theorem mappages_fills {c : ℕ → Kmem → ℕ → Prop} (hc : Lasting c) {s s₁ : Kmem} (hs : s.Sound)
    {pt : PageTable} {v mem : ℕ} {perm : Perm} (hv : v < maxPage) (htaken : Taken s s₁)
    (hmem : mem ∈ s.freelist) (hnot : mem ∉ s₁.freelist) (hcv : c v s₁ mem) :
    Yields (fun _ => True) (mappages s₁ pt (v * pgSize) pgSize mem perm) fun r =>
      Taken s r.1 ∧ mem ∉ r.1.freelist ∧ c v r.1 mem ∧
        (r.2.2 = true → r.2.1.leaf = Function.update pt.leaf v (some ⟨mem, perm⟩)) := by
  have hmap := @mappages_spec Kmem _ (fun _ => True) 0 (fun _ _ _ => True)
    (Books.trivial _ 0 fun _ => trivial) s₁ pt v mem perm 0 0 hv (fun _ => trivial) trivial
  apply ((mappages_taken (htaken.sound hs) pt _ _ mem perm).and hmap).mono
  rintro r ⟨hr, _, hleaf⟩
  refine ⟨htaken.trans hr, fun hin => hnot (hr.mem hin), ?_, ?_⟩
  · exact hc v s₁ r.1 mem (htaken.sound hs) hr (hs.aligned mem hmem) hnot hcv
  · intro hok
    rw [hleaf, if_pos hok]

theorem uvmcopyLoop_fills (kv : Kernel) (shm : ℕ) {s₀ : Kmem} (old : PageTable) (n : ℕ) (s : Kmem)
    (new : PageTable) (v : ℕ) (htop : v + n ≤ maxPage) (h₀ : s₀.Sound) (hs : Taken s₀ s)
    (hold : ∀ i e, old.leaf i = some e → i < v + n → e.pa % pgSize = 0 ∧ e.pa ∉ s₀.freelist) :
    Yields (fun _ => True) (uvmcopyLoop kv shm old n s new (v * pgSize)) fun r => r.2.2 = true →
      (∀ i < v, r.2.1.leaf i = new.leaf i) ∧
        Fills (CopyOf s₀ old.leaf) s r.1 r.2.1.leaf
          {i | v ≤ i ∧ i < v + n ∧ old.leaf i ≠ none} := by
  have hsound := hs.sound h₀
  induction n generalizing s new v with
  | zero =>
      rw [uvmcopyLoop, yields_pure]
      exact fun _ => ⟨fun _ _ => rfl, .nil s _ fun i hi => by have := hi.1; have := hi.2.1; omega⟩
  | succ n ih =>
      have hmax : v < maxPage := by omega
      have hold' : ∀ i e, old.leaf i = some e → i < v + 1 + n →
          e.pa % pgSize = 0 ∧ e.pa ∉ s₀.freelist := fun i e he hi => hold i e he (by omega)
      cases he : old.leaf v with
      | none =>
          rw [uvmcopyLoop_skip hmax he]
          apply (ih s new (v + 1) (by omega) hs hold' hsound).mono
          intro r hr hok
          obtain ⟨hbelow, hfills⟩ := hr hok
          refine ⟨fun i hi => hbelow i (by omega), hfills.taken, fun i hi => ?_,
            fun i hi j hj => ?_⟩
          · obtain ⟨hi₁, hi₂, hne⟩ := hi
            have hiv : i ≠ v := fun h => hne (h ▸ he)
            exact hfills.leaf i ⟨by omega, by omega, hne⟩
          · obtain ⟨hi₁, hi₂, hne⟩ := hi
            obtain ⟨hj₁, hj₂, hne'⟩ := hj
            have hiv : i ≠ v := fun h => hne (h ▸ he)
            have hjv : j ≠ v := fun h => hne' (h ▸ he)
            exact hfills.apart i ⟨by omega, by omega, hne⟩ j ⟨by omega, by omega, hne'⟩
      | some e =>
          rw [uvmcopyLoop, walk_of_leaf hmax he, yields_ok_bind]
          cases hk : kalloc s with
          | mk r s' =>
              cases r with
              | none => exact (yields_true _).bind fun _ _ hok => absurd hok Bool.false_ne_true
              | some mem =>
                  obtain ⟨hmem, hnot, htaken⟩ := hsound.kalloc hk
                  obtain ⟨hal, hheld⟩ := hold v e he (by omega)
                  have hsame : CopyOf s₀ old.leaf v (memmove mem e.pa s') mem := by
                    intro e' he'
                    cases he.symm.trans he'
                    exact ((hs.trans htaken).sameBytes h₀ hal hheld).trans
                      (sameBytes_memmove s' mem e.pa)
                  apply (mappages_fills (lasting_copyOf s₀ old.leaf) hsound hmax
                    (htaken.memmove hmem hnot e.pa) hmem hnot hsame).bind
                  rintro r ⟨htaken', hnot', hcopy, hleaf⟩
                  cases hok : r.2.2 with
                  | false =>
                      rw [if_neg (by decide)]
                      refine (yields_true _).bind fun _ _ => ?_
                      exact (yields_true _).bind fun _ _ hok => absurd hok Bool.false_ne_true
                  | true =>
                      rw [if_pos rfl, ← Nat.succ_mul]
                      apply (ih r.1 r.2.1 (v + 1) (by omega) (hs.trans htaken') hold'
                        (htaken'.sound hsound)).mono
                      intro r' hr' hok'
                      obtain ⟨hbelow, hfills⟩ := hr' hok'
                      constructor
                      · intro i hi
                        rw [hbelow i (by omega), hleaf hok, Function.update_of_ne (by omega)]
                      · have hv : r'.2.1.leaf v = some ⟨mem, e.perm⟩ := by
                          rw [hbelow v (by omega), hleaf hok, Function.update_self]
                        refine hfills.cons (lasting_copyOf s₀ old.leaf) hsound htaken' hmem hnot'
                          hcopy hv fun i hi => ?_
                        obtain ⟨hi₁, hi₂, hne⟩ := hi
                        by_cases hiv : i = v
                        · exact Or.inl hiv
                        · exact Or.inr ⟨by omega, by omega, hne⟩

theorem uvmallocLoop_fills (kv : Kernel) (shm : ℕ) (perm : Perm) (oldsz n : ℕ) (s : Kmem)
    (pt : PageTable) (v : ℕ) (htop : v + n ≤ maxPage) (hs : s.Sound) :
    Yields (fun _ => True) (uvmallocLoop kv shm perm oldsz n s pt (v * pgSize)) fun r =>
      r.2.2 = true → (∀ i < v, r.2.1.leaf i = pt.leaf i) ∧
        Fills (fun _ => Zeroed) s r.1 r.2.1.leaf {i | v ≤ i ∧ i < v + n} := by
  induction n generalizing s pt v with
  | zero =>
      rw [uvmallocLoop, yields_pure]
      exact fun _ => ⟨fun _ _ => rfl, .nil s _ fun i hi => by have := hi.1; have := hi.2; omega⟩
  | succ n ih =>
      have hmax : v < maxPage := by omega
      rw [uvmallocLoop]
      cases hk : kalloc s with
      | mk r s' =>
          cases r with
          | none => exact (yields_true _).bind fun _ _ hok => absurd hok Bool.false_ne_true
          | some mem =>
              obtain ⟨hmem, hnot, htaken⟩ := hs.kalloc hk
              apply (mappages_fills lasting_zeroed hs hmax (htaken.memset hmem hnot 0) hmem hnot
                (zeroed_memset s' mem)).bind
              rintro r ⟨htaken', hnot', hzero, hleaf⟩
              cases hok : r.2.2 with
              | false =>
                  rw [if_neg (by decide)]
                  refine (yields_true _).bind fun _ _ => ?_
                  exact (yields_true _).bind fun _ _ hok => absurd hok Bool.false_ne_true
              | true =>
                  rw [if_pos rfl, ← Nat.succ_mul]
                  apply (ih r.1 r.2.1 (v + 1) (by omega) (htaken'.sound hs)).mono
                  intro r' hr' hok'
                  obtain ⟨hbelow, hfills⟩ := hr' hok'
                  constructor
                  · intro i hi
                    rw [hbelow i (by omega), hleaf hok, Function.update_of_ne (by omega)]
                  · have hv : r'.2.1.leaf v = some ⟨mem, perm⟩ := by
                      rw [hbelow v (by omega), hleaf hok, Function.update_self]
                    refine hfills.cons lasting_zeroed hs htaken' hmem hnot' hzero hv fun i hi => ?_
                    obtain ⟨hi₁, hi₂⟩ := hi
                    by_cases hiv : i = v
                    · exact Or.inl hiv
                    · exact Or.inr ⟨by omega, by omega⟩

end Memory
