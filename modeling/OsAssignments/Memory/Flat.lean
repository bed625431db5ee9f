import OsAssignments.Library.FlatMemory
import OsAssignments.Memory.AllOrNothing
import OsAssignments.Memory.Contents

/-!
# Demand paging as flat memories

Seen through the page tables, each process has a flat memory: the byte at an address is the
byte of the page that is mapped there, and zero where no page is mapped. `flat` is that view
of the machine. As long as no thread is created, no page is mapped twice as user memory,
except for the one at `SHM_VA`. So a page fault does not change the view at all, growth adds
zeros, a shrink takes the pages above the new size away, and a fork copies.
-/

namespace Memory

open Outcome RefPool RadixTree Machine Kmem FlatMemory

section View

variable {nproc : ℕ} {kernelEnd : ℕ} {reserved : ℕ → ℕ} {g : Globals}
  {m m' : Machine Kmem nproc} {i j : Fin nproc} {p q : Space} {s s' : Kmem}

/-- The permission of a page that the kernel adds to an address space. -/
def freshPerm : Perm := userPerm true false

/-- The leaves below `SHM_VA`. -/
def below (f : ℕ → Option Pte) (v : ℕ) : Option Pte := if v < shmPage then f v else none

def userLeaf : Option Space → ℕ → Option Pte
  | none => fun _ => none
  | some p => below p.pagetable.leaf

/-- The leaf at `SHM_VA`. -/
def shmLeaf (o : Option Space) : Option Pte := o.bind fun p => p.pagetable.leaf shmPage

/-- The byte at `a` through the leaves `f`. -/
def cell (s : Kmem) (f : ℕ → Option Pte) (a : ℕ) : UInt8 :=
  (f (a / pgSize)).elim 0 fun e => s.bytes (e.pa + a % pgSize)

def permOf (o : Option Pte) : Perm := o.elim freshPerm Pte.perm

abbrev UserMemory (nproc : ℕ) : Type := Flat (Fin nproc) Perm UInt8

def flat (g : Globals) (m : Machine Kmem nproc) : UserMemory nproc where
  size i := (m.proc i).map Space.sz
  attached i := (shmLeaf (m.proc i)).isSome
  mode i v := permOf (if v = shmPage then shmLeaf (m.proc i) else userLeaf (m.proc i) v)
  content
    | .own i a => cell m.mem (userLeaf (m.proc i)) a
    | .shared k => if k < pgSize then m.mem.bytes (g.shmPagePa + k) else 0

theorem flat_size (g : Globals) (m : Machine Kmem nproc) (i : Fin nproc) :
    (flat g m).size i = (m.proc i).map Space.sz := rfl

theorem flat_attached (g : Globals) (m : Machine Kmem nproc) (i : Fin nproc) :
    (flat g m).attached i = (shmLeaf (m.proc i)).isSome := rfl

theorem flat_mode (g : Globals) (m : Machine Kmem nproc) (i : Fin nproc) (v : ℕ) :
    (flat g m).mode i v =
      permOf (if v = shmPage then shmLeaf (m.proc i) else userLeaf (m.proc i) v) := rfl

theorem flat_own (g : Globals) (m : Machine Kmem nproc) (i : Fin nproc) (a : ℕ) :
    (flat g m).content (.own i a) = cell m.mem (userLeaf (m.proc i)) a := rfl

theorem flat_shared (g : Globals) (m : Machine Kmem nproc) (k : ℕ) :
    (flat g m).content (.shared k) =
      if k < pgSize then m.mem.bytes (g.shmPagePa + k) else 0 := rfl

theorem pages_eq (sz : ℕ) : Flat.pages pgSize sz = pageCount sz := rfl

theorem cell_of_none {f : ℕ → Option Pte} {a : ℕ} (h : f (a / pgSize) = none) :
    cell s f a = 0 := by
  unfold cell
  rw [h]
  rfl

theorem cell_of_some {f : ℕ → Option Pte} {a : ℕ} {e : Pte} (h : f (a / pgSize) = some e) :
    cell s f a = s.bytes (e.pa + a % pgSize) := by
  unfold cell
  rw [h]
  rfl

def Unaliased (m : Machine Kmem nproc) : Prop :=
  ∀ i v e j w x, userLeaf (m.proc i) v = some e → userLeaf (m.proc j) w = some x →
    x.pa = e.pa → j = i ∧ w = v

/-- The memory invariant of a machine in which no pages are shared but the one at `SHM_VA`. -/
structure Private (kernelEnd : ℕ) (reserved : ℕ → ℕ) (g : Globals) (m : Machine Kmem nproc) :
    Prop where
  kernBase_le : kernBase ≤ kernelEnd
  trampoline_lt : g.trampoline < kernelEnd
  shm_reserved : 0 < reserved g.shmPagePa
  inv : Inv (Kmem.Balanced kernelEnd reserved) g m
  unaliased : Unaliased m

theorem below_of_lt (f : ℕ → Option Pte) {v : ℕ} (hv : v < shmPage) : below f v = f v := if_pos hv

theorem below_of_le (f : ℕ → Option Pte) {v : ℕ} (hv : shmPage ≤ v) : below f v = none :=
  if_neg (Nat.not_lt.mpr hv)

theorem below_eq_some {f : ℕ → Option Pte} {v : ℕ} {e : Pte} :
    below f v = some e ↔ v < shmPage ∧ f v = some e := by
  by_cases hv : v < shmPage
  · rw [below_of_lt f hv]
    exact (and_iff_right hv).symm
  · rw [below_of_le f (Nat.not_lt.mp hv)]
    exact ⟨fun h => absurd h.symm (Option.some_ne_none e), fun h => absurd h.1 hv⟩

theorem below_congr {f f' : ℕ → Option Pte} (h : ∀ v < shmPage, f' v = f v) :
    below f' = below f := by
  funext v
  unfold below
  split_ifs with hv
  · exact h v hv
  · rfl

theorem userLeaf_eq_some {o : Option Space} {v : ℕ} {e : Pte} :
    userLeaf o v = some e ↔ v < shmPage ∧ ∃ p, o = some p ∧ p.pagetable.leaf v = some e := by
  cases o with
  | none =>
      constructor
      · intro h
        cases h
      · rintro ⟨_, p, hp, _⟩
        cases hp
  | some p =>
      refine below_eq_some.trans (and_congr_right fun _ => ⟨fun h => ⟨p, rfl, h⟩, ?_⟩)
      rintro ⟨q, hq, h⟩
      cases hq
      exact h

theorem userLeaf_of_le (o : Option Space) {v : ℕ} (hv : shmPage ≤ v) : userLeaf o v = none := by
  cases o with
  | none => rfl
  | some p => exact below_of_le _ hv

/-- A user page lies on a page boundary, is not free, and is not the shared page. -/
theorem Private.page (hm : Private kernelEnd reserved g m) {v : ℕ} {e : Pte}
    (he : userLeaf (m.proc i) v = some e) :
    e.pa % pgSize = 0 ∧ e.pa ∉ m.mem.freelist ∧ e.pa ≠ g.shmPagePa := by
  obtain ⟨hv, p, hp, hleaf⟩ := userLeaf_eq_some.mp he
  have hpos := user_pos hp hv hleaf
  have hframe := hm.inv.books.2.valid_of_held e.pa (Nat.add_pos_left hpos _)
  refine ⟨hframe.1, fun hfree => ?_, fun hshm => ?_⟩
  · exact (not_free_of_inv hm.inv hm.trampoline_lt hm.shm_reserved hfree hp).2 v e hleaf rfl
  · have hexcl := (hm.inv.books.2.exclusive e.pa (by
      rw [hshm]
      exact Nat.add_pos_right _ hm.shm_reserved)).2
    omega

theorem Private.shm (hm : Private kernelEnd reserved g m) :
    g.shmPagePa % pgSize = 0 ∧ g.shmPagePa ∉ m.mem.freelist := by
  have hpos : 0 < m.user g.shmPagePa + (m.owned + reserved) g.shmPagePa :=
    Nat.add_pos_right _ (Nat.add_pos_right _ hm.shm_reserved)
  refine ⟨(hm.inv.books.2.valid_of_held _ hpos).1, fun hfree => ?_⟩
  have := ((hm.inv.books.2.mem_free _).mp hfree).2
  omega

/-! ## One address space changes -/

/-- From the leaves `f` to `f'`: a page that is mapped stays what it is or goes, and where a
page is added it was free, is added once, and satisfies `c`. -/
structure Refills (c : ℕ → Kmem → Pte → Prop) (s s' : Kmem) (f f' : ℕ → Option Pte) : Prop where
  leaf : ∀ v e, f' v = some e → f v = some e ∨ f v = none ∧ e.pa ∈ s.freelist ∧ c v s' e
  apart : ∀ v w e x, f' v = some e → f' w = some x → x.pa = e.pa → e.pa ∈ s.freelist → w = v

/-- A page that has just been added: zeros that may be read and written. -/
def Blank (_ : ℕ) (s : Kmem) (e : Pte) : Prop := s.Zeroed e.pa ∧ e.perm = freshPerm

/-- Leaves that only go. -/
theorem Refills.of_subset {c : ℕ → Kmem → Pte → Prop} {f f' : ℕ → Option Pte}
    (h : ∀ v e, f' v = some e → f v = some e)
    (hfree : ∀ v e, f v = some e → e.pa ∉ s.freelist) : Refills c s s' f f' :=
  ⟨fun v e he => Or.inl (h v e he), fun v _ e _ he _ _ hin => absurd hin (hfree v e (h v e he))⟩

/-- A loop that has filled the pages of `V`, which were holes, and left the others. -/
theorem Refills.of_fills {c : ℕ → Kmem → Pte → Prop} {d : ℕ → Kmem → ℕ → Prop}
    {f f' : ℕ → Option Pte} {V : Set ℕ} (h : Fills d s s' f' V) (hnew : ∀ v ∈ V, below f v = none)
    (hold : ∀ v ∉ V, ∀ e, below f' v = some e → below f v = some e)
    (hc : ∀ v ∈ V, ∀ e, f' v = some e → d v s' e.pa → c v s' e)
    (hfree : ∀ v e, below f v = some e → e.pa ∉ s.freelist) :
    Refills c s s' (below f) (below f') := by
  have hin : ∀ v e, below f' v = some e → e.pa ∈ s.freelist → v ∈ V := by
    intro v e he hmem
    by_contra hv
    exact hfree v e (hold v hv e he) hmem
  constructor
  · intro v e he
    by_cases hv : v ∈ V
    · obtain ⟨e', he', hmem, _, hd⟩ := h.leaf v hv
      have heq : e' = e := Option.some.inj (he'.symm.trans (below_eq_some.mp he).2)
      subst heq
      exact Or.inr ⟨hnew v hv, hmem, hc v hv e' he' hd⟩
    · exact Or.inl (hold v hv e he)
  · intro v w e x he hx hpa hmem
    refine h.apart w (hin w x hx (hpa ▸ hmem)) v (hin v e he hmem) ?_
    rw [(below_eq_some.mp he).2, (below_eq_some.mp hx).2]
    exact congrArg some hpa

theorem Unaliased.put {c : ℕ → Kmem → Pte → Prop} (hm : Private kernelEnd reserved g m)
    (h : Refills c m.mem s (userLeaf (m.proc i)) (userLeaf (some q))) :
    Unaliased (m.put s i (some q)) := by
  -- a leaf of slot `k` is an old one, or it is one of slot `i` and its page was free
  have hcases : ∀ k v e, userLeaf ((m.put s i (some q)).proc k) v = some e →
      userLeaf (m.proc k) v = some e ∨
        k = i ∧ userLeaf (some q) v = some e ∧ e.pa ∈ m.mem.freelist := by
    intro k v e he
    by_cases hk : k = i
    · subst hk
      rw [put_proc_self] at he
      exact (h.leaf v e he).imp_right fun hnew => ⟨rfl, he, hnew.2.1⟩
    · rw [put_proc_of_ne _ _ _ hk] at he
      exact Or.inl he
  intro k v e l w x he hx hpa
  rcases hcases k v e he with hold | ⟨rfl, hnew, hfree⟩
  · rcases hcases l w x hx with hold' | ⟨rfl, _, hfree'⟩
    · exact hm.unaliased k v e l w x hold hold' hpa
    · exact absurd (hpa ▸ hfree') (hm.page hold).2.1
  · rcases hcases l w x hx with hold' | ⟨rfl, hnew', _⟩
    · exact absurd (hpa ▸ hfree) (hm.page hold').2.1
    · exact ⟨rfl, h.apart v w e x hnew hnew' hpa hfree⟩

theorem Unaliased.remove (hm : Unaliased m) : Unaliased (m.put s i none) := by
  have hcases : ∀ k v e, userLeaf ((m.put s i none).proc k) v = some e →
      userLeaf (m.proc k) v = some e := by
    intro k v e he
    by_cases hk : k = i
    · subst hk
      rw [put_proc_self] at he
      cases he
    · rw [put_proc_of_ne _ _ _ hk] at he
      exact he
  exact fun k v e l w x he hx hpa => hm k v e l w x (hcases k v e he) (hcases l w x hx) hpa

theorem Private.put {c : ℕ → Kmem → Pte → Prop} (hm : Private kernelEnd reserved g m)
    (hinv : Inv (Kmem.Balanced kernelEnd reserved) g (m.put s i (some q)))
    (h : Refills c m.mem s (userLeaf (m.proc i)) (userLeaf (some q))) :
    Private kernelEnd reserved g (m.put s i (some q)) :=
  { hm with
    inv := hinv
    unaliased := .put hm h }

/-! ## The view after a change -/

theorem cell_kept {reserved' : ℕ → ℕ} (hm : Private kernelEnd reserved g m)
    (hm' : Private kernelEnd reserved' g m')
    (hcycles : Cycles m.mem m'.mem) {k l : Fin nproc} {a : ℕ} {e : Pte}
    (he : userLeaf (m.proc k) (a / pgSize) = some e)
    (he' : userLeaf (m'.proc l) (a / pgSize) = some e) :
    cell m'.mem (userLeaf (m'.proc l)) a = cell m.mem (userLeaf (m.proc k)) a := by
  obtain ⟨hal, hfree, _⟩ := hm.page he
  obtain ⟨_, hfree', _⟩ := hm'.page he'
  rw [cell_of_some he, cell_of_some he']
  exact hcycles.sameBytes hm.inv.books.sound hm'.inv.books.sound hal hfree hfree' _
    (Nat.mod_lt _ (by decide))

theorem cell_frame {reserved' : ℕ → ℕ} (hm : Private kernelEnd reserved g m)
    (hm' : Private kernelEnd reserved' g m')
    (hcycles : Cycles m.mem m'.mem) (hproc : m'.proc i = m.proc i) (a : ℕ) :
    cell m'.mem (userLeaf (m'.proc i)) a = cell m.mem (userLeaf (m.proc i)) a := by
  cases he : userLeaf (m.proc i) (a / pgSize) with
  | some e => exact cell_kept hm hm' hcycles he (hproc ▸ he)
  | none => rw [cell_of_none he, cell_of_none (hproc ▸ he)]

theorem shared_frame {reserved' : ℕ → ℕ} (hm : Private kernelEnd reserved g m)
    (hm' : Private kernelEnd reserved' g m')
    (hcycles : Cycles m.mem m'.mem) (k : ℕ) :
    (flat g m').content (.shared k) = (flat g m).content (.shared k) := by
  rw [flat_shared, flat_shared]
  split_ifs with hk
  · obtain ⟨hal, hfree⟩ := hm.shm
    exact hcycles.sameBytes hm.inv.books.sound hm'.inv.books.sound hal hfree hm'.shm.2 k hk
  · rfl

/-- Blank pages do not show: where a page is mapped after the change, the byte is as before. -/
theorem cell_refills (hm : Private kernelEnd reserved g m)
    (hm' : Private kernelEnd reserved g m') (hcycles : Cycles m.mem m'.mem)
    (h : Refills Blank m.mem m'.mem (userLeaf (m.proc i)) (userLeaf (m'.proc i))) {a : ℕ}
    (hmapped : userLeaf (m.proc i) (a / pgSize) ≠ none → userLeaf (m'.proc i) (a / pgSize) ≠ none) :
    cell m'.mem (userLeaf (m'.proc i)) a = cell m.mem (userLeaf (m.proc i)) a := by
  cases he' : userLeaf (m'.proc i) (a / pgSize) with
  | none =>
      have he : userLeaf (m.proc i) (a / pgSize) = none := by
        by_contra hne
        exact hmapped hne he'
      rw [cell_of_none he, cell_of_none he']
  | some e =>
      rcases h.leaf _ e he' with he | ⟨he, _, hzero, _⟩
      · exact cell_kept hm hm' hcycles he he'
      · rw [cell_of_none he, cell_of_some he']
        exact hzero _ (Nat.mod_lt _ (by decide))

theorem permOf_refills {f f' : ℕ → Option Pte} (h : Refills Blank s s' f f') {v : ℕ}
    (hmapped : f v ≠ none → f' v ≠ none) : permOf (f' v) = permOf (f v) := by
  cases he' : f' v with
  | none =>
      have he : f v = none := by
        by_contra hne
        exact hmapped hne he'
      rw [he]
  | some e =>
      rcases h.leaf v e he' with he | ⟨he, _, _, hperm⟩
      · rw [he]
      · rw [he]
        exact hperm

theorem userLeaf_above (hq : q.WellMapped g) {v : ℕ} (hv : ¬ v < pageCount q.sz) :
    userLeaf (some q) v = none := by
  by_cases hlt : v < shmPage
  · exact (below_of_lt _ hlt).trans (hq.shape.hole v (Nat.not_lt.mp hv) hlt)
  · exact userLeaf_of_le _ (Nat.not_lt.mp hlt)

/-- The space in slot `i` has been resized: pages were added below its new size and none of
those below it has gone. -/
theorem flat_resize (hm : Private kernelEnd reserved g m) (hp : m.proc i = some p)
    (hm' : Private kernelEnd reserved g (m.put s i (some q)))
    (hcycles : Cycles m.mem s)
    (h : Refills Blank m.mem s (userLeaf (some p)) (userLeaf (some q)))
    (hshm : q.pagetable.leaf shmPage = p.pagetable.leaf shmPage)
    (hkept : ∀ v < pageCount q.sz, userLeaf (some p) v ≠ none → userLeaf (some q) v ≠ none) :
    flat g (m.put s i (some q)) = (flat g m).resize pgSize shmPage freshPerm 0 i q.sz := by
  have hwell := hm'.inv.spaces i q (put_proc_self ..)
  have hpi : (m.put s i (some q)).proc i = some q := put_proc_self ..
  have hne : ∀ k, k ≠ i → (m.put s i (some q)).proc k = m.proc k :=
    fun k hk => put_proc_of_ne _ _ _ hk
  ext1
  · funext k
    rw [flat_size, Flat.resize_size]
    by_cases hk : k = i
    · rw [hk, hpi, Function.update_self]
      rfl
    · rw [hne k hk, Function.update_of_ne hk]
      rfl
  · funext k
    rw [flat_attached, Flat.resize_attached, flat_attached]
    by_cases hk : k = i
    · rw [hk, hpi, hp]
      exact congrArg Option.isSome hshm
    · rw [hne k hk]
  · funext k v
    by_cases hk : k = i
    · subst hk
      rw [Flat.resize_mode_self, pages_eq, flat_mode, flat_mode, hpi, hp]
      by_cases hv : v = shmPage
      · rw [if_pos hv, if_pos (Or.inr hv), if_pos hv]
        exact congrArg permOf hshm
      · rw [if_neg hv, if_neg hv]
        by_cases hlt : v < pageCount q.sz
        · rw [if_pos (Or.inl hlt)]
          exact permOf_refills h (hkept v hlt)
        · rw [if_neg (not_or.mpr ⟨hlt, hv⟩), userLeaf_above hwell hlt]
          rfl
    · rw [Flat.resize_mode_of_ne hk, flat_mode, flat_mode, hne k hk]
  · funext x
    cases x with
    | shared k => exact shared_frame hm hm' hcycles k
    | own k a =>
        rw [Flat.resize_content_own, pages_eq, flat_own, flat_own]
        by_cases hk : k = i
        · subst hk
          by_cases hlt : a / pgSize < pageCount q.sz
          · rw [if_neg fun hnot => hnot.2 (Or.inl hlt)]
            refine cell_refills hm hm' hcycles (by rw [hpi, hp]; exact h) fun hne' => ?_
            rw [hpi]
            rw [hp] at hne'
            exact hkept _ hlt hne'
          · rw [cell_of_none (by rw [hpi]; exact userLeaf_above hwell hlt)]
            by_cases hw : a / pgSize = shmPage
            · rw [if_neg fun hnot => hnot.2 (Or.inr hw), cell_of_none (userLeaf_of_le _ hw.ge)]
            · rw [if_pos ⟨rfl, not_or.mpr ⟨hlt, hw⟩⟩]
        · rw [if_neg fun hnot => hk hnot.1]
          exact cell_frame hm hm' hcycles (hne k hk) a

/-- The window is attached: the leaf at `SHM_VA` is there, and nothing else has changed. -/
theorem flat_attach (hm : Private kernelEnd reserved g m)
    (hm' : Private kernelEnd reserved g (m.put s i (some q))) (hp : m.proc i = some p)
    (hcycles : Cycles m.mem s) (hleaf : q.pagetable.leaf = Function.update p.pagetable.leaf shmPage
      (some ⟨g.shmPagePa, freshPerm⟩)) (hsz : q.sz = p.sz) :
    flat g (m.put s i (some q)) = (flat g m).attach shmPage freshPerm i := by
  have hpi : (m.put s i (some q)).proc i = some q := put_proc_self ..
  have hne : ∀ k, k ≠ i → (m.put s i (some q)).proc k = m.proc k :=
    fun k hk => put_proc_of_ne _ _ _ hk
  have huser : userLeaf (some q) = userLeaf (some p) :=
    below_congr fun v hv => by rw [hleaf, Function.update_of_ne (Nat.ne_of_lt hv)]
  have hshm : shmLeaf (some q) = some ⟨g.shmPagePa, freshPerm⟩ := by
    change q.pagetable.leaf shmPage = _
    rw [hleaf, Function.update_self]
  ext1
  · funext k
    rw [flat_size, Flat.attach_size, flat_size]
    by_cases hk : k = i
    · rw [hk, hpi, hp]
      exact congrArg some hsz
    · rw [hne k hk]
  · funext k
    rw [flat_attached, Flat.attach_attached]
    by_cases hk : k = i
    · rw [hk, hpi, Function.update_self, hshm]
      rfl
    · rw [hne k hk, Function.update_of_ne hk]
      rfl
  · funext k v
    rw [flat_mode, Flat.attach_mode]
    by_cases hk : k = i
    · rw [hk, hpi, Function.update_self]
      by_cases hv : v = shmPage
      · rw [if_pos hv, hv, Function.update_self, hshm]
        rfl
      · rw [if_neg hv, Function.update_of_ne hv, flat_mode, if_neg hv, hp, huser]
    · rw [hne k hk, Function.update_of_ne hk]
      rfl
  · funext x
    cases x with
    | shared k => exact shared_frame hm hm' hcycles k
    | own k a =>
        by_cases hk : k = i
        · subst hk
          change cell s (userLeaf ((m.put s k (some q)).proc k)) a = cell m.mem (userLeaf (m.proc k)) a
          cases he : userLeaf (m.proc k) (a / pgSize) with
          | none => rw [cell_of_none he, cell_of_none (by rw [hpi, huser, ← hp]; exact he)]
          | some e => exact cell_kept hm hm' hcycles he (by rw [hpi, huser, ← hp]; exact he)
        · exact cell_frame hm hm' hcycles (hne k hk) a

/-- The pages of a copy: each has the contents and the permission of the page at its place. -/
def Copied (s₀ : Kmem) (old : ℕ → Option Pte) (v : ℕ) (s : Kmem) (e : Pte) : Prop :=
  ∀ x, old v = some x → SameBytes s₀ x.pa s e.pa ∧ e.perm = x.perm

theorem flat_fork (hm : Private kernelEnd reserved g m) (hp : m.proc i = some p)
    (hm' : Private kernelEnd reserved g (m.put s j (some q)))
    (hcycles : Cycles m.mem s)
    (h : Refills (Copied m.mem (userLeaf (some p))) m.mem s (fun _ => none) (userLeaf (some q)))
    (hsz : q.sz = p.sz) (hmapped : ∀ v, userLeaf (some q) v = none ↔ userLeaf (some p) v = none)
    (hshm : q.pagetable.leaf shmPage = if p.pagetable.leaf shmPage = none then none else
      some ⟨g.shmPagePa, freshPerm⟩) :
    flat g (m.put s j (some q)) = (flat g m).fork shmPage freshPerm i j := by
  have hpj : (m.put s j (some q)).proc j = some q := put_proc_self ..
  have hne : ∀ k, k ≠ j → (m.put s j (some q)).proc k = m.proc k :=
    fun k hk => put_proc_of_ne _ _ _ hk
  have hcopy : ∀ v e, userLeaf (some q) v = some e → ∃ x, userLeaf (some p) v = some x ∧
      SameBytes m.mem x.pa s e.pa ∧ e.perm = x.perm := by
    intro v e he
    rcases h.leaf v e he with hnone | ⟨_, _, hc⟩
    · cases hnone
    · have hne : userLeaf (some p) v ≠ none := fun hnone => by
        rw [(hmapped v).mpr hnone] at he
        cases he
      obtain ⟨x, hx⟩ := Option.ne_none_iff_exists'.mp hne
      exact ⟨x, hx, hc x hx⟩
  ext1
  · funext k
    rw [flat_size, Flat.fork_size]
    by_cases hk : k = j
    · rw [hk, hpj, Function.update_self, flat_size, hp]
      exact congrArg some hsz
    · rw [hne k hk, Function.update_of_ne hk]
      rfl
  · funext k
    rw [flat_attached, Flat.fork_attached]
    by_cases hk : k = j
    · rw [hk, hpj, Function.update_self, flat_attached, hp]
      change (q.pagetable.leaf shmPage).isSome = (p.pagetable.leaf shmPage).isSome
      rw [hshm]
      cases p.pagetable.leaf shmPage with
      | none => rfl
      | some e => rfl
    · rw [hne k hk, Function.update_of_ne hk]
      rfl
  · funext k v
    rw [flat_mode, Flat.fork_mode]
    by_cases hk : k = j
    · rw [hk, hpj, Function.update_self]
      by_cases hv : v = shmPage
      · rw [if_pos hv, hv, Function.update_self]
        change permOf (q.pagetable.leaf shmPage) = freshPerm
        rw [hshm]
        split_ifs
        · rfl
        · rfl
      · rw [if_neg hv, Function.update_of_ne hv, flat_mode, if_neg hv, hp]
        cases he : userLeaf (some q) v with
        | none => rw [(hmapped v).mp he]
        | some e =>
            obtain ⟨x, hx, _, hperm⟩ := hcopy v e he
            rw [hx]
            exact hperm
    · rw [hne k hk, Function.update_of_ne hk]
      rfl
  · funext x
    cases x with
    | shared k => exact shared_frame hm hm' hcycles k
    | own k a =>
        rw [flat_own, Flat.fork_own, flat_own]
        by_cases hk : k = j
        · rw [if_pos hk, hk, hpj, hp]
          cases he : userLeaf (some q) (a / pgSize) with
          | none => rw [cell_of_none he, cell_of_none ((hmapped _).mp he)]
          | some e =>
              obtain ⟨x, hx, hsame, _⟩ := hcopy _ e he
              rw [cell_of_some he, cell_of_some hx]
              exact hsame _ (Nat.mod_lt _ (by decide))
        · rw [if_neg hk]
          exact cell_frame hm hm' hcycles (hne k hk) a

theorem flat_remove (hm : Private kernelEnd reserved g m)
    (hm' : Private kernelEnd reserved g (m.put s i none)) (hcycles : Cycles m.mem s) :
    flat g (m.put s i none) = (flat g m).remove pgSize freshPerm 0 i := by
  have hpi : (m.put s i none).proc i = none := put_proc_self ..
  have hne : ∀ k, k ≠ i → (m.put s i none).proc k = m.proc k :=
    fun k hk => put_proc_of_ne _ _ _ hk
  ext1
  · funext k
    rw [flat_size, Flat.remove_size]
    by_cases hk : k = i
    · rw [hk, hpi, Function.update_self]
      rfl
    · rw [hne k hk, Function.update_of_ne hk]
      rfl
  · funext k
    rw [flat_attached, Flat.remove_attached]
    by_cases hk : k = i
    · rw [hk, hpi, Function.update_self]
      rfl
    · rw [hne k hk, Function.update_of_ne hk]
      rfl
  · funext k v
    rw [flat_mode, Flat.remove_mode]
    by_cases hk : k = i
    · rw [hk, hpi, Function.update_self]
      split_ifs
      · rfl
      · rfl
    · rw [hne k hk, Function.update_of_ne hk]
      rfl
  · funext x
    cases x with
    | shared k => exact shared_frame hm hm' hcycles k
    | own k a =>
        rw [flat_own, Flat.remove_own]
        by_cases hk : k = i
        · rw [if_pos hk, hk, hpi]
          rfl
        · rw [if_neg hk]
          exact cell_frame hm hm' hcycles (hne k hk) a

theorem resize_same (hm : Private kernelEnd reserved g m) (hp : m.proc i = some p) :
    (flat g m).resize pgSize shmPage freshPerm 0 i p.sz = flat g m := by
  have hwell := hm.inv.spaces i p hp
  ext1
  · rw [Flat.resize_size, Function.update_eq_self_iff, flat_size, hp]
    rfl
  · rfl
  · funext k v
    by_cases hk : k = i
    · rw [hk, Flat.resize_mode_self, pages_eq]
      split_ifs with hv
      · rfl
      · obtain ⟨hv, hshm⟩ := not_or.mp hv
        rw [flat_mode, if_neg hshm, hp, userLeaf_above hwell hv]
        rfl
    · rw [Flat.resize_mode_of_ne hk]
  · funext x
    cases x with
    | shared k => rfl
    | own k a =>
        rw [Flat.resize_content_own, pages_eq]
        split_ifs with h
        · obtain ⟨rfl, hnot⟩ := h
          rw [flat_own, cell_of_none]
          rw [hp]
          exact userLeaf_above hwell (not_or.mp hnot).1
        · rfl

end View

end Memory
