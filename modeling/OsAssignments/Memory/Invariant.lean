import Mathlib.Logic.Relation
import OsAssignments.Memory.Space

/-!
# The memory invariant

`Inv R g m` says that the books `R` of the allocator balance with what the process
table of `m` holds, and that each address space is well mapped.

Every action changes one slot of the table. Its specification names the new
contents of the slot, and `Inv.put` gives the invariant back from the books and the
well-mappedness of that slot alone. The page at `SHM_VA` may be reached by a growth
that `growproc` does not reject; the invariant is claimed as long as the sizes stay
at `SHM_VA` or below.
-/

open scoped BigOperators

namespace Memory

open Outcome RefPool RadixTree

def spaceUser : Option Space → ℕ → ℕ
  | none => 0
  | some p => userCount p.pagetable.leaf

/-- The pages the kernel keeps for a slot: the trapframe and the tables. -/
def spaceOwned : Option Space → ℕ → ℕ
  | none => 0
  | some p => one p.trapframe + p.pagetable.pages

namespace Machine

variable {σ : Type} {nproc : ℕ}

def user (m : Machine σ nproc) : ℕ → ℕ := ∑ i, spaceUser (m.proc i)

def owned (m : Machine σ nproc) : ℕ → ℕ := ∑ i, spaceOwned (m.proc i)

/-- How often each page is mapped as user memory, but for slot `i`. -/
def userOff (m : Machine σ nproc) (i : Fin nproc) : ℕ → ℕ :=
  ∑ j ∈ Finset.univ.erase i, spaceUser (m.proc j)

def ownedOff (m : Machine σ nproc) (i : Fin nproc) : ℕ → ℕ :=
  ∑ j ∈ Finset.univ.erase i, spaceOwned (m.proc j)

theorem user_eq (m : Machine σ nproc) (i : Fin nproc) :
    m.user = m.userOff i + spaceUser (m.proc i) :=
  (Finset.sum_erase_add _ (fun j => spaceUser (m.proc j)) (Finset.mem_univ i)).symm

theorem owned_eq (m : Machine σ nproc) (i : Fin nproc) :
    m.owned = m.ownedOff i + spaceOwned (m.proc i) :=
  (Finset.sum_erase_add _ (fun j => spaceOwned (m.proc j)) (Finset.mem_univ i)).symm

theorem user_put (m : Machine σ nproc) (s : σ) (i : Fin nproc) (o : Option Space) :
    (m.put s i o).user = m.userOff i + spaceUser o := by
  rw [user_eq _ i, put_proc_self]
  congr 1
  apply Finset.sum_congr rfl
  intro j hj
  rw [put_proc_of_ne _ _ _ (Finset.ne_of_mem_erase hj)]

theorem owned_put (m : Machine σ nproc) (s : σ) (i : Fin nproc) (o : Option Space) :
    (m.put s i o).owned = m.ownedOff i + spaceOwned o := by
  rw [owned_eq _ i, put_proc_self]
  congr 1
  apply Finset.sum_congr rfl
  intro j hj
  rw [put_proc_of_ne _ _ _ (Finset.ne_of_mem_erase hj)]

theorem put_self {m : Machine σ nproc} {i : Fin nproc} {o : Option Space} (h : m.proc i = o) :
    m.put m.mem i o = m := by
  unfold put
  rw [Function.update_eq_self_iff.mpr h.symm]

/-- Every size is at most `SHM_VA`. -/
def Fits (m : Machine σ nproc) : Prop := ∀ i, ∀ p ∈ m.proc i, p.sz ≤ shmVa

instance (m : Machine σ nproc) : Decidable m.Fits :=
  inferInstanceAs (Decidable (∀ _, _))

/-- The books balance, and every address space is well mapped. -/
structure Inv (R : σ → (ℕ → ℕ) → (ℕ → ℕ) → Prop) (g : Globals) (m : Machine σ nproc) : Prop where
  books : R m.mem m.user m.owned
  spaces : ∀ i p, m.proc i = some p → p.WellMapped g

variable {R : σ → (ℕ → ℕ) → (ℕ → ℕ) → Prop} {g : Globals} {m : Machine σ nproc}
  {i : Fin nproc} {s : σ} {o : Option Space} {p : Space}

theorem Inv.put (h : Inv R g m) (hR : R s (m.userOff i + spaceUser o) (m.ownedOff i + spaceOwned o))
    (ho : ∀ p, o = some p → p.WellMapped g) : Inv R g (m.put s i o) := by
  constructor
  · rw [user_put, owned_put, put_mem]
    exact hR
  · intro j p hp
    by_cases hj : j = i
    · rw [hj, put_proc_self] at hp
      exact ho p hp
    · rw [put_proc_of_ne _ _ _ hj] at hp
      exact h.spaces j p hp

theorem Inv.withMem (h : Inv R g m) (hR : R s m.user m.owned) : Inv R g (m.withMem s) :=
  ⟨hR, h.spaces⟩

theorem books_off (h : R m.mem m.user m.owned) (hp : m.proc i = some p) :
    R m.mem (m.userOff i + userCount p.pagetable.leaf)
      (m.ownedOff i + one p.trapframe + p.pagetable.pages) := by
  rw [user_eq m i, owned_eq m i, hp] at h
  rw [add_assoc]
  exact h

theorem off_of_unused (hp : m.proc i = none) : m.userOff i = m.user ∧ m.ownedOff i = m.owned := by
  rw [user_eq m i, owned_eq m i, hp]
  exact ⟨rfl, rfl⟩

theorem user_pos (hp : m.proc i = some p) {v : ℕ} {e : Pte} (hv : v < shmPage)
    (he : p.pagetable.leaf v = some e) : 0 < m.user e.pa := by
  rw [user_eq m i, hp]
  have hfill : userCount p.pagetable.leaf =
      userCount (Function.update p.pagetable.leaf v none) + one e.pa :=
    (userCount_clear hv he).symm
  have hone : 0 < userCount p.pagetable.leaf e.pa := by
    rw [hfill, Pi.add_apply, one_self]
    omega
  rw [Pi.add_apply]
  exact Nat.add_pos_right _ hone

end Machine

/-! ## The system calls -/

section Outcomes

open Machine

variable {σ : Type} {nproc : ℕ} {g : Globals} {R : σ → (ℕ → ℕ) → (ℕ → ℕ) → Prop}
  {m : Machine σ nproc} {i : Fin nproc} {p : Space}

/-- What `sbrk` with the arguments `n` and `lazy` does to an address space. -/
inductive Resized (p : Space) (n : ℤ) (lazy : Bool) : Space → Prop
  | same (pt : PageTable) : pt.leaf = p.pagetable.leaf →
      Resized p n lazy { p with pagetable := pt }
  | grown (pt : PageTable) : 0 < n → lazy = false → addSz p.sz n ≤ trapframeVa →
      p.sz ≤ addSz p.sz n →
      (addSz p.sz n ≤ shmVa → Grown (userPerm true false) p.pagetable.leaf pt.leaf
        (pageCount p.sz) (pageCount (addSz p.sz n))) →
      Resized p n lazy { p with pagetable := pt, sz := addSz p.sz n }
  | shrunk (pt : PageTable) : n < 0 →
      pt.leaf = clearRange p.pagetable.leaf (pageCount (addSz p.sz n)) (pageCount p.sz) →
      Resized p n lazy { p with pagetable := pt, sz := min p.sz (addSz p.sz n) }
  | untouched : 0 ≤ n → addSz p.sz n ≤ trapframeVa → p.sz ≤ addSz p.sz n →
      Resized p n lazy { p with sz := addSz p.sz n }

theorem Resized.wellMapped {n : ℤ} {lazy : Bool} {q : Space} (h : Resized p n lazy q)
    (hp : p.WellMapped g) (hq : q.sz ≤ shmVa) : q.WellMapped g := by
  have hpages := pageCount_le_shmPage hp.sz_le
  refine ⟨hq, ?_⟩
  cases h with
  | same pt hleaf =>
      rw [hleaf]
      exact hp.shape
  | grown pt _ _ _ hle hgrown =>
      have hg := hgrown hq
      have hpages' := pageCount_le_shmPage hq
      apply hp.shape.congr
      · intro v hv hv'
        rw [hg.outside v (Or.inr hv)]
        exact hp.shape.hole v ((pageCount_mono hle).trans hv) hv'
      · intro v hv
        exact hg.outside v (Or.inr (hpages'.trans hv))
  | shrunk pt _ hleaf =>
      apply hp.shape.congr
      · intro v hv hv'
        dsimp only at hv ⊢
        rw [hleaf]
        unfold clearRange
        by_cases hlt : v < pageCount p.sz
        · rcases Nat.le_total p.sz (addSz p.sz n) with hle | hle
          · rw [min_eq_left hle] at hv
            omega
          · rw [min_eq_right hle] at hv
            rw [if_pos ⟨hv, hlt⟩]
        · rw [if_neg (by omega)]
          exact hp.shape.hole v (Nat.not_lt.mp hlt) hv'
      · intro v hv
        dsimp only
        rw [hleaf]
        exact if_neg (by omega)
  | untouched _ _ hle =>
      apply hp.shape.congr
      · intro v hv hv'
        exact hp.shape.hole v ((pageCount_mono hle).trans hv) hv'
      · intro v _
        rfl

/-- The slot `i` of `m` has been given the space `q`, with balanced books if `q` fits. -/
def Replaced (R : σ → (ℕ → ℕ) → (ℕ → ℕ) → Prop) (m : Machine σ nproc) (i : Fin nproc)
    (q : Space) (m' : Machine σ nproc) : Prop :=
  ∃ s, m' = m.put s i (some q) ∧ (q.sz ≤ shmVa →
    R s (m.userOff i + userCount q.pagetable.leaf)
      (m.ownedOff i + one q.trapframe + q.pagetable.pages))

theorem Replaced.books {q : Space} {m' : Machine σ nproc} (h : Replaced R m i q m')
    (hq : q.sz ≤ shmVa) : ∃ s, m' = m.put s i (some q) ∧
      R s (m.userOff i + spaceUser (some q)) (m.ownedOff i + spaceOwned (some q)) := by
  obtain ⟨s, hm', hR⟩ := h
  refine ⟨s, hm', ?_⟩
  have hb := hR hq
  rw [add_assoc] at hb
  exact hb

theorem Replaced.inv {q : Space} {m' : Machine σ nproc} (h : Replaced R m i q m') (hm : Inv R g m)
    (hq : q.WellMapped g) : Inv R g m' := by
  obtain ⟨s, rfl, hR⟩ := h.books hq.sz_le
  apply hm.put hR
  intro p hp
  cases hp
  exact hq

theorem Replaced.proc_self {q : Space} {m' : Machine σ nproc} (h : Replaced R m i q m') :
    m'.proc i = some q := by
  obtain ⟨s, rfl, _⟩ := h
  exact put_proc_self ..

theorem Replaced.refl (hb : R m.mem m.user m.owned) (hp : m.proc i = some p) :
    Replaced R m i p m :=
  ⟨m.mem, (put_self hp).symm, fun _ => books_off hb hp⟩

/-- The sizes a growth may ask for without reaching the page at `SHM_VA`: `growproc`
and `sys_sbrk` reject those above `TRAPFRAME`. -/
def Within (sz : ℕ) (n : ℤ) : Prop := 0 < n → addSz sz n ≤ shmVa ∨ trapframeVa < addSz sz n

instance (sz : ℕ) (n : ℤ) : Decidable (Within sz n) :=
  inferInstanceAs (Decidable (_ → _ ∨ _))

theorem Resized.sz_le {n : ℤ} {lazy : Bool} {q : Space} (h : Resized p n lazy q)
    (hp : p.sz ≤ shmVa) (hw : Within p.sz n) : q.sz ≤ shmVa := by
  cases h with
  | same pt _ => exact hp
  | grown pt hn _ htop _ _ => exact (hw hn).resolve_right (Nat.not_lt.mpr htop)
  | shrunk pt _ _ => exact (min_le_left _ _).trans hp
  | untouched hn htop _ =>
      rcases hn.lt_or_eq with hn | hn
      · exact (hw hn).resolve_right (Nat.not_lt.mpr htop)
      · have hsz : addSz p.sz n ≤ p.sz := by
          unfold addSz
          omega
        exact hsz.trans hp

/-- What a page fault at `va` does to an address space. -/
inductive Faulted (p : Space) (va : ℕ) : Space → Prop
  | same (pt : PageTable) : pt.leaf = p.pagetable.leaf → Faulted p va { p with pagetable := pt }
  | filled (pt : PageTable) (pa : ℕ) : va < p.sz → p.pagetable.leaf (va / pgSize) = none →
      pt.leaf = Function.update p.pagetable.leaf (va / pgSize) (some ⟨pa, userPerm true false⟩) →
      Faulted p va { p with pagetable := pt }

theorem Faulted.wellMapped {va : ℕ} {q : Space} (h : Faulted p va q) (hp : p.WellMapped g) :
    q.WellMapped g := by
  have hpages := pageCount_le_shmPage hp.sz_le
  cases h with
  | same pt hleaf =>
      refine ⟨hp.sz_le, ?_⟩
      rw [hleaf]
      exact hp.shape
  | filled pt pa hva _ hleaf =>
      refine ⟨hp.sz_le, ?_⟩
      have hlt : va / pgSize < pageCount p.sz := by
        rw [lt_pageCount_iff]
        exact lt_of_le_of_lt (Nat.div_mul_le_self va pgSize) hva
      apply hp.shape.congr
      · intro v hv hv'
        dsimp only at hv ⊢
        rw [hleaf, Function.update_of_ne (by omega)]
        exact hp.shape.hole v hv hv'
      · intro v hv
        dsimp only
        rw [hleaf, Function.update_of_ne (by omega)]

theorem Shape.withShm {tf sz : ℕ} {f f' : ℕ → Option Pte} {e : Pte} (h : Shape g tf sz f)
    (he : e.pa = g.shmPagePa) (hf' : f' = Function.update f shmPage (some e)) :
    Shape g tf sz f' := by
  have hlay := layout
  constructor
  · intro v hv hv'
    rw [hf', Function.update_of_ne (by omega)]
    exact h.hole v hv hv'
  · intro e' he'
    rw [hf', Function.update_self] at he'
    cases he'
    exact he
  · rw [hf', Function.update_of_ne (by omega)]
    exact h.trapframe
  · rw [hf', Function.update_of_ne (by omega)]
    exact h.trampoline
  · intro v hv
    rw [hf', Function.update_of_ne (by omega)]
    exact h.above v hv

/-- What `sys_shm_get` does to an address space, and what it returns. -/
inductive GotShm (g : Globals) (p : Space) : Space → Option ℕ → Prop
  | mapped : p.pagetable.leaf shmPage ≠ none → GotShm g p p (some shmVa)
  | maps (pt : PageTable) : p.pagetable.leaf shmPage = none →
      pt.leaf = Function.update p.pagetable.leaf shmPage
        (some ⟨g.shmPagePa, userPerm true false⟩) →
      GotShm g p { p with pagetable := pt } (some shmVa)
  | fails (pt : PageTable) : p.pagetable.leaf shmPage = none → pt.leaf = p.pagetable.leaf →
      GotShm g p { p with pagetable := pt } none

theorem GotShm.wellMapped {q : Space} {ret : Option ℕ} (h : GotShm g p q ret)
    (hp : p.WellMapped g) : q.WellMapped g := by
  cases h with
  | mapped _ => exact hp
  | maps pt _ hleaf => exact ⟨hp.sz_le, hp.shape.withShm rfl hleaf⟩
  | fails pt _ hleaf =>
      refine ⟨hp.sz_le, ?_⟩
      rw [hleaf]
      exact hp.shape

/-- How the user pages of a new process or thread follow those of its creator. -/
structure Offspring (like : Pte → Pte → Prop) (p q : Space) : Prop where
  sz_eq : q.sz = p.sz
  live : q.zombie = false
  hole : ∀ v < shmPage, p.pagetable.leaf v = none → q.pagetable.leaf v = none
  leaf : ∀ v < shmPage, ∀ e, p.pagetable.leaf v = some e →
    ∃ e', q.pagetable.leaf v = some e' ∧ like e e'

/-- What `kclone` gives a thread: its creator's pages, and the page at `SHM_VA` too. -/
structure ThreadOf (p q : Space) : Prop extends Offspring Eq p q where
  shm : q.pagetable.leaf shmPage = p.pagetable.leaf shmPage

/-- What `kfork` and `kclone` do: they fail and leave the process table as it is, or
an unused slot gets a new address space. -/
inductive Spawned (R : σ → (ℕ → ℕ) → (ℕ → ℕ) → Prop) (g : Globals) (m : Machine σ nproc)
    (Child : Space → Prop) : Machine σ nproc × Option (Fin nproc) → Prop
  | fails (s : σ) : R s m.user m.owned → Spawned R g m Child (m.withMem s, none)
  | creates (s : σ) (j : Fin nproc) (q : Space) : m.proc j = none →
      R s (m.user + userCount q.pagetable.leaf)
        (m.owned + one q.trapframe + q.pagetable.pages) →
      q.WellMapped g → Child q → Spawned R g m Child (m.put s j (some q), some j)

theorem Spawned.inv {Child : Space → Prop} {r : Machine σ nproc × Option (Fin nproc)}
    (h : Spawned R g m Child r) (hm : Inv R g m) : Inv R g r.1 := by
  cases h with
  | fails s hR => exact hm.withMem hR
  | creates s j q hj hR hwell _ =>
      apply hm.put
      · rw [(off_of_unused hj).1, (off_of_unused hj).2]
        rw [add_assoc] at hR
        exact hR
      · intro p hp
        cases hp
        exact hwell

/-- As `Spawned`, over books with any holders: `user` and `owned` are what they hold before. -/
inductive SpawnedOver (R : σ → (ℕ → ℕ) → (ℕ → ℕ) → Prop) (user owned : ℕ → ℕ) (g : Globals)
    (m : Machine σ nproc) (Child : Space → Prop) : Machine σ nproc × Option (Fin nproc) → Prop
  | fails (s : σ) : R s user owned → SpawnedOver R user owned g m Child (m.withMem s, none)
  | creates (s : σ) (j : Fin nproc) (q : Space) : m.proc j = none →
      R s (user + userCount q.pagetable.leaf) (owned + one q.trapframe + q.pagetable.pages) →
      q.WellMapped g → Child q →
      SpawnedOver R user owned g m Child (m.put s j (some q), some j)

theorem SpawnedOver.spawned {Child : Space → Prop} {r : Machine σ nproc × Option (Fin nproc)}
    (h : SpawnedOver R m.user m.owned g m Child r) : Spawned R g m Child r := by
  cases h with
  | fails s hR => exact .fails s hR
  | creates s j q hj hR hwell hchild => exact .creates s j q hj hR hwell hchild

theorem proc_of_findUnused {j : Fin nproc} (h : findUnused m = some j) : m.proc j = none := by
  unfold findUnused at h
  have := List.find?_some h
  exact Option.isNone_iff_eq_none.mp this

theorem Follows.shape {like : Pte → Pte → Prop} {old f : ℕ → Option Pte} {tf sz : ℕ}
    (h : Follows like old (fixedLeaves g tf) f 0 (pageCount sz)) (hsz : pageCount sz ≤ shmPage) :
    Shape g tf sz f := by
  apply (fixedLeaves_shape g tf).congr
  · intro v hv hv'
    rw [h.outside v (Or.inr hv)]
    have := layout
    exact fixedLeaves_of_lt g tf (by omega)
  · intro v hv
    exact h.outside v (Or.inr (hsz.trans hv))

/-- The user pages of the new address space, once its other pages are in place. -/
theorem Follows.offspring {like : Pte → Pte → Prop} {tf : ℕ} {f : ℕ → Option Pte} {q : Space}
    (h : Follows like p.pagetable.leaf (fixedLeaves g tf) f 0 (pageCount p.sz))
    (hp : p.WellMapped g) (hsz : q.sz = p.sz) (hlive : q.zombie = false)
    (hq : ∀ v < shmPage, q.pagetable.leaf v = f v) : Offspring like p q := by
  have hlay := layout
  constructor
  · exact hsz
  · exact hlive
  · intro v hv hnone
    rw [hq v hv]
    by_cases hlt : v < pageCount p.sz
    · exact h.hole v (Nat.zero_le v) hlt hnone
    · rw [h.outside v (Or.inr (Nat.not_lt.mp hlt))]
      exact fixedLeaves_of_lt g tf (by omega)
  · intro v hv e he
    rw [hq v hv]
    by_cases hlt : v < pageCount p.sz
    · exact h.leaf v (Nat.zero_le v) hlt e he
    · rw [hp.shape.hole v (Nat.not_lt.mp hlt) hv] at he
      cases he

/-! ## The actions -/

/-- An action asks for no growth past `SHM_VA` that is not rejected. -/
def Action.Within (m : Machine σ nproc) : Action nproc → Prop
  | .sbrk i n _ => ∀ p, m.proc i = some p → Memory.Within p.sz n
  | _ => True

/-- What an action can do to a machine with balanced books. -/
inductive Performed (R : σ → (ℕ → ℕ) → (ℕ → ℕ) → Prop) (g : Globals) (m : Machine σ nproc) :
    Action nproc → Machine σ nproc → Prop
  | idle (a : Action nproc) : Performed R g m a m
  | sbrk {i : Fin nproc} {p q : Space} {n : ℤ} {lazy : Bool} {m' : Machine σ nproc} :
      m.proc i = some p → Resized p n lazy q → Replaced R m i q m' →
      Performed R g m (.sbrk i n lazy) m'
  | fault {i : Fin nproc} {p q : Space} {va : ℕ} {m' : Machine σ nproc} :
      m.proc i = some p → Faulted p va q → Replaced R m i q m' → Performed R g m (.fault i va) m'
  | fork {i : Fin nproc} {p : Space} {r : Machine σ nproc × Option (Fin nproc)} :
      m.proc i = some p → Spawned R g m (Offspring SamePerm p) r → Performed R g m (.fork i) r.1
  | clone {i : Fin nproc} {p : Space} {fcn arg stack returnaddr : ℕ}
      {r : Machine σ nproc × Option (Fin nproc)} :
      m.proc i = some p → Spawned R g m (ThreadOf p) r →
      Performed R g m (.clone i fcn arg stack returnaddr) r.1
  | shmGet {i : Fin nproc} {p q : Space} {ret : Option ℕ} {m' : Machine σ nproc} :
      m.proc i = some p → GotShm g p q ret → Replaced R m i q m' → Performed R g m (.shmGet i) m'
  | exit {i : Fin nproc} {p : Space} {m' : Machine σ nproc} :
      m.proc i = some p → p.zombie = false → Replaced R m i { p with zombie := true } m' →
      Performed R g m (.exit i) m'
  | reap {i : Fin nproc} {p : Space} (s : σ) : m.proc i = some p → p.zombie = true →
      R s (m.userOff i) (m.ownedOff i) → Performed R g m (.reap i) (m.put s i none)

/-- One action keeps the invariant as long as every size stays at `SHM_VA` or below. -/
theorem Performed.inv {a : Action nproc} {m' : Machine σ nproc} (h : Performed R g m a m')
    (hm : Inv R g m) (hfits : a.Within m ∨ m'.Fits) : Inv R g m' := by
  cases h with
  | idle => exact hm
  | sbrk hp hq hrep =>
      have hwell := hm.spaces _ _ hp
      apply hrep.inv hm
      apply hq.wellMapped hwell
      rcases hfits with hwithin | hfits
      · exact hq.sz_le hwell.sz_le (hwithin _ hp)
      · exact hfits _ _ hrep.proc_self
  | fault hp hq hrep => exact hrep.inv hm (hq.wellMapped (hm.spaces _ _ hp))
  | fork _ hr => exact hr.inv hm
  | clone _ hr => exact hr.inv hm
  | shmGet hp hq hrep => exact hrep.inv hm (hq.wellMapped (hm.spaces _ _ hp))
  | exit hp _ hrep =>
      have hwell := hm.spaces _ _ hp
      exact hrep.inv hm ⟨hwell.sz_le, hwell.shape⟩
  | reap s _ _ hR => exact hm.put hR fun q hq => (nomatch hq)

end Outcomes

end Memory
