import OsAssignments.Library.EventRun
import OsAssignments.Library.LinkedList
import OsAssignments.Library.MachineInt
import OsAssignments.Memory.Kalloc

/-!
# The free list in the pages

`Kmem` has the free list as a list and the reference counts as natural numbers. `Threaded`
is `kalloc.c` word for word: `kmem.freelist` is a pointer, a free page holds in its first
word the pointer to the next one, and a count is a 32-bit `int`. As long as the counts fit,
every entry point of `Threaded` does what that of `Kmem` does (`Refines`), so that the
accounts of the pool hold of it over any run of calls.
-/

namespace Memory

open EventRun LinkedList MachineInt Outcome RefPool

/-! ## kalloc.c -/

/-- `NPAGE`, the length of the array `references`. -/
def npage : ℕ := (physTop - kernBase) / pgSize

/-- The allocator of `kalloc.c`, with `kmem.freelist` as an address and the null pointer
as 0. -/
structure Threaded where
  kernelEnd : ℕ
  freelist : ℕ
  references : ℕ → ℤ
  bytes : ℕ → UInt8

namespace Threaded

/-- Write `references[page_index(pa)]`. -/
def setRef (t : Threaded) (pa : ℕ) (count : ℤ) : Threaded :=
  { t with references := fun i => if i = pageIndex pa then wrap 32 count else t.references i }

/-- `memset` over the page at `pa`. -/
def memset (pa : ℕ) (c : UInt8) (t : Threaded) : Threaded :=
  { t with bytes := fun x => if pa ≤ x ∧ x < pa + pgSize then c else t.bytes x }

/-- `r->next = kmem.freelist`, and `kmem.freelist = r`. -/
def push (t : Threaded) (r : ℕ) : Threaded :=
  { t with bytes := store 8 r t.freelist t.bytes, freelist := r }

def kfree (pa : ℕ) (t : Threaded) : Except KallocPanic Threaded :=
  if ¬ Frame t.kernelEnd pa then
    throw .kfree
  else if t.references (pageIndex pa) > 1 then
    pure (t.setRef pa (t.references (pageIndex pa) - 1))
  else
    pure (((t.setRef pa 0).memset pa 1).push pa)

def kalloc (t : Threaded) : ℕ × Threaded :=
  if t.freelist ≠ 0 then
    (t.freelist, (({ t with freelist := load 8 t.bytes t.freelist } : Threaded).setRef t.freelist
      1).memset t.freelist 5)
  else
    (0, t)

def kaddref (pa : ℕ) (t : Threaded) : Except KallocPanic Threaded :=
  if ¬ Frame t.kernelEnd pa then
    throw .kaddref
  else if t.references (pageIndex pa) < 1 then
    throw .kaddrefFreedPage
  else
    pure (t.setRef pa (t.references (pageIndex pa) + 1))

def write (x : ℕ) (v : UInt8) (t : Threaded) : Threaded :=
  { t with bytes := Function.update t.bytes x v }

/-- The loop of `freerange` at address `p`, with `n` pages to go. -/
def freerange : ℕ → ℕ → Threaded → Except KallocPanic Threaded
  | 0, _, t => pure t
  | n + 1, p, t => do
      let t ← Threaded.kfree p t
      freerange n (p + pgSize) t

def kinit (t : Threaded) : Except KallocPanic Threaded :=
  freerange ((physTop - pgRoundUp t.kernelEnd) / pgSize) (pgRoundUp t.kernelEnd) t

end Threaded

/-! ## The two allocators -/

theorem pages_apart {p q : ℕ} (hp : p % pgSize = 0) (hq : q % pgSize = 0) (h : p ≠ q) :
    p + pgSize ≤ q ∨ q + pgSize ≤ p := by
  unfold pgSize at *
  omega

def Outside (l : List ℕ) (x : ℕ) : Prop := ∀ pa ∈ l, ¬ (pa ≤ x ∧ x < pa + pgSize)

/-- The pages of a free list: page addresses, and none of them twice. -/
structure Pages (kernelEnd : ℕ) (l : List ℕ) : Prop where
  frame : ∀ pa ∈ l, Frame kernelEnd pa
  nodup : l.Nodup

/-- The pointers in the free pages are the free list, the counts are the same, and memory is
the same but for the free pages. -/
structure Refines (t : Threaded) (m : Kmem) : Prop where
  kernelEnd : t.kernelEnd = m.kernelEnd
  linked : Linked 8 t.bytes t.freelist m.freelist
  references : ∀ i, t.references i = m.references i
  fits : ∀ i, m.references i ≤ 2 ^ 31 - 1
  bytes : ∀ x, Outside m.freelist x → t.bytes x = m.bytes x
  faults : m.faults = []

variable {t t' : Threaded} {m m' : Kmem} {pa : ℕ}

theorem wrap_nat {n : ℕ} (h : n ≤ 2 ^ 31 - 1) : wrap 32 (n : ℤ) = n := by
  apply wrap_of_fits (by decide)
  rw [Fits]
  omega

theorem Refines.setRef (h : Refines t m) (pa : ℕ) {n : ℕ} (hn : n ≤ 2 ^ 31 - 1) {c : ℤ}
    (hc : c = n) : Refines (t.setRef pa c) (m.setRef pa n) := by
  refine ⟨h.kernelEnd, h.linked, fun i => ?_, fun i => ?_, h.bytes, h.faults⟩
  · rw [Threaded.setRef, Kmem.setRef]
    dsimp only
    split_ifs
    · rw [hc, wrap_nat hn]
    · exact h.references i
  · rw [Kmem.setRef]
    dsimp only
    split_ifs
    · exact hn
    · exact h.fits i

theorem Pages.apart {kernelEnd : ℕ} {l : List ℕ} (h : Pages kernelEnd l)
    (hpa : pa % pgSize = 0) (hnot : pa ∉ l) (p : ℕ) (hp : p ∈ l) :
    p + pgSize ≤ pa ∨ pa + pgSize ≤ p :=
  pages_apart (h.frame p hp).1 hpa fun heq => hnot (heq ▸ hp)

theorem Refines.memset (h : Refines t m) (hpages : Pages m.kernelEnd m.freelist)
    (hpa : pa % pgSize = 0) (hnot : pa ∉ m.freelist) (c : UInt8) :
    Refines (t.memset pa c) (m.memset pa c) := by
  refine ⟨h.kernelEnd, ?_, h.references, h.fits, fun x hx => ?_, h.faults⟩
  · refine h.linked.congr fun p hp x hx hx' => ?_
    have happart := hpages.apart hpa hnot p hp
    unfold pgSize at happart
    rw [Threaded.memset]
    dsimp only
    rw [if_neg]
    unfold pgSize
    omega
  · rw [Threaded.memset, Kmem.memset]
    dsimp only
    rw [h.bytes x hx]

theorem Frame.index_lt {kernelEnd : ℕ} (h : Frame kernelEnd pa) : pageIndex pa < npage := by
  have htop := h.2.2
  unfold pageIndex npage physTop kernBase pgSize at *
  omega

theorem Frame.ne_zero {kernelEnd : ℕ} (h : Frame kernelEnd pa) (hend : kernBase ≤ kernelEnd) :
    pa ≠ 0 := by
  have := h.2.1
  unfold kernBase at hend
  omega

theorem Linked.head_lt {kernelEnd : ℕ} {l : List ℕ} {b : ℕ → UInt8} {head : ℕ}
    (h : Linked 8 b head l) (hpages : Pages kernelEnd l) : head < 256 ^ 8 := by
  cases l with
  | nil =>
      rw [show head = 0 from h]
      decide
  | cons p rest =>
      have hlt := (hpages.frame p List.mem_cons_self).2.2
      rw [h.1]
      exact hlt.trans (by decide)

theorem Refines.push (h : Refines t m) (hpages : Pages m.kernelEnd m.freelist)
    (hframe : Frame m.kernelEnd pa) (hend : kernBase ≤ m.kernelEnd) (hnot : pa ∉ m.freelist) :
    Refines (t.push pa) (m.push pa) := by
  refine ⟨h.kernelEnd, ?_, h.references, h.fits, fun x hx => ?_, h.faults⟩
  · refine h.linked.push (hframe.ne_zero hend) (Linked.head_lt h.linked hpages) fun p hp => ?_
    have happart := hpages.apart hframe.1 hnot p hp
    unfold pgSize at happart
    omega
  · have hthis := hx pa List.mem_cons_self
    have hrest := h.bytes x fun p hp => hx p (List.mem_cons_of_mem pa hp)
    rw [Threaded.push]
    dsimp only
    rw [store_of_outside]
    · exact hrest
    · unfold pgSize at hthis
      omega

theorem Refines.kfree (h : Refines t m) (hpages : Pages m.kernelEnd m.freelist)
    (hend : kernBase ≤ m.kernelEnd) (hk : Kmem.kfree pa m = .ok m')
    (hnot : ¬ 1 < m.references (pageIndex pa) → pa ∉ m.freelist) :
    ∃ t', Threaded.kfree pa t = .ok t' ∧ Refines t' m' := by
  unfold Kmem.kfree at hk
  unfold Threaded.kfree
  rw [h.kernelEnd, h.references]
  by_cases hframe : Frame m.kernelEnd pa
  · rw [if_neg (not_not.mpr hframe)] at hk ⊢
    have hcount := h.fits (pageIndex pa)
    by_cases hlt : 1 < m.references (pageIndex pa)
    · rw [if_pos hlt] at hk
      cases hk
      rw [if_pos (by omega)]
      exact ⟨_, rfl, h.setRef pa (by omega) (by omega)⟩
    · rw [if_neg hlt] at hk
      cases hk
      rw [if_neg (by omega)]
      have hset := h.setRef pa (Nat.zero_le _) rfl
      have hmemset := hset.memset hpages hframe.1 (hnot hlt) 1
      exact ⟨_, rfl, hmemset.push hpages hframe hend (hnot hlt)⟩
  · rw [if_pos hframe] at hk
    cases hk

theorem Refines.kaddref (h : Refines t m) (hk : Kmem.kaddref pa m = .ok m')
    (hlt : m.references (pageIndex pa) < 2 ^ 31 - 1) :
    ∃ t', Threaded.kaddref pa t = .ok t' ∧ Refines t' m' := by
  unfold Kmem.kaddref at hk
  unfold Threaded.kaddref
  rw [h.kernelEnd, h.references]
  split_ifs at hk with hframe hcount
  cases hk
  rw [if_neg (not_not.mpr hframe), if_neg (by omega)]
  exact ⟨_, rfl, h.setRef pa hlt rfl⟩

theorem Refines.pop (h : Refines t m) {r : ℕ} {rest : List ℕ} (hf : m.freelist = r :: rest)
    (hpages : Pages m.kernelEnd (r :: rest)) (c : UInt8) :
    Refines (({ t with freelist := load 8 t.bytes r } : Threaded).memset r c)
      (({ m with freelist := rest } : Kmem).memset r c) := by
  have hlinked := h.linked
  rw [hf] at hlinked
  have hframe := hpages.frame r List.mem_cons_self
  have hnodup := List.nodup_cons.mp hpages.nodup
  have hrest : Pages m.kernelEnd rest :=
    ⟨fun p hp => hpages.frame p (List.mem_cons_of_mem r hp), hnodup.2⟩
  have htail := hlinked.2.2
  generalize load 8 t.bytes r = next at htail ⊢
  refine ⟨h.kernelEnd, ?_, h.references, h.fits, fun x hx => ?_, h.faults⟩
  · refine htail.congr fun p hp x hx hx' => ?_
    have happart := hrest.apart hframe.1 hnodup.1 p hp
    unfold pgSize at happart
    rw [Threaded.memset]
    dsimp only
    rw [if_neg]
    unfold pgSize
    omega
  · -- the page of the head counts as free before the call, and is filled on both sides
    rw [Threaded.memset, Kmem.memset]
    dsimp only
    by_cases hin : r ≤ x ∧ x < r + pgSize
    · rw [if_pos hin, if_pos hin]
    · rw [if_neg hin, if_neg hin]
      refine h.bytes x fun p hp => ?_
      rw [hf, List.mem_cons] at hp
      rcases hp with rfl | hp
      · exact hin
      · exact hx p hp

/-- `kalloc` takes the head of the list, or returns the null pointer when the list is
empty. -/
theorem Refines.kalloc (h : Refines t m) (hpages : Pages m.kernelEnd m.freelist) :
    (m.freelist = [] ∧ t.kalloc = (0, t)) ∨
      ∃ pa t' m', t.kalloc = (pa, t') ∧ pa ≠ 0 ∧ pa ∈ m.freelist ∧ m.kalloc = (some pa, m') ∧
        Refines t' m' := by
  have hkalloc : m.kalloc = m.takeFree := by
    rw [Kmem.kalloc, h.faults]
  have hlinked := h.linked
  cases hf : m.freelist with
  | nil =>
      rw [hf] at hlinked
      have hzero : t.freelist = 0 := hlinked
      refine Or.inl ⟨rfl, ?_⟩
      rw [Threaded.kalloc, if_neg (not_not.mpr hzero)]
  | cons r rest =>
      rw [hf] at hlinked
      obtain ⟨hhead, hne, _⟩ := hlinked
      have hpop := h.pop hf (hf ▸ hpages) 5
      have hset := hpop.setRef r (n := 1) (by decide) rfl
      refine Or.inr ⟨r, _, _, ?_, hne, List.mem_cons_self, ?_, hset⟩
      · rw [Threaded.kalloc, if_pos (hhead ▸ hne), hhead]
        rfl
      · rw [hkalloc, Kmem.takeFree, hf]
        rfl

theorem Refines.write (h : Refines t m) {x : ℕ} (hx : Outside m.freelist x) (v : UInt8) :
    Refines (t.write x v) { m with bytes := Function.update m.bytes x v } := by
  refine ⟨h.kernelEnd, ?_, h.references, h.fits, fun y hy => ?_, h.faults⟩
  · refine h.linked.congr fun p hp y hy hy' => ?_
    have hout := hx p hp
    unfold pgSize at hout
    rw [Threaded.write]
    dsimp only
    rw [Function.update_of_ne]
    rintro rfl
    omega
  · rw [Threaded.write]
    dsimp only
    by_cases hyx : y = x
    · rw [hyx, Function.update_self, Function.update_self]
    · rw [Function.update_of_ne hyx, Function.update_of_ne hyx]
      exact h.bytes y hy

/-! ## kinit -/

theorem Refines.freerange (n p : ℕ) (h : Refines t m)
    (hfreed : Kmem.FreedBelow m.kernelEnd p m) (hend : kernBase ≤ m.kernelEnd)
    (hp : p % pgSize = 0) (hlo : m.kernelEnd ≤ p) (hhi : p + n * pgSize ≤ physTop)
    (hk : Kmem.freerange n p m = .ok m') :
    ∃ t', Threaded.freerange n p t = .ok t' ∧ Refines t' m' := by
  induction n generalizing p t m with
  | zero =>
      cases hk
      exact ⟨t, rfl, h⟩
  | succ n ih =>
      rw [Nat.succ_mul] at hhi
      have hpos : 0 < pgSize := by decide
      obtain ⟨m₁, hm₁, hfreed₁⟩ := hfreed.kfree ⟨hp, hlo, by omega⟩
      have hpages : Pages m.kernelEnd m.freelist :=
        ⟨fun pa hpa => ((hfreed.mem_freelist pa).mp hpa).1, hfreed.nodup⟩
      have hnot : p ∉ m.freelist := fun hin =>
        Nat.lt_irrefl p ((hfreed.mem_freelist p).mp hin).2
      obtain ⟨t₁, ht₁, h₁⟩ := h.kfree hpages hend hm₁ fun _ => hnot
      have hend₁ := hfreed₁.kernelEnd_eq
      rw [Kmem.freerange, hm₁] at hk
      obtain ⟨t', ht', h'⟩ := ih (p + pgSize) h₁ (hend₁ ▸ hfreed₁) (hend₁ ▸ hend)
        (by rw [Nat.add_mod_right, hp]) (by omega) (by omega) hk
      refine ⟨t', ?_, h'⟩
      rw [Threaded.freerange, ht₁]
      exact ht'

theorem Threaded.kinit_spec (hlo : kernBase ≤ t.kernelEnd) (hhi : t.kernelEnd ≤ physTop)
    (hfree : t.freelist = 0) (href : ∀ i, t.references i = 0) :
    ∃ t' m', t.kinit = .ok t' ∧ Refines t' m' ∧ Kmem.Balanced t.kernelEnd 0 m' 0 0 := by
  let m : Kmem := ⟨t.kernelEnd, [], fun _ => 0, t.bytes, []⟩
  have h : Refines t m := ⟨rfl, hfree, href, fun _ => Nat.zero_le _, fun _ _ => rfl, rfl⟩
  obtain ⟨m', hm', hbal⟩ := Kmem.kinit_spec (m := m) hhi rfl fun _ => rfl
  obtain ⟨t', ht', h'⟩ := h.freerange _ _ (Kmem.FreedBelow.start (m := m) rfl fun _ => rfl) hlo
    (pgRoundUp_aligned _) (le_pgRoundUp _) (Kmem.kinit_end hhi).le hm'
  exact ⟨t', m', ht', h', hbal⟩

/-! ## Runs of calls -/

namespace Threaded

/-- The calls of the allocator, and a write by whoever may write there. -/
inductive Call
  | kalloc
  | kaddref (pa : ℕ)
  | kfree (pa : ℕ)
  | write (x : ℕ) (v : UInt8)

/-- A call that returned; `null` is a `kalloc` that returned the null pointer. -/
inductive Event
  | kalloc (pa : ℕ)
  | null
  | kaddref (pa : ℕ)
  | kfree (pa : ℕ)
  deriving DecidableEq

def step (t : Threaded) : Call → Option (Threaded × List Event)
  | .kalloc => some (t.kalloc.2, [if t.kalloc.1 = 0 then .null else .kalloc t.kalloc.1])
  | .kaddref pa => (t.kaddref pa).toOption.map fun t' => (t', [.kaddref pa])
  | .kfree pa => (t.kfree pa).toOption.map fun t' => (t', [.kfree pa])
  | .write x v => some (t.write x v, [])

def Event.count (held : ℕ → ℕ) : Event → ℕ → ℕ
  | .kalloc pa => held + one pa
  | .null => held
  | .kaddref pa => held + one pa
  | .kfree pa => held - one pa

/-- The references to each page that no `kfree` has matched yet: one for each `kalloc` and
each `kaddref`. -/
def outstanding (trace : List Event) : ℕ → ℕ := trace.foldl Event.count 0

/-- `kaddref` and `kfree` get pages that are held, and nobody writes to a page that is not. -/
def Owned (trace : List Event) (t : Threaded) : Call → Prop
  | .kalloc => True
  | .kaddref pa => 0 < outstanding trace pa
  | .kfree pa => 0 < outstanding trace pa
  | .write x _ => ∀ pa, Frame t.kernelEnd pa → outstanding trace pa = 0 →
      ¬ (pa ≤ x ∧ x < pa + pgSize)

/-- `Owned`, and no page gets more references than an `int` counts. -/
def Counted (trace : List Event) (t : Threaded) (call : Call) : Prop :=
  Owned trace t call ∧ ∀ pa, call = .kaddref pa → outstanding trace pa < 2 ^ 31 - 1

def OnFreelist (t : Threaded) (pa : ℕ) : Prop := ∃ l, Linked 8 t.bytes t.freelist l ∧ pa ∈ l

/-- The counts and the free list are what the calls so far say they are, and so is what the
next call does. -/
structure Settled (kernelEnd : ℕ) (trace : List Event) (t : Threaded) : Prop where
  frame : ∀ pa, 0 < outstanding trace pa → Frame kernelEnd pa
  index : ∀ pa, Frame kernelEnd pa → pageIndex pa < npage
  references : ∀ pa, Frame kernelEnd pa → t.references (pageIndex pa) = outstanding trace pa
  linked : ∃ l, Linked 8 t.bytes t.freelist l ∧ l.Nodup ∧
    ∀ pa, pa ∈ l ↔ Frame kernelEnd pa ∧ outstanding trace pa = 0
  kalloc_fresh : t.kalloc.1 ≠ 0 → Frame kernelEnd t.kalloc.1 ∧ outstanding trace t.kalloc.1 = 0
  kalloc_null : t.kalloc.1 = 0 ↔ ∀ pa, Frame kernelEnd pa → 0 < outstanding trace pa
  returns : ∀ call, Counted trace t call → ∃ r, step t call = some r
  freed : ∀ call t' events, Counted trace t call → step t call = some (t', events) → ∀ pa,
    ¬ OnFreelist t pa → (OnFreelist t' pa ↔ call = .kfree pa ∧ outstanding trace pa = 1)

/-! ### The invariant of a run -/

def Accounted (kernelEnd : ℕ) (trace : List Event) (t : Threaded) : Prop :=
  ∃ m, Refines t m ∧ Kmem.Balanced kernelEnd 0 m (outstanding trace) 0

variable {kernelEnd : ℕ} {trace events : List Event} {call : Call}

theorem outstanding_append (trace : List Event) (e : Event) :
    outstanding (trace ++ [e]) = e.count (outstanding trace) := by
  rw [outstanding, List.foldl_append]
  rfl

theorem sub_one_add_one {held : ℕ → ℕ} (h : 0 < held pa) : held - one pa + one pa = held := by
  funext q
  rw [Pi.add_apply, Pi.sub_apply, one_apply]
  split_ifs with hq
  · rw [hq]
    omega
  · rfl

namespace Accounted

variable (h : Accounted kernelEnd trace t)
include h

theorem kernelEnd_eq : t.kernelEnd = kernelEnd := by
  obtain ⟨m, href, hbal⟩ := h
  exact href.kernelEnd.trans hbal.1

theorem frame (hpa : 0 < outstanding trace pa) : Frame kernelEnd pa := by
  obtain ⟨m, href, hbal⟩ := h
  exact hbal.2.valid_of_held pa (Nat.add_pos_left hpa _)

theorem references (hpa : Frame kernelEnd pa) :
    t.references (pageIndex pa) = outstanding trace pa := by
  obtain ⟨m, href, hbal⟩ := h
  rw [href.references, Int.natCast_inj]
  exact hbal.2.count_eq pa hpa

theorem linked : ∃ l, Linked 8 t.bytes t.freelist l ∧ l.Nodup ∧
    ∀ pa, pa ∈ l ↔ Frame kernelEnd pa ∧ outstanding trace pa = 0 := by
  obtain ⟨m, href, hbal⟩ := h
  exact ⟨m.freelist, href.linked, hbal.2.nodup, hbal.2.mem_free⟩

/-- The list that the pointers lead through is unique, so that the pages on it are those
without a reference. -/
theorem onFreelist_iff : OnFreelist t pa ↔ Frame kernelEnd pa ∧ outstanding trace pa = 0 := by
  obtain ⟨l, hlinked, _, hmem⟩ := h.linked
  rw [← hmem pa]
  constructor
  · intro hon
    obtain ⟨l', hlinked', hin⟩ := hon
    exact hlinked.unique hlinked' ▸ hin
  · intro hin
    exact ⟨l, hlinked, hin⟩

end Accounted

theorem pages_of_balanced {user owned : ℕ → ℕ} (hbal : Kmem.Balanced kernelEnd 0 m user owned) :
    Pages m.kernelEnd m.freelist :=
  ⟨fun pa hpa => hbal.1 ▸ ((hbal.2.mem_free pa).mp hpa).1, hbal.2.nodup⟩

/-- `kalloc` returns the null pointer when every page is held, and else a page that nobody
holds. -/
theorem Accounted.kalloc (h : Accounted kernelEnd trace t) (hend : kernBase ≤ kernelEnd) :
    (t.kalloc = (0, t) ∧ ∀ pa, Frame kernelEnd pa → 0 < outstanding trace pa) ∨
      ∃ pa t', t.kalloc = (pa, t') ∧ pa ≠ 0 ∧ Frame kernelEnd pa ∧ outstanding trace pa = 0 ∧
        Accounted kernelEnd (trace ++ [.kalloc pa]) t' := by
  obtain ⟨m, href, hbal⟩ := h
  rcases href.kalloc (pages_of_balanced hbal) with ⟨hnil, hk⟩ | ⟨pa, t', m', hk, hne, hin, hm, h'⟩
  · refine Or.inl ⟨hk, fun pa hpa => Nat.pos_of_ne_zero fun hzero => ?_⟩
    have hin : pa ∈ m.freelist := (hbal.2.mem_free pa).mpr ⟨hpa, hzero⟩
    rw [hnil] at hin
    cases hin
  · obtain ⟨hframe, hzero⟩ := (hbal.2.mem_free pa).mp hin
    refine Or.inr ⟨pa, t', hk, hne, hframe, hzero, m', h', ?_⟩
    rw [outstanding_append]
    exact (hbal.kalloc_some hend hm).share

theorem Accounted.kaddref (h : Accounted kernelEnd trace t) (hend : kernBase ≤ kernelEnd)
    (hpos : 0 < outstanding trace pa) (hlt : outstanding trace pa < 2 ^ 31 - 1) :
    ∃ t', t.kaddref pa = .ok t' ∧ Accounted kernelEnd (trace ++ [.kaddref pa]) t' := by
  have hframe := h.frame hpos
  obtain ⟨m, href, hbal⟩ := h
  have hcount : m.references (pageIndex pa) = outstanding trace pa := hbal.2.count_eq pa hframe
  obtain ⟨m', hm, hbal'⟩ := hbal.kaddref hend hpos
  obtain ⟨t', ht, href'⟩ := href.kaddref hm (hcount ▸ hlt)
  refine ⟨t', ht, m', href', ?_⟩
  rw [outstanding_append]
  exact hbal'

theorem Accounted.kfree (h : Accounted kernelEnd trace t) (hend : kernBase ≤ kernelEnd)
    (hpos : 0 < outstanding trace pa) :
    ∃ t', t.kfree pa = .ok t' ∧ Accounted kernelEnd (trace ++ [.kfree pa]) t' := by
  obtain ⟨m, href, hbal⟩ := h
  have hnot : pa ∉ m.freelist := by
    intro hin
    have hzero : outstanding trace pa = 0 := ((hbal.2.mem_free pa).mp hin).2
    omega
  have hpages := pages_of_balanced hbal
  have hend' := hbal.1
  rw [← sub_one_add_one hpos] at hbal
  obtain ⟨m', hm, hbal'⟩ := hbal.kfree hend
  obtain ⟨t', ht, href'⟩ := href.kfree hpages (hend' ▸ hend) hm fun _ => hnot
  refine ⟨t', ht, m', href', ?_⟩
  rw [outstanding_append]
  exact hbal'

theorem Accounted.write (h : Accounted kernelEnd trace t) {x : ℕ}
    (hx : ∀ pa, Frame kernelEnd pa → outstanding trace pa = 0 → ¬ (pa ≤ x ∧ x < pa + pgSize))
    (v : UInt8) : Accounted kernelEnd trace (t.write x v) := by
  obtain ⟨m, href, hbal⟩ := h
  refine ⟨_, href.write (fun pa hpa => ?_) v, hbal⟩
  obtain ⟨hframe, hzero⟩ := (hbal.2.mem_free pa).mp hpa
  exact hx pa hframe hzero

theorem Accounted.next (h : Accounted kernelEnd trace t) (hend : kernBase ≤ kernelEnd)
    (hcall : Counted trace t call) :
    ∃ t' events, step t call = some (t', events) ∧ Accounted kernelEnd (trace ++ events) t' := by
  cases call with
  | kalloc =>
      rcases h.kalloc hend with ⟨hk, _⟩ | ⟨pa, t', hk, hne, _, _, h'⟩
      · refine ⟨t, [.null], ?_, ?_⟩
        · rw [Threaded.step, hk]
          rfl
        · obtain ⟨m, href, hbal⟩ := h
          refine ⟨m, href, ?_⟩
          rw [outstanding_append]
          exact hbal
      · refine ⟨t', [.kalloc pa], ?_, h'⟩
        rw [Threaded.step, hk]
        dsimp only
        rw [if_neg hne]
  | kaddref pa =>
      obtain ⟨t', ht, h'⟩ := h.kaddref hend hcall.1 (hcall.2 pa rfl)
      refine ⟨t', [.kaddref pa], ?_, h'⟩
      rw [Threaded.step, ht]
      rfl
  | kfree pa =>
      obtain ⟨t', ht, h'⟩ := h.kfree hend hcall.1
      refine ⟨t', [.kfree pa], ?_, h'⟩
      rw [Threaded.step, ht]
      rfl
  | write x v =>
      refine ⟨t.write x v, [], rfl, ?_⟩
      rw [List.append_nil]
      exact h.write (h.kernelEnd_eq ▸ hcall.1) v

theorem Accounted.of_step {t' : Threaded} (h : Accounted kernelEnd trace t)
    (hend : kernBase ≤ kernelEnd) (hcall : Counted trace t call)
    (hs : step t call = some (t', events)) : Accounted kernelEnd (trace ++ events) t' := by
  obtain ⟨t₁, events₁, hs₁, h₁⟩ := h.next hend hcall
  rw [hs] at hs₁
  cases hs₁
  exact h₁

theorem toOption_map_eq_some {e : Except KallocPanic Threaded} {ev : Event}
    {r : Threaded × List Event} (h : e.toOption.map (fun t' => (t', [ev])) = some r) :
    r.2 = [ev] := by
  obtain ⟨t', _, rfl⟩ := Option.map_eq_some_iff.mp h
  rfl

theorem outstanding_le_or_kfree {t' : Threaded} (hs : step t call = some (t', events)) (pa : ℕ) :
    outstanding trace pa ≤ outstanding (trace ++ events) pa ∨
      call = .kfree pa ∧ events = [.kfree pa] := by
  cases call with
  | kalloc =>
      cases hs
      rw [outstanding_append]
      split_ifs
      · exact Or.inl le_rfl
      · exact Or.inl (Nat.le_add_right _ _)
  | kaddref q =>
      rw [show events = [.kaddref q] from toOption_map_eq_some hs, outstanding_append]
      exact Or.inl (Nat.le_add_right _ _)
  | kfree q =>
      rw [show events = [.kfree q] from toOption_map_eq_some hs, outstanding_append]
      by_cases hq : q = pa
      · rw [hq]
        exact Or.inr ⟨rfl, rfl⟩
      · left
        change _ ≤ outstanding trace pa - one q pa
        rw [one_of_ne (Ne.symm hq), Nat.sub_zero]
  | write x v =>
      cases hs
      rw [List.append_nil]
      exact Or.inl le_rfl

/-- A page gets on the free list exactly when its last reference is given back. -/
theorem Accounted.freed {t' : Threaded} (h : Accounted kernelEnd trace t)
    (hend : kernBase ≤ kernelEnd) (hcall : Counted trace t call)
    (hs : step t call = some (t', events)) (hon : ¬ OnFreelist t pa) :
    OnFreelist t' pa ↔ call = .kfree pa ∧ outstanding trace pa = 1 := by
  have h' := h.of_step hend hcall hs
  rw [h.onFreelist_iff] at hon
  rw [h'.onFreelist_iff]
  constructor
  · intro hfree
    have hpos : outstanding trace pa ≠ 0 := fun hzero => hon ⟨hfree.1, hzero⟩
    have hcases : outstanding trace pa ≤ outstanding (trace ++ events) pa ∨ _ :=
      outstanding_le_or_kfree hs pa
    rcases hcases with hle | ⟨hkfree, hevents⟩
    · omega
    · have hzero := hfree.2
      rw [hevents, outstanding_append] at hzero
      change outstanding trace pa - one pa pa = 0 at hzero
      rw [one_self] at hzero
      exact ⟨hkfree, by omega⟩
  · intro hkfree
    obtain ⟨rfl, hone⟩ := hkfree
    refine ⟨h.frame (by omega), ?_⟩
    rw [show events = [.kfree pa] from toOption_map_eq_some hs, outstanding_append]
    change outstanding trace pa - one pa pa = 0
    rw [one_self, hone]

theorem Accounted.settled (h : Accounted kernelEnd trace t) (hend : kernBase ≤ kernelEnd) :
    Settled kernelEnd trace t where
  frame _ hpa := h.frame hpa
  index _ hpa := hpa.index_lt
  references _ hpa := h.references hpa
  linked := h.linked
  kalloc_fresh hne := by
    rcases h.kalloc hend with ⟨hk, _⟩ | ⟨pa, t', hk, _, hframe, hzero, _⟩
    · rw [hk] at hne
      exact absurd rfl hne
    · rw [hk]
      exact ⟨hframe, hzero⟩
  kalloc_null := by
    rcases h.kalloc hend with ⟨hk, hall⟩ | ⟨pa, t', hk, hne, hframe, hzero, _⟩
    · rw [hk]
      exact iff_of_true rfl hall
    · rw [hk]
      refine iff_of_false hne fun hall => ?_
      have hpos := hall pa hframe
      omega
  returns call hcall := by
    obtain ⟨t', events, hs, _⟩ := h.next hend hcall
    exact ⟨_, hs⟩
  freed call t' events hcall hs pa hon := h.freed hend hcall hs hon

theorem Accounted.run {t₁ : Threaded} (h : Accounted kernelEnd [] t₁)
    (hend : kernBase ≤ kernelEnd) (hrun : Run step Counted t₁ trace t) :
    Accounted kernelEnd trace t := by
  refine hrun.invariant h ?_
  intro trace t call t' events hacc hcall hs
  exact hacc.of_step hend hcall hs

/-- After `kinit` the counts are the outstanding references and the free list has the pages
without one, through every run of calls. -/
theorem counts_and_freelist (t₀ : Threaded) (hlo : kernBase ≤ t₀.kernelEnd)
    (hhi : t₀.kernelEnd ≤ physTop) (hfree : t₀.freelist = 0) (href : ∀ i, t₀.references i = 0) :
    ∃ t₁, t₀.kinit = .ok t₁ ∧ ∀ trace t, Run step Counted t₁ trace t →
      Settled t₀.kernelEnd trace t := by
  obtain ⟨t₁, m₁, ht₁, href₁, hbal⟩ := kinit_spec hlo hhi hfree href
  have h : Accounted t₀.kernelEnd [] t₁ := ⟨m₁, href₁, hbal⟩
  exact ⟨t₁, ht₁, fun trace t hrun => (h.run hlo hrun).settled hlo⟩

/-- The kernel at boot, with the first 136 kB of RAM taken by its text and data. -/
def atBoot : Threaded := ⟨kernBase + 0x22000, 0, fun _ => 0, fun _ => 0⟩

theorem counts_and_freelist_atBoot :
    ∃ t₁, atBoot.kinit = .ok t₁ ∧ ∀ trace t, Run step Counted t₁ trace t →
      Settled atBoot.kernelEnd trace t :=
  counts_and_freelist atBoot (by decide) (by decide) rfl fun _ => rfl

/-! ### The greatest count -/

theorem Accounted.fill {t₁ : Threaded} (h₁ : Accounted kernelEnd [] t₁)
    (hend : kernBase ≤ kernelEnd) (hrun : Run step Counted t₁ trace t)
    (hpos : 0 < outstanding trace pa) (n : ℕ) (hn : outstanding trace pa + n ≤ 2 ^ 31 - 1) :
    ∃ trace' t', Run step Counted t₁ trace' t' ∧
      outstanding trace' pa = outstanding trace pa + n := by
  induction n with
  | zero => exact ⟨trace, t, hrun, rfl⟩
  | succ n ih =>
      obtain ⟨trace', t', hrun', hout⟩ := ih (by omega)
      have hcall : Counted trace' t' (.kaddref pa) := by
        refine ⟨?_, ?_⟩
        · change 0 < outstanding trace' pa
          omega
        · rintro q ⟨⟩
          omega
      obtain ⟨t'', events, hs, _⟩ := (h₁.run hend hrun').next hend hcall
      refine ⟨trace' ++ events, t'', hrun'.next hcall hs, ?_⟩
      rw [show events = [.kaddref pa] from toOption_map_eq_some hs, outstanding_append]
      change outstanding trace' pa + one pa pa = _
      rw [one_self, hout, Nat.add_assoc]

/-- The count of a page with 2^31 references is negative. -/
theorem kaddref_overflows : ∃ t₁ trace t pa, atBoot.kinit = .ok t₁ ∧
    Run step Owned t₁ trace t ∧ outstanding trace pa = 2 ^ 31 ∧
      t.references (pageIndex pa) = -2 ^ 31 := by
  obtain ⟨t₁, m₁, ht₁, href₁, hbal⟩ := kinit_spec (t := atBoot) (by decide) (by decide) rfl
    fun _ => rfl
  have h₁ : Accounted atBoot.kernelEnd [] t₁ := ⟨m₁, href₁, hbal⟩
  have hend : kernBase ≤ atBoot.kernelEnd := by decide
  have hfree : t₁.kalloc.1 ≠ 0 := by
    intro hnull
    have hlast : Frame atBoot.kernelEnd (physTop - pgSize) := by decide
    exact Nat.lt_irrefl 0 ((h₁.settled hend).kalloc_null.mp hnull _ hlast)
  have hone : outstanding [Event.kalloc t₁.kalloc.1] t₁.kalloc.1 = 1 := by
    change (0 + one t₁.kalloc.1) t₁.kalloc.1 = 1
    rw [zero_add, one_self]
  have hrun₁ : Run step Counted t₁ [Event.kalloc t₁.kalloc.1] t₁.kalloc.2 := by
    have hcall : Counted [] t₁ .kalloc := ⟨True.intro, fun _ hc => nomatch hc⟩
    refine Run.start.next hcall ?_
    rw [step, if_neg hfree]
  generalize t₁.kalloc.1 = pa at hone hrun₁
  have hpos : 0 < outstanding [Event.kalloc pa] pa := by omega
  obtain ⟨trace, t, hrun, hout⟩ := h₁.fill hend hrun₁ hpos (2 ^ 31 - 2) (by omega)
  have hacc := h₁.run hend hrun
  have hframe : Frame _ pa := hacc.frame (by omega)
  have hcount := hacc.references hframe
  have hk : t.kaddref pa = .ok (t.setRef pa (t.references (pageIndex pa) + 1)) := by
    rw [kaddref, hacc.kernelEnd_eq, if_neg (not_not.mpr hframe), if_neg (by omega)]
    rfl
  have hs : step t (.kaddref pa) =
      some (t.setRef pa (t.references (pageIndex pa) + 1), [.kaddref pa]) := by
    rw [step, hk]
    rfl
  refine ⟨t₁, _, _, pa, ht₁, (hrun.mono fun _ _ _ hcall => hcall.1).next ?_ hs, ?_, ?_⟩
  · change 0 < outstanding trace pa
    omega
  · rw [outstanding_append]
    change outstanding trace pa + one pa pa = _
    rw [one_self]
    omega
  · rw [setRef]
    dsimp only
    rw [if_pos rfl, hcount, hout, hone]
    exact wrap_half (w := 32) (by decide)

end Threaded

end Memory
