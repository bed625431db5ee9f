import OsAssignments.Memory.Paging
import OsAssignments.Memory.Supply
import OsAssignments.Memory.Threads

/-!
# Copying between kernel and user memory

`copyout`, `copyin` and `copyinstr` of `vm.c`, and `fetchaddr` and `fetchstr` of `syscall.c`,
which go page by page through a page table, let `vmfault` add the pages that are missing, and
stop at the first page that is refused. What they do to the flat memory of the process is one
write, or one read, of the range, cut short where they fail.

Addresses are followed only below `MAXVA`, so no sum of an address wraps.
-/

namespace Memory

open Outcome RefPool RadixTree Machine Kmem FlatMemory

/-! ## vm.c and syscall.c -/

namespace Kmem

/-- The byte at `x` becomes `b`. -/
def setByte (x : ℕ) (b : UInt8) (m : Kmem) : Kmem := { m with bytes := Function.update m.bytes x b }

@[simp] theorem setByte_self (x : ℕ) (b : UInt8) (m : Kmem) : (m.setByte x b).bytes x = b :=
  Function.update_self ..

theorem setByte_of_ne {x y : ℕ} (b : UInt8) (m : Kmem) (h : y ≠ x) :
    (m.setByte x b).bytes y = m.bytes y := Function.update_of_ne h ..

/-- `memmove` of the bytes `bs` to physical memory from `x` on. -/
def write : ℕ → List UInt8 → Kmem → Kmem
  | _, [], m => m
  | x, b :: bs, m => write (x + 1) bs (m.setByte x b)

/-- `memmove` of the `n` bytes of physical memory from `x` on. -/
def read (m : Kmem) : ℕ → ℕ → List UInt8
  | _, 0 => []
  | x, n + 1 => m.bytes x :: read m (x + 1) n

/-- The inner loop of `copyinstr` with `n` bytes to go: the bytes it copies, and whether it
has met a null byte. -/
def scan (m : Kmem) : ℕ → ℕ → List UInt8 × Bool
  | _, 0 => ([], false)
  | x, n + 1 =>
      if m.bytes x = 0 then
        ([0], true)
      else
        let r := scan m (x + 1) n
        (m.bytes x :: r.1, r.2)

end Kmem

/-- How a copy can stop the kernel: by a panic, or by following a null pointer. -/
inductive CopyFault
  | panic (p : Panic)
  | nullPte
  deriving DecidableEq

/-- `pa0 = walkaddr(pagetable, va0)`, and `vmfault` if that is `0`; `none` stands for `0`. -/
def userPage (s : Kmem) (pt : PageTable) (psz va0 : ℕ) :
    Except Panic (Kmem × PageTable × Option ℕ) := do
  match ← walkaddr pt va0 with
  | some pa0 => pure (s, pt, some pa0)
  | none => vmfault s pt psz va0

/-- The loop of `copyout` at `dstva`, with the bytes `src` to go; it runs at most once for
each byte. -/
def copyoutLoop (psz : ℕ) : ℕ → Kmem → PageTable → ℕ → List UInt8 →
    Except CopyFault (Kmem × PageTable × Bool)
  | 0, s, pt, _, src => pure (s, pt, src.isEmpty)
  | fuel + 1, s, pt, dstva, src =>
      if src.isEmpty then
        pure (s, pt, true)
      else
        let va0 := pgRoundDown dstva
        if va0 ≥ maxVa then
          pure (s, pt, false)
        else do
          let r ← (userPage s pt psz va0).mapError .panic
          match r.2.2 with
          | none => pure (r.1, r.2.1, false)
          | some pa0 => do
              match ← (walk r.2.1 va0).mapError .panic with
              | none => throw .nullPte
              | some pte =>
                  if (pte.elim false fun e => e.perm.w) = false then
                    pure (r.1, r.2.1, false)
                  else
                    let n := min (pgSize - (dstva - va0)) src.length
                    copyoutLoop psz fuel (r.1.write (pa0 + (dstva - va0)) (src.take n)) r.2.1
                      (va0 + pgSize) (src.drop n)

/-- `copyout(pagetable, psz, dstva, src, len)`; `false` stands for `-1`. -/
def copyout (s : Kmem) (pt : PageTable) (psz dstva : ℕ) (src : List UInt8) :
    Except CopyFault (Kmem × PageTable × Bool) :=
  copyoutLoop psz src.length s pt dstva src

/-- The loop of `copyin` at `srcva`, with `len` bytes to go: what it writes to `dst`, and
whether it returns `0`. -/
def copyinLoop (psz : ℕ) : ℕ → Kmem → PageTable → ℕ → ℕ →
    Except Panic (Kmem × PageTable × List UInt8 × Bool)
  | 0, s, pt, _, len => pure (s, pt, [], len == 0)
  | fuel + 1, s, pt, srcva, len =>
      if len = 0 then
        pure (s, pt, [], true)
      else do
        let va0 := pgRoundDown srcva
        let r ← userPage s pt psz va0
        match r.2.2 with
        | none => pure (r.1, r.2.1, [], false)
        | some pa0 => do
            let n := min (pgSize - (srcva - va0)) len
            let t ← copyinLoop psz fuel r.1 r.2.1 (va0 + pgSize) (len - n)
            pure (t.1, t.2.1, r.1.read (pa0 + (srcva - va0)) n ++ t.2.2.1, t.2.2.2)

def copyin (s : Kmem) (pt : PageTable) (psz srcva len : ℕ) :
    Except Panic (Kmem × PageTable × List UInt8 × Bool) :=
  copyinLoop psz len s pt srcva len

/-- The loop of `copyinstr` at `srcva`, with at most `max` bytes to go: what it writes to
`dst`, and whether it has got the null byte. -/
def copyinstrLoop (psz : ℕ) : ℕ → Kmem → PageTable → ℕ → ℕ →
    Except Panic (Kmem × PageTable × List UInt8 × Bool)
  | 0, s, pt, _, _ => pure (s, pt, [], false)
  | fuel + 1, s, pt, srcva, max =>
      if max = 0 then
        pure (s, pt, [], false)
      else do
        let va0 := pgRoundDown srcva
        let r ← userPage s pt psz va0
        match r.2.2 with
        | none => pure (r.1, r.2.1, [], false)
        | some pa0 =>
            let n := min (pgSize - (srcva - va0)) max
            let line := r.1.scan (pa0 + (srcva - va0)) n
            if line.2 then
              pure (r.1, r.2.1, line.1, true)
            else do
              let t ← copyinstrLoop psz fuel r.1 r.2.1 (va0 + pgSize) (max - n)
              pure (t.1, t.2.1, line.1 ++ t.2.2.1, t.2.2.2)

def copyinstr (s : Kmem) (pt : PageTable) (psz srcva max : ℕ) :
    Except Panic (Kmem × PageTable × List UInt8 × Bool) :=
  copyinstrLoop psz max s pt srcva max

/-- The `uint64` in the bytes `bs`, the lowest first. -/
def uint64Of (bs : List UInt8) : ℕ := bs.foldr (fun b acc => b.toNat + 256 * acc) 0

/-- `fetchaddr(addr, ip)` of a process with the size `sz`; `none` stands for `-1`. -/
def fetchaddr (s : Kmem) (pt : PageTable) (sz addr : ℕ) :
    Except Panic (Kmem × PageTable × Option ℕ) :=
  if addr ≥ sz ∨ (addr + 8) % 2 ^ 64 > sz then
    pure (s, pt, none)
  else do
    let r ← copyin s pt sz addr 8
    pure (r.1, r.2.1, if r.2.2.2 then some (uint64Of r.2.2.1) else none)

def strlen (buf : List UInt8) : ℕ := (buf.takeWhile fun b => b ≠ 0).length

/-- `fetchstr(addr, buf, max)`: the bytes written to `buf`, and the length of the string or
`none` for `-1`. -/
def fetchstr (s : Kmem) (pt : PageTable) (sz addr max : ℕ) :
    Except Panic (Kmem × PageTable × List UInt8 × Option ℕ) := do
  let r ← copyinstr s pt sz addr max
  pure (r.1, r.2.1, r.2.2.1, if r.2.2.2 then some (strlen r.2.2.1) else none)

/-! ## One byte -/

section Bytes

variable {nproc : ℕ} {kernelEnd : ℕ} {reserved : ℕ → ℕ} {g : Globals}
  {m m' : Machine Kmem nproc} {i : Fin nproc} {p : Space} {v o : ℕ} {e : Pte}

theorem page_div (v : ℕ) (ho : o < pgSize) : (v * pgSize + o) / pgSize = v := by
  rw [Nat.mul_comm, Nat.mul_add_div (by decide), Nat.div_eq_of_lt ho, Nat.add_zero]

theorem page_mod (v : ℕ) (ho : o < pgSize) : (v * pgSize + o) % pgSize = o := by
  rw [Nat.mul_comm, Nat.mul_add_mod, Nat.mod_eq_of_lt ho]

theorem flat_read (hm : Private kernelEnd reserved g m) (hp : m.proc i = some p) (hv : v ≤ shmPage)
    (he : p.pagetable.leaf v = some e) (ho : o < pgSize) :
    (flat g m).read pgSize shmPage i (v * pgSize + o) = m.mem.bytes (e.pa + o) := by
  unfold Flat.read cellOf
  rw [page_div v ho, page_mod v ho]
  split_ifs with hw
  · subst hw
    rw [flat_shared, if_pos ho, (hm.wellMapped hp).shape.shm e he]
  · have he' : userLeaf (m.proc i) ((v * pgSize + o) / pgSize) = some e := by
      rw [hp, page_div v ho]
      exact below_eq_some.mpr ⟨lt_of_le_of_ne hv hw, he⟩
    rw [flat_own, cell_of_some he', page_mod v ho]

theorem page_add_eq {pa pb o' : ℕ} (ha : pa % pgSize = 0) (hb : pb % pgSize = 0) (ho : o < pgSize)
    (ho' : o' < pgSize) (h : pa + o = pb + o') : pa = pb ∧ o = o' := by
  unfold pgSize at ha hb ho ho'
  omega

/-- A byte that is stored through a leaf changes that byte of the flat memory and no other. -/
theorem flat_setByte (hm : Private kernelEnd reserved g m) (hp : m.proc i = some p)
    (hv : v ≤ shmPage) (he : p.pagetable.leaf v = some e) (ho : o < pgSize) (b : UInt8) :
    Private kernelEnd reserved g (m.withMem (m.mem.setByte (e.pa + o) b)) ∧
      flat g (m.withMem (m.mem.setByte (e.pa + o) b)) =
        (flat g m).write pgSize shmPage i (v * pgSize + o) b := by
  have hbooks : Kmem.Balanced kernelEnd reserved (m.mem.setByte (e.pa + o) b) m.user m.owned :=
    hm.inv.books
  refine ⟨{ hm with inv := hm.inv.withMem hbooks }, ?_⟩
  have hshm := hm.shm
  have hmod : ∀ a, a % pgSize < pgSize := fun a => Nat.mod_lt a (by decide)
  ext1
  · rfl
  · rfl
  · rfl
  · funext x
    unfold Flat.write cellOf
    dsimp only
    rw [page_div v ho, page_mod v ho]
    cases x with
    | shared k =>
        rw [flat_shared]
        change (if k < pgSize then Function.update m.mem.bytes (e.pa + o) b (g.shmPagePa + k) else 0)
          = _
        split_ifs with hk hw hw
        · subst hw
          rw [(hm.wellMapped hp).shape.shm e he]
          by_cases hko : k = o
          · rw [hko, Function.update_self, Function.update_self]
          · rw [Function.update_of_ne (by omega), Function.update_of_ne (by simp [hko]),
              flat_shared, if_pos hk]
        · have he' : userLeaf (m.proc i) v = some e := by
            rw [hp]
            exact below_eq_some.mpr ⟨lt_of_le_of_ne hv hw, he⟩
          obtain ⟨hal, _, hne⟩ := hm.page he'
          rw [Function.update_of_ne fun heq => hne (page_add_eq hshm.1 hal hk ho heq).1.symm,
            Function.update_of_ne (by simp), flat_shared, if_pos hk]
        · rw [Function.update_of_ne, flat_shared, if_neg hk]
          intro heq
          injection heq with heq
          exact hk (heq ▸ ho)
        · rw [Function.update_of_ne (by simp), flat_shared, if_neg hk]
    | own k a =>
        rw [flat_own]
        change cell (m.mem.setByte (e.pa + o) b) (userLeaf (m.proc k)) a = _
        have hother : ∀ c : Cell (Fin nproc), Cell.own k a ≠ c →
            (∀ x, userLeaf (m.proc k) (a / pgSize) = some x → x.pa + a % pgSize ≠ e.pa + o) →
            cell (m.mem.setByte (e.pa + o) b) (userLeaf (m.proc k)) a =
              Function.update (flat g m).content c b (.own k a) := by
          intro c hc hne
          rw [Function.update_of_ne hc, flat_own]
          cases hx : userLeaf (m.proc k) (a / pgSize) with
          | none => rw [cell_of_none hx, cell_of_none hx]
          | some x =>
              rw [cell_of_some hx, cell_of_some hx]
              exact setByte_of_ne b m.mem (hne x hx)
        split_ifs with hw
        · refine hother _ (by simp) fun x hx heq => (hm.page hx).2.2 ?_
          rw [hw] at he
          rw [(hm.wellMapped hp).shape.shm e he] at heq
          exact (page_add_eq (hm.page hx).1 hshm.1 (hmod a) ho heq).1
        · have he' : userLeaf (m.proc i) v = some e := by
            rw [hp]
            exact below_eq_some.mpr ⟨lt_of_le_of_ne hv hw, he⟩
          by_cases hka : k = i ∧ a = v * pgSize + o
          · obtain ⟨rfl, rfl⟩ := hka
            have hcell : userLeaf (m.proc k) ((v * pgSize + o) / pgSize) = some e := by
              rw [page_div v ho]
              exact he'
            rw [Function.update_self, cell_of_some hcell, page_mod v ho, setByte_self]
          · refine hother _ (fun heq => hka ?_) fun x hx heq => hka ?_
            · injection heq with hk ha
              exact ⟨hk, ha⟩
            · obtain ⟨hpa, hoff⟩ := page_add_eq (hm.page hx).1 (hm.page he').1 (hmod a) ho heq
              obtain ⟨rfl, hav⟩ := hm.unaliased i v e k (a / pgSize) x he' hx hpa
              refine ⟨rfl, ?_⟩
              rw [← hav, ← hoff, Nat.div_add_mod']

theorem flat_write (hm : Private kernelEnd reserved g m) (hp : m.proc i = some p)
    (hv : v ≤ shmPage) (he : p.pagetable.leaf v = some e) (bs : List UInt8)
    (hfit : o + bs.length ≤ pgSize) :
    Private kernelEnd reserved g (m.withMem (m.mem.write (e.pa + o) bs)) ∧
      flat g (m.withMem (m.mem.write (e.pa + o) bs)) =
        (flat g m).writes pgSize shmPage i (v * pgSize + o) bs := by
  induction bs generalizing m o with
  | nil => exact ⟨hm, rfl⟩
  | cons b bs ih =>
      rw [List.length_cons] at hfit
      obtain ⟨hm', hflat⟩ := flat_setByte hm hp hv he (o := o) (by omega) b
      have hrest := ih hm' hp (o := o + 1) (by omega)
      rw [← Nat.add_assoc, ← Nat.add_assoc, hflat] at hrest
      rw [Kmem.write, Flat.writes_cons]
      exact hrest

theorem flat_reads (hm : Private kernelEnd reserved g m) (hp : m.proc i = some p)
    (hv : v ≤ shmPage) (he : p.pagetable.leaf v = some e) {n : ℕ} (hfit : o + n ≤ pgSize) :
    m.mem.read (e.pa + o) n = (flat g m).reads pgSize shmPage i (v * pgSize + o) n := by
  induction n generalizing o with
  | zero => rfl
  | succ n ih =>
      rw [Kmem.read, Flat.reads, flat_read hm hp hv he (by omega), Nat.add_assoc, Nat.add_assoc,
        ih (by omega)]

theorem write_supply (s : Kmem) (x : ℕ) (bs : List UInt8) : (s.write x bs).supply = s.supply := by
  induction bs generalizing s x with
  | nil => rfl
  | cons b bs ih =>
      rw [Kmem.write, ih]
      rfl

/-! ## One page -/

/-- The process `i` sees a page at the address `a` that has the bits `PTE_U` and `bit`. -/
def Grants (F : UserMemory nproc) (i : Fin nproc) (bit : Perm → Bool) (a : ℕ) : Prop :=
  F.Accessible pgSize shmPage i a ∧ (F.mode i (a / pgSize)).u = true ∧
    bit (F.mode i (a / pgSize)) = true

theorem accessible_iff (hm : Private kernelEnd reserved g m) (hp : m.proc i = some p) {a : ℕ} :
    (flat g m).Accessible pgSize shmPage i a ↔ a / pgSize < pageCount p.sz ∨
      a / pgSize = shmPage ∧ p.pagetable.leaf shmPage ≠ none := by
  have hpages := pageCount_le_shmPage (hm.wellMapped hp).sz_le
  unfold Flat.Accessible
  rw [flat_size_of_proc g hp, flat_attached, hp]
  change (∃ sz, some p.sz = some sz ∧ (_ ∧ _ ∨ _ ∧ (p.pagetable.leaf shmPage).isSome = true)) ↔ _
  constructor
  · rintro ⟨sz, hsz, ⟨hlt, _⟩ | ⟨hw, hatt⟩⟩
    · cases hsz
      exact Or.inl hlt
    · exact Or.inr ⟨hw, Option.isSome_iff_ne_none.mp hatt⟩
  · rintro (hlt | ⟨hw, hatt⟩)
    · exact ⟨p.sz, rfl, Or.inl ⟨hlt, Nat.ne_of_lt (hlt.trans_le hpages)⟩⟩
    · exact ⟨p.sz, rfl, Or.inr ⟨hw, Option.isSome_iff_ne_none.mpr hatt⟩⟩

theorem flat_mode_of_leaf (hp : m.proc i = some p) (hv : v ≤ shmPage) :
    (flat g m).mode i v = permOf (p.pagetable.leaf v) := by
  rw [flat_mode, hp]
  split_ifs with hw
  · rw [hw]
    rfl
  · change permOf (below p.pagetable.leaf v) = _
    rw [below_of_lt _ (lt_of_le_of_ne hv hw)]

/-- A page that is mapped is seen, unless it is one of the two pages at the top, which have no
`PTE_U`. -/
theorem accessible_of_leaf (hm : Private kernelEnd reserved g m) (hp : m.proc i = some p) {a : ℕ}
    (he : p.pagetable.leaf (a / pgSize) = some e) :
    a / pgSize ≤ shmPage ∧ (flat g m).Accessible pgSize shmPage i a ∨ e.perm.u = false := by
  have hwell := hm.wellMapped hp
  rw [accessible_iff hm hp]
  by_cases hlt : a / pgSize < shmPage
  · refine Or.inl ⟨hlt.le, Or.inl ?_⟩
    by_contra hge
    rw [hwell.shape.hole _ (Nat.not_lt.mp hge) hlt] at he
    cases he
  · rcases shmPage_le_cases (Nat.not_lt.mp hlt) with hv | hv | hv | hv
    · refine Or.inl ⟨hv.le, Or.inr ⟨hv, ?_⟩⟩
      rw [← hv, he]
      exact Option.some_ne_none e
    · rw [hv, hwell.shape.trapframe] at he
      cases he
      exact Or.inr rfl
    · rw [hv, hwell.shape.trampoline] at he
      cases he
      exact Or.inr rfl
    · rw [hwell.shape.above _ hv] at he
      cases he

/-- A page that the process may use is mapped with `PTE_U`, or it is a hole below the size. -/
theorem grants_cases (hm : Private kernelEnd reserved g m) (hp : m.proc i = some p) {a : ℕ}
    {bit : Perm → Bool} (h : Grants (flat g m) i bit a) : a / pgSize ≤ shmPage ∧
      (a / pgSize < pageCount p.sz ∧ p.pagetable.leaf (a / pgSize) = none ∨
        ∃ e, p.pagetable.leaf (a / pgSize) = some e ∧ e.perm.u = true) := by
  obtain ⟨hacc, hu, _⟩ := h
  have hpages := pageCount_le_shmPage (hm.wellMapped hp).sz_le
  have hcases := (accessible_iff hm hp).mp hacc
  have hv : a / pgSize ≤ shmPage := by
    rcases hcases with hlt | ⟨hw, _⟩
    · exact (hlt.trans_le hpages).le
    · exact hw.le
  refine ⟨hv, ?_⟩
  rw [flat_mode_of_leaf hp hv] at hu
  cases he : p.pagetable.leaf (a / pgSize) with
  | none =>
      refine Or.inl ⟨hcases.resolve_right fun hw => hw.2 ?_, rfl⟩
      rw [← hw.1]
      exact he
  | some e =>
      rw [he] at hu
      exact Or.inr ⟨e, rfl, hu⟩

/-- What `walkaddr` and `vmfault` find at the address `a`: they fail because the process may
not use the page, or because memory is short; or the page is mapped now. -/
structure Visits (g : Globals) (m : Machine Kmem nproc) (i : Fin nproc) (p : Space) (a : ℕ)
    (r : Kmem × PageTable × Option ℕ) : Prop where
  grows : ∀ v, r.2.1.leaf v = none → p.pagetable.leaf v = none
  refused : r.2.2 = none → ¬ Grants (flat g m) i Perm.u a ∨
    m.mem.supply < 3 ∧ p.pagetable.leaf (a / pgSize) = none
  found : ∀ pa, r.2.2 = some pa → Grants (flat g m) i Perm.u a ∧ a / pgSize ≤ shmPage ∧
    r.2.1.leaf (a / pgSize) = some ⟨pa, (flat g m).mode i (a / pgSize)⟩ ∧
    m.mem.supply ≤ r.1.supply + 3

theorem userPage_visits (hm : Private kernelEnd reserved g m) (hp : m.proc i = some p) (a : ℕ) :
    Yields (fun _ => False) (userPage m.mem p.pagetable p.sz (pgRoundDown a)) fun r =>
      (Private kernelEnd reserved g (m.put r.1 i (some { p with pagetable := r.2.1 })) ∧
        flat g (m.put r.1 i (some { p with pagetable := r.2.1 })) = flat g m) ∧
      Visits g m i p a r := by
  have hwell := hm.wellMapped hp
  have hpages := pageCount_le_shmPage hwell.sz_le
  have hdiv : pgRoundDown a / pgSize = a / pgSize := Nat.mul_div_cancel _ (by decide)
  by_cases hfound : ∃ e, pgRoundDown a < maxVa ∧ p.pagetable.leaf (a / pgSize) = some e ∧
      e.perm.u = true
  · obtain ⟨e, hva, he, hu⟩ := hfound
    have hw := (walkaddr_some hva (by rw [hdiv]; exact he) hu).1
    rw [userPage, hw]
    have hself : m.put m.mem i (some p) = m := put_self hp
    obtain ⟨hv, hacc⟩ := (accessible_of_leaf hm hp he).resolve_right (by rw [hu]; decide)
    have hmode : (flat g m).mode i (a / pgSize) = e.perm := by
      rw [flat_mode_of_leaf hp hv, he]
      rfl
    refine ⟨⟨?_, congrArg (flat g) hself⟩, fun _ hnone => hnone, fun hnone => ?_, ?_⟩
    · change Private kernelEnd reserved g (m.put m.mem i (some p))
      rw [hself]
      exact hm
    · cases hnone
    · rintro pa ⟨⟩
      refine ⟨⟨hacc, ?_, ?_⟩, hv, ?_, Nat.le_add_right _ _⟩
      · rw [hmode, hu]
      · rw [hmode, hu]
      · rw [hmode]
        exact he
  · have hno : ∀ e, pgRoundDown a < maxVa → p.pagetable.leaf (pgRoundDown a / pgSize) = some e →
        e.perm.u = false := by
      intro e hva he
      rw [hdiv] at he
      by_contra hu
      exact hfound ⟨e, hva, he, Bool.eq_true_of_not_eq_false hu⟩
    rw [userPage, (walkaddr_none hno).1, yields_ok_bind]
    apply (vmfault_flat hm hp (pgRoundDown a)).mono
    rintro r ⟨hsame, hfault⟩
    have hround : pgRoundDown a < p.sz ↔ a / pgSize < pageCount p.sz := lt_pageCount_iff.symm
    refine ⟨hsame, ?_⟩
    cases hfault with
    | refused s' pt' hleaf hcause =>
        refine ⟨fun v hnone => by rw [← hleaf]; exact hnone, fun _ => ?_, fun pa hpa => absurd hpa.symm (Option.some_ne_none pa)⟩
        rw [hdiv] at hcause
        rcases hcause with hge | hmapped | hshort
        · refine Or.inl fun hgrants => ?_
          obtain ⟨hv, ⟨hlt, _⟩ | ⟨e, he, hu⟩⟩ := grants_cases hm hp hgrants
          · exact absurd (hround.mpr hlt) (Nat.not_lt.mpr hge)
          · have hva := page_lt_maxVa (lt_of_le_of_lt hv shmPage_lt)
            exact hfound ⟨e, hva, he, hu⟩
        · refine Or.inl fun hgrants => ?_
          obtain ⟨hv, ⟨_, hnone⟩ | ⟨e, he, hu⟩⟩ := grants_cases hm hp hgrants
          · exact hmapped hnone
          · have hva := page_lt_maxVa (lt_of_le_of_lt hv shmPage_lt)
            exact hfound ⟨e, hva, he, hu⟩
        · by_cases hhole : p.pagetable.leaf (a / pgSize) = none
          · exact Or.inr ⟨hshort, hhole⟩
          · refine Or.inl fun hgrants => ?_
            obtain ⟨hv, ⟨_, hnone⟩ | ⟨e, he, hu⟩⟩ := grants_cases hm hp hgrants
            · exact hhole hnone
            · have hva := page_lt_maxVa (lt_of_le_of_lt hv shmPage_lt)
              exact hfound ⟨e, hva, he, hu⟩
    | filled s' pt' pa hva hnone hleaf _ _ hsupply =>
        refine ⟨fun v hv => ?_, fun hfail => absurd hfail (Option.some_ne_none pa), ?_⟩
        · by_cases hvv : v = pgRoundDown a / pgSize
          · rw [hvv]
            exact hnone
          · dsimp only at hv
            rw [hleaf, Function.update_of_ne hvv] at hv
            exact hv
        rintro _ ⟨⟩
        rw [hdiv] at hnone hleaf
        have hlt := hround.mp hva
        have hv : a / pgSize ≤ shmPage := (hlt.trans_le hpages).le
        have hmode : (flat g m).mode i (a / pgSize) = freshPerm := by
          rw [flat_mode_of_leaf hp hv, hnone]
          rfl
        refine ⟨⟨(accessible_iff hm hp).mpr (Or.inl hlt), ?_, ?_⟩, hv, ?_, hsupply⟩
        · rw [hmode]
          rfl
        · rw [hmode]
          rfl
        · rw [hmode]
          exact (congrFun hleaf _).trans (Function.update_self ..)

theorem userPage_kept (hm : Private kernelEnd reserved g m) (hp : m.proc i = some p) (a : ℕ) :
    Yields (fun _ => True) (userPage m.mem p.pagetable p.sz (pgRoundDown a)) fun r =>
      ∀ q, 0 < reserved q → SameBytes m.mem q r.1 q := by
  have hcycles : Yields (fun _ => True) (userPage m.mem p.pagetable p.sz (pgRoundDown a))
      fun r => Cycles m.mem r.1 := by
    unfold userPage
    refine (yields_true _).bind fun x _ => ?_
    cases x with
    | some pa0 => exact .refl m.mem
    | none => exact vmfault_cycles hm.sound _ _ _
  cases hr : userPage m.mem p.pagetable p.sz (pgRoundDown a) with
  | error e => trivial
  | ok r =>
      obtain ⟨⟨hm', _⟩, _⟩ := (userPage_visits hm hp a).of_eq_ok hr
      exact fun q hq => hm.kept hm' (hcycles.of_eq_ok hr) hq hq

/-! ## A range -/

/-- The number of pages that the `len` bytes from `a` on lie in. -/
def pageSpan (a len : ℕ) : ℕ := pageCount (a % pgSize + len)

/-- The bytes from `a` up to the end of its page. -/
def toPageEnd (a : ℕ) : ℕ := pgSize - a % pgSize

theorem pageSpan_pos {a len : ℕ} (h : 0 < len) : 0 < pageSpan a len := by
  unfold pageSpan pageCount pgSize
  omega

theorem pageSpan_next {a len : ℕ} (h : toPageEnd a < len) :
    pageSpan a len = pageSpan (a + toPageEnd a) (len - toPageEnd a) + 1 := by
  unfold toPageEnd at h ⊢
  unfold pageSpan pageCount
  unfold pgSize at h ⊢
  omega

theorem round_add_pgSize (a : ℕ) : pgRoundDown a + pgSize = a + toPageEnd a := by
  unfold toPageEnd pgRoundDown pgSize
  omega

theorem sub_round (a : ℕ) : a - pgRoundDown a = a % pgSize := by
  unfold pgRoundDown pgSize
  omega

theorem div_of_lt_toPageEnd {a n : ℕ} (h : n < toPageEnd a) : (a + n) / pgSize = a / pgSize := by
  unfold toPageEnd at h
  unfold pgSize at h ⊢
  omega

theorem Grants.congr {F : UserMemory nproc} {bit : Perm → Bool} {a a' : ℕ}
    (ha : a' / pgSize = a / pgSize) : Grants F i bit a' ↔ Grants F i bit a := by
  unfold Grants Flat.Accessible
  rw [ha]

theorem grants_writes {F : UserMemory nproc} {bit : Perm → Bool} {j : Fin nproc} {a c : ℕ}
    {bs : List UInt8} :
    Grants (F.writes pgSize shmPage j c bs) i bit a ↔ Grants F i bit a := by
  unfold Grants
  rw [Flat.accessible_writes, Flat.writes_mode]

/-- A copy of `len` bytes at `a` has handled `k` of them, which it may use; if these are not
all, it has stopped at a byte that it may not use, or in a hole with memory short. -/
structure CopyResult (F : UserMemory nproc) (supply : ℕ) (hole : ℕ → Prop) (i : Fin nproc)
    (bit : Perm → Bool) (a len k : ℕ) (ok : Bool) : Prop where
  le : k ≤ len
  granted : ∀ n < k, Grants F i bit (a + n)
  ok_iff : ok = true ↔ k = len
  refused : ok = false → ¬ Grants F i bit (a + k) ∨
    supply < 3 * pageSpan a len ∧ hole ((a + k) / pgSize)

section Ranges

variable {F : UserMemory nproc} {supply : ℕ} {hole hole' : ℕ → Prop} {bit : Perm → Bool} {a len k : ℕ}

theorem CopyResult.empty (a : ℕ) : CopyResult F supply hole i bit a 0 0 true :=
  ⟨le_rfl, fun _ hn => absurd hn (Nat.not_lt_zero _), iff_of_true rfl rfl,
    fun h => absurd h.symm Bool.false_ne_true⟩

theorem CopyResult.fail (hlen : 0 < len)
    (h : ¬ Grants F i bit a ∨ supply < 3 ∧ hole (a / pgSize)) :
    CopyResult F supply hole i bit a len 0 false := by
  have hspan := pageSpan_pos (a := a) hlen
  refine ⟨Nat.zero_le _, fun _ hn => absurd hn (Nat.not_lt_zero _), ?_, fun _ => ?_⟩
  · exact iff_of_false Bool.false_ne_true (Nat.ne_of_lt hlen)
  · rw [Nat.add_zero]
    exact h.imp_right fun hs => ⟨by omega, hs.2⟩

theorem CopyResult.last (h : Grants F i bit a) (hlen : len ≤ toPageEnd a) :
    CopyResult F supply hole i bit a len len true := by
  refine ⟨le_rfl, fun n hn => ?_, iff_of_true rfl rfl, fun h => absurd h.symm Bool.false_ne_true⟩
  exact (Grants.congr (div_of_lt_toPageEnd (hn.trans_le hlen))).mpr h

theorem CopyResult.next {supply' : ℕ} {ok : Bool} (h : Grants F i bit a) (hlen : toPageEnd a < len)
    (hsupply : supply ≤ supply' + 3) (hhole : ∀ v, hole' v → hole v)
    (hrest : CopyResult F supply' hole' i bit (a + toPageEnd a) (len - toPageEnd a) k ok) :
    CopyResult F supply hole i bit a len (toPageEnd a + k) ok := by
  have hle := hrest.le
  refine ⟨by omega, fun n hn => ?_, ?_, fun hfail => ?_⟩
  · by_cases hfirst : n < toPageEnd a
    · exact (Grants.congr (div_of_lt_toPageEnd hfirst)).mpr h
    · have hgranted := hrest.granted (n - toPageEnd a) (by omega)
      rw [Nat.add_assoc, Nat.add_sub_cancel' (Nat.not_lt.mp hfirst)] at hgranted
      exact hgranted
  · rw [hrest.ok_iff]
    omega
  · rw [← Nat.add_assoc]
    refine (hrest.refused hfail).imp_right fun hshort => ⟨?_, hhole _ hshort.2⟩
    rw [pageSpan_next hlen]
    omega

theorem CopyResult.of_writes {j : Fin nproc} {c : ℕ} {bs : List UInt8} {ok : Bool}
    (h : CopyResult (F.writes pgSize shmPage j c bs) supply hole i bit a len k ok) :
    CopyResult F supply hole i bit a len k ok :=
  ⟨h.le, fun n hn => grants_writes.mp (h.granted n hn), h.ok_iff,
    fun hfail => (h.refused hfail).imp_left fun hno hgrants => hno (grants_writes.mpr hgrants)⟩

end Ranges

theorem put_put (m : Machine Kmem nproc) (s s' : Kmem) (o o' : Option Space) :
    (m.put s i o).put s' i o' = m.put s' i o' := by
  unfold Machine.put
  rw [Function.update_idem]

theorem copyoutLoop_nil (psz fuel : ℕ) (s : Kmem) (pt : PageTable) (a : ℕ) :
    copyoutLoop psz fuel s pt a [] = pure (s, pt, true) := by
  cases fuel with
  | zero => rfl
  | succ fuel => rfl

/-- `copyout` writes to the flat memory of the process, up to the first page that it may not
write to; it does not panic, and it follows no null pointer. -/
theorem copyoutLoop_flat (fuel : ℕ) (m : Machine Kmem nproc) (p : Space) (a : ℕ) (bs : List UInt8)
    (hfuel : bs.length ≤ fuel) (hm : Private kernelEnd reserved g m) (hp : m.proc i = some p) :
    Yields (fun _ => False) (copyoutLoop p.sz fuel m.mem p.pagetable a bs) fun r =>
      Private kernelEnd reserved g (m.put r.1 i (some { p with pagetable := r.2.1 })) ∧
      ∃ k, CopyResult (flat g m) m.mem.supply (fun v => p.pagetable.leaf v = none) i Perm.w a
          bs.length k r.2.2 ∧
        (∀ v, r.2.1.leaf v = none → p.pagetable.leaf v = none) ∧
        (∀ n < k, r.2.1.leaf ((a + n) / pgSize) ≠ none) ∧
        flat g (m.put r.1 i (some { p with pagetable := r.2.1 })) =
          (flat g m).writes pgSize shmPage i a (bs.take k) := by
  have hself : m.put m.mem i (some p) = m := put_self hp
  induction fuel generalizing m p a bs with
  | zero =>
      rw [List.length_eq_zero_iff.mp (Nat.le_zero.mp hfuel)]
      refine ⟨?_, 0, .empty a, fun _ h => h, fun n hn => absurd hn n.not_lt_zero,
        congrArg (flat g) hself⟩
      change Private kernelEnd reserved g (m.put m.mem i (some p))
      rw [hself]
      exact hm
  | succ fuel ih =>
      by_cases hempty : bs = []
      · subst hempty
        refine ⟨?_, 0, .empty a, fun _ h => h, fun n hn => absurd hn n.not_lt_zero,
          congrArg (flat g) hself⟩
        change Private kernelEnd reserved g (m.put m.mem i (some p))
        rw [hself]
        exact hm
      · have hlen : 0 < bs.length := List.length_pos_of_ne_nil hempty
        rw [copyoutLoop, if_neg (by simpa using hempty)]
        dsimp only
        apply Yields.ite
        · intro hva
          refine ⟨?_, 0, .fail hlen (Or.inl fun hgrants => ?_), fun _ h => h,
            fun n hn => absurd hn n.not_lt_zero, congrArg (flat g) hself⟩
          · change Private kernelEnd reserved g (m.put m.mem i (some p))
            rw [hself]
            exact hm
          · have hv := (grants_cases hm hp hgrants).1
            exact absurd hva (Nat.not_le.mpr (page_lt_maxVa (lt_of_le_of_lt hv shmPage_lt)))
        · intro _
          apply ((userPage_visits hm hp a).mapError fun _ h => h.elim).bind
          rintro r ⟨⟨hm₁, hflat₁⟩, hvisits⟩
          cases hpa : r.2.2 with
          | none =>
              refine ⟨hm₁, 0, .fail hlen ?_, hvisits.grows, fun n hn => absurd hn n.not_lt_zero,
                hflat₁⟩
              exact (hvisits.refused hpa).imp_left fun hno hgrants => hno ⟨hgrants.1, hgrants.2.1,
                hgrants.2.1⟩
          | some pa =>
              obtain ⟨hgrants, hv, hleaf, hsupply⟩ := hvisits.found pa hpa
              have hwalk := walk_of_leaf (lt_of_le_of_lt hv shmPage_lt) hleaf
              dsimp only
              rw [show pgRoundDown a = a / pgSize * pgSize from rfl, hwalk]
              change Yields _ (if ((flat g m).mode i (a / pgSize)).w = false then _ else _) _
              apply Yields.ite
              · intro hw
                refine ⟨hm₁, 0, .fail hlen (Or.inl fun hgrants => ?_), hvisits.grows,
                  fun n hn => absurd hn n.not_lt_zero, hflat₁⟩
                exact Bool.false_ne_true (hw.symm.trans hgrants.2.2)
              · intro hw
                have hgrants' : Grants (flat g m) i Perm.w a :=
                  ⟨hgrants.1, hgrants.2.1, Bool.eq_true_of_not_eq_false hw⟩
                have hoff : a - a / pgSize * pgSize = a % pgSize := sub_round a
                have haddr : a / pgSize * pgSize + a % pgSize = a := Nat.div_add_mod' a pgSize
                rw [hoff, show a / pgSize * pgSize + pgSize = a + toPageEnd a from
                  round_add_pgSize a, show pgSize - a % pgSize = toPageEnd a from rfl]
                have hmod : a % pgSize + toPageEnd a = pgSize :=
                  Nat.add_sub_cancel' (Nat.mod_lt a (by decide)).le
                have hwrite := flat_write hm₁ (put_proc_self ..) hv hleaf (o := a % pgSize)
                  (bs.take (min (toPageEnd a) bs.length)) (by
                    rw [List.length_take]
                    omega)
                rw [haddr, hflat₁] at hwrite
                obtain ⟨hm₂, hflat₂⟩ := hwrite
                by_cases hlast : bs.length ≤ toPageEnd a
                · rw [min_eq_right hlast, List.take_length] at hm₂ hflat₂ ⊢
                  rw [List.drop_length, copyoutLoop_nil]
                  refine ⟨hm₂, bs.length, .last hgrants' hlast, hvisits.grows, fun n hn => ?_, ?_⟩
                  · rw [div_of_lt_toPageEnd (by omega), hleaf]
                    exact Option.some_ne_none _
                  · rw [List.take_length]
                    exact hflat₂
                · have hnext := Nat.not_le.mp hlast
                  rw [min_eq_left hnext.le] at hm₂ hflat₂ ⊢
                  have hrest := ih _ _ (a + toPageEnd a) (bs.drop (toPageEnd a)) (by
                    rw [List.length_drop]
                    have : 0 < toPageEnd a := Nat.sub_pos_of_lt (Nat.mod_lt a (by decide))
                    omega) hm₂ (put_proc_self ..) (put_self (put_proc_self ..))
                  apply hrest.mono
                  rintro r' ⟨hm', k, hresult, hgrows, hmapped, hflat'⟩
                  have hput : ∀ s s' o o', ((m.put r.1 i o).withMem s).put s' i o' = m.put s' i o' :=
                    fun s s' o o' => put_put m s s' o o'
                  rw [hput] at hm' hflat'
                  rw [hflat₂] at hresult hflat'
                  rw [List.length_drop] at hresult
                  change CopyResult _ (Kmem.write _ _ r.1).supply _ _ _ _ _ _ _ at hresult
                  rw [write_supply] at hresult
                  refine ⟨hm', toPageEnd a + k, .next hgrants' hnext hsupply hvisits.grows
                    hresult.of_writes, fun v hv => hvisits.grows v (hgrows v hv), fun n hn => ?_, ?_⟩
                  · by_cases hfirst : n < toPageEnd a
                    · rw [div_of_lt_toPageEnd hfirst]
                      intro hnone
                      have hnone' := hgrows _ hnone
                      dsimp only at hnone'
                      rw [hleaf] at hnone'
                      cases hnone'
                    · have hn' := hmapped (n - toPageEnd a) (by omega)
                      rw [Nat.add_assoc, Nat.add_sub_cancel' (Nat.not_lt.mp hfirst)] at hn'
                      exact hn'
                  rw [List.take_add, Flat.writes_append, List.length_take, min_eq_left hnext.le]
                  exact hflat'

theorem copyinLoop_zero (psz fuel : ℕ) (s : Kmem) (pt : PageTable) (a : ℕ) :
    copyinLoop psz fuel s pt a 0 = pure (s, pt, [], true) := by
  cases fuel with
  | zero => rfl
  | succ fuel => rfl

/-- What a copy from user memory does to physical memory: the kernel's own pages keep their
bytes, and if it returns `0` it has taken three pages at most for each page it has visited. -/
structure Footprint (reserved : ℕ → ℕ) (s s' : Kmem) (pages : ℕ) (ok : Bool) : Prop where
  kept : ∀ q, 0 < reserved q → SameBytes s q s' q
  supply_le : ok = true → s.supply ≤ s'.supply + 3 * pages

theorem Footprint.refl (reserved : ℕ → ℕ) (s : Kmem) (pages : ℕ) (ok : Bool) :
    Footprint reserved s s pages ok :=
  ⟨fun _ _ _ _ => rfl, fun _ => Nat.le_add_right _ _⟩

theorem Footprint.fail {s s' : Kmem} (h : ∀ q, 0 < reserved q → SameBytes s q s' q) (pages : ℕ) :
    Footprint reserved s s' pages false :=
  ⟨h, fun hok => absurd hok Bool.false_ne_true⟩

theorem Footprint.next {s s₁ s' : Kmem} {a len : ℕ} {ok : Bool} (hlen : toPageEnd a < len)
    (hkept : ∀ q, 0 < reserved q → SameBytes s q s₁ q) (hsupply : s.supply ≤ s₁.supply + 3)
    (h : Footprint reserved s₁ s' (pageSpan (a + toPageEnd a) (len - toPageEnd a)) ok) :
    Footprint reserved s s' (pageSpan a len) ok := by
  refine ⟨fun q hq k hk => (h.kept q hq k hk).trans (hkept q hq k hk), fun hok => ?_⟩
  have hrest := h.supply_le hok
  rw [pageSpan_next hlen]
  omega

theorem Footprint.last {s s' : Kmem} {a len : ℕ} (hlen : 0 < len)
    (hkept : ∀ q, 0 < reserved q → SameBytes s q s' q) (hsupply : s.supply ≤ s'.supply + 3)
    (ok : Bool) : Footprint reserved s s' (pageSpan a len) ok := by
  have hspan := pageSpan_pos (a := a) hlen
  exact ⟨hkept, fun _ => by omega⟩

/-- `copyin` reads the flat memory of the process, up to the first page that it may not use. -/
theorem copyinLoop_flat (fuel : ℕ) (m : Machine Kmem nproc) (p : Space) (a len : ℕ)
    (hfuel : len ≤ fuel) (hm : Private kernelEnd reserved g m) (hp : m.proc i = some p) :
    Yields (fun _ => False) (copyinLoop p.sz fuel m.mem p.pagetable a len) fun r =>
      (Private kernelEnd reserved g (m.put r.1 i (some { p with pagetable := r.2.1 })) ∧
        flat g (m.put r.1 i (some { p with pagetable := r.2.1 })) = flat g m) ∧
      Footprint reserved m.mem r.1 (pageSpan a len) r.2.2.2 ∧
      ∃ k, CopyResult (flat g m) m.mem.supply (fun v => p.pagetable.leaf v = none) i Perm.u a len k
          r.2.2.2 ∧
        r.2.2.1 = (flat g m).reads pgSize shmPage i a k := by
  have hself : m.put m.mem i (some p) = m := put_self hp
  have hunchanged : Private kernelEnd reserved g (m.put m.mem i (some p)) ∧
      flat g (m.put m.mem i (some p)) = flat g m := by
    rw [hself]
    exact ⟨hm, rfl⟩
  induction fuel generalizing m p a len with
  | zero =>
      rw [Nat.le_zero.mp hfuel]
      exact ⟨hunchanged, .refl reserved m.mem _ _, 0, .empty a, rfl⟩
  | succ fuel ih =>
      rw [copyinLoop]
      apply Yields.ite
      · intro hzero
        rw [hzero]
        exact ⟨hunchanged, .refl reserved m.mem _ _, 0, .empty a, rfl⟩
      · intro hne
        have hlen : 0 < len := Nat.pos_of_ne_zero hne
        apply ((userPage_visits hm hp a).and (userPage_kept hm hp a)).bind
        rintro r ⟨⟨⟨hm₁, hflat₁⟩, hvisits⟩, hkept₁⟩
        cases hpa : r.2.2 with
        | none =>
            exact ⟨⟨hm₁, hflat₁⟩, .fail hkept₁ _, 0, .fail hlen (hvisits.refused hpa), rfl⟩
        | some pa =>
            obtain ⟨hgrants, hv, hleaf, hsupply⟩ := hvisits.found pa hpa
            have haddr : a / pgSize * pgSize + a % pgSize = a := Nat.div_add_mod' a pgSize
            have hmod : a % pgSize + toPageEnd a = pgSize :=
              Nat.add_sub_cancel' (Nat.mod_lt a (by decide)).le
            dsimp only
            rw [sub_round, round_add_pgSize, show pgSize - a % pgSize = toPageEnd a from rfl]
            have hread := flat_reads hm₁ (put_proc_self ..) hv hleaf (o := a % pgSize)
              (n := min (toPageEnd a) len) (by omega)
            rw [haddr, hflat₁] at hread
            change Kmem.read r.1 _ _ = _ at hread
            rw [hread]
            by_cases hlast : len ≤ toPageEnd a
            · rw [min_eq_right hlast, Nat.sub_self, copyinLoop_zero]
              refine ⟨⟨hm₁, hflat₁⟩, .last hlen hkept₁ hsupply true, len, .last hgrants hlast, ?_⟩
              exact List.append_nil _
            · have hnext := Nat.not_le.mp hlast
              rw [min_eq_left hnext.le]
              have hpos : 0 < toPageEnd a := Nat.sub_pos_of_lt (Nat.mod_lt a (by decide))
              have hself₁ : (m.put r.1 i (some { p with pagetable := r.2.1 })).put r.1 i
                  (some { p with pagetable := r.2.1 }) =
                  m.put r.1 i (some { p with pagetable := r.2.1 }) := put_put ..
              have hrest := ih _ _ (a + toPageEnd a) (len - toPageEnd a) (by omega) hm₁
                (put_proc_self ..) hself₁ (by
                  rw [put_mem, hself₁]
                  exact ⟨hm₁, rfl⟩)
              apply Yields.bind hrest
              rintro t ⟨⟨hm', hflat'⟩, hprint, k, hresult, hbytes⟩
              rw [put_put] at hm' hflat'
              rw [hflat₁] at hflat' hresult hbytes
              refine ⟨⟨hm', hflat'⟩, .next hnext hkept₁ hsupply hprint, toPageEnd a + k,
                .next hgrants hnext hsupply hvisits.grows hresult, ?_⟩
              rw [Flat.reads_add]
              exact congrArg _ hbytes

/-! ## Strings -/

theorem scan_spec (s : Kmem) (x n : ℕ) :
    ((s.scan x n).2 = true → ∃ k < n, (s.scan x n).1 = s.read x k ++ [0] ∧ s.bytes (x + k) = 0 ∧
      ∀ t < k, s.bytes (x + t) ≠ 0) ∧
    ((s.scan x n).2 = false → (s.scan x n).1 = s.read x n ∧ ∀ t < n, s.bytes (x + t) ≠ 0) := by
  induction n generalizing x with
  | zero =>
      exact ⟨fun h => absurd h Bool.false_ne_true, fun _ => ⟨rfl, fun t ht => absurd ht t.not_lt_zero⟩⟩
  | succ n ih =>
      obtain ⟨hfound, hnone⟩ := ih (x + 1)
      rw [Kmem.scan]
      by_cases hx : s.bytes x = 0
      · rw [if_pos hx]
        exact ⟨fun _ => ⟨0, n.succ_pos, rfl, hx, fun t ht => absurd ht t.not_lt_zero⟩,
          fun h => absurd h.symm Bool.false_ne_true⟩
      · rw [if_neg hx]
        have hcons : ∀ k, (∀ t < k, s.bytes (x + 1 + t) ≠ 0) → ∀ t < k + 1, s.bytes (x + t) ≠ 0 := by
          intro k hk t ht
          cases t with
          | zero => exact hx
          | succ t =>
              rw [Nat.add_comm t, ← Nat.add_assoc]
              exact hk t (Nat.lt_of_succ_lt_succ ht)
        refine ⟨fun h => ?_, fun h => ?_⟩
        · obtain ⟨k, hk, hbytes, hzero, hbefore⟩ := hfound h
          refine ⟨k + 1, Nat.succ_lt_succ hk, ?_, ?_, hcons k hbefore⟩
          · rw [Kmem.read, List.cons_append, ← hbytes]
          · rw [Nat.add_comm k, ← Nat.add_assoc]
            exact hzero
        · obtain ⟨hbytes, hbefore⟩ := hnone h
          refine ⟨?_, hcons n hbefore⟩
          rw [Kmem.read, ← hbytes]

theorem copyinstrLoop_zero (psz fuel : ℕ) (s : Kmem) (pt : PageTable) (a : ℕ) :
    copyinstrLoop psz fuel s pt a 0 = pure (s, pt, [], false) := by
  cases fuel with
  | zero => rfl
  | succ fuel => rfl

/-- `copyinstr` has met the null byte at the offset `k`. -/
structure GotString (F : UserMemory nproc) (i : Fin nproc) (a max k : ℕ) (dst : List UInt8) :
    Prop where
  lt : k < max
  dst_eq : dst = F.reads pgSize shmPage i a k ++ [0]
  null : F.read pgSize shmPage i (a + k) = 0
  nonzero : ∀ n < k, F.read pgSize shmPage i (a + n) ≠ 0
  granted : ∀ n ≤ k, Grants F i Perm.u (a + n)

/-- `copyinstr` has copied `k` bytes, none of them null, and then stopped: these are as many as
it was asked for, or the process may not use the next one, or memory is short. -/
structure NoString (F : UserMemory nproc) (supply : ℕ) (i : Fin nproc) (a max k : ℕ)
    (dst : List UInt8) : Prop where
  le : k ≤ max
  dst_eq : dst = F.reads pgSize shmPage i a k
  nonzero : ∀ n < k, F.read pgSize shmPage i (a + n) ≠ 0
  granted : ∀ n < k, Grants F i Perm.u (a + n)
  stopped : k = max ∨ ¬ Grants F i Perm.u (a + k) ∨ supply < 3 * pageSpan a max

/-- What `copyinstr` returns, and what it has written to `dst`. -/
structure StringResult (F : UserMemory nproc) (supply : ℕ) (i : Fin nproc) (a max : ℕ)
    (dst : List UInt8) (ok : Bool) : Prop where
  got : ok = true → ∃ k, GotString F i a max k dst
  none : ok = false → ∃ k, NoString F supply i a max k dst

section Strings

variable {F : UserMemory nproc} {supply : ℕ} {a max : ℕ} {dst : List UInt8}

theorem StringResult.fail (h : max = 0 ∨ ¬ Grants F i Perm.u a ∨ supply < 3) :
    StringResult F supply i a max [] false := by
  refine ⟨fun hok => absurd hok Bool.false_ne_true, fun _ => ⟨0, Nat.zero_le _, rfl,
    fun n hn => absurd hn n.not_lt_zero, fun n hn => absurd hn n.not_lt_zero, ?_⟩⟩
  rw [Nat.add_zero]
  by_cases hmax : max = 0
  · exact Or.inl hmax.symm
  · have hspan := pageSpan_pos (a := a) (Nat.pos_of_ne_zero hmax)
    exact Or.inr ((h.resolve_left hmax).imp_right fun hs => by omega)

theorem StringResult.next {supply' : ℕ} {ok : Bool} {line : List UInt8}
    (h : Grants F i Perm.u a) (hmax : toPageEnd a < max)
    (hline : line = F.reads pgSize shmPage i a (toPageEnd a))
    (hnonzero : ∀ n < toPageEnd a, F.read pgSize shmPage i (a + n) ≠ 0)
    (hsupply : supply ≤ supply' + 3)
    (hrest : StringResult F supply' i (a + toPageEnd a) (max - toPageEnd a) dst ok) :
    StringResult F supply i a max (line ++ dst) ok := by
  have hfirst : ∀ n < toPageEnd a, Grants F i Perm.u (a + n) :=
    fun n hn => (Grants.congr (div_of_lt_toPageEnd hn)).mpr h
  have hboth : ∀ (P : ℕ → Prop) (b : ℕ), (∀ n < toPageEnd a, P (a + n)) →
      (∀ n < b, P (a + toPageEnd a + n)) → ∀ n < toPageEnd a + b, P (a + n) := by
    intro P b hpage hafter n hn
    by_cases hlt : n < toPageEnd a
    · exact hpage n hlt
    · have hP := hafter (n - toPageEnd a) (by omega)
      rw [Nat.add_assoc, Nat.add_sub_cancel' (Nat.not_lt.mp hlt)] at hP
      exact hP
  constructor
  · intro hok
    obtain ⟨k, hlt, hdst, hnull, hnz, hgr⟩ := hrest.got hok
    refine ⟨toPageEnd a + k, by omega, ?_, ?_, hboth (fun c => F.read pgSize shmPage i c ≠ 0) k
      hnonzero hnz, fun n hn => ?_⟩
    · rw [Flat.reads_add, List.append_assoc, ← hline, hdst]
    · rw [← Nat.add_assoc]
      exact hnull
    · exact hboth (Grants F i Perm.u) (k + 1) hfirst (fun n hn => hgr n (Nat.lt_succ_iff.mp hn)) n
        (by omega)
  · intro hok
    obtain ⟨k, hle, hdst, hnz, hgr, hstop⟩ := hrest.none hok
    refine ⟨toPageEnd a + k, by omega, ?_, hboth (fun c => F.read pgSize shmPage i c ≠ 0) k hnonzero hnz,
      hboth (Grants F i Perm.u) k hfirst hgr, ?_⟩
    · rw [Flat.reads_add, ← hline, hdst]
    · rw [← Nat.add_assoc]
      refine hstop.imp (fun hk => by omega) (Or.imp_right fun hshort => ?_)
      rw [pageSpan_next hmax]
      omega

end Strings

/-- `copyinstr` reads the flat memory of the process up to the null byte, if it is there. -/
theorem copyinstrLoop_flat (fuel : ℕ) (m : Machine Kmem nproc) (p : Space) (a max : ℕ)
    (hfuel : max ≤ fuel) (hm : Private kernelEnd reserved g m) (hp : m.proc i = some p) :
    Yields (fun _ => False) (copyinstrLoop p.sz fuel m.mem p.pagetable a max) fun r =>
      (Private kernelEnd reserved g (m.put r.1 i (some { p with pagetable := r.2.1 })) ∧
        flat g (m.put r.1 i (some { p with pagetable := r.2.1 })) = flat g m) ∧
      Footprint reserved m.mem r.1 (pageSpan a max) r.2.2.2 ∧
      StringResult (flat g m) m.mem.supply i a max r.2.2.1 r.2.2.2 := by
  have hself : m.put m.mem i (some p) = m := put_self hp
  have hunchanged : Private kernelEnd reserved g (m.put m.mem i (some p)) ∧
      flat g (m.put m.mem i (some p)) = flat g m := by
    rw [hself]
    exact ⟨hm, rfl⟩
  induction fuel generalizing m p a max with
  | zero => exact ⟨hunchanged, .refl reserved m.mem _ _, .fail (Or.inl (Nat.le_zero.mp hfuel))⟩
  | succ fuel ih =>
      rw [copyinstrLoop]
      apply Yields.ite
      · intro hzero
        exact ⟨hunchanged, .refl reserved m.mem _ _, .fail (Or.inl hzero)⟩
      · intro hne
        have hlen : 0 < max := Nat.pos_of_ne_zero hne
        apply ((userPage_visits hm hp a).and (userPage_kept hm hp a)).bind
        rintro r ⟨⟨⟨hm₁, hflat₁⟩, hvisits⟩, hkept₁⟩
        cases hpa : r.2.2 with
        | none =>
            refine ⟨⟨hm₁, hflat₁⟩, .fail hkept₁ _, .fail (Or.inr ?_)⟩
            exact (hvisits.refused hpa).imp_right And.left
        | some pa =>
            obtain ⟨hgrants, hv, hleaf, hsupply⟩ := hvisits.found pa hpa
            have haddr : a / pgSize * pgSize + a % pgSize = a := Nat.div_add_mod' a pgSize
            have hmod : a % pgSize + toPageEnd a = pgSize :=
              Nat.add_sub_cancel' (Nat.mod_lt a (by decide)).le
            dsimp only
            rw [sub_round, round_add_pgSize, show pgSize - a % pgSize = toPageEnd a from rfl]
            have hbyte : ∀ t < toPageEnd a,
                r.1.bytes (pa + a % pgSize + t) = (flat g m).read pgSize shmPage i (a + t) := by
              intro t ht
              have hread := flat_read hm₁ (put_proc_self ..) hv hleaf (o := a % pgSize + t)
                (by omega)
              rw [← Nat.add_assoc, haddr, hflat₁] at hread
              rw [hread, Nat.add_assoc]
              rfl
            have hreads : ∀ n ≤ toPageEnd a,
                r.1.read (pa + a % pgSize) n = (flat g m).reads pgSize shmPage i a n := by
              intro n hn
              have hread := flat_reads hm₁ (put_proc_self ..) hv hleaf (o := a % pgSize) (n := n)
                (by omega)
              rw [haddr, hflat₁] at hread
              exact hread
            obtain ⟨hfound, hnone⟩ := scan_spec r.1 (pa + a % pgSize) (min (toPageEnd a) max)
            apply Yields.ite
            · intro hnull
              obtain ⟨k, hk, hdst, hzero, hbefore⟩ := hfound hnull
              refine ⟨⟨hm₁, hflat₁⟩, .last hlen hkept₁ hsupply true,
                fun _ => ⟨k, by omega, ?_, ?_, fun t ht => ?_, fun t ht => ?_⟩,
                fun h => absurd h.symm Bool.false_ne_true⟩
              · rw [← hreads k (by omega)]
                exact hdst
              · rw [← hbyte k (by omega)]
                exact hzero
              · rw [← hbyte t (by omega)]
                exact hbefore t ht
              · exact (Grants.congr (div_of_lt_toPageEnd (by omega))).mpr hgrants
            · intro hnull
              obtain ⟨hdst, hbefore⟩ := hnone (Bool.eq_false_of_not_eq_true hnull)
              by_cases hlast : max ≤ toPageEnd a
              · rw [min_eq_right hlast] at hdst hbefore ⊢
                rw [Nat.sub_self, copyinstrLoop_zero]
                refine ⟨⟨hm₁, hflat₁⟩, .fail hkept₁ _, fun h => absurd h Bool.false_ne_true, fun _ =>
                  ⟨max, le_rfl, ?_, fun t ht => ?_, fun t ht => ?_, Or.inl rfl⟩⟩
                · rw [← hreads max hlast]
                  exact (List.append_nil _).trans hdst
                · rw [← hbyte t (by omega)]
                  exact hbefore t ht
                · exact (Grants.congr (div_of_lt_toPageEnd (by omega))).mpr hgrants
              · have hnext := Nat.not_le.mp hlast
                rw [min_eq_left hnext.le] at hdst hbefore ⊢
                have hpos : 0 < toPageEnd a := Nat.sub_pos_of_lt (Nat.mod_lt a (by decide))
                have hself₁ : (m.put r.1 i (some { p with pagetable := r.2.1 })).put r.1 i
                    (some { p with pagetable := r.2.1 }) =
                    m.put r.1 i (some { p with pagetable := r.2.1 }) := put_put ..
                have hrest := ih _ _ (a + toPageEnd a) (max - toPageEnd a) (by omega) hm₁
                  (put_proc_self ..) hself₁ (by
                    rw [put_mem, hself₁]
                    exact ⟨hm₁, rfl⟩)
                apply Yields.bind hrest
                rintro t ⟨⟨hm', hflat'⟩, hprint, hresult⟩
                rw [put_put] at hm' hflat'
                rw [hflat₁] at hflat' hresult
                refine ⟨⟨hm', hflat'⟩, .next hnext hkept₁ hsupply hprint,
                  .next hgrants hnext ?_ (fun n hn => ?_) hsupply hresult⟩
                · rw [← hreads _ le_rfl]
                  exact hdst
                · rw [← hbyte n hn]
                  exact hbefore n hn

end Bytes

end Memory
