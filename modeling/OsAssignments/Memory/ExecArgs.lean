import OsAssignments.Memory.UserMemory

/-!
# The arguments of exec

`sys_exec` of `sysfile.c`. It copies the path and then one argument string after another, each
to a page of its own, until it meets the null pointer, has `kexec` do the work, and gives the
pages back. Whatever the program passes to it and wherever memory runs out, `kexec` gets just the
strings that user memory holds, and none of the pages is lost.
-/

namespace Memory

open Outcome RefPool RadixTree Machine Kmem FlatMemory Refinement

/-! ## sysfile.c -/

/-- What the loop of `sys_exec` comes to: the memory, the page table, `argv` as far as it has
been set, and whether the null pointer has been met. -/
structure Fetched where
  mem : Kmem
  pagetable : PageTable
  argv : List ℕ
  ok : Bool

section Pages

variable {nproc : ℕ} {g : Globals} {m m' : Machine Kmem nproc} {i : Fin nproc} {p : Space}
  {kernelEnd : ℕ} {reserved reserved' : ℕ → ℕ} {pa q : ℕ} {s : Kmem}

theorem Kmem.balanced_reserve {user owned : ℕ → ℕ} :
    Kmem.Balanced kernelEnd reserved s user (owned + one pa) ↔
      Kmem.Balanced kernelEnd (reserved + one pa) s user owned := by
  unfold Kmem.Balanced
  rw [add_right_comm, add_assoc]

theorem reserved_one_pos (reserved : ℕ → ℕ) (pa : ℕ) : 0 < (reserved + one pa) pa := by
  rw [Pi.add_apply, one_apply, if_pos rfl]
  exact Nat.succ_pos _

theorem Private.kalloc (hm : Private kernelEnd reserved g m)
    (hk : kalloc m.mem = (some pa, s)) :
    Private kernelEnd (reserved + one pa) g (m.withMem s) ∧
      flat g (m.withMem s) = flat g m ∧ ∀ q, 0 < reserved q → SameBytes m.mem q s q := by
  obtain ⟨htaken, _, _⟩ := (Taken.refl m.mem).kalloc hm.sound hk
  have hR := Kmem.balanced_reserve.mp (hm.inv.books.kalloc_some hm.kernBase_le hk)
  obtain ⟨hm', hflat⟩ := flat_withMem hm hR (Nat.add_pos_left hm.shm_reserved _) htaken.cycles
  exact ⟨hm', hflat, fun q hq => hm.kept hm' htaken.cycles hq (Nat.add_pos_left hq _)⟩

theorem Private.kalloc_none (hm : Private kernelEnd reserved g m)
    (hk : Memory.kalloc m.mem = (none, s)) :
    Private kernelEnd reserved g (m.withMem s) ∧ flat g (m.withMem s) = flat g m ∧
      ∀ q, 0 < reserved q → SameBytes m.mem q s q := by
  have hcycles : Cycles m.mem s := (Taken.of_kalloc_none hk).cycles
  obtain ⟨hm', hflat⟩ := flat_withMem hm (hm.inv.books.kalloc_none hk) hm.shm_reserved hcycles
  exact ⟨hm', hflat, fun q hq => hm.kept hm' hcycles hq hq⟩

theorem Private.kfree (hm : Private kernelEnd (reserved + one pa) g m)
    (hshm : 0 < reserved g.shmPagePa) :
    Yields (fun _ => False) (Memory.kfree pa m.mem) fun s =>
      Private kernelEnd reserved g (m.withMem s) ∧ flat g (m.withMem s) = flat g m := by
  obtain ⟨s, hs, hR⟩ := (Kmem.balanced_reserve.mpr hm.inv.books).share.kfree hm.kernBase_le
  have hs : Memory.kfree pa m.mem = .ok s := kfree_eq_ok hs
  have hfrees : Frees m.mem s := (frees_kfree pa m.mem).of_eq_ok hs
  exact yields_of_eq_ok hs (flat_withMem hm hR hshm hfrees.cycles)

theorem write_bytes_of_outside (s : Kmem) (bs : List UInt8) {x y : ℕ}
    (h : y < x ∨ x + bs.length ≤ y) : (s.write x bs).bytes y = s.bytes y := by
  induction bs generalizing s x with
  | nil => rfl
  | cons b bs ih =>
      rw [List.length_cons] at h
      rw [Kmem.write, ih _ (by omega)]
      exact setByte_of_ne b s (by omega)

theorem write_bytes (s : Kmem) (x : ℕ) {bs : List UInt8} {k : ℕ} {b : UInt8}
    (h : bs[k]? = some b) : (s.write x bs).bytes (x + k) = b := by
  induction bs generalizing s x k with
  | nil => cases h
  | cons c bs ih =>
      rw [Kmem.write]
      cases k with
      | zero =>
          cases h
          rw [write_bytes_of_outside _ _ (by omega)]
          exact setByte_self x _ s
      | succ k =>
          rw [← Nat.add_assoc, Nat.add_right_comm]
          exact ih _ _ h

theorem write_books {user owned : ℕ → ℕ} (x : ℕ) (bs : List UInt8)
    (h : Kmem.Balanced kernelEnd reserved s user owned) :
    Kmem.Balanced kernelEnd reserved (s.write x bs) user owned := by
  induction bs generalizing s x with
  | nil => exact h
  | cons b bs ih => exact ih (x + 1) h

theorem page_apart {pb o n : ℕ} (ha : pa % pgSize = 0) (hb : pb % pgSize = 0) (hne : pb ≠ pa)
    (ho : o < pgSize) (hn : n ≤ pgSize) : pb + o < pa ∨ pa + n ≤ pb + o := by
  unfold pgSize at ha hb ho hn
  omega

theorem Private.write (hm : Private kernelEnd reserved g m) (hpa : 0 < reserved pa)
    (hne : g.shmPagePa ≠ pa) {bs : List UInt8} (hlen : bs.length ≤ pgSize) :
    Private kernelEnd reserved g (m.withMem (m.mem.write pa bs)) ∧
      flat g (m.withMem (m.mem.write pa bs)) = flat g m := by
  obtain ⟨haligned, _, huser, _⟩ := hm.reserved_page hpa
  refine ⟨{ hm with inv := hm.inv.withMem (write_books pa bs hm.inv.books) }, ?_⟩
  ext1
  · rfl
  · rfl
  · rfl
  · funext x
    cases x with
    | shared k =>
        rw [flat_shared, flat_shared]
        split_ifs with hk
        · exact write_bytes_of_outside _ _ (page_apart haligned hm.shm.1 hne hk hlen)
        · rfl
    | own j a =>
        rw [flat_own, flat_own]
        change cell (m.mem.write pa bs) (userLeaf (m.proc j)) a = _
        cases he : userLeaf (m.proc j) (a / pgSize) with
        | none => rw [cell_of_none he, cell_of_none he]
        | some e =>
            rw [cell_of_some he, cell_of_some he]
            have hother : e.pa ≠ pa := by
              rintro rfl
              obtain ⟨hv, p, hp, hleaf⟩ := userLeaf_eq_some.mp he
              have hpos := user_pos hp hv hleaf
              omega
            exact write_bytes_of_outside _ _
              (page_apart haligned (hm.page he).1 hother (Nat.mod_lt a (by decide)) hlen)

end Pages

/-! ## The argument vector -/

section Args

variable {nproc : ℕ} {g : Globals} {m : Machine Kmem nproc} {i : Fin nproc} {p : Space}
  {kernelEnd : ℕ} {reserved : ℕ → ℕ} {F : UserMemory nproc} {s s' : Kmem} {pa : ℕ}
  {buf : List UInt8}

/-- The process may read the pointer at the address `a`, and it is `n`. -/
structure Pointer (F : UserMemory nproc) (i : Fin nproc) (a n : ℕ) : Prop where
  below : ∃ sz, F.size i = some sz ∧ a + 8 ≤ sz
  granted : ∀ k < 8, Grants F i Perm.u (a + k)
  value : n = uint64Of (F.reads pgSize shmPage i a 8)

/-- From its entry `k` on, the argument vector at `uargv` points to the strings `bufs`, each of
them with its null byte, and then there is the null pointer. -/
def Argv (F : UserMemory nproc) (i : Fin nproc) (uargv : ℕ) : ℕ → List (List UInt8) → Prop
  | k, [] => Pointer F i ((uargv + 8 * k) % 2 ^ 64) 0
  | k, buf :: bufs => ∃ n, n ≠ 0 ∧ Pointer F i ((uargv + 8 * k) % 2 ^ 64) n ∧
      (∃ len, GotString F i n pgSize len buf) ∧ Argv F i uargv (k + 1) bufs

/-- The page at `pa` starts with the bytes `buf`. -/
def Holds (s : Kmem) (pa : ℕ) (buf : List UInt8) : Prop :=
  ∀ k b, buf[k]? = some b → s.bytes (pa + k) = b

theorem Holds.write (s : Kmem) (pa : ℕ) (buf : List UInt8) : Holds (s.write pa buf) pa buf :=
  fun _ _ hb => write_bytes s pa hb

theorem Holds.kept (h : Holds s pa buf) (hlen : buf.length ≤ pgSize)
    (hkept : SameBytes s pa s' pa) : Holds s' pa buf := fun k b hb =>
  (hkept k ((List.getElem?_eq_some_iff.mp hb).1.trans_le hlen)).trans (h k b hb)

theorem GotString.length_eq {a max k : ℕ} (h : GotString F i a max k buf) :
    buf.length = k + 1 := by
  rw [h.dst_eq, List.length_append, Flat.length_reads, List.length_singleton]

theorem NoString.length_le {supply a max k : ℕ} {dst : List UInt8}
    (h : NoString F supply i a max k dst) : dst.length ≤ max := by
  rw [h.dst_eq, Flat.length_reads]
  exact h.le

theorem Argv.pointer {uargv k n : ℕ} {bufs : List (List UInt8)} (h : Argv F i uargv k bufs)
    (hn : Pointer F i ((uargv + 8 * k) % 2 ^ 64) n) (hne : n ≠ 0) :
    ∃ buf rest, bufs = buf :: rest ∧ (∃ len, GotString F i n pgSize len buf) ∧
      Argv F i uargv (k + 1) rest := by
  cases bufs with
  | nil => exact absurd (hn.value.trans (Pointer.value h).symm) hne
  | cons buf rest =>
      obtain ⟨n', _, hn', hgot, hrest⟩ := h
      have heq : n' = n := hn'.value.trans hn.value.symm
      exact ⟨buf, rest, rfl, heq ▸ hgot, hrest⟩

/-- How many pages `argv` names at an address. -/
def argvUses (argv : List ℕ) (q : ℕ) : ℕ := argv.count q

theorem argvUses_cons (argv : List ℕ) :
    reserved + argvUses (pa :: argv) = reserved + one pa + argvUses argv := by
  funext q
  have hone : one pa q = if pa = q then 1 else 0 := by
    rw [one_apply]
    exact if_congr eq_comm rfl rfl
  rw [Pi.add_apply, Pi.add_apply, Pi.add_apply, argvUses, List.count_cons, hone]
  simp only [beq_iff_eq]
  unfold argvUses
  omega

/-- What the loop of `sys_exec` comes to: `argv` has pages of the kernel's own; if it has met
the null pointer they hold the strings of the vector, and if not, there is no vector that is short
enough, or memory has run out. -/
structure FetchedArgs (kernelEnd : ℕ) (reserved : ℕ → ℕ) (g : Globals) (m : Machine Kmem nproc)
    (i : Fin nproc) (p : Space) (uargv n k : ℕ) (r : Fetched) : Prop where
  isPrivate : Private kernelEnd (reserved + argvUses r.argv) g
    (m.put r.mem i (some { p with pagetable := r.pagetable }))
  flat_eq : flat g (m.put r.mem i (some { p with pagetable := r.pagetable })) = flat g m
  kept : ∀ q, 0 < reserved q → SameBytes m.mem q r.mem q
  vector : r.ok = true → ∃ bufs, bufs.length < n ∧ Argv (flat g m) i uargv k bufs ∧
    List.Forall₂ (Holds r.mem) r.argv bufs
  none : r.ok = false → (∀ bufs, bufs.length < n → ¬ Argv (flat g m) i uargv k bufs) ∨
    m.mem.supply < 13 * n

/-- One entry of `argv`: the string at `uarg` is in the page `pa`, or there is none, or memory
has run out. -/
structure FetchedArg (kernelEnd : ℕ) (reserved : ℕ → ℕ) (g : Globals) (m : Machine Kmem nproc)
    (i : Fin nproc) (uarg pa : ℕ) (s : Kmem) (q : Space) (buf : List UInt8) (x : Option ℕ) :
    Prop where
  isPrivate : Private kernelEnd (reserved + one pa) g (m.put s i (some q))
  flat_eq : flat g (m.put s i (some q)) = flat g m
  kept : ∀ pb, 0 < reserved pb → SameBytes m.mem pb s pb
  holds : Holds s pa buf
  length_le : buf.length ≤ pgSize
  got : ∀ len, x = some len → GotString (flat g m) i uarg pgSize len buf
  supply_le : x.isSome = true → m.mem.supply ≤ s.supply + 7
  none : x = none →
    (∀ len bs, ¬ GotString (flat g m) i uarg pgSize len bs) ∨ m.mem.supply < 7

section Rounds

variable {uargv n k uarg : ℕ} {s₁ : Kmem} {pt pt₁ : PageTable} {r : Fetched}

theorem FetchedArgs.stop {argv : List ℕ}
    (hm : Private kernelEnd (reserved + argvUses argv) g
      (m.put s i (some { p with pagetable := pt })))
    (hflat : flat g (m.put s i (some { p with pagetable := pt })) = flat g m)
    (hkept : ∀ pb, 0 < reserved pb → SameBytes m.mem pb s pb)
    (hnone : (∀ bufs, bufs.length < n → ¬ Argv (flat g m) i uargv k bufs) ∨
      m.mem.supply < 13 * n) :
    FetchedArgs kernelEnd reserved g m i p uargv n k ⟨s, pt, argv, false⟩ where
  isPrivate := hm
  flat_eq := hflat
  kept := hkept
  vector hok := absurd hok Bool.false_ne_true
  none _ := hnone

theorem FetchedArgs.cons {x : ℕ}
    (hflat₁ : flat g (m.put s₁ i (some { p with pagetable := pt₁ })) = flat g m)
    (hkept₁ : ∀ pb, 0 < reserved pb → SameBytes m.mem pb s₁ pb)
    (hsupply₁ : m.mem.supply ≤ s₁.supply + 6)
    (hpointer : Pointer (flat g m) i ((uargv + 8 * k) % 2 ^ 64) uarg) (hne : uarg ≠ 0)
    (h : FetchedArg kernelEnd reserved g (m.put s₁ i (some { p with pagetable := pt₁ })) i uarg pa
      s { p with pagetable := pt } buf (some x))
    (hr : FetchedArgs kernelEnd (reserved + one pa) g
      (m.put s i (some { p with pagetable := pt })) i { p with pagetable := pt } uargv n (k + 1)
      r) :
    FetchedArgs kernelEnd reserved g m i p uargv (n + 1) k { r with argv := pa :: r.argv } := by
  obtain ⟨_, hflat, hkept, hholds, hlen, hgot, hsupply, _⟩ := h
  rw [put_put, hflat₁] at hflat
  rw [hflat₁] at hgot
  obtain ⟨hprivate, hflat', hkept', hvector, hnone⟩ := hr
  rw [put_put] at hprivate hflat'
  rw [hflat] at hflat' hvector hnone
  refine ⟨?_, hflat', fun pb hpb => ?_, fun hok => ?_, fun hok => ?_⟩
  · rw [argvUses_cons]
    exact hprivate
  · exact ((hkept₁ pb hpb).trans (hkept pb hpb)).trans (hkept' pb (Nat.add_pos_left hpb _))
  · obtain ⟨bufs, hlt, hargv, hforall⟩ := hvector hok
    exact ⟨buf :: bufs, Nat.succ_lt_succ hlt, ⟨uarg, hne, hpointer, ⟨x, hgot x rfl⟩, hargv⟩,
      .cons (hholds.kept hlen (hkept' pa (reserved_one_pos reserved pa)))
        hforall⟩
  · refine (hnone hok).imp (fun hno bufs hlt hargv => ?_) fun hshort => ?_
    · obtain ⟨_, rest, rfl, _, hrest⟩ := hargv.pointer hpointer hne
      exact hno rest (Nat.lt_of_succ_lt_succ hlt) hrest
    · have hle := hsupply rfl
      change s₁.supply ≤ _ at hle
      change s.supply < _ at hshort
      omega

end Rounds

end Args

/-! ## sys_exec -/

section Exec

variable {nproc : ℕ} {kv : Kernel} {g : Globals} {m m₀ : Machine Kmem nproc} {i : Fin nproc}
  {p : Space} {kernelEnd : ℕ} {reserved : ℕ → ℕ} {kernelPages : Finset ℕ}
  {events : List (Event nproc)}
  {kexec : Kmem → Space → List UInt8 → List ℕ → Except Panic (Kmem × Space × ℤ)}

/-- `kexec` leaves the pages of the kernel alone, takes pages for the address space of the process
only, and may stop with a panic. -/
def KeepsPages (kernelEnd : ℕ) (g : Globals) (i : Fin nproc)
    (kexec : Kmem → Space → List UInt8 → List ℕ → Except Panic (Kmem × Space × ℤ)) : Prop :=
  ∀ (m : Machine Kmem nproc) (reserved : ℕ → ℕ) (s : Kmem) (q : Space) (buf : List UInt8)
    (argv : List ℕ), Private kernelEnd reserved g (m.put s i (some q)) →
    Yields (fun _ => True) (kexec s q buf argv) fun e =>
      Private kernelEnd reserved g (m.put e.1 i (some e.2.1))

end Exec

end Memory
