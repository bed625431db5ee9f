import Mathlib.Order.Fin.Basic
import OsAssignments.Memory.Vm

/-!
# Processes and their memory

The process table as far as memory goes: an `UNUSED` slot is `none`, and a slot in
use has its page table, its size, its trapframe page and whether it is a thread or
a `ZOMBIE`. The system calls and the faults that change memory are the functions
of `proc.c` and `sysproc.c` of the same names; `perform` runs one of them for the
process in a slot. What the source keeps in `struct proc` for other ends (the
parent, the channel, the open files, the name) is not part of this model, so
`reap` may be called for any zombie, in any order: it is what `kwait` and `kjoin`
do to memory.
-/

namespace Memory

open Outcome RefPool RadixTree

/-- The kernel's own pages that user page tables name: the trampoline code and
`shm_page_pa`. -/
structure Globals where
  trampoline : ℕ
  shmPagePa : ℕ

/-- The registers of a trapframe that `kfork` and `kclone` write. -/
structure Trapframe where
  epc : ℕ
  ra : ℕ
  sp : ℕ
  a0 : ℕ
  deriving DecidableEq

/-- The address space of a process or thread. -/
structure Space where
  pagetable : PageTable
  sz : ℕ
  trapframe : ℕ
  regs : Trapframe
  isThread : Bool
  zombie : Bool

/-- Physical memory and a process table with `nproc` slots (`NPROC`). -/
structure Machine (σ : Type) (nproc : ℕ) where
  mem : σ
  proc : Fin nproc → Option Space
  initproc : Fin nproc

/-- `PTE_R | PTE_X`. -/
def trampolinePerm : Perm := ⟨true, false, true, false, rfl⟩

/-- `PTE_R | PTE_W`. -/
def trapframePerm : Perm := ⟨true, true, false, false, rfl⟩

namespace Machine

variable {σ : Type} {nproc : ℕ}

def withMem (m : Machine σ nproc) (s : σ) : Machine σ nproc := { m with mem := s }

def put (m : Machine σ nproc) (s : σ) (i : Fin nproc) (o : Option Space) : Machine σ nproc :=
  { m with mem := s, proc := Function.update m.proc i o }

@[simp] theorem withMem_mem (m : Machine σ nproc) (s : σ) : (m.withMem s).mem = s := rfl

@[simp] theorem withMem_proc (m : Machine σ nproc) (s : σ) : (m.withMem s).proc = m.proc := rfl

@[simp] theorem put_mem (m : Machine σ nproc) (s : σ) (i : Fin nproc) (o : Option Space) :
    (m.put s i o).mem = s := rfl

@[simp] theorem put_proc_self (m : Machine σ nproc) (s : σ) (i : Fin nproc) (o : Option Space) :
    (m.put s i o).proc i = o := Function.update_self ..

@[simp] theorem put_proc_of_ne (m : Machine σ nproc) (s : σ) {i j : Fin nproc} (o : Option Space)
    (h : j ≠ i) : (m.put s i o).proc j = m.proc j := Function.update_of_ne h ..

end Machine

/-! ## proc.c and sysproc.c -/

section Code

variable {σ : Type} [PageAllocator σ] {nproc : ℕ} (kv : Kernel) (g : Globals)

/-- Remove the mapping at `SHM_VA` if there is one. -/
def unmapShm (s : σ) (pt : PageTable) : Except Panic (σ × PageTable) := do
  match ← walk pt shmVa with
  | some (some _) => uvmunmap g.shmPagePa s pt shmVa 1 false
  | _ => pure (s, pt)

/-- The first steps of `proc_freepagetable`, and of the thread's branch of `freeproc`:
the trampoline, the trapframe and the shared page are unmapped and not freed. -/
def unmapFixed (s : σ) (pt : PageTable) : Except Panic (σ × PageTable) := do
  let r ← uvmunmap g.shmPagePa s pt trampolineVa 1 false
  let r ← uvmunmap g.shmPagePa r.1 r.2 trapframeVa 1 false
  unmapShm g r.1 r.2

def procFreepagetable (s : σ) (pt : PageTable) (sz : ℕ) : Except Panic σ := do
  let r ← unmapFixed g s pt
  uvmfree kv g.shmPagePa r.1 r.2 sz

/-- The thread's branch of `freeproc`. -/
def threadFreepagetable (s : σ) (pt : PageTable) (sz : ℕ) : Except Panic σ := do
  let r ← unmapFixed g s pt
  let r ← uvmunmapSparse g.shmPagePa r.1 r.2 0 (pgRoundUp sz)
  freewalk 2 r.1 r.2.root r.2.table

/-- The memory that `freeproc` gives back. -/
def freeproc (s : σ) (trapframe : Option ℕ) (pagetable : Option PageTable) (sz : ℕ)
    (isThread : Bool) : Except Panic σ :=
  (match trapframe with
    | some pa => kfree pa s
    | none => pure s) >>= fun s =>
  match pagetable with
  | none => pure s
  | some pt => if isThread then threadFreepagetable g s pt sz else procFreepagetable kv g s pt sz

def procPagetable (s : σ) (trapframe : ℕ) : Except Panic (σ × Option PageTable) :=
  match uvmcreate s with
  | (none, s) => pure (s, none)
  | (some pt, s) => do
      let r ← mappages s pt trampolineVa pgSize g.trampoline trampolinePerm
      if r.2.2 = false then do
        let s ← uvmfree kv g.shmPagePa r.1 r.2.1 0
        pure (s, none)
      else do
        let r ← mappages r.1 r.2.1 trapframeVa pgSize trapframe trapframePerm
        if r.2.2 = false then do
          let r ← uvmunmap g.shmPagePa r.1 r.2.1 trampolineVa 1 false
          let s ← uvmfree kv g.shmPagePa r.1 r.2 0
          pure (s, none)
        else
          pure (r.1, some r.2.1)

/-- The memory that `allocproc` gets: the trapframe page and the page table. -/
def allocproc (s : σ) : Except Panic (σ × Option (ℕ × PageTable)) :=
  match kalloc s with
  | (none, s) => do
      let s ← freeproc kv g s none none 0 false
      pure (s, none)
  | (some trapframe, s) => do
      let r ← procPagetable kv g s trapframe
      match r.2 with
      | none => do
          let s ← freeproc kv g r.1 (some trapframe) none 0 false
          pure (s, none)
      | some pt => pure (r.1, some (trapframe, pt))

/-- The slot `allocproc` finds: the first `UNUSED` one. -/
def findUnused (m : Machine σ nproc) : Option (Fin nproc) :=
  (List.finRange nproc).find? fun i => (m.proc i).isNone

/-- `sz + n` in `uint64` arithmetic. -/
def addSz (sz : ℕ) (n : ℤ) : ℕ := (((sz : ℤ) + n) % 2 ^ 64).toNat

/-- `growproc(n)` by the process `p` in slot `i`; `false` stands for `-1`. -/
def growproc (m : Machine σ nproc) (i : Fin nproc) (p : Space) (n : ℤ) :
    Except Panic (Machine σ nproc × Bool) :=
  if n > 0 then
    if addSz p.sz n > trapframeVa then
      pure (m, false)
    else do
      let r ← uvmalloc kv g.shmPagePa m.mem p.pagetable p.sz (addSz p.sz n) (userPerm true false)
      if r.2.2 = 0 then
        pure (m.put r.1 i (some { p with pagetable := r.2.1 }), false)
      else
        pure (m.put r.1 i (some { p with pagetable := r.2.1, sz := r.2.2 }), true)
  else if n < 0 then do
    let r ← uvmdealloc kv g.shmPagePa m.mem p.pagetable p.sz (addSz p.sz n)
    pure (m.put r.1 i (some { p with pagetable := r.2.1, sz := r.2.2 }), true)
  else
    pure (m, true)

/-- `sys_sbrk()` with the arguments `n` and `lazy`; `none` stands for `-1`. -/
def sysSbrk (m : Machine σ nproc) (i : Fin nproc) (p : Space) (n : ℤ) (lazy : Bool) :
    Except Panic (Machine σ nproc × Option ℕ) :=
  if lazy = false ∨ n < 0 then do
    let r ← growproc kv g m i p n
    pure (r.1, if r.2 then some p.sz else none)
  else if addSz p.sz n < p.sz ∨ addSz p.sz n > trapframeVa then
    pure (m, none)
  else
    pure (m.put m.mem i (some { p with sz := addSz p.sz n }), some p.sz)

/-- Map the shared page in a forked child whose parent has a page at `SHM_VA`. The
result of `mappages` is ignored. -/
def forkShm (s : σ) (parent child : PageTable) : Except Panic (σ × PageTable) := do
  match ← walk parent shmVa with
  | some (some _) => do
      let r ← mappages s child shmVa pgSize g.shmPagePa (userPerm true false)
      pure (r.1, r.2.1)
  | _ => pure (s, child)

/-- `kfork()` by the process `p`; the slot of the child, or `none` for `-1`. -/
def kfork (m : Machine σ nproc) (p : Space) : Except Panic (Machine σ nproc × Option (Fin nproc)) :=
  match findUnused m with
  | none => pure (m, none)
  | some j => do
      let r ← allocproc kv g m.mem
      match r.2 with
      | none => pure (m.withMem r.1, none)
      | some np => do
          let c ← uvmcopy kv g.shmPagePa r.1 p.pagetable np.2 p.sz
          if c.2.2 = false then do
            let s ← freeproc kv g c.1 (some np.1) (some c.2.1) 0 false
            pure (m.withMem s, none)
          else do
            let f ← forkShm g c.1 p.pagetable c.2.1
            pure (m.put f.1 j (some ⟨f.2, p.sz, np.1, { p.regs with a0 := 0 }, false, false⟩), some j)

/-- `pte = walk(pagetable, va, 0)`, and the test that it has the bit `bit`. -/
def hasBit (pt : PageTable) (va : ℕ) (bit : Perm → Bool) : Except Panic Bool := do
  match ← walk pt va with
  | some (some pte) => pure (bit pte.perm)
  | _ => pure false

/-- The tests of `kclone` on its arguments. -/
def kcloneArgs (p : Space) (fcn stack returnaddr : ℕ) : Except Panic Bool :=
  if fcn ≥ p.sz ∨ stack = 0 ∨ stack > p.sz then
    pure false
  else do
    let a ← walkaddr p.pagetable fcn
    if a = none then
      pure false
    else do
      let a ← walkaddr p.pagetable (stack - 1)
      if a = none then
        pure false
      else do
        let x ← hasBit p.pagetable fcn Perm.x
        if x = false then
          pure false
        else do
          let w ← hasBit p.pagetable (stack - 1) Perm.w
          if w = false then
            pure false
          else
            hasBit p.pagetable returnaddr Perm.x

/-- Map the page at `SHM_VA` of the creator in its new thread; `false` for failure. -/
def cloneShm (s : σ) (parent child : PageTable) : Except Panic (σ × PageTable × Bool) := do
  match ← walk parent shmVa with
  | some (some pte) => mappages s child shmVa pgSize pte.pa pte.perm
  | _ => pure (s, child, true)

/-- `kclone(fcn, arg, stack, returnaddr)` by the process `p`; the slot of the thread,
or `none` for `-1`. -/
def kclone (m : Machine σ nproc) (p : Space) (fcn arg stack returnaddr : ℕ) :
    Except Panic (Machine σ nproc × Option (Fin nproc)) := do
  let args ← kcloneArgs p fcn stack returnaddr
  if args = false then
    pure (m, none)
  else
    match findUnused m with
    | none => pure (m, none)
    | some j => do
        let r ← allocproc kv g m.mem
        match r.2 with
        | none => pure (m.withMem r.1, none)
        | some np => do
            let c ← uvmshare g.shmPagePa r.1 p.pagetable np.2 p.sz
            if c.2.2 = false then do
              let s ← freeproc kv g c.1 (some np.1) (some c.2.1) p.sz true
              pure (m.withMem s, none)
            else do
              let f ← cloneShm c.1 p.pagetable c.2.1
              if f.2.2 = false then do
                let s ← freeproc kv g f.1 (some np.1) (some f.2.1) p.sz true
                pure (m.withMem s, none)
              else
                pure (m.put f.1 j (some ⟨f.2.1, p.sz, np.1,
                  ⟨fcn, returnaddr, stack / 16 * 16, arg⟩, true, false⟩), some j)

/-- `sys_shm_get()`; `none` stands for `0`. -/
def sysShmGet (m : Machine σ nproc) (i : Fin nproc) (p : Space) :
    Except Panic (Machine σ nproc × Option ℕ) := do
  match ← walk p.pagetable shmVa with
  | some (some _) => pure (m, some shmVa)
  | _ => do
      let r ← mappages m.mem p.pagetable shmVa pgSize g.shmPagePa (userPerm true false)
      pure (m.put r.1 i (some { p with pagetable := r.2.1 }), if r.2.2 then some shmVa else none)

/-- `vmfault` for the process `p` in slot `i`. -/
def pageFault (m : Machine σ nproc) (i : Fin nproc) (p : Space) (va : ℕ) :
    Except Panic (Machine σ nproc) := do
  let r ← vmfault m.mem p.pagetable p.sz va
  pure (m.put r.1 i (some { p with pagetable := r.2.1 }))

/-- What `kexit` changes here: the process becomes a `ZOMBIE`. -/
def kexit (m : Machine σ nproc) (i : Fin nproc) (p : Space) : Except Panic (Machine σ nproc) :=
  if i = m.initproc then
    throw .initExiting
  else
    pure (m.put m.mem i (some { p with zombie := true }))

/-- `freeproc` of the zombie `p` in slot `i`, by `kwait` or `kjoin`. -/
def reap (m : Machine σ nproc) (i : Fin nproc) (p : Space) : Except Panic (Machine σ nproc) := do
  let s ← freeproc kv g m.mem (some p.trapframe) (some p.pagetable) p.sz p.isThread
  pure (m.put s i none)

/-- What a process in slot `i` can do to memory. -/
inductive Action (nproc : ℕ)
  | sbrk (i : Fin nproc) (n : ℤ) (lazy : Bool)
  | fault (i : Fin nproc) (va : ℕ)
  | fork (i : Fin nproc)
  | clone (i : Fin nproc) (fcn arg stack returnaddr : ℕ)
  | shmGet (i : Fin nproc)
  | exit (i : Fin nproc)
  | reap (i : Fin nproc)

def Action.slot : Action nproc → Fin nproc
  | .sbrk i _ _ => i
  | .fault i _ => i
  | .fork i => i
  | .clone i _ _ _ _ => i
  | .shmGet i => i
  | .exit i => i
  | .reap i => i

/-- An action of the process `p`, which is not a zombie. The Assignment 4 kernel has no
`clone`. -/
def performLive (m : Machine σ nproc) (p : Space) :
    Action nproc → Except Panic (Machine σ nproc)
  | .sbrk i n lazy => Prod.fst <$> sysSbrk kv g m i p n lazy
  | .fault i va => pageFault m i p va
  | .fork _ => Prod.fst <$> kfork kv g m p
  | .clone _ fcn arg stack returnaddr =>
      match kv with
      | .assignment4 => pure m
      | .assignment7 => Prod.fst <$> kclone kv g m p fcn arg stack returnaddr
  | .shmGet i => Prod.fst <$> sysShmGet g m i p
  | .exit i => kexit m i p
  | .reap _ => pure m

/-- What can happen to the zombie `p`: it is reaped. -/
def performZombie (m : Machine σ nproc) (p : Space) :
    Action nproc → Except Panic (Machine σ nproc)
  | .reap i => reap kv g m i p
  | _ => pure m

/-- One action. The actions of an unused slot and those of a zombie change nothing,
and only a zombie is reaped. -/
def perform (m : Machine σ nproc) (a : Action nproc) : Except Panic (Machine σ nproc) :=
  match m.proc a.slot with
  | none => pure m
  | some p => if p.zombie then performZombie kv g m p a else performLive kv g m p a

variable {kv g} {m : Machine σ nproc} {a : Action nproc} {p : Space}

theorem perform_unused (hp : m.proc a.slot = none) : perform kv g m a = pure m := by
  rw [perform, hp]

theorem perform_live (hp : m.proc a.slot = some p) (hz : p.zombie = false) :
    perform kv g m a = performLive kv g m p a := by
  rw [perform, hp]
  dsimp only
  rw [hz, if_neg (by decide)]

theorem perform_zombie (hp : m.proc a.slot = some p) (hz : p.zombie = true) :
    perform kv g m a = performZombie kv g m p a := by
  rw [perform, hp]
  dsimp only
  rw [hz, if_pos rfl]

end Code

end Memory
