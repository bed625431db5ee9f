import Mathlib.Data.List.FinRange
import OsAssignments.Library.Interleaving
import OsAssignments.Library.RefPool
import OsAssignments.Library.Refinement

/-!
# File descriptors of the Assignment 4 kernel

The calls of sysfile.c on descriptors, and what `kfork` and `kexit` of proc.c do to the
descriptors of a process. Each process has a table `ofile` of its own, which only its own
calls write to, and the table of a new process is written by its parent. What the processes
share are the open files with their reference counts. These belong to file.c and pipe.c,
which are not part of the sources: `FileLayer` names the entry points that are called here.

A step ends where another process can notice: at each call of the file layer.
-/

namespace Descriptors

open Interleaving RefPool

/-- The file layer. `none` stands for a panic of `filedup` or `fileclose`, and for `0` or `-1`
of `filealloc` and `pipealloc`. -/
class FileLayer (σ φ : Type) where
  filealloc : σ → Option φ × σ
  filedup : φ → σ → Option σ
  fileclose : φ → σ → Option σ
  pipealloc : σ → Option (φ × φ) × σ
  /-- `f->ref` -/
  ref : σ → φ → ℕ

export FileLayer (filealloc filedup fileclose pipealloc ref)

/-- The counts are what they say: an allocated file had no references and has one, and only
a file without references makes `filedup` and `fileclose` panic. -/
class LawfulFileLayer (σ φ : Type) [FileLayer σ φ] [DecidableEq φ] : Prop where
  filealloc_some {s s' : σ} {f : φ} : filealloc s = (some f, s') →
    ref s f = 0 ∧ ref s' = ref s + one f
  filealloc_none {s s' : σ} : filealloc s = ((none : Option φ), s') →
    (ref s' : φ → ℕ) = ref s
  filedup_eq {s : σ} {f : φ} : 0 < ref s f → ∃ s', filedup f s = some s' ∧ ref s' = ref s + one f
  fileclose_eq {s : σ} {f : φ} : 0 < ref s f →
    ∃ s', fileclose f s = some s' ∧ ref s' + one f = ref s
  pipealloc_some {s s' : σ} {rf wf : φ} : pipealloc s = (some (rf, wf), s') →
    ref s rf = 0 ∧ ref s wf = 0 ∧ rf ≠ wf ∧ ref s' = ref s + one rf + one wf
  pipealloc_none {s s' : σ} : pipealloc s = ((none : Option (φ × φ)), s') →
    (ref s' : φ → ℕ) = ref s

/-- A system call: `dup`, `close`, one of `read`, `write` and `fstat`, `open`, `pipe`, `fork`,
`exit`, or the part of `wait` that frees the child `np`. `open` says whether it finds its
inode, and `fork` which slot it gets, if it gets one and memory for it. -/
inductive Call (ι : Type)
  | dup (fd : ℤ)
  | close (fd : ℤ)
  | use (fd : ℤ)
  | open (found : Bool)
  | pipe
  | fork (np : Option ι)
  | exit
  | wait (np : ι)
  deriving DecidableEq

/-- The point a process has reached. The points in a call name the next call of the file
layer, but for `pipeCopy`, the two calls of `copyout`, and `exitClear`, the store behind
`fileclose` in `kexit`. -/
inductive Pc (ι φ : Type) (nofile : ℕ)
  | unused
  | creating
  | zombie
  | user
  | use (f : φ)
  | close (f : φ)
  | dup (fd : Fin nofile) (f : φ)
  | openAlloc
  | openFd (f : φ)
  | openFail (f : φ)
  | pipeAlloc
  | pipeRead (rf wf : φ)
  | pipeWrite (fd0 : Fin nofile) (rf wf : φ)
  | pipeCopy (fd0 fd1 : Fin nofile) (rf wf : φ)
  | pipeFail (rf wf : φ)
  | pipeFailed (wf : φ)
  | fork (np : ι) (k : ℕ)
  | exit (k : ℕ)
  | exitClear (k : Fin nofile) (f : φ)
  deriving DecidableEq

/-- What a process has: its point, its table, and the value that its last call returned, but for
the numbers of processes that `fork` and `wait` return. -/
structure Local (ι φ : Type) (nofile : ℕ) where
  pc : Pc ι φ nofile
  ofile : Fin nofile → Option φ
  a0 : ℤ

section Code

variable {ι σ φ : Type} {nofile : ℕ}

namespace Local

/-- The call goes on at `c`. -/
def goto (l : Local ι φ nofile) (c : Pc ι φ nofile) : Local ι φ nofile := { l with pc := c }

/-- The call returns `r`. -/
def ret (l : Local ι φ nofile) (r : ℤ) : Local ι φ nofile := { l with pc := .user, a0 := r }

/-- The entry `fd` is `o`. -/
def set (l : Local ι φ nofile) (fd : Fin nofile) (o : Option φ) : Local ι φ nofile :=
  { l with ofile := Function.update l.ofile fd o }

end Local

/-- `argfd(n, &fd, &f)`. -/
def argfd (ofile : Fin nofile → Option φ) (n : ℤ) : Option (Fin nofile × φ) :=
  if h : n.toNat < nofile then
    if n < 0 then none else (ofile ⟨n.toNat, h⟩).map fun f => (⟨n.toNat, h⟩, f)
  else
    none

/-- The descriptor that `fdalloc(f)` finds. -/
def fdalloc (ofile : Fin nofile → Option φ) : Option (Fin nofile) :=
  (List.finRange nofile).find? fun fd => (ofile fd).isNone

section Tables

variable {ofile : Fin nofile → Option φ} {fd : Fin nofile} {f : φ}

theorem argfd_eq_some {n : ℤ} (h : argfd ofile n = some (fd, f)) : ofile fd = some f := by
  unfold argfd at h
  split_ifs at h with hlt hneg
  obtain ⟨g, hg, heq⟩ := Option.map_eq_some_iff.mp h
  cases heq
  exact hg

theorem fdalloc_eq_some (h : fdalloc ofile = some fd) : ofile fd = none :=
  Option.isNone_iff_eq_none.mp (List.find?_some (p := fun fd => (ofile fd).isNone) h)

end Tables

variable [FileLayer σ φ] [DecidableEq ι]

/-- The next step of a process that concerns no other one. `r` is what code outside of the
sources returns: `fileread` and its kind, and `copyout`. -/
def next (r : ℤ) (x : σ) (l : Local ι φ nofile) : Option (σ × Local ι φ nofile) :=
  match l.pc with
  | .use _ => some (x, l.ret r)
  | .close f => (fileclose f x).map fun x => (x, l.ret 0)
  | .dup fd f => (filedup f x).map fun x => (x, l.ret fd)
  | .openAlloc =>
      match (filealloc x : Option φ × σ) with
      | (none, x) => some (x, l.ret (-1))
      | (some f, x) => some (x, l.goto (.openFd f))
  | .openFd f =>
      match fdalloc l.ofile with
      | none => some (x, l.goto (.openFail f))
      | some fd => some (x, (l.set fd (some f)).ret fd)
  | .openFail f => (fileclose f x).map fun x => (x, l.ret (-1))
  | .pipeAlloc =>
      match (pipealloc x : Option (φ × φ) × σ) with
      | (none, x) => some (x, l.ret (-1))
      | (some (rf, wf), x) => some (x, l.goto (.pipeRead rf wf))
  | .pipeRead rf wf =>
      match fdalloc l.ofile with
      | none => some (x, l.goto (.pipeFail rf wf))
      | some fd0 => some (x, (l.set fd0 (some rf)).goto (.pipeWrite fd0 rf wf))
  | .pipeWrite fd0 rf wf =>
      match fdalloc l.ofile with
      | none => some (x, (l.set fd0 none).goto (.pipeFail rf wf))
      | some fd1 => some (x, (l.set fd1 (some wf)).goto (.pipeCopy fd0 fd1 rf wf))
  | .pipeCopy fd0 fd1 rf wf =>
      if r < 0 then
        some (x, ((l.set fd0 none).set fd1 none).goto (.pipeFail rf wf))
      else
        some (x, l.ret 0)
  | .pipeFail rf wf => (fileclose rf x).map fun x => (x, l.goto (.pipeFailed wf))
  | .pipeFailed wf => (fileclose wf x).map fun x => (x, l.ret (-1))
  | .exit k =>
      if h : k < nofile then
        match l.ofile ⟨k, h⟩ with
        | none => some (x, l.goto (.exit (k + 1)))
        | some f => (fileclose f x).map fun x => (x, l.goto (.exitClear ⟨k, h⟩ f))
      else
        some (x, l.goto .zombie)
  | .exitClear k _ => some (x, (l.set k none).goto (.exit (k + 1)))
  | .unused | .creating | .zombie | .user | .fork _ _ => none

abbrev Files (ι σ φ : Type) (nofile : ℕ) : Type := State ι σ (Local ι φ nofile)

/-- The loop of `kfork` at the entry `k`, and behind it the end of `kfork`, when the child
becomes `RUNNABLE`. -/
def forkNext (s : Files ι σ φ nofile) (i np : ι) (k : ℕ) : Option (Files ι σ φ nofile) :=
  let l := s.party i
  let c := s.party np
  if h : k < nofile then
    match l.ofile ⟨k, h⟩ with
    | none => some (s.move i s.shared (l.goto (.fork np (k + 1))))
    | some f => (filedup f s.shared).map fun x =>
        (s.move i x (l.goto (.fork np (k + 1)))).move np x (c.set ⟨k, h⟩ (some f))
  else
    some ((s.move i s.shared (l.goto .user)).move np s.shared (c.ret 0))

/-- What the process in slot `i`, which is in user mode, does first in a system call. -/
def enter (initproc : ι) (s : Files ι σ φ nofile) (i : ι) :
    Call ι → Option (Files ι σ φ nofile)
  | .dup n =>
      let l := s.party i
      match argfd l.ofile n with
      | none => some (s.move i s.shared (l.ret (-1)))
      | some (_, f) =>
          match fdalloc l.ofile with
          | none => some (s.move i s.shared (l.ret (-1)))
          | some fd => some (s.move i s.shared ((l.set fd (some f)).goto (.dup fd f)))
  | .close n =>
      let l := s.party i
      match argfd l.ofile n with
      | none => some (s.move i s.shared (l.ret (-1)))
      | some (fd, f) => some (s.move i s.shared ((l.set fd none).goto (.close f)))
  | .use n =>
      let l := s.party i
      match argfd l.ofile n with
      | none => some (s.move i s.shared (l.ret (-1)))
      | some (_, f) => some (s.move i s.shared (l.goto (.use f)))
  | .open found =>
      let l := s.party i
      some (s.move i s.shared (if found then l.goto .openAlloc else l.ret (-1)))
  | .pipe => some (s.move i s.shared ((s.party i).goto .pipeAlloc))
  | .fork none => some (s.move i s.shared ((s.party i).ret (-1)))
  | .fork (some np) =>
      match (s.party np).pc with
      | .unused => some ((s.move i s.shared ((s.party i).goto (.fork np 0))).move np s.shared
          ((s.party np).goto .creating))
      | _ => none
  | .exit => if i = initproc then none else some (s.move i s.shared ((s.party i).goto (.exit 0)))
  | .wait np =>
      match (s.party np).pc with
      | .zombie => some (s.move np s.shared ((s.party np).goto .unused))
      | _ => none

/-- What a process can do: begin a system call, or go on with it. -/
inductive Act (ι : Type)
  | call (i : ι) (c : Call ι)
  | next (i : ι) (r : ℤ)
  deriving DecidableEq

def step (initproc : ι) (s : Files ι σ φ nofile) : Act ι → Option (Files ι σ φ nofile)
  | .call i c =>
      match (s.party i).pc with
      | .user => enter initproc s i c
      | _ => none
  | .next i r =>
      match (s.party i).pc with
      | .fork np k => forkNext s i np k
      | _ => (next r s.shared (s.party i)).map fun y => s.move i y.1 y.2

/-- Any number of steps, by any processes, in any order. -/
abbrev Run (initproc : ι) (s : Files ι σ φ nofile) (acts : List (Act ι))
    (s' : Files ι σ φ nofile) : Prop :=
  Refinement.Run (fun s a s' => step initproc s a = some s') s acts s'

/-- Every slot is unused but that of the first process, and no file is open. -/
structure Boot (initproc : ι) (s : Files ι σ φ nofile) : Prop where
  closed : ∀ f : φ, ref s.shared f = 0
  empty : ∀ i fd, (s.party i).ofile fd = none
  pc : ∀ i, (s.party i).pc = if i = initproc then .user else .unused

end Code

/-! ## A table of files -/

/-- A file layer that has nothing but the counts of `nfile` files. -/
structure Ftable (nfile : ℕ) where
  count : Fin nfile → ℕ

namespace Ftable

variable {nfile : ℕ} {s s' : Ftable nfile} {f : Fin nfile}

def set (s : Ftable nfile) (f : Fin nfile) (n : ℕ) : Ftable nfile :=
  ⟨Function.update s.count f n⟩

def alloc (s : Ftable nfile) : Option (Fin nfile) × Ftable nfile :=
  match (List.finRange nfile).find? fun f => s.count f = 0 with
  | none => (none, s)
  | some f => (some f, s.set f 1)

def pipe (s : Ftable nfile) : Option (Fin nfile × Fin nfile) × Ftable nfile :=
  match s.alloc with
  | (none, _) => (none, s)
  | (some rf, s') =>
      match s'.alloc with
      | (none, _) => (none, s)
      | (some wf, s') => (some (rf, wf), s')

instance : FileLayer (Ftable nfile) (Fin nfile) where
  filealloc := alloc
  filedup f s := if s.count f < 1 then none else some (s.set f (s.count f + 1))
  fileclose f s := if s.count f < 1 then none else some (s.set f (s.count f - 1))
  pipealloc := pipe
  ref := count

theorem set_zero (h : s.count f = 0) : (s.set f 1).count = s.count + one f := by
  funext g
  rw [Pi.add_apply, one_apply]
  change Function.update s.count f 1 g = _
  by_cases hg : g = f
  · rw [hg, Function.update_self, h, if_pos rfl]
  · rw [Function.update_of_ne hg, if_neg hg, Nat.add_zero]

theorem alloc_some (h : s.alloc = (some f, s')) :
    s.count f = 0 ∧ s'.count = s.count + one f := by
  unfold alloc at h
  cases hfind : (List.finRange nfile).find? fun f => s.count f = 0 with
  | none =>
      rw [hfind] at h
      cases h
  | some g =>
      rw [hfind] at h
      cases h
      have hzero : s.count f = 0 :=
        of_decide_eq_true (List.find?_some (p := fun f => decide (s.count f = 0)) hfind)
      exact ⟨hzero, set_zero hzero⟩

theorem alloc_none (h : s.alloc = (none, s')) : s' = s := by
  unfold alloc at h
  cases hfind : (List.finRange nfile).find? fun f => s.count f = 0 with
  | none =>
      rw [hfind] at h
      cases h
      rfl
  | some g =>
      rw [hfind] at h
      cases h

theorem pipe_some {rf wf : Fin nfile} (h : s.pipe = (some (rf, wf), s')) :
    s.count rf = 0 ∧ s.count wf = 0 ∧ rf ≠ wf ∧ s'.count = s.count + one rf + one wf := by
  unfold pipe at h
  cases hfirst : s.alloc with
  | mk o t =>
      rw [hfirst] at h
      cases o with
      | none => cases h
      | some f =>
          dsimp only at h
          cases hsecond : t.alloc with
          | mk o u =>
              rw [hsecond] at h
              cases o with
              | none => cases h
              | some g =>
                  cases h
                  obtain ⟨hrf, hcount⟩ := alloc_some hfirst
                  obtain ⟨hwf, hcount'⟩ := alloc_some hsecond
                  rw [hcount, Pi.add_apply, one_apply] at hwf
                  have hne : wf ≠ rf := by
                    rintro rfl
                    rw [if_pos rfl] at hwf
                    omega
                  rw [if_neg hne, Nat.add_zero] at hwf
                  exact ⟨hrf, hwf, hne.symm, by rw [hcount', hcount]⟩

theorem pipe_none (h : s.pipe = (none, s')) : s' = s := by
  unfold pipe at h
  cases hfirst : s.alloc with
  | mk o t =>
      rw [hfirst] at h
      cases o with
      | none =>
          cases h
          rfl
      | some f =>
          dsimp only at h
          cases hsecond : t.alloc with
          | mk o u =>
              rw [hsecond] at h
              cases o with
              | none =>
                  cases h
                  rfl
              | some g => cases h

instance : LawfulFileLayer (Ftable nfile) (Fin nfile) where
  filealloc_some h := alloc_some h
  filealloc_none h := congrArg count (alloc_none h)
  filedup_eq {s f} h := by
    refine ⟨s.set f (s.count f + 1), if_neg (Nat.not_lt.mpr h), ?_⟩
    funext g
    rw [Pi.add_apply, one_apply]
    change Function.update s.count f _ g = s.count g + _
    by_cases hg : g = f
    · rw [hg, Function.update_self, if_pos rfl]
    · rw [Function.update_of_ne hg, if_neg hg, Nat.add_zero]
  fileclose_eq {s f} h := by
    refine ⟨s.set f (s.count f - 1), if_neg (Nat.not_lt.mpr h), ?_⟩
    funext g
    rw [Pi.add_apply, one_apply]
    change Function.update s.count f _ g + _ = s.count g
    by_cases hg : g = f
    · rw [hg, Function.update_self, if_pos rfl]
      exact Nat.sub_add_cancel h
    · rw [Function.update_of_ne hg, if_neg hg, Nat.add_zero]
  pipealloc_some h := pipe_some h
  pipealloc_none h := congrArg count (pipe_none h)

end Ftable

end Descriptors
