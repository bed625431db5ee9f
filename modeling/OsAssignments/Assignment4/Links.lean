import OsAssignments.Assignment4.Directories
import OsAssignments.Library.Interleaving
import OsAssignments.Library.Refinement

/-!
# Links to inodes in the Assignment 4 kernel

`sys_link`, `sys_unlink` and `create` of sysfile.c, and what they read and write of the inodes:
the type, the number of links, and the content of a directory. Every step is a section in which
the process waits for one lock at most, so that nobody sees a part of it. `sys_unlink` locks two
inodes one after the other: it waits for the second one while it has the first, and unlocks the
first one before it counts down the links of the second.

Of fs.c, which is not part of the sources, `namei`, `nameiparent` and `ialloc` are left to the
environment: which inode a path leads to, and which free inode is taken. An inode that nobody
refers to any more and that has no links is freed by the last `iput`, which is a step of its own.
-/

namespace Links

open Interleaving

/-- `T_DIR`, `T_FILE` and `T_DEVICE`. -/
inductive InodeType
  | dir
  | file
  | device
  deriving DecidableEq

/-- An inode, which is free if it has no type, with the content of a directory. -/
structure Inode (δ : Type) where
  type : Option InodeType
  nlink : ℕ
  data : δ
  deriving DecidableEq

/-- The point a process has reached, with the inodes that it refers to. -/
inductive Pc (ν φ : Type)
  | user
  | linkNode (ip : φ)
  | linkParent (ip : φ)
  | linkEntry (ip dp : φ) (name : Name ν)
  | linkBad (ip : φ)
  | unlinkIn (dp : φ) (name : Name ν)
  | unlinkNode (ip dp : φ) (off : ℕ)
  | unlinked (ip : φ)
  | createIn (dp : φ) (name : Name ν) (type : InodeType)
  | createFound (ip : φ) (type : InodeType)
  deriving DecidableEq

/-- What the last call has returned: the value of a system call, or the inode of `create`. -/
inductive Ret (φ : Type)
  | value (r : ℤ)
  | inode (o : Option φ)
  deriving DecidableEq

structure Local (ν φ : Type) where
  pc : Pc ν φ
  ret : Ret φ
  deriving DecidableEq

/-- The inodes, their locks, and the processes. -/
structure Fs (ι δ ν φ : Type) where
  inode : φ → Inode δ
  lock : φ → Option ι
  party : ι → Local ν φ

/-- What the environment decides in a section: the directory and the name that
`nameiparent(new)` returns, whether the entry can be written in a directory of the same device,
or what `ialloc` returns and which of the entries `.`, `..` and `name` can be written. -/
inductive Outcome (ν φ : Type)
  | parent (o : Option (φ × Name ν))
  | room (ok : Bool)
  | made (ip : Option φ) (dot dotdot entry : Bool)

/-- A system call begins, with what `namei(old)` or `nameiparent(path)` returns; a process goes
on with its call; or the last `iput` frees an inode. -/
inductive Act (ι ν φ : Type)
  | link (i : ι) (old : Option φ)
  | unlink (i : ι) (parent : Option (φ × Name ν))
  | create (i : ι) (parent : Option (φ × Name ν)) (type : InodeType)
  | next (i : ι) (o : Outcome ν φ)
  | free (x : φ)

section Code

variable {ι δ ν φ : Type}

namespace Inode

def setNlink (node : Inode δ) (n : ℕ) : Inode δ := { node with nlink := n }

def setData (node : Inode δ) (d : δ) : Inode δ := { node with data := d }

@[simp] theorem setNlink_type (node : Inode δ) (n : ℕ) : (node.setNlink n).type = node.type :=
  rfl

@[simp] theorem setNlink_nlink (node : Inode δ) (n : ℕ) : (node.setNlink n).nlink = n := rfl

@[simp] theorem setNlink_data (node : Inode δ) (n : ℕ) : (node.setNlink n).data = node.data := rfl

end Inode

namespace Pc

def Refers (x : φ) : Pc ν φ → Prop
  | .user => False
  | .linkNode ip | .linkParent ip | .linkBad ip | .unlinked ip | .createFound ip _ => ip = x
  | .linkEntry ip dp _ | .unlinkNode ip dp _ => ip = x ∨ dp = x
  | .unlinkIn dp _ | .createIn dp _ _ => dp = x

instance [DecidableEq φ] (x : φ) (c : Pc ν φ) : Decidable (c.Refers x) :=
  match c with
  | .user => inferInstanceAs (Decidable False)
  | .linkNode _ | .linkParent _ | .linkBad _ | .unlinked _ | .createFound _ _ =>
      inferInstanceAs (Decidable (_ = _))
  | .linkEntry _ _ _ | .unlinkNode _ _ _ => inferInstanceAs (Decidable (_ ∨ _))
  | .unlinkIn _ _ | .createIn _ _ _ => inferInstanceAs (Decidable (_ = _))

def locks : Pc ν φ → Option φ
  | .unlinkNode _ dp _ => some dp
  | .unlinked ip => some ip
  | _ => none

def wants : Pc ν φ → Option φ
  | .linkNode ip | .linkBad ip | .unlinkNode ip _ _ | .createFound ip _ => some ip
  | .linkEntry _ dp _ | .unlinkIn dp _ | .createIn dp _ _ => some dp
  | .user | .linkParent _ | .unlinked _ => none

end Pc

variable [DecidableEq ι] [DecidableEq φ]

namespace Fs

def setInode (s : Fs ι δ ν φ) (x : φ) (node : Inode δ) : Fs ι δ ν φ :=
  { s with inode := Function.update s.inode x node }

def setLock (s : Fs ι δ ν φ) (x : φ) (o : Option ι) : Fs ι δ ν φ :=
  { s with lock := Function.update s.lock x o }

def goto (s : Fs ι δ ν φ) (i : ι) (c : Pc ν φ) : Fs ι δ ν φ :=
  { s with party := Function.update s.party i { s.party i with pc := c } }

/-- The call of `i` returns `r`. -/
def ret (s : Fs ι δ ν φ) (i : ι) (r : Ret φ) : Fs ι δ ν φ :=
  { s with party := Function.update s.party i ⟨.user, r⟩ }

end Fs

variable [DirLayer δ ν φ]

def Inode.zero : Inode δ := ⟨none, 0, DirLayer.empty⟩

def isdirempty (d : δ) : Bool :=
  (List.range' 2 (DirLayer.size d - 2)).all fun off => (readi d off).isNone

/-- The new inode `x` of `create`, with `.` and `..` if it is a directory, or as far as they
could be written. -/
def newInode (x dp : φ) (type : InodeType) (dot dotdot : Bool) : Inode δ × Bool :=
  let node : Inode δ := ⟨some type, 1, DirLayer.empty⟩
  if type = .dir then
    match dirlink node.data .dot x dot with
    | none => (node, false)
    | some d =>
        match dirlink d .dotdot dp dotdot with
        | none => (node.setData d, false)
        | some d => (node.setData d, true)
  else
    (node, true)

/-- `create` from `ialloc` on: `x` is the inode that `ialloc` returns. -/
def createNode (s : Fs ι δ ν φ) (i : ι) (x dp : φ) (name : Name ν) (type : InodeType)
    (dot dotdot entry : Bool) : Fs ι δ ν φ :=
  let r := newInode x dp type dot dotdot
  let parent := s.inode dp
  let fail := (s.setInode x (r.1.setNlink 0)).ret i (.inode none)
  if r.2 then
    match dirlink parent.data name x entry with
    | none => fail
    | some d =>
        let parent := parent.setData d
        let parent := if type = .dir then parent.setNlink (parent.nlink + 1) else parent
        ((s.setInode x r.1).setInode dp parent).ret i (.inode (some x))
  else
    fail

/-- The directory of `sys_unlink` without the entry for `ip`: it has one link less if that is a
directory. -/
def unlinkParent (s : Fs ι δ ν φ) (ip dp : φ) (off : ℕ) : Inode δ :=
  let parent := (s.inode dp).setData (writei (s.inode dp).data off)
  if (s.inode ip).type = some .dir then parent.setNlink (parent.nlink - 1) else parent

/-- The next section of the call of process `i`. `none` stands for a wait for a lock, and for a
`panic`. -/
def next (nlinkMax : ℕ) (s : Fs ι δ ν φ) (i : ι) (o : Outcome ν φ) : Option (Fs ι δ ν φ) :=
  match (s.party i).pc, o with
  | .linkNode ip, _ =>
      let node := s.inode ip
      if s.lock ip ≠ none then
        none
      else if node.type = some .dir ∨ node.nlink ≥ nlinkMax then
        some (s.ret i (.value (-1)))
      else
        some ((s.setInode ip (node.setNlink (node.nlink + 1))).goto i (.linkParent ip))
  | .linkParent ip, .parent none => some (s.goto i (.linkBad ip))
  | .linkParent ip, .parent (some (dp, name)) =>
      -- `nameiparent` returns a directory
      if (s.inode dp).type = some .dir then some (s.goto i (.linkEntry ip dp name)) else none
  | .linkEntry ip dp name, .room ok =>
      let node := s.inode dp
      if s.lock dp ≠ none then
        none
      else if node.nlink = 0 then
        some (s.goto i (.linkBad ip))
      else
        match dirlink node.data name ip ok with
        | none => some (s.goto i (.linkBad ip))
        | some d => some ((s.setInode dp (node.setData d)).ret i (.value 0))
  | .linkBad ip, _ =>
      let node := s.inode ip
      if s.lock ip ≠ none then
        none
      else
        some ((s.setInode ip (node.setNlink (node.nlink - 1))).ret i (.value (-1)))
  | .unlinkIn dp (.other n), _ =>
      if s.lock dp ≠ none then
        none
      else
        match dirlookup (s.inode dp).data (.other n) with
        | none => some (s.ret i (.value (-1)))
        | some (ip, off) => some ((s.setLock dp (some i)).goto i (.unlinkNode ip dp off))
  | .unlinkIn dp _, _ => if s.lock dp ≠ none then none else some (s.ret i (.value (-1)))
  | .unlinkNode ip dp off, _ =>
      let node := s.inode ip
      if s.lock ip ≠ none ∨ node.nlink < 1 then
        none
      else if node.type = some .dir ∧ isdirempty node.data = false then
        some ((s.setLock dp none).ret i (.value (-1)))
      else
        some ((((s.setInode dp (unlinkParent s ip dp off)).setLock dp none).setLock ip
          (some i)).goto i (.unlinked ip))
  | .unlinked ip, _ =>
      let node := s.inode ip
      some (((s.setInode ip (node.setNlink (node.nlink - 1))).setLock ip none).ret i
        (.value 0))
  | .createIn dp name type, .made ip dot dotdot entry =>
      let parent := s.inode dp
      if s.lock dp ≠ none then
        none
      else if parent.nlink = 0 ∨ type = .dir ∧ parent.nlink ≥ nlinkMax then
        some (s.ret i (.inode none))
      else
        match dirlookup parent.data name with
        | some (ip, _) => some (s.goto i (.createFound ip type))
        | none =>
            match ip with
            | none => some (s.ret i (.inode none))
            | some x =>
                -- `ialloc` returns an inode that was free
                if (s.inode x).type = none then
                  some (createNode s i x dp name type dot dotdot entry)
                else
                  none
  | .createFound ip type, _ =>
      let node := s.inode ip
      if s.lock ip ≠ none then
        none
      else if type = .file ∧ (node.type = some .file ∨ node.type = some .device) then
        some (s.ret i (.inode (some ip)))
      else
        some (s.ret i (.inode none))
  | _, _ => none

variable [DecidableEq ν]

/-- The beginning of a call by process `i` that has found an inode, or has not. -/
def enter (s : Fs ι δ ν φ) (i : ι) (c : Option (Pc ν φ)) (r : Ret φ) : Option (Fs ι δ ν φ) :=
  if (s.party i).pc = .user then
    match c with
    | none => some (s.ret i r)
    | some c => some (s.goto i c)
  else
    none

/-- One step. A path leads to an inode that is not free, and to a directory where
`nameiparent` is called. -/
def step [Fintype ι] (nlinkMax : ℕ) (s : Fs ι δ ν φ) : Act ι ν φ → Option (Fs ι δ ν φ)
  | .link i none => enter s i none (.value (-1))
  | .link i (some ip) =>
      if (s.inode ip).type ≠ none then enter s i (some (.linkNode ip)) (.value 0) else none
  | .unlink i none => enter s i none (.value (-1))
  | .unlink i (some (dp, name)) =>
      if (s.inode dp).type = some .dir then
        enter s i (some (.unlinkIn dp name)) (.value 0)
      else
        none
  | .create i none _ => enter s i none (.inode none)
  | .create i (some (dp, name)) type =>
      if (s.inode dp).type = some .dir then
        enter s i (some (.createIn dp name type)) (.value 0)
      else
        none
  | .next i o => next nlinkMax s i o
  | .free x =>
      if (s.inode x).nlink = 0 ∧ s.lock x = none ∧ ∀ i, ¬ (s.party i).pc.Refers x then
        some (s.setInode x .zero)
      else
        none

/-- Any number of steps, by any processes, in any order. -/
abbrev Run [Fintype ι] (nlinkMax : ℕ) (s : Fs ι δ ν φ) (acts : List (Act ι ν φ))
    (s' : Fs ι δ ν φ) : Prop :=
  Refinement.Run (fun s a s' => step nlinkMax s a = some s') s acts s'

end Code

end Links
