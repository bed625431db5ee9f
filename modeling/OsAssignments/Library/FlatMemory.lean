import Mathlib.Data.List.Basic
import Mathlib.Logic.Function.Basic

/-!
# Flat memories with a shared window

Each of the processes `ι` has a memory of its own, which is addressed from zero in pages of
`page` addresses, and one page of addresses, numbered `window`, at which all who have attached
it see the same bytes. A page has a mode, which says what may be done to it; a page that
nobody has touched has the mode `fresh`, and its bytes are `zero`.

A byte lives in a `Cell`, and `cellOf` says in which one a process finds an address. Two
addresses of one process are two cells, so that what is written is read back, and nothing
else has changed; the addresses of two processes are two cells outside of the window.
-/

namespace FlatMemory

/-- Where a byte lives: at an address of a process's own memory, or in the window. -/
inductive Cell (ι : Type*)
  | own (i : ι) (a : ℕ)
  | shared (k : ℕ)
  deriving DecidableEq

/-- The memories of the processes `ι`; a process that does not exist has no size. -/
@[ext] structure Flat (ι μ β : Type*) where
  size : ι → Option ℕ
  attached : ι → Bool
  mode : ι → ℕ → μ
  content : Cell ι → β

variable {ι μ β : Type*} {page window : ℕ} {i j : ι} {a c : ℕ}

/-- The cell that the process `i` finds at the address `a`. -/
def cellOf (page window : ℕ) (i : ι) (a : ℕ) : Cell ι :=
  if a / page = window then .shared (a % page) else .own i a

theorem cellOf_injective {a' : ℕ} (h : cellOf page window i a = cellOf page window i a') :
    a = a' := by
  unfold cellOf at h
  split_ifs at h with ha ha'
  · injection h with hmod
    rw [← Nat.div_add_mod a page, ← Nat.div_add_mod a' page, ha, ha', hmod]
  · injection h

theorem cellOf_ne (hij : j ≠ i) (hc : c / page ≠ window) :
    cellOf page window j c ≠ cellOf page window i a := by
  intro h
  unfold cellOf at h
  rw [if_neg hc] at h
  split_ifs at h
  · injection h with hj _
    exact hij hj

namespace Flat

variable (page window)

/-- The number of pages below the size `sz`. -/
def pages (sz : ℕ) : ℕ := (sz + page - 1) / page

/-- The address belongs to a page of the process `i`, or the process has attached the
window and the address lies in it. -/
def Accessible (F : Flat ι μ β) (i : ι) (a : ℕ) : Prop :=
  ∃ sz, F.size i = some sz ∧
    (a / page < pages page sz ∧ a / page ≠ window ∨ a / page = window ∧ F.attached i = true)

/-! ## Reading and writing -/

def read (F : Flat ι μ β) (i : ι) (a : ℕ) : β := F.content (cellOf page window i a)

/-- The `n` bytes from the address `a` on. -/
def reads (F : Flat ι μ β) (i : ι) : ℕ → ℕ → List β
  | _, 0 => []
  | a, n + 1 => F.read page window i a :: reads F i (a + 1) n

variable {page window} {F : Flat ι μ β} {n : ℕ}

@[simp] theorem length_reads : (F.reads page window i a n).length = n := by
  induction n generalizing a with
  | zero => rfl
  | succ n ih => rw [reads, List.length_cons, ih]

theorem reads_add (m n : ℕ) : F.reads page window i a (m + n) =
    F.reads page window i a m ++ F.reads page window i (a + m) n := by
  induction m generalizing a with
  | zero => rw [Nat.zero_add, Nat.add_zero, reads, List.nil_append]
  | succ m ih =>
      rw [Nat.add_right_comm, reads, reads, ih, List.cons_append, Nat.add_right_comm,
        ← Nat.add_assoc]

theorem getElem_reads {k : ℕ} (hk : k < (F.reads page window i a n).length) :
    (F.reads page window i a n)[k] = F.read page window i (a + k) := by
  induction n generalizing a k with
  | zero => exact absurd hk (Nat.not_lt_zero k)
  | succ n ih =>
      cases k with
      | zero => rfl
      | succ k =>
          have hk' := hk
          rw [reads, List.length_cons] at hk'
          have hrest := ih (a := a + 1) (Nat.lt_of_succ_lt_succ hk')
          rw [Nat.add_assoc, Nat.add_comm 1] at hrest
          exact hrest

variable (page window) [DecidableEq ι]

def write (F : Flat ι μ β) (i : ι) (a : ℕ) (b : β) : Flat ι μ β :=
  { F with content := Function.update F.content (cellOf page window i a) b }

/-- The bytes `bs` are written from the address `a` on. -/
def writes (F : Flat ι μ β) (i : ι) : ℕ → List β → Flat ι μ β
  | _, [] => F
  | a, b :: bs => writes (F.write page window i a b) i (a + 1) bs

/-! ## Processes come, change and go -/

/-- The pages of `i` that are not kept are fresh. -/
def clear (fresh : μ) (zero : β) (keep : ℕ → Prop) [DecidablePred keep] (F : Flat ι μ β)
    (i : ι) : Flat ι μ β :=
  { F with
    mode := Function.update F.mode i fun v => if keep v then F.mode i v else fresh
    content := fun x => match x with
      | .own k a => if k = i ∧ ¬ keep (a / page) then zero else F.content (.own k a)
      | .shared k => F.content (.shared k) }

/-- The size of `i` is `sz` from now on, and its pages above that are gone. -/
def resize (fresh : μ) (zero : β) (F : Flat ι μ β) (i : ι) (sz : ℕ) : Flat ι μ β :=
  let F := F.clear page fresh zero (fun v => v < pages page sz ∨ v = window) i
  { F with size := Function.update F.size i (some sz) }

/-- The process `i` is gone, with all its pages. -/
def remove (fresh : μ) (zero : β) (F : Flat ι μ β) (i : ι) : Flat ι μ β :=
  let F := F.clear page fresh zero (fun _ => False) i
  { F with
    size := Function.update F.size i none
    attached := Function.update F.attached i false }

/-- The process `i` sees the window, which is fresh for it. -/
def attach (fresh : μ) (F : Flat ι μ β) (i : ι) : Flat ι μ β :=
  { F with
    attached := Function.update F.attached i true
    mode := Function.update F.mode i (Function.update (F.mode i) window fresh) }

/-- The process `j` is a copy of `i`; it sees the window if `i` does. -/
def fork (fresh : μ) (F : Flat ι μ β) (i j : ι) : Flat ι μ β where
  size := Function.update F.size j (F.size i)
  attached := Function.update F.attached j (F.attached i)
  mode := Function.update F.mode j (Function.update (F.mode i) window fresh)
  content
    | .own k a => F.content (.own (if k = j then i else k) a)
    | .shared k => F.content (.shared k)

variable {page window} {b : β} {bs cs : List β}

@[simp] theorem resize_size {fresh : μ} {zero : β} {sz : ℕ} :
    (F.resize page window fresh zero i sz).size = Function.update F.size i (some sz) := rfl

@[simp] theorem resize_attached {fresh : μ} {zero : β} {sz : ℕ} :
    (F.resize page window fresh zero i sz).attached = F.attached := rfl

@[simp] theorem write_size : (F.write page window i a b).size = F.size := rfl

@[simp] theorem write_attached : (F.write page window i a b).attached = F.attached := rfl

@[simp] theorem write_mode : (F.write page window i a b).mode = F.mode := rfl

@[simp] theorem writes_nil : F.writes page window i a [] = F := rfl

theorem writes_cons : F.writes page window i a (b :: bs) =
    (F.write page window i a b).writes page window i (a + 1) bs := rfl

@[simp] theorem writes_size : (F.writes page window i a bs).size = F.size := by
  induction bs generalizing F a with
  | nil => rfl
  | cons b bs ih => rw [writes_cons, ih, write_size]

@[simp] theorem writes_attached : (F.writes page window i a bs).attached = F.attached := by
  induction bs generalizing F a with
  | nil => rfl
  | cons b bs ih => rw [writes_cons, ih, write_attached]

@[simp] theorem writes_mode : (F.writes page window i a bs).mode = F.mode := by
  induction bs generalizing F a with
  | nil => rfl
  | cons b bs ih => rw [writes_cons, ih, write_mode]

theorem accessible_writes :
    (F.writes page window i a bs).Accessible page window j c ↔ F.Accessible page window j c := by
  unfold Accessible
  rw [writes_size, writes_attached]

theorem resize_mode_self {fresh : μ} {zero : β} {sz v : ℕ} :
    (F.resize page window fresh zero i sz).mode i v =
      if v < pages page sz ∨ v = window then F.mode i v else fresh := by
  unfold resize clear
  dsimp only
  rw [Function.update_self]

theorem resize_mode_of_ne {fresh : μ} {zero : β} {sz : ℕ} (h : j ≠ i) :
    (F.resize page window fresh zero i sz).mode j = F.mode j := Function.update_of_ne h ..

theorem resize_content_own {fresh : μ} {zero : β} {sz : ℕ} :
    (F.resize page window fresh zero i sz).content (.own j a) =
      if j = i ∧ ¬ (a / page < pages page sz ∨ a / page = window) then zero
      else F.content (.own j a) := rfl

section Rules

variable {fresh : μ} {zero : β}

theorem attach_size : (F.attach window fresh i).size = F.size := rfl

theorem attach_attached :
    (F.attach window fresh i).attached = Function.update F.attached i true := rfl

theorem attach_mode : (F.attach window fresh i).mode =
    Function.update F.mode i (Function.update (F.mode i) window fresh) := rfl

theorem fork_size : (F.fork window fresh i j).size = Function.update F.size j (F.size i) := rfl

theorem fork_attached :
    (F.fork window fresh i j).attached = Function.update F.attached j (F.attached i) := rfl

theorem fork_mode : (F.fork window fresh i j).mode =
    Function.update F.mode j (Function.update (F.mode i) window fresh) := rfl

theorem fork_own {k : ι} : (F.fork window fresh i j).content (.own k a) =
    F.content (.own (if k = j then i else k) a) := rfl

theorem remove_size : (F.remove page fresh zero i).size = Function.update F.size i none := rfl

theorem remove_attached :
    (F.remove page fresh zero i).attached = Function.update F.attached i false := rfl

theorem remove_mode :
    (F.remove page fresh zero i).mode = Function.update F.mode i fun _ => fresh := by
  unfold remove clear
  simp only [if_false]

theorem remove_own {k : ι} : (F.remove page fresh zero i).content (.own k a) =
    if k = i then zero else F.content (.own k a) := by
  unfold remove clear
  dsimp only
  exact if_congr (and_iff_left not_false) rfl rfl

end Rules

theorem writes_append : F.writes page window i a (bs ++ cs) =
    (F.writes page window i a bs).writes page window i (a + bs.length) cs := by
  induction bs generalizing F a with
  | nil => rfl
  | cons b bs ih =>
      rw [List.cons_append, writes_cons, ih, writes_cons, List.length_cons, Nat.add_assoc,
        Nat.add_comm 1]

theorem content_writes_of_ne {x : Cell ι} (hx : ∀ k < bs.length, x ≠ cellOf page window i (a + k)) :
    (F.writes page window i a bs).content x = F.content x := by
  induction bs generalizing F a with
  | nil => rfl
  | cons b bs ih =>
      rw [writes_cons, ih]
      · exact Function.update_of_ne (hx 0 (Nat.zero_lt_succ _)) ..
      · intro k hk
        rw [Nat.add_assoc, Nat.add_comm 1]
        exact hx (k + 1) (Nat.succ_lt_succ hk)

theorem read_writes_of_outside (h : c < a ∨ a + bs.length ≤ c) :
    (F.writes page window i a bs).read page window i c = F.read page window i c := by
  refine content_writes_of_ne fun k hk heq => ?_
  have := cellOf_injective heq
  omega

theorem read_writes {k : ℕ} (hk : k < bs.length) :
    (F.writes page window i a bs).read page window i (a + k) = bs[k] := by
  induction bs generalizing F a k with
  | nil => exact absurd hk (Nat.not_lt_zero k)
  | cons b bs ih =>
      cases k with
      | zero =>
          rw [Nat.add_zero, writes_cons, read_writes_of_outside (Or.inl (Nat.lt_succ_self a))]
          exact Function.update_self ..
      | succ k =>
          have hrest := ih (F := F.write page window i a b) (a := a + 1)
            (Nat.lt_of_succ_lt_succ hk)
          rw [Nat.add_assoc, Nat.add_comm 1] at hrest
          exact hrest

theorem read_writes_of_other (hij : j ≠ i) (hc : c / page ≠ window) :
    (F.writes page window i a bs).read page window j c = F.read page window j c :=
  content_writes_of_ne fun _ _ => cellOf_ne hij hc

theorem reads_writes :
    (F.writes page window i a bs).reads page window i a bs.length = bs := by
  apply List.ext_getElem length_reads
  intro k hk hk'
  rw [getElem_reads hk, read_writes hk']

end Flat

end FlatMemory
