import Mathlib.Data.Fintype.BigOperators
import OsAssignments.Assignment4.Descriptors

/-!
# Open files are counted exactly

In every run, by any number of processes that open, duplicate, close and pass on descriptors,
fork and exit, with every failure on the way, the count of an open file is the number of the
references that the processes hold. A call in progress may hold one more than there are
entries in the table, or one less. So no file is closed while somebody can still use it, none
stays open when nobody can, and `filedup` and `fileclose` never find a file without
references.
-/

namespace Descriptors

open Interleaving RefPool

section Tables

variable {ι φ : Type} {nofile : ℕ} [DecidableEq φ] {t : Fin nofile → Option φ} {f : φ}

def entries (t : Fin nofile → Option φ) : φ → ℕ := ∑ fd, tally (t fd)

theorem entries_update (t : Fin nofile → Option φ) (fd : Fin nofile) (o : Option φ) :
    entries (Function.update t fd o) + tally (t fd) = entries t + tally o := by
  have hsum := sum_add_eq_of_agree (f := fun fd => tally (t fd))
    (g := fun c => tally (Function.update t fd o c)) (Finset.mem_univ fd)
    fun c _ hc => congrArg tally (Function.update_of_ne hc ..)
  rw [Function.update_self] at hsum
  exact hsum

theorem entries_insert {fd : Fin nofile} (h : t fd = none) (f : φ) :
    entries (Function.update t fd (some f)) = entries t + one f := by
  have hsum := entries_update t fd (some f)
  rw [h, tally_none, add_zero] at hsum
  exact hsum

theorem entries_clear {fd : Fin nofile} (h : t fd = some f) :
    entries (Function.update t fd none) + one f = entries t := by
  have hsum := entries_update t fd none
  rw [h, tally_none, add_zero] at hsum
  exact hsum

theorem entries_empty (h : ∀ fd, t fd = none) : entries t = 0 :=
  Finset.sum_eq_zero fun fd _ => by rw [h fd, tally_none]

theorem entries_apply (t : Fin nofile → Option φ) (f : φ) :
    entries t f = (Finset.univ.filter fun fd => t fd = some f).card := by
  rw [entries, Finset.sum_apply, Finset.card_filter]
  refine Finset.sum_congr rfl fun fd _ => ?_
  cases ht : t fd with
  | none => rfl
  | some g =>
      rw [tally_some, one_apply]
      exact if_congr (by rw [Option.some_inj, eq_comm]) rfl rfl

theorem entries_pos {fd : Fin nofile} (h : t fd = some f) : 0 < entries t f := by
  rw [entries_apply]
  exact Finset.card_pos.mpr ⟨fd, Finset.mem_filter.mpr ⟨Finset.mem_univ fd, h⟩⟩

/-! ## One process -/

namespace Local

/-- The references that a process holds: those of its table, but for the entry that `dup` has
written already and `kexit` has not cleared yet, and those of the call in progress. -/
def holds (l : Local ι φ nofile) : φ → ℕ :=
  match l.pc with
  | .dup fd _ => entries (Function.update l.ofile fd none)
  | .exitClear k _ => entries (Function.update l.ofile k none)
  | .close f | .openFd f | .openFail f | .pipeFailed f => entries l.ofile + one f
  | .pipeRead rf wf | .pipeFail rf wf => entries l.ofile + one rf + one wf
  | .pipeWrite _ _ wf => entries l.ofile + one wf
  | _ => entries l.ofile

theorem holds_of_user {l : Local ι φ nofile} (h : l.pc = .user) : l.holds = entries l.ofile := by
  unfold holds
  rw [h]

def Fine (l : Local ι φ nofile) : Prop :=
  match l.pc with
  | .unused | .zombie => ∀ fd, l.ofile fd = none
  | .use f => ∃ fd, l.ofile fd = some f
  | .dup fd f => l.ofile fd = some f ∧ ∃ c, c ≠ fd ∧ l.ofile c = some f
  | .pipeWrite fd0 rf _ => l.ofile fd0 = some rf
  | .pipeCopy fd0 fd1 rf wf => fd1 ≠ fd0 ∧ l.ofile fd0 = some rf ∧ l.ofile fd1 = some wf
  | .exit k => ∀ fd : Fin nofile, fd < k → l.ofile fd = none
  | .exitClear k f => l.ofile k = some f ∧ ∀ fd < k, l.ofile fd = none
  | _ => True

def InCall (l : Local ι φ nofile) : Prop :=
  match l.pc with
  | .unused | .creating | .zombie | .user => False
  | _ => True

/-- The process has no part in a `fork`. -/
def Single (l : Local ι φ nofile) : Prop :=
  match l.pc with
  | .creating | .fork _ _ => False
  | _ => True

/-- The process is in a call, and in no `fork`. -/
def Busy (l : Local ι φ nofile) : Prop :=
  match l.pc with
  | .unused | .creating | .zombie | .user | .fork _ _ => False
  | _ => True

end Local

variable {σ : Type} [FileLayer σ φ] {x : σ} {l : Local ι φ nofile}

/-- A process goes on with its call: its references and the counts change alike. -/
structure Moved (x : σ) (l : Local ι φ nofile) (y : σ × Local ι φ nofile) : Prop where
  refs : ref y.1 + l.holds = ref x + y.2.holds
  fine : y.2.Fine
  single : y.2.Single

/-- The call that the process is in does not panic at its next step, and keeps its accounts. -/
def GoesOn (r : ℤ) (x : σ) (l : Local ι φ nofile) : Prop :=
  ∃ y, next r x l = some y ∧ Moved x l y

variable {r a0 : ℤ} {fd : Fin nofile} {rf wf : φ}

theorem goesOn_openFd : GoesOn r x (⟨.openFd f, t, a0⟩ : Local ι φ nofile) := by
  unfold GoesOn next
  dsimp only
  cases hfd : fdalloc t with
  | none => exact ⟨_, rfl, rfl, trivial, trivial⟩
  | some fd =>
      refine ⟨_, rfl, ?_, trivial, trivial⟩
      exact congrArg (ref x + ·) (entries_insert (fdalloc_eq_some hfd) f).symm

theorem goesOn_pipeRead : GoesOn r x (⟨.pipeRead rf wf, t, a0⟩ : Local ι φ nofile) := by
  unfold GoesOn next
  dsimp only
  cases hfd : fdalloc t with
  | none => exact ⟨_, rfl, rfl, trivial, trivial⟩
  | some fd =>
      refine ⟨_, rfl, ?_, Function.update_self .., trivial⟩
      change ref x + (entries t + one rf + one wf) =
        ref x + (entries (Function.update t fd (some rf)) + one wf)
      rw [entries_insert (fdalloc_eq_some hfd)]

theorem goesOn_pipeWrite {fd0 : Fin nofile} (hfd0 : t fd0 = some rf) :
    GoesOn r x (⟨.pipeWrite fd0 rf wf, t, a0⟩ : Local ι φ nofile) := by
  unfold GoesOn next
  dsimp only
  cases hfd : fdalloc t with
  | none =>
      refine ⟨_, rfl, ?_, trivial, trivial⟩
      change ref x + (entries t + one wf) =
        ref x + (entries (Function.update t fd0 none) + one rf + one wf)
      rw [entries_clear hfd0]
  | some fd1 =>
      have hnone := fdalloc_eq_some hfd
      have hne : fd1 ≠ fd0 := by
        rintro rfl
        rw [hnone] at hfd0
        cases hfd0
      refine ⟨_, rfl, ?_, ⟨hne, ?_, Function.update_self ..⟩, trivial⟩
      · exact congrArg (ref x + ·) (entries_insert hnone wf).symm
      · exact (Function.update_of_ne hne.symm ..).trans hfd0

theorem goesOn_pipeCopy {fd0 fd1 : Fin nofile} (hne : fd1 ≠ fd0) (h0 : t fd0 = some rf)
    (h1 : t fd1 = some wf) :
    GoesOn r x (⟨.pipeCopy fd0 fd1 rf wf, t, a0⟩ : Local ι φ nofile) := by
  unfold GoesOn next
  dsimp only
  split_ifs with hr
  · refine ⟨_, rfl, ?_, trivial, trivial⟩
    have h1' : Function.update t fd0 none fd1 = some wf :=
      (Function.update_of_ne hne ..).trans h1
    change ref x + entries t = ref x +
      (entries (Function.update (Function.update t fd0 none) fd1 none) + one rf + one wf)
    rw [add_right_comm (entries _), entries_clear h1', entries_clear h0]
  · exact ⟨_, rfl, rfl, trivial, trivial⟩

theorem goesOn_exitClear {k : Fin nofile} (hbefore : ∀ fd < k, t fd = none) :
    GoesOn r x (⟨.exitClear k f, t, a0⟩ : Local ι φ nofile) := by
  refine ⟨_, rfl, rfl, fun fd hlt => ?_, trivial⟩
  change Function.update t k none fd = none
  by_cases hfd : fd = k
  · rw [hfd, Function.update_self]
  · rw [Function.update_of_ne hfd]
    exact hbefore fd (lt_of_le_of_ne (Nat.le_of_lt_succ hlt) hfd)

variable [LawfulFileLayer σ φ]

theorem exists_fileclose {h : φ → ℕ} (hle : ∀ g, (h + one f) g ≤ ref x g) :
    ∃ x', fileclose f x = some x' ∧ ref x' + (h + one f) = ref x + h := by
  have hpos : 0 < ref x f := by
    have := hle f
    rw [Pi.add_apply, one_self] at this
    omega
  obtain ⟨x', hx', href⟩ := LawfulFileLayer.fileclose_eq hpos
  refine ⟨x', hx', ?_⟩
  rw [add_comm h, ← add_assoc, href]

theorem goesOn_of_fileclose {y : Local ι φ nofile} {h : φ → ℕ} (hheld : ∀ g, l.holds g ≤ ref x g)
    (hold : l.holds = h + one f) (hnew : y.holds = h) (hfine : y.Fine) (hsingle : y.Single)
    (hnext : next r x l = (fileclose f x).map fun x => (x, y)) : GoesOn r x l := by
  obtain ⟨x', hx', href⟩ := exists_fileclose (hold ▸ hheld)
  refine ⟨(x', y), by rw [hnext, hx']; rfl, ?_, hfine, hsingle⟩
  rw [hold, hnew]
  exact href

theorem goesOn_dup {c : Fin nofile} (hfd : t fd = some f) (hc : c ≠ fd) (hcf : t c = some f)
    (hheld : ∀ g, entries (Function.update t fd none) g ≤ ref x g) :
    GoesOn r x (⟨.dup fd f, t, a0⟩ : Local ι φ nofile) := by
  have hentry : Function.update t fd none c = some f := (Function.update_of_ne hc ..).trans hcf
  have hpos : 0 < ref x f := (entries_pos hentry).trans_le (hheld f)
  obtain ⟨x', hx', href⟩ := LawfulFileLayer.filedup_eq hpos
  refine ⟨(x', ⟨.user, t, fd⟩), ?_, ?_, trivial, trivial⟩
  · change (filedup f x).map _ = _
    rw [hx']
    rfl
  · change ref x' + entries (Function.update t fd none) = ref x + entries t
    rw [href, add_right_comm, add_assoc, entries_clear hfd]

theorem goesOn_openAlloc : GoesOn r x (⟨.openAlloc, t, a0⟩ : Local ι φ nofile) := by
  unfold GoesOn next
  dsimp only
  cases halloc : (filealloc x : Option φ × σ) with
  | mk o x' =>
      cases o with
      | none =>
          have href := LawfulFileLayer.filealloc_none halloc
          exact ⟨_, rfl, congrArg (· + entries t) href, trivial, trivial⟩
      | some f =>
          obtain ⟨_, href⟩ := LawfulFileLayer.filealloc_some halloc
          refine ⟨_, rfl, ?_, trivial, trivial⟩
          change ref x' + entries t = ref x + (entries t + one f)
          rw [href, add_right_comm, add_assoc]

theorem goesOn_pipeAlloc : GoesOn r x (⟨.pipeAlloc, t, a0⟩ : Local ι φ nofile) := by
  unfold GoesOn next
  dsimp only
  cases halloc : (pipealloc x : Option (φ × φ) × σ) with
  | mk o x' =>
      cases o with
      | none =>
          have href := LawfulFileLayer.pipealloc_none halloc
          exact ⟨_, rfl, congrArg (· + entries t) href, trivial, trivial⟩
      | some fs =>
          obtain ⟨rf, wf⟩ := fs
          obtain ⟨_, _, _, href⟩ := LawfulFileLayer.pipealloc_some halloc
          refine ⟨_, rfl, ?_, trivial, trivial⟩
          change ref x' + entries t = ref x + (entries t + one rf + one wf)
          rw [href, add_right_comm, add_right_comm (ref x), add_assoc, add_assoc, add_assoc]

theorem goesOn_exit {k : ℕ} (hbefore : ∀ fd : Fin nofile, fd < k → t fd = none)
    (hheld : ∀ g, entries t g ≤ ref x g) : GoesOn r x (⟨.exit k, t, a0⟩ : Local ι φ nofile) := by
  by_cases hk : k < nofile
  · cases hfd : t ⟨k, hk⟩ with
    | none =>
        refine ⟨(x, ⟨.exit (k + 1), t, a0⟩), ?_, rfl, fun fd hlt => ?_, trivial⟩
        · unfold next
          dsimp only
          rw [dif_pos hk, hfd]
          rfl
        · rcases Nat.lt_succ_iff_lt_or_eq.mp hlt with hlt | heq
          · exact hbefore fd hlt
          · have hfd' : fd = ⟨k, hk⟩ := Fin.ext heq
            rw [hfd']
            exact hfd
    | some f =>
        refine goesOn_of_fileclose hheld (entries_clear hfd).symm rfl ⟨hfd, fun fd hlt => ?_⟩
          trivial (y := ⟨.exitClear ⟨k, hk⟩ f, t, a0⟩) ?_
        · exact hbefore fd hlt
        · unfold next
          dsimp only
          rw [dif_pos hk, hfd]
          rfl
  · refine ⟨(x, ⟨.zombie, t, a0⟩), dif_neg hk, rfl, fun fd => ?_, trivial⟩
    exact hbefore fd (fd.isLt.trans_le (Nat.not_lt.mp hk))

theorem next_moved (r : ℤ) (hfine : l.Fine) (hheld : ∀ f, l.holds f ≤ ref x f) (hbusy : l.Busy) :
    GoesOn r x l := by
  obtain ⟨pc, t, a0⟩ := l
  cases pc with
  | unused | creating | zombie | user | fork np k => exact False.elim hbusy
  | use f => exact ⟨_, rfl, rfl, trivial, trivial⟩
  | close f => exact goesOn_of_fileclose (y := ⟨.user, t, 0⟩) hheld rfl rfl trivial trivial rfl
  | dup fd f =>
      obtain ⟨hfd, c, hc, hcf⟩ := hfine
      exact goesOn_dup hfd hc hcf hheld
  | openAlloc => exact goesOn_openAlloc
  | openFd f => exact goesOn_openFd
  | openFail f =>
      exact goesOn_of_fileclose (y := ⟨.user, t, -1⟩) hheld rfl rfl trivial trivial rfl
  | pipeAlloc => exact goesOn_pipeAlloc
  | pipeRead rf wf => exact goesOn_pipeRead
  | pipeWrite fd0 rf wf => exact goesOn_pipeWrite hfine
  | pipeCopy fd0 fd1 rf wf =>
      obtain ⟨hne, h0, h1⟩ := hfine
      exact goesOn_pipeCopy hne h0 h1
  | pipeFail rf wf =>
      exact goesOn_of_fileclose (y := ⟨.pipeFailed wf, t, a0⟩) hheld (add_right_comm ..) rfl trivial
        trivial rfl
  | pipeFailed wf =>
      exact goesOn_of_fileclose (y := ⟨.user, t, -1⟩) hheld rfl rfl trivial trivial rfl
  | exit k => exact goesOn_exit hfine hheld
  | exitClear k f => exact goesOn_exitClear hfine.2

end Tables

/-! ## All processes -/

section Runs

variable {ι σ φ : Type} {nofile : ℕ} [DecidableEq φ] [FileLayer σ φ] [Fintype ι]
  {initproc i np : ι} {s s' : Files ι σ φ nofile} {x : σ} {l c : Local ι φ nofile}

/-- The slot `np` is being filled by a `fork` that has copied the entries below `k` of `t`. -/
structure Copying (k : ℕ) (t : Fin nofile → Option φ) (c : Local ι φ nofile) : Prop where
  pc : c.pc = .creating
  ofile : ∀ fd : Fin nofile, c.ofile fd = if fd < k then t fd else none

/-- The counts are exact, each call knows its table, and each new process has one parent. -/
structure Sound (s : Files ι σ φ nofile) : Prop where
  refs : ∀ f, ref s.shared f = total (fun _ l => l.holds f) s.party
  fine : ∀ i, (s.party i).Fine
  forking : ∀ i np k, (s.party i).pc = .fork np k → Copying k (s.party i).ofile (s.party np)
  apart : ∀ i j np k k', (s.party i).pc = .fork np k → (s.party j).pc = .fork np k' → i = j

theorem Sound.held (h : Sound s) (i : ι) (f : φ) : (s.party i).holds f ≤ ref s.shared f := by
  rw [h.refs]
  exact le_total (fun _ l => l.holds f) s.party i

variable [DecidableEq ι]

theorem Sound.move (h : Sound s) (hsingle : (s.party i).Single)
    (hmoved : Moved s.shared (s.party i) (x, l)) : Sound (s.move i x l) := by
  have hold : ∀ j, j ≠ i → (s.move i x l).party j = s.party j :=
    fun j hj => Function.update_of_ne hj ..
  have hnew : (s.move i x l).party i = l := Function.update_self ..
  -- neither before nor after is `i` part of a fork
  have hfork : ∀ j np k, ((s.move i x l).party j).pc = .fork np k →
      (s.party j).pc = .fork np k ∧ (s.move i x l).party j = s.party j := by
    intro j np k hpc
    by_cases hj : j = i
    · rw [hj, hnew] at hpc
      have hs := hmoved.single
      unfold Local.Single at hs
      dsimp only at hs
      rw [hpc] at hs
      exact hs.elim
    · rw [hold j hj] at hpc
      exact ⟨hpc, hold j hj⟩
  constructor
  · intro f
    have htotal := total_update (fun _ l => l.holds f) s.party i l
    have hrefs := congrFun hmoved.refs f
    rw [Pi.add_apply, Pi.add_apply] at hrefs
    have hall := h.refs f
    change ref x f = total _ (Function.update s.party i l)
    dsimp only at htotal hrefs
    omega
  · intro j
    by_cases hj : j = i
    · rw [hj, hnew]
      exact hmoved.fine
    · rw [hold j hj]
      exact h.fine j
  · intro j np k hpc
    obtain ⟨hpc, hsame⟩ := hfork j np k hpc
    have hcopying := h.forking j np k hpc
    have hnp : np ≠ i := by
      rintro rfl
      unfold Local.Single at hsingle
      rw [hcopying.pc] at hsingle
      exact hsingle
    rw [hsame, hold np hnp]
    exact hcopying
  · intro j j' np k k' hpc hpc'
    exact h.apart j j' np k k' (hfork j np k hpc).1 (hfork j' np k' hpc').1

/-- What has to be shown of a step of `fork` by `i`, which fills the slot `np`. -/
theorem Sound.move_two (h : Sound s) (hne : np ≠ i)
    (hrefs : ref x + ((s.party i).holds + (s.party np).holds) = ref s.shared + (l.holds + c.holds))
    (hl : l.Fine) (hc : c.Fine) (hi : (s.party i).pc ≠ .creating)
    (hcopying : ∀ np' k, l.pc = .fork np' k → np' = np ∧ Copying k l.ofile c)
    (hchild : ∀ np' k, c.pc ≠ .fork np' k)
    (hothers : ∀ j k, j ≠ i → (s.party j).pc ≠ .fork np k) :
    Sound ((s.move i x l).move np x c) := by
  set t := (s.move i x l).move np x c with ht
  have hti : t.party i = l := by
    rw [ht, State.move_party, Function.update_of_ne hne.symm, State.move_party,
      Function.update_self]
  have htnp : t.party np = c := Function.update_self ..
  have hold : ∀ j, j ≠ i → j ≠ np → t.party j = s.party j := by
    intro j hj hjnp
    rw [ht, State.move_party, Function.update_of_ne hjnp, State.move_party,
      Function.update_of_ne hj]
  -- the other forks fill other slots
  have hfork : ∀ j np' k, j ≠ i → (t.party j).pc = .fork np' k →
      (s.party j).pc = .fork np' k ∧ t.party j = s.party j ∧ np' ≠ i ∧ np' ≠ np := by
    intro j np' k hj hpc
    have hjnp : j ≠ np := by
      rintro rfl
      rw [htnp] at hpc
      exact hchild np' k hpc
    rw [hold j hj hjnp] at hpc
    refine ⟨hpc, hold j hj hjnp, ?_, ?_⟩
    · rintro rfl
      exact hi (h.forking j _ k hpc).pc
    · rintro rfl
      exact hothers j k hj hpc
  constructor
  · intro f
    have hfirst := total_update (fun _ l => l.holds f) s.party i l
    have hsecond := total_update (fun _ l => l.holds f) (Function.update s.party i l) np c
    rw [Function.update_of_ne hne] at hsecond
    have hall := h.refs f
    have hrefs' := congrFun hrefs f
    simp only [Pi.add_apply] at hrefs'
    change ref x f = total _ (Function.update (Function.update s.party i l) np c)
    omega
  · intro j
    by_cases hj : j = i
    · rw [hj, hti]
      exact hl
    · by_cases hjnp : j = np
      · rw [hjnp, htnp]
        exact hc
      · rw [hold j hj hjnp]
        exact h.fine j
  · intro j np' k hpc
    by_cases hj : j = i
    · rw [hj, hti] at hpc ⊢
      obtain ⟨rfl, hcopy⟩ := hcopying np' k hpc
      rw [htnp]
      exact hcopy
    · obtain ⟨hpc, hsame, hi', hnp'⟩ := hfork j np' k hj hpc
      rw [hsame, hold np' hi' hnp']
      exact h.forking j np' k hpc
  · intro j j' np' k k' hpc hpc'
    have hmine : ∀ j k k', j ≠ i → (t.party i).pc = .fork np' k →
        (t.party j).pc ≠ .fork np' k' := by
      intro j k k' hj hpc hpc'
      rw [hti] at hpc
      exact (hfork j np' k' hj hpc').2.2.2 (hcopying np' k hpc).1
    by_cases hj : j = i
    · by_cases hj' : j' = i
      · rw [hj, hj']
      · rw [hj] at hpc
        exact absurd hpc' (hmine j' k k' hj' hpc)
    · by_cases hj' : j' = i
      · rw [hj'] at hpc'
        exact absurd hpc (hmine j k' k hj hpc')
      · exact h.apart j j' np' k k' (hfork j np' k hj hpc).1 (hfork j' np' k' hj' hpc').1

section Enter

variable (h : Sound s) (hpc : (s.party i).pc = .user)
include h hpc

theorem Sound.begin (hl : l.holds = entries (s.party i).ofile) (hfine : l.Fine)
    (hsingle : l.Single) : Sound (s.move i s.shared l) := by
  refine h.move ?_ ⟨?_, hfine, hsingle⟩
  · unfold Local.Single
    rw [hpc]
    trivial
  · rw [Local.holds_of_user hpc, hl]

theorem Sound.ret (r : ℤ) : Sound (s.move i s.shared ((s.party i).ret r)) :=
  h.begin hpc rfl trivial trivial

theorem Sound.dup {fd fd' : Fin nofile} {f : φ} (hf : (s.party i).ofile fd' = some f)
    (hnone : (s.party i).ofile fd = none) :
    Sound (s.move i s.shared (((s.party i).set fd (some f)).goto (.dup fd f))) := by
  have hne : fd' ≠ fd := by
    rintro rfl
    rw [hf] at hnone
    cases hnone
  refine h.begin hpc ?_ ⟨Function.update_self .., fd', hne, ?_⟩ trivial
  · change entries (Function.update (Function.update (s.party i).ofile fd _) fd none) = _
    rw [Function.update_idem, ← hnone, Function.update_eq_self]
  · exact (Function.update_of_ne hne ..).trans hf

theorem Sound.fork (hnp : (s.party np).pc = .unused) :
    Sound ((s.move i s.shared ((s.party i).goto (.fork np 0))).move np s.shared
      ((s.party np).goto .creating)) := by
  have hempty : ∀ fd, (s.party np).ofile fd = none := by
    have hfine := h.fine np
    unfold Local.Fine at hfine
    rw [hnp] at hfine
    exact hfine
  have hne : np ≠ i := by
    rintro rfl
    cases hnp.symm.trans hpc
  have hi : (s.party i).pc ≠ .creating := by
    intro hcreating
    cases hpc.symm.trans hcreating
  have hholdsnp : (s.party np).holds = entries (s.party np).ofile := by
    unfold Local.holds
    rw [hnp]
  refine h.move_two hne ?_ trivial trivial hi ?_ ?_ ?_
  · rw [Local.holds_of_user hpc, hholdsnp]
    rfl
  · rintro _ _ ⟨⟩
    refine ⟨rfl, rfl, fun fd => ?_⟩
    rw [if_neg (Nat.not_lt_zero _)]
    exact hempty fd
  · intro np' k hfork
    cases hfork
  · intro j k _ hfork
    cases hnp.symm.trans (h.forking j np k hfork).pc

end Enter

theorem Sound.reap (h : Sound s) (hnp : (s.party np).pc = .zombie) :
    Sound (s.move np s.shared ((s.party np).goto .unused)) := by
  have hempty : ∀ fd, (s.party np).ofile fd = none := by
    have hfine := h.fine np
    unfold Local.Fine at hfine
    rw [hnp] at hfine
    exact hfine
  have hholdsnp : (s.party np).holds = entries (s.party np).ofile := by
    unfold Local.holds
    rw [hnp]
  refine h.move ?_ ⟨?_, hempty, trivial⟩
  · unfold Local.Single
    rw [hnp]
    trivial
  · rw [hholdsnp]
    rfl

theorem Sound.enter (h : Sound s) (hpc : (s.party i).pc = .user) {call : Call ι}
    (henter : Descriptors.enter initproc s i call = some s') : Sound s' := by
  unfold Descriptors.enter at henter
  cases call with
  | dup n =>
      dsimp only at henter
      cases harg : argfd (s.party i).ofile n with
      | none =>
          rw [harg] at henter
          cases henter
          exact h.ret hpc _
      | some y =>
          rw [harg] at henter
          dsimp only at henter
          cases hfd : fdalloc (s.party i).ofile with
          | none =>
              rw [hfd] at henter
              cases henter
              exact h.ret hpc _
          | some fd =>
              rw [hfd] at henter
              cases henter
              exact h.dup hpc (argfd_eq_some harg) (fdalloc_eq_some hfd)
  | close n =>
      dsimp only at henter
      cases harg : argfd (s.party i).ofile n with
      | none =>
          rw [harg] at henter
          cases henter
          exact h.ret hpc _
      | some y =>
          rw [harg] at henter
          cases henter
          exact h.begin hpc (entries_clear (argfd_eq_some harg)) trivial trivial
  | use n =>
      dsimp only at henter
      cases harg : argfd (s.party i).ofile n with
      | none =>
          rw [harg] at henter
          cases henter
          exact h.ret hpc _
      | some y =>
          rw [harg] at henter
          cases henter
          exact h.begin hpc rfl ⟨y.1, argfd_eq_some harg⟩ trivial
  | «open» found =>
      cases henter
      cases found with
      | false => exact h.ret hpc _
      | true => exact h.begin hpc rfl trivial trivial
  | pipe =>
      cases henter
      exact h.begin hpc rfl trivial trivial
  | exit =>
      dsimp only at henter
      split_ifs at henter
      cases henter
      exact h.begin hpc rfl (fun fd hlt => absurd hlt (Nat.not_lt_zero _)) trivial
  | fork o =>
      cases o with
      | none =>
          cases henter
          exact h.ret hpc _
      | some np =>
          dsimp only at henter
          cases hnp : (s.party np).pc with
          | unused =>
              rw [hnp] at henter
              cases henter
              exact h.fork hpc hnp
          | _ =>
              rw [hnp] at henter
              cases henter
  | wait np =>
      dsimp only at henter
      cases hnp : (s.party np).pc with
      | zombie =>
          rw [hnp] at henter
          cases henter
          exact h.reap hnp
      | _ =>
          rw [hnp] at henter
          cases henter

variable [LawfulFileLayer σ φ]

/-- The loop of `kfork` never panics, and keeps the accounts. -/
theorem Sound.forkNext (h : Sound s) {k : ℕ} (hpc : (s.party i).pc = .fork np k) :
    ∃ s', Descriptors.forkNext s i np k = some s' ∧ Sound s' := by
  have hcopying := h.forking i np k hpc
  have hothers : ∀ j k', j ≠ i → (s.party j).pc ≠ .fork np k' :=
    fun j k' hj hpc' => hj (h.apart j i np k' k hpc' hpc)
  have hi : (s.party i).pc ≠ .creating := by
    intro hcreating
    cases hpc.symm.trans hcreating
  have hne : np ≠ i := by
    rintro rfl
    exact hi hcopying.pc
  have hholds : (s.party i).holds = entries (s.party i).ofile := by
    unfold Local.holds
    rw [hpc]
  have hholdsnp : (s.party np).holds = entries (s.party np).ofile := by
    unfold Local.holds
    rw [hcopying.pc]
  unfold Descriptors.forkNext
  dsimp only
  split_ifs with hk
  · cases hfd : (s.party i).ofile ⟨k, hk⟩ with
    | none =>
        refine ⟨_, rfl, ?_⟩
        have hsame : s.move i s.shared ((s.party i).goto (.fork np (k + 1))) =
            (s.move i s.shared ((s.party i).goto (.fork np (k + 1)))).move np s.shared
              (s.party np) := by
          unfold State.move
          congr 1
          rw [Function.update_comm hne.symm, Function.update_eq_self]
        rw [hsame]
        refine h.move_two hne ?_ trivial (h.fine np) hi ?_ ?_ hothers
        · rw [hholds]
          rfl
        · rintro _ _ ⟨⟩
          refine ⟨rfl, hcopying.pc, fun fd => ?_⟩
          rw [hcopying.ofile]
          change (if _ then (s.party i).ofile fd else _) = if _ then (s.party i).ofile fd else _
          by_cases hlt : fd.val < k
          · rw [if_pos hlt, if_pos (Nat.lt_succ_of_lt hlt)]
          · rw [if_neg hlt]
            split_ifs with hle
            · have hval : fd.val = k := by omega
              have hfd' : fd = ⟨k, hk⟩ := Fin.ext hval
              rw [hfd', hfd]
            · rfl
        · intro np' k' hpc'
          cases hcopying.pc.symm.trans hpc'
    | some f =>
        have hpos : 0 < ref s.shared f := by
          refine lt_of_lt_of_le (entries_pos hfd) ?_
          rw [← hholds]
          exact h.held i f
        obtain ⟨x, hx, href⟩ := LawfulFileLayer.filedup_eq hpos
        dsimp only
        rw [hx]
        refine ⟨_, rfl, h.move_two hne ?_ trivial ?_ hi ?_ ?_ hothers⟩
        · have hnone : (s.party np).ofile ⟨k, hk⟩ = none := by
            rw [hcopying.ofile]
            exact if_neg (lt_irrefl k)
          have hset : ((s.party np).set ⟨k, hk⟩ (some f)).holds =
              entries (s.party np).ofile + one f := by
            rw [← entries_insert hnone]
            unfold Local.holds Local.set
            dsimp only
            rw [hcopying.pc]
          rw [hset, hholds, hholdsnp, href]
          change _ = ref s.shared + (entries (s.party i).ofile + _)
          rw [add_right_comm, add_assoc, add_assoc]
        · have hpc' : ((s.party np).set ⟨k, hk⟩ (some f)).pc = .creating := hcopying.pc
          unfold Local.Fine
          rw [hpc']
          trivial
        · rintro _ _ ⟨⟩
          refine ⟨rfl, hcopying.pc, fun fd => ?_⟩
          change Function.update (s.party np).ofile ⟨k, hk⟩ (some f) fd =
            if _ then (s.party i).ofile fd else _
          by_cases hfd' : fd = ⟨k, hk⟩
          · rw [hfd', Function.update_self, if_pos (Nat.lt_succ_self k), hfd]
          · have hval : fd.val ≠ k := fun heq => hfd' (Fin.ext heq)
            rw [Function.update_of_ne hfd', hcopying.ofile]
            exact if_congr (by omega) rfl rfl
        · intro np' k' hpc'
          cases hcopying.pc.symm.trans hpc'
  · refine ⟨_, rfl, h.move_two hne ?_ trivial trivial hi ?_ ?_ hothers⟩
    · rw [hholds, hholdsnp]
      rfl
    · intro np' k' hpc'
      cases hpc'
    · intro np' k' hpc'
      cases hpc'

theorem Sound.next (h : Sound s) (hcall : (s.party i).InCall) (r : ℤ) :
    ∃ s', step initproc s (.next i r) = some s' ∧ Sound s' := by
  have hmoved : ∀ hbusy : (s.party i).Busy, (s.party i).Single → ∃ y,
      Descriptors.next r s.shared (s.party i) = some y ∧ Sound (s.move i y.1 y.2) := by
    intro hbusy hsingle
    obtain ⟨y, hy, hmoved⟩ := next_moved r (h.fine i) (h.held i) hbusy
    exact ⟨y, hy, h.move hsingle hmoved⟩
  unfold Local.InCall at hcall
  unfold Local.Busy Local.Single at hmoved
  unfold step
  dsimp only
  cases hpc : (s.party i).pc with
  | unused | creating | zombie | user =>
      rw [hpc] at hcall
      exact hcall.elim
  | fork np k => exact h.forkNext hpc
  | _ =>
      rw [hpc] at hmoved
      obtain ⟨y, hy, hsound⟩ := hmoved trivial trivial
      dsimp only
      rw [hy]
      exact ⟨_, rfl, hsound⟩

theorem Sound.step (h : Sound s) {a : Act ι} (hstep : Descriptors.step initproc s a = some s') :
    Sound s' := by
  cases a with
  | call i c =>
      unfold Descriptors.step at hstep
      dsimp only at hstep
      cases hpc : (s.party i).pc with
      | user =>
          rw [hpc] at hstep
          exact h.enter hpc hstep
      | _ =>
          rw [hpc] at hstep
          cases hstep
  | next i r =>
      by_cases hcall : (s.party i).InCall
      · have hnext : ∃ t, Descriptors.step initproc s (.next i r) = some t ∧ Sound t :=
          h.next hcall r
        obtain ⟨t, ht, hsound⟩ := hnext
        cases hstep.symm.trans ht
        exact hsound
      · exfalso
        unfold Local.InCall at hcall
        unfold Descriptors.step Descriptors.next at hstep
        dsimp only at hstep
        cases hpc : (s.party i).pc with
        | unused | creating | zombie | user =>
            rw [hpc] at hstep
            cases hstep
        | _ =>
            rw [hpc] at hcall
            exact hcall trivial

omit [LawfulFileLayer σ φ] in
theorem Boot.sound (h : Boot initproc s) : Sound s := by
  have hpc : ∀ i, (s.party i).pc = .user ∨ (s.party i).pc = .unused := by
    intro i
    rw [h.pc]
    split_ifs
    · exact Or.inl rfl
    · exact Or.inr rfl
  constructor
  · intro f
    rw [h.closed]
    refine (total_eq_zero fun i => ?_).symm
    have hholds : (s.party i).holds = entries (s.party i).ofile := by
      unfold Local.holds
      rcases hpc i with hi | hi
      · rw [hi]
      · rw [hi]
    rw [hholds, entries_empty (h.empty i)]
    rfl
  · intro i
    unfold Local.Fine
    rcases hpc i with hi | hi
    · rw [hi]
      trivial
    · rw [hi]
      exact h.empty i
  · intro i np k hfork
    rcases hpc i with hi | hi
    · cases hi.symm.trans hfork
    · cases hi.symm.trans hfork
  · intro i j np k k' hfork _
    rcases hpc i with hi | hi
    · cases hi.symm.trans hfork
    · cases hi.symm.trans hfork

theorem Boot.sound_of_run {s₀ : Files ι σ φ nofile} {acts : List (Act ι)}
    (hboot : Boot initproc s₀) (hrun : Run initproc s₀ acts s) : Sound s :=
  hrun.invariant (fun _ _ _ h hstep => h.step hstep) hboot.sound

/-- Two processes, of which the first one runs, and four files that are not open. -/
def boot : Files (Fin 2) (Ftable 4) (Fin 4) 3 :=
  ⟨⟨fun _ => 0⟩, fun i => ⟨if i = 0 then .user else .unused, fun _ => none, 0⟩⟩

theorem boot_boot : Boot 0 boot := ⟨fun _ => rfl, fun _ _ => rfl, fun _ => rfl⟩

/-- The first process makes a pipe and the second process, up to the last step of `kfork`. -/
def forking : List (Act (Fin 2)) :=
  [.call 0 .pipe, .next 0 0, .next 0 0, .next 0 0, .next 0 0, .call 0 (.fork (some 1)),
    .next 0 0, .next 0 0, .next 0 0]

variable (s₀ : Files ι σ φ nofile) (acts : List (Act ι))

/-- In every state of every run, whatever calls the processes make and whichever of them fail:
a process in a call can go on, since `filedup` and `fileclose` find a file that has references,
and a file that is being read, written to or looked at is open. -/
theorem calls_never_stuck (hboot : Boot initproc s₀) (hrun : Run initproc s₀ acts s) (i : ι) :
    ((s.party i).InCall → ∀ r, (step initproc s (.next i r)).isSome) ∧
      ∀ f, (s.party i).pc = .use f → 0 < ref s.shared f := by
  have hsound := hboot.sound_of_run hrun
  refine ⟨fun hcall r => ?_, fun f hpc => ?_⟩
  · have hnext : ∃ t, step initproc s (.next i r) = some t ∧ Sound t := hsound.next hcall r
    obtain ⟨t, ht, _⟩ := hnext
    rw [ht]
    rfl
  · have hfine := hsound.fine i
    have hheld := hsound.held i f
    unfold Local.Fine at hfine
    unfold Local.holds at hheld
    rw [hpc] at hfine hheld
    obtain ⟨fd, hfd⟩ := hfine
    exact (entries_pos hfd).trans_le hheld

/-- The second process reads from the pipe after the first one has closed its end. -/
theorem calls_never_stuck_pipe : ∃ s : Files (Fin 2) (Ftable 4) (Fin 4) 3,
    (s.party 0).ofile 0 = none ∧ (s.party 1).pc = .use 0 ∧ 0 < ref s.shared (0 : Fin 4) := by
  obtain ⟨s, hrun, hp⟩ := Refinement.Run.exists_of_any (step 0) boot
    (forking ++ [.next 0 0, .call 0 (.close 0), .next 0 0, .call 1 (.use 0)])
    (fun s => (s.party 0).ofile 0 = none ∧ (s.party 1).pc = .use 0) (by decide)
  obtain ⟨hclosed, huse⟩ := of_decide_eq_true hp
  exact ⟨s, hclosed, huse, (calls_never_stuck boot _ boot_boot hrun 1).2 0 huse⟩

/-- In every state of every run in which no process is in a call, the count of each open file
is the number of descriptors, of all processes, that name it: no call has lost a reference
to a file, and none has dropped one too many. -/
theorem refs_eq_card (hboot : Boot initproc s₀) (hrun : Run initproc s₀ acts s)
    (hquiet : ∀ i, ¬ (s.party i).InCall) (f : φ) :
    ref s.shared f =
      (Finset.univ.filter fun y : ι × Fin nofile => (s.party y.1).ofile y.2 = some f).card := by
  have hsound := hboot.sound_of_run hrun
  rw [hsound.refs, Finset.card_filter, Fintype.sum_prod_type]
  refine Finset.sum_congr rfl fun i _ => ?_
  have hholds : (s.party i).holds = entries (s.party i).ofile := by
    have hcall := hquiet i
    unfold Local.InCall at hcall
    unfold Local.holds
    cases hpc : (s.party i).pc with
    | unused | creating | zombie | user => rfl
    | _ =>
        have hno : ¬ True := by
          rw [hpc] at hcall
          exact hcall
        exact absurd trivial hno
  change (s.party i).holds f = _
  rw [hholds, entries_apply, Finset.card_filter]

theorem refs_eq_card_pipe : ∃ s : Files (Fin 2) (Ftable 4) (Fin 4) 3,
    ref s.shared (0 : Fin 4) = 2 ∧ (Finset.univ.filter fun y : Fin 2 × Fin 3 =>
      (s.party y.1).ofile y.2 = some 0).card = 2 := by
  obtain ⟨s, hrun, hp⟩ := Refinement.Run.exists_of_any (step 0) boot
    (forking ++ [.next 0 0]) (fun s => (s.party 0).pc = .user ∧
      (s.party 1).pc = .user ∧ s.shared.count 0 = 2) (by decide)
  obtain ⟨h0, h1, hcount⟩ := of_decide_eq_true hp
  have hquiet : ∀ i, ¬ (s.party i).InCall := by
    refine Fin.forall_fin_two.mpr ⟨?_, ?_⟩
    · unfold Local.InCall
      rw [h0]
      exact id
    · unfold Local.InCall
      rw [h1]
      exact id
  exact ⟨s, hcount, (refs_eq_card boot _ boot_boot hrun hquiet 0).symm.trans hcount⟩

/-- In every run, a process begins with the descriptors of its parent, entry by entry. -/
theorem child_has_descriptors (hboot : Boot initproc s₀) (hrun : Run initproc s₀ acts s)
    {np : ι} {k : ℕ} {r : ℤ} (hpc : (s.party i).pc = .fork np k)
    (hstep : step initproc s (.next i r) = some s') (hruns : (s'.party np).pc = .user) :
    (s'.party np).ofile = (s'.party i).ofile := by
  have hsound := hboot.sound_of_run hrun
  have hcopying := hsound.forking i np k hpc
  have hne : np ≠ i := by
    rintro rfl
    cases hcopying.pc.symm.trans hpc
  unfold step at hstep
  dsimp only at hstep
  rw [hpc] at hstep
  unfold forkNext at hstep
  dsimp only at hstep
  split_ifs at hstep with hk
  · exfalso
    have hcreating : (s'.party np).pc = .creating := by
      cases hfd : (s.party i).ofile ⟨k, hk⟩ with
      | none =>
          rw [hfd] at hstep
          cases hstep
          rw [State.move_party, Function.update_of_ne hne]
          exact hcopying.pc
      | some f =>
          rw [hfd] at hstep
          obtain ⟨x, _, rfl⟩ := Option.map_eq_some_iff.mp hstep
          rw [State.move_party, Function.update_self]
          exact hcopying.pc
    cases hcreating.symm.trans hruns
  · cases hstep
    rw [State.move_party, Function.update_self, Function.update_of_ne hne.symm, State.move_party,
      Function.update_self]
    funext fd
    exact (hcopying.ofile fd).trans (if_pos (fd.isLt.trans_le (Nat.not_lt.mp hk)))

theorem child_has_descriptors_pipe : ∃ s : Files (Fin 2) (Ftable 4) (Fin 4) 3,
    (s.party 1).pc = .user ∧ (s.party 1).ofile 1 = some 1 ∧
      (s.party 1).ofile = (s.party 0).ofile := by
  obtain ⟨s, hrun, hp⟩ := Refinement.Run.exists_of_any (step 0) boot forking
    (fun s => (s.party 0).pc = .fork 1 3 ∧ (step 0 s (.next 0 0)).any fun s => (s.party 1).pc = .user ∧ (s.party 1).ofile 1 = some 1)
    (by decide)
  obtain ⟨hpc, hany⟩ := of_decide_eq_true hp
  obtain ⟨s', hs', hp'⟩ := (Option.any_eq_true _ _).mp hany
  obtain ⟨hruns, hfd⟩ := of_decide_eq_true hp'
  exact ⟨s', hruns, hfd, child_has_descriptors boot _ boot_boot hrun hpc hs' hruns⟩

end Runs

end Descriptors
