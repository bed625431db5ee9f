import OsAssignments.Assignment4.LinkConsistency
import OsAssignments.Library.DirectedCycle

/-!
# The calls do not deadlock

`sys_unlink` waits for the lock of an inode while it has that of the directory that the inode is
in, and no other call has a lock when it waits. So whoever waits for a process that waits in turn
waits along a path down the tree, which ends.
-/

namespace Links

open Interleaving

section Waiting

variable {ι δ ν φ : Type} [DirLayer δ ν φ] [LawfulDirLayer δ ν φ] [DecidableEq φ] [DecidableEq ι]
  [Fintype ι] [Fintype φ] {root x : φ} {nlinkMax : ℕ} {s₀ s : Fs ι δ ν φ} {i : ι}

/-- Process `i` is going to lock an inode that process `j` has locked. -/
def WaitsFor (s : Fs ι δ ν φ) (i j : ι) : Prop :=
  ∃ x, (s.party i).pc.wants = some x ∧ s.lock x = some j

/-- A call can go on when nobody has locked the inode that it is going to lock. -/
theorem Sound.goes_on (h : Sound root nlinkMax s) (hpc : (s.party i).pc ≠ .user)
    (hfree : ∀ x, (s.party i).pc.wants = some x → s.lock x = none) :
    ∃ o, (next nlinkMax s i o).isSome := by
  have hfits := h.fits i
  unfold next
  cases hat : (s.party i).pc with
  | user => exact absurd hat hpc
  | linkNode ip =>
      rw [hat] at hfree
      refine ⟨.room true, ?_⟩
      dsimp only
      rw [if_neg (not_not.mpr (hfree ip rfl))]
      split_ifs
      · rfl
      · rfl
  | linkParent ip => exact ⟨.parent none, rfl⟩
  | linkEntry ip dp name =>
      rw [hat] at hfree
      refine ⟨.room true, ?_⟩
      dsimp only
      rw [if_neg (not_not.mpr (hfree dp rfl))]
      split_ifs
      · rfl
      · split
        · rfl
        · rfl
  | linkBad ip =>
      rw [hat] at hfree
      refine ⟨.room true, ?_⟩
      dsimp only
      rw [if_neg (not_not.mpr (hfree ip rfl))]
      rfl
  | unlinkIn dp name =>
      rw [hat] at hfree
      refine ⟨.room true, ?_⟩
      cases name with
      | dot | dotdot =>
          dsimp only
          rw [if_neg (not_not.mpr (hfree dp rfl))]
          rfl
      | other n =>
          dsimp only
          rw [if_neg (not_not.mpr (hfree dp rfl))]
          split
          · rfl
          · rfl
  | unlinkNode ip dp off =>
      rw [hat] at hfree hfits
      have hpos := (h.child hfits.child).2.1
      have hno : ¬ (s.lock ip ≠ none ∨ (s.inode ip).nlink < 1) :=
        not_or.mpr ⟨not_not.mpr (hfree ip rfl), Nat.not_lt.mpr hpos⟩
      refine ⟨.room true, ?_⟩
      dsimp only
      rw [if_neg hno]
      split_ifs
      · rfl
      · rfl
  | unlinked ip => exact ⟨.room true, rfl⟩
  | createIn dp name t =>
      rw [hat] at hfree
      refine ⟨.made none true true true, ?_⟩
      dsimp only
      rw [if_neg (not_not.mpr (hfree dp rfl))]
      split_ifs
      · rfl
      · split
        · rfl
        · rfl
  | createFound ip t =>
      rw [hat] at hfree
      refine ⟨.room true, ?_⟩
      dsimp only
      rw [if_neg (not_not.mpr (hfree ip rfl))]
      split_ifs
      · rfl
      · rfl

/-- A process that cannot go on has the lock of `x` only while it waits for the lock of an inode
in `x`. -/
theorem Sound.child_of_held (h : Sound root nlinkMax s) (hlock : s.lock x = some i)
    (hstuck : ¬ ∃ o, (next nlinkMax s i o).isSome) :
    ∃ y, (s.party i).pc.wants = some y ∧ Child s.inode x y := by
  have hlocks := (h.locks x i).mp hlock
  have hfits := h.fits i
  cases hpc : (s.party i).pc with
  | unlinkNode ip dp off =>
      rw [hpc] at hlocks hfits
      cases hlocks
      exact ⟨ip, rfl, hfits.child⟩
  | unlinked ip =>
      refine absurd (h.goes_on (fun hc => ?_) fun y hy => ?_) hstuck
      · cases hpc.symm.trans hc
      · rw [hpc] at hy
        cases hy
  | _ =>
      rw [hpc] at hlocks
      cases hlocks

/-- Whoever waits, waits in the end for a process that can go on: a chain of processes that wait
for each other leads down the tree. -/
theorem Sound.exists_goes_on (h : Sound root nlinkMax s) (hpc : (s.party i).pc ≠ .user) :
    ∃ j, Relation.ReflTransGen (WaitsFor s) i j ∧ ∃ o, (next nlinkMax s j o).isSome := by
  by_contra hnone
  have hstuck : ∀ j, Relation.ReflTransGen (WaitsFor s) i j →
      ¬ ∃ o, (next nlinkMax s j o).isSome := fun j hj hgo => hnone ⟨j, hj, hgo⟩
  -- a process that cannot go on waits for an inode that is locked
  have hwait : ∀ j, (s.party j).pc ≠ .user → Relation.ReflTransGen (WaitsFor s) i j →
      ∃ x k, (s.party j).pc.wants = some x ∧ s.lock x = some k := by
    intro j huser hj
    by_contra hfree
    refine hstuck j hj (h.goes_on huser fun x hx => ?_)
    cases hlock : s.lock x with
    | none => rfl
    | some k => exact absurd ⟨x, k, hx, hlock⟩ hfree
  let wanted : Set φ := {x | ∃ j, Relation.ReflTransGen (WaitsFor s) i j ∧
    (s.party j).pc.wants = some x ∧ ∃ k, s.lock x = some k}
  have hne : wanted.Nonempty := by
    obtain ⟨x, k, hx, hk⟩ := hwait i hpc .refl
    exact ⟨x, i, .refl, hx, k, hk⟩
  obtain ⟨x, hcycle⟩ := DirectedCycle.exists_transGen_self hne (E := Child s.inode) (by
    rintro x ⟨j, hj, hx, k, hk⟩
    have hk' : Relation.ReflTransGen (WaitsFor s) i k := hj.tail ⟨x, hx, hk⟩
    obtain ⟨y, hy, hchild⟩ := h.child_of_held hk (hstuck k hk')
    have huser : (s.party k).pc ≠ .user := fun hc => by
      rw [hc] at hy
      cases hy
    obtain ⟨z, m, hz, hm⟩ := hwait k huser hk'
    obtain rfl : y = z := Option.some_inj.mp (hy.symm.trans hz)
    exact ⟨y, ⟨k, hk', hy, m, hm⟩, hchild⟩)
  exact h.tree.acyclic x hcycle

variable [DecidableEq ν] (root nlinkMax s₀ s i) (acts : List (Act ι ν φ))

/-- `sys_unlink` never finds an inode without links, which is a `panic`, and never locks the
directory that it has locked; and a process in a call can go on, or waits for the lock of a
process that can, or of one that waits in turn, and so on: the calls do not deadlock. -/
theorem links_go_on (hmount : Mounted root nlinkMax s₀) (hmax : 1 ≤ nlinkMax)
    (hrun : Run nlinkMax s₀ acts s) (hpc : (s.party i).pc ≠ .user) :
    (∀ ip dp off, (s.party i).pc = .unlinkNode ip dp off →
      1 ≤ (s.inode ip).nlink ∧ ip ≠ dp ∧ s.lock dp = some i) ∧
    ∃ j, Relation.ReflTransGen (WaitsFor s) i j ∧ ∃ o, (next nlinkMax s j o).isSome := by
  have hs := (hmount.sound_of_run hmax hrun).1
  refine ⟨fun ip dp off hat => ?_, hs.exists_goes_on hpc⟩
  have hfits := hs.fits i
  rw [hat] at hfits
  obtain ⟨hne, hpos, _⟩ := hs.child hfits.child
  exact ⟨hpos, hne, (hs.locks dp i).mpr (by rw [hat]; rfl)⟩

/-- One process unlinks the file, and has locked its directory. The other one unlinks this
directory, has locked the root, and waits. -/
theorem links_go_on_unlink : ∃ s : Fs Bool (Dir Bool (Option Bool)) Bool (Option Bool),
    s.lock none = some false ∧ s.lock (some true) = some true ∧
      next 2 s false (.room true) = none ∧
      ∃ j, Relation.ReflTransGen (WaitsFor s) false j ∧ ∃ o, (next 2 s j o).isSome := by
  obtain ⟨s, hrun, hp⟩ := Refinement.Run.exists_of_any (step 2) mkfs
    (making ++ [.unlink true (some (some true, .other false)), .next true (.room true),
      .unlink false (some (none, .other true)), .next false (.room true)])
    (fun s => (s.party false).pc ≠ .user ∧ s.lock none = some false ∧
      s.lock (some true) = some true ∧ (next 2 s false (.room true)).isNone) (by decide)
  obtain ⟨hpc, hroot, hdir, hnone⟩ := of_decide_eq_true hp
  exact ⟨s, hroot, hdir, Option.isNone_iff_eq_none.mp hnone,
    (links_go_on none 2 mkfs s false _ mkfs_mounted (by decide) hrun hpc).2⟩

end Waiting

end Links
