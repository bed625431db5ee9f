import OsAssignments.Memory.Holes
import OsAssignments.Memory.UserMemory

/-!
# The status of a child

What `kwait` does to memory once it has found a zombie: it copies the exit status of the child
to the address that the parent has passed, and frees the child, unless the copy has failed. Then
the child stays, so that its status is not lost.
-/

namespace Memory

open Outcome RefPool RadixTree Machine Kmem FlatMemory Refinement

/-- The bytes of an `int`, the lowest first. -/
def intBytes (n : Int32) : List UInt8 :=
  [0, 8, 16, 24].map fun k => UInt8.ofNat (n.toUInt32.toNat / 2 ^ k)

example : intBytes (-2) = [254, 255, 255, 255] := by decide

/-- What `kwait(addr)` of the process `p` in the slot `i` does with the zombie `q` that it has
found in the slot `j`; `false` stands for `-1`. -/
def kwaitFound {nproc : ℕ} (kv : Kernel) (g : Globals) (m : Machine Kmem nproc) (i : Fin nproc)
    (p : Space) (j : Fin nproc) (q : Space) (addr : ℕ) (xstate : Int32) :
    Except CopyFault (Machine Kmem nproc × Bool) :=
  if addr = 0 then do
    let m ← (reap kv g m j q).mapError .panic
    pure (m, true)
  else do
    let r ← copyout m.mem p.pagetable p.sz addr (intBytes xstate)
    if r.2.2 then do
      let m ← (reap kv g (m.afterCopy i p r) j q).mapError .panic
      pure (m, true)
    else
      pure (m.afterCopy i p r, false)

section Wait

variable {nproc : ℕ} {kernelEnd : ℕ} {reserved : ℕ → ℕ} {kv : Kernel} {g : Globals}
  {m m₀ : Machine Kmem nproc} {i j : Fin nproc} {p q : Space} {kernelPages : Finset ℕ}
  {events : List (Event nproc)}

def WaitPanic (kv : Kernel) : CopyFault → Prop
  | .panic e => kv = .assignment4 ∧ HolePanic e
  | .nullPte => False

theorem tolerates_waitPanic (kv : Kernel) : kv.Tolerates fun e => WaitPanic kv (.panic e) :=
  fun hk => ⟨⟨hk, Or.inl rfl⟩, hk, Or.inr rfl⟩

theorem reap_flat (hm : Private kernelEnd reserved g m) (hq : m.proc j = some q)
    (hz : q.zombie = true) :
    Yields (fun e => WaitPanic kv (.panic e)) (reap kv g m j q) fun m' =>
      Private kernelEnd reserved g m' ∧ flat g m' = (flat g m).remove pgSize freshPerm 0 j := by
  have hperform : perform kv g m (.reap j) = reap kv g m j q := perform_zombie hq hz
  have hcycles : Yields (fun _ => True) (perform kv g m (.reap j)) fun m' =>
      Cycles m.mem m'.mem := perform_cycles hm.sound (.reap j)
  rw [hperform] at hcycles
  have hspec : Yields (fun e => WaitPanic kv (.panic e)) (reap kv g m j q) _ :=
    reap_spec (hm.books _) (fun _ => (tolerates_waitPanic kv).spares) hm.inv.books
      (hm.wellMapped hq) hq
  refine (hspec.and hcycles).mono fun m' hm' => ?_
  obtain ⟨⟨s, rfl, hR⟩, hs⟩ := hm'
  have hm' : Private kernelEnd reserved g (m.put s j none) :=
    { hm with
      inv := hm.inv.put hR fun _ h => by cases h
      unaliased := hm.unaliased.remove }
  exact ⟨hm', flat_remove hm hm' hs⟩

/-- What `kwait` comes to, with the status of the child in the memory `F`. -/
inductive Waited (F : UserMemory nproc) (supply : ℕ) (hole : ℕ → Prop) (i j : Fin nproc) (addr : ℕ)
    (status : List UInt8) : UserMemory nproc → Bool → Prop
  | unasked : addr = 0 → Waited F supply hole i j addr status (F.remove pgSize freshPerm 0 j) true
  | reaped : addr ≠ 0 → (∀ k < 4, Grants F i Perm.w (addr + k)) →
      Waited F supply hole i j addr status
        ((F.writes pgSize shmPage i addr status).remove pgSize freshPerm 0 j) true
  | kept {k : ℕ} : addr ≠ 0 → k < 4 →
      ¬ Grants F i Perm.w (addr + k) ∨
        supply < 3 * pageSpan addr 4 ∧ hole ((addr + k) / pgSize) →
      Waited F supply hole i j addr status
        (F.writes pgSize shmPage i addr (status.take k)) false

/-- In every state that a kernel without threads reaches, when `kwait` has found a zombie: it
writes the four bytes of the status and frees the child; or it cannot write all of them, returns
`-1`, and the child is still there. The books of the allocator balance in both cases, and only
the Assignment 4 kernel can stop, at a hole of the child. -/
theorem kwait_exact (addr : ℕ) (xstate : Int32) (hboot : Boot g kernelPages m₀)
    (hreach : Run (Exec kv g) m₀ events m) (hp : m.proc i = some p) (hq : m.proc j = some q)
    (hz : q.zombie = true) (hne : j ≠ i) :
    Yields (WaitPanic kv) (kwaitFound kv g m i p j q addr xstate) fun r =>
      Private m₀.mem.kernelEnd (reservedCount kernelPages) g r.1 ∧
      (r.2 = false → r.1.proc j = some q) ∧
      Waited (flat g m) m.mem.supply (fun v => p.pagetable.leaf v = none) i j addr
        (intBytes xstate) (flat g r.1) r.2 := by
  have hm := hboot.private_of_run hreach
  unfold kwaitFound
  apply Yields.ite
  · intro haddr
    refine ((reap_flat hm hq hz).mapError fun _ he => he).bind fun m' hm' => ?_
    refine ⟨hm'.1, fun hr => absurd hr.symm Bool.false_ne_true, ?_⟩
    rw [hm'.2]
    exact .unasked haddr
  · intro haddr
    obtain ⟨r, hr, hm₁, k, hresult, _, _, hflat⟩ :=
      (copyoutLoop_flat _ m p addr (intBytes xstate) le_rfl hm hp).exists_eq_ok
    rw [show copyout m.mem p.pagetable p.sz addr (intBytes xstate) = _ from hr, yields_ok_bind]
    have hq₁ : (m.afterCopy i p r).proc j = some q := (put_proc_of_ne _ _ _ hne).trans hq
    have hfour : (intBytes xstate).length = 4 := rfl
    apply Yields.ite
    · intro hok
      have hk : k = 4 := hresult.ok_iff.mp hok
      subst hk
      have hreap : Yields _ (reap kv g (m.afterCopy i p r) j q) _ := reap_flat hm₁ hq₁ hz
      refine (hreap.mapError fun _ he => he).bind fun m' hm' => ?_
      refine ⟨hm'.1, fun hr => absurd hr.symm Bool.false_ne_true, ?_⟩
      rw [hm'.2, show flat g (m.afterCopy i p r) = _ from hflat, List.take_of_length_le hfour.le]
      exact .reaped haddr hresult.granted
    · intro hok
      refine ⟨hm₁, fun _ => hq₁, ?_⟩
      rw [show flat g (m.afterCopy i p r) = _ from hflat]
      have hok' : r.2.2 = false := Bool.eq_false_iff.mpr hok
      have hlt : k < 4 := lt_of_le_of_ne hresult.le fun hk => hok (hresult.ok_iff.mpr hk)
      exact .kept haddr hlt (hresult.refused hok')

end Wait

set_option synthInstance.maxSize 512 in
theorem bootImage_zombie : Yields (fun _ => False)
    (bootImage (physTop - 20 * pgSize) kernBase []) fun r => ∃ x ∈ r,
      Yields (fun _ => False) (perform .assignment7 x.1 x.2 (.fork 0)) fun m₁ => m₁.Fits ∧
        Yields (fun _ => False) (perform .assignment7 x.1 m₁ (.exit 1)) fun m₂ => m₂.Fits ∧
          (m₂.proc 0).isSome ∧ ∃ q ∈ m₂.proc 1, q.zombie = true := by
  decide +kernel

theorem kwait_exact_unasked : ∃ (g : Globals) (m m' : Machine Kmem 2) (p q : Space),
    q.zombie = true ∧ kwaitFound .assignment7 g m 0 p 1 q 0 7 = .ok (m', true) ∧
      flat g m' = (flat g m).remove pgSize freshPerm 0 1 := by
  obtain ⟨x, hb, h⟩ := exists_boot bootImage_zombie
  obtain ⟨m₁, hfork, hfits, h⟩ := h.exists_eq_ok
  obtain ⟨m₂, hexit, hfits₂, hsome, q, hq, hz⟩ := h.exists_eq_ok
  obtain ⟨p, hp⟩ := Option.isSome_iff_exists.mp hsome
  have hrun : Run (Exec .assignment7 x.1) x.2 [.act (.fork 0), .act (.exit 1)] m₂ :=
    .next (.single (.act trivial hfork hfits)) (.act trivial hexit hfits₂)
  have hwait := kwait_exact 0 7 hb hrun hp hq hz (by decide)
  have hreturns : Yields (fun _ => False) _ _ := hwait.weaken fun e he => by
    cases e with
    | panic e => cases he.1
    | nullPte => exact he
  obtain ⟨⟨m', ok⟩, hr, _, _, hwaited⟩ := hreturns.exists_eq_ok
  generalize hF : flat x.1 m' = F' at hwaited
  cases hwaited with
  | unasked _ => exact ⟨x.1, m₂, m', p, q, hz, hr, hF⟩
  | reaped hne _ => exact absurd rfl hne
  | kept hne _ _ => exact absurd rfl hne

end Memory
