import OsAssignments.Process.Waiting

/-!
# No exit is missed

A process in `kwait` or `kjoin` looks at its children under `wait_lock`, registers its
channel under the lock, and gives the lock back before it sleeps. A child ends under the
lock: it wakes its parent first and is a `ZOMBIE` only then; and `reparent` gives a child
to the first process before it wakes that one. `Heard` says what holds in between: which
slots a process that looks has found without a dead child, and whom the holder of the
lock has woken or is going to wake.
-/

namespace Process

open EventRun Mutex State

variable {nproc : ℕ}

/-- Below index `n` there is no `ZOMBIE` that `kwait` or `kjoin` of slot `i` would take. -/
def Clear (s : State nproc) (i : Fin nproc) (thread : Bool) (n : ℕ) : Prop :=
  ∀ z : Fin nproc, z.val < n → isChild s i thread z = true → (s.proc z).state ≠ .zombie

/-- The points of which `Heard` speaks. -/
def Pc.hears : Pc nproc → Bool
  | scan _ _ _ => true
  | sleepPrepare (.wait _) => true
  | wakeup _ _ .kexit => true
  | setZombie => true
  | _ => false

/-- What the process in slot `i` has seen of its children, or has done for its parent. -/
structure HeardAt (s : State nproc) (i : Fin nproc) : Prop where
  scan : ∀ thread k havekids, s.pc i = .scan thread k havekids → Clear s i thread k
  prepare : ∀ thread, s.pc i = .sleepPrepare (.wait thread) → Clear s i thread nproc
  channel : ∀ ch k, s.pc i = .wakeup ch k .kexit → ch = (s.proc i).parent.map .proc
  woken : ∀ q k thread, s.pc i = .wakeup (some (.proc q)) k .kexit → q.val < k →
    ¬ Waits s q (.wait thread)
  zombie : ∀ q thread, s.pc i = .setZombie → (s.proc i).parent = some q →
    ¬ Waits s q (.wait thread)

/-- The loop of `reparent` is about to wake the process in slot `q`. -/
def Waking (s : State nproc) (q : Fin nproc) : Prop :=
  ∃ i k j, s.pc i = .wakeup (some (.proc q)) k (.reparent j) ∧ k ≤ q.val

/-- A process that waits for a child has no dead one, unless `reparent` is about to wake it. -/
structure Heard (s : State nproc) : Prop where
  point : ∀ i, HeardAt s i
  waits : ∀ q thread, Waits s q (.wait thread) → Clear s q thread nproc ∨ Waking s q

/-- A slot holds a dead process only if it held the same one before. -/
def Proc.Buries (p p' : Proc nproc) : Prop :=
  p'.state = .zombie → p.state = .zombie ∧ p'.parent = p.parent ∧ p'.isThread = p.isThread

variable {s s' : State nproc} {i j k q : Fin nproc} {a : Action nproc}
  {events trace : List Event} {initproc : Fin nproc} {thread : Bool}

namespace Proc.Buries

theorem refl (p : Proc nproc) : p.Buries p := fun h => ⟨h, rfl, rfl⟩

theorem update {q : Proc nproc} (h : (s.proc k).Buries q) (j : Fin nproc) :
    (s.proc j).Buries (Function.update s.proc k q j) := by
  by_cases hj : j = k
  · rw [hj, Function.update_self]
    exact h
  · rw [Function.update_of_ne hj]
    exact refl _

theorem of_ne {p p' : Proc nproc} (h : p'.state ≠ .zombie) : p.Buries p' := fun hz => absurd hz h

theorem wakeup (ch : Option (Chan nproc)) (p : Proc nproc) : p.Buries (p.wakeup ch) := by
  unfold Proc.wakeup
  split_ifs with _ hsleeping
  · exact fun h => (nomatch h)
  · exact fun h => ⟨h, rfl, rfl⟩
  · exact refl p

theorem kill (p : Proc nproc) : p.Buries p.kill := by
  unfold Proc.kill
  split_ifs with hsleeping
  · exact fun h => (nomatch h)
  · exact fun h => ⟨h, rfl, rfl⟩

end Proc.Buries

/-! ## What a step keeps -/

theorem Clear.keep {n : ℕ} (h : Clear s q thread n) (hbury : ∀ z, (s.proc z).Buries (s'.proc z)) :
    Clear s' q thread n := by
  intro z hz hchild hzombie
  obtain ⟨hold, hparent, hthread⟩ := hbury z hzombie
  rw [isChild, hparent, hthread] at hchild
  exact h z hz hchild hold

theorem Clear.succ (h : Clear s q thread k)
    (hk : isChild s q thread k = true → (s.proc k).state ≠ .zombie) :
    Clear s q thread (k + 1) := by
  intro z hz
  rcases Nat.lt_succ_iff_lt_or_eq.mp hz with hlt | heq
  · exact h z hlt
  · obtain rfl := Fin.ext heq
    exact hk

theorem Pc.holdsWaitLock_of_hears {c : Pc nproc} (h : c.hears = true) : c.holdsWaitLock = true := by
  cases c with
  | wakeup ch k caller => cases caller <;> first | rfl | cases h
  | sleepPrepare w => cases w <;> first | rfl | cases h
  | scan _ _ _ => rfl
  | setZombie => rfl
  | _ => cases h

theorem heardAt_of_plain (h : (s.pc i).hears = false) : HeardAt s i := by
  constructor
  all_goals
    intros
    simp_all [Pc.hears]

theorem Locked.plain (h : Locked s) (hi : (s.pc i).holdsWaitLock = true) (hj : j ≠ i) :
    (s.pc j).hears = false := by
  cases hhears : (s.pc j).hears with
  | false => rfl
  | true => exact absurd (h.wait.eq (Pc.holdsWaitLock_of_hears hhears) hi) hj

/-- While another process holds `wait_lock`, nobody comes to wait for a child. -/
theorem WaitsBack.of_holder (h : WaitsBack s s') (hlocked : Locked s)
    (hi : (s.pc i).holdsWaitLock = true) (hpc : ∀ w, s.pc i ≠ .sleepPrepare w)
    (hq : ¬ Waits s q (.wait thread)) : ¬ Waits s' q (.wait thread) := by
  intro hwaits
  rcases h q _ hwaits with hold | hprepare
  · exact hq hold
  · have hiq := hlocked.wait.eq (by rw [hprepare]; rfl) hi
    exact hpc _ (hiq ▸ hprepare)

theorem HeardAt.other (h : HeardAt s j) (hlocked : Locked s) (hback : WaitsBack s s')
    (hbury : ∀ z, (s.proc z).Buries (s'.proc z)) (hpc : s'.pc j = s.pc j)
    (hparent : (s'.proc j).parent = (s.proc j).parent) : HeardAt s' j := by
  constructor
  · intro thread k havekids hj
    exact (h.scan thread k havekids (hpc ▸ hj)).keep hbury
  · intro thread hj
    exact (h.prepare thread (hpc ▸ hj)).keep hbury
  · intro ch k hj
    rw [hparent]
    exact h.channel ch k (hpc ▸ hj)
  · intro q k thread hj hk
    have hold : s.pc j = _ := hpc ▸ hj
    refine hback.of_holder (i := j) hlocked (by rw [hold]; rfl) ?_ (h.woken q k thread hold hk)
    intro w hw
    rw [hold] at hw
    cases hw
  · intro q thread hj hq
    have hold : s.pc j = _ := hpc ▸ hj
    rw [hparent] at hq
    refine hback.of_holder (i := j) hlocked (by rw [hold]; rfl) ?_ (h.zombie q thread hold hq)
    intro w hw
    rw [hold] at hw
    cases hw

/-- A step in which nobody dies, no child changes hands, and a wakeup that is due goes on. -/
theorem Heard.keep (h : Heard s) (hback : WaitsBack s s')
    (hbury : ∀ z, (s.proc z).Buries (s'.proc z))
    (hpass : ∀ q thread, Waking s q → Waits s' q (.wait thread) →
      Clear s' q thread nproc ∨ Waking s' q)
    (hpoint : ∀ j, HeardAt s' j) : Heard s' := by
  refine ⟨hpoint, ?_⟩
  intro q thread hwaits
  rcases hback q _ hwaits with hold | hprepare
  · rcases h.waits q thread hold with hclear | hwaking
    · exact Or.inl (hclear.keep hbury)
    · exact hpass q thread hwaking hwaits
  · exact Or.inl (((h.point q).prepare thread hprepare).keep hbury)

theorem Waking.of_ne {c : Pc nproc} (h : Waking s q) (hpc : s'.pc = Function.update s.pc i c)
    (hi : ∀ ch k j, s.pc i ≠ .wakeup ch k (.reparent j)) : Waking s' q := by
  obtain ⟨i', k, j, hpc', hk⟩ := h
  refine ⟨i', k, j, ?_, hk⟩
  have hne : i' ≠ i := by
    rintro rfl
    exact hi _ _ _ hpc'
  rw [hpc, Function.update_of_ne hne, hpc']

/-- The process in slot `i` moves, and nobody dies and no child changes hands. -/
theorem Heard.move {c : Pc nproc} (h : Heard s) (hlocked : Locked s) (hback : WaitsBack s s')
    (hpc : s'.pc = Function.update s.pc i c) (hbury : ∀ z, (s.proc z).Buries (s'.proc z))
    (hparent : ∀ j, j ≠ i → (s.pc j).hears = true → (s'.proc j).parent = (s.proc j).parent)
    (hi : ∀ ch k j, s.pc i ≠ .wakeup ch k (.reparent j))
    (hself : HeardAt s' i) : Heard s' := by
  refine h.keep hback hbury (fun q thread hwaking _ => Or.inr (hwaking.of_ne hpc hi)) ?_
  intro j
  by_cases hj : j = i
  · rw [hj]
    exact hself
  · have hpcj : s'.pc j = s.pc j := by rw [hpc, Function.update_of_ne hj]
    cases hhears : (s.pc j).hears with
    | true => exact (h.point j).other hlocked hback hbury hpcj (hparent j hj hhears)
    | false => exact heardAt_of_plain (hpcj ▸ hhears)

theorem Heard.still {p : Proc nproc} (h : Heard s) (hlocked : Locked s)
    (hback : WaitsBack s (s.setProc k p)) (hbury : (s.proc k).Buries p)
    (hparent : p.parent = (s.proc k).parent) : Heard (s.setProc k p) := by
  refine h.keep hback hbury.update (fun q thread hwaking _ => Or.inr hwaking) ?_
  intro j
  refine (h.point j).other hlocked hback hbury.update rfl ?_
  rw [setProc_proc]
  by_cases hj : j = k
  · rw [hj, Function.update_self, hparent]
  · rw [Function.update_of_ne hj]

theorem parent_update {p : Proc nproc} (hp : p.parent = (s.proc k).parent) (j : Fin nproc) :
    (Function.update s.proc k p j).parent = (s.proc j).parent := by
  by_cases hj : j = k
  · rw [hj, Function.update_self, hp]
  · rw [Function.update_of_ne hj]

theorem Proc.wakeup_parent (ch : Option (Chan nproc)) (p : Proc nproc) :
    (p.wakeup ch).parent = p.parent := by
  unfold Proc.wakeup
  split_ifs <;> rfl

theorem Locked.parent_update (h : Locked s) {p : Proc nproc} (hk : (s.proc k).state ≠ .running)
    (j : Fin nproc) (hj : (s.pc j).hears = true) :
    (Function.update s.proc k p j).parent = (s.proc j).parent := by
  have hjk : j ≠ k := by
    rintro rfl
    have hidle := (preemptible_iff.mp (h.idle j hk)).1
    rw [Pc.holdsWaitLock_of_hears hj] at hidle
    cases hidle
  rw [Function.update_of_ne hjk]

/-- The process in slot `i` moves on from a point that is not in the loop of `reparent` to
one of which nothing is said. -/
theorem Heard.plain {c : Pc nproc} (h : Heard s) (hlocked : Locked s) (hback : WaitsBack s s')
    (hpc : s'.pc = Function.update s.pc i c) (hc : c.hears = false)
    (hi : ∀ ch k j, s.pc i ≠ .wakeup ch k (.reparent j))
    (hbury : ∀ z, (s.proc z).Buries (s'.proc z))
    (hparent : ∀ j, (s.pc j).hears = true → (s'.proc j).parent = (s.proc j).parent) : Heard s' := by
  refine h.move hlocked hback hpc hbury (fun j _ => hparent j) hi (heardAt_of_plain ?_)
  rw [hpc, Function.update_self]
  exact hc

/-! ## The steps -/

theorem Entry.hears {call : Syscall} {c : Pc nproc} (h : Entry call c) : c.hears = false := by
  cases h <;> rfl

theorem Returns.not_reparent {c : Pc nproc} {call : Syscall} {r : ℤ} (h : Returns s i c call r)
    (ch : Option (Chan nproc)) (k j : ℕ) : c ≠ .wakeup ch k (.reparent j) := by
  cases h <;> exact fun hc => (nomatch hc)

theorem Heard.wokenUp {ch : Option (Chan nproc)} {n : ℕ} {caller : WakeupCaller} (h : Heard s)
    (hlocked : Locked s) (hback : WaitsBack s (s.setPc i caller.next))
    (hpc : s.pc i = .wakeup ch n caller) (hn : nproc ≤ n) : Heard (s.setPc i caller.next) := by
  have hbury : ∀ z : Fin nproc, (s.proc z).Buries (s.proc z) := fun _ => .refl _
  cases caller with
  | reparent j =>
      refine h.keep hback hbury ?_ ?_
      · -- everybody has been woken whom this call was to wake
        rintro q thread ⟨i', k, j', hpc', hk⟩ _
        refine Or.inr ⟨i', k, j', ?_, hk⟩
        have hne : i' ≠ i := by
          rintro rfl
          rw [hpc] at hpc'
          cases hpc'
          exact absurd q.isLt (Nat.not_lt.mpr (hn.trans hk))
        rw [setPc_pc, Function.update_of_ne hne, hpc']
      · intro j'
        by_cases hj : j' = i
        · refine heardAt_of_plain ?_
          rw [hj, setPc_pc, Function.update_self]
          rfl
        · have hpcj : (s.setPc i (.reparent (j + 1))).pc j' = s.pc j' := by
            rw [setPc_pc, Function.update_of_ne hj]
          exact (h.point j').other hlocked hback hbury hpcj rfl
  | kexit =>
      refine h.move hlocked hback rfl hbury (fun _ _ _ => rfl) ?_ ?_
      · intro ch' k j hpc'
        rw [hpc] at hpc'
        cases hpc'
      · have hnew : (s.setPc i .setZombie).pc i = .setZombie := by
          rw [setPc_pc, Function.update_self]
        constructor
        · intro thread k havekids hj
          cases hnew.symm.trans hj
        · intro thread hj
          cases hnew.symm.trans hj
        · intro ch k hj
          cases hnew.symm.trans hj
        · intro q k thread hj
          cases hnew.symm.trans hj
        · intro q thread _ hq
          rw [setPc_proc] at hq
          have hch : s.pc i = .wakeup (some (.proc q)) n .kexit := by
            rw [hpc, (h.point i).channel ch n hpc, hq]
            rfl
          refine hback.of_holder (i := i) hlocked (by rw [hpc]; rfl) ?_
            ((h.point i).woken q n thread hch (q.isLt.trans_le hn))
          intro w hw
          rw [hpc] at hw
          cases hw
  | semSignal id =>
      refine h.plain hlocked hback rfl rfl ?_ hbury fun _ _ => rfl
      intro ch' k j hpc'
      rw [hpc] at hpc'
      cases hpc'

theorem Heard.wakeup {ch : Option (Chan nproc)} {caller : WakeupCaller} (h : Heard s)
    (hlocked : Locked s) (hpc : s.pc i = .wakeup ch k caller)
    (hback : WaitsBack s ((s.setProc k ((s.proc k).wakeup ch)).setPc i
      (.wakeup ch (k + 1) caller))) :
    Heard ((s.setProc k ((s.proc k).wakeup ch)).setPc i (.wakeup ch (k + 1) caller)) := by
  have hbury := Proc.Buries.update (Proc.Buries.wakeup ch (s.proc k))
  have hparent := parent_update (Proc.wakeup_parent ch (s.proc k))
  have hprock : ((s.setProc k ((s.proc k).wakeup ch)).setPc i
      (.wakeup ch (k + 1) caller)).proc k = (s.proc k).wakeup ch := by
    rw [setPc_proc, setProc_proc, Function.update_self]
  cases caller with
  | reparent j =>
      refine h.keep hback hbury ?_ ?_
      · rintro q thread ⟨i', k', j', hpc', hk⟩ hwaits
        by_cases hi : i' = i
        · subst hi
          rw [hpc] at hpc'
          cases hpc'
          have hne : k.val ≠ q.val := by
            intro heq
            obtain rfl := Fin.ext heq
            exact not_waits_of_wakeup (w := .wait thread) hprock hwaits
          refine Or.inr ⟨i', k + 1, j, ?_, Nat.lt_of_le_of_ne hk hne⟩
          rw [setPc_pc, Function.update_self]
        · refine Or.inr ⟨i', k', j', ?_, hk⟩
          rw [setPc_pc, Function.update_of_ne hi, setProc_pc, hpc']
      · intro j'
        by_cases hj : j' = i
        · refine heardAt_of_plain ?_
          rw [hj, setPc_pc, Function.update_self]
          rfl
        · refine (h.point j').other hlocked hback hbury ?_ (hparent j')
          rw [setPc_pc, Function.update_of_ne hj, setProc_pc]
  | kexit =>
      refine h.move hlocked hback rfl hbury (fun j _ _ => hparent j) ?_ ?_
      · intro ch' k' j hpc'
        rw [hpc] at hpc'
        cases hpc'
      · have hnew : ((s.setProc k ((s.proc k).wakeup ch)).setPc i
            (.wakeup ch (k + 1) .kexit)).pc i = .wakeup ch (k + 1) .kexit := by
          rw [setPc_pc, Function.update_self]
        constructor
        · intro thread k' havekids hj
          cases hnew.symm.trans hj
        · intro thread hj
          cases hnew.symm.trans hj
        · intro ch' k' hj
          cases hnew.symm.trans hj
          have hi := hparent i
          rw [setPc_proc, setProc_proc, hi]
          exact (h.point i).channel ch k hpc
        · intro q k' thread hj hq
          cases hnew.symm.trans hj
          rcases Nat.lt_succ_iff_lt_or_eq.mp hq with hlt | heq
          · refine hback.of_holder (i := i) hlocked (by rw [hpc]; rfl) ?_
              ((h.point i).woken q k thread hpc hlt)
            intro w hw
            rw [hpc] at hw
            cases hw
          · obtain rfl := Fin.ext heq
            exact not_waits_of_wakeup (w := .wait thread) hprock
        · intro q thread hj
          cases hnew.symm.trans hj
  | semSignal id =>
      refine h.plain hlocked hback rfl rfl ?_ hbury fun j _ => hparent j
      intro ch' k' j hpc'
      rw [hpc] at hpc'
      cases hpc'

/-- A process in the loop of `kwait` or `kjoin` moves on to a point that says what it has
found. -/
theorem Heard.look {c : Pc nproc} (h : Heard s) (hlocked : Locked s)
    (hback : WaitsBack s s') (hpc : s'.pc = Function.update s.pc i c) (hproc : s'.proc = s.proc)
    (hi : ∀ ch k j, s.pc i ≠ .wakeup ch k (.reparent j))
    (hscan : ∀ thread k havekids, c = .scan thread k havekids → Clear s i thread k)
    (hprepare : ∀ thread, c = .sleepPrepare (.wait thread) → Clear s i thread nproc)
    (hkexit : ∀ ch k, c ≠ .wakeup ch k .kexit) (hzombie : c ≠ .setZombie) : Heard s' := by
  have hbury : ∀ z : Fin nproc, (s.proc z).Buries (s'.proc z) := by
    intro z
    rw [hproc]
    exact .refl _
  have hnew : s'.pc i = c := by rw [hpc, Function.update_self]
  refine h.move hlocked hback hpc hbury (fun j _ _ => by rw [hproc]) hi ⟨?_, ?_, ?_, ?_, ?_⟩
  · intro thread k havekids hj
    exact (hscan thread k havekids (hnew.symm.trans hj)).keep hbury
  · intro thread hj
    exact (hprepare thread (hnew.symm.trans hj)).keep hbury
  · intro ch k hj
    exact absurd (hnew.symm.trans hj) (hkexit ch k)
  · intro q k thread hj
    exact absurd (hnew.symm.trans hj) (hkexit _ k)
  · intro q thread hj
    exact absurd (hnew.symm.trans hj) hzombie

/-- The holder of `wait_lock` ends its process or gives a child away: the others stand at no
point of which anything is said, and nobody waits who has a dead child. -/
theorem heard_of_change {c : Pc nproc} (hlocked : Locked s)
    (hpc : s'.pc = Function.update s.pc i c) (hi : (s.pc i).holdsWaitLock = true)
    (hc : c.hears = false)
    (hwaits : ∀ q thread, Waits s' q (.wait thread) →
      Clear s' q thread nproc ∨ Waking s' q) : Heard s' := by
  refine ⟨?_, hwaits⟩
  intro j
  refine heardAt_of_plain ?_
  by_cases hj : j = i
  · rw [hj, hpc, Function.update_self]
    exact hc
  · rw [hpc, Function.update_of_ne hj]
    exact hlocked.plain hi hj

/-- Who waits while the lock is held outside of a wakeup by `reparent` has no dead child. -/
theorem Heard.clear_of_holder (h : Heard s) (hlocked : Locked s)
    (hi : (s.pc i).holdsWaitLock = true) (hne : ∀ ch k j, s.pc i ≠ .wakeup ch k (.reparent j))
    (hq : Waits s q (.wait thread)) : Clear s q thread nproc := by
  rcases h.waits q thread hq with hclear | ⟨i', k, j, hpc', _⟩
  · exact hclear
  · have hii := hlocked.wait.eq (by rw [hpc']; rfl) hi
    exact absurd (hii ▸ hpc') (hne _ _ _)

theorem Heard.setZombie (h : Heard s) (hlocked : Locked s) (hpc : s.pc i = .setZombie)
    (hback : WaitsBack s (((s.setProc i { s.proc i with state := .zombie }).setWaitLock
      none).setPc i .exited)) :
    Heard (((s.setProc i { s.proc i with state := .zombie }).setWaitLock none).setPc i
      .exited) := by
  have hi : (s.pc i).holdsWaitLock = true := congrArg Pc.holdsWaitLock hpc
  refine heard_of_change hlocked rfl hi rfl ?_
  intro q thread hwaits
  have hold : Waits s q (.wait thread) := by
    rcases hback q _ hwaits with hold | hprepare
    · exact hold
    · have hiq := hlocked.wait.eq (by rw [hprepare]; rfl) hi
      rw [hiq, hpc] at hprepare
      cases hprepare
  have hclear := h.clear_of_holder hlocked hi (fun ch k j hw => by cases hpc.symm.trans hw) hold
  left
  intro z hz hchild
  rw [isChild, setPc_proc, setWaitLock_proc, setProc_proc] at hchild
  by_cases hzi : z = i
  · -- the parent of the dying process has been woken
    subst hzi
    rw [Function.update_self, Bool.and_eq_true, decide_eq_true_eq] at hchild
    exact absurd hold ((h.point z).zombie q thread hpc hchild.1)
  · rw [Function.update_of_ne hzi] at hchild
    rw [setPc_proc, setWaitLock_proc, setProc_proc, Function.update_of_ne hzi]
    exact hclear z hz hchild

theorem Heard.reparent (h : Heard s) (hlocked : Locked s) (hpc : s.pc i = .reparent k)
    (hback : WaitsBack s ((s.setProc k { s.proc k with
      parent := some s.initproc
      detached := (s.proc k).isThread || (s.proc k).detached }).setPc i
        (.wakeup (some (.proc s.initproc)) 0 (.reparent k)))) :
    Heard ((s.setProc k { s.proc k with
      parent := some s.initproc
      detached := (s.proc k).isThread || (s.proc k).detached }).setPc i
        (.wakeup (some (.proc s.initproc)) 0 (.reparent k))) := by
  have hi : (s.pc i).holdsWaitLock = true := congrArg Pc.holdsWaitLock hpc
  refine heard_of_change hlocked rfl hi rfl ?_
  intro q thread hwaits
  by_cases hq : q = s.initproc
  · refine Or.inr ⟨i, 0, k, ?_, Nat.zero_le _⟩
    rw [setPc_pc, Function.update_self, hq]
  · have hold : Waits s q (.wait thread) := by
      rcases hback q _ hwaits with hold | hprepare
      · exact hold
      · have hiq := hlocked.wait.eq (by rw [hprepare]; rfl) hi
        rw [hiq, hpc] at hprepare
        cases hprepare
    have hclear := h.clear_of_holder hlocked hi (fun ch k j hw => by cases hpc.symm.trans hw) hold
    left
    intro z hz hchild
    rw [isChild, setPc_proc, setProc_proc] at hchild
    by_cases hzk : z = k
    · rw [hzk, Function.update_self, Bool.and_eq_true, decide_eq_true_eq] at hchild
      exact absurd (Option.some.inj hchild.1).symm hq
    · rw [Function.update_of_ne hzk] at hchild
      rw [setPc_proc, setProc_proc, Function.update_of_ne hzk]
      exact hclear z hz hchild

/-- A slot without a process is at no point of the invariant. -/
theorem Heard.alloc {n : ℕ} {t : Bool} (h : Heard s) (hlocked : Locked s)
    (hpc : s.pc i = .allocproc thread n) (hk : s.pc k = .user ∨ s.pc k = .exited)
    (hback : WaitsBack s (((s.nextPid.setProc k (.fresh s.nextpid thread)).setPc k .user).setPc i
      (.setParent t k))) :
    Heard (((s.nextPid.setProc k (.fresh s.nextpid thread)).setPc k .user).setPc i
      (.setParent t k)) := by
  have hbury : ∀ z, (s.proc z).Buries (Function.update s.proc k (.fresh s.nextpid thread) z) :=
    Proc.Buries.update (.of_ne fun hz => (nomatch hz))
  refine h.keep hback hbury ?_ ?_
  · rintro q t ⟨i', k', j', hpc', hk'⟩ _
    refine Or.inr ⟨i', k', j', ?_, hk'⟩
    have hi : i' ≠ i := by
      rintro rfl
      cases hpc.symm.trans hpc'
    have hik : i' ≠ k := by
      rintro rfl
      rcases hk with hk | hk <;> cases hk.symm.trans hpc'
    rw [setPc_pc, Function.update_of_ne hi, setPc_pc, Function.update_of_ne hik]
    exact hpc'
  · intro j
    by_cases hj : j = i
    · refine heardAt_of_plain ?_
      rw [hj, setPc_pc, Function.update_self]
      rfl
    · by_cases hjk : j = k
      · refine heardAt_of_plain ?_
        rw [hjk, setPc_pc, Function.update_of_ne (hjk ▸ hj), setPc_pc, Function.update_self]
        rfl
      · refine (h.point j).other hlocked hback hbury ?_ ?_
        · rw [setPc_pc, Function.update_of_ne hj, setPc_pc, Function.update_of_ne hjk]
          rfl
        · rw [setPc_proc, setPc_proc, setProc_proc, Function.update_of_ne hjk]
          rfl

/-- The steps that only move a process. -/
theorem Heard.goto {c : Pc nproc} (h : Heard s) (hlocked : Locked s)
    (hback : WaitsBack s (s.setPc i c)) (hgoto : Goto s i (s.pc i) c) : Heard (s.setPc i c) := by
  have hbury : ∀ z : Fin nproc, (s.proc z).Buries (s.proc z) := fun _ => .refl _
  have hplain : c.hears = false → (∀ ch k j, s.pc i ≠ .wakeup ch k (.reparent j)) →
      Heard (s.setPc i c) := fun hc hne =>
    h.plain hlocked hback rfl hc hne hbury fun _ _ => rfl
  cases hpc : s.pc i with
  | wakeup ch n caller =>
      rw [hpc] at hgoto
      cases hgoto with
      | wokenUp hn => exact h.wokenUp hlocked hback hpc hn
  | scan thread n havekids =>
      have hclear := (h.point i).scan thread n havekids hpc
      have hne : ∀ ch k j, s.pc i ≠ .wakeup ch k (.reparent j) := fun _ _ _ hw => by
        cases hpc.symm.trans hw
      rw [hpc] at hgoto
      cases hgoto with
      | scan hchild =>
          refine h.look hlocked hback rfl rfl hne ?_ (fun _ hc => (nomatch hc))
            (fun _ _ hc => (nomatch hc)) (fun hc => (nomatch hc))
          rintro _ _ _ ⟨⟩
          exact hclear.succ fun hk => absurd hk (by rw [hchild]; decide)
      | scanChild _ hzombie =>
          refine h.look hlocked hback rfl rfl hne ?_ (fun _ hc => (nomatch hc))
            (fun _ _ hc => (nomatch hc)) (fun hc => (nomatch hc))
          rintro _ _ _ ⟨⟩
          exact hclear.succ fun _ => hzombie
      | scanned hn _ =>
          refine h.look hlocked hback rfl rfl hne (fun _ _ _ hc => (nomatch hc)) ?_
            (fun _ _ hc => (nomatch hc)) (fun hc => (nomatch hc))
          rintro _ ⟨⟩
          exact fun z hz => hclear z (hz.trans_le hn)
  | reparent n =>
      have hne : ∀ ch k j, s.pc i ≠ .wakeup ch k (.reparent j) := fun _ _ _ hw => by
        cases hpc.symm.trans hw
      rw [hpc] at hgoto
      cases hgoto with
      | reparent _ => exact hplain rfl hne
      | reparented _ =>
          refine h.move hlocked hback rfl hbury (fun _ _ _ => rfl) hne ?_
          have hnew : (s.setPc i (.wakeup ((s.proc i).parent.map .proc) 0 .kexit)).pc i =
              .wakeup ((s.proc i).parent.map .proc) 0 .kexit := by
            rw [setPc_pc, Function.update_self]
          constructor
          · intro thread k havekids hj
            cases hnew.symm.trans hj
          · intro thread hj
            cases hnew.symm.trans hj
          · intro ch k hj
            cases hnew.symm.trans hj
            rfl
          · intro q k thread hj hq
            have hk : k = 0 := by
              have heq := hnew.symm.trans hj
              injection heq with _ hk _
              exact hk.symm
            exact absurd hq (by rw [hk]; exact Nat.not_lt_zero _)
          · intro q thread hj
            cases hnew.symm.trans hj
  | _ =>
      rw [hpc] at hgoto
      refine hplain ?_ fun _ _ _ hw => by cases hpc.symm.trans hw
      cases hgoto <;> rfl

theorem Stepped.heard (hstep : Stepped s a s' events) (hmaking : s.family.Making)
    (hlocked : Locked s) (hplaced : Placed s) (hregistered : ∀ j, Registered s j) (h : Heard s) :
    Heard s' := by
  have hback := hstep.waitsBack hregistered
  have hsame : ∀ z : Fin nproc, (s.proc z).Buries (s.proc z) := fun _ => .refl _
  have hne : ∀ {i : Fin nproc} {c : Pc nproc}, s.pc i = c →
      (∀ ch k j, c ≠ .wakeup ch k (.reparent j)) → ∀ ch k j, s.pc i ≠ .wakeup ch k (.reparent j) :=
    fun hpc hc ch k j hw => hc ch k j (hpc.symm.trans hw)
  cases hstep with
  | dispatch _ => exact h.still hlocked hback (.of_ne fun hz => (nomatch hz)) rfl
  | yield _ _ => exact h.still hlocked hback (.of_ne fun hz => (nomatch hz)) rfl
  | wakeOther => exact h.still hlocked hback (.wakeup _ _) (Proc.wakeup_parent _ _)
  | fault _ hpc =>
      refine h.plain hlocked hback rfl rfl (hne hpc fun _ _ _ hc => (nomatch hc)) ?_
        fun j _ => parent_update ?_ j
      · exact Proc.Buries.update fun hz => ⟨hz, rfl, rfl⟩
      · rfl
  | trap _ hpc _ hentry =>
      exact h.plain hlocked hback rfl hentry.hears (hne hpc fun _ _ _ hc => (nomatch hc)) hsame
        fun _ _ => rfl
  | goto _ hgoto => exact h.goto hlocked hback hgoto
  | returns _ hret =>
      exact h.plain hlocked hback rfl rfl hret.not_reparent hsame fun _ _ => rfl
  | allocFails _ hpc hunused =>
      refine h.plain hlocked hback rfl rfl (hne hpc fun _ _ _ hc => (nomatch hc)) ?_
        (hlocked.parent_update (ne_of_state hunused (by decide)))
      exact Proc.Buries.update (.of_ne fun hz => (nomatch hz))
  | alloc _ hpc hunused =>
      exact h.alloc hlocked hpc (hplaced _ (ne_live_of_state hunused (by decide))) hback
  | @setParent i np _ thread _ hpc hlock =>
      have hused : (s.proc np).state.phase = .used :=
        hmaking.used i np (congrArg (fun c => (Pc.duty c).child) hpc)
      refine h.plain hlocked hback rfl rfl (hne hpc fun _ _ _ hc => (nomatch hc)) ?_ ?_
      · refine Proc.Buries.update fun hz => ?_
        change (s.proc np).state = .zombie at hz
        rw [hz] at hused
        cases hused
      · intro j hj
        refine absurd (Pc.holdsWaitLock_of_hears hj) ?_
        exact (hlock ▸ hlocked.wait).not_inside
  | setRunnable _ hpc =>
      refine h.plain hlocked hback rfl rfl (hne hpc fun _ _ _ hc => (nomatch hc)) ?_
        fun j _ => parent_update ?_ j
      · exact Proc.Buries.update (.of_ne fun hz => (nomatch hz))
      · rfl
  | kexit _ hpc _ _ =>
      exact h.plain hlocked hback rfl rfl (hne hpc fun _ _ _ hc => (nomatch hc)) hsame
        fun _ _ => rfl
  | reparent _ hpc _ => exact h.reparent hlocked hpc hback
  | wakeup _ hpc => exact h.wakeup hlocked hpc hback
  | setZombie _ hpc => exact h.setZombie hlocked hpc hback
  | kwait _ hpc _ =>
      refine h.look hlocked hback rfl rfl (hne hpc fun _ _ _ hc => (nomatch hc)) ?_
        (fun _ hc => (nomatch hc)) (fun _ _ hc => (nomatch hc)) (fun hc => (nomatch hc))
      rintro _ _ _ ⟨⟩
      exact fun z hz => absurd hz (Nat.not_lt_zero _)
  | scanFails _ hpc =>
      exact h.plain hlocked hback rfl rfl (hne hpc fun _ _ _ hc => (nomatch hc)) hsame
        fun _ _ => rfl
  | reap _ hpc _ hzombie _ =>
      refine h.plain hlocked hback rfl rfl (hne hpc fun _ _ _ hc => (nomatch hc)) ?_
        (hlocked.parent_update (ne_of_state hzombie (by decide)))
      exact Proc.Buries.update (.of_ne fun hz => (nomatch hz))
  | @sleepPrepare i _ w _ hpc =>
      refine h.plain hlocked hback rfl rfl (hne hpc fun _ _ _ hc => (nomatch hc)) ?_
        fun j _ => parent_update ?_ j
      · exact Proc.Buries.update fun hz => ⟨hz, rfl, rfl⟩
      · rfl
  | releaseWait _ hpc =>
      exact h.plain hlocked hback rfl rfl (hne hpc fun _ _ _ hc => (nomatch hc)) hsame
        fun _ _ => rfl
  | releaseSem _ hpc =>
      exact h.plain hlocked hback rfl rfl (hne hpc fun _ _ _ hc => (nomatch hc)) hsame
        fun _ _ => rfl
  | @sleep i _ w hrun hpc =>
      have hsleep : (s.proc i).sleep.state ≠ .zombie ∧
          (s.proc i).sleep.parent = (s.proc i).parent := by
        unfold Proc.sleep
        split_ifs
        · exact ⟨ne_of_state hrun (by decide), rfl⟩
        · exact ⟨fun hz => (nomatch hz), rfl⟩
      refine h.plain hlocked hback rfl ?_ (hne hpc fun _ _ _ hc => (nomatch hc)) ?_
        fun j _ => parent_update hsleep.2 j
      · cases w <;> rfl
      · exact Proc.Buries.update (.of_ne hsleep.1)
  | kill _ hpc _ =>
      refine h.plain hlocked hback rfl rfl (hne hpc fun _ _ _ hc => (nomatch hc)) ?_
        fun j _ => parent_update ?_ j
      · exact Proc.Buries.update (.kill _)
      · rfl
  | semInit _ hpc _ =>
      exact h.plain hlocked hback rfl rfl (hne hpc fun _ _ _ hc => (nomatch hc)) hsame
        fun _ _ => rfl
  | semWait _ hpc _ _ =>
      exact h.plain hlocked hback rfl rfl (hne hpc fun _ _ _ hc => (nomatch hc)) hsame
        fun _ _ => rfl
  | semTake _ hpc _ =>
      exact h.plain hlocked hback rfl rfl (hne hpc fun _ _ _ hc => (nomatch hc)) hsame
        fun _ _ => rfl
  | semWoken _ hpc _ =>
      exact h.plain hlocked hback rfl rfl (hne hpc fun _ _ _ hc => (nomatch hc)) hsame
        fun _ _ => rfl
  | semKilled _ hpc _ =>
      exact h.plain hlocked hback rfl rfl (hne hpc fun _ _ _ hc => (nomatch hc)) hsame
        fun _ _ => rfl
  | semSignal _ hpc _ _ =>
      exact h.plain hlocked hback rfl rfl (hne hpc fun _ _ _ hc => (nomatch hc)) hsame
        fun _ _ => rfl
  | semSignaled _ hpc =>
      exact h.plain hlocked hback rfl rfl (hne hpc fun _ _ _ hc => (nomatch hc)) hsame
        fun _ _ => rfl

/-! ## Runs -/

variable {ok : List Event → State nproc → Action nproc → Prop}

theorem boot_heard (initproc : Fin nproc) : Heard (boot initproc) := by
  refine ⟨fun i => heardAt_of_plain rfl, ?_⟩
  rintro q thread ⟨_, hw | hw⟩ <;> cases hw
  rename_i hpc _
  cases hpc

theorem heard_of_run (h : Run step ok (boot initproc) trace s) : Heard s := by
  refine (invariant_of_run (I := fun _ s => Locked s ∧ Placed s ∧ (∀ i, Registered s i) ∧ Heard s)
    ⟨boot_locked initproc, fun _ _ => Or.inl rfl, boot_registered initproc, boot_heard initproc⟩
    ?_ h).2.2.2.2
  rintro _ s a s' events ho ⟨hlocked, hplaced, hregistered, hheard⟩ _ hstep
  exact ⟨hstep.locked ho.making hlocked, hstep.placed ho.making hplaced,
    fun i => (hstep.attends hregistered i).registered,
    hstep.heard ho.making hlocked hplaced hregistered hheard⟩

/-- While `wait_lock` is free, no process sleeps in `kwait` that has a dead child, and none
in `kjoin` that has a dead thread. -/
theorem no_exit_missed (h : Run step ok (boot initproc) trace s) (hlock : s.waitLock = none)
    (q z : Fin nproc) (hsleeping : (s.proc q).state = .sleeping)
    (hzombie : (s.proc z).state = .zombie) (hparent : (s.proc z).parent = some q) :
    s.pc q ≠ .kwait false ∧ ((s.proc z).isThread = true → s.pc q ≠ .kwait true) := by
  -- whoever sleeps in one of the two calls has no dead child that the call would take
  have hclear : ∀ thread, s.pc q = .kwait thread → isChild s q thread z = false := by
    intro thread hpc
    obtain ⟨w, hw, hwaits⟩ := (registered_of_run h q).waits hsleeping
    obtain rfl : w = .wait thread := by
      cases w <;> cases hw.symm.trans hpc
      rfl
    rcases (heard_of_run h).waits q thread hwaits with hc | ⟨i, k, j, hi, _⟩
    · cases hchild : isChild s q thread z with
      | false => rfl
      | true => exact absurd hzombie (hc z z.isLt hchild)
    · have hlocked := hlock ▸ (locked_of_run h).wait
      exact absurd (congrArg Pc.holdsWaitLock hi) hlocked.not_inside
  constructor
  · intro hpc
    simpa [isChild, hparent] using hclear false hpc
  · intro hthread hpc
    simpa [isChild, hparent, hthread] using hclear true hpc

/-- The first process forks, clones a thread and sleeps in `join()`. Its child exits and wakes
it, and it goes back to sleep, as the thread is still there. -/
def joinThrough : List (Action 3) :=
  forkFirst ++ [.trap 0 .clone] ++ go 0 7 ++ [.trap 0 .join] ++ go 0 8 ++
    [.trap 1 .exit] ++ go 1 10 ++ [.dispatch 0] ++ go 0 8

theorem no_exit_missed_joinThrough : ∃ trace s,
    Run step (fun _ _ _ => True) (boot (0 : Fin 3)) trace s ∧ s.pc 0 = .kwait true ∧
      (s.proc 0).state = .sleeping ∧ (s.proc 1).state = .zombie ∧ (s.proc 1).isThread ≠ true := by
  have htest : (exec step (fun _ _ _ => True) joinThrough [] (boot (0 : Fin 3))).any
      (fun r => decide (r.2.waitLock = none) && decide (r.2.pc 0 = .kwait true) &&
        decide ((r.2.proc 0).state = .sleeping) && decide ((r.2.proc 1).state = .zombie) &&
        decide ((r.2.proc 1).parent = some 0)) = true := by decide +kernel
  obtain ⟨trace, s, hrun, hs⟩ := exists_run htest
  simp only [Bool.and_eq_true, decide_eq_true_eq] at hs
  obtain ⟨⟨⟨⟨hlock, hpc⟩, hsleeping⟩, hzombie⟩, hparent⟩ := hs
  exact ⟨trace, s, hrun, hpc, hsleeping, hzombie, fun hthread =>
    (no_exit_missed hrun hlock 0 1 hsleeping hzombie hparent).2 hthread hpc⟩

end Process
