import OsAssignments.Process.Table

/-!
# The family of processes

What the process table is for, without the kernel around it. A member of the family is
in the making, alive or a zombie, has a pid and may have a parent, and has at most one
`Duty`: to adopt and then to start the child it has made, to sweep the table for its
children when it exits, and to be buried. `Family.Step` is the whole of what the members
can do to each other. A step is labelled with its `Deed`, so that a result can say what
it assumes of the exits and of the reaping.
-/

namespace Process

variable {nproc : ℕ}

inductive Phase
  | unused
  | used
  | live
  | zombie
  deriving DecidableEq

structure Member (nproc : ℕ) where
  phase : Phase
  pid : ℤ
  isThread : Bool
  detached : Bool
  parent : Option (Fin nproc)

namespace Member

def free : Member nproc := ⟨.unused, 0, false, false, none⟩

def fresh (pid : ℤ) (thread : Bool) : Member nproc := ⟨.used, pid, thread, false, none⟩

end Member

/-- What a member of the family has begun and must go on with. -/
inductive Duty (nproc : ℕ)
  | idle
  | adopt (thread : Bool) (np : Fin nproc)
  | start (thread : Bool) (np : Fin nproc)
  | sweep (k : ℕ)
  | bury

structure Family (nproc : ℕ) where
  member : Fin nproc → Member nproc
  duty : Fin nproc → Duty nproc
  nextpid : ℤ
  initproc : Fin nproc

def Syscall.isKin : Syscall → Bool
  | fork => true
  | clone => true
  | wait => true
  | join => true
  | _ => false

inductive Deed (nproc : ℕ)
  | other
  | exit (i : Fin nproc)
  | reap (i : Fin nproc) (thread : Bool) (k : Fin nproc)

namespace Family

/-- `t` is a child that `i` leaves to the first process when it exits. -/
def Abandoned (F : Family nproc) (i t : Fin nproc) : Prop :=
  (F.member t).parent = some i ∧ ((F.member t).isThread = false ∨ (F.member t).detached = true)

/-- `t` is a child that a call of `wait` or of `join` by `i` looks at. -/
def Child (F : Family nproc) (i : Fin nproc) (thread : Bool) (t : Fin nproc) : Prop :=
  (F.member t).parent = some i ∧ (thread = true → (F.member t).isThread = true)

@[simps] def setMember (F : Family nproc) (k : Fin nproc) (m : Member nproc) : Family nproc :=
  { F with member := Function.update F.member k m }

@[simps] def setDuty (F : Family nproc) (i : Fin nproc) (c : Duty nproc) : Family nproc :=
  { F with duty := Function.update F.duty i c }

@[simps] def nextPid (F : Family nproc) : Family nproc := { F with nextpid := F.nextpid + 1 }

/-- The steps of a family. -/
inductive Step (F : Family nproc) : Deed nproc → Family nproc → List Event → Prop
  | quiet {events : List Event} :
      (∀ e ∈ events, (∃ i, (F.member i).phase = .live ∧ e.pid = (F.member i).pid) ∧
        (e.call.isKin = true → e.ret = -1)) →
      Step F .other F events
  | allocFails {i k : Fin nproc} {thread : Bool} : (F.member i).phase = .live →
      (F.member k).phase = .unused →
      Step F .other (F.nextPid.setMember k .free) [⟨(F.member i).pid, forkCall thread, -1⟩]
  | alloc {i k : Fin nproc} {thread : Bool} : (F.member i).phase = .live → F.duty i = .idle →
      (F.member k).phase = .unused →
      Step F .other (((F.nextPid.setMember k (.fresh F.nextpid thread)).setDuty k .idle).setDuty i
        (.adopt thread k)) []
  | adopt {i np : Fin nproc} {thread : Bool} : (F.member i).phase = .live →
      F.duty i = .adopt thread np →
      Step F .other ((F.setMember np { F.member np with parent := some i }).setDuty i
        (.start thread np)) []
  | start {i np : Fin nproc} {thread : Bool} : (F.member i).phase = .live →
      F.duty i = .start thread np →
      Step F .other ((F.setMember np { F.member np with phase := .live }).setDuty i .idle)
        [⟨(F.member i).pid, forkCall thread, (F.member np).pid⟩]
  | exit {i : Fin nproc} : (F.member i).phase = .live → F.duty i = .idle → i ≠ F.initproc →
      Step F (.exit i) (F.setDuty i (.sweep 0)) []
  | skip {i k : Fin nproc} : F.duty i = .sweep k → ¬ F.Abandoned i k →
      Step F .other (F.setDuty i (.sweep (k + 1))) []
  | pass {i k : Fin nproc} : F.duty i = .sweep k → F.Abandoned i k →
      Step F .other ((F.setMember k { F.member k with
        parent := some F.initproc
        detached := (F.member k).isThread || (F.member k).detached }).setDuty i
          (.sweep (k + 1))) []
  | swept {i : Fin nproc} {k : ℕ} : F.duty i = .sweep k → nproc ≤ k →
      Step F .other (F.setDuty i .bury) []
  | die {i : Fin nproc} : (F.member i).phase = .live → F.duty i = .bury →
      Step F .other ((F.setMember i { F.member i with phase := .zombie }).setDuty i .idle) []
  | reap {i k : Fin nproc} {thread : Bool} : (F.member i).phase = .live → F.duty i = .idle →
      F.Child i thread k → (F.member k).phase = .zombie →
      Step F (.reap i thread k) (F.setMember k .free)
        [⟨(F.member i).pid, waitCall thread, (F.member k).pid⟩]

end Family

open Family

/-! ## Children in the making -/

def Duty.child : Duty nproc → Option (Fin nproc)
  | adopt _ np => some np
  | start _ np => some np
  | _ => none

/-- A child in the making is `USED` and has one creator, is a thread when its creator means
it to be one, and has its creator for its parent from its adoption on. -/
structure Family.Making (F : Family nproc) : Prop where
  used : ∀ i np, (F.duty i).child = some np → (F.member np).phase = .used
  unique : ∀ i j np, (F.duty i).child = some np → (F.duty j).child = some np → i = j
  thread : ∀ i np thread, F.duty i = .adopt thread np ∨ F.duty i = .start thread np →
    (F.member np).isThread = thread
  parent : ∀ i np thread, F.duty i = .start thread np → (F.member np).parent = some i

section Making

variable {F F' : Family nproc} {i : Fin nproc} {events : List Event}

theorem Family.Making.keep (h : F.Making)
    (hduty : ∀ j, F'.duty j = F.duty j ∨ (F'.duty j).child = none)
    (hmember : ∀ j np, (F.duty j).child = some np → F'.duty j = F.duty j →
      (F'.member np).phase = .used ∧ (F'.member np).isThread = (F.member np).isThread ∧
        ((∃ thread, F.duty j = .start thread np) → (F'.member np).parent = some j)) :
    F'.Making := by
  have hold : ∀ j np, (F'.duty j).child = some np → F'.duty j = F.duty j := by
    intro j np hj
    refine (hduty j).resolve_right ?_
    rw [hj]
    exact Option.some_ne_none np
  constructor
  · intro j np hj
    have heq := hold j np hj
    exact (hmember j np (heq ▸ hj) heq).1
  · intro j j' np hj hj'
    exact h.unique j j' np (hold j np hj ▸ hj) (hold j' np hj' ▸ hj')
  · intro j np thread hj
    have hchild : (F'.duty j).child = some np :=
      hj.elim (fun hj => congrArg Duty.child hj) fun hj => congrArg Duty.child hj
    have heq := hold j np hchild
    rw [(hmember j np (heq ▸ hchild) heq).2.1]
    exact h.thread j np thread (heq ▸ hj)
  · intro j np thread hj
    have hchild : (F'.duty j).child = some np := congrArg Duty.child hj
    have heq := hold j np hchild
    exact (hmember j np (heq ▸ hchild) heq).2.2 ⟨thread, heq ▸ hj⟩

theorem duty_update {c : Duty nproc} (hc : c.child = none) (j : Fin nproc) :
    Function.update F.duty i c j = F.duty j ∨ (Function.update F.duty i c j).child = none := by
  by_cases hj : j = i
  · exact Or.inr (by rw [hj, Function.update_self, hc])
  · exact Or.inl (Function.update_of_ne hj _ _)

theorem Family.Making.member_update {k : Fin nproc} {m : Member nproc} (h : F.Making)
    (hk : (F.member k).phase ≠ .used) (j np : Fin nproc) (hj : (F.duty j).child = some np) :
    (Function.update F.member k m np).phase = .used ∧
      (Function.update F.member k m np).isThread = (F.member np).isThread ∧
        ((∃ thread, F.duty j = .start thread np) →
          (Function.update F.member k m np).parent = some j) := by
  have hused := h.used j np hj
  have hne : np ≠ k := by
    rintro rfl
    exact hk hused
  rw [Function.update_of_ne hne]
  exact ⟨hused, rfl, fun ⟨thread, hstart⟩ => h.parent j np thread hstart⟩

theorem Family.Making.same (h : F.Making) (j np : Fin nproc)
    (hj : (F.duty j).child = some np) :
    (F.member np).phase = .used ∧ (F.member np).isThread = (F.member np).isThread ∧
      ((∃ thread, F.duty j = .start thread np) → (F.member np).parent = some j) :=
  ⟨h.used j np hj, rfl, fun ⟨thread, hstart⟩ => h.parent j np thread hstart⟩

theorem ne_of_phase {m : Member nproc} {x y : Phase} (h : m.phase = x)
    (hxy : x ≠ y) : m.phase ≠ y := by
  rwa [h]

theorem Family.Making.alloc {k : Fin nproc} {thread : Bool} (h : F.Making)
    (hk : (F.member k).phase = .unused) :
    (((F.nextPid.setMember k (.fresh F.nextpid thread)).setDuty k .idle).setDuty i
      (.adopt thread k)).Making := by
  -- the slot `k` was nobody's child, and a duty of another member is an old one
  have hold : ∀ j np, j ≠ i → (Function.update (Function.update F.duty k .idle) i
      (.adopt thread k) j).child = some np →
      Function.update (Function.update F.duty k .idle) i (.adopt thread k) j = F.duty j ∧
        np ≠ k := by
    intro j np hij hj
    rw [Function.update_of_ne hij] at hj ⊢
    have heq := (duty_update (F := F) (i := k) (c := .idle) rfl j).resolve_right
      (by rw [hj]; exact Option.some_ne_none np)
    refine ⟨heq, ?_⟩
    rintro rfl
    rw [heq] at hj
    rw [h.used j np hj] at hk
    cases hk
  have hself : ∀ np, (Function.update (Function.update F.duty k .idle) i
      (.adopt thread k) i).child = some np → np = k := by
    intro np hnp
    rw [Function.update_self] at hnp
    exact (Option.some.inj hnp).symm
  constructor <;> simp only [setDuty_duty, setDuty_member, setMember_member]
  · intro j np hj
    by_cases hij : j = i
    · subst hij
      rw [hself np hj, Function.update_self]
      rfl
    · obtain ⟨heq, hne⟩ := hold j np hij hj
      rw [Function.update_of_ne hne]
      exact h.used j np (heq ▸ hj)
  · intro j j' np hj hj'
    by_cases hij : j = i <;> by_cases hij' : j' = i
    · rw [hij, hij']
    · subst hij
      exact absurd (hself np hj) (hold j' np hij' hj').2
    · subst hij'
      exact absurd (hself np hj') (hold j np hij hj).2
    · exact h.unique j j' np ((hold j np hij hj).1 ▸ hj) ((hold j' np hij' hj').1 ▸ hj')
  · intro j np th hj
    have hchild : (Function.update (Function.update F.duty k .idle) i
        (.adopt thread k) j).child = some np :=
      hj.elim (fun hj => congrArg Duty.child hj) fun hj => congrArg Duty.child hj
    by_cases hij : j = i
    · subst hij
      rw [hself np hchild, Function.update_self]
      rw [Function.update_self] at hj
      rcases hj with hj | hj <;> cases hj
      rfl
    · obtain ⟨heq, hne⟩ := hold j np hij hchild
      rw [Function.update_of_ne hne]
      exact h.thread j np th (heq ▸ hj)
  · intro j np th hj
    by_cases hij : j = i
    · subst hij
      rw [Function.update_self] at hj
      cases hj
    · obtain ⟨heq, hne⟩ := hold j np hij (congrArg Duty.child hj)
      rw [Function.update_of_ne hne]
      exact h.parent j np th (heq ▸ hj)

theorem Family.Making.adopt {np : Fin nproc} {thread : Bool} (h : F.Making)
    (hduty : F.duty i = .adopt thread np) :
    ((F.setMember np { F.member np with parent := some i }).setDuty i
      (.start thread np)).Making := by
  have hi : (F.duty i).child = some np := congrArg Duty.child hduty
  have hchild : ∀ j, (Function.update F.duty i (.start thread np) j).child = (F.duty j).child := by
    intro j
    by_cases hj : j = i
    · rw [hj, Function.update_self, hi]
      rfl
    · rw [Function.update_of_ne hj]
  -- what one of the other members is making is not `np`
  have hother : ∀ j k, j ≠ i → (F.duty j).child = some k → k ≠ np := by
    rintro j k hij hj rfl
    exact hij (h.unique j i k hj hi)
  constructor <;> simp only [setDuty_duty, setDuty_member, setMember_member]
  · intro j k hj
    have hused := h.used j k ((hchild j).symm.trans hj)
    by_cases hk : k = np
    · subst hk
      rw [Function.update_self]
      exact hused
    · rwa [Function.update_of_ne hk]
  · intro j j' k hj hj'
    exact h.unique j j' k ((hchild j).symm.trans hj) ((hchild j').symm.trans hj')
  · intro j k th hj
    by_cases hij : j = i
    · subst hij
      rw [Function.update_self] at hj
      rcases hj with hj | hj <;> cases hj
      rw [Function.update_self]
      exact h.thread j np thread (Or.inl hduty)
    · rw [Function.update_of_ne hij] at hj
      have hk := hother j k hij
        (hj.elim (fun hj => congrArg Duty.child hj) fun hj => congrArg Duty.child hj)
      rw [Function.update_of_ne hk]
      exact h.thread j k th hj
  · intro j k th hj
    by_cases hij : j = i
    · subst hij
      rw [Function.update_self] at hj
      cases hj
      rw [Function.update_self]
    · rw [Function.update_of_ne hij] at hj
      rw [Function.update_of_ne (hother j k hij (congrArg Duty.child hj))]
      exact h.parent j k th hj

theorem Family.Making.step {d : Deed nproc} (h : F.Making) (hstep : F.Step d F' events) :
    F'.Making := by
  cases hstep with
  | quiet _ => exact h
  | allocFails _ hk =>
      exact h.keep (fun _ => Or.inl rfl) fun j np hj _ =>
        h.member_update (ne_of_phase hk (by decide)) j np hj
  | alloc _ _ hk => exact h.alloc hk
  | adopt _ hduty => exact h.adopt hduty
  | @start i np thread _ hduty =>
      refine h.keep (duty_update rfl) ?_
      intro j k hj heq
      have hne : k ≠ np := by
        rintro rfl
        obtain rfl := h.unique j i k hj (congrArg Duty.child hduty)
        rw [← heq, setDuty_duty, Function.update_self] at hj
        cases hj
      rw [setDuty_member, setMember_member, Function.update_of_ne hne]
      exact h.same j k hj
  | @pass i k hduty habandoned =>
      refine h.keep (duty_update rfl) ?_
      intro j np hj _
      have hsame := h.same j np hj
      rw [setDuty_member, setMember_member]
      by_cases hnp : np = k
      · subst hnp
        rw [Function.update_self]
        refine ⟨hsame.1, rfl, fun hstart => ?_⟩
        -- the parent of `np` would be both its creator and the member that sweeps
        obtain rfl := Option.some.inj ((hsame.2.2 hstart).symm.trans habandoned.1)
        rw [hduty] at hj
        cases hj
      · rw [Function.update_of_ne hnp]
        exact hsame
  | die hi _ =>
      exact h.keep (duty_update rfl) fun j np hj _ =>
        h.member_update (ne_of_phase hi (by decide)) j np hj
  | reap _ _ _ hk =>
      exact h.keep (fun _ => Or.inl rfl) fun j np hj _ =>
        h.member_update (ne_of_phase hk (by decide)) j np hj
  | _ => exact h.keep (duty_update rfl) fun j np hj _ => h.same j np hj

end Making

/-! ## The first process -/

/-- How much of the table has been swept for the children of a member that exits. -/
def Duty.swept : Duty nproc → Option ℕ
  | sweep k => some k
  | bury => some nproc
  | _ => none

/-- The first process is alive, has the first pid, and never exits. -/
structure Family.Rooted (F : Family nproc) : Prop where
  root : (F.member F.initproc).phase = .live
  pid : (F.member F.initproc).pid = 1
  stays : ∀ i m, (F.duty i).swept = some m → i ≠ F.initproc

section Rooted

variable {F F' : Family nproc} {i k : Fin nproc} {events : List Event} {d : Deed nproc}

theorem swept_update {c : Duty nproc} {j : Fin nproc} {m : ℕ}
    (hj : (Function.update F.duty i c j).swept = some m) :
    j ≠ i ∧ (F.duty j).swept = some m ∨ j = i ∧ c.swept = some m := by
  by_cases hji : j = i
  · subst hji
    rw [Function.update_self] at hj
    exact Or.inr ⟨rfl, hj⟩
  · rw [Function.update_of_ne hji] at hj
    exact Or.inl ⟨hji, hj⟩

theorem Family.Rooted.setDuty {c : Duty nproc} (h : F.Rooted)
    (hc : ∀ m, c.swept = some m → i ≠ F.initproc) : (F.setDuty i c).Rooted := by
  refine ⟨h.root, h.pid, ?_⟩
  intro j m hj
  rcases swept_update hj with ⟨_, hj⟩ | ⟨rfl, hm⟩
  · exact h.stays j m hj
  · exact hc m hm

theorem Family.Rooted.setMember {m : Member nproc} (h : F.Rooted)
    (hm : k = F.initproc → m.phase = .live ∧ m.pid = (F.member k).pid) :
    (F.setMember k m).Rooted := by
  by_cases hk : F.initproc = k
  · obtain ⟨hphase, hpid⟩ := hm hk.symm
    refine ⟨?_, ?_, h.stays⟩
    · rw [setMember_member, setMember_initproc, hk, Function.update_self]
      exact hphase
    · rw [setMember_member, setMember_initproc, hk, Function.update_self, hpid, ← hk]
      exact h.pid
  · refine ⟨?_, ?_, h.stays⟩
    · rw [setMember_member, setMember_initproc, Function.update_of_ne hk]
      exact h.root
    · rw [setMember_member, setMember_initproc, Function.update_of_ne hk]
      exact h.pid

theorem Family.Rooted.ne_root (h : F.Rooted) (hk : (F.member k).phase ≠ .live) :
    k ≠ F.initproc := by
  rintro rfl
  exact hk h.root

theorem Family.Rooted.step (h : F.Rooted) (hstep : F.Step d F' events) : F'.Rooted := by
  have hnext : F.nextPid.Rooted := ⟨h.root, h.pid, h.stays⟩
  cases hstep with
  | quiet _ => exact h
  | allocFails _ hk =>
      exact hnext.setMember fun heq => absurd heq (h.ne_root (ne_of_phase hk (by decide)))
  | alloc _ _ hk =>
      refine Rooted.setDuty (Rooted.setDuty (hnext.setMember fun heq => ?_) ?_) ?_
      · exact absurd heq (h.ne_root (ne_of_phase hk (by decide)))
      · exact fun _ hm => (nomatch hm)
      · exact fun _ hm => (nomatch hm)
  | @adopt i np thread _ _ =>
      refine Rooted.setDuty (h.setMember fun heq => ?_) fun _ hm => (nomatch hm)
      rw [heq]
      exact ⟨h.root, rfl⟩
  | start _ _ =>
      exact Rooted.setDuty (h.setMember fun _ => ⟨rfl, rfl⟩) fun _ hm => (nomatch hm)
  | exit _ _ hinit => exact h.setDuty fun _ _ => hinit
  | skip hduty _ => exact h.setDuty fun _ _ => h.stays _ _ (congrArg Duty.swept hduty)
  | @pass i k hduty _ =>
      refine Rooted.setDuty (h.setMember fun heq => ?_) ?_
      · rw [heq]
        exact ⟨h.root, rfl⟩
      · exact fun _ _ => h.stays _ _ (congrArg Duty.swept hduty)
  | swept hduty _ => exact h.setDuty fun _ _ => h.stays _ _ (congrArg Duty.swept hduty)
  | die _ hduty =>
      refine Rooted.setDuty (h.setMember fun heq => ?_) fun _ hm => (nomatch hm)
      exact absurd heq (h.stays _ _ (congrArg Duty.swept hduty))
  | reap _ _ _ hk =>
      exact h.setMember fun heq => absurd heq (h.ne_root (ne_of_phase hk (by decide)))

end Rooted

/-! ## Creations -/

/-- The process `p` has created the process `c` by `fork`, or the thread `c` by `clone`. -/
def Created (trace : List Event) (p : ℤ) (thread : Bool) (c : ℤ) : Prop :=
  ⟨p, forkCall thread, c⟩ ∈ trace ∧ c ≠ -1

section Created

variable {trace events : List Event} {p q c : ℤ} {thread thread' : Bool}

theorem forkCall_isKin (thread : Bool) : (forkCall thread).isKin = true := by
  cases thread <;> rfl

theorem waitCall_isKin (thread : Bool) : (waitCall thread).isKin = true := by
  cases thread <;> rfl

theorem forkCall_injective : Function.Injective forkCall := by
  intro x y hxy
  cases x <;> cases y <;> first | rfl | cases hxy

theorem waitCall_injective : Function.Injective waitCall := by
  intro x y hxy
  cases x <;> cases y <;> first | rfl | cases hxy

theorem forkCall_ne_waitCall (x y : Bool) : forkCall x ≠ waitCall y := by
  cases x <;> cases y <;> intro h <;> cases h

theorem created_append :
    Created (trace ++ events) p thread c ↔
      Created trace p thread c ∨ Created events p thread c := by
  simp only [Created, List.mem_append, or_and_right]

theorem Created.append (h : Created trace p thread c) : Created (trace ++ events) p thread c :=
  created_append.mpr (Or.inl h)

theorem created_fork {c' : ℤ} :
    Created [⟨q, forkCall thread', c'⟩] p thread c ↔
      (p = q ∧ thread = thread' ∧ c = c') ∧ c ≠ -1 := by
  simp only [Created, List.mem_singleton, Event.mk.injEq, forkCall_injective.eq_iff]

theorem not_created_wait {c' : ℤ} : ¬ Created [⟨q, waitCall thread', c'⟩] p thread c := by
  simp only [Created, List.mem_singleton, Event.mk.injEq, forkCall_ne_waitCall, false_and, and_false,
    not_false_eq_true]

end Created

/-! ## Process identifiers -/

/-- The members that are not `UNUSED` have different pids, and no process has two
creators. -/
structure Numbered (trace : List Event) (F : Family nproc) : Prop where
  pid : ∀ i, (F.member i).phase ≠ .unused → 0 < (F.member i).pid ∧ (F.member i).pid < F.nextpid
  unique : ∀ i j, (F.member i).phase ≠ .unused → (F.member j).phase ≠ .unused →
    (F.member i).pid = (F.member j).pid → i = j
  next : 0 < F.nextpid ∧ ∀ e ∈ trace, e.pid < F.nextpid
  created : ∀ p thread c, Created trace p thread c → c < F.nextpid
  unborn : ∀ i, (F.member i).phase = .used → ∀ p thread, ¬ Created trace p thread (F.member i).pid
  creator : ∀ p q c thread thread', Created trace p thread c → Created trace q thread' c →
    p = q ∧ thread = thread'

/-- A member that goes on as it is, as far as pids are concerned, or becomes free. -/
def Member.Keeps (m m' : Member nproc) : Prop :=
  m'.phase ≠ .unused → m.phase ≠ .unused ∧ m'.pid = m.pid ∧ (m'.phase = .used → m.phase = .used)

section Numbered

variable {F F' : Family nproc} {trace events : List Event}

theorem Member.Keeps.refl (m : Member nproc) : m.Keeps m := fun h => ⟨h, rfl, id⟩

theorem Member.Keeps.update {k : Fin nproc} {m : Member nproc} (h : (F.member k).Keeps m)
    (j : Fin nproc) : (F.member j).Keeps (Function.update F.member k m j) := by
  by_cases hj : j = k
  · rw [hj, Function.update_self]
    exact h
  · rw [Function.update_of_ne hj]
    exact .refl _

theorem Family.Step.pid_eq {d : Deed nproc} {j : Fin nproc} (h : F.Step d F' events)
    (hj : (F.member j).phase = .live) : (F'.member j).pid = (F.member j).pid := by
  have hupdate : ∀ {k : Fin nproc} {m : Member nproc},
      (F.member k).phase ≠ .live ∨ m.pid = (F.member k).pid →
      (Function.update F.member k m j).pid = (F.member j).pid := by
    intro k m hor
    by_cases hjk : j = k
    · subst hjk
      rw [Function.update_self]
      exact hor.resolve_left fun hne => hne hj
    · rw [Function.update_of_ne hjk]
  cases h with
  | allocFails _ hk => exact hupdate (Or.inl (ne_of_phase hk (by decide)))
  | alloc _ _ hk => exact hupdate (Or.inl (ne_of_phase hk (by decide)))
  | adopt _ _ => exact hupdate (Or.inr rfl)
  | start _ _ => exact hupdate (Or.inr rfl)
  | pass _ _ => exact hupdate (Or.inr rfl)
  | die _ _ => exact hupdate (Or.inr rfl)
  | reap _ _ _ hk => exact hupdate (Or.inl (ne_of_phase hk (by decide)))
  | _ => rfl

theorem Numbered.keep (h : Numbered trace F) (hmember : ∀ j, (F.member j).Keeps (F'.member j))
    (hnext : F.nextpid ≤ F'.nextpid) (hpid : ∀ e ∈ events, e.pid < F.nextpid)
    (hnot : ∀ p thread c, ¬ Created events p thread c) : Numbered (trace ++ events) F' := by
  have hold : ∀ p thread c, Created (trace ++ events) p thread c → Created trace p thread c :=
    fun p thread c hc => (created_append.mp hc).resolve_right (hnot p thread c)
  constructor
  · intro i hi
    obtain ⟨hi', heq, _⟩ := hmember i hi
    rw [heq]
    exact ⟨(h.pid i hi').1, (h.pid i hi').2.trans_le hnext⟩
  · intro i j hi hj heq
    obtain ⟨hi', hieq, _⟩ := hmember i hi
    obtain ⟨hj', hjeq, _⟩ := hmember j hj
    exact h.unique i j hi' hj' (hieq ▸ hjeq ▸ heq)
  · refine ⟨h.next.1.trans_le hnext, ?_⟩
    intro e he
    rcases List.mem_append.mp he with he | he
    · exact (h.next.2 e he).trans_le hnext
    · exact (hpid e he).trans_le hnext
  · intro p thread c hc
    exact (h.created p thread c (hold p thread c hc)).trans_le hnext
  · intro i hi p thread hc
    obtain ⟨_, heq, hused⟩ := hmember i (by rw [hi]; decide)
    rw [heq] at hc
    exact h.unborn i (hused hi) p thread (hold _ _ _ hc)
  · intro p q c thread thread' hp hq
    exact h.creator p q c thread thread' (hold _ _ _ hp) (hold _ _ _ hq)

theorem Numbered.pid_lt {i : Fin nproc} (h : Numbered trace F) (hi : (F.member i).phase = .live) :
    (F.member i).pid < F.nextpid :=
  (h.pid i (by rw [hi]; decide)).2

theorem Numbered.ne_neg_one {i : Fin nproc} (h : Numbered trace F)
    (hi : (F.member i).phase ≠ .unused) : (F.member i).pid ≠ -1 := by
  have := (h.pid i hi).1
  omega

theorem Numbered.alloc {i k : Fin nproc} {thread : Bool} (h : Numbered trace F) :
    Numbered trace (((F.nextPid.setMember k (.fresh F.nextpid thread)).setDuty k .idle).setDuty i
      (.adopt thread k)) := by
  have hother : ∀ j, j ≠ k → (F.member j).phase ≠ .unused →
      (F.member j).pid ≠ F.nextpid := fun j _ hj => (h.pid j hj).2.ne
  have hlt : F.nextpid < F.nextpid + 1 := Int.lt_succ _
  refine ⟨?_, ?_, ?_, ?_, ?_, h.creator⟩ <;>
    simp only [setDuty_member, setDuty_nextpid, setMember_member, setMember_nextpid,
      nextPid_nextpid]
  · intro i hi
    by_cases hik : i = k
    · rw [hik, Function.update_self]
      exact ⟨h.next.1, hlt⟩
    · rw [Function.update_of_ne hik] at hi ⊢
      exact ⟨(h.pid i hi).1, (h.pid i hi).2.trans hlt⟩
  · intro i j hi hj heq
    by_cases hik : i = k <;> by_cases hjk : j = k
    · rw [hik, hjk]
    · subst hik
      rw [Function.update_of_ne hjk] at hj heq
      rw [Function.update_self] at heq
      exact absurd heq.symm (hother j hjk hj)
    · subst hjk
      rw [Function.update_of_ne hik] at hi heq
      rw [Function.update_self] at heq
      exact absurd heq (hother i hik hi)
    · rw [Function.update_of_ne hik] at hi heq
      rw [Function.update_of_ne hjk] at hj heq
      exact h.unique i j hi hj heq
  · exact ⟨h.next.1.trans hlt, fun e he => (h.next.2 e he).trans hlt⟩
  · exact fun p thread c hc => (h.created p thread c hc).trans hlt
  · intro i hi p thread hc
    by_cases hik : i = k
    · subst hik
      rw [Function.update_self] at hc
      exact absurd (h.created p thread _ hc) (lt_irrefl _)
    · rw [Function.update_of_ne hik] at hi hc
      exact h.unborn i hi p thread hc

theorem Numbered.start {i np : Fin nproc} {thread : Bool} (h : Numbered trace F)
    (hi : (F.member i).phase = .live) (hused : (F.member np).phase = .used) :
    Numbered (trace ++ [⟨(F.member i).pid, forkCall thread, (F.member np).pid⟩])
      ((F.setMember np { F.member np with phase := .live }).setDuty i .idle) := by
  have hkeeps : (F.member np).Keeps { F.member np with phase := .live } :=
    fun _ => ⟨ne_of_phase hused (by decide), rfl, fun hlive => (nomatch hlive)⟩
  have hpid := h.pid np (ne_of_phase hused (by decide))
  have hcreator : ∀ p q c th th',
      Created (trace ++ [⟨(F.member i).pid, forkCall thread, (F.member np).pid⟩]) p th c →
      Created (trace ++ [⟨(F.member i).pid, forkCall thread, (F.member np).pid⟩]) q th' c →
      p = q ∧ th = th' := by
    intro p q c th th' hp hq
    rcases created_append.mp hp with hp | hp <;> rcases created_append.mp hq with hq | hq
    · exact h.creator p q c th th' hp hq
    · rw [(created_fork.mp hq).1.2.2] at hp
      exact absurd hp (h.unborn np hused p th)
    · rw [(created_fork.mp hp).1.2.2] at hq
      exact absurd hq (h.unborn np hused q th')
    · obtain ⟨⟨hpi, hth, _⟩, _⟩ := created_fork.mp hp
      obtain ⟨⟨hqi, hth', _⟩, _⟩ := created_fork.mp hq
      exact ⟨hpi.trans hqi.symm, hth.trans hth'.symm⟩
  refine ⟨?_, ?_, ?_, ?_, ?_, hcreator⟩ <;>
    simp only [setDuty_member, setDuty_nextpid, setMember_member, setMember_nextpid]
  · intro j hj
    obtain ⟨hj', heq, _⟩ := hkeeps.update j hj
    rw [heq]
    exact h.pid j hj'
  · intro j k hj hk heq
    obtain ⟨hj', hjeq, _⟩ := hkeeps.update j hj
    obtain ⟨hk', hkeq, _⟩ := hkeeps.update k hk
    exact h.unique j k hj' hk' (hjeq ▸ hkeq ▸ heq)
  · refine ⟨h.next.1, ?_⟩
    intro e he
    rcases List.mem_append.mp he with he | he
    · exact h.next.2 e he
    · rw [List.mem_singleton.mp he]
      exact h.pid_lt hi
  · intro p thread' c hc
    rcases created_append.mp hc with hc | hc
    · exact h.created p thread' c hc
    · rw [(created_fork.mp hc).1.2.2]
      exact hpid.2
  · intro j hj p thread' hc
    by_cases hjnp : j = np
    · subst hjnp
      rw [Function.update_self] at hj
      cases hj
    · rw [Function.update_of_ne hjnp] at hj hc
      rcases created_append.mp hc with hc | hc
      · exact h.unborn j hj p thread' hc
      · have heq := (created_fork.mp hc).1.2.2
        exact hjnp (h.unique j np (ne_of_phase hj (by decide)) (ne_of_phase hused (by decide)) heq)

theorem Numbered.step {d : Deed nproc} (h : Numbered trace F) (hmaking : F.Making)
    (hstep : F.Step d F' events) : Numbered (trace ++ events) F' := by
  cases hstep with
  | quiet hquiet =>
      refine h.keep (fun j => .refl _) le_rfl ?_ ?_
      · intro e he
        obtain ⟨i, hi, hpid⟩ := (hquiet e he).1
        exact hpid ▸ h.pid_lt hi
      · rintro p thread c ⟨hmem, hc⟩
        exact hc ((hquiet _ hmem).2 (forkCall_isKin thread))
  | @allocFails i k thread hi _ =>
      refine h.keep (Member.Keeps.update fun hfree => absurd rfl hfree) (Int.lt_succ _).le ?_ ?_
      · intro e he
        rw [List.mem_singleton.mp he]
        exact h.pid_lt hi
      · intro p thread' c hc
        obtain ⟨⟨_, _, rfl⟩, hne⟩ := created_fork.mp hc
        exact hne rfl
  | alloc _ _ _ =>
      rw [List.append_nil]
      exact h.alloc
  | start hi hduty => exact h.start hi (hmaking.used _ _ (congrArg Duty.child hduty))
  | @reap i k thread hi _ _ _ =>
      refine h.keep (Member.Keeps.update fun hfree => absurd rfl hfree) le_rfl ?_ ?_
      · intro e he
        rw [List.mem_singleton.mp he]
        exact h.pid_lt hi
      · exact fun p thread' c hc => not_created_wait hc
  | @die i hi _ =>
      refine h.keep (Member.Keeps.update ?_) le_rfl (fun _ he => (nomatch he))
        fun _ _ _ hc => (nomatch hc.1)
      exact fun _ => ⟨ne_of_phase hi (by decide), rfl, fun hzombie => (nomatch hzombie)⟩
  | adopt _ _ =>
      refine h.keep (Member.Keeps.update fun hphase => ⟨hphase, rfl, id⟩) le_rfl
        (fun _ he => (nomatch he)) fun _ _ _ hc => (nomatch hc.1)
  | pass _ _ =>
      refine h.keep (Member.Keeps.update fun hphase => ⟨hphase, rfl, id⟩) le_rfl
        (fun _ he => (nomatch he)) fun _ _ _ hc => (nomatch hc.1)
  | _ =>
      exact h.keep (fun j => .refl _) le_rfl (fun _ he => (nomatch he))
        fun _ _ _ hc => (nomatch hc.1)

end Numbered

end Process
