import Mathlib.Data.Fintype.Basic
import OsAssignments.Process.Simulation

/-!
# The process tree

The parent of a process is the process that created it or, from the exit of that one on,
the first process. `reparent` passes on to the first process only the children that are
not threads or are detached, and nothing detaches a thread: so this is shown for the runs
in which nobody exits before its threads have been joined.
-/

namespace Process

open EventRun Family

variable {nproc : ℕ}

/-- The member `i` leaves its children, and the sweep for them has come to the slot `m`. -/
def Family.Sweeps (F : Family nproc) (i : Fin nproc) (m : ℕ) : Prop :=
  ∀ t : Fin nproc, (F.member t).parent = some i → m ≤ t ∧ F.Abandoned i t

/-- The parents of a family. A parent is alive, and is the first process, the creator, or
about to start the child. Somebody who exits has children only where the sweep has not yet
been, and will leave all of them. -/
structure Tree (trace : List Event) (F : Family nproc) : Prop where
  parent : ∀ t k, (F.member t).parent = some k → (F.member k).phase = .live ∧
    (k = F.initproc ∨ (∃ thread, F.duty k = .start thread t) ∨
      ∃ thread, Created trace (F.member k).pid thread (F.member t).pid)
  child : ∀ t, (F.member t).phase = .live ∨ (F.member t).phase = .zombie → t ≠ F.initproc →
    (F.member t).parent ≠ none
  sweep : ∀ i m, (F.duty i).swept = some m → F.Sweeps i m
  reaped : ∀ e ∈ trace, (∃ thread, e.call = waitCall thread) → e.ret ≠ -1 →
    e.pid = 1 ∨ ∃ thread, Created trace e.pid thread e.ret

/-- Nobody exits who has a child that it would not leave to the first process. -/
def Deed.Inherits (F : Family nproc) : Deed nproc → Prop
  | exit i => ∀ t, (F.member t).parent = some i → F.Abandoned i t
  | _ => True

variable {F F' : Family nproc} {i np k : Fin nproc} {trace events : List Event} {d : Deed nproc}

def Member.Kin (m m' : Member nproc) : Prop :=
  m'.parent = m.parent ∧ m'.isThread = m.isThread ∧ m'.detached = m.detached

theorem Member.Kin.of_eq {m m' : Member nproc} (h : m' = m) : m.Kin m' := by
  rw [h]
  exact ⟨rfl, rfl, rfl⟩

theorem Family.Sweeps.congr {m : ℕ} (h : F.Sweeps i m)
    (hmember : ∀ t, (F'.member t).parent = some i → (F.member t).Kin (F'.member t)) :
    F'.Sweeps i m := by
  intro t ht
  obtain ⟨hparent, hthread, hdetached⟩ := hmember t ht
  rw [Family.Abandoned, hparent, hthread, hdetached]
  exact h t (hparent ▸ ht)

theorem member_setPhase {x : Phase} (t : Fin nproc) :
    (Function.update F.member k { F.member k with phase := x } t).pid = (F.member t).pid ∧
      (F.member t).Kin (Function.update F.member k { F.member k with phase := x } t) := by
  by_cases ht : t = k
  · rw [ht, Function.update_self]
    exact ⟨rfl, rfl, rfl, rfl⟩
  · rw [Function.update_of_ne ht]
    exact ⟨rfl, rfl, rfl, rfl⟩

/-- A member that stays as it is, or was not alive and has no place in the tree. -/
def Member.Settled (m m' : Member nproc) : Prop :=
  m' = m ∨ m.phase ≠ .live ∧ m'.parent = none ∧ (m'.phase = .unused ∨ m'.phase = .used)

theorem Member.Settled.update {m : Member nproc} (h : (F.member k).Settled m) (j : Fin nproc) :
    (F.member j).Settled (Function.update F.member k m j) := by
  by_cases hj : j = k
  · rw [hj, Function.update_self]
    exact h
  · rw [Function.update_of_ne hj]
    exact Or.inl rfl

theorem Member.Settled.eq_of_live {m m' : Member nproc} (h : m.Settled m') (hm : m.phase = .live) :
    m' = m :=
  h.resolve_right fun hnot => hnot.1 hm

theorem Member.Settled.eq_of_parent {m m' : Member nproc} (h : m.Settled m')
    (hm : m'.parent = some k) : m' = m :=
  h.resolve_right fun hnot => by
    rw [hnot.2.1] at hm
    cases hm

theorem Tree.keep (h : Tree trace F) (hinit : F'.initproc = F.initproc)
    (hmember : ∀ j, (F.member j).Settled (F'.member j))
    (hstart : ∀ j thread t, (F.member j).phase = .live → F.duty j = .start thread t →
      F'.duty j = .start thread t)
    (hsweep : ∀ j m, (F'.duty j).swept = some m → F.Sweeps j m)
    (hreaped : ∀ e ∈ events, (∃ thread, e.call = waitCall thread) → e.ret ≠ -1 →
      e.pid = 1 ∨ ∃ thread, Created trace e.pid thread e.ret) :
    Tree (trace ++ events) F' := by
  constructor
  · intro t k htk
    have ht := (hmember t).eq_of_parent htk
    rw [ht] at htk ⊢
    obtain ⟨hlive, hor⟩ := h.parent t k htk
    rw [(hmember k).eq_of_live hlive, hinit]
    refine ⟨hlive, ?_⟩
    rcases hor with hk | ⟨thread, hk⟩ | ⟨thread, hk⟩
    · exact Or.inl hk
    · exact Or.inr (Or.inl ⟨thread, hstart k thread t hlive hk⟩)
    · exact Or.inr (Or.inr ⟨thread, hk.append⟩)
  · intro t ht hne
    rw [hinit] at hne
    rcases hmember t with heq | ⟨_, _, hphase | hphase⟩
    · rw [heq] at ht ⊢
      exact h.child t ht hne
    · rcases ht with ht | ht <;> cases hphase.symm.trans ht
    · rcases ht with ht | ht <;> cases hphase.symm.trans ht
  · exact fun j m hj => (hsweep j m hj).congr fun t ht =>
      .of_eq ((hmember t).eq_of_parent ht)
  · intro e he hcall hret
    have hold : e.pid = 1 ∨ ∃ thread, Created trace e.pid thread e.ret := by
      rcases List.mem_append.mp he with he | he
      · exact h.reaped e he hcall hret
      · exact hreaped e he hcall hret
    exact hold.imp_right fun ⟨thread, hc⟩ => ⟨thread, hc.append⟩

theorem duty_update_of_ne {c : Duty nproc} {j t : Fin nproc} {thread : Bool}
    (hi : ∀ th np, F.duty i ≠ .start th np) (hj : F.duty j = .start thread t) :
    Function.update F.duty i c j = .start thread t := by
  have hne : j ≠ i := by
    rintro rfl
    exact hi thread t hj
  rw [Function.update_of_ne hne, hj]

theorem Tree.adopt {thread : Bool} (h : Tree trace F) (hmaking : F.Making)
    (hi : (F.member i).phase = .live) (hduty : F.duty i = .adopt thread np) :
    Tree trace ((F.setMember np { F.member np with parent := some i }).setDuty i
      (.start thread np)) := by
  have hused : (F.member np).phase = .used := hmaking.used i np (congrArg Duty.child hduty)
  have hsame : ∀ t, t ≠ np →
      Function.update F.member np { F.member np with parent := some i } t = F.member t :=
    fun t ht => Function.update_of_ne ht _ _
  have hlive : ∀ t, (F.member t).phase = .live → t ≠ np := by
    rintro t ht rfl
    cases hused.symm.trans ht
  refine ⟨?_, ?_, ?_, h.reaped⟩ <;>
    simp only [setDuty_member, setDuty_duty, setDuty_initproc, setMember_member,
      setMember_initproc]
  · intro t k htk
    by_cases ht : t = np
    · subst ht
      rw [Function.update_self] at htk
      cases htk
      rw [hsame i (hlive i hi), Function.update_self]
      exact ⟨hi, Or.inr (Or.inl ⟨thread, rfl⟩)⟩
    · rw [hsame t ht] at htk ⊢
      obtain ⟨hk, hor⟩ := h.parent t k htk
      rw [hsame k (hlive k hk)]
      refine ⟨hk, hor.imp_right (Or.imp_left ?_)⟩
      rintro ⟨th, hstart⟩
      refine ⟨th, duty_update_of_ne ?_ hstart⟩
      intro th' np' heq
      cases hduty.symm.trans heq
  · intro t ht hne
    by_cases htnp : t = np
    · rw [htnp, Function.update_self]
      exact Option.some_ne_none i
    · rw [hsame t htnp] at ht ⊢
      exact h.child t ht hne
  · intro j m hj
    obtain ⟨hji, hj⟩ := (swept_update hj).resolve_right fun hi => (nomatch hi.2)
    refine (h.sweep j m hj).congr ?_
    intro t ht
    refine .of_eq (hsame t ?_)
    rintro rfl
    rw [setDuty_member, setMember_member, Function.update_self] at ht
    exact hji (Option.some.inj ht).symm

theorem Tree.start {thread : Bool} (h : Tree trace F) (hmaking : F.Making)
    (hnumbered : Numbered trace F) (hduty : F.duty i = .start thread np) :
    Tree (trace ++ [⟨(F.member i).pid, forkCall thread, (F.member np).pid⟩])
      ((F.setMember np { F.member np with phase := .live }).setDuty i .idle) := by
  have hused : (F.member np).phase = .used := hmaking.used i np (congrArg Duty.child hduty)
  have hparent : (F.member np).parent = some i := hmaking.parent i np thread hduty
  have hcreated : Created (trace ++ [⟨(F.member i).pid, forkCall thread, (F.member np).pid⟩])
      (F.member i).pid thread (F.member np).pid :=
    created_append.mpr (Or.inr ⟨List.mem_singleton_self _,
      hnumbered.ne_neg_one (ne_of_phase hused (by decide))⟩)
  have hlive : ∀ t, (F.member t).phase = .live →
      (Function.update F.member np { F.member np with phase := .live } t).phase = .live := by
    intro t ht
    by_cases hnp : t = np
    · rw [hnp, Function.update_self]
    · rwa [Function.update_of_ne hnp]
  have hreaped : ∀ e ∈ trace ++ [⟨(F.member i).pid, forkCall thread, (F.member np).pid⟩],
      (∃ th, e.call = waitCall th) → e.ret ≠ -1 → e.pid = 1 ∨ ∃ th, Created
        (trace ++ [⟨(F.member i).pid, forkCall thread, (F.member np).pid⟩]) e.pid th e.ret := by
    intro e he hcall hret
    rcases List.mem_append.mp he with he | he
    · exact (h.reaped e he hcall hret).imp_right fun ⟨th, hc⟩ => ⟨th, hc.append⟩
    · obtain ⟨th, hcall⟩ := hcall
      rw [List.mem_singleton.mp he] at hcall
      exact absurd hcall (forkCall_ne_waitCall thread th)
  refine ⟨?_, ?_, ?_, hreaped⟩ <;>
    simp only [setDuty_member, setDuty_duty, setDuty_initproc, setMember_member,
      setMember_initproc, (member_setPhase _).1, (member_setPhase _).2.1]
  · intro t k htk
    obtain ⟨hk, hor⟩ := h.parent t k htk
    refine ⟨hlive k hk, ?_⟩
    by_cases ht : t = np
    · subst ht
      obtain rfl := Option.some.inj (hparent.symm.trans htk)
      exact Or.inr (Or.inr ⟨thread, hcreated⟩)
    · refine hor.imp_right (Or.imp ?_ ?_)
      · rintro ⟨th, hstart⟩
        have hki : k ≠ i := by
          rintro rfl
          cases hduty.symm.trans hstart
          exact ht rfl
        exact ⟨th, by rw [Function.update_of_ne hki]; exact hstart⟩
      · exact fun ⟨th, hc⟩ => ⟨th, hc.append⟩
  · intro t ht hne
    by_cases htnp : t = np
    · rw [htnp, hparent]
      exact Option.some_ne_none i
    · rw [Function.update_of_ne htnp] at ht
      exact h.child t ht hne
  · intro j m hj
    obtain ⟨_, hj⟩ := (swept_update hj).resolve_right fun hi => (nomatch hi.2)
    exact (h.sweep j m hj).congr fun t _ => (member_setPhase t).2

theorem Tree.pass (h : Tree trace F) (hrooted : F.Rooted) (hduty : F.duty i = .sweep k)
    (habandoned : F.Abandoned i k) :
    Tree trace ((F.setMember k { F.member k with
      parent := some F.initproc
      detached := (F.member k).isThread || (F.member k).detached }).setDuty i
        (.sweep (k + 1))) := by
  have hsweeps := h.sweep i k (congrArg Duty.swept hduty)
  have heq : ∀ t, (Function.update F.member k { F.member k with
        parent := some F.initproc
        detached := (F.member k).isThread || (F.member k).detached } t).phase =
          (F.member t).phase ∧ (Function.update F.member k { F.member k with
        parent := some F.initproc
        detached := (F.member k).isThread || (F.member k).detached } t).pid = (F.member t).pid := by
    intro t
    by_cases ht : t = k
    · rw [ht, Function.update_self]
      exact ⟨rfl, rfl⟩
    · rw [Function.update_of_ne ht]
      exact ⟨rfl, rfl⟩
  refine ⟨?_, ?_, ?_, h.reaped⟩ <;>
    simp only [setDuty_member, setDuty_duty, setDuty_initproc, setMember_member,
      setMember_initproc, (heq _).1, (heq _).2]
  · intro t j htj
    by_cases ht : t = k
    · rw [ht, Function.update_self] at htj
      cases htj
      exact ⟨hrooted.root, Or.inl rfl⟩
    · rw [Function.update_of_ne ht] at htj
      obtain ⟨hj, hor⟩ := h.parent t j htj
      refine ⟨hj, hor.imp_right (Or.imp_left ?_)⟩
      rintro ⟨th, hstart⟩
      refine ⟨th, duty_update_of_ne ?_ hstart⟩
      intro th' np heq
      cases hduty.symm.trans heq
  · intro t ht hne
    by_cases htk : t = k
    · rw [htk, Function.update_self]
      exact Option.some_ne_none _
    · rw [Function.update_of_ne htk]
      exact h.child t ht hne
  · intro j m hj
    -- nobody who sweeps has `k` for a child any more, and what `i` has swept ends after `k`
    have hne : ∀ t, (Function.update F.member k { F.member k with
        parent := some F.initproc
        detached := (F.member k).isThread || (F.member k).detached } t).parent = some j →
          j ≠ F.initproc → t ≠ k := by
      rintro t ht hinit rfl
      rw [Function.update_self] at ht
      exact hinit (Option.some.inj ht).symm
    rcases swept_update hj with ⟨_, hj⟩ | ⟨rfl, hm⟩
    · have hj' := hrooted.stays j m hj
      exact (h.sweep j m hj).congr fun t ht => .of_eq (Function.update_of_ne (hne t ht hj') _ _)
    · have hj' := hrooted.stays j k (congrArg Duty.swept hduty)
      obtain rfl := Option.some.inj hm
      have hnew : ((F.setMember k { F.member k with
          parent := some F.initproc
          detached := (F.member k).isThread || (F.member k).detached }).setDuty j
            (.sweep (k + 1))).Sweeps j k :=
        hsweeps.congr fun t ht => .of_eq (Function.update_of_ne (hne t ht hj') _ _)
      intro t ht
      obtain ⟨hle, hab⟩ := hnew t ht
      exact ⟨Nat.lt_of_le_of_ne hle fun h => hne t ht hj' (Fin.ext h.symm), hab⟩

theorem Tree.die (h : Tree trace F) (hi : (F.member i).phase = .live) (hduty : F.duty i = .bury) :
    Tree trace ((F.setMember i { F.member i with phase := .zombie }).setDuty i .idle) := by
  have hall := h.sweep i nproc (congrArg Duty.swept hduty)
  have hchildless : ∀ t, (F.member t).parent ≠ some i :=
    fun t ht => absurd (hall t ht).1 (Nat.not_le.mpr t.isLt)
  refine ⟨?_, ?_, ?_, h.reaped⟩ <;>
    simp only [setDuty_member, setDuty_duty, setDuty_initproc, setMember_member,
      setMember_initproc, (member_setPhase _).1, (member_setPhase _).2.1]
  · intro t k htk
    obtain ⟨hk, hor⟩ := h.parent t k htk
    have hki : k ≠ i := by
      rintro rfl
      exact hchildless t htk
    rw [Function.update_of_ne hki, Function.update_of_ne hki]
    exact ⟨hk, hor⟩
  · intro t ht hne
    by_cases hti : t = i
    · subst hti
      exact h.child t (Or.inl hi) hne
    · rw [Function.update_of_ne hti] at ht
      exact h.child t ht hne
  · intro j m hj
    obtain ⟨_, hj⟩ := (swept_update hj).resolve_right fun hi => (nomatch hi.2)
    exact (h.sweep j m hj).congr fun t _ => (member_setPhase t).2

theorem Tree.step (h : Tree trace F) (hmaking : F.Making) (hrooted : F.Rooted)
    (hnumbered : Numbered trace F)
    (hok : d.Inherits F) (hstep : F.Step d F' events) : Tree (trace ++ events) F' := by
  have hsame : ∀ j, (F.member j).Settled (F.member j) := fun _ => Or.inl rfl
  have hfree : ∀ {k : Fin nproc}, (F.member k).phase ≠ .live → (F.member k).Settled .free :=
    fun hk => Or.inr ⟨hk, rfl, Or.inl rfl⟩
  cases hstep with
  | quiet hquiet =>
      refine h.keep rfl hsame (fun _ _ _ _ hj => hj) h.sweep ?_
      rintro e he ⟨thread, hcall⟩ hret
      exact absurd ((hquiet e he).2 (hcall ▸ waitCall_isKin thread)) hret
  | @allocFails i k thread _ hk =>
      refine h.keep rfl (Member.Settled.update (hfree (ne_of_phase hk (by decide))))
        (fun _ _ _ _ hj => hj) h.sweep ?_
      rintro e he _ hret
      rw [List.mem_singleton.mp he] at hret
      exact absurd rfl hret
  | @alloc i k thread hi hduty hk =>
      have hik : i ≠ k := by
        rintro rfl
        cases hi.symm.trans hk
      refine h.keep rfl
        (Member.Settled.update (Or.inr ⟨ne_of_phase hk (by decide), rfl, Or.inr rfl⟩)) ?_ ?_
        fun _ he => (nomatch he)
      · intro j th t hj hstart
        have hjk : j ≠ k := by
          rintro rfl
          cases hj.symm.trans hk
        refine duty_update_of_ne ?_ ?_
        · intro th' np heq
          rw [setDuty_duty, Function.update_of_ne hik, setMember_duty] at heq
          cases hduty.symm.trans heq
        · rw [setDuty_duty, Function.update_of_ne hjk]
          exact hstart
      · intro j m hj
        obtain ⟨_, hj⟩ := (swept_update hj).resolve_right fun hi => (nomatch hi.2)
        obtain ⟨_, hj⟩ := (swept_update hj).resolve_right fun hk => (nomatch hk.2)
        exact h.sweep j m hj
  | adopt hi hduty =>
      rw [List.append_nil]
      exact h.adopt hmaking hi hduty
  | start _ hduty => exact h.start hmaking hnumbered hduty
  | @exit i hi hduty hinit =>
      have hnot : ∀ th np, F.duty i ≠ .start th np := fun th np heq =>
        (nomatch hduty.symm.trans heq)
      refine h.keep rfl hsame (fun _ _ _ _ => duty_update_of_ne hnot) ?_ fun _ he => (nomatch he)
      · intro j m hj
        rcases swept_update hj with ⟨_, hj⟩ | ⟨rfl, hm⟩
        · exact h.sweep j m hj
        · obtain rfl := Option.some.inj hm
          exact fun t ht => ⟨Nat.zero_le _, hok t ht⟩
  | @skip i k hduty hskip =>
      have hsweeps := h.sweep i k (congrArg Duty.swept hduty)
      have hnot : ∀ th np, F.duty i ≠ .start th np := fun th np heq =>
        (nomatch hduty.symm.trans heq)
      refine h.keep rfl hsame (fun _ _ _ _ => duty_update_of_ne hnot) ?_ fun _ he => (nomatch he)
      · intro j m hj
        rcases swept_update hj with ⟨_, hj⟩ | ⟨rfl, hm⟩
        · exact h.sweep j m hj
        · obtain rfl := Option.some.inj hm
          intro t ht
          obtain ⟨hle, habandoned⟩ := hsweeps t ht
          refine ⟨Nat.lt_of_le_of_ne hle fun heq => hskip ?_, habandoned⟩
          rwa [Fin.ext heq]
  | pass hduty habandoned =>
      rw [List.append_nil]
      exact h.pass hrooted hduty habandoned
  | @swept i k hduty hk =>
      have hsweeps := h.sweep i k (congrArg Duty.swept hduty)
      have hnot : ∀ th np, F.duty i ≠ .start th np := fun th np heq =>
        (nomatch hduty.symm.trans heq)
      refine h.keep rfl hsame (fun _ _ _ _ => duty_update_of_ne hnot) ?_ fun _ he => (nomatch he)
      · intro j m hj
        rcases swept_update hj with ⟨_, hj⟩ | ⟨rfl, _⟩
        · exact h.sweep j m hj
        · intro t ht
          exact absurd (hk.trans (hsweeps t ht).1) (Nat.not_le.mpr t.isLt)
  | die hi hduty =>
      rw [List.append_nil]
      exact h.die hi hduty
  | @reap i k thread hi hduty hchild hk =>
      refine h.keep rfl (Member.Settled.update (hfree (ne_of_phase hk (by decide))))
        (fun _ _ _ _ hj => hj) h.sweep ?_
      intro e he _ _
      rw [List.mem_singleton.mp he]
      rcases (h.parent k i hchild.1).2 with hinit | ⟨th, hstart⟩ | hcreated
      · exact Or.inl (by rw [hinit, hrooted.pid])
      · cases hduty.symm.trans hstart
      · exact Or.inr hcreated

theorem boot_tree {initproc : Fin nproc} : Tree [] (boot initproc).family := by
  have hnone : ∀ t, ((boot initproc).family.member t).parent = none := by
    intro t
    rw [boot_member]
    split_ifs <;> rfl
  constructor
  · intro t k htk
    cases (hnone t).symm.trans htk
  · intro t ht hne
    rw [boot_member, if_neg (show t ≠ initproc from hne)] at ht
    rcases ht with ht | ht <;> cases ht
  · intro i m hi
    cases hi
  · exact fun _ he => (nomatch he)

/-! ## Runs of the process table -/

variable {s : State nproc} {initproc : Fin nproc}

/-- The action is not the exit of a process with a thread that has not been joined. -/
def Inherits (s : State nproc) : Action nproc → Prop :=
  Action.OnAdvance fun i _ => s.pc i = .kexit →
    ∀ t, (s.proc t).parent = some i → abandoned s i t = true

instance (s : State nproc) : DecidablePred (Inherits s) :=
  inferInstanceAs (DecidablePred (Action.OnAdvance _))

/-- A run in which nobody exits before its threads have been joined. -/
abbrev InheritedRun (initproc : Fin nproc) : List Event → State nproc → Prop :=
  Run step (fun _ s a => Inherits s a) (boot initproc)

theorem tree_of_run (h : InheritedRun initproc trace s) : Tree trace s.family := by
  refine family_of_run (P := fun F d => d.Inherits F) boot_tree ?_ ?_ h
  · intro _ s a d hok hby
    cases d with
    | exit i =>
        obtain ⟨ok, rfl, hpc⟩ := hby
        exact fun t ht => abandoned_iff.mp (hok hpc t ht)
    | _ => trivial
  · intro trace F d F' events hordered htree hP hs
    exact htree.step hordered.making hordered.rooted hordered.numbered hP hs

/-- The process in slot `i` has created the process in slot `t`. -/
def CreatorOf (trace : List Event) (s : State nproc) (i t : Fin nproc) : Prop :=
  ∃ thread, Created trace (s.proc i).pid thread (s.proc t).pid

/-- Every process but the first one has a parent, which is alive and is its creator or the
first process; nobody but these has it for a child, and nobody but these reaps it. Pids
tell the processes apart. -/
structure ValidTree (trace : List Event) (s : State nproc) : Prop where
  pid : ∀ i j, (s.proc i).state ≠ .unused → (s.proc j).state ≠ .unused →
    (s.proc i).pid = (s.proc j).pid → i = j
  creator : ∀ p q c thread thread', Created trace p thread c → Created trace q thread' c →
    p = q ∧ thread = thread'
  parent : ∀ t, (s.proc t).Exists → t ≠ s.initproc → ∃ i, (s.proc t).parent = some i ∧
    (s.proc i).Alive ∧ (i = s.initproc ∨ CreatorOf trace s i t)
  child : ∀ i thread t, isChild s i thread t = true → (s.proc i).Alive ∧
    (i = s.initproc ∨ CreatorOf trace s i t ∨ ∃ th, s.pc i = .setRunnable th t)
  reaped : ∀ p thread c, ⟨p, waitCall thread, c⟩ ∈ trace → c ≠ -1 →
    p = (s.proc s.initproc).pid ∨ ∃ th, Created trace p th c

theorem duty_start {i t : Fin nproc} {thread : Bool} (h : s.family.duty i = .start thread t) :
    s.pc i = .setRunnable thread t := by
  cases hpc : s.pc i with
  | setRunnable th np =>
      rw [State.family_duty, hpc] at h
      cases h
      rfl
  | wakeup ch k caller =>
      rw [State.family_duty, hpc] at h
      cases caller <;> cases h
  | _ =>
      rw [State.family_duty, hpc] at h
      cases h

/-- In every state of a run in which nobody exits before its threads have been joined, the
process tree is valid. -/
theorem validTree_of_run (h : InheritedRun initproc trace s) : ValidTree trace s := by
  have hordered := ordered_of_run h
  have htree := tree_of_run h
  have hparent : ∀ t i, (s.proc t).parent = some i → (s.proc i).Alive ∧
      (i = s.initproc ∨ CreatorOf trace s i t ∨ ∃ th, s.pc i = .setRunnable th t) := by
    intro t i hti
    obtain ⟨hlive, hor⟩ := htree.parent t i hti
    refine ⟨phase_alive.mp hlive, hor.imp_right fun hor => hor.symm.imp_right ?_⟩
    exact fun ⟨th, hstart⟩ => ⟨th, duty_start hstart⟩
  constructor
  · intro i j hi hj
    exact hordered.numbered.unique i j (mt phase_unused.mp hi) (mt phase_unused.mp hj)
  · exact hordered.numbered.creator
  · intro t ht hne
    cases hti : (s.proc t).parent with
    | none => exact absurd hti (htree.child t (phase_exists.mpr ht) hne)
    | some i =>
        obtain ⟨halive, hor⟩ := hparent t i hti
        refine ⟨i, rfl, halive, hor.imp_right fun hor => hor.resolve_right ?_⟩
        -- a child that is about to be started has not been made `RUNNABLE`
        rintro ⟨th, hpc⟩
        have hused := hordered.making.used i t (congrArg (fun c => (Pc.duty c).child) hpc)
        rcases phase_exists.mpr ht with hphase | hphase <;> cases hused.symm.trans hphase
  · intro i thread t hchild
    exact hparent t i (isChild_iff.mp hchild).1
  · intro p thread c hmem hc
    have hpid : (s.proc s.initproc).pid = 1 := hordered.rooted.pid
    rw [hpid]
    exact htree.reaped _ hmem ⟨thread, rfl⟩ hc

def orphan : List (Action 3) :=
  forkFirst ++ [.trap 1 .fork] ++ go 1 6 ++ [.trap 1 .exit] ++ go 1 14

theorem validTree_of_run_orphan : ∃ trace s, InheritedRun (0 : Fin 3) trace s ∧
    ValidTree trace s ∧ (s.proc 1).state = .zombie ∧ (s.proc 2).parent = some 0 := by
  have htest : (exec step (fun _ s a => Inherits s a) orphan [] (boot 0)).any
      (fun r => decide ((r.2.proc 1).state = .zombie) &&
        decide ((r.2.proc 2).parent = some 0)) = true := by decide +kernel
  obtain ⟨trace, s, hrun, hs⟩ := exists_run htest
  simp only [Bool.and_eq_true, decide_eq_true_eq] at hs
  exact ⟨trace, s, hrun, validTree_of_run hrun, hs.1, hs.2⟩

/-! ## A thread whose creator exits -/

def orphanThread : List (Action 3) :=
  forkFirst ++ [.trap 1 .clone] ++ go 1 7 ++ [.trap 1 .exit] ++ go 1 10

/-- Then the thread exits, the first process waits for its child and forks another one into
the same slot, and that one joins. -/
def strangerJoins : List (Action 3) :=
  orphanThread ++ [.dispatch 2, .trap 2 .exit] ++ go 2 10 ++ [.trap 0 .wait] ++ go 0 4 ++
    [.trap 0 .fork] ++ go 0 5 ++ [.dispatch 1, .trap 1 .join] ++ go 1 4

/-- The parent of a thread can be a zombie, and a process that has not created the thread can
join it. -/
theorem thread_outlives_parent :
    (∃ trace s, Run step (fun _ _ _ => True) (boot (0 : Fin 3)) trace s ∧ s.waitLock = none ∧
      (s.proc 2).state = .runnable ∧ (s.proc 2).parent = some 1 ∧ (s.proc 1).state = .zombie) ∧
    ∃ trace s, Run step (fun _ _ _ => True) (boot (0 : Fin 3)) trace s ∧
      ⟨4, .join, 3⟩ ∈ trace ∧ ⟨4, .clone, 3⟩ ∉ trace ∧ ⟨4, .fork, 3⟩ ∉ trace := by
  constructor
  · have htest : (exec step (fun _ _ _ => True) orphanThread [] (boot (0 : Fin 3))).any
        (fun r => decide (r.2.waitLock = none) && decide ((r.2.proc 2).state = .runnable) &&
          decide ((r.2.proc 2).parent = some 1) &&
            decide ((r.2.proc 1).state = .zombie)) = true := by decide +kernel
    obtain ⟨trace, s, hrun, hs⟩ := exists_run htest
    simp only [Bool.and_eq_true, decide_eq_true_eq] at hs
    obtain ⟨⟨⟨hlock, hstate⟩, hparent⟩, hzombie⟩ := hs
    exact ⟨trace, s, hrun, hlock, hstate, hparent, hzombie⟩
  · have htest : (exec step (fun _ _ _ => True) strangerJoins [] (boot (0 : Fin 3))).any
        (fun r => decide (⟨4, .join, 3⟩ ∈ r.1) && decide (⟨4, .clone, 3⟩ ∉ r.1) &&
          decide (⟨4, .fork, 3⟩ ∉ r.1)) = true := by decide +kernel
    obtain ⟨trace, s, hrun, hs⟩ := exists_run htest
    simp only [Bool.and_eq_true, decide_eq_true_eq] at hs
    exact ⟨trace, s, hrun, hs.1.1, hs.1.2, hs.2⟩

end Process
