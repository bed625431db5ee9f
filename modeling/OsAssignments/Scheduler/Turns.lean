import OsAssignments.Library.Cyclic
import OsAssignments.Scheduler.OneCpu

/-!
# The rounds of one CPU

`Turn` is a step of the system as one CPU takes part in it: a step of its round of
`scheduler()`, or one that leaves the variables of the round alone. `Scanned` says what a
round has found once its loop has come past a slot: a candidate at least as urgent as the
process in it, if that was `RUNNABLE` when the loop looked at it.
-/

namespace Scheduler

open Cyclic EventRun State

variable {ncpu nproc : ℕ}

/-- The CPU is between the start of its loop over the table and the `swtch`. -/
def CpuPc.choosing : CpuPc → Bool
  | scan _ => true
  | dispatch => true
  | _ => false

def dispatches (c : Fin ncpu) (trace : List (Event ncpu nproc)) : List (Fin nproc) :=
  trace.filterMap fun e => match e with
    | .dispatch c' p => if c' = c then some p else none
    | _ => none

@[simp] theorem dispatches_append (c : Fin ncpu) (l m : List (Event ncpu nproc)) :
    dispatches c (l ++ m) = dispatches c l ++ dispatches c m :=
  List.filterMap_append

theorem mem_dispatches {c : Fin ncpu} {p : Fin nproc} {l : List (Event ncpu nproc)} :
    p ∈ dispatches c l ↔ .dispatch c p ∈ l := by
  simp only [dispatches, List.mem_filterMap]
  constructor
  · rintro ⟨e, he, hp⟩
    split at hp
    · split_ifs at hp with hc
      cases hc
      cases hp
      exact he
    · cases hp
  · intro h
    exact ⟨_, h, if_pos rfl⟩

def Quiet (c : Fin ncpu) (l : List (Event ncpu nproc)) : Prop :=
  (∀ p, .dispatch c p ∉ l) ∧ .wfi c ∉ l

theorem Quiet.dispatches {c : Fin ncpu} {l : List (Event ncpu nproc)} (h : Quiet c l) :
    dispatches c l = [] :=
  List.eq_nil_iff_forall_not_mem.mpr fun p hp => h.1 p (mem_dispatches.mp hp)

/-- A step of the system for the CPU `c`: its variables after the step, and the events. -/
inductive Turn (s : State ncpu nproc) (c : Fin ncpu) : Cpu nproc → List (Event ncpu nproc) → Prop
  | away {x : Cpu nproc} {events : List (Event ncpu nproc)} :
      x = s.cpu c ∨ x.pc.choosing = false ∧ (s.cpu c).pc.choosing = false →
      x.cursor = (s.cpu c).cursor → Quiet c events → Turn s c x events
  | round : (s.cpu c).pc = .round →
      Turn s c { s.cpu c with best := none, bestPriority := 21, pc := .scan 0 } []
  | look {off : ℕ} (h : off < nproc) : (s.cpu c).pc = .scan off →
      Turn s c (look s (s.cpu c) (index (s.cpu c).cursor h) off) []
  | chosen {off : ℕ} {best : Fin nproc} : (s.cpu c).pc = .scan off →
      (s.cpu c).best = some best → Turn s c { s.cpu c with pc := .dispatch } []
  | idle {off : ℕ} : (s.cpu c).pc = .scan off → nproc ≤ off → (s.cpu c).best = none →
      Turn s c { s.cpu c with pc := .wfi } [.wfi c]
  | dispatch {best : Fin nproc} : (s.cpu c).pc = .dispatch → (s.cpu c).best = some best →
      (s.table.proc best).state = .runnable →
      Turn s c { s.cpu c with proc := some best, cursor := (best + 1) % nproc, pc := .switched }
        [.dispatch c best]
  | missed {best : Fin nproc} : (s.cpu c).pc = .dispatch → (s.cpu c).best = some best →
      (s.table.proc best).state ≠ .runnable → Turn s c { s.cpu c with pc := .wfi } [.wfi c]

variable {s s' : State ncpu nproc} {c d : Fin ncpu} {p q : Fin nproc} {a : Action ncpu nproc}
  {x : Cpu nproc} {events trace : List (Event ncpu nproc)} {m : ℤ}

/-! ## Every step is a turn of each CPU -/

theorem quiet_nil : Quiet c ([] : List (Event ncpu nproc)) :=
  ⟨fun _ h => (nomatch h), fun h => (nomatch h)⟩

theorem quiet_calls (l : List Process.Event) (o : Option (Fin nproc)) :
    Quiet c (l.map .call ++ o.toList.map .freeproc : List (Event ncpu nproc)) := by
  constructor <;> simp

theorem choosing_of_interruptible (h : interruptible s c = true) :
    (s.cpu c).pc.choosing = false := by
  rcases interruptible_iff.mp h with hpc | ⟨hpc, _⟩ <;> rw [hpc] <;> rfl

/-- A step that moves the CPU `d`, outside its rounds or in an event of its own. -/
theorem turn_of_update (hcpu : s'.cpu = Function.update s.cpu d x)
    (hself : d = c → Turn s c x events) (hquiet : d ≠ c → Quiet c events) :
    Turn s c (s'.cpu c) events := by
  by_cases hd : d = c
  · subst hd
    rw [hcpu, Function.update_self]
    exact hself rfl
  · rw [hcpu, Function.update_of_ne (Ne.symm hd)]
    exact .away (Or.inl rfl) rfl (hquiet hd)

theorem Turn.move {pc : CpuPc} (hpc : pc.choosing = false)
    (hold : (s.cpu c).pc.choosing = false) (hquiet : Quiet c events) :
    Turn s c { s.cpu c with pc := pc } events :=
  .away (Or.inr ⟨hpc, hold⟩) rfl hquiet

theorem Stepped.turn (hstep : Stepped s a s' events) (c : Fin ncpu) :
    Turn s c (s'.cpu c) events := by
  cases hstep with
  | round hpc =>
      refine turn_of_update rfl ?_ fun _ => quiet_nil
      rintro rfl
      exact .round hpc
  | look hoff hpc _ =>
      refine turn_of_update rfl ?_ fun _ => quiet_nil
      rintro rfl
      exact .look hoff hpc
  | chosen hpc _ hbest =>
      refine turn_of_update rfl ?_ fun _ => quiet_nil
      rintro rfl
      exact .chosen hpc hbest
  | idle hpc hoff hbest =>
      refine turn_of_update rfl ?_ fun hd => ⟨by simp, by simp [Ne.symm hd]⟩
      rintro rfl
      exact .idle hpc hoff hbest
  | dispatch hpc hbest _ hstate =>
      refine turn_of_update rfl ?_ fun hd => ⟨by simp [Ne.symm hd], by simp⟩
      rintro rfl
      exact .dispatch hpc hbest hstate
  | missed hpc hbest hstate =>
      refine turn_of_update rfl ?_ fun hd => ⟨by simp, by simp [Ne.symm hd]⟩
      rintro rfl
      exact .missed hpc hbest hstate
  | wake hpc =>
      refine turn_of_update rfl ?_ fun _ => quiet_nil
      rintro rfl
      exact .move rfl (by rw [hpc]; rfl) quiet_nil
  | back hpc _ =>
      refine turn_of_update rfl ?_ fun _ => quiet_nil
      rintro rfl
      exact .away (Or.inr ⟨rfl, by rw [hpc]; rfl⟩) rfl quiet_nil
  | switched hpc _ =>
      refine turn_of_update rfl ?_ fun _ => quiet_nil
      rintro rfl
      exact .move rfl (by rw [hpc]; rfl) quiet_nil
  | @kernel d ok p t events hpc _ _ _ _ _ =>
      have hcpu : ((reset s p ok).setTable t).cpu = s.cpu := reset_cpu ok
      rw [hcpu]
      exact .away (Or.inl rfl) rfl (quiet_calls _ _)
  | @stop d ok p t events hpc _ _ _ _ _ =>
      refine turn_of_update (d := d) (x := { s.cpu d with pc := .back }) ?_ ?_
        fun _ => quiet_calls _ _
      · change Function.update (reset s p ok).cpu d { (reset s p ok).cpu d with pc := .back } = _
        rw [reset_cpu]
      · rintro rfl
        exact .move rfl (by rw [hpc]; rfl) (quiet_calls _ _)
  | set _ _ _ => exact .away (Or.inl rfl) rfl ⟨by simp, by simp⟩
  | trap _ _ _ _ => exact .away (Or.inl rfl) rfl ⟨by simp, by simp⟩
  | tick hint =>
      refine turn_of_update rfl ?_ fun _ => quiet_nil
      rintro rfl
      exact .move rfl (choosing_of_interruptible hint) quiet_nil
  | preempt hint =>
      refine turn_of_update rfl ?_ fun _ => quiet_nil
      rintro rfl
      refine .move ?_ (choosing_of_interruptible hint) quiet_nil
      split_ifs <;> rfl
  | @ageProcess d ok k hpc =>
      obtain ⟨priority, ticks, heq⟩ := ageProcess_eq (s := s) k
      rw [heq]
      refine turn_of_update rfl ?_ fun _ => quiet_nil
      rintro rfl
      exact .move rfl (by rw [hpc]; rfl) quiet_nil
  | aged hpc _ =>
      refine turn_of_update rfl ?_ fun _ => ⟨by simp, by simp⟩
      rintro rfl
      refine .move ?_ (by rw [hpc]; rfl) ⟨by simp, by simp⟩
      split_ifs <;> rfl
  | interruptedKilled hpc _ _ _ _ =>
      refine turn_of_update rfl ?_ fun _ => quiet_nil
      rintro rfl
      exact .move rfl (by rw [hpc]; rfl) quiet_nil
  | yield hpc _ _ =>
      refine turn_of_update rfl ?_ fun _ => quiet_nil
      rintro rfl
      exact .move rfl (by rw [hpc]; rfl) quiet_nil
  | _ => exact .away (Or.inl rfl) rfl quiet_nil

/-! ## The candidate again -/

def Rechecks (s : State ncpu nproc) (c : Fin ncpu) (a : Action ncpu nproc) (best : Fin nproc) :
    Prop :=
  (∃ ok, a = .go c ok) ∧ (s.cpu c).pc = .dispatch ∧ (s.cpu c).best = some best

instance (s : State ncpu nproc) (c : Fin ncpu) (a : Action ncpu nproc) (best : Fin nproc) :
    Decidable (Rechecks s c a best) :=
  inferInstanceAs (Decidable ((∃ ok, a = .go c ok) ∧ (s.cpu c).pc = .dispatch ∧ _))

theorem Stepped.rechecks_of_dispatch (h : Stepped s a s' events) (hp : .dispatch c p ∈ events) :
    Rechecks s c a p ∧ (s.table.proc p).state = .runnable := by
  cases h with
  | @dispatch d ok best hpc hbest _ hstate =>
      cases List.mem_singleton.mp hp
      exact ⟨⟨⟨ok, rfl⟩, hpc, hbest⟩, hstate⟩
  | _ => simp at hp

/-- A CPU goes idle when its loop has found nothing, or when the candidate is gone. -/
theorem Stepped.rechecks_of_wfi (h : Stepped s a s' events) (hc : .wfi c ∈ events) :
    (∃ off, (s.cpu c).pc = .scan off ∧ nproc ≤ off ∧ (s.cpu c).best = none) ∨
      ∃ best, Rechecks s c a best ∧ (s.table.proc best).state ≠ .runnable := by
  cases h with
  | @idle d ok off hpc hoff hbest =>
      cases List.mem_singleton.mp hc
      exact Or.inl ⟨off, hpc, hoff, hbest⟩
  | @missed d ok best hpc hbest hstate =>
      cases List.mem_singleton.mp hc
      exact Or.inr ⟨best, ⟨⟨ok, rfl⟩, hpc, hbest⟩, hstate⟩
  | _ => simp at hc

/-! ## The variables of a round -/

theorem Turn.cursor_lt (h : Turn s c x events) (hcursor : (s.cpu c).cursor < nproc) :
    x.cursor < nproc := by
  cases h with
  | away _ hkeep _ => rwa [hkeep]
  | round _ => exact hcursor
  | look _ _ => rwa [(look_eq _ _ _).2.2]
  | chosen _ _ => exact hcursor
  | idle _ _ _ => exact hcursor
  | dispatch _ _ _ => exact Nat.mod_lt _ (Nat.zero_lt_of_lt hcursor)
  | missed _ _ _ => exact hcursor

/-- The loop either takes the slot it looks at as its candidate or leaves the one it has. -/
theorem look_cases (x : Cpu nproc) (p : Fin nproc) (off : ℕ) :
    ((s.table.proc p).state = .runnable ∧ s.priority p < x.bestPriority ∧
      look s x p off = { x with best := some p, bestPriority := s.priority p, pc := .scan (off + 1) }) ∨
    (¬ ((s.table.proc p).state = .runnable ∧ s.priority p < x.bestPriority) ∧
      look s x p off = { x with pc := .scan (off + 1) }) := by
  unfold look
  split_ifs with h
  · exact Or.inl ⟨h.1, h.2, rfl⟩
  · exact Or.inr ⟨h, rfl⟩

/-- Without a candidate, every process is more urgent than the best one found. -/
def Unfound (x : Cpu nproc) : Prop :=
  x.pc.choosing = true → x.best = none → x.bestPriority = 21

theorem Turn.unfound (h : Turn s c x events) (hunfound : Unfound (s.cpu c)) : Unfound x := by
  intro hchoosing hnone
  cases h with
  | away hx _ _ =>
      rcases hx with rfl | ⟨hx, _⟩
      · exact hunfound hchoosing hnone
      · cases hx.symm.trans hchoosing
  | round _ => rfl
  | @look off hoff hpc =>
      rcases look_cases (s := s) (s.cpu c) (index (s.cpu c).cursor hoff) off with
        ⟨_, _, heq⟩ | ⟨_, heq⟩
      · rw [heq] at hnone
        cases hnone
      · rw [heq] at hnone ⊢
        exact hunfound (by rw [hpc]; rfl) hnone
  | chosen hpc _ => exact hunfound (by rw [hpc]; rfl) hnone
  | idle _ _ _ => cases hchoosing
  | dispatch _ _ _ => cases hchoosing
  | missed _ _ _ => cases hchoosing

theorem cpu_of_run {ok : List (Event ncpu nproc) → State ncpu nproc → Action ncpu nproc → Prop}
    {initproc : Fin nproc} (h : Run step ok (boot ncpu initproc) trace s) (c : Fin ncpu) :
    (s.cpu c).cursor < nproc ∧ Unfound (s.cpu c) := by
  refine h.invariant (I := fun _ s => (s.cpu c).cursor < nproc ∧ Unfound (s.cpu c)) ?_ ?_
  · exact ⟨initproc.pos, fun hc => (nomatch hc)⟩
  · intro _ _ _ _ _ hcpu _ hs
    have hturn := (stepped_of_step hs).turn c
    exact ⟨hturn.cursor_lt hcpu.1, hturn.unfound hcpu.2⟩

/-! ## What a round has found -/

/-- Once the loop has come past the slot `q`, it has a candidate of priority `m` or better. -/
def Scanned (x : Cpu nproc) (q : Fin nproc) (m : ℤ) : Prop :=
  ∀ off, x.pc = .scan off → ahead nproc x.cursor q < off → x.bestPriority ≤ m

theorem scanned_of_not_choosing (h : x.pc.choosing = false) : Scanned x q m := by
  intro off hpc
  rw [hpc] at h
  cases h

@[simp] theorem ahead_index {off : ℕ} (hcursor : x.cursor < nproc) (h : off < nproc) :
    ahead nproc x.cursor (index x.cursor h) = off :=
  ahead_add_mod hcursor h

theorem index_eq {off : ℕ} (hcursor : x.cursor < nproc) (h : off < nproc)
    (hoff : ahead nproc x.cursor q = off) : index x.cursor h = q := by
  refine Fin.ext (eq_of_ahead_eq hcursor (Fin.is_lt _) q.is_lt ?_)
  rw [hoff]
  exact ahead_add_mod hcursor h

theorem Turn.scanned (h : Turn s c x events) (hcursor : (s.cpu c).cursor < nproc)
    (hq : (s.table.proc q).state = .runnable) (hm : s.priority q ≤ m)
    (hscanned : Scanned (s.cpu c) q m) : Scanned x q m := by
  cases h with
  | away hx _ _ =>
      rcases hx with rfl | ⟨hx, _⟩
      · exact hscanned
      · exact scanned_of_not_choosing hx
  | round _ =>
      intro off hpc hoff
      cases hpc
      exact absurd hoff (Nat.not_lt_zero _)
  | @look off hoff hpc =>
      rcases look_cases (s := s) (s.cpu c) (index (s.cpu c).cursor hoff) off with
        ⟨_, hless, heq⟩ | ⟨hnot, heq⟩
      · rw [heq]
        intro off' hpc' hpast
        cases hpc'
        -- the new candidate is more urgent than the old one, or is `q` itself
        rcases Nat.lt_succ_iff_lt_or_eq.mp hpast with hlt | hat
        · exact hless.le.trans (hscanned off hpc hlt)
        · change s.priority (index (s.cpu c).cursor hoff) ≤ m
          rwa [index_eq hcursor hoff hat]
      · rw [heq]
        intro off' hpc' hpast
        cases hpc'
        rcases Nat.lt_succ_iff_lt_or_eq.mp hpast with hlt | hat
        · exact hscanned off hpc hlt
        · rw [index_eq hcursor hoff hat] at hnot
          exact (not_lt.mp fun hlt => hnot ⟨hq, hlt⟩).trans hm
  | chosen _ _ => exact fun _ hpc' => (nomatch hpc')
  | idle _ _ _ => exact scanned_of_not_choosing rfl
  | dispatch _ _ _ => exact scanned_of_not_choosing rfl
  | missed _ _ _ => exact scanned_of_not_choosing rfl

theorem Scanned.best_ne_none {off : ℕ} (h : Scanned x q m) (hunfound : Unfound x)
    (hpc : x.pc = .scan off) (hpast : ahead nproc x.cursor q < off) (hm : m ≤ 20) :
    x.best ≠ none := by
  intro hnone
  have hfound := h off hpc hpast
  rw [hunfound (by rw [hpc]; rfl) hnone] at hfound
  omega

end Scheduler
