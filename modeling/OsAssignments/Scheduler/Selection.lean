import OsAssignments.Scheduler.Priorities
import OsAssignments.Scheduler.Turns

/-!
# Which process a round selects

As long as no state and no priority changes, the loop of a round has the most urgent of the
`RUNNABLE` processes it has met, and of equally urgent ones the first it has met (`SoFar`).
So a round that ends over an unchanged table dispatches the first of the most urgent ones
from the cursor on, and goes idle only if nothing is `RUNNABLE`. The 21 with which the loop
starts is above every priority.
-/

namespace Scheduler

open Cyclic EventRun State

variable {ncpu nproc : ℕ} {s₀ s s' : State ncpu nproc} {c d : Fin ncpu} {p q : Fin nproc}
  {a : Action ncpu nproc} {x : Cpu nproc} {events trace : List (Event ncpu nproc)} {off : ℕ}

/-- No process has changed its state or its priority. -/
structure Still (s₀ s : State ncpu nproc) : Prop where
  state : ∀ p, (s.table.proc p).state = (s₀.table.proc p).state
  priority : s.priority = s₀.priority

/-- The process `p` is `RUNNABLE`, none is more urgent, and none that is as urgent is nearer
to the cursor. -/
structure Selected (s : State ncpu nproc) (cursor : ℕ) (p : Fin nproc) : Prop where
  runnable : (s.table.proc p).state = .runnable
  least : ∀ q, (s.table.proc q).state = .runnable → s.priority p ≤ s.priority q
  first : ∀ q, (s.table.proc q).state = .runnable → s.priority q = s.priority p →
    ahead nproc cursor p ≤ ahead nproc cursor q

/-! ## The loop -/

/-- What the loop has found among the slots less than `off` ahead of the cursor. -/
structure SoFar (s₀ : State ncpu nproc) (x : Cpu nproc) (off : ℕ) : Prop where
  unfound : x.best = none → x.bestPriority = 21 ∧
    ∀ q : Fin nproc, ahead nproc x.cursor q < off → (s₀.table.proc q).state ≠ .runnable
  found : ∀ p, x.best = some p → (s₀.table.proc p).state = .runnable ∧
    x.bestPriority = s₀.priority p ∧ ahead nproc x.cursor p < off ∧
    ∀ q : Fin nproc, ahead nproc x.cursor q < off → (s₀.table.proc q).state = .runnable →
      s₀.priority p ≤ s₀.priority q ∧
        (s₀.priority q = s₀.priority p → ahead nproc x.cursor p ≤ ahead nproc x.cursor q)

theorem soFar_zero (hnone : x.best = none) (hpriority : x.bestPriority = 21) :
    SoFar s₀ x 0 := by
  constructor
  · exact fun _ => ⟨hpriority, fun _ hq => absurd hq (Nat.not_lt_zero _)⟩
  · intro p hp
    rw [hnone] at hp
    cases hp

theorem SoFar.take (h : SoFar s₀ x off) (hoff : ahead nproc x.cursor p = off)
    (hp : (s₀.table.proc p).state = .runnable) (hless : s₀.priority p < x.bestPriority)
    (hcursor : x.cursor < nproc) (y : CpuPc) :
    SoFar s₀ { x with best := some p, bestPriority := s₀.priority p, pc := y } (off + 1) := by
  constructor
  · exact fun hnone => nomatch hnone
  · intro p' hp'
    cases hp'
    refine ⟨hp, rfl, Nat.lt_succ_of_le hoff.le, fun q hq hrunnable => ?_⟩
    rcases Nat.lt_succ_iff_lt_or_eq.mp hq with hlt | hat
    · have hurgent : s₀.priority p < s₀.priority q := by
        cases hbest : x.best with
        | none => exact absurd hrunnable ((h.unfound hbest).2 q hlt)
        | some b =>
            obtain ⟨_, heq, _, hall⟩ := h.found b hbest
            rw [heq] at hless
            exact hless.trans_le (hall q hlt hrunnable).1
      exact ⟨hurgent.le, fun heq => absurd heq hurgent.ne'⟩
    · have hqp : q = p :=
        Fin.ext (eq_of_ahead_eq hcursor q.is_lt p.is_lt (hat.trans hoff.symm))
      rw [hqp]
      exact ⟨le_rfl, fun _ => le_rfl⟩

theorem SoFar.pass (h : SoFar s₀ x off) (hoff : ahead nproc x.cursor p = off)
    (hnot : ¬ ((s₀.table.proc p).state = .runnable ∧ s₀.priority p < x.bestPriority))
    (hprior : s₀.priority p ≤ 20) (hcursor : x.cursor < nproc) (y : CpuPc) :
    SoFar s₀ { x with pc := y } (off + 1) := by
  have hthis : ∀ q : Fin nproc, ahead nproc x.cursor q = off → q = p := fun q hq =>
    Fin.ext (eq_of_ahead_eq hcursor q.is_lt p.is_lt (hq.trans hoff.symm))
  constructor
  · intro hnone
    obtain ⟨hpriority, hall⟩ := h.unfound hnone
    refine ⟨hpriority, fun q hq => ?_⟩
    rcases Nat.lt_succ_iff_lt_or_eq.mp hq with hlt | hat
    · exact hall q hlt
    · intro hrunnable
      rw [hthis q hat] at hrunnable
      refine hnot ⟨hrunnable, ?_⟩
      rw [hpriority]
      omega
  · intro b hb
    obtain ⟨hrunnable, heq, hlt, hall⟩ := h.found b hb
    refine ⟨hrunnable, heq, Nat.lt_succ_of_lt hlt, fun q hq hq' => ?_⟩
    rcases Nat.lt_succ_iff_lt_or_eq.mp hq with hbefore | hat
    · exact hall q hbefore hq'
    · have hle : x.bestPriority ≤ s₀.priority q := by
        rw [hthis q hat] at hq' ⊢
        exact not_lt.mp fun hless => hnot ⟨hq', hless⟩
      exact ⟨heq ▸ hle, fun _ => hlt.le.trans hat.ge⟩

theorem SoFar.selected (h : SoFar s₀ x nproc) (hcursor : x.cursor < nproc)
    (hp : x.best = some p) : Selected s₀ x.cursor p := by
  obtain ⟨hrunnable, _, _, hall⟩ := h.found p hp
  have hlt : ∀ q : Fin nproc, ahead nproc x.cursor q < nproc := fun q =>
    ahead_lt hcursor q.is_lt
  exact ⟨hrunnable, fun q hq => (hall q (hlt q) hq).1, fun q hq => (hall q (hlt q) hq).2⟩

/-! ## The steps of a round -/

/-- The CPU is in a round that has begun over the table of `s₀`. -/
def Choosing (s₀ : State ncpu nproc) (cursor : ℕ) (x : Cpu nproc) : Prop :=
  x.cursor = cursor ∧
    ((∃ off, off ≤ nproc ∧ x.pc = .scan off ∧ SoFar s₀ x off) ∨
      x.pc = .dispatch ∧ SoFar s₀ x nproc)

theorem Choosing.choosing {cursor : ℕ} (h : Choosing s₀ cursor x) : x.pc.choosing = true := by
  rcases h.2 with ⟨off, _, hpc, _⟩ | ⟨hpc, _⟩ <;> rw [hpc] <;> rfl

theorem not_dispatch_of_update (hcpu : s'.cpu = Function.update s.cpu d x)
    (hpc : (s.cpu c).pc = .scan off) (hx : d = c → x.pc ≠ .dispatch) :
    (s'.cpu c).pc ≠ .dispatch := by
  rw [hcpu]
  by_cases hd : c = d
  · rw [hd, Function.update_self]
    exact hx hd.symm
  · rw [Function.update_of_ne hd, hpc]
    exact fun hc => nomatch hc

/-- A CPU leaves its loop for the test of `best` only at the end of the table. -/
theorem Stepped.scanned_all (hstep : Stepped s a s' events) (hpc : (s.cpu c).pc = .scan off)
    (hdispatch : (s'.cpu c).pc = .dispatch) : nproc ≤ off := by
  by_contra hlt
  refine absurd hdispatch ?_
  have hsame : s'.cpu = s.cpu → (s'.cpu c).pc ≠ .dispatch := by
    intro hcpu
    rw [hcpu, hpc]
    exact fun hc => nomatch hc
  cases hstep with
  | round _ => exact not_dispatch_of_update rfl hpc fun _ hc => nomatch hc
  | look hoff _ _ =>
      refine not_dispatch_of_update rfl hpc fun _ => ?_
      rw [(look_eq _ _ _).2.1]
      exact fun hc => nomatch hc
  | chosen hpc' hle _ =>
      refine not_dispatch_of_update rfl hpc ?_
      rintro rfl
      rw [hpc] at hpc'
      cases hpc'
      exact absurd hle hlt
  | idle _ _ _ => exact not_dispatch_of_update rfl hpc fun _ hc => nomatch hc
  | dispatch _ _ _ _ => exact not_dispatch_of_update rfl hpc fun _ hc => nomatch hc
  | missed _ _ _ => exact not_dispatch_of_update rfl hpc fun _ hc => nomatch hc
  | wake _ => exact not_dispatch_of_update rfl hpc fun _ hc => nomatch hc
  | back _ _ => exact not_dispatch_of_update rfl hpc fun _ hc => nomatch hc
  | switched _ _ => exact not_dispatch_of_update rfl hpc fun _ hc => nomatch hc
  | kernel _ _ _ _ _ _ => exact hsame (reset_cpu _)
  | @stop d ok p t _ _ _ _ _ _ _ =>
      refine not_dispatch_of_update (d := d) (x := { s.cpu d with pc := .back }) ?_ hpc
        fun _ hc => nomatch hc
      change Function.update (reset s p ok).cpu d { (reset s p ok).cpu d with pc := .back } = _
      rw [reset_cpu]
  | tick _ => exact not_dispatch_of_update rfl hpc fun _ hc => nomatch hc
  | preempt _ =>
      refine not_dispatch_of_update rfl hpc fun _ => ?_
      dsimp only
      split_ifs <;> exact fun hc => nomatch hc
  | @ageProcess d ok k _ =>
      obtain ⟨priority, ticks, heq⟩ := ageProcess_eq (s := s) k
      rw [heq]
      exact not_dispatch_of_update rfl hpc fun _ hc => nomatch hc
  | aged _ _ =>
      refine not_dispatch_of_update rfl hpc fun _ => ?_
      dsimp only
      split_ifs <;> exact fun hc => nomatch hc
  | interruptedKilled _ _ _ _ _ => exact not_dispatch_of_update rfl hpc fun _ hc => nomatch hc
  | yield _ _ _ => exact not_dispatch_of_update rfl hpc fun _ hc => nomatch hc
  | _ => exact hsame rfl

theorem Choosing.step {cursor : ℕ} (h : Choosing s₀ cursor (s.cpu c)) (hcursor : cursor < nproc)
    (hprior : ∀ p, s₀.priority p ≤ 20) (hstill : Still s₀ s) (hstep : Stepped s a s' events)
    (hquiet : Quiet c events) : Choosing s₀ cursor (s'.cpu c) := by
  obtain ⟨hcur, hat⟩ := h
  have hturn := hstep.turn c
  generalize hx : s'.cpu c = x at hturn
  cases hturn with
  | away hx' _ _ =>
      rcases hx' with rfl | ⟨_, hnot⟩
      · exact ⟨hcur, hat⟩
      · exact absurd (Choosing.choosing ⟨hcur, hat⟩) (by rw [hnot]; decide)
  | round hpc =>
      rcases hat with ⟨off, _, hpc', _⟩ | ⟨hpc', _⟩ <;> rw [hpc] at hpc' <;> cases hpc'
  | @look off hoff hpc =>
      rcases hat with ⟨n, hn, hpc', hsofar⟩ | ⟨hpc', _⟩
      · cases hpc.symm.trans hpc'
        have hcur' : (s.cpu c).cursor < nproc := hcur ▸ hcursor
        have hahead := ahead_index hcur' hoff
        rcases look_cases (s := s) (s.cpu c) (index (s.cpu c).cursor hoff) off with
          ⟨hstate, hless, heq⟩ | ⟨hnot, heq⟩
        · rw [heq]
          rw [hstill.state] at hstate
          rw [hstill.priority] at hless ⊢
          exact ⟨hcur, Or.inl ⟨off + 1, hoff, rfl, hsofar.take hahead hstate hless hcur' _⟩⟩
        · rw [heq]
          rw [hstill.state, hstill.priority] at hnot
          exact ⟨hcur, Or.inl ⟨off + 1, hoff, rfl,
            hsofar.pass hahead hnot (hprior _) hcur' _⟩⟩
      · cases hpc.symm.trans hpc'
  | @chosen off best hpc hbest =>
      rcases hat with ⟨n, hn, hpc', hsofar⟩ | ⟨hpc', _⟩
      · cases hpc.symm.trans hpc'
        have hall := hstep.scanned_all hpc (by rw [hx])
        refine ⟨hcur, Or.inr ⟨rfl, ?_⟩⟩
        rw [Nat.le_antisymm hn hall] at hsofar
        exact ⟨hsofar.unfound, hsofar.found⟩
      · cases hpc.symm.trans hpc'
  | idle _ _ _ => exact absurd (List.mem_singleton_self _) hquiet.2
  | dispatch _ _ _ => exact absurd (List.mem_singleton_self _) (hquiet.1 _)
  | missed _ _ _ => exact absurd (List.mem_singleton_self _) hquiet.2

/-! ## A whole round -/

/-- The round that the CPU begins in `s₀` has come to the state `s`, with the events of
`trace`, and over the table no process has changed its state or its priority. -/
def Rounding (s₀ : State ncpu nproc) (c : Fin ncpu) (trace : List (Event ncpu nproc))
    (s : State ncpu nproc) : Prop :=
  ∃ b s₁, step s₀ (.go c b) = some (s₁, []) ∧ Run step (fun _ s _ => Still s₀ s) s₁ trace s ∧
    Still s₀ s ∧ Quiet c trace

/-- What rounds of the CPU that begin in `s₀` select, over a table that does not change. -/
structure Selects (s₀ : State ncpu nproc) (c : Fin ncpu) : Prop where
  dispatch : ∀ trace s a s' events p, Rounding s₀ c trace s → step s a = some (s', events) →
    .dispatch c p ∈ events → Selected s₀ (s₀.cpu c).cursor p ∧
      s'.waitTicks = Function.update s.waitTicks p 0 ∧ s'.priority = s.priority ∧
      (s'.table.proc p).state = .running ∧ (s'.cpu c).cursor = (p + 1) % nproc
  dispatch_iff : ∀ trace s a s' events, Rounding s₀ c trace s → step s a = some (s', events) →
    (∃ p, .dispatch c p ∈ events) ∨ .wfi c ∈ events →
      ((∃ p, .dispatch c p ∈ events) ↔ ∃ q, (s₀.table.proc q).state = .runnable)
  ends : (∀ p, s₀.lock p = none) → ∃ trace s a s' events, Rounding s₀ c trace s ∧
    step s a = some (s', events) ∧ ((∃ p, .dispatch c p ∈ events) ∨ .wfi c ∈ events)

theorem choosing_of_round (hpc : (s₀.cpu c).pc = .round) {b : Bool}
    (h : step s₀ (.go c b) = some (s, [])) :
    s = round s₀ c ∧ Choosing s₀ (s₀.cpu c).cursor (s.cpu c) := by
  rw [step, go, hpc] at h
  cases h
  refine ⟨rfl, ?_⟩
  rw [round, setCpu_cpu, Function.update_self]
  exact ⟨rfl, Or.inl ⟨0, Nat.zero_le _, rfl, soFar_zero rfl rfl⟩⟩

theorem Rounding.choosing (h : Rounding s₀ c trace s) (hpc : (s₀.cpu c).pc = .round)
    (hcursor : (s₀.cpu c).cursor < nproc) (hprior : ∀ p, s₀.priority p ≤ 20) :
    Choosing s₀ (s₀.cpu c).cursor (s.cpu c) := by
  obtain ⟨b, s₁, hround, hrun, _, hquiet⟩ := h
  suffices hinv : Quiet c trace → Choosing s₀ (s₀.cpu c).cursor (s.cpu c) from hinv hquiet
  refine hrun.invariant (I := fun trace s => Quiet c trace →
    Choosing s₀ (s₀.cpu c).cursor (s.cpu c)) (fun _ => (choosing_of_round hpc hround).2) ?_
  intro trace s a s' events hI hstill hs hquiet
  have hbefore : Quiet c trace := ⟨fun p hp => hquiet.1 p (List.mem_append_left _ hp),
    fun hw => hquiet.2 (List.mem_append_left _ hw)⟩
  have hevents : Quiet c events := ⟨fun p hp => hquiet.1 p (List.mem_append_right _ hp),
    fun hw => hquiet.2 (List.mem_append_right _ hw)⟩
  exact (hI hbefore).step hcursor hprior hstill (stepped_of_step hs) hevents

theorem Stepped.dispatched (hstep : Stepped s a s' events) (hp : .dispatch c p ∈ events) :
    (s.cpu c).pc = .dispatch ∧ (s.cpu c).best = some p ∧
      s'.waitTicks = Function.update s.waitTicks p 0 ∧ s'.priority = s.priority ∧
      (s'.table.proc p).state = .running ∧ (s'.cpu c).cursor = (p + 1) % nproc := by
  cases hstep with
  | @dispatch d ok best hpc hbest _ _ =>
      cases List.mem_singleton.mp hp
      refine ⟨hpc, hbest, rfl, Function.update_eq_self p s.priority, ?_, ?_⟩
      · change (Function.update s.table.proc p _ p).state = .running
        rw [Function.update_self]
      · rw [setCpu_cpu, Function.update_self]
  | kernel _ _ _ _ _ _ => exact absurd hp ((quiet_calls _ _).1 p)
  | stop _ _ _ _ _ _ => exact absurd hp ((quiet_calls _ _).1 p)
  | trap _ _ _ _ => simp at hp
  | idle _ _ _ => simp at hp
  | missed _ _ _ => simp at hp
  | set _ _ _ => simp at hp
  | aged _ _ => simp at hp
  | _ => cases hp

theorem Rounding.dispatch (h : Rounding s₀ c trace s) (hpc : (s₀.cpu c).pc = .round)
    (hcursor : (s₀.cpu c).cursor < nproc) (hprior : ∀ p, s₀.priority p ≤ 20)
    (hstep : step s a = some (s', events)) (hp : .dispatch c p ∈ events) :
    Selected s₀ (s₀.cpu c).cursor p := by
  obtain ⟨hcur, hat⟩ := h.choosing hpc hcursor hprior
  obtain ⟨hpc', hbest, _⟩ := (stepped_of_step hstep).dispatched hp
  rcases hat with ⟨off, _, hscan, _⟩ | ⟨_, hsofar⟩
  · rw [hpc'] at hscan
    cases hscan
  · rw [← hcur]
    exact hsofar.selected (hcur ▸ hcursor) hbest

theorem Rounding.wfi (h : Rounding s₀ c trace s) (hpc : (s₀.cpu c).pc = .round)
    (hcursor : (s₀.cpu c).cursor < nproc) (hprior : ∀ p, s₀.priority p ≤ 20)
    (hstep : step s a = some (s', events)) (hw : .wfi c ∈ events) (q : Fin nproc) :
    (s₀.table.proc q).state ≠ .runnable := by
  obtain ⟨hcur, hat⟩ := h.choosing hpc hcursor hprior
  obtain ⟨_, _, _, _, hstill, _⟩ := h
  have hturn := (stepped_of_step hstep).turn c
  generalize s'.cpu c = x at hturn
  cases hturn with
  | away _ _ hquiet => exact absurd hw hquiet.2
  | @idle off hpc' hoff hbest =>
      rcases hat with ⟨n, hn, hscan, hsofar⟩ | ⟨hdispatch, _⟩
      · cases hpc'.symm.trans hscan
        refine (hsofar.unfound hbest).2 q ((ahead_lt ?_ q.is_lt).trans_le hoff)
        exact hcur ▸ hcursor
      · rw [hpc'] at hdispatch
        cases hdispatch
  | @missed best hpc' hbest hnot =>
      rcases hat with ⟨n, hn, hscan, _⟩ | ⟨_, hsofar⟩
      · rw [hpc'] at hscan
        cases hscan
      · refine absurd ?_ hnot
        rw [hstill.state]
        exact (hsofar.found best hbest).1
  | dispatch _ _ _ => simp at hw
  | _ => cases hw

/-! ## A round ends -/

/-- A round goes on by a step that nobody sees and that leaves the table alone. -/
theorem Rounding.next (h : Rounding s₀ c [] s) (hstep : step s a = some (s', []))
    (hstill : Still s₀ s') : Rounding s₀ c [] s' := by
  obtain ⟨b, s₁, hround, hrun, hstill₀, hquiet⟩ := h
  exact ⟨b, s₁, hround, hrun.next hstill₀ hstep, hstill, hquiet⟩

theorem Rounding.still (h : Rounding s₀ c trace s) : Still s₀ s := by
  obtain ⟨_, _, _, _, hstill, _⟩ := h
  exact hstill

theorem rounding_scan (hpc : (s₀.cpu c).pc = .round) (hfree : ∀ p, s₀.lock p = none) (n : ℕ)
    (hn : n ≤ nproc) :
    ∃ s, Rounding s₀ c [] s ∧ (s.cpu c).pc = .scan n ∧ ∀ p, s.lock p = none := by
  induction n with
  | zero =>
      have hround : step s₀ (.go c true) = some (round s₀ c, []) := by
        rw [step, go, hpc]
      refine ⟨round s₀ c, ⟨true, _, hround, .start, ⟨fun _ => rfl, rfl⟩, quiet_nil⟩, ?_, hfree⟩
      rw [round, setCpu_cpu, Function.update_self]
  | succ n ih =>
      obtain ⟨s, hrounding, hscan, hlock⟩ := ih (Nat.le_of_succ_le hn)
      have hlt : n < nproc := hn
      have hstep : step s (.go c true) = some (s.setCpu c
          (look s (s.cpu c) (index (s.cpu c).cursor hlt) n), []) := by
        rw [step, go, hscan]
        dsimp only
        rw [scan, dif_pos hlt, if_pos (hlock _)]
      refine ⟨_, hrounding.next hstep ⟨hrounding.still.state, hrounding.still.priority⟩, ?_, hlock⟩
      rw [setCpu_cpu, Function.update_self, (look_eq _ _ _).2.1]

theorem ends_of_dispatch {best : Fin nproc} (hpc : (s.cpu c).pc = .dispatch)
    (hbest : (s.cpu c).best = some best) (hlock : s.lock best = none) :
    ∃ s' events, step s (.go c true) = some (s', events) ∧
      ((∃ p, .dispatch c p ∈ events) ∨ .wfi c ∈ events) := by
  have hgo : step s (.go c true) = Scheduler.dispatch s c := by
    rw [step, go, hpc]
  rw [Scheduler.dispatch, hbest] at hgo
  dsimp only at hgo
  rw [if_pos hlock] at hgo
  split_ifs at hgo
  · exact ⟨_, _, hgo, Or.inl ⟨best, List.mem_singleton_self _⟩⟩
  · exact ⟨_, _, hgo, Or.inr (List.mem_singleton_self _)⟩

theorem rounding_ends (hpc : (s₀.cpu c).pc = .round) (hfree : ∀ p, s₀.lock p = none) :
    ∃ trace s a s' events, Rounding s₀ c trace s ∧ step s a = some (s', events) ∧
      ((∃ p, .dispatch c p ∈ events) ∨ .wfi c ∈ events) := by
  obtain ⟨s, hrounding, hscan, hlock⟩ := rounding_scan hpc hfree nproc le_rfl
  have hgo : step s (.go c true) = scan s c nproc := by
    rw [step, go, hscan]
  rw [scan, dif_neg (Nat.lt_irrefl nproc)] at hgo
  cases hbest : (s.cpu c).best with
  | none =>
      rw [hbest] at hgo
      exact ⟨[], s, _, _, _, hrounding, hgo, Or.inr (List.mem_singleton_self _)⟩
  | some best =>
      rw [hbest] at hgo
      have hnext := hrounding.next hgo ⟨hrounding.still.state, hrounding.still.priority⟩
      have hchosen : ((s.goto c .dispatch).cpu c).best = some best := by
        rw [goto, setCpu_cpu, Function.update_self, hbest]
      obtain ⟨s', events, hstep, hend⟩ := ends_of_dispatch
        (by rw [goto, setCpu_cpu, Function.update_self]) hchosen (hlock best)
      exact ⟨[], _, _, s', events, hnext, hstep, hend⟩

theorem selects (hpc : (s₀.cpu c).pc = .round) (hcursor : (s₀.cpu c).cursor < nproc)
    (hprior : ∀ p, s₀.priority p ≤ 20) : Selects s₀ c := by
  constructor
  · intro trace s a s' events p hround hstep hp
    obtain ⟨_, _, hticks, hpriority, hstate, hcursor'⟩ := (stepped_of_step hstep).dispatched hp
    exact ⟨hround.dispatch hpc hcursor hprior hstep hp, hticks, hpriority, hstate, hcursor'⟩
  · intro trace s a s' events hround hstep hend
    constructor
    · rintro ⟨p, hp⟩
      exact ⟨p, (hround.dispatch hpc hcursor hprior hstep hp).runnable⟩
    · rintro ⟨q, hq⟩
      exact hend.resolve_right fun hw => hround.wfi hpc hcursor hprior hstep hw q hq
  · exact rounding_ends hpc

/-- In every state of a run the priorities are between 1 and 20 and the waiting times below
30. Over every table with such priorities, and from every cursor, a round whose table does not
change ends in the dispatch of the selected process, whose waiting time alone is reset and
behind which the cursor comes to stand, if some process is `RUNNABLE`, and else in `wfi`. -/
theorem priority_selection
    {ok : List (Event ncpu nproc) → State ncpu nproc → Action ncpu nproc → Prop}
    {initproc : Fin nproc} (h : Run step ok (boot ncpu initproc) trace s) :
    (∀ p, (1 ≤ s.priority p ∧ s.priority p ≤ 20) ∧ 0 ≤ s.waitTicks p ∧ s.waitTicks p < 30) ∧
    ∀ (s₀ : State ncpu nproc) (c : Fin ncpu), (∀ p, 1 ≤ s₀.priority p ∧ s₀.priority p ≤ 20) →
      (s₀.cpu c).pc = .round → (s₀.cpu c).cursor < nproc → Selects s₀ c := by
  have hprioritised := prioritised_of_run h
  exact ⟨fun p => ⟨hprioritised.priority p, hprioritised.ticks p⟩,
    fun s₀ c hprior hpc hcursor => selects hpc hcursor fun p => (hprior p).2⟩

/-- The first process forks on CPU 0, makes its child more urgent and forks again. -/
def forkThree : List (Action 2 3) :=
  steps 0 7 ++ [.trap 0 .fork] ++ steps 0 5 ++ [.setPriority 0 2 5] ++ steps 0 3 ++
    [.trap 0 .fork] ++ steps 0 6

theorem priority_selection_forkThree : ∃ trace s,
    Run step (fun _ _ _ => True) (boot 2 (0 : Fin 3)) trace s ∧ s.priority 1 = 5 ∧
      (1 ≤ s.priority 2 ∧ s.priority 2 ≤ 20) ∧ (s.table.proc 1).state = .runnable ∧
      (s.table.proc 2).state = .runnable ∧ Selects s 1 := by
  have htest : (exec step (fun _ _ _ => True) forkThree [] (boot 2 (0 : Fin 3))).any (fun r =>
      decide (r.2.priority 1 = 5) && decide ((r.2.table.proc 1).state = .runnable) &&
      decide ((r.2.table.proc 2).state = .runnable) && decide ((r.2.cpu 1).pc = .round) &&
      decide ((r.2.cpu 1).cursor < 3)) = true := by decide +kernel
  obtain ⟨trace, s, hrun, hs⟩ := exists_run htest
  simp only [Bool.and_eq_true, decide_eq_true_eq] at hs
  obtain ⟨⟨⟨⟨hpriority, hfirst⟩, hsecond⟩, hpc⟩, hcursor⟩ := hs
  obtain ⟨hrange, hselects⟩ := priority_selection hrun
  exact ⟨trace, s, hrun, hpriority, (hrange 2).1, hfirst, hsecond,
    hselects s 1 (fun p => (hrange p).1) hpc hcursor⟩

end Scheduler
