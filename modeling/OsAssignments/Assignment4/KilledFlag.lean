import OsAssignments.Assignment4.Steps

/-!
# Whom a kill hits

The flag `p->killed` of an occupied slot is set only after a `kkill` with the pid of its
process, or a `setkilled`, has hit the slot since the process was created (`Accounted`).
This needs that no `kkill` stops at a slot that is `UNUSED`: all of these have pid 0, and
`allocproc` leaves the flag that such a kill has set in place.
-/

namespace Assignment4

open EventRun State

variable {nproc : ℕ} {s s' : State nproc} {i k : Fin nproc} {a : Action nproc}
  {trace events : List (Event nproc)} {pid : ℤ}

/-- A kill with this pid, or a `setkilled`, has hit the slot since a process was last created
in it. -/
def Blamed (trace : List (Event nproc)) (k : Fin nproc) (pid : ℤ) : Prop :=
  ∃ before e after, trace = before ++ e :: after ∧ (e = .kill k pid ∨ e = .setkilled k) ∧
    ∀ p, .created k p ∉ after

theorem Blamed.append (h : Blamed trace k pid) (hevents : ∀ p, .created k p ∉ events) :
    Blamed (trace ++ events) k pid := by
  obtain ⟨before, e, after, rfl, he, hafter⟩ := h
  refine ⟨before, e, after ++ events, ?_, he, fun p hp => ?_⟩
  · rw [List.append_assoc, List.cons_append]
  · exact (List.mem_append.mp hp).elim (hafter p) (hevents p)

/-- The flags of the table: unset in an `UNUSED` slot, and accounted for in the others. -/
structure Accounted (trace : List (Event nproc)) (s : State nproc) : Prop where
  clean : ∀ k, (s.proc k).state = .unused → (s.proc k).killed = false ∧ (s.proc k).pid = 0
  blamed : ∀ k, (s.proc k).state ≠ .unused → (s.proc k).killed = true →
    Blamed trace k (s.proc k).pid

theorem boot_accounted (initproc : Fin nproc) : Accounted [] (boot initproc) := by
  have hkilled : ∀ k, ((boot initproc).proc k).killed = false := by
    intro k
    by_cases hk : k = initproc <;> simp [boot, hk, Proc.found, Proc.zero]
  constructor
  · intro k hk
    refine ⟨hkilled k, ?_⟩
    by_cases hinit : k = initproc
    · simp [boot, hinit] at hk
    · simp [boot, hinit, Proc.zero]
  · intro k _ hk
    rw [hkilled k] at hk
    cases hk

theorem Accounted.write {p : Proc nproc} (h : Accounted trace s)
    (hproc : s'.proc = Function.update s.proc k p)
    (hother : ∀ j, j ≠ k → ∀ q, .created j q ∉ events)
    (hclean : p.state = .unused → p.killed = false ∧ p.pid = 0)
    (hblamed : p.state ≠ .unused → p.killed = true → Blamed (trace ++ events) k p.pid) :
    Accounted (trace ++ events) s' := by
  constructor
  · intro j
    rw [hproc]
    by_cases hj : j = k
    · rw [hj, Function.update_self]
      exact hclean
    · rw [Function.update_of_ne hj]
      exact h.clean j
  · intro j
    rw [hproc]
    by_cases hj : j = k
    · rw [hj, Function.update_self]
      exact hblamed
    · rw [Function.update_of_ne hj]
      exact fun hused hkilled => (h.blamed j hused hkilled).append (hother j hj)

/-- A step that changes neither the flag nor the pid of a slot, nor whether it is `UNUSED`. -/
theorem Accounted.keep {p : Proc nproc} (h : Accounted trace s)
    (hproc : s'.proc = Function.update s.proc k p) (hkilled : p.killed = (s.proc k).killed)
    (hpid : p.pid = (s.proc k).pid) (hunused : p.state = .unused ↔ (s.proc k).state = .unused)
    (hevents : ∀ j q, .created j q ∉ events) : Accounted (trace ++ events) s' := by
  refine h.write hproc (fun j _ => hevents j) ?_ ?_
  · rw [hkilled, hpid, hunused]
    exact h.clean k
  · rw [hkilled, hpid, ne_eq, hunused]
    exact fun hused hk => (h.blamed k hused hk).append (hevents k)

theorem Accounted.free {p : Proc nproc} (h : Accounted trace s)
    (hproc : s'.proc = Function.update s.proc k p) (hstate : p.state = .unused)
    (hkilled : p.killed = false) (hpid : p.pid = 0) (hevents : ∀ j q, .created j q ∉ events) :
    Accounted (trace ++ events) s' :=
  h.write hproc (fun j _ => hevents j) (fun _ => ⟨hkilled, hpid⟩)
    fun hused => absurd hstate hused

/-- The slot that the `kkill` of process `i` stops at with its next step. -/
def kkillHits (s : State nproc) (i : Fin nproc) : Option (Fin nproc) :=
  match s.pc i with
  | .kkill pid k =>
      if h : k < nproc then if (s.proc ⟨k, h⟩).pid = pid then some ⟨k, h⟩ else none else none
  | _ => none

/-- The action is not a `kkill` that stops at an `UNUSED` slot. -/
def Spares (s : State nproc) : Action nproc → Prop :=
  Action.OnAdvance fun i _ => ∀ k ∈ kkillHits s i, (s.proc k).state ≠ .unused

instance (s : State nproc) : DecidablePred (Spares s) :=
  inferInstanceAs (DecidablePred (Action.OnAdvance _))

theorem kkillHits_of (hpc : s.pc i = .kkill pid k) (hpid : (s.proc k).pid = pid) :
    kkillHits s i = some k := by
  rw [kkillHits, hpc]
  dsimp only
  rw [dif_pos k.isLt, if_pos hpid]

theorem Proc.wakeup_unused {ch : Option (Chan nproc)} (p : Proc nproc) :
    (p.wakeup ch).state = .unused ↔ p.state = .unused := by
  rw [Proc.wakeup]
  split_ifs with _ hsleeping
  · rw [hsleeping]
    decide
  · rfl
  · rfl

theorem Proc.wakeup_killed {ch : Option (Chan nproc)} (p : Proc nproc) :
    (p.wakeup ch).killed = p.killed := by
  rw [Proc.wakeup]
  split_ifs <;> rfl

theorem Proc.wakeup_pid {ch : Option (Chan nproc)} (p : Proc nproc) :
    (p.wakeup ch).pid = p.pid := by
  rw [Proc.wakeup]
  split_ifs <;> rfl

theorem Proc.sleep_killed (p : Proc nproc) : p.sleep.killed = p.killed := by
  rw [Proc.sleep]
  split_ifs <;> rfl

theorem Proc.sleep_pid (p : Proc nproc) : p.sleep.pid = p.pid := by
  rw [Proc.sleep]
  split_ifs <;> rfl

theorem Stepped.accounted (hstep : Stepped s a s' events) (hmaking : Making s) (ha : Spares s a)
    (h : Accounted trace s) : Accounted (trace ++ events) s' := by
  have hnil : ∀ j q, (.created j q : Event nproc) ∉ ([] : List (Event nproc)) :=
    fun _ _ hmem => nomatch hmem
  have hret : ∀ (p r : ℤ) (call : Syscall) (j : Fin nproc) (q : ℤ),
      (.created j q : Event nproc) ∉ [.ret p call r] :=
    fun p r call j q hmem => nomatch (List.mem_singleton.mp hmem)
  have hboth : ∀ {p : Proc nproc} {j : Fin nproc} {x : ProcState}, p.state ≠ .unused →
      (s.proc j).state = x → x ≠ .unused → (p.state = .unused ↔ (s.proc j).state = .unused) :=
    fun hp hj hx => iff_of_false hp (ne_of_eq_of_ne hj hx)
  cases hstep with
  | @dispatch i hstate =>
      exact h.keep (k := i) rfl rfl rfl (hboth (fun hc => nomatch hc) hstate (by decide)) hnil
  | @yield i hrun =>
      exact h.keep (k := i) rfl rfl rfl (hboth (fun hc => nomatch hc) hrun (by decide)) hnil
  | @setkilled i hrun =>
      refine h.write (k := i) rfl (fun j _ q hmem => nomatch (List.mem_singleton.mp hmem)) ?_ ?_
      · intro hunused
        rw [hrun] at hunused
        cases hunused
      · exact fun _ _ => ⟨trace, _, [], rfl, Or.inr rfl, fun _ hmem => nomatch hmem⟩
  | @wakeOther i c =>
      exact h.keep (k := i) rfl (s.proc i).wakeup_killed (s.proc i).wakeup_pid
        (s.proc i).wakeup_unused hnil
  | @quiet i _ _ _ _ _ _ hproc _ _ hevents =>
      refine h.keep (k := i) (p := s.proc i) ?_ rfl rfl Iff.rfl fun j q hmem => ?_
      · rw [hproc, Function.update_eq_self]
      · obtain ⟨_, _, _, he⟩ := hevents _ hmem
        cases he
  | @create i k _ hrun hpc hunused =>
      obtain ⟨hclean, _⟩ := h.clean k hunused
      refine h.write (k := k) rfl (fun j hj q hmem => ?_) (fun hused => nomatch hused) ?_
      · cases List.mem_singleton.mp hmem
        exact hj rfl
      · intro _ hkilled
        exact absurd (hclean.symm.trans hkilled) Bool.false_ne_true
  | createFails _ _ _ => exact h.free rfl rfl rfl rfl (hret _ _ _)
  | @setParent i np _ _ _ => exact h.keep (k := np) rfl rfl rfl Iff.rfl hnil
  | @setRunnable i np _ _ hpc =>
      have hused := hmaking.used i np (congrArg Pc.makes hpc)
      exact h.keep (k := np) rfl rfl rfl (hboth (fun hc => nomatch hc) hused (by decide))
        (hret _ _ _)
  | @reparent i k _ _ _ _ => exact h.keep (k := k) rfl rfl rfl Iff.rfl hnil
  | @wakeup i k _ _ _ _ _ =>
      exact h.keep (k := k) rfl (s.proc k).wakeup_killed (s.proc k).wakeup_pid
        (s.proc k).wakeup_unused hnil
  | @setZombie i _ hrun =>
      exact h.keep (k := i) rfl rfl rfl (hboth (fun hc => nomatch hc) hrun (by decide)) hnil
  | reap _ _ => exact h.free rfl rfl rfl rfl (hret _ _ _)
  | @sleepPrepare i _ _ _ _ => exact h.keep (k := i) rfl rfl rfl Iff.rfl hnil
  | @sleep i _ w hrun _ =>
      refine h.keep (k := i) rfl (s.proc i).sleep_killed (s.proc i).sleep_pid ?_ hnil
      unfold Proc.sleep
      split
      · exact Iff.rfl
      · exact hboth (fun hc => nomatch hc) hrun (by decide)
  | @kill i k _ pid _ hpc hpid =>
      have hused : (s.proc k).state ≠ .unused := ha k (kkillHits_of hpc hpid)
      refine h.write (k := k) rfl ?_ ?_ ?_
      · intro j _ q hmem
        rcases List.mem_cons.mp hmem with he | he
        · cases he
        · exact hret _ _ _ j q he
      · intro hunused
        rw [Proc.kill] at hunused
        dsimp only at hunused
        split_ifs at hunused
        exact absurd hunused hused
      · intro _ _
        have hpid' : (s.proc k).kill.pid = pid := hpid
        rw [hpid']
        exact ⟨trace, _, _, rfl, Or.inl rfl, hret _ _ _ k⟩

/-! ## A kill that names nobody -/

theorem step_kkill {n : ℕ} (hrun : (s.proc i).state = .running) (hpc : s.pc i = .kkill pid n)
    (b : Bool) : step s (.advance i b) = some (kkill s i pid n) := by
  rw [step, if_pos hrun, advance, hpc]

theorem setPc_setPc (s : State nproc) (i : Fin nproc) (c c' : Pc nproc) :
    (s.setPc i c).setPc i c' = s.setPc i c' := by
  simp [State.setPc]

theorem exec_cons_some {b : Action nproc} {actions : List (Action nproc)}
    (h : step s b = some (s', events)) :
    exec step (fun _ _ _ => True) (b :: actions) trace s =
      exec step (fun _ _ _ => True) actions (trace ++ events) s' := by
  rw [exec, if_pos trivial, h]

theorem exec_cons_none {b : Action nproc} {actions : List (Action nproc)} (h : step s b = none) :
    exec step (fun _ _ _ => True) (b :: actions) trace s = none := by
  rw [exec, if_pos trivial, h]

/-- The loop of `kkill` from index `n` on, when no slot that is left has the pid. -/
theorem exec_kkill (m n : ℕ) (hn : n + m = nproc) (hrun : (s.proc i).state = .running)
    (hpc : s.pc i = .kkill pid n) (hpid : ∀ k : Fin nproc, n ≤ k → (s.proc k).pid ≠ pid) :
    exec step (fun _ _ _ => True) (go i (m + 1)) trace s =
      some (trace ++ [.ret (s.proc i).pid (.kill pid) (-1)], s.setPc i .user) := by
  induction m generalizing n trace s with
  | zero =>
      have hstep := step_kkill hrun hpc true
      rw [kkill, dif_neg (by omega)] at hstep
      rw [go, List.replicate_one, exec_cons_some hstep]
      rfl
  | succ m ih =>
      have hlt : n < nproc := by omega
      have hstep := step_kkill hrun hpc true
      rw [kkill, dif_pos hlt, if_neg (hpid ⟨n, hlt⟩ le_rfl)] at hstep
      rw [go, List.replicate_succ, exec_cons_some hstep, List.append_nil, ← setPc_setPc s i
        (.kkill pid (n + 1)) .user]
      refine ih (n + 1) (by omega) hrun ?_ fun k hk => hpid k (by omega)
      rw [setPc_pc, Function.update_self]

/-- The loop of `kkill` from index `n` on, when a slot that is left has the pid: it has
returned before as many steps as the whole loop takes. -/
theorem exec_kkill_hit (m n : ℕ) (hn : n + m = nproc) (hrun : (s.proc i).state = .running)
    (hpc : s.pc i = .kkill pid n) (hpid : ∃ k : Fin nproc, n ≤ k ∧ (s.proc k).pid = pid) :
    exec step (fun _ _ _ => True) (go i (m + 1)) trace s = none := by
  induction m generalizing n trace s with
  | zero =>
      obtain ⟨k, hk, _⟩ := hpid
      have := k.isLt
      omega
  | succ m ih =>
      have hlt : n < nproc := by omega
      have hstep := step_kkill hrun hpc true
      rw [kkill, dif_pos hlt] at hstep
      rw [go, List.replicate_succ]
      by_cases hthis : (s.proc ⟨n, hlt⟩).pid = pid
      · rw [if_pos hthis] at hstep
        rw [exec_cons_some hstep]
        apply exec_cons_none
        rw [step, advance, setPc_pc, Function.update_self, ite_self]
      · rw [if_neg hthis] at hstep
        rw [exec_cons_some hstep]
        refine ih (n + 1) (by omega) hrun ?_ ?_
        · rw [setPc_pc, Function.update_self]
        · obtain ⟨k, hk, hkpid⟩ := hpid
          refine ⟨k, Nat.lt_of_le_of_ne hk fun heq => hthis ?_, hkpid⟩
          rw [← hkpid]
          exact congrArg (fun k => (s.proc k).pid) (Fin.ext heq)

/-! ## The runs -/

variable {initproc : Fin nproc}

theorem accounted_of_run (h : Run step (fun _ s a => Spares s a) (boot initproc) trace s) :
    Accounted trace s :=
  (invariant_of_run (I := Accounted) (boot_accounted initproc)
    (fun _ _ _ _ _ hmaking hI hok hstep => hstep.accounted hmaking hok hI) h).2

theorem Accounted.created (h : Accounted trace s) (hstep : Stepped s a s' events)
    (hmem : .created k pid ∈ events) : (s'.proc k).killed = false ∧ (s'.proc k).pid = pid := by
  cases hstep with
  | @create i k' _ hrun hpc hunused =>
      cases List.mem_singleton.mp hmem
      change (Function.update s.proc k ((s.proc k).found s.nextpid) k).killed = false ∧
        (Function.update s.proc k ((s.proc k).found s.nextpid) k).pid = s.nextpid
      rw [Function.update_self]
      exact ⟨(h.clean k hunused).1, rfl⟩
  | quiet _ _ _ _ _ hevents =>
      obtain ⟨_, _, _, he⟩ := hevents _ hmem
      cases he
  | kill _ _ _ =>
      rcases List.mem_cons.mp hmem with he | he
      · cases he
      · cases List.mem_singleton.mp he
  | setkilled _ => cases List.mem_singleton.mp hmem
  | createFails _ _ _ => cases List.mem_singleton.mp hmem
  | setRunnable _ _ => cases List.mem_singleton.mp hmem
  | reap _ _ => cases List.mem_singleton.mp hmem
  | _ => cases hmem

/-- In a run in which no `kkill` stops at an `UNUSED` slot: a process whose flag is set has
been hit, since it was created, by a kill with its pid or by a `setkilled`; a process starts
with its flag unset; and a `kkill` whose pid no process has returns -1 and changes nothing,
unless the pid is 0 and a slot is `UNUSED`. -/
theorem kill_hits_named (h : Run step (fun _ s a => Spares s a) (boot initproc) trace s) :
    (∀ k, (s.proc k).state ≠ .unused → (s.proc k).killed = true →
      Blamed trace k (s.proc k).pid) ∧
    (∀ a s' events k pid, step s a = some (s', events) → .created k pid ∈ events →
      (s'.proc k).killed = false ∧ (s'.proc k).pid = pid) ∧
    ∀ i pid, (s.proc i).state = .running → s.pc i = .kkill pid 0 →
      (∀ k, (s.proc k).state ≠ .unused → (s.proc k).pid ≠ pid) →
      (exec step (fun _ _ _ => True) (go i (nproc + 1)) [] s =
        some ([.ret (s.proc i).pid (.kill pid) (-1)], s.setPc i .user) ↔
        (pid = 0 → ∀ k, (s.proc k).state ≠ .unused)) := by
  have haccounted := accounted_of_run h
  refine ⟨haccounted.blamed, fun a s' events k pid hstep hmem =>
    haccounted.created (stepped_of_step hstep) hmem, ?_⟩
  intro i pid hrun hpc hnobody
  constructor
  · rintro hexec rfl k hunused
    rw [exec_kkill_hit nproc 0 (Nat.zero_add _) hrun hpc
      ⟨k, Nat.zero_le _, (haccounted.clean k hunused).2⟩] at hexec
    cases hexec
  · intro hspares
    refine exec_kkill nproc 0 (Nat.zero_add _) hrun hpc fun k _ hk => ?_
    by_cases hunused : (s.proc k).state = .unused
    · rw [(haccounted.clean k hunused).2] at hk
      exact hspares hk.symm k hunused
    · exact hnobody k hunused hk

theorem kill_hits_named_child : ∃ trace s,
    Run step (fun _ s a => Spares s a) (boot (0 : Fin 3)) trace s ∧
      (s.proc 1).killed = true ∧ Blamed trace 1 (s.proc 1).pid ∧
      exec step (fun _ _ _ => True) (go 0 4) [] s =
        some ([.ret (s.proc 0).pid (.kill 77) (-1)], s.setPc 0 .user) := by
  have htest : (exec step (fun _ s a => Spares s a) ([.dispatch 0] ++ forkFirst ++
      [.trap 0 (.kill 2)] ++ go 0 2 ++ [.trap 0 (.kill 77)]) [] (boot (0 : Fin 3))).any (fun r =>
        (r.2.proc 1).killed && decide ((r.2.proc 1).state ≠ .unused) &&
        decide ((r.2.proc 0).state = .running) && decide (r.2.pc 0 = .kkill 77 0) &&
        decide (∀ k, (r.2.proc k).state ≠ .unused → (r.2.proc k).pid ≠ 77)) = true := by
    decide +kernel
  obtain ⟨trace, s, hrun, hs⟩ := exists_run htest
  simp only [Bool.and_eq_true, decide_eq_true_eq] at hs
  obtain ⟨⟨⟨⟨hkilled, hused⟩, hstate⟩, hpc⟩, hnobody⟩ := hs
  obtain ⟨hblamed, _, hreturns⟩ := kill_hits_named hrun
  exact ⟨trace, s, hrun, hkilled, hblamed 1 hused hkilled,
    (hreturns 0 77 hstate hpc hnobody).mpr fun hzero => absurd hzero (by decide)⟩

theorem Blamed.mem (h : Blamed trace k pid) : .kill k pid ∈ trace ∨ .setkilled k ∈ trace := by
  obtain ⟨before, e, after, rfl, he, _⟩ := h
  have hmem : e ∈ before ++ e :: after := List.mem_append_right _ List.mem_cons_self
  rcases he with rfl | rfl
  · exact Or.inl hmem
  · exact Or.inr hmem

/-- `kill(0)` returns 0, and the child of the next `fork` begins with its flag set. -/
theorem kill_hits_unborn : ∃ trace s, Run step (fun _ _ _ => True) (boot (0 : Fin 3)) trace s ∧
    .ret 1 (.kill 0) 0 ∈ trace ∧ .ret 1 .fork 2 ∈ trace ∧ (s.proc 1).pid = 2 ∧
      (s.proc 1).state ≠ .unused ∧ (s.proc 1).killed = true ∧
      ¬ Blamed trace 1 (s.proc 1).pid := by
  have htest : (exec step (fun _ _ _ => True) ([.dispatch 0, .trap 0 (.kill 0)] ++ go 0 2 ++
      forkFirst) [] (boot (0 : Fin 3))).any (fun r =>
        decide (.ret 1 (.kill 0) 0 ∈ r.1) && decide (.ret 1 .fork 2 ∈ r.1) &&
        decide ((r.2.proc 1).pid = 2) && decide ((r.2.proc 1).state ≠ .unused) &&
        (r.2.proc 1).killed &&
        decide (¬ (.kill 1 2 ∈ r.1 ∨ .setkilled 1 ∈ r.1))) = true := by decide +kernel
  obtain ⟨trace, s, hrun, hs⟩ := exists_run htest
  simp only [Bool.and_eq_true, decide_eq_true_eq] at hs
  obtain ⟨⟨⟨⟨⟨hkill, hfork⟩, hpid⟩, hused⟩, hkilled⟩, hnot⟩ := hs
  refine ⟨trace, s, hrun, hkill, hfork, hpid, hused, hkilled, fun hblamed => hnot ?_⟩
  rw [hpid] at hblamed
  exact hblamed.mem

end Assignment4
