import OsAssignments.Process.Semaphore

/-!
# What semaphores are used for

The semaphore as its users see it: the value counts, nobody sleeps while the value is not
zero, and a semaphore that begins at one excludes. For the last result the users must be
`Paired`: a process signals only after it has waited.
-/

namespace Process

open EventRun Mutex State

variable {nproc : ℕ} {id : Fin 10} {s s' : State nproc} {i k : Fin nproc} {a : Action nproc}
  {events trace : List Event}

/-! ## Waiting before signalling -/

def Pc.inSignal : Pc nproc → Option (Fin 10)
  | semSignal id => some id
  | wakeup _ _ (.semSignal id) => some id
  | semSignaled id => some id
  | _ => none

/-- The action is not a signal by a process that has not waited for it. -/
def WaitsFirst (id : Fin 10) (trace : List Event) (s : State nproc) : Action nproc → Prop
  | .trap i (.semSignal k) => k = id →
      (signals id trace).count (s.proc i).pid < (waits id trace).count (s.proc i).pid
  | _ => True

/-- Nobody has signalled more often than waited, nor will have when its signal returns. -/
structure Paired (id : Fin 10) (trace : List Event) (s : State nproc) : Prop where
  le : ∀ p, (signals id trace).count p ≤ (waits id trace).count p
  lt : ∀ i, (s.pc i).inSignal = some id →
    (signals id trace).count (s.proc i).pid < (waits id trace).count (s.proc i).pid

theorem inSignal_update {c : Pc nproc} (hc : c.inSignal = some id → (s.pc i).inSignal = some id)
    (j : Fin nproc) (hj : (Function.update s.pc i c j).inSignal = some id) :
    (s.pc j).inSignal = some id := by
  by_cases hji : j = i
  · rw [hji, Function.update_self] at hj
    rw [hji]
    exact hc hj
  · rwa [Function.update_of_ne hji] at hj

theorem inSignal_update_of_none {c : Pc nproc} (hc : c.inSignal = none) (j : Fin nproc)
    (hj : (Function.update s.pc i c j).inSignal = some id) : (s.pc j).inSignal = some id := by
  refine inSignal_update ?_ j hj
  intro h
  rw [hc] at h
  cases h

theorem Placed.live_of_inSignal (h : Placed s) (hi : (s.pc i).inSignal = some id) :
    (s.proc i).state.phase = .live := by
  by_contra hphase
  rcases h i hphase with hpc | hpc <;> rw [hpc] at hi <;> cases hi

theorem Goto.inSignal {c c' : Pc nproc} (h : Goto s i c c') (hc : c'.inSignal = some id) :
    c.inSignal = some id := by
  cases h with
  | @wokenUp ch k caller _ =>
      cases caller with
      | semSignal n => exact hc
      | _ => cases hc
  | _ => cases hc

/-- A step that no `sem_wait` or `sem_signal` returns from with success, and in which nobody
comes to signal. -/
theorem Paired.same (h : Paired id trace s)
    (hpc : ∀ j, (s'.pc j).inSignal = some id → (s.pc j).inSignal = some id)
    (hpid : ∀ j, (s.pc j).inSignal = some id → (s'.proc j).pid = (s.proc j).pid)
    (hcallers : signals id events = [] ∧ waits id events = []) :
    Paired id (trace ++ events) s' := by
  have hsignals : signals id (trace ++ events) = signals id trace := by
    rw [signals_append, hcallers.1, List.append_nil]
  have hwaits : waits id (trace ++ events) = waits id trace := by
    rw [waits_append, hcallers.2, List.append_nil]
  constructor
  · rw [hsignals, hwaits]
    exact h.le
  · intro j hj
    have hold := hpc j hj
    rw [hsignals, hwaits, hpid j hold]
    exact h.lt j hold

theorem Paired.keep (h : Paired id trace s)
    (hpc : ∀ j, (s'.pc j).inSignal = some id → (s.pc j).inSignal = some id)
    (hpid : ∀ j, (s.pc j).inSignal = some id → (s'.proc j).pid = (s.proc j).pid)
    (hsilent : Silent id events) : Paired id (trace ++ events) s' :=
  h.same hpc hpid ⟨hsilent.signals, hsilent.waits⟩

theorem Paired.wait {p : ℤ} (h : Paired id trace s)
    (hpc : ∀ j, (s'.pc j).inSignal = some id → (s.pc j).inSignal = some id)
    (hpid : ∀ j, (s.pc j).inSignal = some id → (s'.proc j).pid = (s.proc j).pid) :
    Paired id (trace ++ [⟨p, .semWait id, 0⟩]) s' := by
  have hsignals : signals id (trace ++ [⟨p, .semWait id, 0⟩]) = signals id trace := by
    simp [signals, callers]
  have hwaits : waits id (trace ++ [⟨p, .semWait id, 0⟩]) = waits id trace ++ [p] := by
    simp [waits, callers]
  have hle : ∀ q, (waits id trace).count q ≤ (waits id trace ++ [p]).count q := by
    intro q
    rw [List.count_append]
    exact Nat.le_add_right _ _
  constructor
  · intro q
    rw [hsignals, hwaits]
    exact (h.le q).trans (hle q)
  · intro j hj
    have hold := hpc j hj
    rw [hsignals, hwaits, hpid j hold]
    exact (h.lt j hold).trans_le (hle _)

theorem Paired.signal (h : Paired id trace s) (hplaced : Placed s)
    (hnumbered : Numbered trace s.family) (hi : (s.pc i).inSignal = some id)
    (hpc : ∀ j, (s'.pc j).inSignal = some id → j ≠ i ∧ (s.pc j).inSignal = some id)
    (hpid : ∀ j, (s.pc j).inSignal = some id → (s'.proc j).pid = (s.proc j).pid) :
    Paired id (trace ++ [⟨(s.proc i).pid, .semSignal id, 0⟩]) s' := by
  have hsignals : signals id (trace ++ [⟨(s.proc i).pid, .semSignal id, 0⟩]) =
      signals id trace ++ [(s.proc i).pid] := by
    simp [signals, callers]
  have hwaits : waits id (trace ++ [⟨(s.proc i).pid, .semSignal id, 0⟩]) = waits id trace := by
    simp [waits, callers]
  constructor
  · intro q
    rw [hsignals, hwaits, List.count_append, List.count_singleton]
    by_cases hq : (s.proc i).pid = q
    · subst hq
      rw [beq_self_eq_true, if_pos rfl]
      exact h.lt i hi
    · rw [if_neg (by simpa using hq)]
      exact h.le q
  · intro j hj
    obtain ⟨hji, hold⟩ := hpc j hj
    -- the pids of two processes that signal are different
    have hne : (s.proc i).pid ≠ (s.proc j).pid := by
      intro heq
      exact hji (hnumbered.unique i j (ne_of_phase (hplaced.live_of_inSignal hi) (by decide))
        (ne_of_phase (hplaced.live_of_inSignal hold) (by decide)) heq).symm
    rw [hsignals, hwaits, hpid j hold, List.count_append, List.count_singleton,
      if_neg (by simpa using hne)]
    exact h.lt j hold

theorem Waiter.woken_inSignal (w : Waiter) : (w.woken : Pc nproc).inSignal = none := by
  cases w <;> rfl

theorem eq_of_semIndex {x : ℤ} (h : semIndex x = some id) : x = id := by
  unfold semIndex at h
  split_ifs at h with hx
  cases h
  exact (Int.toNat_of_nonneg hx.1).symm

/-- A system call begins, which is a signal only after a wait. -/
theorem Paired.trap {call : Syscall} {c : Pc nproc} (h : Paired id trace s)
    (hok : WaitsFirst id trace s (.trap i call)) (hentry : Entry call c) :
    Paired id trace (s.setPc i c) := by
  refine ⟨h.le, ?_⟩
  intro j hj
  rw [setPc_pc] at hj
  by_cases hji : j = i
  · subst hji
    rw [Function.update_self] at hj
    cases hentry with
    | semSignal hk =>
        obtain rfl := Option.some.inj hj
        exact hok (eq_of_semIndex hk)
    | _ => cases hj
  · rw [Function.update_of_ne hji] at hj
    exact h.lt j hj

theorem Stepped.paired (hstep : Stepped s a s' events) (hordered : Ordered trace s.family)
    (hplaced : Placed s) (hok : WaitsFirst id trace s a) (h : Paired id trace s) :
    Paired id (trace ++ events) s' := by
  obtain ⟨d, hfamily, _⟩ := hstep.family
  have hpid : ∀ j, (s.pc j).inSignal = some id → (s'.proc j).pid = (s.proc j).pid :=
    fun j hj => hfamily.pid_eq (hplaced.live_of_inSignal hj)
  cases hstep with
  | dispatch _ => exact h.keep (fun _ hj => hj) hpid silent_nil
  | yield _ _ => exact h.keep (fun _ hj => hj) hpid silent_nil
  | wakeOther => exact h.keep (fun _ hj => hj) hpid silent_nil
  | trap _ _ _ hentry =>
      rw [List.append_nil]
      exact h.trap hok hentry
  | goto _ hgoto => exact h.keep (inSignal_update hgoto.inSignal) hpid silent_nil
  | returns _ hret => exact h.keep (inSignal_update_of_none rfl) hpid hret.silent
  | allocFails _ _ _ =>
      exact h.keep (inSignal_update_of_none rfl) hpid
        (silent_singleton fun _ => by decide)
  | @alloc i k _ thread _ _ _ =>
      refine h.keep (fun j hj => ?_) hpid silent_nil
      have hold := inSignal_update_of_none (s := s.setPc k .user) (i := i)
        (c := .setParent thread k) rfl j hj
      exact inSignal_update_of_none (i := k) (c := .user) rfl j hold
  | @setRunnable i np _ thread _ _ =>
      refine h.keep (inSignal_update_of_none rfl) hpid
        (silent_singleton fun hc => ?_)
      cases thread <;> cases hc
  | @wakeup i k _ ch caller _ hpc =>
      refine h.keep (inSignal_update fun hc => ?_) hpid silent_nil
      rw [setProc_pc, hpc]
      cases caller <;> exact hc
  | scanFails _ _ =>
      exact h.keep (inSignal_update_of_none rfl) hpid
        (silent_singleton fun _ => by decide)
  | @reap i k _ thread _ _ _ _ _ _ =>
      refine h.keep (inSignal_update_of_none rfl) hpid
        (silent_singleton fun hc => ?_)
      cases thread <;> cases hc
  | @sleep i _ w _ _ =>
      refine h.keep (inSignal_update fun hc => ?_) hpid silent_nil
      rw [w.woken_inSignal] at hc
      cases hc
  | kill _ _ _ =>
      exact h.keep (inSignal_update_of_none rfl) hpid
        (silent_singleton fun hc => by cases hc)
  | semInit _ _ _ =>
      refine h.same (inSignal_update_of_none rfl) hpid ⟨?_, ?_⟩
      · simp [signals, callers]
      · simp [waits, callers]
  | @semTake i _ k _ _ _ =>
      by_cases hk : k = id
      · subst hk
        exact h.wait (inSignal_update_of_none rfl) hpid
      · exact h.keep (inSignal_update_of_none rfl) hpid
          (silent_singleton fun hc => absurd hc (semArg_ne hk))
  | semKilled _ _ _ =>
      exact h.keep (inSignal_update_of_none rfl) hpid
        (silent_singleton fun _ => by decide)
  | @semSignal i _ k _ hpc _ _ =>
      refine h.keep (inSignal_update fun hc => ?_) hpid silent_nil
      rw [setSem_pc, hpc]
      exact hc
  | @semSignaled i _ k _ hpc =>
      by_cases hk : k = id
      · subst hk
        refine h.signal hplaced hordered.numbered (congrArg Pc.inSignal hpc) ?_ hpid
        intro j hj
        refine other_of_setPc (P := fun c => c.inSignal = some k) hj ?_
        intro hc
        cases hc
      · exact h.keep (inSignal_update_of_none rfl) hpid
          (silent_singleton fun hc => absurd hc (semArg_ne hk))
  | _ => exact h.keep (inSignal_update_of_none rfl) hpid silent_nil

/-! ## Runs -/

variable {initproc : Fin nproc} {ok : List Event → State nproc → Action nproc → Prop}

def InitOnce (id : Fin 10) (trace : List Event) : Prop := (inits id trace).length ≤ 1

theorem boot_counted (initproc : Fin nproc) : Counted id [] (boot initproc) := by
  have hzero : pending (boot initproc) id = 0 := rfl
  have hchan : ∀ j, ((boot initproc).proc j).chan = none := by
    intro j
    by_cases hj : j = initproc <;> simp [boot, hj, Proc.fresh, Proc.free]
  constructor
  · exact iff_of_false Bool.false_ne_true fun h => h rfl
  · refine fun _ => ⟨rfl, rfl, fun j => ⟨(Option.some_ne_none id).symm, ?_⟩⟩
    rw [hchan j]
    exact (Option.some_ne_none _).symm
  · rfl
  · exact hzero.le
  · intro i hi
    cases hi
  · exact fun hvalue => absurd rfl hvalue
  · intro i v hi
    cases hi

theorem counted_of_run (h : Run step ok (boot initproc) trace s) (hone : InitOnce id trace) :
    Counted id trace s := by
  have hI : Locked s ∧ Placed s ∧ (InitOnce id trace → Counted id trace s) := by
    refine (invariant_of_run
      (I := fun trace s => Locked s ∧ Placed s ∧ (InitOnce id trace → Counted id trace s))
      ⟨boot_locked initproc, fun _ _ => Or.inl rfl, fun _ => boot_counted initproc⟩ ?_ h).2
    rintro trace s a s' events ho ⟨hlocked, hplaced, hcounted⟩ _ hstep
    refine ⟨hstep.locked ho.making hlocked, hstep.placed ho.making hplaced, fun hone => ?_⟩
    have hbefore : InitOnce id trace := by
      refine le_trans ?_ hone
      rw [inits_append, List.length_append]
      exact Nat.le_add_right _ _
    exact hstep.counted hlocked hplaced hone (hcounted hbefore)
  exact hI.2.2 hone

theorem paired_of_run (h : Run step (WaitsFirst id) (boot initproc) trace s) :
    Paired id trace s := by
  have hI : Placed s ∧ Paired id trace s := by
    refine (invariant_of_run (I := fun trace s => Placed s ∧ Paired id trace s)
      ⟨fun _ _ => Or.inl rfl, fun _ => le_rfl, fun _ hi => (nomatch hi)⟩ ?_ h).2
    rintro trace s a s' events ho ⟨hplaced, hpaired⟩ hok hstep
    exact ⟨hstep.placed ho.making hplaced, hstep.paired ho hplaced hok hpaired⟩
  exact hI.2

/-- Two lists of callers, of which each is at least as often in the second: when there is one
more in the second, only one caller is more often there. -/
theorem unique_of_count {xs ys : List ℤ} (hle : ∀ p, xs.count p ≤ ys.count p)
    (hlength : ys.length ≤ xs.length + 1) {p q : ℤ} (hp : xs.count p < ys.count p)
    (hq : xs.count q < ys.count q) : p = q := by
  by_contra hpq
  have hsub : (p :: q :: xs).Subperm ys := by
    refine List.subperm_iff_count.mpr ?_
    intro r
    have hr := hle r
    by_cases hrp : p = r
    · subst hrp
      rw [List.count_cons_self, List.count_cons_of_ne (Ne.symm hpq)]
      exact hp
    · rw [List.count_cons_of_ne hrp]
      by_cases hrq : q = r
      · subst hrq
        rw [List.count_cons_self]
        exact hq
      · rw [List.count_cons_of_ne hrq]
        exact hr
  have hlt := hsub.length_le
  simp only [List.length_cons] at hlt
  omega

/-- The safety of a semaphore that has been initialised once, to `v`. While its lock is free,
its value is `v` plus the signals minus the waits, not negative, and nobody sleeps on its
channel unless the value is zero. If `v` is one and everybody signals only after a wait, at
most one process has waited and not yet signalled. -/
theorem semaphore_safe {v : ℤ} (h : Run step ok (boot initproc) trace s)
    (hinit : inits id trace = [v]) :
    ((s.sem id).lk = none → (s.sem id).value = v + (signals id trace).length -
      (waits id trace).length ∧ 0 ≤ (s.sem id).value) ∧
    (v = 1 → Run step (WaitsFirst id) (boot initproc) trace s → ∀ p q,
      (signals id trace).count p < (waits id trace).count p →
      (signals id trace).count q < (waits id trace).count q → p = q) ∧
    ((s.sem id).lk = none → 0 < (s.sem id).value → ∀ j, (s.proc j).state = .sleeping →
      (s.proc j).chan ≠ some (.sem id)) := by
  have hcounted : Counted id trace s := counted_of_run h (by rw [InitOnce, hinit]; exact le_rfl)
  have hcount := hcounted.count
  have hnonneg := hcounted.nonneg
  rw [hinit, List.sum_singleton] at hcount
  refine ⟨?_, ?_, ?_⟩
  · intro hlk
    rw [pending_of_none hlk] at hcount hnonneg
    rw [Int.add_zero] at hcount
    exact ⟨hcount, hnonneg⟩
  · rintro rfl hpaired p q hp hq
    refine unique_of_count (paired_of_run hpaired).le ?_ hp hq
    omega
  · intro hlk hvalue j _
    exact hcounted.nobody (locked_of_run h) (Or.inl hlk) hvalue.ne' j

instance (id : Fin 10) (trace : List Event) (s : State nproc) :
    DecidablePred (WaitsFirst id trace s)
  | .trap i (.semSignal k) => inferInstanceAs (Decidable (k = id →
      (signals id trace).count (s.proc i).pid < (waits id trace).count (s.proc i).pid))
  | .trap _ .fork | .trap _ .clone | .trap _ .exit | .trap _ .wait | .trap _ .join
  | .trap _ (.kill _) | .trap _ (.semInit _ _) | .trap _ (.semWait _) | .trap _ (.other _)
  | .advance _ _ | .dispatch _ | .yield _ | .fault _ | .wakeOther _ _ => .isTrue trivial

/-- A semaphore begins at one. The child of the first process waits for it, then the first
process does and sleeps, and the child signals. -/
def handOver : List (Action 3) :=
  [.dispatch 0, .trap 0 (.semInit 0 1)] ++ go 0 2 ++ [.trap 0 .fork] ++ go 0 5 ++
    [.dispatch 1, .trap 1 (.semWait 0)] ++ go 1 3 ++ [.trap 0 (.semWait 0)] ++ go 0 5 ++
    [.trap 1 (.semSignal 0)] ++ go 1 6

theorem semaphore_safe_handOver : ∃ trace s, Run step (WaitsFirst 0) (boot (0 : Fin 3)) trace s ∧
    signals 0 trace = [2] ∧ (s.sem 0).value = 1 + 1 - (waits 0 trace).length ∧
      (∀ p q, (signals 0 trace).count p < (waits 0 trace).count p →
        (signals 0 trace).count q < (waits 0 trace).count q → p = q) ∧
      ∀ j, (s.proc j).state = .sleeping → (s.proc j).chan ≠ some (.sem 0) := by
  have htest : (exec step (WaitsFirst 0) handOver [] (boot (0 : Fin 3))).any
      (fun r => decide (inits 0 r.1 = [1]) && decide (signals 0 r.1 = [2]) &&
        decide ((r.2.sem 0).lk = none) && decide (0 < (r.2.sem 0).value)) = true := by
    decide +kernel
  obtain ⟨trace, s, hrun, hs⟩ := exists_run htest
  simp only [Bool.and_eq_true, decide_eq_true_eq] at hs
  obtain ⟨⟨⟨hinit, hsignals⟩, hlk⟩, hvalue⟩ := hs
  obtain ⟨hcount, hpaired, hwoken⟩ := semaphore_safe hrun hinit
  refine ⟨trace, s, hrun, hsignals, ?_, hpaired rfl hrun, hwoken hlk hvalue⟩
  rw [(hcount hlk).1, hsignals]
  rfl

end Process
