import OsAssignments.Process.Locks

/-!
# Waiting on a channel

`Waits s i w` says that the process in slot `i` has called `sleep_prepare` as the waiter
`w` and that nothing has cleared its channel since; it may still be on its way to
`sleep()`, or asleep. A process that sleeps waits, and a process comes to wait by a call
of `sleep_prepare` of its own and in no other way.
-/

namespace Process

open EventRun State

variable {nproc : ℕ}

/-- The waiter at the points between `sleep_prepare` and the end of `sleep`. -/
def Pc.waiter : Pc nproc → Option Waiter
  | release w => some w
  | sleep w => some w
  | _ => none

/-- The process in slot `i` is registered as the waiter `w`, and has not been woken. -/
def Waits (s : State nproc) (i : Fin nproc) (w : Waiter) : Prop :=
  (s.proc i).chan = some (w.chan i) ∧
    ((s.pc i).waiter = some w ∨ s.pc i = w.woken ∧ (s.proc i).state = .sleeping)

/-- Before `sleep` the channel is the waiter's or cleared, and in `sleep` it is the
waiter's. -/
structure Registered (s : State nproc) (i : Fin nproc) : Prop where
  before : ∀ w, (s.pc i).waiter = some w →
    (s.proc i).chan = none ∨ (s.proc i).chan = some (w.chan i)
  asleep : (s.proc i).state = .sleeping →
    ∃ w : Waiter, s.pc i = w.woken ∧ (s.proc i).chan = some (w.chan i)

/-- What may happen to a slot that does not itself go to sleep. -/
structure Proc.Stirs (p p' : Proc nproc) : Prop where
  asleep : p'.state = .sleeping → p.state = .sleeping ∧ p'.chan = p.chan
  chan : p'.chan = p.chan ∨ p'.chan = none

variable {s s' : State nproc} {i j k : Fin nproc} {a : Action nproc} {events trace : List Event}
  {initproc : Fin nproc}

namespace Proc.Stirs

theorem refl (p : Proc nproc) : p.Stirs p := ⟨fun h => ⟨h, rfl⟩, Or.inl rfl⟩

theorem update {q : Proc nproc} (h : (s.proc k).Stirs q) (j : Fin nproc) :
    (s.proc j).Stirs (Function.update s.proc k q j) := by
  by_cases hj : j = k
  · rw [hj, Function.update_self]
    exact h
  · rw [Function.update_of_ne hj]
    exact refl _

theorem setState {x : ProcState} (p : Proc nproc) (hx : x ≠ .sleeping) :
    p.Stirs { p with state := x } :=
  ⟨fun h => absurd h hx, Or.inl rfl⟩

theorem free (p : Proc nproc) : p.Stirs Proc.free := ⟨fun h => (nomatch h), Or.inr rfl⟩

theorem wakeup (ch : Option (Chan nproc)) (p : Proc nproc) : p.Stirs (p.wakeup ch) := by
  unfold Proc.wakeup
  split_ifs with _ hsleeping
  · exact ⟨fun h => (nomatch h), Or.inr rfl⟩
  · exact ⟨fun h => absurd h hsleeping, Or.inr rfl⟩
  · exact refl p

theorem kill (p : Proc nproc) : p.Stirs p.kill := by
  unfold Proc.kill
  split_ifs with hsleeping
  · exact ⟨fun h => (nomatch h), Or.inl rfl⟩
  · exact ⟨fun h => absurd h hsleeping, Or.inl rfl⟩

end Proc.Stirs

/-! ## Steps -/

/-- In a step the process in slot `j` stays registered, and it waits afterwards only if it
did before or was about to register. -/
structure Attends (s s' : State nproc) (j : Fin nproc) : Prop where
  registered : Registered s' j
  waits : ∀ w, Waits s' j w → Waits s j w ∨ s.pc j = .sleepPrepare w

/-- Waiting goes back over a step that leaves the process at a point of the same waiter. -/
theorem attends_of_stirs (h : Registered s j) (hstirs : (s.proc j).Stirs (s'.proc j))
    (hpc : s'.pc j = s.pc j) : Attends s s' j := by
  refine ⟨⟨?_, ?_⟩, ?_⟩
  · intro w hw
    rw [hpc] at hw
    rcases hstirs.chan with hchan | hchan
    · rw [hchan]
      exact h.before w hw
    · exact Or.inl hchan
  · intro hsleeping
    obtain ⟨hold, hchan⟩ := hstirs.asleep hsleeping
    rw [hpc, hchan]
    exact h.asleep hold
  · rintro w ⟨hchan, hw⟩
    have hsame : (s'.proc j).chan = (s.proc j).chan := by
      rcases hstirs.chan with hsame | hnone
      · exact hsame
      · rw [hchan] at hnone
        cases hnone
    rw [hpc] at hw
    exact Or.inl ⟨hsame ▸ hchan, hw.imp_right fun hw => ⟨hw.1, (hstirs.asleep hw.2).1⟩⟩

theorem attends_of_awake {c : Pc nproc} (hpc : s'.pc j = c) (hc : c.waiter = none)
    (hstate : (s'.proc j).state ≠ .sleeping) : Attends s s' j := by
  refine ⟨⟨?_, fun h => absurd h hstate⟩, ?_⟩
  · intro w hw
    rw [hpc, hc] at hw
    cases hw
  · rintro w ⟨_, hw | hw⟩
    · rw [hpc, hc] at hw
      cases hw
    · exact absurd hw.2 hstate

/-- A process that runs moves to a point where it waits for nothing, or for the same as
before. -/
theorem attends_of_move {c : Pc nproc} (h : ∀ j, Registered s j)
    (hrun : (s.proc i).state = .running) (hpc : s'.pc = Function.update s.pc i c)
    (hstirs : ∀ j, (s.proc j).Stirs (s'.proc j))
    (hc : c.waiter = none ∨ c.waiter = (s.pc i).waiter) (j : Fin nproc) : Attends s s' j := by
  by_cases hj : j = i
  · subst hj
    have hstate : (s'.proc j).state ≠ .sleeping := by
      intro hsleeping
      rw [((hstirs j).asleep hsleeping).1] at hrun
      cases hrun
    have hpcj : s'.pc j = c := by rw [hpc, Function.update_self]
    rcases hc with hc | hc
    · exact attends_of_awake hpcj hc hstate
    · refine ⟨⟨?_, fun hsleeping => absurd hsleeping hstate⟩, ?_⟩
      · intro w hw
        rw [hpcj, hc] at hw
        rcases (hstirs j).chan with hchan | hchan
        · rw [hchan]
          exact (h j).before w hw
        · exact Or.inl hchan
      · rintro w ⟨hchan, hw | hw⟩
        · rw [hpcj, hc] at hw
          rcases (hstirs j).chan with hsame | hnone
          · exact Or.inl ⟨hsame ▸ hchan, Or.inl hw⟩
          · rw [hchan] at hnone
            cases hnone
        · exact absurd hw.2 hstate
  · refine attends_of_stirs (h j) (hstirs j) ?_
    rw [hpc, Function.update_of_ne hj]

theorem attends_of_still {p : Proc nproc} (h : ∀ j, Registered s j) (hstirs : (s.proc k).Stirs p)
    (j : Fin nproc) : Attends s (s.setProc k p) j :=
  attends_of_stirs (h j) (hstirs.update j) rfl

theorem Entry.waiter {call : Syscall} {c : Pc nproc} (h : Entry call c) : c.waiter = none := by
  cases h <;> rfl

theorem Goto.waiter {c c' : Pc nproc} (h : Goto s i c c') :
    c'.waiter = none ∨ c'.waiter = c.waiter := by
  cases h with
  | @wokenUp ch k caller _ => cases caller <;> exact Or.inl rfl
  | releaseOther => exact Or.inr rfl
  | _ => exact Or.inl rfl

theorem Waiter.woken_waiter (w : Waiter) : (w.woken : Pc nproc).waiter = none := by
  cases w <;> rfl

theorem Proc.sleep_chan (p : Proc nproc) : p.sleep.chan = p.chan := by
  unfold Proc.sleep
  split_ifs <;> rfl

theorem attends_of_sleep {w : Waiter} (h : ∀ j, Registered s j)
    (hrun : (s.proc i).state = .running) (hpc : s.pc i = .sleep w) (j : Fin nproc) :
    Attends s ((s.setProc i (s.proc i).sleep).setPc i w.woken) j := by
  by_cases hj : j = i
  · subst hj
    cases hchan : (s.proc j).chan with
    | none =>
        -- it has been woken in the meantime, and does not go to sleep
        refine attends_of_awake (by rw [setPc_pc, Function.update_self]) w.woken_waiter ?_
        rw [setPc_proc, setProc_proc, Function.update_self, Proc.sleep, if_pos hchan, hrun]
        decide
    | some ch =>
        have hold : (s.proc j).chan = some (w.chan j) :=
          ((h j).before w (by rw [hpc]; rfl)).resolve_left fun hnone => by
            rw [hchan] at hnone
            cases hnone
        refine ⟨⟨?_, ?_⟩, ?_⟩
        · intro w' hw'
          rw [setPc_pc, Function.update_self, w.woken_waiter] at hw'
          cases hw'
        · intro _
          refine ⟨w, by rw [setPc_pc, Function.update_self], ?_⟩
          rw [setPc_proc, setProc_proc, Function.update_self, Proc.sleep_chan, hold]
        · rintro w' ⟨_, hw' | ⟨hw', _⟩⟩
          · rw [setPc_pc, Function.update_self, w.woken_waiter] at hw'
            cases hw'
          · rw [setPc_pc, Function.update_self] at hw'
            obtain rfl : w = w' := by
              cases w <;> cases w' <;> cases hw' <;> rfl
            exact Or.inl ⟨hold, Or.inl (by rw [hpc]; rfl)⟩
  · refine attends_of_stirs (h j) ?_ (by rw [setPc_pc, Function.update_of_ne hj, setProc_pc])
    rw [setPc_proc, setProc_proc, Function.update_of_ne hj]
    exact .refl _

theorem attends_of_sleepPrepare {w : Waiter} (h : ∀ j, Registered s j)
    (hrun : (s.proc i).state = .running) (hpc : s.pc i = .sleepPrepare w) (j : Fin nproc) :
    Attends s ((s.setProc i { s.proc i with chan := some (w.chan i) }).setPc i (.release w)) j := by
  by_cases hj : j = i
  · subst hj
    refine ⟨⟨?_, ?_⟩, ?_⟩
    · intro w' hw'
      rw [setPc_pc, Function.update_self] at hw'
      cases hw'
      rw [setPc_proc, setProc_proc, Function.update_self]
      exact Or.inr rfl
    · intro hsleeping
      rw [setPc_proc, setProc_proc, Function.update_self, hrun] at hsleeping
      cases hsleeping
    · rintro w' ⟨_, hw' | ⟨_, hsleeping⟩⟩
      · rw [setPc_pc, Function.update_self] at hw'
        cases hw'
        exact Or.inr hpc
      · rw [setPc_proc, setProc_proc, Function.update_self, hrun] at hsleeping
        cases hsleeping
  · refine attends_of_stirs (h j) ?_ (by rw [setPc_pc, Function.update_of_ne hj, setProc_pc])
    rw [setPc_proc, setProc_proc, Function.update_of_ne hj]
    exact .refl _

theorem Stepped.attends (hstep : Stepped s a s' events) (h : ∀ j, Registered s j) :
    ∀ j, Attends s s' j := by
  have hsame : ∀ j : Fin nproc, (s.proc j).Stirs (s.proc j) := fun _ => .refl _
  have hnone : ∀ {c c' : Pc nproc}, c.waiter = none → c.waiter = none ∨ c.waiter = c'.waiter :=
    fun hc => Or.inl hc
  cases hstep with
  | dispatch _ => exact attends_of_still h (.setState _ (by decide))
  | yield _ _ => exact attends_of_still h (.setState _ (by decide))
  | wakeOther => exact attends_of_still h (.wakeup _ _)
  | fault hrun _ =>
      refine attends_of_move h hrun rfl ?_ (hnone rfl)
      exact Proc.Stirs.update ⟨fun hs => ⟨hs, rfl⟩, Or.inl rfl⟩
  | trap hrun _ _ hentry => exact attends_of_move h hrun rfl hsame (hnone hentry.waiter)
  | goto hrun hgoto => exact attends_of_move h hrun rfl hsame hgoto.waiter
  | returns hrun _ => exact attends_of_move h hrun rfl hsame (hnone rfl)
  | allocFails hrun _ _ =>
      exact attends_of_move h hrun rfl (Proc.Stirs.free _).update (hnone rfl)
  | @alloc i k _ thread hrun _ hunused =>
      intro j
      by_cases hji : j = i
      · subst hji
        have hjk : j ≠ k := by
          rintro rfl
          rw [hunused] at hrun
          cases hrun
        refine attends_of_awake (by rw [setPc_pc, Function.update_self]) rfl ?_
        rw [setPc_proc, setPc_proc, setProc_proc, Function.update_of_ne hjk]
        exact ne_of_state hrun (by decide)
      · by_cases hjk : j = k
        · subst hjk
          refine attends_of_awake (c := .user) ?_ rfl ?_
          · rw [setPc_pc, Function.update_of_ne hji, setPc_pc, Function.update_self]
          · rw [setPc_proc, setPc_proc, setProc_proc, Function.update_self]
            exact fun hs => (nomatch hs)
        · refine attends_of_stirs (h j) ?_ ?_
          · rw [setPc_proc, setPc_proc, setProc_proc, Function.update_of_ne hjk]
            exact .refl _
          · rw [setPc_pc, Function.update_of_ne hji, setPc_pc, Function.update_of_ne hjk]
            rfl
  | setParent hrun _ _ =>
      refine attends_of_move h hrun rfl ?_ (hnone rfl)
      exact Proc.Stirs.update ⟨fun hs => ⟨hs, rfl⟩, Or.inl rfl⟩
  | setRunnable hrun _ =>
      exact attends_of_move h hrun rfl (Proc.Stirs.setState _ (by decide)).update (hnone rfl)
  | kexit hrun _ _ _ => exact attends_of_move h hrun rfl hsame (hnone rfl)
  | reparent hrun _ _ =>
      refine attends_of_move h hrun rfl ?_ (hnone rfl)
      exact Proc.Stirs.update ⟨fun hs => ⟨hs, rfl⟩, Or.inl rfl⟩
  | wakeup hrun _ => exact attends_of_move h hrun rfl (Proc.Stirs.wakeup _ _).update (hnone rfl)
  | setZombie hrun _ =>
      exact attends_of_move h hrun rfl (Proc.Stirs.setState _ (by decide)).update (hnone rfl)
  | kwait hrun _ _ => exact attends_of_move h hrun rfl hsame (hnone rfl)
  | scanFails hrun _ => exact attends_of_move h hrun rfl hsame (hnone rfl)
  | reap hrun _ _ _ _ => exact attends_of_move h hrun rfl (Proc.Stirs.free _).update (hnone rfl)
  | sleepPrepare hrun hpc => exact attends_of_sleepPrepare h hrun hpc
  | releaseWait hrun hpc => exact attends_of_move h hrun rfl hsame (Or.inr (by rw [hpc]; rfl))
  | releaseSem hrun hpc => exact attends_of_move h hrun rfl hsame (Or.inr (by rw [hpc]; rfl))
  | sleep hrun hpc => exact attends_of_sleep h hrun hpc
  | kill hrun _ _ => exact attends_of_move h hrun rfl (Proc.Stirs.kill _).update (hnone rfl)
  | semInit hrun _ _ => exact attends_of_move h hrun rfl hsame (hnone rfl)
  | semWait hrun _ _ _ => exact attends_of_move h hrun rfl hsame (hnone rfl)
  | semTake hrun _ _ => exact attends_of_move h hrun rfl hsame (hnone rfl)
  | semWoken hrun _ _ => exact attends_of_move h hrun rfl hsame (hnone rfl)
  | semKilled hrun _ _ => exact attends_of_move h hrun rfl hsame (hnone rfl)
  | semSignal hrun _ _ _ => exact attends_of_move h hrun rfl hsame (hnone rfl)
  | semSignaled hrun _ => exact attends_of_move h hrun rfl hsame (hnone rfl)

def WaitsBack (s s' : State nproc) : Prop :=
  ∀ j w, Waits s' j w → Waits s j w ∨ s.pc j = .sleepPrepare w

theorem Stepped.waitsBack (hstep : Stepped s a s' events) (h : ∀ j, Registered s j) :
    WaitsBack s s' :=
  fun j => (hstep.attends h j).waits

theorem not_waits_of_wakeup {w : Waiter} (hproc : s'.proc q = (s.proc q).wakeup (some (w.chan q))) :
    ¬ Waits s' q w := by
  rintro ⟨hchan, _⟩
  rw [hproc] at hchan
  unfold Proc.wakeup at hchan
  split_ifs at hchan with heq
  exact heq hchan

theorem boot_registered (initproc i : Fin nproc) : Registered (boot initproc) i := by
  constructor
  · intro w hw
    cases hw
  · intro hsleeping
    by_cases hi : i = initproc <;> simp [boot, hi, Proc.fresh, Proc.free] at hsleeping

theorem registered_of_run {ok : List Event → State nproc → Action nproc → Prop}
    (h : Run step ok (boot initproc) trace s) (i : Fin nproc) : Registered s i :=
  (invariant_of_run (I := fun _ s => ∀ i, Registered s i) (boot_registered initproc)
    (fun _ _ _ _ _ _ hs _ hstep i => (hstep.attends hs i).registered) h).2 i

theorem Registered.waits (h : Registered s i) (hsleeping : (s.proc i).state = .sleeping) :
    ∃ w : Waiter, s.pc i = w.woken ∧ Waits s i w := by
  obtain ⟨w, hpc, hchan⟩ := h.asleep hsleeping
  exact ⟨w, hpc, hchan, Or.inr ⟨hpc, hsleeping⟩⟩

end Process
