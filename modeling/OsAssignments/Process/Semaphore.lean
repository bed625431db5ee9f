import Mathlib.Algebra.Ring.Int.Defs
import Mathlib.Data.List.Perm.Subperm
import OsAssignments.Process.Waiting

/-!
# Semaphores

For one semaphore `id`, a run tells the values it has been initialised with and the
processes that have returned from `sem_wait` and from `sem_signal` with success. `Counted`
relates them to the value: it is what the semaphore was initialised with, plus the signals,
minus the waits, and one more while a process is about to return from its signal. As long
as the value is not zero, nobody is registered on the channel of the semaphore, but for
those slots that the process that signals has not yet come to.
-/

namespace Process

open EventRun Mutex State

variable {nproc : ℕ}

/-! ## What a run tells -/

/-- The processes that have returned 0 from `call`. -/
def callers (call : Syscall) (trace : List Event) : List ℤ :=
  (trace.filter fun e => e.call = call ∧ e.ret = 0).map Event.pid

/-- The value that a successful `sem_init` of `id` sets. -/
def Event.init (id : Fin 10) (e : Event) : Option ℤ :=
  match e.call with
  | .semInit k v => if k = id ∧ e.ret = 0 then some v else none
  | _ => none

def inits (id : Fin 10) (trace : List Event) : List ℤ := trace.filterMap (Event.init id)

def signals (id : Fin 10) (trace : List Event) : List ℤ := callers (.semSignal id) trace

def waits (id : Fin 10) (trace : List Event) : List ℤ := callers (.semWait id) trace

def Syscall.semArg : Syscall → Option ℤ
  | semInit id _ => some id
  | semWait id => some id
  | semSignal id => some id
  | _ => none

/-- The events are not successes of the system calls on the semaphore. -/
def Silent (id : Fin 10) (events : List Event) : Prop :=
  ∀ e ∈ events, e.call.semArg = some (id : ℤ) → e.ret ≠ 0

section Trace

variable {id : Fin 10} {trace events : List Event} {call : Syscall} {p r : ℤ}

theorem callers_append :
    callers call (trace ++ events) = callers call trace ++ callers call events := by
  simp [callers]

theorem inits_append : inits id (trace ++ events) = inits id trace ++ inits id events := by
  simp [inits]

theorem signals_append : signals id (trace ++ events) = signals id trace ++ signals id events :=
  callers_append

theorem waits_append : waits id (trace ++ events) = waits id trace ++ waits id events :=
  callers_append

theorem Silent.callers (h : Silent id events) (hcall : call.semArg = some (id : ℤ)) :
    callers call events = [] := by
  simp only [Process.callers, List.map_eq_nil_iff, List.filter_eq_nil_iff, decide_eq_true_eq]
  rintro e he ⟨rfl, hret⟩
  exact h e he hcall hret

theorem Silent.signals (h : Silent id events) : signals id events = [] := h.callers rfl

theorem Silent.waits (h : Silent id events) : waits id events = [] := h.callers rfl

theorem Silent.inits (h : Silent id events) : inits id events = [] := by
  refine List.filterMap_eq_nil_iff.mpr ?_
  intro e he
  unfold Event.init
  split
  · next k v hcall =>
      refine if_neg ?_
      rintro ⟨rfl, hret⟩
      exact h e he (by rw [hcall]; rfl) hret
  · rfl

theorem silent_nil : Silent id [] := fun _ he => (nomatch he)

theorem silent_singleton (h : call.semArg = some (id : ℤ) → r ≠ 0) : Silent id [⟨p, call, r⟩] := by
  intro e he
  rw [List.mem_singleton.mp he]
  exact h

end Trace

/-! ## The points of the calls -/

namespace Pc

/-- The semaphore that a process deals with, once it has seen that it is initialised. -/
def concerns : Pc nproc → Option (Fin 10)
  | wakeup _ _ (.semSignal id) => some id
  | sleepPrepare (.sem id) => some id
  | release (.sem id) => some id
  | sleep (.sem id) => some id
  | semTest id => some id
  | semWoken id => some id
  | semKilled id => some id
  | semSignaled id => some id
  | _ => none

/-- The semaphore that a process is about to sleep on, and still holds the lock of. -/
def prepares : Pc nproc → Option (Fin 10)
  | sleepPrepare (.sem id) => some id
  | release (.sem id) => some id
  | _ => none

/-- The semaphore that a process has raised the value of, in a signal that has not returned. -/
def posts : Pc nproc → Option (Fin 10)
  | wakeup _ _ (.semSignal id) => some id
  | semSignaled id => some id
  | _ => none

variable {c : Pc nproc} {id : Fin 10}

theorem concerns_of_prepares (h : c.prepares = some id) : c.concerns = some id := by
  cases c with
  | sleepPrepare w => cases w <;> exact h
  | release w => cases w <;> exact h
  | _ => cases h

theorem concerns_of_posts (h : c.posts = some id) : c.concerns = some id := by
  cases c with
  | wakeup ch k caller => cases caller <;> exact h
  | semSignaled k => exact h
  | _ => cases h

theorem holdsSem_of_prepares (h : c.prepares = some id) : c.holdsSem = some id := by
  cases c with
  | sleepPrepare w => cases w <;> exact h
  | release w => cases w <;> exact h
  | _ => cases h

end Pc

/-- One, while a process is in a signal that it has not returned from, and zero otherwise. -/
def pending (s : State nproc) (id : Fin 10) : ℤ :=
  match (s.sem id).lk with
  | some i => if (s.pc i).posts = some id then 1 else 0
  | none => 0

/-! ## The invariant -/

/-- The value of the semaphore and those who wait for it, as long as it has been initialised
at most once. -/
structure Counted (id : Fin 10) (trace : List Event) (s : State nproc) : Prop where
  initialized : (s.sem id).initialized = true ↔ inits id trace ≠ []
  before : inits id trace = [] → signals id trace = [] ∧ waits id trace = [] ∧
    ∀ j, (s.pc j).concerns ≠ some id ∧ (s.proc j).chan ≠ some (.sem id)
  count : (s.sem id).value = (inits id trace).sum + (signals id trace).length -
    (waits id trace).length + pending s id
  nonneg : pending s id ≤ (s.sem id).value
  empty : ∀ i, (s.pc i).prepares = some id → (s.sem id).value = 0
  woken : (s.sem id).value ≠ 0 → ∀ j : Fin nproc, (s.proc j).chan = some (.sem id) →
    ∃ (i : Fin nproc) (k : ℕ), s.pc i = .wakeup (some (.sem id)) k (.semSignal id) ∧ k ≤ j
  args : ∀ i v, s.pc i = .semInit id v → 0 ≤ v

variable {id : Fin 10} {s s' : State nproc} {i k : Fin nproc} {a : Action nproc}
  {events trace : List Event}

theorem pending_of_none (h : (s.sem id).lk = none) : pending s id = 0 := by
  rw [pending, h]

theorem pending_of_some (h : (s.sem id).lk = some i) :
    pending s id = if (s.pc i).posts = some id then 1 else 0 := by
  rw [pending, h]

theorem pending_keep {c : Pc nproc} (hlk : (s'.sem id).lk = (s.sem id).lk)
    (hpc : s'.pc = Function.update s.pc i c)
    (hposts : c.posts = some id ↔ (s.pc i).posts = some id) : pending s' id = pending s id := by
  unfold pending
  rw [hlk]
  cases (s.sem id).lk with
  | none => rfl
  | some h =>
      dsimp only
      rw [hpc]
      by_cases hh : h = i
      · rw [hh, Function.update_self]
        exact if_congr hposts rfl rfl
      · rw [Function.update_of_ne hh]

theorem Counted.move {c : Pc nproc} (h : Counted id trace s)
    (hpc : s'.pc = Function.update s.pc i c)
    (hinit : (s'.sem id).initialized = (s.sem id).initialized)
    (hconcerns : c.concerns = some id → (s.sem id).initialized = true)
    (hchan : ∀ j, (s'.proc j).chan = some (.sem id) → (s.proc j).chan = some (.sem id) ∨
      (s.sem id).initialized = true)
    (hinits : inits id events = [])
    (hcallers : (s.sem id).initialized = false → signals id events = [] ∧ waits id events = [])
    (hcount : (s'.sem id).value - pending s' id = (s.sem id).value - pending s id +
      (signals id events).length - (waits id events).length)
    (hnonneg : pending s' id ≤ (s'.sem id).value)
    (hempty : ∀ j, (s'.pc j).prepares = some id → (s'.sem id).value = 0)
    (hwoken : (s'.sem id).value ≠ 0 → ∀ j : Fin nproc, (s'.proc j).chan = some (.sem id) →
      ∃ (i : Fin nproc) (k : ℕ), s'.pc i = .wakeup (some (.sem id)) k (.semSignal id) ∧ k ≤ j)
    (hargs : ∀ v, c = .semInit id v → 0 ≤ v) : Counted id (trace ++ events) s' := by
  have hsame : inits id (trace ++ events) = inits id trace := by
    rw [inits_append, hinits, List.append_nil]
  constructor
  · rw [hinit, hsame]
    exact h.initialized
  · intro hnil
    rw [hsame] at hnil
    have hfalse : (s.sem id).initialized = false := by
      by_contra htrue
      exact h.initialized.mp (Bool.eq_true_of_not_eq_false htrue) hnil
    obtain ⟨hsignals, hwaits, hall⟩ := h.before hnil
    obtain ⟨hsignals', hwaits'⟩ := hcallers hfalse
    refine ⟨?_, ?_, ?_⟩
    · rw [signals_append, hsignals, hsignals']
      rfl
    · rw [waits_append, hwaits, hwaits']
      rfl
    · intro j
      constructor
      · rw [hpc]
        by_cases hj : j = i
        · rw [hj, Function.update_self]
          intro hc
          cases hfalse.symm.trans (hconcerns hc)
        · rw [Function.update_of_ne hj]
          exact (hall j).1
      · intro hc
        rcases hchan j hc with hc | hc
        · exact (hall j).2 hc
        · cases hfalse.symm.trans hc
  · have hold := h.count
    rw [hsame, signals_append, waits_append, List.length_append, List.length_append]
    push_cast
    omega
  · exact hnonneg
  · exact hempty
  · exact hwoken
  · intro j v hj
    rw [hpc] at hj
    by_cases hji : j = i
    · rw [hji, Function.update_self] at hj
      exact hargs v hj
    · rw [Function.update_of_ne hji] at hj
      exact h.args j v hj

theorem Counted.initialized_of_concerns (h : Counted id trace s)
    (hi : (s.pc i).concerns = some id) : (s.sem id).initialized = true :=
  h.initialized.mpr fun hnil => ((h.before hnil).2.2 i).1 hi

/-- A step that leaves the value as it is, by a process that is not in a signal and does not
go on to sleep. -/
theorem Counted.idle {c : Pc nproc} (h : Counted id trace s)
    (hpc : s'.pc = Function.update s.pc i c) (hvalue : (s'.sem id).value = (s.sem id).value)
    (hinit : (s'.sem id).initialized = (s.sem id).initialized)
    (hpending : pending s' id = pending s id) (hold : (s.pc i).posts ≠ some id)
    (hnew : c.prepares ≠ some id)
    (hconcerns : c.concerns = some id → (s.sem id).initialized = true)
    (hchan : ∀ j, (s'.proc j).chan = some (.sem id) → (s.proc j).chan = some (.sem id))
    (hsilent : Silent id events) (hargs : ∀ v, c = .semInit id v → 0 ≤ v) :
    Counted id (trace ++ events) s' := by
  have hsignals := hsilent.signals
  have hwaits := hsilent.waits
  refine h.move hpc hinit hconcerns (fun j hj => Or.inl (hchan j hj)) hsilent.inits
    (fun _ => ⟨hsignals, hwaits⟩) ?_ ?_ ?_ ?_ hargs
  · rw [hvalue, hpending, hsignals, hwaits]
    simp
  · rw [hvalue, hpending]
    exact h.nonneg
  · intro j hj
    rw [hvalue]
    rw [hpc] at hj
    by_cases hji : j = i
    · rw [hji, Function.update_self] at hj
      exact absurd hj hnew
    · rw [Function.update_of_ne hji] at hj
      exact h.empty j hj
  · intro hne j hj
    rw [hvalue] at hne
    obtain ⟨i', k, hi', hk⟩ := h.woken hne j (hchan j hj)
    have hii : i' ≠ i := by
      rintro rfl
      rw [hi'] at hold
      exact hold rfl
    refine ⟨i', k, ?_, hk⟩
    rw [hpc, Function.update_of_ne hii]
    exact hi'

theorem Counted.quiet {c : Pc nproc} (h : Counted id trace s) (hsem : s'.sem id = s.sem id)
    (hpc : s'.pc = Function.update s.pc i c) (hold : (s.pc i).concerns ≠ some id)
    (hnew : c.concerns ≠ some id)
    (hchan : ∀ j, (s'.proc j).chan = some (.sem id) → (s.proc j).chan = some (.sem id))
    (hsilent : Silent id events) (hargs : ∀ v, c = .semInit id v → 0 ≤ v) :
    Counted id (trace ++ events) s' := by
  have hposts : (s.pc i).posts ≠ some id := fun hc => hold (Pc.concerns_of_posts hc)
  refine h.idle hpc (by rw [hsem]) (by rw [hsem]) ?_ hposts
    (fun hc => hnew (Pc.concerns_of_prepares hc)) (fun hc => absurd hc hnew) hchan hsilent hargs
  exact pending_keep (by rw [hsem]) hpc
    (iff_of_false (fun hc => hnew (Pc.concerns_of_posts hc)) hposts)

theorem Counted.still {p : Proc nproc} (h : Counted id trace s)
    (hchan : p.chan = some (.sem id) → (s.proc k).chan = some (.sem id)) :
    Counted id trace (s.setProc k p) := by
  have hold : ∀ j, ((s.setProc k p).proc j).chan = some (.sem id) →
      (s.proc j).chan = some (.sem id) := by
    intro j hj
    rw [setProc_proc] at hj
    by_cases hjk : j = k
    · rw [hjk, Function.update_self] at hj
      rw [hjk]
      exact hchan hj
    · rwa [Function.update_of_ne hjk] at hj
  refine ⟨h.initialized, ?_, h.count, h.nonneg, h.empty, fun hne j hj => h.woken hne j (hold j hj),
    h.args⟩
  intro hnil
  obtain ⟨hsignals, hwaits, hall⟩ := h.before hnil
  exact ⟨hsignals, hwaits, fun j => ⟨(hall j).1, fun hj => (hall j).2 (hold j hj)⟩⟩

/-- While the lock is held by a process that is not in a signal, or free, nobody who could be
woken is registered. -/
theorem Counted.nobody (h : Counted id trace s) (hlocked : Locked s)
    (hlk : (s.sem id).lk = none ∨ ∃ i, (s.pc i).holdsSem = some id ∧ (s.pc i).posts ≠ some id)
    (hvalue : (s.sem id).value ≠ 0) (j : Fin nproc) : (s.proc j).chan ≠ some (.sem id) := by
  intro hj
  obtain ⟨i', k, hi', _⟩ := h.woken hvalue j hj
  have hholds : (s.pc i').holdsSem = some id := by
    rw [hi']
    rfl
  rcases hlk with hlk | ⟨i, hi, hposts⟩
  · exact (hlk ▸ hlocked.sem id).not_inside hholds
  · obtain rfl := (hlocked.sem id).eq hholds hi
    rw [hi'] at hposts
    exact hposts rfl

theorem Locked.lk_eq (h : Locked s) (hi : (s.pc i).holdsSem = some id) : (s.sem id).lk = some i :=
  (h.sem id i).mpr hi

/-! ## The steps on the semaphore -/

theorem Locked.eq_of_prepares {j : Fin nproc} (h : Locked s) (hi : (s.pc i).holdsSem = some id)
    (hj : (s.pc j).prepares = some id) : j = i :=
  (h.sem id).eq (Pc.holdsSem_of_prepares hj) hi

theorem pending_setSem {x : Semaphore nproc} {c : Pc nproc} (hsem : s'.sem id = x)
    (hpc : s'.pc = Function.update s.pc i c) (hlk : x.lk = none ∨ x.lk = some i) :
    pending s' id = if x.lk = some i ∧ c.posts = some id then 1 else 0 := by
  rcases hlk with hlk | hlk
  · rw [pending_of_none (hsem ▸ hlk), hlk]
    rfl
  · rw [pending_of_some (hsem ▸ hlk), hpc, Function.update_self, hlk]
    simp

theorem pending_eq_zero (hlocked : Locked s) (hi : (s.pc i).holdsSem = some id)
    (hposts : (s.pc i).posts ≠ some id) : pending s id = 0 := by
  rw [pending_of_some (hlocked.lk_eq hi), if_neg hposts]

theorem Counted.signal (h : Counted id trace s) (hlocked : Locked s)
    (hlk : (s.sem id).lk = none) (hinit : (s.sem id).initialized = true) :
    Counted id trace ((s.setSem id { s.sem id with
      value := (s.sem id).value + 1, lk := some i }).setPc i
        (.wakeup (some (.sem id)) 0 (.semSignal id))) := by
  have hzero := pending_of_none hlk
  have hnonneg := h.nonneg
  have hone : pending ((s.setSem id { s.sem id with
      value := (s.sem id).value + 1, lk := some i }).setPc i
        (.wakeup (some (.sem id)) 0 (.semSignal id))) id = _ :=
    pending_setSem (Function.update_self id _ s.sem) rfl (Or.inr rfl)
  rw [if_pos ⟨rfl, rfl⟩] at hone
  rw [← List.append_nil trace]
  refine h.move (i := i) rfl ?_ (fun _ => hinit) (fun _ hj => Or.inl hj) rfl
    (fun _ => ⟨rfl, rfl⟩) ?_ ?_ ?_ ?_ fun _ hc => (nomatch hc)
  · rw [setPc_sem, setSem_sem, Function.update_self]
  · rw [hone, hzero, setPc_sem, setSem_sem, Function.update_self]
    simp [signals, waits, callers]
  · rw [hone, setPc_sem, setSem_sem, Function.update_self]
    dsimp only
    omega
  · intro j hj
    obtain ⟨_, hj⟩ := other_of_setPc (P := fun c => c.prepares = some id) hj nofun
    exact absurd (Pc.holdsSem_of_prepares hj) (hlk ▸ hlocked.sem id).not_inside
  · intro _ j _
    refine ⟨i, 0, ?_, Nat.zero_le _⟩
    rw [setPc_pc, Function.update_self]

theorem Counted.signaled {p : ℤ} (h : Counted id trace s) (hlocked : Locked s)
    (hpc : s.pc i = .semSignaled id) :
    Counted id (trace ++ [⟨p, .semSignal id, 0⟩])
      ((s.setSem id { s.sem id with lk := none }).setPc i .trapReturn) := by
  have hholds : (s.pc i).holdsSem = some id := congrArg Pc.holdsSem hpc
  have hposts : (s.pc i).posts = some id := congrArg Pc.posts hpc
  have hone : pending s id = 1 := by rw [pending_of_some (hlocked.lk_eq hholds), if_pos hposts]
  have hzero : pending ((s.setSem id { s.sem id with lk := none }).setPc i .trapReturn) id = _ :=
    pending_setSem (Function.update_self id _ s.sem) rfl (Or.inl rfl)
  rw [if_neg fun hc => (nomatch hc.1)] at hzero
  have hinit := h.initialized_of_concerns (congrArg Pc.concerns hpc)
  have hnonneg := h.nonneg
  refine h.move (i := i) rfl ?_ (fun _ => hinit) (fun _ hj => Or.inl hj) rfl
    (fun hfalse => (nomatch hinit.symm.trans hfalse)) ?_ ?_ ?_ ?_ fun _ hc => (nomatch hc)
  · rw [setPc_sem, setSem_sem, Function.update_self]
  · rw [hone, hzero, setPc_sem, setSem_sem, Function.update_self]
    simp [signals, waits, callers]
  · rw [hzero, setPc_sem, setSem_sem, Function.update_self]
    dsimp only
    omega
  · intro j hj
    obtain ⟨hji, hj⟩ := other_of_setPc (P := fun c => c.prepares = some id) hj nofun
    exact absurd (hlocked.eq_of_prepares hholds hj) hji
  · intro hvalue j hj
    rw [setPc_sem, setSem_sem, Function.update_self] at hvalue
    obtain ⟨i', k, hi', _⟩ := h.woken hvalue j hj
    obtain rfl := (hlocked.sem id).eq (congrArg Pc.holdsSem hi') hholds
    rw [hpc] at hi'
    cases hi'

theorem Counted.take {p : ℤ} (h : Counted id trace s) (hlocked : Locked s)
    (hpc : s.pc i = .semTest id) (hvalue : (s.sem id).value ≠ 0) :
    Counted id (trace ++ [⟨p, .semWait id, 0⟩])
      ((s.setSem id { s.sem id with value := (s.sem id).value - 1, lk := none }).setPc i
        .trapReturn) := by
  have hholds : (s.pc i).holdsSem = some id := congrArg Pc.holdsSem hpc
  have hposts : (s.pc i).posts ≠ some id := by
    rw [hpc]
    exact fun hc => (nomatch hc)
  have hold := pending_eq_zero hlocked hholds hposts
  have hzero : pending ((s.setSem id { s.sem id with
      value := (s.sem id).value - 1, lk := none }).setPc i .trapReturn) id = _ :=
    pending_setSem (Function.update_self id _ s.sem) rfl (Or.inl rfl)
  rw [if_neg fun hc => (nomatch hc.1)] at hzero
  have hinit := h.initialized_of_concerns (congrArg Pc.concerns hpc)
  have hnonneg := h.nonneg
  refine h.move (i := i) rfl ?_ (fun _ => hinit) (fun _ hj => Or.inl hj) rfl
    (fun hfalse => (nomatch hinit.symm.trans hfalse)) ?_ ?_ ?_ ?_ fun _ hc => (nomatch hc)
  · rw [setPc_sem, setSem_sem, Function.update_self]
  · rw [hold, hzero, setPc_sem, setSem_sem, Function.update_self]
    simp [signals, waits, callers]
  · rw [hzero, setPc_sem, setSem_sem, Function.update_self]
    dsimp only
    omega
  · intro j hj
    obtain ⟨hji, hj⟩ := other_of_setPc (P := fun c => c.prepares = some id) hj nofun
    exact absurd (hlocked.eq_of_prepares hholds hj) hji
  · intro _ j hj
    exact absurd hj (h.nobody hlocked (Or.inr ⟨i, hholds, hposts⟩) hvalue j)

theorem Proc.wakeup_chan {ch : Option (Chan nproc)} {p : Proc nproc} {x : Chan nproc}
    (h : (p.wakeup ch).chan = some x) : p.chan = some x ∧ ch ≠ some x := by
  unfold Proc.wakeup at h
  split_ifs at h with hch
  exact ⟨h, fun heq => hch (h.trans heq.symm)⟩

theorem Counted.wake {ch : Option (Chan nproc)} (h : Counted id trace s) (hlocked : Locked s)
    (hpc : s.pc i = .wakeup ch k (.semSignal id)) :
    Counted id trace ((s.setProc k ((s.proc k).wakeup ch)).setPc i
      (.wakeup ch (k + 1) (.semSignal id))) := by
  have hholds : (s.pc i).holdsSem = some id := congrArg Pc.holdsSem hpc
  have hpending : pending ((s.setProc k ((s.proc k).wakeup ch)).setPc i
      (.wakeup ch (k + 1) (.semSignal id))) id = pending s id := by
    refine pending_keep (i := i) rfl rfl ?_
    rw [hpc]
    rfl
  have hchan : ∀ j : Fin nproc, (((s.setProc k ((s.proc k).wakeup ch)).setPc i
      (.wakeup ch (k + 1) (.semSignal id))).proc j).chan = some (.sem id) →
      (s.proc j).chan = some (.sem id) ∧ (j = k → ch ≠ some (.sem id)) := by
    intro j hj
    rw [setPc_proc, setProc_proc] at hj
    by_cases hjk : j = k
    · rw [hjk, Function.update_self] at hj
      rw [hjk]
      exact ⟨(Proc.wakeup_chan hj).1, fun _ => (Proc.wakeup_chan hj).2⟩
    · rw [Function.update_of_ne hjk] at hj
      exact ⟨hj, fun heq => absurd heq hjk⟩
  have hinit := h.initialized_of_concerns (congrArg Pc.concerns hpc)
  rw [← List.append_nil trace]
  refine h.move (i := i) rfl rfl (fun _ => hinit) (fun j hj => Or.inl (hchan j hj).1) rfl
    (fun _ => ⟨rfl, rfl⟩) ?_ ?_ ?_ ?_ fun _ hc => (nomatch hc)
  · rw [hpending]
    simp [signals, waits, callers]
  · rw [hpending]
    exact h.nonneg
  · intro j hj
    obtain ⟨_, hj⟩ := other_of_setPc (P := fun c => c.prepares = some id) hj nofun
    exact h.empty j hj
  · intro hvalue j hj
    obtain ⟨hold, hne⟩ := hchan j hj
    obtain ⟨i', k', hi', hk'⟩ := h.woken hvalue j hold
    obtain rfl := (hlocked.sem id).eq (congrArg Pc.holdsSem hi') hholds
    rw [hpc] at hi'
    cases hi'
    -- the slot that has just been woken is not registered any more
    refine ⟨i', k + 1, ?_, ?_⟩
    · rw [setPc_pc, Function.update_self]
    · exact Nat.lt_of_le_of_ne hk' fun heq => hne (Fin.ext heq.symm) rfl

theorem Counted.wokenUp {ch : Option (Chan nproc)} {n : ℕ} (h : Counted id trace s)
    (hlocked : Locked s) (hpc : s.pc i = .wakeup ch n (.semSignal id)) (hn : nproc ≤ n) :
    Counted id trace (s.setPc i (.semSignaled id)) := by
  have hholds : (s.pc i).holdsSem = some id := congrArg Pc.holdsSem hpc
  have hpending : pending (s.setPc i (.semSignaled id)) id = pending s id := by
    refine pending_keep (i := i) rfl rfl ?_
    rw [hpc]
    rfl
  have hinit := h.initialized_of_concerns (congrArg Pc.concerns hpc)
  rw [← List.append_nil trace]
  refine h.move (i := i) rfl rfl (fun _ => hinit) (fun _ hj => Or.inl hj) rfl
    (fun _ => ⟨rfl, rfl⟩) ?_ ?_ ?_ ?_ fun _ hc => (nomatch hc)
  · rw [hpending]
    simp [signals, waits, callers]
  · rw [hpending]
    exact h.nonneg
  · intro j hj
    obtain ⟨_, hj⟩ := other_of_setPc (P := fun c => c.prepares = some id) hj nofun
    exact h.empty j hj
  · intro hvalue j hj
    obtain ⟨i', k', hi', hk'⟩ := h.woken hvalue j hj
    obtain rfl := (hlocked.sem id).eq (congrArg Pc.holdsSem hi') hholds
    rw [hpc] at hi'
    cases hi'
    exact absurd (hn.trans hk') (Nat.not_le.mpr j.isLt)

/-- A process that goes on to sleep, while the value is zero and it holds the lock. -/
theorem Counted.prepare {c : Pc nproc} {p : Proc nproc} (h : Counted id trace s)
    (hvalue : (s.sem id).value = 0) (hconcerns : (s.pc i).concerns = some id)
    (hold : (s.pc i).posts ≠ some id) (hc : c.posts ≠ some id) (hargs : ∀ v, c ≠ .semInit id v) :
    Counted id trace ((s.setProc i p).setPc i c) := by
  have hinit := h.initialized_of_concerns hconcerns
  have hpending : pending ((s.setProc i p).setPc i c) id = pending s id :=
    pending_keep (i := i) rfl rfl (iff_of_false hc hold)
  rw [← List.append_nil trace]
  refine h.move (i := i) rfl rfl (fun _ => hinit) (fun _ _ => Or.inr hinit) rfl
    (fun _ => ⟨rfl, rfl⟩) ?_ ?_ (fun _ _ => hvalue) (fun hne => absurd hvalue hne)
    fun v hv => absurd hv (hargs v)
  · rw [hpending]
    simp [signals, waits, callers]
  · rw [hpending]
    exact h.nonneg

theorem Counted.initialize {p v : ℤ} (h : Counted id trace s) (hlocked : Locked s)
    (hone : (inits id (trace ++ [⟨p, .semInit id v, 0⟩])).length ≤ 1)
    (hpc : s.pc i = .semInit id v) (hlk : (s.sem id).lk = none) :
    Counted id (trace ++ [⟨p, .semInit id v, 0⟩])
      ((s.setSem id ⟨v, true, none⟩).setPc i .trapReturn) := by
  have hinits : inits id [⟨p, .semInit id v, 0⟩] = [v] := by simp [inits, Event.init]
  have hnil : inits id trace = [] := by
    rw [inits_append, hinits, List.length_append] at hone
    exact List.length_eq_zero_iff.mp (Nat.le_zero.mp (Nat.le_of_succ_le_succ hone))
  obtain ⟨hsignals, hwaits, hall⟩ := h.before hnil
  have hsem : ((s.setSem id ⟨v, true, none⟩).setPc i .trapReturn).sem id = ⟨v, true, none⟩ :=
    Function.update_self id _ s.sem
  have hzero : pending ((s.setSem id ⟨v, true, none⟩).setPc i .trapReturn) id = 0 :=
    pending_of_none (by rw [hsem])
  have htrace : inits id (trace ++ [⟨p, .semInit id v, 0⟩]) = [v] := by
    rw [inits_append, hnil, hinits]
    rfl
  have hcallers : ∀ call, (∀ w, call ≠ .semInit id w) →
      callers call (trace ++ [⟨p, .semInit id v, 0⟩]) = callers call trace := by
    intro call hne
    rw [callers_append]
    simp [callers, (hne v).symm]
  have hsignals' : signals id (trace ++ [⟨p, .semInit id v, 0⟩]) = [] := by
    rw [signals, hcallers (.semSignal id) fun w hw => (nomatch hw), ← signals, hsignals]
  have hwaits' : waits id (trace ++ [⟨p, .semInit id v, 0⟩]) = [] := by
    rw [waits, hcallers (.semWait id) fun w hw => (nomatch hw), ← waits, hwaits]
  constructor
  · rw [hsem, htrace]
    exact iff_of_true rfl (List.cons_ne_nil _ _)
  · intro hnil'
    rw [htrace] at hnil'
    cases hnil'
  · rw [hsem, hzero, htrace, hsignals', hwaits']
    simp
  · rw [hsem, hzero]
    exact h.args i v hpc
  · intro j hj
    obtain ⟨_, hj⟩ := other_of_setPc (P := fun c => c.prepares = some id) hj nofun
    exact absurd (Pc.holdsSem_of_prepares hj) (hlk ▸ hlocked.sem id).not_inside
  · intro _ j hj
    exact absurd hj (hall j).2
  · intro j w hj
    obtain ⟨_, hj⟩ := other_of_setPc (P := fun c => c = .semInit id w) hj nofun
    exact h.args j w hj

/-! ## The steps -/

theorem Entry.concerns {call : Syscall} {c : Pc nproc} (h : Entry call c) :
    c.concerns = none := by
  cases h <;> rfl

theorem Entry.args {call : Syscall} {c : Pc nproc} {v : ℤ} (h : Entry call c)
    (hc : c = .semInit id v) : 0 ≤ v := by
  cases h with
  | semInit hvalue _ =>
      cases hc
      exact hvalue
  | _ => cases hc

theorem Returns.concerns {c : Pc nproc} {call : Syscall} {r : ℤ} (h : Returns s i c call r) :
    c.concerns = none := by
  cases h <;> rfl

theorem Returns.silent {c : Pc nproc} {call : Syscall} {r p : ℤ} (h : Returns s i c call r) :
    Silent id [⟨p, call, r⟩] := by
  refine silent_singleton fun hcall => ?_
  cases h with
  | otherWoken => cases hcall
  | _ => decide

theorem Goto.not_init {c c' : Pc nproc} (h : Goto s i c c') (v : ℤ) : c' ≠ .semInit id v := by
  cases h with
  | @wokenUp ch k caller _ => cases caller <;> exact fun hc => (nomatch hc)
  | _ => exact fun hc => (nomatch hc)

theorem Counted.goto {c : Pc nproc} (h : Counted id trace s) (hlocked : Locked s)
    (hgoto : Goto s i (s.pc i) c) : Counted id trace (s.setPc i c) := by
  have hargs : ∀ v, c = .semInit id v → 0 ≤ v := fun v hv => absurd hv (hgoto.not_init v)
  have hquiet : (s.pc i).concerns ≠ some id → c.concerns ≠ some id →
      Counted id trace (s.setPc i c) := by
    intro hold hnew
    rw [← List.append_nil trace]
    exact h.quiet (i := i) rfl rfl hold hnew (fun _ hj => hj) silent_nil hargs
  generalize hpc : s.pc i = c₀ at hgoto hquiet
  cases hgoto with
  | @wokenUp ch n caller hn =>
      cases caller with
      | semSignal k =>
          by_cases hk : k = id
          · subst hk
            exact h.wokenUp hlocked hpc hn
          · exact hquiet (fun hc => hk (Option.some.inj hc)) fun hc => hk (Option.some.inj hc)
      | _ => exact hquiet (fun hc => (nomatch hc)) fun hc => (nomatch hc)
  | @semEmpty k hvalue =>
      by_cases hk : k = id
      · subst hk
        have hc := congrArg Pc.concerns hpc
        have hposts : (s.pc i).posts ≠ some k := by
          rw [hpc]
          exact fun hc => (nomatch hc)
        have heq := h.prepare (p := s.proc i) (c := .sleepPrepare (.sem k)) hvalue hc hposts
          (fun hc => (nomatch hc)) fun v hv => (nomatch hv)
        rwa [setProc, Function.update_eq_self] at heq
      · exact hquiet (fun hc => hk (Option.some.inj hc)) fun hc => hk (Option.some.inj hc)
  | @semAlive k _ =>
      by_cases hk : k = id
      · subst hk
        have hposts : (s.pc i).posts ≠ some k := by
          rw [hpc]
          exact fun hc => (nomatch hc)
        have hpending : pending (s.setPc i (.semTest k)) k = pending s k :=
          pending_keep (i := i) rfl rfl (iff_of_false (fun hc => (nomatch hc)) hposts)
        rw [← List.append_nil trace]
        exact h.idle (i := i) rfl rfl rfl hpending hposts (fun hc => (nomatch hc))
          (fun _ => h.initialized_of_concerns (congrArg Pc.concerns hpc)) (fun _ hj => hj)
          silent_nil hargs
      · exact hquiet (fun hc => hk (Option.some.inj hc)) fun hc => hk (Option.some.inj hc)
  | _ => exact hquiet (fun hc => (nomatch hc)) fun hc => (nomatch hc)

/-- The lock of the semaphore changes hands, and nothing else about it changes. -/
theorem Counted.lock {c : Pc nproc} {l : Option (Fin nproc)} (h : Counted id trace s)
    (hold : pending s id = 0) (hlk : l = none ∨ l = some i)
    (hposts : (s.pc i).posts ≠ some id) (hc : c.posts ≠ some id) (hprepares : c.prepares ≠ some id)
    (hinit : (s.sem id).initialized = true) (hsilent : Silent id events)
    (hargs : ∀ v, c ≠ .semInit id v) :
    Counted id (trace ++ events) ((s.setSem id { s.sem id with lk := l }).setPc i c) := by
  have hsem : ((s.setSem id { s.sem id with lk := l }).setPc i c).sem id =
      { s.sem id with lk := l } := Function.update_self id _ s.sem
  have hnew : pending ((s.setSem id { s.sem id with lk := l }).setPc i c) id = 0 := by
    rw [pending_setSem hsem rfl hlk, if_neg fun h => hc h.2]
  exact h.idle (i := i) rfl (by rw [hsem]) (by rw [hsem]) (hnew.trans hold.symm) hposts hprepares
    (fun _ => hinit) (fun _ hj => hj) hsilent fun v hv => absurd hv (hargs v)

theorem chan_update {p : Proc nproc}
    (hp : p.chan = some (.sem id) → (s.proc k).chan = some (.sem id)) (j : Fin nproc)
    (hj : (Function.update s.proc k p j).chan = some (.sem id)) :
    (s.proc j).chan = some (.sem id) := by
  by_cases hjk : j = k
  · rw [hjk, Function.update_self] at hj
    rw [hjk]
    exact hp hj
  · rwa [Function.update_of_ne hjk] at hj

theorem semArg_ne {k : Fin 10} (hk : k ≠ id) : some (k : ℤ) ≠ some (id : ℤ) := by
  intro heq
  exact hk (Fin.ext (Int.ofNat_inj.mp (Option.some.inj heq)))

theorem none_ne : (none : Option (Fin 10)) ≠ some id := fun hc => (nomatch hc)

/-- A process that does not deal with semaphores, before or after its step. -/
theorem Counted.apart {c₀ c : Pc nproc} (h : Counted id trace s) (hpc₀ : s.pc i = c₀)
    (hsem : s'.sem = s.sem) (hpc : s'.pc = Function.update s.pc i c) (hold : c₀.concerns = none)
    (hnew : c.concerns = none)
    (hchan : ∀ j, (s'.proc j).chan = some (.sem id) → (s.proc j).chan = some (.sem id))
    (hsilent : Silent id events) (hargs : ∀ v, c ≠ .semInit id v) :
    Counted id (trace ++ events) s' := by
  refine h.quiet (by rw [hsem]) hpc ?_ ?_ hchan hsilent fun v hv => absurd hv (hargs v)
  · rw [hpc₀, hold]
    exact none_ne
  · rw [hnew]
    exact none_ne

theorem Counted.elsewhere {k : Fin 10} {c₀ c : Pc nproc} (h : Counted id trace s) (hk : k ≠ id)
    (hpc₀ : s.pc i = c₀) (hsem : s'.sem id = s.sem id) (hpc : s'.pc = Function.update s.pc i c)
    (hold : c₀.concerns = none ∨ c₀.concerns = some k)
    (hnew : c.concerns = none ∨ c.concerns = some k)
    (hchan : ∀ j, (s'.proc j).chan = some (.sem id) → (s.proc j).chan = some (.sem id))
    (hsilent : Silent id events) (hargs : ∀ v, c ≠ .semInit id v) :
    Counted id (trace ++ events) s' := by
  have hne : ∀ c : Pc nproc, c.concerns = none ∨ c.concerns = some k → c.concerns ≠ some id := by
    rintro c (hc | hc)
    · rw [hc]
      exact none_ne
    · rw [hc]
      exact fun heq => hk (Option.some.inj heq)
  exact h.quiet hsem hpc (hpc₀ ▸ hne c₀ hold) (hne c hnew) hchan hsilent
    fun v hv => absurd hv (hargs v)

theorem Counted.setSem_elsewhere {k : Fin 10} {x : Semaphore nproc} {c₀ c : Pc nproc}
    (h : Counted id trace s) (hk : k ≠ id) (hpc₀ : s.pc i = c₀)
    (hold : c₀.concerns = none ∨ c₀.concerns = some k)
    (hnew : c.concerns = none ∨ c.concerns = some k)
    (hsilent : Silent id events) (hargs : ∀ v, c ≠ .semInit id v) :
    Counted id (trace ++ events) ((s.setSem k x).setPc i c) :=
  h.elsewhere hk hpc₀ (Function.update_of_ne hk.symm _ _) rfl hold hnew (fun _ hj => hj) hsilent
    hargs

theorem Counted.relock {k : Fin 10} {l : Option (Fin nproc)} {c₀ c : Pc nproc}
    (h : Counted id trace s) (hpc₀ : s.pc i = c₀)
    (hold : c₀.concerns = none ∨ c₀.concerns = some k)
    (hnew : c.concerns = none ∨ c.concerns = some k) (hfree : pending s k = 0)
    (hinit : k = id → (s.sem k).initialized = true) (hlk : l = none ∨ l = some i)
    (hposts₀ : c₀.posts = none) (hposts : c.posts = none) (hprepares : c.prepares = none)
    (hsilent : Silent id events) (hargs : ∀ v, c ≠ .semInit id v) :
    Counted id (trace ++ events) ((s.setSem k { s.sem k with lk := l }).setPc i c) := by
  by_cases hk : k = id
  · subst hk
    refine h.lock hfree hlk ?_ ?_ ?_ (hinit rfl) hsilent hargs
    · rw [hpc₀, hposts₀]
      exact none_ne
    · rw [hposts]
      exact none_ne
    · rw [hprepares]
      exact none_ne
  · exact h.setSem_elsewhere hk hpc₀ hold hnew hsilent hargs

theorem Counted.fork {k : Fin nproc} {thread : Bool} {c₀ c : Pc nproc} (h : Counted id trace s)
    (hplaced : Placed s) (hrun : (s.proc i).state = .running) (hunused : (s.proc k).state = .unused)
    (hpc : s.pc i = c₀) (hold : c₀.concerns = none) (hnew : c.concerns = none)
    (hargs : ∀ v, c ≠ .semInit id v) : Counted id (trace ++ [])
      (((s.nextPid.setProc k (.fresh s.nextpid thread)).setPc k .user).setPc i c) := by
  have hne : i ≠ k := by
    rintro rfl
    rw [hunused] at hrun
    cases hrun
  obtain ⟨c₁, hpc₁, hc₁⟩ : ∃ c₁, s.pc k = c₁ ∧ c₁.concerns = none := by
    rcases hplaced k (ne_live_of_state hunused (by decide)) with hpc | hpc
    · exact ⟨_, hpc, rfl⟩
    · exact ⟨_, hpc, rfl⟩
  have hfresh : Counted id (trace ++ [])
      ((s.nextPid.setProc k (.fresh s.nextpid thread)).setPc k .user) :=
    h.apart hpc₁ rfl rfl hc₁ rfl (chan_update fun hc => (nomatch hc)) silent_nil
      fun v hv => (nomatch hv)
  rw [List.append_nil] at hfresh
  have hpc' : ((s.nextPid.setProc k (.fresh s.nextpid thread)).setPc k .user).pc i = c₀ := by
    rw [setPc_pc, Function.update_of_ne hne]
    exact hpc
  exact hfresh.apart hpc' rfl rfl hold hnew (fun _ hj => hj) silent_nil hargs

theorem Counted.wakeup {ch : Option (Chan nproc)} {caller : WakeupCaller}
    (h : Counted id trace s) (hlocked : Locked s) (hpc : s.pc i = .wakeup ch k caller) :
    Counted id (trace ++ []) ((s.setProc k ((s.proc k).wakeup ch)).setPc i
      (.wakeup ch (k + 1) caller)) := by
  have hchan : ∀ j, (Function.update s.proc k ((s.proc k).wakeup ch) j).chan =
      some (.sem id) → (s.proc j).chan = some (.sem id) :=
    chan_update fun hc => (Proc.wakeup_chan hc).1
  cases caller with
  | semSignal n =>
      by_cases hn : n = id
      · subst hn
        rw [List.append_nil]
        exact h.wake hlocked hpc
      · exact h.elsewhere hn hpc rfl rfl (Or.inr rfl) (Or.inr rfl) hchan silent_nil
          fun v hv => (nomatch hv)
  | _ => exact h.apart hpc rfl rfl rfl rfl hchan silent_nil fun v hv => (nomatch hv)

theorem Counted.sleepPrepare {w : Waiter} (h : Counted id trace s)
    (hpc : s.pc i = .sleepPrepare w) : Counted id (trace ++ [])
      ((s.setProc i { s.proc i with chan := some (w.chan i) }).setPc i (.release w)) := by
  cases w with
  | sem n =>
      by_cases hn : n = id
      · subst hn
        rw [List.append_nil]
        refine h.prepare (h.empty i (congrArg Pc.prepares hpc)) (congrArg Pc.concerns hpc) ?_
          none_ne fun v hv => (nomatch hv)
        rw [hpc]
        exact none_ne
      · refine h.elsewhere hn hpc rfl rfl (Or.inr rfl) (Or.inr rfl) (chan_update fun hc => ?_)
          silent_nil fun v hv => (nomatch hv)
        cases hc
        exact absurd rfl hn
  | wait thread =>
      exact h.apart hpc rfl rfl rfl rfl (chan_update fun hc => (nomatch hc)) silent_nil
        fun v hv => (nomatch hv)
  | other n =>
      exact h.apart hpc rfl rfl rfl rfl (chan_update fun hc => (nomatch hc)) silent_nil
        fun v hv => (nomatch hv)

theorem Counted.sleep {w : Waiter} (h : Counted id trace s) (hpc : s.pc i = .sleep w) :
    Counted id (trace ++ []) ((s.setProc i (s.proc i).sleep).setPc i w.woken) := by
  have hchan : ∀ j, (Function.update s.proc i (s.proc i).sleep j).chan =
      some (.sem id) → (s.proc j).chan = some (.sem id) :=
    chan_update fun hc => (s.proc i).sleep_chan ▸ hc
  cases w with
  | sem n =>
      by_cases hn : n = id
      · subst hn
        have hposts : (s.pc i).posts ≠ some n := by
          rw [hpc]
          exact none_ne
        have hpending : pending ((s.setProc i (s.proc i).sleep).setPc i (.semWoken n)) n =
            pending s n := pending_keep (i := i) rfl rfl (iff_of_false none_ne hposts)
        exact h.idle (i := i) rfl rfl rfl hpending hposts none_ne
          (fun _ => h.initialized_of_concerns (congrArg Pc.concerns hpc)) hchan silent_nil
          fun v hv => (nomatch hv)
      · exact h.elsewhere hn hpc rfl rfl (Or.inr rfl) (Or.inr rfl) hchan silent_nil
          fun v hv => (nomatch hv)
  | wait thread => exact h.apart hpc rfl rfl rfl rfl hchan silent_nil fun v hv => (nomatch hv)
  | other n => exact h.apart hpc rfl rfl rfl rfl hchan silent_nil fun v hv => (nomatch hv)

theorem pending_of_pc {c : Pc nproc} (hlocked : Locked s) (hpc : s.pc i = c)
    (hholds : c.holdsSem = some id) (hposts : c.posts = none) : pending s id = 0 := by
  refine pending_eq_zero hlocked (hpc ▸ hholds) ?_
  rw [hpc, hposts]
  exact none_ne

theorem Stepped.counted (hstep : Stepped s a s' events) (hlocked : Locked s) (hplaced : Placed s)
    (hone : (inits id (trace ++ events)).length ≤ 1) (h : Counted id trace s) :
    Counted id (trace ++ events) s' := by
  cases hstep with
  | dispatch _ =>
      rw [List.append_nil]
      exact h.still fun hc => hc
  | yield _ _ =>
      rw [List.append_nil]
      exact h.still fun hc => hc
  | wakeOther =>
      rw [List.append_nil]
      exact h.still fun hc => (Proc.wakeup_chan hc).1
  | fault _ hpc =>
      exact h.apart hpc rfl rfl rfl rfl (chan_update fun hc => hc) silent_nil
        fun v hv => (nomatch hv)
  | trap _ hpc _ hentry =>
      refine h.quiet rfl rfl ?_ ?_ (fun _ hj => hj) silent_nil fun v hv => hentry.args hv
      · rw [hpc]
        exact none_ne
      · rw [hentry.concerns]
        exact none_ne
  | goto _ hgoto =>
      rw [List.append_nil]
      exact h.goto hlocked hgoto
  | returns _ hret =>
      exact h.apart rfl rfl rfl hret.concerns rfl (fun _ hj => hj) hret.silent
        fun v hv => (nomatch hv)
  | allocFails _ hpc _ =>
      exact h.apart hpc rfl rfl rfl rfl (chan_update fun hc => (nomatch hc))
        (silent_singleton fun _ => by decide) fun v hv => (nomatch hv)
  | alloc hrun hpc hunused =>
      exact h.fork hplaced hrun hunused hpc rfl rfl fun v hv => (nomatch hv)
  | setParent _ hpc _ =>
      exact h.apart hpc rfl rfl rfl rfl (chan_update fun hc => hc) silent_nil
        fun v hv => (nomatch hv)
  | @setRunnable i np _ thread _ hpc =>
      refine h.apart hpc rfl rfl rfl rfl (chan_update fun hc => hc) ?_ fun v hv => (nomatch hv)
      exact silent_singleton fun hc => by cases thread <;> cases hc
  | kexit _ hpc _ _ =>
      exact h.apart hpc rfl rfl rfl rfl (fun _ hj => hj) silent_nil fun v hv => (nomatch hv)
  | reparent _ hpc _ =>
      exact h.apart hpc rfl rfl rfl rfl (chan_update fun hc => hc) silent_nil
        fun v hv => (nomatch hv)
  | wakeup _ hpc => exact h.wakeup hlocked hpc
  | setZombie _ hpc =>
      exact h.apart hpc rfl rfl rfl rfl (chan_update fun hc => hc) silent_nil
        fun v hv => (nomatch hv)
  | kwait _ hpc _ =>
      exact h.apart hpc rfl rfl rfl rfl (fun _ hj => hj) silent_nil fun v hv => (nomatch hv)
  | scanFails _ hpc =>
      exact h.apart hpc rfl rfl rfl rfl (fun _ hj => hj) (silent_singleton fun _ => by decide)
        fun v hv => (nomatch hv)
  | @reap i k _ thread _ _ hpc _ _ _ =>
      refine h.apart hpc rfl rfl rfl rfl (chan_update fun hc => (nomatch hc)) ?_
        fun v hv => (nomatch hv)
      exact silent_singleton fun hc => by cases thread <;> cases hc
  | sleepPrepare _ hpc => exact h.sleepPrepare hpc
  | releaseWait _ hpc =>
      exact h.apart hpc rfl rfl rfl rfl (fun _ hj => hj) silent_nil fun v hv => (nomatch hv)
  | releaseSem _ hpc =>
      refine h.relock hpc (Or.inr rfl) (Or.inr rfl) (pending_of_pc hlocked hpc rfl rfl) ?_
        (Or.inl rfl) rfl rfl rfl silent_nil fun v hv => (nomatch hv)
      rintro rfl
      exact h.initialized_of_concerns (congrArg Pc.concerns hpc)
  | sleep _ hpc => exact h.sleep hpc
  | kill _ hpc _ =>
      exact h.apart hpc rfl rfl rfl rfl (chan_update fun hc => hc)
        (silent_singleton fun hc => (nomatch hc)) fun v hv => (nomatch hv)
  | @semInit i _ k v _ hpc hlk =>
      by_cases hk : k = id
      · subst hk
        exact h.initialize hlocked hone hpc hlk
      · exact h.setSem_elsewhere hk hpc (Or.inl rfl) (Or.inl rfl)
          (silent_singleton fun hc => absurd hc (semArg_ne hk)) fun v hv => (nomatch hv)
  | semWait _ hpc hlk hinit =>
      exact h.relock hpc (Or.inl rfl) (Or.inr rfl) (pending_of_none hlk) (fun _ => hinit)
        (Or.inr rfl) rfl rfl rfl silent_nil fun v hv => (nomatch hv)
  | @semTake i _ k _ hpc hvalue =>
      by_cases hk : k = id
      · subst hk
        exact h.take hlocked hpc hvalue
      · exact h.setSem_elsewhere hk hpc (Or.inr rfl) (Or.inl rfl)
          (silent_singleton fun hc => absurd hc (semArg_ne hk)) fun v hv => (nomatch hv)
  | semWoken _ hpc hlk =>
      refine h.relock hpc (Or.inr rfl) (Or.inr rfl) (pending_of_none hlk) ?_ (Or.inr rfl) rfl rfl
        rfl silent_nil fun v hv => (nomatch hv)
      rintro rfl
      exact h.initialized_of_concerns (congrArg Pc.concerns hpc)
  | semKilled _ hpc _ =>
      refine h.relock hpc (Or.inr rfl) (Or.inl rfl) (pending_of_pc hlocked hpc rfl rfl) ?_
        (Or.inl rfl) rfl rfl rfl (silent_singleton fun _ => by decide) fun v hv => (nomatch hv)
      rintro rfl
      exact h.initialized_of_concerns (congrArg Pc.concerns hpc)
  | @semSignal i _ k _ hpc hlk hinit =>
      by_cases hk : k = id
      · subst hk
        rw [List.append_nil]
        exact h.signal hlocked hlk hinit
      · exact h.setSem_elsewhere hk hpc (Or.inl rfl) (Or.inr rfl) silent_nil
          fun v hv => (nomatch hv)
  | @semSignaled i _ k _ hpc =>
      by_cases hk : k = id
      · subst hk
        exact h.signaled hlocked hpc
      · exact h.setSem_elsewhere hk hpc (Or.inr rfl) (Or.inl rfl)
          (silent_singleton fun hc => absurd hc (semArg_ne hk)) fun v hv => (nomatch hv)

end Process
