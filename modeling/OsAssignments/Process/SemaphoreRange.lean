import OsAssignments.Library.MachineInt
import OsAssignments.Process.Exclusion

/-!
# Semaphores that count in an int

`step` lets the value of a semaphore be any integer. `step32` is the kernel whose
`semaphore.value` is a C `int`: after each step the value is what 32 bits keep of it. A
run of `step32` in which nobody signals a semaphore whose value is the greatest `int` is
a run of `step` (`run_of_run32`), and in it the value is the number of tokens
(`Tallied`), whatever the processes do and however often semaphores are initialised.
-/

namespace Process

open EventRun MachineInt Mutex State

variable {nproc : ℕ}

/-! ## The kernel with 32 bits -/

/-- The greatest `int`. -/
def intMax : ℤ := 2 ^ 31 - 1

/-- The arguments that a system call takes with `argint`. -/
def Syscall.ints : Syscall → List ℤ
  | kill pid => [pid]
  | semInit id value => [id, value]
  | semWait id => [id]
  | semSignal id => [id]
  | _ => []

def Action.ints : Action nproc → List ℤ
  | trap _ call => call.ints
  | _ => []

/-- What `argint` delivers are ints. -/
def IntArgs (a : Action nproc) : Prop := ∀ v ∈ a.ints, Fits 32 v

instance (a : Action nproc) : Decidable (IntArgs a) :=
  inferInstanceAs (Decidable (∀ v ∈ a.ints, Fits 32 v))

/-- The values of the semaphores as `int` variables keep them. -/
def State.wrapSems (s : State nproc) : State nproc :=
  { s with sem := fun id => { s.sem id with value := wrap 32 (s.sem id).value } }

/-- One step of the kernel whose semaphores count in an `int`. -/
def step32 (s : State nproc) (a : Action nproc) : Option (State nproc × List Event) :=
  (step s a).map fun r => (r.1.wrapSems, r.2)

/-- The action is the `value++` of `sys_sem_signal`, and the value is the greatest `int`. -/
def SignalsFull (s : State nproc) : Action nproc → Prop
  | .advance i _ => ∃ id, s.pc i = .semSignal id ∧ (s.sem id).initialized = true ∧
      (s.sem id).value = intMax
  | _ => False

instance (s : State nproc) : (a : Action nproc) → Decidable (SignalsFull s a)
  | .advance i _ => inferInstanceAs (Decidable (∃ id, s.pc i = .semSignal id ∧
      (s.sem id).initialized = true ∧ (s.sem id).value = intMax))
  | .trap _ _ => inferInstanceAs (Decidable False)
  | .dispatch _ => inferInstanceAs (Decidable False)
  | .yield _ => inferInstanceAs (Decidable False)
  | .fault _ => inferInstanceAs (Decidable False)
  | .wakeOther _ _ => inferInstanceAs (Decidable False)

/-! ## The tokens -/

/-- The tokens of the semaphore `id` after an event, when there were `n` before. -/
def Event.tokens (id : Fin 10) (n : ℤ) (e : Event) : ℤ :=
  if e.ret = 0 then
    match e.call with
    | .semInit k v => if k = id then v else n
    | .semSignal k => if k = id then n + 1 else n
    | .semWait k => if k = id then n - 1 else n
    | _ => n
  else
    n

/-- What the semaphore was last initialised with, and since then one more for each signal
that has returned 0 and one less for each wait. -/
def tokens (id : Fin 10) (trace : List Event) : ℤ := trace.foldl (Event.tokens id) 0

section Tokens

variable {id : Fin 10} {trace events : List Event} {p v : ℤ}

theorem tokens_append_singleton {e : Event} :
    tokens id (trace ++ [e]) = e.tokens id (tokens id trace) := by
  rw [tokens, List.foldl_append]
  rfl

theorem Event.tokens_of_silent {e : Event} {n : ℤ}
    (h : e.call.semArg = some (id : ℤ) → e.ret ≠ 0) : e.tokens id n = n := by
  rw [Event.tokens]
  split_ifs with hret
  · cases hcall : e.call with
    | semInit k v => exact if_neg fun hk => h (by rw [hcall, hk]; rfl) hret
    | semWait k => exact if_neg fun hk => h (by rw [hcall, hk]; rfl) hret
    | semSignal k => exact if_neg fun hk => h (by rw [hcall, hk]; rfl) hret
    | _ => rfl
  · rfl

theorem Silent.tokens (h : Silent id events) : tokens id (trace ++ events) = tokens id trace := by
  induction events generalizing trace with
  | nil => rw [List.append_nil]
  | cons e events ih =>
      rw [List.append_cons, ih fun e he => h e (List.mem_cons_of_mem _ he), tokens_append_singleton]
      exact Event.tokens_of_silent (h e List.mem_cons_self)

theorem tokens_init : tokens id (trace ++ [⟨p, .semInit id v, 0⟩]) = v := by
  rw [tokens_append_singleton, Event.tokens, if_pos rfl]
  exact if_pos rfl

theorem tokens_signal : tokens id (trace ++ [⟨p, .semSignal id, 0⟩]) = tokens id trace + 1 := by
  rw [tokens_append_singleton, Event.tokens, if_pos rfl]
  exact if_pos rfl

theorem tokens_wait : tokens id (trace ++ [⟨p, .semWait id, 0⟩]) = tokens id trace - 1 := by
  rw [tokens_append_singleton, Event.tokens, if_pos rfl]
  exact if_pos rfl

end Tokens

/-! ## The invariant -/

/-- The values of the semaphores are their tokens, and are not negative ints. -/
structure Tallied (trace : List Event) (s : State nproc) : Prop where
  value : ∀ id, (s.sem id).value = tokens id trace + pending s id
  nonneg : ∀ id, 0 ≤ tokens id trace
  le : ∀ id, (s.sem id).value ≤ intMax
  args : ∀ i id v, s.pc i = .semInit id v → 0 ≤ v ∧ v ≤ intMax

variable {id k' : Fin 10} {s s' : State nproc} {i k : Fin nproc} {a : Action nproc}
  {events trace : List Event} {p : ℤ}

theorem boot_tallied (initproc : Fin nproc) : Tallied [] (boot initproc) := by
  constructor
  · exact fun _ => rfl
  · exact fun _ => le_rfl
  · intro id
    change (0 : ℤ) ≤ intMax
    decide
  · exact fun _ _ _ hi => nomatch hi

theorem pending_nonneg (s : State nproc) (id : Fin 10) : 0 ≤ pending s id := by
  unfold pending
  split
  · split_ifs <;> decide
  · exact le_rfl

theorem Tallied.value_nonneg (h : Tallied trace s) (id : Fin 10) : 0 ≤ (s.sem id).value := by
  have := h.value id
  have := h.nonneg id
  have := pending_nonneg s id
  omega

theorem Tallied.fits (h : Tallied trace s) (id : Fin 10) : Fits 32 (s.sem id).value := by
  have hnonneg := h.value_nonneg id
  have hle := h.le id
  rw [intMax] at hle
  rw [Fits]
  omega

theorem Tallied.args_update {c : Pc nproc} (h : Tallied trace s)
    (hpc : s'.pc = Function.update s.pc i c)
    (hc : ∀ id v, c = .semInit id v → 0 ≤ v ∧ v ≤ intMax) (j : Fin nproc) (id : Fin 10) (v : ℤ)
    (hj : s'.pc j = .semInit id v) : 0 ≤ v ∧ v ≤ intMax := by
  rw [hpc] at hj
  by_cases hji : j = i
  · rw [hji, Function.update_self] at hj
    exact hc id v hj
  · rw [Function.update_of_ne hji] at hj
    exact h.args j id v hj

theorem Tallied.quiet {c : Pc nproc} (h : Tallied trace s)
    (hpc : s'.pc = Function.update s.pc i c) (hsem : s'.sem = s.sem)
    (hposts : c.posts = (s.pc i).posts) (hsilent : ∀ id, Silent id events)
    (hc : ∀ id v, c = .semInit id v → 0 ≤ v ∧ v ≤ intMax) : Tallied (trace ++ events) s' := by
  have hpending : ∀ id, pending s' id = pending s id := fun id =>
    pending_keep (congrArg Semaphore.lk (congrFun hsem id)) hpc (by rw [hposts])
  constructor
  · intro id
    rw [hsem, hpending, (hsilent id).tokens]
    exact h.value id
  · intro id
    rw [(hsilent id).tokens]
    exact h.nonneg id
  · intro id
    rw [hsem]
    exact h.le id
  · exact h.args_update hpc hc

/-- A step on one semaphore, by a process that takes its lock, holds it or leaves it. -/
theorem Tallied.touch {c : Pc nproc} {x : Semaphore nproc} (h : Tallied trace s)
    (hlk : x.lk = none ∨ x.lk = some i) (hposts : ∀ id ≠ k', (s.pc i).posts ≠ some id ∧
      c.posts ≠ some id)
    (hsilent : ∀ id ≠ k', Silent id events)
    (hvalue : x.value = tokens k' (trace ++ events) + if x.lk = some i ∧ c.posts = some k' then 1
      else 0)
    (hnonneg : 0 ≤ tokens k' (trace ++ events)) (hle : x.value ≤ intMax)
    (hc : ∀ id v, c ≠ .semInit id v) :
    Tallied (trace ++ events) ((s.setSem k' x).setPc i c) := by
  have hsame : ((s.setSem k' x).setPc i c).sem k' = x := by
    rw [setPc_sem, setSem_sem, Function.update_self]
  have hother : ∀ id ≠ k', ((s.setSem k' x).setPc i c).sem id = s.sem id := by
    intro id hid
    rw [setPc_sem, setSem_sem, Function.update_of_ne hid]
  have hpending : ∀ id ≠ k', pending ((s.setSem k' x).setPc i c) id = pending s id :=
    fun id hid => pending_keep (i := i) (congrArg Semaphore.lk (hother id hid)) rfl
      (iff_of_false (hposts id hid).2 (hposts id hid).1)
  constructor
  · intro id
    by_cases hid : id = k'
    · rw [hid, hsame, pending_setSem hsame rfl hlk]
      exact hvalue
    · rw [hother id hid, hpending id hid, (hsilent id hid).tokens]
      exact h.value id
  · intro id
    by_cases hid : id = k'
    · rw [hid]
      exact hnonneg
    · rw [(hsilent id hid).tokens]
      exact h.nonneg id
  · intro id
    by_cases hid : id = k'
    · rw [hid, hsame]
      exact hle
    · rw [hother id hid]
      exact h.le id
  · exact h.args_update rfl fun id v hv => absurd hv (hc id v)

theorem Tallied.value_of_free (h : Tallied trace s) (hlk : (s.sem k').lk = none) :
    (s.sem k').value = tokens k' trace := by
  rw [h.value k', pending_of_none hlk, add_zero]

/-- So it has when a process that has not raised the value holds the lock or takes it. -/
theorem Tallied.value_of_holds {c : Pc nproc} (h : Tallied trace s) (hlocked : Locked s)
    (hpc : s.pc i = c) (hholds : c.holdsSem = some k') (hposts : c.posts = none) :
    (s.sem k').value = tokens k' trace := by
  have hpending : pending s k' = 0 :=
    pending_eq_zero hlocked (hpc ▸ hholds) (by rw [hpc, hposts]; nofun)
  rw [h.value k', hpending, add_zero]

theorem Tallied.lock {c c₀ : Pc nproc} {l : Option (Fin nproc)} (h : Tallied trace s)
    (hpc : s.pc i = c₀) (hvalue : (s.sem k').value = tokens k' trace)
    (hl : l = none ∨ l = some i) (hposts₀ : ∀ k, c₀.posts ≠ some k)
    (hposts : ∀ k, c.posts ≠ some k) (hsilent : ∀ k, Silent k events)
    (hc : ∀ k v, c ≠ .semInit k v) :
    Tallied (trace ++ events) ((s.setSem k' { s.sem k' with lk := l }).setPc i c) := by
  subst hpc
  refine h.touch hl (fun k _ => ⟨hposts₀ k, hposts k⟩) (fun k _ => hsilent k) ?_ ?_ (h.le k') hc
  · rw [if_neg fun hand => hposts k' hand.2, (hsilent k').tokens, add_zero]
    exact hvalue
  · rw [(hsilent k').tokens]
    exact h.nonneg k'

/-- The argument of a semaphore call is in the range of the semaphores, so `Silent` speaks of
the others. -/
theorem silent_other {p r : ℤ} {call : Syscall} (hcall : call.semArg = some (k' : ℤ)) (id : Fin 10)
    (hid : id ≠ k') : Silent id [⟨p, call, r⟩] :=
  silent_singleton fun harg => absurd (hcall.symm.trans harg) (semArg_ne hid.symm)

theorem Goto.posts {c c' : Pc nproc} (h : Goto s i c c') : c'.posts = c.posts := by
  cases h with
  | @wokenUp ch n caller hn => cases caller <;> rfl
  | _ => rfl

theorem Entry.posts {call : Syscall} {c : Pc nproc} (h : Entry call c) : c.posts = none := by
  cases h <;> rfl

theorem Returns.posts {c : Pc nproc} {call : Syscall} {r : ℤ} (h : Returns s i c call r) :
    c.posts = none := by
  cases h <;> rfl

theorem Entry.int_args {call : Syscall} {c : Pc nproc} {v : ℤ} (h : Entry call c)
    (hints : IntArgs (.trap i call)) (hc : c = .semInit id v) : 0 ≤ v ∧ v ≤ intMax := by
  cases h with
  | @semInit n value k hvalue _ =>
      cases hc
      have hfits : Fits 32 v := hints v (List.mem_cons_of_mem _ (List.mem_singleton_self v))
      refine ⟨hvalue, ?_⟩
      rw [Fits] at hfits
      rw [intMax]
      omega
  | _ => cases hc

theorem Tallied.alloc {n : ℕ} {t u : Bool} (h : Tallied trace s) (hplaced : Placed s)
    (hrun : (s.proc i).state = .running) (hpc : s.pc i = .allocproc t n)
    (hunused : (s.proc k).state = .unused) :
    Tallied (trace ++ []) (((s.nextPid.setProc k (.fresh s.nextpid t)).setPc k .user).setPc i
      (.setParent u k)) := by
  have hne : i ≠ k := by
    rintro rfl
    rw [hunused] at hrun
    cases hrun
  have hposts : (s.pc k).posts = none := by
    rcases hplaced k (ne_live_of_state hunused (by decide)) with hpc | hpc <;> rw [hpc] <;> rfl
  have hnew : Tallied (trace ++ []) ((s.nextPid.setProc k (.fresh s.nextpid t)).setPc k .user) :=
    h.quiet rfl rfl hposts.symm (fun _ => silent_nil) fun _ _ hv => nomatch hv
  rw [List.append_nil] at hnew
  refine hnew.quiet (i := i) rfl rfl ?_ (fun _ => silent_nil) fun _ _ hv => nomatch hv
  rw [setPc_pc, Function.update_of_ne hne]
  exact (congrArg Pc.posts hpc).symm

theorem Tallied.take (h : Tallied trace s) (hlocked : Locked s) (hpc : s.pc i = .semTest k')
    (hvalue : (s.sem k').value ≠ 0) :
    Tallied (trace ++ [⟨p, .semWait k', 0⟩]) ((s.setSem k' { s.sem k' with
      value := (s.sem k').value - 1, lk := none }).setPc i .trapReturn) := by
  have htokens := h.value_of_holds hlocked hpc rfl rfl
  have hnonneg := h.nonneg k'
  have hnone : ∀ n, (none : Option (Fin 10)) ≠ some n := fun _ hc => nomatch hc
  refine h.touch (Or.inl rfl) (fun n _ => ⟨?_, hnone n⟩) (silent_other rfl) ?_ ?_ ?_
    fun _ _ hv => nomatch hv
  · rw [hpc]
    exact hnone n
  · rw [tokens_wait, if_neg fun hand => hnone k' hand.2, add_zero, ← htokens]
  · rw [tokens_wait]
    omega
  · have hle := h.le k'
    dsimp only
    omega

theorem Tallied.signal (h : Tallied trace s) (hpc : s.pc i = .semSignal k')
    (hlk : (s.sem k').lk = none) (hfull : (s.sem k').value ≠ intMax) :
    Tallied (trace ++ []) ((s.setSem k' { s.sem k' with
      value := (s.sem k').value + 1, lk := some i }).setPc i
        (.wakeup (some (.sem k')) 0 (.semSignal k'))) := by
  have htokens := h.value_of_free hlk
  refine h.touch (Or.inr rfl) (fun n hn => ⟨?_, fun hc => hn ?_⟩) (fun _ _ => silent_nil) ?_ ?_ ?_
    fun _ _ hv => nomatch hv
  · rw [hpc]
    exact fun hc => nomatch hc
  · exact (Option.some.inj hc).symm
  · rw [if_pos ⟨rfl, rfl⟩, List.append_nil, htokens]
  · rw [List.append_nil]
    exact h.nonneg k'
  · have hle := h.le k'
    dsimp only
    omega

theorem Tallied.signaled (h : Tallied trace s) (hlocked : Locked s)
    (hpc : s.pc i = .semSignaled k') :
    Tallied (trace ++ [⟨p, .semSignal k', 0⟩])
      ((s.setSem k' { s.sem k' with lk := none }).setPc i .trapReturn) := by
  have hholds : (s.pc i).holdsSem = some k' := congrArg Pc.holdsSem hpc
  have hposts : (s.pc i).posts = some k' := congrArg Pc.posts hpc
  have hpending : pending s k' = 1 := by
    rw [pending_of_some (hlocked.lk_eq hholds), if_pos hposts]
  have hnonneg := h.nonneg k'
  have hnone : ∀ n, (none : Option (Fin 10)) ≠ some n := fun _ hc => nomatch hc
  refine h.touch (Or.inl rfl) (fun n hn => ⟨fun hc => hn ?_, hnone n⟩) (silent_other rfl) ?_ ?_
    (h.le k') fun _ _ hv => nomatch hv
  · rw [hpc] at hc
    exact (Option.some.inj hc).symm
  · rw [tokens_signal, if_neg fun hand => hnone k' hand.2, add_zero, ← hpending]
    exact h.value k'
  · rw [tokens_signal]
    omega

theorem Stepped.tallied (hstep : Stepped s a s' events) (hlocked : Locked s) (hplaced : Placed s)
    (hints : IntArgs a) (hfull : ¬ SignalsFull s a) (h : Tallied trace s) :
    Tallied (trace ++ events) s' := by
  have hquiet : ∀ {s' : State nproc} {i : Fin nproc} {c c₀ : Pc nproc} {events : List Event},
      s.pc i = c₀ → s'.pc = Function.update s.pc i c → s'.sem = s.sem → c.posts = c₀.posts →
      (∀ id, Silent id events) → (∀ id v, c ≠ .semInit id v) → Tallied (trace ++ events) s' := by
    intro s' i c c₀ events hpc₀ hpc hsem hposts hsilent hc
    subst hpc₀
    exact h.quiet hpc hsem hposts hsilent fun id v hv => absurd hv (hc id v)
  have hstill : ∀ {s' : State nproc} (_ : Fin nproc), s'.pc = s.pc → s'.sem = s.sem →
      Tallied (trace ++ []) s' := by
    intro s' i hpc hsem
    exact h.quiet (hpc.trans (Function.update_eq_self i s.pc).symm) hsem rfl
      (fun _ => silent_nil) fun id v hv => h.args i id v hv
  have hnone : ∀ k, (none : Option (Fin 10)) ≠ some k := fun _ hc => nomatch hc
  have hposts : ∀ {i : Fin nproc} {c : Pc nproc}, s.pc i = c → c.posts = none →
      ∀ k, (s.pc i).posts ≠ some k := by
    intro i c hpc hc k
    rw [hpc, hc]
    exact hnone k
  have hnil : ∀ k, Silent k [] := fun _ => silent_nil
  cases hstep with
  | @dispatch i _ => exact hstill i rfl rfl
  | @yield i _ _ => exact hstill i rfl rfl
  | @wakeOther i _ => exact hstill i rfl rfl
  | fault _ hpc => exact hquiet hpc rfl rfl rfl hnil fun _ _ hv => nomatch hv
  | trap _ hpc _ hentry =>
      refine h.quiet rfl rfl ?_ hnil fun id v hv => hentry.int_args hints hv
      rw [hpc, hentry.posts]
      rfl
  | @goto i _ _ _ hgoto =>
      exact h.quiet rfl rfl hgoto.posts hnil fun id v hv => absurd hv (hgoto.not_init v)
  | returns _ hret =>
      exact hquiet rfl rfl rfl hret.posts.symm (fun _ => hret.silent) fun _ _ hv => nomatch hv
  | allocFails _ hpc _ =>
      exact hquiet hpc rfl rfl rfl (fun _ => silent_singleton fun _ => by decide)
        fun _ _ hv => nomatch hv
  | alloc hrun hpc hunused => exact h.alloc hplaced hrun hpc hunused
  | setParent _ hpc _ => exact hquiet hpc rfl rfl rfl hnil fun _ _ hv => nomatch hv
  | @setRunnable i np _ thread _ hpc =>
      refine hquiet hpc rfl rfl rfl (fun _ => silent_singleton fun hc => ?_)
        fun _ _ hv => nomatch hv
      cases thread <;> cases hc
  | kexit _ hpc _ _ => exact hquiet hpc rfl rfl rfl hnil fun _ _ hv => nomatch hv
  | reparent _ hpc _ => exact hquiet hpc rfl rfl rfl hnil fun _ _ hv => nomatch hv
  | @wakeup i k _ ch caller _ hpc =>
      refine hquiet hpc rfl rfl ?_ hnil fun _ _ hv => nomatch hv
      cases caller <;> rfl
  | setZombie _ hpc => exact hquiet hpc rfl rfl rfl hnil fun _ _ hv => nomatch hv
  | kwait _ hpc _ => exact hquiet hpc rfl rfl rfl hnil fun _ _ hv => nomatch hv
  | scanFails _ hpc =>
      exact hquiet hpc rfl rfl rfl (fun _ => silent_singleton fun _ => by decide)
        fun _ _ hv => nomatch hv
  | @reap i k _ thread _ _ hpc _ _ _ =>
      refine hquiet hpc rfl rfl rfl (fun _ => silent_singleton fun hc => ?_)
        fun _ _ hv => nomatch hv
      cases thread <;> cases hc
  | sleepPrepare _ hpc => exact hquiet hpc rfl rfl rfl hnil fun _ _ hv => nomatch hv
  | releaseWait _ hpc => exact hquiet hpc rfl rfl rfl hnil fun _ _ hv => nomatch hv
  | releaseSem _ hpc =>
      exact h.lock hpc (h.value_of_holds hlocked hpc rfl rfl) (Or.inl rfl) hnone hnone hnil
        fun _ _ hv => nomatch hv
  | @sleep i _ w _ hpc =>
      refine hquiet hpc rfl rfl ?_ hnil fun _ _ hv => ?_
      · cases w <;> rfl
      · cases w <;> cases hv
  | kill _ hpc _ =>
      exact hquiet hpc rfl rfl rfl (fun _ => silent_singleton fun hc => nomatch hc)
        fun _ _ hv => nomatch hv
  | @semInit i _ k v _ hpc hlk =>
      obtain ⟨hv₀, hv⟩ := h.args i k v hpc
      refine h.touch (Or.inl rfl) (fun k _ => ⟨hposts hpc rfl k, hnone k⟩) (silent_other rfl) ?_ ?_
        hv fun _ _ hv => nomatch hv
      · rw [tokens_init, if_neg fun hand => hnone k hand.2, add_zero]
      · rw [tokens_init]
        exact hv₀
  | semWait _ hpc hlk _ =>
      exact h.lock hpc (h.value_of_free hlk) (Or.inr rfl) hnone hnone hnil fun _ _ hv => nomatch hv
  | semTake _ hpc hvalue => exact h.take hlocked hpc hvalue
  | semWoken _ hpc hlk =>
      exact h.lock hpc (h.value_of_free hlk) (Or.inr rfl) hnone hnone hnil fun _ _ hv => nomatch hv
  | semKilled _ hpc _ =>
      exact h.lock hpc (h.value_of_holds hlocked hpc rfl rfl) (Or.inl rfl) hnone hnone
        (fun _ => silent_singleton fun _ => by decide) fun _ _ hv => nomatch hv
  | semSignal _ hpc hlk hinit =>
      exact h.signal hpc hlk fun heq => hfull ⟨_, hpc, hinit, heq⟩
  | semSignaled _ hpc => exact h.signaled hlocked hpc

/-! ## The runs -/

/-- A system call has ints as arguments, and nobody signals a full semaphore. -/
def Bounded (_ : List Event) (s : State nproc) (a : Action nproc) : Prop :=
  IntArgs a ∧ ¬ SignalsFull s a

instance (trace : List Event) (s : State nproc) (a : Action nproc) :
    Decidable (Bounded trace s a) :=
  inferInstanceAs (Decidable (IntArgs a ∧ ¬ SignalsFull s a))

variable {initproc : Fin nproc}

theorem tallied_of_run (h : Run step Bounded (boot initproc) trace s) : Tallied trace s := by
  have hI : Locked s ∧ Placed s ∧ Tallied trace s := by
    refine (invariant_of_run (I := fun trace s => Locked s ∧ Placed s ∧ Tallied trace s)
      ⟨boot_locked initproc, fun _ _ => Or.inl rfl, boot_tallied initproc⟩ ?_ h).2
    rintro trace s a s' events ho ⟨hlocked, hplaced, htallied⟩ ⟨hints, hfull⟩ hstep
    exact ⟨hstep.locked ho.making hlocked, hstep.placed ho.making hplaced,
      hstep.tallied hlocked hplaced hints hfull htallied⟩
  exact hI.2.2

theorem wrapSems_of_fits (h : ∀ id, Fits 32 (s.sem id).value) : s.wrapSems = s := by
  have hsem : (fun id => { s.sem id with value := wrap 32 (s.sem id).value }) = s.sem := by
    funext id
    rw [wrap_of_fits (by decide) (h id)]
  rw [State.wrapSems, hsem]

/-- The 32 bits make no difference as long as nobody signals a full semaphore. -/
theorem run_of_run32 (h : Run step32 Bounded (boot initproc) trace s) :
    Run step Bounded (boot initproc) trace s := by
  induction h with
  | start => exact .start
  | next _ hok hs ih =>
      obtain ⟨⟨s', events⟩, hstep, heq⟩ := Option.map_eq_some_iff.mp hs
      have hnext := ih.next hok hstep
      cases heq
      rw [wrapSems_of_fits (tallied_of_run hnext).fits]
      exact hnext

/-- What `semTest` finds: the waiter goes to sleep when there is no token, and only then. -/
theorem Tallied.semTest_blocks_iff (h : Tallied trace s) (hlocked : Locked s)
    (hrun : (s.proc i).state = .running) (hpc : s.pc i = .semTest id) (ok : Bool) :
    step32 s (.advance i ok) = some (s.setPc i (.sleepPrepare (.sem id)), []) ↔
      tokens id trace = 0 := by
  have hposts : (s.pc i).posts ≠ some id := by
    rw [hpc]
    exact fun hc => nomatch hc
  have hvalue : (s.sem id).value = tokens id trace := by
    rw [h.value id, pending_eq_zero hlocked (congrArg Pc.holdsSem hpc) hposts, add_zero]
  have hstep : step s (.advance i ok) = some (semTest s i id) := by
    rw [step, if_pos hrun, advance, hpc]
  rw [step32, hstep, Option.map_some, semTest, ← hvalue]
  constructor
  · intro heq
    by_contra hne
    rw [if_neg hne] at heq
    exact absurd (congrArg Prod.snd (Option.some.inj heq)) (List.cons_ne_nil _ _)
  · intro hzero
    rw [if_pos hzero]
    rw [wrapSems_of_fits (s := s.setPc i (.sleepPrepare (.sem id))) h.fits]

theorem not_fits_of_signalsFull (hfull : SignalsFull s a) (h : step s a = some (s', events)) :
    ¬ ∀ id, Fits 32 (s'.sem id).value := by
  cases a with
  | advance i ok =>
      obtain ⟨id, hpc, hinit, hvalue⟩ := hfull
      rw [step] at h
      split_ifs at h with hrun
      rw [advance, hpc] at h
      dsimp only at h
      rw [sysSemSignal] at h
      split_ifs at h with hlk
      cases h
      intro hfits
      have hover := hfits id
      rw [setPc_sem, setSem_sem, Function.update_self] at hover
      dsimp only at hover
      rw [hvalue] at hover
      exact absurd hover (by decide)
  | _ => exact absurd hfull id

/-- The semaphores in every state of a run of the 32-bit kernel in which nobody signals a
semaphore whose value is the greatest `int`: the value is an `int` that is not negative, and
is the number of tokens unless a signal is on its way back; the next step leaves the exact
value in the `int` unless it is such a signal; and the loop of `sys_sem_wait` blocks exactly
when there is no token. -/
theorem semaphore_range (h : Run step32 Bounded (boot initproc) trace s) :
    (∀ id, 0 ≤ (s.sem id).value ∧ (s.sem id).value ≤ intMax) ∧
    (∀ id, (s.sem id).lk = none → (s.sem id).value = tokens id trace) ∧
    (∀ a s' events, IntArgs a → step s a = some (s', events) →
      ((∀ id, Fits 32 (s'.sem id).value) ↔ ¬ SignalsFull s a)) ∧
    ∀ i id ok, (s.proc i).state = .running → s.pc i = .semTest id →
      (step32 s (.advance i ok) = some (s.setPc i (.sleepPrepare (.sem id)), []) ↔
        tokens id trace = 0) := by
  have hrun := run_of_run32 h
  have htallied := tallied_of_run hrun
  refine ⟨fun id => ⟨htallied.value_nonneg id, htallied.le id⟩, fun id hlk => ?_, ?_, ?_⟩
  · rw [htallied.value id, pending_of_none hlk, add_zero]
  · intro a s' events hints hstep
    constructor
    · rintro hfits hfull
      exact not_fits_of_signalsFull hfull hstep hfits
    · intro hfull id
      exact (tallied_of_run (hrun.next ⟨hints, hfull⟩ hstep)).fits id
  · intro i id ok hstate hpc
    exact htallied.semTest_blocks_iff (locked_of_run hrun) hstate hpc ok

/-- The first process initialises a semaphore to `v` and signals it. -/
def initSignal (v : ℤ) : List (Action 3) :=
  [.dispatch 0, .trap 0 (.semInit 0 v)] ++ go 0 2 ++ [.trap 0 (.semSignal 0)] ++ go 0 7

theorem semaphore_range_last : ∃ trace s, Run step32 Bounded (boot (0 : Fin 3)) trace s ∧
    signals 0 trace = [1] ∧ (s.sem 0).value = tokens 0 trace ∧ tokens 0 trace = intMax ∧
      step32 s (.advance 0 true) ≠ some (s.setPc 0 (.sleepPrepare (.sem 0)), []) := by
  have htest : (exec step32 Bounded (initSignal (intMax - 1) ++ [.trap 0 (.semWait 0)] ++ go 0 1)
      [] (boot (0 : Fin 3))).any (fun r => decide (signals 0 r.1 = [1]) &&
        decide (tokens 0 r.1 = intMax) && decide ((r.2.sem 0).lk = some 0) &&
        decide ((r.2.sem 0).value = intMax) && decide ((r.2.proc 0).state = .running) &&
        decide (r.2.pc 0 = .semTest 0)) = true := by
    decide +kernel
  obtain ⟨trace, s, hrun, hs⟩ := exists_run htest
  simp only [Bool.and_eq_true, decide_eq_true_eq] at hs
  obtain ⟨⟨⟨⟨⟨hsignals, htokens⟩, _⟩, hvalue⟩, hstate⟩, hpc⟩ := hs
  obtain ⟨_, _, _, hblocks⟩ := semaphore_range hrun
  refine ⟨trace, s, hrun, hsignals, hvalue.trans htokens.symm, htokens, fun hsleeps => ?_⟩
  have hzero := (hblocks 0 0 true hstate hpc).mp hsleeps
  rw [htokens] at hzero
  exact absurd hzero (by decide)

/-- Both calls return 0, and the value is negative. -/
theorem semaphore_overflows : ∃ trace s,
    Run step32 (fun _ _ a => IntArgs a) (boot (0 : Fin 3)) trace s ∧ inits 0 trace = [intMax] ∧
      signals 0 trace = [1] ∧ ¬ 0 ≤ (s.sem 0).value := by
  have htest : (exec step32 (fun _ _ a => IntArgs a) (initSignal intMax) []
      (boot (0 : Fin 3))).any (fun r => decide (inits 0 r.1 = [intMax]) &&
        decide (signals 0 r.1 = [1]) && decide (¬ 0 ≤ (r.2.sem 0).value)) = true := by
    decide +kernel
  obtain ⟨trace, s, hrun, hs⟩ := exists_run htest
  simp only [Bool.and_eq_true, decide_eq_true_eq] at hs
  exact ⟨trace, s, hrun, hs.1.1, hs.1.2, hs.2⟩

end Process
