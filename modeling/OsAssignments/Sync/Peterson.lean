import OsAssignments.Library.StoreBuffer

/-!
# Peterson's algorithm and its fences

The two processes of `peterson.c`, with every load and store of `flag`, `turn` and
`shared_counter` a step of its own, for any number of iterations.

On the buffered memory the two stores of the entry section may reach the memory in either
order: the barrier orders both before the loads of the spin loop, but not one before the
other. `both_critical` is a run in which the store of `turn` arrives first and both
processes enter. `Inv` is what holds as long as it never overtakes the store of `flag`;
`mutual_exclusion_of_entryOrder` follows.
-/

namespace Peterson

open EventRun StoreBuffer

/-! ## peterson.c -/

/-- Process 0 is the parent, process 1 the child. -/
inductive Process
  | parent
  | child
  deriving DecidableEq

namespace Process

/-- `id`, the value of the process in `turn`. -/
def id : Process → Int32
  | parent => 0
  | child => 1

def other : Process → Process
  | parent => child
  | child => parent

@[simp] theorem other_other (i : Process) : i.other.other = i := by
  cases i <;> rfl

theorem eq_other_of_ne {i j : Process} (h : j ≠ i) : j = i.other := by
  cases i <;> cases j <;> simp_all [other]

theorem id_other_ne (i : Process) : i.other.id ≠ i.id := by
  cases i <;> simp [other, id]

end Process

/-- The shared memory, `struct shared_data`. -/
inductive Addr
  | flag (i : Process)
  | turn
  | sharedCounter
  deriving DecidableEq

/-- The next access of a process in its loop. -/
inductive Pc
  | raiseFlag
  | giveTurn
  | entryFence
  | spinFlag
  | spinTurn
  | loadCounter
  | storeCounter
  | printCounter
  | exitFence
  | clearFlag
  | finished
  deriving DecidableEq

/-- A process: its next access, its loop counter, counted from 0, and `temp`. -/
structure Local where
  pc : Pc
  iter : ℕ
  temp : Int32
  deriving DecidableEq

/-- The test of the loop before iteration `iter` of `n`. -/
def loop (n iter : ℕ) (temp : Int32) : Local :=
  ⟨if iter < n then .raiseFlag else .finished, iter, temp⟩

/-- The loop of a process that makes `n` iterations. -/
def code (n : ℕ) (i : Process) (l : Local) : Access Addr Int32 Local :=
  match l.pc with
  | .raiseFlag => .store (.flag i) 1 { l with pc := .giveTurn }
  | .giveTurn => .store .turn i.other.id { l with pc := .entryFence }
  | .entryFence => .fence { l with pc := .spinFlag }
  | .spinFlag => .load (.flag i.other) fun v =>
      { l with pc := if v = 1 then .spinTurn else .loadCounter }
  | .spinTurn => .load .turn fun v =>
      { l with pc := if v = i.other.id then .spinFlag else .loadCounter }
  | .loadCounter => .load .sharedCounter fun v => { l with pc := .storeCounter, temp := v }
  | .storeCounter =>
      .store .sharedCounter (l.temp + 1) { l with pc := .printCounter, temp := l.temp + 1 }
  | .printCounter => .load .sharedCounter fun _ => { l with pc := .exitFence }
  | .exitFence => .fence { l with pc := .clearFlag }
  | .clearFlag => .store (.flag i) 0 (loop n (l.iter + 1) l.temp)
  | .finished => .stop

def start (n : ℕ) : Config Process Addr Int32 Local where
  mem := fun _ => 0
  party := fun _ => loop n 0 0

/-! ## Where a process is -/

namespace Pc

/-- The process has left its spin loop and not yet made the store `flag[id] = 0`. -/
def Critical (pc : Pc) : Prop :=
  pc = loadCounter ∨ pc = storeCounter ∨ pc = printCounter ∨ pc = exitFence ∨ pc = clearFlag

def Spins (pc : Pc) : Prop := pc = spinFlag ∨ pc = spinTurn

def raised : Pc → Int32
  | raiseFlag => 0
  | finished => 0
  | _ => 1

theorem raised_of_spins {pc : Pc} (h : pc.Spins) : pc.raised = 1 := by
  rcases h with rfl | rfl <;> rfl

theorem raised_of_critical {pc : Pc} (h : pc.Critical) : pc.raised = 1 := by
  rcases h with rfl | rfl | rfl | rfl | rfl <;> rfl

theorem not_critical_of_spins {pc : Pc} (h : pc.Spins) : ¬ pc.Critical := by
  rcases h with rfl | rfl <;> simp [Critical]

end Pc

@[simp] theorem loop_raised (n iter : ℕ) (temp : Int32) : (loop n iter temp).pc.raised = 0 := by
  unfold loop
  split <;> rfl

theorem loop_not_critical (n iter : ℕ) (temp : Int32) : ¬ (loop n iter temp).pc.Critical := by
  unfold loop
  split <;> simp [Pc.Critical]

theorem loop_not_spins (n iter : ℕ) (temp : Int32) : ¬ (loop n iter temp).pc.Spins := by
  unfold loop
  split <;> simp [Pc.Spins]

/-! ## The stores of the entry section in order -/

/-- The store of a flag comes before that of `turn`. -/
def EntryOrder : Addr → Addr → Prop
  | .flag _, .turn => True
  | _, _ => False

instance : DecidableRel EntryOrder := fun a b =>
  match a, b with
  | .flag _, .turn => inferInstanceAs (Decidable True)
  | .flag _, .flag _ => inferInstanceAs (Decidable False)
  | .flag _, .sharedCounter => inferInstanceAs (Decidable False)
  | .turn, _ => inferInstanceAs (Decidable False)
  | .sharedCounter, _ => inferInstanceAs (Decidable False)

def queue (i : Process) (l : Local) : List (Addr × Int32) :=
  match l.pc with
  | .raiseFlag => [(.flag i, 0)]
  | .giveTurn => [(.flag i, 0), (.flag i, 1)]
  | .entryFence => [(.flag i, 0), (.flag i, 1), (.turn, i.other.id)]
  | .printCounter => [(.sharedCounter, l.temp)]
  | .exitFence => [(.sharedCounter, l.temp)]
  | .finished => [(.flag i, 0)]
  | _ => []

abbrev Memory := Machine Process Addr Int32 Local

/-- The flag and the `turn` of the process have arrived, and it has not taken its flag
back. -/
def Contends (s : Memory) (i : Process) : Prop :=
  (s.party i).pc = .entryFence ∧ s.buffer i = [] ∨
    (s.party i).pc.Spins ∨ (s.party i).pc.Critical

/-- What holds while no store of `turn` overtakes the store of a flag: a process sees its
own flag as it last stored it, and a critical process has the turn against one that
contends. -/
structure Inv (s : Memory) : Prop where
  queued : ∀ i, s.buffer i <:+ queue i (s.party i)
  raised : ∀ i, s.read i (.flag i) = (s.party i).pc.raised
  turn : ∃ j : Process, s.mem .turn = j.id
  entered : ∀ i, (s.party i).pc.Critical → Contends s i.other → s.mem .turn = i.id

section Queue

variable {n : ℕ} {i j : Process} {l next : Local} {a : Addr} {v : Int32} {e : Addr × Int32}

theorem queue_loop (i : Process) (n iter : ℕ) (temp : Int32) :
    queue i (loop n iter temp) = [(.flag i, 0)] := by
  unfold loop
  split <;> rfl

theorem queue_store (h : code n i l = .store a v next) :
    queue i next = queue i l ++ [(a, v)] := by
  obtain ⟨pc, iter, temp⟩ := l
  cases pc with
  | clearFlag =>
      cases h
      exact queue_loop i n _ _
  | raiseFlag => cases h; rfl
  | giveTurn => cases h; rfl
  | storeCounter => cases h; rfl
  | _ => cases h

theorem queue_load {next : Int32 → Local} (h : code n i l = .load a next) :
    queue i (next v) = queue i l := by
  obtain ⟨pc, iter, temp⟩ := l
  cases pc with
  | spinFlag =>
      cases h
      by_cases hv : v = 1
      · simp [queue, hv]
      · simp [queue, hv]
  | spinTurn =>
      cases h
      by_cases hv : v = i.other.id
      · simp [queue, hv]
      · simp [queue, hv]
  | loadCounter => cases h; rfl
  | printCounter => cases h; rfl
  | _ => cases h

theorem queue_pairwise (i : Process) (l : Local) :
    (queue i l).Pairwise fun e x => e.1 = x.1 ∨ EntryOrder e.1 x.1 := by
  obtain ⟨pc, iter, temp⟩ := l
  cases pc <;> simp [queue, EntryOrder]

theorem flag_notMem_queue (h : j ≠ i) (he : e ∈ queue i l) : e.1 ≠ .flag j := by
  obtain ⟨pc, iter, temp⟩ := l
  cases pc <;> simp [queue] at he <;> grind

theorem queue_of_critical (h : l.pc.Critical) (he : e ∈ queue i l) : e.1 = .sharedCounter := by
  rcases h with hpc | hpc | hpc | hpc | hpc <;> simp [queue, hpc] at he <;> simp [he]

theorem queue_of_spins (h : l.pc.Spins) : queue i l = [] := by
  rcases h with hpc | hpc <;> simp [queue, hpc]

/-- Only at the barrier of the entry section can a store of `turn` be pending. -/
theorem turn_mem_queue (h : (Addr.turn, v) ∈ queue i l) :
    l.pc = .entryFence ∧ v = i.other.id := by
  obtain ⟨pc, iter, temp⟩ := l
  cases pc <;> simp_all [queue]

/-- A store to the own flag is what `raised` says afterwards; the others leave it. -/
theorem raised_store (h : code n i l = .store a v next) :
    a = .flag i ∧ v = next.pc.raised ∨ a ≠ .flag i ∧ next.pc.raised = l.pc.raised := by
  obtain ⟨pc, iter, temp⟩ := l
  cases pc with
  | raiseFlag =>
      cases h
      exact Or.inl ⟨rfl, rfl⟩
  | giveTurn =>
      cases h
      exact Or.inr ⟨by simp, rfl⟩
  | storeCounter =>
      cases h
      exact Or.inr ⟨by simp, rfl⟩
  | clearFlag =>
      cases h
      exact Or.inl ⟨rfl, (loop_raised _ _ _).symm⟩
  | _ => cases h

/-- A process that stores is critical afterwards only if it was before, and does not spin. -/
theorem critical_store (h : code n i l = .store a v next) :
    (next.pc.Critical → l.pc.Critical) ∧ ¬ next.pc.Spins := by
  obtain ⟨pc, iter, temp⟩ := l
  cases pc with
  | raiseFlag =>
      cases h
      simp [Pc.Critical, Pc.Spins]
  | giveTurn =>
      cases h
      simp [Pc.Critical, Pc.Spins]
  | storeCounter =>
      cases h
      simp [Pc.Critical, Pc.Spins]
  | clearFlag =>
      cases h
      exact ⟨fun hcritical => absurd hcritical (loop_not_critical _ _ _),
        loop_not_spins _ _ _⟩
  | _ => cases h

/-- A process loads in its spin loop, which it leaves when it does not find the flag of the
other raised or the turn with the other, and in its critical section. -/
theorem critical_load {next : Int32 → Local} (h : code n i l = .load a next) :
    (l.pc.Spins ∨ l.pc.Critical) ∧ (next v).pc.raised = l.pc.raised ∧
      (next v).pc ≠ .entryFence ∧
      ((next v).pc.Critical → l.pc.Critical ∨
        l.pc.Spins ∧ (a = .flag i.other ∧ v ≠ 1 ∨ a = .turn ∧ v ≠ i.other.id)) := by
  obtain ⟨pc, iter, temp⟩ := l
  cases pc with
  | spinFlag =>
      cases h
      by_cases hv : v = 1
      · simp [Pc.Spins, Pc.Critical, Pc.raised, hv]
      · simp [Pc.Spins, Pc.Critical, Pc.raised, hv]
  | spinTurn =>
      cases h
      by_cases hv : v = i.other.id
      · simp [Pc.Spins, Pc.Critical, Pc.raised, hv]
      · simp [Pc.Spins, Pc.Critical, Pc.raised, hv]
  | loadCounter =>
      cases h
      simp [Pc.Spins, Pc.Critical, Pc.raised]
  | printCounter =>
      cases h
      simp [Pc.Spins, Pc.Critical, Pc.raised]
  | _ => cases h

/-- Behind the barrier of the entry section the process spins; behind that of the exit
section it is still critical. -/
theorem critical_fence (h : code n i l = .fence next) :
    next.pc.raised = l.pc.raised ∧
      (l.pc = .entryFence ∧ next.pc.Spins ∨ l.pc.Critical ∧ next.pc.Critical) := by
  obtain ⟨pc, iter, temp⟩ := l
  cases pc with
  | entryFence =>
      cases h
      simp [Pc.Spins, Pc.raised]
  | exitFence =>
      cases h
      simp [Pc.Critical, Pc.raised]
  | _ => cases h

end Queue

section Step

variable {n : ℕ} {s s' : Memory} {action : Action Process} {i : Process}

theorem Inv.flag_eq (h : Inv s) (hi : Contends s i) : s.mem (.flag i) = 1 := by
  have hraised := h.raised i
  have hnone : ∀ e ∈ s.buffer i, e.1 ≠ .flag i := by
    intro e he
    rcases hi with ⟨_, hempty⟩ | hspins | hcritical
    · simp [hempty] at he
    · have hmem := (h.queued i).subset he
      simp [queue_of_spins hspins] at hmem
    · have haddr := queue_of_critical hcritical ((h.queued i).subset he)
      simp [haddr]
  rw [Machine.read_eq_mem hnone] at hraised
  rw [hraised]
  rcases hi with ⟨hpc, _⟩ | hspins | hcritical
  · rw [hpc]
    rfl
  · exact Pc.raised_of_spins hspins
  · exact Pc.raised_of_critical hcritical

theorem Inv.read_of_spins (h : Inv s) (hi : (s.party i).pc.Spins) (a : Addr) :
    s.read i a = s.mem a := by
  have hempty : s.buffer i = [] := by
    have hsuffix := h.queued i
    rw [queue_of_spins hi] at hsuffix
    exact List.suffix_nil.mp hsuffix
  apply Machine.read_eq_mem
  simp [hempty]

theorem Inv.drains_head (h : Inv s) {k : ℕ} {trace : List (Stored Process Addr Int32)}
    (hs : Stepped (code n) s (.drain i k) s') (hok : Keeps EntryOrder trace s (.drain i k)) :
    k = 0 :=
  hs.drains_head hok ((queue_pairwise i (s.party i)).sublist (h.queued i).sublist)

theorem Inv.raised_step (h : Inv s) (hs : Stepped (code n) s action s')
    (hhead : ∀ i k, action = .drain i k → k = 0) (j : Process) :
    s'.read j (.flag j) = (s'.party j).pc.raised := by
  have hj := h.raised j
  cases hs with
  | @store i a v next hcode =>
      by_cases hji : j = i
      · subst hji
        rw [Machine.read_goto, Machine.goto_party_self]
        rcases raised_store hcode with ⟨rfl, hv⟩ | ⟨ha, hpc⟩
        · rw [Machine.read_push_self, hv]
        · rw [Machine.read_push_of_ne ha.symm, hj, hpc]
      · rw [Machine.read_goto, Machine.goto_party_of_ne hji, Machine.read_push_other hji, hj]
        rfl
  | @load i a next hcode =>
      by_cases hji : j = i
      · subst hji
        rw [Machine.read_goto, Machine.goto_party_self, hj, (critical_load hcode).2.1]
      · rw [Machine.read_goto, Machine.goto_party_of_ne hji, hj]
  | @fence i next hcode _ =>
      by_cases hji : j = i
      · subst hji
        rw [Machine.read_goto, Machine.goto_party_self, hj, (critical_fence hcode).1]
      · rw [Machine.read_goto, Machine.goto_party_of_ne hji, hj]
  | @drain i k a v hk _ =>
      obtain rfl : k = 0 := hhead i k rfl
      have hmem := List.mem_of_getElem? hk
      rw [Machine.commit_party]
      by_cases hji : j = i
      · subst hji
        rw [← List.head?_eq_getElem?] at hk
        obtain ⟨rest, hbuffer⟩ := List.head?_eq_some_iff.mp hk
        rw [Machine.read_commit_head hbuffer, hj]
      · have ha := flag_notMem_queue hji ((h.queued i).subset hmem)
        rw [Machine.read_commit_other hji (Ne.symm ha), hj]

/-- A process contends after an access of its own only if it did before. -/
theorem contends_of_run (hs : Stepped (code n) s (.run i) s') {j : Process}
    (hj : Contends s' j) : Contends s j := by
  by_cases hji : j = i
  · subst hji
    cases hs with
    | @store _ a v next hcode =>
        rw [Contends, Machine.goto_party_self, Machine.goto_buffer,
          Machine.push_buffer_self] at hj
        rcases hj with ⟨_, hempty⟩ | hspins | hcritical
        · simp at hempty
        · exact absurd hspins (critical_store hcode).2
        · exact Or.inr (Or.inr ((critical_store hcode).1 hcritical))
    | @load _ a next hcode => exact Or.inr (critical_load (v := s.read j a) hcode).1
    | @fence _ next hcode hempty =>
        rcases (critical_fence hcode).2 with ⟨hpc, _⟩ | ⟨hcritical, _⟩
        · exact Or.inl ⟨hpc, hempty⟩
        · exact Or.inr (Or.inr hcritical)
  · cases hs with
    | store hcode =>
        rwa [Contends, Machine.goto_party_of_ne hji, Machine.goto_buffer,
          Machine.push_buffer_of_ne hji] at hj
    | load hcode => rwa [Contends, Machine.goto_party_of_ne hji] at hj
    | fence hcode hempty => rwa [Contends, Machine.goto_party_of_ne hji] at hj

/-- A process that enters its critical section has the turn if the other contends. -/
theorem Inv.entered_of_run (h : Inv s) (hs : Stepped (code n) s (.run i) s') {j : Process}
    (hj : (s'.party j).pc.Critical) (hother : Contends s j.other) : s.mem .turn = j.id := by
  by_cases hji : j = i
  · subst hji
    cases hs with
    | @store _ a v next hcode =>
        rw [Machine.goto_party_self] at hj
        exact h.entered j ((critical_store hcode).1 hj) hother
    | @load _ a next hcode =>
        rw [Machine.goto_party_self] at hj
        rcases (critical_load hcode).2.2.2 hj with hcritical | ⟨hspins, ⟨rfl, hv⟩ | ⟨rfl, hv⟩⟩
        · exact h.entered j hcritical hother
        · rw [h.read_of_spins hspins, h.flag_eq hother] at hv
          exact absurd rfl hv
        · rw [h.read_of_spins hspins] at hv
          obtain ⟨i, hi⟩ := h.turn
          by_cases hij : i = j
          · rw [hi, hij]
          · rw [hi, Process.eq_other_of_ne hij] at hv
            exact absurd rfl hv
    | @fence _ next hcode _ =>
        rw [Machine.goto_party_self] at hj
        rcases (critical_fence hcode).2 with ⟨_, hspins⟩ | ⟨hcritical, _⟩
        · exact absurd hj (Pc.not_critical_of_spins hspins)
        · exact h.entered j hcritical hother
  · have hparty : s'.party j = s.party j := by
      cases hs with
      | store hcode => exact Machine.goto_party_of_ne hji
      | load hcode => exact Machine.goto_party_of_ne hji
      | fence hcode hempty => exact Machine.goto_party_of_ne hji
    rw [hparty] at hj
    exact h.entered j hj hother

/-- The last pending store at the barrier of the entry section is that of `turn`. -/
theorem Inv.eq_turn_of_singleton (h : Inv s) {a : Addr} {v : Int32}
    (hpc : (s.party i).pc = .entryFence) (hbuffer : s.buffer i = [(a, v)]) : a = .turn := by
  obtain ⟨before, hbefore⟩ := h.queued i
  have hlast := congrArg List.getLast? hbefore
  simp only [hbuffer, queue, hpc, List.getLast?_append, List.getLast?_singleton,
    Option.some_or, List.getLast?_cons_cons, Option.some.injEq, Prod.mk.injEq] at hlast
  exact hlast.1

/-- A store of `turn` that arrives gives the turn to the other process, which contends
with nobody else; any other store leaves the contending processes as they were. -/
theorem Inv.entered_of_drain (h : Inv s) {a : Addr} {v : Int32}
    (hk : (s.buffer i)[0]? = some (a, v)) {j : Process} (hj : (s.party j).pc.Critical)
    (hother : Contends (s.commit i 0 a v) j.other) : (s.commit i 0 a v).mem .turn = j.id := by
  have hmem : (a, v) ∈ queue i (s.party i) := (h.queued i).subset (List.mem_of_getElem? hk)
  by_cases ha : a = .turn
  · subst ha
    obtain ⟨hpc, rfl⟩ := turn_mem_queue hmem
    have hji : j ≠ i := by
      rintro rfl
      simp [hpc, Pc.Critical] at hj
    rw [Machine.commit_mem_self, Process.eq_other_of_ne hji]
  · rw [Machine.commit_mem_of_ne (Ne.symm ha)]
    refine h.entered j hj ?_
    by_cases hji : j.other = i
    · rw [Contends, Machine.commit_party] at hother
      rcases hother with ⟨hpc, hempty⟩ | hpast
      · rw [hji, Machine.commit_buffer_self, List.eraseIdx_zero] at hempty
        rw [hji] at hpc
        rw [← List.head?_eq_getElem?] at hk
        obtain ⟨rest, hbuffer⟩ := List.head?_eq_some_iff.mp hk
        rw [hbuffer, List.tail_cons] at hempty
        rw [hempty] at hbuffer
        exact absurd (h.eq_turn_of_singleton hpc hbuffer) ha
      · exact Or.inr hpast
    · rwa [Contends, Machine.commit_party, Machine.commit_buffer_of_ne hji] at hother

theorem Inv.step (h : Inv s) (hs : Stepped (code n) s action s')
    {trace : List (Stored Process Addr Int32)} (hok : Keeps EntryOrder trace s action) : Inv s' := by
  have hhead : ∀ i k, action = .drain i k → k = 0 := by
    rintro i k rfl
    exact h.drains_head hs hok
  have hqueued : ∀ i, s'.buffer i <:+ queue i (s'.party i) :=
    hs.isSuffix (fun _ _ _ _ _ hcode => queue_store hcode)
      (fun _ _ _ _ _ hcode => queue_load hcode) hhead h.queued
  have hraised := h.raised_step hs hhead
  cases action with
  | run i =>
      have hmem : s'.mem = s.mem := by
        cases hs with
        | store hcode => rfl
        | load hcode => rfl
        | fence hcode hempty => rfl
      refine ⟨hqueued, hraised, by rw [hmem]; exact h.turn, fun j hj hother => ?_⟩
      rw [hmem]
      exact h.entered_of_run hs hj (contends_of_run hs hother)
  | drain i k =>
      obtain rfl : k = 0 := hhead i k rfl
      cases hs with
      | @drain _ _ a v hk _ =>
          refine ⟨hqueued, hraised, ?_, fun j hj hother => h.entered_of_drain hk hj hother⟩
          by_cases ha : a = .turn
          · subst ha
            obtain ⟨_, rfl⟩ :=
              turn_mem_queue ((h.queued i).subset (List.mem_of_getElem? hk))
            exact ⟨i.other, Machine.commit_mem_self⟩
          · rw [Machine.commit_mem_of_ne (Ne.symm ha)]
            exact h.turn

end Step

/-! ## Runs -/

section Runs

variable {n : ℕ} {s : Memory} {trace : List (Stored Process Addr Int32)}

/-- Any run on the buffered memory. -/
abbrev FencedRun (n : ℕ) : List (Stored Process Addr Int32) → Memory → Prop :=
  Run (buffered (code n)) (fun _ _ _ => True) (start n).drained

/-- A run in which no store of `turn` arrives before an earlier store of its process's
flag. -/
abbrev EntryOrderRun (n : ℕ) : List (Stored Process Addr Int32) → Memory → Prop :=
  Run (buffered (code n)) (Keeps EntryOrder) (start n).drained

theorem start_inv (n : ℕ) : Inv (start n).drained := by
  refine ⟨fun i => List.nil_suffix, fun i => ?_, ⟨.parent, rfl⟩, fun i hi => ?_⟩
  · exact (loop_raised n 0 0).symm
  · exact absurd hi (loop_not_critical n 0 0)

theorem inv_of_run (h : EntryOrderRun n trace s) : Inv s := by
  refine Run.invariant (I := fun _ s => Inv s) (start_inv n) ?_ h
  intro trace s action s' events hinv hok hs
  exact hinv.step (stepped_of_buffered hs) hok

theorem Inv.exclusive (h : Inv s) {i : Process} (hi : (s.party i).pc.Critical) :
    ¬ (s.party i.other).pc.Critical := by
  intro hother
  have hturn := h.entered i hi (Or.inr (Or.inr hother))
  have hback : Contends s i.other.other := by
    rw [Process.other_other]
    exact Or.inr (Or.inr hi)
  have hturn' := h.entered i.other hother hback
  rw [hturn] at hturn'
  exact i.id_other_ne hturn'.symm

/-- While the stores of the entry section arrive in program order, the two processes are
never both in the critical section. -/
theorem mutual_exclusion_of_entryOrder (n : ℕ) (trace : List (Stored Process Addr Int32))
    (s : Memory) (hrun : EntryOrderRun n trace s) :
    ¬ ((s.party .parent).pc.Critical ∧ (s.party .child).pc.Critical) :=
  fun hboth => (inv_of_run hrun).exclusive hboth.1 hboth.2

end Runs

/-! ## The store of `turn` first -/

/-- Everything up to the critical section of the parent, the child being behind its own
entry section. -/
def parentFirst : List (Action Process) :=
  [.run .parent, .run .parent, .drain .parent 0, .drain .parent 0,
    .run .child, .run .child, .drain .child 0, .drain .child 0,
    .run .parent, .run .parent, .run .parent, .run .child]

theorem exec_parentFirst : (exec (buffered (code 10)) (Keeps EntryOrder) parentFirst []
    (start 10).drained).any
      (fun x => (x.2.party .parent).pc = .loadCounter ∧ (x.2.party .child).pc = .spinFlag) =
    true := by
  decide +kernel

theorem mutual_exclusion_of_entryOrder_parentFirst :
    ∃ trace s, EntryOrderRun 10 trace s ∧ (s.party .parent).pc = .loadCounter ∧
      (s.party .child).pc = .spinFlag ∧
      ¬ ((s.party .parent).pc.Critical ∧ (s.party .child).pc.Critical) := by
  obtain ⟨trace, s, hrun, hs⟩ := exists_run exec_parentFirst
  obtain ⟨hparent, hchild⟩ := of_decide_eq_true hs
  exact ⟨trace, s, hrun, hparent, hchild, mutual_exclusion_of_entryOrder 10 trace s hrun⟩

/-- The store of `turn` by the parent arrives before that of its flag. The child does not
see the flag and enters; the parent then finds the turn with itself and enters too. -/
def turnFirst : List (Action Process) :=
  [.run .parent, .run .parent, .drain .parent 1,
    .run .child, .run .child, .drain .child 0, .drain .child 0, .run .child, .run .child,
    .drain .parent 0, .run .parent, .run .parent, .run .parent]

/-- With one iteration or more, both processes can be in the critical section. -/
theorem exists_both_critical (n : ℕ) (hn : 1 ≤ n) : ∃ trace s, FencedRun n trace s ∧
    (s.party .parent).pc.Critical ∧ (s.party .child).pc.Critical := by
  have hpos : 0 < n := hn
  have hstart : start n = ⟨fun _ => 0, fun _ => ⟨.raiseFlag, 0, 0⟩⟩ := by
    simp [start, loop, hpos]
  have hexec : (exec (buffered (code n)) (fun _ _ _ => True) turnFirst []
      (Config.drained ⟨fun _ => 0, fun _ => ⟨.raiseFlag, 0, 0⟩⟩)).any
        (fun x => (x.2.party .parent).pc = .loadCounter ∧
          (x.2.party .child).pc = .loadCounter) = true := rfl
  rw [← hstart] at hexec
  obtain ⟨trace, s, hrun, hs⟩ := exists_run hexec
  obtain ⟨hparent, hchild⟩ := of_decide_eq_true hs
  exact ⟨trace, s, hrun, Or.inl hparent, Or.inl hchild⟩

/-- The barriers of `peterson.c` do not keep the processes apart in its ten iterations. -/
theorem both_critical :
    ¬ ∀ n trace s, FencedRun n trace s →
      ¬ ((s.party .parent).pc.Critical ∧ (s.party .child).pc.Critical) := by
  intro h
  obtain ⟨trace, s, hrun, hcritical⟩ := exists_both_critical 10 (by decide)
  exact h 10 trace s hrun hcritical

end Peterson
