import Mathlib.Algebra.GroupWithZero.Nat
import Mathlib.Algebra.Ring.Int.Defs
import Mathlib.Data.Nat.Init
import OsAssignments.Sync.Peterson

/-!
# Peterson's algorithm loses no update

The processes of `peterson.c` on a sequentially consistent memory. A sequential run is a
run on the buffered memory that drains every store at once, so the two stores of the entry
section arrive in program order, and the processes exclude each other. The counter can
therefore only be what the process that has loaded it last makes of it: `Counts` ties it
to the stores made so far, and these to the iterations of the two processes. The counter
is an `int`: it counts as long as there are fewer than `2 ^ 31` stores.
-/

namespace Peterson

open EventRun StoreBuffer

/-- Any run on the sequentially consistent memory. -/
abbrev SequentialRun (n : ℕ) :
    List (Stored Process Addr Int32) → Config Process Addr Int32 Local → Prop :=
  Run (sequential (code n)) (fun _ _ _ => True) (start n)

def counterStores (trace : List (Stored Process Addr Int32)) : ℕ :=
  trace.countP fun e => e.2.1 = .sharedCounter

theorem counterStores_append (trace events : List (Stored Process Addr Int32)) :
    counterStores (trace ++ events) = counterStores trace + counterStores events :=
  List.countP_append

/-- Whether the process has stored the counter in this iteration, as a number. -/
def Pc.stored : Pc → ℕ
  | printCounter => 1
  | exitFence => 1
  | clearFlag => 1
  | _ => 0

namespace Local

def stores (l : Local) : ℕ := l.iter + l.pc.stored

/-- The process is in one of its `n` iterations, or has done them all. -/
def Placed (n : ℕ) (l : Local) : Prop :=
  l.pc ≠ .finished ∧ l.iter < n ∨ l.pc = .finished ∧ l.iter = n

theorem Placed.lt {n : ℕ} {l : Local} (h : l.Placed n) (hpc : l.pc ≠ .finished) :
    l.iter < n := by
  rcases h with ⟨_, hlt⟩ | ⟨hfinished, _⟩
  · exact hlt
  · exact absurd hfinished hpc

end Local

section Loop

variable {n iter : ℕ} {temp : Int32}

@[simp] theorem loop_stores : (loop n iter temp).stores = iter := by
  unfold loop Local.stores
  split <;> rfl

theorem loop_placed (h : iter ≤ n) : (loop n iter temp).Placed n := by
  unfold loop
  split
  · rename_i hlt
    exact Or.inl ⟨by simp, hlt⟩
  · rename_i hge
    exact Or.inr ⟨rfl, Nat.le_antisymm h (Nat.not_lt.mp hge)⟩

end Loop

/-- The counter is the number of its stores, which the processes have made between them,
and a process between its load and its store has loaded what is still there. -/
structure Counts (n : ℕ) (trace : List (Stored Process Addr Int32))
    (s : Config Process Addr Int32 Local) : Prop where
  counter : s.mem .sharedCounter = .ofNat (counterStores trace)
  temp : ∀ i, (s.party i).pc = .storeCounter → (s.party i).temp = s.mem .sharedCounter
  total : counterStores trace = (s.party .parent).stores + (s.party .child).stores
  placed : ∀ i, (s.party i).Placed n

section Step

variable {n : ℕ} {i j : Process} {l next : Local} {a : Addr} {v : Int32}
  {s s' : Config Process Addr Int32 Local} {trace events : List (Stored Process Addr Int32)}

/-- What a store does to the counts: only that of the counter counts. -/
theorem store_counts (h : code n i l = .store a v next) (hl : l.Placed n) :
    next.pc ≠ .storeCounter ∧ next.Placed n ∧
      (a = .sharedCounter ∧ l.pc = .storeCounter ∧ v = l.temp + 1 ∧ next.stores = l.stores + 1 ∨
        a ≠ .sharedCounter ∧ next.stores = l.stores) := by
  obtain ⟨pc, iter, temp⟩ := l
  cases pc with
  | raiseFlag =>
      cases h
      exact ⟨by simp, Or.inl ⟨by simp, hl.lt (by simp)⟩, Or.inr ⟨by simp, rfl⟩⟩
  | giveTurn =>
      cases h
      exact ⟨by simp, Or.inl ⟨by simp, hl.lt (by simp)⟩, Or.inr ⟨by simp, rfl⟩⟩
  | storeCounter =>
      cases h
      exact ⟨by simp, Or.inl ⟨by simp, hl.lt (by simp)⟩, Or.inl ⟨rfl, rfl, rfl, rfl⟩⟩
  | clearFlag =>
      cases h
      refine ⟨?_, loop_placed (hl.lt (by simp)), Or.inr ⟨by simp, ?_⟩⟩
      · unfold loop
        split <;> simp
      · rw [loop_stores]
        rfl
  | _ => cases h

/-- A load only changes `temp`, which it sets to the counter before the store. -/
theorem load_counts {next : Int32 → Local} (h : code n i l = .load a next) (hl : l.Placed n) :
    ((next v).pc = .storeCounter → a = .sharedCounter ∧ (next v).temp = v) ∧
      (next v).Placed n ∧ (next v).stores = l.stores := by
  obtain ⟨pc, iter, temp⟩ := l
  cases pc with
  | spinFlag =>
      cases h
      by_cases hv : v = 1
      · simp [Local.Placed, Local.stores, Pc.stored, hv, hl.lt]
      · simp [Local.Placed, Local.stores, Pc.stored, hv, hl.lt]
  | spinTurn =>
      cases h
      by_cases hv : v = i.other.id
      · simp [Local.Placed, Local.stores, Pc.stored, hv, hl.lt]
      · simp [Local.Placed, Local.stores, Pc.stored, hv, hl.lt]
  | loadCounter =>
      cases h
      simp [Local.Placed, Local.stores, Pc.stored, hl.lt]
  | printCounter =>
      cases h
      simp [Local.Placed, Local.stores, Pc.stored, hl.lt]
  | _ => cases h

theorem fence_counts (h : code n i l = .fence next) (hl : l.Placed n) :
    next.pc ≠ .storeCounter ∧ next.Placed n ∧ next.stores = l.stores := by
  obtain ⟨pc, iter, temp⟩ := l
  cases pc with
  | entryFence =>
      cases h
      simp [Local.Placed, Local.stores, Pc.stored, hl.lt]
  | exitFence =>
      cases h
      simp [Local.Placed, Local.stores, Pc.stored, hl.lt]
  | _ => cases h

theorem stores_update (party : Process → Local) (i : Process) (l : Local) :
    (Function.update party i l .parent).stores + (Function.update party i l .child).stores +
        (party i).stores =
      (party .parent).stores + (party .child).stores + l.stores := by
  cases i with
  | parent =>
      have hother : Function.update party .parent l .child = party .child :=
        Function.update_of_ne (by simp) _ _
      rw [Function.update_self, hother]
      omega
  | child =>
      have hother : Function.update party .child l .parent = party .parent :=
        Function.update_of_ne (by simp) _ _
      rw [Function.update_self, hother]
      omega

theorem Counts.move {mem : Addr → Int32} (h : Counts n trace s)
    (hcounter : mem .sharedCounter = s.mem .sharedCounter + .ofNat (counterStores events))
    (hself : next.pc = .storeCounter → next.temp = mem .sharedCounter)
    (hother : (s.party i.other).pc = .storeCounter →
      mem .sharedCounter = s.mem .sharedCounter)
    (hplaced : next.Placed n)
    (hstores : next.stores = (s.party i).stores + counterStores events) :
    Counts n (trace ++ events) ⟨mem, Function.update s.party i next⟩ := by
  refine ⟨?_, fun j => ?_, ?_, fun j => ?_⟩
  · rw [counterStores_append, Int32.ofNat_add, ← h.counter]
    exact hcounter
  · by_cases hj : j = i
    · subst hj
      simpa using hself
    · intro hpc
      change (Function.update s.party i next j).pc = .storeCounter at hpc
      change (Function.update s.party i next j).temp = mem .sharedCounter
      rw [Function.update_of_ne hj] at hpc ⊢
      rw [h.temp j hpc, hother (Process.eq_other_of_ne hj ▸ hpc)]
  · have htotal := h.total
    have hsum := stores_update s.party i next
    rw [counterStores_append]
    change _ = (Function.update s.party i next .parent).stores +
      (Function.update s.party i next .child).stores
    omega
  · by_cases hj : j = i
    · subst hj
      simpa using hplaced
    · change Local.Placed n (Function.update s.party i next j)
      rw [Function.update_of_ne hj]
      exact h.placed j

theorem Counts.step (h : Counts n trace s) (hs : sequential (code n) s i = some (s', events))
    (hexclusive : (s.party i).pc.Critical → ¬ (s.party i.other).pc.Critical) :
    Counts n (trace ++ events) s' := by
  have hplaced := h.placed i
  rcases sequential_cases hs with ⟨a, v, next, hcode, rfl, rfl⟩ | ⟨a, next, hcode, rfl, rfl⟩ |
    ⟨next, hcode, rfl, rfl⟩
  · obtain ⟨hpc, hnext, ⟨rfl, hat, hv, hstores⟩ | ⟨ha, hstores⟩⟩ := store_counts hcode hplaced
    · have hone : counterStores [(i, Addr.sharedCounter, v)] = 1 := by simp [counterStores]
      refine h.move ?_ (fun hstore => absurd hstore hpc) (fun hother => ?_) hnext
        (by rw [hone, hstores])
      · rw [Function.update_self, hone, hv, h.temp i hat]
        rfl
      · -- both processes would be in the critical section
        exact absurd (Or.inr (Or.inl hother)) (hexclusive (Or.inr (Or.inl hat)))
    · have hnone : counterStores [(i, a, v)] = 0 := by simp [counterStores, ha]
      have hmem : Function.update s.mem a v .sharedCounter = s.mem .sharedCounter :=
        Function.update_of_ne (Ne.symm ha) _ _
      refine h.move ?_ (fun hstore => absurd hstore hpc) (fun _ => hmem) hnext ?_
      · rw [hmem, hnone]
        exact (Int32.add_zero _).symm
      · rw [hnone, hstores]
        rfl
  · obtain ⟨hload, hnext, hstores⟩ := load_counts (v := s.mem a) hcode hplaced
    refine h.move (Int32.add_zero _).symm (fun hstore => ?_) (fun _ => rfl) hnext hstores
    obtain ⟨rfl, htemp⟩ := hload hstore
    exact htemp
  · obtain ⟨hpc, hnext, hstores⟩ := fence_counts hcode hplaced
    exact h.move (Int32.add_zero _).symm (fun hstore => absurd hstore hpc) (fun _ => rfl) hnext
      hstores

end Step

/-! ## Runs -/

section Runs

variable {n : ℕ} {s : Config Process Addr Int32 Local} {trace : List (Stored Process Addr Int32)}
  {i : Process}

theorem inv_of_sequentialRun (h : SequentialRun n trace s) : Inv s.drained :=
  inv_of_run (buffered_of_sequential h)

theorem counts_of_run (h : SequentialRun n trace s) : Counts n trace s := by
  induction h with
  | start =>
      refine ⟨rfl, fun _ _ => rfl, ?_, fun i => loop_placed (Nat.zero_le n)⟩
      simp [start, counterStores]
  | next hrun _ hs ih =>
      exact ih.step hs fun hcritical => (inv_of_sequentialRun hrun).exclusive hcritical

/-- The process is in its spin loop and stays there as long as it runs alone. -/
def Stuck (n : ℕ) (s : Config Process Addr Int32 Local) (i : Process) : Prop :=
  ∀ trace s', Run (sequential (code n)) (fun _ _ j => j = i) s trace s' → (s'.party i).pc.Spins

theorem leaves_of_spinTurn (hpc : (s.party i).pc = .spinTurn) (hturn : s.mem .turn = i.id) :
    ∃ s', sequential (code n) s i = some (s', []) ∧ ¬ (s'.party i).pc.Spins := by
  have hne : i.id ≠ i.other.id := i.id_other_ne.symm
  refine ⟨{ s with party := Function.update s.party i { s.party i with pc := .loadCounter } },
    ?_, ?_⟩
  · simp [sequential, code, hpc, hturn, hne]
  · simp [Pc.Spins]

/-- One that looks at the flag of the other leaves, or looks at the turn next. -/
theorem leaves_of_spinFlag (hpc : (s.party i).pc = .spinFlag) :
    ∃ s', sequential (code n) s i = some (s', []) ∧ s'.mem = s.mem ∧
      (¬ (s'.party i).pc.Spins ∨ (s'.party i).pc = .spinTurn) := by
  by_cases hflag : s.mem (.flag i.other) = 1
  · refine ⟨{ s with party := Function.update s.party i { s.party i with pc := .spinTurn } },
      ?_, rfl, Or.inr ?_⟩
    · simp [sequential, code, hpc, hflag]
    · simp
  · refine ⟨{ s with party := Function.update s.party i { s.party i with pc := .loadCounter } },
      ?_, rfl, Or.inl ?_⟩
    · simp [sequential, code, hpc, hflag]
    · simp [Pc.Spins]

theorem not_stuck_of_turn (hturn : s.mem .turn = i.id) : ¬ Stuck n s i := by
  intro hstuck
  rcases hstuck [] s .start with hpc | hpc
  · obtain ⟨s', hs, hmem, hleaves | hpc'⟩ := leaves_of_spinFlag (n := n) hpc
    · exact hleaves (hstuck _ s' (Run.start.next rfl hs))
    · rw [← hmem] at hturn
      obtain ⟨s'', hs', hleaves⟩ := leaves_of_spinTurn (n := n) hpc' hturn
      exact hleaves (hstuck _ s'' ((Run.start.next rfl hs).next rfl hs'))
  · obtain ⟨s', hs, hleaves⟩ := leaves_of_spinTurn (n := n) hpc hturn
    exact hleaves (hstuck _ s' (Run.start.next rfl hs))

theorem Counts.stores_of_finished (h : Counts n trace s)
    (hfinished : ∀ i, (s.party i).pc = .finished) : counterStores trace = 2 * n := by
  have hstores : ∀ i, (s.party i).stores = n := by
    intro i
    rcases h.placed i with ⟨hpc, _⟩ | ⟨hpc, hiter⟩
    · exact absurd (hfinished i) hpc
    · rw [Local.stores, hpc, hiter]
      rfl
  rw [h.total, hstores, hstores]
  omega

theorem Counts.stores_le (h : Counts n trace s) : counterStores trace ≤ 2 * n := by
  have hle : ∀ i, (s.party i).stores ≤ n := by
    intro i
    rcases h.placed i with ⟨_, hlt⟩ | ⟨hpc, hiter⟩
    · have hone : (s.party i).pc.stored ≤ 1 := by
        cases (s.party i).pc <;> simp [Pc.stored]
      rw [Local.stores]
      omega
    · rw [Local.stores, hpc, hiter]
      exact Nat.le_refl n
  have hparent := hle .parent
  have hchild := hle .child
  rw [h.total]
  omega

/-- In every state of every sequential run the processes are not both critical and not
both stuck in their spin loops, and the counter is the number of its stores, as far as an
`int` can hold it; when both have finished their `n` iterations, there have been `2 * n`. -/
theorem loses_no_update (n : ℕ) (trace : List (Stored Process Addr Int32))
    (s : Config Process Addr Int32 Local) (hrun : SequentialRun n trace s) :
    ¬ ((s.party .parent).pc.Critical ∧ (s.party .child).pc.Critical) ∧
    ¬ (Stuck n s .parent ∧ Stuck n s .child) ∧
    s.mem .sharedCounter = .ofNat (counterStores trace) ∧
    ((∀ i, (s.party i).pc = .finished) → counterStores trace = 2 * n) ∧
    (n < 2 ^ 30 → (s.mem .sharedCounter).toInt = counterStores trace ∧
      ((∀ i, (s.party i).pc = .finished) → (s.mem .sharedCounter).toInt = 2 * n)) := by
  have hinv := inv_of_sequentialRun hrun
  have hcounts := counts_of_run hrun
  refine ⟨fun hboth => hinv.exclusive hboth.1 hboth.2, ?_, hcounts.counter,
    hcounts.stores_of_finished, fun hn => ?_⟩
  · rintro ⟨hparent, hchild⟩
    obtain ⟨i, hturn⟩ := hinv.turn
    cases i with
    | parent => exact not_stuck_of_turn hturn hparent
    | child => exact not_stuck_of_turn hturn hchild
  · have hle := hcounts.stores_le
    have hvalue : (s.mem .sharedCounter).toInt = counterStores trace := by
      rw [hcounts.counter]
      exact Int32.toInt_ofNat_of_lt (by omega)
    refine ⟨hvalue, fun hfinished => ?_⟩
    rw [hvalue, hcounts.stores_of_finished hfinished]
    rfl

end Runs

/-! ## One process after the other -/

section Alone

variable {n k : ℕ} {s : Config Process Addr Int32 Local}
  {trace : List (Stored Process Addr Int32)} {i : Process}

/-- The process is before its iteration `k`, and both flags are down. -/
structure Before (n k : ℕ) (s : Config Process Addr Int32 Local) (i : Process) : Prop where
  party : ∃ temp, s.party i = loop n k temp
  flags : ∀ j, s.mem (.flag j) = 0

theorem Before.iterate (h : Before n k s i) (hk : k < n) (hrun : SequentialRun n trace s) :
    ∃ trace' s', SequentialRun n trace' s' ∧ Before n (k + 1) s' i ∧
      s'.party i.other = s.party i.other := by
  obtain ⟨temp, hparty⟩ := h.party
  have hentry : s.party i = ⟨.raiseFlag, k, temp⟩ := by
    rw [hparty, loop, if_pos hk]
  have hne : i.other ≠ i := by
    cases i <;> simp [Process.other]
  have hflag := h.flags i.other
  set mem : Addr → Int32 := Function.update (Function.update (Function.update
    (Function.update s.mem (.flag i) 1) .turn i.other.id) .sharedCounter
    (s.mem .sharedCounter + 1)) (.flag i) 0 with hmem
  obtain ⟨trace', hexec⟩ : ∃ trace', exec (sequential (code n)) (fun _ _ _ => True)
      (List.replicate 9 i) trace s = some (trace', ⟨mem,
        Function.update s.party i (loop n (k + 1) (s.mem .sharedCounter + 1))⟩) := by
    simp [exec, sequential, code, hentry, hne, hflag, List.replicate, hmem]
  refine ⟨trace', _, hrun.exec hexec, ⟨⟨s.mem .sharedCounter + 1, by simp⟩, fun j => ?_⟩, ?_⟩
  · by_cases hj : j = i
    · simp [hmem, hj]
    · simp [hmem, hj, h.flags j]
  · exact Function.update_of_ne hne _ _

theorem Before.finishes (h : Before n k s i) (hk : k ≤ n) (hrun : SequentialRun n trace s) :
    ∃ trace' s', SequentialRun n trace' s' ∧ Before n n s' i ∧
      s'.party i.other = s.party i.other := by
  induction hk using Nat.decreasingInduction generalizing s trace with
  | self => exact ⟨trace, s, hrun, h, rfl⟩
  | of_succ k hk ih =>
      obtain ⟨trace', s', hrun', h', hother⟩ := h.iterate hk hrun
      obtain ⟨trace'', s'', hrun'', h'', hother'⟩ := ih h' hrun'
      exact ⟨trace'', s'', hrun'', h'', hother'.trans hother⟩

theorem exists_finished (n : ℕ) :
    ∃ trace s, SequentialRun n trace s ∧ ∀ i, (s.party i).pc = .finished := by
  have hdone : ∀ s i, Before n n s i → (s.party i).pc = .finished := by
    rintro s i ⟨⟨temp, hparty⟩, -⟩
    simp [hparty, loop]
  have hstart : Before n 0 (start n) .parent := ⟨⟨0, rfl⟩, fun _ => rfl⟩
  obtain ⟨trace, s, hrun, hparent, hother⟩ := hstart.finishes (Nat.zero_le n) .start
  have hchild : Before n 0 s .child := ⟨⟨0, hother⟩, hparent.flags⟩
  obtain ⟨trace', s', hrun', hchild', hother'⟩ := hchild.finishes (Nat.zero_le n) hrun
  refine ⟨trace', s', hrun', fun i => ?_⟩
  cases i with
  | parent =>
      have hsame : s'.party .parent = s.party .parent := hother'
      rw [hsame]
      exact hdone s .parent hparent
  | child => exact hdone s' .child hchild'

/-- With `2 ^ 30` iterations the counter overflows at the last store. -/
theorem counter_overflow : ∃ trace s, SequentialRun (2 ^ 30) trace s ∧
    (∀ i, (s.party i).pc = .finished) ∧ counterStores trace = 2 * 2 ^ 30 ∧
    (s.mem .sharedCounter).toInt = -2 ^ 31 := by
  obtain ⟨trace, s, hrun, hfinished⟩ := exists_finished (2 ^ 30)
  have hcounts := counts_of_run hrun
  have hstores := hcounts.stores_of_finished hfinished
  refine ⟨trace, s, hrun, hfinished, hstores, ?_⟩
  rw [hcounts.counter, hstores]
  rfl

end Alone

/-! ## One iteration each -/

def oneEach : List Process :=
  List.replicate 6 .parent ++ List.replicate 5 .child ++ List.replicate 3 .parent ++
    List.replicate 6 .child

theorem exec_oneEach : (exec (sequential (code 1)) (fun _ _ _ => True) oneEach []
    (start 1)).any (fun x => (x.2.party .parent).pc = .finished ∧
      (x.2.party .child).pc = .finished) = true := by
  decide +kernel

theorem loses_no_update_oneEach :
    ∃ trace s, SequentialRun 1 trace s ∧ (s.mem .sharedCounter).toInt = 2 ∧
      (s.mem .sharedCounter).toInt = counterStores trace ∧
      ¬ ((s.party .parent).pc.Critical ∧ (s.party .child).pc.Critical) := by
  obtain ⟨trace, s, hrun, hs⟩ := exists_run exec_oneEach
  obtain ⟨hparent, hchild⟩ := of_decide_eq_true hs
  obtain ⟨hexclusive, -, -, -, hvalue⟩ := loses_no_update 1 trace s hrun
  obtain ⟨hcounter, hfinished⟩ := hvalue (by decide)
  refine ⟨trace, s, hrun, hfinished fun i => ?_, hcounter, hexclusive⟩
  cases i with
  | parent => exact hparent
  | child => exact hchild

end Peterson
