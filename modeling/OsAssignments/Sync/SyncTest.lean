import Mathlib.Data.Fintype.BigOperators
import OsAssignments.Library.MachineInt
import OsAssignments.Library.TableIndex
import OsAssignments.Sync.ThreadTest

/-!
# Threads that share a counter with a lock

The first part of `synctest.c`: `main` clones threads that count `shared_counter` up, each time
between `sem_wait` and `sem_signal` of one semaphore, joins them and prints the counter. The
semaphore calls are atomic here, as those of a counting semaphore. Now no update is lost: every
run comes to an end after as many steps as the program has, and unless a `clone` has failed,
`main` has printed the number of threads times that of the iterations, if it fits in an `int`.
-/

namespace SyncTest

open Interleaving MachineInt
open ThreadTest (Main Act)

/-- A thread in its iteration `i`: before `sem_wait`, before the load, before the store with the
value that it has loaded, and before `sem_signal`. -/
inductive Thread
  | waiting
  | wait (i : ℕ)
  | load (i : ℕ)
  | store (i : ℕ) (value : Int32)
  | signal (i : ℕ)
  | exited
  | joined
  deriving DecidableEq

/-- `mutex` is the value of the semaphore. -/
structure Shared where
  main : Main
  counter : Int32
  mutex : ℕ

abbrev System (threads : ℕ) := State (Fin threads) Shared Thread

/-- The loop of `increment` at `i`. -/
def loop (iterations i : ℕ) : Thread := if i < iterations then .wait i else .exited

/-- The next step of `increment`. -/
def increment (iterations : ℕ) (x : Shared) : Thread → Option (Shared × Thread)
  | .wait i => (down x.mutex).map fun v => ({ x with mutex := v }, .load i)
  | .load i => some (x, .store i x.counter)
  | .store i value => some ({ x with counter := value + 1 }, .signal i)
  | .signal i => some ({ x with mutex := x.mutex + 1 }, loop iterations (i + 1))
  | _ => none

variable {threads : ℕ}

/-- `main` has come to `c`. -/
def goto (s : System threads) (c : Main) : System threads := ⟨{ s.shared with main := c }, s.party⟩

def step (iterations : ℕ) (s : System threads) : Act threads → Option (System threads)
  | .clone ok =>
      match s.shared.main with
      | .cloning i =>
          if h : i < threads then
            if ok then
              some (s.move ⟨i, h⟩ { s.shared with main := .cloning (i + 1) } (loop iterations 0))
            else
              some (goto s .failed)
          else
            none
      | _ => none
  | .endLoop =>
      match s.shared.main with
      | .cloning i => if i < threads then none else some (goto s (.joining 0))
      | .joining i => if i < threads then none else some (goto s .done)
      | _ => none
  | .next t => (increment iterations s.shared (s.party t)).map fun r => s.move t r.1 r.2
  | .join t =>
      match s.shared.main with
      | .joining i =>
          if i < threads ∧ s.party t = .exited then
            some (s.move t { s.shared with main := .joining (i + 1) } .joined)
          else
            none
      | _ => none

/-- The semaphore has been set to `1`. -/
def start : System threads := ⟨⟨.cloning 0, 0, 1⟩, fun _ => .waiting⟩

abbrev Run (iterations : ℕ) (acts : List (Act threads)) (s : System threads) : Prop :=
  Refinement.Run (fun s a s' => step iterations s a = some s') start acts s

/-! ## What threads and `main` have done -/

namespace Thread

def stores (iterations : ℕ) : Thread → ℕ
  | waiting => 0
  | wait i | load i | store i _ => i
  | signal i => i + 1
  | exited | joined => iterations

def holds : Thread → ℕ
  | load _ | store _ _ | signal _ => 1
  | _ => 0

def joins : Thread → ℕ
  | joined => 1
  | _ => 0

/-- How many steps it took to bring a thread here, with its `clone` and `join`. -/
def steps (iterations : ℕ) : Thread → ℕ
  | waiting => 0
  | wait i => 4 * i + 1
  | load i => 4 * i + 2
  | store i _ => 4 * i + 3
  | signal i => 4 * i + 4
  | exited => 4 * iterations + 1
  | joined => 4 * iterations + 2

def Placed (iterations : ℕ) : Thread → Prop
  | wait i | load i | store i _ | signal i => i < iterations
  | _ => True

end Thread

/-- How many steps `main` has taken by itself. -/
def mainSteps : Main → ℕ
  | .cloning _ => 0
  | .joining _ | .failed => 1
  | .done => 2

section Loop

variable {iterations i : ℕ}

theorem loop_cases (h : i ≤ iterations) :
    i < iterations ∧ loop iterations i = .wait i ∨
      i = iterations ∧ loop iterations i = .exited := by
  unfold loop
  rcases h.lt_or_eq with hlt | heq
  · exact Or.inl ⟨hlt, if_pos hlt⟩
  · exact Or.inr ⟨heq, if_neg heq.not_lt⟩

theorem loop_stores (h : i ≤ iterations) : (loop iterations i).stores iterations = i := by
  rcases loop_cases h with ⟨_, hl⟩ | ⟨rfl, hl⟩
  · rw [hl, Thread.stores]
  · rw [hl, Thread.stores]

theorem loop_steps (h : i ≤ iterations) : (loop iterations i).steps iterations = 4 * i + 1 := by
  rcases loop_cases h with ⟨_, hl⟩ | ⟨rfl, hl⟩
  · rw [hl, Thread.steps]
  · rw [hl, Thread.steps]

theorem loop_placed (h : i ≤ iterations) : (loop iterations i).Placed iterations := by
  rcases loop_cases h with ⟨hlt, hl⟩ | ⟨rfl, hl⟩
  · rw [hl]
    exact hlt
  · rw [hl]
    trivial

theorem loop_holds (iterations i : ℕ) : (loop iterations i).holds = 0 := by
  unfold loop
  split_ifs
  · rfl
  · rfl

theorem loop_joins (iterations i : ℕ) : (loop iterations i).joins = 0 := by
  unfold loop
  split_ifs
  · rfl
  · rfl

theorem loop_ne_waiting (iterations i : ℕ) : loop iterations i ≠ .waiting := by
  unfold loop
  split_ifs
  · exact fun h => by cases h
  · exact fun h => by cases h

theorem loop_ne_store (iterations i : ℕ) {j : ℕ} {v : Int32} : loop iterations i ≠ .store j v := by
  unfold loop
  split_ifs
  · exact fun h => by cases h
  · exact fun h => by cases h

end Loop

section Runs

variable {iterations : ℕ} {s s' : System threads} {a : Act threads} {acts : List (Act threads)}
  {t : Fin threads}

inductive Step (iterations : ℕ) (s : System threads) : System threads → Prop
  | clone {i : ℕ} (h : i < threads) : s.shared.main = .cloning i → Step iterations s
      (s.move ⟨i, h⟩ { s.shared with main := .cloning (i + 1) } (loop iterations 0))
  | failed {i : ℕ} : s.shared.main = .cloning i → Step iterations s (goto s .failed)
  | cloned {i : ℕ} : s.shared.main = .cloning i → threads ≤ i →
      Step iterations s (goto s (.joining 0))
  | join {t : Fin threads} {i : ℕ} : s.shared.main = .joining i → s.party t = .exited →
      Step iterations s (s.move t { s.shared with main := .joining (i + 1) } .joined)
  | done {i : ℕ} : s.shared.main = .joining i → threads ≤ i → Step iterations s (goto s .done)
  | wait {t : Fin threads} {i v : ℕ} : s.party t = .wait i → s.shared.mutex = v + 1 →
      Step iterations s (s.move t { s.shared with mutex := v } (.load i))
  | load {t : Fin threads} {i : ℕ} : s.party t = .load i →
      Step iterations s (s.move t s.shared (.store i s.shared.counter))
  | store {t : Fin threads} {i : ℕ} {value : Int32} : s.party t = .store i value →
      Step iterations s (s.move t { s.shared with counter := value + 1 } (.signal i))
  | signal {t : Fin threads} {i : ℕ} : s.party t = .signal i → Step iterations s
      (s.move t { s.shared with mutex := s.shared.mutex + 1 } (loop iterations (i + 1)))

theorem step_cases (h : step iterations s a = some s') : Step iterations s s' := by
  cases a with
  | clone ok =>
      unfold step at h
      dsimp only at h
      cases hmain : s.shared.main with
      | cloning i =>
          rw [hmain] at h
          dsimp only at h
          split_ifs at h with hi hok
          · cases h
            exact .clone hi hmain
          · cases h
            exact .failed hmain
      | _ =>
          rw [hmain] at h
          cases h
  | endLoop =>
      unfold step at h
      dsimp only at h
      cases hmain : s.shared.main with
      | cloning i =>
          rw [hmain] at h
          dsimp only at h
          split_ifs at h with hi
          cases h
          exact .cloned hmain (Nat.not_lt.mp hi)
      | joining i =>
          rw [hmain] at h
          dsimp only at h
          split_ifs at h with hi
          cases h
          exact .done hmain (Nat.not_lt.mp hi)
      | _ =>
          rw [hmain] at h
          cases h
  | next t =>
      obtain ⟨r, hr, rfl⟩ := Option.map_eq_some_iff.mp h
      cases ht : s.party t with
      | wait i =>
          rw [ht] at hr
          obtain ⟨v, hv, rfl⟩ := Option.map_eq_some_iff.mp hr
          exact .wait ht (down_eq_some.mp hv)
      | load i =>
          rw [ht] at hr
          cases hr
          exact .load ht
      | store i value =>
          rw [ht] at hr
          cases hr
          exact .store ht
      | signal i =>
          rw [ht] at hr
          cases hr
          exact .signal ht
      | _ =>
          rw [ht] at hr
          cases hr
  | join t =>
      unfold step at h
      dsimp only at h
      cases hmain : s.shared.main with
      | joining i =>
          rw [hmain] at h
          dsimp only at h
          split_ifs at h with hi
          cases h
          exact .join hmain hi.2
      | _ =>
          rw [hmain] at h
          cases h

/-- `main` has cloned the threads that run, in their order, and counts those that it has
joined. -/
structure Cloned (main : Main) (party : Fin threads → Thread) : Prop where
  cloning : ∀ i, main = .cloning i →
    (∀ t, party t = .waiting ↔ i ≤ (t : ℕ)) ∧ total (fun _ => Thread.joins) party = 0
  joining : ∀ i, main = .joining i →
    (∀ t, party t ≠ .waiting) ∧ total (fun _ => Thread.joins) party = i
  done : main = .done → ∀ t, party t = .joined

/-- The counter is the number of stores, and a thread that is about to store has loaded it: it has
the semaphore, and nobody else has. -/
structure Inv (iterations : ℕ) (s : System threads) : Prop where
  counter : s.shared.counter = .ofNat (total (fun _ => Thread.stores iterations) s.party)
  mutex : s.shared.mutex + total (fun _ => Thread.holds) s.party = 1
  value : ∀ t i v, s.party t = .store i v → v = s.shared.counter
  placed : ∀ t, (s.party t).Placed iterations
  cloned : Cloned s.shared.main s.party

theorem inv_start (iterations : ℕ) : Inv iterations (start : System threads) where
  counter := congrArg Int32.ofNat (total_eq_zero fun _ => rfl).symm
  mutex := congrArg (1 + ·) (total_eq_zero fun _ => rfl)
  value _ _ _ h := by cases h
  placed _ := trivial
  cloned := by
    refine ⟨fun i hi => ?_, fun _ hi => (by cases hi), fun hi => (by cases hi)⟩
    cases hi
    exact ⟨fun t => iff_of_true rfl (Nat.zero_le t), total_eq_zero fun _ => rfl⟩

theorem Cloned.move {main : Main} {party : Fin threads → Thread} {k : Thread}
    (h : Cloned main party) (hold : party t ≠ .waiting) (hjoins : (party t).joins = 0)
    (hnew : k ≠ .waiting) (hjoins' : k.joins = 0) : Cloned main (Function.update party t k) := by
  have hsum := total_update (fun _ : Fin threads => Thread.joins) party t k
  have hwaiting : ∀ t', Function.update party t k t' = .waiting ↔ party t' = .waiting := by
    intro t'
    by_cases ht : t' = t
    · rw [ht, Function.update_self]
      exact iff_of_false hnew hold
    · rw [Function.update_of_ne ht]
  refine ⟨fun i hi => ?_, fun i hi => ?_, fun hd => ?_⟩
  · obtain ⟨hstarted, hcount⟩ := h.cloning i hi
    exact ⟨fun t' => (hwaiting t').trans (hstarted t'), by omega⟩
  · obtain ⟨hstarted, hcount⟩ := h.joining i hi
    exact ⟨fun t' ht => hstarted t' ((hwaiting t').mp ht), by omega⟩
  · rw [h.done hd t] at hjoins
    cases hjoins

theorem Inv.eq_of_holds (h : Inv iterations s) {t' : Fin threads} (ht : (s.party t).holds = 1)
    (ht' : (s.party t').holds = 1) : t = t' := by
  have hle : total (fun _ => Thread.holds) s.party ≤ 1 := by
    have := h.mutex
    omega
  exact eq_of_total_le_one hle (by rw [ht]; exact Nat.one_pos) (by rw [ht']; exact Nat.one_pos)

theorem Inv.move (h : Inv iterations s) {x : Shared} {k : Thread}
    (hcounter : x.counter + .ofNat ((s.party t).stores iterations) =
      s.shared.counter + .ofNat (k.stores iterations))
    (hmutex : x.mutex + k.holds = s.shared.mutex + (s.party t).holds)
    (hvalue : ∀ t' ≠ t, ∀ i v, s.party t' = .store i v → v = x.counter)
    (hself : ∀ i v, k = .store i v → v = x.counter) (hplaced : k.Placed iterations)
    (hcloned : Cloned x.main (Function.update s.party t k)) : Inv iterations (s.move t x k) := by
  have hstores := total_update (fun _ : Fin threads => Thread.stores iterations) s.party t k
  have hholds := total_update (fun _ : Fin threads => Thread.holds) s.party t k
  have hm := h.mutex
  refine ⟨eq_ofNat_of_add hcounter h.counter hstores, ?_, fun t' => ?_, fun t' => ?_, hcloned⟩
  · rw [State.move_shared, State.move_party]
    omega
  · exact State.forall_move
      (P := fun (x : Shared) _ l => ∀ i v, l = Thread.store i v → v = x.counter) hself hvalue t'
  · exact State.forall_move (P := fun _ _ (l : Thread) => l.Placed iterations) hplaced
      (fun j _ => h.placed j) t'

theorem Inv.next (h : Inv iterations s) {x : Shared} {l k : Thread} (ht : s.party t = l)
    (hl : l ≠ .waiting) (hl' : l.joins = 0) (hk : k ≠ .waiting) (hk' : k.joins = 0)
    (hplaced : l.Placed iterations → k.Placed iterations) (hmain : x.main = s.shared.main)
    (hcounter : l.Placed iterations →
      x.counter + .ofNat (l.stores iterations) =
        s.shared.counter + .ofNat (k.stores iterations))
    (hmutex : x.mutex + k.holds = s.shared.mutex + l.holds)
    (hvalue : ∀ t' ≠ t, ∀ i v, s.party t' = .store i v → v = x.counter)
    (hself : ∀ i v, k = .store i v → v = x.counter) : Inv iterations (s.move t x k) := by
  have hold : l.Placed iterations := ht ▸ h.placed t
  subst ht
  refine h.move (hcounter hold) hmutex hvalue hself (hplaced hold) ?_
  rw [hmain]
  exact h.cloned.move hl hl' hk hk'

theorem Step.inv (hs : Step iterations s s') (h : Inv iterations s) : Inv iterations s' := by
  have hother : ∀ {t : Fin threads}, (s.party t).holds = 1 → ∀ t' ≠ t, ∀ i v,
      s.party t' ≠ .store i v := by
    intro t ht t' hne i v hstore
    exact hne (h.eq_of_holds (by rw [hstore]; rfl) ht)
  cases hs with
  | @clone i hi hmain =>
      obtain ⟨hstarted, hjoins⟩ := h.cloned.cloning i hmain
      have hwaiting : s.party ⟨i, hi⟩ = .waiting := (hstarted _).mpr le_rfl
      refine h.move ?_ ?_ (fun t' _ => h.value t') (fun _ _ hk => absurd hk (loop_ne_store _ _))
        (loop_placed (Nat.zero_le _))
        ⟨fun j hj => ?_, fun _ hj => (by cases hj), fun hj => (by cases hj)⟩
      · rw [hwaiting, loop_stores (Nat.zero_le _)]
        rfl
      · rw [hwaiting, loop_holds]
        rfl
      · cases hj
        have hsum := total_update (fun _ : Fin threads => Thread.joins) s.party ⟨i, hi⟩
          (loop iterations 0)
        rw [hwaiting, loop_joins, hjoins] at hsum
        refine ⟨fun t' => ?_, hsum⟩
        by_cases ht : t' = ⟨i, hi⟩
        · rw [ht, Function.update_self]
          exact iff_of_false (loop_ne_waiting _ _) (Nat.not_succ_le_self i)
        · rw [Function.update_of_ne ht, hstarted t']
          have hne : (t' : ℕ) ≠ i := fun heq => ht (Fin.ext heq)
          omega
  | failed hmain =>
      exact ⟨h.counter, h.mutex, h.value, h.placed, fun _ hj => (by cases hj),
        fun _ hj => (by cases hj), fun hj => (by cases hj)⟩
  | @cloned i hmain hi =>
      obtain ⟨hstarted, hjoins⟩ := h.cloned.cloning i hmain
      refine ⟨h.counter, h.mutex, h.value, h.placed, fun _ hj => (by cases hj), fun j hj => ?_,
        fun hj => (by cases hj)⟩
      cases hj
      exact ⟨fun t ht => absurd ((hstarted t).mp ht) (t.isLt.trans_le hi).not_ge, hjoins⟩
  | @join t i hmain ht =>
      obtain ⟨hstarted, hjoins⟩ := h.cloned.joining i hmain
      refine h.move (by rw [ht]; rfl) (by rw [ht]; rfl) (fun t' _ => h.value t')
        (fun _ _ hk => (by cases hk)) trivial
        ⟨fun _ hj => (by cases hj), fun j hj => ?_, fun hj => (by cases hj)⟩
      cases hj
      have hsum := total_update (fun _ : Fin threads => Thread.joins) s.party t .joined
      rw [ht, hjoins] at hsum
      refine ⟨fun t' => ?_, hsum⟩
      by_cases hne : t' = t
      · rw [hne, Function.update_self]
        exact fun hw => by cases hw
      · rw [Function.update_of_ne hne]
        exact hstarted t'
  | @done i hmain hi =>
      obtain ⟨_, hjoins⟩ := h.cloned.joining i hmain
      refine ⟨h.counter, h.mutex, h.value, h.placed, fun _ hj => (by cases hj),
        fun _ hj => (by cases hj), fun _ t => ?_⟩
      -- all joins are needed to make up the count
      by_contra hne
      have hzero : (s.party t).joins = 0 := by
        cases ht : s.party t with
        | joined => exact absurd ht hne
        | _ => rfl
      have hle : ∀ t', (s.party t').joins ≤ 1 := by
        intro t'
        cases s.party t' with
        | joined => exact le_rfl
        | _ => exact Nat.zero_le 1
      have hlt : total (fun _ => Thread.joins) s.party < ∑ _t : Fin threads, 1 :=
        Finset.sum_lt_sum (fun t' _ => hle t') ⟨t, Finset.mem_univ t, hzero.trans_lt Nat.one_pos⟩
      rw [← Finset.card_eq_sum_ones, Finset.card_univ, Fintype.card_fin] at hlt
      omega
  | wait ht hv =>
      exact h.next ht (fun hl => by cases hl) rfl (fun hk => by cases hk) rfl id rfl (fun _ => rfl)
        hv.symm (fun t' _ => h.value t') (fun _ _ hk => by cases hk)
  | load ht =>
      refine h.next ht (fun hl => by cases hl) rfl (fun hk => by cases hk) rfl id rfl (fun _ => rfl)
        rfl (fun t' _ => h.value t') fun _ _ hk => ?_
      cases hk
      rfl
  | @store t i value ht =>
      refine h.next ht (fun hl => by cases hl) rfl (fun hk => by cases hk) rfl id rfl (fun _ => ?_)
        rfl (fun t' hne j v hj => absurd hj (hother (by rw [ht]; rfl) t' hne j v))
        (fun _ _ hk => by cases hk)
      rw [h.value t i value ht]
      change s.shared.counter + 1 + .ofNat i = s.shared.counter + .ofNat (i + 1)
      rw [Int32.ofNat_add, Int32.add_assoc, Int32.add_comm 1]
      rfl
  | @signal t i ht =>
      refine h.next ht (fun hl => by cases hl) rfl (loop_ne_waiting _ _) (loop_joins _ _)
        loop_placed rfl (fun hlt => ?_) ?_ (fun t' _ => h.value t')
        fun _ _ hk => absurd hk (loop_ne_store _ _)
      · rw [loop_stores hlt]
        rfl
      · rw [loop_holds]
        rfl

theorem inv_of_run (hrun : Run iterations acts s) : Inv iterations s :=
  hrun.invariant (fun _ _ _ h hstep => (step_cases hstep).inv h) (inv_start iterations)

/-! ## The length of a run -/

/-- How far threads and `main` have come. -/
def progress (iterations : ℕ) (s : System threads) : ℕ :=
  total (fun _ => Thread.steps iterations) s.party + mainSteps s.shared.main

theorem progress_move {x : Shared} {k : Thread}
    (hk : k.steps iterations = (s.party t).steps iterations + 1)
    (hx : mainSteps x.main = mainSteps s.shared.main) :
    progress iterations (s.move t x k) = progress iterations s + 1 := by
  have hsum := total_update (fun _ : Fin threads => Thread.steps iterations) s.party t k
  unfold progress
  rw [State.move_shared, State.move_party, hx]
  omega

theorem Step.progress_eq (hs : Step iterations s s') (h : Inv iterations s) :
    progress iterations s' = progress iterations s + 1 := by
  cases hs with
  | @clone i hi hmain =>
      have hwaiting : s.party ⟨i, hi⟩ = .waiting :=
        ((h.cloned.cloning i hmain).1 ⟨i, hi⟩).mpr le_rfl
      refine progress_move ?_ (by rw [hmain]; rfl)
      rw [hwaiting, loop_steps (Nat.zero_le _)]
      rfl
  | failed hmain | cloned hmain _ | done hmain _ =>
      unfold progress
      rw [hmain]
      rfl
  | join hmain ht => exact progress_move (by rw [ht]; rfl) (by rw [hmain]; rfl)
  | wait ht _ | load ht | store ht => exact progress_move (by rw [ht]; rfl) rfl
  | @signal t i ht =>
      have hlt : i < iterations := by
        have := h.placed t
        rw [ht] at this
        exact this
      refine progress_move ?_ rfl
      rw [ht, loop_steps hlt]
      rfl

theorem length_eq_progress (hrun : Run iterations acts s) :
    acts.length = progress iterations s := by
  induction hrun with
  | start =>
      have hzero : total (fun _ => Thread.steps iterations) (start : System threads).party = 0 :=
        total_eq_zero fun _ => rfl
      exact (congrArg (· + 0) hzero).symm
  | next hprev hstep ih =>
      rw [List.length_append, ih, (step_cases hstep).progress_eq (inv_of_run hprev)]
      rfl

theorem Inv.progress_le (h : Inv iterations s) :
    progress iterations s ≤ threads * (4 * iterations + 2) + 2 := by
  have hthread : ∀ t ∈ Finset.univ, (s.party t).steps iterations ≤ 4 * iterations + 2 := by
    intro t _
    have hplaced := h.placed t
    cases ht : s.party t with
    | waiting => exact Nat.zero_le _
    | exited => exact Nat.le_succ _
    | joined => exact le_rfl
    | _ =>
        rw [ht] at hplaced
        change _ < iterations at hplaced
        simp only [Thread.steps]
        omega
  have hsum := Finset.sum_le_card_nsmul Finset.univ _ _ hthread
  rw [Finset.card_univ, Fintype.card_fin, Nat.nsmul_eq_mul] at hsum
  have hmain : mainSteps s.shared.main ≤ 2 := by
    cases s.shared.main with
    | cloning i => exact Nat.zero_le 2
    | joining i | failed => exact Nat.le_succ 1
    | done => exact le_rfl
  exact Nat.add_le_add hsum hmain

/-! ## The end of a run -/

theorem holds_of_stuck (hstuck : ∀ a, step iterations s a = none) (t : Fin threads) :
    (s.party t).holds = 0 := by
  have hnext := hstuck (.next t)
  unfold step at hnext
  dsimp only at hnext
  cases ht : s.party t with
  | load i | store i v | signal i =>
      rw [ht] at hnext
      cases hnext
  | _ => rfl

theorem Inv.exited_of_stuck (h : Inv iterations s) (hstuck : ∀ a, step iterations s a = none)
    (t : Fin threads) : s.party t = .waiting ∨ s.party t = .exited ∨ s.party t = .joined := by
  have hholds := holds_of_stuck hstuck t
  cases ht : s.party t with
  | waiting => exact Or.inl rfl
  | exited => exact Or.inr (Or.inl rfl)
  | joined => exact Or.inr (Or.inr rfl)
  | load i | store i v | signal i =>
      rw [ht] at hholds
      cases hholds
  | wait i =>
      have hfree : s.shared.mutex = 1 := by
        have hmutex := h.mutex
        rw [total_eq_zero (holds_of_stuck hstuck)] at hmutex
        exact hmutex
      have hnext := hstuck (.next t)
      unfold step at hnext
      dsimp only at hnext
      rw [ht, increment, hfree] at hnext
      cases hnext

theorem Inv.counter_of_done (h : Inv iterations s) (hdone : s.shared.main = .done) :
    s.shared.counter = .ofNat (threads * iterations) := by
  have hstores : ∀ t ∈ Finset.univ, (s.party t).stores iterations = iterations := fun t _ =>
    congrArg (Thread.stores iterations) (h.cloned.done hdone t)
  have hsum := Finset.sum_const_nat hstores
  rw [Finset.card_univ, Fintype.card_fin] at hsum
  exact h.counter.trans (congrArg Int32.ofNat hsum)

/-- In every run, however the steps are interleaved: it is no longer than the program; `main`
prints the number of threads times that of the iterations, as an `int`; and where no step is
possible any more, `main` has printed it, or a `clone` has failed. -/
theorem counter_exact (hrun : Run iterations acts s) :
    acts.length ≤ threads * (4 * iterations + 2) + 2 ∧
    (s.shared.main = .done → s.shared.counter = .ofNat (threads * iterations) ∧
      (threads * iterations < 2 ^ 31 → s.shared.counter.toInt = threads * iterations)) ∧
    ((∀ a, step iterations s a = none) → s.shared.main = .done ∨ s.shared.main = .failed) := by
  have h := inv_of_run hrun
  refine ⟨(length_eq_progress hrun).trans_le h.progress_le, fun hdone => ?_, fun hstuck => ?_⟩
  · have hcounter := h.counter_of_done hdone
    refine ⟨hcounter, fun hrange => ?_⟩
    rw [hcounter, Int32.toInt_ofNat_of_lt hrange]
    rfl
  cases hmain : s.shared.main with
  | done => exact Or.inl rfl
  | failed => exact Or.inr rfl
  | cloning i =>
      have hclone := hstuck (.clone true)
      have hend := hstuck .endLoop
      unfold step at hclone hend
      dsimp only at hclone hend
      rw [hmain] at hclone hend
      dsimp only at hclone hend
      split_ifs at hclone hend
  | joining i =>
      obtain ⟨hstarted, hjoins⟩ := h.cloned.joining i hmain
      have hend := hstuck .endLoop
      unfold step at hend
      dsimp only at hend
      rw [hmain] at hend
      dsimp only at hend
      split_ifs at hend with hi
      -- so all threads have been joined, which are more than `main` has counted
      have hall : ∀ t, s.party t = .joined := by
        intro t
        rcases h.exited_of_stuck hstuck t with hw | hexited | hjoined
        · exact absurd hw (hstarted t)
        · have hjoin := hstuck (.join t)
          unfold step at hjoin
          dsimp only at hjoin
          rw [hmain] at hjoin
          dsimp only at hjoin
          rw [if_pos ⟨hi, hexited⟩] at hjoin
          cases hjoin
        · exact hjoined
      have hcount : total (fun _ => Thread.joins) s.party = ∑ _t : Fin threads, 1 :=
        Finset.sum_congr rfl fun t _ => congrArg Thread.joins (hall t)
      rw [hjoins, ← Finset.card_eq_sum_ones, Finset.card_univ, Fintype.card_fin] at hcount
      omega

end Runs

def oneAfterTheOther (t t' : Fin threads) : List (Act threads) :=
  [.clone true, .clone true, .endLoop] ++ List.replicate 4 (.next t) ++
    List.replicate 4 (.next t') ++ [.join t', .join t, .endLoop]

theorem counter_exact_oneAfterTheOther : ∃ s : System 2, Run 1 (oneAfterTheOther 0 1) s ∧
    s.shared.main = .done ∧ s.shared.counter.toInt = 2 := by
  have hrun : Run 1 (oneAfterTheOther (0 : Fin 2) 1) _ := Refinement.Run.of_foldlM rfl
  exact ⟨_, hrun, rfl, ((counter_exact hrun).2.1 rfl).2 (by decide)⟩

end SyncTest
