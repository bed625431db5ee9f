import OsAssignments.Library.Interleaving
import OsAssignments.Library.Refinement

/-!
# Threads that share a counter without a lock

`threadtest.c`: `main` clones `threads` threads, joins as many, and prints the counter. Each
thread loads the counter, waits for a while, and stores one more, `iterations` times. Updates
are lost this way, and the number of threads times that of the iterations is only the greatest
value that can be printed. The least one is `2`, however many iterations there are, and every
value in between can be printed too.

The counter is an `int`, so these are the values that are printed as long as the product
fits in one; beyond that they wrap.
-/

namespace ThreadTest

open Interleaving

/-- A thread in its iteration `i`, before the load, or before the store with the value that it
has loaded. -/
inductive Thread
  | waiting
  | load (i : ℕ)
  | store (i : ℕ) (value : Int32)
  | exited
  | joined
  deriving DecidableEq

/-- `main`, which prints the counter when it is `done`. -/
inductive Main
  | cloning (i : ℕ)
  | joining (i : ℕ)
  | failed
  | done
  deriving DecidableEq

structure State (threads : ℕ) where
  counter : Int32
  main : Main
  party : Fin threads → Thread

/-- `clone` succeeds or fails; one of the loops of `main` ends; a thread goes on; `join` returns
a thread that has exited. -/
inductive Act (threads : ℕ)
  | clone (ok : Bool)
  | endLoop
  | next (t : Fin threads)
  | join (t : Fin threads)
  deriving DecidableEq

/-- The loop of a thread at `i`. -/
def loop (iterations i : ℕ) : Thread := if i < iterations then .load i else .exited

variable {threads : ℕ}

def step (iterations : ℕ) (s : State threads) : Act threads → Option (State threads)
  | .clone ok =>
      match s.main with
      | .cloning i =>
          if h : i < threads then
            if ok then
              some { s with
                main := .cloning (i + 1)
                party := Function.update s.party ⟨i, h⟩ (loop iterations 0) }
            else
              some { s with main := .failed }
          else
            none
      | _ => none
  | .endLoop =>
      match s.main with
      | .cloning i => if i < threads then none else some { s with main := .joining 0 }
      | .joining i => if i < threads then none else some { s with main := .done }
      | _ => none
  | .next t =>
      match s.party t with
      | .load i => some { s with party := Function.update s.party t (.store i s.counter) }
      | .store i value =>
          some { s with
            counter := value + 1
            party := Function.update s.party t (loop iterations (i + 1)) }
      | _ => none
  | .join t =>
      match s.main with
      | .joining i =>
          if i < threads ∧ s.party t = .exited then
            some { s with
              main := .joining (i + 1)
              party := Function.update s.party t .joined }
          else
            none
      | _ => none

def start : State threads := ⟨0, .cloning 0, fun _ => .waiting⟩

abbrev Run (iterations : ℕ) (s : State threads) (acts : List (Act threads))
    (s' : State threads) : Prop :=
  Refinement.Run (fun s a s' => step iterations s a = some s') s acts s'

/-! ## Bounds -/

section Bounds

variable {iterations : ℕ} {s s' : State threads} {a : Act threads} {t : Fin threads}

def Thread.stores (iterations : ℕ) : Thread → ℕ
  | .waiting => 0
  | .load i | .store i _ => i
  | .exited | .joined => iterations

def Thread.joins : Thread → ℕ
  | .joined => 1
  | _ => 0

def Thread.Finished (l : Thread) : Prop := l = .exited ∨ l = .joined

@[simp] theorem loop_stores {i : ℕ} (h : i ≤ iterations) :
    (loop iterations i).stores iterations = i := by
  unfold loop
  split_ifs with hi
  · rfl
  · exact Nat.le_antisymm (Nat.not_lt.mp hi) h

@[simp] theorem loop_joins {i : ℕ} : (loop iterations i).joins = 0 := by
  unfold loop
  split_ifs
  · rfl
  · rfl

theorem loop_ne_store {i j : ℕ} {value : Int32} : loop iterations i ≠ .store j value := by
  unfold loop
  split_ifs
  · exact fun h => by cases h
  · exact fun h => by cases h

inductive Step (iterations : ℕ) (s : State threads) : State threads → Prop
  | clone {i : ℕ} (h : i < threads) : s.main = .cloning i → Step iterations s
      ⟨s.counter, .cloning (i + 1), Function.update s.party ⟨i, h⟩ (loop iterations 0)⟩
  | failed : Step iterations s { s with main := .failed }
  | cloned {i : ℕ} : s.main = .cloning i → Step iterations s { s with main := .joining 0 }
  | done {i : ℕ} : s.main = .joining i → threads ≤ i → Step iterations s { s with main := .done }
  | load {t : Fin threads} {i : ℕ} : s.party t = .load i → Step iterations s
      { s with party := Function.update s.party t (.store i s.counter) }
  | store {t : Fin threads} {i : ℕ} {value : Int32} : s.party t = .store i value → Step iterations s
      ⟨value + 1, s.main, Function.update s.party t (loop iterations (i + 1))⟩
  | join {t : Fin threads} {i : ℕ} : s.main = .joining i → s.party t = .exited →
      Step iterations s ⟨s.counter, .joining (i + 1), Function.update s.party t .joined⟩

theorem step_cases (h : step iterations s a = some s') : Step iterations s s' := by
  cases a with
  | clone ok =>
      unfold step at h
      dsimp only at h
      cases hmain : s.main with
      | cloning i =>
          rw [hmain] at h
          dsimp only at h
          split_ifs at h with hi hok
          · cases h
            exact .clone hi hmain
          · cases h
            exact .failed
      | _ =>
          rw [hmain] at h
          cases h
  | endLoop =>
      unfold step at h
      dsimp only at h
      cases hmain : s.main with
      | cloning i =>
          rw [hmain] at h
          dsimp only at h
          split_ifs at h
          cases h
          exact .cloned hmain
      | joining i =>
          rw [hmain] at h
          dsimp only at h
          split_ifs at h with hi
          cases h
          exact .done hmain (Nat.not_lt.mp hi)
      | _ =>
          rw [hmain] at h
          cases h
  | next t =>
      unfold step at h
      dsimp only at h
      cases ht : s.party t with
      | load i =>
          rw [ht] at h
          cases h
          exact .load ht
      | store i value =>
          rw [ht] at h
          cases h
          exact .store ht
      | _ =>
          rw [ht] at h
          cases h
  | join t =>
      unfold step at h
      dsimp only at h
      cases hmain : s.main with
      | joining i =>
          rw [hmain] at h
          dsimp only at h
          split_ifs at h with hi
          cases h
          exact .join hmain hi.2
      | _ =>
          rw [hmain] at h
          cases h

/-- The counter, and every value that has been loaded, is at most the number of stores so far;
once there was a store it is not `0` any more, so a thread that has stored loads no `0`; and
the last store of all makes it `2` at least. -/
structure Counts (iterations : ℕ) (s : State threads) : Prop where
  lt : ∀ t i, s.party t = .load i → i < iterations
  value : ∀ t i value, s.party t = .store i value → i < iterations ∧
    ∃ k ≤ total (fun _ => Thread.stores iterations) s.party, value = .ofNat k ∧ (0 < i → 1 ≤ k)
  counter : ∃ k ≤ total (fun _ => Thread.stores iterations) s.party, s.counter = .ofNat k ∧
    (0 < total (fun _ => Thread.stores iterations) s.party → 1 ≤ k) ∧
    ((∀ t, (s.party t).Finished) → 2 ≤ k)

/-- What `main` has done so far. -/
structure Joins (s : State threads) : Prop where
  waiting : ∀ i, s.main = .cloning i → ∀ t, i ≤ t.val → s.party t = .waiting
  cloning : ∀ i, s.main = .cloning i → total (fun _ => Thread.joins) s.party = 0
  joining : ∀ i, s.main = .joining i → total (fun _ => Thread.joins) s.party = i
  done : s.main = .done → threads ≤ total (fun _ => Thread.joins) s.party

theorem counts_start (hthreads : 0 < threads) : Counts iterations (start : State threads) := by
  have hstores : total (fun _ => Thread.stores iterations) (start : State threads).party = 0 :=
    total_eq_zero fun _ => rfl
  constructor
  · intro t i h
    cases h
  · intro t i value h
    cases h
  · refine ⟨0, Nat.zero_le _, rfl, fun h => ?_, fun h => ?_⟩
    · rw [hstores] at h
      cases h
    · rcases h ⟨0, hthreads⟩ with h | h
      · cases h
      · cases h

theorem joins_start : Joins (start : State threads) := by
  constructor
  · exact fun _ _ _ _ => rfl
  · exact fun _ _ => total_eq_zero fun _ => rfl
  · intro i h
    cases h
  · intro h
    cases h

theorem Counts.move (h : Counts iterations s) {l : Thread} {main : Main}
    (hlt : ∀ i, l = .load i → i < iterations)
    (hvalue : ∀ i value, l = .store i value → i < iterations ∧
      ∃ k ≤ total (fun _ => Thread.stores iterations) s.party, value = .ofNat k ∧ (0 < i → 1 ≤ k))
    (hstores : l.stores iterations = (s.party t).stores iterations)
    (hlast : l.Finished → (s.party t).Finished) :
    Counts iterations ⟨s.counter, main, Function.update s.party t l⟩ := by
  have htotal : total (fun _ => Thread.stores iterations) (Function.update s.party t l) =
      total (fun _ => Thread.stores iterations) s.party := by
    have hupdate := total_update (fun _ => Thread.stores iterations) s.party t l
    rw [hstores] at hupdate
    exact Nat.add_right_cancel hupdate
  constructor
  · intro j i hj
    dsimp only at hj
    by_cases hjt : j = t
    · rw [hjt, Function.update_self] at hj
      exact hlt i hj
    · rw [Function.update_of_ne hjt] at hj
      exact h.lt j i hj
  · intro j i value hj
    dsimp only at hj ⊢
    rw [htotal]
    by_cases hjt : j = t
    · rw [hjt, Function.update_self] at hj
      exact hvalue i value hj
    · rw [Function.update_of_ne hjt] at hj
      exact h.value j i value hj
  · obtain ⟨k, hk, hcounter, hpos, hfinished⟩ := h.counter
    rw [htotal]
    refine ⟨k, hk, hcounter, hpos, fun hall => hfinished fun j => ?_⟩
    have hj := hall j
    dsimp only at hj
    by_cases hjt : j = t
    · rw [hjt, Function.update_self] at hj
      rw [hjt]
      exact hlast hj
    · rw [Function.update_of_ne hjt] at hj
      exact hj

theorem Counts.store (h : Counts iterations s) (hiterations : 2 ≤ iterations) {i : ℕ}
    {value : Int32} (ht : s.party t = .store i value) : Counts iterations
      ⟨value + 1, s.main, Function.update s.party t (loop iterations (i + 1))⟩ := by
  obtain ⟨hi, k, hk, rfl, hpos⟩ := h.value t i value ht
  have htotal : total (fun _ => Thread.stores iterations)
      (Function.update s.party t (loop iterations (i + 1))) =
        total (fun _ => Thread.stores iterations) s.party + 1 := by
    have hupdate := total_update (fun _ => Thread.stores iterations) s.party t
      (loop iterations (i + 1))
    rw [loop_stores hi, ht] at hupdate
    change _ + i = _ at hupdate
    omega
  have hloop : ∀ j, loop iterations (i + 1) = .load j → j < iterations := by
    intro j hj
    unfold loop at hj
    split_ifs at hj with hlt
    cases hj
    exact hlt
  constructor
  · intro j k hj
    dsimp only at hj
    by_cases hjt : j = t
    · rw [hjt, Function.update_self] at hj
      exact hloop k hj
    · rw [Function.update_of_ne hjt] at hj
      exact h.lt j k hj
  · intro j n v hj
    dsimp only at hj ⊢
    rw [htotal]
    by_cases hjt : j = t
    · rw [hjt, Function.update_self] at hj
      exact absurd hj loop_ne_store
    · rw [Function.update_of_ne hjt] at hj
      obtain ⟨hn, k', hle, hv, hkpos⟩ := h.value j n v hj
      exact ⟨hn, k', Nat.le_succ_of_le hle, hv, hkpos⟩
  · rw [htotal]
    refine ⟨k + 1, Nat.succ_le_succ hk, (Int32.ofNat_add k 1).symm,
      fun _ => Nat.succ_le_succ (Nat.zero_le k), fun hall => ?_⟩
    -- the thread is in its last iteration, so it has stored before
    have hlast := hall t
    dsimp only at hlast
    rw [Function.update_self] at hlast
    have hge : iterations ≤ i + 1 := by
      by_contra hlt
      unfold loop at hlast
      rw [if_pos (Nat.not_le.mp hlt)] at hlast
      rcases hlast with hlast | hlast
      · cases hlast
      · cases hlast
    exact Nat.succ_le_succ (hpos (by omega))

theorem Step.counts (hstep : Step iterations s s') (h : Counts iterations s) (hj : Joins s)
    (hiterations : 2 ≤ iterations) : Counts iterations s' := by
  have hsame : ∀ main, Counts iterations ⟨s.counter, main, s.party⟩ :=
    fun _ => ⟨h.lt, h.value, h.counter⟩
  have hpos : 0 < iterations := by omega
  cases hstep with
  | @clone i hi hmain =>
      have hwaiting := hj.waiting i hmain ⟨i, hi⟩ le_rfl
      have hloop : loop iterations 0 = .load 0 := if_pos hpos
      rw [hloop]
      refine h.move (fun i hi => ?_) (fun i v hi => ?_) ?_ fun hfinished => ?_
      · cases hi
        exact hpos
      · cases hi
      · rw [hwaiting]
        rfl
      · rcases hfinished with hc | hc
        · cases hc
        · cases hc
  | failed | cloned _ | done _ _ => exact hsame _
  | @load t i ht =>
      have hi := h.lt t i ht
      refine h.move (fun i hi => ?_) (fun j v hj => ?_) ?_ fun hfinished => ?_
      · cases hi
      · cases hj
        obtain ⟨k, hk, hcounter, hpos, -⟩ := h.counter
        refine ⟨hi, k, hk, hcounter, fun hstored => hpos ?_⟩
        have hle := le_total (fun _ => Thread.stores iterations) s.party t
        rw [ht] at hle
        exact hstored.trans_le hle
      · rw [ht]
        rfl
      · rcases hfinished with hc | hc
        · cases hc
        · cases hc
  | store ht => exact h.store hiterations ht
  | @join t i _ ht =>
      refine h.move (fun i hi => ?_) (fun i v hi => ?_) ?_ fun _ => Or.inl ht
      · cases hi
      · cases hi
      · rw [ht]
        rfl

theorem Joins.move (h : Joins s) {l : Thread} {c : Int32} (ht : s.party t ≠ .waiting)
    (hjoins : l.joins = (s.party t).joins) :
    Joins ⟨c, s.main, Function.update s.party t l⟩ := by
  have htotal : total (fun _ => Thread.joins) (Function.update s.party t l) =
      total (fun _ => Thread.joins) s.party := by
    have hupdate := total_update (fun _ => Thread.joins) s.party t l
    rw [hjoins] at hupdate
    exact Nat.add_right_cancel hupdate
  constructor
  · intro i hi j hj
    have hwaiting := h.waiting i hi j hj
    have hne : j ≠ t := by
      rintro rfl
      exact ht hwaiting
    dsimp only
    rw [Function.update_of_ne hne]
    exact hwaiting
  · intro i hi
    exact htotal.trans (h.cloning i hi)
  · intro i hi
    exact htotal.trans (h.joining i hi)
  · intro hdone
    exact (h.done hdone).trans htotal.ge

theorem Step.joins (hstep : Step iterations s s') (h : Joins s) : Joins s' := by
  cases hstep with
  | @clone i hi hmain =>
      have htotal := total_update (fun _ => Thread.joins) s.party ⟨i, hi⟩ (loop iterations 0)
      rw [loop_joins, h.waiting i hmain ⟨i, hi⟩ le_rfl, h.cloning i hmain] at htotal
      constructor
      · intro k hk j hj
        cases hk
        have hne : j ≠ ⟨i, hi⟩ := by
          rintro rfl
          exact absurd hj (Nat.not_succ_le_self i)
        dsimp only
        rw [Function.update_of_ne hne]
        exact h.waiting i hmain j (Nat.le_of_succ_le hj)
      · exact fun _ _ => htotal
      · intro k hk
        cases hk
      · intro hdone
        cases hdone
  | failed =>
      constructor
      · intro i hi
        cases hi
      · intro i hi
        cases hi
      · intro i hi
        cases hi
      · intro hdone
        cases hdone
  | @cloned i hmain =>
      constructor
      · intro i hi
        cases hi
      · intro i hi
        cases hi
      · intro k hk
        cases hk
        exact h.cloning i hmain
      · intro hdone
        cases hdone
  | @done i hmain hi =>
      constructor
      · intro i hi
        cases hi
      · intro i hi
        cases hi
      · intro k hk
        cases hk
      · exact fun _ => hi.trans (h.joining i hmain).ge
  | @load t i ht =>
      refine h.move (fun hc => ?_) ?_
      · cases ht.symm.trans hc
      · rw [ht]
        rfl
  | @store t i value ht =>
      refine h.move (fun hc => ?_) ?_
      · cases ht.symm.trans hc
      · rw [ht]
        exact loop_joins
  | @join t i hmain ht =>
      have htotal := total_update (fun _ => Thread.joins) s.party t .joined
      rw [ht, h.joining i hmain] at htotal
      constructor
      · intro k hk
        cases hk
      · intro k hk
        cases hk
      · intro k hk
        cases hk
        exact htotal
      · intro hdone
        cases hdone

theorem Joins.joined (h : Joins s) (hdone : s.main = .done) (t : Fin threads) :
    s.party t = .joined := by
  have hle : ∀ l : Thread, l.joins ≤ 1 := by
    intro l
    cases l with
    | joined => exact le_rfl
    | _ => exact Nat.zero_le 1
  have hsum : ∑ t, (s.party t).joins = ∑ _t : Fin threads, 1 := by
    refine le_antisymm (Finset.sum_le_sum fun t _ => hle _) ?_
    rw [Finset.sum_const_nat (fun _ _ => rfl), Finset.card_univ, Fintype.card_fin, Nat.mul_one]
    exact h.done hdone
  have hone := (Finset.sum_eq_sum_iff_of_le fun t _ => hle (s.party t)).mp hsum t
    (Finset.mem_univ t)
  cases ht : s.party t with
  | joined => rfl
  | _ =>
      rw [ht] at hone
      cases hone

theorem bounds (hthreads : 0 < threads) (hiterations : 2 ≤ iterations)
    {acts : List (Act threads)} (hrun : Run iterations start acts s) (hdone : s.main = .done) :
    ∃ k, 2 ≤ k ∧ k ≤ threads * iterations ∧ s.counter = .ofNat k := by
  have hkeeps : ∀ (s : State threads) (a : Act threads) (s' : State threads),
      (Counts iterations s ∧ Joins s) → step iterations s a = some s' →
        (Counts iterations s' ∧ Joins s') := fun _ _ _ hinv hstep =>
    ⟨(step_cases hstep).counts hinv.1 hinv.2 hiterations, (step_cases hstep).joins hinv.2⟩
  have hinv := Refinement.Run.invariant hkeeps ⟨counts_start hthreads, joins_start⟩ hrun
  obtain ⟨hcounts, hjoins⟩ := hinv
  have htotal : total (fun _ => Thread.stores iterations) s.party = threads * iterations := by
    have hall : ∀ t ∈ Finset.univ, (s.party t).stores iterations = iterations := fun t _ => by
      rw [hjoins.joined hdone t]
      rfl
    unfold total
    rw [Finset.sum_const_nat hall, Finset.card_univ, Fintype.card_fin]
  obtain ⟨k, hk, hcounter, -, hlast⟩ := hcounts.counter
  exact ⟨k, hlast fun t => Or.inr (hjoins.joined hdone t), hk.trans htotal.le, hcounter⟩

end Bounds

/-! ## Every value in between -/

section Runs

variable {iterations c v : ℕ} {value : Int32} {s s' s'' : State threads}
  {q q' : Fin threads → ℕ} {held : Fin threads → Option ℕ} {t : Fin threads}

theorem step_clone {i : ℕ} (hmain : s.main = .cloning i) (hi : i < threads) :
    step iterations s (.clone true) = some
      ⟨s.counter, .cloning (i + 1), Function.update s.party ⟨i, hi⟩ (loop iterations 0)⟩ := by
  unfold step
  dsimp only
  rw [hmain]
  dsimp only
  rw [dif_pos hi, if_pos rfl]

theorem step_load {i : ℕ} (ht : s.party t = .load i) : step iterations s (.next t) = some
    ⟨s.counter, s.main, Function.update s.party t (.store i s.counter)⟩ := by
  unfold step
  dsimp only
  rw [ht]

theorem step_store {i : ℕ} (ht : s.party t = .store i value) : step iterations s (.next t) = some
    ⟨value + 1, s.main, Function.update s.party t (loop iterations (i + 1))⟩ := by
  unfold step
  dsimp only
  rw [ht]

theorem step_join {i : ℕ} (hmain : s.main = .joining i) (hi : i < threads)
    (ht : s.party t = .exited) : step iterations s (.join t) = some
      ⟨s.counter, .joining (i + 1), Function.update s.party t .joined⟩ := by
  unfold step
  dsimp only
  rw [hmain]
  dsimp only
  rw [if_pos ⟨hi, ht⟩]

def Leads (iterations : ℕ) (s s' : State threads) : Prop := ∃ acts, Run iterations s acts s'

theorem Leads.refl (s : State threads) : Leads iterations s s := ⟨[], .start⟩

theorem Leads.trans (h : Leads iterations s s') (h' : Leads iterations s' s'') :
    Leads iterations s s'' := by
  obtain ⟨acts, hacts⟩ := h
  obtain ⟨acts', hacts'⟩ := h'
  exact ⟨acts ++ acts', hacts.append hacts'⟩

theorem Leads.single {a : Act threads} (h : step iterations s a = some s') :
    Leads iterations s s' := ⟨[a], .single h⟩

/-- All threads have been cloned: each is in front of its iteration `q t`, or in it with the
value `held t`. -/
def running (iterations c : ℕ) (q : Fin threads → ℕ) (held : Fin threads → Option ℕ) :
    State threads where
  counter := .ofNat c
  main := .joining 0
  party t := (held t).elim (loop iterations (q t)) fun v => .store (q t) (.ofNat v)

/-- The states of `main` and the threads where `main` has done `i` turns of a loop. -/
def after (c : Int32) (main : Main) (i : ℕ) (l l' : Thread) : State threads :=
  ⟨c, main, fun t => if t.val < i then l' else l⟩

theorem after_update {main : Main} {i : ℕ} {l l' : Thread} (hi : i < threads) :
    (⟨value, main, Function.update (after value main i l l').party ⟨i, hi⟩ l'⟩ : State threads) =
      after value main (i + 1) l l' := by
  unfold after
  congr 1
  funext t
  by_cases ht : t = ⟨i, hi⟩
  · rw [ht, Function.update_self]
    exact (if_pos (Nat.lt_succ_self i)).symm
  · have hne : t.val ≠ i := fun heq => ht (Fin.ext heq)
    rw [Function.update_of_ne ht]
    exact if_congr ⟨fun h => by omega, fun h => by omega⟩ rfl rfl

theorem after_zero {main : Main} {l l' : Thread} :
    (after value main 0 l l' : State threads) = ⟨value, main, fun _ => l⟩ := rfl

theorem after_all {main : Main} {l l' : Thread} :
    (after value main threads l l' : State threads) = ⟨value, main, fun _ => l'⟩ := by
  unfold after
  congr 1
  funext t
  exact if_pos t.isLt

theorem leads_running :
    Leads iterations start (running iterations 0 (fun _ => 0) fun _ : Fin threads => none) := by
  have hclone : ∀ i ≤ threads, Leads iterations (start : State threads)
      (after 0 (.cloning i) i .waiting (loop iterations 0)) := by
    intro i hi
    induction i with
    | zero =>
        rw [after_zero]
        exact .refl _
    | succ i ih =>
        have hlt := Nat.lt_of_succ_le hi
        refine (ih (Nat.le_of_succ_le hi)).trans (.single ((step_clone rfl hlt).trans ?_))
        exact congrArg some (after_update hlt)
  refine (hclone threads le_rfl).trans (.single (a := .endLoop) ?_)
  rw [after_all]
  unfold step
  dsimp only
  rw [if_neg (lt_irrefl threads)]
  rfl

theorem leads_done :
    Leads iterations (running iterations c (fun _ => iterations) fun _ : Fin threads => none)
      ⟨.ofNat c, .done, fun _ => .joined⟩ := by
  have hexited : running iterations c (fun _ => iterations) (fun _ : Fin threads => none) =
      after (.ofNat c) (.joining 0) 0 .exited .joined := by
    unfold running
    rw [after_zero]
    congr 1
    funext t
    exact if_neg (lt_irrefl iterations)
  have hjoin : ∀ i ≤ threads, Leads iterations
      (after (.ofNat c) (.joining 0) 0 .exited .joined : State threads)
        (after (.ofNat c) (.joining i) i .exited .joined) := by
    intro i hi
    induction i with
    | zero => exact .refl _
    | succ i ih =>
        have hlt := Nat.lt_of_succ_le hi
        refine (ih (Nat.le_of_succ_le hi)).trans
          (.single ((step_join rfl hlt (t := ⟨i, hlt⟩) (if_neg (lt_irrefl i))).trans ?_))
        exact congrArg some (after_update hlt)
  rw [hexited]
  refine (hjoin threads le_rfl).trans (.single (a := .endLoop) ?_)
  rw [after_all]
  unfold step
  dsimp only
  rw [if_neg (lt_irrefl threads)]

theorem leads_load (hheld : held t = none) (ht : q t < iterations) :
    Leads iterations (running iterations c q held)
      (running iterations c q (Function.update held t (some c))) := by
  have hload : (running iterations c q held).party t = .load (q t) := by
    change (held t).elim _ _ = _
    rw [hheld]
    exact if_pos ht
  refine .single ((step_load hload).trans ?_)
  unfold running
  congr 2
  funext j
  by_cases hj : j = t
  · rw [hj, Function.update_self, Function.update_self]
    rfl
  · rw [Function.update_of_ne hj, Function.update_of_ne hj]

theorem leads_store (hheld : held t = some v) :
    Leads iterations (running iterations c q held) (running iterations (v + 1)
      (Function.update q t (q t + 1)) (Function.update held t none)) := by
  have hstore : (running iterations c q held).party t = .store (q t) (.ofNat v) := by
    change (held t).elim _ _ = _
    rw [hheld]
    rfl
  refine .single ((step_store hstore).trans ?_)
  unfold running
  rw [Int32.ofNat_add]
  congr 2
  funext j
  by_cases hj : j = t
  · rw [hj, Function.update_self, Function.update_self, Function.update_self]
    rfl
  · rw [Function.update_of_ne hj, Function.update_of_ne hj, Function.update_of_ne hj]

theorem leads_iteration (hheld : held t = none) (ht : q t < iterations) :
    Leads iterations (running iterations c q held)
      (running iterations (c + 1) (Function.update q t (q t + 1)) held) := by
  have hstore : Leads iterations (running iterations c q (Function.update held t (some c))) _ :=
    leads_store (Function.update_self ..)
  rw [Function.update_idem, ← hheld, Function.update_eq_self] at hstore
  exact (leads_load hheld ht).trans hstore

/-- Threads that hold no value go on, and none of their iterations is lost. -/
theorem leads_all (hle : ∀ j, q j ≤ q' j) (hmax : ∀ j, q' j ≤ iterations)
    (hheld : ∀ j, held j ≠ none → q j = q' j) :
    Leads iterations (running iterations c q held)
      (running iterations (c + ∑ j, (q' j - q j)) q' held) := by
  induction hm : ∑ j, (q' j - q j) generalizing c q with
  | zero =>
      have hq : q = q' := by
        funext j
        have hj := (Finset.sum_eq_zero_iff.mp hm) j (Finset.mem_univ j)
        exact Nat.le_antisymm (hle j) (Nat.sub_eq_zero_iff_le.mp hj)
      rw [hq]
      exact .refl _
  | succ m ih =>
      obtain ⟨j, _, hj⟩ : ∃ j ∈ Finset.univ, q' j - q j ≠ 0 := by
        by_contra hno
        have hzero : ∑ j, (q' j - q j) = 0 := Finset.sum_eq_zero fun j hj => by
          by_contra hne
          exact hno ⟨j, hj, hne⟩
        omega
      have hlt : q j < q' j := by omega
      have hnone : held j = none := by
        by_contra hne
        exact absurd (hheld j hne) (Nat.ne_of_lt hlt)
      have hsum : ∑ k, (q' k - Function.update q j (q j + 1) k) = m := by
        have hupdate := total_update (fun k n => q' k - n) q j (q j + 1)
        change ∑ k, (q' k - Function.update q j (q j + 1) k) + (q' j - q j) =
          ∑ k, (q' k - q k) + (q' j - (q j + 1)) at hupdate
        omega
      have hle' : ∀ k, Function.update q j (q j + 1) k ≤ q' k := by
        intro k
        by_cases hk : k = j
        · rw [hk, Function.update_self]
          exact hlt
        · rw [Function.update_of_ne hk]
          exact hle k
      have hheld' : ∀ k, held k ≠ none → Function.update q j (q j + 1) k = q' k := by
        intro k hk
        have hne : k ≠ j := by
          rintro rfl
          exact hk hnone
        rw [Function.update_of_ne hne]
        exact hheld k hk
      have hrest := ih (c := c + 1) hle' hheld' hsum
      rw [Nat.add_assoc, Nat.add_comm 1] at hrest
      exact (leads_iteration hnone (hlt.trans_le (hmax j))).trans hrest

theorem exists_part {b : Fin threads → ℕ} {m : ℕ} (hm : m ≤ ∑ j, b j) :
    ∃ r : Fin threads → ℕ, (∀ j, r j ≤ b j) ∧ ∑ j, r j = m := by
  induction m with
  | zero => exact ⟨fun _ => 0, fun _ => Nat.zero_le _, Finset.sum_const_zero⟩
  | succ m ih =>
      obtain ⟨r, hr, hsum⟩ := ih (Nat.le_of_succ_le hm)
      obtain ⟨j, _, hj⟩ := Finset.exists_lt_of_sum_lt (hsum.trans_lt hm)
      refine ⟨Function.update r j (r j + 1), fun k => ?_, ?_⟩
      · by_cases hk : k = j
        · rw [hk, Function.update_self]
          exact hj
        · rw [Function.update_of_ne hk]
          exact hr k
      · have hupdate := total_update (fun _ n => n) r j (r j + 1)
        change ∑ k, Function.update r j (r j + 1) k + r j = ∑ k, r k + (r j + 1) at hupdate
        omega

theorem sum_update (r : Fin threads → ℕ) (j : Fin threads) (n : ℕ) :
    ∑ k, Function.update r j n k + r j = ∑ k, r k + n :=
  total_update (fun _ n => n) r j n

/-- Thread `t` holds an old value while others go on: all that they store is lost. -/
theorem leads_lost (ht : q t < iterations) (hle : ∀ j, q j ≤ q' j)
    (hmax : ∀ j, q' j ≤ iterations) (hsame : q' t = q t) :
    Leads iterations (running iterations c q fun _ => none)
      (running iterations (c + 1) (Function.update q' t (q t + 1)) fun _ => none) := by
  have hload : Leads iterations (running iterations c q fun _ => none) _ :=
    leads_load (t := t) rfl ht
  have hothers : Leads iterations
      (running iterations c q (Function.update (fun _ => none) t (some c))) _ :=
    leads_all hle hmax fun j hj => by
      have hjt : j = t := by
        by_contra hne
        exact hj (Function.update_of_ne hne ..)
      rw [hjt, hsame]
  have hstore : Leads iterations (running iterations (c + ∑ j, (q' j - q j)) q'
      (Function.update (fun _ => none) t (some c))) _ := leads_store (Function.update_self ..)
  have hnone : Function.update (fun _ : Fin threads => (none : Option ℕ)) t none = fun _ => none :=
    Function.update_eq_self t _
  rw [Function.update_idem, hnone, hsame] at hstore
  exact hload.trans (hothers.trans hstore)

/-- Two threads each hold an old value while others go on: the first one while `r` iterations
are done, the second one while the first one does `x` more. Nothing else is lost. -/
theorem leads_lost_twice {a b : Fin threads} {r : Fin threads → ℕ} {x : ℕ} (hab : a ≠ b)
    (hra : r a = 0) (hrb : r b < iterations) (hr : ∀ j, r j ≤ iterations) (hx : x < iterations) :
    Leads iterations (running iterations 0 (fun _ => 0) fun _ : Fin threads => none)
      (running iterations (2 + (threads * iterations - (∑ j, r j + x + 2)))
        (fun _ => iterations) fun _ => none) := by
  have hother : ∀ n, Function.update r a n b = r b := fun n => Function.update_of_ne hab.symm ..
  have hmax : ∀ n ≤ iterations, ∀ j, Function.update r a n j ≤ iterations := by
    intro n hn j
    by_cases hj : j = a
    · rw [hj, Function.update_self]
      exact hn
    · rw [Function.update_of_ne hj]
      exact hr j
  have hfirst : Leads iterations (running iterations 0 (fun _ => 0) fun _ : Fin threads => none)
      (running iterations 1 (Function.update r a 1) fun _ => none) :=
    leads_lost (t := a) (Nat.zero_lt_of_lt hx) (fun _ => Nat.zero_le _) hr hra
  set q := Function.update (Function.update r a (1 + x)) b (r b + 1) with hq
  have hsecond : Leads iterations (running iterations 1 (Function.update r a 1) fun _ => none)
      (running iterations 2 q fun _ => none) := by
    have hle : ∀ j, Function.update r a 1 j ≤ Function.update r a (1 + x) j := by
      intro j
      by_cases hj : j = a
      · rw [hj, Function.update_self, Function.update_self]
        exact Nat.le_add_right 1 x
      · rw [Function.update_of_ne hj, Function.update_of_ne hj]
    have hlost := leads_lost (c := 1) (t := b) ((hother 1).trans_lt hrb) hle
      (hmax (1 + x) (by omega)) ((hother _).trans (hother 1).symm)
    rw [hother] at hlost
    exact hlost
  have hqle : ∀ j, q j ≤ iterations := by
    intro j
    by_cases hj : j = b
    · rw [hq, hj, Function.update_self]
      exact hrb
    · rw [hq, Function.update_of_ne hj]
      exact hmax (1 + x) (by omega) j
  have hrest : Leads iterations (running iterations 2 q fun _ : Fin threads => none) _ :=
    leads_all hqle (fun _ => le_rfl) fun j hj => absurd rfl hj
  have hsum : ∑ j, (iterations - q j) + ∑ j, q j = threads * iterations := by
    rw [← Finset.sum_add_distrib, Finset.sum_const_nat fun j _ => Nat.sub_add_cancel (hqle j),
      Finset.card_univ, Fintype.card_fin]
  have houter : ∑ j, q j + Function.update r a (1 + x) b =
      ∑ j, Function.update r a (1 + x) j + (r b + 1) := sum_update _ b (r b + 1)
  have hinner := sum_update r a (1 + x)
  rw [hother] at houter
  rw [hra] at hinner
  have hcounter : 2 + ∑ j, (iterations - q j) =
      2 + (threads * iterations - (∑ j, r j + x + 2)) := by omega
  rw [hcounter] at hrest
  exact hfirst.trans (hsecond.trans hrest)

theorem leads_counter (hthreads : 2 ≤ threads) (hiterations : 2 ≤ iterations) (hv : 2 ≤ v)
    (hle : v ≤ threads * iterations) :
    Leads iterations start (⟨.ofNat v, .done, fun _ => .joined⟩ : State threads) := by
  obtain ⟨a, b, hab⟩ : ∃ a b : Fin threads, a ≠ b :=
    ⟨⟨0, by omega⟩, ⟨1, by omega⟩, fun h => by cases h⟩
  obtain ⟨x, m, hx, hlost, hm⟩ : ∃ x m, x < iterations ∧ m + x + v = threads * iterations ∧
      m + iterations + 1 ≤ threads * iterations := by
    refine ⟨min (threads * iterations - v) (iterations - 1),
      threads * iterations - v - min (threads * iterations - v) (iterations - 1), ?_, ?_, ?_⟩
    · omega
    · omega
    · have htwo : 2 * iterations ≤ threads * iterations := Nat.mul_le_mul_right iterations hthreads
      omega
  have hbound : m ≤ ∑ j, Function.update (Function.update (fun _ : Fin threads => iterations) a 0)
      b (iterations - 1) j := by
    have houter := sum_update (Function.update (fun _ : Fin threads => iterations) a 0) b
      (iterations - 1)
    have hinner := sum_update (fun _ : Fin threads => iterations) a 0
    have hall : ∑ _j : Fin threads, iterations = threads * iterations := by
      rw [Finset.sum_const_nat fun _ _ => rfl, Finset.card_univ, Fintype.card_fin]
    rw [Function.update_of_ne hab.symm] at houter
    omega
  obtain ⟨r, hr, hsum⟩ := exists_part hbound
  have hra : r a = 0 := by
    have hzero := hr a
    rw [Function.update_of_ne hab, Function.update_self] at hzero
    exact Nat.le_zero.mp hzero
  have hrb : r b < iterations := by
    have hlt := hr b
    rw [Function.update_self] at hlt
    omega
  have hrmax : ∀ j, r j ≤ iterations := by
    intro j
    have hj := hr j
    by_cases hjb : j = b
    · rw [hjb]
      exact hrb.le
    · rw [Function.update_of_ne hjb] at hj
      by_cases hja : j = a
      · rw [hja, hra]
        exact Nat.zero_le _
      · rw [Function.update_of_ne hja] at hj
        exact hj
  have hruns := leads_lost_twice hab hra hrb hrmax hx
  have hcounter : 2 + (threads * iterations - (∑ j, r j + x + 2)) = v := by omega
  rw [hcounter] at hruns
  exact leads_running.trans (hruns.trans leads_done)

/-- With two threads or more, and two iterations or more, `main` can print exactly the `int`s
that the numbers from `2` to that of all iterations wrap to; where the number of all iterations
fits in an `int`, these are the values from `2` to it. -/
theorem printed_iff (hthreads : 2 ≤ threads) (hiterations : 2 ≤ iterations) :
    (∀ value, (∃ (acts : List (Act threads)) (s : State threads), Run iterations start acts s ∧
        s.main = .done ∧ s.counter = value) ↔
      ∃ k, 2 ≤ k ∧ k ≤ threads * iterations ∧ value = .ofNat k) ∧
    (threads * iterations < 2 ^ 31 → ∀ v : ℤ,
      (∃ (acts : List (Act threads)) (s : State threads), Run iterations start acts s ∧
        s.main = .done ∧ s.counter.toInt = v) ↔ 2 ≤ v ∧ v ≤ threads * iterations) := by
  have hruns : ∀ k, 2 ≤ k → k ≤ threads * iterations → ∃ (acts : List (Act threads))
      (s : State threads), Run iterations start acts s ∧ s.main = .done ∧
        s.counter = .ofNat k := by
    intro k hk hle
    obtain ⟨acts, hrun⟩ := leads_counter hthreads hiterations hk hle
    exact ⟨acts, _, hrun, rfl, rfl⟩
  refine ⟨fun value => ⟨?_, ?_⟩, fun hrange v => ⟨?_, ?_⟩⟩
  · rintro ⟨acts, s, hrun, hdone, rfl⟩
    exact bounds (by omega) hiterations hrun hdone
  · rintro ⟨k, hk, hle, rfl⟩
    exact hruns k hk hle
  · rintro ⟨acts, s, hrun, hdone, rfl⟩
    obtain ⟨k, hk, hle, hcounter⟩ := bounds (by omega) hiterations hrun hdone
    rw [hcounter, Int32.toInt_ofNat_of_lt (hle.trans_lt hrange)]
    exact ⟨Int.ofNat_le.mpr hk, Int.ofNat_le.mpr hle⟩
  · rintro ⟨hv, hle⟩
    obtain ⟨k, rfl⟩ := Int.eq_ofNat_of_zero_le (by omega : 0 ≤ v)
    have hlek : k ≤ threads * iterations := Int.ofNat_le.mp hle
    obtain ⟨acts, s, hrun, hdone, hcounter⟩ := hruns k (Int.ofNat_le.mp hv) hlek
    refine ⟨acts, s, hrun, hdone, ?_⟩
    rw [hcounter, Int32.toInt_ofNat_of_lt (hlek.trans_lt hrange)]

/-- The program as it is can print `2`. -/
theorem printed_iff_two : ∃ (acts : List (Act 3)) (s : State 3), Run 100000 start acts s ∧
    s.main = .done ∧ s.counter.toInt = 2 :=
  ((printed_iff (by decide) (by decide)).2 (by decide) 2).mpr ⟨le_rfl, by decide⟩

end Runs

end ThreadTest
