import Mathlib.Logic.Function.Basic
import OsAssignments.Library.EventRun

/-!
# Store buffers

A program is given by the next access of each party. It runs on two memories. On the
sequentially consistent one a store reaches the memory at once. On the buffered one each
party has a buffer of its own: a store is appended to it and reaches the memory when it is
drained, in any order among different addresses; a load sees the pending stores of its own
party, and a fence waits until its buffer is empty.

The events of a run are the stores, in the order in which they reach the memory.
`buffered_of_sequential` says that the sequential runs are the buffered runs that drain
every store at once. `isSuffix_of_head` is the shape of a buffer whose stores are drained
in program order.
-/

namespace StoreBuffer

open EventRun

variable {ι A V κ : Type*}

/-- The next access of a party, and the states of the party after it. -/
inductive Access (A V κ : Type*)
  | store (a : A) (v : V) (next : κ)
  | load (a : A) (next : V → κ)
  | fence (next : κ)
  | stop

/-- The memory and the state of each party. -/
structure Config (ι A V κ : Type*) where
  mem : A → V
  party : ι → κ

/-- The pending stores of each party besides, the oldest first. -/
structure Machine (ι A V κ : Type*) extends Config ι A V κ where
  buffer : ι → List (A × V)

abbrev Stored (ι A V : Type*) := ι × A × V

section Sequential

variable [DecidableEq ι] [DecidableEq A]

/-- Party `i` makes its next access to the memory. -/
def sequential (code : ι → κ → Access A V κ) (s : Config ι A V κ) (i : ι) :
    Option (Config ι A V κ × List (Stored ι A V)) :=
  match code i (s.party i) with
  | .store a v next =>
      some (⟨Function.update s.mem a v, Function.update s.party i next⟩, [(i, a, v)])
  | .load a next => some ({ s with party := Function.update s.party i (next (s.mem a)) }, [])
  | .fence next => some ({ s with party := Function.update s.party i next }, [])
  | .stop => none

end Sequential

section Buffered

/-- What happens next: an access of a party, or the arrival of one of its pending stores. -/
inductive Action (ι : Type*)
  | run (i : ι)
  | drain (i : ι) (k : ℕ)

namespace Machine

variable {s : Machine ι A V κ} {i j : ι} {a b : A} {v : V} {l : κ} {k : ℕ}

/-- What party `i` sees at `a`: its last pending store to `a`, or the memory. -/
def read [DecidableEq A] (s : Machine ι A V κ) (i : ι) (a : A) : V :=
  (s.buffer i).foldl (fun v e => if e.1 = a then e.2 else v) (s.mem a)

theorem read_eq_mem [DecidableEq A] (h : ∀ e ∈ s.buffer i, e.1 ≠ a) : s.read i a = s.mem a := by
  have hfold : ∀ (l : List (A × V)) (w : V), (∀ e ∈ l, e.1 ≠ a) →
      l.foldl (fun v e => if e.1 = a then e.2 else v) w = w := by
    intro l
    induction l with
    | nil => exact fun w _ => rfl
    | cons e l ih =>
        intro w hl
        rw [List.foldl_cons, if_neg (hl e List.mem_cons_self)]
        exact ih w fun e he => hl e (List.mem_cons_of_mem _ he)
  exact hfold _ _ h

variable [DecidableEq ι]

/-- Party `i` goes on in the state `l`. -/
def goto (s : Machine ι A V κ) (i : ι) (l : κ) : Machine ι A V κ :=
  { s with party := Function.update s.party i l }

/-- A store of party `i` joins its buffer. -/
def push (s : Machine ι A V κ) (i : ι) (a : A) (v : V) : Machine ι A V κ :=
  { s with buffer := Function.update s.buffer i (s.buffer i ++ [(a, v)]) }

@[simp] theorem goto_mem : (s.goto i l).mem = s.mem := rfl

@[simp] theorem goto_buffer : (s.goto i l).buffer = s.buffer := rfl

@[simp] theorem goto_party_self : (s.goto i l).party i = l := by
  simp [goto]

theorem goto_party_of_ne (h : j ≠ i) : (s.goto i l).party j = s.party j := by
  simp [goto, h]

@[simp] theorem push_mem : (s.push i a v).mem = s.mem := rfl

@[simp] theorem push_party : (s.push i a v).party = s.party := rfl

@[simp] theorem push_buffer_self : (s.push i a v).buffer i = s.buffer i ++ [(a, v)] := by
  simp [push]

theorem push_buffer_of_ne (h : j ≠ i) : (s.push i a v).buffer j = s.buffer j := by
  simp [push, h]

variable [DecidableEq A]

/-- The pending store `k` of party `i` reaches the memory. -/
def commit (s : Machine ι A V κ) (i : ι) (k : ℕ) (a : A) (v : V) : Machine ι A V κ :=
  { s with
    mem := Function.update s.mem a v
    buffer := Function.update s.buffer i ((s.buffer i).eraseIdx k) }

@[simp] theorem commit_party : (s.commit i k a v).party = s.party := rfl

@[simp] theorem commit_mem_self : (s.commit i k a v).mem a = v := by
  simp [commit]

theorem commit_mem_of_ne (h : b ≠ a) : (s.commit i k a v).mem b = s.mem b := by
  simp [commit, h]

@[simp] theorem commit_buffer_self :
    (s.commit i k a v).buffer i = (s.buffer i).eraseIdx k := by
  simp [commit]

theorem commit_buffer_of_ne (h : j ≠ i) : (s.commit i k a v).buffer j = s.buffer j := by
  simp [commit, h]

@[simp] theorem read_goto : (s.goto i l).read j a = s.read j a := rfl

theorem read_push_self : (s.push i a v).read i a = v := by
  simp [read]

theorem read_push_of_ne (h : b ≠ a) : (s.push i a v).read i b = s.read i b := by
  simp [read, h.symm]

theorem read_push_other (h : j ≠ i) : (s.push i a v).read j b = s.read j b := by
  rw [read, read, push_buffer_of_ne h, push_mem]

/-- The arrival of its oldest pending store changes nothing in what a party sees. -/
theorem read_commit_head {rest : List (A × V)} (h : s.buffer i = (a, v) :: rest) :
    (s.commit i 0 a v).read i b = s.read i b := by
  rw [read, read, commit_buffer_self, h, List.eraseIdx_cons_zero, List.foldl_cons]
  by_cases hb : b = a
  · rw [hb, commit_mem_self, if_pos rfl]
  · rw [commit_mem_of_ne hb, if_neg (Ne.symm hb)]

/-- A store to another address that arrives changes nothing in what the others see. -/
theorem read_commit_other (hj : j ≠ i) (hb : b ≠ a) :
    (s.commit i k a v).read j b = s.read j b := by
  rw [read, read, commit_buffer_of_ne hj, commit_mem_of_ne hb]

end Machine

variable [DecidableEq ι] [DecidableEq A]

/-- An access of a party, or the arrival of a pending store that has no earlier one to the
same address before it. -/
def buffered (code : ι → κ → Access A V κ) (s : Machine ι A V κ) :
    Action ι → Option (Machine ι A V κ × List (Stored ι A V))
  | .run i =>
      match code i (s.party i) with
      | .store a v next => some ((s.push i a v).goto i next, [])
      | .load a next => some (s.goto i (next (s.read i a)), [])
      | .fence next => if (s.buffer i).isEmpty then some (s.goto i next, []) else none
      | .stop => none
  | .drain i k =>
      match (s.buffer i)[k]? with
      | some (a, v) =>
          if ((s.buffer i).take k).any fun e => e.1 = a then none
          else some (s.commit i k a v, [(i, a, v)])
      | none => none

/-- No store is drained while one that `order` puts before it is pending before it. -/
def Keeps (order : A → A → Prop) (_ : List (Stored ι A V)) (s : Machine ι A V κ) :
    Action ι → Prop
  | .run _ => True
  | .drain i k => ∀ x ∈ (s.buffer i)[k]?, ∀ e ∈ (s.buffer i).take k, ¬ order e.1 x.1

instance (order : A → A → Prop) [DecidableRel order] (trace : List (Stored ι A V))
    (s : Machine ι A V κ) (action : Action ι) : Decidable (Keeps order trace s action) :=
  match action with
  | .run _ => inferInstanceAs (Decidable True)
  | .drain i k => inferInstanceAs
      (Decidable (∀ x ∈ (s.buffer i)[k]?, ∀ e ∈ (s.buffer i).take k, ¬ order e.1 x.1))

omit [DecidableEq ι] [DecidableEq A] in
theorem keeps_run (order : A → A → Prop) (trace : List (Stored ι A V)) (s : Machine ι A V κ)
    (i : ι) : Keeps order trace s (.run i) := trivial

/-- What a step does, by its kind. -/
inductive Stepped (code : ι → κ → Access A V κ) (s : Machine ι A V κ) :
    Action ι → Machine ι A V κ → Prop
  | store {i : ι} {a : A} {v : V} {next : κ} : code i (s.party i) = .store a v next →
      Stepped code s (.run i) ((s.push i a v).goto i next)
  | load {i : ι} {a : A} {next : V → κ} : code i (s.party i) = .load a next →
      Stepped code s (.run i) (s.goto i (next (s.read i a)))
  | fence {i : ι} {next : κ} : code i (s.party i) = .fence next → s.buffer i = [] →
      Stepped code s (.run i) (s.goto i next)
  | drain {i : ι} {k : ℕ} {a : A} {v : V} : (s.buffer i)[k]? = some (a, v) →
      (∀ e ∈ (s.buffer i).take k, e.1 ≠ a) → Stepped code s (.drain i k) (s.commit i k a v)

variable {code : ι → κ → Access A V κ} {s s' : Machine ι A V κ} {action : Action ι}
  {events : List (Stored ι A V)} {i j : ι} {a b : A} {v : V} {l : κ} {k : ℕ}

theorem stepped_of_buffered (h : buffered code s action = some (s', events)) :
    Stepped code s action s' := by
  cases action with
  | run i =>
      unfold buffered at h
      cases hcode : code i (s.party i) with
      | store a v next =>
          simp only [hcode] at h
          cases h
          exact .store hcode
      | load a next =>
          simp only [hcode] at h
          cases h
          exact .load hcode
      | fence next =>
          simp only [hcode] at h
          split at h
          · rename_i hempty
            cases h
            exact .fence hcode (List.isEmpty_iff.mp hempty)
          · cases h
      | stop =>
          simp only [hcode] at h
          cases h
  | drain i k =>
      unfold buffered at h
      cases hk : (s.buffer i)[k]? with
      | none =>
          simp only [hk] at h
          cases h
      | some x =>
          obtain ⟨a, v⟩ := x
          simp only [hk] at h
          split at h
          · cases h
          · rename_i hfirst
            cases h
            refine .drain hk fun e he ha => hfirst ?_
            exact List.any_eq_true.mpr ⟨e, he, decide_eq_true ha⟩

/-! ## Buffers in program order -/

/-- Where the stores of a party that may be pending are `queue`, in program order, and its
oldest store arrives first, its buffer is the end of `queue`. -/
theorem Stepped.isSuffix {queue : ι → κ → List (A × V)}
    (hstore : ∀ i l a v next, code i l = .store a v next →
      queue i next = queue i l ++ [(a, v)])
    (hload : ∀ i l a next v, code i l = .load a next → queue i (next v) = queue i l)
    (hs : Stepped code s action s') (hhead : ∀ i k, action = .drain i k → k = 0)
    (h : ∀ i, s.buffer i <:+ queue i (s.party i)) :
    ∀ i, s'.buffer i <:+ queue i (s'.party i) := by
  intro j
  have hj := h j
  cases hs with
  | @store i a v next hcode =>
      by_cases hji : j = i
      · subst hji
        rw [Machine.goto_party_self, hstore _ _ _ _ _ hcode, Machine.goto_buffer,
          Machine.push_buffer_self]
        obtain ⟨before, hbefore⟩ := hj
        exact ⟨before, by rw [← hbefore, List.append_assoc]⟩
      · rw [Machine.goto_party_of_ne hji, Machine.goto_buffer, Machine.push_buffer_of_ne hji]
        exact hj
  | @load i a next hcode =>
      by_cases hji : j = i
      · subst hji
        rw [Machine.goto_party_self, hload _ _ _ _ _ hcode]
        exact hj
      · rw [Machine.goto_party_of_ne hji]
        exact hj
  | @fence i next hcode hempty =>
      by_cases hji : j = i
      · subst hji
        rw [Machine.goto_party_self, Machine.goto_buffer, hempty]
        exact List.nil_suffix
      · rw [Machine.goto_party_of_ne hji]
        exact hj
  | @drain i k a v hk hfirst =>
      rw [hhead i k rfl]
      by_cases hji : j = i
      · subst hji
        rw [Machine.commit_buffer_self, List.eraseIdx_zero]
        exact (List.tail_suffix _).trans hj
      · rw [Machine.commit_buffer_of_ne hji]
        exact hj

/-- When any two pending stores of a party are to one address or in order, only the oldest
can be drained. -/
theorem Stepped.drains_head {order : A → A → Prop} {trace : List (Stored ι A V)}
    (hs : Stepped code s (.drain i k) s') (hkeeps : Keeps order trace s (.drain i k))
    (hpairs : (s.buffer i).Pairwise fun e x => e.1 = x.1 ∨ order e.1 x.1) : k = 0 := by
  cases hs with
  | @drain _ _ a v hk hfirst =>
      cases hbuffer : s.buffer i with
      | nil => simp [hbuffer] at hk
      | cons e rest =>
          cases k with
          | zero => rfl
          | succ k =>
              rw [hbuffer, List.getElem?_cons_succ] at hk
              have hmem : (a, v) ∈ rest := List.mem_of_getElem? hk
              have he : e ∈ (s.buffer i).take (k + 1) := by simp [hbuffer]
              rw [hbuffer, List.pairwise_cons] at hpairs
              rcases hpairs.1 (a, v) hmem with hsame | horder
              · exact absurd hsame (hfirst e he)
              · refine absurd horder (hkeeps (a, v) ?_ e he)
                rw [hbuffer, List.getElem?_cons_succ]
                exact hk

end Buffered

/-! ## The two memories -/

section Sequential

variable [DecidableEq ι] [DecidableEq A] {code : ι → κ → Access A V κ}
  {ok : List (Stored ι A V) → Config ι A V κ → ι → Prop} {order : A → A → Prop}
  {s s' s₀ : Config ι A V κ} {i : ι} {trace events : List (Stored ι A V)}

def Config.drained (s : Config ι A V κ) : Machine ι A V κ :=
  { s with buffer := fun _ => [] }

theorem sequential_cases (h : sequential code s i = some (s', events)) :
    (∃ a v next, code i (s.party i) = .store a v next ∧ events = [(i, a, v)] ∧
      s' = ⟨Function.update s.mem a v, Function.update s.party i next⟩) ∨
    (∃ a next, code i (s.party i) = .load a next ∧ events = [] ∧
      s' = { s with party := Function.update s.party i (next (s.mem a)) }) ∨
    ∃ next, code i (s.party i) = .fence next ∧ events = [] ∧
      s' = { s with party := Function.update s.party i next } := by
  unfold sequential at h
  cases hcode : code i (s.party i) with
  | store a v next =>
      simp only [hcode] at h
      cases h
      exact Or.inl ⟨a, v, next, rfl, rfl, rfl⟩
  | load a next =>
      simp only [hcode] at h
      cases h
      exact Or.inr (Or.inl ⟨a, next, rfl, rfl, rfl⟩)
  | fence next =>
      simp only [hcode] at h
      cases h
      exact Or.inr (Or.inr ⟨next, rfl, rfl, rfl⟩)
  | stop =>
      simp only [hcode] at h
      cases h

theorem buffered_of_sequential (h : Run (sequential code) ok s₀ trace s) :
    Run (buffered code) (Keeps order) s₀.drained trace s.drained := by
  induction h with
  | start => exact .start
  | @next trace events s s' i _ _ hs ih =>
      rcases sequential_cases hs with ⟨a, v, next, hcode, rfl, rfl⟩ | ⟨a, next, hcode, rfl, rfl⟩ |
        ⟨next, hcode, rfl, rfl⟩
      · have hpush : buffered code s.drained (.run i) =
            some ((s.drained.push i a v).goto i next, []) := by
          rw [buffered]
          simp only [Config.drained, hcode]
        have hcommit : buffered code ((s.drained.push i a v).goto i next) (.drain i 0) =
            some ((⟨Function.update s.mem a v, Function.update s.party i next⟩ :
              Config ι A V κ).drained, [(i, a, v)]) := by
          simp [buffered, Machine.push, Machine.goto, Machine.commit, Config.drained]
        have hrun := ih.next (keeps_run order trace _ i) hpush
        rw [List.append_nil] at hrun
        refine hrun.next (a := .drain i 0) ?_ hcommit
        intro x _ e he
        simp at he
      · refine ih.next (keeps_run order trace _ i) ?_
        rw [buffered]
        simp only [Config.drained, hcode]
        rfl
      · refine ih.next (keeps_run order trace _ i) ?_
        rw [buffered]
        simp only [Config.drained, hcode]
        rfl

end Sequential

end StoreBuffer
