import Mathlib.Data.List.Range
import Mathlib.Data.Nat.ModEq
import OsAssignments.Library.Interleaving

/-!
# The bounded buffer

The producer and the consumer of `prodcons.c` (Assignment 4) and `synctest.c`
(Assignment 7), which make the same accesses in the same order, with a buffer of any
size and any number of items. The semaphores are atomic counting semaphores, and
every access to the buffer, to `in` and to `out` is a step of its own.

What the two print is kept in the shared state: the items stored so far, each with its
slot, and the items consumed so far. `Inv` counts for each party how often it has
passed each point of its loop; the two semaphores bound one count by another, and the
ring indices are counts modulo the size.
-/

namespace BoundedBuffer

open Interleaving

/-! ## prodcons.c and synctest.c -/

inductive Party
  | producer
  | consumer
  deriving DecidableEq

/-- The next step of a party in its loop. The producer waits for an empty slot, stores,
advances `in` and signals a full slot; the consumer waits for a full slot, loads, advances
`out` and signals an empty slot. -/
inductive Pc
  | downSlot
  | downMutex
  | access
  | advance
  | upMutex
  | upSlot
  | finished
  deriving DecidableEq

/-- A party: its next step, and its loop counter, counted from 0. -/
structure Local where
  pc : Pc
  iter : ℕ
  deriving DecidableEq

/-- The shared memory, the semaphores, and what has been printed. -/
structure Shared (α : Type) where
  buf : ℕ → α
  inIndex : ℕ
  outIndex : ℕ
  mutex : ℕ
  empty : ℕ
  full : ℕ
  stored : List (ℕ × α)
  consumed : List α

/-- The test of the loop before iteration `iter` of `n`. -/
def loop (n iter : ℕ) : Local := ⟨if iter < n then .downSlot else .finished, iter⟩

section Code

variable {α : Type} (size n : ℕ) (item : ℕ → α)

/-- The next step of the producer, which produces the items `item 0`, `item 1` and so on. -/
def produce (s : Shared α) (l : Local) : Option (Shared α × Local) :=
  match l.pc with
  | .downSlot => (down s.empty).map fun v => ({ s with empty := v }, { l with pc := .downMutex })
  | .downMutex => (down s.mutex).map fun v => ({ s with mutex := v }, { l with pc := .access })
  | .access =>
      some ({ s with
        buf := Function.update s.buf s.inIndex (item l.iter)
        stored := s.stored ++ [(s.inIndex, item l.iter)] }, { l with pc := .advance })
  | .advance => some ({ s with inIndex := (s.inIndex + 1) % size }, { l with pc := .upMutex })
  | .upMutex => some ({ s with mutex := s.mutex + 1 }, { l with pc := .upSlot })
  | .upSlot => some ({ s with full := s.full + 1 }, loop n (l.iter + 1))
  | .finished => none

def consume (s : Shared α) (l : Local) : Option (Shared α × Local) :=
  match l.pc with
  | .downSlot => (down s.full).map fun v => ({ s with full := v }, { l with pc := .downMutex })
  | .downMutex => (down s.mutex).map fun v => ({ s with mutex := v }, { l with pc := .access })
  | .access =>
      some ({ s with consumed := s.consumed ++ [s.buf s.outIndex] }, { l with pc := .advance })
  | .advance => some ({ s with outIndex := (s.outIndex + 1) % size }, { l with pc := .upMutex })
  | .upMutex => some ({ s with mutex := s.mutex + 1 }, { l with pc := .upSlot })
  | .upSlot => some ({ s with empty := s.empty + 1 }, loop n (l.iter + 1))
  | .finished => none

/-- The next step of a party; both make `n` iterations. -/
def step : Party → Shared α → Local → Option (Shared α × Local)
  | .producer => produce size n item
  | .consumer => consume size n

abbrev System (α : Type) := State Party (Shared α) Local

/-- Both parties begin, with the semaphores initialised; `buf` is what is in memory. -/
def start (buf : ℕ → α) : System α where
  shared := ⟨buf, 0, 0, 1, size, 0, [], []⟩
  party := fun _ => loop n 0

end Code

namespace System

variable {α : Type}

def produced (s : System α) : List α := s.shared.stored.map Prod.snd

/-- The items that have been stored and not yet consumed, with their slots. -/
def unconsumed (s : System α) : List (ℕ × α) := s.shared.stored.drop s.shared.consumed.length

end System

/-! ## What a party has passed -/

namespace Pc

/-- Whether the party has done its `down` on the slots in this iteration, as a number. -/
def claimed : Pc → ℕ
  | downMutex => 1
  | access => 1
  | advance => 1
  | upMutex => 1
  | upSlot => 1
  | _ => 0

/-- Whether it has made its access to the buffer in this iteration. -/
def accessed : Pc → ℕ
  | advance => 1
  | upMutex => 1
  | upSlot => 1
  | _ => 0

def advanced : Pc → ℕ
  | upMutex => 1
  | upSlot => 1
  | _ => 0

def holdsMutex : Pc → ℕ
  | access => 1
  | advance => 1
  | upMutex => 1
  | _ => 0

end Pc

namespace Local

/-- How often the party has done its `down` on the slots. -/
def claims (l : Local) : ℕ := l.iter + l.pc.claimed

def accesses (l : Local) : ℕ := l.iter + l.pc.accessed

def advances (l : Local) : ℕ := l.iter + l.pc.advanced

/-- The party is in one of its `n` iterations, or has done them all. -/
def Placed (n : ℕ) (l : Local) : Prop :=
  l.pc ≠ .finished ∧ l.iter < n ∨ l.pc = .finished ∧ l.iter = n

theorem accesses_le (l : Local) : l.accesses ≤ l.claims := by
  obtain ⟨pc, iter⟩ := l
  cases pc with
  | downMutex => exact Nat.le_succ iter
  | access => exact Nat.le_succ iter
  | _ => exact Nat.le_refl _

theorem iter_le (l : Local) : l.iter ≤ l.accesses := Nat.le_add_right _ _

end Local

section Loop

variable {n iter : ℕ}

theorem loop_of {P : Local → Prop} (hnext : iter < n → P ⟨.downSlot, iter⟩)
    (hfinished : n ≤ iter → P ⟨.finished, iter⟩) : P (loop n iter) := by
  unfold loop
  by_cases h : iter < n
  · rw [if_pos h]
    exact hnext h
  · rw [if_neg h]
    exact hfinished (Nat.not_lt.mp h)

@[simp] theorem loop_iter : (loop n iter).iter = iter := rfl

@[simp] theorem loop_claims : (loop n iter).claims = iter :=
  loop_of (P := fun l => l.claims = iter) (fun _ => rfl) fun _ => rfl

@[simp] theorem loop_accesses : (loop n iter).accesses = iter :=
  loop_of (P := fun l => l.accesses = iter) (fun _ => rfl) fun _ => rfl

@[simp] theorem loop_advances : (loop n iter).advances = iter :=
  loop_of (P := fun l => l.advances = iter) (fun _ => rfl) fun _ => rfl

@[simp] theorem loop_holdsMutex : (loop n iter).pc.holdsMutex = 0 :=
  loop_of (P := fun l => l.pc.holdsMutex = 0) (fun _ => rfl) fun _ => rfl

theorem loop_placed (h : iter ≤ n) : (loop n iter).Placed n := by
  apply loop_of (P := Local.Placed n)
  · exact fun hlt => Or.inl ⟨nofun, hlt⟩
  · exact fun hle => Or.inr ⟨rfl, Nat.le_antisymm h hle⟩

end Loop

/-! ## The invariant -/

section Invariant

variable {α : Type} {size n : ℕ} {item : ℕ → α} {x x' : Shared α} {p p' c c' : Local}

/-- The producer `p` and the consumer `c` against the shared state: a slot is claimed
only after the consumer has given it back, an item only after the producer has signalled
it; the items that have been stored and not consumed are in their slots. -/
structure Inv (size n : ℕ) (item : ℕ → α) (x : Shared α) (p c : Local) : Prop where
  empty : x.empty + p.claims = size + c.iter
  full : x.full + c.claims = p.iter
  mutex : x.mutex + p.pc.holdsMutex + c.pc.holdsMutex = 1
  inIndex : x.inIndex = p.advances % size
  outIndex : x.outIndex = c.advances % size
  stored : x.stored = (List.range p.accesses).map fun k => (k % size, item k)
  consumed : x.consumed = (List.range c.accesses).map item
  contents : ∀ k, c.accesses ≤ k → k < p.accesses → x.buf (k % size) = item k
  producer : p.Placed n
  consumer : c.Placed n

theorem Local.Placed.lt {l : Local} (h : l.Placed n) (hpc : l.pc ≠ .finished) : l.iter < n := by
  rcases h with ⟨_, hlt⟩ | ⟨hfinished, _⟩
  · exact hlt
  · exact absurd hfinished hpc

theorem Local.Placed.within {pc pc' : Pc} {iter : ℕ} (h : (⟨pc, iter⟩ : Local).Placed n)
    (hpc : pc ≠ .finished) (hpc' : pc' ≠ .finished) : (⟨pc', iter⟩ : Local).Placed n :=
  Or.inl ⟨hpc', h.lt hpc⟩

theorem mod_ne_of_lt {a b : ℕ} (hab : a < b) (hb : b < a + size) : a % size ≠ b % size := by
  intro h
  have hdvd : size ∣ b - a := (Nat.modEq_iff_dvd' (Nat.le_of_lt hab)).mp h
  have hle := Nat.le_of_dvd (Nat.sub_pos_of_lt hab) hdvd
  omega

theorem contents_store {buf : ℕ → α} {a b : ℕ} (hb : b < a + size)
    (h : ∀ k, a ≤ k → k < b → buf (k % size) = item k) :
    ∀ k, a ≤ k → k < b + 1 → Function.update buf (b % size) (item b) (k % size) = item k := by
  intro k hak hkb
  by_cases hk : k = b
  · rw [hk, Function.update_self]
  · have hlt : k < b := Nat.lt_of_le_of_ne (Nat.le_of_lt_succ hkb) hk
    rw [Function.update_of_ne (mod_ne_of_lt hlt (by omega))]
    exact h k hak hlt

theorem Inv.produce (h : Inv size n item x p c)
    (hs : BoundedBuffer.produce size n item x p = some (x', p')) : Inv size n item x' p' c := by
  obtain ⟨pc, iter⟩ := p
  have hempty := h.empty
  have hfull := h.full
  have hmutex := h.mutex
  cases pc with
  | downSlot =>
      obtain ⟨v, hv, heq⟩ := Option.map_eq_some_iff.mp hs
      cases heq
      rw [down_eq_some] at hv
      simp only [Local.claims, Pc.claimed] at hempty
      exact { h with
        empty := by simp only [Local.claims, Pc.claimed]; omega
        producer := h.producer.within nofun nofun }
  | downMutex =>
      obtain ⟨v, hv, heq⟩ := Option.map_eq_some_iff.mp hs
      cases heq
      rw [down_eq_some] at hv
      simp only [Pc.holdsMutex] at hmutex
      exact { h with
        mutex := by simp only [Pc.holdsMutex]; omega
        producer := h.producer.within nofun nofun }
  | access =>
      cases hs
      have hin : x.inIndex = iter % size := h.inIndex
      have hle := c.iter_le
      simp only [Local.claims, Pc.claimed] at hempty
      exact { h with
        stored := by
          rw [h.stored, hin]
          simp [Local.accesses, Pc.accessed, List.range_succ]
        contents := by
          rw [hin]
          exact contents_store (a := c.accesses) (b := iter) (by omega) h.contents
        producer := h.producer.within nofun nofun }
  | advance =>
      cases hs
      have hin : x.inIndex = iter % size := h.inIndex
      exact { h with
        inIndex := by rw [hin, Nat.mod_add_mod]; rfl
        producer := h.producer.within nofun nofun }
  | upMutex =>
      cases hs
      simp only [Pc.holdsMutex] at hmutex
      exact { h with
        mutex := by simp only [Pc.holdsMutex]; omega
        producer := h.producer.within nofun nofun }
  | upSlot =>
      cases hs
      simp only [Local.claims, Pc.claimed] at hempty
      exact { h with
        empty := by rw [loop_claims]; exact hempty
        full := by rw [loop_iter, add_right_comm, hfull]
        mutex := by rw [loop_holdsMutex]; exact hmutex
        inIndex := by rw [loop_advances]; exact h.inIndex
        stored := by rw [loop_accesses]; exact h.stored
        contents := by rw [loop_accesses]; exact h.contents
        producer := loop_placed (h.producer.lt nofun) }
  | finished => cases hs

theorem Inv.consume (h : Inv size n item x p c)
    (hs : BoundedBuffer.consume size n x c = some (x', c')) : Inv size n item x' p c' := by
  obtain ⟨pc, iter⟩ := c
  have hempty := h.empty
  have hfull := h.full
  have hmutex := h.mutex
  cases pc with
  | downSlot =>
      obtain ⟨v, hv, heq⟩ := Option.map_eq_some_iff.mp hs
      cases heq
      rw [down_eq_some] at hv
      simp only [Local.claims, Pc.claimed] at hfull
      exact { h with
        full := by simp only [Local.claims, Pc.claimed]; omega
        consumer := h.consumer.within nofun nofun }
  | downMutex =>
      obtain ⟨v, hv, heq⟩ := Option.map_eq_some_iff.mp hs
      cases heq
      rw [down_eq_some] at hv
      simp only [Pc.holdsMutex] at hmutex
      exact { h with
        mutex := by simp only [Pc.holdsMutex]; omega
        consumer := h.consumer.within nofun nofun }
  | access =>
      cases hs
      have hout : x.outIndex = iter % size := h.outIndex
      have hle := p.iter_le
      simp only [Local.claims, Pc.claimed] at hfull
      have hitem : x.buf (iter % size) = item iter := h.contents iter le_rfl (by omega)
      exact { h with
        consumed := by
          rw [h.consumed, hout, hitem]
          simp [Local.accesses, Pc.accessed, List.range_succ]
        contents := fun k hk => h.contents k (Nat.le_of_succ_le hk)
        consumer := h.consumer.within nofun nofun }
  | advance =>
      cases hs
      have hout : x.outIndex = iter % size := h.outIndex
      exact { h with
        outIndex := by rw [hout, Nat.mod_add_mod]; rfl
        consumer := h.consumer.within nofun nofun }
  | upMutex =>
      cases hs
      simp only [Pc.holdsMutex] at hmutex
      exact { h with
        mutex := by simp only [Pc.holdsMutex]; omega
        consumer := h.consumer.within nofun nofun }
  | upSlot =>
      cases hs
      simp only [Local.claims, Pc.claimed] at hfull
      exact { h with
        empty := by rw [loop_iter, add_right_comm, hempty]; rfl
        full := by rw [loop_claims]; exact hfull
        mutex := by rw [loop_holdsMutex]; exact hmutex
        outIndex := by rw [loop_advances]; exact h.outIndex
        consumed := by rw [loop_accesses]; exact h.consumed
        contents := by rw [loop_accesses]; exact h.contents
        consumer := loop_placed (h.consumer.lt nofun) }
  | finished => cases hs

/-! ## Runs -/

variable {buf : ℕ → α} {s : System α}

abbrev Run (size n : ℕ) (item : ℕ → α) (buf : ℕ → α) : System α → Prop :=
  Runs (step size n item) Anyone (start size n buf)

theorem start_inv (size n : ℕ) (item buf : ℕ → α) :
    Inv size n item ⟨buf, 0, 0, 1, size, 0, [], []⟩ (loop n 0) (loop n 0) where
  empty := by simp
  full := by simp
  mutex := by simp
  inIndex := by simp
  outIndex := by simp
  stored := by simp
  consumed := by simp
  contents := by simp
  producer := loop_placed (Nat.zero_le n)
  consumer := loop_placed (Nat.zero_le n)

theorem inv_of_run (h : Run size n item buf s) :
    Inv size n item s.shared (s.party .producer) (s.party .consumer) := by
  refine Runs.invariant
    (I := fun s => Inv size n item s.shared (s.party .producer) (s.party .consumer))
    (start_inv size n item buf) ?_ h
  intro s i x k hinv _ hs
  cases i with
  | producer => exact hinv.produce hs
  | consumer => exact hinv.consume hs

/-! ## The queue -/

theorem Inv.produced_eq (h : Inv size n item x p c) :
    x.stored.map Prod.snd = (List.range p.accesses).map item := by
  rw [h.stored, List.map_map]
  rfl

theorem Inv.accesses_le (h : Inv size n item x p c) : c.accesses ≤ p.accesses := by
  have hfull := h.full
  have hclaims := c.accesses_le
  have hiter := p.iter_le
  omega

theorem Inv.accesses_le_add (h : Inv size n item x p c) : p.accesses ≤ size + c.accesses := by
  have hempty := h.empty
  have hclaims := p.accesses_le
  have hiter := c.iter_le
  omega

theorem Inv.length_consumed (h : Inv size n item x p c) : x.consumed.length = c.accesses := by
  rw [h.consumed, List.length_map, List.length_range]

theorem Inv.consumed_prefix (h : Inv size n item x p c) :
    x.consumed <+: x.stored.map Prod.snd := by
  have htake : x.consumed = (x.stored.map Prod.snd).take c.accesses := by
    rw [h.consumed, h.produced_eq, ← List.map_take, List.take_range,
      Nat.min_eq_left h.accesses_le]
  rw [htake]
  exact List.take_prefix _ _

theorem Inv.length_unconsumed (h : Inv size n item x p c) :
    (x.stored.drop x.consumed.length).length ≤ size := by
  have hle := h.accesses_le_add
  rw [List.length_drop, h.length_consumed, h.stored, List.length_map, List.length_range]
  omega

theorem Inv.mem_unconsumed (h : Inv size n item x p c) {e : ℕ × α}
    (he : e ∈ x.stored.drop x.consumed.length) :
    ∃ k, c.accesses ≤ k ∧ k < p.accesses ∧ e = (k % size, item k) := by
  rw [h.length_consumed, h.stored, ← List.map_drop, List.mem_map] at he
  obtain ⟨k, hk, rfl⟩ := he
  rw [List.range_eq_range', List.drop_range', List.mem_range'_1] at hk
  have hle := h.accesses_le
  exact ⟨k, by omega, by omega, rfl⟩

theorem Inv.buf_eq (h : Inv size n item x p c) {e : ℕ × α}
    (he : e ∈ x.stored.drop x.consumed.length) : x.buf e.1 = e.2 := by
  obtain ⟨k, hk, hk', rfl⟩ := h.mem_unconsumed he
  exact h.contents k hk hk'

theorem Inv.slot_ne (h : Inv size n item x p c) (hp : p.pc = .access) {e : ℕ × α}
    (he : e ∈ x.stored.drop x.consumed.length) : e.1 ≠ x.inIndex := by
  obtain ⟨k, hk, hk', rfl⟩ := h.mem_unconsumed he
  obtain ⟨pc, iter⟩ := p
  cases hp
  rw [h.inIndex]
  have hempty := h.empty
  have hle := c.iter_le
  simp only [Local.claims, Pc.claimed] at hempty
  exact mod_ne_of_lt hk' (by simp only [Local.advances, Pc.advanced]; omega)

/-! ## Deadlock -/

/-- What keeps a party from moving, if `slots` is the semaphore that it waits for first. -/
def Blocked (slots mutex : ℕ) (l : Local) : Prop :=
  l.pc = .finished ∨ l.pc = .downSlot ∧ slots = 0 ∨ l.pc = .downMutex ∧ mutex = 0

theorem blocked_of_produce {l : Local} (hs : BoundedBuffer.produce size n item x l = none) :
    Blocked x.empty x.mutex l := by
  obtain ⟨pc, iter⟩ := l
  cases pc with
  | downSlot => exact Or.inr (Or.inl ⟨rfl, down_eq_none.mp (Option.map_eq_none_iff.mp hs)⟩)
  | downMutex => exact Or.inr (Or.inr ⟨rfl, down_eq_none.mp (Option.map_eq_none_iff.mp hs)⟩)
  | finished => exact Or.inl rfl
  | _ => cases hs

theorem blocked_of_consume {l : Local} (hs : BoundedBuffer.consume size n x l = none) :
    Blocked x.full x.mutex l := by
  obtain ⟨pc, iter⟩ := l
  cases pc with
  | downSlot => exact Or.inr (Or.inl ⟨rfl, down_eq_none.mp (Option.map_eq_none_iff.mp hs)⟩)
  | downMutex => exact Or.inr (Or.inr ⟨rfl, down_eq_none.mp (Option.map_eq_none_iff.mp hs)⟩)
  | finished => exact Or.inl rfl
  | _ => cases hs

theorem Blocked.holdsMutex {slots mutex : ℕ} {l : Local} (h : Blocked slots mutex l) :
    l.pc.holdsMutex = 0 := by
  rcases h with hpc | ⟨hpc, _⟩ | ⟨hpc, _⟩
  · rw [hpc]
    rfl
  · rw [hpc]
    rfl
  · rw [hpc]
    rfl

/-- While the mutex is free, a party that cannot move has done its `n` iterations, or
waits for a slot. -/
theorem Blocked.waits {slots mutex : ℕ} {l : Local} (h : Blocked slots mutex l)
    (hfree : mutex ≠ 0) (hl : l.Placed n) :
    l.pc = .finished ∧ l.iter = n ∨ slots = 0 ∧ l.iter < n ∧ l.claims = l.iter := by
  rcases h with hpc | ⟨hpc, hzero⟩ | ⟨_, hzero⟩
  · rcases hl with ⟨hne, _⟩ | ⟨_, hiter⟩
    · exact absurd hpc hne
    · exact Or.inl ⟨hpc, hiter⟩
  · refine Or.inr ⟨hzero, hl.lt (by rw [hpc]; exact nofun), ?_⟩
    rw [Local.claims, hpc]
    rfl
  · exact absurd hzero hfree

theorem Inv.finished (h : Inv size n item x p c) (hsize : 1 ≤ size)
    (hp : Blocked x.empty x.mutex p) (hc : Blocked x.full x.mutex c) :
    p.pc = .finished ∧ c.pc = .finished := by
  have hmutex := h.mutex
  have hempty := h.empty
  have hfull := h.full
  rw [hp.holdsMutex, hc.holdsMutex] at hmutex
  rcases hp.waits (by omega) h.producer with ⟨hpfin, hpn⟩ | ⟨hpzero, hplt, hpclaims⟩
  · rcases hc.waits (by omega) h.consumer with ⟨hcfin, _⟩ | ⟨hczero, hclt, hcclaims⟩
    · exact ⟨hpfin, hcfin⟩
    · -- all items have been signalled, and the consumer waits for one
      omega
  · rcases hc.waits (by omega) h.consumer with ⟨_, hcn⟩ | ⟨hczero, _, hcclaims⟩
    · omega
    · omega

theorem Inv.not_deadlocked (h : Inv size n item s.shared (s.party .producer) (s.party .consumer))
    (hsize : 1 ≤ size) :
    ¬ Deadlocked (step size n item) (fun l => l.pc = .finished) s := by
  rintro ⟨⟨i, hi⟩, hblocked⟩
  have hstill : ∀ j, step size n item j s.shared (s.party j) = none := by
    intro j
    by_cases hj : (s.party j).pc = .finished
    · cases j with
      | producer => rw [step, BoundedBuffer.produce, hj]
      | consumer => rw [step, BoundedBuffer.consume, hj]
    · exact hblocked j hj
  obtain ⟨hp, hc⟩ := h.finished hsize (blocked_of_produce (hstill .producer))
    (blocked_of_consume (hstill .consumer))
  cases i with
  | producer => exact hi hp
  | consumer => exact hi hc

/-- In every state of every run, for every size and any items: what has been consumed is a
prefix of what has been produced; the slot that the producer stores to holds no item that
is still to be consumed; there are at most `size` such items; and the parties are not
deadlocked. -/
theorem boundedBuffer (size n : ℕ) (hsize : 1 ≤ size) (item buf : ℕ → α) (s : System α)
    (hrun : Run size n item buf s) :
    s.shared.consumed <+: s.produced ∧
    ((s.party .producer).pc = .access → ∀ e ∈ s.unconsumed, e.1 ≠ s.shared.inIndex) ∧
    (∀ e ∈ s.unconsumed, s.shared.buf e.1 = e.2) ∧
    (s.shared.consumed.length ≤ s.produced.length ∧
      s.produced.length - s.shared.consumed.length ≤ size) ∧
    ¬ Deadlocked (step size n item) (fun l => l.pc = .finished) s := by
  have hinv := inv_of_run hrun
  refine ⟨hinv.consumed_prefix, ?_, ?_, ⟨hinv.consumed_prefix.length_le, ?_⟩,
    hinv.not_deadlocked hsize⟩
  · intro hp e he
    exact hinv.slot_ne hp he
  · intro e he
    exact hinv.buf_eq he
  · have hlength := hinv.length_unconsumed
    rw [List.length_drop] at hlength
    rw [System.produced, List.length_map]
    exact hlength

end Invariant

/-! ## One slot -/

/-- The producer stores an item, and the consumer loads it, while the producer waits for
the only slot. -/
def oneSlot : List Party :=
  List.replicate 6 .producer ++ List.replicate 3 .consumer

theorem exec_oneSlot : (exec (step 1 2 fun k => k + 1) Anyone (start 1 2 fun _ => 0)
    oneSlot).any (fun s => s.shared.consumed = [1] ∧ s.shared.empty = 0 ∧
      s.party .producer = ⟨.downSlot, 1⟩) = true := by
  decide +kernel

theorem boundedBuffer_oneSlot : ∃ s : System ℕ,
    Run 1 2 (fun k => k + 1) (fun _ => 0) s ∧ s.shared.consumed = [1] ∧
      s.shared.consumed <+: s.produced ∧
      ¬ Deadlocked (step 1 2 fun k => k + 1) (fun l => l.pc = .finished) s := by
  obtain ⟨s, hrun, hs⟩ := exists_run exec_oneSlot
  have hconsumed := (of_decide_eq_true hs).1
  obtain ⟨hbegins, _, _, _, hlive⟩ := boundedBuffer 1 2 le_rfl (fun k => k + 1) (fun _ => 0) s hrun
  exact ⟨s, hrun, hconsumed, hbegins, hlive⟩

end BoundedBuffer
