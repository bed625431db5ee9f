import Mathlib.Algebra.GroupWithZero.Nat
import Mathlib.Data.Nat.Init
import OsAssignments.Library.Interleaving
import OsAssignments.Library.MachineInt
import OsAssignments.Library.TableIndex

/-!
# Readers and writers

The protocol of `readwrite.c`, with any number of readers and writers and any number
of iterations each. `sem_down` and `sem_up` are atomic operations on counting
semaphores, and every access to the shared memory is a step of its own.

A reader is counted in `read_count` from its entry section to its exit section, under
`MUTEX`. `RW_LOCK` is held by a writer, or by the readers as a group: the first one in
takes it and the last one out gives it back. `Joint` relates the three semaphores and
the counter to the points of all processes.

Both variables are `int`s. `read_count` is compared with 0 and 1 only, so it serves as long
as there are fewer than `2 ^ 32` readers.
-/

open scoped BigOperators

namespace ReadersWriters

open Interleaving MachineInt

/-! ## readwrite.c -/

inductive Role
  | reader
  | writer
  deriving DecidableEq

/-- The next step of a process: of a reader, of a writer, or none after its last
iteration. -/
inductive Pc
  -- reader, entry section
  | downTurnstile
  | downMutex
  | loadCount
  | storeCount
  | testFirst
  | downRwLock
  | upMutex
  | upTurnstile
  -- reader, critical section
  | readData
  | readCount
  -- reader, exit section
  | exitDownMutex
  | exitLoadCount
  | exitStoreCount
  | testLast
  | upRwLock
  | exitUpMutex
  -- writer, entry section
  | writerDownTurnstile
  | writerDownRwLock
  -- writer, critical section
  | loadData
  | storeData
  | printData
  -- writer, exit section
  | writerUpRwLock
  | writerUpTurnstile
  | finished
  deriving DecidableEq

/-- A process: its next step, its loop counter `i`, and the value it has loaded. -/
structure Local where
  pc : Pc
  iter : ℕ
  loaded : Int32
  deriving DecidableEq

/-- `struct shared_memory` and the three semaphores. -/
structure Shared where
  sharedData : Int32
  readCount : Int32
  mutex : ℕ
  rwLock : ℕ
  turnstile : ℕ
  deriving DecidableEq

def Role.entry : Role → Pc
  | reader => .downTurnstile
  | writer => .writerDownTurnstile

/-- The test of the loop with `n` iterations, before iteration `iter`. -/
def Role.loop (r : Role) (n iter : ℕ) : Local := ⟨if iter < n then r.entry else .finished, iter, 0⟩

/-- The next step of a process that makes `n` iterations. -/
def step (n : ℕ) (s : Shared) (l : Local) : Option (Shared × Local) :=
  match l.pc with
  | .downTurnstile =>
      (down s.turnstile).map fun v => ({ s with turnstile := v }, { l with pc := .downMutex })
  | .downMutex =>
      (down s.mutex).map fun v => ({ s with mutex := v }, { l with pc := .loadCount })
  | .loadCount => some (s, { l with pc := .storeCount, loaded := s.readCount })
  | .storeCount => some ({ s with readCount := l.loaded + 1 }, { l with pc := .testFirst })
  | .testFirst => some (s, { l with pc := if s.readCount = 1 then .downRwLock else .upMutex })
  | .downRwLock =>
      (down s.rwLock).map fun v => ({ s with rwLock := v }, { l with pc := .upMutex })
  | .upMutex => some ({ s with mutex := s.mutex + 1 }, { l with pc := .upTurnstile })
  | .upTurnstile => some ({ s with turnstile := s.turnstile + 1 }, { l with pc := .readData })
  | .readData => some (s, { l with pc := .readCount, loaded := s.sharedData })
  | .readCount => some (s, { l with pc := .exitDownMutex, loaded := s.readCount })
  | .exitDownMutex =>
      (down s.mutex).map fun v => ({ s with mutex := v }, { l with pc := .exitLoadCount })
  | .exitLoadCount => some (s, { l with pc := .exitStoreCount, loaded := s.readCount })
  | .exitStoreCount => some ({ s with readCount := l.loaded - 1 }, { l with pc := .testLast })
  | .testLast => some (s, { l with pc := if s.readCount = 0 then .upRwLock else .exitUpMutex })
  | .upRwLock => some ({ s with rwLock := s.rwLock + 1 }, { l with pc := .exitUpMutex })
  | .exitUpMutex => some ({ s with mutex := s.mutex + 1 }, Role.reader.loop n (l.iter + 1))
  | .writerDownTurnstile =>
      (down s.turnstile).map fun v =>
        ({ s with turnstile := v }, { l with pc := .writerDownRwLock })
  | .writerDownRwLock =>
      (down s.rwLock).map fun v => ({ s with rwLock := v }, { l with pc := .loadData })
  | .loadData => some (s, { l with pc := .storeData, loaded := s.sharedData })
  | .storeData => some ({ s with sharedData := l.loaded + 1 }, { l with pc := .printData })
  | .printData => some (s, { l with pc := .writerUpRwLock, loaded := s.sharedData })
  | .writerUpRwLock => some ({ s with rwLock := s.rwLock + 1 }, { l with pc := .writerUpTurnstile })
  | .writerUpTurnstile =>
      some ({ s with turnstile := s.turnstile + 1 }, Role.writer.loop n (l.iter + 1))
  | .finished => none

abbrev System (ι : Type) := State ι Shared Local

/-- The processes are forked, with the semaphores initialised and the counters at 0. -/
def start {ι : Type} (role : ι → Role) (iters : ι → ℕ) : System ι where
  shared := ⟨0, 0, 1, 1, 1⟩
  party := fun i => (role i).loop (iters i) 0

/-! ## The protocol by numbers -/

/-- Where a process stands with respect to `MUTEX`, `read_count` and `RW_LOCK`. -/
inductive Place
  /-- No lock held, and not counted in `read_count`. -/
  | outside
  /-- `MUTEX` held: about to be counted, or done with the exit section. -/
  | uncounted
  /-- `MUTEX` held and counted: has to take `RW_LOCK` if it is the first. -/
  | first
  /-- `MUTEX` held and counted. -/
  | admitted
  /-- Counted, without `MUTEX`. -/
  | active
  /-- `MUTEX` held and no longer counted: has to give `RW_LOCK` back if it was the last. -/
  | last
  /-- A writer with `RW_LOCK`. -/
  | writing
  deriving DecidableEq

def Pc.place : Pc → Place
  | loadCount => .uncounted
  | storeCount => .uncounted
  | testFirst => .first
  | downRwLock => .first
  | upMutex => .admitted
  | upTurnstile => .active
  | readData => .active
  | readCount => .active
  | exitDownMutex => .active
  | exitLoadCount => .admitted
  | exitStoreCount => .admitted
  | testLast => .last
  | upRwLock => .last
  | exitUpMutex => .uncounted
  | loadData => .writing
  | storeData => .writing
  | printData => .writing
  | writerUpRwLock => .writing
  | _ => .outside

/-- How many processes are at each place, with the shared variables. -/
structure Tally where
  number : Place → ℕ
  mutex : ℕ
  rwLock : ℕ

/-- How many processes are to be counted in `read_count`. -/
def Tally.readCount (t : Tally) : ℕ := t.number .first + t.number .admitted + t.number .active

/-- One process goes from place `a` to place `b`. -/
def shift (f : Place → ℕ) (a b : Place) : Place → ℕ :=
  fun p => f p - (if p = a then 1 else 0) + if p = b then 1 else 0

namespace Tally

/-- The steps of the protocol, by whichever process stands at the right place. -/
inductive Step (t : Tally) : Tally → Prop
  | lock {m : ℕ} : 0 < t.number .outside → t.mutex = m + 1 →
      Step t ⟨shift t.number .outside .uncounted, m, t.rwLock⟩
  | count : 0 < t.number .uncounted →
      Step t ⟨shift t.number .uncounted .first, t.mutex, t.rwLock⟩
  | notFirst : 0 < t.number .first → t.readCount ≠ 1 →
      Step t ⟨shift t.number .first .admitted, t.mutex, t.rwLock⟩
  | takeRwLock {r : ℕ} : 0 < t.number .first → t.readCount = 1 → t.rwLock = r + 1 →
      Step t ⟨shift t.number .first .admitted, t.mutex, r⟩
  | unlock : 0 < t.number .admitted →
      Step t ⟨shift t.number .admitted .active, t.mutex + 1, t.rwLock⟩
  | lockAgain {m : ℕ} : 0 < t.number .active → t.mutex = m + 1 →
      Step t ⟨shift t.number .active .admitted, m, t.rwLock⟩
  | uncount : 0 < t.number .admitted →
      Step t ⟨shift t.number .admitted .last, t.mutex, t.rwLock⟩
  | notLast : 0 < t.number .last → t.readCount ≠ 0 →
      Step t ⟨shift t.number .last .uncounted, t.mutex, t.rwLock⟩
  | giveRwLock : 0 < t.number .last → t.readCount = 0 →
      Step t ⟨shift t.number .last .uncounted, t.mutex, t.rwLock + 1⟩
  | leave : 0 < t.number .uncounted →
      Step t ⟨shift t.number .uncounted .outside, t.mutex + 1, t.rwLock⟩
  | write {r : ℕ} : 0 < t.number .outside → t.rwLock = r + 1 →
      Step t ⟨shift t.number .outside .writing, t.mutex, r⟩
  | written : 0 < t.number .writing →
      Step t ⟨shift t.number .writing .outside, t.mutex, t.rwLock + 1⟩

/-- Who has `MUTEX` and who has `RW_LOCK`: with one reader counted, that reader may still be
about to take it, and once none is counted, the last one may still be about to give it
back. -/
structure Inv (t : Tally) : Prop where
  mutex : t.mutex + (t.number .uncounted + t.number .first + t.number .admitted +
    t.number .last) = 1
  none : t.readCount = 0 → t.rwLock + t.number .writing + t.number .last = 1
  one : t.readCount = 1 → t.rwLock + t.number .writing = t.number .first
  more : 2 ≤ t.readCount → t.rwLock + t.number .writing = 0

theorem Inv.step {t t' : Tally} (h : Inv t) (hs : Step t t') : Inv t' := by
  obtain ⟨hmutex, hnone, hone, hmore⟩ := h
  have hcount : t.readCount = t.number .first + t.number .admitted + t.number .active := rfl
  cases hs with
  | lock hp hm =>
      constructor <;> simp only [readCount, shift, reduceCtorEq, if_true, if_false] <;> omega
  | count hp =>
      constructor <;> simp only [readCount, shift, reduceCtorEq, if_true, if_false] <;> omega
  | notFirst hp hr =>
      constructor <;> simp only [readCount, shift, reduceCtorEq, if_true, if_false] <;> omega
  | takeRwLock hp hr hrw =>
      constructor <;> simp only [readCount, shift, reduceCtorEq, if_true, if_false] <;> omega
  | unlock hp =>
      constructor <;> simp only [readCount, shift, reduceCtorEq, if_true, if_false]
      · omega
      · exact False.elim
      · omega
      · omega
  | lockAgain hp hm =>
      constructor <;> simp only [readCount, shift, reduceCtorEq, if_true, if_false] <;> omega
  | uncount hp =>
      constructor <;> simp only [readCount, shift, reduceCtorEq, if_true, if_false] <;> omega
  | notLast hp hr =>
      constructor <;> simp only [readCount, shift, reduceCtorEq, if_true, if_false] <;> omega
  | giveRwLock hp hr =>
      constructor <;> simp only [readCount, shift, reduceCtorEq, if_true, if_false] <;> omega
  | leave hp =>
      constructor <;> simp only [readCount, shift, reduceCtorEq, if_true, if_false] <;> omega
  | write hp hrw =>
      constructor <;> simp only [readCount, shift, reduceCtorEq, if_true, if_false] <;> omega
  | written hp =>
      constructor <;> simp only [readCount, shift, reduceCtorEq, if_true, if_false] <;> omega

end Tally

/-! ## The steps of a process -/

/-- Whether a process at this place holds `MUTEX`, as a number. -/
def Place.holdsMutex : Place → ℕ
  | uncounted => 1
  | first => 1
  | admitted => 1
  | last => 1
  | _ => 0

/-- Whether a process at this place is to be counted in `read_count`, as a number. -/
def Place.counted : Place → ℕ
  | first => 1
  | admitted => 1
  | active => 1
  | _ => 0

namespace Pc

/-- Whether the process holds `TURNSTILE`, as a number. -/
def holdsTurnstile : Pc → ℕ
  | downMutex => 1
  | loadCount => 1
  | storeCount => 1
  | testFirst => 1
  | downRwLock => 1
  | upMutex => 1
  | upTurnstile => 1
  | writerDownRwLock => 1
  | loadData => 1
  | storeData => 1
  | printData => 1
  | writerUpRwLock => 1
  | writerUpTurnstile => 1
  | _ => 0

def role : Pc → Option Role
  | writerDownTurnstile => some .writer
  | writerDownRwLock => some .writer
  | loadData => some .writer
  | storeData => some .writer
  | printData => some .writer
  | writerUpRwLock => some .writer
  | writerUpTurnstile => some .writer
  | finished => none
  | _ => some .reader

end Pc

namespace Local

/-- What a process knows at its point about `read_count`, while it holds `MUTEX`. -/
def KnowsCount (readCount : Int32) (l : Local) : Prop :=
  match l.pc with
  | .storeCount => l.loaded = readCount
  | .exitStoreCount => l.loaded = readCount
  | .downRwLock => readCount = 1
  | .upRwLock => readCount = 0
  | _ => True

/-- What a writer knows about `shared_data`, while it holds `RW_LOCK`. -/
def KnowsData (sharedData : Int32) (l : Local) : Prop :=
  match l.pc with
  | .storeData => l.loaded = sharedData
  | _ => True

/-- How often a process in this role has stored to `shared_data`. -/
def written (r : Role) (l : Local) : ℕ :=
  match r, l.pc with
  | .reader, _ => 0
  | .writer, .printData => l.iter + 1
  | .writer, .writerUpRwLock => l.iter + 1
  | .writer, .writerUpTurnstile => l.iter + 1
  | .writer, _ => l.iter

/-- The process is in one of its `n` iterations, or has done them all. -/
def Placed (r : Role) (n : ℕ) (l : Local) : Prop :=
  l.pc.role = some r ∧ l.iter < n ∨ l.pc = .finished ∧ l.iter = n

end Local

section Loop

variable {r : Role} {n iter : ℕ} {v : Int32}

theorem loop_of {P : Local → Prop} (hentry : iter < n → P ⟨r.entry, iter, 0⟩)
    (hfinished : n ≤ iter → P ⟨.finished, iter, 0⟩) : P (r.loop n iter) := by
  unfold Role.loop
  by_cases h : iter < n
  · rw [if_pos h]
    exact hentry h
  · rw [if_neg h]
    exact hfinished (Nat.not_lt.mp h)

@[simp] theorem loop_place : (r.loop n iter).pc.place = .outside := by
  apply loop_of (P := fun l => l.pc.place = .outside)
  · cases r with
    | reader => exact fun _ => rfl
    | writer => exact fun _ => rfl
  · exact fun _ => rfl

@[simp] theorem loop_holdsTurnstile : (r.loop n iter).pc.holdsTurnstile = 0 := by
  apply loop_of (P := fun l => l.pc.holdsTurnstile = 0)
  · cases r with
    | reader => exact fun _ => rfl
    | writer => exact fun _ => rfl
  · exact fun _ => rfl

theorem loop_knows : (r.loop n iter).KnowsCount v ∧ (r.loop n iter).KnowsData v := by
  apply loop_of (P := fun l => l.KnowsCount v ∧ l.KnowsData v)
  · cases r with
    | reader => exact fun _ => ⟨trivial, trivial⟩
    | writer => exact fun _ => ⟨trivial, trivial⟩
  · exact fun _ => ⟨trivial, trivial⟩

theorem loop_written : (r.loop n iter).written r = (⟨r.entry, iter, 0⟩ : Local).written r := by
  apply loop_of (P := fun l => l.written r = (⟨r.entry, iter, 0⟩ : Local).written r)
  · exact fun _ => rfl
  · cases r with
    | reader => exact fun _ => rfl
    | writer => exact fun _ => rfl

theorem loop_placed (h : iter ≤ n) : (r.loop n iter).Placed r n := by
  apply loop_of (P := fun l => l.Placed r n)
  · cases r with
    | reader => exact fun hlt => Or.inl ⟨rfl, hlt⟩
    | writer => exact fun hlt => Or.inl ⟨rfl, hlt⟩
  · exact fun hle => Or.inr ⟨rfl, Nat.le_antisymm h hle⟩

end Loop

/-- What a step of a process changes besides the places: the process stays in its iteration
or is through with it, `read_count` changes only under `MUTEX` and `shared_data` only under
`RW_LOCK`, and what the process knows afterwards is right. -/
structure Advances (n : ℕ) (x : Shared) (l : Local) (x' : Shared) (l' : Local) : Prop where
  iter : ∃ r, l.pc.role = some r ∧
    (l'.pc.role = some r ∧ l'.iter = l.iter ∨ l' = r.loop n (l.iter + 1))
  readCount : x'.readCount = x.readCount ∨ l.pc.place.holdsMutex = 1
  sharedData : x'.sharedData = x.sharedData ∨ l.pc.place = .writing
  turnstile : x'.turnstile + l'.pc.holdsTurnstile = x.turnstile + l.pc.holdsTurnstile
  counted : l.KnowsCount x.readCount →
    x'.readCount + .ofNat l.pc.place.counted = x.readCount + .ofNat l'.pc.place.counted
  knowsCount : l'.KnowsCount x'.readCount
  knowsData : l'.KnowsData x'.sharedData
  written : ∀ r, l.pc.role = some r → l.KnowsData x.sharedData →
    x'.sharedData + .ofNat (l.written r) = x.sharedData + .ofNat (l'.written r)

section Advances

variable {n : ℕ} {x x' : Shared} {l l' : Local} {r : Role}

theorem Advances.of_within (hrole : l.pc.role = some r) (hrole' : l'.pc.role = some r)
    (hiter : l'.iter = l.iter) (hcount : x'.readCount = x.readCount)
    (hdata : x'.sharedData = x.sharedData) (hwritten : l'.written r = l.written r)
    (hcounted : l'.pc.place.counted = l.pc.place.counted)
    (hturn : x'.turnstile + l'.pc.holdsTurnstile = x.turnstile + l.pc.holdsTurnstile)
    (hknows : l'.KnowsCount x'.readCount) (hknows' : l'.KnowsData x'.sharedData) :
    Advances n x l x' l' where
  iter := ⟨r, hrole, Or.inl ⟨hrole', hiter⟩⟩
  readCount := Or.inl hcount
  sharedData := Or.inl hdata
  turnstile := hturn
  counted := fun _ => by rw [hcount, hcounted]
  knowsCount := hknows
  knowsData := hknows'
  written := by
    intro r' hr' _
    rw [hrole] at hr'
    cases hr'
    rw [hdata, hwritten]

theorem Advances.of_storeCount {pc pc' : Pc} {iter : ℕ} {loaded : Int32} (v : Int32)
    (hrole : pc.role = some .reader) (hrole' : pc'.role = some .reader)
    (hmutex : pc.place.holdsMutex = 1) (hturn : pc'.holdsTurnstile = pc.holdsTurnstile)
    (hcounted : (⟨pc, iter, loaded⟩ : Local).KnowsCount x.readCount →
      v + .ofNat pc.place.counted = x.readCount + .ofNat pc'.place.counted)
    (hknows : ∀ v', (⟨pc', iter, loaded⟩ : Local).KnowsCount v')
    (hknows' : ∀ v', (⟨pc', iter, loaded⟩ : Local).KnowsData v') :
    Advances n x ⟨pc, iter, loaded⟩ { x with readCount := v } ⟨pc', iter, loaded⟩ where
  iter := ⟨.reader, hrole, Or.inl ⟨hrole', rfl⟩⟩
  readCount := Or.inr hmutex
  sharedData := Or.inl rfl
  turnstile := by rw [hturn]
  counted := hcounted
  knowsCount := hknows _
  knowsData := hknows' _
  written := by
    intro r hr _
    rw [hrole] at hr
    cases hr
    rfl

theorem Advances.of_loop (hrole : l.pc.role = some r) (hcount : x'.readCount = x.readCount)
    (hdata : x'.sharedData = x.sharedData)
    (hwritten : (⟨r.entry, l.iter + 1, 0⟩ : Local).written r = l.written r)
    (hcounted : l.pc.place.counted = 0)
    (hturn : x'.turnstile = x.turnstile + l.pc.holdsTurnstile) :
    Advances n x l x' (r.loop n (l.iter + 1)) where
  iter := ⟨r, hrole, Or.inr rfl⟩
  readCount := Or.inl hcount
  sharedData := Or.inl hdata
  turnstile := by rw [loop_holdsTurnstile, hturn, Nat.add_zero]
  counted := by
    intro _
    rw [loop_place, hcount, hcounted]
    rfl
  knowsCount := loop_knows.1
  knowsData := loop_knows.2
  written := by
    intro r' hr' _
    rw [hrole] at hr'
    cases hr'
    rw [loop_written, hdata, hwritten]

theorem advances_of_step (hs : step n x l = some (x', l')) : Advances n x l x' l' := by
  obtain ⟨pc, iter, loaded⟩ := l
  cases pc with
  | downTurnstile =>
      obtain ⟨v, hv, heq⟩ := Option.map_eq_some_iff.mp hs
      cases heq
      exact .of_within rfl rfl rfl rfl rfl rfl rfl (down_eq_some.mp hv).symm trivial trivial
  | downMutex =>
      obtain ⟨v, hv, heq⟩ := Option.map_eq_some_iff.mp hs
      cases heq
      exact .of_within rfl rfl rfl rfl rfl rfl rfl rfl trivial trivial
  | loadCount =>
      cases hs
      exact .of_within rfl rfl rfl rfl rfl rfl rfl rfl rfl trivial
  | storeCount =>
      cases hs
      refine .of_storeCount (loaded + 1) rfl rfl rfl rfl ?_ (fun _ => trivial) fun _ => trivial
      intro hk
      change loaded = x.readCount at hk
      rw [hk]
      exact Int32.add_zero _
  | testFirst =>
      cases hs
      by_cases hone : x.readCount = 1
      · rw [if_pos hone]
        exact .of_within rfl rfl rfl rfl rfl rfl rfl rfl hone trivial
      · rw [if_neg hone]
        exact .of_within rfl rfl rfl rfl rfl rfl rfl rfl trivial trivial
  | downRwLock =>
      obtain ⟨v, hv, heq⟩ := Option.map_eq_some_iff.mp hs
      cases heq
      exact .of_within rfl rfl rfl rfl rfl rfl rfl rfl trivial trivial
  | upMutex =>
      cases hs
      exact .of_within rfl rfl rfl rfl rfl rfl rfl rfl trivial trivial
  | upTurnstile =>
      cases hs
      exact .of_within rfl rfl rfl rfl rfl rfl rfl rfl trivial trivial
  | readData =>
      cases hs
      exact .of_within rfl rfl rfl rfl rfl rfl rfl rfl trivial trivial
  | readCount =>
      cases hs
      exact .of_within rfl rfl rfl rfl rfl rfl rfl rfl trivial trivial
  | exitDownMutex =>
      obtain ⟨v, hv, heq⟩ := Option.map_eq_some_iff.mp hs
      cases heq
      exact .of_within rfl rfl rfl rfl rfl rfl rfl rfl trivial trivial
  | exitLoadCount =>
      cases hs
      exact .of_within rfl rfl rfl rfl rfl rfl rfl rfl rfl trivial
  | exitStoreCount =>
      cases hs
      refine .of_storeCount (loaded - 1) rfl rfl rfl rfl ?_ (fun _ => trivial) fun _ => trivial
      intro hk
      change loaded = x.readCount at hk
      rw [hk]
      exact (Int32.sub_add_cancel _ _).trans (Int32.add_zero _).symm
  | testLast =>
      cases hs
      by_cases hzero : x.readCount = 0
      · rw [if_pos hzero]
        exact .of_within rfl rfl rfl rfl rfl rfl rfl rfl hzero trivial
      · rw [if_neg hzero]
        exact .of_within rfl rfl rfl rfl rfl rfl rfl rfl trivial trivial
  | upRwLock =>
      cases hs
      exact .of_within rfl rfl rfl rfl rfl rfl rfl rfl trivial trivial
  | exitUpMutex =>
      cases hs
      exact .of_loop rfl rfl rfl rfl rfl rfl
  | writerDownTurnstile =>
      obtain ⟨v, hv, heq⟩ := Option.map_eq_some_iff.mp hs
      cases heq
      exact .of_within rfl rfl rfl rfl rfl rfl rfl (down_eq_some.mp hv).symm trivial trivial
  | writerDownRwLock =>
      obtain ⟨v, hv, heq⟩ := Option.map_eq_some_iff.mp hs
      cases heq
      exact .of_within rfl rfl rfl rfl rfl rfl rfl rfl trivial trivial
  | loadData =>
      cases hs
      exact .of_within rfl rfl rfl rfl rfl rfl rfl rfl trivial rfl
  | storeData =>
      cases hs
      refine ⟨⟨_, rfl, Or.inl ⟨rfl, rfl⟩⟩, Or.inl rfl, Or.inr rfl, rfl, fun _ => rfl, trivial,
        trivial, ?_⟩
      intro r hr hk
      cases hr
      change loaded = x.sharedData at hk
      simp only [hk, Local.written, Int32.ofNat_add]
      grind
  | printData =>
      cases hs
      exact .of_within rfl rfl rfl rfl rfl rfl rfl rfl trivial trivial
  | writerUpRwLock =>
      cases hs
      exact .of_within rfl rfl rfl rfl rfl rfl rfl rfl trivial trivial
  | writerUpTurnstile =>
      cases hs
      exact .of_loop rfl rfl rfl rfl rfl rfl
  | finished => cases hs

end Advances

section Simulation

variable {ι : Type} [Fintype ι] [DecidableEq ι] {party : ι → Local} {i j : ι} {s : System ι}
  {n : ℕ} {x x' : Shared} {l l' : Local}

/-! ## The numbers of a state -/

def census (party : ι → Local) (p : Place) : ℕ :=
  total (fun _ l => if l.pc.place = p then 1 else 0) party

def tally (s : System ι) : Tally :=
  ⟨census s.party, s.shared.mutex, s.shared.rwLock⟩

omit [DecidableEq ι] in
theorem census_pos (party : ι → Local) (i : ι) : 0 < census party (party i).pc.place := by
  have hle := le_total (fun _ l => if l.pc.place = (party i).pc.place then 1 else 0) party i
  rw [if_pos rfl] at hle
  exact hle

theorem census_update (party : ι → Local) (i : ι) (l : Local) :
    census (Function.update party i l) =
      shift (census party) (party i).pc.place l.pc.place := by
  funext p
  have htotal := total_update (fun _ l => if l.pc.place = p then 1 else 0) party i l
  have hle := le_total (fun _ l => if l.pc.place = p then 1 else 0) party i
  simp only [eq_comm (b := p)] at htotal hle
  simp only [shift, census, eq_comm (b := p)]
  omega

theorem shift_self {f : Place → ℕ} {a : Place} (h : 0 < f a) : shift f a a = f := by
  funext p
  unfold shift
  by_cases hp : p = a
  · rw [hp, if_pos rfl]
    omega
  · rw [if_neg hp]
    rfl

theorem tally_move : tally (s.move i x l) =
    ⟨shift (census s.party) (s.party i).pc.place l.pc.place, x.mutex, x.rwLock⟩ := by
  rw [tally, State.move_shared, State.move_party, census_update]

theorem tally_stay (hplace : l.pc.place = (s.party i).pc.place)
    (hmutex : x.mutex = s.shared.mutex) (hrw : x.rwLock = s.shared.rwLock) :
    tally (s.move i x l) = tally s := by
  rw [tally_move, hplace, hmutex, hrw, shift_self (census_pos s.party i)]
  rfl

/-- The tests of `read_count` are tests of the number, as long as an `int` tells the numbers
apart. -/
structure Tells (s : System ι) : Prop where
  zero : s.shared.readCount = 0 ↔ (tally s).readCount = 0
  one : s.shared.readCount = 1 ↔ (tally s).readCount = 1

/-- A step of a process is a step of the protocol by numbers, or leaves the numbers as
they are. -/
theorem step_tally (hk : (s.party i).KnowsCount s.shared.readCount) (htells : Tells s)
    (hs : step n s.shared (s.party i) = some (x, l)) :
    tally (s.move i x l) = tally s ∨ Tally.Step (tally s) (tally (s.move i x l)) := by
  have hpos := census_pos s.party i
  cases hpc : (s.party i).pc with
  | downTurnstile | writerDownTurnstile =>
      rw [step, hpc] at hs
      obtain ⟨v, hv, heq⟩ := Option.map_eq_some_iff.mp hs
      cases heq
      exact Or.inl (tally_stay (by rw [hpc]; rfl) rfl rfl)
  | downMutex =>
      rw [hpc] at hpos
      rw [step, hpc] at hs
      obtain ⟨v, hv, heq⟩ := Option.map_eq_some_iff.mp hs
      cases heq
      rw [tally_move, hpc]
      exact Or.inr (.lock hpos (down_eq_some.mp hv))
  | loadCount | upTurnstile | readData | readCount | exitLoadCount
  | loadData | storeData | printData =>
      rw [step, hpc] at hs
      cases hs
      exact Or.inl (tally_stay (by rw [hpc]; rfl) rfl rfl)
  | storeCount =>
      rw [hpc] at hpos
      rw [step, hpc] at hs
      cases hs
      rw [tally_move, hpc]
      exact Or.inr (.count hpos)
  | testFirst =>
      rw [hpc] at hpos
      rw [step, hpc] at hs
      cases hs
      by_cases hone : s.shared.readCount = 1
      · exact Or.inl (tally_stay (by rw [hpc, if_pos hone]; rfl) rfl rfl)
      · rw [tally_move, hpc, if_neg hone]
        exact Or.inr (.notFirst hpos (mt htells.one.2 hone))
  | downRwLock =>
      rw [hpc] at hpos
      rw [step, hpc] at hs
      obtain ⟨v, hv, heq⟩ := Option.map_eq_some_iff.mp hs
      cases heq
      rw [Local.KnowsCount, hpc] at hk
      rw [tally_move, hpc]
      exact Or.inr (.takeRwLock hpos (htells.one.1 hk) (down_eq_some.mp hv))
  | upMutex =>
      rw [hpc] at hpos
      rw [step, hpc] at hs
      cases hs
      rw [tally_move, hpc]
      exact Or.inr (.unlock hpos)
  | exitDownMutex =>
      rw [hpc] at hpos
      rw [step, hpc] at hs
      obtain ⟨v, hv, heq⟩ := Option.map_eq_some_iff.mp hs
      cases heq
      rw [tally_move, hpc]
      exact Or.inr (.lockAgain hpos (down_eq_some.mp hv))
  | exitStoreCount =>
      rw [hpc] at hpos
      rw [step, hpc] at hs
      cases hs
      rw [tally_move, hpc]
      exact Or.inr (.uncount hpos)
  | testLast =>
      rw [hpc] at hpos
      rw [step, hpc] at hs
      cases hs
      by_cases hzero : s.shared.readCount = 0
      · exact Or.inl (tally_stay (by rw [hpc, if_pos hzero]; rfl) rfl rfl)
      · rw [tally_move, hpc, if_neg hzero]
        exact Or.inr (.notLast hpos (mt htells.zero.2 hzero))
  | upRwLock =>
      rw [hpc] at hpos
      rw [step, hpc] at hs
      cases hs
      rw [Local.KnowsCount, hpc] at hk
      rw [tally_move, hpc]
      exact Or.inr (.giveRwLock hpos (htells.zero.1 hk))
  | exitUpMutex =>
      rw [hpc] at hpos
      rw [step, hpc] at hs
      cases hs
      rw [tally_move, hpc, loop_place]
      exact Or.inr (.leave hpos)
  | writerDownRwLock =>
      rw [hpc] at hpos
      rw [step, hpc] at hs
      obtain ⟨v, hv, heq⟩ := Option.map_eq_some_iff.mp hs
      cases heq
      rw [tally_move, hpc]
      exact Or.inr (.write hpos (down_eq_some.mp hv))
  | writerUpRwLock =>
      rw [hpc] at hpos
      rw [step, hpc] at hs
      cases hs
      rw [tally_move, hpc]
      exact Or.inr (.written hpos)
  | writerUpTurnstile =>
      rw [step, hpc] at hs
      cases hs
      exact Or.inl (tally_stay (by rw [hpc, loop_place]; rfl) rfl rfl)
  | finished =>
      rw [step, hpc] at hs
      cases hs

/-! ## The joint invariant -/

/-- The semaphores, the counter and the data against the points of all processes. -/
structure Joint (role : ι → Role) (iters : ι → ℕ) (s : System ι) : Prop where
  tally : (tally s).Inv
  counted : s.shared.readCount = .ofNat (total (fun _ l => l.pc.place.counted) s.party)
  turnstile : s.shared.turnstile + total (fun _ l => l.pc.holdsTurnstile) s.party = 1
  knowsCount : ∀ i, (s.party i).KnowsCount s.shared.readCount
  knowsData : ∀ i, (s.party i).KnowsData s.shared.sharedData
  placed : ∀ i, (s.party i).Placed (role i) (iters i)
  written : s.shared.sharedData = .ofNat (total (fun i l => l.written (role i)) s.party)

variable {role : ι → Role} {iters : ι → ℕ}

omit [DecidableEq ι] in
theorem total_holdsMutex (party : ι → Local) :
    total (fun _ l => l.pc.place.holdsMutex) party = census party .uncounted +
      census party .first + census party .admitted + census party .last := by
  simp only [census, total, ← Finset.sum_add_distrib]
  apply Finset.sum_congr rfl
  intro i _
  cases (party i).pc.place with
  | _ => rfl

omit [DecidableEq ι] in
theorem total_counted (s : System ι) :
    total (fun _ l => l.pc.place.counted) s.party = (tally s).readCount := by
  simp only [Tally.readCount, tally, census, total, ← Finset.sum_add_distrib]
  apply Finset.sum_congr rfl
  intro i _
  cases (s.party i).pc.place with
  | _ => rfl

def readers (role : ι → Role) : ℕ := (Finset.univ.filter fun i => role i = .reader).card

omit [Fintype ι] [DecidableEq ι] in
theorem Local.Placed.counted_le {r : Role} (h : l.Placed r n) :
    l.pc.place.counted ≤ if r = .reader then 1 else 0 := by
  have hone : ∀ p : Place, p.counted ≤ 1 := by
    intro p
    cases p <;> decide
  have hrole : ∀ pc : Pc, pc.role = some .writer → pc.place.counted = 0 := by
    intro pc hpc
    cases pc with
    | writerDownTurnstile => rfl
    | writerDownRwLock => rfl
    | loadData => rfl
    | storeData => rfl
    | printData => rfl
    | writerUpRwLock => rfl
    | writerUpTurnstile => rfl
    | _ => cases hpc
  rcases h with ⟨hpc, _⟩ | ⟨hpc, _⟩
  · cases r with
    | reader => exact hone _
    | writer =>
        rw [hrole _ hpc]
        exact Nat.zero_le _
  · rw [hpc]
    exact Nat.zero_le _

omit [DecidableEq ι] in
theorem Joint.readCount_le (h : Joint role iters s) :
    (ReadersWriters.tally s).readCount ≤ readers role := by
  rw [← total_counted, readers, Finset.card_filter]
  exact Finset.sum_le_sum fun i _ => (h.placed i).counted_le

omit [DecidableEq ι] in
theorem Joint.tells (h : Joint role iters s) (hreaders : readers role < 2 ^ 32) : Tells s := by
  have hlt := h.readCount_le.trans_lt hreaders
  have hcounted := h.counted
  rw [total_counted] at hcounted
  constructor
  · rw [hcounted]
    exact ofNat_eq_ofNat hlt (by decide)
  · rw [hcounted]
    exact ofNat_eq_ofNat hlt (by decide)

theorem eq_of_holdsMutex (h : (tally s).Inv) (hi : 0 < (s.party i).pc.place.holdsMutex)
    (hj : 0 < (s.party j).pc.place.holdsMutex) : i = j := by
  have hsum := total_holdsMutex s.party
  have hmutex := h.mutex
  simp only [tally] at hmutex
  exact eq_of_total_le_one (w := fun _ (l : Local) => l.pc.place.holdsMutex) (by omega) hi hj

theorem Tally.Inv.writing_le_one {t : Tally} (h : t.Inv) : t.number .writing ≤ 1 := by
  obtain ⟨hmutex, hnone, hone, hmore⟩ := h
  have hcount : t.readCount = t.number .first + t.number .admitted + t.number .active := rfl
  omega

theorem eq_of_writing (h : (tally s).Inv) (hi : (s.party i).pc.place = .writing)
    (hj : (s.party j).pc.place = .writing) : i = j := by
  have hle : census s.party .writing ≤ 1 := h.writing_le_one
  refine eq_of_total_le_one hle ?_ ?_
  · rw [if_pos hi]
    exact Nat.one_pos
  · rw [if_pos hj]
    exact Nat.one_pos

omit [Fintype ι] [DecidableEq ι] in
theorem knowsCount_of_not_holdsMutex {l : Local} (h : ¬ 0 < l.pc.place.holdsMutex) (v : Int32) :
    l.KnowsCount v := by
  unfold Local.KnowsCount
  split
  · next hpc => exact absurd (by rw [hpc]; decide) h
  · next hpc => exact absurd (by rw [hpc]; decide) h
  · next hpc => exact absurd (by rw [hpc]; decide) h
  · next hpc => exact absurd (by rw [hpc]; decide) h
  · trivial

theorem knowsData_of_not_writing {l : Local} (h : l.pc.place ≠ .writing) (v : Int32) :
    l.KnowsData v := by
  unfold Local.KnowsData
  split
  · next hpc => exact absurd (by rw [hpc]; rfl) h
  · trivial

theorem Advances.placed {r : Role} (h : Advances n x l x' l') (hl : l.Placed r n) :
    l'.Placed r n := by
  obtain ⟨r', hr', hcase⟩ := h.iter
  rcases hl with ⟨hrole, hlt⟩ | ⟨hfinished, _⟩
  · rw [hrole] at hr'
    cases hr'
    rcases hcase with ⟨hrole', hiter⟩ | hloop
    · left
      rw [hiter]
      exact ⟨hrole', hlt⟩
    · rw [hloop]
      exact loop_placed hlt
  · rw [hfinished] at hr'
    cases hr'

theorem Advances.role_eq {r : Role} (h : Advances n x l x' l') (hl : l.Placed r n) :
    l.pc.role = some r := by
  rcases hl with ⟨hrole, _⟩ | ⟨hfinished, _⟩
  · exact hrole
  · obtain ⟨r', hr', _⟩ := h.iter
    rw [hfinished] at hr'
    cases hr'

theorem Joint.step (h : Joint role iters s) (hreaders : readers role < 2 ^ 32)
    (hs : ReadersWriters.step (iters i) s.shared (s.party i) = some (x, l)) :
    Joint role iters (s.move i x l) := by
  have hadv := advances_of_step hs
  constructor
  · rcases step_tally (h.knowsCount i) (h.tells hreaders) hs with heq | hstep
    · rw [heq]
      exact h.tally
    · exact h.tally.step hstep
  · exact eq_ofNat_of_add (hadv.counted (h.knowsCount i)) h.counted
      (total_update (fun _ l => l.pc.place.counted) s.party i l)
  · have hsum := total_update (fun _ l => l.pc.holdsTurnstile) s.party i l
    have hturn := hadv.turnstile
    have hone := h.turnstile
    simp only [State.move_shared, State.move_party]
    omega
  · refine State.forall_move
      (P := fun (x : Shared) _ (l : Local) => l.KnowsCount x.readCount) hadv.knowsCount ?_
    intro j hj
    by_cases hheld : 0 < (s.party j).pc.place.holdsMutex
    · -- the process that moves does not hold `MUTEX`, so it leaves `read_count` alone
      rcases hadv.readCount with hsame | hi
      · rw [hsame]
        exact h.knowsCount j
      · exact absurd (eq_of_holdsMutex h.tally hheld (hi ▸ Nat.one_pos)) hj
    · exact knowsCount_of_not_holdsMutex hheld _
  · refine State.forall_move
      (P := fun (x : Shared) _ (l : Local) => l.KnowsData x.sharedData) hadv.knowsData ?_
    intro j hj
    by_cases hwriting : (s.party j).pc.place = .writing
    · rcases hadv.sharedData with hsame | hi
      · rw [hsame]
        exact h.knowsData j
      · exact absurd (eq_of_writing h.tally hwriting hi) hj
    · exact knowsData_of_not_writing hwriting _
  · refine State.forall_move (P := fun _ j (l : Local) => l.Placed (role j) (iters j))
      (hadv.placed (h.placed i)) ?_
    intro j _
    exact h.placed j
  · exact eq_ofNat_of_add (hadv.written (role i) (hadv.role_eq (h.placed i)) (h.knowsData i))
      h.written (total_update (fun i l => l.written (role i)) s.party i l)

omit [DecidableEq ι] in
theorem start_joint (role : ι → Role) (iters : ι → ℕ) : Joint role iters (start role iters) := by
  have hnumber : ∀ p, p ≠ .outside → (tally (start role iters)).number p = 0 := by
    intro p hp
    apply total_eq_zero
    intro i
    exact if_neg (loop_place.trans_ne hp.symm)
  have hfirst := hnumber .first (by decide)
  have hadmitted := hnumber .admitted (by decide)
  have hactive := hnumber .active (by decide)
  have hlast := hnumber .last (by decide)
  have huncounted := hnumber .uncounted (by decide)
  have hwriting := hnumber .writing (by decide)
  constructor
  · constructor
    · rw [huncounted, hfirst, hadmitted, hlast]
      rfl
    · intro _
      rw [hwriting, hlast]
      rfl
    · intro hone
      rw [Tally.readCount, hfirst, hadmitted, hactive] at hone
      cases hone
    · intro hmore
      rw [Tally.readCount, hfirst, hadmitted, hactive] at hmore
      exact absurd hmore (by decide)
  · rw [total_counted, Tally.readCount, hfirst, hadmitted, hactive]
    rfl
  · have hzero : total (fun _ l => l.pc.holdsTurnstile) (start role iters).party = 0 :=
      total_eq_zero fun i => loop_holdsTurnstile
    rw [hzero]
    rfl
  · exact fun i => loop_knows.1
  · exact fun i => loop_knows.2
  · exact fun i => loop_placed (Nat.zero_le _)
  · have hzero : total (fun i l => l.written (role i)) (start role iters).party = 0 := by
      apply total_eq_zero
      intro i
      change ((role i).loop (iters i) 0).written (role i) = 0
      rw [loop_written]
      cases role i with
      | reader => rfl
      | writer => rfl
    rw [hzero]
    rfl

abbrev Run (role : ι → Role) (iters : ι → ℕ) : System ι → Prop :=
  Runs (fun i => ReadersWriters.step (iters i)) Anyone (start role iters)

theorem joint_of_run (hreaders : readers role < 2 ^ 32) (h : Run role iters s) :
    Joint role iters s :=
  Runs.invariant (start_joint role iters) (fun _ _ _ _ hj _ hs => hj.step hreaders hs) h

/-! ## Exclusion -/

/-- The critical section of a reader, up to the `sem_down(MUTEX)` after it. -/
def Pc.Reading (c : Pc) : Prop := c = readData ∨ c = readCount ∨ c = exitDownMutex

/-- The critical section of a writer, up to the `sem_up(RW_LOCK)` after it. -/
def Pc.Writing (c : Pc) : Prop := c.place = .writing

omit [Fintype ι] [DecidableEq ι] in
theorem Pc.Reading.place {c : Pc} (h : c.Reading) : c.place = .active := by
  rcases h with rfl | rfl | rfl
  · rfl
  · rfl
  · rfl

/-- Nobody is counted in `read_count` while a writer has `RW_LOCK`, except a first reader
that waits for it. -/
theorem Tally.Inv.active_eq_zero {t : Tally} (h : t.Inv) (hw : 0 < t.number .writing) :
    t.number .active = 0 := by
  obtain ⟨hmutex, hnone, hone, hmore⟩ := h
  have hcount : t.readCount = t.number .first + t.number .admitted + t.number .active := rfl
  omega

theorem Joint.exclusive (h : Joint role iters s) (hij : i ≠ j) (hi : (s.party i).pc.Writing) :
    ¬ (s.party j).pc.Reading ∧ ¬ (s.party j).pc.Writing := by
  constructor
  · intro hj
    have hwriting := census_pos s.party i
    have hactive := census_pos s.party j
    rw [show (s.party i).pc.place = .writing from hi] at hwriting
    rw [hj.place] at hactive
    have hzero : census s.party .active = 0 := h.tally.active_eq_zero hwriting
    omega
  · intro hj
    exact hij (eq_of_writing h.tally hi hj)

/-! ## The counter -/

/-- A reader that has given `MUTEX` back in its entry section and has not yet decremented
`read_count` in its exit section. -/
def Pc.Counted (c : Pc) : Prop :=
  c = upTurnstile ∨ c = readData ∨ c = readCount ∨ c = exitDownMutex ∨ c = exitLoadCount ∨
    c = exitStoreCount

instance : DecidablePred Pc.Counted :=
  fun _ => inferInstanceAs (Decidable (_ ∨ _ ∨ _ ∨ _ ∨ _ ∨ _))

/-- The number of processes at a point that satisfies `P`. -/
def numberAt (P : Pc → Prop) [DecidablePred P] (s : System ι) : ℕ :=
  (Finset.univ.filter fun i => P (s.party i).pc).card

theorem place_of_counted {c : Pc} (h : c.Counted) : c.place = .active ∨ c.place = .admitted := by
  rcases h with rfl | rfl | rfl | rfl | rfl | rfl
  · exact Or.inl rfl
  · exact Or.inl rfl
  · exact Or.inl rfl
  · exact Or.inl rfl
  · exact Or.inr rfl
  · exact Or.inr rfl

theorem counted_of_active {c : Pc} (h : c.place = .active) : c.Counted := by
  cases c with
  | upTurnstile => decide
  | readData => decide
  | readCount => decide
  | exitDownMutex => decide
  | _ => cases h

omit [DecidableEq ι] in
theorem Joint.numberAt_counted (h : Joint role iters s) (hfree : s.shared.mutex ≠ 0) :
    (ReadersWriters.tally s).readCount = numberAt Pc.Counted s := by
  have hmutex : s.shared.mutex + (census s.party .uncounted + census s.party .first +
    census s.party .admitted + census s.party .last) = 1 := h.tally.mutex
  have hadmitted : census s.party .admitted = 0 := by omega
  have hactive : census s.party .active = numberAt Pc.Counted s := by
    rw [numberAt, Finset.card_filter, census, total]
    apply Finset.sum_congr rfl
    intro i _
    by_cases hi : (s.party i).pc.place = .active
    · rw [if_pos hi, if_pos (counted_of_active hi)]
    · rw [if_neg hi, if_neg]
      intro hcounted
      rcases place_of_counted hcounted with hplace | hplace
      · exact hi hplace
      · have hpos := census_pos s.party i
        rw [hplace, hadmitted] at hpos
        exact Nat.lt_irrefl 0 hpos
  change census s.party .first + census s.party .admitted + census s.party .active = _
  omega

omit [DecidableEq ι] in
theorem Joint.readCount_eq (h : Joint role iters s) (hfree : s.shared.mutex ≠ 0) :
    s.shared.readCount = .ofNat (numberAt Pc.Counted s) := by
  rw [h.counted, total_counted, h.numberAt_counted hfree]

/-! ## Deadlock -/

/-- A process without a next step has finished or waits for one of the semaphores. -/
theorem blocked_cases (hs : ReadersWriters.step n x l = none) :
    l.pc = .finished ∨
    x.turnstile = 0 ∧ l.pc.place = .outside ∧ l.pc.holdsTurnstile = 0 ∨
    x.mutex = 0 ∧ (l.pc.place = .outside ∨ l.pc.place = .active) ∨
    x.rwLock = 0 ∧ (l.pc.place = .outside ∨ l.pc = .downRwLock) := by
  obtain ⟨pc, iter, loaded⟩ := l
  cases pc with
  | downTurnstile =>
      have hzero := down_eq_none.mp (Option.map_eq_none_iff.mp hs)
      exact Or.inr (Or.inl ⟨hzero, rfl, rfl⟩)
  | downMutex =>
      have hzero := down_eq_none.mp (Option.map_eq_none_iff.mp hs)
      exact Or.inr (Or.inr (Or.inl ⟨hzero, Or.inl rfl⟩))
  | downRwLock =>
      have hzero := down_eq_none.mp (Option.map_eq_none_iff.mp hs)
      exact Or.inr (Or.inr (Or.inr ⟨hzero, Or.inr rfl⟩))
  | exitDownMutex =>
      have hzero := down_eq_none.mp (Option.map_eq_none_iff.mp hs)
      exact Or.inr (Or.inr (Or.inl ⟨hzero, Or.inr rfl⟩))
  | writerDownTurnstile =>
      have hzero := down_eq_none.mp (Option.map_eq_none_iff.mp hs)
      exact Or.inr (Or.inl ⟨hzero, rfl, rfl⟩)
  | writerDownRwLock =>
      have hzero := down_eq_none.mp (Option.map_eq_none_iff.mp hs)
      exact Or.inr (Or.inr (Or.inr ⟨hzero, Or.inl rfl⟩))
  | finished => exact Or.inl rfl
  | _ => cases hs

def Still (iters : ι → ℕ) (s : System ι) : Prop :=
  ∀ i, ReadersWriters.step (iters i) s.shared (s.party i) = none

omit [DecidableEq ι] in
theorem census_eq_zero {p : Place} (h : ∀ i, (s.party i).pc.place ≠ p) : census s.party p = 0 :=
  total_eq_zero fun i => if_neg (h i)

omit [Fintype ι] [DecidableEq ι] in
theorem Still.place (h : Still iters s) (i : ι) :
    (s.party i).pc.place = .outside ∨ (s.party i).pc.place = .active ∧ s.shared.mutex = 0 ∨
      (s.party i).pc = .downRwLock ∧ s.shared.rwLock = 0 := by
  rcases blocked_cases (h i) with hpc | ⟨_, hp, _⟩ | ⟨hzero, hp | hp⟩ | ⟨hzero, hp | hp⟩
  · rw [hpc]
    exact Or.inl rfl
  · exact Or.inl hp
  · exact Or.inl hp
  · exact Or.inr (Or.inl ⟨hp, hzero⟩)
  · exact Or.inl hp
  · exact Or.inr (Or.inr ⟨hp, hzero⟩)

omit [Fintype ι] [DecidableEq ι] in
theorem Still.place_ne (h : Still iters s) {p : Place} (hout : p ≠ .outside) (hact : p ≠ .active)
    (hfirst : p ≠ .first) (i : ι) : (s.party i).pc.place ≠ p := by
  rcases h.place i with hp | ⟨hp, _⟩ | ⟨hp, _⟩
  · rw [hp]
    exact hout.symm
  · rw [hp]
    exact hact.symm
  · rw [hp]
    exact hfirst.symm

omit [DecidableEq ι] in
/-- A first reader that waits for `RW_LOCK` finds it, sooner or later: when nobody can
move, nobody waits for it. -/
theorem Joint.not_first (h : Joint role iters s) (htells : Tells s) (hstill : Still iters s)
    (i : ι) :
    (s.party i).pc.place ≠ .first := by
  intro hplace
  have hpos := census_pos s.party i
  rw [hplace] at hpos
  rcases hstill.place i with hp | ⟨hp, _⟩ | ⟨hp, hzero⟩
  · rw [hplace] at hp
    cases hp
  · rw [hplace] at hp
    cases hp
  · have hk := h.knowsCount i
    rw [Local.KnowsCount, hp] at hk
    have hrw : s.shared.rwLock + census s.party .writing = census s.party .first :=
      h.tally.one (htells.one.1 hk)
    have hwriting : census s.party .writing = 0 :=
      census_eq_zero (hstill.place_ne (by decide) (by decide) (by decide))
    omega

omit [DecidableEq ι] in
theorem Joint.free_of_still (h : Joint role iters s) (htells : Tells s)
    (hstill : Still iters s) :
    s.shared.mutex = 1 ∧ s.shared.rwLock = 1 ∧ s.shared.turnstile = 1 := by
  have hfirst : census s.party .first = 0 := census_eq_zero (h.not_first htells hstill)
  have huncounted : census s.party .uncounted = 0 :=
    census_eq_zero (hstill.place_ne (by decide) (by decide) (by decide))
  have hadmitted : census s.party .admitted = 0 :=
    census_eq_zero (hstill.place_ne (by decide) (by decide) (by decide))
  have hlast : census s.party .last = 0 :=
    census_eq_zero (hstill.place_ne (by decide) (by decide) (by decide))
  have hwriting : census s.party .writing = 0 :=
    census_eq_zero (hstill.place_ne (by decide) (by decide) (by decide))
  have hmutex : s.shared.mutex = 1 := by
    have hsum : s.shared.mutex + (census s.party .uncounted + census s.party .first +
      census s.party .admitted + census s.party .last) = 1 := h.tally.mutex
    omega
  have hactive : census s.party .active = 0 := by
    apply census_eq_zero
    intro i hp
    rcases hstill.place i with hp' | ⟨_, hzero⟩ | ⟨hpc, _⟩
    · rw [hp] at hp'
      cases hp'
    · omega
    · rw [hpc] at hp
      cases hp
  have hcount : (ReadersWriters.tally s).readCount = 0 := by
    change census s.party .first + census s.party .admitted + census s.party .active = 0
    omega
  have hrw : s.shared.rwLock = 1 := by
    have hsum : s.shared.rwLock + census s.party .writing + census s.party .last = 1 :=
      h.tally.none hcount
    omega
  refine ⟨hmutex, hrw, ?_⟩
  have hnone : total (fun _ l => l.pc.holdsTurnstile) s.party = 0 := by
    apply total_eq_zero
    intro i
    rcases blocked_cases (hstill i) with hpc | ⟨_, _, hzero⟩ | ⟨hzero, _⟩ | ⟨hzero, _⟩
    · rw [hpc]
      rfl
    · exact hzero
    · omega
    · omega
  have hsum := h.turnstile
  omega

omit [DecidableEq ι] in
theorem Joint.not_deadlocked (h : Joint role iters s) (htells : Tells s) :
    ¬ Deadlocked (fun i => ReadersWriters.step (iters i)) (fun l => l.pc = .finished) s := by
  rintro ⟨⟨i, hi⟩, hblocked⟩
  have hstill : Still iters s := by
    intro j
    by_cases hj : (s.party j).pc = .finished
    · rw [ReadersWriters.step, hj]
    · exact hblocked j hj
  obtain ⟨hmutex, hrw, hturn⟩ := h.free_of_still htells hstill
  rcases blocked_cases (hstill i) with hpc | ⟨hzero, _⟩ | ⟨hzero, _⟩ | ⟨hzero, _⟩
  · exact hi hpc
  · omega
  · omega
  · omega

/-! ## The end -/

def writerIterations (role : ι → Role) (iters : ι → ℕ) : ℕ :=
  ∑ i with role i = .writer, iters i

omit [DecidableEq ι] in
theorem Joint.sharedData_eq (h : Joint role iters s) (hfin : ∀ i, (s.party i).pc = .finished) :
    s.shared.sharedData = .ofNat (writerIterations role iters) := by
  rw [h.written, writerIterations, Finset.sum_filter, total]
  refine congrArg Int32.ofNat (Finset.sum_congr rfl ?_)
  intro i _
  rcases h.placed i with ⟨hrole, _⟩ | ⟨hpc, hiter⟩
  · rw [hfin i] at hrole
    cases hrole
  · cases hr : role i with
    | reader =>
        rw [if_neg (by decide)]
        rfl
    | writer =>
        rw [if_pos rfl, ← hiter]
        unfold Local.written
        rw [hpc]

/-- In every state of every run, with any number of writers and fewer than `2 ^ 32` readers:
a writer is in its critical section alone; while `MUTEX` is free, `read_count` counts the
readers between the `sem_up(MUTEX)` of their entry section and the decrement in their exit
section; the processes are not deadlocked; and once all have finished, every write is in
`shared_data` and the semaphores are as they were. The two variables count as far as an
`int` can. -/
theorem readersWriters (role : ι → Role) (iters : ι → ℕ) (hreaders : readers role < 2 ^ 32)
    (s : System ι) (hrun : Run role iters s) :
    (∀ i j, i ≠ j → (s.party i).pc.Writing →
      ¬ (s.party j).pc.Reading ∧ ¬ (s.party j).pc.Writing) ∧
    (s.shared.mutex ≠ 0 → s.shared.readCount = .ofNat (numberAt Pc.Counted s) ∧
      (readers role < 2 ^ 31 → s.shared.readCount.toInt = numberAt Pc.Counted s)) ∧
    ¬ Deadlocked (fun i => ReadersWriters.step (iters i)) (fun l => l.pc = .finished) s ∧
    ((∀ i, (s.party i).pc = .finished) →
      s.shared.sharedData = .ofNat (writerIterations role iters) ∧
      (writerIterations role iters < 2 ^ 31 →
        s.shared.sharedData.toInt = writerIterations role iters) ∧
      s.shared.mutex = 1 ∧ s.shared.rwLock = 1 ∧ s.shared.turnstile = 1) := by
  have hjoint := joint_of_run hreaders hrun
  have htells := hjoint.tells hreaders
  refine ⟨?_, fun hfree => ⟨hjoint.readCount_eq hfree, fun hfew => ?_⟩,
    hjoint.not_deadlocked htells, ?_⟩
  · intro i j hij hi
    exact hjoint.exclusive hij hi
  · have hle := hjoint.readCount_le
    rw [hjoint.numberAt_counted hfree] at hle
    rw [hjoint.readCount_eq hfree]
    exact Int32.toInt_ofNat_of_lt (hle.trans_lt hfew)
  · intro hfin
    have hdata := hjoint.sharedData_eq hfin
    refine ⟨hdata, fun hfew => ?_, hjoint.free_of_still htells ?_⟩
    · rw [hdata]
      exact Int32.toInt_ofNat_of_lt hfew
    · intro i
      rw [ReadersWriters.step, hfin i]

end Simulation

/-! ## A reader and a writer -/

def readerAndWriter (i : Fin 2) : Role := if i = 0 then .reader else .writer

/-- The reader comes to its critical section, and then the writer to `sem_down(RW_LOCK)`. -/
def readerFirst : List (Fin 2) := List.replicate 8 0 ++ [1]

theorem exec_readerFirst :
    (exec (fun _ => ReadersWriters.step 1) Anyone (start readerAndWriter fun _ => 1)
      readerFirst).any (fun s => (s.party 0).pc = .readData ∧
        (s.party 1).pc = .writerDownRwLock ∧ s.shared.mutex = 1) = true := by
  decide +kernel

/-- The writer waits for a reader, which is the one that is counted. -/
theorem readersWriters_readerFirst : ∃ s : System (Fin 2),
    Run readerAndWriter (fun _ => 1) s ∧ (s.party 0).pc = .readData ∧
      (s.party 1).pc = .writerDownRwLock ∧
      s.shared.readCount.toInt = numberAt Pc.Counted s := by
  obtain ⟨s, hrun, hs⟩ := exists_run exec_readerFirst
  obtain ⟨hreader, hwriter, hmutex⟩ := of_decide_eq_true hs
  have hcount := (readersWriters readerAndWriter (fun _ => 1) (by decide) s hrun).2.1
    (by rw [hmutex]; decide)
  exact ⟨s, hrun, hreader, hwriter, hcount.2 (by decide)⟩

/-- A reader that is past its entry section and has not yet decremented `read_count`. -/
def Pc.PastEntry (c : Pc) : Prop :=
  c = readData ∨ c = readCount ∨ c = exitDownMutex ∨ c = exitLoadCount ∨ c = exitStoreCount

instance : DecidablePred Pc.PastEntry :=
  fun _ => inferInstanceAs (Decidable (_ ∨ _ ∨ _ ∨ _ ∨ _))

theorem exec_beforeUpTurnstile :
    (exec (fun _ => ReadersWriters.step 1) Anyone (start readerAndWriter fun _ => 1)
      (List.replicate 7 0)).any (fun s => (s.party 0).pc = .upTurnstile ∧
        s.shared.mutex = 1 ∧ s.shared.readCount = 1 ∧ numberAt Pc.PastEntry s = 0) = true := by
  decide +kernel

section Alone

variable {n k : ℕ}

def between (n k : ℕ) : System (Fin 1) :=
  ⟨⟨.ofNat k, 0, 1, 1, 1⟩, fun _ => Role.writer.loop n k⟩

theorem between_next (h : k < n) :
    Runs (fun _ => ReadersWriters.step n) Anyone (between n k) (between n (k + 1)) := by
  have hentry : Role.writer.loop n k = ⟨.writerDownTurnstile, k, 0⟩ := by
    rw [Role.loop, if_pos h]
    rfl
  have hparty : ∀ (f : Fin 1 → Local) (l : Local), Function.update f 0 l = fun _ => l := by
    intro f l
    funext i
    rw [Subsingleton.elim i 0, Function.update_self]
  have hexec : exec (fun _ => ReadersWriters.step n) Anyone (between n k) (List.replicate 7 0) =
      some (between n (k + 1)) := by
    simp [exec, ReadersWriters.step, State.move, between, hentry, hparty, Anyone, down,
      List.replicate]
  exact runs_of_exec hexec

theorem between_runs (h : k ≤ n) :
    Runs (fun _ => ReadersWriters.step n) Anyone (between n k) (between n n) := by
  induction h using Nat.decreasingInduction with
  | self => exact .refl
  | of_succ k hk ih => exact (between_next hk).trans ih

end Alone

/-- Before its `sem_up(TURNSTILE)`, the last step of the entry section, a reader is counted
already, and `MUTEX` is free; and a writer that makes `2 ^ 31` iterations leaves less than
nothing in `shared_data`. -/
theorem counter_clauses_fail :
    (∃ s : System (Fin 2), Run readerAndWriter (fun _ => 1) s ∧ s.shared.mutex ≠ 0 ∧
      s.shared.readCount.toInt ≠ numberAt Pc.PastEntry s) ∧
    ∃ s : System (Fin 1), Run (fun _ => .writer) (fun _ => 2 ^ 31) s ∧
      (∀ i, (s.party i).pc = .finished) ∧ s.shared.sharedData.toInt = -2 ^ 31 := by
  constructor
  · obtain ⟨s, hrun, hs⟩ := exists_run exec_beforeUpTurnstile
    obtain ⟨_, hmutex, hcount, hnumber⟩ := of_decide_eq_true hs
    refine ⟨s, hrun, ?_, ?_⟩
    · rw [hmutex]
      decide
    · rw [hcount, hnumber]
      decide
  · refine ⟨between (2 ^ 31) (2 ^ 31), between_runs (Nat.zero_le _), fun i => ?_, ?_⟩
    · change (Role.writer.loop (2 ^ 31) (2 ^ 31)).pc = .finished
      rw [Role.loop, if_neg (Nat.lt_irrefl _)]
    · rfl

end ReadersWriters
