import Mathlib.Data.Fintype.Card
import OsAssignments.Process.Simulation

/-!
# Waiting and joining

`kjoin` looks only at threads, but `kwait` takes any child. This is shown for the runs in
which no `wait` of a process other than the first one comes upon an exited thread: there
`wait` returns processes that were forked and `join` threads that were cloned, and the
threads that a process has cloned and not joined are still its children.
-/

namespace Process

open EventRun Family

variable {nproc : ℕ}

/-- How often the process `p` has returned from `call` with success. -/
def succeeded (trace : List Event) (p : ℤ) (call : Syscall) : ℕ :=
  trace.countP fun e => e.pid = p ∧ e.call = call ∧ e.ret ≠ -1

/-- A thread with the parent `i` that has been started and not been reaped. -/
def Member.IsThreadOf (m : Member nproc) (i : Fin nproc) : Prop :=
  m.parent = some i ∧ m.isThread = true ∧ (m.phase = .live ∨ m.phase = .zombie)

instance (m : Member nproc) (i : Fin nproc) : Decidable (m.IsThreadOf i) :=
  inferInstanceAs (Decidable (_ ∧ _ ∧ (_ ∨ _)))

/-- The threads that the member `i` can join now or later. -/
def Family.threads (F : Family nproc) (i : Fin nproc) : Finset (Fin nproc) :=
  Finset.univ.filter fun t => (F.member t).IsThreadOf i

/-- Every child is what its creation has made it, is returned to a `wait` or a `join`
accordingly, and the threads that have not been joined are there. -/
structure Shared (trace : List Event) (F : Family nproc) : Prop where
  attached : ∀ t, (F.member t).detached = false
  born : ∀ t, (F.member t).phase = .live ∨ (F.member t).phase = .zombie → t ≠ F.initproc →
    ∃ p, Created trace p (F.member t).isThread (F.member t).pid
  reaped : ∀ p thread c, ⟨p, waitCall thread, c⟩ ∈ trace → c ≠ -1 →
    (p = 1 ∧ thread = false) ∨ ∃ q, Created trace q thread c
  threads : ∀ i, i ≠ F.initproc → (F.member i).phase ≠ .unused →
    succeeded trace (F.member i).pid .clone ≤
      succeeded trace (F.member i).pid .join + (F.threads i).card

/-- No `wait` of a member other than the first process reaps a thread. -/
def Deed.Spares (F : Family nproc) : Deed nproc → Prop
  | reap i thread k => thread = false → i ≠ F.initproc → F.Child i false k →
      (F.member k).phase = .zombie → (F.member k).isThread = false
  | _ => True

variable {F F' : Family nproc} {i np k : Fin nproc} {trace events : List Event} {d : Deed nproc}

/-! ## Counting -/

theorem succeeded_append {p : ℤ} {call : Syscall} :
    succeeded (trace ++ events) p call = succeeded trace p call + succeeded events p call :=
  List.countP_append

theorem succeeded_eq_zero {p : ℤ} {call : Syscall}
    (h : ∀ e ∈ events, e.pid = p → e.call = call → e.ret = -1) : succeeded events p call = 0 := by
  refine List.countP_eq_zero.mpr ?_
  intro e he
  simp only [decide_eq_true_eq]
  rintro ⟨hpid, hcall, hret⟩
  exact hret (h e he hpid hcall)

theorem succeeded_singleton {p c : ℤ} {call : Syscall} (hc : c ≠ -1) :
    succeeded [⟨p, call, c⟩] p call = 1 := by
  simp [succeeded, hc]

/-! ## Threads -/

theorem mem_threads {t : Fin nproc} : t ∈ F.threads i ↔ (F.member t).IsThreadOf i := by
  simp [Family.threads]

/-- A member that is no thread of `i` becomes one, or a thread of `i` stops being one. -/
theorem threads_setMember {m : Member nproc} {j : Fin nproc}
    (h : (F.member k).IsThreadOf j ↔ m.IsThreadOf j) :
    (F.setMember k m).threads j = F.threads j := by
  ext t
  rw [mem_threads, mem_threads, setMember_member]
  by_cases ht : t = k
  · rw [ht, Function.update_self]
    exact h.symm
  · rw [Function.update_of_ne ht]

theorem threads_insert {m : Member nproc} (h : ¬ (F.member k).IsThreadOf i)
    (hm : m.IsThreadOf i) : ((F.setMember k m).threads i).card = (F.threads i).card + 1 := by
  have heq : (F.setMember k m).threads i = insert k (F.threads i) := by
    ext t
    rw [Finset.mem_insert, mem_threads, mem_threads, setMember_member]
    by_cases ht : t = k
    · rw [ht, Function.update_self]
      exact iff_of_true hm (Or.inl rfl)
    · rw [Function.update_of_ne ht]
      exact ⟨Or.inr, fun h => h.resolve_left ht⟩
  rw [heq, Finset.card_insert_of_notMem (mt mem_threads.mp h)]

theorem threads_erase {m : Member nproc} (h : (F.member k).IsThreadOf i)
    (hm : ¬ m.IsThreadOf i) : (F.threads i).card = ((F.setMember k m).threads i).card + 1 := by
  have heq : (F.setMember k m).threads i = (F.threads i).erase k := by
    ext t
    rw [Finset.mem_erase, mem_threads, mem_threads, setMember_member]
    by_cases ht : t = k
    · rw [ht, Function.update_self]
      exact iff_of_false hm fun h => h.1 rfl
    · rw [Function.update_of_ne ht]
      exact ⟨fun h => ⟨ht, h⟩, fun h => h.2⟩
  rw [heq, Finset.card_erase_add_one (mem_threads.mpr h)]

@[simp] theorem threads_setDuty {c : Duty nproc} : (F.setDuty i c).threads = F.threads := rfl

@[simp] theorem threads_nextPid : F.nextPid.threads = F.threads := rfl

theorem not_isThreadOf {m : Member nproc} (h : m.phase = .unused ∨ m.phase = .used) :
    ¬ m.IsThreadOf i := by
  rintro ⟨_, _, hphase⟩
  rcases h with h | h <;> rw [h] at hphase <;> rcases hphase with hphase | hphase <;> cases hphase

/-! ## The steps -/

/-- The events of a step and what it does to the threads of a member are in balance. -/
def Balanced (F F' : Family nproc) (events : List Event) (j : Fin nproc) : Prop :=
  succeeded events (F.member j).pid .clone + (F.threads j).card ≤
    succeeded events (F.member j).pid .join + (F'.threads j).card

theorem Balanced.of_eq {j : Fin nproc} (hthreads : F'.threads j = F.threads j)
    (hclone : succeeded events (F.member j).pid .clone = 0) : Balanced F F' events j := by
  rw [Balanced, hthreads, hclone, Nat.zero_add]
  exact Nat.le_add_left _ _

/-- A member that goes on as it is, is in nobody's way yet, or has been created. -/
def Member.Accounted (trace : List Event) (m m' : Member nproc) : Prop :=
  m'.phase = .live ∨ m'.phase = .zombie → m' = m ∨ ∃ p, Created trace p m'.isThread m'.pid

theorem Member.Accounted.same (m : Member nproc) : m.Accounted trace m := fun _ => Or.inl rfl

theorem Member.Accounted.of_phase {m m' : Member nproc}
    (h : m'.phase = .unused ∨ m'.phase = .used) : m.Accounted trace m' := by
  intro hphase
  rcases h with h | h <;> rw [h] at hphase <;> rcases hphase with hphase | hphase <;> cases hphase

theorem Member.Accounted.update {m : Member nproc} (h : (F.member k).Accounted trace m)
    (t : Fin nproc) : (F.member t).Accounted trace (Function.update F.member k m t) := by
  by_cases ht : t = k
  · rw [ht, Function.update_self]
    exact h
  · rw [Function.update_of_ne ht]
    exact same _

theorem attached_update {m : Member nproc} (hm : m.detached = false)
    (h : ∀ t, (F.member t).detached = false) (t : Fin nproc) :
    (Function.update F.member k m t).detached = false := by
  by_cases ht : t = k
  · rw [ht, Function.update_self, hm]
  · rw [Function.update_of_ne ht, h t]

theorem Shared.keep (h : Shared trace F) (hinit : F'.initproc = F.initproc)
    (hattached : ∀ t, (F'.member t).detached = false)
    (hborn : ∀ t, t ≠ F.initproc → (F.member t).Accounted (trace ++ events) (F'.member t))
    (hreaped : ∀ p thread c, ⟨p, waitCall thread, c⟩ ∈ events → c ≠ -1 →
      (p = 1 ∧ thread = false) ∨ ∃ q, Created trace q thread c)
    (hthreads : ∀ j, j ≠ F.initproc → (F'.member j).phase ≠ .unused →
      ((F.member j).phase ≠ .unused ∧ (F'.member j).pid = (F.member j).pid ∧
        Balanced F F' events j) ∨ succeeded (trace ++ events) (F'.member j).pid .clone = 0) :
    Shared (trace ++ events) F' := by
  constructor
  · exact hattached
  · intro t ht hne
    rcases hborn t (hinit ▸ hne) ht with heq | hcreated
    · rw [heq] at ht ⊢
      obtain ⟨p, hc⟩ := h.born t ht (hinit ▸ hne)
      exact ⟨p, hc.append⟩
    · exact hcreated
  · intro p thread c hmem hc
    have hold : (p = 1 ∧ thread = false) ∨ ∃ q, Created trace q thread c := by
      rcases List.mem_append.mp hmem with hmem | hmem
      · exact h.reaped p thread c hmem hc
      · exact hreaped p thread c hmem hc
    exact hold.imp_right fun ⟨q, hq⟩ => ⟨q, hq.append⟩
  · intro j hne hj
    rcases hthreads j (hinit ▸ hne) hj with ⟨hphase, hpid, hbalanced⟩ | hzero
    · rw [hpid, succeeded_append, succeeded_append]
      have hold := h.threads j (hinit ▸ hne) hphase
      rw [Balanced] at hbalanced
      omega
    · rw [hzero]
      exact Nat.zero_le _

theorem Shared.start {thread : Bool} (h : Shared trace F) (hmaking : F.Making)
    (hnumbered : Numbered trace F) (hi : (F.member i).phase = .live)
    (hduty : F.duty i = .start thread np) :
    Shared (trace ++ [⟨(F.member i).pid, forkCall thread, (F.member np).pid⟩])
      ((F.setMember np { F.member np with phase := .live }).setDuty i .idle) := by
  have hused := hmaking.used i np (congrArg Duty.child hduty)
  have hthread := hmaking.thread i np thread (Or.inr hduty)
  have hparent := hmaking.parent i np thread hduty
  have hne := hnumbered.ne_neg_one (ne_of_phase hused (by decide))
  have hkeeps : (F.member np).Keeps { F.member np with phase := .live } :=
    fun _ => ⟨ne_of_phase hused (by decide), rfl, fun hlive => (nomatch hlive)⟩
  refine h.keep rfl (attached_update (h.attached np) h.attached) ?_ ?_ ?_
  · refine fun t _ => Member.Accounted.update (fun _ => Or.inr ⟨(F.member i).pid, ?_⟩) t
    rw [hthread]
    exact created_append.mpr (Or.inr ⟨List.mem_singleton_self _, hne⟩)
  · intro p th c hmem _
    rw [List.mem_singleton, Event.mk.injEq] at hmem
    exact absurd hmem.2.1.symm (forkCall_ne_waitCall thread th)
  · intro j _ hj
    obtain ⟨hold, hpid, _⟩ := hkeeps.update j hj
    refine Or.inl ⟨hold, hpid, ?_⟩
    by_cases hth : Member.IsThreadOf { F.member np with phase := .live } j
    · have hle : succeeded [⟨(F.member i).pid, forkCall thread, (F.member np).pid⟩]
          (F.member j).pid .clone ≤ 1 := List.countP_le_length
      have hcard := threads_insert (not_isThreadOf (Or.inr hused)) hth
      rw [Balanced, threads_setDuty, hcard]
      omega
    · refine .of_eq (threads_setMember (iff_of_false (not_isThreadOf (Or.inr hused)) hth))
        (succeeded_eq_zero ?_)
      intro e he hpid' hcall
      rw [List.mem_singleton.mp he] at hpid' hcall
      obtain rfl := hnumbered.unique i j (ne_of_phase hi (by decide)) hold hpid'
      have htrue : thread = true := forkCall_injective (hcall.trans rfl)
      exact absurd ⟨hparent, hthread.trans htrue, Or.inl rfl⟩ hth

theorem Shared.reap {thread : Bool} (h : Shared trace F) (hrooted : F.Rooted)
    (hnumbered : Numbered trace F) (hok : Deed.Spares F (.reap i thread k))
    (hchild : F.Child i thread k) (hk : (F.member k).phase = .zombie) :
    Shared (trace ++ [⟨(F.member i).pid, waitCall thread, (F.member k).pid⟩])
      (F.setMember k .free) := by
  -- unless the first process waits, the call is the one for what the child is
  have hkind : i = F.initproc ∧ thread = false ∨ (F.member k).isThread = thread := by
    cases thread with
    | true => exact Or.inr (hchild.2 rfl)
    | false =>
        by_cases hi : i = F.initproc
        · exact Or.inl ⟨hi, rfl⟩
        · exact Or.inr (hok rfl hi hchild hk)
  refine h.keep rfl (attached_update rfl h.attached)
    (fun t _ => Member.Accounted.update (.of_phase (Or.inl rfl)) t) ?_ ?_
  · intro p th c hmem _
    rw [List.mem_singleton, Event.mk.injEq] at hmem
    obtain ⟨rfl, hcall, rfl⟩ := hmem
    obtain rfl := waitCall_injective hcall
    rcases hkind with ⟨rfl, hth⟩ | hth
    · exact Or.inl ⟨hrooted.pid, hth⟩
    · rw [← hth]
      exact Or.inr (h.born k (Or.inr hk) (hrooted.ne_root (ne_of_phase hk (by decide))))
  · intro j hinit hj
    rw [setMember_member] at hj ⊢
    by_cases hjk : j = k
    · rw [hjk, Function.update_self] at hj
      exact absurd rfl hj
    rw [Function.update_of_ne hjk] at hj ⊢
    refine Or.inl ⟨hj, rfl, ?_⟩
    have hclone : succeeded [⟨(F.member i).pid, waitCall thread, (F.member k).pid⟩]
        (F.member j).pid .clone = 0 := by
      refine succeeded_eq_zero ?_
      intro e he _ hcall
      rw [List.mem_singleton.mp he] at hcall
      exact absurd hcall (forkCall_ne_waitCall true thread).symm
    by_cases hth : (F.member k).IsThreadOf j
    · obtain rfl := Option.some.inj (hth.1.symm.trans hchild.1)
      have htrue : thread = true :=
        (hkind.resolve_left fun hinit' => hinit hinit'.1).symm.trans hth.2.1
      subst htrue
      have hjoin : succeeded [⟨(F.member j).pid, waitCall true, (F.member k).pid⟩]
          (F.member j).pid .join = 1 :=
        succeeded_singleton (hnumbered.ne_neg_one (ne_of_phase hk (by decide)))
      have hcard := threads_erase hth (not_isThreadOf (m := .free) (Or.inl rfl))
      rw [Balanced, hclone, hjoin, hcard]
      omega
    · exact .of_eq (threads_setMember (iff_of_false hth (not_isThreadOf (Or.inl rfl)))) hclone

theorem no_kin (p : ℤ) (thread : Bool) (c : ℤ) (hmem : (⟨p, waitCall thread, c⟩ : Event) ∈ [])
    (_ : c ≠ -1) : (p = 1 ∧ thread = false) ∨ ∃ q, Created trace q thread c :=
  absurd hmem List.not_mem_nil

theorem Shared.adopt (h : Shared trace F) (hmaking : F.Making) {i np : Fin nproc} {thread : Bool}
    (hduty : F.duty i = .adopt thread np) :
    Shared (trace ++ []) ((F.setMember np { F.member np with parent := some i }).setDuty i
      (.start thread np)) := by
  have hused := hmaking.used i np (congrArg Duty.child hduty)
  have haccounted : (F.member np).Accounted (trace ++ []) { F.member np with parent := some i } :=
    .of_phase (Or.inr hused)
  refine h.keep rfl (attached_update (h.attached np) h.attached) (fun t _ => haccounted.update t)
    no_kin ?_
  intro j _ hj
  rw [setDuty_member, setMember_member] at hj ⊢
  have hthreads : ((F.setMember np { F.member np with parent := some i }).setDuty i
      (.start thread np)).threads j = F.threads j :=
    threads_setMember (iff_of_false (not_isThreadOf (Or.inr hused))
      (not_isThreadOf (Or.inr hused)))
  by_cases hjnp : j = np
  · subst hjnp
    rw [Function.update_self]
    exact Or.inl ⟨ne_of_phase hused (by decide), rfl, .of_eq hthreads rfl⟩
  · rw [Function.update_of_ne hjnp] at hj ⊢
    exact Or.inl ⟨hj, rfl, .of_eq hthreads rfl⟩

theorem Shared.pass (h : Shared trace F) {i k : Fin nproc} (habandoned : F.Abandoned i k) :
    Shared (trace ++ []) ((F.setMember k { F.member k with
      parent := some F.initproc
      detached := (F.member k).isThread || (F.member k).detached }).setDuty i
        (.sweep (k + 1))) := by
  have hthread : (F.member k).isThread = false := habandoned.2.resolve_right fun hdetached => by
    rw [h.attached k] at hdetached
    cases hdetached
  have hkeeps : (F.member k).Keeps { F.member k with
      parent := some F.initproc
      detached := (F.member k).isThread || (F.member k).detached } := fun hk => ⟨hk, rfl, id⟩
  refine h.keep rfl (attached_update ?_ h.attached) ?_ no_kin ?_
  · rw [hthread, h.attached k]
    rfl
  · intro t hne
    rw [setDuty_member, setMember_member]
    by_cases ht : t = k
    · subst ht
      rw [Function.update_self]
      exact fun hphase => Or.inr ((h.born t hphase hne).imp fun _ hc => hc.append)
    · rw [Function.update_of_ne ht]
      exact .same _
  · intro j _ hj
    obtain ⟨hold, hpid, _⟩ := hkeeps.update j hj
    refine Or.inl ⟨hold, hpid, .of_eq (threads_setMember (iff_of_false ?_ ?_)) rfl⟩
    · exact fun h => (nomatch hthread.symm.trans h.2.1)
    · exact fun h => (nomatch hthread.symm.trans h.2.1)

theorem Shared.die (h : Shared trace F) {i : Fin nproc} (hi : (F.member i).phase = .live) :
    Shared (trace ++ [])
      ((F.setMember i { F.member i with phase := .zombie }).setDuty i .idle) := by
  have hkeeps : (F.member i).Keeps { F.member i with phase := .zombie } :=
    fun _ => ⟨ne_of_phase hi (by decide), rfl, fun hzombie => (nomatch hzombie)⟩
  refine h.keep rfl (attached_update (h.attached i) h.attached) ?_ no_kin ?_
  · intro t hne
    rw [setDuty_member, setMember_member]
    by_cases ht : t = i
    · subst ht
      rw [Function.update_self]
      exact fun _ => Or.inr ((h.born t (Or.inl hi) hne).imp fun _ hc => hc.append)
    · rw [Function.update_of_ne ht]
      exact .same _
  · intro j _ hj
    obtain ⟨hold, hpid, _⟩ := hkeeps.update j hj
    refine Or.inl ⟨hold, hpid, .of_eq (threads_setMember ?_) rfl⟩
    exact and_congr_right' (and_congr_right' (iff_of_true (Or.inl hi) (Or.inr rfl)))

theorem Shared.step (h : Shared trace F) (hmaking : F.Making) (hrooted : F.Rooted)
    (hnumbered : Numbered trace F) (hok : d.Spares F) (hstep : F.Step d F' events) :
    Shared (trace ++ events) F' := by
  have hsame : ∀ t, t ≠ F.initproc → (F.member t).Accounted (trace ++ events) (F.member t) :=
    fun _ _ => .same _
  cases hstep with
  | quiet hquiet =>
      have hret : ∀ e ∈ events, e.call.isKin = true → e.ret = -1 := fun e he => (hquiet e he).2
      refine h.keep rfl h.attached hsame ?_ ?_
      · intro p thread c hmem hc
        exact absurd (hret _ hmem (waitCall_isKin thread)) hc
      · refine fun j _ hj => Or.inl ⟨hj, rfl, .of_eq rfl (succeeded_eq_zero ?_)⟩
        intro e he _ hcall
        exact hret e he (hcall ▸ rfl)
  | @allocFails i k thread hi hk =>
      refine h.keep rfl (attached_update rfl h.attached)
        (fun t _ => Member.Accounted.update (.of_phase (Or.inl rfl)) t) ?_ ?_
      · intro p th c hmem hc
        rw [List.mem_singleton, Event.mk.injEq] at hmem
        exact absurd hmem.2.2 hc
      · intro j _ hj
        rw [setMember_member] at hj ⊢
        by_cases hjk : j = k
        · rw [hjk, Function.update_self] at hj
          exact absurd rfl hj
        · rw [Function.update_of_ne hjk] at hj ⊢
          refine Or.inl ⟨hj, rfl, .of_eq ?_ (succeeded_eq_zero ?_)⟩
          · exact threads_setMember (F := F.nextPid)
              (iff_of_false (not_isThreadOf (Or.inl hk)) (not_isThreadOf (Or.inl rfl)))
          · intro e he _ _
            rw [List.mem_singleton.mp he]
  | @alloc i k thread hi hduty hk =>
      refine h.keep rfl (attached_update rfl h.attached)
        (fun t _ => Member.Accounted.update (.of_phase (Or.inr rfl)) t) no_kin ?_
      intro j _ hj
      rw [setDuty_member, setDuty_member, setMember_member] at hj ⊢
      by_cases hjk : j = k
      · rw [hjk, Function.update_self, List.append_nil]
        refine Or.inr (succeeded_eq_zero ?_)
        intro e he hpid
        exact absurd hpid (hnumbered.next.2 e he).ne
      · rw [Function.update_of_ne hjk] at hj ⊢
        refine Or.inl ⟨hj, rfl, .of_eq ?_ rfl⟩
        exact threads_setMember (F := F.nextPid)
          (iff_of_false (not_isThreadOf (Or.inl hk)) (not_isThreadOf (Or.inr rfl)))
  | adopt hi hduty => exact h.adopt hmaking hduty
  | start hi hduty => exact h.start hmaking hnumbered hi hduty
  | @exit i hi hduty hinit =>
      refine h.keep rfl h.attached hsame no_kin ?_
      exact fun j _ hj => Or.inl ⟨hj, rfl, .of_eq rfl rfl⟩
  | @skip i k hduty hskip =>
      refine h.keep rfl h.attached hsame no_kin ?_
      exact fun j _ hj => Or.inl ⟨hj, rfl, .of_eq rfl rfl⟩
  | pass hduty habandoned => exact h.pass habandoned
  | @swept i k hduty hk =>
      refine h.keep rfl h.attached hsame no_kin ?_
      exact fun j _ hj => Or.inl ⟨hj, rfl, .of_eq rfl rfl⟩
  | die hi hduty => exact h.die hi
  | reap _ _ hchild hk => exact h.reap hrooted hnumbered hok hchild hk

theorem boot_shared {initproc : Fin nproc} : Shared [] (boot initproc).family := by
  constructor
  · intro t
    rw [boot_member]
    split_ifs <;> rfl
  · intro t ht hne
    rw [boot_member, if_neg (show t ≠ initproc from hne)] at ht
    rcases ht with ht | ht <;> cases ht
  · exact fun _ _ _ hmem => (nomatch hmem)
  · exact fun _ _ _ => Nat.zero_le _

/-! ## Runs of the process table -/

variable {s : State nproc} {initproc : Fin nproc}

/-- The action is not the reaping of a thread by a `wait` of a process other than the first
one. -/
def SparesThreads (s : State nproc) : Action nproc → Prop :=
  Action.OnAdvance fun i ok => ok = true → i ≠ s.initproc → ∀ (k : Fin nproc) (havekids : Bool),
    s.pc i = .scan false k havekids → isChild s i false k = true →
      (s.proc k).state = .zombie → (s.proc k).isThread = false

instance (s : State nproc) : DecidablePred (SparesThreads s) :=
  @Action.decidableOnAdvance _ _ fun _ _ => inferInstance

/-- A run in which no `wait` of a process other than the first one reaps a thread. -/
abbrev SparingRun (initproc : Fin nproc) : List Event → State nproc → Prop :=
  Run step (fun _ s a => SparesThreads s a) (boot initproc)

theorem shared_of_run (h : SparingRun initproc trace s) : Shared trace s.family := by
  refine family_of_run (P := fun F d => d.Spares F) boot_shared ?_ ?_ h
  · intro _ s a d hok hby
    cases d with
    | reap i thread k =>
        rintro rfl hinit hchild hzombie
        obtain ⟨ok, havekids, rfl, hpc, hcopy⟩ := hby
        exact hok hcopy hinit k havekids hpc (isChild_iff.mpr hchild) (phase_zombie.mp hzombie)
    | _ => trivial
  · intro trace F d F' events ho hshared hP hs
    exact hshared.step ho.making ho.rooted ho.numbered hP hs

/-- The threads of the process in slot `i` that run or are zombies. -/
def threads (s : State nproc) (i : Fin nproc) : Finset (Fin nproc) :=
  Finset.univ.filter fun t => (s.proc t).parent = some i ∧ (s.proc t).isThread = true ∧
    (s.proc t).Exists

/-- What the calls of `wait` and `join` return are different children, and every process has
the threads that it has cloned and not joined. -/
structure Partitioned (trace : List Event) (s : State nproc) : Prop where
  wait : ∀ p c, ⟨p, .wait, c⟩ ∈ trace → c ≠ -1 → p ≠ (s.proc s.initproc).pid →
    ∃ q, ⟨q, .fork, c⟩ ∈ trace
  join : ∀ p c, ⟨p, .join, c⟩ ∈ trace → c ≠ -1 → ∃ q, ⟨q, .clone, c⟩ ∈ trace
  disjoint : ∀ p q c, ⟨p, .fork, c⟩ ∈ trace → ⟨q, .clone, c⟩ ∈ trace → c = -1
  threads : ∀ i, i ≠ s.initproc → (s.proc i).state ≠ .unused →
    succeeded trace (s.proc i).pid .clone ≤
      succeeded trace (s.proc i).pid .join + (threads s i).card

theorem partitioned_of_run (h : SparingRun initproc trace s) : Partitioned trace s := by
  have hordered := ordered_of_run h
  have hshared := shared_of_run h
  constructor
  · intro p c hmem hc hp
    have hpid : (s.proc s.initproc).pid = 1 := hordered.rooted.pid
    rcases hshared.reaped p false c hmem hc with ⟨heq, _⟩ | ⟨q, hq⟩
    · exact absurd (heq.trans hpid.symm) hp
    · exact ⟨q, hq.1⟩
  · intro p c hmem hc
    rcases hshared.reaped p true c hmem hc with ⟨_, hth⟩ | ⟨q, hq⟩
    · cases hth
    · exact ⟨q, hq.1⟩
  · intro p q c hfork hclone
    by_contra hc
    have hkind := hordered.numbered.creator p q c false true ⟨hfork, hc⟩ ⟨hclone, hc⟩
    cases hkind.2
  · intro i hne hi
    have heq : s.family.threads i = threads s i := by
      ext t
      rw [mem_threads, threads, Finset.mem_filter_univ]
      exact and_congr_right' (and_congr_right' phase_exists)
    have hle := hshared.threads i hne (mt phase_unused.mp hi)
    rwa [heq] at hle

/-- The child of the first process clones a thread and forks; both children exit, the
process waits for the one and joins the other. -/
def waitAndJoin : List (Action 4) :=
  [.dispatch 0, .trap 0 .fork] ++ go 0 5 ++ [.dispatch 1, .trap 1 .fork] ++ go 1 6 ++
    [.trap 1 .clone] ++ go 1 8 ++ [.dispatch 2, .trap 2 .exit] ++ go 2 12 ++
    [.trap 1 .wait] ++ go 1 5 ++ [.dispatch 3, .trap 3 .exit] ++ go 3 12 ++
    [.trap 1 .join] ++ go 1 5

theorem partitioned_of_run_waitAndJoin : ∃ trace s, SparingRun (0 : Fin 4) trace s ∧
    Partitioned trace s ∧ ⟨2, .wait, 3⟩ ∈ trace ∧ ⟨2, .join, 4⟩ ∈ trace := by
  have htest : (exec step (fun _ s a => SparesThreads s a) waitAndJoin [] (boot 0)).any
      (fun r => decide (⟨2, .wait, 3⟩ ∈ r.1) && decide (⟨2, .join, 4⟩ ∈ r.1)) = true := by
    decide +kernel
  obtain ⟨trace, s, hrun, hs⟩ := exists_run htest
  simp only [Bool.and_eq_true, decide_eq_true_eq] at hs
  exact ⟨trace, s, hrun, partitioned_of_run hrun, hs.1, hs.2⟩

/-! ## A thread that is not joined -/

/-- The child of the first process clones a thread, which exits, and waits. -/
def waitForThread : List (Action 3) :=
  forkFirst ++ [.trap 1 .clone] ++ go 1 7 ++ [.dispatch 2, .trap 2 .exit] ++ go 2 10 ++
    [.trap 1 .wait] ++ go 1 4

/-- `wait` returns a thread, and it can no longer be joined. -/
theorem wait_takes_thread : ∃ trace s, Run step (fun _ _ _ => True) (boot (0 : Fin 3)) trace s ∧
    s.initproc = 0 ∧ (s.proc 1).pid = 2 ∧ ⟨2, .clone, 3⟩ ∈ trace ∧ ⟨2, .wait, 3⟩ ∈ trace ∧
      succeeded trace 2 .clone = 1 ∧ succeeded trace 2 .join = 0 ∧ threads s 1 = ∅ := by
  have htest : (exec step (fun _ _ _ => True) waitForThread [] (boot (0 : Fin 3))).any
      (fun r => decide (r.2.initproc = 0) && decide ((r.2.proc 1).pid = 2) &&
        decide (⟨2, .clone, 3⟩ ∈ r.1) && decide (⟨2, .wait, 3⟩ ∈ r.1) &&
          decide (succeeded r.1 2 .clone = 1) && decide (succeeded r.1 2 .join = 0) &&
            decide (threads r.2 1 = ∅)) = true := by decide +kernel
  obtain ⟨trace, s, hrun, hs⟩ := exists_run htest
  simp only [Bool.and_eq_true, decide_eq_true_eq] at hs
  obtain ⟨⟨⟨⟨⟨⟨hinit, hpid⟩, hcloned⟩, hwaited⟩, hclone⟩, hjoin⟩, hthreads⟩ := hs
  exact ⟨trace, s, hrun, hinit, hpid, hcloned, hwaited, hclone, hjoin, hthreads⟩

end Process
