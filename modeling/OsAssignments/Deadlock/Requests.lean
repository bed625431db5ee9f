import OsAssignments.Deadlock.Safety

/-!
# Granting requests

The safety check decides safety, so `process_request` grants a request exactly
when it passes the two tests and the tables are safe after it: `grants_iff`.
Giving a process less never makes the tables unsafe, `safe_of_allocate`. Of two
requests granted one after the other only the last tables therefore count, and
these do not depend on the order of the requests. All of this takes tables that are
`InRange`; where a sum overflows the safety check may refuse a safe state. The needs may
overflow: the code is compared with itself here.
-/

namespace Deadlock

open MachineInt
open Reduction (System)

variable {n m : ℕ} {t : Tables n m} {p q : Fin n} {a b req : Fin m → Int32}

def Tables.needSystem (t : Tables n m) : System (Fin n) (Fin m → ℤ) :=
  Deadlock.system (buildNeedMatrix t) t.allocTable t.currentAvail

/-- No allocation is negative, and the totals fit in an `int`. -/
structure Tables.InRange (t : Tables n m) : Prop where
  alloc_nonneg : ∀ p, 0 ≤ ints (t.allocTable p)
  totalFits : TotalFits t.allocTable t.currentAvail

/-- The check accepts the tables exactly when what it scans is safe. -/
theorem checkSafeState_iff_safe (h : t.InRange) :
    (∃ execOrder, checkSafeState t = some (true, execOrder)) ↔ t.needSystem.Safe := by
  obtain ⟨ret, s, hs, hcompletes, hret, -, hstuck⟩ :=
    safeLoop_spec (buildNeedMatrix t) t.allocTable t.currentAvail h.alloc_nonneg
  have hcheck : checkSafeState t = some (ret, s.sequence) :=
    congrArg (Option.map fun r : Bool × Sweep n m => (r.1, r.2.sequence)) hs
  refine Iff.trans ?_ (hret.trans (hcompletes.safe_iff h.alloc_nonneg (hstuck h.totalFits)).symm)
  simp [hcheck]

/-! ## One request -/

/-- The request is within the need of `p` and the pool. -/
structure Tables.Covers (t : Tables n m) (p : Fin n) (req : Fin m → Int32) : Prop where
  nonneg : 0 ≤ ints req
  need : ints req ≤ ints (buildNeedMatrix t p)
  avail : ints req ≤ ints t.currentAvail

theorem Tables.Covers.moves (hcovers : t.Covers p req) (h : t.InRange) : t.Moves p req := by
  constructor
  · intro r
    have hreq := hcovers.nonneg r
    have havail := hcovers.avail r
    have halloc := h.alloc_nonneg p r
    have hone : (t.allocTable p r).toInt ≤ ∑ q, (t.allocTable q r).toInt :=
      Finset.single_le_sum (f := fun q => (t.allocTable q r).toInt)
        (fun q _ => h.alloc_nonneg q r) (Finset.mem_univ p)
    have htotal := h.totalFits r
    simp only [Pi.zero_apply, ints_apply] at hreq havail halloc
    exact ⟨by omega, by omega⟩
  · intro r
    exact fits_toInt_sub (hcovers.nonneg r) (Int32.le_iff_toInt_le.2 (hcovers.avail r))

theorem Tables.Covers.need_self (hcovers : t.Covers p req) :
    ints (buildNeedMatrix (t.allocate p req) p) = ints (buildNeedMatrix t p) - ints req := by
  have hsub : ∀ x y z : Int32, x - (y + z) = x - y - z := by grind
  funext r
  rw [ints_apply, buildNeedMatrix, t.allocate_allocTable_self, t.allocate_maxDemand, hsub]
  exact toInt_sub_of_fits
    (fits_toInt_sub (hcovers.nonneg r) (Int32.le_iff_toInt_le.2 (hcovers.need r)))

theorem buildNeedMatrix_allocate_of_ne (t : Tables n m) (req : Fin m → Int32) (h : q ≠ p) :
    buildNeedMatrix (t.allocate p req) q = buildNeedMatrix t q := by
  funext r
  rw [buildNeedMatrix, buildNeedMatrix, t.allocate_allocTable_of_ne req h, t.allocate_maxDemand]

theorem Tables.Covers.inRange (hcovers : t.Covers p req) (h : t.InRange) :
    (t.allocate p req).InRange := by
  have hmoves := hcovers.moves h
  refine ⟨fun q => ?_, fun r => (hmoves.total r).trans_lt (h.totalFits r)⟩
  by_cases hq : q = p
  · rw [hq, hmoves.ints_allocTable]
    exact add_nonneg (h.alloc_nonneg p) hcovers.nonneg
  · rw [t.allocate_allocTable_of_ne req hq]
    exact h.alloc_nonneg q

theorem Tables.Covers.needFits (hcovers : t.Covers p req) (h : t.InRange) (hneed : t.NeedFits) :
    (t.allocate p req).NeedFits := by
  intro q r
  by_cases hq : q = p
  · have hself := congrFun (hcovers.moves h).ints_allocTable r
    have hreq := hcovers.nonneg r
    have hle := hcovers.need r
    rw [hneed.ints_needMatrix] at hle
    have hfits := (hneed p r).2
    simp only [Pi.zero_apply, Pi.add_apply, Pi.sub_apply, ints_apply] at hself hreq hle
    rw [hq, t.allocate_maxDemand, hself]
    exact ⟨by omega, by omega⟩
  · rw [t.allocate_allocTable_of_ne req hq, t.allocate_maxDemand]
    exact hneed q r

/-- The code grants a request exactly when it is within the need and the pool
and leaves a safe state. -/
theorem grants_iff (h : t.InRange) (hreq : 0 ≤ ints req) :
    Grants t p req ↔ t.Covers p req ∧ (t.allocate p req).needSystem.Safe := by
  have hbounds : (∀ r, req r ≤ buildNeedMatrix t p r ∧ req r ≤ t.currentAvail r) ↔
      t.Covers p req := by
    rw [forall_and, ← ints_le_iff, ← ints_le_iff]
    exact ⟨fun hle => ⟨hreq, hle.1, hle.2⟩, fun hcovers => ⟨hcovers.need, hcovers.avail⟩⟩
  rw [Grants, hbounds]
  exact and_congr_right fun hcovers => checkSafeState_iff_safe (hcovers.inRange h)

theorem grants_iff_of_needFits (h : t.InRange) (hneed : t.NeedFits) (hreq : 0 ≤ ints req) :
    Grants t p req ↔
      (∀ r, (req r).toInt ≤ (t.maxDemand p r).toInt - (t.allocTable p r).toInt) ∧
        (∀ r, req r ≤ t.currentAvail r) ∧ (t.allocate p req).Safe := by
  rw [grants_iff h hreq, ← ints_le_iff]
  have hsystem : t.Covers p req → (t.allocate p req).needSystem = (t.allocate p req).system :=
    fun hcovers => (hcovers.needFits h hneed).system_eq
  constructor
  · rintro ⟨hcovers, hsafe⟩
    have hle := hcovers.need
    rw [hneed.ints_needMatrix] at hle
    rw [hsystem hcovers] at hsafe
    exact ⟨hle, hcovers.avail, hsafe⟩
  · rintro ⟨hle, havail, hsafe⟩
    have hcovers : t.Covers p req := by
      refine ⟨hreq, ?_, havail⟩
      rw [hneed.ints_needMatrix]
      exact hle
    refine ⟨hcovers, ?_⟩
    rw [hsystem hcovers]
    exact hsafe

/-- A request that is granted leaves the tables it was allocated in, and one that is refused
those of before the call. As long as the needs and the totals fit in an `int`, a request is
granted exactly when it fits the remaining need and the pool and some order completes
everybody afterwards, and nothing has then overflowed. -/
theorem processRequest_transaction (t : Tables n m) (halloc : ∀ p r, 0 ≤ t.allocTable p r)
    (p : Fin n) (req : Fin m → Int32) (hreq : ∀ r, 0 ≤ req r) :
    ∃ reply u, processRequest t p req = some (reply, u) ∧
      (reply.granted = true → u = t.allocate p req) ∧
      (reply.granted = false → u = t) ∧
      (t.NeedFits → TotalFits t.allocTable t.currentAvail →
        (reply.granted = true → t.Moves p req) ∧
        (reply.granted = true ↔
          (∀ r, (req r).toInt ≤ (t.maxDemand p r).toInt - (t.allocTable p r).toInt) ∧
          (∀ r, req r ≤ t.currentAvail r) ∧ (t.allocate p req).Safe)) := by
  have hnonneg : 0 ≤ ints req := ints_nonneg_iff.2 hreq
  have hrange : TotalFits t.allocTable t.currentAvail → t.InRange := fun htotal =>
    ⟨fun p => ints_nonneg_iff.2 (halloc p), htotal⟩
  obtain ⟨reply, u, hcall, ⟨hgrant, hreply, rfl⟩ | ⟨hrefuse, hreply, rfl⟩⟩ :=
    processRequest_cases t p req
  · refine ⟨reply, _, hcall, fun _ => rfl, fun h => absurd h (by simp [hreply]), ?_⟩
    intro hneed htotal
    have hcovers := ((grants_iff (hrange htotal) hnonneg).1 hgrant).1
    have hiff := grants_iff_of_needFits (hrange htotal) hneed (p := p) hnonneg
    exact ⟨fun _ => hcovers.moves (hrange htotal), fun _ => hiff.1 hgrant, fun _ => hreply⟩
  · refine ⟨reply, u, hcall, fun h => absurd h (by simp [hreply]), fun _ => rfl, ?_⟩
    intro hneed htotal
    have hiff := grants_iff_of_needFits (hrange htotal) hneed (p := p) hnonneg
    rw [hreply]
    exact ⟨fun h => absurd h (by simp), fun h => absurd h (by simp),
      fun h => absurd (hiff.2 h) hrefuse⟩

/-- The first request of `main` is granted. -/
theorem processRequest_transaction_main : ∃ reply u,
    processRequest bankersTables 1 ![1, 0, 2] = some (reply, u) ∧ reply.granted = true ∧
      bankersTables.Moves 1 ![1, 0, 2] ∧ u = bankersTables.allocate 1 ![1, 0, 2] := by
  obtain ⟨reply, u, hcall, hgranted, -, hexact⟩ := processRequest_transaction bankersTables
    (by decide) 1 ![1, 0, 2] (by decide)
  have hmoves := (hexact (by unfold Tables.NeedFits; decide) (by decide)).1
  have hreply : reply.granted = true := by
    have h : (processRequest bankersTables 1 ![1, 0, 2]).all (fun r => r.1.granted) = true := by
      decide +kernel
    rwa [hcall] at h
  exact ⟨reply, u, hcall, hreply, hmoves hreply, hgranted hreply⟩

/-- Two processes hold their maximum of a resource of which there are too many units for an
`int`. -/
def crowdedTables : Tables 2 1 :=
  { allocTable := ![![1], ![1]]
    maxDemand := ![![1], ![1]]
    currentAvail := ![2147483647] }

/-- Process 1 holds so much more than its maximum that the difference is no `int`. -/
def deficitTables : Tables 2 1 :=
  { allocTable := ![![0], ![1]]
    maxDemand := ![![0], ![-2147483648]]
    currentAvail := ![0] }

/-- A request for nothing is rejected in two safe states: `work` overflows in one, a need in
the other. -/
theorem processRequest_overflow :
    (∀ p r, 0 ≤ crowdedTables.allocTable p r) ∧
    (processRequest crowdedTables 0 ![0]).map (fun r => r.1.granted) = some false ∧
    (∀ r, ((![0] : Fin 1 → Int32) r).toInt ≤
      (crowdedTables.maxDemand 0 r).toInt - (crowdedTables.allocTable 0 r).toInt) ∧
    (∀ r, (![0] : Fin 1 → Int32) r ≤ crowdedTables.currentAvail r) ∧
    (crowdedTables.allocate 0 ![0]).Safe ∧
    (∀ p r, 0 ≤ deficitTables.allocTable p r) ∧
    (processRequest deficitTables 0 ![0]).map (fun r => r.1.granted) = some false ∧
    (∀ r, ((![0] : Fin 1 → Int32) r).toInt ≤
      (deficitTables.maxDemand 0 r).toInt - (deficitTables.allocTable 0 r).toInt) ∧
    (∀ r, (![0] : Fin 1 → Int32) r ≤ deficitTables.currentAvail r) ∧
    (deficitTables.allocate 0 ![0]).Safe := by
  refine ⟨by decide, by decide +kernel, by decide, by decide, ?_, by decide, by decide +kernel,
    by decide, by decide, ?_⟩
  · refine (safe_iff_exists_safeSequence _ _ _).2 ⟨Equiv.refl _, ?_⟩
    unfold SafeSequence
    decide
  · refine (safe_iff_exists_safeSequence _ _ _).2 ⟨Equiv.refl _, ?_⟩
    unfold SafeSequence
    decide

/-! ## Two requests -/

/-- Giving a process less never turns a safe state unsafe. -/
theorem safe_of_allocate (hcovers : t.Covers p req) (h : t.InRange)
    (hsafe : (t.allocate p req).needSystem.Safe) : t.needSystem.Safe := by
  have hmoves := hcovers.moves h
  refine System.Safe.of_move (p := p) hcovers.nonneg ?_ hmoves.ints_allocTable ?_ ?_ ?_ hsafe
  · change ints t.currentAvail = ints (t.allocate p req).currentAvail + ints req
    rw [hmoves.ints_currentAvail, sub_add_cancel]
  · change ints (buildNeedMatrix t p) ≤ ints (buildNeedMatrix (t.allocate p req) p) + ints req
    rw [hcovers.need_self, sub_add_cancel]
  · intro q hq
    exact congrArg ints (t.allocate_allocTable_of_ne req hq)
  · intro q hq
    exact le_of_eq (congrArg ints (buildNeedMatrix_allocate_of_ne t req hq)).symm

/-- The call is granted and leaves the tables `u`. -/
def GrantsTo (t : Tables n m) (p : Fin n) (req : Fin m → Int32) (u : Tables n m) : Prop :=
  ∃ execOrder, processRequest t p req = some (.success execOrder, u)

theorem grantsTo_iff (t : Tables n m) (p : Fin n) (req : Fin m → Int32)
    (u : Tables n m) :
    GrantsTo t p req u ↔ Grants t p req ∧ u = t.allocate p req := by
  obtain ⟨reply, v, hcall, ⟨hgrant, hreply, rfl⟩ | ⟨hrefuse, hreply, rfl⟩⟩ :=
    processRequest_cases t p req
  · rw [GrantsTo, hcall]
    constructor
    · rintro ⟨execOrder, heq⟩
      rw [Option.some.injEq, Prod.mk.injEq] at heq
      exact ⟨hgrant, heq.2.symm⟩
    · rintro ⟨-, rfl⟩
      cases reply with
      | success execOrder => exact ⟨execOrder, rfl⟩
      | _ => exact absurd hreply (by simp [Reply.granted])
  · rw [GrantsTo, hcall]
    constructor
    · rintro ⟨execOrder, heq⟩
      rw [Option.some.injEq, Prod.mk.injEq] at heq
      rw [heq.1] at hreply
      exact absurd hreply (by simp [Reply.granted])
    · exact fun h => absurd h.1 hrefuse

/-- Both calls are granted, the second one in the tables the first one leaves,
which it turns into `v`. -/
def GrantsBoth (t : Tables n m) (p : Fin n) (a : Fin m → Int32) (q : Fin n)
    (b : Fin m → Int32) (v : Tables n m) : Prop :=
  ∃ u, GrantsTo t p a u ∧ GrantsTo u q b v

theorem GrantsBoth.eq {v : Tables n m} (h : GrantsBoth t p a q b v) :
    v = (t.allocate p a).allocate q b := by
  obtain ⟨u, hu, hv⟩ := h
  rw [((grantsTo_iff _ _ _ _).1 hv).2, ((grantsTo_iff _ _ _ _).1 hu).2]

/-- Both requests are within the needs and the pool, one after the other. -/
def Tables.CoversBoth (t : Tables n m) (p : Fin n) (a : Fin m → Int32) (q : Fin n)
    (b : Fin m → Int32) : Prop :=
  (ints a ≤ ints (buildNeedMatrix t p) ∧
      ints b ≤ if q = p then ints (buildNeedMatrix t p) - ints a
        else ints (buildNeedMatrix t q)) ∧
    ints a + ints b ≤ ints t.currentAvail

theorem coversBoth_iff (h : t.InRange) (ha : 0 ≤ ints a) (hb : 0 ≤ ints b) :
    t.CoversBoth p a q b ↔ t.Covers p a ∧ (t.allocate p a).Covers q b := by
  have hneed : t.Covers p a → ints (buildNeedMatrix (t.allocate p a) q) =
      if q = p then ints (buildNeedMatrix t p) - ints a else ints (buildNeedMatrix t q) := by
    intro hcovers
    by_cases hq : q = p
    · rw [if_pos hq, hq, hcovers.need_self]
    · rw [if_neg hq, buildNeedMatrix_allocate_of_ne t a hq]
  constructor
  · rintro ⟨⟨hneeda, hneedb⟩, havail⟩
    have hcovers : t.Covers p a := ⟨ha, hneeda, (le_add_of_nonneg_right hb).trans havail⟩
    refine ⟨hcovers, hb, ?_, ?_⟩
    · rwa [hneed hcovers]
    · rw [(hcovers.moves h).ints_currentAvail]
      exact le_sub_iff_add_le'.2 havail
  · rintro ⟨hcovers, hcovers'⟩
    refine ⟨⟨hcovers.need, ?_⟩, ?_⟩
    · rw [← hneed hcovers]
      exact hcovers'.need
    · have havail := hcovers'.avail
      rw [(hcovers.moves h).ints_currentAvail] at havail
      exact le_sub_iff_add_le'.1 havail

theorem grantsBoth_iff (h : t.InRange) (ha : 0 ≤ ints a) (hb : 0 ≤ ints b) (v : Tables n m) :
    GrantsBoth t p a q b v ↔ t.CoversBoth p a q b ∧
      ((t.allocate p a).allocate q b).needSystem.Safe ∧ v = (t.allocate p a).allocate q b := by
  rw [coversBoth_iff h ha hb]
  constructor
  · rintro ⟨u, hu, hv⟩
    obtain ⟨hgrant, rfl⟩ := (grantsTo_iff t p a u).1 hu
    obtain ⟨hgrant', rfl⟩ := (grantsTo_iff _ q b v).1 hv
    have hcovers := ((grants_iff h ha).1 hgrant).1
    obtain ⟨hcovers', hsafe⟩ := (grants_iff (hcovers.inRange h) hb).1 hgrant'
    exact ⟨⟨hcovers, hcovers'⟩, hsafe, rfl⟩
  · rintro ⟨⟨hcovers, hcovers'⟩, hsafe, rfl⟩
    have hrange := hcovers.inRange h
    refine ⟨t.allocate p a, (grantsTo_iff _ _ _ _).2 ⟨(grants_iff h ha).2 ?_, rfl⟩,
      (grantsTo_iff _ _ _ _).2 ⟨(grants_iff hrange hb).2 ?_, rfl⟩⟩
    · exact ⟨hcovers, safe_of_allocate hcovers' hrange hsafe⟩
    · exact ⟨hcovers', hsafe⟩

theorem Tables.allocate_self (t : Tables n m) (p : Fin n) (a b : Fin m → Int32) :
    (t.allocate p a).allocate p b = t.allocate p (a + b) := by
  have hsub : ∀ x y z : Int32, x - y - z = x - (y + z) := by grind
  simp only [Tables.allocate, Function.update_self, Function.update_idem,
    Pi.add_apply, Int32.add_assoc, hsub]

theorem Tables.allocate_comm (t : Tables n m) (p q : Fin n) (a b : Fin m → Int32) :
    (t.allocate p a).allocate q b = (t.allocate q b).allocate p a := by
  have hsub : ∀ x y z : Int32, x - y - z = x - z - y := by grind
  by_cases hpq : q = p
  · subst hpq
    have hadd : a + b = b + a := funext fun r => Int32.add_comm (a r) (b r)
    rw [t.allocate_self, t.allocate_self, hadd]
  · simp only [Tables.allocate, Function.update_of_ne hpq,
      Function.update_of_ne (Ne.symm hpq), Function.update_comm hpq, hsub _ (a _) (b _)]

theorem coversBoth_self (hb : 0 ≤ ints b) :
    t.CoversBoth p a p b ↔
      ints a + ints b ≤ ints (buildNeedMatrix t p) ∧
        ints a + ints b ≤ ints t.currentAvail := by
  rw [Tables.CoversBoth, if_pos rfl, le_sub_iff_add_le']
  refine and_congr_left fun _ => ⟨fun h => h.2, fun h => ⟨?_, h⟩⟩
  exact (le_add_of_nonneg_right hb).trans h

theorem coversBoth_comm (ha : 0 ≤ ints a) (hb : 0 ≤ ints b) :
    t.CoversBoth p a q b ↔ t.CoversBoth q b p a := by
  by_cases hpq : q = p
  · rw [hpq, coversBoth_self hb, coversBoth_self ha, add_comm]
  · rw [Tables.CoversBoth, Tables.CoversBoth, if_neg hpq, if_neg (Ne.symm hpq), add_comm,
      and_comm (a := ints a ≤ _)]

theorem grantsBoth_comm (h : t.InRange) (p q : Fin n) (ha : 0 ≤ ints a) (hb : 0 ≤ ints b)
    (v : Tables n m) : GrantsBoth t p a q b v ↔ GrantsBoth t q b p a v := by
  rw [grantsBoth_iff h ha hb, grantsBoth_iff h hb ha, coversBoth_comm ha hb, t.allocate_comm]

theorem grantsBoth_self (h : t.InRange) (p : Fin n) (ha : 0 ≤ ints a) (hb : 0 ≤ ints b)
    (hab : ∀ r, Fits 32 ((a r).toInt + (b r).toInt)) (v : Tables n m) :
    GrantsBoth t p a p b v ↔ GrantsTo t p (a + b) v := by
  have hints : ints (a + b) = ints a + ints b := funext fun r => toInt_add_of_fits (hab r)
  have hnonneg : 0 ≤ ints (a + b) := hints ▸ add_nonneg ha hb
  rw [grantsBoth_iff h ha hb, coversBoth_self hb, ← hints, t.allocate_self, grantsTo_iff,
    grants_iff h hnonneg]
  exact ⟨fun ⟨⟨hneed, havail⟩, hsafe, hv⟩ => ⟨⟨⟨hnonneg, hneed, havail⟩, hsafe⟩, hv⟩,
    fun ⟨⟨hcovers, hsafe⟩, hv⟩ => ⟨⟨hcovers.need, hcovers.avail⟩, hsafe, hv⟩⟩

/-- Two requests that are granted in both orders leave the same tables. As long as the totals
fit in an `int`, they are granted in one order exactly when they are in the other; two
requests of one process whose sum fits as well are granted exactly when the sum is, with the
same tables; and what is granted stays granted when less is asked for. -/
theorem grants_order_and_split (t : Tables n m) (halloc : ∀ p r, 0 ≤ t.allocTable p r)
    (p q : Fin n) (a b : Fin m → Int32) (ha : ∀ r, 0 ≤ a r) (hb : ∀ r, 0 ≤ b r) :
    (∀ v w, GrantsBoth t p a q b v → GrantsBoth t q b p a w → v = w) ∧
      (TotalFits t.allocTable t.currentAvail →
        (∀ v, GrantsBoth t p a q b v ↔ GrantsBoth t q b p a v) ∧
        (p = q → (∀ r, Fits 32 ((a r).toInt + (b r).toInt)) →
          ∀ v, GrantsBoth t p a q b v ↔ GrantsTo t p (a + b) v) ∧
        ∀ c, (∀ r, a r ≤ c r) → (∃ v, GrantsTo t p c v) → ∃ u, GrantsTo t p a u) := by
  have ha' : 0 ≤ ints a := ints_nonneg_iff.2 ha
  have hb' : 0 ≤ ints b := ints_nonneg_iff.2 hb
  refine ⟨fun v w hv hw => ?_, fun htotal => ?_⟩
  · rw [hv.eq, hw.eq, t.allocate_comm]
  have hrange : t.InRange := ⟨fun p => ints_nonneg_iff.2 (halloc p), htotal⟩
  refine ⟨grantsBoth_comm hrange p q ha' hb', ?_, ?_⟩
  · rintro rfl hab
    exact grantsBoth_self hrange p ha' hb' hab
  · rintro c hac ⟨v, hv⟩
    have hfits : ∀ r, Fits 32 ((c r).toInt - (a r).toInt) := by
      intro r
      have har := ha' r
      have hacr := Int32.le_iff_toInt_le.1 (hac r)
      have hcr := (fits_toInt (c r)).2
      simp only [Pi.zero_apply, ints_apply] at har
      exact ⟨by omega, by omega⟩
    have hrest : ∀ r, (c r - a r).toInt = (c r).toInt - (a r).toInt := fun r =>
      toInt_sub_of_fits (hfits r)
    have hsum : a + (c - a) = c := by
      funext r
      change a r + (c r - a r) = c r
      grind
    have hnonneg : 0 ≤ ints (c - a) := by
      intro r
      have hacr := Int32.le_iff_toInt_le.1 (hac r)
      change 0 ≤ (c r - a r).toInt
      rw [hrest r]
      omega
    have hac' : ∀ r, Fits 32 ((a r).toInt + ((c - a) r).toInt) := by
      intro r
      change Fits 32 ((a r).toInt + (c r - a r).toInt)
      rw [hrest r, add_sub_cancel]
      exact fits_toInt (c r)
    rw [← hsum] at hv
    obtain ⟨u, hu, -⟩ := (grantsBoth_self hrange p ha' hnonneg hac' v).2 hv
    exact ⟨u, hu⟩

/-- Two requests of one process in the tables `bankers.c` starts with: both are granted, in
either order and at once. -/
theorem grants_order_and_split_bankers : ∃ v,
    GrantsTo bankersTables 1 (![1, 0, 0] + ![0, 0, 2]) v ∧
      GrantsBoth bankersTables 1 ![1, 0, 0] 1 ![0, 0, 2] v ∧
      GrantsBoth bankersTables 1 ![0, 0, 2] 1 ![1, 0, 0] v ∧
      ∃ u, GrantsTo bankersTables 1 ![1, 0, 0] u := by
  obtain ⟨horder, hsplit, hless⟩ := (grants_order_and_split bankersTables (by decide) 1 1
    ![1, 0, 0] ![0, 0, 2] (by decide) (by decide)).2 (by decide)
  have hgrant : GrantsTo bankersTables 1 (![1, 0, 0] + ![0, 0, 2])
      (bankersTables.allocate 1 (![1, 0, 0] + ![0, 0, 2])) := by
    refine (grantsTo_iff _ _ _ _).2 ⟨⟨by decide, [1, 3, 4, 0, 2], ?_⟩, rfl⟩
    decide +kernel
  have hboth := (hsplit rfl (by decide) _).2 hgrant
  exact ⟨_, hgrant, hboth, (horder _).1 hboth, hless _ (by decide) ⟨_, hgrant⟩⟩

/-- Process 0 holds its maximum of a resource that has one unit too many for an `int`. -/
def fullTables : Tables 2 1 :=
  { allocTable := ![![1], ![0]]
    maxDemand := ![![1], ![1]]
    currentAvail := ![2147483647] }

/-- Process 1 is granted the last unit it may ask for, and then process 0 nothing at all; but
nothing at all is refused when process 0 asks first. -/
theorem grants_order_overflow :
    (∀ p r, 0 ≤ fullTables.allocTable p r) ∧
    (∃ v, GrantsBoth fullTables 1 ![1] 0 ![0] v) ∧
    ¬ ∃ v, GrantsBoth fullTables 0 ![0] 1 ![1] v := by
  refine ⟨by decide, ⟨(fullTables.allocate 1 ![1]).allocate 0 ![0], fullTables.allocate 1 ![1],
    (grantsTo_iff _ _ _ _).2 ⟨⟨by decide, [0, 1], by decide +kernel⟩, rfl⟩,
    (grantsTo_iff _ _ _ _).2 ⟨⟨by decide, [0, 1], by decide +kernel⟩, rfl⟩⟩, ?_⟩
  rintro ⟨v, u, hu, -⟩
  obtain ⟨⟨-, execOrder, hcheck⟩, -⟩ := (grantsTo_iff _ _ _ _).1 hu
  have hrefused : checkSafeState (fullTables.allocate 0 ![0]) = some (false, [0]) := by
    decide +kernel
  rw [hrefused] at hcheck
  cases hcheck

end Deadlock
