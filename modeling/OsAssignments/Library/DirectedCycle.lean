import Mathlib.Data.Fintype.Card
import Mathlib.Data.List.Chain
import Mathlib.Logic.Relation
import Mathlib.Order.WellFounded

/-!
# Directed cycles

A cycle of a relation is listed with its first vertex repeated at the end.
Lying on one is the same as reaching oneself in at least one step. Two criteria
are kept here: a non-empty finite set in which every vertex has a successor
contains a cycle through one of its vertices, and a vertex whose successors lie
in a closed set that it does not belong to is on no cycle.
-/

namespace DirectedCycle

open Relation (TransGen)

/-- A closed walk that repeats its first vertex at the end and no other one. -/
def IsCycle {V : Type*} (E : V → V → Prop) (l : List V) : Prop :=
  ∃ c path, l = c :: path ++ [c] ∧ (c :: path).Nodup ∧ l.IsChain E

theorem transGen_of_isChain_cons {V : Type*} {E : V → V → Prop} {v w : V}
    {l : List V} (h : (v :: l).IsChain E) (hw : w ∈ l) : TransGen E v w :=
  (h.imp fun _ _ hE => TransGen.single hE).rel_cons hw

theorem IsCycle.transGen {V : Type*} {E : V → V → Prop} {l : List V}
    (h : IsCycle E l) {v : V} (hv : v ∈ l) : TransGen E v v := by
  obtain ⟨c, path, rfl, -, hchain⟩ := h
  have hself : TransGen E c c :=
    transGen_of_isChain_cons hchain (List.mem_append_right path (List.mem_singleton_self c))
  have hcases : v = c ∨ v ∈ path := by
    rcases List.mem_append.1 hv with hv | hv
    · exact List.mem_cons.1 hv
    · exact Or.inl (List.mem_singleton.1 hv)
  rcases hcases with rfl | hpath
  · exact hself
  · obtain ⟨before, after, rfl⟩ := List.append_of_mem hpath
    have hto : TransGen E c v :=
      transGen_of_isChain_cons hchain (List.mem_append_left [c] hpath)
    have htail : (v :: (after ++ [c])).IsChain E := by
      have hsplit : c :: (before ++ v :: after) ++ [c] =
          (c :: before) ++ (v :: (after ++ [c])) := by simp
      rw [hsplit] at hchain
      exact hchain.right_of_append
    exact (transGen_of_isChain_cons htail (by simp)).trans hto

theorem IsCycle.exists_transGen {V : Type*} {E : V → V → Prop} {l : List V}
    (h : IsCycle E l) : ∃ v, TransGen E v v := by
  obtain ⟨c, path, hl, hnodup, hchain⟩ := h
  have hc : c ∈ l := by simp [hl]
  exact ⟨c, IsCycle.transGen ⟨c, path, hl, hnodup, hchain⟩ hc⟩

/-- In a finite type, a non-empty set in which every vertex has a successor
meets a cycle. -/
theorem exists_transGen_self {V : Type*} [Finite V] {E : V → V → Prop} {S : Set V}
    (hne : S.Nonempty) (hsucc : ∀ v ∈ S, ∃ w ∈ S, E v w) : ∃ v, TransGen E v v := by
  by_contra hacyclic
  push Not at hacyclic
  let R : V → V → Prop := fun w v => TransGen E v w
  have htrans : IsTrans V R := ⟨fun _ _ _ h h' => h'.trans h⟩
  have hirrefl : Std.Irrefl R := ⟨hacyclic⟩
  have hwf : WellFounded R := Finite.wellFounded_of_trans_of_irrefl R
  obtain ⟨v, hv, hmin⟩ := hwf.has_min S hne
  obtain ⟨w, hw, hedge⟩ := hsucc v hv
  exact hmin w hw (TransGen.single hedge)

theorem mem_of_transGen {V : Type*} {E : V → V → Prop} {B : V → Prop}
    (hclosed : ∀ v w, B v → E v w → B w) {v w : V} (hv : B v)
    (h : TransGen E v w) : B w := by
  induction h with
  | single hedge => exact hclosed _ _ hv hedge
  | tail _ hedge ih => exact hclosed _ _ ih hedge

/-- A vertex outside a closed set that contains its successors is on no cycle. -/
theorem not_transGen_self {V : Type*} {E : V → V → Prop} {B : V → Prop}
    (hclosed : ∀ v w, B v → E v w → B w) {v : V} (hv : ¬ B v)
    (hsucc : ∀ w, E v w → B w) : ¬ TransGen E v v := by
  intro h
  obtain ⟨w, hedge, hrest⟩ := Relation.TransGen.head'_iff.1 h
  rcases Relation.reflTransGen_iff_eq_or_transGen.1 hrest with rfl | hrest
  · exact hv (hsucc _ hedge)
  · exact hv (mem_of_transGen hclosed (hsucc w hedge) hrest)

end DirectedCycle
