import Mathlib.Data.List.Basic
import Mathlib.Logic.Function.Basic

/-!
# Directories

The content of a directory belongs to fs.c, which is not part of the sources: `DirLayer` names
the functions of it that sysfile.c calls, and `LawfulDirLayer` says what they do. A directory is a
table of entries, each of which is empty or has a name and an inode. `create` writes `.` and `..`
to the first two of them, where they stay: `Dots`. `entries` are the others.
-/

namespace Links

/-- The last element of a path. -/
inductive Name (ν : Type)
  | dot
  | dotdot
  | other (n : ν)
  deriving DecidableEq

/-- The functions of fs.c on the content of a directory; an entry is named by its place in it. -/
class DirLayer (δ : Type) (ν φ : outParam Type) where
  /-- the content of an inode that `ialloc` returns -/
  empty : δ
  /-- `dp->size / sizeof(de)` -/
  size : δ → ℕ
  /-- the entry that `readi` reads, unless its `inum` is 0 -/
  readi : δ → ℕ → Option (Name ν × φ)
  /-- the inode that `dirlookup` finds, and the place of the entry -/
  dirlookup : δ → Name ν → Option (φ × ℕ)
  /-- `dirlink`, where `room` says whether the disk has room for one more entry -/
  dirlink : δ → Name ν → φ → (room : Bool) → Option δ
  /-- `writei` of an entry of zeros -/
  writei : δ → ℕ → δ

export DirLayer (readi dirlookup dirlink writei)

/-- `dirlookup` finds an entry with the name if there is one. `dirlink` fails if there is one, and
takes the first empty entry otherwise, or fails for want of room. -/
class LawfulDirLayer (δ : Type) (ν φ : outParam Type) [DirLayer δ ν φ] : Prop where
  size_empty : DirLayer.size (DirLayer.empty : δ) = 0
  readi_of_le {d : δ} {k : ℕ} : DirLayer.size d ≤ k → readi d k = none
  dirlookup_some {d : δ} {name : Name ν} {x : φ} {k : ℕ} :
    dirlookup d name = some (x, k) → readi d k = some (name, x)
  dirlookup_none {d : δ} {name : Name ν} : dirlookup d name = none →
    ∀ k x, readi d k ≠ some (name, x)
  dirlink_some {d d' : δ} {name : Name ν} {x : φ} {room : Bool} :
    dirlink d name x room = some d' → dirlookup d name = none ∧
      ∃ k, readi d k = none ∧ (∀ j < k, readi d j ≠ none) ∧
        readi d' = Function.update (readi d) k (some (name, x))
  readi_writei {d : δ} {k : ℕ} : readi d k ≠ none →
    readi (writei d k) = Function.update (readi d) k none

section Entries

variable {δ ν φ : Type} [DirLayer δ ν φ] {d d' : δ} {n : ν} {x y p : φ} {k : ℕ}

/-- An entry that is neither empty nor `.` or `..`. -/
def named : Option (Name ν × φ) → Option (ν × φ)
  | some (.other n, x) => some (n, x)
  | _ => none

/-- The entries of a directory, but for `.` and `..`. -/
def entries (d : δ) : List (ν × φ) :=
  (List.range (DirLayer.size d)).filterMap fun k => named (readi d k)

/-- The entries `.` and `..` of the directory `x`. -/
structure Dots (d : δ) (x p : φ) : Prop where
  dot : readi d 0 = some (.dot, x)
  dotdot : readi d 1 = some (.dotdot, p)
  other : ∀ k name y, 2 ≤ k → readi d k = some (name, y) → ∃ n, name = .other n

/-- `d'` has the entry `e` besides those of `d`, and the same `.` and `..`. -/
structure Adds (d : δ) (e : ν × φ) (d' : δ) : Prop where
  perm : (entries d').Perm (e :: entries d)
  dots : ∀ x p, Dots d' x p ↔ Dots d x p

theorem Dots.two_le (h : Dots d x p)
    (hk : ∀ name y, readi d k = some (name, y) → ∃ n, name = .other n) : 2 ≤ k := by
  by_contra hlt
  obtain rfl | rfl : k = 0 ∨ k = 1 := by omega
  · obtain ⟨n, hn⟩ := hk .dot x h.dot
    cases hn
  · obtain ⟨n, hn⟩ := hk .dotdot p h.dotdot
    cases hn

theorem Dots.update {v : Option (Name ν × φ)} (hk : 2 ≤ k)
    (hv : ∀ name y, v = some (name, y) → ∃ n, name = .other n)
    (heq : readi d' = Function.update (readi d) k v) (h : Dots d x p) : Dots d' x p := by
  refine ⟨?_, ?_, fun j name z hj hz => ?_⟩
  · rw [heq, Function.update_of_ne (by omega)]
    exact h.dot
  · rw [heq, Function.update_of_ne (by omega)]
    exact h.dotdot
  · rw [heq] at hz
    by_cases hjk : j = k
    · rw [hjk, Function.update_self] at hz
      exact hv name z hz
    · rw [Function.update_of_ne hjk] at hz
      exact h.other j name z hj hz

theorem Dots.entries_eq_nil (h : Dots d x p)
    (hnone : ∀ k, 2 ≤ k → k < DirLayer.size d → readi d k = none) : entries d = [] := by
  refine List.filterMap_eq_nil_iff.mpr fun k hk => ?_
  match k with
  | 0 =>
      rw [h.dot]
      rfl
  | 1 =>
      rw [h.dotdot]
      rfl
  | k + 2 =>
      rw [hnone (k + 2) (Nat.le_add_left 2 k) (List.mem_range.mp hk)]
      rfl

theorem filterMap_range_of_none {α : Type} {f : ℕ → Option α} {m : ℕ}
    (h : ∀ k, m ≤ k → f k = none) (n : ℕ) :
    (List.range (m + n)).filterMap f = (List.range m).filterMap f := by
  induction n with
  | zero => rfl
  | succ n ih =>
      rw [← Nat.add_assoc, List.range_succ, List.filterMap_append, ih, List.filterMap_cons,
        h _ (Nat.le_add_right m n), List.filterMap_nil, List.append_nil]

theorem filterMap_range_update {α : Type} {f : ℕ → Option α} {a : α} {n : ℕ} (hk : k < n)
    (hnone : f k = none) : ((List.range n).filterMap (Function.update f k (some a))).Perm
      (a :: (List.range n).filterMap f) := by
  induction n with
  | zero => cases hk
  | succ n ih =>
      rw [List.range_succ, List.filterMap_append, List.filterMap_append]
      rcases Nat.lt_succ_iff_lt_or_eq.mp hk with hlt | rfl
      · have hlast : Function.update f k (some a) n = f n :=
          Function.update_of_ne (Nat.ne_of_gt hlt) ..
        rw [List.filterMap_cons, List.filterMap_cons, hlast]
        exact (ih hlt).append_right _
      · have hbefore : (List.range k).filterMap (Function.update f k (some a)) =
            (List.range k).filterMap f :=
          List.filterMap_congr fun j hj =>
            Function.update_of_ne (Nat.ne_of_lt (List.mem_range.mp hj)) ..
        have hlast : [k].filterMap (Function.update f k (some a)) = [a] :=
          List.filterMap_cons_some (Function.update_self ..)
        have hold : [k].filterMap f = [] := List.filterMap_cons_none hnone
        rw [hbefore, hlast, hold, List.append_nil]
        exact List.perm_append_singleton a _

variable [LawfulDirLayer δ ν φ]

/-- The entries are those at the first places, as many of them as one likes beyond the size. -/
theorem entries_eq (m : ℕ) :
    entries d = (List.range (DirLayer.size d + m)).filterMap fun k => named (readi d k) := by
  refine (filterMap_range_of_none (fun k hk => ?_) m).symm
  rw [LawfulDirLayer.readi_of_le hk]
  rfl

theorem entries_empty : entries (DirLayer.empty : δ) = [] := by
  rw [entries, LawfulDirLayer.size_empty]
  rfl

theorem mem_entries (h : readi d k = some (.other n, x)) : (n, x) ∈ entries d := by
  have hk : k < DirLayer.size d := by
    by_contra hle
    rw [LawfulDirLayer.readi_of_le (Nat.not_lt.mp hle)] at h
    cases h
  refine List.mem_filterMap.mpr ⟨k, List.mem_range.mpr hk, ?_⟩
  rw [h]
  rfl

theorem named_update (f : ℕ → Option (Name ν × φ)) (v : Option (Name ν × φ)) :
    (fun j => named (Function.update f k v j)) =
      Function.update (fun j => named (f j)) k (named v) := by
  funext j
  by_cases hj : j = k
  · rw [hj, Function.update_self, Function.update_self]
  · rw [Function.update_of_ne hj, Function.update_of_ne hj]

theorem entries_insert (hnone : readi d k = none)
    (h : readi d' = Function.update (readi d) k (some (.other n, x))) :
    (entries d').Perm ((n, x) :: entries d) := by
  have hlt : k < DirLayer.size d + (DirLayer.size d' + (k + 1)) := by omega
  rw [entries_eq (d := d) (DirLayer.size d' + (k + 1)),
    entries_eq (d := d') (DirLayer.size d + (k + 1)), h, named_update,
    Nat.add_left_comm (DirLayer.size d')]
  exact filterMap_range_update hlt (by rw [hnone]; rfl)

theorem entries_keep {v : Option (Name ν × φ)} (hnone : named (readi d k) = none)
    (hv : named v = none) (h : readi d' = Function.update (readi d) k v) :
    entries d' = entries d := by
  rw [entries_eq (d := d) (DirLayer.size d'), entries_eq (d := d') (DirLayer.size d), h,
    named_update, hv, ← hnone, Function.update_eq_self, Nat.add_comm]

theorem adds_of_update (hk : 2 ≤ k) (hnone : readi d k = none)
    (heq : readi d' = Function.update (readi d) k (some (.other n, y))) : Adds d (n, y) d' := by
  have hback : readi d = Function.update (readi d') k none := by
    rw [heq, Function.update_idem, ← hnone, Function.update_eq_self]
  refine ⟨entries_insert hnone heq, fun x p => ⟨?_, ?_⟩⟩
  · exact Dots.update hk (fun _ _ hv => by cases hv) hback
  · refine Dots.update hk (fun name z hv => ?_) heq
    cases hv
    exact ⟨n, rfl⟩

theorem Dots.dirlink {name : Name ν} {room : Bool} (h : Dots d x p)
    (hlink : dirlink d name y room = some d') : ∃ n, Adds d (n, y) d' := by
  obtain ⟨hlookup, k, hnone, _, heq⟩ := LawfulDirLayer.dirlink_some hlink
  have htwo : 2 ≤ k := h.two_le fun _ _ hk => by cases hnone.symm.trans hk
  cases name with
  | dot => exact absurd h.dot (LawfulDirLayer.dirlookup_none hlookup 0 x)
  | dotdot => exact absurd h.dotdot (LawfulDirLayer.dirlookup_none hlookup 1 p)
  | other n => exact ⟨n, adds_of_update htwo hnone heq⟩

theorem Dots.writei (h : Dots d x p) (hk : readi d k = some (.other n, y)) :
    Adds (writei d k) (n, y) d := by
  have hwrite : readi (DirLayer.writei d k) = Function.update (readi d) k none :=
    LawfulDirLayer.readi_writei fun hnone => by cases hk.symm.trans hnone
  have htwo : 2 ≤ k := h.two_le fun name z hz => by
    cases hk.symm.trans hz
    exact ⟨n, rfl⟩
  refine adds_of_update htwo ?_ ?_
  · rw [hwrite, Function.update_self]
  · rw [hwrite, Function.update_idem, ← hk, Function.update_eq_self]

/-- What `dirlookup` finds is the directory, the one that it is in, or one of its entries. -/
theorem Dots.dirlookup {name : Name ν} (h : Dots d x p) (hlookup : dirlookup d name = some (y, k)) :
    y = x ∨ y = p ∨ ∃ n, name = .other n ∧ readi d k = some (.other n, y) := by
  have hk := LawfulDirLayer.dirlookup_some hlookup
  cases name with
  | other n => exact Or.inr (Or.inr ⟨n, rfl, hk⟩)
  | dot =>
      match k, hk with
      | 0, hk =>
          cases h.dot.symm.trans hk
          exact Or.inl rfl
      | 1, hk => cases h.dotdot.symm.trans hk
      | k + 2, hk =>
          obtain ⟨n, hn⟩ := h.other (k + 2) _ _ (Nat.le_add_left 2 k) hk
          cases hn
  | dotdot =>
      match k, hk with
      | 0, hk => cases h.dot.symm.trans hk
      | 1, hk =>
          cases h.dotdot.symm.trans hk
          exact Or.inr (Or.inl rfl)
      | k + 2, hk =>
          obtain ⟨n, hn⟩ := h.other (k + 2) _ _ (Nat.le_add_left 2 k) hk
          cases hn

theorem dots_of_empty {d₁ d₂ : δ} {r₁ r₂ : Bool}
    (h₁ : dirlink (DirLayer.empty : δ) .dot x r₁ = some d₁)
    (h₂ : dirlink d₁ .dotdot p r₂ = some d₂) : Dots d₂ x p ∧ entries d₂ = [] := by
  have hempty : ∀ k, readi (DirLayer.empty : δ) k = none := fun k =>
    LawfulDirLayer.readi_of_le (by rw [LawfulDirLayer.size_empty]; exact Nat.zero_le k)
  obtain ⟨_, k₁, _, hfirst₁, heq₁⟩ := LawfulDirLayer.dirlink_some h₁
  obtain rfl : k₁ = 0 := by
    by_contra hne
    exact hfirst₁ 0 (Nat.pos_of_ne_zero hne) (hempty 0)
  have hother₁ : ∀ k, k ≠ 0 → readi d₁ k = none := fun k hk => by
    rw [heq₁, Function.update_of_ne hk, hempty]
  obtain ⟨_, k₂, hnone₂, hfirst₂, heq₂⟩ := LawfulDirLayer.dirlink_some h₂
  obtain rfl : k₂ = 1 := by
    have hzero : k₂ ≠ 0 := by
      rintro rfl
      rw [heq₁, Function.update_self] at hnone₂
      cases hnone₂
    by_contra hne
    exact hfirst₂ 1 (by omega) (hother₁ 1 Nat.one_ne_zero)
  refine ⟨⟨?_, ?_, fun k name y hk hy => ?_⟩, ?_⟩
  · rw [heq₂, Function.update_of_ne Nat.zero_ne_one, heq₁, Function.update_self]
  · rw [heq₂, Function.update_self]
  · rw [heq₂, Function.update_of_ne (by omega), hother₁ k (by omega)] at hy
    cases hy
  · rw [entries_keep (by rw [hnone₂]; rfl) rfl heq₂, entries_keep (by rw [hempty]; rfl) rfl heq₁,
      entries_empty]

theorem entries_dot {d₁ : δ} {r₁ : Bool}
    (h₁ : dirlink (DirLayer.empty : δ) .dot x r₁ = some d₁) : entries d₁ = [] := by
  obtain ⟨_, k, hnone, _, heq⟩ := LawfulDirLayer.dirlink_some h₁
  rw [entries_keep (by rw [hnone]; rfl) rfl heq, entries_empty]

end Entries

/-! ## A list of entries -/

/-- A directory as the list of its entries. -/
structure Dir (ν φ : Type) where
  slots : List (Option (Name ν × φ))
  deriving DecidableEq

namespace Dir

variable {ν φ : Type} [DecidableEq ν] {d d' : Dir ν φ} {name : Name ν} {x : φ} {k : ℕ}

def readi (d : Dir ν φ) (k : ℕ) : Option (Name ν × φ) := d.slots.getD k none

def dirlookup (d : Dir ν φ) (name : Name ν) : Option (φ × ℕ) :=
  (List.range d.slots.length).findSome? fun k =>
    match d.readi k with
    | some (n, x) => if n = name then some (x, k) else none
    | none => none

/-- The entry at the first empty place, which can be the one behind the last. -/
def insert (d : Dir ν φ) (e : Name ν × φ) : Dir ν φ :=
  let k := d.slots.findIdx Option.isNone
  if k < d.slots.length then ⟨d.slots.set k (some e)⟩ else ⟨d.slots ++ [some e]⟩

def dirlink (d : Dir ν φ) (name : Name ν) (x : φ) (room : Bool) : Option (Dir ν φ) :=
  match d.dirlookup name with
  | some _ => none
  | none => if room then some (d.insert (name, x)) else none

instance : DirLayer (Dir ν φ) ν φ where
  empty := ⟨[]⟩
  size d := d.slots.length
  readi := readi
  dirlookup := dirlookup
  dirlink := dirlink
  writei d k := ⟨d.slots.set k none⟩

omit [DecidableEq ν] in
theorem readi_of_le (h : d.slots.length ≤ k) : d.readi k = none := by
  rw [readi, List.getD_eq_getElem?_getD, List.getElem?_eq_none h]
  rfl

omit [DecidableEq ν] in
theorem readi_set (v : Option (Name ν × φ)) (h : k < d.slots.length) :
    (⟨d.slots.set k v⟩ : Dir ν φ).readi = Function.update d.readi k v := by
  funext j
  unfold readi
  rw [List.getD_eq_getElem?_getD, List.getElem?_set]
  by_cases hj : k = j
  · subst hj
    rw [if_pos rfl, if_pos h, Function.update_self]
    rfl
  · rw [if_neg hj, Function.update_of_ne (Ne.symm hj), List.getD_eq_getElem?_getD]

omit [DecidableEq ν] in
theorem readi_insert (d : Dir ν φ) (e : Name ν × φ) :
    ∃ k, d.readi k = none ∧ (∀ j < k, d.readi j ≠ none) ∧
      (d.insert e).readi = Function.update d.readi k (some e) := by
  have hfirst : ∀ j < d.slots.findIdx Option.isNone, d.readi j ≠ none := by
    intro j hj
    have hlen : j < d.slots.length := Nat.lt_of_lt_of_le hj List.findIdx_le_length
    have hnot := List.not_of_lt_findIdx hj
    rw [readi, List.getD_eq_getElem?_getD, List.getElem?_eq_getElem hlen, Option.getD_some]
    intro hnone
    rw [hnone] at hnot
    cases hnot
  refine ⟨d.slots.findIdx Option.isNone, ?_, hfirst, ?_⟩
  · by_cases hlt : d.slots.findIdx Option.isNone < d.slots.length
    · rw [readi, List.getD_eq_getElem?_getD, List.getElem?_eq_getElem hlt, Option.getD_some]
      exact Option.isNone_iff_eq_none.mp (List.findIdx_getElem (w := hlt))
    · exact readi_of_le (Nat.not_lt.mp hlt)
  · unfold insert
    dsimp only
    split_ifs with hlt
    · exact readi_set _ hlt
    · have heq : d.slots.findIdx Option.isNone = d.slots.length :=
        Nat.le_antisymm List.findIdx_le_length (Nat.not_lt.mp hlt)
      rw [heq]
      funext j
      unfold readi
      rw [List.getD_eq_getElem?_getD, List.getElem?_append]
      rcases Nat.lt_trichotomy j d.slots.length with hj | rfl | hj
      · rw [if_pos hj, Function.update_of_ne (Nat.ne_of_lt hj), List.getD_eq_getElem?_getD]
      · rw [if_neg (Nat.lt_irrefl _), Function.update_self, Nat.sub_self]
        rfl
      · rw [if_neg (Nat.not_lt.mpr (Nat.le_of_lt hj)), Function.update_of_ne (Nat.ne_of_gt hj),
          List.getD_eq_getElem?_getD, List.getElem?_eq_none (Nat.le_of_lt hj),
          List.getElem?_eq_none (Nat.sub_pos_of_lt hj)]

theorem dirlookup_some (h : d.dirlookup name = some (x, k)) : d.readi k = some (name, x) := by
  obtain ⟨j, _, hj⟩ := List.exists_of_findSome?_eq_some h
  cases hread : d.readi j with
  | none =>
      rw [hread] at hj
      cases hj
  | some e =>
      rw [hread] at hj
      dsimp only at hj
      split_ifs at hj with hname
      cases hj
      rw [hread, ← hname]

theorem dirlookup_none (h : d.dirlookup name = none) (k : ℕ) (x : φ) :
    d.readi k ≠ some (name, x) := by
  intro hread
  have hk : k < d.slots.length := by
    by_contra hle
    rw [readi_of_le (Nat.not_lt.mp hle)] at hread
    cases hread
  have hnone := List.findSome?_eq_none_iff.mp h k (List.mem_range.mpr hk)
  rw [hread] at hnone
  dsimp only at hnone
  rw [if_pos rfl] at hnone
  cases hnone

theorem dirlink_some {room : Bool} (h : d.dirlink name x room = some d') :
    d.dirlookup name = none ∧ d' = d.insert (name, x) := by
  unfold dirlink at h
  cases hlookup : d.dirlookup name with
  | some y =>
      rw [hlookup] at h
      cases h
  | none =>
      rw [hlookup] at h
      dsimp only at h
      split_ifs at h
      cases h
      exact ⟨rfl, rfl⟩

instance : LawfulDirLayer (Dir ν φ) ν φ where
  size_empty := rfl
  readi_of_le := readi_of_le
  dirlookup_some := dirlookup_some
  dirlookup_none := dirlookup_none
  dirlink_some {d d' name x room} h := by
    obtain ⟨hlookup, rfl⟩ := dirlink_some h
    exact ⟨hlookup, readi_insert d (name, x)⟩
  readi_writei {d k} h := by
    refine readi_set none ?_
    by_contra hle
    exact h (readi_of_le (Nat.not_lt.mp hle))

end Dir

end Links
