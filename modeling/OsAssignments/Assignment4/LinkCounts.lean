import OsAssignments.Assignment4.Links

/-!
# Link counts are exact

A consistent file system is one that `fsck` would accept: the number of links of an inode is
the number of its names, and one more for each directory in it, whose `..` it is; a directory
has one name, and the root has none; every directory that has entries can be reached from the
root. Any number of processes that link, unlink and create, in any order and with every failure
on the way, lead from one consistent file system to another.

A call in progress may have counted a link that is not there yet, or has gone already: this is
its `owes`, and `excess` is what the counts of the inodes are too high by.
-/

namespace Links

open Interleaving

section Trees

variable {δ ν φ : Type} [DirLayer δ ν φ] {inode inode' : φ → Inode δ} {root x y d : φ}
  {node : Inode δ} {nlinkMax : ℕ}

def Inode.entries (node : Inode δ) : List (ν × φ) := Links.entries node.data

@[simp] theorem Inode.setNlink_entries (node : Inode δ) (n : ℕ) :
    (node.setNlink n).entries = node.entries := rfl

/-- The names that `x` has in the directory. -/
def Inode.names [DecidableEq φ] (node : Inode δ) (x : φ) : ℕ :=
  node.entries.countP fun e => e.2 = x

/-- The names that `x` has. -/
def nameCount [DecidableEq φ] [Fintype φ] (inode : φ → Inode δ) (x : φ) : ℕ :=
  total (fun _ node => Inode.names node x) inode

/-- The directories in `d`. -/
def subdirs (inode : φ → Inode δ) (d : φ) : ℕ :=
  (inode d).entries.countP fun e => (inode e.2).type = some .dir

/-- A path of names leads from the root to the inode. -/
inductive Reach (inode : φ → Inode δ) (root : φ) : φ → Prop
  | root : Reach inode root root
  | entry {d : φ} {e : ν × φ} : Reach inode root d → e ∈ (inode d).entries →
      Reach inode root e.2

/-- What a single inode must be like. A directory without links has no entries any more, so
that no name is lost when it is freed. -/
structure Inode.Fine (nlinkMax : ℕ) (node : Inode δ) : Prop where
  free : node.type = none → node.nlink = 0
  files : node.type ≠ some .dir → node.entries = []
  dead : node.nlink = 0 → node.entries = []
  le_max : node.nlink ≤ nlinkMax

theorem subdirs_pos {e : ν × φ} (h : e ∈ (inode d).entries) (hdir : (inode e.2).type = some .dir) :
    0 < subdirs inode d :=
  List.countP_pos_iff.mpr ⟨e, h, decide_eq_true hdir⟩

theorem Reach.mono (h : ∀ d, ∀ e ∈ (inode d).entries, e ∈ (inode' d).entries)
    (hreach : Reach inode root x) : Reach inode' root x := by
  induction hreach with
  | root => exact .root
  | entry _ he ih => exact .entry ih (h _ _ he)

/-! ## Entries come and go -/

/-- In `node`, the directory `d` has the entry `e` besides the others. -/
structure Inserts (inode : φ → Inode δ) (d : φ) (e : ν × φ) (node : Inode δ) : Prop where
  adds : Adds (inode d).data e node.data
  type : node.type = (inode d).type
  nlink : node.nlink = (inode d).nlink

/-- The entry `e` of `d` is gone in `node`. -/
structure Erases (inode : φ → Inode δ) (d : φ) (e : ν × φ) (node : Inode δ) : Prop where
  adds : Adds node.data e (inode d).data
  type : node.type = (inode d).type
  nlink : node.nlink = (inode d).nlink

theorem Inserts.perm {e : ν × φ} (h : Inserts inode d e node) :
    node.entries.Perm (e :: (inode d).entries) := h.adds.perm

theorem Erases.perm {e : ν × φ} (h : Erases inode d e node) :
    (inode d).entries.Perm (e :: node.entries) := h.adds.perm

theorem Inode.Fine.insert (h : node.Fine nlinkMax) (hdir : node.type = some .dir)
    (hlive : node.nlink ≠ 0) (data : δ) : (node.setData data).Fine nlinkMax :=
  ⟨h.free, fun hfile => absurd hdir hfile, fun hzero => absurd hzero hlive, h.le_max⟩

/-- The entries `.` and `..` of a directory: itself, and a directory that names it, or the root
for the root. -/
def Parent (root : φ) (inode : φ → Inode δ) (d : φ) : Prop :=
  ∃ p, Dots (inode d).data d p ∧ (p = root ∧ d = root ∨ ∃ n, (n, d) ∈ (inode p).entries)

theorem Parent.mono (h : Parent root inode d)
    (hdots : ∀ p, Dots (inode d).data d p → Dots (inode' d).data d p)
    (hkeep : ∀ p n, (n, d) ∈ (inode p).entries → (n, d) ∈ (inode' p).entries) :
    Parent root inode' d := by
  obtain ⟨p, hp, hparent⟩ := h
  refine ⟨p, hdots p hp, hparent.imp_right ?_⟩
  rintro ⟨n, hn⟩
  exact ⟨n, hkeep p n hn⟩

variable [DecidableEq φ] {e : ν × φ}

theorem update_type (h : node.type = (inode d).type) (y : φ) :
    (Function.update inode d node y).type = (inode y).type := by
  by_cases hy : y = d
  · rw [hy, Function.update_self, h]
  · rw [Function.update_of_ne hy]

theorem Erases.inserts (h : Erases inode d e node) :
    Inserts (Function.update inode d node) d e (inode d) := by
  constructor
  · rw [Function.update_self]
    exact h.adds
  · rw [Function.update_self]
    exact h.type.symm
  · rw [Function.update_self]
    exact h.nlink.symm

theorem Erases.back (inode : φ → Inode δ) (d : φ) (node : Inode δ) :
    Function.update (Function.update inode d node) d (inode d) = inode := by
  rw [Function.update_idem, Function.update_eq_self]

theorem Inserts.subdirs_eq (h : Inserts inode d e node) (y : φ) :
    subdirs (Function.update inode d node) y =
      subdirs inode y + if y = d ∧ (inode e.2).type = some .dir then 1 else 0 := by
  unfold subdirs
  simp only [update_type h.type]
  by_cases hy : y = d
  · rw [hy, Function.update_self, h.perm.countP_eq, List.countP_cons]
    refine congrArg _ (if_congr ?_ rfl rfl)
    rw [decide_eq_true_iff]
    exact (and_iff_right rfl).symm
  · rw [Function.update_of_ne hy, if_neg fun hc => hy hc.1, Nat.add_zero]

/-! ## Trees -/

variable [Fintype φ]

/-- The shape of the tree. -/
structure Tree (root : φ) (nlinkMax : ℕ) (inode : φ → Inode δ) : Prop where
  fine : ∀ x, (inode x).Fine nlinkMax
  root_dir : (inode root).type = some .dir
  once : ∀ x, (inode x).type = some .dir →
    nameCount inode x + (if x = root then 1 else 0) ≤ 1
  reach : ∀ d, (inode d).entries ≠ [] → Reach inode root d

/-- By how much the number of links of `x` is too high. -/
def excess (root : φ) (inode : φ → Inode δ) (x : φ) : ℤ :=
  (inode x).nlink - (nameCount inode x + subdirs inode x + if x = root then 1 else 0 : ℕ)

/-- What `fsck` accepts. -/
structure Consistent (root : φ) (nlinkMax : ℕ) (inode : φ → Inode δ) : Prop
    extends Tree root nlinkMax inode where
  parents : ∀ d, (inode d).type = some .dir → (inode d).nlink ≠ 0 → Parent root inode d
  exact : ∀ x, (inode x).nlink =
    nameCount inode x + subdirs inode x + if x = root then 1 else 0

/-! ## Names -/

theorem nameCount_pos {e : ν × φ} (h : e ∈ (inode d).entries) : 0 < nameCount inode e.2 := by
  refine lt_of_lt_of_le ?_ (le_total (fun _ node => Inode.names node e.2) inode d)
  exact List.countP_pos_iff.mpr ⟨e, h, decide_eq_true rfl⟩

theorem exists_entry (h : 0 < nameCount inode x) : ∃ d, ∃ e ∈ (inode d).entries, e.2 = x := by
  by_contra hno
  refine absurd (total_eq_zero fun d => ?_) (Nat.ne_of_gt h)
  refine List.countP_eq_zero.mpr fun e he hx => hno ⟨d, e, he, of_decide_eq_true hx⟩

theorem Reach.named (h : Reach inode root x) : x = root ∨ 0 < nameCount inode x := by
  cases h with
  | root => exact Or.inl rfl
  | entry _ he => exact Or.inr (nameCount_pos he)

/-! ## Directories in directories -/

/-- The inode `x` has a name in the directory `d`. -/
def Child (inode : φ → Inode δ) (d x : φ) : Prop := ∃ n, (n, x) ∈ (inode d).entries

theorem Child.nameCount_pos (h : Child inode d x) : 0 < nameCount inode x := by
  obtain ⟨n, hn⟩ := h
  exact Links.nameCount_pos hn

theorem Tree.dir_of_child (h : Tree root nlinkMax inode) (hchild : Child inode d x) :
    (inode d).type = some .dir := by
  by_contra hfile
  obtain ⟨n, hn⟩ := hchild
  rw [(h.fine d).files hfile] at hn
  cases hn

/-- A directory is in one directory only. -/
theorem Tree.eq_of_child (h : Tree root nlinkMax inode) (hdir : (inode x).type = some .dir)
    (hd : Child inode d x) (hy : Child inode y x) : y = d := by
  by_contra hne
  have hnames : ∀ c, Child inode c x → 0 < (inode c).names x := fun c ⟨n, hn⟩ =>
    List.countP_pos_iff.mpr ⟨(n, x), hn, decide_eq_true rfl⟩
  have hsum := add_le_total (fun _ node => Inode.names node x) inode hne
  have honce := h.once x hdir
  have hd := hnames d hd
  have hy := hnames y hy
  change _ ≤ nameCount inode x at hsum
  omega

theorem Tree.acyclic (h : Tree root nlinkMax inode) (x : φ) :
    ¬ Relation.TransGen (Child inode) x x := by
  have hnone : ∀ y, Reach inode root y → ¬ Relation.TransGen (Child inode) y y := by
    intro y hy
    induction hy with
    | root =>
        intro hcycle
        obtain ⟨d, _, hd⟩ := Relation.TransGen.tail'_iff.mp hcycle
        have honce := h.once root h.root_dir
        have hpos := hd.nameCount_pos
        rw [if_pos rfl] at honce
        omega
    | @entry d e _ he ih =>
        intro hcycle
        -- the way back comes through the only directory that `e` is in
        obtain ⟨b, hto, hb⟩ := Relation.TransGen.tail'_iff.mp hcycle
        obtain ⟨c, hc, _⟩ := Relation.TransGen.head'_iff.mp hcycle
        have hd : Child inode d e.2 := ⟨e.1, he⟩
        obtain rfl : b = d := h.eq_of_child (h.dir_of_child hc) hd hb
        exact ih (.head' hd hto)
  intro hcycle
  obtain ⟨c, ⟨n, hn⟩, _⟩ := Relation.TransGen.head'_iff.mp hcycle
  exact hnone x (h.reach x (List.ne_nil_of_mem hn)) hcycle

/-! ## A change of one inode -/

theorem nameCount_update (inode : φ → Inode δ) (d x : φ) (node : Inode δ) :
    nameCount (Function.update inode d node) x + (inode d).names x =
      nameCount inode x + node.names x :=
  total_update (fun _ node => Inode.names node x) inode d node

theorem nameCount_touch (h : node.entries = (inode x).entries) (y : φ) :
    nameCount (Function.update inode x node) y = nameCount inode y := by
  have hupdate := nameCount_update inode x y node
  unfold Inode.names at hupdate
  rw [h] at hupdate
  exact Nat.add_right_cancel hupdate

/-- The inode `x` changes, but not its entries, and its type only if it has no name. -/
theorem subdirs_touch (h : node.entries = (inode x).entries)
    (htype : node.type = (inode x).type ∨ nameCount inode x = 0) (d : φ) :
    subdirs (Function.update inode x node) d = subdirs inode d := by
  have hentries : (Function.update inode x node d).entries = (inode d).entries := by
    by_cases hd : d = x
    · rw [hd, Function.update_self, h]
    · rw [Function.update_of_ne hd]
  unfold subdirs
  rw [hentries]
  refine List.countP_congr fun e he => ?_
  have hsame : (Function.update inode x node e.2).type = (inode e.2).type := by
    by_cases hx : e.2 = x
    · rcases htype with htype | hzero
      · rw [hx, Function.update_self, htype]
      · have hpos := nameCount_pos he
        rw [hx] at hpos
        omega
    · rw [Function.update_of_ne hx]
  rw [hsame]

theorem excess_touch (h : node.entries = (inode x).entries)
    (htype : node.type = (inode x).type ∨ nameCount inode x = 0) (y : φ) :
    excess root (Function.update inode x node) y =
      excess root inode y + if y = x then (node.nlink : ℤ) - (inode x).nlink else 0 := by
  unfold excess
  rw [nameCount_touch h, subdirs_touch h htype]
  by_cases hy : y = x
  · rw [hy, Function.update_self, if_pos rfl]
    omega
  · rw [Function.update_of_ne hy, if_neg hy, add_zero]

theorem Tree.touch (ht : Tree root nlinkMax inode) (h : node.entries = (inode x).entries)
    (htype : node.type = (inode x).type ∨ nameCount inode x = 0) (hfine : node.Fine nlinkMax)
    (hroot : x = root → node.type = some .dir) :
    Tree root nlinkMax (Function.update inode x node) := by
  have hentries : ∀ d, (Function.update inode x node d).entries = (inode d).entries := by
    intro d
    by_cases hd : d = x
    · rw [hd, Function.update_self, h]
    · rw [Function.update_of_ne hd]
  constructor
  · intro y
    by_cases hy : y = x
    · rw [hy, Function.update_self]
      exact hfine
    · rw [Function.update_of_ne hy]
      exact ht.fine y
  · by_cases hx : root = x
    · rw [← hx, Function.update_self]
      exact hroot hx.symm
    · rw [Function.update_of_ne hx]
      exact ht.root_dir
  · intro y hy
    rw [nameCount_touch h]
    by_cases hyx : y = x
    · rw [hyx] at hy ⊢
      rw [Function.update_self] at hy
      rcases htype with htype | hzero
      · exact ht.once x (htype ▸ hy)
      · rw [hzero]
        split_ifs
        · exact le_rfl
        · exact Nat.zero_le 1
    · rw [Function.update_of_ne hyx] at hy
      exact ht.once y hy
  · intro d hd
    rw [hentries] at hd
    exact (ht.reach d hd).mono fun c e he => by rwa [hentries]

theorem nameCount_insert (h : node.entries.Perm (e :: (inode d).entries)) (y : φ) :
    nameCount (Function.update inode d node) y = nameCount inode y + if y = e.2 then 1 else 0 := by
  have hupdate := nameCount_update inode d y node
  unfold Inode.names at hupdate
  rw [h.countP_eq, List.countP_cons] at hupdate
  by_cases hy : y = e.2
  · rw [if_pos (decide_eq_true hy.symm)] at hupdate
    rw [if_pos hy]
    omega
  · rw [if_neg (by simpa using Ne.symm hy)] at hupdate
    rw [if_neg hy]
    omega

theorem nameCount_erase (h : (inode d).entries.Perm (e :: node.entries)) (y : φ) :
    nameCount (Function.update inode d node) y + (if y = e.2 then 1 else 0) =
      nameCount inode y := by
  have hback : (inode d).entries.Perm (e :: (Function.update inode d node d).entries) := by
    rw [Function.update_self]
    exact h
  rw [← nameCount_insert hback, Function.update_idem, Function.update_eq_self]

theorem Inserts.excess_eq (h : Inserts inode d e node) (y : φ) :
    excess root (Function.update inode d node) y = excess root inode y -
      ((if y = e.2 then 1 else 0) + if y = d ∧ (inode e.2).type = some .dir then 1 else 0 : ℕ) := by
  have hnlink : (Function.update inode d node y).nlink = (inode y).nlink := by
    by_cases hy : y = d
    · rw [hy, Function.update_self, h.nlink]
    · rw [Function.update_of_ne hy]
  unfold excess
  rw [hnlink, nameCount_insert h.perm, h.subdirs_eq]
  omega

theorem Inserts.tree (h : Inserts inode d e node) (ht : Tree root nlinkMax inode)
    (hfine : node.Fine nlinkMax) (hd : Reach inode root d)
    (hnew : (inode e.2).type = some .dir → nameCount inode e.2 = 0 ∧ e.2 ≠ root) :
    Tree root nlinkMax (Function.update inode d node) := by
  have hmono : ∀ c, ∀ x ∈ (inode c).entries, x ∈ (Function.update inode d node c).entries := by
    intro c x hx
    by_cases hc : c = d
    · rw [hc] at hx
      rw [hc, Function.update_self]
      exact h.perm.mem_iff.mpr (List.mem_cons_of_mem _ hx)
    · rw [Function.update_of_ne hc]
      exact hx
  constructor
  · intro y
    by_cases hy : y = d
    · rw [hy, Function.update_self]
      exact hfine
    · rw [Function.update_of_ne hy]
      exact ht.fine y
  · rw [update_type h.type]
    exact ht.root_dir
  · intro y hy
    rw [update_type h.type] at hy
    rw [nameCount_insert h.perm]
    by_cases hye : y = e.2
    · rw [hye] at hy ⊢
      obtain ⟨hzero, hne⟩ := hnew hy
      rw [hzero, if_pos rfl, if_neg hne]
    · rw [if_neg hye]
      exact ht.once y hy
  · intro c hc
    by_cases hcd : c = d
    · rw [hcd]
      exact hd.mono hmono
    · rw [Function.update_of_ne hcd] at hc
      exact (ht.reach c hc).mono hmono

theorem Erases.excess_eq (h : Erases inode d e node) (y : φ) :
    excess root (Function.update inode d node) y = excess root inode y +
      ((if y = e.2 then 1 else 0) + if y = d ∧ (inode e.2).type = some .dir then 1 else 0 : ℕ) := by
  have hback : excess root _ y = _ := h.inserts.excess_eq y
  rw [Erases.back, update_type h.type] at hback
  omega

theorem Erases.tree (h : Erases inode d e node) (ht : Tree root nlinkMax inode)
    (hfine : node.Fine nlinkMax) (hempty : (inode e.2).entries = []) :
    Tree root nlinkMax (Function.update inode d node) := by
  have hle : ∀ y, nameCount (Function.update inode d node) y ≤ nameCount inode y := by
    intro y
    rw [← nameCount_erase h.perm y]
    exact Nat.le_add_right _ _
  have hold : ∀ c, (Function.update inode d node c).entries ≠ [] → (inode c).entries ≠ [] := by
    intro c hc
    by_cases hcd : c = d
    · intro hnil
      rw [hcd] at hnil
      have hperm := h.perm
      rw [hnil] at hperm
      cases hperm.nil_eq
    · rw [Function.update_of_ne hcd] at hc
      exact hc
  -- a path can lose its last step only
  have hreach : ∀ c, Reach inode root c →
      Reach (Function.update inode d node) root c ∨ c = e.2 := by
    intro c hc
    induction hc with
    | root => exact Or.inl .root
    | @entry b f hb hf ih =>
        rcases ih with ih | ih
        · by_cases hbd : b = d
          · rw [hbd] at hf ih
            rcases List.mem_cons.mp (h.perm.mem_iff.mp hf) with heq | hmem
            · exact Or.inr (congrArg Prod.snd heq)
            · refine Or.inl (.entry ih ?_)
              rw [Function.update_self]
              exact hmem
          · refine Or.inl (.entry ih ?_)
            rw [Function.update_of_ne hbd]
            exact hf
        · rw [ih, hempty] at hf
          cases hf
  constructor
  · intro y
    by_cases hy : y = d
    · rw [hy, Function.update_self]
      exact hfine
    · rw [Function.update_of_ne hy]
      exact ht.fine y
  · rw [update_type h.type]
    exact ht.root_dir
  · intro y hy
    rw [update_type h.type] at hy
    exact (Nat.add_le_add_right (hle y) _).trans (ht.once y hy)
  · intro c hc
    have hc' := hold c hc
    refine (hreach c (ht.reach c hc')).resolve_right fun heq => ?_
    rw [heq] at hc'
    exact hc' hempty

end Trees

end Links
