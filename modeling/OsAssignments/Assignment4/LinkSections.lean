import OsAssignments.Assignment4.LinkCounts

/-!
# The sections of a call

What a call knows of the inodes it refers to, and what it owes; the invariant, in two parts:
`Sound` for the counts, and `Rooted` for `.` and `..`. Then `next_section` says, once for all,
what a section can do to a state with the invariant.
-/

namespace Links

open Interleaving

section Calls

variable {δ ν φ : Type} [DirLayer δ ν φ] {inode : φ → Inode δ} {node : Inode δ} {c : Pc ν φ}
  {x : φ}

/-- The links that a call has counted for an entry that does not exist yet, or not any more. -/
def Pc.owes [DecidableEq φ] (c : Pc ν φ) (x : φ) : ℕ :=
  match c with
  | .linkParent ip | .linkEntry ip _ _ | .linkBad ip | .unlinked ip => if ip = x then 1 else 0
  | _ => 0

def Pc.Fits (inode : φ → Inode δ) : Pc ν φ → Prop
  | .user => True
  | .linkNode ip | .createFound ip _ => (inode ip).type ≠ none
  | .linkParent ip | .linkBad ip => (inode ip).type ≠ none ∧ (inode ip).type ≠ some .dir
  | .linkEntry ip dp _ => ((inode ip).type ≠ none ∧ (inode ip).type ≠ some .dir) ∧
      (inode dp).type = some .dir
  | .unlinkIn dp _ | .createIn dp _ _ => (inode dp).type = some .dir
  | .unlinkNode ip dp off => (inode ip).type ≠ none ∧ (inode dp).type = some .dir ∧
      ∃ n, readi (inode dp).data off = some (.other n, ip)
  | .unlinked ip => (inode ip).type ≠ none ∧ (inode ip).entries = []

theorem Pc.Fits.type_ne_none (h : c.Fits inode) (hx : c.Refers x) : (inode x).type ≠ none := by
  have hdir : (inode x).type = some .dir → (inode x).type ≠ none :=
    fun hd hn => absurd (hn.symm.trans hd).symm (Option.some_ne_none _)
  cases c with
  | user => exact hx.elim
  | linkNode ip | createFound ip t =>
      cases hx
      exact h
  | linkParent ip | linkBad ip | unlinked ip =>
      cases hx
      exact h.1
  | linkEntry ip dp name =>
      rcases hx with rfl | rfl
      · exact h.1.1
      · exact hdir h.2
  | unlinkIn dp name | createIn dp name t =>
      cases hx
      exact hdir h
  | unlinkNode ip dp off =>
      rcases hx with rfl | rfl
      · exact h.1
      · exact hdir h.2.1

theorem Pc.Fits.child [LawfulDirLayer δ ν φ] {ip dp : φ} {off : ℕ}
    (h : (Pc.unlinkNode ip dp off : Pc ν φ).Fits inode) : Child inode dp ip := by
  obtain ⟨_, _, n, hn⟩ := h
  exact ⟨n, mem_entries hn⟩

theorem Pc.refers_of_locks (h : c.locks = some x) : c.Refers x := by
  cases c with
  | unlinkNode ip dp off =>
      cases h
      exact Or.inr rfl
  | unlinked ip =>
      cases h
      rfl
  | _ => cases h

variable [DecidableEq φ]

theorem Pc.owes_dir (h : c.Fits inode) (hdir : (inode x).type = some .dir)
    (hc : c ≠ .unlinked x) : c.owes x = 0 := by
  cases c with
  | linkParent ip | linkBad ip =>
      refine if_neg ?_
      rintro rfl
      exact h.2 hdir
  | linkEntry ip dp name =>
      refine if_neg ?_
      rintro rfl
      exact h.1.2 hdir
  | unlinked ip =>
      refine if_neg ?_
      rintro rfl
      exact hc rfl
  | _ => rfl

theorem Pc.Fits.update (h : c.Fits inode) (htype : c.Refers x → node.type = (inode x).type)
    (hdata : c.locks = some x → node.data = (inode x).data) :
    c.Fits (Function.update inode x node) := by
  have hsame : ∀ y, c.Refers y → (Function.update inode x node y).type = (inode y).type := by
    intro y hy
    by_cases hyx : y = x
    · rw [hyx] at hy ⊢
      rw [Function.update_self, htype hy]
    · rw [Function.update_of_ne hyx]
  have hkept : ∀ y, c.locks = some y →
      (Function.update inode x node y).data = (inode y).data := by
    intro y hy
    by_cases hyx : y = x
    · rw [hyx] at hy ⊢
      rw [Function.update_self, hdata hy]
    · rw [Function.update_of_ne hyx]
  cases c with
  | user => trivial
  | linkNode ip | createFound ip t =>
      change (Function.update inode x node ip).type ≠ none
      rw [hsame ip rfl]
      exact h
  | linkParent ip | linkBad ip =>
      change (Function.update inode x node ip).type ≠ none ∧
        (Function.update inode x node ip).type ≠ some .dir
      rw [hsame ip rfl]
      exact h
  | linkEntry ip dp name =>
      change ((Function.update inode x node ip).type ≠ none ∧
        (Function.update inode x node ip).type ≠ some .dir) ∧
          (Function.update inode x node dp).type = some .dir
      rw [hsame ip (Or.inl rfl), hsame dp (Or.inr rfl)]
      exact h
  | unlinkIn dp name | createIn dp name t =>
      change (Function.update inode x node dp).type = some .dir
      rw [hsame dp rfl]
      exact h
  | unlinkNode ip dp off =>
      change (Function.update inode x node ip).type ≠ none ∧
        (Function.update inode x node dp).type = some .dir ∧
          ∃ n, readi (Function.update inode x node dp).data off = some (.other n, ip)
      rw [hsame ip (Or.inl rfl), hsame dp (Or.inr rfl), hkept dp rfl]
      exact h
  | unlinked ip =>
      change (Function.update inode x node ip).type ≠ none ∧
        Links.entries (Function.update inode x node ip).data = []
      rw [hsame ip rfl, hkept ip rfl]
      exact h

end Calls

/-- What `create` has made of a free inode: an inode with a link, and with `.` and `..` if it is
a directory, or one that is not complete. -/
structure NewInode {δ ν φ : Type} [DirLayer δ ν φ] (x dp : φ) (t : InodeType)
    (r : Inode δ × Bool) : Prop where
  type : r.1.type = some t
  entries : r.1.entries = []
  complete : r.2 = true → r.1.nlink = 1 ∧ (t = .dir → Dots r.1.data x dp)

theorem newInode_spec {δ ν φ : Type} [DirLayer δ ν φ] [LawfulDirLayer δ ν φ] (x dp : φ)
    (type : InodeType) (dot dotdot : Bool) :
    NewInode x dp type (newInode x dp type dot dotdot : Inode δ × Bool) := by
  unfold newInode
  dsimp only
  by_cases hdir : type = .dir
  · rw [if_pos hdir]
    cases hdot : dirlink (DirLayer.empty : δ) .dot x dot with
    | none => exact ⟨rfl, entries_empty, fun h => absurd h Bool.false_ne_true⟩
    | some d =>
        dsimp only
        cases hdotdot : dirlink d .dotdot dp dotdot with
        | none => exact ⟨rfl, entries_dot hdot, fun h => absurd h Bool.false_ne_true⟩
        | some d' =>
            obtain ⟨hdots, hnil⟩ := dots_of_empty hdot hdotdot
            exact ⟨rfl, hnil, fun _ => ⟨rfl, fun _ => hdots⟩⟩
  · rw [if_neg hdir]
    exact ⟨rfl, entries_empty, fun _ => ⟨rfl, fun h => absurd h hdir⟩⟩

section Steps

variable {ι δ ν φ : Type} [DirLayer δ ν φ] [DecidableEq φ] [Fintype ι] [Fintype φ]
  {root x dp ip : φ} {nlinkMax off : ℕ} {s : Fs ι δ ν φ} {i : ι} {name : Name ν}

structure Sound (root : φ) (nlinkMax : ℕ) (s : Fs ι δ ν φ) : Prop where
  tree : Tree root nlinkMax s.inode
  exact : ∀ x, excess root s.inode x = total (fun _ l => l.pc.owes x) s.party
  locks : ∀ x i, s.lock x = some i ↔ (s.party i).pc.locks = some x
  fits : ∀ i, (s.party i).pc.Fits s.inode

/-- Directories that have links, and are not being unlinked, know where they are; one that is
being unlinked has no name any more. -/
structure Rooted (root : φ) (s : Fs ι δ ν φ) : Prop where
  parents : ∀ d, (s.inode d).type = some .dir → (s.inode d).nlink ≠ 0 →
    (∀ i, (s.party i).pc ≠ .unlinked d) → Parent root s.inode d
  orphan : ∀ i x, (s.party i).pc = .unlinked x → x ≠ root ∧
    ((s.inode x).type = some .dir → nameCount s.inode x = 0)

/-- The counts are never too low. -/
theorem Sound.le_nlink (h : Sound root nlinkMax s) (x : φ) :
    nameCount s.inode x + subdirs s.inode x + (if x = root then 1 else 0) +
      total (fun _ l => l.pc.owes x) s.party = (s.inode x).nlink := by
  have hx := h.exact x
  unfold excess at hx
  omega

theorem Sound.owes_le_nlink (h : Sound root nlinkMax s) (i : ι) (x : φ) :
    (s.party i).pc.owes x ≤ (s.inode x).nlink := by
  have hle := le_total (fun _ (l : Local ν φ) => l.pc.owes x) s.party i
  have hx := h.le_nlink x
  omega

/-- An inode is being unlinked only by the process that has locked it. -/
theorem Sound.ne_unlinked (h : Sound root nlinkMax s)
    (hlock : ∀ j, s.lock x = some j → (s.party j).pc ≠ .unlinked x) (i : ι) :
    (s.party i).pc ≠ .unlinked x := by
  intro hi
  refine hlock i ((h.locks x i).mpr ?_) hi
  rw [hi]
  rfl

theorem Sound.ne_unlinked_of_free (h : Sound root nlinkMax s) (hlock : s.lock x = none) (i : ι) :
    (s.party i).pc ≠ .unlinked x :=
  h.ne_unlinked (fun j hj => by cases hlock.symm.trans hj) i

/-- Nobody unlinks the directory that another process has locked for an entry of it. -/
theorem Sound.ne_unlinked_of_held (h : Sound root nlinkMax s)
    (hpc : (s.party i).pc = .unlinkNode ip dp off) (j : ι) : (s.party j).pc ≠ .unlinked dp := by
  have hlock : s.lock dp = some i := (h.locks dp i).mpr (by rw [hpc]; rfl)
  refine h.ne_unlinked (fun k hk hc => ?_) j
  obtain rfl : i = k := Option.some_inj.mp (hlock.symm.trans hk)
  cases hpc.symm.trans hc

theorem Sound.owes_dir (h : Sound root nlinkMax s) (hdir : (s.inode x).type = some .dir)
    (hx : ∀ i, (s.party i).pc ≠ .unlinked x) :
    total (fun _ (l : Local ν φ) => l.pc.owes x) s.party = 0 :=
  total_eq_zero fun i => Pc.owes_dir (h.fits i) hdir (hx i)

theorem Sound.reach (h : Sound root nlinkMax s) (hdir : (s.inode dp).type = some .dir)
    (hlive : (s.inode dp).nlink ≠ 0) (hdp : ∀ i, (s.party i).pc ≠ .unlinked dp) :
    Reach s.inode root dp := by
  have hcount := h.le_nlink dp
  rw [h.owes_dir hdir hdp] at hcount
  by_cases hroot : dp = root
  · rw [hroot]
    exact .root
  · rw [if_neg hroot] at hcount
    by_cases hname : 0 < nameCount s.inode dp
    · obtain ⟨d, e, he, rfl⟩ := exists_entry hname
      exact .entry (h.tree.reach d (List.ne_nil_of_mem he)) he
    · have hsub : 0 < subdirs s.inode dp := by omega
      obtain ⟨e, he, _⟩ := List.countP_pos_iff.mp hsub
      exact h.tree.reach dp (List.ne_nil_of_mem he)

theorem Sound.of_free (h : Sound root nlinkMax s) (hnlink : (s.inode x).nlink = 0) :
    nameCount s.inode x = 0 ∧ x ≠ root := by
  have hcount := h.le_nlink x
  rw [hnlink] at hcount
  refine ⟨by omega, fun hx => ?_⟩
  rw [if_pos hx] at hcount
  omega

/-- What has a name in a directory has links, and is another inode; the directory has links
too. -/
theorem Sound.child (h : Sound root nlinkMax s) (hchild : Child s.inode dp ip) :
    ip ≠ dp ∧ 1 ≤ (s.inode ip).nlink ∧ (s.inode dp).nlink ≠ 0 := by
  have hname := hchild.nameCount_pos
  have hcount := h.le_nlink ip
  refine ⟨?_, by omega, fun hzero => ?_⟩
  · rintro rfl
    exact h.tree.acyclic ip (.single hchild)
  · obtain ⟨n, hn⟩ := hchild
    rw [(h.tree.fine dp).dead hzero] at hn
    cases hn

theorem Rooted.dots_of_free (hr : Rooted root s) (h : Sound root nlinkMax s)
    (hdir : (s.inode dp).type = some .dir) (hlive : (s.inode dp).nlink ≠ 0)
    (hlock : s.lock dp = none) : ∃ p, Dots (s.inode dp).data dp p := by
  obtain ⟨p, hdots, _⟩ := hr.parents dp hdir hlive (h.ne_unlinked_of_free hlock)
  exact ⟨p, hdots⟩

variable [DecidableEq ι]

/-- What a section of the call of process `i` can do to the file system. -/
inductive Section (root : φ) (nlinkMax : ℕ) (s : Fs ι δ ν φ) (i : ι) : Fs ι δ ν φ → Prop
  | stay {l : Local ν φ} : (s.party i).pc.locks = none → l.pc.locks = none →
      (∀ x, l.pc.owes x = (s.party i).pc.owes x) → l.pc.Fits s.inode →
      Section root nlinkMax s i ⟨s.inode, s.lock, Function.update s.party i l⟩
  | linkNode {ip : φ} : (s.party i).pc = .linkNode ip → (s.inode ip).type ≠ some .dir →
      (s.inode ip).nlink < nlinkMax → Section root nlinkMax s i
        ((s.setInode ip ((s.inode ip).setNlink ((s.inode ip).nlink + 1))).goto i (.linkParent ip))
  | linkEntry {ip dp : φ} {name : Name ν} {n : ν} {d : δ} :
      (s.party i).pc = .linkEntry ip dp name → s.lock dp = none → (s.inode dp).nlink ≠ 0 →
      Adds (s.inode dp).data (n, ip) d → Section root nlinkMax s i
        ((s.setInode dp ((s.inode dp).setData d)).ret i (.value 0))
  | linkBad {ip : φ} : (s.party i).pc = .linkBad ip → Section root nlinkMax s i
      ((s.setInode ip ((s.inode ip).setNlink ((s.inode ip).nlink - 1))).ret i (.value (-1)))
  | unlinkIn {ip dp : φ} {name : Name ν} {off : ℕ} : (s.party i).pc = .unlinkIn dp name →
      s.lock dp = none → (Pc.unlinkNode ip dp off : Pc ν φ).Fits s.inode →
      Section root nlinkMax s i ((s.setLock dp (some i)).goto i (.unlinkNode ip dp off))
  | notEmpty {ip dp : φ} {off : ℕ} : (s.party i).pc = .unlinkNode ip dp off →
      Section root nlinkMax s i ((s.setLock dp none).ret i (.value (-1)))
  | unlinkNode {ip dp : φ} {off : ℕ} {n : ν} : (s.party i).pc = .unlinkNode ip dp off →
      s.lock ip = none → Adds (writei (s.inode dp).data off) (n, ip) (s.inode dp).data →
      (s.inode ip).entries = [] → Section root nlinkMax s i
        ((((s.setInode dp (unlinkParent s ip dp off)).setLock dp none).setLock ip (some i)).goto i
          (.unlinked ip))
  | unlinked {ip : φ} : (s.party i).pc = .unlinked ip → Section root nlinkMax s i
      (((s.setInode ip ((s.inode ip).setNlink ((s.inode ip).nlink - 1))).setLock ip none).ret i
        (.value 0))
  | createFail {x dp : φ} {name : Name ν} {t : InodeType} {fresh : Inode δ} :
      (s.party i).pc = .createIn dp name t → (s.inode x).type = none → fresh.entries = [] →
      Section root nlinkMax s i ((s.setInode x (fresh.setNlink 0)).ret i (.inode none))
  | createEntry {x dp : φ} {name : Name ν} {t : InodeType} {n : ν} {fresh : Inode δ} {d : δ} :
      (s.party i).pc = .createIn dp name t → s.lock dp = none → (s.inode dp).nlink ≠ 0 →
      (t = .dir → (s.inode dp).nlink < nlinkMax) → (s.inode x).type = none →
      NewInode x dp t (fresh, true) → Adds (s.inode dp).data (n, x) d →
      Section root nlinkMax s i (((s.setInode x fresh).setInode dp
        (if t = .dir then
          ((s.inode dp).setData d).setNlink ((s.inode dp).nlink + 1)
        else
          (s.inode dp).setData d)).ret i (.inode (some x)))

omit [Fintype ι] [Fintype φ] in
theorem Section.stay_of {c : Pc ν φ} {l : Local ν φ} (hpc : (s.party i).pc = c)
    (hold : c.locks = none) (hnew : l.pc.locks = none) (howes : ∀ x, l.pc.owes x = c.owes x)
    (hfits : l.pc.Fits s.inode) :
    Section root nlinkMax s i ⟨s.inode, s.lock, Function.update s.party i l⟩ := by
  subst hpc
  exact .stay hold hnew howes hfits

variable {s' : Fs ι δ ν φ} {o : Outcome ν φ} [LawfulDirLayer δ ν φ]

theorem createNode_section {t : InodeType} (h : Sound root nlinkMax s) (hr : Rooted root s)
    (hpc : (s.party i).pc = .createIn dp name t) (hdir : (s.inode dp).type = some .dir)
    (hlock : s.lock dp = none) (hlive : (s.inode dp).nlink ≠ 0)
    (hroom : t = .dir → (s.inode dp).nlink < nlinkMax) (hx : (s.inode x).type = none)
    (dot dotdot entry : Bool) :
    Section root nlinkMax s i (createNode s i x dp name t dot dotdot entry) := by
  obtain ⟨p, hdots⟩ := hr.dots_of_free h hdir hlive hlock
  have hnew := newInode_spec (δ := δ) x dp t dot dotdot
  unfold createNode
  dsimp only
  generalize (newInode x dp t dot dotdot : Inode δ × Bool) = r at hnew
  obtain ⟨fresh, ok⟩ := r
  have hfail : Section root nlinkMax s i ((s.setInode x (fresh.setNlink 0)).ret i (.inode none)) :=
    .createFail hpc hx hnew.entries
  cases ok with
  | false => exact hfail
  | true =>
      rw [if_pos rfl]
      cases hlink : dirlink (s.inode dp).data name x entry with
      | none => exact hfail
      | some d =>
          obtain ⟨n, hadds⟩ := hdots.dirlink hlink
          exact .createEntry hpc hlock hlive hroom hx hnew hadds

omit [DecidableEq ι] in
theorem Sound.lookup_type (h : Sound root nlinkMax s) (hr : Rooted root s)
    (hdir : (s.inode dp).type = some .dir) (hlive : (s.inode dp).nlink ≠ 0)
    (hlock : s.lock dp = none) (hlookup : dirlookup (s.inode dp).data name = some (ip, off)) :
    (s.inode ip).type ≠ none := by
  obtain ⟨p, hdots, hparent⟩ := hr.parents dp hdir hlive (h.ne_unlinked_of_free hlock)
  have hof : (s.inode ip).type = some .dir → (s.inode ip).type ≠ none := by
    intro hd
    rw [hd]
    exact Option.some_ne_none _
  rcases hdots.dirlookup hlookup with rfl | rfl | ⟨n, _, hread⟩
  · exact hof hdir
  · rcases hparent with ⟨rfl, _⟩ | hchild
    · exact hof h.tree.root_dir
    · exact hof (h.tree.dir_of_child hchild)
  · intro hfree
    have hzero := (h.tree.fine ip).free hfree
    have hpos := (h.child ⟨n, mem_entries hread⟩).2.1
    omega

theorem link_section (h : Sound root nlinkMax s) (hr : Rooted root s)
    (hpc : (s.party i).pc = .linkNode ip ∨ (s.party i).pc = .linkParent ip ∨
      (∃ dp name, (s.party i).pc = .linkEntry ip dp name) ∨ (s.party i).pc = .linkBad ip)
    (hnext : next nlinkMax s i o = some s') : Section root nlinkMax s i s' := by
  have hfits := h.fits i
  unfold next at hnext
  rcases hpc with hpc | hpc | ⟨dp, name, hpc⟩ | hpc
  · rw [hpc] at hnext
    dsimp only at hnext
    split_ifs at hnext with hlock hfail
    · cases hnext
      exact .stay_of hpc rfl rfl (fun _ => rfl) trivial
    · cases hnext
      obtain ⟨hdir, hlt⟩ := not_or.mp hfail
      exact .linkNode hpc hdir (Nat.not_le.mp hlt)
  · rw [hpc] at hnext hfits
    cases o with
    | parent o =>
        cases o with
        | none =>
            cases hnext
            exact .stay_of hpc rfl rfl (fun _ => rfl) hfits
        | some y =>
            obtain ⟨dp, name⟩ := y
            dsimp only at hnext
            split_ifs at hnext with hdir
            cases hnext
            exact .stay_of hpc rfl rfl (fun _ => rfl) ⟨hfits, hdir⟩
    | room ok => cases hnext
    | made x dot dotdot entry => cases hnext
  · rw [hpc] at hnext hfits
    have hbad : Section root nlinkMax s i (s.goto i (.linkBad ip)) :=
      .stay_of hpc rfl rfl (fun _ => rfl) hfits.1
    cases o with
    | parent o => cases hnext
    | room ok =>
        dsimp only at hnext
        split_ifs at hnext with hlock hlive
        · cases hnext
          exact hbad
        · have hlock := not_not.mp hlock
          cases hlink : dirlink (s.inode dp).data name ip ok with
          | none =>
              rw [hlink] at hnext
              cases hnext
              exact hbad
          | some d =>
              rw [hlink] at hnext
              cases hnext
              obtain ⟨p, hdots⟩ := hr.dots_of_free h hfits.2 hlive hlock
              obtain ⟨n, hadds⟩ := hdots.dirlink hlink
              exact .linkEntry hpc hlock hlive hadds
    | made x dot dotdot entry => cases hnext
  · rw [hpc] at hnext
    dsimp only at hnext
    split_ifs at hnext with hlock
    cases hnext
    exact .linkBad hpc

theorem unlinkIn_section (h : Sound root nlinkMax s) (hpc : (s.party i).pc = .unlinkIn dp name)
    (hnext : next nlinkMax s i o = some s') : Section root nlinkMax s i s' := by
  have hfits := h.fits i
  unfold next at hnext
  rw [hpc] at hnext hfits
  have hret : ∀ r, Section root nlinkMax s i (s.ret i r) :=
    fun _ => .stay_of hpc rfl rfl (fun _ => rfl) trivial
  cases name with
  | dot | dotdot =>
      dsimp only at hnext
      split_ifs at hnext with hlock
      cases hnext
      exact hret _
  | other n =>
      dsimp only at hnext
      split_ifs at hnext with hlock
      cases hlookup : dirlookup (s.inode dp).data (.other n) with
      | none =>
          rw [hlookup] at hnext
          cases hnext
          exact hret _
      | some found =>
          obtain ⟨ip, off⟩ := found
          rw [hlookup] at hnext
          cases hnext
          have hread := LawfulDirLayer.dirlookup_some hlookup
          refine .unlinkIn hpc (not_not.mp hlock) ⟨fun hfree => ?_, hfits, n, hread⟩
          have hzero := (h.tree.fine ip).free hfree
          have hpos := (h.child ⟨n, mem_entries hread⟩).2.1
          omega

theorem unlinkNode_section (h : Sound root nlinkMax s) (hr : Rooted root s)
    (hpc : (s.party i).pc = .unlinkNode ip dp off) (hnext : next nlinkMax s i o = some s') :
    Section root nlinkMax s i s' := by
  have hfits := h.fits i
  rw [hpc] at hfits
  obtain ⟨_, hdir, n, hread⟩ := hfits
  unfold next at hnext
  rw [hpc] at hnext
  dsimp only at hnext
  split_ifs at hnext with hwait hfull
  · cases hnext
    exact .notEmpty hpc
  · cases hnext
    obtain ⟨hlock, hpos⟩ := not_or.mp hwait
    have hlock := not_not.mp hlock
    have hlive := (h.child ⟨n, mem_entries hread⟩).2.2
    obtain ⟨p, hdots, _⟩ := hr.parents dp hdir hlive (h.ne_unlinked_of_held hpc)
    refine .unlinkNode hpc hlock (hdots.writei hread) ?_
    by_cases hd : (s.inode ip).type = some .dir
    · obtain ⟨p, hdots⟩ := hr.dots_of_free h hd (by omega) hlock
      refine hdots.entries_eq_nil fun k hk hsize => ?_
      have hempty : isdirempty (s.inode ip).data = true :=
        Bool.eq_true_of_not_eq_false fun hne => hfull ⟨hd, hne⟩
      have hmem : k ∈ List.range' 2 (DirLayer.size (s.inode ip).data - 2) :=
        List.mem_range'_1.mpr ⟨hk, by omega⟩
      exact Option.isNone_iff_eq_none.mp (List.all_eq_true.mp hempty k hmem)
    · exact (h.tree.fine ip).files hd

theorem createIn_section {t : InodeType} (h : Sound root nlinkMax s) (hr : Rooted root s)
    (hpc : (s.party i).pc = .createIn dp name t) (hnext : next nlinkMax s i o = some s') :
    Section root nlinkMax s i s' := by
  have hfits := h.fits i
  have hret : ∀ r, Section root nlinkMax s i (s.ret i r) :=
    fun _ => .stay_of hpc rfl rfl (fun _ => rfl) trivial
  unfold next at hnext
  rw [hpc] at hnext hfits
  cases o with
  | parent o => cases hnext
  | room ok => cases hnext
  | made free dot dotdot entry =>
      dsimp only at hnext
      split_ifs at hnext with hlock hfail
      · cases hnext
        exact hret _
      · obtain ⟨hlive, hroom⟩ := not_or.mp hfail
        have hlock := not_not.mp hlock
        cases hlookup : dirlookup (s.inode dp).data name with
        | some found =>
            obtain ⟨ip, off⟩ := found
            rw [hlookup] at hnext
            cases hnext
            exact .stay_of hpc rfl rfl (fun _ => rfl) (h.lookup_type hr hfits hlive hlock hlookup)
        | none =>
            rw [hlookup] at hnext
            cases free with
            | none =>
                cases hnext
                exact hret _
            | some x =>
                dsimp only at hnext
                split_ifs at hnext with hx
                cases hnext
                refine createNode_section h hr hpc hfits hlock hlive (fun ht => ?_) hx dot dotdot
                  entry
                exact Nat.not_le.mp fun hge => hroom ⟨ht, hge⟩

theorem next_section (h : Sound root nlinkMax s) (hr : Rooted root s)
    (hnext : next nlinkMax s i o = some s') : Section root nlinkMax s i s' := by
  cases hpc : (s.party i).pc with
  | user =>
      unfold next at hnext
      rw [hpc] at hnext
      cases o with
      | _ => cases hnext
  | linkNode ip => exact link_section h hr (Or.inl hpc) hnext
  | linkParent ip => exact link_section h hr (Or.inr (Or.inl hpc)) hnext
  | linkEntry ip dp name =>
      exact link_section h hr (Or.inr (Or.inr (Or.inl ⟨dp, name, hpc⟩))) hnext
  | linkBad ip => exact link_section h hr (Or.inr (Or.inr (Or.inr hpc))) hnext
  | unlinkIn dp name => exact unlinkIn_section h hpc hnext
  | unlinkNode ip dp off => exact unlinkNode_section h hr hpc hnext
  | unlinked ip =>
      unfold next at hnext
      rw [hpc] at hnext
      cases hnext
      exact .unlinked hpc
  | createIn dp name t => exact createIn_section h hr hpc hnext
  | createFound ip t =>
      unfold next at hnext
      rw [hpc] at hnext
      dsimp only at hnext
      split_ifs at hnext
      · cases hnext
        exact .stay_of hpc rfl rfl (fun _ => rfl) trivial
      · cases hnext
        exact .stay_of hpc rfl rfl (fun _ => rfl) trivial

end Steps

end Links
