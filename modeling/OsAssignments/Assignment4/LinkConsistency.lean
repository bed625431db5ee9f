import Mathlib.Data.Fintype.Option
import OsAssignments.Assignment4.LinkSafety

/-!
# The file system stays consistent

Each section of `sys_link`, `sys_unlink` and `create` also keeps `.` and `..` right. So whenever
nobody is in such a call, the file system is consistent.
-/

namespace Links

open Interleaving

section Steps

variable {ι δ ν φ : Type} [DirLayer δ ν φ] [DecidableEq φ] [Fintype ι] [Fintype φ]
  {root x dp ip d : φ} {nlinkMax off : ℕ} {s s' : Fs ι δ ν φ} {i : ι} {l : Local ν φ} {n : ν}
  {inode : φ → Inode δ} {lock : φ → Option ι} {party : ι → Local ν φ}

omit [Fintype ι] in
theorem Rooted.parent (h : Rooted root s) (hdir : (s.inode d).type = some .dir)
    (hlive : (s.inode d).nlink ≠ 0) (hfree : ∀ j, (s.party j).pc ≠ .unlinked d)
    (hdots : ∀ p, Dots (s.inode d).data d p → Dots (inode d).data d p)
    (hkeep : ∀ p n, (n, d) ∈ (s.inode p).entries → (n, d) ∈ (inode p).entries) :
    Parent root inode d :=
  (h.parents d hdir hlive hfree).mono hdots hkeep

/-- The call of `i` is the only one that owes a link of the directory that it unlinks. -/
theorem Sound.owes_unlinked (h : Sound root nlinkMax s) (hpc : (s.party i).pc = .unlinked ip)
    (hdir : (s.inode ip).type = some .dir) :
    total (fun _ (l : Local ν φ) => l.pc.owes ip) s.party = 1 := by
  classical
  have hupdate := total_update (fun _ (l : Local ν φ) => l.pc.owes ip) s.party i
    ⟨.user, .value 0⟩
  have hlock : ∀ j, (s.party j).pc = .unlinked ip → s.lock ip = some j := fun j hj =>
    (h.locks ip j).mpr (by rw [hj]; rfl)
  have hothers : total (fun _ (l : Local ν φ) => l.pc.owes ip)
      (Function.update s.party i ⟨.user, .value 0⟩) = 0 := by
    refine total_eq_zero fun j => ?_
    by_cases hj : j = i
    · rw [hj, Function.update_self]
      rfl
    · rw [Function.update_of_ne hj]
      refine Pc.owes_dir (h.fits j) hdir fun hc => hj ?_
      exact Option.some_inj.mp ((hlock j hc).symm.trans (hlock i hpc))
  have hone : (s.party i).pc.owes ip = 1 := by
    rw [hpc]
    exact if_pos rfl
  have hzero : (Pc.user : Pc ν φ).owes ip = 0 := rfl
  rw [hothers, hone, hzero] at hupdate
  omega

omit [Fintype ι] in
theorem Rooted.update (h : Rooted root s)
    (hparents : ∀ d, (inode d).type = some .dir → (inode d).nlink ≠ 0 →
      (∀ j, (party j).pc ≠ .unlinked d) → Parent root inode d)
    (hothers : ∀ j y, (s.party j).pc = .unlinked y → (inode y).type = some .dir →
      (s.inode y).type = some .dir ∧ nameCount inode y ≤ nameCount s.inode y)
    (hparty : ∀ j y, (party j).pc = .unlinked y → (s.party j).pc = .unlinked y ∨
      y ≠ root ∧ ((inode y).type = some .dir → nameCount inode y = 0)) :
    Rooted root ⟨inode, lock, party⟩ := by
  refine ⟨hparents, fun j y hy => ?_⟩
  rcases hparty j y hy with hold | hnew
  · obtain ⟨hne, hzero⟩ := h.orphan j y hold
    refine ⟨hne, fun hdir => ?_⟩
    obtain ⟨hold, hle⟩ := hothers j y hold hdir
    rw [hzero hold] at hle
    exact Nat.le_zero.mp hle
  · exact hnew

variable [DecidableEq ι]

omit [DirLayer δ ν φ] [Fintype ι] [Fintype φ] [DecidableEq φ] in
theorem unlinked_of_update {j : ι} {y : φ} (hnew : ∀ y, l.pc ≠ .unlinked y)
    (h : (Function.update s.party i l j).pc = .unlinked y) : (s.party j).pc = .unlinked y := by
  by_cases hj : j = i
  · rw [hj, Function.update_self] at h
    exact absurd h (hnew y)
  · rwa [Function.update_of_ne hj] at h

omit [DirLayer δ ν φ] [Fintype ι] [Fintype φ] [DecidableEq φ] in
theorem ne_unlinked_of_update (hold : (s.party i).pc ≠ .unlinked d)
    (h : ∀ j, (Function.update s.party i l j).pc ≠ .unlinked d) (j : ι) :
    (s.party j).pc ≠ .unlinked d := by
  by_cases hj : j = i
  · rw [hj]
    exact hold
  · have hother := h j
    rwa [Function.update_of_ne hj] at hother

omit [Fintype ι] in
theorem Rooted.stay (h : Rooted root s) (hold : ∀ x, (s.party i).pc ≠ .unlinked x)
    (hnew : ∀ x, l.pc ≠ .unlinked x) :
    Rooted root ⟨s.inode, lock, Function.update s.party i l⟩ :=
  h.update (fun d hdir hlive hfree => h.parents d hdir hlive (ne_unlinked_of_update (hold d) hfree))
    (fun _ _ _ hdir => ⟨hdir, le_rfl⟩) fun _ _ hy => Or.inl (unlinked_of_update hnew hy)

omit [Fintype ι] [DecidableEq ι] in
/-- An inode changes, but not its entries. If it is a directory then, it has lost its links. -/
theorem Rooted.touch (h : Rooted root s) {node : Inode δ}
    (hentries : node.entries = (s.inode x).entries)
    (hdead : node.type = some .dir → node.nlink = 0)
    (htype : node.type = (s.inode x).type ∨ ∀ j, ¬ (s.party j).pc.Refers x)
    (hfree : ∀ d, d ≠ x → (∀ j, (party j).pc ≠ .unlinked d) → ∀ j, (s.party j).pc ≠ .unlinked d)
    (hparty : ∀ j y, (party j).pc = .unlinked y → (s.party j).pc = .unlinked y) :
    Rooted root ⟨Function.update s.inode x node, lock, party⟩ := by
  refine h.update (fun d hdir hlive hnot => ?_) (fun j y hy hdir => ⟨?_, ?_⟩)
    fun j y hy => Or.inl (hparty j y hy)
  · have hd : d ≠ x := by
      rintro rfl
      rw [Function.update_self] at hdir hlive
      exact hlive (hdead hdir)
    rw [Function.update_of_ne hd] at hdir hlive
    refine h.parent hdir hlive (hfree d hd hnot) (fun p hp => ?_) fun p n hn => ?_
    · rw [Function.update_of_ne hd]
      exact hp
    · by_cases hp : p = x
      · rw [hp, Function.update_self, hentries, ← hp]
        exact hn
      · rw [Function.update_of_ne hp]
        exact hn
  · by_cases hyx : y = x
    · rcases htype with htype | hrefers
      · rw [hyx, Function.update_self, htype] at hdir
        rw [hyx]
        exact hdir
      · refine absurd ?_ (hrefers j)
        rw [hy]
        exact hyx
    · rw [Function.update_of_ne hyx] at hdir
      exact hdir
  · exact (nameCount_touch hentries y).le

omit [DecidableEq ι] in
theorem Rooted.last (h : Rooted root s) (hs : Sound root nlinkMax s)
    (hpc : (s.party i).pc = .unlinked ip) (hdir : (s.inode ip).type = some .dir) :
    (s.inode ip).nlink = 1 := by
  have hfits := hs.fits i
  rw [hpc] at hfits
  obtain ⟨hroot, hname⟩ := h.orphan i ip hpc
  have hsub : subdirs s.inode ip = 0 := by
    unfold subdirs
    rw [hfits.2]
    rfl
  have hcount := hs.le_nlink ip
  rw [hs.owes_unlinked hpc hdir, hname hdir, hsub, if_neg hroot] at hcount
  exact hcount.symm

omit [Fintype ι] in
theorem Rooted.insert (h : Rooted root s) {node : Inode δ} {e : ν × φ}
    (hinserts : Inserts s.inode d e node) (hfile : (s.inode e.2).type ≠ some .dir)
    (hold : ∀ x, (s.party i).pc ≠ .unlinked x) (hnew : ∀ x, l.pc ≠ .unlinked x) :
    Rooted root ⟨Function.update s.inode d node, lock, Function.update s.party i l⟩ := by
  have hother : ∀ y, (Function.update s.inode d node y).nlink = (s.inode y).nlink ∧
      ∀ p, Dots (s.inode y).data y p → Dots (Function.update s.inode d node y).data y p := by
    intro y
    by_cases hy : y = d
    · rw [hy, Function.update_self]
      exact ⟨hinserts.nlink, fun p hp => (hinserts.adds.dots d p).mpr hp⟩
    · rw [Function.update_of_ne hy]
      exact ⟨rfl, fun _ hp => hp⟩
  refine h.update (fun c hdir hlive hfree => ?_) (fun j y _ hdir => ?_)
    fun _ _ hy => Or.inl (unlinked_of_update hnew hy)
  · rw [update_type hinserts.type] at hdir
    obtain ⟨hnlink, hdots⟩ := hother c
    rw [hnlink] at hlive
    refine h.parent hdir hlive (ne_unlinked_of_update (hold c) hfree) hdots fun p n hn => ?_
    by_cases hp : p = d
    · rw [hp] at hn
      rw [hp, Function.update_self]
      exact hinserts.perm.mem_iff.mpr (List.mem_cons_of_mem _ hn)
    · rw [Function.update_of_ne hp]
      exact hn
  · rw [update_type hinserts.type] at hdir
    have hye : y ≠ e.2 := by
      rintro rfl
      exact hfile hdir
    rw [nameCount_insert hinserts.perm, if_neg hye]
    exact ⟨hdir, le_rfl⟩

/-- A new inode with its name; if it is a directory, with its `.` and `..` too. -/
theorem Rooted.createEntry (h : Rooted root s) (hs : Sound root nlinkMax s) {t : InodeType}
    {fresh parent : Inode δ} {data : δ} {m : ℕ} (hlive : (s.inode dp).nlink ≠ 0)
    (hdp : (s.inode dp).type = some .dir) (hx : (s.inode x).type = none)
    (hnew : NewInode x dp t (fresh, true)) (hadds : Adds (s.inode dp).data (n, x) data)
    (hparent : parent = ((s.inode dp).setData data).setNlink m)
    (hold : ∀ y, (s.party i).pc ≠ .unlinked y) (hl : ∀ y, l.pc ≠ .unlinked y) :
    Rooted root ⟨Function.update (Function.update s.inode x fresh) dp parent, lock,
      Function.update s.party i l⟩ := by
  have hne : dp ≠ x := by
    rintro rfl
    cases hx.symm.trans hdp
  have hzero : (s.inode x).entries = [] :=
    (hs.tree.fine x).dead ((hs.tree.fine x).free hx)
  obtain ⟨htype, hnil, hcomplete⟩ := hnew
  obtain ⟨_, hdots⟩ := hcomplete rfl
  dsimp only at htype hnil hdots
  set inode' := Function.update (Function.update s.inode x fresh) dp parent with hinode
  have hnode : inode' dp = parent := Function.update_self ..
  have hfresh : inode' x = fresh := by
    rw [hinode, Function.update_of_ne hne.symm, Function.update_self]
  have hother : ∀ y, y ≠ dp → y ≠ x → inode' y = s.inode y := by
    intro y hyd hyx
    rw [hinode, Function.update_of_ne hyd, Function.update_of_ne hyx]
  have hentries : parent.entries.Perm ((n, x) :: (s.inode dp).entries) := by
    rw [hparent]
    exact hadds.perm
  have hperm : parent.entries.Perm ((n, x) :: (Function.update s.inode x fresh dp).entries) := by
    rw [Function.update_of_ne hne]
    exact hentries
  have hcount : ∀ y, y ≠ x → nameCount inode' y = nameCount s.inode y := by
    intro y hy
    rw [hinode, nameCount_insert hperm, if_neg hy]
    exact nameCount_touch (hnil.trans hzero.symm) y
  have hsame : ∀ y, y ≠ x → (inode' y).type = (s.inode y).type ∧
      (∀ p, Dots (s.inode y).data y p → Dots (inode' y).data y p) ∧
        ((inode' y).nlink ≠ 0 → (s.inode y).nlink ≠ 0) := by
    intro y hy
    by_cases hyd : y = dp
    · rw [hyd, hnode, hparent]
      exact ⟨rfl, fun p hp => (hadds.dots dp p).mpr hp, fun _ => hlive⟩
    · rw [hother y hyd hy]
      exact ⟨rfl, fun _ hp => hp, fun h => h⟩
  refine h.update (fun c hdir hlive' hfree => ?_) (fun j y hy hdir => ?_) fun _ _ hy =>
    Or.inl (unlinked_of_update hl hy)
  · by_cases hc : c = x
    · rw [hc, hfresh] at hdir
      rw [hc]
      refine ⟨dp, ?_, Or.inr ⟨n, ?_⟩⟩
      · rw [hfresh]
        exact hdots (Option.some_inj.mp (htype.symm.trans hdir))
      · rw [hnode]
        exact hentries.mem_iff.mpr List.mem_cons_self
    · obtain ⟨hctype, hcdots, hcnlink⟩ := hsame c hc
      rw [hctype] at hdir
      refine h.parent hdir (hcnlink hlive') (ne_unlinked_of_update (hold c) hfree) hcdots
        fun p n' hn => ?_
      by_cases hpd : p = dp
      · rw [hpd] at hn
        rw [hpd, hnode]
        exact hentries.mem_iff.mpr (List.mem_cons_of_mem _ hn)
      · by_cases hpx : p = x
        · rw [hpx, hzero] at hn
          cases hn
        · rw [hother p hpd hpx]
          exact hn
  · have hyx : y ≠ x := by
      rintro rfl
      have hfits := hs.fits j
      rw [hy] at hfits
      exact hfits.1 hx
    rw [(hsame y hyx).1] at hdir
    exact ⟨hdir, (hcount y hyx).le⟩

theorem Rooted.unlinkNode (h : Rooted root s) (hs : Sound root nlinkMax s)
    (hold : ∀ y, (s.party i).pc ≠ .unlinked y)
    (hadds : Adds (writei (s.inode dp).data off) (n, ip) (s.inode dp).data) :
    Rooted root ((((s.setInode dp (unlinkParent s ip dp off)).setLock dp none).setLock ip
      (some i)).goto i (.unlinked ip)) := by
  obtain ⟨m, hm⟩ := unlinkParent_eq s ip dp off
  rw [hm]
  set node := ((s.inode dp).setData (writei (s.inode dp).data off)).setNlink m with hnode
  have hperm : (s.inode dp).entries.Perm ((n, ip) :: node.entries) := hadds.perm
  have hlive := (hs.child ⟨n, hperm.mem_iff.mpr List.mem_cons_self⟩).2.2
  have htype : node.type = (s.inode dp).type := rfl
  have hcount : ∀ y, nameCount (Function.update s.inode dp node) y + (if y = ip then 1 else 0) =
      nameCount s.inode y := nameCount_erase hperm
  change Rooted root ⟨Function.update s.inode dp node,
    Function.update (Function.update s.lock dp none) ip (some i),
    Function.update s.party i ⟨.unlinked ip, _⟩⟩
  refine h.update (fun c hdir hlive' hfree => ?_) (fun j y _ hdir => ?_) fun j y hy => ?_
  · rw [update_type htype] at hdir
    have hc : c ≠ ip := by
      rintro rfl
      refine hfree i ?_
      rw [Function.update_self]
    have hother : (s.inode c).nlink ≠ 0 ∧ ∀ p, Dots (s.inode c).data c p →
        Dots (Function.update s.inode dp node c).data c p := by
      by_cases hcd : c = dp
      · rw [hcd, Function.update_self]
        exact ⟨hlive, fun p hp => (hadds.dots dp p).mp hp⟩
      · rw [Function.update_of_ne hcd] at hlive' ⊢
        exact ⟨hlive', fun _ hp => hp⟩
    refine h.parent hdir hother.1 (ne_unlinked_of_update (hold c) hfree) hother.2 fun p n' hn => ?_
    by_cases hp : p = dp
    · rw [hp] at hn
      rw [hp, Function.update_self]
      refine (List.mem_cons.mp (hperm.mem_iff.mp hn)).resolve_left fun heq => hc ?_
      exact congrArg Prod.snd heq
    · rw [Function.update_of_ne hp]
      exact hn
  · rw [update_type htype] at hdir
    exact ⟨hdir, (Nat.le_add_right _ _).trans (hcount y).le⟩
  · by_cases hj : j = i
    swap
    · rw [Function.update_of_ne hj] at hy
      exact Or.inl hy
    rw [hj, Function.update_self] at hy
    cases hy
    have hip := hcount ip
    rw [if_pos rfl] at hip
    refine Or.inr ⟨?_, fun hdir => ?_⟩
    · rintro rfl
      have honce := hs.tree.once ip hs.tree.root_dir
      rw [if_pos rfl] at honce
      omega
    · rw [update_type htype] at hdir
      have honce := hs.tree.once ip hdir
      omega

omit [DirLayer δ ν φ] [Fintype ι] [Fintype φ] [DecidableEq φ] [DecidableEq ι] in
theorem Pc.ne_unlinked {c : Pc ν φ} (h : ∀ x, c.locks ≠ some x) (x : φ) : c ≠ .unlinked x := by
  rintro rfl
  exact h x rfl

theorem Section.rooted (h : Rooted root s) (hs : Sound root nlinkMax s)
    (hsection : Section root nlinkMax s i s') : Rooted root s' := by
  have hnil : ∀ {x}, (s.inode x).type = none → (s.inode x).entries = [] :=
    fun hx => (hs.tree.fine _).dead ((hs.tree.fine _).free hx)
  have hother : ∀ {c : Pc ν φ}, (s.party i).pc = c → (∀ y, c ≠ .unlinked y) →
      ∀ y, (s.party i).pc ≠ .unlinked y := fun hpc hc y => hpc ▸ hc y
  cases hsection with
  | stay hold hnew _ _ =>
      refine h.stay (Pc.ne_unlinked fun x hx => ?_) (Pc.ne_unlinked fun x hx => ?_)
      · cases hold.symm.trans hx
      · cases hnew.symm.trans hx
  | linkNode hpc hdir _ =>
      have hold := hother hpc fun y hy => by cases hy
      exact h.touch rfl (fun hd => absurd hd hdir) (Or.inl rfl)
        (fun d _ => ne_unlinked_of_update (hold d))
        fun _ _ => unlinked_of_update fun y hy => by cases hy
  | linkEntry hpc hlock hlive hadds =>
      have hfits := hs.fits i
      rw [hpc] at hfits
      exact h.insert ⟨hadds, rfl, rfl⟩ hfits.1.2 (hother hpc fun y hy => by cases hy)
        fun y hy => by cases hy
  | linkBad hpc =>
      have hfits := hs.fits i
      rw [hpc] at hfits
      have hold := hother hpc fun y hy => by cases hy
      exact h.touch rfl (fun hd => absurd hd hfits.2) (Or.inl rfl)
        (fun d _ => ne_unlinked_of_update (hold d))
        fun _ _ => unlinked_of_update fun y hy => by cases hy
  | unlinkIn hpc _ _ | notEmpty hpc =>
      exact h.stay (hother hpc fun y hy => by cases hy) fun y hy => by cases hy
  | unlinkNode hpc _ hadds _ => exact h.unlinkNode hs (hother hpc fun y hy => by cases hy) hadds
  | unlinked hpc =>
      refine h.touch rfl (fun hd => ?_) (Or.inl rfl) (fun d hd => ne_unlinked_of_update fun hc => ?_)
        fun _ _ => unlinked_of_update fun y hy => by cases hy
      · rw [Inode.setNlink_nlink, h.last hs hpc hd]
      · cases hpc.symm.trans hc
        exact hd rfl
  | createFail hpc hx hentries =>
      have hold := hother hpc fun y hy => by cases hy
      exact h.touch (hentries.trans (hnil hx).symm) (fun _ => rfl)
        (Or.inr fun j hr => Pc.Fits.type_ne_none (hs.fits j) hr hx)
        (fun d _ => ne_unlinked_of_update (hold d))
        fun _ _ => unlinked_of_update fun y hy => by cases hy
  | @createEntry x dp name t n fresh d hpc hlock hlive _ hx hnew hadds =>
      have hfits := hs.fits i
      rw [hpc] at hfits
      have hparent : ∃ m, (if t = .dir then
            ((s.inode dp).setData d).setNlink ((s.inode dp).nlink + 1)
          else
            (s.inode dp).setData d) = ((s.inode dp).setData d).setNlink m := by
        split_ifs
        · exact ⟨_, rfl⟩
        · exact ⟨(s.inode dp).nlink, rfl⟩
      obtain ⟨m, hm⟩ := hparent
      exact h.createEntry hs hlive hfits hx hnew hadds hm (hother hpc fun y hy => by cases hy)
        fun y hy => by cases hy

/-! ## The runs -/

variable [DecidableEq ν]

omit [Fintype ι] in
theorem Rooted.enter (h : Rooted root s) {c : Option (Pc ν φ)} {r : Ret φ}
    (hc : ∀ c', c = some c' → ∀ y, c' ≠ .unlinked y) (henter : Links.enter s i c r = some s') :
    Rooted root s' := by
  unfold Links.enter at henter
  split_ifs at henter with hpc
  have hold : ∀ y, (s.party i).pc ≠ .unlinked y := fun y hy => by cases hpc.symm.trans hy
  cases c with
  | none =>
      cases henter
      exact h.stay hold fun y hy => by cases hy
  | some c =>
      cases henter
      exact h.stay hold (hc c rfl)

variable [LawfulDirLayer δ ν φ]

theorem step_keeps (hmax : 1 ≤ nlinkMax) {a : Act ι ν φ}
    (h : Sound root nlinkMax s ∧ Rooted root s) (hstep : step nlinkMax s a = some s') :
    Sound root nlinkMax s' ∧ Rooted root s' := by
  obtain ⟨hs, hr⟩ := h
  have henter : ∀ {i : ι} {c : Option (Pc ν φ)} {r : Ret φ}, (∀ c', c = some c' →
      (∀ y, c'.owes y = 0) ∧ c'.locks = none ∧ c'.Fits s.inode) →
      enter s i c r = some s' → Sound root nlinkMax s' ∧ Rooted root s' := by
    refine fun hc he => ⟨hs.enter hc he, hr.enter (fun c' hc' => Pc.ne_unlinked fun x hx => ?_) he⟩
    cases (hc c' hc').2.1.symm.trans hx
  cases a with
  | link i old =>
      cases old with
      | none =>
          change enter s i none _ = some s' at hstep
          refine henter (fun c' hc => ?_) hstep
          cases hc
      | some ip =>
          unfold step at hstep
          dsimp only at hstep
          split_ifs at hstep with htype
          refine henter (fun c' hc => ?_) hstep
          cases hc
          exact ⟨fun _ => rfl, rfl, htype⟩
  | unlink i parent =>
      cases parent with
      | none =>
          change enter s i none _ = some s' at hstep
          refine henter (fun c' hc => ?_) hstep
          cases hc
      | some p =>
          unfold step at hstep
          dsimp only at hstep
          split_ifs at hstep with htype
          refine henter (fun c' hc => ?_) hstep
          cases hc
          exact ⟨fun _ => rfl, rfl, htype⟩
  | create i parent type =>
      cases parent with
      | none =>
          change enter s i none _ = some s' at hstep
          refine henter (fun c' hc => ?_) hstep
          cases hc
      | some p =>
          unfold step at hstep
          dsimp only at hstep
          split_ifs at hstep with htype
          refine henter (fun c' hc => ?_) hstep
          cases hc
          exact ⟨fun _ => rfl, rfl, htype⟩
  | next i o =>
      have hsection := next_section hs hr hstep
      exact ⟨hsection.sound hs hmax, hsection.rooted hr hs⟩
  | free x =>
      unfold step at hstep
      dsimp only at hstep
      split_ifs at hstep with hfree
      cases hstep
      obtain ⟨hzero, _, hrefers⟩ := hfree
      have hnil : (Inode.zero : Inode δ).entries = [] := entries_empty
      exact ⟨hs.free hzero hrefers, hr.touch (hnil.trans ((hs.tree.fine x).dead hzero).symm)
        (fun _ => rfl) (Or.inr hrefers) (fun _ _ hfree => hfree) fun _ _ hy => hy⟩

end Steps

/-- A consistent file system, with nobody in a call. -/
structure Mounted {ι δ ν φ : Type} [DirLayer δ ν φ] [DecidableEq φ] [Fintype φ] (root : φ)
    (nlinkMax : ℕ) (s : Fs ι δ ν φ) : Prop where
  consistent : Consistent root nlinkMax s.inode
  user : ∀ i, (s.party i).pc = .user
  lock : ∀ x, s.lock x = none

section Runs

variable {ι δ ν φ : Type} [DirLayer δ ν φ] [DecidableEq φ] [DecidableEq ι] [DecidableEq ν]
  [Fintype ι] [Fintype φ] {root x : φ} {nlinkMax : ℕ} {s₀ s : Fs ι δ ν φ} {i : ι}
  {acts : List (Act ι ν φ)}

omit [DecidableEq ι] [DecidableEq ν] in
theorem Mounted.sound (h : Mounted root nlinkMax s₀) :
    Sound root nlinkMax s₀ ∧ Rooted root s₀ := by
  obtain ⟨hcons, huser, hlock⟩ := h
  refine ⟨⟨hcons.toTree, fun x => ?_, fun x i => ?_, fun i => ?_⟩,
    ⟨fun d hdir hlive _ => hcons.parents d hdir hlive, fun i x hx => ?_⟩⟩
  · have hzero : total (fun _ (l : Local ν φ) => l.pc.owes x) s₀.party = 0 :=
      total_eq_zero fun i => by
        rw [huser i]
        rfl
    unfold excess
    rw [hzero, hcons.exact x]
    omega
  · rw [hlock, huser]
    refine iff_of_false (fun hc => ?_) fun hc => ?_
    · cases hc
    · cases hc
  · rw [huser]
    trivial
  · cases (huser i).symm.trans hx

theorem Mounted.sound_of_run [LawfulDirLayer δ ν φ] (h : Mounted root nlinkMax s₀)
    (hmax : 1 ≤ nlinkMax) (hrun : Run nlinkMax s₀ acts s) :
    Sound root nlinkMax s ∧ Rooted root s := by
  have hkeeps : ∀ (s : Fs ι δ ν φ) (a : Act ι ν φ) (s' : Fs ι δ ν φ),
      (Sound root nlinkMax s ∧ Rooted root s) → step nlinkMax s a = some s' →
        (Sound root nlinkMax s' ∧ Rooted root s') :=
    fun _ _ _ hinv hstep => step_keeps hmax hinv hstep
  have hinv := Refinement.Run.invariant hkeeps h.sound hrun
  exact hinv

/-! ### A file system with its root only -/

def mkfs : Fs Bool (Dir Bool (Option Bool)) Bool (Option Bool) where
  inode
    | none => ⟨some .dir, 1, ⟨[some (.dot, none), some (.dotdot, none)]⟩⟩
    | some _ => .zero
  lock _ := none
  party _ := ⟨.user, .value 0⟩

theorem mkfs_dots : Dots (mkfs.inode none).data none none := by
  refine ⟨rfl, rfl, fun k name y hk hy => ?_⟩
  have hsize : DirLayer.size (mkfs.inode none).data ≤ k := hk
  cases (LawfulDirLayer.readi_of_le hsize).symm.trans hy

theorem mkfs_mounted : Mounted none 2 mkfs := by
  have hnil : ∀ x, (mkfs.inode x).entries = [] := by
    intro x
    cases x with
    | none => rfl
    | some b => rfl
  refine ⟨⟨⟨fun x => ?_, rfl, by decide, fun d hd => absurd (hnil d) hd⟩, fun d hdir _ => ?_,
    by decide⟩, fun _ => rfl, fun _ => rfl⟩
  · refine ⟨?_, fun _ => hnil x, fun _ => hnil x, ?_⟩
    · revert x
      decide
    · revert x
      decide
  · cases d with
    | none => exact ⟨none, mkfs_dots, Or.inl ⟨rfl, rfl⟩⟩
    | some b => cases hdir

/-- `some true` becomes a directory in the root, and `some false` a file in it. -/
def making : List (Act Bool Bool (Option Bool)) :=
  [.create true (some (none, .other true)) .dir, .next true (.made (some (some true)) true true true),
    .create true (some (some true, .other false)) .file,
    .next true (.made (some (some false)) true true true)]

/-! ### The main results -/

variable [LawfulDirLayer δ ν φ] (root x nlinkMax s₀ s acts)

/-- In every state between the sections of every run, whichever calls are in progress and however
they fail: the number of links of an inode is the number of its names and of the directories in
it, one for the root, and one for each call that has counted a link without an entry; and what
has a name is not free. -/
theorem links_cover_names (hmount : Mounted root nlinkMax s₀) (hmax : 1 ≤ nlinkMax)
    (hrun : Run nlinkMax s₀ acts s) :
    (s.inode x).nlink = nameCount s.inode x + subdirs s.inode x + (if x = root then 1 else 0) +
        total (fun _ l => l.pc.owes x) s.party ∧
      (0 < nameCount s.inode x → (s.inode x).type ≠ none) := by
  have hs := (hmount.sound_of_run hmax hrun).1
  have hcount := hs.le_nlink x
  refine ⟨hcount.symm, fun hname hfree => ?_⟩
  have hzero := (hs.tree.fine x).free hfree
  omega

/-- The file gets a second link, for which there is no name yet. -/
theorem links_cover_names_link : ∃ s : Fs Bool (Dir Bool (Option Bool)) Bool (Option Bool),
    (s.party false).pc = .linkParent (some false) ∧ (s.inode (some false)).nlink = 2 ∧
      (s.inode (some false)).type ≠ none := by
  obtain ⟨s, hrun, hp⟩ := Refinement.Run.exists_of_any (step 2) mkfs
    (making ++ [.link false (some (some false)), .next false (.room true)])
    (fun s => (s.party false).pc = .linkParent (some false) ∧ (s.inode (some false)).nlink = 2 ∧
      0 < nameCount s.inode (some false)) (by decide)
  obtain ⟨hpc, hnlink, hname⟩ := of_decide_eq_true hp
  exact ⟨s, hpc, hnlink,
    (links_cover_names none (some false) 2 mkfs s _ mkfs_mounted (by decide) hrun).2 hname⟩

/-- Whenever no process is in a call, the file system is consistent: the counts are exact, a
directory has one name only and its `..` is the directory that has it, and nothing with entries
is lost. -/
theorem fs_stays_consistent (hmount : Mounted root nlinkMax s₀) (hmax : 1 ≤ nlinkMax)
    (hrun : Run nlinkMax s₀ acts s) (huser : ∀ i, (s.party i).pc = .user) :
    Consistent root nlinkMax s.inode := by
  obtain ⟨hs, hr⟩ := hmount.sound_of_run hmax hrun
  refine ⟨hs.tree, fun d hdir hlive => hr.parents d hdir hlive fun j hj => ?_, fun x => ?_⟩
  · cases (huser j).symm.trans hj
  · have hcount := hs.le_nlink x
    have hzero : total (fun _ (l : Local ν φ) => l.pc.owes x) s.party = 0 :=
      total_eq_zero fun i => by
        rw [huser i]
        rfl
    rw [hzero] at hcount
    exact hcount.symm

/-- A file is linked in the root while its first name is unlinked. -/
theorem fs_stays_consistent_link : ∃ s : Fs Bool (Dir Bool (Option Bool)) Bool (Option Bool),
    (s.inode none).entries.length = 2 ∧ Consistent none 2 s.inode := by
  obtain ⟨s, hrun, hp⟩ := Refinement.Run.exists_of_any (step 2) mkfs
    (making ++ [.link false (some (some false)), .next false (.room true),
      .unlink true (some (some true, .other false)), .next true (.room true),
      .next false (.parent (some (none, .other false))), .next true (.room true),
      .next true (.room true), .next false (.room true)])
    (fun s => (s.inode none).entries.length = 2 ∧ ∀ i, (s.party i).pc = .user) (by decide)
  obtain ⟨hentries, huser⟩ := of_decide_eq_true hp
  exact ⟨s, hentries, fs_stays_consistent none 2 mkfs s _ mkfs_mounted (by decide) hrun huser⟩

end Runs

end Links
