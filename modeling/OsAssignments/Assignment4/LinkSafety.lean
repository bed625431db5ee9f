import OsAssignments.Assignment4.LinkSections

/-!
# The counts through the sections

Each section keeps the tree, and changes the counts by what the call owes before and after it.
-/

namespace Links

open Interleaving

theorem unlinkParent_eq {ι δ ν φ : Type} [DirLayer δ ν φ] (s : Fs ι δ ν φ) (ip dp : φ) (off : ℕ) :
    ∃ m, unlinkParent s ip dp off =
      ((s.inode dp).setData (writei (s.inode dp).data off)).setNlink m := by
  unfold unlinkParent
  dsimp only
  split_ifs
  · exact ⟨_, rfl⟩
  · exact ⟨(s.inode dp).nlink, rfl⟩

section Steps

variable {ι δ ν φ : Type} [DirLayer δ ν φ] [DecidableEq φ] [Fintype ι] [Fintype φ]
  {root x dp ip : φ} {nlinkMax off : ℕ} {s : Fs ι δ ν φ} {i : ι} {l : Local ν φ} {node : Inode δ}
  {name : Name ν} {n : ν}

/-- What `sys_unlink` does to the tree and to the counts by its writes to the directory. -/
theorem Sound.unlinkParent (h : Sound root nlinkMax s)
    (hdp : (s.inode dp).type = some .dir)
    (hadds : Adds (writei (s.inode dp).data off) (n, ip) (s.inode dp).data)
    (hnil : (s.inode ip).entries = []) :
    Tree root nlinkMax (Function.update s.inode dp (unlinkParent s ip dp off)) ∧
      ∀ y, excess root (Function.update s.inode dp (unlinkParent s ip dp off)) y =
        excess root s.inode y + if ip = y then 1 else 0 := by
  set cleared := (s.inode dp).setData (writei (s.inode dp).data off) with hcleared
  have herases : Erases s.inode dp (n, ip) cleared := ⟨hadds, rfl, rfl⟩
  have hmem : (n, ip) ∈ (s.inode dp).entries := herases.perm.mem_iff.mpr List.mem_cons_self
  obtain ⟨hne, _, hlive⟩ := h.child ⟨n, hmem⟩
  have hfine := h.tree.fine dp
  have hclear : cleared.Fine nlinkMax := hfine.insert hdp hlive _
  have htree := herases.tree h.tree hclear hnil
  unfold Links.unlinkParent
  dsimp only
  rw [← hcleared]
  by_cases hd : (s.inode ip).type = some .dir
  · rw [if_pos hd]
    -- the directory has a link of its own, and that of the entry that is gone
    have htwo : 2 ≤ (s.inode dp).nlink := by
      have hcount := h.le_nlink dp
      have hsub := subdirs_pos hmem hd
      rcases (h.tree.reach dp (List.ne_nil_of_mem hmem)).named with hroot | hname
      · rw [if_pos hroot] at hcount
        omega
      · omega
    have hself : (Function.update s.inode dp cleared) dp = cleared := Function.update_self ..
    have hnlink : cleared.nlink = (s.inode dp).nlink := rfl
    rw [hnlink]
    set parent := cleared.setNlink ((s.inode dp).nlink - 1) with hparent
    have hidem : Function.update (Function.update s.inode dp cleared) dp parent =
        Function.update s.inode dp parent := Function.update_idem ..
    have hsame : parent.entries = (Function.update s.inode dp cleared dp).entries ∧
        parent.type = (Function.update s.inode dp cleared dp).type := by
      rw [hself]
      exact ⟨rfl, rfl⟩
    rw [← hidem]
    refine ⟨htree.touch hsame.1 (Or.inl hsame.2) ⟨fun hn => ?_, fun hfile => absurd hdp hfile,
      fun hzero => ?_, ?_⟩ fun _ => hdp, fun y => ?_⟩
    · exact absurd (hn.symm.trans hdp).symm (Option.some_ne_none _)
    · rw [hparent, Inode.setNlink_nlink] at hzero
      omega
    · exact (Nat.sub_le _ _).trans hfine.le_max
    · rw [excess_touch hsame.1 (Or.inl hsame.2), herases.excess_eq, hself, hnlink, hparent,
        Inode.setNlink_nlink]
      dsimp only
      by_cases hy : y = dp
      · have hip : ¬ y = ip := fun heq => hne (heq.symm.trans hy)
        rw [if_neg hip, if_neg (Ne.symm hip), if_pos ⟨hy, hd⟩, if_pos hy]
        omega
      · have hno : ¬ (y = dp ∧ (s.inode ip).type = some .dir) := fun hc => hy hc.1
        rw [if_neg hy, if_neg hno]
        by_cases hyip : y = ip
        · rw [if_pos hyip, if_pos hyip.symm]
          omega
        · rw [if_neg hyip, if_neg (Ne.symm hyip)]
          omega
  · rw [if_neg hd]
    refine ⟨htree, fun y => ?_⟩
    have hno : ¬ (y = dp ∧ (s.inode (n, ip).2).type = some .dir) := fun hc => hd hc.2
    rw [herases.excess_eq, if_neg hno]
    by_cases hy : y = ip
    · rw [if_pos hy, if_pos hy.symm]
      rfl
    · rw [if_neg hy, if_neg (Ne.symm hy)]
      rfl

variable [DecidableEq ι]

theorem Sound.update (h : Sound root nlinkMax s) {inode : φ → Inode δ} {lock : φ → Option ι}
    (htree : Tree root nlinkMax inode)
    (hexcess : ∀ x, excess root inode x + (s.party i).pc.owes x =
      excess root s.inode x + l.pc.owes x)
    (hlocks : ∀ x j, lock x = some j ↔ (Function.update s.party i l j).pc.locks = some x)
    (hfits : l.pc.Fits inode) (hothers : ∀ j, j ≠ i → (s.party j).pc.Fits inode) :
    Sound root nlinkMax ⟨inode, lock, Function.update s.party i l⟩ := by
  refine ⟨htree, fun x => ?_, hlocks, fun j => ?_⟩
  · have htotal := total_update (fun _ l => l.pc.owes x) s.party i l
    have hx := hexcess x
    have hold := h.exact x
    dsimp only at htotal ⊢
    omega
  · by_cases hj : j = i
    · rw [hj]
      dsimp only
      rw [Function.update_self]
      exact hfits
    · dsimp only
      rw [Function.update_of_ne hj]
      exact hothers j hj

theorem Sound.locks_update (h : Sound root nlinkMax s) {lock : φ → Option ι}
    (hheld : ∀ x, l.pc.locks = some x → lock x = some i)
    (hreleased : ∀ x, lock x = some i → l.pc.locks = some x)
    (hothers : ∀ x j, j ≠ i → (lock x = some j ↔ s.lock x = some j)) (x : φ) (j : ι) :
    lock x = some j ↔ (Function.update s.party i l j).pc.locks = some x := by
  by_cases hj : j = i
  · rw [hj, Function.update_self]
    exact ⟨hreleased x, hheld x⟩
  · rw [Function.update_of_ne hj, hothers x j hj, h.locks]

theorem Sound.locks_of_not (h : Sound root nlinkMax s) (hold : (s.party i).pc.locks = none)
    (hnew : l.pc.locks = none) (x : φ) (j : ι) :
    s.lock x = some j ↔ (Function.update s.party i l j).pc.locks = some x := by
  refine h.locks_update (fun x hx => ?_) (fun x hx => ?_) (fun _ _ _ => .rfl) x j
  · cases hnew.symm.trans hx
  · cases hold.symm.trans ((h.locks x i).mp hx)

theorem Sound.locks_free (h : Sound root nlinkMax s) (hold : (s.party i).pc.locks = some x)
    (hnew : l.pc.locks = none) (y : φ) (j : ι) :
    Function.update s.lock x none y = some j ↔
      (Function.update s.party i l j).pc.locks = some y := by
  have hlock := (h.locks x i).mpr hold
  refine h.locks_update (fun y hy => ?_) (fun y hy => ?_) (fun y k hk => ?_) y j
  · cases hnew.symm.trans hy
  · by_cases hyx : y = x
    · rw [hyx, Function.update_self] at hy
      cases hy
    · rw [Function.update_of_ne hyx, h.locks, hold] at hy
      exact absurd (Option.some_inj.mp hy).symm hyx
  · by_cases hyx : y = x
    · rw [hyx, Function.update_self, hlock]
      exact iff_of_false (fun hc => by cases hc) fun hc => hk (Option.some_inj.mp hc).symm
    · rw [Function.update_of_ne hyx]

theorem Sound.locks_take (h : Sound root nlinkMax s) (hold : (s.party i).pc.locks = none)
    (hlock : s.lock x = none) (hnew : l.pc.locks = some x) (y : φ) (j : ι) :
    Function.update s.lock x (some i) y = some j ↔
      (Function.update s.party i l j).pc.locks = some y := by
  refine h.locks_update (fun y hy => ?_) (fun y hy => ?_) (fun y k hk => ?_) y j
  · cases hnew.symm.trans hy
    rw [Function.update_self]
  · by_cases hyx : y = x
    · rw [hyx]
      exact hnew
    · rw [Function.update_of_ne hyx, h.locks, hold] at hy
      cases hy
  · by_cases hyx : y = x
    · rw [hyx, Function.update_self, hlock]
      exact iff_of_false (fun hc => hk (Option.some_inj.mp hc).symm) fun hc => by cases hc
    · rw [Function.update_of_ne hyx]

theorem Sound.stay (h : Sound root nlinkMax s) (hold : (s.party i).pc.locks = none)
    (hnew : l.pc.locks = none) (howes : ∀ x, l.pc.owes x = (s.party i).pc.owes x)
    (hfits : l.pc.Fits s.inode) :
    Sound root nlinkMax ⟨s.inode, s.lock, Function.update s.party i l⟩ :=
  h.update h.tree (fun x => by rw [howes]) (h.locks_of_not hold hnew) hfits fun j _ => h.fits j

theorem Sound.touch (h : Sound root nlinkMax s) {n : ℕ} (hold : (s.party i).pc.locks = none)
    (hnew : l.pc.locks = none)
    (hfine : ((s.inode x).setNlink n).Fine nlinkMax)
    (howes : ∀ y, (if y = x then (n : ℤ) - (s.inode x).nlink else 0) + (s.party i).pc.owes y =
      l.pc.owes y) (hfits : l.pc.Fits s.inode) :
    Sound root nlinkMax ⟨Function.update s.inode x ((s.inode x).setNlink n), s.lock,
      Function.update s.party i l⟩ := by
  refine h.update (h.tree.touch rfl (Or.inl rfl) hfine fun hx => ?_) (fun y => ?_)
    (h.locks_of_not hold hnew) (Pc.Fits.update hfits (fun _ => rfl) fun _ => rfl)
    fun j _ => Pc.Fits.update (h.fits j) (fun _ => rfl) fun _ => rfl
  · rw [Inode.setNlink_type, hx]
    exact h.tree.root_dir
  · rw [excess_touch (Inode.setNlink_entries ..) (Or.inl (Inode.setNlink_type ..)), ← howes y,
      Inode.setNlink_nlink]
    omega

/-! ## The sections -/

theorem Sound.linkNode (h : Sound root nlinkMax s) (hpc : (s.party i).pc = .linkNode ip)
    (hdir : (s.inode ip).type ≠ some .dir) (hmax : (s.inode ip).nlink < nlinkMax) :
    Sound root nlinkMax
      ((s.setInode ip ((s.inode ip).setNlink ((s.inode ip).nlink + 1))).goto i (.linkParent ip)) := by
  have hfits := h.fits i
  rw [hpc] at hfits
  have hfine := h.tree.fine ip
  refine h.touch (by rw [hpc]; rfl) rfl ?_ (fun y => ?_) ⟨hfits, hdir⟩
  · exact ⟨fun hn => absurd hn hfits, hfine.files, fun hn => absurd hn (Nat.succ_ne_zero _), hmax⟩
  · rw [hpc]
    change _ + ((0 : ℕ) : ℤ) = ((if ip = y then 1 else 0 : ℕ) : ℤ)
    by_cases hy : y = ip
    · rw [if_pos hy, if_pos hy.symm]
      omega
    · rw [if_neg hy, if_neg (Ne.symm hy)]
      rfl

theorem Sound.linkBad (h : Sound root nlinkMax s) (hpc : (s.party i).pc = .linkBad ip) :
    Sound root nlinkMax
      ((s.setInode ip ((s.inode ip).setNlink ((s.inode ip).nlink - 1))).ret i (.value (-1))) := by
  have hfits := h.fits i
  rw [hpc] at hfits
  have hfine := h.tree.fine ip
  have hpos : 1 ≤ (s.inode ip).nlink := by
    have hle := h.owes_le_nlink i ip
    rw [hpc] at hle
    exact (if_pos rfl).symm.trans_le hle
  refine h.touch (by rw [hpc]; rfl) rfl ?_ (fun y => ?_) trivial
  · exact ⟨fun hn => absurd hn hfits.1, hfine.files, fun _ => hfine.files hfits.2,
      (Nat.sub_le _ _).trans hfine.le_max⟩
  · rw [hpc]
    change _ + ((if ip = y then 1 else 0 : ℕ) : ℤ) = ((0 : ℕ) : ℤ)
    by_cases hy : y = ip
    · rw [if_pos hy, if_pos hy.symm]
      omega
    · rw [if_neg hy, if_neg (Ne.symm hy)]
      rfl

theorem Sound.unlinked (h : Sound root nlinkMax s) (hpc : (s.party i).pc = .unlinked ip) :
    Sound root nlinkMax (((s.setInode ip ((s.inode ip).setNlink ((s.inode ip).nlink - 1))).setLock
      ip none).ret i (.value 0)) := by
  have hfits := h.fits i
  rw [hpc] at hfits
  obtain ⟨htype, hnil⟩ := hfits
  have hfine := h.tree.fine ip
  have hpos : 1 ≤ (s.inode ip).nlink := by
    have hle := h.owes_le_nlink i ip
    rw [hpc] at hle
    exact (if_pos rfl).symm.trans_le hle
  have htree : Tree root nlinkMax (Function.update s.inode ip
      ((s.inode ip).setNlink ((s.inode ip).nlink - 1))) := by
    refine h.tree.touch rfl (Or.inl rfl) ⟨fun hn => absurd hn htype, hfine.files, fun _ => hnil,
      (Nat.sub_le _ _).trans hfine.le_max⟩ fun hx => ?_
    rw [Inode.setNlink_type, hx]
    exact h.tree.root_dir
  change Sound root nlinkMax ⟨Function.update s.inode ip _, Function.update s.lock ip none,
    Function.update s.party i ⟨.user, _⟩⟩
  refine h.update htree (fun y => ?_) (h.locks_free (by rw [hpc]; rfl) rfl) trivial fun j _ =>
    Pc.Fits.update (h.fits j) (fun _ => rfl) fun _ => rfl
  rw [excess_touch (Inode.setNlink_entries ..) (Or.inl (Inode.setNlink_type ..)), hpc,
    Inode.setNlink_nlink]
  change _ + ((if ip = y then 1 else 0 : ℕ) : ℤ) = _ + ((0 : ℕ) : ℤ)
  by_cases hy : y = ip
  · rw [if_pos hy, if_pos hy.symm]
    omega
  · rw [if_neg hy, if_neg (Ne.symm hy)]
    omega

omit [DecidableEq ι] in
theorem Sound.fits_of_free (h : Sound root nlinkMax s) (hx : (s.inode x).type = none)
    (node : Inode δ) (j : ι) : (s.party j).pc.Fits (Function.update s.inode x node) := by
  have hrefers : ¬ (s.party j).pc.Refers x := fun hr => Pc.Fits.type_ne_none (h.fits j) hr hx
  exact Pc.Fits.update (h.fits j) (fun hr => absurd hr hrefers)
    fun hc => absurd (Pc.refers_of_locks hc) hrefers

theorem Sound.createFail (h : Sound root nlinkMax s) {name : Name ν} {t : InodeType}
    {fresh : Inode δ} (hpc : (s.party i).pc = .createIn dp name t)
    (hx : (s.inode x).type = none) (hentries : fresh.entries = []) :
    Sound root nlinkMax ((s.setInode x (fresh.setNlink 0)).ret i (.inode none)) := by
  have hzero : (s.inode x).nlink = 0 := (h.tree.fine x).free hx
  obtain ⟨hname, hroot⟩ := h.of_free hzero
  have hsame : (fresh.setNlink 0).entries = (s.inode x).entries :=
    hentries.trans ((h.tree.fine x).dead hzero).symm
  change Sound root nlinkMax ⟨Function.update s.inode x _, s.lock,
    Function.update s.party i ⟨.user, _⟩⟩
  refine h.update (h.tree.touch hsame (Or.inr hname) ?_ fun hc => absurd hc hroot) (fun y => ?_)
    (h.locks_of_not (by rw [hpc]; rfl) rfl) trivial fun j _ => h.fits_of_free hx _ j
  · exact ⟨fun _ => rfl, fun _ => hentries, fun _ => hentries, Nat.zero_le _⟩
  · rw [excess_touch hsame (Or.inr hname), hzero, hpc]
    change _ + (if y = x then ((0 : ℕ) : ℤ) - ((0 : ℕ) : ℤ) else 0) + ((0 : ℕ) : ℤ) =
      _ + ((0 : ℕ) : ℤ)
    split_ifs
    · omega
    · omega

omit [DecidableEq ι] in
theorem Sound.fits_of_unlocked (h : Sound root nlinkMax s) (hlock : s.lock x = none)
    (htype : node.type = (s.inode x).type) (j : ι) :
    (s.party j).pc.Fits (Function.update s.inode x node) := by
  refine Pc.Fits.update (h.fits j) (fun _ => htype) fun hc => ?_
  cases hlock.symm.trans ((h.locks x j).mpr hc)

theorem Sound.linkEntry (h : Sound root nlinkMax s) {d : δ}
    (hpc : (s.party i).pc = .linkEntry ip dp name) (hlock : s.lock dp = none)
    (hlive : (s.inode dp).nlink ≠ 0) (hadds : Adds (s.inode dp).data (n, ip) d) :
    Sound root nlinkMax ((s.setInode dp ((s.inode dp).setData d)).ret i (.value 0)) := by
  have hfits := h.fits i
  rw [hpc] at hfits
  obtain ⟨hip, hdir⟩ := hfits
  have hinserts : Inserts s.inode dp (n, ip) ((s.inode dp).setData d) := ⟨hadds, rfl, rfl⟩
  have hfine : ((s.inode dp).setData d).Fine nlinkMax := (h.tree.fine dp).insert hdir hlive d
  have htree := hinserts.tree h.tree hfine (h.reach hdir hlive (h.ne_unlinked_of_free hlock))
    fun hd => absurd hd hip.2
  have htype : ((s.inode dp).setData d).type = (s.inode dp).type := rfl
  refine h.update htree (fun y => ?_) (h.locks_of_not (by rw [hpc]; rfl) rfl) trivial
    fun j _ => h.fits_of_unlocked hlock htype j
  change excess root (Function.update s.inode dp _) y + _ = _
  have hno : ¬ (y = dp ∧ (s.inode (n, ip).2).type = some .dir) := fun hd => hip.2 hd.2
  rw [hinserts.excess_eq, if_neg hno, hpc]
  change _ + ((if ip = y then 1 else 0 : ℕ) : ℤ) = _ + ((0 : ℕ) : ℤ)
  by_cases hy : y = ip
  · rw [if_pos hy, if_pos hy.symm]
    omega
  · rw [if_neg hy, if_neg (Ne.symm hy)]
    omega

theorem Sound.unlinkIn (h : Sound root nlinkMax s) (hpc : (s.party i).pc = .unlinkIn dp name)
    (hlock : s.lock dp = none) (hfits : (Pc.unlinkNode ip dp off : Pc ν φ).Fits s.inode) :
    Sound root nlinkMax ((s.setLock dp (some i)).goto i (.unlinkNode ip dp off)) := by
  refine h.update h.tree (fun y => ?_) (h.locks_take (by rw [hpc]; rfl) hlock rfl) hfits
    fun j _ => h.fits j
  rw [hpc]
  rfl

theorem Sound.notEmpty (h : Sound root nlinkMax s)
    (hpc : (s.party i).pc = .unlinkNode ip dp off) :
    Sound root nlinkMax ((s.setLock dp none).ret i (.value (-1))) := by
  refine h.update h.tree (fun y => ?_) (h.locks_free (by rw [hpc]; rfl) rfl) trivial
    fun j _ => h.fits j
  rw [hpc]
  rfl

theorem Sound.unlinkNode (h : Sound root nlinkMax s)
    (hpc : (s.party i).pc = .unlinkNode ip dp off) (hfree : s.lock ip = none)
    (hadds : Adds (writei (s.inode dp).data off) (n, ip) (s.inode dp).data)
    (hnil : (s.inode ip).entries = []) :
    Sound root nlinkMax ((((s.setInode dp (Links.unlinkParent s ip dp off)).setLock dp none).setLock
      ip (some i)).goto i (.unlinked ip)) := by
  have hold := h.fits i
  rw [hpc] at hold
  have hlocks : (s.party i).pc.locks = some dp := by
    rw [hpc]
    rfl
  have hlock : s.lock dp = some i := (h.locks dp i).mpr hlocks
  have hne := (h.child ⟨n, hadds.perm.mem_iff.mpr List.mem_cons_self⟩).1
  obtain ⟨htree, hexcess⟩ := h.unlinkParent hold.2.1 hadds hnil
  obtain ⟨m, hm⟩ := unlinkParent_eq s ip dp off
  have htype : (Links.unlinkParent s ip dp off).type = (s.inode dp).type := by
    rw [hm]
    rfl
  change Sound root nlinkMax ⟨Function.update s.inode dp (Links.unlinkParent s ip dp off),
    Function.update (Function.update s.lock dp none) ip (some i),
    Function.update s.party i ⟨.unlinked ip, _⟩⟩
  refine h.update htree (fun y => ?_) (h.locks_update (fun y hy => ?_) (fun y hy => ?_)
    fun y j hj => ?_) ⟨?_, ?_⟩ fun j hj => Pc.Fits.update (h.fits j) (fun _ => htype) fun hc => ?_
  · rw [hexcess, hpc]
    change _ + (if ip = y then 1 else 0 : ℤ) + ((0 : ℕ) : ℤ) =
      _ + ((if ip = y then 1 else 0 : ℕ) : ℤ)
    split_ifs
    · omega
    · omega
  · cases hy
    rw [Function.update_self]
  · by_cases hyip : y = ip
    · rw [hyip]
      rfl
    · rw [Function.update_of_ne hyip] at hy
      by_cases hydp : y = dp
      · rw [hydp, Function.update_self] at hy
        cases hy
      · rw [Function.update_of_ne hydp, h.locks, hlocks] at hy
        exact absurd (Option.some_inj.mp hy).symm hydp
  · by_cases hyip : y = ip
    · rw [hyip, Function.update_self, hfree]
      exact iff_of_false (fun hc => hj (Option.some_inj.mp hc).symm) fun hc => by cases hc
    · rw [Function.update_of_ne hyip]
      by_cases hydp : y = dp
      · rw [hydp, Function.update_self, hlock]
        exact iff_of_false (fun hc => by cases hc) fun hc => hj (Option.some_inj.mp hc).symm
      · rw [Function.update_of_ne hydp]
  · rw [Function.update_of_ne hne]
    exact hold.1
  · rw [Function.update_of_ne hne]
    exact hnil
  · exact absurd (Option.some_inj.mp (hlock.symm.trans ((h.locks dp j).mpr hc))).symm hj

omit [DecidableEq ι] in
/-- A new inode that is complete gets its name in `dp`, and `dp` one more link if the inode is a
directory: what this does to the tree and to the counts. -/
theorem Sound.newEntry (h : Sound root nlinkMax s) (hmax : 1 ≤ nlinkMax)
    {t : InodeType} {d : δ} {fresh parent : Inode δ} (hlock : s.lock dp = none)
    (hdir : (s.inode dp).type = some .dir) (hlive : (s.inode dp).nlink ≠ 0)
    (hroom : t = .dir → (s.inode dp).nlink < nlinkMax) (hx : (s.inode x).type = none)
    (hnew : NewInode x dp t (fresh, true)) (hadds : Adds (s.inode dp).data (n, x) d)
    (hparent : parent = (s.inode dp).setData d) :
    Tree root nlinkMax (Function.update (Function.update s.inode x fresh) dp
        (if t = .dir then parent.setNlink ((s.inode dp).nlink + 1) else parent)) ∧
      ∀ y, excess root (Function.update (Function.update s.inode x fresh) dp
        (if t = .dir then parent.setNlink ((s.inode dp).nlink + 1) else parent)) y =
          excess root s.inode y := by
  have hne : dp ≠ x := by
    rintro rfl
    rw [hx] at hdir
    cases hdir
  have hzero : (s.inode x).nlink = 0 := (h.tree.fine x).free hx
  obtain ⟨hname, hroot⟩ := h.of_free hzero
  have hold : (s.inode x).entries = [] := (h.tree.fine x).dead hzero
  obtain ⟨htype, hentries, hcomplete⟩ := hnew
  obtain ⟨hnlink, _⟩ := hcomplete rfl
  dsimp only at htype hentries hnlink
  have hinserts : Inserts s.inode dp (n, x) parent := hparent ▸ ⟨hadds, rfl, rfl⟩
  have hfine : parent.Fine nlinkMax := hparent ▸ (h.tree.fine dp).insert hdir hlive d
  have hsame : fresh.entries = (s.inode x).entries := hentries.trans hold.symm
  have hfresh : fresh.Fine nlinkMax := by
    refine ⟨fun hn => ?_, fun _ => hentries, fun _ => hentries, ?_⟩
    · cases htype.symm.trans hn
    · rw [hnlink]
      exact hmax
  have hself : Function.update s.inode x fresh dp = s.inode dp := Function.update_of_ne hne ..
  have hins : Inserts (Function.update s.inode x fresh) dp (n, x) parent := by
    refine ⟨?_, ?_, ?_⟩
    · rw [hself]
      exact hinserts.adds
    · rw [hself]
      exact hinserts.type
    · rw [hself]
      exact hinserts.nlink
  have hreach : Reach (Function.update s.inode x fresh) root dp := by
    refine (h.reach hdir hlive (h.ne_unlinked_of_free hlock)).mono fun c e he => ?_
    have hc : c ≠ x := by
      rintro rfl
      rw [hold] at he
      cases he
    rw [Function.update_of_ne hc]
    exact he
  have htree := hins.tree (h.tree.touch hsame (Or.inr hname) hfresh fun hc => absurd hc hroot)
    hfine hreach fun _ => ⟨(nameCount_touch hsame x).trans hname, hroot⟩
  have hexcess : ∀ y, excess root (Function.update (Function.update s.inode x fresh) dp parent) y =
      excess root s.inode y - (if y = dp ∧ t = .dir then 1 else 0 : ℕ) := by
    intro y
    have hcond : (y = dp ∧ (Function.update s.inode x fresh (n, x).2).type = some .dir) ↔
        (y = dp ∧ t = .dir) := by
      rw [Function.update_self, htype, Option.some_inj]
    rw [hins.excess_eq, excess_touch hsame (Or.inr hname), hzero, hnlink, if_congr hcond rfl rfl]
    by_cases hy : y = x
    · rw [if_pos hy, if_pos hy]
      omega
    · rw [if_neg hy, if_neg hy]
      omega
  by_cases hd : t = .dir
  · rw [if_pos hd]
    have hidem : Function.update (Function.update (Function.update s.inode x fresh) dp parent) dp
        (parent.setNlink ((s.inode dp).nlink + 1)) = Function.update (Function.update s.inode x fresh) dp
          (parent.setNlink ((s.inode dp).nlink + 1)) := Function.update_idem ..
    have hparent' : Function.update (Function.update s.inode x fresh) dp parent dp = parent :=
      Function.update_self ..
    have hdp : parent.type = some .dir := hinserts.type.trans hdir
    have hcount : parent.nlink = (s.inode dp).nlink := hinserts.nlink
    have hkept : (parent.setNlink ((s.inode dp).nlink + 1)).entries =
          (Function.update (Function.update s.inode x fresh) dp parent dp).entries ∧
        (parent.setNlink ((s.inode dp).nlink + 1)).type =
          (Function.update (Function.update s.inode x fresh) dp parent dp).type := by
      rw [hparent']
      exact ⟨rfl, rfl⟩
    rw [← hidem]
    refine ⟨htree.touch hkept.1 (Or.inl hkept.2) ⟨fun hn => ?_, hfine.files, fun hz => ?_, ?_⟩
      fun _ => hdp, fun y => ?_⟩
    · cases hdp.symm.trans hn
    · exact absurd hz (Nat.succ_ne_zero _)
    · exact hroom hd
    · rw [excess_touch hkept.1 (Or.inl hkept.2), hexcess, hparent', Inode.setNlink_nlink, hcount]
      by_cases hy : y = dp
      · rw [if_pos hy, if_pos ⟨hy, hd⟩]
        omega
      · have hno : ¬ (y = dp ∧ t = .dir) := fun hc => hy hc.1
        rw [if_neg hy, if_neg hno]
        omega
  · rw [if_neg hd]
    refine ⟨htree, fun y => ?_⟩
    have hno : ¬ (y = dp ∧ t = .dir) := fun hc => hd hc.2
    rw [hexcess, if_neg hno]
    omega

theorem Sound.createEntry (h : Sound root nlinkMax s) (hmax : 1 ≤ nlinkMax) {t : InodeType}
    {fresh : Inode δ} {d : δ} (hpc : (s.party i).pc = .createIn dp name t)
    (hlock : s.lock dp = none) (hlive : (s.inode dp).nlink ≠ 0)
    (hroom : t = .dir → (s.inode dp).nlink < nlinkMax) (hx : (s.inode x).type = none)
    (hnew : NewInode x dp t (fresh, true)) (hadds : Adds (s.inode dp).data (n, x) d) :
    Sound root nlinkMax (((s.setInode x fresh).setInode dp
      (if t = .dir then
        ((s.inode dp).setData d).setNlink ((s.inode dp).nlink + 1)
      else
        (s.inode dp).setData d)).ret i (.inode (some x))) := by
  have hdir := h.fits i
  rw [hpc] at hdir
  obtain ⟨htree, hexcess⟩ := h.newEntry hmax hlock hdir hlive hroom hx hnew hadds rfl
  change Sound root nlinkMax ⟨Function.update (Function.update s.inode x fresh) dp _, s.lock,
    Function.update s.party i ⟨.user, _⟩⟩
  refine h.update htree (fun y => ?_) (h.locks_of_not (by rw [hpc]; rfl) rfl) trivial
    fun j _ => Pc.Fits.update (h.fits_of_free hx fresh j) (fun _ => ?_) fun hc => ?_
  · rw [hexcess, hpc]
    rfl
  · have hne : dp ≠ x := by
      rintro rfl
      cases hx.symm.trans hdir
    rw [Function.update_of_ne hne]
    split_ifs
    · rfl
    · rfl
  · cases hlock.symm.trans ((h.locks dp j).mpr hc)

theorem Section.sound {s' : Fs ι δ ν φ} (h : Sound root nlinkMax s) (hmax : 1 ≤ nlinkMax)
    (hsection : Section root nlinkMax s i s') : Sound root nlinkMax s' := by
  cases hsection with
  | stay hold hnew howes hfits => exact h.stay hold hnew howes hfits
  | linkNode hpc hdir hlt => exact h.linkNode hpc hdir hlt
  | linkEntry hpc hlock hlive hadds => exact h.linkEntry hpc hlock hlive hadds
  | linkBad hpc => exact h.linkBad hpc
  | unlinkIn hpc hlock hfits => exact h.unlinkIn hpc hlock hfits
  | notEmpty hpc => exact h.notEmpty hpc
  | unlinkNode hpc hfree hadds hnil => exact h.unlinkNode hpc hfree hadds hnil
  | unlinked hpc => exact h.unlinked hpc
  | createFail hpc hx hentries => exact h.createFail hpc hx hentries
  | createEntry hpc hlock hlive hroom hx hnew hadds =>
      exact h.createEntry hmax hpc hlock hlive hroom hx hnew hadds

/-! ## Steps that are no sections -/

omit [DecidableEq ι] in
theorem Sound.free [LawfulDirLayer δ ν φ] (h : Sound root nlinkMax s)
    (hzero : (s.inode x).nlink = 0) (hfree : ∀ i, ¬ (s.party i).pc.Refers x) :
    Sound root nlinkMax (s.setInode x .zero) := by
  obtain ⟨hname, hroot⟩ := h.of_free hzero
  have hnil : (Inode.zero : Inode δ).entries = [] := entries_empty
  have hsame : (Inode.zero : Inode δ).entries = (s.inode x).entries :=
    hnil.trans ((h.tree.fine x).dead hzero).symm
  refine ⟨h.tree.touch hsame (Or.inr hname) ?_ fun hc => absurd hc hroot, fun y => ?_, h.locks,
    fun j => Pc.Fits.update (h.fits j) (fun hr => absurd hr (hfree j))
      fun hc => absurd (Pc.refers_of_locks hc) (hfree j)⟩
  · exact ⟨fun _ => rfl, fun _ => hnil, fun _ => hnil, Nat.zero_le _⟩
  · change excess root (Function.update s.inode x .zero) y = total (fun _ l => l.pc.owes y) s.party
    rw [excess_touch hsame (Or.inr hname), hzero, ← h.exact y]
    split_ifs
    · exact add_zero _
    · exact add_zero _

theorem Sound.enter [DecidableEq ν] (h : Sound root nlinkMax s) {s' : Fs ι δ ν φ}
    {c : Option (Pc ν φ)} {r : Ret φ}
    (hc : ∀ c', c = some c' → (∀ y, c'.owes y = 0) ∧ c'.locks = none ∧ c'.Fits s.inode)
    (henter : Links.enter s i c r = some s') : Sound root nlinkMax s' := by
  unfold Links.enter at henter
  split_ifs at henter with hpc
  have hold : (s.party i).pc.locks = none := by
    rw [hpc]
    rfl
  cases c with
  | none =>
      cases henter
      refine h.stay hold rfl (fun y => ?_) trivial
      rw [hpc]
  | some c =>
      cases henter
      obtain ⟨howes, hlocks, hfits⟩ := hc c rfl
      refine h.stay hold hlocks (fun y => ?_) hfits
      rw [hpc]
      exact howes y

end Steps

end Links
