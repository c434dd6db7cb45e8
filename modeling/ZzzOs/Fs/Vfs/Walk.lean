import ZzzOs.Fs.Vfs.Refs

/-!
# Walking along a path

For each function of `fs/namei.c`, the references it takes and gives back (`Good`). A walk holds one
reference to the dentry and one to the mount it stands at; a walk that fails gives both back.
-/

namespace ZzzOs.Fs.Vfs

open Function Multiset Lib Ext2

variable {R R' : Ledger} {s : State} {K K' : Multiset Addr} {L L' : Multiset Nat}
  {a parent next : Addr} {d : Dentry} {m depth : Nat} {ino : Ino} {name : Qstr} {path : Path}
  {α : Type} {E : Stop → State → Prop} {names : List Qstr} {text : List UInt8}
  {Q : α → State → Prop} {lookup : List UInt8 → V Path}

section

variable (h : Good R K L s)

include h

/-- A dentry that is held is there. -/
theorem Good.dentryAt {f : Dentry → V α}
    (ha : Held R K a) (hf : ∀ d, s.dcache.dentries a = some d → wp (f d) Q E s) :
    wp (dentryAt a >>= f) Q E s := by
  obtain ⟨d, hd⟩ := h.counted.allocated ha
  exact wp_of_bind_ok (dentryAt_eq hd) (hf d hd)

/-! ## The child of a dentry -/

theorem dAllocQstr_spec (hp : Held R K parent) : wp (dAllocQstr parent name)
      (fun r s' => match r with
        | none => Good R K L s'
        | some a => Good R (a ::ₘ K) L s' ∧ R.held a = 0 ∧
            ∃ d, s'.dcache.dentries a = some d ∧ d.dInode = none)
      (Stopped R K L) s := by
  refine wp_seq (kmalloc_spec h) fun r s ⟨h, hfree⟩ => ?_
  cases r with
  | none => exact h
  | some a =>
    have hfree := hfree a rfl
    have hc := h.counted
    have hzero := hc.held a
    rw [Dcache.count, hfree] at hzero
    obtain ⟨hheld, hcount⟩ := Nat.add_eq_zero_iff.1 (Nat.le_zero.1 hzero)
    obtain ⟨pd, hpd⟩ := hc.allocated hp
    rw [wp_bind, wp_dentryAt hpd, wp_bind, wp_modify, wp_pure]
    refine ⟨⟨hc.change rfl rfl (hc.cache.add hfree Nat.one_pos) (fun b => ?_) (fun b hb => ?_)
      fun ino => ?_, h.allSafe rfl fun hsafe => hsafe.add hfree hpd rfl⟩, hheld, _, add_self, rfl⟩
    · have hle := hc.held b
      by_cases hb : b = a
      · subst hb
        rw [count_cons_self, count_add_self, hheld, hcount]
      · rw [count_cons_of_ne hb, count_add_of_ne hb]
        exact hle
    · have hba : b ≠ a := by
        rintro rfl
        omega
      rw [add_of_ne hba]
    · rw [inodeRefs_add hfree hc.cache rfl]
      exact hc.inodes ino

theorem Good.igrab : Good (R.grow ino) K L (s.setIcount ino (s.icache ino + 1)) := by
  have hc := h.counted
  refine ⟨⟨hc.fixed, hc.cache, hc.held, hc.kept, fun i => ?_, hc.mounts, hc.rootMnt, hc.rootPoint,
    hc.listed⟩, h.allSafe rfl id⟩
  have hle := hc.inodes i
  show s.dcache.inodeRefs i + update R.slack ino (R.slack ino + 1) i ≤
    update s.icache ino (s.icache ino + 1) i
  by_cases hi : i = ino
  · subst hi
    rw [update_self, update_self]
    exact Nat.succ_le_succ hle
  · rw [update_of_ne hi, update_of_ne hi]
    exact hle

theorem ext2Iget_spec :
    wp (ext2Iget ino) (fun _ s' => Good (R.grow ino) K L s' ∧ s'.dcache = s.dcache)
      (Stopped R K L) s := by
  refine wp_bind.2 (wp_ite (fun _ => ⟨h.igrab, rfl⟩) fun _ => wp_bind.2 (wp_bind.2 (wp_get.2 ?_)))
  show wp _ _ _ (s.setIcount ino (s.icache ino + 1))
  cases (s.setIcount ino (s.icache ino + 1)).nodes ino with
  | ok => exact ⟨h.igrab, rfl⟩
  | error ret =>
    have hne : (s.setIcount ino (s.icache ino + 1)).icache ino ≠ 0 := by
      show update s.icache ino (s.icache ino + 1) ino ≠ 0
      rw [update_self]
      exact Nat.succ_ne_zero _
    refine wp_of_bind_ok (iput_eq hne) (h.same rfl rfl rfl (fun i => ?_) rfl)
    show _ ≤ update (update s.icache ino _) ino (update s.icache ino _ ino - 1) i
    rw [update_idem, update_self]
    exact update_cases (fun hi => by rw [hi, Nat.add_sub_cancel]) fun _ => Nat.le_refl _

theorem find_spec {dir : Dir} :
    wp (find ino dir name) (fun _ s' => Good R K L s' ∧ s'.dcache = s.dcache) (Stopped R K L) s := by
  unfold find
  rw [wp_bind, wp_get]
  dsimp only
  split
  · exact h.safe
  · exact ⟨h.same rfl rfl rfl (fun _ => Nat.le_refl _) rfl, rfl⟩

theorem dAdd_spec (ha : R.held a = 0) (hd : s.dcache.dentries a = some d)
    (hnone : d.dInode = none) : wp (dAdd a (some ino)) (fun _ => Good R K L) E s := by
  have hc := h.counted
  unfold dAdd Vfs.igrab
  rw [wp_bind, wp_dentryAt hd, hnone]
  have hpos := hc.cache.positive hd
  refine ⟨hc.change rfl rfl (hc.cache.set hd hpos) (fun b => ?_) (fun b hb => ?_) fun i => ?_,
    h.allSafe rfl fun hsafe => hsafe.set hd rfl rfl rfl⟩
  · have hle := hc.held b
    show _ ≤ (s.dcache.set a _).count b
    by_cases hb : b = a
    · subst hb
      rw [count_eq hd] at hle
      rw [count_set_self]
      exact hle
    · rw [count_set_of_ne hb]
      exact hle
  · have hba : b ≠ a := by
      rintro rfl
      omega
    show ((s.dcache.set a _).dentries b).bind _ = _
    rw [set_of_ne hba]
  · have hle := hc.inodes i
    show (s.dcache.set a _).inodeRefs i + _ ≤ update s.icache ino (s.icache ino + 1) i
    rw [inodeRefs_link hd hc.cache hnone rfl]
    refine update_cases (fun hi => ?_) fun hi => ?_
    · subst hi
      rw [if_pos rfl]
      omega
    · rw [if_neg hi]
      exact hle

/-- A lookup on the disk leaves one reference to the inode it finds. -/
theorem ext2Lookup_spec (ha : R.held a = 0) (hd : s.dcache.dentries a = some d)
    (hnone : d.dInode = none) :
    wp (ext2Lookup ino a) (fun _ s' => ∃ i, Good (R.grow i) K L s') (Stopped R K L) s := by
  unfold ext2Lookup
  rw [wp_bind, wp_get]
  split
  · refine wp_of_bind_ok (dentryAt_eq hd) (wp_seq (find_spec h) fun n s' ⟨h, hs⟩ => ?_)
    refine wp_ite (fun _ => h) fun _ => wp_seq (ext2Iget_spec h) fun _ s'' ⟨h, hs'⟩ => ?_
    refine wp_post (fun _ _ h => ⟨_, h⟩) (dAdd_spec h ha ?_ hnone)
    rw [hs', hs]
    exact hd
  · exact h.safe

end

/-- A reference that nothing gives back. -/
inductive Ledger.Leak (R : Ledger) : Ledger → Prop
  | keep {b : Addr} {i : Option Ino} : R.held b = 0 → Leak R (R.keep b i)
  | grow {i : Ino} : Leak R (R.grow i)

theorem Ledger.Leak.le (h : R.Leak R') : R.Le R' := by
  cases h with
  | keep ha => exact le_keep ha
  | grow => exact le_grow

/-- A lookup on the disk leaves a reference to the inode it finds, or the new dentry. -/
theorem lookupNew_spec (h : Good R (a ::ₘ K) L s) (hp : Held R K parent) (ha : R.held a = 0)
    (hd : s.dcache.dentries a = some d) (hnone : d.dInode = none) :
    wp (lookupNew parent a) (fun b s' => ∃ R', R.Leak R' ∧ Good R' (b ::ₘ K) L s')
      (fun e s' => if e.isErrno then ∃ R', R.Leak R' ∧ Good R' K L s' else Stopped R K L e s') s := by
  refine h.dentryAt hp.cons fun pd _ => ?_
  cases pd.dInode with
  | none => exact h.safe
  | some dir =>
    refine wp_seq (wp_mono (fun _ _ h => h) (fun e s' he => ?_) (ext2Lookup_spec h ha hd hnone))
      fun _ s' ⟨i, h⟩ => ⟨_, .grow, h⟩
    cases e with
    | errno ret => exact ⟨_, .keep ha, Good.keep he⟩
    | freed | oops | spin => exact he

theorem lookupChild_spec (h : Good R K L s) (hp : Held R K parent) :
    wp (lookupChild parent name) (fun a => Good R (a ::ₘ K) L) (Stopped R K L) s := by
  unfold lookupChild
  rw [wp_bind, wp_get]
  cases hfound : s.dcache.dLookup parent name with
  | some a =>
    obtain ⟨d, hd, -⟩ := dLookup_some hfound
    exact wp_seq (dget_spec h fun _ => ⟨d, hd⟩) fun _ _ h => h
  | none =>
    refine wp_seq (dAllocQstr_spec h hp) fun r s h => ?_
    cases r with
    | none => exact h
    | some a =>
      obtain ⟨h, ha, d, hd, hnone⟩ := h
      refine wp_mono (fun b s' ⟨R', hleak, h⟩ => h.weaken hleak.le) (fun e s' he => ?_)
        (lookupNew_spec h hp ha hd hnone)
      cases e with
      | errno ret =>
        obtain ⟨R', hleak, h⟩ := he
        exact h.weaken hleak.le
      | freed | oops | spin => exact he

/-! ## One step -/

def LooksUp (R : Ledger) (lookup : List UInt8 → V Path) : Prop :=
  ∀ ⦃target K L s⦄, Good R K L s →
    wp (lookup target) (GoodAt R K L) (Stopped R K L) s

theorem vfsSearchMount_some {mnt : Vfsmount} (h : vfsSearchMount s a = some (m, mnt)) :
    m ∈ s.gMounts ∧ s.mounts m = some mnt := by
  obtain ⟨k, hk, hmnt⟩ := List.exists_of_findSome?_eq_some h
  cases hs : s.mounts k with
  | none =>
    rw [hs] at hmnt
    cases hmnt
  | some mnt' =>
    rw [hs] at hmnt
    dsimp only at hmnt
    split_ifs at hmnt
    cases hmnt
    exact ⟨hk, hs⟩

theorem Counted.mnt_mem (h : Counted R K (m ::ₘ L) s) : m ∈ R.gMounts := by
  refine h.listed m ?_
  rw [add_cons]
  exact mem_cons_self m _

section Step

variable {lookup : List UInt8 → V Path} (hlookup : LooksUp R lookup)

include hlookup in
theorem followLink_spec {target : Except Int (List UInt8)} (h : Good R K L s) :
    wp (followLink lookup target) (GoodAt R K L) (Stopped R K L) s := by
  refine wp_seq (kmalloc_spec h) fun r s ⟨h, _⟩ => ?_
  cases r with
  | none => exact h
  | some _ =>
    cases target with
    | error ret => exact h
    | ok target => exact hlookup h

/-- What the error paths do: an error that is returned is followed by a cleanup. -/
theorem wp_cleanup {x : V α} {c : V Unit} (hx : wp x Q (Stopped R K' L') s)
    (hc : ∀ s, Good R K' L' s → wp c (fun _ => Good R K L) (Stopped R K L) s) :
    wp (onError Stop.isErrno x c) Q (Stopped R K L) s := by
  refine wp_onError (wp_mono (fun _ _ h => h) (fun e s he => ?_) hx)
  cases e with
  | errno ret => exact hc s he
  | freed | oops | spin => exact he

include hlookup in
theorem stepInto_spec (h : Good R (next ::ₘ path.dentry ::ₘ K) (path.mnt ::ₘ L) s) :
    wp (stepInto lookup path next) (GoodAt R K L)
      (Stopped R (path.dentry ::ₘ K) (path.mnt ::ₘ L)) s := by
  refine h.dentryAt held_cons fun d _ => ?_
  cases d.dInode with
  | none => exact wp_seq (dput_spec h) fun _ _ h => h
  | some ino =>
    rw [wp_bind, wp_get]
    cases hmounted : vfsSearchMount s next with
    | some mounted =>
      obtain ⟨m, mnt⟩ := mounted
      obtain ⟨hm, hmnt⟩ := vfsSearchMount_some hmounted
      rw [show s.gMounts = R.gMounts from congrArg Fixed.gMounts h.counted.fixed] at hm
      have hroot := h.counted.mntRoot hm hmnt
      refine wp_seq (mntget_spec h hm) fun _ s ⟨h, _⟩ => ?_
      refine wp_seq (dget_spec h fun _ => h.counted.allocated (.inl hroot)) fun _ s h => ?_
      rw [cons_swap] at h
      refine wp_seq (dput_spec h) fun _ s h => ?_
      rw [cons_swap, cons_swap m] at h
      exact wp_seq (pathPut_spec h) fun _ _ h => h
    | none =>
      rw [wp_bind, wp_get]
      split
      · refine wp_seq (wp_cleanup (followLink_spec hlookup h) fun s h => dput_spec h)
          fun p s h => ?_
        rw [GoodAt, cons_swap] at h
        refine wp_seq (dput_spec h) fun _ s h => ?_
        rw [cons_swap, cons_swap p.mnt] at h
        exact wp_seq (pathPut_spec h) fun _ _ h => h
      · refine wp_seq (mntget_spec h h.counted.mnt_mem) fun _ s ⟨h, _⟩ => ?_
        rw [cons_swap] at h
        exact wp_seq (pathPut_spec h) fun _ _ h => h

variable (h : GoodAt R K L path s)

include hlookup h in
theorem pathStepDown_spec : wp (pathStepDown lookup path name) (GoodAt R K L)
      (Stopped R (path.dentry ::ₘ K) (path.mnt ::ₘ L)) s :=
  wp_seq (lookupChild_spec h held_cons) fun _ _ h => stepInto_spec hlookup h

theorem vfsGetMntParent_spec (h : Good R K L s) (hm : m ∈ R.gMounts) :
    wp (vfsGetMntParent m) (GoodAt R K L) (Stopped R K L) s := by
  have hF := h.counted.fixed
  have hroot : s.gRootMnt = R.gRootMnt := congrArg Fixed.gRootMnt hF
  unfold vfsGetMntParent
  rw [wp_bind, wp_get]
  split
  · rw [hroot]
    refine wp_seq (mntget_spec h h.counted.rootMnt) fun _ s ⟨h, _⟩ => ?_
    obtain ⟨mnt, hmnt, -⟩ := h.counted.mounts _ h.counted.rootMnt
    rw [wp_bind, wp_mountAt hmnt]
    have hmem := h.counted.mntRoot h.counted.rootMnt hmnt
    exact wp_seq (dget_spec h fun _ => h.counted.allocated (.inl hmem)) fun _ _ h => h
  · obtain ⟨mnt, hmnt, -⟩ := h.counted.mounts m hm
    have hmem := h.counted.mntMountpoint hm hmnt
    obtain ⟨d, hd⟩ := h.counted.allocated (.inl hmem)
    rw [wp_bind, wp_mountAt hmnt, wp_bind, wp_dentryAt hd]
    split
    · exact h
    · rename_i m' hfound
      have hm' : m' ∈ R.gMounts := by
        rw [← hF]
        exact List.mem_of_find?_eq_some hfound
      refine wp_seq (mntget_spec h hm') fun _ s' ⟨h, hs'⟩ => ?_
      refine wp_seq (dget_spec h fun hclean => ?_) fun _ _ h => h
      obtain ⟨p, hp, -⟩ := (h.safe hclean).now _ d (by rw [hs']; exact hd)
      exact ⟨p, hp⟩

theorem pathAbove_spec (h : Good R K L s) (hm : path.mnt ∈ R.gMounts) (hd : Held R K path.dentry) :
    wp (pathAbove path) (GoodAt R K L) (Stopped R K L) s := by
  unfold pathAbove
  obtain ⟨mnt, hmnt, -⟩ := h.counted.mounts _ hm
  rw [wp_bind, wp_mountAt hmnt]
  split
  · exact vfsGetMntParent_spec h hm
  · refine wp_seq (mntget_spec h hm) fun _ s ⟨h, _⟩ => ?_
    refine h.dentryAt hd fun d hd => wp_seq (dget_spec h fun hclean => ?_) fun _ _ h => h
    obtain ⟨p, hp, -⟩ := (h.safe hclean).now _ d hd
    exact ⟨p, hp⟩

include h in
theorem pathStepUp_spec :
    wp (pathStepUp path) (GoodAt R K L) (Stopped R (path.dentry ::ₘ K) (path.mnt ::ₘ L)) s := by
  refine wp_bind.2 (wp_ite (fun _ => h) fun _ => ?_)
  refine wp_seq (pathAbove_spec h h.counted.mnt_mem held_cons) fun p s h => ?_
  rw [GoodAt, cons_swap, cons_swap p.mnt] at h
  exact wp_seq (pathPut_spec h) fun _ _ h => h

include hlookup h in
theorem pathStep_spec : wp (pathStep lookup path name) (GoodAt R K L) (Stopped R K L) s := by
  refine wp_cleanup ?_ fun s h => pathPut_spec h
  exact wp_ite (fun _ => pathStepUp_spec h) fun _ => pathStepDown_spec hlookup h

end Step

/-! ## Whole paths -/

theorem walk_spec (hlookup : LooksUp R lookup) (h : GoodAt R K L path s) :
    wp (walk lookup path names) (GoodAt R K L) (Stopped R K L) s := by
  induction names generalizing path s with
  | nil => exact h
  | cons name names ih =>
    exact wp_ite (fun _ => ih h) fun _ => wp_seq (pathStep_spec hlookup h) fun p s h => ih h

theorem pathInitStart_spec (h : Good R K L s) :
    wp (pathInitStart text) (GoodAt R K L) (Stopped R K L) s := by
  have hF := h.counted.fixed
  have hroot : s.root = R.root := congrArg Fixed.root hF
  have hpwd : s.pwd = R.pwd := congrArg Fixed.pwd hF
  unfold pathInitStart
  rw [wp_bind, wp_get, hroot, hpwd]
  refine wp_seq (pathGet_spec h ?_ ?_) fun _ _ h => h
  · refine h.counted.listed _ (mem_add.2 (.inl ?_))
    split <;> simp [Fixed.baseMounts]
  · refine .inl ?_
    split <;> simp [Fixed.baseDentries]

theorem pathLookup_spec (depth : Nat) : LooksUp R (pathLookup depth) := by
  induction depth with
  | zero => exact fun _ _ _ _ h => h.safe
  | succ depth ih =>
    intro text K L s h
    exact wp_ite (fun _ => h) fun _ => wp_seq (pathInitStart_spec h) fun p s h => walk_spec ih h

theorem walkParent_spec (hlookup : LooksUp R lookup) (h : GoodAt R K L path s) :
    wp (walkParent lookup path names) (fun r => GoodAt R K L r.1)
      (Stopped R K L) s := by
  induction names generalizing path s with
  | nil =>
    refine wp_seq (pathGet_spec h h.counted.mnt_mem held_cons) fun _ s h => ?_
    exact h.dentryAt held_cons fun d _ => wp_seq (pathPut_spec h) fun _ _ h => h
  | cons name names ih =>
    cases names with
    | nil => exact h
    | cons name' names =>
      exact wp_ite (fun _ => ih h) fun _ => wp_seq (pathStep_spec hlookup h) fun p s h => ih h

theorem pathParentat_spec (h : Good R K L s) :
    wp (pathParentat depth text) (fun r => GoodAt R K L r.1)
      (Stopped R K L) s :=
  wp_ite (fun _ => h) fun _ => wp_seq (pathInitStart_spec h) fun _ _ h =>
    walkParent_spec (pathLookup_spec depth) h

theorem pathLookupNofollow_spec (h : Good R K L s) :
    wp (pathLookupNofollow depth text) (GoodAt R K L) (Stopped R K L) s := by
  refine wp_ite (fun _ => h) fun _ => wp_seq (pathParentat_spec h) fun r s h => ?_
  refine wp_ite (fun _ => h) fun _ => wp_ite (fun _ => ?_) fun _ => ?_
  · exact wp_cleanup (pathStepUp_spec h) fun s h => pathPut_spec h
  · refine wp_cleanup ?_ fun s h => pathPut_spec h
    refine wp_seq (lookupChild_spec h held_cons) fun next s h => h.dentryAt held_cons fun d _ => ?_
    cases d.dInode with
    | none => exact wp_seq (dput_spec h) fun _ _ h => h
    | some _ =>
      -- The reference to the parent's dentry stays.
      rw [cons_swap] at h
      exact h.forget (le_cons_self _ _) le_rfl

end ZzzOs.Fs.Vfs
