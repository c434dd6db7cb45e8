import Mathlib.Data.Multiset.AddSub
import Mathlib.Data.Multiset.Count
import ZzzOs.Fs.Vfs.Dcache
import ZzzOs.Lib.Update

/-!
# References during a lookup

`Counted`: the references a walk holds to dentries and mounts are counted, besides those of `current->fs`
and of the mounts (a lookup that fails leaves references behind). A `Ledger` keeps those that are not the
walk's. The parents of dentries stay allocated as long as no `dput` frees one (`State.Clean`).
-/

namespace ZzzOs.Fs.Vfs

open Option Nat Function Multiset Lib Ext2

/-! ## The invariant -/

/-- What a lookup does not change: the inodes, the mounts apart from their counts, and
`current->fs`. -/
structure Fixed where
  gMounts : List Nat
  gRootMnt : Nat
  root : Path
  pwd : Path
  nodes : Ino → Except Int Node
  /-- The super block, the root and the mountpoint of a mount. -/
  mnts : Nat → Option (Nat × Addr × Addr)

def Vfsmount.fixed (mnt : Vfsmount) : Nat × Addr × Addr :=
  (mnt.mntSb, mnt.mntRoot, mnt.mntMountpoint)

def State.fixed (s : State) : Fixed where
  gMounts := s.gMounts
  gRootMnt := s.gRootMnt
  root := s.root
  pwd := s.pwd
  nodes := s.nodes
  mnts m := (s.mounts m).map Vfsmount.fixed

variable {s s' : State} {K K' : Multiset Addr} {L L' : Multiset Nat} {a b p q : Addr} {d : Dentry}
  {m : Nat} {ino : Ino} {name : Qstr} {path : Path}

/-- The dentries that mount `m` refers to. -/
def Fixed.mntDentries (F : Fixed) (m : Nat) : List Addr :=
  match F.mnts m with
  | none => []
  | some (_, root, mountpoint) => if m = F.gRootMnt then [root] else [root, mountpoint]

def Fixed.baseDentries (F : Fixed) : Multiset Addr :=
  F.root.dentry ::ₘ F.pwd.dentry ::ₘ (F.gMounts.flatMap F.mntDentries : Multiset Addr)

def Fixed.baseMounts (F : Fixed) : Multiset Nat := F.root.mnt ::ₘ F.pwd.mnt ::ₘ 0

/-- The references that are not those of a walk. -/
structure Ledger extends Fixed where
  /-- The references to a dentry. -/
  held : Addr → Nat
  /-- The references to an inode, besides those of dentries. -/
  slack : Ino → Nat
  /-- The inode of a dentry that is held. -/
  inodeOf : Addr → Option Ino
  /-- The parents of the dentries were right in the beginning. -/
  parents : Prop
  covers : ∀ a, toFixed.baseDentries.count a ≤ held a

variable {R R' : Ledger} {E : Stop → State → Prop}

def State.ledger (s : State) : Ledger where
  toFixed := s.fixed
  held a := s.fixed.baseDentries.count a
  slack _ := 0
  inodeOf a := (s.dcache.dentries a).bind Dentry.dInode
  parents := True
  covers _ := Nat.le_refl _

/-- One more reference to a dentry. -/
def Ledger.keep (R : Ledger) (a : Addr) (ino : Option Ino) : Ledger where
  toFixed := R.toFixed
  held := update R.held a (R.held a + 1)
  slack := R.slack
  inodeOf := update R.inodeOf a ino
  parents := R.parents
  covers b := update_cases (fun hb => hb ▸ Nat.le_succ_of_le (R.covers b)) fun _ => R.covers b

/-- One more reference to an inode. -/
def Ledger.grow (R : Ledger) (ino : Ino) : Ledger :=
  { R with slack := update R.slack ino (R.slack ino + 1) }

/-- All references are counted, with `K` and `L` for those of a walk. -/
structure Counted (R : Ledger) (K : Multiset Addr) (L : Multiset Nat) (s : State) : Prop where
  fixed : s.fixed = R.toFixed
  cache : s.dcache.WF
  held : ∀ a, R.held a + K.count a ≤ s.dcache.count a
  kept : ∀ a, 0 < R.held a → (s.dcache.dentries a).bind Dentry.dInode = R.inodeOf a
  inodes : ∀ ino, s.dcache.inodeRefs ino + R.slack ino ≤ s.icache ino
  /-- The list of the mounts holds one more reference to each of them. -/
  mounts : ∀ m ∈ R.gMounts, ∃ mnt, s.mounts m = some mnt ∧ (R.baseMounts + L).count m < mnt.refcount
  rootMnt : R.gRootMnt ∈ R.gMounts
  /-- The root mount stands on its own root. -/
  rootPoint : ∀ x ∈ R.mnts R.gRootMnt, x.2.2 = x.2.1
  listed : ∀ m ∈ R.baseMounts + L, m ∈ R.gMounts

/-- No `dput` so far has freed the parent of another dentry. -/
def State.Clean (s : State) : Prop := ∀ e ∈ s.trace, e.1.Leaves e.2

/-- The parents were right before and after each `dput`, and they are now. -/
structure State.AllSafe (s : State) : Prop where
  before : ∀ e ∈ s.trace, e.1.Safe ∧ (e.1.put e.2).Safe
  now : s.dcache.Safe

structure Good (R : Ledger) (K : Multiset Addr) (L : Multiset Nat) (s : State) : Prop where
  counted : Counted R K L s
  safe : R.parents ∧ s.Clean → s.AllSafe

/-- A call has returned the path `p` with its references. -/
abbrev GoodAt (R : Ledger) (K : Multiset Addr) (L : Multiset Nat) (p : Path) : State → Prop :=
  Good R (p.dentry ::ₘ K) (p.mnt ::ₘ L)

/-- What is known when a call stops. -/
def Stopped (R : Ledger) (K : Multiset Addr) (L : Multiset Nat) : Stop → State → Prop
  | .errno _, s => Good R K L s
  | .freed, s => ¬ (R.parents ∧ s.Clean)
  | _, s => R.parents ∧ s.Clean → s.AllSafe

/-- A dentry that something refers to. -/
def Held (R : Ledger) (K : Multiset Addr) (a : Addr) : Prop := a ∈ R.baseDentries ∨ a ∈ K

theorem Held.cons (h : Held R K a) : Held R (b ::ₘ K) a := h.imp_right mem_cons_of_mem

theorem held_cons : Held R (a ::ₘ K) a := .inr (mem_cons_self a K)

/-- What has to be shown again when the dentries or the counts of inodes change. -/
theorem Counted.change (h : Counted R K L s) (hfixed : s'.fixed = s.fixed)
    (hmounts : s'.mounts = s.mounts) (hcache : s'.dcache.WF)
    (hheld : ∀ a, R.held a + K'.count a ≤ s'.dcache.count a)
    (hkept : ∀ a, 0 < R.held a →
      (s'.dcache.dentries a).bind Dentry.dInode = (s.dcache.dentries a).bind Dentry.dInode)
    (hinodes : ∀ ino, s'.dcache.inodeRefs ino + R.slack ino ≤ s'.icache ino) :
    Counted R K' L s' where
  fixed := hfixed.trans h.fixed
  cache := hcache
  held := hheld
  kept a ha := (hkept a ha).trans (h.kept a ha)
  inodes := hinodes
  mounts := by
    rw [hmounts]
    exact h.mounts
  rootMnt := h.rootMnt
  rootPoint := h.rootPoint
  listed := h.listed

/-- What is referred to has not been freed. -/
theorem Counted.allocated (h : Counted R K L s) (ha : Held R K a) :
    ∃ d, s.dcache.dentries a = some d := by
  refine allocated_of_count ?_
  have hle := h.held a
  rcases ha with ha | ha
  · have hpos := count_pos.2 ha
    have hcovers := R.covers a
    omega
  · have hpos := count_pos.2 ha
    omega

theorem mem_base {F : Fixed} (hm : m ∈ F.gMounts) (hq : q ∈ F.mntDentries m) :
    q ∈ F.baseDentries :=
  mem_cons_of_mem (mem_cons_of_mem (mem_coe.2 (List.mem_flatMap.2 ⟨m, hm, hq⟩)))

theorem Counted.mnts {mnt : Vfsmount} (h : Counted R K L s) (hmnt : s.mounts m = some mnt) :
    R.mnts m = some mnt.fixed := by
  rw [← h.fixed]
  show (s.mounts m).map Vfsmount.fixed = _
  rw [hmnt]
  rfl

section Mounts

variable {mnt : Vfsmount} (h : Counted R K L s) (hm : m ∈ R.gMounts) (hmnt : s.mounts m = some mnt)

include h hm hmnt

theorem Counted.mntRoot : mnt.mntRoot ∈ R.baseDentries := by
  refine mem_base hm ?_
  rw [Fixed.mntDentries, h.mnts hmnt]
  dsimp only [Vfsmount.fixed]
  split <;> exact List.mem_cons_self

/-- The mountpoint of the root mount is its root, which is counted. -/
theorem Counted.mntMountpoint : mnt.mntMountpoint ∈ R.baseDentries := by
  by_cases hroot : m = R.gRootMnt
  · have hsame : mnt.mntMountpoint = mnt.mntRoot :=
      h.rootPoint mnt.fixed (hroot ▸ h.mnts hmnt)
    rw [hsame]
    exact h.mntRoot hm hmnt
  · refine mem_base hm ?_
    rw [Fixed.mntDentries, h.mnts hmnt]
    dsimp only [Vfsmount.fixed]
    rw [if_neg hroot]
    simp

end Mounts

/-- References may be lost. -/
theorem Counted.forget (h : Counted R K' L' s) (hK : K ≤ K') (hL : L ≤ L') : Counted R K L s where
  fixed := h.fixed
  cache := h.cache
  held a := Nat.le_trans (Nat.add_le_add_left (count_le_of_le a hK) _) (h.held a)
  kept := h.kept
  inodes := h.inodes
  mounts m hm := by
    obtain ⟨mnt, hmnt, hlt⟩ := h.mounts m hm
    exact ⟨mnt, hmnt, Nat.lt_of_le_of_lt (count_le_of_le m (Multiset.add_le_add_left hL)) hlt⟩
  rootMnt := h.rootMnt
  rootPoint := h.rootPoint
  listed m hm := h.listed m (mem_of_le (Multiset.add_le_add_left hL) hm)

/-- The references of the state itself are counted if those of a ledger are. -/
theorem Counted.self (h : Counted R K L s) : Counted s.ledger K L s := by
  obtain ⟨hfixed, hcache, hheld, -, hinodes, hmounts, hroot, hpoint, hlisted⟩ := h
  have hcovers := R.covers
  rw [← hfixed] at hcovers hmounts hroot hpoint hlisted
  exact ⟨rfl, hcache, fun a => Nat.le_trans (Nat.add_le_add_right (hcovers a) _) (hheld a),
    fun _ _ => rfl, fun ino => Nat.le_trans (Nat.le_add_right _ _) (hinodes ino), hmounts, hroot,
    hpoint, hlisted⟩

theorem Good.forget (h : Good R K' L' s) (hK : K ≤ K') (hL : L ≤ L') : Good R K L s :=
  ⟨h.counted.forget hK hL, h.safe⟩

/-- A ledger with no more references. -/
structure Ledger.Le (R R' : Ledger) : Prop where
  fixed : R.toFixed = R'.toFixed
  held : ∀ a, R.held a ≤ R'.held a
  slack : ∀ ino, R.slack ino ≤ R'.slack ino
  inodeOf : ∀ a, 0 < R.held a → R.inodeOf a = R'.inodeOf a
  parents : R.parents = R'.parents

theorem le_keep {i : Option Ino} (hi : R.held a = 0) : R.Le (R.keep a i) where
  fixed := rfl
  held b := by
    show _ ≤ update R.held a _ b
    exact update_cases (fun hb => hb ▸ le_succ _) fun _ => le_refl _
  slack _ := le_refl _
  inodeOf b hb := by
    have hba : b ≠ a := by
      rintro rfl
      omega
    exact (update_of_ne hba ..).symm
  parents := rfl

theorem le_grow : R.Le (R.grow ino) where
  fixed := rfl
  held _ := le_refl _
  slack i := by
    show _ ≤ update R.slack ino _ i
    exact update_cases (fun hi => hi ▸ le_succ _) fun _ => le_refl _
  inodeOf _ _ := rfl
  parents := rfl

/-- A smaller ledger is counted as well. -/
theorem Good.weaken (h : Good R' K L s) (hle : R.Le R') : Good R K L s := by
  obtain ⟨hc, hsafe⟩ := h
  obtain ⟨F, held, slack, inodeOf, parents, covers⟩ := R
  obtain ⟨hF, hheld, hslack, hinode, hparents⟩ := hle
  subst hF hparents
  exact ⟨⟨hc.fixed, hc.cache, fun a => Nat.le_trans (Nat.add_le_add_right (hheld a) _) (hc.held a),
    fun a ha => (hc.kept a (Nat.lt_of_lt_of_le ha (hheld a))).trans (hinode a ha).symm,
    fun ino => Nat.le_trans (Nat.add_le_add_left (hslack ino) _) (hc.inodes ino),
    hc.mounts, hc.rootMnt, hc.rootPoint, hc.listed⟩, hsafe⟩

/-- A reference of the walk becomes one of the ledger. -/
theorem Good.keep (h : Good R (a ::ₘ K) L s) :
    Good (R.keep a ((s.dcache.dentries a).bind Dentry.dInode)) K L s := by
  have hc := h.counted
  refine ⟨⟨hc.fixed, hc.cache, fun b => ?_, fun b hb => ?_, hc.inodes, hc.mounts, hc.rootMnt,
    hc.rootPoint, hc.listed⟩, h.safe⟩
  · have hle := hc.held b
    show update R.held a _ b + _ ≤ _
    refine update_cases (fun hba => ?_) fun hba => ?_
    · subst hba
      rw [count_cons_self] at hle
      omega
    · rw [count_cons_of_ne hba] at hle
      exact hle
  · show _ = update R.inodeOf a _ b
    refine update_cases (fun hba => ?_) fun hba => ?_
    · rw [hba]
    · have hpos : 0 < update R.held a (R.held a + 1) b := hb
      rw [update_of_ne hba] at hpos
      exact hc.kept b hpos

theorem Good.allSafe (h : Good R K L s) (ht : s'.trace = s.trace)
    (hsafe : s.dcache.Safe → s'.dcache.Safe) : R.parents ∧ s'.Clean → s'.AllSafe := by
  unfold State.Clean
  rw [ht]
  intro hclean
  obtain ⟨hbefore, hnow⟩ := h.safe hclean
  exact ⟨by rw [ht]; exact hbefore, hsafe hnow⟩

/-! ## Dentries -/

/-- A dentry that is allocated as long as no parent was freed can be followed. -/
theorem wp_dentryAt_of_clean {Q : Dentry → State → Prop}
    (h : R.parents ∧ s.Clean → ∃ d, s.dcache.dentries a = some d)
    (hQ : ∀ d, s.dcache.dentries a = some d → Q d s) :
    wp (dentryAt a) Q (Stopped R K L) s := by
  unfold wp dentryAt
  cases hd : s.dcache.dentries a with
  | none =>
    refine fun hclean => ?_
    obtain ⟨d, hd'⟩ := h hclean
    rw [hd] at hd'
    cases hd'
  | some d => exact hQ d hd

section Get

variable (h : Good R K L s)

include h

theorem good_dget (hd : s.dcache.dentries a = some d) :
    Good R (a ::ₘ K) L (s.setDcache (s.dcache.set a { d with dCount := d.dCount + 1 })) := by
  have hc := h.counted
  refine ⟨hc.change rfl rfl (hc.cache.set hd (succ_pos _)) (fun b => ?_)
    (fun b _ => inode_set hd rfl) fun ino => ?_,
    h.allSafe rfl fun hsafe => hsafe.set hd rfl rfl rfl⟩
  · have hle := hc.held b
    by_cases hb : b = a
    · subst hb
      rw [count_eq hd] at hle
      rw [count_cons_self, State.setDcache, count_set_self]
      exact succ_le_succ hle
    · rw [count_cons_of_ne hb, State.setDcache, count_set_of_ne hb]
      exact hle
  · rw [State.setDcache, inodeRefs_set hd (by rfl)]
    exact hc.inodes ino

/-- `dget` takes a reference, or follows a dentry after a parent was freed. -/
theorem dget_spec (ha : R.parents ∧ s.Clean → ∃ d, s.dcache.dentries a = some d) :
    wp (dget a) (fun _ => Good R (a ::ₘ K) L) (Stopped R K' L') s := by
  unfold dget
  rw [wp_bind]
  exact wp_dentryAt_of_clean ha fun d hd => wp_modify.2 (good_dget h hd)

end Get

/-- The state after the last reference to a dentry was given back: its inode loses one. -/
def State.dropInode (s : State) : Option Ino → State
  | none => s
  | some ino => s.setIcount ino (s.icache ino - 1)

theorem iput_eq (h : s.icache ino ≠ 0) : iput ino s = .ok () (s.dropInode (some ino)) := by
  rw [iput, if_neg h]
  rfl

section Put

variable (h : Good R (a ::ₘ K) L s) (hd : s.dcache.dentries a = some d)

/-- The state after `dput`. -/
def State.putDentry (s : State) (a : Addr) (d : Dentry) : State :=
  let s' := { s with dcache := s.dcache.put a, trace := (s.dcache, a) :: s.trace }
  if d.dCount ≤ 1 then s'.dropInode d.dInode else s'

include hd in
/-- With the last reference to the dentry goes one to its inode. -/
theorem dput_eq (hino : d.dCount ≤ 1 → ∀ ino, d.dInode = some ino → s.icache ino ≠ 0) :
    dput a s = .ok () (s.putDentry a d) := by
  unfold dput State.putDentry
  show EStateM.bind (dentryAt a) _ s = _
  unfold EStateM.bind
  rw [dentryAt_eq hd]
  dsimp only
  by_cases hle : d.dCount ≤ 1
  · rw [if_pos hle, if_pos hle]
    cases hi : d.dInode with
    | none => rfl
    | some ino => exact iput_eq (hino hle ino hi)
  · rw [if_neg hle, if_neg hle]
    rfl

theorem putDentry_dcache : (s.putDentry a d).dcache = s.dcache.put a := by
  unfold State.putDentry State.dropInode
  split
  · split <;> rfl
  · rfl

theorem putDentry_trace : (s.putDentry a d).trace = (s.dcache, a) :: s.trace := by
  unfold State.putDentry State.dropInode
  split
  · split <;> rfl
  · rfl

theorem putDentry_fixed : (s.putDentry a d).fixed = s.fixed ∧
    (s.putDentry a d).mounts = s.mounts := by
  unfold State.putDentry State.dropInode
  split
  · split <;> exact ⟨rfl, rfl⟩
  · exact ⟨rfl, rfl⟩

include hd in
/-- The dentry is freed with its last reference, or it has one less. -/
theorem put_cases : (d.dCount ≤ 1 ∧ s.dcache.put a = s.dcache.remove a) ∨
    (1 < d.dCount ∧ s.dcache.put a = s.dcache.set a { d with dCount := d.dCount - 1 }) := by
  unfold Dcache.put
  rw [hd]
  dsimp only
  split
  · exact .inl ⟨‹_›, rfl⟩
  · exact .inr ⟨by omega, rfl⟩

include h hd in
/-- The reference that is given back was one of the walk. -/
theorem counted_put : Counted R K L (s.putDentry a d) := by
  have hc := h.counted
  have hself := hc.held a
  rw [count_cons_self, count_eq hd] at hself
  refine hc.change putDentry_fixed.1 putDentry_fixed.2 ?_ (fun b => ?_) (fun b hb => ?_) fun ino => ?_
  · rw [putDentry_dcache]
    rcases put_cases hd with ⟨-, heq⟩ | ⟨hlt, heq⟩ <;> rw [heq]
    · exact hc.cache.remove
    · exact hc.cache.set hd (by show 0 < d.dCount - 1; omega)
  · have hle := hc.held b
    rw [putDentry_dcache]
    by_cases hb : b = a
    · subst hb
      rcases put_cases hd with ⟨hone, heq⟩ | ⟨hlt, heq⟩ <;> rw [heq]
      · omega
      · rw [count_set_self]
        show _ ≤ d.dCount - 1
        omega
    · rw [count_cons_of_ne hb] at hle
      rcases put_cases hd with ⟨-, heq⟩ | ⟨-, heq⟩ <;> rw [heq]
      · rw [count_remove_of_ne hb]
        exact hle
      · rw [count_set_of_ne hb]
        exact hle
  · rw [putDentry_dcache]
    rcases put_cases hd with ⟨hone, heq⟩ | ⟨-, heq⟩ <;> rw [heq]
    · have hba : b ≠ a := by
        rintro rfl
        omega
      rw [remove_of_ne hba]
    · exact inode_set hd rfl
  · have hle := hc.inodes ino
    rw [putDentry_dcache]
    rcases put_cases hd with ⟨hone, heq⟩ | ⟨hlt, heq⟩ <;> rw [heq]
    · have hrefs := inodeRefs_remove ino hc.cache hd
      unfold State.putDentry
      rw [if_pos hone]
      cases hi : d.dInode with
      | none =>
        show _ ≤ s.icache ino
        omega
      | some i =>
        rw [hi] at hrefs
        show _ ≤ update s.icache i (s.icache i - 1) ino
        refine update_cases (fun hii => ?_) fun _ => by omega
        subst hii
        rw [if_pos rfl] at hrefs
        omega
    · rw [inodeRefs_set hd (by rfl)]
      unfold State.putDentry
      rw [if_neg (by omega)]
      exact hle

include h in
/-- A `dput` of the walk's reference does not fail. -/
theorem dput_spec : wp (dput a) (fun _ => Good R K L) E s := by
  have hc := h.counted
  obtain ⟨d, hd⟩ := hc.allocated held_cons
  have hino : d.dCount ≤ 1 → ∀ ino, d.dInode = some ino → s.icache ino ≠ 0 := by
    intro _ ino hi
    have hrefs := inodeRefs_remove ino hc.cache hd
    rw [if_pos hi] at hrefs
    have hle := hc.inodes ino
    omega
  refine wp_of_ok (dput_eq hd hino) ⟨counted_put h hd, fun hclean => ?_⟩
  unfold State.Clean at hclean
  rw [putDentry_trace] at hclean
  obtain ⟨hbefore, hnow⟩ := h.safe ⟨hclean.1, fun e he => hclean.2 e (List.mem_cons_of_mem _ he)⟩
  have hput := hnow.put (hclean.2 (s.dcache, a) List.mem_cons_self)
  refine ⟨fun e he => ?_, ?_⟩
  · rw [putDentry_trace] at he
    rcases List.mem_cons.1 he with rfl | he
    · exact ⟨hnow, hput⟩
    · exact hbefore e he
  · rw [putDentry_dcache]
    exact hput

end Put

/-! ## Mounts -/

section Mount

variable {mnt mnt' : Vfsmount}

theorem Good.setMount (h : Good R K L s) (hm : s.mounts m = some mnt)
    (hsame : mnt'.fixed = mnt.fixed) (hself : (R.baseMounts + L').count m < mnt'.refcount)
    (hother : ∀ k ≠ m, (R.baseMounts + L').count k = (R.baseMounts + L).count k)
    (hlisted : ∀ k ∈ R.baseMounts + L', k ∈ R.gMounts) : Good R K L' (s.setMount m (some mnt')) := by
  have hc := h.counted
  have hfixed : (s.setMount m (some mnt')).fixed = s.fixed := by
    refine congrArg (Fixed.mk s.gMounts s.gRootMnt s.root s.pwd s.nodes) (funext fun k => ?_)
    show (update s.mounts m (some mnt') k).map Vfsmount.fixed = _
    refine update_cases (fun hk => ?_) fun _ => rfl
    rw [hk, hm, map_some, map_some, hsame]
  refine ⟨⟨hfixed.trans hc.fixed, hc.cache, hc.held, hc.kept, hc.inodes, fun k hk => ?_, hc.rootMnt,
    hc.rootPoint, hlisted⟩, h.allSafe rfl id⟩
  by_cases hkm : k = m
  · subst hkm
    exact ⟨mnt', update_self .., hself⟩
  · obtain ⟨mk, hmk, hlt⟩ := hc.mounts k hk
    refine ⟨mk, ?_, ?_⟩
    · rw [← hmk]
      exact update_of_ne hkm ..
    · rw [hother k hkm]
      exact hlt

theorem mntget_spec (h : Good R K L s) (hm : m ∈ R.gMounts) :
    wp (mntget m) (fun _ s' => Good R K (m ::ₘ L) s' ∧ s'.dcache = s.dcache) E s := by
  obtain ⟨mnt, hmnt, hlt⟩ := h.counted.mounts m hm
  unfold mntget
  rw [wp_bind, wp_mountAt hmnt, wp_modify]
  refine ⟨h.setMount hmnt rfl ?_ (fun k hk => ?_) fun k hk => ?_, rfl⟩
  · rw [add_cons, count_cons_self]
    exact succ_lt_succ hlt
  · rw [add_cons, count_cons_of_ne hk]
  · rw [add_cons, mem_cons] at hk
    rcases hk with rfl | hk
    · exact hm
    · exact h.counted.listed k hk

/-- A mount is never freed here: the list of the mounts refers to it. -/
theorem mntput_spec (h : Good R K (m ::ₘ L) s) : wp (mntput m) (fun _ => Good R K L) E s := by
  have hlisted := h.counted.listed
  rw [add_cons] at hlisted
  obtain ⟨mnt, hmnt, hlt⟩ := h.counted.mounts m (hlisted m (mem_cons_self m _))
  rw [add_cons, count_cons_self] at hlt
  unfold mntput
  rw [wp_bind, wp_mountAt hmnt, wp_modify, if_neg (by omega)]
  refine h.setMount hmnt rfl ?_ (fun k hk => ?_) fun k hk => ?_
  · show _ < mnt.refcount - 1
    omega
  · rw [add_cons, count_cons_of_ne hk]
  · exact hlisted k (mem_cons_of_mem hk)

end Mount

theorem pathGet_spec (h : Good R K L s) (hm : path.mnt ∈ R.gMounts) (hd : Held R K path.dentry) :
    wp (pathGet path) (fun _ => GoodAt R K L path) (Stopped R K' L') s :=
  wp_seq (mntget_spec h hm) fun _ _ ⟨h, _⟩ => dget_spec h fun _ => h.counted.allocated hd

theorem pathPut_spec (h : GoodAt R K L path s) : wp (pathPut path) (fun _ => Good R K L) E s :=
  wp_seq (mntput_spec h) fun _ _ h => dput_spec h

/-! ## Lookup -/

/-- A step that leaves the dentries and mounts alone. -/
theorem Good.same (h : Good R K L s) (hfixed : s'.fixed = s.fixed) (hmounts : s'.mounts = s.mounts)
    (hd : s'.dcache = s.dcache) (hi : ∀ ino, s.icache ino ≤ s'.icache ino)
    (ht : s'.trace = s.trace) : Good R K L s' := by
  have hc := h.counted
  refine ⟨hc.change hfixed hmounts ?_ ?_ ?_ fun ino => ?_, h.allSafe ht ?_⟩
  · rw [hd]
    exact hc.cache
  · rw [hd]
    exact hc.held
  · rw [hd]
    exact fun _ _ => rfl
  · rw [hd]
    exact le_trans (hc.inodes ino) (hi ino)
  · rw [hd]
    exact id

/-- New memory is not that of a dentry. -/
theorem kmalloc_spec (h : Good R K L s) :
    wp kmalloc (fun r s' => Good R K L s' ∧ ∀ a, r = some a → s'.dcache.dentries a = none) E s := by
  unfold wp kmalloc
  cases hmem : s.mem with
  | nil => exact ⟨h, nofun⟩
  | cons r mem =>
    refine ⟨h.same rfl rfl rfl (fun _ => le_refl _) rfl, fun a ha => ?_⟩
    obtain ⟨b, -, hb⟩ := bind_eq_some_iff.1 ha
    split_ifs at hb with hnot
    cases hb
    rw [not_or, not_isSome_iff_eq_none] at hnot
    exact hnot.2

end ZzzOs.Fs.Vfs
