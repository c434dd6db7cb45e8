import Mathlib.Data.List.Perm.Subperm
import ZzzOs.Fs.Vfs.Parents
import ZzzOs.Fs.Vfs.Warm
import ZzzOs.Lib.Runs

/-!
# Counts after a lookup

A lookup that fails, or that succeeds and is given back, leaves all counts as they were exactly if
it finds its dentries in the cache (`lookup_keeps_counts_iff`). Lookups in the cache keep the parents
of the dentries, too (`parentsLive_of_fineRun`).
-/

namespace ZzzOs.Fs.Vfs

open Function Option Nat List Multiset Lib Ext2

variable {s₀ s s' : State} {K K' K₁ : Multiset Addr} {L L' L₁ : Multiset Nat} {mem : Mem}
  {a parent next : Addr} {d : Dentry} {m : Nat} {ino : Ino} {name : Qstr} {path p : Path}
  {R : Ledger} {depth : Nat} {text : List UInt8}

/-! ## Leaks -/

/-- All references that there are. -/
def State.exact (s : State) (h : Counted s.ledger 0 0 s) : Ledger where
  toFixed := s.fixed
  held := s.dcache.count
  slack ino := s.icache ino - s.dcache.inodeRefs ino
  inodeOf a := (s.dcache.dentries a).bind Dentry.dInode
  parents := False
  covers a := by
    have hle := h.held a
    rw [Multiset.count_zero] at hle
    exact hle

section

variable (h : Warmed s₀ K L mem s)

include h

theorem Warmed.wf (hwf : s₀.dcache.WF) : s.dcache.WF where
  nodup := by
    rw [h.table]
    exact hwf.nodup
  mem a := by
    rw [h.table, h.dentries a, isSome_map]
    exact hwf.mem a
  positive {a d} hd := by
    rw [h.dentries a] at hd
    obtain ⟨d₀, hd₀, rfl⟩ := map_eq_some_iff.1 hd
    exact Nat.add_pos_left (hwf.positive hd₀) _

theorem Warmed.inode :
    (s.dcache.dentries a).bind Dentry.dInode = (s₀.dcache.dentries a).bind Dentry.dInode := by
  rw [h.dentries a]
  cases s₀.dcache.dentries a <;> rfl

theorem Warmed.count : s.dcache.count a = s₀.dcache.count a + K.count a := by
  cases hd : s₀.dcache.dentries a with
  | none =>
    have hK : K.count a = 0 := by
      refine count_eq_zero.2 fun ha => ?_
      have hsome := h.held a ha
      rw [hd] at hsome
      cases hsome
    rw [Dcache.count, Dcache.count, h.dentries a, hd, hK]
    rfl
  | some d => rw [count_eq hd, count_eq (h.dentry hd)]

end

section Counted

variable (hc : Counted s₀.ledger 0 0 s₀)

theorem Warmed.good (h : Warmed s₀ K L mem s) : Good (s₀.exact hc) K L s := by
  refine ⟨⟨h.fixed, h.wf hc.cache, fun a => Nat.le_of_eq h.count.symm, fun a _ => h.inode,
    fun ino => ?_, fun m hm => ?_, hc.rootMnt, hc.rootPoint, fun m hm => ?_⟩, fun hf => hf.1.elim⟩
  · have hrefs : s.dcache.inodeRefs ino = s₀.dcache.inodeRefs ino := by
      unfold Dcache.inodeRefs
      rw [h.table]
      exact countP_congr fun a _ => by rw [h.inode]
    have hle := hc.inodes ino
    rw [hrefs, h.icache]
    show _ + (s₀.icache ino - s₀.dcache.inodeRefs ino) ≤ _
    omega
  · obtain ⟨mnt, hmnt, hlt⟩ := hc.mounts m hm
    refine ⟨_, h.mount hmnt, ?_⟩
    rw [Multiset.count_add]
    exact Nat.add_lt_add_right hlt _
  · rcases mem_add.1 hm with hm | hm
    · exact hc.listed m (mem_add.2 (.inl hm))
    · exact h.listed m hm

/-- A reference was left behind. -/
def Leaky (R₀ : Ledger) (K : Multiset Addr) (L : Multiset Nat) (s : State) : Prop :=
  ∃ R, R₀.Leak R ∧ Good R K L s

/-! ## Foreseen ends -/

section Forecast

variable (s₀ K L)

def Forecast.Ok : Forecast → Path → State → Prop
  | .found p mem, q, s => q = p ∧ WarmedAt s₀ K L mem q s
  | .fails _, _, _ => False
  | .leaves, q, s => Leaky (s₀.exact hc) (q.dentry ::ₘ K) (q.mnt ::ₘ L) s

def Forecast.Err : Forecast → Stop → State → Prop
  | .found _ _, _, _ => False
  | .fails mem, e, s => e.isErrno = true ∧ Warmed s₀ K L mem s
  | .leaves, e, s => e.isErrno = true → Leaky (s₀.exact hc) K L s

end Forecast

variable {f : Forecast} {x : V Path} {c : V Unit} {E : Stop → State → Prop}

theorem leaves_of_good (hleak : (s₀.exact hc).Leak R)
    (h : wp x (GoodAt R K L) (Stopped R K' L') s) :
    wp x (Forecast.leaves.Ok s₀ K L hc) (Forecast.leaves.Err s₀ K' L' hc) s := by
  refine wp_mono (fun p s' h => ⟨R, hleak, h⟩) (fun e s' he => ?_) h
  cases e with
  | errno ret => exact fun _ => ⟨R, hleak, he⟩
  | freed | oops | spin => exact nofun

theorem Forecast.cleanup {Q : Path → State → Prop} (h : wp x Q (f.Err s₀ K' L' hc) s)
    (hwarm : ∀ {mem s E}, Warmed s₀ K' L' mem s → wp c (fun _ => Warmed s₀ K L mem) E s)
    (hgood : ∀ {R s E}, Good R K' L' s → wp c (fun _ => Good R K L) E s) :
    wp (onError Stop.isErrno x c) Q (f.Err s₀ K L hc) s := by
  refine wp_onError (wp_mono (fun _ _ h => h) (fun e s he => ?_) h)
  cases f with
  | found p mem => exact he.elim
  | fails mem =>
    obtain ⟨hret, hw⟩ := he
    rw [if_pos hret]
    exact wp_post (fun _ _ h => ⟨hret, h⟩) (hwarm hw)
  | leaves =>
    split_ifs with hret
    · obtain ⟨R, hleak, hg⟩ := he hret
      exact wp_post (fun _ _ h _ => ⟨R, hleak, h⟩) (hgood hg)
    · exact fun hret' => absurd hret' hret

theorem Forecast.Ok.release (h : f.Ok s₀ K₁ L₁ hc p s)
    (hwarm : ∀ {mem s E}, Warmed s₀ (p.dentry ::ₘ K₁) (p.mnt ::ₘ L₁) mem s →
      wp c (fun _ => Warmed s₀ (p.dentry ::ₘ K) (p.mnt ::ₘ L) mem) E s)
    (hgood : ∀ {R s E}, Good R (p.dentry ::ₘ K₁) (p.mnt ::ₘ L₁) s →
      wp c (fun _ => Good R (p.dentry ::ₘ K) (p.mnt ::ₘ L)) E s) :
    wp c (fun _ => f.Ok s₀ K L hc p) E s := by
  cases f with
  | found q mem => exact wp_post (fun _ _ hw => ⟨h.1, hw⟩) (hwarm h.2)
  | fails mem => exact h.elim
  | leaves =>
    obtain ⟨R, hleak, hg⟩ := h
    exact wp_post (fun _ _ hg => ⟨R, hleak, hg⟩) (hgood hg)

/-- The walk gives back the path that it has left. -/
theorem Forecast.Ok.pathPut (h : f.Ok s₀ (path.dentry ::ₘ K) (path.mnt ::ₘ L) hc p s) :
    wp (pathPut path) (fun _ => f.Ok s₀ K L hc p) E s := by
  refine h.release hc (fun h => ?_) fun h => ?_
  all_goals rw [cons_swap, cons_swap p.mnt] at h
  · exact warm_pathPut hc h
  · exact pathPut_spec h

/-! ## The walk -/

section Walk

variable {lookup : List UInt8 → V Path} {cached : List UInt8 → Mem → Forecast}

/-- The lookups of link targets are foreseen. -/
def Foreseen (lookup : List UInt8 → V Path) (cached : List UInt8 → Mem → Forecast) : Prop :=
  ∀ ⦃text K L mem s⦄, Warmed s₀ K L mem s →
    wp (lookup text) ((cached text mem).Ok s₀ K L hc) ((cached text mem).Err s₀ K L hc) s

variable (hlookup : Foreseen hc lookup cached) (hgood : ∀ R, LooksUp R lookup)

include hlookup in
theorem followLink_foreseen {target : Except Int (List UInt8)} (h : Warmed s₀ K L mem s) :
    wp (followLink lookup target) ((cachedLink s₀ cached target mem).Ok s₀ K L hc)
      ((cachedLink s₀ cached target mem).Err s₀ K L hc) s := by
  unfold followLink cachedLink
  refine wp_seq (warm_kmalloc h) fun r s ⟨hr, h⟩ => ?_
  generalize kmallocAt s₀ mem = k at hr h
  obtain ⟨r', mem'⟩ := k
  subst hr
  cases r with
  | none => exact ⟨rfl, h⟩
  | some _ =>
    cases target with
    | error ret => exact ⟨rfl, h⟩
    | ok target => exact hlookup h

include hlookup in
theorem stepInto_foreseen (h : Warmed s₀ (next ::ₘ path.dentry ::ₘ K) (path.mnt ::ₘ L) mem s) :
    wp (stepInto lookup path next) ((cachedInto s₀ cached path next mem).Ok s₀ K L hc)
      ((cachedInto s₀ cached path next mem).Err s₀ (path.dentry ::ₘ K) (path.mnt ::ₘ L) hc) s := by
  obtain ⟨d, hd⟩ := isSome_iff_exists.1 (h.held next (mem_cons_self _ _))
  unfold stepInto cachedInto
  rw [wp_bind, wp_dentryAt (h.dentry hd), hd]
  dsimp only [bind_some]
  cases d.dInode with
  | none => exact wp_seq (warm_dput hc h) fun _ _ h => ⟨rfl, h⟩
  | some ino =>
    rw [wp_bind, wp_get, h.vfsSearchMount]
    cases hmounted : vfsSearchMount s₀ next with
    | some mounted =>
      obtain ⟨m, mnt⟩ := mounted
      obtain ⟨hm, hmnt⟩ := vfsSearchMount_some hmounted
      have hroot := hc.allocated (.inl (hc.mntRoot hm hmnt))
      refine wp_seq (warm_mntget hc h hm) fun _ s h => ?_
      refine wp_seq (warm_dget h (isSome_iff_exists.2 hroot)) fun _ s h => ?_
      rw [cons_swap] at h
      refine wp_seq (warm_dput hc h) fun _ s h => ?_
      rw [cons_swap, cons_swap m] at h
      exact wp_seq (warm_pathPut hc h) fun _ _ h => ⟨rfl, h⟩
    | none =>
      dsimp only [map_none]
      rw [wp_bind, wp_get, show s.nodes = s₀.nodes from congrArg Fixed.nodes h.fixed]
      have hdir : wp (do
            mntget path.mnt
            pathPut path
            return ({ mnt := path.mnt, dentry := next } : Path))
          ((Forecast.found { mnt := path.mnt, dentry := next } mem).Ok s₀ K L hc)
          ((Forecast.found { mnt := path.mnt, dentry := next } mem).Err s₀ (path.dentry ::ₘ K)
            (path.mnt ::ₘ L) hc) s := by
        refine wp_seq (warm_mntget hc h (h.listed _ (mem_cons_self _ _))) fun _ s h => ?_
        rw [cons_swap] at h
        exact wp_seq (warm_pathPut hc h) fun _ _ h => ⟨rfl, h⟩
      cases s₀.nodes ino with
      | error ret => exact hdir
      | ok node =>
        cases node with
        | dir | other => exact hdir
        | link target =>
          refine wp_seq (Forecast.cleanup hc (followLink_foreseen hc hlookup h)
            (fun h => warm_dput hc h) fun h => dput_spec h) fun p s hf => ?_
          refine wp_seq (hf.release (K := path.dentry ::ₘ K) (L := path.mnt ::ₘ L) hc (fun h => ?_)
            fun h => ?_) fun _ s hf => ?_
          · rw [cons_swap] at h
            exact warm_dput hc h
          · rw [cons_swap] at h
            exact dput_spec h
          · exact wp_seq (hf.pathPut hc) fun _ s hf => hf

theorem warm_dAllocQstr (h : Warmed s₀ K L mem s) (hp : (s₀.dcache.dentries parent).isSome) :
    wp (dAllocQstr parent name) (fun r s' => match r with
        | none => (kmallocAt s₀ mem).1 = none ∧ Warmed s₀ K L (kmallocAt s₀ mem).2 s'
        | some _ => ((kmallocAt s₀ mem).1).isSome) E s := by
  obtain ⟨pd, hpd⟩ := isSome_iff_exists.1 hp
  refine wp_seq (warm_kmalloc h) fun r s ⟨hr, h⟩ => ?_
  cases r with
  | none => exact ⟨hr.symm, h⟩
  | some a =>
    rw [wp_bind, wp_dentryAt (h.dentry hpd), wp_bind, wp_modify, wp_pure, ← hr]
    rfl

include hlookup hgood in
theorem pathStepDown_foreseen (h : WarmedAt s₀ K L mem path s) :
    wp (pathStepDown lookup path name) ((cachedDown s₀ cached path name mem).Ok s₀ K L hc)
      ((cachedDown s₀ cached path name mem).Err s₀ (path.dentry ::ₘ K) (path.mnt ::ₘ L) hc) s := by
  have hp := h.held path.dentry (mem_cons_self _ _)
  unfold pathStepDown lookupChild cachedDown
  rw [LawfulMonad.bind_assoc, wp_bind, wp_get, h.dLookup]
  cases hfound : s₀.dcache.dLookup path.dentry name with
  | some next =>
    obtain ⟨d, hd, -⟩ := dLookup_some hfound
    rw [LawfulMonad.bind_assoc]
    refine wp_seq (warm_dget h (by rw [hd]; rfl)) fun _ s h => ?_
    exact stepInto_foreseen hc hlookup h
  | none =>
    rw [LawfulMonad.bind_assoc]
    refine wp_seq (wp_mono (fun _ _ h => h) (fun _ _ h => h.2)
      (wp_and (dAllocQstr_spec (h.good hc) held_cons) (warm_dAllocQstr h hp))) fun r s hr => ?_
    generalize kmallocAt s₀ mem = k at hr ⊢
    obtain ⟨r', mem'⟩ := k
    cases r with
    | none =>
      obtain ⟨-, hnone, h⟩ := hr
      subst hnone
      exact ⟨rfl, h⟩
    | some a =>
      obtain ⟨⟨hg, ha, d, hd, hnone⟩, hsome⟩ := hr
      obtain ⟨b, rfl⟩ := isSome_iff_exists.1 hsome
      refine wp_seq (wp_mono (fun _ _ h => h) (fun e s' he => ?_)
        (lookupNew_spec hg held_cons ha hd hnone)) fun next s ⟨R, hleak, hg⟩ => ?_
      · intro hret
        rw [if_pos hret] at he
        exact he
      · exact leaves_of_good hc hleak (stepInto_spec (hgood R) hg)

omit hlookup hgood in
theorem cachedParent_foreseen (h : Warmed s₀ K (m ::ₘ L) mem s) : wp (do
        dget d.dParent
        return ({ mnt := m, dentry := d.dParent } : Path))
      ((cachedParent s₀ m d mem).Ok s₀ K L hc) ((cachedParent s₀ m d mem).Err s₀ K' L' hc) s := by
  unfold cachedParent
  split_ifs with hsome
  · exact wp_seq (warm_dget h hsome) fun _ _ h => ⟨rfl, h⟩
  · have hfreed : s.dcache.dentries d.dParent = none := by
      rw [h.dentries, not_isSome_iff_eq_none.1 hsome]
      rfl
    have herr : dentryAt d.dParent s = .error .freed s := by rw [dentryAt, hfreed]
    rw [wp_bind, dget, wp_bind, wp, herr]
    exact fun h => by cases h

theorem vfsGetMntParent_foreseen (h : Warmed s₀ K L mem s) (hm : m ∈ s₀.gMounts) :
    wp (vfsGetMntParent m) ((cachedMntParent s₀ m mem).Ok s₀ K L hc)
      ((cachedMntParent s₀ m mem).Err s₀ K L hc) s := by
  have hroot : s.gRootMnt = s₀.gRootMnt := congrArg Fixed.gRootMnt h.fixed
  unfold vfsGetMntParent cachedMntParent
  rw [wp_bind, wp_get, hroot]
  by_cases heq : m = s₀.gRootMnt
  · rw [if_pos heq, if_pos heq]
    have hlisted : s₀.gRootMnt ∈ s₀.gMounts := hc.rootMnt
    obtain ⟨mnt, hmnt, -⟩ := mount_of_listed hc hlisted
    have hmem := hc.allocated (.inl (hc.mntRoot hlisted hmnt))
    rw [hmnt]
    refine wp_seq (warm_mntget hc h hlisted) fun _ s h => ?_
    rw [wp_bind, wp_mountAt (h.mount hmnt)]
    exact wp_seq (warm_dget h (isSome_iff_exists.2 hmem)) fun _ _ h => ⟨rfl, h⟩
  · rw [if_neg heq, if_neg heq]
    obtain ⟨mnt, hmnt, -⟩ := mount_of_listed hc hm
    obtain ⟨d, hd⟩ := hc.allocated (.inl (hc.mntMountpoint hm hmnt))
    rw [wp_bind, wp_mountAt (h.mount hmnt), wp_bind, wp_dentryAt (h.dentry hd), hmnt]
    dsimp only [bind_some]
    rw [hd]
    have habove : mntAbove s m { d with dCount := d.dCount + K.count mnt.mntMountpoint } =
        mntAbove s₀ m d := h.mntAbove
    dsimp only
    rw [habove]
    cases hfound : mntAbove s₀ m d with
    | none => exact ⟨rfl, h⟩
    | some m' =>
      have hm' : m' ∈ s₀.gMounts := mem_of_find?_eq_some hfound
      exact wp_seq (warm_mntget hc h hm') fun _ s h => cachedParent_foreseen hc h

theorem pathAbove_foreseen (h : Warmed s₀ K L mem s) (hne : path ≠ s₀.root) (hm : path.mnt ∈ s₀.gMounts)
    (hd : (s₀.dcache.dentries path.dentry).isSome) :
    wp (pathAbove path) ((cachedUp s₀ path mem).Ok s₀ K L hc) ((cachedUp s₀ path mem).Err s₀ K L hc)
      s := by
  obtain ⟨mnt, hmnt, -⟩ := mount_of_listed hc hm
  obtain ⟨d, hd⟩ := isSome_iff_exists.1 hd
  unfold pathAbove cachedUp
  rw [if_neg hne, hmnt, hd, wp_bind, wp_mountAt (h.mount hmnt)]
  dsimp only
  split
  · exact vfsGetMntParent_foreseen hc h hm
  · refine wp_seq (warm_mntget hc h hm) fun _ s h => ?_
    rw [wp_bind, wp_dentryAt (h.dentry hd)]
    exact cachedParent_foreseen hc h

theorem pathStepUp_foreseen (h : WarmedAt s₀ K L mem path s) :
    wp (pathStepUp path) ((cachedUp s₀ path mem).Ok s₀ K L hc)
      ((cachedUp s₀ path mem).Err s₀ (path.dentry ::ₘ K) (path.mnt ::ₘ L) hc) s := by
  unfold pathStepUp
  rw [wp_bind, wp_get, show s.root = s₀.root from congrArg Fixed.root h.fixed]
  split_ifs with heq
  · rw [cachedUp, if_pos heq]
    exact ⟨rfl, h⟩
  · refine wp_seq (pathAbove_foreseen hc h heq (h.listed _ (mem_cons_self _ _))
      (h.held _ (mem_cons_self _ _))) fun p s hf => ?_
    exact wp_seq (hf.pathPut hc) fun _ s hf => hf

include hlookup hgood

section

variable (h : WarmedAt s₀ K L mem path s)

include h

theorem pathStep_foreseen :
    wp (pathStep lookup path name) ((cachedStep s₀ cached path name mem).Ok s₀ K L hc)
      ((cachedStep s₀ cached path name mem).Err s₀ K L hc) s := by
  unfold pathStep cachedStep
  refine Forecast.cleanup hc ?_ (fun h => warm_pathPut hc h) fun h => pathPut_spec h
  split
  · exact pathStepUp_foreseen hc h
  · exact pathStepDown_foreseen hc hlookup hgood h

theorem walk_foreseen {names : List Qstr} :
    wp (walk lookup path names) ((cachedWalk s₀ cached path names mem).Ok s₀ K L hc)
      ((cachedWalk s₀ cached path names mem).Err s₀ K L hc) s := by
  induction names generalizing path mem s with
  | nil => exact ⟨rfl, h⟩
  | cons name names ih =>
    unfold walk cachedWalk
    split
    · exact ih h
    · have hstep : wp (pathStep lookup path name) _ _ s := pathStep_foreseen hc hlookup hgood h
      cases hf : cachedStep s₀ cached path name mem with
      | found p mem' =>
        rw [hf] at hstep
        rw [wp_bind]
        refine wp_mono (fun q s hq => ?_) (fun _ _ he => he.elim) hstep
        obtain ⟨rfl, h⟩ := hq
        exact ih h
      | fails mem' =>
        rw [hf] at hstep
        rw [wp_bind]
        exact wp_post (fun _ _ hq => hq.elim) hstep
      | leaves =>
        rw [hf] at hstep
        refine wp_seq hstep fun p s ⟨R, hleak, hg⟩ => ?_
        exact leaves_of_good hc hleak (walk_spec (hgood R) hg)

end

end Walk

theorem pathLookup_foreseen (depth : Nat) : Foreseen hc (pathLookup depth) (cachedLookup s₀ depth) := by
  induction depth with
  | zero => exact fun _ _ _ _ _ _ => nofun
  | succ depth ih =>
    intro text K L mem s h
    unfold pathLookup cachedLookup pathInitStart
    dsimp only
    split
    · exact ⟨rfl, h⟩
    · have hroot : s.root = s₀.root := congrArg Fixed.root h.fixed
      have hpwd : s.pwd = s₀.pwd := congrArg Fixed.pwd h.fixed
      rw [wp_bind, wp_bind, wp_get, hroot, hpwd]
      refine wp_seq (warm_pathGet hc h ?_ ?_) fun _ s h =>
        walk_foreseen hc ih (fun _ => pathLookup_spec depth) h
      · refine hc.listed _ (mem_add.2 (.inl ?_))
        show _ ∈ s₀.fixed.baseMounts
        split <;> simp [Fixed.baseMounts, State.fixed]
      · refine isSome_iff_exists.2 (hc.allocated (.inl ?_))
        show _ ∈ s₀.fixed.baseDentries
        split <;> simp [Fixed.baseDentries, State.fixed]

abbrev Cleanly {α : Type} (x : V α) : State → Prop := wp x (fun _ => State.Clean) fun _ => State.Clean

include hc in
theorem pathLookup_clean (hclean : s₀.Clean) (hwarm : s₀.Warm depth text) :
    Cleanly (pathLookup depth text) s₀ := by
  have hspec : wp (pathLookup depth text) _ _ s₀ := pathLookup_foreseen hc depth warmed_self
  unfold State.Warm at hwarm
  generalize cachedLookup s₀ depth text s₀.mem = f at hspec hwarm
  cases f with
  | found p mem => exact wp_mono (fun _ _ h => h.2.clean hclean) (fun _ _ he => he.elim) hspec
  | fails mem => exact wp_mono (fun _ _ h => h.elim) (fun _ _ he => he.2.clean hclean) hspec
  | leaves => exact absurd rfl hwarm

/-! ## The counts -/

/-- A lookup whose result is given back. -/
def lookupPut (depth : Nat) (path : List UInt8) : V Unit := do
  let p ← pathLookup depth path
  pathPut p

structure SameCounts (s s' : State) : Prop where
  mounts : ∀ m, (s'.mounts m).map Vfsmount.refcount = (s.mounts m).map Vfsmount.refcount
  dentries : ∀ a, s'.dcache.count a = s.dcache.count a
  inodes : ∀ ino, s'.icache ino = s.icache ino
  pages : ∀ ino i, s'.pageRefs ino i = s.pageRefs ino i

theorem Warmed.sameCounts (h : Warmed s₀ 0 0 mem s) : SameCounts s₀ s where
  mounts m := by
    rw [h.mounts m, Option.map_map]
    cases s₀.mounts m <;> rfl
  dentries a := h.count
  inodes ino := by rw [h.icache]
  pages ino i := by rw [h.pages]

/-- The dentries that were there hold the references that they held. -/
theorem inodeRefs_le (h : Good R K L s) (hle : (s₀.exact hc).Le R) :
    s₀.dcache.inodeRefs ino ≤ s.dcache.inodeRefs ino := by
  unfold Dcache.inodeRefs
  rw [countP_eq_length_filter, countP_eq_length_filter]
  refine (subperm_of_subset (hc.cache.nodup.filter _) fun a ha => ?_).length_le
  obtain ⟨hmem, hino⟩ := mem_filter.1 ha
  obtain ⟨d, hd⟩ := isSome_iff_exists.1 ((hc.cache.mem a).1 hmem)
  have hpos : 0 < s₀.dcache.count a := by
    rw [count_eq hd]
    exact hc.cache.positive hd
  have hheld := hle.held a
  have hkept := h.counted.kept a (lt_of_lt_of_le hpos hheld)
  rw [← hle.inodeOf a hpos] at hkept
  have hcount : 0 < s.dcache.count a :=
    lt_of_lt_of_le (lt_of_lt_of_le hpos hheld) (le_trans (le_add_right _ _) (h.counted.held a))
  obtain ⟨d', hd'⟩ := allocated_of_count hcount
  refine mem_filter.2 ⟨(h.counted.cache.mem a).2 (by rw [hd']; rfl), ?_⟩
  rw [hkept]
  exact hino

theorem Leaky.not_sameCounts (h : Leaky (s₀.exact hc) 0 0 s) : ¬ SameCounts s₀ s := by
  intro hsame
  obtain ⟨R, hleak, hg⟩ := h
  have hrefs : ∀ ino, s₀.dcache.inodeRefs ino ≤ s.dcache.inodeRefs ino :=
    fun _ => inodeRefs_le hc hg hleak.le
  cases hleak with
  | @keep b i hb =>
    have hheld := hg.counted.held b
    rw [hsame.dentries b, Multiset.count_zero] at hheld
    have hone : ((s₀.exact hc).keep b i).held b = s₀.dcache.count b + 1 := Function.update_self ..
    omega
  | @grow i =>
    have hle := hg.counted.inodes i
    rw [hsame.inodes i] at hle
    have hone : ((s₀.exact hc).grow i).slack i = s₀.icache i - s₀.dcache.inodeRefs i + 1 :=
      Function.update_self ..
    have hi := hrefs i
    omega

include hc in
/-- **A lookup that returns leaves all counts unchanged, after its result was given back, exactly if
all components that it comes to are in the cache.** -/
theorem lookup_keeps_counts_iff {depth : Nat} {text : List UInt8}
    (hret : lookupPut depth text s₀ = .ok () s ∨
      ∃ ret, lookupPut depth text s₀ = .error (.errno ret) s) :
    SameCounts s₀ s ↔ s₀.Warm depth text := by
  have hspec : wp (pathLookup depth text) _ _ s₀ := pathLookup_foreseen hc depth warmed_self
  have hend : wp (lookupPut depth text) (fun _ s => SameCounts s₀ s ↔ s₀.Warm depth text)
      (fun e s => e.isErrno = true → (SameCounts s₀ s ↔ s₀.Warm depth text)) s₀ := by
    unfold lookupPut State.Warm
    rw [wp_bind]
    cases hf : cachedLookup s₀ depth text s₀.mem with
    | found p mem =>
      rw [hf] at hspec
      refine wp_mono (fun q s hq => ?_) (fun _ _ he => he.elim) hspec
      refine wp_post (fun _ s h => ?_) (warm_pathPut hc hq.2)
      exact iff_of_true h.sameCounts nofun
    | fails mem =>
      rw [hf] at hspec
      refine wp_mono (fun _ _ hq => hq.elim) (fun e s he _ => ?_) hspec
      exact iff_of_true he.2.sameCounts nofun
    | leaves =>
      rw [hf] at hspec
      refine wp_mono (fun q s hq => ?_) (fun e s he hret => ?_) hspec
      · obtain ⟨R, hleak, hg⟩ := hq
        refine wp_post (fun _ s h => ?_) (pathPut_spec hg)
        exact iff_of_false (Leaky.not_sameCounts hc ⟨R, hleak, h⟩) (fun hne => hne rfl)
      · exact iff_of_false (Leaky.not_sameCounts hc (he hret)) (fun hne => hne rfl)
  rcases hret with hok | ⟨ret, herr⟩
  · have h := wp_ok hend hok
    exact h
  · have h := wp_error hend herr
    exact h rfl

end Counted

/-- An error of the source, after which dentry `d` is once in the cache. -/
def failsHolding (d : Nat) : EStateM.Result Stop State Unit → Bool
  | .error (.errno _) s => s.dcache.count d == 1
  | _ => false

/-- The lookup of `/c`, which is not there, leaves a new dentry in the cache. -/
theorem missing_lookup_keeps_dentry : Counted coldState.ledger 0 0 coldState ∧
    ∃ s ret, lookupPut 1 [47, 99] coldState = .error (.errno ret) s ∧ ¬ SameCounts coldState s := by
  refine ⟨coldSystem_start.counted, ?_⟩
  have hrun : failsHolding 2 (lookupPut 1 [47, 99] coldState) = true := by decide +kernel
  unfold failsHolding at hrun
  split at hrun
  · rename_i ret s heq
    refine ⟨s, ret, heq, fun hsame => ?_⟩
    have hcount := hsame.dentries 2
    rw [beq_iff_eq.1 hrun] at hcount
    cases hcount
  · cases hrun

/-- `/a` has been looked up, and is held. -/
def warmState : State := (coldSystem.run 1 [.pathLookup [47, 97]]).state

theorem warmState_counted : Counted warmState.ledger 0 0 warmState := by
  have hinv : (coldSystem.run 1 [.pathLookup [47, 97]]).Inv := coldSystem_start.inv.run _
  obtain ⟨R, -, h⟩ := hinv.good (by decide +kernel)
  exact h.counted.self.forget (zero_le _) (zero_le _)

/-- With its component in the cache, a lookup keeps the counts. -/
theorem warm_lookup_keeps_counts :
    ∃ s, lookupPut 1 [47, 97] warmState = .ok () s ∧ SameCounts warmState s := by
  have hwarm : warmState.Warm 1 [47, 97] := nofun
  have hrun : (match lookupPut 1 [47, 97] warmState with
    | .ok _ _ => true
    | .error _ _ => false) = true := by decide +kernel
  split at hrun
  · rename_i u s heq
    exact ⟨s, heq, (lookup_keeps_counts_iff warmState_counted (.inl heq)).2 hwarm⟩
  · cases hrun

/-! ## Calls that give back no last reference -/

section Cleanly

theorem pathPut_clean (hclean : s.Clean) (hleaves : s.dcache.Leaves p.dentry) : Cleanly (pathPut p) s := by
  have hput : ∀ e ∈ (s.dcache, p.dentry) :: s.trace, e.1.Leaves e.2 :=
    forall_mem_cons.2 ⟨hleaves, hclean⟩
  rw [Cleanly, pathPut, mntput, wp_bind, wp_bind, wp, mountAt]
  cases s.mounts p.mnt with
  | none => exact hclean
  | some mnt =>
    refine wp_bind.2 (dentryAt_cases (fun _ => hclean) fun d _ => ?_)
    rw [wp_bind, wp_modify]
    refine wp_ite (fun _ => ?_) fun _ => hput
    cases d.dInode with
    | none => exact hput
    | some ino =>
      unfold wp iput
      dsimp only
      split_ifs <;> exact hput

/-- In the state before the call, a lookup is in the cache, or the path that is put is not the last to
the parent of another dentry. -/
def Call.Fine (depth : Nat) (sys : System) : Call → Prop
  | .pathLookup text => sys.state.Warm depth text
  | .pathPut i | .filpClose i => ∀ p ∈ sys.held[i]?, sys.state.dcache.Leaves p.dentry
  | _ => False

variable {sys : System} (h : sys.Inv) (hclean : sys.state.Clean)

include h hclean

theorem act_clean (hdead : sys.dead = none) {call : Call} (hfine : call.Fine depth sys) :
    Cleanly (call.act depth sys.held) sys.state := by
  cases call with
  | pathLookup text =>
    obtain ⟨R, -, hgood⟩ := h.good hdead
    have hc := hgood.counted.self.forget (zero_le _) (zero_le _)
    exact wp_seq (pathLookup_clean hc hclean hfine) fun _ _ h => h
  | pathPut i | filpClose i =>
    show Cleanly (Call.act.giveBack sys.held pathPut i) _
    unfold Call.act.giveBack
    cases hp : sys.held[i]? with
    | none => exact hclean
    | some p => exact wp_seq (pathPut_clean hclean (hfine p hp)) fun _ _ h => h
  | _ => exact hfine.elim

theorem step_clean {call : Call} (hfine : call.Fine depth sys) : (sys.step depth call).state.Clean := by
  unfold System.step
  split_ifs with hdead
  · exact hclean
  · have hact := act_clean h hclean (not_isSome_iff_eq_none.1 hdead) hfine
    cases hres : call.act depth sys.held sys.state with
    | ok held state => exact wp_ok hact hres
    | error e state =>
      have hclean' := wp_error hact hres
      cases e <;> exact hclean'

/-- Each call is judged in the state before it. -/
theorem parentsLive_of_fineRun {calls : List Call}
    (hfine : FineRun (System.step depth) (fun sys call => call.Fine depth sys) calls sys) :
    (sys.run depth calls).ParentsLive := by
  induction calls generalizing sys with
  | nil => exact h.parentsLive hclean
  | cons call calls ih => exact ih (h.step call) (step_clean h hclean hfine.2.1) hfine.2.2

end Cleanly

end ZzzOs.Fs.Vfs
