import Mathlib.Data.List.Perm.Basic
import Mathlib.Data.Multiset.Replicate
import ZzzOs.Fs.Vfs.Walk

/-!
# The parents of dentries

Lookups, `vfs_chdir`, `vfs_getcwd`, and opening and closing files, in any order. A dentry has no
reference to its parent, so that the parent can be freed first. The parents stay allocated exactly
in the runs where no `dput` frees the parent of another dentry (`parents_live_iff`).
-/

namespace ZzzOs.Fs.Vfs

open Multiset Lib Ext2

variable {R : Ledger} {s : State} {K : Multiset Addr} {L : Multiset Nat} {depth i size : Nat}
  {path : Path} {text out : List UInt8}

/-! ## The calls -/

/-- The ledger after `current->fs->pwd` has become a path that the walk held. -/
def Ledger.setPwd (R : Ledger) (path : Path) (s : State) : Ledger where
  toFixed := { R.toFixed with pwd := path }
  held a := R.held a + Multiset.count a {path.dentry} - Multiset.count a {R.pwd.dentry}
  slack := R.slack
  inodeOf a := (s.dcache.dentries a).bind Dentry.dInode
  parents := R.parents
  covers a := by
    have hcovers := R.covers a
    unfold Fixed.baseDentries at *
    simp only [count_cons, count_singleton] at *
    show (R.gMounts.flatMap R.mntDentries : Multiset Addr).count a + _ + _ ≤ _
    omega

theorem Good.setPwd (h : GoodAt R K L path s) :
    Good (R.setPwd path s) (R.pwd.dentry ::ₘ K) (R.pwd.mnt ::ₘ L) { s with pwd := path } := by
  have hc := h.counted
  have hmounts : (R.setPwd path s).baseMounts + (R.pwd.mnt ::ₘ L) =
      R.baseMounts + (path.mnt ::ₘ L) := by
    show R.root.mnt ::ₘ path.mnt ::ₘ 0 + _ = _ ::ₘ _ ::ₘ _ + _
    rw [add_cons, add_cons, cons_add, cons_add, cons_add, cons_add, cons_swap R.pwd.mnt,
      cons_swap R.pwd.mnt, cons_swap R.root.mnt path.mnt]
  refine ⟨⟨?_, hc.cache, fun a => ?_, fun _ _ => rfl, hc.inodes, ?_, hc.rootMnt, hc.rootPoint, ?_⟩,
    h.allSafe rfl id⟩
  · exact congrArg (fun F : Fixed => { F with pwd := path }) hc.fixed
  · have hle := hc.held a
    have hcovers := R.covers a
    unfold Fixed.baseDentries at hcovers
    show R.held a + Multiset.count a {path.dentry} - Multiset.count a {R.pwd.dentry} + _ ≤ _
    simp only [count_cons, count_singleton] at *
    omega
  · rw [hmounts]
    exact hc.mounts
  · rw [hmounts]
    exact hc.listed

theorem vfsChdir_spec (h : Good R K L s) :
    wp (vfsChdir depth text) (fun _ s' => ∃ R' : Ledger, R'.parents = R.parents ∧ Good R' K L s')
      (Stopped R K L) s := by
  refine wp_seq (pathLookup_spec depth h) fun p s h => h.dentryAt held_cons fun d _ => ?_
  cases d.dInode with
  | none => exact wp_seq (pathPut_spec h) fun _ _ h => h
  | some ino =>
    rw [wp_bind, wp_get]
    split
    · refine wp_seq (pathGet_spec h h.counted.mnt_mem held_cons) fun _ s h => ?_
      rw [wp_bind, wp_get, wp_bind, wp_modify,
        show s.pwd = R.pwd from congrArg Fixed.pwd h.counted.fixed]
      refine wp_seq (pathPut_spec h.setPwd) fun _ s' h => ?_
      exact wp_post (fun _ _ h => ⟨R.setPwd p s, rfl, h⟩) (pathPut_spec h)
    · exact wp_seq (pathPut_spec h) fun _ _ h => h

theorem getcwdFrom_spec {root cur : Path} {fuel pos : Nat}
    (h : Good R (cur.dentry ::ₘ root.dentry ::ₘ K) (cur.mnt ::ₘ root.mnt ::ₘ L) s) :
    wp (getcwdFrom root fuel cur pos out) (fun _ => Good R K L) (Stopped R K L) s := by
  have hput : ∀ {cur : Path} {E : Stop → State → Prop} {s},
      Good R (cur.dentry ::ₘ root.dentry ::ₘ K) (cur.mnt ::ₘ root.mnt ::ₘ L) s →
        wp (do pathPut cur; pathPut root) (fun _ => Good R K L) E s :=
    fun h => wp_seq (pathPut_spec h) fun _ _ h => pathPut_spec h
  induction fuel generalizing cur pos out s with
  | zero =>
    unfold getcwdFrom
    split <;> exact wp_seq (hput h) fun _ _ h => h
  | succ fuel ih =>
    refine wp_ite (fun _ => wp_seq (hput h) fun _ _ h => h) fun _ => ?_
    obtain ⟨mnt, hmnt, -⟩ := h.counted.mounts _ h.counted.mnt_mem
    have hname : Held R (cur.dentry ::ₘ root.dentry ::ₘ K)
        (if cur.dentry = mnt.mntRoot then mnt.mntMountpoint else cur.dentry) := by
      split
      · exact .inl (h.counted.mntMountpoint h.counted.mnt_mem hmnt)
      · exact held_cons
    refine wp_of_bind_ok (mountAt_eq hmnt) (h.dentryAt hname fun d _ => ?_)
    exact wp_ite (fun _ => wp_seq (hput h) fun _ _ h => h) fun _ =>
      wp_seq (wp_cleanup (pathStepUp_spec h) fun _ h => hput h) fun p s h => ih h

theorem vfsGetcwd_spec (h : Good R K L s) :
    wp (vfsGetcwd size) (fun _ => Good R K L) (Stopped R K L) s := by
  have hF := h.counted.fixed
  have hroot : s.root = R.root := congrArg Fixed.root hF
  have hpwd : s.pwd = R.pwd := congrArg Fixed.pwd hF
  have hmnt : ∀ p ∈ [R.root, R.pwd], p.mnt ∈ R.gMounts := by
    refine fun p hp => h.counted.listed _ (mem_add.2 (.inl ?_))
    rcases List.mem_pair.1 hp with rfl | rfl <;> simp [Fixed.baseMounts]
  have hmem : ∀ p ∈ [R.root, R.pwd], ∀ K, Held R K p.dentry := by
    refine fun p hp K => .inl ?_
    rcases List.mem_pair.1 hp with rfl | rfl <;> simp [Fixed.baseDentries]
  refine wp_ite (fun _ => h) fun _ => ?_
  rw [wp_bind, wp_get, hroot, hpwd]
  refine wp_seq (pathGet_spec h (hmnt _ (by simp)) (hmem _ (by simp) _)) fun _ s h => ?_
  refine wp_seq (pathGet_spec h (hmnt _ (by simp)) (hmem _ (by simp) _)) fun _ s h => ?_
  refine wp_ite (fun _ => ?_) fun _ => getcwdFrom_spec h
  exact wp_seq (pathPut_spec h) fun _ s h => wp_seq (pathPut_spec h) fun _ s h =>
    wp_ite (fun _ => h) fun _ => h

theorem filpOpen_spec {nofollow : Bool} {ret : Int} (h : Good R K L s) :
    wp (filpOpen depth nofollow ret text) (GoodAt R K L) (Stopped R K L) s := by
  have hlookup : wp ((if nofollow then pathLookupNofollow else pathLookup) depth text)
      (GoodAt R K L) (Stopped R K L) s := by
    split
    · exact pathLookupNofollow_spec h
    · exact pathLookup_spec depth h
  refine wp_seq hlookup fun p s h => h.dentryAt held_cons fun d _ => ?_
  cases d.dInode with
  | none => exact wp_seq (pathPut_spec h) fun _ _ h => h
  | some ino =>
    rw [wp_bind, wp_get]
    split
    · exact wp_seq (pathPut_spec h) fun _ _ h => h
    · exact wp_ite (fun _ => h) fun _ => wp_seq (pathPut_spec h) fun _ _ h => h

/-! ## Sequences of calls -/

inductive Call where
  | pathLookup (path : List UInt8)
  | pathLookupNofollow (path : List UInt8)
  | pathPut (i : Nat)
  | vfsChdir (path : List UInt8)
  | vfsGetcwd (size : Nat)
  | filpOpen (nofollow : Bool) (ret : Int) (path : List UInt8)
  | filpClose (i : Nat)

/-- The state, and the paths that callers and open files hold. -/
structure System where
  state : State
  held : List Path
  /-- Why the system stands still, if it does. -/
  dead : Option Stop

/-- The paths that are held after a call; `put` is for the path at a place of the list. -/
def Call.act (depth : Nat) (held : List Path) : Call → V (List Path)
  | .pathLookup path => do return (← Vfs.pathLookup depth path) :: held
  | .pathLookupNofollow path => do return (← Vfs.pathLookupNofollow depth path) :: held
  | .pathPut i => giveBack Vfs.pathPut i
  | .vfsChdir path => do
    Vfs.vfsChdir depth path
    return held
  | .vfsGetcwd size => do
    let _ ← Vfs.vfsGetcwd size
    return held
  | .filpOpen nofollow ret path => do return (← Vfs.filpOpen depth nofollow ret path) :: held
  | .filpClose i => giveBack Vfs.filpClose i
where
  giveBack (put : Path → V Unit) (i : Nat) : V (List Path) :=
    match held[i]? with
    | none => return held
    | some p => do
      put p
      return held.eraseIdx i

def System.step (depth : Nat) (sys : System) (call : Call) : System :=
  if sys.dead.isSome then sys
  else
    match call.act depth sys.held sys.state with
    | .ok held state => { sys with state, held }
    | .error (.errno _) state => { sys with state }
    | .error e state => { sys with state, dead := some e }

def System.run (depth : Nat) (sys : System) (calls : List Call) : System :=
  calls.foldl (System.step depth) sys

def System.Counted (sys : System) : Prop :=
  Vfs.Counted sys.state.ledger (sys.held.map Path.dentry : Multiset Addr)
    (sys.held.map Path.mnt : Multiset Nat) sys.state

/-- No `dput` has been called yet, and all references are counted. -/
structure System.Start (sys : System) : Prop where
  counted : sys.Counted
  safe : sys.state.dcache.Safe
  trace : sys.state.trace = []
  running : sys.dead = none

/-- The parents of all dentries were allocated at each `dput` and are so now, a lookup in the cache
finds only children, and no freed dentry has been followed. -/
structure System.ParentsLive (sys : System) : Prop where
  puts : ∀ e ∈ sys.state.trace, e.1.Sound ∧ (e.1.put e.2).Sound
  now : sys.state.dcache.Sound
  held : sys.dead = none → ∀ p ∈ sys.held, ∃ d, sys.state.dcache.dentries p.dentry = some d ∧
    (sys.state.dcache.dentries d.dParent).isSome
  followed : sys.dead ≠ some .freed

abbrev dentryRefs (held : List Path) : Multiset Addr := held.map Path.dentry

abbrev mountRefs (held : List Path) : Multiset Nat := held.map Path.mnt

abbrev GoodFor (R : Ledger) (held : List Path) : State → Prop :=
  Good R (dentryRefs held) (mountRefs held)

/-- What holds along a run. -/
structure System.Inv (sys : System) : Prop where
  safe : sys.state.Clean → sys.state.AllSafe
  freed : sys.dead = some .freed → ¬ sys.state.Clean
  good : sys.dead = none → ∃ R : Ledger, R.parents ∧ GoodFor R sys.held sys.state

variable {sys : System}

theorem System.Start.inv (h : sys.Start) : sys.Inv := by
  have hsafe : sys.state.Clean → sys.state.AllSafe := by
    refine fun _ => ⟨?_, h.safe⟩
    rw [h.trace]
    exact nofun
  refine ⟨hsafe, ?_, fun _ => ⟨_, trivial, h.counted, fun hclean => hsafe hclean.2⟩⟩
  rw [h.running]
  exact nofun

section Step

variable {held : List Path}

theorem giveBack_spec {put : Path → V Unit} (hput : ∀ {p : Path} {K L s} {E : Stop → State → Prop},
      GoodAt R K L p s → wp (put p) (fun _ => Good R K L) E s)
    (h : GoodFor R held s) :
    wp (Call.act.giveBack held put i)
      (fun held' s' => ∃ R' : Ledger, R'.parents = R.parents ∧ GoodFor R' held' s')
      (Stopped R (dentryRefs held) (mountRefs held)) s := by
  unfold Call.act.giveBack
  cases hp : held[i]? with
  | none => exact ⟨R, rfl, h⟩
  | some p =>
    obtain ⟨hi, rfl⟩ := List.getElem?_eq_some_iff.1 hp
    have hperm := (List.getElem_cons_eraseIdx_perm hi).symm
    have hd : dentryRefs held = held[i].dentry ::ₘ dentryRefs (held.eraseIdx i) :=
      coe_eq_coe.2 (hperm.map Path.dentry)
    have hm : mountRefs held = held[i].mnt ::ₘ mountRefs (held.eraseIdx i) :=
      coe_eq_coe.2 (hperm.map Path.mnt)
    rw [GoodFor, hd, hm] at h
    exact wp_seq (hput h) fun _ s h => ⟨R, rfl, h⟩

theorem Call.act_spec (call : Call) (h : GoodFor R held s) :
    wp (call.act depth held) (fun held' s' => ∃ R' : Ledger, R'.parents = R.parents ∧ GoodFor R' held' s')
      (Stopped R (dentryRefs held) (mountRefs held)) s := by
  cases call with
  | pathLookup path => exact wp_seq (pathLookup_spec depth h) fun p s h => ⟨R, rfl, h⟩
  | pathLookupNofollow path => exact wp_seq (pathLookupNofollow_spec h) fun p s h => ⟨R, rfl, h⟩
  | pathPut | filpClose => exact giveBack_spec (fun h => pathPut_spec h) h
  | vfsChdir path => exact wp_seq (vfsChdir_spec h) fun _ s h => h
  | vfsGetcwd size => exact wp_seq (vfsGetcwd_spec h) fun _ s h => ⟨R, rfl, h⟩
  | filpOpen nofollow ret path => exact wp_seq (filpOpen_spec h) fun p s h => ⟨R, rfl, h⟩

end Step

theorem System.Inv.step (h : sys.Inv) (call : Call) : (sys.step depth call).Inv := by
  unfold System.step
  split_ifs with hdead
  · exact h
  · rw [Bool.not_eq_true, Option.isSome_eq_false_iff, Option.isNone_iff_eq_none] at hdead
    obtain ⟨R, hparents, hgood⟩ := h.good hdead
    have hspec : wp (call.act depth sys.held) _ _ sys.state := call.act_spec hgood
    cases hact : call.act depth sys.held sys.state with
    | ok held state =>
      obtain ⟨R', heq, hgood'⟩ := wp_ok hspec hact
      have hparents' : R'.parents := heq ▸ hparents
      refine ⟨fun hclean => hgood'.safe ⟨hparents', hclean⟩, ?_, fun _ => ⟨R', hparents', hgood'⟩⟩
      rw [hdead]
      exact nofun
    | error e state =>
      have hstopped := wp_error hspec hact
      cases e with
      | errno ret =>
        refine ⟨fun hclean => hstopped.safe ⟨hparents, hclean⟩, ?_, fun _ => ⟨R, hparents, hstopped⟩⟩
        rw [hdead]
        exact nofun
      | freed =>
        have hfreed : ¬ state.Clean := fun hclean => hstopped ⟨hparents, hclean⟩
        exact ⟨fun hclean => absurd hclean hfreed, fun _ => hfreed, nofun⟩
      | oops | spin => exact ⟨fun hclean => hstopped ⟨hparents, hclean⟩, nofun, nofun⟩

theorem System.Inv.run (h : sys.Inv) (calls : List Call) : (sys.run depth calls).Inv := by
  induction calls generalizing sys with
  | nil => exact h
  | cons call calls ih => exact ih (h.step call)

theorem System.Inv.parentsLive (h : sys.Inv) (hclean : sys.state.Clean) : sys.ParentsLive := by
  obtain ⟨hputs, hnow⟩ := h.safe hclean
  refine ⟨fun e he => ⟨(hputs e he).1.sound, (hputs e he).2.sound⟩, hnow.sound,
    fun hdead p hp => ?_, fun hdead => h.freed hdead hclean⟩
  obtain ⟨R, -, hgood⟩ := h.good hdead
  obtain ⟨d, hd⟩ := hgood.counted.allocated (.inr (mem_coe.2 (List.mem_map_of_mem hp)))
  exact ⟨d, hd, hnow.sound.parent _ d hd⟩

/-- **The parents of the dentries stay allocated in a run, and no freed dentry is followed, exactly if no
`dput` gives back the last reference to the parent of another dentry.** -/
theorem parents_live_iff {sys : System} (h : sys.Start) (depth : Nat) (calls : List Call) :
    (sys.run depth calls).ParentsLive ↔
      ∀ e ∈ (sys.run depth calls).state.trace, e.1.Leaves e.2 := by
  have hinv : (sys.run depth calls).Inv := h.inv.run calls
  constructor
  · intro hlive e he
    obtain ⟨hbefore, hafter⟩ := hlive.puts e he
    exact leaves_of_sound hbefore hafter
  · exact hinv.parentsLive

/-! ## A small tree -/

def oneEntry (name : Qstr) (ino : Nat) : Dir where
  iSize := 4096
  page _ := ext2InitDirEntry (ext2InitDirEntry (ext2InitDirEntry (fun _ => 0) 0 2 0x41ed [46] 12)
    12 2 0x41ed [46, 46] 12) 24 ino 0x41ed name 4072

/-- The directories `/` and `/a`, and the file `/a/b`. -/
def twoLevels : Ino → Except Int Node
  | (0, 2) => .ok (.dir (oneEntry [97] 12))
  | (0, 12) => .ok (.dir (oneEntry [98] 13))
  | (0, 13) => .ok .other
  | _ => .error (-eio)

/-- Only the root is in the caches; its dentry is at the address 1. -/
def coldRoot : Dentry where
  dName := [47]
  dInode := some (0, 2)
  dParent := 1
  dSb := 0
  dCount := 4
  bucket := dentryCacheHash 0 [47]
  serial := 0
  parentSerial := 0

def coldState : State where
  dcache := { dentries := fun a => if a = 1 then some coldRoot else none, table := [1] }
  icache ino := if ino = (0, 2) then 2 else 0
  mounts m :=
    if m = 1 then some { mntSb := 0, mntRoot := 1, mntMountpoint := 1, refcount := 3 } else none
  gMounts := [1]
  gRootMnt := 1
  root := { mnt := 1, dentry := 1 }
  pwd := { mnt := 1, dentry := 1 }
  nodes := twoLevels
  pageRefs _ _ := 0
  mem := [some 2, some 3, some 4, some 5]
  reads := []
  serial := 1
  trace := []

def coldSystem : System where
  state := coldState
  held := []
  dead := none

theorem cold_dentry {a : Addr} {d : Dentry} (h : coldState.dcache.dentries a = some d) :
    a = 1 ∧ d = coldRoot := by
  unfold coldState at h
  dsimp only at h
  split_ifs at h
  cases h
  exact ⟨‹_›, rfl⟩

theorem coldSystem_start : coldSystem.Start := by
  have hbase : coldState.fixed.baseDentries = Multiset.replicate 3 1 := by decide
  have hmounts : coldState.fixed.baseMounts = Multiset.replicate 2 1 := by decide
  constructor
  case counted =>
    constructor
    case fixed => rfl
    case cache =>
      refine ⟨by decide, fun a => ?_, fun h => ?_⟩
      · show a ∈ [1] ↔ (if a = 1 then some coldRoot else none).isSome
        by_cases ha : a = 1 <;> simp [ha]
      · rw [(cold_dentry h).2]
        decide
    case held =>
      intro a
      show coldState.fixed.baseDentries.count a + Multiset.count a 0 ≤ _
      rw [hbase, count_zero, count_replicate]
      split
      · subst a
        decide
      · exact Nat.zero_le _
    case kept => exact fun _ _ => rfl
    case inodes =>
      intro ino
      show coldState.dcache.inodeRefs ino ≤ if ino = (0, 2) then 2 else 0
      split_ifs with hne
      · subst ino
        decide
      · refine Nat.le_of_eq (List.countP_eq_zero.2 fun a ha => ?_)
        rw [List.mem_singleton.1 ha, decide_eq_true_iff]
        exact fun h => hne (Option.some.inj h).symm
    case mounts =>
      intro m hm
      rw [List.mem_singleton.1 hm]
      refine ⟨_, rfl, ?_⟩
      decide
    case rootMnt => exact List.mem_singleton_self 1
    case rootPoint =>
      intro x hx
      cases hx
      rfl
    case listed =>
      intro m hm
      rw [show coldSystem.state.ledger.baseMounts = Multiset.replicate 2 1 from hmounts] at hm
      rcases mem_add.1 hm with hm | hm
      · rw [eq_of_mem_replicate hm]
        exact List.mem_singleton_self 1
      · exact absurd hm (notMem_zero m)
  case safe =>
    intro a d h
    obtain ⟨-, rfl⟩ := cold_dentry h
    exact ⟨coldRoot, rfl, rfl⟩
  case trace => rfl
  case running => rfl

/-- The lookup of `/a/b` frees the dentry of `a`, and that of `b` keeps it as its parent. -/
theorem lookup_frees_parent : coldSystem.Start ∧
    ¬ (coldSystem.run 1 [.pathLookup [47, 97, 47, 98]]).ParentsLive := by
  have hrun : (((coldSystem.run 1 [.pathLookup [47, 97, 47, 98]]).state.dcache.dentries 3).map
      Dentry.dParent = some 2) ∧
      (coldSystem.run 1 [.pathLookup [47, 97, 47, 98]]).state.dcache.dentries 2 = none := by
    decide +kernel
  refine ⟨coldSystem_start, fun hlive => ?_⟩
  obtain ⟨d, hd, hp⟩ := Option.map_eq_some_iff.1 hrun.1
  have hsome := hlive.now.parent 3 d hd
  rw [hp, hrun.2] at hsome
  cases hsome

/-- The lookup of `/a/b` gives `a` back, which is still held by the one before. -/
theorem lookup_below_held_parents_live :
    (coldSystem.run 1 [.pathLookup [47, 97], .pathLookup [47, 97, 47, 98]]).held.map Path.dentry = [3, 2] ∧
    (coldSystem.run 1 [.pathLookup [47, 97], .pathLookup [47, 97, 47, 98]]).ParentsLive := by
  have hcounts : ∀ e ∈ (coldSystem.run 1
      [.pathLookup [47, 97], .pathLookup [47, 97, 47, 98]]).state.trace, ¬ e.1.count e.2 ≤ 1 := by
    decide +kernel
  exact ⟨by decide +kernel,
    (parents_live_iff coldSystem_start 1 _).2 fun e he hle => absurd hle (hcounts e he)⟩

end ZzzOs.Fs.Vfs
