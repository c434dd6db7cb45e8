import ZzzOs.Fs.Vfs.Walk

/-!
# Lookups in the cache

A lookup that finds all its dentries in the cache can be foreseen from the state it begins in
(`cachedLookup`), and it gives back all that it takes (`Warmed`). A lookup that goes to the disk
leaves a reference behind (`Leaky`).
-/

namespace ZzzOs.Fs.Vfs

open Option Function Multiset Lib Ext2

abbrev Mem := List (Option Addr)

/-! ## What a lookup does with the cache alone -/

/-- The end of a walk in the cache: the path, with the memory that is left, or an error; or the walk
leaves the cache, or it does not end. -/
inductive Forecast where
  | found (path : Path) (mem : Mem)
  | fails (mem : Mem)
  | leaves

section Static

variable (s : State) (lookup : List UInt8 → Mem → Forecast)

/-- `kmalloc`, while the same dentries are allocated. -/
def kmallocAt : Mem → Option Addr × Mem
  | [] => (none, [])
  | r :: mem =>
    (r.bind fun a => if a = 0 ∨ (s.dcache.dentries a).isSome then none else some a, mem)

def cachedLink (target : Except Int (List UInt8)) (mem : Mem) : Forecast :=
  match kmallocAt s mem with
  | (none, mem) => .fails mem
  | (some _, mem) =>
    match target with
    | .error _ => .fails mem
    | .ok target => lookup target mem

def cachedInto (path : Path) (next : Addr) (mem : Mem) : Forecast :=
  match (s.dcache.dentries next).bind Dentry.dInode with
  | none => .fails mem
  | some ino =>
    match vfsSearchMount s next with
    | some (m, mnt) => .found { mnt := m, dentry := mnt.mntRoot } mem
    | none =>
      match s.nodes ino with
      | .ok (.link target) => cachedLink s lookup target mem
      | _ => .found { mnt := path.mnt, dentry := next } mem

/-- A component that is not in the cache ends the walk, if there is memory for a dentry. -/
def cachedDown (path : Path) (name : Qstr) (mem : Mem) : Forecast :=
  match s.dcache.dLookup path.dentry name with
  | some next => cachedInto s lookup path next mem
  | none =>
    match kmallocAt s mem with
    | (none, mem) => .fails mem
    | (some _, _) => .leaves

def cachedParent (m : Nat) (d : Dentry) (mem : Mem) : Forecast :=
  if (s.dcache.dentries d.dParent).isSome then .found { mnt := m, dentry := d.dParent } mem
  else .leaves

def cachedMntParent (m : Nat) (mem : Mem) : Forecast :=
  if m = s.gRootMnt then
    match s.mounts s.gRootMnt with
    | none => .leaves
    | some mnt => .found { mnt := s.gRootMnt, dentry := mnt.mntRoot } mem
  else
    match (s.mounts m).bind fun mnt => s.dcache.dentries mnt.mntMountpoint with
    | none => .leaves
    | some mountpoint =>
      match mntAbove s m mountpoint with
      | none => .fails mem
      | some m' => cachedParent s m' mountpoint mem

def cachedUp (path : Path) (mem : Mem) : Forecast :=
  if path = s.root then .found path mem
  else
    match s.mounts path.mnt, s.dcache.dentries path.dentry with
    | some mnt, some d =>
      if path.dentry = mnt.mntRoot then cachedMntParent s path.mnt mem
      else cachedParent s path.mnt d mem
    | _, _ => .leaves

def cachedStep (path : Path) (name : Qstr) (mem : Mem) : Forecast :=
  if qstrIsDotdot name then cachedUp s path mem else cachedDown s lookup path name mem

def cachedWalk : Path → List Qstr → Mem → Forecast
  | path, [], mem => .found path mem
  | path, name :: names, mem =>
    if qstrIsDot name then cachedWalk path names mem
    else
      match cachedStep s lookup path name mem with
      | .found path mem => cachedWalk path names mem
      | .fails mem => .fails mem
      | .leaves => .leaves

def cachedLookup : Nat → List UInt8 → Mem → Forecast
  | 0, _, _ => .leaves
  | depth + 1, path, mem =>
    let path := cstr path
    if path = [] then .fails mem
    else cachedWalk s (cachedLookup depth) (if path.head? = some 47 then s.root else s.pwd)
      (components path) mem

def State.Warm (depth : Nat) (path : List UInt8) : Prop := cachedLookup s depth path s.mem ≠ .leaves

end Static

variable {s₀ s s' : State} {K K' K₁ : Multiset Addr} {L L' L₁ : Multiset Nat} {mem : Mem}
  {a parent : Addr} {d : Dentry} {m : Nat} {ino : Ino} {name : Qstr} {path : Path}
  {E : Stop → State → Prop}

/-! ## References taken from the cache -/

/-- The state differs from `s₀` by the references of the walk. -/
structure Warmed (s₀ : State) (K : Multiset Addr) (L : Multiset Nat) (mem : Mem) (s : State) :
    Prop where
  fixed : s.fixed = s₀.fixed
  table : s.dcache.table = s₀.dcache.table
  dentries : ∀ a, s.dcache.dentries a =
    (s₀.dcache.dentries a).map fun d => { d with dCount := d.dCount + K.count a }
  mounts : ∀ m, s.mounts m =
    (s₀.mounts m).map fun mnt => { mnt with refcount := mnt.refcount + L.count m }
  icache : s.icache = s₀.icache
  pages : s.pageRefs = s₀.pageRefs
  mem : s.mem = mem
  held : ∀ a ∈ K, (s₀.dcache.dentries a).isSome
  listed : ∀ m ∈ L, m ∈ s₀.gMounts
  clean : s₀.Clean → s.Clean

/-- The walk holds the path, too. -/
abbrev WarmedAt (s₀ : State) (K : Multiset Addr) (L : Multiset Nat) (mem : Mem) (p : Path) :
    State → Prop :=
  Warmed s₀ (p.dentry ::ₘ K) (p.mnt ::ₘ L) mem

/-- Before the walk nothing differs. -/
theorem warmed_self : Warmed s₀ 0 0 s₀.mem s₀ where
  fixed := rfl
  table := rfl
  dentries a := by cases s₀.dcache.dentries a <;> rfl
  mounts m := by cases s₀.mounts m <;> rfl
  icache := rfl
  pages := rfl
  mem := rfl
  held a ha := absurd ha (notMem_zero a)
  listed m hm := absurd hm (notMem_zero m)
  clean := id

section

variable (h : Warmed s₀ K L mem s) {mnt : Vfsmount}

include h

/-- A dentry has its old count and the references of the walk. -/
theorem Warmed.dentry (hd : s₀.dcache.dentries a = some d) :
    s.dcache.dentries a = some { d with dCount := d.dCount + K.count a } := by
  rw [h.dentries a, hd]
  rfl

theorem Warmed.mount (hm : s₀.mounts m = some mnt) :
    s.mounts m = some { mnt with refcount := mnt.refcount + L.count m } := by
  rw [h.mounts m, hm]
  rfl

/-- The walk's references to one dentry change. -/
theorem Warmed.setCount (hd : s₀.dcache.dentries a = some d) (hK : ∀ b ≠ a, K'.count b = K.count b)
    (trace) (hclean : s.Clean → ∀ e ∈ trace, e.1.Leaves e.2) : Warmed s₀ K' L mem { s with
      dcache := s.dcache.set a { d with dCount := d.dCount + K'.count a }, trace } where
  fixed := h.fixed
  table := h.table
  dentries b := by
    by_cases hb : b = a
    · subst hb
      rw [set_self, hd]
      rfl
    · rw [set_of_ne hb, hK b hb]
      exact h.dentries b
  mounts := h.mounts
  icache := h.icache
  pages := h.pages
  mem := h.mem
  held b hb := by
    by_cases hba : b = a
    · rw [hba, hd]
      rfl
    · refine h.held b (count_pos.1 ?_)
      rw [← hK b hba]
      exact count_pos.2 hb
  listed := h.listed
  clean hs := hclean (h.clean hs)

theorem warm_dget (ha : (s₀.dcache.dentries a).isSome) :
    wp (dget a) (fun _ => Warmed s₀ (a ::ₘ K) L mem) E s := by
  obtain ⟨d, hd⟩ := isSome_iff_exists.1 ha
  unfold dget
  rw [wp_bind, wp_dentryAt (h.dentry hd), wp_modify]
  have hset : Warmed s₀ (a ::ₘ K) L mem _ :=
    h.setCount hd (fun b hb => count_cons_of_ne hb K) s.trace id
  rw [count_cons_self] at hset
  exact hset

/-- The walk's references to one mount change. -/
theorem Warmed.setRefcount (hm : s₀.mounts m = some mnt) (hlisted : m ∈ s₀.gMounts)
    (hL : ∀ k ≠ m, L'.count k = L.count k) : Warmed s₀ K L' mem
      (s.setMount m (some { mnt with refcount := mnt.refcount + L'.count m })) where
  fixed := by
    rw [← h.fixed]
    refine congrArg (Fixed.mk s.gMounts s.gRootMnt s.root s.pwd s.nodes) (funext fun k => ?_)
    show (update s.mounts m _ k).map Vfsmount.fixed = _
    refine update_cases (fun hk => ?_) fun _ => rfl
    rw [hk, h.mount hm]
    rfl
  table := h.table
  dentries := h.dentries
  mounts k := by
    show update s.mounts m _ k = _
    refine update_cases (fun hk => ?_) fun hk => ?_
    · rw [hk, hm]
      rfl
    · rw [hL k hk]
      exact h.mounts k
  icache := h.icache
  pages := h.pages
  mem := h.mem
  held := h.held
  listed k hk := by
    by_cases hkm : k = m
    · rw [hkm]
      exact hlisted
    · refine h.listed k (count_pos.1 ?_)
      rw [← hL k hkm]
      exact count_pos.2 hk
  clean := h.clean

/-- Memory is as forecast: no dentry was freed or allocated. -/
theorem warm_kmalloc :
    wp kmalloc (fun r s' => r = (kmallocAt s₀ mem).1 ∧ Warmed s₀ K L (kmallocAt s₀ mem).2 s') E
      s := by
  have hsome : ∀ a, (s.dcache.dentries a).isSome = (s₀.dcache.dentries a).isSome := by
    intro a
    rw [h.dentries a, isSome_map]
  unfold wp kmalloc
  have hmem := h.mem
  cases mem with
  | nil =>
    rw [hmem]
    exact ⟨rfl, h⟩
  | cons r mem =>
    rw [hmem]
    dsimp only [kmallocAt]
    refine ⟨?_, h.fixed, h.table, h.dentries, h.mounts, h.icache, h.pages, rfl, h.held, h.listed, h.clean⟩
    simp only [hsome]

/-! ## What the walk reads -/

/-- A lookup in the cache finds what it would have found before the walk. -/
theorem Warmed.dLookup : s.dcache.dLookup parent name = s₀.dcache.dLookup parent name := by
  unfold Dcache.dLookup
  rw [h.table]
  congr 1
  funext a
  rw [h.dentries a]
  cases s₀.dcache.dentries a <;> rfl

theorem Warmed.vfsSearchMount : Vfs.vfsSearchMount s a = (Vfs.vfsSearchMount s₀ a).map fun r =>
      (r.1, { r.2 with refcount := r.2.refcount + L.count r.1 }) := by
  unfold Vfs.vfsSearchMount
  rw [show s.gMounts = s₀.gMounts from congrArg Fixed.gMounts h.fixed]
  induction s₀.gMounts with
  | nil => rfl
  | cons m ms ih =>
    rw [List.findSome?_cons, List.findSome?_cons, h.mounts m]
    cases s₀.mounts m with
    | none => exact ih
    | some mnt =>
      dsimp only [map_some]
      by_cases hp : mnt.mntMountpoint = a
      · rw [if_pos hp, if_pos hp]
        rfl
      · rw [if_neg hp, if_neg hp]
        exact ih

theorem Warmed.mntAbove : Vfs.mntAbove s m d = Vfs.mntAbove s₀ m d := by
  unfold Vfs.mntAbove
  rw [show s.gMounts = s₀.gMounts from congrArg Fixed.gMounts h.fixed]
  congr 1
  funext k
  rw [h.mounts k]
  cases s₀.mounts k <;> rfl

end

/-! ## References given back -/

section Counted

variable (hc : Counted s₀.ledger 0 0 s₀)

include hc

/-- It is never the last reference: the dentry was in the cache before. -/
theorem warm_dput (h : Warmed s₀ (a ::ₘ K) L mem s) :
    wp (dput a) (fun _ => Warmed s₀ K L mem) E s := by
  obtain ⟨d, hd⟩ := isSome_iff_exists.1 (h.held a (mem_cons_self a K))
  have hd' := h.dentry hd
  rw [count_cons_self] at hd'
  have hpos := hc.cache.positive hd
  have hnot : ¬ d.dCount + (K.count a + 1) ≤ 1 := by omega
  have hleaves : s.dcache.Leaves a := fun hle => absurd ((count_eq hd').symm.trans_le hle) hnot
  refine wp_of_ok (dput_eq hd' fun hle => absurd hle hnot) ?_
  have hset : Warmed s₀ K L mem _ := h.setCount hd
    (fun b hb => (count_cons_of_ne hb K).symm) ((s.dcache, a) :: s.trace)
    fun hs => List.forall_mem_cons.2 ⟨hleaves, hs⟩
  have heq : s.dcache.put a = s.dcache.set a { d with dCount := d.dCount + K.count a } := by
    rw [Dcache.put, hd']
    exact if_neg hnot
  rw [State.putDentry, if_neg hnot, heq]
  exact hset

theorem mount_of_listed (hm : m ∈ s₀.gMounts) : ∃ mnt, s₀.mounts m = some mnt ∧ 0 < mnt.refcount := by
  obtain ⟨mnt, hmnt, hlt⟩ := hc.mounts m hm
  exact ⟨mnt, hmnt, by omega⟩

theorem warm_mntget (h : Warmed s₀ K L mem s) (hm : m ∈ s₀.gMounts) :
    wp (mntget m) (fun _ => Warmed s₀ K (m ::ₘ L) mem) E s := by
  obtain ⟨mnt, hmnt, -⟩ := mount_of_listed hc hm
  unfold mntget
  rw [wp_bind, wp_mountAt (h.mount hmnt), wp_modify]
  have hset : Warmed s₀ K (m ::ₘ L) mem _ :=
    h.setRefcount hmnt hm fun k hk => count_cons_of_ne hk L
  rw [count_cons_self] at hset
  exact hset

theorem warm_mntput (h : Warmed s₀ K (m ::ₘ L) mem s) :
    wp (mntput m) (fun _ => Warmed s₀ K L mem) E s := by
  have hm := h.listed m (mem_cons_self m L)
  obtain ⟨mnt, hmnt, hpos⟩ := mount_of_listed hc hm
  have hmnt' := h.mount hmnt
  rw [count_cons_self] at hmnt'
  unfold mntput
  rw [wp_bind, wp_mountAt hmnt', wp_modify, if_neg (by dsimp only; omega)]
  exact h.setRefcount hmnt hm fun k hk => (count_cons_of_ne hk L).symm

/-- A path that was there before the walk can be taken. -/
theorem warm_pathGet (h : Warmed s₀ K L mem s) (hm : path.mnt ∈ s₀.gMounts)
    (hd : (s₀.dcache.dentries path.dentry).isSome) :
    wp (pathGet path) (fun _ => WarmedAt s₀ K L mem path) E s :=
  wp_seq (warm_mntget hc h hm) fun _ _ h => warm_dget h hd

theorem warm_pathPut (h : WarmedAt s₀ K L mem path s) :
    wp (pathPut path) (fun _ => Warmed s₀ K L mem) E s :=
  wp_seq (warm_mntput hc h) fun _ _ h => warm_dput hc h

end Counted

end ZzzOs.Fs.Vfs
