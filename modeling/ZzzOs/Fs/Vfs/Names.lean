import ZzzOs.Fs.Vfs.Undo

/-!
# The names that calls add

The name of the entry that a successful call adds is the last component of its path as
`path_parentat` finds it, cut to the length that an entry can store. Nothing rejects `.` and `..`, and
a path of slashes only stands for the name of the root.
-/

namespace ZzzOs.Fs.Vfs

open List Lib Ext2

variable {α : Type} {G : Nat → Geometry} {s : State} {w w' w₁ : World} {dir newDir oldDir : Ino}
  {a dentry new child : Addr} {d : Dentry} {name : Qstr} {depth mode imode fuel n : Nat}
  {names : List Qstr} {parent : Path} {x : W α} {io : NewIo} {fails : Prop} {clears : Bool}
  {Q : α → World → Prop} {old : Resolved}

/-! ## Components -/

theorem nextComponent_slash {path rest : List UInt8} (h : nextComponent path = some (name, rest)) :
    (47 : UInt8) ∉ name := by
  unfold nextComponent at h
  dsimp only at h
  split_ifs at h
  cases h
  intro hmem
  simpa using mem_takeWhile_imp (mem_of_mem_take hmem)

theorem componentsFrom_slash {path : List UInt8} :
    ∀ name ∈ componentsFrom fuel path, (47 : UInt8) ∉ name := by
  induction fuel generalizing path with
  | zero => exact nofun
  | succ fuel ih =>
    intro name hmem
    unfold componentsFrom at hmem
    cases hnext : nextComponent path with
    | none =>
      rw [hnext] at hmem
      cases hmem
    | some r =>
      rw [hnext] at hmem
      rcases mem_cons.1 hmem with rfl | hmem
      · exact nextComponent_slash hnext
      · exact ih name hmem

/-- The name that `path_parentat` gives back is the last component. -/
theorem walkParent_last {lookup : List UInt8 → V Path} {path : Path}
    (hne : names ≠ []) : wp (walkParent lookup path names) (fun r _ => names.getLast? = some r.2)
      (fun _ _ => True) s := by
  induction names generalizing path s with
  | nil => exact absurd rfl hne
  | cons first names ih =>
    cases names with
    | nil => exact rfl
    | cons next names =>
      show wp (if qstrIsDot first then walkParent lookup path (next :: names)
        else pathStep lookup path first >>= fun path => walkParent lookup path (next :: names)) _ _ s
      split
      · exact ih (cons_ne_nil _ _)
      · exact wp_seq wp_any fun _ _ _ => ih (cons_ne_nil _ _)

theorem pathParentat_last {path : List UInt8} (hne : components (cstr path) ≠ []) :
    wp (pathParentat depth path) (fun r _ => (components (cstr path)).getLast? = some r.2)
      (fun _ _ => True) s := by
  unfold pathParentat
  dsimp only
  split
  · trivial
  · exact wp_seq wp_any fun _ _ _ => walkParent_last hne

/-! ## Dentries -/

/-- A dentry without an inode, for a name -/
def Negative (s : State) (a : Addr) (name : Qstr) : Prop :=
  ∃ d, s.dcache.dentries a = some d ∧ d.dName = name ∧ d.dInode = none

theorem dLookup_name {c : Dcache} {parent : Addr} (h : c.dLookup parent name = some a) :
    ∃ d, c.dentries a = some d ∧ d.dName = name := by
  have hsome := List.find?_some h
  cases hd : c.dentries a with
  | none =>
    rw [hd] at hsome
    cases hsome
  | some d =>
    rw [hd] at hsome
    exact ⟨d, rfl, (of_decide_eq_true hsome).2.2⟩

theorem dAllocQstr_negative {parent : Addr} :
    wp (dAllocQstr parent name) (fun r s' => ∀ a, r = some a → Negative s' a name)
      (fun _ _ => True) s := by
  refine wp_seq wp_any fun r s₁ _ => ?_
  cases r with
  | none => exact nofun
  | some a =>
    refine wp_seq wp_any fun p s₂ _ => ?_
    intro b hb
    cases hb
    exact ⟨_, add_self, rfl, rfl⟩

theorem dget_eq (h : s.dcache.dentries a = some d) :
    dget a s = .ok () (s.setDcache (s.dcache.set a { d with dCount := d.dCount + 1 })) := by
  unfold dget
  rw [run_bind_ok (dentryAt_eq h)]
  rfl

theorem prepareChildDentry_negative {parent : Addr} :
    wp (prepareChildDentry parent name) (fun r s' => ∀ a, r = some a → Negative s' a name)
      (fun _ _ => True) s := by
  refine wp_bind.2 (wp_get.2 ?_)
  cases hlookup : s.dcache.dLookup parent name with
  | none => exact dAllocQstr_negative
  | some child =>
    obtain ⟨d, hd, hname⟩ := dLookup_name hlookup
    refine wp_of_bind_ok (dget_eq hd) (wp_bind.2 ((wp_dentryAt set_self).2 ?_))
    cases hino : d.dInode with
    | some ino => exact wp_seq wp_any fun _ _ _ => nofun
    | none =>
      intro b hb
      cases hb
      exact ⟨_, set_self, hname, rfl⟩

theorem newDentry_negative {parent : Addr} :
    wp (newDentry parent name) (fun a s' => Negative s' a name) (fun _ _ => True) s := by
  refine wp_bind.2 (wp_get.2 ?_)
  cases hlookup : s.dcache.dLookup parent name with
  | none =>
    refine wp_seq dAllocQstr_negative fun r s' hr => ?_
    cases r with
    | none => trivial
    | some a => exact hr a rfl
  | some child =>
    obtain ⟨d, hd, hname⟩ := dLookup_name hlookup
    refine wp_bind.2 ((wp_dentryAt hd).2 ?_)
    cases hino : d.dInode with
    | some ino => trivial
    | none =>
      refine wp_of_bind_ok (dget_eq hd) ?_
      exact ⟨_, set_self, hname, hino⟩

/-! ## Operations -/

def Added (name : Qstr) (w w' : World) : Prop := ∃ dir, w'.added = (dir, diskName name) :: w.added

theorem wp_lift_disk {x : V α} :
    wp (liftM x : W α) (fun _ w' => w'.toDisk = w.toDisk) (fun _ _ => True) w :=
  wp_lift.2 (wp_post (fun _ _ _ => rfl) wp_any)

theorem AddEntry.log {io : DirIo} (h : AddEntry G io dir name n mode w (.ok () w')) :
    w'.added = (dir, diskName name) :: w.added := by
  cases h
  rfl

theorem NewEntry.log (h : NewEntry G io imode mode fails clears dir dentry d w (.ok () w')) :
    w'.added = (dir, diskName d.dName) :: w.added := by
  cases h with
  | added hino hgoes hprep hadd =>
    obtain ⟨_, hdisk⟩ := hprep.disk
    have hlink : ∀ (w : World) ino, (w.link dentry d ino).added = w.added := fun _ _ => rfl
    rw [hadd.log, hlink, hdisk]
    cases hino
    rfl

/-- If `x` returns, it has added `name`. -/
abbrev Adds (name : Qstr) (w : World) (x : W α) : Prop :=
  wp x (fun _ w' => Added name w w') (fun _ _ => True) w

def AddsName (op : Ino → Addr → W Unit) : Prop :=
  ∀ ⦃dir dentry name w⦄, Negative w.toState dentry name →
    wp (op dir dentry) (fun _ w' => Added name w w') (fun _ _ => True) w

theorem ext2NewEntry_addsName {prepare : Ino → W Unit} (h : Prepares prepare fails) :
    AddsName (ext2NewEntry G io imode mode prepare clears) := by
  rintro dir dentry name w ⟨d, hd, rfl, hnone⟩
  exact wp_mono (fun _ _ h => ⟨dir, h.log⟩) (fun _ _ _ => trivial) (ext2NewEntry_cases h hd hnone)

theorem ext2Mkdir_addsName : AddsName (ext2Mkdir G io mode) := by
  intro dir dentry name w h
  exact wp_seq (ext2NewEntry_addsName (prepares_dots io dir) h) fun _ _ ⟨dir, hlog⟩ => ⟨dir, hlog⟩

theorem deleteEntry_added {io : DirIo} :
    wp (deleteEntry io dir name) (fun _ w' => w'.added = w.added) (fun _ _ => True) w := by
  refine wp_bind.2 (dirAt_cases trivial fun d _ => ?_)
  cases ext2DeleteEntry io d name with
  | none => trivial
  | some r => exact wp_bind.2 (wp_modify.2 (wp_checked (fun _ => trivial) fun _ => rfl))

/-- The inode of the parent, if it is a directory; nothing is changed. -/
theorem opDir_cases {Q : Option Ino → State → Prop} {E : Stop → State → Prop}
    (hfreed : s.dcache.dentries a = none → E .freed s) (hnone : Q none s)
    (hdir : ∀ d ino content, s.dcache.dentries a = some d → d.dInode = some ino →
      s.nodes ino = .ok (.dir content) → Q (some ino) s) : wp (opDir a) Q E s := by
  refine wp_bind.2 (dentryAt_cases hfreed fun d hd => ?_)
  cases hino : d.dInode with
  | none => exact hnone
  | some ino =>
    refine wp_bind.2 (wp_get.2 ?_)
    split
    · exact hdir d ino _ hd hino ‹_›
    · exact hnone

theorem ext2Rename_added {io : RenameIo} {old : Addr} (h : Negative w.toState new name) :
    Adds name w (ext2Rename G io oldDir old newDir new) := by
  obtain ⟨d, hd, rfl, hnone⟩ := h
  refine wp_bind.2 (wp_lift.2 (dentryAt_cases (fun _ => trivial) fun o ho => ?_))
  refine wp_bind.2 (wp_lift.2 ((wp_dentryAt hd).2 ?_))
  cases o.dInode with
  | none => trivial
  | some ino =>
    refine wp_bind.2 (wp_checked (fun _ => trivial) fun _ => wp_bind.2 (wp_get.2 ?_))
    refine wp_seq (wp_mono (fun _ _ h => h.log) (fun _ _ _ => trivial) addEntry_ends)
      fun _ w₁ h₁ => ?_
    refine wp_seq deleteEntry_added fun _ w₂ h₂ => ?_
    refine wp_bind.2 (wp_checked (fun _ => trivial) fun _ => ?_)
    refine wp_bind.2 (wp_checked (fun _ => trivial) fun _ => ?_)
    refine wp_checked (fun _ => trivial) fun _ => ⟨newDir, ?_⟩
    rw [h₂, h₁]
    rfl

/-! ## Calls -/

theorem Added.lift {x : V α} (h : Added name w w₁) :
    wp (liftM x : W α) (fun _ w' => Added name w w') (fun _ _ => True) w₁ :=
  wp_post (fun _ w₂ hdisk => by unfold Added; rw [hdisk]; exact h) wp_lift_disk

theorem wp_onError_ok {c : W Unit}
    (h : wp x Q (fun _ _ => True) w) : wp (onError Stop.isErrno x c) Q (fun _ _ => True) w := by
  refine wp_onError (wp_mono (fun _ _ hQ => hQ) (fun e w' _ => ?_) h)
  split
  · exact wp_any
  · trivial

theorem makeChild_added {op : Ino → Addr → W Unit} (hop : AddsName op)
    (h : Negative w.toState child name) :
    Adds name w (makeChild op parent child) := by
  refine wp_bind.2 (wp_lift.2 (opDir_cases (fun _ => trivial) trivial fun _ dir _ _ _ _ => ?_))
  exact wp_seq (wp_onError_ok (hop h)) fun _ w₁ h₁ => h₁.lift

/-- A call that prepares the dentry of the new name adds the name, if what follows does. -/
theorem prepared_added {parent : Addr} {k : Option Addr → W α} (hnone : ∀ w₁, Adds name w₁ (k none))
    (hsome : ∀ child w₁, Negative w₁.toState child name → Adds name w₁ (k (some child))) :
    Adds name w ((liftM (prepareChildDentry parent name) : W (Option Addr)) >>= k) := by
  refine wp_bind.2 (wp_lift.2 (wp_post (fun r s₁ hr => ?_) prepareChildDentry_negative))
  cases r with
  | none => exact hnone _
  | some child => exact hsome child _ (hr child rfl)

theorem Added.of_disk (hdisk : w₁.toDisk = w.toDisk) (h : Added name w₁ w') : Added name w w' := by
  unfold Added at *
  rwa [hdisk] at h

theorem vfsMkdirAt_added : Adds name w (vfsMkdirAt G io mode parent name) :=
  prepared_added (fun _ => wp_seq wp_any fun _ _ _ => trivial) fun _ _ h =>
    makeChild_added ext2Mkdir_addsName h

theorem vfsCreateAt_added : Adds name w (vfsCreateAt G io mode parent name) :=
  prepared_added (fun _ => trivial) fun _ _ h =>
    wp_seq (makeChild_added (ext2NewEntry_addsName prepares_nothing) h) fun _ _ h => h

theorem vfsMknodAt_added : Adds name w (vfsMknodAt G io mode parent name) := by
  refine prepared_added (fun _ => wp_seq wp_any fun _ _ _ => trivial) fun child w₁ h => ?_
  refine wp_bind.2 (wp_lift.2 (opDir_cases (fun _ => trivial) ?_ fun _ _ _ _ _ _ => ?_))
  · exact wp_seq wp_any fun _ _ _ => wp_seq wp_any fun _ _ _ => trivial
  · exact wp_seq (makeChild_added (ext2NewEntry_addsName prepares_nothing) h) fun _ _ h => h

theorem vfsSymlinkAt_added {target : List UInt8} :
    Adds name w (vfsSymlinkAt G io target parent name) := by
  refine wp_bind.2 (wp_lift.2 (opDir_cases (fun _ => trivial) ?_ fun _ _ _ _ _ _ => ?_))
  · exact wp_seq wp_any fun _ _ _ => trivial
  · refine prepared_added (fun _ => wp_seq wp_any fun _ _ _ => trivial) fun child w₁ h => ?_
    exact wp_seq (makeChild_added (ext2NewEntry_addsName (prepares_target io target)) h)
      fun _ _ h => h

theorem renameTo_added {io : RenameIo} (h : Negative w.toState new name) :
    Adds name w (renameTo G io old newDir new) := by
  refine wp_bind.2 (wp_lift.2 (dentryAt_cases (fun _ => trivial) fun p _ => ?_))
  cases p.dInode with
  | none => trivial
  | some oldDir =>
    exact wp_seq (ext2Rename_added h) fun _ _ h₁ => wp_seq h₁.lift fun _ _ h₂ => h₂.lift

theorem vfsRenameAt_added {io : RenameIo} : Adds name w (vfsRenameAt G io old parent name) := by
  refine wp_seq (wp_onError_ok ?_) fun _ _ h => Added.lift h
  refine wp_bind.2 (wp_checked (fun _ => trivial) fun _ => ?_)
  refine wp_bind.2 (wp_lift.2 (opDir_cases (fun _ => trivial) trivial fun _ newDir _ _ _ _ => ?_))
  refine wp_bind.2 (wp_lift.2 (wp_post (fun new s₁ hnew => ?_) newDentry_negative))
  exact wp_seq (wp_onError_ok (renameTo_added hnew)) fun _ _ h => h.lift

/-- The calls that add a name -/
inductive Make
  | mkdir (io : NewIo) (mode : Nat) (path : List UInt8)
  | create (io : NewIo) (mode : Nat) (path : List UInt8)
  | mknod (io : NewIo) (mode : Nat) (path : List UInt8)
  | symlink (io : NewIo) (target path : List UInt8)
  | rename (io : RenameIo) (oldPath path : List UInt8)

namespace Make

def path : Make → List UInt8
  | mkdir _ _ path => path
  | create _ _ path => path
  | mknod _ _ path => path
  | symlink _ _ path => path
  | rename _ _ path => path

def run (G : Nat → Geometry) (depth : Nat) : Make → W Unit
  | mkdir io mode path => vfsMkdir G depth io mode path
  | create io mode path => do
    let _ ← vfsCreate G depth io mode path
  | mknod io mode path => do
    let _ ← vfsMknod G depth io mode path
  | symlink io target path => do
    let _ ← vfsSymlink G depth io target path
  | rename io oldPath path => vfsRename G depth io oldPath path

end Make

/-- A name that can stand in a directory -/
def ProperName (name : Qstr) : Prop :=
  name ≠ [] ∧ (47 : UInt8) ∉ name ∧ name ≠ [46] ∧ name ≠ [46, 46]

def ProperPath (path : List UInt8) : Prop :=
  ∃ last, (components (cstr path)).getLast? = some last ∧
    diskName last ≠ [] ∧ diskName last ≠ [46] ∧ diskName last ≠ [46, 46]

/-- The parent of the path and its last component; the disk is as before. -/
theorem resolved_parent {path : List UInt8} : wp (liftM (pathParentat depth path) : W (Path × Qstr))
      (fun r w' => w'.toDisk = w.toDisk ∧
        (components (cstr path) ≠ [] → (components (cstr path)).getLast? = some r.2))
      (fun _ _ => True) w := by
  refine wp_lift.2 ?_
  by_cases hne : components (cstr path) = []
  · exact wp_post (fun _ _ _ => ⟨rfl, fun h => absurd hne h⟩) wp_any
  · exact wp_post (fun _ _ h => ⟨rfl, fun _ => h⟩) (pathParentat_last hne)

def AddsLast (path : List UInt8) (w w' : World) : Prop :=
  ∃ name, Added name w w' ∧
    (components (cstr path) ≠ [] → (components (cstr path)).getLast? = some name)

theorem addsLast_of_at {act : Path → Qstr → W α} {path : List UInt8}
    (h : ∀ parent name w, Adds name w (act parent name)) :
    wp (do
      let (parent, last) ← pathParentat depth path
      act parent last : W α) (fun _ w' => AddsLast path w w') (fun _ _ => True) w := by
  refine wp_seq resolved_parent fun r w₁ ⟨hdisk, hlast⟩ => ?_
  exact wp_post (fun _ _ h => ⟨r.2, h.of_disk hdisk, hlast⟩) (h r.1 r.2 w₁)

theorem wp_orNull (h : wp x Q (fun _ _ => True) w) : wp (orNull x) Q (fun _ _ => True) w := by
  unfold wp orNull at *
  cases hx : x w with
  | ok a w' =>
    rw [hx] at h
    exact h
  | error e w' => cases e <;> trivial

theorem Make.run_addsLast (c : Make) :
    wp (c.run G depth) (fun _ w' => AddsLast c.path w w') (fun _ _ => True) w := by
  cases c with
  | mkdir io mode path =>
    exact wp_bind.2 (wp_checked (fun _ => trivial) fun _ => addsLast_of_at fun _ _ _ => vfsMkdirAt_added)
  | create io mode path =>
    exact wp_seq (wp_orNull (wp_bind.2 (wp_checked (fun _ => trivial) fun _ =>
      addsLast_of_at fun _ _ _ => vfsCreateAt_added))) fun _ _ h => h
  | mknod io mode path =>
    exact wp_seq (addsLast_of_at fun _ _ _ => vfsMknodAt_added) fun _ _ h => h
  | symlink io target path =>
    exact wp_seq (wp_orNull (addsLast_of_at fun _ _ _ => vfsSymlinkAt_added)) fun _ _ h => h
  | rename io oldPath path =>
    refine wp_seq wp_lift_disk fun old w₁ hdisk₁ => ?_
    refine wp_seq (wp_onError_ok resolved_parent) fun r w₂ ⟨hdisk₂, hlast⟩ => ?_
    exact wp_post (fun _ _ h => ⟨r.2, (h.of_disk hdisk₂).of_disk hdisk₁, hlast⟩) vfsRenameAt_added

/-- **The names that are added.** A call that makes or moves a name and succeeds adds one entry. Its
name is proper if and only if the last component is not empty, `.` or `..` when it is cut to the stored
length. -/
theorem added_name_proper_iff (c : Make) (hok : c.run G depth w = .ok () w') :
    ∃ dir name, w'.added = (dir, name) :: w.added ∧
      ((components (cstr c.path) ≠ [] ∧ ProperName name) ↔ ProperPath c.path) := by
  obtain ⟨name, ⟨dir, hlog⟩, hlast⟩ := wp_ok c.run_addsLast hok
  refine ⟨dir, diskName name, hlog, ?_⟩
  constructor
  · rintro ⟨hne, hempty, -, hdot, hdotdot⟩
    exact ⟨name, hlast hne, hempty, hdot, hdotdot⟩
  · rintro ⟨last, hget, hempty, hdot, hdotdot⟩
    have hne : components (cstr c.path) ≠ [] := by
      intro hnil
      rw [hnil] at hget
      cases hget
    rw [hlast hne] at hget
    cases hget
    have hslash := componentsFrom_slash name (List.mem_of_getLast? (hlast hne))
    exact ⟨hne, hempty, fun hmem => hslash (List.mem_of_mem_take hmem), hdot, hdotdot⟩

/-! ## The name `.` -/

def namesAfter (r : EStateM.Result Stop World Unit) : Option (List Qstr) :=
  match r with
  | .ok () w' => some (w'.added.map Prod.snd)
  | .error _ _ => none

theorem namesAfter_eq {r : EStateM.Result Stop World Unit}
    (h : namesAfter r = some names) : ∃ w', r = .ok () w' ∧ w'.added.map Prod.snd = names := by
  cases r with
  | ok a w' => exact ⟨w', rfl, Option.some.inj h⟩
  | error e w' => cases h

/-- `vfs_mkdir("/.")` adds a second entry `.` to the root. -/
theorem mkdir_dot : ∃ w', (Make.mkdir wellIo 0o755 [47, 46]).run (fun _ => bigDisk) 1 coldWorld =
    .ok () w' ∧ ¬ ∀ e ∈ w'.added, ProperName e.2 := by
  have hrun : namesAfter ((Make.mkdir wellIo 0o755 [47, 46]).run (fun _ => bigDisk) 1 coldWorld) =
      some [[46]] := by decide +kernel
  obtain ⟨w', hok, hadded⟩ := namesAfter_eq hrun
  refine ⟨w', hok, fun hproper => ?_⟩
  obtain ⟨e, he, hname⟩ := List.mem_map.1 (hadded ▸ List.mem_singleton_self [46])
  exact (hproper e he).2.2.1 hname

/-- `vfs_mkdir("/b")` adds `b`. -/
theorem mkdir_b : ∃ w' dir name, (Make.mkdir wellIo 0o755 [47, 98]).run (fun _ => bigDisk) 1 coldWorld =
    .ok () w' ∧ w'.added = (dir, name) :: coldWorld.added ∧ ProperName name := by
  have hrun : namesAfter ((Make.mkdir wellIo 0o755 [47, 98]).run (fun _ => bigDisk) 1 coldWorld) =
      some [[98]] := by decide +kernel
  obtain ⟨w', hok, -⟩ := namesAfter_eq hrun
  obtain ⟨dir, name, hlog, hiff⟩ := added_name_proper_iff _ hok
  exact ⟨w', dir, name, hok, hlog, (hiff.2 ⟨[98], by decide, by decide, by decide, by decide⟩).2⟩

end ZzzOs.Fs.Vfs
