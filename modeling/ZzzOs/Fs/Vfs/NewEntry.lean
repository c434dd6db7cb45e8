import ZzzOs.Fs.Vfs.Create
import ZzzOs.Fs.Vfs.Refs

/-!
# A new inode and its entry

All that `ext2_new_inode`, and an operation that makes an entry for the new inode, can end with:
`NewInode` and `NewEntry` name the failures in their order, with the state that each leaves.
-/

namespace ZzzOs.Fs.Vfs

open Function Lib Ext2

variable {α : Type} {G : Nat → Geometry} {io : NewIo} {sb imode mode nr blocks : Nat} {w w' : World}
  {dir ino : Ino} {dentry : Addr} {clears mem : Bool} {prepare : Ino → W Unit}
  {E : Stop → World → Prop} {s : State} {d : Dentry}

/-! ## Lookups -/

/-- A step of the lookup, as one on the extended state. -/
theorem wp_lift {x : V α} {Q : α → World → Prop} : wp (liftM x : W α) Q E w ↔
      wp x (fun a s => Q a (w.setState s)) (fun e s => E e (w.setState s)) w.toState := by
  show wp (lift x) Q E w ↔ _
  unfold wp lift
  cases x w.toState <;> exact Iff.rfl

/-! ## The inode number -/

/-- The number can be allocated. -/
def World.Free (w : World) (sb nr : Nat) : Prop := nr ≠ 0 ∧ w.used (sb, nr) = false

/-- No number is found, and nothing has been written. -/
def World.Unfound (w : World) (sb : Nat) : AllocIno → Prop
  | .full => True
  | .lost nr => ¬ w.Free sb nr
  | .ok nr => ¬ w.Free sb nr

inductive Allocated (sb : Nat) (w : World) : AllocIno → Nat → World → Prop
  | unfound {alloc : AllocIno} : w.Unfound sb alloc → Allocated sb w alloc 0 w
  | lost {nr : Nat} : w.Free sb nr → Allocated sb w (.lost nr) 0 (w.markIno (sb, nr) true)
  | found {nr : Nat} : w.Free sb nr → Allocated sb w (.ok nr) nr (w.markIno (sb, nr) true)

theorem not_free : nr = 0 ∨ w.used (sb, nr) = true ↔ ¬ w.Free sb nr := by
  unfold World.Free
  by_cases h0 : nr = 0 <;> simp [h0]

/-- The search never stops the call; 0 is returned for an error. -/
theorem ext2AllocIno_cases (alloc : AllocIno) :
    wp (ext2AllocIno sb alloc) (fun nr w' => Allocated sb w alloc nr w') (fun _ _ => False) w := by
  refine wp_bind.2 (wp_get.2 ?_)
  cases alloc with
  | full => exact .unfound trivial
  | lost nr =>
    dsimp only
    split
    · exact .unfound (not_free.1 ‹_›)
    · exact .lost (Classical.not_not.1 fun h => ‹¬ _› (not_free.2 h))
  | ok nr =>
    dsimp only
    split
    · exact .unfound (not_free.1 ‹_›)
    · exact .found (Classical.not_not.1 fun h => ‹¬ _› (not_free.2 h))

/-! ## The inode -/

/-- One more reference to an inode -/
def World.grab (w : World) (ino : Ino) : World :=
  w.setState (w.toState.setIcount ino (w.icache ino + 1))

def World.release (w : World) (io : ReleaseIo) (ino : Ino) : World :=
  if io.cleared then w.markIno ino false else w

/-- The new inode -/
def World.made (w : World) (ino : Ino) (mode : Nat) : World :=
  ((((w.markIno ino true).grab ino).setNode ino (Node.ofMode mode)).setNlink ino
    (newNlink mode)).setMode ino mode

/-- How `ext2_new_inode` can end. -/
inductive NewInode (io : NewIo) (sb mode : Nat) (w : World) : EStateM.Result Stop World Ino → Prop
  | unfound : w.Unfound sb io.alloc → NewInode io sb mode w (.error (.errno (-enospc)) w)
  | lost {nr : Nat} : io.alloc = .lost nr → w.Free sb nr →
      NewInode io sb mode w (.error (.errno (-enospc)) (w.markIno (sb, nr) true))
  | cached {nr : Nat} : io.alloc = .ok nr → w.Free sb nr → w.icache (sb, nr) ≠ 0 →
      NewInode io sb mode w (.error (.errno (-eio)) ((w.markIno (sb, nr) true).grab (sb, nr)))
  | oops {nr : Nat} : io.alloc = .ok nr → w.Free sb nr → w.icache (sb, nr) = 0 → io.mem = false →
      NewInode io sb mode w (.error .oops (w.markIno (sb, nr) true))
  | failed {nr : Nat} : io.alloc = .ok nr → w.Free sb nr → w.icache (sb, nr) = 0 → io.mem = true →
      io.write < 0 → NewInode io sb mode w
        (.error (.errno io.write) ((w.markIno (sb, nr) true).release io.release (sb, nr)))
  | made {nr : Nat} : io.alloc = .ok nr → w.Free sb nr → w.icache (sb, nr) = 0 → io.mem = true →
      ¬ io.write < 0 → NewInode io sb mode w (.ok (sb, nr) (w.made (sb, nr) mode))

def Ends (P : EStateM.Result Stop World α → Prop) (x : W α) (w : World) : Prop :=
  wp x (fun a w' => P (.ok a w')) (fun e w' => P (.error e w')) w

/-- A cached number is an error that keeps the new reference. -/
theorem igetNew_cases {Q : Unit → State → Prop} {E : Stop → State → Prop}
    (hcached : s.icache ino ≠ 0 → E (.errno (-eio)) (s.setIcount ino (s.icache ino + 1)))
    (hoops : s.icache ino = 0 → mem = false → E .oops s)
    (hnew : s.icache ino = 0 → mem = true → Q () (s.setIcount ino (s.icache ino + 1))) :
    wp (igetNew mem ino) Q E s := by
  refine wp_bind.2 (wp_get.2 ?_)
  split
  · exact hcached ‹_›
  · have hnone := Classical.not_not.1 ‹¬ _›
    cases mem with
    | false => exact hoops hnone rfl
    | true => exact hnew hnone rfl

theorem iput_grabbed (s : State) (ino : Ino) :
    iput ino (s.setIcount ino (s.icache ino + 1)) = .ok () s := by
  have hcount : (s.setIcount ino (s.icache ino + 1)).icache ino = s.icache ino + 1 :=
    update_self ..
  rw [iput, hcount, if_neg (Nat.succ_ne_zero _), Nat.add_sub_cancel]
  unfold State.setIcount
  rw [update_idem, update_eq_self]

/-- `ext2_new_inode` ends in one of the ways of `NewInode`. -/
theorem ext2NewInode_cases : Ends (NewInode io sb mode w) (ext2NewInode io sb mode) w := by
  refine wp_seq (wp_mono (fun _ _ h => h) (fun _ _ h => h.elim) (ext2AllocIno_cases io.alloc))
    fun nr w₁ hnr => ?_
  generalize halloc : io.alloc = alloc at hnr
  cases hnr with
  | unfound h => exact .unfound (halloc ▸ h)
  | lost h => exact .lost halloc h
  | found h =>
    rw [if_neg h.1]
    refine wp_bind.2 (wp_lift.2 (igetNew_cases (.cached halloc h) (.oops halloc h) fun hcached hmem => ?_))
    split_ifs with hwrite
    · have hfailed : NewInode io sb mode w _ := .failed halloc h hcached hmem hwrite
      have hput := iput_grabbed (w.markIno (sb, nr) true).toState (sb, nr)
      unfold World.release at hfailed
      refine wp_bind.2 (wp_modify.2 (wp_bind.2 (wp_lift.2 ?_)))
      split_ifs at hfailed ⊢ <;> exact wp_of_ok hput hfailed
    · exact .made halloc h hcached hmem ‹_›

/-! ## The entry -/

/-- What the preparation of a new inode changes: the inode itself, and the blocks that it has taken. -/
structure Prepared (ino : Ino) (w w' : World) : Prop where
  state : ∃ node, w'.toState = { w.toState with nodes := update w.nodes ino node }
  disk : ∃ freeBlocks, w'.toDisk = { w.toDisk with freeBlocks }

def Prepares (prepare : Ino → W Unit) (fails : Prop) : Prop :=
  ∀ ino w, wp (prepare ino) (fun _ w' => ¬ fails ∧ Prepared ino w w')
    (fun e w' => fails ∧ e.isErrno ∧ Prepared ino w w') w

theorem Prepared.refl : Prepared ino w w :=
  ⟨⟨w.nodes ino, by rw [update_eq_self]⟩, w.freeBlocks, rfl⟩

theorem wp_checked {ret : Int} {Q : Unit → World → Prop}
    (hE : ret < 0 → E (.errno ret) w) (hQ : ¬ ret < 0 → Q () w) : wp (checked ret) Q E w := by
  unfold checked
  split
  · exact hE ‹_›
  · exact hQ ‹_›

theorem prepares_nothing : Prepares (fun _ => pure ()) False := fun _ _ => ⟨id, Prepared.refl⟩

theorem prepared_takeBlocks (n : Nat) : Prepared ino w (w.takeBlocks ino.1 n) :=
  ⟨⟨w.nodes ino, by rw [update_eq_self]; rfl⟩, _, rfl⟩

/-- The blocks for `.` and `..` are taken before the entries can fail. -/
theorem prepares_dots (io : NewIo) (parent : Ino) :
    Prepares (ext2InitDotEntries G io parent) (io.prepare < 0) := by
  intro ino w
  refine wp_bind.2 (wp_modify.2 (wp_bind.2 (wp_checked (fun h => ⟨h, rfl, prepared_takeBlocks _⟩)
    fun h => ?_)))
  refine wp_bind.2 (wp_get.2 ?_)
  split
  · exact ⟨h, ⟨_, rfl⟩, _, rfl⟩
  · exact ⟨h, prepared_takeBlocks _⟩

theorem prepares_target (io : NewIo) (target : List UInt8) :
    Prepares (ext2WriteSymlinkTarget io target)
      (pageSize ≤ (cstr target).length ∨ io.prepare < 0) := by
  intro ino w
  have hlong : (if pageSize ≤ (cstr target).length then -enametoolong else 0) < 0 ↔
      pageSize ≤ (cstr target).length := by
    split <;> simp [*, enametoolong]
  refine wp_bind.2 (wp_checked (fun h => ⟨.inl (hlong.1 h), rfl, Prepared.refl⟩) fun hshort => ?_)
  refine wp_bind.2 (wp_modify.2 (wp_bind.2 (wp_checked (fun h =>
    ⟨.inr h, rfl, prepared_takeBlocks _⟩) fun h => ?_)))
  exact ⟨fun hfails => hfails.elim (fun hl => hshort (hlong.2 hl)) h, ⟨_, rfl⟩, _, rfl⟩

/-- How `ext2_add_entry` can end: with a directory that has been changed or not. -/
inductive AddEntry (G : Nat → Geometry) (io : DirIo) (dir : Ino) (name : Qstr) (ino mode : Nat)
    (w : World) : EStateM.Result Stop World Unit → Prop
  | stuck {e : Stop} : e.isErrno = false → AddEntry G io dir name ino mode w (.error e w)
  | failed {d d' : Dir} {ret : Int} {blocks : Int} : w.nodes dir = .ok (.dir d) →
      ext2AddEntry (G dir.1) io d name ino mode = some (ret, d') → ret < 0 →
      AddEntry G io dir name ino mode w
        (.error (.errno ret) ((w.setNode dir (.dir d')).takeBlocks dir.1 blocks))
  | added {d d' : Dir} {ret : Int} {blocks : Int} : w.nodes dir = .ok (.dir d) →
      ext2AddEntry (G dir.1) io d name ino mode = some (ret, d') → ¬ ret < 0 →
      AddEntry G io dir name ino mode w
        (.ok () (((w.setNode dir (.dir d')).takeBlocks dir.1 blocks).logEntry dir (diskName name)))

theorem dirAt_cases {Q : Dir → World → Prop} (hoops : E .oops w)
    (hdir : ∀ d, w.nodes dir = .ok (.dir d) → Q d w) : wp (liftM (dirAt dir) : W Dir) Q E w := by
  refine wp_lift.2 ?_
  refine wp_bind.2 (wp_get.2 ?_)
  split
  · exact hdir _ ‹_›
  · exact hoops

/-- A failed `ext2_add_entry` may have changed the directory. -/
theorem addEntry_ends {io : DirIo} {name : Qstr} {ino : Nat} :
    Ends (AddEntry G io dir name ino mode w) (addEntry G io blocks dir name ino mode) w := by
  refine wp_bind.2 (dirAt_cases (.stuck rfl) fun d hd => ?_)
  cases hadd : ext2AddEntry (G dir.1) io d name ino mode with
  | none => exact .stuck rfl
  | some r =>
    refine wp_bind.2 (wp_modify.2 (wp_bind.2 (wp_checked (fun hret => ?_) fun hret => ?_)))
    · exact .failed hd hadd hret
    · exact .added hd hadd hret

/-- The dentry gets an inode. -/
def World.link (w : World) (dentry : Addr) (d : Dentry) (ino : Ino) : World :=
  (w.grab ino).setState ((w.grab ino).toState.setDcache
    (w.dcache.set dentry { d with dInode := some ino }))

/-- The dentry forgets its inode. -/
def World.forget (w : World) (clears : Bool) (dentry : Addr) (d : Dentry) : World :=
  if clears then w.setState (w.toState.setDcache (w.dcache.set dentry { d with dInode := none })) else w

/-- How an operation that makes an entry for a new inode can end, for a negative dentry. -/
inductive NewEntry (G : Nat → Geometry) (io : NewIo) (imode mode : Nat) (fails : Prop) (clears : Bool)
    (dir : Ino) (dentry : Addr) (d : Dentry) (w : World) : EStateM.Result Stop World Unit → Prop
  | inode {e : Stop} {w' : World} : NewInode io dir.1 imode w (.error e w') →
      NewEntry G io imode mode fails clears dir dentry d w (.error e w')
  | unprepared {ino : Ino} {w₁ w₂ : World} {e : Stop} : NewInode io dir.1 imode w (.ok ino w₁) →
      fails → Prepared ino w₁ w₂ → e.isErrno →
      NewEntry G io imode mode fails clears dir dentry d w (.error e (w₂.release io.release ino))
  | unadded {ino : Ino} {w₁ w₂ w₃ : World} {e : Stop} : NewInode io dir.1 imode w (.ok ino w₁) →
      ¬ fails → Prepared ino w₁ w₂ →
      AddEntry G io.add dir d.dName ino.2 mode (w₂.link dentry d ino) (.error e w₃) →
      NewEntry G io imode mode fails clears dir dentry d w
        (.error e (if e.isErrno then
          (w₃.release io.release ino).forget clears dentry { d with dInode := some ino } else w₃))
  | added {ino : Ino} {w₁ w₂ w₃ : World} : NewInode io dir.1 imode w (.ok ino w₁) →
      ¬ fails → Prepared ino w₁ w₂ →
      AddEntry G io.add dir d.dName ino.2 mode (w₂.link dentry d ino) (.ok () w₃) →
      NewEntry G io imode mode fails clears dir dentry d w (.ok () w₃)

theorem dAdd_eq (h : s.dcache.dentries dentry = some d)
    (hnone : d.dInode = none) : dAdd dentry (some ino) s =
      .ok () ((s.setIcount ino (s.icache ino + 1)).setDcache
        (s.dcache.set dentry { d with dInode := some ino })) := by
  unfold dAdd
  rw [run_bind_ok (dentryAt_eq h), hnone]
  rfl

/-- Every exit of the operation, with what it has undone by then. -/
theorem ext2NewEntry_cases {fails : Prop} (hprepare : Prepares prepare fails)
    (hd : w.dcache.dentries dentry = some d) (hnone : d.dInode = none) :
    Ends (NewEntry G io imode mode fails clears dir dentry d w)
      (ext2NewEntry G io imode mode prepare clears dir dentry) w := by
  refine wp_seq (wp_mono (fun _ _ h => h) (fun _ _ h => .inode h) ext2NewInode_cases)
    fun ino w₁ hino => ?_
  have hw₁ : w₁.dcache = w.dcache := by
    cases hino
    rfl
  refine wp_seq (wp_onError (wp_mono (fun _ _ h => h) (fun e w₂ he => ?_) (hprepare ino w₁)))
    fun _ w₂ ⟨hgoes, hprep⟩ => ?_
  · rw [if_pos he.2.1]
    exact .unprepared hino he.1 he.2.2 he.2.1
  · have hw₂ : w₂.dcache.dentries dentry = some d := by
      obtain ⟨node, hstate⟩ := hprep.state
      rw [hstate]
      rw [hw₁, hd]
    refine wp_bind.2 (wp_lift.2 (wp_of_ok (dAdd_eq hw₂ hnone) ?_))
    refine wp_bind.2 (wp_lift.2 (wp_of_ok (dentryAt_eq set_self) ?_))
    refine wp_onError (wp_mono (fun _ _ h => .added hino hgoes hprep h) (fun e w₃ he => ?_) addEntry_ends)
    have hend : NewEntry G io imode mode fails clears dir dentry d w _ := .unadded hino hgoes hprep he
    unfold World.forget at hend
    split_ifs at hend ⊢ with herr
    · exact wp_bind.2 (wp_modify.2 hend)
    · exact wp_bind.2 (wp_modify.2 hend)
    · exact hend

end ZzzOs.Fs.Vfs
