import ZzzOs.Fs.Ext2.Dir.Refine
import ZzzOs.Fs.Vfs.NewEntry
import ZzzOs.Fs.Vfs.Parents

/-!
# Failed creations

Nothing is left of a failed creation if the search for a free number fails before it writes, or if the
new inode cannot be written and its number is given back. Otherwise there is a number without an entry,
an inode in the cache without a dentry, or a dentry with an inode that has no entry.
-/

namespace ZzzOs.Fs.Vfs

open Function Lib Ext2

variable {G : Nat → Geometry} {io : NewIo} {sb imode mode nr n : Nat} {w w' w₁ w₂ : World}
  {dir ino : Ino} {dentry : Addr} {d : Dentry} {clears : Bool} {e : Int} {fails : Prop}

/-- The operations that make an inode -/
inductive NewOp
  | create (io : NewIo) (mode : Nat)
  | mkdir (io : NewIo) (mode : Nat)
  | mknod (io : NewIo) (mode : Nat)
  | symlink (io : NewIo) (target : List UInt8)

namespace NewOp

def env : NewOp → NewIo
  | create io _ => io
  | mkdir io _ => io
  | mknod io _ => io
  | symlink io _ => io

def run (G : Nat → Geometry) : NewOp → Ino → Addr → W Unit
  | create io mode => ext2Create G io mode
  | mkdir io mode => ext2Mkdir G io mode
  | mknod io mode => ext2Mknod G io mode
  | symlink io target => ext2Symlink G io target

end NewOp

structure Undone (dir : Ino) (dentry : Addr) (w w' : World) : Prop where
  inodes : w'.freeInodes = w.freeInodes
  blocks : w'.freeBlocks = w.freeBlocks
  entries : w'.nodes dir = w.nodes dir
  negative : ∃ d, w'.dcache.dentries dentry = some d ∧ d.dInode = none
  refs : w'.icache = w.icache

/-- No number is found and nothing is written, or a number is found that is not cached, the inode
cannot be written, and the bit is cleared again. -/
def EarlyFailure (io : NewIo) (sb : Nat) (w : World) : Prop :=
  w.Unfound sb io.alloc ∨
    (∃ nr, io.alloc = .ok nr ∧ w.icache (sb, nr) = 0) ∧ io.write < 0 ∧ io.release.cleared

/-! ## References -/

@[simp] theorem release_state (io : ReleaseIo) : (w.release io ino).toState = w.toState := by
  unfold World.release
  split <;> rfl

@[simp] theorem forget_icache : (w.forget clears dentry d).icache = w.icache := by
  unfold World.forget
  split <;> rfl

theorem Prepared.icache (h : Prepared ino w w') : w'.icache = w.icache := by
  obtain ⟨node, hstate⟩ := h.state
  rw [hstate]

theorem taken_ne : (w.markIno ino true).freeInodes ≠ w.freeInodes := by
  intro h
  have hone := congrFun h ino.1
  change update w.freeInodes ino.1 (w.freeInodes ino.1 - 1) ino.1 = _ at hone
  rw [update_self] at hone
  omega

theorem taken_given : ((w.markIno ino true).markIno ino false).freeInodes = w.freeInodes := by
  show update (update w.freeInodes ino.1 (w.freeInodes ino.1 - 1)) ino.1
    (update w.freeInodes ino.1 (w.freeInodes ino.1 - 1) ino.1 + 1) = _
  rw [update_self, update_idem, Int.sub_add_cancel, update_eq_self]

theorem grabbed_ne {icache : Ino → Nat} (hnew : w.icache ino = 0) (hold : icache ino ≠ 0) :
    icache ≠ w.icache := fun h => hold (by rw [h, hnew])

theorem made_icache : (w.made ino mode).icache ino = w.icache ino + 1 := update_self ..

theorem link_icache : (w.link dentry d ino).icache ino = w.icache ino + 1 := update_self ..

theorem AddEntry.icache {io : DirIo} {name : Qstr} {stop : Stop}
    (h : AddEntry G io dir name n mode w (.error stop w')) : w'.icache = w.icache := by
  cases h <;> rfl

/-- A new inode has a number that was free and not cached, and could be written. -/
theorem NewInode.new (h : NewInode io sb mode w (.ok ino w₁)) :
    w.icache ino = 0 ∧ w₁.icache ino ≠ 0 ∧ ¬ EarlyFailure io sb w := by
  cases h with
  | made halloc hfree hnew hmem hwrite =>
    refine ⟨hnew, by rw [made_icache]; exact Nat.succ_ne_zero _, ?_⟩
    rintro (hun | ⟨-, hfail, -⟩)
    · rw [halloc] at hun
      exact hun hfree
    · exact hwrite hfail

/-! ## Failures -/

section

variable (hd : w.dcache.dentries dentry = some d) (hnone : d.dInode = none)

include hd hnone

theorem NewInode.undone_iff (h : NewInode io sb mode w (.error (.errno e) w')) :
    Undone dir dentry w w' ↔ EarlyFailure io sb w := by
  cases h with
  | unfound hun => exact iff_of_true ⟨rfl, rfl, rfl, ⟨d, hd, hnone⟩, rfl⟩ (.inl hun)
  | lost halloc hfree =>
    refine iff_of_false (fun hundone => taken_ne hundone.inodes) ?_
    rintro (hun | ⟨⟨nr, hok, -⟩, -⟩)
    · rw [halloc] at hun
      exact hun hfree
    · rw [halloc] at hok
      cases hok
  | cached halloc hfree hcached =>
    refine iff_of_false (fun hundone => taken_ne hundone.inodes) ?_
    rintro (hun | ⟨⟨nr, hok, hnew⟩, -⟩)
    · rw [halloc] at hun
      exact hun hfree
    · rw [halloc] at hok
      cases hok
      exact hcached hnew
  | failed halloc hfree hnew hmem hwrite =>
    have hearly : EarlyFailure io sb w ↔ io.release.cleared := by
      refine ⟨?_, fun hcleared => .inr ⟨⟨_, halloc, hnew⟩, hwrite, hcleared⟩⟩
      rintro (hun | ⟨-, -, hcleared⟩)
      · rw [halloc] at hun
        exact absurd hfree hun
      · exact hcleared
    rw [hearly]
    unfold World.release
    split
    · exact iff_of_true ⟨taken_given, rfl, rfl, ⟨d, hd, hnone⟩, rfl⟩ ‹_›
    · exact iff_of_false (fun hundone => taken_ne hundone.inodes) ‹_›

theorem NewEntry.undone_iff (h : NewEntry G io imode mode fails clears dir dentry d w (.error (.errno e) w')) :
    Undone dir dentry w w' ↔ EarlyFailure io dir.1 w := by
  cases h with
  | inode h => exact h.undone_iff hd hnone
  | unprepared hino hfails hprep he =>
    obtain ⟨hnew, hgrabbed, hlate⟩ := hino.new
    refine iff_of_false (fun hundone => grabbed_ne hnew ?_ hundone.refs) hlate
    rw [release_state, hprep.icache]
    exact hgrabbed
  | unadded hino hgoes hprep hadd =>
    obtain ⟨hnew, hgrabbed, hlate⟩ := hino.new
    refine iff_of_false (fun hundone => grabbed_ne hnew ?_ hundone.refs) hlate
    rw [if_pos (show (Stop.errno e).isErrno from rfl), forget_icache, release_state, hadd.icache, link_icache]
    exact Nat.succ_ne_zero _

end

/-- **Failed creations.** A creation that returns an error has left nothing behind if and only if it
failed before it took a number, or could not write the new inode and gave its number back. -/
theorem failed_creation_undone_iff (op : NewOp) (hd : w.dcache.dentries dentry = some d)
    (hnone : d.dInode = none) (hfail : op.run G dir dentry w = .error (.errno e) w') :
    Undone dir dentry w w' ↔ EarlyFailure op.env dir.1 w := by
  cases op with
  | create | mknod =>
    exact (wp_error (ext2NewEntry_cases prepares_nothing hd hnone) hfail).undone_iff hd hnone
  | symlink io target =>
    exact (wp_error (ext2NewEntry_cases (prepares_target io target) hd hnone) hfail).undone_iff hd hnone
  | mkdir io mode =>
    have hends : wp (ext2Mkdir G io mode dir dentry) (fun _ _ => True)
        (fun stop w' => NewEntry G io (sIfdir ||| mode) sIfdir (io.prepare < 0) true dir dentry d w
          (.error stop w')) w :=
      wp_bind.2 (wp_post (fun _ _ _ => wp_modify.2 trivial)
        (ext2NewEntry_cases (prepares_dots io dir) hd hnone))
    exact (wp_error hends hfail).undone_iff hd hnone

/-! ## A page that cannot be read -/

def coldWorld : World where
  toState := coldState
  used ino := decide (ino.1 = 0 ∧ ino.2 ≤ 13)
  freeInodes _ := 100
  freeBlocks _ := 100
  nlink ino := if ino = (0, 2) then 3 else if ino = (0, 12) then 2 else 1
  mode ino := if ino = (0, 13) then 0x81a4 else 0x41ed
  added := []

def coldChild : Dentry where
  dName := [98]
  dInode := none
  dParent := 1
  dSb := 0
  dCount := 1
  bucket := dentryCacheHash 1 [98]
  serial := 1
  parentSerial := 0

def childWorld : World :=
  coldWorld.setState { coldState with
    dcache := coldState.dcache.add 2 coldChild
    mem := [] }

/-- All goes well, and the number 14 is free. -/
def wellIo : NewIo where
  alloc := .ok 14
  mem := true
  write := 0
  prepare := 0
  prepareBlocks := 1
  add := quietIo
  addBlocks := 0
  release := { cleared := true, ret := 0 }

/-- The page of the directory cannot be read when the entry is put into it. -/
def noPage : NewOp := .create { wellIo with add := { quietIo with get := -eio } } 0

def inodeAfterError (a : Addr) (r : EStateM.Result Stop World Unit) : Option (Option Ino) :=
  match r with
  | .error (.errno _) w' => (w'.dcache.dentries a).map Dentry.dInode
  | _ => none

theorem exists_of_inodeAfterError {a : Addr} {r : EStateM.Result Stop World Unit} {i : Option Ino}
    (h : inodeAfterError a r = some i) : ∃ e w', r = .error (.errno e) w' ∧
      (w'.dcache.dentries a).map Dentry.dInode = some i := by
  unfold inodeAfterError at h
  split at h
  · exact ⟨_, _, rfl, h⟩
  · cases h

/-- `ext2_create` fails, and the dentry has an inode. -/
theorem create_keeps_inode : ∃ e w',
    noPage.run (fun _ => bigDisk) (0, 2) 2 childWorld = .error (.errno e) w' ∧
      ¬ Undone (0, 2) 2 childWorld w' := by
  have hrun : inodeAfterError 2 (noPage.run (fun _ => bigDisk) (0, 2) 2 childWorld) =
      some (some (0, 14)) := by decide +kernel
  obtain ⟨e, w', hres, hino⟩ := exists_of_inodeAfterError hrun
  refine ⟨e, w', hres, fun hundone => ?_⟩
  obtain ⟨d, hd, hnone⟩ := hundone.negative
  rw [hd, Option.map_some, hnone] at hino
  cases hino

/-- The new inode cannot be written. -/
def noWrite : NewOp := .create { wellIo with write := -eio } 0

/-- `ext2_create` fails, and the number 14 is given back. -/
theorem create_undone : ∃ e w',
    noWrite.run (fun _ => bigDisk) (0, 2) 2 childWorld = .error (.errno e) w' ∧
      Undone (0, 2) 2 childWorld w' := by
  have hrun : inodeAfterError 2 (noWrite.run (fun _ => bigDisk) (0, 2) 2 childWorld) = some none := by
    decide +kernel
  obtain ⟨e, w', hres, -⟩ := exists_of_inodeAfterError hrun
  exact ⟨e, w', hres, (failed_creation_undone_iff noWrite rfl rfl hres).2
    (.inr ⟨⟨14, rfl, rfl⟩, by decide, rfl⟩)⟩

end ZzzOs.Fs.Vfs
