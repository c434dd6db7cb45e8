import ZzzOs.Fs.Ext2.Dir.Update

/-!
# The blocks of a directory

Insertions keep the blocks of a directory tiled by their entries. `ext2_delete_entry` gives the space of
an entry to the one before it in the page: if the entry is the first of a block, but not of the page, the
one before it then crosses the boundary of its block (`dir_blocks_tiled_iff`).
-/

namespace ZzzOs.Fs.Ext2

open List Lib

variable {G : Geometry} {d d' : Dir} {i o v ino mode p : Nat} {child name : List UInt8} {io : DirIo}
  {buf buf' : Bytes} {r : Int} {os os' : List Nat}

/-! ## Runs -/

/-- A call, with what the calls below it return. -/
inductive DirOp where
  | add (io : DirIo) (name : List UInt8) (ino mode : Nat)
  | delete (io : DirIo) (child : List UInt8)

def DirOp.run (G : Geometry) (d : Dir) : DirOp → Option (Int × Dir)
  | .add io name ino mode => ext2AddEntry G io d name ino mode
  | .delete io child => ext2DeleteEntry io d child

def Dir.Always (G : Geometry) (P : Dir → Prop) (d : Dir) : List DirOp → Prop
  | [] => P d
  | op :: ops => P d ∧ ∃ r d', op.run G d = some (r, d') ∧ Dir.Always G P d' ops

def Dir.Meets (G : Geometry) (C : Dir → DirOp → Prop) (d : Dir) : List DirOp → Prop
  | [] => True
  | op :: ops => C d op ∧ ∀ r d', op.run G d = some (r, d') → Dir.Meets G C d' ops

/-- The entry that is deleted is not the first of a block, or it is the first of a page. Nothing is
deleted if a page before it cannot be read. -/
def KeepsBlocks (G : Geometry) (d : Dir) : DirOp → Prop
  | .add .. => True
  | .delete io child => ∀ i o, ext2FindEntry d child = some (some (i, o)) →
      (∀ j ≤ i, ¬ io.scan j < 0) → G.blockSize ∣ o → o = 0

/-! ## Steps -/

theorem Put.pageTiled
    (h : PageTiled G buf v os) (hput : Put buf buf' v os os' child ino) : PageTiled G buf' v os' :=
  ⟨hput.tiled, fun x hx hlt => hput.subset (h.2 x hx hlt)⟩

theorem Added.tiled (h : d.Tiled G) (hadd : Added G io d name ino mode (r, d')) : d'.Tiled G := by
  generalize hres : (r, d') = res at hadd
  cases hadd with
  | failed =>
    cases hres
    exact h
  | slot hi _ _ _ hos hput =>
    cases hres
    exact (hput.pageTiled (h.pageTiled hi hos)).setPage h
  | block hnone =>
    rw [newBlock_eq h.paged] at hres
    split at hres
    · cases hres
      exact h
    · split at hres <;> cases hres
      · exact h
      · exact withBlock_tiled h

theorem dropFirst_pageTiled (h : PageTiled G buf v (o :: os)) :
    PageTiled G (dropEntry buf none o) v (o :: os) := ⟨(h.1.free mem_cons_self).1, h.2⟩

theorem drop_pageTiled_iff {l₁ l₂ : List Nat} (hv : v ≤ pageSize)
    (h : PageTiled G buf v (l₁ ++ p :: o :: l₂)) :
    (∃ os, PageTiled G (dropEntry buf (some p) o) v os) ↔ ¬ G.blockSize ∣ o := by
  obtain ⟨hos, hcut⟩ := h
  have hdrop := (hos.drop hv).1
  have hmove : l₁ ++ p :: o :: l₂ = (l₁ ++ [p]) ++ o :: l₂ := by simp
  have hjoin : l₁ ++ p :: l₂ = (l₁ ++ [p]) ++ l₂ := by simp
  have hmem : ∀ {x}, x ∈ l₁ ++ p :: o :: l₂ ↔ x = o ∨ x ∈ l₁ ++ p :: l₂ := by
    intro x
    rw [hmove, hjoin, perm_middle.mem_iff, mem_cons]
  have hnot : o ∉ l₁ ++ p :: l₂ := by
    have hnodup := hos.tiles.nodup
    rw [hmove, nodup_middle, ← hjoin] at hnodup
    exact (nodup_cons.1 hnodup).1
  have hlt : o < v := by
    have hbounds := hos.tiles.bounds (hmem.2 (.inl rfl))
    omega
  constructor
  · rintro ⟨os, hos', hcut'⟩ hdvd
    rw [hos'.tiles.unique hdrop.tiles] at hcut'
    exact hnot (hcut' o hdvd hlt)
  · refine fun hdvd => ⟨_, hdrop, fun x hx hxv => ?_⟩
    rcases hmem.1 (hcut x hx hxv) with rfl | hx'
    · exact absurd hx hdvd
    · exact hx'

theorem setPage_tiled_iff (h : d.Tiled G) (hi : i * pageSize < d.iSize) :
    (d.setPage i buf).Tiled G ↔ ∃ os, PageTiled G buf (validBytes d.iSize i) os := by
  constructor
  · intro htiled
    obtain ⟨os, hos⟩ := htiled.page hi
    rw [Dir.setPage_page_self] at hos
    exact ⟨os, hos⟩
  · rintro ⟨os, hos⟩
    exact hos.setPage h

theorem Deleted.tiled_iff (h : d.Tiled G) (hdel : Deleted io d child (r, d')) :
    d'.Tiled G ↔ KeepsBlocks G d (.delete io child) := by
  generalize hres : (r, d') = res at hdel
  cases hdel with
  | absent hnone =>
    cases hres
    refine iff_of_true h fun i o hfound => ?_
    rw [hnone] at hfound
    cases hfound
  | failed hscan hle =>
    cases hres
    exact iff_of_true h fun i o hfound hpages => absurd hscan (hpages _ (hle i o hfound))
  | @found i o l₁ l₂ hi hos hm hscan hfound =>
    cases hres
    have hos := h.pageTiled hi hos
    have hkeeps : KeepsBlocks G d (.delete io child) ↔ (G.blockSize ∣ o → o = 0) := by
      constructor
      · exact fun hk => hk i o hfound hscan
      · intro hk i' o' hfound'
        rw [hfound] at hfound'
        cases hfound'
        exact fun _ => hk
    rw [hkeeps, setPage_tiled_iff h hi]
    -- the entry is the first of its page, or another one takes its space
    rcases eq_nil_or_concat' l₁ with rfl | ⟨l, p, rfl⟩
    · have ho : o = 0 := hos.1.tiles.1
      exact iff_of_true ⟨_, dropFirst_pageTiled hos⟩ fun _ => ho
    · rw [List.getLast?_concat]
      rw [append_assoc, singleton_append] at hos
      have hpos : o ≠ 0 := by
        obtain ⟨-, hpos, hrest⟩ := hos.1.tiles.of_append_cons
        have ho := hrest.1
        omega
      rw [drop_pageTiled_iff validBytes_le hos]
      exact ⟨fun hdvd hdvd' => absurd hdvd' hdvd, fun hk hdvd => hpos (hk hdvd)⟩

theorem DirOp.run_tiled_iff (h : d.Tiled G) (op : DirOp) :
    ∃ r d', op.run G d = some (r, d') ∧ (d'.Tiled G ↔ KeepsBlocks G d op) := by
  cases op with
  | add io name ino mode =>
    obtain ⟨⟨r, d'⟩, heq, hadd⟩ := addEntry_cases h.paged io name ino mode
    exact ⟨r, d', heq, iff_of_true (hadd.tiled h) trivial⟩
  | delete io child =>
    obtain ⟨⟨r, d'⟩, heq, hdel⟩ := deleteEntry_cases h.paged io child
    exact ⟨r, d', heq, hdel.tiled_iff h⟩

/-- **Blocks of a directory.** A sequence of insertions and deletions keeps the blocks tiled if and only
if it never deletes an entry that is the first of a block, but not of a page. -/
theorem dir_blocks_tiled_iff (h : d.Tiled G) (ops : List DirOp) :
    d.Always G (Dir.Tiled G) ops ↔ d.Meets G (KeepsBlocks G) ops := by
  induction ops generalizing d with
  | nil => exact iff_of_true h trivial
  | cons op ops ih =>
    obtain ⟨r, d', heq, hiff⟩ := op.run_tiled_iff h
    constructor
    · rintro ⟨-, r₁, d₁, heq₁, halways⟩
      rw [heq] at heq₁
      cases heq₁
      have htiled : d'.Tiled G := by
        cases ops with
        | nil => exact halways
        | cons _ _ => exact halways.1
      refine ⟨hiff.1 htiled, fun r₂ d₂ heq₂ => ?_⟩
      rw [heq] at heq₂
      cases heq₂
      exact (ih htiled).1 halways
    · rintro ⟨hkeeps, hmeets⟩
      exact ⟨h, r, d', heq, (ih (hiff.2 hkeeps)).2 (hmeets r d' heq)⟩

/-! ## A directory of two blocks in one page -/

/-- A file system with blocks of 1024 bytes. -/
def floppy : Geometry where
  blockSize := 1024
  firstDataBlock := 1
  blocksCount := 64
  blocksPerGroup := 64
  inodesCount := 16
  inodesPerGroup := 16
  groupsCount := 1
  gdbCount := 1

/-- The first block has `.` and `..`, the second one has `a`. -/
def twoBlocks : Dir where
  iSize := 2048
  page _ := ext2InitDirEntry (ext2InitDirEntry (ext2InitDirEntry (fun _ => 0) 0 2 0x41ed [46] 12)
    12 2 0x41ed [46, 46] 1012) 1024 12 0x81a4 [97] 1024

/-- All calls below succeed. -/
def quietIo : DirIo := { scan _ := 0, map := 0, get := 0, write := 0, inode := 0 }

theorem twoBlocks_tiled : twoBlocks.Tiled floppy := by
  refine Dir.Tiled.of_pages (by decide) (by decide) fun i hi => ?_
  have hsize : twoBlocks.iSize = 2048 := rfl
  obtain rfl : i = 0 := by
    unfold pageSize at hi
    omega
  have hv : validBytes twoBlocks.iSize 0 = 2048 := by decide
  have hlen : deRecLen (twoBlocks.page 0) 0 = 12 ∧ deRecLen (twoBlocks.page 0) 12 = 1012 ∧
      deRecLen (twoBlocks.page 0) 1024 = 1024 := by decide +kernel
  have hgood : ∀ o ∈ [0, 12, 1024], ext2DirRecLen (deNameLen (twoBlocks.page 0) o) ≤
      deRecLen (twoBlocks.page 0) o ∧ 4 ∣ deRecLen (twoBlocks.page 0) o := by decide +kernel
  rw [hv]
  refine ⟨[0, 12, 1024], ⟨?_, fun o ho => ⟨(hgood o ho).1, (hgood o ho).2⟩⟩, fun x hx hlt => ?_⟩
  · simp [Tiles, hlen]
  · have hbs : floppy.blockSize = 1024 := rfl
    rw [hbs] at hx
    have hx' : x = 0 ∨ x = 1024 := by omega
    rcases hx' with rfl | rfl <;> decide

/-- The deletion of `a` leaves an entry of 2036 bytes. -/
theorem twoBlocks_delete : twoBlocks.Tiled floppy ∧
    ¬ twoBlocks.Always floppy (Dir.Tiled floppy) [.delete quietIo [97]] := by
  refine ⟨twoBlocks_tiled, ?_⟩
  rintro ⟨-, r, d', heq, htiled⟩
  obtain ⟨r₁, d₁, heq₁, hiff⟩ := DirOp.run_tiled_iff twoBlocks_tiled (.delete quietIo [97])
  rw [heq] at heq₁
  cases heq₁
  have hfound : ext2FindEntry twoBlocks [97] = some (some (0, 1024)) := by decide +kernel
  have hzero := hiff.1 htiled 0 1024 hfound (fun j _ => Int.lt_irrefl 0) (by decide)
  exact absurd hzero (by decide)

/-- The entry `..` can be deleted. -/
theorem twoBlocks_tiled_iff : twoBlocks.Always floppy (Dir.Tiled floppy) [.delete quietIo [46, 46]] ↔
    twoBlocks.Meets floppy (KeepsBlocks floppy) [.delete quietIo [46, 46]] :=
  dir_blocks_tiled_iff twoBlocks_tiled _

end ZzzOs.Fs.Ext2
