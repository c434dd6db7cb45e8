import ZzzOs.Fs.Ext2.Alloc
import ZzzOs.Fs.Ext2.Blk
import ZzzOs.Lib.PtrTree
import Mathlib.Data.List.ProdSigma

/-!
# The blocks of all inodes

The blocks below the 15 entries of `i_data` are a tree each. In a consistent file system no block
is in two places, every one is marked as used and holds no metadata, `i_blocks` counts the blocks
of its inode, and the cache holds copies of indirect blocks that are still in a tree.
-/

namespace ZzzOs.Fs.Ext2

open List Lib

variable {m g k j : Nat} {G : Geometry} {fs fs' : Volume} {b c i : Nat}

/-- Pointer `i` of block `b` on the disk. -/
def ptr (G : Geometry) (fs : Volume) (b i : Nat) : Nat :=
  fs.bdev.data.word (b * G.blockSize + 4 * i) 4

/-- Blocks of the super block, of the group descriptors, and of the bitmaps. -/
def Volume.Meta (G : Geometry) (fs : Volume) (b : Nat) : Prop :=
  b = 1024 / G.blockSize ∨ (G.firstDataBlock + 1 ≤ b ∧ b < G.firstDataBlock + 1 + G.gdbCount) ∨
    ∃ k g, g < G.groupsCount ∧ b = fs.bgBitmap k g

/-- Block `b` has the same bytes. -/
def SameBlock (G : Geometry) (fs fs' : Volume) (b : Nat) : Prop :=
  ∀ y < G.blockSize, fs'.bdev.data (b * G.blockSize + y) = fs.bdev.data (b * G.blockSize + y)

/-- Block `b` holds zeros. -/
def ZeroBlock (G : Geometry) (fs : Volume) (b : Nat) : Prop :=
  ∀ y < G.blockSize, fs.bdev.data (b * G.blockSize + y) = 0

theorem perBlock_le (hi : i < G.perBlock) : 4 * i + 4 ≤ G.blockSize := by
  unfold Geometry.perBlock at hi
  omega

/-- The pointers of a block that was not written are the same. -/
theorem ptr_congr (h : SameBlock G fs fs' b) (hi : i < G.perBlock) :
    ptr G fs' b i = ptr G fs b i := by
  have hle := perBlock_le hi
  refine Bytes.word_congr fun x h1 h2 => ?_
  obtain ⟨y, rfl⟩ := Nat.exists_eq_add_of_le (Nat.le_trans (Nat.le_add_right _ (4 * i)) h1)
  exact h y (by omega)

theorem ptr_zero (h : ZeroBlock G fs b) (hi : i < G.perBlock) : ptr G fs b i = 0 := by
  have hle := perBlock_le hi
  refine Bytes.word_eq_zero fun x h1 h2 => ?_
  obtain ⟨y, rfl⟩ := Nat.exists_eq_add_of_le (Nat.le_trans (Nat.le_add_right _ (4 * i)) h1)
  exact h y (by omega)

/-- A pointer in the buffer is the one on the disk. -/
theorem word_block (hi : i < G.perBlock) :
    (fs.bdev.data.slice (b * G.blockSize) G.blockSize).word (4 * i) 4 = ptr G fs b i :=
  Bytes.word_slice (perBlock_le hi)

/-! ## All inodes -/

/-- The file system with `m` inodes. -/
structure Sys (m : Nat) where
  fs : Volume
  inodes : Fin m → Inode

/-- The entries of `i_data` of all inodes. -/
def slots (m : Nat) : List (Fin m × Nat) := List.finRange m ×ˢ List.range 15

theorem mem_slots {x : Fin m} : (x, k) ∈ slots m ↔ k < 15 := by
  simp [slots]

theorem nodup_slots : (slots m).Nodup := (nodup_finRange m).product nodup_range

namespace Sys

variable (G) (s : Sys m)

def root (p : Fin m × Nat) : Nat := (s.inodes p.1).iData p.2

/-- The blocks below one entry of `i_data`. -/
def tree (p : Fin m × Nat) : List Nat :=
  PtrTree.nodes G.perBlock (ptr G s.fs) (height p.2) (s.root p)

/-- The indirect blocks among them. -/
def inner (p : Fin m × Nat) : List Nat :=
  PtrTree.inner G.perBlock (ptr G s.fs) (height p.2) (s.root p)

def blocks : List Nat := (slots m).flatMap (s.tree G)

/-- The blocks of one inode. -/
def blocksOf (x : Fin m) : List Nat := (List.range 15).flatMap fun k => s.tree G (x, k)

/-- The block at the end of a path, or 0. -/
def find (p : Fin m × Nat) (is : List Nat) : Nat := PtrTree.find (ptr G s.fs) is (s.root p)

/-- A valid cache entry is a copy of an indirect block that is in a tree, and the only one. -/
structure Cached : Prop where
  inner : ∀ {e}, (s.fs.indirectCache.entries e).valid = true →
    ∃ p ∈ slots m, (s.fs.indirectCache.entries e).blockNo ∈ s.inner G p
  copy : ∀ {e}, (s.fs.indirectCache.entries e).valid = true → ∀ y < G.blockSize,
    (s.fs.indirectCache.entries e).data y =
      s.fs.bdev.data ((s.fs.indirectCache.entries e).blockNo * G.blockSize + y)
  inj : ∀ {e e'}, (s.fs.indirectCache.entries e).valid = true →
    (s.fs.indirectCache.entries e').valid = true →
    (s.fs.indirectCache.entries e).blockNo = (s.fs.indirectCache.entries e').blockNo → e = e'

structure Consistent : Prop where
  image : s.fs.Image G
  metaUsed : ∀ {b}, G.Inside .block b → s.fs.Meta G b → s.fs.usedNr G .block b = true
  nodup : (s.blocks G).Nodup
  inside : ∀ {b}, b ∈ s.blocks G → G.Inside .block b
  used : ∀ {b}, b ∈ s.blocks G → s.fs.usedNr G .block b = true
  notMeta : ∀ {b}, b ∈ s.blocks G → ¬ s.fs.Meta G b
  count : ∀ x, (s.inodes x).iBlocks = G.sectors * (s.blocksOf G x).length
  cached : s.Cached G

end Sys

variable {s s' : Sys m} {p q : Fin m × Nat}

theorem mem_blocks (hp : p ∈ slots m) (hb : b ∈ s.tree G p) : b ∈ s.blocks G :=
  mem_flatMap.2 ⟨p, hp, hb⟩

theorem inner_subset : s.inner G p ⊆ s.tree G p := PtrTree.inner_subset_nodes

/-- A free block is in no tree. -/
theorem Sys.Consistent.not_mem (h : s.Consistent G) (hfree : s.fs.usedNr G .block b = false) :
    b ∉ s.blocks G := fun hb => by
  rw [h.used hb] at hfree
  cases hfree

section

variable (hroot : s'.root p = s.root p) (hsame : ∀ b ∈ s.inner G p, SameBlock G s.fs s'.fs b)

include hroot hsame

/-- A tree depends on its root and the blocks in it only. -/
theorem tree_congr : s'.tree G p = s.tree G p := by
  rw [Sys.tree, hroot]
  exact PtrTree.nodes_congr fun b hb i hi => ptr_congr (hsame b hb) hi

theorem find_congr {is : List Nat} (hlen : is.length ≤ height p.2)
    (his : ∀ i ∈ is, i < G.perBlock) : s'.find G p is = s.find G p is := by
  rw [Sys.find, hroot]
  exact PtrTree.find_congr (fun b hb i hi => ptr_congr (hsame b hb) hi) hlen his

theorem inner_congr (hb : b ∈ s.inner G p) : b ∈ s'.inner G p := by
  rw [Sys.inner, hroot]
  exact PtrTree.inner_congr (fun b hb i hi => ptr_congr (hsame b hb) hi) hb

end

theorem blocksOf_length_le (x : Fin m) : ∀ b ∈ s.blocksOf G x, b ∈ s.blocks G := by
  intro b hb
  obtain ⟨k, hk, hb⟩ := mem_flatMap.1 hb
  exact mem_blocks (mem_slots.2 (mem_range.1 hk)) hb

/-! ## Bitmaps -/

theorem Volume.Meta.congr (hbm : ∀ k g, fs'.bgBitmap k g = fs.bgBitmap k g) :
    fs'.Meta G b ↔ fs.Meta G b := by
  simp only [Volume.Meta, hbm]

/-- A bitmap and the counters are written to metadata blocks only. -/
theorem sameBlock_putBitmap {k : Kind} {buf : Bytes} {d : Int} (hg : g < G.groupsCount)
    (hb : ¬ fs.Meta G b) : SameBlock G fs (fs.putBitmap G k g buf d) b := fun y hy => by
  refine data_putBitmap (fun he => hb (.inl he)) ?_ (fun he => hb (.inr (.inr ⟨k, g, hg, he⟩))) hy
  by_contra hcon
  exact hb (.inr (.inl (by omega)))

/-- A bit of a bitmap is the bit of one block. -/
theorem usedNr_of_used {v : Bool} (hj : j < G.maxBits .block g) (hb : G.Inside .block b)
    (hused : ∀ {g' j'}, g' < G.groupsCount → j' < G.maxBits .block g' → fs'.used G .block g' j' =
      if Kind.block = .block ∧ g' = g ∧ j' = j then v else fs.used G .block g' j') :
    fs'.usedNr G .block b = if b = G.nr .block g j then v else fs.usedNr G .block b := by
  obtain ⟨g', j', hg', hj', rfl⟩ := G.exists_bit .block hb.1 hb.2
  rw [usedNr_nr hj', usedNr_nr hj', hused hg' hj']
  exact if_congr ((and_iff_right rfl).trans (G.nr_inj .block hj' hj).symm) rfl rfl

end ZzzOs.Fs.Ext2
