import ZzzOs.Fs.Blkdev

/-!
# The mounted file system, its bitmaps and counters

The state behind `EXT2_SB(sb)` and `fs/ext2/ext2_bitmap.c`. Block and inode numbers are allocated by the
same code with other fields, so both are `allocNr` or `releaseNr`, applied to a `Kind`.

`Geometry` is what this code relies on; a mount computes these numbers but checks few of them. Its
bounds keep every number in its machine type, so only the counters are reduced.
-/

namespace ZzzOs.Fs.Ext2

open Lib

/-- What a bitmap is about. -/
inductive Kind
  | block
  | inode
deriving DecidableEq

/-- The constant fields of `ext2_sb_info`. -/
structure Geometry where
  blockSize : Nat
  firstDataBlock : Nat
  blocksCount : Nat
  blocksPerGroup : Nat
  inodesCount : Nat
  inodesPerGroup : Nat
  groupsCount : Nat
  gdbCount : Nat
  blockSize_cases : blockSize = 1024 ∨ blockSize = 2048 ∨ blockSize = 4096 := by decide
  firstDataBlock_le : firstDataBlock ≤ 1 := by decide
  blocksCount_lt : blocksCount < 2 ^ 32 := by decide
  inodesCount_lt : inodesCount < 2 ^ 32 := by decide
  blocksPerGroup_pos : 0 < blocksPerGroup := by decide
  blocksPerGroup_le : blocksPerGroup ≤ 8 * blockSize := by decide
  inodesPerGroup_pos : 0 < inodesPerGroup := by decide
  inodesPerGroup_le : inodesPerGroup ≤ 8 * blockSize := by decide
  groups_blocks : (groupsCount - 1) * blocksPerGroup < blocksCount - firstDataBlock ∧
    blocksCount - firstDataBlock ≤ groupsCount * blocksPerGroup := by decide
  groups_inodes : (groupsCount - 1) * inodesPerGroup < inodesCount ∧
    inodesCount ≤ groupsCount * inodesPerGroup := by decide
  gdb : 32 * groupsCount ≤ gdbCount * blockSize ∧ gdbCount * blockSize < 2 ^ 32 := by decide

namespace Geometry

variable (G : Geometry)

def perGroup : Kind → Nat
  | .block => G.blocksPerGroup
  | .inode => G.inodesPerGroup

/-- The number of bit 0 of group 0. -/
def first : Kind → Nat
  | .block => G.firstDataBlock
  | .inode => 1

def total : Kind → Nat
  | .block => G.blocksCount - G.firstDataBlock
  | .inode => G.inodesCount

/-- `max_bits`: the bits of group `g` that stand for a number. -/
def maxBits (k : Kind) (g : Nat) : Nat :=
  if g = G.groupsCount - 1 then
    if G.total k % G.perGroup k = 0 then G.perGroup k else G.total k % G.perGroup k
  else G.perGroup k

/-- The number of bit `j` of group `g`. -/
def nr (k : Kind) (g j : Nat) : Nat := G.first k + g * G.perGroup k + j

end Geometry

/-! ## The cache of indirect blocks -/

/-- `EXT2_INDIRECT_CACHE_SIZE` -/
abbrev indirectCacheSize : Nat := 64

structure CacheEntry where
  blockNo : Nat
  data : Bytes
  lastUsed : Nat
  valid : Bool

/-- `struct ext2_indirect_cache`; the pages of its entries are allocated. -/
structure IndirectCache where
  clock : Nat
  entries : Fin indirectCacheSize → CacheEntry

/-! ## The file system -/

structure Volume where
  rawSb : Bytes
  gdt : Bytes
  /-- `s_free_blocks_count` and `s_free_inodes_count` of `ext2_sb_info` -/
  sFree : Kind → Nat
  bdev : Blkdev
  indirectCache : IndirectCache

def sbFreeOffset : Kind → Nat
  | .block => 12
  | .inode => 16

def bgBitmapOffset : Kind → Nat
  | .block => 0
  | .inode => 4

def bgFreeOffset : Kind → Nat
  | .block => 12
  | .inode => 14

namespace Volume

variable (fs : Volume)

def rawFree (k : Kind) : Nat := fs.rawSb.word (sbFreeOffset k) 4

def bgBitmap (k : Kind) (g : Nat) : Nat := fs.gdt.word (32 * g + bgBitmapOffset k) 4

def bgFree (k : Kind) (g : Nat) : Nat := fs.gdt.word (32 * g + bgFreeOffset k) 2

/-- The three counters of a kind change by `d`, each in its own type. -/
def addFree (k : Kind) (g : Nat) (d : Int) : Volume :=
  { fs with
    gdt := fs.gdt.setWord (32 * g + bgFreeOffset k) 2 ((fs.bgFree k g + d) % 2 ^ 16).toNat
    sFree := Function.update fs.sFree k ((fs.sFree k + d) % 2 ^ 32).toNat
    rawSb := fs.rawSb.setWord (sbFreeOffset k) 4 ((fs.rawFree k + d) % 2 ^ 32).toNat }

end Volume

/-! ## `ext2_bitmap.c` -/

section

variable (G : Geometry)

def ext2SyncGroupAndSuper (fs : Volume) : Bool × Volume :=
  match fs.bdev.blkdevWrite fs.rawSb 1024 1024 with
  | (false, bdev) => (false, { fs with bdev })
  | (true, bdev) =>
    let (ok, bdev) := bdev.blkdevWrite fs.gdt (G.gdbCount * G.blockSize)
      ((G.firstDataBlock + 1) * G.blockSize)
    (ok, { fs with bdev })

def ext2BnoGroup (bno : Nat) : Option Nat :=
  if bno < G.firstDataBlock ∨ 2 ^ 31 ≤ (bno - G.firstDataBlock) / G.blocksPerGroup then none
  else some ((bno - G.firstDataBlock) / G.blocksPerGroup)

def ext2InoGroup (ino : Nat) : Option Nat :=
  if ino = 0 ∨ ino > G.inodesCount ∨ 2 ^ 31 ≤ (ino - 1) / G.inodesPerGroup then none
  else some ((ino - 1) / G.inodesPerGroup)

def ext2ReadBitmap (fs : Volume) (bitmapBlock : Nat) : Option Bytes × Volume :=
  let (buf, bdev) := fs.bdev.blkdevRead G.blockSize (bitmapBlock * G.blockSize)
  (buf, { fs with bdev })

def ext2WriteBitmap (fs : Volume) (bitmapBlock : Nat) (buf : Bytes) : Bool × Volume :=
  let (ok, bdev) := fs.bdev.blkdevWrite buf G.blockSize (bitmapBlock * G.blockSize)
  (ok, { fs with bdev })

/-- `__ffs` on a word of `n` bits -/
def ffs : Nat → Nat → Nat
  | 0, _ => 0
  | n + 1, x => if x % 2 = 0 then ffs n (x / 2) + 1 else 0

/-- `ffz` on an `unsigned long` -/
def ffz (x : Nat) : Nat := ffs 64 (2 ^ 64 - 1 - x)

def setBit (nr : Nat) (buf : Bytes) : Bytes :=
  buf.setWord (8 * (nr / 64)) 8 (buf.word (8 * (nr / 64)) 8 ||| 2 ^ (nr % 64))

def clearBit (nr : Nat) (buf : Bytes) : Bytes :=
  buf.setWord (8 * (nr / 64)) 8 (buf.word (8 * (nr / 64)) 8 &&& (2 ^ 64 - 1 - 2 ^ (nr % 64)))

/-- The loop of `scan_bitmap_0`, with `n` words left from word `i` on. -/
def scanFrom (buf : Bytes) (maxBits : Nat) : Nat → Nat → Option Nat
  | 0, _ => none
  | n + 1, i =>
    let x := buf.word (8 * i) 8
    if x ≠ 2 ^ 64 - 1 ∧ i * 64 + ffz x < maxBits then some (i * 64 + ffz x)
    else scanFrom buf maxBits n (i + 1)

def scanBitmap0 (buf : Bytes) (maxBits : Nat) : Option Nat :=
  scanFrom buf maxBits ((maxBits + 64 - 1) / 64) 0

/-- Bit `j` of group `g` has been found free in `buf`: the rest of the allocation. -/
def takeBit (k : Kind) (g j : Nat) (buf : Bytes) (fs : Volume) : Nat × Volume :=
  match ext2WriteBitmap G fs (fs.bgBitmap k g) (setBit j buf) with
  | (false, fs) => (0, fs)
  | (true, fs) =>
    match ext2SyncGroupAndSuper G (fs.addFree k g (-1)) with
    | (false, fs) => (0, fs)
    | (true, fs) => (G.nr k g j, fs)

/-- The loop over the groups, with `n` of them left from `g` on. -/
def allocFrom (k : Kind) : Nat → Nat → Volume → Nat × Volume
  | 0, _, fs => (0, fs)
  | n + 1, g, fs =>
    if fs.bgFree k g = 0 then allocFrom k n (g + 1) fs
    else
      match ext2ReadBitmap G fs (fs.bgBitmap k g) with
      | (none, fs) => allocFrom k n (g + 1) fs
      | (some buf, fs) =>
        match scanBitmap0 buf (G.maxBits k g) with
        | none => allocFrom k n (g + 1) fs
        | some j => takeBit G k g j buf fs

def allocNr (k : Kind) (fs : Volume) : Nat × Volume := allocFrom G k G.groupsCount 0 fs

def releaseNr (k : Kind) (group : Option Nat) (nr : Nat) (fs : Volume) : Int × Volume :=
  match group with
  | none => (-einval, fs)
  | some g =>
    match ext2ReadBitmap G fs (fs.bgBitmap k g) with
    | (none, fs) => (-eio, fs)
    | (some buf, fs) =>
      let bit := (nr - G.first k) % G.perGroup k
      match ext2WriteBitmap G fs (fs.bgBitmap k g) (clearBit bit buf) with
      | (false, fs) => (-eio, fs)
      | (true, fs) =>
        match ext2SyncGroupAndSuper G (fs.addFree k g 1) with
        | (false, fs) => (-eio, fs)
        | (true, fs) => (0, fs)

def ext2AllocBno (fs : Volume) : Nat × Volume := allocNr G .block fs

def ext2AllocIno (fs : Volume) : Nat × Volume := allocNr G .inode fs

def ext2ReleaseBno (bno : Nat) (fs : Volume) : Int × Volume :=
  releaseNr G .block (ext2BnoGroup G bno) bno fs

def ext2ReleaseIno (ino : Nat) (fs : Volume) : Int × Volume :=
  releaseNr G .inode (ext2InoGroup G ino) ino fs

end

end ZzzOs.Fs.Ext2
