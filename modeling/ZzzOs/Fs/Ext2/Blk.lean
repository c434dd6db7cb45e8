import ZzzOs.Fs.Ext2.Model

/-!
# The block map of an inode

`fs/ext2/ext2_blk.c` and `fs/ext2/ext2_cache.c`. A negative return value is an `error`, which keeps what
was changed before it.

Code that differs only in the number of levels of a tree is written once, over the list of the indices
(`blockPath`). The inode has no pages in the page cache, so the calls that drop them do nothing.
-/

namespace ZzzOs.Fs.Ext2

open Function Lib

/-- `struct inode` with its `ext2_inode_info`. -/
structure Inode where
  iData : Nat → Nat
  iBlocks : Nat
  iSize : Nat

structure Io where
  fs : Volume
  inode : Inode

abbrev M := EStateM Int Io

namespace Io

def setFs (s : Io) (fs : Volume) : Io := { s with fs }

def setBdev (s : Io) (bdev : Blkdev) : Io := { s with fs := { s.fs with bdev } }

def setCache (s : Io) (indirectCache : IndirectCache) : Io :=
  { s with fs := { s.fs with indirectCache } }

/-- `ei->i_data[k] = bno` -/
def setIData (s : Io) (k bno : Nat) : Io :=
  { s with inode := { s.inode with iData := update s.inode.iData k bno } }

def setIBlocks (s : Io) (iBlocks : Nat) : Io := { s with inode := { s.inode with iBlocks } }

end Io

def Geometry.perBlock (G : Geometry) : Nat := G.blockSize / 4

/-- The 512-byte sectors of a block. -/
def Geometry.sectors (G : Geometry) : Nat := G.blockSize / 512

/-- A `u32` returned as an `int`. -/
def toInt (u : Nat) : Int := if u < 2 ^ 31 then u else u - 2 ^ 32

section

variable (G : Geometry)

def readBlock (bno : Nat) : M Bytes := fun s =>
  match s.fs.bdev.blkdevRead G.blockSize (bno * G.blockSize) with
  | (none, bdev) => .error (-eio) (s.setBdev bdev)
  | (some buf, bdev) => .ok buf (s.setBdev bdev)

def writeBlock (bno : Nat) (buf : Bytes) : M Unit := fun s =>
  match s.fs.bdev.blkdevWrite buf G.blockSize (bno * G.blockSize) with
  | (false, bdev) => .error (-eio) (s.setBdev bdev)
  | (true, bdev) => .ok () (s.setBdev bdev)

/-! ## `ext2_cache.c` -/

namespace IndirectCache

variable (cache : IndirectCache)

def setEntry (e : Fin indirectCacheSize) (entry : CacheEntry) : IndirectCache :=
  { cache with entries := update cache.entries e entry }

def ext2IndirectCacheFind (blockNo : Nat) : Option (Fin indirectCacheSize) :=
  (List.finRange indirectCacheSize).find? fun e =>
    (cache.entries e).valid && decide ((cache.entries e).blockNo = blockNo)

/-- The loop of `ext2_indirect_cache_select_victim` over the entries that are left. -/
def victimFrom : List (Fin indirectCacheSize) → Fin indirectCacheSize → Fin indirectCacheSize
  | [], victim => victim
  | e :: es, victim =>
    if (cache.entries e).valid = false then e
    else if (cache.entries e).lastUsed < (cache.entries victim).lastUsed then victimFrom es e
    else victimFrom es victim

def ext2IndirectCacheSelectVictim : Fin indirectCacheSize :=
  cache.victimFrom (List.finRange indirectCacheSize) 0

/-- `++cache->clock` -/
def tick : Nat := (cache.clock + 1) % 2 ^ 64

/-- Entry `e` is used now, with these contents. -/
def fill (e : Fin indirectCacheSize) (blockNo : Nat) (data : Bytes) : IndirectCache :=
  { (cache.setEntry e { blockNo, data, lastUsed := cache.tick, valid := true }) with
    clock := cache.tick }

def drop (e : Fin indirectCacheSize) : IndirectCache :=
  cache.setEntry e { cache.entries e with valid := false }

def invalidate (blockNo : Nat) : IndirectCache :=
  match cache.ext2IndirectCacheFind blockNo with
  | none => cache
  | some e => cache.drop e

end IndirectCache

def ext2IndirectCacheRead (blockNo index : Nat) : M Nat := fun s =>
  if blockNo = 0 then .ok 0 s
  else if G.perBlock ≤ index then .error (-einval) s
  else
    let cache := s.fs.indirectCache
    match cache.ext2IndirectCacheFind blockNo with
    | some e =>
      .ok ((cache.entries e).data.word (4 * index) 4)
        (s.setCache (cache.fill e (cache.entries e).blockNo (cache.entries e).data))
    | none =>
      let e := cache.ext2IndirectCacheSelectVictim
      match readBlock G blockNo (s.setCache (cache.drop e)) with
      | .error ret s => .error ret s
      | .ok data s => .ok (data.word (4 * index) 4) (s.setCache (cache.fill e blockNo data))

def ext2IndirectCacheWrite (blockNo : Nat) (data : Bytes) : M Unit := fun s =>
  if blockNo = 0 then .error (-einval) s
  else writeBlock G blockNo data (s.setCache (s.fs.indirectCache.invalidate blockNo))

def ext2IndirectCacheInvalidate (blockNo : Nat) : M Unit := fun s =>
  .ok () (if blockNo = 0 then s else s.setCache (s.fs.indirectCache.invalidate blockNo))

/-! ## `ext2_blk.c` -/

def ext2AllocInodeBlock : M Nat := fun s =>
  if s.inode.iBlocks > 2 ^ 32 - 1 - G.sectors then .ok 0 s
  else
    let (bno, fs) := ext2AllocBno G s.fs
    let s := s.setFs fs
    .ok bno (if bno = 0 then s else s.setIBlocks (s.inode.iBlocks + G.sectors))

def ext2ReleaseInodeBlock (bno : Nat) : M Unit := fun s =>
  if s.inode.iBlocks < G.sectors then .error (-eio) s
  else
    let (ret, fs) := ext2ReleaseBno G bno s.fs
    let s := s.setFs fs
    if ret = 0 then .ok () (s.setIBlocks (s.inode.iBlocks - G.sectors)) else .error ret s

/-- The entry of `i_data` that a block of the file is below, and the indices that lead to it. -/
def blockPath (index : Nat) : Option (Nat × List Nat) :=
  let n := G.perBlock
  if index < 12 then some (index, [])
  else
    let index := index - 12
    if index < n then some (12, [index])
    else
      let index := index - n
      if index < n * n then some (13, [index / n, index % n])
      else
        let index := index - n * n
        if index < n * n * n then
          some (14, [index / (n * n), index % (n * n) / n, index % n])
        else none

/-- The reads of `ext2_block_mapping` from the indirect block `blockNo` down. -/
def readDown (blockNo : Nat) : List Nat → M Nat
  | [] => return blockNo
  | i :: is => do
    let next ← ext2IndirectCacheRead G blockNo i
    if next = 0 then return 0 else readDown next is

def blockMapping (index : Nat) : M Nat := fun s =>
  match blockPath G index with
  | none => .error (-efbig) s
  | some (k, is) => readDown G (s.inode.iData k) is s

def ext2BlockMapping (index : Nat) (s : Io) : Int × Io :=
  match blockMapping G index s with
  | .ok bno s => (toInt bno, s)
  | .error ret s => (ret, s)

def zeroBuf : Bytes := fun _ => 0

/-- A new block for the inode, or `-ENOSPC`. -/
def newBlock : M Nat := do
  let bno ← ext2AllocInodeBlock G
  if bno = 0 then throw (-enospc) else return bno

/-- `ei->i_data[k] = bno` -/
def storeIData (k bno : Nat) : M Unit := modify fun s => s.setIData k bno

/-- `read_or_alloc_block` on `ei->i_data[k]` -/
def readOrAllocBlock (k : Nat) : M Bytes := do
  if (← get).inode.iData k = 0 then
    let bno ← newBlock G
    storeIData k bno
    ext2IndirectCacheWrite G bno zeroBuf
    return zeroBuf
  else readBlock G ((← get).inode.iData k)

/-- Pointer `i` of the block `parent`, which has been read into `buf`; a new block is zeroed, an
indirect one through the cache. -/
def pointer (indirect : Bool) (parent : Nat) (buf : Bytes) (i : Nat) : M Nat := do
  if buf.word (4 * i) 4 = 0 then
    let bno ← newBlock G
    ext2IndirectCacheWrite G parent (buf.setWord (4 * i) 4 bno)
    if indirect then ext2IndirectCacheWrite G bno zeroBuf else writeBlock G bno zeroBuf
    return bno
  else return buf.word (4 * i) 4

/-- The levels of `ext2_block_set_mapping` below the block `parent`. -/
def walkDown (parent : Nat) (buf : Bytes) : List Nat → M Nat
  | [] => return parent
  | [i] => pointer G false parent buf i
  | i :: is => do
    let next ← pointer G true parent buf i
    let buf ← readBlock G next
    walkDown next buf is

/-- A direct block. -/
def setDirect (k : Nat) : M Nat := do
  if (← get).inode.iData k = 0 then
    let bno ← newBlock G
    storeIData k bno
    writeBlock G bno zeroBuf
  return (← get).inode.iData k

def setMapping (index : Nat) : M Nat := do
  match blockPath G index with
  | none => throw (-efbig)
  | some (k, []) => setDirect G k
  | some (k, is) =>
    let buf ← readOrAllocBlock G k
    walkDown G ((← get).inode.iData k) buf is

def ext2BlockSetMapping (index : Nat) (s : Io) : Int × Io :=
  match setMapping G index s with
  | .ok bno s => (toInt bno, s)
  | .error ret s => (ret, s)

/-- `ext2_release_indirect_branch` for a block `depth` levels above its data; a block of depth 0
holds data and is released itself. -/
def releaseBranch : Nat → Nat → M Unit
  | 0, bno => ext2ReleaseInodeBlock G bno
  | depth + 1, bno => do
    if bno = 0 then return ()
    let buf ← readBlock G bno
    (List.range G.perBlock).forM fun i =>
      if buf.word (4 * i) 4 = 0 then return () else releaseBranch depth (buf.word (4 * i) 4)
    ext2IndirectCacheInvalidate bno
    ext2ReleaseInodeBlock G bno

def height (k : Nat) : Nat := k - 11

def freeSlot (k : Nat) : M Unit := do
  let bno := (← get).inode.iData k
  if bno = 0 then return ()
  releaseBranch G (height k) bno
  storeIData k 0

def freeBlocks : M Unit := do
  (List.range 15).forM (freeSlot G)
  modify fun s => { s with inode := { s.inode with iSize := 0 } }

def ext2FreeInodeBlocks (s : Io) : Int × Io :=
  match freeBlocks G s with
  | .ok () s => (0, s)
  | .error ret s => (ret, s)

end

end ZzzOs.Fs.Ext2
