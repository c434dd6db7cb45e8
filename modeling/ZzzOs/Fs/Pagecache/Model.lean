import ZzzOs.Lib.Wp
import Mathlib.Algebra.Group.Nat.Defs
import Mathlib.Data.Bool.Basic

/-!
# The page cache

`fs/pagecache.c` over `lib/lru.c`, and the eviction of an inode as far as it concerns the pages. The
cache is the list of its pages, the page that was used last in front; a page is named by a number that
no later page gets.

What the operations of a mapping return, and whether there is memory, is given for each call by an `Env`.
The log in the state, of the pages that left the cache, is not part of the source.
-/

namespace ZzzOs.Fs.Pagecache

open Lib

def einval : Int := 22

def enomem : Int := 12

def enoent : Int := 2

def eio : Int := 5

def pageSize : Nat := 4096

/-- `PAGECACHE_MAX_PAGES` -/
def maxPages : Nat := 256

/-- `PAGECACHE_RA_MAX_PAGES` -/
def raMaxPages : Nat := 4

structure Page where
  id : Nat
  mapping : Nat
  index : Nat
  refcount : BitVec 32
  uptodate : Bool
  dirty : Bool
  writeback : Bool
  dirtyBlocks : BitVec 8
deriving DecidableEq

/-- A page that was taken out, and whether its `writepage` was called after that and returned 0 -/
structure Release where
  page : Page
  written : Bool
deriving DecidableEq

structure Cache where
  pages : List Page
  nrpages : Nat → BitVec 32
  next : Nat
  log : List Release

def Cache.empty : Cache where
  pages := []
  nrpages _ := 0
  next := 0
  log := []

/-- `struct address_space`: the size of its file, and the operations that it has -/
structure Mapping where
  size : Nat
  readpage : Bool
  readpages : Bool
  writepage : Bool

structure Env where
  mapping : Nat → Mapping
  alloc : Nat → Bool
  writepage : Nat → Int
  readpage : Nat → Int
  readpages : Int

/-- An assertion does not hold. -/
inductive Stop where
  | assert

abbrev C := EStateM Stop Cache

/-! ## The list of the pages -/

def Cache.page (c : Cache) (id : Nat) : Option Page := c.pages.find? fun page => page.id = id

def Cache.set (c : Cache) (page : Page) : Cache :=
  { c with pages := c.pages.map fun old => if old.id = page.id then page else old }

/-- `lru_cache_touch` -/
def Cache.touch (c : Cache) (page : Page) : Cache :=
  { c with pages := page :: c.pages.filter fun other => other.id ≠ page.id }

section

variable (io : Env)

def Page.canWriteback (page : Page) : Bool := (io.mapping page.mapping).writepage

/-- `pagecache_sync_page`, with the page afterwards -/
def Page.sync (page : Page) : Option (Int × Page) :=
  if page.dirty then
    if page.canWriteback io then
      if io.writepage page.id = 0 then
        some (0, { page with dirty := false, dirtyBlocks := 0, uptodate := true, writeback := false })
      else some (io.writepage page.id, { page with writeback := false })
    else none
  else some (0, page)

def Page.release (page : Page) : Release where
  page := page
  written := page.dirty && page.canWriteback io && io.writepage page.id = 0

/-- `lru_cache_release_node`: the page leaves the cache, is written back if it is dirty, and is freed. -/
def lruCacheReleaseNode (page : Page) : C Unit := do
  modify fun c =>
    { c with pages := c.pages.filter (fun other => other.id ≠ page.id), log := page.release io :: c.log }
  match page.sync io with
  | none => throw .assert
  | some _ =>
    modify fun c =>
      { c with nrpages := fun m => if m = page.mapping ∧ c.nrpages m ≠ 0 then c.nrpages m - 1 else c.nrpages m }

/-! ## Reclaim -/

def Page.reclaimable (page : Page) : Bool :=
  page.refcount = 0 && !page.writeback && (!page.dirty || page.canWriteback io)

def pagecacheTryReclaimOne (page : Page) : C Bool := do
  if page.reclaimable io then
    lruCacheReleaseNode io page
    return true
  else return false

/-- The loop of `pagecache_reclaim_pages`; the next page is known before a page is released. -/
def reclaimLoop (n : Nat) : List Page → Nat → C Nat
  | [], reclaimed => return reclaimed
  | page :: rest, reclaimed => do
    if reclaimed < n then
      if ← pagecacheTryReclaimOne io page then reclaimLoop n rest (reclaimed + 1)
      else reclaimLoop n rest reclaimed
    else return reclaimed

def pagecacheReclaimPages (n : Nat) : C Nat := do
  reclaimLoop io n (← get).pages.reverse 0

/-! ## Pages of a mapping -/

def Cache.lookup (c : Cache) (m index : Nat) : Option Page :=
  c.pages.find? fun page => page.mapping = m ∧ page.index = index

/-- `pagecache_get_page`; without `FGP_CREAT` there may be no page. -/
def pagecacheGetPage (m index : Nat) (creat : Bool) : C (Except Int (Option Nat)) := do
  match (← get).lookup m index with
  | some page =>
    modify fun c => c.touch { page with refcount := page.refcount + 1 }
    return .ok (some page.id)
  | none =>
    if creat = false then return .ok none
    else if io.alloc index = false then return .error (-enomem)
    else
      let id := (← get).next
      modify fun c =>
        { c with
          pages :=
            { id, mapping := m, index, refcount := 1, uptodate := false, dirty := false, writeback := false,
              dirtyBlocks := 0 } :: c.pages
          next := id + 1
          nrpages := fun m' => if m' = m then c.nrpages m + 1 else c.nrpages m' }
      let count := (← get).pages.length
      if maxPages < count then
        let _ ← pagecacheReclaimPages io (count - maxPages)
      return .ok (some id)

/-- `pagecache_put_page`; a page that is not in the cache is not hashed. -/
def pagecachePutPage (id : Nat) : C Unit := do
  match (← get).page id with
  | none => throw .assert
  | some page =>
    modify fun c => c.touch (if page.refcount ≠ 0 then { page with refcount := page.refcount - 1 } else page)

/-- The pages that are read ahead, from the `i`th after `index` on, with `n` of them at most -/
def readAhead (m index last : Nat) : Nat → Nat → C (List Nat)
  | 0, _ => return []
  | n + 1, i => do
    if i ≤ last - index then
      match ← pagecacheGetPage io m (index + i) true with
      | .ok (some id) => return id :: (← readAhead m index last n (i + 1))
      | _ => return []
    else return []

def Cache.setUptodate (c : Cache) (ids : List Nat) : Cache :=
  { c with pages := c.pages.map fun page => if page.id ∈ ids then { page with uptodate := true } else page }

/-- A page that can be filled from the disk -/
def Cache.fillable (c : Cache) (id : Nat) : Bool :=
  match c.page id with
  | some page => !page.uptodate && !page.dirty && !page.writeback
  | none => false

/-- The part of `pagecache_read_page` with the pages locked -/
def fillPages (id : Nat) (more : List Nat) : C Int := do
  match (← get).page id with
  | none => throw .assert
  | some page =>
    if page.uptodate then return 0
    else if page.dirty || page.writeback then return -eio
    else
      let batch := (id :: more).filter (← get).fillable
      if 1 < batch.length ∧ io.readpages = 0 then
        modify fun c => c.setUptodate batch
        return 0
      else
        if io.readpage id = 0 then modify fun c => c.setUptodate [id]
        return io.readpage id

def putPages : List Nat → C Unit
  | [] => pure ()
  | id :: ids => do
    pagecachePutPage id
    putPages ids

def pagecacheReadPage (m index : Nat) (allowReadahead : Bool) : C (Except Int Nat) := do
  let last := ((io.mapping m).size - 1) / pageSize
  if (io.mapping m).size = 0 ∨ last < index then return .error (-enoent)
  else
    match ← pagecacheGetPage io m index true with
    | .error e => return .error e
    | .ok none => return .error (-enoent)
    | .ok (some id) =>
      match (← get).page id with
      | none => throw .assert
      | some page =>
        if page.uptodate then return .ok id
        else if (io.mapping m).readpage = false then
          pagecachePutPage id
          return .error (-einval)
        else
          let more ←
            if allowReadahead && (io.mapping m).readpages then readAhead io m index last (raMaxPages - 1) 1
            else pure []
          let ret ← fillPages io id more
          putPages more
          if ret < 0 then
            pagecachePutPage id
            return .error ret
          else return .ok id

/-! ## Writing back -/

/-- `pagecache_write_page`; a page that was freed is not dirty. -/
def pagecacheWritePage (id : Nat) : C Int := do
  match (← get).page id with
  | none => return 0
  | some page =>
    match page.sync io with
    | none => throw .assert
    | some (ret, page) =>
      modify fun c => c.set page
      return ret

def syncLoop (m : Nat) : List Page → C Int
  | [] => return 0
  | page :: rest => do
    if page.mapping = m ∧ page.dirty = true then
      let ret ← pagecacheWritePage io page.id
      if ret < 0 then return ret else syncLoop m rest
    else syncLoop m rest

def pagecacheSyncMapping (m : Nat) : C Int := do
  syncLoop io m (← get).pages

def invalidateLoop (m : Nat) : List Page → C Unit
  | [] => pure ()
  | page :: rest => do
    if page.mapping = m then lruCacheReleaseNode io page
    invalidateLoop m rest

def pagecacheInvalidateMapping (m : Nat) : C Unit := do
  invalidateLoop io m (← get).pages

/-- `inode_cache_free`, for the inode with the mapping `m` -/
def inodeCacheFree (m : Nat) : C Unit := pagecacheInvalidateMapping io m

/-! ## Changing a page -/

def modifyPage (id : Nat) (f : Page → Page) : C Unit := modify fun c =>
  match c.page id with
  | some page => c.set (f page)
  | none => c

def setPageDirty (id : Nat) : C Unit :=
  modifyPage id fun page => { page with dirty := true, dirtyBlocks := 0 }

/-- The bits of the blocks from `first` on to `last` -/
def blockBits (first last : Nat) : BitVec 8 := BitVec.ofNat 8 (2 ^ (last + 1) - 2 ^ first)

def pagecacheMarkDirtyRange (id offset length blockSize : Nat) : C Int := do
  if blockSize < 512 ∨ pageSize < blockSize ∨ pageSize % blockSize ≠ 0 ∨ 8 < pageSize / blockSize ∨
      pageSize < offset ∨ pageSize - offset < length then return -einval
  else if length = 0 then return 0
  else
    let bits := blockBits (offset / blockSize) ((offset + length - 1) / blockSize)
    modifyPage id fun page =>
      if page.dirty = true ∧ page.dirtyBlocks = 0 then page
      else { page with dirty := true, dirtyBlocks := page.dirtyBlocks ||| bits }
    return 0

/-! ## Runs -/

inductive Op where
  | get (m index : Nat) (creat : Bool)
  | put (id : Nat)
  | read (m index : Nat) (allowReadahead : Bool)
  | write (id : Nat)
  | setDirty (id : Nat)
  | markDirtyRange (id offset length blockSize : Nat)
  | sync (m : Nat)
  | invalidate (m : Nat)
  | reclaim (n : Nat)
  | evict (m : Nat)

def Op.run : Op → C Unit
  | .get m index creat => do let _ ← pagecacheGetPage io m index creat
  | .put id => pagecachePutPage id
  | .read m index allowReadahead => do let _ ← pagecacheReadPage io m index allowReadahead
  | .write id => do let _ ← pagecacheWritePage io id
  | .setDirty id => setPageDirty id
  | .markDirtyRange id offset length blockSize => do
    let _ ← pagecacheMarkDirtyRange id offset length blockSize
  | .sync m => do let _ ← pagecacheSyncMapping io m
  | .invalidate m => pagecacheInvalidateMapping io m
  | .reclaim n => do let _ ← pagecacheReclaimPages io n
  | .evict m => inodeCacheFree io m

end

def runOps : List (Env × Op) → C Unit
  | [] => pure ()
  | (io, op) :: rest => do
    op.run io
    runOps rest

end ZzzOs.Fs.Pagecache
