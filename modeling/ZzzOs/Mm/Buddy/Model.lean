import ZzzOs.Mm.Physmem

/-!
# The page allocator

`mm/buddy.c`, function by function. A function that takes a lock is the body of its locked section.

* `free_area[k].free_list` is the list of its members in order. `list_del` takes a node
  out of whichever list it is on, so `removeFromFreeArea` erases it from all of them and
  counts down the area it was called with.
* A per-CPU list is threaded through `page->next` from `head`, as in the source.
* A result `none` is a run that leaves the C program's defined behaviour: a NULL page or a
  list head used as a page, or a traversal that does not end.
* The statistics counters (`hits`, `misses`, `refills`, `drains`) are left out.
-/

namespace ZzzOs.Mm

open Function

def maxOrder : Nat := 11

structure FreeArea where
  freeList : List Nat
  nrFree : Nat
deriving DecidableEq

/-- `struct per_cpu_pages`; `count`, `high` and `batch` are 32 bits wide. -/
structure PerCpuPages where
  head : Option Nat
  count : Nat
  high : Nat
  batch : Nat
deriving DecidableEq

/-- The globals of `mm/buddy.c` and the descriptors. -/
structure Buddy where
  memMap : Nat → Page
  freeArea : Nat → FreeArea
  pcp : Nat → PerCpuPages
  managedPages : Nat

namespace Buddy

/-! ## Descriptors and free lists -/

/-- Write to one descriptor. -/
def setPage (s : Buddy) (page : Nat) (f : Page → Page) : Buddy :=
  { s with memMap := update s.memMap page (f (s.memMap page)) }

/-- Write to one `struct per_cpu_pages`. -/
def setPcp (s : Buddy) (cpu : Nat) (f : PerCpuPages → PerCpuPages) : Buddy :=
  { s with pcp := update s.pcp cpu (f (s.pcp cpu)) }

def addToFreeArea (s : Buddy) (page order : Nat) : Buddy :=
  let area := s.freeArea order
  { s.setPage page Page.setPageBuddy with
    freeArea := update s.freeArea order ⟨area.freeList ++ [page], area.nrFree + 1⟩ }

def listDel (areas : Nat → FreeArea) (page : Nat) : Nat → FreeArea :=
  fun k => { areas k with freeList := (areas k).freeList.erase page }

def removeFromFreeArea (s : Buddy) (page order : Nat) : Buddy :=
  let areas := listDel s.freeArea page
  { s.setPage page Page.clearPageBuddy with
    freeArea := update areas order
      { areas order with nrFree := (areas order).nrFree - 1 } }

def getFirstPage (s : Buddy) (order : Nat) : Option Nat := (s.freeArea order).freeList.head?

def getBuddyPage (pm : PhysMem) (page order : Nat) : Option Nat :=
  pfnToPage pm (page ^^^ (1 <<< order))

/-- The test for a free buddy of the same order, made before every merge. -/
def isFreeBuddy (s : Buddy) (buddy order : Nat) : Bool :=
  (s.memMap buddy).pageBuddy && (s.memMap buddy).order == order

/-! ## Merging at start-up -/

/-- A position in a free list: a page or the head of the list of an order. -/
inductive Cursor
  | page (p : Nat)
  | head (order : Nat)
deriving DecidableEq

/-- The member that follows `p`. -/
def listNext : List Nat → Nat → Option Nat
  | a :: b :: l, p => if a = p then some b else listNext (b :: l) p
  | _, _ => none

/-- `buddy_node.next`. A node that is on no list points at itself. -/
def nodeNext (s : Buddy) (p : Nat) : Cursor :=
  match (List.range maxOrder).find? fun k => p ∈ (s.freeArea k).freeList with
  | some k =>
    match listNext (s.freeArea k).freeList p with
    | some q => .page q
    | none => .head k
  | none => .page p

def cursorNext (s : Buddy) : Cursor → Cursor
  | .page p => s.nodeNext p
  | .head k =>
    match (s.freeArea k).freeList with
    | q :: _ => .page q
    | [] => .head k

def mergePair (s : Buddy) (page buddy order : Nat) : Buddy :=
  let s := s.removeFromFreeArea page order
  let s := s.removeFromFreeArea buddy order
  let merged := if page < buddy then page else buddy
  let s := s.setPage merged fun p => { p with order := order + 1, flags := 0 }
  s.addToFreeArea merged (order + 1)

/-- The loop of `try_merge_order` at the position `page` with saved successor `n`. -/
def tryMergeLoop (pm : PhysMem) (order : Nat) : Nat → Buddy → Cursor → Cursor → Option Buddy
  | 0, _, _, _ => none
  | _ + 1, s, .head k, _ => if k = order then some s else none
  | fuel + 1, s, .page p, n =>
    match (getBuddyPage pm p order).filter fun b => s.isFreeBuddy b order with
    | some b =>
      let n := s.cursorNext n
      let s := s.mergePair p b order
      tryMergeLoop pm order fuel s n (s.cursorNext n)
    | none => tryMergeLoop pm order fuel s n (s.cursorNext n)

/-- `try_merge_order`. A traversal visits each member of the list at most once. -/
def tryMergeOrder (pm : PhysMem) (s : Buddy) (order : Nat) : Option Buddy :=
  if order ≥ maxOrder - 1 then some s
  else
    let page := s.cursorNext (.head order)
    tryMergeLoop pm order ((s.freeArea order).freeList.length + 1) s page (s.cursorNext page)

/-! ## Allocation and release of blocks -/

def findOrder (s : Buddy) (order : Nat) : Option Nat :=
  (List.range' order (maxOrder - order)).find? fun current => 0 < (s.freeArea current).nrFree

def splitLoop (pm : PhysMem) (order : Nat) : Nat → Buddy → Option Buddy
  | 0, s => some s
  | n + 1, s => do
    let page ← s.getFirstPage (order + (n + 1))
    let s := s.removeFromFreeArea page (order + (n + 1))
    let newOrder := order + n
    let buddyPage ← getBuddyPage pm page newOrder
    let s := s.setPage buddyPage fun p => { p with order := newOrder, flags := 0, slab := 0 }
    let s := s.addToFreeArea buddyPage newOrder
    let s := s.setPage page fun p => { p with order := newOrder, flags := 0, slab := 0 }
    let s := s.addToFreeArea page newOrder
    splitLoop pm order n s

/-- `__buddy_alloc_locked`: the page or NULL, and the state. -/
def buddyAllocLocked (pm : PhysMem) (s : Buddy) (order : Nat) : Option (Option Nat × Buddy) :=
  if order ≥ maxOrder then some (none, s)
  else
    match s.findOrder order with
    | none => some (none, s)
    | some current => do
      let s ← splitLoop pm order (current - order) s
      let page ← s.getFirstPage order
      some (some page, s.removeFromFreeArea page order)

/-- The coalescing loop of `__buddy_free_locked`, for `fuel` more orders. -/
def coalesce (pm : PhysMem) : Nat → Buddy → Nat → Nat → Buddy × Nat × Nat
  | 0, s, page, order => (s, page, order)
  | fuel + 1, s, page, order =>
    match (getBuddyPage pm page order).filter fun b => s.isFreeBuddy b order with
    | some b => coalesce pm fuel (s.removeFromFreeArea b order) (if page > b then b else page) (order + 1)
    | none => (s, page, order)

def buddyFreeLocked (pm : PhysMem) (s : Buddy) (page : Nat) : Buddy :=
  let order := (s.memMap page).order
  if order ≥ maxOrder then s
  else if (s.memMap page).pageReserved || (s.memMap page).pageBuddy || (s.memMap page).pagePcp then s
  else
    let (s, page, order) := coalesce pm (maxOrder - 1 - order) s page order
    let s := s.setPage page fun p =>
      { p with order := order, flags := 0, refcount := 0, mapping := 0, index := 0, priv := 0,
               next := none, slab := 0 }
    s.addToFreeArea page order

/-! ## Per-CPU page lists -/

def pcpPop (s : Buddy) (cpu : Nat) : Option Nat × Buddy :=
  match (s.pcp cpu).head with
  | none => (none, s)
  | some page =>
    let s := s.setPcp cpu fun c => { c with head := (s.memMap page).next, count := c.count - 1 }
    (some page, s.setPage page fun p => ({ p with next := none } : Page).clearPagePcp)

/-- The link of a page into a per-CPU list, shared by refill and push. -/
def pcpLink (s : Buddy) (cpu page : Nat) : Buddy :=
  let s := s.setPage page fun p => { p with next := (s.pcp cpu).head }
  s.setPcp cpu fun c => { c with head := some page, count := (c.count + 1) % 2 ^ 32 }

def pcpPush (s : Buddy) (cpu page : Nat) : Buddy :=
  (s.setPage page fun p => ({ p with order := 0 } : Page).setPagePcp).pcpLink cpu page

def pcpRefill (pm : PhysMem) (cpu : Nat) : Nat → Buddy → Option Buddy
  | 0, s => some s
  | n + 1, s => do
    match ← buddyAllocLocked pm s 0 with
    | (none, s) => some s
    | (some page, s) => pcpRefill pm cpu n ((s.setPage page Page.setPagePcp).pcpLink cpu page)

/-- The loop of `pcp_drain`, for `n` more pages. -/
def pcpDrain (pm : PhysMem) (cpu : Nat) : Nat → Buddy → Buddy
  | 0, s => s
  | n + 1, s =>
    match (s.pcp cpu).head with
    | none => s
    | some page =>
      let s := s.setPcp cpu fun c => { c with head := (s.memMap page).next, count := c.count - 1 }
      let s := s.setPage page fun p => { ({ p with next := none } : Page).clearPagePcp with order := 0 }
      pcpDrain pm cpu n (buddyFreeLocked pm s page)

/-! ## The interface -/

/-- `prepare_allocated_page`; `cache_lru_node` is not part of the model. -/
def prepareAllocatedPage (s : Buddy) (page : Nat) : Buddy :=
  s.setPage page fun p => { p with refcount := 0, mapping := 0, index := 0, priv := 0, slab := 0 }

/-- `alloc_pages` on the CPU `cpu`. -/
def allocPages (pm : PhysMem) (s : Buddy) (cpu order : Nat) : Option (Option Nat × Buddy) :=
  if order ≠ 0 then buddyAllocLocked pm s order
  else
    match s.pcpPop cpu with
    | (some page, s) => some (some page, s.prepareAllocatedPage page)
    | (none, s) => do
      let s ← pcpRefill pm cpu (s.pcp cpu).batch s
      match s.pcpPop cpu with
      | (some page, s) => some (some page, s.prepareAllocatedPage page)
      | (none, s) => some (none, s)

/-- `free_pages` on the CPU `cpu`. -/
def freePages (pm : PhysMem) (s : Buddy) (cpu : Nat) : Option Nat → Buddy
  | none => s
  | some page =>
    if (s.memMap page).order ≠ 0 then buddyFreeLocked pm s page
    else
      let s := s.pcpPush cpu page
      if (s.pcp cpu).count > (s.pcp cpu).high then pcpDrain pm cpu (s.pcp cpu).batch s else s

/-- The argument check of `pcp_configure`. -/
def pcpConfigureOk (high batch : Nat) : Bool := !(batch == 0 || high < batch)

/-- The section of `pcp_configure` under the lock of one CPU. -/
def pcpConfigureCpu (pm : PhysMem) (s : Buddy) (cpu high batch : Nat) : Buddy :=
  (pcpDrain pm cpu (s.pcp cpu).count s).setPcp cpu fun c => { c with high := high, batch := batch }

/-- The frames of one region that `buddy_init` puts on the list of order 0. -/
def initPfns (mb : Memblock) (pos : MemblockRegion) : List Nat :=
  (((List.range ((pos.limit - pos.base + (pageSize - 1)) / pageSize)).map
    fun i => pos.base + i * pageSize).filter
      fun addr => (memblockIsReserved mb addr pageSize).isNone).map physToPfn

def initPage (pm : PhysMem) (s : Buddy) (pfn : Nat) : Option Buddy := do
  let page ← pfnToPage pm pfn
  let s := s.setPage page fun p => { p with order := 0, flags := 0, slab := 0 }
  let s := s.addToFreeArea page 0
  some { s with managedPages := s.managedPages + 1 }

/-- `buddy_init` over the descriptors `pages`. -/
def buddyInit (pm : PhysMem) (mb : Memblock) (pages : Nat → Page) : Option Buddy := do
  let s : Buddy :=
    { memMap := pages
      freeArea := fun _ => ⟨[], 0⟩
      pcp := fun _ => ⟨none, 0, 0, 0⟩
      managedPages := 0 }
  let s ← (mb.memory.regions.flatMap (initPfns mb)).foldlM (initPage pm) s
  let s ← (List.range (maxOrder - 1)).foldlM (tryMergeOrder pm) s
  some { s with pcp := fun _ => ⟨none, 0, 64, 16⟩ }

end Buddy

end ZzzOs.Mm
