import ZzzOs.Lib.Word
import ZzzOs.Mm.Page

/-!
# The object caches

`mm/slab.c` for one cache. A slab is one page: a header, then `objects_per_slab` slots. A
free slot holds the link of its slab's free list in its first word (`next`).

* The lists of slabs are lists of page addresses; `list_del` takes a slab out of whichever
  list it is on.
* A magazine is the stack `objects[0 .. count)`, its top first.
* A function that can reach `panic` returns the branch it reached.
* The statistics (`hits`, `misses`, `refills`, `drains`, `global_accesses`) are left out.
-/

namespace ZzzOs.Mm

open Function Lib

def magSize : Nat := 16
def slabMagic : Nat := 0x5A5A5A5A
def slabMinAlign : Nat := 8
/-- `sizeof(struct slab)` and `sizeof(struct free_obj)`. -/
def sizeofSlab : Nat := 48
def sizeofFreeObj : Nat := 8

/-- The fields of `struct kmem_cache` that creation fixes. -/
structure KmemCache where
  objectSize : Nat
  align : Nat
  objectsPerSlab : Nat
deriving DecidableEq

/-- `div_u32`: both arguments are narrowed to 32 bits; division by zero is undefined. -/
def divU32 (num divNum : Nat) : Option Nat :=
  if divNum % 2 ^ 32 = 0 then none else some ((num % 2 ^ 32) / (divNum % 2 ^ 32))

def roundUpAlign (sz align : Nat) : Nat := alignUp sz align

def cacheObjectSize (size align : Nat) : Nat :=
  roundUpAlign (if size < sizeofFreeObj then sizeofFreeObj else size) align

def slabObjectsOffset (c : KmemCache) : Nat := alignUp sizeofSlab c.align

/-- `kmem_cache_create`: the cache or NULL; `none` is a division by zero. -/
def kmemCacheCreate (size align : Nat) : Option (Option KmemCache) :=
  let align := roundUpAlign (if align ≠ 0 then align else slabMinAlign) slabMinAlign
  let objectSize := cacheObjectSize size align
  let c : KmemCache := ⟨objectSize, align, 0⟩
  let objOffset := slabObjectsOffset c
  if objOffset ≥ pageSize then some none
  else do
    let objectsPerSlab ← divU32 (pageSize - objOffset) objectSize
    if objectsPerSlab = 0 then some none
    else some (some { c with objectsPerSlab := objectsPerSlab })

/-- The header of a slab, `struct slab` without its list node. -/
structure Slab where
  magic : Nat
  freeObject : Nat
  inuse : Nat
deriving DecidableEq

/-- What a cache changes while it runs, and the memory of its slabs. -/
structure Slabs where
  slab : Nat → Slab
  next : Nat → Nat
  fullSlabs : List Nat
  partialSlabs : List Nat
  freeSlabs : List Nat
  totalSlabs : Nat
  magLimit : Nat
  magBatch : Nat
  cpu : Nat → List Nat

/-- The branches of `mm/slab.c` that call `panic` while a cache is used. -/
inductive Panic
  | freeListEmpty
  | invalidFreeHead
  | invalidNextHead
  | invalidMagic
  | invalidObject
  | invalidOnFreeList
  | freeListLoop
  | doubleFree
  | magazineDoubleFree
deriving DecidableEq

namespace Slabs

def init (slab : Nat → Slab) (next : Nat → Nat) : Slabs where
  slab := slab
  next := next
  fullSlabs := []
  partialSlabs := []
  freeSlabs := []
  totalSlabs := 0
  magLimit := magSize
  magBatch := magSize / 2
  cpu := fun _ => []

variable (c : KmemCache)

/-! ## Objects and free lists -/

def objToSlab (obj : Nat) : Nat := alignDown obj pageSize

def slabObjectsStart (slab : Nat) : Nat := (slab + slabObjectsOffset c) % 2 ^ 64

def slabObjectsEnd (slab : Nat) : Nat :=
  (slabObjectsStart c slab + c.objectsPerSlab * c.objectSize) % 2 ^ 64

def slabObjIsValid (slab obj : Nat) : Bool :=
  if obj = 0 then true
  else if obj < slabObjectsStart c slab || obj ≥ slabObjectsEnd c slab then false
  else (obj - slabObjectsStart c slab) % c.objectSize == 0

/-- The loop of `slab_obj_is_free` at `cur`, which gives up after `fuel` more members. -/
def slabObjIsFree (next : Nat → Nat) (slab obj : Nat) : Nat → Nat → Except Panic Bool
  | fuel, cur =>
    if cur = 0 then .ok false
    else if !slabObjIsValid c slab cur then .error .invalidOnFreeList
    else if cur = obj then .ok true
    else
      match fuel with
      | 0 => .error .freeListLoop
      | fuel + 1 => slabObjIsFree next slab obj fuel (next cur)

def setSlab (s : Slabs) (slab : Nat) (f : Slab → Slab) : Slabs :=
  { s with slab := update s.slab slab (f (s.slab slab)) }

def listDel (s : Slabs) (slab : Nat) : Slabs :=
  { s with
    fullSlabs := s.fullSlabs.erase slab
    partialSlabs := s.partialSlabs.erase slab
    freeSlabs := s.freeSlabs.erase slab }

/-! ## New slabs -/

/-- The loop of `alloc_slab_detached` that links `n` more slots behind `obj`. -/
def initFreeList : Nat → Nat → (Nat → Nat) → (Nat → Nat)
  | 0, obj, next => update next obj 0
  | n + 1, obj, next =>
    let nextObj := (obj + c.objectSize) % 2 ^ 64
    initFreeList n nextObj (update next obj nextObj)

/-- `alloc_slab_detached` on the page `mem`. -/
def allocSlabDetached (s : Slabs) (mem : Nat) : Slabs :=
  let obj := slabObjectsStart c mem
  { s.setSlab mem fun _ => ⟨slabMagic, obj, 0⟩ with
    next := initFreeList c (c.objectsPerSlab - 1) obj s.next }

def addSlabLocked (s : Slabs) (slab : Nat) : Slabs :=
  { s with freeSlabs := slab :: s.freeSlabs, totalSlabs := s.totalSlabs + 1 }

/-! ## Sections under the lock of the cache -/

/-- The choice of `__kmem_cache_alloc_locked`: the slab to allocate from heads the partial list. -/
def pickPartial (s : Slabs) : Option (Nat × Slabs) :=
  match s.partialSlabs, s.freeSlabs with
  | slab :: _, _ => some (slab, s)
  | [], slab :: _ =>
    let s := s.listDel slab
    some (slab, { s with partialSlabs := slab :: s.partialSlabs })
  | [], [] => none

/-- The part of `__kmem_cache_alloc_locked` from `alloc_obj` on. -/
def allocObj (s : Slabs) (slab : Nat) : Except Panic (Option Nat × Slabs) :=
  let obj := (s.slab slab).freeObject
  if obj = 0 then .error .freeListEmpty
  else if !slabObjIsValid c slab obj then .error .invalidFreeHead
  else if !slabObjIsValid c slab (s.next obj) then .error .invalidNextHead
  else
    let s := s.setSlab slab fun h =>
      { h with freeObject := s.next obj, inuse := (h.inuse + 1) % 2 ^ 32 }
    if (s.slab slab).inuse ≥ c.objectsPerSlab then
      let s := s.listDel slab
      .ok (some obj, { s with fullSlabs := slab :: s.fullSlabs })
    else .ok (some obj, s)

def kmemCacheAllocLocked (s : Slabs) : Except Panic (Option Nat × Slabs) :=
  match s.pickPartial with
  | none => .ok (none, s)
  | some (slab, s) => allocObj c s slab

/-- The part of `__kmem_cache_free_locked` after its checks. -/
def freeObj (s : Slabs) (slab obj : Nat) : Option Nat × Slabs :=
  let s := { s with next := update s.next obj (s.slab slab).freeObject }
  let s := s.setSlab slab fun h =>
    { h with freeObject := obj, inuse := (h.inuse + (2 ^ 32 - 1)) % 2 ^ 32 }
  if (s.slab slab).inuse = 0 then
    let s := s.listDel slab
    let s := s.setSlab slab fun h => { h with magic := 0 }
    (some slab, { s with totalSlabs := s.totalSlabs - 1 })
  else if (s.slab slab).inuse = c.objectsPerSlab - 1 then
    let s := s.listDel slab
    (none, { s with partialSlabs := slab :: s.partialSlabs })
  else (none, s)

/-- `__kmem_cache_free_locked`: the slab that became empty, if any. -/
def kmemCacheFreeLocked (s : Slabs) (obj : Nat) : Except Panic (Option Nat × Slabs) :=
  if obj = 0 then .ok (none, s)
  else
    let slab := objToSlab obj
    if (s.slab slab).magic ≠ slabMagic then .error .invalidMagic
    else if !slabObjIsValid c slab obj then .error .invalidObject
    else do
      if ← slabObjIsFree c s.next slab obj c.objectsPerSlab (s.slab slab).freeObject then
        .error .doubleFree
      else .ok (freeObj c s slab obj)

def setCpu (s : Slabs) (cpu : Nat) (objects : List Nat) : Slabs :=
  { s with cpu := update s.cpu cpu objects }

/-- The inner loop of `refill_magazine`, for `n` more objects. -/
def refillLocked (cpu : Nat) : Nat → Slabs → Except Panic Slabs
  | 0, s => .ok s
  | n + 1, s => do
    match ← kmemCacheAllocLocked c s with
    | (none, s) => .ok s
    | (some obj, s) => refillLocked cpu n (s.setCpu cpu (obj :: s.cpu cpu))

/-- The loop of `drain_magazine`, for `nr` more objects; `toFree` collects empty slabs. -/
def drainLocked (cpu : Nat) : Nat → Slabs → List Nat → Except Panic (Slabs × List Nat)
  | 0, s, toFree => .ok (s, toFree)
  | nr + 1, s, toFree =>
    match s.cpu cpu with
    | [] => .ok (s, toFree)
    | obj :: objects => do
      let (empty, s) ← kmemCacheFreeLocked c (s.setCpu cpu objects) obj
      drainLocked cpu nr s (empty.elim toFree fun slab => slab :: toFree)

/-- The section of the last loop of `kmem_cache_drain`: the next free slab leaves the cache. -/
def takeFreeSlab (s : Slabs) : Option (Nat × Slabs) :=
  match s.freeSlabs with
  | [] => none
  | slab :: _ =>
    let s := s.listDel slab
    let s := s.setSlab slab fun h => { h with magic := 0 }
    some (slab, { s with totalSlabs := s.totalSlabs - 1 })

/-- The argument check of `kmem_cache_set_magazine`. -/
def setMagazineOk (limit batch : Nat) : Bool := !(batch == 0 || batch > limit || limit > magSize)

end Slabs

end ZzzOs.Mm
