import ZzzOs.Lib.ScanSort
import ZzzOs.Lib.Spans
import ZzzOs.Lib.Word
import ZzzOs.Mm.Memblock

/-!
# Region lists

The part of `mm/memblock.c` that changes the region lists. A region is a slot of a static pool, which
keeps its free slots on a stack. `memblock_remove` and `memblock_mark_nomap` keep a pointer to the next
region while they replace the one at hand by pieces of it, put in front of the list and sorted into
place.
-/

namespace ZzzOs.Mm

open Lib

/-- A `struct memblock_region` of the pool. -/
structure Node extends MemblockRegion where
  idx : Nat
deriving DecidableEq

/-- A region list, and the free slots of the pool with the top of the stack first. -/
structure Regions where
  nodes : List Node
  free : List Nat
deriving DecidableEq

/-- `struct memblock` and the pool. -/
structure BootMem where
  memory : List Node
  memoryTotal : Nat
  reserved : List Node
  reservedTotal : Nat
  free : List Nat
deriving DecidableEq

namespace Memblock

def initMemblockRegions : Nat := 256

def memblockNomap : Nat := 4

/-- `a - b` on 64-bit words. -/
def sub64 (a b : Nat) : Nat := (a + 2 ^ 64 - b) % 2 ^ 64

def memblockRegionAlloc : List Nat → Option (Nat × List Nat)
  | [] => none
  | idx :: free => some (idx, free)

def memblockRegionFree (free : List Nat) (idx : Nat) : List Nat :=
  if initMemblockRegions ≤ free.length then free else idx :: free

def memblockSortOne (region : Node) (nodes : List Node) : List Node :=
  ScanSort.sortOne (fun n : Node => n.base) region nodes

/-- `none` if the pass over the list does not end. -/
def memblockSort (nodes : List Node) : Option (List Node) :=
  ScanSort.sort (fun n : Node => n.base) nodes

/-- `memblock_add_region`, with no slot left an error. -/
def memblockAddRegion (s : Regions) (r : MemblockRegion) : Option Regions :=
  match memblockRegionAlloc s.free with
  | none => none
  | some (idx, free) =>
    let region : Node := { r with idx }
    some { nodes := memblockSortOne region (s.nodes ++ [region]), free }

/-! ## Replacing a region by pieces -/

/-- A piece that is not empty gets a slot and goes to the front of the list. The slot is used
unchecked: with none left this is a store through `NULL`. -/
def addPiece (s : Regions) (r : MemblockRegion) : Option Regions :=
  if 0 < r.size then
    match memblockRegionAlloc s.free with
    | none => none
    | some (idx, free) => some { nodes := { r with idx } :: s.nodes, free }
  else some s

def addPieces : Regions → List MemblockRegion → Option Regions
  | s, [] => some s
  | s, r :: rs => (addPiece s r).bind fun s => addPieces s rs

def replaceRegion (s : Regions) (pos : Node) (pieces : List MemblockRegion) : Option Regions :=
  (addPieces { nodes := s.nodes.erase pos, free := memblockRegionFree s.free pos.idx } pieces).bind
    fun s => (memblockSort s.nodes).map fun nodes => { s with nodes }

/-- The loop that `memblock_remove_region` and `memblock_mark_nomap` share, from the region `pos`;
it ends when `pos` is the head of the list. -/
def cutFrom (pieces : Node → List MemblockRegion) (base size : Nat) :
    Nat → Option Node → Regions → Option Regions
  | 0, _, _ => none
  | _ + 1, none, s => some s
  | fuel + 1, some pos, s =>
    let tmp := ScanSort.after pos s.nodes
    if memblockAddrsOverlap base size pos.base pos.size then
      (replaceRegion s pos (pieces pos)).bind fun s => cutFrom pieces base size fuel tmp s
    else cutFrom pieces base size fuel tmp s

/-- Each region of the list is met at most once, so one round for each is enough. -/
def cut (pieces : Node → List MemblockRegion) (base size : Nat) (s : Regions) : Option Regions :=
  cutFrom pieces base size (s.nodes.length + 1) s.nodes.head? s

/-- The part of `pos` before the range. -/
def leftPiece (base : Nat) (pos : Node) : MemblockRegion :=
  { base := pos.base, size := sub64 (min base pos.limit) pos.base, flags := pos.flags }

/-- The part of `pos` after the range. -/
def rightPiece (base size : Nat) (pos : Node) : MemblockRegion :=
  let fin := (base + size) % 2 ^ 64
  { base := min fin pos.limit, size := sub64 pos.limit (min fin pos.limit), flags := pos.flags }

/-- The part of `pos` in the range, marked. -/
def midPiece (base size : Nat) (pos : Node) : MemblockRegion :=
  let fin := (base + size) % 2 ^ 64
  { base := max base pos.base
    size := sub64 (min fin pos.limit) (max base pos.base)
    flags := pos.flags ||| memblockNomap }

def removePieces (base size : Nat) (pos : Node) : List MemblockRegion :=
  [leftPiece base pos, rightPiece base size pos]

def nomapPieces (base size : Nat) (pos : Node) : List MemblockRegion :=
  [leftPiece base pos, midPiece base size pos, rightPiece base size pos]

def memblockRemoveRegion (s : Regions) (base size : Nat) : Option Regions :=
  cut (removePieces base size) base size s

def memblockRemove (mb : BootMem) (base size : Nat) : Option BootMem :=
  (memblockRemoveRegion ⟨mb.memory, mb.free⟩ base size).map fun s =>
    { mb with memory := s.nodes, free := s.free }

def memblockMarkNomap (mb : BootMem) (base size : Nat) : Option BootMem :=
  (cut (nomapPieces base size) base size ⟨mb.memory, mb.free⟩).map fun s =>
    { mb with memory := s.nodes, free := s.free }

/-- `memblock_reserve`, with its result. -/
def memblockReserve (mb : BootMem) (base size : Nat) : BootMem × Int :=
  match memblockAddRegion ⟨mb.reserved, mb.free⟩ { base, size, flags := 0 } with
  | none => (mb, -1)
  | some s =>
    ({ mb with
        reserved := s.nodes
        reservedTotal := (mb.reservedTotal + size) % 2 ^ 64
        free := s.free }, 0)

end Memblock

end ZzzOs.Mm
