import Mathlib.Algebra.Group.Nat.Defs
import Mathlib.Data.List.Basic

/-!
# Boot memory map

The parts of `mm/memblock.c` that the page allocator reads: the two region lists and the
overlap test against the reserved regions. Addresses are 64-bit, so the ends of the
regions are sums modulo `2 ^ 64`.
-/

namespace ZzzOs.Mm

structure MemblockRegion where
  base : Nat
  size : Nat
  flags : Nat
deriving DecidableEq

namespace MemblockRegion

/-- `pos->base + pos->size` as the code computes it. -/
def limit (r : MemblockRegion) : Nat := (r.base + r.size) % 2 ^ 64

end MemblockRegion

/-- `struct memblock_type`, the region list without its head. -/
structure MemblockType where
  totalSize : Nat
  regions : List MemblockRegion

structure Memblock where
  memory : MemblockType
  reserved : MemblockType

def memblockAddrsOverlap (base1 size1 base2 size2 : Nat) : Bool :=
  base1 < (base2 + size2) % 2 ^ 64 && base2 < (base1 + size1) % 2 ^ 64

/-- The first reserved region that meets `[base, base + size)`. -/
def memblockIsReserved (mb : Memblock) (base size : Nat) : Option MemblockRegion :=
  mb.reserved.regions.find? fun pos => memblockAddrsOverlap base size pos.base pos.size

structure Memblock.Sorted (mb : Memblock) : Prop where
  aligned : ∀ r ∈ mb.memory.regions, 4096 ∣ r.base ∧ 4096 ∣ r.size
  bounded : ∀ r ∈ mb.memory.regions, r.base + r.size ≤ 2 ^ 64
  sorted : mb.memory.regions.Pairwise fun r r' => r.base + r.size ≤ r'.base

end ZzzOs.Mm
