import ZzzOs.Lib.Word
import ZzzOs.Mm.Memblock
import ZzzOs.Mm.Page

/-!
# The descriptor array

`mm/physmem.c`. `physmemInit` computes the range of frames that have a descriptor and
fills the array; the caller's `kernel` and `memMap` are the two ranges it marks reserved
besides the reserved regions. `pfnToPage` is NULL outside that range.
-/

namespace ZzzOs.Mm

open Nat Lib

def kernelPaBase : Nat := 0x80000000
def kernelVaBase : Nat := 0xffffffffc0000000

def kernelVa (pa : Nat) : Nat := (2 ^ 64 - kernelPaBase + (kernelVaBase + pa)) % 2 ^ 64
def kernelPa (va : Nat) : Nat := (2 ^ 64 - kernelVaBase + kernelPaBase + va) % 2 ^ 64

/-- `first_pfn` and `last_pfn`. -/
structure PhysMem where
  firstPfn : Nat
  lastPfn : Nat
deriving DecidableEq

namespace PhysMem

/-- The frame has a descriptor. -/
def Has (pm : PhysMem) (pfn : Nat) : Prop := pm.firstPfn ≤ pfn ∧ pfn < pm.lastPfn

instance (pm : PhysMem) (pfn : Nat) : Decidable (pm.Has pfn) :=
  inferInstanceAs (Decidable (_ ∧ _))

/-- The descriptors lie in the kernel's address window, which runs from `KERNEL_VA_BASE` to the
top of the address space; one descriptor is larger than a byte. -/
def Fits (pm : PhysMem) : Prop := pm.lastPfn - pm.firstPfn ≤ 2 ^ 64 - kernelVaBase

end PhysMem

def pfnToPage (pm : PhysMem) (pfn : Nat) : Option Nat :=
  if pfn < pm.firstPfn || pfn ≥ pm.lastPfn then none else some pfn

def physToPage (pm : PhysMem) (pa : Nat) : Option Nat := pfnToPage pm (physToPfn pa)

variable {pm : PhysMem} {pfn p pa : Nat}

theorem pfnToPage_eq_some : pfnToPage pm pfn = some p ↔ p = pfn ∧ pm.Has pfn := by
  unfold pfnToPage PhysMem.Has
  split_ifs with h
  · simp only [Bool.or_eq_true, decide_eq_true_eq] at h
    constructor
    · intro h'; cases h'
    · rintro ⟨-, h1, h2⟩; omega
  · simp only [Bool.or_eq_true, decide_eq_true_eq, not_or, not_lt, ge_iff_le, not_le] at h
    simp [h.1, h.2, eq_comm]

theorem pfnToPage_of_has (h : pm.Has pfn) : pfnToPage pm pfn = some pfn :=
  pfnToPage_eq_some.2 ⟨rfl, h⟩

/-- One descriptor as `physmem_init` leaves it. -/
def freshPage : Page where
  flags := 0
  refcount := 0
  mapping := 0
  index := 0
  priv := 0
  order := 0xFFFF
  next := none
  slab := 0

def markReservedPageByRange (pm : PhysMem) (base size : Nat) (pages : Nat → Page) : Nat → Page :=
  let start := physToPfn base
  let stop := physToPfn (alignDown ((base + size + pageSize - 1) % 2 ^ 64) pageSize)
  let start := if start < pm.firstPfn then pm.firstPfn else start
  let stop := if stop > pm.lastPfn then pm.lastPfn else stop
  fun p => if start ≤ p ∧ p < stop then (pages p).setFlag pageReservedBit else pages p

/-- One round of the scan for the lowest base and the highest end. -/
def physmemBoundsStep (b : Nat × Nat) (pos : MemblockRegion) : Nat × Nat :=
  if pos.flags ≠ 0 then b
  else (if pos.base < b.1 then pos.base else b.1, if pos.limit > b.2 then pos.limit else b.2)

def physmemBounds (regions : List MemblockRegion) : Nat × Nat :=
  regions.foldl physmemBoundsStep (2 ^ 64 - 1, 0)

def physmemInit (mb : Memblock) (kernel memMap : MemblockRegion) : PhysMem × (Nat → Page) :=
  if mb.memory.totalSize = 0 then (⟨0, 0⟩, fun _ => freshPage)
  else
    let (low, high) := physmemBounds mb.memory.regions
    let pm : PhysMem := ⟨physToPfn low, physToPfn high⟩
    let pages := mb.reserved.regions.foldl
      (fun pages pos => markReservedPageByRange pm pos.base pos.size pages) fun _ => freshPage
    let pages := markReservedPageByRange pm kernel.base kernel.size pages
    (pm, markReservedPageByRange pm memMap.base memMap.size pages)

/-! ## What the initial descriptors hold -/

theorem setReserved_flags (p : Page) : (p.setFlag pageReservedBit).pageBuddy = p.pageBuddy ∧
      (p.setFlag pageReservedBit).pagePcp = p.pagePcp := by
  simp [Page.pageBuddy_eq, Page.pagePcp_eq, Page.setFlag, pageReservedBit]

/-- Neither flag of the page allocator is set, and the order is none. -/
def Page.Unused (p : Page) : Prop := p.pageBuddy = false ∧ p.pagePcp = false ∧ p.order = 0xFFFF

theorem markReserved_unused {base size : Nat} {pages : Nat → Page}
    (h : ∀ p, (pages p).Unused) (p : Nat) :
    (markReservedPageByRange pm base size pages p).Unused := by
  dsimp only [markReservedPageByRange]
  generalize (if physToPfn base < pm.firstPfn then _ else _) = start
  generalize (if physToPfn _ > pm.lastPfn then _ else _) = stop
  obtain ⟨h1, h2⟩ := setReserved_flags (pages p)
  split
  · rw [Page.Unused, h1, h2]; exact h p
  · exact h p

theorem physmemInit_pages (mb : Memblock) (kernel memMap : MemblockRegion) (p : Nat) :
    ((physmemInit mb kernel memMap).2 p).Unused := by
  have hfresh : freshPage.Unused := by unfold Page.Unused; decide
  unfold physmemInit
  split
  · exact hfresh
  · refine markReserved_unused (markReserved_unused ?_) p
    generalize physmemBounds mb.memory.regions = bounds
    suffices h : ∀ (rs : List MemblockRegion) (pm : PhysMem) (pages : Nat → Page),
        (∀ p, (pages p).Unused) → ∀ p, (rs.foldl (fun pages pos =>
          markReservedPageByRange pm pos.base pos.size pages) pages p).Unused from
      fun p => h _ _ _ (fun _ => hfresh) p
    intro rs pm
    induction rs with
    | nil => intro pages h; exact h
    | cons r rs ih => intro pages h; exact ih _ (markReserved_unused h)

theorem physmemBoundsStep_spec (b : Nat × Nat) (pos : MemblockRegion) :
    (physmemBoundsStep b pos).1 ≤ b.1 ∧ b.2 ≤ (physmemBoundsStep b pos).2 ∧
      (pos.flags = 0 → (physmemBoundsStep b pos).1 ≤ pos.base ∧
        pos.limit ≤ (physmemBoundsStep b pos).2) := by
  unfold physmemBoundsStep
  by_cases hf : pos.flags = 0
  · rw [if_neg (fun h => h hf)]
    refine ⟨?_, ?_, fun _ => ⟨?_, ?_⟩⟩ <;> dsimp only <;> split <;> omega
  · rw [if_pos hf]
    exact ⟨le_refl _, le_refl _, fun h => absurd h hf⟩

theorem foldl_physmemBounds (regions : List MemblockRegion) (b : Nat × Nat) :
    (regions.foldl physmemBoundsStep b).1 ≤ b.1 ∧ b.2 ≤ (regions.foldl physmemBoundsStep b).2 ∧
      ∀ r ∈ regions, r.flags = 0 → (regions.foldl physmemBoundsStep b).1 ≤ r.base ∧
        r.limit ≤ (regions.foldl physmemBoundsStep b).2 := by
  induction regions generalizing b with
  | nil => simp
  | cons r rs ih =>
    obtain ⟨s1, s2, s3⟩ := physmemBoundsStep_spec b r
    obtain ⟨h1, h2, h3⟩ := ih (physmemBoundsStep b r)
    exact ⟨h1.trans s1, s2.trans h2, List.forall_mem_cons.2
      ⟨fun hf => ⟨h1.trans (s3 hf).1, (s3 hf).2.trans h2⟩, h3⟩⟩

theorem physmemInit_has {mb : Memblock} {kernel memMap : MemblockRegion}
    (ht : mb.memory.totalSize ≠ 0) {r : MemblockRegion} (hr : r ∈ mb.memory.regions)
    (hf : r.flags = 0) (hal : 4096 ∣ r.limit) (h1 : r.base ≤ pa) (h2 : pa < r.limit) :
    (physmemInit mb kernel memMap).1.Has (physToPfn pa) := by
  obtain ⟨-, -, hb⟩ := foldl_physmemBounds mb.memory.regions (2 ^ 64 - 1, 0)
  obtain ⟨hlo, hhi⟩ : (physmemBounds mb.memory.regions).1 ≤ r.base ∧
      r.limit ≤ (physmemBounds mb.memory.regions).2 := hb r hr hf
  unfold physmemInit
  rw [if_neg ht]
  simp only [PhysMem.Has, physToPfn_eq]
  obtain ⟨m, hm⟩ := hal
  constructor
  · exact Nat.div_le_div_right (hlo.trans h1)
  · have : m ≤ (physmemBounds mb.memory.regions).2 / 4096 := by
      rw [Nat.le_div_iff_mul_le (by decide)]; omega
    omega

end ZzzOs.Mm
