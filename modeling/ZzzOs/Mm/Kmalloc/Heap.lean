import ZzzOs.Mm.Kmalloc.Size
import ZzzOs.Mm.Buddy.Run
import ZzzOs.Mm.Slab.Run

/-!
# The kernel heap

`kmalloc` over the page allocator and the fifteen caches. The pages of the slabs are blocks of
order 0 that the page allocator has handed out.

What is live is either a block or an object of a cache (`Backing`). The pieces of memory that
back two of them never meet (`Heap.Inv.apart`), in any interleaving.
-/

namespace ZzzOs.Mm

open Lib

def pageAddress (page : Nat) : Nat := kernelVa (pfnToPhys page)
def addressPage (pm : PhysMem) (va : Nat) : Option Nat := physToPage pm (kernelPa va)

/-- The frames lie in the linear map, which ends where the window for devices starts. -/
structure PhysMem.Linear (pm : PhysMem) : Prop where
  first : 0x80000 ≤ pm.firstPfn
  last : pm.lastPfn ≤ 0xB0000

section Addresses

variable {pm : PhysMem} {p q : Nat}

variable (hl : pm.Linear) (hp : pm.Has p)

include hl hp

theorem pageAddress_eq : pageAddress p = kernelVaBase + 4096 * (p - 0x80000) := by
  have h1 := hl.first
  have h2 := hl.last
  obtain ⟨h3, h4⟩ := hp
  simp only [pageAddress, kernelVa, pfnToPhys_eq, kernelVaBase, kernelPaBase]
  omega

theorem addressPage_pageAddress : addressPage pm (pageAddress p) = some p := by
  have h1 := hl.first
  have h2 := hl.last
  have hpa : kernelPa (pageAddress p) = p * 4096 := by
    rw [pageAddress_eq hl hp]
    obtain ⟨h3, h4⟩ := hp
    simp only [kernelPa, kernelVaBase, kernelPaBase]
    omega
  rw [addressPage, physToPage, hpa, physToPfn_eq, Nat.mul_div_cancel p (by decide)]
  exact pfnToPage_of_has hp

theorem pageAddress_inj (hq : pm.Has q) (h : pageAddress p = pageAddress q) : p = q := by
  have h1 := addressPage_pageAddress hl hp
  rw [h, addressPage_pageAddress hl hq] at h1
  exact (Option.some.inj h1).symm

theorem pageOk_pageAddress : Slabs.PageOk (pageAddress p) := by
  have h2 := hl.last
  rw [pageAddress_eq hl hp]
  obtain ⟨h3, h4⟩ := hp
  simp only [kernelVaBase]
  exact ⟨by omega, by omega, by omega⟩

end Addresses

/-! ## The system -/

/-- The page allocator and the caches of `kmalloc_caches`, by index. -/
structure Heap where
  mem : Buddy.World
  cache : Nat → Slabs.World

namespace Slabs

/-- Without the answer to a request for a page, which comes from the page allocator. -/
def Op.bare : Op → Op
  | .go k _ => .go k none
  | op => op

def World.returned (w : World) : Op → List Nat
  | .go k _ => (w.pc k).toFree
  | .call d => d.pages
  | _ => []

def World.asks (w : World) : Op → Option Nat
  | .go k _ =>
    match w.pc k with
    | .detach _ => some k
    | _ => none
  | _ => none

end Slabs

namespace Heap

inductive Op
  | kmalloc (cpu size : Nat)
  | pages (op : Buddy.Op)
  /-- A step of cache `i`; its calls to the page allocator run on `cpu`. -/
  | slab (i cpu : Nat) (op : Slabs.Op)

variable (pm : PhysMem)

def allocPagesKva (mem : Buddy.World) (cpu npages : Nat) : Option (Option Nat × Buddy.World) := do
  let order ← kvaOrder npages
  let (page, buddy) ← Buddy.allocPages pm mem.buddy cpu order
  some (page.map pageAddress,
    { mem with buddy := buddy, out := page.elim mem.out fun p => ⟨p, order⟩ :: mem.out })

/-- `free_pages_kva` of a block of order 0. -/
def freePagesKva (cpu : Nat) (mem : Buddy.World) (va : Nat) : Buddy.World :=
  match addressPage pm va with
  | none => mem
  | some p =>
    { mem with
      buddy := Buddy.freePages pm mem.buddy cpu (some p)
      out := mem.out.erase ⟨p, 0⟩ }

/-- Cache `i` takes a step: a page it asks for is allocated, pages it gives back are freed. -/
def stepSlab (h : Heap) (i cpu : Nat) (op : Slabs.Op) : Option Heap := do
  let c ← kmallocCaches[i]?
  let w := h.cache i
  let (op, mem) ←
    match w.asks op with
    | some k => do
      let (page, mem) ← allocPagesKva pm h.mem cpu 1
      some (.go k page, mem)
    | none => some (op.bare, h.mem)
  let w' ← (w.step c op).toOption
  some ⟨(w.returned op).foldl (freePagesKva pm cpu) mem, Function.update h.cache i w'⟩

def stepPages (h : Heap) (op : Buddy.Op) : Option Heap := do
  let mem ← h.mem.step pm op
  some { h with mem := mem }

/-- `__kmalloc`, for an object up to the first wait of `kmem_cache_alloc`. -/
def kmalloc (h : Heap) (cpu size : Nat) : Option Heap :=
  if size = 0 then some h
  else if size > slabMaxSize then do
    let (_, mem) ← allocPagesKva pm h.mem cpu (kmallocPages size)
    some { h with mem := mem }
  else
    match sizeToIndex size with
    | none => some h
    | some i => h.stepSlab pm i cpu (.alloc cpu)

def step (h : Heap) : Op → Option Heap
  | .kmalloc cpu size => h.kmalloc pm cpu size
  | .pages op => h.stepPages pm op
  | .slab i cpu op => h.stepSlab pm i cpu op

/-- The page is not one of a slab. -/
def NotSlab (h : Heap) (p : Nat) : Prop :=
  ∀ i < kmallocCaches.length, pageAddress p ∉ (h.cache i).pages

/-- What the parts allow; no client frees the page of a slab. -/
def Enabled (h : Heap) : Op → Prop
  | .kmalloc cpu size => cpu < maxCpus ∧ ∀ i, sizeToIndex size = some i → (h.cache i).pc cpu = .idle
  | .pages op => h.mem.Allowed op ∧ ∀ cpu b, op = .free cpu b → h.NotSlab b.base
  | .slab i cpu op => cpu < maxCpus ∧ ∃ c, kmallocCaches[i]? = some c ∧ (h.cache i).Enabled c op.bare

def Step (h h' : Heap) : Prop := ∃ op, h.Enabled op ∧ h.step pm op = some h'

/-! ## The pages of a cache -/

end Heap

namespace Slabs

variable {c : KmemCache} {w w' : World} {op : Op}

theorem asks_eq_some {k : Nat} (h : w.asks op = some k) :
    (∃ page, op = .go k page) ∧ ∃ target, w.pc k = .detach target := by
  cases op with
  | go k' page =>
    simp only [World.asks] at h
    split at h
    · rename_i target hpc
      cases h
      exact ⟨⟨page, rfl⟩, target, hpc⟩
    · cases h
  | _ => cases h

/-- A step of a cache gives back the pages of `returned`, and takes one only where it asks. -/
theorem step_pages (h : w.step c op = .ok w') :
    w'.pages = w.pages - (w.returned op : Multiset Nat) ∨
      ∃ k mem, op = .go k (some mem) ∧ w.asks op = some k ∧ w'.pages = mem ::ₘ w.pages := by
  have keep (hr : w.returned op = []) (hp : w'.pages = w.pages) :
      w'.pages = w.pages - (w.returned op : Multiset Nat) := by
    rw [hr, hp]
    exact (Multiset.sub_zero _).symm
  cases op with
  | alloc cpu =>
    cases h
    refine .inl (keep rfl ?_)
    unfold World.alloc World.pop
    split
    · split <;> rfl
    · rfl
  | free cpu obj =>
    refine .inl (keep rfl ?_)
    simp only [World.step, World.free] at h
    split_ifs at h <;> cases h <;> rfl
  | write | drain => cases h; exact .inl (keep rfl rfl)
  | setMagazine limit batch =>
    refine .inl (keep rfl ?_)
    simp only [World.step] at h
    split at h <;> cases h <;> rfl
  | call d =>
    cases h
    left
    obtain ⟨phase, args⟩ := d
    cases phase with
    | trimPage slab => exact (Multiset.sub_singleton slab w.pages).symm
    | setLimit | setBatch => exact keep rfl rfl
    | lock | hold | trim =>
      refine keep rfl ?_
      unfold World.goCall
      dsimp only
      repeat' split
      all_goals rfl
  | go k page =>
    have kept {pc : Pc} (hpc : w.pc k = pc) (hfree : pc.toFree = []) :=
      keep (show (w.pc k).toFree = [] from hpc ▸ hfree)
    simp only [World.step, World.go] at h
    cases hpc : w.pc k with simp only [hpc] at h
    | idle | sweep | attach | freeDrain =>
      cases h
      exact .inl (kept hpc rfl rfl)
    | refill target =>
      refine .inl (kept hpc rfl ?_)
      split at h
      · cases hr : refillLocked c k (target - (w.s.cpu k).length) w.s with
        | error e => rw [hr] at h; cases h
        | ok s =>
          rw [hr] at h
          change (if _ then _ else _) = _ at h
          split at h <;> cases h <;> rfl
      · cases h; rfl
    | detach target =>
      cases page with
      | none => cases h; exact .inl (kept hpc rfl rfl)
      | some mem =>
        cases h
        exact .inr ⟨k, mem, rfl, by simp only [World.asks, hpc], rfl⟩
    | take =>
      cases h
      refine .inl (kept hpc rfl ?_)
      unfold World.pop
      split <;> rfl
    | freeDrainLocked _ nr | sweepLocked nr =>
      cases hr : drainLocked c k nr w.s [] with (rw [hr] at h; cases h)
      | ok r => exact .inl (kept hpc rfl rfl)
    | freePages | sweepPages =>
      cases h
      left
      rw [World.returned, hpc]
      rfl

end Slabs

end ZzzOs.Mm
