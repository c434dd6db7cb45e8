import ZzzOs.Mm.Mmap.Model
import ZzzOs.Mm.Pgtbl.Riscv

/-!
# Address spaces

The functions of `mm/mmap.c`, `mm/page_fault.c`, `mm/brk.c` and `mm/mm.c` that work on the areas and the
page table of a process together, on riscv64. Pages come from one allocator (`PageAlloc`), nodes for
areas are granted as in `Mm/Vma/Model.lean`. The contents of pages, the lock and the TLB flushes are
left out.
-/

namespace ZzzOs.Mm

open Function Lib Pgtbl Mmap

/-- `page_alloc(1)`: the answer to each request, by the pages in use. -/
structure PageAlloc where
  next : Nat → (Nat → Bool) → Option Nat
  fresh : ∀ {n used a}, next n used = some a → used a = false
  frame : ∀ {n used a}, next n used = some a → 4096 ∣ a ∧ 0 < a ∧ a < 2 ^ 64

/-- Memory: the page tables, the pages in use for data, and those given to `page_free` so far. -/
structure Memory where
  tables : TableMem
  frames : Nat → Bool
  freed : List Nat

namespace Memory

def used (k : Memory) (a : Nat) : Bool := k.frames a || (k.tables.table a).isSome

def pageAlloc (P : PageAlloc) (k : Memory) : Option Nat × Memory :=
  match P.next k.tables.requests k.used with
  | none =>
    (none, { k with tables := { k.tables with
      requests := k.tables.requests + 1, refused := k.tables.refused + 1 } })
  | some a =>
    (some a, { k with
      frames := update k.frames a true
      tables := { k.tables with requests := k.tables.requests + 1 } })

def pageFree (k : Memory) (a : Nat) : Memory :=
  { k with frames := update k.frames a false, freed := k.freed ++ [a] }

/-- The allocator as the page-table code uses it. -/
def tableAlloc (P : PageAlloc) (k : Memory) : TableAlloc where
  next n table := P.next n fun a => k.frames a || (table a).isSome
  fresh h := by
    have := P.fresh h
    rw [Bool.or_eq_false_iff, Option.isSome_eq_false_iff, Option.isNone_iff_eq_none] at this
    exact this.2
  frame := P.frame

end Memory

namespace Space

variable (P : PageAlloc) (grant : Nat → Bool)

/-- `for (va = start; va < fin; va += PAGE_SIZE)`, which the body can leave with a value. -/
def forPages {σ : Type} (body : Nat → σ → Except Fault (Option Int × σ)) (fin : Nat) :
    Nat → Nat → σ → Except Fault (Option Int × σ)
  | 0, _, _ => .error .fuel
  | n + 1, va, s =>
    if va < fin then do
      let (ret, s) ← body va s
      match ret with
      | some ret => .ok (some ret, s)
      | none => forPages body fin n ((va + pageSize) % 2 ^ 64) s
    else .ok (none, s)

def pageRounds (start fin : Nat) : Nat := (fin - start + (pageSize - 1)) / pageSize + 1

def eachPage {σ : Type} (body : Nat → σ → Except Fault (Option Int × σ)) (start fin : Nat) (s : σ) :
    Except Fault (Option Int × σ) :=
  forPages body fin (pageRounds start fin) start s

/-! ## Faults -/

/-- One of the checks of `do_page_fault`. -/
def lacks (faultFlags : BitVec 32) (vmaFlags prot : Pgprot) : Bool :=
  faultFlags &&& prot != 0 && vmaFlags &&& prot == 0

/-- A page for data that is then mapped, or given back when that fails: what `do_page_fault`,
`dup_mm` and the loader do for a page. -/
def mapFresh (mm : MmStruct) (va : Nat) (flags : Pgprot) (k : Memory) :
    Except Fault (Option Int × Memory) :=
  match k.pageAlloc P with
  | (none, k) => .ok (some (-enomem), k)
  | (some kva, k) => do
    let (ret, tables) ← Pgtbl.map riscv64 (k.tableAlloc P) mm.pgdir va kva pageSize flags k.tables
    let k := { k with tables := tables }
    if ret < 0 then .ok (some ret, k.pageFree kva) else .ok (none, k)

def doPageFault (mm : MmStruct) (faultAddr : Nat) (faultFlags : BitVec 32) (k : Memory) :
    Except Fault (Int × Memory) :=
  if mm.pgdir = 0 then .ok (-1, k)
  else
    match Vma.find mm.vmas.list faultAddr with
    | none => .ok (-1, k)
    | some vma =>
      if [protExec, protWrite, protRead, protUser].any (lacks faultFlags vma.flags) then .ok (-1, k)
      else do
        let pageVa := alignDown faultAddr pageSize
        let pa ← pgtblLookup riscv64 mm.pgdir k.tables pageVa
        if pa ≠ 0 then .ok (0, k)
        else do
          let (ret, k) ← mapFresh P mm pageVa vma.flags k
          match ret with
          | some _ => .ok (-1, k)
          | none => .ok (0, k)

/-! ## `sys_munmap` -/

/-- A round of `free_mapped_pages`. -/
def freeMappedPage (mm : MmStruct) (va : Nat) (k : Memory) : Except Fault (Option Int × Memory) := do
  let pa ← pgtblLookup riscv64 mm.pgdir k.tables va
  if pa ≠ 0 then .ok (none, k.pageFree (alignDown pa pageSize)) else .ok (none, k)

def freeMappedPages (mm : MmStruct) (start len : Nat) (k : Memory) : Except Fault Memory := do
  let (_, k) ← eachPage (freeMappedPage mm) start ((start + len) % 2 ^ 64) k
  .ok k

def doUnmap (mm : MmStruct) (va size : Nat) (k : Memory) : Except Fault (Int × MmStruct × Memory) :=
  if mm.pgdir = 0 then .ok (-1, mm, k)
  else
    let size := alignUp size pageSize
    let va := alignDown va pageSize
    match mm.vmas.delete grant va size with
    | (ret, vmas) =>
      let mm := { mm with vmas := vmas }
      if ret ≠ 0 then .ok (-1, mm, k)
      else do
        let (ret, tables) ← Pgtbl.unmap riscv64 (k.tableAlloc P) mm.pgdir va size k.tables
        .ok (ret, mm, { k with tables := tables })

def sysMunmap (mm : MmStruct) (addr len : Nat) (k : Memory) :
    Except Fault (Int × MmStruct × Memory) :=
  if mm.pgdir = 0 then .ok (-einval, mm, k)
  else if addr % pageSize ≠ 0 then .ok (-einval, mm, k)
  else
    let len := alignUp len pageSize
    if len = 0 ∨ mmapRangeValid addr len = false then .ok (-einval, mm, k)
    else do
      let k ← freeMappedPages mm addr len k
      doUnmap P grant mm addr len k

/-! ## `sys_mprotect` -/

/-- A round of the loop of `sys_mprotect`. -/
def protectPage (mm : MmStruct) (kprot : Pgprot) (va : Nat) (k : Memory) :
    Except Fault (Option Int × Memory) := do
  let pa ← pgtblLookup riscv64 mm.pgdir k.tables va
  if pa = 0 then .ok (none, k)
  else do
    let (ret, tables) ← Pgtbl.remap riscv64 (k.tableAlloc P) mm.pgdir va pageSize kprot k.tables
    let k := { k with tables := tables }
    if ret < 0 then .ok (some (-efault), k) else .ok (none, k)

def sysMprotect (mm : MmStruct) (addr len : Nat) (prot : BitVec 32) (k : Memory) :
    Except Fault (Int × MmStruct × Memory) :=
  if mm.pgdir = 0 then .ok (-einval, mm, k)
  else if addr % pageSize ≠ 0 then .ok (-einval, mm, k)
  else
    let len := alignUp len pageSize
    if len = 0 ∨ mmapRangeValid addr len = false then .ok (-einval, mm, k)
    else
      match mmapUserProtToKernel prot with
      | .error ret => .ok (ret, mm, k)
      | .ok kprot =>
        match mm.vmas.protect grant addr len kprot with
        | (ret, vmas) =>
          let mm := { mm with vmas := vmas }
          if ret < 0 then .ok (ret, mm, k)
          else do
            let (ret, k) ← eachPage (protectPage P mm kprot) addr ((addr + len) % 2 ^ 64) k
            match ret with
            | some ret => .ok (ret, mm, k)
            | none => .ok (0, mm, k)

end Space

end ZzzOs.Mm
