import ZzzOs.Lib.Word
import ZzzOs.Mm.Page

/-!
# Page tables

`mm/pgtbl.c` and the range operations of `mm/mm.c`, over the operations that an architecture
provides (`PgtblArch`; `arch_pgtbl_*` and the table of features).

* Memory holds page-table pages at their physical addresses, so `KERNEL_VA` and `KERNEL_PA` do not show.
  A pointer to an entry is the address of its table and an index.
* An access to an entry of an address that holds no page-table page ends the run (`Fault`).
* `page_alloc` is asked through `TableAlloc`, which may refuse any request.
* Memory barriers, TLB flushes and messages are left out. No callback returns `WALK_RETRY`.
-/

namespace ZzzOs.Mm

open Function Lib

/-- `pte_t` and `pgprot_t`. -/
abbrev Pte := BitVec 64
abbrev Pgprot := BitVec 32

def protNone : Pgprot := 0
def protRead : Pgprot := 1#32 <<< 0
def protWrite : Pgprot := 1#32 <<< 1
def protExec : Pgprot := 1#32 <<< 2
def protUser : Pgprot := 1#32 <<< 3

def einval : Int := 22

/-- The members of `pgdesc_type_t` in use. -/
inductive DescType
  | table
  | page
deriving DecidableEq

/-- What `mm/pgtbl.c` asks of an architecture. -/
structure PgtblArch where
  supportLevels : Nat
  hugePages : Bool
  /-- By level: the bytes an entry maps, and the entries of a table. -/
  pageSize : Nat → Nat
  entries : Nat → Nat
  levelIndex : Nat → Nat → Nat
  setEntry : Nat → DescType → Pte → Nat → Pgprot → Pte
  entryGetPa : Nat → DescType → Pte → Nat
  entryGetFlags : Nat → Pte → Pgprot
  entryIsValid : Pte → Bool
  entryIsLeaf : Pte → Bool

/-- The page-table pages in memory, with the numbers of pages asked for and refused so far. -/
structure TableMem where
  table : Nat → Option (Nat → Pte)
  requests : Nat
  refused : Nat

/-- An allocator for page-table pages: the answer to each request, in a given memory, is NULL or
a page that is not in use. -/
structure TableAlloc where
  next : Nat → (Nat → Option (Nat → Pte)) → Option Nat
  fresh : ∀ {n table a}, next n table = some a → table a = none
  frame : ∀ {n table a}, next n table = some a → 4096 ∣ a ∧ 0 < a ∧ a < 2 ^ 64

/-- How a run can end without a result: by an access to an address that holds no page-table
page, in the memory of that moment. -/
inductive Fault
  | notTable (pa : Nat) (m : TableMem)
  | fuel

namespace TableMem

def tableAt (m : TableMem) (a : Nat) : Except Fault (Nat → Pte) :=
  match m.table a with
  | none => .error (.notTable a m)
  | some t => .ok t

def read (m : TableMem) (pte : Nat × Nat) : Except Fault Pte := do
  let t ← m.tableAt pte.1
  .ok (t pte.2)

def write (m : TableMem) (pte : Nat × Nat) (e : Pte) : Except Fault TableMem := do
  let t ← m.tableAt pte.1
  .ok { m with table := update m.table pte.1 (some (update t pte.2 e)) }

/-- `alloc_table_va` and the initialisation of the page. -/
def allocTable (A : TableAlloc) (m : TableMem) (init : Nat → Pte) : Option Nat × TableMem :=
  match A.next m.requests m.table with
  | none => (none, { m with requests := m.requests + 1, refused := m.refused + 1 })
  | some a =>
    (some a, { m with table := update m.table a (some init), requests := m.requests + 1 })

/-- `free_table_va`. -/
def freeTable (m : TableMem) (a : Nat) : TableMem :=
  { m with table := update m.table a none }

end TableMem

namespace Pgtbl

variable (arch : PgtblArch) (A : TableAlloc)

/-! ## Tables -/

def tableIsEmpty (m : TableMem) (level table : Nat) : Except Fault Bool := do
  let t ← m.tableAt table
  .ok ((List.range (arch.entries level)).all fun i => !arch.entryIsValid (t i))

/-- Entry `i` continues the run that entry 0 starts. -/
def continues (t : Nat → Pte) (level i : Nat) : Bool :=
  arch.entryIsValid (t i) && arch.entryIsLeaf (t i) &&
    (i == 0 ||
      (arch.entryGetPa level .page (t i) ==
          (arch.entryGetPa level .page (t 0) + i * arch.pageSize level) % 2 ^ 64 &&
        arch.entryGetFlags level (t i) == arch.entryGetFlags level (t 0)))

def tableNeedMerge (m : TableMem) (table level : Nat) : Except Fault Bool :=
  if level = 0 then .ok false
  else do
    let t ← m.tableAt table
    .ok ((List.range (pageSize / 8)).all (continues arch t level))

/-- The entries of a table that takes the place of the leaf `e` of `level`. -/
def splitTable (level : Nat) (e : Pte) (i : Nat) : Pte :=
  let pa := arch.entryGetPa level .page e
  if i < arch.entries (level + 1) then
    arch.setEntry (level + 1) .page 0 ((pa + i * arch.pageSize (level + 1)) % 2 ^ 64)
      (arch.entryGetFlags level e)
  else 0

def split (m : TableMem) (pte : Nat × Nat) (level : Nat) : Except Fault TableMem :=
  if level + 1 ≥ arch.supportLevels then .ok m
  else do
    let e ← m.read pte
    match m.allocTable A (splitTable arch level e) with
    | (none, m) => .ok m
    | (some child, m) => m.write pte (arch.setEntry level .table e child 0)

def merge (m : TableMem) (level table : Nat) (tableEntry : Nat × Nat) : Except Fault TableMem :=
  if level = 0 then .ok m
  else do
    let t ← m.tableAt table
    let firstPa := arch.entryGetPa level .page (t 0)
    let flags := arch.entryGetFlags level (t 0)
    let e ← m.read tableEntry
    let m ← m.write tableEntry (arch.setEntry (level - 1) .page e firstPa flags)
    .ok (m.freeTable table)

/-! ## Walks -/

/-- `walk_action_t`; `failed` is the value -1 that `map_cb` can return. -/
inductive WalkAction
  | cont
  | stop
  | failed
deriving DecidableEq

/-- A callback: memory, entry, level and address, and what it keeps between calls. -/
abbrev WalkCb (γ : Type) :=
  TableMem → Nat × Nat → Nat → Nat → γ → Except Fault (TableMem × γ × WalkAction)

/-- The loop of `pgtbl_walk`, from `table` at `level`, for `n` more levels. -/
def walkFrom {γ : Type} (cb : WalkCb γ) (va : Nat) :
    Nat → Nat → Nat → TableMem → γ → Except Fault (Int × TableMem × γ)
  | 0, _, _, m, ctx => .ok (0, m, ctx)
  | n + 1, level, table, m, ctx => do
    let pte := (table, arch.levelIndex level va)
    let (m, ctx, act) ← cb m pte level va ctx
    if act = .stop then .ok (0, m, ctx)
    else do
      let e ← m.read pte
      if arch.entryIsLeaf e then .ok (-einval, m, ctx)
      else walkFrom cb va n (level + 1) (arch.entryGetPa level .table e) m ctx

def walk {γ : Type} (root va : Nat) (cb : WalkCb γ) (m : TableMem) (ctx : γ) :
    Except Fault (Int × TableMem × γ) :=
  walkFrom arch cb va arch.supportLevels 0 root m ctx

/-- `struct map_ctx` and `struct unmap_ctx`: the entries passed, by level. -/
structure WalkCtx where
  pte : Nat → Nat × Nat
  targetLevel : Nat
  pa : Nat
  flags : Pgprot

namespace WalkCtx

def table (ctx : WalkCtx) (level : Nat) : Nat := (ctx.pte level).1

def record (ctx : WalkCtx) (level : Nat) (pte : Nat × Nat) : WalkCtx :=
  { ctx with pte := update ctx.pte level pte }

end WalkCtx

/-- The loop at the end of `map_cb` and `remap_cb`. -/
def mergeUp (ctx : WalkCtx) : Nat → TableMem → Except Fault TableMem
  | 0, m => .ok m
  | l + 1, m => do
    if ← tableNeedMerge arch m (ctx.table (l + 1)) (l + 1) then do
      let m ← merge arch m (l + 1) (ctx.table (l + 1)) (ctx.pte l)
      mergeUp ctx l m
    else .ok m

/-- What `map_cb` and `remap_cb` do at their target. -/
def storeLeaf (m : TableMem) (pte : Nat × Nat) (level : Nat) (ctx : WalkCtx) :
    Except Fault TableMem := do
  let m ← m.write pte 0
  let m ← m.write pte (arch.setEntry level .page 0 ctx.pa ctx.flags)
  mergeUp arch ctx level m

def mapCb : WalkCb WalkCtx := fun m pte level _ ctx => do
  let ctx := ctx.record level pte
  if level = ctx.targetLevel then do
    let m ← storeLeaf arch m pte level ctx
    .ok (m, ctx, .stop)
  else do
    let e ← m.read pte
    if arch.entryIsValid e = false then
      match m.allocTable A fun _ => 0 with
      | (none, m) => .ok (m, ctx, .failed)
      | (some child, m) => do
        let m ← m.write pte (arch.setEntry level .table e child protNone)
        .ok (m, ctx, .cont)
    else .ok (m, ctx, .cont)

def remapCb : WalkCb WalkCtx := fun m pte level _ ctx => do
  let ctx := ctx.record level pte
  if level = ctx.targetLevel then do
    let m ← storeLeaf arch m pte level ctx
    .ok (m, ctx, .stop)
  else do
    let e ← m.read pte
    if arch.entryIsValid e && arch.entryIsLeaf e then do
      let m ← split arch A m pte level
      .ok (m, ctx, .cont)
    else .ok (m, ctx, .cont)

/-- `look_cb`; the context is the physical address and the flags found. -/
def lookCb : WalkCb (Nat × Pgprot) := fun m pte level va res => do
  let e ← m.read pte
  if arch.entryIsValid e = false then .ok (m, res, .stop)
  else if arch.entryIsLeaf e then
    .ok (m, ((arch.entryGetPa level .page e + va % arch.pageSize level) % 2 ^ 64,
      arch.entryGetFlags level e), .stop)
  else .ok (m, res, .cont)

/-- The loop of `unmap_cb` that takes away empty tables. -/
def cleanUp (ctx : WalkCtx) : Nat → TableMem → Except Fault TableMem
  | 0, m => .ok m
  | l + 1, m => do
    if ← tableIsEmpty arch m (l + 1) (ctx.table (l + 1)) then do
      let m ← m.write (ctx.pte l) 0
      cleanUp ctx l (m.freeTable (ctx.table (l + 1)))
    else .ok m

def unmapCb : WalkCb WalkCtx := fun m pte level _ ctx => do
  let ctx := ctx.record level pte
  if level = ctx.targetLevel then do
    let m ← m.write pte 0
    let m ← cleanUp arch ctx level m
    .ok (m, ctx, .stop)
  else do
    let e ← m.read pte
    if arch.entryIsValid e = false then .ok (m, ctx, .stop)
    else if arch.entryIsLeaf e = false then .ok (m, ctx, .cont)
    else do
      let m ← split arch A m pte level
      .ok (m, ctx, .cont)

def walkCtx (targetLevel pa : Nat) (flags : Pgprot) : WalkCtx :=
  ⟨fun _ => (0, 0), targetLevel, pa, flags⟩

/-- A walk without its context. -/
def outcome {γ : Type} (r : Except Fault (Int × TableMem × γ)) : Except Fault (Int × TableMem) := do
  let (ret, m, _) ← r
  .ok (ret, m)

def pgtblMap (root va pa targetLevel : Nat) (flags : Pgprot) (m : TableMem) :
    Except Fault (Int × TableMem) :=
  outcome (walk arch root va (mapCb arch A) m (walkCtx targetLevel pa flags))

def pgtblRemap (root va pa targetLevel : Nat) (flags : Pgprot) (m : TableMem) :
    Except Fault (Int × TableMem) :=
  outcome (walk arch root va (remapCb arch A) m (walkCtx targetLevel pa flags))

def pgtblUnmap (root va targetLevel : Nat) (m : TableMem) : Except Fault (Int × TableMem) :=
  outcome (walk arch root va (unmapCb arch A) m (walkCtx targetLevel 0 protNone))

/-- The walk of `pgtbl_lookup` and `pgtbl_lookup_prot`. -/
def look (root : Nat) (m : TableMem) (va : Nat) : Except Fault (Nat × Pgprot) := do
  let (_, _, res) ← walk arch root va (lookCb arch) m (0, protNone)
  .ok res

def pgtblLookup (root : Nat) (m : TableMem) (va : Nat) : Except Fault Nat := do
  let res ← look arch root m va
  .ok res.1

def pgtblLookupProt (root : Nat) (m : TableMem) (va : Nat) : Except Fault Pgprot := do
  let res ← look arch root m va
  .ok res.2

/-! ## Ranges -/

def highestPossibleLevel (va pa size : Nat) : Nat :=
  if arch.hugePages = false then arch.supportLevels - 1
  else
    ((List.range arch.supportLevels).find? fun i =>
      va % arch.pageSize i = 0 && pa % arch.pageSize i = 0 && arch.pageSize i ≤ size).getD
      (arch.supportLevels - 1)

/-- The loops of `map` and `remap` up to `fin`: the next block is stored, and `failed` is what the
caller returns when that gives an error. -/
def blockLoop (store : Nat → Nat → Nat → TableMem → Except Fault (Int × TableMem))
    (failed : Int → Int) (fin : Nat) :
    Nat → Nat → Nat → TableMem → Except Fault (Int × TableMem)
  | 0, _, _, _ => .error .fuel
  | n + 1, va, pa, m =>
    if va < fin then do
      let level := highestPossibleLevel arch va pa (fin - va)
      let (ret, m) ← store va pa level m
      if ret < 0 then .ok (failed ret, m)
      else
        blockLoop store failed fin n ((va + arch.pageSize level) % 2 ^ 64)
          ((pa + arch.pageSize level) % 2 ^ 64) m
    else .ok (0, m)

def mapLoop (root fin : Nat) (flags : Pgprot) :
    Nat → Nat → Nat → TableMem → Except Fault (Int × TableMem) :=
  blockLoop arch (fun va pa level => pgtblMap arch A root va pa level flags) (fun ret => ret) fin

def remapLoop (root fin : Nat) (flags : Pgprot) :
    Nat → Nat → Nat → TableMem → Except Fault (Int × TableMem) :=
  blockLoop arch (fun va pa level => pgtblRemap arch A root va pa level flags) (fun _ => -1) fin

/-- The loop of `unmap` up to `fin`. -/
def unmapLoop (root fin : Nat) : Nat → Nat → TableMem → Except Fault (Int × TableMem)
  | 0, _, _ => .error .fuel
  | n + 1, va, m =>
    if va < fin then do
      let level := highestPossibleLevel arch va 0 (fin - va)
      let (_, m) ← pgtblUnmap arch A root va level m
      unmapLoop root fin n ((va + arch.pageSize level) % 2 ^ 64) m
    else .ok (0, m)

def rangeEnd (va size : Nat) : Nat := (alignDown va pageSize + alignUp size pageSize) % 2 ^ 64

/-- Rounds enough for any range, one page each. -/
def rounds (va size : Nat) : Nat := (rangeEnd va size - alignDown va pageSize) / pageSize + 1

def map (root va pa size : Nat) (flags : Pgprot) (m : TableMem) : Except Fault (Int × TableMem) :=
  mapLoop arch A root (rangeEnd va size) flags (rounds va size) (alignDown va pageSize)
    (alignDown pa pageSize) m

def remap (root va size : Nat) (flags : Pgprot) (m : TableMem) : Except Fault (Int × TableMem) := do
  let pa ← pgtblLookup arch root m va
  if pa = 0 then .ok (-1, m)
  else
    remapLoop arch A root (rangeEnd va size) flags (rounds va size) (alignDown va pageSize)
      (alignDown pa pageSize) m

def unmap (root va size : Nat) (m : TableMem) : Except Fault (Int × TableMem) :=
  unmapLoop arch A root (rangeEnd va size) (rounds va size) (alignDown va pageSize) m

end Pgtbl

end ZzzOs.Mm
