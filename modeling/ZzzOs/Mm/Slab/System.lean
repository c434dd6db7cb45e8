import ZzzOs.Mm.Slab.Sections
import Mathlib.Logic.Relation

/-!
# A cache in use

The calls of `mm/slab.c` on one cache as steps of a system. Each magazine has a lock; what its holder
does next is the magazine's `Pc`. The cache lock is dropped between the sections of a refill, so other
CPUs can act between any two of them; `kmem_cache_set_magazine` writes the limits without a lock.

Pages come from the page allocator, which never hands out a page that is still out.
-/

namespace ZzzOs.Mm.Slabs

open Function Lib

/-- What the holder of a magazine's lock does next. -/
inductive Pc
  | idle
  /-- `refill_magazine` tests its loop. -/
  | refill (target : Nat)
  /-- The cache had no object left; its lock is released and a page is asked for. -/
  | detach (target : Nat)
  | attach (target slab : Nat)
  /-- `kmem_cache_alloc` after the refill. -/
  | take
  /-- `kmem_cache_free` found the magazine full. -/
  | freeDrain (obj : Nat)
  | freeDrainLocked (obj nr : Nat)
  | freePages (obj : Nat) (toFree : List Nat)
  /-- `kmem_cache_drain` tests its loop over one magazine. -/
  | sweep
  | sweepLocked (nr : Nat)
  | sweepPages (toFree : List Nat)

namespace Pc

/-- A slab that is set up and not yet added. -/
def det : Pc → List Nat
  | .attach _ slab => [slab]
  | _ => []

/-- An object that `kmem_cache_free` has accepted and not yet stored. -/
def transit : Pc → List Nat
  | .freeDrain obj => [obj]
  | .freeDrainLocked obj _ => [obj]
  | .freePages obj _ => [obj]
  | _ => []

def toFree : Pc → List Nat
  | .freePages _ toFree => toFree
  | .sweepPages toFree => toFree
  | _ => []

end Pc

/-- Where a call of `kmem_cache_drain`, or of `kmem_cache_set_magazine`, stands. -/
inductive Phase
  | lock (cpu : Nat)
  | hold (cpu : Nat)
  | trim
  | trimPage (slab : Nat)
  | setLimit
  | setBatch
deriving DecidableEq

structure DrainCall where
  phase : Phase
  args : Option (Nat × Nat)
deriving DecidableEq

def DrainCall.pages (d : DrainCall) : List Nat :=
  match d.phase with
  | .trimPage slab => [slab]
  | _ => []

structure World where
  s : Slabs
  pc : Nat → Pc
  calls : List DrainCall
  /-- The objects the clients hold. -/
  live : List Nat
  /-- The pages the cache holds. -/
  pages : Multiset Nat

inductive Op
  | alloc (cpu : Nat)
  | free (cpu obj : Nat)
  | write (obj addr value : Nat)
  /-- The holder of a magazine's lock goes on; `page` answers a request for a page. -/
  | go (cpu : Nat) (page : Option Nat)
  | drain
  | setMagazine (limit batch : Nat)
  | call (d : DrainCall)

namespace World

variable (c : KmemCache)

def setPc (w : World) (cpu : Nat) (pc : Pc) : World := { w with pc := update w.pc cpu pc }

/-- The magazine's top goes to the client. -/
def pop (w : World) (cpu : Nat) : World :=
  match w.s.cpu cpu with
  | [] => w
  | obj :: objects => { w with s := w.s.setCpu cpu objects, live := obj :: w.live }

def push (w : World) (cpu obj : Nat) : World :=
  { w with s := w.s.setCpu cpu (obj :: w.s.cpu cpu) }

/-- `kmem_cache_alloc` up to its first wait. -/
def alloc (w : World) (cpu : Nat) : World :=
  if w.s.cpu cpu ≠ [] then w.pop cpu else w.setPc cpu (.refill w.s.magBatch)

/-- `kmem_cache_free` up to its first wait. -/
def free (w : World) (cpu obj : Nat) : Except Panic World :=
  if obj = 0 then .ok w
  else if (w.s.slab (objToSlab obj)).magic ≠ slabMagic then .error .invalidMagic
  else if obj ∈ w.s.cpu cpu then .error .magazineDoubleFree
  else
    let w := { w with live := w.live.erase obj }
    if (w.s.cpu cpu).length ≥ w.s.magLimit then .ok (w.setPc cpu (.freeDrain obj))
    else .ok (w.push cpu obj)

def go (w : World) (cpu : Nat) (page : Option Nat) : Except Panic World :=
  match w.pc cpu with
  | .idle => .ok w
  | .sweep => .ok w
  | .refill target =>
    if (w.s.cpu cpu).length < target then do
      let s ← refillLocked c cpu (target - (w.s.cpu cpu).length) w.s
      if (s.cpu cpu).length ≥ target then .ok ({ w with s := s }.setPc cpu .take)
      else .ok ({ w with s := s }.setPc cpu (.detach target))
    else .ok (w.setPc cpu .take)
  | .detach target =>
    match page with
    | none => .ok (w.setPc cpu .take)
    | some mem =>
      .ok ({ w with s := w.s.allocSlabDetached c mem, pages := mem ::ₘ w.pages }.setPc cpu
        (.attach target mem))
  | .attach target slab =>
    .ok ({ w with s := w.s.addSlabLocked slab }.setPc cpu (.refill target))
  | .take => .ok ((w.pop cpu).setPc cpu .idle)
  | .freeDrain obj => .ok (w.setPc cpu (.freeDrainLocked obj w.s.magBatch))
  | .freeDrainLocked obj nr => do
    let (s, toFree) ← drainLocked c cpu nr w.s []
    .ok ({ w with s := s }.setPc cpu (.freePages obj toFree))
  | .freePages obj toFree =>
    .ok (({ w with pages := w.pages - (toFree : Multiset Nat) }.push cpu obj).setPc cpu .idle)
  | .sweepLocked nr => do
    let (s, toFree) ← drainLocked c cpu nr w.s []
    .ok ({ w with s := s }.setPc cpu (.sweepPages toFree))
  | .sweepPages toFree =>
    .ok ({ w with pages := w.pages - (toFree : Multiset Nat) }.setPc cpu .sweep)

/-- A call goes on from its phase; `rest` are the other calls. -/
def goCall (w : World) (d : DrainCall) (rest : List DrainCall) : World :=
  match d.phase with
  | .lock cpu =>
    if cpu < maxCpus then { w with calls := { d with phase := .hold cpu } :: rest }.setPc cpu .sweep
    else { w with calls := { d with phase := .trim } :: rest }
  | .hold cpu =>
    match w.pc cpu with
    | .sweep =>
      if w.s.cpu cpu = [] then
        { w with calls := { d with phase := .lock (cpu + 1) } :: rest }.setPc cpu .idle
      else w.setPc cpu (.sweepLocked w.s.magBatch)
    | _ => w
  | .trim =>
    match w.s.takeFreeSlab with
    | some (slab, s) => { w with s := s, calls := { d with phase := .trimPage slab } :: rest }
    | none =>
      match d.args with
      | none => { w with calls := rest }
      | some _ => { w with calls := { d with phase := .setLimit } :: rest }
  | .trimPage slab =>
    { w with pages := w.pages.erase slab, calls := { d with phase := .trim } :: rest }
  | .setLimit =>
    { w with
      s := { w.s with magLimit := d.args.elim w.s.magLimit Prod.fst }
      calls := { d with phase := .setBatch } :: rest }
  | .setBatch =>
    { w with s := { w.s with magBatch := d.args.elim w.s.magBatch Prod.snd }, calls := rest }

def step (w : World) : Op → Except Panic World
  | .alloc cpu => .ok (w.alloc cpu)
  | .free cpu obj => w.free cpu obj
  | .write _ addr value =>
    .ok { w with s := { w.s with next := update w.s.next addr value } }
  | .go cpu page => w.go c cpu page
  | .drain => .ok { w with calls := ⟨.lock 0, none⟩ :: w.calls }
  | .setMagazine limit batch =>
    if setMagazineOk limit batch then
      .ok { w with calls := ⟨.lock 0, some (limit, batch)⟩ :: w.calls }
    else .ok w
  | .call d => .ok (w.goCall d (w.calls.erase d))

/-- Locks are free where they are taken, pages are new, and clients use what they hold. -/
def Enabled (w : World) : Op → Prop
  | .alloc cpu => cpu < maxCpus ∧ w.pc cpu = .idle
  | .free cpu obj => cpu < maxCpus ∧ w.pc cpu = .idle ∧ obj ∈ w.live
  | .write obj addr _ => obj ∈ w.live ∧ obj ≤ addr ∧ addr < obj + c.objectSize
  | .go cpu page => cpu < maxCpus ∧ ∀ mem, page = some mem → PageOk mem ∧ mem ∉ w.pages
  | .drain => True
  | .setMagazine _ _ => True
  | .call d => d ∈ w.calls ∧ ∀ cpu < maxCpus, d.phase = .lock cpu → w.pc cpu = .idle

def Step (w w' : World) : Prop := ∃ op, w.Enabled c op ∧ w.step c op = .ok w'

/-- A new cache over any memory. -/
def init (slab : Nat → Slab) (next : Nat → Nat) : World where
  s := Slabs.init slab next
  pc := fun _ => .idle
  calls := []
  live := []
  pages := 0

end World

end ZzzOs.Mm.Slabs
