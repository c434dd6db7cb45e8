import ZzzOs.Lib.LowBit
import Mathlib.Logic.Function.Basic

/-!
# The round-robin run queue

`kernel/sched/rr.c`: one list of runnable tasks for each priority, a bitmap of the levels that are not
empty, and the number of tasks on the lists, front first. `list_del` takes a node out of whichever ring
it is in, so `unlink` looks at every level; `on_rq` keeps a node from being added twice.
-/

namespace ZzzOs.Sched.Rr

open Function

/-- `enum task_status` -/
inductive Status
  | running
  | sleeping
  | zombie
  | dead
deriving DecidableEq

/-- The fields of `struct task_struct` that `rr.c` reads. -/
structure Task where
  prio : Nat
  basePrio : Nat
  consecTicks : BitVec 32
  onRq : Bool
  status : Status
deriving DecidableEq

def prioNums : Nat := 32

def prioHighest : Nat := 0

def prioLowest : Nat := prioNums - 1

def agingThresholdNs : UInt64 := 50000000

/-- `struct rq`, with the tasks it is about. -/
structure Rq where
  tasks : Nat → Task
  runnable : Nat → List Nat
  prioBitmap : BitVec 32
  nrRunning : Nat
  prioLastServed : Nat → UInt64
  curr : Nat
  idle : Nat

/-- `BIT(prio)` -/
def bit (prio : Nat) : BitVec 32 := BitVec.twoPow 32 prio

namespace Rq

variable (rq : Rq) (now : UInt64) (p : Nat)

def setTask (f : Task → Task) : Rq :=
  { rq with tasks := update rq.tasks p (f (rq.tasks p)) }

/-- `list_add_tail(&rq->runnable[prio], &p->se.sched_node)` -/
def addTail (prio : Nat) : Nat → List Nat :=
  update rq.runnable prio (rq.runnable prio ++ [p])

/-- `list_del(&p->se.sched_node)` -/
def unlink : Nat → List Nat := fun k => (rq.runnable k).erase p

def rrEnqueueTask : Rq :=
  if (rq.tasks p).onRq then rq
  else
    let prio := (rq.tasks p).prio
    { rq with
      runnable := rq.addTail p prio
      prioBitmap := rq.prioBitmap ||| bit prio
      tasks := update rq.tasks p { rq.tasks p with onRq := true }
      nrRunning := rq.nrRunning + 1
      -- the clock of a level starts when its first task arrives
      prioLastServed := if rq.prioBitmap &&& bit prio = 0 then
        update rq.prioLastServed prio now else rq.prioLastServed }

/-- What `rr_dequeue_task` and `rr_remove_task` have in common. -/
def takeOff : Rq :=
  let prio := (rq.tasks p).prio
  { rq with
    runnable := rq.unlink p
    prioBitmap := if rq.unlink p prio = [] then rq.prioBitmap &&& ~~~ bit prio else rq.prioBitmap
    tasks := update rq.tasks p { rq.tasks p with onRq := false }
    nrRunning := rq.nrRunning - 1 }

def rrDequeueTask : Rq :=
  if (rq.tasks p).onRq = false then rq
  else (rq.takeOff p).setTask p fun t => { t with prio := t.basePrio, consecTicks := 0 }

def rrRemoveTask : Rq :=
  if (rq.tasks p).onRq = false then rq else rq.takeOff p

end Rq

/-- One of the halvings of `ctz32` -/
def ctzStep (mask : BitVec 32) (n : Nat) (xr : BitVec 32 × Nat) : BitVec 32 × Nat :=
  if xr.1 &&& mask = 0 then (xr.1 >>> n, xr.2 + n) else xr

def ctz32 (x : BitVec 32) : Nat :=
  let xr := ctzStep 0x0000FFFF#32 16 (x, 0)
  let xr := ctzStep 0x000000FF#32 8 xr
  let xr := ctzStep 0x0000000F#32 4 xr
  let xr := ctzStep 0x00000003#32 2 xr
  if xr.1 &&& 0x00000001#32 = 0 then xr.2 + 1 else xr.2

/-- What `rr_pick_next_task` hands back. On an empty list `runnable[highest].next` is the list head
itself, and `list_entry` makes a task of it. -/
inductive Pick
  | null
  | task (p : Nat)
  | listHead (level : Nat)
deriving DecidableEq

namespace Rq

variable (rq : Rq) (now : UInt64)

/-- The demotion of a current task that used up three time slices in a row. -/
def demote : Rq :=
  let t := rq.tasks rq.curr
  if 3 ≤ t.consecTicks.toInt ∧ prioHighest < t.prio ∧ t.prio < prioLowest then
    rq.setTask rq.curr fun t => { t with prio := t.prio + 1, consecTicks := 0 }
  else rq

/-- The first half of `rr_pick_next_task`: the current task goes back on the queue. -/
def putCurr : Rq :=
  if rq.curr ≠ rq.idle ∧ (rq.tasks rq.curr).status = .running then
    rq.demote.rrEnqueueTask now rq.curr
  else rq

/-- `rq->prio_last_served[level] = monotonic_ns()` -/
def serve (level : Nat) : Rq :=
  { rq with prioLastServed := update rq.prioLastServed level now }

/-- The second half: the first task of the lowest level in the bitmap. -/
def takeFirst : Pick × Rq :=
  if rq.prioBitmap = 0 then (.null, rq)
  else
    let highest := ctz32 rq.prioBitmap
    match rq.runnable highest with
    | [] => (.listHead highest, rq)
    | p :: _ => (.task p, (rq.rrRemoveTask p).serve now highest)

def rrPickNextTask : Pick × Rq :=
  (rq.putCurr now).takeFirst now

/-- One turn of the loop of `rr_aging`: a starved level moves up as a whole. -/
def ageLevel (prio : Nat) : Rq :=
  if rq.prioBitmap &&& bit prio = 0 then rq
  else if now - rq.prioLastServed prio < agingThresholdNs then rq
  else
    let newPrio := prio - 1
    let moved := rq.runnable prio
    { rq with
      tasks := fun t => if t ∈ moved then { rq.tasks t with prio := newPrio } else rq.tasks t
      runnable := update (update rq.runnable newPrio (rq.runnable newPrio ++ moved))
        prio []
      prioBitmap := (rq.prioBitmap ||| bit newPrio) &&& ~~~ bit prio
      prioLastServed := update rq.prioLastServed newPrio now }

/-- `for (int prio = 2; prio < PRIO_NUMS; prio++)` -/
def rrAging : Rq :=
  (List.range' 2 (prioNums - 2)).foldl (fun rq prio => rq.ageLevel now prio) rq

def rrTaskTick : Rq :=
  if rq.curr = rq.idle then rq
  else rq.setTask rq.curr fun t => { t with consecTicks := t.consecTicks + 1 }

end Rq

end ZzzOs.Sched.Rr
