import ZzzOs.Lib.Refcount
import Mathlib.Data.Fintype.Basic

/-!
# Tasks and their address spaces

The parts of `kernel/sched/core.c`, `fork.c`, `exit.c`, `wait.c`, of `fs/exec.c` and `mm/mm.c` that
take and drop references to an `mm_struct`. A kernel thread has no `mm`: it runs on the page table of the
task before it and borrows that task's `mm` as its `active_mm`. `init_mm` is not counted.

Every event is one atomic step on one CPU. Which task runs next, who reaps a zombie and whether a
creation fails is open. One reference is a task, so the counters do not come near the bounds of an
`int`.
-/

namespace ZzzOs.Sched

open Function Lib

/-- A `struct mm_struct`. -/
inductive Mm
  | initMm
  | user (id : Nat)
deriving DecidableEq

inductive Status
  | alive
  | zombie
  | dead
deriving DecidableEq

/-- `struct task_struct`. -/
structure Task where
  mm : Option Mm
  activeMm : Option Mm
  status : Status
  onCpu : Bool
deriving DecidableEq

/-- A CPU: `rq->curr`, the page table it uses, and the task it switched away from while
`sched_tail` has not been called for it. -/
structure Cpu where
  curr : Nat
  pgtbl : Mm
  last : Option Nat
deriving DecidableEq

/-- The kernel on `n` CPUs. Tasks are numbered in the order they are made. The tag of a freed `mm`
says whether a CPU was using its page table. -/
structure Kernel (n : Nat) where
  task : Nat → Task
  tasks : List Nat
  nextTask : Nat
  cpu : Fin n → Cpu
  refs : RefTable Bool

namespace Kernel

variable {n : Nat} (k : Kernel n)

def setTask (t : Nat) (v : Task) : Kernel n := { k with task := update k.task t v }

def setCpu (c : Fin n) (v : Cpu) : Kernel n := { k with cpu := update k.cpu c v }

/-- A CPU uses the page table of `m`. -/
def inUse (m : Mm) : Bool := decide (∃ c, (k.cpu c).pgtbl = m)

/-! ## `mm.c` -/

/-- `mm_alloc`; the new `mm` is `.user k.refs.next`. -/
def mmAlloc : Kernel n := { k with refs := k.refs.make }

def newMm : Mm := .user k.refs.next

def mmget : Mm → Kernel n
  | .initMm => k
  | .user i => { k with refs := k.refs.get i }

def mmput : Mm → Kernel n
  | .initMm => k
  | .user i => { k with refs := k.refs.put i (k.inUse (.user i)) }

/-! ## `fork.c` -/

def taskSetMm (t : Nat) (mm : Mm) : Kernel n :=
  let oldMm := (k.task t).mm
  let oldActiveMm := (k.task t).activeMm
  let k := k.setTask t { k.task t with mm := some mm, activeMm := some mm }
  let k := match oldMm with
    | none => k
    | some m => if m ≠ mm then k.mmput m else k
  match oldActiveMm with
  | none => k
  | some a => if oldActiveMm ≠ oldMm ∧ a ≠ mm ∧ a ≠ .initMm then k.mmput a else k

def taskDropMm (t : Nat) : Kernel n :=
  let mm := (k.task t).mm
  let activeMm := (k.task t).activeMm
  let k := k.setTask t { k.task t with mm := none, activeMm := none }
  let k := match mm with
    | none => k
    | some m => k.mmput m
  match activeMm with
  | none => k
  | some a => if activeMm ≠ mm ∧ a ≠ .initMm then k.mmput a else k

def taskDestroy (t : Nat) : Kernel n :=
  let k := k.taskDropMm t
  { k with tasks := k.tasks.erase t }

def newTask (mm : Option Mm) (onCpu : Bool) : Kernel n :=
  { k with
    task := update k.task k.nextTask
      { mm, activeMm := none, status := .alive, onCpu }
    tasks := k.nextTask :: k.tasks
    nextTask := k.nextTask + 1 }

/-! ## `core.c` -/

/-- The `mm` that `prev` has borrowed. -/
def oldActive (prev : Task) : Option Mm :=
  if prev.mm = none ∧ prev.activeMm ≠ some .initMm then prev.activeMm else none

/-- The part of `sched_switch_mm` that sets `next->active_mm`, with the `mm` still to put. -/
def activate (prev next : Nat) : Kernel n × Option Mm :=
  match (k.task next).mm with
  | none =>
    let borrow := (k.task prev).activeMm.getD .initMm
    if some borrow = oldActive (k.task prev) then
      let k := k.setTask next { k.task next with activeMm := some borrow }
      (k.setTask prev { k.task prev with activeMm := none }, none)
    else
      ((k.mmget borrow).setTask next { k.task next with activeMm := some borrow },
        oldActive (k.task prev))
  | some m =>
    (k.setTask next { k.task next with activeMm := some m }, oldActive (k.task prev))

def usePgtbl (c : Fin n) : Option Mm → Kernel n
  | none => k
  | some m => k.setCpu c { k.cpu c with pgtbl := m }

def schedSwitchMm (c : Fin n) (prev next : Nat) : Kernel n :=
  let (k, oldActive) := k.activate prev next
  let k := k.usePgtbl c (k.task next).activeMm
  match oldActive with
  | none => k
  | some a => (k.setTask prev { k.task prev with activeMm := none }).mmput a

/-! ## Events -/

end Kernel

inductive Event (n : Nat)
  /-- `do_fork_kthread` -/
  | kthread (c : Fin n)
  /-- `do_fork_uthread`, with or without `CLONE_VM` -/
  | clone (c : Fin n) (vm : Bool)
  /-- `do_fork_uthread` that fails after `dup_mm` -/
  | cloneFails (c : Fin n) (vm : Bool)
  /-- `do_execve` up to `flush_old_exec` -/
  | exec (c : Fin n)
  /-- `do_execve` that fails after `mm_alloc` -/
  | execFails (c : Fin n)
  /-- `do_exit` up to `sched` -/
  | exit (c : Fin n)
  /-- `do_waitpid` that finds the zombie `z` -/
  | reap (z : Nat)
  /-- `sched` up to `switch_to` -/
  | switch (c : Fin n) (next : Nat)
  /-- `sched_tail` -/
  | tail (c : Fin n)
deriving DecidableEq

namespace Kernel

variable {n : Nat} (k : Kernel n)

def placed (t : Nat) : Bool := decide (∃ c, (k.cpu c).curr = t ∨ (k.cpu c).last = some t)

/-- The running task of a CPU that is not in the middle of a switch. -/
def running (c : Fin n) : Option Nat :=
  if (k.cpu c).last = none ∧ (k.task (k.cpu c).curr).status = .alive then some (k.cpu c).curr
  else none

/-- One event; `none` if it cannot happen. The tasks below `n` are the boot and idle tasks, which
do not exit. -/
def step : Event n → Option (Kernel n)
  | .kthread c => do
    let t ← k.running c
    return k.newTask none (k.task t).onCpu
  | .clone c vm => do
    let t ← k.running c
    let m ← (k.task t).mm
    if vm then return (k.mmget m).newTask (some m) (k.task t).onCpu
    else return k.mmAlloc.newTask (some k.newMm) (k.task t).onCpu
  | .cloneFails c vm => do
    let t ← k.running c
    let m ← (k.task t).mm
    if vm then return (k.mmget m).mmput m
    else return k.mmAlloc.mmput k.newMm
  | .exec c => do
    let t ← k.running c
    let k' := k.mmAlloc.taskSetMm t k.newMm
    return k'.setCpu c { k'.cpu c with pgtbl := k.newMm }
  | .execFails c => do
    let _ ← k.running c
    return k.mmAlloc.mmput k.newMm
  | .exit c => do
    let t ← k.running c
    if t < n then none else return k.setTask t { k.task t with status := .zombie }
  | .reap z =>
    if z ∈ k.tasks ∧ (k.task z).status = .zombie then
      let k' := k.setTask z { k.task z with status := .dead }
      some (if (k.task z).onCpu then k' else k'.taskDestroy z)
    else none
  | .switch c next =>
    if (k.cpu c).last = none ∧ next ∈ k.tasks ∧ (k.task next).status = .alive ∧
        k.placed next = false then
      let prev := (k.cpu c).curr
      let k := k.setCpu c { k.cpu c with curr := next, last := some prev }
      let k := k.setTask next { k.task next with onCpu := true }
      some (k.schedSwitchMm c prev next)
    else none
  | .tail c => do
    let t ← (k.cpu c).last
    let k' := k.setCpu c { k.cpu c with last := none }
    let k' := k'.setTask t { k'.task t with onCpu := false }
    if (k.task t).status = .dead then return k'.taskDestroy t else return k'

def run (k : Kernel n) : List (Event n) → Option (Kernel n)
  | [] => some k
  | e :: es => (k.step e).bind fun k => run k es

/-- Every CPU runs its idle task on the page table of `init_mm`. -/
def boot (n : Nat) : Kernel n where
  task _ := { mm := none, activeMm := some .initMm, status := .alive, onCpu := true }
  tasks := List.range n
  nextTask := n
  cpu c := { curr := c, pgtbl := .initMm, last := none }
  refs := RefTable.empty

end Kernel

end ZzzOs.Sched
