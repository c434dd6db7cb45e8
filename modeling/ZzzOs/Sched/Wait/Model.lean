import ZzzOs.Lib.Ring
import ZzzOs.Sched.Rr.Model

/-!
# Wait queues and the tasks on them

`sleep_on`, `wake_up_one` and `wake_up_all` of `kernel/sched/core.c`, `mutex_lock`, `do_waitpid` and
`wake_up_process`. A task has one wait node, and a wait queue is the ring of nodes behind its head, kept
as the pointers of `list.h`: adding a node does not look at whether it is linked already.

The sections under the lock of a wait queue are single steps but for going to sleep, which holds the
lock from the write of the status to the adding of the node; a waker that does not need that lock may
come in between.
-/

namespace ZzzOs.Sched.Wait

open Function Lib

/-- A `struct wait_queue_head`: the `wait_child` of a task, or any other. -/
inductive Queue
  | named (n : Nat)
  | waitChild (t : Nat)
deriving DecidableEq

/-- A `struct list_head`: the head of a wait queue, or the wait node of a task. -/
inductive Ptr
  | head (q : Queue)
  | node (t : Nat)
deriving DecidableEq

/-- The ways into a queue -/
inductive How
  | sleepOn (q : Queue)
  | mutexLock (q : Queue)
  | waitpid
deriving DecidableEq

def How.queue (t : Nat) : How → Queue
  | .sleepOn q => q
  | .mutexLock q => q
  | .waitpid => .waitChild t

/-- Only `sleep_on` returns at once unless the task is `TASK_RUNNING`. -/
def How.checksStatus : How → Bool
  | .sleepOn _ => true
  | _ => false

inductive Pc
  | user
  | kernel
  | adding (how : How)
  | asleep (how : How)
  | exited
deriving DecidableEq

/-- The tasks and queues. `seen` are the tasks that a `wake_up_process` has found asleep and not yet
marked. `added` bounds the length of a ring. `stuck` says that a walk did not come back to its head. -/
structure State where
  links : Links Ptr
  status : Nat → Rr.Status
  pc : Nat → Pc
  locked : Queue → Bool
  seen : List Nat
  added : Nat
  stuck : Bool

/-- The tasks' own steps, the walks over a queue, and the two halves of `wake_up_process`. -/
inductive Act
  | enter (t : Nat)
  | leave (t : Nat)
  | exit (t : Nat)
  | mark (t : Nat) (how : How)
  | add (t : Nat)
  | resume (t : Nat)
  | wakeUpOne (q : Queue)
  | wakeUpAll (q : Queue)
  | wakeSee (t : Nat)
  | wakeMark (t : Nat)
deriving DecidableEq

namespace State

variable (s : State)

def setPc (t : Nat) (pc : Pc) : State := { s with pc := update s.pc t pc }

/-- The body of both walks: `wait_queue_remove` and the check of `wake_up_process`. -/
def wakeNode (t : Nat) : State :=
  { s with links := s.links.unlink (.node t), seen := t :: s.seen }

/-- `list_for_each_entry_safe` of `wake_up_all`, from `pos` on with `tmp` read ahead. A list head on
the way is taken for a wait node, and nothing is known from there on. -/
def wakeUpAllFrom (q : Queue) : Nat → Ptr → Ptr → State → Option State
  | 0, _, _, _ => none
  | fuel + 1, pos, tmp, s =>
    if pos = .head q then some s
    else
      match pos with
      | .head _ => none
      | .node t =>
        let s := if s.status t = .sleeping then s.wakeNode t else s
        wakeUpAllFrom q fuel tmp (s.links.next tmp) s

/-- The same walk in `wake_up_one`, which ends with the first task that sleeps. -/
def wakeUpOneFrom (q : Queue) : Nat → Ptr → Ptr → State → Option State
  | 0, _, _, _ => none
  | fuel + 1, pos, tmp, s =>
    if pos = .head q then some s
    else
      match pos with
      | .head _ => none
      | .node t =>
        if s.status t = .sleeping then some (s.wakeNode t)
        else wakeUpOneFrom q fuel tmp (s.links.next tmp) s

/-- A walk from the first node of the queue, under its lock. -/
def walk (q : Queue) (visit : Queue → Nat → Ptr → Ptr → State → Option State) : State :=
  if s.stuck ∨ s.locked q then s
  else
    let pos := s.links.next (.head q)
    match visit q (s.added + 1) pos (s.links.next pos) s with
    | some s => s
    | none => { s with stuck := true }

/-- `list_empty(&t->wait.list)` -/
def unlinked (t : Nat) : Prop := s.links.next (.node t) = .node t

instance (t : Nat) : Decidable (s.unlinked t) := inferInstanceAs (Decidable (_ = _))

/-- What a task does when `sched` returns: `do_waitpid` takes its node out, the others leave it. -/
def wakened (t : Nat) : How → State
  | .waitpid => if s.unlinked t then s else { s with links := s.links.unlink (.node t) }
  | _ => s

/-- One step. A step whose turn it is not changes nothing. -/
def step : Act → State
  | .enter t => if s.pc t = .user then s.setPc t .kernel else s
  | .leave t => if s.pc t = .kernel then s.setPc t .user else s
  | .exit t =>
    if s.pc t = .kernel then
      { s.setPc t .exited with status := update s.status t .zombie }
    else s
  | .mark t how =>
    if s.pc t = .kernel ∧ s.locked (how.queue t) = false ∧
        (how.checksStatus = true → s.status t = .running) then
      { s.setPc t (.adding how) with
        status := update s.status t .sleeping
        locked := update s.locked (how.queue t) true }
    else s
  | .add t =>
    match s.pc t with
    | .adding how =>
      { s.setPc t (.asleep how) with
        links := s.links.addTail (.head (how.queue t)) (.node t)
        locked := update s.locked (how.queue t) false
        added := s.added + 1 }
    | _ => s
  | .resume t =>
    match s.pc t with
    | .asleep how =>
      if how = .waitpid ∧ s.locked (.waitChild t) then s else (s.wakened t how).setPc t .kernel
    | _ => s
  | .wakeUpOne q => s.walk q wakeUpOneFrom
  | .wakeUpAll q => s.walk q wakeUpAllFrom
  | .wakeSee t => if s.status t = .sleeping then { s with seen := t :: s.seen } else s
  | .wakeMark t =>
    if t ∈ s.seen then
      { s with status := update s.status t .running, seen := s.seen.erase t }
    else s

def run (acts : List Act) : State := acts.foldl step s

end State

end ZzzOs.Sched.Wait
