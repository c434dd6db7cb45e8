import ZzzOs.Sched.Rr.Aging
import ZzzOs.Lib.Runs

/-!
# A CPU and its run queue

The steps of `kernel/sched/core.c`, `wait.c`, `mutex.c`, `exit.c` and of `wake_up_process` on one run
queue. A section under `rq->lock` is one step, and so is each write to a task's `status` outside of it:
a sleeper marks itself, may take itself off the queue, and then calls `sched`; a waker looks at the
status, writes it, and puts the task on the queue. Any number of wakers come anywhere between the
others.

The tasks are given with their priorities; a new task is one that sleeps and has not been queued.
-/

namespace ZzzOs.Sched.Rr

open Lib

/-- How far the current task is on its way to sleep. On `lost` the scheduler switched to a list head
it took for a task. -/
inductive Pc
  | running
  | marked
  | ready
  | lost
deriving DecidableEq

/-- The three ways to sleep -/
inductive Sleep
  | sleepOn
  | waitChild
  | mutexLock
deriving DecidableEq

/-- A CPU, and the wakers of tasks of its queue: those that have seen the task asleep, and those
that have written its status. -/
structure Cpu where
  rq : Rq
  pc : Pc
  seen : List Nat
  woken : List Nat

inductive Act
  | sleep (how : Sleep)
  | dequeue
  | exit
  | sched (now : UInt64)
  | schedDeferred
  | tick (now : UInt64)
  | wakeSee (p : Nat)
  | wakeMark (p : Nat)
  | wakeEnqueue (p : Nat) (now : UInt64)

namespace Rq

def setStatus (rq : Rq) (p : Nat) (st : Status) : Rq :=
  rq.setTask p fun t => { t with status := st }

/-- `pick_next_task` and `rq->curr = next`: where the round-robin class has nothing, the idle class
hands back `rq->idle`. -/
def switchTo (rq : Rq) : Pick → Rq
  | .null => { rq with curr := rq.idle }
  | .task p => { rq with curr := p }
  | .listHead _ => rq

end Rq

namespace Cpu

def canSched (c : Cpu) : Prop := c.pc = .running ∨ c.pc = .ready

instance (c : Cpu) : Decidable c.canSched := inferInstanceAs (Decidable (_ ∨ _))

/-- One step. A step whose turn it is not changes nothing. -/
def step (c : Cpu) : Act → Cpu
  | .sleep how =>
    -- only `sleep_on` looks at the status first
    if c.pc = .running ∧ (how = .sleepOn → (c.rq.tasks c.rq.curr).status = .running) then
      { c with
        rq := c.rq.setStatus c.rq.curr .sleeping
        -- `mutex_lock` leaves the queue alone
        pc := if how = .mutexLock then .ready else .marked }
    else c
  | .dequeue =>
    if c.pc = .marked then { c with rq := c.rq.rrDequeueTask c.rq.curr, pc := .ready } else c
  | .exit =>
    if c.pc = .running then
      { c with rq := (c.rq.setStatus c.rq.curr .zombie).rrDequeueTask c.rq.curr, pc := .ready }
    else c
  | .sched now =>
    if c.canSched then
      let next := c.rq.rrPickNextTask now
      { c with
        rq := next.2.switchTo next.1
        pc := match next.1 with | .listHead _ => .lost | _ => .running }
    else c
  -- `sched` with preemption disabled only asks for a later one
  | .schedDeferred => if c.canSched then { c with pc := .running } else c
  | .tick now => if c.pc = .lost then c else { c with rq := c.rq.rrTaskTick.rrAging now }
  | .wakeSee p =>
    if c.pc ≠ .lost ∧ p ≠ c.rq.idle ∧ (c.rq.tasks p).status = .sleeping then
      { c with seen := p :: c.seen }
    else c
  | .wakeMark p =>
    if c.pc ≠ .lost ∧ p ∈ c.seen then
      { c with rq := c.rq.setStatus p .running, seen := c.seen.erase p, woken := p :: c.woken }
    else c
  | .wakeEnqueue p now =>
    if c.pc ≠ .lost ∧ p ∈ c.woken then
      { c with rq := c.rq.rrEnqueueTask now p, woken := c.woken.erase p }
    else c

def run (c : Cpu) (acts : List Act) : Cpu := acts.foldl step c

/-- The step is not the choice of a task while the current one is demoted under its list. -/
def Fine (c : Cpu) : Act → Prop
  | .sched _ => c.canSched → c.rq.Fine
  | _ => True

/-- A step that chooses a task chooses soundly. -/
def Chooses (c : Cpu) : Act → Prop
  | .sched now => c.canSched → c.rq.PickSound now
  | _ => True

/-! ## One step -/

variable {c c' : Cpu} {rq : Rq}

theorem inv_setStatus {p : Nat} {st : Status} (h : rq.Inv) : (rq.setStatus p st).Inv :=
  h.setTask (h.prio_lt p) rfl rfl fun _ => rfl

theorem inv_switchTo (h : rq.Inv) (next : Pick) : (rq.switchTo next).Inv := by
  cases next with
  | null | task => exact h.congr (fun _ => ⟨rfl, rfl, rfl⟩) rfl rfl rfl
  | listHead k => exact h

theorem consistent_of_switchTo {next : Pick} (h : (rq.switchTo next).Consistent) :
    rq.Consistent := by
  cases next with
  | null | task => exact ⟨h.once, h.prio_lt, h.bit_iff, h.count⟩
  | listHead k => exact h

theorem inv_ite {p : Prop} [Decidable p] (h : c.rq.Inv) (h' : c'.rq.Inv) :
    (if p then c else c').rq.Inv := by
  split
  · exact h
  · exact h'

theorem chooses (a : Act) (h : c.rq.Inv) : c.Chooses a := by
  cases a with
  | sched now => exact fun _ => h.pickSound
  | _ => trivial

/-- A step from a queue with the invariant keeps it if it is `Fine`, and breaks the queue if it is
not. -/
theorem step_iff (a : Act) (h : c.rq.Inv) :
    ((c.step a).rq.Consistent → c.Fine a) ∧ (c.Fine a → (c.step a).rq.Inv) := by
  cases a with
  | sched now =>
    by_cases hc : c.canSched
    · have hpick := h.pick_iff now
      rw [step, if_pos hc]
      exact ⟨fun hcons _ => hpick.1 (consistent_of_switchTo hcons),
        fun hf => inv_switchTo (hpick.2 (hf hc)) _⟩
    · rw [step, if_neg hc]
      exact ⟨fun _ hc' => absurd hc' hc, fun _ => h⟩
  | sleep | wakeMark => exact ⟨fun _ => trivial, fun _ => inv_ite (inv_setStatus h) h⟩
  | dequeue => exact ⟨fun _ => trivial, fun _ => inv_ite h.rrDequeueTask h⟩
  | exit => exact ⟨fun _ => trivial, fun _ => inv_ite (inv_setStatus h).rrDequeueTask h⟩
  | schedDeferred | wakeSee => exact ⟨fun _ => trivial, fun _ => inv_ite h h⟩
  | tick now => exact ⟨fun _ => trivial, fun _ => inv_ite h h.rrTaskTick.rrAging⟩
  | wakeEnqueue p now => exact ⟨fun _ => trivial, fun _ => inv_ite h.rrEnqueueTask h⟩

/-! ## Whole runs -/

def Sound (acts : List Act) (c : Cpu) : Prop :=
  Along step (fun c => c.rq.Consistent) Chooses acts c

def boot (tasks : Nat → Task) (idle : Nat) : Cpu where
  rq :=
    { tasks := tasks
      runnable := fun _ => []
      prioBitmap := 0
      nrRunning := 0
      prioLastServed := fun _ => 0
      curr := idle
      idle := idle }
  pc := .running
  seen := []
  woken := []

/-- What `sched_fork` and the static `init_task` give every task: priorities that are levels, and
`on_rq = 0`. -/
def Fresh (t : Task) : Prop := t.prio < prioNums ∧ t.basePrio < prioNums ∧ t.onRq = false

theorem boot_inv {tasks : Nat → Task} (idle : Nat) (h : ∀ t, Fresh (tasks t)) :
    (boot tasks idle).rq.Inv := by
  refine ⟨fun t => (h t).1, fun t => (h t).2.1, fun k => List.nodup_nil, fun k t => ?_,
    fun k hk => ?_, ?_⟩
  · simp [boot, (h t).2.2]
  · simp [boot]
  · simp [boot, Rq.linked]

/-- **In every run of a CPU the queue stays consistent and every choice is sound exactly if no step
of the run demotes a current task that is linked**, but for the case that this task is the one
chosen and leaves another at its level. -/
theorem sound_iff_fineRun (tasks : Nat → Task) (idle : Nat) (acts : List Act)
    (h : ∀ t, Fresh (tasks t)) :
    Sound acts (boot tasks idle) ↔ FineRun step Fine acts (boot tasks idle) := by
  refine along_iff (fun c => c.rq.Inv) Rq.Inv.consistent (fun a hi => ?_) acts (boot_inv idle h)
  obtain ⟨hneeds, hkeeps⟩ := step_iff a hi
  exact ⟨fun _ => hneeds, fun hf => ⟨chooses a hi, hkeeps hf⟩⟩

/-- Task 0 idles, and every other task sleeps at the base priority of `init_task`. -/
def sleepers (t : Nat) : Task where
  prio := 1
  basePrio := 1
  consecTicks := 0
  onRq := false
  status := if t = 0 then .running else .sleeping

/-- Task 1 is woken, runs for a time slice, and sleeps: the queue is sound throughout. -/
theorem slept_sound :
    Sound [.wakeSee 1, .wakeMark 1, .wakeEnqueue 1 0, .sched 0, .tick 0, .sleep .sleepOn, .dequeue,
      .sched 0] (boot sleepers 0) := by
  refine (sound_iff_fineRun sleepers 0 _ fun t => ⟨by simp [sleepers, prioNums],
    by simp [sleepers, prioNums], rfl⟩).2 ?_
  refine ⟨trivial, trivial, trivial, trivial, trivial, trivial, trivial, fun _ hs => ?_, trivial,
    trivial, trivial, trivial, trivial, trivial, trivial, fun _ hs => ?_, trivial⟩
  · exact absurd hs.1 (by decide +kernel)
  · exact absurd hs.2.1 (by decide +kernel)

/-- Task 1 runs for three time slices and goes to sleep; a waker comes before it calls `sched`. -/
def earlyWake : List Act :=
  [.wakeSee 1, .wakeMark 1, .wakeEnqueue 1 0, .sched 0, .tick 0, .tick 0, .tick 0, .sleep .sleepOn,
    .dequeue, .wakeSee 1, .wakeMark 1, .wakeEnqueue 1 0, .sched 0]

/-- Task 1 is demoted under its list: the bit of its old level stays behind, the level is empty, and
the next choice makes a task of the list head. -/
theorem earlyWake_unsound : (∀ t, Fresh (sleepers t)) ∧ ¬ Sound earlyWake (boot sleepers 0) ∧
      ((boot sleepers 0).run earlyWake).rq.prioBitmap = bit 1 ∧
      ((boot sleepers 0).run earlyWake).rq.runnable 1 = [] ∧
      (((boot sleepers 0).run earlyWake).rq.rrPickNextTask 0).1 = .listHead 1 := by
  refine ⟨fun t => ⟨by simp [sleepers, prioNums], by simp [sleepers, prioNums], rfl⟩, ?_,
    by decide +kernel, by decide +kernel, by decide +kernel⟩
  intro h
  have hbit := (Along.last h).bit_iff 1 (by decide)
  exact absurd (hbit.1 (by decide +kernel)) (by decide +kernel)

end Cpu

end ZzzOs.Sched.Rr
