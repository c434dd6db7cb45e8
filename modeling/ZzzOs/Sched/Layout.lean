import ZzzOs.Sched.Model

/-!
# Where the references are

A task refers to its own `mm`, or as a kernel thread to the one it borrows (`Task.owner`). The
counts agree with the number of such tasks (`Inv`): a running task refers to the page table its CPU
uses, and a task that does not run borrows nothing (`Layout`). So an `mm` without references is on
no CPU.
-/

namespace ZzzOs.Sched

open List Function Lib

/-- The `mm` that the task has a reference to. -/
def Task.owner (t : Task) : Option Mm := t.mm.or t.activeMm

/-- A task that is not running: a kernel thread borrows no counted `mm`, a user task has no other
`active_mm` than its own. -/
def Task.Resting (t : Task) : Prop :=
  t.mm = none ∧ (t.activeMm = none ∨ t.activeMm = some .initMm) ∨
    t.mm ≠ none ∧ (t.activeMm = none ∨ t.activeMm = t.mm)

/-- One if `m` is the counted `mm` number `i`. -/
def one (m : Option Mm) (i : Nat) : Nat := if m = some (.user i) then 1 else 0

@[simp] theorem one_none (i : Nat) : one none i = 0 := rfl
@[simp] theorem one_init (i : Nat) : one (some .initMm) i = 0 := by simp [one]

theorem Task.Resting.one_owner {t : Task} (h : t.Resting) (i : Nat) : one t.owner i = one t.mm i := by
  unfold Task.owner
  rcases h with ⟨hm, ha | ha⟩ | ⟨hm, -⟩
  · rw [hm, ha]
    rfl
  · rw [hm, ha]
    exact one_init i
  · obtain ⟨m, hm⟩ := Option.ne_none_iff_exists'.1 hm
    rw [hm]
    rfl

namespace Kernel

variable {n : Nat} {k k' : Kernel n} {t : Nat} {c : Fin n} {i : Nat} {f : Nat → Nat}

/-- The tasks that refer to `.user i`. -/
def holders (k : Kernel n) (i : Nat) : Nat :=
  k.tasks.countP fun t => decide ((k.task t).owner = some (.user i))

/-- The structure of tasks and CPUs. -/
structure Layout (k : Kernel n) : Prop where
  nodup : k.tasks.Nodup
  bound : ∀ t ∈ k.tasks, t < k.nextTask
  curr : ∀ c, (k.cpu c).curr ∈ k.tasks
  curr_inj : ∀ c c', (k.cpu c).curr = (k.cpu c').curr → c = c'
  last : ∀ c t, (k.cpu c).last = some t → t ∈ k.tasks ∧ ∀ c', (k.cpu c').curr ≠ t
  last_inj : ∀ c c' t, (k.cpu c).last = some t → (k.cpu c').last = some t → c = c'
  active : ∀ c, (k.task (k.cpu c).curr).activeMm = some (k.cpu c).pgtbl
  own : ∀ c, (k.task (k.cpu c).curr).mm = none ∨
    (k.task (k.cpu c).curr).mm = some (k.cpu c).pgtbl
  resting : ∀ t ∈ k.tasks, (∀ c, (k.cpu c).curr ≠ t) → (k.task t).Resting
  onCpu : ∀ t, k.placed t = true → (k.task t).onCpu = true

structure Inv (k : Kernel n) : Prop where
  layout : k.Layout
  books : k.refs.Books k.holders

def Cold (k : Kernel n) : Prop := ∀ e ∈ k.refs.freed, e.2 = false

/-! ## Counting -/

theorem holders_setTask (hn : k.tasks.Nodup) (ht : t ∈ k.tasks) (v : Task) (i : Nat) :
    (k.setTask t v).holders i + one (k.task t).owner i = k.holders i + one v.owner i := by
  have hp := perm_cons_erase ht
  have hrest : (k.tasks.erase t).countP (fun x =>
      decide ((update k.task t v x).owner = some (.user i))) =
      (k.tasks.erase t).countP fun x => decide ((k.task x).owner = some (.user i)) := by
    refine countP_congr fun x hx => ?_
    rw [update_of_ne fun he => (hn.mem_erase_iff.1 hx).1 he]
  unfold holders setTask
  rw [hp.countP_eq, hp.countP_eq, countP_cons, countP_cons, hrest]
  simp only [update_self, decide_eq_true_eq, one]
  omega

theorem holders_setTask_same (hn : k.tasks.Nodup) (ht : t ∈ k.tasks) {v : Task}
    (hv : v.owner = (k.task t).owner) : (k.setTask t v).holders = k.holders := by
  funext i
  have := holders_setTask hn ht v i
  rw [hv] at this
  omega

theorem holders_erase (ht : t ∈ k.tasks) (i : Nat) :
    holders { k with tasks := k.tasks.erase t } i + one (k.task t).owner i = k.holders i := by
  unfold holders
  rw [(perm_cons_erase ht).countP_eq, countP_cons]
  unfold one
  simp

theorem holders_newTask (hb : ∀ t ∈ k.tasks, t < k.nextTask) (mm : Option Mm) (b : Bool) (i : Nat) :
    (k.newTask mm b).holders i = k.holders i + one mm i := by
  have hrest : k.tasks.countP (fun x => decide ((update k.task k.nextTask
        { mm, activeMm := none, status := .alive, onCpu := b } x).owner = some (.user i))) =
      k.tasks.countP fun x => decide ((k.task x).owner = some (.user i)) := by
    refine countP_congr fun x hx => ?_
    rw [update_of_ne (Nat.ne_of_lt (hb x hx))]
  unfold holders newTask
  rw [countP_cons, hrest]
  simp [update_self, one, Task.owner]

theorem holders_pos (ht : t ∈ k.tasks) (ho : (k.task t).owner = some (.user i)) :
    0 < k.holders i :=
  countP_pos_iff.2 ⟨t, ht, decide_eq_true ho⟩

/-! ## What the layout says -/

theorem Layout.congr (h : k.Layout) (ht : k'.task = k.task) (hts : k'.tasks = k.tasks)
    (hn : k'.nextTask = k.nextTask) (hc : k'.cpu = k.cpu) : k'.Layout := by
  obtain ⟨task, tasks, nextTask, cpu, refs⟩ := k'
  obtain rfl := ht
  obtain rfl := hts
  obtain rfl := hn
  obtain rfl := hc
  exact ⟨h.nodup, h.bound, h.curr, h.curr_inj, h.last, h.last_inj, h.active, h.own, h.resting,
    h.onCpu⟩

theorem Layout.owner (h : k.Layout) (c : Fin n) :
    (k.task (k.cpu c).curr).owner = some (k.cpu c).pgtbl := by
  unfold Task.owner
  rcases h.own c with hm | hm
  · rw [hm, h.active c]
    rfl
  · rw [hm]
    rfl

theorem Layout.not_inUse (h : k.Layout) (hz : k.holders i = 0) : k.inUse (.user i) = false := by
  refine decide_eq_false ?_
  rintro ⟨c, hc⟩
  have := holders_pos (h.curr c) ((h.owner c).trans (by rw [hc]))
  omega

/-! ## Settling the books -/

section

variable (m : Mm)

include m

@[simp] theorem mmput_task : (k.mmput m).task = k.task := by cases m <;> rfl
@[simp] theorem mmput_tasks : (k.mmput m).tasks = k.tasks := by cases m <;> rfl
@[simp] theorem mmput_nextTask : (k.mmput m).nextTask = k.nextTask := by cases m <;> rfl
@[simp] theorem mmput_cpu : (k.mmput m).cpu = k.cpu := by cases m <;> rfl
@[simp] theorem mmget_task : (k.mmget m).task = k.task := by cases m <;> rfl
@[simp] theorem mmget_tasks : (k.mmget m).tasks = k.tasks := by cases m <;> rfl
@[simp] theorem mmget_nextTask : (k.mmget m).nextTask = k.nextTask := by cases m <;> rfl
@[simp] theorem mmget_cpu : (k.mmget m).cpu = k.cpu := by cases m <;> rfl

end

theorem Layout.mmput (h : k.Layout) (m : Mm) : (k.mmput m).Layout :=
  h.congr (mmput_task m) (mmput_tasks m) (mmput_nextTask m) (mmput_cpu m)

theorem Layout.mmget (h : k.Layout) (m : Mm) : (k.mmget m).Layout :=
  h.congr (mmget_task m) (mmget_tasks m) (mmget_nextTask m) (mmget_cpu m)

theorem holders_mmput (m : Mm) : (k.mmput m).holders = k.holders := by cases m <;> rfl

theorem holders_mmget (m : Mm) : (k.mmget m).holders = k.holders := by cases m <;> rfl

section

variable (h : k.Layout) (hb : k.refs.Books f)

include h hb

theorem settle (hf : ∀ i, f i = k.holders i) : k.Inv :=
  ⟨h, (funext hf : f = k.holders) ▸ hb⟩

/-- A reference to `m` has been dropped and `mmput` is called for it. -/
theorem settle_put (m : Mm) (hf : ∀ i, f i = k.holders i + one (some m) i) :
    (k.mmput m).Inv ∧ ((k.mmput m).Cold ↔ k.Cold) := by
  cases m with
  | initMm =>
    exact ⟨settle (k := k) h hb fun i => by simpa [one_init] using hf i, Iff.rfl⟩
  | user i =>
    have hi : f i = k.holders i + 1 := by simpa [one] using hf i
    have hfh : update f i (f i - 1) = k.holders := by
      refine update_eq_iff.2 ⟨by rw [hi, Nat.add_sub_cancel], fun j hne => ?_⟩
      simp [hf j, one, Ne.symm hne]
    refine ⟨⟨h.mmput _, ?_⟩, ?_⟩
    · rw [holders_mmput, ← hfh]
      exact hb.put (by omega)
    · have hfreed := hb.freed_put (t := k.inUse (.user i)) (show 0 < f i by omega)
      unfold Cold
      rw [show (k.mmput (.user i)).refs.freed = _ from hfreed]
      split
      · rw [forall_mem_cons, h.not_inUse (by omega)]
        exact ⟨And.right, fun hc => ⟨rfl, hc⟩⟩
      · exact Iff.rfl

/-- A reference to `m`, which is referred to already, has been made and `mmget` is called. -/
theorem settle_get (m : Mm)
    (hf : ∀ i, k.holders i = f i + one (some m) i) (hpos : ∀ i, m = .user i → 0 < f i) :
    (k.mmget m).Inv ∧ ((k.mmget m).Cold ↔ k.Cold) := by
  cases m with
  | initMm =>
    exact ⟨settle (k := k) h hb fun i => by simpa [one_init] using (hf i).symm, Iff.rfl⟩
  | user i =>
    have hi : k.holders i = f i + 1 := by simpa [one] using hf i
    have hfh : update f i (f i + 1) = k.holders :=
      update_eq_iff.2 ⟨hi.symm, fun j hne => by simp [hf j, one, Ne.symm hne]⟩
    refine ⟨⟨h.mmget _, ?_⟩, Iff.rfl⟩
    rw [holders_mmget, ← hfh]
    exact hb.get (hpos i rfl)

end

end Kernel

end ZzzOs.Sched
