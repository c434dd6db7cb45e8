import ZzzOs.Sched.Steps

/-!
# The reference counts of address spaces

In every run the count of an `mm` is the number of tasks that have or borrow it, and it is freed once,
when there is none left. The page table of a freed `mm` is in use in one place only: `exec` drops the old
`mm` before it switches. So the frees are safe in exactly the runs in which every `exec` leaves an `mm`
that someone else still refers to.
-/

namespace ZzzOs.Sched

open Option List Function Lib

namespace Kernel

variable {n : Nat} {k k' : Kernel n} {t : Nat} {c : Fin n} {e : Event n} {m : Mm}

def LeavesShared (k : Kernel n) (c : Fin n) : Prop :=
  ∀ i, (k.cpu c).pgtbl = .user i → 1 < k.refs.count i

/-- The condition on an event. -/
def Shared (k : Kernel n) : Event n → Prop
  | .exec c => k.LeavesShared c
  | _ => True

theorem running_bind {f : Nat → Option (Kernel n)} (h : (k.running c).bind f = some k') :
    f (k.cpu c).curr = some k' := by
  obtain ⟨t, ht, h⟩ := bind_eq_some_iff.1 h
  unfold running at ht
  split_ifs at ht
  cases ht
  exact h

theorem Inv.boot (n : Nat) : (boot n).Inv where
  layout :=
    { nodup := nodup_range
      bound := fun _ => mem_range.1
      curr := fun c => mem_range.2 c.isLt
      curr_inj := fun _ _ => Fin.ext
      last := nofun
      last_inj := nofun
      active := fun _ => rfl
      own := fun _ => .inl rfl
      resting := fun _ _ _ => .inl ⟨rfl, .inr rfl⟩
      onCpu := fun _ _ => rfl }
  books := by
    have : (Kernel.boot n).holders = fun _ => 0 := funext fun i =>
      countP_eq_zero.2 fun t _ => by simp [Kernel.boot, Task.owner]
    rw [this]
    exact RefTable.Books.empty

/-! ## Events that make tasks -/

theorem kthread_step (h : k.Inv) (b : Bool) :
    (k.newTask none b).Inv ∧ ((k.newTask none b).Cold ↔ k.Cold) := by
  refine ⟨settle (h.layout.newTask none b) h.books fun i => ?_, Iff.rfl⟩
  rw [holders_newTask h.layout.bound, one_none, Nat.add_zero]

theorem clone_vm_step (h : k.Inv) (ht : t ∈ k.tasks) (hm : (k.task t).mm = some m)
    (b : Bool) : ((k.mmget m).newTask (some m) b).Inv ∧
      (((k.mmget m).newTask (some m) b).Cold ↔ k.Cold) := by
  have hsettle := settle_get (h.layout.newTask (some m) b) h.books m
    (fun i => holders_newTask h.layout.bound (some m) b i) fun i hi =>
      holders_pos ht (by rw [Task.owner, hm, hi]; rfl)
  cases m <;> exact hsettle

theorem Layout.mmAlloc (h : k.Layout) : k.mmAlloc.Layout := h.congr rfl rfl rfl rfl

theorem one_newMm (i : Nat) : one (some k.newMm) i = if i = k.refs.next then 1 else 0 := by
  simp [one, newMm, eq_comm]

theorem Inv.books_mmAlloc (h : k.Inv) :
    k.mmAlloc.refs.Books fun i => k.holders i + one (some k.newMm) i := by
  have hf : update k.holders k.refs.next 1 = fun i => k.holders i + one (some k.newMm) i :=
    funext fun i => by
      rw [one_newMm]
      rcases eq_or_ne i k.refs.next with rfl | hne
      · rw [update_self, if_pos rfl, h.books.future _ le_rfl]
      · rw [update_of_ne hne, if_neg hne, Nat.add_zero]
  rw [← hf]
  exact h.books.make

theorem clone_step (h : k.Inv) (b : Bool) : (k.mmAlloc.newTask (some k.newMm) b).Inv ∧
    ((k.mmAlloc.newTask (some k.newMm) b).Cold ↔ k.Cold) := by
  have hsame : (k.mmAlloc.newTask (some k.newMm) b).holders =
      fun i => k.holders i + one (some k.newMm) i :=
    funext fun i => holders_newTask h.layout.bound (some k.newMm) b i
  exact ⟨⟨h.layout.mmAlloc.newTask _ b, hsame ▸ h.books_mmAlloc⟩, Iff.rfl⟩

theorem unused_step (h : k.Inv) :
    (k.mmAlloc.mmput k.newMm).Inv ∧ ((k.mmAlloc.mmput k.newMm).Cold ↔ k.Cold) :=
  settle_put h.layout.mmAlloc h.books_mmAlloc k.newMm fun _ => rfl

theorem cloneFails_vm_step (h : k.Inv) (ht : t ∈ k.tasks) (hm : (k.task t).mm = some m) :
    ((k.mmget m).mmput m).Inv ∧ (((k.mmget m).mmput m).Cold ↔ k.Cold) := by
  cases m with
  | initMm => exact ⟨h, Iff.rfl⟩
  | user i =>
    have hpos : 0 < k.holders i := holders_pos ht (by rw [Task.owner, hm]; rfl)
    refine settle_put (h.layout.mmget (.user i)) (h.books.get hpos) (.user i) fun j => ?_
    rw [holders_mmget]
    rcases eq_or_ne j i with rfl | hne
    · simp [one]
    · rw [update_of_ne hne]
      simp [one, hne.symm]

/-! ## `exec` -/

/-- The kernel after the running task of `c` has got the new `mm`, before the old one is put. -/
def renewed (k : Kernel n) (c : Fin n) : Kernel n :=
  k.mmAlloc.setTask (k.cpu c).curr
    { k.task (k.cpu c).curr with mm := some k.newMm, activeMm := some k.newMm }

/-- The kernel after an `exec` on `c`. -/
def execed (k : Kernel n) (c : Fin n) : Kernel n :=
  ((k.renewed c).mmput (k.cpu c).pgtbl).setCpu c { k.cpu c with pgtbl := k.newMm }

theorem Inv.pgtbl_ne_newMm (h : k.Inv) (c : Fin n) : (k.cpu c).pgtbl ≠ k.newMm := by
  intro he
  have hpos := holders_pos (h.layout.curr c) ((h.layout.owner c).trans (by rw [he]; rfl))
  exact lt_irrefl _ (h.books.lt_next hpos)

theorem exec_eq (h : k.Inv) (c : Fin n) : (k.mmAlloc.taskSetMm (k.cpu c).curr k.newMm).setCpu c
      { (k.mmAlloc.taskSetMm (k.cpu c).curr k.newMm).cpu c with pgtbl := k.newMm } =
      k.execed c := by
  have hset : k.mmAlloc.taskSetMm (k.cpu c).curr k.newMm =
      (k.renewed c).mmput (k.cpu c).pgtbl :=
    taskSetMm_eq h.layout.mmAlloc (h.pgtbl_ne_newMm c)
  rw [hset, mmput_cpu]
  rfl

theorem Inv.layout_execed (h : k.Inv) (c : Fin n) : (k.execed c).Layout := by
  have hlay := h.layout.mmAlloc.execed (c := c) k.newMm
  refine hlay.congr (mmput_task _) (mmput_tasks _) (mmput_nextTask _) ?_
  change update ((k.renewed c).mmput _).cpu c _ = _
  rw [mmput_cpu]
  rfl

theorem Inv.holders_renewed (h : k.Inv) (c : Fin n) (i : Nat) :
    (k.renewed c).holders i + one (some (k.cpu c).pgtbl) i =
      k.holders i + one (some k.newMm) i := by
  have := holders_setTask (k := k.mmAlloc) h.layout.nodup (h.layout.curr c)
    { k.task (k.cpu c).curr with mm := some k.newMm, activeMm := some k.newMm } i
  rwa [show (k.mmAlloc.task (k.cpu c).curr).owner = _ from h.layout.owner c] at this

theorem holders_execed : (k.execed c).holders = (k.renewed c).holders :=
  holders_mmput (k.cpu c).pgtbl

theorem exec_step (h : k.Inv) (c : Fin n) :
    (k.execed c).Inv ∧ ((k.execed c).Cold ↔ k.Cold ∧ k.LeavesShared c) := by
  have hcount := h.holders_renewed c
  have hbooks := h.books_mmAlloc
  cases hpg : (k.cpu c).pgtbl with
  | initMm =>
    have hrefs : (k.execed c).refs = k.mmAlloc.refs := by
      unfold execed
      rw [hpg]
      rfl
    have hsame : (k.execed c).holders = fun i => k.holders i + one (some k.newMm) i := by
      rw [holders_execed]
      funext i
      rw [← hcount i, hpg, one_init, Nat.add_zero]
    refine ⟨⟨h.layout_execed c, ?_⟩, ?_⟩
    · rw [hsame, hrefs]
      exact hbooks
    · unfold Cold
      rw [hrefs]
      refine ⟨fun hc => ⟨hc, fun i hi => ?_⟩, And.left⟩
      rw [hpg] at hi
      cases hi
  | user j =>
    rw [hpg] at hcount
    have huse : (k.renewed c).inUse (.user j) = true := decide_eq_true ⟨c, hpg⟩
    have hrefs : (k.execed c).refs = k.mmAlloc.refs.put j true := by
      unfold execed
      rw [hpg, ← huse]
      rfl
    have hj : 0 < k.holders j :=
      holders_pos (h.layout.curr c) ((h.layout.owner c).trans (by rw [hpg]))
    have hlt := h.books.lt_next hj
    have hnew : one (some k.newMm) j = 0 := by
      rw [one_newMm, if_neg (Nat.ne_of_lt hlt)]
    have hpos : 0 < k.holders j + one (some k.newMm) j := by omega
    have hsame : update (fun i => k.holders i + one (some k.newMm) i) j
        (k.holders j + one (some k.newMm) j - 1) = (k.execed c).holders := by
      rw [holders_execed]
      refine update_eq_iff.2 ⟨?_, fun i hne => ?_⟩
      · rw [← hcount j]
        simp [one]
      · rw [← hcount i]
        simp [one, hne.symm]
    refine ⟨⟨h.layout_execed c, ?_⟩, ?_⟩
    · rw [hrefs, ← hsame]
      exact hbooks.put hpos
    · have hfreed := hbooks.freed_put (t := true) hpos
      have hleaves : k.LeavesShared c ↔ 1 < k.holders j := by
        refine ⟨fun hs => ?_, fun hs i hi => ?_⟩
        · have := hs j hpg
          rw [h.books.count j hlt] at this
          omega
        · obtain rfl : j = i := by
            rw [hpg] at hi
            exact Mm.user.inj hi
          rw [h.books.count j hlt]
          omega
      unfold Cold
      rw [hrefs, hfreed, hleaves]
      split
      · rw [forall_mem_cons]
        exact ⟨fun hc => absurd hc.1 (by simp), fun hc => by omega⟩
      · exact ⟨fun hc => ⟨hc, by omega⟩, And.left⟩

/-! ## Events that end tasks -/

theorem Inv.touch (h : k.Inv) (ht : t ∈ k.tasks) {v : Task} (hm : v.mm = (k.task t).mm)
    (ha : v.activeMm = (k.task t).activeMm) (hon : k.placed t = true → v.onCpu = true) :
    (k.setTask t v).Inv := by
  have howner : v.owner = (k.task t).owner := by rw [Task.owner, Task.owner, hm, ha]
  refine ⟨h.layout.touch hm ha hon, ?_⟩
  rw [holders_setTask_same h.layout.nodup ht howner]
  exact h.books

theorem reap_step (h : k.Inv) (ht : t ∈ k.tasks) :
    let k' := k.setTask t { k.task t with status := .dead }
    (if (k.task t).onCpu then k' else k'.taskDestroy t).Inv ∧
      ((if (k.task t).onCpu then k' else k'.taskDestroy t).Cold ↔ k.Cold) := by
  intro k'
  have hk' : k'.Inv := h.touch ht rfl rfl (h.layout.onCpu t)
  by_cases hon : (k.task t).onCpu = true
  · rw [if_pos hon]
    exact ⟨hk', Iff.rfl⟩
  · have hp : k'.placed t = false := by
      by_contra hp
      exact hon (h.layout.onCpu t (Bool.eq_true_of_not_eq_false hp))
    rw [if_neg hon]
    exact taskDestroy_step hk' ht hp

theorem tail_step (h : k.Inv) (hc : (k.cpu c).last = some t) :
    let k' := k.setCpu c { k.cpu c with last := none }
    let k' := k'.setTask t { k'.task t with onCpu := false }
    (k'.Inv ∧ (k'.Cold ↔ k.Cold)) ∧
      (k'.taskDestroy t).Inv ∧ ((k'.taskDestroy t).Cold ↔ k.Cold) := by
  intro k₁ k'
  obtain ⟨ht, hcurr⟩ := h.layout.last c t hc
  have hp : k₁.placed t = false := by
    refine decide_eq_false ?_
    rintro ⟨d, hd⟩
    change (update k.cpu c { k.cpu c with last := none } d).curr = t ∨
      (update k.cpu c { k.cpu c with last := none } d).last = some t at hd
    rcases eq_or_ne d c with rfl | hne
    · rw [update_self] at hd
      exact hd.elim (hcurr d) nofun
    · rw [update_of_ne hne] at hd
      exact hd.elim (hcurr d) fun hd => hne (h.layout.last_inj d c t hd hc)
  have hk₁ : k₁.Inv := ⟨h.layout.clearLast c, h.books⟩
  have hk' : k'.Inv := hk₁.touch ht rfl rfl fun htrue =>
    absurd (hp.symm.trans htrue) Bool.false_ne_true
  exact ⟨⟨hk', Iff.rfl⟩, taskDestroy_step hk' ht hp⟩

/-! ## Runs -/

/-- Every event keeps the invariant, and frees only what is not in use if its condition holds. -/
theorem step_inv (h : k.Inv) (he : k.step e = some k') :
    k'.Inv ∧ (k'.Cold ↔ k.Cold ∧ k.Shared e) := by
  cases e <;> simp only [Shared, and_true]
  case kthread c =>
    obtain ⟨t, -, he⟩ := bind_eq_some_iff.1 he
    cases he
    exact kthread_step h _
  case clone c vm =>
    obtain ⟨m, hm, he⟩ := bind_eq_some_iff.1 (running_bind he)
    cases vm with
    | true =>
      cases he
      exact clone_vm_step h (h.layout.curr c) hm _
    | false =>
      cases he
      exact clone_step h _
  case cloneFails c vm =>
    obtain ⟨m, hm, hf⟩ := bind_eq_some_iff.1 (running_bind he)
    cases vm with
    | true =>
      cases hf
      exact cloneFails_vm_step h (h.layout.curr c) hm
    | false =>
      cases hf
      exact unused_step h
  case exec c =>
    cases running_bind he
    rw [exec_eq h c]
    exact exec_step h c
  case execFails c =>
    obtain ⟨t, -, he⟩ := bind_eq_some_iff.1 he
    cases he
    exact unused_step h
  case exit c =>
    have he := running_bind he
    split_ifs at he
    cases he
    exact ⟨h.touch (h.layout.curr c) rfl rfl (h.layout.onCpu _), Iff.rfl⟩
  case reap z =>
    simp only [step] at he
    split at he
    · rename_i hz
      cases he
      exact reap_step h hz.1
    · cases he
  case switch c next =>
    simp only [step] at he
    split_ifs at he with hs
    cases he
    exact switch_step h hs.2.1 hs.2.2.2
  case tail c =>
    obtain ⟨t, ht, he⟩ := bind_eq_some_iff.1 he
    obtain ⟨h1, h2⟩ := tail_step h ht
    split at he <;> cases he
    · exact h2
    · exact h1

def ExecsShared (k : Kernel n) : List (Event n) → Prop
  | [] => True
  | e :: es => k.Shared e ∧ ∀ k', k.step e = some k' → ExecsShared k' es

theorem run_inv {es : List (Event n)} (h : k.Inv) (hr : k.run es = some k') :
    k'.Inv ∧ (k'.Cold ↔ k.Cold ∧ k.ExecsShared es) := by
  induction es generalizing k with
  | nil =>
    cases hr
    exact ⟨h, by simp only [ExecsShared, and_true]⟩
  | cons e es ih =>
    obtain ⟨k₁, he, hr⟩ := bind_eq_some_iff.1 hr
    obtain ⟨h₁, hcold₁⟩ := step_inv h he
    obtain ⟨h', hcold'⟩ := ih h₁ hr
    refine ⟨h', hcold'.trans ?_⟩
    rw [hcold₁, ExecsShared, and_assoc]
    refine and_congr_right fun _ => and_congr_right fun _ => ?_
    refine ⟨fun hs k₂ he₂ => ?_, fun hs => hs k₁ he⟩
    cases he.symm.trans he₂
    exact hs

/-- The tasks whose `mm` is `.user i`. -/
def owners (k : Kernel n) (i : Nat) : Nat :=
  k.tasks.countP fun t => decide ((k.task t).mm = some (.user i))

/-- The kernel threads that borrow `.user i`. -/
def borrowers (k : Kernel n) (i : Nat) : Nat :=
  k.tasks.countP fun t =>
    decide ((k.task t).mm = none) && decide ((k.task t).activeMm = some (.user i))

theorem holders_eq (k : Kernel n) (i : Nat) : k.holders i = k.owners i + k.borrowers i := by
  unfold holders owners borrowers
  induction k.tasks with
  | nil => rfl
  | cons t l ih =>
    rw [countP_cons, countP_cons, countP_cons, ih, Task.owner]
    cases hm : (k.task t).mm with
    | none =>
      by_cases ha : (k.task t).activeMm = some (.user i)
      all_goals simp [ha, Nat.add_assoc]
    | some m => simp [Nat.add_right_comm]

/-- **The counts are right in every run**: the count of an `mm` is the number of tasks that have it and
of kernel threads that borrow it, and it has been freed once if that is zero and not at all otherwise;
and no CPU was using a page table that was freed, exactly if every `exec` left an `mm` with another
reference. -/
theorem mm_counts (n : Nat) (es : List (Event n)) (k : Kernel n) (h : (boot n).run es = some k) :
    (∀ i, i < k.refs.next → k.refs.count i = k.owners i + k.borrowers i ∧
      k.refs.frees i = if k.refs.count i = 0 then 1 else 0) ∧
    k.refs.underflow = false ∧ (k.Cold ↔ (boot n).ExecsShared es) := by
  obtain ⟨hinv, hcold⟩ := run_inv (Inv.boot n) h
  refine ⟨fun i hi => ?_, hinv.books.sound, hcold.trans ?_⟩
  · have hcount := hinv.books.count i hi
    refine ⟨by rw [hcount, holders_eq]; rfl, ?_⟩
    rw [hinv.books.frees i]
    exact if_congr (by omega) rfl rfl
  · exact ⟨And.right, fun hs => ⟨nofun, hs⟩⟩

/-- The boot task makes a kernel thread, which becomes the first user task. -/
def firstUser : List (Event 1) := [.kthread 0, .switch 0 1, .tail 0, .exec 0]

/-- A user task makes a thread, which replaces its program while the first one still runs. -/
theorem mm_counts_thread :
    ∃ k, (boot 1).run (firstUser ++ [.clone 0 true, .switch 0 2, .tail 0, .exec 0]) = some k ∧
      k.refs.underflow = false ∧ k.refs.frees 0 = 0 ∧ k.owners 0 + k.borrowers 0 = 1 := by
  have hrun : ((boot 1).run (firstUser ++ [.clone 0 true, .switch 0 2, .tail 0, .exec 0])).map
      (fun k => (k.refs.next, k.refs.count 0)) = some (2, 1) := by decide +kernel
  obtain ⟨k, hk, hval⟩ := Option.map_eq_some_iff.1 hrun
  obtain ⟨hnext, hone⟩ := Prod.mk.inj hval
  obtain ⟨hcount, hsound, -⟩ := mm_counts 1 _ k hk
  obtain ⟨howners, hfrees⟩ := hcount 0 (by omega)
  refine ⟨k, hk, hsound, ?_, by omega⟩
  rw [hfrees, if_neg (by omega)]

/-- A user task without threads replaces its program: the page table is freed while the CPU uses
it. -/
theorem exec_frees_in_use :
    ∃ k, (boot 1).run (firstUser ++ [.exec 0]) = some k ∧ k.refs.freed = [(0, true)] ∧
      ¬ k.Cold := by
  have hrun : ((boot 1).run (firstUser ++ [.exec 0])).map (fun k => k.refs.freed) =
      some [(0, true)] := by decide +kernel
  obtain ⟨k, hk, hfreed⟩ := Option.map_eq_some_iff.1 hrun
  refine ⟨k, hk, hfreed, fun hcold => ?_⟩
  exact Bool.noConfusion (hcold (0, true) (hfreed ▸ List.mem_singleton.2 rfl))

end Kernel

end ZzzOs.Sched
