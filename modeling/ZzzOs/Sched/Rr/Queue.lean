import ZzzOs.Sched.Rr.Model
import ZzzOs.Lib.Multisum
import ZzzOs.Lib.Update
import Mathlib.Data.List.Nodup

/-!
# The run queue under its operations

`Rq.Inv` ties the lists, the bitmap, the counter and the `on_rq` flags together. The choice of the next
task keeps it except in one situation: the current task is still linked at the level it had before its
demotion (`Rq.Inv.pick_iff`). The choice takes the first task of the best level
(`Rq.Inv.takeFirst_best`).
-/

namespace ZzzOs.Sched.Rr

open BitVec Function Lib List

/-! ## Bits -/

variable {k i level t : Nat}

theorem getLsbD_bit (hi : i < prioNums) : (bit k).getLsbD i = decide (i = k) := by
  have hi' : i < 32 := hi
  rw [bit, getLsbD_twoPow]
  rcases eq_or_ne i k with rfl | hne
  · simp [hi']
  · simp [hne, hne.symm]

variable {x : BitVec 32}

theorem and_bit_eq_zero (hk : k < prioNums) : x &&& bit k = 0 ↔ x.getLsbD k = false := by
  constructor
  · intro h
    have := congrArg (fun z => BitVec.getLsbD z k) h
    simpa [getLsbD_bit hk] using this
  · intro h
    refine eq_of_getLsbD_eq fun i hi => ?_
    rw [getLsbD_and, getLsbD_bit hi]
    rcases eq_or_ne i k with rfl | hne
    · simp [h]
    · simp [hne]

theorem getLsbD_or_bit (hi : i < prioNums) :
    (x ||| bit k).getLsbD i = (x.getLsbD i || decide (i = k)) := by
  rw [getLsbD_or, getLsbD_bit hi]

theorem getLsbD_clear_bit (hi : i < prioNums) :
    (x &&& ~~~ bit k).getLsbD i = (x.getLsbD i && !decide (i = k)) := by
  have hi' : i < 32 := hi
  rw [getLsbD_and, getLsbD_not, getLsbD_bit hi]
  simp [hi']

/-- `ctz32` of a word that is not zero is the place of its lowest bit. -/
theorem ctz32_lowest (hx : x ≠ 0) : LowestBit x (ctz32 x) := by
  have h16 : Narrows x 16 (ctzStep 0x0000FFFF#32 16 (x, 0)) := (Narrows.start hx).halve
  have h8 : Narrows x 8 (ctzStep 0x000000FF#32 8 _) := h16.halve (n := 8)
  have h4 : Narrows x 4 (ctzStep 0x0000000F#32 4 _) := h8.halve (n := 4)
  have h2 : Narrows x 2 (ctzStep 0x00000003#32 2 _) := h4.halve (n := 2)
  have h1 : Narrows x 1 (ctzStep 0x00000001#32 1 _) := h2.halve (n := 1)
  have hl := h1.lowest
  have hlast : ctz32 x = (ctzStep 0x00000001#32 1 (ctzStep 0x00000003#32 2
      (ctzStep 0x0000000F#32 4 (ctzStep 0x000000FF#32 8 (ctzStep 0x0000FFFF#32 16 (x, 0)))))).2 := by
    rw [ctzStep, ctz32]
    split <;> rfl
  rw [hlast]
  exact hl

theorem ctz32_lt (hx : x ≠ 0) : ctz32 x < prioNums := by
  by_contra hge
  have := (ctz32_lowest hx).set
  rw [getLsbD_of_ge x _ (Nat.le_of_not_lt hge)] at this
  exact absurd this (by simp)

namespace Rq

variable {rq rq' : Rq} {now : UInt64} {p : Nat} {f : Task → Task}

/-! ## The invariant -/

def Marked (rq : Rq) : Prop := ∀ k < prioNums, rq.prioBitmap.getLsbD k = true ↔ rq.runnable k ≠ []

/-- The number of tasks linked in the lists. -/
def linked (rq : Rq) : Nat := ∑ k ∈ Finset.range prioNums, (rq.runnable k).length

/-- A task marked `on_rq` is linked once, in the list of its priority, a level has its bit exactly if it
has a task, and `nr_running` counts the linked tasks. -/
structure Consistent (rq : Rq) : Prop where
  once : ∀ t, (rq.tasks t).onRq = true → ∀ k < prioNums,
    (rq.runnable k).count t = if k = (rq.tasks t).prio then 1 else 0
  prio_lt : ∀ t, (rq.tasks t).onRq = true → (rq.tasks t).prio < prioNums
  bit_iff : ∀ k < prioNums, rq.prioBitmap.getLsbD k = true ↔ rq.runnable k ≠ []
  count : rq.nrRunning = rq.linked

/-- `Consistent`, with what its preservation needs: a linked task is marked, and every priority is
a level. -/
structure Inv (rq : Rq) : Prop where
  prio_lt : ∀ t, (rq.tasks t).prio < prioNums
  base_lt : ∀ t, (rq.tasks t).basePrio < prioNums
  nodup : ∀ k, (rq.runnable k).Nodup
  mem_iff : ∀ k t, t ∈ rq.runnable k ↔ (rq.tasks t).onRq = true ∧ (rq.tasks t).prio = k
  bit_iff : ∀ k < prioNums, rq.prioBitmap.getLsbD k = true ↔ rq.runnable k ≠ []
  count : rq.nrRunning = rq.linked

namespace Inv

theorem consistent (h : rq.Inv) : rq.Consistent := by
  refine ⟨fun t ht k hk => ?_, fun t _ => h.prio_lt t, h.bit_iff, h.count⟩
  split_ifs with heq
  · exact count_eq_one_of_mem (h.nodup k) ((h.mem_iff k t).2 ⟨ht, heq.symm⟩)
  · exact count_eq_zero.2 fun hmem => heq ((h.mem_iff k t).1 hmem).2.symm

/-- The invariant does not look at states, tick counts, clocks or the current task. -/
theorem congr (h : rq.Inv) (htask : ∀ t, (rq'.tasks t).prio = (rq.tasks t).prio ∧
      (rq'.tasks t).basePrio = (rq.tasks t).basePrio ∧ (rq'.tasks t).onRq = (rq.tasks t).onRq)
    (hrun : rq'.runnable = rq.runnable) (hbit : rq'.prioBitmap = rq.prioBitmap)
    (hnr : rq'.nrRunning = rq.nrRunning) : rq'.Inv := by
  refine ⟨fun t => ?_, fun t => ?_, fun k => ?_, fun k t => ?_, fun k hk => ?_, ?_⟩
  · rw [(htask t).1]
    exact h.prio_lt t
  · rw [(htask t).2.1]
    exact h.base_lt t
  · rw [hrun]
    exact h.nodup k
  · rw [hrun, (htask t).1, (htask t).2.2]
    exact h.mem_iff k t
  · rw [hrun, hbit]
    exact h.bit_iff k hk
  · rw [linked, hrun, hnr]
    exact h.count

end Inv

/-! ## One task's fields -/

@[simp] theorem setTask_self (f : Task → Task) : (rq.setTask p f).tasks p = f (rq.tasks p) :=
  update_self ..

@[simp] theorem setTask_runnable (f : Task → Task) : (rq.setTask p f).runnable = rq.runnable := rfl

theorem setTask_of_ne (ht : t ≠ p) (f : Task → Task) :
    (rq.setTask p f).tasks t = rq.tasks t := update_of_ne ht ..

theorem Inv.setTask (h : rq.Inv) (hprio : (f (rq.tasks p)).prio < prioNums)
    (hbase : (f (rq.tasks p)).basePrio = (rq.tasks p).basePrio)
    (hon : (f (rq.tasks p)).onRq = (rq.tasks p).onRq)
    (hsame : (rq.tasks p).onRq = true → (f (rq.tasks p)).prio = (rq.tasks p).prio) :
    (rq.setTask p f).Inv := by
  refine ⟨fun t => ?_, fun t => ?_, h.nodup, fun k t => ?_, h.bit_iff, h.count⟩
  · dsimp only [Rq.setTask]
    exact update_cases (fun _ => hprio) fun _ => h.prio_lt t
  · dsimp only [Rq.setTask]
    exact update_cases (fun _ => hbase ▸ h.base_lt p) fun _ => h.base_lt t
  · rcases eq_or_ne t p with rfl | hne
    · rw [setTask_self, hon]
      refine (h.mem_iff k t).trans (and_congr_right fun ht => ?_)
      rw [hsame ht]
    · rw [setTask_of_ne hne]
      exact h.mem_iff k t

/-! ## Adding a task -/

theorem rrEnqueueTask_of_onRq (hp : (rq.tasks p).onRq = true) : rq.rrEnqueueTask now p = rq := by
  rw [rrEnqueueTask, if_pos hp]

theorem rrEnqueueTask_tasks (hp : (rq.tasks p).onRq = false) : (rq.rrEnqueueTask now p).tasks =
      update rq.tasks p { rq.tasks p with onRq := true } := by
  rw [rrEnqueueTask, if_neg (by simp [hp])]

theorem rrEnqueueTask_runnable (now : UInt64) (hp : (rq.tasks p).onRq = false) :
    (rq.rrEnqueueTask now p).runnable = update rq.runnable (rq.tasks p).prio
      (rq.runnable (rq.tasks p).prio ++ [p]) := by
  rw [rrEnqueueTask, if_neg (by simp [hp])]
  rfl

theorem rrEnqueueTask_prioBitmap (hp : (rq.tasks p).onRq = false) :
    (rq.rrEnqueueTask now p).prioBitmap = rq.prioBitmap ||| bit (rq.tasks p).prio := by
  rw [rrEnqueueTask, if_neg (by simp [hp])]

theorem rrEnqueueTask_nrRunning (hp : (rq.tasks p).onRq = false) :
    (rq.rrEnqueueTask now p).nrRunning = rq.nrRunning + 1 := by
  rw [rrEnqueueTask, if_neg (by simp [hp])]

/-- Exchanging one list changes the number of linked tasks by its length. -/
theorem linked_update {l : List Nat} (hk : k < prioNums)
    (hrun : rq'.runnable = update rq.runnable k l) :
    rq'.linked + (rq.runnable k).length = rq.linked + l.length := by
  have h := sum_update_add (Finset.mem_range.2 hk) (fun (_ : Nat) (l : List Nat) => l.length)
    rq.runnable l
  rw [linked, linked, hrun]
  exact h

theorem Inv.rrEnqueueTask (h : rq.Inv) : (rq.rrEnqueueTask now p).Inv := by
  rcases hp : (rq.tasks p).onRq
  case true => rwa [rrEnqueueTask_of_onRq hp]
  have hout : ∀ k, p ∉ rq.runnable k := fun k hmem => by
    simpa [hp] using ((h.mem_iff k p).1 hmem).1
  have hlink := linked_update (h.prio_lt p) (rrEnqueueTask_runnable now hp)
  refine ⟨fun t => ?_, fun t => ?_, fun k => ?_, fun k t => ?_, fun k hk => ?_, ?_⟩
  · rw [rrEnqueueTask_tasks hp]
    exact update_cases (fun _ => h.prio_lt p) fun _ => h.prio_lt t
  · rw [rrEnqueueTask_tasks hp]
    exact update_cases (fun _ => h.base_lt p) fun _ => h.base_lt t
  · rw [rrEnqueueTask_runnable now hp, update_apply]
    split
    · exact (h.nodup _).append (nodup_singleton p) (by simpa using hout _)
    · exact h.nodup k
  · rw [rrEnqueueTask_tasks hp, rrEnqueueTask_runnable now hp, update_apply]
    have hmem := h.mem_iff k t
    rcases eq_or_ne t p with rfl | hne
    · have hk := hout k
      split_ifs with heq
      · simp [heq]
      · simp [hk, Ne.symm heq]
    · rw [update_of_ne hne, ← hmem]
      split_ifs with heq
      · rw [← heq, mem_append, mem_singleton]
        simp [hne]
      · rfl
  · rw [rrEnqueueTask_prioBitmap hp, rrEnqueueTask_runnable now hp, getLsbD_or_bit hk, update_apply]
    split_ifs with heq
    · simp [heq]
    · simpa [heq] using h.bit_iff k hk
  · rw [rrEnqueueTask_nrRunning hp, h.count]
    simp only [length_append, length_singleton] at hlink
    omega

/-! ## Taking a task off -/

theorem takeOff_tasks :
    (rq.takeOff p).tasks = update rq.tasks p { rq.tasks p with onRq := false } := rfl

theorem takeOff_runnable : (rq.takeOff p).runnable = fun k => (rq.runnable k).erase p := rfl

theorem takeOff_prioBitmap :
    (rq.takeOff p).prioBitmap = if (rq.runnable (rq.tasks p).prio).erase p = [] then
      rq.prioBitmap &&& ~~~ bit (rq.tasks p).prio else rq.prioBitmap := rfl

section

variable (h : rq.Inv)

include h

theorem Inv.erase_eq : (fun k => (rq.runnable k).erase p) = update rq.runnable (rq.tasks p).prio
      ((rq.runnable (rq.tasks p).prio).erase p) := by
  funext k
  rw [update_apply]
  split_ifs with heq
  · rw [heq]
  · exact erase_of_not_mem fun hmem => heq ((h.mem_iff k p).1 hmem).2.symm

/-- Taking a task off after its priority may have changed: the bit of its level is cleared only if that
is the level the task now names, so the task may not have been alone there. -/
theorem Inv.takeOff_moved (hp : (rq.tasks p).onRq = true) (hprio : (f (rq.tasks p)).prio < prioNums)
    (hbase : (f (rq.tasks p)).basePrio = (rq.tasks p).basePrio) :
    (((rq.setTask p f).takeOff p).Consistent →
      (f (rq.tasks p)).prio = (rq.tasks p).prio ∨ rq.runnable (rq.tasks p).prio ≠ [p]) ∧
    ((f (rq.tasks p)).prio = (rq.tasks p).prio ∨ rq.runnable (rq.tasks p).prio ≠ [p] →
      ((rq.setTask p f).takeOff p).Inv) := by
  have hmem : p ∈ rq.runnable (rq.tasks p).prio := (h.mem_iff _ p).2 ⟨hp, rfl⟩
  have hempty : (rq.runnable (rq.tasks p).prio).erase p = [] ↔ rq.runnable (rq.tasks p).prio = [p] := by
    constructor
    · intro he
      have := (perm_cons_erase hmem)
      rw [he] at this
      exact perm_singleton.1 this
    · intro he
      simp [he]
  have hrun : ((rq.setTask p f).takeOff p).runnable = update rq.runnable (rq.tasks p).prio
      ((rq.runnable (rq.tasks p).prio).erase p) := by
    rw [takeOff_runnable]
    exact h.erase_eq
  have hbits : ∀ k < prioNums, (((rq.setTask p f).takeOff p).prioBitmap.getLsbD k = true ↔
      rq.runnable k ≠ [] ∧ ¬ (k = (f (rq.tasks p)).prio ∧ (rq.runnable k).erase p = [])) := by
    intro k hk
    rw [takeOff_prioBitmap, setTask_self, ← h.bit_iff k hk]
    change (BitVec.getLsbD (if (rq.runnable _).erase p = [] then rq.prioBitmap &&& _
      else rq.prioBitmap) k = true) ↔ _
    split_ifs with he
    · rw [getLsbD_clear_bit hk]
      rcases eq_or_ne k (f (rq.tasks p)).prio with rfl | hne
      · simp [he]
      · simp [hne]
    · rcases eq_or_ne k (f (rq.tasks p)).prio with rfl | hne
      · simp [he]
      · simp [hne]
  have hlink := linked_update (h.prio_lt p) hrun
  constructor
  · intro hinv
    by_contra hno
    push Not at hno
    obtain ⟨hne, hsingle⟩ := hno
    have := (hinv.bit_iff _ (h.prio_lt p)).1 ((hbits _ (h.prio_lt p)).2 ⟨by simp [hsingle], by
      simp [hne.symm]⟩)
    rw [hrun] at this
    simp [hsingle] at this
  · intro hcase
    refine ⟨fun t => ?_, fun t => ?_, fun k => ?_, fun k t => ?_, fun k hk => ?_, ?_⟩
    · rw [takeOff_tasks, setTask_self]
      exact update_cases (fun _ => hprio) fun hne => by simpa [setTask_of_ne hne] using h.prio_lt t
    · rw [takeOff_tasks, setTask_self]
      refine update_cases (fun _ => hbase ▸ h.base_lt p) fun hne => ?_
      simpa [setTask_of_ne hne] using h.base_lt t
    · exact (h.nodup k).erase p
    · rw [takeOff_tasks, takeOff_runnable]
      rcases eq_or_ne t p with rfl | hne
      · simpa using (h.nodup k).not_mem_erase
      · simpa [update_of_ne hne, setTask_of_ne hne, mem_erase_of_ne hne] using h.mem_iff k t
    · rw [hbits k hk, hrun, update_apply]
      split_ifs with heq
      · subst heq
        rcases hcase with hsame | hmore
        · simp only [hsame, true_and, ne_eq, hempty]
          exact and_iff_right (ne_nil_of_mem hmem)
        · simp [hmore, ne_nil_of_mem hmem, hempty]
      · have hout : p ∉ rq.runnable k := fun hk => heq ((h.mem_iff k p).1 hk).2.symm
        rw [erase_of_not_mem hout]
        tauto
    · have hlen := length_erase_of_mem hmem
      have hpos := length_pos_of_mem hmem
      change rq.nrRunning - 1 = _
      have := h.count
      omega

theorem Inv.takeOff (hp : (rq.tasks p).onRq = true) : (rq.takeOff p).Inv := by
  have hid : rq.setTask p id = rq := by
    rw [Rq.setTask, id, update_eq_self]
  have := (h.takeOff_moved hp (f := id) (h.prio_lt p) rfl).2 (.inl rfl)
  rwa [hid] at this

theorem Inv.rrRemoveTask : (rq.rrRemoveTask p).Inv := by
  rw [Rq.rrRemoveTask]
  split_ifs with hp
  · exact h
  · exact h.takeOff (by simpa using hp)

theorem Inv.rrDequeueTask : (rq.rrDequeueTask p).Inv := by
  rw [Rq.rrDequeueTask]
  split_ifs with hp
  · exact h
  · have hoff := h.takeOff (by simpa using hp)
    refine hoff.setTask (hoff.base_lt p) rfl rfl fun hon => ?_
    rw [takeOff_tasks, update_self] at hon
    exact absurd hon (by simp)

theorem Inv.rrTaskTick : (rq.rrTaskTick).Inv := by
  rw [Rq.rrTaskTick]
  split
  · exact h
  · exact h.setTask (h.prio_lt _) rfl rfl fun _ => rfl

end

/-! ## The choice of the next task -/

/-- Nothing is taken exactly if no task is linked, otherwise the first task of the best level that has
one. -/
theorem takeFirst_best (now : UInt64) (hbit : rq.Marked) :
    ((rq.takeFirst now).1 = .null ∧ (∀ k < prioNums, rq.runnable k = []) ∧
        (rq.takeFirst now).2 = rq) ∨
      ∃ k p l, k < prioNums ∧ (rq.takeFirst now).1 = .task p ∧ rq.runnable k = p :: l ∧
        (∀ j < k, rq.runnable j = []) ∧
        (rq.takeFirst now).2 = (rq.rrRemoveTask p).serve now k := by
  rw [takeFirst]
  split_ifs with hzero
  · refine .inl ⟨rfl, fun k hk => ?_, rfl⟩
    have := hbit k hk
    rw [hzero] at this
    simpa using this
  · have hlow := ctz32_lowest hzero
    have hlt := ctz32_lt hzero
    have hfull := (hbit _ hlt).1 hlow.set
    obtain ⟨p, l, hpl⟩ := exists_cons_of_ne_nil hfull
    refine .inr ⟨_, p, l, hlt, ?_, hpl, fun j hj => ?_, ?_⟩
    · simp only [hpl]
    · have := (hbit j (hj.trans hlt)).not.1 (by simp [hlow.below j hj])
      simpa using this
    · simp only [hpl]

/-- The current task is demoted while it is linked at its old level. -/
def Stale (rq : Rq) : Prop :=
  rq.curr ≠ rq.idle ∧ (rq.tasks rq.curr).status = .running ∧ 3 ≤ (rq.tasks rq.curr).consecTicks.toInt ∧
    prioHighest < (rq.tasks rq.curr).prio ∧ (rq.tasks rq.curr).prio < prioLowest ∧
    (rq.tasks rq.curr).onRq = true

/-- A demotion under the list does no harm if the task is the one taken and leaves its level
populated. -/
def Fine (rq : Rq) : Prop :=
  rq.Stale → (∃ q l, rq.runnable (rq.tasks rq.curr).prio = rq.curr :: q :: l) ∧
    ∀ j < (rq.tasks rq.curr).prio, rq.runnable j = []

instance : Decidable rq.Stale := inferInstanceAs (Decidable (_ ∧ _))

/-- The demotion of a task that is not linked, or no demotion at all -/
theorem Inv.putCurr (h : rq.Inv) (hs : ¬ rq.Stale) : (rq.putCurr now).Inv := by
  rw [Rq.putCurr]
  split_ifs with hcurr
  · refine Inv.rrEnqueueTask ?_
    rw [demote]
    split_ifs with hdem
    · have hlow : prioLowest < prioNums := by decide
      refine h.setTask (by simp only; omega) rfl rfl fun hon => ?_
      exact absurd ⟨hcurr.1, hcurr.2, hdem.1, hdem.2.1, hdem.2.2, hon⟩ hs
    · exact h
  · exact h

theorem putCurr_of_stale (now : UInt64) (hs : rq.Stale) : rq.putCurr now =
    rq.setTask rq.curr fun t => { t with prio := t.prio + 1, consecTicks := 0 } := by
  obtain ⟨hidle, hrun, hticks, hhigh, hlow, hon⟩ := hs
  rw [putCurr, if_pos ⟨hidle, hrun⟩, demote, if_pos ⟨hticks, hhigh, hlow⟩, rrEnqueueTask_of_onRq]
  rw [setTask_self]
  exact hon

theorem Inv.putCurr_marked (now : UInt64) (h : rq.Inv) : (rq.putCurr now).Marked := by
  by_cases hs : rq.Stale
  · rw [putCurr_of_stale now hs]
    exact h.bit_iff
  · exact (h.putCurr hs).bit_iff

theorem Inv.serve (h : rq.Inv) : (rq.serve now level).Inv :=
  h.congr (fun _ => ⟨rfl, rfl, rfl⟩) rfl rfl rfl

theorem Inv.takeFirst (h : rq.Inv) : (rq.takeFirst now).2.Inv := by
  rcases takeFirst_best now h.bit_iff with ⟨-, -, hrq⟩ | ⟨k, p, l, -, -, -, -, hrq⟩
  · rwa [hrq]
  · rw [hrq]
    exact h.rrRemoveTask.serve

/-- **A choice keeps the queue consistent exactly if it is `Fine`**, and then the whole invariant
goes on to hold. -/
theorem Inv.pick_iff (now : UInt64) (h : rq.Inv) :
    ((rq.rrPickNextTask now).2.Consistent → rq.Fine) ∧
      (rq.Fine → (rq.rrPickNextTask now).2.Inv) := by
  by_cases hs : rq.Stale
  · have hput := putCurr_of_stale now hs
    obtain ⟨-, -, -, -, hlow, hon⟩ := id hs
    have hlow' : (rq.tasks rq.curr).prio + 1 < prioNums := by
      have : prioLowest = prioNums - 1 := rfl
      omega
    have hmem : rq.curr ∈ rq.runnable (rq.tasks rq.curr).prio := (h.mem_iff _ _).2 ⟨hon, rfl⟩
    have hmoved := h.takeOff_moved hon
      (f := fun t => { t with prio := t.prio + 1, consecTicks := 0 }) hlow' rfl
    have hfirst := takeFirst_best now (h.putCurr_marked now)
    rw [rrPickNextTask]
    rw [hput] at hfirst ⊢
    rcases hfirst with ⟨-, hnone, -⟩ | ⟨k, p, l, hk, -, hkl, hbest, hrq⟩
    · rw [setTask_runnable] at hnone
      rw [hnone _ (h.prio_lt _)] at hmem
      exact absurd hmem not_mem_nil
    rw [hrq]
    rw [setTask_runnable] at hkl hbest
    obtain ⟨hpon, hpk⟩ := (h.mem_iff k p).1 (by rw [hkl]; exact mem_cons_self)
    rcases eq_or_ne p rq.curr with rfl | hne
    · -- the demoted task itself is taken
      subst hpk
      rw [Rq.rrRemoveTask, if_neg (by rw [setTask_self]; simp [hon])]
      have hfine : rq.Fine ↔ rq.runnable (rq.tasks rq.curr).prio ≠ [rq.curr] := by
        rw [Fine, hkl]
        constructor
        · intro hf
          obtain ⟨q, l', hl'⟩ := (hf hs).1
          simp [hl']
        · intro hl _
          obtain ⟨q, l', rfl⟩ := exists_cons_of_ne_nil (by simpa using hl)
          exact ⟨⟨q, l', rfl⟩, hbest⟩
      rw [hfine]
      constructor
      · intro hc
        refine (hmoved.1 ⟨hc.once, hc.prio_lt, hc.bit_iff, hc.count⟩).resolve_left ?_
        simp
      · intro hl
        exact (hmoved.2 (.inr hl)).serve
    · -- another one is taken, and the demoted task stays on the list of its old level
      constructor
      · intro hc
        refine absurd (hc.once rq.curr ?_ _ hlow') ?_
        · rw [Rq.serve, Rq.rrRemoveTask, if_neg (by rw [setTask_of_ne hne]; simp [hpon]), takeOff_tasks,
            update_of_ne hne.symm, setTask_self]
          exact hon
        · rw [Rq.serve, Rq.rrRemoveTask, if_neg (by rw [setTask_of_ne hne]; simp [hpon]), takeOff_tasks,
            update_of_ne hne.symm, setTask_self, takeOff_runnable, if_pos rfl]
          have hout : rq.curr ∉ rq.runnable ((rq.tasks rq.curr).prio + 1) := fun hin => by
            have := ((h.mem_iff _ _).1 hin).2
            omega
          simp only [setTask_runnable]
          rw [count_eq_zero.2 fun hin => hout (mem_of_mem_erase hin)]
          simp
      · intro hf
        obtain ⟨⟨q, l', hl'⟩, hempty⟩ := hf hs
        rcases Nat.lt_trichotomy k (rq.tasks rq.curr).prio with hlt | heq | hgt
        · rw [hempty k hlt] at hkl
          exact absurd hkl (by simp)
        · rw [heq, hl'] at hkl
          exact absurd (List.cons.inj hkl).1.symm hne
        · rw [hbest _ hgt] at hl'
          exact absurd hl' (by simp)
  · exact ⟨fun _ hs' => absurd hs' hs, fun _ => (h.putCurr hs).takeFirst⟩

/-- Nothing is chosen only from an empty queue, and what is chosen is a task of the best level
that has one. The queue looked at has the current task back on it. -/
def PickSound (rq : Rq) (now : UInt64) : Prop :=
  match (rq.rrPickNextTask now).1 with
  | .null => ∀ k < prioNums, (rq.putCurr now).runnable k = []
  | .task p => ∃ k < prioNums, p ∈ (rq.putCurr now).runnable k ∧
      ∀ j < k, (rq.putCurr now).runnable j = []
  | .listHead _ => False

theorem Inv.pickSound (h : rq.Inv) : rq.PickSound now := by
  rw [PickSound, rrPickNextTask]
  rcases takeFirst_best now (h.putCurr_marked now) with ⟨hnull, hnone, -⟩ | ⟨k, p, l, hk, hp, hkl, hbest, -⟩
  · rw [hnull]
    exact hnone
  · rw [hp]
    exact ⟨k, hk, by rw [hkl]; exact mem_cons_self, hbest⟩

end Rq

end ZzzOs.Sched.Rr
