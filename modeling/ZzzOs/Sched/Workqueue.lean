import ZzzOs.Lib.Ring
import ZzzOs.Lib.Runs

/-!
# The work queue

`queue_work` and `system_work_thread` of `kernel/workqueue.c`, with any number of callers, as single
loads and stores of the list pointers, the `pending` flags and the lock word. `queue_work` tests
`pending` before it takes the lock. The worker gives up the lock before it sleeps, and after `sleep_on`
it deletes the first entry without the lock and without looking again.

Once the one party at the list has made its outstanding stores, the list is a ring (`Inv.listed`). How
often an item was added and taken is counted; these counters are not part of the source.
-/

namespace ZzzOs.Sched.Workqueue

open Function List Lib

/-- A `struct list_head`: that of the queue, or the `entry` of an item. -/
inductive Ptr
  | head
  | entry (w : Nat)
deriving DecidableEq

inductive Party
  | worker
  | caller (c : Nat)
deriving DecidableEq

structure Mem where
  links : Links Ptr
  pending : Nat → Bool
  lock : Bool

inductive Store
  | next (p v : Ptr)
  | prev (p v : Ptr)
  | pending (w : Nat) (b : Bool)
  | unlock
deriving DecidableEq

def Mem.store (m : Mem) : Store → Mem
  | .next p v => { m with links := { m.links with next := update m.links.next p v } }
  | .prev p v => { m with links := { m.links with prev := update m.links.prev p v } }
  | .pending w b => { m with pending := update m.pending w b }
  | .unlock => { m with lock := false }

/-- `list_add_tail` of an item behind `p`, and its `pending` -/
def addStores (w : Nat) (p : Ptr) : List Store :=
  [.next p (.entry w), .prev (.entry w) p, .prev .head (.entry w), .next (.entry w) .head,
    .pending w true]

/-- `list_del` of `n` between `p` and `x`, and its `pending`, in whose place the lock word is found where
the head is taken for an item. -/
def delStores (n p x : Ptr) : List Store :=
  [.next p x, .prev x p, .prev n n, .next n n] ++
    match n with
    | .head => [.unlock]
    | .entry w => [.pending w false]

/-- Where a party is. The worker has the lock, has found the list empty, has given the lock up, sleeps,
has been woken, or has read `work_list.next`. Both have stores to make, and then to unlock. -/
inductive Pc
  | idle
  | tested (w : Nat)
  | locked (w : Nat)
  | waking
  | looking
  | checking
  | empty
  | unlocked
  | asleep
  | woken
  | first (n : Ptr)
  | storing (todo : List Store)
deriving DecidableEq

namespace Pc

def inside : Pc → Bool
  | .locked _ | .checking | .empty | .first _ | .storing _ => true
  | _ => false

/-- Inside, after `list_empty` -/
def removing : Pc → Bool
  | .first _ | .storing _ => true
  | _ => false

/-- `wake_up_process` has no effect on a task that does not sleep. -/
def wake : Pc → Pc
  | .asleep => .woken
  | x => x

def todo : Pc → List Store
  | .storing todo => todo
  | _ => []

end Pc

structure State where
  mem : Mem
  pc : Party → Pc
  queued : Nat → Nat
  taken : Nat → Nat

inductive Act
  | test (c w : Nat)
  | go (q : Party)
  /-- Somebody else calls `wake_up_process`. -/
  | disturb

namespace State

variable (s : State)

def setPc (q : Party) (x : Pc) : State := { s with pc := update s.pc q x }

@[simp] theorem setPc_pc (q : Party) (x : Pc) : (s.setPc q x).pc = update s.pc q x := rfl

def queueWork (c : Nat) : State :=
  match s.pc (.caller c) with
  | .tested w => if s.mem.lock then s else { s with mem.lock := true }.setPc (.caller c) (.locked w)
  | .locked w =>
    { s with queued := update s.queued w (s.queued w + 1) }.setPc (.caller c)
      (.storing (addStores w (s.mem.links.prev .head)))
  | .storing (st :: todo) => { s with mem := s.mem.store st }.setPc (.caller c) (.storing todo)
  | .storing [] => { s with mem.lock := false }.setPc (.caller c) .waking
  | .waking => (s.setPc .worker (s.pc .worker).wake).setPc (.caller c) .idle
  | _ => s

def countTaken : Ptr → Nat → Nat
  | .head => s.taken
  | .entry w => update s.taken w (s.taken w + 1)

def systemWorkThread : State :=
  match s.pc .worker with
  | .looking => if s.mem.lock then s else { s with mem.lock := true }.setPc .worker .checking
  | .checking =>
    let n := s.mem.links.next .head
    s.setPc .worker (if n = .head then .empty else .first n)
  | .empty => { s with mem.lock := false }.setPc .worker .unlocked
  | .unlocked => s.setPc .worker .asleep
  | .woken => s.setPc .worker (.first (s.mem.links.next .head))
  | .first n => { s with taken := s.countTaken n }.setPc .worker
      (.storing (delStores n (s.mem.links.prev n) (s.mem.links.next n)))
  | .storing (st :: todo) => { s with mem := s.mem.store st }.setPc .worker (.storing todo)
  | .storing [] => { s with mem.lock := false }.setPc .worker .looking
  | _ => s

def step : Act → State
  | .test c w =>
    if s.pc (.caller c) = .idle ∧ s.mem.pending w = false then s.setPc (.caller c) (.tested w) else s
  | .go (.caller c) => s.queueWork c
  | .go .worker => s.systemWorkThread
  | .disturb => s.setPc .worker (s.pc .worker).wake

/-- The list is a ring of the pending items. Each time an item was added it was taken once, but for
the last time if it is linked. -/
structure Listed (m : Mem) (L : List Nat) : Prop where
  ring : Ring m.links Ptr.head (L.map .entry)
  pending : ∀ w, m.pending w = true ↔ w ∈ L
  counted : ∀ w, s.queued w = s.taken w + L.count w

def Busy (q : Party) : Prop := (s.pc q).inside = true ∨ s.pc q = .waking

/-- The parties are at the list one at a time, and between their stores it is right. The worker
sleeps only if there is nothing to do, or somebody is about to wake it. -/
structure Sound : Prop where
  alone : ∀ q r, (s.pc q).inside = true → (s.pc r).inside = true → q = r
  listed : (∀ q, (s.pc q).todo = []) → ∃ L, s.Listed s.mem L
  served : s.pc .worker = .asleep → (∀ q, ¬ s.Busy q) → s.mem.links.next .head = .head

/-- No linked item is added, and what the worker takes is a pending one. -/
def Proper : Act → Prop
  | .go (.caller c) =>
    match s.pc (.caller c) with
    | .locked w => s.mem.links.next (.entry w) = .entry w
    | _ => True
  | .go .worker =>
    match s.pc .worker with
    | .first n => ∃ w, n = .entry w ∧ s.mem.pending w = true
    | _ => True
  | _ => True

/-- A caller takes the lock only while the worker is not at a removal without it, and the item is still
not pending when it is added. When the worker goes to sleep, the list is empty or a caller is on its way
to wake it. When it has been woken, the lock is free, and what it then reads is not the head. -/
def Fine : Act → Prop
  | .go (.caller c) =>
    match s.pc (.caller c) with
    | .tested _ => s.mem.lock = false → (s.pc .worker).removing = false
    | .locked w => s.mem.pending w = false
    | _ => True
  | .go .worker =>
    match s.pc .worker with
    | .unlocked => s.mem.links.next .head = .head ∨ ∃ q, s.Busy q
    | .woken => s.mem.lock = false
    | .first n => n ≠ .head
    | _ => True
  | _ => True

/-- The memory once the party has made its outstanding stores -/
def settle (q : Party) : Mem := (s.pc q).todo.foldl Mem.store s.mem

def Served (L : List Nat) : Prop := s.pc .worker = .asleep → (∀ q, ¬ s.Busy q) → L = []

end State

/-- What a party at the list knows of it. -/
def Pc.Knows (L : List Nat) : Pc → Prop
  | .first n => n = (L.map Ptr.entry).headD .head
  | .storing todo => .unlock ∉ todo
  | _ => True

namespace State

variable {s s' : State} {p q r : Party} {L rest : List Nat} {x : Pc} {m m' : Mem} {w : Nat}

/-- Only `p` is at the list, under the lock unless it is the worker after `sleep_on`, and the list is
right once `p` has made its stores. -/
structure Inv (s : State) (p : Party) (L : List Nat) : Prop where
  alone : ∀ q, (s.pc q).inside = true → q = p
  listed : s.Listed (s.settle p) L
  knows : (s.pc p).Knows L
  lock : s.mem.lock = (s.pc p).inside ∨ p = .worker ∧ (s.pc p).removing = true
  served : s.Served L

theorem todo_of_not_inside (hx : x.inside = false) : x.todo = [] := by
  cases x <;> first | rfl | cases hx

theorem inside_of_removing (hx : x.removing = true) : x.inside = true := by
  cases x <;> first | rfl | cases hx

theorem wake_ne_asleep : x.wake ≠ .asleep := by
  cases x <;> exact nofun

theorem knows_of_not_inside (hx : x.inside = false) : x.Knows L := by
  cases x <;> trivial

section

variable (h : s.Listed m L)

include h

theorem Listed.congr (hlinks : m'.links = m.links) (hpending : m'.pending = m.pending)
    (hqueued : s'.queued = s.queued) (htaken : s'.taken = s.taken) : s'.Listed m' L := by
  refine ⟨?_, ?_, ?_⟩
  · rw [hlinks]
    exact h.ring
  · rw [hpending]
    exact h.pending
  · rw [hqueued, htaken]
    exact h.counted

theorem Listed.next_head_iff : m.links.next .head = .head ↔ L = [] := by
  rw [Ring.next_head h.ring]
  cases L <;> simp

theorem Listed.unlinked_iff : m.links.next (.entry w) = .entry w ↔ w ∉ L := by
  rw [h.ring.next_eq_self_iff (by simp)]
  simp

/-- `list_add_tail` -/
theorem Listed.add (hw : w ∉ L) (hs' : s'.queued = update s.queued w (s.queued w + 1))
    (htaken : s'.taken = s.taken) :
    s'.Listed ((addStores w (m.links.prev .head)).foldl Mem.store m) (L ++ [w]) := by
  refine ⟨?_, fun v => ?_, fun v => ?_⟩
  · rw [map_append]
    exact Ring.addTail h.ring nofun (by simpa using hw)
  · change update m.pending w true v = true ↔ _
    rw [mem_append, mem_singleton]
    refine update_cases (fun hv => iff_of_true rfl (.inr hv)) fun hv => ?_
    rw [h.pending v, or_iff_left hv]
  · rw [hs', htaken, count_append, count_singleton]
    refine update_cases (fun hv => ?_) fun hv => ?_
    · rw [← hv, h.counted v, if_pos (beq_self_eq_true v), Nat.add_assoc]
    · rw [h.counted v, if_neg (by simpa using Ne.symm hv), Nat.add_zero]

end

/-- `list_del` of the first entry -/
theorem Listed.del (h : s.Listed m (w :: rest)) (hqueued : s'.queued = s.queued)
    (hs' : s'.taken = update s.taken w (s.taken w + 1)) :
    s'.Listed ((delStores (.entry w) (m.links.prev (.entry w))
      (m.links.next (.entry w))).foldl Mem.store m) rest := by
  have hnodup : (w :: rest).Nodup := (h.ring.nodup ()).of_map _
  refine ⟨?_, fun v => ?_, fun v => ?_⟩
  · exact Ring.unlink_head h.ring
  · have hold := h.pending v
    change update m.pending w false v = true ↔ _
    rw [mem_cons] at hold
    refine update_cases (fun hv => ?_) fun hv => ?_
    · exact iff_of_false Bool.false_ne_true (hv ▸ (nodup_cons.1 hnodup).1)
    · rw [hold, or_iff_right hv]
  · have hold := h.counted v
    rw [hqueued, hs']
    rw [count_cons] at hold
    refine update_cases (fun hv => ?_) fun hv => ?_
    · rw [hold, hv, if_pos (beq_self_eq_true w)]
      omega
    · rw [hold, if_neg (by simpa using Ne.symm hv), Nat.add_zero]

/-- The party `q` moves on, and nobody else is at the list. -/
theorem inv_of_others (hothers : ∀ r, r ≠ q → (s.pc r).inside = false)
    (hpc : s'.pc = update s.pc q x) (hlisted : s'.Listed (x.todo.foldl Mem.store s'.mem) L)
    (hknows : x.Knows L) (hlock : s'.mem.lock = x.inside ∨ q = .worker ∧ x.removing = true)
    (hserved : s'.Served L) : s'.Inv q L := by
  have hself : s'.pc q = x := by rw [hpc, update_self]
  refine ⟨fun r hr => ?_, ?_, ?_, ?_, hserved⟩
  · by_contra hne
    rw [hpc, update_of_ne hne, hothers r hne] at hr
    cases hr
  · rwa [settle, hself]
  · rwa [hself]
  · rwa [hself]

section

variable (h : s.Inv p L)

include h

theorem Inv.listed_mem (hp : (s.pc p).todo = []) : s.Listed s.mem L := by
  have hlisted := h.listed
  rwa [settle, hp] at hlisted

theorem Inv.sound : s.Sound := by
  refine ⟨fun q r hq hr => (h.alone q hq).trans (h.alone r hr).symm,
    fun hnone => ⟨L, h.listed_mem (hnone p)⟩, fun hasleep hidle => ?_⟩
  have hp : (s.pc p).inside = false := by simpa using fun hin => hidle p (.inl hin)
  exact (h.listed_mem (todo_of_not_inside hp)).next_head_iff.2 (h.served hasleep hidle)

/-- Nobody but a party at the list is there; and if `p` is not, nobody is. -/
theorem Inv.others (hq : (s.pc q).inside = true ∨ (s.pc p).inside = false) (hr : r ≠ q) :
    (s.pc r).inside = false := by
  by_contra hin
  have hrp := h.alone r (by simpa using hin)
  rcases hq with hq | hp
  · exact hr (hrp.trans (h.alone q hq).symm)
  · exact hin (hrp ▸ hp)

/-- The lock word is clear only while nobody is at the list, or the worker is without the lock. -/
theorem Inv.outside (hlock : s.mem.lock = false) (hrem : (s.pc .worker).removing = false) :
    (s.pc p).inside = false := by
  rcases h.lock with hp | ⟨rfl, hp⟩
  · rw [← hp, hlock]
  · cases hrem.symm.trans hp

/-- A party moves that is at the list or comes to it, and does not write to the list. -/
theorem Inv.move (hq : (s.pc q).inside = true ∨ (s.pc p).inside = false) (hp : (s.pc p).todo = [])
    (b : Bool) (hx : x.todo = []) (hknows : x.Knows L)
    (hlock : b = x.inside ∨ q = .worker ∧ x.removing = true)
    (hserved : ({ s with mem.lock := b }.setPc q x).Served L) :
    ({ s with mem.lock := b }.setPc q x).Inv q L := by
  refine inv_of_others (fun r => h.others hq) rfl ?_ hknows hlock hserved
  rw [hx]
  exact (h.listed_mem hp).congr rfl rfl rfl rfl

/-- A party that is not at the list moves, and does not come to it. -/
theorem Inv.keep (hq : (s.pc q).inside = false) (hx : x.inside = false)
    (hserved : (s.setPc q x).Served L) : (s.setPc q x).Inv p L := by
  by_cases hp : p = q
  · subst hp
    refine h.move (.inr hq) (todo_of_not_inside hq) _ (todo_of_not_inside hx) (knows_of_not_inside hx)
      (.inl ?_) hserved
    rcases h.lock with hlock | ⟨-, hrem⟩
    · rw [hlock, hq, hx]
    · cases hq.symm.trans (inside_of_removing hrem)
  · have hself : (s.setPc q x).pc p = s.pc p := update_of_ne hp ..
    refine ⟨fun r hr => h.alone r ?_, ?_, hself ▸ h.knows, hself ▸ h.lock, hserved⟩
    · by_cases hrq : r = q
      · rw [hrq, setPc_pc, update_self, hx] at hr
        cases hr
      · rwa [setPc_pc, update_of_ne hrq] at hr
    · rw [settle, hself]
      exact h.listed.congr rfl rfl rfl rfl

/-- A party unlocks. -/
theorem Inv.unlock (hin : (s.pc q).inside = true) (htodo : (s.pc q).todo = []) (hx : x.inside = false)
    (hserved : ({ s with mem.lock := false }.setPc q x).Served L) :
    ({ s with mem.lock := false }.setPc q x).Inv q L := by
  obtain rfl := h.alone q hin
  exact h.move (.inl hin) htodo _ (todo_of_not_inside hx) (knows_of_not_inside hx) (.inl hx.symm) hserved

/-- A party makes its next store. -/
theorem Inv.store {st : Store} {todo : List Store} (hpc : s.pc q = .storing (st :: todo)) :
    ({ s with mem := s.mem.store st }.setPc q (.storing todo)).Inv q L := by
  have hin : (s.pc q).inside = true := by rw [hpc]; rfl
  obtain rfl := h.alone q hin
  have hknows := h.knows
  have hlisted := h.listed
  have hlock := h.lock
  rw [settle, hpc] at hlisted
  rw [hpc] at hknows hlock
  obtain ⟨hst, htodo⟩ := not_or.1 (mem_cons.not.1 hknows)
  have hlocked : (s.mem.store st).lock = s.mem.lock := by
    cases st <;> first | rfl | exact absurd rfl hst
  refine inv_of_others (fun r => h.others (.inl hin)) rfl (hlisted.congr rfl rfl rfl rfl) htodo
    (hlock.imp_left hlocked.trans) fun _ hidle => absurd (.inl ?_) (hidle q)
  simp [setPc, Pc.inside]

/-- `wake_up_process` of the worker -/
theorem Inv.woken : (s.setPc .worker (s.pc .worker).wake).Inv p L := by
  by_cases hpc : s.pc .worker = .asleep
  · exact h.keep (by rw [hpc]; rfl) (by rw [hpc]; rfl) fun hasleep =>
      absurd hasleep (by simp [setPc, wake_ne_asleep])
  · have hwake : (s.pc .worker).wake = s.pc .worker := by
      cases hx : s.pc .worker <;> first | rfl | exact absurd hx hpc
    rw [hwake, setPc, update_eq_self]
    exact h

theorem queueWork_iff (c : Nat) :
    (s.Proper (.go (.caller c)) → (s.queueWork c).Sound → s.Fine (.go (.caller c))) ∧
      (s.Fine (.go (.caller c)) → s.Proper (.go (.caller c)) ∧ ∃ p L, (s.queueWork c).Inv p L) := by
  have hserved {s' : State} {x : Pc} {L : List Nat} (hpc : s'.pc = update s.pc (.caller c) x)
      (hx : x.inside = true ∨ x = .waking) : s'.Served L := fun _ hidle =>
    absurd (by rwa [Busy, hpc, update_self]) (hidle (.caller c))
  rw [queueWork]
  unfold Proper Fine
  dsimp only
  cases hpc : s.pc (.caller c) with
  | tested w =>
    split_ifs with hlock
    · exact ⟨fun _ _ hfree => absurd (hfree.symm.trans hlock) Bool.false_ne_true,
        fun _ => ⟨trivial, p, L, h⟩⟩
    · refine ⟨fun _ hsound hfree => ?_, fun hfine => ⟨trivial, .caller c, L, ?_⟩⟩
      · by_contra hrem
        have := hsound.alone .worker (.caller c)
          (inside_of_removing (by simpa [setPc] using hrem)) (by simp [setPc, Pc.inside])
        cases this
      · have hfree : s.mem.lock = false := by simpa using hlock
        have hp := h.outside hfree (hfine hfree)
        exact h.move (.inr hp) (todo_of_not_inside hp) true rfl trivial (.inl rfl) (hserved rfl (.inl rfl))
  | locked w =>
    have hin : (s.pc (.caller c)).inside = true := by rw [hpc]; rfl
    obtain rfl := h.alone _ hin
    have hlisted := h.listed_mem (by rw [hpc]; rfl)
    have hlock := h.lock.resolve_right nofun
    have hiff : s.mem.pending w = false ↔ w ∉ L := by rw [← hlisted.pending w, Bool.not_eq_true]
    dsimp only
    rw [hlisted.unlinked_iff, hiff]
    refine ⟨fun hout _ => hout, fun hout => ⟨hout, .caller c, L ++ [w], ?_⟩⟩
    exact inv_of_others (fun r => h.others (.inl hin)) rfl (hlisted.add hout rfl rfl)
      (by simp [Pc.Knows, addStores]) (.inl (hlock.trans hin)) (hserved rfl (.inl rfl))
  | storing todo =>
    refine always_fine ⟨.caller c, L, ?_⟩
    cases todo with
    | nil => exact h.unlock (by rw [hpc]; rfl) (by rw [hpc]; rfl) rfl (hserved rfl (.inr rfl))
    | cons st todo => exact h.store hpc
  | waking =>
    refine always_fine ⟨p, L, h.woken.keep ?_ rfl fun hasleep => ?_⟩
    · simp [setPc, hpc, Pc.inside]
    · exact absurd hasleep (by simp [setPc, wake_ne_asleep])
  | _ => exact always_fine ⟨p, L, h⟩

theorem systemWorkThread_iff :
    (s.Proper (.go .worker) → s.systemWorkThread.Sound → s.Fine (.go .worker)) ∧
      (s.Fine (.go .worker) → s.Proper (.go .worker) ∧ ∃ p L, s.systemWorkThread.Inv p L) := by
  have hserved {s' : State} {x : Pc} {L : List Nat} (hpc : s'.pc = update s.pc .worker x)
      (hx : x ≠ .asleep) : s'.Served L := fun hasleep => absurd hasleep (by rwa [hpc, update_self])
  rw [systemWorkThread]
  unfold Proper Fine
  cases hpc : s.pc .worker with
  | looking =>
    refine always_fine ?_
    split_ifs with hlock
    · exact ⟨p, L, h⟩
    · have hp := h.outside (by simpa using hlock) (by rw [hpc]; rfl)
      exact ⟨.worker, L, h.move (.inr hp) (todo_of_not_inside hp) true rfl trivial (.inl rfl)
        (hserved rfl nofun)⟩
  | checking =>
    have hin : (s.pc .worker).inside = true := by rw [hpc]; rfl
    obtain rfl := h.alone _ hin
    have htodo : (s.pc .worker).todo = [] := by rw [hpc]; rfl
    have hlock := h.lock.resolve_right (by simp [hpc, Pc.removing])
    refine always_fine ⟨.worker, L, ?_⟩
    dsimp only
    split_ifs
    · exact h.move (.inl hin) htodo _ rfl trivial (.inl (hlock.trans hin)) (hserved rfl nofun)
    · exact h.move (.inl hin) htodo _ rfl (Ring.next_head (h.listed_mem htodo).ring) (.inr ⟨rfl, rfl⟩)
        (hserved rfl nofun)
  | empty =>
    exact always_fine ⟨.worker, L,
      h.unlock (by rw [hpc]; rfl) (by rw [hpc]; rfl) rfl (hserved rfl nofun)⟩
  | unlocked =>
    have hbusy (q : Party) : (s.setPc .worker .asleep).Busy q ↔ s.Busy q := by
      by_cases hq : q = .worker
      · simp [Busy, hq, hpc, Pc.inside]
      · simp [Busy, update_of_ne hq]
    refine ⟨fun _ hsound => ?_, fun hfine => ⟨trivial, p, L, h.keep (by rw [hpc]; rfl) rfl fun _ hidle => ?_⟩⟩
    · have hsound : (s.setPc .worker .asleep).Sound := hsound
      rw [or_iff_not_imp_right]
      exact fun hnone => hsound.served (by simp) fun q hq => hnone ⟨q, (hbusy q).1 hq⟩
    · have hnone (q : Party) : ¬ s.Busy q := fun hq => hidle q ((hbusy q).2 hq)
      have hp : (s.pc p).inside = false := by simpa using fun hin => hnone p (.inl hin)
      exact (h.listed_mem (todo_of_not_inside hp)).next_head_iff.1 (hfine.resolve_right fun ⟨q, hq⟩ => hnone q hq)
  | woken =>
    have hout : (s.pc .worker).inside = false := by rw [hpc]; rfl
    refine ⟨fun _ hsound => ?_, fun hfree => ⟨trivial, .worker, L, ?_⟩⟩
    · -- who has the lock is at the list, and the worker would join them
      have hsound : (s.setPc .worker (.first (s.mem.links.next .head))).Sound := hsound
      rcases h.lock with hlock | ⟨rfl, hrem⟩
      · rw [hlock]
        by_contra hin
        have hp : p ≠ .worker := by
          rintro rfl
          exact hin hout
        refine hp (hsound.alone _ _ ?_ ?_)
        · rwa [setPc_pc, update_of_ne hp, ← Bool.not_eq_false]
        · rw [setPc_pc, update_self]
          rfl
      · cases hout.symm.trans (inside_of_removing hrem)
    · have hp := h.outside hfree (by rw [hpc]; rfl)
      have htodo := todo_of_not_inside hp
      exact h.move (.inr hp) htodo _ rfl (Ring.next_head (h.listed_mem htodo).ring) (.inr ⟨rfl, rfl⟩)
        (hserved rfl nofun)
  | first n =>
    have hin : (s.pc .worker).inside = true := by rw [hpc]; rfl
    obtain rfl := h.alone _ hin
    have hknows := h.knows
    have hlisted := h.listed_mem (by rw [hpc]; rfl)
    rw [hpc] at hknows
    refine ⟨fun ⟨w, hw, _⟩ _ => hw ▸ nofun, fun hn => ?_⟩
    cases L with
    | nil => exact absurd hknows hn
    | cons w rest =>
      obtain rfl : n = .entry w := hknows
      refine ⟨⟨w, rfl, (hlisted.pending w).2 mem_cons_self⟩, .worker, rest, ?_⟩
      exact inv_of_others (fun r => h.others (.inl hin)) rfl (hlisted.del rfl rfl)
        (by simp [Pc.Knows, delStores]) (.inr ⟨rfl, rfl⟩) (hserved rfl nofun)
  | storing todo =>
    refine always_fine ⟨.worker, L, ?_⟩
    cases todo with
    | nil => exact h.unlock (by rw [hpc]; rfl) (by rw [hpc]; rfl) rfl (hserved rfl nofun)
    | cons st todo => exact h.store hpc
  | _ => exact always_fine ⟨p, L, h⟩

theorem step_iff (a : Act) : (s.Proper a → (s.step a).Sound → s.Fine a) ∧
    (s.Fine a → s.Proper a ∧ ∃ p L, (s.step a).Inv p L) := by
  cases a with
  | test c w =>
    refine always_fine ⟨p, L, ?_⟩
    rw [step]
    split_ifs with htest
    · refine h.keep (by rw [htest.1]; rfl) rfl fun hasleep hidle => h.served hasleep fun q hq => hidle q ?_
      by_cases hqc : q = .caller c
      · rw [Busy, hqc, htest.1] at hq
        simp [Pc.inside] at hq
      · rwa [Busy, setPc_pc, update_of_ne hqc]
    · exact h
  | go q =>
    cases q with
    | worker => exact systemWorkThread_iff h
    | caller c => exact queueWork_iff h c
  | disturb => exact always_fine ⟨p, L, h.woken⟩

end

/-- Nothing is queued. -/
def idle : State where
  mem := ⟨⟨id, id⟩, fun _ => false, false⟩
  pc
    | .worker => .looking
    | .caller _ => .idle
  queued _ := 0
  taken _ := 0

theorem idle_inv : idle.Inv .worker [] := by
  refine ⟨fun q hq => ?_, ⟨.empty, fun _ => ?_, fun _ => rfl⟩, trivial, .inl rfl, nofun⟩
  · cases q <;> cases hq
  · exact iff_of_false Bool.false_ne_true not_mem_nil

/-- **The work queue.** In every interleaving the items are linked once and taken once, the worker takes
only queued items, and does not sleep when there is one, if and only if every step meets the condition.
-/
theorem queued_once_iff_fineRun (acts : List Act) :
    Along step Sound Proper acts idle ↔ FineRun step Fine acts idle := by
  refine along_iff (fun s => ∃ p L, s.Inv p L) ?_ ?_ acts ⟨_, _, idle_inv⟩
  · rintro s ⟨p, L, h⟩
    exact h.sound
  · rintro s a ⟨p, L, h⟩
    exact step_iff h a

/-- The worker makes `n` steps: 4 to find the list empty and sleep, 8 to take an item. -/
def works (n : Nat) : List Act := replicate n (.go .worker)

/-- The rest of a `queue_work` after the test -/
def queues (c : Nat) : List Act := replicate 9 (.go (.caller c))

/-- The worker sleeps, an item is queued, and the worker is woken and takes it. -/
theorem work_taken :
    let acts := works 4 ++ .test 0 7 :: queues 0 ++ works 8
    Along step Sound Proper acts idle ∧ (acts.foldl step idle).taken 7 = 1 := by
  refine ⟨(queued_once_iff_fineRun _).2 ?_, by decide⟩
  simp only [works, queues, FineRun]
  repeat' apply And.intro
  all_goals first | exact trivial | exact .inl rfl | exact rfl | exact fun _ => rfl | exact nofun

/-- After a wake-up for nothing the worker takes the head of the empty list; two callers link one item;
and an item that is added while the worker deletes another without the lock is on no list. -/
theorem work_lost : ¬ Along step Sound Proper (works 4 ++ .disturb :: works 1 ++ [.go .worker]) idle ∧
    ¬ Along step Sound Proper
      (.test 0 7 :: .test 1 7 :: queues 0 ++ [.go (.caller 1)] ++ [.go (.caller 1)]) idle ∧
    let acts := works 4 ++ .test 0 7 :: queues 0 ++ works 2 ++ .test 1 8 :: queues 1 ++ works 6
    ¬ Along step Sound Proper acts idle ∧ (acts.foldl step idle).mem.links.next .head = .head ∧
      (acts.foldl step idle).mem.pending 8 = true := by
  refine ⟨fun h => ?_, fun h => ?_, fun h => ?_, by decide, by decide⟩
  · obtain ⟨w, hw, -⟩ := Along.proper h
    cases (hw : Ptr.head = .entry w)
  · cases (Along.proper h : Ptr.head = .entry 7)
  · have hsound := Along.last h
    obtain ⟨L, hL⟩ := hsound.listed (by rintro (_ | _ | _ | c) <;> rfl)
    have hmem := (hL.pending 8).1 (by decide)
    rw [hL.next_head_iff.1 (by decide)] at hmem
    cases hmem

end State

end ZzzOs.Sched.Workqueue
