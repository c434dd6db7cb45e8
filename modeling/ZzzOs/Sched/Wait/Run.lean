import ZzzOs.Sched.Wait.Model
import ZzzOs.Lib.Runs

/-!
# The rings of the wait queues along a run

`State.Consistent`: the wait nodes form disjoint rings, one for each queue, and the node of a task in
user mode or of one that is gone is on none. The rings stay rings if the adding of a node finds it
unlinked (`rings_iff_fineRun`). It does where the sleepers of `sleep_on` and `mutex_lock` go on only
after a walk over their queue has taken the node out: `rings_of_taken`.
-/

namespace ZzzOs.Sched.Wait

open Nat List Function Lib

/-- A task in user mode or gone -/
def Pc.Outside (pc : Pc) : Prop := pc = .user ∨ pc = .exited

namespace State

variable {s s' s'' : State} {L L' L'' : Queue → List Ptr} {t fuel u : Nat} {rest done : List Ptr}
  {x : Ptr} {p : Pc} {q : Queue}

/-- The nodes linked in the queues are those of `L`: each at most once and in at most one queue,
every queue a ring that leads back to its head, and no node of a task outside the kernel. -/
structure Queued (s : State) (L : Queue → List Ptr) : Prop where
  rings : Rings s.links Ptr.head L
  outside : ∀ t, (s.pc t).Outside → ∀ q, Ptr.node t ∉ L q

def Consistent (s : State) : Prop := s.stuck = false ∧ ∃ L, s.Queued L

/-- `Consistent`, with the bound for the walks. -/
structure Inv (s : State) (L : Queue → List Ptr) : Prop where
  queued : s.Queued L
  length_le : ∀ q, (L q).length ≤ s.added
  stuck : s.stuck = false

theorem Inv.consistent (h : s.Inv L) : s.Consistent := ⟨h.stuck, L, h.queued⟩

theorem Queued.unlinked_iff (h : s.Queued L) : s.unlinked t ↔ ∀ q, Ptr.node t ∉ L q :=
  h.rings.next_eq_self_iff fun q => by simp

/-! ## Walks -/

/-- What a walk leaves: some nodes fewer, nothing else. -/
structure Shrinks (s : State) (L : Queue → List Ptr) (s' : State) (L' : Queue → List Ptr) :
    Prop where
  rings : Rings s'.links Ptr.head L'
  sub : ∀ q, L' q ⊆ L q
  length_le : ∀ q, (L' q).length ≤ (L q).length
  pc : s'.pc = s.pc
  added : s'.added = s.added
  stuck : s'.stuck = s.stuck

theorem Shrinks.refl (h : Rings s.links Ptr.head L) : Shrinks s L s L :=
  ⟨h, fun _ => List.Subset.refl _, fun _ => le_refl _, rfl, rfl, rfl⟩

theorem Shrinks.trans (h : Shrinks s L s' L')
    (h' : Shrinks s' L' s'' L'') : Shrinks s L s'' L'' :=
  ⟨h'.rings, fun q => List.Subset.trans (h'.sub q) (h.sub q), fun q => (h'.length_le q).trans (h.length_le q),
    h'.pc.trans h.pc, h'.added.trans h.added, h'.stuck.trans h.stuck⟩

theorem Shrinks.inv (h : Shrinks s L s' L') (hi : s.Inv L) : s'.Inv L' := by
  refine ⟨⟨h.rings, fun t ht q hin => ?_⟩, fun q => ?_, h.stuck.trans hi.stuck⟩
  · rw [h.pc] at ht
    exact hi.queued.outside t ht q (h.sub q hin)
  · rw [h.added]
    exact (h.length_le q).trans (hi.length_le q)

theorem Shrinks.unlinked (h : Shrinks s L s' L') (hr : Rings s.links Ptr.head L) (ht : s.unlinked t) :
    s'.unlinked t := by
  have hout := (hr.next_eq_self_iff fun q => by simp).1 ht
  exact (h.rings.next_eq_self_iff fun q => by simp).2 fun q hin => hout q (h.sub q hin)

theorem shrinks_unlink (seen : List Nat) (h : Rings s.links Ptr.head L) (hin : Ptr.node t ∈ L q) :
    Shrinks s L { s with links := s.links.unlink (.node t), seen := seen }
      (update L q ((L q).erase (.node t))) := by
  refine ⟨h.unlink hin, fun k => ?_, fun k => ?_, rfl, rfl, rfl⟩
  · exact update_cases (fun hk => hk ▸ erase_subset) fun _ => List.Subset.refl _
  · exact update_cases (fun hk => hk ▸ length_erase_le) fun _ => le_refl _

theorem next_eq_head (h : Rings s.links Ptr.head L)
    (hL : L q = done ++ x :: rest) : s.links.next x = rest.headD (.head q) := by
  have hpath := h.path q
  rw [hL, Path.append_iff] at hpath
  cases rest with
  | nil => exact hpath.2.1
  | cons y rest => exact hpath.2.1

theorem node_of_mem (h : Rings s.links Ptr.head L) (hx : x ∈ L q) : ∃ t, x = .node t := by
  cases x with
  | head k => exact absurd hx (h.head_not k q)
  | node t => exact ⟨t, rfl⟩

/-- A walk ends at the head of its queue; it passes a task by, or wakes it and goes on or ends. -/
structure Walks (q : Queue) (visit : Queue → Nat → Ptr → Ptr → State → Option State) : Prop where
  stop : ∀ {fuel tmp s}, visit q (fuel + 1) (.head q) tmp s = some s
  node : ∀ fuel t tmp s, let r := visit q (fuel + 1) (.node t) tmp s
    r = visit q fuel tmp (s.links.next tmp) s ∨ r = some (s.wakeNode t) ∨
      r = visit q fuel tmp ((s.wakeNode t).links.next tmp) (s.wakeNode t)

theorem walks_wakeUpAllFrom (q : Queue) : Walks q wakeUpAllFrom := by
  refine ⟨if_pos rfl, fun fuel t tmp s => ?_⟩
  by_cases hs : s.status t = .sleeping
  · exact .inr (.inr (by simp [wakeUpAllFrom, hs]))
  · exact .inl (by simp [wakeUpAllFrom, hs])

theorem walks_wakeUpOneFrom (q : Queue) : Walks q wakeUpOneFrom := by
  refine ⟨if_pos rfl, fun fuel t tmp s => ?_⟩
  by_cases hs : s.status t = .sleeping
  · exact .inr (.inl (by simp [wakeUpOneFrom, hs]))
  · exact .inl (by simp [wakeUpOneFrom, hs])

section

variable {q : Queue} {visit : Queue → Nat → Ptr → Ptr → State → Option State} (hw : Walks q visit)

include hw

/-- A walk on a ring comes to its end. It stands before `rest`, and `done` is what it has left in
the queue behind it. -/
theorem Walks.spec (done : List Ptr)
    (h : Rings s.links Ptr.head L) (hL : L q = done ++ rest) (hfuel : rest.length < fuel) :
    ∃ s' L', visit q fuel (rest.headD (.head q)) (s.links.next (rest.headD (.head q))) s = some s' ∧
      Shrinks s L s' L' := by
  induction rest generalizing s L done fuel with
  | nil =>
    obtain ⟨fuel, rfl⟩ := exists_eq_succ_of_ne_zero (ne_of_gt hfuel)
    exact ⟨s, L, hw.stop, .refl h⟩
  | cons x rest ih =>
    obtain ⟨fuel, rfl⟩ := exists_eq_succ_of_ne_zero (ne_of_gt (zero_lt_of_lt hfuel))
    have hfuel' : rest.length < fuel := by simpa using hfuel
    have hx : x ∈ L q := by simp [hL]
    obtain ⟨t, rfl⟩ := node_of_mem h hx
    have hshrink := shrinks_unlink (t :: s.seen) h hx
    rw [headD_cons, next_eq_head h hL]
    rcases hw.node fuel t (rest.headD (.head q)) s with he | he | he
    · rw [he]
      exact ih (done ++ [.node t]) h (by simp [hL]) hfuel'
    · exact ⟨_, _, he, hshrink⟩
    · have hnotin : Ptr.node t ∉ done := fun hin => by
        have := h.nodup q
        rw [hL] at this
        exact (nodup_append.1 this).2.2 _ hin _ mem_cons_self rfl
      have hL' : update L q ((L q).erase (.node t)) q = done ++ rest := by
        rw [update_self, hL, erase_append_right _ hnotin, erase_cons_head]
      obtain ⟨s', L', hs', hsh⟩ := ih done hshrink.rings hL' hfuel'
      exact ⟨s', L', he.trans hs', hshrink.trans hsh⟩

theorem Inv.walk (hi : s.Inv L) : ∃ L', Shrinks s L (s.walk q visit) L' := by
  rw [State.walk]
  split
  · exact ⟨L, .refl hi.queued.rings⟩
  · have hfirst : s.links.next (.head q) = (L q).headD (.head q) := by
      have hpath := hi.queued.rings.path q
      revert hpath
      cases L q with
      | nil | cons => exact fun hpath => hpath.1
    obtain ⟨s', L', hs', hsh⟩ := hw.spec [] hi.queued.rings rfl (lt_succ_of_le (hi.length_le q))
    dsimp only
    rw [hfirst, hs']
    exact ⟨L', hsh⟩

end

/-! ## One step -/

/-- The node has to be unlinked when it is added, and when the task leaves the kernel. -/
def Fine (s : State) : Act → Prop
  | .add t => (∃ how, s.pc t = .adding how) → s.unlinked t
  | .leave t => s.pc t = .kernel → s.unlinked t
  | .exit t => s.pc t = .kernel → s.unlinked t
  | _ => True

/-- Steps that touch no pointer, and put no task outside the kernel -/
theorem Inv.keep (hi : s.Inv L) (hlinks : s'.links = s.links)
    (hpc : ∀ t, (s'.pc t).Outside → (s.pc t).Outside) (hadded : s'.added = s.added)
    (hstuck : s'.stuck = s.stuck) : s'.Inv L := by
  refine ⟨⟨?_, fun t ht => hi.queued.outside t (hpc t ht)⟩, fun q => ?_, hstuck.trans hi.stuck⟩
  · rw [hlinks]
    exact hi.queued.rings
  · rw [hadded]
    exact hi.length_le q

theorem outside_update {pc : Nat → Pc} (hp : ¬ p.Outside)
    (hu : (update pc t p u).Outside) : (pc u).Outside := by
  revert hu
  exact update_cases (fun _ hu => absurd hu hp) fun _ => id

theorem Inv.outside_iff (hi : s.Inv L) (s' : State) (t : Nat)
    (hp : p.Outside) (hlinks : s'.links = s.links)
    (hpc : s'.pc = update s.pc t p) (hadded : s'.added = s.added)
    (hstuck : s'.stuck = s.stuck) :
    (s'.Consistent → s.unlinked t) ∧ (s.unlinked t → s'.Inv L) := by
  constructor
  · rintro ⟨-, L', hq⟩
    have hout := hq.outside t (by rw [hpc, update_self]; exact hp)
    have := hq.unlinked_iff.2 hout
    rwa [unlinked, hlinks] at this
  · intro hun
    refine ⟨⟨?_, fun u hu q => ?_⟩, fun q => ?_, hstuck.trans hi.stuck⟩
    · rw [hlinks]
      exact hi.queued.rings
    · rw [hpc] at hu
      revert hu
      refine update_cases (fun hut _ => ?_) fun _ hu => hi.queued.outside u hu q
      exact hut ▸ hi.queued.unlinked_iff.1 hun q
    · rw [hadded]
      exact hi.length_le q

theorem Inv.add_iff (hi : s.Inv L) {how : How} (hpc : s.pc t = .adding how) :
    ((s.step (.add t)).Consistent → s.unlinked t) ∧
      (s.unlinked t → ∃ L', (s.step (.add t)).Inv L') := by
  rw [step, hpc]
  constructor
  · rintro ⟨-, L', hq⟩
    rw [hi.queued.unlinked_iff]
    intro q hin
    exact hi.queued.rings.not_addTail hin L' hq.rings
  · intro hun
    have hout := hi.queued.unlinked_iff.1 hun
    refine ⟨_, ⟨hi.queued.rings.addTail (fun k => by simp) hout, fun u hu q hin => ?_⟩,
      fun q => ?_, hi.stuck⟩
    · have hne : u ≠ t := by
        rintro rfl
        simp [setPc, Pc.Outside] at hu
      have hu' : (s.pc u).Outside := outside_update (by simp [Pc.Outside]) hu
      refine hi.queued.outside u hu' q ?_
      rcases eq_or_ne q (how.queue t) with rfl | hq
      · rw [update_self, mem_append, mem_singleton] at hin
        exact hin.resolve_right (by simpa using hne)
      · rwa [update_of_ne hq] at hin
    · refine update_cases (fun _ => ?_) fun _ => (hi.length_le q).trans (le_succ _)
      rw [length_append, length_singleton]
      exact succ_le_succ (hi.length_le _)

/-- The end of a wait in `do_waitpid` takes the node out, the others keep it. -/
theorem Inv.wakened (hi : s.Inv L) (how : How) : ∃ L', Shrinks s L (s.wakened t how) L' := by
  have hrefl := Shrinks.refl hi.queued.rings
  cases how with
  | waitpid =>
    rw [State.wakened]
    split_ifs with hlinked
    · exact ⟨L, hrefl⟩
    · rw [hi.queued.unlinked_iff] at hlinked
      push Not at hlinked
      obtain ⟨q, hq⟩ := hlinked
      exact ⟨_, shrinks_unlink s.seen hi.queued.rings hq⟩
  | sleepOn q => exact ⟨L, hrefl⟩
  | mutexLock q => exact ⟨L, hrefl⟩

theorem step_iff (a : Act) (hi : s.Inv L) :
    ((s.step a).Consistent → s.Fine a) ∧ (s.Fine a → ∃ L', (s.step a).Inv L') := by
  cases a with
  | enter | mark =>
    refine ⟨fun _ => trivial, fun _ => ⟨L, ?_⟩⟩
    rw [step]
    split
    · exact hi.keep rfl (fun u hu => outside_update (by simp [Pc.Outside]) hu) rfl rfl
    · exact hi
  | leave t =>
    by_cases hk : s.pc t = .kernel
    · have h := hi.outside_iff (s.setPc t .user) t (.inl rfl) rfl rfl rfl rfl
      rw [step, if_pos hk]
      exact ⟨fun hc _ => h.1 hc, fun hf => ⟨L, h.2 (hf hk)⟩⟩
    · rw [step, if_neg hk]
      exact ⟨fun _ hk' => absurd hk' hk, fun _ => ⟨L, hi⟩⟩
  | exit t =>
    by_cases hk : s.pc t = .kernel
    · have h := hi.outside_iff (s.step (.exit t)) t (.inr rfl)
      rw [step, if_pos hk] at h ⊢
      have h' := h rfl rfl rfl rfl
      exact ⟨fun hc _ => h'.1 hc, fun hf => ⟨L, h'.2 (hf hk)⟩⟩
    · rw [step, if_neg hk]
      exact ⟨fun _ hk' => absurd hk' hk, fun _ => ⟨L, hi⟩⟩
  | add t =>
    by_cases hadd : ∃ how, s.pc t = .adding how
    · obtain ⟨how, hpc⟩ := hadd
      have h := hi.add_iff hpc
      exact ⟨fun hc _ => h.1 hc, fun hf => h.2 (hf ⟨how, hpc⟩)⟩
    · refine ⟨fun _ hadd' => absurd hadd' hadd, fun _ => ⟨L, ?_⟩⟩
      rw [step]
      split
      · rename_i how hpc
        exact absurd ⟨how, hpc⟩ hadd
      · exact hi
  | resume t =>
    refine ⟨fun _ => trivial, fun _ => ?_⟩
    rw [step]
    split
    · split
      · exact ⟨L, hi⟩
      · rename_i how _ _
        obtain ⟨L', hsh⟩ := hi.wakened how
        exact ⟨L', (hsh.inv hi).keep rfl (fun u hu => outside_update (by simp [Pc.Outside]) hu) rfl rfl⟩
    · exact ⟨L, hi⟩
  | wakeUpOne q =>
    obtain ⟨L', hsh⟩ := hi.walk (walks_wakeUpOneFrom q)
    exact ⟨fun _ => trivial, fun _ => ⟨L', hsh.inv hi⟩⟩
  | wakeUpAll q =>
    obtain ⟨L', hsh⟩ := hi.walk (walks_wakeUpAllFrom q)
    exact ⟨fun _ => trivial, fun _ => ⟨L', hsh.inv hi⟩⟩
  | wakeSee | wakeMark =>
    refine ⟨fun _ => trivial, fun _ => ⟨L, ?_⟩⟩
    rw [step]
    split
    · exact hi.keep rfl (fun _ => id) rfl rfl
    · exact hi

/-! ## Whole runs -/

/-- Every state of the run is consistent. -/
def Sound (acts : List Act) (s : State) : Prop :=
  Along step Consistent (fun _ _ => True) acts s

/-- Empty queues and unlinked nodes, as `init_waitqueue_head` and `sched_fork` leave them, and tasks
in user mode. -/
def boot : State where
  links := { next := id, prev := id }
  status := fun _ => .running
  pc := fun _ => .user
  locked := fun _ => false
  seen := []
  added := 0
  stuck := false

theorem boot_inv : boot.Inv fun _ => [] := by
  refine ⟨⟨⟨fun q => ⟨rfl, rfl⟩, fun q => nodup_nil, nofun,
    fun q k hqk => by simpa using hqk, fun q k => not_mem_nil, fun a _ _ => ⟨rfl, rfl⟩⟩,
    fun t _ q => not_mem_nil⟩, fun q => le_refl _, rfl⟩

/-- In every run the wait queues stay rings that every walk comes to the end of exactly if every node is
unlinked when it is added and when its task leaves the kernel. -/
theorem rings_iff_fineRun (acts : List Act) : Sound acts boot ↔ FineRun step Fine acts boot := by
  refine along_iff (fun s => ∃ L, s.Inv L) ?_ ?_ acts ⟨_, boot_inv⟩
  · rintro s ⟨L, hi⟩
    exact hi.consistent
  · rintro s a ⟨L, hi⟩
    obtain ⟨hneeds, hkeeps⟩ := step_iff a hi
    exact ⟨fun _ => hneeds, fun hf => ⟨trivial, hkeeps hf⟩⟩

/-! ## Who was woken -/

/-- `sched` returns in `sleep_on` and `mutex_lock` only with the node taken out, which the walks of
`wake_up_one` and `wake_up_all` do and `wake_up_process` does not. -/
def Taken (s : State) : Act → Prop
  | .resume t =>
    match s.pc t with
    | .asleep .waitpid => True
    | .asleep _ => s.unlinked t
    | _ => True
  | _ => True

def Loose (s : State) : Prop := ∀ t, (∀ how, s.pc t ≠ .asleep how) → s.unlinked t

theorem Loose.fine (h : s.Loose) (a : Act) : s.Fine a := by
  cases a with
  | add t =>
    rintro ⟨how, hpc⟩
    exact h t (by simp [hpc])
  | leave t | exit t => exact fun hpc => h t (by simp [hpc])
  | _ => trivial

theorem Loose.setPc (h : s.Loose) (ht : s.unlinked t) : (s.setPc t p).Loose := fun u hu => by
  by_cases hut : u = t
  · exact hut ▸ ht
  · exact h u fun how => by simpa [State.setPc, update_of_ne hut] using hu how

theorem Loose.shrinks (h : s.Loose) (hr : Rings s.links Ptr.head L) (hsh : Shrinks s L s' L') :
    s'.Loose := fun t ht => hsh.unlinked hr (h t (by rwa [hsh.pc] at ht))

theorem Inv.loose_step (hi : s.Inv L) (h : s.Loose) (a : Act) (ha : s.Taken a) :
    (s.step a).Loose := by
  have hr := hi.queued.rings
  cases a with
  | enter t | leave t | exit t | mark t how =>
    rw [step]
    split_ifs with hpc
    · exact h.setPc (h t (by simp [hpc]))
    · exact h
  | add t =>
    rw [step]
    split
    · rename_i how hpc
      have hout := hi.queued.unlinked_iff.1 (h t (by simp [hpc]))
      intro u hu
      have hut : u ≠ t := by
        rintro rfl
        exact hu how (update_self ..)
      have hu' := hi.queued.unlinked_iff.1 (h u fun how => by simpa [State.setPc, update_of_ne hut] using hu how)
      refine ((hr.addTail (by simp) hout).next_eq_self_iff (by simp)).2 fun q hin => ?_
      revert hin
      refine update_cases (fun hq hin => ?_) fun _ => hu' q
      rw [mem_append, mem_singleton, ← hq] at hin
      exact hin.elim (hu' q) (by simpa using hut)
    · exact h
  | resume t =>
    rw [step]
    split
    · rename_i how hpc
      split_ifs
      · exact h
      · obtain ⟨L', hsh⟩ := hi.wakened how
        refine (h.shrinks hr hsh).setPc ?_
        rw [Taken, hpc] at ha
        cases how with
        | waitpid =>
          rw [State.wakened]
          split_ifs with hun
          · exact hun
          · exact update_self ..
        | sleepOn q | mutexLock q => exact ha
    · exact h
  | wakeUpOne q =>
    obtain ⟨L', hsh⟩ := hi.walk (walks_wakeUpOneFrom q)
    exact h.shrinks hr hsh
  | wakeUpAll q =>
    obtain ⟨L', hsh⟩ := hi.walk (walks_wakeUpAllFrom q)
    exact h.shrinks hr hsh
  | wakeSee | wakeMark =>
    rw [step]
    split <;> exact h

/-- **In every run in which the sleepers of `sleep_on` and `mutex_lock` go on only with their node taken
out, the wait queues stay rings, with each node on at most one, and none of a task in user mode or
gone.** -/
theorem rings_of_taken (acts : List Act) (h : FineRun step Taken acts boot) : Sound acts boot := by
  rw [rings_iff_fineRun]
  suffices hrun : ∀ s L, Inv s L → s.Loose → FineRun step Taken acts s → FineRun step Fine acts s from
    hrun boot _ boot_inv (fun _ _ => rfl) h
  clear h
  induction acts with
  | nil => exact fun _ _ _ _ _ => trivial
  | cons a acts ih =>
    rintro s L hi hloose ⟨-, ha, hacts⟩
    have hfine := hloose.fine a
    obtain ⟨L', hi'⟩ := (step_iff a hi).2 hfine
    exact ⟨trivial, hfine, ih _ L' hi' (hi.loose_step hloose a ha) hacts⟩

/-- Task 1 sleeps and is woken by `wake_up_one`, and sleeps on the same queue again. -/
theorem sleepAgain_sound : Sound [.enter 1, .mark 1 (.sleepOn (.named 0)), .add 1, .wakeUpOne (.named 0),
    .wakeMark 1, .resume 1, .mark 1 (.sleepOn (.named 0)), .add 1] boot :=
  rings_of_taken _ ⟨trivial, trivial, trivial, trivial, trivial, trivial, trivial, trivial, trivial,
    trivial, trivial, rfl, trivial, trivial, trivial, trivial, trivial⟩

/-- A walk that comes to a node that points to itself does not end. -/
theorem wakeUpAllFrom_self (q : Queue) (fuel : Nat) (h : s.unlinked t) :
    wakeUpAllFrom q fuel (.node t) (.node t) s = none := by
  induction fuel generalizing s with
  | zero => rfl
  | succ fuel ih =>
    rw [wakeUpAllFrom, if_neg (by simp)]
    dsimp only
    split
    · have hself : (s.wakeNode t).unlinked t := update_self ..
      have := ih hself
      rwa [hself]
    · rw [h]
      exact ih h

/-- The worker of a work queue: `queue_work` wakes it with `wake_up_process`, and it sleeps on the
same queue again. -/
def queueWork : List Act :=
  [.enter 1, .mark 1 (.sleepOn (.named 0)), .add 1, .wakeSee 1, .wakeMark 1, .resume 1,
    .mark 1 (.sleepOn (.named 0)), .add 1]

/-- The node is added twice; after the next `wake_up_one` the queue leads to a node that points to
itself, and no walk over it ends. -/
theorem queueWork_unsound : ¬ Sound queueWork boot ∧
      (∀ fuel, wakeUpAllFrom (.named 0) fuel (.node 1) (.node 1)
        ((boot.run queueWork).step (.wakeUpOne (.named 0))) = none) ∧
      ((boot.run queueWork).step (.wakeUpOne (.named 0))).links.next (.head (.named 0)) =
        .node 1 := by
  refine ⟨fun h => ?_, fun fuel => ?_, by decide +kernel⟩
  · obtain ⟨-, L, hq⟩ := Along.last h
    have := (hq.rings.inverse (.node 1)).2
    exact absurd this (by decide +kernel)
  · refine wakeUpAllFrom_self (.named 0) fuel ?_
    decide +kernel

end State

end ZzzOs.Sched.Wait
