import ZzzOs.Lib.Update
import ZzzOs.Sched.Layout

/-!
# What each event does to the references

First the layout under the changes that events are made of, then every event: it keeps the
invariant, and only an `exec` can free an `mm` that is in use.
-/

namespace ZzzOs.Sched

open Option List Function Lib

/-- A task that has been switched to, with its `active_mm`. -/
def Task.entered (t : Task) (a : Mm) : Task := { t with onCpu := true, activeMm := some a }

/-- A task that no longer borrows. -/
def Task.left (t : Task) : Task := { t with activeMm := none }

theorem Task.owner_left (t : Task) : t.left.owner = t.mm := or_none

namespace Kernel

variable {n : Nat} {k k' : Kernel n} {t prev next : Nat} {c : Fin n} {i : Nat} {v : Task} {a m : Mm}

/-! ## The layout -/

theorem placed_eq_true : k.placed t = true ↔ ∃ c, (k.cpu c).curr = t ∨ (k.cpu c).last = some t :=
  decide_eq_true_iff

theorem placed_eq_false (h : k.placed t = false) (c : Fin n) :
    (k.cpu c).curr ≠ t ∧ (k.cpu c).last ≠ some t := by
  have := of_decide_eq_false h
  exact ⟨fun he => this ⟨c, .inl he⟩, fun he => this ⟨c, .inr he⟩⟩

theorem placed_curr (c : Fin n) : k.placed (k.cpu c).curr = true :=
  placed_eq_true.2 ⟨c, .inl rfl⟩

theorem Layout.mem_of_placed (h : k.Layout) (hp : k.placed t = true) : t ∈ k.tasks := by
  obtain ⟨c, rfl | hc⟩ := placed_eq_true.1 hp
  · exact h.curr c
  · exact (h.last c t hc).1

theorem Layout.newTask (h : k.Layout) (mm : Option Mm) (b : Bool) : (k.newTask mm b).Layout := by
  have hold : ∀ t ∈ k.tasks, (k.newTask mm b).task t = k.task t := fun t ht =>
    update_of_ne (Nat.ne_of_lt (h.bound t ht)) _ _
  have hnew : k.nextTask ∉ k.tasks := fun hm => lt_irrefl _ (h.bound _ hm)
  refine ⟨nodup_cons.2 ⟨hnew, h.nodup⟩, forall_mem_cons.2
      ⟨Nat.lt_succ_self _, fun t ht => Nat.lt_succ_of_lt (h.bound t ht)⟩,
    fun c => mem_cons_of_mem _ (h.curr c), h.curr_inj,
    fun c t hc => ⟨mem_cons_of_mem _ (h.last c t hc).1, (h.last c t hc).2⟩, h.last_inj,
    fun c => ?_, fun c => ?_, fun t ht hidle => ?_, fun t ht => ?_⟩
  · exact (congrArg Task.activeMm (hold _ (h.curr c))).trans (h.active c)
  · have := h.own c
    rwa [← hold _ (h.curr c)] at this
  · rcases mem_cons.1 ht with rfl | ht
    · rw [show (k.newTask mm b).task k.nextTask = _ from update_self ..]
      cases mm with
      | none => exact .inl ⟨rfl, .inl rfl⟩
      | some m => exact .inr ⟨some_ne_none m, .inl rfl⟩
    · rw [hold t ht]
      exact h.resting t ht hidle
  · rw [hold t (h.mem_of_placed ht)]
    exact h.onCpu t ht

theorem Layout.touch (h : k.Layout) (hm : v.mm = (k.task t).mm)
    (ha : v.activeMm = (k.task t).activeMm) (hon : k.placed t = true → v.onCpu = true) :
    (k.setTask t v).Layout := by
  have hsame : ∀ x, ((k.setTask t v).task x).mm = (k.task x).mm ∧
      ((k.setTask t v).task x).activeMm = (k.task x).activeMm ∧
      (k.placed x = true → ((k.setTask t v).task x).onCpu = true) := fun x => by
    dsimp only [setTask]
    exact update_cases (fun hx => hx ▸ ⟨hm, ha, hon⟩) fun _ => ⟨rfl, rfl, h.onCpu x⟩
  refine ⟨h.nodup, h.bound, h.curr, h.curr_inj, h.last, h.last_inj,
    fun c => (hsame _).2.1.trans (h.active c), fun c => ?_, fun x hx hidle => ?_,
    fun x => (hsame x).2.2⟩
  · rw [(hsame _).1]
    exact h.own c
  · have := h.resting x hx hidle
    unfold Task.Resting at this ⊢
    rwa [(hsame x).1, (hsame x).2.1]

def without (k : Kernel n) (t : Nat) : Kernel n :=
  { k with
    task := update k.task t { k.task t with mm := none, activeMm := none }
    tasks := k.tasks.erase t }

theorem Layout.without (h : k.Layout) (hp : k.placed t = false) : (k.without t).Layout := by
  have hne : ∀ {x}, x ∈ k.tasks.erase t → x ≠ t := fun hx => (h.nodup.mem_erase_iff.1 hx).1
  have hcurr : ∀ c, (k.cpu c).curr ≠ t := fun c => (placed_eq_false hp c).1
  have htask : ∀ {x}, x ≠ t → (k.without t).task x = k.task x := fun hx =>
    update_of_ne hx _ _
  refine ⟨h.nodup.erase t, fun x hx => h.bound x (mem_of_mem_erase hx),
    fun c => (mem_erase_of_ne (hcurr c)).2 (h.curr c), h.curr_inj, fun c x hc => ?_,
    h.last_inj, fun c => ?_, fun c => ?_, fun x hx hidle => ?_, fun x hx => ?_⟩
  · refine ⟨(mem_erase_of_ne ?_).2 (h.last c x hc).1, (h.last c x hc).2⟩
    rintro rfl
    exact (placed_eq_false hp c).2 hc
  · exact (congrArg Task.activeMm (htask (hcurr c))).trans (h.active c)
  · have := h.own c
    rwa [← htask (hcurr c)] at this
  · rw [htask (hne hx)]
    exact h.resting x (mem_of_mem_erase hx) hidle
  · have hxt : x ≠ t := by
      rintro rfl
      exact absurd (hp.symm.trans hx) Bool.false_ne_true
    rw [htask hxt]
    exact h.onCpu x hx

theorem holders_without (h : k.Layout) (ht : t ∈ k.tasks) (hrest : (k.task t).Resting) (i : Nat) :
    k.holders i = (k.without t).holders i + one (k.task t).mm i := by
  have h1 := holders_setTask h.nodup ht { k.task t with mm := none, activeMm := none } i
  have h2 : (k.without t).holders i + one ((k.without t).task t).owner i = _ :=
    holders_erase (k := k.setTask t { k.task t with mm := none, activeMm := none }) ht i
  have h3 : (k.without t).task t = { k.task t with mm := none, activeMm := none } :=
    update_self ..
  rw [hrest.one_owner] at h1
  rw [h3] at h2
  simp only [Task.owner, or_none, one_none, Nat.add_zero] at h1 h2
  omega

/-- The layout of a kernel in which the same tasks run on the CPUs -/
theorem Layout.keep (h : k.Layout) (hn : k'.tasks.Nodup) (hb : ∀ t ∈ k'.tasks, t < k'.nextTask)
    (hcurr : ∀ d, (k'.cpu d).curr = (k.cpu d).curr ∧ (k.cpu d).curr ∈ k'.tasks)
    (hlast : ∀ d x, (k'.cpu d).last = some x → (k.cpu d).last = some x ∧ x ∈ k'.tasks)
    (hactive : ∀ d, (k'.task (k.cpu d).curr).activeMm = some (k'.cpu d).pgtbl)
    (hown : ∀ d, (k'.task (k.cpu d).curr).mm = none ∨
      (k'.task (k.cpu d).curr).mm = some (k'.cpu d).pgtbl)
    (hrest : ∀ x ∈ k'.tasks, (∀ d, (k.cpu d).curr ≠ x) → (k'.task x).Resting)
    (hon : ∀ x, k.placed x = true → (k'.task x).onCpu = true) : k'.Layout := by
  have hc := fun d => (hcurr d).1
  refine ⟨hn, hb, fun d => hc d ▸ (hcurr d).2, fun d d' he => ?_, fun d x hd => ?_,
    fun d d' x hd hd' => h.last_inj d d' x (hlast d x hd).1 (hlast d' x hd').1,
    fun d => hc d ▸ hactive d, fun d => hc d ▸ hown d,
    fun x hx hidle => hrest x hx fun d => hc d ▸ hidle d, fun x hx => ?_⟩
  · rw [hc, hc] at he
    exact h.curr_inj d d' he
  · obtain ⟨hd, hx⟩ := hlast d x hd
    exact ⟨hx, fun d' => hc d' ▸ (h.last d x hd).2 d'⟩
  · obtain ⟨d, hd⟩ := placed_eq_true.1 hx
    rw [hc] at hd
    exact hon x (placed_eq_true.2 ⟨d, hd.imp_right fun he => (hlast d x he).1⟩)

theorem Layout.clearLast (h : k.Layout) (c : Fin n) :
    (k.setCpu c { k.cpu c with last := none }).Layout := by
  refine h.keep h.nodup h.bound (fun d => ⟨?_, h.curr d⟩) (fun d x => ?_) (fun d => ?_) (fun d => ?_)
    h.resting h.onCpu
  all_goals dsimp only [setCpu, setTask]
  · exact update_cases (fun hd => by rw [hd]) fun _ => rfl
  · exact update_cases (fun _ => nofun) fun _ hd => ⟨hd, (h.last d x hd).1⟩
  · exact update_cases (fun hd => hd ▸ h.active d) fun _ => h.active d
  · exact update_cases (fun hd => hd ▸ h.own d) fun _ => h.own d

/-- CPU `c` has switched to `next`, with the page table of `a`; `P` and `N` are the two tasks. -/
def switched (k : Kernel n) (c : Fin n) (next : Nat) (P N : Task) (a : Mm) : Kernel n :=
  { k with
    task := update (update k.task next N) (k.cpu c).curr P
    cpu := update k.cpu c { curr := next, pgtbl := a, last := some (k.cpu c).curr } }

theorem Layout.switched (h : k.Layout) (hnext : next ∈ k.tasks) (hp : k.placed next = false) {P N : Task}
    (hP : P.Resting)
    (hPon : P.onCpu = (k.task (k.cpu c).curr).onCpu) (hN : N.activeMm = some a)
    (hNm : N.mm = none ∨ N.mm = some a) (hNon : N.onCpu = true) :
    (k.switched c next P N a).Layout := by
  have hnp : next ≠ (k.cpu c).curr := fun he => (placed_eq_false hp c).1 he.symm
  have hother : ∀ d, d ≠ c → (k.cpu d).curr ≠ (k.cpu c).curr := fun d hd he =>
    hd (h.curr_inj d c he)
  have hlastc : ∀ d, (k.cpu d).last ≠ some (k.cpu c).curr := fun d hd =>
    (h.last d _ hd).2 c rfl
  have hcpu : ∀ d, d ≠ c → update k.cpu c
      { curr := next, pgtbl := a, last := some (k.cpu c).curr } d = k.cpu d := fun d hd =>
    update_of_ne hd ..
  have htask : ∀ x, x ≠ next → x ≠ (k.cpu c).curr →
      update (update k.task next N) (k.cpu c).curr P x = k.task x := by
    intro x h1 h2
    rw [update_of_ne h2, update_of_ne h1]
  have htaskn : update (update k.task next N) (k.cpu c).curr P next = N := by
    rw [update_of_ne hnp, update_self]
  unfold Kernel.switched
  refine ⟨h.nodup, h.bound, fun d => ?_, fun d d' => ?_, fun d x => ?_, fun d d' x => ?_,
    fun d => ?_, fun d => ?_, fun x hx hidle => ?_, fun x hx => ?_⟩
  all_goals dsimp only
  · exact update_cases (fun _ => hnext) fun _ => h.curr d
  · refine update_cases (fun hd => ?_) fun _ => ?_
    · exact update_cases (fun hd' _ => hd.trans hd'.symm) fun _ he =>
        absurd he.symm (placed_eq_false hp d').1
    · exact update_cases (fun _ he => absurd he (placed_eq_false hp d).1) fun _ => h.curr_inj d d'
  · refine update_cases (fun _ hd => ?_) fun _ hd => ⟨(h.last d x hd).1, fun d' => ?_⟩
    · cases hd
      exact ⟨h.curr c, fun d' => update_cases (fun _ => hnp) (hother d')⟩
    · refine update_cases (fun _ he => ?_) fun _ => (h.last d x hd).2 d'
      exact (placed_eq_false hp d).2 (hd.trans (congrArg some he.symm))
  · refine update_cases (fun hdc hd => ?_) fun _ hd => ?_
    · exact update_cases (fun hdc' _ => hdc.trans hdc'.symm) fun _ hd' =>
        absurd (hd'.trans hd.symm) (hlastc d')
    · exact update_cases (fun _ hd' => absurd (hd.trans hd'.symm) (hlastc d)) fun _ =>
        h.last_inj d d' x hd
  · rcases eq_or_ne d c with rfl | hd
    · simpa only [update_self, htaskn] using hN
    · simpa only [hcpu d hd, htask _ (placed_eq_false hp d).1 (hother d hd)] using h.active d
  · rcases eq_or_ne d c with rfl | hd
    · simpa only [update_self, htaskn] using hNm
    · simpa only [hcpu d hd, htask _ (placed_eq_false hp d).1 (hother d hd)] using h.own d
  · have hxn : x ≠ next := fun he => hidle c (by simp only [update_self, he])
    rcases eq_or_ne x (k.cpu c).curr with rfl | hxp
    · simpa only [update_self] using hP
    · simp only [htask x hxn hxp]
      refine h.resting x hx fun d => ?_
      rcases eq_or_ne d c with rfl | hd
      · exact hxp.symm
      · simpa only [hcpu d hd] using hidle d
  · rcases eq_or_ne x next with rfl | hxn
    · simpa only [htaskn] using hNon
    · rcases eq_or_ne x (k.cpu c).curr with rfl | hxp
      · simpa only [update_self, hPon] using h.onCpu _ (placed_curr c)
      · simp only [htask x hxn hxp]
        obtain ⟨d, hd⟩ := placed_eq_true.1 hx
        refine h.onCpu x (placed_eq_true.2 ⟨d, ?_⟩)
        rcases eq_or_ne d c with rfl | hdc
        · simp only [update_self, Option.some.injEq] at hd
          exact (hd.elim (fun he => hxn he.symm) fun he => hxp he.symm).elim
        · simpa only [hcpu d hdc] using hd

/-- The running task of a CPU has got a new `mm` and its page table is in use. -/
theorem Layout.execed (h : k.Layout) (m : Mm) :
    Layout ((k.setTask (k.cpu c).curr { k.task (k.cpu c).curr with
      mm := some m, activeMm := some m }).setCpu c { k.cpu c with pgtbl := m }) := by
  have hother : ∀ d, d ≠ c → (k.cpu d).curr ≠ (k.cpu c).curr := fun d hd he =>
    hd (h.curr_inj d c he)
  unfold setCpu setTask
  refine h.keep h.nodup h.bound (fun d => ⟨?_, h.curr d⟩) (fun d x => ?_) (fun d => ?_) (fun d => ?_)
    (fun x hx hidle => ?_) fun x hx => ?_
  all_goals dsimp only
  · exact update_cases (fun hd => by rw [hd]) fun _ => rfl
  · have hlast := fun hd : (k.cpu d).last = some x => And.intro hd (h.last d x hd).1
    exact update_cases (fun hd => hd ▸ hlast) fun _ => hlast
  · rcases eq_or_ne d c with rfl | hd
    · simp
    · simpa only [update_of_ne hd, update_of_ne (hother d hd)] using h.active d
  · rcases eq_or_ne d c with rfl | hd
    · simp
    · simpa only [update_of_ne hd, update_of_ne (hother d hd)] using h.own d
  · simpa only [update_of_ne (hidle c).symm] using h.resting x hx hidle
  · exact update_cases (fun he => h.onCpu _ (he ▸ hx)) fun _ => h.onCpu x hx

/-! ## The functions that drop references -/

theorem taskDropMm_eq (h : (k.task t).Resting) : k.taskDropMm t = match (k.task t).mm with
      | none => k.setTask t { k.task t with mm := none, activeMm := none }
      | some m => (k.setTask t { k.task t with mm := none, activeMm := none }).mmput m := by
  unfold taskDropMm
  rcases h with ⟨hm, ha | ha⟩ | ⟨hm, ha | ha⟩
  · simp only [hm, ha]
  · simp [hm, ha]
  · obtain ⟨m, hm⟩ := ne_none_iff_exists'.1 hm
    simp only [hm, ha]
  · obtain ⟨m, hm⟩ := ne_none_iff_exists'.1 hm
    simp [hm, ha]

theorem taskSetMm_eq (h : k.Layout) (hne : (k.cpu c).pgtbl ≠ m) :
    k.taskSetMm (k.cpu c).curr m = (k.setTask (k.cpu c).curr
      { k.task (k.cpu c).curr with mm := some m, activeMm := some m }).mmput (k.cpu c).pgtbl := by
  unfold taskSetMm
  have ha := h.active c
  rcases h.own c with hm | hm
  · cases hpg : (k.cpu c).pgtbl with
    | initMm =>
      rw [hpg] at ha
      simp [hm, ha, mmput]
    | user i =>
      rw [hpg] at ha hne
      simp [hm, ha, hne]
  · simp [hm, ha, hne]

theorem taskDestroy_eq (h : (k.task t).Resting) : k.taskDestroy t = match (k.task t).mm with
      | none => k.without t
      | some m => (k.without t).mmput m := by
  unfold taskDestroy
  rw [taskDropMm_eq h]
  cases (k.task t).mm with
  | none => rfl
  | some m => cases m <;> rfl

theorem taskDestroy_step (h : k.Inv) (ht : t ∈ k.tasks) (hp : k.placed t = false) :
    (k.taskDestroy t).Inv ∧ ((k.taskDestroy t).Cold ↔ k.Cold) := by
  have hrest := h.layout.resting t ht fun c => (placed_eq_false hp c).1
  have hcount := holders_without h.layout ht hrest
  rw [taskDestroy_eq hrest]
  cases hm : (k.task t).mm with
  | none =>
    refine ⟨settle (h.layout.without hp) h.books fun i => ?_, Iff.rfl⟩
    rw [hcount i, hm, one_none, Nat.add_zero]
  | some m =>
    rw [hm] at hcount
    exact settle_put (h.layout.without hp) h.books m hcount

/-! ## The switch -/

/-- `sched` before it calls `sched_switch_mm`. -/
def entering (k : Kernel n) (c : Fin n) (next : Nat) : Kernel n :=
  (k.setCpu c { k.cpu c with curr := next, last := some (k.cpu c).curr }).setTask next
    { k.task next with onCpu := true }

theorem Layout.oldActive (h : k.Layout) (c : Fin n) : Kernel.oldActive (k.task (k.cpu c).curr) =
      if (k.task (k.cpu c).curr).mm = none ∧ (k.cpu c).pgtbl ≠ .initMm then
        some (k.cpu c).pgtbl else none := by
  unfold Kernel.oldActive
  rw [h.active c]
  exact if_congr (by simp) rfl rfl

theorem entering_switched (hne : next ≠ (k.cpu c).curr) (N : Task) :
    ((k.entering c next).setTask next N).usePgtbl c (some a) =
      k.switched c next (k.task (k.cpu c).curr) N a := by
  have hself : update k.task next N (k.cpu c).curr = k.task (k.cpu c).curr :=
    update_of_ne hne.symm ..
  unfold entering usePgtbl switched setTask setCpu
  simp only [update_idem, update_self]
  rw [← hself, update_eq_self]

theorem switched_leave (P N : Task) (a : Mm) :
    (k.switched c next (k.task (k.cpu c).curr) N a).setTask (k.cpu c).curr P =
      k.switched c next P N a := by
  unfold switched setTask
  simp

theorem entering_prev (hne : next ≠ (k.cpu c).curr) :
    (k.entering c next).task (k.cpu c).curr = k.task (k.cpu c).curr :=
  update_of_ne hne.symm ..

theorem entering_next : (k.entering c next).task next = { k.task next with onCpu := true } :=
  update_self ..

section

variable (h : k.Layout) (hne : next ≠ (k.cpu c).curr)

include h hne

/-- A kernel thread; it takes over what the one before it has borrowed, or borrows the `mm` of the
task before it, or `init_mm`. -/
theorem schedSwitchMm_kernel (hm : (k.task next).mm = none) :
    (k.entering c next).schedSwitchMm c (k.cpu c).curr next =
      if (k.task (k.cpu c).curr).mm = none ∧ (k.cpu c).pgtbl ≠ .initMm then
        k.switched c next (k.task (k.cpu c).curr).left
          ((k.task next).entered (k.cpu c).pgtbl) (k.cpu c).pgtbl
      else (k.switched c next (k.task (k.cpu c).curr)
        ((k.task next).entered (k.cpu c).pgtbl) (k.cpu c).pgtbl).mmget (k.cpu c).pgtbl := by
  unfold schedSwitchMm activate
  rw [entering_next, entering_prev hne, h.active c, h.oldActive c]
  simp only [hm, getD_some]
  by_cases hb : (k.task (k.cpu c).curr).mm = none ∧ (k.cpu c).pgtbl ≠ .initMm
  · rw [if_pos hb, if_pos hb, if_pos rfl, ← switched_leave, ← entering_switched hne]
    rw [show ((((k.entering c next).setTask next _).setTask (k.cpu c).curr _).task next) = _ from
        (update_of_ne hne ..).trans (update_self ..),
      show ((k.entering c next).setTask next _).task (k.cpu c).curr = k.task (k.cpu c).curr from
        (update_of_ne hne.symm ..).trans (entering_prev hne), Task.entered, hm]
    rfl
  · rw [if_neg hb, if_neg hb, if_neg nofun, ← entering_switched hne]
    rw [show (((k.entering c next).mmget (k.cpu c).pgtbl).setTask next _).task next = _ from
      update_self .., Task.entered, hm]
    cases (k.cpu c).pgtbl <;> rfl

/-- A user task; a kernel thread before it gives back what it has borrowed. -/
theorem schedSwitchMm_user (hm : (k.task next).mm = some m) :
    (k.entering c next).schedSwitchMm c (k.cpu c).curr next =
      if (k.task (k.cpu c).curr).mm = none ∧ (k.cpu c).pgtbl ≠ .initMm then
        (k.switched c next (k.task (k.cpu c).curr).left
          ((k.task next).entered m) m).mmput (k.cpu c).pgtbl
      else k.switched c next (k.task (k.cpu c).curr) ((k.task next).entered m) m := by
  have hact : (k.entering c next).activate (k.cpu c).curr next =
      ((k.entering c next).setTask next ((k.task next).entered m),
        Kernel.oldActive (k.task (k.cpu c).curr)) := by
    unfold activate
    rw [entering_next, entering_prev hne]
    simp only [hm, Task.entered]
  unfold schedSwitchMm
  rw [hact, h.oldActive c]
  dsimp only
  rw [show ((k.entering c next).setTask next _).task next = _ from update_self ..,
    show ((k.task next).entered m).activeMm = some m from rfl]
  split_ifs with hb
  · rw [← switched_leave, ← entering_switched hne]
    rw [show (((k.entering c next).setTask next _).usePgtbl c (some m)).task (k.cpu c).curr = _ from
      (update_of_ne hne.symm ..).trans (entering_prev hne)]
    rfl
  · exact entering_switched hne _

theorem holders_switched (hnext : next ∈ k.tasks) (P N : Task) (a : Mm) (i : Nat) :
    (k.switched c next P N a).holders i + one (k.task (k.cpu c).curr).owner i +
        one (k.task next).owner i = k.holders i + one P.owner i + one N.owner i := by
  have h1 := holders_setTask h.nodup hnext N i
  have h2 := holders_setTask (k := k.setTask next N) h.nodup (h.curr c) P i
  have h3 : (k.setTask next N).task (k.cpu c).curr = k.task (k.cpu c).curr :=
    update_of_ne hne.symm ..
  rw [h3] at h2
  have h4 : (k.switched c next P N a).holders i =
    ((k.setTask next N).setTask (k.cpu c).curr P).holders i := rfl
  omega

end

/-- The four combinations of the task before and the task after a switch. -/
theorem switch_step (h : k.Inv) (hnext : next ∈ k.tasks) (hp : k.placed next = false) :
    ((k.entering c next).schedSwitchMm c (k.cpu c).curr next).Inv ∧
      (((k.entering c next).schedSwitchMm c (k.cpu c).curr next).Cold ↔ k.Cold) := by
  have hl := h.layout
  have hne : next ≠ (k.cpu c).curr := fun he => (placed_eq_false hp c).1 he.symm
  have hrest := (hl.resting next hnext fun d => (placed_eq_false hp d).1).one_owner
  have hsw (P : Task) (a : Mm) (hP : P.Resting) (hon : P.onCpu = (k.task (k.cpu c).curr).onCpu)
      (hm : (k.task next).mm = none ∨ (k.task next).mm = some a) :
      (k.switched c next P ((k.task next).entered a) a).Layout ∧ ∀ i,
        (k.switched c next P ((k.task next).entered a) a).holders i + one (some (k.cpu c).pgtbl) i +
            one (k.task next).mm i =
          k.holders i + one P.owner i + one ((k.task next).mm.or (some a)) i := by
    refine ⟨hl.switched hnext hp hP hon rfl hm rfl, fun i => ?_⟩
    rw [← hl.owner c, ← hrest]
    exact holders_switched hl hne hnext ..
  by_cases hb : (k.task (k.cpu c).curr).mm = none ∧ (k.cpu c).pgtbl ≠ .initMm
  · have hleave : (k.task (k.cpu c).curr).left.Resting :=
      .inl ⟨hb.1, .inl rfl⟩
    cases hm : (k.task next).mm with
    | none =>
      obtain ⟨hlay, hcount⟩ := hsw _ (k.cpu c).pgtbl hleave rfl (.inl hm)
      simp only [hm, Task.owner_left, hb.1, none_or, one_none] at hcount
      rw [schedSwitchMm_kernel hl hne hm, if_pos hb]
      exact ⟨settle hlay h.books fun i => by have := hcount i; omega, Iff.rfl⟩
    | some m =>
      obtain ⟨hlay, hcount⟩ := hsw _ m hleave rfl (.inr hm)
      simp only [hm, Task.owner_left, hb.1, some_or, one_none] at hcount
      rw [schedSwitchMm_user hl hne hm, if_pos hb]
      exact settle_put hlay h.books _ fun i => by have := hcount i; omega
  · have hstay : (k.task (k.cpu c).curr).Resting := by
      rcases hl.own c with hm | hm
      · have hinit : (k.cpu c).pgtbl = .initMm := by
          by_contra hi
          exact hb ⟨hm, hi⟩
        exact .inl ⟨hm, .inr (by rw [hl.active c, hinit])⟩
      · exact .inr ⟨by rw [hm]; exact some_ne_none _, .inr (by rw [hl.active c, hm])⟩
    cases hm : (k.task next).mm with
    | none =>
      obtain ⟨hlay, hcount⟩ := hsw _ (k.cpu c).pgtbl hstay rfl (.inl hm)
      simp only [hm, hl.owner c, none_or, one_none] at hcount
      rw [schedSwitchMm_kernel hl hne hm, if_neg hb]
      refine settle_get hlay h.books _ (fun i => ?_) fun i hi => ?_
      · have := hcount i
        omega
      · exact holders_pos (hl.curr c) ((hl.owner c).trans (by rw [hi]))
    | some m =>
      obtain ⟨hlay, hcount⟩ := hsw _ m hstay rfl (.inr hm)
      simp only [hm, hl.owner c, some_or] at hcount
      rw [schedSwitchMm_user hl hne hm, if_neg hb]
      exact ⟨settle hlay h.books fun i => by have := hcount i; omega, Iff.rfl⟩

end Kernel

end ZzzOs.Sched
