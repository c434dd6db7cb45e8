import ZzzOs.Mm.Space.Populate

/-!
# What a failed clone gives back

`do_fork_uthread` and `do_fork_kthread` take a task, a signal structure, a kernel stack, a descriptor
table, an `fs_struct` and an `mm`, and undo what they took when a later step fails. The ledger counts
what is taken; the answers of the allocators and of the tid stores are inputs.

Two steps do not undo: a kernel thread whose descriptor table cannot be copied returns `err`, which is
still 0; and `copy_fs_struct` takes the error pointer of `alloc_fs_struct` for an object. Besides,
`mm_destroy` does not return the frames that `dup_mm` has copied.
-/

namespace ZzzOs.Sched.Fork

open Mm Mm.Pgtbl

/-- The pages and objects in use, the live tasks, and the parent's children and counters. -/
structure Ledger where
  pool : Pool
  tasks : Int
  children : List Nat
  filesRef : Int
  fsRef : Int
  mmRef : Int
deriving DecidableEq

def Ledger.add (l : Ledger) (pages objs tasks : Int) : Ledger :=
  { l with pool := ⟨l.pool.pages + pages, l.pool.objs + objs⟩, tasks := l.tasks + tasks }

/-- The parent's `files_struct` has `n` references more, or there are `n` tables more. -/
def Ledger.useFiles (share : Bool) (n : Int) (l : Ledger) : Ledger :=
  if share then { l with filesRef := l.filesRef + n } else l.add 0 n 0

def Ledger.useFs (share : Bool) (n : Int) (l : Ledger) : Ledger :=
  if share then { l with fsRef := l.fsRef + n } else l.add 0 n 0

/-- The answers `dup_task_struct` gets. -/
structure TaskAlloc where
  task : Bool
  signal : Bool
  stack : Bool
deriving DecidableEq

def TaskAlloc.ok (a : TaskAlloc) : Bool := a.task && a.signal && a.stack

/-- A kernel stack is two pages. -/
def threadPages : Int := 2

def dupTaskStruct (a : TaskAlloc) (l : Ledger) : Except (Int × Ledger) Ledger :=
  if a.task = false then .error (-enomem, l)
  else
    let l := l.add 0 0 1
    if a.signal = false then .error (-enomem, l.add 0 0 (-1))
    else
      let l := l.add 0 1 0
      if a.stack = false then .error (-enomem, (l.add 0 (-1) 0).add 0 0 (-1))
      else .ok (l.add threadPages 0 0)

/-- `free_signal_struct`, `free_stack` and `free_task_struct`. -/
def freeTask (l : Ledger) : Ledger :=
  ((l.add 0 (-1) 0).add (-threadPages) 0 0).add 0 0 (-1)

/-- `dup_fd` of the parent's table, `NULL` or not. -/
def dupFd (files share alloc : Bool) (l : Ledger) : Except Int Ledger :=
  if files = false then .error (-einval)
  else if share = false && alloc = false then .error (-enomem)
  else .ok (l.useFiles share 1)

def putFilesStruct (share : Bool) (l : Ledger) : Ledger := l.useFiles share (-1)

/-- `copy_fs_struct`; `none` is the store through the error pointer of `alloc_fs_struct`. -/
def copyFsStruct (fs share alloc : Bool) (l : Ledger) : Except (Option Int) Ledger :=
  if fs = false then .error (some (-einval))
  else if share = false && alloc = false then .error none
  else .ok (l.useFs share 1)

def putFsStruct (share : Bool) (l : Ledger) : Ledger := l.useFs share (-1)

/-- The answers `dup_mm` gets: those of `mm_alloc`, and the areas of the parent with their mapped
pages. -/
structure MmCopy where
  alloc : MmAlloc
  areas : List Area
deriving DecidableEq

/-- What `dup_mm` came to, with what the new `mm` holds; a shared one holds nothing new. -/
def dupMm (mm share : Bool) (a : MmCopy) (l : Ledger) : Placed × Ledger :=
  if mm = false then (.failed (-einval) .fresh, l)
  else if share then (.done .fresh, { l with mmRef := l.mmRef + 1 })
  else if a.alloc.ok = false then (.failed (-enomem) .fresh, l)
  else
    match placeAreas false a.areas .fresh with
    | .done m => (.done m, { l with pool := l.pool.hold m })
    | .failed r m => (.failed r m, { l with pool := (l.pool.hold m).mmFree m })
    | .oops => (.oops, l)

/-- `mm_destroy` drops the reference, and with the last one the `mm`. -/
def mmDestroy (share : Bool) (m : Holding) (l : Ledger) : Ledger :=
  if share then { l with mmRef := l.mmRef - 1 } else { l with pool := l.pool.mmFree m }

def setParentChild (child : Nat) (l : Ledger) : Ledger :=
  { l with children := l.children ++ [child] }

/-- `clear_parent_child` for the child that was added last. -/
def clearParentChild (l : Ledger) : Ledger := { l with children := l.children.dropLast }

/-- A call of `do_fork_uthread`: the parent's pointers, the flags, and what the steps answer. -/
structure Clone where
  regs : Bool
  files : Bool
  fs : Bool
  mm : Bool
  cloneFiles : Bool
  cloneFs : Bool
  cloneVm : Bool
  childSettid : Bool
  parentSettid : Bool
  task : TaskAlloc
  filesAlloc : Bool
  fsAlloc : Bool
  mmCopy : MmCopy
  childTid : Int
  parentTid : Int
  pid : Nat
deriving DecidableEq

inductive Outcome where
  | ret (r : Int) (l : Ledger)
  | oops
deriving DecidableEq

/-- The labels of `do_fork_uthread` from `mm_failed` on. -/
def Clone.undo (c : Clone) (l : Ledger) : Ledger :=
  freeTask (putFilesStruct c.cloneFiles (putFsStruct c.cloneFs l))

/-- `do_fork_uthread` from `dup_mm` on. -/
def Clone.finish (c : Clone) (l : Ledger) : Outcome :=
  match dupMm c.mm c.cloneVm c.mmCopy l with
  | (.oops, _) => .oops
  | (.failed err _, l) => .ret err (c.undo l)
  | (.done m, l) =>
    if c.childSettid && c.childTid < 0 then .ret c.childTid (c.undo (mmDestroy c.cloneVm m l))
    else
      let l := setParentChild c.pid l
      if c.parentSettid && c.parentTid < 0 then
        .ret c.parentTid (c.undo (mmDestroy c.cloneVm m (clearParentChild l)))
      else .ret c.pid l

def doForkUthread (c : Clone) (l : Ledger) : Outcome :=
  if c.regs = false then .ret (-einval) l
  else
    match dupTaskStruct c.task l with
    | .error (err, l) => .ret err l
    | .ok l =>
      match dupFd c.files c.cloneFiles c.filesAlloc l with
      | .error err => .ret err (freeTask l)
      | .ok l =>
        match copyFsStruct c.fs c.cloneFs c.fsAlloc l with
        | .error none => .oops
        | .error (some err) => .ret err (freeTask (putFilesStruct c.cloneFiles l))
        | .ok l => c.finish l

/-- A call of `do_fork_kthread`. -/
structure KThread where
  fn : Bool
  files : Bool
  task : TaskAlloc
  filesAlloc : Bool
  pid : Nat
deriving DecidableEq

def doForkKthread (c : KThread) (l : Ledger) : Outcome :=
  if c.fn = false then .ret (-einval) l
  else
    match dupTaskStruct c.task l with
    | .error (err, l) => .ret err l
    | .ok l =>
      match dupFd c.files false c.filesAlloc l with
      -- `err` has its initial value here
      | .error _ => .ret 0 (freeTask l)
      | .ok l => .ret c.pid (setParentChild c.pid { l with fsRef := l.fsRef + 1 })

/-! ## What failing should leave -/

inductive Creation where
  | uthread (c : Clone)
  | kthread (c : KThread)

def Creation.run : Creation → Ledger → Outcome
  | uthread c => doForkUthread c
  | kthread c => doForkKthread c

def MmCopy.Ok (a : MmCopy) : Prop := a.alloc.ok = true ∧ ∀ v ∈ a.areas, v.Ok false

def Clone.FilesOk (c : Clone) : Prop := c.files = true ∧ (c.cloneFiles = true ∨ c.filesAlloc = true)

def Clone.FsOk (c : Clone) : Prop := c.cloneFs = true ∨ c.fsAlloc = true

def Clone.MmOk (c : Clone) : Prop := c.mm = true ∧ (c.cloneVm = true ∨ c.mmCopy.Ok)

def Clone.TidsOk (c : Clone) : Prop :=
  (c.childSettid = true → 0 ≤ c.childTid) ∧ (c.parentSettid = true → 0 ≤ c.parentTid)

/-- No step of the creation fails. -/
def Creation.Succeeds : Creation → Prop
  | uthread c =>
    c.regs = true ∧ c.task.ok = true ∧ c.FilesOk ∧
      (c.fs = true ∧ c.FsOk) ∧ c.MmOk ∧ c.TidsOk
  | kthread c => c.fn = true ∧ c.task.ok = true ∧ c.files = true ∧ c.filesAlloc = true

structure Balanced (l l' : Ledger) : Prop where
  children : l'.children = l.children
  filesRef : l'.filesRef = l.filesRef
  fsRef : l'.fsRef = l.fsRef
  mmRef : l'.mmRef = l.mmRef
  pages : l'.pool.pages = l.pool.pages
  tasks : l'.tasks = l.tasks

def Creation.Undone (c : Creation) (l : Ledger) : Prop :=
  ¬c.Succeeds → ∃ r l', c.run l = .ret r l' ∧ r < 0 ∧ Balanced l l'

/-- A copy of the `mm` that is given up has no frame in it: it stopped before a page was mapped, or
there was no page to map. -/
def Clone.ReturnsMm (c : Clone) : Prop :=
  c.mm = true → c.cloneVm = false → c.mmCopy.alloc.ok = true →
    StopsEarly false c.mmCopy.areas ∨
      c.mmCopy.Ok ∧ (c.TidsOk ∨ ∀ v ∈ c.mmCopy.areas, v.pages = [])

/-- A clone does not come to a failing allocation of an `fs_struct`, and returns what it copied of the
`mm`; a kernel thread does not come to a failing copy of the descriptor table. -/
def Creation.Recovers : Creation → Prop
  | uthread c =>
    c.regs = true → c.task.ok = true → c.FilesOk → c.fs = true → c.FsOk ∧ c.ReturnsMm
  | kthread c => c.fn = true → c.task.ok = true → c.files = true ∧ c.filesAlloc = true

/-! ## The steps -/

theorem dupTaskStruct_eq (a : TaskAlloc) (l : Ledger) : dupTaskStruct a l =
      if a.ok then .ok (l.add threadPages 1 1) else .error (-enomem, l) := by
  obtain ⟨task, signal, stack⟩ := a
  cases task <;> cases signal <;> cases stack <;> simp [dupTaskStruct, TaskAlloc.ok, Ledger.add]

def Clone.taken (c : Clone) (l : Ledger) : Ledger :=
  ((l.add threadPages 1 1).useFiles c.cloneFiles 1).useFs c.cloneFs 1

theorem freeTask_balanced (l : Ledger) : Balanced l (freeTask (l.add threadPages 1 1)) := by
  constructor <;> simp [freeTask, Ledger.add]

theorem putFiles_balanced (l : Ledger) (share : Bool) :
    Balanced l (freeTask (putFilesStruct share ((l.add threadPages 1 1).useFiles share 1))) := by
  cases share <;> constructor <;> simp [freeTask, putFilesStruct, Ledger.useFiles, Ledger.add]

theorem Clone.undo_balanced_iff (c : Clone) (l : Ledger) (k o : Int) :
    Balanced l (c.undo { c.taken l with pool := ⟨(c.taken l).pool.pages + k, o⟩ }) ↔ k = 0 := by
  have hpages : (c.undo { c.taken l with pool := ⟨(c.taken l).pool.pages + k, o⟩ }).pool.pages =
      l.pool.pages + k := by
    cases hf : c.cloneFiles <;> cases hs : c.cloneFs <;>
      simp [undo, taken, freeTask, putFilesStruct, putFsStruct, Ledger.useFiles, Ledger.useFs,
        Ledger.add, hf, hs] <;> omega
  refine ⟨fun h => ?_, fun hk => ?_⟩
  · have := h.pages
    omega
  · subst hk
    cases hf : c.cloneFiles <;> cases hs : c.cloneFs <;> constructor <;>
      simp [undo, taken, freeTask, putFilesStruct, putFsStruct, Ledger.useFiles, Ledger.useFs,
        Ledger.add, hf, hs]

theorem Clone.undo_balanced (c : Clone) (l : Ledger) : Balanced l (c.undo (c.taken l)) := by
  have h := (c.undo_balanced_iff l 0 (c.taken l).pool.objs).2 rfl
  simpa using h

theorem clearParentChild_set (child : Nat) (l : Ledger) :
    clearParentChild (setParentChild child l) = l := by
  simp [clearParentChild, setParentChild]

/-- Once the child has its `mm`, a failing tid store drops it again. -/
theorem Clone.finish_done {c : Clone} {m : Holding} {l l₁ : Ledger}
    (h : dupMm c.mm c.cloneVm c.mmCopy l = (.done m, l₁)) (htids : ¬c.TidsOk) :
    ∃ r < 0, c.finish l = .ret r (c.undo (mmDestroy c.cloneVm m l₁)) := by
  simp only [finish, h, clearParentChild_set]
  split_ifs with hchild hparent
  · exact ⟨_, by simp_all, rfl⟩
  · exact ⟨_, by simp_all, rfl⟩
  · exact absurd ⟨by simpa using hchild, by simpa using hparent⟩ htids

/-- A copy with frames in it leaves them behind when it is destroyed. -/
theorem mmFree_taken (c : Clone) (l : Ledger) (m : Holding) :
    Balanced l (c.undo { c.taken l with pool := ((c.taken l).pool.hold m).mmFree m }) ↔
      m.frames = 0 := by
  rw [Pool.mmFree_hold]
  exact c.undo_balanced_iff l _ _

theorem Clone.finish_undone_iff (c : Clone) (l : Ledger) :
    (¬(c.MmOk ∧ c.TidsOk) → ∃ r l', c.finish (c.taken l) = .ret r l' ∧ r < 0 ∧ Balanced l l') ↔
      c.ReturnsMm := by
  by_cases hmm : c.mm = false
  · refine iff_of_true (fun _ => ⟨-einval, _, ?_, by decide, c.undo_balanced l⟩) (by simp [ReturnsMm, hmm])
    simp [finish, dupMm, hmm]
  by_cases hvm : c.cloneVm = true
  · refine iff_of_true (fun hfail => ?_) (by simp [ReturnsMm, hvm])
    have htids : ¬c.TidsOk := fun h => hfail ⟨by simp_all [MmOk], h⟩
    have hdup : dupMm c.mm c.cloneVm c.mmCopy (c.taken l) =
        (.done .fresh, { c.taken l with mmRef := (c.taken l).mmRef + 1 }) := by
      simp [dupMm, hmm, hvm]
    obtain ⟨r, hr, hret⟩ := finish_done hdup htids
    refine ⟨r, _, hret, hr, ?_⟩
    simpa [mmDestroy, hvm] using c.undo_balanced l
  by_cases halloc : c.mmCopy.alloc.ok = false
  · refine iff_of_true (fun _ => ⟨-enomem, _, ?_, by decide, c.undo_balanced l⟩)
      (by simp [ReturnsMm, halloc])
    simp [finish, dupMm, hmm, hvm, halloc]
  have h := placeAreas_meets false c.mmCopy.areas .fresh
  cases hplace : placeAreas false c.mmCopy.areas .fresh with
  | done m =>
    rw [hplace] at h
    obtain ⟨hok, hearly, _, hnone⟩ := h
    have hcopy : c.mmCopy.Ok := ⟨by simpa using halloc, hok⟩
    by_cases htids : c.TidsOk
    · refine iff_of_true (fun hfail => absurd ⟨⟨by simpa using hmm, .inr hcopy⟩, htids⟩ hfail) ?_
      exact fun _ _ _ => .inr ⟨hcopy, .inl htids⟩
    · have hdup : dupMm c.mm c.cloneVm c.mmCopy (c.taken l) =
          (.done m, { c.taken l with pool := (c.taken l).pool.hold m }) := by
        simp [dupMm, hmm, hvm, halloc, hplace]
      obtain ⟨r, hr, hret⟩ := finish_done hdup htids
      have hbal := mmFree_taken c l m
      simp only [mmDestroy, hvm] at hret
      simp_all [ReturnsMm, MmOk, Holding.fresh]
  | failed r m =>
    rw [hplace] at h
    obtain ⟨hok, hr, _, hearly⟩ := h
    have hret : c.finish (c.taken l) = .ret r
        (c.undo { c.taken l with pool := ((c.taken l).pool.hold m).mmFree m }) := by
      simp [finish, dupMm, hmm, hvm, halloc, hplace]
    have hbal := mmFree_taken c l m
    have hcopy : ¬c.mmCopy.Ok := fun h => hok h.2
    simp_all [ReturnsMm, MmOk, Holding.fresh]
  | oops =>
    rw [hplace] at h
    exact absurd h.2.1 (by simp)

theorem Balanced.refl (l : Ledger) : Balanced l l := ⟨rfl, rfl, rfl, rfl, rfl, rfl⟩

theorem Creation.recovers_of_ret {c : Creation} {l l' : Ledger} {r : Int} (h : c.run l = .ret r l')
    (hr : r < 0) (hbal : Balanced l l') (hrec : c.Recovers) : c.Undone l ↔ c.Recovers :=
  iff_of_true (fun _ => ⟨r, l', h, hr, hbal⟩) hrec

theorem dupFd_refused {files share alloc : Bool} {l : Ledger}
    (h : ¬(files = true ∧ (share = true ∨ alloc = true))) :
    ∃ e < 0, dupFd files share alloc l = .error e := by
  cases files with
  | false => exact ⟨-einval, by decide, rfl⟩
  | true =>
    refine ⟨-enomem, by decide, ?_⟩
    simp_all [dupFd]

/-- **A failed creation returns an error and has changed nothing exactly when it recovers.** -/
theorem Creation.undone_iff_recovers (c : Creation) (l : Ledger) : c.Undone l ↔ c.Recovers := by
  cases c with
  | kthread c =>
    by_cases hfn : c.fn = false
    · have hrun : run (.kthread c) l = .ret (-einval) l := by simp [run, doForkKthread, hfn]
      exact recovers_of_ret hrun (by decide) (.refl l) (by simp [Recovers, hfn])
    by_cases htask : c.task.ok = false
    · have hrun : run (.kthread c) l = .ret (-enomem) l := by
        simp [run, doForkKthread, dupTaskStruct_eq, hfn, htask]
      exact recovers_of_ret hrun (by decide) (.refl l) (by simp [Recovers, htask])
    by_cases hfiles : c.files = true ∧ c.filesAlloc = true
    · exact iff_of_true (fun h => absurd (by simp_all [Succeeds]) h) fun _ _ => hfiles
    · refine iff_of_false (fun h => ?_) (by simp_all [Recovers])
      obtain ⟨r, l', hret, hr, _⟩ := h fun h => hfiles h.2.2
      obtain ⟨e, _, hdup⟩ := dupFd_refused (l := l.add threadPages 1 1)
        (show ¬(c.files = true ∧ (false = true ∨ c.filesAlloc = true)) by simpa using hfiles)
      have hrun : run (.kthread c) l = .ret 0 (freeTask (l.add threadPages 1 1)) := by
        simp [run, doForkKthread, dupTaskStruct_eq, hfn, htask, hdup]
      cases hrun.symm.trans hret
      exact absurd hr (by decide)
  | uthread c =>
    by_cases hregs : c.regs = false
    · have hrun : run (.uthread c) l = .ret (-einval) l := by simp [run, doForkUthread, hregs]
      exact recovers_of_ret hrun (by decide) (.refl l) (by simp [Recovers, hregs])
    by_cases htask : c.task.ok = false
    · have hrun : run (.uthread c) l = .ret (-enomem) l := by
        simp [run, doForkUthread, dupTaskStruct_eq, hregs, htask]
      exact recovers_of_ret hrun (by decide) (.refl l) (by simp [Recovers, htask])
    by_cases hfiles : c.FilesOk
    swap
    · obtain ⟨e, he, hdup⟩ := dupFd_refused (l := l.add threadPages 1 1) hfiles
      have hrun : run (.uthread c) l = .ret e (freeTask (l.add threadPages 1 1)) := by
        simp [run, doForkUthread, dupTaskStruct_eq, hregs, htask, hdup]
      exact recovers_of_ret hrun he (freeTask_balanced l) fun _ _ h => absurd h hfiles
    have hdup : dupFd c.files c.cloneFiles c.filesAlloc (l.add threadPages 1 1) =
        .ok ((l.add threadPages 1 1).useFiles c.cloneFiles 1) := by
      obtain ⟨hpresent, hshare⟩ := hfiles
      rcases hshare with h | h <;> simp [dupFd, hpresent, h]
    by_cases hfs : c.fs = false
    · have hrun : run (.uthread c) l = .ret (-einval) (freeTask (putFilesStruct c.cloneFiles
          ((l.add threadPages 1 1).useFiles c.cloneFiles 1))) := by
        simp [run, doForkUthread, dupTaskStruct_eq, copyFsStruct, hregs, htask, hdup, hfs]
      exact recovers_of_ret hrun (by decide) (putFiles_balanced l _) (by simp [Recovers, hfs])
    by_cases hfsok : c.FsOk
    · have hrun : run (.uthread c) l = c.finish (c.taken l) := by
        rcases hfsok with h | h <;>
          simp [run, doForkUthread, dupTaskStruct_eq, copyFsStruct, Clone.taken, hregs, htask, hdup,
            hfs, h]
      simpa [Undone, Recovers, Succeeds, hrun, hregs, htask, hfiles, hfs, hfsok] using
        c.finish_undone_iff l
    · -- the error pointer of `alloc_fs_struct` is written through
      have hrun : run (.uthread c) l = .oops := by
        have : c.cloneFs = false ∧ c.fsAlloc = false := by simpa [Clone.FsOk] using hfsok
        simp [run, doForkUthread, dupTaskStruct_eq, copyFsStruct, hregs, htask, hdup, hfs, this]
      refine iff_of_false (fun h => ?_) fun h => hfsok ?_
      · obtain ⟨r, l', hret, _⟩ := h fun h => hfsok h.2.2.2.1.2
        simp [hrun] at hret
      · exact (h (by simpa using hregs) (by simpa using htask) hfiles (by simpa using hfs)).1

def noTable : KThread := ⟨true, true, ⟨true, true, true⟩, false, 7⟩

/-- A fork of a process with one mapped page, whose `child_tid` cannot be stored. -/
def lateTid : Clone where
  regs := true
  files := true
  fs := true
  mm := true
  cloneFiles := false
  cloneFs := false
  cloneVm := false
  childSettid := true
  parentSettid := false
  task := ⟨true, true, true⟩
  filesAlloc := true
  fsAlloc := true
  mmCopy := ⟨⟨true, true, true⟩, [⟨false, true, true, 0, [⟨true, 0, 2, true⟩]⟩]⟩
  childTid := -efault
  parentTid := 0
  pid := 7

/-- The caller of the first gets 0; the second keeps the copied page. -/
theorem failed_creations_not_undone :
    (∃ l, (Creation.kthread noTable).run l = .ret 0 l ∧ ¬(Creation.kthread noTable).Undone l) ∧
      ∃ l l', (Creation.uthread lateTid).run l = .ret (-efault) l' ∧
        l'.pool.pages = l.pool.pages + 1 ∧ ¬(Creation.uthread lateTid).Undone l := by
  refine ⟨⟨⟨⟨0, 0⟩, 1, [], 1, 1, 1⟩, by decide +kernel, fun h => ?_⟩,
    ⟨⟨0, 0⟩, 1, [], 1, 1, 1⟩, ⟨⟨1, 0⟩, 1, [], 1, 1, 1⟩, by decide +kernel, by decide, fun h => ?_⟩
  · obtain ⟨r, l', hret, hr, _⟩ := h (by simp [Creation.Succeeds, noTable])
    have hzero : Outcome.ret r l' = .ret 0 ⟨⟨0, 0⟩, 1, [], 1, 1, 1⟩ :=
      hret.symm.trans (by decide +kernel)
    cases hzero
    exact absurd hr (by decide)
  · obtain ⟨r, l', hret, _, hbal⟩ := h (by
      simp [Creation.Succeeds, Clone.TidsOk, lateTid, efault])
    have hleak : Outcome.ret r l' = .ret (-efault) ⟨⟨1, 0⟩, 1, [], 1, 1, 1⟩ :=
      hret.symm.trans (by decide +kernel)
    cases hleak
    exact absurd hbal.pages (by decide)

end ZzzOs.Sched.Fork
