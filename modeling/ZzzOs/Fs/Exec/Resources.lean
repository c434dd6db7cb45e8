import ZzzOs.Fs.Exec.Stack
import ZzzOs.Mm.Space.Populate

/-!
# What `do_execve` gives back

Up to the ELF loader every exit of `do_execve` returns what was taken, unless the stack was only half
built. The loader destroys the `mm` itself when a segment cannot be mapped, and loses the stack; nobody
closes the file or frees the `linux_binprm` when the new program starts.
-/

namespace ZzzOs.Fs.Exec

open Mm Mm.Pgtbl

def enoexec : Int := 8

structure Ledger where
  pool : Pool
  bprms : Int
  files : Int
  mm : Nat
  regs : Nat
  fds : List (Nat × Bool)
deriving DecidableEq

structure Execve where
  filename : Bool
  bprm : Bool
  /-- `filp_open`, an error or not -/
  opened : Int
  mm : MmAlloc
  stack : Area
  tramp : Area
  argc : Int
  envc : Int
  /-- `prepare_elf_aux` -/
  aux : Int
  /-- `copy_strings` of the two vectors -/
  copyArgv : Int
  copyEnvp : Int
  /-- `create_user_stack_layout` -/
  layout : Int
  /-- `unshare_files_struct` -/
  unshare : Int
  /-- `elf_parse_file` returns a header, and `arch_elf_check` accepts it -/
  parsed : Bool
  machine : Bool
  segs : List Area
  /-- the old `mm`, if nobody else uses it -/
  oldMm : Option Holding
  newMm : Nat
  newRegs : Nat
  stack_length : stack.pages.length = userStackPages
  tramp_length : tramp.pages.length = 1

inductive Outcome where
  | ret (r : Int) (l : Ledger)
  | oops
deriving DecidableEq

/-- The labels `mm_failed` and `open_failed`. -/
def closeFile (l : Ledger) : Ledger := { l with files := l.files - 1, bprms := l.bprms - 1 }

/-- The ledger while the new `mm` holds this. -/
def withMm (m : Holding) (l : Ledger) : Ledger := { l with pool := l.pool.hold m }

/-- `mm_destroy` of the new `mm`. -/
def mmDestroy (m : Holding) (l : Ledger) : Ledger := { l with pool := l.pool.mmFree m }

/-- `clear_arg_pages` frees the frames of the stack and the trampoline: all there are until the loader
maps a segment. -/
def clearArgPages (m : Holding) (l : Ledger) : Ledger :=
  { l with pool := ⟨l.pool.pages - m.frames, l.pool.objs⟩ }

def bprmMmDeinit (m : Holding) (l : Ledger) : Ledger := mmDestroy m (clearArgPages m l)

/-- `flush_old_exec`, `start_thread` and `do_close_on_exec`. -/
def Execve.commit (e : Execve) (l : Ledger) : Ledger where
  pool := match e.oldMm with
    | none => l.pool
    | some m => l.pool.mmFree m
  bprms := l.bprms
  files := l.files
  mm := e.newMm
  regs := e.newRegs
  fds := l.fds.filter (·.2 = false)

/-- `search_binary_handler` with the ELF loader, and what follows it. -/
def Execve.load (e : Execve) (m : Holding) (l : Ledger) : Outcome :=
  if e.parsed = false then .ret (-enoexec) (closeFile (bprmMmDeinit m (withMm m l)))
  else if e.machine = false then .ret (-enoexec) (closeFile (mmDestroy m (withMm m l)))
  else
    match placeAreas true e.segs m with
    | .oops => .oops
    | .failed _ m => .ret (-enoexec) (closeFile (mmDestroy m (withMm m l)))
    | .done m => .ret 0 (e.commit (withMm m l))

/-- The steps between `bprm_mm_init` and `search_binary_handler`. -/
def Execve.steps (e : Execve) : List Int :=
  [e.argc, e.envc, e.aux, e.copyArgv, e.copyEnvp, e.layout, e.unshare]

def doExecve (e : Execve) (l : Ledger) : Outcome :=
  if e.filename = false then .ret (-Mm.einval) l
  else if e.bprm = false then .ret (-enomem) l
  else if e.opened < 0 then
    -- only the `linux_binprm` is there
    .ret e.opened { l with bprms := l.bprms + 1 - 1 }
  else
    let l := { l with bprms := l.bprms + 1, files := l.files + 1 }
    if e.mm.ok = false then .ret (-enomem) (closeFile l)
    else
      match placeAreas true [e.stack, e.tramp] .fresh with
      | .oops => .oops
      | .failed r m => .ret r (closeFile (mmDestroy m (withMm m l)))
      | .done m =>
        match e.steps.find? (· < 0) with
        | some r => .ret r (closeFile (bprmMmDeinit m (withMm m l)))
        | none => e.load m l

/-! ## Exact returns -/

/-- An error leaves the caller and the three numbers as they were, and success returns the
`linux_binprm` and the file. -/
def Outcome.Returns (l : Ledger) : Outcome → Prop
  | .ret r l' =>
    (r < 0 → l'.mm = l.mm ∧ l'.regs = l.regs ∧ l'.fds = l.fds ∧
      l'.pool.pages = l.pool.pages ∧ l'.bprms = l.bprms ∧ l'.files = l.files) ∧
    (0 ≤ r → l'.bprms = l.bprms ∧ l'.files = l.files)
  | .oops => False

/-- The call fails before a page of the stack is mapped, or after the stack stands and before the
loader has accepted the header of the file. -/
def Execve.FailsInTime (e : Execve) : Prop :=
  e.filename = false ∨ e.bprm = false ∨ e.opened < 0 ∨ e.mm.ok = false ∨
    StopsEarly true [e.stack, e.tramp] ∨
      (e.stack.Ok true ∧ e.tramp.Ok true) ∧ ((∃ r ∈ e.steps, r < 0) ∨ e.parsed = false)

/-- The pages of the ledger that a destroyed `mm` leaves behind are its frames. -/
theorem returns_mmDestroy_iff (l : Ledger) (m : Holding) {r : Int} (hr : r < 0) :
    (Outcome.ret r (closeFile (mmDestroy m (withMm m
      { l with bprms := l.bprms + 1, files := l.files + 1 })))).Returns l ↔ m.frames = 0 := by
  simp only [Outcome.Returns, closeFile, mmDestroy, withMm, Pool.mmFree_hold, hr, Int.not_le.2 hr]
  simp

theorem returns_deinit (l : Ledger) (m : Holding) {r : Int} (hr : r < 0) :
    (Outcome.ret r (closeFile (bprmMmDeinit m (withMm m
      { l with bprms := l.bprms + 1, files := l.files + 1 })))).Returns l := by
  simp only [Outcome.Returns, closeFile, bprmMmDeinit, mmDestroy, clearArgPages, withMm, Pool.hold,
    Pool.mmFree, hr, Int.not_le.2 hr]
  simp

/-- With frames in the `mm`, the loader returns everything only if it does not take the file. -/
theorem Execve.load_returns_iff (e : Execve) {m : Holding} (l : Ledger) (hm : 0 < m.frames) :
    (e.load m { l with bprms := l.bprms + 1, files := l.files + 1 }).Returns l ↔
      e.parsed = false := by
  by_cases hparsed : e.parsed = false
  · simp only [load, hparsed, if_true, iff_true]
    exact returns_deinit l m (by decide)
  refine iff_of_false ?_ hparsed
  rw [load, if_neg hparsed]
  by_cases hmachine : e.machine = false
  · rw [if_pos hmachine, returns_mmDestroy_iff l m (by decide)]
    exact hm.ne'
  rw [if_neg hmachine]
  have h := placeAreas_meets true e.segs m
  cases hplace : placeAreas true e.segs m with
  | oops => simp [Outcome.Returns]
  | failed r m' =>
    rw [hplace] at h
    exact fun hret => (hm.trans_le h.2.2.1).ne' ((returns_mmDestroy_iff l m' (by decide)).1 hret)
  | done m' => simp [Outcome.Returns, commit, withMm]

/-- **An exec returns what it took exactly when it fails in time.** -/
theorem Execve.returns_iff_failsInTime (e : Execve) (l : Ledger) :
    (doExecve e l).Returns l ↔ e.FailsInTime := by
  simp only [doExecve, FailsInTime]
  split_ifs with hname hbprm hopened hmm
  · simp [Outcome.Returns, hname, Mm.einval]
  · simp [Outcome.Returns, hbprm, enomem]
  · simp [Outcome.Returns, hopened]
  · simp [Outcome.Returns, hmm, closeFile, enomem]
  have h := placeAreas_meets true [e.stack, e.tramp] .fresh
  cases hplace : placeAreas true [e.stack, e.tramp] .fresh with
  | oops =>
    simp_all [Outcome.Returns, Placed.Meets]
  | failed r m =>
    rw [hplace] at h
    obtain ⟨hok, hr, _, hearly⟩ := h
    have hok : ¬(e.stack.Ok true ∧ e.tramp.Ok true) := by simpa using hok
    have hearly : m.frames = 0 ↔ StopsEarly true [e.stack, e.tramp] := hearly
    exact (returns_mmDestroy_iff l m hr).trans (by simp [hearly, hname, hbprm, hopened, hmm, hok])
  | done m =>
    rw [hplace] at h
    obtain ⟨hok, hearly, hle, hnone⟩ := h
    have hpages : e.stack.pages ≠ [] := fun h => by simpa [h, userStackPages] using e.stack_length
    have hm : 0 < m.frames := lt_of_le_of_ne hle fun h => by simp_all [Holding.fresh]
    cases hstep : e.steps.find? (· < 0) with
    | some r =>
      have hr : r < 0 := by simpa using List.find?_some hstep
      refine iff_of_true (returns_deinit l m hr) ?_
      have hstep : ∃ r ∈ e.steps, r < 0 := ⟨r, List.mem_of_find?_eq_some hstep, hr⟩
      exact .inr (.inr (.inr (.inr (.inr ⟨by simpa using hok, .inl hstep⟩))))
    | none =>
      have hsteps : ¬∃ r ∈ e.steps, r < 0 := by simpa using hstep
      exact (e.load_returns_iff l hm).trans
        (by simp [hname, hbprm, hopened, hmm, hearly, hok, hsteps])

/-- An exec without arguments of a file with no segment to load, in which every step succeeds. -/
def plainExec : Execve where
  filename := true
  bprm := true
  opened := 0
  mm := ⟨true, true, true⟩
  stack := ⟨false, true, true, 0, List.replicate userStackPages ⟨true, 0, 0, true⟩⟩
  tramp := ⟨false, true, true, 0, [⟨true, 0, 0, true⟩]⟩
  argc := 0
  envc := 0
  aux := 0
  copyArgv := 0
  copyEnvp := 0
  layout := 0
  unshare := 0
  parsed := true
  machine := true
  segs := []
  oldMm := none
  newMm := 2
  newRegs := 2
  stack_length := List.length_replicate
  tramp_length := rfl

set_option maxRecDepth 4000 in
/-- It keeps the file and the `linux_binprm`; for another machine it fails and keeps 257 frames. -/
theorem plainExec_keeps : (∃ l, ¬(doExecve plainExec l).Returns l) ∧
      ∃ l l', doExecve { plainExec with machine := false } l = .ret (-enoexec) l' ∧
        l'.pool.pages = l.pool.pages + 257 := by
  refine ⟨⟨⟨⟨0, 0⟩, 0, 0, 1, 1, []⟩, fun h => ?_⟩,
    ⟨⟨0, 0⟩, 0, 0, 1, 1, []⟩, ⟨⟨257, 0⟩, 0, 0, 1, 1, []⟩, by decide +kernel, by decide⟩
  exact absurd (h.2 le_rfl).1 (by decide)

end ZzzOs.Fs.Exec
