import ZzzOs.Fs.Fd.Model
import ZzzOs.Lib.Update

/-!
# Access modes

A description keeps the access mode it was opened with: `F_SETFL` changes other flags only. `sys_read`
looks at a bit that `O_WRONLY` has and so refuses a file that was opened for writing. `sys_write`
looks for `O_RDONLY`, which is 0: it refuses no file.
-/

namespace ZzzOs.Fs.Fd

open List Function Lib

variable {α : Type} {s s' : Sys} {t f len n i done : Nat}
  {fd flags start cmd arg opened : BitVec 32} {file file' : File} {c : Call}
  {E : Crash → Sys → Prop} {files : FilesStruct} {fds : List Nat} {io : WriteIo} {op : Op}
  {ret : Int} {I : Sys → Prop} {mem flag cloneFiles : Bool}

/-! ## Flags -/

def ModesKept (s : Sys) : Prop :=
  ∀ f file, s.files f = some file → file.fFlags &&& oAccmode = file.opened &&& oAccmode

def Respected (s : Sys) : Prop :=
  ∀ e ∈ s.log, ¬ (e.op = .write ∧ e.opened &&& oAccmode = oRdonly) ∧
    ¬ (e.op = .read ∧ e.opened &&& oAccmode = oWronly)

theorem setFlags_accmode (flags arg : BitVec 32) :
    setFlags flags arg &&& oAccmode = flags &&& oAccmode := by
  have hkept : ~~~fcntlSettableFlags &&& oAccmode = oAccmode := by decide
  have hnone : fcntlSettableFlags &&& oAccmode = 0#32 := by decide
  rw [setFlags, BitVec.and_or_distrib_right, BitVec.and_assoc, BitVec.and_assoc, hkept, hnone,
    BitVec.and_zero, BitVec.or_zero]

theorem hasFlag_wronly (hmode : flags &&& oAccmode = opened &&& oAccmode)
    (hopened : opened &&& oAccmode = oWronly) : hasFlag flags oWronly = true := by
  have hbit : oWronly = oAccmode &&& oWronly := by decide
  have hand : flags &&& oWronly = oWronly := by
    rw [hbit, ← BitVec.and_assoc, hmode, hopened]
    decide
  rw [hasFlag, hand]
  decide

theorem hasFlag_rdonly (flags : BitVec 32) : hasFlag flags oRdonly = false := by
  have hand : flags &&& oRdonly = 0 := BitVec.and_zero
  rw [hasFlag, hand]
  decide

/-! ## Calls that invoke nothing -/

structure Quiet (s s' : Sys) : Prop where
  log : s'.log = s.log
  modes : ModesKept s → ModesKept s'

instance : Std.Refl Quiet := ⟨fun _ => ⟨rfl, id⟩⟩

instance : IsTrans Sys Quiet :=
  ⟨fun _ _ _ h₁ h₂ => ⟨h₂.log.trans h₁.log, fun h => h₂.modes (h₁.modes h)⟩⟩

theorem ModesKept.of_files (h : ModesKept s) (hfiles : s'.files = s.files) : ModesKept s' := by
  unfold ModesKept
  rw [hfiles]
  exact h

theorem quiet_of_files (hlog : s'.log = s.log) (hfiles : s'.files = s.files) : Quiet s s' :=
  ⟨hlog, fun h => h.of_files hfiles⟩

theorem quiet_setFile {v : Option File} (hfiles : s'.files = update s.files f v)
    (hlog : s'.log = s.log)
    (h : (∀ file, s.files f = some file → file.fFlags &&& oAccmode = file.opened &&& oAccmode) →
      ∀ file, v = some file → file.fFlags &&& oAccmode = file.opened &&& oAccmode) : Quiet s s' := by
  refine ⟨hlog, fun hmodes g => ?_⟩
  rw [hfiles]
  exact update_cases (fun _ => h (hmodes f)) fun _ => hmodes g

theorem tableAt_quiet : Keeps Quiet (tableAt t) := by
  intro s
  unfold wp tableAt
  by_cases ht : t < s.tablesNr
  · rw [if_pos ht]
    exact refl_of Quiet s
  · rw [if_neg ht]
    exact refl_of Quiet s

theorem fileAt_cases {Q : File → Sys → Prop}
    (hfreed : s.files f = none → E .freed s) (hfile : ∀ file, s.files f = some file → Q file s) :
    wp (fileAt f) Q E s := by
  unfold wp fileAt
  cases hf : s.files f with
  | none => exact hfreed hf
  | some file => exact hfile file hf

theorem setTable_quiet : Keeps Quiet (setTable t files) :=
  .modify fun _ => quiet_of_files rfl rfl

theorem quiet_change (hfile : s.files f = some file) (hopened : file'.opened = file.opened)
    (hmode : file'.fFlags &&& oAccmode = file.fFlags &&& oAccmode) :
    Quiet s (s.setFile f (some file')) := by
  refine quiet_setFile rfl rfl fun hold _ hfile' => ?_
  cases hfile'
  rw [hopened, hmode, hold file hfile]

theorem getFile_quiet : Keeps Quiet (getFile f) := fun s =>
  wp_bind.2 (fileAt_cases (fun _ => refl_of Quiet s) fun _ hfile => wp_modify.2 (quiet_change hfile rfl rfl))

theorem putFile_quiet : Keeps Quiet (putFile f) := fun s =>
  wp_bind.2 (fileAt_cases (fun _ => refl_of Quiet s) fun _ hfile => wp_modify.2 (quiet_change hfile rfl rfl))

theorem filpClose_quiet : Keeps Quiet (filpClose f) :=
  .modify fun _ => quiet_setFile rfl rfl fun _ => nofun

theorem fileReleaseLastRef_quiet : Keeps Quiet (fileReleaseLastRef f) := by
  intro s
  refine wp_bind.2 (fileAt_cases (fun _ => refl_of Quiet s) fun file _ => ?_)
  split
  · exact filpClose_quiet s
  · exact refl_of Quiet s

theorem newFile_quiet {fOp : FileOperations} : Keeps Quiet (newFile fOp flags) := by
  refine fun s => quiet_setFile rfl rfl fun _ file hfile => ?_
  cases hfile
  rfl

theorem allocFd_quiet : Keeps Quiet (allocFd t start flags) := by
  refine tableAt_quiet.bind fun files => ?_
  cases files.alloc start.toNat (hasFlag flags oCloexec) with
  | none => exact .pure
  | some r => exact setTable_quiet.bind fun _ => .pure

theorem attachFd_quiet : Keeps Quiet (attachFd t fd f) := by
  exact tableAt_quiet.bind fun files => .ite .throw setTable_quiet

theorem closeFd_quiet : Keeps Quiet (closeFd t fd) := by
  refine tableAt_quiet.bind fun files => .ite .pure ?_
  cases files.fd fd.toNat with
  | none => exact .pure
  | some f =>
    exact setTable_quiet.bind fun _ => putFile_quiet.bind fun _ =>
      fileReleaseLastRef_quiet.bind fun _ => .pure

theorem sysFdget_quiet : Keeps Quiet (sysFdget t fd) :=
  .ite .pure (tableAt_quiet.bind fun _ => .ite .pure .pure)

theorem fdGetFile_quiet : Keeps Quiet (fdGetFile t fd) := by
  refine tableAt_quiet.bind fun files => .ite ?_ .pure
  cases files.fd fd.toNat with
  | none => exact .pure
  | some f => exact getFile_quiet.bind fun _ => .pure

theorem getFiles_quiet : Keeps Quiet (getFiles files fds) := by
  induction fds with
  | nil => exact .pure
  | cons fd fds ih =>
    unfold getFiles
    cases files.fd fd with
    | none => exact ih
    | some f => exact getFile_quiet.bind fun _ => ih

theorem dupFd_quiet : Keeps Quiet (dupFd t mem) := by
  refine tableAt_quiet.bind fun files => ?_
  cases mem with
  | false => exact .pure
  | true => exact getFiles_quiet.bind fun _ => fun s => quiet_of_files rfl rfl

theorem sysOpen_quiet {file : Except Int FileOperations} : Keeps Quiet (sysOpen t flags file) := by
  cases file with
  | error ret => exact .pure
  | ok fOp =>
    exact newFile_quiet.bind fun f => allocFd_quiet.bind fun fd =>
      .ite (filpClose_quiet.bind fun _ => .pure) (attachFd_quiet.bind fun _ => .pure)

theorem dupFrom_quiet : Keeps Quiet (dupFrom t fd start flags) := by
  refine fdGetFile_quiet.bind fun r => ?_
  cases r with
  | none => exact .pure
  | some f =>
    exact allocFd_quiet.bind fun newfd =>
      .ite (putFile_quiet.bind fun _ => .pure) (attachFd_quiet.bind fun _ => .pure)

theorem sysDup2_quiet {oldfd newfd : BitVec 32} : Keeps Quiet (sysDup2 t oldfd newfd) := by
  refine .ite .pure (fdGetFile_quiet.bind fun r => ?_)
  cases r with
  | none => exact .pure
  | some f => exact closeFd_quiet.bind fun _ => attachFd_quiet.bind fun _ => .pure

theorem fcntlDupfd_quiet : Keeps Quiet (fcntlDupfd t fd arg flags) :=
  .ite .pure dupFrom_quiet

theorem fdGetCloseOnExec_quiet : Keeps Quiet (fdGetCloseOnExec t fd) :=
  .ite .pure (tableAt_quiet.bind fun _ => .ite .pure .pure)

theorem setCloseOnExec_quiet : Keeps Quiet (setCloseOnExec t fd flag) :=
  tableAt_quiet.bind fun _ => .ite .throw setTable_quiet

theorem sysFcntl_quiet {arg : BitVec 64} : Keeps Quiet (sysFcntl t fd cmd arg) := by
  unfold sysFcntl
  cases Fcntl.ofCmd cmd with
  | none => exact .pure
  | some cmd =>
    cases cmd with
    | dupfd | dupfdCloexec => exact fcntlDupfd_quiet
    | getfd => exact fdGetCloseOnExec_quiet
    | setfd =>
      refine sysFdget_quiet.bind fun r => ?_
      cases r with
      | none => exact .pure
      | some f => exact setCloseOnExec_quiet.bind fun _ => .pure
    | getfl =>
      refine sysFdget_quiet.bind fun r => ?_
      cases r with
      | none => exact .pure
      | some f => exact fun s => wp_bind.2 (fileAt_cases (fun _ => refl_of Quiet s) fun _ _ => refl_of Quiet s)
    | setfl =>
      refine sysFdget_quiet.bind fun r => ?_
      cases r with
      | none => exact .pure
      | some f =>
        intro s
        refine wp_bind.2 (fileAt_cases (fun _ => refl_of Quiet s) fun file hfile => ?_)
        exact quiet_change hfile rfl (setFlags_accmode file.fFlags _)

theorem sysPipe_quiet {io : PipeIo} : Keeps Quiet (sysPipe t io) := by
  cases io with
  | failed ret => exact .pure
  | made copied =>
    refine newFile_quiet.bind fun rfile => newFile_quiet.bind fun wfile => allocFd_quiet.bind fun fd0 =>
      .ite (filpClose_quiet.bind fun _ => filpClose_quiet.bind fun _ => .pure) ?_
    refine attachFd_quiet.bind fun _ => allocFd_quiet.bind fun fd1 =>
      .ite (closeFd_quiet.bind fun _ => filpClose_quiet.bind fun _ => .pure) ?_
    exact attachFd_quiet.bind fun _ => .ite .pure (closeFd_quiet.bind fun _ =>
      closeFd_quiet.bind fun _ => .pure)

theorem sysFork_quiet : Keeps Quiet (sysFork t cloneFiles mem) := by
  unfold sysFork
  split
  · exact tableAt_quiet.bind fun _ => setTable_quiet.bind fun _ => .pure
  · refine dupFd_quiet.bind fun r => ?_
    cases r <;> exact .pure

theorem closeOnExecAt_quiet {fd : Nat} : Keeps Quiet (closeOnExecAt t fd) := by
  refine tableAt_quiet.bind fun files => .ite (setTable_quiet.bind fun _ => ?_) .pure
  cases files.fd fd with
  | none => exact .throw
  | some f => exact putFile_quiet.bind fun _ => fileReleaseLastRef_quiet

theorem doCloseOnExec_quiet : Keeps Quiet (doCloseOnExec t fds) := by
  induction fds with
  | nil => exact .pure
  | cons fd fds ih => exact closeOnExecAt_quiet.bind fun _ => ih

theorem doExecve_quiet {io : ExecIo} : Keeps Quiet (doExecve t io) := by
  have hunshare : Keeps Quiet (unshareFilesStruct t io.mem) := by
    refine tableAt_quiet.bind fun files => .ite .pure (dupFd_quiet.bind fun r => ?_)
    cases r with
    | none => exact .pure
    | some t' => exact tableAt_quiet.bind fun _ => setTable_quiet.bind fun _ => .pure
  refine .ite .pure (hunshare.bind fun r => ?_)
  cases r with
  | none => exact .pure
  | some t' => exact .ite .pure (doCloseOnExec_quiet.bind fun _ => .pure)

/-! ## Reading and writing -/

/-- The descriptor is open on the description. -/
structure Slot (s : Sys) (t fd f : Nat) : Prop where
  table : t < s.tablesNr
  bound : fd < maxOpenFilesNum
  isOpen : (s.tables t).openFds fd = true
  slot : (s.tables t).fd fd = some f

theorem fd_range : (¬ fd.toInt < 0 ∧ fd.toInt < maxOpenFilesNum) ↔ fd.toNat < maxOpenFilesNum := by
  rw [BitVec.toInt_eq_toNat_cond]
  unfold maxOpenFilesNum
  split <;> omega

theorem sysFdget_cases {Q : Option Nat → Sys → Prop}
    (hfreed : (∀ f, ¬ Slot s t fd.toNat f) → E .freed s)
    (hnone : (∀ f, ¬ Slot s t fd.toNat f) → Q none s)
    (hsome : ∀ f, Slot s t fd.toNat f → Q (some f) s) : wp (sysFdget t fd) Q E s := by
  unfold sysFdget
  split <;> rename_i hneg
  · exact hnone fun f h => (fd_range.2 h.bound).1 hneg
  · refine wp_bind.2 ?_
    unfold wp tableAt
    by_cases ht : t < s.tablesNr
    · rw [if_pos ht]
      dsimp only
      by_cases hopen : fd.toInt < maxOpenFilesNum ∧ (s.tables t).openFds fd.toNat = true
      · rw [if_pos hopen]
        cases hslot : (s.tables t).fd fd.toNat with
        | none => exact hnone fun f h => by rw [h.slot] at hslot; cases hslot
        | some f => exact hsome f ⟨ht, fd_range.1 ⟨hneg, hopen.1⟩, hopen.2, hslot⟩
      · rw [if_neg hopen]
        exact hnone fun f h => hopen ⟨(fd_range.2 h.bound).2, h.isOpen⟩
    · rw [if_neg ht]
      exact hfreed fun f h => ht h.table

def Logged (e : Invocation) (s s' : Sys) : Prop :=
  s'.files = s.files ∧ ∃ n, s'.log = List.replicate n e ++ s.log

instance {e : Invocation} : Std.Refl (Logged e) := ⟨fun _ => ⟨rfl, 0, rfl⟩⟩

instance {e : Invocation} : IsTrans Sys (Logged e) where
  trans s₁ s₂ s₃ h₁ h₂ := by
    obtain ⟨hfiles₁, n₁, hlog₁⟩ := h₁
    obtain ⟨hfiles₂, n₂, hlog₂⟩ := h₂
    refine ⟨hfiles₂.trans hfiles₁, n₂ + n₁, ?_⟩
    rw [hlog₂, hlog₁, ← List.append_assoc, List.replicate_append_replicate]

/-- The operation `op` of a file -/
def FileOperations.has (fOp : FileOperations) : Op → Bool
  | .read => fOp.read
  | .write => fOp.write

theorem invoke_eq (hfile : s.files f = some file) : invoke f op ret s =
    if file.fOp.has op then .ok ret { s with log := { opened := file.opened, op } :: s.log }
    else .ok (-einval) s := by
  have hat : fileAt f s = .ok file s := by rw [fileAt, hfile]
  unfold invoke
  rw [run_bind_ok hat]
  cases op with
  | read => cases hop : file.fOp.read <;> simp [FileOperations.has, hop] <;> rfl
  | write => cases hop : file.fOp.write <;> simp [FileOperations.has, hop] <;> rfl

theorem invoke_logged (hfile : s.files f = some file) :
    wp (invoke f op ret) (fun _ s' => Logged { opened := file.opened, op } s s') (fun _ _ => False) s := by
  unfold wp
  rw [invoke_eq hfile]
  cases file.fOp.has op with
  | false => exact refl_of (Logged _) s
  | true => exact ⟨rfl, 1, rfl⟩

/-- What every invocation keeps, the loop keeps. -/
theorem readLoop_rule {io : ReadIo}
    (hinvoke : ∀ s ret, I s → wp (invoke f .read ret) (fun _ => I) E s) (hs : I s) :
    wp (readLoop io f len n i done) (fun _ => I) E s := by
  induction n generalizing s i done with
  | zero => exact hs
  | succ n ih =>
    refine wp_ite (fun _ => hs) fun _ => wp_seq (hinvoke s _ hs) fun ret s₁ hs₁ => ?_
    exact wp_ite (fun _ => hs₁) fun _ => wp_ite (fun _ => hs₁) fun _ => wp_ite (fun _ => hs₁) fun _ =>
      wp_ite (fun _ => hs₁) fun _ => ih hs₁

theorem writeLoop_rule
    (hinvoke : ∀ s ret, I s → wp (invoke f .write ret) (fun _ => I) E s) (hs : I s) :
    wp (writeLoop io f len n i done) (fun _ => I) E s := by
  induction n generalizing s i done with
  | zero => exact hs
  | succ n ih =>
    refine wp_ite (fun _ => hs) fun _ => wp_ite (fun _ => hs) fun _ =>
      wp_seq (hinvoke s _ hs) fun ret s₁ hs₁ => ?_
    exact wp_ite (fun _ => hs₁) fun _ => wp_ite (fun _ => hs₁) fun _ => wp_ite (fun _ => hs₁) fun _ => ih hs₁

theorem invoke_logged_again (hfile : s.files f = some file)
    (h : Logged { opened := file.opened, op } s s') :
    wp (invoke f op ret) (fun _ => Logged { opened := file.opened, op } s) (fun _ _ => False) s' :=
  wp_post (fun _ _ h' => trans_of (Logged _) h h') (invoke_logged (by rw [h.1, hfile]))

/-- A call that writes to the file: there is something to write, memory for it, a buffer of the user
that can be read, and an operation. -/
structure WritesTo (s : Sys) (t : Nat) (fd : BitVec 32) (len : Nat) (io : WriteIo) (file : File) :
    Prop where
  target : ∃ f, Slot s t fd.toNat f ∧ s.files f = some file
  len : len ≠ 0
  mem : io.mem = true
  copied : io.copied 0 = true
  op : file.fOp.write = true

/-- The file of the descriptor is the only one that the call can write to. -/
theorem WritesTo.file_eq (h : WritesTo s t fd len io file)
    (hslot : Slot s t fd.toNat f) : s.files f = some file := by
  obtain ⟨f', hslot', hfile'⟩ := h.target
  rw [show f = f' from Option.some.inj (hslot.slot.symm.trans hslot'.slot)]
  exact hfile'

theorem WritesTo.unique (h : WritesTo s t fd len io file)
    (h' : WritesTo s t fd len io file') : file' = file := by
  obtain ⟨f, hslot, hfile⟩ := h.target
  exact Option.some.inj ((h'.file_eq hslot).symm.trans hfile)

theorem writeLoop_writes (hfile : s.files f = some file) (hlen : len ≠ 0)
    (hcopied : io.copied 0 = true) (hop : file.fOp.write = true) :
    wp (writeLoop io f len len 0 0) (fun _ s' => s'.files = s.files ∧
      ∃ n, s'.log = List.replicate (n + 1) { opened := file.opened, op := .write } ++ s.log)
      (fun _ _ => False) s := by
  obtain ⟨n, rfl⟩ := Nat.exists_eq_succ_of_ne_zero hlen
  unfold writeLoop
  rw [if_neg (by omega), hcopied]
  have hinvoke : invoke f .write (io.ret 0) s =
      .ok (io.ret 0) { s with log := { opened := file.opened, op := .write } :: s.log } := by
    rw [invoke_eq hfile]
    exact if_pos hop
  have hgrown : ∀ s', Logged { opened := file.opened, op := .write }
      { s with log := { opened := file.opened, op := .write } :: s.log } s' → s'.files = s.files ∧
        ∃ n, s'.log = List.replicate (n + 1) { opened := file.opened, op := .write } ++ s.log := by
    rintro s' ⟨hfiles, n, hlog⟩
    refine ⟨hfiles, n, ?_⟩
    rw [hlog, replicate_succ']
    simp
  have hone := hgrown _ (refl_of (Logged _) _)
  refine wp_of_bind_ok hinvoke (wp_ite (fun _ => hone) fun _ => wp_ite (fun _ => hone) fun _ =>
    wp_ite (fun _ => hone) fun _ => ?_)
  exact wp_post (fun _ _ h => hgrown _ h)
    (writeLoop_rule (fun _ _ => invoke_logged_again hfile) (refl_of (Logged _) _))

theorem writeLoop_idle (hfile : s.files f = some file) (hlen : len ≠ 0)
    (hnot : ¬ (io.copied 0 = true ∧ file.fOp.write = true)) :
    wp (writeLoop io f len len 0 0) (fun _ s' => s' = s) (fun _ _ => False) s := by
  obtain ⟨n, rfl⟩ := Nat.exists_eq_succ_of_ne_zero hlen
  unfold writeLoop
  rw [if_neg (by omega)]
  split
  · exact rfl
  · rename_i hcopied
    have hop : ¬ file.fOp.has .write = true := fun hop => hnot ⟨by simpa using hcopied, hop⟩
    have hinvoke : invoke f .write (io.ret 0) s = .ok (-einval) s := by
      rw [invoke_eq hfile, if_neg hop]
    refine wp_of_bind_ok hinvoke ?_
    exact rfl

/-- How a call can end. -/
inductive Outcome (s : Sys) (t : Nat) (c : Call) (s' : Sys) : Prop
  | quiet : Quiet s s' → (∀ fd len io file, c = .write fd len io → ¬ WritesTo s t fd len io file) →
      Outcome s t c s'
  | read {fd : BitVec 32} {len f : Nat} {io : ReadIo} {file : File} : c = .read fd len io →
      s.files f = some file → hasFlag file.fFlags oWronly = false →
      Logged { opened := file.opened, op := .read } s s' → Outcome s t c s'
  | wrote {fd : BitVec 32} {len n : Nat} {io : WriteIo} {file : File} : c = .write fd len io →
      WritesTo s t fd len io file → s'.files = s.files →
      s'.log = List.replicate (n + 1) { opened := file.opened, op := .write } ++ s.log →
      Outcome s t c s'

theorem sysRead_outcome {io : ReadIo} :
    wp (sysRead t fd len io) (fun _ s' => Outcome s t (.read fd len io) s')
      (fun _ s' => Outcome s t (.read fd len io) s') s := by
  have hquiet : Outcome s t (.read fd len io) s := .quiet (refl_of Quiet s) nofun
  refine wp_ite (fun _ => hquiet) fun _ => wp_bind.2 ?_
  refine sysFdget_cases (fun _ => hquiet) (fun _ => hquiet) fun f hslot => wp_bind.2 ?_
  refine fileAt_cases (fun _ => hquiet) fun file hfile => wp_ite (fun _ => hquiet) fun hflag => ?_
  refine wp_ite (fun _ => hquiet) fun _ => ?_
  exact wp_mono (fun _ _ h => .read rfl hfile (Bool.eq_false_iff.2 hflag) h) (fun _ _ h => h.elim)
    (readLoop_rule (fun _ _ => invoke_logged_again hfile) (refl_of (Logged _) s))

theorem sysWrite_outcome : wp (sysWrite t fd len io) (fun _ s' => Outcome s t (.write fd len io) s')
      (fun _ s' => Outcome s t (.write fd len io) s') s := by
  have hquiet : (∀ file, ¬ WritesTo s t fd len io file) → Outcome s t (.write fd len io) s := by
    refine fun hnot => .quiet (refl_of Quiet s) fun fd' len' io' file heq => ?_
    cases heq
    exact hnot file
  unfold sysWrite
  split
  · rename_i hlen
    exact hquiet fun file h => h.len hlen
  · rename_i hlen
    have hnone : (∀ f, ¬ Slot s t fd.toNat f) → ∀ file, ¬ WritesTo s t fd len io file := by
      intro hnone file h
      obtain ⟨f, hslot, -⟩ := h.target
      exact hnone f hslot
    refine wp_bind.2 (sysFdget_cases (fun h => hquiet (hnone h)) (fun h => hquiet (hnone h))
      fun f hslot => ?_)
    refine wp_bind.2 (fileAt_cases (fun hfreed => hquiet fun file h => ?_) fun file hfile => ?_)
    · rw [h.file_eq hslot] at hfreed
      cases hfreed
    · rw [hasFlag_rdonly, if_neg Bool.false_ne_true]
      split
      · rename_i hmem
        exact hquiet fun file' h => by
          rw [h.mem] at hmem
          cases hmem
      · rename_i hmem
        by_cases hgoes : io.copied 0 = true ∧ file.fOp.write = true
        · refine wp_mono (fun _ s' h => ?_) (fun _ _ h => h.elim)
            (writeLoop_writes hfile hlen hgoes.1 hgoes.2)
          obtain ⟨hsame, n, hlog⟩ := h
          exact .wrote rfl ⟨⟨f, hslot, hfile⟩, hlen, by simpa using hmem, hgoes.1, hgoes.2⟩ hsame hlog
        · have hnot : ∀ file', ¬ WritesTo s t fd len io file' := by
            intro file' h
            cases hfile.symm.trans (h.file_eq hslot)
            exact hgoes ⟨h.copied, h.op⟩
          refine wp_mono (fun _ s' h => ?_) (fun _ _ h => h.elim) (writeLoop_idle hfile hlen hgoes)
          subst h
          exact hquiet hnot

theorem Call.outcome (c : Call) :
    wp (c.run t) (fun _ s' => Outcome s t c s') (fun _ s' => Outcome s t c s') s := by
  have hquiet : ∀ {x : F Int}, Keeps Quiet x → (∀ fd len io, c ≠ .write fd len io) →
      wp x (fun _ s' => Outcome s t c s') (fun _ s' => Outcome s t c s') s := by
    intro x hx hc
    have hnot : ∀ fd len io file, c = .write fd len io → ¬ WritesTo s t fd len io file :=
      fun fd len io _ heq => absurd heq (hc fd len io)
    exact wp_mono (fun _ _ h => .quiet h hnot) (fun _ _ h => .quiet h hnot) (hx s)
  cases c with
  | «open» flags file => exact hquiet sysOpen_quiet nofun
  | close fd => exact hquiet closeFd_quiet nofun
  | dup oldfd => exact hquiet dupFrom_quiet nofun
  | dup2 oldfd newfd => exact hquiet sysDup2_quiet nofun
  | fcntl fd cmd arg => exact hquiet sysFcntl_quiet nofun
  | pipe io => exact hquiet sysPipe_quiet nofun
  | fork cloneFiles mem => exact hquiet sysFork_quiet nofun
  | exec io => exact hquiet doExecve_quiet nofun
  | read fd len io => exact sysRead_outcome
  | write fd len io => exact sysWrite_outcome

/-! ## Runs -/

def Sys.run (s : Sys) : List (Nat × Call) → Sys
  | [] => s
  | (t, c) :: calls =>
    match c.run t s with
    | .ok _ s' => s'.run calls
    | .error _ s' => s'

def KeepsOut (s : Sys) (t : Nat) (c : Call) : Prop :=
  ∀ fd len io file, c = .write fd len io → WritesTo s t fd len io file →
    file.opened &&& oAccmode ≠ oRdonly

def Sys.Meets (C : Sys → Nat → Call → Prop) (s : Sys) : List (Nat × Call) → Prop
  | [] => True
  | (t, c) :: calls => C s t c ∧ ∀ ret s', c.run t s = .ok ret s' → s'.Meets C calls

theorem Outcome.modes (h : Outcome s t c s') (hmodes : ModesKept s) : ModesKept s' := by
  cases h with
  | quiet h _ => exact h.modes hmodes
  | read _ _ _ h => exact hmodes.of_files h.1
  | wrote _ _ h _ => exact hmodes.of_files h

theorem respected_append {e : Invocation} (hlog : s'.log = List.replicate n e ++ s.log)
    (hr : Respected s) (he : ¬ (e.op = .write ∧ e.opened &&& oAccmode = oRdonly) ∧
      ¬ (e.op = .read ∧ e.opened &&& oAccmode = oWronly)) : Respected s' := by
  unfold Respected
  rw [hlog]
  exact forall_mem_append.2 ⟨fun e' he' => eq_of_mem_replicate he' ▸ he, hr⟩

theorem Outcome.respected (h : Outcome s t c s') (hmodes : ModesKept s) (hr : Respected s)
    (hkeeps : KeepsOut s t c) : Respected s' := by
  cases h with
  | quiet h _ =>
    unfold Respected
    rw [h.log]
    exact hr
  | read _ hfile hflag h =>
    obtain ⟨-, n, hlog⟩ := h
    refine respected_append hlog hr ⟨nofun, fun ⟨_, hopened⟩ => ?_⟩
    rw [hasFlag_wronly (hmodes _ _ hfile) hopened] at hflag
    cases hflag
  | wrote hc hw _ hlog =>
    exact respected_append hlog hr ⟨fun ⟨_, hopened⟩ => hkeeps _ _ _ _ hc hw hopened, nofun⟩

theorem Outcome.respected_before (h : Outcome s t c s') (hr : Respected s') : Respected s := by
  intro e he
  refine hr e ?_
  cases h with
  | quiet h _ => rwa [h.log]
  | read _ _ _ h =>
    obtain ⟨-, n, hlog⟩ := h
    exact hlog ▸ mem_append_right _ he
  | wrote _ _ _ hlog => exact hlog ▸ mem_append_right _ he

theorem Outcome.keepsOut (h : Outcome s t c s') (hr : Respected s') : KeepsOut s t c := by
  intro fd len io file hc hw hopened
  cases h with
  | quiet _ hnot => exact hnot fd len io file hc hw
  | read hc' =>
    rw [hc'] at hc
    cases hc
  | wrote hc' hw' _ hlog =>
    rw [hc'] at hc
    cases hc
    rw [hw.unique hw'] at hlog
    refine (hr { opened := file.opened, op := .write } ?_).1 ⟨rfl, hopened⟩
    rw [hlog]
    exact mem_append_left _ (mem_replicate.2 ⟨Nat.succ_ne_zero _, rfl⟩)

theorem Sys.run_respected (calls : List (Nat × Call)) (hr : Respected (s.run calls)) : Respected s := by
  induction calls generalizing s with
  | nil => exact hr
  | cons call calls ih =>
    obtain ⟨t, c⟩ := call
    unfold Sys.run at hr
    have hspec := c.outcome (s := s) (t := t)
    cases hrun : c.run t s with
    | ok ret s' =>
      rw [hrun] at hr
      exact (wp_ok hspec hrun).respected_before (ih hr)
    | error e s' =>
      rw [hrun] at hr
      exact (wp_error hspec hrun).respected_before hr

/-- **Access modes.** In every run, a file opened for reading only is not written and one opened for
writing only is not read, if and only if no call writes to a description that was opened for reading
only. -/
theorem access_modes_respected_iff (hmodes : ModesKept s) (hr : Respected s)
    (calls : List (Nat × Call)) :
    ModesKept (s.run calls) ∧ Respected (s.run calls) ↔ s.Meets KeepsOut calls := by
  induction calls generalizing s with
  | nil => exact iff_of_true ⟨hmodes, hr⟩ trivial
  | cons call calls ih =>
    obtain ⟨t, c⟩ := call
    have hspec := c.outcome (s := s) (t := t)
    unfold Sys.run Sys.Meets
    cases hrun : c.run t s with
    | ok ret s' =>
      have hout := wp_ok hspec hrun
      constructor
      · rintro ⟨hmodes', hr'⟩
        have hnow := Sys.run_respected calls hr'
        refine ⟨hout.keepsOut hnow, fun ret₁ s₁ heq => ?_⟩
        cases heq
        exact (ih (hout.modes hmodes) hnow).1 ⟨hmodes', hr'⟩
      · rintro ⟨hkeeps, hrest⟩
        exact (ih (hout.modes hmodes) (hout.respected hmodes hr hkeeps)).2 (hrest ret s' rfl)
    | error e s' =>
      have hout := wp_error hspec hrun
      constructor
      · rintro ⟨-, hr'⟩
        exact ⟨hout.keepsOut hr', nofun⟩
      · rintro ⟨hkeeps, -⟩
        exact ⟨hout.modes hmodes, hout.respected hmodes hr hkeeps⟩

/-! ## A file that was opened for reading -/

/-- A task with an empty table -/
def freshSys : Sys where
  tables _ := FilesStruct.init
  tablesNr := 1
  files _ := none
  serial := 0
  log := []

theorem freshSys_modes : ModesKept freshSys := nofun

theorem freshSys_respected : Respected freshSys := nofun

def regularFile : FileOperations := { read := true, write := true }

/-- One byte can be written. -/
def oneByte : WriteIo := { mem := true, copied _ := true, ret _ := 1 }

/-- `open` with `O_RDONLY`, and a `write` to the descriptor: the file is written. -/
theorem rdonly_written : ModesKept freshSys ∧ Respected freshSys ∧
    ¬ Respected (freshSys.run [(0, .open oRdonly (.ok regularFile)), (0, .write 0 1 oneByte)]) := by
  refine ⟨freshSys_modes, freshSys_respected, fun hr => ?_⟩
  have hlog : (freshSys.run [(0, .open oRdonly (.ok regularFile)), (0, .write 0 1 oneByte)]).log =
      [{ opened := oRdonly, op := .write }] := by decide +kernel
  exact (hr { opened := oRdonly, op := .write } (hlog ▸ List.mem_singleton_self _)).1 ⟨rfl, rfl⟩

/-- The same with `O_RDWR`. -/
theorem rdwr_written :
    ModesKept (freshSys.run [(0, .open oRdwr (.ok regularFile)), (0, .write 0 1 oneByte)]) ∧
      Respected (freshSys.run [(0, .open oRdwr (.ok regularFile)), (0, .write 0 1 oneByte)]) ↔
    freshSys.Meets KeepsOut [(0, .open oRdwr (.ok regularFile)), (0, .write 0 1 oneByte)] :=
  access_modes_respected_iff freshSys_modes freshSys_respected _

end ZzzOs.Fs.Fd
