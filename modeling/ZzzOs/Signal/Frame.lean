import ZzzOs.Signal.Model

/-!
# Returning from a handler

What `sigreturn` puts back. The frame is the user's to write: `trapHandler_user_iff` says which
frames give a user-mode return on riscv64, `trampoline_resumes_iff` when the frame of a delivery
brings the interrupted registers back.
-/

namespace ZzzOs.Signal

open Function

variable {a : Arch} {t t' : Task a} {ctx r : PtRegs a} {copied : Bool} {sig : Fin 32}

/-! ## What delivery leaves alone -/

theorem handlerRegs_of_ne {r : Fin a.words}
    (hr : r ∉ [a.named.r0, a.named.pc, a.named.lr, a.named.sp]) :
    handlerRegs t sig ctx r = ctx r := by
  simp only [List.mem_cons, List.not_mem_nil, or_false, not_or] at hr
  obtain ⟨h0, hpc, hlr, hsp⟩ := hr
  simp only [handlerRegs, update_of_ne hsp, update_of_ne hlr, update_of_ne hpc, update_of_ne h0]

/-- The frame lies below the stack pointer. -/
theorem handlerRegs_sp_ne : handlerRegs t sig ctx a.named.sp ≠ ctx a.named.sp := by
  simp only [handlerRegs, update_self]
  intro h
  have hround := congrArg BitVec.toNat h
  rw [BitVec.toNat_sub_of_le (BitVec.le_def.2 (Nat.mod_le _ _))] at hround
  generalize ctx a.named.sp = sp at h hround
  cases a with
  | riscv64 =>
    change BitVec 64 at sp
    change (sp - 296#64).toNat - (sp - 296#64).toNat % 8 = sp.toNat at hround
    bv_omega
  | arm =>
    change BitVec 32 at sp
    change (sp - 80#32).toNat - (sp - 80#32).toNat % 8 = sp.toNat at hround
    bv_omega

@[simp] theorem bits_ne_zero : a.bits ≠ 0 := by
  cases a <;> decide

/-- The signals that end the task before it is back in user mode. -/
def Task.Fatal (t : Task a) : Prop :=
  t.unblocked SIGKILL ∨ t.unblocked SIGTERM ∨ (t.unblocked SIGINT ∧ t.handler SIGINT = 0)

theorem deliver_regs {default : Trap a}
    (h : deliver copied t ctx sig default = .user t' r) (hd : ∀ t' r, default = .user t' r → r = ctx) :
    r = ctx ∨ t.handler sig ≠ 0 ∧ t.handler sig ≠ 1 ∧ r = handlerRegs t sig ctx := by
  unfold deliver setupSignalFrame at h
  split_ifs at h <;> simp_all

theorem handlePendingSignal_regs (h : handlePendingSignal copied t ctx = .user t' r) :
    r = ctx ∨ ∃ sig, t.handler sig ≠ 0 ∧ t.handler sig ≠ 1 ∧ r = handlerRegs t sig ctx := by
  unfold handlePendingSignal at h
  split_ifs at h
  · exact (deliver_regs h (by simp)).imp_right fun h => ⟨_, h⟩
  · exact (deliver_regs h (by simp)).imp_right fun h => ⟨_, h⟩
  · simp_all

theorem handlePendingSignal_user_iff :
    (∃ t' r, handlePendingSignal copied t ctx = .user t' r) ↔ ¬t.Fatal := by
  unfold handlePendingSignal Task.Fatal deliver
  split_ifs <;> simp_all

/-! ## Which frames return to user mode -/

section Sigreturn

variable {copyFromUser : Word a → Option (Frame a)} {ret : Word a} {frame : Frame a}
  (hnr : ((ctx a.named.r7).setWidth 32).toNat = a.sigreturn)
include hnr

theorem syscallTrap_sigreturn (hread : copyFromUser (ctx a.named.sp) = some frame)
    (hmagic : frame.magic = SIGF) : syscallTrap copyFromUser ret t ctx =
      .user { t with blocked := frame.oldBlocked } (stepOver ctx frame.savedTf) := by
  simp only [syscallTrap, doSyscall, if_pos hnr, sysSigreturn, hread, if_pos hmagic]

theorem syscallTrap_exit
    (h : ∀ frame, copyFromUser (ctx a.named.sp) = some frame → frame.magic ≠ SIGF) :
    syscallTrap copyFromUser ret t ctx = .exit SIGSEGV := by
  cases hread : copyFromUser (ctx a.named.sp) with
  | none => simp only [syscallTrap, doSyscall, if_pos hnr, sysSigreturn, hread]
  | some frame =>
    simp only [syscallTrap, doSyscall, if_pos hnr, sysSigreturn, hread, if_neg (h frame hread)]

end Sigreturn

def sstatus : Fin (Arch.words .riscv64) := (32 : Fin 35)

/-- `sstatus` of the frames that `pt_regs_setup_user` builds: `SPIE` and `FS_INITIAL`. -/
def userSstatus : Word .riscv64 := 0x2020#64

/-- The bits of `sstatus` that decide about privileges: `SIE`, `SPIE`, `UBE`, `SPP`, `SUM`, `MXR`. -/
def privileged : Word .riscv64 := 0xC0162#64

def UserFrame (r : PtRegs .riscv64) : Prop :=
  r sstatus &&& privileged = userSstatus &&& privileged

theorem sstatus_handlePendingSignal {t t' : Task .riscv64} {ctx r : PtRegs .riscv64}
    (h : handlePendingSignal copied t ctx = .user t' r) : r sstatus = ctx sstatus := by
  obtain rfl | ⟨sig, -, -, rfl⟩ := handlePendingSignal_regs h
  · rfl
  · exact handlerRegs_of_ne (by decide)

theorem sstatus_stepOver (old ctx : PtRegs .riscv64) : stepOver old ctx sstatus = ctx sstatus := by
  unfold stepOver
  split_ifs
  · exact update_of_ne (by decide) _ _
  · rfl

theorem stepOver_eq_self_iff (old ctx : PtRegs .riscv64) :
    stepOver old ctx = ctx ↔ ctx Arch.riscv64.named.pc ≠ old Arch.riscv64.named.pc := by
  simp only [stepOver, true_and]
  split_ifs with h
  · refine iff_of_false (fun heq => ?_) (not_not.2 h)
    have hpc := congrFun heq Arch.riscv64.named.pc
    generalize ctx Arch.riscv64.named.pc = pc at hpc
    change BitVec 64 at pc
    change pc + 4#64 = pc at hpc
    bv_omega
  · exact iff_of_true rfl h

/-- **A return through `sigreturn` is a user-mode one exactly if** no frame can be read, its magic
number is wrong, a pending signal ends the task first, or the `sstatus` in the frame has the privileges
of a kernel-built one: nothing checks it. -/
theorem trapHandler_user_iff (copyFromUser : Word .riscv64 → Option (Frame .riscv64))
    (ret : Word .riscv64) (copied : Bool) (t : Task .riscv64) (ctx : PtRegs .riscv64)
    (hnr : ((ctx Arch.riscv64.named.r7).setWidth 32).toNat = Arch.riscv64.sigreturn) :
    (∀ t' r, trapHandler copyFromUser ret copied t ctx = .user t' r → UserFrame r) ↔
      ∀ frame, copyFromUser (ctx Arch.riscv64.named.sp) = some frame → frame.magic = SIGF →
        ¬{ t with blocked := frame.oldBlocked : Task .riscv64 }.Fatal → UserFrame frame.savedTf := by
  constructor
  · intro h frame hread hmagic hfatal
    obtain ⟨t', r, hr⟩ := handlePendingSignal_user_iff.2 hfatal
    have huser := h t' r (by rw [trapHandler, syscallTrap_sigreturn hnr hread hmagic]; exact hr)
    rwa [UserFrame, sstatus_handlePendingSignal hr, sstatus_stepOver] at huser
  · intro h t' r hr
    by_cases hframe : ∃ frame, copyFromUser (ctx Arch.riscv64.named.sp) = some frame ∧
        frame.magic = SIGF
    · obtain ⟨frame, hread, hmagic⟩ := hframe
      rw [trapHandler, syscallTrap_sigreturn hnr hread hmagic] at hr
      rw [UserFrame, sstatus_handlePendingSignal hr, sstatus_stepOver]
      exact h frame hread hmagic (handlePendingSignal_user_iff.1 ⟨t', r, hr⟩)
    · rw [trapHandler, syscallTrap_exit hnr (by simpa using hframe)] at hr
      cases hr

/-- A task with one handler for every signal. -/
def sampleTask (a : Arch) : Task a :=
  ⟨1, none, 0, 0, fun _ => BitVec.ofNat _ 0x2000, BitVec.ofNat _ 0x1000⟩

/-- A frame that `sigreturn` accepts, with one value for all registers. -/
def sampleFrame (v : Word a) : Frame a := ⟨SIGF, 2, fun _ => v, 0⟩

theorem trapHandler_user_kernel_frame : userSstatus = 0x2020#64 ∧
    ∀ t' r, trapHandler (fun _ => some (sampleFrame userSstatus)) 0 true (sampleTask .riscv64)
      (fun _ => 139#64) = .user t' r → UserFrame r :=
  ⟨rfl, (trapHandler_user_iff _ _ _ _ _ rfl).2 fun frame hread _ _ => by cases hread; rfl⟩

/-- With `SPP` in the frame, the task goes on in supervisor mode. -/
theorem trapHandler_supervisor : ∃ t' r,
    trapHandler (fun _ => some (sampleFrame (a := .riscv64) 0x120#64)) 0 true (sampleTask .riscv64)
      (fun _ => 139#64) = .user t' r ∧ r sstatus = 0x120#64 ∧ ¬UserFrame r :=
  ⟨_, _, rfl, rfl, by unfold UserFrame; decide⟩

/-- The registers with which a handler that has returned to `lr` traps from the trampoline. -/
def trampoline (lr : Word a) (h : PtRegs a) : PtRegs a :=
  update (update h a.named.r7 (BitVec.ofNat _ a.trampolineNr)) a.named.pc
    (lr + BitVec.ofNat _ a.trampolinePc)

theorem trampoline_sp (lr : Word a) (h : PtRegs a) : trampoline lr h a.named.sp = h a.named.sp := by
  cases a <;> rfl

theorem trampoline_nr (lr : Word a) (h : PtRegs a) :
    ((trampoline lr h a.named.r7).setWidth 32).toNat = a.trampolineNr := by
  cases a <;> rfl

/-- **A handler that returns through the trampoline brings back the registers and the mask of the
delivery exactly if** the architecture is riscv64 and the pc was not that of the trampoline's own
`ecall`. The handler ends with any registers `h` and task state `t'`, but for the stack pointer and the
frame. On ARM the trampoline asks for system call 13, which is not `sigreturn`. -/
theorem trampoline_resumes_iff {frame : Frame a} {regs : PtRegs a}
    (hset : setupSignalFrame t copied sig ctx = some (frame, regs)) (t' : Task a) (h : PtRegs a)
    (hsp : h a.named.sp = regs a.named.sp) (copyFromUser : Word a → Option (Frame a))
    (hread : copyFromUser (regs a.named.sp) = some frame) (ret : Word a) :
    (∃ t'', syscallTrap copyFromUser ret t' (trampoline (regs a.named.lr) h) = .user t'' ctx ∧
      t''.blocked = t.blocked) ↔ a = .riscv64 ∧ ctx a.named.pc ≠ t.trampoline + 4 := by
  unfold setupSignalFrame at hset
  split_ifs at hset
  obtain ⟨rfl, rfl⟩ : _ ∧ _ := by simpa using hset
  cases a with
  | arm =>
    unfold syscallTrap doSyscall
    rw [trampoline_nr, if_neg (by decide)]
    simp only [reduceCtorEq, false_and, iff_false, not_exists, not_and, Trap.user.injEq]
    rintro t'' ⟨-, hregs⟩
    exact absurd (hsp.symm.trans (congrFun hregs Arch.arm.named.sp)) handlerRegs_sp_ne
  | riscv64 =>
    rw [syscallTrap_sigreturn (trampoline_nr _ _) (by rw [trampoline_sp, hsp, hread]) rfl]
    have hpc := stepOver_eq_self_iff (trampoline t.trampoline h) ctx
    simp only [true_and, Trap.user.injEq]
    constructor
    · rintro ⟨t'', ⟨-, hregs⟩, -⟩
      exact hpc.1 hregs
    · intro hne
      exact ⟨_, ⟨rfl, hpc.2 hne⟩, rfl⟩

theorem trampoline_resumes_sample : ∃ frame regs t'',
    setupSignalFrame (sampleTask .riscv64) true SIGINT (fun _ => 0) = some (frame, regs) ∧
      syscallTrap (fun _ => some frame) 0 (sampleTask _) (trampoline (regs Arch.riscv64.named.lr) regs)
        = .user t'' (fun _ => 0) ∧ t''.blocked = (sampleTask .riscv64).blocked := by
  have hset : setupSignalFrame (sampleTask .riscv64) true SIGINT (fun _ => 0) = some (_, _) := rfl
  obtain ⟨t'', h⟩ := (trampoline_resumes_iff hset (sampleTask _) _ rfl (fun _ => some _) rfl 0).2
    ⟨rfl, by decide⟩
  exact ⟨_, _, t'', hset, h⟩

/-- On ARM the handler's stack pointer stays. -/
theorem trampoline_arm_stays : ∃ frame regs t'' r,
    setupSignalFrame (sampleTask .arm) true SIGINT (fun _ => 0) = some (frame, regs) ∧
      syscallTrap (fun _ => some frame) (-38) (sampleTask _) (trampoline (regs Arch.arm.named.lr) regs)
        = .user t'' r ∧ r Arch.arm.named.sp = 0xffffffb0#32 :=
  ⟨_, _, _, _, rfl, rfl, rfl⟩

end ZzzOs.Signal
