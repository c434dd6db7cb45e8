import Mathlib.Data.BitVec
import Mathlib.Logic.Function.Basic

/-!
# Signals

Delivery of a signal at the return from a system call, the frame it leaves on the user stack, and
`sigreturn`. The architectures share `kernel/signal.c`; they differ in `struct pt_regs`, in the trap
entry and in the code of the trampoline.

A frame is copied to and from user memory whole and has no padding, so user memory is seen through
`copyFromUser`, the frame read at an address, and the frames written are results.
-/

namespace ZzzOs.Signal

open Function

inductive Arch where
  | riscv64 | arm
  deriving DecidableEq

namespace Arch

/-- Width of `reg_t` and `unsigned long`. -/
def bits : Arch → Nat
  | riscv64 => 64
  | arm => 32

/-- Words of `struct pt_regs`, in its order: `ra sp gp tp t0-t2 s0 s1 a0-a7 s2-s11 t3-t6 sepc
sstatus scause stval`, and `r0-r12 sp lr pc cpsr`. -/
def words : Arch → Nat
  | riscv64 => 35
  | arm => 17

/-- The registers that the signal code names. -/
structure Named (n : Nat) where
  r0 : Fin n
  r7 : Fin n
  sp : Fin n
  lr : Fin n
  pc : Fin n

def named : (a : Arch) → Named a.words
  | riscv64 => (⟨9, 16, 1, 0, 31⟩ : Named 35)
  | arm => (⟨0, 7, 13, 14, 15⟩ : Named 17)

/-- `SYSCALL_sigreturn`. -/
def sigreturn : Arch → Nat
  | riscv64 => 139
  | arm => 173

/-- The number that `sigtramp_code` loads before it traps. -/
def trampolineNr : Arch → Nat
  | riscv64 => 139
  | arm => 13

/-- The pc that the trap of the trampoline saves, from its start: `sepc` is the address of `ecall`,
the link register of `svc` that of the instruction after it. -/
def trampolinePc : Arch → Nat
  | riscv64 => 4
  | arm => 8

end Arch

variable {a : Arch}

abbrev Word (a : Arch) := BitVec a.bits

abbrev PtRegs (a : Arch) := Fin a.words → Word a

/-- `struct signal_frame`. -/
structure Frame (a : Arch) where
  magic : BitVec 32
  signo : BitVec 32
  savedTf : PtRegs a
  oldBlocked : Word a

/-- `sizeof(struct signal_frame)`. -/
def frameSize (a : Arch) : Nat := 8 + (a.words + 1) * (a.bits / 8)

scoped instance neZero32 : NeZero 32 := ⟨by decide⟩
scoped instance neZero35 : NeZero 35 := ⟨by decide⟩

def SIGF : BitVec 32 := 0x53494746
def SIGINT : Fin 32 := 2
def SIGKILL : Fin 32 := 9
def SIGSEGV : Fin 32 := 11
def SIGTERM : Fin 32 := 15
def SIGCHLD : Fin 32 := 17

/-- The fields of `struct task_struct` that signals use. A task without a `signal_struct` is in no
group; `handler` is that of `sigactions`, with `SIG_DFL = 0` and `SIG_IGN = 1`. -/
structure Task (a : Arch) where
  pid : Int
  pgrp : Option Int
  pending : Word a
  blocked : Word a
  handler : Fin 32 → Word a
  trampoline : Word a

/-- How a trap ends: the task exits, or goes on with these registers. -/
inductive Trap (a : Arch) where
  | exit (code : Nat)
  | user (t : Task a) (ctx : PtRegs a)

/-- The registers that enter a handler, with the frame below the user stack pointer. -/
def handlerRegs (t : Task a) (sig : Fin 32) (ctx : PtRegs a) : PtRegs a :=
  let top := ctx a.named.sp - BitVec.ofNat _ (frameSize a)
  let ctx := update ctx a.named.r0 (BitVec.ofNat _ sig)
  let ctx := update ctx a.named.pc (t.handler sig)
  let ctx := update ctx a.named.lr t.trampoline
  -- `usp &= ~7`
  update ctx a.named.sp (top - top % 8)

/-- The frame and the new registers, if there is a trampoline and the frame could be `copied`. -/
def setupSignalFrame (t : Task a) (copied : Bool) (sig : Fin 32) (ctx : PtRegs a) :
    Option (Frame a × PtRegs a) :=
  if t.trampoline = 0 then none
  else if copied then
    some (⟨SIGF, BitVec.ofNat 32 sig, ctx, t.blocked⟩, handlerRegs t sig ctx)
  else none

def Task.unblocked (t : Task a) (sig : Fin 32) : Bool :=
  (t.pending &&& ~~~t.blocked).getLsbD sig

def Task.clear (t : Task a) (sig : Fin 32) : Task a :=
  { t with pending := t.pending &&& ~~~(1#a.bits <<< sig.val) }

/-- The block of `handle_pending_signal` for a signal that may have a handler. The value of
`setup_signal_frame` is not looked at: without a frame the task goes on as it was. -/
def deliver (copied : Bool) (t : Task a) (ctx : PtRegs a) (sig : Fin 32) (default : Trap a) :
    Trap a :=
  if t.handler sig = 1 then .user (t.clear sig) ctx
  else if t.handler sig = 0 then default
  else .user (t.clear sig) (((setupSignalFrame t copied sig ctx).map Prod.snd).getD ctx)

def handlePendingSignal (copied : Bool) (t : Task a) (ctx : PtRegs a) : Trap a :=
  if t.unblocked SIGKILL then .exit (128 + SIGKILL)
  else if t.unblocked SIGTERM then .exit (128 + SIGTERM)
  else if t.unblocked SIGINT then deliver copied t ctx SIGINT (.exit (128 + SIGINT))
  else if t.unblocked SIGCHLD then
    deliver copied t ctx SIGCHLD (.user (t.clear SIGCHLD) ctx)
  else .user t ctx

def sysSigreturn (copyFromUser : Word a → Option (Frame a)) (t : Task a) (ctx : PtRegs a) :
    Trap a :=
  match copyFromUser (ctx a.named.sp) with
  | none => .exit SIGSEGV
  | some frame =>
    if frame.magic = SIGF then .user { t with blocked := frame.oldBlocked } frame.savedTf
    else .exit SIGSEGV

/-- `do_syscall`. Of the calls other than `sigreturn` only the value `ret` is kept that they
return, `-ENOSYS` for the numbers without an entry in the table. -/
def doSyscall (copyFromUser : Word a → Option (Frame a)) (ret : Word a) (t : Task a)
    (ctx : PtRegs a) : Trap a :=
  if ((ctx a.named.r7).setWidth 32).toNat = a.sigreturn then sysSigreturn copyFromUser t ctx
  else .user t (update ctx a.named.r0 ret)

/-- `trap_handler` steps over the `ecall` when the call has left `sepc` as it was; `swi_handler` has
nothing to do. -/
def stepOver (old ctx : PtRegs a) : PtRegs a :=
  if a = .riscv64 ∧ ctx a.named.pc = old a.named.pc then
    update ctx a.named.pc (ctx a.named.pc + 4)
  else ctx

/-- A system call up to the delivery of signals. -/
def syscallTrap (copyFromUser : Word a → Option (Frame a)) (ret : Word a) (t : Task a)
    (ctx : PtRegs a) : Trap a :=
  match doSyscall copyFromUser ret t ctx with
  | .exit code => .exit code
  | .user t ctx' => .user t (stepOver ctx ctx')

/-- The whole trap. -/
def trapHandler (copyFromUser : Word a → Option (Frame a)) (ret : Word a) (copied : Bool)
    (t : Task a) (ctx : PtRegs a) : Trap a :=
  match syscallTrap copyFromUser ret t ctx with
  | .exit code => .exit code
  | .user t ctx => handlePendingSignal copied t ctx

end ZzzOs.Signal
