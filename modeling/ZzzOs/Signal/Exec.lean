import ZzzOs.Signal.Run

/-!
# Handlers and `execve`

The table of handlers is part of the task. `flush_old_exec` leaves it as it is, so a handler of the old
program is entered in the new one, and `dup_task_struct` copies the pending signals along with the rest
(`reset_iff_fineRun`).
-/

namespace ZzzOs.Signal

open Function Lib

variable {a : Arch}

/-- A successful `execve`: `flush_old_exec`, after which the loader puts the new trampoline. -/
def Task.execve (t : Task a) (trampoline : Word a) : Task a := { t with trampoline := trampoline }

def Task.dupTaskStruct (t : Task a) (pid : Int) : Task a := { t with pid := pid }

/-- A task, the signals whose handler has not been set since its last `execve`, and whether it has
exited -/
structure Life (a : Arch) where
  task : Task a
  stale : Fin 32 → Bool
  exited : Bool

inductive Act (a : Arch) where
  | sigaction (sig : Fin 32) (handler : Word a)
  | sendSignal (sig : Fin 32)
  | sigreturn (ctx : PtRegs a) (copyFromUser : Word a → Option (Frame a))
  | userReturn (copied : Bool) (ctx : PtRegs a)
  | execve (trampoline : Word a)
  /-- `fork`, after which the parent or the child is followed -/
  | fork (pid : Int) (child : Bool)

namespace Life

def settle (l : Life a) : Trap a → Life a
  | .exit _ => { l with exited := true }
  | .user t _ => { l with task := t }

def step (l : Life a) (act : Act a) : Life a :=
  if l.exited then l
  else match act with
    | .sigaction sig h =>
      { l with
        task := { l.task with handler := update l.task.handler sig h }
        stale := update l.stale sig false }
    | .sendSignal sig => { l with task := l.task.raise sig }
    | .sigreturn ctx copyFromUser => l.settle (sysSigreturn copyFromUser l.task ctx)
    | .userReturn copied ctx => l.settle (handlePendingSignal copied l.task ctx)
    | .execve trampoline => { l with task := l.task.execve trampoline, stale := fun _ => true }
    | .fork pid child => if child then { l with task := l.task.dupTaskStruct pid } else l

/-- `execve` resets the handlers and keeps what is ignored, no later return enters a handler of before,
and a child has no pending signal. -/
def Ok (l : Life a) (act : Act a) : Prop :=
  l.exited ∨ match act with
    | .userReturn copied ctx => ∀ t' r, handlePendingSignal copied l.task ctx = .user t' r →
        r = ctx ∨ ∃ sig, l.stale sig = false ∧ r = handlerRegs l.task sig ctx
    | .execve trampoline => ∀ sig,
        (l.task.execve trampoline).handler sig = if l.task.handler sig = 1 then 1 else 0
    | .fork pid _ => (l.task.dupTaskStruct pid).pending = 0
    | _ => True

/-- The condition: at an `execve` no handler is installed, at a `fork` no signal is pending. -/
def Fine (l : Life a) (act : Act a) : Prop :=
  l.exited ∨ match act with
    | .execve _ => ∀ sig, l.task.handler sig = 0 ∨ l.task.handler sig = 1
    | .fork .. => l.task.pending = 0
    | _ => True

def Inv (l : Life a) : Prop := ∀ sig, l.stale sig → l.task.handler sig = 0 ∨ l.task.handler sig = 1

variable {l : Life a}

theorem Inv.settle (h : l.Inv) {r : Trap a}
    (hr : ∀ t' ctx, r = .user t' ctx → t'.handler = l.task.handler) : (l.settle r).Inv := by
  cases r with
  | exit code => exact h
  | user t' ctx => exact fun sig hs => hr t' ctx rfl ▸ h sig hs

theorem step_iff (act : Act a) (h : l.Inv) :
    (Ok l act → True → Fine l act) ∧ (Fine l act → Ok l act ∧ (l.step act).Inv) := by
  unfold Ok Fine step
  by_cases he : l.exited
  · simp [he, h]
  simp only [he, Bool.false_eq_true, false_or, if_false]
  cases act with
  | sigaction sig handler =>
    refine always_fine fun s hs => ?_
    by_cases hne : s = sig
    · simp [hne] at hs
    · simpa [hne] using h s (by simpa [hne] using hs)
  | sendSignal sig => exact always_fine h
  | sigreturn ctx copyFromUser =>
    refine always_fine (h.settle fun t' r hr => ?_)
    unfold sysSigreturn at hr
    split at hr
    · cases hr
    · split_ifs at hr
      cases hr
      rfl
  | userReturn copied ctx =>
    refine ⟨fun _ _ => trivial, fun _ => ⟨fun t' r hr => ?_, h.settle fun t' r hr => ?_⟩⟩
    · refine (handlePendingSignal_regs hr).imp_right fun ⟨sig, h0, h1, hsig⟩ => ⟨sig, ?_, hsig⟩
      exact Bool.eq_false_iff.2 fun hs => (h sig hs).elim h0 h1
    · exact (handlePendingSignal_task hr).2
  | execve trampoline =>
    refine ⟨fun hok _ sig => ?_, fun hf => ⟨fun sig => ?_, fun sig _ => hf sig⟩⟩
    · have := hok sig
      split_ifs at this with h1
      · exact .inr h1
      · exact .inl this
    · split_ifs with h1
      · exact h1
      · exact (hf sig).resolve_right h1
  | fork pid child =>
    refine ⟨fun hok _ => hok, fun hf => ⟨hf, ?_⟩⟩
    cases child
    · exact h
    · exact h

/-- **In every history of a task and its descendants, handlers of before an `execve` are never entered
after it, and a child has no pending signal, exactly if no handler is installed at an `execve` and no
signal is pending at a `fork`.** -/
theorem reset_iff_fineRun (t : Task a) (acts : List (Act a)) :
    Along step (fun _ => True) Ok acts ⟨t, fun _ => false, false⟩ ↔
      FineRun step Fine acts ⟨t, fun _ => false, false⟩ :=
  along_iff Inv (fun _ => trivial) step_iff acts nofun

/-- A task with a handler executes another program and gets a signal: it goes on at the address that
the old program has given. -/
theorem handler_survives_execve : ∃ t' r,
    handlePendingSignal true (([.execve 0x1000, .sendSignal SIGINT].foldl step
      ⟨sampleTask .riscv64, fun _ => false, false⟩).task) (fun _ => 0) = .user t' r ∧
    r Arch.riscv64.named.pc = 0x2000#64 ∧ ¬ Along step (fun _ => True) Ok
      [.execve 0x1000, .sendSignal SIGINT, .userReturn true fun _ => 0]
      ⟨sampleTask .riscv64, fun _ => false, false⟩ := by
  refine ⟨_, _, rfl, rfl, fun h => ?_⟩
  exact absurd (h.2.1.resolve_left nofun SIGINT) (by decide)

end Life

end ZzzOs.Signal
