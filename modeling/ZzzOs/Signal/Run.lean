import ZzzOs.Lib.Runs
import ZzzOs.Signal.Frame

/-!
# Runs of signal calls

Tasks send signals, change their handlers, return from handlers and go back to user mode, in any
order. `signals_iff` says which runs keep signal 0 a mere test, `SIGKILL` unblocked, and a signal
consumed at each return that finds one.
-/

namespace ZzzOs.Signal

open BitVec Function Lib

variable {a : Arch} {ι : Type*} [DecidableEq ι]

/-- The tasks, the order in which the lists of the run queues hold them, and who has exited. -/
structure World (ι : Type*) (a : Arch) where
  rq : List ι
  task : ι → Task a
  exited : ι → Bool

def Task.raise (t : Task a) (sig : Fin 32) : Task a :=
  { t with pending := t.pending ||| 1#a.bits <<< sig.val }

def ESRCH : Int := 3
def EINVAL : Int := 22

def sendSignalToPgrp (w : World ι a) (pgid : Int) (sig : Fin 32) : World ι a × Int :=
  if pgid ≤ 0 then (w, -EINVAL)
  else
    ({ w with task := fun i =>
        if i ∈ w.rq ∧ (w.task i).pgrp = some pgid then (w.task i).raise sig else w.task i },
      if ∃ i ∈ w.rq, (w.task i).pgrp = some pgid then 0 else -ESRCH)

def kill (w : World ι a) (current : ι) (pid : BitVec 32) (sig : Fin 32) : World ι a × Int :=
  if pid = 0 then
    match (w.task current).pgrp with
    | none => (w, -ESRCH)
    | some pgrp => sendSignalToPgrp w pgrp sig
  else if pid.toInt < -1 then sendSignalToPgrp w (-pid).toInt sig
  else if pid = -1 then (w, -EINVAL)
  else
    -- `find_task_by_pid`
    match w.rq.find? fun i => (w.task i).pid = pid.toInt with
    | none => (w, -ESRCH)
    | some i =>
      if sig = 0 then (w, 0) else ({ w with task := update w.task i ((w.task i).raise sig) }, 0)

inductive Op (ι : Type*) (a : Arch) where
  | kill (i : ι) (pid : BitVec 32) (sig : Fin 32)
  /-- `sigaction`, with the handler it could read, if any -/
  | sigaction (i : ι) (sig : Fin 32) (handler : Option (Word a))
  | sigreturn (i : ι) (ctx : PtRegs a) (copyFromUser : Word a → Option (Frame a))
  /-- the return to user mode after a system call -/
  | userReturn (i : ι) (copied : Bool) (ctx : PtRegs a)

def Op.who : Op ι a → ι
  | kill i .. | sigaction i .. | sigreturn i .. | userReturn i .. => i

def World.settle (w : World ι a) (i : ι) : Trap a → World ι a
  | .exit _ => { w with exited := update w.exited i true }
  | .user t _ => { w with task := update w.task i t }

def step (w : World ι a) (op : Op ι a) : World ι a :=
  if w.exited op.who then w
  else match op with
    | .kill i pid sig => (kill w i pid sig).1
    | .sigaction _ _ none => w
    | .sigaction i sig (some h) =>
      let t := w.task i
      { w with task := update w.task i { t with handler := update t.handler sig h } }
    | .sigreturn i ctx copyFromUser => w.settle i (sysSigreturn copyFromUser (w.task i) ctx)
    | .userReturn i copied ctx => w.settle i (handlePendingSignal copied (w.task i) ctx)

/-- `SIGKILL` is blocked nowhere. -/
def World.Killable (w : World ι a) : Prop := ∀ i, (w.task i).blocked.getLsbD SIGKILL = false

/-- Some pending signal is dealt with, in the way that its action asks for. -/
def Consumed (t : Task a) (ctx : PtRegs a) (r : Trap a) : Prop :=
  ∃ sig, t.unblocked sig ∧
    (r = .exit (128 + sig) ∧ (sig = SIGKILL ∨ t.handler sig = 0) ∨
      sig ≠ SIGKILL ∧ ∃ t', t'.pending.getLsbD sig = false ∧
        (r = .user t' ctx ∧ (t.handler sig = 0 ∨ t.handler sig = 1) ∨
          r = .user t' (handlerRegs t sig ctx) ∧ t.handler sig ≠ 0 ∧ t.handler sig ≠ 1))

/-- What a call may not do -/
def Ok (w : World ι a) (op : Op ι a) : Prop :=
  w.exited op.who ∨ match op with
    | .kill i pid sig =>
      sig = 0 → ∀ j, ((kill w i pid sig).1.task j).pending = (w.task j).pending
    | .userReturn i copied ctx => (∃ sig, (w.task i).unblocked sig) →
        Consumed (w.task i) ctx (handlePendingSignal copied (w.task i) ctx)
    | _ => True

/-- A signal with one of the two default actions, ignored, or with a handler that can be entered -/
def Task.Handles (t : Task a) (copied : Bool) (sig : Fin 32) : Prop :=
  t.handler sig = 0 ∨ t.handler sig = 1 ∨ t.trampoline ≠ 0 ∧ copied

/-- The group that a call of `kill` names -/
def group (w : World ι a) (i : ι) (pid : BitVec 32) : Option Int :=
  if pid = 0 then (w.task i).pgrp else if pid.toInt < -1 then some (-pid).toInt else none

/-- The condition: no signal 0 to a group, unless it pends there already; no frame that blocks
`SIGKILL`; and a return finds no signal but those that `handle_pending_signal` knows, `SIGTERM` with
its default action, `SIGINT` and `SIGCHLD` with handlers that can be entered. -/
def Fine (w : World ι a) (op : Op ι a) : Prop :=
  w.exited op.who ∨ match op with
    | .kill i pid sig => sig = 0 → ∀ pgrp, group w i pid = some pgrp → 0 < pgrp →
        ∀ j, j ∈ w.rq ∧ (w.task j).pgrp = some pgrp → (w.task j).pending.getLsbD 0
    | .sigaction .. => True
    | .sigreturn _ ctx copyFromUser => ∀ frame, copyFromUser (ctx a.named.sp) = some frame →
        frame.magic = SIGF → frame.oldBlocked.getLsbD SIGKILL = false
    | .userReturn i copied _ =>
      let t := w.task i
      (∃ sig, t.unblocked sig) → t.unblocked SIGKILL ∨
        if t.unblocked SIGTERM then t.handler SIGTERM = 0
        else if t.unblocked SIGINT then t.Handles copied SIGINT
        else t.unblocked SIGCHLD ∧ t.Handles copied SIGCHLD

/-! ## One step -/

variable {t t' : Task a} {ctx r : PtRegs a} {copied : Bool} {sig sig' : Fin 32} {w : World ι a}

theorem lt_bits (sig : Fin 32) : sig.val < a.bits := by
  cases a <;> simp only [Arch.bits] <;> omega

theorem getLsbD_bit : (1#a.bits <<< sig.val).getLsbD sig' = decide (sig = sig') := by
  rw [← twoPow_eq, getLsbD_twoPow]
  simp [lt_bits, Fin.ext_iff]

theorem clear_pending : (t.clear sig).pending.getLsbD sig' =
    (t.pending.getLsbD sig' && !decide (sig = sig')) := by
  simp only [Task.clear, getLsbD_and, getLsbD_not, getLsbD_bit, lt_bits, decide_true, Bool.true_and]

theorem raise_pending_iff : (t.raise sig).pending = t.pending ↔ t.pending.getLsbD sig := by
  constructor
  · intro h
    rw [← h]
    simp only [Task.raise, getLsbD_or, getLsbD_bit, decide_true, Bool.or_true]
  · intro h
    refine eq_of_getLsbD_eq fun i hi => ?_
    simp only [Task.raise, getLsbD_or, ← twoPow_eq, getLsbD_twoPow]
    grind

theorem unblocked_pending (h : t.unblocked sig) : t.pending.getLsbD sig := by
  simp only [Task.unblocked, getLsbD_and, Bool.and_eq_true] at h
  exact h.1

/-- A task that goes on as it was has consumed at most a signal without a handler. -/
theorem not_consumed (h : ∀ sig, t.unblocked sig → t'.pending.getLsbD sig = false →
    t.handler sig ≠ 0 ∧ t.handler sig ≠ 1) : ¬Consumed t ctx (.user t' ctx) := by
  rintro ⟨sig, hu, ⟨hexit, -⟩ | ⟨-, t'', hp, ⟨huser, hh⟩ | ⟨huser, -⟩⟩⟩
  · cases hexit
  · cases huser
    exact hh.elim (h sig hu hp).1 (h sig hu hp).2
  · exact handlerRegs_sp_ne (congrFun (Trap.user.inj huser).2 _).symm

theorem deliver_consumed_iff (h : t.unblocked sig) (hk : sig ≠ SIGKILL) {default : Trap a}
    (hd : t.handler sig = 0 → Consumed t ctx default) :
    Consumed t ctx (deliver copied t ctx sig default) ↔ t.Handles copied sig := by
  have hclear : (t.clear sig).pending.getLsbD sig = false := by simp [clear_pending]
  unfold deliver Task.Handles
  split_ifs with h1 h0
  · exact iff_of_true ⟨sig, h, .inr ⟨hk, _, hclear, .inl ⟨rfl, .inr h1⟩⟩⟩ (.inr (.inl h1))
  · exact iff_of_true (hd h0) (.inl h0)
  · have hlost : ¬Consumed t ctx (.user (t.clear sig) ctx) := not_consumed fun sig' hu hp => by
      rw [clear_pending, unblocked_pending hu] at hp
      obtain rfl : sig = sig' := by simpa using hp
      exact ⟨h0, h1⟩
    unfold setupSignalFrame
    split_ifs with ht hc
    · exact iff_of_false hlost (not_or.2 ⟨h0, not_or.2 ⟨h1, fun h => h.1 ht⟩⟩)
    · exact iff_of_true ⟨sig, h, .inr ⟨hk, _, hclear, .inr ⟨rfl, h0, h1⟩⟩⟩ (.inr (.inr ⟨ht, hc⟩))
    · exact iff_of_false hlost (not_or.2 ⟨h0, not_or.2 ⟨h1, fun h => hc h.2⟩⟩)

theorem consumed_iff : Consumed t ctx (handlePendingSignal copied t ctx) ↔ t.unblocked SIGKILL ∨
    if t.unblocked SIGTERM then t.handler SIGTERM = 0
    else if t.unblocked SIGINT then t.Handles copied SIGINT
    else t.unblocked SIGCHLD ∧ t.Handles copied SIGCHLD := by
  unfold handlePendingSignal
  by_cases hk : t.unblocked SIGKILL
  · rw [if_pos hk]
    exact iff_of_true ⟨_, hk, .inl ⟨rfl, .inl rfl⟩⟩ (.inl hk)
  rw [if_neg hk, or_iff_right hk]
  by_cases ht : t.unblocked SIGTERM
  · rw [if_pos ht, if_pos ht]
    refine ⟨?_, fun h => ⟨_, ht, .inl ⟨rfl, .inr h⟩⟩⟩
    rintro ⟨sig, -, ⟨hexit, hsig⟩ | ⟨-, t', -, ⟨huser, -⟩ | ⟨huser, -⟩⟩⟩
    · obtain rfl : sig = SIGTERM := by
        have hcode := Trap.exit.inj hexit
        exact Fin.ext (by omega)
      exact hsig.resolve_left (by decide)
    · cases huser
    · cases huser
  rw [if_neg ht, if_neg ht]
  by_cases hi : t.unblocked SIGINT
  · rw [if_pos hi, if_pos hi]
    exact deliver_consumed_iff hi (by decide) fun h => ⟨_, hi, .inl ⟨rfl, .inr h⟩⟩
  rw [if_neg hi, if_neg hi]
  split <;> rename_i hc
  · rw [and_iff_right hc]
    refine deliver_consumed_iff hc (by decide) fun h => ⟨_, hc, .inr ⟨by decide, _, ?_, .inl ⟨rfl, .inl h⟩⟩⟩
    simp [clear_pending]
  · refine iff_of_false (not_consumed fun sig hu hp => ?_) fun h => hc h.1
    rw [unblocked_pending hu] at hp
    cases hp

/-- What `kill` does to a task -/
theorem kill_task (w : World ι a) (i : ι) (pid : BitVec 32) (sig : Fin 32) (j : ι) :
    (kill w i pid sig).1.task j = w.task j ∨ (kill w i pid sig).1.task j = (w.task j).raise sig := by
  unfold kill sendSignalToPgrp
  split_ifs <;> (try split) <;> grind [update]

theorem kill_zero (w : World ι a) (i : ι) (pid : BitVec 32) : (kill w i pid 0).1 =
    (group w i pid).elim w fun pgrp => (sendSignalToPgrp w pgrp 0).1 := by
  unfold kill group
  split_ifs <;> (try split) <;> simp_all

theorem kill_zero_iff (w : World ι a) (i : ι) (pid : BitVec 32) :
    (∀ j, ((kill w i pid 0).1.task j).pending = (w.task j).pending) ↔
      ∀ pgrp, group w i pid = some pgrp → 0 < pgrp →
        ∀ j, j ∈ w.rq ∧ (w.task j).pgrp = some pgrp → (w.task j).pending.getLsbD 0 := by
  rw [kill_zero]
  cases group w i pid with
  | none => simp
  | some pgrp =>
    simp only [Option.elim, sendSignalToPgrp, Option.some.injEq, forall_eq']
    by_cases hp : pgrp ≤ 0
    · simp [hp, not_lt.2 hp]
    · simp only [if_neg hp, not_le.1 hp, forall_const]
      refine forall_congr' fun j => ?_
      split_ifs with hj
      · exact raise_pending_iff.trans ⟨fun h _ => h, fun h => h hj⟩
      · exact ⟨fun _ h => absurd h hj, fun _ => rfl⟩

theorem handlePendingSignal_task
    (h : handlePendingSignal copied t ctx = .user t' r) :
    t'.blocked = t.blocked ∧ t'.handler = t.handler := by
  unfold handlePendingSignal deliver at h
  split_ifs at h <;> cases h <;> exact ⟨rfl, rfl⟩

theorem Killable.update {i : ι} (h : w.Killable)
    (ht : t.blocked.getLsbD SIGKILL = false) :
    World.Killable { w with task := update w.task i t } :=
  (forall_update_iff w.task fun _ t => t.blocked.getLsbD SIGKILL = false).2 ⟨ht, fun j _ => h j⟩

theorem step_iff (op : Op ι a) (h : w.Killable) :
    (Ok w op → (step w op).Killable → Fine w op) ∧ (Fine w op → Ok w op ∧ (step w op).Killable) := by
  unfold Ok Fine step
  by_cases he : w.exited op.who
  · simp [he, h]
  simp only [he, Bool.false_eq_true, false_or, if_false]
  cases op with
  | kill i pid sig =>
    have hkill : (kill w i pid sig).1.Killable := fun j => by
      obtain ht | ht := kill_task w i pid sig j <;> rw [ht] <;> exact h j
    refine ⟨fun hok _ hsig => ?_, fun hf => ⟨fun hsig => ?_, hkill⟩⟩
    · subst hsig
      exact (kill_zero_iff w i pid).1 (hok rfl)
    · subst hsig
      exact (kill_zero_iff w i pid).2 (hf rfl)
  | sigaction i sig handler =>
    refine always_fine ?_
    cases handler with
    | none => exact h
    | some handler => exact Killable.update h (h i)
  | sigreturn i ctx copyFromUser =>
    simp only [sysSigreturn, true_and, forall_const]
    cases hread : copyFromUser (ctx a.named.sp) with
    | none => exact ⟨fun _ _ h => (by cases h), fun _ => h⟩
    | some frame =>
      simp only [Option.some.injEq, forall_eq']
      split_ifs with hmagic
      · exact ⟨fun hk _ => by simpa [World.settle] using hk i, fun hf => Killable.update h (hf hmagic)⟩
      · exact ⟨fun _ hm => absurd hm hmagic, fun _ => h⟩
  | userReturn i copied ctx =>
    simp only [consumed_iff]
    refine ⟨fun hok _ => hok, fun hf => ⟨hf, ?_⟩⟩
    cases hr : handlePendingSignal copied (w.task i) ctx with
    | exit code => exact h
    | user t' r => exact Killable.update h ((handlePendingSignal_task hr).1 ▸ h i)

/-- **In every run, signal 0 changes no pending set, `SIGKILL` is never blocked and a return that
finds a signal consumes one, exactly if every step is fine.** -/
theorem signals_iff (ops : List (Op ι a)) (h : w.Killable) :
    Along step World.Killable Ok ops w ↔ FineRun step Fine ops w :=
  along_iff World.Killable id step_iff ops h

/-- One task, with a handler for every signal -/
def sampleWorld : World Unit .riscv64 := ⟨[()], fun _ => sampleTask .riscv64, fun _ => false⟩

/-- The task sends itself `SIGINT`, and the return to user mode enters the handler. -/
theorem signals_iff_delivered : Along step World.Killable Ok
    [.kill () 1 SIGINT, .userReturn () true fun _ => 0] sampleWorld := by
  refine (signals_iff _ fun () => by decide).2
    ⟨trivial, .inr fun h => (by cases h), trivial, .inr fun _ => ?_, trivial⟩
  simp only [Task.Handles]
  decide

/-- A signal that `handle_pending_signal` does not know stays pending. -/
theorem signal_not_consumed : ¬Along step World.Killable Ok
    [.kill () 1 10, .userReturn () true fun _ => 0] sampleWorld := by
  rintro ⟨-, -, -, hok, -⟩
  have hconsumed := hok.resolve_left nofun ⟨10, rfl⟩
  rw [consumed_iff, Task.Handles, Task.Handles] at hconsumed
  revert hconsumed
  decide

end ZzzOs.Signal
