import ZzzOs.Lib.Update
import Mathlib.Data.List.Basic

/-!
# Who writes the log to the consoles

`vprintk_emit`, `console_kick` and `console_drain`, with any number of contexts. A section under
`logbuf_lock` or `console_state_lock` is one step, and so is the write of a record to a console. A
context that finds the console owned leaves its record to the owner, which drains again before it gives
it up.
-/

namespace ZzzOs.Printk

open List Function Lib

/-- The registered consoles, `console_loglevel`, and the levels of the records, by their numbers. -/
structure Setup where
  consoles : List Nat
  consoleLoglevel : Nat
  level : Nat → Nat

/-- A context in `console_drain`: the consoles that are left, and a record to write to the first. -/
structure Drain where
  rest : List Nat
  record : Option Nat

/-- The log, the cursors of the consoles and what was written to them, how many contexts are between
`log_store` and `console_kick`, and those that drain -/
structure State where
  logFirstSeq : Nat
  logNextSeq : Nat
  cursor : Nat → Nat
  written : Nat → List Nat
  consoleOwned : Bool
  consolePending : Bool
  kicking : Nat
  draining : List Drain

/-- A context comes to `log_store`, which drops old records and may find no room, or to `console_kick`;
or one that drains takes its next step. -/
inductive Act
  | store (drop : Nat) (stored : Bool)
  | kick
  | drain (n : Nat)

namespace State

def logStore (s : State) (drop : Nat) (stored : Bool) : State :=
  { s with
    logFirstSeq := min (s.logFirstSeq + drop) s.logNextSeq
    logNextSeq := s.logNextSeq + stored.toNat }

/-- The number of the record that was read, if there was one. -/
def printkReadRecord (s : State) (con : Nat) : Option Nat × State :=
  if s.cursor con ≥ s.logNextSeq then (none, s)
  else
    let seq := if s.cursor con < s.logFirstSeq then s.logFirstSeq else s.cursor con
    if seq = s.logNextSeq then (none, { s with cursor := update s.cursor con seq })
    else (some seq, { s with cursor := update s.cursor con (seq + 1) })

def consoleEmitRecord (s : State) (con seq : Nat) : State :=
  { s with written := update s.written con (s.written con ++ [seq]) }

/-- A step of the loop of `console_kick`, and where it leaves the context. -/
def consoleDrain (e : Setup) (s : State) : Drain → State × List Drain
  | ⟨[], _⟩ =>
    if s.consolePending then ({ s with consolePending := false }, [⟨e.consoles, none⟩])
    else ({ s with consoleOwned := false }, [])
  | ⟨con :: rest, some seq⟩ => (s.consoleEmitRecord con seq, [⟨con :: rest, none⟩])
  | ⟨con :: rest, none⟩ =>
    match s.printkReadRecord con with
    | (none, s) => (s, [⟨rest, none⟩])
    | (some seq, s) =>
      (s, [⟨con :: rest, if e.level seq ≥ e.consoleLoglevel then none else some seq⟩])

def consoleKick (e : Setup) (s : State) : State :=
  if s.consoleOwned then { s with consolePending := true }
  else { s with consoleOwned := true, draining := ⟨e.consoles, none⟩ :: s.draining }

def step (e : Setup) (s : State) : Act → State
  | .store drop stored => { s.logStore drop stored with kicking := s.kicking + 1 }
  | .kick => if s.kicking = 0 then s else consoleKick e { s with kicking := s.kicking - 1 }
  | .drain n =>
    match s.draining[n]? with
    | none => s
    | some d =>
      let r := s.consoleDrain e d
      { r.1 with draining := s.draining.take n ++ r.2 ++ s.draining.drop (n + 1) }

/-- The log when the consoles have been registered; the caller of `console_register` is about to call
`console_kick`. -/
def init (first nr : Nat) : State :=
  ⟨first, first + nr, fun _ => first, fun _ => [], false, false, 1, []⟩

/-- What was written to the console is in the order of the numbers, each once, with all records that are
left in the log and below the level. -/
def Written (e : Setup) (s : State) (con : Nat) : Prop :=
  (s.written con).Pairwise (· < ·) ∧ ∀ seq, s.logFirstSeq ≤ seq → seq < s.logNextSeq →
    e.level seq < e.consoleLoglevel → seq ∈ s.written con

/-! ## A console -/

/-- `taken` are the records that were read for the console and are below the level. -/
structure Logged (e : Setup) (first next c : Nat) (taken : List Nat) : Prop where
  log : first ≤ next
  cursor : c ≤ next
  order : taken.Pairwise (· < ·)
  before : ∀ seq ∈ taken, seq < c
  all : ∀ seq, first ≤ seq → seq < c → e.level seq < e.consoleLoglevel → seq ∈ taken

variable {e : Setup} {s : State} {taken : List Nat} {first next c con seq : Nat}

/-- The cursor moves on over a record, and over those before it that were dropped. -/
theorem Logged.advance (h : Logged e first next c taken) (hle : c ≤ seq) (hseq : seq < next)
    (hdrop : seq = c ∨ seq = first) :
    Logged e first next (seq + 1) (taken ++ if e.level seq ≥ e.consoleLoglevel then [] else [seq]) := by
  refine ⟨h.log, hseq, pairwise_append.2 ⟨h.order, ?_, fun a ha b hb => ?_⟩, fun a ha => ?_,
    fun a h1 h2 h3 => ?_⟩
  · split <;> simp
  · have := h.before a ha
    split at hb <;> simp at hb
    omega
  · rcases mem_append.1 ha with ha | ha
    · have := h.before a ha
      omega
    · split at ha <;> simp at ha
      omega
  · by_cases ha : a < c
    · exact mem_append_left _ (h.all a h1 ha h3)
    · obtain rfl : a = seq := by omega
      rw [if_neg (Nat.not_le.2 h3)]
      simp

theorem Logged.read (h : Logged e s.logFirstSeq s.logNextSeq (s.cursor con) taken) :
    (s.printkReadRecord con = (none, { s with cursor := update s.cursor con s.logNextSeq }) ∧
      Logged e s.logFirstSeq s.logNextSeq s.logNextSeq taken) ∨
    ∃ seq, s.printkReadRecord con = (some seq, { s with cursor := update s.cursor con (seq + 1) }) ∧
      Logged e s.logFirstSeq s.logNextSeq (seq + 1)
        (taken ++ if e.level seq ≥ e.consoleLoglevel then [] else [seq]) := by
  have hlog := h.log
  have hc := h.cursor
  unfold printkReadRecord
  by_cases hend : s.cursor con ≥ s.logNextSeq
  · have heq : s.cursor con = s.logNextSeq := Nat.le_antisymm hc hend
    rw [if_pos hend, ← heq, update_eq_self, heq]
    exact .inl ⟨rfl, heq ▸ h⟩
  · rw [if_neg hend]
    dsimp only
    split_ifs with hlt hnext hnext
    · refine .inl ⟨by rw [hnext], hlog, Nat.le_refl _, h.order, fun a ha => ?_, fun a h1 h2 => ?_⟩
      · have := h.before a ha
        omega
      · omega
    · exact .inr ⟨_, rfl, h.advance (by omega) (by omega) (.inr rfl)⟩
    · omega
    · exact .inr ⟨_, rfl, h.advance (Nat.le_refl _) (by omega) (.inl rfl)⟩

/-! ## The owner -/

def inHand (con : Nat) : Drain → List Nat
  | ⟨_, none⟩ => []
  | ⟨rest, some seq⟩ => if rest.head? = some con then [seq] else []

/-- At most one context drains, and somebody will come to what is in front of a cursor. -/
structure Inv (e : Setup) (s : State) : Prop where
  logged : ∀ con, Logged e s.logFirstSeq s.logNextSeq (s.cursor con)
    (s.written con ++ s.draining.flatMap (inHand con))
  owner : s.draining = [] ∧ s.consoleOwned = false ∧ s.consolePending = false ∨
    s.consoleOwned = true ∧ ∃ d, s.draining = [d]
  caught : ∀ con ∈ e.consoles, s.cursor con = s.logNextSeq ∨ 0 < s.kicking ∨
    s.consolePending = true ∨ ∃ d ∈ s.draining, con ∈ d.rest

theorem inv_init (first nr : Nat) : Inv e (init first nr) where
  logged _ := ⟨Nat.le_add_right first nr, Nat.le_add_right first nr, .nil, nofun,
    fun _ h1 h2 => absurd h1 (Nat.not_le.2 h2)⟩
  owner := .inl ⟨rfl, rfl, rfl⟩
  caught _ _ := .inr (.inl Nat.one_pos)

theorem Inv.store (h : Inv e s) (drop : Nat) (stored : Bool) :
    Inv e (s.step e (.store drop stored)) := by
  refine ⟨fun con => ?_, h.owner, fun con _ => .inr (.inl (Nat.succ_pos _))⟩
  have hlog := h.logged con
  have hfirst := hlog.log
  have hc := hlog.cursor
  refine ⟨?_, ?_, hlog.order, hlog.before, fun seq h1 => hlog.all seq ?_⟩
  all_goals
    dsimp only [step, logStore] at *
    omega

theorem Inv.kick (h : Inv e s) : Inv e (s.step e .kick) := by
  rw [step]
  split
  · exact h
  rw [consoleKick]
  rcases h.owner with ⟨hd, hown, -⟩ | ⟨hown, hd⟩
  · rw [if_neg (by simp [hown]), hd]
    refine ⟨fun con => ?_, .inr ⟨rfl, _, rfl⟩, fun con hcon =>
      .inr (.inr (.inr ⟨_, mem_cons_self, hcon⟩))⟩
    have hlog := h.logged con
    rwa [hd] at hlog
  · rw [if_pos hown]
    exact ⟨h.logged, .inr ⟨hown, hd⟩, fun con _ => .inr (.inr (.inl rfl))⟩

section

variable {d : Drain}
  (hlog : ∀ con, Logged e s.logFirstSeq s.logNextSeq (s.cursor con) (s.written con ++ inHand con d))
  (hown : s.consoleOwned = true)
  (hcaught : ∀ con ∈ e.consoles, s.cursor con = s.logNextSeq ∨ 0 < s.kicking ∨
    s.consolePending = true ∨ con ∈ d.rest)

include hlog hown hcaught

theorem inv_owned : Inv e { s with draining := [d] } :=
  ⟨by simpa using hlog, .inr ⟨hown, d, rfl⟩, by simpa using hcaught⟩

theorem inv_consoleDrain :
    Inv e { (s.consoleDrain e d).1 with draining := (s.consoleDrain e d).2 } := by
  match d with
  | ⟨[], record⟩ =>
    have hnone : ∀ con, inHand con ⟨[], record⟩ = [] := fun con => by cases record <;> rfl
    simp only [hnone, append_nil, not_mem_nil, or_false] at hlog hcaught
    rw [consoleDrain]
    split
    · exact inv_owned (by simpa [inHand] using hlog) hown fun con hcon => .inr (.inr (.inr hcon))
    · rename_i hp
      exact ⟨by simpa using hlog, .inl ⟨rfl, rfl, by simpa using hp⟩, by simpa [hp] using hcaught⟩
  | ⟨con :: rest, some seq⟩ =>
    rw [consoleDrain, consoleEmitRecord]
    refine inv_owned (fun c => ?_) hown hcaught
    have hc := hlog c
    by_cases hcon : c = con
    · subst hcon
      simpa [inHand] using hc
    · simpa [inHand, hcon, Ne.symm hcon] using hc
  | ⟨con :: rest, none⟩ =>
    simp only [inHand, append_nil] at hlog
    rw [consoleDrain]
    rcases (hlog con).read with ⟨he, hl⟩ | ⟨seq, he, hl⟩
    · rw [he]
      refine inv_owned (fun c => ?_) hown fun c hc => ?_
      all_goals dsimp only
      · rw [inHand, append_nil]
        exact update_cases (fun hc => hc ▸ hl) fun _ => hlog c
      · refine update_cases (fun _ => .inl rfl) fun hne => ?_
        simpa [hne] using hcaught c hc
    · rw [he]
      refine inv_owned (fun c => ?_) hown fun c hc => ?_
      all_goals dsimp only
      · refine update_cases (fun hc => ?_) fun hc => ?_
        · rw [hc]
          split_ifs at hl ⊢ <;> simpa [inHand] using hl
        · split_ifs <;> simpa [inHand, Ne.symm hc] using hlog c
      · exact update_cases (fun hc => by simp [hc]) fun _ => hcaught c hc

end

theorem Inv.drain (h : Inv e s) (n : Nat) : Inv e (s.step e (.drain n)) := by
  rw [step]
  rcases h.owner with ⟨hd, -⟩ | ⟨hown, d, hd⟩
  · rw [hd]
    exact h
  · rw [hd]
    cases n with
    | succ n => exact h
    | zero =>
      refine Eq.mpr ?_ (inv_consoleDrain (d := d) (by simpa [hd] using h.logged) hown
        (by simpa [hd] using h.caught))
      simp

theorem Inv.step (h : Inv e s) (a : Act) : Inv e (s.step e a) := by
  cases a with
  | store drop stored => exact h.store drop stored
  | kick => exact h.kick
  | drain n => exact h.drain n

theorem Inv.run (h : Inv e s) (acts : List Act) : Inv e (acts.foldl (State.step e) s) := by
  induction acts generalizing s with
  | nil => exact h
  | cons a acts ih => exact ih (h.step a)

/-- **In every run at most one context drains, and when no context is in `printk`, every record that is
left and below the level has been written to every console once and in order.** -/
theorem drained_of_run (e : Setup) (first nr : Nat) (acts : List Act) :
    let s := acts.foldl (step e) (init first nr)
    s.draining.length ≤ 1 ∧
      (s.kicking = 0 → s.draining = [] → ∀ con ∈ e.consoles, s.Written e con) := by
  intro s
  have h : Inv e s := (inv_init first nr).run acts
  refine ⟨?_, fun hk hd con hcon => ?_⟩
  · rcases h.owner with ⟨hd, -⟩ | ⟨-, d, hd⟩ <;> simp [hd]
  · have hlog := h.logged con
    have hpending : s.consolePending = false := by
      rcases h.owner with ⟨-, -, hp⟩ | ⟨-, d, hd'⟩
      · exact hp
      · exact nomatch hd.symm.trans hd'
    have hc : s.cursor con = s.logNextSeq := by
      simpa [hk, hd, hpending] using h.caught con hcon
    rw [hd, hc, List.flatMap_nil, List.append_nil] at hlog
    exact ⟨hlog.order, hlog.all⟩

/-- Two consoles for records of a level below 4, which is that of record 4. -/
def twoConsoles : Setup := ⟨[0, 1], 4, id⟩

/-- Two contexts come to `console_kick`, and one of them writes record 3. -/
theorem drained_of_run_twoConsoles :
    let acts := [.store 0 true, .kick, .kick] ++ replicate 12 (.drain 0)
    let s := acts.foldl (step twoConsoles) (init 3 1)
    s.kicking = 0 ∧ s.draining = [] ∧ s.written 0 = [3] ∧ s.written 1 = [3] ∧
      ∀ con ∈ twoConsoles.consoles, s.Written twoConsoles con :=
  ⟨rfl, rfl, rfl, rfl, (drained_of_run twoConsoles 3 1 _).2 rfl rfl⟩

/-- **In no state of a run has a console been given a record twice or out of order, and the records that
its cursor has passed and that are left were written or are about to be.** -/
theorem passed_of_run (e : Setup) (first nr : Nat) (acts : List Act) (con : Nat) :
    let s := acts.foldl (step e) (init first nr)
    (s.written con).Pairwise (· < ·) ∧ ∀ seq, s.logFirstSeq ≤ seq → seq < s.cursor con →
      e.level seq < e.consoleLoglevel → seq ∈ s.written con ++ s.draining.flatMap (inHand con) := by
  intro s
  have h : Inv e s := (inv_init first nr).run acts
  exact ⟨(pairwise_append.1 (h.logged con).order).1, (h.logged con).all⟩

/-- The record that was read for a console is in the hand of the owner. -/
theorem passed_of_run_twoConsoles :
    let s := [.kick, .drain 0].foldl (step twoConsoles) (init 3 1)
    s.cursor 0 = 4 ∧ s.written 0 = [] ∧ 3 ∈ s.written 0 ++ s.draining.flatMap (inHand 0) :=
  ⟨rfl, rfl, (passed_of_run twoConsoles 3 1 [.kick, .drain 0] 0).2 3 (by decide) (by decide)
    (by decide)⟩

end State

end ZzzOs.Printk
