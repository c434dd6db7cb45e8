import Mathlib.Logic.Basic

/-!
# Conditions along a run

`Along step P Q` asks for `P` in every state of a run and for `Q` of every action in the state it is
taken in. Where an invariant is kept by the actions that meet a condition, and an action that does not
meet it leaves a state without `P`, the runs with `P` are those whose actions meet the condition
(`along_iff`).
-/

namespace ZzzOs.Lib

variable {σ α : Type*} {step : σ → α → σ} {P : σ → Prop} {Q Fine : σ → α → Prop} {s : σ}
  {acts : List α}

/-- `P` in every state and `Q` of every action of the run from `s`. -/
def Along (step : σ → α → σ) (P : σ → Prop) (Q : σ → α → Prop) : List α → σ → Prop
  | [], s => P s
  | a :: acts, s => P s ∧ Q s a ∧ Along step P Q acts (step s a)

namespace Along

theorem first (h : Along step P Q acts s) : P s := by
  cases acts with
  | nil => exact h
  | cons a acts => exact h.1

theorem proper {a : α} (h : Along step P Q (acts ++ [a]) s) : Q (acts.foldl step s) a := by
  induction acts generalizing s with
  | nil => exact h.2.1
  | cons b acts ih => exact ih h.2.2

theorem last (h : Along step P Q acts s) : P (acts.foldl step s) := by
  induction acts generalizing s with
  | nil => exact h
  | cons a acts ih => exact ih h.2.2

end Along

/-- Every action of the run from `s` meets the condition in the state it is taken in. -/
def FineRun (step : σ → α → σ) (Fine : σ → α → Prop) : List α → σ → Prop :=
  Along step (fun _ => True) Fine

/-- The rule for runs: `Inv` gives `P`, and an action from a state with `Inv` has `Q` and keeps
`Inv` if it is fine, and lacks `Q` or leads to a state without `P` if it is not. -/
theorem along_iff (Inv : σ → Prop) (hP : ∀ {s}, Inv s → P s) (hstep : ∀ {s} a, Inv s →
      (Q s a → P (step s a) → Fine s a) ∧ (Fine s a → Q s a ∧ Inv (step s a)))
    (acts : List α) (h : Inv s) : Along step P Q acts s ↔ FineRun step Fine acts s := by
  induction acts generalizing s with
  | nil => exact ⟨fun _ => trivial, fun _ => hP h⟩
  | cons a acts ih =>
    obtain ⟨hneeds, hkeeps⟩ := hstep a h
    constructor
    · rintro ⟨-, hq, hrest⟩
      have hf := hneeds hq hrest.first
      exact ⟨trivial, hf, (ih (hkeeps hf).2).1 hrest⟩
    · rintro ⟨-, hf, hrest⟩
      obtain ⟨hq, hi⟩ := hkeeps hf
      exact ⟨hP h, hq, (ih hi).2 hrest⟩

/-- What `along_iff` asks of an action that is always fine. -/
theorem always_fine {p q : Prop} (h : q) : (True → p → True) ∧ (True → True ∧ q) :=
  ⟨fun _ _ => trivial, fun _ => ⟨trivial, h⟩⟩

end ZzzOs.Lib
