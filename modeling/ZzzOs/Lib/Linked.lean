import Mathlib.Data.List.Nodup
import Mathlib.Logic.Function.Basic

/-!
# Singly linked lists threaded through their members

`Linked next h l`: following `next` from the head pointer `h` visits exactly the members of `l` and ends
at the null pointer. The links determine the list (`Linked.unique`), so it has no member twice
(`Linked.nodup`). Links of other nodes may change freely (`Linked.congr`).
-/

namespace ZzzOs.Lib

open Function List

variable {α : Type*} {next next' : α → Option α} {h : Option α} {a : α} {l l' m : List α}

/-- The nodes reached from `h` by `next` up to the null pointer are those of `l`. -/
def Linked (next : α → Option α) : Option α → List α → Prop
  | h, [] => h = none
  | h, a :: l => h = some a ∧ Linked next (next a) l

namespace Linked

@[simp] theorem nil_iff : Linked next h [] ↔ h = none := Iff.rfl

@[simp] theorem cons_iff : Linked next h (a :: l) ↔ h = some a ∧ Linked next (next a) l := Iff.rfl

theorem congr (hl : Linked next h l) (hag : ∀ b ∈ l, next' b = next b) : Linked next' h l := by
  induction l generalizing h with
  | nil => exact hl
  | cons b l ih =>
    refine ⟨hl.1, ?_⟩
    rw [hag b mem_cons_self]
    exact ih hl.2 fun c hc => hag c (mem_cons_of_mem _ hc)

theorem none_iff (hl : Linked next h l) : h = none ↔ l = [] := by
  cases l with
  | nil => simpa using hl
  | cons b l => simp [hl.1]

theorem exists_cons (hl : Linked next (some a) l) :
    ∃ l', l = a :: l' ∧ Linked next (next a) l' := by
  cases l with
  | nil => exact absurd hl (by simp)
  | cons b l =>
    obtain ⟨hb, hl⟩ := hl
    cases hb
    exact ⟨l, rfl, hl⟩

theorem unique (hl : Linked next h l) (hl' : Linked next h l') : l = l' := by
  induction l generalizing h l' with
  | nil => exact ((hl'.none_iff).1 hl).symm
  | cons b l ih =>
    obtain ⟨rfl, hl⟩ := hl
    obtain ⟨m, rfl, hm⟩ := hl'.exists_cons
    rw [ih hl hm]

/-- A tail of a linked list is linked from the pointer that leads to it. -/
theorem of_append (hl : Linked next h (m ++ a :: l)) :
    Linked next (some a) (a :: l) := by
  induction m generalizing h with
  | nil => exact ⟨rfl, hl.2⟩
  | cons b m ih => exact ih hl.2

theorem nodup (hl : Linked next h l) : l.Nodup := by
  induction l generalizing h with
  | nil => exact nodup_nil
  | cons b l ih =>
    refine nodup_cons.2 ⟨fun hb => ?_, ih hl.2⟩
    obtain ⟨m, n, rfl⟩ := append_of_mem hb
    -- the tail from the second visit would have to equal the whole list
    have h1 : Linked next (some b) (b :: (m ++ b :: n)) := ⟨rfl, hl.2⟩
    have h2 : Linked next (some b) (b :: n) := of_append hl.2
    have := congrArg List.length (h1.unique h2)
    simp at this
    omega

theorem push [DecidableEq α] (hl : Linked next h l) (ha : a ∉ l) :
    Linked (update next a h) (some a) (a :: l) := by
  refine ⟨rfl, ?_⟩
  rw [update_self]
  refine hl.congr fun b hb => update_of_ne ?_ _ _
  rintro rfl
  exact ha hb

end Linked

end ZzzOs.Lib
