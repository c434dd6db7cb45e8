import Mathlib.Data.List.Count
import Mathlib.Logic.Function.Basic

/-!
# Reference counts

A table of counted objects, numbered in the order they are made. `put` frees an object when its count
reaches zero and notes a tag for it. `Books r f`: the table agrees with a number `f i` of references to
each object, so exactly the objects without references have been freed, once each.
-/

namespace ZzzOs.Lib

open Function

structure RefTable (τ : Type*) where
  count : Nat → Int
  next : Nat
  freed : List (Nat × τ)
  underflow : Bool

namespace RefTable

variable {τ : Type*}

def empty : RefTable τ := ⟨fun _ => 0, 0, [], false⟩

def make (r : RefTable τ) : RefTable τ :=
  { r with count := update r.count r.next 1, next := r.next + 1 }

def get (r : RefTable τ) (i : Nat) : RefTable τ :=
  { r with count := update r.count i (r.count i + 1) }

def put (r : RefTable τ) (i : Nat) (t : τ) : RefTable τ :=
  { r with
    count := update r.count i (r.count i - 1)
    freed := if r.count i - 1 = 0 then (i, t) :: r.freed else r.freed
    underflow := r.underflow || decide (r.count i - 1 < 0) }

/-- How often object `i` was freed. -/
def frees (r : RefTable τ) (i : Nat) : Nat := r.freed.countP fun e => decide (e.1 = i)

@[simp] theorem next_get (r : RefTable τ) (i : Nat) : (r.get i).next = r.next := rfl
@[simp] theorem next_put (r : RefTable τ) (i : Nat) (t : τ) : (r.put i t).next = r.next := rfl
@[simp] theorem next_make (r : RefTable τ) : r.make.next = r.next + 1 := rfl
structure Books (r : RefTable τ) (f : Nat → Nat) : Prop where
  count : ∀ i, i < r.next → r.count i = f i
  frees : ∀ i, r.frees i = if i < r.next ∧ f i = 0 then 1 else 0
  future : ∀ i, r.next ≤ i → f i = 0
  sound : r.underflow = false

theorem Books.empty : Books (empty : RefTable τ) fun _ => 0 :=
  ⟨nofun, fun i => (if_neg fun h => Nat.not_lt_zero i h.1).symm, fun _ _ => rfl, rfl⟩

variable {r : RefTable τ} {f : Nat → Nat} {i : Nat} {t : τ}

section

variable (h : Books r f)

include h

theorem Books.lt_next (hi : 0 < f i) : i < r.next := by
  by_contra hge
  have := h.future i (Nat.not_lt.1 hge)
  omega

theorem Books.make : Books r.make (update f r.next 1) where
  count j hj := by
    change update r.count r.next 1 j = _
    rcases eq_or_ne j r.next with rfl | hne
    · simp
    · rw [update_of_ne hne, update_of_ne hne]
      exact h.count j (by rw [next_make] at hj; omega)
  frees j := by
    rw [show r.make.frees j = r.frees j from rfl, h.frees j, next_make]
    rcases eq_or_ne j r.next with rfl | hne
    · rw [update_self, if_neg (by omega), if_neg (by omega)]
    · rw [update_of_ne hne]
      exact if_congr (by omega) rfl rfl
  future j hj := by
    rw [next_make] at hj
    rw [update_of_ne (by omega)]
    exact h.future j (by omega)
  sound := h.sound

theorem Books.get (hi : 0 < f i) : Books (r.get i) (update f i (f i + 1)) where
  count j hj := by
    change update r.count i (r.count i + 1) j = _
    rcases eq_or_ne j i with rfl | hne
    · rw [update_self, update_self, h.count j hj]
      rfl
    · rw [update_of_ne hne, update_of_ne hne]
      exact h.count j hj
  frees j := by
    rw [show (r.get i).frees j = r.frees j from rfl, h.frees j, next_get]
    rcases eq_or_ne j i with rfl | hne
    · rw [update_self, if_neg (by omega), if_neg (by omega)]
    · rw [update_of_ne hne]
  future j hj := by
    have hlt := h.lt_next hi
    rw [next_get] at hj
    rw [update_of_ne (by omega)]
    exact h.future j hj
  sound := h.sound

theorem Books.freed_put (hi : 0 < f i) :
    (r.put i t).freed = if f i = 1 then (i, t) :: r.freed else r.freed := by
  refine if_congr ?_ rfl rfl
  rw [h.count i (h.lt_next hi)]
  omega

theorem Books.put (hi : 0 < f i) : Books (r.put i t) (update f i (f i - 1)) where
  count j hj := by
    change update r.count i (r.count i - 1) j = _
    rcases eq_or_ne j i with rfl | hne
    · rw [update_self, update_self, h.count j hj]
      omega
    · rw [update_of_ne hne, update_of_ne hne]
      exact h.count j hj
  frees j := by
    have hlt := h.lt_next hi
    have hold := h.frees j
    unfold RefTable.frees at hold ⊢
    rw [h.freed_put hi, next_put]
    rcases eq_or_ne j i with rfl | hne
    · rw [if_neg (by omega)] at hold
      rw [update_self]
      split
      · rw [List.countP_cons_of_pos (by simp), hold, if_pos (by omega)]
      · rw [hold, if_neg (by omega)]
    · rw [update_of_ne hne, ← hold]
      split
      · exact List.countP_cons_of_neg (by simpa using hne.symm)
      · rfl
  future j hj := by
    have hlt := h.lt_next hi
    rw [next_put] at hj
    rw [update_of_ne (by omega)]
    exact h.future j hj
  sound := by
    change (r.underflow || decide (r.count i - 1 < 0)) = false
    rw [h.sound, h.count i (h.lt_next hi), Bool.false_or, decide_eq_false_iff_not]
    omega

end

end RefTable

end ZzzOs.Lib
