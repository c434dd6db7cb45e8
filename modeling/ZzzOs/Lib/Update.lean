import Mathlib.Logic.Function.Basic

/-!
# Updated functions

What holds of the new value, and elsewhere of the old ones, holds of the values of an updated function.
-/

namespace ZzzOs.Lib

open Function

variable {ι α : Type*} [DecidableEq ι] {f : ι → α} {i j : ι} {x : α}

@[elab_as_elim]
theorem update_cases {motive : α → Prop} (hself : j = i → motive x) (hother : j ≠ i → motive (f j)) :
    motive (update f i x j) := by
  by_cases h : j = i
  · rw [h, update_self]
    exact hself h
  · rw [update_of_ne h]
    exact hother h

end ZzzOs.Lib
