import Mathlib.Data.Nat.Bitwise
import Mathlib.Tactic.Ring

/-!
# Rounding 64-bit addresses to a power of two

`alignDown` and `alignUp` are the usual masks, written with division; `mask_eq_alignDown` is the
bit-level form. `alignUp` wraps like the machine addition it is made of. The last part is about or-ing a
word with its own shifts, which fills the bits below the highest one.
-/

namespace ZzzOs.Lib

open Nat

/-- `x & ~(a - 1)`, for `a` a power of two. -/
def alignDown (x a : Nat) : Nat := x / a * a

/-- `(x + a - 1) & ~(a - 1)` on 64-bit words, for `a` a power of two. -/
def alignUp (x a : Nat) : Nat := alignDown ((x + (a - 1)) % 2 ^ 64) a

theorem alignDown_le (x a : Nat) : alignDown x a ≤ x := div_mul_le_self x a

theorem dvd_alignDown (x a : Nat) : a ∣ alignDown x a := dvd_mul_left a (x / a)

variable {x a m y k : Nat}

theorem alignDown_of_dvd (h : a ∣ x) : alignDown x a = x := Nat.div_mul_cancel h

theorem le_alignDown (hd : a ∣ y) (h : y ≤ x) : y ≤ alignDown x a := by
  rw [← alignDown_of_dvd hd]
  exact Nat.mul_le_mul_right a (Nat.div_le_div_right h)

theorem lt_alignDown_add (ha : 0 < a) : x < alignDown x a + a := by
  have := div_add_mod x a
  have := mod_lt x ha
  rw [alignDown, mul_comm]
  omega

/-- Rounding up moves forward by less than the alignment when nothing wraps. -/
theorem alignUp_bounds (ha : 0 < a) (h : x + (a - 1) < 2 ^ 64) :
    x ≤ alignUp x a ∧ alignUp x a ≤ x + (a - 1) := by
  unfold alignUp
  rw [mod_eq_of_lt h]
  have h1 := lt_alignDown_add (x := x + (a - 1)) ha
  have h2 := alignDown_le (x + (a - 1)) a
  omega

theorem dvd_alignUp (x a : Nat) : a ∣ alignUp x a := dvd_alignDown _ a

theorem alignUp_of_dvd (ha : 0 < a) (hd : a ∣ x) (hx : x + (a - 1) < 2 ^ 64) : alignUp x a = x := by
  obtain ⟨q, rfl⟩ := hd
  unfold alignUp alignDown
  rw [mod_eq_of_lt hx, mul_add_div ha, div_eq_of_lt (by omega), add_zero, mul_comm]

/-! ## Filling the bits below the highest one -/

/-- The highest set bit of `x` is bit `k`, and the `m` bits from it downwards are set. -/
structure TopOnes (x k m : Nat) : Prop where
  lt : x < 2 ^ (k + 1)
  ones : ∀ i ≤ k, k < i + m → x.testBit i = true

theorem TopOnes.of_log (h1 : 2 ^ k ≤ x) (h2 : x < 2 ^ (k + 1)) : TopOnes x k 1 := by
  refine ⟨h2, fun i hi hk => ?_⟩
  obtain rfl : i = k := by omega
  exact testBit_of_two_pow_le_and_two_pow_add_one_gt h1 h2

/-- Or-ing with the word shifted by the length of its run of ones doubles that run. -/
theorem TopOnes.double (h : TopOnes x k m) : TopOnes (x ||| x >>> m) k (2 * m) := by
  refine ⟨or_lt_two_pow h.lt (lt_of_le_of_lt (shiftRight_le x m) h.lt), fun i hi hk => ?_⟩
  rw [testBit_or, testBit_shiftRight, Bool.or_eq_true]
  by_cases him : k < i + m
  · exact .inl (h.ones i hi him)
  · exact .inr (h.ones (m + i) (by omega) (by omega))

theorem TopOnes.eq (h : TopOnes x k m) (hm : k < m) : x = 2 ^ (k + 1) - 1 := by
  apply eq_of_testBit_eq
  intro i
  rw [testBit_two_pow_sub_one]
  by_cases hi : i ≤ k
  · rw [h.ones i hi (by omega), decide_eq_true (by omega)]
  · rw [decide_eq_false (by omega)]
    exact testBit_lt_two_pow (Nat.lt_of_lt_of_le h.lt (Nat.pow_le_pow_right (by decide) (by omega)))

end ZzzOs.Lib
