import Mathlib.Algebra.Group.Nat.Defs
import Mathlib.Tactic.SplitIfs

/-!
# The clock and its division

The division of `lib/utils.c` for the 32-bit build goes through the dividend bit by bit. Only
`do_divmod_u64` looks at the bit that the shift of the remainder loses; `div_u32` and `mod_u32` need not
(**`divmod_law`**). With the division of either build `monotonic_ns` is exact (**`monotonicNs_exact`**).
-/

namespace ZzzOs.Time

open Nat

variable {carry : Bool} {num div top n i b Q : Nat} {t : Nat × Nat}

variable (carry num div) in
/-- One turn of a division loop on `q` and `r`; with `carry` it looks at the bit that `r << 1` loses. -/
def divStep (i : Nat) : Nat × Nat → Nat × Nat
  | (q, r) =>
    let lo := (r <<< 1 ||| num >>> i &&& 1) % 2 ^ 32
    if carry ∧ r >>> 31 ≠ 0 ∨ div ≤ lo then (q ||| 1 <<< i, (lo + 2 ^ 32 - div) % 2 ^ 32) else (q, lo)

variable (carry num div) in
/-- `for (i = n - 1; i >= 0; i--)`. -/
def divLoop : Nat → Nat × Nat → Nat × Nat
  | 0, t => t
  | i + 1, t => divLoop i (divStep carry num div i t)

def divU32 (num div : Nat) : Nat := (divLoop false num div 32 (0, 0)).1

def modU32 (num div : Nat) : Nat := (divLoop false num div 32 (0, 0)).2

/-- The quotient, and what `*rem` is set to. -/
def doDivmodU64 (num div : Nat) : Nat × Nat :=
  if div = 0 then (0, 0) else
    let hi := divLoop true (num >>> 32) div 32 (0, 0)
    let lo := divLoop true (num % 2 ^ 32) div 32 (0, hi.2)
    (hi.1 <<< 32 ||| lo.1, lo.2)

/-- A quotient and a remainder of `num`. -/
def IsDivmod (num div : Nat) (t : Nat × Nat) : Prop :=
  num = t.1 * div + t.2 ∧ t.2 < div

/-- With `top` in the word above `num`, the bits from `n` on are divided, and the quotient is at bit
`n`. -/
def Divided (num div top n : Nat) (t : Nat × Nat) : Prop :=
  ∃ Q, t.1 = Q <<< n ∧ IsDivmod (top * 2 ^ (32 - n) + num >>> n) div (Q, t.2)

theorem shift_in (hb : b < 2) : Q <<< 1 ||| b = 2 * Q + b := by
  rw [← shiftLeft_add_eq_or_of_lt hb, shiftLeft_eq]
  omega

section

variable (hlt : div < 2 ^ 32) (hc : carry = true ∨ top = 0 ∧ num < 2 ^ 32)

include hlt hc

theorem divided_divStep (hi : i < 32) (h : Divided num div top (i + 1) t) :
    Divided num div top i (divStep carry num div i t) := by
  obtain ⟨q, r⟩ := t
  obtain ⟨Q, hq, hm, hr⟩ := h
  dsimp only at hq hm hr
  have hnext : top * 2 ^ (32 - i) + num >>> i =
      2 * (top * 2 ^ (32 - (i + 1)) + num >>> (i + 1)) + num >>> i % 2 := by
    rw [show 32 - i = 32 - (i + 1) + 1 by omega, Nat.pow_succ, ← Nat.mul_assoc, shiftRight_succ]
    omega
  -- a bit that is lost is looked at, or the remainder is below half of what was read
  have hcond : carry ∧ r >>> 31 ≠ 0 ∨ div ≤ (2 * r + num >>> i % 2) % 2 ^ 32 ↔
      div ≤ 2 * r + num >>> i % 2 := by
    rcases hc with rfl | ⟨rfl, hnum⟩
    · rw [shiftRight_eq_div_pow]
      simp only [true_and]
      omega
    · have := shiftRight_le num i
      omega
  unfold divStep
  simp only [and_one_is_mod, shift_in (mod_lt _ Nat.two_pos), hcond]
  split_ifs with hle
  · refine ⟨2 * Q + 1, ?_, ?_⟩
    · rw [← shift_in Nat.one_lt_two, shiftLeft_or_distrib, ← shiftLeft_add, Nat.add_comm 1, hq]
    · rw [hnext, hm]
      refine ⟨?_, ?_⟩ <;> dsimp only
      · rw [Nat.add_mul, Nat.mul_assoc]
        omega
      · omega
  · refine ⟨2 * Q, ?_, ?_⟩
    · rw [hq, shiftLeft_succ, shiftLeft_eq, shiftLeft_eq, Nat.mul_assoc]
    · rw [hnext, hm]
      refine ⟨?_, ?_⟩ <;> dsimp only
      · rw [Nat.mul_assoc]
        omega
      · omega

theorem divided_divLoop (hn : n ≤ 32) (h : Divided num div top n t) :
    Divided num div top 0 (divLoop carry num div n t) := by
  induction n generalizing t with
  | zero => exact h
  | succ i ih => exact ih (le_of_succ_le hn) (divided_divStep hlt hc hn h)

end

/-- A whole loop. -/
theorem isDivmod_divLoop (carry : Bool) (num : Nat) (hlt : div < 2 ^ 32) (htop : top < div)
    (hnum : num < 2 ^ 32) (hc : carry = true ∨ top = 0) :
    IsDivmod (top * 2 ^ 32 + num) div (divLoop carry num div 32 (0, top)) := by
  have h0 : Divided num div top 32 (0, top) := ⟨0, rfl, by simp only; omega, htop⟩
  obtain ⟨Q, hq, h⟩ := divided_divLoop hlt (hc.imp_right (⟨·, hnum⟩)) (Nat.le_refl 32) h0
  rwa [← show _ = Q from hq] at h

theorem isDivmod_doDivmodU64 (hdiv : 0 < div) (hlt : div < 2 ^ 32) (hnum : num < 2 ^ 64) :
    IsDivmod num div (doDivmodU64 num div) := by
  obtain ⟨hhi, hr⟩ := isDivmod_divLoop true (num >>> 32) hlt hdiv (by omega) (.inl rfl)
  obtain ⟨hlo, hr'⟩ := isDivmod_divLoop true (num % 2 ^ 32) hlt hr (by omega) (.inl rfl)
  rw [doDivmodU64, if_neg (Nat.ne_of_gt hdiv)]
  dsimp only
  generalize divLoop true (num >>> 32) div 32 (0, 0) = hi at *
  generalize divLoop true (num % 2 ^ 32) div 32 (0, hi.2) = lo at *
  have hfit : lo.1 < 2 ^ 32 := Nat.lt_of_mul_lt_mul_right (a := div) (by omega)
  refine ⟨?_, hr'⟩
  rw [← shiftLeft_add_eq_or_of_lt hfit, shiftLeft_eq, Nat.add_mul, Nat.mul_right_comm]
  omega

/-- **The division of the 32-bit build is division.** -/
theorem divmod_law (hdiv : 0 < div) (hlt : div < 2 ^ 32) :
    (∀ num < 2 ^ 64, IsDivmod num div (doDivmodU64 num div)) ∧
      ∀ num < 2 ^ 32, IsDivmod num div (divU32 num div, modU32 num div) := by
  refine ⟨fun num hnum => isDivmod_doDivmodU64 hdiv hlt hnum, fun num hnum => ?_⟩
  have h := isDivmod_divLoop false num hlt hdiv hnum (.inr rfl)
  rwa [Nat.zero_mul, Nat.zero_add] at h

theorem divmod_law_max : IsDivmod 0xfffffffe 0xffffffff
    (divU32 0xfffffffe 0xffffffff, modU32 0xfffffffe 0xffffffff) :=
  (divmod_law (by decide) (by decide)).2 _ (by decide)

/-- `divmod_u64` of the 32-bit build, and of the 64-bit one. -/
def divmodU64 (soft : Bool) (num div : Nat) : Nat × Nat :=
  if soft then doDivmodU64 num div else (num / div, num % div)

def nsecPerSec : Nat := 1000000000

/-- `readCounter` is what the counter shows; there is none where the pointer is null. -/
def monotonicNs (soft : Bool) (readCounter : Option Nat) (freqHz : Nat) : Nat :=
  match readCounter with
  | none => 0
  | some cnt =>
    if freqHz = 0 then 0 else
      let (sec, rem) := divmodU64 soft cnt freqHz
      (sec * nsecPerSec + (divmodU64 soft (rem * nsecPerSec % 2 ^ 64) freqHz).1) % 2 ^ 64

variable (soft : Bool) {f c : Nat} (hf : 0 < f) (hlt : f < 2 ^ 32)

include hf hlt

theorem divmodU64_eq (hnum : num < 2 ^ 64) : divmodU64 soft num f = (num / f, num % f) := by
  cases soft with
  | false => rfl
  | true =>
    obtain ⟨hm, hr⟩ := isDivmod_doDivmodU64 hf hlt hnum
    rw [Nat.mul_comm, Nat.add_comm] at hm
    have h := (Nat.div_mod_unique hf).mpr ⟨hm.symm, hr⟩
    exact Prod.ext h.1.symm h.2.symm

theorem monotonicNs_eq (hnum : c < 2 ^ 64) (hc : c / f * nsecPerSec + nsecPerSec < 2 ^ 64) :
    monotonicNs soft (some c) f = c * nsecPerSec / f := by
  have hr : c % f < f := mod_lt _ hf
  have hrem : c % f * nsecPerSec < 2 ^ 64 :=
    Nat.mul_lt_mul'' (c := 2 ^ 32) (d := 2 ^ 32) (Nat.lt_trans hr hlt) (by decide)
  have hsub : c % f * nsecPerSec / f < nsecPerSec :=
    Nat.div_lt_of_lt_mul (Nat.mul_lt_mul_of_pos_right hr (by decide))
  rw [monotonicNs, if_neg (Nat.ne_of_gt hf), divmodU64_eq soft hf hlt hnum]
  dsimp only
  rw [mod_eq_of_lt hrem, divmodU64_eq soft hf hlt hrem, mod_eq_of_lt (by dsimp only; omega)]
  calc c / f * nsecPerSec + c % f * nsecPerSec / f
      = (c % f * nsecPerSec + f * (c / f * nsecPerSec)) / f := by
        rw [add_mul_div_left _ _ hf, Nat.add_comm]
    _ = c * nsecPerSec / f := by rw [← Nat.mul_assoc, ← Nat.add_mul, mod_add_div]

/-- **The clock is exact.** It gives the whole nanoseconds of the count, whatever the build. -/
theorem monotonicNs_exact (hnum : c < 2 ^ 64) (hc : c / f * nsecPerSec + nsecPerSec < 2 ^ 64) :
    monotonicNs soft (some c) f = c * nsecPerSec / f ∧
      (∀ c' ≤ c, monotonicNs soft (some c') f ≤ monotonicNs soft (some c) f) ∧
      monotonicNs soft (some c) f * f ≤ c * nsecPerSec ∧
      c * nsecPerSec < (monotonicNs soft (some c) f + 1) * f := by
  have hns := monotonicNs_eq soft hf hlt hnum hc
  rw [hns]
  refine ⟨rfl, fun c' hle => ?_, div_mul_le_self _ _, ?_⟩
  · have hsec := Nat.mul_le_mul_right nsecPerSec (Nat.div_le_div_right (c := f) hle)
    rw [monotonicNs_eq soft hf hlt (by omega) (by omega)]
    exact Nat.div_le_div_right (Nat.mul_le_mul_right _ hle)
  · rw [Nat.mul_comm _ f]
    exact lt_mul_div_succ _ hf

omit hf hlt in
theorem monotonicNs_exact_third : monotonicNs true (some 100) 3 = 100 * nsecPerSec / 3 :=
  (monotonicNs_exact true (by decide) (by decide) (by decide) (by decide)).1

end ZzzOs.Time
