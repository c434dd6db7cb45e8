import Mathlib.Data.Nat.Bitwise

/-!
# The lowest set bit of a word

Counting trailing zeros by halving: when the low half of what is left is zero, shift it out and add
its width to the count. `Narrows x b (y, r)` is the invariant of the halving: `y` is `x` with `r`
zero bits shifted out, and one of its low `b` bits is set.
-/

namespace ZzzOs.Lib

open BitVec

variable {w : Nat} {x y : BitVec w} {b n r : Nat}

/-- Bit `n` is the lowest one set. -/
structure LowestBit (x : BitVec w) (n : Nat) : Prop where
  set : x.getLsbD n = true
  below : ∀ i < n, x.getLsbD i = false

theorem getLsbD_lowMask (i : Nat) :
    (BitVec.ofNat w (2 ^ n - 1)).getLsbD i = (decide (i < w) && decide (i < n)) := by
  rw [getLsbD_ofNat, Nat.testBit_two_pow_sub_one]

theorem and_lowMask_eq_zero :
    x &&& BitVec.ofNat w (2 ^ n - 1) = 0 ↔ ∀ i < n, x.getLsbD i = false := by
  constructor
  · intro h i hi
    by_cases hw : i < w
    · have := congrArg (fun z => BitVec.getLsbD z i) h
      simpa only [getLsbD_and, getLsbD_lowMask, hi, hw, decide_true, Bool.and_true,
        ofNat_eq_ofNat, getLsbD_zero] using this
    · exact getLsbD_of_ge x i (Nat.le_of_not_lt hw)
  · intro h
    refine eq_of_getLsbD_eq fun i hi => ?_
    rw [getLsbD_and, getLsbD_lowMask]
    rcases Nat.lt_or_ge i n with hin | hin
    · simp [h i hin]
    · simp [Nat.not_lt.2 hin]

/-- `y` is `x` without its `r` lowest bits, which are zero, and has a bit set below `b`. -/
structure Narrows (x : BitVec w) (b : Nat) (p : BitVec w × Nat) : Prop where
  shifted : ∀ i, p.1.getLsbD i = x.getLsbD (p.2 + i)
  zeros : ∀ i < p.2, x.getLsbD i = false
  set : ∃ i < b, p.1.getLsbD i = true

namespace Narrows

theorem start (hx : x ≠ 0) : Narrows x w (x, 0) := by
  refine ⟨fun i => by rw [Nat.zero_add], nofun, ?_⟩
  by_contra hno
  refine hx (eq_of_getLsbD_eq fun i hi => ?_)
  simpa using fun h => hno ⟨i, hi, h⟩

theorem halve (h : Narrows x (n + n) (y, r)) :
    Narrows x n (if y &&& BitVec.ofNat w (2 ^ n - 1) = 0 then (y >>> n, r + n) else (y, r)) := by
  obtain ⟨hs, hz, i, hi, hset⟩ := h
  split_ifs with hlow
  · rw [and_lowMask_eq_zero] at hlow
    have hni : n ≤ i := by
      by_contra hlt
      simp [hlow i (Nat.lt_of_not_le hlt)] at hset
    refine ⟨fun j => ?_, fun j hj => ?_, i - n, by omega, ?_⟩
    · rw [getLsbD_ushiftRight, hs, Nat.add_assoc]
    · rcases Nat.lt_or_ge j r with hjr | hjr
      · exact hz j hjr
      · have := hlow (j - r) (by simp only at hj; omega)
        rwa [hs, Nat.add_sub_cancel' hjr] at this
    · rw [getLsbD_ushiftRight, Nat.add_sub_cancel' hni]
      exact hset
  · rw [and_lowMask_eq_zero] at hlow
    push Not at hlow
    obtain ⟨j, hj, hjset⟩ := hlow
    exact ⟨hs, hz, j, hj, by simpa using hjset⟩

/-- The last halving leaves a single bit, so its count is the place of the lowest bit. -/
theorem lowest (h : Narrows x 1 (y, r)) : LowestBit x r := by
  obtain ⟨hs, hz, i, hi, hset⟩ := h
  obtain rfl : i = 0 := by omega
  rw [hs] at hset
  exact ⟨hset, hz⟩

end Narrows

end ZzzOs.Lib
