import Mathlib.Algebra.Order.BigOperators.Group.Multiset
import Mathlib.Algebra.Ring.Parity
import Mathlib.Data.Multiset.Basic
import Mathlib.Data.Nat.Bitwise

/-!
# Dyadic blocks of natural numbers

A block of order `k` is a run of `2 ^ k` consecutive numbers that starts at a multiple of `2 ^ k`.
Flipping bit `k` of the start gives the *buddy* (`flip_cases`). Blocks are counted through the multiset
of the numbers they hold: splitting and joining are then equations between multisets
(`Block.span_split`).
-/

namespace ZzzOs.Lib

open Nat

/-- A run of `2 ^ order` numbers from `base` on. -/
structure Block where
  base : Nat
  order : Nat
deriving DecidableEq

namespace Block

/-- The block starts at a multiple of its size. -/
def Aligned (b : Block) : Prop := 2 ^ b.order ∣ b.base

/-- The numbers of the block, as a multiset. -/
def span (b : Block) : Multiset Nat := (List.range' b.base (2 ^ b.order) : List Nat)

theorem mem_span {b : Block} {x : Nat} : x ∈ b.span ↔ b.base ≤ x ∧ x < b.base + 2 ^ b.order := by
  simp [span, List.mem_range'_1]

theorem base_mem_span (b : Block) : b.base ∈ b.span :=
  mem_span.2 ⟨Nat.le_refl _, Nat.lt_add_of_pos_right (Nat.two_pow_pos _)⟩

@[simp] theorem card_span (b : Block) : b.span.card = 2 ^ b.order := by
  simp [span]

@[simp] theorem span_zero (p : Nat) : (Block.mk p 0).span = {p} := rfl

theorem apart_of_disjoint {b b' : Block} (h : Disjoint b.span b'.span) :
    b.base + 2 ^ b.order ≤ b'.base ∨ b'.base + 2 ^ b'.order ≤ b.base := by
  by_contra hc
  have h1 := Nat.two_pow_pos b.order
  have h2 := Nat.two_pow_pos b'.order
  have hx : max b.base b'.base ∈ b.span := mem_span.2 (by omega)
  exact Multiset.disjoint_left.1 h hx (mem_span.2 (by omega))

theorem span_split (p k : Nat) :
    (Block.mk p (k + 1)).span = (Block.mk p k).span + (Block.mk (p + 2 ^ k) k).span := by
  have h := @List.range'_append p (2 ^ k) (2 ^ k) 1
  rw [one_mul, ← two_mul, mul_comm, ← pow_succ] at h
  simp [span, ← h]

end Block

/-! ## Flipping the order bit of an aligned number -/

theorem xor_one_cases (q : Nat) :
    (2 ∣ q ∧ q ^^^ 1 = q + 1) ∨ (1 ≤ q ∧ 2 ∣ q - 1 ∧ q ^^^ 1 = q - 1) := by
  rcases even_or_odd q with h | h
  · exact .inl ⟨h.two_dvd, xor_one_of_even h⟩
  · obtain ⟨m, rfl⟩ := h
    exact .inr ⟨by omega, ⟨m, by omega⟩, xor_one_of_odd ⟨m, rfl⟩⟩

theorem mul_two_pow_xor (q k : Nat) : 2 ^ k * q ^^^ 2 ^ k = 2 ^ k * (q ^^^ 1) := by
  have h := shiftLeft_xor_distrib (i := k) (a := q) (b := 1)
  simp only [shiftLeft_eq, one_mul] at h
  rw [mul_comm, ← h, mul_comm]

variable {p k q : Nat}

/-- The buddy of an aligned number is the other half of the enclosing block. -/
theorem flip_cases (h : 2 ^ k ∣ p) : (2 ^ (k + 1) ∣ p ∧ p ^^^ 2 ^ k = p + 2 ^ k) ∨
      (2 ^ k ≤ p ∧ 2 ^ (k + 1) ∣ p - 2 ^ k ∧ p ^^^ 2 ^ k = p - 2 ^ k) := by
  obtain ⟨q, rfl⟩ := h
  rw [mul_two_pow_xor]
  rcases xor_one_cases q with ⟨hd, he⟩ | ⟨h1, hd, he⟩
  · refine .inl ⟨?_, by rw [he, mul_add, mul_one]⟩
    exact mul_dvd_mul_left _ hd
  · refine .inr ⟨Nat.le_mul_of_pos_right _ h1, ?_, by rw [he, Nat.mul_sub, Nat.mul_one]⟩
    rw [Nat.pow_succ, show 2 ^ k * q - 2 ^ k = 2 ^ k * (q - 1) by rw [Nat.mul_sub, Nat.mul_one]]
    exact mul_dvd_mul_left _ hd

/-- The first number of a block of order `k + 1` and the buddy it has in order `k`. -/
theorem flip_of_dvd (h : 2 ^ (k + 1) ∣ p) : p ^^^ 2 ^ k = p + 2 ^ k := by
  have hk : 2 ^ k ∣ p := (pow_dvd_pow 2 (le_succ k)).trans h
  rcases flip_cases hk with ⟨-, e⟩ | ⟨hle, hd, -⟩
  · exact e
  · -- both `p` and `p - 2 ^ k` cannot be multiples of `2 ^ (k + 1)`
    have h2 : 2 ^ (k + 1) ∣ 2 ^ k := by
      have := dvd_sub h hd
      rwa [Nat.sub_sub_self hle] at this
    have := Nat.le_of_dvd (Nat.two_pow_pos k) h2
    omega

theorem flip_ne (p k : Nat) : p ^^^ 2 ^ k ≠ p := by
  intro h
  have : p ^^^ (p ^^^ 2 ^ k) = p ^^^ p := by rw [h]
  rw [← Nat.xor_assoc, Nat.xor_self, Nat.zero_xor] at this
  exact (Nat.two_pow_pos k).ne' this

/-- The lower of an aligned number and its buddy starts the enclosing block, and the
two halves together hold its numbers. -/
theorem join_flip (h : 2 ^ k ∣ p) : 2 ^ (k + 1) ∣ min p (p ^^^ 2 ^ k) ∧
      (Block.mk (min p (p ^^^ 2 ^ k)) (k + 1)).span =
        (Block.mk p k).span + (Block.mk (p ^^^ 2 ^ k) k).span := by
  rcases flip_cases h with ⟨hd, e⟩ | ⟨hle, hd, e⟩
  · rw [e, min_eq_left (le_add_right _ _)]
    exact ⟨hd, Block.span_split p k⟩
  · rw [e, min_eq_right (sub_le _ _)]
    refine ⟨hd, ?_⟩
    rw [Block.span_split, Nat.sub_add_cancel hle, Multiset.add_comm]

/-- Between an aligned number and the next multiple of `2 ^ k` there is no other. -/
theorem eq_add_of_aligned (hp : 2 ^ k ∣ p) (hq : 2 ^ k ∣ q) (hlt : p < q)
    (hle : q ≤ p + 2 ^ k) : q = p + 2 ^ k := by
  have hd := dvd_sub hq hp
  have := le_of_dvd (by omega) hd
  omega

end ZzzOs.Lib
