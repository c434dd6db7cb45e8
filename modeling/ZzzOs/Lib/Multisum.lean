import Mathlib.Algebra.BigOperators.Group.Finset.Basic
import Mathlib.Algebra.Order.BigOperators.Group.Multiset

/-!
# Sums of multisets

Things that move between places are counted by one equation: the multisets of the places add
up to the multiset of all things. When the total has no repetition the summands are disjoint,
and exchanging one summand is a rewrite.
-/

namespace ZzzOs.Lib

open Finset Function Multiset List

variable {ι α β γ M : Type*} {l : List α} {a : α} {f : α → Multiset β} {x : β}

theorem sum_update_add [DecidableEq ι] [AddCommMonoid M] {s : Finset ι} {j : ι} (hj : j ∈ s)
    (F : ι → α → M) (f : ι → α) (v : α) :
    ∑ i ∈ s, F i (update f j v i) + F j (f j) = ∑ i ∈ s, F i (f i) + F j v := by
  rw [← add_sum_erase s _ hj, ← add_sum_erase s (fun i => F i (f i)) hj]
  have hrest : ∑ i ∈ s.erase j, F i (update f j v i) = ∑ i ∈ s.erase j, F i (f i) := by
    refine sum_congr rfl fun i hi => ?_
    rw [update_of_ne (ne_of_mem_erase hi)]
  simp only [hrest, update_self]
  ac_rfl

theorem sum_range_succ_update [AddCommMonoid M] (n : Nat) (F : α → M) (f : Nat → α) (v : α) :
    ∑ i ∈ Finset.range (n + 1), F (update f n v i) = ∑ i ∈ Finset.range n, F (f i) + F v := by
  rw [Finset.sum_range_succ, update_self]
  refine congrArg (· + F v) (Finset.sum_congr rfl fun i hi => ?_)
  rw [update_of_ne (Nat.ne_of_lt (Finset.mem_range.1 hi))]

section

variable {F : Nat → Multiset β} {n i j : Nat} (h : (∑ i ∈ Finset.range n, F i).Nodup) (hi : i < n)

include h hi

/-- A member of a sum without repetition is in one of the summands only. -/
theorem index_unique (hj : j < n) (hx : x ∈ F i) (hx' : x ∈ F j) : i = j := by
  by_contra hij
  rw [← add_sum_erase _ F (mem_range.2 hi), nodup_add] at h
  have hj' : j ∈ (Finset.range n).erase i := by simp [hj, Ne.symm hij]
  exact disjoint_left.1 h.2.2 hx (mem_sum.2 ⟨j, hj', hx'⟩)

theorem nodup_of_nodup_sum : (F i).Nodup := by
  rw [← add_sum_erase _ F (mem_range.2 hi), nodup_add] at h
  exact h.1

end

theorem mem_sum_map :
    x ∈ (l.map f).sum ↔ ∃ a ∈ l, x ∈ f a := by
  induction l with
  | nil => simp
  | cons b l ih => simp [ih]

theorem pairwise_of_nodup_map (h : (l.map f).sum.Nodup) :
    l.Pairwise fun a b => Disjoint (f a) (f b) := by
  induction l with
  | nil => exact List.Pairwise.nil
  | cons b l ih =>
    rw [List.map_cons, List.sum_cons, nodup_add] at h
    refine pairwise_cons.2 ⟨fun a ha => ?_, ih h.2.1⟩
    exact disjoint_left.2 fun hx hx' =>
      disjoint_left.1 h.2.2 hx (mem_sum_map.2 ⟨a, ha, hx'⟩)

/-- Distinct members of a list whose spans do not repeat have disjoint spans. -/
theorem disjoint_of_nodup_map (h : (l.map f).sum.Nodup) {b : α}
    (ha : a ∈ l) (hb : b ∈ l) (hab : a ≠ b) : Disjoint (f a) (f b) := by
  exact (pairwise_of_nodup_map h).forall ha hb hab

theorem member_unique (h : (l.map f).sum.Nodup) {b : α}
    (ha : a ∈ l) (hb : b ∈ l) (hx : x ∈ f a) (hx' : x ∈ f b) : a = b := by
  by_contra hab
  exact disjoint_left.1 (disjoint_of_nodup_map h ha hb hab) hx hx'

/-- A list whose non-empty spans do not repeat has no repetition itself. -/
theorem nodup_of_nodup_map (h : (l.map f).sum.Nodup)
    (hne : ∀ a ∈ l, f a ≠ 0) : l.Nodup := by
  refine (pairwise_of_nodup_map h).imp_of_mem fun {a b} ha _ hd hab => hne a ha ?_
  exact disjoint_self.1 (hab ▸ hd)

/-- Disjoint spans without repetition add up to a multiset without repetition. -/
theorem nodup_sum_map (hnd : ∀ a ∈ l, (f a).Nodup)
    (hd : l.Pairwise fun a b => Disjoint (f a) (f b)) : (l.map f).sum.Nodup := by
  induction l with
  | nil => exact nodup_zero
  | cons b l ih =>
    obtain ⟨hb, hl⟩ := pairwise_cons.1 hd
    rw [List.map_cons, List.sum_cons, nodup_add]
    refine ⟨hnd b mem_cons_self, ih (fun a ha => hnd a (mem_cons_of_mem _ ha)) hl, ?_⟩
    refine disjoint_left.2 fun hx hx' => ?_
    obtain ⟨a, ha, hx'⟩ := mem_sum_map.1 hx'
    exact disjoint_left.1 (hb a ha) hx hx'

/-- Updating a family at one member of a list exchanges one summand. -/
theorem sum_map_update_add [DecidableEq α] {f : α → γ} {F : γ → Multiset β}
    (hnd : l.Nodup) (ha : a ∈ l) (v : γ) :
    (l.map fun x => F (update f a v x)).sum + F (f a) = (l.map fun x => F (f x)).sum + F v := by
  have hrest : ((l.erase a).map fun x => F (update f a v x)) =
      (l.erase a).map fun x => F (f x) := by
    refine map_congr_left fun x hx => ?_
    rw [update_of_ne fun e => (hnd.mem_erase_iff.1 hx).1 e]
  rw [← sum_map_erase _ ha, ← sum_map_erase _ ha, hrest, update_self]
  ac_rfl

end ZzzOs.Lib
