import Mathlib.Data.List.Pairwise
import Mathlib.Data.List.Basic

/-!
# Lists of intervals as partial functions

A list of things that each cover an interval `[lo, hi)` and carry a value is read as a partial
function (`Spans.get`). In an ordered list (`Spans.Ordered`) the intervals are disjoint and not
empty, so the order of a search does not matter.
-/

namespace ZzzOs.Lib

open List

/-- What `s : S` covers, and the value it has there. -/
structure Spans (S V : Type*) where
  lo : S → Nat
  hi : S → Nat
  val : S → V

namespace Spans

variable {S V : Type*} (R : Spans S V)

def get (l : List S) (x : Nat) : Option V :=
  (l.find? fun s => decide (R.lo s ≤ x) && decide (x < R.hi s)).map R.val

/-- Ordered by address, disjoint and not empty. -/
structure Ordered (l : List S) : Prop where
  apart : l.Pairwise fun s t => R.hi s ≤ R.lo t
  proper : ∀ s ∈ l, R.lo s < R.hi s

/-- No member reaches over `c`. -/
def CutAt (c : Nat) (l : List S) : Prop := ∀ s ∈ l, R.hi s ≤ c ∨ c ≤ R.lo s

instance (c : Nat) (l : List S) : Decidable (R.CutAt c l) :=
  inferInstanceAs (Decidable (∀ s ∈ l, R.hi s ≤ c ∨ c ≤ R.lo s))

variable {R} {l l₁ l₂ : List S} {s t : S} {x c : Nat}

@[simp] theorem get_nil : R.get [] x = none := rfl

theorem get_cons : R.get (s :: l) x =
    if R.lo s ≤ x ∧ x < R.hi s then some (R.val s) else R.get l x := by
  unfold get
  rw [List.find?_cons]
  by_cases h : R.lo s ≤ x ∧ x < R.hi s
  · rw [if_pos h, decide_eq_true h.1, decide_eq_true h.2]
    rfl
  · rw [if_neg h, show (decide (R.lo s ≤ x) && decide (x < R.hi s)) = false by
      simpa [Bool.and_eq_false_iff, Classical.not_and_iff_not_or_not] using h]

theorem get_cons_pos (h : R.lo s ≤ x ∧ x < R.hi s) : R.get (s :: l) x = some (R.val s) := by
  rw [get_cons, if_pos h]

theorem get_cons_neg (h : ¬ (R.lo s ≤ x ∧ x < R.hi s)) : R.get (s :: l) x = R.get l x := by
  rw [get_cons, if_neg h]

theorem get_append : R.get (l₁ ++ l₂) x = (R.get l₁ x).or (R.get l₂ x) := by
  induction l₁ with
  | nil => rfl
  | cons s l ih =>
    rw [cons_append, get_cons, get_cons, ih]
    split
    · rfl
    · rfl

theorem get_eq_none : R.get l x = none ↔ ∀ s ∈ l, ¬ (R.lo s ≤ x ∧ x < R.hi s) := by
  induction l with
  | nil => simp
  | cons s l ih =>
    rw [get_cons, forall_mem_cons]
    split_ifs with h
    · exact ⟨(nomatch ·), fun he => absurd h he.1⟩
    · exact ih.trans ⟨fun he => ⟨h, he⟩, fun he => he.2⟩

theorem Ordered.get_of_mem (h : R.Ordered l) (hs : s ∈ l) (hx : R.lo s ≤ x ∧ x < R.hi s) :
    R.get l x = some (R.val s) := by
  obtain ⟨a, b, rfl⟩ := append_of_mem hs
  have hnone : R.get a x = none := by
    refine get_eq_none.2 fun t ht hc => ?_
    have := pairwise_append.1 h.apart
    have := this.2.2 t ht s (mem_cons_self ..)
    omega
  rw [get_append, hnone, get_cons, if_pos hx]
  rfl

theorem Ordered.apart_of_mem (h : R.Ordered l) (hs : s ∈ l) (ht : t ∈ l) :
    s = t ∨ R.hi s ≤ R.lo t ∨ R.hi t ≤ R.lo s := by
  obtain ⟨a, b, rfl⟩ := append_of_mem hs
  obtain ⟨-, hb, hab⟩ := pairwise_append.1 h.apart
  rcases mem_append.1 ht with ht | ht
  · exact .inr (.inr (hab t ht s (mem_cons_self ..)))
  · rcases mem_cons.1 ht with rfl | ht
    · exact .inl rfl
    · exact .inr (.inl ((pairwise_cons.1 hb).1 t ht))

theorem get_eq_some (h : R.Ordered l) {v : V} :
    R.get l x = some v ↔ ∃ s ∈ l, (R.lo s ≤ x ∧ x < R.hi s) ∧ R.val s = v := by
  constructor
  · intro hv
    by_contra hno
    have : R.get l x = none := by
      refine get_eq_none.2 fun s hs hx => hno ⟨s, hs, hx, ?_⟩
      exact Option.some.inj ((h.get_of_mem hs hx).symm.trans hv)
    rw [hv] at this
    cases this
  · rintro ⟨s, hs, hx, rfl⟩
    exact h.get_of_mem hs hx

/-! ## Parts of an ordered list -/

theorem Ordered.nil : R.Ordered [] := ⟨List.Pairwise.nil, nofun⟩

theorem ordered_cons : R.Ordered (s :: l) ↔
    R.lo s < R.hi s ∧ (∀ t ∈ l, R.hi s ≤ R.lo t) ∧ R.Ordered l := by
  constructor
  · intro h
    obtain ⟨h1, h2⟩ := pairwise_cons.1 h.apart
    exact ⟨h.proper s (mem_cons_self ..), h1, h2, fun t ht => h.proper t (mem_cons_of_mem _ ht)⟩
  · rintro ⟨h1, h2, h3⟩
    exact ⟨pairwise_cons.2 ⟨h2, h3.apart⟩, forall_mem_cons.2 ⟨h1, h3.proper⟩⟩

theorem Ordered.tail (h : R.Ordered (s :: l)) : R.Ordered l := (ordered_cons.1 h).2.2

theorem Ordered.sublist (h : R.Ordered l₂) (hs : l₁.Sublist l₂) : R.Ordered l₁ :=
  ⟨h.apart.sublist hs, fun s hm => h.proper s (hs.subset hm)⟩

theorem ordered_append : R.Ordered (l₁ ++ l₂) ↔
    R.Ordered l₁ ∧ R.Ordered l₂ ∧ ∀ s ∈ l₁, ∀ t ∈ l₂, R.hi s ≤ R.lo t := by
  constructor
  · intro h
    exact ⟨h.sublist (sublist_append_left ..), h.sublist (sublist_append_right ..),
      (pairwise_append.1 h.apart).2.2⟩
  · rintro ⟨h1, h2, h3⟩
    exact ⟨pairwise_append.2 ⟨h1.apart, h2.apart, h3⟩, forall_mem_append.2 ⟨h1.proper, h2.proper⟩⟩

theorem Ordered.get_tail (h : R.Ordered (s :: l)) (hx : x < R.hi s) : R.get l x = none := by
  refine get_eq_none.2 fun t ht hc => ?_
  have := (ordered_cons.1 h).2.1 t ht
  omega

/-! ## Changing an ordered list in one place -/

/-- Around an address, an ordered list has members before it, at most one at it, and members
after it. -/
theorem Ordered.split (h : R.Ordered l) (c : Nat) :
    ∃ A M C, l = A ++ (M ++ C) ∧ (∀ s ∈ A, R.hi s ≤ c) ∧ (∀ s ∈ C, c < R.lo s) ∧
      (M = [] ∨ ∃ m, M = [m] ∧ R.lo m ≤ c ∧ c < R.hi m) := by
  induction l with
  | nil => exact ⟨[], [], [], rfl, nofun, nofun, .inl rfl⟩
  | cons s l ih =>
    obtain ⟨hs, hsl, hl⟩ := ordered_cons.1 h
    by_cases hhi : R.hi s ≤ c
    · obtain ⟨A, M, C, rfl, hA, hrest⟩ := ih hl
      exact ⟨s :: A, M, C, rfl, forall_mem_cons.2 ⟨hhi, hA⟩, hrest⟩
    · have hC : ∀ t ∈ l, c < R.lo t := fun t ht => by
        have := hsl t ht
        omega
      by_cases hlo : R.lo s ≤ c
      · exact ⟨[], [s], l, rfl, nofun, hC, .inr ⟨s, rfl, hlo, by omega⟩⟩
      · exact ⟨[], [], s :: l, rfl, nofun, forall_mem_cons.2 ⟨by omega, hC⟩, .inl rfl⟩

theorem Ordered.replace {A M C : List S} (h : R.Ordered (A ++ s :: C)) (hM : R.Ordered M)
    (hin : ∀ t ∈ M, R.lo s ≤ R.lo t ∧ R.hi t ≤ R.hi s) : R.Ordered (A ++ (M ++ C)) := by
  obtain ⟨hA, hsC, hAs⟩ := ordered_append.1 h
  obtain ⟨-, hC, hordC⟩ := ordered_cons.1 hsC
  refine ordered_append.2 ⟨hA, ordered_append.2 ⟨hM, hordC, fun t ht c hc => ?_⟩,
    fun a ha t ht => ?_⟩
  · exact Nat.le_trans (hin t ht).2 (hC c hc)
  · rcases mem_append.1 ht with ht | ht
    · exact Nat.le_trans (hAs a ha s (mem_cons_self ..)) (hin t ht).1
    · exact hAs a ha t (mem_cons_of_mem _ ht)

end Spans

end ZzzOs.Lib
