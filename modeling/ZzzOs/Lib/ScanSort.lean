import Mathlib.Data.List.Nodup
import Mathlib.Data.List.Pairwise
import Mathlib.Data.List.Perm.Basic
import Mathlib.Data.List.Basic
import Mathlib.Tactic.Linarith

/-!
# Sorting a linked list in place

A pass over a doubly linked list that takes each member out and puts it before the first member
with a greater key (`ScanSort.sort`). A member that is moved forward is met again.

* `sort_some`: a pass that ends leaves a sorted list of the same members;
* `sort_total`: with distinct keys the pass ends, as a member met again has lost inversions.
-/

namespace ZzzOs.Lib.ScanSort

open Nat List

section Definitions

variable {α : Type*} [DecidableEq α] (key : α → Nat)

/-- `r` put before `g`. -/
def insertBefore (r g : α) : List α → List α
  | [] => [r]
  | p :: l => if p = g then r :: p :: l else p :: insertBefore r g l

/-- `r` moved before the first other member with a greater key; it stays if there is none. -/
def sortOne (r : α) (l : List α) : List α :=
  match l.find? fun p => decide (r ≠ p) && decide (key r < key p) with
  | none => l
  | some g => insertBefore r g (l.erase r)

def after (r : α) (l : List α) : Option α := (l.dropWhile fun p => decide (p ≠ r)).tail.head?

def sortFrom : Nat → Option α → List α → Option (List α)
  | 0, _, _ => none
  | _ + 1, none, l => some l
  | n + 1, some r, l => sortFrom n (after r l) (sortOne key r l)

/-- The pass; `none` when it has not ended after as many steps as distinct keys can need. -/
def sort (l : List α) : Option (List α) := sortFrom key ((l.length + 1) ^ 3) l.head? l

end Definitions

/-! ## Order and inversions -/

section Order

variable {α : Type*} (key : α → Nat)

def Sorted (l : List α) : Prop := l.Pairwise fun a b => key a ≤ key b

instance (l : List α) : Decidable (Sorted key l) := inferInstanceAs (Decidable (l.Pairwise _))

def Distinct (l : List α) : Prop := l.Pairwise fun a b => key a ≠ key b

def inversions : List α → Nat
  | [] => 0
  | x :: l => l.countP (fun y => decide (key y < key x)) + inversions l

variable {key} {r g : α} {l A B : List α}

theorem Distinct.perm (h : Distinct key l) {l' : List α} (hp : l'.Perm l) : Distinct key l' :=
  (hp.pairwise_iff fun hne => hne.symm).2 h

theorem sorted_insert {A₁ A₂ : List α} (h : Sorted key (A₁ ++ g :: A₂))
    (hA : ∀ a ∈ A₁, key a ≤ key r) (hg : key r < key g) : Sorted key (A₁ ++ r :: g :: A₂) := by
  obtain ⟨h1, h2, h3⟩ := pairwise_append.1 h
  have hr : ∀ x ∈ g :: A₂, key r ≤ key x :=
    forall_mem_cons.2 ⟨hg.le, fun x hx => hg.le.trans ((pairwise_cons.1 h2).1 x hx)⟩
  exact pairwise_append.2 ⟨h1, pairwise_cons.2 ⟨hr, h2⟩,
    fun a ha => forall_mem_cons.2 ⟨hA a ha, h3 a ha⟩⟩

theorem sorted_concat (h : Sorted key A) (hA : ∀ a ∈ A, key a ≤ key r) : Sorted key (A ++ [r]) := by
  exact pairwise_append.2 ⟨h, pairwise_singleton _ _, fun a ha => forall_mem_singleton.2 (hA a ha)⟩

variable (key)

theorem inversions_le (l : List α) : inversions key l ≤ l.length * l.length := by
  induction l with
  | nil => rfl
  | cons x l ih =>
    have : l.countP (fun y => decide (key y < key x)) ≤ l.length := countP_le_length
    rw [inversions, length_cons]
    nlinarith

/-- Reordering the end of a list changes the inversions only there. -/
theorem inversions_append {X X' : List α} (h : X'.Perm X) (A : List α) :
    inversions key (A ++ X') + inversions key X = inversions key (A ++ X) + inversions key X' := by
  induction A with
  | nil => exact add_comm _ _
  | cons a A ih =>
    have := (h.append_left A).countP_eq fun y => decide (key y < key a)
    rw [cons_append, cons_append, inversions, inversions]
    omega

theorem inversions_back (Y : List α) (hY : ∀ y ∈ Y, key r ≤ key y) :
    inversions key (r :: (Y ++ B)) ≤ inversions key (Y ++ r :: B) := by
  induction Y with
  | nil => exact le_rfl
  | cons y Y ih =>
    have ih := ih fun z hz => hY z (mem_cons_of_mem _ hz)
    have hy := hY y (mem_cons_self ..)
    have hskip : (y :: (Y ++ B)).countP (fun z => decide (key z < key r)) =
        (Y ++ B).countP (fun z => decide (key z < key r)) :=
      countP_cons_of_neg (by simpa using hy)
    have hmore : (Y ++ B).countP (fun z => decide (key z < key y)) ≤
        (Y ++ r :: B).countP (fun z => decide (key z < key y)) :=
      ((sublist_cons_self r B).append_left Y).countP_le
    simp only [cons_append, inversions] at ih ⊢
    omega

theorem inversions_forward (Y : List α) (hY : ∀ y ∈ Y, key y < key r) :
    inversions key (Y ++ r :: B) + Y.length = inversions key (r :: (Y ++ B)) := by
  induction Y with
  | nil => rfl
  | cons y Y ih =>
    have ih := ih fun z hz => hY z (mem_cons_of_mem _ hz)
    have hy := hY y (mem_cons_self ..)
    have hskip : (r :: B).countP (fun z => decide (key z < key y)) =
        B.countP (fun z => decide (key z < key y)) :=
      countP_cons_of_neg (by simpa using hy.le)
    have hcount : (y :: (Y ++ B)).countP (fun z => decide (key z < key r)) =
        (Y ++ B).countP (fun z => decide (key z < key r)) + 1 :=
      countP_cons_of_pos (decide_eq_true hy)
    simp only [cons_append, inversions, countP_append, length_cons] at ih hcount ⊢
    omega

end Order

/-! ## One move -/

variable {α : Type*} [DecidableEq α] {key : α → Nat} {r g : α} {l A B m : List α} {n : Nat}

theorem insertBefore_append (h : g ∉ A) : insertBefore r g (A ++ g :: B) = A ++ r :: g :: B := by
  induction A with
  | nil => simp [insertBefore]
  | cons a A ih =>
    obtain ⟨h1, h2⟩ := not_or.1 (mem_cons.not.1 h)
    rw [cons_append, insertBefore, if_neg (Ne.symm h1), ih h2]
    rfl

theorem after_append (h : r ∉ A) : after r (A ++ r :: B) = B.head? := by
  induction A with
  | nil => simp [after]
  | cons a A ih =>
    obtain ⟨h1, h2⟩ := not_or.1 (mem_cons.not.1 h)
    rw [← ih h2, after, after, cons_append, dropWhile_cons, if_pos (by simpa using Ne.symm h1)]

theorem find_greater (key : α → Nat) (r : α) (X : List α) : ((∀ x ∈ X, key x ≤ key r) ∧
      X.find? (fun p => decide (r ≠ p) && decide (key r < key p)) = none) ∨
    ∃ X₁ g X₂, X = X₁ ++ g :: X₂ ∧ (∀ x ∈ X₁, key x ≤ key r) ∧ key r < key g ∧
      X.find? (fun p => decide (r ≠ p) && decide (key r < key p)) = some g := by
  have hle : ∀ p, ((decide (r ≠ p) && decide (key r < key p)) = true) ↔ key r < key p := by
    intro p
    rw [Bool.and_eq_true, decide_eq_true_iff, decide_eq_true_iff]
    exact and_iff_right_of_imp fun h he => absurd h (by simp [he])
  cases hf : X.find? fun p => decide (r ≠ p) && decide (key r < key p) with
  | none =>
    refine .inl ⟨fun x hx => ?_, rfl⟩
    have := List.find?_eq_none.1 hf x hx
    rw [hle] at this
    omega
  | some g =>
    obtain ⟨hg, X₁, X₂, hX, hX₁⟩ := List.find?_eq_some_iff_append.1 hf
    refine .inr ⟨X₁, g, X₂, hX, fun x hx => ?_, (hle g).1 hg, rfl⟩
    have hx := hX₁ x hx
    rw [Bool.not_eq_true', ← Bool.not_eq_true, hle] at hx
    omega

/-- Where a move puts `r`: back into the part before it, forward into the part after it, or
nowhere. -/
theorem sortOne_cases (key : α → Nat) (hn : (A ++ r :: B).Nodup) :
    (∃ A₁ g A₂, A = A₁ ++ g :: A₂ ∧ (∀ a ∈ A₁, key a ≤ key r) ∧ key r < key g ∧
      sortOne key r (A ++ r :: B) = (A₁ ++ r :: g :: A₂) ++ B) ∨
    (∀ a ∈ A, key a ≤ key r) ∧
      ((∃ B₁ g B₂, B = B₁ ++ g :: B₂ ∧ (∀ b ∈ B₁, key b ≤ key r) ∧ key r < key g ∧
        sortOne key r (A ++ r :: B) = A ++ (B₁ ++ r :: g :: B₂)) ∨
      (∀ b ∈ B, key b ≤ key r) ∧ sortOne key r (A ++ r :: B) = A ++ r :: B) := by
  have hrA : r ∉ A := fun hr => disjoint_of_nodup_append hn hr (mem_cons_self ..)
  have herase : (A ++ r :: B).erase r = A ++ B := by
    rw [erase_append_right _ hrA, erase_cons_head]
  have hself : (decide (r ≠ r) && decide (key r < key r)) = false := by simp
  have hnAB : (A ++ B).Nodup := herase ▸ hn.erase r
  unfold sortOne
  rw [List.find?_append, List.find?_cons, hself, herase]
  rcases find_greater key r A with ⟨hA, hfA⟩ | ⟨A₁, g, A₂, rfl, hA₁, hg, hfA⟩
  · rw [hfA]
    refine .inr ⟨hA, ?_⟩
    rcases find_greater key r B with ⟨hB, hfB⟩ | ⟨B₁, g, B₂, rfl, hB₁, hg, hfB⟩
    · rw [hfB]
      exact .inr ⟨hB, rfl⟩
    · rw [hfB]
      refine .inl ⟨B₁, g, B₂, rfl, hB₁, hg, ?_⟩
      have hgn : g ∉ A ++ B₁ := by
        rw [← append_assoc] at hnAB
        exact fun h => disjoint_of_nodup_append hnAB h (mem_cons_self ..)
      change insertBefore r g (A ++ (B₁ ++ g :: B₂)) = _
      rw [← append_assoc, insertBefore_append hgn, append_assoc]
  · rw [hfA]
    refine .inl ⟨A₁, g, A₂, rfl, hA₁, hg, ?_⟩
    have hgn : g ∉ A₁ := by
      have := (nodup_append.1 hnAB).1
      exact fun h => disjoint_of_nodup_append this h (mem_cons_self ..)
    change insertBefore r g (A₁ ++ g :: A₂ ++ B) = _
    rw [append_assoc, cons_append, insertBefore_append hgn, append_assoc]
    rfl

/-! ## The pass -/

/-- One step of the pass. The part before the pointer stays sorted; either the pointer comes
nearer to the end, or a member was moved over smaller ones. -/
theorem sortOne_step (hn : (A ++ r :: B).Nodup) (hA : Sorted key A) :
    ∃ A' B', sortOne key r (A ++ r :: B) = A' ++ B' ∧ B'.head? = B.head? ∧
      (A' ++ B').Perm (A ++ r :: B) ∧ Sorted key A' ∧
      (Distinct key (A ++ r :: B) →
        inversions key (A' ++ B') ≤ inversions key (A ++ r :: B) ∧ B'.length < B.length + 1 ∨
        inversions key (A' ++ B') < inversions key (A ++ r :: B)) := by
  rcases sortOne_cases key hn with
    ⟨A₁, g, A₂, rfl, hA₁, hg, he⟩ | ⟨hAr, ⟨B₁, g, B₂, rfl, hB₁, hg, he⟩ | ⟨-, he⟩⟩
  · have hperm : ∀ B, (r :: (g :: A₂ ++ B)).Perm (g :: A₂ ++ r :: B) := fun _ =>
      perm_middle.symm
    refine ⟨A₁ ++ r :: g :: A₂, B, he, rfl, ?_, sorted_insert hA hA₁ hg,
      fun _ => .inl ⟨?_, by omega⟩⟩
    · rw [append_assoc, append_assoc]
      exact (hperm B).append_left A₁
    · have hback := inversions_back key (B := B) (g :: A₂) (forall_mem_cons.2
        ⟨hg.le, fun y hy => hg.le.trans ((pairwise_cons.1 (pairwise_append.1 hA).2.1).1 y hy)⟩)
      have hmove := inversions_append key (hperm B) A₁
      simp only [append_assoc, cons_append] at hback hmove ⊢
      omega
  · cases B₁ with
    | nil =>
      exact ⟨A ++ [r], g :: B₂, by simpa using he, rfl, by simp, sorted_concat hA hAr,
        fun _ => .inl ⟨by simp, lt_succ_self _⟩⟩
    | cons b B₁ =>
      have hp : ((b :: B₁) ++ r :: g :: B₂).Perm (r :: (b :: B₁ ++ g :: B₂)) := perm_middle
      refine ⟨A, (b :: B₁) ++ r :: g :: B₂, he, rfl, hp.append_left A, hA, fun hd => .inr ?_⟩
      have hlt : ∀ y ∈ b :: B₁, key y < key r := by
        intro y hy
        have hd := (pairwise_cons.1 (pairwise_append.1 hd).2.1).1 y (mem_append_left _ hy)
        have := hB₁ y hy
        omega
      have hforward := inversions_forward key (B := g :: B₂) (b :: B₁) hlt
      have hmove := inversions_append key hp A
      rw [length_cons] at hforward
      omega
  · exact ⟨A ++ [r], B, by simp [he], rfl, by simp, sorted_concat hA hAr,
      fun _ => .inl ⟨by simp, lt_succ_self _⟩⟩

theorem sortFrom_cons (hn : (A ++ r :: B).Nodup) : sortFrom key (n + 1) (r :: B).head? (A ++ r :: B) =
    sortFrom key n B.head? (sortOne key r (A ++ r :: B)) := by
  have hr : r ∉ A := fun hr => disjoint_of_nodup_append hn hr (mem_cons_self ..)
  exact congrArg (sortFrom key n · _) (after_append hr)

theorem sortFrom_some {l' : List α} (hn : (A ++ B).Nodup) (hA : Sorted key A)
    (h : sortFrom key n B.head? (A ++ B) = some l') : l'.Perm (A ++ B) ∧ Sorted key l' := by
  induction n generalizing A B with
  | zero => cases h
  | succ n ih =>
    cases B with
    | nil =>
      cases h
      rw [append_nil]
      exact ⟨List.Perm.refl _, hA⟩
    | cons r B =>
      obtain ⟨A', B', he, hhead, hp, hA', -⟩ := sortOne_step hn hA
      rw [sortFrom_cons hn, he, ← hhead] at h
      obtain ⟨h1, h2⟩ := ih (hp.nodup_iff.2 hn) hA' h
      exact ⟨h1.trans hp, h2⟩

theorem sortFrom_total (hn : (A ++ B).Nodup) (hA : Sorted key A) (hd : Distinct key (A ++ B))
    (hfuel : inversions key (A ++ B) * ((A ++ B).length + 1) + B.length < n) :
    ∃ l', sortFrom key n B.head? (A ++ B) = some l' := by
  induction n generalizing A B with
  | zero => omega
  | succ n ih =>
    cases B with
    | nil => exact ⟨A ++ [], rfl⟩
    | cons r B =>
      obtain ⟨A', B', he, hhead, hp, hA', hless⟩ := sortOne_step hn hA
      rw [sortFrom_cons hn, he, ← hhead]
      refine ih (hp.nodup_iff.2 hn) hA' (hd.perm hp) ?_
      rw [hp.length_eq]
      have hlen : B'.length ≤ (A ++ r :: B).length := by
        rw [← hp.length_eq, length_append]
        exact le_add_left _ _
      rw [length_cons] at hfuel
      rcases hless hd with ⟨h1, h2⟩ | h1
      · have := mul_le_mul_right ((A ++ r :: B).length + 1) h1
        omega
      · have := mul_le_mul_right ((A ++ r :: B).length + 1) h1
        rw [succ_mul] at this
        omega

/-- **A pass that ends has sorted the list.** -/
theorem sort_some {l' : List α} (hn : l.Nodup) (h : sort key l = some l') :
    l'.Perm l ∧ Sorted key l' :=
  sortFrom_some (A := []) hn List.Pairwise.nil h

/-- **With distinct keys the pass ends.** -/
theorem sort_total (hn : l.Nodup) (hd : Distinct key l) : ∃ l', sort key l = some l' := by
  refine sortFrom_total (A := []) hn List.Pairwise.nil hd ?_
  have := inversions_le key l
  rw [nil_append]
  nlinarith

theorem sort_eq (hn : m.Nodup) (hm : m.Pairwise fun a b => key a < key b)
    (hp : l.Perm m) : sort key l = some m := by
  have hd : Distinct key m := hm.imp fun h => ne_of_lt h
  obtain ⟨l', hl'⟩ := sort_total (hp.nodup_iff.2 hn) (hd.perm hp)
  obtain ⟨hperm, hs⟩ := sort_some (hp.nodup_iff.2 hn) hl'
  rw [hl', Option.some.injEq]
  refine List.Perm.eq_of_pairwise (fun a b ha hb h1 h2 => ?_) hs (hm.imp fun h => le_of_lt h)
    (hperm.trans hp)
  by_contra hne
  have ha := hp.mem_iff.1 (hperm.mem_iff.1 ha)
  have : Std.Symm fun a b => key a ≠ key b := ⟨fun _ _ h => h.symm⟩
  exact List.Pairwise.forall hd ha hb hne (le_antisymm h1 h2)

end ZzzOs.Lib.ScanSort
