import Mathlib.Data.List.Basic
import Mathlib.Data.List.TakeWhile
import Mathlib.Logic.Relation

/-!
# Records that tile a range

A record begins at each of the offsets `os`, and `len o` is the length that the record at `o` says
it has. `Tiles len a b os` says that the records lie one behind the other from `a` to `b`. A record
can be merged with the one before it, or split; and a loop that goes from record to record visits
`os` in order (`scan_tiles`).
-/

namespace ZzzOs.Lib

open Nat List Relation

def Tiles (len : Nat → Nat) : Nat → Nat → List Nat → Prop
  | a, b, [] => a = b
  | a, b, o :: os => o = a ∧ 0 < len a ∧ Tiles len (a + len a) b os

namespace Tiles

variable {len len' : Nat → Nat} {a b c o p r : Nat} {os l₁ l₂ : List Nat}

theorem append (h₁ : Tiles len a b l₁) (h₂ : Tiles len b c l₂) : Tiles len a c (l₁ ++ l₂) := by
  induction l₁ generalizing a with
  | nil =>
    obtain rfl : a = b := h₁
    exact h₂
  | cons o l₁ ih =>
    obtain ⟨ho, hpos, hrest⟩ := h₁
    exact ⟨ho, hpos, ih hrest⟩

theorem of_append (h : Tiles len a c (l₁ ++ l₂)) : ∃ b, Tiles len a b l₁ ∧ Tiles len b c l₂ := by
  induction l₁ generalizing a with
  | nil => exact ⟨a, rfl, h⟩
  | cons o l₁ ih =>
    obtain ⟨ho, hpos, hrest⟩ := h
    obtain ⟨b, h₁, h₂⟩ := ih hrest
    exact ⟨b, ⟨ho, hpos, h₁⟩, h₂⟩

theorem of_append_cons (h : Tiles len a c (l₁ ++ o :: l₂)) :
    Tiles len a o l₁ ∧ 0 < len o ∧ Tiles len (o + len o) c l₂ := by
  obtain ⟨b, h₁, rfl, hpos, h₂⟩ := h.of_append
  exact ⟨h₁, hpos, h₂⟩

section

variable (h : Tiles len a b os)

include h

theorem le : a ≤ b := by
  induction os generalizing a with
  | nil => exact le_of_eq h
  | cons o os ih => exact le_trans (le_add_right _ _) (ih h.2.2)

theorem bounds (ho : o ∈ os) : a ≤ o ∧ 0 < len o ∧ o + len o ≤ b := by
  obtain ⟨l₁, l₂, rfl⟩ := append_of_mem ho
  obtain ⟨h₁, hpos, h₂⟩ := h.of_append_cons
  exact ⟨h₁.le, hpos, h₂.le⟩

theorem length_le : a + os.length ≤ b := by
  induction os generalizing a with
  | nil => exact le_of_eq h
  | cons o os ih =>
    have hrest := ih h.2.2
    have hpos := h.2.1
    rw [length_cons]
    omega

theorem congr (hlen : ∀ o ∈ os, len' o = len o) : Tiles len' a b os := by
  induction os generalizing a with
  | nil => exact h
  | cons o os ih =>
    obtain ⟨rfl, hpos, hrest⟩ := h
    rw [Tiles, hlen o mem_cons_self]
    exact ⟨rfl, hpos, ih hrest fun p hp => hlen p (mem_cons_of_mem o hp)⟩

end

theorem unique (h : Tiles len a b l₁) (h' : Tiles len a b l₂) : l₁ = l₂ := by
  induction l₁ generalizing a l₂ with
  | nil =>
    cases l₂ with
    | nil => rfl
    | cons o l₂ =>
      have hle := h'.2.2.le
      have hpos := h'.2.1
      have heq : a = b := h
      omega
  | cons o l₁ ih =>
    obtain ⟨rfl, hpos, hrest⟩ := h
    cases l₂ with
    | nil =>
      have hle := hrest.le
      have heq : o = b := h'
      omega
    | cons o' l₂ =>
      obtain ⟨rfl, -, hrest'⟩ := h'
      rw [ih hrest hrest']

theorem disjoint (h : Tiles len a b os) (ho : o ∈ os) (hp : p ∈ os) (hne : o ≠ p) :
    o + len o ≤ p ∨ p + len p ≤ o := by
  induction os generalizing a with
  | nil => cases ho
  | cons q os ih =>
    obtain ⟨rfl, hpos, hrest⟩ := h
    rcases mem_cons.1 ho with rfl | ho'
    · have hp' := (mem_cons.1 hp).resolve_left (Ne.symm hne)
      exact .inl (hrest.bounds hp').1
    · rcases mem_cons.1 hp with rfl | hp'
      · exact .inr (hrest.bounds ho').1
      · exact ih hrest ho' hp'

theorem nodup (h : Tiles len a b os) : os.Nodup := by
  induction os generalizing a with
  | nil => exact nodup_nil
  | cons o os ih =>
    obtain ⟨rfl, hpos, hrest⟩ := h
    refine nodup_cons.2 ⟨fun hmem => ?_, ih hrest⟩
    have hle := (hrest.bounds hmem).1
    omega

theorem merge (h : Tiles len a b (l₁ ++ p :: o :: l₂)) (hp : len' p = len p + len o)
    (hlen : ∀ q ∈ l₁ ++ l₂, len' q = len q) : Tiles len' a b (l₁ ++ p :: l₂) := by
  obtain ⟨h₁, hpos, hmid⟩ := h.of_append_cons
  obtain ⟨rfl, -, h₂⟩ := hmid
  refine (h₁.congr fun q hq => hlen q (mem_append_left _ hq)).append ⟨rfl, by omega, ?_⟩
  rw [hp, ← Nat.add_assoc]
  exact h₂.congr fun q hq => hlen q (mem_append_right _ hq)

theorem split (h : Tiles len a b (l₁ ++ p :: l₂)) (hr : 0 < r) (hlt : r < len p) (hp : len' p = r)
    (hnew : len' (p + r) = len p - r) (hlen : ∀ q ∈ l₁ ++ l₂, len' q = len q) :
    Tiles len' a b (l₁ ++ p :: (p + r) :: l₂) := by
  obtain ⟨h₁, -, h₂⟩ := h.of_append_cons
  have hrest : Tiles len' (p + r) b ((p + r) :: l₂) := by
    refine ⟨rfl, by omega, ?_⟩
    rw [hnew, Nat.add_assoc, Nat.add_sub_cancel' (Nat.le_of_lt hlt)]
    exact h₂.congr fun q hq => hlen q (mem_append_right _ hq)
  refine (h₁.congr fun q hq => hlen q (mem_append_left _ hq)).append ⟨rfl, by omega, ?_⟩
  rw [hp]
  exact hrest

end Tiles

/-! ## Loops over records -/

section Scan

variable {α σ : Type*}

/-- `while (more(off)) { step; off += len(off); }`, where a step can also leave the loop with a
result. `none` is a loop that has not ended within `fuel` rounds. -/
def scan (len : Nat → Nat) (more : Nat → Bool) (step : σ → Nat → Except α σ) :
    Nat → σ → Nat → Option (Except α σ)
  | 0, _, _ => none
  | fuel + 1, s, off =>
    if more off then
      match step s off with
      | .error r => some (.error r)
      | .ok s => scan len more step fuel s (off + len off)
    else some (.ok s)

/-- The steps of a loop, on the offsets it comes to. -/
def visit (step : σ → Nat → Except α σ) : σ → List Nat → Except α σ
  | s, [] => .ok s
  | s, o :: os =>
    match step s o with
    | .error r => .error r
    | .ok s => visit step s os

variable {len : Nat → Nat} {more P : Nat → Bool} {step step' : σ → Nat → Except α σ}
  {a b fuel : Nat} {os : List Nat} {s : σ}

theorem scan_tiles (h : Tiles len a b os) (hend : more b = false) (hfuel : os.length < fuel)
    (s : σ) : scan len more step fuel s a = some (visit step s (os.takeWhile more)) := by
  induction os generalizing a s fuel with
  | nil =>
    obtain rfl : a = b := h
    obtain ⟨fuel, rfl⟩ := exists_eq_succ_of_ne_zero (ne_of_gt hfuel)
    rw [scan, hend]
    rfl
  | cons o os ih =>
    obtain ⟨rfl, -, hrest⟩ := h
    obtain ⟨fuel, rfl⟩ := exists_eq_succ_of_ne_zero (ne_of_gt (zero_lt_of_lt hfuel))
    rw [scan]
    split <;> rename_i hm
    · rw [takeWhile_cons_of_pos hm, visit]
      cases step s o with
      | error r => rfl
      | ok s => exact ih hrest (lt_of_succ_lt_succ hfuel) s
    · rw [takeWhile_cons_of_neg hm]
      rfl

theorem visit_append (s : σ) (l₁ l₂ : List Nat) : visit step s (l₁ ++ l₂) =
    match visit step s l₁ with
    | .error r => .error r
    | .ok s => visit step s l₂ := by
  induction l₁ generalizing s with
  | nil => rfl
  | cons o l₁ ih =>
    rw [cons_append, visit, visit]
    cases step s o with
    | error r => rfl
    | ok s => exact ih s

theorem visit_congr (h : ∀ o ∈ os, ∀ s, step s o = step' s o) :
    visit step s os = visit step' s os := by
  induction os generalizing s with
  | nil => rfl
  | cons o os ih =>
    rw [visit, visit, h o mem_cons_self]
    cases step' s o with
    | error r => rfl
    | ok s => exact ih fun q hq => h q (mem_cons_of_mem o hq)

theorem visit_error {r : α} (h : visit step s os = .error r) :
    ∃ o ∈ os, ∃ s, step s o = .error r := by
  induction os generalizing s with
  | nil => cases h
  | cons o os ih =>
    rw [visit] at h
    cases hstep : step s o with
    | error r' =>
      rw [hstep] at h
      exact ⟨o, mem_cons_self, s, hstep.trans h⟩
    | ok s' =>
      rw [hstep] at h
      obtain ⟨q, hq, hrest⟩ := ih h
      exact ⟨q, mem_cons_of_mem o hq, hrest⟩

theorem visit_ok {f : σ → Nat → σ} (h : ∀ o ∈ os, ∀ s, step s o = .ok (f s o)) (s : σ) :
    visit step s os = .ok (os.foldl f s) := by
  induction os generalizing s with
  | nil => rfl
  | cons o os ih =>
    rw [visit, h o mem_cons_self s]
    exact ih (fun q hq => h q (mem_cons_of_mem o hq)) (f s o)

theorem visit_find (r : Nat → α) :
    visit (fun (_ : Unit) o => if P o then .error (r o) else .ok ()) () os =
      match os.find? P with
      | some o => .error (r o)
      | none => .ok () := by
  induction os with
  | nil => rfl
  | cons o os ih =>
    rw [visit]
    by_cases ho : P o = true
    · rw [if_pos ho, List.find?_cons_of_pos ho]
    · rw [if_neg ho, List.find?_cons_of_neg ho]
      exact ih

end Scan

/-! ## Loops over arbitrary bytes -/

section Reach

def Next (len : Nat → Nat) (more goes : Nat → Bool) (x y : Nat) : Prop :=
  more x = true ∧ goes x = true ∧ y = x + len x

variable {len : Nat → Nat} {more goes : Nat → Bool} {a b o o' x y z fuel N : Nat}

theorem Next.right_unique (h₁ : Next len more goes x y) (h₂ : Next len more goes x z) : y = z :=
  h₁.2.2.trans h₂.2.2.symm

/-- A place the loop does not go on from. -/
def Final (len : Nat → Nat) (more goes : Nat → Bool) (o : Nat) : Prop :=
  more o = true → goes o = true → len o = 0

theorem Final.eq_of_reaches (h : Final len more goes o)
    (hr : ReflTransGen (Next len more goes) o o') : o' = o := by
  induction hr with
  | refl => rfl
  | tail _ hnext ih =>
    subst ih
    obtain ⟨hm, hg, rfl⟩ := hnext
    rw [h hm hg, Nat.add_zero]

theorem Final.unique (h : Final len more goes o) (h' : Final len more goes o')
    (hr : ReflTransGen (Next len more goes) a o)
    (hr' : ReflTransGen (Next len more goes) a o') : o = o' := by
  have hdet : Relator.RightUnique (Next len more goes) := fun _ _ _ h₁ h₂ => h₁.right_unique h₂
  rcases ReflTransGen.total_of_right_unique hdet hr hr' with hto | hto
  · exact (h.eq_of_reaches hto).symm
  · exact h'.eq_of_reaches hto

variable {α σ : Type*} {step : σ → Nat → Except α σ}

theorem scan_stuck (hgoes : ∀ s, ∃ s', step s a = .ok s') (hm : more a = true) (hlen : len a = 0)
    (s : σ) : scan len more step fuel s a = none := by
  induction fuel generalizing s with
  | zero => rfl
  | succ fuel ih =>
    obtain ⟨s', hs'⟩ := hgoes s
    rw [scan, if_pos hm, hs', hlen]
    exact ih s'

/-- How a loop ends whose steps go on at the places `goes` says: it stays at a record of length 0, it
comes to its end, or a step leaves it. -/
theorem scan_cases (hok : ∀ s o, goes o = true → ∃ s', step s o = .ok s')
    (herr : ∀ s o, goes o = false → ∃ r, step s o = .error r) (hN : ∀ o, more o = true → o < N)
    (hfuel : N - a < fuel) (s : σ) (len : Nat → Nat) :
    (scan len more step fuel s a = none ∧ ∃ o, ReflTransGen (Next len more goes) a o ∧
      more o = true ∧ goes o = true ∧ len o = 0) ∨
    (∃ s', scan len more step fuel s a = some (.ok s') ∧
      ∃ o, ReflTransGen (Next len more goes) a o ∧ more o = false) ∨
    ∃ s' o r, scan len more step fuel s a = some (.error r) ∧
      ReflTransGen (Next len more goes) a o ∧ more o = true ∧ goes o = false ∧
      step s' o = .error r := by
  induction fuel generalizing a s with
  | zero => exact absurd hfuel (not_lt_zero _)
  | succ fuel ih =>
    cases hm : more a with
    | false =>
      refine .inr (.inl ⟨s, ?_, a, .refl, hm⟩)
      rw [scan, hm]
      rfl
    | true =>
      cases hg : goes a with
      | false =>
        obtain ⟨r, hr⟩ := herr s a hg
        refine .inr (.inr ⟨s, a, r, ?_, .refl, hm, hg, hr⟩)
        rw [scan, if_pos hm, hr]
      | true =>
        rcases Nat.eq_zero_or_pos (len a) with hlen | hlen
        · exact .inl ⟨scan_stuck (fun s => hok s a hg) hm hlen s, a, .refl, hm, hg, hlen⟩
        · obtain ⟨s', hs'⟩ := hok s a hg
          have hlt := hN a hm
          have heq : scan len more step (fuel + 1) s a = scan len more step fuel s' (a + len a) := by
            rw [scan, if_pos hm, hs']
          have hnext : Next len more goes a (a + len a) := ⟨hm, hg, rfl⟩
          rw [heq]
          rcases ih (by omega : N - (a + len a) < fuel) s' with
            ⟨h, o, hr, hrest⟩ | ⟨s', h, o, hr, hrest⟩ | ⟨s', o, r, h, hr, hrest⟩
          · exact .inl ⟨h, o, hr.head hnext, hrest⟩
          · exact .inr (.inl ⟨s', h, o, hr.head hnext, hrest⟩)
          · exact .inr (.inr ⟨s', o, r, h, hr.head hnext, hrest⟩)

end Reach

end ZzzOs.Lib
