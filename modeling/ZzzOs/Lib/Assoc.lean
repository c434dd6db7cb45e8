import Mathlib.Data.List.Nodup
import Mathlib.Logic.Function.Basic

/-!
# Lists of keys and values as finite maps

A list with one entry for each of its keys is a finite map, and `List.lookup` reads it. The order of
the entries does not matter; an entry more or less is an update of the map.
-/

namespace ZzzOs.Lib

open List Function

variable {α β : Type} [BEq α] [LawfulBEq α] {l l' : List (α × β)} {a : α} {b : β}

theorem lookup_eq_some (hn : (l.map Prod.fst).Nodup) : l.lookup a = some b ↔ (a, b) ∈ l := by
  induction l with
  | nil => simp
  | cons e l ih =>
    obtain ⟨k, v⟩ := e
    rw [map_cons, nodup_cons] at hn
    by_cases hak : a = k
    · subst hak
      have hnot : (a, b) ∉ l := fun hmem => hn.1 (mem_map.2 ⟨(a, b), hmem, rfl⟩)
      simp [hnot, eq_comm]
    · rw [lookup_cons, beq_eq_false_iff_ne.2 hak]
      simp [ih hn.2, hak]

theorem lookup_eq_none : l.lookup a = none ↔ a ∉ l.map Prod.fst := by
  simp only [lookup_eq_none_iff, mem_map]
  grind

theorem lookup_perm (hn : (l.map Prod.fst).Nodup) (hp : l.Perm l') : l.lookup a = l'.lookup a := by
  refine Option.ext fun b => ?_
  rw [lookup_eq_some hn, lookup_eq_some ((hp.map Prod.fst).nodup_iff.1 hn), hp.mem_iff]

variable [DecidableEq α]

theorem lookup_cons_eq : (fun x => ((a, b) :: l).lookup x) =
    update (fun x => l.lookup x) a (some b) := by
  funext x
  by_cases hxa : x = a
  · subst hxa
    simp
  · rw [update_of_ne hxa, lookup_cons, beq_eq_false_iff_ne.2 hxa]

theorem lookup_insert (hn : (l.map Prod.fst).Nodup) (ha : a ∉ l.map Prod.fst)
    (hp : l'.Perm ((a, b) :: l)) :
    (fun x => l'.lookup x) = update (fun x => l.lookup x) a (some b) := by
  have hn' : (((a, b) :: l).map Prod.fst).Nodup := nodup_cons.2 ⟨ha, hn⟩
  rw [← lookup_cons_eq]
  exact funext fun x => (lookup_perm hn' hp.symm).symm

theorem lookup_erase (hn : (l.map Prod.fst).Nodup) (hp : l.Perm ((a, b) :: l')) :
    (fun x => l'.lookup x) = update (fun x => l.lookup x) a none := by
  have hn' := nodup_cons.1 ((hp.map Prod.fst).nodup_iff.1 hn)
  have hold : (fun x => l.lookup x) = update (fun x => l'.lookup x) a (some b) := by
    rw [← lookup_cons_eq]
    exact funext fun x => lookup_perm hn hp
  rw [hold, update_idem]
  have hnone : l'.lookup a = none := lookup_eq_none.2 hn'.1
  rw [← hnone]
  exact (update_eq_self a fun x => l'.lookup x).symm

end ZzzOs.Lib
