import Mathlib.Data.List.Pairwise
import Mathlib.Data.List.Nodup
import Mathlib.Data.List.Perm.Basic

/-!
# Trees of blocks that hold pointers

A block at height `h + 1` holds `n` pointers to blocks at height `h`; pointer 0 leads nowhere.
`nodes` lists the blocks of a tree, `inner` those that hold pointers, and `find` follows a path.

What is not a block of the tree may change (`nodes_congr`). A new block below an empty pointer adds
one block and one path, if no block stands at two places (`nodes_graft`, `find_graft`).
-/

namespace ZzzOs.Lib

open Nat List

/-! ## Lists of lists -/

section FlatMap

variable {α β : Type*} {l : List α} {f f' : α → List β} {i j : α} {c : β}

theorem disjoint_of_nodup_flatMap (h : (l.flatMap f).Nodup) (hi : i ∈ l) (hj : j ∈ l)
    (hij : i ≠ j) : List.Disjoint (f i) (f j) := by
  have : Std.Symm (Function.onFun List.Disjoint f) := ⟨fun _ _ hd _ hx hy => hd hy hx⟩
  exact (nodup_flatMap.1 h).2.forall hi hj hij

theorem nodup_of_nodup_flatMap (h : (l.flatMap f).Nodup) (hi : i ∈ l) : (f i).Nodup :=
  (nodup_flatMap.1 h).1 i hi

section

variable (hl : l.Nodup) (hi : i ∈ l) (hsame : ∀ j ∈ l, j ≠ i → f' j = f j)

include hl hi hsame

theorem flatMap_perm_append {cs : List β} (hone : (f' i).Perm (cs ++ f i)) :
    (l.flatMap f').Perm (cs ++ l.flatMap f) := by
  induction l with
  | nil => cases hi
  | cons a l ih =>
    obtain ⟨ha, hl⟩ := nodup_cons.1 hl
    rw [flatMap_cons, flatMap_cons]
    by_cases hai : i = a
    · subst hai
      have hrest : l.flatMap f' = l.flatMap f := flatMap_congr fun j hj =>
        hsame j (mem_cons_of_mem i hj) fun he => ha (he ▸ hj)
      rw [hrest, ← append_assoc]
      exact hone.append_right (l.flatMap f)
    · have hrest := ih hl ((mem_cons.1 hi).resolve_left hai) fun j hj =>
        hsame j (mem_cons_of_mem a hj)
      rw [hsame a mem_cons_self (Ne.symm hai)]
      exact (hrest.append_left (f a)).trans (perm_append_comm_assoc _ _ _)

theorem flatMap_perm_cons
    (hone : (f' i).Perm (c :: f i)) : (l.flatMap f').Perm (c :: l.flatMap f) :=
  show (l.flatMap f').Perm ([c] ++ l.flatMap f) from flatMap_perm_append hl hi hsame hone

end

end FlatMap

namespace PtrTree

variable (n : Nat) (ptr : Nat → Nat → Nat)

/-- The blocks of the tree of height `h` at `b`. -/
def nodes : Nat → Nat → List Nat
  | 0, b => if b = 0 then [] else [b]
  | h + 1, b => if b = 0 then [] else b :: (List.range n).flatMap fun i => nodes h (ptr b i)

/-- The blocks of the tree that hold pointers. -/
def inner : Nat → Nat → List Nat
  | 0, _ => []
  | h + 1, b => if b = 0 then [] else b :: (List.range n).flatMap fun i => inner h (ptr b i)

/-- The block at the end of a path, or 0. -/
def find : List Nat → Nat → Nat
  | [], b => b
  | i :: p, b => if b = 0 then 0 else find p (ptr b i)

variable {n ptr} {ptr' : Nat → Nat → Nat} {h a b c i j k : Nat} {p q : List Nat}

theorem nodes_zero : ∀ h, nodes n ptr h 0 = []
  | 0 => rfl
  | _ + 1 => rfl

theorem inner_zero : ∀ h, inner n ptr h 0 = []
  | 0 => rfl
  | _ + 1 => rfl

theorem nodes_succ (hb : b ≠ 0) : nodes n ptr (h + 1) b =
    b :: (List.range n).flatMap fun i => nodes n ptr h (ptr b i) := if_neg hb

theorem inner_succ (hb : b ≠ 0) : inner n ptr (h + 1) b =
    b :: (List.range n).flatMap fun i => inner n ptr h (ptr b i) := if_neg hb

theorem mem_nodes_self (hb : b ≠ 0) : ∀ h, b ∈ nodes n ptr h b
  | 0 => by rw [nodes, if_neg hb]; exact mem_singleton_self b
  | h + 1 => by rw [nodes_succ hb]; exact mem_cons_self

theorem find_zero : ∀ p, find ptr p 0 = 0
  | [] => rfl
  | _ :: _ => rfl

theorem find_cons (hb : b ≠ 0) : find ptr (i :: p) b = find ptr p (ptr b i) := if_neg hb

theorem find_append (p q : List Nat) (b : Nat) :
    find ptr (p ++ q) b = find ptr q (find ptr p b) := by
  induction p generalizing b with
  | nil => rfl
  | cons i p ih =>
    rw [cons_append]
    by_cases hb : b = 0
    · rw [hb, find_zero, find_zero, find_zero]
    · rw [find_cons hb, find_cons hb, ih]

theorem find_mem_nodes (hp : p.length ≤ h) (hn : ∀ i ∈ p, i < n) (ha : find ptr p b ≠ 0) :
    find ptr p b ∈ nodes n ptr h b := by
  induction p generalizing h b with
  | nil => exact mem_nodes_self ha h
  | cons i p ih =>
    obtain ⟨h, rfl⟩ := Nat.exists_eq_add_of_lt (Nat.lt_of_lt_of_le (Nat.succ_pos _) hp)
    have hb : b ≠ 0 := by
      rintro rfl
      exact ha (find_zero _)
    rw [find_cons hb] at ha ⊢
    rw [nodes_succ hb]
    refine mem_cons_of_mem b (mem_flatMap.2 ⟨i, ?_, ?_⟩)
    · exact mem_range.2 (hn i mem_cons_self)
    · exact ih (Nat.le_of_succ_le_succ hp) (fun j hj => hn j (mem_cons_of_mem i hj)) ha

/-- The blocks that hold pointers are the ends of the paths shorter than the height. -/
theorem mem_inner_iff : a ∈ inner n ptr h b ↔
    ∃ p, p.length < h ∧ (∀ i ∈ p, i < n) ∧ find ptr p b = a ∧ a ≠ 0 := by
  induction h generalizing b with
  | zero => exact ⟨nofun, fun ⟨p, hp, _⟩ => absurd hp (not_lt_zero _)⟩
  | succ h ih =>
    by_cases hb : b = 0
    · subst hb
      refine ⟨nofun, fun ⟨p, _, _, hf, ha⟩ => ?_⟩
      rw [find_zero] at hf
      exact absurd hf.symm ha
    rw [inner_succ hb, mem_cons, mem_flatMap]
    constructor
    · rintro (rfl | ⟨i, hi, ha⟩)
      · exact ⟨[], succ_pos h, nofun, rfl, hb⟩
      · obtain ⟨p, hp, hn, hf, ha⟩ := ih.1 ha
        exact ⟨i :: p, succ_lt_succ hp, forall_mem_cons.2 ⟨mem_range.1 hi, hn⟩,
          by rw [find_cons hb, hf], ha⟩
    · rintro ⟨p, hp, hn, hf, ha⟩
      cases p with
      | nil => exact .inl hf.symm
      | cons i p =>
        rw [find_cons hb] at hf
        refine .inr ⟨i, mem_range.2 (hn i mem_cons_self), ih.2 ⟨p, ?_, ?_, hf, ha⟩⟩
        · exact lt_of_succ_lt_succ hp
        · exact fun j hj => hn j (mem_cons_of_mem i hj)

theorem find_mem_inner (hp : p.length < h) (hn : ∀ i ∈ p, i < n) (ha : find ptr p b ≠ 0) :
    find ptr p b ∈ inner n ptr h b := mem_inner_iff.2 ⟨p, hp, hn, rfl, ha⟩

theorem inner_subset_nodes : inner n ptr h b ⊆ nodes n ptr h b := by
  intro a ha
  obtain ⟨p, hp, hn, rfl, ha⟩ := mem_inner_iff.1 ha
  exact find_mem_nodes (Nat.le_of_lt hp) hn ha

/-! ## Changes outside the tree -/

section Congr

variable (hptr : ∀ a ∈ inner n ptr h b, ∀ i < n, ptr' a i = ptr a i)

include hptr in
theorem nodes_congr : nodes n ptr' h b = nodes n ptr h b := by
  induction h generalizing b with
  | zero => rfl
  | succ h ih =>
    by_cases hb : b = 0
    · rw [hb, nodes_zero, nodes_zero]
    · rw [inner_succ hb] at hptr
      rw [nodes_succ hb, nodes_succ hb]
      refine congrArg (b :: ·) (flatMap_congr fun i hi => ?_)
      rw [hptr b mem_cons_self i (mem_range.1 hi)]
      exact ih fun a ha => hptr a (mem_cons_of_mem b (mem_flatMap.2 ⟨i, hi, ha⟩))

include hptr in
theorem find_congr (hp : p.length ≤ h) (hn : ∀ i ∈ p, i < n) : find ptr' p b = find ptr p b := by
  induction p generalizing h b with
  | nil => rfl
  | cons i p ih =>
    obtain ⟨h, rfl⟩ := Nat.exists_eq_add_of_lt (Nat.lt_of_lt_of_le (Nat.succ_pos _) hp)
    by_cases hb : b = 0
    · rw [hb, find_zero, find_zero]
    · have hi := hn i mem_cons_self
      rw [inner_succ hb] at hptr
      rw [find_cons hb, find_cons hb, hptr b mem_cons_self i hi]
      refine ih (fun a ha => hptr a ?_) (Nat.le_of_succ_le_succ hp) fun j hj =>
        hn j (mem_cons_of_mem i hj)
      exact mem_cons_of_mem b (mem_flatMap.2 ⟨i, mem_range.2 hi, ha⟩)

include hptr in
theorem inner_congr (ha : a ∈ inner n ptr h b) : a ∈ inner n ptr' h b := by
  obtain ⟨p, hp, hn, hf, ha⟩ := mem_inner_iff.1 ha
  exact mem_inner_iff.2 ⟨p, hp, hn, by rw [find_congr hptr (Nat.le_of_lt hp) hn, hf], ha⟩

end Congr

/-! ## A new block -/

theorem nodes_leaf (hc : c ≠ 0) (hzero : ∀ i < n, ptr c i = 0) : ∀ h, nodes n ptr h c = [c]
  | 0 => if_neg hc
  | h + 1 => by
    rw [nodes_succ hc]
    refine congrArg (c :: ·) (flatMap_eq_nil_iff.2 fun i hi => ?_)
    rw [hzero i (mem_range.1 hi), nodes_zero]

section Graft

/-- The tree at a pointer of `b` does not hold `b`, nor a block of a tree at another pointer. -/
theorem nodup_children (hb : b ≠ 0) (hnodup : (nodes n ptr (h + 1) b).Nodup) :
    (∀ j < n, b ∉ nodes n ptr h (ptr b j)) ∧ (∀ j < n, (nodes n ptr h (ptr b j)).Nodup) ∧
      ∀ j < n, ∀ j' < n, j ≠ j' →
        List.Disjoint (nodes n ptr h (ptr b j)) (nodes n ptr h (ptr b j')) := by
  rw [nodes_succ hb] at hnodup
  obtain ⟨hnot, hrest⟩ := nodup_cons.1 hnodup
  refine ⟨fun j hj hmem => ?_, fun j hj => ?_, fun j hj j' hj' hne => ?_⟩
  · exact hnot (mem_flatMap.2 ⟨j, mem_range.2 hj, hmem⟩)
  · exact nodup_of_nodup_flatMap (i := j) hrest (mem_range.2 hj)
  · exact disjoint_of_nodup_flatMap (i := j) hrest (mem_range.2 hj) (mem_range.2 hj') hne

/-- Of the pointers of `b` and the trees there, only those at `k` may have changed. -/
def OnlyAt (n : Nat) (ptr ptr' : Nat → Nat → Nat) (h b k : Nat) : Prop :=
  ∀ j < n, j ≠ k → ptr' b j = ptr b j ∧
    ∀ a ∈ inner n ptr h (ptr b j), ∀ l < n, ptr' a l = ptr a l

/-- The new block `c` is at the end of a path of the tree at `b`, and the rest is as it was. -/
inductive Grafted (n : Nat) (ptr ptr' : Nat → Nat → Nat) (c : Nat) : List Nat → Nat → Nat → Prop
  | here {h b i : Nat} (hb : b ≠ 0) (hi : i < n) (hold : ptr b i = 0) (hnew : ptr' b i = c)
      (hout : OnlyAt n ptr ptr' h b i) : Grafted n ptr ptr' c [i] (h + 1) b
  | child {h b k : Nat} {p : List Nat} (hb : b ≠ 0) (hk : k < n) (hsame : ptr' b k = ptr b k)
      (hout : OnlyAt n ptr ptr' h b k) (hg : Grafted n ptr ptr' c p h (ptr b k)) :
      Grafted n ptr ptr' c (k :: p) (h + 1) b

/-- One store of `c` into an empty pointer, in a tree where no block occurs twice. -/
theorem grafted (hnodup : (nodes n ptr h b).Nodup) (hp : p.length < h) (hn : ∀ j ∈ p, j < n)
    (ha : find ptr p b ≠ 0) (hi : i < n) (hempty : ptr (find ptr p b) i = 0)
    (hnew : ptr' (find ptr p b) i = c) (hother : ∀ a ∈ inner n ptr h b, ∀ j < n,
      ¬ (a = find ptr p b ∧ j = i) → ptr' a j = ptr a j) :
    Grafted n ptr ptr' c (p ++ [i]) h b := by
  induction h generalizing p b with
  | zero => cases hp
  | succ h ih =>
    have hb : b ≠ 0 := by
      rintro rfl
      exact ha (find_zero _)
    obtain ⟨hself, hchild, hdis⟩ := nodup_children hb hnodup
    rw [inner_succ hb] at hother
    have hsub : ∀ j < n, ∀ a ∈ inner n ptr h (ptr b j),
        a ∈ b :: (List.range n).flatMap fun i => inner n ptr h (ptr b i) := fun j hj a ha =>
      mem_cons_of_mem b (mem_flatMap.2 ⟨j, mem_range.2 hj, ha⟩)
    cases p with
    | nil =>
      refine .here hb hi hempty hnew fun j hj hne => ⟨?_, fun a ha l hl => ?_⟩
      · exact hother b mem_cons_self j hj fun he => hne he.2
      · refine hother a (hsub j hj a ha) l hl fun he => hself j hj ?_
        exact (congrArg (· ∈ nodes n ptr h (ptr b j)) he.1).mp (inner_subset_nodes ha)
    | cons k p =>
      rw [find_cons hb] at ha hempty hnew hother
      have hk := hn k mem_cons_self
      have hn' : ∀ j ∈ p, j < n := fun j hj => hn j (mem_cons_of_mem k hj)
      have hp' := Nat.lt_of_succ_lt_succ hp
      -- the changed block lies in the tree at pointer `k`, and nowhere else
      have hmem := find_mem_nodes (Nat.le_of_lt hp') hn' ha
      have hsame : ∀ j < n, ptr' b j = ptr b j := fun j hj =>
        hother b mem_cons_self j hj fun he => hself k hk ((congrArg (· ∈ nodes n ptr h (ptr b k)) he.1).mpr hmem)
      refine .child hb hk (hsame k hk) (fun j hj hne => ⟨hsame j hj, fun a ha' l hl => ?_⟩)
        (ih (hchild k hk) hp' hn' ha hempty hnew fun a ha' => hother a (hsub k hk a ha'))
      refine hother a (hsub j hj a ha') l hl fun he => ?_
      exact hdis j hj k hk hne (inner_subset_nodes ha') (he.1 ▸ hmem)

theorem nodes_child (hb : b ≠ 0) (hk : k < n) (hout : OnlyAt n ptr ptr' h b k)
    (hperm : (nodes n ptr' h (ptr' b k)).Perm (c :: nodes n ptr h (ptr b k))) :
    (nodes n ptr' (h + 1) b).Perm (c :: nodes n ptr (h + 1) b) := by
  rw [nodes_succ hb, nodes_succ hb]
  refine .trans (.cons b (flatMap_perm_cons nodup_range (mem_range.2 hk) (fun j hj hne => ?_) hperm))
    (.swap c b _)
  obtain ⟨he, hsame⟩ := hout j (mem_range.1 hj) hne
  rw [he]
  exact nodes_congr hsame

theorem find_leaf (hzero : ∀ j < n, ptr c j = 0) (hqn : ∀ j ∈ q, j < n) :
    find ptr q c = if q = [] then c else 0 := by
  cases q with
  | nil => rfl
  | cons j q =>
    rw [find, hzero j (hqn j mem_cons_self), find_zero, ite_self, if_neg (cons_ne_nil j q)]

theorem find_child (hb : b ≠ 0) (hout : OnlyAt n ptr ptr' h b k) (hq : q.length ≤ h)
    (hqn : ∀ l ∈ j :: q, l < n)
    (hk : find ptr' q (ptr' b k) = if q = p then c else find ptr q (ptr b k)) :
    find ptr' (j :: q) b = if j :: q = k :: p then c else find ptr (j :: q) b := by
  rw [find_cons hb, find_cons hb]
  by_cases hjk : j = k
  · rw [hjk, hk]
    exact if_congr (by simp) rfl rfl
  · obtain ⟨he, hsame⟩ := hout j (hqn j mem_cons_self) hjk
    rw [if_neg fun he => hjk (List.cons.inj he).1, he]
    exact find_congr hsame hq fun l hl => hqn l (mem_cons_of_mem j hl)

namespace Grafted

variable (hg : Grafted n ptr ptr' c p h b)

include hg

/-- The tree has one more block. -/
theorem nodes (hc : c ≠ 0) (hzero : ∀ j < n, ptr' c j = 0) :
    (nodes n ptr' h b).Perm (c :: PtrTree.nodes n ptr h b) := by
  induction hg with
  | here hb hi hold hnew hout =>
    refine nodes_child hb hi hout ?_
    rw [hnew, hold, nodes_zero, nodes_leaf hc hzero]
  | child hb hk hsame hout _ ih => exact nodes_child hb hk hout (by rw [hsame]; exact ih)

theorem find (hzero : ∀ j < n, ptr' c j = 0) (hq : q.length ≤ h) (hqn : ∀ j ∈ q, j < n) :
    find ptr' q b = if q = p then c else PtrTree.find ptr q b := by
  induction hg generalizing q with
  | here hb hi hold hnew hout =>
    cases q with
    | nil => rfl
    | cons j q =>
      refine find_child hb hout (le_of_succ_le_succ hq) hqn ?_
      rw [hnew, hold, find_zero, find_leaf hzero fun l hl => hqn l (mem_cons_of_mem j hl)]
  | child hb hk hsame hout _ ih =>
    cases q with
    | nil => rfl
    | cons j q =>
      have hq' := le_of_succ_le_succ hq
      refine find_child hb hout hq' hqn ?_
      rw [hsame, ih hq' fun l hl => hqn l (mem_cons_of_mem j hl)]

/-- The path led nowhere. -/
theorem find_old : PtrTree.find ptr p b = 0 := by
  induction hg with
  | here hb hi hold hnew hout => rw [find_cons hb, hold, find_zero]
  | child hb hk hsame hout _ ih => rw [find_cons hb, ih]

theorem inner (hzero : ∀ j < n, ptr' c j = 0) (hmem : a ∈ inner n ptr h b) :
    a ∈ PtrTree.inner n ptr' h b := by
  obtain ⟨q, hq, hqn, hf, ha0⟩ := mem_inner_iff.1 hmem
  refine mem_inner_iff.2 ⟨q, hq, hqn, ?_, ha0⟩
  rw [hg.find hzero (Nat.le_of_lt hq) hqn, if_neg, hf]
  rintro rfl
  exact ha0 (hf.symm.trans hg.find_old)

end Grafted

end Graft

end PtrTree

end ZzzOs.Lib
