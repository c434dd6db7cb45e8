import Mathlib.Data.List.Induction
import Mathlib.Data.List.Infix
import ZzzOs.Lib.Update

/-!
# Radix tables in memory

A radix table is a tree of tables in an untyped memory: level `l` of the search for a key reads
entry `index l k`, which is empty, a leaf, or the address of the table for the next level.

Every table of the tree has a place, the indices that lead to it from the root (`Placed`). A store to
entry `i` of the table at place `p` is only seen by keys whose path starts with `p ++ [i]`
(`Placed.lookup_frame`). Three changes keep the tables in place: an entry stops leading anywhere
(`Placed.cut`), it leads to a new table without children (`Placed.graft`), and memory outside the tree
changes (`Placed.forget`).
-/

namespace ZzzOs.Lib

open Function List

/-- What an entry of a table holds. -/
inductive Slot (V : Type*)
  | empty
  | leaf (v : V)
  | child (addr : Nat)

/-- The leaf, with its level, of an entry that leads to no table. -/
def Slot.found {V : Type*} (l : Nat) : Slot V → Option (Nat × V)
  | .leaf v => some (l, v)
  | _ => none

/-- The shape of a radix table: `index l k` is the entry for key `k` in a table of level `l`. -/
structure Radix (E V K : Type*) where
  depth : Nat
  index : Nat → K → Nat
  slot : Nat → E → Slot V

/-- The indices on the way from the root to each table. -/
abbrev Owner := Nat → Option (List Nat)

namespace Radix

variable {E V K : Type*} (R : Radix E V K) {e : E}

def path (k : K) (n : Nat) : List Nat := (List.range n).map (R.index · k)

/-- The search for `k` from the table at `addr`, which has level `l`, over `n` levels. -/
def find (m : Nat → Option (Nat → E)) (k : K) : Nat → Nat → Nat → Option (Nat × V)
  | 0, _, _ => none
  | n + 1, l, addr =>
    match m addr with
    | none => none
    | some t =>
      match R.slot l (t (R.index l k)) with
      | .empty => none
      | .leaf v => some (l, v)
      | .child b => find m k n (l + 1) b

def lookup (m : Nat → Option (Nat → E)) (root : Nat) (k : K) : Option (Nat × V) :=
  R.find m k R.depth 0 root

variable {R} {m m' : Nat → Option (Nat → E)} {k k' : K} {n l a b i root l' n' j : Nat}
  {t s t' : Nat → E} {v : V}

@[simp] theorem path_length : (R.path k n).length = n := by simp [path]

theorem path_succ : R.path k (n + 1) = R.path k n ++ [R.index n k] := by
  simp [path, range_succ]

theorem path_concat {p : List Nat} (h : R.path k (p.length + 1) = p ++ [i]) :
    R.path k p.length = p ∧ R.index p.length k = i := by
  rw [path_succ] at h
  obtain ⟨h1, h2⟩ := append_inj' h rfl
  exact ⟨h1, singleton_inj.1 h2⟩

theorem path_prefix (h : n ≤ n') : R.path k n <+: R.path k n' := by
  unfold path
  obtain ⟨d, rfl⟩ := Nat.exists_eq_add_of_le h
  rw [range_add, map_append]
  exact prefix_append _ _

section

variable (ha : m a = some t)

include ha

theorem find_leaf (h : R.slot l (t (R.index l k)) = .leaf v) :
    R.find m k (n + 1) l a = some (l, v) := by
  simp only [find, ha, h]

theorem find_empty (h : R.slot l (t (R.index l k)) = .empty) : R.find m k (n + 1) l a = none := by
  simp only [find, ha, h]

theorem find_child (h : R.slot l (t (R.index l k)) = .child b) :
    R.find m k (n + 1) l a = R.find m k n (l + 1) b := by
  simp only [find, ha, h]

theorem find_found (h : ∀ b, R.slot l (t (R.index l k)) ≠ .child b) :
    R.find m k (n + 1) l a = (R.slot l (t (R.index l k))).found l := by
  cases hs : R.slot l (t (R.index l k)) with
  | empty => rw [find_empty ha hs]; rfl
  | leaf v => rw [find_leaf ha hs]; rfl
  | child b => exact absurd hs (h b)

end

theorem find_eq_some : ∀ (n : Nat) {l a : Nat},
    R.find m k n l a = some (l', v) → l' < l + n ∧ ∃ e, R.slot l' e = .leaf v
  | 0, _, _, h => nomatch h
  | n + 1, l, a, h => by
    unfold find at h
    split at h
    · cases h
    · split at h
      · cases h
      · rename_i hs
        cases h
        exact ⟨by omega, _, hs⟩
      · obtain ⟨hl, he⟩ := find_eq_some n h
        exact ⟨by omega, he⟩

theorem lookup_congr (h : R.path k R.depth = R.path k' R.depth) :
    R.lookup m root k = R.lookup m root k' := by
  have hidx : ∀ l < R.depth, R.index l k = R.index l k' := by
    intro l hl
    exact map_inj_left.1 h l (mem_range.2 hl)
  have hfind : ∀ (n : Nat) {l a : Nat}, l + n = R.depth → R.find m k n l a = R.find m k' n l a := by
    intro n
    induction n with
    | zero => intro l a _; rfl
    | succ n ih =>
      intro l a hl
      simp only [find, hidx l (by omega)]
      split
      · rfl
      · split
        · rfl
        · rfl
        · exact ih (by omega)
  exact hfind R.depth (Nat.zero_add _)

/-! ## Tables in their places -/

/-- The tables of the tree at `root`, each at the place that `own` gives. -/
structure Placed (R : Radix E V K) (m : Nat → Option (Nat → E)) (root : Nat)
    (own : Owner) : Prop where
  top : own root = some []
  root_unique : ∀ a, own a = some [] → a = root
  stored : ∀ a p, own a = some p → ∃ t, m a = some t
  level : ∀ a p, own a = some p → p.length < R.depth
  child : ∀ a p t i b, own a = some p → m a = some t → R.slot p.length (t i) = .child b →
    own b = some (p ++ [i])
  parent : ∀ b p i, own b = some (p ++ [i]) →
    ∃ a t, own a = some p ∧ m a = some t ∧ R.slot p.length (t i) = .child b

variable {own : Owner} {p q : List Nat}

namespace Placed

variable (h : Placed R m root own)

include h

theorem inj : ∀ {p : List Nat} {a b : Nat}, own a = some p → own b = some p → a = b := by
  intro p
  induction p using List.reverseRecOn with
  | nil =>
    intro a b ha hb
    rw [h.root_unique a ha, h.root_unique b hb]
  | append_singleton q i ih =>
    intro a b ha hb
    obtain ⟨a', t, hoa, hma, hsa⟩ := h.parent a q i ha
    obtain ⟨b', t', hob, hmb, hsb⟩ := h.parent b q i hb
    obtain rfl := ih hoa hob
    cases hma.symm.trans hmb
    exact Slot.child.inj (hsa.symm.trans hsb)

/-- The search for a key passes through the tables at the prefixes of its path. -/
theorem lookup_eq_find : ∀ {p : List Nat} {a : Nat}, own a = some p → R.path k p.length = p →
      R.lookup m root k = R.find m k (R.depth - p.length) p.length a := by
  intro p
  induction p using List.reverseRecOn with
  | nil =>
    intro a ha _
    rw [h.root_unique a ha]
    rfl
  | append_singleton q i ih =>
    intro a ha hp
    rw [length_append, length_singleton] at hp ⊢
    obtain ⟨hq, hi⟩ := path_concat hp
    obtain ⟨b, t, hob, hmb, hsb⟩ := h.parent a q i ha
    have hlt := h.level a _ ha
    rw [length_append, length_singleton] at hlt
    rw [ih hob hq, show R.depth - q.length = R.depth - (q.length + 1) + 1 by omega,
      find_child hmb (by rw [hi]; exact hsb)]

/-- A search sees only the entries that its key passes. -/
theorem lookup_congr (hm : ∀ b q t, own b = some q → R.path k q.length = q → m b = some t →
      ∃ t', m' b = some t' ∧ t' (R.index q.length k) = t (R.index q.length k)) :
    R.lookup m' root k = R.lookup m root k := by
  have hfind : ∀ n {b : Nat} {q : List Nat}, own b = some q → R.path k q.length = q →
      R.find m' k n q.length b = R.find m k n q.length b := by
    intro n
    induction n with
    | zero => intros; rfl
    | succ n ih =>
      intro b q hb hq
      obtain ⟨t, ht⟩ := h.stored b q hb
      obtain ⟨t', ht', hentry⟩ := hm b q t hb hq ht
      cases hs : R.slot q.length (t (R.index q.length k)) with
      | empty => rw [find_empty ht hs, find_empty ht' (by rw [hentry]; exact hs)]
      | leaf v => rw [find_leaf ht hs, find_leaf ht' (by rw [hentry]; exact hs)]
      | child c =>
        rw [find_child ht hs, find_child ht' (by rw [hentry]; exact hs)]
        have hc := h.child b q t _ c hb ht hs
        have hlen : (q ++ [R.index q.length k]).length = q.length + 1 := by simp
        have := ih hc (by rw [hlen, path_succ, hq])
        rwa [hlen] at this
  exact hfind R.depth h.top rfl

theorem forget (hm : ∀ b, (own b).isSome → m' b = m b) : Placed R m' root own := by
  have hsame : ∀ {b p}, own b = some p → m' b = m b := fun hb => hm _ (by rw [hb]; rfl)
  refine ⟨h.top, h.root_unique, fun a p ha => ?_, h.level, fun a p t i b ha ht => ?_, ?_⟩
  · rw [hsame ha]
    exact h.stored a p ha
  · rw [hsame ha] at ht
    exact h.child a p t i b ha ht
  · intro b p i hb
    obtain ⟨a, t, hoa, hma, hs⟩ := h.parent b p i hb
    exact ⟨a, t, hoa, (hsame hoa).trans hma, hs⟩

theorem lookup_forget (hm : ∀ b, (own b).isSome → m' b = m b) :
    R.lookup m' root k = R.lookup m root k :=
  h.lookup_congr fun b _ t hb _ ht => ⟨t, (hm b (by rw [hb]; rfl)).trans ht, rfl⟩

end Placed

/-! ## Stores to the tree -/

def store (m : Nat → Option (Nat → E)) (a : Nat) (t : Nat → E) (i : Nat) (e : E) :
    Nat → Option (Nat → E) :=
  update m a (some (update t i e))

theorem store_self (e : E) : store m a t i e a = some (update t i e) :=
  update_self _ _ _

theorem store_ne (e : E) (h : b ≠ a) : store m a t i e b = m b := update_of_ne h _ _

/-- The places that do not lie below `p`. -/
def prune (own : Owner) (p : List Nat) (a : Nat) : Option (List Nat) :=
  (own a).filter fun q => !p.isPrefixOf q

theorem prune_eq_some : prune own p a = some q ↔ own a = some q ∧ ¬ p <+: q := by
  simp [prune, Option.filter_eq_some_iff, ← isPrefixOf_iff_prefix]

theorem store_entry (hma : m a = some t) (h : store m a t i e b = some t') (j : Nat) :
    (b = a ∧ j = i ∧ t' j = e) ∨ ∃ s, m b = some s ∧ t' j = s j ∧ ¬ (b = a ∧ j = i) := by
  by_cases hb : b = a
  · subst hb
    rw [store_self] at h
    cases h
    by_cases hj : j = i
    · subst hj
      exact .inl ⟨rfl, rfl, update_self _ _ _⟩
    · exact .inr ⟨t, hma, update_of_ne hj _ _, fun h => hj h.2⟩
  · rw [store_ne e hb] at h
    exact .inr ⟨t', h, rfl, fun h => hb h.1⟩

theorem entry_store (hma : m a = some t) (h : m b = some s) :
    ∃ t', store m a t i e b = some t' ∧ ∀ j, (b = a ∧ j = i) ∨ t' j = s j := by
  by_cases hb : b = a
  · subst hb
    cases hma.symm.trans h
    refine ⟨_, store_self e, fun j => ?_⟩
    by_cases hj : j = i
    · exact .inl ⟨rfl, hj⟩
    · exact .inr (update_of_ne hj _ _)
  · exact ⟨s, by rw [store_ne e hb, h], fun _ => .inr rfl⟩

theorem concat_prefix_concat (h : p ++ [i] <+: q ++ [j]) : p ++ [i] <+: q ∨ (q = p ∧ j = i) := by
  rcases prefix_concat_iff.1 h with h | h
  · obtain ⟨h1, h2⟩ := append_inj' h rfl
    exact .inr ⟨h1.symm, (singleton_inj.1 h2).symm⟩
  · exact .inl h

namespace Placed

variable (h : Placed R m root own) (ha : own a = some p) (hma : m a = some t)

include h ha hma

/-- An entry that leads to no table is stored: what was below it leaves the tree. -/
theorem cut (he : ∀ b, R.slot p.length e ≠ .child b) :
    Placed R (store m a t i e) root (prune own (p ++ [i])) := by
  constructor
  case top => exact prune_eq_some.2 ⟨h.top, fun hp => by simp at hp⟩
  case root_unique => exact fun b hb => h.root_unique b (prune_eq_some.1 hb).1
  case level => exact fun b q hb => h.level b q (prune_eq_some.1 hb).1
  case stored =>
    intro b q hb
    obtain ⟨s, hs⟩ := h.stored b q (prune_eq_some.1 hb).1
    obtain ⟨t', ht', -⟩ := entry_store hma hs
    exact ⟨t', ht'⟩
  case child =>
    intro b q t' j c hb ht' hc
    obtain ⟨hob, hnot⟩ := prune_eq_some.1 hb
    rcases store_entry hma ht' j with ⟨rfl, rfl, hj⟩ | ⟨s, hs, hj, hne⟩
    · cases hob.symm.trans ha
      rw [hj] at hc
      exact absurd hc (he c)
    · rw [hj] at hc
      refine prune_eq_some.2 ⟨h.child b q s j c hob hs hc, fun hpre => ?_⟩
      rcases concat_prefix_concat hpre with hpre | ⟨rfl, rfl⟩
      · exact hnot hpre
      · exact hne ⟨h.inj hob ha, rfl⟩
  case parent =>
    intro b q j hb
    obtain ⟨hob, hnot⟩ := prune_eq_some.1 hb
    obtain ⟨c, s, hoc, hmc, hs⟩ := h.parent b q j hob
    obtain ⟨t', ht', hsame⟩ := entry_store hma hmc
    refine ⟨c, t', prune_eq_some.2 ⟨hoc, fun hpre => ?_⟩, ht', ?_⟩
    · exact hnot (hpre.trans (prefix_append _ _))
    · rcases hsame j with ⟨rfl, rfl⟩ | he
      · cases hoc.symm.trans ha
        exact absurd (prefix_refl _) hnot
      · rw [he]
        exact hs

/-- A search does not see a store to an entry that its key does not pass. -/
theorem lookup_frame (hk : R.path k (p.length + 1) ≠ p ++ [i]) :
    R.lookup (store m a t i e) root k = R.lookup m root k := by
  refine h.lookup_congr fun b q s hb hq hs => ?_
  obtain ⟨t', ht', hsame⟩ := entry_store hma hs
  refine ⟨t', ht', ?_⟩
  rcases hsame (R.index q.length k) with ⟨rfl, hi⟩ | he
  · cases hb.symm.trans ha
    exact absurd (by rw [path_succ, hq, hi]) hk
  · exact he

/-- The keys below a cut entry find what the new entry holds, the others what they found. -/
theorem lookup_cut (he : ∀ b, R.slot p.length e ≠ .child b) (k : K) :
    R.lookup (store m a t i e) root k =
      if R.path k (p.length + 1) = p ++ [i] then (R.slot p.length e).found p.length
      else R.lookup m root k := by
  split_ifs with hp
  · obtain ⟨hp, hi⟩ := path_concat hp
    have hlt := h.level a p ha
    have ha' : prune own (p ++ [i]) a = some p :=
      prune_eq_some.2 ⟨ha, fun hpre => Nat.not_succ_le_self p.length (by simpa using hpre.length_le)⟩
    have hentry : update t i e (R.index p.length k) = e := by
      rw [hi, update_self]
    rw [(h.cut ha hma he).lookup_eq_find ha' hp,
      show R.depth - p.length = R.depth - (p.length + 1) + 1 by omega,
      find_found (store_self e) (by rw [hentry]; exact he), hentry]
  · exact h.lookup_frame ha hma hp

variable (hold : ∀ c, R.slot p.length (t i) ≠ .child c) (hb : own b = none) {t' : Nat → E}
  (hmb : m b = some t') (hleaf : ∀ j c, R.slot (p.length + 1) (t' j) ≠ .child c)
  (hdepth : p.length + 1 < R.depth) {e : E} (he : R.slot p.length e = .child b)

include hold hb hmb hleaf hdepth he

/-- An entry that led to no table leads to a new one, which has no children. -/
theorem graft : Placed R (store m a t i e) root (update own b (some (p ++ [i]))) := by
  have hown : ∀ {c q}, own c = some q → c ≠ b := by
    rintro c q hc rfl
    rw [hb] at hc
    cases hc
  have hab := hown ha
  have hnew : ∀ {c q}, own c = some q → update own b (some (p ++ [i])) c = some q :=
    fun hc => by rw [update_of_ne (hown hc), hc]
  have hold' : ∀ {c q}, update own b (some (p ++ [i])) c = some q →
      (c = b ∧ q = p ++ [i]) ∨ (c ≠ b ∧ own c = some q) := by
    intro c q
    exact update_cases (fun hcb hc => .inl ⟨hcb, (Option.some.inj hc).symm⟩) fun hcb hc =>
      .inr ⟨hcb, hc⟩
  -- no table had the place of the new one, since the entry led to none
  have hfree : ∀ c, own c ≠ some (p ++ [i]) := by
    intro c hc
    obtain ⟨d, s, hd, hmd, hs⟩ := h.parent c p i hc
    obtain rfl := h.inj hd ha
    cases hma.symm.trans hmd
    exact hold c hs
  constructor
  case top => exact hnew h.top
  case root_unique =>
    intro c hc
    rcases hold' hc with ⟨-, hq⟩ | ⟨-, hc⟩
    · simp at hq
    · exact h.root_unique c hc
  case level =>
    intro c q hc
    rcases hold' hc with ⟨-, rfl⟩ | ⟨-, hc⟩
    · simpa using hdepth
    · exact h.level c q hc
  case stored =>
    intro c q hc
    rcases hold' hc with ⟨rfl, -⟩ | ⟨-, hc⟩
    · exact ⟨t', by rw [store_ne e hab.symm, hmb]⟩
    · obtain ⟨s, hs⟩ := h.stored c q hc
      obtain ⟨s', hs', -⟩ := entry_store hma hs
      exact ⟨s', hs'⟩
  case child =>
    intro c q s j d hc hs hd
    rcases hold' hc with ⟨rfl, rfl⟩ | ⟨-, hoc⟩
    · rw [store_ne e hab.symm, hmb] at hs
      cases hs
      rw [length_append, length_singleton] at hd
      exact absurd hd (hleaf j d)
    · rcases store_entry hma hs j with ⟨rfl, rfl, hj⟩ | ⟨s', hs', hj, -⟩
      · cases hoc.symm.trans ha
        rw [hj, he] at hd
        cases hd
        exact update_self _ _ _
      · rw [hj] at hd
        exact hnew (h.child c q s' j d hoc hs' hd)
  case parent =>
    intro c q j hc
    rcases hold' hc with ⟨rfl, hq⟩ | ⟨-, hoc⟩
    · obtain ⟨rfl, hj⟩ := append_inj' hq rfl
      obtain rfl := singleton_inj.1 hj
      exact ⟨a, _, hnew ha, store_self e, by rw [update_self]; exact he⟩
    · obtain ⟨d, s, hd, hmd, hs⟩ := h.parent c q j hoc
      obtain ⟨s', hs', hsame⟩ := entry_store hma hmd
      refine ⟨d, s', hnew hd, hs', ?_⟩
      rcases hsame j with ⟨rfl, rfl⟩ | he'
      · cases hd.symm.trans ha
        exact absurd hoc (hfree c)
      · rw [he']
        exact hs

/-- The keys below a grafted entry find what the new table holds, the others what they found. -/
theorem lookup_graft (k : K) : R.lookup (store m a t i e) root k =
      if R.path k (p.length + 1) = p ++ [i] then
        (R.slot (p.length + 1) (t' (R.index (p.length + 1) k))).found (p.length + 1)
      else R.lookup m root k := by
  split_ifs with hp
  · have hab : b ≠ a := by
      rintro rfl
      rw [hb] at ha
      cases ha
    have hlen : (p ++ [i]).length = p.length + 1 := by simp
    have hb' : update own b (some (p ++ [i])) b = some (p ++ [i]) :=
      update_self _ _ _
    rw [(h.graft ha hma hold hb hmb hleaf hdepth he).lookup_eq_find hb' (by rw [hlen]; exact hp),
      hlen, show R.depth - (p.length + 1) = R.depth - (p.length + 2) + 1 by omega,
      find_found (by rw [store_ne e hab]; exact hmb) (hleaf _)]
  · exact h.lookup_frame ha hma hp

end Placed

end Radix

end ZzzOs.Lib
