import ZzzOs.Mm.Pgtbl.Tree

/-!
# Walks

One walk for each callback, from the root to its target level. The invariant of the loop is the
same for all: the table reached at level `l` has the place `path va l`, and the context holds
the entries passed. What a walk does to the view is `put`: the addresses below the target entry
get a new translation, all others keep theirs.
-/

namespace ZzzOs.Mm.Pgtbl

open Nat Function Lib

variable (arch : PgtblArch) {s : Nat → Pte}

/-- The addresses that share the entry of `va` at level `t` are translated by `r`. -/
def put (v : Translation) (va t : Nat) (r : Option (Nat × (Nat × Pgprot))) (x : Nat) :
    Nat × Pgprot :=
  if (radix arch).path x (t + 1) = (radix arch).path va (t + 1) then translate arch x r else v x

def leafOf (t pa : Nat) (fl : Pgprot) : Option (Nat × (Nat × Pgprot)) :=
  if hasRwx fl then some (t, pa, rwxu fl) else none

/-- A block around `va` above level `t` that the view shows as one leaf is an allowed leaf. -/
def Merges (Q : LeafRule) (v : Translation) (va t : Nat) : Prop :=
  ∀ j pa fl, j < t → (∀ x, (radix arch).path x (j + 1) = (radix arch).path va (j + 1) →
    v x = translate arch x (some (j, pa, fl))) → Q j (pa, fl)

variable {arch} {A : TableAlloc} {Q : LeafRule} {root a va t b x l pa d l' : Nat}
  {m : TableMem} {own : Owner} {ctx : WalkCtx} {f : Fault}

theorem Sound.level_lt (h : Sound arch Q root m own)
    (hp : own a = some ((radix arch).path va l)) : l < arch.supportLevels := by
  have := h.placed.level _ _ hp
  rwa [Radix.path_length] at this

theorem path_len : ((radix arch).path va l).length = l := Radix.path_length

theorem Recorded.record (h : Recorded arch own ctx va l)
    (hp : own a = some ((radix arch).path va l)) :
    Recorded arch own (ctx.record l (a, arch.levelIndex l va)) va (l + 1) := by
  intro j hj
  rcases Nat.lt_succ_iff_lt_or_eq.1 hj with hj | rfl
  · simpa only [WalkCtx.table, WalkCtx.record, update_of_ne hj.ne] using h j hj
  · simpa only [WalkCtx.table, WalkCtx.record, update_self, and_true] using hp

theorem record_table {pte : Nat × Nat} : (ctx.record l pte).table l = pte.1 := by
  simp only [WalkCtx.table, WalkCtx.record, update_self]

theorem Recorded.grow {q : List Nat} (h : Recorded arch own ctx va l)
    (hb : own b = none) : Recorded arch (update own b (some q)) ctx va l := by
  intro j hj
  obtain ⟨h1, h2⟩ := h j hj
  refine ⟨?_, h2⟩
  rw [update_of_ne ?_, h1]
  rintro hjb
  rw [hjb, hb] at h1
  cases h1

/-! ## The target entry -/

/-- A store of `pa` and `fl` at level `t` makes only leaves that `Q` has. -/
structure Storable (arch : PgtblArch) (Q : LeafRule) (v : Translation) (va t pa : Nat)
    (fl : Pgprot) : Prop where
  dvd : 4096 ∣ pa
  lt : pa < 2 ^ 64
  flags : hasRwx fl = true ∨ t + 1 = arch.supportLevels
  leaf : hasRwx fl = true → Q t (pa, rwxu fl)
  merges : Merges arch Q (put arch v va t (leafOf t pa fl)) va t

section Store

variable (ha : arch.Lawful)
include ha

theorem found_leafOf {fl : Pgprot} (hd : 4096 ∣ pa) (hlt : pa < 2 ^ 64)
    (hfl : hasRwx fl = true ∨ t + 1 = arch.supportLevels) :
    ((radix arch).slot t (arch.setEntry t .page 0 pa fl)).found t = leafOf t pa fl ∧
      ∀ b, (radix arch).slot t (arch.setEntry t .page 0 pa fl) ≠ .child b := by
  cases hrwx : hasRwx fl with
  | true =>
    rw [slot_setPage ha hrwx hd hlt]
    exact ⟨by simp [Slot.found, leafOf, hrwx], fun _ => nofun⟩
  | false =>
    have hlast : t + 1 = arch.supportLevels := by
      rcases hfl with h | h
      · rw [hrwx] at h
        cases h
      · exact h
    refine ⟨?_, slot_last hlast⟩
    have hleaf : arch.entryIsLeaf (arch.setEntry t .page 0 pa fl) = false := by
      rw [ha.set_leaf, hrwx]
    have : (radix arch).slot t (arch.setEntry t .page 0 pa fl) = .empty := by
      unfold radix
      dsimp only
      rw [if_neg (by rw [ha.set_valid]; exact nofun), if_neg (by rw [hleaf]; exact Bool.false_ne_true),
        if_neg (by omega)]
    rw [this]
    simp [Slot.found, leafOf, hrwx]

theorem storeLeaf_spec (h : Sound arch Q root m own) (hr : Recorded arch own ctx va (t + 1))
    (hst : Storable arch Q (view arch root m) va t ctx.pa ctx.flags) :
    ∃ m' own', storeLeaf arch m (ctx.table t, arch.levelIndex t va) t ctx = .ok m' ∧
      Sound arch Q root m' own' ∧ m'.refused = m.refused ∧
      ∀ x, view arch root m' x =
        put arch (view arch root m) va t (leafOf t ctx.pa ctx.flags) x := by
  obtain ⟨hd, hlt, hfl, hQ, hM⟩ := hst
  obtain ⟨hoa, -⟩ := hr t (lt_succ_self t)
  obtain ⟨s, hs⟩ := h.stored hoa
  obtain ⟨hfound, hchild⟩ := found_leafOf ha hd hlt hfl
  -- the entry is cleared first
  obtain ⟨h₁, hv₁⟩ := h.clear ha hoa hs
  have hr₁ := hr.prune
  obtain ⟨hoa₁, -⟩ := hr₁ t (lt_succ_self t)
  have hs₁ := Radix.store_self (m := m.table) (a := ctx.table t) (t := s)
    (i := arch.levelIndex t va) (0 : Pte)
  obtain ⟨h₂, hv₂⟩ := h₁.cut
    hoa₁ hs₁ hchild (fun hv => by rw [ha.set_valid] at hv; cases hv) (fun v hv => by
      cases hrwx : hasRwx ctx.flags with
      | true =>
        rw [slot_setPage ha hrwx hd hlt] at hv
        cases hv
        exact hQ hrwx
      | false =>
        rw [hv] at hfound
        simp [Slot.found, leafOf, hrwx] at hfound)
  have hput : ∀ x, view arch root { m with
      table := Radix.store (Radix.store m.table (ctx.table t) s (arch.levelIndex t va) 0)
        (ctx.table t) (update s (arch.levelIndex t va) 0) (arch.levelIndex t va)
        (arch.setEntry t .page 0 ctx.pa ctx.flags) } x =
      put arch (view arch root m) va t (leafOf t ctx.pa ctx.flags) x := by
    intro x
    rw [hv₂, hv₁, hfound]
    unfold put
    split
    · rfl
    · rfl
  obtain ⟨m', own', he, h', href, hv'⟩ := mergeUp_spec ha t h₂ hr₁.prune
    (fun j pa fl hj hx => hM j pa fl hj fun x hp => (hput x).symm.trans (hx x hp))
  refine ⟨m', own', ?_, h', href, fun x => (hv' x).trans (hput x)⟩
  unfold storeLeaf
  simp only [write_eq hs, bind, Except.bind]
  rw [write_eq hs₁]
  exact he

end Store

/-! ## One round of a walk -/

section Round

variable {γ : Type} {cb : WalkCb γ} {c c' : γ} {n l : Nat} {m' : TableMem} {act : WalkAction}
  {e : Pte}

theorem walkFrom_stop (h : cb m (a, arch.levelIndex l va) l va c = .ok (m', c', .stop)) :
    walkFrom arch cb va (n + 1) l a m c = .ok (0, m', c') := by
  simp [walkFrom, h, bind, Except.bind]

theorem walkFrom_error (h : cb m (a, arch.levelIndex l va) l va c = .error f) :
    walkFrom arch cb va (n + 1) l a m c = .error f := by
  simp only [walkFrom, h, bind, Except.bind]

section

variable (h : cb m (a, arch.levelIndex l va) l va c = .ok (m', c', act)) (hact : act ≠ .stop)
  (hread : m'.read (a, arch.levelIndex l va) = .ok e)

include h hact hread

theorem walkFrom_leaf (he : arch.entryIsLeaf e = true) :
    walkFrom arch cb va (n + 1) l a m c = .ok (-einval, m', c') := by
  simp only [walkFrom, h, bind, Except.bind, if_neg hact, hread, he, if_true]

theorem walkFrom_down (he : arch.entryIsLeaf e = false) : walkFrom arch cb va (n + 1) l a m c =
      walkFrom arch cb va n (l + 1) (arch.entryGetPa l .table e) m' c' := by
  simp only [walkFrom, h, bind, Except.bind, if_neg hact, hread, he]
  rfl

end

end Round

def After (arch : PgtblArch) (Q : LeafRule) (root : Nat) (v : Translation) (refused : Nat)
    (m : TableMem) : Prop :=
  (∃ own, Sound arch Q root m own) ∧ view arch root m = v ∧ m.refused = refused

/-- The ways a walk that stores can end: the view is `v'`; or a leaf stopped the walk, with the
view `v` it began with and `d` pages refused on the way; or the walk left the page table. -/
def StoreResult (arch : PgtblArch) (Q : LeafRule) (root : Nat) (v v' : Translation) (r d : Nat)
    (left : TableMem → Prop)
    (res : Except Fault (Int × TableMem)) : Prop :=
  (∃ m', res = .ok (0, m') ∧ After arch Q root v' r m') ∨
    (∃ m', res = .ok (-einval, m') ∧ After arch Q root v (r + d) m') ∨
    ∃ m', res = .error (.notTable 0 m') ∧ left m'

section Outcome

variable {γ : Type} {res : Except Fault (Int × TableMem × γ)} {ret : Int} {m' : TableMem} {c : γ}

theorem outcome_ok (h : res = .ok (ret, m', c)) : outcome res = .ok (ret, m') := by
  rw [h]
  rfl

theorem outcome_error (h : res = .error f) : outcome res = .error f := by
  rw [h]
  rfl

end Outcome

/-- Addresses below an invalid entry of level `l` have no translation. -/
theorem Sound.view_invalid (h : Sound arch Q root m own)
    (hp : own a = some ((radix arch).path va l)) (hs : m.table a = some s)
    (hval : arch.entryIsValid (s (arch.levelIndex l va)) = false)
    (hx : (radix arch).path x (l + 1) = (radix arch).path va (l + 1)) :
    view arch root m x = (0, protNone) := by
  obtain ⟨h1, h2⟩ := path_succ_inj hx
  rw [h.view_entry hp hs h1 (slot_invalid (h2.symm ▸ hval)) nofun]
  rfl

theorem path_eq_of_le (hl : l ≤ l')
    (h : (radix arch).path x l' = (radix arch).path va l') :
    (radix arch).path x l = (radix arch).path va l := by
  have h1 := Radix.path_prefix (R := radix arch) (k := x) hl
  have h2 := Radix.path_prefix (R := radix arch) (k := va) hl
  rw [h] at h1
  exact List.prefix_of_prefix_length_le h1 h2 (by simp) |>.eq_of_length (by simp)

section Walks

theorem Sound.next (h : Sound arch Q root m own) (hp : own a = some ((radix arch).path va l))
    (hs : m.table a = some s) (hl : l + 1 < arch.supportLevels)
    (hv : arch.entryIsValid (s (arch.levelIndex l va)) = true)
    (hleaf : arch.entryIsLeaf (s (arch.levelIndex l va)) = false) :
    own (arch.entryGetPa l .table (s (arch.levelIndex l va))) =
      some ((radix arch).path va (l + 1)) := by
  rw [path_succ_eq]
  exact h.placed.child a _ s _ _ hp hs (by rw [path_len, slot_table hv hleaf hl])

theorem Sound.refuse (h : Sound arch Q root m own) :
    Sound arch Q root { m with requests := m.requests + 1, refused := m.refused + 1 } own :=
  ⟨h.placed, h.null, h.clean, h.leaves⟩

variable (arch) (Q) (root) (va) (v : Translation) (r : Nat) (cb : WalkCb WalkCtx)
  (P : Except Fault (Int × TableMem) → Prop)

/-- A walk for `va` has come to the table `a` of level `l`, with the view `v` and `r` refusals. -/
structure Reached (own : Owner) (l a : Nat) (m : TableMem) (ctx : WalkCtx) : Prop where
  sound : Sound arch Q root m own
  place : own a = some ((radix arch).path va l)
  recorded : Recorded arch own ctx va l
  shows : view arch root m = v
  refused : m.refused = r

def Onward (n l : Nat) (ctx : WalkCtx) : Prop :=
  ∀ ⦃a m own⦄, Reached arch Q root va v r own l a m ctx →
    P (outcome (walkFrom arch cb va n l a m ctx))

abbrev Gives (l a : Nat) (m : TableMem) (ctx : WalkCtx) (m' : TableMem) (act : WalkAction) : Prop :=
  cb m (a, arch.levelIndex l va) l va ctx =
    .ok (m', ctx.record l (a, arch.levelIndex l va), act)

variable {arch Q root va v r cb P} {l n pa : Nat} {fl : Pgprot} {s : Nat → Pte} {m' : TableMem}

theorem walk_rule (ht : t < arch.supportLevels)
    (hstep : ∀ {n l a m₁ own₁ pte}, l + n + 1 = arch.supportLevels → l ≤ t →
      Reached arch Q root va (view arch root m) m.refused own₁ l a m₁ ⟨pte, t, pa, fl⟩ →
      (l ≠ t → Onward arch Q root va (view arch root m) m.refused cb P n (l + 1)
        ⟨update pte l (a, arch.levelIndex l va), t, pa, fl⟩) →
      P (outcome (walkFrom arch cb va (n + 1) l a m₁ ⟨pte, t, pa, fl⟩)))
    (h : Sound arch Q root m own) : P (outcome (walk arch root va cb m (walkCtx t pa fl))) := by
  have hall (n : Nat) : ∀ {l pte}, l + n = arch.supportLevels → l ≤ t →
      Onward arch Q root va (view arch root m) m.refused cb P n l ⟨pte, t, pa, fl⟩ := by
    induction n with
    | zero => intro l pte hn hl; omega
    | succ n ih =>
      intro l pte hn hl a m₁ own₁ h₁
      exact hstep hn hl h₁ fun hne => ih (by omega) (by omega)
  exact hall _ (zero_add _) (zero_le t) ⟨h, h.placed.top, nofun, rfl, rfl⟩

section Step

variable (h : Reached arch Q root va v r own l a m ctx)
include h

theorem Reached.after : After arch Q root v r m := ⟨⟨own, h.sound⟩, h.shows, h.refused⟩

/-- The target of `map_cb` and `remap_cb` -/
theorem Reached.store (ha : arch.Lawful) {left : TableMem → Prop}
    (hst : Storable arch Q v va l ctx.pa ctx.flags)
    (hcb : ∀ m', storeLeaf arch m (a, arch.levelIndex l va) l
      (ctx.record l (a, arch.levelIndex l va)) = .ok m' → Gives arch va cb l a m ctx m' .stop) :
    StoreResult arch Q root v (put arch v va l (leafOf l ctx.pa ctx.flags)) r d left
      (outcome (walkFrom arch cb va (n + 1) l a m ctx)) := by
  obtain ⟨h, hp, hr, rfl, href⟩ := h
  obtain ⟨m', own', he, h', href', hv'⟩ := storeLeaf_spec ha h (hr.record hp) hst
  rw [record_table] at he
  exact .inl ⟨m', outcome_ok (walkFrom_stop (hcb m' he)), ⟨own', h'⟩, funext hv', href'.trans href⟩

variable (hl : l + 1 < arch.supportLevels) (hs : m.table a = some s)
  (ih : Onward arch Q root va v r cb P n (l + 1) (ctx.record l (a, arch.levelIndex l va)))
include ih

theorem Reached.enter (ha : arch.Lawful) {e : Pte} (hcb : Gives arch va cb l a m ctx m' .cont)
    (hread : m'.read (a, arch.levelIndex l va) = .ok (arch.setEntry l .table e b protNone))
    (hd : 4096 ∣ b) (hlt : b < 2 ^ 64) (hb : own b = none)
    (h' : Sound arch Q root m' (update own b (some ((radix arch).path va (l + 1)))))
    (href : m'.refused = m.refused) (hview : ∀ x, view arch root m' x = view arch root m x) :
    P (outcome (walkFrom arch cb va (n + 1) l a m ctx)) := by
  rw [walkFrom_down hcb nofun hread (by rw [ha.set_leaf]; rfl), ha.set_pa _ _ _ _ _ hd hlt]
  exact ih ⟨h', update_self .., (h.recorded.record h.place).grow hb,
    (funext hview).trans h.shows, href.trans h.refused⟩

include hl hs

theorem Reached.down (hval : arch.entryIsValid (s (arch.levelIndex l va)) = true)
    (hleaf : arch.entryIsLeaf (s (arch.levelIndex l va)) = false)
    (hcb : Gives arch va cb l a m ctx m .cont) :
    P (outcome (walkFrom arch cb va (n + 1) l a m ctx)) := by
  rw [walkFrom_down hcb nofun (read_eq hs) hleaf]
  exact ih ⟨h.sound, h.sound.next h.place hs hl hval hleaf, h.recorded.record h.place, h.shows,
    h.refused⟩

/-- A leaf above the target of `unmap_cb` and `remap_cb` -/
theorem Reached.split (ha : arch.Lawful) (hS : Splits arch Q)
    (hval : arch.entryIsValid (s (arch.levelIndex l va)) = true)
    (hleaf : arch.entryIsLeaf (s (arch.levelIndex l va)) = true)
    (hcb : ∀ m', split arch A m (a, arch.levelIndex l va) l = .ok m' →
      Gives arch va cb l a m ctx m' .cont)
    (hstop : ∀ m', After arch Q root v (r + 1) m' → P (.ok (-einval, m'))) :
    P (outcome (walkFrom arch cb va (n + 1) l a m ctx)) := by
  rcases split_spec h.sound ha hS h.place rfl hs hval hleaf hl with
    hsplit | ⟨m', b, hsplit, h', hread, hd, hlt, hb, href, hview⟩
  · rw [outcome_ok (walkFrom_leaf (hcb _ hsplit) nofun (read_eq hs) hleaf)]
    exact hstop _ ⟨⟨own, h.sound.refuse⟩, h.shows, congrArg (· + 1) h.refused⟩
  · exact h.enter ih ha (hcb m' hsplit) hread hd hlt hb h' href hview

end Step

/-! ## `pgtbl_map` -/

/-- Below an invalid entry that got no table the walk leaves the page table. -/
theorem cb_null (A : TableAlloc) (hnull : m.table 0 = none) (i l : Nat) :
    mapCb arch A m (0, i) l va ctx = .error (.notTable 0 m) ∧
      remapCb arch A m (0, i) l va ctx = .error (.notTable 0 m) := by
  unfold mapCb remapCb
  constructor <;> dsimp only <;> split
  all_goals simp only [storeLeaf, write_null hnull, read_null hnull, bind, Except.bind]

theorem pgtblMap_spec (ha : arch.Lawful) (h : Sound arch Q root m own) (ht : t < arch.supportLevels)
    (hst : Storable arch Q (view arch root m) va t pa fl) :
    StoreResult arch Q root (view arch root m) (put arch (view arch root m) va t (leafOf t pa fl))
      m.refused 0 (m.refused < ·.refused) (pgtblMap arch A root va pa t fl m) := by
  refine walk_rule (P := StoreResult arch Q root _ _ _ _ _) ht (fun {n l a m own pte} hn hl h ih => ?_) h
  by_cases hlt : l = t
  · subst hlt
    refine h.store ha hst fun m' he => ?_
    unfold Gives mapCb
    rw [if_pos (by rfl), he]
    rfl
  obtain ⟨s, hs⟩ := h.sound.stored h.place
  have hl' : l + 1 < arch.supportLevels := by omega
  cases hval : arch.entryIsValid (s (arch.levelIndex l va)) with
  | false =>
    cases hA : A.next m.requests m.table with
    | none =>
      -- refused: the walk goes on through an entry that is zero
      have hzero := h.sound.clean a s _ hs hval
      obtain ⟨n, rfl⟩ : ∃ k, n = k + 1 := ⟨n - 1, by omega⟩
      refine .inr (.inr ⟨{ m with requests := m.requests + 1, refused := m.refused + 1 }, ?_,
        h.refused ▸ lt_succ_self _⟩)
      have hcb : Gives arch va (mapCb arch A) l a m ⟨pte, t, pa, fl⟩
          { m with requests := m.requests + 1, refused := m.refused + 1 } .failed := by
        simp only [Gives, mapCb, WalkCtx.record, hlt, if_false, read_eq hs, hval,
          TableMem.allocTable, hA, bind, Except.bind, if_true]
      rw [walkFrom_down hcb (fun h => by cases h) (read_eq hs) (by rw [hzero]; exact ha.zero_leaf), hzero,
        ha.zero_pa]
      exact outcome_error (walkFrom_error (cb_null A h.sound.refuse.null ..).1)
    | some b =>
      obtain ⟨m₁, m', halloc, hwrite, h', hread, href, hview⟩ := h.sound.adopt ha h.place rfl hs
        (by rw [slot_invalid hval]; exact fun _ h => by cases h) hl' hA (fun _ _ => rfl)
        (by rw [slot_zero ha]; exact fun _ _ h => by cases h)
        (by rw [slot_zero ha]; exact fun _ _ h => by cases h)
        (fun x => by rw [slot_zero ha, slot_invalid hval]; rfl)
      obtain ⟨hd, -, hb⟩ := A.frame hA
      refine h.enter (ih hlt) ha ?_ hread hd hb (own_none h.sound (A.fresh hA)) h' href hview
      simp only [Gives, mapCb, WalkCtx.record, hlt, if_false, read_eq hs, hval, halloc, hwrite, bind,
        Except.bind, if_true]
  | true =>
    have hcb : Gives arch va (mapCb arch A) l a m ⟨pte, t, pa, fl⟩ m .cont := by
      simp only [Gives, mapCb, WalkCtx.record, hlt, if_false, read_eq hs, hval, bind, Except.bind]
      rfl
    cases hleaf : arch.entryIsLeaf (s (arch.levelIndex l va)) with
    | true =>
      exact .inr (.inl ⟨m, outcome_ok (walkFrom_leaf hcb (fun h => by cases h) (read_eq hs) hleaf), h.after⟩)
    | false => exact h.down hl' hs (ih hlt) hval hleaf hcb

/-! ## `pgtbl_unmap` -/

theorem not_refused_of_ok {res : Except Fault (Int × TableMem)} {p : Prop}
    (h : res = .ok (0, m')) : (∃ m', res = .ok (-einval, m')) → p := by
  rintro ⟨m'', he⟩
  rw [h] at he
  have hret : (0 : Int) = -einval := congrArg Prod.fst (Except.ok.inj he)
  exact absurd hret (by decide)

section

variable (ha : arch.Lawful) (hS : Splits arch Q) (h : Sound arch Q root m own)
  (ht : t < arch.supportLevels)

include ha hS h ht

/-- The walk stops at a leaf only when a page is refused; then `va` is mapped. -/
theorem pgtblUnmap_spec (va : Nat) :
    StoreResult arch Q root (view arch root m) (put arch (view arch root m) va t none) m.refused 1
        (fun _ => False) (pgtblUnmap arch A root va t m) ∧
      ((∃ m', pgtblUnmap arch A root va t m = .ok (-einval, m')) →
        hasRwx (view arch root m va).2 = true) := by
  refine walk_rule (P := fun res => StoreResult arch Q root (view arch root m)
      (put arch (view arch root m) va t none) m.refused 1 (fun _ => False) res ∧
    ((∃ m', res = .ok (-einval, m')) → hasRwx (view arch root m va).2 = true)) ht
    (fun {n l a m₁ own pte} hn hl h ih => ?_) h
  obtain ⟨s, hs⟩ := h.sound.stored h.place
  by_cases hlt : l = t
  · -- the target entry is cleared
    subst hlt
    obtain ⟨h₁, hv₁⟩ := h.sound.clear ha h.place hs
    obtain ⟨m', own', he, h', href', hv'⟩ := cleanUp_spec ha l h₁ (h.recorded.record h.place).prune
    have hres := outcome_ok (walkFrom_stop (n := n)
      (show Gives arch va (unmapCb arch A) l a m₁ ⟨pte, l, 0, protNone⟩ m' .stop by
        unfold Gives unmapCb
        rw [if_pos (by rfl), write_eq hs]
        simp only [bind, Except.bind]
        rw [he]))
    refine ⟨.inl ⟨m', hres, ⟨own', h'⟩, funext fun x => ?_, href'.trans h.refused⟩,
      not_refused_of_ok hres⟩
    rw [hv', hv₁, h.shows]
    rfl
  have hl' : l + 1 < arch.supportLevels := by omega
  cases hval : arch.entryIsValid (s (arch.levelIndex l va)) with
  | false =>
    have hres := outcome_ok (walkFrom_stop (n := n)
      (show Gives arch va (unmapCb arch A) l a m₁ ⟨pte, t, 0, protNone⟩ m₁ .stop by
        simp only [Gives, unmapCb, WalkCtx.record, hlt, if_false, read_eq hs, hval, bind,
          Except.bind, if_true]))
    refine ⟨.inl ⟨m₁, hres, ⟨own, h.sound⟩, funext fun x => ?_, h.refused⟩, not_refused_of_ok hres⟩
    rw [h.shows]
    unfold put
    split_ifs with hx
    · rw [← h.shows, h.sound.view_invalid h.place hs hval (path_eq_of_le (by omega) hx)]
      rfl
    · rfl
  | true =>
    cases hleaf : arch.entryIsLeaf (s (arch.levelIndex l va)) with
    | false =>
      refine h.down hl' hs (ih hlt) hval hleaf ?_
      simp only [Gives, unmapCb, WalkCtx.record, hlt, if_false, read_eq hs, hval, hleaf, bind,
        Except.bind, if_true]
      rfl
    | true =>
      refine h.split (A := A) hl' hs (ih hlt) ha hS hval hleaf (fun m' hm' => ?_) fun m' hm' =>
        ⟨.inr (.inl ⟨m', rfl, hm'⟩), fun _ => ?_⟩
      · simp only [Gives, unmapCb, WalkCtx.record, hlt, if_false, read_eq hs, hval, hleaf, hm', bind,
          Except.bind]
        rfl
      · rw [← h.shows, h.sound.view_entry h.place hs rfl (slot_leaf hval hleaf) nofun]
        exact (ha.leaf_flags l _).trans hleaf

/-! ## `pgtbl_remap` -/

/-- The walk goes to address 0 where there is no translation. -/
theorem pgtblRemap_spec (hst : Storable arch Q (view arch root m) va t pa fl) :
    StoreResult arch Q root (view arch root m) (put arch (view arch root m) va t (leafOf t pa fl))
      m.refused 1 (fun m' => m'.refused = m.refused ∧ view arch root m va = (0, protNone))
      (pgtblRemap arch A root va pa t fl m) := by
  refine walk_rule (P := StoreResult arch Q root _ _ _ _ _) ht (fun {n l a m₁ own pte} hn hl h ih => ?_) h
  by_cases hlt : l = t
  · subst hlt
    refine h.store ha hst fun m' he => ?_
    unfold Gives remapCb
    rw [if_pos (by rfl), he]
    rfl
  obtain ⟨s, hs⟩ := h.sound.stored h.place
  have hl' : l + 1 < arch.supportLevels := by omega
  cases hval : arch.entryIsValid (s (arch.levelIndex l va)) with
  | false =>
    have hzero := h.sound.clean a s _ hs hval
    have hcb : Gives arch va (remapCb arch A) l a m₁ ⟨pte, t, pa, fl⟩ m₁ .cont := by
      simp only [Gives, remapCb, WalkCtx.record, hlt, if_false, read_eq hs, hval, bind, Except.bind]
      rfl
    obtain ⟨n, rfl⟩ : ∃ k, n = k + 1 := ⟨n - 1, by omega⟩
    refine .inr (.inr ⟨m₁, ?_, h.refused, h.shows ▸ h.sound.view_invalid h.place hs hval rfl⟩)
    rw [walkFrom_down hcb nofun (read_eq hs) (by rw [hzero]; exact ha.zero_leaf), hzero, ha.zero_pa]
    exact outcome_error (walkFrom_error (cb_null A h.sound.null ..).2)
  | true =>
    cases hleaf : arch.entryIsLeaf (s (arch.levelIndex l va)) with
    | false =>
      refine h.down hl' hs (ih hlt) hval hleaf ?_
      simp only [Gives, remapCb, WalkCtx.record, hlt, if_false, read_eq hs, hval, hleaf, bind,
        Except.bind]
      rfl
    | true =>
      refine h.split (A := A) hl' hs (ih hlt) ha hS hval hleaf (fun m' hm' => ?_)
        fun m' hm' => .inr (.inl ⟨m', rfl, hm'⟩)
      simp only [Gives, remapCb, WalkCtx.record, hlt, if_false, read_eq hs, hval, hleaf, hm', bind,
        Except.bind]
      rfl

end

end Walks

/-! ## `pgtbl_lookup` -/

theorem lookWalk_spec (va : Nat) :
    ∀ (n : Nat) {l a : Nat}, l + n = arch.supportLevels → Sound arch Q root m own →
      own a = some ((radix arch).path va l) →
      ∃ ret, walkFrom arch (lookCb arch) va n l a m (0, protNone) =
        .ok (ret, m, view arch root m va) := by
  intro n
  induction n with
  | zero =>
    intro l a hn h hp
    have := h.level_lt hp
    omega
  | succ n ih =>
    intro l a hn h hp
    obtain ⟨s, hs⟩ := h.stored hp
    cases hval : arch.entryIsValid (s (arch.levelIndex l va)) with
    | false =>
      refine ⟨0, walkFrom_stop ?_⟩
      rw [h.view_invalid hp hs hval rfl]
      simp [lookCb, read_eq hs, hval, bind, Except.bind]
    | true =>
      cases hleaf : arch.entryIsLeaf (s (arch.levelIndex l va)) with
      | true =>
        refine ⟨0, walkFrom_stop ?_⟩
        rw [h.view_entry hp hs rfl (slot_leaf hval hleaf) nofun]
        simp only [lookCb, read_eq hs, hval, hleaf, bind, Except.bind, if_true]
        rfl
      | false =>
        have hcb : lookCb arch m (a, arch.levelIndex l va) l va (0, protNone) =
            .ok (m, (0, protNone), .cont) := by
          simp only [lookCb, read_eq hs, hval, hleaf, bind, Except.bind]
          rfl
        rw [walkFrom_down hcb nofun (read_eq hs) hleaf]
        by_cases hl : l + 1 < arch.supportLevels
        · exact ih (by omega) h (h.next hp hs hl hval hleaf)
        · -- an entry of the last level that is valid and no leaf translates nothing
          obtain rfl : n = 0 := by omega
          have hslot : (radix arch).slot l (s (arch.levelIndex l va)) = .empty := by
            simp [radix, hval, hleaf, hl]
          refine ⟨0, ?_⟩
          rw [h.view_entry hp hs rfl hslot fun _ h => by cases h]
          rfl

section

variable (h : Sound arch Q root m own) (va : Nat)

include h

theorem look_eq : look arch root m va = .ok (view arch root m va) := by
  obtain ⟨ret, he⟩ := lookWalk_spec va arch.supportLevels (zero_add _) h h.placed.top
  simp only [look, walk, he, bind, Except.bind]

theorem pgtblLookup_eq : pgtblLookup arch root m va = .ok (view arch root m va).1 := by
  simp only [pgtblLookup, look_eq h, bind, Except.bind]

theorem pgtblLookupProt_eq : pgtblLookupProt arch root m va = .ok (view arch root m va).2 := by
  simp only [pgtblLookupProt, look_eq h, bind, Except.bind]

end

end ZzzOs.Mm.Pgtbl
