import ZzzOs.Lib.Radix
import ZzzOs.Mm.Pgtbl.Model

/-!
# A page table as a tree

The tables of a page table are a radix table (`radix`), and `view` reads it as a function from virtual
addresses to physical addresses and flags. `PgtblArch.Lawful` is what the proofs use of an architecture.
Each store of `mm/pgtbl.c` keeps the tables in their places; a split and a merge do not change the view.
-/

namespace ZzzOs.Mm

open List Function Lib Nat

/-- The flags allow some access. -/
def hasRwx (flags : Pgprot) : Bool := flags &&& 7#32 != 0

/-- The flags that an entry can hold. -/
def rwxu (flags : Pgprot) : Pgprot := flags &&& 15#32

structure PgtblArch.Lawful (arch : PgtblArch) : Prop where
  levels : 0 < arch.supportLevels
  zero_valid : arch.entryIsValid 0 = false
  zero_leaf : arch.entryIsLeaf 0 = false
  zero_pa : ∀ l ty, arch.entryGetPa l ty 0 = 0
  set_valid : ∀ l ty old pa fl, arch.entryIsValid (arch.setEntry l ty old pa fl) = true
  set_leaf : ∀ l ty old pa fl, arch.entryIsLeaf (arch.setEntry l ty old pa fl) = hasRwx fl
  set_pa : ∀ l ty ty' old fl {pa}, 4096 ∣ pa → pa < 2 ^ 64 →
    arch.entryGetPa l ty' (arch.setEntry l ty old pa fl) = pa
  set_flags : ∀ l ty old pa fl, arch.entryGetFlags l (arch.setEntry l ty old pa fl) = rwxu fl
  leaf_flags : ∀ l e, hasRwx (arch.entryGetFlags l e) = arch.entryIsLeaf e
  rwxu_flags : ∀ l e, rwxu (arch.entryGetFlags l e) = arch.entryGetFlags l e
  pa_frame : ∀ l ty e, 4096 ∣ arch.entryGetPa l ty e ∧ arch.entryGetPa l ty e < 2 ^ 64
  entries : ∀ l, arch.entries l = 512
  index_lt : ∀ l va, arch.levelIndex l va < 512
  size_dvd : ∀ l, 4096 ∣ arch.pageSize l
  size_gt : ∀ l, l + 1 < arch.supportLevels → 4096 < arch.pageSize l
  last_size : arch.pageSize (arch.supportLevels - 1) = 4096
  offset : ∀ l va, l + 1 < arch.supportLevels →
    va % arch.pageSize l = arch.levelIndex (l + 1) va * arch.pageSize (l + 1) +
      va % arch.pageSize (l + 1)

namespace Pgtbl

variable (arch : PgtblArch)

/-- An entry that is neither a leaf nor, on the last level, the address of a table holds
nothing that a walk can find. -/
def radix : Radix Pte (Nat × Pgprot) Nat where
  depth := arch.supportLevels
  index := arch.levelIndex
  slot l e :=
    if arch.entryIsValid e = false then .empty
    else if arch.entryIsLeaf e then .leaf (arch.entryGetPa l .page e, arch.entryGetFlags l e)
    else if l + 1 < arch.supportLevels then .child (arch.entryGetPa l .table e)
    else .empty

/-- What a page table is for: the address and the flags that each virtual address has, and
`(0, PROT_NONE)` where nothing is mapped. -/
abbrev Translation := Nat → Nat × Pgprot

/-- The leaves that may stand at each level. -/
abbrev LeafRule := Nat → Nat × Pgprot → Prop

/-- The translation of `va` by the leaf that its search found. -/
def translate (va : Nat) : Option (Nat × (Nat × Pgprot)) → Nat × Pgprot
  | none => (0, protNone)
  | some (l, pa, fl) => ((pa + va % arch.pageSize l) % 2 ^ 64, fl)

def view (root : Nat) (m : TableMem) (va : Nat) : Nat × Pgprot :=
  translate arch va ((radix arch).lookup m.table root va)

abbrev SameView (root : Nat) (m m' : TableMem) : Prop :=
  m'.refused = m.refused ∧ ∀ x, view arch root m' x = view arch root m x

/-- The page table at `root` is a tree with its tables at the places of `own`, and every leaf is
one that `Q` allows at its level. -/
structure Sound (Q : LeafRule) (root : Nat) (m : TableMem) (own : Owner) : Prop where
  placed : (radix arch).Placed m.table root own
  null : m.table 0 = none
  clean : ∀ a t i, m.table a = some t → arch.entryIsValid (t i) = false → t i = 0
  leaves : ∀ a p t i v, own a = some p → m.table a = some t →
    (radix arch).slot p.length (t i) = .leaf v → Q p.length v

/-- The parts of an allowed leaf are allowed. -/
def Splits (Q : LeafRule) : Prop :=
  ∀ l pa fl i, l + 1 < arch.supportLevels → i < 512 → Q l (pa, fl) →
    Q (l + 1) ((pa + i * arch.pageSize (l + 1)) % 2 ^ 64, fl)

variable {arch} {Q : LeafRule} {root a l i va x l' d : Nat} {m m' : TableMem}
  {own : Owner} {p : List Nat} {e : Pte} {t : Nat → Pte} {ctx : WalkCtx}

/-! ## Entries -/

theorem slot_invalid (h : arch.entryIsValid e = false) : (radix arch).slot l e = .empty :=
  if_pos h

theorem slot_leaf (hv : arch.entryIsValid e = true) (hl : arch.entryIsLeaf e = true) :
    (radix arch).slot l e = .leaf (arch.entryGetPa l .page e, arch.entryGetFlags l e) := by
  simp [radix, hv, hl]

theorem slot_table (hv : arch.entryIsValid e = true) (hl : arch.entryIsLeaf e = false)
    (hlt : l + 1 < arch.supportLevels) :
    (radix arch).slot l e = .child (arch.entryGetPa l .table e) := by
  simp [radix, hv, hl, hlt]

theorem slot_last (hlast : l + 1 = arch.supportLevels) (b : Nat) :
    (radix arch).slot l e ≠ .child b := by
  unfold radix
  dsimp only
  split
  · exact nofun
  split
  · exact nofun
  · rw [if_neg (by omega)]
    exact nofun

section Lawful

variable (ha : arch.Lawful) {pa : Nat} {fl : Pgprot}
include ha

theorem page_le (hl : l < arch.supportLevels) : 4096 ≤ arch.pageSize l := by
  rcases lt_or_eq_of_le (succ_le_of_lt hl) with hl | hl
  · exact (ha.size_gt l hl).le
  · rw [← ha.last_size, ← hl, succ_sub_one]

theorem slot_zero : (radix arch).slot l 0 = .empty := slot_invalid ha.zero_valid

theorem slot_setPage (hfl : hasRwx fl = true) (hd : 4096 ∣ pa) (hlt : pa < 2 ^ 64) :
    (radix arch).slot l (arch.setEntry l .page e pa fl) = .leaf (pa, rwxu fl) := by
  rw [slot_leaf (ha.set_valid _ _ _ _ _) (by rw [ha.set_leaf, hfl]), ha.set_pa _ _ _ _ _ hd hlt,
    ha.set_flags]

theorem slot_setTable (hd : 4096 ∣ pa) (hlt : pa < 2 ^ 64) (hl : l + 1 < arch.supportLevels) :
    (radix arch).slot l (arch.setEntry l .table e pa protNone) = .child pa := by
  rw [slot_table (ha.set_valid _ _ _ _ _) (by rw [ha.set_leaf]; rfl) hl, ha.set_pa _ _ _ _ _ hd hlt]

theorem translate_split (hl : l + 1 < arch.supportLevels) : translate arch va
        (some (l + 1, (pa + arch.levelIndex (l + 1) va * arch.pageSize (l + 1)) % 2 ^ 64, fl)) =
      translate arch va (some (l, pa, fl)) := by
  simp only [translate, ha.offset l va hl, mod_add_mod, add_assoc]

end Lawful

/-! ## Reads and writes -/

theorem Sound.stored (h : Sound arch Q root m own) (hp : own a = some p) :
    ∃ t, m.table a = some t := h.placed.stored a p hp

theorem tableAt_eq (ht : m.table a = some t) : m.tableAt a = .ok t := by
  simp [TableMem.tableAt, ht]

theorem read_eq (ht : m.table a = some t) : m.read (a, i) = .ok (t i) := by
  simp [TableMem.read, tableAt_eq ht, bind, Except.bind]

theorem write_eq (ht : m.table a = some t) :
    m.write (a, i) e = .ok { m with table := Radix.store m.table a t i e } := by
  simp [TableMem.write, tableAt_eq ht, bind, Except.bind, Radix.store]

theorem read_null (h : m.table 0 = none) : m.read (0, i) = .error (.notTable 0 m) := by
  simp [TableMem.read, TableMem.tableAt, h, bind, Except.bind]

theorem write_null (h : m.table 0 = none) : m.write (0, i) e = .error (.notTable 0 m) := by
  simp [TableMem.write, TableMem.tableAt, h, bind, Except.bind]

theorem store_clean (hc : ∀ a t i, m.table a = some t → arch.entryIsValid (t i) = false → t i = 0)
    (ht : m.table a = some t) (he : arch.entryIsValid e = false → e = 0) :
    ∀ b t' j, Radix.store m.table a t i e b = some t' → arch.entryIsValid (t' j) = false →
      t' j = 0 := by
  intro b t' j hb hv
  rcases Radix.store_entry ht hb j with ⟨-, -, hj⟩ | ⟨s, hs, hj, -⟩
  · rw [hj] at hv ⊢
    exact he hv
  · rw [hj] at hv ⊢
    exact hc b s j hs hv

theorem store_null (hn : m.table 0 = none) (ht : m.table a = some t) :
    Radix.store m.table a t i e 0 = none := by
  have : (0 : Nat) ≠ a := by
    rintro rfl
    rw [hn] at ht
    cases ht
  rw [Radix.store_ne e this, hn]

theorem path_succ_eq (va l : Nat) :
    (radix arch).path va (l + 1) = (radix arch).path va l ++ [arch.levelIndex l va] :=
  Radix.path_succ

section

variable (h : Sound arch Q root m own)

include h

/-- The entry for `va` at level `l` becomes a leaf or empty. -/
theorem Sound.cut (hp : own a = some ((radix arch).path va l)) (ht : m.table a = some t)
    (he : ∀ b, (radix arch).slot l e ≠ .child b) (hz : arch.entryIsValid e = false → e = 0)
    (hQ : ∀ v, (radix arch).slot l e = .leaf v → Q l v) :
    Sound arch Q root { m with table := Radix.store m.table a t (arch.levelIndex l va) e }
        (Radix.prune own ((radix arch).path va (l + 1))) ∧
      ∀ x, view arch root { m with table := Radix.store m.table a t (arch.levelIndex l va) e } x =
        if (radix arch).path x (l + 1) = (radix arch).path va (l + 1) then
          translate arch x (((radix arch).slot l e).found l)
        else view arch root m x := by
  have hlen : ((radix arch).path va l).length = l := Radix.path_length
  rw [path_succ_eq]
  refine ⟨⟨h.placed.cut hp ht (hlen.symm ▸ he), store_null h.null ht, store_clean h.clean ht hz,
    fun b q t' j v hb ht' hv => ?_⟩, fun x => ?_⟩
  · obtain ⟨hb, -⟩ := Radix.prune_eq_some.1 hb
    rcases Radix.store_entry ht ht' j with ⟨rfl, -, hj⟩ | ⟨s, hs, hj, -⟩
    · cases hb.symm.trans hp
      rw [hj, hlen] at hv
      exact hlen.symm ▸ hQ v hv
    · rw [hj] at hv
      exact h.leaves b q s j v hb hs hv
  · unfold view
    rw [h.placed.lookup_cut hp ht (hlen.symm ▸ he), hlen]
    split
    · rfl
    · rfl

/-- The entry for `va` at level `l` becomes zero. -/
theorem Sound.clear (ha : arch.Lawful) (hp : own a = some ((radix arch).path va l))
    (ht : m.table a = some t) :
    Sound arch Q root { m with table := Radix.store m.table a t (arch.levelIndex l va) 0 }
        (Radix.prune own ((radix arch).path va (l + 1))) ∧
      ∀ x, view arch root { m with table := Radix.store m.table a t (arch.levelIndex l va) 0 } x =
        if (radix arch).path x (l + 1) = (radix arch).path va (l + 1) then (0, protNone)
        else view arch root m x := by
  have hcut := h.cut (e := 0) hp ht (by rw [slot_zero ha]; exact nofun) (fun _ => rfl)
    (by rw [slot_zero ha]; exact nofun)
  rwa [slot_zero ha] at hcut

/-- A page outside the tree may change. -/
theorem Sound.spare {o : Option (Nat → Pte)}
    (ha : own a = none) (hm : m'.table = update m.table a o) (h0 : a = 0 → o = none)
    (ho : ∀ t j, o = some t → arch.entryIsValid (t j) = false → t j = 0) :
    Sound arch Q root m' own ∧ ∀ x, view arch root m' x = view arch root m x := by
  have hsame (b : Nat) (hb : (own b).isSome) : m'.table b = m.table b := by
    rw [hm]
    refine update_of_ne ?_ _ _
    rintro rfl
    rw [ha] at hb
    cases hb
  refine ⟨⟨h.placed.forget hsame, ?_, fun b t i hbt hv => ?_, fun b q t i v hb ht => ?_⟩,
    fun x => ?_⟩
  · rw [hm, update_apply]
    split_ifs with hz
    · exact h0 hz.symm
    · exact h.null
  · rw [hm, update_apply] at hbt
    split_ifs at hbt
    · exact ho t i hbt hv
    · exact h.clean b t i hbt hv
  · rw [hsame b (by rw [hb]; rfl)] at ht
    exact h.leaves b q t i v hb ht
  · unfold view
    rw [h.placed.lookup_forget hsame]

theorem Sound.free (hb : own a = none) : Sound arch Q root (m.freeTable a) own ∧
      ∀ x, view arch root (m.freeTable a) x = view arch root m x :=
  h.spare hb rfl (fun _ => rfl) nofun

/-- The view of an address through an entry that leads to no table. -/
theorem Sound.view_entry {sl : Slot (Nat × Pgprot)}
    (hp : own a = some ((radix arch).path va l)) (ht : m.table a = some t)
    (hx : (radix arch).path x l = (radix arch).path va l)
    (hs : (radix arch).slot l (t (arch.levelIndex l x)) = sl) (he : ∀ b, sl ≠ .child b) :
    view arch root m x = translate arch x (sl.found l) := by
  subst hs
  have hlen : ((radix arch).path va l).length = l := Radix.path_length
  have hlt := h.placed.level a _ hp
  have hfind := h.placed.lookup_eq_find hp (by rw [hlen, hx])
  rw [hlen] at hlt hfind
  unfold view
  rw [hfind, show (radix arch).depth - l = (radix arch).depth - (l + 1) + 1 by omega,
    Radix.find_found ht he]
  rfl

end

theorem path_succ_inj (h : (radix arch).path x (l + 1) = (radix arch).path va (l + 1)) :
    (radix arch).path x l = (radix arch).path va l ∧ arch.levelIndex l x = arch.levelIndex l va := by
  rw [path_succ_eq, path_succ_eq] at h
  exact ⟨append_inj_left' h rfl, singleton_inj.1 (append_inj_right' h rfl)⟩

/-! ## Pages -/

theorem view_page (ha : arch.Lawful) (root : Nat) (m : TableMem) (hva : 4096 ∣ va) (hd : d < 4096)
    (hx : (radix arch).path (va + d) arch.supportLevels = (radix arch).path va arch.supportLevels) :
    4096 ∣ (view arch root m va).1 ∧ (view arch root m va).1 < 2 ^ 64 ∧
      ((view arch root m (va + d) = (0, protNone) ∧ view arch root m va = (0, protNone)) ∨
        view arch root m (va + d) = ((view arch root m va).1 + d, (view arch root m va).2)) := by
  unfold view
  rw [Radix.lookup_congr hx]
  cases hf : (radix arch).lookup m.table root va with
  | none => exact ⟨dvd_zero _, Nat.two_pow_pos 64, .inl ⟨rfl, rfl⟩⟩
  | some r =>
    obtain ⟨l, pa, fl⟩ := r
    obtain ⟨hl, e, hs⟩ := Radix.find_eq_some _ hf
    have hl : l < arch.supportLevels := by
      rw [zero_add] at hl
      exact hl
    have hpa : 4096 ∣ pa := by
      unfold radix at hs
      dsimp only at hs
      split at hs
      · cases hs
      split at hs
      · cases hs
        exact (ha.pa_frame _ _ _).1
      split at hs <;> cases hs
    obtain ⟨q, hq⟩ := ha.size_dvd l
    have hpos := page_le ha hl
    have hmod : (va + d) % arch.pageSize l = va % arch.pageSize l + d := by
      obtain ⟨k, rfl⟩ := hva
      rw [hq] at hpos ⊢
      have hk : k % q < q := mod_lt _ (by omega)
      rw [mul_mod_mul_left, add_mod, mul_mod_mul_left,
        mod_eq_of_lt (by omega : d < 4096 * q), mod_eq_of_lt (by omega)]
    have hframe : 4096 ∣ pa + va % arch.pageSize l := by
      refine Nat.dvd_add hpa ((Nat.dvd_mod_iff (ha.size_dvd l)).2 hva)
    simp only [translate, hmod, ← add_assoc]
    have hdvd : 4096 ∣ (pa + va % arch.pageSize l) % 2 ^ 64 :=
      (dvd_mod_iff (by decide)).2 hframe
    have hlt : (pa + va % arch.pageSize l) % 2 ^ 64 < 2 ^ 64 := mod_lt _ (by decide)
    refine ⟨hdvd, hlt, .inr (Prod.ext ?_ rfl)⟩
    rw [← mod_add_mod, mod_eq_of_lt (by omega)]

theorem Sound.empty (ha : arch.Lawful) (hroot : 0 < root) (requests refused : Nat) :
    Sound arch Q root ⟨update (fun _ => none) root (some fun _ => 0), requests, refused⟩
      (update (fun _ => none) root (some [])) := by
  have hown : ∀ a p, update (fun _ => none) root (some ([] : List Nat)) a = some p →
      a = root ∧ p = [] := by
    intro a p h
    rw [update_apply] at h
    split_ifs at h
    exact ⟨‹_›, (Option.some.inj h).symm⟩
  have hmem : ∀ (a : Nat) (t : Nat → Pte),
      update (fun _ => none) root (some fun _ => 0) a = some t → t = fun _ => 0 := by
    intro a t h
    rw [update_apply] at h
    split_ifs at h
    exact (Option.some.inj h).symm
  refine ⟨⟨update_self _ _ _, fun a h => (hown a _ h).1, ?_, ?_, ?_, ?_⟩, ?_, ?_, ?_⟩
  · intro a p h
    obtain ⟨rfl, -⟩ := hown a p h
    exact ⟨fun _ => 0, by dsimp only; rw [update_self]⟩
  · intro a p h
    obtain ⟨-, rfl⟩ := hown a p h
    exact ha.levels
  · intro a p t i b _ ht hs
    rw [hmem a t ht, slot_zero ha] at hs
    cases hs
  · intro b p i h
    obtain ⟨-, h⟩ := hown b _ h
    exact absurd h (by simp)
  · show update (fun _ => none) root (some fun _ => (0 : Pte)) 0 = none
    rw [update_of_ne hroot.ne]
  · intro a t i ht _
    rw [hmem a t ht]
  · intro a p t i v _ ht hs
    rw [hmem a t ht, slot_zero ha] at hs
    cases hs

theorem view_empty (ha : arch.Lawful) (requests refused x : Nat) :
    view arch root ⟨update (fun _ => none) root (some fun _ => 0), requests, refused⟩ x =
      (0, protNone) := by
  have hd : (radix arch).depth = arch.supportLevels - 1 + 1 := (Nat.sub_add_cancel ha.levels).symm
  unfold view Radix.lookup
  rw [hd, Radix.find_empty (update_self _ _ _) (slot_zero ha)]
  rfl

/-! ## New tables -/

section NewTable

variable {b : Nat} {t' : Nat → Pte} (h : Sound arch Q root m own)

include h

theorem own_none (hb : m.table b = none) : own b = none := by
  cases ho : own b with
  | none => rfl
  | some q =>
    obtain ⟨t, ht⟩ := h.stored ho
    rw [hb] at ht
    cases ht

variable (ha : arch.Lawful)
include ha

/-- An entry that led to no table leads to a page outside the tree, which has no children. -/
theorem Sound.graft (hp : own a = some p) (ht : m.table a = some t)
    (hold : ∀ c, (radix arch).slot p.length (t i) ≠ .child c) (hb : own b = none)
    (htb : m.table b = some t') (hd : 4096 ∣ b) (hlt : b < 2 ^ 64)
    (hleaf : ∀ j c, (radix arch).slot (p.length + 1) (t' j) ≠ .child c)
    (hQ : ∀ j v, (radix arch).slot (p.length + 1) (t' j) = .leaf v → Q (p.length + 1) v)
    (hdepth : p.length + 1 < arch.supportLevels) :
    Sound arch Q root
        { m with table := Radix.store m.table a t i (arch.setEntry p.length .table e b protNone) }
        (update own b (some (p ++ [i]))) ∧
      ∀ x, view arch root
          { m with table := Radix.store m.table a t i (arch.setEntry p.length .table e b protNone) }
          x =
        if (radix arch).path x (p.length + 1) = p ++ [i] then
          translate arch x
            (((radix arch).slot (p.length + 1) (t' (arch.levelIndex (p.length + 1) x))).found
              (p.length + 1))
        else view arch root m x := by
  have hs := slot_setTable ha (e := e) hd hlt hdepth
  refine ⟨⟨h.placed.graft hp ht hold hb htb hleaf hdepth hs, store_null h.null ht,
    store_clean h.clean ht fun hv => ?_, fun c q s j v hc hcs hv => ?_⟩, fun x => ?_⟩
  · rw [ha.set_valid] at hv
    cases hv
  · rw [update_apply] at hc
    rcases Radix.store_entry ht hcs j with ⟨rfl, -, hj⟩ | ⟨s', hs', hj, -⟩
    · rw [if_neg (by rintro rfl; rw [hb] at hp; cases hp)] at hc
      cases hc.symm.trans hp
      rw [hj, hs] at hv
      cases hv
    · rw [hj] at hv
      split_ifs at hc with hcb
      · subst hcb
        cases hc
        cases htb.symm.trans hs'
        rw [length_append, length_singleton] at hv ⊢
        exact hQ j v hv
      · exact h.leaves c q s' j v hc hs' hv
  · unfold view
    rw [h.placed.lookup_graft hp ht hold hb htb hleaf hdepth hs]
    split
    · rfl
    · rfl

variable {A : TableAlloc}

/-- A new table without children that shows what the entry showed takes the entry's place. -/
theorem Sound.adopt (hp : own a = some ((radix arch).path va l)) (hi : arch.levelIndex l va = i)
    (ht : m.table a = some t)
    (hold : ∀ c, (radix arch).slot l (t i) ≠ .child c) (hdepth : l + 1 < arch.supportLevels)
    (hA : A.next m.requests m.table = some b)
    (hz : ∀ j, arch.entryIsValid (t' j) = false → t' j = 0)
    (hleaf : ∀ j c, (radix arch).slot (l + 1) (t' j) ≠ .child c)
    (hQ : ∀ j v, (radix arch).slot (l + 1) (t' j) = .leaf v → Q (l + 1) v)
    (hsame : ∀ x, translate arch x (((radix arch).slot (l + 1)
        (t' (arch.levelIndex (l + 1) x))).found (l + 1)) =
      translate arch x (((radix arch).slot l (t i)).found l)) :
    ∃ m₁ m', m.allocTable A t' = (some b, m₁) ∧
      m₁.write (a, i) (arch.setEntry l .table (t i) b protNone) = .ok m' ∧
      Sound arch Q root m' (update own b (some ((radix arch).path va (l + 1)))) ∧
      m'.read (a, i) = .ok (arch.setEntry l .table (t i) b protNone) ∧ SameView arch root m m' := by
  subst hi
  have hlen : ((radix arch).path va l).length = l := Radix.path_length
  have hfree := A.fresh hA
  obtain ⟨hd, hb0, hlt⟩ := A.frame hA
  let m₁ : TableMem := { m with table := update m.table b (some t'), requests := m.requests + 1 }
  obtain ⟨h₁, hv₁⟩ : Sound arch Q root m₁ own ∧ ∀ x, view arch root m₁ x = view arch root m x :=
    h.spare (own_none h hfree) rfl (fun h0 => absurd h0 hb0.ne') fun _ j he =>
      Option.some.inj he ▸ hz j
  have hab : a ≠ b := by
    rintro rfl
    rw [hfree] at ht
    cases ht
  have ht₁ : m₁.table a = some t := (update_of_ne hab ..).trans ht
  have hgraft := h₁.graft ha (e := t (arch.levelIndex l va)) hp ht₁ (hlen.symm ▸ hold)
    (own_none h hfree) (update_self _ _ _) hd hlt (hlen.symm ▸ hleaf) (hlen.symm ▸ hQ)
    (hlen.symm ▸ hdepth)
  rw [hlen, ← path_succ_eq] at hgraft
  obtain ⟨h₂, hv₂⟩ := hgraft
  refine ⟨m₁, _, by simp only [TableMem.allocTable, hA, m₁], write_eq ht₁, h₂, ?_, rfl, fun x => ?_⟩
  · rw [read_eq (Radix.store_self _), update_self]
  · rw [hv₂]
    split_ifs with hx
    · obtain ⟨hx, hi⟩ := path_succ_inj hx
      rw [hsame, h.view_entry hp ht hx (by rw [hi]) hold]
    · exact hv₁ x

omit h in
theorem splitTable_slot (hv : arch.entryIsLeaf e = true) (j : Nat) :
    (radix arch).slot (l + 1) (splitTable arch l e j) =
      if j < 512 then
        .leaf ((arch.entryGetPa l .page e + j * arch.pageSize (l + 1)) % 2 ^ 64,
          arch.entryGetFlags l e)
      else .empty := by
  have hd : 4096 ∣ (arch.entryGetPa l .page e + j * arch.pageSize (l + 1)) % 2 ^ 64 :=
    (Nat.dvd_mod_iff (by decide)).2 (Nat.dvd_add (ha.pa_frame l .page e).1
      ((ha.size_dvd (l + 1)).mul_left j))
  unfold splitTable
  rw [ha.entries]
  split
  · rw [slot_setPage ha (by rw [ha.leaf_flags, hv]) hd (mod_lt _ (by decide)), ha.rwxu_flags]
  · exact slot_zero ha

/-- A split is refused and changes nothing, or puts a table in the place of the leaf; the view
stays the same. -/
theorem split_spec (hQ : Splits arch Q) (hp : own a = some ((radix arch).path va l))
    (hi : arch.levelIndex l va = i) (ht : m.table a = some t)
    (hv : arch.entryIsValid (t i) = true) (hl : arch.entryIsLeaf (t i) = true)
    (hdepth : l + 1 < arch.supportLevels) :
    (split arch A m (a, i) l =
        .ok { m with requests := m.requests + 1, refused := m.refused + 1 }) ∨
      ∃ m' b, split arch A m (a, i) l = .ok m' ∧
        Sound arch Q root m' (update own b (some ((radix arch).path va (l + 1)))) ∧
        m'.read (a, i) = .ok (arch.setEntry l .table (t i) b protNone) ∧
        4096 ∣ b ∧ b < 2 ^ 64 ∧ own b = none ∧ SameView arch root m m' := by
  have hslot := slot_leaf (l := l) hv hl
  have hleaf := h.leaves a _ t i _ hp ht (by rw [Radix.path_length, hslot])
  rw [Radix.path_length] at hleaf
  unfold split
  rw [if_neg (by omega), read_eq ht]
  dsimp only [bind, Except.bind]
  cases hA : A.next m.requests m.table with
  | none => exact .inl (by simp [TableMem.allocTable, hA])
  | some b =>
    right
    obtain ⟨hd, -, hlt⟩ := A.frame hA
    have hclean : ∀ j, arch.entryIsValid (splitTable arch l (t i) j) = false →
        splitTable arch l (t i) j = 0 := by
      intro j hj
      unfold splitTable at hj ⊢
      split_ifs with hlt
      · rw [if_pos hlt, ha.set_valid] at hj
        cases hj
      · rfl
    have hparts : ∀ j v, (radix arch).slot (l + 1) (splitTable arch l (t i) j) = .leaf v →
        Q (l + 1) v := by
      intro j v hv
      rw [splitTable_slot ha hl] at hv
      split_ifs at hv with hj
      cases hv
      exact hQ _ _ _ _ hdepth hj hleaf
    obtain ⟨m₁, m', halloc, hwrite, h', hread, href, hview⟩ := h.adopt ha hp hi ht
      (by rw [hslot]; exact fun _ h => by cases h) hdepth hA hclean
      (fun j c hc => by rw [splitTable_slot ha hl] at hc; split at hc <;> cases hc) hparts
      (fun x => by
        rw [splitTable_slot ha hl, if_pos (ha.index_lt _ _), hslot]
        exact translate_split ha hdepth)
    exact ⟨m', b, by rw [halloc]; exact hwrite, h', hread, hd, hlt, own_none h (A.fresh hA), href,
      hview⟩

end NewTable

/-! ## The way back up -/

/-- The context holds the entries that a walk for `va` passed in its first `n` levels. -/
def Recorded (arch : PgtblArch) (own : Owner) (ctx : WalkCtx) (va n : Nat) : Prop :=
  ∀ j < n, own (ctx.table j) = some ((radix arch).path va j) ∧
    ctx.pte j = (ctx.table j, arch.levelIndex j va)

theorem Recorded.prune (h : Recorded arch own ctx va l) :
    Recorded arch (Radix.prune own ((radix arch).path va l)) ctx va l := by
  intro j hj
  refine ⟨Radix.prune_eq_some.2 ⟨(h j hj).1, fun hpre => ?_⟩, (h j hj).2⟩
  have := hpre.length_le
  rw [Radix.path_length, Radix.path_length] at this
  omega

theorem prune_self (h : own a = some p) : Radix.prune own p a = none := by
  cases hc : Radix.prune own p a with
  | none => rfl
  | some q =>
    obtain ⟨hq, hnot⟩ := Radix.prune_eq_some.1 hc
    cases h.symm.trans hq
    exact absurd (prefix_refl _) hnot

theorem Recorded.mono (h : Recorded arch own ctx va l) (hl : l' ≤ l) :
    Recorded arch own ctx va l' := fun j hj => h j (lt_of_lt_of_le hj hl)

section Up

variable (ha : arch.Lawful)
include ha

/-- Every entry of a table that is to be merged is part of one leaf. -/
theorem continues_slot (hall : ∀ i < 512, continues arch t (l + 1) i = true) (j : Nat)
    (hj : j < 512) :
    (radix arch).slot (l + 1) (t j) =
      .leaf ((arch.entryGetPa (l + 1) .page (t 0) + j * arch.pageSize (l + 1)) % 2 ^ 64,
        arch.entryGetFlags (l + 1) (t 0)) := by
  have hc := hall j hj
  simp only [continues, Bool.and_eq_true, Bool.or_eq_true, beq_iff_eq] at hc
  obtain ⟨⟨hv, hl⟩, hrest⟩ := hc
  rw [slot_leaf hv hl]
  rcases hrest with rfl | ⟨hpa, hfl⟩
  · simp only [zero_mul, add_zero, mod_eq_of_lt (ha.pa_frame _ _ _).2]
  · rw [hpa, hfl]

/-- A merge puts a leaf in the place of a table and leaves the view as it is. -/
theorem merge_spec (h : Sound arch Q root m own) (hr : Recorded arch own ctx va (l + 2))
    (ht : m.table (ctx.table (l + 1)) = some t)
    (hall : ∀ i < 512, continues arch t (l + 1) i = true)
    (hQ : ∀ pa fl, (∀ x, (radix arch).path x (l + 1) = (radix arch).path va (l + 1) →
      view arch root m x = translate arch x (some (l, pa, fl))) → Q l (pa, fl)) :
    ∃ m', merge arch m (l + 1) (ctx.table (l + 1)) (ctx.pte l) = .ok m' ∧
      Sound arch Q root m' (Radix.prune own ((radix arch).path va (l + 1))) ∧ SameView arch root m m' := by
  obtain ⟨hob, -⟩ := hr (l + 1) (lt_succ_self _)
  obtain ⟨hoa, hpte⟩ := hr l (by omega)
  obtain ⟨s, hs⟩ := h.stored hoa
  have hdepth : l + 1 < arch.supportLevels := by
    have := h.placed.level _ _ hob
    rwa [Radix.path_length] at this
  have hleaf0 : arch.entryIsLeaf (t 0) = true := by
    have := hall 0 (by decide)
    simp only [continues, Bool.and_eq_true] at this
    exact this.1.2
  have hslot : (radix arch).slot l (arch.setEntry l .page (s (arch.levelIndex l va))
      (arch.entryGetPa (l + 1) .page (t 0)) (arch.entryGetFlags (l + 1) (t 0))) =
      .leaf (arch.entryGetPa (l + 1) .page (t 0), arch.entryGetFlags (l + 1) (t 0)) := by
    rw [slot_setPage ha (by rw [ha.leaf_flags, hleaf0]) (ha.pa_frame _ _ _).1
      (ha.pa_frame _ _ _).2, ha.rwxu_flags]
  -- what the addresses of the table saw before is what they see through the new leaf
  have hbefore : ∀ x, (radix arch).path x (l + 1) = (radix arch).path va (l + 1) →
      view arch root m x = translate arch x
        (some (l, arch.entryGetPa (l + 1) .page (t 0), arch.entryGetFlags (l + 1) (t 0))) := by
    intro x hx
    rw [h.view_entry hob ht hx (continues_slot ha hall _ (ha.index_lt _ _)) nofun]
    exact translate_split ha hdepth
  obtain ⟨hcut, hvcut⟩ := h.cut hoa hs (by rw [hslot]; exact nofun)
    (fun hv => by rw [ha.set_valid] at hv; cases hv)
    (fun v hv => by rw [hslot] at hv; cases hv; exact hQ _ _ hbefore)
  obtain ⟨hfree, hview⟩ := hcut.free (prune_self hob)
  refine ⟨_, ?_, hfree, rfl, fun x => ?_⟩
  · simp [merge, tableAt_eq ht, hpte, read_eq hs, write_eq hs, bind, Except.bind]
  · rw [hview, hvcut, hslot]
    split_ifs with hx
    · rw [hbefore x hx]
      rfl
    · rfl

theorem mergeUp_spec : ∀ (l : Nat) {m : TableMem} {own : Owner}, Sound arch Q root m own →
    Recorded arch own ctx va (l + 1) →
    (∀ j pa fl, j < l → (∀ x, (radix arch).path x (j + 1) = (radix arch).path va (j + 1) →
      view arch root m x = translate arch x (some (j, pa, fl))) → Q j (pa, fl)) →
    ∃ m' own', mergeUp arch ctx l m = .ok m' ∧ Sound arch Q root m' own' ∧ SameView arch root m m'
  | 0, m, own, h, _, _ => ⟨m, own, rfl, h, rfl, fun _ => rfl⟩
  | l + 1, m, own, h, hr, hQ => by
    obtain ⟨t, ht⟩ := h.stored (hr (l + 1) (lt_succ_self _)).1
    have hneed : tableNeedMerge arch m (ctx.table (l + 1)) (l + 1) =
        .ok ((List.range 512).all (continues arch t (l + 1))) := by
      simp only [tableNeedMerge, add_one_ne_zero, if_false, tableAt_eq ht, bind, Except.bind]
      rfl
    cases hall : (List.range 512).all (continues arch t (l + 1)) with
    | false =>
      rw [hall] at hneed
      refine ⟨m, own, ?_, h, rfl, fun _ => rfl⟩
      simp only [mergeUp, hneed, bind, Except.bind]
      rfl
    | true =>
      rw [hall] at hneed
      have hall' : ∀ i < 512, continues arch t (l + 1) i = true := fun i hi =>
        all_eq_true.1 hall i (mem_range.2 hi)
      obtain ⟨m₁, he₁, h₁, href, hv₁⟩ := merge_spec ha h hr ht hall'
        (fun pa fl hx => hQ l pa fl (lt_succ_self l) hx)
      obtain ⟨m', own', he', h', href', hv'⟩ := mergeUp_spec l h₁ (hr.mono (le_succ _)).prune
        (fun j pa fl hj hx => hQ j pa fl (by omega) fun x hp => (hv₁ x).symm.trans (hx x hp))
      refine ⟨m', own', ?_, h', href'.trans href, fun x => (hv' x).trans (hv₁ x)⟩
      simp only [mergeUp, hneed, he₁, bind, Except.bind, if_true]
      exact he'

theorem cleanUp_spec : ∀ (l : Nat) {m : TableMem} {own : Owner}, Sound arch Q root m own →
    Recorded arch own ctx va (l + 1) →
    ∃ m' own', cleanUp arch ctx l m = .ok m' ∧ Sound arch Q root m' own' ∧ SameView arch root m m'
  | 0, m, own, h, _ => ⟨m, own, rfl, h, rfl, fun _ => rfl⟩
  | l + 1, m, own, h, hr => by
    obtain ⟨hob, -⟩ := hr (l + 1) (lt_succ_self _)
    obtain ⟨hoa, hpte⟩ := hr l (by omega)
    obtain ⟨t, ht⟩ := h.stored hob
    obtain ⟨s, hs⟩ := h.stored hoa
    have hempty : tableIsEmpty arch m (l + 1) (ctx.table (l + 1)) =
        .ok ((List.range 512).all fun i => !arch.entryIsValid (t i)) := by
      simp only [tableIsEmpty, tableAt_eq ht, bind, Except.bind, ha.entries]
    cases hall : (List.range 512).all fun i => !arch.entryIsValid (t i) with
    | false =>
      rw [hall] at hempty
      refine ⟨m, own, ?_, h, rfl, fun _ => rfl⟩
      simp only [cleanUp, hempty, bind, Except.bind]
      rfl
    | true =>
      rw [hall] at hempty
      have hinv : ∀ i < 512, arch.entryIsValid (t i) = false := fun i hi => by
        simpa using all_eq_true.1 hall i (mem_range.2 hi)
      obtain ⟨hcut, hvcut⟩ := h.clear ha hoa hs
      obtain ⟨hfree, hview⟩ := hcut.free (prune_self hob)
      obtain ⟨m', own', he', h', href', hv'⟩ := cleanUp_spec l hfree (hr.mono (le_succ _)).prune
      refine ⟨m', own', ?_, h', href', fun x => ?_⟩
      · simp only [cleanUp, hempty, hpte, write_eq hs, bind, Except.bind, if_true]
        exact he'
      · rw [hv', hview, hvcut]
        split_ifs with hx
        · rw [h.view_entry hob ht hx (slot_invalid (hinv _ (ha.index_lt _ _))) nofun]
          rfl
        · rfl

end Up

end Pgtbl

end ZzzOs.Mm
