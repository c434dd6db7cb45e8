import Mathlib.Data.List.Count
import Mathlib.Data.List.Nodup
import ZzzOs.Fs.Vfs.Model

/-!
# The dentry cache

The counts of the dentries and the references they hold to inodes, and what the changes of the cache
do to them. A cache is safe if the parent of each dentry is the one it was created below
(`Dcache.Safe`); only `dput` can end that (`Dcache.Safe.put`).
-/

namespace ZzzOs.Fs.Vfs

open Function Lib List

variable {c : Dcache} {a b p : Addr} {d d' pd : Dentry} {ino : Ino} {name : Qstr}

/-! ## Counts -/

structure Dcache.WF (c : Dcache) : Prop where
  nodup : c.table.Nodup
  mem : ∀ a, a ∈ c.table ↔ (c.dentries a).isSome
  positive : ∀ {a d}, c.dentries a = some d → 0 < d.dCount

/-- `d_count`, 0 for what is not a dentry. -/
def Dcache.count (c : Dcache) (a : Addr) : Nat := (c.dentries a).elim 0 Dentry.dCount

/-- The dentries of an inode. -/
def Dcache.inodeRefs (c : Dcache) (ino : Ino) : Nat :=
  c.table.countP fun a => decide ((c.dentries a).bind Dentry.dInode = some ino)

theorem count_eq (h : c.dentries a = some d) : c.count a = d.dCount := by rw [Dcache.count, h]; rfl

theorem allocated_of_count (h : 0 < c.count a) : ∃ d, c.dentries a = some d := by
  unfold Dcache.count at h
  cases hd : c.dentries a with
  | none =>
    rw [hd] at h
    exact absurd h (Nat.lt_irrefl 0)
  | some d => exact ⟨d, rfl⟩

section Set

variable (h : c.dentries a = some d) {i : Ino}

@[simp] theorem set_self : (c.set a d').dentries a = some d' := update_self ..

theorem set_of_ne (hb : b ≠ a) : (c.set a d').dentries b = c.dentries b :=
  update_of_ne hb ..

theorem count_set_self : (c.set a d').count a = d'.dCount := count_eq set_self

theorem count_set_of_ne (hb : b ≠ a) : (c.set a d').count b = c.count b := by
  rw [Dcache.count, set_of_ne hb]
  rfl

include h in
theorem Dcache.WF.set (hc : c.WF) (hpos : 0 < d'.dCount) : (c.set a d').WF where
  nodup := hc.nodup
  mem b := by
    by_cases hb : b = a
    · subst hb
      have hmem : b ∈ (c.set b d').table := (hc.mem b).2 (by rw [h]; rfl)
      simpa using hmem
    · rw [set_of_ne hb]
      exact hc.mem b
  positive {b e} he := by
    by_cases hb : b = a
    · subst hb
      rw [set_self] at he
      cases he
      exact hpos
    · rw [set_of_ne hb] at he
      exact hc.positive he

include h in
theorem inodeRefs_set (hsame : d'.dInode = d.dInode) :
    (c.set a d').inodeRefs ino = c.inodeRefs ino := by
  refine countP_congr fun b _ => ?_
  by_cases hb : b = a
  · subst hb
    simp [h, hsame]
  · rw [set_of_ne hb]

include h in
theorem inode_set (hsame : d'.dInode = d.dInode) :
    ((c.set a d').dentries b).bind Dentry.dInode = (c.dentries b).bind Dentry.dInode := by
  by_cases hb : b = a
  · subst hb
    rw [set_self, h]
    exact hsame
  · rw [set_of_ne hb]

variable (d') in
include h in
theorem inodeRefs_change (hc : c.WF) :
    (c.set a d').inodeRefs i + (if d.dInode = some i then 1 else 0) =
      c.inodeRefs i + if d'.dInode = some i then 1 else 0 := by
  have hmem : a ∈ c.table := (hc.mem a).2 (by rw [h]; rfl)
  obtain ⟨l₁, l₂, htable⟩ := append_of_mem hmem
  have hnot : a ∉ l₁ ++ l₂ := by
    have hnodup := hc.nodup
    rw [htable, nodup_middle] at hnodup
    exact (nodup_cons.1 hnodup).1
  have hother : ∀ l : List Addr, (∀ b ∈ l, b ∈ l₁ ++ l₂) →
      l.countP (fun b => decide (((c.set a d').dentries b).bind Dentry.dInode = some i)) =
        l.countP (fun b => decide ((c.dentries b).bind Dentry.dInode = some i)) := by
    refine fun l hl => countP_congr fun b hb => ?_
    have hba : b ≠ a := fun hba => hnot (hba ▸ hl b hb)
    rw [set_of_ne hba]
  have hself : decide (((c.set a d').dentries a).bind Dentry.dInode = some i) =
      decide (d'.dInode = some i) := by simp
  have hold : decide ((c.dentries a).bind Dentry.dInode = some i) = decide (d.dInode = some i) := by
    simp [h]
  have htable' : (c.set a d').table = l₁ ++ a :: l₂ := htable
  rw [Dcache.inodeRefs, Dcache.inodeRefs, htable', htable, countP_append, countP_append,
    countP_cons, countP_cons, hself, hold, hother l₁ fun b hb => mem_append_left _ hb,
    hother l₂ fun b hb => mem_append_right _ hb]
  simp only [decide_eq_true_eq]
  omega

include h in
theorem inodeRefs_link (hc : c.WF) (hnone : d.dInode = none) (hsome : d'.dInode = some ino) :
    (c.set a d').inodeRefs i = c.inodeRefs i + if i = ino then 1 else 0 := by
  have hchange := inodeRefs_change d' h hc (i := i)
  simpa [hnone, hsome, eq_comm] using hchange

end Set

section Remove

theorem remove_self : (c.remove a).dentries a = none := update_self ..

theorem remove_of_ne (hb : b ≠ a) : (c.remove a).dentries b = c.dentries b :=
  update_of_ne hb ..

theorem count_remove_of_ne (hb : b ≠ a) : (c.remove a).count b = c.count b := by
  rw [Dcache.count, remove_of_ne hb]
  rfl

theorem Dcache.WF.remove (hc : c.WF) : (c.remove a).WF where
  nodup := hc.nodup.erase a
  mem b := by
    rw [show (c.remove a).table = c.table.erase a from rfl, hc.nodup.mem_erase_iff]
    by_cases hb : b = a
    · subst hb
      simp [remove_self]
    · rw [remove_of_ne hb, hc.mem b]
      exact and_iff_right hb
  positive {b e} he := by
    by_cases hb : b = a
    · subst hb
      rw [remove_self] at he
      cases he
    · rw [remove_of_ne hb] at he
      exact hc.positive he

variable (ino) in
theorem inodeRefs_remove (hc : c.WF) (h : c.dentries a = some d) :
    (c.remove a).inodeRefs ino + (if d.dInode = some ino then 1 else 0) = c.inodeRefs ino := by
  have hmem : a ∈ c.table := (hc.mem a).2 (by rw [h]; rfl)
  have hsame : (c.remove a).inodeRefs ino = (c.table.erase a).countP fun b =>
      decide ((c.dentries b).bind Dentry.dInode = some ino) := by
    refine countP_congr fun b hb => ?_
    rw [remove_of_ne (hc.nodup.mem_erase_iff.1 hb).1]
  rw [hsame, Dcache.inodeRefs, (perm_cons_erase hmem).countP_eq, countP_cons]
  simp [h]

end Remove

section Add

variable (hfree : c.dentries a = none)

theorem add_self : (c.add a d).dentries a = some d := update_self ..

theorem add_of_ne (hb : b ≠ a) : (c.add a d).dentries b = c.dentries b :=
  update_of_ne hb ..

theorem count_add_self : (c.add a d).count a = d.dCount := count_eq add_self

theorem count_add_of_ne (hb : b ≠ a) : (c.add a d).count b = c.count b := by
  rw [Dcache.count, add_of_ne hb]
  rfl

include hfree

theorem Dcache.WF.not_mem (hc : c.WF) : a ∉ c.table := by
  rw [hc.mem a, hfree]
  exact Bool.false_ne_true

theorem Dcache.WF.add (hc : c.WF) (hpos : 0 < d.dCount) : (c.add a d).WF where
  nodup := nodup_cons.2 ⟨hc.not_mem hfree, hc.nodup⟩
  mem b := by
    rw [show (c.add a d).table = a :: c.table from rfl, mem_cons]
    by_cases hb : b = a
    · subst hb
      simp [add_self]
    · rw [add_of_ne hb, hc.mem b]
      exact or_iff_right hb
  positive {b e} he := by
    by_cases hb : b = a
    · subst hb
      rw [add_self] at he
      cases he
      exact hpos
    · rw [add_of_ne hb] at he
      exact hc.positive he

theorem inodeRefs_add (hc : c.WF) (hnone : d.dInode = none) :
    (c.add a d).inodeRefs ino = c.inodeRefs ino := by
  have hself : decide (((c.add a d).dentries a).bind Dentry.dInode = some ino) = false := by
    simp [add_self, hnone]
  rw [Dcache.inodeRefs, show (c.add a d).table = a :: c.table from rfl, countP_cons, hself]
  refine countP_congr fun b hb => ?_
  have hba : b ≠ a := fun hba => hc.not_mem hfree (hba ▸ hb)
  rw [add_of_ne hba]

end Add

/-! ## Parents -/

def Dcache.Safe (c : Dcache) : Prop := ∀ a d, c.dentries a = some d →
  ∃ p, c.dentries d.dParent = some p ∧ p.serial = d.parentSerial

/-- If this is the last reference to `a`, then no other dentry has it as its parent. -/
def Dcache.Leaves (c : Dcache) (a : Addr) : Prop := c.count a ≤ 1 →
  ∀ b d, c.dentries b = some d → d.dParent = a → b = a

/-- The parents of all dentries are allocated, and a lookup finds only children of the dentry that
is given as the parent. -/
structure Dcache.Sound (c : Dcache) : Prop where
  parent : ∀ a d, c.dentries a = some d → (c.dentries d.dParent).isSome
  lookup : ∀ p name a, c.dLookup p name = some a → ∃ d pd, c.dentries a = some d ∧
    c.dentries p = some pd ∧ d.parentSerial = pd.serial ∧ d.dName = name

theorem dLookup_some (h : c.dLookup p name = some a) :
    ∃ d, c.dentries a = some d ∧ d.dParent = p ∧ d.dName = name := by
  have hP := List.find?_some h
  cases hd : c.dentries a with
  | none =>
    rw [hd] at hP
    cases hP
  | some d =>
    rw [hd] at hP
    exact ⟨d, rfl, (of_decide_eq_true hP).2⟩

theorem Dcache.Safe.sound (h : c.Safe) : c.Sound where
  parent a d hd := by
    obtain ⟨p, hp, -⟩ := h a d hd
    rw [hp]
    rfl
  lookup p name a ha := by
    obtain ⟨d, hd, rfl, hname⟩ := dLookup_some ha
    obtain ⟨pd, hpd, hserial⟩ := h a d hd
    exact ⟨d, pd, hd, hpd, hserial.symm, hname⟩

theorem Dcache.Safe.set (hs : c.Safe) (h : c.dentries a = some d) (hparent : d'.dParent = d.dParent)
    (hserial : d'.serial = d.serial) (hup : d'.parentSerial = d.parentSerial) : (c.set a d').Safe := by
  have hold : ∀ {b e}, (c.set a d').dentries b = some e → ∃ e₀, c.dentries b = some e₀ ∧
      e.dParent = e₀.dParent ∧ e.parentSerial = e₀.parentSerial := by
    intro b e he
    by_cases hb : b = a
    · subst hb
      rw [set_self] at he
      cases he
      exact ⟨d, h, hparent, hup⟩
    · rw [set_of_ne hb] at he
      exact ⟨e, he, rfl, rfl⟩
  intro b e he
  obtain ⟨e₀, he₀, hp, hps⟩ := hold he
  obtain ⟨q, hq, hqs⟩ := hs b e₀ he₀
  rw [hp, hps]
  by_cases hqa : e₀.dParent = a
  · rw [hqa] at hq ⊢
    rw [h] at hq
    cases hq
    exact ⟨d', set_self, hserial.trans hqs⟩
  · exact ⟨q, by rw [set_of_ne hqa]; exact hq, hqs⟩

theorem Dcache.Safe.remove (hs : c.Safe)
    (hleaf : ∀ b d, c.dentries b = some d → d.dParent = a → b = a) : (c.remove a).Safe := by
  intro b e he
  have hb : b ≠ a := by
    rintro rfl
    rw [remove_self] at he
    cases he
  rw [remove_of_ne hb] at he
  obtain ⟨q, hq, hqs⟩ := hs b e he
  exact ⟨q, by rw [remove_of_ne fun hp => hb (hleaf b e he hp)]; exact hq, hqs⟩

theorem Dcache.Safe.add (hs : c.Safe) (hfree : c.dentries a = none)
    (hp : c.dentries d.dParent = some pd) (hserial : pd.serial = d.parentSerial) :
    (c.add a d).Safe := by
  have hold : ∀ {b e}, c.dentries b = some e → (c.add a d).dentries b = some e := by
    intro b e he
    rw [add_of_ne, he]
    rintro rfl
    rw [hfree] at he
    cases he
  intro b e he
  by_cases hb : b = a
  · subst hb
    rw [add_self] at he
    cases he
    exact ⟨pd, hold hp, hserial⟩
  · rw [add_of_ne hb] at he
    obtain ⟨q, hq, hqs⟩ := hs b e he
    exact ⟨q, hold hq, hqs⟩

/-- A reference less keeps the cache safe, if it was not the last one to a parent. -/
theorem Dcache.Safe.put (hs : c.Safe) (hleaf : c.Leaves a) : (c.put a).Safe := by
  unfold Dcache.put
  cases h : c.dentries a with
  | none => exact hs
  | some d =>
    dsimp only
    split_ifs with hle
    · exact hs.remove (hleaf (by rw [count_eq h]; exact hle))
    · exact hs.set h rfl rfl rfl

/-- The last reference to a parent leaves a dentry whose parent is freed. -/
theorem leaves_of_sound (hbefore : c.Sound) (hafter : (c.put a).Sound) : c.Leaves a := by
  intro hle b e he hp
  have hsome := hbefore.parent b e he
  rw [hp] at hsome
  obtain ⟨d, hd⟩ := Option.isSome_iff_exists.1 hsome
  rw [count_eq hd] at hle
  by_contra hb
  have hput : c.put a = c.remove a := by
    rw [Dcache.put, hd]
    exact if_pos hle
  rw [hput] at hafter
  have hgone := hafter.parent b e (by rw [remove_of_ne hb]; exact he)
  rw [hp, remove_self] at hgone
  cases hgone

/-! ## Reading dentries and mounts -/

section Read

variable {s : State} {m : Nat} {mnt : Vfsmount} {E : Stop → State → Prop}
  {Q : Dentry → State → Prop}

theorem dentryAt_eq (h : s.dcache.dentries a = some d) : dentryAt a s = .ok d s := by
  rw [dentryAt, h]

theorem mountAt_eq (h : s.mounts m = some mnt) : mountAt m s = .ok mnt s := by
  rw [mountAt, h]

theorem wp_dentryAt (h : s.dcache.dentries a = some d) : wp (dentryAt a) Q E s ↔ Q d s := by
  rw [wp, dentryAt_eq h]

theorem dentryAt_cases (hfreed : s.dcache.dentries a = none → E .freed s)
    (hdentry : ∀ d, s.dcache.dentries a = some d → Q d s) : wp (dentryAt a) Q E s := by
  cases hd : s.dcache.dentries a with
  | none =>
    rw [wp, dentryAt, hd]
    exact hfreed hd
  | some d => exact (wp_dentryAt hd).2 (hdentry d hd)

theorem wp_mountAt {Q : Vfsmount → State → Prop} (h : s.mounts m = some mnt) :
    wp (mountAt m) Q E s ↔ Q mnt s := by
  rw [wp, mountAt_eq h]

end Read

end ZzzOs.Fs.Vfs
