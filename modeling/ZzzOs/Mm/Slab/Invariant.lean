import ZzzOs.Lib.Linked
import ZzzOs.Mm.Slab.Layout
import Mathlib.Tactic.Abel

/-!
# The invariant of a cache

`Inv c s fl det objs`: `fl` spells out the free list of every slab, `det` lists the slabs that are set up
but not yet added, and `objs` are the objects outside the free lists. Each slot is in one of them, once.
`Inv.update` changes one slab, `Inv.insert` and `Inv.remove` add and drop one.
-/

namespace ZzzOs.Mm.Slabs

open Function Lib List

/-- An address as a pointer, with NULL at 0. -/
def ptr (a : Nat) : Option Nat := if a = 0 then none else some a

@[simp] theorem ptr_zero : ptr 0 = none := rfl

theorem ptr_of_ne {a : Nat} (h : a ≠ 0) : ptr a = some a := if_neg h

theorem ptr_eq_some {a b : Nat} (h : ptr a = some b) : a = b := by
  unfold ptr at h
  split_ifs at h
  exact Option.some.inj h

/-- The slabs on the lists of the cache. -/
def listed (s : Slabs) : List Nat := s.freeSlabs ++ s.partialSlabs ++ s.fullSlabs

def all (s : Slabs) (det : List Nat) : List Nat := s.listed ++ det

/-- The list a slab is on says how many of its objects are in use. -/
structure Classed (c : KmemCache) (s : Slabs) (det : List Nat) : Prop where
  free : ∀ x ∈ s.freeSlabs, (s.slab x).inuse = 0
  part : ∀ x ∈ s.partialSlabs, 0 < (s.slab x).inuse ∧ (s.slab x).inuse < c.objectsPerSlab
  full : ∀ x ∈ s.fullSlabs, (s.slab x).inuse = c.objectsPerSlab
  detached : ∀ x ∈ det, (s.slab x).inuse = 0

structure Inv (c : KmemCache) (s : Slabs) (fl : Nat → List Nat) (det : List Nat)
    (objs : Multiset Nat) : Prop where
  fits : Fits c
  page : ∀ x ∈ s.all det, PageOk x
  nodup : (s.all det).Nodup
  magic : ∀ x ∈ s.all det, (s.slab x).magic = slabMagic
  linked : ∀ x ∈ s.all det, Linked (fun a => ptr (s.next a)) (ptr (s.slab x).freeObject) (fl x)
  slot : ∀ x ∈ s.all det, ∀ o ∈ fl x, o ∈ slots c x
  inuse : ∀ x ∈ s.all det, (s.slab x).inuse + (fl x).length = c.objectsPerSlab
  cover : ((s.all det).map fun x => (fl x : Multiset Nat)).sum + objs =
    ((s.all det).map fun x => (slots c x : Multiset Nat)).sum
  classed : Classed c s det
  total : s.totalSlabs = s.listed.length

structure SlabOk (c : KmemCache) (s : Slabs) (l : List Nat) (x : Nat) : Prop where
  page : PageOk x
  magic : (s.slab x).magic = slabMagic
  linked : Linked (fun a => ptr (s.next a)) (ptr (s.slab x).freeObject) l
  slot : ∀ o ∈ l, o ∈ slots c x
  inuse : (s.slab x).inuse + l.length = c.objectsPerSlab

/-- The lists of a cache. -/
inductive Kind
  | free
  | part
  | full
  deriving DecidableEq

def list (s : Slabs) : Kind → List Nat
  | .free => s.freeSlabs
  | .part => s.partialSlabs
  | .full => s.fullSlabs

def Kind.Holds (c : KmemCache) (n : Nat) : Kind → Prop
  | .free => n = 0
  | .part => 0 < n ∧ n < c.objectsPerSlab
  | .full => n = c.objectsPerSlab

variable {s' s : Slabs} {l det' : List Nat} {k k' : Kind}

theorem SlabOk.congr {c : KmemCache} {x : Nat}
    (h : SlabOk c s l x) (hslab : s'.slab x = s.slab x) (hnext : ∀ q ∈ l, s'.next q = s.next q) :
    SlabOk c s' l x := by
  refine ⟨h.page, hslab ▸ h.magic, ?_, h.slot, hslab ▸ h.inuse⟩
  rw [hslab]
  exact h.linked.congr fun q hq => by rw [hnext q hq]

variable {y n q : Nat} {hdr : Slab}

namespace Inv

variable {c : KmemCache} {s : Slabs} {fl : Nat → List Nat} {det : List Nat}
  {objs objs' : Multiset Nat} {x o : Nat}

theorem of_ok (hfits : Fits c) (hnd : (s.all det).Nodup)
    (hok : ∀ x ∈ s.all det, SlabOk c s (fl x) x)
    (hcover : ((s.all det).map fun x => (fl x : Multiset Nat)).sum + objs =
      ((s.all det).map fun x => (slots c x : Multiset Nat)).sum)
    (hclass : Classed c s det) (htotal : s.totalSlabs = s.listed.length) :
    Inv c s fl det objs :=
  ⟨hfits, fun x hx => (hok x hx).page, hnd, fun x hx => (hok x hx).magic,
    fun x hx => (hok x hx).linked, fun x hx => (hok x hx).slot, fun x hx => (hok x hx).inuse,
    hcover, hclass, htotal⟩

/-! ## Consequences -/

variable (h : Inv c s fl det objs)

include h

theorem total_nodup : (((s.all det).map fun x => (fl x : Multiset Nat)).sum + objs).Nodup := by
  rw [h.cover]
  exact slots_sum_nodup h.fits h.nodup fun x hx => (h.page x hx).aligned

/-- An object outside the free lists is a slot of a slab, which counts it as used. -/
theorem obj_slab (ho : o ∈ objs) : ∃ x ∈ s.all det, o ∈ slots c x ∧ o ∉ fl x := by
  have hm : o ∈ ((s.all det).map fun x => (slots c x : Multiset Nat)).sum := by
    rw [← h.cover]
    exact Multiset.mem_add.2 (.inr ho)
  obtain ⟨x, hx, hox⟩ := mem_sum_map.1 hm
  refine ⟨x, hx, hox, fun hfl => ?_⟩
  exact Multiset.disjoint_left.1 (Multiset.nodup_add.1 h.total_nodup).2.2
    (mem_sum_map.2 ⟨x, hx, hfl⟩) ho

theorem objs_nodup : objs.Nodup :=
  (Multiset.nodup_add.1 h.total_nodup).2.1

section

variable (hx : x ∈ s.all det)

include hx

theorem fl_nodup : (fl x).Nodup :=
  (h.linked x hx).nodup

theorem fl_length_lt (ho : o ∈ slots c x) (hfl : o ∉ fl x) : (fl x).length < c.objectsPerSlab := by
  have hsub : (o :: fl x).Subperm (slots c x) :=
    subperm_of_subset (nodup_cons.2 ⟨hfl, h.fl_nodup hx⟩) (cons_subset.2 ⟨ho, h.slot x hx⟩)
  have := hsub.length_le
  rwa [length_cons, slots_length] at this

theorem fl_perm_slots (hlen : (fl x).length = c.objectsPerSlab) : (fl x).Perm (slots c x) := by
  refine List.Subperm.perm_of_length_le ?_ (by rw [slots_length, hlen])
  exact subperm_of_subset (h.fl_nodup hx) (h.slot x hx)

theorem valid_iff : slabObjIsValid c x o = true ↔ o = 0 ∨ o ∈ slots c x :=
  slabObjIsValid_iff h.fits (h.page x hx)

theorem objToSlab_eq (ho : o ∈ slots c x) : objToSlab o = x :=
  objToSlab_slot h.fits (h.page x hx).aligned ho

theorem owner_eq (hy : y ∈ s.all det) (ho : o ∈ slots c x) (hq : o ∈ fl y) : x = y := by
  rw [← h.objToSlab_eq hx ho, ← h.objToSlab_eq hy (h.slot y hy o hq)]

theorem fl_ne (hy : y ∈ s.all det) (hne : y ≠ x) (ho : o ∈ slots c x) (hq : q ∈ fl y) : q ≠ o := by
  rintro rfl
  exact hne (h.owner_eq hx hy ho hq).symm

end

/-! ## Moves -/

theorem ok (hx : x ∈ s.all det) : SlabOk c s (fl x) x :=
  ⟨h.page x hx, h.magic x hx, h.linked x hx, h.slot x hx, h.inuse x hx⟩

/-- One slab gets a new header and free list; the others keep theirs. -/
theorem update (hx : x ∈ s.all det)
    (hperm : (s'.listed).Perm s.listed) (hslab : s'.slab = Function.update s.slab x hdr)
    (hnext : ∀ y ∈ s.all det, y ≠ x → ∀ q ∈ fl y, s'.next q = s.next q)
    (hmagic : hdr.magic = slabMagic)
    (hlinked : Linked (fun a => ptr (s'.next a)) (ptr hdr.freeObject) l)
    (hslot : ∀ q ∈ l, q ∈ slots c x) (hinuse : hdr.inuse + l.length = c.objectsPerSlab)
    (hcover : (l : Multiset Nat) + objs' = fl x + objs) (hclass : Classed c s' det)
    (htotal : s'.totalSlabs = s.totalSlabs) : Inv c s' (Function.update fl x l) det objs' := by
  have hall : (s'.all det).Perm (s.all det) := hperm.append_right det
  refine of_ok h.fits (hall.nodup_iff.2 h.nodup) ?_ ?_ hclass ?_
  · intro y hy
    have hy := hall.mem_iff.1 hy
    by_cases e : y = x
    · subst e
      have hself : s'.slab y = hdr := by rw [hslab, update_self]
      rw [update_self]
      exact ⟨h.page y hy, hself ▸ hmagic, hself ▸ hlinked, hslot, hself ▸ hinuse⟩
    · rw [update_of_ne e]
      exact (h.ok hy).congr (by rw [hslab, update_of_ne e]) (hnext y hy e)
  · rw [(hall.map _).sum_eq, (hall.map fun y => (slots c y : Multiset Nat)).sum_eq, ← h.cover]
    have e := sum_map_update_add (f := fl) (F := fun l => (l : Multiset Nat)) h.nodup hx l
    have e' : ((s.all det).map fun y => (Function.update fl x l y : Multiset Nat)).sum +
        (fl x : Multiset Nat) + objs' =
        ((s.all det).map fun y => (fl y : Multiset Nat)).sum + objs + (fl x : Multiset Nat) := by
      rw [e, add_assoc, hcover]
      abel
    refine add_right_cancel (b := (fl x : Multiset Nat)) ?_
    rw [← e']
    abel
  · rw [htotal, h.total, hperm.length_eq]

theorem relist (hall : (s'.all det').Perm (s.all det))
    (hslab : s'.slab = s.slab) (hnext : s'.next = s.next) (hclass : Classed c s' det')
    (htotal : s'.totalSlabs = s'.listed.length) : Inv c s' fl det' objs := by
  refine of_ok h.fits (hall.nodup_iff.2 h.nodup) ?_ ?_ hclass htotal
  · intro y hy
    exact (h.ok (hall.mem_iff.1 hy)).congr (congrFun hslab y) fun q _ => congrFun hnext q
  · rw [(hall.map _).sum_eq, (hall.map fun y => (slots c y : Multiset Nat)).sum_eq, h.cover]

theorem remove (hperm : (x :: s'.listed).Perm s.listed)
    (hslab : ∀ y ≠ x, s'.slab y = s.slab y) (hnext : s'.next = s.next)
    (hfree : (s.slab x).inuse = 0) (hclass : Classed c s' det)
    (htotal : s'.totalSlabs + 1 = s.totalSlabs) : Inv c s' fl det objs := by
  have hall : (x :: s'.all det).Perm (s.all det) := hperm.append_right det
  have hnd := nodup_cons.1 (hall.nodup_iff.2 h.nodup)
  have hx : x ∈ s.all det := hall.mem_iff.1 mem_cons_self
  refine of_ok h.fits hnd.2 ?_ ?_ hclass ?_
  · intro y hy
    have hne : y ≠ x := fun e => hnd.1 (e ▸ hy)
    exact (h.ok (hall.mem_iff.1 (mem_cons_of_mem _ hy))).congr (hslab y hne) fun q _ =>
      congrFun hnext q
  · have hlen : (fl x).length = c.objectsPerSlab := by
      have := h.inuse x hx
      omega
    have hcov := h.cover
    rw [← (hall.map _).sum_eq, ← (hall.map fun y => (slots c y : Multiset Nat)).sum_eq,
      map_cons, map_cons, sum_cons, sum_cons,
      Multiset.coe_eq_coe.2 (h.fl_perm_slots hx hlen), add_assoc] at hcov
    exact add_left_cancel hcov
  · have hlen := hperm.length_eq
    rw [length_cons] at hlen
    have := h.total
    omega

theorem insert (hp : PageOk x) (hx : x ∉ s.all det) (hlisted : s'.listed = s.listed)
    (htotal : s'.totalSlabs = s.totalSlabs) (hslab : ∀ y ≠ x, s'.slab y = s.slab y)
    (hself : (s'.slab x).magic = slabMagic) (hzero : (s'.slab x).inuse = 0)
    (hnext : ∀ y ∈ s.all det, ∀ q ∈ fl y, s'.next q = s.next q)
    (hlinked : Linked (fun a => ptr (s'.next a)) (ptr (s'.slab x).freeObject) (slots c x))
    (hclass : Classed c s' (x :: det)) :
    Inv c s' (Function.update fl x (slots c x)) (x :: det) objs := by
  have hall : (s'.all (x :: det)).Perm (x :: s.all det) := by
    unfold all
    rw [hlisted]
    exact perm_middle
  refine of_ok h.fits (hall.nodup_iff.2 (nodup_cons.2 ⟨hx, h.nodup⟩)) ?_ ?_ hclass
    (by rw [htotal, hlisted, h.total])
  · intro y hy
    by_cases e : y = x
    · subst e
      rw [update_self]
      exact ⟨hp, hself, hlinked, fun o ho => ho, by rw [hzero, slots_length, Nat.zero_add]⟩
    · have hy := (mem_cons.1 (hall.mem_iff.1 hy)).resolve_left e
      rw [update_of_ne e]
      exact (h.ok hy).congr (hslab y e) (hnext y hy)
  · rw [(hall.map _).sum_eq, (hall.map fun y => (slots c y : Multiset Nat)).sum_eq, map_cons,
      map_cons, sum_cons, sum_cons, update_self, ← h.cover, add_assoc]
    congr 3
    refine map_congr_left fun y hy => ?_
    rw [update_of_ne]
    rintro rfl
    exact hx hy

end Inv

/-! ## Moving a slab between lists -/

section Lists

variable {c : KmemCache} {s : Slabs} {det : List Nat} {x : Nat}

theorem mem_listed : y ∈ s.listed ↔ ∃ k, y ∈ s.list k := by
  unfold listed
  rw [mem_append, mem_append]
  constructor
  · rintro ((h | h) | h)
    · exact ⟨.free, h⟩
    · exact ⟨.part, h⟩
    · exact ⟨.full, h⟩
  · rintro ⟨_ | _ | _, h⟩
    · exact .inl (.inl h)
    · exact .inl (.inr h)
    · exact .inr h

theorem listDel_perm (hnd : s.listed.Nodup) (hx : x ∈ s.listed) :
    (x :: (s.listDel x).listed).Perm s.listed := by
  have herase : (s.listDel x).listed = s.listed.erase x := by
    unfold listed at hnd ⊢
    obtain ⟨h12, h3, h123⟩ := nodup_append.1 hnd
    obtain ⟨h1, h2, h12'⟩ := nodup_append.1 h12
    dsimp only [listDel]
    by_cases e1 : x ∈ s.freeSlabs
    · have e2 : x ∉ s.partialSlabs := fun hm => h12' x e1 x hm rfl
      have e3 : x ∉ s.fullSlabs := fun hm => h123 x (mem_append.2 (.inl e1)) x hm rfl
      rw [erase_of_not_mem e2, erase_of_not_mem e3, erase_append_left _
        (mem_append.2 (.inl e1)), erase_append_left _ e1]
    · rw [erase_of_not_mem e1]
      by_cases e2 : x ∈ s.partialSlabs
      · have e3 : x ∉ s.fullSlabs := fun hm => h123 x (mem_append.2 (.inr e2)) x hm rfl
        rw [erase_of_not_mem e3, erase_append_left _ (mem_append.2 (.inr e2)),
          erase_append_right _ e1]
      · have e12 : x ∉ s.freeSlabs ++ s.partialSlabs := by simp [e1, e2]
        rw [erase_of_not_mem e2, erase_append_right _ e12]
  rw [herase]
  exact (perm_cons_erase hx).symm

theorem mem_listDel (hnd : s.listed.Nodup) (k : Kind) :
    y ∈ (s.listDel x).list k ↔ y ≠ x ∧ y ∈ s.list k := by
  obtain ⟨h12, h3, -⟩ := nodup_append.1 hnd
  obtain ⟨h1, h2, -⟩ := nodup_append.1 h12
  cases k with
  | free => exact h1.mem_erase_iff
  | part => exact h2.mem_erase_iff
  | full => exact h3.mem_erase_iff

/-- A slab pushed on one of the lists is new there only. -/
theorem list_push (j : Kind)
    (hlist : ∀ k, s'.list k = if k = j then x :: s.list k else s.list k) (hy : y ∈ s'.list k) :
    y = x ∧ k = j ∨ y ∈ s.list k := by
  rw [hlist] at hy
  split at hy
  · rename_i e
    exact (mem_cons.1 hy).imp_left fun hyx => ⟨hyx, e⟩
  · exact .inr hy

theorem Kind.Holds.unique (hpos : 0 < c.objectsPerSlab)
    (h : k.Holds c n) (h' : k'.Holds c n) : k = k' := by
  cases k <;> cases k' <;> first | rfl | (dsimp only [Holds] at h h'; omega)

theorem Classed.holds (h : Classed c s det) (k : Kind) (hy : y ∈ s.list k) :
    k.Holds c (s.slab y).inuse := by
  cases k with
  | free => exact h.free y hy
  | part => exact h.part y hy
  | full => exact h.full y hy

theorem Classed.of_holds (h : ∀ k, ∀ y ∈ s.list k, k.Holds c (s.slab y).inuse)
    (hdet : ∀ y ∈ det, (s.slab y).inuse = 0) : Classed c s det :=
  ⟨h .free, h .part, h .full, hdet⟩

/-- A slab with a new header may be on the list the header asks for; the others stay. -/
theorem Classed.move (h : Classed c s det) (hslab : s'.slab = update s.slab x hdr) (hdet : x ∉ det)
    (hon : ∀ k, ∀ y ∈ s'.list k, (y = x ∧ k.Holds c hdr.inuse) ∨ (y ≠ x ∧ y ∈ s.list k)) :
    Classed c s' det := by
  have hne : ∀ y, y ≠ x → s'.slab y = s.slab y := fun y hy => by
    rw [hslab, update_of_ne hy]
  refine .of_holds ?_ ?_
  · intro k y hy
    rcases hon k y hy with ⟨rfl, e⟩ | ⟨e, hm⟩
    · rw [hslab, update_self]; exact e
    · rw [hne y e]; exact h.holds k hm
  · intro y hy
    rw [hne y (fun e => hdet (e ▸ hy))]
    exact h.detached y hy

theorem Classed.push (h : Classed c s det) (hnd : s.listed.Nodup)
    (j : Kind) (hslab : s'.slab = update s.slab x hdr) (hdet : x ∉ det)
    (hlist : ∀ k, s'.list k = if k = j then x :: (s.listDel x).list k else (s.listDel x).list k)
    (hk : j.Holds c hdr.inuse) : Classed c s' det := by
  refine h.move hslab hdet fun k y hy => ?_
  rcases list_push j hlist hy with ⟨rfl, rfl⟩ | hy
  · exact .inl ⟨rfl, hk⟩
  · exact .inr ((mem_listDel hnd k).1 hy)

end Lists

end ZzzOs.Mm.Slabs
