import ZzzOs.Mm.Slab.Invariant

/-!
# The locked sections of a cache

What each section under the cache lock does to the invariant: objects go from a free list to
a magazine and back, slabs come and go. No section reaches a `panic` branch, and none touches
the magazines of other CPUs or the limits.
-/

namespace ZzzOs.Mm.Slabs

open Function Lib List Nat

def SameMagazines (s s' : Slabs) : Prop :=
  s'.cpu = s.cpu ∧ s'.magLimit = s.magLimit ∧ s'.magBatch = s.magBatch

section Sections

variable {c : KmemCache} {s s' : Slabs} {fl : Nat → List Nat} {det l : List Nat}
  {objs : Multiset Nat} {x o head : Nat} {hdr : Slab} {next : Nat → Nat}

theorem objectsPerSlab_lt (hf : Fits c) : c.objectsPerSlab < 2 ^ 32 := by
  have h1 := mul_le_mul_left c.objectsPerSlab hf.size
  have h2 := hf.area
  omega

theorem mem_all_of_listed (hx : x ∈ s.listed) : x ∈ s.all det := mem_append.2 (.inl hx)

theorem Inv.listed_nodup (h : Inv c s fl det objs) : s.listed.Nodup :=
  (nodup_append.1 h.nodup).1

theorem Inv.not_det (h : Inv c s fl det objs) (hx : x ∈ s.listed) : x ∉ det := fun hd =>
  (nodup_append.1 h.nodup).2.2 x hx x hd rfl

/-! ## Allocation -/

/-- The slab that allocation picks has a free object, and only it may change its list. -/
theorem pickPartial_spec (h : Inv c s fl det objs) :
    s.pickPartial = none ∨ ∃ x s₁, s.pickPartial = some (x, s₁) ∧ x ∈ s.listed ∧
      s₁.listed.Perm s.listed ∧ x ∈ s₁.partialSlabs ∧ (s.slab x).inuse < c.objectsPerSlab ∧
      (s₁.slab = s.slab ∧ s₁.next = s.next ∧ s₁.totalSlabs = s.totalSlabs ∧ SameMagazines s s₁) ∧
      ∀ k, ∀ y ∈ s₁.list k, y = x ∧ k = .part ∨ y ≠ x ∧ y ∈ s.list k := by
  have hcl := h.classed
  have hpos := h.fits.some_slot
  cases hp : s.partialSlabs with
  | cons x ps =>
    have hx : x ∈ s.partialSlabs := by simp [hp]
    have hxi := hcl.part x hx
    refine .inr ⟨x, s, by simp [pickPartial, hp], mem_listed.2 ⟨.part, hx⟩,
      List.Perm.refl _, by simp [hp], hxi.2, ⟨rfl, rfl, rfl, rfl, rfl, rfl⟩, fun k y hy => ?_⟩
    by_cases e : y = x
    · subst e
      exact .inl ⟨rfl, Kind.Holds.unique hpos (hcl.holds k hy) (hcl.holds .part hx)⟩
    · exact .inr ⟨e, hy⟩
  | nil =>
    cases hfr : s.freeSlabs with
    | nil => exact .inl (by simp [pickPartial, hp, hfr])
    | cons x fs =>
      have hx : x ∈ s.freeSlabs := by simp [hfr]
      have hxl : x ∈ s.listed := mem_listed.2 ⟨.free, hx⟩
      refine .inr ⟨x, { s.listDel x with partialSlabs := x :: (s.listDel x).partialSlabs },
        by simp only [pickPartial, hp, hfr], hxl, ?_, mem_cons_self, ?_,
        ⟨rfl, rfl, rfl, rfl, rfl, rfl⟩, fun k y hy => ?_⟩
      · refine List.Perm.trans ?_ (listDel_perm h.listed_nodup hxl)
        simp only [listed, append_assoc]
        exact perm_middle
      · rw [hcl.free x hx]; exact hpos
      · exact (list_push .part (fun k => by cases k <;> rfl) hy).imp_right
          (mem_listDel h.listed_nodup k).1

theorem allocObj_eq (hhead : (s.slab x).freeObject = o) (ho : o ≠ 0)
    (hv : slabObjIsValid c x o = true) (hv' : slabObjIsValid c x (s.next o) = true)
    (hi : (s.slab x).inuse + 1 < 2 ^ 32)
    (hhdr : hdr = ⟨(s.slab x).magic, s.next o, (s.slab x).inuse + 1⟩)
    (hs' : s' = { s with slab := update s.slab x hdr }) :
    allocObj c s x = .ok (some o, if (s.slab x).inuse + 1 ≥ c.objectsPerSlab then
      { s'.listDel x with fullSlabs := x :: (s'.listDel x).fullSlabs } else s') := by
  have hset : s.setSlab x (fun h => { h with freeObject := s.next o, inuse := (h.inuse + 1) % 2 ^ 32 })
      = s' := by
    rw [setSlab, mod_eq_of_lt hi, hs', hhdr]
  have hinuse : (s'.slab x).inuse = (s.slab x).inuse + 1 := by
    rw [hs', hhdr]; simp
  unfold allocObj
  rw [hhead]
  dsimp only
  rw [if_neg ho, hv, hv', hset, hinuse]
  simp only [Bool.not_true, Bool.false_eq_true, if_false]
  split <;> rfl

theorem kmemCacheAllocLocked_spec (h : Inv c s fl det objs) :
    kmemCacheAllocLocked c s = .ok (none, s) ∨
      ∃ o s' fl', kmemCacheAllocLocked c s = .ok (some o, s') ∧
        Inv c s' fl' det (o ::ₘ objs) ∧ s'.listed.Perm s.listed ∧ SameMagazines s s' := by
  rcases pickPartial_spec h with hn | ⟨x, s₁, he, hx, hperm, hxp, hlt, ⟨hsl, hnx, htot, hsame⟩, hon⟩
  · exact .inl (by rw [kmemCacheAllocLocked, hn])
  right
  have hxa : x ∈ s.all det := mem_all_of_listed hx
  have hin := h.inuse x hxa
  -- the free list of the picked slab starts with the object it hands out
  obtain ⟨o, l, hfl⟩ : ∃ o l, fl x = o :: l := by
    cases hl : fl x with
    | nil => rw [hl, length_nil] at hin; omega
    | cons o l => exact ⟨o, l, rfl⟩
  have hlink := h.linked x hxa
  rw [hfl] at hlink hin
  have ho : o ∈ slots c x := h.slot x hxa o (by simp [hfl])
  have hhead : (s₁.slab x).freeObject = o := by rw [hsl]; exact ptr_eq_some hlink.1
  have hnextv : slabObjIsValid c x (s₁.next o) = true := by
    rw [h.valid_iff hxa, hnx]
    by_cases e : s.next o = 0
    · exact .inl e
    · have h2 := hlink.2
      beta_reduce at h2
      rw [ptr_of_ne e] at h2
      obtain ⟨l', hl', -⟩ := h2.exists_cons
      exact .inr (h.slot x hxa _ (by rw [hfl, hl']; simp))
  have hbig := objectsPerSlab_lt h.fits
  have heval := allocObj_eq hhead (slot_ne_zero h.fits ho) ((h.valid_iff hxa).2 (.inr ho)) hnextv
    (by rw [hsl]; omega) rfl rfl
  rw [hsl, hnx] at heval
  set hdr : Slab := ⟨(s.slab x).magic, s.next o, (s.slab x).inuse + 1⟩ with hhdr
  have hkeep : ∀ s' : Slabs, s'.listed.Perm s.listed → s'.slab = update s.slab x hdr →
      s'.next = s.next → s'.totalSlabs = s.totalSlabs → Classed c s' det →
      Inv c s' (update fl x l) det (o ::ₘ objs) := by
    intro s' hp' hs' hn' ht' hc'
    refine h.update hxa hp' hs' (fun y _ _ q _ => by rw [hn']) (h.magic x hxa)
      (by rw [hn']; exact hlink.2) ?_ ?_ ?_ hc' ht'
    · intro q hq; exact h.slot x hxa q (by simp [hfl, hq])
    · rw [length_cons] at hin; dsimp only [hdr]; omega
    · rw [hfl, ← Multiset.cons_coe, ← Multiset.singleton_add, ← Multiset.singleton_add]
      abel
  refine ⟨o, _, update fl x l, by rw [kmemCacheAllocLocked, he]; exact heval, ?_⟩
  have hnd₁ : s₁.listed.Nodup := hperm.nodup_iff.2 h.listed_nodup
  split
  · have hp' : (x :: (s₁.listDel x).listed).Perm s₁.listed :=
      listDel_perm hnd₁ (mem_listed.2 ⟨.part, hxp⟩)
    have hp : (({ s₁.listDel x with slab := update s.slab x hdr, fullSlabs :=
        x :: (s₁.listDel x).fullSlabs } : Slabs).listed).Perm s.listed := by
      refine List.Perm.trans ?_ (hp'.trans hperm)
      exact perm_middle
    refine ⟨hkeep _ hp rfl rfl htot ?_, hp, hsame⟩
    refine h.classed.move rfl (h.not_det hx) fun k y hy => ?_
    rcases list_push (s := s₁.listDel x) (x := x) .full (fun k => by cases k <;> rfl) hy with
      ⟨rfl, rfl⟩ | hy
    · exact .inl ⟨rfl, by dsimp only [hdr, Kind.Holds]; omega⟩
    · obtain ⟨hne, hy⟩ := (mem_listDel hnd₁ k).1 hy
      exact .inr ((hon k y hy).resolve_left fun e => hne e.1)
  · refine ⟨hkeep _ hperm rfl rfl htot ?_, hperm, hsame⟩
    refine h.classed.move rfl (h.not_det hx) fun k y hy => ?_
    rcases hon k y hy with ⟨rfl, rfl⟩ | hy
    · exact .inl ⟨rfl, succ_pos _, by dsimp only [hdr]; omega⟩
    · exact .inr hy

/-! ## Release -/

theorem slabObjIsFree_of_not_mem (ho : o ∉ l)
    (hv : ∀ q ∈ l, slabObjIsValid c x q = true) : ∀ {fuel cur : Nat},
    Linked (fun a => ptr (next a)) (ptr cur) l → l.length ≤ fuel →
    slabObjIsFree c next x o fuel cur = .ok false := by
  induction l with
  | nil =>
    intro fuel cur hl _
    have hcur : cur = 0 := by
      by_contra hne
      rw [Linked.nil_iff, ptr_of_ne hne] at hl
      cases hl
    unfold slabObjIsFree
    rw [if_pos hcur]
  | cons q l ih =>
    intro fuel cur hl hlen
    obtain rfl := ptr_eq_some hl.1
    have hne : cur ≠ 0 := by
      rintro rfl
      cases hl.1
    have hco : cur ≠ o := fun e => ho (e ▸ mem_cons_self)
    have hval := hv cur mem_cons_self
    cases fuel with
    | zero => simp at hlen
    | succ fuel =>
      have hrest := ih (fun hm => ho (mem_cons_of_mem _ hm))
        (fun q hq => hv q (mem_cons_of_mem _ hq)) hl.2 (le_of_succ_le_succ hlen)
      unfold slabObjIsFree
      simp [hne, hval, hco, hrest]

/-- The slab of an object in use is on a list. -/
theorem Inv.in_use (h : Inv c s fl det objs) (hx : x ∈ s.all det) (ho : o ∈ slots c x)
    (hfl : o ∉ fl x) : x ∈ s.listed ∧ 0 < (s.slab x).inuse ∧
      (s.slab x).inuse ≤ c.objectsPerSlab := by
  have hlen := h.fl_length_lt hx ho hfl
  have hin := h.inuse x hx
  have hpos : 0 < (s.slab x).inuse := by omega
  have hnd : x ∉ det := fun hm => by have := h.classed.detached x hm; omega
  exact ⟨(mem_append.1 hx).resolve_right hnd, hpos, by omega⟩

theorem linked_push (hl : Linked (fun a => ptr (next a)) (ptr head) l) (ho : o ∉ l) (ho0 : o ≠ 0) :
    Linked (fun a => ptr (update next o head a)) (ptr o) (o :: l) := by
  rw [ptr_of_ne ho0]
  refine (hl.push ho).congr fun b _ => ?_
  by_cases e : b = o
  · subst e; simp
  · simp [update_of_ne e]

theorem freeObj_eq (hpos : 0 < (s.slab x).inuse) (hlt : (s.slab x).inuse < 2 ^ 32)
    (hhdr : hdr = ⟨(s.slab x).magic, o, (s.slab x).inuse - 1⟩)
    (hs' : s' = { s with
      slab := update s.slab x hdr
      next := update s.next o (s.slab x).freeObject }) :
    freeObj c s x o =
      if (s.slab x).inuse - 1 = 0 then
        (some x, { (s'.listDel x).setSlab x (fun h => { h with magic := 0 }) with
          totalSlabs := s.totalSlabs - 1 })
      else if (s.slab x).inuse - 1 = c.objectsPerSlab - 1 then
        (none, { s'.listDel x with partialSlabs := x :: (s'.listDel x).partialSlabs })
      else (none, s') := by
  have hmod : ((s.slab x).inuse + (2 ^ 32 - 1)) % 2 ^ 32 = (s.slab x).inuse - 1 := by omega
  have hset : ({ s with next := update s.next o (s.slab x).freeObject } : Slabs).setSlab x
      (fun h => { h with freeObject := o, inuse := (h.inuse + (2 ^ 32 - 1)) % 2 ^ 32 }) = s' := by
    rw [setSlab, hs', hhdr]
    rw [hmod]
  have hinuse : (s'.slab x).inuse = (s.slab x).inuse - 1 := by rw [hs', hhdr]; simp
  have htotal : s'.totalSlabs = s.totalSlabs := by rw [hs']
  unfold freeObj
  dsimp only
  rw [hset, hinuse]
  split
  · rw [← htotal]; rfl
  · rfl

theorem freeObj_spec (h : Inv c s fl det (o ::ₘ objs)) (hx : x ∈ s.all det) (ho : o ∈ slots c x)
    (hfl : o ∉ fl x) :
    ∃ fl', Inv c (freeObj c s x o).2 fl' det objs ∧ SameMagazines s (freeObj c s x o).2 ∧
      ((freeObj c s x o).1.toList ++ (freeObj c s x o).2.listed).Perm s.listed := by
  obtain ⟨hxl, hpos, hle⟩ := h.in_use hx ho hfl
  have hbig := objectsPerSlab_lt h.fits
  have heq := freeObj_eq (c := c) (o := o) hpos (by omega) rfl rfl
  set hdr : Slab := ⟨(s.slab x).magic, o, (s.slab x).inuse - 1⟩ with hhdr
  set next' := update s.next o (s.slab x).freeObject with hnext'
  have hlink := linked_push (h.linked x hx) hfl (slot_ne_zero h.fits ho)
  have hkeep : ∀ s' : Slabs, s'.listed.Perm s.listed → s'.slab = update s.slab x hdr →
      s'.next = next' → s'.totalSlabs = s.totalSlabs → Classed c s' det →
      Inv c s' (update fl x (o :: fl x)) det objs := by
    intro s' hp' hs' hn' ht' hc'
    refine h.update hx hp' hs' ?_ (h.magic x hx) (by rw [hn']; exact hlink) ?_ ?_ ?_ hc' ht'
    · intro y hy hne q hq
      rw [hn', hnext', update_of_ne (h.fl_ne hx hy hne ho hq)]
    · exact forall_mem_cons.2 ⟨ho, h.slot x hx⟩
    · have := h.inuse x hx
      dsimp only [hdr]
      rw [length_cons]
      omega
    · rw [← Multiset.cons_coe, ← Multiset.singleton_add, ← Multiset.singleton_add]
      abel
  have hnd := h.listed_nodup
  have hdperm := listDel_perm hnd hxl
  refine ⟨update fl x (o :: fl x), ?_⟩
  rw [heq]
  split
  · -- the slab is empty: it would be a free slab, and leaves instead
    rename_i hzero
    have hp : (({ s.listDel x with slab := update s.slab x hdr, next := next', freeSlabs :=
        x :: (s.listDel x).freeSlabs } : Slabs).listed).Perm s.listed := hdperm
    have h₁ := hkeep _ hp rfl rfl rfl (h.classed.push hnd .free rfl (h.not_det hxl)
      (fun k => by cases k <;> rfl) hzero)
    refine ⟨h₁.remove (List.Perm.refl _) ?_ rfl ?_ ?_ ?_, ⟨rfl, rfl, rfl⟩, hdperm⟩
    · intro y hy
      exact update_of_ne hy ..
    · dsimp only; rw [update_self]; exact hzero
    · exact h.classed.move (update_idem ..) (h.not_det hxl) fun k y hy =>
        .inr ((mem_listDel hnd k).1 hy)
    · have h1 := h.total
      have h2 := hdperm.length_eq
      rw [length_cons] at h2
      dsimp only [listDel]
      omega
  · rename_i hzero
    split
    · -- the slab was full
      have hp : (({ s.listDel x with slab := update s.slab x hdr, next := next', partialSlabs :=
          x :: (s.listDel x).partialSlabs } : Slabs).listed).Perm s.listed := by
        refine List.Perm.trans ?_ hdperm
        simp only [listed, append_assoc]
        exact perm_middle
      refine ⟨hkeep _ hp rfl rfl rfl (h.classed.push hnd .part rfl (h.not_det hxl)
        (fun k => by cases k <;> rfl) ⟨pos_of_ne_zero hzero, ?_⟩), ⟨rfl, rfl, rfl⟩, hp⟩
      dsimp only [hdr]
      omega
    · refine ⟨hkeep _ (List.Perm.refl _) rfl rfl rfl (h.classed.move rfl (h.not_det hxl) ?_),
        ⟨rfl, rfl, rfl⟩, List.Perm.refl _⟩
      intro k y hy
      by_cases e : y = x
      · subst e
        refine .inl ⟨rfl, ?_⟩
        have hk := h.classed.holds k hy
        dsimp only [hdr]
        cases k <;> dsimp only [Kind.Holds] at hk ⊢ <;> omega
      · exact .inr ⟨e, hy⟩

theorem kmemCacheFreeLocked_spec (h : Inv c s fl det (o ::ₘ objs)) :
    ∃ r s' fl', kmemCacheFreeLocked c s o = .ok (r, s') ∧ Inv c s' fl' det objs ∧
      SameMagazines s s' ∧ (r.toList ++ s'.listed).Perm s.listed := by
  obtain ⟨x, hx, ho, hfl⟩ := h.obj_slab (Multiset.mem_cons_self o objs)
  obtain ⟨fl', hi, hsame, hperm⟩ := freeObj_spec h hx ho hfl
  refine ⟨(freeObj c s x o).1, (freeObj c s x o).2, fl', ?_, hi, hsame, hperm⟩
  have hscan : slabObjIsFree c s.next x o c.objectsPerSlab (s.slab x).freeObject = .ok false := by
    refine slabObjIsFree_of_not_mem hfl (fun q hq => ?_) (h.linked x hx) ?_
    · exact (h.valid_iff hx).2 (.inr (h.slot x hx q hq))
    · have := h.inuse x hx
      omega
  unfold kmemCacheFreeLocked
  rw [if_neg (slot_ne_zero h.fits ho), h.objToSlab_eq hx ho]
  rw [if_neg (not_not.2 (h.magic x hx)), (h.valid_iff hx).2 (.inr ho), hscan]
  rfl

/-! ## Slabs that come and go -/

/-- The chain of slots that a new slab gets, and nothing else changes. -/
theorem initFreeList_spec (hpos : 0 < c.objectSize) : ∀ (n obj : Nat) (next : Nat → Nat),
    obj ≠ 0 → obj + n * c.objectSize < 2 ^ 64 →
    Linked (fun a => ptr (initFreeList c n obj next a)) (ptr obj)
        ((List.range (n + 1)).map fun i => obj + i * c.objectSize) ∧
      ∀ a, (∀ i ≤ n, a ≠ obj + i * c.objectSize) → initFreeList c n obj next a = next a := by
  intro n
  induction n with
  | zero =>
    intro obj next h0 _
    rw [initFreeList]
    constructor
    · simp [ptr_of_ne h0]
    · intro a ha
      exact update_of_ne (by simpa using ha 0 (le_refl 0)) ..
  | succ n ih =>
    intro obj next h0 hlt
    rw [succ_mul] at hlt
    have hnext : (obj + c.objectSize) % 2 ^ 64 = obj + c.objectSize := mod_eq_of_lt (by omega)
    obtain ⟨hl, hframe⟩ := ih (obj + c.objectSize) (update next obj (obj + c.objectSize))
      (by omega) (by omega)
    have hshift : ∀ i, obj + c.objectSize + i * c.objectSize = obj + (i + 1) * c.objectSize := by
      intro i; rw [succ_mul]; omega
    rw [initFreeList, hnext]
    constructor
    · rw [range_succ_eq_map, map_cons, map_map, zero_mul, add_zero]
      refine ⟨ptr_of_ne h0, ?_⟩
      beta_reduce
      rw [hframe obj (fun i _ => by omega), update_self]
      convert hl using 2
      funext i
      simp [hshift]
    · intro a ha
      rw [hframe a, update_of_ne]
      · simpa using ha 0 (zero_le _)
      · intro i hi
        rw [hshift]
        exact ha (i + 1) (succ_le_succ hi)

theorem allocSlabDetached_spec (h : Inv c s fl det objs) (hp : PageOk x) (hx : x ∉ s.all det) :
    ∃ fl', Inv c (s.allocSlabDetached c x) fl' (x :: det) objs ∧
      (s.allocSlabDetached c x).listed = s.listed ∧ SameMagazines s (s.allocSlabDetached c x) := by
  have hstart := slabObjectsStart_eq h.fits hp
  have hops := h.fits.some_slot
  have hbound := hp.bounded
  have harea := h.fits.area
  have hone : c.objectsPerSlab - 1 + 1 = c.objectsPerSlab := succ_pred hops.ne'
  have hmul : (c.objectsPerSlab - 1) * c.objectSize + c.objectSize =
      c.objectsPerSlab * c.objectSize := by
    rw [← succ_mul, succ_eq_add_one, hone]
  have hx0 := hp.ne_zero
  obtain ⟨hl, hframe⟩ := initFreeList_spec (lt_of_lt_of_le (by decide) h.fits.size)
    (c.objectsPerSlab - 1) (x + slabObjectsOffset c) s.next (by omega) (by omega)
  rw [hone] at hl
  have hself : (s.allocSlabDetached c x).slab x = ⟨slabMagic, x + slabObjectsOffset c, 0⟩ := by
    simp [allocSlabDetached, setSlab, hstart]
  have hnext : (s.allocSlabDetached c x).next =
      initFreeList c (c.objectsPerSlab - 1) (x + slabObjectsOffset c) s.next := by
    simp [allocSlabDetached, setSlab, hstart]
  have hne : ∀ y ≠ x, (s.allocSlabDetached c x).slab y = s.slab y := fun y hy =>
    update_of_ne hy ..
  refine ⟨_, h.insert hp hx rfl rfl hne (by rw [hself]) (by rw [hself]) ?_ ?_ ?_, rfl, rfl, rfl, rfl⟩
  · intro y hy q hq
    rw [hnext]
    refine hframe q fun i hi e => ?_
    -- a member of another slab's free list lies in another page
    have hq' : q ∈ slots c x := mem_slots.2 ⟨i, by omega, e⟩
    have h1 := objToSlab_slot h.fits hp.aligned hq'
    have h2 := h.objToSlab_eq hy (h.slot y hy q hq)
    exact hx (h1.symm.trans h2 ▸ hy)
  · rw [hnext, hself]
    exact hl
  · refine .of_holds (fun k y hy => ?_) (forall_mem_cons.2 ⟨by rw [hself], fun y hy => ?_⟩)
    · rw [hne y (fun e => hx (e ▸ mem_all_of_listed (mem_listed.2 ⟨k, hy⟩)))]
      exact h.classed.holds k hy
    · rw [hne y (fun e => hx (e ▸ mem_append.2 (.inr hy)))]
      exact h.classed.detached y hy

theorem addSlabLocked_spec (h : Inv c s fl (x :: det) objs) :
    Inv c (s.addSlabLocked x) fl det objs ∧ (s.addSlabLocked x).listed = x :: s.listed := by
  obtain ⟨hx, hdet⟩ := forall_mem_cons.1 h.classed.detached
  refine ⟨h.relist ?_ rfl rfl ⟨?_, h.classed.part, h.classed.full, hdet⟩ ?_, rfl⟩
  · exact perm_middle.symm
  · exact forall_mem_cons.2 ⟨hx, h.classed.free⟩
  · simp [addSlabLocked, h.total, listed]

theorem takeFreeSlab_spec (h : Inv c s fl det objs) (he : s.takeFreeSlab = some (x, s')) :
    Inv c s' fl det objs ∧ (x :: s'.listed).Perm s.listed ∧ SameMagazines s s' := by
  unfold takeFreeSlab at he
  cases hfr : s.freeSlabs with
  | nil => rw [hfr] at he; cases he
  | cons y fs =>
    rw [hfr] at he
    obtain ⟨rfl, rfl⟩ := Prod.mk.inj (Option.some.inj he)
    have hy : y ∈ s.freeSlabs := by simp [hfr]
    have hyl : y ∈ s.listed := mem_listed.2 ⟨.free, hy⟩
    have hperm := listDel_perm h.listed_nodup hyl
    refine ⟨h.remove hperm ?_ rfl (h.classed.free y hy) ?_ ?_, hperm, rfl, rfl, rfl⟩
    · intro z hz; exact update_of_ne hz ..
    · exact h.classed.move rfl (h.not_det hyl) fun k z hz =>
        .inr ((mem_listDel h.listed_nodup k).1 hz)
    · have h1 := h.total
      have h2 := hperm.length_eq
      rw [length_cons] at h2
      dsimp only [setSlab, listDel]
      omega

theorem write_spec (h : Inv c s fl det objs) (ho : o ∈ objs) {a v : Nat} (h1 : o ≤ a)
    (h2 : a < o + c.objectSize) :
    Inv c { s with next := update s.next a v } fl det objs := by
  obtain ⟨x, hx, hox, hfl⟩ := h.obj_slab ho
  refine { h with linked := ?_, classed := { h.classed with } }
  intro y hy
  refine (h.linked y hy).congr fun q hq => ?_
  have hne : o ≠ q := by
    rintro rfl
    obtain rfl := h.owner_eq hx hy hox hq
    exact hfl hq
  have hap := slot_apart h.fits (h.page x hx).aligned (h.page y hy).aligned hox (h.slot y hy q hq) hne
  dsimp only
  rw [update_of_ne (by omega)]

/-! ## Magazines -/

theorem Inv.setCpu (h : Inv c s fl det objs) (cpu : Nat) (l : List Nat) :
    Inv c (s.setCpu cpu l) fl det objs :=
  { h with classed := { h.classed with } }

theorem refillLocked_spec (cpu : Nat) : ∀ (n : Nat) {s : Slabs} {fl : Nat → List Nat}
    {objs : Multiset Nat}, Inv c s fl det objs →
    ∃ s' fl' new, refillLocked c cpu n s = .ok s' ∧ new.length ≤ n ∧
      s'.cpu = update s.cpu cpu (new ++ s.cpu cpu) ∧
      s'.magLimit = s.magLimit ∧ s'.magBatch = s.magBatch ∧
      Inv c s' fl' det ((new : List Nat) + objs) ∧ s'.listed.Perm s.listed := by
  intro n
  induction n with
  | zero =>
    intro s fl objs h
    exact ⟨s, fl, [], rfl, le_refl 0, by simp, rfl, rfl, by simpa using h, List.Perm.refl _⟩
  | succ n ih =>
    intro s fl objs h
    rw [refillLocked]
    rcases kmemCacheAllocLocked_spec h with he | ⟨o, s₁, fl₁, he, h₁, hp₁, hcpu, hlim, hbat⟩
    · rw [he]
      exact ⟨s, fl, [], rfl, zero_le _, by simp, rfl, rfl, by simpa using h, List.Perm.refl _⟩
    · rw [he]
      obtain ⟨s', fl', new, he', hlen, hc', hl', hb', hi, hp'⟩ :=
        ih (h₁.setCpu cpu (o :: s₁.cpu cpu))
      refine ⟨s', fl', new ++ [o], he', by simpa using hlen, ?_, by rw [hl']; exact hlim,
        by rw [hb']; exact hbat, ?_, hp'.trans hp₁⟩
      · rw [hc']
        simp [Slabs.setCpu, hcpu]
      · rw [← Multiset.coe_add, add_assoc]
        simpa using hi

theorem drainLocked_spec (cpu : Nat) : ∀ (nr : Nat) {s : Slabs} {fl : Nat → List Nat}
    {objs : Multiset Nat} (toFree : List Nat), Inv c s fl det ((s.cpu cpu : List Nat) + objs) →
    ∃ s' fl' toFree', drainLocked c cpu nr s toFree = .ok (s', toFree') ∧
      s'.cpu = update s.cpu cpu ((s.cpu cpu).drop nr) ∧
      s'.magLimit = s.magLimit ∧ s'.magBatch = s.magBatch ∧
      Inv c s' fl' det (((s.cpu cpu).drop nr : List Nat) + objs) ∧
      (toFree' ++ s'.listed).Perm (toFree ++ s.listed) := by
  intro nr
  induction nr with
  | zero =>
    intro s fl objs toFree h
    exact ⟨s, fl, toFree, rfl, by simp, rfl, rfl, by simpa using h, List.Perm.refl _⟩
  | succ nr ih =>
    intro s fl objs toFree h
    rw [drainLocked]
    cases hc : s.cpu cpu with
    | nil =>
      rw [hc] at h
      exact ⟨s, fl, toFree, rfl, by simp [hc], rfl, rfl, h, List.Perm.refl _⟩
    | cons o objects =>
      rw [hc, ← Multiset.cons_coe, Multiset.cons_add] at h
      obtain ⟨r, s₁, fl₁, he, h₁, ⟨hcpu, hlim, hbat⟩, hp₁⟩ :=
        kmemCacheFreeLocked_spec (h.setCpu cpu objects)
      have hself : s₁.cpu cpu = objects := by rw [hcpu]; simp [Slabs.setCpu]
      obtain ⟨s', fl', toFree', he', hc', hl', hb', hi, hp'⟩ :=
        ih (r.elim toFree fun slab => slab :: toFree) (by rw [hself]; exact h₁)
      refine ⟨s', fl', toFree', by dsimp only; rw [he]; exact he', ?_, by rw [hl', hlim]; rfl, by rw [hb', hbat]; rfl,
        ?_, hp'.trans ?_⟩
      · rw [hc', hself, hcpu]
        simp [Slabs.setCpu]
      · rw [hself] at hi
        simpa using hi
      · cases r with
        | none => exact hp₁.append_left toFree
        | some slab => exact (perm_middle.symm).trans (hp₁.append_left toFree)

end Sections

end ZzzOs.Mm.Slabs
