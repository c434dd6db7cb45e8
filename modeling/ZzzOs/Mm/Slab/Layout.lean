import ZzzOs.Lib.Multisum
import ZzzOs.Mm.Slab.Model
import Mathlib.Tactic.IntervalCases
import Mathlib.Tactic.Set

/-!
# Where the objects of a slab lie

For a cache whose object area fits its page (`Fits`) the slots of a page keep clear of the header, of
each other and of other pages, and the source's validity test accepts exactly NULL and the slots.
Creation gives such a cache whenever the object size stays below `2 ^ 32`.
-/

namespace ZzzOs.Mm.Slabs

open List Lib Nat

/-- The object area of a slab of `c` fits behind the header of its page. -/
structure Fits (c : KmemCache) : Prop where
  some_slot : 0 < c.objectsPerSlab
  size : 8 ≤ c.objectSize
  header : sizeofSlab ≤ slabObjectsOffset c
  area : slabObjectsOffset c + c.objectsPerSlab * c.objectSize ≤ 4096

def slots (c : KmemCache) (slab : Nat) : List Nat :=
  (List.range c.objectsPerSlab).map fun i => slab + slabObjectsOffset c + i * c.objectSize

/-- A page of the kernel's linear map, which ends before the last page of the address space. -/
structure PageOk (slab : Nat) : Prop where
  aligned : 4096 ∣ slab
  ne_zero : slab ≠ 0
  bounded : slab + 4096 < 2 ^ 64

section Slots

variable {c : KmemCache} {slab slab' o q : Nat}

theorem mem_slots : o ∈ slots c slab ↔
    ∃ i < c.objectsPerSlab, o = slab + slabObjectsOffset c + i * c.objectSize := by
  simp only [slots, mem_map, mem_range]
  constructor
  · rintro ⟨i, hi, rfl⟩; exact ⟨i, hi, rfl⟩
  · rintro ⟨i, hi, rfl⟩; exact ⟨i, hi, rfl⟩

theorem mul_slot_le {i n m : Nat} (h : i < n) : i * m + m ≤ n * m := by
  have := mul_le_mul_right m (succ_le_of_lt h)
  rwa [succ_mul] at this

section

variable (hf : Fits c)

include hf

theorem slot_bounds (ho : o ∈ slots c slab) :
    slab + sizeofSlab ≤ o ∧ o + c.objectSize ≤ slab + 4096 := by
  obtain ⟨i, hi, rfl⟩ := mem_slots.1 ho
  have h1 := mul_slot_le (m := c.objectSize) hi
  have h2 := hf.area
  have h3 := hf.header
  omega

theorem slot_ne_zero (ho : o ∈ slots c slab) : o ≠ 0 := by
  have := (slot_bounds hf ho).1
  unfold sizeofSlab at this
  omega

theorem objToSlab_slot (ha : 4096 ∣ slab) (ho : o ∈ slots c slab) : objToSlab o = slab := by
  obtain ⟨h1, h2⟩ := slot_bounds hf ho
  have h3 := hf.size
  obtain ⟨m, rfl⟩ := ha
  unfold objToSlab alignDown
  rw [pageSize_eq]
  have : o / 4096 = m := by omega
  rw [this, mul_comm]

theorem slot_apart (ha : 4096 ∣ slab) (ha' : 4096 ∣ slab') (ho : o ∈ slots c slab)
    (hq : q ∈ slots c slab') (hne : o ≠ q) : o + c.objectSize ≤ q ∨ q + c.objectSize ≤ o := by
  by_cases hs : slab = slab'
  · subst hs
    obtain ⟨i, hi, rfl⟩ := mem_slots.1 ho
    obtain ⟨j, hj, rfl⟩ := mem_slots.1 hq
    rcases lt_trichotomy i j with h | h | h
    · have := mul_slot_le (m := c.objectSize) h
      omega
    · subst h; exact absurd rfl hne
    · have := mul_slot_le (m := c.objectSize) h
      omega
  · obtain ⟨h1, h2⟩ := slot_bounds hf ho
    obtain ⟨h3, h4⟩ := slot_bounds hf hq
    obtain ⟨m, rfl⟩ := ha
    obtain ⟨n, rfl⟩ := ha'
    omega

theorem slots_nodup : (slots c slab).Nodup := by
  refine (pairwise_map.2 (pairwise_lt_range.imp fun {i j} hij => ?_))
  have h1 := mul_slot_le (m := c.objectSize) hij
  have h2 := hf.size
  omega

end

theorem slots_length : (slots c slab).length = c.objectsPerSlab := by simp [slots]

theorem slots_sum_nodup (hf : Fits c) {l : List Nat} (hnd : l.Nodup) (ha : ∀ x ∈ l, 4096 ∣ x) :
    (l.map fun x => (slots c x : Multiset Nat)).sum.Nodup := by
  refine nodup_sum_map (fun x _ => slots_nodup hf) (hnd.imp_of_mem fun {x y} hx hy hne => ?_)
  refine Multiset.disjoint_left.2 fun ho ho' => hne ?_
  rw [← objToSlab_slot hf (ha x hx) ho, ← objToSlab_slot hf (ha y hy) ho']

/-! ## The validity test -/

section

variable (hf : Fits c) (hp : PageOk slab)

include hf hp

theorem slabObjectsStart_eq : slabObjectsStart c slab = slab + slabObjectsOffset c := by
  have h1 := hp.bounded
  have h2 := hf.area
  unfold slabObjectsStart
  rw [mod_eq_of_lt (by omega)]

theorem slabObjectsEnd_eq :
    slabObjectsEnd c slab = slab + slabObjectsOffset c + c.objectsPerSlab * c.objectSize := by
  have h1 := hp.bounded
  have h2 := hf.area
  unfold slabObjectsEnd
  rw [slabObjectsStart_eq hf hp, mod_eq_of_lt (by omega)]

theorem slabObjIsValid_iff : slabObjIsValid c slab o = true ↔ o = 0 ∨ o ∈ slots c slab := by
  unfold slabObjIsValid
  rw [slabObjectsStart_eq hf hp, slabObjectsEnd_eq hf hp]
  by_cases h0 : o = 0
  · simp [h0]
  · rw [if_neg h0]
    constructor
    · intro h
      split_ifs at h with hr
      simp only [Bool.or_eq_true, decide_eq_true_eq, not_or, not_lt, ge_iff_le, not_le] at hr
      obtain ⟨i, hi⟩ := dvd_of_mod_eq_zero (beq_iff_eq.1 h)
      refine .inr (mem_slots.2 ⟨i, ?_, by rw [mul_comm]; omega⟩)
      refine Nat.lt_of_mul_lt_mul_left (a := c.objectSize) ?_
      rw [mul_comm _ c.objectsPerSlab]
      omega
    · intro h
      obtain ⟨i, hi, rfl⟩ := mem_slots.1 (h.resolve_left h0)
      have h1 := mul_slot_le (m := c.objectSize) hi
      have h2 := hf.size
      rw [if_neg (by simp; omega), Nat.add_sub_cancel_left, Nat.mul_mod_left]
      rfl

end

end Slots

/-! ## Creation -/

/-- The alignment a cache gets for a requested power of two, or for the default `0`. -/
theorem create_align {align : Nat} (ha : align = 0 ∨ ∃ k < 64, align = 2 ^ k) :
    ∃ j < 64, roundUpAlign (if align ≠ 0 then align else slabMinAlign) slabMinAlign = 2 ^ j ∧
      2 ^ j = max align 8 := by
  rcases ha with rfl | ⟨k, hk, rfl⟩
  · exact ⟨3, by decide, by decide, by decide⟩
  · rw [if_pos (Nat.two_pow_pos k).ne']
    rcases lt_or_ge k 3 with h | h
    · refine ⟨3, by decide, ?_⟩
      interval_cases k <;> decide
    · have h8 : 2 ^ 3 ∣ 2 ^ k := pow_dvd_pow 2 h
      have hle : 2 ^ k ≤ 2 ^ 63 := Nat.pow_le_pow_right (by decide) (by omega)
      have h8' : 2 ^ 3 ≤ 2 ^ k := Nat.pow_le_pow_right (by decide) h
      refine ⟨k, hk, alignUp_of_dvd (by decide) h8 (by unfold slabMinAlign; omega), ?_⟩
      omega

/-- A cache that creation returns fits its page exactly when its object size, which is the
requested size rounded up, stays below `2 ^ 32`. -/
theorem kmemCacheCreate_fits {size align : Nat} (hsize : size < 2 ^ 64)
    (ha : align = 0 ∨ ∃ k < 64, align = 2 ^ k) {c : KmemCache}
    (h : kmemCacheCreate size align = some (some c)) :
    if size + max align 8 ≤ 2 ^ 32 then Fits c else 2 ^ 32 ≤ c.objectSize := by
  obtain ⟨j, hj, hround, hmax⟩ := create_align ha
  unfold kmemCacheCreate at h
  rw [hround] at h
  dsimp only [slabObjectsOffset] at h
  have hpos := Nat.two_pow_pos j
  have hle : 2 ^ j ≤ 2 ^ 63 := Nat.pow_le_pow_right (by decide) (by omega)
  obtain ⟨hoff, -⟩ := alignUp_bounds (x := sizeofSlab) hpos (by unfold sizeofSlab; omega)
  split_ifs at h with hlt
  · cases h
  rw [pageSize_eq, not_le] at hlt
  -- the offset is a multiple of the alignment, so the alignment is below a page
  have hj12 : 2 ^ j < 4096 := by
    refine lt_of_le_of_lt (le_of_dvd ?_ (dvd_alignUp sizeofSlab (2 ^ j))) hlt
    exact lt_of_lt_of_le (by decide) hoff
  obtain ⟨n, hn, h⟩ := Option.bind_eq_some_iff.1 h
  unfold divU32 at hn
  split at hn
  · cases hn
  rename_i hnz
  cases hn
  split_ifs at h with hpn
  · cases h
  cases h
  dsimp only [slabObjectsOffset]
  set x := if size < sizeofFreeObj then sizeofFreeObj else size with hx
  have hx8 : 8 ≤ x ∧ size ≤ x ∧ (x = 8 ∨ x = size) := by
    rw [hx]; unfold sizeofFreeObj; split <;> omega
  have hos : cacheObjectSize size (2 ^ j) = alignUp x (2 ^ j) := rfl
  rw [hos] at hnz hpn ⊢
  -- rounding up did not wrap, or the division would have been by zero
  have hnowrap : x + (2 ^ j - 1) < 2 ^ 64 := by
    by_contra hw
    refine hnz ?_
    have hm : (x + (2 ^ j - 1)) % 2 ^ 64 < 2 ^ j := by omega
    unfold alignUp alignDown
    rw [div_eq_of_lt hm]
    simp
  obtain ⟨hb1, hb2⟩ := alignUp_bounds hpos hnowrap
  split
  · have hlt32 : alignUp x (2 ^ j) < 2 ^ 32 := by omega
    have h4096 : (4096 - alignUp sizeofSlab (2 ^ j)) % 2 ^ 32 = 4096 - alignUp sizeofSlab (2 ^ j) :=
      mod_eq_of_lt (by omega)
    rw [mod_eq_of_lt hlt32, pageSize_eq, h4096] at hpn ⊢
    have harea := div_mul_le_self (4096 - alignUp sizeofSlab (2 ^ j)) (alignUp x (2 ^ j))
    refine ⟨pos_of_ne_zero hpn, hx8.1.trans hb1, hoff, ?_⟩
    dsimp only [slabObjectsOffset]
    omega
  · have hd : 2 ^ j ∣ 2 ^ 32 := pow_dvd_pow 2 (by
      by_contra hj'
      have : 2 ^ 32 ≤ 2 ^ j := Nat.pow_le_pow_right (by decide) (by omega)
      omega)
    by_contra hsmall
    have hd' := Nat.dvd_sub hd (dvd_alignUp x (2 ^ j))
    have := le_of_dvd (by omega) hd'
    omega

end ZzzOs.Mm.Slabs
