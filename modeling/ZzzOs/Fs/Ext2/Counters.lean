import ZzzOs.Fs.Ext2.Bitmap

/-!
# One bitmap is changed

Allocation and release end in the same three writes: a bitmap, the super block and the group
descriptors (`putBitmap`). They change the bits of one group and the counters of its kind, and the
counters stay the numbers of clear bits.
-/

namespace ZzzOs.Fs.Ext2

open Finset Function Nat Lib

namespace Volume

variable (G : Geometry) (fs : Volume)

def used (k : Kind) (g j : Nat) : Bool :=
  fs.bdev.data.bit (8 * (fs.bgBitmap k g * G.blockSize) + j)

def zeros (k : Kind) (g : Nat) : Nat :=
  ((Finset.range (G.maxBits k g)).filter fun j => fs.used G k g j = false).card

/-- The bitmaps are in blocks of their own. -/
structure Layout : Prop where
  inj : ∀ {k g k' g'}, g < G.groupsCount → g' < G.groupsCount →
    fs.bgBitmap k g = fs.bgBitmap k' g' → k = k' ∧ g = g'
  super : ∀ {k g}, g < G.groupsCount → fs.bgBitmap k g ≠ 1024 / G.blockSize
  table : ∀ {k g}, g < G.groupsCount → fs.bgBitmap k g < G.firstDataBlock + 1 ∨
    G.firstDataBlock + 1 + G.gdbCount ≤ fs.bgBitmap k g

/-- The counters are the numbers of clear bits. -/
structure Counted : Prop where
  group : ∀ {k g}, g < G.groupsCount → fs.bgFree k g = fs.zeros G k g
  sbi : ∀ k, fs.sFree k = ∑ g ∈ Finset.range G.groupsCount, fs.zeros G k g
  raw : ∀ k, fs.rawFree k = ∑ g ∈ Finset.range G.groupsCount, fs.zeros G k g

def setData (data : Bytes) : Volume := { fs with bdev := { fs.bdev with data } }

/-- The super block and the group descriptors are written to the disk. -/
def synced : Volume :=
  fs.setData ((fs.bdev.data.write 1024 1024 fs.rawSb).write
    ((G.firstDataBlock + 1) * G.blockSize) (G.gdbCount * G.blockSize) fs.gdt)

/-- `buf` becomes the bitmap of group `g`, and the counters change by `d`. -/
def putBitmap (k : Kind) (g : Nat) (buf : Bytes) (d : Int) : Volume :=
  let fs' := fs.setData (fs.bdev.data.write (fs.bgBitmap k g * G.blockSize) G.blockSize buf)
  (fs'.addFree k g d).synced G

end Volume

section Put

variable {G : Geometry} {fs fs' : Volume} {k k' : Kind} {g g' j b x : Nat} {buf : Bytes} {d : Int}

/-! ## Bytes of the disk -/

theorem block_disjoint {a s : Nat} (h : a ≠ b) : a * s + s ≤ b * s ∨ b * s + s ≤ a * s := by
  rcases lt_or_gt_of_ne h with h | h
  · exact .inl (by rw [← succ_mul]; exact mul_le_mul_right s h)
  · exact .inr (by rw [← succ_mul]; exact mul_le_mul_right s h)

theorem super_disjoint (h : b ≠ 1024 / G.blockSize) :
    b * G.blockSize + G.blockSize ≤ 1024 ∨ 2048 ≤ b * G.blockSize := by
  rcases G.blockSize_cases with hs | hs | hs
  all_goals rw [hs] at h ⊢; omega

theorem table_disjoint (h : b < G.firstDataBlock + 1 ∨ G.firstDataBlock + 1 + G.gdbCount ≤ b) :
    b * G.blockSize + G.blockSize ≤ (G.firstDataBlock + 1) * G.blockSize ∨
      (G.firstDataBlock + 1) * G.blockSize + G.gdbCount * G.blockSize ≤ b * G.blockSize := by
  rcases h with h | h
  · exact .inl (by rw [← succ_mul]; exact mul_le_mul_right _ h)
  · exact .inr (by rw [← add_mul]; exact mul_le_mul_right _ h)

theorem data_putBitmap (hsuper : b ≠ 1024 / G.blockSize)
    (htable : b < G.firstDataBlock + 1 ∨ G.firstDataBlock + 1 + G.gdbCount ≤ b)
    (hb : b ≠ fs.bgBitmap k g) (hx : x < G.blockSize) :
    (fs.putBitmap G k g buf d).bdev.data (b * G.blockSize + x) =
      fs.bdev.data (b * G.blockSize + x) := by
  have h1 := super_disjoint hsuper
  have h2 := table_disjoint htable
  have h3 := block_disjoint (s := G.blockSize) hb
  change ((Bytes.write _ _ _ _).write _ _ _).write _ _ _ _ = _
  rw [Bytes.write_out (by omega), Bytes.write_out (by omega), Bytes.write_out (by omega)]

theorem data_putBitmap_self (hsuper : fs.bgBitmap k g ≠ 1024 / G.blockSize)
    (htable : fs.bgBitmap k g < G.firstDataBlock + 1 ∨
      G.firstDataBlock + 1 + G.gdbCount ≤ fs.bgBitmap k g) (hx : x < G.blockSize) :
    (fs.putBitmap G k g buf d).bdev.data (fs.bgBitmap k g * G.blockSize + x) = buf x := by
  have h1 := super_disjoint hsuper
  have h2 := table_disjoint htable
  change ((Bytes.write _ _ _ _).write _ _ _).write _ _ _ _ = _
  rw [Bytes.write_out (by omega), Bytes.write_out (by omega), Bytes.write_in hx]

/-! ## Fields -/

theorem bgBitmap_addFree : (fs.addFree k g d).bgBitmap k' g' = fs.bgBitmap k' g' := by
  refine Bytes.word_setWord_disjoint ?_
  cases k <;> cases k' <;> simp only [bgBitmapOffset, bgFreeOffset] <;> omega

@[simp] theorem bgBitmap_putBitmap :
    (fs.putBitmap G k g buf d).bgBitmap k' g' = fs.bgBitmap k' g' := bgBitmap_addFree

theorem bgFree_addFree_self :
    (fs.addFree k g d).bgFree k g = ((fs.bgFree k g + d) % 2 ^ 16).toNat := by
  refine (Bytes.word_setWord_self _ _ _ _).trans (mod_eq_of_lt ?_)
  omega

theorem bgFree_addFree_ne (h : ¬ (k' = k ∧ g' = g)) :
    (fs.addFree k g d).bgFree k' g' = fs.bgFree k' g' := by
  refine Bytes.word_setWord_disjoint ?_
  cases k <;> cases k' <;> simp only [bgFreeOffset] <;> simp at h <;> omega

theorem rawFree_addFree_self :
    (fs.addFree k g d).rawFree k = ((fs.rawFree k + d) % 2 ^ 32).toNat := by
  refine (Bytes.word_setWord_self _ _ _ _).trans (mod_eq_of_lt ?_)
  omega

theorem rawFree_addFree_ne (h : k' ≠ k) : (fs.addFree k g d).rawFree k' = fs.rawFree k' := by
  refine Bytes.word_setWord_disjoint ?_
  cases k <;> cases k' <;> simp only [sbFreeOffset] <;> simp at h <;> omega

/-! ## Bits -/

theorem used_congr (hbm : fs'.bgBitmap k g = fs.bgBitmap k g)
    (hj : j < 8 * G.blockSize) (hdata : ∀ x < G.blockSize,
      fs'.bdev.data (fs.bgBitmap k g * G.blockSize + x) =
        fs.bdev.data (fs.bgBitmap k g * G.blockSize + x)) : fs'.used G k g j = fs.used G k g j := by
  unfold Volume.used
  rw [hbm]
  refine Bytes.bit_congr ?_
  have hdiv : (8 * (fs.bgBitmap k g * G.blockSize) + j) / 8 =
      fs.bgBitmap k g * G.blockSize + j / 8 := by omega
  rw [hdiv]
  exact hdata _ (by omega)

section

variable (h : fs.Layout G)

include h

theorem used_putBitmap_self (hg : g < G.groupsCount) (hj : j < 8 * G.blockSize) :
    (fs.putBitmap G k g buf d).used G k g j = buf.bit j := by
  unfold Volume.used Bytes.bit
  rw [bgBitmap_putBitmap]
  have hdiv : (8 * (fs.bgBitmap k g * G.blockSize) + j) / 8 =
      fs.bgBitmap k g * G.blockSize + j / 8 := by omega
  have hmod : (8 * (fs.bgBitmap k g * G.blockSize) + j) % 8 = j % 8 := by omega
  rw [hdiv, hmod, data_putBitmap_self (h.super hg) (h.table hg) (by omega)]

theorem used_putBitmap_ne (hg : g < G.groupsCount) (hg' : g' < G.groupsCount)
    (hne : ¬ (k' = k ∧ g' = g)) (hj : j < 8 * G.blockSize) :
    (fs.putBitmap G k g buf d).used G k' g' j = fs.used G k' g' j :=
  used_congr bgBitmap_putBitmap hj fun _ hx =>
    data_putBitmap (h.super hg') (h.table hg') (fun he => hne (h.inj hg' hg he)) hx

theorem layout_congr (hbm : ∀ k g, fs'.bgBitmap k g = fs.bgBitmap k g) : fs'.Layout G where
  inj hg hg' he := h.inj hg hg' (by rwa [hbm, hbm] at he)
  super hg := by rw [hbm]; exact h.super hg
  table hg := by rw [hbm]; exact h.table hg

theorem layout_putBitmap : (fs.putBitmap G k g buf d).Layout G :=
  layout_congr h fun _ _ => bgBitmap_putBitmap

end

/-! ## Counters -/

theorem zeros_le (G : Geometry) (fs : Volume) (k : Kind) (g : Nat) :
    fs.zeros G k g ≤ G.maxBits k g := by
  refine (card_filter_le _ _).trans ?_
  rw [card_range]

theorem zeros_congr (h : ∀ j < G.maxBits k g, fs'.used G k g j = fs.used G k g j) :
    fs'.zeros G k g = fs.zeros G k g := by
  refine congrArg Finset.card (filter_congr fun j hj => ?_)
  rw [h j (mem_range.1 hj)]

theorem sum_zeros_le (G : Geometry) (fs : Volume) (k : Kind) :
    ∑ g ∈ Finset.range G.groupsCount, fs.zeros G k g ≤ G.total k := by
  rw [← G.sum_maxBits k]
  exact sum_le_sum fun g _ => zeros_le G fs k g

/-- The counters follow the bits: the group's clear bits change by `d`, and by `d` its counters. -/
theorem counted_putBitmap (h : fs.Layout G) (hc : fs.Counted G) (hg : g < G.groupsCount)
    (hd : ((fs.putBitmap G k g buf d).zeros G k g : Int) = fs.zeros G k g + d) :
    (fs.putBitmap G k g buf d).Counted G := by
  have hother : ∀ {k' g'}, g' < G.groupsCount → ¬ (k' = k ∧ g' = g) →
      (fs.putBitmap G k g buf d).zeros G k' g' = fs.zeros G k' g' := fun hg' hne =>
    zeros_congr fun j hj =>
      used_putBitmap_ne h hg hg' hne (lt_of_lt_of_le hj (G.maxBits_le_bits _))
  have hsum : ((∑ g' ∈ Finset.range G.groupsCount,
      (fs.putBitmap G k g buf d).zeros G k g' : Nat) : Int) =
      (∑ g' ∈ Finset.range G.groupsCount, fs.zeros G k g' : Nat) + d := by
    have hmem := mem_range.2 hg
    rw [← add_sum_erase _ _ hmem, ← add_sum_erase _ _ hmem,
      sum_congr rfl fun g' hg' => hother (mem_range.1 (mem_of_mem_erase hg'))
        fun he => ne_of_mem_erase hg' he.2]
    push_cast
    omega
  have hsumother : ∀ {k'}, k' ≠ k → ∑ g' ∈ Finset.range G.groupsCount,
      (fs.putBitmap G k g buf d).zeros G k' g' =
      ∑ g' ∈ Finset.range G.groupsCount, fs.zeros G k' g' := fun hne =>
    sum_congr rfl fun g' hg' => hother (mem_range.1 hg') fun he => hne he.1
  have hle := sum_zeros_le G (fs.putBitmap G k g buf d) k
  have htotal := G.total_lt k
  have hfirst : 0 < G.first k ∨ G.total k < 2 ^ 32 := by
    cases k
    · have := G.blocksCount_lt
      exact .inr (show G.blocksCount - G.firstDataBlock < 2 ^ 32 by omega)
    · exact .inl one_pos
  have hword : ∀ s : Nat, s = ∑ g' ∈ Finset.range G.groupsCount, fs.zeros G k g' →
      ((s + d) % 2 ^ 32).toNat = ∑ g' ∈ Finset.range G.groupsCount,
        (fs.putBitmap G k g buf d).zeros G k g' := fun s hs => by
    omega
  constructor
  case group =>
    intro k' g' hg'
    by_cases hsame : k' = k ∧ g' = g
    · obtain ⟨rfl, rfl⟩ := hsame
      have hle := zeros_le G (fs.putBitmap G k' g' buf d) k' g'
      have hbits := G.maxBits_le_bits k' (g := g')
      have hsize := G.blockSize_cases
      refine bgFree_addFree_self.trans ?_
      change ((fs.bgFree k' g' + d) % 2 ^ 16).toNat = _
      rw [hc.group hg']
      omega
    · rw [hother hg' hsame, ← hc.group hg']
      exact bgFree_addFree_ne hsame
  case sbi =>
    intro k'
    change update fs.sFree k _ k' = _
    by_cases hsame : k' = k
    · subst hsame
      rw [update_self]
      exact hword _ (hc.sbi k')
    · rw [update_of_ne hsame, hsumother hsame]
      exact hc.sbi k'
  case raw =>
    intro k'
    by_cases hsame : k' = k
    · subst hsame
      exact (rawFree_addFree_self (g := g)).trans (hword _ (hc.raw k'))
    · rw [hsumother hsame, ← hc.raw k']
      exact rawFree_addFree_ne (g := g) hsame

end Put

end ZzzOs.Fs.Ext2
