import ZzzOs.Fs.Ext2.Counters

/-!
# Allocation and release of numbers

Without errors an allocation takes the first clear bit of the first group that has one (`take`), and a
release clears the bit of its number (`give`). The number 0 must not be allocated: block 0 is one of the
blocks if `s_first_data_block` is 0, but it holds the super block then, and its bit is set.
-/

namespace ZzzOs.Fs.Ext2

open Finset Nat Lib

namespace Volume

variable (G : Geometry) (fs : Volume)

def bitmap (k : Kind) (g : Nat) : Bytes :=
  fs.bdev.data.slice (fs.bgBitmap k g * G.blockSize) G.blockSize

/-- Bit `j` of group `g` is taken. -/
def take (k : Kind) (g j : Nat) : Volume := fs.putBitmap G k g (setBit j (fs.bitmap G k g)) (-1)

/-- Bit `j` of group `g` is given back. -/
def give (k : Kind) (g j : Nat) : Volume := fs.putBitmap G k g (clearBit j (fs.bitmap G k g)) 1

/-- The bit of a number. -/
def usedNr (k : Kind) (nr : Nat) : Bool :=
  fs.used G k ((nr - G.first k) / G.perGroup k) ((nr - G.first k) % G.perGroup k)

/-- A disk without errors whose counters agree with its bitmaps. -/
structure Image : Prop where
  quiet : fs.bdev.Quiet
  layout : fs.Layout G
  counted : fs.Counted G
  zero : G.firstDataBlock = 0 → fs.used G .block 0 0 = true

end Volume

/-- A number of the file system. -/
def Geometry.Inside (G : Geometry) (k : Kind) (nr : Nat) : Prop :=
  G.first k ≤ nr ∧ nr < G.first k + G.total k

variable {G : Geometry} {fs fs' fs₀ : Volume} {k k' : Kind} {g g' j j' n nr : Nat}

theorem inside_nr (hg : g < G.groupsCount) (hj : j < G.maxBits k g) : G.Inside k (G.nr k g j) := by
  refine ⟨?_, G.nr_lt k hg hj⟩
  rw [Geometry.nr, add_assoc]
  exact le_add_right _ _

theorem bit_bitmap (hj : j < 8 * G.blockSize) : (fs.bitmap G k g).bit j = fs.used G k g j :=
  Bytes.bit_slice hj

theorem usedNr_nr (hj : j < G.maxBits k g) : fs.usedNr G k (G.nr k g j) = fs.used G k g j := by
  rw [Volume.usedNr, G.nr_div k hj, G.nr_mod k hj]

/-! ## What one call does -/

section

variable (h : fs.bdev.Quiet)

include h

theorem sync_eq : ext2SyncGroupAndSuper G fs = (true, fs.synced G) := by
  have h' : Blkdev.Quiet { fs.bdev with data := fs.bdev.data.write 1024 1024 fs.rawSb } := h
  unfold ext2SyncGroupAndSuper
  rw [h.write]
  dsimp only
  rw [h'.write]
  rfl

theorem readBitmap_eq : ext2ReadBitmap G fs (fs.bgBitmap k g) = (some (fs.bitmap G k g), fs) := by
  unfold ext2ReadBitmap
  rw [h.read]
  rfl

theorem writeBitmap_eq (b : Nat) (buf : Bytes) : ext2WriteBitmap G fs b buf =
    (true, fs.setData (fs.bdev.data.write (b * G.blockSize) G.blockSize buf)) := by
  unfold ext2WriteBitmap
  rw [h.write]
  rfl

theorem takeBit_eq : takeBit G k g j (fs.bitmap G k g) fs = (G.nr k g j, fs.take G k g j) := by
  unfold takeBit
  rw [writeBitmap_eq h]
  dsimp only
  rw [sync_eq (by exact h)]
  rfl

theorem releaseNr_eq : releaseNr G k (some g) nr fs =
    (0, fs.give G k g ((nr - G.first k) % G.perGroup k)) := by
  unfold releaseNr
  dsimp only
  rw [readBitmap_eq h]
  dsimp only
  rw [writeBitmap_eq h]
  dsimp only
  rw [sync_eq (by exact h)]
  rfl

end

/-- A group gives its first clear bit, or has none and is passed by. -/
theorem allocFrom_step (hq : fs.bdev.Quiet) (hc : fs.Counted G) (hg : g < G.groupsCount) :
    (∃ j < G.maxBits k g, fs.used G k g j = false ∧
      allocFrom G k (n + 1) g fs = (G.nr k g j, fs.take G k g j)) ∨
    (∀ j < G.maxBits k g, fs.used G k g j = true) ∧
      allocFrom G k (n + 1) g fs = allocFrom G k n (g + 1) fs := by
  by_cases hfree : fs.bgFree k g = 0
  · refine .inr ⟨fun j hj => ?_, by rw [allocFrom, if_pos hfree]⟩
    rw [hc.group hg, Volume.zeros, Finset.card_eq_zero, filter_eq_empty_iff] at hfree
    exact Bool.eq_true_of_not_eq_false (hfree (mem_range.2 hj))
  · rw [allocFrom, if_neg hfree, readBitmap_eq hq]
    have hbits := G.maxBits_le_bits k (g := g)
    cases hscan : scanBitmap0 (fs.bitmap G k g) (G.maxBits k g) with
    | none =>
      refine .inr ⟨fun j hj => ?_, by simp only [hscan]⟩
      rw [← bit_bitmap (by omega)]
      exact scanBitmap0_none hscan j hj
    | some j =>
      obtain ⟨hj, hclear, -⟩ := scanBitmap0_some hscan
      rw [bit_bitmap (by omega)] at hclear
      exact .inl ⟨j, hj, hclear, by simp only [hscan, takeBit_eq hq]⟩

/-- An allocation takes the first clear bit of the first group with one, or there is none. -/
theorem allocFrom_cases (hq : fs.bdev.Quiet) (hc : fs.Counted G) (hn : g + n = G.groupsCount) :
    (∃ g' j, g ≤ g' ∧ g' < G.groupsCount ∧ j < G.maxBits k g' ∧ fs.used G k g' j = false ∧
      allocFrom G k n g fs = (G.nr k g' j, fs.take G k g' j)) ∨
    ((∀ g' j, g ≤ g' → g' < G.groupsCount → j < G.maxBits k g' → fs.used G k g' j = true) ∧
      allocFrom G k n g fs = (0, fs)) := by
  induction n generalizing g with
  | zero => exact .inr ⟨fun g' j h1 h2 => absurd h2 (by omega), rfl⟩
  | succ n ih =>
    have hg : g < G.groupsCount := by omega
    rcases allocFrom_step hq hc hg with ⟨j, hj, hclear, he⟩ | ⟨hall, he⟩
    · exact .inl ⟨g, j, le_refl g, hg, hj, hclear, he⟩
    rw [he]
    rcases ih (g := g + 1) (by omega) with ⟨g', j, h1, h2⟩ | ⟨h1, h2⟩
    · exact .inl ⟨g', j, by omega, h2⟩
    · refine .inr ⟨fun g' j hg hg' hj => ?_, h2⟩
      rcases lt_or_eq_of_le hg with hlt | rfl
      · exact h1 g' j hlt hg' hj
      · exact hall j hj

/-! ## Taking and giving back -/

section Flip

variable (h : fs.Layout G) (hg : g < G.groupsCount) (hg' : g' < G.groupsCount)
  (hj : j < G.maxBits k g) (hj' : j' < G.maxBits k' g')

include h hg hg' hj' in
theorem used_take : (fs.take G k g j).used G k' g' j' =
    if k' = k ∧ g' = g ∧ j' = j then true else fs.used G k' g' j' := by
  have hbits := lt_of_lt_of_le hj' (G.maxBits_le_bits k')
  by_cases hsame : k' = k ∧ g' = g
  · obtain ⟨rfl, rfl⟩ := hsame
    rw [Volume.take, used_putBitmap_self h hg hbits, bit_setBit, bit_bitmap hbits]
    exact if_congr (by simp) rfl rfl
  · rw [Volume.take, used_putBitmap_ne h hg hg' hsame hbits, if_neg fun he => hsame ⟨he.1, he.2.1⟩]

include h hg hg' hj' in
theorem used_give : (fs.give G k g j).used G k' g' j' =
    if k' = k ∧ g' = g ∧ j' = j then false else fs.used G k' g' j' := by
  have hbits := lt_of_lt_of_le hj' (G.maxBits_le_bits k')
  by_cases hsame : k' = k ∧ g' = g
  · obtain ⟨rfl, rfl⟩ := hsame
    rw [Volume.give, used_putBitmap_self h hg hbits, bit_clearBit, bit_bitmap hbits]
    exact if_congr (by simp) rfl rfl
  · rw [Volume.give, used_putBitmap_ne h hg hg' hsame hbits, if_neg fun he => hsame ⟨he.1, he.2.1⟩]

theorem zeros_flip (hj : j < G.maxBits k g)
    (hset : fs.used G k g j = true) (hclear : fs'.used G k g j = false)
    (hother : ∀ j' < G.maxBits k g, j' ≠ j → fs'.used G k g j' = fs.used G k g j') :
    fs'.zeros G k g = fs.zeros G k g + 1 := by
  have hinsert : (Finset.range (G.maxBits k g)).filter (fun j => fs'.used G k g j = false) =
      insert j ((Finset.range (G.maxBits k g)).filter fun j => fs.used G k g j = false) := by
    ext j'
    rw [mem_insert, mem_filter, mem_filter, mem_range]
    by_cases hjj : j' = j
    · subst hjj
      simp [hj, hclear]
    · rw [or_iff_right hjj]
      exact and_congr_right fun hlt => by rw [hother j' hlt hjj]
  have hnot : j ∉ (Finset.range (G.maxBits k g)).filter fun j => fs.used G k g j = false := by
    rw [mem_filter, hset]
    exact fun hcon => Bool.noConfusion hcon.2
  rw [Volume.zeros, hinsert, card_insert_of_notMem hnot]
  rfl

include h hg hj in
theorem counted_take (hc : fs.Counted G) (hclear : fs.used G k g j = false) :
    (fs.take G k g j).Counted G := by
  have hzeros : fs.zeros G k g = (fs.take G k g j).zeros G k g + 1 := by
    refine zeros_flip hj ?_ hclear fun j' hj' hne => ?_
    · rw [used_take h hg hg hj, if_pos ⟨rfl, rfl, rfl⟩]
    · rw [used_take h hg hg hj', if_neg fun he => hne he.2.2]
  refine counted_putBitmap h hc hg ?_
  change ((fs.take G k g j).zeros G k g : Int) = _
  omega

include h hg hj in
theorem counted_give (hc : fs.Counted G) (hset : fs.used G k g j = true) :
    (fs.give G k g j).Counted G := by
  have hzeros : (fs.give G k g j).zeros G k g = fs.zeros G k g + 1 := by
    refine zeros_flip hj hset ?_ fun j' hj' hne => ?_
    · rw [used_give h hg hg hj, if_pos ⟨rfl, rfl, rfl⟩]
    · rw [used_give h hg hg hj', if_neg fun he => hne he.2.2]
  refine counted_putBitmap h hc hg ?_
  change ((fs.give G k g j).zeros G k g : Int) = _
  omega

end Flip

/-- The bitmaps and the counters are the same. -/
structure Volume.Agrees (G : Geometry) (fs fs' : Volume) : Prop where
  used : ∀ {k g j}, g < G.groupsCount → j < G.maxBits k g → fs.used G k g j = fs'.used G k g j
  group : ∀ {k g}, g < G.groupsCount → fs.bgFree k g = fs'.bgFree k g
  sbi : ∀ k, fs.sFree k = fs'.sFree k
  raw : ∀ k, fs.rawFree k = fs'.rawFree k

theorem agrees_of_used (hc : fs.Counted G) (hc' : fs'.Counted G)
    (hused : ∀ {k g j}, g < G.groupsCount → j < G.maxBits k g →
      fs.used G k g j = fs'.used G k g j) : fs.Agrees G fs' := by
  have hzeros : ∀ {k g}, g < G.groupsCount → fs.zeros G k g = fs'.zeros G k g := fun hg =>
    zeros_congr fun j hj => hused hg hj
  have hsum : ∀ k, ∑ g ∈ Finset.range G.groupsCount, fs.zeros G k g =
      ∑ g ∈ Finset.range G.groupsCount, fs'.zeros G k g := fun k =>
    sum_congr rfl fun g hg => hzeros (mem_range.1 hg)
  refine ⟨hused, fun hg => ?_, fun k => ?_, fun k => ?_⟩
  · rw [hc.group hg, hc'.group hg, hzeros hg]
  · rw [hc.sbi, hc'.sbi, hsum]
  · rw [hc.raw, hc'.raw, hsum]

/-! ## Runs -/

def ext2Alloc (G : Geometry) : Kind → Volume → Nat × Volume
  | .block => ext2AllocBno G
  | .inode => ext2AllocIno G

def ext2Release (G : Geometry) : Kind → Nat → Volume → Int × Volume
  | .block => ext2ReleaseBno G
  | .inode => ext2ReleaseIno G

/-- The states after allocations and after releases of numbers that are in use, not of 0. -/
inductive Run (G : Geometry) (fs₀ : Volume) : Volume → Prop
  | start : Run G fs₀ fs₀
  | alloc {fs : Volume} (k : Kind) : Run G fs₀ fs → Run G fs₀ (ext2Alloc G k fs).2
  | release {fs : Volume} {k : Kind} {nr : Nat} : Run G fs₀ fs → G.Inside k nr →
    fs.usedNr G k nr = true → nr ≠ 0 → Run G fs₀ (ext2Release G k nr fs).2

theorem ext2Release_eq (hq : fs.bdev.Quiet) (hg : g < G.groupsCount) (hj : j < G.maxBits k g) :
    ext2Release G k (G.nr k g j) fs = (0, fs.give G k g j) := by
  have hlt := G.groupsCount_lt
  have hdiv := G.nr_div k hj
  have hnr := G.nr_lt k hg hj
  have hfirst := (inside_nr hg hj).1
  have hgroup : ext2Release G k (G.nr k g j) fs = releaseNr G k (some g) (G.nr k g j) fs := by
    cases k with
    | block =>
      change G.firstDataBlock ≤ _ at hfirst
      change (_ - G.firstDataBlock) / G.blocksPerGroup = g at hdiv
      change releaseNr G .block (ext2BnoGroup G _) _ fs = _
      rw [ext2BnoGroup, hdiv, if_neg (by omega)]
    | inode =>
      change 1 ≤ _ at hfirst
      change _ < 1 + G.inodesCount at hnr
      change (_ - 1) / G.inodesPerGroup = g at hdiv
      change releaseNr G .inode (ext2InoGroup G _) _ fs = _
      rw [ext2InoGroup, hdiv, if_neg (by omega)]
  rw [hgroup, releaseNr_eq hq, G.nr_mod k hj]

theorem ext2Alloc_cases (h : fs.Image G) (k : Kind) :
    (∃ g j, g < G.groupsCount ∧ j < G.maxBits k g ∧ fs.used G k g j = false ∧
      ext2Alloc G k fs = (G.nr k g j, fs.take G k g j)) ∨
    ((∀ g j, g < G.groupsCount → j < G.maxBits k g → fs.used G k g j = true) ∧
      ext2Alloc G k fs = (0, fs)) := by
  have hcases := allocFrom_cases (k := k) h.quiet h.counted (zero_add G.groupsCount)
  have heq : ext2Alloc G k fs = allocFrom G k G.groupsCount 0 fs := by
    cases k <;> rfl
  rw [heq]
  rcases hcases with ⟨g, j, -, hrest⟩ | ⟨hall, hrest⟩
  · exact .inl ⟨g, j, hrest⟩
  · exact .inr ⟨fun g j => hall g j (zero_le g), hrest⟩

theorem maxBits_pos : 0 < G.maxBits k g := by
  have hpos := G.perGroup_pos k
  unfold Geometry.maxBits
  split
  · split <;> omega
  · exact hpos

theorem nr_ne_zero (h : fs.Image G) (hclear : fs.used G k g j = false) : G.nr k g j ≠ 0 := by
  intro hzero
  cases k with
  | inode => exact absurd hzero (by simp only [Geometry.nr, Geometry.first]; omega)
  | block =>
    simp only [Geometry.nr, Geometry.first] at hzero
    have hf : G.firstDataBlock = 0 := by omega
    have hg0 : g = 0 := by
      have hmul : g * G.perGroup .block = 0 := by omega
      exact (Nat.mul_eq_zero.1 hmul).resolve_right (G.perGroup_pos .block).ne'
    have hj0 : j = 0 := by omega
    rw [hg0, hj0, h.zero hf] at hclear
    cases hclear

section

variable (h : fs.Image G) (hg : g < G.groupsCount) (hj : j < G.maxBits k g)

include h hg hj

theorem Volume.Image.take (hclear : fs.used G k g j = false) : (fs.take G k g j).Image G where
  quiet := h.quiet
  layout := layout_putBitmap h.layout
  counted := counted_take h.layout hg hj h.counted hclear
  zero hf := by
    rw [used_take h.layout hg G.groupsCount_pos maxBits_pos, h.zero hf, ite_self]

theorem Volume.Image.give
    (hset : fs.used G k g j = true) (hne : G.nr k g j ≠ 0) : (fs.give G k g j).Image G where
  quiet := h.quiet
  layout := layout_putBitmap h.layout
  counted := counted_give h.layout hg hj h.counted hset
  zero hf := by
    rw [used_give h.layout hg G.groupsCount_pos maxBits_pos, if_neg, h.zero hf]
    rintro ⟨rfl, rfl, rfl⟩
    refine hne ?_
    rw [Geometry.nr, zero_mul]
    exact hf

end

theorem Run.image (hr : Run G fs₀ fs) (h₀ : fs₀.Image G) : fs.Image G := by
  induction hr with
  | start => exact h₀
  | alloc k _ ih =>
    rcases ext2Alloc_cases ih k with ⟨g, j, hg, hj, hclear, heq⟩ | ⟨-, heq⟩
    · rw [heq]
      exact ih.take hg hj hclear
    · rw [heq]
      exact ih
  | release _ hin hset hne ih =>
    obtain ⟨g, j, hg, hj, rfl⟩ := G.exists_bit _ hin.1 hin.2
    rw [usedNr_nr hj] at hset
    rw [ext2Release_eq ih.quiet hg hj]
    exact ih.give hg hj hset hne

/-- **The bitmaps and their counters**: after every run the counters are the numbers of clear bits;
an allocation returns a number of the file system that was free, marks it and no other, and its
release restores the bitmaps and the counters; it returns 0 only if nothing is free. -/
theorem bitmaps_run (G : Geometry) (fs₀ fs : Volume) (h₀ : fs₀.Image G) (hr : Run G fs₀ fs) :
    fs.Counted G ∧ ∀ k nr fs', ext2Alloc G k fs = (nr, fs') →
      (nr = 0 → ∀ m, G.Inside k m → fs.usedNr G k m = true) ∧
      (nr ≠ 0 → G.Inside k nr ∧ fs.usedNr G k nr = false ∧ fs'.usedNr G k nr = true ∧
        (∀ k' m, G.Inside k' m → ¬ (k' = k ∧ m = nr) → fs'.usedNr G k' m = fs.usedNr G k' m) ∧
        ∃ fs'', ext2Release G k nr fs' = (0, fs'') ∧ fs''.Agrees G fs) := by
  have h := hr.image h₀
  refine ⟨h.counted, fun k nr fs' halloc => ?_⟩
  rcases ext2Alloc_cases h k with ⟨g, j, hg, hj, hclear, heq⟩ | ⟨hall, heq⟩
  · cases heq.symm.trans halloc
    have hset : (fs.take G k g j).used G k g j = true := by
      rw [used_take h.layout hg hg hj, if_pos ⟨rfl, rfl, rfl⟩]
    have htake := h.take hg hj hclear
    refine ⟨fun hzero => ?_, fun hne => ⟨inside_nr hg hj, ?_, ?_, ?_, ?_⟩⟩
    · exact absurd hzero (nr_ne_zero h hclear)
    · rw [usedNr_nr hj, hclear]
    · rw [usedNr_nr hj, hset]
    · intro k' m hin hother
      obtain ⟨g', j', hg', hj', rfl⟩ := G.exists_bit k' hin.1 hin.2
      rw [usedNr_nr hj', usedNr_nr hj', used_take h.layout hg hg' hj', if_neg]
      rintro ⟨rfl, rfl, rfl⟩
      exact hother ⟨rfl, rfl⟩
    · refine ⟨_, ext2Release_eq htake.quiet hg hj, ?_⟩
      refine agrees_of_used (htake.give hg hj hset hne).counted h.counted fun {k' g' j'} hg' hj' => ?_
      rw [used_give htake.layout hg hg' hj', used_take h.layout hg hg' hj']
      split_ifs with hsame
      · obtain ⟨rfl, rfl, rfl⟩ := hsame
        exact hclear.symm
      · rfl
  · cases heq.symm.trans halloc
    refine ⟨fun _ m hin => ?_, fun hne => absurd rfl hne⟩
    obtain ⟨g', j', hg', hj', rfl⟩ := G.exists_bit k hin.1 hin.2
    rw [usedNr_nr hj']
    exact hall g' j' hg' hj'

/-- Eight blocks of 4096 bytes and eight inodes in one group; block 0 is a block of the file
system. -/
def tiny : Geometry where
  blockSize := 4096
  firstDataBlock := 0
  blocksCount := 8
  blocksPerGroup := 8
  inodesCount := 8
  inodesPerGroup := 8
  groupsCount := 1
  gdbCount := 1

def emptyCache : IndirectCache where
  clock := 0
  entries _ := { blockNo := 0, data := fun _ => 0, lastUsed := 0, valid := false }

/-- The bitmaps are in blocks 2 and 3; `bits` is the bitmap of the blocks, `n` of them are free and
all inodes. -/
def tinyVolume (bits : UInt8) (n : Nat) : Volume where
  rawSb := (Bytes.setWord (fun _ => 0) 12 4 n).setWord 16 4 8
  gdt := (((Bytes.setWord (fun _ => 0) 0 4 2).setWord 4 4 3).setWord 12 2 n).setWord 14 2 8
  sFree
    | .block => n
    | .inode => 8
  bdev := { data := fun x => if x = 2 * 4096 then bits else 0, faults := [] }
  indirectCache := emptyCache

theorem tinyVolume_bgBitmap (bits : UInt8) (n : Nat) (k : Kind) :
    (tinyVolume bits n).bgBitmap k 0 = match k with | .block => 2 | .inode => 3 := by
  cases k with
  | block | inode =>
    refine (Bytes.word_setWord_disjoint (by decide)).trans ?_
    refine (Bytes.word_setWord_disjoint (by decide)).trans ?_
    decide

theorem tinyVolume_layout (bits : UInt8) (n : Nat) : (tinyVolume bits n).Layout tiny where
  inj {k g k' g'} hg hg' he := by
    obtain rfl := lt_one_iff.1 hg
    obtain rfl := lt_one_iff.1 hg'
    rw [tinyVolume_bgBitmap, tinyVolume_bgBitmap] at he
    cases k <;> cases k' <;> simp at he ⊢
  super {k g} hg := by
    obtain rfl := lt_one_iff.1 hg
    rw [tinyVolume_bgBitmap]
    cases k <;> decide
  table {k g} hg := by
    obtain rfl := lt_one_iff.1 hg
    rw [tinyVolume_bgBitmap]
    cases k <;> decide

theorem tinyVolume_counted (h : ∀ k, fs.bgFree k 0 = fs.zeros tiny k 0 ∧
    fs.sFree k = fs.zeros tiny k 0 ∧ fs.rawFree k = fs.zeros tiny k 0) : fs.Counted tiny where
  group {k g} hg := by
    obtain rfl := lt_one_iff.1 hg
    exact (h k).1
  sbi k := (h k).2.1.trans (sum_range_one _).symm
  raw k := (h k).2.2.trans (sum_range_one _).symm

/-- With the blocks of the metadata in use, the first allocation returns block 5. -/
theorem bitmaps_run_tiny : (ext2AllocBno tiny (tinyVolume 0x1f 3)).1 = 5 ∧
    (tinyVolume 0x1f 3).usedNr tiny .block 5 = false ∧
    (ext2AllocBno tiny (tinyVolume 0x1f 3)).2.usedNr tiny .block 5 = true := by
  have hcounted : (tinyVolume 0x1f 3).Counted tiny :=
    tinyVolume_counted fun k => by cases k <;> decide +kernel
  have himage : (tinyVolume 0x1f 3).Image tiny :=
    ⟨rfl, tinyVolume_layout _ _, hcounted, fun _ => by decide +kernel⟩
  have hnr : (ext2AllocBno tiny (tinyVolume 0x1f 3)).1 = 5 := by decide +kernel
  have halloc : ext2Alloc tiny .block (tinyVolume 0x1f 3) =
      (5, (ext2AllocBno tiny (tinyVolume 0x1f 3)).2) := Prod.ext hnr rfl
  obtain ⟨-, hclear, hset, -⟩ :=
    ((bitmaps_run tiny _ _ himage .start).2 .block _ _ halloc).2 (by decide)
  exact ⟨hnr, hclear, hset⟩

/-- Both bitmaps are in block 2. -/
def sharedVolume : Volume :=
  { tinyVolume 0x1f 3 with
    rawSb := (Bytes.setWord (fun _ => 0) 12 4 3).setWord 16 4 3
    gdt := (((Bytes.setWord (fun _ => 0) 0 4 2).setWord 4 4 2).setWord 12 2 3).setWord 14 2 3
    sFree := fun _ => 3 }

/-- If the bit of block 0 is clear, 0 is returned although blocks are free, and one of them is lost. If
the bitmaps share a block, the allocation of a block takes an inode as well, which nobody counts. -/
theorem alloc_block_zero : (tinyVolume 0x1e 4).bdev.Quiet ∧ (tinyVolume 0x1e 4).Layout tiny ∧
    (tinyVolume 0x1e 4).Counted tiny ∧ (ext2AllocBno tiny (tinyVolume 0x1e 4)).1 = 0 ∧
    tiny.Inside .block 5 ∧ (tinyVolume 0x1e 4).usedNr tiny .block 5 = false ∧
    (ext2AllocBno tiny (tinyVolume 0x1e 4)).2.bgFree .block 0 = 3 ∧ sharedVolume.bdev.Quiet ∧
    sharedVolume.Counted tiny ∧ sharedVolume.usedNr tiny .block 0 = true ∧
    ¬ (ext2AllocBno tiny sharedVolume).2.Counted tiny := by
  have hcounted : (tinyVolume 0x1e 4).Counted tiny :=
    tinyVolume_counted fun k => by cases k <;> decide +kernel
  refine ⟨rfl, tinyVolume_layout _ _, hcounted, by decide +kernel, ⟨by decide, by decide⟩, ?_, ?_, rfl,
    tinyVolume_counted fun k => by cases k <;> decide +kernel, by decide +kernel, fun h => ?_⟩
  · decide +kernel
  · decide +kernel
  · have hgroup := h.group (k := .inode) (g := 0) (by decide)
    revert hgroup
    decide +kernel

end ZzzOs.Fs.Ext2
