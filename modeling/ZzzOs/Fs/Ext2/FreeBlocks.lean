import ZzzOs.Fs.Ext2.SetMapping

/-!
# `ext2_free_inode_blocks` without errors

The call walks the trees of the inode and releases every block after what is below it. Only the
bitmaps and the counters are written, so the walk sees the trees as they were; `Freed` and `Freeing`
say what has been released so far. The blocks that are left are those of the other inodes.
-/

namespace ZzzOs.Fs.Ext2

open Nat Function Lib List

variable {m : Nat} {G : Geometry} {fs fs₀ : Volume} {io io₀ io' : Io} {b g i j k h : Nat}
  {L L' I I' Z Z' l : List Nat}

/-! ## The volume -/

structure Freed (G : Geometry) (fs₀ fs : Volume) (L I : List Nat) : Prop where
  image : fs.Image G
  bgBitmap : ∀ k g, fs.bgBitmap k g = fs₀.bgBitmap k g
  used : ∀ {b}, G.Inside .block b →
    fs.usedNr G .block b = if b ∈ L then false else fs₀.usedNr G .block b
  same : ∀ {b}, ¬ fs₀.Meta G b → SameBlock G fs₀ fs b
  free : fs.sFree .block = fs₀.sFree .block + L.length
  cache : ∀ {e}, (fs.indirectCache.entries e).valid = true →
    fs.indirectCache.entries e = fs₀.indirectCache.entries e ∧
      (fs₀.indirectCache.entries e).blockNo ∉ I

theorem Freed.refl (h : fs.Image G) : Freed G fs fs [] [] where
  image := h
  bgBitmap _ _ := rfl
  used _ := rfl
  same _ _ _ := rfl
  free := rfl
  cache _ := ⟨rfl, not_mem_nil⟩

theorem Freed.perm (h : Freed G fs₀ fs L I) (hL : L.Perm L') (hI : I.Perm I') :
    Freed G fs₀ fs L' I' where
  image := h.image
  bgBitmap := h.bgBitmap
  used hb := by
    rw [h.used hb]
    exact if_congr hL.mem_iff rfl rfl
  same := h.same
  free := by rw [h.free, hL.length_eq]
  cache he := ⟨(h.cache he).1, fun hmem => (h.cache he).2 (hI.mem_iff.2 hmem)⟩

/-- The counter does not wrap around: the bit of the block was set. -/
theorem sFree_give (h : fs.Image G) (hg : g < G.groupsCount) (hj : j < G.maxBits .block g)
    (hset : fs.used G .block g j = true) (hne : G.nr .block g j ≠ 0) :
    (fs.give G .block g j).sFree .block = fs.sFree .block + 1 := by
  have hword : (fs.give G .block g j).sFree .block = ((fs.sFree .block + 1 : Int) % 2 ^ 32).toNat := by
    rfl
  have hsum := (h.give hg hj hset hne).counted.sbi .block
  have hpos : 0 < (fs.give G .block g j).zeros G .block g := by
    refine Finset.card_pos.2 ⟨j, Finset.mem_filter.2 ⟨Finset.mem_range.2 hj, ?_⟩⟩
    rw [used_give h.layout hg hg hj, if_pos ⟨rfl, rfl, rfl⟩]
  have hle : (fs.give G .block g j).zeros G .block g ≤ (fs.give G .block g j).sFree .block := by
    rw [hsum]
    exact Finset.single_le_sum (fun _ _ => zero_le _) (Finset.mem_range.2 hg)
  have hold : fs.sFree .block ≤ G.total .block := by
    rw [h.counted.sbi]
    exact sum_zeros_le G fs .block
  have hlt : G.total .block < 2 ^ 32 := lt_of_le_of_lt (sub_le _ _) G.blocksCount_lt
  omega

theorem Freed.release (h : Freed G fs₀ fs L I) (hin : G.Inside .block b) (hb : b ≠ 0)
    (hused : fs₀.usedNr G .block b = true) (hL : b ∉ L) :
    ∃ fs', ext2ReleaseBno G b fs = (0, fs') ∧ Freed G fs₀ fs' (b :: L) I := by
  obtain ⟨g, j, hg, hj, rfl⟩ := G.exists_bit .block hin.1 hin.2
  have hset : fs.used G .block g j = true := by
    rw [← usedNr_nr hj, h.used hin, if_neg hL, hused]
  have hmeta : ∀ {c}, fs.Meta G c ↔ fs₀.Meta G c := Volume.Meta.congr h.bgBitmap
  refine ⟨fs.give G .block g j, ext2Release_eq h.image.quiet hg hj, ?_⟩
  constructor
  case image => exact h.image.give hg hj hset hb
  case bgBitmap => exact fun k g' => bgBitmap_putBitmap.trans (h.bgBitmap k g')
  case used =>
    intro c hc
    rw [usedNr_of_used hj hc (used_give h.image.layout hg), h.used hc]
    split <;> rename_i hcb
    · rw [if_pos (hcb ▸ mem_cons_self)]
    · exact if_congr (by simp [hcb]) rfl rfl
  case same =>
    intro c hc y hy
    exact (sameBlock_putBitmap hg (fun hm => hc (hmeta.1 hm)) y hy).trans (h.same hc y hy)
  case free => rw [sFree_give h.image hg hj hset hb, h.free, length_cons, add_assoc]
  case cache => exact h.cache

theorem Freed.uncache (h : Freed G fs₀ io.fs L I)
    (hinj : ∀ {e e'}, (fs₀.indirectCache.entries e).valid = true →
      (fs₀.indirectCache.entries e').valid = true →
      (fs₀.indirectCache.entries e).blockNo = (fs₀.indirectCache.entries e').blockNo → e = e') :
    Freed G fs₀ (io.uncache b).fs L (b :: I) where
  image := by
    have hq : (io.uncache b).fs.bdev.Quiet := h.image.quiet
    exact (h.image.congr hq rfl rfl rfl fun _ _ _ => rfl).1
  bgBitmap := h.bgBitmap
  used := h.used
  same := h.same
  free := h.free
  cache {e} he := by
    have hinj' : ∀ {e e'}, (io.fs.indirectCache.entries e).valid = true →
        (io.fs.indirectCache.entries e').valid = true →
        (io.fs.indirectCache.entries e).blockNo = (io.fs.indirectCache.entries e').blockNo →
        e = e' := by
      intro e e' hv hv' heq
      rw [(h.cache hv).1, (h.cache hv').1] at heq
      rw [(h.cache hv).1] at hv
      rw [(h.cache hv').1] at hv'
      exact hinj hv hv' heq
    obtain ⟨heq, hv, hne⟩ := IndirectCache.invalidate_valid hinj' he
    refine ⟨heq.trans (h.cache hv).1, fun hmem => ?_⟩
    rcases mem_cons.1 hmem with hb | hmem
    · rw [(h.cache hv).1] at hne
      exact hne hb
    · exact (h.cache hv).2 hmem

/-! ## The walk -/

/-- What a call that started in `io₀` has done: released the blocks of `L`, dropped those of `I`
from the cache, and cleared the entries of `i_data` in `Z`. -/
structure Freeing (G : Geometry) (io₀ io : Io) (L I Z : List Nat) : Prop where
  vol : Freed G io₀.fs io.fs L I
  count : io.inode.iBlocks + G.sectors * L.length = io₀.inode.iBlocks
  data : ∀ k, io.inode.iData k = if k ∈ Z then 0 else io₀.inode.iData k

/-- Blocks that the inode has, each one once. -/
structure Owned (G : Geometry) (io₀ : Io) (L : List Nat) : Prop where
  nodup : L.Nodup
  inside : ∀ {b}, b ∈ L → G.Inside .block b
  used : ∀ {b}, b ∈ L → io₀.fs.usedNr G .block b = true
  notMeta : ∀ {b}, b ∈ L → ¬ io₀.fs.Meta G b
  count : G.sectors * L.length ≤ io₀.inode.iBlocks

theorem Freeing.perm (h : Freeing G io₀ io L I Z) (hL : L.Perm L') (hI : I.Perm I')
    (hZ : Z.Perm Z') : Freeing G io₀ io L' I' Z' where
  vol := h.vol.perm hL hI
  count := by rw [← hL.length_eq, h.count]
  data k := by
    rw [h.data k]
    exact if_congr hZ.mem_iff rfl rfl

theorem Owned.subperm (h : Owned G io₀ L) (hsub : L'.Subperm L) : Owned G io₀ L' where
  nodup := by
    obtain ⟨l, hperm, hl⟩ := hsub
    exact hperm.nodup_iff.1 (h.nodup.sublist hl)
  inside hb := h.inside (hsub.subset hb)
  used hb := h.used (hsub.subset hb)
  notMeta hb := h.notMeta (hsub.subset hb)
  count := le_trans (mul_le_mul_left _ hsub.length_le) h.count

theorem Freeing.release (h : Freeing G io₀ io L I Z) (hown : Owned G io₀ (b :: L)) (hb : b ≠ 0) :
    ∃ io', ext2ReleaseInodeBlock G b io = .ok () io' ∧ Freeing G io₀ io' (b :: L) I Z := by
  have hmem : b ∈ b :: L := mem_cons_self
  obtain ⟨fs', heq, hvol⟩ := h.vol.release (hown.inside hmem) hb (hown.used hmem)
    (nodup_cons.1 hown.nodup).1
  have hcount := h.count
  have hle := hown.count
  rw [length_cons, mul_succ] at hle
  refine ⟨(io.setFs fs').setIBlocks (io.inode.iBlocks - G.sectors), ?_, hvol, ?_, h.data⟩
  · rw [ext2ReleaseInodeBlock, if_neg (by omega), heq]
    rfl
  · change io.inode.iBlocks - G.sectors + G.sectors * (L.length + 1) = _
    rw [mul_succ]
    omega

/-- A loop whose steps release the blocks `N i` releases all of them. -/
theorem Freeing.forM {f : Nat → M Unit} {N J K : Nat → List Nat}
    (hstep : ∀ i ∈ l, ∀ {io L I Z}, Freeing G io₀ io L I Z → Owned G io₀ (N i ++ L) →
      (K i ++ Z).Nodup → ∃ io', f i io = .ok () io' ∧
        Freeing G io₀ io' (N i ++ L) (J i ++ I) (K i ++ Z))
    (h : Freeing G io₀ io L I Z) (hown : Owned G io₀ (l.flatMap N ++ L))
    (hZ : (l.flatMap K ++ Z).Nodup) :
    ∃ io', l.forM f io = .ok () io' ∧
      Freeing G io₀ io' (l.flatMap N ++ L) (l.flatMap J ++ I) (l.flatMap K ++ Z) := by
  induction l generalizing io L I Z with
  | nil => exact ⟨io, rfl, h⟩
  | cons i l ih =>
    have hperm : ∀ (F : Nat → List Nat) (R : List Nat),
        (l.flatMap F ++ (F i ++ R)).Perm ((i :: l).flatMap F ++ R) := fun F R => by
      rw [flatMap_cons, append_assoc]
      exact perm_append_comm_assoc _ _ _
    have hsub : ∀ (F : Nat → List Nat) (R : List Nat),
        (F i ++ R).Sublist (l.flatMap F ++ (F i ++ R)) := fun F R =>
      sublist_append_right _ _
    have hown' : Owned G io₀ (l.flatMap N ++ (N i ++ L)) := hown.subperm (hperm N L).subperm
    have hZ' : (l.flatMap K ++ (K i ++ Z)).Nodup := (hperm K Z).nodup_iff.2 hZ
    obtain ⟨io₁, hone, h₁⟩ := hstep i mem_cons_self h (hown'.subperm (hsub N L).subperm)
      (hZ'.sublist (hsub K Z))
    obtain ⟨io₂, hrest, h₂⟩ :=
      ih (fun i hi => hstep i (mem_cons_of_mem _ hi)) h₁ hown' hZ'
    refine ⟨io₂, ?_, h₂.perm (hperm N L) (hperm J I) (hperm K Z)⟩
    exact (bind_ok hone).trans hrest

theorem releaseBranch_succ (hb : b ≠ 0) : releaseBranch G (h + 1) b =
    readBlock G b >>= fun buf => (List.range G.perBlock).forM (fun i =>
      if buf.word (4 * i) 4 = 0 then pure () else releaseBranch G h (buf.word (4 * i) 4)) >>=
      fun _ => ext2IndirectCacheInvalidate b >>= fun _ => ext2ReleaseInodeBlock G b := by
  rw [releaseBranch, if_neg hb]

section Branch

variable (hinj : ∀ {e e'}, (io₀.fs.indirectCache.entries e).valid = true →
  (io₀.fs.indirectCache.entries e').valid = true →
  (io₀.fs.indirectCache.entries e).blockNo = (io₀.fs.indirectCache.entries e').blockNo → e = e')

include hinj in
/-- A branch is released: the blocks below first, then its own block. -/
theorem releaseBranch_spec (hb : b ≠ 0) (hf : Freeing G io₀ io L I Z) (hZ : Z.Nodup)
    (hown : Owned G io₀ (PtrTree.nodes G.perBlock (ptr G io₀.fs) h b ++ L)) :
    ∃ io', releaseBranch G h b io = .ok () io' ∧
      Freeing G io₀ io' (PtrTree.nodes G.perBlock (ptr G io₀.fs) h b ++ L)
        (PtrTree.inner G.perBlock (ptr G io₀.fs) h b ++ I) Z := by
  induction h generalizing b io L I Z with
  | zero =>
    rw [PtrTree.nodes, if_neg hb] at hown ⊢
    exact hf.release hown hb
  | succ h ih =>
    rw [PtrTree.nodes_succ hb] at hown ⊢
    rw [PtrTree.inner_succ hb, releaseBranch_succ hb,
      bind_ok (readBlock_eq (by exact hf.vol.image.quiet))]
    have hnotMeta : ¬ io₀.fs.Meta G b := hown.notMeta mem_cons_self
    generalize hbuf : io.fs.bdev.data.slice (b * G.blockSize) G.blockSize = buf
    -- the block has the pointers it had at the start
    have hword : ∀ i ∈ List.range G.perBlock, buf.word (4 * i) 4 = ptr G io₀.fs b i := by
      intro i hi
      rw [← hbuf, word_block (mem_range.1 hi), ptr_congr (hf.vol.same hnotMeta) (mem_range.1 hi)]
    have hstep : ∀ i ∈ List.range G.perBlock, ∀ {io L I Z}, Freeing G io₀ io L I Z →
        Owned G io₀ (PtrTree.nodes G.perBlock (ptr G io₀.fs) h (ptr G io₀.fs b i) ++ L) →
        (([] : List Nat) ++ Z).Nodup →
        ∃ io', (if buf.word (4 * i) 4 = 0 then pure ()
            else releaseBranch G h (buf.word (4 * i) 4) : M Unit) io = .ok () io' ∧
          Freeing G io₀ io' (PtrTree.nodes G.perBlock (ptr G io₀.fs) h (ptr G io₀.fs b i) ++ L)
            (PtrTree.inner G.perBlock (ptr G io₀.fs) h (ptr G io₀.fs b i) ++ I) ([] ++ Z) := by
      intro i hi io L I Z hf hown hZ
      rw [hword i hi]
      split <;> rename_i hzero
      · rw [hzero, PtrTree.nodes_zero, PtrTree.inner_zero]
        exact ⟨io, rfl, hf⟩
      · exact ih hzero hf hZ hown
    have hnil : (List.range G.perBlock).flatMap (fun _ => ([] : List Nat)) = [] :=
      flatMap_eq_nil_iff.2 fun _ _ => rfl
    obtain ⟨io₁, hloop, h₁⟩ := Freeing.forM hstep hf
      (hown.subperm (sublist_cons_self _ _).subperm) (by rw [hnil]; exact hZ)
    rw [hnil] at h₁
    have hdrop : ext2IndirectCacheInvalidate b io₁ = .ok () (io₁.uncache b) := by
      rw [ext2IndirectCacheInvalidate, if_neg hb]
      rfl
    rw [bind_ok hloop, bind_ok hdrop]
    exact Freeing.release ⟨h₁.vol.uncache hinj, h₁.count, h₁.data⟩ hown hb

include hinj in
theorem freeSlot_spec (hf : Freeing G io₀ io L I Z) (hk : (k :: Z).Nodup) (hown : Owned G io₀
      (PtrTree.nodes G.perBlock (ptr G io₀.fs) (height k) (io₀.inode.iData k) ++ L)) :
    ∃ io', freeSlot G k io = .ok () io' ∧ Freeing G io₀ io'
        (PtrTree.nodes G.perBlock (ptr G io₀.fs) (height k) (io₀.inode.iData k) ++ L)
        (PtrTree.inner G.perBlock (ptr G io₀.fs) (height k) (io₀.inode.iData k) ++ I) (k :: Z) := by
  obtain ⟨hkZ, hZ⟩ := nodup_cons.1 hk
  have hdata : io.inode.iData k = io₀.inode.iData k := by rw [hf.data k, if_neg hkZ]
  rw [freeSlot, bind_ok get_eq, hdata]
  by_cases hzero : io₀.inode.iData k = 0
  · rw [if_pos hzero, hzero, PtrTree.nodes_zero, PtrTree.inner_zero]
    refine ⟨io, rfl, hf.vol, hf.count, fun l => ?_⟩
    rw [hf.data l]
    by_cases hlk : l = k
    · rw [hlk, if_neg hkZ, hzero, if_pos mem_cons_self]
    · exact if_congr (by simp [hlk]) rfl rfl
  · obtain ⟨io₁, heq, h₁⟩ := releaseBranch_spec hinj hzero hf hZ hown
    rw [if_neg hzero, bind_ok heq, storeIData_eq]
    refine ⟨_, rfl, h₁.vol, h₁.count, fun l => ?_⟩
    change update io₁.inode.iData k 0 l = _
    by_cases hlk : l = k
    · rw [hlk, update_self, if_pos mem_cons_self]
    · rw [update_of_ne hlk, h₁.data l]
      exact if_congr (by simp [hlk]) rfl rfl

end Branch

/-! ## All blocks of an inode -/

variable {s : Sys m} {x : Fin m}

theorem blocks_eq : s.blocks G = (List.finRange m).flatMap (s.blocksOf G) := by
  rw [Sys.blocks, slots]
  simp only [SProd.sprod, List.product, flatMap_assoc, flatMap_map]
  rfl

theorem blocksOf_set : (s.set x io).blocksOf G x = (List.range 15).flatMap fun k =>
    PtrTree.nodes G.perBlock (ptr G io.fs) (height k) (io.inode.iData k) := by
  simp only [Sys.blocksOf, Sys.tree, set_root]
  rfl

theorem owned_blocksOf (h : (s.set x io).Consistent G) : Owned G io ((s.set x io).blocksOf G x) where
  nodup := by
    have hnodup := h.nodup
    rw [blocks_eq] at hnodup
    exact nodup_of_nodup_flatMap hnodup (mem_finRange x)
  inside hb := h.inside (blocksOf_length_le x _ hb)
  used hb := h.used (blocksOf_length_le x _ hb)
  notMeta hb := h.notMeta (blocksOf_length_le x _ hb)
  count := by
    rw [← h.count x, set_inode]

theorem Freeing.consistent (h : (s.set x io).Consistent G)
    (hf : Freeing G io io' ((s.set x io).blocksOf G x)
      ((List.range 15).flatMap fun k => (s.set x io).inner G (x, k)) (List.range 15)) :
    (s.set x io').Consistent G ∧ ∀ {q}, q ∈ slots m → q.1 ≠ x →
      (s.set x io').root q = (s.set x io).root q ∧
      ∀ b ∈ (s.set x io).inner G q, SameBlock G io.fs io'.fs b := by
  have hroot : ∀ {q : Fin m × Nat}, q.1 ≠ x → (s.set x io').root q = (s.set x io).root q :=
    fun hq => (set_root_ne hq).trans (set_root_ne hq).symm
  have hsame : ∀ {b}, b ∈ (s.set x io).blocks G → SameBlock G io.fs io'.fs b := fun hb =>
    hf.vol.same (h.notMeta hb)
  have hinner : ∀ {q}, q ∈ slots m → ∀ b ∈ (s.set x io).inner G q, SameBlock G io.fs io'.fs b :=
    fun hq b hb => hsame (mem_blocks hq (inner_subset hb))
  have hempty : ∀ {k}, k < 15 → (s.set x io').tree G (x, k) = [] := fun {k} hk => by
    rw [Sys.tree, set_root, hf.data k, if_pos (mem_range.2 hk), PtrTree.nodes_zero]
  have hother : ∀ {q : Fin m × Nat}, q ∈ slots m → q.1 ≠ x →
      (s.set x io').tree G q = (s.set x io).tree G q := fun hq hne =>
    tree_congr (hroot hne) (hinner hq)
  have hnone : (s.set x io').blocksOf G x = [] :=
    flatMap_eq_nil_iff.2 fun k hk => hempty (mem_range.1 hk)
  have hmeta : ∀ {b}, io'.fs.Meta G b ↔ io.fs.Meta G b := Volume.Meta.congr hf.vol.bgBitmap
  -- a block that is left belongs to another inode
  have hleft : ∀ {b}, b ∈ (s.set x io').blocks G →
      b ∈ (s.set x io).blocks G ∧ b ∉ (s.set x io).blocksOf G x := by
    intro b hb
    obtain ⟨⟨y, k⟩, hq, hb⟩ := mem_flatMap.1 hb
    by_cases hy : y = x
    · subst hy
      rw [hempty (mem_slots.1 hq)] at hb
      cases hb
    · rw [hother hq hy] at hb
      refine ⟨mem_blocks hq hb, fun hx => ?_⟩
      obtain ⟨l, hl, hx⟩ := mem_flatMap.1 hx
      exact disjoint_of_nodup_flatMap h.nodup hq (mem_slots.2 (mem_range.1 hl))
        (fun he => hy (congrArg Prod.fst he)) hb hx
  refine ⟨?_, fun hq hne => ⟨hroot hne, hinner hq⟩⟩
  constructor
  case image => exact hf.vol.image
  case metaUsed =>
    intro b hin hm
    refine (hf.vol.used hin).trans ?_
    rw [if_neg fun hb => h.notMeta (blocksOf_length_le x b hb) (hmeta.1 hm)]
    exact h.metaUsed hin (hmeta.1 hm)
  case nodup =>
    refine h.nodup.sublist (Sublist.flatMap_right _ fun q hq => ?_)
    obtain ⟨y, k⟩ := q
    by_cases hy : y = x
    · subst hy
      rw [hempty (mem_slots.1 hq)]
      exact nil_sublist _
    · rw [hother hq hy]
  case inside => exact fun hb => h.inside (hleft hb).1
  case used =>
    intro b hb
    refine (hf.vol.used (h.inside (hleft hb).1)).trans ?_
    rw [if_neg (hleft hb).2]
    exact h.used (hleft hb).1
  case notMeta => exact fun hb hm => h.notMeta (hleft hb).1 (hmeta.1 hm)
  case count =>
    intro y
    by_cases hy : y = x
    · subst hy
      have hcount := hf.count
      have hold := h.count y
      rw [set_inode] at hold
      rw [set_inode, hnone]
      change io'.inode.iBlocks = 0
      omega
    · have hblocks : (s.set x io').blocksOf G y = (s.set x io).blocksOf G y :=
        flatMap_congr fun k hk => hother (mem_slots.2 (mem_range.1 hk)) hy
      rw [hblocks, ← h.count y, set_inode_ne hy, set_inode_ne hy]
  case cached =>
    have hvalid : ∀ {e}, (io'.fs.indirectCache.entries e).valid = true →
        (io.fs.indirectCache.entries e).valid = true := fun he => by
      rw [← (hf.vol.cache he).1]
      exact he
    refine ⟨fun {e} he => ?_, fun {e} he y hy => ?_, fun {e e'} he he' heq => ?_⟩
    · obtain ⟨⟨y, k⟩, hq, hmem⟩ := h.cached.inner (hvalid he)
      refine ⟨(y, k), hq, ?_⟩
      change (io'.fs.indirectCache.entries e).blockNo ∈ _
      rw [(hf.vol.cache he).1]
      have hy : y ≠ x := by
        rintro rfl
        exact (hf.vol.cache he).2 (mem_flatMap.2 ⟨k, mem_range.2 (mem_slots.1 hq), hmem⟩)
      exact inner_congr (hroot hy) (hinner hq) hmem
    · obtain ⟨q, hq, hmem⟩ := h.cached.inner (hvalid he)
      change (io'.fs.indirectCache.entries e).data y =
        io'.fs.bdev.data ((io'.fs.indirectCache.entries e).blockNo * G.blockSize + y)
      rw [(hf.vol.cache he).1]
      exact (h.cached.copy (hvalid he) y hy).trans (hinner hq _ hmem y hy).symm
    · change (io'.fs.indirectCache.entries e).blockNo = (io'.fs.indirectCache.entries e').blockNo at heq
      rw [(hf.vol.cache he).1, (hf.vol.cache he').1] at heq
      exact h.cached.inj (hvalid he) (hvalid he') heq

/-- `ext2_free_inode_blocks` succeeds; it releases the blocks of the inode, each of them once. -/
theorem freeBlocks_spec (h : (s.set x io).Consistent G) : ∃ io', freeBlocks G io = .ok () io' ∧
    Freeing G io io' ((s.set x io).blocksOf G x)
      ((List.range 15).flatMap fun k => (s.set x io).inner G (x, k)) (List.range 15) := by
  have hsingle : (List.range 15).flatMap (fun k => [k]) = List.range 15 := by rfl
  have hinner : ((List.range 15).flatMap fun k => (s.set x io).inner G (x, k)) =
      (List.range 15).flatMap fun k =>
        PtrTree.inner G.perBlock (ptr G io.fs) (height k) (io.inode.iData k) := by
    simp only [Sys.inner, set_root]
    rfl
  have hown := owned_blocksOf h
  rw [blocksOf_set] at hown ⊢
  rw [hinner]
  have hstart : Freeing G io io [] [] [] := ⟨.refl h.image, rfl, fun _ => rfl⟩
  obtain ⟨io₁, hloop, h₁⟩ := Freeing.forM
    (fun k _ {_ _ _ _} hf hown hk => freeSlot_spec h.cached.inj hf hk hown) hstart
    (by rw [append_nil]; exact hown) (by rw [hsingle, append_nil]; exact nodup_range)
  rw [hsingle, append_nil, append_nil, append_nil] at h₁
  refine ⟨_, (bind_ok hloop).trans rfl, ?_⟩
  exact ⟨h₁.vol, h₁.count, h₁.data⟩

end ZzzOs.Fs.Ext2
