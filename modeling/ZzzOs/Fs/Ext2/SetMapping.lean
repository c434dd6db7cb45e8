import ZzzOs.Fs.Ext2.Grow

/-!
# `ext2_block_set_mapping` without errors

Each level of the walk finds its block or puts a new one there. So a call that succeeds leaves the
file system consistent, its index mapped to the block it returns, and every other index, of every
inode, mapped as before.
-/

namespace ZzzOs.Fs.Ext2

open Nat Function Lib List

section Bind

variable {α β : Type} {f : M α} {g : α → M β} {io io' : Io} {a : α} {e : Int}

theorem bind_ok (h : f io = .ok a io') : (f >>= g) io = g a io' := by
  change EStateM.bind f g io = _
  rw [EStateM.bind, h]

theorem bind_error (h : f io = .error e io') : (f >>= g) io = .error e io' := by
  change EStateM.bind f g io = _
  rw [EStateM.bind, h]

end Bind

variable {m index' l : Nat} {G : Geometry} {fs fs' : Volume} {io io' io₁ : Io} {a b c g i j k : Nat}
  {buf : Bytes} {is js rest : List Nat}

/-! ## Single requests -/

/-- Block `b` is written. -/
def Io.put (G : Geometry) (io : Io) (b : Nat) (buf : Bytes) : Io :=
  io.setFs (io.fs.setData (io.fs.bdev.data.write (b * G.blockSize) G.blockSize buf))

def Io.uncache (io : Io) (b : Nat) : Io := io.setCache (io.fs.indirectCache.invalidate b)

def Io.took (G : Geometry) (io : Io) (g j : Nat) : Io :=
  (io.setFs (io.fs.take G .block g j)).setIBlocks (io.inode.iBlocks + G.sectors)

theorem readBlock_eq (h : io.fs.bdev.Quiet) : readBlock G b io =
    .ok (io.fs.bdev.data.slice (b * G.blockSize) G.blockSize) io := by
  unfold readBlock
  rw [h.read]
  rfl

theorem writeBlock_eq (h : io.fs.bdev.Quiet) : writeBlock G b buf io = .ok () (io.put G b buf) := by
  unfold writeBlock
  rw [h.write]
  rfl

theorem cacheWrite_eq (io : Io) (buf : Bytes) (h : io.fs.bdev.Quiet) (hb : b ≠ 0) :
    ext2IndirectCacheWrite G b buf io = .ok () ((io.uncache b).put G b buf) := by
  rw [ext2IndirectCacheWrite, if_neg hb]
  exact writeBlock_eq (by exact h)

theorem newBlock_cases (io : Io) (h : io.fs.Image G) : newBlock G io = .error (-enospc) io ∨
    ∃ g j, g < G.groupsCount ∧ j < G.maxBits .block g ∧ io.fs.used G .block g j = false ∧
      G.nr .block g j ≠ 0 ∧ newBlock G io = .ok (G.nr .block g j) (io.took G g j) := by
  by_cases hlimit : io.inode.iBlocks > 2 ^ 32 - 1 - G.sectors
  · refine .inl ?_
    have halloc : ext2AllocInodeBlock G io = .ok 0 io := by
      rw [ext2AllocInodeBlock, if_pos hlimit]
    rw [newBlock, bind_ok halloc]
    rfl
  · rcases ext2Alloc_cases h .block with ⟨g, j, hg, hj, hclear, heq⟩ | ⟨-, heq⟩
    · have hne := nr_ne_zero h hclear
      have halloc : ext2AllocInodeBlock G io = .ok (G.nr .block g j) (io.took G g j) := by
        rw [ext2AllocInodeBlock, if_neg hlimit, show ext2AllocBno G io.fs = _ from heq]
        dsimp only
        rw [if_neg hne]
        rfl
      refine .inr ⟨g, j, hg, hj, hclear, hne, ?_⟩
      rw [newBlock, bind_ok halloc, if_neg hne]
      rfl
    · refine .inl ?_
      have halloc : ext2AllocInodeBlock G io = .ok 0 io := by
        rw [ext2AllocInodeBlock, if_neg hlimit, show ext2AllocBno G io.fs = _ from heq]
        rfl
      rw [newBlock, bind_ok halloc]
      rfl

/-! ## The cache -/

namespace IndirectCache

variable {cache : IndirectCache} {e : Fin indirectCacheSize} {blockNo : Nat}

theorem find_eq_none : cache.ext2IndirectCacheFind blockNo = none ↔
    ∀ e, (cache.entries e).valid = true → (cache.entries e).blockNo ≠ blockNo := by
  simp [ext2IndirectCacheFind, List.find?_eq_none, mem_finRange]

theorem find_eq_some (h : cache.ext2IndirectCacheFind blockNo = some e) :
    (cache.entries e).valid = true ∧ (cache.entries e).blockNo = blockNo := by
  have := List.find?_some h
  simpa using this

theorem invalidate_valid
    (hinj : ∀ {e e'}, (cache.entries e).valid = true → (cache.entries e').valid = true →
      (cache.entries e).blockNo = (cache.entries e').blockNo → e = e')
    (h : ((cache.invalidate blockNo).entries e).valid = true) :
    (cache.invalidate blockNo).entries e = cache.entries e ∧
      (cache.entries e).valid = true ∧ (cache.entries e).blockNo ≠ blockNo := by
  unfold invalidate at h ⊢
  cases hf : cache.ext2IndirectCacheFind blockNo with
  | none =>
    rw [hf] at h
    exact ⟨rfl, h, find_eq_none.1 hf e h⟩
  | some e₀ =>
    rw [hf] at h
    obtain ⟨hv, hb⟩ := find_eq_some hf
    change (update cache.entries e₀ _ e).valid = true at h
    change update cache.entries e₀ _ e = _ ∧ _
    by_cases he : e = e₀
    · subst he
      rw [update_self] at h
      cases h
    · rw [update_of_ne he] at h ⊢
      exact ⟨rfl, h, fun hbe => he (hinj h hv (hbe.trans hb.symm))⟩

end IndirectCache

/-! ## The new block in its place -/

/-- The file system after a call for inode `x`. -/
def Sys.set (s : Sys m) (x : Fin m) (io : Io) : Sys m :=
  ⟨io.fs, update s.inodes x io.inode⟩

/-- Inode `x` with the file system. -/
def Sys.at (s : Sys m) (x : Fin m) : Io := ⟨s.fs, s.inodes x⟩

theorem Sys.set_at (s : Sys m) (x : Fin m) : s.set x (s.at x) = s := by
  rw [Sys.set, Sys.at, update_eq_self]

variable {s S : Sys m} {x y : Fin m} {index : Nat} {p : Fin m × Nat}

theorem set_inode : (s.set x io).inodes x = io.inode := update_self _ _ _

theorem set_inode_ne (h : y ≠ x) : (s.set x io).inodes y = s.inodes y :=
  update_of_ne h _ _

theorem set_root (k : Nat) : (s.set x io).root (x, k) = io.inode.iData k := by
  rw [Sys.root, set_inode]

theorem set_root_ne {q : Fin m × Nat} (h : q.1 ≠ x) :
    (s.set x io).root q = (s.inodes q.1).iData q.2 := by
  rw [Sys.root, set_inode_ne h]

theorem set_root_congr (hdata : io'.inode.iData = io.inode.iData) (q : Fin m × Nat) :
    (s.set x io').root q = (s.set x io).root q := by
  obtain ⟨y, l⟩ := q
  by_cases hy : y = x
  · rw [hy, set_root, set_root, hdata]
  · rw [set_root_ne hy, set_root_ne hy]

theorem Volume.Image.congr (h : fs.Image G) (hq : fs'.bdev.Quiet) (hgdt : fs'.gdt = fs.gdt)
    (hraw : fs'.rawSb = fs.rawSb) (hfree : fs'.sFree = fs.sFree)
    (hmeta : ∀ {b}, fs.Meta G b → SameBlock G fs fs' b) :
    fs'.Image G ∧ ∀ {b}, G.Inside .block b → fs'.usedNr G .block b = fs.usedNr G .block b := by
  have hbm : ∀ k g, fs'.bgBitmap k g = fs.bgBitmap k g := fun k g => by
    rw [Volume.bgBitmap, hgdt]
    rfl
  have hused : ∀ {k g j}, g < G.groupsCount → j < G.maxBits k g →
      fs'.used G k g j = fs.used G k g j := fun {k g j} hg hj =>
    used_congr (hbm k g) (lt_of_lt_of_le hj (G.maxBits_le_bits k))
      (hmeta (.inr (.inr ⟨k, g, hg, rfl⟩)))
  have hzeros : ∀ {k g}, g < G.groupsCount → fs'.zeros G k g = fs.zeros G k g := fun hg =>
    zeros_congr fun j hj => hused hg hj
  have hsum : ∀ k, ∑ g ∈ Finset.range G.groupsCount, fs'.zeros G k g =
      ∑ g ∈ Finset.range G.groupsCount, fs.zeros G k g := fun k =>
    Finset.sum_congr rfl fun g hg => hzeros (Finset.mem_range.1 hg)
  refine ⟨⟨hq, layout_congr h.layout hbm, ⟨fun {k g} hg => ?_, fun k => ?_, fun k => ?_⟩,
    fun hf => ?_⟩, fun {b} hb => ?_⟩
  · rw [hzeros hg, ← h.counted.group hg, Volume.bgFree, hgdt]
    rfl
  · rw [hsum, ← h.counted.sbi, hfree]
  · rw [hsum, ← h.counted.raw, Volume.rawFree, hraw]
    rfl
  · rw [hused G.groupsCount_pos maxBits_pos]
    exact h.zero hf
  · obtain ⟨g, j, hg, hj, rfl⟩ := G.exists_bit .block hb.1 hb.2
    rw [usedNr_nr hj, usedNr_nr hj, hused hg hj]

section Place

variable (h : (s.set x io).Consistent G) (hg : g < G.groupsCount) (hj : j < G.maxBits .block g)
  (hclear : io.fs.used G .block g j = false)

include h hg hj hclear in
theorem fresh_nr : Fresh G (s.set x io) (G.nr .block g j) where
  inside := inside_nr hg hj
  free := by
    rw [usedNr_nr hj]
    exact hclear
  ne_zero := nr_ne_zero h.image hclear
  notMeta hm := by
    have hused := h.metaUsed (inside_nr hg hj) hm
    rw [usedNr_nr hj] at hused
    rw [show io.fs.used G .block g j = true from hused] at hclear
    cases hclear

include h hg hj hclear in
theorem taken_nr (hq : io'.fs.bdev.Quiet) (hgdt : io'.fs.gdt = (io.fs.take G .block g j).gdt)
    (hraw : io'.fs.rawSb = (io.fs.take G .block g j).rawSb)
    (hfree : io'.fs.sFree = (io.fs.take G .block g j).sFree)
    (hmeta : ∀ {b}, io.fs.Meta G b → SameBlock G (io.fs.take G .block g j) io'.fs b)
    (hcount : io'.inode.iBlocks = io.inode.iBlocks + G.sectors) :
    Taken G (s.set x io) (s.set x io') x (G.nr .block g j) := by
  have hbm : ∀ k' g', (io.fs.take G .block g j).bgBitmap k' g' = io.fs.bgBitmap k' g' :=
    fun _ _ => bgBitmap_putBitmap
  have htake : (io.fs.take G .block g j).Image G := h.image.take hg hj hclear
  obtain ⟨himage, hused⟩ := htake.congr hq hgdt hraw hfree fun {b} hb =>
    hmeta ((Volume.Meta.congr hbm).1 hb)
  refine ⟨himage, fun k' g' => ?_, fun {b} hb => ?_, ?_, fun {y} hy => ?_⟩
  · refine Eq.trans ?_ (hbm k' g')
    change io'.fs.bgBitmap k' g' = _
    rw [Volume.bgBitmap, hgdt]
    rfl
  · exact (hused hb).trans (usedNr_of_used hj hb (used_take h.image.layout hg))
  · rw [set_inode, set_inode, hcount]
  · rw [set_inode_ne hy, set_inode_ne hy]

theorem sameBlock_put (io : Io) (hb : b ≠ a) : SameBlock G io.fs (io.put G a buf).fs b := fun y hy => by
  have hdis := block_disjoint (s := G.blockSize) hb
  exact Bytes.write_out (by omega)

theorem zeroBlock_put : ZeroBlock G (io.put G c zeroBuf).fs c := fun _ hy => Bytes.write_in hy

def Io.rooted (G : Geometry) (io : Io) (g j k : Nat) : Io :=
  ((io.took G g j).setIData k (G.nr .block g j)).put G (G.nr .block g j) zeroBuf

theorem rooted_iData : (io.rooted G g j k).inode.iData k = G.nr .block g j := update_self _ _ _

include h hg hj hclear in
theorem graft_root (hk : k < 15) (hold : io.inode.iData k = 0) :
    Graft G (s.set x io) (s.set x (io.rooted G g j k)) (x, k) [] (G.nr .block g j) := by
  have hfresh := fresh_nr h hg hj hclear
  have hzero : ZeroBlock G (io.rooted G g j k).fs (G.nr .block g j) := zeroBlock_put
  have hput : ∀ {b}, b ≠ G.nr .block g j →
      SameBlock G (io.fs.take G .block g j) (io.rooted G g j k).fs b :=
    fun hb => sameBlock_put ((io.took G g j).setIData k (G.nr .block g j)) hb
  have hsame : ∀ {b}, b ∈ (s.set x io).blocks G → SameBlock G io.fs (io.rooted G g j k).fs b := by
    intro b hb y hy
    have hne : b ≠ G.nr .block g j := fun he => hfresh.not_mem h (he ▸ hb)
    rw [hput hne y hy]
    exact sameBlock_putBitmap hg (h.notMeta hb) y hy
  have hgrown : Grown G (s.set x io) (s.set x (io.rooted G g j k)) (x, k) [] (G.nr .block g j) := by
    refine grown_root hfresh.ne_zero ?_ ?_ (fun {q} hq => ?_) hsame hzero
    · rw [set_root, hold]
    · rw [set_root]
      exact update_self k _ _
    · by_cases hqx : q.1 = x
      · obtain ⟨y, l⟩ := q
        obtain rfl : y = x := hqx
        rw [set_root, set_root]
        exact update_of_ne (fun hl => hq (by rw [hl])) _ _
      · rw [set_root_ne hqx, set_root_ne hqx]
  have htaken : Taken G (s.set x io) (s.set x (io.rooted G g j k)) x (G.nr .block g j) :=
    taken_nr h hg hj hclear h.image.quiet rfl rfl rfl
      (fun {b} hb => hput fun he => hfresh.notMeta (he ▸ hb)) rfl
  refine ⟨hgrown, hfresh, ?_, hzero, fun hb _ => hsame hb⟩
  refine hgrown.consistent h (mem_slots.2 hk) hfresh htaken fun {e} he => ⟨rfl, ?_⟩
  obtain ⟨q, hq, hmem⟩ := h.cached.inner he
  exact hsame (mem_blocks hq (inner_subset hmem))

theorem ptr_put (hi : i < G.perBlock) : ptr G (io.put G a buf).fs a i = buf.word (4 * i) 4 := by
  have hle := perBlock_le hi
  refine (Bytes.word_slice hle).symm.trans (Bytes.word_congr fun y _ hy => ?_)
  exact Bytes.slice_write_self (by omega)

theorem word_setWord (hc : c < 2 ^ 32) :
    (buf.setWord (4 * i) 4 c).word (4 * l) 4 = if l = i then c else buf.word (4 * l) 4 := by
  split_ifs with hli
  · rw [hli, Bytes.word_setWord_self, mod_eq_of_lt hc]
  · exact Bytes.word_setWord_disjoint (by omega)

def Io.linked (G : Geometry) (io : Io) (g j a i : Nat) (buf : Bytes) : Io :=
  (((io.took G g j).uncache a).put G a (buf.setWord (4 * i) 4 (G.nr .block g j))).put G
    (G.nr .block g j) zeroBuf

include h hg hj hclear in
theorem graft_block (hk : k < 15) (hlen : is.length < height k)
    (his : ∀ i ∈ is, i < G.perBlock) (hi : i < G.perBlock) (ha : (s.set x io).find G (x, k) is = a)
    (ha0 : a ≠ 0) (hbuf : ∀ l < G.perBlock, buf.word (4 * l) 4 = ptr G io.fs a l)
    (hold : ptr G io.fs a i = 0) :
    Graft G (s.set x io) (s.set x (io.linked G g j a i buf)) (x, k) (is ++ [i])
      (G.nr .block g j) := by
  have hfresh := fresh_nr h hg hj hclear
  have hp : (x, k) ∈ slots m := mem_slots.2 hk
  have hne : (s.set x io).find G (x, k) is ≠ 0 := ha.symm ▸ ha0
  have hmem : a ∈ (s.set x io).inner G (x, k) := by
    rw [← ha]
    exact PtrTree.find_mem_inner hlen his hne
  have hblock : a ∈ (s.set x io).blocks G := mem_blocks hp (inner_subset hmem)
  have hac : a ≠ G.nr .block g j := fun he => hfresh.not_mem h (he ▸ hblock)
  have hzero : ZeroBlock G (io.linked G g j a i buf).fs (G.nr .block g j) := zeroBlock_put
  have hput : ∀ {b}, b ≠ G.nr .block g j → b ≠ a →
      SameBlock G (io.fs.take G .block g j) (io.linked G g j a i buf).fs b := by
    intro b hbc hba y hy
    exact (sameBlock_put _ hbc y hy).trans (sameBlock_put ((io.took G g j).uncache a) hba y hy)
  have hsame : ∀ {b}, b ∈ (s.set x io).blocks G → b ≠ a →
      SameBlock G io.fs (io.linked G g j a i buf).fs b := by
    intro b hb hba y hy
    rw [hput (fun he => hfresh.not_mem h (he ▸ hb)) hba y hy]
    exact sameBlock_putBitmap hg (h.notMeta hb) y hy
  have hptr : ∀ l < G.perBlock, ptr G (io.linked G g j a i buf).fs a l =
      if l = i then G.nr .block g j else ptr G io.fs a l := by
    intro l hl
    have hnr : G.nr .block g j < 2 ^ 32 :=
      lt_of_lt_of_le hfresh.inside.2 (G.total_lt .block)
    rw [Io.linked, ptr_congr (sameBlock_put _ hac) hl, ptr_put hl, word_setWord hnr, hbuf l hl]
  have hgrown : Grown G (s.set x io) (s.set x (io.linked G g j a i buf)) (x, k) (is ++ [i])
      (G.nr .block g j) := by
    refine grown_block h hp hfresh.ne_zero hlen his hi hne (by rw [ha]; exact hold)
      (by rw [ha]; exact (hptr i hi).trans (if_pos rfl)) (fun l hl hne => ?_) (set_root_congr rfl)
      (fun hb hne => hsame hb (ha ▸ hne)) hzero
    rw [ha]
    exact (hptr l hl).trans (if_neg hne)
  have htaken : Taken G (s.set x io) (s.set x (io.linked G g j a i buf)) x (G.nr .block g j) :=
    taken_nr h hg hj hclear h.image.quiet rfl rfl rfl
      (fun {b} hb => hput (fun he => hfresh.notMeta (he ▸ hb))
        fun he => h.notMeta hblock (he ▸ hb)) rfl
  refine ⟨hgrown, hfresh, ?_, hzero, fun {b} hb hin => hsame hb fun he => hin (he ▸ hmem)⟩
  refine hgrown.consistent h hp hfresh htaken fun {e} he => ?_
  obtain ⟨heq, hvalid, hne⟩ := IndirectCache.invalidate_valid h.cached.inj he
  obtain ⟨q, hq, hin⟩ := h.cached.inner hvalid
  exact ⟨heq, hsame (mem_blocks hq (inner_subset hin)) hne⟩

end Place

/-! ## Along a path -/

/-- A block that holds data of a file. -/
def Sys.Data (G : Geometry) (s : Sys m) (b : Nat) : Prop :=
  b ∈ s.blocks G ∧ ∀ q ∈ slots m, b ∉ s.inner G q

/-- Only empty places on the path `js` of entry `p` have got blocks. -/
structure Mapped (G : Geometry) (s s' : Sys m) (p : Fin m × Nat) (js : List Nat) : Prop where
  consistent : s'.Consistent G
  find : ∀ {q ls}, q ∈ slots m → ls.length ≤ height q.2 → (∀ i ∈ ls, i < G.perBlock) →
    s'.find G q ls = s.find G q ls ∨ (q = p ∧ ls <+: js ∧ s.find G q ls = 0)
  data : ∀ {b}, s.Data G b → s'.Data G b ∧ SameBlock G s.fs s'.fs b

section Path

variable {s₁ s₂ s₃ : Sys m} {p : Fin m × Nat} {is js : List Nat}

theorem Mapped.refl (h : s₁.Consistent G) : Mapped G s₁ s₁ p js :=
  ⟨h, fun _ _ _ => .inl rfl, fun hb => ⟨hb, fun _ _ => rfl⟩⟩

theorem Mapped.trans (h : Mapped G s₁ s₂ p js) (h' : Mapped G s₂ s₃ p js) :
    Mapped G s₁ s₃ p js := by
  refine ⟨h'.consistent, fun hq hlen hls => ?_, fun hb => ?_⟩
  · rcases h.find hq hlen hls with h1 | h1
    · rcases h'.find hq hlen hls with h2 | ⟨hqp, hpre, hzero⟩
      · exact .inl (h2.trans h1)
      · exact .inr ⟨hqp, hpre, h1 ▸ hzero⟩
    · exact .inr h1
  · obtain ⟨hb2, hsame2⟩ := h.data hb
    obtain ⟨hb3, hsame3⟩ := h'.data hb2
    exact ⟨hb3, fun y hy => (hsame3 y hy).trans (hsame2 y hy)⟩

theorem Graft.mapped (h : Graft G s₁ s₂ p is c) (hp : p ∈ slots m)
    (hzero : s₁.find G p is = 0) (hpre : is <+: js) (hs : s₁.Consistent G) :
    Mapped G s₁ s₂ p js := by
  refine ⟨h.consistent, fun {q ls} hq hlen hls => ?_, fun {b} hb => ⟨⟨?_, fun q hq hin => ?_⟩, ?_⟩⟩
  · rw [h.grown.find hq hlen hls]
    split_ifs with heq
    · obtain ⟨rfl, rfl⟩ := heq
      exact .inr ⟨rfl, hpre, hzero⟩
    · exact .inl rfl
  · exact (h.grown.mem_blocks hp).2 (.inr hb.1)
  · obtain ⟨ls, hlen, hls, hf, hb0⟩ := PtrTree.mem_inner_iff.1 hin
    have hf' := h.grown.find hq (le_of_lt hlen) hls
    rw [show s₂.find G q ls = b from hf] at hf'
    split at hf'
    · exact h.fresh.not_mem hs (hf' ▸ hb.1)
    · refine hb.2 q hq (PtrTree.mem_inner_iff.2 ⟨ls, hlen, hls, hf'.symm, hb0⟩)
  · exact h.same hb.1 (hb.2 p hp)

end Path

/-! ## One level -/

theorem uncache_eq (h : ∀ e, (io.fs.indirectCache.entries e).valid = true →
    (io.fs.indirectCache.entries e).blockNo ≠ b) : io.uncache b = io := by
  rw [Io.uncache, IndirectCache.invalidate, IndirectCache.find_eq_none.2 h]
  rfl

theorem not_cached (h : (s.set x io).Consistent G) (hb : b ∉ (s.set x io).blocks G)
    (e : Fin indirectCacheSize) (he : (io.fs.indirectCache.entries e).valid = true) :
    (io.fs.indirectCache.entries e).blockNo ≠ b := by
  rintro rfl
  obtain ⟨q, hq, hmem⟩ := h.cached.inner he
  exact hb (mem_blocks hq (inner_subset hmem))

theorem pointer_cases (indirect : Bool) (h : (s.set x io).Consistent G) (hk : k < 15)
    (hlen : is.length < height k) (his : ∀ i ∈ is, i < G.perBlock) (hi : i < G.perBlock)
    (ha : (s.set x io).find G (x, k) is = a) (ha0 : a ≠ 0)
    (hbuf : ∀ l < G.perBlock, buf.word (4 * l) 4 = ptr G io.fs a l) :
    (ptr G io.fs a i ≠ 0 ∧ pointer G indirect a buf i io = .ok (ptr G io.fs a i) io) ∨
    (ptr G io.fs a i = 0 ∧ pointer G indirect a buf i io = .error (-enospc) io) ∨
    ∃ c io', ptr G io.fs a i = 0 ∧ pointer G indirect a buf i io = .ok c io' ∧
      Graft G (s.set x io) (s.set x io') (x, k) (is ++ [i]) c := by
  by_cases hptr : ptr G io.fs a i = 0
  · have hword : buf.word (4 * i) 4 = 0 := (hbuf i hi).trans hptr
    refine .inr ?_
    rcases newBlock_cases io h.image with hnew | ⟨g, j, hg, hj, hclear, hne, hnew⟩
    · exact .inl ⟨hptr, by rw [pointer, if_pos hword, bind_error hnew]⟩
    · have hgraft := graft_block h hg hj hclear hk hlen his hi ha ha0 hbuf hptr
      refine .inr ⟨_, _, hptr, ?_, hgraft⟩
      have hq : (io.took G g j).fs.bdev.Quiet := h.image.quiet
      have hfresh : ((((io.took G g j).uncache a).put G a
          (buf.setWord (4 * i) 4 (G.nr .block g j))).uncache (G.nr .block g j)) =
          ((io.took G g j).uncache a).put G a (buf.setWord (4 * i) 4 (G.nr .block g j)) := by
        refine uncache_eq fun e he => ?_
        obtain ⟨heq, hvalid, -⟩ := IndirectCache.invalidate_valid h.cached.inj he
        rw [show (((io.took G g j).uncache a).put G a _).fs.indirectCache.entries e = _ from heq]
        exact not_cached h (hgraft.fresh.not_mem h) e hvalid
      rw [pointer, if_pos hword, bind_ok hnew, bind_ok (cacheWrite_eq _ _ hq ha0)]
      cases indirect with
      | true =>
        have hwrite := cacheWrite_eq (G := G)
          (((io.took G g j).uncache a).put G a (buf.setWord (4 * i) 4 (G.nr .block g j)))
          zeroBuf hq hne
        rw [hfresh] at hwrite
        rw [if_pos rfl, bind_ok hwrite]
        rfl
      | false =>
        rw [if_neg Bool.false_ne_true, bind_ok (writeBlock_eq (by exact hq))]
        rfl
  · refine .inl ⟨hptr, ?_⟩
    rw [pointer, if_neg (by rw [hbuf i hi]; exact hptr), hbuf i hi]
    rfl

/-! ## The walk -/

/-- What a walk along the path `js` of entry `p` has done: the block at its end is returned, and it
holds zeros if it is new; or there was no space. -/
def Walked (G : Geometry) (s : Sys m) (x : Fin m) (io : Io) (k : Nat) (js : List Nat) :
    EStateM.Result Int Io Nat → Prop
  | .ok b io' => Mapped G (s.set x io) (s.set x io') (x, k) js ∧ b ≠ 0 ∧
    (s.set x io').find G (x, k) js = b ∧
    ((s.set x io).find G (x, k) js = 0 → ZeroBlock G io'.fs b)
  | .error e io' => e = -enospc ∧ Mapped G (s.set x io) (s.set x io') (x, k) js

theorem find_concat (ha : S.find G p is ≠ 0) :
    S.find G p (is ++ [i]) = ptr G S.fs (S.find G p is) i := by
  rw [Sys.find, PtrTree.find_append]
  exact PtrTree.find_cons ha

theorem find_append_zero (h : S.find G p is = 0) : S.find G p (is ++ js) = 0 := by
  rw [Sys.find, PtrTree.find_append]
  rw [show PtrTree.find (ptr G S.fs) is (S.root p) = 0 from h, PtrTree.find_zero]

/-- A walk that has first changed the state to `io₁`, on the same path. -/
theorem Walked.of_mapped {r : EStateM.Result Int Io Nat}
    (h : Walked G s x io₁ k js r) (h₁ : Mapped G (s.set x io) (s.set x io₁) (x, k) js)
    (hzero : (s.set x io).find G (x, k) js = 0 → (s.set x io₁).find G (x, k) js = 0) :
    Walked G s x io k js r := by
  cases r with
  | ok b io' =>
    obtain ⟨hm, hb, hf, hz⟩ := h
    exact ⟨h₁.trans hm, hb, hf, fun h0 => hz (hzero h0)⟩
  | error e io' => exact ⟨h.1, h₁.trans h.2⟩

theorem walkDown_spec (is : List Nat) (h : (s.set x io).Consistent G) (hk : k < 15)
    (hlen : is.length + rest.length = height k) (hrest : rest ≠ [])
    (his : ∀ i ∈ is ++ rest, i < G.perBlock) (ha : (s.set x io).find G (x, k) is = a) (ha0 : a ≠ 0)
    (hbuf : ∀ l < G.perBlock, buf.word (4 * l) 4 = ptr G io.fs a l) :
    Walked G s x io k (is ++ rest) (walkDown G a buf rest io) := by
  induction rest generalizing is a buf io with
  | nil => exact absurd rfl hrest
  | cons i rest ih =>
    have hp : (x, k) ∈ slots m := mem_slots.2 hk
    have hlt : is.length < height k := by
      rw [length_cons] at hlen
      omega
    have hi : i < G.perBlock := his i (by simp)
    have his' : ∀ i ∈ is, i < G.perBlock := fun l hl => his l (by simp [hl])
    have hpre : is ++ [i] <+: is ++ i :: rest := by simp
    have hstep : (s.set x io).find G (x, k) (is ++ [i]) = ptr G io.fs a i := by
      rw [find_concat (ha.symm ▸ ha0), ha]
      rfl
    cases rest with
    | nil =>
      -- the last level: a block of data
      rcases pointer_cases false h hk hlt his' hi ha ha0 hbuf with
        ⟨hne, heq⟩ | ⟨-, heq⟩ | ⟨c, io', hzero, heq, hgraft⟩
      · rw [walkDown, heq]
        exact ⟨.refl h, hne, hstep, fun h0 => absurd (hstep.symm.trans h0) hne⟩
      · rw [walkDown, heq]
        exact ⟨rfl, .refl h⟩
      · rw [walkDown, heq]
        refine ⟨hgraft.mapped hp (hstep.trans hzero) hpre h, hgraft.fresh.ne_zero, ?_,
          fun _ => hgraft.zero⟩
        rw [hgraft.grown.find hp (by rw [length_append]; exact hlt) his, if_pos ⟨rfl, rfl⟩]
    | cons i' rest =>
      have happ : is ++ i :: i' :: rest = (is ++ [i]) ++ i' :: rest := by simp
      have hnext : ∀ {io₁ : Io} {c : Nat}, (s.set x io₁).Consistent G →
          (s.set x io₁).find G (x, k) (is ++ [i]) = c → c ≠ 0 →
          Walked G s x io₁ k (is ++ i :: i' :: rest)
            ((readBlock G c >>= fun buf => walkDown G c buf (i' :: rest)) io₁) := by
        intro io₁ c h₁ hc hc0
        rw [bind_ok (readBlock_eq (by exact h₁.image.quiet)), happ]
        refine ih _ h₁ ?_ (cons_ne_nil _ _) (by rw [← happ]; exact his) hc hc0 fun l hl =>
          word_block hl
        simp only [length_append, length_cons, length_nil] at hlen ⊢
        omega
      rcases pointer_cases true h hk hlt his' hi ha ha0 hbuf with
        ⟨hne, heq⟩ | ⟨-, heq⟩ | ⟨c, io', hzero, heq, hgraft⟩
      · rw [walkDown, bind_ok heq]
        · exact hnext h hstep hne
        · exact cons_ne_nil _ _
      · rw [walkDown, bind_error heq]
        · exact ⟨rfl, .refl h⟩
        · exact cons_ne_nil _ _
      · rw [walkDown, bind_ok heq]
        · have hfind := fun {ls : List Nat} (hls : ls.length ≤ height k) his =>
            hgraft.grown.find hp hls his
          have hself : (s.set x io').find G (x, k) (is ++ [i]) = c := by
            rw [hfind (by rw [length_append]; exact hlt), if_pos ⟨rfl, rfl⟩]
            exact forall_mem_append.2 ⟨his', forall_mem_singleton.2 hi⟩
          refine (hnext hgraft.consistent hself hgraft.fresh.ne_zero).of_mapped
            (hgraft.mapped hp (hstep.trans hzero) hpre h) fun h0 => ?_
          rw [hfind (by rw [length_append]; omega) his, if_neg, h0]
          rintro ⟨-, heq⟩
          have := congrArg List.length heq
          simp at this
        · exact cons_ne_nil _ _

/-! ## Indices of a file -/

theorem perBlock_pos : 0 < G.perBlock := by
  have := G.blockSize_cases
  unfold Geometry.perBlock
  omega

/-- The index of the block at a path. -/
def pathIndex (G : Geometry) : Nat → List Nat → Nat
  | k, [] => k
  | _, [i] => 12 + i
  | _, [i₁, i₂] => 12 + G.perBlock + (G.perBlock * i₁ + i₂)
  | _, [i₁, i₂, i₃] => 12 + G.perBlock + G.perBlock * G.perBlock +
    (G.perBlock * G.perBlock * i₁ + (G.perBlock * i₂ + i₃))
  | _, _ => 0

theorem blockPath_spec (h : blockPath G index = some (k, js)) :
    k < 15 ∧ js.length = height k ∧ (∀ i ∈ js, i < G.perBlock) ∧ pathIndex G k js = index := by
  have hpos := perBlock_pos (G := G)
  unfold blockPath at h
  dsimp only at h
  generalize hn : G.perBlock = n at h hpos
  split at h
  · cases h
    refine ⟨by omega, ?_, nofun, rfl⟩
    rw [height, length_nil]
    omega
  split at h
  · cases h
    refine ⟨by omega, rfl, forall_mem_singleton.2 (by omega), ?_⟩
    · change 12 + (index - 12) = index
      omega
  split at h
  · rename_i hlt
    cases h
    refine ⟨by omega, rfl, forall_mem_cons.2
      ⟨Nat.div_lt_of_lt_mul hlt, forall_mem_singleton.2 (Nat.mod_lt _ hpos)⟩, ?_⟩
    · have hdiv := Nat.div_add_mod (index - 12 - n) n
      rw [pathIndex, hn]
      omega
  split_ifs at h with hlt
  cases h
  have hpos2 : 0 < n * n := Nat.mul_pos hpos hpos
  refine ⟨by omega, rfl, forall_mem_cons.2 ⟨Nat.div_lt_of_lt_mul hlt, forall_mem_cons.2
    ⟨Nat.div_lt_of_lt_mul (Nat.mod_lt _ hpos2), forall_mem_singleton.2 (Nat.mod_lt _ hpos)⟩⟩, ?_⟩
  · have hdiv := Nat.div_add_mod (index - 12 - n - n * n) (n * n)
    have hdiv' := Nat.div_add_mod ((index - 12 - n - n * n) % (n * n)) n
    rw [Nat.mod_mul_left_mod] at hdiv'
    rw [pathIndex, hn]
    omega

theorem blockPath_inj
    (h : blockPath G index = some (k, js)) (h' : blockPath G index' = some (k, js)) :
    index = index' := (blockPath_spec h).2.2.2.symm.trans (blockPath_spec h').2.2.2

/-! ## The whole call -/

theorem get_eq : (get : M Io) io = .ok io io := rfl

theorem storeIData_eq (bno : Nat) : storeIData k bno io = .ok () (io.setIData k bno) := rfl

theorem setDirect_new (h0 : io.inode.iData k = 0) : setDirect G k io =
    (newBlock G >>= fun bno => storeIData k bno >>= fun _ => writeBlock G bno zeroBuf >>= fun _ =>
      get >>= fun io => pure (io.inode.iData k) : M Nat) io := by
  rw [setDirect, bind_ok get_eq]
  rw [if_pos h0]

theorem setDirect_old (h0 : io.inode.iData k ≠ 0) :
    setDirect G k io = .ok (io.inode.iData k) io := by
  rw [setDirect, bind_ok get_eq]
  rw [if_neg h0]
  rfl

theorem readOrAlloc_new (h0 : io.inode.iData k = 0) : readOrAllocBlock G k io =
    (newBlock G >>= fun bno => storeIData k bno >>= fun _ =>
      ext2IndirectCacheWrite G bno zeroBuf >>= fun _ => pure zeroBuf : M Bytes) io := by
  rw [readOrAllocBlock, bind_ok get_eq, if_pos h0]

theorem readOrAlloc_old (h0 : io.inode.iData k ≠ 0) :
    readOrAllocBlock G k io = readBlock G (io.inode.iData k) io := by
  rw [readOrAllocBlock, bind_ok get_eq, if_neg h0, bind_ok get_eq]

section Whole

variable (h : (s.set x io).Consistent G)

include h in
theorem setDirect_spec (hk : k < 15) : Walked G s x io k [] (setDirect G k io) := by
  have hp : (x, k) ∈ slots m := mem_slots.2 hk
  have hfind : ∀ {io' : Io}, (s.set x io').find G (x, k) [] = io'.inode.iData k := set_root k
  by_cases h0 : io.inode.iData k = 0
  · rw [setDirect_new h0]
    rcases newBlock_cases io h.image with hnew | ⟨g, j, hg, hj, hclear, hne, hnew⟩
    · rw [bind_error hnew]
      exact ⟨rfl, .refl h⟩
    · have hgraft := graft_root h hg hj hclear hk h0
      rw [bind_ok hnew, bind_ok (storeIData_eq _),
        bind_ok (writeBlock_eq (by exact h.image.quiet)), bind_ok get_eq, ← Io.rooted,
        rooted_iData]
      exact ⟨hgraft.mapped hp (hfind.trans h0) (prefix_refl _) h, hne, hfind.trans rooted_iData,
        fun _ => hgraft.zero⟩
  · rw [setDirect_old h0]
    exact ⟨.refl h, h0, hfind, fun hz => absurd (hfind.symm.trans hz) h0⟩

include h in
/-- The first indirect block is there, or it is a new one; its contents are in the buffer. -/
theorem readOrAlloc_cases (hk : k < 15) : readOrAllocBlock G k io = .error (-enospc) io ∨
    ∃ buf io', readOrAllocBlock G k io = .ok buf io' ∧ io'.inode.iData k ≠ 0 ∧
      (s.set x io').Consistent G ∧
      (∀ l < G.perBlock, buf.word (4 * l) 4 = ptr G io'.fs (io'.inode.iData k) l) ∧
      ∀ js, js ≠ [] → js.length ≤ height k → (∀ i ∈ js, i < G.perBlock) →
        Mapped G (s.set x io) (s.set x io') (x, k) js ∧
        (s.set x io').find G (x, k) js = (s.set x io).find G (x, k) js := by
  have hp : (x, k) ∈ slots m := mem_slots.2 hk
  have hfind : ∀ {io' : Io}, (s.set x io').find G (x, k) [] = io'.inode.iData k := set_root k
  by_cases h0 : io.inode.iData k = 0
  · rw [readOrAlloc_new h0]
    rcases newBlock_cases io h.image with hnew | ⟨g, j, hg, hj, hclear, hne, hnew⟩
    · exact .inl (bind_error hnew)
    · have hgraft := graft_root h hg hj hclear hk h0
      have huncache : ((io.took G g j).setIData k (G.nr .block g j)).uncache (G.nr .block g j) =
          (io.took G g j).setIData k (G.nr .block g j) :=
        uncache_eq fun e he => not_cached h (hgraft.fresh.not_mem h) e he
      have hwrite := cacheWrite_eq (G := G)
        ((io.took G g j).setIData k (G.nr .block g j)) zeroBuf h.image.quiet hne
      rw [huncache] at hwrite
      refine .inr ⟨zeroBuf, _, ?_, ?_, hgraft.consistent, fun l hl => ?_,
        fun js hne hlen hjs => ⟨?_, ?_⟩⟩
      · rw [bind_ok hnew, bind_ok (storeIData_eq _), bind_ok hwrite]
        rfl
      · rw [rooted_iData]
        exact hne
      · rw [rooted_iData]
        exact (Bytes.word_eq_zero fun _ _ _ => rfl).trans (ptr_zero (by exact hgraft.zero) hl).symm
      · exact hgraft.mapped hp (hfind.trans h0) nil_prefix h
      · rw [hgraft.grown.find hp hlen hjs, if_neg fun he => hne he.2]
  · rw [readOrAlloc_old h0]
    refine .inr ⟨_, io, readBlock_eq h.image.quiet, h0, h, fun l hl => word_block hl,
      fun js _ _ _ => ⟨.refl h, rfl⟩⟩

include h in
theorem setMapping_spec (index : Nat) :
    match blockPath G index with
    | none => setMapping G index io = .error (-efbig) io
    | some (k, js) => Walked G s x io k js (setMapping G index io) := by
  unfold setMapping
  cases hpath : blockPath G index with
  | none => rfl
  | some path =>
    obtain ⟨k, js⟩ := path
    obtain ⟨hk, hlen, hjs, -⟩ := blockPath_spec hpath
    cases js with
    | nil => exact setDirect_spec h hk
    | cons i js =>
      change Walked G s x io k (i :: js) ((readOrAllocBlock G k >>= fun buf =>
        get >>= fun io => walkDown G (io.inode.iData k) buf (i :: js) : M Nat) io)
      rcases readOrAlloc_cases h hk with
        heq | ⟨buf, io', heq, hne, hcons, hbuf, hrest⟩
      · rw [bind_error heq]
        exact ⟨rfl, .refl h⟩
      · obtain ⟨hmapped, hfind⟩ := hrest (i :: js) (cons_ne_nil _ _) (le_of_eq hlen) hjs
        rw [bind_ok heq, bind_ok get_eq]
        refine Walked.of_mapped ?_ hmapped fun h0 => hfind.trans h0
        exact walkDown_spec [] hcons hk (by rw [length_nil, zero_add, hlen])
          (cons_ne_nil _ _) hjs (set_root k) hne hbuf

end Whole

end ZzzOs.Fs.Ext2
