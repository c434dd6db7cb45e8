import ZzzOs.Fs.Ext2.Tree

/-!
# A new block in a tree

A block that was free gets a place in the tree of one inode: at an entry of `i_data`, or at a
pointer of an indirect block (`Graft`). Nothing else moves, and the file system stays consistent.
-/

namespace ZzzOs.Fs.Ext2

open List Lib

variable {m : Nat} {G : Geometry} {s s' : Sys m} {p q : Fin m × Nat} {is : List Nat} {b c i : Nat}

/-- A block that is free to be taken. -/
structure Fresh (G : Geometry) (s : Sys m) (c : Nat) : Prop where
  inside : G.Inside .block c
  free : s.fs.usedNr G .block c = false
  ne_zero : c ≠ 0
  notMeta : ¬ s.fs.Meta G c

/-- The trees have one more block, `c` at the path `is` of entry `p`. -/
structure Grown (G : Geometry) (s s' : Sys m) (p : Fin m × Nat) (is : List Nat) (c : Nat) :
    Prop where
  self : (s'.tree G p).Perm (c :: s.tree G p)
  other : ∀ {q}, q ∈ slots m → q ≠ p → s'.tree G q = s.tree G q
  inner : ∀ {q b}, q ∈ slots m → b ∈ s.inner G q → b ∈ s'.inner G q
  find : ∀ {q js}, q ∈ slots m → js.length ≤ height q.2 → (∀ i ∈ js, i < G.perBlock) →
    s'.find G q js = if q = p ∧ js = is then c else s.find G q js

/-- Block `c` was allocated for inode `x`. -/
structure Taken (G : Geometry) (s s' : Sys m) (x : Fin m) (c : Nat) : Prop where
  image : s'.fs.Image G
  bgBitmap : ∀ k g, s'.fs.bgBitmap k g = s.fs.bgBitmap k g
  used : ∀ {b}, G.Inside .block b →
    s'.fs.usedNr G .block b = if b = c then true else s.fs.usedNr G .block b
  count : (s'.inodes x).iBlocks = (s.inodes x).iBlocks + G.sectors
  countOther : ∀ {y}, y ≠ x → (s'.inodes y).iBlocks = (s.inodes y).iBlocks

theorem Fresh.not_mem (hc : Fresh G s c) (h : s.Consistent G) : c ∉ s.blocks G := h.not_mem hc.free

section

variable (hg : Grown G s s' p is c)

include hg

theorem Grown.blocks (hp : p ∈ slots m) : (s'.blocks G).Perm (c :: s.blocks G) :=
  flatMap_perm_cons nodup_slots hp (fun _ => hg.other) hg.self

theorem Grown.mem_blocks (hp : p ∈ slots m) : b ∈ s'.blocks G ↔ b = c ∨ b ∈ s.blocks G := by
  rw [(hg.blocks hp).mem_iff, mem_cons]

theorem Grown.blocksOf (hp : p ∈ slots m) : (s'.blocksOf G p.1).Perm (c :: s.blocksOf G p.1) := by
  refine flatMap_perm_cons nodup_range (mem_range.2 (mem_slots.1 hp)) (fun k hk hne => ?_) hg.self
  exact hg.other (mem_slots.2 (mem_range.1 hk)) fun he => hne (congrArg Prod.snd he)

theorem Grown.blocksOf_other {y : Fin m} (hy : y ≠ p.1) : s'.blocksOf G y = s.blocksOf G y :=
  flatMap_congr fun _ hk => hg.other (mem_slots.2 (mem_range.1 hk)) fun he =>
    hy (congrArg Prod.fst he)

/-- The file system with the new block is consistent, if the cache has lost what changed. -/
theorem Grown.consistent (h : s.Consistent G) (hp : p ∈ slots m) (hc : Fresh G s c)
    (ht : Taken G s s' p.1 c) (hcache : ∀ {e}, (s'.fs.indirectCache.entries e).valid = true →
      s'.fs.indirectCache.entries e = s.fs.indirectCache.entries e ∧
        SameBlock G s.fs s'.fs (s.fs.indirectCache.entries e).blockNo) : s'.Consistent G := by
  have hmeta : ∀ {b}, s'.fs.Meta G b ↔ s.fs.Meta G b := Volume.Meta.congr ht.bgBitmap
  have hvalid : ∀ {e}, (s'.fs.indirectCache.entries e).valid = true →
      (s.fs.indirectCache.entries e).valid = true := fun he => by rw [← (hcache he).1]; exact he
  constructor
  case image => exact ht.image
  case metaUsed =>
    intro b hb hm
    rw [ht.used hb, h.metaUsed hb (hmeta.1 hm), ite_self]
  case nodup => exact (hg.blocks hp).nodup_iff.2 (nodup_cons.2 ⟨hc.not_mem h, h.nodup⟩)
  case inside =>
    intro b hb
    rcases (hg.mem_blocks hp).1 hb with rfl | hb
    · exact hc.inside
    · exact h.inside hb
  case used =>
    intro b hb
    rcases (hg.mem_blocks hp).1 hb with rfl | hb
    · rw [ht.used hc.inside, if_pos rfl]
    · rw [ht.used (h.inside hb), h.used hb, ite_self]
  case notMeta =>
    intro b hb hm
    rcases (hg.mem_blocks hp).1 hb with rfl | hb
    · exact hc.notMeta (hmeta.1 hm)
    · exact h.notMeta hb (hmeta.1 hm)
  case count =>
    intro y
    by_cases hy : y = p.1
    · subst hy
      rw [ht.count, h.count, (hg.blocksOf hp).length_eq, length_cons, Nat.mul_succ]
    · rw [ht.countOther hy, h.count, hg.blocksOf_other hy]
  case cached =>
    refine ⟨fun {e} he => ?_, fun {e} he y hy => ?_, fun {e e'} he he' heq => ?_⟩
    · obtain ⟨q, hq, hmem⟩ := h.cached.inner (hvalid he)
      rw [(hcache he).1]
      exact ⟨q, hq, hg.inner hq hmem⟩
    · rw [(hcache he).1, (hcache he).2 y hy]
      exact h.cached.copy (hvalid he) y hy
    · rw [(hcache he).1, (hcache he').1] at heq
      exact h.cached.inj (hvalid he) (hvalid he') heq

end

/-! ## Where the block goes -/

theorem grown_root (hc : c ≠ 0) (hold : s.root p = 0)
    (hnew : s'.root p = c) (hroots : ∀ {q}, q ≠ p → s'.root q = s.root q)
    (hsame : ∀ {b}, b ∈ s.blocks G → SameBlock G s.fs s'.fs b) (hzero : ZeroBlock G s'.fs c) :
    Grown G s s' p [] c := by
  have hptr : ∀ i < G.perBlock, ptr G s'.fs c i = 0 := fun i hi => ptr_zero hzero hi
  have hinner : ∀ {q}, q ∈ slots m → ∀ b ∈ s.inner G q, SameBlock G s.fs s'.fs b :=
    fun hq b hb => hsame (mem_blocks hq (inner_subset hb))
  constructor
  case self =>
    rw [Sys.tree, hnew, PtrTree.nodes_leaf hc hptr, Sys.tree, hold, PtrTree.nodes_zero]
  case other => exact fun hq hne => tree_congr (hroots hne) (hinner hq)
  case inner =>
    intro q b hq hb
    by_cases hqp : q = p
    · have hmem := inner_subset hb
      rw [hqp, Sys.tree, hold, PtrTree.nodes_zero] at hmem
      cases hmem
    · exact inner_congr (hroots hqp) (hinner hq) hb
  case find =>
    intro q js hq hlen hjs
    by_cases hqp : q = p
    · subst hqp
      rw [Sys.find, hnew, PtrTree.find_leaf hptr hjs, Sys.find, hold, PtrTree.find_zero]
      exact if_congr (by simp) rfl rfl
    · rw [if_neg fun he => hqp he.1]
      exact find_congr (hroots hqp) (hinner hq) hlen hjs

theorem grown_block (h : s.Consistent G) (hp : p ∈ slots m) (hc : c ≠ 0)
    (hlen : is.length < height p.2) (his : ∀ i ∈ is, i < G.perBlock) (hi : i < G.perBlock)
    (ha : s.find G p is ≠ 0) (hold : ptr G s.fs (s.find G p is) i = 0)
    (hnew : ptr G s'.fs (s.find G p is) i = c)
    (hptr : ∀ j < G.perBlock, j ≠ i → ptr G s'.fs (s.find G p is) j = ptr G s.fs (s.find G p is) j)
    (hroots : ∀ q, s'.root q = s.root q)
    (hsame : ∀ {b}, b ∈ s.blocks G → b ≠ s.find G p is → SameBlock G s.fs s'.fs b)
    (hzero : ZeroBlock G s'.fs c) : Grown G s s' p (is ++ [i]) c := by
  have hzero' : ∀ j < G.perBlock, ptr G s'.fs c j = 0 := fun j hj => ptr_zero hzero hj
  have hnodup : (s.tree G p).Nodup := nodup_of_nodup_flatMap h.nodup hp
  have hmem : s.find G p is ∈ s.tree G p :=
    PtrTree.find_mem_nodes (Nat.le_of_lt hlen) his ha
  have hother : ∀ a ∈ s.inner G p, ∀ j < G.perBlock, ¬ (a = s.find G p is ∧ j = i) →
      ptr G s'.fs a j = ptr G s.fs a j := by
    intro a hain j hj hne
    by_cases haf : a = s.find G p is
    · rw [haf]
      exact hptr j hj fun hji => hne ⟨haf, hji⟩
    · exact ptr_congr (hsame (mem_blocks hp (inner_subset hain)) haf) hj
  have hgraft := PtrTree.grafted hnodup hlen his ha hi hold hnew hother
  have hinner : ∀ {q}, q ∈ slots m → q ≠ p → ∀ b ∈ s.inner G q, SameBlock G s.fs s'.fs b := by
    intro q hq hqp b hb
    refine hsame (mem_blocks hq (inner_subset hb)) fun hbf => ?_
    exact disjoint_of_nodup_flatMap h.nodup hq hp hqp (inner_subset hb) (hbf ▸ hmem)
  constructor
  case self =>
    rw [Sys.tree, hroots p]
    exact hgraft.nodes hc hzero'
  case other => exact fun hq hne => tree_congr (hroots _) (hinner hq hne)
  case inner =>
    intro q b hq hb
    by_cases hqp : q = p
    · subst hqp
      rw [Sys.inner, hroots q]
      exact hgraft.inner hzero' hb
    · exact inner_congr (hroots q) (hinner hq hqp) hb
  case find =>
    intro q js hq hjlen hjs
    by_cases hqp : q = p
    · subst hqp
      rw [Sys.find, hroots q, hgraft.find hzero' hjlen hjs]
      exact if_congr (by simp) rfl rfl
    · rw [if_neg fun he => hqp he.1]
      exact find_congr (hroots q) (hinner hq hqp) hjlen hjs

/-- A block that was free is now at the path `is` of entry `p`, and it holds zeros. -/
structure Graft (G : Geometry) (s s' : Sys m) (p : Fin m × Nat) (is : List Nat) (c : Nat) :
    Prop where
  grown : Grown G s s' p is c
  fresh : Fresh G s c
  consistent : s'.Consistent G
  zero : ZeroBlock G s'.fs c
  /-- Blocks of data are left alone. -/
  same : ∀ {b}, b ∈ s.blocks G → b ∉ s.inner G p → SameBlock G s.fs s'.fs b

end ZzzOs.Fs.Ext2
