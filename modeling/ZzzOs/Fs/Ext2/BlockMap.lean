import ZzzOs.Fs.Ext2.Lookup
import ZzzOs.Fs.Ext2.FreeBlocks

/-!
# Runs of calls on the block maps

Calls of `ext2_block_set_mapping`, `ext2_block_mapping` and `ext2_free_inode_blocks` on the inodes
of one file system, in any order. Every one of them keeps the file system consistent; a mapping is
lost only when its inode is freed, and made only by a call for its own index.
-/

namespace ZzzOs.Fs.Ext2

open Nat List Lib

inductive Call (m : Nat)
  | setMapping (x : Fin m) (index : Nat)
  | mapping (x : Fin m) (index : Nat)
  | free (x : Fin m)

variable {m b : Nat}

def Call.inode : Call m → Fin m
  | .setMapping x _ => x
  | .mapping x _ => x
  | .free x => x

def Call.run (G : Geometry) : Call m → Io → Int × Io
  | .setMapping _ index => ext2BlockSetMapping G index
  | .mapping _ index => ext2BlockMapping G index
  | .free _ => ext2FreeInodeBlocks G

def Sys.call (G : Geometry) (s : Sys m) (c : Call m) : Int × Sys m :=
  ((c.run G (s.at c.inode)).1, s.set c.inode (c.run G (s.at c.inode)).2)

def Sys.calls (G : Geometry) (s : Sys m) : List (Call m) → Sys m
  | [] => s
  | c :: cs => (s.call G c).2.calls G cs

/-- What `ext2_block_mapping` returns. -/
def Sys.blockMapping (G : Geometry) (s : Sys m) (x : Fin m) (index : Nat) : Int :=
  (s.call G (.mapping x index)).1

variable {G : Geometry} {s s' : Sys m} {x y : Fin m} {index j : Nat}

/-! ## Single calls -/

theorem mapping_mem (h : s.mapping G x index ≠ 0) : s.mapping G x index ∈ s.blocks G := by
  unfold Sys.mapping at h ⊢
  cases hpath : blockPath G index with
  | none =>
    rw [hpath] at h
    exact absurd rfl h
  | some path =>
    rw [hpath] at h
    obtain ⟨hk, hlen, hjs, -⟩ := blockPath_spec hpath
    exact mem_blocks (mem_slots.2 hk) (PtrTree.find_mem_nodes (le_of_eq hlen) hjs h)

theorem inside_lt (h : G.Inside .block b) : b < G.blocksCount := by
  have hge : G.firstDataBlock ≤ b := h.1
  have hlt : b < G.firstDataBlock + (G.blocksCount - G.firstDataBlock) := h.2
  omega

theorem toInt_mapping (hlt : G.blocksCount < 2 ^ 31) (h : s.Consistent G) :
    toInt (s.mapping G x index) = s.mapping G x index := by
  refine if_pos ?_
  by_cases h0 : s.mapping G x index = 0
  · rw [h0]
    decide
  · exact lt_trans (inside_lt (h.inside (mapping_mem h0))) hlt

theorem call_mapping (hlt : G.blocksCount < 2 ^ 31) (h : s.Consistent G) :
    s.blockMapping G x index =
      (if blockPath G index = none then -efbig else (s.mapping G x index : Int)) ∧
    (s.call G (.mapping x index)).2.Consistent G ∧
    ∀ y j, (s.call G (.mapping x index)).2.mapping G y j = s.mapping G y j := by
  have hset := s.set_at x
  have hspec := blockMapping_spec (by rw [hset]; exact h : (s.set x (s.at x)).Consistent G) index
  unfold Sys.blockMapping Sys.call Call.run ext2BlockMapping
  cases hpath : blockPath G index with
  | none =>
    rw [hpath] at hspec
    dsimp only [Call.inode]
    rw [hspec]
    rw [hset]
    exact ⟨rfl, h, fun _ _ => rfl⟩
  | some path =>
    rw [hpath] at hspec
    obtain ⟨cache, heq, hcons⟩ := hspec
    dsimp only [Call.inode]
    rw [heq]
    dsimp only
    rw [hset, toInt_mapping hlt h]
    refine ⟨rfl, hcons, fun y j => ?_⟩
    conv_rhs => rw [← hset]
    rfl

variable {r : Int}

theorem call_setMapping (hlt : G.blocksCount < 2 ^ 31) (h : s.Consistent G)
    (hcall : s.call G (.setMapping x index) = (r, s')) : s'.Consistent G ∧
    (∀ y j, s'.mapping G y j = s.mapping G y j ∨ (y = x ∧ j = index ∧ s.mapping G y j = 0)) ∧
    (0 < r → r = s'.mapping G x index ∧ blockPath G index ≠ none ∧
      (s.mapping G x index = 0 → ZeroBlock G s'.fs (s'.mapping G x index))) := by
  have hset := s.set_at x
  have hspec := setMapping_spec (by rw [hset]; exact h : (s.set x (s.at x)).Consistent G) index
  unfold Sys.call Call.run ext2BlockSetMapping at hcall
  dsimp only [Call.inode] at hcall
  cases hpath : blockPath G index with
  | none =>
    rw [hpath] at hspec
    rw [hspec] at hcall
    dsimp only at hcall
    rw [hset] at hcall
    cases hcall
    exact ⟨h, fun _ _ => .inl rfl, fun hr => absurd hr (by decide)⟩
  | some path =>
    obtain ⟨k, js⟩ := path
    rw [hpath] at hspec
    have hother : ∀ {io' : Io}, Mapped G (s.set x (s.at x)) (s.set x io') (x, k) js → ∀ y j,
        (s.set x io').mapping G y j = s.mapping G y j ∨
          (y = x ∧ j = index ∧ s.mapping G y j = 0) := by
      intro io' hmapped y j
      rw [hset] at hmapped
      unfold Sys.mapping
      cases hpath' : blockPath G j with
      | none => exact .inl rfl
      | some path' =>
        obtain ⟨l, ls⟩ := path'
        obtain ⟨hl, hlen, hls, -⟩ := blockPath_spec hpath'
        rcases hmapped.find (mem_slots.2 hl) (le_of_eq hlen) hls with heq | ⟨hq, hpre, hzero⟩
        · exact .inl heq
        · cases hq
          obtain rfl : ls = js := hpre.eq_of_length (hlen.trans (blockPath_spec hpath).2.1.symm)
          exact .inr ⟨rfl, blockPath_inj hpath' hpath, hzero⟩
    cases hres : setMapping G index (s.at x) with
    | error e io' =>
      rw [hres] at hspec hcall
      dsimp only at hcall
      cases hcall
      obtain ⟨rfl, hmapped⟩ := hspec
      exact ⟨hmapped.consistent, hother hmapped, fun hr => absurd hr (by decide)⟩
    | ok b io' =>
      rw [hres] at hspec hcall
      cases hcall
      obtain ⟨hmapped, hb, hfind, hzero⟩ := hspec
      have hmap : (s.set x io').mapping G x index = b := by
        rw [Sys.mapping, hpath]
        exact hfind
      refine ⟨hmapped.consistent, hother hmapped, fun _ => ⟨?_, Option.some_ne_none _, fun h0 => ?_⟩⟩
      · rw [← hmap]
        exact toInt_mapping hlt hmapped.consistent
      · rw [hmap]
        refine hzero ?_
        rw [hset]
        rwa [Sys.mapping, hpath] at h0

/-- The blocks of the inode are released, each of them once, and the other inodes keep theirs. -/
theorem call_free (h : s.Consistent G) (hcall : s.call G (.free x) = (r, s')) :
    s'.Consistent G ∧ r = 0 ∧ (∀ y j, y ≠ x → s'.mapping G y j = s.mapping G y j) ∧
    (∀ b, G.Inside .block b → s'.fs.usedNr G .block b =
      if b ∈ s.blocksOf G x then false else s.fs.usedNr G .block b) ∧
    s'.fs.sFree .block = s.fs.sFree .block + (s.blocksOf G x).length ∧
    (s'.inodes x).iBlocks = 0 := by
  have hset := s.set_at x
  have hcons : (s.set x (s.at x)).Consistent G := by rw [hset]; exact h
  obtain ⟨io', heq, hf⟩ := freeBlocks_spec hcons
  obtain ⟨hcons', hrest⟩ := hf.consistent hcons
  unfold Sys.call Call.run ext2FreeInodeBlocks at hcall
  dsimp only [Call.inode] at hcall
  rw [heq] at hcall
  dsimp only at hcall
  cases hcall
  rw [hset] at hf hrest
  refine ⟨hcons', rfl, fun y j hy => ?_, fun b hb => hf.vol.used hb, hf.vol.free, ?_⟩
  · unfold Sys.mapping
    cases hpath : blockPath G j with
    | none => rfl
    | some path =>
      obtain ⟨hk, hlen, hjs, -⟩ := blockPath_spec hpath
      obtain ⟨hroot, hsame⟩ := hrest (mem_slots.2 hk) hy
      exact find_congr hroot hsame (le_of_eq hlen) hjs
  · have hcount := hf.count
    have hold : (s.inodes x).iBlocks = _ := h.count x
    change io'.inode.iBlocks + _ = (s.inodes x).iBlocks at hcount
    rw [set_inode]
    omega

/-! ## Runs -/

section

variable (hlt : G.blocksCount < 2 ^ 31) (h : s.Consistent G)

include hlt h

theorem call_consistent (c : Call m) : (s.call G c).2.Consistent G := by
  cases c with
  | setMapping x index => exact (call_setMapping hlt h rfl).1
  | mapping x index => exact (call_mapping hlt h).2.1
  | free x => exact (call_free h rfl).1

theorem call_keeps {c : Call m} (hc : c ≠ .free x) (hne : s.mapping G x index ≠ 0) :
    (s.call G c).2.mapping G x index = s.mapping G x index := by
  cases c with
  | setMapping y j =>
    rcases (call_setMapping hlt h rfl).2.1 x index with heq | ⟨-, -, hzero⟩
    · exact heq
    · exact absurd hzero hne
  | mapping y j => exact (call_mapping hlt h).2.2 x index
  | free y => exact (call_free h rfl).2.2.1 x index fun hxy => hc (by rw [hxy])

theorem calls_consistent (cs : List (Call m)) : (s.calls G cs).Consistent G := by
  induction cs generalizing s with
  | nil => exact h
  | cons c cs ih => exact ih (call_consistent hlt h c)

theorem calls_keep {cs : List (Call m)} (hcs : .free x ∉ cs) (hne : s.mapping G x index ≠ 0) :
    (s.calls G cs).mapping G x index = s.mapping G x index := by
  induction cs generalizing s with
  | nil => rfl
  | cons c cs ih =>
    rw [mem_cons, not_or] at hcs
    obtain ⟨hc, hcs⟩ := hcs
    have hkeep := call_keeps hlt h (Ne.symm hc) hne
    exact (ih (call_consistent hlt h c) hcs (hkeep ▸ hne)).trans hkeep

end

/-- **The block maps of a file system**: after any calls the blocks of all inodes are distinct and
marked as used, and `i_blocks` counts those of its inode. A mapping stays until its inode is freed, and a
new block of data holds zeros. `ext2_free_inode_blocks` releases the blocks of the inode once each. -/
theorem block_map_run (G : Geometry) (hlt : G.blocksCount < 2 ^ 31) (s₀ : Sys m)
    (h₀ : s₀.Consistent G) (cs : List (Call m)) (s : Sys m) (hs : s = s₀.calls G cs) :
    ((s.blocks G).Nodup ∧ ∀ b ∈ s.blocks G, s.fs.usedNr G .block b = true) ∧
    (∀ x, (s.inodes x).iBlocks = G.blockSize / 512 * (s.blocksOf G x).length) ∧
    (∀ x index r s', s.call G (.setMapping x index) = (r, s') →
      (0 < r → ∀ cs', .free x ∉ cs' → (s'.calls G cs').blockMapping G x index = r) ∧
      (∀ y j, (y, j) ≠ (x, index) → s'.blockMapping G y j = s.blockMapping G y j) ∧
      (0 < r → s.blockMapping G x index = 0 → ZeroBlock G s'.fs r.toNat)) ∧
    ∀ x r s', s.call G (.free x) = (r, s') → r = 0 ∧ (s'.inodes x).iBlocks = 0 ∧
      (∀ b, G.Inside .block b → s'.fs.usedNr G .block b =
        if b ∈ s.blocksOf G x then false else s.fs.usedNr G .block b) ∧
      s'.fs.sFree .block = s.fs.sFree .block + (s.blocksOf G x).length := by
  have h : s.Consistent G := hs ▸ calls_consistent hlt h₀ cs
  refine ⟨⟨h.nodup, fun _ => h.used⟩, h.count, fun x index r s' hcall => ?_, fun x r s' hcall => ?_⟩
  · obtain ⟨h', hother, hnew⟩ := call_setMapping hlt h hcall
    refine ⟨fun hr cs' hcs => ?_, fun y j hne => ?_, fun hr hzero => ?_⟩
    · obtain ⟨heq, hpath, -⟩ := hnew hr
      have hne : s'.mapping G x index ≠ 0 := by omega
      rw [(call_mapping hlt (calls_consistent hlt h' cs')).1, if_neg hpath,
        calls_keep hlt h' hcs hne, heq]
    · rw [(call_mapping hlt h').1, (call_mapping hlt h).1]
      rcases hother y j with heq | ⟨rfl, rfl, -⟩
      · rw [heq]
      · exact absurd rfl hne
    · obtain ⟨heq, hpath, hz⟩ := hnew hr
      rw [(call_mapping hlt h).1, if_neg hpath] at hzero
      rw [heq, Int.toNat_natCast]
      exact hz (by omega)
  · obtain ⟨-, hr, -, hused, hfree, hcount⟩ := call_free h hcall
    exact ⟨hr, hcount, hused, hfree⟩

/-- One inode without blocks on the eight blocks of `tiny`, of which three are free. -/
def tinySys : Sys 1 where
  fs := tinyVolume 0x1f 3
  inodes _ := { iData := fun _ => 0, iBlocks := 0, iSize := 0 }

theorem tinySys_tree (p : Fin 1 × Nat) : tinySys.tree tiny p = [] := PtrTree.nodes_zero _

theorem tinySys_consistent : tinySys.Consistent tiny := by
  have hblocks : tinySys.blocks tiny = [] :=
    flatMap_eq_nil_iff.2 fun p _ => tinySys_tree p
  have hcounted : (tinyVolume 0x1f 3).Counted tiny :=
    tinyVolume_counted fun k => by cases k <;> decide +kernel
  have hused : ∀ b < 5, (tinyVolume 0x1f 3).usedNr tiny .block b = true := by decide +kernel
  constructor
  case image => exact ⟨rfl, tinyVolume_layout _ _, hcounted, fun _ => hused 0 (by decide)⟩
  case metaUsed =>
    intro b _ hm
    refine hused b ?_
    rcases hm with rfl | ⟨-, hlt⟩ | ⟨k, g, hg, rfl⟩
    · decide
    · exact lt_trans hlt (by decide)
    · obtain rfl := lt_one_iff.1 hg
      cases k <;> decide
  case nodup => rw [hblocks]; exact nodup_nil
  case inside => intro b hb; rw [hblocks] at hb; cases hb
  case used => intro b hb; rw [hblocks] at hb; cases hb
  case notMeta => intro b hb; rw [hblocks] at hb; cases hb
  case count =>
    intro x
    rfl
  case cached => exact ⟨nofun, nofun, nofun⟩

/-- Block 12 of the file is block 6, below the indirect block 5, and it stays so when the first one is
mapped. -/
theorem block_map_run_tiny : (tinySys.call tiny (.setMapping 0 12)).1 = 6 ∧
    ((tinySys.call tiny (.setMapping 0 12)).2.calls tiny [.setMapping 0 0]).blockMapping
      tiny 0 12 = 6 := by
  have hret : (tinySys.call tiny (.setMapping 0 12)).1 = 6 := by decide +kernel
  refine ⟨hret, ?_⟩
  obtain ⟨-, -, hset, -⟩ := block_map_run tiny (by decide) tinySys tinySys_consistent [] tinySys rfl
  exact (hset 0 12 6 _ (Prod.ext hret rfl)).1 (by decide) [.setMapping 0 0] (by simp)

end ZzzOs.Fs.Ext2
