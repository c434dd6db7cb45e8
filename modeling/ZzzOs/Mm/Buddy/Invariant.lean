import ZzzOs.Lib.Dyadic
import ZzzOs.Lib.Linked
import ZzzOs.Lib.Multisum
import ZzzOs.Mm.Buddy.Model
import Mathlib.Tactic.Abel

/-!
# The allocator's invariant

`Inv pm managed s lists held out`: the managed frames are those of the free blocks, of the per-CPU lists,
of the blocks `held` by the running function and of the blocks `out`, each counted once. The flags say
which descriptors head a free block or sit on a per-CPU list, and the `order` field of a free or
handed-out block is its order. Nothing is claimed about the `order` of tail descriptors.

The functions of the allocator are compositions of few moves between these places.
-/

namespace ZzzOs.Mm.Buddy

open Multiset Lib

def listSpan (k : Nat) (l : List Nat) : Multiset Nat := (l.map fun p => (Block.mk p k).span).sum

def freeSpan (areas : Nat → FreeArea) : Multiset Nat :=
  ∑ k ∈ Finset.range maxOrder, listSpan k (areas k).freeList

def pcpSpan (lists : Nat → List Nat) : Multiset Nat :=
  ∑ c ∈ Finset.range maxCpus, listSpan 0 (lists c)

def blocksSpan (bs : List Block) : Multiset Nat := (bs.map Block.span).sum

@[simp] theorem listSpan_nil (k : Nat) : listSpan k [] = 0 := rfl

@[simp] theorem listSpan_cons (k p : Nat) (l : List Nat) :
    listSpan k (p :: l) = (Block.mk p k).span + listSpan k l := rfl

@[simp] theorem listSpan_append (k : Nat) (l l' : List Nat) :
    listSpan k (l ++ l') = listSpan k l + listSpan k l' := by
  simp [listSpan]

variable {l : List Nat} {p k c : Nat}

theorem listSpan_erase (h : p ∈ l) :
    (Block.mk p k).span + listSpan k (l.erase p) = listSpan k l :=
  List.sum_map_erase (fun p => (Block.mk p k).span) h

theorem mem_listSpan (h : p ∈ l) : p ∈ listSpan k l :=
  mem_sum_map.2 ⟨p, h, Block.base_mem_span ⟨p, k⟩⟩

theorem mem_freeSpan {areas : Nat → FreeArea} (hk : k < maxOrder)
    (h : p ∈ (areas k).freeList) : p ∈ freeSpan areas :=
  mem_sum.2 ⟨_, Finset.mem_range.2 hk, mem_listSpan h⟩

theorem mem_pcpSpan {lists : Nat → List Nat} (hc : c < maxCpus) (h : p ∈ lists c) :
    p ∈ pcpSpan lists :=
  mem_sum.2 ⟨_, Finset.mem_range.2 hc, mem_listSpan h⟩

@[simp] theorem blocksSpan_nil : blocksSpan [] = 0 := rfl

@[simp] theorem blocksSpan_cons (b : Block) (bs : List Block) :
    blocksSpan (b :: bs) = b.span + blocksSpan bs := rfl

theorem listSpan_card (k : Nat) (l : List Nat) : (listSpan k l).card = l.length * 2 ^ k := by
  induction l with
  | nil => simp
  | cons a l ih => rw [listSpan_cons, card_add, ih, Block.card_span, List.length_cons]; ring

theorem freeSpan_card (areas : Nat → FreeArea) :
    (freeSpan areas).card = ∑ k ∈ Finset.range maxOrder, (areas k).freeList.length * 2 ^ k := by
  unfold freeSpan
  rw [card_sum]
  exact Finset.sum_congr rfl fun k _ => listSpan_card k _

theorem pcpSpan_card (lists : Nat → List Nat) :
    (pcpSpan lists).card = ∑ c ∈ Finset.range maxCpus, (lists c).length := by
  unfold pcpSpan
  rw [card_sum]
  exact Finset.sum_congr rfl fun c _ => by rw [listSpan_card, pow_zero, Nat.mul_one]

theorem blocksSpan_card (bs : List Block) :
    (blocksSpan bs).card = (bs.map fun b => 2 ^ b.order).sum := by
  induction bs with
  | nil => rfl
  | cons b bs ih => rw [blocksSpan_cons, card_add, ih, Block.card_span]; simp

theorem mem_blocksSpan {b : Block} {bs : List Block} (hb : b ∈ bs) (hp : p ∈ b.span) :
    p ∈ blocksSpan bs :=
  mem_sum_map.2 ⟨b, hb, hp⟩

structure Inv (pm : PhysMem) (managed : Multiset Nat) (s : Buddy) (lists : Nat → List Nat)
    (held out : List Block) : Prop where
  nodup : managed.Nodup
  small : managed.card < 2 ^ 32
  managedPages : s.managedPages = managed.card
  has : ∀ p ∈ managed, pm.Has p
  cover : freeSpan s.freeArea + pcpSpan lists + (blocksSpan held + blocksSpan out) = managed
  aligned : ∀ k < maxOrder, ∀ p ∈ (s.freeArea k).freeList, 2 ^ k ∣ p
  blockAligned : ∀ b ∈ held ++ out, b.order < maxOrder ∧ b.Aligned
  nrFree : ∀ k < maxOrder, (s.freeArea k).nrFree = (s.freeArea k).freeList.length
  buddyFlag : ∀ p, pm.Has p →
    ((s.memMap p).pageBuddy = true ↔ ∃ k < maxOrder, p ∈ (s.freeArea k).freeList)
  pcpFlag : ∀ p, pm.Has p → ((s.memMap p).pagePcp = true ↔ ∃ c < maxCpus, p ∈ lists c)
  reserved : ∀ p ∈ managed, (s.memMap p).pageReserved = false
  freeOrder : ∀ k < maxOrder, ∀ p ∈ (s.freeArea k).freeList, (s.memMap p).order = k
  pcpOrder : ∀ c < maxCpus, ∀ p ∈ lists c, (s.memMap p).order = 0
  outOrder : ∀ b ∈ out, (s.memMap b.base).order = b.order
  linked : ∀ c < maxCpus, Linked (fun p => (s.memMap p).next) (s.pcp c).head (lists c)
  count : ∀ c < maxCpus, (s.pcp c).count = (lists c).length

namespace Inv

variable {pm : PhysMem} {managed : Multiset Nat} {s : Buddy} {lists : Nat → List Nat}
  {held out : List Block} {b b' : Block} {p k c j d : Nat}

/-! ## The places are exclusive -/

theorem mem_blocks (hb : b ∈ held ++ out) (hp : p ∈ b.span) :
    p ∈ blocksSpan held + blocksSpan out := by
  rcases List.mem_append.1 hb with hb | hb
  · exact mem_add.2 (.inl (mem_blocksSpan hb hp))
  · exact mem_add.2 (.inr (mem_blocksSpan hb hp))

variable (h : Inv pm managed s lists held out)

include h

theorem nodup_free : (freeSpan s.freeArea).Nodup :=
  (nodup_add.1 (nodup_add.1 (h.cover ▸ h.nodup)).1).1

theorem nodup_pcp : (pcpSpan lists).Nodup :=
  (nodup_add.1 (nodup_add.1 (h.cover ▸ h.nodup)).1).2.1

theorem nodup_blocks : (blocksSpan held + blocksSpan out).Nodup :=
  (nodup_add.1 (h.cover ▸ h.nodup)).2.1

theorem nodup_out : (blocksSpan out).Nodup :=
  (nodup_add.1 h.nodup_blocks).2.1

theorem free_disjoint_pcp : Disjoint (freeSpan s.freeArea) (pcpSpan lists) :=
  (nodup_add.1 (nodup_add.1 (h.cover ▸ h.nodup)).1).2.2

theorem lists_disjoint_blocks :
    Disjoint (freeSpan s.freeArea + pcpSpan lists) (blocksSpan held + blocksSpan out) :=
  (nodup_add.1 (h.cover ▸ h.nodup)).2.2

theorem free_mem (hk : k < maxOrder) (hp : p ∈ (s.freeArea k).freeList) : p ∈ managed := by
  rw [← h.cover]
  exact mem_add.2 (.inl (mem_add.2 (.inl (mem_freeSpan hk hp))))

theorem pcp_mem (hc : c < maxCpus) (hp : p ∈ lists c) : p ∈ managed := by
  rw [← h.cover]
  exact mem_add.2 (.inl (mem_add.2 (.inr (mem_pcpSpan hc hp))))

theorem block_mem (hb : b ∈ held ++ out) (hp : p ∈ b.span) : p ∈ managed := by
  rw [← h.cover]
  exact mem_add.2 (.inr (mem_blocks hb hp))

theorem free_unique (hk : k < maxOrder) (hj : j < maxOrder)
    (hp : p ∈ (s.freeArea k).freeList) (hp' : p ∈ (s.freeArea j).freeList) : j = k :=
  index_unique h.nodup_free hj hk (mem_listSpan hp') (mem_listSpan hp)

theorem freeList_nodup (hk : k < maxOrder) : (s.freeArea k).freeList.Nodup :=
  nodup_of_nodup_map (nodup_of_nodup_sum h.nodup_free hk) fun a _ h0 =>
    absurd (Block.base_mem_span ⟨a, k⟩) (by rw [h0]; simp)

theorem not_free_of_pcp (hc : c < maxCpus) (hp : p ∈ lists c) (hk : k < maxOrder) :
    p ∉ (s.freeArea k).freeList := fun hf =>
  disjoint_left.1 h.free_disjoint_pcp (mem_freeSpan hk hf) (mem_pcpSpan hc hp)

theorem pcp_unique (hc : c < maxCpus) (hd : d < maxCpus) (hp : p ∈ lists c)
    (hp' : p ∈ lists d) : d = c :=
  index_unique h.nodup_pcp hd hc (mem_listSpan hp') (mem_listSpan hp)

theorem block_not_listed (hb : b ∈ held ++ out) (hp : p ∈ b.span) :
    (∀ k < maxOrder, p ∉ (s.freeArea k).freeList) ∧ ∀ c < maxCpus, p ∉ lists c := by
  have hnot := disjoint_right.1 h.lists_disjoint_blocks (mem_blocks hb hp)
  constructor
  · exact fun k hk hf => hnot (mem_add.2 (.inl (mem_freeSpan hk hf)))
  · exact fun c hc hf => hnot (mem_add.2 (.inr (mem_pcpSpan hc hf)))

theorem held_not_out (hb : b ∈ held) (hp : p ∈ b.span) (hb' : b' ∈ out) : p ∉ b'.span := fun hp' =>
  disjoint_left.1 (nodup_add.1 h.nodup_blocks).2.2 (mem_blocksSpan hb hp) (mem_blocksSpan hb' hp')

/-- The descriptor of a frame in a block off the lists carries neither flag. -/
theorem block_flags (hb : b ∈ held ++ out) (hp : p ∈ b.span) :
    (s.memMap p).pageBuddy = false ∧ (s.memMap p).pagePcp = false := by
  have hhas := h.has p (h.block_mem hb hp)
  obtain ⟨hf, hc⟩ := h.block_not_listed hb hp
  constructor
  · rw [← Bool.not_eq_true, h.buddyFlag p hhas]
    rintro ⟨k, hk, hm⟩; exact hf k hk hm
  · rw [← Bool.not_eq_true, h.pcpFlag p hhas]
    rintro ⟨c, hc', hm⟩; exact hc c hc' hm

end Inv

end ZzzOs.Mm.Buddy
