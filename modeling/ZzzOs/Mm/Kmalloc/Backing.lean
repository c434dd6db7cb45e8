import ZzzOs.Mm.Kmalloc.Run

/-!
# What backs an allocation

A live allocation is backed by a block that is out or by an object of a cache. `Inv.apart`
says that two of them never meet. `kmalloc` gives its caller the backing of `Returns`; whether
that is as large as the request depends on the size alone (`kmalloc_enough_iff`).
-/

namespace ZzzOs.Mm.Heap

open Option List Multiset Lib

inductive Backing
  | block (b : Block)
  | object (i o : Nat)
deriving DecidableEq

namespace Backing

def addr : Backing → Nat
  | .block b => pageAddress b.base
  | .object _ o => o

def bytes : Backing → Nat
  | .block b => pageSize * 2 ^ b.order
  | .object i _ => kmallocCaches[i]?.elim 0 KmemCache.objectSize

end Backing

/-- A client holds the block, or the object. -/
def Live (h : Heap) : Backing → Prop
  | .block b => b ∈ h.mem.out ∧ h.NotSlab b.base
  | .object i o => i < kmallocCaches.length ∧ o ∈ (h.cache i).clients

/-- `kmalloc(size)` returns `x`: at once for a block, and for an object with the step that takes
it from the magazine. -/
inductive Returns (pm : PhysMem) (size : Nat) : Heap → Backing → Heap → Prop
  | block {h : Heap} {cpu order p : Nat} {mem : Buddy.World} (hcpu : cpu < maxCpus)
      (hlarge : slabMaxSize < size) (horder : kvaOrder (kmallocPages size) = some order)
      (he : allocPagesKva pm h.mem cpu (kmallocPages size) = some (some (pageAddress p), mem))
      (hout : mem.out = ⟨p, order⟩ :: h.mem.out) :
      Returns pm size h (.block ⟨p, order⟩) { h with mem := mem }
  | object {h h' : Heap} {i cpu o : Nat} {op : Slabs.Op} (hpos : size ≠ 0)
      (hsmall : size ≤ slabMaxSize) (hidx : sizeToIndex size = some i)
      (hop : h.Enabled (.slab i cpu op)) (he : h.stepSlab pm i cpu op = some h')
      (ho : (h'.cache i).live = o :: (h.cache i).live) :
      Returns pm size h (.object i o) h'

/-! ## Backings do not meet -/

variable {x y : Backing} {managed : Multiset Nat} {b b' : Block} {frames : Nat → Multiset Nat}

section Apart

variable {pm : PhysMem} {managed : Multiset Nat} {h : Heap} {frames : Nat → Multiset Nat}

variable (hi : Inv pm managed h frames)

include hi

/-- The bytes of a block lie in the linear map from its address on. -/
theorem Inv.block_addr (hb : b ∈ h.mem.out) :
    pageAddress b.base = kernelVaBase + 4096 * (b.base - 0x80000) ∧ 0x80000 ≤ b.base := by
  have hhas := out_has hi.mem hb b.base_mem_span
  exact ⟨pageAddress_eq hi.linear hhas, hi.linear.first.trans hhas.1⟩

theorem Inv.block_apart (hb : b ∈ h.mem.out) (hb' : b' ∈ h.mem.out) (hne : b ≠ b') :
    pageAddress b.base + 4096 * 2 ^ b.order ≤ pageAddress b'.base ∨
      pageAddress b'.base + 4096 * 2 ^ b'.order ≤ pageAddress b.base := by
  have hd := disjoint_of_nodup_map (outSpan_nodup hi.mem) hb hb' hne
  obtain ⟨e1, h1⟩ := hi.block_addr hb
  obtain ⟨e2, h2⟩ := hi.block_addr hb'
  rcases Block.apart_of_disjoint hd with h3 | h3
  · exact .inl (by omega)
  · exact .inr (by omega)

/-- Each live allocation lies in a block that is out: its own, or that of its slab. -/
theorem Inv.inside (hx : Live h x) : ∃ b ∈ h.mem.out, pageAddress b.base ≤ x.addr ∧
      x.addr + x.bytes ≤ pageAddress b.base + 4096 * 2 ^ b.order ∧
      match x with
      | .block b' => b' = b
      | .object i _ => b.order = 0 ∧ b.base ∈ frames i := by
  cases x with
  | block b => exact ⟨b, hx.1, Nat.le_refl _, Nat.le_refl _, rfl⟩
  | object i o =>
    obtain ⟨hlt, ho⟩ := hx
    obtain ⟨c, hc⟩ : ∃ c, kmallocCaches[i]? = some c := ⟨_, List.getElem?_eq_getElem hlt⟩
    obtain ⟨fl, det, hw⟩ := hi.caches i _ hc
    obtain ⟨s, hs, -, h1, h2⟩ := (Slabs.cacheOk_of_inv hw).inside o ho
    have hpage : s ∈ (h.cache i).pages := by
      rw [← hw.pages]
      simp only [mem_add]
      exact .inl (.inl (.inl hs))
    rw [hi.pages i hlt] at hpage
    obtain ⟨p, hp, rfl⟩ := Multiset.mem_map.1 hpage
    refine ⟨⟨p, 0⟩, hi.frame_out hlt hp, ?_, ?_, rfl, hp⟩
    · exact (Nat.le_add_right _ _).trans h1
    · simpa only [Backing.addr, Backing.bytes, hc, elim_some, pageSize_eq, Nat.pow_zero,
        Nat.mul_one] using h2

theorem Inv.apart (hx : Live h x) (hy : Live h y) (hne : x ≠ y) :
    x.addr + x.bytes ≤ y.addr ∨ y.addr + y.bytes ≤ x.addr := by
  obtain ⟨b, hb, h1, h2, hbx⟩ := hi.inside hx
  obtain ⟨b', hb', h3, h4, hby⟩ := hi.inside hy
  by_cases hbb : b = b'
  · subst hbb
    cases x with
    | block bx =>
      cases y with
      | block b' => exact absurd (congrArg Backing.block (hbx.trans hby.symm)) hne
      | object j q =>
        -- a block at a client is not the page of a slab
        subst hbx
        exact absurd ((hi.mem_pages hy.1 (hi.frame_has hy.1 hby.2)).2 hby.2) (hx.2 j hy.1)
    | object i o =>
      cases y with
      | block b' =>
        subst hby
        exact absurd ((hi.mem_pages hx.1 (hi.frame_has hx.1 hbx.2)).2 hbx.2) (hy.2 i hx.1)
      | object j q =>
        have hnodup : (slabBlocks frames).Nodup :=
          nodup_of_le hi.blocks (coe_nodup.2 (out_nodup hi.mem))
        obtain rfl := index_unique hnodup hx.1 hy.1 (mem_map_of_mem (Block.mk · 0) hbx.2)
          (mem_map_of_mem (Block.mk · 0) hby.2)
        obtain ⟨c, hc⟩ : ∃ c, kmallocCaches[i]? = some c := ⟨_, List.getElem?_eq_getElem hx.1⟩
        obtain ⟨fl, det, hw⟩ := hi.caches i _ hc
        have := (Slabs.cacheOk_of_inv hw).disjoint o hx.2 q hy.2 fun h => hne (by rw [h])
        simpa only [Backing.addr, Backing.bytes, hc, elim_some] using this
  · rcases hi.block_apart hb hb' hbb with h5 | h5
    · exact .inl (by omega)
    · exact .inr (by omega)

end Apart

/-! ## Runs from a page allocator in order -/

/-- A state of a run that starts with empty caches over a page allocator in order, as
`buddy_init` leaves it, with nothing out. -/
def Reachable (pm : PhysMem) (h : Heap) : Prop :=
  pm.Linear ∧ ∃ managed s lists slab next, Buddy.Inv pm managed s lists [] [] ∧
    Relation.ReflTransGen (Step pm) ⟨⟨s, [], []⟩, fun _ => Slabs.World.init slab next⟩ h

section Runs

variable {pm : PhysMem} {h h' : Heap} {size : Nat}

theorem start_spec (hl : pm.Linear) {s : Buddy} {lists : Nat → List Nat}
    (hs : Buddy.Inv pm managed s lists [] []) (slab : Nat → Slab) (next : Nat → Nat) :
    Inv pm managed ⟨⟨s, [], []⟩, fun _ => Slabs.World.init slab next⟩ fun _ => 0 := by
  refine ⟨hl, ⟨lists, hs⟩, fun i c hc => ?_, fun i _ => rfl, ?_⟩
  · exact ⟨_, _, Slabs.init_spec (kmallocCaches_fits c (mem_of_getElem? hc)) slab next⟩
  · simp [slabBlocks]

theorem reachable_inv (hr : Reachable pm h) : ∃ managed frames, Inv pm managed h frames := by
  obtain ⟨hl, managed, s, lists, slab, next, hs, hrun⟩ := hr
  exact ⟨managed, run_spec ⟨_, start_spec hl hs slab next⟩ hrun⟩

theorem returns_live (hi : Inv pm managed h frames) (hret : Returns pm size h x h') :
    Live h' x ∧ ∃ frames', Inv pm managed h' frames' := by
  cases hret with
  | @block cpu order p mem hcpu hlarge horder he hout =>
    obtain ⟨page, mem', ha, -, hmem⟩ := allocPagesKva_spec hi.mem hcpu horder
    obtain ⟨-, rfl⟩ := Prod.mk.inj (Option.some.inj (he.symm.trans ha))
    have hi' : Inv pm managed { h with mem := mem } frames :=
      hi.setMem hmem (by rw [hout]; exact hi.blocks.trans (le_cons_self _ _))
    have hb : Block.mk p order ∈ mem.out := by rw [hout]; exact mem_cons_self
    refine ⟨⟨hb, fun i hlt hp => ?_⟩, frames, hi'⟩
    -- the slabs' frames were out before, and the new block is disjoint from all of them
    have hhas : pm.Has p := out_has hmem hb (Block.base_mem_span _)
    have hout' := hi.frame_out hlt ((hi.mem_pages hlt hhas).1 hp)
    have hnodup := outSpan_nodup hmem
    rw [hout, Buddy.blocksSpan_cons, nodup_add] at hnodup
    exact disjoint_left.1 hnodup.2.2 (Block.base_mem_span ⟨p, order⟩)
      (Buddy.mem_blocksSpan hout' (Block.base_mem_span ⟨p, 0⟩))
  | @object _ i cpu o op hpos hsmall hidx hop he ho =>
    obtain ⟨hcpu, c, hc, hop⟩ := hop
    obtain ⟨h'', he', hi'⟩ := stepSlab_spec hi hc hcpu _ hop
    cases he.symm.trans he'
    refine ⟨⟨(List.getElem?_eq_some_iff.1 hc).1, ?_⟩, hi'⟩
    exact mem_append.2 (.inl (by rw [ho]; exact mem_cons_self))

theorem returns_bytes (hi : Inv pm managed h frames) (hret : Returns pm size h x h')
    (hsize : size < 2 ^ 64) (hok : SizeOk size) : size ≤ x.bytes := by
  have hlive := (returns_live hi hret).1
  obtain ⟨-, frames', hi'⟩ := returns_live hi hret
  cases hret with
  | @block cpu order p mem hcpu hlarge horder he hout =>
    obtain ⟨lists, hmem⟩ := hi'.mem
    have horder' : order = blockOrder size :=
      Option.some.inj (horder.symm.trans (kvaOrder_kmallocPages size))
    have hlt := (hmem.blockAligned _ (mem_append.2 (.inr hlive.1))).1
    subst horder'
    exact (blockOrder_enough_iff hsize (Nat.zero_lt_of_lt hlarge)).1 hok hlt
  | @object _ i cpu o op hpos hsmall hidx hop he ho =>
    obtain ⟨j, c, hj, hc, hle⟩ := sizeToIndex_spec hsmall
    cases hidx.symm.trans hj
    simpa only [Backing.bytes, hc, elim_some] using hle

end Runs

/-! ## One free block -/

/-- The descriptors of `2 ^ k` frames, the first of which heads a block that is not listed. -/
def oneBlockHeld (k : Nat) : Buddy where
  memMap := fun p => if p = 0x80000 then { freshPage with order := k } else freshPage
  freeArea := fun _ => ⟨[], 0⟩
  pcp := fun _ => ⟨none, 0, 64, 16⟩
  managedPages := 2 ^ k

def oneBlock (k : Nat) : Buddy := (oneBlockHeld k).addToFreeArea 0x80000 k

def oneBlockMem (k : Nat) : PhysMem := ⟨0x80000, 0x80000 + 2 ^ k⟩

variable {k : Nat}

theorem oneBlock_inv (hk : k < maxOrder) :
    Buddy.Inv (oneBlockMem k) (Block.mk 0x80000 k).span (oneBlock k) (fun _ => []) [] [] := by
  have hflags : ∀ p, ((oneBlockHeld k).memMap p).flags = 0#32 := by
    intro p
    simp only [oneBlockHeld]
    split <;> rfl
  have hpow : 2 ^ k ≤ 2 ^ 10 := Nat.pow_le_pow_right (by decide) (Nat.lt_succ_iff.1 hk)
  have hheld : Buddy.Inv (oneBlockMem k) (Block.mk 0x80000 k).span (oneBlockHeld k)
      (fun _ => []) [⟨0x80000, k⟩] [] := by
    constructor
    case nodup => exact coe_nodup.2 nodup_range'
    case small => rw [Block.card_span]; dsimp only; omega
    case has => exact fun p hp => Block.mem_span.1 hp
    case blockAligned =>
      intro b hb
      obtain rfl : b = ⟨0x80000, k⟩ := by simpa using hb
      have h19 : 2 ^ 10 ∣ 0x80000 := by decide
      exact ⟨hk, Nat.dvd_trans (pow_dvd_pow 2 (Nat.lt_succ_iff.1 hk)) h19⟩
    case buddyFlag =>
      intro p _
      rw [(Page.flags_zero (hflags p)).1]
      simp [oneBlockHeld]
    case pcpFlag => intro p _; simp [(Page.flags_zero (hflags p)).2.1]
    case reserved => exact fun p _ => (Page.flags_zero (hflags p)).2.2
    all_goals simp [oneBlockHeld, Buddy.freeSpan, Buddy.pcpSpan]
  exact hheld.give (by simp [oneBlockHeld])

theorem oneBlock_alloc : ∀ k < maxOrder,
    (Buddy.allocPages (oneBlockMem k) (oneBlock k) 0 k).map Prod.fst = some (some 0x80000) := by
  decide +kernel

theorem oneBlockMem_linear (hk : k < maxOrder) : (oneBlockMem k).Linear := by
  have hpow : 2 ^ k ≤ 2 ^ 10 := Nat.pow_le_pow_right (by decide) (Nat.lt_succ_iff.1 hk)
  refine ⟨Nat.le_refl _, ?_⟩
  simp only [oneBlockMem]
  omega

def oneBlockHeap (k : Nat) : Heap :=
  ⟨⟨oneBlock k, [], []⟩, fun _ => Slabs.World.init (fun _ => ⟨0, 0, 0⟩) fun _ => 0⟩

theorem oneBlockHeap_reachable (hk : k < maxOrder) : Reachable (oneBlockMem k) (oneBlockHeap k) :=
  ⟨oneBlockMem_linear hk, _, _, _, _, _, oneBlock_inv hk, .refl⟩

/-- Where a block of the order for `size` is free, `kmalloc(size)` returns it. -/
theorem oneBlock_returns (size : Nat) (hlarge : slabMaxSize < size)
    (hk : blockOrder size < maxOrder) :
    ∃ h', Returns (oneBlockMem (blockOrder size)) size (oneBlockHeap (blockOrder size))
      (.block ⟨0x80000, blockOrder size⟩) h' := by
  have hinv : ∃ lists, Buddy.Inv (oneBlockMem (blockOrder size)) _
      (oneBlockHeap (blockOrder size)).mem.buddy lists [] (oneBlockHeap (blockOrder size)).mem.out :=
    ⟨_, oneBlock_inv hk⟩
  obtain ⟨page, mem, he, hout, -⟩ :=
    allocPagesKva_spec hinv (by decide : 0 < maxCpus) (kvaOrder_kmallocPages size)
  have halloc := oneBlock_alloc _ hk
  have hpage : page = some 0x80000 := by
    cases ha : Buddy.allocPages (oneBlockMem (blockOrder size)) (oneBlock (blockOrder size)) 0
        (blockOrder size) with
    | none => rw [ha] at halloc; cases halloc
    | some r =>
      rw [ha] at halloc
      have hr : r.1 = some 0x80000 := Option.some.inj halloc
      have ha' : Buddy.allocPages (oneBlockMem (blockOrder size))
        (oneBlockHeap (blockOrder size)).mem.buddy 0 (blockOrder size) = some r := ha
      simp only [allocPagesKva, kvaOrder_kmallocPages, ha', bind_eq_bind, bind_some,
        Option.some.injEq, Prod.mk.injEq] at he
      rw [← he.2] at hout
      cases page with
      | none => rw [hr] at hout; simp [oneBlockHeap] at hout
      | some p => rw [hr] at hout; simp at hout; rw [hout]
  subst hpage
  exact ⟨_, .block (by decide) hlarge (kvaOrder_kmallocPages size) he hout⟩

/-! ## The sizes that are served in full -/

/-- **`kmalloc(size)` is backed by at least `size` bytes exactly for the sizes of `SizeOk`.** For
those, in every reachable state, the bytes asked for are disjoint from every other live
allocation; for every other size some reachable state returns a block that is too small. -/
theorem kmalloc_enough_iff {size : Nat} (hsize : size < 2 ^ 64) :
    SizeOk size ↔ ∀ pm h h' x, Reachable pm h → Returns pm size h x h' →
      size ≤ x.bytes ∧ ∀ y, Live h' y → y ≠ x →
        x.addr + size ≤ y.addr ∨ y.addr + y.bytes ≤ x.addr := by
  constructor
  · intro hok pm h h' x hr hret
    obtain ⟨managed, frames, hi⟩ := reachable_inv hr
    have hbytes := returns_bytes hi hret hsize hok
    obtain ⟨hlive, frames', hi'⟩ := returns_live hi hret
    refine ⟨hbytes, fun y hy hne => ?_⟩
    rcases hi'.apart hlive hy hne.symm with h1 | h1
    · exact .inl (by omega)
    · exact .inr h1
  · intro hall
    by_contra hbad
    have hlarge : slabMaxSize < size := by
      by_contra hle
      simp only [slabMaxSize] at hle
      exact hbad (.inl (by omega))
    rw [blockOrder_enough_iff hsize (Nat.zero_lt_of_lt hlarge)] at hbad
    push Not at hbad
    obtain ⟨h', hret⟩ := oneBlock_returns _ hlarge hbad.1
    have := (hall _ _ _ _ (oneBlockHeap_reachable hbad.1) hret).1
    exact Nat.not_lt.2 this hbad.2

theorem kmalloc_enough_page : 4096 < 2 ^ 64 ∧ ∀ pm h h' x, Reachable pm h →
    Returns pm 4096 h x h' → 4096 ≤ x.bytes ∧ ∀ y, Live h' y → y ≠ x →
      x.addr + 4096 ≤ y.addr ∨ y.addr + y.bytes ≤ x.addr :=
  ⟨by decide, (kmalloc_enough_iff (by decide)).1 (by decide)⟩

/-- A request for `2 ^ 44 + 1` bytes is served with one page. -/
theorem kmalloc_narrowed : ∃ pm h h', Reachable pm h ∧
    Returns pm (2 ^ 44 + 1) h (.block ⟨0x80000, 0⟩) h' ∧
    (Backing.block ⟨0x80000, 0⟩).bytes = 4096 := by
  obtain ⟨h', hret⟩ := oneBlock_returns (2 ^ 44 + 1) (by decide) (by decide)
  exact ⟨_, _, h', oneBlockHeap_reachable (by decide), hret, rfl⟩

end ZzzOs.Mm.Heap
