import ZzzOs.Mm.Kmalloc.Heap

/-!
# Runs of the heap

`Heap.Inv` joins the invariants of the parts: the pages that the caches hold are frames whose
blocks of order 0 are out, each held once. A step of a cache meets the page allocator only
through the pages it asks for or gives back, so the cache's own step lemma and the page
allocator's carry over.
-/

namespace ZzzOs.Mm.Heap

open Function Multiset Lib

def slabBlocks (frames : Nat → Multiset Nat) : Multiset Block :=
  ∑ i ∈ Finset.range kmallocCaches.length, (frames i).map (Block.mk · 0)

/-- The heap is in order; `frames` are the frames each cache holds. -/
structure Inv (pm : PhysMem) (managed : Multiset Nat) (h : Heap) (frames : Nat → Multiset Nat) :
    Prop where
  linear : pm.Linear
  mem : h.mem.Ok pm managed
  caches : ∀ i c, kmallocCaches[i]? = some c → ∃ fl det, Slabs.WInv c (h.cache i) fl det
  pages : ∀ i < kmallocCaches.length, (h.cache i).pages = (frames i).map pageAddress
  blocks : slabBlocks frames ≤ (h.mem.out : Multiset Block)

variable {cpu i size p : Nat} {xs det : List Nat}

section Pages

variable {pm : PhysMem} {managed : Multiset Nat} {mem : Buddy.World}

section

variable (hi : mem.Ok pm managed)

include hi

theorem outSpan_nodup : (Buddy.blocksSpan mem.out).Nodup := by
  obtain ⟨lists, hi⟩ := hi
  exact hi.nodup_out

theorem out_nodup : mem.out.Nodup := by
  refine nodup_of_nodup_map (outSpan_nodup hi) fun b _ h0 => ?_
  have := b.base_mem_span
  rw [h0] at this
  exact notMem_zero _ this

theorem out_has {b : Block} (hb : b ∈ mem.out) (hp : p ∈ b.span) : pm.Has p := by
  obtain ⟨lists, hi⟩ := hi
  exact hi.has p (hi.block_mem (List.mem_append.2 (.inr hb)) hp)

/-- `alloc_pages_kva` succeeds or returns NULL, and a block it returns is out. -/
theorem allocPagesKva_spec (hc : cpu < maxCpus) {npages order : Nat}
    (ho : kvaOrder npages = some order) :
    ∃ (page : Option Nat) (mem' : Buddy.World), allocPagesKva pm mem cpu npages = some (page.map pageAddress, mem') ∧
      mem'.out = page.elim mem.out (fun p => ⟨p, order⟩ :: mem.out) ∧
      mem'.Ok pm managed := by
  obtain ⟨lists, hi⟩ := hi
  obtain ⟨page, s', lists', he, hi', -⟩ := Buddy.allocPages_spec hi hc order
  refine ⟨page, { mem with
    buddy := s', out := page.elim mem.out fun p => ⟨p, order⟩ :: mem.out }, ?_, rfl, lists', hi'⟩
  simp [allocPagesKva, ho, he]

end

theorem freePages_foldl (hl : pm.Linear) (hc : cpu < maxCpus) (ps : List Nat) :
    ∀ {mem : Buddy.World}, mem.Ok pm managed →
      ((ps.map (Block.mk · 0) : List Block) : Multiset Block) ≤ (mem.out : Multiset Block) →
      ∃ mem', (ps.map pageAddress).foldl (freePagesKva pm cpu) mem = mem' ∧
        (mem'.out : Multiset Block) = mem.out - ((ps.map (Block.mk · 0) : List Block)) ∧
        mem'.Ok pm managed := by
  induction ps with
  | nil => intro mem hi _; exact ⟨mem, rfl, (Multiset.sub_zero _).symm, hi⟩
  | cons p ps ih =>
    intro mem hi hle
    rw [List.map_cons, ← cons_coe] at hle
    have hmem : Block.mk p 0 ∈ mem.out := mem_of_le hle (mem_cons_self _ _)
    have hhas : pm.Has p := out_has hi hmem (Block.base_mem_span ⟨p, 0⟩)
    obtain ⟨lists, hi⟩ := hi
    obtain ⟨⟨lists', hi'⟩, -⟩ := Buddy.freePages_spec hi hc hmem
    have hstep : freePagesKva pm cpu mem (pageAddress p) = { mem with
          buddy := Buddy.freePages pm mem.buddy cpu (some p), out := mem.out.erase ⟨p, 0⟩ } := by
      unfold freePagesKva
      rw [addressPage_pageAddress hl hhas]
    have hrest : ((ps.map (Block.mk · 0) : List Block) : Multiset Block) ≤
        ((mem.out.erase ⟨p, 0⟩ : List Block) : Multiset Block) := by
      have := erase_le_erase (Block.mk p 0) hle
      rwa [erase_cons_head, coe_erase] at this
    obtain ⟨mem', he, hout, hinv⟩ := @ih { mem with
      buddy := Buddy.freePages pm mem.buddy cpu (some p), out := mem.out.erase ⟨p, 0⟩ }
      ⟨lists', hi'⟩ hrest
    refine ⟨mem', ?_, ?_, hinv⟩
    · rw [List.map_cons, List.foldl_cons, hstep, he]
    · rw [hout, List.map_cons, ← cons_coe, sub_cons, coe_erase]

end Pages

section Step

variable {pm : PhysMem} {managed v : Multiset Nat} {h h₀ : Heap} {frames : Nat → Multiset Nat}
  {c : KmemCache} {w' w : Slabs.World} {mem' : Buddy.World} {op : Slabs.Op}

namespace Inv

section

variable {i p : Nat} (hi : Inv pm managed h frames) (hlt : i < kmallocCaches.length)

include hi hlt

theorem frame_out (hp : p ∈ frames i) : Block.mk p 0 ∈ h.mem.out :=
  mem_of_le hi.blocks (mem_sum.2 ⟨_, Finset.mem_range.2 hlt, mem_map.2 ⟨p, hp, rfl⟩⟩)

theorem frame_has (hp : p ∈ frames i) : pm.Has p :=
  out_has hi.mem (hi.frame_out hlt hp) (Block.base_mem_span ⟨p, 0⟩)

theorem mem_pages (hhas : pm.Has p) : pageAddress p ∈ (h.cache i).pages ↔ p ∈ frames i := by
  rw [hi.pages i hlt, mem_map]
  constructor
  · rintro ⟨q, hq, he⟩
    rwa [← pageAddress_inj hi.linear (hi.frame_has hlt hq) hhas he]
  · exact fun hp => ⟨p, hp, rfl⟩

end

end Inv

theorem slabBlocks_update (hlt : i < kmallocCaches.length) (frames : Nat → Multiset Nat)
    (v : Multiset Nat) :
    slabBlocks (update frames i v) + (frames i).map (Block.mk · 0) =
      slabBlocks frames + v.map (Block.mk · 0) :=
  sum_update_add (Finset.mem_range.2 hlt) (fun _ m => Multiset.map (Block.mk · 0) m) frames v

/-- The parts of the new invariant after cache `i` has moved to `w'` with frames `v`. -/
theorem Inv.set (hi : Inv pm managed h frames) (hc : kmallocCaches[i]? = some c)
    (hmem : mem'.Ok pm managed) (hw : ∃ fl det, Slabs.WInv c w' fl det) (hpages : w'.pages = v.map pageAddress)
    (hblocks : slabBlocks (update frames i v) ≤ (mem'.out : Multiset Block)) :
    Inv pm managed ⟨mem', update h.cache i w'⟩ (update frames i v) := by
  refine ⟨hi.linear, hmem, fun j d hd => ?_, fun j hj => ?_, hblocks⟩
  · dsimp only
    refine update_cases (fun hij => ?_) fun _ => hi.caches j d hd
    subst hij
    cases hc.symm.trans hd
    exact hw
  · by_cases hij : j = i
    · subst hij
      simpa only [update_self] using hpages
    · simpa only [update_of_ne hij] using hi.pages j hj

theorem returned_le {fl : Nat → List Nat}
    (hw : Slabs.WInv c w fl det) (hop : w.Enabled c op) :
    (w.returned op : Multiset Nat) ≤ w.pages := by
  cases op with
  | go k page => exact Multiset.le_iff_exists_add.2 ⟨_, (hw.toFree_add hop.1).symm⟩
  | call d =>
    have hsum := Slabs.WInv.calls_split w hop.1
    rw [← hw.pages, hsum]
    exact (Multiset.le_add_right _ _).trans (Multiset.le_add_left _ _)
  | _ => exact Multiset.zero_le _

section

variable (hi : Inv pm managed h frames)

include hi

theorem Inv.frames_of_le (hlt : i < kmallocCaches.length) (hle : (xs : Multiset Nat) ≤ (h.cache i).pages) :
    ∃ ps : List Nat, xs = ps.map pageAddress ∧ (ps : Multiset Nat) ≤ frames i := by
  have hinv : ∀ p ∈ frames i, physToPfn (kernelPa (pageAddress p)) = p := by
    intro p hp
    exact (pfnToPage_eq_some.1 (addressPage_pageAddress hi.linear (hi.frame_has hlt hp))).1.symm
  rw [hi.pages i hlt] at hle
  refine ⟨xs.map fun x => physToPfn (kernelPa x), ?_, ?_⟩
  · rw [List.map_map]
    refine (List.map_id xs).symm.trans (List.map_congr_left fun x hx => ?_)
    obtain ⟨p, hp, rfl⟩ := mem_map.1 (mem_of_le hle hx)
    simp [id, hinv p hp]
  · have h1 := map_le_map (f := fun x => physToPfn (kernelPa x)) hle
    rw [map_map, map_coe] at h1
    have h2 : (frames i).map ((fun x => physToPfn (kernelPa x)) ∘ pageAddress) = frames i :=
      (map_congr rfl hinv).trans (map_id' _)
    rwa [h2] at h1

theorem Inv.giveBack (hc : kmallocCaches[i]? = some c) (hcpu : cpu < maxCpus)
    (hop : (h.cache i).Enabled c op) (hw : ∃ fl det, Slabs.WInv c w' fl det)
    (hp : w'.pages = (h.cache i).pages - ((h.cache i).returned op : Multiset Nat)) :
    ∃ frames', Inv pm managed ⟨((h.cache i).returned op).foldl (freePagesKva pm cpu) h.mem,
      update h.cache i w'⟩ frames' := by
  have hlt : i < kmallocCaches.length := (List.getElem?_eq_some_iff.1 hc).1
  obtain ⟨fl, det, hwi⟩ := hi.caches i c hc
  obtain ⟨ps, hps, hle⟩ := hi.frames_of_le hlt (returned_le hwi hop)
  have hupd := slabBlocks_update hlt frames (frames i - ps)
  have hsplit : (frames i - (ps : Multiset Nat)) + ps = frames i := Multiset.sub_add_cancel hle
  -- the blocks given back are among the slabs' blocks, hence out
  have hblocks : slabBlocks (update frames i (frames i - ps)) +
      ((ps.map (Block.mk · 0) : List Block) : Multiset Block) = slabBlocks frames := by
    have hmap : (frames i).map (Block.mk · 0) = (frames i - (ps : Multiset Nat)).map (Block.mk · 0) +
        ((ps.map (Block.mk · 0) : List Block) : Multiset Block) := by
      conv_lhs => rw [← hsplit]
      rw [map_add, map_coe]
    rw [hmap] at hupd
    refine add_right_cancel (b := (frames i - (ps : Multiset Nat)).map (Block.mk · 0)) ?_
    rw [← hupd]
    abel
  obtain ⟨mem', hfold, hout, hmem⟩ := freePages_foldl hi.linear hcpu ps hi.mem
    ((Multiset.le_add_left _ _).trans (hblocks.le.trans hi.blocks))
  refine ⟨_, hi.set (v := frames i - ps) hc (by rw [hps, hfold]; exact hmem) hw ?_ ?_⟩
  · rw [hp, hps, hi.pages i hlt]
    conv_lhs => rw [← hsplit, map_add, map_coe]
    exact Multiset.add_sub_cancel_right
  · rw [hps, hfold, hout]
    exact le_tsub_of_add_le_right (hblocks.le.trans hi.blocks)

/-- A cache takes a page that the page allocator has just handed out. -/
theorem Inv.takePage (hc : kmallocCaches[i]? = some c)
    (hmem : mem'.Ok pm managed) (hout : mem'.out = ⟨p, 0⟩ :: h.mem.out) (hw : ∃ fl det, Slabs.WInv c w' fl det)
    (hp : w'.pages = pageAddress p ::ₘ (h.cache i).pages) :
    Inv pm managed ⟨mem', update h.cache i w'⟩ (update frames i (p ::ₘ frames i)) := by
  have hlt : i < kmallocCaches.length := (List.getElem?_eq_some_iff.1 hc).1
  refine hi.set hc hmem hw (by rw [hp, hi.pages i hlt, map_cons]) ?_
  have hupd := slabBlocks_update hlt frames (p ::ₘ frames i)
  rw [map_cons, add_cons, ← cons_add] at hupd
  rw [add_right_cancel hupd, hout, ← cons_coe]
  exact cons_le_cons _ hi.blocks

theorem Inv.fresh (hlt : i < kmallocCaches.length) (hmem : mem'.Ok pm managed) (hout : mem'.out = ⟨p, 0⟩ :: h.mem.out) :
    pm.Has p ∧ pageAddress p ∉ (h.cache i).pages := by
  have hhas : pm.Has p :=
    out_has hmem (by rw [hout]; exact List.mem_cons_self) (Block.base_mem_span _)
  refine ⟨hhas, fun hp => ?_⟩
  have hnodup := out_nodup hmem
  rw [hout, List.nodup_cons] at hnodup
  exact hnodup.1 (hi.frame_out hlt ((hi.mem_pages hlt hhas).1 hp))

end

theorem kvaOrder_one : kvaOrder 1 = some 0 := by decide

theorem stepSlab_spec (hi : Inv pm managed h frames)
    (hc : kmallocCaches[i]? = some c) (hcpu : cpu < maxCpus) (op : Slabs.Op)
    (hop : (h.cache i).Enabled c op.bare) :
    ∃ h', h.stepSlab pm i cpu op = some h' ∧ ∃ frames', Inv pm managed h' frames' := by
  have hlt : i < kmallocCaches.length := (List.getElem?_eq_some_iff.1 hc).1
  obtain ⟨fl, det, hw⟩ := hi.caches i c hc
  cases hask : (h.cache i).asks op with
  | none =>
    obtain ⟨w', fl', det', he, hw'⟩ := Slabs.step_spec hw hop
    have hpages : w'.pages = (h.cache i).pages - ((h.cache i).returned op.bare : Multiset Nat) := by
      rcases Slabs.step_pages he with hp | ⟨k, mem, hbare, -, -⟩
      · exact hp
      · cases op <;> cases hbare
    obtain ⟨frames', hi'⟩ := hi.giveBack hc hcpu hop ⟨fl', det', hw'⟩ hpages
    refine ⟨_, ?_, frames', hi'⟩
    simp [stepSlab, hc, hask, he, Except.toOption]
  | some k =>
    obtain ⟨⟨page₀, rfl⟩, target, hpc⟩ := Slabs.asks_eq_some hask
    have hnothing : ∀ page, (h.cache i).returned (.go k page) = [] := by
      intro page
      rw [Slabs.World.returned, hpc]
      rfl
    obtain ⟨page, mem', ha, hout, hmem⟩ := allocPagesKva_spec hi.mem hcpu kvaOrder_one
    cases page with
    | none =>
      -- NULL: the cache goes on without a new slab
      obtain ⟨w', fl', det', he, hw'⟩ := Slabs.step_spec hw hop
      have hpages : w'.pages = (h.cache i).pages := by
        rcases Slabs.step_pages he with hp | ⟨k', mem, hbare, -, -⟩
        · rw [hp, Slabs.Op.bare, hnothing]
          exact Multiset.sub_zero _
        · cases hbare
      refine ⟨⟨mem', update h.cache i w'⟩, ?_, update frames i (frames i), ?_⟩
      · rw [Slabs.Op.bare] at he
        simp [stepSlab, hc, hask, ha, he, hnothing, Except.toOption]
      · refine hi.set hc hmem ⟨fl', det', hw'⟩ (by rw [hpages, hi.pages i hlt]) ?_
        rw [update_eq_self, hout]
        exact hi.blocks
    | some p =>
      obtain ⟨hhas, hnew⟩ := hi.fresh hlt hmem hout
      have hop' : (h.cache i).Enabled c (.go k (some (pageAddress p))) := by
        refine ⟨hop.1, fun mem hm => ?_⟩
        cases hm
        exact ⟨pageOk_pageAddress hi.linear hhas, hnew⟩
      obtain ⟨w', fl', det', he, hw'⟩ := Slabs.step_spec hw hop'
      have hpages : w'.pages = pageAddress p ::ₘ (h.cache i).pages := by
        simp only [Slabs.World.step, Slabs.World.go, hpc] at he
        cases he
        rfl
      refine ⟨⟨mem', update h.cache i w'⟩, ?_, _, hi.takePage hc hmem hout ⟨fl', det', hw'⟩ hpages⟩
      simp [stepSlab, hc, hask, ha, he, hnothing, Except.toOption]

theorem Inv.setMem (hi : Inv pm managed h frames)
    (hmem : mem'.Ok pm managed) (hle : slabBlocks frames ≤ (mem'.out : Multiset Block)) :
    Inv pm managed { h with mem := mem' } frames :=
  ⟨hi.linear, hmem, hi.caches, hi.pages, hle⟩

theorem le_elim_cons {m : Multiset Block} {out : List Block} (hle : m ≤ (out : Multiset Block))
    (order : Nat) (page : Option Nat) :
    m ≤ ((page.elim out fun p => ⟨p, order⟩ :: out : List Block) : Multiset Block) := by
  cases page with
  | none => exact hle
  | some p => exact hle.trans (le_cons_self _ _)

theorem stepPages_spec (hi : Inv pm managed h frames) {op : Buddy.Op} (hop : h.mem.Allowed op)
    (hfree : ∀ cpu b, op = .free cpu b → h.NotSlab b.base) :
    ∃ h', h.stepPages pm op = some h' ∧ Inv pm managed h' frames := by
  obtain ⟨mem', he, hmem, -⟩ := Buddy.step_spec hi.mem hop
  refine ⟨{ h with mem := mem' }, ?_, hi.setMem hmem ?_⟩
  · simp [stepPages, he]
  cases op with
  | alloc cpu order =>
    simp only [Buddy.World.step] at he
    cases ha : Buddy.allocPages pm h.mem.buddy cpu order with
    | none => rw [ha] at he; cases he
    | some r => rw [ha] at he; cases he; exact le_elim_cons hi.blocks order r.1
  | free cpu b =>
    cases he
    have hnot : b ∉ slabBlocks frames := by
      intro hb
      obtain ⟨i, hir, hb⟩ := mem_sum.1 hb
      obtain ⟨p, hp, rfl⟩ := mem_map.1 hb
      have hlt := Finset.mem_range.1 hir
      exact hfree cpu _ rfl i hlt ((hi.mem_pages hlt (hi.frame_has hlt hp)).2 hp)
    have := erase_le_erase b hi.blocks
    rwa [erase_of_notMem hnot, coe_erase] at this
  | freeNull cpu => cases he; exact hi.blocks
  | configure | configureCpu =>
    simp only [Buddy.World.step] at he
    split at he
    · cases he; exact hi.blocks
    · cases he; exact hi.blocks

/-- `kmalloc` goes through: every allocation it makes keeps the heap in order. -/
theorem kmalloc_spec (hi : Inv pm managed h frames) (hcpu : cpu < maxCpus)
    (hidle : ∀ i, sizeToIndex size = some i → (h.cache i).pc cpu = .idle) :
    ∃ h', h.kmalloc pm cpu size = some h' ∧ ∃ frames', Inv pm managed h' frames' := by
  unfold kmalloc
  split
  · exact ⟨h, rfl, frames, hi⟩
  split_ifs with hsmall
  · obtain ⟨page, mem', ha, hout, hmem⟩ :=
      allocPagesKva_spec hi.mem hcpu (kvaOrder_kmallocPages size)
    refine ⟨{ h with mem := mem' }, ?_, frames, hi.setMem hmem ?_⟩
    · simp [ha]
    · rw [hout]
      exact le_elim_cons hi.blocks _ page
  · obtain ⟨i, c, hidx, hc, -⟩ := sizeToIndex_spec (Nat.le_of_not_lt hsmall)
    simp only [hidx]
    exact stepSlab_spec hi hc hcpu (.alloc cpu) ⟨hcpu, hidle i hidx⟩

/-- Every enabled step of the heap goes through and keeps it in order. -/
theorem step_spec (hi : ∃ frames, Inv pm managed h frames) {op : Op} (hop : h.Enabled op) :
    ∃ h', h.step pm op = some h' ∧ ∃ frames', Inv pm managed h' frames' := by
  obtain ⟨frames, hi⟩ := hi
  cases op with
  | kmalloc cpu size => exact kmalloc_spec hi hop.1 hop.2
  | pages op =>
    obtain ⟨h', he, hi'⟩ := stepPages_spec hi hop.1 hop.2
    exact ⟨h', he, frames, hi'⟩
  | slab i cpu op =>
    obtain ⟨hcpu, c, hc, hop⟩ := hop
    exact stepSlab_spec hi hc hcpu _ hop

theorem run_spec (hi : ∃ frames, Inv pm managed h₀ frames)
    (hrun : Relation.ReflTransGen (Step pm) h₀ h) : ∃ frames, Inv pm managed h frames := by
  induction hrun with
  | refl => exact hi
  | tail _ hstep ih =>
    obtain ⟨op, hop, he⟩ := hstep
    obtain ⟨h', he', hi'⟩ := step_spec ih hop
    cases he.symm.trans he'
    exact hi'

end Step

end ZzzOs.Mm.Heap
