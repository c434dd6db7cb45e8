import ZzzOs.Mm.Buddy.Init
import Mathlib.Logic.Relation

/-!
# Runs of the page allocator

The allocator with its clients: the blocks that are out, and the calls of `pcp_configure` that are under
way. A step is one locked section on one CPU. Every state a run reaches accounts for every managed page
exactly once (`Accounted`), and no step fails.
-/

namespace ZzzOs.Mm.Buddy

open Nat Multiset Relation Lib

structure ConfigureCall where
  cpu : Nat
  high : Nat
  batch : Nat
deriving DecidableEq

structure World where
  buddy : Buddy
  out : List Block
  calls : List ConfigureCall

/-- What a CPU can do next. -/
inductive Op
  | alloc (cpu order : Nat)
  | free (cpu : Nat) (b : Block)
  | freeNull (cpu : Nat)
  | configure (high batch : Nat)
  /-- A call under way handles its next CPU, or returns after the last one. -/
  | configureCpu (call : ConfigureCall)

namespace World

/-- The client's side of an operation. -/
def Allowed (w : World) : Op → Prop
  | .alloc cpu _ => cpu < maxCpus
  | .free cpu b => cpu < maxCpus ∧ b ∈ w.out
  | .freeNull _ => True
  | .configure _ _ => True
  | .configureCpu call => call ∈ w.calls

def step (pm : PhysMem) (w : World) : Op → Option World
  | .alloc cpu order => do
    let (page, buddy) ← allocPages pm w.buddy cpu order
    some { w with buddy := buddy, out := page.elim w.out fun p => ⟨p, order⟩ :: w.out }
  | .free cpu b =>
    some { w with buddy := freePages pm w.buddy cpu (some b.base), out := w.out.erase b }
  | .freeNull cpu => some { w with buddy := freePages pm w.buddy cpu none }
  | .configure high batch =>
    if pcpConfigureOk high batch then some { w with calls := ⟨0, high, batch⟩ :: w.calls }
    else some w
  | .configureCpu call =>
    let calls := w.calls.erase call
    if call.cpu < maxCpus then
      some { w with
        buddy := pcpConfigureCpu pm w.buddy call.cpu call.high call.batch
        calls := { call with cpu := call.cpu + 1 } :: calls }
    else some { w with calls := calls }

def Step (pm : PhysMem) (w w' : World) : Prop :=
  ∃ op, w.Allowed op ∧ w.step pm op = some w'

/-- The invariant between two operations -/
abbrev Ok (pm : PhysMem) (managed : Multiset Nat) (w : World) : Prop :=
  ∃ lists, Inv pm managed w.buddy lists [] w.out

end World

open World

/-! ## One step -/

section Step

variable {pm : PhysMem} {managed : Multiset Nat} {w w₀ : World}

/-- Every allowed operation has a next state, keeps the invariant and leaves nothing to merge. -/
theorem step_spec (h : w.Ok pm managed) {op : Op} (hop : w.Allowed op) :
    ∃ w', w.step pm op = some w' ∧ w'.Ok pm managed ∧
      (w.buddy.Settled managed → w'.buddy.Settled managed) := by
  obtain ⟨lists, h⟩ := h
  cases op with
  | alloc cpu order =>
    obtain ⟨r, s', lists', he, hi, hco⟩ := allocPages_spec h hop order
    exact ⟨_, by simp only [step, he]; rfl, ⟨lists', hi⟩, hco⟩
  | free cpu b => exact ⟨_, rfl, freePages_spec h hop.1 hop.2⟩
  | freeNull cpu => exact ⟨_, rfl, ⟨lists, h⟩, id⟩
  | configure high batch =>
    simp only [step]
    split
    · exact ⟨_, rfl, ⟨lists, h⟩, id⟩
    · exact ⟨_, rfl, ⟨lists, h⟩, id⟩
  | configureCpu call =>
    simp only [step]
    split_ifs with hc
    · exact ⟨_, rfl, pcpConfigureCpu_spec h hc call.high call.batch⟩
    · exact ⟨_, rfl, ⟨lists, h⟩, id⟩

theorem run_inv (h₀ : w₀.Ok pm managed) (hrun : ReflTransGen (Step pm) w₀ w) :
    w.Ok pm managed ∧ (w₀.buddy.Settled managed → w.buddy.Settled managed) := by
  induction hrun with
  | refl => exact ⟨h₀, id⟩
  | tail _ hstep ih =>
    obtain ⟨op, hop, he⟩ := hstep
    obtain ⟨w', he', hi, hco⟩ := step_spec ih.1 hop
    cases he.symm.trans he'
    exact ⟨hi, fun hs => hco (ih.2 hs)⟩

end Step

/-! ## What the invariant says about the pages -/

/-- Where a managed page can be: in a free block, on a per-CPU list, in a block that is out. -/
inductive Place
  | free (order head : Nat)
  | pcp (cpu : Nat)
  | out (b : Block)

def Place.Holds (w : World) (lists : Nat → List Nat) (p : Nat) : Place → Prop
  | .free k q => k < maxOrder ∧ q ∈ (w.buddy.freeArea k).freeList ∧ q ≤ p ∧ p < q + 2 ^ k
  | .pcp c => c < maxCpus ∧ p ∈ lists c
  | .out b => b ∈ w.out ∧ b.base ≤ p ∧ p < b.base + 2 ^ b.order

structure Accounted (pm : PhysMem) (managed : List Nat) (w : World) (lists : Nat → List Nat) :
    Prop where
  linked : ∀ c < maxCpus, Linked (fun p => (w.buddy.memMap p).next) (w.buddy.pcp c).head (lists c)
  place : ∀ p ∈ managed, ∃! place : Place, place.Holds w lists p
  managed : ∀ p (place : Place), place.Holds w lists p → p ∈ managed
  freeNodup : ∀ k < maxOrder, (w.buddy.freeArea k).freeList.Nodup
  freeAligned : ∀ k < maxOrder, ∀ p ∈ (w.buddy.freeArea k).freeList, 2 ^ k ∣ p
  outAligned : ∀ b ∈ w.out, b.order < maxOrder ∧ 2 ^ b.order ∣ b.base
  outDisjoint : w.out.Pairwise fun b b' =>
    b.base + 2 ^ b.order ≤ b'.base ∨ b'.base + 2 ^ b'.order ≤ b.base
  buddyFlag : ∀ p, pm.Has p → ((w.buddy.memMap p).pageBuddy = true ↔
    ∃ k < maxOrder, p ∈ (w.buddy.freeArea k).freeList)
  pcpFlag : ∀ p, pm.Has p → ((w.buddy.memMap p).pagePcp = true ↔ ∃ c < maxCpus, p ∈ lists c)
  nrFree : ∀ k < maxOrder, (w.buddy.freeArea k).nrFree = (w.buddy.freeArea k).freeList.length
  count : ∀ c < maxCpus, (w.buddy.pcp c).count = (lists c).length
  total : ∑ k ∈ Finset.range maxOrder, (w.buddy.freeArea k).nrFree * 2 ^ k +
      ∑ c ∈ Finset.range maxCpus, (w.buddy.pcp c).count +
      (w.out.map fun b => 2 ^ b.order).sum = w.buddy.managedPages

section Accounting

variable {pm : PhysMem} {managed : List Nat} {w : World} {lists : Nat → List Nat} {p c k q : Nat}

theorem holds_free (h : (Place.free k q).Holds w lists p) :
    p ∈ freeSpan w.buddy.freeArea :=
  Multiset.mem_sum.2 ⟨_, Finset.mem_range.2 h.1, mem_sum_map.2 ⟨q, h.2.1, Block.mem_span.2 h.2.2⟩⟩

theorem holds_pcp (h : (Place.pcp c).Holds w lists p) : p ∈ pcpSpan lists :=
  mem_pcpSpan h.1 h.2

theorem holds_out {b : Block} (h : (Place.out b).Holds w lists p) : p ∈ blocksSpan w.out :=
  mem_blocksSpan h.1 (Block.mem_span.2 h.2)

variable (hi : Inv pm managed w.buddy lists [] w.out)

include hi

theorem holds_mem {place : Place} (h : place.Holds w lists p) : p ∈ managed := by
  rw [← mem_coe, ← hi.cover, blocksSpan_nil, zero_add]
  cases place with
  | free k q => exact mem_add.2 (.inl (mem_add.2 (.inl (holds_free h))))
  | pcp c => exact mem_add.2 (.inl (mem_add.2 (.inr (holds_pcp h))))
  | out b => exact mem_add.2 (.inr (holds_out h))

theorem exists_place (hp : p ∈ managed) : ∃ place : Place, place.Holds w lists p := by
  rw [← mem_coe, ← hi.cover, blocksSpan_nil, zero_add] at hp
  rcases mem_add.1 hp with hp | hp
  · rcases mem_add.1 hp with hp | hp
    · obtain ⟨k, hk, hp⟩ := mem_sum.1 hp
      obtain ⟨q, hq, hp⟩ := mem_sum_map.1 hp
      exact ⟨.free k q, Finset.mem_range.1 hk, hq, Block.mem_span.1 hp⟩
    · obtain ⟨c, hc, hp⟩ := mem_sum.1 hp
      obtain ⟨q, hq, hp⟩ := mem_sum_map.1 hp
      rw [Block.span_zero, mem_singleton] at hp
      subst hp
      exact ⟨.pcp c, Finset.mem_range.1 hc, hq⟩
  · obtain ⟨b, hb, hp⟩ := mem_sum_map.1 hp
    exact ⟨.out b, hb, Block.mem_span.1 hp⟩

theorem place_unique {a b : Place} (ha : a.Holds w lists p) (hb : b.Holds w lists p) : a = b := by
  have hfp : p ∈ freeSpan w.buddy.freeArea → p ∉ pcpSpan lists :=
    fun h => disjoint_left.1 hi.free_disjoint_pcp h
  have hfo : p ∈ freeSpan w.buddy.freeArea → p ∉ blocksSpan w.out := fun h h' =>
    disjoint_left.1 hi.lists_disjoint_blocks (mem_add.2 (.inl h)) (mem_add.2 (.inr h'))
  have hpo : p ∈ pcpSpan lists → p ∉ blocksSpan w.out := fun h h' =>
    disjoint_left.1 hi.lists_disjoint_blocks (mem_add.2 (.inr h)) (mem_add.2 (.inr h'))
  cases a with
  | free k q =>
    cases b with
    | free k' q' =>
      have hp : p ∈ (Block.mk q k).span := Block.mem_span.2 ha.2.2
      have hp' : p ∈ (Block.mk q' k').span := Block.mem_span.2 hb.2.2
      obtain rfl := index_unique hi.nodup_free ha.1 hb.1 (mem_sum_map.2 ⟨q, ha.2.1, hp⟩)
        (mem_sum_map.2 ⟨q', hb.2.1, hp'⟩)
      rw [member_unique (nodup_of_nodup_sum hi.nodup_free ha.1) ha.2.1 hb.2.1 hp hp']
    | pcp c => exact absurd (holds_pcp hb) (hfp (holds_free ha))
    | out b => exact absurd (holds_out hb) (hfo (holds_free ha))
  | pcp c =>
    cases b with
    | free k q => exact absurd (holds_pcp ha) (hfp (holds_free hb))
    | pcp d => rw [hi.pcp_unique hb.1 ha.1 hb.2 ha.2]
    | out b => exact absurd (holds_out hb) (hpo (holds_pcp ha))
  | out b' =>
    cases b with
    | free k q => exact absurd (holds_out ha) (hfo (holds_free hb))
    | pcp c => exact absurd (holds_out ha) (hpo (holds_pcp hb))
    | out b =>
      rw [member_unique hi.nodup_out ha.1 hb.1 (Block.mem_span.2 ha.2) (Block.mem_span.2 hb.2)]

theorem accounted_of_inv : Accounted pm managed w lists := by
  refine { linked := hi.linked, place := ?_, managed := fun p place h => holds_mem hi h,
           freeNodup := fun k hk => hi.freeList_nodup hk, freeAligned := hi.aligned,
           outAligned := hi.blockAligned, outDisjoint := ?_, buddyFlag := hi.buddyFlag,
           pcpFlag := hi.pcpFlag, nrFree := hi.nrFree, count := hi.count, total := ?_ }
  · intro p hp
    obtain ⟨place, h⟩ := exists_place hi hp
    exact ⟨place, h, fun place' h' => place_unique hi h' h⟩
  · exact (pairwise_of_nodup_map hi.nodup_out).imp Block.apart_of_disjoint
  · have hfree : ∑ k ∈ Finset.range maxOrder, (w.buddy.freeArea k).nrFree * 2 ^ k =
        (freeSpan w.buddy.freeArea).card := by
      rw [freeSpan_card]
      exact Finset.sum_congr rfl fun k hk => by rw [hi.nrFree k (Finset.mem_range.1 hk)]
    have hpcp : ∑ c ∈ Finset.range maxCpus, (w.buddy.pcp c).count = (pcpSpan lists).card := by
      rw [pcpSpan_card]
      exact Finset.sum_congr rfl fun c hc => hi.count c (Finset.mem_range.1 hc)
    rw [hi.managedPages, hfree, hpcp, ← blocksSpan_card, ← hi.cover, blocksSpan_nil, zero_add,
      card_add, card_add]

/-- An aligned run of free frames is in one free block: two halves that are free blocks of their own
would have been merged. -/
theorem free_run (hco : w.buddy.Coalesced) (hk : k < maxOrder) (hp : 2 ^ k ∣ p)
    (hall : (Block.mk p k).span ⊆ freeSpan w.buddy.freeArea) :
    ∃ j < maxOrder, k ≤ j ∧ ∃ b ∈ (w.buddy.freeArea j).freeList, b ≤ p ∧ p + 2 ^ k ≤ b + 2 ^ j := by
  induction k generalizing p with
  | zero =>
    obtain ⟨j, hj, hmem⟩ := mem_sum.1 (hall (Block.base_mem_span _))
    obtain ⟨b, hb, hspan⟩ := mem_sum_map.1 hmem
    exact ⟨j, Finset.mem_range.1 hj, zero_le j, b, hb, Block.mem_span.1 hspan⟩
  | succ k ih =>
    have hdvd : 2 ^ k ∣ p := (pow_dvd_pow 2 (le_succ k)).trans hp
    rw [Block.span_split] at hall
    obtain ⟨j, hj, hkj, b, hb, hlow⟩ := ih (by omega) hdvd fun q hq => hall (mem_add.2 (.inl hq))
    obtain ⟨j', hj', hkj', b', hb', hhigh⟩ := ih (by omega) (Nat.dvd_add hdvd dvd_rfl)
      fun q hq => hall (mem_add.2 (.inr hq))
    rcases hkj.lt_or_eq with hlt | rfl
    · have hend := Nat.dvd_add (hi.aligned j hj b hb) dvd_rfl
      refine ⟨j, hj, hlt, b, hb, hlow.1, not_lt.1 fun hc => hc.ne ?_⟩
      exact eq_add_of_aligned hp ((pow_dvd_pow 2 hlt).trans hend) (by omega) hc.le
    rcases hkj'.lt_or_eq with hlt | rfl
    · refine ⟨j', hj', hlt, b', hb', not_lt.1 fun hc => ?_, by omega⟩
      have := eq_add_of_aligned hp ((pow_dvd_pow 2 hlt).trans (hi.aligned j' hj' b' hb')) hc (by omega)
      omega
    · obtain rfl : b = p := by omega
      obtain rfl : b' = b + 2 ^ k := by omega
      exact absurd (flip_of_dvd hp ▸ hb') (hco k hk b hb)

end Accounting

/-! ## Runs from start-up -/

/-- `kmalloc_init` up to the page allocator: descriptors for `mb`, then `buddy_init`. -/
def boot (mb : Memblock) (kernel memMap : MemblockRegion) : Option Buddy :=
  buddyInit (physmemInit mb kernel memMap).1 mb (physmemInit mb kernel memMap).2

variable {mb : Memblock} {kernel memMap : MemblockRegion}

theorem boot_inv
    (hasc : (managedPfns mb).Pairwise (· < ·)) (hfit : (physmemInit mb kernel memMap).1.Fits)
    (hhas : ∀ p ∈ managedPfns mb, (physmemInit mb kernel memMap).1.Has p) :
    ∃ s, boot mb kernel memMap = some s ∧ Inv (physmemInit mb kernel memMap).1
      (managedPfns mb : List Nat) s (fun _ => []) [] [] ∧ s.Settled (managedPfns mb : List Nat) := by
  refine buddyInit_spec hasc (physmemInit_pages mb kernel memMap) ?_ hhas
  have : 2 ^ 64 - kernelVaBase < 2 ^ 32 := by decide
  exact lt_of_le_of_lt hfit this

/-- Without no-map regions every frame of the memory map has its descriptor. -/
theorem managedPfns_has (hs : mb.Sorted)
    (ht : mb.memory.totalSize ≠ 0) (hflags : ∀ r ∈ mb.memory.regions, r.flags = 0) :
    ∀ p ∈ managedPfns mb, (physmemInit mb kernel memMap).1.Has p := by
  intro p hp
  obtain ⟨r, hr, hp⟩ := List.mem_flatMap.1 hp
  obtain ⟨hb, hz⟩ := hs.aligned r hr
  obtain ⟨h1, h2⟩ := mem_initPfns hb hp
  have hlimit : 4096 ∣ r.limit := by
    exact (Nat.dvd_mod_iff (by decide)).2 (Nat.dvd_add hb hz)
  have := @physmemInit_has _ mb kernel memMap ht r hr (hflags r hr) hlimit h1 h2
  rwa [physToPfn_eq, Nat.mul_div_cancel_left p (by decide)] at this

/-- **Every page is accounted for.** From start-up over a sorted memory map, whatever CPUs allocate,
free and reconfigure, every managed page is in exactly one place, with flags, counters and totals to
match, and the next operation goes through. Start-up itself does when no region is marked no-map. -/
theorem boot_run_accounted (hs : mb.Sorted) (hfit : (physmemInit mb kernel memMap).1.Fits) :
    (mb.memory.totalSize ≠ 0 → (∀ r ∈ mb.memory.regions, r.flags = 0) →
      ∃ s, boot mb kernel memMap = some s) ∧
    ∀ s, boot mb kernel memMap = some s → s.managedPages = (managedPfns mb).length ∧
      ∀ w, ReflTransGen (Step (physmemInit mb kernel memMap).1) ⟨s, [], []⟩ w →
        (∃ lists, Accounted (physmemInit mb kernel memMap).1 (managedPfns mb) w lists) ∧
        ∀ op, w.Allowed op → ∃ w', w.step (physmemInit mb kernel memMap).1 op = some w' := by
  constructor
  · intro ht hflags
    obtain ⟨s, he, -⟩ := boot_inv (managedPfns_ascending hs) hfit (managedPfns_has hs ht hflags)
    exact ⟨s, he⟩
  · intro s he
    obtain ⟨s', he', hinv, -⟩ := boot_inv (managedPfns_ascending hs) hfit (buddyInit_has he)
    cases he.symm.trans he'
    refine ⟨by rw [hinv.managedPages, coe_card], fun w hrun => ?_⟩
    have hw := (run_inv ⟨_, hinv⟩ hrun).1
    constructor
    · obtain ⟨lists, h⟩ := hw
      exact ⟨lists, accounted_of_inv h⟩
    · intro op hop
      obtain ⟨w', hstep, -⟩ := step_spec hw hop
      exact ⟨w', hstep⟩

/-- Sixteen pages at the kernel's load address. -/
def smallMap : Memblock where
  memory := ⟨0x10000, [⟨0x80000000, 0x10000, 0⟩]⟩
  reserved := ⟨0x4000, [⟨0x80000000, 0x4000, 0⟩]⟩

/-- The kernel is in the first four pages, and the descriptors are in the next one. -/
abbrev bootSmall (mb : Memblock) : Option Buddy :=
  boot mb ⟨0x80000000, 0x4000, 0⟩ ⟨0x80004000, 0x1000, 0⟩

theorem boot_run_accounted_smallMap :
    ∃ s, bootSmall smallMap = some s ∧ s.managedPages = 12 ∧
      ∀ w, ReflTransGen (Step ⟨0x80000, 0x80010⟩) ⟨s, [], []⟩ w →
        ∃ lists, Accounted ⟨0x80000, 0x80010⟩ (managedPfns smallMap) w lists := by
  have hs : smallMap.Sorted := by
    refine ⟨?_, ?_, ?_⟩ <;> simp [smallMap]
  obtain ⟨h1, h2⟩ := @boot_run_accounted smallMap ⟨0x80000000, 0x4000, 0⟩ ⟨0x80004000, 0x1000, 0⟩ hs
    (by unfold PhysMem.Fits; decide)
  obtain ⟨s, he⟩ := h1 (by decide) (by decide)
  obtain ⟨hm, hrun⟩ := h2 s he
  exact ⟨s, he, by rw [hm]; decide, fun w hw => (hrun w hw).1⟩

/-! ## Maximal blocks -/

/-- **Nothing is left to merge.** If start-up comes to the frames by ascending address, no two buddies
of one order below the last are both free in any state that is reached. -/
theorem boot_run_coalesced (hasc : (managedPfns mb).Pairwise (· < ·))
    (hfit : (physmemInit mb kernel memMap).1.Fits)
    {s : Buddy} (hboot : boot mb kernel memMap = some s) {w : World}
    (hrun : ReflTransGen (Step (physmemInit mb kernel memMap).1) ⟨s, [], []⟩ w) :
    w.buddy.Coalesced := by
  obtain ⟨s', he, hinv, hco⟩ := boot_inv hasc hfit (buddyInit_has hboot)
  cases hboot.symm.trans he
  exact ((run_inv ⟨_, hinv⟩ hrun).2 hco).1

/-- The twelve free pages become a block of order 2 and one of order 3. -/
theorem boot_run_coalesced_smallMap : ∃ s, bootSmall smallMap = some s ∧
      (List.range 4).map (fun k => (s.freeArea k).freeList) = [[], [], [0x80004], [0x80008]] ∧
      s.Coalesced := by
  have hlists : (bootSmall smallMap).map
      (fun s => (List.range 4).map fun k => (s.freeArea k).freeList) =
        some [[], [], [0x80004], [0x80008]] := by decide +kernel
  obtain ⟨s, he, hs⟩ := Option.map_eq_some_iff.1 hlists
  exact ⟨s, he, hs, boot_run_coalesced (by decide) (by unfold PhysMem.Fits; decide) he .refl⟩

/-! ## Pages that are not out -/

section Idle

variable {pm : PhysMem} {managed : Multiset Nat} {s : Buddy} {lists : Nat → List Nat}
  {out : List Block} {p c n : Nat}

def Idle (s : Buddy) (p : Nat) : Prop :=
  (s.memMap p).pageReserved = true ∨ (∃ k < maxOrder, p ∈ (s.freeArea k).freeList) ∨
    ∃ c < maxCpus, ∃ l, Linked (fun q => (s.memMap q).next) (s.pcp c).head l ∧ p ∈ l

structure Unchanged (s s' : Buddy) : Prop where
  freeArea : s'.freeArea = s.freeArea
  pcp : s'.pcp = s.pcp
  linked : ∀ c < maxCpus, ∀ l, Linked (fun q => (s.memMap q).next) (s.pcp c).head l →
    Linked (fun q => (s'.memMap q).next) (s'.pcp c).head l
  flags : ∀ q, (s'.memMap q).flags = (s.memMap q).flags

theorem coalesce_keeps : ∀ (fuel : Nat) {s : Buddy} {p k : Nat},
    (coalesce pm fuel s p k).1.pcp = s.pcp ∧
      (0 < k → ((coalesce pm fuel s p k).1.freeArea 0).nrFree = (s.freeArea 0).nrFree ∧
        0 ≠ (coalesce pm fuel s p k).2.2) := by
  intro fuel
  induction fuel with
  | zero => intro s p k; exact ⟨rfl, fun hk => ⟨rfl, hk.ne⟩⟩
  | succ fuel ih =>
    intro s p k
    rw [coalesce]
    split
    · refine ⟨ih.1, fun hk => ⟨(ih.2 k.succ_pos).1.trans ?_, (ih.2 k.succ_pos).2⟩⟩
      simp [removeFromFreeArea, hk.ne, listDel]
    · exact ⟨rfl, fun hk => ⟨rfl, hk.ne⟩⟩

@[simp] theorem buddyFreeLocked_pcp : (buddyFreeLocked pm s p).pcp = s.pcp := by
  unfold buddyFreeLocked
  dsimp only
  split
  · rfl
  · split
    · rfl
    · exact (coalesce_keeps _).1

/-- A single page that comes to the free areas is listed, or its buddy leaves the list. -/
theorem buddyFreeLocked_changes (h0 : (s.memMap p).order = 0)
    (hflags : ((s.memMap p).pageReserved || (s.memMap p).pageBuddy || (s.memMap p).pagePcp) = false)
    (hpos : ∀ b, getBuddyPage pm p 0 = some b → s.isFreeBuddy b 0 = true →
      0 < (s.freeArea 0).nrFree) :
    ((buddyFreeLocked pm s p).freeArea 0).nrFree ≠ (s.freeArea 0).nrFree := by
  rw [buddyFreeLocked, h0, hflags]
  rw [if_neg (by decide), if_neg Bool.false_ne_true, show maxOrder - 1 - 0 = 9 + 1 from rfl, coalesce]
  cases hb : (getBuddyPage pm p 0).filter fun b => s.isFreeBuddy b 0 with
  | none => simp [addToFreeArea]
  | some b =>
    obtain ⟨hbuddy, hfree⟩ := Option.filter_eq_some_iff.1 hb
    obtain ⟨hnr, hk⟩ := (@coalesce_keeps pm 9 (s.removeFromFreeArea b 0) (if p > b then b else p) (0 + 1)).2
      (by decide)
    have hnr' := hpos b hbuddy hfree
    dsimp only [addToFreeArea]
    rw [Function.update_of_ne hk, setPage_freeArea, hnr]
    simp [removeFromFreeArea, listDel]
    omega

/-- A drain that takes a page off the list shows in its length. -/
theorem pcpDrain_changes : ∀ (n : Nat) {s : Buddy}, pcpDrain pm c n s = s ∨
    (s.pcp c).head ≠ none ∧ ((pcpDrain pm c n s).pcp c).count ≤ (s.pcp c).count - 1 := by
  intro n
  induction n with
  | zero => intro s; exact .inl rfl
  | succ n ih =>
    intro s
    rw [pcpDrain]
    split
    · exact .inl rfl
    · rename_i q hq
      refine .inr ⟨by rw [hq]; exact Option.some_ne_none _, ?_⟩
      rcases @ih (buddyFreeLocked pm _ q) with he | ⟨-, hle⟩
      · rw [he]
        simp
      · refine hle.trans ?_
        simp

/-- A page that is pushed and drained at once comes to the free areas with both flags clear. -/
theorem pcpDrain_push (hcount : (s.pcp c).count + 1 < 2 ^ 32) :
    ∃ f : Page → Page, pcpDrain pm c (n + 1) (s.pcpPush c p) =
        pcpDrain pm c n (buddyFreeLocked pm (s.setPage p f) p) ∧
      ∀ q, (f q).order = 0 ∧ ((f q).pageReserved || (f q).pageBuddy || (f q).pagePcp) =
        q.pageReserved := by
  refine ⟨fun q => { ({ ({ q with order := 0 } : Page).setPagePcp with next := none } :
    Page).clearPagePcp with order := 0 }, ?_, fun q => ⟨rfl, ?_⟩⟩
  · have hhead : ((s.pcpPush c p).pcp c).head = some p := by simp [pcpPush, pcpLink]
    have hmod : ((s.pcp c).count + 1) % 4294967296 - 1 = (s.pcp c).count := by omega
    rw [pcpDrain, hhead]
    simp [pcpPush, pcpLink, setPage, setPcp, hmod]
  · change (q.setPagePcp.clearPagePcp.pageReserved || q.setPagePcp.clearPagePcp.pageBuddy ||
      q.setPagePcp.clearPagePcp.pagePcp) = _
    simp

theorem pcpPush_changes : ¬ Unchanged s (s.pcpPush c p) := by
  intro hu
  have := congrArg (fun pcp => (pcp c).count) hu.pcp
  simp [pcpPush, pcpLink] at this
  omega

/-- **`free_pages` of a page that is not out** changes nothing exactly when the order of the page
is not 0: a single page is put on the per-CPU list whatever its flags are. -/
theorem freePages_idle (h : Inv pm managed s lists [] out) (hs : s.Settled managed)
    (hc : c < maxCpus) (hp : s.Idle p) :
    Unchanged s (freePages pm s c (some p)) ↔ (s.memMap p).order ≠ 0 := by
  constructor
  · intro hu h0
    have hmem : p ∈ managed := by
      by_contra hm
      rw [hs.2 p hm] at h0
      cases h0
    have hcount : (s.pcp c).count < 2 ^ 32 := by
      rw [h.count c hc]
      exact lt_of_le_of_lt (le_add_right _ _) (h.length_lt hc)
    rw [freePages, if_neg (not_not.2 h0)] at hu
    dsimp only at hu
    split_ifs at hu with hhigh
    · cases hn : ((s.pcpPush c p).pcp c).batch with
      | zero =>
        rw [hn] at hu
        exact pcpPush_changes hu
      | succ n =>
        have hlt : (s.pcp c).count + 1 < 2 ^ 32 := by
          simp [pcpPush, pcpLink] at hhigh
          omega
        obtain ⟨f, he, hf⟩ := @pcpDrain_push pm s p c n hlt
        rw [hn, he] at hu
        rcases @pcpDrain_changes pm c n (buddyFreeLocked pm (s.setPage p f) p) with hsame | ⟨hhead, hless⟩
        · rw [hsame] at hu
          refine @buddyFreeLocked_changes pm (s.setPage p f) p ?_ ?_ ?_
            (congrArg (fun a => (a 0).nrFree) hu.freeArea)
          · rw [setPage_self]
            exact (hf _).1
          · rw [setPage_self, (hf _).2, h.reserved p hmem]
          · intro b hb hfree
            obtain ⟨rfl, hhas⟩ := getBuddyPage_eq_some.1 hb
            rw [isFreeBuddy, setPage_ne (flip_ne p 0)] at hfree
            rw [setPage_freeArea, h.nrFree 0 (by decide)]
            exact List.length_pos_of_mem ((isFreeBuddy_iff h (by decide) hhas).1 hfree)
        · rw [hu.pcp, buddyFreeLocked_pcp, setPage_pcp, h.count c hc] at hless
          rw [buddyFreeLocked_pcp, setPage_pcp, Ne, (h.linked c hc).none_iff,
            ← List.length_eq_zero_iff] at hhead
          omega
    · exact pcpPush_changes hu
  · intro h0
    have hsame : freePages pm s c (some p) = s := by
      rw [freePages, if_pos h0, buddyFreeLocked]
      split
      · rfl
      · refine if_pos ?_
        rcases hp with hr | ⟨k, hk, hm⟩ | ⟨d, hd, l, hl, hm⟩
        · simp [hr]
        · simp [(h.buddyFlag p (h.has p (h.free_mem hk hm))).2 ⟨k, hk, hm⟩]
        · rw [hl.unique (h.linked d hd)] at hm
          simp [(h.pcpFlag p (h.has p (h.pcp_mem hd hm))).2 ⟨d, hd, hm⟩]
    rw [hsame]
    exact ⟨rfl, rfl, fun _ _ _ => id, fun _ => rfl⟩

end Idle

/-- **A page is freed twice.** In every state that is reached, `free_pages` of a page that is reserved
or free leaves the free areas, the per-CPU lists and the flags alone exactly when the page's order is
not 0. -/
theorem boot_run_free_idle (hasc : (managedPfns mb).Pairwise (· < ·))
    (hfit : (physmemInit mb kernel memMap).1.Fits)
    {s : Buddy} (hboot : boot mb kernel memMap = some s) {w : World}
    (hrun : ReflTransGen (Step (physmemInit mb kernel memMap).1) ⟨s, [], []⟩ w)
    {c p : Nat} (hc : c < maxCpus) (hp : w.buddy.Idle p) :
    Unchanged w.buddy (freePages (physmemInit mb kernel memMap).1 w.buddy c (some p)) ↔
      (w.buddy.memMap p).order ≠ 0 := by
  obtain ⟨s', he, hinv, hset⟩ := boot_inv hasc hfit (buddyInit_has hboot)
  cases hboot.symm.trans he
  obtain ⟨⟨lists, hw⟩, hset'⟩ := run_inv ⟨_, hinv⟩ hrun
  exact freePages_idle hw (hset' hset) hc hp

def onePage : Memblock where
  memory := ⟨0x6000, [⟨0x80000000, 0x6000, 0⟩]⟩
  reserved := ⟨0x5000, [⟨0x80000000, 0x5000, 0⟩]⟩

theorem onePage_free : ∃ s, bootSmall onePage = some s ∧
      Inv ⟨0x80000, 0x80006⟩ (managedPfns onePage : List Nat) s (fun _ => []) [] [] ∧
      s.Settled (managedPfns onePage : List Nat) ∧ s.Idle 0x80005 ∧
      (s.memMap 0x80005).order = 0 := by
  obtain ⟨s, he, hinv, hset⟩ := @boot_inv onePage ⟨0x80000000, 0x4000, 0⟩ ⟨0x80004000, 0x1000, 0⟩
    (by decide) (by unfold PhysMem.Fits; decide) (by decide)
  have hlist : (bootSmall onePage).map
      (fun s => (s.freeArea 0).freeList) = some [0x80005] := by decide +kernel
  rw [bootSmall, he, Option.map_some] at hlist
  have hmem : 0x80005 ∈ (s.freeArea 0).freeList := by
    rw [Option.some.inj hlist]
    exact List.mem_singleton_self _
  exact ⟨s, he, hinv, hset, .inr (.inl ⟨0, by decide, hmem⟩), hinv.freeOrder 0 (by decide) _ hmem⟩

theorem free_onePage : ∃ s, bootSmall onePage = some s ∧ s.Idle 0x80005 ∧
      ¬ Unchanged s (freePages ⟨0x80000, 0x80006⟩ s 0 (some 0x80005)) := by
  obtain ⟨s, he, hi, hs, hp, h0⟩ := onePage_free
  exact ⟨s, he, hp, fun hu => (freePages_idle hi hs (by decide) hp).1 hu h0⟩

theorem boot_run_free_idle_onePage : ∃ s, bootSmall onePage = some s ∧ s.Idle 0x80005 ∧
      (Unchanged s (freePages ⟨0x80000, 0x80006⟩ s 0 (some 0x80005)) ↔
        (s.memMap 0x80005).order ≠ 0) := by
  obtain ⟨s, he, -, -, hp, -⟩ := onePage_free
  exact ⟨s, he, hp, boot_run_free_idle (by decide) (by unfold PhysMem.Fits; decide) he .refl
    (by decide) hp⟩

/-- **Free memory is found.** In every state that is reached, a block is given out exactly when an
aligned run of its size is free, whatever free blocks it is spread over. -/
theorem boot_run_alloc_iff (hasc : (managedPfns mb).Pairwise (· < ·))
    (hfit : (physmemInit mb kernel memMap).1.Fits) {s : Buddy} (hboot : boot mb kernel memMap = some s)
    {w : World} (hrun : ReflTransGen (Step (physmemInit mb kernel memMap).1) ⟨s, [], []⟩ w)
    {k : Nat} (hk : k < maxOrder) :
    (∃ p s', buddyAllocLocked (physmemInit mb kernel memMap).1 w.buddy k = some (some p, s')) ↔
      ∃ p, 2 ^ k ∣ p ∧ (Block.mk p k).span ⊆ freeSpan w.buddy.freeArea := by
  obtain ⟨s', he, hinv, hset⟩ := boot_inv hasc hfit (buddyInit_has hboot)
  cases hboot.symm.trans he
  obtain ⟨⟨lists, h⟩, hset'⟩ := run_inv ⟨_, hinv⟩ hrun
  cases hf : w.buddy.findOrder k with
  | none =>
    refine iff_of_false (by simp [buddyAllocLocked, hf, hk.not_ge]) ?_
    rintro ⟨p, hp, hall⟩
    obtain ⟨j, hj, hkj, b, hb, -⟩ := free_run h (hset' hset).1 hk hp hall
    have hnone := List.find?_eq_none.1 hf j (List.mem_range'_1.2 ⟨hkj, by omega⟩)
    rw [h.nrFree j hj, decide_eq_true_eq] at hnone
    exact hnone (List.length_pos_of_mem hb)
  | some j =>
    obtain ⟨hkj, hj, hne, -⟩ := findOrder_spec h hf
    obtain ⟨q, hq⟩ := List.exists_mem_of_ne_nil _ hne
    refine iff_of_true ?_ ⟨q, (pow_dvd_pow 2 hkj).trans (h.aligned j hj q hq), fun x hx => ?_⟩
    · obtain ⟨r, s', he, -⟩ := buddyAllocLocked_spec h k
      cases r with
      | some p => exact ⟨p, s', he⟩
      | none => simp [buddyAllocLocked, hf, hk.not_ge, Option.bind_eq_some_iff] at he
    · obtain ⟨hle, hlt⟩ := Block.mem_span.1 hx
      have hpow := Nat.pow_le_pow_right two_pos hkj
      have hfree : (Place.free j q).Holds w lists x :=
        ⟨hj, hq, hle, hlt.trans_le (Nat.add_le_add_left hpow q)⟩
      exact holds_free hfree

/-- The eight pages at 0x80008 are given out. -/
theorem boot_run_alloc_smallMap : ∃ s, bootSmall smallMap = some s ∧
      (∃ p s', buddyAllocLocked ⟨0x80000, 0x80010⟩ s 3 = some (some p, s')) ∧
      ∃ p, 2 ^ 3 ∣ p ∧ (Block.mk p 3).span ⊆ freeSpan s.freeArea := by
  have halloc : ((bootSmall smallMap).bind
      (buddyAllocLocked ⟨0x80000, 0x80010⟩ · 3)).map Prod.fst = some (some 0x80008) := by
    decide +kernel
  obtain ⟨⟨r, s'⟩, hbind, hr⟩ := Option.map_eq_some_iff.1 halloc
  cases hr
  obtain ⟨s, he, hs'⟩ := Option.bind_eq_some_iff.1 hbind
  exact ⟨s, he, ⟨_, s', hs'⟩, (boot_run_alloc_iff (by decide) (by unfold PhysMem.Fits; decide) he .refl
    (by decide)).1 ⟨_, s', hs'⟩⟩

end ZzzOs.Mm.Buddy
