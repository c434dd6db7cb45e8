import ZzzOs.Lib.Update
import ZzzOs.Mm.Buddy.Invariant

/-!
# Moves between the allocator's places

Each lemma moves one block between a free list, a per-CPU list, the hands of the running
function and the client, and carries the invariant along.
-/

namespace ZzzOs.Mm.Buddy

open Nat Function Lib List

/-! ## What the elementary writes change -/

variable {f : Page → Page} {a a' : Nat → FreeArea}

section Writes

variable (s : Buddy) (p k c : Nat)

@[simp] theorem setPage_freeArea (f : Page → Page) : (s.setPage p f).freeArea = s.freeArea := rfl
@[simp] theorem setPage_pcp (f : Page → Page) : (s.setPage p f).pcp = s.pcp := rfl
@[simp] theorem setPage_self (f : Page → Page) : (s.setPage p f).memMap p = f (s.memMap p) :=
  update_self ..
@[simp] theorem setPcp_freeArea (f : PerCpuPages → PerCpuPages) :
    (s.setPcp c f).freeArea = s.freeArea := rfl
@[simp] theorem setPcp_memMap (f : PerCpuPages → PerCpuPages) :
    (s.setPcp c f).memMap = s.memMap := rfl
@[simp] theorem setPcp_self (f : PerCpuPages → PerCpuPages) : (s.setPcp c f).pcp c = f (s.pcp c) :=
  update_self ..
@[simp] theorem removeFromFreeArea_pcp : (s.removeFromFreeArea p k).pcp = s.pcp := rfl
@[simp] theorem addToFreeArea_self :
    (s.addToFreeArea p k).memMap p = (s.memMap p).setPageBuddy := update_self ..
@[simp] theorem removeFromFreeArea_self :
    (s.removeFromFreeArea p k).memMap p = (s.memMap p).clearPageBuddy := update_self ..

variable {s p k c} {q d : Nat}

theorem setPage_ne (h : q ≠ p) : (s.setPage p f).memMap q = s.memMap q :=
  update_of_ne h ..

theorem setPcp_ne {f : PerCpuPages → PerCpuPages} (h : d ≠ c) : (s.setPcp c f).pcp d = s.pcp d :=
  update_of_ne h ..

theorem addToFreeArea_ne (h : q ≠ p) : (s.addToFreeArea p k).memMap q = s.memMap q :=
  update_of_ne h ..

theorem removeFromFreeArea_ne (h : q ≠ p) : (s.removeFromFreeArea p k).memMap q = s.memMap q :=
  update_of_ne h ..

theorem addToFreeArea_area (k' : Nat) : (s.addToFreeArea p k).freeArea k' =
      if k' = k then ⟨(s.freeArea k).freeList ++ [p], (s.freeArea k).nrFree + 1⟩
      else s.freeArea k' :=
  update_apply ..

end Writes

theorem freeSpan_congr
    (h : ∀ k < maxOrder, (a k).freeList = (a' k).freeList) : freeSpan a = freeSpan a' :=
  Finset.sum_congr rfl fun k hk => by rw [h k (Finset.mem_range.1 hk)]

theorem freeSpan_update {k : Nat} (hk : k < maxOrder) (v : FreeArea) :
    freeSpan (update a k v) + listSpan k (a k).freeList = freeSpan a + listSpan k v.freeList := by
  have h := sum_update_add (Finset.mem_range.2 hk) (fun k area => listSpan k area.freeList) a v
  simpa only [freeSpan] using h

theorem pcpSpan_update (lists : Nat → List Nat) {c : Nat} (hc : c < maxCpus) (v : List Nat) :
    pcpSpan (update lists c v) + listSpan 0 (lists c) = pcpSpan lists + listSpan 0 v := by
  have h := sum_update_add (Finset.mem_range.2 hc) (fun _ l => listSpan 0 l) lists v
  simpa only [pcpSpan] using h

namespace Inv

variable {pm : PhysMem} {managed : Multiset Nat} {s s' : Buddy} {lists lists' : Nat → List Nat}
  {held out held' : List Block} {b : Block} {p k c j : Nat}

theorem base_mem (h : Inv pm managed s lists (b :: held) out) : b.base ∈ managed :=
  h.block_mem mem_cons_self b.base_mem_span

/-! ## Writes to one descriptor -/

section

variable (h : Inv pm managed s lists held out)

include h

/-- One descriptor is written, and its frame may change its place: what remains to be shown is that
the flags and the order of this descriptor fit its new place. -/
theorem write (hmap : ∀ q, q ≠ p → s'.memMap q = s.memMap q) (hfree : ∀ k < maxOrder, ∀ q, q ≠ p →
      (q ∈ (s'.freeArea k).freeList ↔ q ∈ (s.freeArea k).freeList))
    (hpcp : ∀ c < maxCpus, ∀ q, q ≠ p → (q ∈ lists' c ↔ q ∈ lists c))
    (hout : ∀ b ∈ out, b.base ≠ p)
    (hbuddy : (s'.memMap p).pageBuddy = true ↔ ∃ k < maxOrder, p ∈ (s'.freeArea k).freeList)
    (hpcpFlag : (s'.memMap p).pagePcp = true ↔ ∃ c < maxCpus, p ∈ lists' c)
    (hreserved : (s'.memMap p).pageReserved = false)
    (horder : ∀ k < maxOrder, p ∈ (s'.freeArea k).freeList → (s'.memMap p).order = k)
    (hzero : ∀ c < maxCpus, p ∈ lists' c → (s'.memMap p).order = 0)
    (hpages : s'.managedPages = s.managedPages)
    (hcover : freeSpan s'.freeArea + pcpSpan lists' + (blocksSpan held' + blocksSpan out) = managed)
    (haligned : ∀ k < maxOrder, ∀ q ∈ (s'.freeArea k).freeList, 2 ^ k ∣ q)
    (hblock : ∀ b ∈ held' ++ out, b.order < maxOrder ∧ b.Aligned)
    (hnr : ∀ k < maxOrder, (s'.freeArea k).nrFree = (s'.freeArea k).freeList.length)
    (hlinked : ∀ c < maxCpus, Linked (fun p => (s'.memMap p).next) (s'.pcp c).head (lists' c))
    (hcount : ∀ c < maxCpus, (s'.pcp c).count = (lists' c).length) :
    Inv pm managed s' lists' held' out := by
  refine { h with
    managedPages := hpages.trans h.managedPages, cover := hcover, aligned := haligned
    blockAligned := hblock, nrFree := hnr, buddyFlag := fun q hq => ?_, pcpFlag := fun q hq => ?_
    reserved := fun q hq => ?_, freeOrder := fun k hk q hq => ?_, pcpOrder := fun c hc q hq => ?_
    outOrder := fun b hb => hmap _ (hout b hb) ▸ h.outOrder b hb, linked := hlinked, count := hcount }
  all_goals by_cases e : q = p
  · exact e ▸ hbuddy
  · rw [hmap q e, h.buddyFlag q hq]
    exact exists_congr fun k => and_congr_right fun hk => (hfree k hk q e).symm
  · exact e ▸ hpcpFlag
  · rw [hmap q e, h.pcpFlag q hq]
    exact exists_congr fun c => and_congr_right fun hc => (hpcp c hc q e).symm
  · exact e ▸ hreserved
  · exact hmap q e ▸ h.reserved q hq
  · subst e; exact horder k hk hq
  · exact hmap q e ▸ h.freeOrder k hk q ((hfree k hk q e).1 hq)
  · subst e; exact hzero c hc hq
  · exact hmap q e ▸ h.pcpOrder c hc q ((hpcp c hc q e).1 hq)

/-- A descriptor inside a held block may be written as long as its flags stay clear. -/
theorem setPage (hb : b ∈ held) (hp : p ∈ b.span) (h1 : (f (s.memMap p)).pageBuddy = false)
    (h2 : (f (s.memMap p)).pagePcp = false) (h3 : (f (s.memMap p)).pageReserved = false) :
    Inv pm managed (s.setPage p f) lists held out := by
  obtain ⟨hnf, hnc⟩ := h.block_not_listed (mem_append.2 (.inl hb)) hp
  refine h.write (fun q e => setPage_ne e) (fun _ _ _ _ => Iff.rfl) (fun _ _ _ _ => Iff.rfl)
    (fun b' hb' e => h.held_not_out hb hp hb' (e ▸ b'.base_mem_span)) ?_ ?_ ?_
    (fun k hk hm => absurd hm (hnf k hk)) (fun c hc hm => absurd hm (hnc c hc)) rfl h.cover h.aligned
    h.blockAligned h.nrFree (fun c hc => (h.linked c hc).congr fun q hq => ?_) h.count
  · rw [setPage_self, h1]
    exact iff_of_false Bool.false_ne_true fun ⟨k, hk, hm⟩ => hnf k hk hm
  · rw [setPage_self, h2]
    exact iff_of_false Bool.false_ne_true fun ⟨c, hc, hm⟩ => hnc c hc hm
  · rw [setPage_self, h3]
  · rw [setPage_ne (by rintro rfl; exact hnc c hc hq)]

/-! ## Free lists -/

theorem removeFromFreeArea_area (hk : k < maxOrder)
    (hp : p ∈ (s.freeArea k).freeList) (hj : j < maxOrder) :
    (s.removeFromFreeArea p k).freeArea j =
      if j = k then ⟨(s.freeArea k).freeList.erase p, (s.freeArea k).nrFree - 1⟩
      else s.freeArea j := by
  by_cases e : j = k
  · subst e
    rw [if_pos rfl]
    exact update_self ..
  · have hnot : p ∉ (s.freeArea j).freeList := fun hm => e (h.free_unique hk hj hp hm)
    rw [if_neg e]
    refine (update_of_ne e ..).trans ?_
    simp only [listDel, erase_of_not_mem hnot]

theorem take (hk : k < maxOrder) (hp : p ∈ (s.freeArea k).freeList) :
    Inv pm managed (s.removeFromFreeArea p k) lists (⟨p, k⟩ :: held) out ∧
      ((s.removeFromFreeArea p k).memMap p).order = k := by
  have harea := fun j (hj : j < maxOrder) => h.removeFromFreeArea_area hk hp hj
  have hnc : ∀ c < maxCpus, p ∉ lists c := fun c hc hm => h.not_free_of_pcp hc hm hk hp
  have hord := h.freeOrder k hk p hp
  have hmem : ∀ j < maxOrder, ∀ q, q ∈ ((s.removeFromFreeArea p k).freeArea j).freeList ↔
      q ≠ p ∧ q ∈ (s.freeArea j).freeList := by
    intro j hj q
    rw [harea j hj]
    split_ifs with e
    · subst e
      exact (h.freeList_nodup hj).mem_erase_iff
    · refine ⟨fun hq => ⟨?_, hq⟩, fun hq => hq.2⟩
      rintro rfl
      exact e (h.free_unique hk hj hp hq)
  have hnot : ∀ j < maxOrder, p ∉ ((s.removeFromFreeArea p k).freeArea j).freeList :=
    fun j hj hm => ((hmem j hj p).1 hm).1 rfl
  refine ⟨h.write (fun q e => removeFromFreeArea_ne e)
    (fun j hj q e => (hmem j hj q).trans (and_iff_right e)) (fun _ _ _ _ => Iff.rfl)
    (fun b' hb' e => (h.block_not_listed (mem_append.2 (.inr hb')) b'.base_mem_span).1 k hk (e ▸ hp))
    ?_ ?_ ?_ (fun j hj hm => absurd hm (hnot j hj)) (fun c hc hm => absurd hm (hnc c hc)) rfl ?_
    (fun j hj q hq => h.aligned j hj q ((hmem j hj q).1 hq).2) ?_ ?_
    (fun c hc => (h.linked c hc).congr fun q hq => ?_) h.count, by simpa using hord⟩
  · rw [removeFromFreeArea_self, Page.pageBuddy_clearPageBuddy]
    exact iff_of_false Bool.false_ne_true fun ⟨j, hj, hm⟩ => hnot j hj hm
  · rw [removeFromFreeArea_self, Page.pagePcp_clearPageBuddy]
    exact h.pcpFlag p (h.has p (h.free_mem hk hp))
  · rw [removeFromFreeArea_self, Page.pageReserved_clearPageBuddy]
    exact h.reserved p (h.free_mem hk hp)
  · have e : freeSpan (s.removeFromFreeArea p k).freeArea + (Block.mk p k).span =
        freeSpan s.freeArea := by
      have hu := freeSpan_update (a := s.freeArea) hk
        ⟨(s.freeArea k).freeList.erase p, (s.freeArea k).nrFree - 1⟩
      rw [← listSpan_erase hp, ← add_assoc] at hu
      rw [← add_right_cancel hu]
      congr 1
      refine freeSpan_congr fun j hj => ?_
      rw [harea j hj, update_apply]
    rw [← h.cover, ← e, blocksSpan_cons]
    abel
  · exact forall_mem_cons.2 ⟨⟨hk, h.aligned k hk p hp⟩, h.blockAligned⟩
  · intro j hj
    rw [harea j hj]
    split_ifs with e
    · subst e; rw [length_erase_of_mem hp, h.nrFree j hj]
    · exact h.nrFree j hj
  · rw [removeFromFreeArea_ne (by rintro rfl; exact hnc c hc hq)]

end

/-- A held block whose descriptor has its order goes to the free list. -/
theorem give (h : Inv pm managed s lists (⟨p, k⟩ :: held) out) (hord : (s.memMap p).order = k) :
    Inv pm managed (s.addToFreeArea p k) lists held out := by
  have hb : (⟨p, k⟩ : Block) ∈ ⟨p, k⟩ :: held ++ out := mem_cons_self
  have hps := Block.base_mem_span ⟨p, k⟩
  obtain ⟨hk, hal⟩ := h.blockAligned _ hb
  obtain ⟨hnf, hnc⟩ := h.block_not_listed hb hps
  have hmem : ∀ j q, q ∈ ((s.addToFreeArea p k).freeArea j).freeList ↔
      q ∈ (s.freeArea j).freeList ∨ (j = k ∧ q = p) := by
    intro j q
    rw [addToFreeArea_area]
    split_ifs with e
    · subst e; simp
    · simp [e]
  refine h.write (fun q e => addToFreeArea_ne e) (fun j _ q e => ?_) (fun _ _ _ _ => Iff.rfl)
    (fun b' hb' e => h.held_not_out mem_cons_self hps hb' (e ▸ b'.base_mem_span)) ?_ ?_ ?_
    (fun j hj hm => ?_) (fun c hc hm => absurd hm (hnc c hc)) rfl ?_ (fun j hj q hq => ?_)
    (fun b' hb' => h.blockAligned b' (mem_cons_of_mem _ hb')) (fun j hj => ?_)
    (fun c hc => (h.linked c hc).congr fun q hq => ?_) h.count
  · simp [hmem, e]
  · rw [addToFreeArea_self, Page.pageBuddy_setPageBuddy]
    exact ⟨fun _ => ⟨k, hk, (hmem k p).2 (.inr ⟨rfl, rfl⟩)⟩, fun _ => rfl⟩
  · rw [addToFreeArea_self, Page.pagePcp_setPageBuddy]
    exact iff_of_false Bool.false_ne_true fun ⟨c, hc, hm⟩ => hnc c hc hm
  · rw [addToFreeArea_self, Page.pageReserved_setPageBuddy]
    exact h.reserved p (h.block_mem hb hps)
  · rcases (hmem j p).1 hm with hm | ⟨rfl, -⟩
    · exact absurd hm (hnf j hj)
    · rw [addToFreeArea_self, Page.order_setPageBuddy, hord]
  · have e : freeSpan (s.addToFreeArea p k).freeArea =
        freeSpan s.freeArea + (Block.mk p k).span := by
      have hu := freeSpan_update (a := s.freeArea) hk
        ⟨(s.freeArea k).freeList ++ [p], (s.freeArea k).nrFree + 1⟩
      simp only [listSpan_append, listSpan_cons, listSpan_nil, add_zero] at hu
      rw [add_comm (listSpan k _), ← add_assoc] at hu
      exact add_right_cancel hu
    rw [← h.cover, e, blocksSpan_cons]
    abel
  · rcases (hmem j q).1 hq with hq | ⟨rfl, rfl⟩
    · exact h.aligned j hj q hq
    · exact hal
  · rw [addToFreeArea_area]
    split_ifs with e
    · subst e; simp [h.nrFree j hj]
    · exact h.nrFree j hj
  · rw [addToFreeArea_ne (by rintro rfl; exact hnc c hc hq)]

/-! ## Splitting and joining what is held -/

/-- The held blocks may be exchanged for others that hold the same frames. -/
theorem reshape (h : Inv pm managed s lists held out) (hspan : blocksSpan held' = blocksSpan held)
    (hal : ∀ b ∈ held', b.order < maxOrder ∧ b.Aligned) : Inv pm managed s lists held' out := by
  refine { h with cover := ?_, blockAligned := ?_ }
  · rw [hspan]; exact h.cover
  · exact forall_mem_append.2 ⟨hal, (forall_mem_append.1 h.blockAligned).2⟩

theorem split (h : Inv pm managed s lists (⟨p, k + 1⟩ :: held) out) :
    Inv pm managed s lists (⟨p + 2 ^ k, k⟩ :: ⟨p, k⟩ :: held) out := by
  obtain ⟨⟨hk, hal⟩, hheld⟩ := forall_mem_cons.1 (forall_mem_append.1 h.blockAligned).1
  have hdvd : 2 ^ k ∣ p := (pow_dvd_pow 2 (Nat.le_succ k)).trans hal
  refine h.reshape ?_ ?_
  · simp only [blocksSpan_cons, Block.span_split]
    abel
  · have hk := Nat.lt_of_succ_lt hk
    exact forall_mem_cons.2 ⟨⟨hk, Nat.dvd_add hdvd (Nat.dvd_refl _)⟩,
      forall_mem_cons.2 ⟨⟨hk, hdvd⟩, hheld⟩⟩

theorem join (h : Inv pm managed s lists (⟨p ^^^ 2 ^ k, k⟩ :: ⟨p, k⟩ :: held) out)
    (hk : k + 1 < maxOrder) :
    Inv pm managed s lists (⟨min p (p ^^^ 2 ^ k), k + 1⟩ :: held) out := by
  obtain ⟨-, ⟨-, hal⟩, hheld⟩ := by simpa using (forall_mem_append.1 h.blockAligned).1
  obtain ⟨hal', hspan⟩ := join_flip hal
  refine h.reshape ?_ ?_
  · simp only [blocksSpan_cons, hspan]
    abel
  · exact forall_mem_cons.2 ⟨⟨hk, hal'⟩, hheld⟩

/-! ## The client -/

theorem handOut (h : Inv pm managed s lists (b :: held) out)
    (hord : (s.memMap b.base).order = b.order) : Inv pm managed s lists held (b :: out) := by
  refine { h with cover := ?_, blockAligned := ?_, outOrder := ?_ }
  · rw [← h.cover, blocksSpan_cons, blocksSpan_cons]
    abel
  · intro b' hb'
    refine h.blockAligned b' ?_
    simp only [mem_append, mem_cons] at hb' ⊢
    tauto
  · exact forall_mem_cons.2 ⟨hord, h.outOrder⟩

theorem handIn (h : Inv pm managed s lists held out) (hb : b ∈ out) :
    Inv pm managed s lists (b :: held) (out.erase b) := by
  refine { h with cover := ?_, blockAligned := ?_, outOrder := ?_ }
  · have e : b.span + blocksSpan (out.erase b) = blocksSpan out := List.sum_map_erase _ hb
    rw [← h.cover, blocksSpan_cons, ← e]
    abel
  · obtain ⟨hheld, hout⟩ := forall_mem_append.1 h.blockAligned
    exact forall_mem_append.2 ⟨forall_mem_cons.2 ⟨hout b hb, hheld⟩,
      fun b' hb' => hout b' (mem_of_mem_erase hb')⟩
  · exact fun b' hb' => h.outOrder b' (mem_of_mem_erase hb')

/-! ## Per-CPU lists -/

theorem length_lt (h : Inv pm managed s lists held out) (hc : c < maxCpus) :
    (lists c).length + (blocksSpan held).card < 2 ^ 32 := by
  have hle : listSpan 0 (lists c) ≤ pcpSpan lists := by
    unfold pcpSpan
    rw [← Finset.add_sum_erase _ (fun c => listSpan 0 (lists c)) (Finset.mem_range.2 hc)]
    exact Multiset.le_add_right _ _
  have h1 := Multiset.card_le_card hle
  rw [listSpan_card, pow_zero, mul_one] at h1
  have h2 := congrArg Multiset.card h.cover
  simp only [Multiset.card_add] at h2
  have := h.small
  omega

theorem link (h : Inv pm managed s lists (⟨p, 0⟩ :: held) out) (hc : c < maxCpus)
    (h1 : (f (s.memMap p)).pageBuddy = false)
    (h2 : (f (s.memMap p)).pagePcp = true)
    (h3 : (f (s.memMap p)).pageReserved = (s.memMap p).pageReserved)
    (h4 : (f (s.memMap p)).order = 0) :
    Inv pm managed ((s.setPage p f).pcpLink c p) (update lists c (p :: lists c)) held
      out := by
  have hb : (⟨p, 0⟩ : Block) ∈ ⟨p, 0⟩ :: held ++ out := mem_cons_self
  have hps := Block.base_mem_span ⟨p, 0⟩
  obtain ⟨hnf, hnc⟩ := h.block_not_listed hb hps
  -- the descriptor of `p` after both writes, and the others
  have hself : ((s.setPage p f).pcpLink c p).memMap p =
      { f (s.memMap p) with next := (s.pcp c).head } := by
    simp [pcpLink]
  have hne : ∀ q, q ≠ p → ((s.setPage p f).pcpLink c p).memMap q = s.memMap q := by
    intro q e
    simp [pcpLink, setPage_ne e]
  have hpcp : ∀ d, d ≠ c → ((s.setPage p f).pcpLink c p).pcp d = s.pcp d := by
    intro d ed
    simp [pcpLink, setPcp_ne ed]
  have hlink : ∀ d < maxCpus,
      Linked (fun q => (((s.setPage p f).pcpLink c p).memMap q).next) (s.pcp d).head (lists d) :=
    fun d hd => (h.linked d hd).congr fun q hq => by rw [hne q (by rintro rfl; exact hnc d hd hq)]
  have hlen := h.length_lt hc
  simp only [blocksSpan_cons, Multiset.card_add, Block.card_span, pow_zero] at hlen
  refine h.write hne (fun _ _ _ _ => Iff.rfl) (fun d hd q e => ?_)
    (fun b' hb' e => h.held_not_out mem_cons_self hps hb' (e ▸ b'.base_mem_span)) ?_ ?_ ?_
    (fun j hj hm => absurd hm (hnf j hj)) (fun _ _ _ => by rw [hself]; exact h4) rfl ?_ h.aligned
    (fun b' hb' => h.blockAligned b' (mem_cons_of_mem _ hb')) h.nrFree (fun d hd => ?_) fun d hd => ?_
  · refine update_cases (fun ed => ?_) fun _ => Iff.rfl
    rw [mem_cons, or_iff_right e, ed]
  · rw [hself]
    exact ⟨fun hflag => absurd (h1.symm.trans hflag) Bool.false_ne_true, fun ⟨k, hk, hm⟩ => absurd hm (hnf k hk)⟩
  · rw [hself]
    exact ⟨fun _ => ⟨c, hc, by rw [update_self]; exact mem_cons_self⟩, fun _ => h2⟩
  · rw [hself]
    exact h3.trans (h.reserved p (h.block_mem hb hps))
  · have e := pcpSpan_update lists hc (p :: lists c)
    rw [listSpan_cons, ← add_assoc] at e
    rw [add_right_cancel e, ← h.cover, blocksSpan_cons]
    change freeSpan s.freeArea + _ + _ = _
    abel
  · by_cases ed : d = c
    · subst ed
      have hhead : (((s.setPage p f).pcpLink d p).pcp d).head = some p := by simp [pcpLink]
      rw [update_self, hhead]
      refine ⟨rfl, ?_⟩
      beta_reduce
      rw [hself]
      exact hlink d hd
    · rw [update_of_ne ed, hpcp d ed]
      exact hlink d hd
  · by_cases ed : d = c
    · subst ed
      have hcount : (((s.setPage p f).pcpLink d p).pcp d).count = ((s.pcp d).count + 1) % 2 ^ 32 := by
        simp [pcpLink]
      rw [update_self, hcount, h.count d hd, length_cons, mod_eq_of_lt (by omega)]
    · rw [update_of_ne ed, hpcp d ed]; exact h.count d hd

theorem unlink (h : Inv pm managed s lists held out) (hc : c < maxCpus) {l : List Nat}
    (hl : lists c = p :: l) (h1 : (f (s.memMap p)).pageBuddy = (s.memMap p).pageBuddy)
    (h2 : (f (s.memMap p)).pagePcp = false)
    (h3 : (f (s.memMap p)).pageReserved = (s.memMap p).pageReserved) :
    Inv pm managed
      ((s.setPcp c fun pc => { pc with head := (s.memMap p).next, count := pc.count - 1 }).setPage p f)
      (update lists c l) (⟨p, 0⟩ :: held) out := by
  have hpc : p ∈ lists c := by rw [hl]; exact mem_cons_self
  have hnd : p ∉ l := by
    have := (h.linked c hc).nodup
    rw [hl] at this
    exact (nodup_cons.1 this).1
  have hnf := fun j (hj : j < maxOrder) => h.not_free_of_pcp hc hpc hj
  have hnd' : ∀ d < maxCpus, p ∉ update lists c l d :=
    fun d hd => update_cases (fun _ => hnd) fun ed hm => ed (h.pcp_unique hc hd hpc hm)
  have hmem : ∀ d < maxCpus, ∀ q, q ≠ p → (q ∈ update lists c l d ↔ q ∈ lists d) := by
    intro d hd q e
    refine update_cases (fun ed => ?_) fun _ => Iff.rfl
    simp [ed, hl, e]
  have hlink : Linked (fun p => (s.memMap p).next) (s.memMap p).next l := by
    have := h.linked c hc
    rw [hl] at this
    exact this.2
  refine h.write (fun q e => setPage_ne e) (fun _ _ _ _ => Iff.rfl) hmem
    (fun b' hb' e => (h.block_not_listed (mem_append.2 (.inr hb')) b'.base_mem_span).2 c hc (e ▸ hpc))
    ?_ ?_ ?_ (fun j hj hm => absurd hm (hnf j hj)) (fun d hd hm => absurd hm (hnd' d hd)) rfl ?_
    h.aligned (fun b' hb' => ?_) h.nrFree (fun d hd => ?_) fun d hd => ?_
  · rw [setPage_self]
    exact (Bool.eq_iff_iff.1 h1).trans (h.buddyFlag p (h.has p (h.pcp_mem hc hpc)))
  · rw [setPage_self, setPcp_memMap, h2]
    exact iff_of_false Bool.false_ne_true fun ⟨d, hd, hm⟩ => hnd' d hd hm
  · rw [setPage_self]
    exact h3.trans (h.reserved p (h.pcp_mem hc hpc))
  · have e := pcpSpan_update lists hc l
    rw [hl, listSpan_cons, ← add_assoc] at e
    rw [← h.cover, ← add_right_cancel e, blocksSpan_cons]
    simp only [setPage_freeArea, setPcp_freeArea]
    abel
  · exact forall_mem_cons.2 ⟨⟨succ_pos _, one_dvd _⟩, h.blockAligned⟩ b' hb'
  · by_cases ed : d = c
    · subst ed
      rw [update_self, setPage_pcp, setPcp_self]
      exact hlink.congr fun q hq => by rw [setPage_ne (by rintro rfl; exact hnd hq), setPcp_memMap]
    · rw [update_of_ne ed, setPage_pcp, setPcp_ne ed]
      refine (h.linked d hd).congr fun q hq => ?_
      have e : q ≠ p := by rintro rfl; exact ed (h.pcp_unique hc hd hpc hq)
      rw [setPage_ne e, setPcp_memMap]
  · by_cases ed : d = c
    · subst ed
      simp [h.count d hd, hl]
    · rw [update_of_ne ed, setPage_pcp, setPcp_ne ed]
      exact h.count d hd

end Inv

end ZzzOs.Mm.Buddy
