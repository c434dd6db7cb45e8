import ZzzOs.Mm.Buddy.Moves

/-!
# The allocator's functions keep the invariant

One lemma for each function of `mm/buddy.c`, from the moves. Every function returns (no
NULL descriptor and no empty list is used as a page) and leaves the invariant with the
block it took from, or gave back to, its caller.
-/

namespace ZzzOs.Mm.Buddy

open Option Nat List Lib

section Ops

variable {pm : PhysMem} {managed : Multiset Nat} {s s' : Buddy} {lists : Nat → List Nat}
  {held out : List Block} {p k c b : Nat}

theorem getBuddyPage_eq_some : getBuddyPage pm p k = some b ↔ b = p ^^^ 2 ^ k ∧ pm.Has b := by
  unfold getBuddyPage
  rw [one_shiftLeft, pfnToPage_eq_some]
  constructor
  · rintro ⟨rfl, h⟩; exact ⟨rfl, h⟩
  · rintro ⟨rfl, h⟩; exact ⟨rfl, h⟩

/-- A descriptor that passes the buddy test heads a free block of that order. -/
theorem isFreeBuddy_iff (h : Inv pm managed s lists held out) (hk : k < maxOrder)
    (hb : pm.Has b) : s.isFreeBuddy b k = true ↔ b ∈ (s.freeArea k).freeList := by
  simp only [isFreeBuddy, Bool.and_eq_true, beq_iff_eq, h.buddyFlag b hb]
  constructor
  · rintro ⟨⟨j, hj, hm⟩, ho⟩
    rw [h.freeOrder j hj b hm] at ho
    exact ho ▸ hm
  · intro hm
    exact ⟨⟨k, hk, hm⟩, h.freeOrder k hk b hm⟩

/-- No two buddies of one order are both free. -/
def Coalesced (s : Buddy) : Prop :=
  ∀ k, k + 1 < maxOrder → ∀ p ∈ (s.freeArea k).freeList, p ^^^ 2 ^ k ∉ (s.freeArea k).freeList

theorem removeFromFreeArea_freeList (j : Nat) :
    ((s.removeFromFreeArea p k).freeArea j).freeList = (s.freeArea j).freeList.erase p := by
  by_cases h : j = k
  · simp [removeFromFreeArea, listDel, h]
  · simp [removeFromFreeArea, listDel, h]

theorem Coalesced.mono (h : s.Coalesced)
    (hsub : ∀ k, (s'.freeArea k).freeList ⊆ (s.freeArea k).freeList) : s'.Coalesced :=
  fun k hk _ hp hb => h k hk _ (hsub k hp) (hsub k hb)

theorem Coalesced.take (h : s.Coalesced) : (s.removeFromFreeArea p k).Coalesced := by
  refine h.mono fun j => ?_
  rw [removeFromFreeArea_freeList]
  exact erase_subset

theorem Coalesced.give (h : s.Coalesced)
    (hb : k + 1 < maxOrder → p ^^^ 2 ^ k ∉ (s.freeArea k).freeList) :
    (s.addToFreeArea p k).Coalesced := by
  intro j hj q hq hflip
  rw [addToFreeArea_area] at hq hflip
  split_ifs at hq with hjk
  · subst hjk
    simp only [if_true, mem_append, mem_singleton] at hq hflip
    rcases hq with hq | rfl
    · rcases hflip with hflip | hflip
      · exact h j hj q hq hflip
      · rw [← hflip, xor_xor_cancel_right] at hb
        exact hb hj hq
    · exact hflip.elim (hb hj) (flip_ne q j)
  · rw [if_neg hjk] at hflip
    exact h j hj q hq hflip

/-- There is nothing to merge, and the descriptors of the other frames have the order they got
from `physmem_init`. -/
def Settled (managed : Multiset Nat) (s : Buddy) : Prop :=
  s.Coalesced ∧ ∀ q ∉ managed, (s.memMap q).order = 0xFFFF

section

variable (h : s.Settled managed) (hp : p ∈ managed)

include h hp

theorem Settled.take : (s.removeFromFreeArea p k).Settled managed :=
  ⟨h.1.take, fun q hq => by rw [removeFromFreeArea_ne (by grind)]; exact h.2 q hq⟩

theorem Settled.give
    (hb : k + 1 < maxOrder → p ^^^ 2 ^ k ∉ (s.freeArea k).freeList) (f : Page → Page) :
    ((s.setPage p f).addToFreeArea p k).Settled managed := by
  refine ⟨.give h.1 hb, fun q hq => ?_⟩
  rw [addToFreeArea_ne (by grind), setPage_ne (by grind)]
  exact h.2 q hq

/-- A descriptor is written and the free lists stay. -/
theorem Settled.keep
    (hfree : s'.freeArea = s.freeArea) (hmap : ∀ q, q ≠ p → s'.memMap q = s.memMap q) :
    s'.Settled managed :=
  ⟨h.1.mono fun k => by rw [hfree]; exact fun _ => id,
    fun q hq => by rw [hmap q (by grind)]; exact h.2 q hq⟩

end

theorem Inv.clearHead (h : Inv pm managed s lists (⟨p, k⟩ :: held) out) {f : Page → Page}
    (hf : (f (s.memMap p)).flags = 0#32) :
    Inv pm managed (s.setPage p f) lists (⟨p, k⟩ :: held) out := by
  obtain ⟨f1, f2, f3⟩ := Page.flags_zero hf
  exact h.setPage mem_cons_self (Block.base_mem_span ⟨p, k⟩) f1 f2 f3

/-! ## Allocation -/

/-- One round of the split loop: the block in hand goes back as its two halves. -/
theorem split_step (h : Inv pm managed s lists (⟨p, k + 1⟩ :: held) out) :
    getBuddyPage pm p k = some (p + 2 ^ k) ∧ Inv pm managed
        ((((s.setPage (p + 2 ^ k) fun q => { q with order := k, flags := 0, slab := 0 }).addToFreeArea
            (p + 2 ^ k) k).setPage p fun q => { q with order := k, flags := 0, slab := 0 }).addToFreeArea
          p k) lists held out := by
  have hs := h.split
  obtain ⟨-, hal⟩ := h.blockAligned ⟨p, k + 1⟩ mem_cons_self
  constructor
  · rw [getBuddyPage_eq_some, flip_of_dvd hal]
    exact ⟨rfl, hs.has _ hs.base_mem⟩
  · have h1 := hs.clearHead (f := fun q => { q with order := k, flags := 0, slab := 0 }) rfl
    have h2 := h1.give (by rw [setPage_self])
    have h3 := h2.clearHead (f := fun q => { q with order := k, flags := 0, slab := 0 }) rfl
    exact h3.give (by rw [setPage_self])

theorem splitLoop_spec (order : Nat) : ∀ (n : Nat) {s : Buddy},
    Inv pm managed s lists held out → order + n < maxOrder →
    (s.freeArea (order + n)).freeList ≠ [] →
    ∃ s', splitLoop pm order n s = some s' ∧ Inv pm managed s' lists held out ∧
      (s'.freeArea order).freeList ≠ [] ∧ s'.pcp = s.pcp ∧
      ∀ q ∉ managed, (s'.memMap q).order = (s.memMap q).order := by
  intro n
  induction n with
  | zero => intro s h _ hne; exact ⟨s, rfl, h, hne, rfl, fun _ _ => rfl⟩
  | succ n ih =>
    intro s h hlt hne
    obtain ⟨p, l, hl⟩ := exists_cons_of_ne_nil hne
    have hp : p ∈ (s.freeArea (order + (n + 1))).freeList := by rw [hl]; exact mem_cons_self
    have hfirst : s.getFirstPage (order + (n + 1)) = some p := by simp [getFirstPage, hl]
    obtain ⟨ht, -⟩ := h.take hlt hp
    obtain ⟨hbuddy, hs⟩ := split_step (k := order + n) ht
    obtain ⟨s', he, hi, hne', hpcp, hmap⟩ := ih hs (lt_of_succ_lt hlt) (by
      rw [addToFreeArea_area, if_pos rfl]; simp)
    refine ⟨s', ?_, hi, hne', hpcp, fun q hq => ?_⟩
    · rw [splitLoop, hfirst]
      simp only [bind_eq_bind, bind_some, hbuddy]
      exact he
    · have hqp : q ≠ p := by rintro rfl; exact hq (h.free_mem hlt hp)
      have hqb : q ≠ p + 2 ^ (order + n) := by rintro rfl; exact hq ht.split.base_mem
      rw [hmap q hq, addToFreeArea_ne hqp, setPage_ne hqp, addToFreeArea_ne hqb, setPage_ne hqb,
        removeFromFreeArea_ne hqp]

/-- The block in hand has no free buddy: the split leaves one half of it on each list that it
passes, and the other half in hand. -/
theorem splitLoop_coalesced (order : Nat) : ∀ (n : Nat) {s s' : Buddy} {p : Nat},
    (∀ k, order ≤ k → k < order + n → (s.freeArea k).freeList = []) →
    s.getFirstPage (order + n) = some p → (s.removeFromFreeArea p (order + n)).Coalesced →
    splitLoop pm order n s = some s' →
    ∀ q, s'.getFirstPage order = some q → (s'.removeFromFreeArea q order).Coalesced := by
  intro n
  induction n with
  | zero =>
    intro s s' p _ hfirst hs he q hq
    cases he
    cases hfirst.symm.trans hq
    exact hs
  | succ n ih =>
    intro s s' p hempty hfirst hs he
    simp only [splitLoop, hfirst, bind_eq_bind, bind_some] at he
    obtain ⟨b, -, he⟩ := bind_eq_some_iff.1 he
    have hnil : ∀ k, order ≤ k → k < order + (n + 1) →
        ((s.removeFromFreeArea p (order + (n + 1))).freeArea k).freeList = [] := by
      intro k hk hlt
      rw [removeFromFreeArea_freeList, hempty k hk hlt]
      rfl
    have hlast := hnil (order + n) (Nat.le_add_right _ _) (Nat.lt_succ_self _)
    refine ih (p := b) (fun k hk hlt => ?_) ?_ ?_ he
    · simp only [addToFreeArea_area, setPage_freeArea, if_neg (Nat.ne_of_lt hlt)]
      exact hnil k hk (Nat.lt_succ_of_lt hlt)
    · simp [getFirstPage, addToFreeArea_area, hlast]
    · refine (hs.give (p := p) fun _ => by rw [hlast]; exact not_mem_nil).mono fun j => ?_
      rw [removeFromFreeArea_freeList]
      simp only [addToFreeArea_area, setPage_freeArea]
      split
      · simp [hlast]
      · exact erase_subset

theorem findOrder_spec (h : Inv pm managed s lists held out) {order current : Nat}
    (hf : s.findOrder order = some current) :
    order ≤ current ∧ current < maxOrder ∧ (s.freeArea current).freeList ≠ [] ∧
      ∀ k, order ≤ k → k < current → (s.freeArea k).freeList = [] := by
  obtain ⟨hpos, hmem, hbefore⟩ := List.find?_range'_eq_some.1 hf
  rw [mem_range'_1] at hmem
  have hlt : current < maxOrder := by omega
  refine ⟨hmem.1, hlt, fun hnil => ?_, fun k hk hkc => ?_⟩
  · simp [h.nrFree current hlt, hnil] at hpos
  · have := hbefore k hk hkc
    rw [h.nrFree k (hkc.trans hlt)] at this
    simpa using this

theorem buddyAllocLocked_spec (h : Inv pm managed s lists held out) (order : Nat) :
    ∃ r s', buddyAllocLocked pm s order = some (r, s') ∧ s'.pcp = s.pcp ∧ (r = none → s' = s) ∧
      (∀ p, r = some p → Inv pm managed s' lists (⟨p, order⟩ :: held) out ∧
        (s'.memMap p).order = order) ∧ (s.Settled managed → s'.Settled managed) := by
  unfold buddyAllocLocked
  split
  · exact ⟨none, s, rfl, rfl, fun _ => rfl, nofun, id⟩
  · cases hf : s.findOrder order with
    | none => exact ⟨none, s, rfl, rfl, fun _ => rfl, nofun, id⟩
    | some current =>
      obtain ⟨hle, hcur, hne, hempty⟩ := findOrder_spec h hf
      obtain ⟨s', he, hi, hne', hpcp, hmap⟩ := splitLoop_spec order (current - order) h
        (by omega) (by rwa [Nat.add_sub_cancel' hle])
      obtain ⟨p, l, hl⟩ := exists_cons_of_ne_nil hne'
      have hp : p ∈ (s'.freeArea order).freeList := by rw [hl]; exact mem_cons_self
      obtain ⟨ht, ho⟩ := hi.take (by omega) hp
      have hfirst : s'.getFirstPage order = some p := by rw [getFirstPage, hl]; rfl
      refine ⟨some p, s'.removeFromFreeArea p order, ?_, by simpa using hpcp, nofun, ?_, fun hs => ?_⟩
      · simp [he, hfirst]
      · intro q hq
        cases hq
        exact ⟨ht, ho⟩
      · obtain ⟨q, l', hl'⟩ := exists_cons_of_ne_nil hne
        rw [← Nat.add_sub_cancel' hle] at hl' hempty
        refine ⟨splitLoop_coalesced order _ hempty (by rw [getFirstPage, hl']; rfl) hs.1.take he p
          hfirst, fun q hq => ?_⟩
        rw [removeFromFreeArea_ne (by rintro rfl; exact hq (hi.free_mem (by omega) hp)), hmap q hq]
        exact hs.2 q hq

/-! ## Release -/

/-- Coalescing trades the held block for the largest one its free buddies allow. -/
theorem coalesce_spec : ∀ (fuel : Nat) {s : Buddy} {p k : Nat},
    Inv pm managed s lists (⟨p, k⟩ :: held) out → k + fuel + 1 = maxOrder →
    Inv pm managed (coalesce pm fuel s p k).1 lists
        (⟨(coalesce pm fuel s p k).2.1, (coalesce pm fuel s p k).2.2⟩ :: held) out ∧
      (coalesce pm fuel s p k).1.pcp = s.pcp ∧
      (s.Settled managed → ∀ f : Page → Page, (((coalesce pm fuel s p k).1.setPage
        (coalesce pm fuel s p k).2.1 f).addToFreeArea (coalesce pm fuel s p k).2.1
        (coalesce pm fuel s p k).2.2).Settled managed) := by
  intro fuel
  induction fuel with
  | zero =>
    intro s p k h hlast
    have hp := h.base_mem
    exact ⟨h, rfl, fun hs => hs.give hp fun hk => by simp only [coalesce] at hk; omega⟩
  | succ fuel ih =>
    intro s p k h hlt
    have hp := h.base_mem
    rw [coalesce]
    cases hb : (getBuddyPage pm p k).filter fun b => s.isFreeBuddy b k with
    | none =>
      refine ⟨h, rfl, fun hs => hs.give hp fun hk hmem => ?_⟩
      have hhas := h.has _ (h.free_mem (lt_of_succ_lt hk) hmem)
      rw [getBuddyPage_eq_some.2 ⟨rfl, hhas⟩, filter_some,
        (isFreeBuddy_iff h (lt_of_succ_lt hk) hhas).2 hmem] at hb
      cases hb
    | some b =>
      obtain ⟨hget, hfree⟩ := filter_eq_some_iff.1 hb
      obtain ⟨rfl, hhas⟩ := getBuddyPage_eq_some.1 hget
      have hmem := (isFreeBuddy_iff h (by omega) hhas).1 hfree
      obtain ⟨ht, -⟩ := h.take (by omega) hmem
      have hj := ht.join (by omega)
      have hmin : (if p > p ^^^ 2 ^ k then p ^^^ 2 ^ k else p) = min p (p ^^^ 2 ^ k) := by
        split <;> omega
      obtain ⟨hi, hpcp, hco⟩ := ih hj (by omega)
      dsimp only
      rw [hmin]
      exact ⟨hi, by rw [hpcp, removeFromFreeArea_pcp], fun hs => hco (hs.take (h.free_mem (by omega) hmem))⟩

theorem buddyFreeLocked_spec (h : Inv pm managed s lists (⟨p, k⟩ :: held) out)
    (hord : (s.memMap p).order = k) :
    Inv pm managed (buddyFreeLocked pm s p) lists held out ∧ (buddyFreeLocked pm s p).pcp = s.pcp ∧
      (s.Settled managed → (buddyFreeLocked pm s p).Settled managed) := by
  have hb : (⟨p, k⟩ : Block) ∈ ⟨p, k⟩ :: held ++ out := mem_cons_self
  have hps := Block.base_mem_span ⟨p, k⟩
  obtain ⟨hk, -⟩ := h.blockAligned _ hb
  obtain ⟨f1, f2⟩ := h.block_flags hb hps
  have f3 := h.reserved p (h.block_mem hb hps)
  have hk' : ¬ k ≥ maxOrder := not_le.2 hk
  unfold buddyFreeLocked
  simp only [hord, hk', if_false, f1, f2, f3, Bool.or_false, Bool.false_eq_true]
  obtain ⟨hi, hpcp, hco⟩ := coalesce_spec (maxOrder - 1 - k) h (by unfold maxOrder at *; omega)
  generalize coalesce pm (maxOrder - 1 - k) s p k = r at hi hpcp hco
  obtain ⟨s', p', k'⟩ := r
  have h1 := hi.clearHead (f := fun q =>
    { q with order := k', flags := 0, refcount := 0, mapping := 0, index := 0, priv := 0,
             next := none, slab := 0 }) rfl
  exact ⟨h1.give (by rw [setPage_self]), hpcp, fun hs => hco hs _⟩

/-! ## Per-CPU lists -/

theorem pcpPop_spec (h : Inv pm managed s lists held out) (hc : c < maxCpus) :
    (lists c = [] ∧ s.pcpPop c = (none, s)) ∨
      ∃ p l s', lists c = p :: l ∧ s.pcpPop c = (some p, s') ∧
        Inv pm managed s' (Function.update lists c l) (⟨p, 0⟩ :: held) out ∧
        (s'.memMap p).order = 0 ∧ (s.Settled managed → s'.Settled managed) := by
  have hlink := h.linked c hc
  cases hl : lists c with
  | nil =>
    rw [hl] at hlink
    refine .inl ⟨rfl, ?_⟩
    simp [pcpPop, Linked.nil_iff.1 hlink]
  | cons p l =>
    rw [hl] at hlink
    have hpc : p ∈ lists c := by rw [hl]; exact mem_cons_self
    have hpop : s.pcpPop c = (some p, (s.setPcp c fun pc =>
        { pc with head := (s.memMap p).next, count := pc.count - 1 }).setPage p fun q =>
          ({ q with next := none } : Page).clearPagePcp) := by
      simp [pcpPop, hlink.1]
    refine .inr ⟨p, l, _, rfl, hpop, ?_, ?_, fun hs => hs.keep (h.pcp_mem hc hpc) rfl fun q e =>
      setPage_ne e⟩
    · exact h.unlink hc hl (by rw [Page.pageBuddy_clearPagePcp]; rfl)
        (Page.pagePcp_clearPagePcp _) (by rw [Page.pageReserved_clearPagePcp]; rfl)
    · rw [setPage_self]
      exact h.pcpOrder c hc p hpc

theorem pcpRefill_spec (hc : c < maxCpus) : ∀ (n : Nat) {s : Buddy} {lists : Nat → List Nat},
    Inv pm managed s lists held out →
    ∃ s' lists', pcpRefill pm c n s = some s' ∧ Inv pm managed s' lists' held out ∧
      (s.Settled managed → s'.Settled managed) := by
  intro n
  induction n with
  | zero => intro s lists h; exact ⟨s, lists, rfl, h, id⟩
  | succ n ih =>
    intro s lists h
    obtain ⟨r, s', he, -, hnone, hsome, hco⟩ := buddyAllocLocked_spec h 0
    cases r with
    | none =>
      refine ⟨s', lists, ?_, by rw [hnone rfl]; exact h, hco⟩
      simp [pcpRefill, he]
    | some p =>
      obtain ⟨hi, ho⟩ := hsome p rfl
      have hl := hi.link hc (Page.pageBuddy_setPagePcp _)
        (Page.pagePcp_setPagePcp _) (Page.pageReserved_setPagePcp _) ho
      obtain ⟨s'', lists', he', hi', hco'⟩ := ih hl
      have hp := hi.base_mem
      refine ⟨s'', lists', ?_, hi', fun hs => hco' ((hco hs).keep hp rfl fun q e => ?_)⟩
      · simp only [pcpRefill, he, bind_eq_bind, bind_some]
        exact he'
      · simp [pcpLink, setPage_ne e]

theorem pcpDrain_spec (hc : c < maxCpus) : ∀ (n : Nat) {s : Buddy} {lists : Nat → List Nat},
    Inv pm managed s lists held out →
    (∃ lists', Inv pm managed (pcpDrain pm c n s) lists' held out) ∧
      (s.Settled managed → (pcpDrain pm c n s).Settled managed) := by
  intro n
  induction n with
  | zero => intro s lists h; exact ⟨⟨lists, h⟩, id⟩
  | succ n ih =>
    intro s lists h
    rw [pcpDrain]
    cases hh : (s.pcp c).head with
    | none => exact ⟨⟨lists, h⟩, id⟩
    | some p =>
      have hlink := h.linked c hc
      rw [hh] at hlink
      obtain ⟨l, hl, -⟩ := hlink.exists_cons
      have hu := h.unlink hc hl
        (f := fun q => { ({ q with next := none } : Page).clearPagePcp with order := 0 })
        (Page.pageBuddy_clearPagePcp _) (Page.pagePcp_clearPagePcp _)
        (Page.pageReserved_clearPagePcp _)
      obtain ⟨hf, -, hco⟩ := buddyFreeLocked_spec hu (by rw [setPage_self])
      have hp := h.pcp_mem hc (hl ▸ mem_cons_self)
      exact ⟨(ih hf).1, fun hs => (ih hf).2 (hco (hs.keep hp rfl fun q e => setPage_ne e))⟩

/-! ## The interface -/

theorem prepareAllocatedPage_spec (h : Inv pm managed s lists (⟨p, k⟩ :: held) out)
    (hord : (s.memMap p).order = k) :
    Inv pm managed (s.prepareAllocatedPage p) lists held (⟨p, k⟩ :: out) ∧
      (s.Settled managed → (s.prepareAllocatedPage p).Settled managed) := by
  have hb : (⟨p, k⟩ : Block) ∈ ⟨p, k⟩ :: held ++ out := mem_cons_self
  have hps := Block.base_mem_span ⟨p, k⟩
  obtain ⟨f1, f2⟩ := h.block_flags hb hps
  have f3 := h.reserved p (h.block_mem hb hps)
  have h1 := h.setPage (f := fun q =>
      { q with refcount := 0, mapping := 0, index := 0, priv := 0, slab := 0 })
    mem_cons_self hps f1 f2 f3
  exact ⟨h1.handOut (by rw [setPage_self]; exact hord),
    fun hs => hs.keep (h.block_mem hb hps) rfl fun q e => setPage_ne e⟩

/-- **`alloc_pages`** returns; it hands out a new block of the order asked for, or NULL. -/
theorem allocPages_spec (h : Inv pm managed s lists [] out) (hc : c < maxCpus) (order : Nat) :
    ∃ r s' lists', allocPages pm s c order = some (r, s') ∧
      Inv pm managed s' lists' [] (r.elim out fun p => ⟨p, order⟩ :: out) ∧
      (s.Settled managed → s'.Settled managed) := by
  unfold allocPages
  split_ifs with hz
  · obtain ⟨r, s', he, -, hnone, hsome, hco⟩ := buddyAllocLocked_spec h order
    refine ⟨r, s', lists, he, ?_, hco⟩
    cases r with
    | none => rw [hnone rfl]; exact h
    | some p =>
      obtain ⟨hi, ho⟩ := hsome p rfl
      exact hi.handOut ho
  · obtain rfl : order = 0 := not_not.1 hz
    rcases pcpPop_spec h hc with ⟨-, he⟩ | ⟨p, l, s', -, he, hi, ho, hpop⟩
    · -- a miss: refill from the free areas, then take the head again
      obtain ⟨s1, lists1, he1, h1, hco⟩ := pcpRefill_spec hc (s.pcp c).batch h
      rcases pcpPop_spec h1 hc with ⟨-, he2⟩ | ⟨p, l, s2, -, he2, hi, ho, hpop⟩
      · exact ⟨none, s1, lists1, by simp [he, he1, he2], h1, hco⟩
      · obtain ⟨hi', hco'⟩ := prepareAllocatedPage_spec hi ho
        exact ⟨some p, _, _, by simp [he, he1, he2], hi', fun hs => hco' (hpop (hco hs))⟩
    · obtain ⟨hi', hco'⟩ := prepareAllocatedPage_spec hi ho
      exact ⟨some p, _, _, by simp [he], hi', fun hs => hco' (hpop hs)⟩

/-- **`free_pages`** of a block that is out takes that block back. -/
theorem freePages_spec (h : Inv pm managed s lists [] out) (hc : c < maxCpus) {b : Block}
    (hb : b ∈ out) :
    (∃ lists', Inv pm managed (freePages pm s c (some b.base)) lists' [] (out.erase b)) ∧
      (s.Settled managed → (freePages pm s c (some b.base)).Settled managed) := by
  have hord := h.outOrder b hb
  have hin := h.handIn hb
  rw [freePages]
  split_ifs with hz
  · obtain ⟨hi, -, hco⟩ := buddyFreeLocked_spec hin hord
    exact ⟨⟨lists, hi⟩, hco⟩
  · obtain ⟨p, k⟩ := b
    obtain rfl : k = 0 := hord.symm.trans (not_not.1 hz)
    have hl := hin.link hc (f := fun q => ({ q with order := 0 } : Page).setPagePcp)
      (Page.pageBuddy_setPagePcp _) (Page.pagePcp_setPagePcp _) (Page.pageReserved_setPagePcp _) rfl
    have hp := hin.base_mem
    have hs : s.Settled managed → (s.pcpPush c p).Settled managed :=
      fun hs => hs.keep hp rfl fun q e => by simp [pcpPush, pcpLink, setPage_ne e]
    dsimp only
    split
    · exact ⟨(pcpDrain_spec hc _ hl).1, fun h => (pcpDrain_spec hc _ hl).2 (hs h)⟩
    · exact ⟨⟨_, hl⟩, hs⟩

theorem Inv.setLimits (h : Inv pm managed s lists held out) (high batch : Nat) :
    Inv pm managed (s.setPcp c fun pc => { pc with high := high, batch := batch }) lists held out := by
  have hpcp : ∀ d, ((s.setPcp c fun pc => { pc with high := high, batch := batch }).pcp d).head =
      (s.pcp d).head ∧
      ((s.setPcp c fun pc => { pc with high := high, batch := batch }).pcp d).count =
      (s.pcp d).count := by
    intro d
    by_cases hd : d = c
    · subst hd; simp
    · rw [setPcp_ne hd]; exact ⟨rfl, rfl⟩
  refine { h with linked := ?_, count := ?_ }
  · intro d hd; rw [(hpcp d).1]; exact h.linked d hd
  · intro d hd; rw [(hpcp d).2]; exact h.count d hd

theorem pcpConfigureCpu_spec (h : Inv pm managed s lists held out) (hc : c < maxCpus)
    (high batch : Nat) :
    (∃ lists', Inv pm managed (pcpConfigureCpu pm s c high batch) lists' held out) ∧
      (s.Settled managed → (pcpConfigureCpu pm s c high batch).Settled managed) := by
  obtain ⟨⟨lists', hd⟩, hco⟩ := pcpDrain_spec hc (s.pcp c).count h
  exact ⟨⟨lists', hd.setLimits high batch⟩, hco⟩

end Ops

end ZzzOs.Mm.Buddy
