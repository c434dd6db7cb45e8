import ZzzOs.Mm.Buddy.Ops
import Mathlib.Order.Interval.Finset.Nat

/-!
# Start-up

`buddy_init` puts the free frames on the list of order 0 in ascending order and merges order by order.
`MergeInv` is the invariant of the traversal in `try_merge_order`. Because the list ascends, the buddy of
the current page can only be the saved successor, so advancing it once keeps the traversal valid.
-/

namespace ZzzOs.Mm.Buddy

open Option Multiset Lib List Nat

section Init

variable {pm : PhysMem} {managed : Multiset Nat} {s : Buddy} {lists : Nat → List Nat}
  {held out : List Block} {p k c a : Nat} {l r : List Nat}

/-! ## New frames -/

section

variable (h : Inv pm managed s lists held out) (hp : p ∉ managed) (hhas : pm.Has p)
  (hsmall : managed.card + 1 < 2 ^ 32)

include h hp hhas hsmall

theorem Inv.adopt {f : Page → Page} (hf : (f (s.memMap p)).flags = 0#32) :
    Inv pm (p ::ₘ managed) { s.setPage p f with managedPages := s.managedPages + 1 } lists
      (⟨p, 0⟩ :: held) out := by
  obtain ⟨f1, f2, f3⟩ := Page.flags_zero hf
  have hnf : ∀ j < maxOrder, p ∉ (s.freeArea j).freeList := fun j hj hm => hp (h.free_mem hj hm)
  have hnc : ∀ d < maxCpus, p ∉ lists d := fun d hd hm => hp (h.pcp_mem hd hm)
  have hne : ∀ q, q ≠ p → (s.setPage p f).memMap q = s.memMap q := fun q hq => setPage_ne hq
  refine { nodup := ?_, small := ?_, managedPages := ?_, has := ?_, cover := ?_,
           aligned := h.aligned, blockAligned := ?_, nrFree := h.nrFree, buddyFlag := ?_,
           pcpFlag := ?_, reserved := ?_, freeOrder := ?_, pcpOrder := ?_, outOrder := ?_,
           linked := ?_, count := h.count }
  · exact nodup_cons.2 ⟨hp, h.nodup⟩
  · rw [card_cons]; exact hsmall
  · rw [card_cons, ← h.managedPages]
  · exact forall_mem_cons.2 ⟨hhas, h.has⟩
  · rw [setPage_freeArea, blocksSpan_cons, Block.span_zero, ← h.cover, ← singleton_add]
    abel
  · exact forall_mem_cons.2 ⟨⟨succ_pos _, by simp [Block.Aligned]⟩, h.blockAligned⟩
  · intro q hq
    dsimp only [Buddy.setPage]
    refine update_cases (fun e => ?_) fun _ => h.buddyFlag q hq
    subst e
    simpa [f1] using hnf
  · intro q hq
    dsimp only [Buddy.setPage]
    refine update_cases (fun e => ?_) fun _ => h.pcpFlag q hq
    subst e
    simpa [f2] using hnc
  · intro q hq
    dsimp only [Buddy.setPage]
    exact update_cases (fun _ => f3) fun e => h.reserved q ((mem_cons.1 hq).resolve_left e)
  · intro j hj q hq
    rw [hne q (fun e => hnf j hj (e ▸ hq))]; exact h.freeOrder j hj q hq
  · intro d hd q hq
    rw [hne q (fun e => hnc d hd (e ▸ hq))]; exact h.pcpOrder d hd q hq
  · intro b hb
    have hb' : b ∈ held ++ out := mem_append.2 (.inr hb)
    rw [hne _ (fun e => hp (e ▸ h.block_mem hb' (Block.base_mem_span b)))]
    exact h.outOrder b hb
  · intro d hd
    refine (h.linked d hd).congr fun q hq => ?_
    rw [hne q (fun e => hnc d hd (e ▸ hq))]

theorem initPage_spec : ∃ s', initPage pm s p = some s' ∧ Inv pm (p ::ₘ managed) s' lists held out ∧
      (s'.freeArea 0).freeList = (s.freeArea 0).freeList ++ [p] ∧
      (∀ j, j ≠ 0 → s'.freeArea j = s.freeArea j) ∧ ∀ q, q ≠ p → s'.memMap q = s.memMap q := by
  have h1 := h.adopt hp hhas hsmall (f := fun q => { q with order := 0, flags := 0, slab := 0 }) rfl
  have h2 := h1.give (by dsimp only; rw [setPage_self])
  refine ⟨_, ?_, h2, ?_, ?_, fun q e => ?_⟩
  · simp only [initPage, pfnToPage_of_has hhas, bind_eq_bind, bind_some]
    rfl
  · rfl
  · intro j hj
    rw [addToFreeArea_area, if_neg hj]
    rfl
  · exact (addToFreeArea_ne e).trans (Function.update_of_ne e ..)

end

/-! ## The traversal of `try_merge_order` -/

theorem listNext_append : ∀ {l r : List Nat}, (l ++ a :: r).Nodup →
    listNext (l ++ a :: r) a = r.head? := by
  intro l
  induction l with
  | nil =>
    intro r _
    cases r with
    | nil => rfl
    | cons b r => simp [listNext]
  | cons x l ih =>
    intro r hnd
    have hx : x ≠ a := by
      rintro rfl
      exact (nodup_cons.1 hnd).1 (mem_append.2 (.inr mem_cons_self))
    have := ih (nodup_cons.1 hnd).2
    cases l with
    | nil => rw [nil_append] at this; simpa [listNext, hx] using this
    | cons y l => simpa [listNext, hx] using this

/-- Where a traversal of the list of order `k` stands with `rest` ahead. -/
def restCursor (k : Nat) : List Nat → Cursor
  | [] => .head k
  | p :: _ => .page p

theorem cursorNext_page (h : Inv pm managed s lists held out) (hk : k < maxOrder)
    (hl : (s.freeArea k).freeList = l ++ p :: r) :
    s.cursorNext (.page p) = restCursor k r := by
  have hp : p ∈ (s.freeArea k).freeList := by rw [hl]; simp
  have hfind : (List.range maxOrder).find? (fun j => decide (p ∈ (s.freeArea j).freeList)) =
      some k := by
    cases hf : (List.range maxOrder).find? fun j => decide (p ∈ (s.freeArea j).freeList) with
    | none => exact absurd hp (by simpa using List.find?_eq_none.1 hf k (List.mem_range.2 hk))
    | some j =>
      have hj := List.mem_range.1 (List.mem_of_find?_eq_some hf)
      have hm : p ∈ (s.freeArea j).freeList := by simpa using List.find?_some hf
      rw [h.free_unique hk hj hp hm]
  have hnd := h.freeList_nodup hk
  rw [hl] at hnd
  rw [cursorNext, nodeNext, hfind]
  dsimp only
  rw [hl, listNext_append hnd]
  cases r <;> rfl

theorem cursorNext_head : s.cursorNext (.head k) = restCursor k (s.freeArea k).freeList := by
  rw [cursorNext]
  cases (s.freeArea k).freeList <;> rfl

theorem erase_mid (h : (l ++ a :: r).Nodup) : (l ++ a :: r).erase a = l ++ r := by
  have ha : a ∉ l := fun hm => (nodup_append.1 h).2.2 a hm a mem_cons_self rfl
  rw [List.erase_append_right _ ha, List.erase_cons_head]

structure MergeInv (pm : PhysMem) (managed : Multiset Nat) (s : Buddy) (k : Nat)
    (done rest merged : List Nat) : Prop where
  inv : Inv pm managed s (fun _ => []) [] []
  current : (s.freeArea k).freeList = done ++ rest
  ascending : (done ++ rest).Pairwise (· < ·)
  next : (s.freeArea (k + 1)).freeList = merged
  mergedAscending : merged.Pairwise (· < ·)
  below : ∀ m ∈ merged, ∀ q ∈ rest, m < q
  above : ∀ j < maxOrder, k + 1 < j → (s.freeArea j).freeList = []
  alone : ∀ q ∈ done, q ^^^ 2 ^ k ∉ (s.freeArea k).freeList
  lower : ∀ j < k, ∀ q ∈ (s.freeArea j).freeList, q ^^^ 2 ^ j ∉ (s.freeArea j).freeList
  others : ∀ q ∉ managed, (s.memMap q).order = 0xFFFF

variable {done rest merged : List Nat} {mb : Memblock} {pages : Nat → Page}

/-- The buddy of the current page, when free, is the next member of the list. -/
theorem MergeInv.buddy_next (h : MergeInv pm managed s k done (p :: rest) merged)
    (hk : k < maxOrder) (hb : p ^^^ 2 ^ k ∈ (s.freeArea k).freeList) :
    p ^^^ 2 ^ k = p + 2 ^ k ∧ ∃ r, rest = (p + 2 ^ k) :: r := by
  have hpm : p ∈ (s.freeArea k).freeList := by rw [h.current]; simp
  have hal := h.inv.aligned k hk p hpm
  have hne : p ^^^ 2 ^ k ≠ p := flip_ne p k
  have hasc := pairwise_append.1 h.ascending
  have hrest : p ^^^ 2 ^ k ∈ rest := by
    rw [h.current, List.mem_append, List.mem_cons] at hb
    rcases hb with hb | hb | hb
    · -- a passed page has no free buddy left, and `p` would be one
      refine absurd ?_ (h.alone _ hb)
      rwa [Nat.xor_xor_cancel_right]
    · exact absurd hb hne
    · exact hb
  have hgt : ∀ q ∈ rest, p < q := (pairwise_cons.1 hasc.2.1).1
  have heq : p ^^^ 2 ^ k = p + 2 ^ k := by
    rcases flip_cases hal with e | e
    · exact e.2
    · have := hgt _ hrest
      omega
  refine ⟨heq, ?_⟩
  rw [heq] at hrest
  cases rest with
  | nil => simp at hrest
  | cons q r =>
    refine ⟨r, ?_⟩
    rcases mem_cons.1 hrest with e | hr
    · rw [e]
    · -- a member strictly between `p` and `p + 2 ^ k` would not be aligned
      have hq : q ∈ (s.freeArea k).freeList := by rw [h.current]; simp
      have h1 := hgt q mem_cons_self
      have h2 := (pairwise_cons.1 (pairwise_cons.1 hasc.2.1).2).1 _ hr
      have := eq_add_of_aligned hal (h.inv.aligned k hk q hq) h1 (le_of_lt h2)
      omega

theorem MergeInv.merge (h : MergeInv pm managed s k done (p :: (p + 2 ^ k) :: rest) merged)
    (hk : k + 1 < maxOrder) (hb : p ^^^ 2 ^ k = p + 2 ^ k) :
    MergeInv pm managed (s.mergePair p (p + 2 ^ k) k) k done rest (merged ++ [p]) := by
  have hk' : k < maxOrder := lt_of_succ_lt hk
  have hnd := h.inv.freeList_nodup hk'
  rw [h.current] at hnd
  have hpm : p ∈ (s.freeArea k).freeList := by rw [h.current]; simp
  obtain ⟨h1, -⟩ := h.inv.take hk' hpm
  have ha1 := fun j (hj : j < maxOrder) => h.inv.removeFromFreeArea_area hk' hpm hj
  have hl1 : ((s.removeFromFreeArea p k).freeArea k).freeList = done ++ (p + 2 ^ k) :: rest := by
    rw [ha1 k hk', if_pos rfl, h.current, erase_mid hnd]
  have hbm : p + 2 ^ k ∈ ((s.removeFromFreeArea p k).freeArea k).freeList := by rw [hl1]; simp
  have hnd1 := h1.freeList_nodup hk'
  rw [hl1] at hnd1
  obtain ⟨h2, -⟩ := h1.take hk' hbm
  have ha2 := fun j (hj : j < maxOrder) => h1.removeFromFreeArea_area hk' hbm hj
  rw [← hb] at h2
  have h3 := h2.join hk
  rw [hb, min_eq_left (le_add_right _ _)] at h3
  have h4 := h3.clearHead (f := fun q => { q with order := k + 1, flags := 0 }) rfl
  have h5 := h4.give (by rw [setPage_self])
  have he : s.mergePair p (p + 2 ^ k) k = (((s.removeFromFreeArea p k).removeFromFreeArea
      (p + 2 ^ k) k).setPage p fun q => { q with order := k + 1, flags := 0 }).addToFreeArea p
        (k + 1) := by
    rw [mergePair, if_pos (Nat.lt_add_of_pos_right (Nat.two_pow_pos k))]
  have hareas : ∀ j < maxOrder, ((s.mergePair p (p + 2 ^ k) k).freeArea j).freeList =
      if j = k + 1 then merged ++ [p] else if j = k then done ++ rest
        else (s.freeArea j).freeList := by
    intro j hj
    rw [he, addToFreeArea_area, setPage_freeArea]
    by_cases e1 : j = k + 1
    · subst e1
      rw [if_pos rfl, if_pos rfl, ha2 _ hj, if_neg (by omega), ha1 _ hj, if_neg (by omega), h.next]
    · rw [if_neg e1, if_neg e1, ha2 j hj]
      by_cases e2 : j = k
      · subst e2
        rw [if_pos rfl, if_pos rfl, hl1, erase_mid hnd1]
      · rw [if_neg e2, if_neg e2, ha1 j hj, if_neg e2]
  have hcur := hareas k hk'
  rw [if_neg (by omega), if_pos rfl] at hcur
  have hasc := pairwise_append.1 h.ascending
  obtain ⟨hp1, hp2⟩ := pairwise_cons.1 hasc.2.1
  have hsub : done ++ rest <+ done ++ p :: (p + 2 ^ k) :: rest :=
    ((sublist_cons_self _ _).trans (sublist_cons_self _ _)).append_left _
  refine ⟨by rw [he]; exact h5, hcur, h.ascending.sublist hsub, ?_, ?_, ?_, ?_, ?_, fun j hj => ?_,
    fun q hq => ?_⟩
  · rw [hareas _ hk, if_pos rfl]
  · refine pairwise_append.2 ⟨h.mergedAscending, pairwise_singleton _ _, ?_⟩
    simpa using fun m hm => h.below m hm p mem_cons_self
  · intro m hm q hq
    have hq' : q ∈ (p + 2 ^ k) :: rest := mem_cons_of_mem _ hq
    rcases mem_append.1 hm with hm | hm
    · exact h.below m hm q (mem_cons_of_mem _ hq')
    · rw [List.mem_singleton.1 hm]
      exact hp1 q hq'
  · intro j hj hlt
    rw [hareas j hj, if_neg (by omega), if_neg (by omega)]
    exact h.above j hj hlt
  · intro q hq hm
    rw [hcur] at hm
    refine h.alone q hq ?_
    rw [h.current]
    exact hsub.subset hm
  · rw [hareas j (hj.trans hk'), if_neg (by omega), if_neg (by omega)]
    exact h.lower j hj
  · have hqp : q ≠ p := by rintro rfl; exact hq (h.inv.free_mem hk' hpm)
    have hqb : q ≠ p + 2 ^ k := by rintro rfl; exact hq (h1.free_mem hk' hbm)
    rw [he, addToFreeArea_ne hqp, setPage_ne hqp, removeFromFreeArea_ne hqb,
      removeFromFreeArea_ne hqp]
    exact h.others q hq

theorem MergeInv.pass (h : MergeInv pm managed s k done (p :: rest) merged)
    (hb : p ^^^ 2 ^ k ∉ (s.freeArea k).freeList) :
    MergeInv pm managed s k (done ++ [p]) rest merged := by
  have happ : done ++ [p] ++ rest = done ++ p :: rest := by simp
  refine { h with current := ?_, ascending := ?_, below := ?_, alone := ?_ }
  · rw [happ]; exact h.current
  · rw [happ]; exact h.ascending
  · exact fun m hm q hq => h.below m hm q (mem_cons_of_mem _ hq)
  · exact forall_mem_append.2 ⟨h.alone, by simpa using hb⟩

theorem tryMergeLoop_spec (hk : k + 1 < maxOrder) : ∀ (fuel : Nat) {s : Buddy}
    {done rest merged : List Nat} {n : Cursor}, MergeInv pm managed s k done rest merged →
    rest.length < fuel → (rest ≠ [] → n = restCursor k rest.tail) →
    ∃ s' done' merged', tryMergeLoop pm k fuel s (restCursor k rest) n = some s' ∧
      MergeInv pm managed s' k done' [] merged' := by
  have hk' : k < maxOrder := lt_of_succ_lt hk
  intro fuel
  induction fuel with
  | zero => intro s done rest merged n h hlt _; omega
  | succ fuel ih =>
    intro s done rest merged n h hlt hn
    cases rest with
    | nil => exact ⟨s, done, merged, by simp [restCursor, tryMergeLoop], h⟩
    | cons p rest =>
      obtain rfl := hn (cons_ne_nil _ _)
      rw [restCursor, tryMergeLoop]
      cases hf : (getBuddyPage pm p k).filter fun b => s.isFreeBuddy b k with
      | some b =>
        obtain ⟨hget, hfree⟩ := filter_eq_some_iff.1 hf
        obtain ⟨rfl, hhas⟩ := getBuddyPage_eq_some.1 hget
        have hm := (isFreeBuddy_iff h.inv hk' hhas).1 hfree
        obtain ⟨hb, r, rfl⟩ := h.buddy_next hk' hm
        have hnext : s.cursorNext (.page (p + 2 ^ k)) = restCursor k r :=
          cursorNext_page (l := done ++ [p]) h.inv hk' (by rw [h.current]; simp)
        have hmerge := h.merge hk hb
        dsimp only [tail_cons, restCursor]
        rw [hb, hnext]
        refine ih hmerge (by simp only [length_cons] at hlt; omega) fun hr => ?_
        obtain ⟨q, r', rfl⟩ := exists_cons_of_ne_nil hr
        exact cursorNext_page hmerge.inv hk' hmerge.current
      | none =>
        have hm : p ^^^ 2 ^ k ∉ (s.freeArea k).freeList := by
          intro hm
          have hhas := h.inv.has _ (h.inv.free_mem hk' hm)
          have hget := getBuddyPage_eq_some.2 ⟨rfl, hhas⟩
          rw [hget, filter_some, (isFreeBuddy_iff h.inv hk' hhas).2 hm] at hf
          cases hf
        have hpass := h.pass hm
        refine ih hpass (by simpa using hlt) fun hr => ?_
        obtain ⟨q, r', rfl⟩ := exists_cons_of_ne_nil hr
        exact cursorNext_page hpass.inv hk' hpass.current

/-- All blocks have order at most `k`, those of order `k` are listed by address, and below `k`
there is nothing left to merge. -/
structure Seeded (pm : PhysMem) (managed : Multiset Nat) (s : Buddy) (k : Nat) : Prop where
  inv : Inv pm managed s (fun _ => []) [] []
  ascending : (s.freeArea k).freeList.Pairwise (· < ·)
  above : ∀ j < maxOrder, k < j → (s.freeArea j).freeList = []
  lower : ∀ j < k, ∀ q ∈ (s.freeArea j).freeList, q ^^^ 2 ^ j ∉ (s.freeArea j).freeList
  others : ∀ q ∉ managed, (s.memMap q).order = 0xFFFF

theorem tryMergeOrder_spec (h : Seeded pm managed s k) (hk : k + 1 < maxOrder) :
    ∃ s', tryMergeOrder pm s k = some s' ∧ Seeded pm managed s' (k + 1) := by
  have hmerge : MergeInv pm managed s k [] (s.freeArea k).freeList [] := by
    exact ⟨h.inv, rfl, h.ascending, h.above _ hk (lt_succ_self k), List.Pairwise.nil, nofun,
      fun j hj hlt => h.above j hj (lt_of_succ_lt hlt), nofun, h.lower, h.others⟩
  have hn : (s.freeArea k).freeList ≠ [] → s.cursorNext (restCursor k (s.freeArea k).freeList) =
        restCursor k (s.freeArea k).freeList.tail := by
    intro hne
    obtain ⟨q, r, hl⟩ := exists_cons_of_ne_nil hne
    rw [hl]
    exact cursorNext_page (l := []) h.inv (lt_of_succ_lt hk) hl
  obtain ⟨s', done, merged, he, hm⟩ := tryMergeLoop_spec hk _ hmerge (lt_succ_self _) hn
  refine ⟨s', ?_, ⟨hm.inv, by rw [hm.next]; exact hm.mergedAscending, hm.above, fun j hj q hq => ?_,
    hm.others⟩⟩
  · rw [tryMergeOrder, if_neg (by unfold maxOrder at *; omega), cursorNext_head]
    exact he
  · rcases Nat.lt_succ_iff_lt_or_eq.1 hj with hj | rfl
    · exact hm.lower j hj q hq
    · rw [hm.current, append_nil] at hq
      exact hm.alone q hq

theorem mergeOrders_spec (h : Seeded pm managed s 0) : ∀ n, n < maxOrder →
    ∃ s', (List.range n).foldlM (tryMergeOrder pm) s = some s' ∧ Seeded pm managed s' n := by
  intro n
  induction n with
  | zero => intro _; exact ⟨s, rfl, h⟩
  | succ n ih =>
    intro hn
    obtain ⟨s1, he1, h1⟩ := ih (lt_of_succ_lt hn)
    obtain ⟨s2, he2, h2⟩ := tryMergeOrder_spec h1 hn
    refine ⟨s2, ?_, h2⟩
    rw [List.range_succ, List.foldlM_append, he1]
    simp [he2]

/-! ## `buddy_init` -/

theorem initPages_spec : ∀ (l : List Nat) {s : Buddy} {done : List Nat},
    Seeded pm done s 0 → (s.freeArea 0).freeList = done → (done ++ l).Pairwise (· < ·) →
    (∀ p ∈ l, pm.Has p) → (done ++ l).length < 2 ^ 32 →
    ∃ s', l.foldlM (initPage pm) s = some s' ∧
      Seeded pm ((done ++ l : List Nat) : Multiset Nat) s' 0 := by
  intro l
  induction l with
  | nil => intro s done h _ _ _ _; exact ⟨s, rfl, by rwa [append_nil]⟩
  | cons p l ih =>
    intro s done h hdone hasc hhas hlen
    have happ : done ++ [p] ++ l = done ++ p :: l := by simp
    have hasc' : (done ++ [p]).Pairwise (· < ·) := by
      refine hasc.sublist (List.Sublist.append_left ?_ _)
      exact singleton_sublist.2 mem_cons_self
    have hp : p ∉ (done : Multiset Nat) := by
      intro hm
      exact absurd ((pairwise_append.1 hasc).2.2 p (mem_coe.1 hm) p mem_cons_self) (lt_irrefl p)
    have hsmall : (done : Multiset Nat).card + 1 < 2 ^ 32 := by
      rw [coe_card]
      rw [length_append, length_cons] at hlen
      omega
    obtain ⟨s1, he1, h1, hl1, hne1, hmap⟩ := initPage_spec h.inv hp (hhas p mem_cons_self) hsmall
    have hmm : p ::ₘ (done : Multiset Nat) = (done ++ [p] : List Nat) := by
      exact coe_eq_coe.2 (perm_append_singleton p done).symm
    rw [hmm] at h1
    have hseed : Seeded pm (done ++ [p] : List Nat) s1 0 := by
      refine ⟨h1, by rw [hl1, hdone]; exact hasc', fun j hj hlt => ?_, nofun, fun q hq => ?_⟩
      · rw [hne1 j (ne_of_gt hlt)]
        exact h.above j hj hlt
      · rw [← hmm, Multiset.mem_cons, not_or] at hq
        rw [hmap q hq.1]
        exact h.others q hq.2
    obtain ⟨s2, he2, h2⟩ := ih hseed (by rw [hl1, hdone]) (by rwa [happ])
      (fun q hq => hhas q (mem_cons_of_mem _ hq)) (by rwa [happ])
    refine ⟨s2, ?_, by rwa [happ] at h2⟩
    rw [foldlM_cons, he1]
    exact he2

theorem initPages_has : ∀ (l : List Nat) {s s' : Buddy}, l.foldlM (initPage pm) s = some s' →
    ∀ p ∈ l, pm.Has p := by
  intro l
  induction l with
  | nil => intro s s' _ p hp; cases hp
  | cons q l ih =>
    intro s s' h p hp
    obtain ⟨s1, h1, h2⟩ := bind_eq_some_iff.1 h
    rcases mem_cons.1 hp with rfl | hp
    · obtain ⟨page, hpage, -⟩ := bind_eq_some_iff.1 h1
      exact (pfnToPage_eq_some.1 hpage).2
    · exact ih h2 p hp

/-- The frames the allocator manages. -/
def managedPfns (mb : Memblock) : List Nat := mb.memory.regions.flatMap (initPfns mb)

theorem mem_initPfns {r : MemblockRegion} (hal : 4096 ∣ r.base)
    (hp : p ∈ initPfns mb r) : r.base ≤ 4096 * p ∧ 4096 * p < r.limit := by
  simp only [initPfns, List.mem_map, List.mem_filter, List.mem_range, pageSize_eq, physToPfn_eq] at hp
  omega

theorem initPfns_ascending (r : MemblockRegion) (hal : 4096 ∣ r.base) :
    (initPfns mb r).Pairwise (· < ·) := by
  refine pairwise_map.2 (List.Pairwise.filter _ (pairwise_map.2 ?_))
  refine pairwise_lt_range.imp fun {i j} hij => ?_
  rw [physToPfn_eq, physToPfn_eq, pageSize_eq]
  omega

theorem managedPfns_ascending (h : mb.Sorted) : (managedPfns mb).Pairwise (· < ·) := by
  unfold managedPfns
  rw [pairwise_flatMap]
  refine ⟨fun r hr => initPfns_ascending r (h.aligned r hr).1, ?_⟩
  refine h.sorted.imp_of_mem fun {r r'} hr hr' hle p hp q hq => ?_
  have h1 := mem_initPfns (h.aligned r hr).1 hp
  have h2 := mem_initPfns (h.aligned r' hr').1 hq
  have h3 : r.limit ≤ r.base + r.size := mod_le _ _
  omega

theorem managedPfns_length (hasc : (managedPfns mb).Pairwise (· < ·))
    (hhas : ∀ p ∈ managedPfns mb, pm.Has p) :
    (managedPfns mb).length ≤ pm.lastPfn - pm.firstPfn := by
  have hnd : (managedPfns mb).Nodup := hasc.imp fun h => ne_of_lt h
  rw [← toFinset_card_of_nodup hnd, ← card_Ico]
  refine Finset.card_le_card fun p hp => ?_
  exact Finset.mem_Ico.2 (hhas p (List.mem_toFinset.1 hp))

/-- **`buddy_init` starts the invariant**, and fails only on a frame without a descriptor. -/
theorem buddyInit_spec (hasc : (managedPfns mb).Pairwise (· < ·)) (hpages : ∀ p, (pages p).Unused)
    (hsmall : pm.lastPfn - pm.firstPfn < 2 ^ 32) (hhas : ∀ p ∈ managedPfns mb, pm.Has p) :
    ∃ s, buddyInit pm mb pages = some s ∧ Inv pm (managedPfns mb : List Nat) s (fun _ => []) [] [] ∧
      s.Settled (managedPfns mb : List Nat) := by
  have h0 : Seeded pm ([] : List Nat)
      { memMap := pages, freeArea := fun _ => ⟨[], 0⟩, pcp := fun _ => ⟨none, 0, 0, 0⟩,
        managedPages := 0 } 0 := by
    refine ⟨?_, List.Pairwise.nil, fun _ _ _ => rfl, nofun, fun q _ => (hpages q).2.2⟩
    constructor <;> simp [freeSpan, pcpSpan, fun p => (hpages p).1, fun p => (hpages p).2.1]
  have hlen := managedPfns_length hasc hhas
  obtain ⟨s1, he1, h1⟩ := initPages_spec (managedPfns mb) h0 rfl hasc hhas
    (by rw [nil_append]; omega)
  obtain ⟨s2, he2, h2⟩ := mergeOrders_spec h1 (maxOrder - 1) (by decide)
  refine ⟨{ s2 with pcp := fun _ => ⟨none, 0, 64, 16⟩ }, ?_, ?_, fun k hk => h2.lower k (by omega),
    h2.others⟩
  · simp only [buddyInit, bind_eq_bind]
    rw [managedPfns] at he1
    rw [he1, bind_some, he2, bind_some]
  · exact { h2.inv with linked := fun c _ => rfl, count := fun c _ => rfl }

theorem buddyInit_has (h : buddyInit pm mb pages = some s) : ∀ p ∈ managedPfns mb, pm.Has p := by
  obtain ⟨s1, h1, -⟩ := bind_eq_some_iff.1 h
  exact initPages_has _ h1

end Init

end ZzzOs.Mm.Buddy
