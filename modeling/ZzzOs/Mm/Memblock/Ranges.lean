import ZzzOs.Mm.Memblock.Cut

/-!
# Removing and marking a range

Up to the first region that starts inside the range the loops of `memblock_remove` and
`memblock_mark_nomap` do what they are for (`cut_reach`); the left piece made of that region has a size
that wrapped around, and nothing later takes it out again (`cut_overhang`).
-/

namespace ZzzOs.Mm.Memblock

open Nat Lib List

variable {pieces : Node → List MemblockRegion} {mark : Nat → Option Nat} {s s' : Regions}
  {base size x n : Nat} {pos q : Node} {A M C D l : List Node}

/-! ## The loop -/

theorem cutFrom_cons (hn : s.nodes.Nodup) (hs : s.nodes = D ++ pos :: C) (n : Nat) :
    cutFrom pieces base size (n + 1) (some pos) s =
      if memblockAddrsOverlap base size pos.base pos.size then
        (replaceRegion s pos (pieces pos)).bind fun s => cutFrom pieces base size n C.head? s
      else cutFrom pieces base size n C.head? s := by
  have hpos : pos ∉ D := fun hD =>
    disjoint_of_nodup_append (hs ▸ hn) hD mem_cons_self
  rw [cutFrom, hs, ScanSort.after_append hpos]

theorem cutFrom_skip (hn : s.nodes.Nodup) (hs : s.nodes = D ++ (A ++ C))
    (hA : ∀ a ∈ A, memblockAddrsOverlap base size a.base a.size = false) (n : Nat) :
    cutFrom pieces base size (A.length + n) (A ++ C).head? s =
      cutFrom pieces base size n C.head? s := by
  induction A generalizing D with
  | nil => rw [length_nil, zero_add, nil_append]
  | cons a A ih =>
    obtain ⟨ha, hA⟩ := forall_mem_cons.1 hA
    have hcons : cutFrom pieces base size (A.length + n + 1) (some a) s = _ :=
      cutFrom_cons hn hs _
    rw [ha, if_neg Bool.false_ne_true] at hcons
    rw [length_cons, add_right_comm, cons_append, List.head?_cons, hcons]
    refine ih (D := D ++ [a]) ?_ hA
    rw [hs, append_assoc]
    rfl

theorem overlap_eq_false (hr : base + size < 2 ^ 64) (hb : pos.base + pos.size < 2 ^ 64)
    (h : pos.base + pos.size ≤ base ∨ base + size ≤ pos.base) :
    memblockAddrsOverlap base size pos.base pos.size = false := by
  rw [← Bool.not_eq_true, overlap_iff hr hb]
  omega

theorem get_regions_none (hA : ∀ a ∈ A, a.base + a.size ≤ x ∨ x < a.base) :
    spans.get (regions A) x = none := by
  refine Spans.get_eq_none.2 fun r hr hin => ?_
  obtain ⟨a, ha, rfl⟩ := mem_map.1 hr
  exact (hA a ha).elim hin.2.not_ge hin.1.not_gt

theorem get_regions_before (hA : ∀ a ∈ A, a.base + a.size ≤ base) (hx : base ≤ x) :
    spans.get (regions A) x = none := get_regions_none fun a ha => .inl ((hA a ha).trans hx)

theorem get_pieces (hc : Cuts pieces base size mark) (hp : Straddles base size pos)
    (hA : ∀ a ∈ A, a.base + a.size ≤ pos.base) (x : Nat) :
    spans.get (regions A ++ filled (pieces pos)) x =
      if InRange base size x then (spans.get (regions (A ++ [pos])) x).bind mark
      else spans.get (regions (A ++ [pos])) x := by
  have hAb : ∀ a ∈ A, a.base + a.size ≤ base := fun a ha => (hA a ha).trans hp.starts
  rw [regions_append, regions_cons, regions_nil, Spans.get_append, Spans.get_append, get_filled]
  by_cases hx : spans.lo pos.toMemblockRegion ≤ x ∧ x < spans.hi pos.toMemblockRegion
  · rw [get_regions_before hA hx.1, Spans.get_cons_pos hx, hc.get pos hp x hx]
    rfl
  · have hnone : spans.get (pieces pos) x = none := by
      refine Spans.get_eq_none.2 fun q hq hin => hx ?_
      obtain ⟨h1, h2⟩ := hc.inside pos hp q hq
      obtain ⟨h3, h4⟩ := hin
      dsimp at h3 h4 ⊢
      omega
    rw [hnone, Spans.get_cons_neg hx, Spans.get_nil, Option.or_none]
    split_ifs with hin
    · rw [get_regions_before hAb hin.1]
      rfl
    · rfl

theorem split_nodes (hm : MemoryMap s) (base : Nat) :
    ∃ A M C, s.nodes = A ++ (M ++ C) ∧ (∀ a ∈ A, a.base + a.size ≤ base) ∧
      (∀ c ∈ C, base < c.base) ∧
      (M = [] ∨ ∃ m, M = [m] ∧ m.base ≤ base ∧ base < m.base + m.size) := by
  obtain ⟨A', M', C', hl, hA, hC, hM⟩ := hm.ordered.split base
  obtain ⟨A, MC, hnodes, rfl, hMC⟩ := map_eq_append_iff.1 hl
  obtain ⟨M, C, rfl, rfl, rfl⟩ := map_eq_append_iff.1 hMC
  refine ⟨A, M, C, hnodes, fun a ha => hA _ (mem_map_of_mem ha),
    fun c hc => hC _ (mem_map_of_mem hc), ?_⟩
  rcases hM with hM | ⟨m', hM, hm1, hm2⟩
  · exact .inl (map_eq_nil_iff.1 hM)
  · obtain ⟨m, rfl, rfl⟩ := map_eq_singleton_iff.1 hM
    exact .inr ⟨m, rfl, hm1, hm2⟩

section

variable (hc : Cuts pieces base size mark) (hm : MemoryMap s) (hr : base + size < 2 ^ 64)

include hc hm hr

/-- The loop up to the regions `C` that start behind the start of the range. -/
theorem cut_reach (hl : s.nodes = A ++ (M ++ C)) (hA : ∀ a ∈ A, a.base + a.size ≤ base)
    (hM : M = [] ∨ ∃ m, M = [m] ∧ m.base ≤ base ∧ base < m.base + m.size) :
    cut pieces base size s = none ∧ s.free.length < 3 ∨
    ∃ D s', s'.nodes = D ++ C ∧ Placed s' ∧ spans.Ordered (regions (D ++ C)) ∧
      (∀ x, spans.get (regions D) x =
        if InRange base size x then (spans.get (regions (A ++ M)) x).bind mark
        else spans.get (regions (A ++ M)) x) ∧
      cut pieces base size s = cutFrom pieces base size (C.length + 1) C.head? s' := by
  have hn := hm.placed.nodup
  have hskip : cut pieces base size s =
      cutFrom pieces base size ((M ++ C).length + 1) (M ++ C).head? s := by
    have hno : ∀ a ∈ A, memblockAddrsOverlap base size a.base a.size = false := fun a ha =>
      overlap_eq_false hr (hm.bounded a (hl ▸ mem_append_left _ ha)) (.inl (hA a ha))
    rw [cut, hl, length_append, add_assoc]
    exact cutFrom_skip (D := []) hn hl hno _
  rcases hM with rfl | ⟨m, rfl, hm1, hm2⟩
  · refine .inr ⟨A, s, hl, hm.placed, ?_, fun x => ?_, hskip⟩
    · rw [← nil_append C, ← hl]
      exact hm.ordered
    · rw [append_nil]
      split_ifs with hin
      · rw [get_regions_before hA hin.1]
        rfl
      · rfl
  · rw [singleton_append] at hl hskip
    have hb : m.base + m.size < 2 ^ 64 := hm.bounded m (by rw [hl]; simp)
    have hcons : cut pieces base size s = _ := hskip.trans (cutFrom_cons hn hl _)
    by_cases hov : m.base < base + size
    · -- the pieces of `m` take its place
      have hp : Straddles base size m := ⟨hb, hm1, hm2⟩
      have ho : spans.Ordered (regions A ++ m.toMemblockRegion :: regions C) := by
        have := hm.ordered
        rwa [hl, regions_append] at this
      have hAm : ∀ a ∈ A, a.base + a.size ≤ m.base := fun a ha =>
        (Spans.ordered_append.1 ho).2.2 _ (mem_map_of_mem ha) _ mem_cons_self
      have hnew : spans.Ordered (regions A ++ (filled (pieces m) ++ regions C)) :=
        ho.replace (ordered_filled (hc.apart m hp)) fun q hq =>
          hc.inside m hp q (mem_filter.1 hq).1
      rw [if_pos ((overlap_iff hr hb).2 ⟨hm2, hov⟩)] at hcons
      rcases replaceRegion_ordered hm.placed hl hnew with
        ⟨hnone, hlt⟩ | ⟨news, s', hs', hnodes, hnews, hp'⟩
      · refine .inl ⟨by rw [hcons, hnone]; rfl, lt_of_lt_of_le hlt ?_⟩
        exact (length_filter_le _ _).trans (hc.few m)
      · refine .inr ⟨A ++ news, s', ?_, hp', ?_, fun x => ?_, ?_⟩
        · rw [hnodes, append_assoc]
        · rw [regions_append, regions_append, hnews, append_assoc]
          exact hnew
        · rw [regions_append, hnews]
          exact get_pieces hc hp hAm x
        · rw [hcons, hs']
          rfl
    · -- an empty range at the start of `m`
      have hno : memblockAddrsOverlap base size m.base m.size = false :=
        overlap_eq_false hr hb (.inr (by omega))
      rw [hno, if_neg Bool.false_ne_true] at hcons
      refine .inr ⟨A ++ [m], s, ?_, hm.placed, ?_, fun x => ?_, hcons⟩
      · rw [hl, append_assoc, singleton_append]
      · rw [append_assoc, singleton_append, ← hl]
        exact hm.ordered
      · rw [if_neg]
        rintro ⟨h1, h2⟩
        omega

/-- **A range in which no region starts** is cut as it should be. -/
theorem cut_spec (hfree : 3 ≤ s.free.length)
    (hno : ∀ n ∈ s.nodes, ¬ (base < n.base ∧ n.base < base + size)) :
    ∃ s', cut pieces base size s = some s' ∧ spans.Ordered (regions s'.nodes) ∧
      ∀ x, spans.get (regions s'.nodes) x =
        if InRange base size x then (spans.get (regions s.nodes) x).bind mark
        else spans.get (regions s.nodes) x := by
  obtain ⟨A, M, C, hl, hA, hC, hM⟩ := split_nodes hm base
  have hmemC : ∀ c ∈ C, c ∈ s.nodes := fun c hc => by simp [hl, hc]
  have hCr : ∀ c ∈ C, base + size ≤ c.base := fun c hc => by
    have := hno c (hmemC c hc)
    have := hC c hc
    omega
  rcases cut_reach hc hm hr hl hA hM with ⟨-, hlt⟩ | ⟨D, s', hnodes, hp, ho, hget, hcut⟩
  · omega
  · refine ⟨s', ?_, hnodes ▸ ho, fun x => ?_⟩
    · have hskip : cutFrom pieces base size (C.length + 1) (C ++ []).head? s' = some s' :=
        cutFrom_skip hp.nodup (by rw [hnodes, append_nil])
          (fun c hc => overlap_eq_false hr (hm.bounded c (hmemC c hc)) (.inr (hCr c hc))) 1
      rw [hcut, ← append_nil C]
      rwa [append_nil] at hskip ⊢
    · rw [hnodes, hl, ← append_assoc, regions_append, regions_append (A ++ M),
        Spans.get_append, Spans.get_append, hget x]
      split_ifs with hin
      · rw [get_regions_none fun c hc => .inr (hin.2.trans_le (hCr c hc)), Option.or_none,
          Option.or_none]
      · rfl

end

/-! ## A region that starts inside the range -/

theorem cutFrom_keeps {p : Option Node} (hp : Placed s)
    (hs : ScanSort.Sorted (fun n : Node => n.base) s.nodes) (hq : q ∈ s.nodes)
    (hptr : ∀ pos, p = some pos → pos ∈ s.nodes ∧ q.base < pos.base)
    (h : cutFrom pieces base size n p s = some s') : q ∈ s'.nodes := by
  induction n generalizing s p with
  | zero => cases h
  | succ n ih =>
    cases p with
    | none =>
      cases h
      exact hq
    | some pos =>
      obtain ⟨hmem, hlt⟩ := hptr pos rfl
      obtain ⟨D, C, hl⟩ := append_of_mem hmem
      have hnext : ∀ c, C.head? = some c → c ∈ s.nodes ∧ c ≠ pos ∧ q.base < c.base := fun c hc => by
        have hcC := mem_of_mem_head? hc
        have hle := (pairwise_cons.1 (pairwise_append.1 (hl ▸ hs)).2.1).1 c hcC
        have hpos := (nodup_cons.1 (nodup_append.1 (hl ▸ hp.nodup)).2.1).1
        exact ⟨by simp [hl, hcC], fun he => hpos (he ▸ hcC), lt_of_lt_of_le hlt hle⟩
      rw [cutFrom_cons hp.nodup hl] at h
      split at h
      · obtain ⟨s₁, hs₁, h⟩ := Option.bind_eq_some_iff.1 h
        obtain ⟨news, hperm, -, hsorted, hp₁⟩ := replaceRegion_some hp hmem hs₁
        have hin : ∀ m ∈ s.nodes, m ≠ pos → m ∈ s₁.nodes := fun m hm hne =>
          hperm.mem_iff.2 (mem_append_right _ ((mem_erase_of_ne hne).2 hm))
        refine ih hp₁ hsorted (hin q hq fun he => ?_) (fun c hc => ?_) h
        · rw [he] at hlt
          exact lt_irrefl _ hlt
        · obtain ⟨hcs, hne, hltc⟩ := hnext c hc
          exact ⟨hin c hcs hne, hltc⟩
      · exact ih hp hs hq (fun c hc => (hnext c hc).imp_right And.right) h

/-- The left piece of a region that starts inside the range has wrapped around. -/
theorem leftPiece_wraps (hb : pos.base + pos.size < 2 ^ 64) (h : base < pos.base) :
    leftPiece base pos = ⟨pos.base, 2 ^ 64 - (pos.base - base), pos.flags⟩ := by
  unfold leftPiece sub64
  rw [limit_eq hb, min_eq_left (by omega), mod_eq_of_lt (by omega),
    show base + 2 ^ 64 - pos.base = 2 ^ 64 - (pos.base - base) by omega]

/-- **A region that starts inside the range** leaves a region of nearly `2 ^ 64` bytes behind. -/
theorem cut_overhang (hc : Cuts pieces base size mark) (hm : MemoryMap s)
    (hr : base + size < 2 ^ 64) (hin : ∃ n ∈ s.nodes, base < n.base ∧ n.base < base + size)
    (h : cut pieces base size s = some s') :
    ∃ q ∈ s'.nodes, ∃ c, InRange base size c ∧ c < 2 ^ 64 ∧ q.base = c ∧
      2 ^ 64 ≤ q.base + q.size := by
  obtain ⟨A, M, C, hl, hA, hC, hM⟩ := split_nodes hm base
  rcases cut_reach hc hm hr hl hA hM with ⟨hnone, -⟩ | ⟨D, s₁, hnodes, hp, ho, -, hcut⟩
  · rw [hnone] at h
    cases h
  obtain ⟨n, hn, hn1, hn2⟩ := hin
  have hnC : n ∈ C := by
    rw [hl, mem_append, mem_append] at hn
    rcases hn with hn | hn | hn
    · have := hA n hn
      omega
    · rcases hM with rfl | ⟨m, rfl, hm1, -⟩
      · cases hn
      · rw [mem_singleton.1 hn] at hn1
        omega
    · exact hn
  cases C with
  | nil => cases hnC
  | cons c C =>
    have hbases := bases_lt ho
    obtain ⟨hcC, -⟩ := pairwise_cons.1 (pairwise_append.1 hbases).2.1
    have hcn : c.base ≤ n.base := by
      rcases mem_cons.1 hnC with rfl | hnC
      · exact le_rfl
      · exact (hcC n hnC).le
    have hbc := hm.bounded c (by simp [hl])
    have hlt := hC c mem_cons_self
    rw [hcut, List.head?_cons, cutFrom_cons hp.nodup hnodes,
      if_pos ((overlap_iff hr hbc).2 ⟨by omega, by omega⟩)] at h
    obtain ⟨s₂, hs₂, h⟩ := Option.bind_eq_some_iff.1 h
    have hmem : c ∈ s₁.nodes := by simp [hnodes]
    obtain ⟨news, hperm, hnews, hsorted, hp₂⟩ := replaceRegion_some hp hmem hs₂
    have hleft : leftPiece base c ∈ regions news := by
      rw [hnews]
      refine mem_filter.2 ⟨hc.left c, decide_eq_true ?_⟩
      rw [leftPiece_wraps hbc hlt]
      dsimp only
      omega
    obtain ⟨q, hq, hqc⟩ := mem_map.1 hleft
    rw [leftPiece_wraps hbc hlt] at hqc
    have hqb : q.base = c.base := by rw [hqc]
    have hqs : q.size = 2 ^ 64 - (c.base - base) := by rw [hqc]
    refine ⟨q, cutFrom_keeps hp₂ hsorted (hperm.mem_iff.2 (mem_append_left _ hq))
      (fun d hd => ?_) h, c.base, ⟨by omega, by omega⟩, by omega, hqb, by omega⟩
    have hdC := mem_of_mem_head? hd
    refine ⟨hperm.mem_iff.2 (mem_append_right _ ((mem_erase_of_ne ?_).2 ?_)), ?_⟩
    · rintro rfl
      exact lt_irrefl _ (hcC d hdC)
    · simp [hnodes, hdC]
    · rw [hqb]
      exact hcC d hdC

/-! ## `memblock_remove` and `memblock_mark_nomap` -/

def Covers (nodes : List Node) (x : Nat) : Prop := ∃ n ∈ nodes, InRange n.base n.size x

def CoversNomap (nodes : List Node) (x : Nat) : Prop :=
  ∃ n ∈ nodes, InRange n.base n.size x ∧ n.flags &&& memblockNomap ≠ 0

/-- Sorted by base and disjoint. -/
def Tidy (nodes : List Node) : Prop := nodes.Pairwise fun a b => a.base + a.size ≤ b.base

/-- What `memblock_remove` is for. -/
def Removed (mb : BootMem) (base size : Nat) : Prop :=
  ∃ mb', memblockRemove mb base size = some mb' ∧ Tidy mb'.memory ∧
    ∀ x, Covers mb'.memory x ↔ Covers mb.memory x ∧ ¬ InRange base size x

/-- What `memblock_mark_nomap` is for. -/
def Marked (mb : BootMem) (base size : Nat) : Prop :=
  ∃ mb', memblockMarkNomap mb base size = some mb' ∧ Tidy mb'.memory ∧
    (∀ x, Covers mb'.memory x ↔ Covers mb.memory x) ∧
    ∀ x, CoversNomap mb'.memory x ↔
      CoversNomap mb.memory x ∨ Covers mb.memory x ∧ InRange base size x

def NoneStartsIn (mb : BootMem) (base size : Nat) : Prop :=
  ∀ n ∈ mb.memory, ¬ (base < n.base ∧ n.base < base + size)

instance (mb : BootMem) (base size : Nat) : Decidable (NoneStartsIn mb base size) :=
  inferInstanceAs (Decidable (∀ n ∈ mb.memory, _))

theorem covers_iff : Covers l x ↔ spans.get (regions l) x ≠ none := by
  rw [Ne, Spans.get_eq_none, not_forall]
  constructor
  · rintro ⟨n, hn, hx⟩
    exact ⟨n.toMemblockRegion, fun hno => hno (mem_map_of_mem hn) hx⟩
  · rintro ⟨r, hr⟩
    obtain ⟨hr, hx⟩ := Classical.not_imp.1 hr
    obtain ⟨n, hn, rfl⟩ := mem_map.1 hr
    exact ⟨n, hn, Classical.not_not.1 hx⟩

theorem coversNomap_iff (h : spans.Ordered (regions l)) :
    CoversNomap l x ↔ ∃ fl, spans.get (regions l) x = some fl ∧ fl &&& memblockNomap ≠ 0 := by
  constructor
  · rintro ⟨n, hn, hx, hfl⟩
    exact ⟨n.flags, h.get_of_mem (mem_map_of_mem hn) hx, hfl⟩
  · rintro ⟨fl, hget, hfl⟩
    obtain ⟨r, hr, hx, rfl⟩ := (Spans.get_eq_some h).1 hget
    obtain ⟨n, hn, rfl⟩ := mem_map.1 hr
    exact ⟨n, hn, hx, hfl⟩

theorem tidy_of_ordered (h : spans.Ordered (regions l)) : Tidy l :=
  pairwise_map.1 h.apart

theorem or_nomap (fl : Nat) : (fl ||| memblockNomap) &&& memblockNomap ≠ 0 := by
  rw [and_or_distrib_right]
  intro h
  have := or_eq_zero_iff.1 h
  exact absurd this.2 (by decide)

theorem startsIn_of_not (h : ¬ NoneStartsIn mb base size) :
    ∃ n ∈ mb.memory, base < n.base ∧ n.base < base + size := by
  unfold NoneStartsIn at h
  push Not at h
  exact h

section

variable {mb : BootMem} (hm : MemoryMap ⟨mb.memory, mb.free⟩) (hr : base + size < 2 ^ 64)
include hm hr

section

variable (hfree : 3 ≤ mb.free.length) (h : NoneStartsIn mb base size)

include hfree h

theorem removed_of_noneStartsIn : Removed mb base size := by
  obtain ⟨s', hs', ho, hget⟩ := cut_spec (removePieces_cuts hr) hm hr hfree h
  refine ⟨{ mb with memory := s'.nodes, free := s'.free }, ?_, tidy_of_ordered ho, fun x => ?_⟩
  · unfold memblockRemove memblockRemoveRegion
    rw [hs']
    rfl
  · rw [covers_iff, covers_iff, hget x]
    split <;> rename_i hx
    · rw [Option.bind_fun_none]
      exact ⟨fun hne => absurd rfl hne, fun hand => absurd hx hand.2⟩
    · exact ⟨fun hne => ⟨hne, hx⟩, And.left⟩

theorem marked_of_noneStartsIn : Marked mb base size := by
  obtain ⟨s', hs', ho, hget⟩ := cut_spec (nomapPieces_cuts hr) hm hr hfree h
  refine ⟨{ mb with memory := s'.nodes, free := s'.free }, ?_, tidy_of_ordered ho, fun x => ?_,
    fun x => ?_⟩
  · unfold memblockMarkNomap
    rw [hs']
    rfl
  · rw [covers_iff, covers_iff, hget x]
    cases spans.get (regions mb.memory) x <;> split <;> simp
  · rw [coversNomap_iff ho, coversNomap_iff hm.ordered, covers_iff, hget x]
    cases spans.get (regions mb.memory) x with
    | none => simp
    | some fl =>
      split <;> rename_i hx
      · simp [hx, or_nomap]
      · simp [hx]

end

theorem noneStartsIn_of_removed (h : Removed mb base size) : NoneStartsIn mb base size := by
  by_contra hno
  obtain ⟨mb', hmb', -, hcov⟩ := h
  obtain ⟨s', hs', rfl⟩ := Option.map_eq_some_iff.1 hmb'
  obtain ⟨q, hq, c, hc, hlt, rfl, hend⟩ :=
    cut_overhang (removePieces_cuts hr) hm hr (startsIn_of_not hno) hs'
  exact ((hcov q.base).1 ⟨q, hq, le_rfl, by omega⟩).2 hc

theorem noneStartsIn_of_marked (h : Marked mb base size) : NoneStartsIn mb base size := by
  by_contra hno
  obtain ⟨mb', hmb', -, hcov, -⟩ := h
  obtain ⟨s', hs', rfl⟩ := Option.map_eq_some_iff.1 hmb'
  obtain ⟨q, hq, c, hc, hlt, rfl, hend⟩ :=
    cut_overhang (nomapPieces_cuts hr) hm hr (startsIn_of_not hno) hs'
  -- the last address of all was in no region
  obtain ⟨n, hn, -, hn2⟩ := (hcov (2 ^ 64 - 1)).1 ⟨q, hq, by omega, by omega⟩
  have := hm.bounded n hn
  omega

end

/-- **Removing or marking a range does what it is for exactly when no memory region starts inside
the range.** -/
theorem remove_mark_iff (mb : BootMem) (base size : Nat) (hm : MemoryMap ⟨mb.memory, mb.free⟩)
    (hr : base + size < 2 ^ 64) (hfree : 3 ≤ mb.free.length) :
    (Removed mb base size ↔ NoneStartsIn mb base size) ∧
      (Marked mb base size ↔ NoneStartsIn mb base size) :=
  ⟨⟨noneStartsIn_of_removed hm hr, removed_of_noneStartsIn hm hr hfree⟩,
    ⟨noneStartsIn_of_marked hm hr, marked_of_noneStartsIn hm hr hfree⟩⟩

/-- A bank of 256 MiB at `0x80000000` and nothing reserved. -/
def oneBank : BootMem where
  memory := [{ base := 0x80000000, size := 0x10000000, flags := 0, idx := 255 }]
  memoryTotal := 0x10000000
  reserved := []
  reservedTotal := 0
  free := [254, 253, 252, 251]

theorem oneBank_map : MemoryMap ⟨oneBank.memory, oneBank.free⟩ where
  ordered := Spans.ordered_cons.2 ⟨by decide, nofun, Spans.Ordered.nil⟩
  bounded := by decide
  placed := by decide

/-- A hole in the middle of the bank is cut out. -/
theorem remove_mark_oneBank : Removed oneBank 0x84000000 0x1000 ∧ Marked oneBank 0x84000000 0x1000 :=
  have h := remove_mark_iff oneBank 0x84000000 0x1000 oneBank_map (by decide) (by decide)
  ⟨h.1.2 (by decide), h.2.2 (by decide)⟩

/-- A range that starts 16 MiB below the bank leaves a region of `2 ^ 64 - 16 MiB` bytes there
when it is removed. -/
theorem removed_range_covered : MemoryMap ⟨oneBank.memory, oneBank.free⟩ ∧
      (memblockRemove oneBank 0x7f000000 0x2000000).map (fun mb => regions mb.memory) =
        some [⟨0x80000000, 0xffffffffff000000, 0⟩, ⟨0x81000000, 0xf000000, 0⟩] ∧
      ¬ Removed oneBank 0x7f000000 0x2000000 ∧ ¬ Marked oneBank 0x7f000000 0x2000000 := by
  refine ⟨oneBank_map, by decide +kernel, fun h => ?_, fun h => ?_⟩
  · exact absurd (noneStartsIn_of_removed oneBank_map (by decide) h) (by decide)
  · exact absurd (noneStartsIn_of_marked oneBank_map (by decide) h) (by decide)

end ZzzOs.Mm.Memblock
