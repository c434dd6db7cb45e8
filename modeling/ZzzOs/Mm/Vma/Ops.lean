import ZzzOs.Mm.Vma.Model

/-!
# What the operations on areas do

`Vma.Ok` is the invariant of an address space's list, which is read as a function by `spans.get`. The two
splits of `vma_delete` and `vma_protect` change neither the function nor the order, and add no boundary
but the one asked for (`Refined`); the loops that follow then change whole areas.
-/

namespace ZzzOs.Mm.Vma

open Lib List

variable {l l' before after rest l₁ : List Vma} {v w new u : Vma} {x c start fin d : Nat}
  {fl : Pgprot}

/-- No two areas that touch have the same flags. -/
def Sealed (l : List Vma) : Prop := ∀ v ∈ l, ∀ w ∈ l, v.fin = w.start → v.flags ≠ w.flags

/-- The same for an area and a later one -/
def Unlike (v w : Vma) : Prop := v.fin = w.start → v.flags ≠ w.flags

structure Ok (l : List Vma) : Prop where
  ordered : spans.Ordered l
  tight : Sealed l
  marked : ∀ v ∈ l, v.flags ≠ 0

theorem get_cons_eq : spans.get (v :: l) x =
    if v.start ≤ x ∧ x < v.fin then some v.flags else spans.get l x := Spans.get_cons

theorem ordered_cons_iff : spans.Ordered (v :: l) ↔
    v.start < v.fin ∧ (∀ w ∈ l, v.fin ≤ w.start) ∧ spans.Ordered l := Spans.ordered_cons

theorem sealed_iff (h : spans.Ordered l) : Sealed l ↔ l.Pairwise Unlike := by
  refine ⟨pairwise_of_forall_mem_list, fun hp => ?_⟩
  refine hp.forall_of_forall_of_flip (fun v hv ht => ?_) (h.apart.imp_of_mem fun hv hw hvw ht => ?_)
  · exact absurd ht (h.proper v hv).ne'
  · have := (h.proper _ hv).trans_le hvw
    exact absurd ht (this.trans (h.proper _ hw)).ne'

/-! ## Merging -/

theorem merge_eq_some (h : merge v w = some u) :
    v.fin = w.start ∧ v.flags = w.flags ∧ u = { v with fin := w.fin } := by
  unfold merge at h
  split_ifs at h with hno
  obtain ⟨h1, h2⟩ := not_or.1 hno
  exact ⟨not_not.1 h1, not_not.1 h2, (Option.some.inj h).symm⟩

theorem merge_eq_none (h : merge v w = none) (ht : v.fin = w.start) : v.flags ≠ w.flags := by
  intro hf
  unfold merge at h
  rw [if_neg (by simp [ht, hf])] at h
  cases h

theorem get_merged (ht : v.fin = w.start) (hf : v.flags = w.flags) (hv : v.start < v.fin)
    (hw : w.start < w.fin) :
    spans.get ({ v with fin := w.fin } :: l) x = spans.get (v :: w :: l) x := by
  rw [get_cons_eq, get_cons_eq, get_cons_eq]
  dsimp only
  by_cases h1 : v.start ≤ x ∧ x < v.fin
  · rw [if_pos h1, if_pos (by omega)]
  · split
    · rw [if_pos (by omega), hf]
    · rw [if_neg (by omega)]

theorem ordered_merged (h : spans.Ordered (v :: w :: l)) (ht : v.fin = w.start) :
    spans.Ordered ({ v with fin := w.fin } :: l) := by
  obtain ⟨hv, -, h⟩ := ordered_cons_iff.1 h
  obtain ⟨hw, hrest, h⟩ := ordered_cons_iff.1 h
  exact ordered_cons_iff.2 ⟨by show v.start < w.fin; omega, hrest, h⟩

/-- `vma_merge_all` keeps the function and leaves nothing to merge. -/
theorem mergeFrom_spec : ∀ (l : List Vma) {v : Vma}, spans.Ordered (v :: l) →
    ∃ head tail, mergeFrom v l = head :: tail ∧ head.start = v.start ∧ head.flags = v.flags ∧
      spans.Ordered (head :: tail) ∧ (head :: tail).Pairwise Unlike ∧
      (∀ u ∈ head :: tail, ∃ u' ∈ v :: l, u.flags = u'.flags) ∧
      ∀ x, spans.get (head :: tail) x = spans.get (v :: l) x := by
  intro l
  induction l with
  | nil =>
    intro v h
    exact ⟨v, [], rfl, rfl, rfl, h, pairwise_singleton _ v, fun u hu => ⟨u, hu, rfl⟩, fun _ => rfl⟩
  | cons w rest ih =>
    intro v h
    obtain ⟨hv, hvw, hw⟩ := ordered_cons_iff.1 h
    unfold mergeFrom
    cases hm : merge v w with
    | some u =>
      obtain ⟨ht, hf, rfl⟩ := merge_eq_some hm
      obtain ⟨head, tail, he, hs, hfl, ho, hseal, hflags, hget⟩ := ih (ordered_merged h ht)
      refine ⟨head, tail, he, hs, hfl, ho, hseal, fun u hu => ?_, fun x => ?_⟩
      · obtain ⟨u', hu', hfu⟩ := hflags u hu
        rcases mem_cons.1 hu' with rfl | hu'
        · exact ⟨v, mem_cons_self, hfu⟩
        · exact ⟨u', mem_cons_of_mem _ (mem_cons_of_mem _ hu'), hfu⟩
      · rw [hget, get_merged ht hf hv (ordered_cons_iff.1 hw).1]
    | none =>
      obtain ⟨head, tail, he, hs, hfl, ho, hseal, hflags, hget⟩ := ih hw
      -- the areas of the result start where `w` does
      have hstart : ∀ u ∈ head :: tail, v.fin ≤ u.start := by
        have h1 : v.fin ≤ head.start := hs ▸ hvw w mem_cons_self
        obtain ⟨h2, h3, -⟩ := ordered_cons_iff.1 ho
        exact forall_mem_cons.2 ⟨h1, fun u hu => (h1.trans h2.le).trans (h3 u hu)⟩
      have ho' : spans.Ordered (v :: head :: tail) := ordered_cons_iff.2 ⟨hv, hstart, ho⟩
      refine ⟨v, head :: tail, by rw [he], rfl, rfl, ho', ?_, ?_, fun x => ?_⟩
      · -- only the first area can touch `v`, and it was not merged
        refine pairwise_cons.2 ⟨forall_mem_cons.2 ⟨fun ht => ?_, fun b hb ht => ?_⟩, hseal⟩
        · rw [hfl]
          exact merge_eq_none hm (ht.trans hs)
        · have h1 := (ordered_cons_iff.1 ho).1
          have h2 := (ordered_cons_iff.1 ho).2.1 b hb
          have h3 := hstart head mem_cons_self
          omega
      · intro u hu
        rcases mem_cons.1 hu with rfl | hu
        · exact ⟨u, mem_cons_self, rfl⟩
        · obtain ⟨u', hu', hfu⟩ := hflags u hu
          exact ⟨u', mem_cons_of_mem _ hu', hfu⟩
      · exact get_cons_eq.trans ((if_congr Iff.rfl rfl (hget x)).trans get_cons_eq.symm)

theorem mergeAll_spec (h : spans.Ordered l) (hm : ∀ v ∈ l, v.flags ≠ 0) :
    Ok (mergeAll l) ∧ ∀ x, spans.get (mergeAll l) x = spans.get l x := by
  cases l with
  | nil => exact ⟨⟨Spans.Ordered.nil, nofun, nofun⟩, fun _ => rfl⟩
  | cons v l =>
    obtain ⟨head, tail, he, -, -, ho, hseal, hflags, hget⟩ := mergeFrom_spec l h
    rw [show mergeAll (v :: l) = head :: tail from he]
    refine ⟨⟨ho, (sealed_iff ho).2 hseal, fun u hu => ?_⟩, hget⟩
    obtain ⟨u', hu', hfu⟩ := hflags u hu
    rw [hfu]
    exact hm u' hu'

/-! ## Splitting -/

/-- `l'` is `l` with some areas split at `c`. -/
structure Refined (c : Nat) (l l' : List Vma) : Prop where
  ordered : spans.Ordered l'
  same : ∀ x, spans.get l' x = spans.get l x
  within : ∀ v ∈ l', ∃ w ∈ l, w.start ≤ v.start ∧ v.fin ≤ w.fin ∧ v.flags = w.flags
  left : ∀ v ∈ l', v.start = c ∨ ∃ w ∈ l, w.start = v.start ∧ w.flags = v.flags
  right : ∀ v ∈ l', v.fin = c ∨ ∃ w ∈ l, w.fin = v.fin ∧ w.flags = v.flags

theorem Refined.refl (h : spans.Ordered l) (c : Nat) : Refined c l l :=
  ⟨h, fun _ => rfl, fun v hv => ⟨v, hv, le_rfl, le_rfl, rfl⟩, fun v hv => .inr ⟨v, hv, rfl, rfl⟩,
    fun v hv => .inr ⟨v, hv, rfl, rfl⟩⟩

theorem Refined.cutAt (h : Refined c l l') (hd : spans.CutAt d l) : spans.CutAt d l' := by
  intro v hv
  obtain ⟨w, hw, h1, h2, -⟩ := h.within v hv
  rcases hd w hw with h3 | h3
  · exact .inl (Nat.le_trans h2 h3)
  · exact .inr (Nat.le_trans h3 h1)

theorem Refined.cutAt_iff (h : Refined c l l') (ho : spans.Ordered l) (hd : d ≠ c) :
    spans.CutAt d l' ↔ spans.CutAt d l := by
  refine ⟨fun hcut v hv => ?_, h.cutAt⟩
  by_contra hover
  have hover : ¬ (v.fin ≤ d ∨ d ≤ v.start) := hover
  -- the area that covers the address below `d` ends at `d`, so one of the old ones does
  have hget := (h.same (d - 1)).trans (ho.get_of_mem hv
    (by show v.start ≤ d - 1 ∧ d - 1 < v.fin; omega))
  obtain ⟨u, hu, hc, -⟩ := (Spans.get_eq_some h.ordered).1 hget
  have hc : u.start ≤ d - 1 ∧ d - 1 < u.fin := hc
  have hend : u.fin ≤ d ∨ d ≤ u.start := hcut u hu
  rcases h.right u hu with he | ⟨w, hw, he, -⟩
  · omega
  · have hp : w.start < w.fin := ho.proper w hw
    have happart : w = v ∨ w.fin ≤ v.start ∨ v.fin ≤ w.start := ho.apart_of_mem hw hv
    rcases happart with rfl | h1
    · omega
    · omega

theorem refined_split (h : spans.Ordered (before ++ v :: rest)) (h1 : v.start < c)
    (h2 : c < v.fin) :
    Refined c (before ++ v :: rest)
      (before ++ { v with fin := c } :: ⟨c, v.fin, v.flags⟩ :: rest) := by
  obtain ⟨hb, hv, hbv⟩ := Spans.ordered_append.1 h
  obtain ⟨-, hvr, hr⟩ := ordered_cons_iff.1 hv
  have hmem : ∀ u ∈ before ++ { v with fin := c } :: ⟨c, v.fin, v.flags⟩ :: rest,
      u ∈ before ++ v :: rest ∨ u = { v with fin := c } ∨ u = ⟨c, v.fin, v.flags⟩ := by
    intro u hu
    simp only [mem_append, mem_cons] at hu ⊢
    tauto
  have hvm : v ∈ before ++ v :: rest := by simp
  refine ⟨Spans.ordered_append.2 ⟨hb, ?_, ?_⟩, fun x => ?_, fun u hu => ?_, fun u hu => ?_,
    fun u hu => ?_⟩
  · refine ordered_cons_iff.2 ⟨h1, ?_, ordered_cons_iff.2 ⟨h2, hvr, hr⟩⟩
    exact forall_mem_cons.2 ⟨le_rfl, fun u hu => h2.le.trans (hvr u hu)⟩
  · intro u hu
    obtain ⟨huv, hur⟩ := forall_mem_cons.1 (hbv u hu)
    exact forall_mem_cons.2 ⟨huv, forall_mem_cons.2 ⟨huv.trans h1.le, hur⟩⟩
  · rw [Spans.get_append, Spans.get_append]
    congr 1
    exact (get_merged (v := { v with fin := c }) (w := ⟨c, v.fin, v.flags⟩) rfl rfl h1 h2).symm
  · rcases hmem u hu with hu | rfl | rfl
    · exact ⟨u, hu, le_rfl, le_rfl, rfl⟩
    · exact ⟨v, hvm, le_rfl, h2.le, rfl⟩
    · exact ⟨v, hvm, h1.le, le_rfl, rfl⟩
  · rcases hmem u hu with hu | rfl | rfl
    · exact .inr ⟨u, hu, rfl, rfl⟩
    · exact .inr ⟨v, hvm, rfl, rfl⟩
    · exact .inl rfl
  · rcases hmem u hu with hu | rfl | rfl
    · exact .inr ⟨u, hu, rfl, rfl⟩
    · exact .inl rfl
    · exact .inr ⟨v, hvm, rfl, rfl⟩

/-! ## Whole areas -/

theorem cut_cases (h1 : spans.CutAt start l) (h2 : spans.CutAt fin l) (hv : v ∈ l) :
    (v.fin ≤ start ∨ fin ≤ v.start) ∨ start ≤ v.start ∧ v.fin ≤ fin := by
  have h1 : v.fin ≤ start ∨ start ≤ v.start := h1 v hv
  have h2 : v.fin ≤ fin ∨ fin ≤ v.start := h2 v hv
  omega

theorem removeRange_eq : ∀ {l : List Vma}, spans.Ordered l →
    removeRange start fin l = l.filter fun v => decide (v.fin ≤ start ∨ fin ≤ v.start) := by
  intro l
  induction l with
  | nil => exact fun _ => rfl
  | cons v l ih =>
    intro h
    obtain ⟨hv, hvl, hl⟩ := ordered_cons_iff.1 h
    unfold removeRange
    split <;> rename_i h1
    · rw [filter_cons_of_pos (by simp [h1]), ih hl]
    · by_cases h2 : fin ≤ v.start
      · have hrest : ∀ w ∈ l, decide (w.fin ≤ start ∨ fin ≤ w.start) = true := by
          intro w hw
          have := hvl w hw
          exact decide_eq_true (.inr (by omega))
        rw [if_pos h2, filter_cons_of_pos (by simp [h2]), filter_eq_self.2 hrest]
      · rw [if_neg h2, filter_cons_of_neg (by simp [h1, h2]), ih hl]

theorem setFlags_eq : ∀ {l : List Vma}, spans.Ordered l → setFlags start fin fl l =
      l.map fun v => if v.fin ≤ start ∨ fin ≤ v.start then v else { v with flags := fl } := by
  intro l
  induction l with
  | nil => exact fun _ => rfl
  | cons v l ih =>
    intro h
    obtain ⟨hv, hvl, hl⟩ := ordered_cons_iff.1 h
    unfold setFlags
    rw [map_cons]
    split
    · rename_i h1
      rw [if_pos (.inl h1), ih hl]
    · by_cases h2 : fin ≤ v.start
      · have hrest : l.map (fun v => if v.fin ≤ start ∨ fin ≤ v.start then v
            else { v with flags := fl }) = l := by
          refine (map_congr_left fun w hw => ?_).trans (map_id l)
          have := hvl w hw
          exact if_pos (.inr (by omega))
        rw [if_pos h2, if_pos (.inr h2), hrest]
      · rw [if_neg h2, if_neg (by omega), ih hl]

theorem mem_removeRange (h : spans.Ordered l) :
    v ∈ removeRange start fin l ↔ v ∈ l ∧ (v.fin ≤ start ∨ fin ≤ v.start) := by
  rw [removeRange_eq h, mem_filter, decide_eq_true_iff]

theorem ordered_removeRange (h : spans.Ordered l) : spans.Ordered (removeRange start fin l) := by
  rw [removeRange_eq h]
  exact h.sublist filter_sublist

theorem get_removeRange (h : spans.Ordered l) (h1 : spans.CutAt start l)
    (h2 : spans.CutAt fin l) : spans.get (removeRange start fin l) x =
      if start ≤ x ∧ x < fin then none else spans.get l x := by
  split
  · refine Spans.get_eq_none.2 fun v hv hc => ?_
    have hc : v.start ≤ x ∧ x < v.fin := hc
    have := ((mem_removeRange h).1 hv).2
    omega
  · cases hg : spans.get l x with
    | none =>
      exact Spans.get_eq_none.2 fun v hv =>
        Spans.get_eq_none.1 hg v ((mem_removeRange h).1 hv).1
    | some f =>
      obtain ⟨v, hv, hc, hf⟩ := (Spans.get_eq_some h).1 hg
      refine (Spans.get_eq_some (ordered_removeRange h)).2
        ⟨v, (mem_removeRange h).2 ⟨hv, ?_⟩, hc, hf⟩
      have hc : v.start ≤ x ∧ x < v.fin := hc
      exact (cut_cases h1 h2 hv).resolve_right (by omega)

theorem setFlags_spec (fl : Pgprot) (h : spans.Ordered l) (h1 : spans.CutAt start l)
    (h2 : spans.CutAt fin l) : spans.Ordered (setFlags start fin fl l) ∧
      (∀ w ∈ setFlags start fin fl l, w.flags = fl ∨ ∃ v ∈ l, w.flags = v.flags) ∧
      ∀ x, spans.get (setFlags start fin fl l) x =
        if start ≤ x ∧ x < fin then (spans.get l x).map fun _ => fl else spans.get l x := by
  let f : Vma → Vma := fun v =>
    if v.fin ≤ start ∨ fin ≤ v.start then v else { v with flags := fl }
  have hspan : ∀ v, (f v).start = v.start ∧ (f v).fin = v.fin := by
    intro v
    simp only [f]
    split <;> exact ⟨rfl, rfl⟩
  rw [show setFlags start fin fl l = l.map f from setFlags_eq h]
  refine ⟨⟨?_, ?_⟩, ?_, fun x => ?_⟩
  · refine pairwise_map.2 (h.apart.imp fun {a b} hab => ?_)
    show (f a).fin ≤ (f b).start
    rw [(hspan a).2, (hspan b).1]
    exact hab
  · intro w hw
    obtain ⟨v, hv, rfl⟩ := mem_map.1 hw
    show (f v).start < (f v).fin
    rw [(hspan v).1, (hspan v).2]
    exact h.proper v hv
  · intro w hw
    obtain ⟨v, hv, rfl⟩ := mem_map.1 hw
    simp only [f]
    split
    · exact .inr ⟨v, hv, rfl⟩
    · exact .inl rfl
  · -- area by area: one that covers `x` has the new flags when `x` is in the range
    clear h
    induction l with
    | nil => simp
    | cons v l ih =>
      have hcut := cut_cases h1 h2 mem_cons_self
      rw [map_cons, get_cons_eq, get_cons_eq, (hspan v).1, (hspan v).2,
        ih (fun w hw => h1 w (mem_cons_of_mem _ hw)) fun w hw => h2 w (mem_cons_of_mem _ hw)]
      by_cases hc : v.start ≤ x ∧ x < v.fin
      · rw [if_pos hc, if_pos hc]
        simp only [f]
        by_cases hx : start ≤ x ∧ x < fin
        · rw [if_pos hx, if_neg (by omega)]
          rfl
        · rw [if_neg hx, if_pos (by omega)]
      · rw [if_neg hc, if_neg hc]

/-- A list that was split at both ends of a range, without the areas of the range. -/
theorem removeRange_ok (h : Ok l) (hr₁ : Refined start l l₁)
    (hr₂ : Refined fin l₁ l') (hsf : start < fin) : Ok (removeRange start fin l') := by
  refine ⟨ordered_removeRange hr₂.ordered, ?_, ?_⟩
  · -- what touches in the result touched before: the new boundaries lie at the removed range
    intro v hv w hw ht
    obtain ⟨hv, hvout⟩ := (mem_removeRange hr₂.ordered).1 hv
    obtain ⟨hw, hwout⟩ := (mem_removeRange hr₂.ordered).1 hw
    have hvp : v.start < v.fin := hr₂.ordered.proper v hv
    have hwp : w.start < w.fin := hr₂.ordered.proper w hw
    obtain ⟨u, hu, he, hf⟩ := (hr₂.right v hv).resolve_left (by omega)
    obtain ⟨a, ha, hea, hfa⟩ := (hr₁.right u hu).resolve_left (by omega)
    obtain ⟨u', hu', he', hf'⟩ := (hr₂.left w hw).resolve_left (by omega)
    obtain ⟨b, hb, heb, hfb⟩ := (hr₁.left u' hu').resolve_left (by omega)
    rw [← hf, ← hfa, ← hf', ← hfb]
    exact h.tight a ha b hb (by omega)
  · intro v hv
    obtain ⟨u, hu, -, -, hf⟩ := hr₂.within v ((mem_removeRange hr₂.ordered).1 hv).1
    obtain ⟨u', hu', -, -, hf'⟩ := hr₁.within u hu
    rw [hf, hf']
    exact h.marked u' hu'

/-! ## Lookups -/

theorem find_eq (h : Ok l) : (find l x).isSome ↔ (spans.get l x).isSome := by
  unfold find Spans.get
  rw [Option.isSome_map, List.find?_isSome, List.find?_isSome]
  refine exists_congr fun v => and_congr_right fun hv => ?_
  rw [bne_iff_ne.2 (h.marked v hv), Bool.and_true]
  rfl

theorem mappedFrom_iff : ∀ {l : List Vma} {c : Nat}, spans.Ordered l → c < fin →
    (mappedFrom fin c l = true ↔ ∀ x, c ≤ x → x < fin → (spans.get l x).isSome) := by
  intro l
  induction l with
  | nil =>
    intro c _ hc
    exact ⟨nofun, fun h => absurd (h c le_rfl hc) (by simp)⟩
  | cons v l ih =>
    intro c h hc
    obtain ⟨hv, hvl, hl⟩ := ordered_cons_iff.1 h
    unfold mappedFrom
    by_cases h1 : v.fin ≤ c
    · -- an area below the cursor does not matter
      rw [if_pos h1, ih hl hc]
      refine forall_congr' fun x => imp_congr_right fun hx => imp_congr_right fun _ => ?_
      rw [get_cons_eq, if_neg (by omega)]
    · rw [if_neg h1]
      split
      · refine ⟨nofun, fun hall => ?_⟩
        have := hall c le_rfl hc
        rw [get_cons_eq, if_neg (by omega), h.get_tail (by show c < v.fin; omega)] at this
        cases this
      · split
        · refine ⟨fun _ x hx hxf => ?_, fun _ => rfl⟩
          rw [get_cons_eq, if_pos (by omega)]
          rfl
        · rw [ih hl (by omega)]
          constructor
          · intro hall x hx hxf
            rw [get_cons_eq]
            split
            · rfl
            · exact hall x (by omega) hxf
          · intro hall x hx hxf
            have := hall x (by omega) hxf
            rwa [get_cons_eq, if_neg (by omega)] at this

/-! ## Insertion -/

theorem place_spec : ∀ {l : List Vma}, spans.Ordered l → new.start < new.fin →
    (place new l = none ∧ ∃ v ∈ l, v.start < new.fin ∧ new.start < v.fin) ∨
      ∃ before after, place new l = some (before, after) ∧ l = before ++ after ∧
        (∀ v ∈ before, v.fin ≤ new.start) ∧ ∀ v ∈ after, new.fin ≤ v.start := by
  intro l
  induction l with
  | nil => exact fun _ _ => .inr ⟨[], [], rfl, rfl, nofun, nofun⟩
  | cons v l ih =>
    intro h hnew
    obtain ⟨hv, hvl, hl⟩ := ordered_cons_iff.1 h
    unfold place
    by_cases h1 : new.fin ≤ v.start
    · refine .inr ⟨[], v :: l, if_pos h1, rfl, nofun, forall_mem_cons.2 ⟨h1, fun w hw => ?_⟩⟩
      have := hvl w hw
      omega
    · rw [if_neg h1]
      by_cases h2 : new.start < v.fin
      · exact .inl ⟨if_pos h2, v, mem_cons_self, by omega, h2⟩
      · rw [if_neg h2]
        rcases ih hl hnew with ⟨he, w, hw, hmeet⟩ | ⟨before, after, he, rfl, hb, ha⟩
        · exact .inl ⟨by rw [he]; rfl, w, mem_cons_of_mem _ hw, hmeet⟩
        · exact .inr ⟨v :: before, after, by rw [he]; rfl, rfl,
            forall_mem_cons.2 ⟨by omega, hb⟩, ha⟩

theorem mergePrev_spec (h : spans.Ordered (before ++ new :: after)) :
    ∃ b n, mergePrev before new = (b, n) ∧ spans.Ordered (b ++ n :: after) ∧
      n.flags = new.flags ∧ n.fin = new.fin ∧ (∀ v ∈ b, v ∈ before) ∧
      (Sealed before → ∀ v ∈ b, v.fin = n.start → v.flags ≠ n.flags) ∧
      ∀ x, spans.get (b ++ n :: after) x = spans.get (before ++ new :: after) x := by
  rcases eq_nil_or_concat before with rfl | ⟨init, prev, rfl⟩
  · exact ⟨[], new, rfl, h, rfl, rfl, fun _ hv => hv, nofun, fun _ => rfl⟩
  · rw [concat_eq_append] at h ⊢
    rw [append_assoc] at h
    obtain ⟨hi, hp, hip⟩ := Spans.ordered_append.1 h
    obtain ⟨hprev, hpn, hn⟩ := ordered_cons_iff.1 hp
    unfold mergePrev
    rw [List.getLast?_concat]
    dsimp only
    cases hm : merge prev new with
    | none =>
      refine ⟨init ++ [prev], new, rfl, by rwa [append_assoc], rfl, rfl, fun _ hv => hv, ?_,
        fun _ => rfl⟩
      intro _ v hv ht
      rcases mem_append.1 hv with hv | hv
      · have h1 : v.fin ≤ prev.start := hip v hv prev mem_cons_self
        have h2 := hpn new mem_cons_self
        omega
      · obtain rfl := mem_singleton.1 hv
        exact merge_eq_none hm ht
    | some u =>
      obtain ⟨ht, hf, rfl⟩ := merge_eq_some hm
      refine ⟨init, { prev with fin := new.fin }, ?_, Spans.ordered_append.2 ⟨hi, ordered_merged hp ht,
        fun v hv => ?_⟩, hf, rfl, fun v hv => mem_append_left _ hv, ?_, fun x => ?_⟩
      · rw [dropLast_concat]
      · obtain ⟨hvp, -, hva⟩ := (forall_mem_cons.1 (hip v hv)).imp_right forall_mem_cons.1
        exact forall_mem_cons.2 ⟨hvp, hva⟩
      · intro hs v hv ht'
        exact hs v (mem_append_left _ hv) prev (by simp) ht'
      · rw [append_assoc, Spans.get_append, Spans.get_append,
          get_merged ht hf hprev (ordered_cons_iff.1 hn).1]
        rfl

theorem mergeNext_spec (h : spans.Ordered (before ++ new :: after)) :
    ∃ n a, mergeNext new after = n :: a ∧ spans.Ordered (before ++ n :: a) ∧
      n.flags = new.flags ∧ n.start = new.start ∧ (∀ v ∈ a, v ∈ after) ∧
      (Sealed after → ∀ v ∈ a, n.fin = v.start → n.flags ≠ v.flags) ∧
      ∀ x, spans.get (before ++ n :: a) x = spans.get (before ++ new :: after) x := by
  cases after with
  | nil =>
    exact ⟨new, [], rfl, h, rfl, rfl, fun _ hv => hv, nofun, fun _ => rfl⟩
  | cons next rest =>
    obtain ⟨hb, hn, hbn⟩ := Spans.ordered_append.1 h
    obtain ⟨hnew, hnn, hnext⟩ := ordered_cons_iff.1 hn
    obtain ⟨hnext', hnr, -⟩ := ordered_cons_iff.1 hnext
    unfold mergeNext
    dsimp only
    cases hm : merge new next with
    | none =>
      refine ⟨new, next :: rest, rfl, h, rfl, rfl, fun _ hv => hv, ?_, fun _ => rfl⟩
      intro _ v hv ht
      rcases mem_cons.1 hv with rfl | hv'
      · exact merge_eq_none hm ht
      · have h1 := hnr v hv'
        have h2 := hnn next mem_cons_self
        omega
    | some u =>
      obtain ⟨ht, hf, rfl⟩ := merge_eq_some hm
      refine ⟨{ new with fin := next.fin }, rest, rfl, Spans.ordered_append.2 ⟨hb, ordered_merged hn ht,
        fun v hv => ?_⟩, rfl, rfl, fun v hv => mem_cons_of_mem _ hv, ?_, fun x => ?_⟩
      · obtain ⟨hvn, -, hvr⟩ := (forall_mem_cons.1 (hbn v hv)).imp_right forall_mem_cons.1
        exact forall_mem_cons.2 ⟨hvn, hvr⟩
      · intro hs v hv ht'
        rw [hf]
        exact hs next mem_cons_self v (mem_cons_of_mem _ hv) ht'
      · rw [Spans.get_append, Spans.get_append, get_merged ht hf hnew hnext']

theorem insert_spec (new : Vma) (h : Ok l) (hnew : new.start < new.fin) (hf : new.flags ≠ 0) :
    (insert l new = (-efault, l) ∧ ∃ v ∈ l, v.start < new.fin ∧ new.start < v.fin) ∨
      ∃ l', insert l new = (0, l') ∧ Ok l' ∧ (∀ v ∈ l, v.fin ≤ new.start ∨ new.fin ≤ v.start) ∧
        ∀ x, spans.get l' x =
          if new.start ≤ x ∧ x < new.fin then some new.flags else spans.get l x := by
  unfold insert
  rcases place_spec h.ordered hnew with ⟨he, hmeet⟩ | ⟨before, after, he, rfl, hb, ha⟩
  · exact .inl ⟨by rw [he], hmeet⟩
  · right
    obtain ⟨hob, hoa, hba⟩ := Spans.ordered_append.1 h.ordered
    have ho : spans.Ordered (before ++ new :: after) := by
      exact Spans.ordered_append.2 ⟨hob, ordered_cons_iff.2 ⟨hnew, ha, hoa⟩, fun v hv =>
        forall_mem_cons.2 ⟨hb v hv, hba v hv⟩⟩
    obtain ⟨b, n, hprev, ho₁, hf₁, hfin₁, hsub₁, hseal₁, hget₁⟩ := mergePrev_spec ho
    obtain ⟨n', a, hnext, ho₂, hf₂, hstart₂, hsub₂, hseal₂, hget₂⟩ := mergeNext_spec ho₁
    refine ⟨b ++ n' :: a, ?_, ⟨ho₂, ?_, ?_⟩, fun v hv => ?_, fun x => ?_⟩
    · rw [he]
      simp only [hprev, hnext]
    · have hsb : Sealed before := fun p hp q hq =>
        h.tight p (mem_append_left _ hp) q (mem_append_left _ hq)
      have hsa : Sealed after := fun p hp q hq =>
        h.tight p (mem_append_right _ hp) q (mem_append_right _ hq)
      -- the two areas are old ones, or one of them is the new one
      refine (sealed_iff ho₂).2 (pairwise_append.2 ⟨?_, pairwise_cons.2 ⟨?_, ?_⟩, fun v hv => ?_⟩)
      · exact pairwise_of_forall_mem_list fun v hv w hw => hsb v (hsub₁ v hv) w (hsub₁ w hw)
      · exact hseal₂ hsa
      · exact pairwise_of_forall_mem_list fun v hv w hw => hsa v (hsub₂ v hv) w (hsub₂ w hw)
      · refine forall_mem_cons.2 ⟨fun ht => ?_, fun w hw => ?_⟩
        · rw [hf₂]
          exact hseal₁ hsb v hv (ht.trans hstart₂)
        · exact h.tight v (mem_append_left _ (hsub₁ v hv)) w (mem_append_right _ (hsub₂ w hw))
    · intro v hv
      simp only [mem_append, mem_cons] at hv
      rcases hv with hv | rfl | hv
      · exact h.marked v (mem_append_left _ (hsub₁ v hv))
      · rw [hf₂, hf₁]
        exact hf
      · exact h.marked v (mem_append_right _ (hsub₂ v hv))
    · rcases mem_append.1 hv with hv | hv
      · exact .inl (hb v hv)
      · exact .inr (ha v hv)
    · rw [hget₂, hget₁, Spans.get_append, Spans.get_append, get_cons_eq]
      split
      · rw [Spans.get_eq_none.2 fun v hv hc => ?_]
        · rfl
        · have h1 := hb v hv
          have hc : v.start ≤ x ∧ x < v.fin := hc
          omega
      · rfl

end ZzzOs.Mm.Vma
