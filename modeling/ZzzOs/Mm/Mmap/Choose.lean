import ZzzOs.Mm.Mmap.Model
import ZzzOs.Mm.Vma.Ops

/-!
# The address that `sys_mmap` takes

A range is free (`Free`) when it lies in the part of the address space that `mmap` hands out and
meets no area. `find_free_range_from` finds the lowest free range on a page boundary
(`findFreeRangeFrom_spec`), so what `sys_mmap` takes is determined by the areas, the hint and
the end of the heap alone (`Chosen`, `target_ok_iff`).
-/

namespace ZzzOs.Mm.Mmap

open Nat List Lib Vma

variable {l l' : List Vma} {x start len cursor t addr start' r e hint : Nat}
  {flags prot : BitVec 32} {mm : MmStruct} {v : Vma} {ret : Int}

/-- The range lies where `mmap` may put it. -/
def InBounds (start len : Nat) : Prop := pageSize ≤ start ∧ start + len ≤ userSigtrampAddr

/-- No area meets the range. -/
def Clear (l : List Vma) (start len : Nat) : Prop :=
  ∀ v ∈ l, v.fin ≤ start ∨ start + len ≤ v.start

def Free (l : List Vma) (start len : Nat) : Prop := InBounds start len ∧ Clear l start len

instance : Decidable (Free l start len) :=
  inferInstanceAs (Decidable ((_ ∧ _) ∧ ∀ v ∈ l, v.fin ≤ start ∨ start + len ≤ v.start))

structure LowestFree (l : List Vma) (start len t : Nat) : Prop where
  aligned : pageSize ∣ t
  above : start ≤ t
  free : Free l t len
  lowest : ∀ x, pageSize ∣ x → start ≤ x → Free l x len → t ≤ x

structure Areas (l : List Vma) : Prop where
  ordered : spans.Ordered l
  word : ∀ v ∈ l, v.fin < 2 ^ 64

theorem Areas.tail (h : Areas (v :: l)) : Areas l :=
  ⟨h.ordered.tail, fun w hw => h.word w (mem_cons_of_mem _ hw)⟩

theorem mmapRangeValid_iff (hs : start < 2 ^ 64) (hl : 0 < len) (hlen : len < 2 ^ 64) :
    mmapRangeValid start len = true ↔ InBounds start len := by
  have hsig : userSigtrampAddr < 2 ^ 64 := by decide
  unfold mmapRangeValid InBounds
  rw [if_neg (by omega)]
  split
  · exact iff_of_false Bool.false_ne_true fun h => by omega
  · split
    · exact iff_of_false Bool.false_ne_true fun h => by omega
    · split
      · exact iff_of_false Bool.false_ne_true fun h => by omega
      · exact ⟨fun _ => by omega, fun _ => rfl⟩

theorem mmapRangeValid_zero : mmapRangeValid start 0 = false := rfl

theorem clear_cons : Clear (v :: l) x len ↔
    (v.fin ≤ x ∨ x + len ≤ v.start) ∧ Clear l x len := forall_mem_cons

theorem clear_below (h : spans.Ordered (v :: l)) (hx : x + len ≤ v.start) :
    Clear (v :: l) x len := by
  obtain ⟨hv, hvl, -⟩ := ordered_cons_iff.1 h
  refine clear_cons.2 ⟨.inr hx, fun w hw => .inr ?_⟩
  have := hvl w hw
  omega

theorem freeFrom_iff : ∀ {l : List Vma}, spans.Ordered l →
    (freeFrom start (start + len) l = true ↔ Clear l start len) := by
  intro l
  induction l with
  | nil => exact fun _ => ⟨fun _ => nofun, fun _ => rfl⟩
  | cons v l ih =>
    intro h
    unfold freeFrom
    split
    · rename_i h1
      rw [ih h.tail, clear_cons]
      exact ⟨fun hc => ⟨.inl h1, hc⟩, fun hc => hc.2⟩
    · split_ifs with h2
      · exact ⟨fun _ => clear_below h h2, fun _ => rfl⟩
      · refine ⟨nofun, fun hc => ?_⟩
        have := (clear_cons.1 hc).1
        omega

theorem vmaRangeIsFree_iff (h : Areas l) (hs : start < 2 ^ 64) (hl : 0 < len)
    (hlen : len < 2 ^ 64) : vmaRangeIsFree l start len = true ↔ Free l start len := by
  have hvalid := mmapRangeValid_iff hs hl hlen
  unfold vmaRangeIsFree
  by_cases hb : InBounds start len
  · have hsig : userSigtrampAddr < 2 ^ 64 := by decide
    rw [if_pos (hvalid.2 hb), mod_eq_of_lt (by have := hb.2; omega), freeFrom_iff h.ordered]
    exact ⟨fun hc => ⟨hb, hc⟩, fun hf => hf.2⟩
  · rw [if_neg (mt hvalid.1 hb)]
    exact iff_of_false Bool.false_ne_true fun hf => hb hf.1

/-! ## The scan -/

/-- What the search from `start` comes to. -/
def Found (l : List Vma) (start len t : Nat) : Prop :=
  LowestFree l start len t ∨ t = 0 ∧ ∀ x, pageSize ∣ x → start ≤ x → ¬ Free l x len

theorem Found.congr (h : Found l' start' len t)
    (hsame : ∀ x, pageSize ∣ x → (start ≤ x ∧ Free l x len ↔ start' ≤ x ∧ Free l' x len)) :
    Found l start len t := by
  rcases h with h | ⟨ht, h⟩
  · obtain ⟨h1, h2⟩ := (hsame t h.aligned).2 ⟨h.above, h.free⟩
    refine .inl ⟨h.aligned, h1, h2, fun x hx hxs hf => ?_⟩
    obtain ⟨h3, h4⟩ := (hsame x hx).1 ⟨hxs, hf⟩
    exact h.lowest x hx h3 h4
  · refine .inr ⟨ht, fun x hx hxs hf => ?_⟩
    obtain ⟨h3, h4⟩ := (hsame x hx).1 ⟨hxs, hf⟩
    exact h x hx h3 h4

/-- The end of an area, rounded up, unless that is beyond all words. -/
theorem alignUp_end (he : e < 2 ^ 64) :
    (alignUp e pageSize = 0 ∧ userSigtrampAddr < e) ∨ e ≤ alignUp e pageSize ∧ ∀ x, pageSize ∣ x → e ≤ x →
      alignUp e pageSize ≤ x := by
  by_cases hw : e + 4095 < 2 ^ 64
  · obtain ⟨h1, h2⟩ := alignUp_bounds (by decide) (show e + (pageSize - 1) < _ from hw)
    refine .inr ⟨h1, fun x hx hex => ?_⟩
    have hd : 4096 ∣ alignUp e pageSize := dvd_alignUp e pageSize
    have h2 : alignUp e pageSize ≤ e + 4095 := h2
    have hx : 4096 ∣ x := hx
    omega
  · have hsig : userSigtrampAddr < 2 ^ 64 - 4096 := by decide
    refine .inl ⟨?_, by omega⟩
    unfold alignUp alignDown
    rw [show pageSize = 4096 from rfl, show (4096 : Nat) - 1 = 4095 from rfl]
    omega

theorem scan_spec (hl : 0 < len) (hlen : len < 2 ^ 64) : ∀ {l : List Vma} {cursor : Nat},
    Areas l → pageSize ∣ cursor → InBounds cursor len → Found l cursor len (scan len cursor l) := by
  have hsig : userSigtrampAddr < 2 ^ 64 - 4096 := by decide
  intro l
  induction l with
  | nil =>
    intro cursor _ hc hb
    unfold scan
    rw [if_pos ((mmapRangeValid_iff (by have := hb.2; omega) hl hlen).2 hb)]
    exact .inl ⟨hc, le_rfl, ⟨hb, nofun⟩, fun x _ hx _ => hx⟩
  | cons v l ih =>
    intro cursor h hc hb
    have hb' := hb
    unfold InBounds at hb'
    have hword := h.word v mem_cons_self
    unfold scan
    split
    · rename_i h1
      refine (ih h.tail hc hb).congr fun x _ => and_congr_right fun hx => and_congr_right fun _ => ?_
      rw [clear_cons]
      exact ⟨fun hf => hf.2, fun hf => ⟨.inl (h1.trans hx), hf⟩⟩
    · rw [mod_eq_of_lt (by omega)]
      by_cases h2 : cursor + len ≤ v.start
      · rw [if_pos h2]
        exact .inl ⟨hc, le_rfl, ⟨hb, clear_below h.ordered h2⟩, fun x _ hx _ => hx⟩
      · -- a free range from here on lies above this area
        rw [if_neg h2]
        rw [if_pos (show cursor < v.fin by omega)]
        have habove : ∀ x, cursor ≤ x → Free (v :: l) x len → v.fin ≤ x := by
          intro x hx hf
          have := (clear_cons.1 hf.2).1
          omega
        rcases alignUp_end hword with ⟨hz, hfar⟩ | ⟨hge, hle⟩
        · rw [hz, if_neg (by rw [mmapRangeValid_iff (by omega) hl hlen]; exact fun h => by cases h.1)]
          refine .inr ⟨rfl, fun x _ hx hf => ?_⟩
          have h3 := habove x hx hf
          have h4 := hf.1.2
          omega
        · have hnext : ∀ x, pageSize ∣ x → cursor ≤ x → Free (v :: l) x len →
              alignUp v.fin pageSize ≤ x := fun x hx hcx hf => hle x hx (habove x hcx hf)
          have hd : pageSize ∣ alignUp v.fin pageSize := dvd_alignUp _ _
          have hlt : alignUp v.fin pageSize < 2 ^ 64 := by
            refine (alignDown_le _ _).trans_lt (mod_lt _ (by decide))
          by_cases hvalid : InBounds (alignUp v.fin pageSize) len
          · rw [if_pos ((mmapRangeValid_iff hlt hl hlen).2 hvalid)]
            refine (ih h.tail hd hvalid).congr fun x hx => ⟨?_, ?_⟩
            · rintro ⟨hcx, hf⟩
              exact ⟨hnext x hx hcx hf, hf.1, (clear_cons.1 hf.2).2⟩
            · rintro ⟨hcx, hf⟩
              exact ⟨by omega, hf.1, clear_cons.2 ⟨.inl (by omega), hf.2⟩⟩
          · -- what is free above would leave room at the cursor
            rw [if_neg (mt (mmapRangeValid_iff hlt hl hlen).1 hvalid)]
            refine .inr ⟨rfl, fun x hx hcx hf => hvalid ?_⟩
            have h3 := hnext x hx hcx hf
            have h4 := hf.1.2
            exact ⟨by omega, by omega⟩

theorem findFreeRangeFrom_spec (hl : 0 < len) (hlen : len < 2 ^ 64) (h : Areas l)
    (hs : pageSize ∣ start) (hlow : pageSize ≤ start) (hword : start < 2 ^ 64) :
    Found l start len (findFreeRangeFrom l start len) := by
  unfold findFreeRangeFrom
  by_cases hb : InBounds start len
  · rw [if_pos ((mmapRangeValid_iff hword hl hlen).2 hb)]
    exact scan_spec hl hlen h hs hb
  · rw [if_neg (mt (mmapRangeValid_iff hword hl hlen).1 hb)]
    refine .inr ⟨rfl, fun x _ hx hf => hb ⟨hlow, ?_⟩⟩
    have := hf.1.2
    omega

/-! ## The choice -/

/-- The base of the search: the page after the heap's last page, if that is an address at all. -/
theorem mmapBase_spec (brk : Nat) : pageSize ∣ mmapBase brk ∧ pageSize ≤ mmapBase brk ∧
    mmapBase brk < 2 ^ 64 ∧ mmapBase brk ≤ (brk + 4095) / 4096 * 4096 + 4096 := by
  unfold mmapBase
  dsimp only
  have hp : pageSize = 4096 := rfl
  split
  · exact ⟨dvd_rfl, le_rfl, by decide, by omega⟩
  · refine ⟨dvd_alignUp _ _, by omega, (alignDown_le _ _).trans_lt (mod_lt _ (by decide)), ?_⟩
    unfold alignUp alignDown
    rw [hp, show (4096 : Nat) - 1 = 4095 from rfl]
    omega

/-- The address that a request is to have: the address asked for when it is fixed or free; else the
lowest free one above the hint, or, when the hint lies below the heap or nothing is free above it, above
the heap. -/
def Chosen (mm : MmStruct) (addr len : Nat) (flags : BitVec 32) (t : Nat) : Prop :=
  if flags &&& mapFixed ≠ 0 then pageSize ∣ addr ∧ Free mm.vmas.list addr len ∧ t = addr
  else if Free mm.vmas.list (alignDown addr pageSize) len then t = alignDown addr pageSize
  else
    mmapBase mm.brk ≤ alignDown addr pageSize ∧
        LowestFree mm.vmas.list (alignDown addr pageSize) len t ∨
      (alignDown addr pageSize < mmapBase mm.brk ∨ ∀ x, pageSize ∣ x →
          alignDown addr pageSize ≤ x → ¬ Free mm.vmas.list x len) ∧
        LowestFree mm.vmas.list (mmapBase mm.brk) len t

theorem LowestFree.ne_zero (h : LowestFree l start len t) : t ≠ 0 := by
  have : 4096 ≤ t := h.free.1.1
  omega

theorem Found.eq_iff (h : Found l start len r) : r ≠ 0 ∧ r = t ↔ LowestFree l start len t := by
  constructor
  · rintro ⟨hr, rfl⟩
    exact h.resolve_right fun hz => hr hz.1
  · intro ht
    have h := h.resolve_right fun hno => hno.2 t ht.aligned ht.above ht.free
    exact ⟨h.ne_zero, le_antisymm (h.lowest t ht.aligned ht.above ht.free)
      (ht.lowest r h.aligned h.above h.free)⟩

theorem findFreeRange_eq_iff (hl : 0 < len) (hlen : len < 2 ^ 64)
    (h : Areas mm.vmas.list) (hd : pageSize ∣ hint) (hword : hint < 2 ^ 64) :
    findFreeRange mm hint len ≠ 0 ∧ findFreeRange mm hint len = t ↔
      mmapBase mm.brk ≤ hint ∧ LowestFree mm.vmas.list hint len t ∨
        (hint < mmapBase mm.brk ∨ ∀ x, pageSize ∣ x → hint ≤ x → ¬ Free mm.vmas.list x len) ∧
          LowestFree mm.vmas.list (mmapBase mm.brk) len t := by
  obtain ⟨hbd, hbl, hbw, -⟩ := mmapBase_spec mm.brk
  have hbase := findFreeRangeFrom_spec hl hlen h hbd hbl hbw
  unfold findFreeRange
  dsimp only
  split <;> rename_i hge
  · have hhint := findFreeRangeFrom_spec hl hlen h hd (hbl.trans hge) hword
    by_cases hz : findFreeRangeFrom mm.vmas.list hint len = 0
    · -- nothing is free above the hint
      have hnone := (hhint.resolve_left fun hf => hf.ne_zero hz).2
      rw [if_neg (not_not.2 hz), hbase.eq_iff]
      constructor
      · exact fun ht => .inr ⟨.inr hnone, ht⟩
      · rintro (⟨-, ht⟩ | ⟨-, ht⟩)
        · exact absurd ht.free (hnone t ht.aligned ht.above)
        · exact ht
    · rw [if_pos hz, hhint.eq_iff]
      constructor
      · exact fun ht => .inl ⟨hge, ht⟩
      · rintro (⟨-, ht⟩ | ⟨hlt | hnone, -⟩)
        · exact ht
        · omega
        · have hf := (hhint.eq_iff).1 ⟨hz, rfl⟩
          exact absurd hf.free (hnone _ hf.aligned hf.above)
  · rw [hbase.eq_iff]
    constructor
    · exact fun ht => .inr ⟨.inl (by omega), ht⟩
    · rintro (⟨hle, -⟩ | ⟨-, ht⟩)
      · exact absurd hle hge
      · exact ht

theorem target_ok_iff (hl : 0 < len) (hlen : len < 2 ^ 64) (haddr : addr < 2 ^ 64)
    (h : Areas mm.vmas.list) : target mm addr len flags = .ok t ↔ Chosen mm addr len flags t := by
  unfold target Chosen
  by_cases hfix : flags &&& mapFixed ≠ 0
  · rw [if_pos hfix, if_pos hfix]
    split <;> rename_i hal
    · exact ⟨nofun, fun hc => absurd (mod_eq_zero_of_dvd hc.1) hal⟩
    · have hdvd := dvd_of_mod_eq_zero (not_not.1 hal)
      by_cases hf : Free mm.vmas.list addr len
      · rw [if_pos ((vmaRangeIsFree_iff h haddr hl hlen).2 hf)]
        exact ⟨fun he => ⟨hdvd, hf, (Except.ok.inj he).symm⟩, fun hc => by rw [hc.2.2]⟩
      · rw [if_neg (mt (vmaRangeIsFree_iff h haddr hl hlen).1 hf)]
        exact ⟨nofun, fun hc => absurd hc.2.1 hf⟩
  · rw [if_neg hfix, if_neg hfix]
    have hhint : (if addr ≠ 0 then alignDown addr pageSize else 0) = alignDown addr pageSize := by
      split_ifs with hz
      · rfl
      · rw [not_not.1 hz]
        rfl
    rw [hhint]
    have hd : pageSize ∣ alignDown addr pageSize := dvd_alignDown addr pageSize
    have hword : alignDown addr pageSize < 2 ^ 64 := (alignDown_le ..).trans_lt haddr
    generalize alignDown addr pageSize = hint at hd hword ⊢
    by_cases hf : Free mm.vmas.list hint len
    · have hne : hint ≠ 0 := by
        have : 4096 ≤ hint := hf.1.1
        omega
      have hpick : hint ≠ 0 ∧ vmaRangeIsFree mm.vmas.list hint len = true :=
        ⟨hne, (vmaRangeIsFree_iff h hword hl hlen).2 hf⟩
      simp only [if_pos hpick, if_pos hf, if_neg hne]
      exact ⟨fun he => (Except.ok.inj he).symm, fun he => by rw [he]⟩
    · have hpick : ¬ (hint ≠ 0 ∧ vmaRangeIsFree mm.vmas.list hint len = true) :=
        fun hc => hf ((vmaRangeIsFree_iff h hword hl hlen).1 hc.2)
      rw [if_neg hf, ← findFreeRange_eq_iff hl hlen h hd hword]
      simp only [if_neg hpick]
      split
      · rename_i hz
        exact ⟨nofun, fun hc => absurd hz hc.1⟩
      · rename_i hz
        exact ⟨fun he => ⟨hz, Except.ok.inj he⟩, fun hc => by rw [hc.2]⟩

theorem Chosen.sound (h : Chosen mm addr len flags t) : pageSize ∣ t ∧ Free mm.vmas.list t len := by
  unfold Chosen at h
  split at h
  · obtain ⟨h1, h2, rfl⟩ := h
    exact ⟨h1, h2⟩
  · split_ifs at h with hf
    · rw [h]
      exact ⟨dvd_alignDown _ _, hf⟩
    · rcases h with ⟨-, h⟩ | ⟨-, h⟩
      · exact ⟨h.aligned, h.free⟩
      · exact ⟨h.aligned, h.free⟩

theorem exists_lowestFree (hl : 0 < len) (hlen : len < 2 ^ 64) (h : Areas l)
    (hs : pageSize ∣ start) (hlow : pageSize ≤ start) (hword : start < 2 ^ 64)
    (hx : pageSize ∣ x) (hsx : start ≤ x) (hf : Free l x len) : ∃ t, LowestFree l start len t :=
  ⟨_, (findFreeRangeFrom_spec hl hlen h hs hlow hword).resolve_right fun hno => hno.2 x hx hsx hf⟩

/-- Without a fixed address something is taken when a range is free above the base. -/
theorem exists_chosen (hl : 0 < len) (hlen : len < 2 ^ 64) (haddr : addr < 2 ^ 64)
    (h : Areas mm.vmas.list) (hfix : flags &&& mapFixed = 0) (hx : pageSize ∣ x)
    (hb : mmapBase mm.brk ≤ x) (hf : Free mm.vmas.list x len) :
    ∃ t, Chosen mm addr len flags t := by
  obtain ⟨hbd, hbl, hbw, -⟩ := mmapBase_spec mm.brk
  unfold Chosen
  simp only [hfix, ne_eq, not_true_eq_false, if_false]
  by_cases hhint : Free mm.vmas.list (alignDown addr pageSize) len
  · exact ⟨alignDown addr pageSize, by rw [if_pos hhint]⟩
  simp only [if_neg hhint]
  by_cases hge : mmapBase mm.brk ≤ alignDown addr pageSize ∧
      ∃ y, pageSize ∣ y ∧ alignDown addr pageSize ≤ y ∧ Free mm.vmas.list y len
  · obtain ⟨hge, y, hy, hle, hfy⟩ := hge
    obtain ⟨t, ht⟩ := exists_lowestFree hl hlen h (dvd_alignDown addr pageSize) (hbl.trans hge)
      ((alignDown_le ..).trans_lt haddr) hy hle hfy
    exact ⟨t, .inl ⟨hge, ht⟩⟩
  · obtain ⟨t, ht⟩ := exists_lowestFree hl hlen h hbd hbl hbw hx hb hf
    refine ⟨t, .inr ⟨(lt_or_ge _ _).imp_right fun hle y hy hay hfy => ?_, ht⟩⟩
    exact hge ⟨hle, y, hy, hay, hfy⟩

theorem Free.page (hf : Free l x len) (hl : ∀ v ∈ l, pageSize ∣ v.fin) :
    Free l (alignDown x pageSize) len := by
  have hle := alignDown_le x pageSize
  refine ⟨⟨le_alignDown dvd_rfl hf.1.1, ?_⟩, fun v hv => ?_⟩
  · have := hf.1.2
    omega
  · rcases hf.2 v hv with h1 | h1
    · exact .inl (le_alignDown (hl v hv) h1)
    · exact .inr (by omega)

/-! ## The whole call -/

theorem dvd_toInt (h : pageSize ∣ t) : (4096 : Int) ∣ toInt t := by
  have h : 4096 ∣ t := h
  unfold toInt
  rw [BitVec.toInt_ofNat']
  unfold Int.bmod
  dsimp only
  split <;> omega

/-- The arguments pass the checks, and `kprot` is the protection asked for. -/
structure Accepted (mm : MmStruct) (len : Nat) (prot flags fd : BitVec 32) (offset : BitVec 64)
    (kprot : Pgprot) : Prop where
  pgdir : mm.pgdir ≠ 0
  len : alignUp len pageSize ≠ 0
  prot : mmapUserProtToKernel prot = .ok kprot
  flags : mmapValidateFlags flags fd offset = 0

theorem mmapUserProtToKernel_error
    (h : mmapUserProtToKernel prot = .error ret) : ret = -einval := by
  unfold mmapUserProtToKernel at h
  split_ifs at h
  exact (Except.error.inj h).symm

theorem mmapValidateFlags_cases (flags fd : BitVec 32) (offset : BitVec 64) :
    mmapValidateFlags flags fd offset = 0 ∨ mmapValidateFlags flags fd offset = -einval ∨
      mmapValidateFlags flags fd offset = -enodev := by
  unfold mmapValidateFlags
  dsimp only
  split_ifs
  · exact .inr (.inl rfl)
  · exact .inr (.inl rfl)
  · exact .inr (.inr rfl)
  · exact .inr (.inl rfl)
  · exact .inl rfl

theorem target_error (h : target mm addr len flags = .error ret) :
    ret = -einval ∨ ret = -enomem := by
  unfold target at h
  split at h
  · split at h
    · exact .inl (Except.error.inj h).symm
    · split_ifs at h
      exact .inr (Except.error.inj h).symm
  · dsimp only at h
    split_ifs at h
    all_goals exact .inr (Except.error.inj h).symm

section Call

variable {grant : Nat → Bool} {prot fd : BitVec 32} {offset : BitVec 64}

/-- What a call comes to: an argument is refused, there is no room, or an area is added. -/
theorem sysMmap_cases (grant : Nat → Bool) (mm : MmStruct) (addr len : Nat)
    (prot flags fd : BitVec 32) (offset : BitVec 64) :
    (∃ ret, sysMmap grant mm addr len prot flags fd offset = some (ret, mm) ∧
        isErrValue ret = true ∧ (∀ kprot, ¬ Accepted mm len prot flags fd offset kprot) ∧
        (mm.pgdir ≠ 0 → ret ≠ -enomem)) ∨
      ∃ kprot, Accepted mm len prot flags fd offset kprot ∧
        ((∃ ret, target mm addr (alignUp len pageSize) flags = .error ret ∧ isErrValue ret = true ∧
          sysMmap grant mm addr len prot flags fd offset = some (ret, mm)) ∨
        ∃ t, target mm addr (alignUp len pageSize) flags = .ok t ∧
          sysMmap grant mm addr len prot flags fd offset =
            (doMmap grant mm t (alignUp len pageSize) kprot).map fun r => (toInt t, r.2)) := by
  unfold sysMmap
  by_cases h1 : mm.pgdir = 0
  · rw [if_pos h1]
    exact .inl ⟨_, rfl, rfl, fun _ h => h.pgdir h1, fun h => absurd h1 h⟩
  rw [if_neg h1]
  by_cases h2 : alignUp len pageSize = 0
  · rw [if_pos h2]
    exact .inl ⟨_, rfl, rfl, fun _ h => h.len h2, fun _ => by decide⟩
  rw [if_neg h2]
  cases h3 : mmapUserProtToKernel prot with
  | error ret =>
    obtain rfl := mmapUserProtToKernel_error h3
    refine .inl ⟨_, rfl, rfl, fun k h => ?_, fun _ => by decide⟩
    have := h.prot
    rw [h3] at this
    cases this
  | ok kprot =>
    dsimp only
    rcases mmapValidateFlags_cases flags fd offset with h4 | h4
    · rw [h4, if_neg (by decide)]
      refine .inr ⟨kprot, ⟨h1, h2, h3, h4⟩, ?_⟩
      cases h5 : target mm addr (alignUp len pageSize) flags with
      | error ret =>
        refine .inl ⟨ret, rfl, ?_, rfl⟩
        rcases target_error h5 with rfl | rfl
        · rfl
        · rfl
      | ok t =>
        refine .inr ⟨t, rfl, ?_⟩
        dsimp only
        unfold doMmap
        cases mm.vmas.add grant (alignDown t pageSize) (alignUp (alignUp len pageSize) pageSize) kprot with
        | none => rfl
        | some r => rfl
    · have hno (k : Pgprot) : ¬ Accepted mm len prot flags fd offset k := fun h => by
        rw [h.flags] at h4
        exact absurd h4 (by decide)
      rcases h4 with h4 | h4 <;> rw [h4]
      · exact .inl ⟨_, rfl, rfl, hno, fun _ => by decide⟩
      · exact .inl ⟨_, rfl, rfl, hno, fun _ => by decide⟩

end Call

/-- **The choice is right.** Without MAP_FIXED, an address that is taken starts a free range on a page
boundary; and when the call fails for want of a range, none is free above the page that follows the
heap. -/
theorem mmap_choice (grant : Nat → Bool) (mm : MmStruct) (addr len : Nat) (prot flags fd : BitVec 32)
    (offset : BitVec 64) (h : Areas mm.vmas.list) (hfix : flags &&& mapFixed = 0)
    (haddr : addr < 2 ^ 64) (hd : pageSize ∣ len) (hlen : len < 2 ^ 64) :
    (∀ t, target mm addr len flags = .ok t → pageSize ∣ t ∧ pageSize ≤ t ∧
        t + len ≤ userSigtrampAddr ∧ ∀ v ∈ mm.vmas.list, v.fin ≤ t ∨ t + len ≤ v.start) ∧
      (mm.pgdir ≠ 0 → (∀ v ∈ mm.vmas.list, pageSize ∣ v.start ∧ pageSize ∣ v.fin) →
        ∀ mm', sysMmap grant mm addr len prot flags fd offset = some (-enomem, mm') →
          ∀ x, (mm.brk + (pageSize - 1)) / pageSize * pageSize + pageSize ≤ x →
            ¬ Free mm.vmas.list x len) := by
  have hlenUp : alignUp len pageSize = len := by
    have hd : 4096 ∣ len := hd
    exact alignUp_of_dvd (by decide) hd (by show len + 4095 < 2 ^ 64; omega)
  rcases Nat.eq_zero_or_pos len with hz | hl
  · -- the empty range is refused
    subst hz
    refine ⟨fun t ht => ?_, fun hpg _ mm' he => ?_⟩
    · simp [target, hfix, vmaRangeIsFree, findFreeRange, findFreeRangeFrom,
        mmapRangeValid_zero] at ht
    · rcases sysMmap_cases grant mm addr 0 prot flags fd offset with
        ⟨ret, he', -, -, hno⟩ | ⟨kprot, hacc, -⟩
      · rw [he'] at he
        exact absurd (congrArg Prod.fst (Option.some.inj he)) (hno hpg)
      · exact absurd hlenUp hacc.len
  · refine ⟨fun t ht => ?_, fun hpg hal mm' he x hx hf => ?_⟩
    · obtain ⟨h1, h2⟩ := ((target_ok_iff hl hlen haddr h).1 ht).sound
      exact ⟨h1, h2.1.1, h2.1.2, h2.2⟩
    · obtain ⟨hbd, -, -, hbase⟩ := mmapBase_spec mm.brk
      have hbx : mmapBase mm.brk ≤ alignDown x pageSize := le_alignDown hbd (hbase.trans hx)
      obtain ⟨t, ht⟩ := exists_chosen hl hlen haddr h hfix (dvd_alignDown x pageSize) hbx
        (hf.page fun v hv => (hal v hv).2)
      have htok := (target_ok_iff hl hlen haddr h).2 ht
      rcases sysMmap_cases grant mm addr len prot flags fd offset with
        ⟨ret, he', -, -, hno⟩ | ⟨kprot, hacc, ⟨ret, he', -⟩ | ⟨t', ht', he'⟩⟩
      · rw [he'] at he
        exact absurd (congrArg Prod.fst (Option.some.inj he)) (hno hpg)
      · rw [hlenUp, htok] at he'
        cases he'
      · -- the address that is returned is a multiple of the page size
        rw [hlenUp, htok] at ht'
        cases ht'
        rw [he'] at he
        obtain ⟨r, -, hr⟩ := Option.map_eq_some_iff.1 he
        have h3 : toInt t = -enomem := congrArg Prod.fst hr
        have h4 := dvd_toInt ht.sound.1
        rw [h3] at h4
        exact absurd h4 (by decide)

/-- Above a heap that ends in the page at `0x2000`, with one area at `0x6000`. -/
def smallHeap : MmStruct := ⟨0x80000000, ⟨[⟨0x6000, 0x8000, 11⟩], 1⟩, 0x1000, 0x2100⟩

theorem smallHeap_areas : Areas smallHeap.vmas.list :=
  ⟨⟨pairwise_singleton _ _, by decide⟩, by decide⟩

theorem mmap_choice_smallHeap :
    ∃ t, target smallHeap 0 0x2000 (mapPrivate ||| mapAnonymous) = .ok t ∧ pageSize ∣ t ∧
      pageSize ≤ t ∧ t + 0x2000 ≤ userSigtrampAddr ∧
      ∀ v ∈ smallHeap.vmas.list, v.fin ≤ t ∨ t + 0x2000 ≤ v.start := by
  have htarget : target smallHeap 0 0x2000 (mapPrivate ||| mapAnonymous) = .ok 0x4000 := by
    decide +kernel
  refine ⟨_, htarget, (mmap_choice (fun _ => true) smallHeap 0 0x2000 protRead
    (mapPrivate ||| mapAnonymous) (-1) 0 smallHeap_areas ?_ ?_ ?_ ?_).1 _ htarget⟩
  · rfl
  · decide
  · decide
  · decide

/-- Only the page at `0x3000`, after the one with the break, is free. The call fails: the search starts
one page later, because the break is not on a page boundary. -/
theorem page_after_break_not_found :
    let mm : MmStruct := ⟨0x80000000, ⟨[⟨0x4000, userSigtrampAddr, 11⟩], 1⟩, 0x1000, 0x2100⟩
    sysMmap (fun _ => true) mm 0 pageSize protRead (mapPrivate ||| mapAnonymous) (-1) 0 =
        some (-enomem, mm) ∧
      Areas mm.vmas.list ∧ (∀ v ∈ mm.vmas.list, pageSize ∣ v.start ∧ pageSize ∣ v.fin) ∧
      alignDown mm.brk pageSize + pageSize = 0x3000 ∧ Free mm.vmas.list 0x3000 pageSize :=
  ⟨rfl, ⟨⟨List.pairwise_singleton _ _, by decide⟩, by decide⟩, by decide, by decide, by decide⟩

end ZzzOs.Mm.Mmap
