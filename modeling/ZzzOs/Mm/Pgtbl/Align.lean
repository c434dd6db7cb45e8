import ZzzOs.Mm.Pgtbl.Refine
import Mathlib.Data.BitVec

/-!
# Aligned leaves

Sv39 wants the frame of a leaf to be a multiple of the page size of its level. A merge makes a leaf from
the first entry of a table and does not look at its alignment, so the invariant is carried by runs in
which no complete block of addresses starts at a frame unfit for its size (`leaves_aligned`).
-/

namespace ZzzOs.Mm.Pgtbl

open Option Function Lib

def alignedLeaf (l : Nat) (v : Nat × Pgprot) : Prop := riscv64.pageSize l ∣ v.1

theorem splits_alignedLeaf : Splits riscv64 alignedLeaf := by
  intro l pa fl i hl _ h
  have hl : l < 2 := Nat.lt_of_succ_lt_succ hl
  have hsize : riscv64.pageSize (l + 1) ∣ riscv64.pageSize l ∧ riscv64.pageSize (l + 1) ∣ 2 ^ 64 := by
    interval_cases l <;> decide
  exact (Nat.dvd_mod_iff hsize.2).2 (Nat.dvd_add (hsize.1.trans h) (Dvd.intro_left i rfl))

/-- The tables that a walk from the root can come to, with their levels. -/
inductive TableAt (arch : PgtblArch) (root : Nat) (m : TableMem) : Nat → Nat → Prop
  | root : TableAt arch root m 0 root
  | child {l a i : Nat} {t : Nat → Pte} (h : TableAt arch root m l a) (ht : m.table a = some t)
      (hv : arch.entryIsValid (t i) = true) (hl : arch.entryIsLeaf (t i) = false)
      (hlast : l + 1 < arch.supportLevels) :
      TableAt arch root m (l + 1) (arch.entryGetPa l .table (t i))

def LeavesAligned (root : Nat) (m : TableMem) : Prop :=
  ∀ l a t i, TableAt riscv64 root m l a → m.table a = some t →
    riscv64.entryIsValid (t i) = true → riscv64.entryIsLeaf (t i) = true →
    riscv64.pageSize l ∣ riscv64.entryGetPa l .page (t i)

section Invariant

variable {arch : PgtblArch} {Q : LeafRule} {root l a : Nat} {m : TableMem} {own : Owner}

theorem TableAt.owned (h : Sound arch Q root m own) (hat : TableAt arch root m l a) :
    ∃ p, own a = some p ∧ p.length = l := by
  induction hat with
  | root => exact ⟨[], h.placed.top, rfl⟩
  | child _ ht hv hl hlast ih =>
    obtain ⟨p, hp, rfl⟩ := ih
    exact ⟨_, h.placed.child _ p _ _ _ hp ht (slot_table hv hl hlast), by simp⟩

theorem Sound.leavesAligned (h : Sound riscv64 alignedLeaf root m own) : LeavesAligned root m := by
  intro l a t i hat ht hv hl
  obtain ⟨p, hp, rfl⟩ := hat.owned h
  exact h.leaves a p t i _ hp ht (slot_leaf hv hl)

theorem view_lt {x : Nat} : (view arch root m x).1 < 2 ^ 64 := by
  unfold view
  cases (radix arch).lookup m.table root x with
  | none => exact Nat.two_pow_pos 64
  | some r => exact Nat.mod_lt _ (Nat.two_pow_pos 64)

end Invariant

/-! ## Runs -/

/-- A call for a range. -/
inductive RangeCall
  | map (va pa size : Nat) (fl : Pgprot)
  | remap (va size : Nat) (fl : Pgprot)
  | unmap (va size : Nat)

namespace RangeCall

def run (A : TableAlloc) (root : Nat) : RangeCall → TableMem → Except Fault (Int × TableMem)
  | .map va pa size fl => Pgtbl.map riscv64 A root va pa size fl
  | .remap va size fl => Pgtbl.remap riscv64 A root va size fl
  | .unmap va size => Pgtbl.unmap riscv64 A root va size

/-- Physical addresses are words. -/
def Words : RangeCall → Prop
  | .map _ pa _ _ => pa < 2 ^ 64
  | .remap _ _ _ => True
  | .unmap _ _ => True

/-- In the translation `v`, no store of the call completes a 2 MiB or 1 GiB block that starts at a
frame which is no multiple of its size, and the entries above the last level allow some access. -/
def KeepsAligned (v : Translation) : RangeCall → Prop
  | .map va pa size fl =>
    Allowed riscv64 alignedLeaf (rangeEnd va size) fl (rounds va size) (alignDown va pageSize)
      (alignDown pa pageSize) v
  | .remap va size fl =>
    (v va).1 ≠ 0 → Allowed riscv64 alignedLeaf (rangeEnd va size) fl (rounds va size)
      (alignDown va pageSize) (alignDown (v va).1 pageSize) v
  | .unmap _ _ => True

end RangeCall

inductive Returned (A : TableAlloc) (root : Nat) : TableMem → Prop
  | empty (hroot : 0 < root) : Returned A root (emptyTable root)
  | call {m m' : TableMem} {ret : Int} (c : RangeCall) (h : Returned A root m) (hw : c.Words)
      (hc : c.KeepsAligned (view riscv64 root m)) (he : c.run A root m = .ok (ret, m')) :
      Returned A root m'

section Call

variable {A : TableAlloc} {root : Nat} {m m' : TableMem} {own : Owner}

theorem alignedLeaf_of_dvd (t pa : Nat) (fl : Pgprot) (h : riscv64.pageSize t ∣ pa) :
    alignedLeaf t (pa, fl) := h

theorem alignDown_lt {x : Nat} (h : x < 2 ^ 64) : alignDown x pageSize < 2 ^ 64 :=
  Nat.lt_of_le_of_lt (alignDown_le x pageSize) h

theorem call_aligned {c : RangeCall} {ret : Int} (h : Sound riscv64 alignedLeaf root m own)
    (hw : c.Words) (hc : c.KeepsAligned (view riscv64 root m))
    (he : c.run A root m = .ok (ret, m')) : ∃ own', Sound riscv64 alignedLeaf root m' own' := by
  cases c with
  | map va pa size fl =>
    change Pgtbl.map riscv64 A root va pa size fl m = _ at he
    exact (mapLoop_spec riscv64_lawful alignedLeaf_of_dvd h (Pending.start va size)
      (dvd_alignDown pa pageSize) (alignDown_lt hw) hc).sound he
  | remap va size fl =>
    change Pgtbl.remap riscv64 A root va size fl m = _ at he
    simp only [Pgtbl.remap, pgtblLookup_eq h, bind, Except.bind] at he
    split_ifs at he with hpa
    · obtain rfl : m = m' := congrArg Prod.snd (Except.ok.inj he)
      exact ⟨own, h⟩
    · exact (remapLoop_spec riscv64_lawful splits_alignedLeaf alignedLeaf_of_dvd h
        (Pending.start va size) (dvd_alignDown _ pageSize) (alignDown_lt view_lt) (hc hpa)).sound he
  | unmap va size =>
    obtain ⟨m₁, own₁, he₁, hs, -⟩ := unmapLoop_spec (A := A) riscv64_lawful splits_alignedLeaf _ h
      (Pending.start va size)
    change Pgtbl.unmap riscv64 A root va size m = _ at he
    obtain rfl := ok_state he he₁
    exact ⟨own₁, hs⟩

theorem Returned.sound (h : Returned A root m) : ∃ own, Sound riscv64 alignedLeaf root m own := by
  induction h with
  | empty hroot => exact ⟨_, Sound.empty riscv64_lawful hroot 0 0⟩
  | call c _ hw hc he ih =>
    obtain ⟨own, h⟩ := ih
    exact call_aligned h hw hc he

/-- **Leaves stay aligned** in every run whose calls complete no misaligned block. -/
theorem leaves_aligned (h : Returned A root m) : LeavesAligned root m := by
  obtain ⟨own, hs⟩ := h.sound
  exact hs.leavesAligned

end Call

/-! ## A page, and 512 of them -/

theorem page_keepsAligned :
    (RangeCall.map 0x1000 0x80000000 4096 protRead).KeepsAligned fun _ => (0, protNone) := by
  refine fun _ => ⟨.inl (by decide), ?_, fun h => absurd h (by decide)⟩
  intro j pa fl hj hblock
  have hj : j < 2 := hj
  -- the first page of the block is not mapped, the second is
  have h0 := congrArg Prod.snd (hblock 0 (by interval_cases j <;> decide))
  have h1 := congrArg Prod.snd (hblock 0x1000 rfl)
  have e0 : protNone = fl := by
    interval_cases j <;> exact h0
  have e1 : rwxu protRead = fl := by
    interval_cases j <;> exact h1
  rw [← e1] at e0
  exact absurd e0 (by decide)

/-- One page, mapped in an empty table. -/
theorem leaves_aligned_page : ∃ m',
    (RangeCall.map 0x1000 0x80000000 4096 protRead).run numbered (2 ^ 63)
      (emptyTable (2 ^ 63)) = .ok (0, m') ∧ LeavesAligned (2 ^ 63) m' := by
  have hv : view riscv64 (2 ^ 63) (emptyTable (2 ^ 63)) = fun _ => (0, protNone) :=
    funext fun x => view_empty riscv64_lawful 0 0 x
  have hw : (RangeCall.map 0x1000 0x80000000 4096 protRead).Words := (by decide : 0x80000000 < 2 ^ 64)
  obtain ⟨m', hres⟩ : ∃ m', (RangeCall.map 0x1000 0x80000000 4096 protRead).run numbered (2 ^ 63)
      (emptyTable (2 ^ 63)) = .ok (0, m') := exists_of_ret (by decide +kernel)
  exact ⟨m', hres, leaves_aligned (.call _ (.empty (by decide)) hw (hv ▸ page_keepsAligned) hres)⟩

/-- Entry `i` of a table of pages that start at frame 0x1000. -/
def pageEntry (i : Nat) : Pte := riscv64.setEntry 2 .page 0 (4096 * (i + 1)) protRead

/-- The entry for a table of the next level. -/
def tableEntry (l b : Nat) : Pte := riscv64.setEntry l .table 0 b protNone

/-- The call for page `k`. -/
def mapPage (k : Nat) : TableMem → Except Fault (Int × TableMem) :=
  pgtblMap riscv64 numbered (2 ^ 63) (4096 * k) (4096 * (k + 1)) 2 protRead

/-- The first `k` pages. -/
def pages (k i : Nat) : Pte := if i < k then pageEntry i else 0

/-- The tables above the pages, in the order of the stores. -/
def upper : Nat → Option (Nat → Pte) :=
  update (update (update (update (update (emptyTable (2 ^ 63)).table 4096 (some 0)) (2 ^ 63)
    (some (update 0 0 (tableEntry 0 4096)))) 8192 (some 0)) 4096
    (some (update 0 0 (tableEntry 1 8192)))) 8192 (some (update 0 0 0))

/-- `map(0, 0x1000, 2 MiB)` is under way: `k` pages are in place. -/
def filled (k : Nat) : TableMem := ⟨update upper 8192 (some (pages k)), 2, 0⟩

section Filled

variable {k : Nat}

theorem levelIndex_page (hk : k < 512) : riscv64.levelIndex 0 (4096 * k) = 0 ∧
    riscv64.levelIndex 1 (4096 * k) = 0 ∧ riscv64.levelIndex 2 (4096 * k) = k := by
  simp only [Riscv64.levelIndex_eq]
  omega

/-- What the walk for page `k` has recorded at its target. -/
def pageCtx (k : Nat) : WalkCtx :=
  (((walkCtx 2 (4096 * (k + 1)) protRead).record 0 (2 ^ 63, 0)).record 1 (4096, 0)).record 2 (8192, k)

theorem mapPage_eq (hk : k < 512) : mapPage k (filled k) =
    (storeLeaf riscv64 (filled k) (8192, k) 2 (pageCtx k)).map fun m' => (0, m') := by
  obtain ⟨i0, i1, i2⟩ := levelIndex_page hk
  have hread : (filled k).read (2 ^ 63, 0) = .ok (tableEntry 0 4096) ∧
      (filled k).read (4096, 0) = .ok (tableEntry 1 8192) := ⟨rfl, rfl⟩
  have htop : riscv64.entryIsValid (tableEntry 0 4096) = true ∧
      riscv64.entryIsLeaf (tableEntry 0 4096) = false ∧
      riscv64.entryGetPa 0 .table (tableEntry 0 4096) = 4096 := by decide
  have hmid : riscv64.entryIsValid (tableEntry 1 8192) = true ∧
      riscv64.entryIsLeaf (tableEntry 1 8192) = false ∧
      riscv64.entryGetPa 1 .table (tableEntry 1 8192) = 8192 := by decide
  have htarget : ∀ (ctx : WalkCtx) l p, (ctx.record l p).targetLevel = ctx.targetLevel :=
    fun _ _ _ => rfl
  have hlevel : (walkCtx 2 (4096 * (k + 1)) protRead).targetLevel = 2 := rfl
  change outcome (walkFrom riscv64 (mapCb riscv64 numbered) (4096 * k) 3 0 (2 ^ 63) (filled k)
    (walkCtx 2 (4096 * (k + 1)) protRead)) = _
  simp only [walkFrom, mapCb, i0, i1, i2, hread, htop, hmid, htarget, bind, Except.bind, hlevel,
    Nat.reduceAdd, reduceIte, reduceCtorEq, Nat.reduceEqDiff, Bool.true_eq_false, Bool.false_eq_true]
  rw [← pageCtx]
  cases storeLeaf riscv64 (filled k) (8192, k) 2 (pageCtx k) with
  | error f => rfl
  | ok m' => rfl

theorem tableNeedMerge_filled (hk : k < 512) :
    tableNeedMerge riscv64 (filled k) 8192 2 = .ok false := by
  refine congrArg Except.ok (List.all_eq_false.2 ⟨k, List.mem_range.2 hk, ?_⟩)
  simp only [continues, pages, if_neg (lt_irrefl k), riscv64_lawful.zero_valid]
  exact Bool.false_ne_true

theorem update_pages {e : Pte} : update (update (pages k) k e) k (pageEntry k) = pages (k + 1) := by
  funext i
  unfold pages
  by_cases hi : i = k
  · rw [hi, update_self, if_pos (Nat.lt_succ_self k)]
  · rw [update_of_ne hi, update_of_ne hi]
    exact if_congr (by omega) rfl rfl

set_option maxRecDepth 10000 in
theorem storeLeaf_filled : storeLeaf riscv64 (filled k) (8192, k) 2 (pageCtx k) =
    mergeUp riscv64 (pageCtx k) 2 (filled (k + 1)) := by
  have htable : update (update (filled k).table 8192 (some (update (pages k) k 0))) 8192
      (some (update (update (pages k) k 0) k (pageEntry k))) = (filled (k + 1)).table := by
    rw [update_idem, update_pages, filled, filled, update_idem]
  exact congrArg (fun t => mergeUp riscv64 (pageCtx k) 2 ⟨t, 2, 0⟩) htable

theorem mapPage_next (hk : k + 1 < 512) : mapPage k (filled k) = .ok (0, filled (k + 1)) := by
  rw [mapPage_eq (by omega), storeLeaf_filled, mergeUp]
  change Except.map _ ((tableNeedMerge riscv64 (filled (k + 1)) 8192 2).bind _) = _
  rw [tableNeedMerge_filled hk]
  rfl

/-- The last page: the table becomes a leaf of 2 MiB at address 0x1000. -/
theorem mapPage_last :
    ∃ m', mapPage 511 (filled 511) = .ok (0, m') ∧ ¬ LeavesAligned (2 ^ 63) m' := by
  have heval : ((mapPage 511 (filled 511)).toOption.map fun r =>
      (r.1, (r.2.table (2 ^ 63)).map (· 0), (r.2.table 4096).map (· 0))) =
        some (0, some (tableEntry 0 4096),
          some (riscv64.setEntry 1 .page (tableEntry 1 8192) 4096 (rwxu protRead))) := by
    decide +kernel
  obtain ⟨⟨ret, m'⟩, hres, he⟩ := map_eq_some_iff.1 heval
  obtain ⟨rfl, he⟩ := Prod.mk.inj he
  obtain ⟨t0, ht0, he0⟩ := map_eq_some_iff.1 (Prod.mk.inj he).1
  obtain ⟨t1, ht1, he1⟩ := map_eq_some_iff.1 (Prod.mk.inj he).2
  refine ⟨m', ?_, fun hal => ?_⟩
  · revert hres
    cases mapPage 511 (filled 511) with
    | error f => exact nofun
    | ok r => exact fun h => congrArg _ (Option.some.inj h)
  · have hat : TableAt riscv64 (2 ^ 63) m' 1 (riscv64.entryGetPa 0 .table (t0 0)) :=
      .child .root ht0 (by rw [he0]; decide) (by rw [he0]; decide) (by decide)
    rw [he0] at hat
    have hleaf := hal 1 4096 t1 0 hat ht1 (by rw [he1]; decide) (by rw [he1]; decide)
    rw [he1] at hleaf
    exact absurd hleaf (by decide)

set_option maxRecDepth 10000 in
theorem filled_one : mapPage 0 (emptyTable (2 ^ 63)) = .ok (0, filled 1) := by
  have hpages : update (update (0 : Nat → Pte) 0 0) 0 (pageEntry 0) = pages 1 := by
    rw [show (0 : Nat → Pte) = pages 0 from funext fun _ => rfl, update_pages]
  rw [filled, ← hpages]
  rfl

theorem highestPossibleLevel_shifted (hk : k < 512) :
    highestPossibleLevel riscv64 (4096 * k) (4096 * (k + 1)) (4096 * 512 - 4096 * k) = 2 := by
  have hb := highestPossibleLevel_spec riscv64_lawful (Dvd.intro k rfl) (Dvd.intro (k + 1) rfl)
    (by omega : 4096 ≤ 4096 * 512 - 4096 * k)
  have hlevel : highestPossibleLevel riscv64 (4096 * k) (4096 * (k + 1))
    (4096 * 512 - 4096 * k) < 3 := hb.level
  have hfits := hb.fits
  have hpa := hb.pa_dvd
  generalize highestPossibleLevel riscv64 (4096 * k) (4096 * (k + 1)) (4096 * 512 - 4096 * k) = t
    at hlevel hfits hpa ⊢
  interval_cases t
  · change 2 ^ 30 ≤ _ at hfits
    omega
  · change 2 ^ 21 ≤ _ at hfits
    change 2 ^ 21 ∣ _ at hpa
    omega
  · rfl

theorem mapLoop_page {m m' : TableMem} (hk : k < 512) (he : mapPage k m = .ok (0, m')) (n : Nat) :
    mapLoop riscv64 numbered (2 ^ 63) (4096 * 512) protRead (n + 1) (4096 * k) (4096 * (k + 1)) m =
      mapLoop riscv64 numbered (2 ^ 63) (4096 * 512) protRead n (4096 * (k + 1))
        (4096 * (k + 1 + 1)) m' := by
  have hva : (4096 * k + riscv64.pageSize 2) % 2 ^ 64 = 4096 * (k + 1) := by
    show (4096 * k + 2 ^ 12) % 2 ^ 64 = _
    omega
  have hpa : (4096 * (k + 1) + riscv64.pageSize 2) % 2 ^ 64 = 4096 * (k + 1 + 1) := by
    omega
  unfold mapPage at he
  unfold mapLoop
  rw [blockLoop, if_pos (by omega), highestPossibleLevel_shifted hk]
  simp only [he, bind, Except.bind, hva, hpa]
  rfl

theorem mapLoop_filled : ∀ (d : Nat) {k : Nat}, k + d = 511 →
    ∃ m', mapLoop riscv64 numbered (2 ^ 63) (4096 * 512) protRead (d + 2) (4096 * k)
      (4096 * (k + 1)) (filled k) = .ok (0, m') ∧ ¬ LeavesAligned (2 ^ 63) m' := by
  intro d
  induction d with
  | zero =>
    intro k hk
    obtain rfl : k = 511 := by omega
    obtain ⟨m', he, hbad⟩ := mapPage_last
    refine ⟨m', ?_, hbad⟩
    rw [mapLoop_page (by decide) he]
    rfl
  | succ d ih =>
    intro k hk
    obtain ⟨m', he, hbad⟩ := ih (k := k + 1) (by omega)
    exact ⟨m', by rw [mapLoop_page (by omega) (mapPage_next (by omega))]; exact he, hbad⟩

end Filled

/-- `map(0, 0x1000, 2 MiB)` in an empty table merges 512 pages into a leaf of 2 MiB whose frame is
no multiple of 2 MiB. -/
theorem map_merges_misaligned : ∃ m',
    (RangeCall.map 0 0x1000 0x200000 protRead).run numbered (2 ^ 63) (emptyTable (2 ^ 63)) =
        .ok (0, m') ∧ ¬ LeavesAligned (2 ^ 63) m' := by
  obtain ⟨m', he, hbad⟩ := mapLoop_filled 510 (k := 1) rfl
  refine ⟨m', ?_, hbad⟩
  show mapLoop riscv64 numbered (2 ^ 63) (4096 * 512) protRead 513 (4096 * 0) (4096 * (0 + 1)) _ = _
  rw [mapLoop_page (by decide) filled_one]
  exact he

end ZzzOs.Mm.Pgtbl
