import ZzzOs.Mm.Pgtbl.Walk

/-!
# Ranges

`map`, `remap` and `unmap` cut a range into blocks, each of the largest page size that fits, and
make one walk for a block. `mapView` and `unmapView` are what the loops do to the view; `Allowed`
says that no store of a loop makes a leaf that `Q` forbids.
-/

namespace ZzzOs.Mm.Pgtbl

open Lib Nat

variable (arch : PgtblArch) {store : Nat → Nat → Nat → TableMem → Except Fault (Int × TableMem)}

/-- Two answers of one call leave one memory. -/
theorem ok_state {x : Except ε (α × β)} (h : x = .ok (a, b)) (h' : x = .ok (a', b')) : b = b' :=
  congrArg Prod.snd (Except.ok.inj (h.symm.trans h'))

/-! ## Blocks -/

/-- A page of level `t` fits at `va` and `pa`. -/
structure Block (va pa size t : Nat) : Prop where
  level : t < arch.supportLevels
  va_dvd : arch.pageSize t ∣ va
  pa_dvd : arch.pageSize t ∣ pa
  fits : arch.pageSize t ≤ size

def mapView (fin : Nat) (fl : Pgprot) : Nat → Nat → Nat → Translation → Translation
  | 0, _, _, v => v
  | n + 1, va, pa, v =>
    if va < fin then
      let t := highestPossibleLevel arch va pa (fin - va)
      mapView fin fl n (va + arch.pageSize t) ((pa + arch.pageSize t) % 2 ^ 64)
        (put arch v va t (leafOf t pa fl))
    else v

/-- The view after the stores of `unmapLoop`. -/
def unmapView (fin : Nat) : Nat → Nat → Translation → Translation
  | 0, _, v => v
  | n + 1, va, v =>
    if va < fin then
      let t := highestPossibleLevel arch va 0 (fin - va)
      unmapView fin n (va + arch.pageSize t) (put arch v va t none)
    else v

/-- Every store of the loop is a leaf, or on the last level, and the blocks that it completes may
be merged. -/
def Allowed (Q : LeafRule) (fin : Nat) (fl : Pgprot) : Nat → Nat → Nat → Translation → Prop
  | 0, _, _, _ => True
  | n + 1, va, pa, v =>
    va < fin →
      let t := highestPossibleLevel arch va pa (fin - va)
      (hasRwx fl = true ∨ t + 1 = arch.supportLevels) ∧
        Merges arch Q (put arch v va t (leafOf t pa fl)) va t ∧
        Allowed Q fin fl n (va + arch.pageSize t) ((pa + arch.pageSize t) % 2 ^ 64)
          (put arch v va t (leafOf t pa fl))

variable {arch} {A : TableAlloc} {Q : LeafRule} {root va pa fin t n d : Nat}
  {m : TableMem} {own : Owner} {fl : Pgprot} {v : Translation} {r : Nat}

section Level

variable (ha : arch.Lawful) {size : Nat}
include ha

section

variable (hva : 4096 ∣ va) (hpa : 4096 ∣ pa)

include hva hpa

theorem Block.last (hs : 4096 ≤ size) : Block arch va pa size (arch.supportLevels - 1) :=
  ⟨sub_lt ha.levels one_pos, by rwa [ha.last_size], by rwa [ha.last_size], by rwa [ha.last_size]⟩

theorem highestPossibleLevel_spec
    (hs : 4096 ≤ size) : Block arch va pa size (highestPossibleLevel arch va pa size) := by
  unfold highestPossibleLevel
  split
  · exact Block.last ha hva hpa hs
  · cases hf : (List.range arch.supportLevels).find? fun i =>
      va % arch.pageSize i = 0 && pa % arch.pageSize i = 0 && arch.pageSize i ≤ size with
    | none => exact Block.last ha hva hpa hs
    | some i =>
      have hmem := List.mem_of_find?_eq_some hf
      have hi := List.find?_some hf
      simp only [Bool.and_eq_true, decide_eq_true_eq] at hi
      exact ⟨List.mem_range.1 hmem, dvd_of_mod_eq_zero hi.1.1, dvd_of_mod_eq_zero hi.1.2, hi.2⟩

theorem highestPossibleLevel_page :
    highestPossibleLevel arch va pa 4096 = arch.supportLevels - 1 := by
  have hb := highestPossibleLevel_spec ha hva hpa (le_refl 4096)
  have h1 := hb.level
  have h2 := hb.fits
  by_contra hne
  have := ha.size_gt _ (by omega : highestPossibleLevel arch va pa 4096 + 1 < arch.supportLevels)
  omega

end

end Level

/-- The bounds that every round of a loop keeps. -/
structure Pending (fin n va : Nat) : Prop where
  va_dvd : 4096 ∣ va
  fin_dvd : 4096 ∣ fin
  fin_lt : fin < 2 ^ 64
  fuel : fin - va < n * 4096

theorem Pending.left_le (h : Pending fin n va) (hlt : va < fin) : 4096 ≤ fin - va :=
  le_of_dvd (by omega) (dvd_sub h.fin_dvd h.va_dvd)

theorem Pending.next (ha : arch.Lawful) (h : Pending fin (n + 1) va) (hlt : va < fin)
    (hb : Block arch va pa (fin - va) t) :
    Pending fin n (va + arch.pageSize t) ∧
      (va + arch.pageSize t) % 2 ^ 64 = va + arch.pageSize t := by
  have h1 := page_le ha hb.level
  have h2 := hb.fits
  have h3 := h.fuel
  have h4 := h.fin_lt
  refine ⟨⟨Nat.dvd_add h.va_dvd (ha.size_dvd t), h.fin_dvd, h.fin_lt, by omega⟩, Nat.mod_eq_of_lt (by omega)⟩

theorem Pending.start (va size : Nat) :
    Pending (rangeEnd va size) (rounds va size) (alignDown va pageSize) := by
  refine ⟨dvd_alignDown va _, ?_, mod_lt _ (by decide), ?_⟩
  · exact (Nat.dvd_mod_iff (by decide)).2 (Nat.dvd_add (dvd_alignDown va _) (dvd_alignUp size _))
  · unfold rounds
    rw [show pageSize = 4096 from rfl]
    omega

theorem pa_next (ha : arch.Lawful) (hd : 4096 ∣ pa) (t : Nat) :
    4096 ∣ (pa + arch.pageSize t) % 2 ^ 64 :=
  (Nat.dvd_mod_iff (by decide)).2 (Nat.dvd_add hd (ha.size_dvd t))

/-! ## `map` and `remap` -/

section Store

variable (ha : arch.Lawful)
include ha

/-- The loop of `map` and `remap` ends with all its stores made, or at a store that failed, or at
one that left the page table. -/
def LoopResult (arch : PgtblArch) (Q : LeafRule) (root fin : Nat) (fl : Pgprot)
    (n va pa : Nat) (m : TableMem) (ret : Int) (d : Nat) (left : Nat → Nat → Prop)
    (res : Except Fault (Int × TableMem)) : Prop :=
  (∃ m', res = .ok (0, m') ∧
      After arch Q root (mapView arch fin fl n va pa (view arch root m)) m.refused m') ∨
    (∃ m' k, res = .ok (ret, m') ∧
      After arch Q root (mapView arch fin fl k va pa (view arch root m)) (m.refused + d) m') ∨
    ∃ m', res = .error (.notTable 0 m') ∧ left m.refused m'.refused

omit ha in
theorem LoopResult.sound (h : LoopResult arch Q root fin fl n va pa m ret d left res)
    (he : res = .ok (e, m')) : ∃ own, Sound arch Q root m' own := by
  rcases h with ⟨m₁, he₁, hs, -⟩ | ⟨m₁, k, he₁, hs, -⟩ | ⟨m₁, he₁, -⟩
  · exact ok_state he he₁ ▸ hs
  · exact ok_state he he₁ ▸ hs
  · rw [he] at he₁
    cases he₁

section

variable (hQ : ∀ t pa fl, arch.pageSize t ∣ pa → Q t (pa, fl))

include hQ

theorem blockLoop_spec {failed : Int → Int} {left : Nat → Nat → Prop}
    (hstore : ∀ {va pa t : Nat} {m : TableMem} {own : Owner}, Sound arch Q root m own →
      t < arch.supportLevels → Storable arch Q (view arch root m) va t pa fl →
      StoreResult arch Q root (view arch root m)
        (put arch (view arch root m) va t (leafOf t pa fl)) m.refused d
        (fun m' => left m.refused m'.refused) (store va pa t m)) :
    ∀ (n : Nat) {va pa : Nat} {m : TableMem} {own : Owner}, Sound arch Q root m own →
      Pending fin n va → 4096 ∣ pa → pa < 2 ^ 64 →
      Allowed arch Q fin fl n va pa (view arch root m) →
      LoopResult arch Q root fin fl n va pa m (failed (-einval)) d left
        (blockLoop arch store failed fin n va pa m) := by
  intro n
  induction n with
  | zero =>
    intro va pa m own _ hp
    exact absurd hp.fuel (by omega)
  | succ n ih =>
    intro va pa m own h hp hd hlt hall
    by_cases hva : va < fin
    · obtain ⟨hfl, hM, hrest⟩ := hall hva
      have hb := highestPossibleLevel_spec ha hp.va_dvd hd (hp.left_le hva)
      obtain ⟨hnext, hmod⟩ := hp.next ha hva hb
      generalize hl : highestPossibleLevel arch va pa (fin - va) = l at *
      rcases hstore h hb.level ⟨hd, hlt, hfl, fun _ => hQ _ _ _ hb.pa_dvd, hM⟩ with
        ⟨m₁, he, ⟨own₁, h₁⟩, hv₁, hr₁⟩ | ⟨m₁, he, hm₁⟩ | ⟨m₁, he, hr₁⟩
      · have hstep : blockLoop arch store failed fin (n + 1) va pa m = blockLoop arch store failed fin n
            (va + arch.pageSize l) ((pa + arch.pageSize l) % 2 ^ 64) m₁ := by
          simp only [blockLoop, if_pos hva, hl, he, hmod, bind, Except.bind]
          rfl
        rw [← hv₁] at hrest
        have hview : ∀ k, mapView arch fin fl (k + 1) va pa (view arch root m) = mapView arch fin fl k
            (va + arch.pageSize l) ((pa + arch.pageSize l) % 2 ^ 64) (view arch root m₁) := by
          intro k
          simp only [mapView, if_pos hva, hl, hv₁]
        rw [LoopResult, hstep, ← hr₁]
        rcases ih h₁ hnext (pa_next ha hd _) (mod_lt _ (by decide)) hrest with
          ⟨m', he', hm'⟩ | ⟨m', k, he', hm'⟩ | hm'
        · exact .inl ⟨m', he', by rw [hview]; exact hm'⟩
        · exact .inr (.inl ⟨m', k + 1, he', by rw [hview]; exact hm'⟩)
        · exact .inr (.inr hm')
      · refine .inr (.inl ⟨m₁, 0, ?_, hm₁⟩)
        simp only [blockLoop, if_pos hva, hl, he, bind, Except.bind]
        rfl
      · refine .inr (.inr ⟨m₁, ?_, hr₁⟩)
        simp only [blockLoop, if_pos hva, hl, he, bind, Except.bind]
    · refine .inl ⟨m, ?_, ⟨own, h⟩, ?_, rfl⟩
      · simp only [blockLoop, if_neg hva]
      · simp only [mapView, if_neg hva]

theorem mapLoop_spec
    (h : Sound arch Q root m own) (hp : Pending fin n va) (hd : 4096 ∣ pa) (hlt : pa < 2 ^ 64)
    (hall : Allowed arch Q fin fl n va pa (view arch root m)) :
    LoopResult arch Q root fin fl n va pa m (-einval) 0 (· < ·)
      (mapLoop arch A root fin fl n va pa m) :=
  blockLoop_spec ha hQ (fun h ht hst => pgtblMap_spec ha h ht hst) n h hp hd hlt hall

end

theorem remapLoop_spec (hS : Splits arch Q) (hQ : ∀ t pa fl, arch.pageSize t ∣ pa → Q t (pa, fl))
    (h : Sound arch Q root m own) (hp : Pending fin n va) (hd : 4096 ∣ pa)
    (hlt : pa < 2 ^ 64) (hall : Allowed arch Q fin fl n va pa (view arch root m)) :
    LoopResult arch Q root fin fl n va pa m (-1) 1 (· = ·)
      (remapLoop arch A root fin fl n va pa m) := by
  refine blockLoop_spec ha hQ (fun h ht hst => ?_) n h hp hd hlt hall
  rcases pgtblRemap_spec ha hS h ht hst with hm' | hm' | ⟨m', he, hr, -⟩
  · exact .inl hm'
  · exact .inr (.inl hm')
  · exact .inr (.inr ⟨m', he, hr.symm⟩)

end Store

/-! ## `unmap` -/

section Unmap

variable (ha : arch.Lawful) (hS : Splits arch Q)
include ha hS

/-- The loop of `unmap` returns 0 in every case; it has made all its stores when no page was
refused. -/
theorem unmapLoop_spec : ∀ (n : Nat) {va : Nat} {m : TableMem} {own : Owner},
      Sound arch Q root m own → Pending fin n va →
      ∃ m' own', unmapLoop arch A root fin n va m = .ok (0, m') ∧ Sound arch Q root m' own' ∧
        m.refused ≤ m'.refused ∧
        (m'.refused = m.refused →
          view arch root m' = unmapView arch fin n va (view arch root m)) := by
  intro n
  induction n with
  | zero =>
    intro va m own _ hp
    exact absurd hp.fuel (by omega)
  | succ n ih =>
    intro va m own h hp
    by_cases hva : va < fin
    · have hb := highestPossibleLevel_spec ha hp.va_dvd (dvd_zero _) (hp.left_le hva)
      obtain ⟨hnext, hmod⟩ := hp.next ha hva hb
      have hstep : ∀ ret m₁, pgtblUnmap arch A root va
          (highestPossibleLevel arch va 0 (fin - va)) m = .ok (ret, m₁) →
          unmapLoop arch A root fin (n + 1) va m = unmapLoop arch A root fin n
            (va + arch.pageSize (highestPossibleLevel arch va 0 (fin - va))) m₁ := by
        intro ret m₁ he
        simp only [unmapLoop, if_pos hva, he, hmod, bind, Except.bind]
      rcases (pgtblUnmap_spec ha hS h hb.level va).1 with
        ⟨m₁, he, ⟨own₁, h₁⟩, hv₁, hr₁⟩ | ⟨m₁, he, ⟨own₁, h₁⟩, hv₁, hr₁⟩ | ⟨_, _, hno⟩
      · obtain ⟨m', own', he', h', hle, hview⟩ := ih h₁ hnext
        refine ⟨m', own', by rw [hstep _ _ he, he'], h', by omega, fun heq => ?_⟩
        rw [hview (by omega), hv₁]
        simp only [unmapView, if_pos hva]
      · obtain ⟨m', own', he', h', hle, -⟩ := ih h₁ hnext
        exact ⟨m', own', by rw [hstep _ _ he, he'], h', by omega, fun heq => by omega⟩
      · exact hno.elim
    · refine ⟨m, own, ?_, h, le_refl _, fun _ => ?_⟩
      · simp only [unmapLoop, if_neg hva]
      · simp only [unmapView, if_neg hva]

end Unmap

end ZzzOs.Mm.Pgtbl
