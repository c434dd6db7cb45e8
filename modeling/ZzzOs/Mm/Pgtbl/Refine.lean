import ZzzOs.Mm.Pgtbl.Range
import ZzzOs.Mm.Pgtbl.Riscv

/-!
# An Sv39 page table as a function

The abstract state is the translation as a function (`Translation`), on which `map`, `unmap` and the
`remap` of a page are pointwise updates (`Call.effect`). **`calls_refine`**: the calls on a page table in
memory agree with it at every canonical address, whatever tables were split, merged or freed.

The range of a call must end below `2 ^ 64`. At `2 ^ 64` its end is 0 for the loop of `mm/mm.c`,
which then does nothing and reports success (`map_to_top_lost`).
-/

namespace ZzzOs.Mm.Pgtbl

open Nat Lib

/-! ## Views of a range -/

section Views

variable {fin va pa n t s size : Nat} {fl : Pgprot} {v : Translation} {x : Nat}

/-- The translation of `x` in a range that `va` and `pa` start. -/
def mapped (va pa : Nat) (fl : Pgprot) (x : Nat) : Nat × Pgprot :=
  if hasRwx fl then ((pa + (x - va)) % 2 ^ 64, rwxu fl) else (0, protNone)

theorem translate_leafOf (hd : riscv64.pageSize t ∣ va) (hle : va ≤ x)
    (hlt : x < va + riscv64.pageSize t) :
    translate riscv64 x (leafOf t pa fl) = mapped va pa fl x := by
  have hmod : x % riscv64.pageSize t = x - va := by
    obtain ⟨k, rfl⟩ := hd
    obtain ⟨d, rfl⟩ := Nat.exists_eq_add_of_le hle
    rw [Nat.mul_add_mod, Nat.mod_eq_of_lt (by omega), Nat.add_sub_cancel_left]
  unfold leafOf mapped
  split
  · rw [← hmod]
    rfl
  · rfl

theorem mapped_next (hle : va + s ≤ x) :
    mapped (va + s) ((pa + s) % 2 ^ 64) fl x = mapped va pa fl x := by
  unfold mapped
  rw [mod_add_mod, show pa + s + (x - (va + s)) = pa + (x - va) by omega]

/-- A range in one half of the address space. -/
def OneHalf (va fin : Nat) : Prop := fin ≤ 2 ^ 38 ∨ 2 ^ 64 - 2 ^ 38 ≤ va

theorem OneHalf.canonical (h : OneHalf va fin) (hlt : va < fin) (hfin : fin < 2 ^ 64) :
    Canonical va := by
  unfold OneHalf at h
  unfold Canonical
  omega

theorem OneHalf.next (h : OneHalf va fin) (s : Nat) : OneHalf (va + s) fin := by
  unfold OneHalf at h ⊢
  omega

theorem Block.put_eq {r : Option (Nat × (Nat × Pgprot))}
    (hb : Block riscv64 va pa size t) (hva : Canonical va) (hx : Canonical x) :
    put riscv64 v va t r x =
      if va ≤ x ∧ x < va + riscv64.pageSize t then translate riscv64 x r else v x :=
  if_congr (path_eq_iff_of_canonical hb.level hx hva hb.va_dvd) rfl rfl

theorem mapView_eq (hx : Canonical x) : ∀ {n va pa : Nat} {v : Translation},
    Pending fin n va → 4096 ∣ pa → OneHalf va fin →
    mapView riscv64 fin fl n va pa v x =
      if va ≤ x ∧ x < fin then mapped va pa fl x else v x := by
  intro n
  induction n with
  | zero =>
    intro va pa v hp
    exact absurd hp.fuel (by omega)
  | succ n ih =>
    intro va pa v hp hpa hhalf
    unfold mapView
    by_cases hva : va < fin
    · have hb := highestPossibleLevel_spec riscv64_lawful hp.va_dvd hpa (hp.left_le hva)
      obtain ⟨hnext, -⟩ := hp.next riscv64_lawful hva hb
      rw [if_pos hva, ih hnext (pa_next riscv64_lawful hpa _) (hhalf.next _)]
      generalize hlevel : highestPossibleLevel riscv64 va pa (fin - va) = t at hb hnext ⊢
      have hfits := hb.fits
      rw [hb.put_eq (hhalf.canonical hva hp.fin_lt) hx]
      -- below the block, in the block, in the rest of the range, and above it
      split
      · rename_i h1
        rw [if_pos (by omega), mapped_next h1.1]
      · split
        · rename_i h2
          rw [if_pos (by omega), translate_leafOf hb.va_dvd h2.1 h2.2]
        · rw [if_neg (by omega)]
    · rw [if_neg hva, if_neg (by omega)]

end Views

/-! ## Calls and their effects -/

def pageBytes (size : Nat) : Nat := (size + 4095) / 4096 * 4096

inductive Call
  | map (va pa size : Nat) (fl : Pgprot)
  | unmap (va size : Nat)
  | remap (va : Nat) (fl : Pgprot)

namespace Call

def run (A : TableAlloc) (root : Nat) : Call → TableMem → Except Fault (Int × TableMem)
  | .map va pa size fl => Pgtbl.map riscv64 A root va pa size fl
  | .unmap va size => Pgtbl.unmap riscv64 A root va size
  | .remap va fl => Pgtbl.remap riscv64 A root va pageSize fl

def va : Call → Nat
  | .map va _ _ _ => va
  | .unmap va _ => va
  | .remap va _ => va

def bytes : Call → Nat
  | .map _ _ size _ => pageBytes size
  | .unmap _ size => pageBytes size
  | .remap _ _ => 4096

/-- What the call is to do to the translation. -/
def effect (c : Call) (v : Translation) : Translation := fun x =>
  if c.va ≤ x ∧ x < c.va + c.bytes then
    match c with
    | .map va pa _ fl => ((pa + (x - va)) % 2 ^ 64, rwxu fl)
    | .unmap _ _ => (0, protNone)
    | .remap _ fl => ((v x).1, rwxu fl)
  else v x

/-- Page-aligned canonical addresses, a nonzero frame, and flags that allow some access. -/
structure Valid (c : Call) : Prop where
  aligned : 4096 ∣ c.va
  canonical : c.va + c.bytes ≤ 2 ^ 38 ∨ 2 ^ 64 - 2 ^ 38 ≤ c.va ∧ c.va + c.bytes ≤ 2 ^ 64
  args : match c with
    | .map _ pa _ fl => 4096 ∣ pa ∧ 0 < pa ∧ pa < 2 ^ 64 ∧ hasRwx fl = true
    | .unmap _ _ => True
    | .remap _ fl => hasRwx fl = true

/-- The end of the range is a 64-bit address. -/
def NoWrap (c : Call) : Prop := c.va + c.bytes < 2 ^ 64

instance (c : Call) : Decidable c.NoWrap := inferInstanceAs (Decidable (_ < _))

/-- The calls that have to succeed in `v`: an `unmap`, and the `remap` of a mapped page. -/
def MustSucceed (v : Translation) : Call → Prop
  | .map _ _ _ _ => False
  | .unmap _ _ => True
  | .remap va _ => (v va).1 ≠ 0

end Call

def Reads (root : Nat) (m : TableMem) (v : Translation) : Prop :=
  ∀ x, Canonical x →
    pgtblLookup riscv64 root m x = .ok (v x).1 ∧ pgtblLookupProt riscv64 root m x = .ok (v x).2

/-- Memory with the empty page table of `new_pgtbl`. -/
def emptyTable (root : Nat) : TableMem :=
  ⟨Function.update (fun _ => none) root (some fun _ => 0), 0, 0⟩

theorem exists_of_ret {x : Except Fault (Int × TableMem)} {ret : Int}
    (h : (x.map Prod.fst).toOption = some ret) : ∃ m, x = .ok (ret, m) := by
  match x, h with
  | .ok (_, m), rfl => exact ⟨m, rfl⟩

/-- Successful calls, none of which was refused a page, on an empty page table and on the function
that is nowhere defined. -/
inductive Runs (A : TableAlloc) (root : Nat) : TableMem → Translation → Prop
  | empty (hroot : 0 < root) : Runs A root (emptyTable root) fun _ => (0, protNone)
  | call {m m' : TableMem} {v : Translation} (c : Call) (hrun : Runs A root m v) (hc : c.Valid)
      (hw : c.NoWrap) (he : c.run A root m = .ok (0, m')) (hr : m'.refused = m.refused) :
      Runs A root m' (c.effect v)

/-! ## One call -/

/-- Any leaf is allowed. -/
abbrev anyLeaf : LeafRule := fun _ _ => True

variable {arch : PgtblArch} {v w : Translation}

theorem allowed_anyLeaf {fin : Nat} {fl : Pgprot} (hfl : hasRwx fl = true) :
    ∀ (n : Nat) {va pa : Nat} {v : Translation}, Allowed arch anyLeaf fin fl n va pa v
  | 0, _, _, _ => trivial
  | n + 1, _, _, _ => fun _ =>
    ⟨.inl hfl, fun _ _ _ _ _ => trivial, allowed_anyLeaf hfl n⟩

theorem splits_anyLeaf : Splits arch anyLeaf := fun _ _ _ _ _ _ _ => trivial

section Loop

variable {A : TableAlloc} {root fin : Nat}

/-- The loop of `unmap`: other pages keep their translation; the pages of the range lose it, unless
a table page is refused, and then one of them keeps it. -/
theorem unmapLoop_pages : ∀ (n : Nat) {va : Nat} {m : TableMem}, (∃ own, Sound riscv64 anyLeaf root m own) → Pending fin n va →
    OneHalf va fin →
    ∃ m', unmapLoop riscv64 A root fin n va m = .ok (0, m') ∧
      (∃ own, Sound riscv64 anyLeaf root m' own) ∧
      m.refused ≤ m'.refused ∧
      (∀ x, Canonical x → x < va ∨ fin ≤ x → view riscv64 root m' x = view riscv64 root m x) ∧
      (m'.refused = m.refused → ∀ x, Canonical x → va ≤ x → x < fin →
        view riscv64 root m' x = (0, protNone)) ∧
      (m'.refused ≠ m.refused → ∃ x, Canonical x ∧ va ≤ x ∧ x < fin ∧
        hasRwx (view riscv64 root m' x).2 = true) := by
  intro n
  induction n with
  | zero =>
    intro va m _ hp
    exact absurd hp.fuel (by omega)
  | succ n ih =>
    intro va m htree hp hhalf
    obtain ⟨own, h⟩ := htree
    by_cases hva : va < fin
    · have hb := highestPossibleLevel_spec riscv64_lawful hp.va_dvd (dvd_zero _) (hp.left_le hva)
      obtain ⟨hnext, hmod⟩ := hp.next riscv64_lawful hva hb
      have hcan := hhalf.canonical hva hp.fin_lt
      generalize hlevel : highestPossibleLevel riscv64 va 0 (fin - va) = t at hb hnext hmod
      have hstep : ∀ ret m₁, pgtblUnmap riscv64 A root va t m = .ok (ret, m₁) →
          unmapLoop riscv64 A root fin (n + 1) va m =
            unmapLoop riscv64 A root fin n (va + riscv64.pageSize t) m₁ := by
        intro ret m₁ he
        simp only [unmapLoop, if_pos hva, hlevel, he, hmod, bind, Except.bind]
      have hpos := page_le riscv64_lawful hb.level
      have hput : ∀ x, Canonical x → put riscv64 (view riscv64 root m) va t none x =
          if va ≤ x ∧ x < va + riscv64.pageSize t then (0, protNone) else view riscv64 root m x :=
        fun x hx => hb.put_eq hcan hx
      obtain ⟨hres, hmapped⟩ := pgtblUnmap_spec riscv64_lawful splits_anyLeaf h hb.level va
      have hfits := hb.fits
      rcases hres with ⟨m₁, he, htree₁, hv₁, hr₁⟩ | ⟨m₁, he, htree₁, hv₁, hr₁⟩ | ⟨_, _, hno⟩
      · obtain ⟨m', he', htree', hle, hout, hclear, hleft⟩ := ih htree₁ hnext (hhalf.next _)
        refine ⟨m', by rw [hstep _ _ he, he'], htree', by omega, fun x hx hxr => ?_,
          fun heq x hx h1 h2 => ?_, fun hne => ?_⟩
        · rw [hout x hx (by omega), hv₁, hput x hx, if_neg (by omega)]
        · by_cases h3 : x < va + riscv64.pageSize t
          · rw [hout x hx (.inl h3), hv₁, hput x hx, if_pos ⟨h1, h3⟩]
          · exact hclear (by omega) x hx (by omega) h2
        · obtain ⟨x, hx, h1, h2, h3⟩ := hleft (by omega)
          exact ⟨x, hx, by omega, h2, h3⟩
      · -- the page at `va` stays, and the later rounds do not touch it
        obtain ⟨m', he', htree', hle, hout, -, -⟩ := ih htree₁ hnext (hhalf.next _)
        refine ⟨m', by rw [hstep _ _ he, he'], htree', by omega, fun x hx hxr => ?_,
          fun heq => by omega, fun _ => ⟨va, hcan, le_rfl, hva, ?_⟩⟩
        · rw [hout x hx (by omega), hv₁]
        · rw [hout va hcan (by omega), hv₁]
          exact hmapped ⟨m₁, he⟩
      · exact hno.elim
    · refine ⟨m, ?_, ⟨own, h⟩, le_rfl, fun _ _ _ => rfl, fun _ x _ h1 h2 => by omega,
        fun hne => absurd rfl hne⟩
      simp only [unmapLoop, if_neg hva]

end Loop

section OneCall

variable {A : TableAlloc} {root x : Nat} {m m' : TableMem} {own : Owner}
  {va pa size : Nat} {fl : Pgprot} {c : Call}

theorem reads_iff (h : Sound riscv64 anyLeaf root m own) :
    Reads root m v ↔ ∀ x, Canonical x → view riscv64 root m x = v x := by
  unfold Reads
  simp only [pgtblLookup_eq h, pgtblLookupProt_eq h, Except.ok.injEq, Prod.ext_iff]

theorem rangeEnd_eq (hva : 4096 ∣ va) (hw : va + pageBytes size < 2 ^ 64) :
    alignDown va pageSize = va ∧ rangeEnd va size = va + pageBytes size := by
  have h1 : alignDown va pageSize = va := alignDown_of_dvd hva
  refine ⟨h1, ?_⟩
  unfold pageBytes at hw
  unfold rangeEnd
  rw [h1]
  unfold alignUp alignDown pageBytes
  rw [show pageSize = 4096 from rfl, show (4096 : Nat) - 1 = 4095 from rfl]
  rw [mod_eq_of_lt (by omega : size + 4095 < 2 ^ 64), mod_eq_of_lt hw]

theorem pending_of_noWrap (hva : 4096 ∣ va) (hw : va + pageBytes size < 2 ^ 64) :
    Pending (va + pageBytes size) (rounds va size) va := by
  obtain ⟨h1, h2⟩ := rangeEnd_eq hva hw
  have := Pending.start va size
  rwa [h1, h2] at this

theorem oneHalf_of_canonical (hc : c.Valid) : OneHalf c.va (c.va + c.bytes) := by
  rcases hc.canonical with h | ⟨h, -⟩
  · exact .inl h
  · exact .inr h

theorem map_eq (hva : 4096 ∣ va) (hpa : 4096 ∣ pa) (hw : va + pageBytes size < 2 ^ 64) :
    Pgtbl.map arch A root va pa size fl m =
      mapLoop arch A root (va + pageBytes size) fl (rounds va size) va pa m := by
  obtain ⟨h1, h2⟩ := rangeEnd_eq hva hw
  unfold Pgtbl.map
  rw [h1, h2, show alignDown pa pageSize = pa from alignDown_of_dvd hpa]

theorem unmap_eq (hva : 4096 ∣ va) (hw : va + pageBytes size < 2 ^ 64) :
    Pgtbl.unmap arch A root va size m =
      unmapLoop arch A root (va + pageBytes size) (rounds va size) va m := by
  obtain ⟨h1, h2⟩ := rangeEnd_eq hva hw
  unfold Pgtbl.unmap
  rw [h1, h2]

theorem map_effect (h : Sound riscv64 anyLeaf root m own) (hc : (Call.map va pa size fl).Valid)
    (hw : (Call.map va pa size fl).NoWrap)
    (he : (Call.map va pa size fl).run A root m = .ok (0, m')) :
    (∃ own', Sound riscv64 anyLeaf root m' own') ∧ ∀ x, Canonical x →
      view riscv64 root m' x = (Call.map va pa size fl).effect (view riscv64 root m) x := by
  obtain ⟨hpa, -, hlt, hfl⟩ := hc.args
  have hva : 4096 ∣ va := hc.aligned
  have hp := pending_of_noWrap hva hw
  change Pgtbl.map riscv64 A root va pa size fl m = .ok (0, m') at he
  rw [map_eq hva hpa hw] at he
  rcases mapLoop_spec riscv64_lawful (fun _ _ _ _ => trivial) h hp hpa hlt
    (allowed_anyLeaf hfl _) with ⟨m₁, he₁, hs, hv, -⟩ | ⟨m₁, k, he₁, -⟩ | ⟨m₁, he₁, -⟩
  · obtain rfl := ok_state he he₁
    refine ⟨hs, fun x hx => ?_⟩
    rw [hv, mapView_eq hx hp hpa (oneHalf_of_canonical hc)]
    exact if_congr Iff.rfl (if_pos hfl) rfl
  · rw [he] at he₁
    have : (0 : Int) = -einval := congrArg Prod.fst (Except.ok.inj he₁)
    exact absurd this (by decide)
  · rw [he] at he₁
    cases he₁

theorem unmap_effect (h : Sound riscv64 anyLeaf root m own) (hc : (Call.unmap va size).Valid)
    (hw : (Call.unmap va size).NoWrap) :
    ∃ m', (Call.unmap va size).run A root m = .ok (0, m') ∧
      (∃ own', Sound riscv64 anyLeaf root m' own') ∧ (m'.refused = m.refused → ∀ x, Canonical x →
        view riscv64 root m' x = (Call.unmap va size).effect (view riscv64 root m) x) := by
  have hva : 4096 ∣ va := hc.aligned
  have hp := pending_of_noWrap hva hw
  obtain ⟨m', he, hs, -, hout, hin, -⟩ := unmapLoop_pages (A := A) _ ⟨own, h⟩ hp
    (oneHalf_of_canonical hc)
  refine ⟨m', (unmap_eq hva hw).trans he, hs, fun hr x hx => ?_⟩
  unfold Call.effect
  split
  · rename_i hx'
    exact hin hr x hx hx'.1 hx'.2
  · rename_i hx'
    exact hout x hx (by simp only [Call.va, Call.bytes] at hx'; omega)

/-- The `remap` of one page, on any architecture: the page keeps its frame. -/
theorem remap_page {Q : LeafRule} (fl : Pgprot) (ha : arch.Lawful)
    (hS : Splits arch Q) (hQ : ∀ t pa fl, arch.pageSize t ∣ pa → Q t (pa, fl))
    (h : Sound arch Q root m own) (hva : 4096 ∣ va) (hw : va + 4096 < 2 ^ 64)
    (hpa : (view arch root m va).1 ≠ 0)
    (hM : Merges arch Q (put arch (view arch root m) va (arch.supportLevels - 1)
      (leafOf (arch.supportLevels - 1) (view arch root m va).1 fl)) va (arch.supportLevels - 1)) :
    (∃ m', Pgtbl.remap arch A root va pageSize fl m = .ok (0, m') ∧
        After arch Q root (put arch (view arch root m) va (arch.supportLevels - 1)
          (leafOf (arch.supportLevels - 1) (view arch root m va).1 fl)) m.refused m') ∨
      ∃ m', Pgtbl.remap arch A root va pageSize fl m = .ok (-1, m') ∧
        After arch Q root (view arch root m) (m.refused + 1) m' := by
  obtain ⟨hd, hlt, -⟩ := view_page ha root m hva (by decide : 0 < 4096) rfl
  have hlevels := ha.levels
  have h1 : alignDown va pageSize = va := alignDown_of_dvd hva
  have h2 : rangeEnd va pageSize = va + 4096 :=
    (rangeEnd_eq hva (by exact hw : va + pageBytes 4096 < 2 ^ 64)).2
  have h3 : rounds va pageSize = 2 := by
    unfold rounds
    rw [h1, h2, Nat.add_sub_cancel_left]
    rfl
  have hlast := highestPossibleLevel_page ha hva hd
  have hsize : arch.pageSize (arch.supportLevels - 1) = 4096 := ha.last_size
  have hgo : Pgtbl.remap arch A root va pageSize fl m =
      remapLoop arch A root (va + 4096) fl 2 va (view arch root m va).1 m := by
    simp only [Pgtbl.remap, pgtblLookup_eq h, bind, Except.bind, if_neg hpa, h1, h2, h3,
      show alignDown (view arch root m va).1 pageSize = _ from alignDown_of_dvd hd]
  have hround : ∀ ret m₁, pgtblRemap arch A root va (view arch root m va).1
      (arch.supportLevels - 1) fl m = .ok (ret, m₁) →
      Pgtbl.remap arch A root va pageSize fl m = .ok (if ret < 0 then -1 else 0, m₁) := by
    intro ret m₁ he
    rw [hgo, remapLoop, blockLoop, if_pos (by omega), Nat.add_sub_cancel_left, hlast]
    simp only [he, bind, Except.bind, hsize]
    split
    · rfl
    · rw [blockLoop, if_neg (by rw [Nat.mod_eq_of_lt hw]; omega)]
  rcases pgtblRemap_spec ha hS h (by omega)
    ⟨hd, hlt, .inr (by omega), fun _ => hQ _ _ _ (by rwa [hsize]), hM⟩ with
    ⟨m', he, hm'⟩ | ⟨m', he, hm'⟩ | ⟨m', -, -, hv⟩
  · exact .inl ⟨m', hround 0 m' he, hm'⟩
  · exact .inr ⟨m', hround _ m' he, hm'⟩
  · rw [hv] at hpa
    exact absurd rfl hpa

section

variable (h : Sound riscv64 anyLeaf root m own)

include h

theorem remap_effect (hc : (Call.remap va fl).Valid)
    (hw : (Call.remap va fl).NoWrap) (hpa : (view riscv64 root m va).1 ≠ 0) :
    (∃ m', (Call.remap va fl).run A root m = .ok (0, m') ∧
        (∃ own', Sound riscv64 anyLeaf root m' own') ∧ ∀ x, Canonical x →
          view riscv64 root m' x = (Call.remap va fl).effect (view riscv64 root m) x) ∨
      ∃ m', (Call.remap va fl).run A root m = .ok (-1, m') ∧ m'.refused = m.refused + 1 := by
  have hva : 4096 ∣ va := hc.aligned
  have hfl : hasRwx fl = true := hc.args
  have hhalf : OneHalf va (va + 4096) := oneHalf_of_canonical hc
  have hcan : Canonical va := hhalf.canonical (by omega) hw
  rcases remap_page fl riscv64_lawful splits_anyLeaf (fun _ _ _ _ => trivial) h hva
    hw hpa (fun _ _ _ _ _ => trivial) with ⟨m', he, hs, hv, -⟩ | ⟨m', he, -, -, hr⟩
  · refine .inl ⟨m', he, hs, fun x hx => ?_⟩
    have hpath : (radix riscv64).path x 3 = (radix riscv64).path va 3 ↔ va ≤ x ∧ x < va + 4096 :=
      path_eq_iff_of_canonical (by decide) hx hcan hva
    rw [hv]
    by_cases hin : va ≤ x ∧ x < va + 4096
    · refine (if_pos (hpath.2 hin)).trans (Eq.trans ?_ (if_pos hin).symm)
      obtain ⟨d, rfl⟩ := Nat.exists_eq_add_of_le hin.1
      obtain ⟨hdvd, hlt, hpage⟩ := view_page riscv64_lawful root m hva
        (by omega : d < 4096) (hpath.2 hin)
      refine (translate_leafOf (t := 2) hva hin.1 hin.2).trans ?_
      rcases hpage with ⟨-, hnone⟩ | hpage
      · rw [hnone] at hpa
        exact absurd rfl hpa
      · rw [mapped, if_pos hfl, hpage, Nat.add_sub_cancel_left, Nat.mod_eq_of_lt (by omega)]
    · exact (if_neg (mt hpath.1 hin)).trans (if_neg hin).symm
  · exact .inr ⟨m', he, hr⟩

theorem call_effect (hc : c.Valid)
    (hw : c.NoWrap) (he : c.run A root m = .ok (0, m')) (hr : m'.refused = m.refused) :
    (∃ own', Sound riscv64 anyLeaf root m' own') ∧
      ∀ x, Canonical x → view riscv64 root m' x = c.effect (view riscv64 root m) x := by
  cases c with
  | map va pa size fl => exact map_effect h hc hw he
  | unmap va size =>
    obtain ⟨m₁, he₁, hs, hv⟩ := unmap_effect h hc hw
    obtain rfl := ok_state he he₁
    exact ⟨hs, hv hr⟩
  | remap va fl =>
    by_cases hpa : (view riscv64 root m va).1 = 0
    · -- a page that is not mapped is an error
      have : (Call.remap va fl).run A root m = .ok (-1, m) := by
        simp [Call.run, Pgtbl.remap, pgtblLookup_eq h, hpa, bind, Except.bind]
      rw [he] at this
      have : (0 : Int) = -1 := congrArg Prod.fst (Except.ok.inj this)
      exact absurd this (by decide)
    · rcases remap_effect h hc hw hpa with ⟨m₁, he₁, hs, hv⟩ | ⟨m₁, he₁, hr₁⟩
      · obtain rfl := ok_state he he₁
        exact ⟨hs, hv⟩
      · obtain rfl := ok_state he he₁
        omega

theorem call_succeeds (hc : c.Valid) (hw : c.NoWrap) (hmust : c.MustSucceed (view riscv64 root m)) :
    ∃ ret m', c.run A root m = .ok (ret, m') ∧ (m'.refused = m.refused → ret = 0) := by
  cases c with
  | map va pa size fl => exact hmust.elim
  | unmap va size =>
    obtain ⟨m', he, -⟩ := unmap_effect h hc hw
    exact ⟨0, m', he, fun _ => rfl⟩
  | remap va fl =>
    rcases remap_effect h hc hw hmust with ⟨m', he, -⟩ | ⟨m', he, hr⟩
    · exact ⟨0, m', he, fun _ => rfl⟩
    · exact ⟨-1, m', he, fun h => by omega⟩

end

theorem effect_congr (h : v x = w x) : c.effect v x = c.effect w x := by
  cases c with
  | map | unmap => exact if_congr Iff.rfl rfl h
  | remap => exact if_congr Iff.rfl (by rw [h]) h

end OneCall

/-! ## Runs -/

section Runs

variable {A : TableAlloc} {root : Nat} {m : TableMem} {v : Translation}

/-- Along a run the page table stays a tree, and its view is the function. -/
theorem Runs.sound (hrun : Runs A root m v) : ∃ own, Sound riscv64 anyLeaf root m own ∧
    ∀ x, Canonical x → view riscv64 root m x = v x := by
  induction hrun with
  | empty hroot =>
    exact ⟨_, Sound.empty riscv64_lawful hroot 0 0, fun x _ => view_empty riscv64_lawful 0 0 x⟩
  | call c _ hc hw he hr ih =>
    obtain ⟨own, h, hv⟩ := ih
    obtain ⟨⟨own', h'⟩, hv'⟩ := call_effect h hc hw he hr
    exact ⟨own', h', fun x hx => (hv' x hx).trans (effect_congr (hv x hx))⟩

/-- **The page table refines the function.** After any run the lookups read the function; a call that
returns 0 changes it by the effect of the call; and `unmap` and the `remap` of a mapped page do return
0. -/
theorem calls_refine (hrun : Runs A root m v) : Reads root m v ∧ ∀ c : Call, c.Valid → c.NoWrap →
      (∀ m', c.run A root m = .ok (0, m') → m'.refused = m.refused → Reads root m' (c.effect v)) ∧
      (c.MustSucceed v → ∃ ret m', c.run A root m = .ok (ret, m') ∧
        (m'.refused = m.refused → ret = 0)) := by
  obtain ⟨own, h, hv⟩ := hrun.sound
  refine ⟨(reads_iff h).2 hv, fun c hc hw => ⟨fun m' he hr => ?_, fun hmust => ?_⟩⟩
  · obtain ⟨own', h', hv'⟩ := (hrun.call c hc hw he hr).sound
    exact (reads_iff h').2 hv'
  · refine call_succeeds h hc hw ?_
    cases c with
    | map | unmap => exact hmust
    | remap va fl =>
      have hhalf : OneHalf va (va + 4096) := oneHalf_of_canonical hc
      have hcan : Canonical va := hhalf.canonical (by omega) hw
      show (view riscv64 root m va).1 ≠ 0
      rw [hv va hcan]
      exact hmust

end Runs

def nextNumbered (n : Nat) (table : Nat → Option (Nat → Pte)) : Option Nat :=
  match table (4096 * (n % 2 ^ 32 + 1)) with
  | none => some (4096 * (n % 2 ^ 32 + 1))
  | some _ => none

theorem nextNumbered_spec {n table a} (h : nextNumbered n table = some a) :
    table a = none ∧ 4096 ∣ a ∧ 0 < a ∧ a < 2 ^ 64 := by
  unfold nextNumbered at h
  split at h
  · cases h
    exact ⟨‹_›, Dvd.intro _ rfl, by omega, by omega⟩
  · cases h

theorem nextNumbered_fresh {n table a} (h : nextNumbered n table = some a) : table a = none :=
  (nextNumbered_spec h).1

theorem nextNumbered_frame {n table a} (h : nextNumbered n table = some a) :
    4096 ∣ a ∧ 0 < a ∧ a < 2 ^ 64 :=
  (nextNumbered_spec h).2

/-- An allocator that numbers its pages. -/
def numbered : TableAlloc := ⟨nextNumbered, @nextNumbered_fresh, @nextNumbered_frame⟩

/-- A page mapped in an empty table. -/
theorem calls_refine_page : (((Call.map 0x1000 0x80000000 4096 protRead).run numbered (2 ^ 63)
      (emptyTable (2 ^ 63))).map Prod.fst).toOption = some 0 ∧
    ∀ m', (Call.map 0x1000 0x80000000 4096 protRead).run numbered (2 ^ 63)
        (emptyTable (2 ^ 63)) = .ok (0, m') → m'.refused = 0 →
      Reads (2 ^ 63) m' ((Call.map 0x1000 0x80000000 4096 protRead).effect
        fun _ => (0, protNone)) :=
  ⟨by decide +kernel, ((calls_refine (Runs.empty (by decide))).2
      (.map 0x1000 0x80000000 4096 protRead)
      ⟨by decide, .inl (by decide), by decide⟩ (by decide)).1⟩

/-- A page at the top of the address space is not mapped, though `map` returns 0. -/
theorem map_to_top_lost : (Call.map (2 ^ 64 - 4096) 0x80000000 4096 protRead).Valid ∧
      (Call.map (2 ^ 64 - 4096) 0x80000000 4096 protRead).run numbered (2 ^ 63)
        (emptyTable (2 ^ 63)) = .ok (0, emptyTable (2 ^ 63)) ∧
      ¬ Reads (2 ^ 63) (emptyTable (2 ^ 63))
        ((Call.map (2 ^ 64 - 4096) 0x80000000 4096 protRead).effect fun _ => (0, protNone)) := by
  refine ⟨⟨by decide, .inr (by decide), by decide⟩, rfl, fun h => ?_⟩
  have hs := Sound.empty (Q := anyLeaf) riscv64_lawful (by decide : 0 < 2 ^ 63) 0 0
  have hv := (reads_iff hs).1 h (2 ^ 64 - 4096) (by decide)
  exact absurd hv (by decide)

end ZzzOs.Mm.Pgtbl
