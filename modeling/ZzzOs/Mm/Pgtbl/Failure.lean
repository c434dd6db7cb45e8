import ZzzOs.Mm.Pgtbl.Align

/-!
# Refused pages

What the callers of `mm/mm.c` learn when a page for a table is refused. `remap` returns -1. `unmap`
drops the result of `pgtbl_unmap` and returns 0. `map_cb` returns -1, which is no `walk_action_t`,
so the walk goes on through the empty entry to address 0.
-/

namespace ZzzOs.Mm.Pgtbl

open Lib

/-- The tables below `root` form a tree. -/
def IsPageTable (root : Nat) (m : TableMem) : Prop := ∃ own, Sound riscv64 anyLeaf root m own

/-- A page was refused between `m` and the end of the call. -/
def Refused (m : TableMem) : Except Fault (Int × TableMem) → Prop
  | .ok (_, m') => m.refused < m'.refused
  | .error (.notTable _ m') => m.refused < m'.refused
  | .error .fuel => False

namespace RangeCall

/-- When a page is refused the call returns an error, and `map` has left the addresses outside its
range alone. A call that returns has accessed page-table pages only. -/
def Reports (A : TableAlloc) (root : Nat) (m : TableMem) (c : RangeCall) : Prop :=
  Refused m (c.run A root m) → ∃ ret m', c.run A root m = .ok (ret, m') ∧ ret < 0 ∧
    match c with
    | .map va _ size _ => ∀ x, ¬ (va ≤ x ∧ x < va + size) →
        pgtblLookup riscv64 root m' x = pgtblLookup riscv64 root m x
    | .remap _ _ _ => True
    | .unmap _ _ => True

def IsRemap : RangeCall → Prop
  | .remap _ _ _ => True
  | _ => False

/-- Entries above the last level are stored with flags that allow some access. -/
def Stores : RangeCall → Prop
  | .map _ _ size fl => hasRwx fl = true ∨ size < 2 ^ 20
  | .remap _ size fl => hasRwx fl = true ∨ size < 2 ^ 20
  | .unmap _ _ => True

end RangeCall

section

variable {A : TableAlloc} {root : Nat} {m : TableMem} {fin : Nat} {fl : Pgprot}

theorem allowed_short : ∀ (n : Nat) {va pa : Nat} {v : Translation}, Pending fin n va →
    4096 ∣ pa → fin - va < 2 ^ 21 → Allowed riscv64 anyLeaf fin fl n va pa v := by
  intro n
  induction n with
  | zero =>
    intro va pa v _ _ _
    trivial
  | succ n ih =>
    intro va pa v hp hpa hshort hva
    have hb := highestPossibleLevel_spec riscv64_lawful hp.va_dvd hpa (hp.left_le hva)
    obtain ⟨hnext, -⟩ := hp.next riscv64_lawful hva hb
    refine ⟨.inr ?_, fun _ _ _ _ _ => trivial, ih hnext (pa_next riscv64_lawful hpa _) (by omega)⟩
    have hlevel : highestPossibleLevel riscv64 va pa (fin - va) < 3 := hb.level
    have hfits := hb.fits
    generalize highestPossibleLevel riscv64 va pa (fin - va) = t at hlevel hfits ⊢
    interval_cases t
    · change 2 ^ 30 ≤ _ at hfits
      omega
    · change 2 ^ 21 ≤ _ at hfits
      omega
    · rfl

theorem allowed_of_stores {va pa size : Nat} {v : Translation}
    (h : hasRwx fl = true ∨ size < 2 ^ 20) (hpa : 4096 ∣ pa) :
    Allowed riscv64 anyLeaf (rangeEnd va size) fl (rounds va size) (alignDown va pageSize) pa v := by
  rcases h with h | h
  · exact allowed_anyLeaf h _
  · refine allowed_short _ (Pending.start va size) hpa ?_
    have h1 : rangeEnd va size ≤ alignDown va pageSize + alignUp size pageSize := Nat.mod_le _ _
    have h2 : alignUp size pageSize ≤ size + (pageSize - 1) :=
      (alignUp_bounds (by decide) (by show size + (4096 - 1) < 2 ^ 64; omega)).2
    have h3 : pageSize = 4096 := rfl
    omega

/-- **A call reports a refused page** when it is a `remap`, and otherwise only when no page was
refused. -/
theorem reports_iff {c : RangeCall} (hm : IsPageTable root m) (hw : c.Words) (hs : c.Stores) :
    c.Reports A root m ↔ c.IsRemap ∨ ¬ Refused m (c.run A root m) := by
  obtain ⟨own, h⟩ := hm
  cases c with
  | map va pa size fl =>
    have hpa : 4096 ∣ alignDown pa pageSize := dvd_alignDown pa pageSize
    have hrun : (RangeCall.map va pa size fl).run A root m =
      mapLoop riscv64 A root (rangeEnd va size) fl (rounds va size) (alignDown va pageSize)
        (alignDown pa pageSize) m := rfl
    unfold RangeCall.Reports
    rw [hrun]
    rcases mapLoop_spec riscv64_lawful (fun _ _ _ _ => trivial) h (Pending.start va size)
      hpa (alignDown_lt hw) (allowed_of_stores hs hpa) with
      ⟨m', he, -, -, hr⟩ | ⟨m', k, he, -, -, hr⟩ | ⟨m', he, hr⟩ <;> rw [he]
    · exact ⟨fun _ => .inr hr.not_gt, fun _ hyes => absurd hyes hr.not_gt⟩
    · exact ⟨fun _ => .inr hr.not_gt, fun _ hyes => absurd hyes hr.not_gt⟩
    · -- the walk has left the page table
      have hyes : Refused m (.error (.notTable 0 m')) := hr
      constructor
      · intro hrep
        obtain ⟨ret, m'', hok, -⟩ := hrep hyes
        cases hok
      · rintro (hno | hno)
        · exact hno.elim
        · exact absurd hyes hno
  | remap va size fl =>
    refine ⟨fun _ => .inl trivial, fun _ hyes => ?_⟩
    have hrun : (RangeCall.remap va size fl).run A root m =
        if (view riscv64 root m va).1 = 0 then .ok (-1, m)
        else remapLoop riscv64 A root (rangeEnd va size) fl (rounds va size) (alignDown va pageSize)
          (alignDown (view riscv64 root m va).1 pageSize) m := by
      simp only [RangeCall.run, Pgtbl.remap, pgtblLookup_eq h, bind, Except.bind]
    rw [hrun] at hyes ⊢
    split_ifs at hyes with hne
    · exact absurd hyes (Nat.lt_irrefl _)
    · have hpa := dvd_alignDown (view riscv64 root m va).1 pageSize
      rw [if_neg hne]
      rcases remapLoop_spec riscv64_lawful splits_anyLeaf (fun _ _ _ _ => trivial) h
        (Pending.start va size) hpa (alignDown_lt view_lt) (allowed_of_stores hs hpa) with
        ⟨m', he, -, -, hr⟩ | ⟨m', k, he, -⟩ | ⟨m', he, hr⟩
      · rw [he] at hyes
        exact absurd hyes hr.not_gt
      · exact ⟨-1, m', he, by decide, trivial⟩
      · rw [he] at hyes
        exact absurd hyes hr.not_lt
  | unmap va size =>
    have hrun : (RangeCall.unmap va size).run A root m =
      unmapLoop riscv64 A root (rangeEnd va size) (rounds va size) (alignDown va pageSize) m := rfl
    obtain ⟨m', own', he, -⟩ := unmapLoop_spec riscv64_lawful splits_anyLeaf _ h
      (Pending.start va size)
    unfold RangeCall.Reports
    rw [hrun, he]
    constructor
    · intro hrep
      refine .inr fun hyes => ?_
      obtain ⟨ret, m'', hok, hneg, -⟩ := hrep hyes
      obtain rfl : 0 = ret := congrArg Prod.fst (Except.ok.inj hok)
      exact absurd hneg (by decide)
    · rintro (hno | hno) hyes
      · exact hno.elim
      · exact absurd hyes hno

end

/-- An allocator with no page left. -/
def refusing : TableAlloc where
  next _ _ := none
  fresh h := nomatch h
  frame h := nomatch h

/-- A `remap` of a page in a leaf of 2 MiB needs a page to split it, and reports that there is none. -/
theorem reports_iff_remap : ((do
        let (_, m) ← Pgtbl.map riscv64 numbered (2 ^ 63) 0 0x80000000 0x200000 protRead
          (emptyTable (2 ^ 63))
        let (ret, m') ← (RangeCall.remap 0x1000 4096 protRead).run refusing (2 ^ 63) m
        .ok (ret, m.refused, m'.refused)) : Except Fault (Int × Nat × Nat)).toOption =
        some (-1, 0, 1) ∧
    ∀ m, Pgtbl.map riscv64 numbered (2 ^ 63) 0 0x80000000 0x200000 protRead
        (emptyTable (2 ^ 63)) = .ok (0, m) → m.refused = 0 →
      (RangeCall.remap 0x1000 4096 protRead).Reports refusing (2 ^ 63) m := by
  refine ⟨by decide +kernel, fun m he hr => ?_⟩
  have hrun := (Runs.empty (by decide)).call (.map 0 0x80000000 0x200000 protRead)
    ⟨by decide, .inl (by decide), by decide⟩ (by decide) he hr
  obtain ⟨own, h, -⟩ := hrun.sound
  exact (reports_iff (c := .remap 0x1000 4096 protRead) ⟨own, h⟩ trivial (.inl (by decide))).2
    (.inl trivial)

/-- `map` without a page for a table goes to address 0; `unmap` of a page in a leaf of 2 MiB
returns 0, and the page is still translated. -/
theorem refusal_unreported :
    ¬ (RangeCall.map 0x1000 0x80000000 4096 protRead).Reports refusing (2 ^ 63)
        (emptyTable (2 ^ 63)) ∧
      ((do
        let (_, m) ← Pgtbl.map riscv64 numbered (2 ^ 63) 0 0x80000000 0x200000 protRead
          (emptyTable (2 ^ 63))
        let (ret, m') ← Pgtbl.unmap riscv64 refusing (2 ^ 63) 0 4096 m
        let pa ← pgtblLookup riscv64 (2 ^ 63) m' 0
        .ok (ret, m'.refused, pa)) : Except Fault (Int × Nat × Nat)).toOption =
        some (0, 1, 0x80000000) := by
  refine ⟨fun hrep => ?_, by decide +kernel⟩
  obtain ⟨ret, m', hok, -⟩ := hrep (show 0 < 1 from by decide)
  cases hok

end ZzzOs.Mm.Pgtbl
