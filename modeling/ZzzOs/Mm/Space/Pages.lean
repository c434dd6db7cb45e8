import ZzzOs.Mm.Space.Model
import ZzzOs.Mm.Pgtbl.Refine
import ZzzOs.Mm.Mmap.Choose

/-!
# Pages of an address space

The rule for the loops over the pages of a range (`eachPage_outcome`), and what one call of
`remap`, `map` and `unmap` does to the frames of the pages below `2 ^ 38` (`frameAt`).
-/

namespace ZzzOs.Mm.Space

open Nat Lib Pgtbl Mmap

/-! ## Loops -/

/-- The range of a system call that `mmap_range_valid` accepts. -/
structure UserRange (start len : Nat) : Prop where
  start_dvd : 4096 ∣ start
  len_dvd : 4096 ∣ len
  pos : 0 < len
  low : start + len < 2 ^ 38

/-- How a round ends: the loop goes on, is left with a value, or the kernel faults. -/
def Outcome {σ : Type} (Next : σ → Prop) (Exit : Int → σ → Prop) (Err : Fault → Prop) :
    Except Fault (Option Int × σ) → Prop
  | .ok (none, s) => Next s
  | .ok (some ret, s) => Exit ret s
  | .error f => Err f

/-- A loop over the pages of a range keeps what each round carries to the next page. -/
theorem eachPage_outcome {σ : Type} (body : Nat → σ → Except Fault (Option Int × σ))
    (Inv : Nat → σ → Prop) (Exit : Int → σ → Prop) (Err : Fault → Prop)
    {s : σ} (hr : UserRange start len) (hinv : Inv start s)
    (hstep : ∀ va s, start ≤ va → va < start + len → 4096 ∣ va → Inv va s →
      Outcome (Inv (va + 4096)) Exit Err (body va s)) :
    Outcome (Inv (start + len)) Exit Err (eachPage body start (start + len) s) := by
  have hlow := hr.low
  have hfin : 4096 ∣ start + len := (Nat.dvd_add_right hr.start_dvd).2 hr.len_dvd
  have hloop : ∀ (n : Nat) {va : Nat} {s : σ}, 4096 ∣ va → start ≤ va → va ≤ start + len →
      start + len - va < 4096 * n → Inv va s →
      Outcome (Inv (start + len)) Exit Err (forPages body (start + len) n va s) := by
    intro n
    induction n with
    | zero =>
      intro va s _ _ _ hn
      omega
    | succ n ih =>
      intro va s hva hs hle hn hinv
      unfold forPages
      split_ifs with hlt
      · have hone := hstep va s hs hlt hva hinv
        match hb : body va s with
        | .error f | .ok (some ret, s') =>
          rw [hb] at hone
          exact hone
        | .ok (none, s') =>
          rw [hb] at hone
          show Outcome _ _ _ (forPages body (start + len) n ((va + 4096) % 2 ^ 64) s')
          rw [Nat.mod_eq_of_lt (by omega)]
          exact ih (by omega) (by omega) (by omega) (by omega) hone
      · obtain rfl : va = start + len := by omega
        exact hinv
  refine hloop _ hr.start_dvd le_rfl (Nat.le_add_right _ _) ?_ hinv
  show start + len - start < 4096 * ((start + len - start + 4095) / 4096 + 1)
  omega

theorem userRange_of_valid {addr len : Nat} (haddr : addr < 2 ^ 64) (hal : addr % pageSize = 0)
    (hvalid : mmapRangeValid addr (alignUp len pageSize) = true) :
    UserRange addr (alignUp len pageSize) := by
  have hl : 0 < alignUp len pageSize := by
    rcases Nat.eq_zero_or_pos (alignUp len pageSize) with hz | hl
    · rw [hz, mmapRangeValid_zero] at hvalid
      cases hvalid
    · exact hl
  have hlt : alignUp len pageSize < 2 ^ 64 := (alignDown_le _ _).trans_lt (Nat.mod_lt _ (by decide))
  have hb := (mmapRangeValid_iff haddr hl hlt).1 hvalid
  have hsig : userSigtrampAddr < 2 ^ 38 := by decide
  exact ⟨Nat.dvd_of_mod_eq_zero hal, dvd_alignUp len pageSize, hl, hb.2.trans_lt hsig⟩

/-! ## Frames -/

section Frames

variable {A : TableAlloc} {root va y : Nat} {m m' : TableMem} {own : Owner}
  {fl : Pgprot}

/-- A page of the part of the address space that belongs to the process. -/
structure UserPage (va : Nat) : Prop where
  aligned : 4096 ∣ va
  low : va < 2 ^ 38

theorem UserPage.fits (h : UserPage va) : va + 4096 ≤ 2 ^ 38 := by
  have := h.aligned
  have := h.low
  omega

theorem UserPage.canonical (h : UserPage va) : Canonical va := .inl h.low

/-- The frame of a page, or 0. -/
def frameAt (root : Nat) (m : TableMem) (va : Nat) : Nat := (view riscv64 root m va).1

/-- The page table is a tree. -/
def Tree (root : Nat) (m : TableMem) : Prop := ∃ own, Sound riscv64 anyLeaf root m own

theorem lookup_frameAt (h : Tree root m) (va : Nat) :
    pgtblLookup riscv64 root m va = .ok (frameAt root m va) := by
  obtain ⟨own, h⟩ := h
  exact pgtblLookup_eq h va

theorem put_page (hva : UserPage va) (hy : UserPage y) (v : Translation)
    (r : Option (Nat × (Nat × Pgprot))) :
    put riscv64 v va 2 r y = if y = va then translate riscv64 va r else v y := by
  have hpath := path_eq_iff_of_canonical (t := 2) (by decide) hy.canonical hva.canonical hva.aligned
  have hsize : riscv64.pageSize 2 = 4096 := rfl
  have h1 := hva.aligned
  have h2 := hy.aligned
  unfold put
  by_cases he : y = va
  · rw [if_pos he, he, if_pos rfl]
  · rw [if_neg he, if_neg]
    rw [hpath, hsize]
    omega

/-- `remap` of a page that has a frame: it returns, and unless the flags allow no access at all
every page keeps its frame. -/
theorem remap_frames (fl : Pgprot) (h : Tree root m) (hva : UserPage va) (hpa : frameAt root m va ≠ 0) :
    ∃ ret m', Pgtbl.remap riscv64 A root va pageSize fl m = .ok (ret, m') ∧ Tree root m' ∧
      (hasRwx fl = true → ∀ y, UserPage y → frameAt root m' y = frameAt root m y) := by
  obtain ⟨own, h⟩ := h
  have hfits := hva.fits
  rcases remap_page fl riscv64_lawful splits_anyLeaf (fun _ _ _ _ => trivial) h hva.aligned
    (by omega) hpa (fun _ _ _ _ _ => trivial) with ⟨m', he, hs, hv, -⟩ | ⟨m', he, hs, hv, -⟩
  · refine ⟨0, m', he, hs, fun hfl y hy => ?_⟩
    unfold frameAt
    rw [hv]
    show (put riscv64 _ va 2 (leafOf 2 _ fl) y).1 = _
    rw [put_page hva hy]
    split_ifs with heq
    · obtain ⟨hd, hlt, -⟩ := view_page riscv64_lawful root m hva.aligned (by decide : 0 < 4096) rfl
      have hmod : va % riscv64.pageSize 2 = 0 := mod_eq_zero_of_dvd hva.aligned
      rw [heq, leafOf, if_pos hfl]
      show (_ + va % riscv64.pageSize 2) % 2 ^ 64 = _
      rw [hmod, add_zero, mod_eq_of_lt hlt]
    · rfl
  · refine ⟨-1, m', he, hs, fun _ y _ => ?_⟩
    unfold frameAt
    rw [hv]

end Frames

def nextPage (n : Nat) (used : Nat → Bool) : Option Nat :=
  if used (4096 * (n % 2 ^ 32 + 1)) then none else some (4096 * (n % 2 ^ 32 + 1))

theorem nextPage_fresh {n used a} (h : nextPage n used = some a) : used a = false := by
  unfold nextPage at h
  split_ifs at h
  cases h
  exact Bool.eq_false_iff.2 ‹_›

theorem nextPage_frame {n used a} (h : nextPage n used = some a) :
    4096 ∣ a ∧ 0 < a ∧ a < 2 ^ 64 := by
  unfold nextPage at h
  split_ifs at h
  cases h
  exact ⟨Dvd.intro _ rfl, by omega, by omega⟩

/-- An allocator that numbers its pages. -/
def numberedPages : PageAlloc := ⟨nextPage, @nextPage_fresh, @nextPage_frame⟩

end ZzzOs.Mm.Space
