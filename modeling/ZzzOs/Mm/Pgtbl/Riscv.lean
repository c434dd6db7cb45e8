import ZzzOs.Mm.Pgtbl.Walk
import Mathlib.Tactic.IntervalCases

/-!
# Sv39

`arch/riscv64/mm/pgtbl.c`: three levels of 512 entries, for pages of 1 GiB, 2 MiB and 4 KiB. An
entry holds the frame from bit 10 on, the flags R, W, X, U in bits 1 to 4, and V in bit 0.
-/

namespace ZzzOs.Mm

open Lib Nat

def pteV : Pte := 1#64 <<< 0
def pteR : Pte := 1#64 <<< 1
def pteW : Pte := 1#64 <<< 2
def pteX : Pte := 1#64 <<< 3
def pteU : Pte := 1#64 <<< 4

namespace Riscv64

/-- The flags of an entry, as `arch_pgtbl_set_entry` computes them. -/
def pteFlags (flags : Pgprot) : Pte :=
  (if flags &&& protRead != 0 then pteR else 0) ||| (if flags &&& protWrite != 0 then pteW else 0) |||
    (if flags &&& protExec != 0 then pteX else 0) ||| (if flags &&& protUser != 0 then pteU else 0)

def entryFlags (e : Pte) : Pgprot :=
  (if e &&& pteR != 0 then protRead else 0) ||| (if e &&& pteW != 0 then protWrite else 0) |||
    (if e &&& pteX != 0 then protExec else 0) ||| (if e &&& pteU != 0 then protUser else 0)

def levelPageSize : Nat → Nat
  | 0 => 2 ^ 30
  | 1 => 2 ^ 21
  | 2 => 2 ^ 12
  | _ => 0

end Riscv64

open Riscv64 in
/-- The operations and features of riscv64. -/
def riscv64 : PgtblArch where
  supportLevels := 3
  hugePages := true
  pageSize := levelPageSize
  entries := fun _ => 4096 / 8
  levelIndex := fun level va => (va >>> (12 + (3 - 1 - level) * 9)) &&& (1 <<< 9 - 1)
  setEntry := fun _ _ _ pa flags => (BitVec.ofNat 64 pa >>> 12 <<< 10) ||| pteFlags flags ||| pteV
  entryGetPa := fun _ _ e => (e >>> 10 <<< 12).toNat
  entryGetFlags := fun _ e => entryFlags e
  entryIsValid := fun e => e &&& pteV != 0
  entryIsLeaf := fun e => e &&& (pteR ||| pteW ||| pteX) != 0

namespace Riscv64

/-! ## Bits -/

variable {w i pa k : Nat}

theorem and_twoPow_ne (x : BitVec w) (hi : i < w) :
    (x &&& BitVec.twoPow w i != 0) = x.getLsbD i := by
  rw [BitVec.and_twoPow]
  cases h : x.getLsbD i
  · simp
  · have hne : BitVec.twoPow w i ≠ 0#w := by
      intro e
      have := congrArg (BitVec.getLsbD · i) e
      simp [hi] at this
    simpa using hne

theorem getLsbD_ite_twoPow (b : Bool) (i : Nat) (hk : k < w) :
    (if b then BitVec.twoPow w k else 0#w).getLsbD i = (i == k && b) := by
  cases b
  · simp
  · simp only [if_true, BitVec.getLsbD_twoPow, Bool.and_true, decide_eq_true hk, Bool.true_and]
    by_cases hik : k = i
    · simp [hik]
    · simp [hik, Ne.symm hik]

theorem pteFlags_eq (flags : Pgprot) : pteFlags flags = (if flags.getLsbD 0 then pteR else 0) |||
      (if flags.getLsbD 1 then pteW else 0) ||| (if flags.getLsbD 2 then pteX else 0) |||
      (if flags.getLsbD 3 then pteU else 0) := by
  have h0 : (flags &&& protRead != 0) = flags.getLsbD 0 := and_twoPow_ne flags (by decide)
  have h1 : (flags &&& protWrite != 0) = flags.getLsbD 1 := and_twoPow_ne flags (by decide)
  have h2 : (flags &&& protExec != 0) = flags.getLsbD 2 := and_twoPow_ne flags (by decide)
  have h3 : (flags &&& protUser != 0) = flags.getLsbD 3 := and_twoPow_ne flags (by decide)
  rw [pteFlags, h0, h1, h2, h3]

theorem entryFlags_eq (e : Pte) : entryFlags e = (if e.getLsbD 1 then protRead else 0) |||
      (if e.getLsbD 2 then protWrite else 0) ||| (if e.getLsbD 3 then protExec else 0) |||
      (if e.getLsbD 4 then protUser else 0) := by
  have h0 : (e &&& pteR != 0) = e.getLsbD 1 := and_twoPow_ne e (by decide)
  have h1 : (e &&& pteW != 0) = e.getLsbD 2 := and_twoPow_ne e (by decide)
  have h2 : (e &&& pteX != 0) = e.getLsbD 3 := and_twoPow_ne e (by decide)
  have h3 : (e &&& pteU != 0) = e.getLsbD 4 := and_twoPow_ne e (by decide)
  rw [entryFlags, h0, h1, h2, h3]

theorem getLsbD_pteFlags (flags : Pgprot) (i : Nat) : (pteFlags flags).getLsbD i =
      ((i == 1 && flags.getLsbD 0) || (i == 2 && flags.getLsbD 1) || (i == 3 && flags.getLsbD 2) ||
        (i == 4 && flags.getLsbD 3)) := by
  rw [pteFlags_eq]
  simp only [BitVec.getLsbD_or]
  rw [← getLsbD_ite_twoPow (flags.getLsbD 0) i (by decide : 1 < 64),
    ← getLsbD_ite_twoPow (flags.getLsbD 1) i (by decide : 2 < 64),
    ← getLsbD_ite_twoPow (flags.getLsbD 2) i (by decide : 3 < 64),
    ← getLsbD_ite_twoPow (flags.getLsbD 3) i (by decide : 4 < 64)]
  rfl

theorem getLsbD_entryFlags (e : Pte) (i : Nat) :
    (entryFlags e).getLsbD i = (decide (i < 4) && e.getLsbD (i + 1)) := by
  have h : (entryFlags e).getLsbD i =
      ((i == 0 && e.getLsbD 1) || (i == 1 && e.getLsbD 2) || (i == 2 && e.getLsbD 3) ||
        (i == 3 && e.getLsbD 4)) := by
    rw [entryFlags_eq]
    simp only [BitVec.getLsbD_or]
    rw [← getLsbD_ite_twoPow (e.getLsbD 1) i (by decide : 0 < 32),
      ← getLsbD_ite_twoPow (e.getLsbD 2) i (by decide : 1 < 32),
      ← getLsbD_ite_twoPow (e.getLsbD 3) i (by decide : 2 < 32),
      ← getLsbD_ite_twoPow (e.getLsbD 4) i (by decide : 3 < 32)]
    rfl
  rw [h]
  rcases lt_or_ge i 4 with hi | hi
  · interval_cases i <;> simp
  · simp [show i ≠ 0 by omega, show i ≠ 1 by omega, show i ≠ 2 by omega, show i ≠ 3 by omega,
      not_lt.2 hi]

theorem getLsbD_rwxu (flags : Pgprot) (i : Nat) :
    (rwxu flags).getLsbD i = (decide (i < 4) && flags.getLsbD i) := by
  have h15 : (15#32).getLsbD i = decide (i < 4) := by
    rcases lt_or_ge i 4 with hi | hi
    · interval_cases i <;> rfl
    · rw [decide_eq_false (by omega)]
      exact testBit_lt_two_pow (lt_of_lt_of_le (by decide : 15 < 2 ^ 4)
        (Nat.pow_le_pow_right (by decide) hi))
  rw [rwxu, BitVec.getLsbD_and, h15, Bool.and_comm]

theorem and_three_ne (x : BitVec w) (hk : k + 2 < w) :
    (x &&& (BitVec.twoPow w k ||| BitVec.twoPow w (k + 1) ||| BitVec.twoPow w (k + 2)) != 0) =
      (x.getLsbD k || x.getLsbD (k + 1) || x.getLsbD (k + 2)) := by
  have hd : ∀ a b : BitVec w, (a ||| b != 0) = (a != 0 || b != 0) := by
    intro a b
    rw [Bool.eq_iff_iff, bne_iff_ne, Bool.or_eq_true, bne_iff_ne, bne_iff_ne, ne_eq,
      ← not_and_or, not_iff_not]
    exact BitVec.or_eq_zero_iff
  rw [BitVec.and_or_distrib_left, BitVec.and_or_distrib_left, hd, hd, and_twoPow_ne x (by omega),
    and_twoPow_ne x (by omega), and_twoPow_ne x (by omega)]

/-- The bits of a stored entry from bit 10 on are those of the frame. -/
theorem setEntry_high (level : Nat) (ty : DescType) (old : Pte) (pa : Nat) (flags : Pgprot)
    (hi : 10 ≤ i) :
    (riscv64.setEntry level ty old pa flags).getLsbD i =
      (decide (i < 64) && (BitVec.ofNat 64 pa).getLsbD (i + 2)) := by
  have hflags : (pteFlags flags).getLsbD i = false := by
    rw [getLsbD_pteFlags]
    simp [show i ≠ 1 by omega, show i ≠ 2 by omega, show i ≠ 3 by omega, show i ≠ 4 by omega]
  have hv : pteV.getLsbD i = false := by
    show (BitVec.twoPow 64 0).getLsbD i = false
    rw [BitVec.getLsbD_twoPow, decide_eq_false (by omega : ¬ 0 = i), Bool.and_false]
  show ((BitVec.ofNat 64 pa >>> 12 <<< 10) ||| pteFlags flags ||| pteV).getLsbD i = _
  rw [BitVec.getLsbD_or, BitVec.getLsbD_or, hflags, hv, BitVec.getLsbD_shiftLeft,
    BitVec.getLsbD_ushiftRight, decide_eq_false (by omega : ¬ i < 10),
    show 12 + (i - 10) = i + 2 by omega]
  simp

theorem setEntry_low (level : Nat) (ty : DescType) (old : Pte) (pa : Nat) (flags : Pgprot)
    (hi : i < 10) :
    (riscv64.setEntry level ty old pa flags).getLsbD i = ((pteFlags flags).getLsbD i || i == 0) := by
  have hv : pteV.getLsbD i = (i == 0) := by
    show (BitVec.twoPow 64 0).getLsbD i = _
    cases i with
    | zero => rfl
    | succ i => simp
  show ((BitVec.ofNat 64 pa >>> 12 <<< 10) ||| pteFlags flags ||| pteV).getLsbD i = _
  rw [BitVec.getLsbD_or, BitVec.getLsbD_or, hv, BitVec.getLsbD_shiftLeft, decide_eq_true hi]
  simp

theorem entryIsValid_eq (e : Pte) : riscv64.entryIsValid e = e.getLsbD 0 :=
  and_twoPow_ne e (by decide)

theorem entryIsLeaf_eq (e : Pte) :
    riscv64.entryIsLeaf e = (e.getLsbD 1 || e.getLsbD 2 || e.getLsbD 3) :=
  and_three_ne e (by decide : 1 + 2 < 64)

theorem hasRwx_eq (flags : Pgprot) :
    hasRwx flags = (flags.getLsbD 0 || flags.getLsbD 1 || flags.getLsbD 2) :=
  and_three_ne flags (by decide : 0 + 2 < 32)

theorem getPa_setEntry (hd : 4096 ∣ pa) (hlt : pa < 2 ^ 64) (level : Nat)
    (ty ty' : DescType) (old : Pte) (flags : Pgprot) :
    riscv64.entryGetPa level ty' (riscv64.setEntry level ty old pa flags) = pa := by
  have h : riscv64.setEntry level ty old pa flags >>> 10 <<< 12 = BitVec.ofNat 64 pa := by
    apply BitVec.eq_of_getLsbD_eq
    intro i hi
    rw [BitVec.getLsbD_shiftLeft, BitVec.getLsbD_ushiftRight, decide_eq_true hi, Bool.true_and]
    rcases lt_or_ge i 12 with hlow | hhigh
    · -- a frame has no bits below the page offset
      obtain ⟨k, rfl⟩ := hd
      rw [decide_eq_true hlow, BitVec.getLsbD_ofNat, show 4096 * k = 2 ^ 12 * k by norm_num,
        testBit_two_pow_mul, decide_eq_false (not_le.2 hlow)]
      simp
    · rw [setEntry_high _ _ _ _ _ (by omega), decide_eq_false (not_lt.2 hhigh),
        decide_eq_true (by omega : 10 + (i - 12) < 64), show 10 + (i - 12) + 2 = i by omega]
      simp
  show (riscv64.setEntry level ty old pa flags >>> 10 <<< 12).toNat = pa
  rw [h, BitVec.toNat_ofNat, mod_eq_of_lt hlt]

theorem getPa_frame (e : Pte) : 4096 ∣ (e >>> 10 <<< 12).toNat := by
  rw [BitVec.toNat_shiftLeft, shiftLeft_eq]
  exact (dvd_mod_iff (by decide)).2 (Dvd.intro_left _ rfl)

theorem entryFlags_setEntry (level : Nat) (ty : DescType) (old : Pte) (pa : Nat)
    (flags : Pgprot) : entryFlags (riscv64.setEntry level ty old pa flags) = rwxu flags := by
  apply BitVec.eq_of_getLsbD_eq
  intro i _
  rw [getLsbD_entryFlags, getLsbD_rwxu]
  rcases lt_or_ge i 4 with hi | hi
  · rw [setEntry_low _ _ _ _ _ (by omega), getLsbD_pteFlags]
    interval_cases i <;> simp
  · simp [not_lt.2 hi]

theorem rwxu_entryFlags (e : Pte) : rwxu (entryFlags e) = entryFlags e := by
  apply BitVec.eq_of_getLsbD_eq
  intro i _
  rw [getLsbD_rwxu, getLsbD_entryFlags, ← Bool.and_assoc, Bool.and_self]

/-! ## Addresses -/

theorem levelIndex_eq (level va : Nat) :
    riscv64.levelIndex level va = va / 2 ^ (12 + (2 - level) * 9) % 512 := by
  show (va >>> (12 + (3 - 1 - level) * 9)) &&& (2 ^ 9 - 1) = _
  rw [and_two_pow_sub_one_eq_mod, shiftRight_eq_div_pow]

end Riscv64

open Riscv64 in
theorem riscv64_lawful : riscv64.Lawful where
  levels := by decide
  zero_valid := by decide
  zero_leaf := by decide
  zero_pa _ _ := rfl
  set_valid l ty old pa fl := by
    rw [entryIsValid_eq, setEntry_low _ _ _ _ _ (by decide)]
    simp
  set_leaf l ty old pa fl := by
    rw [entryIsLeaf_eq, hasRwx_eq, setEntry_low _ _ _ _ _ (by decide),
      setEntry_low _ _ _ _ _ (by decide), setEntry_low _ _ _ _ _ (by decide)]
    simp only [getLsbD_pteFlags]
    simp
  set_pa l ty ty' old fl _ hd hlt := getPa_setEntry hd hlt l ty ty' old fl
  set_flags := entryFlags_setEntry
  leaf_flags l e := by
    show hasRwx (entryFlags e) = _
    rw [hasRwx_eq, entryIsLeaf_eq]
    simp only [getLsbD_entryFlags]
    simp
  rwxu_flags _ e := rwxu_entryFlags e
  pa_frame _ _ e := ⟨getPa_frame e, (e >>> 10 <<< 12).isLt⟩
  entries _ := rfl
  index_lt l va := by
    rw [levelIndex_eq]
    exact mod_lt _ (by decide)
  size_dvd l := by
    show 4096 ∣ levelPageSize l
    unfold levelPageSize
    split <;> decide
  size_gt l hl := by
    have hl : l < 2 := lt_of_succ_lt_succ hl
    interval_cases l <;> decide
  last_size := rfl
  offset l va hl := by
    have hl : l < 2 := lt_of_succ_lt_succ hl
    rw [levelIndex_eq]
    interval_cases l
    · show va % 2 ^ 30 = va / 2 ^ 21 % 512 * 2 ^ 21 + va % 2 ^ 21
      omega
    · show va % 2 ^ 21 = va / 2 ^ 12 % 512 * 2 ^ 12 + va % 2 ^ 12
      omega

namespace Pgtbl

open Riscv64

/-- The addresses of Sv39: bits 39 to 63 are copies of bit 38. -/
def Canonical (x : Nat) : Prop := x < 2 ^ 38 ∨ 2 ^ 64 - 2 ^ 38 ≤ x ∧ x < 2 ^ 64

instance (x : Nat) : Decidable (Canonical x) := by unfold Canonical; infer_instance

variable {x va t : Nat}

/-- Two addresses share an entry when their pages of that level are the same, up to the bits that
no level looks at. -/
theorem path_eq_iff (ht : t < 3) :
    (radix riscv64).path x (t + 1) = (radix riscv64).path va (t + 1) ↔
      x / riscv64.pageSize t % 2 ^ (9 * (t + 1)) = va / riscv64.pageSize t % 2 ^ (9 * (t + 1)) := by
  have hpath : ∀ y, (radix riscv64).path y 0 = [] := fun _ => rfl
  interval_cases t <;> simp only [path_succ_eq, hpath, List.nil_append, List.cons_append,
    List.cons.injEq, and_true, levelIndex_eq]
  · rfl
  · show x / 2 ^ 30 % 512 = va / 2 ^ 30 % 512 ∧ x / 2 ^ 21 % 512 = va / 2 ^ 21 % 512 ↔
      x / 2 ^ 21 % 2 ^ 18 = va / 2 ^ 21 % 2 ^ 18
    omega
  · show x / 2 ^ 30 % 512 = va / 2 ^ 30 % 512 ∧ x / 2 ^ 21 % 512 = va / 2 ^ 21 % 512 ∧
        x / 2 ^ 12 % 512 = va / 2 ^ 12 % 512 ↔
      x / 2 ^ 12 % 2 ^ 27 = va / 2 ^ 12 % 2 ^ 27
    omega

/-- Canonical addresses share an entry when they lie in the same page of its level. -/
theorem path_eq_iff_of_canonical (ht : t < 3) (hx : Canonical x)
    (hva : Canonical va) (hd : riscv64.pageSize t ∣ va) :
    (radix riscv64).path x (t + 1) = (radix riscv64).path va (t + 1) ↔
      va ≤ x ∧ x < va + riscv64.pageSize t := by
  rw [path_eq_iff ht]
  unfold Canonical at hx hva
  interval_cases t
  · change 2 ^ 30 ∣ va at hd
    change x / 2 ^ 30 % 2 ^ 9 = va / 2 ^ 30 % 2 ^ 9 ↔ va ≤ x ∧ x < va + 2 ^ 30
    omega
  · change 2 ^ 21 ∣ va at hd
    change x / 2 ^ 21 % 2 ^ 18 = va / 2 ^ 21 % 2 ^ 18 ↔ va ≤ x ∧ x < va + 2 ^ 21
    omega
  · change 2 ^ 12 ∣ va at hd
    change x / 2 ^ 12 % 2 ^ 27 = va / 2 ^ 12 % 2 ^ 27 ↔ va ≤ x ∧ x < va + 2 ^ 12
    omega

end Pgtbl

end ZzzOs.Mm
