import ZzzOs.Fs.Ext2.Model
import Mathlib.Algebra.Order.BigOperators.Group.Finset

/-!
# The scan of a bitmap, and the numbers its bits stand for

`scan_bitmap_0` looks at whole words; it finds the first clear bit below its bound. The bits below
`max_bits` of all groups stand for the numbers from `first` on, each for one.
-/

namespace ZzzOs.Fs.Ext2

open Finset Lib Nat

/-! ## Bits -/

/-- A word is written that differs from the old one in one bit. -/
theorem bit_setWord_one (buf : Bytes) {nr w : Nat} {v : Bool} (j : Nat)
    (hw : ∀ i < 64, w.testBit i =
      if i = nr % 64 then v else (buf.word (8 * (nr / 64)) 8).testBit i) :
    (buf.setWord (8 * (nr / 64)) 8 w).bit j = if j = nr then v else buf.bit j := by
  rw [Bytes.bit_setWord]
  by_cases hj : 8 * (8 * (nr / 64)) ≤ j ∧ j < 8 * (8 * (nr / 64) + 8)
  · have hword : 8 * (8 * (nr / 64)) + (j - 8 * (8 * (nr / 64))) = j := by omega
    have hlt : j - 8 * (8 * (nr / 64)) < 8 * 8 := by omega
    rw [if_pos hj, hw _ hlt, Bytes.testBit_word, hword, decide_eq_true hlt, Bool.true_and]
    exact if_congr (by omega) rfl rfl
  · rw [if_neg hj, if_neg (by omega)]

theorem bit_setBit (buf : Bytes) (nr j : Nat) :
    (setBit nr buf).bit j = if j = nr then true else buf.bit j := by
  refine bit_setWord_one buf j fun i _ => ?_
  rw [testBit_or, testBit_two_pow]
  split <;> simp [*, eq_comm]

theorem bit_clearBit (buf : Bytes) (nr j : Nat) :
    (clearBit nr buf).bit j = if j = nr then false else buf.bit j := by
  have hpow : 2 ^ (nr % 64) < 2 ^ 64 := Nat.pow_lt_pow_right (by decide) (by omega)
  refine bit_setWord_one buf j fun i hi => ?_
  rw [testBit_and, show 2 ^ 64 - 1 - 2 ^ (nr % 64) = 2 ^ 64 - (2 ^ (nr % 64) + 1) by omega,
    testBit_two_pow_sub_succ hpow, testBit_two_pow, decide_eq_true hi, Bool.true_and]
  split <;> simp [*, eq_comm]

theorem ffs_spec : ∀ (n x : Nat), x ≠ 0 → x < 2 ^ n →
    ffs n x < n ∧ x.testBit (ffs n x) = true ∧ ∀ j < ffs n x, x.testBit j = false
  | 0, x, h0, hlt => absurd (lt_one_iff.1 hlt) h0
  | n + 1, x, h0, hlt => by
    unfold ffs
    by_cases hx : x % 2 = 0
    · obtain ⟨h1, h2, h3⟩ := ffs_spec n (x / 2) (by omega) (by rw [pow_succ] at hlt; omega)
      rw [if_pos hx]
      refine ⟨by omega, by rw [testBit_succ]; exact h2, fun j hj => ?_⟩
      cases j with
      | zero => rw [testBit_zero, hx]; rfl
      | succ j => rw [testBit_succ]; exact h3 j (by omega)
    · rw [if_neg hx]
      refine ⟨by omega, ?_, nofun⟩
      rw [testBit_zero, decide_eq_true (by omega)]

theorem ffz_spec {x : Nat} (hx : x < 2 ^ 64) (h : x ≠ 2 ^ 64 - 1) :
    ffz x < 64 ∧ x.testBit (ffz x) = false ∧ ∀ j < ffz x, x.testBit j = true := by
  have hbit : ∀ j, (2 ^ 64 - 1 - x).testBit j = (decide (j < 64) && !x.testBit j) := fun j => by
    rw [show 2 ^ 64 - 1 - x = 2 ^ 64 - (x + 1) by omega, testBit_two_pow_sub_succ hx]
  obtain ⟨h1, h2, h3⟩ := ffs_spec 64 (2 ^ 64 - 1 - x) (by omega) (by omega)
  refine ⟨h1, ?_, fun j hj => ?_⟩
  · rw [hbit, decide_eq_true h1, Bool.true_and, Bool.not_eq_true'] at h2
    exact h2
  · have hfalse := h3 j hj
    have hlt : j < 64 := lt_trans hj h1
    rw [hbit, decide_eq_true hlt, Bool.true_and, Bool.not_eq_false'] at hfalse
    exact hfalse

/-! ## The scan -/

section Scan

variable {buf : Bytes} {maxBits n i p j : Nat}

theorem word_bit (buf : Bytes) (hj : j < 64) :
    (buf.word (8 * i) 8).testBit j = buf.bit (i * 64 + j) := by
  rw [Bytes.testBit_word, decide_eq_true hj, Bool.true_and,
    show 8 * (8 * i) + j = i * 64 + j by omega]

theorem scanFrom_succ (buf : Bytes) (maxBits n i : Nat) : scanFrom buf maxBits (n + 1) i =
      if buf.word (8 * i) 8 ≠ 2 ^ 64 - 1 ∧ i * 64 + ffz (buf.word (8 * i) 8) < maxBits then
        some (i * 64 + ffz (buf.word (8 * i) 8))
      else scanFrom buf maxBits n (i + 1) := rfl

/-- The bits of word `i`: all set, or set below the one that `ffz` gives. -/
theorem word_cases (buf : Bytes) (i : Nat) :
    (buf.word (8 * i) 8 = 2 ^ 64 - 1 ∧ ∀ j, i * 64 ≤ j → j < (i + 1) * 64 → buf.bit j = true) ∨
    (buf.word (8 * i) 8 ≠ 2 ^ 64 - 1 ∧ ffz (buf.word (8 * i) 8) < 64 ∧
      buf.bit (i * 64 + ffz (buf.word (8 * i) 8)) = false ∧
      ∀ j, i * 64 ≤ j → j < i * 64 + ffz (buf.word (8 * i) 8) → buf.bit j = true) := by
  have hlt : buf.word (8 * i) 8 < 2 ^ 64 := Bytes.word_lt buf (8 * i) 8
  by_cases hfull : buf.word (8 * i) 8 = 2 ^ 64 - 1
  · refine .inl ⟨hfull, fun j h1 h2 => ?_⟩
    have hone := word_bit buf (i := i) (j := j - i * 64) (by omega)
    rw [hfull, testBit_two_pow_sub_one, decide_eq_true (by omega),
      show i * 64 + (j - i * 64) = j by omega] at hone
    exact hone.symm
  · obtain ⟨h1, h2, h3⟩ := ffz_spec hlt hfull
    refine .inr ⟨hfull, h1, by rw [← word_bit buf h1]; exact h2, fun j hj1 hj2 => ?_⟩
    have hone := h3 (j - i * 64) (by omega)
    rwa [word_bit buf (by omega), show i * 64 + (j - i * 64) = j by omega] at hone

theorem scanFrom_stop (h : maxBits ≤ i * 64) : scanFrom buf maxBits n i = none := by
  induction n generalizing i with
  | zero => rfl
  | succ n ih => rw [scanFrom_succ, if_neg (by omega), ih (by omega)]

theorem scanFrom_some (hbefore : ∀ j < i * 64, buf.bit j = true)
    (h : scanFrom buf maxBits n i = some p) :
    p < maxBits ∧ buf.bit p = false ∧ ∀ j < p, buf.bit j = true := by
  induction n generalizing i with
  | zero => cases h
  | succ n ih =>
    rw [scanFrom_succ] at h
    rcases word_cases buf i with ⟨hfull, hset⟩ | ⟨hfull, h64, hclear, hset⟩
    · rw [if_neg fun hcon => hcon.1 hfull] at h
      refine ih (fun j hj => ?_) h
      rcases lt_or_ge j (i * 64) with hji | hji
      · exact hbefore j hji
      · exact hset j hji hj
    · by_cases hlt : i * 64 + ffz (buf.word (8 * i) 8) < maxBits
      · rw [if_pos ⟨hfull, hlt⟩] at h
        obtain rfl := Option.some.inj h
        refine ⟨hlt, hclear, fun j hj => ?_⟩
        rcases lt_or_ge j (i * 64) with hji | hji
        · exact hbefore j hji
        · exact hset j hji hj
      · -- the first clear bit lies beyond the bound, and so does every later word
        rw [if_neg fun hcon => hlt hcon.2, scanFrom_stop (by omega)] at h
        cases h

theorem scanFrom_none (h : scanFrom buf maxBits n i = none) (h1 : i * 64 ≤ j)
    (h2 : j < (i + n) * 64) (hj : j < maxBits) : buf.bit j = true := by
  induction n generalizing i with
  | zero => omega
  | succ n ih =>
    rw [scanFrom_succ] at h
    split_ifs at h with hnone
    rcases lt_or_ge j ((i + 1) * 64) with hji | hji
    · rcases word_cases buf i with ⟨-, hset⟩ | ⟨hfull, -, -, hset⟩
      · exact hset j h1 hji
      · refine hset j h1 ?_
        by_contra hcon
        exact hnone ⟨hfull, by omega⟩
    · exact ih h hji (by omega)

theorem scanBitmap0_some (h : scanBitmap0 buf maxBits = some p) :
    p < maxBits ∧ buf.bit p = false ∧ ∀ j < p, buf.bit j = true :=
  scanFrom_some (fun j hj => absurd hj (by omega)) h

theorem scanBitmap0_none (h : scanBitmap0 buf maxBits = none) :
    ∀ j < maxBits, buf.bit j = true :=
  fun j hj => scanFrom_none h (by omega) (by omega) hj

end Scan

/-! ## Numbers and bits -/

namespace Geometry

variable (G : Geometry) (k : Kind) {g j nr : Nat}

theorem blockSize_pos : 0 < G.blockSize := by
  have := G.blockSize_cases
  omega

theorem perGroup_pos : 0 < G.perGroup k := by
  cases k
  · exact G.blocksPerGroup_pos
  · exact G.inodesPerGroup_pos

theorem perGroup_le : G.perGroup k ≤ 8 * G.blockSize := by
  cases k
  · exact G.blocksPerGroup_le
  · exact G.inodesPerGroup_le

theorem groups_total : (G.groupsCount - 1) * G.perGroup k < G.total k ∧
    G.total k ≤ G.groupsCount * G.perGroup k := by
  cases k
  · exact G.groups_blocks
  · exact G.groups_inodes

theorem total_lt : G.first k + G.total k ≤ 2 ^ 32 := by
  have h1 := G.blocksCount_lt
  have h2 := G.inodesCount_lt
  have h3 := G.groups_blocks.1
  cases k
  · change G.firstDataBlock + (G.blocksCount - G.firstDataBlock) ≤ _
    omega
  · change 1 + G.inodesCount ≤ _
    omega

theorem groupsCount_pos : 0 < G.groupsCount := by
  have h := G.groups_total .block
  by_contra hcon
  obtain hzero : G.groupsCount = 0 := by omega
  rw [hzero, zero_mul] at h
  omega

theorem groupsCount_lt : G.groupsCount < 2 ^ 31 := by
  have h := G.gdb
  omega

theorem maxBits_le : G.maxBits k g ≤ G.perGroup k := by
  have hmod := mod_lt (G.total k) (G.perGroup_pos k)
  unfold maxBits
  split
  · split <;> omega
  · exact le_refl _

theorem maxBits_le_bits : G.maxBits k g ≤ 8 * G.blockSize :=
  le_trans (G.maxBits_le k) (G.perGroup_le k)

theorem total_eq : G.total k =
    (G.groupsCount - 1) * G.perGroup k + G.maxBits k (G.groupsCount - 1) := by
  obtain ⟨h1, h2⟩ := G.groups_total k
  obtain ⟨n, hn⟩ : ∃ n, G.groupsCount = n + 1 := ⟨G.groupsCount - 1, by have := G.groupsCount_pos; omega⟩
  rw [hn, Nat.add_sub_cancel] at h1
  rw [hn, succ_mul] at h2
  obtain ⟨r, hr⟩ := Nat.exists_eq_add_of_lt h1
  rw [maxBits, if_pos rfl, hn, Nat.add_sub_cancel]
  have hrp : r + 1 ≤ G.perGroup k := by omega
  rcases Nat.lt_or_eq_of_le hrp with hlt | heq
  · have hmod : G.total k % G.perGroup k = r + 1 := by
      rw [hr, add_assoc, mul_comm, mul_add_mod, mod_eq_of_lt hlt]
    rw [hmod, if_neg (succ_ne_zero r)]
    omega
  · have hmod : G.total k % G.perGroup k = 0 := by
      rw [hr, add_assoc, heq, mul_comm, mul_add_mod, mod_self]
    rw [hmod, if_pos rfl]
    omega

theorem sum_maxBits : ∑ g ∈ Finset.range G.groupsCount, G.maxBits k g = G.total k := by
  obtain ⟨n, hn⟩ : ∃ n, G.groupsCount = n + 1 := ⟨G.groupsCount - 1, by have := G.groupsCount_pos; omega⟩
  have hsame : ∀ g ∈ Finset.range n, G.maxBits k g = G.perGroup k := fun g hg => by
    rw [maxBits, if_neg (by have := mem_range.1 hg; omega)]
  have htotal := G.total_eq k
  rw [hn, Nat.add_sub_cancel] at htotal
  rw [htotal, hn, sum_range_succ, sum_congr rfl hsame, sum_const, card_range, Nat.nsmul_eq_mul]

/-- A bit below `max_bits` of a group stands for a number of the file system. -/
theorem nr_lt (hg : g < G.groupsCount) (hj : j < G.maxBits k g) :
    G.nr k g j < G.first k + G.total k := by
  have htotal := G.total_eq k
  unfold nr
  by_cases hlast : g = G.groupsCount - 1
  · subst hlast
    omega
  · have hle : (g + 1) * G.perGroup k ≤ (G.groupsCount - 1) * G.perGroup k :=
      mul_le_mul_right _ (by omega)
    have := G.maxBits_le k (g := g)
    rw [succ_mul] at hle
    omega

theorem nr_div (hj : j < G.maxBits k g) : (G.nr k g j - G.first k) / G.perGroup k = g := by
  have hj := lt_of_lt_of_le hj (G.maxBits_le k)
  rw [nr, Nat.add_assoc, Nat.add_sub_cancel_left, Nat.mul_comm, Nat.mul_add_div (G.perGroup_pos k),
    div_eq_of_lt hj, add_zero]

theorem nr_mod (hj : j < G.maxBits k g) : (G.nr k g j - G.first k) % G.perGroup k = j := by
  have hj := lt_of_lt_of_le hj (G.maxBits_le k)
  rw [nr, Nat.add_assoc, Nat.add_sub_cancel_left, Nat.mul_comm, Nat.mul_add_mod, mod_eq_of_lt hj]

theorem nr_inj {g' j' : Nat} (hj : j < G.maxBits k g) (hj' : j' < G.maxBits k g') :
    G.nr k g j = G.nr k g' j' ↔ g = g' ∧ j = j' := by
  refine ⟨fun he => ?_, fun ⟨h1, h2⟩ => by rw [h1, h2]⟩
  exact ⟨(G.nr_div k hj).symm.trans (by rw [he, G.nr_div k hj']),
    (G.nr_mod k hj).symm.trans (by rw [he, G.nr_mod k hj'])⟩

theorem exists_bit (h1 : G.first k ≤ nr) (h2 : nr < G.first k + G.total k) :
    ∃ g j, g < G.groupsCount ∧ j < G.maxBits k g ∧ nr = G.nr k g j := by
  have hpos := G.perGroup_pos k
  have htotal := G.total_eq k
  obtain ⟨hgroups, hle⟩ := G.groups_total k
  have hdiv := div_add_mod (nr - G.first k) (G.perGroup k)
  have hmod := mod_lt (nr - G.first k) hpos
  have hg : (nr - G.first k) / G.perGroup k < G.groupsCount :=
    Nat.div_lt_of_lt_mul (by rw [Nat.mul_comm]; omega)
  refine ⟨_, (nr - G.first k) % G.perGroup k, hg, ?_, ?_⟩
  · by_cases hlast : (nr - G.first k) / G.perGroup k = G.groupsCount - 1
    · rw [hlast] at hdiv ⊢
      rw [mul_comm] at hdiv
      omega
    · rw [maxBits, if_neg hlast]
      exact hmod
  · rw [Geometry.nr, mul_comm _ (G.perGroup k)]
    omega

end Geometry

end ZzzOs.Fs.Ext2
