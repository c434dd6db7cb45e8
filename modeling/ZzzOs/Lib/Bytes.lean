import Mathlib.Data.Nat.Bitwise

/-!
# Byte memory with little-endian words

`word m a n` is the number in the `n` bytes at `a`, lowest byte first, and `bit m k` is bit `k` of the
memory, counted from address 0. The two agree whatever the width of the words (`testBit_word`), so what
a store of a word does is said once, for bits (`bit_setWord`).
-/

namespace ZzzOs.Lib

open Nat List

abbrev Bytes := Nat → UInt8

namespace Bytes

variable {m m' buf buf' : Bytes} {a b n len k v x l off : Nat}

/-- Bit `k` of the memory. -/
def bit (m : Bytes) (k : Nat) : Bool := (m (k / 8)).toNat.testBit (k % 8)

/-- The word of `n` bytes at `a`. -/
def word (m : Bytes) (a : Nat) : Nat → Nat
  | 0 => 0
  | n + 1 => (m a).toNat + 256 * word m (a + 1) n

def setWord (m : Bytes) (a n v : Nat) : Bytes := fun x =>
  if a ≤ x ∧ x < a + n then UInt8.ofNat (v / 256 ^ (x - a)) else m x

/-- The `len` bytes at `a`, as a buffer. -/
def slice (m : Bytes) (a len : Nat) : Bytes := fun x => if x < len then m (a + x) else 0

def write (m : Bytes) (a len : Nat) (buf : Bytes) : Bytes := fun x =>
  if a ≤ x ∧ x < a + len then buf (x - a) else m x

/-! ## Copies -/

theorem slice_of_lt (h : x < len) : m.slice a len x = m (a + x) := if_pos h

theorem write_in (h : x < len) : m.write a len buf (a + x) = buf x := by
  rw [write, if_pos (by omega), Nat.add_sub_cancel_left]

theorem write_out (h : x < a ∨ a + len ≤ x) : m.write a len buf x = m x :=
  if_neg (by omega)

theorem slice_write_self (h : x < len) : (m.write a len buf).slice a len x = buf x := by
  rw [slice_of_lt h, write_in h]

theorem write_congr (h : ∀ x < len, buf x = buf' x) : m.write a len buf = m.write a len buf' := by
  funext x
  unfold write
  split
  · exact h _ (by omega)
  · rfl

theorem write_write_slice (m d : Bytes) (a b k l : Nat) :
    (m.write a k (d.slice b k)).write (a + k) l (d.slice (b + k) l) =
      m.write a (k + l) (d.slice b (k + l)) := by
  funext x
  unfold write slice
  by_cases hfirst : a ≤ x ∧ x < a + k
  · rw [if_neg (by omega), if_pos hfirst, if_pos (by omega), if_pos (by omega), if_pos (by omega)]
  · by_cases hsecond : a + k ≤ x ∧ x < a + k + l
    · rw [if_pos hsecond, if_pos (by omega), if_pos (by omega), if_pos (by omega)]
      congr 1
      omega
    · rw [if_neg hsecond, if_neg hfirst, if_neg (by omega)]

/-- A range is copied to a buffer, changed there and copied back: only the change remains. -/
theorem write_modified (d r buf : Bytes) (h : off + k ≤ len) :
    d.write a len ((r.write 0 len (d.slice a len)).write off k buf) = d.write (a + off) k buf := by
  funext x
  unfold write slice
  split
  · by_cases hmod : a + off ≤ x ∧ x < a + off + k
    · rw [if_pos (by omega), if_pos hmod]
      congr 1
      omega
    · rw [if_neg (by omega), if_pos (by omega), if_pos (by omega), if_neg hmod]
      congr 1
      omega
  · rw [if_neg (by omega)]

/-! ## Bits of words -/

theorem toNat_lt_two_pow (m : Bytes) (a : Nat) : (m a).toNat < 2 ^ 8 := (m a).toNat_lt

theorem testBit_word : ∀ (n a j : Nat),
    (m.word a n).testBit j = (decide (j < 8 * n) && m.bit (8 * a + j))
  | 0, a, j => by simp [word]
  | n + 1, a, j => by
    have hsplit := testBit_two_pow_mul_add (m.word (a + 1) n) (toNat_lt_two_pow m a) j
    rw [show (2 : Nat) ^ 8 = 256 from rfl, add_comm] at hsplit
    rw [word, hsplit]
    by_cases hj : j < 8
    · have h1 : (8 * a + j) / 8 = a := by omega
      have h2 : (8 * a + j) % 8 = j := by omega
      rw [if_pos hj, decide_eq_true (by omega), Bool.true_and, bit, h1, h2]
    · have h1 : 8 * (a + 1) + (j - 8) = 8 * a + j := by omega
      have h2 : decide (j - 8 < 8 * n) = decide (j < 8 * (n + 1)) :=
        decide_eq_decide.2 (by omega)
      rw [if_neg hj, testBit_word n (a + 1) (j - 8), h1, h2]

theorem word_lt (m : Bytes) (a n : Nat) : m.word a n < 2 ^ (8 * n) := by
  refine lt_pow_two_of_testBit _ fun i hi => ?_
  rw [testBit_word, decide_eq_false (by omega), Bool.false_and]

theorem word_congr (h : ∀ x, a ≤ x → x < a + n → m x = m' x) : m.word a n = m'.word a n := by
  induction n generalizing a with
  | zero => rfl
  | succ n ih =>
    rw [word, word, h a (le_refl a) (by omega), ih fun x h1 h2 => h x (by omega) (by omega)]

theorem bit_congr (h : m (k / 8) = m' (k / 8)) : m.bit k = m'.bit k := by
  rw [bit, bit, h]

theorem bit_setWord (m : Bytes) (a n v k : Nat) : (m.setWord a n v).bit k =
      if 8 * a ≤ k ∧ k < 8 * (a + n) then v.testBit (k - 8 * a) else m.bit k := by
  unfold bit setWord
  by_cases h : a ≤ k / 8 ∧ k / 8 < a + n
  · have hpow : (256 : Nat) ^ (k / 8 - a) = 2 ^ (8 * (k / 8 - a)) := by
      rw [Nat.pow_mul]
    have hk : k % 8 + 8 * (k / 8 - a) = k - 8 * a := by omega
    rw [if_pos h, if_pos (by omega), UInt8.toNat_ofNat', Nat.testBit_mod_two_pow, hpow,
      Nat.testBit_div_two_pow, hk, decide_eq_true (by omega), Bool.true_and]
  · rw [if_neg h, if_neg (by omega)]

theorem word_setWord_self (m : Bytes) (a n v : Nat) :
    (m.setWord a n v).word a n = v % 2 ^ (8 * n) := by
  refine Nat.eq_of_testBit_eq fun j => ?_
  rw [testBit_word, Nat.testBit_mod_two_pow]
  by_cases hj : j < 8 * n
  · rw [bit_setWord, if_pos (by omega), Nat.add_sub_cancel_left]
  · simp [hj]

theorem word_setWord_disjoint (h : b + l ≤ a ∨ a + n ≤ b) :
    (m.setWord a n v).word b l = m.word b l :=
  word_congr fun _ _ _ => if_neg (by omega)

theorem word_eq_zero (h : ∀ x, a ≤ x → x < a + n → m x = 0) : m.word a n = 0 := by
  induction n generalizing a with
  | zero => rfl
  | succ n ih =>
    rw [word, h a (le_refl a) (by omega), ih fun x h1 h2 => h x (by omega) (by omega)]
    rfl

theorem word_slice (h : b + n ≤ len) : (m.slice a len).word b n = m.word (a + b) n := by
  induction n generalizing b with
  | zero => rfl
  | succ n ih => rw [word, word, slice_of_lt (by omega), ih (by omega), add_assoc]

theorem bit_slice (h : k < 8 * len) : (m.slice a len).bit k = m.bit (8 * a + k) := by
  have h1 : (8 * a + k) / 8 = a + k / 8 := by omega
  have h2 : (8 * a + k) % 8 = k % 8 := by omega
  rw [bit, bit, slice_of_lt (by omega), h1, h2]

end Bytes

/-! ## Records -/

/-- A word of a record, with the number that is stored there -/
structure Cell (α : Type) where
  off : Nat
  len : Nat
  get : α → Nat

namespace Cell

variable {α : Type} {fs : List (Cell α)} {f : Cell α} {v : α} {x : Nat}

abbrev Covers (f : Cell α) (x : Nat) : Prop := f.off ≤ x ∧ x < f.off + f.len

/-- The fields of `v` in zeroed memory -/
def store (fs : List (Cell α)) (v : α) : Bytes :=
  fs.foldr (fun f m => m.setWord f.off f.len (f.get v)) fun _ => 0

theorem store_out (h : ∀ f ∈ fs, ¬ f.Covers x) : store fs v x = 0 := by
  induction fs with
  | nil => rfl
  | cons g fs ih =>
    rw [forall_mem_cons] at h
    exact (if_neg h.1).trans (ih h.2)

/-- Fields that do not overlap keep their numbers, whatever their order. -/
theorem word_store (hd : fs.Pairwise fun f g => g.off + g.len ≤ f.off ∨ f.off + f.len ≤ g.off)
    (hf : f ∈ fs) (v : α) : (store fs v).word f.off f.len = f.get v % 2 ^ (8 * f.len) := by
  induction fs with
  | nil => exact absurd hf not_mem_nil
  | cons g fs ih =>
    rw [pairwise_cons] at hd
    rcases mem_cons.1 hf with rfl | hf
    · exact Bytes.word_setWord_self _ _ _ _
    · exact (Bytes.word_setWord_disjoint (hd.1 f hf)).trans (ih hd.2 hf)

end Cell

end ZzzOs.Lib
