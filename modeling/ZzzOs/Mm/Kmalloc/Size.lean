import ZzzOs.Mm.Slab.Layout
import ZzzOs.Mm.Buddy.Model
import Mathlib.Data.Nat.Log
import Mathlib.Data.Nat.ModEq

/-!
# The size `kmalloc` asks for

`__kmalloc` in `mm/slab.c` serves a small request from one of fifteen caches and a large one with a block
of pages: the byte count is rounded to pages in 64 bits, narrowed to 32 bits by `next_power_of_two`, and
turned into an order by `n_to_order` (`kvaOrder_eq`, `blockOrder_enough_iff`).
-/

namespace ZzzOs.Mm

open Lib Nat

/-! ## From pages to an order -/

/-- `next_power_of_two` of `lib/utils.c`, on `unsigned int`. -/
def nextPowerOfTwo (n : Nat) : Nat :=
  if n = 0 then 1
  else
    let n := n - 1
    let n := n ||| n >>> 1
    let n := n ||| n >>> 2
    let n := n ||| n >>> 4
    let n := n ||| n >>> 8
    let n := n ||| n >>> 16
    (n + 1) % 2 ^ 32

def nToOrderLoop (n : Nat) : Nat → Nat → Nat → Option Nat
  | 0, _, _ => none
  | fuel + 1, size, order =>
    if size < n then nToOrderLoop n fuel ((size <<< 1) % 2 ^ 32) (order + 1) else some order

/-- `n_to_order`; `none` if the loop does not end, as for `n > 2 ^ 31`. -/
def nToOrder (n : Nat) : Option Nat := nToOrderLoop n 33 1 0

/-- The order that `alloc_pages_kva` passes to `alloc_pages`. -/
def kvaOrder (npages : Nat) : Option Nat := nToOrder (nextPowerOfTwo (npages % 2 ^ 32))

theorem nToOrder_two_pow : ∀ k < 32, nToOrder (2 ^ k) = some k := by decide

variable {n k : Nat}

theorem fill_low_bits (hk : k < 32) (h1 : 2 ^ k ≤ n - 1) (h2 : n - 1 < 2 ^ (k + 1)) :
    nextPowerOfTwo n = 2 ^ (k + 1) % 2 ^ 32 := by
  have hn : n ≠ 0 := by
    omega
  have h := (((((TopOnes.of_log h1 h2).double).double).double).double).double
  have hfull := h.eq (by omega)
  have hpos := Nat.two_pow_pos (k + 1)
  unfold nextPowerOfTwo
  rw [if_neg hn]
  dsimp only
  rw [hfull, Nat.sub_add_cancel hpos]

theorem nextPowerOfTwo_eq (hn : n ≤ 2 ^ 31) : nextPowerOfTwo n = 2 ^ Nat.clog 2 n := by
  rcases Nat.lt_or_ge n 2 with h | h
  · obtain rfl | rfl : n = 0 ∨ n = 1 := by omega
    · simp [nextPowerOfTwo]
    · simp [nextPowerOfTwo]
  · have hpos : n - 1 ≠ 0 := by omega
    have h1 := pow_log_le_self 2 hpos
    have h2 := lt_pow_succ_log_self (b := 2) (by decide) (n - 1)
    have hk : Nat.log 2 (n - 1) < 31 := by
      by_contra hc
      have := Nat.pow_le_pow_right (n := 2) (by decide) (Nat.le_of_not_lt hc)
      omega
    have hclog : Nat.clog 2 n = Nat.log 2 (n - 1) + 1 := by
      apply le_antisymm
      · exact clog_le_of_le_pow (by omega)
      · exact (lt_clog_iff_pow_lt (by decide)).2 (by omega)
    have hlt : 2 ^ (Nat.log 2 (n - 1) + 1) < 2 ^ 32 :=
      Nat.pow_lt_pow_right (by decide) (by omega)
    rw [fill_low_bits (by omega) h1 h2, hclog, mod_eq_of_lt hlt]

theorem nextPowerOfTwo_wraps (h1 : 2 ^ 31 < n) (h2 : n < 2 ^ 32) : nextPowerOfTwo n = 0 := by
  rw [fill_low_bits (k := 31) (by decide) (by omega) (by omega)]
  decide

/-- The order is that of the low 32 bits of the page count, and 0 when rounding them up to a
power of two leaves 32 bits. -/
theorem kvaOrder_eq (npages : Nat) : kvaOrder npages =
      some (if npages % 2 ^ 32 ≤ 2 ^ 31 then Nat.clog 2 (npages % 2 ^ 32) else 0) := by
  unfold kvaOrder
  split_ifs with h
  · have hk : Nat.clog 2 (npages % 2 ^ 32) ≤ 31 := clog_le_of_le_pow h
    rw [nextPowerOfTwo_eq h, nToOrder_two_pow _ (by omega)]
  · rw [nextPowerOfTwo_wraps (by omega) (mod_lt _ (by decide))]
    decide

/-! ## From bytes to pages or a cache -/

def slabMaxSize : Nat := 2048

/-- The page count of `__kmalloc`. -/
def kmallocPages (size : Nat) : Nat := ((size + pageSize - 1) % 2 ^ 64) / pageSize

def sizeTypes : List Nat :=
  [8, 16, 32, 48, 64, 96, 128, 192, 256, 384, 512, 768, 1024, 1536, 2048]

def sizeToIndex (size : Nat) : Option Nat :=
  if size = 0 then some 0
  else
    let size := roundUpAlign size slabMinAlign
    sizeTypes.findIdx? fun t => size ≤ t

/-- The caches that `slab_init` creates. -/
def kmallocCaches : List KmemCache :=
  sizeTypes.filterMap fun size => (kmemCacheCreate size slabMinAlign).bind id

theorem kmallocCaches_size : kmallocCaches.map KmemCache.objectSize = sizeTypes := by decide

theorem kmallocCaches_fits : ∀ c ∈ kmallocCaches, Slabs.Fits c := by
  intro c hc
  obtain ⟨size, hsize, he⟩ := List.mem_filterMap.1 hc
  have he : kmemCacheCreate size slabMinAlign = some (some c) := by
    cases hk : kmemCacheCreate size slabMinAlign with
    | none => rw [hk] at he; cases he
    | some r => rw [hk] at he; exact congrArg some he
  have hle : size ≤ 2048 := by
    have : ∀ t ∈ sizeTypes, t ≤ 2048 := by decide
    exact this size hsize
  have := Slabs.kmemCacheCreate_fits (by omega) (.inr ⟨3, by decide, rfl⟩) he
  rwa [if_pos (by rw [show max (2 ^ 3) 8 = 8 from rfl]; omega)] at this

variable {size : Nat}

/-- A small request finds a cache, and the objects of that cache are large enough. -/
theorem sizeToIndex_spec (h : size ≤ slabMaxSize) :
    ∃ i c, sizeToIndex size = some i ∧ kmallocCaches[i]? = some c ∧ size ≤ c.objectSize := by
  by_cases h0 : size = 0
  · subst h0
    exact ⟨0, _, rfl, rfl, zero_le _⟩
  · have hup := alignUp_bounds (x := size) (a := slabMinAlign) (by decide)
      (by simp only [slabMaxSize] at h; simp only [slabMinAlign]; omega)
    have hle : roundUpAlign size slabMinAlign ≤ 2048 := by
      -- 2048 is itself a multiple of the alignment
      have hd := dvd_alignUp size slabMinAlign
      simp only [slabMaxSize] at h
      simp only [slabMinAlign] at hup hd
      simp only [roundUpAlign, slabMinAlign]
      omega
    have hsome : (sizeTypes.findIdx? fun t => roundUpAlign size slabMinAlign ≤ t).isSome := by
      rw [List.findIdx?_isSome, List.any_eq_true]
      exact ⟨2048, by decide, by simpa using hle⟩
    obtain ⟨i, hi⟩ := Option.isSome_iff_exists.1 hsome
    obtain ⟨hlt, hsat, -⟩ := List.findIdx?_eq_some_iff_getElem.1 hi
    refine ⟨i, kmallocCaches[i], ?_, List.getElem?_eq_getElem _, ?_⟩
    · simp only [sizeToIndex, if_neg h0, hi]
    · simp only [← kmallocCaches_size, List.getElem_map] at hsat
      exact hup.1.trans (of_decide_eq_true hsat)

/-! ## Blocks that are large enough -/

/-- The bytes round up to at most `2 ^ 31` pages, or to a page count whose low half asks for a
block larger than any the allocator has. -/
def SizeOk (size : Nat) : Prop :=
  (size + 4095) / 4096 ≤ 2 ^ 31 ∨
    (1024 < (size + 4095) / 4096 % 2 ^ 32 ∧ (size + 4095) / 4096 % 2 ^ 32 ≤ 2 ^ 31)

instance (size : Nat) : Decidable (SizeOk size) := inferInstanceAs (Decidable (_ ∨ _))

/-- The wrap of the 64-bit addition loses a multiple of `2 ^ 32` pages. -/
theorem kmallocPages_mod (h : size < 2 ^ 64) :
    kmallocPages size % 2 ^ 32 = (size + 4095) / 4096 % 2 ^ 32 := by
  unfold kmallocPages
  rw [pageSize_eq]
  omega

/-- The order of the block for a large request. -/
def blockOrder (size : Nat) : Nat :=
  let n := kmallocPages size % 2 ^ 32
  if n ≤ 2 ^ 31 then Nat.clog 2 n else 0

theorem kvaOrder_kmallocPages (size : Nat) :
    kvaOrder (kmallocPages size) = some (blockOrder size) :=
  kvaOrder_eq _

theorem blockOrder_lt_iff (size : Nat) : blockOrder size < maxOrder ↔
    kmallocPages size % 2 ^ 32 ≤ 1024 ∨ 2 ^ 31 < kmallocPages size % 2 ^ 32 := by
  unfold blockOrder
  dsimp only
  split
  · have : Nat.clog 2 (kmallocPages size % 2 ^ 32) < maxOrder ↔ kmallocPages size % 2 ^ 32 ≤ 1024 :=
      Nat.lt_succ_iff.trans (Nat.clog_le_iff_le_pow (by decide))
    omega
  · exact ⟨fun _ => .inr (by omega), fun _ => by decide⟩

/-- A block the allocator can have is large enough for the request exactly when the size is
one of `SizeOk`. -/
theorem blockOrder_enough_iff (h : size < 2 ^ 64) (hpos : 0 < size) :
    SizeOk size ↔ (blockOrder size < maxOrder → size ≤ 4096 * 2 ^ blockOrder size) := by
  have hmod := kmallocPages_mod h
  rw [blockOrder_lt_iff, SizeOk, ← hmod]
  generalize hn : kmallocPages size % 2 ^ 32 = n at hmod ⊢
  have horder : blockOrder size = if n ≤ 2 ^ 31 then Nat.clog 2 n else 0 := by
    rw [← hn]; rfl
  rw [horder]
  by_cases hmid : 1024 < n ∧ n ≤ 2 ^ 31
  · exact ⟨fun _ hc => by omega, fun _ => .inr hmid⟩
  split
  · have hceil := le_pow_clog (b := 2) (by decide) n
    have hle : 2 ^ Nat.clog 2 n ≤ 2 ^ 10 :=
      Nat.pow_le_pow_right (by decide) (Nat.clog_le_of_le_pow (by omega))
    constructor
    · rintro (hp | hp) -
      · omega
      · exact absurd hp hmid
    · intro henough
      exact .inl (by omega)
  · constructor
    · rintro (hp | hp) -
      · omega
      · exact absurd hp hmid
    · intro henough
      exact .inl (by omega)

/-- One page more than `2 ^ 32` pages is taken for one page. -/
example : blockOrder (2 ^ 44 + 1) = 0 ∧ ¬ SizeOk (2 ^ 44 + 1) := by decide

end ZzzOs.Mm
