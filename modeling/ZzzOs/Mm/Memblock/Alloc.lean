import ZzzOs.Lib.Runs
import ZzzOs.Mm.Memblock.Cut
import ZzzOs.Mm.Physmem

/-!
# Allocating from the memory map

`memblock_alloc` looks for a gap between the reserved regions that meet a memory region. It keeps
one cursor, `gap_start`, which it sets to the end of each reserved region it passes; so the gaps it
finds are gaps only while those ends do not go down. The block is then reserved; the result of that
is not checked.
-/

namespace ZzzOs.Mm.Memblock

open Nat Lib List

/-- The reserved regions from `gapStart` on, for the memory region `m`; the address of the block
and what is returned for it. A block at 0 is `NULL` unless it is behind the last region. -/
def gapScan (m : Node) (size align : Nat) : Nat → List Node → Option (Nat × Nat)
  | gapStart, [] =>
    let aligned := alignUp gapStart align
    if (aligned + size) % 2 ^ 64 ≤ m.limit then some (aligned, kernelVa aligned) else none
  | gapStart, r :: rs =>
    if r.limit ≤ m.base ∨ m.limit ≤ r.base then gapScan m size align gapStart rs
    else
      let aligned := alignUp gapStart align
      if (aligned + size) % 2 ^ 64 ≤ r.base then
        some (aligned, if aligned = 0 then 0 else kernelVa aligned)
      else gapScan m size align r.limit rs

/-- The pointer is 0 for `NULL`. -/
def memblockAlloc (mb : BootMem) (size align : Nat) : BootMem × Nat :=
  match mb.memory.findSome? fun m => gapScan m size align m.base mb.reserved with
  | none => (mb, 0)
  | some (aligned, p) => ((memblockReserve mb aligned size).1, p)

/-! ## Reserved regions -/

def Clear (a n b k : Nat) : Prop := a + n ≤ b ∨ b + k ≤ a

instance (a n b k : Nat) : Decidable (Clear a n b k) := inferInstanceAs (Decidable (_ ∨ _))

/-- `r` reaches into `m`, or lies in it. -/
def Meets (m r : Node) : Prop := m.base < r.base + r.size ∧ r.base < m.base + m.size

instance (m r : Node) : Decidable (Meets m r) := inferInstanceAs (Decidable (_ ∧ _))

def EndsInOrder (m : Node) (l : List Node) : Prop :=
  l.Pairwise fun r s => Meets m r → Meets m s → r.base + r.size ≤ s.base + s.size

instance (m : Node) (l : List Node) : Decidable (EndsInOrder m l) :=
  inferInstanceAs (Decidable (l.Pairwise _))

/-- The reserved list as `memblock_reserve` keeps it, with all regions below `2 ^ 64`. -/
structure ReservedList (mb : BootMem) : Prop where
  sorted : ScanSort.Sorted (fun n : Node => n.base) mb.reserved
  placed : Placed ⟨mb.reserved, mb.free⟩
  memory : ∀ m ∈ mb.memory, m.base + m.size < 2 ^ 64
  reserved : ∀ r ∈ mb.reserved, r.base + r.size < 2 ^ 64

variable {mb mb' : BootMem} {m n r m' : Node} {base size k gap p a : Nat}

/-- `memblock_reserve` with a slot left puts the region behind all that start no later. -/
theorem memblockReserve_spec (h : ReservedList mb) (hfree : mb.free ≠ []) (base size : Nat) :
    ∃ L R n free, mb.reserved = L ++ R ∧ n.toMemblockRegion = ⟨base, size, 0⟩ ∧
      (∀ r ∈ L, r.base ≤ base) ∧ (∀ r ∈ R, base < r.base) ∧
      mb.free.length = free.length + 1 ∧ Placed ⟨L ++ n :: R, free⟩ ∧
      (memblockReserve mb base size).1 = { mb with
          reserved := L ++ n :: R
          reservedTotal := (mb.reservedTotal + size) % 2 ^ 64
          free } := by
  obtain ⟨i, free, hf⟩ := exists_cons_of_ne_nil hfree
  have hnodup : (mb.reserved ++ [({ base, size, flags := 0, idx := i } : Node)]).Nodup := by
    have hp := h.placed
    rw [hf] at hp
    refine List.Nodup.of_map Node.idx ?_
    rw [map_append]
    exact hp.sublist ((List.Sublist.refl _).append (List.Sublist.cons_cons i (nil_sublist _)))
  have hres : (memblockReserve mb base size).1 = { mb with
        reserved := memblockSortOne { base, size, flags := 0, idx := i }
          (mb.reserved ++ [{ base, size, flags := 0, idx := i }])
        reservedTotal := (mb.reservedTotal + size) % 2 ^ 64
        free } := by
    unfold memblockReserve memblockAddRegion
    rw [hf]
    rfl
  have hlen : mb.free.length = free.length + 1 := by rw [hf, length_cons]
  have hplaced : ∀ L R, mb.reserved = L ++ R →
      Placed ⟨L ++ { base, size, flags := 0, idx := i } :: R, free⟩ := by
    intro L R hl
    have hp := h.placed
    unfold Placed at hp ⊢
    rw [hf, hl] at hp
    rw [map_append] at hp ⊢
    have hperm : (L.map Node.idx ++ i :: R.map Node.idx).Perm
        (i :: (L.map Node.idx ++ R.map Node.idx)) := perm_middle
    exact ((hperm.append_right free).trans perm_middle.symm).nodup_iff.2 hp
  rcases ScanSort.sortOne_cases (fun n : Node => n.base) hnodup with
    ⟨L, g, R, hl, hL, hg, he⟩ | ⟨hall, ⟨B₁, g, B₂, hB, -⟩ | ⟨-, he⟩⟩
  · have hsorted := h.sorted
    rw [hl] at hsorted
    have hR := (pairwise_cons.1 (pairwise_append.1 hsorted).2.1).1
    refine ⟨L, g :: R, { base, size, flags := 0, idx := i }, free, hl, rfl, hL,
      forall_mem_cons.2 ⟨hg, fun r hr => lt_of_lt_of_le hg (hR r hr)⟩, hlen, hplaced _ _ hl, ?_⟩
    rw [hres, memblockSortOne, he, append_nil]
  · cases B₁ <;> cases hB
  · refine ⟨mb.reserved, [], { base, size, flags := 0, idx := i }, free,
      (append_nil _).symm, rfl, hall, nofun, hlen, hplaced _ _ (append_nil _).symm, ?_⟩
    rw [hres, memblockSortOne, he]

/-! ## The scan -/

structure Gap (m : Node) (size k : Nat) (l : List Node) (a : Nat) : Prop where
  aligned : 2 ^ k ∣ a
  lower : m.base ≤ a
  upper : a + size ≤ m.base + m.size
  clear : ∀ r ∈ l, Clear a size r.base r.size

instance (m : Node) (size k : Nat) (l : List Node) (a : Nat) : Decidable (Gap m size k l a) :=
  decidable_of_iff (2 ^ k ∣ a ∧ m.base ≤ a ∧ a + size ≤ m.base + m.size ∧
      ∀ r ∈ l, Clear a size r.base r.size)
    ⟨fun ⟨h1, h2, h3, h4⟩ => ⟨h1, h2, h3, h4⟩, fun h => ⟨h.aligned, h.lower, h.upper, h.clear⟩⟩

theorem clear_of_meets (h1 : m.base ≤ a) (h2 : a + size ≤ m.base + m.size)
    (h : Meets m r → Clear a size r.base r.size) : Clear a size r.base r.size := by
  by_cases hmr : Meets m r
  · exact h hmr
  · unfold Meets at hmr
    unfold Clear
    omega

/-- The scan finds a gap. The cursor is behind every region of `done` that meets `m`; the order of
the ends is what keeps it there. -/
theorem gapScan_sound (done : List Node) {rs : List Node} (hm : m.base + m.size < 2 ^ 64)
    (hres : ∀ r ∈ done ++ rs, r.base + r.size + 2 ^ k + size ≤ 2 ^ 64)
    (hsorted : ScanSort.Sorted (fun n : Node => n.base) rs) (hends : EndsInOrder m (done ++ rs))
    (hgap : m.base ≤ gap) (hroom : gap + 2 ^ k + size ≤ 2 ^ 64)
    (hdone : ∀ r ∈ done, Meets m r → r.base + r.size ≤ gap)
    (h : gapScan m size (2 ^ k) gap rs = some (a, p)) :
    Gap m size k (done ++ rs) a ∧ a < 2 ^ 64 ∧ (p = 0 ∨ p = kernelVa a) := by
  have hpow : 0 < 2 ^ k := Nat.two_pow_pos k
  obtain ⟨hge, hle⟩ := alignUp_bounds (x := gap) hpow (by omega)
  have hdvd := dvd_alignUp gap (2 ^ k)
  have hmod : (alignUp gap (2 ^ k) + size) % 2 ^ 64 = alignUp gap (2 ^ k) + size :=
    Nat.mod_eq_of_lt (by omega)
  have hmlim := limit_eq hm
  induction rs generalizing done gap with
  | nil =>
    unfold gapScan at h
    dsimp only at h
    rw [hmod, hmlim] at h
    split_ifs at h with hfit
    cases h
    refine ⟨⟨hdvd, hgap.trans hge, hfit, fun r hr => ?_⟩, by omega, .inr rfl⟩
    rw [append_nil] at hr
    exact clear_of_meets (hgap.trans hge) hfit fun hmr => .inr ((hdone r hr hmr).trans hge)
  | cons r rs ih =>
    have hrlim : r.limit = r.base + r.size := limit_eq (by
      have := hres r (by simp)
      omega)
    have happ : done ++ r :: rs = (done ++ [r]) ++ rs := by simp
    obtain ⟨hrs, hsorted'⟩ := pairwise_cons.1 hsorted
    unfold gapScan at h
    dsimp only at h
    rw [hmod, hmlim, hrlim] at h
    split at h
    · -- a region outside `m` is passed over
      rw [happ] at hres hends ⊢
      refine ih (done ++ [r]) hres hsorted' hends hgap hroom (fun d hd hmd => ?_) h hge hle hdvd hmod
      rcases mem_append.1 hd with hd | hd
      · exact hdone d hd hmd
      · rw [mem_singleton.1 hd] at hmd
        unfold Meets at hmd
        omega
    · have hmr : Meets m r := by
        unfold Meets
        omega
      split at h
      · -- the gap before `r`
        rename_i hfit
        obtain ⟨rfl, hp⟩ := Prod.mk.inj (Option.some.inj h)
        have hupper : alignUp gap (2 ^ k) + size ≤ m.base + m.size := hfit.trans hmr.2.le
        refine ⟨⟨hdvd, hgap.trans hge, hupper, fun d hd => ?_⟩, by omega, ?_⟩
        · refine clear_of_meets (hgap.trans hge) hupper fun hmd => ?_
          rcases mem_append.1 hd with hd | hd
          · exact .inr ((hdone d hd hmd).trans hge)
          · rcases mem_cons.1 hd with rfl | hd
            · exact .inl hfit
            · exact .inl (hfit.trans (hrs d hd))
        · split at hp
          · exact .inl hp.symm
          · exact .inr hp.symm
      · -- the cursor moves to the end of `r`
        rw [happ] at hres hends ⊢
        have hroom' := hres r (by simp)
        obtain ⟨hge', hle'⟩ := alignUp_bounds (x := r.base + r.size) hpow (by omega)
        refine ih (done ++ [r]) hres hsorted' hends hmr.1.le hroom' (fun d hd hmd => ?_) h hge' hle'
          (dvd_alignUp _ _) (Nat.mod_eq_of_lt (by omega))
        rcases mem_append.1 hd with hd' | hd'
        · have := (pairwise_append.1 (pairwise_append.1 hends).1).2.2
          exact this d hd' r (mem_singleton_self _) hmd hmr
        · rw [mem_singleton.1 hd']

/-! ## Sequences of calls -/

/-- `memblock_alloc(size, 1 << order)`. -/
structure Call where
  size : Nat
  order : Nat

structure Entry where
  before : BootMem
  call : Call
  ptr : Nat

def allocLog : BootMem → List Call → List Entry
  | _, [] => []
  | mb, c :: cs =>
    let r := memblockAlloc mb c.size (2 ^ c.order)
    { before := mb, call := c, ptr := r.2 } :: allocLog r.1 cs

namespace Entry

/-- The physical address of the block. -/
def addr (e : Entry) : Nat := kernelPa e.ptr

def Sound (e : Entry) : Prop :=
  e.ptr ≠ 0 → e.ptr = kernelVa e.addr ∧
    ∃ m ∈ e.before.memory, Gap m e.call.size e.call.order e.before.reserved e.addr

instance (e : Entry) : Decidable e.Sound := inferInstanceAs (Decidable (_ → _))

def Apart (e e' : Entry) : Prop :=
  e.ptr ≠ 0 → e'.ptr ≠ 0 → Clear e.addr e.call.size e'.addr e'.call.size

instance : DecidableRel Apart := fun _ _ => inferInstanceAs (Decidable (_ → _))

end Entry

def AllocsSound (mb : BootMem) (calls : List Call) : Prop :=
  (∀ e ∈ allocLog mb calls, e.Sound) ∧ (allocLog mb calls).Pairwise Entry.Apart

instance (mb : BootMem) (calls : List Call) : Decidable (AllocsSound mb calls) :=
  inferInstanceAs (Decidable (_ ∧ _))

structure Ready (mb : BootMem) : Prop extends ReservedList mb where
  ends : ∀ m ∈ mb.memory, EndsInOrder m mb.reserved

def Room (mb : BootMem) (c : Call) : Prop :=
  ∀ n ∈ mb.memory ++ mb.reserved, n.base + n.size + 2 ^ c.order + c.size ≤ 2 ^ 64

instance (mb : BootMem) (c : Call) : Decidable (Room mb c) :=
  inferInstanceAs (Decidable (∀ n ∈ _, _))

variable {c : Call} {a : Nat} {L R : List Node} {calls cs : List Call}

theorem kernelPa_kernelVa (ha : a < 2 ^ 64) : kernelPa (kernelVa a) = a := by
  unfold kernelPa kernelVa kernelPaBase kernelVaBase
  omega

/-- A call returns `NULL` and leaves everything, or reserves the gap it found. -/
theorem memblockAlloc_cases (h : Ready mb) (hroom : Room mb c) :
    memblockAlloc mb c.size (2 ^ c.order) = (mb, 0) ∨
    ∃ m ∈ mb.memory, ∃ a p, Gap m c.size c.order mb.reserved a ∧ a < 2 ^ 64 ∧
      (p = 0 ∨ p = kernelVa a) ∧
      memblockAlloc mb c.size (2 ^ c.order) = ((memblockReserve mb a c.size).1, p) := by
  unfold memblockAlloc
  cases hf : mb.memory.findSome? fun m =>
      gapScan m c.size (2 ^ c.order) m.base mb.reserved with
  | none => exact .inl rfl
  | some r =>
    obtain ⟨a, p⟩ := r
    obtain ⟨m, hm, hscan⟩ := exists_of_findSome?_eq_some hf
    have hroomm := hroom m (mem_append_left _ hm)
    obtain ⟨hgap, ha, hp⟩ := gapScan_sound [] (h.memory m hm)
      (fun r hr => hroom r (mem_append_right _ hr)) h.sorted (h.ends m hm) le_rfl (by omega)
      nofun hscan
    exact .inr ⟨m, hm, a, p, hgap, ha, hp, rfl⟩

theorem pairwise_insert {S : Node → Node → Prop}
    (h : (L ++ R).Pairwise S) (hL : ∀ l ∈ L, S l n) (hR : ∀ r ∈ R, S n r) :
    (L ++ n :: R).Pairwise S := by
  obtain ⟨h1, h2, h3⟩ := pairwise_append.1 h
  exact pairwise_append.2 ⟨h1, pairwise_cons.2 ⟨hR, h2⟩, fun l hl =>
    forall_mem_cons.2 ⟨hL l hl, h3 l hl⟩⟩

theorem endsInOrder_insert (h : EndsInOrder m' (L ++ R))
    (hL : ∀ r ∈ L, r.base ≤ n.base) (hR : ∀ r ∈ R, n.base < r.base) (hn : 0 < n.size)
    (hclear : ∀ r ∈ L ++ R, Clear n.base n.size r.base r.size) : EndsInOrder m' (L ++ n :: R) := by
  unfold Clear at hclear
  refine pairwise_insert h (fun l hl _ _ => ?_) fun r hr _ _ => ?_
  · have := hL l hl
    have := hclear l (mem_append_left _ hl)
    omega
  · have := hR r hr
    have := hclear r (mem_append_right _ hr)
    omega

theorem memblockAlloc_step (h : Ready mb) (hroom : Room mb c) (hsize : 0 < c.size)
    (hfree : mb.free ≠ [])
    (hstep : memblockAlloc mb c.size (2 ^ c.order) = (mb', p)) :
    Ready mb' ∧ (∀ c', Room mb c' → Room mb' c') ∧ mb.free.length ≤ mb'.free.length + 1 ∧
      mb.reserved ⊆ mb'.reserved ∧
      (p ≠ 0 → p = kernelVa (kernelPa p) ∧
        (∃ m ∈ mb.memory, Gap m c.size c.order mb.reserved (kernelPa p)) ∧
        ∃ n ∈ mb'.reserved, n.base = kernelPa p ∧ n.size = c.size) := by
  rcases memblockAlloc_cases h hroom with hnull | ⟨m, hm, a, q, hgap, ha, hq, halloc⟩
  · rw [hnull] at hstep
    cases hstep
    exact ⟨h, fun _ hc => hc, le_succ _, List.Subset.refl _, fun hne => absurd rfl hne⟩
  · rw [halloc] at hstep
    cases hstep
    obtain ⟨L, R, n, free, hl, hn, hL, hR, hlen, hplaced, he⟩ :=
      memblockReserve_spec h.toReservedList hfree a c.size
    have hnb : n.base = a := by rw [hn]
    have hns : n.size = c.size := by rw [hn]
    have hmem : ∀ r, r ∈ L ++ n :: R ↔ r ∈ mb.reserved ∨ r = n := fun r => by
      rw [hl, mem_append, mem_append, mem_cons]
      tauto
    have hend : n.base + n.size ≤ m.base + m.size := by
      rw [hnb, hns]
      exact hgap.upper
    have hclear : ∀ r ∈ L ++ R, Clear n.base n.size r.base r.size := by
      rw [hnb, hns, ← hl]
      exact hgap.clear
    rw [← hnb] at hL hR
    rw [he]
    refine ⟨⟨⟨pairwise_insert (hl ▸ h.sorted) hL fun r hr => (hR r hr).le, hplaced, h.memory, fun r hr => ?_⟩,
      fun m' hm' => ?_⟩, fun c' hc' r hr => ?_, hlen.le, fun r hr => (hmem r).2 (.inl hr),
      fun hne => ?_⟩
    · rcases (hmem r).1 hr with hr | rfl
      · exact h.reserved r hr
      · exact lt_of_le_of_lt hend (h.memory m hm)
    · exact endsInOrder_insert (hl ▸ h.ends m' hm') hL hR (by omega) hclear
    · rcases mem_append.1 hr with hr | hr
      · exact hc' r (mem_append_left _ hr)
      · rcases (hmem r).1 hr with hr | rfl
        · exact hc' r (mem_append_right _ hr)
        · have := hc' m (mem_append_left _ hm)
          omega
    · obtain rfl := hq.resolve_left hne
      rw [kernelPa_kernelVa ha]
      exact ⟨rfl, ⟨m, hm, hgap⟩, n, (hmem n).2 (.inr rfl), hnb, hns⟩

def allocNext (mb : BootMem) (c : Call) : BootMem := (memblockAlloc mb c.size (2 ^ c.order)).1

/-- What a call asks of the state before it. The order of the ends is kept (`memblockAlloc_step`). -/
structure Call.Fine (mb : BootMem) (c : Call) : Prop where
  room : Room mb c
  nonempty : 0 < c.size
  slot : mb.free ≠ []

section FineRun

variable (h : Ready mb) (hrun : FineRun allocNext Call.Fine calls mb)

include h hrun

theorem sound_of_fineRun : ∀ e ∈ allocLog mb calls, e.Sound ∧ mb.reserved ⊆ e.before.reserved := by
  induction calls generalizing mb with
  | nil => exact nofun
  | cons c cs ih =>
    obtain ⟨-, hc, hrun⟩ := hrun
    obtain ⟨hready, -, -, hsub, hres⟩ := memblockAlloc_step h hc.room hc.nonempty hc.slot rfl
    refine forall_mem_cons.2 ⟨⟨fun hne => ⟨(hres hne).1, (hres hne).2.1⟩, List.Subset.refl _⟩, ?_⟩
    exact fun e he => (ih hready hrun e he).imp_right fun h2 r hr => h2 (hsub hr)

theorem apart_of_fineRun : (allocLog mb calls).Pairwise Entry.Apart := by
  induction calls generalizing mb with
  | nil => exact List.Pairwise.nil
  | cons c cs ih =>
    obtain ⟨-, hc, hrun⟩ := hrun
    obtain ⟨hready, -, -, -, hres⟩ := memblockAlloc_step h hc.room hc.nonempty hc.slot rfl
    refine pairwise_cons.2 ⟨fun e he hne hne' => ?_, ih hready hrun⟩
    -- the block is reserved when the later call is made
    obtain ⟨hsound, hsub⟩ := sound_of_fineRun hready hrun e he
    obtain ⟨-, -, n, hn, hnb, hns⟩ := hres hne
    obtain ⟨-, m, -, hgap⟩ := hsound hne'
    have hclear := hgap.clear n (hsub hn)
    rw [hnb, hns] at hclear
    exact hclear.symm

theorem allocsSound_of_fineRun : AllocsSound mb calls :=
  ⟨fun e he => (sound_of_fineRun h hrun e he).1, apart_of_fineRun h hrun⟩

end FineRun

/-- A call that finds a gap when no slot is left finds it again. -/
theorem not_allocsSound_of_full (hfree : mb.free = []) (hsize : 0 < c.size)
    (hp : (memblockAlloc mb c.size (2 ^ c.order)).2 ≠ 0) : ¬ AllocsSound mb [c, c] := by
  have hsame : allocNext mb c = mb := by
    unfold allocNext memblockAlloc memblockReserve memblockAddRegion
    rw [hfree]
    split <;> rfl
  intro h
  have hlog : (allocLog mb [c] ++ allocLog (allocNext mb c) [c]).Pairwise Entry.Apart := h.2
  rw [hsame] at hlog
  have hapart : Clear _ c.size _ c.size := rel_of_pairwise_cons hlog (mem_singleton_self _) hp hp
  unfold Clear at hapart
  omega

structure Admitted (mb : BootMem) (calls : List Call) : Prop extends Ready mb where
  room : ∀ c ∈ calls, Room mb c
  nonempty : ∀ c ∈ calls, 0 < c.size
  slots : calls.length ≤ mb.free.length

theorem Admitted.fineRun (h : Admitted mb calls) : FineRun allocNext Call.Fine calls mb := by
  induction calls generalizing mb with
  | nil => trivial
  | cons c cs ih =>
    obtain ⟨hroomc, hroom⟩ := forall_mem_cons.1 h.room
    obtain ⟨hsizec, hsize⟩ := forall_mem_cons.1 h.nonempty
    have hslots : cs.length + 1 ≤ mb.free.length := h.slots
    have hc : c.Fine mb := ⟨hroomc, hsizec, ne_nil_of_length_pos (by omega)⟩
    obtain ⟨hready, hkeep, hlen, -⟩ := memblockAlloc_step h.toReady hroomc hsizec hc.slot rfl
    refine ⟨trivial, hc, ih ⟨hready, fun c' hc' => hkeep c' (hroom c' hc'), hsize, ?_⟩⟩
    exact Nat.le_of_succ_le_succ (hslots.trans hlen)

/-- **In every sequence of calls the blocks are where they should be**, if no reserved region that
meets a memory region ends before an earlier one does, no request is empty, no address wraps
around and there is a slot of the pool for each call. -/
theorem allocs_sound (mb : BootMem) (calls : List Call) (h : Admitted mb calls) :
    AllocsSound mb calls :=
  allocsSound_of_fineRun h.toReady h.fineRun

/-- A bank of 1 MiB with the given reserved regions, as base and size. -/
def bank (reserved : List (Nat × Nat)) (free : List Nat) : BootMem where
  memory := [{ base := 0x80000000, size := 0x100000, flags := 0, idx := 255 }]
  memoryTotal := 0x100000
  reserved := reserved.zipIdx.map fun r => { base := r.1.1, size := r.1.2, flags := 0, idx := r.2 }
  reservedTotal := (reserved.map Prod.snd).sum
  free

theorem allocs_sound_bank : AllocsSound (bank [(0x80000000, 0x2000), (0x80001000, 0x3000)] [9, 8])
      [⟨0x1000, 12⟩, ⟨64, 3⟩] :=
  allocs_sound _ _
    { sorted := by decide
      placed := by decide
      memory := by decide
      reserved := by decide
      ends := by decide
      room := by decide
      nonempty := by decide
      slots := by decide }

/-- A region nested in an earlier one takes the cursor back into that one. So does a request of no bytes
at the start of a reserved region for the next one, and with no slot left two requests get one block. -/
theorem block_inside_reserved :
    ¬ AllocsSound (bank [(0x80000000, 0x9000), (0x80002000, 0x1000)] [9, 8]) [⟨0x1000, 12⟩] ∧
    ¬ AllocsSound (bank [(0x7ffff000, 0x2000), (0x80001000, 0x8000)] [9, 8])
      [⟨0, 3⟩, ⟨0x1000, 12⟩] ∧
    ¬ AllocsSound (bank [(0x80000000, 0x9000)] []) [⟨0x1000, 12⟩, ⟨0x1000, 12⟩] := by
  decide +kernel

end ZzzOs.Mm.Memblock
