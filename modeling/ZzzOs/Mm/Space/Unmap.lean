import ZzzOs.Mm.Space.Pages
import ZzzOs.Mm.Vma.Run
import Mathlib.Data.List.Nodup

/-!
# `sys_munmap`

`sys_munmap` gives the frames of the range back before it changes the areas, and clears the page
table last. So a refused node leaves pages mapped whose frames are free, under an error; and a
refused table page leaves such pages under success. **`munmap_atomic_iff`**: without pages in
the range the first, and otherwise neither, may happen.
-/

namespace ZzzOs.Mm.Space

open Function Lib Pgtbl Mmap Vma List

variable {P : PageAlloc} {grant : Nat → Bool} {mm : MmStruct} {k : Memory} {addr len root y : Nat}
  {m : TableMem}

/-! ## The page table -/

section Unmap

variable {A : TableAlloc} {root fin : Nat}

theorem unmap_pages (A : TableAlloc) (htree : Tree root m) (hr : UserRange addr len) :
    ∃ m', Pgtbl.unmap riscv64 A root addr len m = .ok (0, m') ∧ Tree root m' ∧
      (∀ x, Canonical x → x < addr ∨ addr + len ≤ x →
        view riscv64 root m' x = view riscv64 root m x) ∧
      (m'.refused = m.refused → ∀ x, Canonical x → addr ≤ x → x < addr + len →
        view riscv64 root m' x = (0, protNone)) ∧
      (m'.refused ≠ m.refused → ∃ x, Canonical x ∧ addr ≤ x ∧ x < addr + len ∧
        hasRwx (view riscv64 root m' x).2 = true) := by
  have hlow := hr.low
  have hbytes : pageBytes len = len := by
    have := hr.len_dvd
    unfold pageBytes
    omega
  have hw : addr + pageBytes len < 2 ^ 64 := by omega
  have hp := pending_of_noWrap hr.start_dvd hw
  rw [hbytes] at hp
  obtain ⟨m', he, htree', -, hrest⟩ := unmapLoop_pages _ htree hp (.inl hlow.le)
  refine ⟨m', ?_, htree', hrest⟩
  rw [unmap_eq hr.start_dvd hw, hbytes]
  exact he

end Unmap

/-! ## The frames -/

/-- The frames of `n` pages from `start` on. -/
def framesIn (root : Nat) (m : TableMem) (start n : Nat) : List Nat :=
  (List.range n).filterMap fun i =>
    if frameAt root m (start + 4096 * i) = 0 then none else some (frameAt root m (start + 4096 * i))

theorem framesIn_succ (root : Nat) (m : TableMem) (start n : Nat) :
    framesIn root m start (n + 1) = framesIn root m start n ++
      if frameAt root m (start + 4096 * n) = 0 then []
      else [frameAt root m (start + 4096 * n)] := by
  unfold framesIn
  rw [range_succ, filterMap_append]
  congr 1
  by_cases h : frameAt root m (start + 4096 * n) = 0
  · simp [h]
  · simp [h]

theorem mem_framesIn {start n f : Nat} :
    f ∈ framesIn root m start n ↔ f ≠ 0 ∧ ∃ i < n, frameAt root m (start + 4096 * i) = f := by
  unfold framesIn
  rw [mem_filterMap]
  constructor
  · rintro ⟨i, hi, he⟩
    split_ifs at he with hne
    cases he
    exact ⟨hne, i, mem_range.1 hi, rfl⟩
  · rintro ⟨hne, i, hi, rfl⟩
    exact ⟨i, mem_range.2 hi, if_neg hne⟩

theorem mem_framesIn_of_page (hr : UserRange addr len) (hy : UserPage y)
    (h1 : addr ≤ y) (h2 : y < addr + len) (hne : frameAt root m y ≠ 0) :
    frameAt root m y ∈ framesIn root m addr (len / 4096) := by
  have := hy.aligned
  have := hr.start_dvd
  have := hr.len_dvd
  refine mem_framesIn.2 ⟨hne, (y - addr) / 4096, by omega, ?_⟩
  rw [show addr + 4096 * ((y - addr) / 4096) = y by omega]

/-- Different pages have different frames. -/
def Distinct (root : Nat) (m : TableMem) : Prop :=
  ∀ y z, UserPage y → UserPage z → frameAt root m y ≠ 0 → frameAt root m y = frameAt root m z → y = z

theorem framesIn_nodup (hd : Distinct root m) (hr : UserRange addr len) :
    (framesIn root m addr (len / 4096)).Nodup := by
  have hpage : ∀ i, i ∈ List.range (len / 4096) → UserPage (addr + 4096 * i) := by
    intro i hi
    have := mem_range.1 hi
    have := hr.start_dvd
    have := hr.low
    exact ⟨by omega, by omega⟩
  refine pairwise_filterMap.2 (nodup_range.imp_of_mem fun {i j} hi hj hij => ?_)
  intro f hf g hg heq
  split_ifs at hf
  split at hg
  · cases hg
  · rename_i hne _
    cases hf
    cases hg
    have := hd _ _ (hpage i hi) (hpage j hj) hne heq
    omega

/-- The first loop of the call gives back the frames of the range, page by page. -/
theorem freeMappedPages_spec (htree : Tree mm.pgdir k.tables) (hr : UserRange addr len) :
    ∃ k₁, freeMappedPages mm addr len k = .ok k₁ ∧ k₁.tables = k.tables ∧
      k₁.freed = k.freed ++ framesIn mm.pgdir k.tables addr (len / 4096) ∧
      ∀ f, k₁.frames f =
        if f ∈ framesIn mm.pgdir k.tables addr (len / 4096) then false else k.frames f := by
  have hlow := hr.low
  let Freed (n : Nat) (k₁ : Memory) : Prop := k₁.tables = k.tables ∧
    k₁.freed = k.freed ++ framesIn mm.pgdir k.tables addr n ∧
    ∀ f, k₁.frames f = if f ∈ framesIn mm.pgdir k.tables addr n then false else k.frames f
  have hout := eachPage_outcome (freeMappedPage mm) (fun va => Freed ((va - addr) / 4096))
    (fun _ _ => False) (fun _ => False) (s := k) hr ?_ ?_
  · unfold freeMappedPages
    rw [Nat.mod_eq_of_lt (by omega)]
    match he : eachPage (freeMappedPage mm) addr (addr + len) k with
    | .ok (none, k₁) =>
      rw [he] at hout
      have hout : Freed ((addr + len - addr) / 4096) k₁ := hout
      rw [Nat.add_sub_cancel_left] at hout
      exact ⟨k₁, rfl, hout⟩
    | .ok (some _, _) | .error _ =>
      rw [he] at hout
      exact hout.elim
  · rw [Nat.sub_self]
    exact ⟨rfl, (append_nil _).symm, fun f => (if_neg (by exact nofun)).symm⟩
  · intro va k₁ hs hlt hva ⟨ht, hf, hfr⟩
    obtain ⟨n, rfl⟩ : ∃ n, va = addr + 4096 * n := by
      have := hr.start_dvd
      exact ⟨(va - addr) / 4096, by omega⟩
    have hn : (addr + 4096 * n - addr) / 4096 = n := by omega
    have hn' : (addr + 4096 * n + 4096 - addr) / 4096 = n + 1 := by omega
    rw [hn] at hf hfr
    rw [hn']
    unfold freeMappedPage
    rw [ht, lookup_frameAt htree]
    simp only [bind, Except.bind]
    have hsucc := framesIn_succ mm.pgdir k.tables addr n
    by_cases hz : frameAt mm.pgdir k.tables (addr + 4096 * n) = 0
    · rw [if_pos hz, append_nil] at hsucc
      rw [if_neg (not_not.2 hz)]
      exact ⟨ht, by rw [hf, hsucc], fun f => by rw [hfr, hsucc]⟩
    · rw [if_neg hz] at hsucc
      rw [if_pos hz]
      have hal : alignDown (frameAt mm.pgdir k.tables (addr + 4096 * n)) pageSize =
          frameAt mm.pgdir k.tables (addr + 4096 * n) :=
        alignDown_of_dvd (view_page riscv64_lawful _ _ hva (by decide : 0 < 4096) rfl).1
      rw [hal]
      refine ⟨ht, ?_, fun f => ?_⟩
      · show k₁.freed ++ [_] = _
        rw [hf, hsucc, append_assoc]
      · show update k₁.frames _ false f = _
        rw [hsucc, Function.update_apply, hfr]
        split <;> rename_i he
        · rw [if_pos (by simp [he])]
        · simp [he]

/-! ## The call -/

/-- The address spaces of processes. -/
structure Proper (mm : MmStruct) (k : Memory) : Prop where
  areas : Ok mm.vmas.list
  tree : Tree mm.pgdir k.tables
  distinct : Distinct mm.pgdir k.tables

/-- On an error nothing was given back and all is as before; on success nothing in the range is
translated or covered, and each frame that was mapped there was given back once. -/
def Atomic (P : PageAlloc) (grant : Nat → Bool) (mm : MmStruct) (addr len : Nat) (k : Memory) : Prop :=
  ∃ ret mm' k', sysMunmap P grant mm addr len k = .ok (ret, mm', k') ∧
    (ret < 0 → k'.freed = k.freed ∧
      (∀ x, spans.get mm'.vmas.list x = spans.get mm.vmas.list x) ∧
      ∀ x, Canonical x → view riscv64 mm.pgdir k'.tables x = view riscv64 mm.pgdir k.tables x) ∧
    (0 ≤ ret →
      (∀ x, addr ≤ x → x < addr + alignUp len pageSize →
        view riscv64 mm.pgdir k'.tables x = (0, protNone) ∧ spans.get mm'.vmas.list x = none) ∧
      ∀ y, UserPage y → addr ≤ y → y < addr + alignUp len pageSize →
        frameAt mm.pgdir k.tables y ≠ 0 →
        k'.freed.count (frameAt mm.pgdir k.tables y) =
          k.freed.count (frameAt mm.pgdir k.tables y) + 1)

/-- The call is refused for its arguments. -/
def Refused (mm : MmStruct) (addr len : Nat) : Prop :=
  mm.pgdir = 0 ∨ addr % pageSize ≠ 0 ∨ mmapRangeValid addr (alignUp len pageSize) = false

/-- No page of the range has a frame. -/
def Absent (mm : MmStruct) (k : Memory) (start len : Nat) : Prop :=
  ∀ y, UserPage y → start ≤ y → y < start + len → frameAt mm.pgdir k.tables y = 0

def TablesGranted (P : PageAlloc) (mm : MmStruct) (k : Memory) (start len : Nat) : Prop :=
  ∀ k₁ m', freeMappedPages mm start len k = .ok k₁ →
    Pgtbl.unmap riscv64 (k₁.tableAlloc P) mm.pgdir start len k₁.tables = .ok (0, m') →
    m'.refused = k₁.tables.refused

theorem sysMunmap_refused (h : Refused mm addr len) :
    sysMunmap P grant mm addr len k = .ok (-einval, mm, k) := by
  unfold sysMunmap
  by_cases h1 : mm.pgdir = 0
  · rw [if_pos h1]
  rw [if_neg h1]
  by_cases h2 : addr % pageSize ≠ 0
  · rw [if_pos h2]
  rw [if_neg h2]
  rw [if_pos (.inr (h.resolve_left h1 |>.resolve_left h2))]

theorem sysMunmap_accepted (P : PageAlloc) (grant : Nat → Bool) (k : Memory)
    (h : ¬ Refused mm addr len) :
    sysMunmap P grant mm addr len k = (do
      let k ← freeMappedPages mm addr (alignUp len pageSize) k
      doUnmap P grant mm addr (alignUp len pageSize) k) := by
  simp only [Refused, not_or] at h
  obtain ⟨h1, h2, h3⟩ := h
  unfold sysMunmap
  rw [if_neg h1, if_neg h2]
  rw [if_neg]
  rintro (hz | hno)
  · rw [hz, mmapRangeValid_zero] at h3
    exact h3 rfl
  · exact h3 hno

theorem absent_iff (hr : UserRange addr len) :
    Absent mm k addr len ↔ framesIn mm.pgdir k.tables addr (len / 4096) = [] := by
  have h1 := hr.start_dvd
  have h2 := hr.low
  rw [eq_nil_iff_forall_not_mem]
  constructor
  · intro h f hf
    obtain ⟨hne, i, hi, rfl⟩ := mem_framesIn.1 hf
    exact hne (h _ ⟨by omega, by omega⟩ (by omega) (by omega))
  · intro h y hy hs hlt
    by_contra hne
    exact h _ (mem_framesIn_of_page hr hy hs hlt hne)

/-- `do_unmap` of a range: the areas or the page table stop it, or nothing does. -/
theorem doUnmap_cases (P : PageAlloc) (grant : Nat → Bool)
    (hpg : mm.pgdir ≠ 0) (hok : Ok mm.vmas.list) (htree : Tree mm.pgdir k.tables)
    (hr : UserRange addr len) :
    (SplitsGranted grant mm.vmas addr (addr + len) ∧ ∃ s' m',
        Pgtbl.unmap riscv64 (k.tableAlloc P) mm.pgdir addr len k.tables = .ok (0, m') ∧
        doUnmap P grant mm addr len k = .ok (0, { mm with vmas := s' }, { k with tables := m' }) ∧
        Ok s'.list ∧ ∀ x, spans.get s'.list x =
          if addr ≤ x ∧ x < addr + len then none else spans.get mm.vmas.list x) ∨
      ¬ SplitsGranted grant mm.vmas addr (addr + len) ∧ ∃ s',
        doUnmap P grant mm addr len k = .ok (-1, { mm with vmas := s' }, k) ∧
        ∀ x, spans.get s'.list x = spans.get mm.vmas.list x := by
  have hlow := hr.low
  have hup : alignUp len pageSize = len :=
    alignUp_of_dvd (by decide) hr.len_dvd (by show len + 4095 < 2 ^ 64; omega)
  have hdown : alignDown addr pageSize = addr := alignDown_of_dvd hr.start_dvd
  unfold doUnmap
  rw [if_neg hpg]
  dsimp only
  rw [hup, hdown]
  rcases delete_spec grant hok (show addr + len < 2 ^ 64 by omega) hr.pos with
    ⟨hg, s', he, hok', hget⟩ | ⟨hg, s', he, hget⟩
  · obtain ⟨m', hm', -⟩ := unmap_pages (k.tableAlloc P) htree hr
    refine .inl ⟨hg, s', m', hm', ?_, hok', hget⟩
    rw [he]
    rw [if_neg (not_not.2 rfl), hm']
    rfl
  · refine .inr ⟨hg, s', ?_, hget⟩
    rw [he]
    rfl

/-- **When `sys_munmap` is atomic.** Exactly when the nodes and the table pages that it needs are
granted, or a node is refused and no page of the range has a frame. -/
theorem munmap_atomic_iff (P : PageAlloc) (grant : Nat → Bool) (mm : MmStruct) (k : Memory)
    (addr len : Nat) (haddr : addr < 2 ^ 64) (h : Proper mm k) :
    Atomic P grant mm addr len k ↔ Refused mm addr len ∨
      (SplitsGranted grant mm.vmas addr (addr + alignUp len pageSize) ∧
        TablesGranted P mm k addr (alignUp len pageSize)) ∨
      ¬ SplitsGranted grant mm.vmas addr (addr + alignUp len pageSize) ∧
        Absent mm k addr (alignUp len pageSize) := by
  by_cases href : Refused mm addr len
  · refine ⟨fun _ => .inl href, fun _ => ⟨_, mm, k, sysMunmap_refused href, fun _ => ?_, ?_⟩⟩
    · exact ⟨rfl, fun _ => rfl, fun _ _ => rfl⟩
    · exact fun hle => absurd hle (by decide)
  have hr : UserRange addr (alignUp len pageSize) := by
    simp only [Refused, not_or, not_not] at href
    exact userRange_of_valid haddr href.2.1 (by simpa using href.2.2)
  have hpg : mm.pgdir ≠ 0 := fun hz => href (.inl hz)
  have hlow := hr.low
  obtain ⟨k₁, hfree, htables, hfreed, -⟩ := freeMappedPages_spec h.tree hr
  have htree₁ : Tree mm.pgdir k₁.tables := by
    rw [htables]
    exact h.tree
  have hcall := sysMunmap_accepted P grant k href
  rw [hfree] at hcall
  rw [or_iff_right href]
  rcases doUnmap_cases P grant hpg h.areas htree₁ hr with
    ⟨hg, s', m', hm', he, -, hget⟩ | ⟨hg, s', he, hget⟩
  · -- the areas are changed, and the table is cleared as far as pages are granted
    have hres := hcall.trans he
    rw [or_iff_left (fun hno => hno.1 hg), and_iff_right hg]
    obtain ⟨m'', hm'', -, -, hclear, hleft⟩ := unmap_pages (k₁.tableAlloc P) htree₁ hr
    obtain rfl := ok_state hm' hm''
    constructor
    · rintro ⟨ret, mm', k', he', -, hdone⟩ k₂ m₂ hk₂ hm₂
      rw [hres] at he'
      obtain ⟨rfl, -, rfl⟩ : (0 : Int) = ret ∧ _ = mm' ∧ _ = k' := by
        simpa only [Except.ok.injEq, Prod.mk.injEq] using he'
      rw [hfree] at hk₂
      cases hk₂
      obtain rfl := ok_state hm' hm₂
      by_contra hne
      obtain ⟨x, -, h1, h2, h3⟩ := hleft hne
      have hx : view riscv64 mm.pgdir m' x = (0, protNone) := ((hdone le_rfl).1 x h1 h2).1
      rw [hx] at h3
      exact absurd h3 (by decide)
    · intro htg
      refine ⟨0, _, _, hres, fun hlt => absurd hlt (by decide), fun _ => ⟨fun x h1 h2 => ?_,
        fun y hy h1 h2 hne => ?_⟩⟩
      · refine ⟨hclear (htg k₁ m' hfree hm') x (.inl (by omega)) h1 h2, ?_⟩
        exact (hget x).trans (if_pos ⟨h1, h2⟩)
      · rw [hfreed, count_append, count_eq_one_of_mem (framesIn_nodup h.distinct hr)
          (mem_framesIn_of_page hr hy h1 h2 hne)]
  · -- a node is refused: the frames are gone, but nothing else changed
    have hres := hcall.trans he
    rw [or_iff_right (fun hyes => hg hyes.1), and_iff_right hg, absent_iff hr]
    constructor
    · rintro ⟨ret, mm', k', he', herr, -⟩
      rw [hres] at he'
      obtain ⟨rfl, -, rfl⟩ : (-1 : Int) = ret ∧ _ = mm' ∧ k₁ = k' := by
        simpa only [Except.ok.injEq, Prod.mk.injEq] using he'
      have := (herr (by decide)).1
      rw [hfreed] at this
      exact append_cancel_left (this.trans (append_nil _).symm)
    · intro hempty
      refine ⟨-1, _, _, hres, fun _ => ⟨?_, hget, fun x _ => by rw [htables]⟩,
        fun hle => absurd hle (by decide)⟩
      rw [hfreed, hempty, append_nil]

def twoPages : MmStruct := ⟨2 ^ 40, ⟨[⟨0x1000, 0x3000, 11⟩], 1⟩, 0x3000, 0x3000⟩

def twoPagesMemory : Memory := ⟨emptyTable (2 ^ 40), fun _ => false, []⟩

/-- The first of the two pages is mapped. -/
def touchFirst : Except Fault (Int × TableMem) :=
  (Call.map 0x1000 0x80000000 4096 protRead).run numbered (2 ^ 40) (emptyTable (2 ^ 40))

theorem twoPages_proper (he : touchFirst = .ok (0, m)) : Proper twoPages ⟨m, fun _ => false, []⟩ := by
  have hs := Sound.empty (Q := anyLeaf) riscv64_lawful (by decide : 0 < 2 ^ 40) 0 0
  obtain ⟨htree, hv⟩ := map_effect hs ⟨by decide, .inl (by decide), by decide⟩ (by decide) he
  have honly : ∀ y, UserPage y → frameAt (2 ^ 40) m y ≠ 0 → y = 0x1000 := by
    intro y hy hne
    by_contra hno
    have hout : ¬ (0x1000 ≤ y ∧ y < 0x1000 + 4096) := by
      have := hy.aligned
      omega
    refine hne ?_
    rw [frameAt, hv y hy.canonical]
    exact congrArg Prod.fst ((if_neg hout).trans (view_empty riscv64_lawful 0 0 y))
  exact {
    areas := ⟨⟨pairwise_singleton _ _, by decide⟩, by unfold Sealed; decide, by decide⟩
    tree := htree
    distinct := fun y z hy hz hne heq =>
      (honly y hy hne).trans (honly z hz (heq ▸ hne)).symm }

/-- The page that was mapped is unmapped: the area is split, and the frame is given back. -/
theorem munmap_atomic_touched : ((do
      let (_, m) ← touchFirst
      let (ret, _, k) ← sysMunmap numberedPages (fun _ => true) twoPages 0x1000 0x1000
        ⟨m, fun _ => false, []⟩
      Except.ok (ret, k.freed)) : Except Fault _).toOption = some (0, [0x80000000]) ∧
    ∀ m, touchFirst = .ok (0, m) →
      Atomic numberedPages (fun _ => true) twoPages 0x1000 0x1000 ⟨m, fun _ => false, []⟩ := by
  refine ⟨by decide +kernel, fun m he => ?_⟩
  refine (munmap_atomic_iff _ _ _ _ _ _ (by decide) (twoPages_proper he)).2 (.inr (.inl ⟨?_, ?_⟩))
  · exact ⟨fun _ => rfl, fun _ => rfl⟩
  · intro k₁ m' hfree hunmap
    have heval : ((do
        let (_, m) ← touchFirst
        let k₁ ← freeMappedPages twoPages 0x1000 (alignUp 0x1000 pageSize) ⟨m, fun _ => false, []⟩
        let (_, m') ← Pgtbl.unmap riscv64 (k₁.tableAlloc numberedPages) twoPages.pgdir 0x1000
          (alignUp 0x1000 pageSize) k₁.tables
        Except.ok (decide (m'.refused = k₁.tables.refused))) : Except Fault _).toOption =
        some true := by decide +kernel
    simp only [he, hfree, hunmap, bind, Except.bind] at heval
    exact of_decide_eq_true (Option.some.inj heval)

/-- The first page is touched and then unmapped, but there is no memory to split the area: the call
returns -1, the frame is given back, and the page still has it. -/
theorem frame_freed_under_error : (do
    let (_, k) ← doPageFault numberedPages twoPages 0x1000 11 twoPagesMemory
    let (ret, mm, k) ← sysMunmap numberedPages (fun _ => false) twoPages 0x1000 0x1000 k
    let f ← pgtblLookup riscv64 mm.pgdir k.tables 0x1000
    Except.ok (ret, k.freed, f) : Except Fault _).toOption = some (-1, [0x1000], 0x1000) := by
  decide +kernel

end ZzzOs.Mm.Space
