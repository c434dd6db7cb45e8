import ZzzOs.Mm.Space.Pages

/-!
# `sys_mprotect` and the frames

A page that is given no access at all gets an entry that on riscv64 is no leaf: lookups then find no
frame, and a fault maps a new page (`frame_lost`). As long as every call leaves some access, no page
loses its frame and faults allocate nothing (`mprotect_keeps_frames`).
-/

namespace ZzzOs.Mm.Space

open Lib Pgtbl Mmap

variable {P : PageAlloc} {grant : Nat → Bool} {mm mm' : MmStruct} {k k' : Memory}
  {start fin addr len va : Nat} {prot : BitVec 32} {kprot : Pgprot}

/-! ## One call -/

/-- The page tables are a tree in which the pages have the frames they have in `k`. -/
def SameFrames (root : Nat) (k k' : Memory) : Prop :=
  Tree root k'.tables ∧ ∀ y, UserPage y → frameAt root k'.tables y = frameAt root k.tables y

theorem protectPages_frames (P : PageAlloc) (mm : MmStruct) (hk : Tree mm.pgdir k.tables)
    (hr : UserRange start len) (hrwx : hasRwx kprot = true) :
    ∃ ret k', eachPage (protectPage P mm kprot) start (start + len) k = .ok (ret, k') ∧
      SameFrames mm.pgdir k k' := by
  have hlow := hr.low
  have hout := eachPage_outcome (protectPage P mm kprot) (fun _ => SameFrames mm.pgdir k) (fun _ => SameFrames mm.pgdir k)
    (fun _ => False) hr ⟨hk, fun _ _ => rfl⟩ ?_
  · match he : eachPage (protectPage P mm kprot) start (start + len) k with
    | .ok (none, k') | .ok (some _, k') =>
      rw [he] at hout
      exact ⟨_, k', rfl, hout⟩
    | .error _ =>
      rw [he] at hout
      exact hout.elim
  · intro va k₁ hs hlt hva ⟨htree, hsame⟩
    unfold protectPage
    rw [lookup_frameAt htree]
    simp only [bind, Except.bind]
    split_ifs with hz
    · exact ⟨htree, hsame⟩
    · obtain ⟨ret, m', he, htree', hkeep⟩ := remap_frames kprot htree ⟨hva, by omega⟩ hz
      rw [he]
      have hall : SameFrames mm.pgdir k { k₁ with tables := m' } :=
        ⟨htree', fun y hy => (hkeep hrwx y hy).trans (hsame y hy)⟩
      dsimp only
      split
      · exact hall
      · exact hall

theorem sysMprotect_cases (P : PageAlloc) (grant : Nat → Bool) (mm : MmStruct) (addr len : Nat)
    (prot : BitVec 32) (k : Memory) :
    (∃ ret vmas, sysMprotect P grant mm addr len prot k = .ok (ret, { mm with vmas := vmas }, k)) ∨
      ∃ vmas kprot, addr % pageSize = 0 ∧ mmapRangeValid addr (alignUp len pageSize) = true ∧
        mmapUserProtToKernel prot = .ok kprot ∧
        sysMprotect P grant mm addr len prot k = (do
          let (ret, k) ← eachPage (protectPage P { mm with vmas := vmas } kprot) addr
            ((addr + alignUp len pageSize) % 2 ^ 64) k
          .ok (ret.getD 0, { mm with vmas := vmas }, k)) := by
  unfold sysMprotect
  split
  · exact .inl ⟨_, mm.vmas, rfl⟩
  split_ifs with hal
  · exact .inl ⟨_, mm.vmas, rfl⟩
  dsimp only
  split
  · exact .inl ⟨_, mm.vmas, rfl⟩
  rename_i hvalid
  cases hp : mmapUserProtToKernel prot with
  | error ret => exact .inl ⟨_, mm.vmas, rfl⟩
  | ok kprot =>
    dsimp only
    split
    · exact .inl ⟨_, _, rfl⟩
    · refine .inr ⟨(mm.vmas.protect grant addr (alignUp len pageSize) kprot).2, kprot,
        not_not.1 hal, by simpa using (not_or.1 hvalid).2, rfl, ?_⟩
      generalize eachPage (protectPage P _ kprot) addr _ k = r
      match r with
      | .ok (none, k') | .ok (some _, k') | .error _ => rfl

/-- Some access is left. -/
def LeavesAccess (prot : BitVec 32) : Prop := prot &&& protRwx ≠ 0

instance : Decidable (LeavesAccess prot) := inferInstanceAs (Decidable (_ ≠ _))

theorem hasRwx_of_leavesAccess (h : LeavesAccess prot) (he : mmapUserProtToKernel prot = .ok kprot) :
    hasRwx kprot = true := by
  unfold mmapUserProtToKernel at he
  split_ifs at he
  cases he
  unfold hasRwx
  rw [BitVec.and_or_distrib_right, BitVec.and_assoc, show protUser &&& 7#32 = 0#32 by decide,
    show protRwx &&& 7#32 = protRwx by decide, BitVec.zero_or]
  exact bne_iff_ne.2 h

/-- A call that leaves some access keeps all frames, whatever it returns. -/
theorem sysMprotect_frames (P : PageAlloc) (grant : Nat → Bool) (len : Nat)
    (hk : Tree mm.pgdir k.tables) (haddr : addr < 2 ^ 64) (hprot : LeavesAccess prot) :
    ∃ ret mm' k', sysMprotect P grant mm addr len prot k = .ok (ret, mm', k') ∧
      mm'.pgdir = mm.pgdir ∧ SameFrames mm.pgdir k k' := by
  rcases sysMprotect_cases P grant mm addr len prot k with ⟨ret, vmas, he⟩ |
    ⟨vmas, kprot, hal, hvalid, hp, he⟩
  · exact ⟨ret, _, k, he, rfl, hk, fun _ _ => rfl⟩
  · have hr := userRange_of_valid haddr hal hvalid
    have hlow := hr.low
    rw [Nat.mod_eq_of_lt (by omega)] at he
    obtain ⟨ret, k', he', hsame⟩ := protectPages_frames P { mm with vmas := vmas } hk hr
      (hasRwx_of_leavesAccess hprot hp)
    rw [he'] at he
    exact ⟨_, _, k', he, rfl, hsame⟩

theorem doPageFault_present (P : PageAlloc) (flags : BitVec 32) (hk : Tree mm.pgdir k.tables)
    (hf : frameAt mm.pgdir k.tables (alignDown va pageSize) ≠ 0) :
    ∃ ret, doPageFault P mm va flags k = .ok (ret, k) := by
  unfold doPageFault
  split
  · exact ⟨_, rfl⟩
  split
  · exact ⟨_, rfl⟩
  split
  · exact ⟨_, rfl⟩
  · dsimp only
    rw [lookup_frameAt hk]
    simp only [bind, Except.bind]
    rw [if_pos hf]
    exact ⟨_, rfl⟩

/-! ## Runs -/

/-- Calls of `sys_mprotect` one after another: address, length and protection of each. -/
def protectAll (P : PageAlloc) (grant : Nat → Bool) :
    MmStruct → Memory → List (Nat × Nat × BitVec 32) → Except Fault (MmStruct × Memory)
  | mm, k, [] => .ok (mm, k)
  | mm, k, (addr, len, prot) :: calls => do
    let (_, mm, k) ← sysMprotect P grant mm addr len prot k
    protectAll P grant mm k calls

theorem protectAll_frames (P : PageAlloc) (grant : Nat → Bool) :
    ∀ (calls : List (Nat × Nat × BitVec 32)) {mm : MmStruct} {k : Memory}, Tree mm.pgdir k.tables →
      (∀ c ∈ calls, c.1 < 2 ^ 64 ∧ LeavesAccess c.2.2) →
      ∃ mm' k', protectAll P grant mm k calls = .ok (mm', k') ∧ mm'.pgdir = mm.pgdir ∧
        SameFrames mm.pgdir k k' := by
  intro calls
  induction calls with
  | nil => exact fun hk _ => ⟨_, _, rfl, rfl, hk, fun _ _ => rfl⟩
  | cons c calls ih =>
    intro mm k hk hc
    obtain ⟨addr, len, prot⟩ := c
    obtain ⟨haddr, hprot⟩ := hc _ (List.mem_cons_self ..)
    obtain ⟨ret, mm₁, k₁, he, hroot, htree, hsame⟩ := sysMprotect_frames P grant len hk haddr hprot
    rw [← hroot] at htree
    obtain ⟨mm₂, k₂, he₂, hroot₂, htree₂, hsame₂⟩ := ih htree fun c hm => hc c (List.mem_cons_of_mem _ hm)
    refine ⟨mm₂, k₂, ?_, hroot₂.trans hroot, hroot ▸ htree₂, fun y hy => ?_⟩
    · unfold protectAll
      rw [he]
      exact he₂
    · rw [← hroot, hsame₂ y hy, hroot]
      exact hsame y hy

/-- **No frame is lost.** After any calls that leave some access, every page that had a frame has
the same one, and a fault there allocates and maps nothing. -/
theorem mprotect_keeps_frames (P : PageAlloc) (grant : Nat → Bool) (mm : MmStruct) (k : Memory)
    (calls : List (Nat × Nat × BitVec 32)) (hk : Tree mm.pgdir k.tables)
    (hc : ∀ c ∈ calls, c.1 < 2 ^ 64 ∧ LeavesAccess c.2.2) :
    ∃ mm' k', protectAll P grant mm k calls = .ok (mm', k') ∧
      ∀ y f, UserPage y → pgtblLookup riscv64 mm.pgdir k.tables y = .ok f → f ≠ 0 →
        pgtblLookup riscv64 mm'.pgdir k'.tables y = .ok f ∧
        ∀ x flags, alignDown x pageSize = y → ∃ ret, doPageFault P mm' x flags k' = .ok (ret, k') := by
  obtain ⟨mm', k', he, hroot, htree, hsame⟩ := protectAll_frames P grant calls hk hc
  refine ⟨mm', k', he, fun y f hy hf hne => ?_⟩
  rw [lookup_frameAt hk] at hf
  cases hf
  rw [← hroot] at htree
  refine ⟨?_, fun x flags hx => doPageFault_present P flags htree ?_⟩
  · rw [lookup_frameAt htree, hroot, hsame y hy]
  · rw [hx, hroot, hsame y hy]
    exact hne

/-! ## A page without access -/

/-- A process with one area of a page, which can be read and written, and an empty page table. -/
def onePage : MmStruct := ⟨2 ^ 40, ⟨[⟨0x1000, 0x2000, 11⟩], 1⟩, 0x2000, 0x2000⟩

def onePageMemory : Memory := ⟨emptyTable (2 ^ 40), fun _ => false, []⟩

theorem onePage_tree : ∃ m', (Call.map 0x1000 0x80000000 4096 protRead).run numbered onePage.pgdir
      (emptyTable onePage.pgdir) = .ok (0, m') ∧ Tree onePage.pgdir m' ∧
    pgtblLookup riscv64 onePage.pgdir m' 0x1000 = .ok 0x80000000 := by
  have hs := Sound.empty (Q := anyLeaf) riscv64_lawful (by decide : 0 < onePage.pgdir) 0 0
  obtain ⟨m', he⟩ : ∃ m', (Call.map 0x1000 0x80000000 4096 protRead).run numbered onePage.pgdir
      (emptyTable onePage.pgdir) = .ok (0, m') := exists_of_ret (by decide +kernel)
  obtain ⟨htree, hv⟩ := map_effect hs ⟨by decide, .inl (by decide), by decide⟩ (by decide) he
  refine ⟨m', he, htree, ?_⟩
  rw [lookup_frameAt htree, frameAt, hv 0x1000 (by decide)]
  rfl

theorem mprotect_keeps_frames_onePage : ∃ m',
    (Call.map 0x1000 0x80000000 4096 protRead).run numbered onePage.pgdir
      (emptyTable onePage.pgdir) = .ok (0, m') ∧
    ∃ mm' k', protectAll numberedPages (fun _ => true) onePage ⟨m', fun _ => false, []⟩
        [(0x1000, 0x1000, protRead)] = .ok (mm', k') ∧
      pgtblLookup riscv64 mm'.pgdir k'.tables 0x1000 = .ok 0x80000000 := by
  obtain ⟨m', he, htree, hl⟩ := onePage_tree
  obtain ⟨mm', k', hp, hk⟩ := mprotect_keeps_frames numberedPages (fun _ => true) onePage
    ⟨m', fun _ => false, []⟩ [(0x1000, 0x1000, protRead)] htree
    (List.forall_mem_singleton.2 ⟨by decide, by decide⟩)
  exact ⟨m', he, mm', k', hp, (hk 0x1000 _ ⟨by decide, by decide⟩ hl (by decide)).1⟩

/-- The page is touched, loses all access, gets it back, and is touched again. The results are the
frames found before, between and after. -/
theorem frame_lost : (do
    let (_, k) ← doPageFault numberedPages onePage 0x1000 11 onePageMemory
    let f₁ ← pgtblLookup riscv64 onePage.pgdir k.tables 0x1000
    let (ret₁, mm, k) ← sysMprotect numberedPages (fun _ => true) onePage 0x1000 0x1000 0 k
    let (ret₂, mm, k) ← sysMprotect numberedPages (fun _ => true) mm 0x1000 0x1000 3 k
    let f₂ ← pgtblLookup riscv64 mm.pgdir k.tables 0x1000
    let (ret₃, k) ← doPageFault numberedPages mm 0x1000 11 k
    let f₃ ← pgtblLookup riscv64 mm.pgdir k.tables 0x1000
    Except.ok ((ret₁, ret₂, ret₃), f₁, f₂, f₃) : Except Fault _).toOption =
      some ((0, 0, 0), 0x1000, 0, 0x4000) := by
  decide +kernel

end ZzzOs.Mm.Space
