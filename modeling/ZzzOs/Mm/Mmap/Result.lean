import ZzzOs.Mm.Mmap.Choose
import ZzzOs.Mm.Vma.Run

/-!
# What `sys_mmap` returns

The result of `sys_mmap` passes through an `int`, and `do_mmap` passes over the result of `vma_add`,
which takes an error pointer for a node. **`mmap_honest_iff`**: those are the only ways for the result
to be wrong.
-/

namespace ZzzOs.Mm.Mmap

open Lib Vma

variable {grant : Nat → Bool} {mm : MmStruct} {addr len t : Nat} {prot flags fd : BitVec 32}
  {offset : BitVec 64} {kprot : Pgprot}

/-- An address that is returned is the one to be chosen and is covered with the protection asked for, and
when the area cannot be recorded the call says so and changes nothing. -/
def Honest (grant : Nat → Bool) (mm : MmStruct) (addr len : Nat) (prot flags fd : BitVec 32)
    (offset : BitVec 64) : Prop :=
  ∃ v mm', sysMmap grant mm addr len prot flags fd offset = some (v, mm') ∧
    (isErrValue v = false → ∃ t kprot, Accepted mm len prot flags fd offset kprot ∧
      Chosen mm addr (alignUp len pageSize) flags t ∧ v % 2 ^ 64 = t ∧
      ∀ x, t ≤ x → x < t + alignUp len pageSize → spans.get mm'.vmas.list x = some kprot) ∧
    (∀ t kprot, Accepted mm len prot flags fd offset kprot →
      Chosen mm addr (alignUp len pageSize) flags t →
      (∀ vmas, mm.vmas.add grant t (alignUp len pageSize) kprot ≠ some (0, vmas)) →
      isErrValue v = true ∧ mm'.vmas.list = mm.vmas.list)

theorem Accepted.kprot_eq (h : Accepted mm len prot flags fd offset kprot) :
    kprot = protUser ||| (prot &&& protRwx) := by
  have h := h.prot
  unfold mmapUserProtToKernel at h
  split_ifs at h
  exact (Except.ok.inj h).symm

theorem Accepted.kprot_ne (h : Accepted mm len prot flags fd offset kprot) : kprot ≠ 0 := by
  intro hz
  rw [h.kprot_eq] at hz
  exact absurd (BitVec.or_eq_zero_iff.1 hz).1 (by decide)

/-- The `int` of an address on a page boundary: never an error, and the address itself exactly
below `2 ^ 31`. -/
theorem toInt_address (hd : pageSize ∣ t) (ht : t < 2 ^ 63) (h0 : 0 < t) :
    isErrValue (toInt t) = false ∧ (toInt t % 2 ^ 64 = t ↔ t < 2 ^ 31) := by
  have h4096 := dvd_toInt hd
  constructor
  · unfold isErrValue
    simp only [Bool.and_eq_false_iff, decide_eq_false_iff_not]
    omega
  · unfold toInt
    rw [BitVec.toInt_ofNat']
    unfold Int.bmod
    dsimp only
    split <;> omega

theorem alignUp_lt (n : Nat) : alignUp n pageSize < 2 ^ 64 :=
  (alignDown_le _ _).trans_lt (Nat.mod_lt _ (by decide))

theorem doMmap_eq (ht : pageSize ∣ t) : doMmap grant mm t (alignUp len pageSize) kprot =
      (mm.vmas.add grant t (alignUp len pageSize) kprot).map fun r =>
        (0, { mm with vmas := r.2 }) := by
  have hd : 4096 ∣ alignUp len pageSize := dvd_alignUp len pageSize
  have hlt := alignUp_lt len
  have hup : alignUp (alignUp len pageSize) pageSize = alignUp len pageSize :=
    alignUp_of_dvd (by decide) hd (by show alignUp len pageSize + 4095 < 2 ^ 64; omega)
  unfold doMmap
  rw [alignDown_of_dvd ht, hup]
  cases mm.vmas.add grant t (alignUp len pageSize) kprot with
  | none => rfl
  | some r => rfl

theorem sysMmap_chosen (grant : Nat → Bool)
    (h : Ok mm.vmas.list) (hw : ∀ v ∈ mm.vmas.list, v.fin < 2 ^ 64)
    (haddr : addr < 2 ^ 64) (hacc : Accepted mm len prot flags fd offset kprot)
    (ht : Chosen mm addr (alignUp len pageSize) flags t) :
    (grant mm.vmas.requests = false ∧ sysMmap grant mm addr len prot flags fd offset = none) ∨
      grant mm.vmas.requests = true ∧ ∃ mm', sysMmap grant mm addr len prot flags fd offset =
          some (toInt t, mm') ∧
        (∃ vmas, mm.vmas.add grant t (alignUp len pageSize) kprot = some (0, vmas)) ∧
        ∀ x, t ≤ x → x < t + alignUp len pageSize → spans.get mm'.vmas.list x = some kprot := by
  have hl : 0 < alignUp len pageSize := Nat.pos_of_ne_zero hacc.len
  have hlt := alignUp_lt len
  obtain ⟨hd, hb, hclear⟩ := ht.sound
  have hsig : userSigtrampAddr < 2 ^ 64 := by decide
  have htok := (target_ok_iff hl hlt haddr ⟨h.ordered, hw⟩).2 ht
  have hcall : sysMmap grant mm addr len prot flags fd offset =
      (mm.vmas.add grant t (alignUp len pageSize) kprot).map fun r =>
        (toInt t, { mm with vmas := r.2 }) := by
    rcases sysMmap_cases grant mm addr len prot flags fd offset with
      ⟨-, -, -, hno, -⟩ | ⟨kprot', hacc', ⟨ret, he, -⟩ | ⟨t', ht', he⟩⟩
    · exact absurd hacc (hno kprot)
    · rw [htok] at he
      cases he
    · rw [htok] at ht'
      cases ht'
      rw [hacc'.kprot_eq, ← hacc.kprot_eq] at he
      rw [he, doMmap_eq hd, Option.map_map]
      rfl
  have hfits : t + alignUp len pageSize < 2 ^ 64 := hb.2.trans_lt hsig
  rcases add_spec grant h hfits hl hacc.kprot_ne with
    ⟨⟨v, hv, h1, h2⟩, -⟩ | ⟨-, ⟨hg, he⟩ | ⟨hg, l', he, -, hget⟩⟩
  · have := hclear v hv
    omega
  · exact .inl ⟨hg, by rw [hcall, he]; rfl⟩
  · refine .inr ⟨hg, { mm with vmas := ⟨l', mm.vmas.requests + 1⟩ }, by rw [hcall, he]; rfl,
      ⟨_, he⟩, fun x hx hx' => ?_⟩
    exact (hget x).trans (if_pos ⟨hx, hx'⟩)

/-- **The result is right exactly when** no address is to be taken, or the one to be taken is below
`2 ^ 31` and the node for the area is granted. -/
theorem mmap_honest_iff (grant : Nat → Bool) (mm : MmStruct) (addr len : Nat)
    (prot flags fd : BitVec 32) (offset : BitVec 64) (h : Ok mm.vmas.list)
    (hw : ∀ v ∈ mm.vmas.list, v.fin < 2 ^ 64) (haddr : addr < 2 ^ 64) :
    Honest grant mm addr len prot flags fd offset ↔
      ∀ t kprot, Accepted mm len prot flags fd offset kprot →
        Chosen mm addr (alignUp len pageSize) flags t →
        t < 2 ^ 31 ∧ grant mm.vmas.requests = true := by
  have hlt := alignUp_lt len
  rcases sysMmap_cases grant mm addr len prot flags fd offset with
    ⟨ret, he, herr, hno, -⟩ | ⟨kprot, hacc, hrest⟩
  · -- an argument is refused
    refine ⟨fun _ t k hacc => absurd hacc (hno k), fun _ => ⟨ret, mm, he, ?_, ?_⟩⟩
    · rw [herr]
      exact nofun
    · exact fun t k hacc => absurd hacc (hno k)
  have hl : 0 < alignUp len pageSize := Nat.pos_of_ne_zero hacc.len
  have hiff : ∀ t, target mm addr (alignUp len pageSize) flags = .ok t ↔
      Chosen mm addr (alignUp len pageSize) flags t :=
    fun t => target_ok_iff hl hlt haddr ⟨h.ordered, hw⟩
  rcases hrest with ⟨ret, ht, herr, he⟩ | ⟨t, ht, -⟩
  · -- no range is free
    have hnone : ∀ t, ¬ Chosen mm addr (alignUp len pageSize) flags t := by
      intro t hc
      rw [← hiff, ht] at hc
      cases hc
    refine ⟨fun _ t k _ hc => absurd hc (hnone t), fun _ => ⟨ret, mm, he, ?_, ?_⟩⟩
    · rw [herr]
      exact nofun
    · exact fun t k _ hc => absurd hc (hnone t)
  · have hc := (hiff t).1 ht
    have huniq : ∀ t', Chosen mm addr (alignUp len pageSize) flags t' → t' = t := by
      intro t' hc'
      rw [← hiff, ht] at hc'
      exact (Except.ok.inj hc').symm
    obtain ⟨hd, hb, -⟩ := hc.sound
    have hsig : userSigtrampAddr < 2 ^ 63 := by decide
    have hpage : pageSize = 4096 := rfl
    have hbb : pageSize ≤ t ∧ t + alignUp len pageSize ≤ userSigtrampAddr := hb
    obtain ⟨hnoerr, hsame⟩ := toInt_address hd (by omega) (by omega)
    rcases sysMmap_chosen grant h hw haddr hacc hc with
      ⟨hg, he⟩ | ⟨hg, mm', he, ⟨vmas, hadd⟩, hcov⟩
    · -- the write through the error pointer
      constructor
      · rintro ⟨v, mm', he', -⟩
        rw [he] at he'
        cases he'
      · intro hall
        have := (hall t kprot hacc hc).2
        rw [hg] at this
        cases this
    · constructor
      · rintro ⟨v, mm'', he', hok, -⟩ t' k hacc' hc'
        rw [huniq t' hc']
        rw [he] at he'
        cases he'
        obtain ⟨t'', -, -, hc'', hv, -⟩ := hok hnoerr
        rw [huniq t'' hc''] at hv
        exact ⟨hsame.1 hv, hg⟩
      · intro hall
        refine ⟨toInt t, mm', he, fun _ => ⟨t, kprot, hacc, hc, hsame.2 (hall t kprot hacc hc).1, hcov⟩,
          fun t' k hacc' hc' hfail => ?_⟩
        rw [huniq t' hc', hacc'.kprot_eq, ← hacc.kprot_eq] at hfail
        exact absurd hadd (hfail vmas)

def newMm : MmStruct := ⟨0x80000000, ⟨[], 0⟩, 0x1000, 0x2000⟩

/-- A fixed mapping below `2 ^ 31`. -/
theorem mmap_honest_low : Honest (fun _ => true) newMm 0x10000 0x1000 protRead
    (mapPrivate ||| mapAnonymous ||| mapFixed) (-1) 0 := by
  refine (mmap_honest_iff _ newMm _ _ _ _ _ _ ⟨Spans.Ordered.nil, nofun, nofun⟩ nofun
    (by decide)).2 ?_
  intro t kprot _ hc
  obtain ⟨-, -, rfl⟩ : _ ∧ _ ∧ t = 0x10000 := hc
  exact ⟨by decide, rfl⟩

/-- A mapping above `2 ^ 32` is recorded there and reported `2 ^ 32` below. -/
theorem mmap_truncated : sysMmap (fun _ => true) newMm 0x100010000 0x1000 protRead
        (mapPrivate ||| mapAnonymous ||| mapFixed) (-1) 0 =
      some (0x10000, { newMm with vmas := ⟨[⟨0x100010000, 0x100011000, 9⟩], 1⟩ }) ∧
    ¬ Honest (fun _ => true) newMm 0x100010000 0x1000 protRead
        (mapPrivate ||| mapAnonymous ||| mapFixed) (-1) 0 := by
  have hcall : sysMmap (fun _ => true) newMm 0x100010000 0x1000 protRead
        (mapPrivate ||| mapAnonymous ||| mapFixed) (-1) 0 =
      some (0x10000, { newMm with vmas := ⟨[⟨0x100010000, 0x100011000, 9⟩], 1⟩ }) := by
    rfl
  refine ⟨hcall, ?_⟩
  rintro ⟨v, mm', he, hok, -⟩
  cases he
  obtain ⟨t, -, -, hc, hv, -⟩ := hok (by decide)
  obtain ⟨-, -, rfl⟩ : _ ∧ _ ∧ t = 0x100010000 := hc
  exact absurd hv (by decide)

end ZzzOs.Mm.Mmap
