import ZzzOs.Fs.Block.Raw

/-!
# Partitions

The partitions that `gpt_scan` registers, and the sectors of the requests made through them. The table
is not trusted: the sectors of a partition are numbers of 64 bits (`Bdev.Sound`) and need not be on the
disk.

`blkdev_read` and `blkdev_write` compare `pos + len`, modulo `2^64`, with the size of the partition; a
`bio` is only compared with the size of the disk.
-/

namespace ZzzOs.Fs.Block

open Nat List Lib

variable {D : Device} {io : Env} {s s' : Machine} {p : Bdev} {bio : Bio} {op : Op}
  {buf done ent hdr n : Nat} {len pos sector : BitVec 64}

/-! ## The table -/

/-- What is known of a partition of a table -/
structure Bdev.Sound (p : Bdev) : Prop where
  start : p.startSect ≠ 0
  nr : p.nrSectors ≠ 0
  bound : p.startSect.toNat + p.nrSectors.toNat ≤ 2 ^ 64

def Registers (s s' : Machine) : Prop := ∃ new, s'.parts = s.parts ++ new ∧ ∀ p ∈ new, p.Sound

theorem registers_none (h : s'.parts = s.parts) : Registers s s' :=
  ⟨[], by rw [h, append_nil], nofun⟩

instance : Std.Refl Registers := ⟨fun _ => registers_none rfl⟩

instance : IsTrans Machine Registers where
  trans _ _ _ h h' := by
    obtain ⟨new, hparts, hnew⟩ := h
    obtain ⟨new', hparts', hnew'⟩ := h'
    exact ⟨new ++ new', by rw [hparts', hparts, List.append_assoc],
      List.forall_mem_append.2 ⟨hnew, hnew'⟩⟩

theorem require_registers : Keeps Registers (require io) := by
  refine Keeps.bind (fun s => registers_none rfl) fun b => ?_
  cases b with
  | true => exact .pure
  | false => exact .throw

theorem device_registers (sector : Nat) : Keeps Registers (device io bio sector) := by
  intro s
  unfold wp device
  cases io.answer s.requests with
  | done => exact registers_none (transfer_rest ..).2
  | refused ret => exact registers_none rfl
  | failed unsupp arrived =>
    apply registers_none
    unfold Machine.transferTorn
    cases bio.op <;> rfl

theorem submitBioWait_registers : Keeps Registers (submitBioWait D io p bio) := by
  refine Keeps.bind ?_ fun _ => ?_
  · exact .ite .throw (.ite .throw (.ite .throw (.ite .throw (.ite .pure .throw))))
  · exact .ite .throw (.ite .throw (.ite .throw (require_registers.bind fun _ =>
      .ite (device_registers _) .throw)))

theorem bioAlloc_registers : Keeps Registers (bioAlloc io op sector n) :=
  .ite .throw (require_registers.bind fun _ => require_registers.bind fun _ => .pure)

theorem bioAddPage_registers {v : Vec} : Keeps Registers (bioAddPage bio v) :=
  .ite .throw (.ite .throw (.ite .throw (.ite .throw .pure)))

theorem bioMapKernBuf_registers (n : Nat) {cursor len : Nat} :
    Keeps Registers (bioMapKernBuf io n bio cursor len) := by
  induction n generalizing bio cursor len with
  | zero => exact .pure
  | succ n ih => exact .ite .pure (.ite (bioAddPage_registers.bind fun _ => ih) .throw)

theorem partialBio_registers {len pos : Nat} : Keeps Registers (partialBio D io len pos) :=
  .ite .throw (.ite .throw (require_registers.bind fun _ => bioAlloc_registers.bind fun _ =>
    bioAddPage_registers))

theorem blkdevPartialBlock_registers {len pos : Nat} :
    Keeps Registers (blkdevPartialBlock D io op buf len pos) := by
  cases op with
  | read =>
    exact .ite .throw (partialBio_registers.bind fun _ => submitBioWait_registers.bind fun _ =>
      .modify fun s => registers_none rfl)
  | write =>
    exact partialBio_registers.bind fun _ => submitBioWait_registers.bind fun _ =>
      .bind (.modify fun s => registers_none rfl) fun _ => submitBioWait_registers

theorem blkdevAligned_registers {len pos : Nat} : Keeps Registers (blkdevAligned D io op buf len pos) :=
  .ite .throw (.ite .throw (bioAlloc_registers.bind fun _ => (bioMapKernBuf_registers _).bind fun _ =>
    submitBioWait_registers.bind fun _ => .pure))

theorem rawTail_registers {len pos : Nat} : Keeps Registers (rawTail D io op buf len pos done) :=
  .ite blkdevPartialBlock_registers .pure

theorem rawBlocks_registers {len pos : Nat} :
    Keeps Registers (rawBlocks D io op buf len pos done) :=
  .ite (blkdevAligned_registers.bind fun _ => rawTail_registers) rawTail_registers

theorem blkdevRaw_registers : Keeps Registers (blkdevRaw D io op buf len pos) := by
  refine .ite .throw (.ite .pure (.ite ?_ rawBlocks_registers))
  exact blkdevPartialBlock_registers.bind fun _ => .ite .pure rawBlocks_registers

theorem gptRead_registers : Keeps Registers (gptRead D io buf len pos) := by
  have hread : Keeps Registers (blkdevRead D io D.whole buf len pos) := .ite .throw blkdevRaw_registers
  intro s
  have hs := hread s
  unfold wp gptRead at *
  cases hrun : blkdevRead D io D.whole buf len pos s with
  | ok a s' =>
    rw [hrun] at hs
    exact hs
  | error e s' =>
    rw [hrun] at hs
    cases e with
    | ret r => exact hs
    | assert => exact hs

theorem sound_of_entry {first last : BitVec 64} (hfirst : first ≠ 0) (hle : first.toNat ≤ last.toNat) :
    (Bdev.mk first (last - first + 1)).Sound := by
  have hpos : first.toNat ≠ 0 := fun h => hfirst (BitVec.eq_of_toNat_eq h)
  have hnr : (last - first + 1).toNat = last.toNat - first.toNat + 1 := by
    rw [BitVec.toNat_add, BitVec.toNat_sub_of_le (BitVec.le_def.2 hle)]
    exact mod_eq_of_lt (show last.toNat - first.toNat + 1 < 2 ^ 64 by omega)
  refine ⟨hfirst, fun h => ?_, ?_⟩
  · have hzero : (last - first + 1).toNat = 0 := by
      rw [show last - first + 1 = 0 from h]
      rfl
    omega
  · show first.toNat + (last - first + 1).toNat ≤ 2 ^ 64
    omega

theorem gptRegister_registers {e : GptEntry} : Keeps Registers (gptRegister io e) := by
  unfold gptRegister
  split
  · exact .pure
  · split_ifs with hskip
    · exact .pure
    · obtain ⟨hfirst, hlast⟩ := not_or.1 hskip
      refine .modify fun s => ?_
      split
      · exact ⟨_, rfl, forall_mem_singleton.2 (sound_of_entry hfirst (Nat.le_of_not_lt hlast))⟩
      · exact registers_none rfl

theorem gptEntries_registers {entriesPos entrySize : BitVec 64} (n i : Nat) :
    Keeps Registers (gptEntries D io ent entriesPos entrySize n i) := by
  induction n generalizing i with
  | zero => exact .pure
  | succ n ih =>
    exact gptRead_registers.bind fun _ => Keeps.get.bind fun _ => gptRegister_registers.bind fun _ => ih _

theorem gptScan_registers : Keeps Registers (gptScan D io hdr ent) := by
  refine gptRead_registers.bind fun _ => Keeps.get.bind fun s => ?_
  dsimp only
  split
  · exact .throw
  · split
    · exact .throw
    · exact gptEntries_registers _ _

/-! ## Requests through a partition -/

inductive Request where
  | read (buf : Nat) (len pos : BitVec 64)
  | write (buf : Nat) (len pos : BitVec 64)
  | bio (bio : Bio)

def Request.run (D : Device) (io : Env) (p : Bdev) : Request → B Unit
  | .read buf len pos => blkdevRead D io p buf len pos
  | .write buf len pos => blkdevWrite D io p buf len pos
  | .bio bio => submitBioWait D io p bio

def Inside (D : Device) (p : Bdev) (e : Nat × Nat) : Prop :=
  p.startSect.toNat ≤ e.1 ∧ e.1 + e.2 ≤ p.startSect.toNat + p.nrSectors.toNat ∧ e.1 + e.2 ≤ D.capacity

/-- If the request returns 0, the sectors that were transferred are inside of the partition. -/
def Confined (D : Device) (io : Env) (p : Bdev) (r : Request) (s : Machine) : Prop :=
  wp (r.run D io p) (fun _ s' => ∃ new, s'.log = new ++ s.log ∧ ∀ e ∈ new, Inside D p e)
    (fun _ _ => True) s

def realPos (p : Bdev) (pos : BitVec 64) : BitVec 64 := p.startSect * BitVec.ofNat 64 sectorSize + pos

/-- The range of a request passes all checks. -/
structure Passes (D : Device) (p : Bdev) (buf : Nat) (len pos : BitVec 64) : Prop where
  buffer : buf ≠ 0
  some : len.toNat ≠ 0
  size : (pos + len).toNat ≤ (p.nrSectors * BitVec.ofNat 64 sectorSize).toNat
  disk : (realPos p pos).toNat + len.toNat ≤ D.capacity * sectorSize
  fits : RawFits D buf (realPos p pos).toNat len.toNat

/-- A `bio` passes all checks. -/
structure BioPasses (D : Device) (p : Bdev) (bio : Bio) : Prop where
  ready : bio.Ready D
  accepts : Accepts D p bio

/-- The end of a request on the disk, as a sum of three numbers, is below `2^64`, and the sectors of a
`bio` are in the partition; or it is turned down. -/
def Within (D : Device) (p : Bdev) : Request → Prop
  | .read buf len pos | .write buf len pos =>
    p.startSect.toNat * sectorSize + pos.toNat + len.toNat < 2 ^ 64 ∨ ¬ Passes D p buf len pos
  | .bio bio =>
    bio.sector.toNat + bio.size / sectorSize ≤ p.nrSectors.toNat ∨ ¬ BioPasses D p bio

theorem blocks_of_sectors (hbs : D.blockSize = sectorSize) : D.Blocks :=
  ⟨hbs ▸ dvd_refl _, hbs ▸ by decide⟩

/-- How a request for a range ends: it is done, and then all checks were passed, or it fails, and not
without a reason. -/
theorem blkdevRw_spec (hbs : D.blockSize = sectorSize) (hbuf : buf ≠ 0) (hlen : len.toNat ≠ 0) :
    wp (blkdevRw D io op p buf len pos) (fun _ s' => Passes D p buf len pos ∧
        ∃ new, s'.log = new ++ s.log ∧ Covers new (realPos p pos).toNat len.toNat)
      (fun _ _ => io.Calm → ¬ Passes D p buf len pos) s := by
  refine wp_ite (fun hsize _ h => absurd hsize (Nat.not_lt.2 h.size)) fun hsize => ?_
  refine wp_mono (fun _ s' hs' => ?_) (fun e s' hs' hcalm h => hs'.cause hbs hcalm h.disk h.fits)
    (blkdevRaw_spec (blocks_of_sectors hbs) hbuf hlen)
  exact ⟨⟨hbuf, hlen, Nat.le_of_not_lt hsize, hs'.disk, hs'.fits⟩, hs'.log hbs⟩

theorem toNat_mul_sectorSize (x : BitVec 64) :
    (x * BitVec.ofNat 64 sectorSize).toNat = x.toNat * sectorSize % 2 ^ 64 := by
  rfl

theorem realPos_toNat : (realPos p pos).toNat = (p.startSect.toNat * sectorSize + pos.toNat) % 2 ^ 64 := by
  unfold realPos
  rw [BitVec.toNat_add, toNat_mul_sectorSize, mod_add_mod]

/-- A range that passes the checks is one of the partition just if the sum of its numbers does not wrap.
-/
theorem range_inside_iff (h : Passes D p buf len pos) :
    p.startSect.toNat * sectorSize ≤ (realPos p pos).toNat ∧
        (realPos p pos).toNat + len.toNat ≤ (p.startSect.toNat + p.nrSectors.toNat) * sectorSize ↔
      p.startSect.toNat * sectorSize + pos.toNat + len.toNat < 2 ^ 64 := by
  have hsize := h.size
  have hdisk := h.disk
  have hlt := D.size_lt
  have hpos := pos.isLt
  rw [toNat_mul_sectorSize, BitVec.toNat_add] at hsize
  rw [realPos_toNat] at *
  rw [add_mul]
  generalize p.startSect.toNat * sectorSize = a at *
  generalize p.nrSectors.toNat * sectorSize = b at *
  generalize pos.toNat = x at *
  generalize len.toNat = l at *
  generalize D.capacity * sectorSize = c at *
  omega

/-- The sectors of a range are those of the partition if the range is. -/
theorem covers_inside {new : List (Nat × Nat)} {k l : Nat} (h : Covers new k l)
    (hdisk : k + l ≤ D.capacity * sectorSize) :
    (∀ e ∈ new, Inside D p e) ↔ p.startSect.toNat * sectorSize ≤ k ∧
      k + l ≤ (p.startSect.toNat + p.nrSectors.toNat) * sectorSize := by
  rw [← h]
  constructor
  · intro hall e he
    exact ⟨(hall e he).1, (hall e he).2.1⟩
  · intro hall e he
    refine ⟨(hall e he).1, (hall e he).2, ?_⟩
    exact (((h 0 D.capacity).2 ⟨by omega, hdisk⟩) e he).2

/-- A range is confined, whatever the environment does, just if it is turned down or does not wrap. -/
theorem blkdevRw_confined_iff (hbs : D.blockSize = sectorSize) :
    (∀ io, wp (blkdevRw D io op p buf len pos)
      (fun _ s' => ∃ new, s'.log = new ++ s.log ∧ ∀ e ∈ new, Inside D p e) (fun _ _ => True) s) ↔
      p.startSect.toNat * sectorSize + pos.toNat + len.toNat < 2 ^ 64 ∨ ¬ Passes D p buf len pos := by
  constructor
  · intro hall
    by_cases hpasses : Passes D p buf len pos
    · left
      have hboth := wp_and (hall calmEnv) (blkdevRw_spec hbs hpasses.buffer hpasses.some)
      cases hrun : blkdevRw D calmEnv op p buf len pos s with
      | ok _ s' =>
        obtain ⟨⟨new, hlog, hin⟩, -, new', hlog', hcovers⟩ := wp_ok hboth hrun
        rw [append_cancel_right (hlog'.symm.trans hlog)] at hcovers
        exact (range_inside_iff hpasses).1 ((covers_inside hcovers hpasses.disk).1 hin)
      | error e s' => exact absurd hpasses ((wp_error hboth hrun).2 calmEnv_calm)
    · exact .inr hpasses
  · intro hcond io
    by_cases hbuf : buf = 0
    · subst hbuf
      exact wp_ite (fun _ => trivial) fun _ => trivial
    · by_cases hlen : len.toNat = 0
      · exact wp_ite (fun _ => trivial) fun _ => wp_of_ok (blkdevRaw_empty hbuf hlen) ⟨[], rfl, nofun⟩
      · refine wp_mono (fun _ s' hs' => ?_) (fun _ _ _ => trivial) (blkdevRw_spec hbs hbuf hlen)
        obtain ⟨hpasses, new, hlog, hcovers⟩ := hs'
        have hsum := hcond.resolve_right (not_not.2 hpasses)
        exact ⟨new, hlog, (covers_inside hcovers hpasses.disk).2 ((range_inside_iff hpasses).2 hsum)⟩

theorem submitBioWait_ready :
    wp (submitBioWait D io p bio) (fun _ _ => bio.Ready D) (fun _ _ => True) s := by
  unfold submitBioWait blkdevValidateBio
  split_ifs with _ hvecs hsize haligned <;> try trivial
  refine wp_bind.2 (wp_ite (fun _ => trivial) fun hsectors => wp_ite (fun _ => trivial) fun _ => ?_)
  refine wp_ite (fun _ => trivial) fun _ => wp_bind.2 ?_
  refine wp_mono (fun _ s₁ _ => ?_) (fun _ _ _ => trivial) wp_any
  refine wp_ite (fun hvalid => ?_) fun _ => trivial
  refine wp_mono (fun _ _ _ => ?_) (fun _ _ _ => trivial) wp_any
  push Not at hvecs hsize hsectors haligned
  exact ⟨hvecs, hvalid, ⟨hsize.1, hsize.2, hsectors.2⟩, haligned⟩

theorem bio_inside_iff (hp : p.Sound) (h : BioPasses D p bio) :
    Inside D p (bio.start p, bio.size / sectorSize) ↔
      bio.sector.toNat + bio.size / sectorSize ≤ p.nrSectors.toNat := by
  have hdisk := h.accepts.disk
  have hbound := hp.bound
  have hsome : 0 < bio.size / sectorSize := by
    obtain ⟨hne, -, hmod⟩ := h.ready.size
    unfold sectorSize at *
    omega
  have hreal : bio.start p = (p.startSect.toNat + bio.sector.toNat) % 2 ^ 64 := BitVec.toNat_add ..
  unfold Inside
  generalize bio.size / sectorSize = n at *
  omega

theorem submitBioWait_confined_iff (hp : p.Sound) (hbs : D.blockSize = sectorSize) :
    (∀ io, wp (submitBioWait D io p bio)
      (fun _ s' => ∃ new, s'.log = new ++ s.log ∧ ∀ e ∈ new, Inside D p e) (fun _ _ => True) s) ↔
      bio.sector.toNat + bio.size / sectorSize ≤ p.nrSectors.toNat ∨ ¬ BioPasses D p bio := by
  have hne : D.blockSize ≠ 0 := by
    rw [hbs]
    decide
  constructor
  · intro hall
    by_cases hpasses : BioPasses D p bio
    · left
      have hboth := wp_and (hall calmEnv) (submitBioWait_spec hpasses.ready hne)
      cases hrun : submitBioWait D calmEnv p bio s with
      | ok _ s' =>
        obtain ⟨⟨new, hlog, hin⟩, -, a, r, rfl⟩ := wp_ok hboth hrun
        have hnew : [(bio.start p, bio.size / sectorSize)] = new :=
          append_cancel_right hlog
        exact (bio_inside_iff hp hpasses).1 (hin _ (hnew ▸ mem_singleton_self _))
      | error e s' => exact absurd ⟨calmEnv_calm, hpasses.accepts⟩ (wp_error hboth hrun).2.cause
    · exact .inr hpasses
  · intro hcond io
    by_cases hready : bio.Ready D
    · refine wp_mono (fun _ s' hs' => ?_) (fun _ _ _ => trivial) (submitBioWait_spec hready hne)
      obtain ⟨haccepts, a, r, rfl⟩ := hs'
      have hpasses : BioPasses D p bio := ⟨hready, haccepts⟩
      have hin := (bio_inside_iff hp hpasses).2 (hcond.resolve_right (not_not.2 hpasses))
      exact ⟨[_], rfl, forall_mem_singleton.2 hin⟩
    · exact wp_mono (fun _ _ h => absurd h hready) (fun _ _ _ => trivial) submitBioWait_ready

def gptDevice : Device where
  capacity := 8
  blockSize := 512
  vqNum := 128
  size_lt := by decide

/-- The bytes of a table at the sectors 1 and 2, with one partition of the sectors 4 and 5 -/
def gptBytes (x : Nat) : UInt8 :=
  if x < 512 then 0
  else if x < 520 then gptSignature.getD (x - 512) 0
  else if x = 512 + 72 then 2
  else if x = 512 + 80 then 1
  else if x = 512 + 84 then 128
  else if x = 1024 then 1
  else if x = 1024 + 32 then 4
  else if x = 1024 + 40 then 5
  else 0

def gptDisk : Machine := { numbered with data := gptBytes }

def gptPart : Bdev where
  startSect := 4
  nrSectors := 2

end ZzzOs.Fs.Block
