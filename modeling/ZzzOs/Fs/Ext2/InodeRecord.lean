import Mathlib.Data.List.OfFn
import ZzzOs.Fs.Ext2.Super

/-!
# The record of an inode on the disk

`ext2_write_inode`, `ext2_get_inode` and `ext2_iget` of `fs/ext2/ext2_inode.c`, for an inode that is
not cached. A record is built in zeroed memory from the fields that the kernel manages and is written
as a whole, so a write clears what another system keeps in the rest of the record.
-/

namespace ZzzOs.Fs.Ext2

open BitVec Lib

/-! ## Modes -/

/-- `S_IFREG`, `S_IFDIR`, `S_IFLNK`, `S_IFCHR`, `S_IFBLK`, `S_IFIFO` and `S_IFSOCK`; the constants of
ext2 are the same. -/
def fileTypes : List (BitVec 16) := [0x8000, 0x4000, 0xA000, 0x2000, 0x6000, 0x1000, 0xC000]

/-- The two conversions, with the bits that they switch on -/
def convertMode (type mode : BitVec 16) : BitVec 16 :=
  (if type ∈ fileTypes then type else 0x8000) ||| (mode &&& 0x0FFF)

def modeToExt2 (mode : BitVec 16) : BitVec 16 := convertMode (mode &&& 0xF000) mode

def modeFromExt2 (mode : BitVec 16) : BitVec 16 := convertMode (mode &&& (mode &&& 0xF000)) mode

theorem type_or_perm {type : BitVec 16} (h : type ∈ fileTypes) (mode : BitVec 16) :
    (type ||| (mode &&& 0x0FFF)) &&& 0xF000 = type := by
  have htype : ∀ t ∈ fileTypes, t &&& 0xF000 = t := by simp [fileTypes]
  have hperm : (0x0FFF : BitVec 16) &&& 0xF000 = 0 := by simp
  rw [BitVec.and_or_distrib_right, htype type h, BitVec.and_assoc, hperm]
  exact (congrArg _ BitVec.and_zero).trans BitVec.or_zero

theorem type_modeToExt2 (mode : BitVec 16) : modeToExt2 mode &&& 0xF000 ∈ fileTypes := by
  have hreg : 0x8000 ∈ fileTypes := by simp [fileTypes]
  unfold modeToExt2 convertMode
  split
  case isTrue h =>
    rw [type_or_perm h]
    exact h
  case isFalse =>
    rw [type_or_perm hreg]
    exact hreg

theorem modeToExt2_eq_self {mode : BitVec 16} : modeToExt2 mode = mode ↔ mode &&& 0xF000 ∈ fileTypes := by
  refine ⟨fun h => h ▸ type_modeToExt2 mode, fun h => ?_⟩
  have hall : (0xF000 : BitVec 16) ||| 0x0FFF = BitVec.allOnes 16 := by simp
  rw [modeToExt2, convertMode, if_pos h, ← and_or_distrib_left, hall, and_allOnes]

/-- Reading back a mode changes nothing more. -/
theorem modeFromExt2_modeToExt2 (mode : BitVec 16) : modeFromExt2 (modeToExt2 mode) = modeToExt2 mode := by
  rw [modeFromExt2, ← BitVec.and_assoc, BitVec.and_self]
  exact modeToExt2_eq_self.2 (type_modeToExt2 mode)

theorem modeToExt2_ne_zero (mode : BitVec 16) : modeToExt2 mode ≠ 0 := by
  intro h
  have htype := type_modeToExt2 mode
  rw [h] at htype
  simp [fileTypes] at htype

/-! ## The record -/

@[ext]
structure Timespec where
  tvSec : BitVec 64 := 0
  tvNsec : BitVec 64 := 0

/-- The fields of `struct inode` and `ext2_inode_info` that `ext2_write_inode` reads, allocated zeroed -/
@[ext]
structure Attrs where
  iMode : BitVec 16 := 0
  iNlink : BitVec 32 := 0
  iSize : BitVec 64 := 0
  iBlocks : BitVec 64 := 0
  iAtime : Timespec := {}
  iCtime : Timespec := {}
  iMtime : Timespec := {}
  iDtime : BitVec 32 := 0
  iFlags : BitVec 32 := 0
  iData : Fin 15 → BitVec 32 := fun _ => 0

def managed : List (Cell Attrs) :=
  [⟨0, 2, fun v => (modeToExt2 v.iMode).toNat⟩, ⟨4, 4, fun v => v.iSize.toNat⟩,
    ⟨8, 4, fun v => v.iAtime.tvSec.toNat⟩, ⟨12, 4, fun v => v.iCtime.tvSec.toNat⟩,
    ⟨16, 4, fun v => v.iMtime.tvSec.toNat⟩, ⟨20, 4, fun v => v.iDtime.toNat⟩,
    ⟨26, 2, fun v => v.iNlink.toNat⟩, ⟨28, 4, fun v => v.iBlocks.toNat⟩,
    ⟨32, 4, fun v => v.iFlags.toNat⟩] ++
  List.ofFn fun n : Fin 15 => ⟨40 + 4 * n, 4, fun v => (v.iData n).toNat⟩

/-- What `ext2_write_inode` writes; `i_uid` and `i_gid` are set to the 0 that they are. -/
def rawInode (v : Attrs) : Bytes := Cell.store managed v

/-- What `ext2_iget` makes of a record; `i_dtime` is cleared. -/
def fromRaw (raw : Bytes) : Except Int Attrs :=
  let mode := modeFromExt2 (.ofNat 16 (raw.word 0 2))
  let nlink : BitVec 32 := .ofNat 32 (raw.word 26 2)
  let dtime : BitVec 32 := .ofNat 32 (raw.word 20 4)
  if nlink = 0 ∧ (mode = 0 ∨ dtime ≠ 0) then .error (-enoent)
  else
    .ok
      { iMode := mode
        iNlink := nlink
        iSize := .ofNat 64 (raw.word 4 4)
        iBlocks := .ofNat 64 (raw.word 28 4)
        iAtime.tvSec := .ofNat 64 (raw.word 8 4)
        iCtime.tvSec := .ofNat 64 (raw.word 12 4)
        iMtime.tvSec := .ofNat 64 (raw.word 16 4)
        iFlags := .ofNat 32 (raw.word 32 4)
        iData := fun n => .ofNat 32 (raw.word (40 + 4 * n) 4) }

/-! ## The calls -/

/-- What the allocations of the two calls return: the memory for the records, and the error of `iget` -/
structure RecordIo where
  writeMem : Bool
  iget : Option Int
  readMem : Bool

variable (sbi : SbInfo) (gdt : Nat → Nat) (io : RecordIo) (d : Blkdev) (ino : Nat) (v : Attrs)

def SbInfo.inodeOffset : Nat := (ino - 1) % sbi.inodesPerGroup * sbi.inodeSize

/-- The place of an offset on the disk, with the blocks `bg_inode_table` of the descriptors -/
def SbInfo.tablePos (off : Nat) : Nat :=
  gdt ((ino - 1) / sbi.inodesPerGroup) * sbi.blockSize + off

/-- `pos`; the offset is an `u32`. -/
def SbInfo.inodePos : Nat := sbi.tablePos gdt ino (u32 (sbi.inodeOffset ino))

def writeInode : Int × Blkdev :=
  if 2 ^ 32 - 1 < v.iBlocks.toNat then (-efbig, d)
  else if io.writeMem = false then (-enomem, d)
  else
    let (ok, d) := d.blkdevWrite (rawInode v) sbi.inodeSize (sbi.inodePos gdt ino)
    (if ok then 0 else -eio, d)

def getInode : Except Int Bytes :=
  match sbi.inodeGroup ino with
  | .error ret => .error ret
  | .ok _ =>
    if io.readMem = false then .error (-enomem)
    else
      match (d.blkdevRead sbi.inodeSize (sbi.inodePos gdt ino)).1 with
      | none => .error (-eio)
      | some raw => .ok raw

def freshIget : Except Int Attrs :=
  match io.iget with
  | some ret => .error ret
  | none => getInode sbi gdt io d ino >>= fromRaw

def Managed (y : Nat) : Prop := ∃ f ∈ managed, f.Covers y

def Owns (x : Nat) : Prop := ∃ y, Managed y ∧ sbi.tablePos gdt ino (sbi.inodeOffset ino) + y = x

/-- The inode is written, a fresh `ext2_iget` gives it back, and no byte of the disk but those of its
fields in the inode table has changed. -/
def Reproduced : Prop :=
  ∃ d', writeInode sbi gdt io d ino v = (0, d') ∧ freshIget sbi gdt io d' ino = .ok v ∧
    ∀ x, ¬ Owns sbi gdt ino x → d'.data x = d.data x

/-- No allocation and no request fails. -/
def Calm : Prop := io = ⟨true, none, true⟩ ∧ d.failed = false ∧ d.next.failed = false

/-- What a record has room for -/
def Timespec.Fits (t : Timespec) : Prop := t.tvSec.toNat < 2 ^ 32 ∧ t.tvNsec = 0

/-- What a record has room for, with a type that is known and a time of deletion that is not read back -/
structure Attrs.Fits (v : Attrs) : Prop where
  mode : v.iMode &&& 0xF000 ∈ fileTypes
  nlink : v.iNlink.toNat < 2 ^ 16
  size : v.iSize.toNat < 2 ^ 32
  blocks : v.iBlocks.toNat < 2 ^ 32
  atime : v.iAtime.Fits
  ctime : v.iCtime.Fits
  mtime : v.iMtime.Fits
  dtime : v.iDtime = 0

/-- What is not in a field of the inode is written as it is. -/
def Kept : Prop :=
  ∀ y < sbi.inodeSize, ¬ Owns sbi gdt ino (sbi.inodePos gdt ino + y) →
    d.data (sbi.inodePos gdt ino + y) = rawInode v y

variable {sbi gdt io d ino v}

/-! ## The round trip -/

theorem rawInode_unmanaged {y : Nat} (hy : ¬ Managed y) : rawInode v y = 0 :=
  Cell.store_out fun f hf hc => hy ⟨f, hf, hc⟩

theorem ofNat_toNat_mod {w k : Nat} (x : BitVec w) :
    BitVec.ofNat w (x.toNat % 2 ^ k) = x ↔ x.toNat < 2 ^ k := by
  rw [← toNat_inj, toNat_ofNat, Nat.mod_eq_of_lt (lt_of_le_of_lt (Nat.mod_le _ _) x.isLt)]
  exact ⟨fun hx => hx ▸ Nat.mod_lt _ (Nat.two_pow_pos k), Nat.mod_eq_of_lt⟩

theorem Timespec.fits_iff (t : Timespec) :
    (⟨.ofNat 64 (t.tvSec.toNat % 2 ^ 32), 0⟩ : Timespec) = t ↔ t.Fits := by
  rw [Fits, ← ofNat_toNat_mod t.tvSec, eq_comm (b := (0 : BitVec 64))]
  exact Timespec.ext_iff

/-- **A record gives back what has room in it.** -/
theorem fromRaw_rawInode : fromRaw (rawInode v) = .ok v ↔ v.Fits := by
  have hword : ∀ f ∈ managed, (rawInode v).word f.off f.len = f.get v % 2 ^ (8 * f.len) := fun _ hf =>
    Cell.word_store (by decide) hf v
  simp only [managed, List.forall_mem_append, List.forall_mem_cons, List.forall_mem_ofFn_iff,
    Nat.reduceMul] at hword
  have hwhole : ∀ {w : Nat} (x : BitVec w), BitVec.ofNat w (x.toNat % 2 ^ w) = x := fun x =>
    (ofNat_toNat_mod x).2 x.isLt
  simp only [fromRaw, hword, hwhole, modeFromExt2_modeToExt2, modeToExt2_ne_zero, false_or]
  split
  case isTrue hc => exact ⟨nofun, fun h => absurd h.dtime hc.2⟩
  case isFalse =>
    rw [Except.ok.injEq, Attrs.ext_iff]
    simp only [ofNat_toNat_mod, Timespec.fits_iff, modeToExt2_eq_self, and_true]
    exact ⟨fun ⟨h1, h2, h3, h4, h5, h6, h7, h8⟩ => ⟨h1, h2, h3, h4, h5, h6, h7, h8.symm⟩, fun h =>
      ⟨h.mode, h.nlink, h.size, h.blocks, h.atime, h.ctime, h.mtime, h.dtime.symm⟩⟩

/-- The disk with the record -/
theorem slice_rawInode (hsize : 128 ≤ sbi.inodeSize) (pos : Nat) :
    (d.data.write pos sbi.inodeSize (rawInode v)).slice pos sbi.inodeSize = rawInode v := by
  funext x
  by_cases hx : x < sbi.inodeSize
  · exact Bytes.slice_write_self hx
  · have hout : ∀ f ∈ managed, f.off + f.len ≤ 128 := by decide
    refine (if_neg hx).trans (rawInode_unmanaged ?_).symm
    rintro ⟨f, hf, hc⟩
    have := hout f hf
    exact hx (by omega)

theorem writeInode_eq {d' : Blkdev} : writeInode sbi gdt io d ino v = (0, d') ↔
    v.iBlocks.toNat < 2 ^ 32 ∧ io.writeMem = true ∧ d.failed = false ∧ { d.next with
      data := d.data.write (sbi.inodePos gdt ino) sbi.inodeSize (rawInode v) } = d' := by
  unfold writeInode Blkdev.blkdevWrite
  split_ifs <;> grind [efbig, enomem, eio]

theorem freshIget_eq {place} (hino : sbi.inodeGroup ino = .ok place) : freshIget sbi gdt io d ino = .ok v ↔
    io.iget = none ∧ io.readMem = true ∧ d.failed = false ∧
      fromRaw (d.data.slice (sbi.inodePos gdt ino) sbi.inodeSize) = .ok v := by
  unfold freshIget getInode Blkdev.blkdevRead
  rw [hino]
  cases io.iget <;> cases io.readMem <;> cases d.failed <;> simp [bind, Except.bind]

theorem unchanged_iff : (∀ x, ¬ Owns sbi gdt ino x →
    d.data.write (sbi.inodePos gdt ino) sbi.inodeSize (rawInode v) x = d.data x) ↔
      Kept sbi gdt d ino v := by
  constructor
  · intro h y hy hout
    rw [← h _ hout, Bytes.write_in hy]
  · intro h x hx
    by_cases hin : sbi.inodePos gdt ino ≤ x ∧ x < sbi.inodePos gdt ino + sbi.inodeSize
    · obtain ⟨y, rfl⟩ := Nat.exists_eq_add_of_le hin.1
      have hy : y < sbi.inodeSize := Nat.lt_of_add_lt_add_left hin.2
      rw [Bytes.write_in hy, h y hy hx]
    · exact Bytes.write_out (by omega)

/-- Where the offset is not cut, the rest of the record has to be zero. -/
theorem kept_iff (h : sbi.inodeOffset ino < 2 ^ 32) : Kept sbi gdt d ino v ↔
    ∀ y < sbi.inodeSize, ¬ Managed y → d.data (sbi.inodePos gdt ino + y) = 0 := by
  have howns : ∀ y, Owns sbi gdt ino (sbi.inodePos gdt ino + y) ↔ Managed y := by
    intro y
    unfold Owns SbInfo.inodePos
    rw [u32_of_lt h]
    exact ⟨fun ⟨z, hz, heq⟩ => Nat.add_left_cancel heq ▸ hz, fun hy => ⟨y, hy, rfl⟩⟩
  refine forall₂_congr fun y _ => ?_
  rw [howns]
  exact forall_congr' fun hy => by rw [rawInode_unmanaged hy]

/-- **Writing an inode and reading it back**: it is the same, and nothing else on the disk has changed,
exactly when no call fails, the fields have room in the record, and the rest is kept: where the offset of
the record is not cut to 32 bits, exactly when it was zero. -/
theorem reproduced_iff (hsize : 128 ≤ sbi.inodeSize) {place} (hino : sbi.inodeGroup ino = .ok place) :
    (Reproduced sbi gdt io d ino v ↔ Calm io d ∧ v.Fits ∧ Kept sbi gdt d ino v) ∧
      (sbi.inodeOffset ino < 2 ^ 32 → (Kept sbi gdt d ino v ↔
        ∀ y < sbi.inodeSize, ¬ Managed y → d.data (sbi.inodePos gdt ino + y) = 0)) := by
  refine ⟨⟨?_, ?_⟩, kept_iff⟩
  · rintro ⟨d', hwrite, hread, hframe⟩
    obtain ⟨-, hmem, hdev, rfl⟩ := writeInode_eq.1 hwrite
    obtain ⟨higet, hbuf, hdev', hraw⟩ := (freshIget_eq hino).1 hread
    rw [slice_rawInode hsize, fromRaw_rawInode] at hraw
    cases io
    cases hmem
    cases higet
    cases hbuf
    exact ⟨⟨rfl, hdev, hdev'⟩, hraw, unchanged_iff.1 hframe⟩
  · rintro ⟨⟨rfl, hdev, hdev'⟩, hfits, hkept⟩
    refine ⟨_, writeInode_eq.2 ⟨hfits.blocks, rfl, hdev, rfl⟩, (freshIget_eq hino).2
      ⟨rfl, rfl, hdev', ?_⟩, unchanged_iff.2 hkept⟩
    rw [slice_rawInode hsize, fromRaw_rawInode]
    exact hfits

/-- An empty file with one link -/
def emptyAttrs : Attrs where
  iMode := 0x8000
  iNlink := 1

/-- On a disk of zeros an empty file is reproduced. -/
theorem reproduced_zeros : Reproduced (smallSuper.sbInfo 1024) (fun _ => 5) ⟨true, none, true⟩
    ⟨fun _ => 0, []⟩ 12 emptyAttrs :=
  (reproduced_iff (by decide) rfl).1.2 ⟨⟨rfl, rfl, rfl⟩,
    ⟨by simp [emptyAttrs, fileTypes], by decide, by decide, by decide, ⟨by decide, rfl⟩,
      ⟨by decide, rfl⟩, ⟨by decide, rfl⟩, rfl⟩,
    (kept_iff (by decide)).2 fun _ _ _ => rfl⟩

/-- The owner of an inode is lost. -/
theorem owner_lost : ¬ Reproduced (smallSuper.sbInfo 1024) (fun _ => 5) ⟨true, none, true⟩
    ⟨Bytes.setWord (fun _ => 0) 6530 2 1000, []⟩ 12 emptyAttrs := by
  rintro ⟨d', hwrite, -, hframe⟩
  obtain ⟨-, -, -, rfl⟩ := writeInode_eq.1 hwrite
  have hkept := (kept_iff (by decide)).1 (unchanged_iff.1 hframe) 2 (by decide) (by unfold Managed; decide)
  exact absurd hkept (by decide)

end ZzzOs.Fs.Ext2
