import ZzzOs.Fs.Ext2.Dir.Model

/-!
# Mounting

`ext2_get_tree` of `fs/ext2/ext2_super.c`: what is checked of the super block, and what is computed from
it. A shift by the width of its operand and a division by zero have no meaning (`undefined`).

Most fields are not checked. `Wellformed` is what makes the computed numbers safe to use.
-/

namespace ZzzOs.Fs.Ext2

open Lib Nat

def enomem : Int := 12

def enodev : Int := 19

/-- What an `u32` keeps of a number -/
def u32 (n : Nat) : Nat := n % 2 ^ 32

theorem u32_of_lt {n : Nat} (h : n < 2 ^ 32) : u32 n = n := mod_eq_of_lt h

theorem u32_lt (n : Nat) : u32 n < 2 ^ 32 := mod_lt _ (by decide)

def superMagic : BitVec 16 := 0xEF53

/-- `sizeof(struct ext2_group_desc)` -/
def groupDescSize : Nat := 32

def rootIno : Nat := 2

/-- The fields of `ext2_super_block` that a mount reads -/
structure RawSuper where
  inodesCount : BitVec 32
  blocksCount : BitVec 32
  freeBlocksCount : BitVec 32
  freeInodesCount : BitVec 32
  firstDataBlock : BitVec 32
  logBlockSize : BitVec 32
  blocksPerGroup : BitVec 32
  inodesPerGroup : BitVec 32
  magic : BitVec 16
  inodeSize : BitVec 16

/-- `ext2_sb_info`, with the block size, the inode size and what was read of the descriptor table -/
structure SbInfo where
  blockSize : Nat
  inodeSize : Nat
  blocksPerGroup : Nat
  inodesPerGroup : Nat
  itbPerGroup : Nat
  ibmbPerGroup : Nat
  bbmbPerGroup : Nat
  inodesPerBlock : Nat
  descPerBlock : Nat
  groupsCount : Nat
  gdbCount : Nat
  inodesCount : Nat
  blocksCount : Nat
  freeBlocksCount : Nat
  freeInodesCount : Nat
  firstDataBlock : Nat
  gdtLen : Nat
  gdtOffset : Nat

/-- What the calls of a mount return, and the error of `ext2_iget` for another reason than the inode
number -/
structure MountIo where
  bdev : Bool
  rawMem : Bool
  raw : Option RawSuper
  sbiMem : Bool
  gdtMem : Bool
  gdtRead : Bool
  superMem : Bool
  cacheMem : Bool
  root : Option Int
  dentryMem : Bool

inductive Mount where
  | failed (ret : Int)
  | undefined
  | mounted (sbi : SbInfo)

/-- `1024U << s_log_block_size`, if the shift is defined -/
def blockSizeOf (log : BitVec 32) : Option Nat :=
  if log.toNat < 32 then some (u32 (1024 <<< log.toNat)) else none

/-- `(n + d - 1) / d` in 32 bits -/
def divRoundUp (n d : Nat) : Nat := u32 (n + d - 1) / d

/-- The numbers that are computed with a block size that is not 0 -/
def RawSuper.sbInfo (raw : RawSuper) (blockSize : Nat) : SbInfo :=
  let inodesPerGroup := raw.inodesPerGroup.toNat
  let blocksPerGroup := raw.blocksPerGroup.toNat
  let inodeSize := raw.inodeSize.toNat
  let blocksAfterFirst := raw.blocksCount.toNat - raw.firstDataBlock.toNat
  let groupsCount := divRoundUp blocksAfterFirst blocksPerGroup
  let gdbCount := u32 ((groupsCount * groupDescSize + blockSize - 1) / blockSize)
  { blockSize, inodeSize, blocksPerGroup, inodesPerGroup, groupsCount, gdbCount
    itbPerGroup := divRoundUp (u32 (inodesPerGroup * inodeSize)) blockSize
    ibmbPerGroup := divRoundUp (u32 (inodesPerGroup + 7) / 8) blockSize
    bbmbPerGroup := divRoundUp (u32 (blocksPerGroup + 7) / 8) blockSize
    inodesPerBlock := blockSize / inodeSize
    descPerBlock := blockSize / groupDescSize
    inodesCount := raw.inodesCount.toNat
    blocksCount := raw.blocksCount.toNat
    freeBlocksCount := raw.freeBlocksCount.toNat
    freeInodesCount := raw.freeInodesCount.toNat
    firstDataBlock := raw.firstDataBlock.toNat
    gdtLen := u32 (gdbCount * blockSize)
    gdtOffset := u32 (u32 (raw.firstDataBlock.toNat + 1) * blockSize) }

/-- The group of an inode and its index there, as `ext2_get_inode` finds them -/
def SbInfo.inodeGroup (sbi : SbInfo) (ino : Nat) : Except Int (Nat × Nat) :=
  if ino = 0 ∨ sbi.inodesCount < ino then .error (-einval)
  else if sbi.groupsCount ≤ (ino - 1) / sbi.inodesPerGroup then .error (-einval)
  else .ok ((ino - 1) / sbi.inodesPerGroup, (ino - 1) % sbi.inodesPerGroup)

def finishTree (io : MountIo) (sbi : SbInfo) : Mount :=
  if io.gdtMem = false then .failed (-enomem)
  else if io.gdtRead = false then .failed (-eio)
  else if io.superMem = false then .failed (-enomem)
  else if io.cacheMem = false then .failed (-enomem)
  else
    match sbi.inodeGroup rootIno with
    | .error ret => .failed ret
    | .ok _ =>
      match io.root with
      | some ret => .failed ret
      | none => if io.dentryMem then .mounted sbi else .failed (-enomem)

def checkSuper (io : MountIo) (raw : RawSuper) : Mount :=
  if raw.magic ≠ superMagic then .failed (-einval)
  else if io.sbiMem = false then .failed (-enomem)
  else if raw.blocksCount.toNat ≤ raw.firstDataBlock.toNat then .failed (-einval)
  else if raw.blocksPerGroup = 0 ∨ raw.inodesPerGroup = 0 then .failed (-einval)
  else if raw.inodeSize = 0 then .failed (-einval)
  else
    match blockSizeOf raw.logBlockSize with
    | none => .undefined
    | some blockSize =>
      if pageSize < blockSize then .failed (-einval)
      else if blockSize = 0 then .undefined
      else finishTree io (raw.sbInfo blockSize)

def getTree (io : MountIo) : Mount :=
  if io.bdev = false then .failed (-enodev)
  else if io.rawMem = false then .failed (-enomem)
  else
    match io.raw with
    | none => .failed (-eio)
    | some raw => checkSuper io raw

/-! ## Numbers that are safe to use -/

structure SbInfo.Sound (sbi : SbInfo) : Prop where
  blockSize : sbi.blockSize = 1024 ∨ sbi.blockSize = 2048 ∨ sbi.blockSize = 4096
  blocksPerGroup : 1 ≤ sbi.blocksPerGroup ∧ sbi.blocksPerGroup ≤ 8 * sbi.blockSize
  inodesPerGroup : 1 ≤ sbi.inodesPerGroup ∧ sbi.inodesPerGroup ≤ 8 * sbi.blockSize
  inodeSize : 128 ≤ sbi.inodeSize ∧ sbi.inodeSize ≤ sbi.blockSize
  /-- The descriptors of all groups were read, from the block after the first one on. -/
  descs : sbi.gdtOffset = (sbi.firstDataBlock + 1) * sbi.blockSize ∧
    groupDescSize * sbi.groupsCount ≤ sbi.gdtLen
  groups : ∀ ino, 1 ≤ ino → ino ≤ sbi.inodesCount → (ino - 1) / sbi.inodesPerGroup < sbi.groupsCount

def Mount.Safe : Mount → Prop
  | .failed _ => True
  | .undefined => False
  | .mounted sbi => sbi.Sound

/-! ## What a super block has to be -/

def RawSuper.Refused (raw : RawSuper) : Prop :=
  raw.magic ≠ superMagic ∨ raw.blocksCount.toNat ≤ raw.firstDataBlock.toNat ∨
    raw.blocksPerGroup.toNat = 0 ∨ raw.inodesPerGroup.toNat = 0 ∨ raw.inodeSize.toNat = 0

def RawSuper.bytes (raw : RawSuper) : Nat := 1024 * 2 ^ raw.logBlockSize.toNat

def RawSuper.groups (raw : RawSuper) : Nat :=
  (raw.blocksCount.toNat - raw.firstDataBlock.toNat + raw.blocksPerGroup.toNat - 1) /
    raw.blocksPerGroup.toNat

/-- The root directory is refused: there are too few inodes, or so many blocks that the number of groups
becomes 0, or too few groups. -/
def RawSuper.NoRoot (raw : RawSuper) : Prop :=
  raw.inodesCount.toNat < rootIno ∨
    2 ^ 32 ≤ raw.blocksCount.toNat - raw.firstDataBlock.toNat + raw.blocksPerGroup.toNat - 1 ∨
    raw.groups ≤ 1 / raw.inodesPerGroup.toNat

/-- What is not checked -/
structure RawSuper.Wellformed (raw : RawSuper) : Prop where
  blocksPerGroup : raw.blocksPerGroup.toNat ≤ 8 * raw.bytes
  inodesPerGroup : raw.inodesPerGroup.toNat ≤ 8 * raw.bytes
  inodeSize : 128 ≤ raw.inodeSize.toNat ∧ raw.inodeSize.toNat ≤ raw.bytes
  offset : (raw.firstDataBlock.toNat + 1) * raw.bytes < 2 ^ 32
  descs : (groupDescSize * raw.groups + raw.bytes - 1) / raw.bytes * raw.bytes < 2 ^ 32
  inodes : raw.inodesCount.toNat ≤ raw.groups * raw.inodesPerGroup.toNat

def MountIo.StopsEarly (io : MountIo) : Prop :=
  io.bdev = false ∨ io.rawMem = false ∨ io.raw = none ∨ io.sbiMem = false

def MountIo.StopsLate (io : MountIo) : Prop :=
  io.gdtMem = false ∨ io.gdtRead = false ∨ io.superMem = false ∨ io.cacheMem = false ∨
    io.root ≠ none ∨ io.dentryMem = false

/-- The mount of a super block is safe: it is refused, or the block size is one of the three, and the
mount fails later or the other fields are well-formed. -/
def MountIo.SafeSuper (io : MountIo) (raw : RawSuper) : Prop :=
  raw.Refused ∨ (2 < raw.logBlockSize.toNat ∧ raw.logBlockSize.toNat < 22) ∨
    (raw.logBlockSize.toNat ≤ 2 ∧ (io.StopsLate ∨ raw.NoRoot ∨ raw.Wellformed))

/-! ## The block size -/

/-- The block sizes -/
inductive BlockSize (log : BitVec 32) : Option Nat → Prop
  | allowed : log.toNat ≤ 2 → BlockSize log (some (1024 * 2 ^ log.toNat))
  | large {blockSize : Nat} : 2 < log.toNat → log.toNat < 22 → pageSize < blockSize →
      BlockSize log (some blockSize)
  | zero : 22 ≤ log.toNat → BlockSize log (some 0)
  | none : 32 ≤ log.toNat → BlockSize log none

theorem blockSizeOf_cases (log : BitVec 32) : BlockSize log (blockSizeOf log) := by
  unfold blockSizeOf
  rw [shiftLeft_eq]
  generalize hn : log.toNat = n
  split_ifs with hlt
  · rcases lt_or_ge 2 n with hlarge | hsmall
    · rcases lt_or_ge n 22 with hfits | hzero
      · have hpow : 2 ^ 3 ≤ 2 ^ n := Nat.pow_le_pow_right (by decide) hlarge
        have hpow' : 2 ^ n ≤ 2 ^ 21 := Nat.pow_le_pow_right (by decide) (by omega)
        rw [u32_of_lt (by omega)]
        exact .large (hn ▸ hlarge) (hn ▸ hfits) (show 4096 < _ by omega)
      · have hpow : 1024 * 2 ^ n = 2 ^ 32 * 2 ^ (n - 22) := by
          rw [show 1024 = 2 ^ 10 from rfl, ← pow_add, ← pow_add]
          congr 1
          omega
        rw [u32, hpow, mul_mod_right]
        exact .zero (hn ▸ hzero)
    · have hpow : 2 ^ n ≤ 2 ^ 2 := Nat.pow_le_pow_right (by decide) hsmall
      rw [u32_of_lt (by omega), ← hn]
      exact .allowed (hn ▸ hsmall)
  · exact .none (hn ▸ Nat.le_of_not_lt hlt)

theorem RawSuper.bytes_cases {raw : RawSuper} (h : raw.logBlockSize.toNat ≤ 2) :
    raw.bytes = 1024 ∨ raw.bytes = 2048 ∨ raw.bytes = 4096 := by
  unfold RawSuper.bytes
  generalize raw.logBlockSize.toNat = n at h
  match n, h with
  | 0, _ => exact .inl rfl
  | 1, _ => exact .inr (.inl rfl)
  | 2, _ => exact .inr (.inr rfl)

/-! ## The number of groups -/

variable {raw : RawSuper} {bytes per groups : Nat}

section

variable (hblocks : raw.firstDataBlock.toNat < raw.blocksCount.toNat)
  (hper : 0 < raw.blocksPerGroup.toNat) (blockSize : Nat)

include hblocks hper blockSize

/-- The number of groups is the one that is needed, or the sum for it is cut and it is 0. -/
theorem groupsCount_eq : (raw.sbInfo blockSize).groupsCount =
      if 2 ^ 32 ≤ raw.blocksCount.toNat - raw.firstDataBlock.toNat + raw.blocksPerGroup.toNat - 1 then 0
      else raw.groups := by
  show divRoundUp _ _ = _
  unfold divRoundUp u32 RawSuper.groups
  split_ifs with hfits
  · exact div_eq_of_lt (by omega)
  · rw [Nat.mod_eq_of_lt (Nat.lt_of_not_le hfits)]

/-- The root directory is refused if and only if the fields say so. -/
theorem inodeGroup_root :
    (∃ ret, (raw.sbInfo blockSize).inodeGroup rootIno = .error ret) ↔ raw.NoRoot := by
  have hgroups := groupsCount_eq hblocks hper blockSize
  unfold SbInfo.inodeGroup RawSuper.NoRoot
  have hcount : (raw.sbInfo blockSize).inodesCount = raw.inodesCount.toNat := rfl
  have hinodes : (raw.sbInfo blockSize).inodesPerGroup = raw.inodesPerGroup.toNat := rfl
  rw [hcount, hinodes]
  by_cases hfew : raw.inodesCount.toNat < rootIno
  · rw [if_pos (.inr hfew)]
    exact iff_of_true ⟨_, rfl⟩ (.inl hfew)
  · have hin : ¬ (rootIno = 0 ∨ raw.inodesCount.toNat < rootIno) := fun h => h.elim nofun hfew
    rw [if_neg hin]
    by_cases hcut : 2 ^ 32 ≤ raw.blocksCount.toNat - raw.firstDataBlock.toNat + raw.blocksPerGroup.toNat - 1
    · rw [if_pos hcut] at hgroups
      rw [hgroups, if_pos (zero_le _)]
      exact iff_of_true ⟨_, rfl⟩ (.inr (.inl hcut))
    · rw [if_neg hcut] at hgroups
      rw [hgroups, show rootIno - 1 = 1 from rfl]
      split <;> rename_i hgroup
      · exact iff_of_true ⟨_, rfl⟩ (.inr (.inr hgroup))
      · refine iff_of_false nofun ?_
        rintro (h | h | h)
        · exact hfew h
        · exact hcut h
        · exact hgroup h

end

/-! ## The descriptor table -/

/-- The length of the table is the one in blocks, unless it does not fit. -/
theorem gdtLen_iff (hbytes : bytes = 1024 ∨ bytes = 2048 ∨ bytes = 4096)
    (hgroups : groups < 2 ^ 32) :
    groupDescSize * groups ≤ u32 (u32 ((groups * groupDescSize + bytes - 1) / bytes) * bytes) ↔
      (groupDescSize * groups + bytes - 1) / bytes * bytes < 2 ^ 32 := by
  unfold groupDescSize
  have hpos : 0 < bytes := by omega
  have hmod := div_add_mod (32 * groups + bytes - 1) bytes
  have hrem := mod_lt (32 * groups + bytes - 1) hpos
  have hblocks : (32 * groups + bytes - 1) / bytes < 2 ^ 32 := by
    rcases hbytes with rfl | rfl | rfl <;> omega
  rw [mul_comm groups 32, u32_of_lt hblocks]
  generalize (32 * groups + bytes - 1) / bytes = n at *
  rw [mul_comm bytes n] at hmod
  have hle : 32 * groups ≤ n * bytes := by omega
  constructor
  · intro h
    by_contra hge
    have hcut : u32 (n * bytes) ≤ n * bytes - 2 ^ 32 := by
      unfold u32
      rw [Nat.mod_eq_sub_mod (Nat.le_of_not_lt hge)]
      exact mod_le _ _
    omega
  · intro h
    rw [u32_of_lt h]
    exact hle

/-- The offset of the table is the one of the block after the first, unless it does not fit. -/
theorem gdtOffset_iff (first : Nat) (hbytes : bytes = 1024 ∨ bytes = 2048 ∨ bytes = 4096) :
    u32 (u32 (first + 1) * bytes) = (first + 1) * bytes ↔ (first + 1) * bytes < 2 ^ 32 := by
  constructor
  · intro h
    rw [← h]
    exact u32_lt _
  · intro h
    have hfirst : first + 1 < 2 ^ 32 := by rcases hbytes with rfl | rfl | rfl <;> omega
    rw [u32_of_lt hfirst, u32_of_lt h]

/-- All inodes are in a group if and only if there are not more of them than in all groups. -/
theorem inodes_in_groups_iff (inodes groups : Nat) (hper : 0 < per) :
    (∀ ino, 1 ≤ ino → ino ≤ inodes → (ino - 1) / per < groups) ↔ inodes ≤ groups * per := by
  constructor
  · intro h
    rcases Nat.eq_zero_or_pos inodes with hzero | hpos
    · omega
    · have hlast := (div_lt_iff_lt_mul hper).1 (h inodes hpos (le_refl _))
      omega
  · intro h ino hge hle
    rw [div_lt_iff_lt_mul hper]
    omega

/-- The numbers of a mount are sound if and only if the fields are well-formed. -/
theorem sound_iff (hlog : raw.logBlockSize.toNat ≤ 2) (hnot : ¬ raw.Refused) (hroot : ¬ raw.NoRoot) :
    (raw.sbInfo raw.bytes).Sound ↔ raw.Wellformed := by
  unfold RawSuper.Refused at hnot
  unfold RawSuper.NoRoot at hroot
  push Not at hnot hroot
  obtain ⟨-, hblocks, hper, hinodes, -⟩ := hnot
  have hbytes := raw.bytes_cases hlog
  have hgroups := groupsCount_eq hblocks (Nat.pos_of_ne_zero hper) raw.bytes
  rw [if_neg (not_le.2 hroot.2.1)] at hgroups
  have hlt : raw.groups < 2 ^ 32 := lt_of_le_of_lt (div_le_self _ _) hroot.2.1
  have hlen : (raw.sbInfo raw.bytes).gdtLen = u32 (u32 ((raw.groups * groupDescSize + raw.bytes - 1) /
      raw.bytes) * raw.bytes) := by
    rw [← hgroups]
    rfl
  have hdescs := gdtLen_iff hbytes hlt
  have hoffset := gdtOffset_iff raw.firstDataBlock.toNat hbytes
  have hall := inodes_in_groups_iff raw.inodesCount.toNat raw.groups (Nat.pos_of_ne_zero hinodes)
  constructor
  · intro h
    obtain ⟨-, ⟨-, hb⟩, ⟨-, hi⟩, hs, ⟨ho, hd⟩, hg⟩ := h
    rw [hgroups] at hd hg
    rw [hlen] at hd
    exact ⟨hb, hi, hs, hoffset.1 ho, hdescs.1 hd, hall.1 hg⟩
  · intro h
    refine ⟨hbytes, ⟨Nat.pos_of_ne_zero hper, h.blocksPerGroup⟩,
      ⟨Nat.pos_of_ne_zero hinodes, h.inodesPerGroup⟩, h.inodeSize, ⟨hoffset.2 h.offset, ?_⟩, ?_⟩
    · rw [hgroups, hlen]
      exact hdescs.2 h.descs
    · rw [hgroups]
      exact hall.2 h.inodes

/-! ## Mounts -/

theorem finishTree_safe_iff (io : MountIo) (hlog : raw.logBlockSize.toNat ≤ 2) (hnot : ¬ raw.Refused) :
    (finishTree io (raw.sbInfo raw.bytes)).Safe ↔ io.StopsLate ∨ raw.NoRoot ∨ raw.Wellformed := by
  have hnot' := hnot
  unfold RawSuper.Refused at hnot'
  push Not at hnot'
  have hroot := inodeGroup_root hnot'.2.1 (Nat.pos_of_ne_zero hnot'.2.2.1) raw.bytes
  unfold finishTree MountIo.StopsLate
  split
  · exact iff_of_true trivial (.inl (.inl ‹_›))
  split
  · exact iff_of_true trivial (.inl (.inr (.inl ‹_›)))
  split
  · exact iff_of_true trivial (.inl (.inr (.inr (.inl ‹_›))))
  split
  · exact iff_of_true trivial (.inl (.inr (.inr (.inr (.inl ‹_›)))))
  rename_i hgdt hread hsuper hcache
  cases hgroup : (raw.sbInfo raw.bytes).inodeGroup rootIno with
  | error ret => exact iff_of_true trivial (.inr (.inl (hroot.1 ⟨ret, hgroup⟩)))
  | ok group =>
    have hnoRoot : ¬ raw.NoRoot := fun h => by
      obtain ⟨ret, hret⟩ := hroot.2 h
      rw [hgroup] at hret
      cases hret
    cases hio : io.root with
    | some ret => exact iff_of_true trivial (.inl (.inr (.inr (.inr (.inr (.inl nofun))))))
    | none =>
      cases hdentry : io.dentryMem with
      | false => exact iff_of_true trivial (.inl (.inr (.inr (.inr (.inr (.inr rfl))))))
      | true =>
        show (raw.sbInfo raw.bytes).Sound ↔ _
        rw [sound_iff hlog hnot hnoRoot]
        simp [hgdt, hread, hsuper, hcache, hnoRoot]

theorem checkSuper_safe_iff (io : MountIo) (hsbi : io.sbiMem = true) :
    (checkSuper io raw).Safe ↔ io.SafeSuper raw := by
  by_cases href : raw.Refused
  · refine iff_of_true ?_ (.inl href)
    unfold checkSuper
    split_ifs with hmagic _ hblocks hgroup hsize <;> try trivial
    exfalso
    rcases href with h | h | h | h | h
    · exact hmagic h
    · exact hblocks h
    · exact hgroup (.inl (BitVec.eq_of_toNat_eq h))
    · exact hgroup (.inr (BitVec.eq_of_toNat_eq h))
    · exact hsize (BitVec.eq_of_toNat_eq h)
  · have hnot := href
    unfold RawSuper.Refused at hnot
    push Not at hnot
    obtain ⟨hmagic, hblocks, hper, hinodes, hsize⟩ := hnot
    have hgroup : ¬ (raw.blocksPerGroup = 0 ∨ raw.inodesPerGroup = 0) := by
      rintro (h | h)
      · exact hper (by rw [h]; rfl)
      · exact hinodes (by rw [h]; rfl)
    have hsize' : raw.inodeSize ≠ 0 := fun h => hsize (by rw [h]; rfl)
    unfold checkSuper MountIo.SafeSuper
    rw [if_neg (not_not.2 hmagic), if_neg (by rw [hsbi]; nofun), if_neg (not_le.2 hblocks),
      if_neg hgroup, if_neg hsize']
    have hcases := blockSizeOf_cases raw.logBlockSize
    generalize blockSizeOf raw.logBlockSize = size at hcases
    cases hcases with
    | allowed hlog =>
      have hbytes := raw.bytes_cases hlog
      show (if pageSize < raw.bytes then Mount.failed (-einval) else if raw.bytes = 0 then .undefined else
        finishTree io (raw.sbInfo raw.bytes)).Safe ↔ _
      rw [if_neg (show ¬ 4096 < raw.bytes by omega), if_neg (by omega), finishTree_safe_iff io hlog href]
      have hnotLarge : ¬ 2 < raw.logBlockSize.toNat := not_lt.2 hlog
      simp [href, hnotLarge, hlog]
    | large hlarge hfits hpage =>
      dsimp only
      rw [if_pos hpage]
      exact iff_of_true trivial (.inr (.inl ⟨hlarge, hfits⟩))
    | zero | none =>
      refine iff_of_false id ?_
      rintro (h | h | h)
      · exact href h
      · omega
      · omega

/-- A disk with 2 groups of 8192 blocks -/
def smallSuper : RawSuper where
  inodesCount := 4096
  blocksCount := 16384
  freeBlocksCount := 16000
  freeInodesCount := 4085
  firstDataBlock := 1
  logBlockSize := 0
  blocksPerGroup := 8192
  inodesPerGroup := 2048
  magic := superMagic
  inodeSize := 128

/-- A mount on which no call fails -/
def calmMount (raw : RawSuper) : MountIo where
  bdev := true
  rawMem := true
  raw := some raw
  sbiMem := true
  gdtMem := true
  gdtRead := true
  superMem := true
  cacheMem := true
  root := none
  dentryMem := true

/-- An inode is in the table of its group, and the group in the table of descriptors. -/
theorem SbInfo.Sound.inode_in_table {blockSize ino group index : Nat} (h : (raw.sbInfo blockSize).Sound)
    (hgroup : (raw.sbInfo blockSize).inodeGroup ino = .ok (group, index)) :
    groupDescSize * (group + 1) ≤ (raw.sbInfo blockSize).gdtLen ∧
      u32 (index * raw.inodeSize.toNat) + raw.inodeSize.toNat ≤
        (raw.sbInfo blockSize).itbPerGroup * blockSize := by
  have hsize : blockSize = 1024 ∨ blockSize = 2048 ∨ blockSize = 4096 := h.blockSize
  have hper : 1 ≤ raw.inodesPerGroup.toNat ∧ raw.inodesPerGroup.toNat ≤ 8 * blockSize := h.inodesPerGroup
  have hinode : 128 ≤ raw.inodeSize.toNat ∧ raw.inodeSize.toNat ≤ blockSize := h.inodeSize
  unfold SbInfo.inodeGroup at hgroup
  split_ifs at hgroup with _ hlt
  cases hgroup
  refine ⟨(Nat.mul_le_mul_left _ (Nat.lt_of_not_le hlt)).trans h.descs.2, ?_⟩
  have htable := Nat.mul_le_mul_right raw.inodeSize.toNat (mod_lt (ino - 1) hper.1)
  have hbound : raw.inodesPerGroup.toNat * raw.inodeSize.toNat ≤ 32768 * 4096 :=
    Nat.mul_le_mul (by omega) (by omega)
  show u32 ((ino - 1) % raw.inodesPerGroup.toNat * raw.inodeSize.toNat) + _ ≤
    divRoundUp (u32 (raw.inodesPerGroup.toNat * raw.inodeSize.toNat)) blockSize * blockSize
  rw [Nat.succ_mul] at htable
  generalize raw.inodesPerGroup.toNat * raw.inodeSize.toNat = n at htable hbound ⊢
  unfold divRoundUp
  rw [u32_of_lt (by omega), u32_of_lt (by omega : n < _), u32_of_lt (by omega)]
  have hmod := div_add_mod' (n + blockSize - 1) blockSize
  have hrem := mod_lt (n + blockSize - 1) (by omega : 0 < blockSize)
  omega

/-- The last inode of the small disk. -/
theorem inode_in_table_smallSuper :
    u32 (2047 * 128) + 128 ≤ (smallSuper.sbInfo 1024).itbPerGroup * 1024 := by
  have hgroups : ∀ ino, 1 ≤ ino → ino ≤ 4096 → (ino - 1) / 2048 < 2 := by omega
  have h : (smallSuper.sbInfo 1024).Sound :=
    ⟨by decide, by decide, by decide, by decide, by decide, hgroups⟩
  have hgroup : (smallSuper.sbInfo 1024).inodeGroup 4096 = .ok (1, 2047) := rfl
  exact (h.inode_in_table hgroup).2

end ZzzOs.Fs.Ext2
