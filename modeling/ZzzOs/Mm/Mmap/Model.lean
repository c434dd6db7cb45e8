import ZzzOs.Mm.Vma.Model

/-!
# Mapping memory

`mm/mmap.c` up to `sys_mmap`, with `do_mmap` of `mm/mm.c`, for riscv64. Addresses and sizes are
64-bit words; `sys_mmap` keeps its result in an `int`. The process has an `mm_struct`; its fields
that no function here reads are left out, and so are the lock and the TLB flush.
-/

namespace ZzzOs.Mm

open Lib

def enodev : Int := 19

def userStackTop : Nat := 0x3f00000000
def userStackSize : Nat := 256 * pageSize
def userSigtrampAddr : Nat := userStackTop - userStackSize - pageSize

def mapShared : BitVec 32 := 0x01
def mapPrivate : BitVec 32 := 0x02
def mapFixed : BitVec 32 := 0x10
def mapAnonymous : BitVec 32 := 0x20

/-- `struct mm_struct`; the address of no root table is 0. -/
structure MmStruct where
  pgdir : Nat
  vmas : VmaList
  startBrk : Nat
  brk : Nat

namespace Mmap

/-- `int x = (long)n`. -/
def toInt (n : Nat) : Int := (BitVec.ofNat 32 n).toInt

/-- `IS_ERR_VALUE`, for the `long` that a system call returns. -/
def isErrValue (v : Int) : Bool := decide (-4095 ≤ v) && decide (v < 0)

def protRwx : Pgprot := protRead ||| protWrite ||| protExec

def mmapUserProtToKernel (prot : BitVec 32) : Except Int Pgprot :=
  if prot &&& ~~~protRwx ≠ 0 then .error (-einval) else .ok (protUser ||| (prot &&& protRwx))

def mmapValidateFlags (flags fd : BitVec 32) (offset : BitVec 64) : Int :=
  let type := flags &&& (mapPrivate ||| mapShared)
  let known := mapPrivate ||| mapShared ||| mapFixed ||| mapAnonymous
  if flags &&& ~~~known ≠ 0 then -einval
  else if type ≠ mapPrivate ∧ type ≠ mapShared then -einval
  else if flags &&& mapAnonymous = 0 then -enodev
  else if fd ≠ -1 ∨ offset ≠ 0 then -einval
  else 0

def mmapRangeValid (start len : Nat) : Bool :=
  let fin := (start + len) % 2 ^ 64
  if len = 0 then false
  else if start < pageSize then false
  else if fin < start then false
  else if userSigtrampAddr < fin then false
  else true

/-- The loop of `vma_range_is_free`. -/
def freeFrom (start fin : Nat) : List Vma → Bool
  | [] => true
  | v :: rest =>
    if v.fin ≤ start then freeFrom start fin rest
    else if fin ≤ v.start then true
    else false

def vmaRangeIsFree (l : List Vma) (start len : Nat) : Bool :=
  if mmapRangeValid start len then freeFrom start ((start + len) % 2 ^ 64) l else false

/-- The loop of `find_free_range_from`. -/
def scan (len : Nat) : Nat → List Vma → Nat
  | cursor, [] => if mmapRangeValid cursor len then cursor else 0
  | cursor, v :: rest =>
    if v.fin ≤ cursor then scan len cursor rest
    else if (cursor + len) % 2 ^ 64 ≤ v.start then cursor
    else
      let cursor := if cursor < v.fin then alignUp v.fin pageSize else cursor
      if mmapRangeValid cursor len then scan len cursor rest else 0

def findFreeRangeFrom (l : List Vma) (start len : Nat) : Nat :=
  if mmapRangeValid start len then scan len start l else 0

/-- Where `find_free_range` starts when the hint is of no use. -/
def mmapBase (brk : Nat) : Nat :=
  let base := alignUp ((brk + pageSize) % 2 ^ 64) pageSize
  if base < pageSize then pageSize else base

def findFreeRange (mm : MmStruct) (hint len : Nat) : Nat :=
  let base := mmapBase mm.brk
  if base ≤ hint then
    let addr := findFreeRangeFrom mm.vmas.list hint len
    if addr ≠ 0 then addr else findFreeRangeFrom mm.vmas.list base len
  else findFreeRangeFrom mm.vmas.list base len

/-- The address that `sys_mmap` takes, or the error. -/
def target (mm : MmStruct) (addr len : Nat) (flags : BitVec 32) : Except Int Nat :=
  if flags &&& mapFixed ≠ 0 then
    if addr % pageSize ≠ 0 then .error (-einval)
    else if vmaRangeIsFree mm.vmas.list addr len then .ok addr
    else .error (-enomem)
  else
    let hint := if addr ≠ 0 then alignDown addr pageSize else 0
    let target :=
      if hint ≠ 0 ∧ vmaRangeIsFree mm.vmas.list hint len then hint else findFreeRange mm hint len
    if target = 0 then .error (-enomem) else .ok target

/-- `do_mmap`, which passes over the result of `vma_add`. -/
def doMmap (grant : Nat → Bool) (mm : MmStruct) (va size : Nat) (flags : Pgprot) :
    Option (Int × MmStruct) := do
  let (_, vmas) ← mm.vmas.add grant (alignDown va pageSize) (alignUp size pageSize) flags
  some (0, { mm with vmas := vmas })

def sysMmap (grant : Nat → Bool) (mm : MmStruct) (addr len : Nat) (prot flags fd : BitVec 32)
    (offset : BitVec 64) : Option (Int × MmStruct) :=
  if mm.pgdir = 0 then some (-enomem, mm)
  else
    let len := alignUp len pageSize
    if len = 0 then some (-einval, mm)
    else
      match mmapUserProtToKernel prot with
      | .error ret => some (ret, mm)
      | .ok kprot =>
        let ret := mmapValidateFlags flags fd offset
        if ret < 0 then some (ret, mm)
        else
          match target mm addr len flags with
          | .error ret => some (ret, mm)
          | .ok target => do
            let (ret, mm) ← doMmap grant mm target len kprot
            if ret < 0 then some (if ret = -efault then -enomem else ret, mm)
            else some (toInt target, mm)

end Mmap

end ZzzOs.Mm
