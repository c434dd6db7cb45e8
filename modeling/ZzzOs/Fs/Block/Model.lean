import ZzzOs.Fs.Blkdev
import ZzzOs.Lib.Wp

/-!
# Requests to a block device

`fs/blkdev.c` below `blkdev_read` and `blkdev_write`, and the part of `drivers/block/virtio_blk.c` that
takes a request: an unaligned head, whole blocks and an unaligned tail, each of them one `bio`.

Memory and the answers of the driver come from the environment (`Env`), for each call in turn; a failed
request may have been carried out in part. The log of accessed sectors is not part of the source.
-/

namespace ZzzOs.Fs.Block

open Lib

def enomem : Int := 12

def efault : Int := 14

def eoverflow : Int := 75

def emsgsize : Int := 90

def eopnotsupp : Int := 95

def sectorSize : Nat := 512

def pageSize : Nat := 4096

/-! ## Devices -/

structure Device where
  capacity : Nat
  blockSize : Nat
  /-- The number of buffers that one request can have. -/
  vqNum : Nat
  size_lt : capacity * sectorSize < 2 ^ 64

/-- `struct blkdev`: a partition, or the whole disk -/
structure Bdev where
  startSect : BitVec 64
  nrSectors : BitVec 64

def Device.whole (D : Device) : Bdev where
  startSect := 0
  nrSectors := BitVec.ofNat 64 D.capacity

inductive Op where
  | read
  | write
deriving DecidableEq

/-- A page of a `bio_vec`: the page of an address, or the one that was allocated for a partial block -/
inductive Page where
  | kernel (n : Nat)
  | bounce

structure Vec where
  page : Page
  offset : Nat
  len : Nat

structure Bio where
  op : Op
  sector : BitVec 64
  maxVecs : Nat
  vecs : List Vec

/-- `bi_size` -/
def Bio.size (bio : Bio) : Nat := (bio.vecs.map Vec.len).sum

/-- What the device says to a request: it is done, it was not taken, or it has failed and some of the
bytes were transferred. -/
inductive Answer where
  | done
  | refused (ret : Int)
  | failed (unsupp : Bool) (torn : Nat → Bool)

structure Env where
  /-- Whether the next allocations succeed -/
  alloc : Nat → Bool
  /-- Whether the pages of the memory have a `struct page` -/
  pages : Nat → Bool
  /-- The answers to the next requests -/
  answer : Nat → Answer
  /-- Whether the next partitions can be registered -/
  register : Nat → Bool

structure Machine where
  data : Bytes
  mem : Bytes
  bounce : Bytes
  allocs : Nat
  requests : Nat
  parts : List Bdev
  log : List (Nat × Nat)

/-- Why a call ends early: it returns a number, or an assertion does not hold. -/
inductive Stop where
  | ret (r : Int)
  | assert
deriving DecidableEq

abbrev B := EStateM Stop Machine

section

variable (D : Device) (io : Env)

/-! ## The data of a request -/

/-- A byte of the data of a `bio_vec` -/
def Machine.load (s : Machine) (v : Vec) (x : Nat) : UInt8 :=
  match v.page with
  | .kernel n => s.mem (n * pageSize + v.offset + x)
  | .bounce => s.bounce (v.offset + x)

def Machine.store (s : Machine) (v : Vec) (buf : Bytes) : Machine :=
  match v.page with
  | .kernel n => { s with mem := s.mem.write (n * pageSize + v.offset) v.len buf }
  | .bounce => { s with bounce := s.bounce.write v.offset v.len buf }

def Machine.gather (s : Machine) : List Vec → Bytes
  | [] => fun _ => 0
  | v :: vs => fun x => if x < v.len then s.load v x else s.gather vs (x - v.len)

def Machine.scatter (pos : Nat) : List Vec → Machine → Machine
  | [], s => s
  | v :: vs, s => scatter (pos + v.len) vs (s.store v (s.data.slice pos v.len))

/-- A write of which only some of the bytes arrived -/
def torn (data : Bytes) (pos len : Nat) (arrived : Nat → Bool) (buf : Bytes) : Bytes := fun x =>
  if pos ≤ x ∧ x < pos + len ∧ arrived (x - pos) then buf (x - pos) else data x

/-! ## The driver -/

def allocated : B Bool := fun s => .ok (io.alloc s.allocs) { s with allocs := s.allocs + 1 }

/-- Memory, or the call ends. -/
def require : B Unit := do
  if ← allocated io then pure () else throw (.ret (-enomem))

/-- The request reaches the device. -/
def Machine.transfer (s : Machine) (bio : Bio) (sector : Nat) : Machine :=
  match bio.op with
  | .read => s.scatter (sector * sectorSize) bio.vecs
  | .write => { s with data := s.data.write (sector * sectorSize) bio.size (s.gather bio.vecs) }

def Machine.transferTorn (s : Machine) (bio : Bio) (sector : Nat) (arrived : Nat → Bool) : Machine :=
  match bio.op with
  | .read => s
  | .write => { s with data := torn s.data (sector * sectorSize) bio.size arrived (s.gather bio.vecs) }

/-- The request at the device, after it was added to the queue -/
def device (bio : Bio) (sector : Nat) : B Unit := fun s =>
  let s' := { s with requests := s.requests + 1 }
  let entry := (sector, bio.size / sectorSize)
  match io.answer s.requests with
  | .done =>
    let s'' := s'.transfer bio sector
    .ok () { s'' with log := entry :: s''.log }
  | .refused ret => .error (.ret ret) s'
  | .failed unsupp arrived =>
    let s'' := s'.transferTorn bio sector arrived
    .error (.ret (if unsupp then -eopnotsupp else -eio)) { s'' with log := entry :: s''.log }

/-- A vector that the driver takes -/
def Vec.Valid (v : Vec) : Prop := v.len ≠ 0 ∧ v.offset < pageSize ∧ v.len ≤ pageSize - v.offset

instance (v : Vec) : Decidable v.Valid := inferInstanceAs (Decidable (_ ∧ _ ∧ _))

def virtioBlkSubmitBio (p : Bdev) (bio : Bio) : B Unit := do
  if bio.size = 0 ∨ bio.size % sectorSize ≠ 0 then throw (.ret (-einval))
  else if D.vqNum < bio.vecs.length + 2 then throw (.ret (-emsgsize))
  else
    let sector := (p.startSect + bio.sector).toNat
    let nrSectors := bio.size / sectorSize
    if D.capacity ≤ sector ∨ D.capacity - sector < nrSectors then throw (.ret (-eio))
    else
      require io
      if ∀ v ∈ bio.vecs, v.Valid then device io bio sector else throw (.ret (-einval))

/-! ## Requests -/

def blkdevValidateBio (bio : Bio) : B Unit := do
  if D.blockSize = 0 then throw (.ret (-einval))
  else if bio.vecs = [] ∨ bio.maxVecs < bio.vecs.length then throw .assert
  else if bio.size = 0 ∨ bio.size % D.blockSize ≠ 0 then throw (.ret (-einval))
  else if bio.sector.toNat * sectorSize % 2 ^ 64 % D.blockSize ≠ 0 then throw (.ret (-einval))
  else if ∀ v ∈ bio.vecs, v.len ≠ 0 → v.offset + v.len ≤ pageSize then pure ()
  else throw .assert

def submitBioWait (p : Bdev) (bio : Bio) : B Unit := do
  blkdevValidateBio D bio
  virtioBlkSubmitBio D io p bio

def bioAlloc (op : Op) (sector : BitVec 64) (nrVecs : Nat) : B Bio := do
  if nrVecs = 0 ∨ 65535 < nrVecs then throw (.ret (-einval))
  else
    require io
    require io
    return { op, sector, maxVecs := nrVecs, vecs := [] }

def bioAddPage (bio : Bio) (v : Vec) : B Bio := do
  if v.len = 0 then throw (.ret (-einval))
  else if pageSize ≤ v.offset ∨ pageSize - v.offset < v.len then throw (.ret (-einval))
  else if bio.maxVecs ≤ bio.vecs.length then throw (.ret (-enospc))
  else if 2 ^ 32 - 1 - bio.size < v.len then throw (.ret (-eoverflow))
  else return { bio with vecs := bio.vecs ++ [v] }

/-- `bio_map_kern_buf`, with `n` rounds at most: each of them maps something. -/
def bioMapKernBuf : Nat → Bio → Nat → Nat → B Bio
  | 0, bio, _, _ => return bio
  | n + 1, bio, cursor, len => do
    if len = 0 then return bio
    else
      let offset := cursor % pageSize
      let chunk := min (pageSize - offset) len
      if io.pages (cursor / pageSize) then
        let bio ← bioAddPage bio { page := .kernel (cursor / pageSize), offset, len := chunk }
        bioMapKernBuf n bio (cursor + chunk) (len - chunk)
      else throw (.ret (-efault))

/-- The part of a partial block before its first request: the page and the `bio` for it -/
def partialBio (len pos : Nat) : B Bio := do
  if D.blockSize = 0 ∨ pageSize < D.blockSize then throw (.ret (-einval))
  else if D.blockSize - pos % D.blockSize < len then throw (.ret (-einval))
  else
    require io
    let bio ← bioAlloc io .read (BitVec.ofNat 64 ((pos - pos % D.blockSize) / sectorSize)) 1
    bioAddPage bio { page := .bounce, offset := 0, len := D.blockSize }

def blkdevReadPartialBlock (dst len pos : Nat) : B Unit := do
  if len = 0 then throw (.ret (-einval))
  else
    let bio ← partialBio D io len pos
    submitBioWait D io D.whole bio
    modify fun s => { s with mem := s.mem.write dst len (s.bounce.slice (pos % D.blockSize) len) }

def blkdevWritePartialBlock (src len pos : Nat) : B Unit := do
  let bio ← partialBio D io len pos
  submitBioWait D io D.whole bio
  modify fun s => { s with bounce := s.bounce.write (pos % D.blockSize) len (s.mem.slice src len) }
  submitBioWait D io D.whole { bio with op := .write }

/-- `blkdev_read_aligned` and `blkdev_write_aligned`, with the number of bytes that were transferred -/
def blkdevAligned (op : Op) (buf len pos : Nat) : B Nat := do
  if len = 0 then throw (.ret (-einval))
  else if 2 ^ 32 - 1 < len then throw (.ret (-eoverflow))
  else
    let nrVecs := (buf % pageSize + len + pageSize - 1) / pageSize
    let bio ← bioAlloc io op (BitVec.ofNat 64 (pos / sectorSize)) nrVecs
    let bio ← bioMapKernBuf io len bio buf len
    submitBioWait D io D.whole bio
    return bio.size

def blkdevPartialBlock : Op → Nat → Nat → Nat → B Unit
  | .read => blkdevReadPartialBlock D io
  | .write => blkdevWritePartialBlock D io

/-- The tail of a request -/
def rawTail (op : Op) (buf len pos done : Nat) : B Unit := do
  if done < len then blkdevPartialBlock D io op (buf + done) (len - done) pos else pure ()

/-- The whole blocks of a request, and its tail -/
def rawBlocks (op : Op) (buf len pos done : Nat) : B Unit := do
  if D.blockSize ≤ len - done then
    let alignedLen := len - done - (len - done) % D.blockSize
    let moved ← blkdevAligned D io op (buf + done) alignedLen pos
    rawTail D io op buf len ((pos + moved) % 2 ^ 64) (done + moved)
  else rawTail D io op buf len pos done

/-- `__blkdev_read_raw` and `__blkdev_write_raw` -/
def blkdevRaw (op : Op) (buf : Nat) (len pos : BitVec 64) : B Unit := do
  if buf = 0 then throw (.ret (-einval))
  else if len.toNat = 0 then pure ()
  else if pos.toNat % D.blockSize ≠ 0 then
    let headLen := min (D.blockSize - pos.toNat % D.blockSize) len.toNat
    blkdevPartialBlock D io op buf headLen pos.toNat
    if headLen = len.toNat then pure ()
    else rawBlocks D io op buf len.toNat ((pos.toNat + headLen) % 2 ^ 64) headLen
  else rawBlocks D io op buf len.toNat pos.toNat 0

def blkdevReadRaw (buf : Nat) (len pos : BitVec 64) : B Unit := blkdevRaw D io .read buf len pos

def blkdevWriteRaw (buf : Nat) (len pos : BitVec 64) : B Unit := blkdevRaw D io .write buf len pos

/-! ## Partitions -/

/-- `blkdev_read` and `blkdev_write` -/
def blkdevRw (op : Op) (p : Bdev) (buf : Nat) (len pos : BitVec 64) : B Unit := do
  if (p.nrSectors * BitVec.ofNat 64 sectorSize).toNat < (pos + len).toNat then throw (.ret (-einval))
  else blkdevRaw D io op buf len (p.startSect * BitVec.ofNat 64 sectorSize + pos)

def blkdevRead (p : Bdev) (buf : Nat) (len pos : BitVec 64) : B Unit := blkdevRw D io .read p buf len pos

def blkdevWrite (p : Bdev) (buf : Nat) (len pos : BitVec 64) : B Unit := blkdevRw D io .write p buf len pos

/-- `blkdev_register_partition`; what it returns is not looked at. -/
def blkdevRegisterPartition (start nrSectors : BitVec 64) : B Unit := modify fun s =>
  if io.register s.parts.length then
    { s with parts := s.parts ++ [{ startSect := start, nrSectors }] }
  else s

/-- `struct gpt_entry` at an address -/
structure GptEntry where
  typed : Bool
  firstLba : BitVec 64
  lastLba : BitVec 64

def gptEntry (mem : Bytes) (ent : Nat) : GptEntry where
  typed := (List.range 16).any fun i => mem (ent + i) != 0
  firstLba := BitVec.ofNat 64 (mem.word (ent + 32) 8)
  lastLba := BitVec.ofNat 64 (mem.word (ent + 40) 8)

/-- What `gpt_scan` does with an entry -/
def gptRegister (e : GptEntry) : B Unit := do
  if e.typed = false then pure ()
  else if e.firstLba = 0 ∨ e.lastLba.toNat < e.firstLba.toNat then pure ()
  else blkdevRegisterPartition io e.firstLba (e.lastLba - e.firstLba + 1)

/-- A read in `gpt_scan`, which returns `-EIO` when it fails -/
def gptRead (buf : Nat) (len pos : BitVec 64) : B Unit := fun s =>
  match blkdevRead D io D.whole buf len pos s with
  | .ok _ s' => .ok () s'
  | .error .assert s' => .error .assert s'
  | .error (.ret _) s' => .error (.ret (-eio)) s'

/-- The loop of `gpt_scan` from entry `i` on, with `n` of them left -/
def gptEntries (ent : Nat) (entriesPos entrySize : BitVec 64) : Nat → Nat → B Unit
  | 0, _ => pure ()
  | n + 1, i => do
    gptRead D io ent 128 (entriesPos + BitVec.ofNat 64 i * entrySize)
    gptRegister io (gptEntry (← get).mem ent)
    gptEntries ent entriesPos entrySize n (i + 1)

/-- "EFI PART" -/
def gptSignature : List UInt8 := [69, 70, 73, 32, 80, 65, 82, 84]

/-- `gpt_scan`, with the addresses of its variables -/
def gptScan (hdr ent : Nat) : B Unit := do
  gptRead D io hdr 92 512
  let mem := (← get).mem
  if (List.range 8).map (fun i => mem (hdr + i)) ≠ gptSignature then throw (.ret (-einval))
  else
    let nrEntries := mem.word (hdr + 80) 4
    let entrySize := mem.word (hdr + 84) 4
    let entriesPos := BitVec.ofNat 64 (mem.word (hdr + 72) 8) * 512
    if entrySize < 128 then throw (.ret (-einval))
    else gptEntries D io ent entriesPos (BitVec.ofNat 64 entrySize) nrEntries 0

end

end ZzzOs.Fs.Block
