import ZzzOs.Lib.Bytes

/-!
# The block device

`blkdev_read` and `blkdev_write` of `fs/blkdev.c`. The requests below them are not modelled: a
request is done as a whole, or it fails and changes nothing. `faults` says which of the next
requests fail; after its end none does. Positions inside the device only.
-/

namespace ZzzOs.Fs

open Lib

def eio : Int := 5
def einval : Int := 22
def efbig : Int := 27
def enospc : Int := 28

structure Blkdev where
  data : Bytes
  faults : List Bool

namespace Blkdev

variable (d : Blkdev)

/-- The next request fails. -/
def failed : Bool := d.faults.headD false

def next : Blkdev := { d with faults := d.faults.tail }

def blkdevRead (len pos : Nat) : Option Bytes × Blkdev :=
  (if d.failed then none else some (d.data.slice pos len), d.next)

def blkdevWrite (buf : Bytes) (len pos : Nat) : Bool × Blkdev :=
  if d.failed then (false, d.next)
  else (true, { d.next with data := d.data.write pos len buf })

/-- No request fails any more. -/
def Quiet : Prop := d.faults = []

variable {d}

theorem Quiet.failed (h : d.Quiet) : d.failed = false := by
  rw [Blkdev.failed, h]
  rfl

theorem Quiet.next (h : d.Quiet) : d.next = d := by
  cases d
  cases h
  rfl

theorem Quiet.read (h : d.Quiet) (len pos : Nat) :
    d.blkdevRead len pos = (some (d.data.slice pos len), d) := by
  rw [blkdevRead, h.failed, h.next]
  rfl

theorem Quiet.write (h : d.Quiet) (buf : Bytes) (len pos : Nat) :
    d.blkdevWrite buf len pos = (true, { d with data := d.data.write pos len buf }) := by
  rw [blkdevWrite, h.failed, h.next]
  rfl

end Blkdev

end ZzzOs.Fs
