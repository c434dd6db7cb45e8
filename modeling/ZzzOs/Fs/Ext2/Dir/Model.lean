import ZzzOs.Fs.Ext2.Model
import ZzzOs.Lib.Records

/-!
# Directories

The functions of `fs/ext2/ext2_dir.c` that work on the entries of one directory. They go through its
pages one by one, and through a page from entry to entry. A page is what `ext2_get_page` returns for
its index, and it keeps what is stored in it.

The calls below them can fail (`DirIo`); `none` is a loop that does not end.
-/

namespace ZzzOs.Fs.Ext2

open Lib

def enoent : Int := 2

abbrev pageSize : Nat := 4096

structure Dir where
  iSize : Nat
  page : Nat → Bytes

def Dir.setPage (d : Dir) (i : Nat) (buf : Bytes) : Dir :=
  { d with page := Function.update d.page i buf }

/-- What the calls below return -/
structure DirIo where
  scan : Nat → Int
  map : Int
  get : Int
  write : Int
  inode : Int

/-! ## Entries -/

def ext2DirRecLen (nameLen : Nat) : Nat := (nameLen + 8 + 3) / 4 * 4

section Entry

variable (buf : Bytes) (o : Nat)

def deInode : Nat := buf.word o 4

def deRecLen : Nat := buf.word (o + 4) 2

def deNameLen : Nat := (buf (o + 6)).toNat

def deFileType : Nat := (buf (o + 7)).toNat

/-- The first `n` bytes of `name`. -/
def deBytes (n : Nat) : List UInt8 := (List.range n).map fun i => buf (o + 8 + i)

def deName : List UInt8 := deBytes buf o (deNameLen buf o)

def deMatches (child : List UInt8) : Bool :=
  deInode buf o != 0 && deNameLen buf o == child.length && deBytes buf o child.length == child

def deSetRecLen (recLen : Nat) : Bytes := buf.setWord (o + 4) 2 recLen

def deSetInode (ino : Nat) : Bytes := buf.setWord o 4 ino

end Entry

/-- `ext2_type_by_mode` -/
def ext2ModeToFtype (mode : Nat) : Nat :=
  match mode / 4096 % 16 with
  | 8 => 1
  | 4 => 2
  | 2 => 3
  | 6 => 4
  | 1 => 5
  | 12 => 6
  | 10 => 7
  | _ => 0

/-- `ext2_filetype_table` -/
def ext2Filetype : Nat → Nat
  | 1 => 8
  | 2 => 4
  | 3 => 2
  | 4 => 6
  | 5 => 1
  | 6 => 12
  | 7 => 10
  | _ => 0

/-- The bytes of a list, as a buffer. -/
def ofList (l : List UInt8) : Bytes := fun x => l.getD x 0

def ext2InitDirEntry (buf : Bytes) (o ino mode : Nat) (name : List UInt8) (recLen : Nat) : Bytes :=
  ((((buf.setWord o 4 ino).setWord (o + 4) 2 recLen).setWord (o + 6) 1 name.length).setWord
    (o + 7) 1 (ext2ModeToFtype mode)).write (o + 8) name.length (ofList name)

/-- The name that an entry keeps: its length is a `u8`. -/
def diskName (child : List UInt8) : List UInt8 := child.take (child.length % 256)

/-! ## Pages -/

def pageNr (iSize : Nat) : Nat := (iSize + pageSize - 1) / pageSize % 2 ^ 32

def lastValidByte (iSize i : Nat) : Nat :=
  let lastByte := (iSize % 2 ^ 32 + 2 ^ 32 - i * pageSize % 2 ^ 32) % 2 ^ 32
  if lastByte > pageSize then pageSize else lastByte

/-- The rounds after which a loop over a page has left it, or will not. -/
def pageFuel : Nat := pageSize + 2

/-- The loop over `n` pages from page `i` on, until one gives a result. -/
def scanPages {α : Type} (f : Nat → Option (Option α)) : Nat → Nat → Option (Option α)
  | 0, _ => some none
  | n + 1, i =>
    match f i with
    | none => none
    | some (some r) => some (some r)
    | some none => scanPages f n (i + 1)

/-- The outcome of the loop over the entries of a page: a result of the function, or the next
page. -/
def pageResult {α β σ : Type} (f : α → Option β) : Option (Except α σ) → Option (Option β)
  | none => none
  | some (.error r) => some (f r)
  | some (.ok _) => some none

/-! ## Search -/

/-- `ext2_find_entry` on page `i`: the place of the entry. -/
def findIn (d : Dir) (child : List UInt8) (i : Nat) : Option (Option (Nat × Nat)) :=
  let buf := d.page i
  let validBytes := lastValidByte d.iSize i
  let recLen := ext2DirRecLen child.length
  if validBytes < recLen then some none
  else
    pageResult (fun off => some (i, off)) <|
      scan (deRecLen buf) (fun off => decide (off ≤ validBytes - recLen))
        (fun _ off => if deMatches buf off child then .error off else .ok ()) pageFuel () 0

def ext2FindEntry (d : Dir) (child : List UInt8) : Option (Option (Nat × Nat)) :=
  scanPages (findIn d child) (pageNr d.iSize) 0

def ext2Find (d : Dir) (child : List UInt8) : Option Nat :=
  match ext2FindEntry d child with
  | none => none
  | some none => some 0
  | some (some (i, off)) => some (deInode (d.page i) off)

structure Dirent where
  name : List UInt8
  ino : Nat
  dType : Nat
deriving DecidableEq

def direntAt (buf : Bytes) (off : Nat) : Dirent :=
  { name := deName buf off, ino := deInode buf off, dType := ext2Filetype (deFileType buf off) }

/-- The loop of `ext2_readdir` over a page from `off` on, after the entries of `acc`. -/
def readdirIn (d : Dir) (i off : Nat) (acc : List Dirent) : Option (Except Int (List Dirent)) :=
  let buf := d.page i
  scan (deRecLen buf) (fun off => decide (off < lastValidByte d.iSize i))
    (fun acc off =>
      if deRecLen buf off = 0 then .error (-eio)
      else .ok (if deInode buf off ≠ 0 then acc ++ [direntAt buf off] else acc)) pageFuel acc off

/-- The loop over `n` pages from page `i` on, which carries a state along; only the first page begins
at `off`. -/
def foldPages {σ : Type} (f : Nat → Nat → σ → Option (Except Int σ)) :
    Nat → Nat → Nat → σ → Option (Except Int σ)
  | 0, _, _, s => some (.ok s)
  | n + 1, i, off, s =>
    match f i off s with
    | none => none
    | some (.error ret) => some (.error ret)
    | some (.ok s) => foldPages f n (i + 1) 0 s

/-- `ext2_readdir` with an actor that takes all entries. -/
def ext2Readdir (d : Dir) (pos : Nat) : Option (Except Int (List Dirent)) :=
  foldPages (readdirIn d) (pageNr d.iSize - pos / pageSize) (pos / pageSize) (pos % pageSize) []

def isDotName (name : List UInt8) : Bool := name == [46] || name == [46, 46]

/-- `ext2_dir_is_empty` on page `i`. -/
def isEmptyIn (d : Dir) (i : Nat) : Option (Option Int) :=
  let buf := d.page i
  pageResult some <|
    scan (deRecLen buf) (fun off => decide (off < lastValidByte d.iSize i))
      (fun _ off =>
        if deRecLen buf off = 0 then .error (-eio)
        else if deInode buf off ≠ 0 ∧ !isDotName (deName buf off) then .error 0 else .ok ())
      pageFuel () 0

def ext2DirIsEmpty (d : Dir) : Option Int :=
  match scanPages (isEmptyIn d) (pageNr d.iSize) 0 with
  | none => none
  | some none => some 1
  | some (some ret) => some ret

/-! ## Insertion -/

/-- `struct dir_slot` of a slot that was found. -/
structure DirSlot where
  pageIndex : Nat
  offset : Nat
  prevOffset : Nat
  prevRealLen : Nat
  freeLen : Nat

/-- `ext2_find_slot` on page `i`. An entry that is not in use and too short ends the search of its
page. -/
def findSlotIn (d : Dir) (nameLen i : Nat) : Option (Option DirSlot) :=
  let buf := d.page i
  let recLen := ext2DirRecLen nameLen
  pageResult id <|
    scan (deRecLen buf) (fun off => decide (off + recLen ≤ lastValidByte d.iSize i))
      (fun _ off =>
        if deInode buf off = 0 then
          if deRecLen buf off < recLen then .error none
          else .error (some { pageIndex := i, offset := off, prevOffset := 0, prevRealLen := 0,
                              freeLen := deRecLen buf off })
        else
          let realLen := ext2DirRecLen (deNameLen buf off)
          if realLen + recLen ≤ deRecLen buf off then
            .error (some { pageIndex := i, offset := off + realLen, prevOffset := off,
                           prevRealLen := realLen, freeLen := deRecLen buf off - realLen })
          else .ok ())
      pageFuel () 0

/-- `ext2_find_slot`; the error of a page that cannot be read is a result. -/
def ext2FindSlot (io : DirIo) (d : Dir) (nameLen : Nat) : Option (Option (Except Int DirSlot)) :=
  scanPages (fun i => if io.scan i < 0 then some (some (.error (io.scan i)))
    else (findSlotIn d nameLen i).map (Option.map .ok)) (pageNr d.iSize) 0

/-- The buffer with the new entry in the slot. -/
def putInSlot (buf : Bytes) (name : List UInt8) (ino mode : Nat) (slot : DirSlot) : Bytes :=
  let buf := if slot.prevOffset ≠ 0 ∨ slot.prevRealLen ≠ 0
    then deSetRecLen buf slot.prevOffset slot.prevRealLen else buf
  ext2InitDirEntry buf slot.offset ino mode name slot.freeLen

def ext2AddEntryToSlot (io : DirIo) (d : Dir) (name : List UInt8) (ino mode : Nat)
    (slot : DirSlot) : Int × Dir :=
  if io.get < 0 then (io.get, d)
  else
    let d := d.setPage slot.pageIndex
      (putInSlot (d.page slot.pageIndex) name ino mode slot)
    if io.write < 0 then (io.write, d) else (io.inode, d)

def putInBlock (G : Geometry) (buf : Bytes) (off : Nat) (name : List UInt8) (ino mode : Nat) :
    Bytes :=
  ext2InitDirEntry (buf.write off G.blockSize fun _ => 0) off ino mode name G.blockSize

def ext2AddEntryNewBlock (G : Geometry) (io : DirIo) (d : Dir) (name : List UInt8)
    (ino mode : Nat) : Int × Dir :=
  let fileBlock := (d.iSize + G.blockSize - 1) / G.blockSize % 2 ^ 32
  if io.map < 0 then (io.map, d)
  else if io.get < 0 then (io.get, d)
  else
    let pos := fileBlock * G.blockSize % 2 ^ 32
    let d := d.setPage (pos / pageSize)
      (putInBlock G (d.page (pos / pageSize)) (pos % pageSize) name ino mode)
    let newEnd := (fileBlock + 1) * G.blockSize % 2 ^ 32
    (io.inode, if newEnd > d.iSize then { d with iSize := newEnd } else d)

def ext2AddEntry (G : Geometry) (io : DirIo) (d : Dir) (name : List UInt8) (ino mode : Nat) :
    Option (Int × Dir) :=
  match ext2FindSlot io d name.length with
  | none => none
  | some (some (.error ret)) => some (ret, d)
  | some (some (.ok slot)) => some (ext2AddEntryToSlot io d name ino mode slot)
  | some none => some (ext2AddEntryNewBlock G io d name ino mode)

/-! ## Deletion -/

/-- `ext2_delete_entry` on page `i`: the entry and the one before it in the page, or the error. -/
def deleteIn (d : Dir) (child : List UInt8) (i : Nat) :
    Option (Option (Except Int (Nat × Option Nat × Nat))) :=
  let buf := d.page i
  pageResult some <|
    scan (deRecLen buf) (fun off => decide (off < lastValidByte d.iSize i))
      (fun prev off =>
        if deRecLen buf off = 0 then .error (.error (-eio))
        else if deMatches buf off child then .error (.ok (i, prev, off))
        else .ok (some off))
      pageFuel none 0

/-- The buffer without the entry at `off`. -/
def dropEntry (buf : Bytes) (prev : Option Nat) (off : Nat) : Bytes :=
  match prev with
  | some p => deSetRecLen buf p ((deRecLen buf p + deRecLen buf off) % 2 ^ 16)
  | none => deSetInode buf off 0

def ext2DeleteEntry (io : DirIo) (d : Dir) (child : List UInt8) : Option (Int × Dir) :=
  match scanPages (fun i => if io.scan i < 0 then some (some (.error (io.scan i)))
    else deleteIn d child i) (pageNr d.iSize) 0 with
  | none => none
  | some none => some (-enoent, d)
  | some (some (.error ret)) => some (ret, d)
  | some (some (.ok (i, prev, off))) =>
    let d := d.setPage i (dropEntry (d.page i) prev off)
    if io.write < 0 then some (io.write, d) else some (io.inode, d)

end ZzzOs.Fs.Ext2
