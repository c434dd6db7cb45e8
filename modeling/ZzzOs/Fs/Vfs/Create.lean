import ZzzOs.Fs.Vfs.Model

/-!
# Making and renaming names

The calls of `fs/namei.c` that make or rename an entry, over `fs/ext2/ext2_dir.c`. What the layers below
do is given by the environment (`NewIo`, `RenameIo`). An inode in the cache and on the disk has the same
link count: it is written at once. The times of inodes are left out.
-/

namespace ZzzOs.Fs.Vfs

open Function Lib Ext2

def eperm : Int := 1

def ebusy : Int := 16

def exdev : Int := 18

def enametoolong : Int := 36

def enosys : Int := 38

def sIfmt : Nat := 0xf000

def sIfreg : Nat := 0x8000

def sIfdir : Nat := 0x4000

def sIflnk : Nat := 0xa000

/-! ## The state -/

structure Disk where
  /-- The inode bitmaps. -/
  used : Ino → Bool
  /-- `s_free_inodes_count` and `s_free_blocks_count` of the super blocks -/
  freeInodes : Nat → Int
  freeBlocks : Nat → Int
  /-- `i_nlink` and `i_mode` of the inodes -/
  nlink : Ino → Nat
  mode : Ino → Nat
  /-- The directories and names of the entries that were added; not part of the source. -/
  added : List (Ino × Qstr)

structure World extends State, Disk

abbrev W := EStateM Stop World

def World.setState (w : World) (s : State) : World := { w with toState := s }

def World.setDisk (w : World) (disk : Disk) : World := { w with toDisk := disk }

/-- A lookup leaves the disk alone. -/
def lift {α : Type} (x : V α) : W α := fun w =>
  match x w.toState with
  | .ok a s => .ok a (w.setState s)
  | .error e s => .error e (w.setState s)

instance : MonadLift V W := ⟨lift⟩

def World.setNode (w : World) (ino : Ino) (node : Node) : World :=
  w.setState { w.toState with nodes := update w.nodes ino (.ok node) }

def World.setNlink (w : World) (ino : Ino) (n : Nat) : World :=
  w.setDisk { w.toDisk with nlink := update w.nlink ino n }

def World.setMode (w : World) (ino : Ino) (mode : Nat) : World :=
  w.setDisk { w.toDisk with mode := update w.mode ino mode }

def World.takeBlocks (w : World) (sb : Nat) (n : Int) : World :=
  w.setDisk { w.toDisk with freeBlocks := update w.freeBlocks sb (w.freeBlocks sb - n) }

/-- A bit of the inode bitmap and the counter of free inodes. -/
def World.markIno (w : World) (ino : Ino) (used : Bool) : World :=
  w.setDisk
    { w.toDisk with
      used := update w.used ino used
      freeInodes := update w.freeInodes ino.1
        (if used then w.freeInodes ino.1 - 1 else w.freeInodes ino.1 + 1) }

def World.logEntry (w : World) (dir : Ino) (name : Qstr) : World :=
  w.setDisk { w.toDisk with added := (dir, name) :: w.added }

/-! ## The environment -/

/-- The end of the search for an inode number: nothing is free or can be read, the counters of a bit
that was set could not be written, or a number. -/
inductive AllocIno
  | full
  | lost (nr : Nat)
  | ok (nr : Nat)
deriving DecidableEq

/-- `ext2_release_ino`: whether the bitmap has been written, and what is returned. -/
structure ReleaseIo where
  cleared : Bool
  ret : Int
deriving DecidableEq

structure NewIo where
  alloc : AllocIno
  /-- There is memory for an inode. -/
  mem : Bool
  /-- `ext2_write_inode` of the new inode -/
  write : Int
  /-- `ext2_init_dot_entries` or `ext2_write_symlink_target`, and the blocks it has taken -/
  prepare : Int
  prepareBlocks : Nat
  /-- `ext2_add_entry`, and the blocks that the mapping of a new block has taken -/
  add : DirIo
  addBlocks : Nat
  release : ReleaseIo

/-- The calls below `ext2_rename`. -/
structure RenameIo where
  add : DirIo
  addBlocks : Nat
  delete : DirIo
  /-- `ext2_write_inode` of the old directory, of the new one, and of the inode -/
  writeOld : Int
  writeNew : Int
  writeInode : Int

/-- A negative return value ends the operation. -/
def checked (ret : Int) : W Unit := if ret < 0 then throw (.errno ret) else pure ()

/-! ## Inodes -/

/-- `ext2_alloc_ino`; a number that is in use is not found. -/
def ext2AllocIno (sb : Nat) (alloc : AllocIno) : W Nat := do
  let w ← get
  match alloc with
  | .full => return 0
  | .lost nr =>
    if nr = 0 ∨ w.used (sb, nr) then return 0
    else
      set (w.markIno (sb, nr) true)
      return 0
  | .ok nr =>
    if nr = 0 ∨ w.used (sb, nr) then return 0
    else
      set (w.markIno (sb, nr) true)
      return nr

def ext2ReleaseIno (io : ReleaseIo) (ino : Ino) : W Unit :=
  modify fun w => if io.cleared then w.markIno ino false else w

def emptyDir : Dir where
  iSize := 0
  page _ _ := 0

/-- A new inode, by its mode. -/
def Node.ofMode (mode : Nat) : Node :=
  if mode &&& sIfmt = sIfdir then .dir emptyDir
  else if mode &&& sIfmt = sIflnk then .link (.ok [])
  else .other

/-- The link count of a new inode -/
def newNlink (mode : Nat) : Nat := if mode &&& sIfmt = sIfdir then 2 else 1

/-- `iget` in `ext2_new_inode`: a number that is in the inode cache is an error; without memory for an
inode the error pointer is followed. -/
def igetNew (mem : Bool) (ino : Ino) : V Unit := do
  if (← get).icache ino ≠ 0 then
    igrab ino
    throw (.errno (-eio))
  else if mem then igrab ino
  else throw .oops

def ext2NewInode (io : NewIo) (sb mode : Nat) : W Ino := do
  let nr ← ext2AllocIno sb io.alloc
  if nr = 0 then throw (.errno (-enospc))
  else
    igetNew io.mem (sb, nr)
    if io.write < 0 then
      ext2ReleaseIno io.release (sb, nr)
      iput (sb, nr)
      throw (.errno io.write)
    else
      modify fun w => ((w.setNode (sb, nr) (Node.ofMode mode)).setNlink (sb, nr)
        (newNlink mode)).setMode (sb, nr) mode
      return (sb, nr)

/-! ## Directories -/

section

variable (G : Nat → Geometry)

/-- The directory behind an inode; only directories have the operations below. -/
def dirAt (dir : Ino) : V Dir := do
  match (← get).nodes dir with
  | .ok (.dir d) => return d
  | _ => throw .oops

/-- `ext2_add_entry` on a directory -/
def addEntry (io : DirIo) (blocks : Nat) (dir : Ino) (name : Qstr) (ino mode : Nat) : W Unit := do
  let d ← dirAt dir
  match ext2AddEntry (G dir.1) io d name ino mode with
  | none => throw .spin
  | some (ret, d') =>
    let full := ext2FindSlot io d name.length matches some none
    modify fun w => (w.setNode dir (.dir d')).takeBlocks dir.1 (if full then blocks else 0)
    checked ret
    modify fun w => w.logEntry dir (diskName name)

/-- `ext2_delete_entry` on a directory -/
def deleteEntry (io : DirIo) (dir : Ino) (name : Qstr) : W Unit := do
  let d ← dirAt dir
  match ext2DeleteEntry io d name with
  | none => throw .spin
  | some (ret, d') =>
    modify fun w => w.setNode dir (.dir d')
    checked ret

/-- The first block of a directory: `.` and `..` -/
def dotBlock (blockSize ino parent : Nat) : Bytes :=
  ext2InitDirEntry (ext2InitDirEntry (fun _ => 0) 0 ino sIfdir [46] (ext2DirRecLen 1))
    (ext2DirRecLen 1) parent sIfdir [46, 46] (blockSize - ext2DirRecLen 1)

def dotDir (blockSize ino parent : Nat) : Dir :=
  { emptyDir.setPage 0 (dotBlock blockSize ino parent) with iSize := blockSize }

def ext2InitDotEntries (io : NewIo) (parent ino : Ino) : W Unit := do
  modify fun w => w.takeBlocks ino.1 io.prepareBlocks
  checked io.prepare
  match (← get).nodes ino with
  | .ok (.dir _) =>
    modify fun w => w.setNode ino (.dir (dotDir (G ino.1).blockSize ino.2 parent.2))
  | _ => pure ()

def ext2WriteSymlinkTarget (io : NewIo) (target : List UInt8) (ino : Ino) : W Unit := do
  checked (if pageSize ≤ (cstr target).length then -enametoolong else 0)
  modify fun w => w.takeBlocks ino.1 io.prepareBlocks
  checked io.prepare
  modify fun w => w.setNode ino (.link (.ok (cstr target)))

/-- A new inode of mode `imode` becomes the inode of the dentry, and gets an entry of type `mode`. When
that fails the inode number is given back, and where `clears` the dentry forgets its inode. -/
def ext2NewEntry (io : NewIo) (imode mode : Nat) (prepare : Ino → W Unit) (clears : Bool) (dir : Ino)
    (dentry : Addr) : W Unit := do
  let ino ← ext2NewInode io dir.1 imode
  onError Stop.isErrno (prepare ino) (ext2ReleaseIno io.release ino)
  dAdd dentry (some ino)
  let d ← dentryAt dentry
  onError Stop.isErrno (addEntry G io.add io.addBlocks dir d.dName ino.2 mode) (do
    ext2ReleaseIno io.release ino
    if clears then
      modify fun w => w.setState (w.toState.setDcache
        (w.dcache.set dentry { d with dInode := none })))

def ext2Create (io : NewIo) (mode : Nat) : Ino → Addr → W Unit :=
  ext2NewEntry G io (sIfreg ||| mode) sIfreg (fun _ => pure ()) false

def ext2Mknod (io : NewIo) (mode : Nat) : Ino → Addr → W Unit :=
  ext2NewEntry G io mode mode (fun _ => pure ()) true

def ext2Symlink (io : NewIo) (target : List UInt8) : Ino → Addr → W Unit :=
  ext2NewEntry G io (sIflnk ||| 0o777) sIflnk (ext2WriteSymlinkTarget io target) true

/-- `ext2_mkdir`; the parent gets a link. -/
def ext2Mkdir (io : NewIo) (mode : Nat) (dir : Ino) (dentry : Addr) : W Unit := do
  ext2NewEntry G io (sIfdir ||| mode) sIfdir (ext2InitDotEntries G io dir) true dir dentry
  modify fun w => w.setNlink dir (w.nlink dir + 1)

def ext2Rename (io : RenameIo) (oldDir : Ino) (oldDentry : Addr) (newDir : Ino) (newDentry : Addr) :
    W Unit := do
  let old ← dentryAt oldDentry
  let new ← dentryAt newDentry
  match old.dInode with
  | none => throw (.errno (-einval))
  | some ino =>
    checked (if new.dInode.isSome then -eexist else 0)
    addEntry G io.add io.addBlocks newDir new.dName ino.2 ((← get).mode ino)
    deleteEntry io.delete oldDir old.dName
    checked io.writeOld
    checked (if newDir ≠ oldDir then io.writeNew else 0)
    checked io.writeInode

/-! ## Calls -/

def prepareChildDentry (parent : Addr) (name : Qstr) : V (Option Addr) := do
  match (← get).dcache.dLookup parent name with
  | some child =>
    dget child
    match (← dentryAt child).dInode with
    | some _ =>
      dput child
      return none
    | none => return some child
  | none => dAllocQstr parent name

def opDir (a : Addr) : V (Option Ino) := do
  match (← dentryAt a).dInode with
  | none => return none
  | some ino =>
    match (← get).nodes ino with
    | .ok (.dir _) => return some ino
    | _ => return none

/-- A pointer is returned: all errors are the null pointer, here the error 0. -/
def orNull {α : Type} (x : W α) : W α := fun w =>
  match x w with
  | .error (.errno _) w => .error (.errno 0) w
  | r => r

def makeChild (op : Ino → Addr → W Unit) (parent : Path) (child : Addr) : W Unit := do
  match ← opDir parent.dentry with
  | none => throw .oops
  | some dir =>
    onError Stop.isErrno (op dir child) (do
      pathPut parent
      dput child)
    pathPut parent

/-- `vfs_mkdir` below the parent -/
def vfsMkdirAt (io : NewIo) (mode : Nat) (parent : Path) (last : Qstr) : W Unit := do
  match ← prepareChildDentry parent.dentry last with
  | none =>
    pathPut parent
    throw (.errno (-eexist))
  | some child => makeChild (ext2Mkdir G io mode) parent child

def vfsMkdir (depth : Nat) (io : NewIo) (mode : Nat) (path : List UInt8) : W Unit := do
  checked (if cstr path = [] then -enoent else 0)
  let (parent, last) ← pathParentat depth path
  vfsMkdirAt G io mode parent last

/-- `vfs_create` below the parent, whose reference is not given back when there is no dentry -/
def vfsCreateAt (io : NewIo) (mode : Nat) (parent : Path) (last : Qstr) : W Addr := do
  match ← prepareChildDentry parent.dentry last with
  | none => throw (.errno 0)
  | some child =>
    makeChild (ext2Create G io mode) parent child
    return child

def vfsCreate (depth : Nat) (io : NewIo) (mode : Nat) (path : List UInt8) : W Addr := orNull do
  checked (if cstr path = [] then -enoent else 0)
  let (parent, last) ← pathParentat depth path
  vfsCreateAt G io mode parent last

/-- `vfs_mknod` below the parent -/
def vfsMknodAt (io : NewIo) (mode : Nat) (parent : Path) (last : Qstr) : W Addr := do
  match ← prepareChildDentry parent.dentry last with
  | none =>
    pathPut parent
    throw (.errno (-enomem))
  | some child =>
    match ← opDir parent.dentry with
    | none =>
      pathPut parent
      dput child
      throw (.errno (-enosys))
    | some _ =>
      makeChild (ext2Mknod G io mode) parent child
      return child

def vfsMknod (depth : Nat) (io : NewIo) (mode : Nat) (path : List UInt8) : W Addr := do
  let (parent, last) ← pathParentat depth path
  vfsMknodAt G io mode parent last

/-- `vfs_symlink` below the parent -/
def vfsSymlinkAt (io : NewIo) (target : List UInt8) (parent : Path) (last : Qstr) : W Addr := do
  match ← opDir parent.dentry with
  | none =>
    pathPut parent
    throw (.errno 0)
  | some _ =>
    match ← prepareChildDentry parent.dentry last with
    | none =>
      pathPut parent
      throw (.errno 0)
    | some child =>
      makeChild (ext2Symlink G io target) parent child
      return child

def vfsSymlink (depth : Nat) (io : NewIo) (target path : List UInt8) : W Addr := orNull do
  let (parent, last) ← pathParentat depth path
  vfsSymlinkAt G io target parent last

/-- What `vfs_rename` has resolved before it changes anything: the dentry, and the path of its parent -/
structure Resolved where
  path : Path
  parent : Path
  inode : Ino

/-- The first part of `vfs_rename`; `check` is about the kind of the inode. -/
def resolveOld (depth : Nat) (check : Ino → V Unit) (path : List UInt8) : V Resolved := do
  let resolved ← pathLookupNofollow depth path
  onError Stop.isErrno (do
    if resolved.dentry = (← mountAt resolved.mnt).mntRoot then throw (.errno (-ebusy))
    else
      match (← dentryAt resolved.dentry).dInode with
      | none => throw (.errno (-enoent))
      | some inode =>
        check inode
        let (parent, _) ← pathParentat depth path
        return { path := resolved, parent, inode }) (pathPut resolved)

/-- The dentry of the new name -/
def newDentry (parent : Addr) (last : Qstr) : V Addr := do
  match (← get).dcache.dLookup parent last with
  | some existing =>
    match (← dentryAt existing).dInode with
    | some _ => throw (.errno (-eexist))
    | none =>
      dget existing
      return existing
  | none =>
    match ← dAllocQstr parent last with
    | none => throw (.errno (-enomem))
    | some a => return a

def renameTo (io : RenameIo) (old : Resolved) (newDir : Ino) (new : Addr) : W Unit := do
  match (← dentryAt old.parent.dentry).dInode with
  | none => throw (.errno (-einval))
  | some oldDir =>
    ext2Rename G io oldDir old.path.dentry newDir new
    dAdd new (some old.inode)
    dAdd old.path.dentry none

/-- `vfs_rename` below the parents -/
def vfsRenameAt (io : RenameIo) (old : Resolved) (parent : Path) (last : Qstr) : W Unit := do
  let putPaths : V Unit := do
    pathPut parent
    pathPut old.parent
    pathPut old.path
  onError Stop.isErrno (do
    checked (if old.parent.mnt ≠ parent.mnt then -exdev else 0)
    match ← opDir parent.dentry with
    | none => throw (.errno (-eperm))
    | some newDir =>
      let new ← newDentry parent.dentry last
      onError Stop.isErrno (renameTo G io old newDir new) (dput new)
      dput new) putPaths
  putPaths

def vfsRename (depth : Nat) (io : RenameIo) (oldPath newPath : List UInt8) : W Unit := do
  let old ← resolveOld depth (fun _ => pure ()) oldPath
  let (parent, last) ← onError Stop.isErrno (pathParentat depth newPath) (do
    pathPut old.parent
    pathPut old.path)
  vfsRenameAt G io old parent last

end

end ZzzOs.Fs.Vfs
