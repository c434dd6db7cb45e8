import ZzzOs.Fs.Ext2.Dir.Model
import ZzzOs.Lib.Wp

/-!
# Path lookup

`fs/namei.c` with the dentry cache (`fs/dcache.c`), the inode cache (`fs/inode.c`) and the mounts
(`fs/namespace.c`). All file systems are ext2; their inodes do not change during a lookup.

A dentry is known by its address, an inode by its super block and number. The caches have no limit, so an
entry leaves its cache only when its count becomes 0; the order of their lists, and the lists of the
children of a dentry, are left out.

A call ends with a negative return value, or it does not end properly (`Stop`). The trace in the state,
of the dentries before each call of `dput`, is not part of the source.
-/

namespace ZzzOs.Fs.Vfs

open Function Lib Ext2

def enomem : Int := 12

def eexist : Int := 17

def enotdir : Int := 20

def erange : Int := 34

def eloop : Int := 40

abbrev Addr := Nat

abbrev Ino := Nat × Nat

abbrev Qstr := List UInt8

structure Dentry where
  dName : Qstr
  dInode : Option Ino
  dParent : Addr
  dSb : Nat
  dCount : Nat
  bucket : Nat
  /-- The dentries are numbered in the order they were allocated in; not part of the source. -/
  serial : Nat
  /-- The number of the parent. -/
  parentSerial : Nat
deriving DecidableEq

structure Vfsmount where
  mntSb : Nat
  mntRoot : Addr
  mntMountpoint : Addr
  refcount : Nat
deriving DecidableEq

structure Path where
  mnt : Nat
  dentry : Addr
deriving DecidableEq

/-- What an inode is; `ext2_readlink` can fail. -/
inductive Node where
  | dir (d : Dir)
  | link (target : Except Int (List UInt8))
  | other

/-- The dentries; those that are allocated are in the hash table, the newest first. -/
structure Dcache where
  dentries : Addr → Option Dentry
  table : List Addr

structure State where
  dcache : Dcache
  /-- `i_count` of the inodes in the cache, 0 for all others. -/
  icache : Ino → Nat
  /-- The mounts by their address, and the list of them. -/
  mounts : Nat → Option Vfsmount
  gMounts : List Nat
  gRootMnt : Nat
  /-- `current->fs` -/
  root : Path
  pwd : Path
  /-- The inodes of the file systems; an inode that cannot be read gives an error. -/
  nodes : Ino → Except Int Node
  /-- The references to the pages of an inode. -/
  pageRefs : Ino → Nat → Nat
  /-- What the next calls of `kmalloc` return. -/
  mem : List (Option Addr)
  /-- The page, if any, at which the next searches of a directory fail. -/
  reads : List (Option Nat)
  serial : Nat
  trace : List (Dcache × Addr)

/-- Why a call stops: a negative return value, an access to memory that was freed, a call through a
null pointer, or a loop that does not end. -/
inductive Stop where
  | errno (ret : Int)
  | freed
  | oops
  | spin
deriving DecidableEq

def Stop.isErrno : Stop → Bool
  | .errno _ => true
  | _ => false

abbrev V := EStateM Stop State

/-! ## The caches -/

/-- `dentry_cache_hash`, and the bucket of 128 -/
def dentryCacheHash (parent : Addr) (name : Qstr) : Nat :=
  name.foldl (fun h b => (h ^^^ b.toNat) * 16777619 % 2 ^ 64) (2166136261 ^^^ parent) % 128

def Dcache.set (c : Dcache) (a : Addr) (d : Dentry) : Dcache :=
  { c with dentries := update c.dentries a (some d) }

def Dcache.remove (c : Dcache) (a : Addr) : Dcache where
  dentries := update c.dentries a none
  table := c.table.erase a

def Dcache.add (c : Dcache) (a : Addr) (d : Dentry) : Dcache where
  dentries := update c.dentries a (some d)
  table := a :: c.table

def Dcache.dLookup (c : Dcache) (parent : Addr) (name : Qstr) : Option Addr :=
  c.table.find? fun a =>
    match c.dentries a with
    | none => false
    | some d =>
      decide (d.bucket = dentryCacheHash parent name ∧ d.dParent = parent ∧ d.dName = name)

def State.setDcache (s : State) (dcache : Dcache) : State := { s with dcache }

def State.setIcount (s : State) (ino : Ino) (n : Nat) : State :=
  { s with icache := update s.icache ino n }

def State.setMount (s : State) (m : Nat) (mnt : Option Vfsmount) : State :=
  { s with mounts := update s.mounts m mnt }

/-- The dentry at an address that is followed. -/
def dentryAt (a : Addr) : V Dentry := fun s =>
  match s.dcache.dentries a with
  | none => .error .freed s
  | some d => .ok d s

def mountAt (m : Nat) : V Vfsmount := fun s =>
  match s.mounts m with
  | none => .error .freed s
  | some mnt => .ok mnt s

def igrab (ino : Ino) : V Unit := modify fun s => s.setIcount ino (s.icache ino + 1)

/-- `iput`; the inode leaves the cache with its last reference. -/
def iput (ino : Ino) : V Unit := fun s =>
  if s.icache ino = 0 then .error .freed s
  else .ok () (s.setIcount ino (s.icache ino - 1))

def dget (a : Addr) : V Unit := do
  let d ← dentryAt a
  modify fun s => s.setDcache (s.dcache.set a { d with dCount := d.dCount + 1 })

def Dcache.put (c : Dcache) (a : Addr) : Dcache :=
  match c.dentries a with
  | none => c
  | some d => if d.dCount ≤ 1 then c.remove a else c.set a { d with dCount := d.dCount - 1 }

def dput (a : Addr) : V Unit := do
  let d ← dentryAt a
  modify fun s => { s with dcache := s.dcache.put a, trace := (s.dcache, a) :: s.trace }
  if d.dCount ≤ 1 then
    match d.dInode with
    | none => pure ()
    | some ino => iput ino

def mntget (m : Nat) : V Unit := do
  let mnt ← mountAt m
  modify fun s => s.setMount m (some { mnt with refcount := mnt.refcount + 1 })

def mntput (m : Nat) : V Unit := do
  let mnt ← mountAt m
  modify fun s => s.setMount m
    (if mnt.refcount ≤ 1 then none else some { mnt with refcount := mnt.refcount - 1 })

def pathGet (p : Path) : V Unit := do
  mntget p.mnt
  dget p.dentry

def pathPut (p : Path) : V Unit := do
  mntput p.mnt
  dput p.dentry

/-- The next call of `kmalloc`; it does not return memory that a dentry stands in. -/
def kmalloc : V (Option Addr) := fun s =>
  match s.mem with
  | [] => .ok none s
  | r :: mem =>
    let r := r.bind fun a => if a = 0 ∨ (s.dcache.dentries a).isSome then none else some a
    .ok r { s with mem }

/-- `d_alloc_qstr` below a dentry -/
def dAllocQstr (parent : Addr) (name : Qstr) : V (Option Addr) := do
  match ← kmalloc with
  | none => return none
  | some a =>
    let p ← dentryAt parent
    modify fun s =>
      { s with
        dcache := s.dcache.add a
          { dName := name, dInode := none, dParent := parent, dSb := p.dSb, dCount := 1,
            bucket := dentryCacheHash parent name, serial := s.serial, parentSerial := p.serial }
        serial := s.serial + 1 }
    return some a

def dAdd (a : Addr) (ino : Option Ino) : V Unit := do
  let d ← dentryAt a
  match d.dInode with
  | none => pure ()
  | some old => iput old
  match ino with
  | none => pure ()
  | some new => igrab new
  modify fun s => s.setDcache (s.dcache.set a { d with dInode := ino })

/-! ## ext2 -/

/-- `ext2_iget`; a new inode in the cache is read from the disk. -/
def ext2Iget (ino : Ino) : V Unit := do
  if (← get).icache ino ≠ 0 then igrab ino
  else
    igrab ino
    match (← get).nodes ino with
    | .ok _ => pure ()
    | .error ret =>
      iput ino
      throw (.errno ret)

/-- The pages, of `n` that can be read, that `ext2_find` has taken and not given back: those it has
searched without finding the entry. -/
def pagesKept (d : Dir) (child : Qstr) (n : Nat) : List Nat :=
  let n := match scanPages (findIn d child) n 0 with
    | some (some (i, _)) => i
    | _ => n
  (List.range n).filter fun i => decide (ext2DirRecLen child.length ≤ lastValidByte d.iSize i)

/-- `ext2_find` on a directory; behind a page that cannot be read there is no entry. -/
def find (dir : Ino) (d : Dir) (child : Qstr) : V Nat := do
  let s ← get
  let n := min (pageNr d.iSize) (s.reads.head?.join.getD (pageNr d.iSize))
  match scanPages (findIn d child) n 0 with
  | none => throw .spin
  | some r =>
    set { s with
      reads := s.reads.tail
      pageRefs := update s.pageRefs dir fun i =>
        s.pageRefs dir i + (pagesKept d child n).count i }
    return r.elim 0 fun (i, off) => deInode (d.page i) off

/-- `i_op->lookup`; only directories have one. -/
def ext2Lookup (dir : Ino) (child : Addr) : V Unit := do
  match (← get).nodes dir with
  | .ok (.dir d) =>
    let ino ← find dir d (← dentryAt child).dName
    if ino = 0 then throw (.errno (-enoent))
    ext2Iget (dir.1, ino)
    dAdd child (some (dir.1, ino))
  | _ => throw .oops

/-! ## Walking -/

def qstrIsDot (name : Qstr) : Bool := name == [46]

def qstrIsDotdot (name : Qstr) : Bool := name == [46, 46]

/-- `next_component`: the component and the rest of the path. The length is a `u16`. -/
def nextComponent (path : List UInt8) : Option (Qstr × List UInt8) :=
  let path := path.dropWhile (· == 47)
  if path = [] then none
  else
    let name := path.takeWhile (· != 47)
    some (name.take (name.length % 2 ^ 16), path.dropWhile (· != 47))

/-- The components of a path. -/
def componentsFrom : Nat → List UInt8 → List Qstr
  | 0, _ => []
  | fuel + 1, path =>
    match nextComponent path with
    | none => []
    | some (name, path) => name :: componentsFrom fuel path

/-- A path ends before the first 0. -/
def cstr (path : List UInt8) : List UInt8 := path.takeWhile (· != 0)

def components (path : List UInt8) : List Qstr := componentsFrom path.length path

def pathInitStart (path : List UInt8) : V Path := do
  let s ← get
  let start := if path.head? = some 47 then s.root else s.pwd
  pathGet start
  return start

def vfsSearchMount (s : State) (dentry : Addr) : Option (Nat × Vfsmount) :=
  s.gMounts.findSome? fun m =>
    match s.mounts m with
    | none => none
    | some mnt => if mnt.mntMountpoint = dentry then some (m, mnt) else none

/-- A new dentry gets its inode from the disk. -/
def lookupNew (parent : Addr) (a : Addr) : V Addr := do
  match (← dentryAt parent).dInode with
  | none => throw .oops
  | some dir =>
    ext2Lookup dir a
    return a

/-- The child of a dentry, from the cache or from the disk. -/
def lookupChild (parent : Addr) (name : Qstr) : V Addr := do
  match (← get).dcache.dLookup parent name with
  | some a =>
    dget a
    return a
  | none =>
    match ← dAllocQstr parent name with
    | none => throw (.errno (-enomem))
    | some a => lookupNew parent a

section Lookup

-- `lookup` is `path_lookup` for the target of a link
variable (lookup : List UInt8 → V Path)

/-- `i_op->readlink` and the lookup of the target -/
def followLink (target : Except Int (List UInt8)) : V Path := do
  match ← kmalloc with
  | none => throw (.errno (-enomem))
  | some _ =>
    match target with
    | .error ret => throw (.errno ret)
    | .ok target => lookup target

/-- The part of `path_step_down` after the child was found -/
def stepInto (path : Path) (next : Addr) : V Path := do
  match (← dentryAt next).dInode with
  | none =>
    dput next
    throw (.errno (-enoent))
  | some ino =>
    match vfsSearchMount (← get) next with
    | some (m, mnt) =>
      mntget m
      dget mnt.mntRoot
      dput next
      pathPut path
      return { mnt := m, dentry := mnt.mntRoot }
    | none =>
      match (← get).nodes ino with
      | .ok (.link target) =>
        let p ← onError Stop.isErrno (followLink lookup target) (dput next)
        dput next
        pathPut path
        return p
      | _ =>
        mntget path.mnt
        pathPut path
        return { mnt := path.mnt, dentry := next }

def pathStepDown (path : Path) (name : Qstr) : V Path := do
  let next ← lookupChild path.dentry name
  stepInto lookup path next

/-- The first other mount of the file system that a mountpoint is in -/
def mntAbove (s : State) (m : Nat) (mountpoint : Dentry) : Option Nat :=
  s.gMounts.find? fun m' =>
    decide (m' ≠ m) && match s.mounts m' with
      | none => false
      | some mnt => decide (mnt.mntSb = mountpoint.dSb)

def vfsGetMntParent (m : Nat) : V Path := do
  let s ← get
  if m = s.gRootMnt then
    mntget s.gRootMnt
    let mnt ← mountAt s.gRootMnt
    dget mnt.mntRoot
    return { mnt := s.gRootMnt, dentry := mnt.mntRoot }
  else
    let mountpoint ← dentryAt (← mountAt m).mntMountpoint
    match mntAbove s m mountpoint with
    | none => throw (.errno (-enoent))
    | some m' =>
      mntget m'
      dget mountpoint.dParent
      return { mnt := m', dentry := mountpoint.dParent }

/-- The path above one that is not the root of the process -/
def pathAbove (path : Path) : V Path := do
  let mnt ← mountAt path.mnt
  if path.dentry = mnt.mntRoot then vfsGetMntParent path.mnt
  else
    mntget path.mnt
    let d ← dentryAt path.dentry
    dget d.dParent
    return { mnt := path.mnt, dentry := d.dParent }

def pathStepUp (path : Path) : V Path := do
  if path = (← get).root then return path
  else
    let new ← pathAbove path
    pathPut path
    return new

/-- One component other than `.` -/
def pathStep (path : Path) (name : Qstr) : V Path :=
  onError Stop.isErrno
    (if qstrIsDotdot name then pathStepUp path else pathStepDown lookup path name) (pathPut path)

/-- The loop of `path_lookup` -/
def walk : Path → List Qstr → V Path
  | path, [] => return path
  | path, name :: names => do
    if qstrIsDot name then walk path names
    else
      let path ← pathStep lookup path name
      walk path names

/-- `path_lookup`, where links are followed up to a depth. -/
def pathLookup : Nat → List UInt8 → V Path
  | 0, _ => throw .spin
  | depth + 1, path => do
    let path := cstr path
    if path = [] then throw (.errno (-enoent))
    let start ← pathInitStart path
    walk (pathLookup depth) start (components path)

/-- The loop of `path_parentat` -/
def walkParent : Path → List Qstr → V (Path × Qstr)
  | path, [] => do
    pathGet path
    let d ← dentryAt path.dentry
    pathPut path
    return (path, d.dName)
  | path, [name] => return (path, name)
  | path, name :: names => do
    if qstrIsDot name then walkParent path names
    else
      let path ← pathStep lookup path name
      walkParent path names

end Lookup

def pathParentat (depth : Nat) (path : List UInt8) : V (Path × Qstr) := do
  let path := cstr path
  if path = [] then throw (.errno (-einval))
  let start ← pathInitStart path
  walkParent (pathLookup depth) start (components path)

/-- `path_lookup_nofollow`; the reference to the parent's dentry is not given back. -/
def pathLookupNofollow (depth : Nat) (path : List UInt8) : V Path := do
  if cstr path = [] then throw (.errno (-enoent))
  let (parent, last) ← pathParentat depth path
  if qstrIsDot last then return parent
  else if qstrIsDotdot last then onError Stop.isErrno (pathStepUp parent) (pathPut parent)
  else
    onError Stop.isErrno (do
      let next ← lookupChild parent.dentry last
      match (← dentryAt next).dInode with
      | none =>
        dput next
        throw (.errno (-enoent))
      | some _ => return { mnt := parent.mnt, dentry := next }) (pathPut parent)

/-! ## Calls -/

/-- `vfs_chdir`, with `set_fs_pwd` -/
def vfsChdir (depth : Nat) (path : List UInt8) : V Unit := do
  let resolved ← pathLookup depth path
  match (← dentryAt resolved.dentry).dInode with
  | none =>
    pathPut resolved
    throw (.errno (-enoent))
  | some ino =>
    match (← get).nodes ino with
    | .ok (.dir _) =>
      pathGet resolved
      let old := (← get).pwd
      modify fun s => { s with pwd := resolved }
      pathPut old
      pathPut resolved
    | _ =>
      pathPut resolved
      throw (.errno (-enotdir))

/-- The loop of `vfs_getcwd`: `pos` bytes of the buffer are left, and `out` has been written behind
them. Each round uses at least two bytes. -/
def getcwdFrom (root : Path) : Nat → Path → Nat → List UInt8 → V (List UInt8)
  | fuel, cur, pos, out => do
    let putPaths : V Unit := do
      pathPut cur
      pathPut root
    if cur = root then
      putPaths
      return out
    else
      match fuel with
      | 0 =>
        putPaths
        throw (.errno (-erange))
      | fuel + 1 =>
        let mnt ← mountAt cur.mnt
        let name := (← dentryAt
          (if cur.dentry = mnt.mntRoot then mnt.mntMountpoint else cur.dentry)).dName
        if name.length = 0 ∨ pos < name.length + 1 then
          putPaths
          throw (.errno (-erange))
        else
          let next ← onError Stop.isErrno (pathStepUp cur) putPaths
          getcwdFrom root fuel next (pos - (name.length + 1)) (47 :: name ++ out)

/-- `vfs_getcwd` with a buffer of `size` bytes -/
def vfsGetcwd (size : Nat) : V (List UInt8) := do
  if size = 0 then throw (.errno (-einval))
  let s ← get
  pathGet s.root
  pathGet s.pwd
  if s.pwd = s.root then
    pathPut s.pwd
    pathPut s.root
    if size < 2 then throw (.errno (-erange)) else return [47, 0]
  else getcwdFrom s.root size s.pwd (size - 1) [0]

/-- `filp_open`; `ret` is the error of what it does with the file itself, or 0. -/
def filpOpen (depth : Nat) (nofollow : Bool) (ret : Int) (path : List UInt8) : V Path := do
  let resolved ← (if nofollow then pathLookupNofollow else pathLookup) depth path
  match (← dentryAt resolved.dentry).dInode with
  | none =>
    pathPut resolved
    throw (.errno (-enoent))
  | some ino =>
    match nofollow, (← get).nodes ino with
    | true, .ok (.link _) =>
      pathPut resolved
      throw (.errno (-eloop))
    | _, _ =>
      if ret = 0 then return resolved
      else
        pathPut resolved
        throw (.errno ret)

def filpClose (fPath : Path) : V Unit := pathPut fPath

end ZzzOs.Fs.Vfs
